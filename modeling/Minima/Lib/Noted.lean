import Mathlib.Tactic

/-! # Computations that note what they do

A computation that may fail, and that notes on the way what it does to its surroundings. A failure keeps
the notes that were made before it.

* **`Noted.Keeps`** — every note is of one kind, and so is every result.
* **`Keeps.bind`**, **`Keeps.lift_bind`** — the rules for a sequence. -/

/-- A computation with failures `ε`, notes `ν` and results `α`. -/
@[ext]
structure Noted (ε ν α : Type) where
  notes : List ν
  outcome : Except ε α

namespace Noted

variable {ε ν α β : Type}

/-- After the first half has failed the second half notes nothing. -/
instance : Monad (Noted ε ν) where
  pure a := ⟨[], .ok a⟩
  bind x f :=
    match x.outcome with
    | .ok a => ⟨x.notes ++ (f a).notes, (f a).outcome⟩
    | .error e => ⟨x.notes, .error e⟩

/-- A computation without notes. -/
def lift (x : Except ε α) : Noted ε ν α := ⟨[], x⟩

@[simp] theorem outcome_pure (a : α) : (pure a : Noted ε ν α).outcome = pure a := rfl

@[simp] theorem outcome_lift (x : Except ε α) : (lift x : Noted ε ν α).outcome = x := rfl

/-- **Without its notes** a sequence is the sequence of the computations. -/
@[simp] theorem outcome_bind (x : Noted ε ν α) (f : α → Noted ε ν β) :
    (x >>= f).outcome = x.outcome >>= fun a => (f a).outcome := by
  show (match x.outcome with
    | .ok a => (⟨x.notes ++ (f a).notes, (f a).outcome⟩ : Noted ε ν β)
    | .error e => ⟨x.notes, .error e⟩).outcome = _
  cases x.outcome <;> rfl

/-- Every note satisfies `P`, and a result satisfies `Q`. -/
def Keeps (x : Noted ε ν α) (P : ν → Prop) (Q : α → Prop) : Prop :=
  (∀ n ∈ x.notes, P n) ∧ ∀ a, x.outcome = .ok a → Q a

variable {P : ν → Prop} {Q : α → Prop} {R : β → Prop}

theorem Keeps.pure {a : α} (h : Q a) : (Pure.pure a : Noted ε ν α).Keeps P Q :=
  ⟨fun _ hn => absurd hn List.not_mem_nil, fun b hb => by cases hb; exact h⟩

theorem Keeps.lift {x : Except ε α} (h : ∀ a, x = .ok a → Q a) : (Noted.lift x).Keeps P Q :=
  ⟨fun _ hn => absurd hn List.not_mem_nil, h⟩

theorem Keeps.mono {x : Noted ε ν α} {Q' : α → Prop} (h : x.Keeps P Q) (hQ : ∀ a, Q a → Q' a) :
    x.Keeps P Q' := ⟨h.1, fun a ha => hQ a (h.2 a ha)⟩

/-- **In sequence**, the second half starts from a result of the first. -/
theorem Keeps.bind {x : Noted ε ν α} {f : α → Noted ε ν β} (hx : x.Keeps P Q)
    (hf : ∀ a, x.outcome = .ok a → Q a → (f a).Keeps P R) : (x >>= f).Keeps P R := by
  refine ⟨fun n hn => ?_, fun b hb => ?_⟩
  · change n ∈ (match x.outcome with
      | .ok a => (⟨x.notes ++ (f a).notes, (f a).outcome⟩ : Noted ε ν β)
      | .error e => ⟨x.notes, .error e⟩).notes at hn
    cases hout : x.outcome with
    | error e =>
      rw [hout] at hn
      exact hx.1 n hn
    | ok a =>
      rw [hout] at hn
      rcases List.mem_append.mp hn with hn | hn
      · exact hx.1 n hn
      · exact (hf a hout (hx.2 a hout)).1 n hn
  · rw [outcome_bind] at hb
    cases hout : x.outcome with
    | error e =>
      rw [hout] at hb
      exact absurd hb (by simp [Bind.bind, Except.bind])
    | ok a =>
      rw [hout] at hb
      exact (hf a hout (hx.2 a hout)).2 b hb

/-- A first half without notes. -/
theorem Keeps.lift_bind {x : Except ε α} {f : α → Noted ε ν β} (hf : ∀ a, x = .ok a → (f a).Keeps P R) :
    (Noted.lift x >>= f).Keeps P R :=
  (Keeps.lift (Q := fun _ => True) fun _ _ => trivial).bind fun a ha _ => hf a ha

end Noted
