import Mathlib.Data.List.Basic

/-! # Scanners that take the longest match

A generated scanner runs an automaton over the input and remembers the last accepting state it came
through, with the input behind it. It stops where there is no transition, at the end of the input, or
early in a state that no longer match can follow.

* **`scan`** — the loop.
* **`scan_of_reaches`** — a word that ends the match.
* **`scan_loop`** — a run of characters that keep the automaton in one accepting state.
* **`length_scan_lt`** — a match takes something.
* **`scan_aligned`** — two inputs that agree up to the end of the match. -/

namespace Scanner

/-- An automaton with its accepting states, and those among them at which the scanner stops at once. -/
structure Automaton (σ β : Type*) where
  next : σ → β → Option σ
  accepting : σ → Bool
  final : σ → Bool

variable {σ β : Type*} {A : Automaton σ β} {s t : σ} {b : β} {bs w rest : List β}
  {best : Option (σ × List β)}

/-- The accepting state reached last, and the input behind it; `best` is the one so far. -/
def scan (A : Automaton σ β) : σ → List β → Option (σ × List β) → Option (σ × List β)
  | _, [], best => best
  | s, b :: bs, best =>
    match A.next s b with
    | none => best
    | some t =>
      if A.accepting t then
        if A.final t then some (t, bs) else scan A t bs (some (t, bs))
      else scan A t bs best

/-- There is nothing more to match. -/
theorem scan_stop (h : ∀ b ∈ rest.head?, A.next s b = none) : scan A s rest best = best := by
  cases rest with
  | nil => rfl
  | cons b bs => rw [scan, h b rfl]

/-- A state after which nothing is looked at. -/
theorem scan_final (h : A.next s b = some t) (ha : A.accepting t = true) (hf : A.final t = true) :
    scan A s (b :: bs) best = some (t, bs) := by
  rw [scan, h]
  simp only [ha, hf, if_true]

/-- An accepting state after which there may be more. -/
theorem scan_accepting (h : A.next s b = some t) (ha : A.accepting t = true) (hf : A.final t = false) :
    scan A s (b :: bs) best = scan A t bs (some (t, bs)) := by
  rw [scan, h]
  simp only [ha, hf, if_true, Bool.false_eq_true, if_false]

/-- A state that is on the way to an accepting one. -/
theorem scan_pending (h : A.next s b = some t) (ha : A.accepting t = false) :
    scan A s (b :: bs) best = scan A t bs best := by
  rw [scan, h]
  simp only [ha, Bool.false_eq_true, if_false]

/-- The state at the end of a word, if it ends the match there and no state before it does. -/
def reaches (A : Automaton σ β) : σ → List β → Option σ
  | _, [] => none
  | s, b :: bs =>
    match A.next s b with
    | none => none
    | some t =>
      if A.accepting t && A.final t then if bs.isEmpty then some t else none
      else reaches A t bs

/-- **A word that ends in a final state is the match**, whatever follows. -/
theorem scan_of_reaches (h : reaches A s w = some t) : scan A s (w ++ rest) best = some (t, rest) := by
  induction w generalizing s best with
  | nil => simp [reaches] at h
  | cons b w ih =>
    rw [reaches] at h
    cases hnext : A.next s b with
    | none => simp [hnext] at h
    | some u =>
      simp only [hnext] at h
      rw [List.cons_append]
      split_ifs at h with hfinal hw
      · obtain rfl := Option.some.inj h
        rw [Bool.and_eq_true] at hfinal
        obtain rfl := List.isEmpty_iff.mp hw
        exact scan_final hnext hfinal.1 hfinal.2
      · cases ha : A.accepting u with
        | false => rw [scan_pending hnext ha, ih h]
        | true =>
          rw [ha, Bool.true_and, Bool.not_eq_true] at hfinal
          rw [scan_accepting hnext ha hfinal, ih h]

/-- **A loop on one accepting state** takes all that keeps the automaton there. -/
theorem scan_loop (h : ∀ b ∈ w, A.next s b = some s) (ha : A.accepting s = true)
    (hf : A.final s = false) :
    scan A s (w ++ rest) (some (s, w ++ rest)) = scan A s rest (some (s, rest)) := by
  induction w with
  | nil => rfl
  | cons b w ih =>
    rw [List.cons_append, scan_accepting (h b (by simp)) ha hf]
    exact ih fun c hc => h c (by simp [hc])

/-- A match that was found is not lost. -/
theorem isSome_scan {s : σ} {input : List β} {best : Option (σ × List β)} (h : best.isSome) :
    (scan A s input best).isSome := by
  induction input generalizing s best with
  | nil => exact h
  | cons b bs ih =>
    rw [scan]
    split
    · exact h
    · split_ifs
      · rfl
      · exact ih rfl
      · exact ih h

/-- What is behind a match is shorter than the input, if what was behind the best one so far was. -/
theorem length_le_of_scan {s : σ} {input : List β} {best : Option (σ × List β)} {n : ℕ}
    (hbest : ∀ m ∈ best, m.2.length < n) (hn : input.length ≤ n) :
    ∀ m ∈ scan A s input best, m.2.length < n := by
  induction input generalizing s best with
  | nil => exact hbest
  | cons b bs ih =>
    have hbs : bs.length < n := by
      rw [List.length_cons] at hn
      omega
    have hnew : ∀ t : σ, ∀ m ∈ some (t, bs), m.2.length < n := by
      rintro t m hm
      obtain rfl := Option.some.inj hm
      exact hbs
    rw [scan]
    split
    · exact hbest
    · next t _ =>
      split_ifs
      · exact hnew t
      · exact ih (hnew t) (Nat.le_of_lt hbs)
      · exact ih hbest (Nat.le_of_lt hbs)

/-- **A match takes something.** -/
theorem length_scan_lt {s t : σ} {input rest : List β} (h : scan A s input none = some (t, rest)) :
    rest.length < input.length :=
  length_le_of_scan (by simp) (Nat.le_refl _) (t, rest) h

/-! ## Two inputs -/

section Aligned

variable {R : List β → List β → Prop} {M : σ → Prop}

/-- **The scanner on two inputs** that agree up to where it stops: it comes to the same state behind the same
word. `R` relates what is left of the inputs, and the automaton stays in the states `M`; where the inputs
part, no state of `M` has a transition on either. -/
theorem scan_aligned
    (hR : ∀ x y, R x y →
      (∀ s, M s → (∀ b ∈ x.head?, A.next s b = none) ∧ ∀ b ∈ y.head?, A.next s b = none) ∨
        ∃ b x' y', x = b :: x' ∧ y = b :: y' ∧ R x' y')
    (hM : ∀ s b t, M s → A.next s b = some t → M t) {s t : σ} (hs : M s) (ht : M t)
    {input input' x y bx by' : List β} (hxy : R x y) (hb : R bx by')
    (hin : ∃ w, input = w ++ x ∧ input' = w ++ y) (hbin : ∃ w, input = w ++ bx ∧ input' = w ++ by') :
    ∃ t' rx ry w, scan A s x (some (t, bx)) = some (t', rx) ∧ scan A s y (some (t, by')) = some (t', ry) ∧
      input = w ++ rx ∧ input' = w ++ ry ∧ R rx ry ∧ M t' := by
  induction x generalizing s t y bx by' with
  | nil =>
    have hstop : ∀ b ∈ y.head?, A.next s b = none := by
      rcases hR [] y hxy with h | ⟨b, x', y', hx, -, -⟩
      · exact (h s hs).2
      · cases hx
    obtain ⟨w, hw, hw'⟩ := hbin
    exact ⟨t, bx, by', w, rfl, scan_stop hstop, hw, hw', hb, ht⟩
  | cons b x ih =>
    rcases hR (b :: x) y hxy with h | ⟨c, x', y', hx, rfl, hrest⟩
    · obtain ⟨w, hw, hw'⟩ := hbin
      exact ⟨t, bx, by', w, scan_stop (h s hs).1, scan_stop (h s hs).2, hw, hw', hb, ht⟩
    · obtain ⟨rfl, rfl⟩ := List.cons.inj hx
      have hin' : ∃ w, input = w ++ x ∧ input' = w ++ y' := by
        obtain ⟨w, hw, hw'⟩ := hin
        exact ⟨w ++ [b], by simp [hw], by simp [hw']⟩
      rw [scan, scan]
      cases hnext : A.next s b with
      | none =>
        obtain ⟨w, hw, hw'⟩ := hbin
        exact ⟨t, bx, by', w, rfl, rfl, hw, hw', hb, ht⟩
      | some u =>
        have hu := hM s b u hs hnext
        simp only
        split_ifs
        · obtain ⟨w, hw, hw'⟩ := hin'
          exact ⟨u, x, y', w, rfl, rfl, hw, hw', hrest, hu⟩
        · exact ih hu hu hrest hrest hin' hin'
        · exact ih hu ht hrest hb hin' hbin

end Aligned

end Scanner
