import Mathlib

/-! # One-time names behind a wrapping counter

A counter hands out names, one a use, and starts again when it has handed out all of them. What is done
under each name goes to a ledger. No name is used for two different things, and nothing is done after
all names are used, exactly as long as there are no more uses than names.

* **`OneTime.Ledger`** — a ledger of names that are used once.
* **`OneTime.taken`** — the ledger of a wrapping counter.
* **`OneTime.ledger_taken_iff`** — it is one of names that are used once up to as many uses as there are names. -/

namespace Minima

namespace OneTime

variable {ν δ : Type*}

/-- **A ledger of names that are used once**: no name stands for two different things, and nothing is
entered after all names are used. -/
structure Ledger (isName : ν → Prop) (ledger : List (ν × δ)) : Prop where
  once : ∀ name d d', (name, d) ∈ ledger → (name, d') ∈ ledger → d = d'
  refuses : ∀ before entry after, ledger = before ++ entry :: after →
    ¬ ∀ name, isName name → name ∈ before.map Prod.fst

/-- The use that a counter takes: past the last one it is the first. -/
def next (max counter : ℕ) : ℕ := if max ≤ counter then 0 else counter

/-- **The ledger of a wrapping counter.** -/
def taken (max : ℕ) : ℕ → List δ → List (ℕ × δ)
  | _, [] => []
  | counter, d :: ds => (next max counter, d) :: taken max (next max counter + 1) ds

@[simp] theorem taken_nil (max counter : ℕ) : taken max counter ([] : List δ) = [] := rfl

theorem taken_cons (max counter : ℕ) (d : δ) (ds : List δ) :
    taken max counter (d :: ds) = (next max counter, d) :: taken max (next max counter + 1) ds := rfl

@[simp] theorem length_taken (max : ℕ) (ds : List δ) : ∀ counter, (taken max counter ds).length = ds.length := by
  induction ds with
  | nil => exact fun counter => rfl
  | cons d ds ih => exact fun counter => congrArg (· + 1) (ih _)

/-- Before the counter starts again the uses are numbered in order. -/
theorem taken_of_le {max : ℕ} (ds : List δ) :
    ∀ {counter : ℕ}, counter + ds.length ≤ max → taken max counter ds = (List.range' counter ds.length).zip ds := by
  induction ds with
  | nil => exact fun _ => rfl
  | cons d ds ih =>
    intro counter h
    rw [List.length_cons] at h
    have hnext : next max counter = counter := if_neg (by omega)
    rw [taken_cons, hnext, ih (by omega), List.length_cons, List.range'_succ, List.zip_cons_cons]

/-- The ledger of uses that come one after the other. -/
theorem taken_append {max : ℕ} (ds es : List δ) : ∀ {counter : ℕ}, counter + ds.length ≤ max →
    taken max counter (ds ++ es) = taken max counter ds ++ taken max (counter + ds.length) es := by
  induction ds with
  | nil => exact fun _ => rfl
  | cons d ds ih =>
    intro counter h
    rw [List.length_cons] at h
    have hnext : next max counter = counter := if_neg (by omega)
    rw [List.cons_append, taken_cons, taken_cons, hnext, ih (by omega), List.length_cons, List.cons_append,
      Nat.add_right_comm, Nat.add_assoc]

/-- The use after the last one is the first again. -/
theorem mem_taken_concat {max : ℕ} {ds : List δ} (h : ds.length = max) (d : δ) :
    (0, d) ∈ taken max 0 (ds ++ [d]) := by
  have hnext : next max (0 + ds.length) = 0 := if_pos (by omega)
  rw [taken_append _ _ (by omega), taken_cons, hnext]
  exact List.mem_append_right _ List.mem_cons_self

/-- All names are used after as many uses. -/
theorem map_fst_taken {max : ℕ} {ds : List δ} (h : ds.length = max) :
    (taken max 0 ds).map Prod.fst = List.range max := by
  rw [taken_of_le ds (by omega), List.map_fst_zip (by rw [List.length_range']), h, List.range_eq_range']

/-- A use before the counter starts again: it is in range, and the thing is the one at its place. -/
theorem getElem?_of_mem_taken {max : ℕ} {ds : List δ} (h : ds.length ≤ max) {u : ℕ} {d : δ}
    (hu : (u, d) ∈ taken max 0 ds) : u < max ∧ ds[u]? = some d := by
  rw [taken_of_le ds (by omega)] at hu
  obtain ⟨i, hi⟩ := List.mem_iff_getElem?.mp hu
  obtain ⟨hrange, hd⟩ := List.getElem?_zip_eq_some.mp hi
  obtain ⟨hlt, rfl⟩ := List.getElem?_eq_some_iff.mp hrange
  rw [List.length_range'] at hlt
  simp only [List.getElem_range', Nat.zero_add, Nat.one_mul]
  exact ⟨by omega, hd⟩

section

variable {max : ℕ} {name : ℕ → ν} {isName : ν → Prop}

/-- After as many uses as there are names, all are used. -/
theorem mem_map_fst_taken (hname : ∀ x, isName x ↔ ∃ u < max, name u = x) {ds : List δ}
    (h : ds.length = max) {x : ν} (hx : isName x) :
    x ∈ ((taken max 0 ds).map (Prod.map name id)).map Prod.fst := by
  obtain ⟨u, hu, rfl⟩ := (hname x).mp hx
  have hmem : u ∈ (taken max 0 ds).map Prod.fst := by
    rw [map_fst_taken h]
    exact List.mem_range.mpr hu
  obtain ⟨entry, hentry, rfl⟩ := List.mem_map.mp hmem
  exact List.mem_map.mpr ⟨_, List.mem_map_of_mem hentry, rfl⟩

/-- A list of all names is as long as there are names. -/
theorem le_length_of_names (hinj : ∀ u < max, ∀ u' < max, name u = name u' → u = u')
    (hname : ∀ x, isName x ↔ ∃ u < max, name u = x) {xs : List ν} (h : ∀ x, isName x → x ∈ xs) :
    max ≤ xs.length := by
  have hnodup : ((List.range max).map name).Nodup := by
    refine List.Nodup.map_on ?_ List.nodup_range
    intro u hu u' hu' huu
    exact hinj u (List.mem_range.mp hu) u' (List.mem_range.mp hu') huu
  have hsub : ∀ x ∈ (List.range max).map name, x ∈ xs := by
    intro x hx
    obtain ⟨u, hu, rfl⟩ := List.mem_map.mp hx
    exact h _ ((hname _).mpr ⟨u, List.mem_range.mp hu, rfl⟩)
  have hlen := (List.subperm_of_subset hnodup hsub).length_le
  rwa [List.length_map, List.length_range] at hlen

/-- **Names are used once exactly as long as there are no more uses than names.** -/
theorem ledger_taken_iff (hinj : ∀ u < max, ∀ u' < max, name u = name u' → u = u')
    (hname : ∀ x, isName x ↔ ∃ u < max, name u = x) (ds : List δ) :
    Ledger isName ((taken max 0 ds).map (Prod.map name id)) ↔ ds.length ≤ max := by
  constructor
  · intro h
    by_contra hlt
    -- the use after the last one
    have hsplit : ds = ds.take max ++ ds[max] :: ds.drop (max + 1) := by
      rw [← List.drop_eq_getElem_cons (by omega), List.take_append_drop]
    have hlen : (ds.take max).length = max := by
      rw [List.length_take]
      omega
    have hledger : taken max 0 (ds.take max ++ ds[max] :: ds.drop (max + 1)) = _ :=
      taken_append _ _ (by omega)
    rw [← hsplit, taken_cons] at hledger
    refine h.refuses _ _ _ (by rw [hledger, List.map_append, List.map_cons]) fun x hx => ?_
    exact mem_map_fst_taken hname hlen hx
  · intro h
    constructor
    · intro x d d' hd hd'
      obtain ⟨⟨u, e⟩, hu, heq⟩ := List.mem_map.mp hd
      obtain ⟨⟨u', e'⟩, hu', heq'⟩ := List.mem_map.mp hd'
      simp only [Prod.map_apply, id_eq, Prod.mk.injEq] at heq heq'
      obtain ⟨hlt, hat⟩ := getElem?_of_mem_taken h hu
      obtain ⟨hlt', hat'⟩ := getElem?_of_mem_taken h hu'
      obtain rfl := hinj u hlt u' hlt' (heq.1.trans heq'.1.symm)
      rw [hat, Option.some.injEq] at hat'
      rw [← heq.2, ← heq'.2, hat']
    · intro before entry after hledger hall
      have hlong := le_length_of_names hinj hname hall
      have hlen := congrArg List.length hledger
      simp only [List.length_map, length_taken, List.length_append, List.length_cons] at hlen hlong
      omega

end

end OneTime

end Minima
