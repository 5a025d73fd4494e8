import Mathlib.Data.List.Basic

/-! # Occurrences of a word in a text

A word occurs in a text wherever the text goes on with it. When only the first letter of a word is its
mark, the word does not overlap itself, and the places where it stands can be counted from the parts
that a text is put together from.

* **`Occurrences.findFirst_eq`** — the first occurrence. -/

namespace Occurrences

variable {α : Type*} [DecidableEq α]

/-- The number of occurrences of a word that is not empty. -/
def occ (m : List α) : List α → ℕ
  | [] => 0
  | c :: cs => (if m <+: c :: cs then 1 else 0) + occ m cs

/-- The first occurrence: the text in front of it, and the text behind it. -/
def findFirst (m : List α) : List α → Option (List α × List α)
  | [] => if m = [] then some ([], []) else none
  | c :: cs =>
    if m <+: c :: cs then some ([], (c :: cs).drop m.length)
    else (findFirst m cs).map fun found => (c :: found.1, found.2)

/-- The last part of a text has no more occurrences than the text. -/
theorem occ_le_append (m a b : List α) : occ m b ≤ occ m (a ++ b) := by
  induction a with
  | nil => exact Nat.le_refl _
  | cons c a ih =>
    rw [List.cons_append, occ]
    omega

theorem occ_le_length (m s : List α) : occ m s ≤ s.length := by
  induction s with
  | nil => exact Nat.le_refl _
  | cons c s ih =>
    rw [occ, List.length_cons]
    split <;> omega

variable {d : α} {ds : List α}

/-- No occurrence begins at another letter than the mark. -/
theorem occ_skip {a : List α} (h : d ∉ a) (b : List α) : occ (d :: ds) (a ++ b) = occ (d :: ds) b := by
  induction a with
  | nil => rfl
  | cons c a ih =>
    have hc : ¬ d :: ds <+: c :: (a ++ b) := fun hp =>
      h (List.mem_cons.mpr (.inl (List.cons_prefix_cons.mp hp).1))
    rw [List.cons_append, occ, if_neg hc, Nat.zero_add, ih fun hmem => h (List.mem_cons_of_mem _ hmem)]

/-- **A word with one mark** occurs once where it stands. -/
theorem occ_mark (h : d ∉ ds) (b : List α) :
    occ (d :: ds) (d :: ds ++ b) = 1 + occ (d :: ds) b := by
  have hhere : d :: ds <+: d :: (ds ++ b) := List.prefix_append (d :: ds) b
  rw [List.cons_append, occ, if_pos hhere, occ_skip h]

theorem findFirst_eq_none {m : List α} (hm : m ≠ []) {s : List α} (h : occ m s = 0) :
    findFirst m s = none := by
  induction s with
  | nil => rw [findFirst, if_neg hm]
  | cons c cs ih =>
    rw [occ] at h
    have hc : ¬ m <+: c :: cs := by
      intro hp
      rw [if_pos hp] at h
      omega
    rw [findFirst, if_neg hc, ih (by omega), Option.map_none]

/-- **The first occurrence** is the one behind a text that adds no others. -/
theorem findFirst_eq (m pre rest : List α) (h : occ m (pre ++ (m ++ rest)) = occ m (m ++ rest)) :
    findFirst m (pre ++ (m ++ rest)) = some (pre, rest) := by
  induction pre with
  | nil =>
    rw [List.nil_append]
    cases hmr : m ++ rest with
    | nil =>
      obtain ⟨rfl, rfl⟩ := List.append_eq_nil_iff.mp hmr
      rfl
    | cons c cs =>
      rw [findFirst, if_pos (hmr ▸ List.prefix_append m rest), ← hmr, List.drop_left]
  | cons c pre ih =>
    rw [List.cons_append, occ] at h
    have hle := occ_le_append m pre (m ++ rest)
    have hc : ¬ m <+: c :: (pre ++ (m ++ rest)) := by
      intro hp
      rw [if_pos hp] at h
      omega
    rw [List.cons_append, findFirst, if_neg hc, ih (by omega), Option.map_some]

end Occurrences
