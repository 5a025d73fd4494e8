import Mathlib

/-! # Thinning out a list by rising levels

A list whose elements have a level is read from the front with a threshold that starts low and
rises by one whenever enough elements have been kept at it; elements below the threshold are
dropped. This is how a chain of blocks is compressed the further back it goes.

* **`keep lim sup s xs`** — the kept elements, each with the threshold it was kept at.
* **`keep_kept`** — dropping with an earlier state first changes nothing later.
* **`latest sup i xs`** — the first element of level at least `i`; `latest_kept` says that thinning
  out keeps it, for every `i` at or above the threshold. -/

namespace LevelScan

/-- How many thresholds there are, and how many elements are kept at each. -/
structure Limits where
  levels : ℕ
  nodes : ℕ

/-- The state of a scan: the threshold, and how many elements were kept at it. -/
@[ext]
structure State where
  level : ℕ
  count : ℕ

namespace State

/-- The order in which a scan moves through its states. -/
instance : LE State := ⟨fun s t => s.level < t.level ∨ s.level = t.level ∧ s.count ≤ t.count⟩

theorem le_def {s t : State} : s ≤ t ↔ s.level < t.level ∨ s.level = t.level ∧ s.count ≤ t.count :=
  Iff.rfl

theorem le_refl (s : State) : s ≤ s := .inr ⟨rfl, Nat.le_refl _⟩

theorem le_trans {s t u : State} (hst : s ≤ t) (htu : t ≤ u) : s ≤ u := by
  rw [le_def] at *
  omega

theorem level_le {s t : State} (h : s ≤ t) : s.level ≤ t.level := by
  rw [le_def] at h
  omega

end State

variable (lim : Limits)

/-- The state after an element was kept. -/
def next (s : State) : State :=
  if lim.nodes ≤ s.count + 1 ∧ s.level < lim.levels - 1 then ⟨s.level + 1, 0⟩
  else ⟨s.level, s.count + 1⟩

/-- The threshold stays or rises by one. -/
theorem next_level (s : State) : (next lim s).level = s.level ∨ (next lim s).level = s.level + 1 := by
  unfold next
  split_ifs
  · exact .inr rfl
  · exact .inl rfl

theorem le_next (s : State) : s ≤ next lim s := by
  unfold next
  rw [State.le_def]
  split_ifs
  · exact .inl (Nat.lt_succ_self _)
  · exact .inr ⟨rfl, Nat.le_succ _⟩

/-- A scan that is behind stays behind when both keep an element. -/
theorem next_mono {s t : State} (h : s ≤ t) : next lim s ≤ next lim t := by
  unfold next
  rw [State.le_def] at *
  split_ifs <;> simp only <;> omega

/-- A scan that is strictly below another one cannot overtake it with one element. -/
theorem next_le_of_level_lt {s t : State} (h : s.level < t.level) : next lim s ≤ t := by
  unfold next
  rw [State.le_def]
  split_ifs <;> simp only <;> omega

section Keep

variable {α : Type*} (sup : α → ℕ)

/-- The kept elements of a list, each with the threshold it was kept at. -/
def keep (s : State) : List α → List (α × ℕ)
  | [] => []
  | x :: xs => if s.level ≤ sup x then (x, s.level) :: keep (next lim s) xs else keep s xs

/-- The kept elements alone. -/
def kept (s : State) (xs : List α) : List α := (keep lim sup s xs).map Prod.fst

/-- The state after a list. -/
def after (s : State) : List α → State
  | [] => s
  | x :: xs => after (if s.level ≤ sup x then next lim s else s) xs

@[simp] theorem keep_nil (s : State) : keep lim sup s [] = [] := rfl

theorem keep_cons_of_le {s : State} {x : α} (h : s.level ≤ sup x) (xs : List α) :
    keep lim sup s (x :: xs) = (x, s.level) :: keep lim sup (next lim s) xs := if_pos h

theorem keep_cons_of_lt {s : State} {x : α} (h : sup x < s.level) (xs : List α) :
    keep lim sup s (x :: xs) = keep lim sup s xs := if_neg (not_le.mpr h)

@[simp] theorem kept_nil (s : State) : kept lim sup s [] = [] := rfl

theorem kept_cons_of_le {s : State} {x : α} (h : s.level ≤ sup x) (xs : List α) :
    kept lim sup s (x :: xs) = x :: kept lim sup (next lim s) xs := by
  rw [kept, keep_cons_of_le lim sup h]
  rfl

theorem kept_cons_of_lt {s : State} {x : α} (h : sup x < s.level) (xs : List α) :
    kept lim sup s (x :: xs) = kept lim sup s xs := by
  rw [kept, keep_cons_of_lt lim sup h]
  rfl

theorem after_cons_of_le {s : State} {x : α} (h : s.level ≤ sup x) (xs : List α) :
    after lim sup s (x :: xs) = after lim sup (next lim s) xs := by
  rw [after, if_pos h]

theorem after_cons_of_lt {s : State} {x : α} (h : sup x < s.level) (xs : List α) :
    after lim sup s (x :: xs) = after lim sup s xs := by
  rw [after, if_neg (not_le.mpr h)]

/-- A list in two parts is scanned part by part. -/
theorem keep_append (s : State) (xs ys : List α) :
    keep lim sup s (xs ++ ys) = keep lim sup s xs ++ keep lim sup (after lim sup s xs) ys := by
  induction xs generalizing s with
  | nil => rfl
  | cons x xs ih =>
    by_cases h : s.level ≤ sup x
    · rw [List.cons_append, keep_cons_of_le lim sup h, keep_cons_of_le lim sup h,
        after_cons_of_le lim sup h, ih, List.cons_append]
    · rw [not_le] at h
      rw [List.cons_append, keep_cons_of_lt lim sup h, keep_cons_of_lt lim sup h,
        after_cons_of_lt lim sup h, ih]

/-- No element is kept at a threshold below the first one. -/
theorem level_le_of_mem_keep {s : State} {xs : List α} {p : α × ℕ} (h : p ∈ keep lim sup s xs) :
    s.level ≤ p.2 := by
  induction xs generalizing s with
  | nil => simp at h
  | cons x xs ih =>
    by_cases hs : s.level ≤ sup x
    · rw [keep_cons_of_le lim sup hs, List.mem_cons] at h
      rcases h with rfl | h
      · exact Nat.le_refl _
      · exact Nat.le_trans (State.level_le (le_next lim s)) (ih h)
    · rw [keep_cons_of_lt lim sup (not_le.mp hs)] at h
      exact ih h

/-- **An element that an earlier scan drops is dropped by every later one,** so thinning out first
changes neither what the later scan keeps nor the state it ends in. -/
theorem keep_kept {s t : State} (hst : s ≤ t) (xs : List α) :
    keep lim sup t (kept lim sup s xs) = keep lim sup t xs ∧
      after lim sup t (kept lim sup s xs) = after lim sup t xs := by
  induction xs generalizing s t with
  | nil => exact ⟨rfl, rfl⟩
  | cons x xs ih =>
    by_cases hs : s.level ≤ sup x
    · rw [kept_cons_of_le lim sup hs]
      by_cases ht : t.level ≤ sup x
      · -- both keep it, and the earlier scan stays behind
        obtain ⟨h1, h2⟩ := ih (next_mono lim hst)
        rw [keep_cons_of_le lim sup ht, keep_cons_of_le lim sup ht, after_cons_of_le lim sup ht,
          after_cons_of_le lim sup ht, h1, h2]
        exact ⟨rfl, rfl⟩
      · -- only the earlier one keeps it, so its threshold is the lower one
        rw [not_le] at ht
        obtain ⟨h1, h2⟩ := ih (next_le_of_level_lt lim (lt_of_le_of_lt hs ht))
        rw [keep_cons_of_lt lim sup ht, keep_cons_of_lt lim sup ht, after_cons_of_lt lim sup ht,
          after_cons_of_lt lim sup ht]
        exact ⟨h1, h2⟩
    · rw [not_le] at hs
      have ht : sup x < t.level := lt_of_lt_of_le hs (State.level_le hst)
      rw [kept_cons_of_lt lim sup hs, keep_cons_of_lt lim sup ht, after_cons_of_lt lim sup ht]
      exact ih hst

/-- Thinning out the front of a list by an earlier scan changes nothing later. -/
theorem keep_kept_append {s t : State} (hst : s ≤ t) (xs ys : List α) :
    keep lim sup t (kept lim sup s xs ++ ys) = keep lim sup t (xs ++ ys) := by
  obtain ⟨h1, h2⟩ := keep_kept lim sup hst xs
  rw [keep_append, keep_append, h1, h2]

/-! ## The last element of every level -/

/-- The first element of level at least `i`. -/
def latest (i : ℕ) (xs : List α) : Option α := xs.find? fun x => i ≤ sup x

@[simp] theorem latest_nil (i : ℕ) : latest sup i ([] : List α) = none := rfl

theorem latest_cons_of_le {i : ℕ} {x : α} (h : i ≤ sup x) (xs : List α) :
    latest sup i (x :: xs) = some x := by
  rw [latest, List.find?_cons_of_pos (by simpa using h)]

theorem latest_cons_of_lt {i : ℕ} {x : α} (h : sup x < i) (xs : List α) :
    latest sup i (x :: xs) = latest sup i xs := by
  rw [latest, latest, List.find?_cons_of_neg (by simpa using h)]

theorem latest_append (i : ℕ) (xs ys : List α) :
    latest sup i (xs ++ ys) = (latest sup i xs).or (latest sup i ys) := List.find?_append

theorem mem_of_latest {i : ℕ} {xs : List α} {x : α} (h : latest sup i xs = some x) : x ∈ xs :=
  List.mem_of_find?_eq_some h

/-- Where no element reaches a level, none reaches a higher one. -/
theorem latest_eq_none_of_le {i j : ℕ} (hij : i ≤ j) {xs : List α} (h : latest sup i xs = none) :
    latest sup j xs = none := by
  rw [latest, List.find?_eq_none] at *
  intro x hx
  have hi : ¬ i ≤ sup x := by simpa using h x hx
  simpa using lt_of_lt_of_le (not_le.mp hi) hij

/-- **Thinning out keeps the last element of every level at or above the threshold:** whatever comes
before it is of a lower level, and so cannot raise the threshold beyond it. -/
theorem latest_kept {s : State} {i : ℕ} (h : s.level ≤ i) (xs : List α) :
    latest sup i (kept lim sup s xs) = latest sup i xs := by
  induction xs generalizing s with
  | nil => rfl
  | cons x xs ih =>
    by_cases hs : s.level ≤ sup x
    · rw [kept_cons_of_le lim sup hs]
      by_cases hi : i ≤ sup x
      · rw [latest_cons_of_le sup hi, latest_cons_of_le sup hi]
      · rw [not_le] at hi
        rw [latest_cons_of_lt sup hi, latest_cons_of_lt sup hi]
        apply ih
        have hnext := next_level lim s
        omega
    · rw [not_le] at hs
      rw [kept_cons_of_lt lim sup hs, latest_cons_of_lt sup (lt_of_lt_of_le hs h)]
      exact ih h

end Keep

end LevelScan
