import Mathlib.Data.List.Basic
import Mathlib.Tactic.Ring

/-! # Writing over a part of a list

A buffer is patched in place: items are written over those it has from a position on. What is behind
the patch stays.

* **`overwrite_overwrite`** — of two patches at one place, the longer hides the shorter.
* **`overwrite_append`** — a patch across a boundary patches both sides.
* **`overwrite_zero_eq_self_iff`** — a patch that is there already changes nothing, and no other. -/

namespace Overwriting

variable {α : Type*} {i : ℕ} {as bs l r : List α}

/-- The list with `bs` written over its items from position `i` on. -/
def overwrite (i : ℕ) (bs l : List α) : List α := l.take i ++ (bs ++ l.drop (i + bs.length))

theorem length_overwrite (h : i + bs.length ≤ l.length) : (overwrite i bs l).length = l.length := by
  rw [overwrite, List.length_append, List.length_append, List.length_take, List.length_drop]
  omega

/-- **A patch hides a shorter one at its place.** -/
theorem overwrite_overwrite (h : as.length ≤ bs.length) (hfit : i + bs.length ≤ l.length) :
    overwrite i bs (overwrite i as l) = overwrite i bs l := by
  have htake : (l.take i).length = i := by
    rw [List.length_take]
    omega
  have hhead : (overwrite i as l).take i = l.take i := by
    rw [overwrite, List.take_left' htake]
  have htail : (overwrite i as l).drop (i + bs.length) = l.drop (i + bs.length) := by
    obtain ⟨k, hk⟩ := Nat.le.dest h
    rw [overwrite, ← hk, ← List.drop_drop, List.drop_left' htake, ← List.drop_drop, List.drop_left,
      List.drop_drop, add_assoc]
  rw [overwrite, hhead, htail, overwrite]

/-- A patch inside the first of two parts. -/
theorem overwrite_append_left (h : i + bs.length ≤ l.length) :
    overwrite i bs (l ++ r) = overwrite i bs l ++ r := by
  rw [overwrite, overwrite, List.take_append_of_le_length (by omega), List.drop_append_of_le_length h,
    List.append_assoc, List.append_assoc]

/-- **A patch across the boundary of two parts** is one at the end of the first and one at the start
of the second. -/
theorem overwrite_append (h : i + as.length = l.length) :
    overwrite i (as ++ bs) (l ++ r) = overwrite i as l ++ overwrite 0 bs r := by
  have hhead : (l ++ r).take i = l.take i := List.take_append_of_le_length (by omega)
  have htail : (l ++ r).drop (i + (as ++ bs).length) = r.drop bs.length := by
    rw [List.length_append, ← add_assoc, h, ← List.drop_drop, List.drop_left]
  rw [overwrite, hhead, htail, overwrite, h, List.drop_length, overwrite, List.take_zero, zero_add]
  simp only [List.append_nil, List.nil_append, List.append_assoc]

@[simp] theorem overwrite_nil : overwrite i ([] : List α) l = l := by simp [overwrite]

/-- **A patch at the front changes nothing** exactly when it is there already. -/
theorem overwrite_zero_eq_self_iff : overwrite 0 bs r = r ↔ bs <+: r := by
  rw [overwrite, List.take_zero, List.nil_append, zero_add, List.prefix_iff_eq_append]

end Overwriting
