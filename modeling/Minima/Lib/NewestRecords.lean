import Mathlib.Data.List.Basic
import Mathlib.Data.List.Nodup
import Mathlib.Data.List.Pairwise

/-! # The newest record of each key

A log lists records under keys, the newest record first. What holds for a key is what its newest record
says.

* **`newest`** — of each key the first record.
* **`mem_newest`** — a record is the newest of its key when no record in front of it has the key.
* **`filter_newest_cons`** — a scan from the newest record on that remembers the keys it has seen keeps
  these records. -/

namespace NewestRecords

variable {α κ : Type*} [BEq κ] [LawfulBEq κ] (key : α → κ)

/-- Of each key the first record. -/
def newest : List α → List α
  | [] => []
  | a :: l => a :: (newest l).filter fun b => key b != key a

/-- **The newest records** are those with no record of their key in front of them. -/
theorem mem_newest {l : List α} {a : α} :
    a ∈ newest key l ↔ ∃ l₁ l₂, l = l₁ ++ a :: l₂ ∧ ∀ b ∈ l₁, key b ≠ key a := by
  induction l with
  | nil => simp [newest]
  | cons b l ih =>
    rw [newest, List.mem_cons, List.mem_filter, ih]
    constructor
    · rintro (rfl | ⟨⟨l₁, l₂, rfl, hl₁⟩, hne⟩)
      · exact ⟨[], l, rfl, by simp⟩
      · refine ⟨b :: l₁, l₂, rfl, List.forall_mem_cons.mpr ⟨?_, hl₁⟩⟩
        exact fun heq => bne_iff_ne.mp hne heq.symm
    · rintro ⟨l₁, l₂, heq, hl₁⟩
      cases l₁ with
      | nil =>
        cases heq
        exact .inl rfl
      | cons c l₁ =>
        cases heq
        obtain ⟨hne, hl₁⟩ := List.forall_mem_cons.mp hl₁
        exact .inr ⟨⟨l₁, l₂, rfl, hl₁⟩, bne_iff_ne.mpr fun heq => hne heq.symm⟩

theorem mem_of_mem_newest {l : List α} {a : α} (h : a ∈ newest key l) : a ∈ l := by
  obtain ⟨l₁, l₂, rfl, -⟩ := (mem_newest key).mp h
  exact List.mem_append_right l₁ List.mem_cons_self

/-- Older records do not matter for the newest ones. -/
theorem mem_newest_append_left {l l' : List α} {a : α} (h : a ∈ newest key l) : a ∈ newest key (l ++ l') := by
  obtain ⟨l₁, l₂, rfl, hl₁⟩ := (mem_newest key).mp h
  exact (mem_newest key).mpr ⟨l₁, l₂ ++ l', by simp, hl₁⟩

/-- No key has two newest records. -/
theorem nodup_map_newest (l : List α) : ((newest key l).map key).Nodup := by
  induction l with
  | nil => exact List.nodup_nil
  | cons a l ih =>
    rw [newest, List.map_cons, List.nodup_cons]
    refine ⟨fun hmem => ?_, ih.sublist (List.filter_sublist.map key)⟩
    obtain ⟨b, hb, heq⟩ := List.mem_map.mp hmem
    exact bne_iff_ne.mp (List.mem_filter.mp hb).2 heq

/-- Every key has a newest record. -/
theorem exists_mem_newest {l : List α} {a : α} (h : a ∈ l) : ∃ b ∈ newest key l, key b = key a := by
  induction l with
  | nil => cases h
  | cons c l ih =>
    rw [newest]
    by_cases heq : key c = key a
    · exact ⟨c, List.mem_cons_self, heq⟩
    · obtain ⟨b, hb, hba⟩ := ih ((List.mem_cons.mp h).resolve_left fun hac => heq (hac ▸ rfl))
      refine ⟨b, List.mem_cons_of_mem _ (List.mem_filter.mpr ⟨hb, ?_⟩), hba⟩
      exact bne_iff_ne.mpr fun hbc => heq (hbc ▸ hba)

/-- **A scan with a set of the keys it has seen** keeps the newest records of the keys not among them. -/
theorem filter_newest_cons {seen : List κ} {a : α} {l : List α} :
    (newest key (a :: l)).filter (fun b => key b ∉ seen) =
      if key a ∈ seen then (newest key l).filter fun b => key b ∉ seen
      else a :: (newest key l).filter fun b => key b ∉ key a :: seen := by
  rw [newest, List.filter_cons, List.filter_filter]
  by_cases h : key a ∈ seen
  · rw [if_neg (by simpa using h), if_pos h]
    refine List.filter_congr fun b _ => ?_
    by_cases hb : key b = key a
    · simp [hb, h]
    · simp [hb]
  · rw [if_pos (by simpa using h), if_neg h]
    congr 1
    refine List.filter_congr fun b _ => ?_
    simp [Bool.and_comm, bne]

end NewestRecords
