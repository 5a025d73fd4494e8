import Mathlib

/-! # Lists grouped by a key, and scans that stop

A list is grouped by a key when the items of one key stand together, the keys in the order in which
they first appear. Grouping a sorted list keeps it sorted inside each group only, so a scan that stops
at the first item failing a test stops too early when the test would hold again in a later group.

* **`group_perm`** — grouping permutes the list.
* **`pairwise_group`** — what comes before what in a grouped list.
* **`exists_of_idxOf_lt`** — the groups follow their first items.
* **`getLast_takeWhile_least_iff`** — when a scan that stops has found the least item there is. -/

namespace Grouping

variable {α κ : Type*} [DecidableEq κ] {key : α → κ}

/-! ## Distinct keys -/

/-- One more key, unless it is there. -/
def add (seen : List κ) (k : κ) : List κ := if k ∈ seen then seen else seen ++ [k]

/-- The distinct keys, in the order in which they first appear. -/
def distinct (ks : List κ) : List κ := ks.foldl add []

theorem mem_add {seen : List κ} {k j : κ} : j ∈ add seen k ↔ j ∈ seen ∨ j = k := by
  unfold add
  split_ifs with h
  · constructor
    · exact .inl
    · rintro (hj | rfl)
      · exact hj
      · exact h
  · rw [List.mem_append, List.mem_singleton]

theorem nodup_add {seen : List κ} (h : seen.Nodup) (k : κ) : (add seen k).Nodup := by
  unfold add
  split_ifs with hk
  · exact h
  · exact h.append (List.nodup_singleton k) (List.disjoint_singleton.mpr hk)

theorem mem_foldl_add {ks seen : List κ} {j : κ} : j ∈ ks.foldl add seen ↔ j ∈ seen ∨ j ∈ ks := by
  induction ks generalizing seen with
  | nil => simp
  | cons k ks ih => rw [List.foldl_cons, ih, mem_add, List.mem_cons, or_assoc]

@[simp] theorem mem_distinct {ks : List κ} {j : κ} : j ∈ distinct ks ↔ j ∈ ks := by
  simp [distinct, mem_foldl_add]

theorem nodup_distinct (ks : List κ) : (distinct ks).Nodup := by
  have h : ∀ seen : List κ, seen.Nodup → (ks.foldl add seen).Nodup := by
    induction ks with
    | nil => exact fun _ h => h
    | cons k ks ih => exact fun seen h => ih _ (nodup_add h k)
  exact h [] List.nodup_nil

/-- The place of a key among the keys. -/
def place (ks : List κ) (k : κ) : ℕ := ks.idxOf k

/-! ## Groups -/

/-- The items of each key in turn. -/
def group (key : α → κ) (ks : List κ) (l : List α) : List α :=
  ks.flatMap fun k => l.filter fun a => key a = k

/-- **Grouping permutes the items with the keys.** -/
theorem group_perm_filter {ks : List κ} (h : ks.Nodup) (l : List α) :
    (group key ks l).Perm (l.filter fun a => key a ∈ ks) := by
  induction ks with
  | nil => simp [group]
  | cons k ks ih =>
    obtain ⟨hk, hks⟩ := List.nodup_cons.mp h
    have hsplit := List.filter_append_perm (fun a => decide (key a = k))
      (l.filter fun a => decide (key a ∈ k :: ks))
    refine List.Perm.trans ?_ hsplit
    rw [group, List.flatMap_cons, List.filter_filter, List.filter_filter]
    have hhere : (l.filter fun a => decide (key a = k) && decide (key a ∈ k :: ks)) =
        l.filter fun a => decide (key a = k) := by
      refine List.filter_congr fun a _ => ?_
      rw [Bool.eq_iff_iff]
      simp +contextual
    have hrest : (l.filter fun a => !decide (key a = k) && decide (key a ∈ k :: ks)) =
        l.filter fun a => decide (key a ∈ ks) := by
      refine List.filter_congr fun a _ => ?_
      rw [Bool.eq_iff_iff]
      simp only [Bool.and_eq_true, Bool.not_eq_true', decide_eq_false_iff_not, decide_eq_true_eq,
        List.mem_cons]
      constructor
      · rintro ⟨hne, heq | hmem⟩
        · exact absurd heq hne
        · exact hmem
      · exact fun hmem => ⟨fun heq => hk (heq ▸ hmem), .inr hmem⟩
    rw [hhere, hrest]
    exact (ih hks).append_left _

/-- **Grouping permutes the list.** -/
theorem group_perm (l : List α) : (group key (distinct (l.map key)) l).Perm l := by
  have h : (group key (distinct (l.map key)) l).Perm
      (l.filter fun a => key a ∈ distinct (l.map key)) :=
    group_perm_filter (nodup_distinct (l.map key)) l
  have hall : (l.filter fun a => decide (key a ∈ distinct (l.map key))) = l := by
    refine List.filter_eq_self.mpr fun a ha => ?_
    rw [decide_eq_true_eq, mem_distinct]
    exact List.mem_map_of_mem ha
  rwa [hall] at h

/-- **What comes before what**: the items of earlier keys, and those of the same key that came before. -/
theorem pairwise_group {R : α → α → Prop} {ks : List κ} (h : ks.Nodup) {l : List α}
    (hl : l.Pairwise R) :
    (group key ks l).Pairwise fun a b =>
      place ks (key a) < place ks (key b) ∨ (key a = key b ∧ R a b) := by
  rw [group, List.pairwise_flatMap]
  constructor
  · intro k _
    refine (hl.filter _).imp_of_mem fun {a b} ha hb hab => .inr ⟨?_, hab⟩
    rw [of_decide_eq_true (List.mem_filter.mp ha).2, of_decide_eq_true (List.mem_filter.mp hb).2]
  · have hidx : ks.Pairwise fun j k => place ks j < place ks k := by
      rw [List.pairwise_iff_getElem]
      intro i j hi hj hij
      rwa [place, place, h.idxOf_getElem, h.idxOf_getElem]
    refine hidx.imp fun {j k} hjk a ha b hb => .inl ?_
    rwa [of_decide_eq_true (List.mem_filter.mp ha).2, of_decide_eq_true (List.mem_filter.mp hb).2]

/-- **The groups follow their first items**: an earlier group has an item before any of a later one. -/
theorem exists_of_idxOf_lt {R : α → α → Prop} {l : List α} (h : l.Pairwise R) {x y : α} (hx : x ∈ l)
    (hy : y ∈ l)
    (hlt : place (distinct (l.map key)) (key x) < place (distinct (l.map key)) (key y)) :
    ∃ a ∈ l, key a = key x ∧ R a y := by
  induction l using List.reverseRecOn generalizing x with
  | nil => exact absurd hx List.not_mem_nil
  | append_singleton l b ih =>
    obtain ⟨hl, -, hlast⟩ := List.pairwise_append.mp h
    have hkeys : distinct ((l ++ [b]).map key) = add (distinct (l.map key)) (key b) := by
      rw [distinct, List.map_append, List.foldl_append]
      rfl
    rw [hkeys] at hlt
    have hold : ∀ {k}, k ∈ distinct (l.map key) →
        place (add (distinct (l.map key)) (key b)) k = place (distinct (l.map key)) k := by
      intro k hk
      unfold add place
      split_ifs with hb
      · rfl
      · exact List.idxOf_append_of_mem hk
    rcases List.mem_append.mp hy with hy | hy
    · have hymem : key y ∈ distinct (l.map key) := mem_distinct.mpr (List.mem_map_of_mem hy)
      by_cases hxmem : key x ∈ distinct (l.map key)
      · obtain ⟨a, ha, hkey⟩ := List.mem_map.mp (mem_distinct.mp hxmem)
        rw [hold hxmem, hold hymem, ← hkey] at hlt
        obtain ⟨c, hc, hck, hR⟩ := ih hl ha hy hlt
        exact ⟨c, List.mem_append_left _ hc, hck.trans hkey, hR⟩
      · -- a key that was not there is the last
        have hge : (distinct (l.map key)).length ≤
            place (add (distinct (l.map key)) (key b)) (key x) := by
          unfold add place
          split_ifs
          · rw [List.idxOf_eq_length hxmem]
          · rw [List.idxOf_append_of_notMem hxmem]
            exact Nat.le_add_right _ _
        have hless : place (distinct (l.map key)) (key y) < (distinct (l.map key)).length :=
          List.idxOf_lt_length_of_mem hymem
        rw [hold hymem] at hlt
        omega
    · rw [List.mem_singleton.mp hy] at hlt ⊢
      rcases List.mem_append.mp hx with hx | hx
      · exact ⟨x, List.mem_append_left _ hx, rfl, hlast x hx b (List.mem_singleton_self b)⟩
      · rw [List.mem_singleton.mp hx] at hlt
        exact absurd hlt (lt_irrefl _)

/-! ## Scans -/

section Scan

variable {R : α → α → Prop} {p : α → Bool} {l : List α}

/-- An item is seen when all the items before it pass. -/
theorem mem_takeWhile_of_before (h : l.Pairwise R) {c : α} (hc : c ∈ l) (hpc : p c = true)
    (hbefore : ∀ x ∈ l, R x c → p x = true) : c ∈ l.takeWhile p := by
  induction l with
  | nil => exact absurd hc List.not_mem_nil
  | cons a l ih =>
    obtain ⟨ha, hl⟩ := List.pairwise_cons.mp h
    rcases List.mem_cons.mp hc with rfl | hc
    · rw [List.takeWhile_cons_of_pos hpc]
      exact List.mem_cons_self
    · rw [List.takeWhile_cons_of_pos (hbefore a List.mem_cons_self (ha c hc))]
      exact List.mem_cons_of_mem _ (ih hl hc fun x hx => hbefore x (List.mem_cons_of_mem _ hx))

/-- An item that fails comes behind everything that was seen. -/
theorem rel_of_mem_takeWhile (h : l.Pairwise R) {r x : α} (hr : r ∈ l.takeWhile p) (hx : x ∈ l)
    (hpx : p x = false) : R r x := by
  rw [← List.takeWhile_append_dropWhile (p := p) (l := l)] at h hx
  rcases List.mem_append.mp hx with hx | hx
  · rw [List.mem_takeWhile_imp hx] at hpx
    exact absurd hpx (by decide)
  · exact (List.pairwise_append.mp h).2.2 r hr x hx

/-- Every item but the last comes before it. -/
theorem eq_or_rel_getLast (h : l.Pairwise R) {r y : α} (hr : l.getLast? = some r) (hy : y ∈ l) :
    y = r ∨ R y r := by
  obtain ⟨ys, rfl⟩ := List.getLast?_eq_some_iff.mp hr
  rcases List.mem_append.mp hy with hy | hy
  · exact .inr ((List.pairwise_append.mp h).2.2 y hy r (List.mem_singleton_self r))
  · exact .inl (List.mem_singleton.mp hy)

variable {β : Type*} [LinearOrder β] {v : α → β} {rank : α → ℕ}

/-- **When a scan that stops has found the least item that passes.** The items come by rank, and those
of one rank from the largest down. The scan finds a least one exactly when one of them is reached, no
item of an earlier rank failing, and the scan stops before it can find one of a later rank. -/
theorem getLast_takeWhile_least_iff
    (h : l.Pairwise fun a b => rank a < rank b ∨ (rank a = rank b ∧ v b ≤ v a))
    (hp : ∀ {a b}, p a = true → v a ≤ v b → p b = true) :
    (∃ r, (l.takeWhile p).getLast? = some r ∧ ∀ a ∈ l, p a = true → v r ≤ v a) ↔
      ∃ c ∈ l, p c = true ∧ (∀ a ∈ l, p a = true → v c ≤ v a) ∧
        (∀ a ∈ l, p a = false → rank c ≤ rank a) ∧
        ∀ b ∈ l, p b = true → rank c < rank b →
          ∃ a ∈ l, p a = false ∧ rank c ≤ rank a ∧ rank a < rank b := by
  have hseen := h.sublist (List.takeWhile_sublist p)
  constructor
  · rintro ⟨r, hr, hleast⟩
    have hrmem := List.mem_of_getLast? hr
    have hfail : ∀ a ∈ l, p a = false → rank r ≤ rank a := by
      intro a ha hpa
      rcases rel_of_mem_takeWhile h hrmem ha hpa with hlt | ⟨heq, -⟩
      · exact hlt.le
      · exact heq.le
    refine ⟨r, (List.takeWhile_sublist p).mem hrmem, List.mem_takeWhile_imp hrmem, hleast, hfail, ?_⟩
    intro b hb hpb hrank
    by_contra hnone
    push Not at hnone
    -- nothing in front of `b` fails, so the scan would have gone on to it
    have hbmem : b ∈ l.takeWhile p := by
      refine mem_takeWhile_of_before h hb hpb fun x hx hxb => ?_
      rcases hxb with hlt | ⟨-, hle⟩
      · by_contra hpx
        rw [Bool.not_eq_true] at hpx
        exact absurd (hnone x hx hpx (hfail x hx hpx)) (not_le.mpr hlt)
      · exact hp hpb hle
    rcases eq_or_rel_getLast hseen hr hbmem with rfl | hlt | ⟨heq, -⟩ <;> omega
  · rintro ⟨c, hc, hpc, hleast, hfail, hlater⟩
    have hcmem : c ∈ l.takeWhile p := by
      refine mem_takeWhile_of_before h hc hpc fun x hx hxc => ?_
      rcases hxc with hlt | ⟨-, hle⟩
      · by_contra hpx
        rw [Bool.not_eq_true] at hpx
        exact absurd (hfail x hx hpx) (not_le.mpr hlt)
      · exact hp hpc hle
    have hne := List.ne_nil_of_mem hcmem
    refine ⟨_, List.getLast?_eq_some_getLast hne, fun a ha hpa => le_trans ?_ (hleast a ha hpa)⟩
    have hr := List.getLast?_eq_some_getLast hne
    have hrmem := List.mem_of_getLast? hr
    rcases eq_or_rel_getLast hseen hr hcmem with heq | hlt | ⟨-, hle⟩
    · rw [← heq]
    · -- an item of a later rank would lie behind one that fails
      obtain ⟨a, ha, hpa, -, har⟩ :=
        hlater _ ((List.takeWhile_sublist p).mem hrmem) (List.mem_takeWhile_imp hrmem) hlt
      rcases rel_of_mem_takeWhile h hrmem ha hpa with hra | ⟨hra, -⟩ <;> omega
    · exact hle

end Scan

end Grouping
