import Mathlib

/-! # Sorts that need not be stable, and the item at a position

A sort by a key is an arrangement of positions: a permutation in which the keys do not go down. Where
keys are equal it is free, so two sorts may differ.

* **`SortBy`** — a sort as a function from the keys to the arrangement.
* **`countP_lt_le`**, **`lt_countP_le`** — the key at a position is the order statistic.
* **`SortBy.forall_order_eq_iff`** — all sorts have the same item at a position exactly when no other
  item has its key. -/

variable {α κ β : Type*} [LinearOrder β]

/-- **A sort by a key**, as it arranges the positions of a list: nothing but the keys is looked at. -/
structure SortBy (v : κ → β) where
  order : List κ → List ℕ
  perm : ∀ ks, (order ks).Perm (List.range ks.length)
  sorted : ∀ ks, (order ks).Pairwise fun i j => ∀ a ∈ ks[i]?, ∀ b ∈ ks[j]?, v a ≤ v b

/-! ## Order statistics -/

section OrderStatistic

variable {v : α → β} {l : List α} {m : ℕ} {x : α}

/-- At most `m` items have a smaller key than the item at position `m` of a sorted list. -/
theorem countP_lt_le (h : l.Pairwise fun a b => v a ≤ v b) (hm : l[m]? = some x) :
    l.countP (fun a => decide (v a < v x)) ≤ m := by
  obtain ⟨hlt, hx⟩ := List.getElem?_eq_some_iff.mp hm
  rw [← List.take_append_drop m l, List.countP_append]
  have hdrop : (l.drop m).countP (fun a => decide (v a < v x)) = 0 := by
    rw [List.countP_eq_zero]
    intro a ha
    rw [List.drop_eq_getElem_cons hlt, hx, List.mem_cons] at ha
    have hpair : (l.drop m).Pairwise fun a b => v a ≤ v b := h.sublist (List.drop_sublist m l)
    rw [List.drop_eq_getElem_cons hlt, hx, List.pairwise_cons] at hpair
    rw [decide_eq_true_eq, not_lt]
    rcases ha with rfl | ha
    · exact le_rfl
    · exact hpair.1 a ha
  rw [hdrop, add_zero]
  exact List.countP_le_length.trans (List.length_take_le m l)

/-- More than `m` items have a key that is not larger. -/
theorem lt_countP_le (h : l.Pairwise fun a b => v a ≤ v b) (hm : l[m]? = some x) :
    m < l.countP fun a => decide (v a ≤ v x) := by
  obtain ⟨hlt, hx⟩ := List.getElem?_eq_some_iff.mp hm
  rw [← List.take_append_drop (m + 1) l, List.countP_append]
  have htake : (l.take (m + 1)).countP (fun a => decide (v a ≤ v x)) = (l.take (m + 1)).length := by
    rw [List.countP_eq_length]
    intro a ha
    have hpair : (l.take (m + 1)).Pairwise fun a b => v a ≤ v b := h.sublist (List.take_sublist _ l)
    rw [List.take_succ_eq_append_getElem hlt, hx] at ha hpair
    rw [decide_eq_true_eq]
    rcases List.mem_append.mp ha with ha | ha
    · exact (List.pairwise_append.mp hpair).2.2 a ha x (List.mem_singleton_self x)
    · rw [List.mem_singleton.mp ha]
  rw [htake, List.length_take]
  omega

/-- Items with a key that is not larger have a smaller key or the same. -/
theorem countP_le_eq_add (v : α → β) (l : List α) (x : α) :
    l.countP (fun a => decide (v a ≤ v x)) =
      l.countP (fun a => decide (v a < v x)) + l.countP fun a => decide (v a = v x) := by
  induction l with
  | nil => rfl
  | cons a l ih =>
    rw [List.countP_cons, List.countP_cons, List.countP_cons, ih]
    rcases lt_trichotomy (v a) (v x) with h | h | h
    · simp only [h, h.le, h.ne, decide_true, decide_false, if_true]
      simp
      omega
    · simp [h]
      omega
    · simp [h.not_ge, h.not_gt, h.ne']

/-- **The keys at a position agree.** When exactly `m` items have a smaller key than `k` and some item
has the key itself, it is the key at position `m` of every sorted arrangement. -/
theorem eq_of_countP_lt (h : l.Pairwise fun a b => v a ≤ v b) (hm : l[m]? = some x) {k : α}
    (hk : k ∈ l) (hcount : l.countP (fun a => decide (v a < v k)) = m) : v x = v k := by
  have hlow := countP_lt_le h hm
  have hhigh := lt_countP_le h hm
  rcases lt_trichotomy (v x) (v k) with hlt | heq | hgt
  · -- whatever is not above `x` is below `k`
    have hmono : l.countP (fun a => decide (v a ≤ v x)) ≤ l.countP fun a => decide (v a < v k) := by
      refine List.countP_mono_left fun a _ ha => ?_
      rw [decide_eq_true_eq] at ha ⊢
      exact ha.trans_lt hlt
    omega
  · exact heq
  · have hmono : l.countP (fun a => decide (v a ≤ v k)) ≤ l.countP fun a => decide (v a < v x) := by
      refine List.countP_mono_left fun a _ ha => ?_
      rw [decide_eq_true_eq] at ha ⊢
      exact ha.trans_lt hgt
    have hpos : 0 < l.countP fun a => decide (v a = v k) :=
      List.countP_pos_iff.mpr ⟨k, hk, by simp⟩
    rw [countP_le_eq_add] at hmono
    omega

end OrderStatistic

/-- An item is the only one of its kind exactly when no other position has one. -/
theorem countP_eq_one_iff {p : α → Bool} {l : List α} {i : ℕ} (hi : i < l.length) (hp : p l[i] = true) :
    l.countP p = 1 ↔ ∀ j (hj : j < l.length), p l[j] = true → j = i := by
  have hsplit : l.countP p = (l.take i).countP p + ((l.drop (i + 1)).countP p + 1) := by
    conv_lhs => rw [← List.take_append_drop i l, List.drop_eq_getElem_cons hi]
    rw [List.countP_append, List.countP_cons, hp, if_pos rfl]
  constructor
  · intro hone j hj hpj
    have htake : (l.take i).countP p = 0 := by omega
    have hdrop : (l.drop (i + 1)).countP p = 0 := by omega
    rw [List.countP_eq_zero] at htake hdrop
    rcases lt_trichotomy j i with hlt | heq | hgt
    · exact absurd hpj (htake _ (List.mem_take_iff_getElem.mpr ⟨j, by omega, rfl⟩))
    · exact heq
    · refine absurd hpj (hdrop _ (List.mem_drop_iff_getElem.mpr ⟨j - (i + 1), by omega, ?_⟩))
      congr 1
      omega
  · intro hall
    have htake : (l.take i).countP p = 0 := by
      rw [List.countP_eq_zero]
      intro a ha hpa
      obtain ⟨j, hj, rfl⟩ := List.mem_take_iff_getElem.mp ha
      have := hall j (by omega) hpa
      omega
    have hdrop : (l.drop (i + 1)).countP p = 0 := by
      rw [List.countP_eq_zero]
      intro a ha hpa
      obtain ⟨j, hj, rfl⟩ := List.mem_drop_iff_getElem.mp ha
      have := hall _ (by omega) hpa
      omega
    omega

/-! ## Sorts -/

namespace SortBy

variable {v : κ → β}

theorem length_order (s : SortBy v) (ks : List κ) : (s.order ks).length = ks.length := by
  rw [(s.perm ks).length_eq, List.length_range]

theorem mem_order (s : SortBy v) {ks : List κ} {i : ℕ} : i ∈ s.order ks ↔ i < ks.length := by
  rw [(s.perm ks).mem_iff, List.mem_range]

/-- The item of a list that a sort by its key puts at a position. -/
def pick (s : SortBy v) (key : α → κ) (l : List α) (m : ℕ) : Option α :=
  (s.order (l.map key))[m]?.bind fun i => l[i]?

/-- Inside the list the sort picks an item. -/
theorem exists_order_eq (s : SortBy v) {ks : List κ} {m : ℕ} (h : m < ks.length) :
    ∃ i, (s.order ks)[m]? = some i ∧ i < ks.length := by
  have hm : m < (s.order ks).length := (s.length_order ks).symm ▸ h
  refine ⟨(s.order ks)[m], List.getElem?_eq_getElem hm, ?_⟩
  exact s.mem_order.mp (List.getElem_mem hm)

/-- The keys as the sort arranges them. -/
def arrange (s : SortBy v) (ks : List κ) : List κ := (s.order ks).filterMap fun i => ks[i]?

theorem arrange_perm (s : SortBy v) (ks : List κ) : (s.arrange ks).Perm ks := by
  have hrange : (List.range ks.length).filterMap (fun i => ks[i]?) = ks := by
    induction ks using List.reverseRecOn with
    | nil => rfl
    | append_singleton ks k ih =>
      rw [List.length_append, List.length_singleton, List.range_succ, List.filterMap_append]
      have hfirst : (List.range ks.length).filterMap (fun i => (ks ++ [k])[i]?) =
          (List.range ks.length).filterMap fun i => ks[i]? :=
        List.filterMap_congr fun i hi => List.getElem?_append_left (List.mem_range.mp hi)
      rw [hfirst, ih]
      simp
  have h := (s.perm ks).filterMap fun i => ks[i]?
  rwa [hrange] at h

theorem arrange_sorted (s : SortBy v) (ks : List κ) : (s.arrange ks).Pairwise fun a b => v a ≤ v b := by
  rw [arrange, List.pairwise_filterMap]
  exact (s.sorted ks).imp fun {i j} h a ha b hb => h a ha b hb

theorem getElem?_arrange (s : SortBy v) (ks : List κ) (m : ℕ) :
    (s.arrange ks)[m]? = (s.order ks)[m]?.bind fun i => ks[i]? := by
  have h : ∀ is : List ℕ, (∀ i ∈ is, i < ks.length) →
      (is.filterMap fun i => ks[i]?)[m]? = is[m]?.bind fun i => ks[i]? := by
    intro is
    induction is generalizing m with
    | nil => simp
    | cons i is ih =>
      intro hi
      have hlt := hi i List.mem_cons_self
      rw [List.filterMap_cons_some (List.getElem?_eq_getElem hlt)]
      cases m with
      | zero => simp [hlt]
      | succ m =>
        rw [List.getElem?_cons_succ, List.getElem?_cons_succ]
        exact ih m fun j hj => hi j (List.mem_cons_of_mem _ hj)
  exact h _ fun i hi => s.mem_order.mp hi

/-! ## A sort, and another one that differs on equal keys -/

/-- Insertion sort, which is stable. -/
def insertion (v : κ → β) (le : κ → κ → Bool) (hle : ∀ a b, le a b = true ↔ v a ≤ v b) : SortBy v where
  order ks := (ks.zipIdx.insertionSort fun p q => le p.1 q.1).map Prod.snd
  perm ks := by
    have h := (List.perm_insertionSort (fun p q : κ × ℕ => le p.1 q.1) ks.zipIdx).map Prod.snd
    rwa [List.zipIdx_map_snd, ← List.range_eq_range'] at h
  sorted ks := by
    have htotal : Std.Total fun p q : κ × ℕ => le p.1 q.1 = true := by
      constructor
      intro p q
      rw [hle, hle]
      exact le_total _ _
    have htrans : IsTrans (κ × ℕ) fun p q => le p.1 q.1 = true := by
      constructor
      intro p q r hpq hqr
      rw [hle] at *
      exact hpq.trans hqr
    rw [List.pairwise_map]
    refine (List.pairwise_insertionSort (fun p q : κ × ℕ => le p.1 q.1 = true) ks.zipIdx).imp_of_mem ?_
    intro p q hp hq hpq a ha b hb
    rw [List.mem_insertionSort, List.mem_zipIdx_iff_getElem?] at hp hq
    rw [Option.mem_def, hp, Option.some.injEq] at ha
    rw [Option.mem_def, hq, Option.some.injEq] at hb
    rw [← ha, ← hb]
    exact (hle _ _).mp hpq

/-- Two positions with the same key may change places. -/
def swap [DecidableEq κ] (s : SortBy v) (at_ : List κ) (i j : ℕ) (hi : i < at_.length)
    (hj : j < at_.length) (same : v (at_.get ⟨i, hi⟩) = v (at_.get ⟨j, hj⟩)) : SortBy v where
  order ks := if ks = at_ then (s.order ks).map (Equiv.swap i j) else s.order ks
  perm ks := by
    split_ifs with h
    · subst h
      refine ((s.perm ks).map _).trans ?_
      refine (List.perm_ext_iff_of_nodup ?_ List.nodup_range).mpr fun n => ?_
      · exact List.nodup_range.map (Equiv.swap i j).injective
      · rw [List.mem_map, List.mem_range]
        constructor
        · rintro ⟨a, ha, rfl⟩
          rw [List.mem_range] at ha
          rw [Equiv.swap_apply_def]
          split_ifs <;> omega
        · intro hn
          refine ⟨Equiv.swap i j n, ?_, Equiv.swap_apply_self i j n⟩
          rw [List.mem_range, Equiv.swap_apply_def]
          split_ifs <;> omega
    · exact s.perm ks
  sorted ks := by
    split_ifs with h
    · subst h
      have hkey : ∀ n : ℕ, n < ks.length →
          ∀ a ∈ ks[Equiv.swap i j n]?, ∃ b ∈ ks[n]?, v a = v b := by
        intro n hn a ha
        rw [List.get_eq_getElem, List.get_eq_getElem] at same
        rw [Equiv.swap_apply_def] at ha
        split_ifs at ha with h1 h2
        · subst h1
          rw [List.getElem?_eq_getElem hj, Option.mem_some_iff] at ha
          exact ⟨_, List.getElem?_eq_getElem hi, ha ▸ same.symm⟩
        · subst h2
          rw [List.getElem?_eq_getElem hi, Option.mem_some_iff] at ha
          exact ⟨_, List.getElem?_eq_getElem hj, ha ▸ same⟩
        · exact ⟨a, ha, rfl⟩
      rw [List.pairwise_map]
      refine (s.sorted ks).imp_of_mem fun {p q} hp hq hpq a ha b hb => ?_
      obtain ⟨a', ha', hva⟩ := hkey p (s.mem_order.mp hp) a ha
      obtain ⟨b', hb', hvb⟩ := hkey q (s.mem_order.mp hq) b hb
      rw [hva, hvb]
      exact hpq a' ha' b' hb'
    · exact s.sorted ks

/-- **The key a sort puts at a position** has at most `m` keys below it and more than `m` up to it. -/
theorem countP_of_order (s : SortBy v) {ks : List κ} {m i : ℕ} (h : (s.order ks)[m]? = some i)
    (hi : i < ks.length) :
    ks.countP (fun a => decide (v a < v ks[i])) ≤ m ∧
      m < ks.countP fun a => decide (v a ≤ v ks[i]) := by
  have hget : (s.arrange ks)[m]? = some ks[i] := by
    rw [getElem?_arrange, h, Option.bind_some, List.getElem?_eq_getElem hi]
  have hlow := countP_lt_le (s.arrange_sorted ks) hget
  have hhigh := lt_countP_le (s.arrange_sorted ks) hget
  rw [(s.arrange_perm ks).countP_eq] at hlow hhigh
  exact ⟨hlow, hhigh⟩

/-- An item is alone with its key, `m` items having smaller keys. -/
def Alone (v : κ → β) (ks : List κ) (m : ℕ) : Prop :=
  ∃ k ∈ ks, ks.countP (fun a => decide (v a < v k)) = m ∧ ks.countP (fun a => decide (v a = v k)) = 1

/-- **All sorts agree on a position exactly when its item is alone with its key.** -/
theorem forall_order_eq_iff [DecidableEq κ] (s₀ : SortBy v) {ks : List κ} {m : ℕ} (hm : m < ks.length) :
    (∀ s₁ s₂ : SortBy v, (s₁.order ks)[m]? = (s₂.order ks)[m]?) ↔ Alone v ks m := by
  constructor
  · intro hall
    obtain ⟨i, hi, hlt⟩ := s₀.exists_order_eq hm
    have hone : ks.countP (fun a => decide (v a = v ks[i])) = 1 := by
      refine (countP_eq_one_iff hlt (by simp)).mpr fun j hj hsame => ?_
      -- another item with the key could take the place
      have hswap := hall s₀ (s₀.swap ks i j hlt hj (of_decide_eq_true hsame).symm)
      have horder : (s₀.swap ks i j hlt hj (of_decide_eq_true hsame).symm).order ks =
          (s₀.order ks).map (Equiv.swap i j) := if_pos rfl
      rw [horder, List.getElem?_map, hi, Option.map_some, Equiv.swap_apply_left,
        Option.some.injEq] at hswap
      exact hswap.symm
    obtain ⟨hlow, hhigh⟩ := s₀.countP_of_order hi hlt
    rw [countP_le_eq_add] at hhigh
    exact ⟨ks[i], List.getElem_mem hlt, by omega, hone⟩
  · rintro ⟨k, hk, hcount, hone⟩
    obtain ⟨n, hn, rfl⟩ := List.getElem_of_mem hk
    have hkey : ∀ s : SortBy v, (s.order ks)[m]? = some n := by
      intro s
      obtain ⟨i, hi, hlt⟩ := s.exists_order_eq hm
      have hget : (s.arrange ks)[m]? = some ks[i] := by
        rw [getElem?_arrange, hi, Option.bind_some, List.getElem?_eq_getElem hlt]
      have hsame : v ks[i] = v ks[n] := by
        refine eq_of_countP_lt (s.arrange_sorted ks) hget ((s.arrange_perm ks).mem_iff.mpr hk) ?_
        rw [(s.arrange_perm ks).countP_eq, hcount]
      rw [hi, (countP_eq_one_iff hn (by simp)).mp hone i hlt (by simpa using hsame)]
    intro s₁ s₂
    rw [hkey s₁, hkey s₂]

end SortBy
