import Minima.Mmr.Content

/-! # The value of the root

The peaks are bagged round by round until one is left. Every round keeps the sum of their values, so that
the root is worth what all leaves together are worth, as long as this is below the limit of exact sums.

* **`MountainRange.sum_bitIndices`** — a sum over the peaks telescopes.
* **`MMR.PeaksCarry.rootOfPeaks_value`** — the value of the root. -/

namespace MountainRange

/-- **A sum over the peaks telescopes:** together they span all leaves. -/
theorem sum_bitIndices {M : Type*} [AddCommGroup M] (n : ℕ) : ∀ F : ℕ → M, F 0 = 0 →
    (n.bitIndices.map fun r => F (n / 2 ^ r * 2 ^ r) - F ((n / 2 ^ r - 1) * 2 ^ r)).sum = F n := by
  induction n using Nat.binaryRec with
  | zero =>
    intro F hF
    simp [hF]
  | bit b n ih =>
    intro F hF
    -- above the lowest bit, two leaves at a time
    have hdouble := ih (fun k => F (2 * k)) hF
    have hrow : ∀ m : ℕ, m / 2 = n → ∀ r, F (m / 2 ^ (r + 1) * 2 ^ (r + 1)) -
        F ((m / 2 ^ (r + 1) - 1) * 2 ^ (r + 1)) =
          F (2 * (n / 2 ^ r * 2 ^ r)) - F (2 * ((n / 2 ^ r - 1) * 2 ^ r)) := by
      intro m hm r
      have hdiv : m / 2 ^ (r + 1) = n / 2 ^ r := by rw [pow_succ', ← Nat.div_div_eq_div_mul, hm]
      rw [hdiv, pow_succ']
      congr 2 <;> ring
    cases b with
    | false =>
      rw [Nat.bitIndices_bit_false, List.map_map, Nat.bit_val]
      simp only [Bool.toNat_false, Nat.add_zero, Function.comp_def]
      rw [List.map_congr_left fun r _ => hrow (2 * n) (by omega) r, hdouble]
    | true =>
      rw [Nat.bitIndices_bit_true, List.map_cons, List.map_map, List.sum_cons, Nat.bit_val]
      simp only [Bool.toNat_true, Function.comp_def]
      rw [List.map_congr_left fun r _ => hrow (2 * n + 1) (by omega) r, hdouble]
      simp

end MountainRange

namespace Minima

open MountainRange

namespace MMR

variable {C : Crypto}

/-- What the entries are worth together, none of them less than nothing. -/
def Worth (xs : List MMREntry) (total : ℚ) : Prop :=
  ∃ ds, HoldData xs ds ∧ (∀ d ∈ ds, 0 ≤ d.value.toRat) ∧ (ds.map fun d => d.value.toRat).sum = total

/-- **The peaks of a tree are worth what its leaves are worth.** -/
theorem PeaksCarry.worth {n : ℕ} {f : ℕ → ℕ → MiniData × ℚ} {xs : List MMREntry}
    (h : PeaksCarry MMRData.content n f xs) (hjoin : Labelling (SumJoins C) n f)
    (hf : ∀ k < n, 0 ≤ (f 0 k).2) (hsum : ∑ i ∈ Finset.range n, (f 0 i).2 < 10 ^ 20) :
    Worth xs (∑ i ∈ Finset.range n, (f 0 i).2) := by
  obtain ⟨ds, hds, -⟩ := h.holdData
  -- each peak in terms of the leaves under it
  have hpeak : ∀ r ∈ n.bitIndices, Complete n r (n / 2 ^ r - 1) := fun r hr =>
    (isPeak_last (mem_bitIndices_iff.mp hr)).complete
  have hvalues : List.Forall₂ (fun r d => d.value.toRat = leafSum f r (n / 2 ^ r - 1))
      n.bitIndices.reverse ds := by
    refine List.forall₂_iff_get.mpr ⟨h.length_eq.trans hds.length_eq, fun i hi hd => ?_⟩
    have hx : i < xs.length := hds.length_eq ▸ hd
    obtain ⟨d, hget, hlabel⟩ := (h.get hi hx).getMMRData
    obtain rfl := Except.ok.inj (hget.symm.trans (hds.get hx hd))
    have hmem : n.bitIndices.reverse.get ⟨i, hi⟩ ∈ n.bitIndices :=
      List.mem_reverse.mp (List.get_mem _ _)
    rw [← value_eq_leafSum hjoin hf hsum (hpeak _ hmem), ← hlabel]
    rfl
  refine ⟨ds, hds, ?_, ?_⟩
  · intro d hd
    obtain ⟨r, hr, hvalue⟩ := forall₂_mem_right hvalues hd
    rw [hvalue]
    exact (leafSum_le hf (hpeak r (List.mem_reverse.mp hr))).1
  · have hmap : ds.map (fun d => d.value.toRat) =
        n.bitIndices.reverse.map fun r => leafSum f r (n / 2 ^ r - 1) := by
      rw [← List.forall₂_eq_eq_eq, List.forall₂_map_left_iff, List.forall₂_map_right_iff]
      exact hvalues.flip
    have hspan : ∀ r ∈ n.bitIndices, leafSum f r (n / 2 ^ r - 1) =
        ∑ i ∈ Finset.range (n / 2 ^ r * 2 ^ r), (f 0 i).2 -
          ∑ i ∈ Finset.range ((n / 2 ^ r - 1) * 2 ^ r), (f 0 i).2 := by
      intro r hr
      have hlast : n / 2 ^ r - 1 + 1 = n / 2 ^ r := Nat.succ_pred_eq_of_pos (Nat.zero_lt_of_lt (hpeak r hr))
      rw [leafSum, hlast, Finset.sum_Ico_eq_sub _ (Nat.mul_le_mul_right _ (Nat.sub_le _ _))]
    rw [hmap, List.map_reverse, List.sum_reverse, List.map_congr_left hspan]
    exact sum_bitIndices n (fun m => ∑ i ∈ Finset.range m, (f 0 i).2) (by simp)

/-- **One round of bagging** keeps what the peaks are worth, and leaves fewer of them. -/
theorem Worth.bagPeaks {xs : List MMREntry} {total : ℚ} (hxs : Worth xs total) (htotal : total < 10 ^ 20)
    {m : MMR} (h : MMR.bagPeaks C new xs = .ok m) :
    Worth m.getPeaks total ∧ m.getPeaks.length = xs.length.bitIndices.length := by
  obtain ⟨ds, hds, hnonneg, rfl⟩ := hxs
  rw [bagPeaks_eq_addAll hds] at h
  have hnew : Sound C MMRData.content (SumJoins C) ⟨new, 0, fun _ _ => default⟩ := sound_new _
  have hw : Walks new .none ([] : List (Snapshot (MiniData × ℚ))) := by simp [Walks, Ancestry.none, new]
  obtain ⟨g, hext, htracks, hjoined, -, -, hleaves⟩ := addAll_sound MMRData.content_clone
    sumJoins_of_create ds new 0 _ m hnew.tracks hnew.joined rfl hnew.time hw h
  rw [Nat.zero_add] at htracks hjoined
  have hleaf : ∀ k (hk : k < ds.length), (g 0 k).2 = ds[k].value.toRat := by
    intro k hk
    have hlabel := hleaves k hk
    rw [Nat.zero_add] at hlabel
    rw [hlabel]
    rfl
  have hsum : ∑ i ∈ Finset.range ds.length, (g 0 i).2 = (ds.map fun d => d.value.toRat).sum := by
    rw [Finset.sum_range, ← Fin.sum_univ_fun_getElem]
    exact Finset.sum_congr rfl fun i _ => hleaf i i.isLt
  have hpeaks := htracks.getPeaks MMRData.content_clone hext.finalized
  have hworth := hpeaks.worth hjoined (fun k hk => by
    rw [hleaf k hk]
    exact hnonneg _ (List.getElem_mem hk)) (hsum ▸ htotal)
  rw [hsum] at hworth
  refine ⟨hworth, ?_⟩
  rw [hds.length_eq, ← hpeaks.length_eq, List.length_reverse]

/-- **All rounds of bagging** end with one peak. -/
theorem Worth.rootLoop {total : ℚ} (htotal : total < 10 ^ 20) (fuel : ℕ) : ∀ {xs ys : List MMREntry},
    Worth xs total → xs.length ≤ fuel + 1 → MMR.rootLoop C fuel xs = .ok ys →
      Worth ys total ∧ ys.length ≤ 1 := by
  induction fuel with
  | zero =>
    intro xs ys hxs hlen h
    rw [MMR.rootLoop, Except.ok.injEq] at h
    exact h ▸ ⟨hxs, hlen⟩
  | succ fuel ih =>
    intro xs ys hxs hlen h
    rw [MMR.rootLoop] at h
    split_ifs at h with hmore
    · obtain ⟨m, hm, h⟩ := Result.bind_eq_ok.mp h
      obtain ⟨hworth, hlength⟩ := hxs.bagPeaks htotal hm
      have hfewer := length_bitIndices_lt hmore
      exact ih hworth (by omega) h
    · rw [Except.ok.injEq] at h
      exact h ▸ ⟨hxs, not_lt.mp hmore⟩

/-- **The root is worth what the leaves are worth.** -/
theorem PeaksCarry.rootOfPeaks_value {n : ℕ} {f : ℕ → ℕ → MiniData × ℚ} {xs : List MMREntry}
    (h : PeaksCarry MMRData.content n f xs) (hjoin : Labelling (SumJoins C) n f)
    (hf : ∀ k < n, 0 ≤ (f 0 k).2) (hsum : ∑ i ∈ Finset.range n, (f 0 i).2 < 10 ^ 20) {root : MMRData}
    (hroot : rootOfPeaks C xs = .ok (some root)) : root.value.toRat = ∑ i ∈ Finset.range n, (f 0 i).2 := by
  unfold rootOfPeaks at hroot
  split_ifs at hroot with hempty
  · cases hroot
  · obtain ⟨ys, hys, hroot⟩ := Result.bind_eq_ok.mp hroot
    obtain ⟨⟨ds, hds, -, htotal⟩, hone⟩ := (h.worth hjoin hf hsum).rootLoop hsum _ (Nat.le_succ _) hys
    cases hds with
    | nil => cases hroot
    | @cons y d ys ds hd hrest =>
      have hnil : ys = [] := List.eq_nil_of_length_eq_zero (Nat.le_zero.mp (Nat.le_of_succ_le_succ hone))
      subst hnil
      cases hrest
      simp only [hd, Result.ok_bind, Result.bind_eq_ok, Result.pure_eq_ok, Option.some.injEq] at hroot
      obtain ⟨made, hmade, rfl⟩ := hroot
      rw [MMRData.make_eq_clone, Except.ok.injEq] at hmade
      rw [← htotal, ← hmade]
      simp [MMRData.clone]

end MMR

end Minima
