import Minima.Lib.FoldedTree
import Minima.Mmr.HashLabels
import Minima.Mmr.RootTotal

/-! # The root determines the leaves

The root of an MMR is the hash of a tree that has the leaves of the MMR as its leaves, in their order:
first the trees under the peaks, then those of all rounds of bagging. So it determines how many leaves
there are, and each of them.

* **`MMR.Spans`** — entries that were joined, one after the other, from a list of leaves.
* **`MMR.Sealed.leaves_eq`** — MMRs with one root have the same leaves. -/

namespace Minima

open MountainRange

namespace MMR

variable {C : Crypto}

/-- **The entries were joined, one after the other, from a list of leaves.** -/
def Spans (C : Crypto) (xs : List MMREntry) (leaves : List MiniData) : Prop :=
  ∃ ls ds, HoldData xs ds ∧ List.Forall₂ (fun l d => Folds (HashJoins C) l d.data) ls ds ∧ ls.flatten = leaves

/-- The peaks of a range whose nodes were joined from leaves span all of them. -/
theorem PeaksCarry.spans {n : ℕ} {f : ℕ → ℕ → MiniData} {xs : List MMREntry}
    (h : PeaksCarry MMRData.data n f xs) {ls : ℕ → List MiniData}
    (hnode : ∀ r k, Complete n r k →
      Folds (HashJoins C) ((List.range' (k * 2 ^ r) (2 ^ r)).flatMap ls) (f r k)) :
    Spans C xs ((List.range n).flatMap ls) := by
  rw [← flatMap_peaks n, List.flatMap_assoc, List.flatMap_def]
  have hrows : ∀ r ∈ n.bitIndices.reverse, Complete n r (n / 2 ^ r - 1) := fun r hr =>
    (isPeak_last (mem_bitIndices_iff.mp (List.mem_reverse.mp hr))).complete
  unfold PeaksCarry at h
  generalize n.bitIndices.reverse = rows at h hrows
  induction h with
  | nil => exact ⟨[], [], .nil, .nil, rfl⟩
  | @cons r x rows xs hx _ ih =>
    rw [List.forall_mem_cons] at hrows
    obtain ⟨lists, ds, hds, hfolds, hflat⟩ := ih hrows.2
    obtain ⟨d, hd, hlabel⟩ := hx.getMMRData
    exact ⟨_ :: lists, d :: ds, .cons hd hds, .cons (hlabel ▸ hnode r _ hrows.1) hfolds, by
      rw [List.flatten_cons, hflat, List.map_cons, List.flatten_cons]⟩

/-- **One round of bagging** spans the same leaves. -/
theorem Spans.bagPeaks (hC : Function.Injective C.hashData) {xs : List MMREntry} {leaves : List MiniData}
    (hxs : Spans C xs leaves) {m : MMR} (h : MMR.bagPeaks C new xs = .ok m)
    (hshort : ∀ x ∈ m.setEntries, ∀ d ∈ x.mmrData, Short d.data) :
    Spans C m.getPeaks leaves ∧ m.getPeaks.length = xs.length.bitIndices.length := by
  obtain ⟨ls, ds, hds, hfolds, rfl⟩ := hxs
  rw [bagPeaks_eq_addAll hds] at h
  have hnew : Sound C MMRData.data (HashJoins C) ⟨new, 0, fun _ _ => default⟩ := sound_new _
  have hw : Walks new .none ([] : List (Snapshot MiniData)) := by simp [Walks, Ancestry.none, new]
  obtain ⟨g, hext, htracks, hjoined, hstored, -, hleaves⟩ := addAll_sound (fun _ => rfl)
    hashJoins_of_create ds new 0 _ m hnew.tracks hnew.joined rfl hnew.time hw h
  rw [Nat.zero_add] at htracks hjoined hstored
  have hnode : ∀ r k, Complete ds.length r k → Short (g r k) := by
    intro r k hk
    rcases hstored r k hk with hzero | hhas
    · unfold Complete at hzero
      simp at hzero
    · exact htracks.stored.short hshort hhas
  -- each leaf of the new range is one of the old peaks
  have hleaf : ∀ k < ds.length, Folds (HashJoins C) (ls[k]?.getD []) (g 0 k) := by
    intro k hk
    have hlabel := hleaves k hk
    rw [Nat.zero_add] at hlabel
    have hk' : k < ls.length := hfolds.length_eq ▸ hk
    rw [hlabel, List.getElem?_eq_getElem hk', Option.getD_some]
    exact hfolds.get hk' hk
  have hpeaks := htracks.getPeaks (fun _ => rfl) hext.finalized
  have hspans := hpeaks.spans fun r k hk => folds_node hjoined (fun r k hk u v huv =>
    (hjoined r k hk).only hC (hnode r _ (complete_children hk).1) (hnode r _ (complete_children hk).2) huv)
    hleaf hk
  have hall : (List.range ds.length).flatMap (fun k => ls[k]?.getD []) = ls.flatten := by
    rw [List.flatMap_def, ← hfolds.length_eq]
    congr 1
    exact List.ext_getElem (by simp) fun i h1 h2 => by simp [h2]
  rw [hall] at hspans
  exact ⟨hspans, by rw [hds.length_eq, ← hpeaks.length_eq, List.length_reverse]⟩

/-- **All rounds of bagging** span the same leaves, with one peak in the end. -/
theorem Spans.rootLoop (hC : Function.Injective C.hashData) {leaves : List MiniData} (fuel : ℕ) :
    ∀ {xs ys : List MMREntry}, Spans C xs leaves → xs.length ≤ fuel + 1 → ShortBags C fuel xs →
      MMR.rootLoop C fuel xs = .ok ys → Spans C ys leaves ∧ ys.length ≤ 1 := by
  induction fuel with
  | zero =>
    intro xs ys hxs hlen _ h
    rw [MMR.rootLoop, Except.ok.injEq] at h
    exact h ▸ ⟨hxs, hlen⟩
  | succ fuel ih =>
    intro xs ys hxs hlen hbags h
    rw [MMR.rootLoop] at h
    split_ifs at h with hmore
    · obtain ⟨m, hm, h⟩ := Result.bind_eq_ok.mp h
      obtain ⟨hshort, hbags'⟩ := hbags hmore m (by rw [hm]; rfl)
      obtain ⟨hspans, hlength⟩ := hxs.bagPeaks hC hm hshort
      have hfewer := length_bitIndices_lt hmore
      exact ih hspans (by omega) hbags' h
    · rw [Except.ok.injEq] at h
      exact h ▸ ⟨hxs, not_lt.mp hmore⟩

/-- **The root was joined from all leaves.** -/
theorem Sealed.folds_root (hC : Function.Injective C.hashData) {s : Snapshot (MiniData × ℚ)} (h : Sealed C s)
    {root : MMRData} (hroot : s.mmr.getRoot C = .ok (some root)) :
    Folds (HashJoins C) ((List.range s.size).map fun k => (s.label 0 k).1) root.data := by
  have hrigid := h.rigid hC
  have hspans := (h.hashes.getPeaks fun _ => rfl).spans
    fun r k hk => folds_node hrigid.joined hrigid.join (fun k hk => .leaf (hrigid.leaf k hk)) hk
  rw [← List.map_eq_flatMap] at hspans
  rw [h.root, rootOfPeaks] at hroot
  split_ifs at hroot with hempty
  · cases hroot
  obtain ⟨ys, hys, hroot⟩ := Result.bind_eq_ok.mp hroot
  obtain ⟨⟨ls, ds, hds, hfolds, hflat⟩, hone⟩ := hspans.rootLoop hC _ (Nat.le_succ _) h.bags hys
  cases hds with
  | nil => cases hroot
  | @cons y d ys ds hd hrest =>
    have hnil : ys = [] := List.eq_nil_of_length_eq_zero (Nat.le_zero.mp (Nat.le_of_succ_le_succ hone))
    subst hnil
    cases hrest
    simp only [hd, Result.ok_bind, Result.bind_eq_ok, Result.pure_eq_ok, Option.some.injEq] at hroot
    obtain ⟨made, hmade, rfl⟩ := hroot
    rw [(MMRData.make_eq_ok hmade).1]
    cases hfolds with
    | cons hfold hnone =>
      cases hnone
      rw [List.flatten_singleton] at hflat
      exact hflat ▸ hfold

/-- **MMRs with one root have the same leaves**, and as many. -/
theorem Sealed.leaves_eq (hC : Function.Injective C.hashData) {s s' : Snapshot (MiniData × ℚ)}
    (h : Sealed C s) (h' : Sealed C s') {root root' : MMRData} (hroot : s.mmr.getRoot C = .ok (some root))
    (hroot' : s'.mmr.getRoot C = .ok (some root')) (hsame : root.data = root'.data) :
    s.size = s'.size ∧ ∀ k < s.size, (s.label 0 k).1 = (s'.label 0 k).1 := by
  have hleaves := (h.folds_root hC hroot).unique (hsame ▸ h'.folds_root hC hroot')
  have hsize : s.size = s'.size := by simpa using congrArg List.length hleaves
  refine ⟨hsize, fun k hk => ?_⟩
  have hget := congrArg (fun l => l[k]?) hleaves
  simp only [List.getElem?_map, List.getElem?_range hk, List.getElem?_range (hsize ▸ hk), Option.map_some,
    Option.some.injEq] at hget
  exact hget

end MMR

end Minima
