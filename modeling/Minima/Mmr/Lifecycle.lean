import Minima.Mmr.Update

/-! # Starting, finalizing and handing on an MMR

* **`setPeaks_sound`** — setting the peaks of a tree in an MMR that stores part of it.
* **`finalizeSet_sound`**, **`getRoot_spec`** — finalizing stores the peaks and their root.
* **`childOf_sound`** — the MMR of the next block starts with the peaks, and the chain grows by it. -/

namespace Minima

open MountainRange

namespace MMR

variable {A : Type} {C : Crypto} {label : MMRData → A} {J : A → A → A → Prop}

/-- Every entry of the list is a peak over `n` leaves with its label. -/
def ArePeaks (label : MMRData → A) (n : ℕ) (f : ℕ → ℕ → A) (xs : List MMREntry) : Prop :=
  ∀ x ∈ xs, ∃ r k, IsPeak n r k ∧ x.Carries label f r k

theorem PeaksCarry.arePeaks {n : ℕ} {f : ℕ → ℕ → A} {xs : List MMREntry}
    (h : PeaksCarry label n f xs) : ArePeaks label n f xs := fun _ hx => h.isPeak hx

/-- The total of the peaks is the number of leaves. -/
theorem PeaksCarry.total {n : ℕ} {f : ℕ → ℕ → A} {xs : List MMREntry}
    (h : PeaksCarry label n f xs) : totalOfPeaks xs = n := by
  have hmap : xs.map (fun p => (2 : ℤ) ^ p.row.toNat) =
      n.bitIndices.reverse.map fun r => ((2 ^ r : ℕ) : ℤ) := by
    unfold PeaksCarry at h
    generalize n.bitIndices.reverse = rows at h
    induction h with
    | nil => rfl
    | cons hx _ ih =>
        rw [List.map_cons, List.map_cons, ih, hx.row, Int.toNat_natCast]
        push_cast
        rfl
  rw [totalOfPeaks, hmap, List.map_reverse, List.sum_reverse]
  calc (n.bitIndices.map fun r => ((2 ^ r : ℕ) : ℤ)).sum
      = ((n.bitIndices.map fun r => 2 ^ r).sum : ℕ) := by
        rw [Nat.cast_list_sum, List.map_map]
        rfl
    _ = n := by rw [Nat.sum_map_two_pow_bitIndices]

variable (hclone : ∀ d : MMRData, label d.clone = label d)

include hclone

/-- **Setting peaks** adds them to what is stored and disturbs nothing. -/
theorem setPeaks_sound {n : ℕ} {f : ℕ → ℕ → A} (xs : List MMREntry) :
    ∀ (m m' : MMR), m.Indexed → m.Stored label n f → m.finalized = false →
      ArePeaks label n f xs → m.setPeaks xs = .ok m' →
      m.Extends m' ∧ m'.Indexed ∧ m'.Stored label n f ∧ m'.entryNumber = m.entryNumber ∧
        (∀ x ∈ xs, ∀ r k, x.Carries label f r k → m'.Has r k) ∧
        ∀ r k, m'.Has r k → m.Has r k ∨ IsPeak n r k := by
  induction xs with
  | nil =>
      intro m m' hi hs _ _ h
      rw [setPeaks, Except.ok.injEq] at h
      subst h
      exact ⟨Extends.refl m, hi, hs, rfl, by simp, fun _ _ h => Or.inl h⟩
  | cons x xs ih =>
      intro m m' hi hs hopen hxs h
      simp only [setPeaks, Result.bind_eq_ok] at h
      obtain ⟨d, hd, ⟨m₁, y⟩, hset, hrest⟩ := h
      obtain ⟨r, k, hpk, hcx⟩ := hxs x List.mem_cons_self
      obtain ⟨d', hd', hl⟩ := hcx.getMMRData
      rw [hd', Except.ok.injEq] at hd
      subst hd
      rw [hcx.row, hcx.number] at hset
      have hhas := has_setEntry hopen hset
      have hext := setEntry_extends hopen hset
      have hs₁ := hs.setEntry hclone hopen hpk.complete hset
      rw [hl, relabel_self] at hs₁
      obtain ⟨h1, h2, h3, h4, h5, h6⟩ := ih m₁ m' (hi.setEntry hopen hset) hs₁
        (hext.finalized.trans hopen) (fun z hz => hxs z (List.mem_cons_of_mem x hz)) hrest
      refine ⟨hext.trans h1, h2, h3, h4.trans (setEntry_entryNumber hopen hset), ?_, ?_⟩
      · intro z hz r' k' hcz
        rcases List.mem_cons.mp hz with rfl | hz
        · have hr : r' = r := by exact_mod_cast hcz.row.symm.trans hcx.row
          have hk : k' = k := MMREntryNumber.ofNat_injective (hcz.number.symm.trans hcx.number)
          exact h1.has _ _ ((hhas r' k').mpr (Or.inl ⟨hr, hk⟩))
        · exact h5 z hz r' k' hcz
      · intro r' k' hk'
        rcases h6 r' k' hk' with h7 | h7
        · rcases (hhas r' k').mp h7 with ⟨rfl, rfl⟩ | h7
          · exact Or.inr hpk
          · exact Or.inl h7
        · exact Or.inr h7

/-- The peaks an MMR of a chain hands out, finalized or not. -/
theorem Sound.getPeaks {s : Snapshot A} (h : Sound C label J s) :
    PeaksCarry label s.size s.label s.mmr.getPeaks := by
  cases hf : s.mmr.finalized with
  | false => exact h.tracks.getPeaks hclone hf
  | true =>
      rw [MMR.getPeaks, if_pos hf]
      exact List.forall₂_map_right_iff.mpr ((h.final hf).1.imp fun _ _ hx => hx.copy hclone)

omit hclone

/-- The data of a computed root is a clone. -/
theorem rootOfPeaks_clone {xs : List MMREntry} {r : Option MMRData}
    (h : rootOfPeaks C xs = .ok r) : r.map MMRData.clone = r := by
  unfold rootOfPeaks at h
  split_ifs at h
  · rw [Result.pure_eq_ok] at h
    rw [← h]
    rfl
  · rw [Result.bind_eq_ok] at h
    obtain ⟨ys, -, h⟩ := h
    cases ys with
    | nil => exact absurd h (by simp)
    | cons y ys =>
        simp only [Result.bind_eq_ok, Result.pure_eq_ok] at h
        obtain ⟨d, -, root, hroot, rfl⟩ := h
        rw [MMRData.make_eq_clone, Except.ok.injEq] at hroot
        rw [← hroot]
        rfl

include hclone

/-- **The root of a sound MMR is the root of its peaks.** -/
theorem Sound.getRoot {s : Snapshot A} (h : Sound C label J s) :
    ∃ xs, PeaksCarry label s.size s.label xs ∧ s.mmr.getRoot C = rootOfPeaks C xs := by
  cases hf : s.mmr.finalized with
  | false =>
      exact ⟨_, h.tracks.getPeaks hclone hf, by
        rw [MMR.getRoot, if_neg (by simp [hf]), getRootInternal]⟩
  | true =>
      obtain ⟨xs, hxs, hroot⟩ := (h.final hf).2
      exact ⟨xs, hxs, by rw [MMR.getRoot, if_pos hf, rootOfPeaks_clone hroot, hroot]⟩

/-- **Finalizing** keeps the tree and stores its peaks and their root. -/
theorem Sound.finalizeSet {s : Snapshot A} (h : Sound C label J s) {m' : MMR}
    (hm : s.mmr.finalizeSet C = .ok m') :
    Sound C label J ⟨m', s.size, s.label⟩ ∧ m'.finalized = true ∧ s.mmr.setEntries = m'.setEntries ∧
      m'.blockTime = s.mmr.blockTime ∧ m'.useMegaMMR = s.mmr.useMegaMMR := by
  unfold MMR.finalizeSet at hm
  simp only [Result.bind_eq_ok, Result.pure_eq_ok] at hm
  obtain ⟨root, hroot, rfl⟩ := hm
  have htr : MMR.Tracks label { s.mmr with finalized := false } s.size s.label :=
    ⟨⟨h.tracks.indexed.found, h.tracks.indexed.largest, h.tracks.indexed.range⟩, h.tracks.stored,
      h.tracks.peaks, h.tracks.pairs, h.tracks.entryNumber, h.tracks.small⟩
  have hpeaks := htr.getPeaks hclone rfl
  rw [MMR.getRoot, if_neg (by simp), getRootInternal] at hroot
  refine ⟨⟨⟨⟨htr.indexed.found, htr.indexed.largest, htr.indexed.range⟩, htr.stored, htr.peaks,
    htr.pairs, htr.entryNumber, htr.small⟩, h.joined, h.time, fun _ => ⟨hpeaks, _, hpeaks, ?_⟩⟩,
    rfl, rfl, rfl, rfl⟩
  exact hroot

omit hclone

/-- Nothing stored, nothing labelled: the empty MMR. -/
theorem sound_new (f : ℕ → ℕ → A) : Sound C label J ⟨new, 0, f⟩ := by
  have hno : ∀ r k, ¬ new.Has r k := by
    intro r k h
    simp [Has, findEntry, new] at h
  refine ⟨⟨indexed_new, by simp [Stored, new], ?_, fun r k h => absurd h (hno r k), rfl,
    by norm_num⟩, ?_, MiniNumber.isNonneg_zero, by simp [new]⟩
  · intro r k h
    have := h.1
    simp at this
  · intro r k h
    unfold Complete at h
    simp at h

include hclone

/-- **The MMR of the next block.** The child starts with the peaks of its parent's tree and stands
for the same tree; the chain grows by it, with the parent finalized. -/
theorem childOf_sound {isMega : Bool} {p : Snapshot A} {older : List (Snapshot A)} {m' p' : MMR}
    (hc : Chain C label J (p :: older)) (h : childOf C isMega p.mmr = .ok (m', p')) :
    Chain C label J (⟨m', p.size, p.label⟩ :: ⟨p', p.size, p.label⟩ :: older) ∧
      m'.finalized = false ∧ p'.finalized = true ∧ p.mmr.blockTime.add .one = .ok m'.blockTime ∧
      p'.blockTime = p.mmr.blockTime ∧ m'.useMegaMMR = isMega ∧
      p'.setEntries = p.mmr.setEntries := by
  obtain ⟨hsound, hover, hchain⟩ := hc
  unfold childOf at h
  simp only [Result.bind_eq_ok, Result.pure_eq_ok, Prod.mk.injEq] at h
  obtain ⟨q, hq, time, htime, m₁, hset, rfl, rfl⟩ := h
  -- the parent, finalized
  have hfin : Sound C label J ⟨q, p.size, p.label⟩ ∧ q.finalized = true ∧
      p.mmr.setEntries = q.setEntries ∧ q.blockTime = p.mmr.blockTime := by
    unfold ensureFinalized at hq
    split_ifs at hq with hf
    · rw [Except.ok.injEq] at hq
      subst hq
      exact ⟨hsound, hf, rfl, rfl⟩
    · obtain ⟨h1, h2, h3, h4, -⟩ := hsound.finalizeSet hclone hq
      exact ⟨h1, h2, h3, h4⟩
  obtain ⟨hq1, hq2, hq3, hq4⟩ := hfin
  have hpeaks := hq1.getPeaks hclone
  have hnew : Sound C label J ⟨new, 0, p.label⟩ := sound_new p.label
  obtain ⟨h1, h2, h3, -, h5, h6⟩ := setPeaks_sound hclone _ _ m₁
    (⟨indexed_new.found, indexed_new.largest, indexed_new.range⟩ :
      MMR.Indexed { new with useMegaMMR := isMega, blockTime := time })
    (by simp [Stored, new]) rfl hpeaks.arePeaks hset
  rw [hq4] at htime
  have htimes := hsound.time.add_one htime
  have hcovers : ∀ r k, IsPeak p.size r k → m₁.Has r k := by
    intro r k hk
    obtain ⟨x, hx, hcx⟩ := hpeaks.exists_mem hk
    exact h5 x hx r k hcx
  have htracks : MMR.Tracks label { m₁ with entryNumber := .ofInt (totalOfPeaks q.getPeaks) } p.size
      p.label := by
    refine ⟨⟨h2.found, h2.largest, h2.range⟩, h3, hcovers, ?_, ?_, hsound.tracks.small⟩
    · intro r k hk hnp
      rcases h6 r k hk with h7 | h7
      · simp [Has, findEntry, new] at h7
      · exact absurd h7 hnp
    · rw [hpeaks.total]
      rfl
  refine ⟨⟨⟨htracks, hsound.joined, ?_, ?_⟩, ⟨le_rfl, fun r k hk => Or.inr ⟨hk, rfl⟩, ?_⟩, hq1, ?_,
    hchain⟩, h1.finalized, hq2, ?_, hq4, h1.useMegaMMR, hq3.symm⟩
  · rw [show m₁.blockTime = time from h1.blockTime]
    exact htimes.1
  · intro hf
    exact absurd (h1.finalized.symm.trans hf) (by simp [new])
  · show q.blockTime.toRat ≤ m₁.blockTime.toRat
    rw [h1.blockTime, hq4]
    exact htimes.2
  · -- finalizing changes neither entries nor time
    cases older with
    | nil => trivial
    | cons o rest =>
        obtain ⟨h7, h8, h9⟩ := hover
        refine ⟨h7, ?_, hq4 ▸ h9⟩
        intro r k hk
        have := h8 r k hk
        rwa [Has, hq3] at this
  · rw [htime]
    exact congrArg Except.ok h1.blockTime.symm

end MMR

end Minima
