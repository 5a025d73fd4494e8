import Minima.Mmr.HashLabels

/-! # Proofs over a chain of MMRs

`checkProofTimeValid` checks a proof against the MMR of the block the proof was made for, and then looks
for the leaf in the MMRs since. With a hash without collisions an accepted proof is one for the leaf as it
is now, and `updateEntry` can take the siblings it does not find from it.

* **`MMR.SumChain`** — a chain of MMRs with hash and value as labels.
* **`MMR.checkProofTimeValid_current`** — the accepted leaf is the current one, and the proof supplies
  what an update needs. -/

namespace Minima

open MountainRange

namespace MMR

variable {C : Crypto}

/-- A chain of MMRs with hash and value as labels. -/
abbrev SumChain (C : Crypto) (ss : List (Snapshot (MiniData × ℚ))) : Prop :=
  Chain C MMRData.content (SumJoins C) ss

section Chain

variable {A : Type} {label : MMRData → A} {J : A → A → A → Prop}

/-- Trees do not shrink. -/
theorem Chain.size_le {older : List (Snapshot A)} {s : Snapshot A} (ho : Over s older)
    (h : Chain C label J older) : ∀ q ∈ older, q.size ≤ s.size := by
  induction older generalizing s with
  | nil => simp
  | cons p rest ih =>
    intro q hq
    rcases List.mem_cons.mp hq with rfl | hq
    · exact ho.1
    · exact (ih h.2.1 h.2.2 q hq).trans ho.1

/-- The newest part of a chain is a chain. -/
theorem Chain.initial {newer rest : List (Snapshot A)} (h : Chain C label J (newer ++ rest)) :
    Chain C label J newer := by
  induction newer with
  | nil => trivial
  | cons s newer ih =>
    obtain ⟨hs, ho, hc⟩ := h
    refine ⟨hs, ?_, ih hc⟩
    cases newer with
    | nil => trivial
    | cons p newer => exact ho

/-- **The node over a sibling that has not changed** was there too: had it been added since, the sibling
would have been stored with it. -/
theorem complete_of_unchanged {s : Snapshot A} {older : List (Snapshot A)}
    (hc : Chain C label J (s :: older)) {q : Snapshot A} (hq : q ∈ s :: older) {time : MiniNumber}
    (htime : time.toRat ≤ q.mmr.blockTime.toRat) {i k : ℕ} (hk : Complete s.size i k)
    (hmiss : ∀ q ∈ s :: older, time.toRat ≤ q.mmr.blockTime.toRat →
      Complete q.size i (sibling k) ∧ q.label i (sibling k) = s.label i (sibling k) ∧
        ¬ q.mmr.Has i (sibling k)) : Complete q.size i k := by
  by_contra hno
  obtain ⟨q', hq', hle, hhas⟩ := has_of_fresh hc.2.1 hc.2.2 hk q hq hno
  obtain ⟨hsib, -, hnohas⟩ := hmiss q' hq' (htime.trans hle)
  have htracks := (Chain.sound hc q' hq').tracks
  by_cases hpeak : IsPeak q'.size i k
  · have heven := hpeak.even
    have hlast := hpeak.2
    unfold Complete at hsib
    rw [sibling, if_pos heven] at hsib
    omega
  · exact hnohas (htracks.pairs i k hhas hpeak)

/-- The MMR of a block time is one of the chain. -/
theorem mem_of_getParentAtTime {time : MiniNumber} {m : MMR} : ∀ {ms : List MMR},
    getParentAtTime time ms = some m → m ∈ ms ∧ m.blockTime.toRat = time.toRat := by
  intro ms
  induction ms with
  | nil => simp [getParentAtTime]
  | cons m' ms ih =>
    intro h
    rw [getParentAtTime] at h
    split_ifs at h with hequal hless
    · obtain rfl := Option.some.inj h
      exact ⟨List.mem_cons_self, (MiniNumber.isEqual_iff _ _).mp hequal⟩
    · obtain ⟨hmem, ht⟩ := ih h
      exact ⟨List.mem_cons_of_mem _ hmem, ht⟩

end Chain

/-- The leaf that a check is asked for: wherever its hash stands in a tree of the chain, the place is the
entry number `e`, and the value there is that of the leaf. -/
def Placed (e : MMREntryNumber) (d : MMRData) (ss : List (Snapshot (MiniData × ℚ))) : Prop :=
  ∀ q ∈ ss, ∀ k < q.size, (q.label 0 k).1 = d.data → e = .ofNat k ∧ (q.label 0 k).2 = d.value.toRat

/-- What an accepted proof went through: the leaf of an MMR of the chain, at the block time of the proof. -/
theorem exists_leaf_of_accepted (hC : Function.Injective C.hashData) {s : Snapshot (MiniData × ℚ)}
    {older : List (Snapshot (MiniData × ℚ))} (hseal : ∀ q ∈ s :: older, Sealed C q) {e : MMREntryNumber}
    {d : MMRData} (hd : LeafHash C d.data) (hplace : Placed e d (s :: older)) {p : MMRProof}
    (h : s.mmr.checkProofTimeValid C ⟨older.map Snapshot.mmr, none⟩ e d p = .ok true) :
    ∃ q ∈ s :: older, q.mmr.blockTime.toRat = p.blockTime.toRat ∧
      ∃ k r, IsPeak q.size r (k / 2 ^ r) ∧ k < q.size ∧ q.label 0 k = d.content ∧
        ∀ i < r, ∀ c, p.proofChain[i]? = some c → c.mmrData.content = q.label i (sibling (k / 2 ^ i)) := by
  unfold checkProofTimeValid at h
  cases hparent : getParentAtTime p.blockTime (s.mmr :: older.map Snapshot.mmr) with
  | none =>
    rw [hparent] at h
    cases h
  | some m =>
    obtain ⟨hmem, htime⟩ := mem_of_getParentAtTime hparent
    obtain ⟨q, hq, rfl⟩ := List.mem_map.mp (show m ∈ (s :: older).map Snapshot.mmr from hmem)
    rw [hparent] at h
    obtain ⟨accepted, haccepted, h⟩ := Result.bind_eq_ok.mp h
    cases accepted with
    | false => cases h
    | true =>
      have hvalue : ∀ k < q.size, (q.label 0 k).1 = d.data → (q.label 0 k).2 = d.value.toRat :=
        fun k hk hdata => (hplace q hq k hk hdata).2
      exact ⟨q, hq, htime, (hseal q hq).checkProof hC hd hvalue haccepted⟩

/-- The MMRs since the one that a check is made in. -/
theorem time_le_of_mem {s q : Snapshot (MiniData × ℚ)} {older : List (Snapshot (MiniData × ℚ))}
    (hchain : SumChain C (s :: older)) (hq : q ∈ s :: older) :
    q.mmr.blockTime.toRat ≤ s.mmr.blockTime.toRat := by
  rcases List.mem_cons.mp hq with rfl | hq
  · exact le_rfl
  · exact Chain.time_le hchain.2.1 hchain.2.2 q hq

/-- A node below no peak of row `r` lies under the peak. -/
theorem row_lt_of_not_peak {n k r i : ℕ} (hpeak : IsPeak n r (k / 2 ^ r)) (hnode : Complete n i (k / 2 ^ i))
    (hsib : Complete n i (sibling (k / 2 ^ i))) : i < r := by
  by_contra hle
  have hdiv : k / 2 ^ i = k / 2 ^ r / 2 ^ (i - r) := by
    rw [Nat.div_div_eq_div_mul, ← pow_add]
    congr 2
    omega
  have hsizes : n / 2 ^ i = n / 2 ^ r / 2 ^ (i - r) := by
    rw [Nat.div_div_eq_div_mul, ← pow_add]
    congr 2
    omega
  rcases Nat.eq_zero_or_pos (i - r) with hzero | hpos
  · have hir : i = r := by omega
    subst hir
    have hlast := hpeak.2
    unfold Complete at hsib
    rw [sibling, if_pos hpeak.even] at hsib
    omega
  · have hlast := hpeak.2
    unfold Complete at hnode
    rw [hdiv, hsizes, ← hlast] at hnode
    have heven := hpeak.even
    obtain ⟨j, hj⟩ := Nat.exists_eq_add_of_lt hpos
    rw [Nat.zero_add] at hj
    rw [hj, pow_succ', ← Nat.div_div_eq_div_mul, ← Nat.div_div_eq_div_mul] at hnode
    have hhalf : (k / 2 ^ r + 1) / 2 = k / 2 ^ r / 2 := by omega
    rw [hhalf] at hnode
    exact lt_irrefl _ hnode

/-- **An accepted proof is one for the current leaf**, and it supplies what a change of this leaf needs. -/
theorem checkProofTimeValid_current (hC : Function.Injective C.hashData) {s : Snapshot (MiniData × ℚ)}
    {older : List (Snapshot (MiniData × ℚ))} (hchain : SumChain C (s :: older))
    (hseal : ∀ q ∈ s :: older, Sealed C q) {e : MMREntryNumber} {d : MMRData} (hd : LeafHash C d.data)
    (hplace : Placed e d (s :: older)) {p : MMRProof}
    (h : s.mmr.checkProofTimeValid C ⟨older.map Snapshot.mmr, none⟩ e d p = .ok true) :
    ∃ k, e = .ofNat k ∧ k < s.size ∧ s.label 0 k = d.content ∧
      p.blockTime.toRat ≤ s.mmr.blockTime.toRat ∧ Supplies MMRData.content p k s older := by
  obtain ⟨q, hq, htime, k, r, hpeak, hk, hlabel, hchunks⟩ :=
    exists_leaf_of_accepted hC hseal hd hplace h
  obtain ⟨rfl, -⟩ := hplace q hq k hk (congrArg Prod.fst hlabel)
  have hsize : q.size ≤ s.size := by
    rcases List.mem_cons.mp hq with rfl | hq
    · exact le_rfl
    · exact Chain.size_le hchain.2.1 hchain.2.2 q hq
  refine ⟨k, rfl, lt_of_lt_of_le hk hsize, ?_, htime ▸ time_le_of_mem hchain hq, ?_⟩
  · -- the leaf has not been set to anything else since
    rcases getEntryBack_cases MMRData.content_clone walks_parents hchain.1.tracks.stored hchain.2.1
      hchain.2.2 p.blockTime 0 k with ⟨-, hfound⟩ | ⟨-, hmiss⟩
    · obtain ⟨cur, hcur, hcurlabel⟩ := hfound.getMMRData
      unfold checkProofTimeValid at h
      cases hparent : getParentAtTime p.blockTime (s.mmr :: older.map Snapshot.mmr) with
      | none =>
        rw [hparent] at h
        cases h
      | some m =>
        rw [hparent] at h
        obtain ⟨accepted, -, h⟩ := Result.bind_eq_ok.mp h
        cases accepted with
        | false => cases h
        | true =>
          have hfull := hfound.full
          simp only [Nat.cast_zero] at hfull hcur
          simp only [Bool.not_true, Bool.false_eq_true, if_false, hfull, hcur, Result.ok_bind] at h
          have hequal : cur.isEqual d = true := Except.ok.inj h
          obtain ⟨hdata, hvalue⟩ := (MMRData.isEqual_iff _ _).mp hequal
          rw [← hcurlabel]
          exact Prod.ext hdata hvalue
    · obtain ⟨-, hsame, -⟩ := hmiss (complete_zero.mpr (lt_of_lt_of_le hk hsize)) q hq htime.ge
      rw [← hsame, hlabel]
  · intro i c hcomplete _ hchunk hmiss
    obtain ⟨hsib, hsame, -⟩ := hmiss q hq htime.ge
    have hnode := complete_of_unchanged hchain hq htime.ge hcomplete hmiss
    rw [← hsame]
    exact hchunks i (row_lt_of_not_peak hpeak hnode hsib) c hchunk

end MMR

end Minima
