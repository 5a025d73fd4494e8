import Minima.Mmr.CurrentLeaf

/-! # An MMR that is rebuilt from peaks and proofs

The MMR of a block is made twice. First a child of the parent's MMR is changed, with all older MMRs at
hand, to get a proof for every leaf that changes. Then a new MMR that sees no other one is made from the
peaks of the parent and these proofs.

* **`MMR.Played`** — the first one: it follows the tree of the parent.
* **`MMR.Rebuilt`** — the second one: it has stored or kept every node. -/

namespace Minima

open MountainRange

namespace MMR

variable {A : Type} {C : Crypto} {label : MMRData → A} {J : A → A → A → Prop}

/-! ## Proofs in a chain -/

/-- The chunk of a row. -/
theorem Siblings.chunk {f : ℕ → ℕ → A} {e : ℕ} {cs : List MMRProofChunk} : ∀ {i : ℕ},
    Siblings label f e i cs → ∀ {j : ℕ} {c : MMRProofChunk}, cs[j]? = some c →
      label c.mmrData = f (i + j) (sibling (e / 2 ^ (i + j))) := by
  induction cs with
  | nil => simp
  | cons c₀ cs ih =>
    intro i h j c hc
    obtain ⟨-, hlabel, hrest⟩ := h
    cases j with
    | zero =>
      obtain rfl : c₀ = c := by simpa using hc
      simpa using hlabel
    | succ j =>
      have hnext := ih hrest (j := j) (by simpa using hc)
      rwa [show i + 1 + j = i + (j + 1) by omega] at hnext

/-- **`getProofToPeak` in a chain** carries the siblings of the newest tree, up to one that no MMR stores. -/
theorem Chain.getProofToPeak (hclone : ∀ d : MMRData, label d.clone = label d) {s : Snapshot A}
    {older : List (Snapshot A)} (h : Chain C label J (s :: older)) (e : ℕ) :
    ∃ cs, s.mmr.getProofToPeak ⟨older.map Snapshot.mmr, none⟩ (.ofNat e) = .ok ⟨s.mmr.blockTime, cs⟩ ∧
      Siblings label s.label e 0 cs := by
  have hcases := fun r k => getEntryBack_cases hclone walks_parents h.1.tracks.stored h.2.1 h.2.2 .zero r k
  -- the rows end below 256
  have hlast : (s.mmr.getEntry ⟨older.map Snapshot.mmr, none⟩ (256 : ℕ)
      (.ofNat (sibling (e / 2 ^ 256)))).isEmpty = true := by
    rcases hcases 256 (sibling (e / 2 ^ 256)) with ⟨hk, -⟩ | ⟨hnone, -⟩
    · exact absurd (hk.row_lt h.1.tracks.small) (lt_irrefl _)
    · rw [MMR.getEntry, hnone]
      rfl
  have hempty : ∃ r : ℕ, (s.mmr.getEntry ⟨older.map Snapshot.mmr, none⟩ r
      (.ofNat (sibling (e / 2 ^ r)))).isEmpty = true := ⟨256, hlast⟩
  classical
  have hbelow : Nat.find hempty < 257 := Nat.lt_succ_of_le (Nat.find_min' hempty hlast)
  have hentry : (s.mmr.getEntry ⟨older.map Snapshot.mmr, none⟩ 0 (.ofNat e)).row = 0 ∧
      (s.mmr.getEntry ⟨older.map Snapshot.mmr, none⟩ 0 (.ofNat e)).entryNumber = .ofNat e := by
    rcases hcases 0 e with ⟨-, hcarry⟩ | ⟨hnone, -⟩
    · exact ⟨hcarry.row, hcarry.number⟩
    · exact ⟨congrArg MMREntry.row hnone, congrArg MMREntry.entryNumber hnone⟩
  have hfind : ∀ j < Nat.find hempty, (s.mmr.getEntry ⟨older.map Snapshot.mmr, none⟩ j
      (.ofNat (sibling (e / 2 ^ j)))).Carries label s.label j (sibling (e / 2 ^ j)) := by
    intro j hj
    rcases hcases j (sibling (e / 2 ^ j)) with ⟨-, hcarry⟩ | ⟨hnone, -⟩
    · exact hcarry
    · exact absurd (by rw [MMR.getEntry, hnone]; rfl) (Nat.find_min hempty hj)
  obtain ⟨cs, hproof, -, hsib⟩ := getProofToPeak_spec hclone hbelow hentry hfind (Nat.find_spec hempty)
  exact ⟨cs, hproof, hsib⟩

/-- What supplies a change in the parent's tree supplies it in a tree over it that agrees with it off the
leaves changed so far. -/
theorem Supplies.child {p : MMRProof} {e : ℕ} {s P : Snapshot A} {older : List (Snapshot A)}
    (h : Supplies label p e P older) (htime : p.blockTime.toRat ≤ P.mmr.blockTime.toRat)
    (hsize : s.size = P.size) : Supplies label p e s (P :: older) := by
  intro i c hnode hpeak hchunk hmiss
  rw [hsize] at hnode hpeak
  obtain ⟨-, hsame, -⟩ := hmiss P (by simp) htime
  rw [← hsame]
  refine h i c hnode hpeak hchunk fun q hq hle => ?_
  obtain ⟨hcomplete, hlabel, hno⟩ := hmiss q (List.mem_cons_of_mem s hq) hle
  exact ⟨hcomplete, hlabel.trans hsame.symm, hno⟩

/-! ## The child that is played with -/

/-- The child of an MMR in which the leaves `done` have been set anew, each to what it is: every other node
is as in the tree of the parent. -/
structure Played (C : Crypto) (label : MMRData → A) (J : A → A → A → Prop) (P : Snapshot A)
    (older : List (Snapshot A)) (done : List ℕ) (m : MMR) (g : ℕ → ℕ → A) : Prop where
  chain : Chain C label J (⟨m, P.size, g⟩ :: P :: older)
  isOpen : m.finalized = false
  same : ∀ r k, (∀ e ∈ done, k ≠ e / 2 ^ r) → g r k = P.label r k
  leaves : ∀ k, g 0 k = P.label 0 k

variable (hclone : ∀ d : MMRData, label d.clone = label d)
variable (hJ : ∀ l r p, MMRData.createMMRDataParentNode C l r = .ok p → J (label l) (label r) (label p))

include hclone in
/-- The child that the play begins with. -/
theorem played_childOf {isMega : Bool} {P : Snapshot A} {older : List (Snapshot A)} {m p : MMR}
    (hchain : Chain C label J (P :: older)) (hfinal : P.mmr.finalized = true)
    (h : childOf C isMega P.mmr = .ok (m, p)) :
    p = P.mmr ∧ Played C label J P older [] m P.label ∧ P.mmr.blockTime.add .one = .ok m.blockTime := by
  have hparent : p = P.mmr := by
    unfold childOf ensureFinalized at h
    rw [if_pos hfinal] at h
    simp only [Result.ok_bind, Result.bind_eq_ok, Result.pure_eq_ok, Prod.mk.injEq] at h
    obtain ⟨_, -, _, -, -, hp⟩ := h
    exact hp.symm
  obtain ⟨hchain', hopen, -, htime, -, -, -⟩ := childOf_sound hclone hchain h
  subst hparent
  exact ⟨rfl, ⟨hchain', hopen, fun _ _ _ => rfl, fun _ => rfl⟩, htime⟩

include hclone hJ in
/-- **One leaf is set to what it is**, by a proof that supplies its siblings, and gets a new proof: off the
leaves set so far, that proof carries the siblings of the parent's tree. -/
theorem Played.update {P : Snapshot A} {older : List (Snapshot A)} {done : List ℕ} {m m' : MMR}
    {g : ℕ → ℕ → A} (h : Played C label J P older done m g) {k : ℕ} (hk : k < P.size) {d : MMRData}
    (hd : P.label 0 k = label d) {p : MMRProof} (htime : p.blockTime.toRat ≤ P.mmr.blockTime.toRat)
    (hp : Supplies label p k P older)
    (hup : updateEntry C ⟨(P :: older).map Snapshot.mmr, none⟩ m (.ofNat k) p d = .ok m') :
    ∃ g' cs, Played C label J P older (k :: done) m' g' ∧ m'.blockTime = m.blockTime ∧
      m'.getProofToPeak ⟨(P :: older).map Snapshot.mmr, none⟩ (.ofNat k) = .ok ⟨m.blockTime, cs⟩ ∧
      ∀ i c, cs[i]? = some c → (∀ e ∈ done, sibling (k / 2 ^ i) ≠ e / 2 ^ i) →
        label c.mmrData = P.label i (sibling (k / 2 ^ i)) := by
  obtain ⟨hs, hover, hchain⟩ := h.chain
  have hsupplies : Supplies label p k ⟨m, P.size, g⟩ (P :: older) := hp.child htime rfl
  obtain ⟨g', hext, htracks, hjoined, hover', -, hoff, hleaf⟩ := updateEntry_sound hclone hJ hs.tracks
    hs.joined h.isOpen hover hchain walks_parents hk hsupplies hup
  have hopen := hext.finalized.trans h.isOpen
  have hplayed : Played C label J P older (k :: done) m' g' := by
    refine ⟨⟨⟨htracks, hjoined, hext.blockTime ▸ hs.time, fun hf => ?_⟩, hover', hchain⟩, hopen, ?_, ?_⟩
    · exact absurd (hf.symm.trans hopen) (by simp)
    · intro r j hj
      rw [hoff r j (hj k List.mem_cons_self)]
      exact h.same r j fun e he => hj e (List.mem_cons_of_mem k he)
    · intro j
      rcases eq_or_ne j k with rfl | hne
      · rw [hleaf, hd]
      · rw [hoff 0 j (by simpa using hne)]
        exact h.leaves j
  obtain ⟨cs, hproof, hsib⟩ := hplayed.chain.getProofToPeak hclone k
  refine ⟨g', cs, hplayed, hext.blockTime, ?_, ?_⟩
  · rw [hproof, hext.blockTime]
  · intro i c hc hnot
    have hchunk := hsib.chunk hc
    rw [Nat.zero_add] at hchunk
    rw [hchunk]
    refine hplayed.same i _ fun e he => ?_
    rcases List.mem_cons.mp he with rfl | he
    · exact sibling_ne _
    · exact hnot e he

/-! ## The MMR that is rebuilt -/

/-- An MMR that was made from the peaks of a tree: the leaves `done` have been changed since, and leaves
added. Every node is stored, or it is as in that tree. -/
structure Rebuilt (label : MMRData → A) (J : A → A → A → Prop) (P : Snapshot A) (done : List ℕ) (m : MMR)
    (n : ℕ) (g : ℕ → ℕ → A) : Prop where
  tracks : m.Tracks label n g
  joined : Labelling J n g
  isOpen : m.finalized = false
  size_le : P.size ≤ n
  kept : ∀ r k, Complete n r k →
    m.Has r k ∨ (Complete P.size r k ∧ (∀ e ∈ done, k ≠ e / 2 ^ r) ∧ g r k = P.label r k)

include hclone in
/-- From the peaks. -/
theorem rebuilt_start {P : Snapshot A} (hP : Sound C label J P) {m m₁ m₂ : MMR} {xs : List MMREntry}
    (hxs : PeaksCarry label P.size P.label xs) (hopen : m.finalized = false) (hindexed : m.Indexed)
    (hnone : m.setEntries = []) (hset : m.setPeaks xs = .ok m₁)
    (hnumber : m₁.calculateEntryNumberFromPeaks = .ok m₂) :
    Rebuilt label J P [] m₂ P.size P.label ∧ m₂.blockTime = m.blockTime := by
  have hstored : m.Stored label P.size P.label := by simp [Stored, hnone]
  obtain ⟨hext, hindexed₁, hstored₁, -, hhas, honly⟩ := setPeaks_sound hclone xs m m₁ hindexed hstored hopen
    hxs.arePeaks hset
  have hfresh : ∀ r k, ¬ m.Has r k := by
    intro r k h
    simp [Has, findEntry, hnone] at h
  have hpeaks : ∀ r k, IsPeak P.size r k → m₁.Has r k := by
    intro r k hk
    obtain ⟨x, hx, hcarry⟩ := hxs.exists_mem hk
    exact hhas x hx r k hcarry
  have htracks₁ : MMR.Tracks label { m₁ with entryNumber := .ofNat P.size } P.size P.label := by
    refine ⟨⟨hindexed₁.found, hindexed₁.largest, hindexed₁.range⟩, hstored₁, hpeaks, ?_, rfl, hP.tracks.small⟩
    intro r k hk hnp
    rcases honly r k hk with hold | hpeak
    · exact absurd hold (hfresh r k)
    · exact absurd hpeak hnp
  -- the peaks are set once more to count them
  have hgot : PeaksCarry label P.size P.label m₁.getPeaks :=
    htracks₁.getPeaks hclone (hext.finalized.trans hopen)
  unfold calculateEntryNumberFromPeaks at hnumber
  simp only [Result.bind_eq_ok, Result.pure_eq_ok] at hnumber
  obtain ⟨m₃, hset₃, rfl⟩ := hnumber
  obtain ⟨hext₃, hindexed₃, hstored₃, -, -, honly₃⟩ := setPeaks_sound hclone _ m₁ m₃ hindexed₁ hstored₁
    (hext.finalized.trans hopen) hgot.arePeaks hset₃
  refine ⟨⟨⟨⟨hindexed₃.found, hindexed₃.largest, hindexed₃.range⟩, hstored₃,
    fun r k hk => hext₃.has r k (hpeaks r k hk), ?_, ?_, hP.tracks.small⟩, hP.joined,
    hext₃.finalized.trans (hext.finalized.trans hopen), le_rfl, fun r k hk => Or.inr ⟨hk, by simp, rfl⟩⟩,
    hext₃.blockTime.trans hext.blockTime⟩
  · intro r k hk hnp
    rcases honly₃ r k hk with hold | hpeak
    · rcases honly r k hold with hold | hpeak
      · exact absurd hold (hfresh r k)
      · exact absurd hpeak hnp
    · exact absurd hpeak hnp
  · rw [hgot.total]
    rfl

include hclone hJ in
/-- **One leaf changes**, by a proof that carries the siblings of the parent's tree off the leaves changed
so far: the others are stored by now. -/
theorem Rebuilt.update {P : Snapshot A} {done : List ℕ} {m m' : MMR} {g : ℕ → ℕ → A}
    (h : Rebuilt label J P done m P.size g) {k : ℕ} (hk : k < P.size) {p : MMRProof} {d : MMRData}
    (htime : p.blockTime.toRat ≤ m.blockTime.toRat)
    (hp : ∀ i c, p.proofChain[i]? = some c → (∀ e ∈ done, sibling (k / 2 ^ i) ≠ e / 2 ^ i) →
      label c.mmrData = P.label i (sibling (k / 2 ^ i)))
    (hup : updateEntry C .none m (.ofNat k) p d = .ok m') :
    ∃ g', Rebuilt label J P (k :: done) m' P.size g' ∧ m'.blockTime = m.blockTime ∧ g' 0 k = label d ∧
      ∀ j, j ≠ k → g' 0 j = g 0 j := by
  have hw : Walks m .none ([] : List (Snapshot A)) := by simp [Walks, Ancestry.none]
  have hsupplies : Supplies label p k ⟨m, P.size, g⟩ [] := by
    intro i c _ _ hchunk hmiss
    obtain ⟨hsib, -, hno⟩ := hmiss ⟨m, P.size, g⟩ List.mem_cons_self htime
    rcases h.kept i _ hsib with hhas | ⟨-, hoff, hsame⟩
    · exact absurd hhas hno
    · exact (hp i c hchunk hoff).trans hsame.symm
  have hover : Over ⟨m, P.size, g⟩ ([] : List (Snapshot A)) := trivial
  obtain ⟨g', hext, htracks, hjoined, -, hpath, hoff, hleaf⟩ := updateEntry_sound hclone hJ
    h.tracks h.joined h.isOpen hover trivial hw hk hsupplies hup
  refine ⟨g', ⟨htracks, hjoined, hext.finalized.trans h.isOpen, le_rfl, ?_⟩, hext.blockTime, hleaf, ?_⟩
  · intro r j hj
    by_cases hjk : j = k / 2 ^ r
    · subst hjk
      exact Or.inl (hpath r hj)
    · rcases h.kept r j hj with hhas | ⟨hP, hdone, hsame⟩
      · exact Or.inl (hext.has r j hhas)
      · refine Or.inr ⟨hP, ?_, (hoff r j hjk).trans hsame⟩
        intro e he
        rcases List.mem_cons.mp he with rfl | he
        · exact hjk
        · exact hdone e he
  · exact fun j hj => hoff 0 j (by simpa using hj)

include hclone hJ in
/-- **A leaf is added.** -/
theorem Rebuilt.add {P : Snapshot A} {done : List ℕ} {m m' : MMR} {n : ℕ} {g : ℕ → ℕ → A}
    (h : Rebuilt label J P done m n g) (htime : m.blockTime.IsNonneg) {d : MMRData} {x : MMREntry}
    (hadd : addEntry C .none m d = .ok (m', x)) :
    ∃ g', Rebuilt label J P done m' (n + 1) g' ∧ m'.blockTime = m.blockTime ∧ g' 0 n = label d ∧
      ∀ j < n, g' 0 j = g 0 j := by
  have hw : Walks m .none ([] : List (Snapshot A)) := by simp [Walks, Ancestry.none]
  obtain ⟨-, g', hext, htracks, hjoined, hnew, hold, hleaf⟩ := addEntry_sound hclone hJ h.tracks h.joined
    h.isOpen htime hw hadd
  refine ⟨g', ⟨htracks, hjoined, hext.finalized.trans h.isOpen, h.size_le.trans (Nat.le_succ n), ?_⟩,
    hext.blockTime, hleaf, fun j hj => hold 0 j (complete_zero.mpr hj)⟩
  intro r j hj
  rcases hnew r j hj with hcomplete | hhas
  · rcases h.kept r j hcomplete with hhas | ⟨hP, hdone, hsame⟩
    · exact Or.inl (hext.has r j hhas)
    · exact Or.inr ⟨hP, hdone, (hold r j hcomplete).trans hsame⟩
  · exact Or.inl hhas

include hclone in
/-- **What is finalized follows the parent in the chain.** -/
theorem Rebuilt.finalize {P : Snapshot A} {older : List (Snapshot A)} (hchain : Chain C label J (P :: older))
    {done : List ℕ} {m m' : MMR} {n : ℕ} {g : ℕ → ℕ → A} (h : Rebuilt label J P done m n g)
    (htime : m.blockTime.IsNonneg) (hle : P.mmr.blockTime.toRat ≤ m.blockTime.toRat)
    (hfinal : m.finalizeSet C = .ok m') :
    Chain C label J (⟨m', n, g⟩ :: P :: older) ∧ m'.finalized = true ∧ m'.blockTime = m.blockTime := by
  have hsound : Sound C label J ⟨m, n, g⟩ :=
    ⟨h.tracks, h.joined, htime, fun hf => absurd (hf.symm.trans h.isOpen) (by simp)⟩
  obtain ⟨hsound', hf, hentries, hblock, -⟩ := hsound.finalizeSet hclone hfinal
  refine ⟨⟨hsound', ⟨h.size_le, ?_, hblock ▸ hle⟩, hchain⟩, hf, hblock⟩
  intro r k hk
  rcases h.kept r k hk with hhas | ⟨hP, -, hsame⟩
  · left
    rw [Has] at hhas ⊢
    rwa [← hentries]
  · exact Or.inr ⟨hP, hsame⟩

end MMR

end Minima
