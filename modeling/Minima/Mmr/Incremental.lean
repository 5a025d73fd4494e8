import Minima.Mmr.Rebuild

/-! # The incremental MMR is the MMR rebuilt from its leaves

A run starts with the empty MMR, goes to children, which know the peaks of their parent only, adds
leaves and changes leaves by means of proofs made earlier. Whatever its order, the MMR it ends with
has the root and the entry number of one fresh MMR to which the final leaves are added in order.

* **`Run`** — such a run, with the proofs it may use as a parameter.
* **`Genuine`** — the proof carries the siblings found by an MMR of the chain at its block time.
* **`Run.sound`** — the invariant: the chain is sound, and its labels are the leaves. -/

namespace Minima

open MountainRange

namespace MMR

/-- A run over leaves `ds`, at the MMR `m` with parents `ps`. `Allowed m ps e p` says that the proof
`p` may be used to change leaf `e`. -/
inductive Run (C : Crypto) (Allowed : MMR → List MMR → ℕ → MMRProof → Prop) :
    MMR → List MMR → List MMRData → Prop
  | start : Run C Allowed new [] []
  | child {m ps ds m' p'} (isMega : Bool) : Run C Allowed m ps ds →
      childOf C isMega m = .ok (m', p') → Run C Allowed m' (p' :: ps) ds
  | add {m ps ds m' x} (d : MMRData) : Run C Allowed m ps ds →
      addEntry C ⟨ps, none⟩ m d = .ok (m', x) → Run C Allowed m' ps (ds ++ [d])
  | update {m ps ds m'} (e : ℕ) (p : MMRProof) (d : MMRData) : Run C Allowed m ps ds →
      e < ds.length → Allowed m ps e p →
      updateEntry C ⟨ps, none⟩ m (.ofNat e) p d = .ok m' → Run C Allowed m' ps (ds.set e d)

/-- `checkProofTimeValid` of the parent accepts the proof, for some data at leaf `e`. -/
def AcceptedByParent (C : Crypto) (_ : MMR) (ps : List MMR) (e : ℕ) (p : MMRProof) : Prop :=
  ∃ parent rest d, ps = parent :: rest ∧
    checkProofTimeValid C ⟨rest, none⟩ parent (.ofNat e) d p = .ok true

/-- The sibling of the row-`i` ancestor of leaf `e`, as an MMR with parents `rest` finds it. -/
def siblingOf (q : MMR) (rest : List MMR) (e i : ℕ) : MMREntry :=
  q.getEntry ⟨rest, none⟩ i (.ofNat (sibling (e / 2 ^ i)))

/-- The proof carries hash and value of the siblings of `e` that `q` finds, up to the first one it
does not find. -/
def CarriesSiblings (q : MMR) (rest : List MMR) (e : ℕ) (p : MMRProof) : Prop :=
  ∀ i c, p.proofChain[i]? = some c → (∀ j ≤ i, (siblingOf q rest e j).isEmpty = false) →
    (siblingOf q rest e i).mmrData.map MMRData.clone = some c.mmrData.clone

/-- **The genuine proofs for leaf `e`:** those that carry the siblings found, at the block time of
the proof, by the MMR itself or one of its parents. -/
def Genuine (m : MMR) (ps : List MMR) (e : ℕ) (p : MMRProof) : Prop :=
  ∃ newer q rest, m :: ps = newer ++ q :: rest ∧ q.blockTime.isEqual p.blockTime = true ∧
    CarriesSiblings q rest e p

variable {C : Crypto}

/-- **A genuine proof supplies what an update needs.** Where the update does not find the sibling,
neither it nor the node itself has been stored since the block time of the proof. -/
theorem supplies_of_carries {s : Snapshot MMRData} {older newer : List (Snapshot MMRData)}
    {q : Snapshot MMRData} {rest : List (Snapshot MMRData)} {e : ℕ} {p : MMRProof}
    (hc : ExactChain C (s :: older)) (hg : Grounded (s :: older))
    (hsplit : s :: older = newer ++ q :: rest)
    (htime : q.mmr.blockTime.isEqual p.blockTime = true)
    (hp : CarriesSiblings q.mmr (rest.map Snapshot.mmr) e p) :
    Supplies MMRData.clone p e s older := by
  intro i c hce _ hci hmiss
  have hq : q ∈ s :: older := by simp [hsplit]
  have hle : p.blockTime.toRat ≤ q.mmr.blockTime.toRat :=
    ((MiniNumber.isEqual_iff _ _).mp htime).ge
  obtain ⟨hsib, hlab, -⟩ := hmiss q hq hle
  -- were the node new since, it would be stored, and its sibling with it
  have hnode : Complete q.size i (e / 2 ^ i) := by
    by_contra hno
    obtain ⟨q', hq', hle', hhas⟩ := has_of_fresh hc.2.1 hc.2.2 hce q hq hno
    obtain ⟨hsib', -, hno'⟩ := hmiss q' hq' (hle.trans hle')
    have htr := (Chain.sound hc q' hq').tracks
    by_cases hpk : IsPeak q'.size i (e / 2 ^ i)
    · have h1 := hpk.even
      have h2 := hpk.2
      unfold Complete at hsib'
      rw [sibling, if_pos h1] at hsib'
      omega
    · exact hno' (htr.pairs i _ hhas hpk)
  have hcq : ExactChain C (q :: rest) := Chain.suffix (hsplit ▸ hc)
  have hgq : Grounded (q :: rest) := Grounded.suffix (hsplit ▸ hg)
  have hfound : ∀ j ≤ i, Complete q.size j (sibling (e / 2 ^ j)) := by
    intro j hj
    rcases Nat.eq_or_lt_of_le hj with rfl | hlt
    · exact hsib
    · exact (path_complete hnode j hlt).2
  have hcarry := fun j hj => hgq.getEntry clone_idem hcq (hfound j hj)
  have heq := hp i c hci (fun j hj => (hcarry j hj).full)
  obtain ⟨d, hd, hl⟩ := (hcarry i le_rfl).data
  unfold siblingOf at heq
  rw [hd, Option.map_some, Option.some.injEq] at heq
  rw [← heq, hl, hlab]

/-! ## The invariant of a run -/

/-- What holds of the state of a run: with some labels, the chain of MMRs is sound and its oldest
MMR complete; the labels of the leaves are the leaves. -/
structure RunState (C : Crypto) (m : MMR) (ps : List MMR) (ds : List MMRData)
    (f : ℕ → ℕ → MMRData) (older : List (Snapshot MMRData)) : Prop where
  parents : older.map Snapshot.mmr = ps
  chain : ExactChain C (⟨m, ds.length, f⟩ :: older)
  grounded : Grounded (⟨m, ds.length, f⟩ :: older)
  isOpen : m.finalized = false
  leaves : ∀ k (h : k < ds.length), f 0 k = ds[k].clone

theorem RunState.start : RunState C new [] [] (fun _ _ => default) [] := by
  refine ⟨rfl, ⟨sound_new _, trivial, trivial⟩, ?_, rfl, ?_⟩
  · intro r k hk
    unfold Complete at hk
    simp at hk
  · intro k h
    exact absurd h (Nat.not_lt_zero k)

theorem RunState.child {m : MMR} {ps : List MMR} {ds : List MMRData} {f : ℕ → ℕ → MMRData}
    {older : List (Snapshot MMRData)} (h : RunState C m ps ds f older) {isMega : Bool} {m' p' : MMR}
    (hchild : childOf C isMega m = .ok (m', p')) :
    RunState C m' (p' :: ps) ds f (⟨p', ds.length, f⟩ :: older) := by
  obtain ⟨h1, h2, -, -, -, -, h7⟩ := childOf_sound clone_idem h.chain hchild
  have hhas : ∀ r k, p'.Has r k ↔ m.Has r k := by
    intro r k
    unfold Has
    rw [h7]
  refine ⟨by rw [List.map_cons, h.parents], h1, ?_, h2, h.leaves⟩
  show Grounded (⟨p', ds.length, f⟩ :: older)
  exact h.grounded.grow (fun r k => (hhas r k).mpr) (fun r k hk => Or.inl hk)

theorem RunState.add {m : MMR} {ps : List MMR} {ds : List MMRData} {f : ℕ → ℕ → MMRData}
    {older : List (Snapshot MMRData)} (h : RunState C m ps ds f older) {m' : MMR} {d : MMRData}
    {x : MMREntry} (hadd : addEntry C ⟨ps, none⟩ m d = .ok (m', x)) :
    ∃ g, RunState C m' ps (ds ++ [d]) g older := by
  obtain ⟨hs, ho, hc⟩ := h.chain
  have hw : Walks m ⟨ps, none⟩ older := h.parents ▸ walks_parents
  obtain ⟨-, g, h1, h2, h3, h4, h5, h6⟩ := addEntry_sound clone_idem joins_clone hs.tracks
    hs.joined h.isOpen hs.time hw hadd
  have hlen : (ds ++ [d]).length = ds.length + 1 := by simp
  have hopen := h1.finalized.trans h.isOpen
  refine ⟨g, h.parents, ?_, ?_, hopen, ?_⟩
  · rw [hlen]
    exact ⟨⟨h2, h3, h1.blockTime ▸ hs.time, fun hf => absurd (hf.symm.trans hopen) (by simp)⟩,
      ho.grow h1 h4 h5, hc⟩
  · rw [hlen]
    exact h.grounded.grow h1.has h4
  · intro k hk
    rw [hlen] at hk
    rcases Nat.lt_succ_iff_lt_or_eq.mp hk with hlt | rfl
    · rw [h5 0 k (complete_zero.mpr hlt), List.getElem_append_left hlt]
      exact h.leaves k hlt
    · rw [h6, List.getElem_append_right le_rfl]
      simp

theorem RunState.update {m : MMR} {ps : List MMR} {ds : List MMRData} {f : ℕ → ℕ → MMRData}
    {older : List (Snapshot MMRData)} (h : RunState C m ps ds f older) {m' : MMR} {e : ℕ}
    {p : MMRProof} {d : MMRData} (he : e < ds.length) (hp : Genuine m ps e p)
    (hup : updateEntry C ⟨ps, none⟩ m (.ofNat e) p d = .ok m') :
    ∃ g, RunState C m' ps (ds.set e d) g older := by
  obtain ⟨hs, ho, hc⟩ := h.chain
  have hw : Walks m ⟨ps, none⟩ older := h.parents ▸ walks_parents
  obtain ⟨newer, q, rest, hsplit, htime, hcarry⟩ := hp
  -- the MMR the proof was made by, as a snapshot of the chain
  have hmap : (⟨m, ds.length, f⟩ :: older : List (Snapshot MMRData)).map Snapshot.mmr =
      newer ++ q :: rest := by
    rw [List.map_cons, h.parents, hsplit]
  obtain ⟨newer', tail, hsplit', rfl, htail⟩ := List.map_eq_append_iff.mp hmap
  obtain ⟨q', rest', rfl, rfl, rfl⟩ := List.map_eq_cons_iff.mp htail
  obtain ⟨g, h1, h2, h3, h4, -, h6, h7⟩ := updateEntry_sound clone_idem joins_clone hs.tracks
    hs.joined h.isOpen ho hc hw he (supplies_of_carries h.chain h.grounded hsplit' htime hcarry) hup
  have hlen : (ds.set e d).length = ds.length := by simp
  have hopen := h1.finalized.trans h.isOpen
  refine ⟨g, h.parents, ?_, ?_, hopen, ?_⟩
  · rw [hlen]
    exact ⟨⟨h2, h3, h1.blockTime ▸ hs.time, fun hf => absurd (hf.symm.trans hopen) (by simp)⟩, h4,
      hc⟩
  · rw [hlen]
    exact h.grounded.grow h1.has (fun _ _ hk => Or.inl hk)
  · intro k hk
    rw [hlen] at hk
    rw [List.getElem_set]
    by_cases hke : e = k
    · rw [if_pos hke, ← hke, h7]
    · rw [if_neg hke, h6 0 k (by simpa using Ne.symm hke)]
      exact h.leaves k hk

/-- **Every state of a run with genuine proofs** is sound over its leaves. -/
theorem Run.state {m : MMR} {ps : List MMR} {ds : List MMRData} (h : Run C Genuine m ps ds) :
    ∃ f older, RunState C m ps ds f older := by
  induction h with
  | start => exact ⟨_, [], RunState.start⟩
  | child isMega _ hchild ih =>
      obtain ⟨f, older, hst⟩ := ih
      exact ⟨f, _, hst.child hchild⟩
  | add d _ hadd ih =>
      obtain ⟨f, older, hst⟩ := ih
      obtain ⟨g, hg⟩ := hst.add hadd
      exact ⟨g, older, hg⟩
  | update e p d _ he hp hup ih =>
      obtain ⟨f, older, hst⟩ := ih
      obtain ⟨g, hg⟩ := hst.update he hp hup
      exact ⟨g, older, hg⟩

/-- **The incremental MMR is the rebuilt one.** After any run with genuine proofs, adding the
resulting leaves to a fresh MMR succeeds and gives the same root, and the entry number is the number
of leaves. -/
theorem run_getRoot_eq_rebuild {m : MMR} {ps : List MMR} {ds : List MMRData}
    (h : Run C Genuine m ps ds) :
    ∃ fresh, addAll C .none new ds = .ok fresh ∧ m.getRoot C = fresh.getRoot C ∧
      m.entryNumber = .ofNat ds.length := by
  obtain ⟨f, older, hst⟩ := h.state
  obtain ⟨hs, -, -⟩ := hst.chain
  have hnew : ExactSound C ⟨new, 0, f⟩ := sound_new f
  have hw : Walks new .none ([] : List (Snapshot MMRData)) := by simp [Walks, Ancestry.none, new]
  have hzero : 0 + ds.length = ds.length := Nat.zero_add _
  obtain ⟨fresh, h1, h2, h3, -⟩ := addAll_ok ds new 0 hnew.tracks rfl hnew.time
    hw (hzero.symm ▸ hs.tracks.small) (hzero.symm ▸ hs.joined) (by
      intro i hi
      rw [Nat.zero_add]
      exact (hst.leaves i hi).symm)
  rw [hzero] at h3
  have hfresh : ExactSound C ⟨fresh, ds.length, f⟩ :=
    ⟨h3, hs.joined, h2.blockTime ▸ hnew.time, fun hf =>
      absurd (hf.symm.trans h2.finalized) (by simp [new])⟩
  exact ⟨fresh, h1, hs.getRoot_eq hfresh rfl (fun _ _ => rfl), hs.tracks.entryNumber⟩

/-! ## A proof with another representation of a value

The hash of a node commits to the hashes of its children and to their sum. Where the sum has more
decimal places than the sibling, the sibling's value can be written with more places too without
changing that hash; a later update through such a proof makes another root. -/

/-- Two leaves worth one each, the first written with a decimal place. -/
def sampleLeft : MMRData := ⟨⟨[1]⟩, ⟨10, 1⟩, false, by decide +kernel⟩

def sampleRight : MMRData := ⟨⟨[2]⟩, ⟨1, 0⟩, false, by decide +kernel⟩

/-- The second leaf with its value written as `1.0`. -/
def sampleRightRescaled : MMRData := ⟨⟨[2]⟩, ⟨10, 1⟩, false, by decide +kernel⟩

/-- What the first leaf is changed to. -/
def sampleSpent : MMRData := ⟨⟨[3]⟩, ⟨0, 0⟩, false, by decide +kernel⟩

/-- Two leaves, a child, and the first leaf changed by its own proof. -/
theorem run_getRoot_eq_rebuild_sample :
    ∃ m ps, Run .plain Genuine m ps [sampleSpent, sampleRight] ∧
      ∃ fresh, addAll .plain .none new [sampleSpent, sampleRight] = .ok fresh ∧
        m.getRoot .plain = fresh.getRoot .plain ∧ m.entryNumber = .ofNat 2 := by
  have hrun : (do
      let left ← addEntry .plain ⟨[], none⟩ new sampleLeft
      let right ← addEntry .plain ⟨[], none⟩ left.1 sampleRight
      let child ← childOf .plain false right.1
      let m₄ ← updateEntry .plain ⟨[child.2], none⟩ child.1 (.ofNat 0)
        ⟨.zero, [.make false sampleRight]⟩ sampleSpent
      return child.2.blockTime.isEqual .zero &&
        decide ((siblingOf child.2 [] 0 0).mmrData.map MMRData.clone = some sampleRight.clone) :
        Result Bool) = .ok true := by
    decide +kernel
  simp only [Result.bind_eq_ok, Result.pure_eq_ok, Bool.and_eq_true, decide_eq_true_eq] at hrun
  obtain ⟨⟨m₁, x₁⟩, h₁, ⟨m₂, x₂⟩, h₂, ⟨m₃, p⟩, h₃, m₄, h₄, htime, hsib⟩ := hrun
  have hgen : Genuine m₃ [p] 0 ⟨.zero, [.make false sampleRight]⟩ := by
    refine ⟨[m₃], p, [], rfl, htime, ?_⟩
    intro i c hc _
    obtain ⟨rfl, rfl⟩ : i = 0 ∧ c = .make false sampleRight := by
      cases i with
      | zero => exact ⟨rfl, by simpa using hc.symm⟩
      | succ i => simp at hc
    exact hsib
  have hstart : Run .plain Genuine m₂ [] [sampleLeft, sampleRight] :=
    .add sampleRight (.add sampleLeft .start h₁) h₂
  have hfinal := Run.update 0 _ sampleSpent (Run.child false hstart h₃) (by simp) hgen h₄
  exact ⟨m₄, [p], hfinal, run_getRoot_eq_rebuild hfinal⟩

/-- **An accepted proof is not enough.** With the sibling's value rescaled the parent still accepts
the proof, but the root after the update is not that of the leaves. -/
theorem run_accepted_getRoot_ne_rebuild :
    ¬ ∀ (C : Crypto) (m : MMR) (ps : List MMR) (ds : List MMRData),
      Run C (AcceptedByParent C) m ps ds →
      ∃ fresh, addAll C .none new ds = .ok fresh ∧ m.getRoot C = fresh.getRoot C ∧
        m.entryNumber = .ofNat ds.length := by
  intro hall
  have hrun : (do
      let left ← addEntry .plain ⟨[], none⟩ new sampleLeft
      let right ← addEntry .plain ⟨[], none⟩ left.1 sampleRight
      let child ← childOf .plain false right.1
      let grandchild ← childOf .plain false child.1
      let proof := ⟨.one, [.make false sampleRightRescaled]⟩
      let accepted ← checkProofTimeValid .plain ⟨[child.2], none⟩ grandchild.2 (.ofNat 0)
        sampleLeft proof
      let m₅ ← updateEntry .plain ⟨[grandchild.2, child.2], none⟩ grandchild.1 (.ofNat 0) proof
        sampleSpent
      let fresh ← addAll .plain .none new [sampleSpent, sampleRight]
      return accepted && decide (m₅.getRoot .plain ≠ fresh.getRoot .plain) : Result Bool) =
        .ok true := by
    decide +kernel
  simp only [Result.bind_eq_ok, Result.pure_eq_ok, Bool.and_eq_true, decide_eq_true_eq] at hrun
  obtain ⟨⟨m₁, x₁⟩, h₁, ⟨m₂, x₂⟩, h₂, ⟨m₃, p⟩, h₃, ⟨m₄, q⟩, h₄, accepted, h₅, m₅, h₆, fresh, h₇,
    rfl, hne⟩ := hrun
  have hstart : Run .plain (AcceptedByParent .plain) m₂ [] [sampleLeft, sampleRight] :=
    .add sampleRight (.add sampleLeft .start h₁) h₂
  have hfinal := Run.update 0 _ sampleSpent (Run.child false (Run.child false hstart h₃) h₄)
    (by simp) ⟨q, [p], sampleLeft, rfl, h₅⟩ h₆
  obtain ⟨fresh', h₈, heq, -⟩ := hall _ _ _ _ hfinal
  rw [show [sampleLeft, sampleRight].set 0 sampleSpent = [sampleSpent, sampleRight] from rfl, h₇,
    Except.ok.injEq] at h₈
  exact hne (h₈ ▸ heq)

end MMR

end Minima
