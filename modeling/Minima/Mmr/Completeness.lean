import Minima.Mmr.Incremental
import Minima.Mmr.Proof

/-! # Proofs of a full MMR are complete

In an MMR to which all leaves were added, the proof of a leaf leads to its peak and from there,
through the rounds of bagging, to the root. The second half follows the peak by its hash alone.

* **`HashFixesValue`** — in every round of bagging, peaks with the same hash have the same value.
* **`Filled`** — an MMR filled by `addEntry` and changed by `updateEntry` with accepted proofs.
* **`peakToRootLoop_eq`** — the loop of `getPeakToRoot` follows the loop of `getRootInternal`. -/

namespace Minima

open MountainRange

namespace MMR

variable {C : Crypto}

/-- The data of a list of entries. -/
def HoldData (xs : List MMREntry) (ds : List MMRData) : Prop :=
  List.Forall₂ (fun x d => x.getMMRData = .ok d) xs ds

/-- Peaks with the same hash have the same value. -/
def ValuesByHash (xs : List MMREntry) : Prop :=
  ∀ x ∈ xs, ∀ y ∈ xs, ∀ d ∈ x.mmrData, ∀ d' ∈ y.mmrData, d.data = d'.data → d.value = d'.value

instance (xs : List MMREntry) : Decidable (ValuesByHash xs) :=
  inferInstanceAs (Decidable (∀ x ∈ xs, ∀ y ∈ xs, ∀ d ∈ x.mmrData, ∀ d' ∈ y.mmrData,
    d.data = d'.data → d.value = d'.value))

/-- In every round in which the peaks are bagged, peaks with the same hash have the same value. -/
def HashFixesValue (C : Crypto) : ℕ → List MMREntry → Prop
  | 0, _ => True
  | fuel + 1, peaks => ValuesByHash peaks ∧
    (1 < peaks.length → ∀ m ∈ (bagPeaks C new peaks).toOption, HashFixesValue C fuel m.getPeaks)

instance decidableHashFixesValue (C : Crypto) : ∀ (fuel : ℕ) (peaks : List MMREntry),
    Decidable (HashFixesValue C fuel peaks)
  | 0, _ => inferInstanceAs (Decidable True)
  | fuel + 1, peaks =>
    have : ∀ m : MMR, Decidable (HashFixesValue C fuel m.getPeaks) :=
      fun m => decidableHashFixesValue C fuel m.getPeaks
    inferInstanceAs (Decidable (ValuesByHash peaks ∧ (1 < peaks.length →
      ∀ m ∈ (bagPeaks C new peaks).toOption, HashFixesValue C fuel m.getPeaks)))

/-! ## One round of bagging -/

/-- Adding a clone is adding the data. -/
theorem addEntry_clone (anc : Ancestry) (m : MMR) (d : MMRData) :
    addEntry C anc m d.clone = addEntry C anc m d := rfl

theorem bagPeaks_eq_addAll {xs : List MMREntry} {ds : List MMRData} (h : HoldData xs ds) :
    ∀ m, bagPeaks C m xs = addAll C .none m ds := by
  induction h with
  | nil => exact fun m => rfl
  | cons hx _ ih =>
      intro m
      simp only [bagPeaks, addAll, hx, Result.ok_bind, MMRData.make_eq_clone, addEntry_clone, ih]

/-- `keepPeak` builds the MMR that `bagPeaks` builds. -/
theorem keepPeak_fst (hash : MiniData) {xs : List MMREntry} {ds : List MMRData}
    (h : HoldData xs ds) : ∀ m keeper,
      (keepPeak C hash m keeper xs).map Prod.fst = addAll C .none m ds := by
  induction h with
  | nil => exact fun m keeper => rfl
  | @cons x d xs ds hx _ ih =>
      intro m keeper
      simp only [keepPeak, addAll, hx, Result.ok_bind]
      cases addEntry C .none m d with
      | error err => rfl
      | ok mx => exact ih mx.1 _

/-- **The keeper:** a leaf of the new MMR over a peak with the hash looked for. -/
theorem keepPeak_keeper {hash : MiniData} {xs : List MMREntry} {ds : List MMRData}
    (h : HoldData xs ds) : ∀ (m : MMR) (n : ℕ) (f : ℕ → ℕ → MMRData) (keeper : Option MMREntry)
      (m' : MMR) (keeper' : Option MMREntry), m.Tracks MMRData.clone n f →
      Labelling (Joins C) n f → m.finalized = false → m.blockTime.IsNonneg → m.useMegaMMR = false →
      keepPeak C hash m keeper xs = .ok (m', keeper') →
      (keeper' = keeper ∧ ∀ d ∈ ds, d.data ≠ hash) ∨
        ∃ j d, ds[j]? = some d ∧ d.data = hash ∧
          keeper' = some (.make (0 : ℕ) (.ofNat (n + j)) d) := by
  induction h with
  | nil =>
      intro m n f keeper m' keeper' _ _ _ _ _ h
      rw [keepPeak, Except.ok.injEq, Prod.mk.injEq] at h
      exact Or.inl ⟨h.2.symm, by simp⟩
  | @cons x d xs ds hx _ ih =>
      intro m n f keeper m' keeper' hm hf hopen htime hmega h
      simp only [keepPeak, hx, Result.ok_bind, Result.bind_eq_ok] at h
      obtain ⟨⟨m₁, current⟩, hadd, hrest⟩ := h
      have hw : Walks m .none ([] : List (Snapshot MMRData)) := by
        simp [Walks, Ancestry.none, hmega]
      obtain ⟨hcur, g, h1, h2, h3, -⟩ :=
        addEntry_sound clone_idem joins_clone hm hf hopen htime hw hadd
      simp only at hrest
      rcases ih m₁ (n + 1) g _ m' keeper' h2 h3 (h1.finalized.trans hopen) (h1.blockTime ▸ htime)
        (h1.useMegaMMR.trans hmega) hrest with ⟨hkeep, hno⟩ | ⟨j, d', hj, hd', hkeep⟩
      · by_cases hhash : d.data = hash
        · right
          refine ⟨0, d, rfl, hhash, ?_⟩
          rw [hkeep, if_pos ((MiniData.isEqual_iff _ _).mpr hhash), hcur]
          rfl
        · left
          rw [if_neg (fun hc => hhash ((MiniData.isEqual_iff _ _).mp hc))] at hkeep
          refine ⟨hkeep, ?_⟩
          intro d' hd'
          rcases List.mem_cons.mp hd' with rfl | hd'
          · exact hhash
          · exact hno d' hd'
      · right
        refine ⟨j + 1, d', hj, hd', ?_⟩
        rw [hkeep]
        congr 3
        omega

/-- The peaks of a tracked tree hold data. -/
theorem PeaksCarry.holdData {A : Type} {label : MMRData → A} {n : ℕ} {f : ℕ → ℕ → A}
    {xs : List MMREntry} (h : PeaksCarry label n f xs) :
    ∃ ds, HoldData xs ds ∧ ds.length = n.bitIndices.length := by
  rw [← List.length_reverse]
  unfold PeaksCarry at h
  generalize n.bitIndices.reverse = rows at h ⊢
  induction h with
  | nil => exact ⟨[], List.Forall₂.nil, rfl⟩
  | cons hx _ ih =>
      obtain ⟨d, hd, -⟩ := hx.getMMRData
      obtain ⟨ds, h1, h2⟩ := ih
      exact ⟨d :: ds, List.Forall₂.cons hd h1, by rw [List.length_cons, List.length_cons, h2]⟩

theorem HoldData.mem {xs : List MMREntry} {ds : List MMRData} (h : HoldData xs ds) {x : MMREntry}
    (hx : x ∈ xs) : ∃ d ∈ ds, x.getMMRData = .ok d := forall₂_mem_left h hx

theorem HoldData.mem_right {xs : List MMREntry} {ds : List MMRData} (h : HoldData xs ds)
    {d : MMRData} (hd : d ∈ ds) : ∃ x ∈ xs, x.getMMRData = .ok d := forall₂_mem_right h hd

/-! ## From a peak to the root -/

/-- The data `getRootInternal` returns for the peaks that are left. -/
def lastData (xs : List MMREntry) : Result MMRData :=
  match xs with
  | [] => undefinedBehaviour "peaks[0] of no peaks"
  | x :: _ => do
      let d ← x.getMMRData
      MMRData.make d.data d.value

theorem rootOfPeaks_eq {xs : List MMREntry} (h : xs ≠ []) :
    rootOfPeaks C xs = (do
      let ys ← rootLoop C xs.length xs
      let r ← lastData ys
      return some r) := by
  unfold rootOfPeaks
  rw [if_neg (by simpa using h)]
  congr 1
  funext ys
  cases ys with
  | nil => rfl
  | cons y ys =>
      rw [lastData, bind_assoc]

/-- An MMR filled from scratch is a chain of its own, and complete. -/
theorem addAll_new {ds : List MMRData} {m : MMR} (h : addAll C .none new ds = .ok m) :
    ∃ g, ExactChain C [⟨m, ds.length, g⟩] ∧ Grounded [(⟨m, ds.length, g⟩ : Snapshot MMRData)] ∧
      m.finalized = false ∧ m.useMegaMMR = false ∧
      ∀ i (hi : i < ds.length), g 0 i = ds[i].clone := by
  have hnew : ExactSound C ⟨new, 0, fun _ _ => default⟩ := sound_new _
  have hw : Walks new .none ([] : List (Snapshot MMRData)) := by simp [Walks, Ancestry.none, new]
  obtain ⟨g, h1, h2, h3, h4, -, h6⟩ := addAll_sound clone_idem joins_clone ds new 0 _ m
    hnew.tracks hnew.joined rfl hnew.time hw h
  rw [Nat.zero_add] at h2 h3 h4
  refine ⟨g, ⟨⟨h2, h3, h1.blockTime ▸ hnew.time, fun hf => ?_⟩, trivial, trivial⟩, ?_,
    h1.finalized, h1.useMegaMMR, ?_⟩
  · exact absurd (hf.symm.trans h1.finalized) (by simp [new])
  · intro r k hk
    rcases h4 r k hk with hc | hh
    · unfold Complete at hc
      simp at hc
    · exact hh
  · intro i hi
    have := h6 i hi
    rwa [Nat.zero_add] at this

/-- Peaks with the same hash then hold the same data. -/
theorem HoldData.clone_eq {xs : List MMREntry} {ds : List MMRData} (h : HoldData xs ds)
    (hv : ValuesByHash xs) {d d' : MMRData} (hd : d ∈ ds) (hd' : d' ∈ ds)
    (hdata : d.data = d'.data) : d.clone = d'.clone := by
  obtain ⟨x, hx, hxd⟩ := h.mem_right hd
  obtain ⟨y, hy, hyd⟩ := h.mem_right hd'
  exact MMRData.ext hdata (hv x hx y hy d (MMREntry.getMMRData_eq_ok.mp hxd) d'
    (MMREntry.getMMRData_eq_ok.mp hyd) hdata) rfl

/-- **One round of `getPeakToRoot`.** The round keeps a leaf with the data of the current peak; the
proof of this leaf leads to a peak of the next round. -/
theorem keepPeak_round {xs : List MMREntry} {ds : List MMRData} {cur : MMRData}
    {keeper : Option MMREntry} {m : MMR} (hds : HoldData xs ds) (hv : ValuesByHash xs)
    (hcur : ∃ d ∈ ds, d.clone = cur) (hadd : addAll C .none new ds = .ok m) :
    ∃ k cs next ds', keepPeak C cur.data new keeper xs = .ok (m, some k) ∧
      m.getProofToPeak .none k.entryNumber = .ok ⟨m.blockTime, cs⟩ ∧
      MMRProof.calculateChain C cur cs = .ok next ∧ HoldData m.getPeaks ds' ∧
      ds'.length = ds.length.bitIndices.length ∧ ∃ d ∈ ds', d.clone = next := by
  obtain ⟨d, hd, hcur⟩ := hcur
  obtain ⟨g, hchain, hground, -, -, hleaf⟩ := addAll_new hadd
  have hfst := keepPeak_fst (C := C) cur.data hds new keeper
  rw [hadd] at hfst
  cases hkeep : keepPeak C cur.data new keeper xs with
  | error err =>
      rw [hkeep] at hfst
      cases hfst
  | ok mk =>
      obtain ⟨m', keeper'⟩ := mk
      rw [hkeep] at hfst
      obtain rfl : m' = m := Except.ok.inj hfst
      -- the keeper is a leaf with the data of the peak
      have hnew : ExactSound C ⟨new, 0, g⟩ := sound_new g
      rcases keepPeak_keeper hds new 0 g keeper m' keeper' hnew.tracks hnew.joined rfl
        hnew.time rfl hkeep with ⟨-, hno⟩ | ⟨j, d', hj, hd', rfl⟩
      · exact absurd (by rw [← hcur]; rfl) (hno d hd)
      obtain ⟨hjlt, rfl⟩ := List.getElem?_eq_some_iff.mp hj
      have hsame : (ds[j]).clone = cur := by
        rw [← hcur]
        exact hds.clone_eq hv (List.getElem_mem hjlt) hd (by rw [hd', ← hcur]; rfl)
      -- its proof leads to its peak
      obtain ⟨r, hpk⟩ := exists_peak hjlt
      obtain ⟨cs, hproof, hlen, hsib⟩ := hground.getProofToPeak clone_idem hchain hjlt hpk
      have hcalc := calculateChain_siblings hchain.1.joined cs 0 hsib (by
        rw [Nat.zero_add, hlen]
        exact hpk.complete)
      have hgj : g 0 (j / 2 ^ 0) = cur := by
        rw [pow_zero, Nat.div_one, hleaf j hjlt, hsame]
      simp only [hgj, Nat.zero_add, hlen] at hcalc
      have hpeaks := hchain.1.getPeaks clone_idem
      obtain ⟨ds', hds', hlen'⟩ := hpeaks.holdData
      obtain ⟨x, hx, hcx⟩ := hpeaks.exists_mem hpk
      obtain ⟨d₁, hd₁, hxd₁⟩ := hds'.mem hx
      obtain ⟨d₂, hd₂, hl₂⟩ := hcx.getMMRData
      rw [hd₂, Except.ok.injEq] at hxd₁
      rw [Nat.zero_add]
      exact ⟨_, cs, _, ds', rfl, hproof, hcalc, hds', hlen', d₁, hd₁, hxd₁ ▸ hl₂⟩

/-- **The loop of `getPeakToRoot` follows the loop of `getRootInternal`.** As long as the proof so
far leads to one of the peaks, it ends with a proof that leads to the root, or both loops throw. -/
theorem peakToRootLoop_eq {peak : MMRData} (fuel : ℕ) :
    ∀ (total : MMRProof) (cur : MMRData) (keeper : Option MMREntry) (xs : List MMREntry)
      (ds : List MMRData), HoldData xs ds → ds.length ≤ fuel → HashFixesValue C fuel xs →
      total.calculateProof C peak = .ok cur → (∃ d ∈ ds, d.clone = cur) →
      (do
        let t ← peakToRootLoop C peak fuel total cur keeper xs
        t.calculateProof C peak) = (do
        let ys ← rootLoop C fuel xs
        lastData ys) := by
  induction fuel with
  | zero =>
      rintro total cur keeper xs ds _ hlen _ _ ⟨d, hd, -⟩
      rw [List.eq_nil_of_length_eq_zero (Nat.le_zero.mp hlen)] at hd
      exact absurd hd List.not_mem_nil
  | succ fuel ih =>
      intro total cur keeper xs ds hds hlen hfix htotal hcur
      have hxlen : xs.length = ds.length := List.Forall₂.length_eq hds
      obtain ⟨hv, hnext⟩ := hfix
      rw [peakToRootLoop, rootLoop]
      by_cases hmany : 1 < xs.length
      · rw [if_pos hmany, if_pos hmany, bagPeaks_eq_addAll hds]
        cases hadd : addAll C .none new ds with
        | error err =>
            -- both rounds throw
            have hfst := keepPeak_fst (C := C) cur.data hds new keeper
            rw [hadd] at hfst
            cases hkeep : keepPeak C cur.data new keeper xs with
            | error err' =>
                rw [hkeep] at hfst
                cases hfst
                rfl
            | ok mk =>
                rw [hkeep] at hfst
                cases hfst
        | ok m =>
            obtain ⟨k, cs, next, ds', hkeep, hproof, hcalc, hds', hlen', hmem⟩ :=
              keepPeak_round hds hv hcur hadd
            have htotal' : ({ total with proofChain := total.proofChain ++ cs } :
                MMRProof).calculateProof C peak = .ok next := by
              rw [MMRProof.calculateProof, calculateChain_append]
              rw [MMRProof.calculateProof] at htotal
              rw [htotal]
              exact hcalc
            rw [hkeep]
            simp only [Result.ok_bind, hproof, htotal']
            have hlt := length_bitIndices_lt (n := ds.length) (by omega)
            exact ih _ _ _ _ ds' hds' (by omega)
              (hnext hmany m (by rw [bagPeaks_eq_addAll hds, hadd]; rfl)) htotal' hmem
      · rw [if_neg hmany, if_neg hmany]
        -- a single peak is the root
        obtain ⟨d, hd, rfl⟩ := hcur
        cases hds with
        | nil => exact absurd hd List.not_mem_nil
        | cons hx hrest =>
            cases hrest with
            | nil =>
                rw [List.mem_singleton] at hd
                subst hd
                simp only [Result.ok_bind, lastData, hx, MMRData.make_eq_clone, htotal]
            | cons _ _ => simp at hmany

/-! ## From a leaf to the root -/

/-- An MMR over the leaves `ds`: filled by `addEntry` from scratch, then changed by `updateEntry` with
proofs that its `checkProofTimeValid` accepts. -/
inductive Filled (C : Crypto) : MMR → List MMRData → Prop
  | built {ds m} : addAll C .none new ds = .ok m → Filled C m ds
  | update {m ds m'} (e : ℕ) (p : MMRProof) (d d' : MMRData) : Filled C m ds → e < ds.length →
      checkProofTimeValid C .none m (.ofNat e) d p = .ok true →
      updateEntry C .none m (.ofNat e) p d' = .ok m' → Filled C m' (ds.set e d')

/-- An accepted proof has the block time of an MMR that was looked at. -/
theorem checkProofTimeValid_time {anc : Ancestry} {m : MMR} {e : MMREntryNumber} {d : MMRData}
    {p : MMRProof} (h : checkProofTimeValid C anc m e d p = .ok true) :
    ∃ q, getParentAtTime p.blockTime (m :: anc.parents) = some q := by
  unfold checkProofTimeValid at h
  cases hq : getParentAtTime p.blockTime (m :: anc.parents) with
  | none =>
      rw [hq] at h
      exact absurd (Except.ok.inj h) (by simp)
  | some q => exact ⟨q, rfl⟩

/-- What holds of a filled MMR: it tracks the tree over its leaves and stores all of it. -/
structure FilledState (C : Crypto) (m : MMR) (ds : List MMRData) (g : ℕ → ℕ → MMRData) : Prop where
  chain : ExactChain C [⟨m, ds.length, g⟩]
  grounded : Grounded [(⟨m, ds.length, g⟩ : Snapshot MMRData)]
  isOpen : m.finalized = false
  noMegaMMR : m.useMegaMMR = false
  leaves : ∀ i (hi : i < ds.length), g 0 i = ds[i].clone

theorem FilledState.update {m m' : MMR} {ds : List MMRData} {g : ℕ → ℕ → MMRData}
    (h : FilledState C m ds g) {e : ℕ} {p : MMRProof} {d d' : MMRData} (he : e < ds.length)
    (hvalid : checkProofTimeValid C .none m (.ofNat e) d p = .ok true)
    (hup : updateEntry C .none m (.ofNat e) p d' = .ok m') :
    ∃ g', FilledState C m' (ds.set e d') g' := by
  obtain ⟨hs, ho, hc⟩ := h.chain
  have hw : Walks m .none ([] : List (Snapshot MMRData)) := by
    simp [Walks, Ancestry.none, h.noMegaMMR]
  obtain ⟨q, hq⟩ := checkProofTimeValid_time hvalid
  have htime : p.blockTime.toRat ≤ m.blockTime.toRat := by
    rw [Ancestry.none, getParentAtTime] at hq
    by_cases heq : m.blockTime.isEqual p.blockTime = true
    · exact ((MiniNumber.isEqual_iff _ _).mp heq).ge
    · simp [heq, getParentAtTime] at hq
  -- every sibling is stored, so nothing is taken from the proof
  have hsupplies : Supplies MMRData.clone p e ⟨m, ds.length, g⟩ [] := by
    intro i c hce hnp _ hmiss
    obtain ⟨hcomplete, -, hno⟩ := hmiss _ List.mem_cons_self htime
    exact absurd (h.grounded i _ hcomplete) hno
  obtain ⟨g', h1, h2, h3, h4, -, h6, h7⟩ := updateEntry_sound clone_idem joins_clone hs.tracks
    hs.joined h.isOpen ho hc hw he hsupplies hup
  have hlen : (ds.set e d').length = ds.length := by simp
  have hopen := h1.finalized.trans h.isOpen
  refine ⟨g', ?_, ?_, hopen, h1.useMegaMMR.trans h.noMegaMMR, ?_⟩
  · rw [hlen]
    exact ⟨⟨h2, h3, h1.blockTime ▸ hs.time, fun hf => absurd (hf.symm.trans hopen) (by simp)⟩, h4,
      hc⟩
  · rw [hlen]
    exact h.grounded.grow h1.has (fun _ _ hk => Or.inl hk)
  · intro k hk
    rw [hlen] at hk
    rw [List.getElem_set]
    by_cases hke : e = k
    · rw [if_pos hke, ← hke, h7]
    · rw [if_neg hke, h6 0 k (by simpa using Ne.symm hke)]
      exact h.leaves k hk

theorem Filled.state {m : MMR} {ds : List MMRData} (h : Filled C m ds) :
    ∃ g, FilledState C m ds g := by
  induction h with
  | built hadd =>
      obtain ⟨g, h1, h2, h3, h4, h5⟩ := addAll_new hadd
      exact ⟨g, h1, h2, h3, h4, h5⟩
  | update e p d d' _ he hvalid hup ih =>
      obtain ⟨g, hst⟩ := ih
      exact hst.update he hvalid hup

/-- The leaf, its path to the peak and the peak, in a filled MMR. -/
theorem FilledState.path {m : MMR} {ds : List MMRData} {g : ℕ → ℕ → MMRData}
    (h : FilledState C m ds g) {i : ℕ} (hi : i < ds.length) :
    ∃ d cs peak ps, (m.getEntry .none 0 (.ofNat i)).getMMRData = .ok d ∧ d.clone = ds[i].clone ∧
      m.getProofToPeak .none (.ofNat i) = .ok ⟨m.blockTime, cs⟩ ∧
      MMRProof.calculateChain C ds[i].clone cs = .ok peak ∧
      HoldData m.getPeaks ps ∧ ∃ d ∈ ps, d.clone = peak := by
  obtain ⟨r, hpk⟩ := exists_peak hi
  obtain ⟨cs, hproof, hlen, hsib⟩ := h.grounded.getProofToPeak clone_idem h.chain hi hpk
  obtain ⟨d, hd, hl⟩ := (h.grounded.getEntry clone_idem h.chain (complete_zero.mpr hi)).getMMRData
  have hcalc := calculateChain_siblings h.chain.1.joined cs 0 hsib (by
    rw [Nat.zero_add, hlen]
    exact hpk.complete)
  have hleaf : g 0 (i / 2 ^ 0) = ds[i].clone := by
    rw [pow_zero, Nat.div_one, h.leaves i hi]
  simp only [hleaf, Nat.zero_add, hlen] at hcalc
  have hpeaks := h.chain.1.getPeaks clone_idem
  obtain ⟨ps, hps, -⟩ := hpeaks.holdData
  obtain ⟨x, hx, hcx⟩ := hpeaks.exists_mem hpk
  obtain ⟨d₁, hd₁, hxd₁⟩ := hps.mem hx
  obtain ⟨d₂, hd₂, hl₂⟩ := hcx.getMMRData
  rw [hd₂, Except.ok.injEq] at hxd₁
  exact ⟨d, cs, _, ps, hd, hl.trans (h.leaves i hi), hproof, hcalc, hps, d₁, hd₁, hxd₁ ▸ hl₂⟩

/-- The proof of a leaf, hashed from the leaf, gives the root, or both throw. -/
theorem getProof_leads {m : MMR} {ds : List MMRData} (h : Filled C m ds)
    (hfix : HashFixesValue C m.getPeaks.length m.getPeaks) {i : ℕ} (hi : i < ds.length) :
    (do
      let p ← m.getProof C .none (.ofNat i)
      let r ← p.calculateProof C ds[i]
      return some r) = m.getRoot C := by
  obtain ⟨g, hst⟩ := h.state
  obtain ⟨d, cs, peak, ps, hd, hdi, hproof, hcalc, hps, hmem⟩ := hst.path hi
  have hpeak : peak.clone = peak := by
    obtain ⟨d', -, rfl⟩ := hmem
    rfl
  have hnil : m.getPeaks ≠ [] := by
    obtain ⟨d', hd', -⟩ := hmem
    obtain ⟨x, hx, -⟩ := hps.mem_right hd'
    exact List.ne_nil_of_mem hx
  rw [MMR.getRoot, if_neg (by simp [hst.isOpen]), getRootInternal, rootOfPeaks_eq hnil]
  have hloop := peakToRootLoop_eq m.getPeaks.length ⟨m.blockTime, []⟩ peak Option.none m.getPeaks
    ps hps (List.Forall₂.length_eq hps).ge hfix
    (by rw [MMRProof.calculateProof, hpeak]; rfl) hmem
  -- the leaf leads to the peak, and the rest of the chain from there
  have htail : ∀ rp : MMRProof, MMRProof.calculateProof C ⟨m.blockTime, cs ++ rp.proofChain⟩ ds[i] =
      rp.calculateProof C peak := by
    intro rp
    rw [MMRProof.calculateProof, calculateChain_append, hcalc, MMRProof.calculateProof, hpeak]
    rfl
  have hleaf : MMRProof.calculateProof C ⟨m.blockTime, cs⟩ d = .ok peak := by
    rw [MMRProof.calculateProof, hdi]
    exact hcalc
  have hgp : m.getProof C .none (.ofNat i) = (do
      let rp ← peakToRootLoop C peak m.getPeaks.length ⟨m.blockTime, []⟩ peak Option.none
        m.getPeaks
      return ⟨m.blockTime, cs ++ rp.proofChain⟩) := by
    unfold getProof getPeakToRoot
    simp only [hd, hproof, hleaf, Result.ok_bind, MMRData.make_eq_clone, hpeak]
  rw [hgp, bind_assoc]
  simp only [pure_bind, htail]
  rw [← bind_assoc, hloop, bind_assoc]

/-- **Proofs of a full MMR are complete.** In an MMR filled with leaves and changed with accepted
proofs, the proof of every leaf, hashed from the leaf, gives the root, and is accepted. -/
theorem getProof_complete {m : MMR} {ds : List MMRData} (h : Filled C m ds)
    (hfix : HashFixesValue C m.getPeaks.length m.getPeaks) {i : ℕ} (hi : i < ds.length) :
    (do
      let p ← m.getProof C .none (.ofNat i)
      let r ← p.calculateProof C ds[i]
      return some r) = m.getRoot C ∧
    ∀ root, m.getRoot C = .ok root →
      ∃ p, m.getProof C .none (.ofNat i) = .ok p ∧ m.checkProof C ds[i] p = .ok true := by
  have heq := getProof_leads h hfix hi
  refine ⟨heq, ?_⟩
  intro root hroot
  rw [hroot, Result.bind_eq_ok] at heq
  obtain ⟨p, hp, heq⟩ := heq
  rw [Result.bind_eq_ok] at heq
  obtain ⟨r, hr, heq⟩ := heq
  rw [Result.pure_eq_ok] at heq
  refine ⟨p, hp, ?_⟩
  unfold checkProof
  rw [hr, hroot, ← heq]
  simp

/-- Three leaves: two peaks, which are bagged once. -/
theorem getProof_complete_sample :
    ∃ m, Filled .plain m [sampleLeft, sampleRight, sampleSpent] ∧
      ((do
        let p ← m.getProof .plain .none (.ofNat 1)
        let r ← p.calculateProof .plain sampleRight
        return some r) = m.getRoot .plain ∧
      ∀ root, m.getRoot .plain = .ok root →
        ∃ p, m.getProof .plain .none (.ofNat 1) = .ok p ∧
          m.checkProof .plain sampleRight p = .ok true) := by
  have hrun : (do
      let m ← addAll .plain .none new [sampleLeft, sampleRight, sampleSpent]
      return decide (HashFixesValue .plain m.getPeaks.length m.getPeaks) : Result Bool) =
        .ok true := by
    decide +kernel
  rw [Result.bind_eq_ok] at hrun
  obtain ⟨m, hadd, hfix⟩ := hrun
  have hfilled : Filled .plain m [sampleLeft, sampleRight, sampleSpent] := .built hadd
  rw [Result.pure_eq_ok, decide_eq_true_eq] at hfix
  exact ⟨m, hfilled, getProof_complete hfilled hfix (i := 1) (by decide)⟩

/-- A leaf with the hash of the node over the first two leaves, and another value. -/
def samplePretender : MMRData :=
  ⟨Crypto.plain.hashAllObjects [.ok MiniNumber.one.writeDataStream,
    .ok sampleLeft.data.writeDataStream, .ok sampleRight.data.writeDataStream,
    .ok (MiniNumber.mk 20 1).writeDataStream], ⟨5, 0⟩, false, by decide +kernel⟩

/-- **The keeper is found by its hash alone:** with another peak of the same hash, the proof of the
first leaf does not lead to the root. -/
theorem getProof_not_complete :
    ¬ ∀ (C : Crypto) (m : MMR) (ds : List MMRData), Filled C m ds → ∀ i (hi : i < ds.length),
      (do
        let p ← m.getProof C .none (.ofNat i)
        let r ← p.calculateProof C ds[i]
        return some r) = m.getRoot C ∧
      ∀ root, m.getRoot C = .ok root →
        ∃ p, m.getProof C .none (.ofNat i) = .ok p ∧ m.checkProof C ds[i] p = .ok true := by
  intro hall
  have hrun : (do
      let m ← addAll .plain .none new [sampleLeft, sampleRight, samplePretender]
      return decide ((do
        let p ← m.getProof .plain .none (.ofNat 0)
        let r ← p.calculateProof .plain sampleLeft
        return some r) = m.getRoot .plain) : Result Bool) = .ok false := by
    decide +kernel
  rw [Result.bind_eq_ok] at hrun
  obtain ⟨m, hadd, hne⟩ := hrun
  rw [Result.pure_eq_ok, decide_eq_false_iff_not] at hne
  exact hne (hall .plain m _ (.built hadd) 0 (by decide)).1

end MMR

end Minima
