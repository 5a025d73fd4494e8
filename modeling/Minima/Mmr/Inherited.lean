import Minima.Mmr.Completeness

/-! # MMRs over leaves of one kind

A property of node data that two children pass on to their parent, and that fixes the value as zero,
holds of everything in an MMR over leaves that have it. No sum in such an MMR is out of range, so it is
filled, has a root and proves every leaf without an exception.

* **`Inherited`** — the property.
* **`exists_filled`** — the MMR over leaves with the property exists.
* **`exists_root_and_proofs`** — so do its root and the proofs of all leaves, with the property. -/

namespace Minima

open MountainRange

namespace MMR

/-- **A property that children pass on to their parent**, of data without value. -/
structure Inherited (C : Crypto) (P : MMRData → Prop) : Prop where
  join : ∀ l r, P l → P r → ∃ p, MMRData.createMMRDataParentNode C l r = .ok p ∧ P p
  value : ∀ d, P d → d.value = .zero

/-- The nodes over the given leaves. -/
def joinTree (C : Crypto) (leaf : ℕ → MMRData) : ℕ → ℕ → MMRData
  | 0, k => (leaf k).clone
  | r + 1, k =>
    match MMRData.createMMRDataParentNode C (joinTree C leaf r (2 * k)) (joinTree C leaf r (2 * k + 1)) with
    | .ok p => p
    | .error _ => default

section

variable {C : Crypto} {P : MMRData → Prop}

namespace Inherited

theorem joinTree (hP : Inherited C P) {leaf : ℕ → MMRData} (hleaf : ∀ k, P (leaf k).clone) (r k : ℕ) :
    P (joinTree C leaf r k) := by
  induction r generalizing k with
  | zero => exact hleaf k
  | succ r ih =>
      obtain ⟨p, hp, hPp⟩ := hP.join _ _ (ih (2 * k)) (ih (2 * k + 1))
      rw [MMR.joinTree, hp]
      exact hPp

theorem labelling (hP : Inherited C P) {leaf : ℕ → MMRData} (hleaf : ∀ k, P (leaf k).clone) (n : ℕ) :
    Labelling (Joins C) n (MMR.joinTree C leaf) := by
  intro r k _
  obtain ⟨p, hp, -⟩ := hP.join _ _ (hP.joinTree hleaf r (2 * k)) (hP.joinTree hleaf r (2 * k + 1))
  rw [Joins, hp, MMR.joinTree, hp]

/-- **The MMR over leaves with the property.** -/
theorem exists_filled (hP : Inherited C P) {ds : List MMRData} (hds : ∀ d ∈ ds, P d.clone)
    (hlen : ds.length < 2 ^ 256) :
    ∃ m g, addAll C .none new ds = .ok m ∧ FilledState C m ds g ∧
      ∀ r k, Complete ds.length r k → P (g r k) := by
  cases ds with
  | nil =>
      have hnew : addAll C .none new [] = .ok new := rfl
      obtain ⟨g, h1, h2, h3, h4, h5⟩ := addAll_new hnew
      refine ⟨new, g, hnew, ⟨h1, h2, h3, h4, h5⟩, fun r k hk => ?_⟩
      unfold Complete at hk
      simp at hk
  | cons d ds =>
      let leaf := fun k => (d :: ds).getD k d
      have hleaf : ∀ k, P (leaf k).clone := by
        intro k
        apply hds
        show (d :: ds).getD k d ∈ d :: ds
        rw [List.getD_eq_getElem?_getD]
        cases hk : (d :: ds)[k]? with
        | none => exact List.mem_cons_self
        | some x => exact List.mem_of_getElem? hk
      have hnew : ExactSound C ⟨new, 0, MMR.joinTree C leaf⟩ := sound_new _
      have hw : Walks new .none ([] : List (Snapshot MMRData)) := by simp [Walks, Ancestry.none, new]
      obtain ⟨m, hadd, -⟩ := addAll_ok (d :: ds) new 0 hnew.tracks rfl hnew.time hw (by omega)
        (hP.labelling hleaf _) (fun i hi => by
          rw [Nat.zero_add]
          show (d :: ds)[i].clone = ((d :: ds).getD i d).clone
          rw [List.getD_eq_getElem?_getD, List.getElem?_eq_getElem hi, Option.getD_some])
      obtain ⟨g, h1, h2, h3, h4, h5⟩ := addAll_new hadd
      refine ⟨m, g, hadd, ⟨h1, h2, h3, h4, h5⟩, fun r => ?_⟩
      -- the labels of the filled MMR pass the property up from the leaves
      induction r with
      | zero =>
          intro k hk
          have hlt := complete_zero.mp hk
          rw [h5 k hlt]
          exact hds _ (List.getElem_mem hlt)
      | succ r ih =>
          intro k hk
          obtain ⟨hl, hr⟩ := complete_children hk
          obtain ⟨p, hp, hPp⟩ := hP.join _ _ (ih _ hl) (ih _ hr)
          have hjoin : Joins C (g r (2 * k)) (g r (2 * k + 1)) (g (r + 1) k) := h1.1.joined r k hk
          rw [Joins, hp, Except.ok.injEq] at hjoin
          rwa [← hjoin]

/-- What such an MMR stores and looks up. -/
theorem of_getEntry {m : MMR} {ds : List MMRData} {g : ℕ → ℕ → MMRData} (h : FilledState C m ds g)
    (hg : ∀ r k, Complete ds.length r k → P (g r k)) {row : ℤ} {e : MMREntryNumber} {d : MMRData}
    (hd : (m.getEntry .none row e).getMMRData = .ok d) : P d.clone := by
  have hstored : ∀ x ∈ m.setEntries, ∀ d ∈ x.mmrData, P d.clone := by
    intro x hx d hd
    obtain ⟨r, k, hk, hcarries⟩ := h.chain.1.tracks.stored x hx
    obtain ⟨d', hd', hlabel⟩ := hcarries.data
    rw [hd'] at hd
    obtain rfl := Option.some.inj hd
    rw [hlabel]
    exact hg r k hk
  have hpath : m.searchPath .none = [m] := by simp [searchPath, Ancestry.none, h.noMegaMMR]
  have hdata := MMREntry.getMMRData_eq_ok.mp hd
  rw [MMR.getEntry, getEntryBack, hpath, lookup] at hdata
  split_ifs at hdata with htime
  · simp [MMREntry.empty] at hdata
  · cases hfind : findEntry m.setEntries row e with
    | none =>
        rw [hfind] at hdata
        simp [lookup, MMREntry.empty] at hdata
    | some x =>
        rw [hfind] at hdata
        obtain ⟨hmem, -⟩ := findEntry_some hfind
        simp only [Option.getD_some, MMREntry.copy] at hdata
        obtain ⟨d', hd', rfl⟩ := Option.map_eq_some_iff.mp hdata
        exact hstored x hmem d' hd'

/-- The peaks have the property, too. -/
theorem of_peaks {m : MMR} {ds : List MMRData} {g : ℕ → ℕ → MMRData} (h : FilledState C m ds g)
    (hg : ∀ r k, Complete ds.length r k → P (g r k)) :
    ∃ ps, HoldData m.getPeaks ps ∧ (∀ d ∈ ps, P d.clone) ∧
      ps.length = ds.length.bitIndices.length := by
  have hpeaks := h.chain.1.getPeaks clone_idem
  obtain ⟨ps, hps, hlen⟩ := hpeaks.holdData
  refine ⟨ps, hps, fun d hd => ?_, hlen⟩
  obtain ⟨x, hx, hxd⟩ := hps.mem_right hd
  obtain ⟨r, k, hpk, hcarries⟩ := hpeaks.arePeaks x hx
  obtain ⟨d', hd', hlabel⟩ := hcarries.getMMRData
  rw [hxd, Except.ok.injEq] at hd'
  rw [hd', hlabel]
  exact hg r k hpk.complete

/-- A number of leaves that is not zero has a bit. -/
theorem ne_nil_of_bits {ds ps : List MMRData} (hne : ds ≠ [])
    (hlen : ps.length = ds.length.bitIndices.length) : ps ≠ [] := by
  intro hnil
  rw [hnil, List.length_nil] at hlen
  have hsum := Nat.sum_map_two_pow_bitIndices ds.length
  rw [List.eq_nil_of_length_eq_zero hlen.symm] at hsum
  have hpos := List.length_pos_iff.mpr hne
  simp at hsum
  omega

/-! ## Bagging -/

/-- Peaks without value have the same value, in every round. -/
theorem hashFixesValue (hP : Inherited C P) (fuel : ℕ) :
    ∀ (xs : List MMREntry) (ds : List MMRData), HoldData xs ds → (∀ d ∈ ds, P d.clone) →
      ds.length < 2 ^ 256 → HashFixesValue C fuel xs := by
  induction fuel with
  | zero => exact fun _ _ _ _ _ => trivial
  | succ fuel ih =>
      intro xs ds hds hPds hlen
      have hzero : ∀ x ∈ xs, ∀ d ∈ x.mmrData, d.value = .zero := by
        intro x hx d hd
        obtain ⟨d', hd', hxd⟩ := hds.mem hx
        have hsame := MMREntry.getMMRData_eq_ok.mp hxd
        rw [hd] at hsame
        obtain rfl := Option.some.inj hsame
        exact hP.value d.clone (hPds d hd')
      refine ⟨fun x hx y hy d hd d' hd' _ => (hzero x hx d hd).trans (hzero y hy d' hd').symm, ?_⟩
      intro _ m hm
      obtain ⟨m', g, hadd, hst, hg⟩ := hP.exists_filled hPds hlen
      rw [bagPeaks_eq_addAll hds, hadd] at hm
      obtain rfl := Option.some.inj hm
      obtain ⟨ps, hps, hPps, hplen⟩ := of_peaks hst hg
      refine ih _ ps hps hPps ?_
      rw [hplen]
      exact (length_bitIndices_le _).trans_lt hlen

/-- The loop of `getRootInternal` ends. -/
theorem rootLoop (hP : Inherited C P) (fuel : ℕ) :
    ∀ (xs : List MMREntry) (ds : List MMRData), HoldData xs ds → (∀ d ∈ ds, P d.clone) →
      ds.length < 2 ^ 256 → ds ≠ [] →
      ∃ ys ps, MMR.rootLoop C fuel xs = .ok ys ∧ HoldData ys ps ∧ (∀ d ∈ ps, P d.clone) ∧ ps ≠ [] := by
  induction fuel with
  | zero => exact fun xs ds hds hPds _ hne => ⟨xs, ds, rfl, hds, hPds, hne⟩
  | succ fuel ih =>
      intro xs ds hds hPds hlen hne
      rw [MMR.rootLoop]
      split_ifs with hmany
      · obtain ⟨m, g, hadd, hst, hg⟩ := hP.exists_filled hPds hlen
        obtain ⟨ps, hps, hPps, hplen⟩ := of_peaks hst hg
        rw [bagPeaks_eq_addAll hds, hadd]
        apply ih _ ps hps hPps
        · rw [hplen]
          exact (length_bitIndices_le _).trans_lt hlen
        · exact ne_nil_of_bits hne hplen
      · exact ⟨xs, ds, rfl, hds, hPds, hne⟩

/-- **The root exists** and has the property. -/
theorem exists_root (hP : Inherited C P) {m : MMR} {ds : List MMRData} {g : ℕ → ℕ → MMRData}
    (h : FilledState C m ds g) (hg : ∀ r k, Complete ds.length r k → P (g r k)) (hne : ds ≠ [])
    (hlen : ds.length < 2 ^ 256) : ∃ root, m.getRoot C = .ok (some root) ∧ P root := by
  obtain ⟨ps, hps, hPps, hplen⟩ := of_peaks h hg
  have hpne := ne_nil_of_bits hne hplen
  have hpeaks : m.getPeaks ≠ [] := by
    intro hnil
    rw [hnil] at hps
    cases hps
    exact hpne rfl
  obtain ⟨ys, qs, hloop, hqs, hPqs, hqne⟩ := hP.rootLoop m.getPeaks.length m.getPeaks ps hps hPps
    (by rw [hplen]; exact (length_bitIndices_le _).trans_lt hlen) hpne
  rw [MMR.getRoot, if_neg (by simp [h.isOpen]), getRootInternal, rootOfPeaks_eq hpeaks, hloop]
  cases hqs with
  | nil => exact absurd rfl hqne
  | @cons y d ys qs hy hrest =>
      refine ⟨d.clone, ?_, hPqs d List.mem_cons_self⟩
      rw [Result.ok_bind, lastData, hy, Result.ok_bind, MMRData.make_eq_clone]
      rfl

/-! ## Proofs -/

/-- The chunks of the loop of `getProofToPeak`: at most one for every turn. -/
theorem proofLoop {m : MMR}
    (hm : ∀ row e d, (m.getEntry .none row e).getMMRData = .ok d → P d.clone) (fuel : ℕ) :
    ∀ (proof : MMRProof) (row : ℤ) (e : MMREntryNumber) (p : MMRProof),
      MMR.proofLoop m .none fuel proof (m.getEntry .none row e) = .ok p →
      (∀ c ∈ proof.proofChain, P c.mmrData) →
      (∀ c ∈ p.proofChain, P c.mmrData) ∧ p.proofChain.length ≤ proof.proofChain.length + fuel ∧
        p.blockTime = proof.blockTime := by
  induction fuel with
  | zero =>
      intro proof row e p h hproof
      rw [MMR.proofLoop, Except.ok.injEq] at h
      subst h
      exact ⟨hproof, le_rfl, rfl⟩
  | succ fuel ih =>
      intro proof row e p h hproof
      rw [MMR.proofLoop] at h
      split_ifs at h
      · rw [Except.ok.injEq] at h
        subst h
        exact ⟨hproof, Nat.le_add_right _ _, rfl⟩
      · obtain ⟨d, hd, h⟩ := Result.bind_eq_ok.mp h
        obtain ⟨h1, h2, h3⟩ := ih _ _ _ _ h (by
          intro c hc
          rcases List.mem_append.mp hc with hc | hc
          · exact hproof c hc
          · obtain rfl := List.mem_singleton.mp hc
            exact hm _ _ _ hd)
        refine ⟨h1, h2.trans ?_, h3⟩
        simp only [MMRProof.addProofChunk, List.length_append, List.length_singleton]
        omega

theorem getProofToPeak {m : MMR}
    (hm : ∀ row e d, (m.getEntry .none row e).getMMRData = .ok d → P d.clone) {e : MMREntryNumber}
    {p : MMRProof} (h : m.getProofToPeak .none e = .ok p) :
    (∀ c ∈ p.proofChain, P c.mmrData) ∧ p.proofChain.length ≤ 257 ∧ p.blockTime = m.blockTime := by
  have hloop := proofLoop hm 257 _ _ _ _ h (by simp)
  simpa using hloop

/-- The chunks of the loop of `getPeakToRoot`. -/
theorem peakToRootLoop (hP : Inherited C P) {peak : MMRData} (fuel : ℕ) :
    ∀ (total : MMRProof) (cur : MMRData) (keeper : Option MMREntry) (xs : List MMREntry)
      (ds : List MMRData) (p : MMRProof), HoldData xs ds → (∀ d ∈ ds, P d.clone) →
      ds.length < 2 ^ 256 → MMR.peakToRootLoop C peak fuel total cur keeper xs = .ok p →
      (∀ c ∈ total.proofChain, P c.mmrData) →
      (∀ c ∈ p.proofChain, P c.mmrData) ∧
        p.proofChain.length ≤ total.proofChain.length + 257 * fuel := by
  induction fuel with
  | zero =>
      intro total cur keeper xs ds p _ _ _ h htotal
      rw [MMR.peakToRootLoop, Except.ok.injEq] at h
      subst h
      exact ⟨htotal, le_rfl⟩
  | succ fuel ih =>
      intro total cur keeper xs ds p hds hPds hlen h htotal
      rw [MMR.peakToRootLoop] at h
      split_ifs at h
      · obtain ⟨⟨newmmr, keeper'⟩, hkeep, h⟩ := Result.bind_eq_ok.mp h
        obtain ⟨m, g, hadd, hst, hg⟩ := hP.exists_filled hPds hlen
        have hfst := keepPeak_fst (C := C) cur.data hds new keeper
        rw [hkeep, hadd] at hfst
        obtain rfl : newmmr = m := Except.ok.inj hfst
        cases keeper' with
        | none => cases h
        | some k =>
            obtain ⟨proof, hproof, h⟩ := Result.bind_eq_ok.mp h
            obtain ⟨cur', -, h⟩ := Result.bind_eq_ok.mp h
            obtain ⟨hchunks, hplen, -⟩ := getProofToPeak (fun row e d => of_getEntry hst hg) hproof
            obtain ⟨ps, hps, hPps, hpslen⟩ := of_peaks hst hg
            obtain ⟨h1, h2⟩ := ih _ _ _ _ ps p hps hPps
              (by rw [hpslen]; exact (length_bitIndices_le _).trans_lt hlen) h (by
                intro c hc
                rcases List.mem_append.mp hc with hc | hc
                · exact htotal c hc
                · exact hchunks c hc)
            refine ⟨h1, h2.trans ?_⟩
            simp only [List.length_append]
            omega
      · rw [Except.ok.injEq] at h
        subst h
        exact ⟨htotal, Nat.le_add_right _ _⟩

/-- The chunks of a whole proof. -/
theorem getProof (hP : Inherited C P) {m : MMR} {ds : List MMRData} {g : ℕ → ℕ → MMRData}
    (h : FilledState C m ds g) (hg : ∀ r k, Complete ds.length r k → P (g r k))
    (hlen : ds.length < 2 ^ 256) {e : MMREntryNumber} {p : MMRProof}
    (hp : m.getProof C .none e = .ok p) :
    (∀ c ∈ p.proofChain, P c.mmrData) ∧
      p.proofChain.length ≤ 257 + 257 * ds.length.bitIndices.length ∧
      p.blockTime = m.blockTime := by
  unfold MMR.getProof at hp
  obtain ⟨proof, hproof, hp⟩ := Result.bind_eq_ok.mp hp
  obtain ⟨d, -, hp⟩ := Result.bind_eq_ok.mp hp
  obtain ⟨peak, -, hp⟩ := Result.bind_eq_ok.mp hp
  obtain ⟨rootproof, hroot, hp⟩ := Result.bind_eq_ok.mp hp
  obtain rfl := Result.pure_eq_ok.mp hp
  obtain ⟨h1, h2, h3⟩ := getProofToPeak (fun row e d => of_getEntry h hg) hproof
  unfold getPeakToRoot at hroot
  obtain ⟨cur, -, hroot⟩ := Result.bind_eq_ok.mp hroot
  obtain ⟨ps, hps, hPps, hplen⟩ := of_peaks h hg
  obtain ⟨h4, h5⟩ := hP.peakToRootLoop _ _ _ _ _ ps _ hps hPps
    (by rw [hplen]; exact (length_bitIndices_le _).trans_lt hlen) hroot (by simp)
  refine ⟨fun c hc => ?_, ?_, h3⟩
  · rcases List.mem_append.mp hc with hc | hc
    · exact h1 c hc
    · exact h4 c hc
  · have hpeaks : m.getPeaks.length = ds.length.bitIndices.length := by
      rw [← hplen]
      exact List.Forall₂.length_eq hps
    rw [hpeaks, List.length_nil] at h5
    rw [List.length_append]
    omega

/-- **The MMR over leaves with the property**: it has a root, and a proof of every leaf that leads to
the root; all of them have the property. -/
theorem exists_root_and_proofs (hP : Inherited C P) {ds : List MMRData} (hds : ∀ d ∈ ds, P d.clone)
    (hne : ds ≠ []) (hlen : ds.length < 2 ^ 256) :
    ∃ m root, addAll C .none new ds = .ok m ∧ m.getRoot C = .ok (some root) ∧ P root ∧
      ∀ i (hi : i < ds.length), ∃ p, m.getProof C .none (.ofNat i) = .ok p ∧
        p.calculateProof C ds[i] = .ok root ∧ (∀ c ∈ p.proofChain, P c.mmrData) ∧
        p.proofChain.length ≤ 257 + 257 * ds.length.bitIndices.length ∧ p.blockTime = m.blockTime := by
  obtain ⟨m, g, hadd, hst, hg⟩ := hP.exists_filled hds hlen
  obtain ⟨root, hroot, hProot⟩ := hP.exists_root hst hg hne hlen
  refine ⟨m, root, hadd, hroot, hProot, fun i hi => ?_⟩
  obtain ⟨ps, hps, hPps, hplen⟩ := of_peaks hst hg
  have hfix := hP.hashFixesValue m.getPeaks.length m.getPeaks ps hps hPps
    (by rw [hplen]; exact (length_bitIndices_le _).trans_lt hlen)
  have hcomplete := (getProof_leads (.built hadd) hfix hi).trans hroot
  obtain ⟨p, hp, hcomplete⟩ := Result.bind_eq_ok.mp hcomplete
  obtain ⟨r, hr, hcomplete⟩ := Result.bind_eq_ok.mp hcomplete
  obtain rfl := Option.some.inj (Result.pure_eq_ok.mp hcomplete)
  exact ⟨p, hp, hr, hP.getProof hst hg hlen hp⟩

end Inherited

end

end MMR

end Minima
