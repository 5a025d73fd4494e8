import Minima.Mmr.Rebuild

/-! # Proofs: the path from a leaf to its peak

`getProofToPeak` collects the siblings of the ancestors of a leaf until one is missing. Wherever the
siblings below row `r` are found and the one in row `r` is not, the chain it makes leads from the
leaf to row `r`, with the labels the tree has.

* **`Siblings`** — a chain of chunks carries side and label of the siblings, row after row.
* **`getProofToPeak_spec`** — what `getProofToPeak` makes.
* **`Grounded.getProofToPeak`** — in a chain of MMRs that starts complete, it leads to the peak.
* **`calculateChain_siblings`** — with exact labels, hashing along the chain gives the node above. -/

namespace Minima

open MountainRange

namespace MMR

variable {A : Type} {label : MMRData → A} {J : A → A → A → Prop} {C : Crypto}

/-- The chunks carry side and label of the siblings of the ancestors of leaf `e` in the rows `i`,
`i + 1`, …. -/
def Siblings (label : MMRData → A) (f : ℕ → ℕ → A) (e : ℕ) : ℕ → List MMRProofChunk → Prop
  | _, [] => True
  | i, c :: cs => c.isLeft = decide (sibling (e / 2 ^ i) % 2 = 0) ∧
      label c.mmrData = f i (sibling (e / 2 ^ i)) ∧ Siblings label f e (i + 1) cs

/-- The parent of a sibling is the parent of the node. -/
theorem ancestor_sibling (e i : ℕ) : sibling (e / 2 ^ i) / 2 = e / 2 ^ (i + 1) := by
  rw [sibling_div_two, ancestor_succ]

/-- The chunk of a sibling that was found. -/
theorem chunk_of_carries (hclone : ∀ d : MMRData, label d.clone = label d) {x : MMREntry}
    {f : ℕ → ℕ → A} {r k : ℕ} {d : MMRData} (hx : x.Carries label f r k)
    (hd : x.getMMRData = .ok d) :
    (MMRProofChunk.make x.isLeft d).isLeft = decide (k % 2 = 0) ∧
      label (MMRProofChunk.make x.isLeft d).mmrData = f r k := by
  obtain ⟨d', hd', hl⟩ := hx.getMMRData
  rw [hd', Except.ok.injEq] at hd
  subst hd
  rw [MMRProofChunk.isLeft_make, MMREntry.isLeft_of_ofNat hx.number, MMRProofChunk.mmrData_make,
    hclone]
  exact ⟨rfl, hl⟩

/-- **The loop of `getProofToPeak`** from row `i` up to the row `r` where a sibling is missing. -/
theorem proofLoop_spec (hclone : ∀ d : MMRData, label d.clone = label d) {m : MMR} {anc : Ancestry}
    {f : ℕ → ℕ → A} {e r : ℕ}
    (hfind : ∀ j < r, (m.getEntry anc j (.ofNat (sibling (e / 2 ^ j)))).Carries label f j
      (sibling (e / 2 ^ j)))
    (hstop : (m.getEntry anc r (.ofNat (sibling (e / 2 ^ r)))).isEmpty = true) (fuel : ℕ) :
    ∀ (i : ℕ) (proof : MMRProof), i ≤ r → r < fuel + i →
      ∃ cs, proofLoop m anc fuel proof (m.getEntry anc i (.ofNat (sibling (e / 2 ^ i)))) =
          .ok ⟨proof.blockTime, proof.proofChain ++ cs⟩ ∧
        cs.length = r - i ∧ Siblings label f e i cs := by
  induction fuel with
  | zero =>
      intro i proof hi hlt
      omega
  | succ fuel ih =>
      intro i proof hi hlt
      rcases Nat.eq_or_lt_of_le hi with rfl | hlt'
      · refine ⟨[], ?_, by simp, trivial⟩
        rw [proofLoop, if_pos hstop, List.append_nil]
      · have hx := hfind i hlt'
        obtain ⟨d, hd, -⟩ := hx.getMMRData
        have hparent : (MMREntry.empty (m.getEntry anc i (.ofNat (sibling (e / 2 ^ i)))).getParentRow
            (m.getEntry anc i (.ofNat (sibling (e / 2 ^ i)))).getParentEntry).getSibling =
            .ofNat (sibling (e / 2 ^ (i + 1))) := by
          refine MMREntry.getSibling_of_ofNat ?_
          rw [← ancestor_sibling]
          exact MMREntry.getParentEntry_of_ofNat hx.number
        obtain ⟨cs, h1, h2, h3⟩ := ih (i + 1) (proof.addProofChunk
          (.make (m.getEntry anc i (.ofNat (sibling (e / 2 ^ i)))).isLeft d)) hlt' (by omega)
        obtain ⟨hside, hlab⟩ := chunk_of_carries hclone hx hd
        refine ⟨_ :: cs, ?_, by rw [List.length_cons, h2]; omega, hside, hlab, h3⟩
        rw [proofLoop, if_neg (by simp [hx.full]), hd]
        simp only [Result.ok_bind, hparent]
        rw [MMREntry.empty, MMREntry.getParentRow, hx.row]
        push_cast at h1
        rw [h1]
        simp [MMRProof.addProofChunk]

/-- **What `getProofToPeak` makes:** the siblings up to the first one that is missing. -/
theorem getProofToPeak_spec (hclone : ∀ d : MMRData, label d.clone = label d) {m : MMR}
    {anc : Ancestry} {f : ℕ → ℕ → A} {e r : ℕ} (hrow : r < 257)
    (hentry : (m.getEntry anc 0 (.ofNat e)).row = 0 ∧
      (m.getEntry anc 0 (.ofNat e)).entryNumber = .ofNat e)
    (hfind : ∀ j < r, (m.getEntry anc j (.ofNat (sibling (e / 2 ^ j)))).Carries label f j
      (sibling (e / 2 ^ j)))
    (hstop : (m.getEntry anc r (.ofNat (sibling (e / 2 ^ r)))).isEmpty = true) :
    ∃ cs, m.getProofToPeak anc (.ofNat e) = .ok ⟨m.blockTime, cs⟩ ∧ cs.length = r ∧
      Siblings label f e 0 cs := by
  obtain ⟨cs, h1, h2, h3⟩ := proofLoop_spec hclone hfind hstop 257 0 ⟨m.blockTime, []⟩
    (Nat.zero_le r) (by omega)
  refine ⟨cs, ?_, h2, h3⟩
  rw [getProofToPeak, hentry.1, MMREntry.getSibling_of_ofNat hentry.2]
  simpa using h1

/-- **In a chain that starts complete**, `getProofToPeak` leads from a leaf to its peak. -/
theorem Grounded.getProofToPeak (hclone : ∀ d : MMRData, label d.clone = label d)
    {older : List (Snapshot A)} {s : Snapshot A} (hg : Grounded (s :: older))
    (hc : Chain C label J (s :: older)) {e r : ℕ} (he : e < s.size)
    (hp : IsPeak s.size r (e / 2 ^ r)) :
    ∃ cs, s.mmr.getProofToPeak ⟨older.map Snapshot.mmr, none⟩ (.ofNat e) =
        .ok ⟨s.mmr.blockTime, cs⟩ ∧ cs.length = r ∧ Siblings label s.label e 0 cs := by
  have hleaf := hg.getEntry hclone hc (complete_zero.mpr he)
  refine getProofToPeak_spec hclone ?_ ⟨hleaf.row, hleaf.number⟩ ?_ ?_
  · have := hp.complete.row_lt hc.1.tracks.small
    omega
  · exact fun j hj => hg.getEntry hclone hc (path_complete hp.complete j hj).2
  · -- the sibling of a peak does not exist
    rcases getEntryBack_cases hclone walks_parents hc.1.tracks.stored hc.2.1 hc.2.2 .zero r
      (sibling (e / 2 ^ r)) with ⟨hcomplete, -⟩ | ⟨hempty, -⟩
    · have h1 := hp.2
      unfold Complete at hcomplete
      rw [sibling, if_pos hp.even] at hcomplete
      omega
    · rw [MMR.getEntry, hempty]
      rfl

/-! ## Hashing along a chain -/

theorem calculateChain_append (cur : MMRData) (cs cs' : List MMRProofChunk) :
    MMRProof.calculateChain C cur (cs ++ cs') = (MMRProof.calculateChain C cur cs >>= fun next =>
      MMRProof.calculateChain C next cs') := by
  induction cs generalizing cur with
  | nil => rfl
  | cons c cs ih =>
      rw [List.cons_append, MMRProof.calculateChain, MMRProof.calculateChain, bind_assoc]
      congr 1
      funext next
      exact ih next

/-- **Hashing along the siblings** of leaf `e`, from its ancestor in row `i`, gives its ancestor in
the row where the chain ends. -/
theorem calculateChain_siblings {n e : ℕ} {f : ℕ → ℕ → MMRData} (hf : Labelling (Joins C) n f)
    (cs : List MMRProofChunk) : ∀ i, Siblings MMRData.clone f e i cs →
      Complete n (i + cs.length) (e / 2 ^ (i + cs.length)) →
      MMRProof.calculateChain C (f i (e / 2 ^ i)) cs =
        .ok (f (i + cs.length) (e / 2 ^ (i + cs.length))) := by
  induction cs with
  | nil => exact fun i _ _ => rfl
  | cons c cs ih =>
      intro i hsib hc
      obtain ⟨hside, hdata, hrest⟩ := hsib
      have hlen : i + (c :: cs).length = i + 1 + cs.length := by
        rw [List.length_cons]
        omega
      rw [hlen] at hc ⊢
      have hcomp : Complete n (i + 1) (e / 2 ^ (i + 1)) := by
        rcases Nat.eq_zero_or_pos cs.length with h0 | hpos
        · simpa [h0] using hc
        · exact (path_complete hc (i + 1) (by omega)).1
      -- the step: the two children of the next ancestor, left before right
      have hstep : MMRProof.calculateStep C (f i (e / 2 ^ i)) c =
          .ok (f (i + 1) (e / 2 ^ (i + 1))) := by
        have hjoin := hf i _ hcomp
        rw [div_pow_succ] at hjoin ⊢
        unfold MMRProof.calculateStep
        by_cases heven : e / 2 ^ i % 2 = 0
        · obtain ⟨h1, h2⟩ := pair_of_even heven
          have hs : ¬ sibling (e / 2 ^ i) % 2 = 0 := by
            rw [sibling, if_pos heven]
            omega
          rw [h2, h1, ← hdata] at hjoin
          rw [hside, if_neg (by simpa using hs)]
          exact hjoin
        · obtain ⟨h1, h2⟩ := pair_of_odd heven
          have hs : sibling (e / 2 ^ i) % 2 = 0 := by
            rw [sibling, if_neg heven]
            omega
          rw [h2, h1, ← hdata] at hjoin
          rw [hside, if_pos (by simpa using hs)]
          exact hjoin
      rw [MMRProof.calculateChain, hstep]
      exact ih (i + 1) hrest hc

end MMR

end Minima
