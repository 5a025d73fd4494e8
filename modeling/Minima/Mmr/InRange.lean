import Minima.Mmr.TableUse

/-! # When the table of largest entries is used in range

* **`MMR.Bounded`** — everything an MMR stores is in range.
* **`MMR.addEntryNoted_keeps`** — appending a leaf is in range unless the leaf completes row 256.
* **`MMR.updateEntryNoted_keeps`** — changing a leaf is in range when the climb ends by row 255.
* **`MMR.finalizeSetNoted_keeps`** — bagging the peaks is always in range. -/

namespace Minima

open MountainRange MMREntryNumber

theorem TableUse.inRange_of_nat {row : ℤ} {e : MMREntryNumber} {r n : ℕ} (hrow : row = r)
    (hr : r < 256) (he : e.toRat = n) : (TableUse.mk row e).InRange := by
  refine ⟨?_, ?_, n, he⟩
  · show 0 ≤ row
    omega
  · show row < 256
    omega

namespace MMR

/-- **Everything an MMR stores is in range:** the entries, and the table of largest entries. -/
structure Bounded (m : MMR) : Prop where
  entries : ∀ x ∈ m.setEntries, (TableUse.mk x.row x.entryNumber).InRange
  table : ∀ r x, m.maxEntries r = some x → (TableUse.mk x.row x.entryNumber).InRange
  maxRow : m.maxRow < maxRows

theorem bounded_new : new.Bounded :=
  ⟨fun _ hx => absurd hx List.not_mem_nil, fun _ _ hx => absurd hx (by simp [new]), by decide⟩

/-- Times, numbers and the finalized root do not matter. -/
theorem Bounded.congr {m m' : MMR} (h : m.Bounded) (hentries : m'.setEntries = m.setEntries)
    (htable : m'.maxEntries = m.maxEntries) (hrow : m'.maxRow = m.maxRow) : m'.Bounded :=
  ⟨hentries ▸ h.entries, htable ▸ h.table, hrow ▸ h.maxRow⟩

/-- What `setEntry` at `row` and `e` leaves as it was. -/
structure SetAt (m : MMR) (row : ℤ) (e : MMREntryNumber) (m' : MMR) : Prop where
  finalized : m'.finalized = m.finalized
  entryNumber : m'.entryNumber = m.entryNumber
  blockTime : m'.blockTime = m.blockTime
  useMegaMMR : m'.useMegaMMR = m.useMegaMMR
  others : ∀ r e', ¬ (row = r ∧ e.toRat = e'.toRat) →
    findEntry m'.setEntries r e' = findEntry m.setEntries r e'

/-- **`setEntry` in range** keeps everything in range. -/
theorem setEntryNoted_keeps {m : MMR} {row : ℤ} {e : MMREntryNumber} (d : MMRData) (hm : m.Bounded)
    (h : m.finalized = true ∨ (TableUse.mk row e).InRange) :
    (m.setEntryNoted row e d).Keeps TableUse.InRange fun set =>
      set.1.Bounded ∧ set.2 = .make row e d ∧ m.SetAt row e set.1 := by
  unfold setEntryNoted
  cases hfinal : m.finalized with
  | true =>
    refine ⟨fun u hu => absurd hu (by simp), fun set hset => ?_⟩
    change m.setEntry row e d = .ok set at hset
    rw [setEntry, if_pos hfinal] at hset
    cases hset
    exact ⟨hm, rfl, rfl, rfl, rfl, rfl, fun _ _ _ => rfl⟩
  | false =>
    have hrange := h.resolve_left (by simp [hfinal])
    refine ⟨fun u hu => ?_, fun set hset => ?_⟩
    · rw [if_neg (by simp)] at hu
      rw [List.mem_singleton.mp hu]
      exact hrange
    · obtain ⟨m', x⟩ := set
      obtain ⟨-, -, hx, hm'⟩ := setEntry_eq_ok hfinal hset
      refine ⟨⟨?_, ?_, ?_⟩, hx, ?_⟩
      · intro y hy
        rw [hm'] at hy
        rcases mem_putEntry hy with rfl | ⟨hy, -⟩
        · exact hrange
        · exact hm.entries y hy
      · intro r y hy
        rw [hm'] at hy
        simp only [putMax] at hy
        split_ifs at hy with hr
        · cases hmax : m.maxEntries r with
          | none =>
            rw [hmax, Option.some.injEq] at hy
            subst hy
            exact hrange
          | some z =>
            rw [hmax] at hy
            simp only at hy
            split_ifs at hy
            · rw [Option.some.injEq] at hy
              subst hy
              exact hrange
            · rw [Option.some.injEq] at hy
              exact hy ▸ hm.table r z hmax
        · exact hm.table r y hy
      · rw [hm']
        exact max_lt hm.maxRow hrange.2.1
      · rw [hm']
        exact ⟨rfl, rfl, rfl, rfl, fun r e' hne => findEntry_putEntry_of_ne hne⟩

/-! ## Appending a leaf -/

/-- **The loop of `addEntry`** ends at the first left node on the way up. -/
theorem addLoopNoted_keeps {C : Crypto} {A : Ancestry} (fuel : ℕ) {m : MMR} {x : MMREntry} {r n k : ℕ}
    (hm : m.Bounded) (hrow : x.row = r) (hn : x.entryNumber.toRat = n) (hleft : n / 2 ^ k % 2 = 0)
    (hk : r + k < 256) :
    (addLoopNoted C A fuel m x).Keeps TableUse.InRange fun m' =>
      m'.Bounded ∧ m'.finalized = m.finalized ∧ m'.entryNumber = m.entryNumber := by
  induction fuel generalizing m x r n k with
  | zero => exact Noted.Keeps.lift fun a ha => absurd ha (by simp)
  | succ fuel ih =>
    rw [addLoopNoted]
    split_ifs with hright
    · have hodd : ¬ n % 2 = 0 := by
        rw [MMREntry.isRight, isLeft_iff hn] at hright
        simpa using hright
      cases k with
      | zero => exact absurd (by simpa using hleft) hodd
      | succ k =>
        apply Noted.Keeps.lift_bind
        intro left _
        apply Noted.Keeps.lift_bind
        intro right _
        apply Noted.Keeps.lift_bind
        intro parentdata _
        have hparent := toRat_getParentEntry hn
        have hrow' : x.getParentRow = (r + 1 : ℕ) := by
          rw [MMREntry.getParentRow, hrow]
          push_cast
          rfl
        have hrange := TableUse.inRange_of_nat hrow' (by omega) hparent
        apply Noted.Keeps.bind (setEntryNoted_keeps parentdata hm (Or.inr hrange))
        rintro ⟨m', x'⟩ - ⟨hm', hx', hset⟩
        subst hx'
        refine (ih hm' hrow' hparent (k := k) ?_ (by omega)).mono ?_
        · rwa [Nat.div_div_eq_div_mul, ← pow_succ']
        · rintro m'' ⟨h1, h2, h3⟩
          exact ⟨h1, h2.trans hset.finalized, h3.trans hset.entryNumber⟩
    · exact Noted.Keeps.pure ⟨hm, rfl, rfl⟩

/-- On a finalized MMR the loop changes nothing. -/
theorem addLoopNoted_finalized {C : Crypto} {A : Ancestry} (fuel : ℕ) {m : MMR} {x : MMREntry}
    (hm : m.Bounded) (hfinal : m.finalized = true) :
    (addLoopNoted C A fuel m x).Keeps TableUse.InRange fun m' =>
      m'.Bounded ∧ m'.finalized = m.finalized ∧ m'.entryNumber = m.entryNumber := by
  induction fuel generalizing m x with
  | zero => exact Noted.Keeps.lift fun a ha => absurd ha (by simp)
  | succ fuel ih =>
    rw [addLoopNoted]
    split_ifs
    · apply Noted.Keeps.lift_bind
      intro left _
      apply Noted.Keeps.lift_bind
      intro right _
      apply Noted.Keeps.lift_bind
      intro parentdata _
      apply Noted.Keeps.bind (setEntryNoted_keeps parentdata hm (Or.inl hfinal))
      rintro ⟨m', x'⟩ - ⟨hm', -, hset⟩
      apply (ih hm' (hset.finalized.trans hfinal)).mono
      rintro m'' ⟨h1, h2, h3⟩
      exact ⟨h1, h2.trans hset.finalized, h3.trans hset.entryNumber⟩
    · exact Noted.Keeps.pure ⟨hm, rfl, rfl⟩

/-- **The next leaf does not complete row 256:** somewhere below it, the climb from the leaf comes to a
left node. -/
def HasRoom (m : MMR) : Prop := ∃ n : ℕ, m.entryNumber.toRat = n ∧ ∃ k < 256, n / 2 ^ k % 2 = 0

/-- **Appending a leaf.** -/
theorem addEntryNoted_keeps {C : Crypto} {A : Ancestry} {m : MMR} (d : MMRData) (hm : m.Bounded)
    (hroom : m.finalized = true ∨ m.HasRoom) :
    (addEntryNoted C A m d).Keeps TableUse.InRange fun added =>
      added.1.Bounded ∧ added.1.finalized = m.finalized ∧
        added.1.entryNumber = m.entryNumber.increment := by
  have hleaf : m.finalized = true ∨ (TableUse.mk 0 m.entryNumber).InRange :=
    hroom.imp id fun ⟨n, hn, _⟩ => TableUse.inRange_of_nat Nat.cast_zero.symm (by omega) hn
  apply Noted.Keeps.bind (setEntryNoted_keeps d hm hleaf)
  rintro ⟨m1, x⟩ - ⟨hm1, rfl, hset⟩
  have hm1' : Bounded { m1 with entryNumber := m1.entryNumber.increment } := hm1.congr rfl rfl rfl
  have hloop : (addLoopNoted C A 257 { m1 with entryNumber := m1.entryNumber.increment }
      (.make 0 m.entryNumber d)).Keeps TableUse.InRange fun m2 =>
        m2.Bounded ∧ m2.finalized = m1.finalized ∧ m2.entryNumber = m1.entryNumber.increment := by
    rcases hroom with hfinal | ⟨n, hn, k, hk, hleft⟩
    · exact addLoopNoted_finalized 257 hm1' (hset.finalized.trans hfinal)
    · exact addLoopNoted_keeps 257 (r := 0) hm1' rfl hn hleft (by omega)
  apply hloop.bind
  rintro m2 - ⟨hm2, hfinal2, hnumber2⟩
  exact Noted.Keeps.pure ⟨hm2, hfinal2.trans hset.finalized,
    hnumber2.trans (congrArg increment hset.entryNumber)⟩

/-! ## Bagging the peaks -/

theorem length_getPeaks_le {m : MMR} (hm : m.Bounded) (hopen : m.finalized = false) :
    m.getPeaks.length ≤ 256 := by
  rw [getPeaks, if_neg (by simp [hopen])]
  have hrow : m.maxRow < 256 := hm.maxRow
  calc _ ≤ (rowsDown m.maxRow).length := List.length_filterMap_le _ _
    _ = (m.maxRow + 1).toNat := by rw [rowsDown, List.length_map, List.length_reverse, List.length_range]
    _ ≤ 256 := by omega

/-- The peaks of an open MMR are in range. -/
theorem getPeaks_inRange {m : MMR} (hm : m.Bounded) (hopen : m.finalized = false) :
    ∀ p ∈ m.getPeaks, (TableUse.mk p.row p.entryNumber).InRange := by
  intro p hp
  rw [getPeaks, if_neg (by simp [hopen])] at hp
  obtain ⟨row, -, hrow⟩ := List.mem_filterMap.mp hp
  cases hmax : m.maxEntries row with
  | none =>
    rw [hmax] at hrow
    exact absurd hrow (by simp)
  | some x =>
    rw [hmax] at hrow
    simp only at hrow
    split_ifs at hrow
    · rw [Option.some.injEq] at hrow
      subst hrow
      exact hm.table row x hmax

/-- **One round of bagging** needs less than nine rows. -/
theorem bagPeaksNoted_keeps {C : Crypto} {m : MMR} {peaks : List MMREntry} {n : ℕ} (hm : m.Bounded)
    (hopen : m.finalized = false) (hn : m.entryNumber.toRat = n) (hlen : n + peaks.length ≤ 256) :
    (bagPeaksNoted C m peaks).Keeps TableUse.InRange fun m' => m'.Bounded ∧ m'.finalized = false := by
  induction peaks generalizing m n with
  | nil => exact Noted.Keeps.pure ⟨hm, hopen⟩
  | cons peak peaks ih =>
    rw [List.length_cons] at hlen
    have hroom : m.HasRoom := ⟨n, hn, 8, by norm_num, by
      rw [Nat.div_eq_of_lt (by omega)]⟩
    apply Noted.Keeps.lift_bind
    intro d _
    apply Noted.Keeps.lift_bind
    intro newpeak _
    apply Noted.Keeps.bind (addEntryNoted_keeps newpeak hm (Or.inr hroom))
    rintro ⟨m', x⟩ - ⟨hm', hfinal, hnumber⟩
    apply ih (n := n + 1) hm' (hfinal.trans hopen) _ (by omega)
    rw [hnumber, toRat_increment, hn]
    push_cast
    rfl

theorem rootLoopNoted_keeps {C : Crypto} (fuel : ℕ) {peaks : List MMREntry}
    (hlen : peaks.length ≤ 256) :
    (rootLoopNoted C fuel peaks).Keeps TableUse.InRange fun _ => True := by
  induction fuel generalizing peaks with
  | zero => exact Noted.Keeps.pure trivial
  | succ fuel ih =>
    rw [rootLoopNoted]
    split_ifs
    · have hbag := @bagPeaksNoted_keeps C new peaks 0 bounded_new rfl
        (by simp [new, zero, ofInt, toRat]) (by omega)
      apply hbag.bind
      rintro newmmr - ⟨hnew, hopen⟩
      exact ih (length_getPeaks_le hnew hopen)
    · exact Noted.Keeps.pure trivial

/-- **`getRoot`** never leaves the tables of the MMRs it bags with. -/
theorem getRootNoted_keeps {C : Crypto} {m : MMR} (hm : m.Bounded) :
    (m.getRootNoted C).Keeps TableUse.InRange fun _ => True := by
  rw [getRootNoted]
  split_ifs with hfinal
  · exact Noted.Keeps.lift fun _ _ => trivial
  · exact Noted.Keeps.pure trivial
  · apply (rootLoopNoted_keeps _ (length_getPeaks_le hm (by simpa using hfinal))).bind
    intro peaks _ _
    exact Noted.Keeps.lift fun _ _ => trivial

/-- **`finalizeSet`** is always in range. -/
theorem finalizeSetNoted_keeps {C : Crypto} {m : MMR} (hm : m.Bounded) :
    (m.finalizeSetNoted C).Keeps TableUse.InRange Bounded := by
  have hroot := getRootNoted_keeps (C := C)
    (m := { m with finalized := false, finalizedPeaks := getPeaks { m with finalized := false } })
    (hm.congr rfl rfl rfl)
  apply hroot.bind
  intro root _ _
  exact Noted.Keeps.pure (hm.congr rfl rfl rfl)

/-! ## Starting from peaks -/

/-- **Setting peaks** that are in range. -/
theorem setPeaksNoted_keeps {m : MMR} {peaks : List MMREntry} (hm : m.Bounded)
    (hpeaks : m.finalized = true ∨ ∀ p ∈ peaks, (TableUse.mk p.row p.entryNumber).InRange) :
    (m.setPeaksNoted peaks).Keeps TableUse.InRange Bounded := by
  induction peaks generalizing m with
  | nil => exact Noted.Keeps.pure hm
  | cons peak peaks ih =>
    apply Noted.Keeps.lift_bind
    intro d _
    apply Noted.Keeps.bind (setEntryNoted_keeps d hm (hpeaks.imp id fun h => h peak List.mem_cons_self))
    rintro ⟨m', x⟩ - ⟨hm', -, hset⟩
    apply ih hm'
    exact hpeaks.imp (fun h => hset.finalized.trans h) fun h p hp => h p (List.mem_cons_of_mem _ hp)

theorem calculateEntryNumberFromPeaksNoted_keeps {m : MMR} (hm : m.Bounded) :
    m.calculateEntryNumberFromPeaksNoted.Keeps TableUse.InRange Bounded := by
  have hpeaks : m.finalized = true ∨ ∀ p ∈ m.getPeaks, (TableUse.mk p.row p.entryNumber).InRange := by
    cases hfinal : m.finalized with
    | true => exact Or.inl rfl
    | false => exact Or.inr (getPeaks_inRange hm hfinal)
  apply (setPeaksNoted_keeps hm hpeaks).bind
  intro m' _ hm'
  exact Noted.Keeps.pure (hm'.congr rfl rfl rfl)

/-! ## Changing a leaf -/

theorem lookup_key {time : MiniNumber} {row : ℤ} {e : MMREntryNumber} {ms : List MMR} {x : MMREntry}
    (h : lookup time row e ms = some x) : x.row = row ∧ x.entryNumber.toRat = e.toRat := by
  induction ms with
  | nil => exact absurd h (by simp [lookup])
  | cons m ms ih =>
    rw [lookup] at h
    split_ifs at h
    cases hfind : findEntry m.setEntries row e with
    | none =>
      rw [hfind] at h
      exact ih h
    | some y =>
      rw [hfind, Option.some.injEq] at h
      subst h
      exact (findEntry_some hfind).2

/-- A lookup answers at the place it was asked for. -/
theorem getEntryBack_key (m : MMR) (A : Ancestry) (row : ℤ) (e : MMREntryNumber) (time : MiniNumber) :
    (m.getEntryBack A row e time).row = row ∧
      (m.getEntryBack A row e time).entryNumber.toRat = e.toRat := by
  unfold getEntryBack
  cases h : lookup time row e (m.searchPath A) with
  | none => exact ⟨rfl, rfl⟩
  | some x => exact lookup_key h

/-- Lookups see numbers, not their representations. -/
theorem lookup_congr {time : MiniNumber} {row : ℤ} {e e' : MMREntryNumber} (he : e.toRat = e'.toRat)
    (ms : List MMR) : lookup time row e ms = lookup time row e' ms := by
  have hkey : sameKey row e = sameKey row e' := by
    funext x
    rw [Bool.eq_iff_iff, sameKey_iff, sameKey_iff, he]
  induction ms with
  | nil => rfl
  | cons m ms ih => rw [lookup, lookup, ih, findEntry, findEntry, hkey]

theorem isEmpty_getEntryBack_congr (m : MMR) (A : Ancestry) (row : ℤ) {e e' : MMREntryNumber}
    (he : e.toRat = e'.toRat) (time : MiniNumber) :
    (m.getEntryBack A row e time).isEmpty = (m.getEntryBack A row e' time).isEmpty := by
  unfold getEntryBack
  rw [lookup_congr he]
  cases lookup time row e' (m.searchPath A) <;> rfl

/-- **Setting an entry** does not change what a lookup finds elsewhere. -/
theorem SetAt.getEntryBack {m m' : MMR} {row : ℤ} {e : MMREntryNumber} (h : m.SetAt row e m')
    (A : Ancestry) {r : ℤ} {e' : MMREntryNumber} (hne : ¬ (row = r ∧ e.toRat = e'.toRat))
    (time : MiniNumber) : m'.getEntryBack A r e' time = m.getEntryBack A r e' time := by
  unfold MMR.getEntryBack searchPath
  rw [h.useMegaMMR, List.cons_append, List.cons_append, lookup, lookup, h.blockTime, h.others r e' hne]

/-- **The climb from leaf `n` ends at row `k`**, if it has not ended below: the node there is a peak, or
its sibling is neither in an MMR that the lookup sees nor in the proof. -/
def ClimbEnds (m : MMR) (A : Ancestry) (proof : MMRProof) (n k : ℕ) : Prop :=
  (∃ p ∈ m.getPeaks, p.row = k ∧ p.entryNumber.toRat = (n / 2 ^ k : ℕ)) ∨
    (proof.proofChain.length ≤ k ∧
      (m.getEntryBack A k (.ofNat (sibling (n / 2 ^ k))) proof.blockTime).isEmpty = true)

/-- **A leaf that `updateEntry` can change in range:** the climb from it ends inside the table. -/
def Reachable (m : MMR) (A : Ancestry) (e : MMREntryNumber) (proof : MMRProof) : Prop :=
  ∃ n : ℕ, e.toRat = n ∧ ∃ k < 256, m.ClimbEnds A proof n k

theorem checkPositionAny_of_mem {x p : MMREntry} {peaks : List MMREntry} (hp : p ∈ peaks)
    (hrow : p.row = x.row) (hnumber : p.entryNumber.toRat = x.entryNumber.toRat) :
    x.checkPositionAny peaks = true := by
  rw [MMREntry.checkPositionAny, List.any_eq_true]
  refine ⟨p, hp, ?_⟩
  rw [MMREntry.checkPosition, Bool.and_eq_true, beq_iff_eq, isEqual_iff]
  exact ⟨hrow, hnumber⟩

theorem siblingData_of_missing {proof : MMRProof} {i : ℕ} {x : MMREntry} {d : MMRData}
    (hempty : x.isEmpty = true) (hlen : proof.proofChain.length ≤ i) :
    siblingData proof i x ≠ .ok d := by
  rw [siblingData, if_pos hempty, MMRProof.getProofChunk, List.getElem?_eq_none hlen]
  exact fun h => absurd h (by simp [throwException, bind, Except.bind])

/-- **The loop of `updateEntry`**, from row `i` of a climb that ends at row `k`. The siblings from here on
are what they were in `base`. -/
theorem updateLoopNoted_keeps {C : Crypto} {A : Ancestry} {proof : MMRProof} {base : MMR} {n k : ℕ}
    (hend : base.ClimbEnds A proof n k) (hk : k < 256) (fuel : ℕ) {m : MMR} {x : MMREntry} {i : ℕ}
    (hm : m.Bounded) (hi : i ≤ k) (hrow : x.row = i) (hn : x.entryNumber.toRat = (n / 2 ^ i : ℕ))
    (hsame : ∀ j : ℕ, i ≤ j →
      (m.getEntryBack A j (.ofNat (sibling (n / 2 ^ j))) proof.blockTime).isEmpty =
        (base.getEntryBack A j (.ofNat (sibling (n / 2 ^ j))) proof.blockTime).isEmpty) :
    (updateLoopNoted C A base.getPeaks proof fuel i m x).Keeps TableUse.InRange Bounded := by
  induction fuel generalizing m x i with
  | zero => exact Noted.Keeps.lift fun a ha => absurd ha (by simp)
  | succ fuel ih =>
    rw [updateLoopNoted]
    split_ifs with hpeak
    · exact Noted.Keeps.pure hm
    have hsib := toRat_getSibling hn
    have hkey := getEntryBack_key m A x.row x.getSibling proof.blockTime
    rw [hrow, hsib] at hkey
    rw [hrow]
    -- without a sibling and without a chunk of the proof the loop throws before it uses the table
    apply Noted.Keeps.lift_bind
    intro siblingdata hdata
    have hlt : i < k := by
      refine lt_of_le_of_ne hi fun heq => ?_
      subst heq
      rcases hend with ⟨p, hp, hprow, hpnumber⟩ | ⟨hlen, hempty⟩
      · exact hpeak (checkPositionAny_of_mem hp (hprow.trans hrow.symm) (hpnumber.trans hn.symm))
      · have hnone := hsame i le_rfl
        rw [hempty, isEmpty_getEntryBack_congr m A i (hsib.trans (toRat_ofNat _).symm).symm] at hnone
        exact siblingData_of_missing hnone hlen hdata
    have hrange := TableUse.inRange_of_nat hkey.1 (by omega) hkey.2
    apply Noted.Keeps.bind (setEntryNoted_keeps siblingdata hm (Or.inr hrange))
    rintro ⟨m1, top⟩ - ⟨hm1, -, hset1⟩
    apply Noted.Keeps.lift_bind
    intro cur _
    apply Noted.Keeps.lift_bind
    intro sib _
    apply Noted.Keeps.lift_bind
    intro parentdata _
    have hparent := toRat_getParentEntry hn
    rw [← div_pow_succ] at hparent
    have hrow' : x.getParentRow = (i + 1 : ℕ) := by
      rw [MMREntry.getParentRow, hrow]
      push_cast
      rfl
    have hrange' := TableUse.inRange_of_nat hrow' (by omega) hparent
    apply Noted.Keeps.bind (setEntryNoted_keeps parentdata hm1 (Or.inr hrange'))
    rintro ⟨m2, x2⟩ - ⟨hm2, hx2, hset2⟩
    subst hx2
    apply ih hm2 (by omega) hrow' hparent
    intro j hj
    have hne1 : ¬ ((m.getEntryBack A i x.getSibling proof.blockTime).row = (j : ℤ) ∧
        (m.getEntryBack A i x.getSibling proof.blockTime).entryNumber.toRat =
          (ofNat (sibling (n / 2 ^ j))).toRat) := by
      rw [hkey.1]
      omega
    have hne2 : ¬ (x.getParentRow = (j : ℤ) ∧
        x.getParentEntry.toRat = (ofNat (sibling (n / 2 ^ j))).toRat) := by
      rw [hrow', hparent, toRat_ofNat]
      rintro ⟨hj', heq⟩
      have hj'' : i + 1 = j := by exact_mod_cast hj'
      subst hj''
      exact sibling_ne _ (by exact_mod_cast heq.symm)
    rw [hset2.getEntryBack A hne2, hset1.getEntryBack A hne1]
    exact hsame j (by omega)

/-- On a finalized MMR the loop changes nothing. -/
theorem updateLoopNoted_finalized {C : Crypto} {A : Ancestry} {proof : MMRProof} {peaks : List MMREntry}
    (fuel : ℕ) {m : MMR} {x : MMREntry} {i : ℕ} (hm : m.Bounded) (hfinal : m.finalized = true) :
    (updateLoopNoted C A peaks proof fuel i m x).Keeps TableUse.InRange Bounded := by
  induction fuel generalizing m x i with
  | zero => exact Noted.Keeps.lift fun a ha => absurd ha (by simp)
  | succ fuel ih =>
    rw [updateLoopNoted]
    split_ifs
    · exact Noted.Keeps.pure hm
    · apply Noted.Keeps.lift_bind
      intro siblingdata _
      apply Noted.Keeps.bind (setEntryNoted_keeps siblingdata hm (Or.inl hfinal))
      rintro ⟨m1, top⟩ - ⟨hm1, -, hset1⟩
      apply Noted.Keeps.lift_bind
      intro cur _
      apply Noted.Keeps.lift_bind
      intro sib _
      apply Noted.Keeps.lift_bind
      intro parentdata _
      have hfinal1 := hset1.finalized.trans hfinal
      apply Noted.Keeps.bind (setEntryNoted_keeps parentdata hm1 (Or.inl hfinal1))
      rintro ⟨m2, x2⟩ - ⟨hm2, -, hset2⟩
      exact ih hm2 (hset2.finalized.trans hfinal1)

/-- **Changing a leaf.** -/
theorem updateEntryNoted_keeps {C : Crypto} {A : Ancestry} {m : MMR} {e : MMREntryNumber}
    {proof : MMRProof} (d : MMRData) (hm : m.Bounded)
    (hleaf : m.finalized = true ∨ m.Reachable A e proof) :
    (updateEntryNoted C A m e proof d).Keeps TableUse.InRange Bounded := by
  rcases hleaf with hfinal | ⟨n, hn, k, hk, hend⟩
  · apply Noted.Keeps.bind (setEntryNoted_keeps d hm (Or.inl hfinal))
    rintro ⟨m1, x⟩ - ⟨hm1, -, hset⟩
    exact updateLoopNoted_finalized _ hm1 (hset.finalized.trans hfinal)
  · have hrange : (TableUse.mk 0 e).InRange :=
      TableUse.inRange_of_nat Nat.cast_zero.symm (by omega) hn
    apply Noted.Keeps.bind (setEntryNoted_keeps d hm (Or.inr hrange))
    rintro ⟨m1, x⟩ - ⟨hm1, hx, hset⟩
    subst hx
    apply updateLoopNoted_keeps hend hk _ hm1 (Nat.zero_le k) rfl (by simpa using hn)
    intro j _
    have hne : ¬ ((0 : ℤ) = (j : ℤ) ∧ e.toRat = (ofNat (sibling (n / 2 ^ j))).toRat) := by
      rintro ⟨hj, heq⟩
      have hj' : j = 0 := by exact_mod_cast hj.symm
      subst hj'
      rw [hn, toRat_ofNat, pow_zero, Nat.div_one] at heq
      exact sibling_ne n (by exact_mod_cast heq.symm)
    rw [hset.getEntryBack A hne]

/-! ## Reading -/

/-- The entries that the loop of `readDataStream` decodes, up to the first that throws. -/
def decodedEntries : ℕ → List Byte → List MMREntry
  | 0, _ => []
  | n + 1, s =>
    match MMREntry.readDataStream s with
    | (.error _, _) => []
    | (.ok entry, rest) => entry :: decodedEntries n rest

theorem readEntriesNoted_keeps (n : ℕ) {m : MMR} {s : List Byte} (hm : m.Bounded)
    (h : ∀ x ∈ decodedEntries n s, (TableUse.mk x.row x.entryNumber).InRange) :
    (readEntriesNoted n m s).Keeps TableUse.InRange Bounded := by
  induction n generalizing m s with
  | zero => exact Noted.Keeps.pure hm
  | succ n ih =>
    rw [readEntriesNoted]
    rw [decodedEntries] at h
    rcases hread : MMREntry.readDataStream s with ⟨e | entry, rest⟩
    · exact Noted.Keeps.lift fun a ha => absurd ha (by simp)
    · rw [hread] at h
      apply Noted.Keeps.lift_bind
      intro d _
      apply Noted.Keeps.bind (setEntryNoted_keeps d hm (Or.inr (h entry List.mem_cons_self)))
      rintro ⟨m', x⟩ - ⟨hm', -, -⟩
      exact ih hm' fun y hy => h y (List.mem_cons_of_mem _ hy)

/-- **A stream whose entries are in range.** -/
def StreamInRange (s : List Byte) : Prop :=
  ∀ m len rest, readHeader s = (.ok (m, len), rest) →
    ∀ x ∈ decodedEntries len.toNat rest, (TableUse.mk x.row x.entryNumber).InRange

theorem readHeader_bounded {s rest : List Byte} {m : MMR} {len : ℤ}
    (h : readHeader s = (.ok (m, len), rest)) : m.Bounded := by
  obtain ⟨time, s1, -, h⟩ := Reader.bind_eq_ok.mp h
  obtain ⟨blockTime, s2, -, h⟩ := Reader.bind_eq_ok.mp h
  obtain ⟨entryNumber, s3, -, h⟩ := Reader.bind_eq_ok.mp h
  obtain ⟨len', s4, -, h⟩ := Reader.bind_eq_ok.mp h
  cases h
  exact bounded_new.congr rfl rfl rfl

/-- **Reading a stream.** -/
theorem readDataStreamNoted_keeps {C : Crypto} {s : List Byte} (h : StreamInRange s) :
    (readDataStreamNoted C s).Keeps TableUse.InRange Bounded := by
  rw [readDataStreamNoted]
  rcases hheader : readHeader s with ⟨e | ⟨m, len⟩, rest⟩
  · exact Noted.Keeps.lift fun a ha => absurd ha (by simp)
  · apply (readEntriesNoted_keeps len.toNat (readHeader_bounded hheader) (h m len rest hheader)).bind
    intro m' _ hm'
    exact finalizeSetNoted_keeps hm'

end MMR

end Minima
