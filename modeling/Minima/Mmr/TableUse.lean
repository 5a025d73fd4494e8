import Minima.Lib.Noted
import Minima.Mmr.Codec

/-! # What the operations of an `MMR` do to its table of largest entries

`setEntry` indexes the table of largest entries by the row it is given, and nothing checks that row. The
operations are written once more, with a note for every row and entry number that goes to the table.

* **`TableUse.InRange`** — the row is inside the table and the number is a natural number.
* **`MMR.addEntryNoted`**, **`MMR.updateEntryNoted`**, **`MMR.readDataStreamNoted`** — the operations with
  their notes. -/

namespace Minima

open Decimal MountainRange

/-! ## Entry numbers that are natural numbers -/

namespace MMREntryNumber

theorem toRat_increment (a : MMREntryNumber) : a.increment.toRat = a.toRat + 1 := by
  have hone := value_rescale_to 1 (le_max_right a.scale 0)
  rw [one_mul, sub_zero, value_zero_right, Int.cast_one] at hone
  rw [toRat, increment, value_add, value_rescale_to a.unscaled (le_max_left a.scale 0), hone, toRat]

theorem toRat_decrement (a : MMREntryNumber) : a.decrement.toRat = a.toRat - 1 := by
  have hone := value_rescale_to 1 (le_max_right a.scale 0)
  rw [one_mul, sub_zero, value_zero_right, Int.cast_one] at hone
  rw [toRat, decrement, value_sub, value_rescale_to a.unscaled (le_max_left a.scale 0), hone, toRat]

theorem toRat_div2 (a : MMREntryNumber) : a.div2.toRat = a.toRat / 2 := by
  unfold div2
  by_cases h : a.unscaled % 2 = 0
  · rw [if_pos h]
    have heven : a.unscaled = a.unscaled / 2 + a.unscaled / 2 := by omega
    have hsum := value_add (a.unscaled / 2) (a.unscaled / 2) a.scale
    rw [← heven] at hsum
    simp only [toRat]
    rw [hsum]
    ring
  · -- `5u / 10^(s+1)`
    rw [if_neg h]
    simp only [toRat, value, Int.cast_mul, Int.cast_ofNat, neg_add]
    rw [zpow_add₀ (by norm_num)]
    ring

theorem toRat_floor (a : MMREntryNumber) : a.floor.toRat = ⌊a.toRat⌋ := by
  unfold floor
  rcases le_or_gt a.scale 0 with h | h
  · rw [if_pos h]
    have hscale := value_rescale_to a.unscaled h
    rw [zero_sub, value_zero_right] at hscale
    rw [toRat, value_zero_right, show a.toRat = _ from hscale.symm, Int.floor_intCast]
  · rw [if_neg (not_le.mpr h)]
    obtain ⟨k, hk⟩ := Int.eq_ofNat_of_zero_le h.le
    have hvalue : a.toRat = (a.unscaled : ℚ) / ((10 ^ k : ℕ) : ℚ) := by
      rw [toRat, value, hk, zpow_neg, zpow_natCast, Nat.cast_pow, Nat.cast_ofNat, div_eq_mul_inv]
    have hfloor : ⌊a.toRat⌋ = a.unscaled / 10 ^ k := by
      rw [hvalue, Rat.floor_intCast_div_natCast]
      push_cast
      rfl
    have htdiv := Int.tdiv_eq_ediv (a := a.unscaled) (b := 10 ^ k)
    rw [hfloor, hk, Int.toNat_natCast]
    -- the quotient is truncated, and one too large when that is not a division down
    by_cases hdown : 0 ≤ a.unscaled ∨ a.unscaled.tmod (10 ^ k) = 0
    · rw [if_pos (hdown.imp id Int.dvd_of_tmod_eq_zero), add_zero] at htdiv
      simp only
      rw [if_pos hdown, toRat, value_zero_right, htdiv]
    · rw [if_neg (hdown ∘ Or.imp id Int.tmod_eq_zero_of_dvd), Int.sign_eq_one_of_pos (by positivity)]
        at htdiv
      simp only
      rw [if_neg hdown, toRat, value_zero_right, htdiv, add_sub_cancel_right]

/-- The remainder of a natural number. -/
theorem toRat_modulo_two {a : MMREntryNumber} {n : ℕ} (h : a.toRat = n) :
    (a.modulo two).toRat = (n % 2 : ℕ) := by
  have hrem : (n : ℤ) - (n / 2 : ℕ) * 2 = (n % 2 : ℕ) := by omega
  have hquot : (n : ℤ).tdiv 2 = (n / 2 : ℕ) := by
    rw [Int.tdiv_eq_ediv_of_nonneg (by positivity)]
    rfl
  simp only [modulo, two, ofInt, zero_sub, sub_zero]
  rcases le_or_gt a.scale 0 with hs | hs
  · have hscale := value_rescale_to a.unscaled hs
    rw [zero_sub, value_zero_right, show value a.unscaled a.scale = n from h] at hscale
    have hint : a.unscaled * 10 ^ (-a.scale).toNat = n := by exact_mod_cast hscale
    rw [if_pos (by omega), if_pos (by omega), max_eq_right hs, zero_sub, hint, hquot]
    simp only [toRat, Int.toNat_zero, pow_zero, mul_one, value_zero_right]
    rw [hrem, Int.cast_natCast]
  · obtain ⟨k, hk⟩ := Int.eq_ofNat_of_zero_le hs.le
    have hu : a.unscaled = n * 10 ^ k := by
      have hn' := value_rescale n 0 k
      rw [zero_add, value_zero_right, ← hk] at hn'
      exact value_inj.mp (h.trans hn'.symm)
    rw [if_neg (by omega), if_neg (by omega), max_eq_left hs.le, neg_neg, hk, Int.toNat_natCast, hu,
      mul_comm 2, mul_comm (n : ℤ), Int.mul_tdiv_mul_of_pos _ _ (by positivity), hquot]
    rw [sub_self, Int.toNat_zero, pow_zero, mul_one, toRat]
    have hfactor : 10 ^ k * (n : ℤ) - ((n / 2 : ℕ) : ℤ) * (10 ^ k * 2) =
        ((n % 2 : ℕ) : ℤ) * 10 ^ k := by
      rw [← hrem]
      ring
    have hval := value_rescale ((n % 2 : ℕ) : ℤ) 0 k
    rw [zero_add, value_zero_right] at hval
    simp only
    rw [hfactor, hval, Int.cast_natCast]

theorem isLeft_iff {x : MMREntry} {n : ℕ} (h : x.entryNumber.toRat = n) :
    x.isLeft = decide (n % 2 = 0) := by
  rw [MMREntry.isLeft, Bool.eq_iff_iff, isEqual_iff, toRat_modulo_two h, decide_eq_true_eq]
  simp [zero, ofInt, toRat]

theorem toRat_getSibling {x : MMREntry} {n : ℕ} (h : x.entryNumber.toRat = n) :
    x.getSibling.toRat = (sibling n : ℕ) := by
  rw [MMREntry.getSibling, isLeft_iff h, sibling]
  by_cases hn : n % 2 = 0
  · simp only [hn, decide_true, if_true, toRat_increment, h]
    push_cast
    rfl
  · simp only [hn, decide_false, Bool.false_eq_true, if_false, toRat_decrement, h]
    rw [Nat.cast_sub (by omega), Nat.cast_one]

theorem toRat_getParentEntry {x : MMREntry} {n : ℕ} (h : x.entryNumber.toRat = n) :
    x.getParentEntry.toRat = (n / 2 : ℕ) := by
  have hfloor := Rat.floor_intCast_div_natCast n 2
  rw [Int.cast_natCast, Nat.cast_ofNat, Nat.cast_ofNat] at hfloor
  rw [MMREntry.getParentEntry, toRat_floor, toRat_div2, h, hfloor]
  rfl

end MMREntryNumber

/-! ## Operations with notes -/

/-- A use of the table of largest entries: the row that indexes it, and the number of the entry that may
be put there. -/
structure TableUse where
  row : ℤ
  entryNumber : MMREntryNumber
  deriving DecidableEq

/-- The row is an index of the table, and the number is a natural number. -/
def TableUse.InRange (u : TableUse) : Prop :=
  0 ≤ u.row ∧ u.row < MMR.maxRows ∧ ∃ n : ℕ, u.entryNumber.toRat = n

/-- A call that notes how it uses the table. -/
abbrev Noting (α : Type) := Noted Fault TableUse α

namespace MMR

/-- `setEntry`: only an open MMR uses its table. -/
def setEntryNoted (m : MMR) (row : ℤ) (e : MMREntryNumber) (d : MMRData) : Noting (MMR × MMREntry) :=
  ⟨if m.finalized then [] else [⟨row, e⟩], m.setEntry row e d⟩

/-- The loop of `addEntry`. -/
def addLoopNoted (C : Crypto) (A : Ancestry) : ℕ → MMR → MMREntry → Noting MMR
  | 0, _, _ => .lift (undefinedBehaviour "mMaxEntries index out of range")
  | fuel + 1, m, entry =>
    if entry.isRight then do
      let sibling := m.getEntry A entry.row entry.getSibling
      let left ← .lift sibling.getMMRData
      let right ← .lift entry.getMMRData
      let parentdata ← .lift (MMRData.createMMRDataParentNode C left right)
      let set ← m.setEntryNoted entry.getParentRow entry.getParentEntry parentdata
      addLoopNoted C A fuel set.1 set.2
    else pure m

/-- `addEntry`. -/
def addEntryNoted (C : Crypto) (A : Ancestry) (m : MMR) (d : MMRData) : Noting (MMR × MMREntry) := do
  let set ← m.setEntryNoted 0 m.entryNumber d
  let m' ← addLoopNoted C A 257 { set.1 with entryNumber := set.1.entryNumber.increment } set.2
  return (m', set.2)

/-- One round of bagging. -/
def bagPeaksNoted (C : Crypto) : MMR → List MMREntry → Noting MMR
  | m, [] => pure m
  | m, peak :: peaks => do
      let d ← .lift peak.getMMRData
      let newpeak ← .lift (MMRData.make d.data d.value)
      let added ← addEntryNoted C .none m newpeak
      bagPeaksNoted C added.1 peaks

/-- The loop of `getRootInternal`. -/
def rootLoopNoted (C : Crypto) : ℕ → List MMREntry → Noting (List MMREntry)
  | 0, peaks => pure peaks
  | fuel + 1, peaks =>
    if 1 < peaks.length then do
      let newmmr ← bagPeaksNoted C new peaks
      rootLoopNoted C fuel newmmr.getPeaks
    else pure peaks

/-- The end of `getRootInternal`: the last peak. -/
def lastPeak : List MMREntry → Result (Option MMRData)
  | [] => undefinedBehaviour "peaks[0] of no peaks"
  | peak :: _ => do
      let d ← peak.getMMRData
      let root ← MMRData.make d.data d.value
      return some root

/-- `getRoot`, by `getRootInternal` on an open MMR. -/
def getRootNoted (C : Crypto) (m : MMR) : Noting (Option MMRData) :=
  if m.finalized then .lift (.ok (m.finalizedRoot.map MMRData.clone))
  else if m.getPeaks.isEmpty then pure Option.none
  else do
    let peaks ← rootLoopNoted C m.getPeaks.length m.getPeaks
    .lift (lastPeak peaks)

/-- `finalizeSet`. -/
def finalizeSetNoted (C : Crypto) (m : MMR) : Noting MMR := do
  let m := { m with finalized := false }
  let m := { m with finalizedPeaks := m.getPeaks }
  let root ← m.getRootNoted C
  return { m with finalizedRoot := root, finalized := true }

/-- Set every peak of a list. -/
def setPeaksNoted : MMR → List MMREntry → Noting MMR
  | m, [] => pure m
  | m, peak :: peaks => do
      let d ← .lift peak.getMMRData
      let set ← m.setEntryNoted peak.row peak.entryNumber d
      setPeaksNoted set.1 peaks

/-- `calculateEntryNumberFromPeaks`. -/
def calculateEntryNumberFromPeaksNoted (m : MMR) : Noting MMR := do
  let peaks := m.getPeaks
  let m ← m.setPeaksNoted peaks
  return { m with entryNumber := .ofInt (totalOfPeaks peaks) }

/-- The loop of `updateEntry`. -/
def updateLoopNoted (C : Crypto) (A : Ancestry) (peaks : List MMREntry) (proof : MMRProof) :
    ℕ → ℕ → MMR → MMREntry → Noting MMR
  | 0, _, _, _ => .lift (undefinedBehaviour "mMaxEntries index out of range")
  | fuel + 1, currentproof, m, entry =>
    if entry.checkPositionAny peaks then pure m
    else do
      let sibling := m.getEntryBack A entry.row entry.getSibling proof.blockTime
      let siblingdata ← .lift (siblingData proof currentproof sibling)
      let top ← m.setEntryNoted sibling.row sibling.entryNumber siblingdata
      let cur ← .lift entry.getMMRData
      let sib ← .lift top.2.getMMRData
      let parentdata ← .lift (parentData C entry cur sib)
      let set ← top.1.setEntryNoted entry.getParentRow entry.getParentEntry parentdata
      updateLoopNoted C A peaks proof fuel (currentproof + 1) set.1 set.2

/-- `updateEntry`. -/
def updateEntryNoted (C : Crypto) (A : Ancestry) (m : MMR) (e : MMREntryNumber) (oldProof : MMRProof)
    (newData : MMRData) : Noting MMR := do
  let peaks := m.getPeaks
  let set ← m.setEntryNoted 0 e newData
  updateLoopNoted C A peaks oldProof (257 + oldProof.proofChain.length) 0 set.1 set.2

/-- The loop of `readDataStream`. -/
def readEntriesNoted : ℕ → MMR → List Byte → Noting MMR
  | 0, m, _ => pure m
  | n + 1, m, s =>
    match MMREntry.readDataStream s with
    | (.error e, _) => .lift (.error e)
    | (.ok entry, rest) => do
      let d ← .lift entry.getMMRData
      let set ← m.setEntryNoted entry.row entry.entryNumber d
      readEntriesNoted n set.1 rest

/-- What stands before the entries in the stream of an MMR: its block time, its entry number and the
number of entries. -/
def readHeader : Reader (MMR × ℤ) := do
  let time ← MiniNumber.readDataStream
  let blockTime ← Reader.lift time.copy
  let entryNumber ← MMREntryNumber.readDataStream
  let len ← MiniNumber.getAsInt <$> MiniNumber.readDataStream
  return (starting blockTime entryNumber, len)

/-- `readDataStream` into a new MMR. -/
def readDataStreamNoted (C : Crypto) (s : List Byte) : Noting MMR :=
  match readHeader s with
  | (.error e, _) => .lift (.error e)
  | (.ok (m, len), rest) => do
    let m ← readEntriesNoted len.toNat m rest
    m.finalizeSetNoted C

/-! ### Without the notes they are the operations -/

@[simp] theorem outcome_setEntryNoted (m : MMR) (row : ℤ) (e : MMREntryNumber) (d : MMRData) :
    (m.setEntryNoted row e d).outcome = m.setEntry row e d := rfl

@[simp] theorem outcome_addLoopNoted (C : Crypto) (A : Ancestry) (fuel : ℕ) (m : MMR) (x : MMREntry) :
    (addLoopNoted C A fuel m x).outcome = addLoop C A fuel m x := by
  induction fuel generalizing m x with
  | zero => rfl
  | succ fuel ih =>
    rw [addLoopNoted, addLoop]
    split_ifs
    · simp [ih]
    · rfl

@[simp] theorem outcome_addEntryNoted (C : Crypto) (A : Ancestry) (m : MMR) (d : MMRData) :
    (addEntryNoted C A m d).outcome = addEntry C A m d := by
  simp [addEntryNoted, addEntry]

@[simp] theorem outcome_bagPeaksNoted (C : Crypto) (m : MMR) (peaks : List MMREntry) :
    (bagPeaksNoted C m peaks).outcome = bagPeaks C m peaks := by
  induction peaks generalizing m with
  | nil => rfl
  | cons peak peaks ih => simp [bagPeaksNoted, bagPeaks, ih]

@[simp] theorem outcome_rootLoopNoted (C : Crypto) (fuel : ℕ) (peaks : List MMREntry) :
    (rootLoopNoted C fuel peaks).outcome = rootLoop C fuel peaks := by
  induction fuel generalizing peaks with
  | zero => rfl
  | succ fuel ih =>
    rw [rootLoopNoted, rootLoop]
    split_ifs
    · simp [ih]
    · rfl

@[simp] theorem outcome_getRootNoted (C : Crypto) (m : MMR) :
    (m.getRootNoted C).outcome = m.getRoot C := by
  unfold getRootNoted getRoot getRootInternal rootOfPeaks
  split_ifs
  · rfl
  · rfl
  · simp only [Noted.outcome_bind, outcome_rootLoopNoted, Noted.outcome_lift]
    rfl

@[simp] theorem outcome_finalizeSetNoted (C : Crypto) (m : MMR) :
    (m.finalizeSetNoted C).outcome = m.finalizeSet C := by
  simp [finalizeSetNoted, finalizeSet]

@[simp] theorem outcome_setPeaksNoted (m : MMR) (peaks : List MMREntry) :
    (m.setPeaksNoted peaks).outcome = m.setPeaks peaks := by
  induction peaks generalizing m with
  | nil => rfl
  | cons peak peaks ih => simp [setPeaksNoted, setPeaks, ih]

@[simp] theorem outcome_calculateEntryNumberFromPeaksNoted (m : MMR) :
    m.calculateEntryNumberFromPeaksNoted.outcome = m.calculateEntryNumberFromPeaks := by
  simp [calculateEntryNumberFromPeaksNoted, calculateEntryNumberFromPeaks]

@[simp] theorem outcome_updateLoopNoted (C : Crypto) (A : Ancestry) (peaks : List MMREntry)
    (proof : MMRProof) (fuel i : ℕ) (m : MMR) (x : MMREntry) :
    (updateLoopNoted C A peaks proof fuel i m x).outcome = updateLoop C A peaks proof fuel i m x := by
  induction fuel generalizing i m x with
  | zero => rfl
  | succ fuel ih =>
    rw [updateLoopNoted, updateLoop]
    split_ifs
    · rfl
    · simp [ih]

@[simp] theorem outcome_updateEntryNoted (C : Crypto) (A : Ancestry) (m : MMR) (e : MMREntryNumber)
    (proof : MMRProof) (d : MMRData) :
    (updateEntryNoted C A m e proof d).outcome = updateEntry C A m e proof d := by
  simp [updateEntryNoted, updateEntry]

theorem outcome_readEntriesNoted (n : ℕ) (m : MMR) (s : List Byte) :
    (readEntriesNoted n m s).outcome = (readEntries n m s).1 := by
  induction n generalizing m s with
  | zero => rfl
  | succ n ih =>
    simp only [readEntriesNoted, readEntries, bind, Reader.lift]
    rcases MMREntry.readDataStream s with ⟨e | entry, rest⟩
    · rfl
    · cases hd : entry.getMMRData with
      | error e => simp [hd]
      | ok d =>
        cases hset : m.setEntry entry.row entry.entryNumber d with
        | error e => simp [hd, hset]
        | ok set => simp [hd, hset, ih]

/-- **Reading a stream** with notes reads what reading it reads. -/
@[simp] theorem outcome_readDataStreamNoted (C : Crypto) (s : List Byte) :
    (readDataStreamNoted C s).outcome = (readDataStream C s).1 := by
  have hread : readDataStream C = readHeader >>= fun header =>
      readEntries header.2.toNat header.1 >>= fun m => Reader.lift (m.finalizeSet C) := by
    simp only [readDataStream, readHeader, bind_assoc, pure_bind]
  rw [hread, readDataStreamNoted]
  simp only [bind, Reader.lift]
  rcases readHeader s with ⟨e | ⟨m, len⟩, rest⟩
  · rfl
  · simp only [outcome_readEntriesNoted]
    rcases readEntries len.toNat m rest with ⟨e | m', rest'⟩
    · rfl
    · simp

end MMR

end Minima
