import Minima.Kissvm.HexFunctions
import Minima.Lib.FlagBytes

/-! # Functions on bits

`BITSET` and `BITGET` take a byte string for an array of flags. `BITSET` cuts the zero bytes at the end
of its result off, so that the array can get shorter; the flags that go with them are down.

* **`HexFunction.bitset`**, **`bitget`** — the functions.
* **`HexFunction.bit_updates`** — any number of updates. -/

namespace Minima.Kissvm

open FlagBytes

namespace Routine

/-- `getBoolParam`. -/
def getBoolParam {tries : Bool} {n : ℕ} (zParamNumber : ℕ) (next : Bool → Routine tries n) :
    Routine tries (n + 1) :=
  ask zParamNumber fun
    | .boolean b => next b
    | _ => throwExecution "Incorrect Parameter type - should be BooleanValue @ "

theorem evaluate_getBoolParam {tries : Bool} {n : ℕ} (run : Text → Scripted Variables)
    {values : List Value} (vars : Variables) {i : ℕ} {b : Bool} (next : Bool → Routine tries n)
    (h : values[i]? = some (.boolean b)) :
    evaluate run values vars (getBoolParam i next) = evaluate run values vars (next b) :=
  evaluate_ask run vars _ h

end Routine

namespace HexFunction

/-- `BITSET` behind its parameters. The zero bytes at the end are cut off, as `BitSet.toByteArray`
does. -/
def bitsetBytes (data : MiniData) (bit : ℤ) (set : Bool) : Scripted Value :=
  let byteIndex := bit.toNat / 8
  let bitIndex := bit.toNat % 8
  let mask : Byte := UInt8.ofNat (1 <<< bitIndex)
  let byte := data.bytes.getD byteIndex 0
  let data := data.bytes.set byteIndex (if set then byte ||| mask else byte &&& ~~~mask)
  Value.hexValue ⟨trimEnd data⟩

/-- `BITSET::runFunction`. The bit is checked before the flag is asked for. -/
def bitset : ℕ → Call :=
  .exactly 3 <| show Routine false 3 from
    .getHexParam 0 fun data =>
      let totbits : ℤ := data.getLength * 8 - 1
      .getNumberParam 1 fun bit =>
        if bit.getAsInt < 0 ∨ totbits < bit.getAsInt then .throwExecution "BitSet too large "
        else .getBoolParam 2 fun set => .answer fun _ => bitsetBytes data bit.getAsInt set

/-- `BITGET::runFunction`. -/
def bitget : ℕ → Call :=
  .exactly 2 <| show Routine false 2 from
    .getHexParam 0 fun data =>
      let totbits : ℤ := data.getLength * 8 - 1
      .getNumberParam 1 fun bit =>
        if bit.getAsInt < 0 ∨ totbits < bit.getAsInt then .throwExecution "BitGet too large "
        else .answer fun _ =>
          let ubyte := (data.bytes.getD (bit.getAsInt.toNat / 8) 0).toNat
          .ok (.boolean ((ubyte >>> (bit.getAsInt.toNat % 8)) &&& 1 ≠ 0))

/-- The position is one of the bits of the byte string. -/
def Lies (bit : MiniNumber) (data : MiniData) : Prop :=
  0 ≤ bit.getAsInt ∧ bit.getAsInt < 8 * data.getLength

instance (bit : MiniNumber) (data : MiniData) : Decidable (Lies bit data) :=
  inferInstanceAs (Decidable (_ ∧ _))

/-! ## One update -/

section

variable (run : Text → Scripted Variables) (vars : Variables)

/-- What `BITSET` makes of a byte string, a position and a flag. -/
def bitsetOf (data : MiniData) (bit : MiniNumber) (set : Bool) : Scripted Value :=
  (bitset 3).evaluate run [.hex data, .number bit, .boolean set] vars

/-- What `BITGET` makes of a byte string and a position. -/
def bitgetOf (data : MiniData) (bit : MiniNumber) : Scripted Value :=
  (bitget 2).evaluate run [.hex data, .number bit] vars

variable {data : MiniData} {bit : MiniNumber}

/-- A bit, as it is shifted out of a byte. -/
theorem decide_shiftRight_and_one (x k : ℕ) : decide ((x >>> k) &&& 1 ≠ 0) = x.testBit k := by
  rw [Nat.testBit, Nat.and_comm]
  exact Bool.eq_iff_iff.mpr (by rw [decide_eq_true_iff, bne_iff_ne])

/-- **`BITGET` reads a flag.** -/
theorem bitgetOf_lies (h : Lies bit data) :
    bitgetOf run vars data bit = .ok (.boolean (flag data.bytes bit.getAsInt.toNat)) := by
  obtain ⟨h1, h2⟩ := h
  rw [bitgetOf, bitget, Call.evaluate_exactly, Routine.evaluate_getHexParam _ _ _ rfl,
    Routine.evaluate_getNumberParam _ _ _ rfl, if_neg (by omega), Routine.evaluate_answer]
  exact congrArg (fun b => Except.ok (Value.boolean b)) (decide_shiftRight_and_one _ _)

theorem bitgetOf_not_lies (h : ¬ Lies bit data) :
    bitgetOf run vars data bit = .error (.execution "BitGet too large ") := by
  unfold Lies at h
  rw [bitgetOf, bitget, Call.evaluate_exactly, Routine.evaluate_getHexParam _ _ _ rfl,
    Routine.evaluate_getNumberParam _ _ _ rfl, if_pos (by omega), Routine.evaluate_throwExecution]

/-- **`BITSET` sets a flag** and cuts the zero bytes at the end off. -/
theorem bitsetOf_lies (hdata : data.getLength ≤ Value.maxDataSize) (h : Lies bit data) (set : Bool) :
    bitsetOf run vars data bit set
      = .ok (.hex ⟨trimEnd (setFlag data.bytes bit.getAsInt.toNat set)⟩) := by
  obtain ⟨h1, h2⟩ := h
  rw [bitsetOf, bitset, Call.evaluate_exactly, Routine.evaluate_getHexParam _ _ _ rfl,
    Routine.evaluate_getNumberParam _ _ _ rfl, if_neg (by omega),
    Routine.evaluate_getBoolParam _ _ _ rfl, Routine.evaluate_answer]
  refine hexValue_of_le (le_trans ?_ hdata)
  exact (length_trimEnd_le _).trans (length_setFlag ..).le

theorem bitsetOf_not_lies (h : ¬ Lies bit data) (set : Bool) :
    bitsetOf run vars data bit set = .error (.execution "BitSet too large ") := by
  unfold Lies at h
  rw [bitsetOf, bitset, Call.evaluate_exactly, Routine.evaluate_getHexParam _ _ _ rfl,
    Routine.evaluate_getNumberParam _ _ _ rfl, if_pos (by omega), Routine.evaluate_throwExecution]

/-- The flags behind one update. -/
theorem flag_bitset (h : Lies bit data) (set : Bool) :
    flag (trimEnd (setFlag data.bytes bit.getAsInt.toNat set))
      = Function.update (flag data.bytes) bit.getAsInt.toNat set := by
  obtain ⟨h1, h2⟩ := h
  have hlt : bit.getAsInt.toNat < 8 * data.bytes.length := by
    have hlen : data.getLength = data.bytes.length := rfl
    omega
  rw [flag_trimEnd, flag_setFlag set hlt]

/-! ## Any number of updates -/

/-- `BITSET` with one position and flag behind the other. -/
def bitsetAll (data : MiniData) : List (MiniNumber × Bool) → Scripted MiniData
  | [] => .ok data
  | (bit, set) :: updates =>
    match bitsetOf run vars data bit set with
    | .ok (.hex data) => bitsetAll data updates
    | .ok _ => .error (.execution "Incorrect Parameter type - should be HEXValue @ ")
    | .error e => .error e

/-- The same updates of an array of flags. -/
def updateAll (flags : ℕ → Bool) (updates : List (MiniNumber × Bool)) : ℕ → Bool :=
  updates.foldl (fun flags u => Function.update flags u.1.getAsInt.toNat u.2) flags

/-- **Any number of updates** sets the flags as it does in an array, unless one of them is outside of
the byte string that it meets. -/
theorem bitsetAll_spec (hdata : data.getLength ≤ Value.maxDataSize)
    (updates : List (MiniNumber × Bool)) :
    (∃ data', bitsetAll run vars data updates = .ok data' ∧ data'.getLength ≤ data.getLength ∧
      flag data'.bytes = updateAll (flag data.bytes) updates) ∨
    ∃ done u rest data' what, updates = done ++ u :: rest ∧
      bitsetAll run vars data done = .ok data' ∧ ¬ Lies u.1 data' ∧
      bitsetAll run vars data updates = .error (.execution what) := by
  induction updates generalizing data with
  | nil => exact .inl ⟨data, rfl, le_rfl, rfl⟩
  | cons u updates ih =>
    obtain ⟨bit, set⟩ := u
    by_cases h : Lies bit data
    · have hset := bitsetOf_lies run vars hdata h set
      generalize hnext : MiniData.mk (trimEnd (setFlag data.bytes bit.getAsInt.toNat set)) = next
        at hset
      have hlength : next.getLength ≤ data.getLength := by
        rw [← hnext]
        exact (length_trimEnd_le _).trans (length_setFlag ..).le
      have hflags : flag next.bytes = Function.update (flag data.bytes) bit.getAsInt.toNat set := by
        rw [← hnext]
        exact flag_bitset h set
      have hstep : ∀ us, bitsetAll run vars data ((bit, set) :: us) = bitsetAll run vars next us :=
        fun us => by rw [bitsetAll, hset]
      rw [hstep]
      rcases ih (hlength.trans hdata) with ⟨data', hall, hle, hflag⟩ |
        ⟨done, u, rest, data', what, hsplit, hdone, hout, herr⟩
      · refine .inl ⟨data', hall, hle.trans hlength, ?_⟩
        rw [hflag, hflags]
        rfl
      · refine .inr ⟨(bit, set) :: done, u, rest, data', what, ?_, ?_, hout, herr⟩
        · rw [hsplit, List.cons_append]
        · rw [hstep, hdone]
    · refine .inr ⟨[], (bit, set), updates, data, "BitSet too large ", rfl, rfl, h, ?_⟩
      rw [bitsetAll, bitsetOf_not_lies run vars h]

/-- **`BITSET` and `BITGET` are an array of flags** whose length is cut back to its last byte that is
not zero: the flags that are cut off are down. -/
theorem bit_updates (hdata : data.getLength ≤ Value.maxDataSize) (i j : MiniNumber) (b : Bool)
    (hi : Lies i data) (hj : Lies j data) (updates : List (MiniNumber × Bool)) :
    (∃ data' old, bitsetOf run vars data i b = .ok (.hex data') ∧
      bitgetOf run vars data j = .ok (.boolean old) ∧
      data' = ⟨trimEnd (setFlag data.bytes i.getAsInt.toNat b)⟩ ∧
      data'.getLength ≤ data.getLength ∧
      (data'.getLength = data.getLength ↔
        (setFlag data.bytes i.getAsInt.toNat b).getLast? ≠ some 0) ∧
      (Lies j data' → bitgetOf run vars data' j
        = .ok (.boolean (if j.getAsInt = i.getAsInt then b else old))) ∧
      (¬ Lies j data' → (∃ what, bitgetOf run vars data' j = .error (.execution what)) ∧
        (if j.getAsInt = i.getAsInt then b else old) = false)) ∧
    ((∃ data', bitsetAll run vars data updates = .ok data' ∧ data'.getLength ≤ data.getLength ∧
        ∀ k : MiniNumber, 0 ≤ k.getAsInt →
          if Lies k data' then bitgetOf run vars data' k
            = .ok (.boolean (updateAll (flag data.bytes) updates k.getAsInt.toNat))
          else updateAll (flag data.bytes) updates k.getAsInt.toNat = false) ∨
      ∃ done u rest data' what, updates = done ++ u :: rest ∧
        bitsetAll run vars data done = .ok data' ∧ ¬ Lies u.1 data' ∧
        bitsetAll run vars data updates = .error (.execution what)) := by
  have hbehind : ∀ (d : MiniData) (k : MiniNumber), 0 ≤ k.getAsInt → ¬ Lies k d →
      flag d.bytes k.getAsInt.toNat = false := by
    intro d k hk hout
    refine flag_eq_false ?_
    have hlen : d.getLength = d.bytes.length := rfl
    unfold Lies at hout
    omega
  constructor
  · have hflags := congrFun (flag_bitset hi b) j.getAsInt.toNat
    have hnew : Function.update (flag data.bytes) i.getAsInt.toNat b j.getAsInt.toNat
        = if j.getAsInt = i.getAsInt then b else flag data.bytes j.getAsInt.toNat := by
      rw [Function.update_apply]
      refine if_congr ?_ rfl rfl
      have h1 := hi.1
      have h2 := hj.1
      omega
    rw [hnew] at hflags
    refine ⟨_, _, bitsetOf_lies run vars hdata hi b, bitgetOf_lies run vars hj, rfl, ?_, ?_, ?_, ?_⟩
    · exact (length_trimEnd_le _).trans (length_setFlag ..).le
    · rw [← length_trimEnd_eq_iff, length_setFlag]
      rfl
    · intro hin
      rw [bitgetOf_lies run vars hin, hflags]
    · intro hout
      exact ⟨⟨_, bitgetOf_not_lies run vars hout⟩, hflags ▸ hbehind _ j hj.1 hout⟩
  · refine (bitsetAll_spec run vars hdata updates).imp_left ?_
    rintro ⟨data', hall, hle, hflag⟩
    refine ⟨data', hall, hle, fun k hk => ?_⟩
    split_ifs with hin
    · rw [bitgetOf_lies run vars hin, hflag]
    · rw [← hflag]
      exact hbehind data' k hk hin

end

/-- The first flag of a byte put up, and the second read. -/
theorem bit_updates_instance :
    ∃ data' old, bitsetOf (fun _ => .error (.execution "")) (fun _ => none) ⟨[4]⟩ ⟨0, 0⟩ true
        = .ok (.hex data') ∧
      bitgetOf (fun _ => .error (.execution "")) (fun _ => none) ⟨[4]⟩ ⟨1, 0⟩ = .ok (.boolean old) := by
  obtain ⟨data', old, hset, hget, -⟩ := (bit_updates (fun _ => .error (.execution ""))
    (fun _ => none) (by decide : MiniData.getLength ⟨[4]⟩ ≤ Value.maxDataSize) ⟨0, 0⟩ ⟨1, 0⟩ true
    (by decide) (by decide) [(⟨2, 0⟩, false)]).1
  exact ⟨data', old, hset, hget⟩

/-- The last one bit put down leaves no byte. -/
theorem bitset_last_bit :
    ¬ ∃ data', bitsetOf (fun _ => .error (.execution "")) (fun _ => none) ⟨[1]⟩ ⟨0, 0⟩ false
      = .ok (.hex data') ∧ data'.getLength = 1 := by
  rw [bitsetOf_lies _ _ (by decide) (by decide)]
  rintro ⟨data', h, hlen⟩
  rw [← Value.hex.inj (Except.ok.inj h)] at hlen
  exact absurd hlen (by decide)

end HexFunction

end Minima.Kissvm
