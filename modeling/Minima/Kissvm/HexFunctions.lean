import Minima.Kissvm.Evaluation
import Minima.Kissvm.HexOperators

/-! # Functions on ranges of a byte string

`SUBSET`, `OVERWRITE` and `SETLEN` copy ranges of byte strings. Their positions are numbers of the
script, clamped to an `int`; sums of them wrap around.

* **`HexFunction.subset`**, **`overwrite`**, **`setlen`** — the functions.
* **`HexFunction.hex_ranges_contained_iff`** — when they keep to their operands. -/

namespace Minima.Kissvm

open OperatorExpression (copyTo)

namespace HexFunction

/-! ## Ranges -/

/-- `std::copy` of `len` bytes from position `srcpos` on to position `destpos` on: undefined if it
leaves one of the vectors. -/
def copyRange (src : List Byte) (srcpos len : ℤ) (dest : List Byte) (destpos : ℤ) :
    Scripted (List Byte) :=
  if len = 0 then .ok dest
  else if 0 < len ∧ (0 ≤ srcpos ∧ srcpos + len ≤ src.length) ∧
      (0 ≤ destpos ∧ destpos + len ≤ dest.length) then
    .ok (copyTo ((src.drop srcpos.toNat).take len.toNat) destpos.toNat dest)
  else .error (.undefined "std::copy outside of a vector")

/-- `OVERWRITE` behind its parameters. -/
def overwriteBytes (src : MiniData) (srcpos : ℤ) (destorig : MiniData) (destpos len : ℤ) :
    Scripted Value :=
  let destlen : ℤ := destorig.getLength
  if destlen < Machine.addInt destpos len then
    .error (.execution "OVERWRITE destination array too short")
  else if (src.getLength : ℤ) < Machine.addInt srcpos len then
    .error (.execution "OVERWRITE src array too short")
  else if len < 0 then .error (.execution "Cannot have negative length ")
  else do
    let destbytes ← copyRange src.bytes srcpos len destorig.bytes destpos
    Value.hexValue ⟨destbytes⟩

/-- `OVERWRITE::runFunction`. -/
def overwrite : ℕ → Call :=
  .exactly 5 <| show Routine false 5 from
    .getHexParam 0 fun src => .getNumberParam 1 fun srcpos => .getHexParam 2 fun destorig =>
      .getNumberParam 3 fun destpos => .getNumberParam 4 fun len =>
        .answer fun _ => overwriteBytes src srcpos.getAsInt destorig destpos.getAsInt len.getAsInt

/-- The last part of `SUBSET`: the range of the data. -/
def subsetBytes (start «end» len : ℤ) (orig : MiniData) : Scripted Value :=
  let origlen : ℤ := orig.getLength
  if start < 0 ∨ origlen < start then
    .error (.execution "SUBSET start outside size of data array ")
  else if «end» < 0 ∨ origlen < «end» then
    .error (.execution "SUBSET end outside size of data array ")
  else do
    let subs ← copyRange orig.bytes start len (List.replicate len.toNat 0) 0
    Value.hexValue ⟨subs⟩

/-- `SUBSET::runFunction`. The length is checked before the data is asked for. -/
def subset : ℕ → Call :=
  .exactly 3 <| show Routine false 3 from
    .getNumberParam 0 fun start => .getNumberParam 1 fun «end» =>
      let len := Machine.addInt «end».getAsInt (-start.getAsInt)
      if len < 0 then .throwExecution "Negative SUBSET length "
      else if (Value.maxDataSize : ℤ) < len then .throwExecution "SUBSET size too large "
      else .getHexParam 2 fun orig =>
        .answer fun _ => subsetBytes start.getAsInt «end».getAsInt len orig

/-- The last part of `SETLEN`: the last bytes of the data, or zeros in front of it. -/
def setlenBytes (newlen : ℤ) (orig : MiniData) : Scripted Value :=
  let origlen : ℤ := orig.getLength
  let newarray := List.replicate newlen.toNat 0
  if newlen = origlen then Value.hexValue orig
  else if newlen < origlen then do
    let newarray ← copyRange orig.bytes (origlen - newlen) newlen newarray 0
    Value.hexValue ⟨newarray⟩
  else do
    let newarray ← copyRange orig.bytes 0 origlen newarray (newlen - origlen)
    Value.hexValue ⟨newarray⟩

/-- `SETLEN::runFunction`. -/
def setlen : ℕ → Call :=
  .exactly 2 <| show Routine false 2 from
    .getNumberParam 0 fun newlen =>
      if newlen.getAsInt < 1 ∨ (Value.maxDataSize : ℤ) < newlen.getAsInt then
        .throwExecution "SETLEN size MUST be > 0 and < "
      else .getHexParam 1 fun orig => .answer fun _ => setlenBytes newlen.getAsInt orig

/-! ## What the copies do -/

section

variable {src dest : List Byte} {pos k : ℕ}

theorem length_copyTo (h : pos + src.length ≤ dest.length) :
    (copyTo src pos dest).length = dest.length := by
  rw [copyTo, List.length_append, List.length_append, List.length_take, List.length_drop]
  omega

/-- A copy shows inside its range only. -/
theorem getElem?_copyTo (h : pos + src.length ≤ dest.length) :
    (copyTo src pos dest)[k]?
      = if pos ≤ k ∧ k < pos + src.length then src[k - pos]? else dest[k]? := by
  have htake : (dest.take pos).length = pos := by
    rw [List.length_take]
    omega
  rw [copyTo, List.append_assoc, List.getElem?_append, htake]
  split_ifs with hfront hin hin
  · omega
  · rw [List.getElem?_take_of_lt hfront]
  · rw [List.getElem?_append_left (by omega)]
  · rw [List.getElem?_append_right (by omega), List.getElem?_drop]
    congr 1
    omega

end

/-- The range `[pos, pos + len)` lies inside so many bytes. -/
def Inside (pos len : ℤ) (n : ℕ) : Prop := 0 ≤ pos ∧ pos + len ≤ n

instance (pos len : ℤ) (n : ℕ) : Decidable (Inside pos len n) := inferInstanceAs (Decidable (_ ∧ _))

/-- The bytes are those of the destination, with a range of the source in them. -/
structure Overwritten (src : List Byte) (srcpos : ℤ) (dest : List Byte) (destpos len : ℤ)
    (result : List Byte) : Prop where
  inside : len = 0 ∨ Inside srcpos len src.length ∧ Inside destpos len dest.length
  length : result.length = dest.length
  slice : ∀ k : ℕ, destpos ≤ k → k < destpos + len →
    result[k]? = src[(srcpos + (k - destpos)).toNat]?
  elsewhere : ∀ k : ℕ, ¬ (destpos ≤ k ∧ k < destpos + len) → result[k]? = dest[k]?

/-- A copy of nothing. -/
theorem overwritten_zero (src dest : List Byte) (srcpos destpos : ℤ) :
    Overwritten src srcpos dest destpos 0 dest where
  inside := .inl rfl
  length := rfl
  slice k h1 h2 := absurd h2 (by omega)
  elsewhere _ _ := rfl

/-- **A copy between two ranges inside** their vectors. -/
theorem copyRange_overwritten (src dest : List Byte) (srcpos destpos : ℤ) {len : ℤ} (hlen : 0 < len)
    (hsrc : Inside srcpos len src.length) (hdest : Inside destpos len dest.length) :
    ∃ result, copyRange src srcpos len dest destpos = .ok result ∧
      Overwritten src srcpos dest destpos len result := by
  obtain ⟨hsrc0, hsrc1⟩ := hsrc
  obtain ⟨hdest0, hdest1⟩ := hdest
  have hpart : ((src.drop srcpos.toNat).take len.toNat).length = len.toNat := by
    rw [List.length_take, List.length_drop]
    omega
  have hfits : destpos.toNat + ((src.drop srcpos.toNat).take len.toNat).length ≤ dest.length := by
    rw [hpart]
    omega
  refine ⟨copyTo ((src.drop srcpos.toNat).take len.toNat) destpos.toNat dest, ?_, ?_, ?_, ?_, ?_⟩
  · rw [copyRange, if_neg hlen.ne', if_pos ⟨hlen, ⟨hsrc0, hsrc1⟩, hdest0, hdest1⟩]
  · exact .inr ⟨⟨hsrc0, hsrc1⟩, hdest0, hdest1⟩
  · exact length_copyTo hfits
  · intro k hk hk'
    rw [getElem?_copyTo hfits, hpart, if_pos (by omega), List.getElem?_take_of_lt (by omega),
      List.getElem?_drop]
    congr 1
    omega
  · intro k hk
    rw [getElem?_copyTo hfits, hpart, if_neg (by omega)]

/-- A copy that leaves one of its vectors. -/
theorem copyRange_undefined {src dest : List Byte} {srcpos destpos len : ℤ} (hlen : len ≠ 0)
    (h : ¬ (Inside srcpos len src.length ∧ Inside destpos len dest.length)) :
    copyRange src srcpos len dest destpos = .error (.undefined "std::copy outside of a vector") := by
  rw [copyRange, if_neg hlen, if_neg (fun hin => h hin.2)]

theorem hexValue_of_le {d : MiniData} (h : d.getLength ≤ Value.maxDataSize) :
    Value.hexValue d = .ok (.hex d) := by
  rw [Value.hexValue, if_neg (Nat.not_lt.mpr h)]

/-- A function on byte strings has thrown an `ExecutionException`, or it has a byte string with this
property. -/
def Contained (r : Scripted Value) (P : MiniData → Prop) : Prop :=
  (∃ what, r = .error (.execution what)) ∨ ∃ d, r = .ok (.hex d) ∧ P d

theorem not_contained_undefined {what : String} {P : MiniData → Prop} :
    ¬ Contained (.error (.undefined what)) P := by
  rintro (⟨_, h⟩ | ⟨_, h, _⟩) <;> cases h

theorem addInt_eq {a b : ℤ} (h1 : -2 ^ 31 ≤ a + b) (h2 : a + b < 2 ^ 31) :
    Machine.addInt a b = a + b :=
  Int.bmod_eq_of_le (by omega) (by omega)

/-- `getAsInt` is an `int`. -/
theorem getAsInt_ge (x : MiniNumber) : -2 ^ 31 ≤ x.getAsInt := le_max_left _ _

/-! ## The functions that copy -/

/-- The bytes are the range `[start, end)` of the data, and it lies inside. -/
structure IsRange (orig : List Byte) (start «end» : ℤ) (result : List Byte) : Prop where
  inside : 0 ≤ start ∧ start ≤ «end» ∧ «end» ≤ orig.length
  length : (result.length : ℤ) = «end» - start
  bytes : ∀ k < result.length, result[k]? = orig[start.toNat + k]?

/-- The bytes are the last ones of the data, with zeros in front if there are not enough. -/
structure IsResized (orig : List Byte) (newlen : ℤ) (result : List Byte) : Prop where
  length : (result.length : ℤ) = newlen
  bytes : ∀ k < result.length, result[k]? =
    if k + orig.length < result.length then some 0 else orig[k + orig.length - result.length]?

/-- **`SUBSET` copies a range inside its data**, or throws. -/
theorem subset_contained (run : Text → Scripted Variables) (vars : Variables)
    (start «end» : MiniNumber) (orig : MiniData) :
    Contained ((subset 3).evaluate run [.number start, .number «end», .hex orig] vars) fun d =>
      IsRange orig.bytes start.getAsInt «end».getAsInt d.bytes := by
  rw [subset, Call.evaluate_exactly, Routine.evaluate_getNumberParam _ _ _ rfl,
    Routine.evaluate_getNumberParam _ _ _ rfl]
  have hs1 := getAsInt_ge start
  have hs2 := start.getAsInt_lt
  have he1 := getAsInt_ge «end»
  have he2 := «end».getAsInt_lt
  generalize hs : start.getAsInt = s at hs1 hs2
  generalize he : «end».getAsInt = e at he1 he2
  dsimp only
  split_ifs with hneg hlarge
  · exact .inl ⟨_, Routine.evaluate_throwExecution ..⟩
  · exact .inl ⟨_, Routine.evaluate_throwExecution ..⟩
  rw [Routine.evaluate_getHexParam _ _ _ rfl, Routine.evaluate_answer, subsetBytes]
  split_ifs with hstart hend
  · exact .inl ⟨_, rfl⟩
  · exact .inl ⟨_, rfl⟩
  have hlen : Machine.addInt e (-s) = e - s := addInt_eq (by omega) (by omega)
  rw [hlen] at hneg hlarge ⊢
  have horig : orig.getLength = orig.bytes.length := rfl
  rw [horig] at hstart hend
  have hle : s ≤ e := by omega
  rcases eq_or_lt_of_le hle with rfl | hlt
  · have hcopy : copyRange orig.bytes s (s - s) (List.replicate (s - s).toNat 0) 0 = .ok [] := by
      rw [sub_self]
      rfl
    rw [hcopy]
    have hnone : MiniData.getLength ⟨[]⟩ ≤ Value.maxDataSize := Nat.zero_le _
    exact .inr ⟨⟨[]⟩, hexValue_of_le hnone, by omega, (sub_self s).symm,
      fun k hk => absurd hk (Nat.not_lt_zero k)⟩
  · obtain ⟨subs, hcopy, hsubs⟩ := copyRange_overwritten orig.bytes
      (List.replicate (e - s).toNat 0) s 0 (by omega : 0 < e - s) ⟨by omega, by omega⟩
     
      ⟨le_rfl, by rw [List.length_replicate]; omega⟩
    have hlength := hsubs.length
    rw [List.length_replicate] at hlength
    have hrange : IsRange orig.bytes s e subs := by
      refine ⟨by omega, by omega, fun k hk => ?_⟩
      rw [hsubs.slice k (by omega) (by omega)]
      congr 1
      omega
    rw [hcopy]
    refine .inr ⟨⟨subs⟩, hexValue_of_le ?_, hrange⟩
    show subs.length ≤ _
    omega

/-- **`SETLEN` has as many bytes as it was asked for**, or throws. -/
theorem setlen_contained (run : Text → Scripted Variables) (vars : Variables) (newlen : MiniNumber)
    {orig : MiniData} (horig : orig.getLength ≤ Value.maxDataSize) :
    Contained ((setlen 2).evaluate run [.number newlen, .hex orig] vars) fun d =>
      IsResized orig.bytes newlen.getAsInt d.bytes := by
  rw [setlen, Call.evaluate_exactly, Routine.evaluate_getNumberParam _ _ _ rfl]
  generalize newlen.getAsInt = n
  split_ifs with hn
  · exact .inl ⟨_, Routine.evaluate_throwExecution ..⟩
  rw [Routine.evaluate_getHexParam _ _ _ rfl, Routine.evaluate_answer, setlenBytes]
  have horiglen : orig.getLength = orig.bytes.length := rfl
  rw [horiglen] at horig ⊢
  split_ifs with heq hlt
  · refine .inr ⟨orig, hexValue_of_le horig, heq.symm, fun k hk => ?_⟩
    rw [if_neg (by omega), Nat.add_sub_cancel]
  · -- the last bytes of the data
    obtain ⟨newarray, hcopy, hnew⟩ := copyRange_overwritten orig.bytes (List.replicate n.toNat 0)
      (orig.bytes.length - n) 0 (by omega : 0 < n) ⟨by omega, by omega⟩ ⟨le_rfl, by rw [List.length_replicate]; omega⟩
    have hlength := hnew.length
    rw [List.length_replicate] at hlength
    have hresized : IsResized orig.bytes n newarray := by
      refine ⟨by omega, fun k hk => ?_⟩
      rw [if_neg (by omega), hnew.slice k (by omega) (by omega)]
      congr 1
      omega
    rw [hcopy]
    refine .inr ⟨⟨newarray⟩, hexValue_of_le ?_, hresized⟩
    show newarray.length ≤ _
    omega
  · -- the data behind zeros
    have hfill : ∃ newarray, copyRange orig.bytes 0 orig.bytes.length (List.replicate n.toNat 0)
        (n - orig.bytes.length) = .ok newarray ∧
        Overwritten orig.bytes 0 (List.replicate n.toNat 0) (n - orig.bytes.length)
          orig.bytes.length newarray := by
      rcases Nat.eq_zero_or_pos orig.bytes.length with hzero | hpos
      · rw [hzero]
        exact ⟨_, rfl, overwritten_zero ..⟩
      · exact copyRange_overwritten _ _ _ _ (by omega) ⟨le_rfl, by omega⟩
          ⟨by omega, by rw [List.length_replicate]; omega⟩
    obtain ⟨newarray, hcopy, hnew⟩ := hfill
    have hlength := hnew.length
    rw [List.length_replicate] at hlength
    have hresized : IsResized orig.bytes n newarray := by
      refine ⟨by omega, fun k hk => ?_⟩
      split_ifs with hfront
      · rw [hnew.elsewhere k (by omega), List.getElem?_replicate, if_pos (by omega)]
      · rw [hnew.slice k (by omega) (by omega)]
        congr 1
        omega
    rw [hcopy]
    refine .inr ⟨⟨newarray⟩, hexValue_of_le ?_, hresized⟩
    show newarray.length ≤ _
    omega

/-- The checks of `OVERWRITE` refuse the positions. -/
def OverwriteRefused (srclen : ℕ) (srcpos : ℤ) (destlen : ℕ) (destpos len : ℤ) : Prop :=
  (destlen : ℤ) < Machine.addInt destpos len ∨ (srclen : ℤ) < Machine.addInt srcpos len ∨ len < 0

/-- No position is negative, and no sum leaves an `int`. -/
def OverwriteBounded (srcpos destpos len : ℤ) : Prop :=
  0 ≤ srcpos ∧ 0 ≤ destpos ∧ srcpos + len < 2 ^ 31 ∧ destpos + len < 2 ^ 31

/-- **`OVERWRITE` keeps to its operands** exactly when its checks refuse the positions, nothing is
copied, or no position is negative and no sum wraps around. -/
theorem overwrite_contained_iff (run : Text → Scripted Variables) (vars : Variables) {src dest : MiniData}
    (hsrc : src.getLength ≤ Value.maxDataSize) (hdest : dest.getLength ≤ Value.maxDataSize)
    (srcpos destpos len : MiniNumber) :
    Contained ((overwrite 5).evaluate run
        [.hex src, .number srcpos, .hex dest, .number destpos, .number len] vars)
      (fun d => Overwritten src.bytes srcpos.getAsInt dest.bytes destpos.getAsInt len.getAsInt d.bytes) ↔
    OverwriteRefused src.getLength srcpos.getAsInt dest.getLength destpos.getAsInt len.getAsInt ∨
      len.getAsInt = 0 ∨ OverwriteBounded srcpos.getAsInt destpos.getAsInt len.getAsInt := by
  rw [overwrite, Call.evaluate_exactly, Routine.evaluate_getHexParam _ _ _ rfl,
    Routine.evaluate_getNumberParam _ _ _ rfl, Routine.evaluate_getHexParam _ _ _ rfl,
    Routine.evaluate_getNumberParam _ _ _ rfl, Routine.evaluate_getNumberParam _ _ _ rfl,
    Routine.evaluate_answer, overwriteBytes]
  have hs1 := getAsInt_ge srcpos
  have hs2 := srcpos.getAsInt_lt
  have hp1 := getAsInt_ge destpos
  have hp2 := destpos.getAsInt_lt
  have hn2 := len.getAsInt_lt
  generalize srcpos.getAsInt = s at hs1 hs2 ⊢
  generalize destpos.getAsInt = p at hp1 hp2 ⊢
  generalize len.getAsInt = n at hn2 ⊢
  unfold OverwriteRefused
  split_ifs with h1 h2 h3
  · exact iff_of_true (.inl ⟨_, rfl⟩) (.inl (.inl h1))
  · exact iff_of_true (.inl ⟨_, rfl⟩) (.inl (.inr (.inl h2)))
  · exact iff_of_true (.inl ⟨_, rfl⟩) (.inl (.inr (.inr h3)))
  have hrefused : ¬ ((dest.getLength : ℤ) < Machine.addInt p n ∨
      (src.getLength : ℤ) < Machine.addInt s n ∨ n < 0) := by tauto
  rw [or_iff_right hrefused]
  have hsrclen : src.getLength = src.bytes.length := rfl
  have hdestlen : dest.getLength = dest.bytes.length := rfl
  rw [hsrclen] at h2 hsrc
  rw [hdestlen] at h1 hdest
  by_cases hzero : n = 0
  · rw [hzero]
    exact iff_of_true (.inr ⟨dest, hexValue_of_le hdest, overwritten_zero ..⟩) (.inl rfl)
  rw [or_iff_right hzero]
  by_cases hin : Inside s n src.bytes.length ∧ Inside p n dest.bytes.length
  · obtain ⟨result, hcopy, hresult⟩ := copyRange_overwritten _ _ _ _ (by omega) hin.1 hin.2
    rw [hcopy]
    refine iff_of_true (.inr ⟨⟨result⟩, hexValue_of_le ?_, hresult⟩) ?_
    · show result.length ≤ _
      rw [hresult.length]
      exact hdest
    · obtain ⟨⟨hin1, hin2⟩, hin3, hin4⟩ := hin
      unfold Value.maxDataSize at hsrc hdest
      exact ⟨hin1, hin3, by omega, by omega⟩
  · rw [copyRange_undefined hzero hin]
    refine iff_of_false not_contained_undefined ?_
    rintro ⟨hb1, hb2, hb3, hb4⟩
    rw [addInt_eq (by omega) hb4] at h1
    rw [addInt_eq (by omega) hb3] at h2
    exact hin ⟨⟨hb1, by omega⟩, hb2, by omega⟩

/-- **The functions that copy keep to their operands** exactly when the checks of `OVERWRITE` refuse
its positions, it copies nothing, or none of its positions is negative and no sum wraps around. -/
theorem hex_ranges_contained_iff (run : Text → Scripted Variables) (vars : Variables)
    (start «end» newlen srcpos destpos len : MiniNumber) {orig src dest : MiniData}
    (horig : orig.getLength ≤ Value.maxDataSize) (hsrc : src.getLength ≤ Value.maxDataSize)
    (hdest : dest.getLength ≤ Value.maxDataSize) :
    (Contained ((subset 3).evaluate run [.number start, .number «end», .hex orig] vars)
        (fun d => IsRange orig.bytes start.getAsInt «end».getAsInt d.bytes) ∧
      Contained ((setlen 2).evaluate run [.number newlen, .hex orig] vars)
        (fun d => IsResized orig.bytes newlen.getAsInt d.bytes) ∧
      Contained ((overwrite 5).evaluate run
          [.hex src, .number srcpos, .hex dest, .number destpos, .number len] vars)
        (fun d => Overwritten src.bytes srcpos.getAsInt dest.bytes destpos.getAsInt len.getAsInt
          d.bytes)) ↔
    OverwriteRefused src.getLength srcpos.getAsInt dest.getLength destpos.getAsInt len.getAsInt ∨
      len.getAsInt = 0 ∨ OverwriteBounded srcpos.getAsInt destpos.getAsInt len.getAsInt := by
  rw [← overwrite_contained_iff run vars hsrc hdest]
  constructor
  · exact fun h => h.2.2
  · exact fun h => ⟨subset_contained run vars start «end» orig,
      setlen_contained run vars newlen horig, h⟩

/-- One byte copied inside both of its operands. -/
theorem hex_ranges_contained_instance :
    Contained ((subset 3).evaluate (fun _ => .error (.execution ""))
        [.number ⟨1, 0⟩, .number ⟨2, 0⟩, .hex ⟨[1, 2]⟩] fun _ => none)
        (fun d => IsRange [1, 2] 1 2 d.bytes) ∧
      Contained ((setlen 2).evaluate (fun _ => .error (.execution ""))
        [.number ⟨3, 0⟩, .hex ⟨[1, 2]⟩] fun _ => none) (fun d => IsResized [1, 2] 3 d.bytes) ∧
      Contained ((overwrite 5).evaluate (fun _ => .error (.execution ""))
          [.hex ⟨[7]⟩, .number ⟨0, 0⟩, .hex ⟨[1, 2]⟩, .number ⟨1, 0⟩, .number ⟨1, 0⟩] fun _ => none)
        (fun d => Overwritten [7] 0 [1, 2] 1 1 d.bytes) :=
  (hex_ranges_contained_iff (fun _ => .error (.execution "")) (fun _ => none) ⟨1, 0⟩ ⟨2, 0⟩ ⟨3, 0⟩
    ⟨0, 0⟩ ⟨1, 0⟩ ⟨1, 0⟩ (by decide : MiniData.getLength ⟨[1, 2]⟩ ≤ Value.maxDataSize)
    (by decide : MiniData.getLength ⟨[7]⟩ ≤ Value.maxDataSize)
    (by decide : MiniData.getLength ⟨[1, 2]⟩ ≤ Value.maxDataSize)).mpr (.inr (.inr ⟨by decide, by decide, by decide, by decide⟩))

/-- A byte written in front of the destination. -/
theorem overwrite_in_front :
    ¬ Contained ((overwrite 5).evaluate (fun _ => .error (.execution ""))
        [.hex ⟨[7]⟩, .number ⟨0, 0⟩, .hex ⟨[1, 2]⟩, .number ⟨-1, 0⟩, .number ⟨1, 0⟩] fun _ => none)
      (fun d => Overwritten [7] 0 [1, 2] (-1) 1 d.bytes) := by
  intro h
  rcases (overwrite_contained_iff _ _ (by decide : MiniData.getLength ⟨[7]⟩ ≤ Value.maxDataSize)
    (by decide : MiniData.getLength ⟨[1, 2]⟩ ≤ Value.maxDataSize) ⟨0, 0⟩ ⟨-1, 0⟩ ⟨1, 0⟩).mp h with (h | h | h) | h | ⟨-, h, -⟩
  all_goals exact absurd h (by decide)

end HexFunction

end Minima.Kissvm
