import Minima.Kissvm.Evaluation
import Minima.Objects.Codec
import Minima.Utils.Base32

/-! # `SAMESTATE`

A contract can ask that its state stays as it was in the coin that is spent. A state variable has a port, a
type and a text. `SAMESTATE` does not look at the type: it parses the texts of two variables again and
compares what the values print to.

* **`StateVariable.ofData`**, **`StateVariable.Stored`** — the state variables that there are.
* **`StateFunction.samestate`** — the function.
* **`StateFunction.prints_iff`** — what a text prints to, told by its form.
* **`StateFunction.alike_iff`** — when two variables print alike.
* **`StateFunction.samestate_exact_iff`** — when the function tells whether two states are the same. -/

namespace Minima

/-! ## State variables -/

namespace StateVariable

/-- `iequals`. -/
def iequals (a b : Text) : Bool := a.map BaseConverter.toLower == b.map BaseConverter.toLower

/-- `startsWithIgnoreCase`. -/
def startsWithIgnoreCase (s pre : Text) : Bool := iequals (s.take pre.length) pre

/-- What `trim` takes away. -/
def isBlank (c : Byte) : Bool := c == 32 || (9 ≤ c && c ≤ 13)

/-- The constructor from a port and a text. The text of a number is normalised, a hex text stays as it is. -/
def ofData (zPort : ℤ) (zData : Text) : Result StateVariable :=
  if zPort < 0 ∨ 255 < zPort then throwException "State Variable port MUST be 0-255"
  else if zData.all isBlank then throwException "State Variable cannot be blank"
  else
    let port := UInt8.ofNat zPort.toNat
    if startsWithIgnoreCase zData (MiniNumber.ascii "mx") then
      throwException "mx address conversion requires Address.convertMinimaAddress; unavailable in this build"
    else if startsWithIgnoreCase zData (MiniNumber.ascii "0x") then .ok ⟨port, STATETYPE_HEX, zData⟩
    else if iequals zData (MiniNumber.ascii "true") then .ok ⟨port, STATETYPE_BOOL, MiniNumber.ascii "TRUE"⟩
    else if iequals zData (MiniNumber.ascii "false") then .ok ⟨port, STATETYPE_BOOL, MiniNumber.ascii "FALSE"⟩
    else if zData.head? == some 91 && zData.getLast? == some 93 then .ok ⟨port, STATETYPE_STRING, zData⟩
    else (fun number => ⟨port, STATETYPE_NUMBER, number.toText⟩) <$> MiniNumber.ofText zData

/-- **A state variable that there is** was made by the constructor or came on a stream. -/
def Stored (sv : StateVariable) : Prop :=
  (∃ zPort zData, ofData zPort zData = .ok sv) ∨ ∃ s rest, readDataStream s = (.ok sv, rest)

/-- A text that its type says little about: a string, which a stream may bring without brackets, or a number
outside the limits, which a stream may bring with too many decimal places. -/
def Loose (sv : StateVariable) : Prop :=
  sv.type = STATETYPE_STRING ∨
    sv.type = STATETYPE_NUMBER ∧ ∀ n : MiniNumber, n.Canonical → sv.data ≠ n.toText

theorem toLower_eq_zero {c : Byte} (h : BaseConverter.toLower c = 48) : c = 48 := by
  unfold BaseConverter.toLower at h
  split_ifs at h with hupper
  · have hc : c = 16 := by
      rw [← add_sub_cancel_right c 32, h]
      rfl
    rw [hc] at hupper
    exact absurd hupper (by decide)
  · exact h

theorem toLower_eq_x {c : Byte} (h : BaseConverter.toLower c = 120) : c = 120 ∨ c = 88 := by
  unfold BaseConverter.toLower at h
  split_ifs at h
  · right
    rw [← add_sub_cancel_right c 32, h]
    rfl
  · exact .inl h

/-- **What the other variables look like:** a hex text or none, a boolean, or a number inside the limits. -/
theorem Stored.shape {sv : StateVariable} (h : sv.Stored) (htight : ¬ sv.Loose) :
    (sv.type = STATETYPE_HEX ∧ (sv.data = [] ∨ ∃ c rest, sv.data = 48 :: c :: rest ∧ (c = 120 ∨ c = 88))) ∨
      (sv.type = STATETYPE_BOOL ∧ (sv.data = MiniNumber.ascii "TRUE" ∨ sv.data = MiniNumber.ascii "FALSE")) ∨
      sv.type = STATETYPE_NUMBER ∧ ∃ n : MiniNumber, n.Canonical ∧ sv.data = n.toText := by
  have hnumber : sv.type = STATETYPE_NUMBER → ∃ n : MiniNumber, n.Canonical ∧ sv.data = n.toText := by
    intro htype
    by_contra hno
    exact htight (.inr ⟨htype, fun n hn hdata => hno ⟨n, hn, hdata⟩⟩)
  rcases h with ⟨zPort, zData, h⟩ | ⟨s, rest, h⟩
  · unfold ofData at h
    split_ifs at h with hport hblank hmx hhex htrue hfalse hstring
    · exact absurd h (throwException_ne_ok _ _)
    · exact absurd h (throwException_ne_ok _ _)
    · exact absurd h (throwException_ne_ok _ _)
    · obtain rfl := Except.ok.inj h
      refine .inl ⟨rfl, .inr ?_⟩
      obtain ⟨c, c', rest, rfl⟩ : ∃ c c' rest, zData = c :: c' :: rest := by
        match zData, hhex with
        | c :: c' :: rest, _ => exact ⟨c, c', rest, rfl⟩
        | [c], hhex => exact absurd hhex (by simp [startsWithIgnoreCase, iequals, MiniNumber.ascii])
      have hlower : BaseConverter.toLower c = BaseConverter.toLower 48 ∧
          BaseConverter.toLower c' = BaseConverter.toLower 120 := by
        simpa [startsWithIgnoreCase, iequals, MiniNumber.ascii] using hhex
      refine ⟨c', rest, ?_, (toLower_eq_x hlower.2)⟩
      rw [toLower_eq_zero hlower.1]
    · obtain rfl := Except.ok.inj h
      exact .inr (.inl ⟨rfl, .inl rfl⟩)
    · obtain rfl := Except.ok.inj h
      exact .inr (.inl ⟨rfl, .inr rfl⟩)
    · obtain rfl := Except.ok.inj h
      exact absurd (.inl rfl) htight
    · obtain ⟨number, -, rfl⟩ := Result.map_eq_ok.mp h
      exact .inr (.inr ⟨rfl, hnumber rfl⟩)
  -- the reader makes the text anew from what it reads, except for strings
  · rcases yields h with hbool | ⟨htype, d, -, hdata⟩ | ⟨htype, -⟩ | ⟨htype, -⟩
    · exact .inr (.inl hbool)
    · refine .inl ⟨htype, ?_⟩
      rw [hdata]
      unfold MiniData.to0xString BaseConverter.encode16
      split_ifs
      · exact .inl rfl
      · exact .inr ⟨120, _, rfl, .inl rfl⟩
    · exact .inr (.inr ⟨htype, hnumber htype⟩)
    · exact absurd (.inl htype) htight

end StateVariable

end Minima

namespace Minima.Kissvm

namespace StateFunction

/-- The first variable with this port. -/
def findPort (state : List StateVariable) (zPort : ℤ) : Option StateVariable :=
  state.find? fun sv => (sv.port.toNat : ℤ) = zPort

/-- `getState`. -/
def getState (mTransaction : Transaction) (zStateNum : ℤ) : Scripted Value :=
  match findPort mTransaction.state zStateNum with
  | none => .error (.execution "State Variable does not exist ")
  | some sv => Value.getValue sv.data

/-- `getPrevState`. -/
def getPrevState (mPrevState : List StateVariable) (zPrev : ℤ) : Scripted Value :=
  match findPort mPrevState zPrev with
  | none => .error (.execution "PREVSTATE Missing : ")
  | some sv => Value.getValue sv.data

/-- The loop of `SAMESTATE`: so many ports from `i` on. -/
def samePorts (mPrevState : List StateVariable) (mTransaction : Transaction) :
    (left : ℕ) → (i : ℤ) → Scripted Bool
  | 0, _ => .ok true
  | left + 1, i => do
    let oldv ← getPrevState mPrevState i
    let newv ← getState mTransaction i
    if oldv.toText ≠ newv.toText then return false
    samePorts mPrevState mTransaction left (i + 1)

/-- `SAMESTATE::runFunction`. -/
def samestate (mPrevState : List StateVariable) (mTransaction : Transaction) : ℕ → Call :=
  .exactly 2 <| show Routine false 2 from
    .getNumberParam 0 fun startnv => .getNumberParam 1 fun endnv =>
      let start := startnv.getAsInt
      let «end» := endnv.getAsInt
      if start < 0 ∨ «end» < start then .throwExecution "Invalid range check for SAMESTATE "
      else .answer fun _ =>
        Value.boolean <$> samePorts mPrevState mTransaction («end» - start + 1).toNat start

end StateFunction

/-! ## The texts of values -/

/-- The text of a number has digits, a point and a minus sign, and it is not empty. -/
theorem mem_number_toText {x : MiniNumber} {c : Byte} (h : c ∈ x.toText) :
    MiniNumber.isDigit c = true ∨ c = 46 ∨ c = 45 := by
  by_cases hzero : x.unscaled = 0
  · rw [MiniNumber.toText, if_pos hzero] at h
    rw [List.eq_of_mem_singleton h]
    exact .inl rfl
  · obtain ⟨intpart, frac, htext, -, hint, hfrac, -⟩ :=
      MiniNumber.plainText_eq_joinPoint x.unscaled.natAbs x.scale
    rw [MiniNumber.toText_of_ne hzero, htext] at h
    have hplain : c ∈ MiniNumber.joinPoint intpart frac →
        MiniNumber.isDigit c = true ∨ c = 46 ∨ c = 45 :=
      fun hc => (MiniNumber.isDigit_or_of_mem_joinPoint hint hfrac hc).imp_right Or.inl
    split_ifs at h
    · rcases List.mem_cons.mp h with rfl | h
      · exact .inr (.inr rfl)
      · exact hplain h
    · exact hplain h

theorem number_toText_ne_nil (x : MiniNumber) : x.toText ≠ [] := by
  by_cases hzero : x.unscaled = 0
  · rw [MiniNumber.toText, if_pos hzero]
    exact List.cons_ne_nil _ _
  · obtain ⟨intpart, frac, htext, hne, -⟩ :=
      MiniNumber.plainText_eq_joinPoint x.unscaled.natAbs x.scale
    have hplain : MiniNumber.joinPoint intpart frac ≠ [] := by
      unfold MiniNumber.joinPoint
      split_ifs
      · exact hne
      · exact List.append_ne_nil_of_left_ne_nil hne _
    rw [MiniNumber.toText_of_ne hzero, htext]
    split_ifs
    · exact List.cons_ne_nil _ _
    · exact hplain

/-- The text of a byte string is empty, or it begins with `0x`. -/
theorem hex_toText_cases (d : MiniData) : d.to0xString = [] ∨ ∃ rest, d.to0xString = 48 :: 120 :: rest := by
  unfold MiniData.to0xString BaseConverter.encode16
  split_ifs
  · exact .inl rfl
  · exact .inr ⟨_, rfl⟩

namespace Value

/-- No number is spelled with an `E`, as both booleans are. -/
theorem number_toText_ne_boolean (x : MiniNumber) (b : Bool) :
    (number x).toText ≠ (boolean b).toText := by
  intro h
  have hmem : (69 : Byte) ∈ (boolean b).toText := by
    cases b <;> decide
  have htext : x.toText = (boolean b).toText := h
  rw [← htext] at hmem
  rcases mem_number_toText hmem with hc | hc | hc
  all_goals exact absurd hc (by decide)

/-- No number is empty or has an `x`. -/
theorem hex_toText_ne_number (d : MiniData) (x : MiniNumber) : (hex d).toText ≠ (number x).toText := by
  intro h
  have htext : d.to0xString = x.toText := h
  rcases hex_toText_cases d with hnil | ⟨rest, hcons⟩
  · exact number_toText_ne_nil x (htext ▸ hnil)
  · have hmem : (120 : Byte) ∈ x.toText := by
      rw [← htext, hcons]
      simp
    rcases mem_number_toText hmem with hc | hc | hc
    all_goals exact absurd hc (by decide)

theorem hex_toText_ne_boolean (d : MiniData) (b : Bool) : (hex d).toText ≠ (boolean b).toText := by
  intro h
  have htext : d.to0xString = MiniNumber.ascii (if b then "TRUE" else "FALSE") := h
  have hhead := congrArg List.head? htext
  rcases hex_toText_cases d with hd | ⟨rest, hd⟩
  · rw [hd] at hhead
    cases b <;> exact absurd hhead (by decide)
  · rw [hd, List.head?_cons] at hhead
    cases b <;> exact absurd hhead (by decide)

end Value

/-! ## What is compared -/

namespace StateFunction

variable (mPrevState : List StateVariable) (mTransaction : Transaction)

/-- Both states define the port, and the two variables are so related. -/
def AtPort (related : StateVariable → StateVariable → Prop) (port : ℤ) : Prop :=
  ∃ sv sv', findPort mPrevState port = some sv ∧ findPort mTransaction.state port = some sv' ∧ related sv sv'

/-- **One type and one content:** the texts are equal, or they are hex texts of the same bytes. -/
def Same (sv sv' : StateVariable) : Prop :=
  sv.type = sv'.type ∧ (sv.data = sv'.data ∨ sv.type = StateVariable.STATETYPE_HEX ∧
    ∃ d, MiniData.ofHex sv.data = .ok d ∧ MiniData.ofHex sv'.data = .ok d)

/-- **The texts that spell a value**, and what it prints to: a string in brackets prints without them, a hex
text as its bytes, a boolean as it is, and digits or what is behind a minus sign as their number. -/
inductive Prints (data : Text) : Text → Prop
  | string {text : Text} (hdata : data = 91 :: (text ++ [93])) (hsize : text.length ≤ Value.maxDataSize) :
      Prints data text
  | hex {d : MiniData} (hstart : MiniNumber.ascii "0x" <+: data) (hbytes : MiniData.ofHex data = .ok d)
      (hsize : d.getLength ≤ Value.maxDataSize) : Prints data d.to0xString
  | boolean {b : Bool} (hdata : data = (Value.boolean b).toText) : Prints data (Value.boolean b).toText
  | number {x : MiniNumber} (hform : data.head? = some 45 ∨ Value.isNumeric data = true)
      (hx : MiniNumber.ofText data = .ok x) : Prints data x.toText

/-- The text of the variable spells a value. -/
def Readable (sv : StateVariable) : Prop := ∃ text, Prints sv.data text

/-- The two variables print to one text. -/
def Alike (sv sv' : StateVariable) : Prop := ∃ text, Prints sv.data text ∧ Prints sv'.data text

/-- **One variable passes for the other:** they have different types or texts, but print alike, and one of
them is a string or a number outside the limits. -/
def Disguised (sv sv' : StateVariable) : Prop :=
  (sv.Loose ∨ sv'.Loose) ∧ (sv.type ≠ sv'.type ∨ sv.data ≠ sv'.data) ∧ Alike sv sv'

/-- Texts in brackets. -/
theorem isBracketed_iff {data : Text} :
    Value.isBracketed data = true ↔ ∃ text, data = 91 :: (text ++ [93]) := by
  constructor
  · intro h
    simp only [Value.isBracketed, Bool.and_eq_true, beq_iff_eq, decide_eq_true_eq] at h
    obtain ⟨⟨hhead, hlength⟩, hlast⟩ := h
    obtain ⟨rest, rfl⟩ := List.head?_eq_some_iff.mp hhead
    have hrest : rest ≠ [] := by
      rintro rfl
      exact absurd hlength (by decide)
    rw [List.getLast?_cons_of_ne_nil hrest] at hlast
    obtain ⟨text, rfl⟩ := List.getLast?_eq_some_iff.mp hlast
    exact ⟨text, rfl⟩
  · rintro ⟨text, rfl⟩
    have hlast : (91 :: (text ++ [93])).getLast? = some (93 : Byte) := by
      rw [← List.cons_append, List.getLast?_concat]
    simp [Value.isBracketed, hlast]

/-- A text that begins with `0x` spells no number. -/
theorem not_number_of_hex {data rest : Text} {c : Byte} (hdata : data = 48 :: c :: rest)
    (hc : c = 120 ∨ c = 88) : ¬ (data.head? = some 45 ∨ Value.isNumeric data = true) := by
  subst hdata
  rcases hc with rfl | rfl <;> simp [Value.isNumeric, MiniNumber.isDigit]

/-- A number does not begin with a bracket. -/
theorem not_number_of_bracket {rest : Text} :
    ¬ ((91 :: rest : Text).head? = some 45 ∨ Value.isNumeric (91 :: rest) = true) := by
  simp [Value.isNumeric, MiniNumber.isDigit]

theorem not_number_of_boolean (b : Bool) :
    ¬ ((Value.boolean b).toText.head? = some 45 ∨ Value.isNumeric (Value.boolean b).toText = true) := by
  cases b <;> decide

/-- **What a text prints to** is what `getValue` makes of it. -/
theorem prints_iff {data text : Text} :
    Prints data text ↔ ∃ v, Value.getValue data = .ok v ∧ v.toText = text := by
  constructor
  · intro h
    cases h with
    | string hdata hsize =>
      refine ⟨.script text, ?_, rfl⟩
      have hbracket : Value.isBracketed data = true := isBracketed_iff.mpr ⟨text, hdata⟩
      rw [Value.getValue, if_pos hbracket, hdata]
      show Value.stringValue (text ++ [93]).dropLast = _
      rw [List.dropLast_concat, Value.stringValue, if_neg (not_lt.mpr hsize)]
    | @hex d hstart hbytes hsize =>
      refine ⟨.hex d, ?_, rfl⟩
      have hbracket : ¬ Value.isBracketed data = true := by
        obtain ⟨rest, rfl⟩ := hstart
        exact Bool.false_ne_true
      rw [Value.getValue, if_neg hbracket, if_pos (List.isPrefixOf_iff_prefix.mpr hstart), hbytes]
      show Value.hexValue d = _
      rw [Value.hexValue, if_neg (not_lt.mpr hsize)]
    | @boolean b hdata =>
      refine ⟨.boolean b, ?_, rfl⟩
      rw [hdata]
      cases b <;> decide
    | @number x hform hx =>
      refine ⟨.number x, ?_, rfl⟩
      have hbracket : ¬ Value.isBracketed data = true := by
        intro h
        obtain ⟨rest, rfl⟩ := isBracketed_iff.mp h
        exact not_number_of_bracket hform
      have hhex : ¬ (MiniNumber.ascii "0x").isPrefixOf data = true := by
        intro h
        obtain ⟨rest, rfl⟩ := List.isPrefixOf_iff_prefix.mp h
        exact not_number_of_hex rfl (.inl rfl) hform
      have htrue : data ≠ MiniNumber.ascii "TRUE" := by
        rintro rfl
        exact not_number_of_boolean true hform
      have hfalse : data ≠ MiniNumber.ascii "FALSE" := by
        rintro rfl
        exact not_number_of_boolean false hform
      -- no other form is possible, so the last test decides
      have hnumber : (data.head? == some 45 || Value.isNumeric data) = true := by
        rw [Bool.or_eq_true, beq_iff_eq]
        exact hform
      rw [Value.getValue, if_neg hbracket, if_neg hhex, if_neg htrue, if_neg hfalse, if_pos hnumber, hx]
      rfl
  · rintro ⟨v, hv, rfl⟩
    unfold Value.getValue at hv
    split_ifs at hv with hbracket hhex htrue hfalse hnumber
    · obtain ⟨text, rfl⟩ := isBracketed_iff.mp hbracket
      have hstring : Value.stringValue (text ++ [93]).dropLast = .ok v := hv
      rw [List.dropLast_concat, Value.stringValue] at hstring
      split_ifs at hstring with hsize
      obtain rfl := Except.ok.inj hstring
      exact .string rfl (not_lt.mp hsize)
    · cases hbytes : MiniData.ofHex data with
      | error e =>
        rw [hbytes] at hv
        cases e <;> cases hv
      | ok d =>
        rw [hbytes] at hv
        have hvalue : Value.hexValue d = .ok v := hv
        unfold Value.hexValue at hvalue
        split_ifs at hvalue with hsize
        obtain rfl := Except.ok.inj hvalue
        exact .hex (List.isPrefixOf_iff_prefix.mp hhex) hbytes (not_lt.mp hsize)
    · obtain rfl := Except.ok.inj hv
      exact .boolean htrue
    · obtain rfl := Except.ok.inj hv
      exact .boolean hfalse
    · cases hx : MiniNumber.ofText data with
      | error e =>
        rw [hx] at hv
        cases e <;> cases hv
      | ok x =>
        rw [hx] at hv
        obtain rfl := Except.ok.inj hv
        rw [Bool.or_eq_true, beq_iff_eq] at hnumber
        exact .number hnumber hx

/-- **What the other variables print to:** their text, or for hex texts that of the bytes. -/
theorem prints_of_tight {sv : StateVariable} (hsv : sv.Stored) (htight : ¬ sv.Loose) {text : Text}
    (h : Prints sv.data text) :
    (sv.type = StateVariable.STATETYPE_HEX ∧ ∃ d, MiniData.ofHex sv.data = .ok d ∧ text = (Value.hex d).toText) ∨
      (sv.type = StateVariable.STATETYPE_BOOL ∧ text = sv.data ∧ ∃ b, text = (Value.boolean b).toText) ∨
      sv.type = StateVariable.STATETYPE_NUMBER ∧ text = sv.data ∧ ∃ x, text = (Value.number x).toText := by
  rcases hsv.shape htight with ⟨htype, hdata⟩ | ⟨htype, hdata⟩ | ⟨htype, n, hn, hdata⟩
  · refine .inl ⟨htype, ?_⟩
    cases h with
    | string htext =>
      rcases hdata with hdata | ⟨c, rest, hdata, -⟩
      all_goals
        rw [hdata] at htext
        cases htext
    | @hex d _ hbytes => exact ⟨d, hbytes, rfl⟩
    | @boolean b htext =>
      rcases hdata with hdata | ⟨c, rest, hdata, -⟩
      all_goals
        rw [hdata] at htext
        cases b <;> cases htext
    | number hform =>
      rcases hdata with hdata | ⟨c, rest, hdata, hc⟩
      · rw [hdata] at hform
        exact absurd hform (by decide)
      · exact absurd hform (not_number_of_hex hdata hc)
  · obtain ⟨b, hdata⟩ : ∃ b, sv.data = (Value.boolean b).toText :=
      hdata.elim (fun h => ⟨true, h⟩) fun h => ⟨false, h⟩
    refine .inr (.inl ⟨htype, ?_⟩)
    cases h with
    | string htext =>
      rw [hdata] at htext
      cases b <;> cases htext
    | hex hstart =>
      rw [hdata] at hstart
      cases b <;> exact absurd hstart (by decide)
    | @boolean b' htext => exact ⟨htext.symm, b', rfl⟩
    | number hform =>
      rw [hdata] at hform
      exact absurd hform (not_number_of_boolean b)
  · refine .inr (.inr ⟨htype, ?_⟩)
    have hno : ∀ c : Byte, c ∈ sv.data → MiniNumber.isDigit c = true ∨ c = 46 ∨ c = 45 := by
      rw [hdata]
      exact fun c => mem_number_toText
    cases h with
    | string htext => exact absurd (hno 91 (by rw [htext]; exact List.mem_cons_self)) (by decide)
    | hex hstart => exact absurd (hno 120 (hstart.subset (by decide))) (by decide)
    | @boolean b htext => exact absurd (hdata.symm.trans htext) (Value.number_toText_ne_boolean n b)
    | @number x _ hx =>
      obtain ⟨m, hm, -, hrat⟩ := MiniNumber.ofText_toText hn
      rw [hdata, hm] at hx
      obtain rfl := Except.ok.inj hx
      exact ⟨(MiniNumber.toText_congr hrat).trans hdata.symm, m, rfl⟩

/-- Two variables that print alike, and of which neither is loose, are the same. -/
theorem same_of_alike {sv sv' : StateVariable} (hsv : sv.Stored) (hsv' : sv'.Stored) (htight : ¬ sv.Loose)
    (htight' : ¬ sv'.Loose) (h : Alike sv sv') : Same sv sv' := by
  obtain ⟨text, h, h'⟩ := h
  rcases prints_of_tight hsv htight h with ⟨ht, d, hd, htext⟩ | ⟨ht, hdata, b, htext⟩ | ⟨ht, hdata, x, htext⟩ <;>
    rcases prints_of_tight hsv' htight' h' with
      ⟨ht', d', hd', htext'⟩ | ⟨ht', hdata', b', htext'⟩ | ⟨ht', hdata', x', htext'⟩
  · have hbytes : d = d' := MiniData.to0xString_injective (htext.symm.trans htext')
    exact ⟨ht.trans ht'.symm, .inr ⟨ht, d, hd, hbytes ▸ hd'⟩⟩
  · exact absurd (htext.symm.trans htext') (Value.hex_toText_ne_boolean d b')
  · exact absurd (htext.symm.trans htext') (Value.hex_toText_ne_number d x')
  · exact absurd (htext'.symm.trans htext) (Value.hex_toText_ne_boolean d' b)
  · exact ⟨ht.trans ht'.symm, .inl (hdata.symm.trans hdata')⟩
  · exact absurd (htext'.symm.trans htext) (Value.number_toText_ne_boolean x' b)
  · exact absurd (htext'.symm.trans htext) (Value.hex_toText_ne_number d' x)
  · exact absurd (htext.symm.trans htext') (Value.number_toText_ne_boolean x b')
  · exact ⟨ht.trans ht'.symm, .inl (hdata.symm.trans hdata')⟩

/-- The same variables print alike, when they print at all. -/
theorem alike_of_same {sv sv' : StateVariable} (hsv : sv.Stored) (hsv' : sv'.Stored) (h : Same sv sv')
    (hread : Readable sv) (hread' : Readable sv') : Alike sv sv' := by
  obtain ⟨text, hprints⟩ := hread
  obtain ⟨htype, hdata | ⟨hhex, d, hd, hd'⟩⟩ := h
  · exact ⟨text, hprints, hdata ▸ hprints⟩
  · obtain ⟨text', hprints'⟩ := hread'
    -- two spellings of the same bytes print alike, since the bytes are printed
    have hvalue : ∀ {a : StateVariable} {t : Text}, a.Stored → a.type = StateVariable.STATETYPE_HEX →
        MiniData.ofHex a.data = .ok d → Prints a.data t → t = (Value.hex d).toText := by
      intro a t ha ht hbytes hprints
      have htight : ¬ a.Loose := by
        rintro (hstring | ⟨hnumber, -⟩)
        · exact absurd (ht.symm.trans hstring) (by decide)
        · exact absurd (ht.symm.trans hnumber) (by decide)
      rcases prints_of_tight ha htight hprints with ⟨-, d', hd', rfl⟩ | ⟨ht', -⟩ | ⟨ht', -⟩
      · rw [hbytes, Except.ok.injEq] at hd'
        rw [hd']
      · exact absurd (ht.symm.trans ht') (by decide)
      · exact absurd (ht.symm.trans ht') (by decide)
    rw [hvalue hsv hhex hd hprints] at hprints
    rw [hvalue hsv' (htype.symm.trans hhex) hd' hprints'] at hprints'
    exact ⟨_, hprints, hprints'⟩

/-- **When two variables print alike:** they are the same and print at all, or one passes for the other. -/
theorem alike_iff {sv sv' : StateVariable} (hsv : sv.Stored) (hsv' : sv'.Stored) :
    Alike sv sv' ↔ (Same sv sv' ∧ Readable sv ∧ Readable sv') ∨ Disguised sv sv' := by
  constructor
  · intro h
    obtain ⟨text, hsv₁, hsv₂⟩ := id h
    -- a loose variable may still be the same as the other one
    by_cases hloose : sv.Loose ∨ sv'.Loose
    · by_cases hequal : sv.type = sv'.type ∧ sv.data = sv'.data
      · exact .inl ⟨⟨hequal.1, .inl hequal.2⟩, ⟨text, hsv₁⟩, text, hsv₂⟩
      · exact .inr ⟨hloose, by rwa [not_and_or] at hequal, h⟩
    · rw [not_or] at hloose
      exact .inl ⟨same_of_alike hsv hsv' hloose.1 hloose.2 h, ⟨text, hsv₁⟩, text, hsv₂⟩
  · rintro (⟨hsame, hread, hread'⟩ | h)
    · exact alike_of_same hsv hsv' hsame hread hread'
    · exact h.2.2

/-- What passes for another variable is not the same one. -/
theorem not_same_of_disguised {sv sv' : StateVariable} (h : Disguised sv sv') : ¬ Same sv sv' := by
  rintro ⟨htype, hdata | ⟨hhex, -⟩⟩
  · rcases h.2.1 with hne | hne
    · exact hne htype
    · exact hne hdata
  · have hnever : ∀ {a : StateVariable}, a.type = StateVariable.STATETYPE_HEX → ¬ a.Loose := by
      rintro a ht (hstring | ⟨hnumber, -⟩)
      · exact absurd (ht.symm.trans hstring) (by decide)
      · exact absurd (ht.symm.trans hnumber) (by decide)
    rcases h.1 with hl | hl
    · exact hnever hhex hl
    · exact hnever (htype.symm.trans hhex) hl

variable {mPrevState mTransaction}

theorem getPrevState_eq_ok {port : ℤ} {v : Value} : getPrevState mPrevState port = .ok v ↔
    ∃ sv, findPort mPrevState port = some sv ∧ Value.getValue sv.data = .ok v := by
  unfold getPrevState
  cases findPort mPrevState port <;> simp

theorem getState_eq_ok {port : ℤ} {v : Value} : getState mTransaction port = .ok v ↔
    ∃ sv, findPort mTransaction.state port = some sv ∧ Value.getValue sv.data = .ok v := by
  unfold getState
  cases findPort mTransaction.state port <;> simp

/-- What the loop compares at a port. -/
theorem atPort_alike_iff (port : ℤ) : AtPort mPrevState mTransaction Alike port ↔
    ∃ v w, getPrevState mPrevState port = .ok v ∧ getState mTransaction port = .ok w ∧ v.toText = w.toText := by
  constructor
  · rintro ⟨sv, sv', hsv, hsv', text, hprints, hprints'⟩
    obtain ⟨v, hv, htext⟩ := prints_iff.mp hprints
    obtain ⟨w, hw, htext'⟩ := prints_iff.mp hprints'
    exact ⟨v, w, getPrevState_eq_ok.mpr ⟨sv, hsv, hv⟩, getState_eq_ok.mpr ⟨sv', hsv', hw⟩,
      htext.trans htext'.symm⟩
  · rintro ⟨v, w, hv, hw, h⟩
    obtain ⟨sv, hsv, hv⟩ := getPrevState_eq_ok.mp hv
    obtain ⟨sv', hsv', hw⟩ := getState_eq_ok.mp hw
    exact ⟨sv, sv', hsv, hsv', _, prints_iff.mpr ⟨v, hv, h⟩, prints_iff.mpr ⟨w, hw, rfl⟩⟩

/-- No state defines a negative port. -/
theorem not_atPort_neg {related : StateVariable → StateVariable → Prop} {port : ℤ} (h : port < 0) :
    ¬ AtPort mPrevState mTransaction related port := by
  rintro ⟨sv, -, hsv, -⟩
  have hport := List.find?_some hsv
  rw [decide_eq_true_iff] at hport
  omega

/-- **The loop ends with success** when the variables print alike at all ports. -/
theorem samePorts_eq_true_iff (left : ℕ) (i : ℤ) :
    samePorts mPrevState mTransaction left i = .ok true ↔
      ∀ port, i ≤ port → port < i + left → AtPort mPrevState mTransaction Alike port := by
  induction left generalizing i with
  | zero => exact iff_of_true rfl fun port h1 h2 => absurd h2 (by omega)
  | succ left ih =>
    have hsplit : (∀ port, i ≤ port → port < i + (left + 1 : ℕ) → AtPort mPrevState mTransaction Alike port) ↔
        AtPort mPrevState mTransaction Alike i ∧
          ∀ port, i + 1 ≤ port → port < i + 1 + left → AtPort mPrevState mTransaction Alike port := by
      constructor
      · exact fun h => ⟨h i le_rfl (by omega), fun port h1 h2 => h port (by omega) (by omega)⟩
      · rintro ⟨hi, hrest⟩ port h1 h2
        rcases eq_or_lt_of_le h1 with rfl | hlt
        · exact hi
        · exact hrest port hlt (by omega)
    rw [hsplit, ← ih, samePorts, atPort_alike_iff]
    cases hold : getPrevState mPrevState i with
    | error e => exact iff_of_false nofun nofun
    | ok oldv =>
      cases hnew : getState mTransaction i with
      | error e => exact iff_of_false nofun nofun
      | ok newv =>
        by_cases htext : oldv.toText = newv.toText
        · rw [and_iff_right ⟨oldv, newv, rfl, rfl, htext⟩]
          show (if oldv.toText ≠ newv.toText then _ else _) = _ ↔ _
          rw [if_neg (not_not.mpr htext)]
        · refine iff_of_false ?_ ?_
          · show ¬ (if oldv.toText ≠ newv.toText then _ else _) = _
            rw [if_pos htext]
            exact nofun
          · rintro ⟨⟨v, w, hv, hw, h⟩, -⟩
            obtain rfl := Except.ok.inj hv
            obtain rfl := Except.ok.inj hw
            exact htext h

/-- **`SAMESTATE` is true** when the variables print alike at all ports of the range. -/
theorem samestate_eq_true_iff (run : Text → Scripted Variables) (vars : Variables)
    (start «end» : MiniNumber) (hle : start.getAsInt ≤ «end».getAsInt) :
    (samestate mPrevState mTransaction 2).evaluate run [.number start, .number «end»] vars
        = .ok (.boolean true) ↔
      ∀ port, start.getAsInt ≤ port → port ≤ «end».getAsInt → AtPort mPrevState mTransaction Alike port := by
  rw [samestate, Call.evaluate_exactly, Routine.evaluate_getNumberParam _ _ _ rfl,
    Routine.evaluate_getNumberParam _ _ _ rfl]
  generalize start.getAsInt = s at hle
  generalize «end».getAsInt = e at hle
  by_cases hneg : s < 0
  · rw [if_pos (.inl hneg), Routine.evaluate_throwExecution]
    exact iff_of_false nofun fun h => not_atPort_neg hneg (h s le_rfl hle)
  · have hrange : s + (e - s + 1).toNat = e + 1 := by omega
    rw [if_neg (by omega), Routine.evaluate_answer]
    calc Value.boolean <$> samePorts mPrevState mTransaction (e - s + 1).toNat s = .ok (.boolean true)
        ↔ samePorts mPrevState mTransaction (e - s + 1).toNat s = .ok true := by
          cases samePorts mPrevState mTransaction (e - s + 1).toNat s with
          | error => exact iff_of_false nofun nofun
          | ok b =>
            exact ⟨fun h => by rw [Value.boolean.inj (Except.ok.inj h)], fun h => by
              rw [Except.ok.inj h]; rfl⟩
      _ ↔ _ := by
          rw [samePorts_eq_true_iff, hrange]
          simp only [Int.lt_add_one_iff]

/-- The variables at a port of two states are stored ones. -/
theorem AtPort.stored {related : StateVariable → StateVariable → Prop} {port : ℤ}
    (hprev : ∀ sv ∈ mPrevState, sv.Stored) (hstate : ∀ sv ∈ mTransaction.state, sv.Stored)
    (h : AtPort mPrevState mTransaction related port) :
    AtPort mPrevState mTransaction (fun sv sv' => sv.Stored ∧ sv'.Stored ∧ related sv sv') port := by
  obtain ⟨sv, sv', hsv, hsv', hrelated⟩ := h
  exact ⟨sv, sv', hsv, hsv', hprev sv (List.mem_of_find?_eq_some hsv),
    hstate sv' (List.mem_of_find?_eq_some hsv'), hrelated⟩

/-- There is one pair of variables at a port. -/
theorem AtPort.and {related related' : StateVariable → StateVariable → Prop} {port : ℤ}
    (h : AtPort mPrevState mTransaction related port) (h' : AtPort mPrevState mTransaction related' port) :
    AtPort mPrevState mTransaction (fun sv sv' => related sv sv' ∧ related' sv sv') port := by
  obtain ⟨sv, sv', hsv, hsv', hrelated⟩ := h
  obtain ⟨tv, tv', htv, htv', hrelated'⟩ := h'
  rw [hsv, Option.some.injEq] at htv
  rw [hsv', Option.some.injEq] at htv'
  subst htv htv'
  exact ⟨sv, sv', hsv, hsv', hrelated, hrelated'⟩

theorem AtPort.imp {related related' : StateVariable → StateVariable → Prop} {port : ℤ}
    (himp : ∀ sv sv', related sv sv' → related' sv sv') (h : AtPort mPrevState mTransaction related port) :
    AtPort mPrevState mTransaction related' port := by
  obtain ⟨sv, sv', hsv, hsv', hrelated⟩ := h
  exact ⟨sv, sv', hsv, hsv', himp sv sv' hrelated⟩

variable (mPrevState mTransaction)

/-- **When `SAMESTATE` is exact.** It fails in two ways only: when at some port of the range a variable
passes for another one, and at every port one does or the variables are the same and readable; and when the
variables are the same at all ports, but one of them is not readable. -/
theorem samestate_exact_iff (hprev : ∀ sv ∈ mPrevState, sv.Stored)
    (hstate : ∀ sv ∈ mTransaction.state, sv.Stored) (run : Text → Scripted Variables) (vars : Variables)
    (start «end» : MiniNumber) (hle : start.getAsInt ≤ «end».getAsInt) :
    ((samestate mPrevState mTransaction 2).evaluate run [.number start, .number «end»] vars
        = .ok (.boolean true) ↔
      ∀ port, start.getAsInt ≤ port → port ≤ «end».getAsInt → AtPort mPrevState mTransaction Same port) ↔
    ¬ ((∀ port, start.getAsInt ≤ port → port ≤ «end».getAsInt → AtPort mPrevState mTransaction
          (fun sv sv' => (Same sv sv' ∧ Readable sv ∧ Readable sv') ∨ Disguised sv sv') port) ∧
        ∃ port, start.getAsInt ≤ port ∧ port ≤ «end».getAsInt ∧ AtPort mPrevState mTransaction Disguised port) ∧
      ¬ ((∀ port, start.getAsInt ≤ port → port ≤ «end».getAsInt → AtPort mPrevState mTransaction Same port) ∧
        ∃ port, start.getAsInt ≤ port ∧ port ≤ «end».getAsInt ∧
          AtPort mPrevState mTransaction (fun sv sv' => ¬ Readable sv ∨ ¬ Readable sv') port) := by
  rw [samestate_eq_true_iff run vars start «end» hle]
  have halike : ∀ port, AtPort mPrevState mTransaction Alike port ↔ AtPort mPrevState mTransaction
      (fun sv sv' => (Same sv sv' ∧ Readable sv ∧ Readable sv') ∨ Disguised sv sv') port := fun port =>
    ⟨fun h => (h.stored hprev hstate).imp fun sv sv' ⟨hsv, hsv', h⟩ => (alike_iff hsv hsv').mp h,
      fun h => (h.stored hprev hstate).imp fun sv sv' ⟨hsv, hsv', h⟩ => (alike_iff hsv hsv').mpr h⟩
  simp only [halike]
  constructor
  · intro h
    refine ⟨?_, ?_⟩
    · rintro ⟨hall, port, h1, h2, hdisguised⟩
      obtain ⟨sv, sv', -, -, hno, hsame⟩ := hdisguised.and (h.mp hall port h1 h2)
      exact not_same_of_disguised hno hsame
    · rintro ⟨hall, port, h1, h2, hunreadable⟩
      obtain ⟨sv, sv', -, -, hno, ⟨-, hread, hread'⟩ | hdisguised, hsame⟩ :=
        hunreadable.and ((h.mpr hall port h1 h2).and (hall port h1 h2))
      · rcases hno with hno | hno
        · exact hno hread
        · exact hno hread'
      · exact not_same_of_disguised hdisguised hsame
  · rintro ⟨hnone, hread⟩
    constructor
    · intro hall port h1 h2
      obtain ⟨sv, sv', hsv, hsv', hsame | hdisguised⟩ := hall port h1 h2
      · exact ⟨sv, sv', hsv, hsv', hsame.1⟩
      · exact absurd ⟨hall, port, h1, h2, sv, sv', hsv, hsv', hdisguised⟩ hnone
    · intro hall port h1 h2
      obtain ⟨sv, sv', hsv, hsv', hsame⟩ := hall port h1 h2
      refine ⟨sv, sv', hsv, hsv', .inl ⟨hsame, ?_, ?_⟩⟩
      · by_contra hno
        exact hread ⟨hall, port, h1, h2, sv, sv', hsv, hsv', .inl hno⟩
      · by_contra hno
        exact hread ⟨hall, port, h1, h2, sv, sv', hsv, hsv', .inr hno⟩

/-- A transaction with one state variable at port 0, a hex text. -/
def sampleTransaction (data : Text) : Transaction :=
  ⟨[], [], [⟨0, StateVariable.STATETYPE_HEX, data⟩], MiniData.zeroTxPowID,
    Transaction.noCoins_length, Transaction.noCoins_length⟩

/-- A previous state with a string at port 0. -/
def samplePrevState (data : Text) : List StateVariable := [⟨0, StateVariable.STATETYPE_STRING, data⟩]

/-- What the constructor makes of `0xFF` and of `[0xFF]`. -/
theorem ofData_sample :
    StateVariable.ofData 0 (MiniNumber.ascii "0xFF") = .ok ⟨0, StateVariable.STATETYPE_HEX, MiniNumber.ascii "0xFF"⟩ ∧
      StateVariable.ofData 0 (MiniNumber.ascii "[0xFF]") =
        .ok ⟨0, StateVariable.STATETYPE_STRING, MiniNumber.ascii "[0xFF]"⟩ := by
  decide +kernel

theorem samestate_exact_iff_sample :
    ((samestate (samplePrevState (MiniNumber.ascii "[0xFF]")) (sampleTransaction (MiniNumber.ascii "0xFF")) 2).evaluate
        (fun _ => .error (.execution "")) [.number ⟨0, 0⟩, .number ⟨1, 0⟩] (fun _ => none)
        = .ok (.boolean true) ↔
      ∀ port, (⟨0, 0⟩ : MiniNumber).getAsInt ≤ port → port ≤ (⟨1, 0⟩ : MiniNumber).getAsInt →
        AtPort (samplePrevState (MiniNumber.ascii "[0xFF]")) (sampleTransaction (MiniNumber.ascii "0xFF")) Same
          port) := by
  obtain ⟨hhex, hstring⟩ := ofData_sample
  refine (samestate_exact_iff (samplePrevState (MiniNumber.ascii "[0xFF]"))
    (sampleTransaction (MiniNumber.ascii "0xFF"))
    (fun sv hsv => by rw [List.mem_singleton.mp hsv]; exact .inl ⟨0, _, hstring⟩)
    (fun sv hsv => by rw [List.mem_singleton.mp hsv]; exact .inl ⟨0, _, hhex⟩)
    (fun _ => .error (.execution "")) (fun _ => none) ⟨0, 0⟩ ⟨1, 0⟩ (by decide)).mpr ⟨?_, ?_⟩
  -- there is nothing at port 1
  all_goals
    rintro ⟨hall, -⟩
    obtain ⟨sv, sv', hsv, -⟩ := hall 1 (by decide) (by decide)
    cases hsv

/-- **A string passes for the bytes it spells**, and an empty hex text, as it comes on a stream, is not the
same as itself. -/
theorem samestate_spelled :
    (¬ ((samestate (samplePrevState (MiniNumber.ascii "[0xFF]")) (sampleTransaction (MiniNumber.ascii "0xFF"))
          2).evaluate (fun _ => .error (.execution "")) [.number ⟨0, 0⟩, .number ⟨0, 0⟩] (fun _ => none)
          = .ok (.boolean true) ↔
        ∀ port, (⟨0, 0⟩ : MiniNumber).getAsInt ≤ port → port ≤ (⟨0, 0⟩ : MiniNumber).getAsInt →
          AtPort (samplePrevState (MiniNumber.ascii "[0xFF]")) (sampleTransaction (MiniNumber.ascii "0xFF")) Same
            port)) ∧
      ¬ ((samestate (sampleTransaction []).state (sampleTransaction []) 2).evaluate
          (fun _ => .error (.execution "")) [.number ⟨0, 0⟩, .number ⟨0, 0⟩] (fun _ => none)
          = .ok (.boolean true) ↔
        ∀ port, (⟨0, 0⟩ : MiniNumber).getAsInt ≤ port → port ≤ (⟨0, 0⟩ : MiniNumber).getAsInt →
          AtPort (sampleTransaction []).state (sampleTransaction []) Same port) := by
  constructor
  · intro h
    have hstring : Prints (MiniNumber.ascii "[0xFF]") (MiniNumber.ascii "0xFF") := .string rfl (by decide)
    have hhex : Prints (MiniNumber.ascii "0xFF") (MiniNumber.ascii "0xFF") :=
      prints_iff.mpr ⟨.hex ⟨[0xFF]⟩, by decide, by decide⟩
    have hdisguised : Disguised ⟨0, StateVariable.STATETYPE_STRING, MiniNumber.ascii "[0xFF]"⟩
        ⟨0, StateVariable.STATETYPE_HEX, MiniNumber.ascii "0xFF"⟩ :=
      ⟨.inl (.inl rfl), .inl (by decide), _, hstring, hhex⟩
    have hall : ∀ port, (⟨0, 0⟩ : MiniNumber).getAsInt ≤ port → port ≤ (⟨0, 0⟩ : MiniNumber).getAsInt →
        AtPort (samplePrevState (MiniNumber.ascii "[0xFF]")) (sampleTransaction (MiniNumber.ascii "0xFF")) Alike
          port := by
      intro port h1 h2
      obtain rfl : port = 0 := le_antisymm h2 h1
      exact ⟨_, _, rfl, rfl, hdisguised.2.2⟩
    obtain ⟨sv, sv', hsv, hsv', hsame⟩ :=
      h.mp ((samestate_eq_true_iff _ _ ⟨0, 0⟩ ⟨0, 0⟩ (by decide)).mpr hall) 0 (by decide) (by decide)
    cases hsv
    cases hsv'
    exact not_same_of_disguised hdisguised hsame
  · intro h
    have hsame := h.mpr fun port h1 h2 => by
      obtain rfl : port = 0 := le_antisymm h2 h1
      exact ⟨_, _, rfl, rfl, rfl, .inl rfl⟩
    exact absurd hsame (by decide)

end StateFunction

end Minima.Kissvm
