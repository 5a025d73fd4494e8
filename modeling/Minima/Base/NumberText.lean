import Minima.Base.MiniNumber
import Minima.Utils.BaseConverter

/-! # `MiniNumber` as text

State variables keep their numbers as text. `MiniNumber.toString` prints a number in plain decimal
notation without trailing zeros; the constructor of `MiniNumber` from a text reads a sign, digits
with at most one point, and an exponent, and then applies the limits.

* **`toText_congr`** — the text depends on the value only.
* **`ofText_toText`** — a number inside the limits prints and reads back with the same value. -/

namespace Minima

open Decimal

namespace MiniNumber

/-- The characters of a text literal. -/
def ascii (s : String) : Text := s.toList.map fun c => UInt8.ofNat c.toNat

/-- `std::isspace`. -/
def isSpace (c : Byte) : Bool := c = 32 || (9 ≤ c && c ≤ 13)

def isDigit (c : Byte) : Bool := 48 ≤ c && c ≤ 57

/-- The decimal digits of a natural number. -/
def digitsText (n : ℕ) : Text := (Nat.toDigits 10 n).map fun c => UInt8.ofNat c.toNat

/-- The value of a run of digits. -/
def digitsValue (ds : Text) : ℕ := ds.foldl (fun acc c => 10 * acc + (c.toNat - 48)) 0

/-- `to_plain_string_strip_trailing_zeros`. -/
def toText (x : MiniNumber) : Text :=
  if x.unscaled = 0 then [48]
  else
    let digs := digitsText x.unscaled.natAbs
    let strip := fun frac : Text => (frac.reverse.dropWhile (· == 48)).reverse
    let result :=
      if 0 ≤ x.scale then
        let s := x.scale.toNat
        if s < digs.length then
          let intpart := digs.take (digs.length - s)
          let frac := strip (digs.drop (digs.length - s))
          if frac.isEmpty then intpart else intpart ++ 46 :: frac
        else
          let frac := strip (List.replicate (s - digs.length) 48 ++ digs)
          if frac.isEmpty then [48] else 48 :: 46 :: frac
      else digs ++ List.replicate (-x.scale).toNat 48
    if x.unscaled < 0 ∧ result ≠ [48] then 45 :: result else result

/-- `std::stoi`: leading white space, a sign, at least one digit, and whatever follows. -/
def stoi (s : Text) : Option ℤ :=
  let s := s.dropWhile isSpace
  let (neg, s) := match s with
    | 43 :: rest => (false, rest)
    | 45 :: rest => (true, rest)
    | _ => (false, s)
  let ds := s.takeWhile isDigit
  if ds.isEmpty then none
  else
    let v : ℤ := if neg then -digitsValue ds else digitsValue ds
    if v < -2 ^ 31 ∨ 2 ^ 31 ≤ v then none else some v

/-- The mantissa loop: the digits, and how many of them come after the point. -/
def mantissa : Text → Bool → Result (Text × ℕ)
  | [], _ => .ok ([], 0)
  | c :: cs, dotSeen =>
    if c = 46 then
      if dotSeen then throwException "Invalid decimal string (multiple dots)" else mantissa cs true
    else if isDigit c then do
      let (ds, frac) ← mantissa cs dotSeen
      return (c :: ds, if dotSeen then frac + 1 else frac)
    else throwException "Invalid decimal digit in string"

/-- `parse_decimal_string`: unscaled part and scale. -/
def parseDecimalString (s : Text) : Result (ℤ × ℤ) := do
  let str := ((s.dropWhile isSpace).reverse.dropWhile isSpace).reverse
  if str.isEmpty then throwException "Invalid decimal string: empty"
  let (neg, str) := match str with
    | 43 :: rest => (false, rest)
    | 45 :: rest => (true, rest)
    | _ => (false, str)
  let isExp := fun c : Byte => c == 101 || c == 69
  let exponent ← match str.dropWhile (fun c => !isExp c) with
    | [] => pure 0
    | _ :: expstr => match stoi expstr with
      | some e => pure e
      | none => throwException "Invalid exponent in decimal string"
  let (digits, frac) ← mantissa (str.takeWhile fun c => !isExp c) false
  let core := digits.dropWhile (· == 48)
  if core.isEmpty then return (0, 0)
  let v : ℤ := digitsValue core
  return (if neg then -v else v, frac - exponent)

/-- The constructor from a text: a blank text is zero. -/
def ofText (s : Text) : Result MiniNumber :=
  if s.all fun c => c == 32 || c == 9 || c == 13 || c == 10 then .ok ⟨0, 0⟩
  else do
    let (u, sc) ← parseDecimalString s
    checkLimits (applyMathContextDefault ⟨u, sc⟩)

/-! ## Digits -/

/-- The numbers below ten have one digit, and a further digit goes to the end. -/
theorem digitsText_of_lt {n : ℕ} (h : n < 10) : digitsText n = [UInt8.ofNat (48 + n)] := by
  rw [digitsText, Nat.toDigits_of_lt_base h]
  interval_cases n <;> rfl

theorem digitsText_ten_mul_add {n d : ℕ} (hn : 0 < n) (hd : d < 10) :
    digitsText (10 * n + d) = digitsText n ++ [UInt8.ofNat (48 + d)] := by
  rw [← digitsText_of_lt hd, digitsText, ← Nat.toDigits_append_toDigits (by norm_num) hn hd,
    List.map_append]
  rfl

theorem digitsValue_append_singleton (ds : Text) (c : Byte) :
    digitsValue (ds ++ [c]) = 10 * digitsValue ds + (c.toNat - 48) := by
  simp [digitsValue]

/-- What holds of one digit and of a number with a further digit holds of every number. -/
theorem digits_induction {P : ℕ → Prop} (hone : ∀ d < 10, P d)
    (hmore : ∀ n d, 0 < n → d < 10 → P n → P (10 * n + d)) (n : ℕ) : P n := by
  induction n using Nat.strong_induction_on with
  | h n ih =>
    by_cases hn : n < 10
    · exact hone n hn
    · have hsplit : 10 * (n / 10) + n % 10 = n := Nat.div_add_mod n 10
      rw [← hsplit]
      exact hmore _ _ (by omega) (Nat.mod_lt n (by norm_num)) (ih _ (by omega))

/-- **The digits of a number have its value.** -/
@[simp] theorem digitsValue_digitsText (n : ℕ) : digitsValue (digitsText n) = n := by
  induction n using digits_induction with
  | hone d hd =>
    rw [digitsText_of_lt hd]
    interval_cases d <;> rfl
  | hmore n d hn hd ih =>
    rw [digitsText_ten_mul_add hn hd, digitsValue_append_singleton, ih, UInt8.toNat_ofNat']
    omega

theorem isDigit_of_mem_digitsText {n : ℕ} {c : Byte} (h : c ∈ digitsText n) : isDigit c = true := by
  have hdigit : ∀ d < 10, isDigit (UInt8.ofNat (48 + d)) = true := by decide
  induction n using digits_induction with
  | hone d hd =>
    rw [digitsText_of_lt hd, List.mem_singleton] at h
    exact h ▸ hdigit d hd
  | hmore n d hn hd ih =>
    rw [digitsText_ten_mul_add hn hd, List.mem_append, List.mem_singleton] at h
    rcases h with h | rfl
    · exact ih h
    · exact hdigit d hd

theorem digitsText_ne_nil (n : ℕ) : digitsText n ≠ [] := by
  rw [digitsText, Ne, List.map_eq_nil_iff]
  exact Nat.toDigits_ne_nil

/-- Zeros at the end multiply, zeros in front do nothing. -/
theorem digitsValue_append_zeros (ds : Text) (k : ℕ) :
    digitsValue (ds ++ List.replicate k 48) = digitsValue ds * 10 ^ k := by
  induction k with
  | zero => simp
  | succ k ih =>
    rw [List.replicate_succ', ← List.append_assoc, digitsValue_append_singleton, ih, pow_succ]
    have hzero : (48 : Byte).toNat - 48 = 0 := rfl
    rw [hzero]
    ring

theorem digitsValue_zeros_append (k : ℕ) (ds : Text) :
    digitsValue (List.replicate k 48 ++ ds) = digitsValue ds := by
  have hzeros : digitsValue (List.replicate k 48) = 0 := by
    have h := digitsValue_append_zeros [] k
    have hnil : digitsValue [] = 0 := rfl
    rwa [List.nil_append, hnil, Nat.zero_mul] at h
  unfold digitsValue at hzeros ⊢
  rw [List.foldl_append, hzeros]

theorem takeWhile_zeros (ds : Text) :
    ds.takeWhile (· == 48) = List.replicate (ds.takeWhile (· == 48)).length 48 := by
  rw [List.eq_replicate_iff]
  exact ⟨rfl, fun c hc => by simpa using List.mem_takeWhile_imp hc⟩

/-- Dropping zeros in front keeps the value. -/
theorem digitsValue_dropWhile (ds : Text) :
    digitsValue (ds.dropWhile (· == 48)) = digitsValue ds := by
  have hsplit := List.takeWhile_append_dropWhile (p := (· == (48 : Byte))) (l := ds)
  conv_rhs => rw [← hsplit, takeWhile_zeros, digitsValue_zeros_append]

/-! ## The text of a number -/

/-- A fraction without its trailing zeros. -/
def stripZeros (frac : Text) : Text := (frac.reverse.dropWhile (· == 48)).reverse

/-- An integer part and a fraction, with a point between them when there is a fraction. -/
def joinPoint (intpart frac : Text) : Text := if frac.isEmpty then intpart else intpart ++ 46 :: frac

/-- The text of a number without its sign, from its digits and its scale. -/
def plainText (digs : Text) (scale : ℤ) : Text :=
  if 0 ≤ scale then
    if scale.toNat < digs.length then
      joinPoint (digs.take (digs.length - scale.toNat))
        (stripZeros (digs.drop (digs.length - scale.toNat)))
    else joinPoint [48] (stripZeros (List.replicate (scale.toNat - digs.length) 48 ++ digs))
  else digs ++ List.replicate (-scale).toNat 48

/-- A point inside the digits. -/
theorem plainText_of_lt {digs : Text} {s : ℕ} (h : s < digs.length) :
    plainText digs s = joinPoint (digs.take (digs.length - s))
      (stripZeros (digs.drop (digs.length - s))) := by
  rw [plainText, if_pos (Int.natCast_nonneg s), Int.toNat_natCast, if_pos h]

/-- A point in front of the digits. -/
theorem plainText_of_le {digs : Text} {s : ℕ} (h : digs.length ≤ s) :
    plainText digs s = joinPoint [48] (stripZeros (List.replicate (s - digs.length) 48 ++ digs)) := by
  rw [plainText, if_pos (Int.natCast_nonneg s), Int.toNat_natCast, if_neg (not_lt.mpr h)]

/-- Zeros behind the digits. -/
theorem plainText_of_neg (digs : Text) (k : ℕ) :
    plainText digs (-(k + 1 : ℕ)) = digs ++ List.replicate (k + 1) 48 := by
  rw [plainText, if_neg (by omega), neg_neg, Int.toNat_natCast]

theorem toText_of_ne {x : MiniNumber} (h : x.unscaled ≠ 0) :
    x.toText = if x.unscaled < 0 ∧ plainText (digitsText x.unscaled.natAbs) x.scale ≠ [48] then
      45 :: plainText (digitsText x.unscaled.natAbs) x.scale
    else plainText (digitsText x.unscaled.natAbs) x.scale := by
  unfold toText
  rw [if_neg h]
  rfl

theorem stripZeros_append_zero (frac : Text) : stripZeros (frac ++ [48]) = stripZeros frac := by
  simp [stripZeros]

/-- A fraction is what is left of it and the zeros that were stripped. -/
theorem stripZeros_append_zeros (frac : Text) :
    ∃ k, stripZeros frac ++ List.replicate k 48 = frac := by
  have hsplit := List.takeWhile_append_dropWhile (p := (· == (48 : Byte))) (l := frac.reverse)
  refine ⟨(frac.reverse.takeWhile (· == 48)).length, ?_⟩
  apply List.reverse_injective
  rw [stripZeros, List.reverse_append, List.reverse_reverse, List.reverse_replicate,
    ← takeWhile_zeros, hsplit]

/-- One more place and one more zero make no difference. -/
theorem plainText_append_zero {digs : Text} (hne : digs ≠ []) (s : ℤ) :
    plainText (digs ++ [48]) (s + 1) = plainText digs s := by
  have hpos : 0 < digs.length := List.length_pos_of_ne_nil hne
  have hlen : (digs ++ [48]).length = digs.length + 1 := by simp
  rcases lt_trichotomy s (-1) with h | h | h
  · obtain ⟨k, rfl⟩ : ∃ k : ℕ, s = -(k + 2 : ℕ) := ⟨(-s - 2).toNat, by omega⟩
    rw [show (-(k + 2 : ℕ) : ℤ) + 1 = -(k + 1 : ℕ) by omega, plainText_of_neg, plainText_of_neg,
      List.append_assoc]
    rfl
  · subst h
    simp [plainText, joinPoint, stripZeros]
  · obtain ⟨k, rfl⟩ : ∃ k : ℕ, s = k := ⟨s.toNat, by omega⟩
    rw [← Int.natCast_succ]
    by_cases hlt : k < digs.length
    · -- the digits in front of the point are the same
      have hsub : digs.length + 1 - (k + 1) = digs.length - k := by omega
      have hle : digs.length - k ≤ digs.length := Nat.sub_le _ _
      rw [plainText_of_lt (by omega), plainText_of_lt hlt, hlen, hsub,
        List.take_append_of_le_length hle, List.drop_append_of_le_length hle, stripZeros_append_zero]
    · have hsub : k + 1 - (digs.length + 1) = k - digs.length := by omega
      rw [plainText_of_le (by omega), plainText_of_le (not_lt.mp hlt), hlen, hsub,
        ← List.append_assoc, stripZeros_append_zero]

/-- **Numbers of the same value have the same text.** -/
theorem toText_congr {x y : MiniNumber} (h : x.toRat = y.toRat) : x.toText = y.toText := by
  -- one zero and one place at a time
  have hstep : ∀ (u s : ℤ), toText ⟨u * 10, s + 1⟩ = toText ⟨u, s⟩ := by
    intro u s
    by_cases hu : u = 0
    · subst hu
      rfl
    · have hpos : 0 < u.natAbs := Int.natAbs_pos.mpr hu
      have hdigs : digitsText (u * 10).natAbs = digitsText u.natAbs ++ [48] := by
        have hmul := digitsText_ten_mul_add hpos (show 0 < 10 by norm_num)
        rw [Int.natAbs_mul, mul_comm]
        exact hmul
      have hsign : u * 10 < 0 ↔ u < 0 := by omega
      rw [toText_of_ne (show u * 10 ≠ 0 by omega), toText_of_ne hu]
      simp only [hdigs, hsign, plainText_append_zero (digitsText_ne_nil _)]
  have hmany : ∀ (u s : ℤ) (k : ℕ), toText ⟨u * 10 ^ k, s + k⟩ = toText ⟨u, s⟩ := by
    intro u s k
    induction k with
    | zero => simp
    | succ k ih =>
      rw [← ih, pow_succ, ← mul_assoc, Nat.cast_succ, ← add_assoc]
      exact hstep _ _
  have hscale : ∀ x y : MiniNumber, x.scale ≤ y.scale → x.toRat = y.toRat → x.toText = y.toText := by
    intro x y hle h
    have hu : y.unscaled = x.unscaled * 10 ^ (y.scale - x.scale).toNat := by
      rw [toRat, toRat, ← value_rescale_to x.unscaled hle, value_inj] at h
      exact h.symm
    have hs : y.scale = x.scale + (y.scale - x.scale).toNat := by omega
    have hy : y = ⟨x.unscaled * 10 ^ (y.scale - x.scale).toNat,
        x.scale + (y.scale - x.scale).toNat⟩ := by
      rw [← hu, ← hs]
    rw [hy, hmany]
  rcases le_total x.scale y.scale with hle | hle
  · exact hscale x y hle h
  · exact (hscale y x hle h.symm).symm

/-! ## Reading a text back -/

theorem isDigit_facts {c : Byte} (h : isDigit c = true) :
    isSpace c = false ∧ c ≠ 101 ∧ c ≠ 69 ∧ c ≠ 43 ∧ c ≠ 45 ∧ c ≠ 46 := by
  revert c
  decide +kernel

/-- The sign in front of a number. -/
def splitSign (str : Text) : Bool × Text :=
  match str with
  | 43 :: rest => (false, rest)
  | 45 :: rest => (true, rest)
  | _ => (false, str)

/-- `parse_decimal_string` behind the sign. -/
def parseUnsigned (neg : Bool) (str : Text) : Result (ℤ × ℤ) := do
  let isExp := fun c : Byte => c == 101 || c == 69
  let exponent ← match str.dropWhile (fun c => !isExp c) with
    | [] => pure 0
    | _ :: expstr => match stoi expstr with
      | some e => pure e
      | none => throwException "Invalid exponent in decimal string"
  let (digits, frac) ← mantissa (str.takeWhile fun c => !isExp c) false
  let core := digits.dropWhile (· == 48)
  if core.isEmpty then return (0, 0)
  let v : ℤ := digitsValue core
  return (if neg then -v else v, frac - exponent)

/-- A text without white space is parsed as it stands. -/
theorem parseDecimalString_eq {str : Text} (hne : str ≠ []) (h : ∀ c ∈ str, isSpace c = false) :
    parseDecimalString str = parseUnsigned (splitSign str).1 (splitSign str).2 := by
  have hkeep : ∀ l : Text, (∀ c ∈ l, isSpace c = false) → l.dropWhile isSpace = l := by
    intro l hl
    cases l with
    | nil => rfl
    | cons c l => exact List.dropWhile_cons_of_neg (by simp [hl c])
  have htrim : ((str.dropWhile isSpace).reverse.dropWhile isSpace).reverse = str := by
    rw [hkeep str h, hkeep str.reverse fun c hc => h c (List.mem_reverse.mp hc), List.reverse_reverse]
  unfold parseDecimalString
  rw [htrim]
  cases str with
  | nil => exact absurd rfl hne
  | cons c str => rfl

theorem mantissa_digits {ds : Text} (h : ∀ c ∈ ds, isDigit c = true) :
    mantissa ds true = .ok (ds, ds.length) := by
  induction ds with
  | nil => rfl
  | cons c ds ih =>
    have hc := h c (by simp)
    rw [mantissa, if_neg (isDigit_facts hc).2.2.2.2.2, if_pos hc, ih fun d hd => h d (by simp [hd])]
    rfl

/-- **The mantissa loop** collects the digits on both sides of the point. -/
theorem mantissa_joinPoint {intpart frac : Text} (hint : ∀ c ∈ intpart, isDigit c = true)
    (hfrac : ∀ c ∈ frac, isDigit c = true) :
    mantissa (joinPoint intpart frac) false = .ok (intpart ++ frac, frac.length) := by
  have hfront : ∀ (ds rest more : Text) (n : ℕ), (∀ c ∈ ds, isDigit c = true) →
      mantissa rest false = .ok (more, n) → mantissa (ds ++ rest) false = .ok (ds ++ more, n) := by
    intro ds rest more n hds hrest
    induction ds with
    | nil => exact hrest
    | cons c ds ih =>
      have hc := hds c (by simp)
      rw [List.cons_append, mantissa, if_neg (isDigit_facts hc).2.2.2.2.2, if_pos hc,
        ih fun d hd => hds d (by simp [hd])]
      rfl
  cases frac with
  | nil =>
    have h := hfront intpart [] [] 0 hint rfl
    rw [List.append_nil] at h
    rw [List.append_nil]
    exact h
  | cons c frac =>
    refine hfront intpart (46 :: c :: frac) (c :: frac) _ hint ?_
    rw [mantissa, if_pos rfl]
    exact mantissa_digits hfrac

theorem isDigit_or_of_mem_joinPoint {intpart frac : Text} (hint : ∀ c ∈ intpart, isDigit c = true)
    (hfrac : ∀ c ∈ frac, isDigit c = true) {c : Byte} (h : c ∈ joinPoint intpart frac) :
    isDigit c = true ∨ c = 46 := by
  unfold joinPoint at h
  split_ifs at h
  · exact Or.inl (hint c h)
  · rcases List.mem_append.mp h with h | h
    · exact Or.inl (hint c h)
    · rcases List.mem_cons.mp h with rfl | h
      · exact Or.inr rfl
      · exact Or.inl (hfrac c h)

/-- **Behind the sign**, the text of a number reads as its digits with a scale. -/
theorem parseUnsigned_joinPoint (neg : Bool) {intpart frac : Text}
    (hint : ∀ c ∈ intpart, isDigit c = true) (hfrac : ∀ c ∈ frac, isDigit c = true) :
    ∃ u s, parseUnsigned neg (joinPoint intpart frac) = .ok (u, s) ∧
      value u s = value (if neg then -(digitsValue (intpart ++ frac) : ℤ)
        else digitsValue (intpart ++ frac)) frac.length := by
  have hexp : ∀ c ∈ joinPoint intpart frac, (!(c == 101 || c == 69)) = true := by
    intro c hc
    rcases isDigit_or_of_mem_joinPoint hint hfrac hc with h | rfl
    · have hfacts := isDigit_facts h
      simp [hfacts.2.1, hfacts.2.2.1]
    · rfl
  unfold parseUnsigned
  simp only [List.dropWhile_eq_nil_iff.mpr hexp, List.takeWhile_eq_self_iff.mpr hexp,
    mantissa_joinPoint hint hfrac, pure_bind, Result.ok_bind]
  have hvalue := digitsValue_dropWhile (intpart ++ frac)
  by_cases hcore : ((intpart ++ frac).dropWhile (· == 48)).isEmpty
  · -- nothing but zeros
    rw [List.isEmpty_iff.mp hcore] at hvalue
    have h0 : digitsValue (intpart ++ frac) = 0 := hvalue.symm
    rw [if_pos hcore]
    exact ⟨0, 0, rfl, by simp [h0]⟩
  · rw [if_neg hcore]
    exact ⟨_, _, rfl, by rw [hvalue, sub_zero]⟩

/-- **The text of a number**, apart from its sign: digits on both sides of a point that have its
value. -/
theorem plainText_eq_joinPoint (n : ℕ) (s : ℤ) :
    ∃ intpart frac, plainText (digitsText n) s = joinPoint intpart frac ∧ intpart ≠ [] ∧
      (∀ c ∈ intpart, isDigit c = true) ∧ (∀ c ∈ frac, isDigit c = true) ∧
      value (digitsValue (intpart ++ frac)) frac.length = value n s := by
  have hdigit : ∀ c ∈ digitsText n, isDigit c = true := fun c hc => isDigit_of_mem_digitsText hc
  have hzeros : ∀ (k : ℕ), ∀ c ∈ List.replicate k (48 : Byte), isDigit c = true := by
    intro k c hc
    rw [List.eq_of_mem_replicate hc]
    rfl
  -- the fraction with its trailing zeros, and the digits in front of it
  have hcut : ∀ (intpart whole : Text) (k : ℕ), digitsValue (intpart ++ whole) = n →
      (whole.length : ℤ) = s → stripZeros whole ++ List.replicate k 48 = whole →
      value (digitsValue (intpart ++ stripZeros whole)) (stripZeros whole).length = value n s := by
    intro intpart whole k hvalue hlen hk
    rw [← hvalue, ← hlen, ← hk, ← List.append_assoc, digitsValue_append_zeros, hk]
    push_cast
    rw [← value_rescale _ _ k]
    congr 1
    have hlen' := congrArg List.length hk
    rw [List.length_append, List.length_replicate] at hlen'
    exact_mod_cast hlen'
  have hstrip : ∀ whole : Text, (∀ c ∈ whole, isDigit c = true) →
      ∀ c ∈ stripZeros whole, isDigit c = true := by
    intro whole h c hc
    obtain ⟨k, hk⟩ := stripZeros_append_zeros whole
    exact h c (hk ▸ List.mem_append_left _ hc)
  rcases lt_or_ge s 0 with h | h
  · obtain ⟨k, rfl⟩ : ∃ k : ℕ, s = -(k + 1 : ℕ) := ⟨(-s - 1).toNat, by omega⟩
    refine ⟨digitsText n ++ List.replicate (k + 1) 48, [], plainText_of_neg _ k, ?_, ?_, by simp, ?_⟩
    · exact List.append_ne_nil_of_left_ne_nil (digitsText_ne_nil n) _
    · exact fun c hc => (List.mem_append.mp hc).elim (hdigit c) (hzeros _ c)
    · rw [List.append_nil, digitsValue_append_zeros, digitsValue_digitsText]
      have hscale := value_rescale n (-(k + 1 : ℕ)) (k + 1)
      rw [neg_add_cancel] at hscale
      exact_mod_cast hscale
  · obtain ⟨k, rfl⟩ : ∃ k : ℕ, s = k := ⟨s.toNat, by omega⟩
    by_cases hlt : k < (digitsText n).length
    · set whole := (digitsText n).drop ((digitsText n).length - k) with hwhole
      obtain ⟨j, hj⟩ := stripZeros_append_zeros whole
      refine ⟨_, _, plainText_of_lt hlt, ?_, fun c hc => hdigit c (List.mem_of_mem_take hc),
        hstrip _ fun c hc => hdigit c (List.mem_of_mem_drop hc), hcut _ whole j ?_ ?_ hj⟩
      · rw [Ne, List.take_eq_nil_iff]
        rintro (h0 | h0)
        · omega
        · exact digitsText_ne_nil n h0
      · rw [hwhole, List.take_append_drop, digitsValue_digitsText]
      · rw [hwhole, List.length_drop]
        omega
    · set whole := List.replicate (k - (digitsText n).length) 48 ++ digitsText n with hwhole
      obtain ⟨j, hj⟩ := stripZeros_append_zeros whole
      refine ⟨_, _, plainText_of_le (not_lt.mp hlt), by simp, hzeros 1,
        hstrip _ fun c hc => (List.mem_append.mp hc).elim (hzeros _ c) (hdigit c),
        hcut _ whole j ?_ ?_ hj⟩
      · have hback : digitsValue whole = n := by
          rw [hwhole, digitsValue_zeros_append, digitsValue_digitsText]
        exact (digitsValue_zeros_append 1 whole).trans hback
      · rw [hwhole, List.length_append, List.length_replicate]
        omega

/-- A text that starts with a digit has no sign. -/
theorem splitSign_joinPoint {intpart frac : Text} (hne : intpart ≠ [])
    (hint : ∀ c ∈ intpart, isDigit c = true) :
    splitSign (joinPoint intpart frac) = (false, joinPoint intpart frac) := by
  cases intpart with
  | nil => exact absurd rfl hne
  | cons c intpart =>
    have hc := isDigit_facts (hint c (by simp))
    obtain ⟨rest, hrest⟩ : ∃ rest, joinPoint (c :: intpart) frac = c :: rest := by
      unfold joinPoint
      split_ifs
      · exact ⟨_, rfl⟩
      · exact ⟨_, rfl⟩
    rw [hrest]
    unfold splitSign
    split
    · next heq => exact absurd (List.cons.inj heq).1 hc.2.2.2.1
    · next heq => exact absurd (List.cons.inj heq).1 hc.2.2.2.2.1
    · rfl

/-- **A text reads back as a number of the same value.** -/
theorem parseDecimalString_toText {x : MiniNumber} (h : x.unscaled ≠ 0) :
    ∃ u s, parseDecimalString x.toText = .ok (u, s) ∧ value u s = x.toRat := by
  obtain ⟨intpart, frac, htext, hne, hint, hfrac, hvalue⟩ :=
    plainText_eq_joinPoint x.unscaled.natAbs x.scale
  have hspace : ∀ c ∈ joinPoint intpart frac, isSpace c = false := by
    intro c hc
    rcases isDigit_or_of_mem_joinPoint hint hfrac hc with hd | rfl
    · exact (isDigit_facts hd).1
    · rfl
  have hjoin : joinPoint intpart frac ≠ [] := by
    unfold joinPoint
    split_ifs
    · exact hne
    · simp
  rw [toText_of_ne h, htext]
  split_ifs with hneg
  · obtain ⟨u, s, hparse, huv⟩ := parseUnsigned_joinPoint true hint hfrac
    refine ⟨u, s, ?_, ?_⟩
    · rw [parseDecimalString_eq (by simp) (by simpa using ⟨rfl, hspace⟩)]
      exact hparse
    · have habs : (x.unscaled.natAbs : ℤ) = -x.unscaled := by omega
      rw [huv, if_pos rfl, value_neg, hvalue, habs, value_neg, neg_neg]
      rfl
  · obtain ⟨u, s, hparse, huv⟩ := parseUnsigned_joinPoint false hint hfrac
    refine ⟨u, s, ?_, ?_⟩
    · rw [parseDecimalString_eq hjoin hspace, splitSign_joinPoint hne hint]
      exact hparse
    · -- a number below zero is not printed as a zero
      have habs : (x.unscaled.natAbs : ℤ) = x.unscaled := by
        by_contra hlt
        have hzero : joinPoint intpart frac = [48] := by
          by_contra hne48
          exact hneg ⟨by omega, hne48⟩
        unfold joinPoint at hzero
        split_ifs at hzero with hempty
        · rw [List.isEmpty_iff.mp hempty, hzero, List.append_nil] at hvalue
          have h0 : value x.unscaled.natAbs x.scale = 0 := hvalue.symm.trans (by
            have hdigit : digitsValue [48] = 0 := rfl
            rw [hdigit, Nat.cast_zero, value_zero_left])
          rw [value_eq_zero_iff] at h0
          omega
        · have hlen := congrArg List.length hzero
          have hpos := List.length_pos_of_ne_nil hne
          simp only [List.length_append, List.length_cons, List.length_nil] at hlen
          omega
      rw [huv, if_neg (by simp), hvalue, habs]
      rfl

/-- **Printing and reading back** keeps the value of a number inside the limits, and so its text. -/
theorem ofText_toText {x : MiniNumber} (h : x.Canonical) :
    ∃ m, ofText x.toText = .ok m ∧ m.Canonical ∧ m.toRat = x.toRat := by
  by_cases h0 : x.unscaled = 0
  · have hx : x = zero := by
      cases x
      simp only at h0
      subst h0
      have := h.zero_scale rfl
      simp_all [zero, ofInt]
    subst hx
    exact ⟨zero, rfl, canonical_zero, rfl⟩
  · obtain ⟨u, s, hparse, hvalue⟩ := parseDecimalString_toText h0
    obtain ⟨m, hm, hrat⟩ := checked_of_value h hvalue
    refine ⟨m, ?_, canonical_of_checked hm, hrat⟩
    have hblank : ¬ (x.toText.all fun c => c == 32 || c == 9 || c == 13 || c == 10) = true := by
      -- a blank text would not have been parsed
      intro hall
      have hspace : ∀ c ∈ x.toText, isSpace c = true := by
        intro c hc
        have hmem := List.all_eq_true.mp hall c hc
        simp only [Bool.or_eq_true, beq_iff_eq] at hmem
        rcases hmem with ((rfl | rfl) | rfl) | rfl <;> rfl
      rw [parseDecimalString, List.dropWhile_eq_nil_iff.mpr hspace] at hparse
      cases hparse
    rw [ofText, if_neg hblank, hparse]
    exact hm

/-- A number read from a text is inside the limits. -/
theorem ofText_canonical {s : Text} {m : MiniNumber} (h : ofText s = .ok m) : m.Canonical := by
  unfold ofText at h
  split_ifs at h
  · cases h
    exact canonical_zero
  · obtain ⟨parsed, -, h⟩ := Result.bind_eq_ok.mp h
    exact canonical_of_checked h

/-- **The text of a number inside the limits is stable**: read back and printed again it is the same. -/
theorem toText_of_ofText {x m : MiniNumber} (h : x.Canonical) (hm : ofText x.toText = .ok m) :
    m.toText = x.toText := by
  obtain ⟨m', hm', -, hrat⟩ := ofText_toText h
  rw [hm', Except.ok.injEq] at hm
  rw [← hm]
  exact toText_congr hrat

/-- Trailing zeros are all that printing loses. -/
example : ofText (toText ⟨-1250, 2⟩) = .ok ⟨-125, 1⟩ := by decide +kernel

end MiniNumber

end Minima
