import Minima.Commands.Send

/-! # The balance of a transaction that `send` signs

What goes into the transaction and what comes out of it, up to the point where the command signs.

* **`gatherCoins_spec`** — the amount of the inputs.
* **`recipientOutputs_spec`** — a recipient gets its amount in Minima.
* **`send_balanced_iff`** — the transaction is balanced and every recipient gets its amount, unless a
  recipient of a token is to get more decimal places than the token has. -/

namespace Minima

open MiniNumber Decimal

/-- A check that throws was passed. -/
theorem Result.of_check {α β : Type} {c : Prop} [Decidable c] {what : String} {f : α → Result β}
    {x : Result β} {b : β} (h : (if c then throwException what >>= f else x) = .ok b) :
    ¬ c ∧ x = .ok b := by
  split_ifs at h with hc
  · obtain ⟨a, ha, -⟩ := Result.bind_eq_ok.mp h
    exact absurd ha (throwException_ne_ok _ _)
  · exact ⟨hc, h⟩

/-- The integer part of a number that is not negative is not larger. -/
theorem MiniNumber.toNat_getAsInt_le {x : MiniNumber} (h : 0 ≤ x.toRat) :
    (x.getAsInt.toNat : ℚ) ≤ x.toRat := by
  have hfloor := getAsBigInteger_eq_floor h
  have hnonneg : 0 ≤ ⌊x.toRat⌋ := Int.floor_nonneg.mpr h
  have hle : (x.getAsInt.toNat : ℤ) ≤ ⌊x.toRat⌋ := by
    unfold getAsInt
    omega
  exact (Int.cast_le.mpr hle).trans (Int.floor_le _)

/-- The amount of a canonical number is stored as it is. -/
theorem MiniNumber.Canonical.stored_val {x : MiniNumber} (hx : x.Canonical) {y : StoredNumber}
    (h : x.stored = .ok y) : y.val = x := by
  unfold MiniNumber.stored at h
  split at h
  next z hz =>
    rw [copy_of_canonical hx, Except.ok.injEq] at hz
    obtain rfl := Except.ok.inj h
    exact hz.symm
  next => cases h

/-- The amount of a token that a number of Minima stands for, whenever it is calculated. -/
theorem Token.getScaledTokenAmount_toRat {t : Token} {m x : MiniNumber} (hm : m.Canonical)
    (h : t.getScaledTokenAmount m = .ok x) : x.toRat = m.toRat * 10 ^ t.scaleTurns := by
  have hloop : ∀ n : ℕ, ∀ y : MiniNumber,
      (List.range n).foldlM (fun current _ => current.mult (.ofInt 10)) m = .ok y →
        y.Canonical ∧ y.toRat = m.toRat * 10 ^ n := by
    intro n
    induction n with
    | zero =>
      intro y hy
      obtain rfl := Except.ok.inj hy
      exact ⟨hm, by rw [pow_zero, mul_one]⟩
    | succ n ih =>
      intro y hy
      rw [List.range_succ, List.foldlM_append] at hy
      obtain ⟨z, hz, hy⟩ := Result.bind_eq_ok.mp hy
      obtain ⟨hcanonical, hvalue⟩ := ih z hz
      rw [List.foldlM_cons] at hy
      obtain ⟨w, hw, hy⟩ := Result.bind_eq_ok.mp hy
      obtain rfl := Except.ok.inj hy
      refine ⟨mult_canonical hw, ?_⟩
      have hten := (mult_truncates z (.ofInt 10)).toRat_eq hw
      -- the digits are the same, and there is one place less
      have hunits := InUnits.of_canonical hcanonical
      obtain ⟨k, hk⟩ := hunits
      rw [pow_zero, mul_one] at hk
      have hmul := Token.truncated_mul_pow hk 1
      have hrep : Representable z.toRat := ⟨z, hcanonical, rfl⟩
      rw [pow_one, hrep.truncated_eq] at hmul
      rw [hten, toRat_ofInt, Int.cast_ofNat, hmul, hvalue, pow_succ, mul_assoc]
  exact (hloop _ x h).2

namespace Send

/-! ## Outputs -/

theorem output_spec {tokenid : Text} {token : Option Token} {address : MiniData} {amount : MiniNumber}
    {storestate : Bool} {c : Coin} (h : output tokenid token address amount storestate = .ok c)
    (hamount : amount.Canonical) : c.value = amount.toRat ∧ c.address = address := by
  unfold output at h
  obtain ⟨x, hx, h⟩ := Result.bind_eq_ok.mp h
  have hval := hamount.stored_val hx
  split_ifs at h
  · obtain rfl := Except.ok.inj h
    exact ⟨congrArg toRat hval, rfl⟩
  · obtain ⟨tokenID, -, h⟩ := Result.bind_eq_ok.mp h
    cases token with
    | none => exact absurd h (undefinedBehaviour_ne_ok _ _)
    | some token =>
      obtain ⟨tokcp, -, h⟩ := Result.bind_eq_ok.mp h
      obtain rfl := Except.ok.inj h
      exact ⟨congrArg toRat hval, rfl⟩

/-- Coins of one amount at one address. -/
def Pays (address : MiniData) (c : Coin) : Prop := c.address = address ∧ 0 < c.value

/-- The parts of one recipient. -/
theorem splitLoop_spec {make : MiniNumber → Result Coin} {address : MiniData} {x : MiniNumber}
    (hx : x.Canonical) (hpos : 0 < x.toRat)
    (hmake : ∀ c, make x = .ok c → c.value = x.toRat ∧ c.address = address) {n : ℕ}
    (hlt : n * x.toRat < 10 ^ 20) {outputs : List Coin} {total : MiniNumber}
    (h : splitLoop make x n = .ok (outputs, total)) :
    (∀ c ∈ outputs, Pays address c) ∧ (outputs.map Coin.value).sum = n * x.toRat ∧ total.Canonical ∧
      total.toRat = n * x.toRat := by
  induction n generalizing outputs total with
  | zero =>
    obtain ⟨rfl, rfl⟩ := Prod.mk.inj (Except.ok.inj h)
    simpa using canonical_zero
  | succ n ih =>
    push_cast at hlt ⊢
    obtain ⟨⟨outs, tot⟩, hrec, h⟩ := Result.bind_eq_ok.mp h
    obtain ⟨c, hc, h⟩ := Result.bind_eq_ok.mp h
    obtain ⟨tot', htot', h⟩ := Result.bind_eq_ok.mp h
    obtain ⟨rfl, rfl⟩ := Prod.mk.inj (Except.ok.inj h)
    obtain ⟨hall, hsum, hcanonical, hvalue⟩ := ih (by linarith) hrec
    obtain ⟨hcvalue, hcaddress⟩ := hmake c hc
    have hnonneg : (0 : ℚ) ≤ n * x.toRat := by positivity
    have hadd := add_toRat hcanonical hx (by rw [hvalue, abs_of_nonneg (by linarith)]; linarith) htot'
    refine ⟨fun d hd => ?_, ?_, add_canonical htot', ?_⟩
    · rcases List.mem_append.mp hd with hd | hd
      · exact hall d hd
      · rw [List.mem_singleton.mp hd]
        exact ⟨hcaddress, hcvalue ▸ hpos⟩
    · rw [List.map_append, List.sum_append, hsum, List.map_singleton, List.sum_singleton, hcvalue]
      ring
    · rw [hadd, hvalue]
      ring

/-- What is known of the number of parts. -/
structure SplitOk (split : MiniNumber) : Prop where
  canonical : split.Canonical
  one_le : 1 ≤ split.toRat
  le_twenty : split.toRat ≤ 20

theorem splitOf_spec {P : Settings} {x split : MiniNumber} (h : splitOf P x = .ok split) :
    SplitOk split := by
  obtain ⟨y, hy, h⟩ := Result.bind_eq_ok.mp h
  split_ifs at h with hrange
  · exact absurd h (throwException_ne_ok _ _)
  obtain rfl := Except.ok.inj h
  rw [Bool.or_eq_true, not_or, isLess_iff, isMore_iff, not_lt, not_lt, toRat_one, toRat_ofInt] at hrange
  refine ⟨canonical_of_checked hy, hrange.1, hrange.2.trans ?_⟩
  have := P.split_le
  exact_mod_cast this

/-- **A recipient gets its amount** in Minima, in parts that are all positive. -/
theorem recipientOutputs_spec {p : Params} {split : MiniNumber} {token : Option Token}
    {user : AddressAmount} {outputs : List Coin} (hsplit : SplitOk split)
    (h : recipientOutputs p split token user = .ok outputs) :
    ∃ usertotal, toMinima p.tokenid token user.mAmount.val = .ok usertotal ∧ 0 < usertotal.toRat ∧
      (usertotal.Canonical → usertotal.toRat < 10 ^ 20 →
        (∀ c ∈ outputs, Pays user.mAddress c) ∧ (outputs.map Coin.value).sum = usertotal.toRat) := by
  obtain ⟨usertotal, htotal, h⟩ := Result.bind_eq_ok.mp h
  obtain ⟨splitamount, hdiv, h⟩ := Result.bind_eq_ok.mp h
  have hbig : split.toRat < 10 ^ 60 := hsplit.le_twenty.trans_lt (by norm_num)
  dsimp only at h
  obtain ⟨hzero, h⟩ := Result.of_check h
  rw [isLessEqual_iff, toRat_zero, not_le] at hzero
  have hpos : 0 < usertotal.toRat := by
    by_contra hneg
    exact absurd hzero (not_lt.mpr
      (toRat_nonpos_of_div (not_lt.mp hneg) (zero_lt_one.trans_le hsplit.one_le) hsplit.canonical hbig hdiv))
  refine ⟨usertotal, htotal, hpos, fun hcanonical hlt => ?_⟩
  obtain ⟨⟨outs, tot⟩, hloop, h⟩ := Result.bind_eq_ok.mp h
  obtain ⟨currentdiff, hdiff, h⟩ := Result.bind_eq_ok.mp h
  obtain ⟨-, hle⟩ := MiniNumber.div_le hpos.le ((le_abs_self _).trans hcanonical.bound) hsplit.one_le
    hsplit.canonical hbig hdiv
  -- the parts are no more than the amount
  have hparts : (split.getAsInt.toNat : ℚ) * splitamount.toRat ≤ usertotal.toRat := by
    have hturns := toNat_getAsInt_le (zero_le_one.trans hsplit.one_le)
    rw [le_div_iff₀ (zero_lt_one.trans_le hsplit.one_le)] at hle
    nlinarith
  obtain ⟨hall, hsum, htotcanonical, htotvalue⟩ := splitLoop_spec (div_canonical hdiv) hzero
    (fun c hc => output_spec hc (div_canonical hdiv)) (hparts.trans_lt hlt) hloop
  have hdiffvalue := sub_inUnits (InUnits.of_canonical hcanonical) (InUnits.of_canonical htotcanonical)
    (by rw [htotvalue, pow_zero, mul_one, abs_of_nonneg (by linarith)]; nlinarith) hdiff
  rw [htotvalue] at hdiffvalue
  split_ifs at h with hmore
  · obtain ⟨remaincoin, hremain, h⟩ := Result.bind_eq_ok.mp h
    obtain rfl := Except.ok.inj h
    obtain ⟨hvalue, haddress⟩ := output_spec hremain (sub_canonical hdiff)
    rw [isMore_iff, toRat_zero] at hmore
    refine ⟨fun c hc => ?_, ?_⟩
    · rcases List.mem_append.mp hc with hc | hc
      · exact hall c hc
      · rw [List.mem_singleton.mp hc]
        exact ⟨haddress, hvalue ▸ hmore⟩
    · rw [List.map_append, List.sum_append, hsum, List.map_singleton, List.sum_singleton, hvalue,
        hdiffvalue, add_sub_cancel]
  · obtain rfl := Except.ok.inj h
    rw [isMore_iff, toRat_zero, not_lt, hdiffvalue] at hmore
    exact ⟨hall, hsum.trans (le_antisymm hparts (by linarith))⟩

/-! ## Inputs -/

/-- What the coins of a node are promised to be: their amounts are valid, they are fewer than an `int` can
count, no two of them are the same, and the coins of a token all carry it. -/
structure Spendable (tokenid : Text) (tok : Option Token) (coins : List Coin) : Prop where
  positive : ∀ c ∈ coins, 0 < c.value
  valid : ∀ c ∈ coins, c.value ≤ 10 ^ 9
  count : coins.length < 2 ^ 31
  nodup : (coins.map Coin.coinID).Nodup
  token : isMinima tokenid = false → ∀ c ∈ coins, c.token = tok

/-- By how many places the amounts of the coins are shifted. -/
def places (minima : Bool) (tok : Option Token) : ℕ := if minima then 0 else tok.elim 0 Token.scaleTurns

/-- What the loop has collected: an amount in the units that are sent, from coins worth something. -/
structure Gathered (minima : Bool) (tok : Option Token) (current : MiniNumber) (used : List Coin)
    (token : Option Token) : Prop where
  positive : ∀ c ∈ used, 0 < c.value
  value : current.toRat = (used.map Coin.value).sum * 10 ^ places minima tok
  units : InUnits (places minima tok) current.toRat
  token : token = none ∨ token = tok

/-- The amount of a coin, in Minima or in the units of its token. -/
theorem coinAmount_spec {minima : Bool} {tok token token' : Option Token} {coin : Coin} {amt : MiniNumber}
    (htoken : minima = false → coin.token = tok) (htok : token = none ∨ token = tok)
    (h : coinAmount minima token coin = .ok (token', amt)) :
    amt.toRat = coin.value * 10 ^ places minima tok ∧ (token' = none ∨ token' = tok) := by
  unfold coinAmount at h
  cases minima with
  | true =>
    obtain ⟨rfl, rfl⟩ := Prod.mk.inj (Except.ok.inj h)
    exact ⟨by simp [places, Coin.value], htok⟩
  | false =>
    obtain rfl := htoken rfl
    rw [if_neg (by decide)] at h
    cases hcoin : coin.token with
    | none =>
      rw [hcoin] at h
      exact absurd h (undefinedBehaviour_ne_ok _ _)
    | some t =>
      rw [hcoin] at h htok
      obtain ⟨x, hx, h⟩ := Result.bind_eq_ok.mp h
      obtain ⟨rfl, rfl⟩ := Prod.mk.inj (Except.ok.inj h)
      refine ⟨Token.getScaledTokenAmount_toRat coin.amount.2 hx, .inr ?_⟩
      rcases htok with rfl | rfl <;> rfl

/-- A coin more. -/
theorem Gathered.add {minima : Bool} {tok token token' : Option Token} {current current' amt : MiniNumber}
    {used : List Coin} {coin : Coin} (hg : Gathered minima tok current used token) (hcoin : 0 < coin.value)
    (hlt : ((used ++ [coin]).map Coin.value).sum < 10 ^ 20)
    (hamt : amt.toRat = coin.value * 10 ^ places minima tok) (htoken : token' = none ∨ token' = tok)
    (h : current.add amt = .ok current') : Gathered minima tok current' (used ++ [coin]) token' := by
  have hunits : InUnits (places minima tok) amt.toRat :=
    hamt ▸ (InUnits.of_canonical coin.amount.2).mul_pow _
  have hused : 0 ≤ (used.map Coin.value).sum := by
    refine List.sum_nonneg fun x hx => ?_
    obtain ⟨c, hc, rfl⟩ := List.mem_map.mp hx
    exact (hg.positive c hc).le
  have hsum : current.toRat + amt.toRat = ((used ++ [coin]).map Coin.value).sum * 10 ^ places minima tok := by
    rw [hg.value, hamt, List.map_append, List.sum_append, List.map_singleton, List.sum_singleton, add_mul]
  have hpow : (0 : ℚ) < 10 ^ places minima tok := by positivity
  have hvalue : current'.toRat = current.toRat + amt.toRat := by
    refine add_inUnits hg.units hunits ?_ h
    rw [hsum, abs_of_nonneg]
    · exact mul_lt_mul_of_pos_right hlt hpow
    · rw [List.map_append, List.sum_append, List.map_singleton, List.sum_singleton]
      positivity
  refine ⟨fun c hc => ?_, hvalue.trans hsum, inUnits_of_add hg.units hunits h, htoken⟩
  rcases List.mem_append.mp hc with hc | hc
  · exact hg.positive c hc
  · exact List.mem_singleton.mp hc ▸ hcoin

/-- **The inputs**: some of the coins, each at most once, with the amount they have in the units of the
token. -/
theorem gatherCoins_spec {use : CoinsInUse} {minima : Bool} {tok : Option Token} {totalamount : MiniNumber}
    {coins : List Coin} (htoken : minima = false → ∀ c ∈ coins, c.token = tok)
    (hvalue : ∀ c ∈ coins, 0 < c.value) {current current' : MiniNumber} {used used' : List Coin}
    {token token' : Option Token} (hg : Gathered minima tok current used token)
    (hlt : ((used ++ coins).map Coin.value).sum < 10 ^ 20)
    (h : gatherCoins use minima totalamount coins current used token = .ok (current', used', token')) :
    (∃ more, more.Sublist coins ∧ used' = used ++ more) ∧ Gathered minima tok current' used' token' := by
  induction coins generalizing current used token with
  | nil =>
    obtain ⟨rfl, rfl, rfl⟩ : current = current' ∧ used = used' ∧ token = token' := by
      simpa [gatherCoins] using h
    exact ⟨⟨[], List.nil_sublist _, by simp⟩, hg⟩
  | cons coin coins ih =>
    obtain ⟨hcoin, hrest⟩ := List.forall_mem_cons.mp hvalue
    have htokens : minima = false → ∀ c ∈ coins, c.token = tok := fun hm c hc =>
      htoken hm c (List.mem_cons_of_mem _ hc)
    have hcoins : 0 ≤ (coins.map Coin.value).sum := by
      refine List.sum_nonneg fun x hx => ?_
      obtain ⟨c, hc, rfl⟩ := List.mem_map.mp hx
      exact (hrest c hc).le
    simp only [List.map_append, List.sum_append, List.map_cons, List.sum_cons] at hlt
    rw [gatherCoins] at h
    by_cases huse : use.checkForMiningCoin coin.coinID.to0xString = true ∨
        use.checkMempoolCoins coin.coinID = true
    · -- a coin that is in use is passed over
      have hskip : gatherCoins use minima totalamount coins current used token =
          .ok (current', used', token') := by
        rcases huse with hmining | hpool
        · rwa [if_pos hmining] at h
        · rwa [if_pos hpool, ite_self] at h
      obtain ⟨⟨more, hmore, heq⟩, hspec⟩ := ih htokens hrest hg (by
        simp only [List.map_append, List.sum_append]
        linarith) hskip
      exact ⟨⟨more, hmore.cons coin, heq⟩, hspec⟩
    · rw [not_or] at huse
      rw [if_neg huse.1, if_neg huse.2] at h
      obtain ⟨⟨token₁, amt⟩, hamt, h⟩ := Result.bind_eq_ok.mp h
      obtain ⟨current₁, hadd, h⟩ := Result.bind_eq_ok.mp h
      obtain ⟨hamtvalue, htoken₁⟩ :=
        coinAmount_spec (fun hm => htoken hm coin List.mem_cons_self) hg.token hamt
      have hnext : Gathered minima tok current₁ (used ++ [coin]) token₁ := by
        refine hg.add hcoin ?_ hamtvalue htoken₁ hadd
        simp only [List.map_append, List.sum_append, List.map_singleton, List.sum_singleton]
        linarith
      split_ifs at h with hmore
      · obtain ⟨rfl, rfl, rfl⟩ : current₁ = current' ∧ used ++ [coin] = used' ∧ token₁ = token' := by
          simpa using Except.ok.inj h
        exact ⟨⟨[coin], (List.nil_sublist coins).cons_cons coin, rfl⟩, hnext⟩
      · obtain ⟨⟨more, hmore, heq⟩, hspec⟩ := ih htokens hrest hnext (by
          simp only [List.map_append, List.sum_append, List.map_singleton, List.sum_singleton]
          linarith) h
        exact ⟨⟨coin :: more, hmore.cons_cons coin, by rw [heq, List.append_assoc]; rfl⟩, hspec⟩

/-! ## The total -/

/-- The amounts of the recipients, added up from zero. -/
def sumAmounts (recipients : List AddressAmount) : Result MiniNumber :=
  recipients.foldlM (fun acc user => MiniNumber.add acc user.mAmount.val) MiniNumber.zero

theorem sumAmounts_append {recipients : List AddressAmount} {user : AddressAmount} {t t' : MiniNumber}
    (h : sumAmounts recipients = .ok t) (hadd : t.add user.mAmount.val = .ok t') :
    sumAmounts (recipients ++ [user]) = .ok t' := by
  rw [sumAmounts] at h ⊢
  rw [List.foldlM_append, h]
  show (t.add user.mAmount.val >>= fun acc => List.foldlM _ acc []) = _
  rw [hadd]
  rfl

/-- The total of the recipients is added up from their amounts, or is the amount of the only one. -/
theorem recipientsOf_cases {C : Crypto} {r : Recipients} {recipients : List AddressAmount} {total : MiniNumber}
    (h : recipientsOf C r = .ok (recipients, total)) :
    sumAmounts recipients = .ok total ∨ ∃ user, recipients = [user] ∧ total = user.mAmount.val := by
  cases r with
  | single sendaddress sendamount =>
    obtain ⟨rfl, rfl⟩ := Prod.mk.inj (Except.ok.inj h)
    exact .inr ⟨_, rfl, rfl⟩
  | multi sendtos =>
    left
    have hloop : ∀ (sendtos : List Text) (rs : List AddressAmount) (t : MiniNumber),
        sumAmounts rs = .ok t →
        sendtos.foldlM (fun (x : List AddressAmount × MiniNumber) sendto => do
          let recipient ← parseSendTo C sendto
          let totalamount ← MiniNumber.add x.2 recipient.mAmount.val
          return (x.1 ++ [recipient], totalamount)) (rs, t) = .ok (recipients, total) →
        sumAmounts recipients = .ok total := by
      intro sendtos
      induction sendtos with
      | nil =>
        intro rs t ht h
        obtain ⟨rfl, rfl⟩ := Prod.mk.inj (Except.ok.inj h)
        exact ht
      | cons sendto sendtos ih =>
        intro rs t ht h
        rw [List.foldlM_cons] at h
        obtain ⟨x, hx, h⟩ := Result.bind_eq_ok.mp h
        obtain ⟨recipient, -, hx⟩ := Result.bind_eq_ok.mp hx
        obtain ⟨t', ht', hx⟩ := Result.bind_eq_ok.mp hx
        obtain rfl := Except.ok.inj hx
        exact ih _ _ (sumAmounts_append ht ht') h
    exact hloop sendtos [] .zero rfl h

/-- **The total** of amounts that are not negative is exact below `10 ^ 20` Minima. -/
theorem recipientsOf_total {C : Crypto} {r : Recipients} {recipients : List AddressAmount}
    {total : MiniNumber} {s : ℕ} (h : recipientsOf C r = .ok (recipients, total))
    (hunits : ∀ user ∈ recipients, InUnits s user.mAmount.val.toRat ∧ 0 ≤ user.mAmount.val.toRat) :
    InUnits s total.toRat ∧ 0 ≤ total.toRat ∧ (total.toRat < 10 ^ 20 * 10 ^ s →
      total.toRat = (recipients.map fun user => user.mAmount.val.toRat).sum) := by
  have hzero : InUnits s MiniNumber.zero.toRat := toRat_zero ▸ InUnits.zero
  rcases recipientsOf_cases h with hfold | ⟨user, rfl, rfl⟩
  · obtain ⟨hu, hpos⟩ := inUnits_of_foldlM_add hunits hzero toRat_zero.ge hfold
    refine ⟨hu, hpos, fun hlt => ?_⟩
    rw [foldlM_add_eq hunits hzero toRat_zero.ge hfold hlt, toRat_zero, zero_add]
  · obtain ⟨hu, hpos⟩ := hunits user (List.mem_singleton_self user)
    exact ⟨hu, hpos, fun _ => by simp⟩

/-! ## Conversions -/

/-- An amount in Minima is inside the limits. -/
theorem getScaledMinimaAmount_canonical {t : Token} {x y : MiniNumber} (hx : x.Canonical)
    (h : t.getScaledMinimaAmount x = .ok y) : y.Canonical := by
  have hloop : ∀ n : ℕ, ∀ y : MiniNumber,
      (List.range n).foldlM (fun current _ => MiniNumber.div current (.ofInt 10)) x = .ok y → y.Canonical := by
    intro n
    induction n with
    | zero =>
      intro y hy
      exact Except.ok.inj hy ▸ hx
    | succ n ih =>
      intro y hy
      rw [List.range_succ, List.foldlM_append] at hy
      obtain ⟨z, -, hy⟩ := Result.bind_eq_ok.mp hy
      rw [List.foldlM_cons] at hy
      obtain ⟨w, hw, hy⟩ := Result.bind_eq_ok.mp hy
      exact Except.ok.inj hy ▸ div_canonical hw
  exact hloop _ y h

/-- The amount has no more decimal places than the token that is sent. -/
def Fits (tokenid : Text) (tok : Option Token) (x : MiniNumber) : Prop :=
  isMinima tokenid = false → ∀ t ∈ tok, t.Scalable x

variable {tokenid : Text} {tok token : Option Token} {x y : MiniNumber}

/-- **An amount that fits is converted exactly.** -/
theorem toMinima_spec (htok : token = none ∨ token = tok) (hx : x.Canonical)
    (h : toMinima tokenid token x = .ok y) :
    y.Canonical ∧ (Fits tokenid tok x → y.toRat = x.toRat / 10 ^ places (isMinima tokenid) tok) := by
  unfold toMinima at h
  split_ifs at h with hminima
  · obtain rfl := Except.ok.inj h
    exact ⟨hx, fun _ => by rw [places, if_pos hminima, pow_zero, div_one]⟩
  · cases token with
    | none => exact absurd h (undefinedBehaviour_ne_ok _ _)
    | some t =>
      obtain rfl : some t = tok := htok.resolve_left (Option.some_ne_none t)
      refine ⟨getScaledMinimaAmount_canonical hx h, fun hfits => ?_⟩
      obtain ⟨y', hy', hvalue⟩ := t.getScaledMinimaAmount_eq hx
        (hfits (Bool.not_eq_true _ ▸ hminima) t rfl)
      obtain rfl := Except.ok.inj (h.symm.trans hy')
      rw [hvalue, places, if_neg hminima]
      rfl

/-- An amount that fits is a whole number of units. -/
theorem Fits.inUnits (h : Fits tokenid tok x) (hx : x.Canonical) :
    InUnits (places (isMinima tokenid) tok) x.toRat := by
  unfold places
  split_ifs with hminima
  · exact .of_canonical hx
  · cases tok with
    | none => exact .of_canonical hx
    | some t =>
      obtain ⟨y, hy, hvalue⟩ := h (Bool.not_eq_true _ ▸ hminima) t rfl
      have hunits := (InUnits.of_canonical hy).mul_pow t.scaleTurns
      rwa [hvalue, div_mul_cancel₀ _ (pow_ne_zero _ (by norm_num))] at hunits

/-- **Whole units fit**: an amount in the units of the token has no more places than the token. -/
theorem fits_of_inUnits (hx : x.Canonical) (h : InUnits (places (isMinima tokenid) tok) x.toRat) :
    Fits tokenid tok x := by
  intro hminima t ht
  obtain rfl : tok = some t := ht
  rw [places, if_neg (by rw [hminima]; decide)] at h
  obtain ⟨k, hk⟩ : InUnits t.scaleTurns x.toRat := h
  rw [t.scalable_iff hx]
  by_cases hneg : t.tokenScale.val.getAsInt < 0
  · -- the loops do not turn
    refine ⟨_, (value_rescale_to x.unscaled (?_ : x.scale ≤ t.getDecimalPlaces)).symm⟩
    have := hx.places
    unfold Token.getDecimalPlaces
    omega
  · have hturns : (t.scaleTurns : ℤ) = t.tokenScale.val.getAsInt := Int.toNat_of_nonneg (not_lt.mp hneg)
    refine ⟨k, hk.trans ?_⟩
    rw [value, value, mul_assoc, ← zpow_natCast, ← zpow_add₀ (by norm_num), hturns, Token.getDecimalPlaces]
    congr 2
    ring

/-! ## The command -/

/-- **The change** is returned when there is some, and only then. -/
theorem changeOutput_spec {p : Params} {node : Node} {change : MiniNumber} {cc : Option Coin}
    (htok : token = none ∨ token = tok) (hchange : change.Canonical) (hnonneg : 0 ≤ change.toRat)
    (hfits : Fits p.tokenid tok change) (h : changeOutput p node token change = .ok cc) :
    (∀ c ∈ cc, 0 < c.value) ∧
      (cc.toList.map Coin.value).sum = change.toRat / 10 ^ places (isMinima p.tokenid) tok := by
  unfold changeOutput at h
  by_cases hmore : change.isMore .zero = true
  · rw [if_pos hmore] at h
    rw [isMore_iff, toRat_zero] at hmore
    split at h
    next => exact absurd h (undefinedBehaviour_ne_ok _ _)
    next address publicKey _ =>
      dsimp only at h
      obtain ⟨-, h⟩ := Result.of_check h
      obtain ⟨newaddress, -, h⟩ := Result.bind_eq_ok.mp h
      obtain ⟨amount, hamount, h⟩ := Result.bind_eq_ok.mp h
      obtain ⟨c, hc, h⟩ := Result.bind_eq_ok.mp h
      obtain rfl := Except.ok.inj h
      obtain ⟨hcanonical, hvalue⟩ := toMinima_spec htok hchange hamount
      obtain ⟨hcvalue, -⟩ := output_spec hc hcanonical
      rw [hvalue hfits] at hcvalue
      constructor
      · rintro d hd
        obtain rfl := Option.some.inj hd
        rw [hcvalue]
        positivity
      · simp [hcvalue]
  · rw [if_neg hmore] at h
    obtain rfl := Except.ok.inj h
    rw [isMore_iff, toRat_zero, not_lt] at hmore
    rw [le_antisymm hmore hnonneg, zero_div]
    exact ⟨fun c hc => absurd hc (by simp), rfl⟩

theorem buildTransaction_eq_ok {P : Settings} {node : Node} {p : Params} {recipients : List AddressAmount}
    {split total current : MiniNumber} {coins : List Coin} {b : Built}
    (h : buildTransaction P node p recipients split total current coins token = .ok b) :
    b.inputs = coins ∧
      List.Forall₂ (fun user outputs => recipientOutputs p split token user = .ok outputs) recipients b.paid ∧
      ∃ change, current.sub total = .ok change ∧ changeOutput p node token change = .ok b.change := by
  obtain ⟨change, hchange, h⟩ := Result.bind_eq_ok.mp h
  obtain ⟨-, -, h⟩ := Result.bind_eq_ok.mp h
  obtain ⟨reqsigs, -, h⟩ := Result.bind_eq_ok.mp h
  obtain ⟨-, -, h⟩ := Result.bind_eq_ok.mp h
  obtain ⟨paid, hpaid, h⟩ := Result.bind_eq_ok.mp h
  obtain ⟨changecoin, hcc, h⟩ := Result.bind_eq_ok.mp h
  dsimp only at h
  obtain ⟨-, h⟩ := Result.of_check h
  obtain rfl := Except.ok.inj h
  exact ⟨rfl, forall₂_of_mapM hpaid, change, hchange, hcc⟩

/-- The inputs are taken from the coins that were found. -/
theorem relevantCoins_subperm {P : Settings} {node : Node} {p : Params} {total : MiniNumber}
    {relcoins : List Coin} (h : relevantCoins P node p total = .ok relcoins) :
    relcoins.Subperm node.foundcoins := by
  unfold relevantCoins at h
  obtain ⟨-, h⟩ := Result.of_check h
  obtain ⟨mincoinblock, -, h⟩ := Result.bind_eq_ok.mp h
  dsimp only at h
  obtain ⟨-, h⟩ := Result.of_check h
  obtain ⟨findamount, -, h⟩ := Result.bind_eq_ok.mp h
  obtain rfl := Except.ok.inj h
  exact (selectCoins_subperm _ _ _ _).trans List.filter_sublist.subperm

/-- The command signs what it has built from coins that cover the total. -/
theorem runCommand_eq_signing {C : Crypto} {P : Settings} {node : Node} {p : Params} {b : Built}
    (h : runCommand C P node p = .ok (.signing b)) :
    ∃ recipients total₀ split total relcoins current coins token,
      recipientsOf C p.recipients = .ok (recipients, total₀) ∧ 0 ≤ p.burn.val.toRat ∧ SplitOk split ∧
        addBurn (isMinima p.tokenid) total₀ p.burn.val = .ok total ∧
        relcoins.Subperm node.foundcoins ∧
        gatherCoins node.use (isMinima p.tokenid) total relcoins .zero [] none =
          .ok (current, coins, token) ∧
        total.toRat ≤ current.toRat ∧
        buildTransaction P node p recipients split total current coins token = .ok b := by
  obtain ⟨⟨recipients, total₀⟩, hrecipients, h⟩ := Result.bind_eq_ok.mp h
  dsimp only at h
  obtain ⟨hburn, h⟩ := Result.of_check h
  obtain ⟨split, hsplit, h⟩ := Result.bind_eq_ok.mp h
  obtain ⟨total, htotal, h⟩ := Result.bind_eq_ok.mp h
  obtain ⟨relcoins, hrelcoins, h⟩ := Result.bind_eq_ok.mp h
  obtain ⟨⟨current, coins, token⟩, hgather, h⟩ := Result.bind_eq_ok.mp h
  dsimp only at h
  split_ifs at h with hscript hless
  · cases h
  · cases h
  obtain ⟨built, hbuild, h⟩ := Result.bind_eq_ok.mp h
  obtain rfl : built = b := by
    simpa using Except.ok.inj h
  rw [isLess_iff, toRat_zero, not_lt] at hburn
  rw [isLess_iff, not_lt] at hless
  exact ⟨recipients, total₀, split, total, relcoins, current, coins, token, hrecipients, hburn,
    splitOf_spec hsplit, htotal, relevantCoins_subperm hrelcoins, hgather, hless, hbuild⟩

/-! ## The balance -/

/-- The transaction is balanced: but for the burn of Minima the outputs are worth what the inputs are, all
of them are positive, each recipient gets its amount, in the units that are sent, and no coin is an input
twice. -/
structure Balanced (p : Params) (tok : Option Token) (recipients : List AddressAmount) (b : Built) :
    Prop where
  balance : (b.inputs.map Coin.value).sum - (b.outputs.map Coin.value).sum =
    if isMinima p.tokenid then p.burn.val.toRat else 0
  positive : ∀ c ∈ b.outputs, 0 < c.value
  received : List.Forall₂ (fun user outputs => (∀ c ∈ outputs, c.address = user.mAddress) ∧
    (outputs.map Coin.value).sum * 10 ^ places (isMinima p.tokenid) tok = user.mAmount.val.toRat)
      recipients b.paid
  nodup : (b.inputs.map Coin.coinID).Nodup

/-- The coins of a node are worth less than `10 ^ 20`. -/
theorem Spendable.sum_lt {coins l : List Coin} (h : Spendable tokenid tok coins) (hl : l.Subperm coins) :
    (l.map Coin.value).sum < 10 ^ 20 := by
  have hle : (l.map Coin.value).sum ≤ l.length * 10 ^ 9 := by
    have hcard := List.sum_le_card_nsmul (l.map Coin.value) (10 ^ 9) fun x hx => by
      obtain ⟨c, hc, rfl⟩ := List.mem_map.mp hx
      exact h.valid c (hl.subset hc)
    rwa [List.length_map, nsmul_eq_mul] at hcard
  have hlen : (l.length : ℚ) ≤ 2 ^ 31 := by
    exact_mod_cast hl.length_le.trans h.count.le
  linarith

theorem Gathered.start (minima : Bool) (tok : Option Token) : Gathered minima tok .zero [] none where
  positive := by simp
  value := by simp
  units := toRat_zero ▸ InUnits.zero
  token := .inl rfl

/-- Sums over what every recipient gets. -/
theorem sum_flatten_of_forall₂ {recipients : List AddressAmount} {paid : List (List Coin)} {d : ℚ}
    (h : List.Forall₂ (fun (user : AddressAmount) outputs =>
      (outputs.map Coin.value).sum = user.mAmount.val.toRat / d) recipients paid) :
    (paid.flatten.map Coin.value).sum = (recipients.map fun user => user.mAmount.val.toRat).sum / d := by
  induction h with
  | nil => simp
  | cons hhead _ ih =>
    rw [List.flatten_cons, List.map_append, List.sum_append, hhead, ih, List.map_cons, List.sum_cons, add_div]

/-- What the recipients are worth together, and the burn of Minima. -/
theorem total_spec {C : Crypto} {p : Params} {recipients : List AddressAmount} {total₀ total : MiniNumber}
    (hrecipients : recipientsOf C p.recipients = .ok (recipients, total₀)) (hburn : 0 ≤ p.burn.val.toRat)
    (htotal : addBurn (isMinima p.tokenid) total₀ p.burn.val = .ok total)
    (hunits : ∀ user ∈ recipients, InUnits (places (isMinima p.tokenid) tok) user.mAmount.val.toRat ∧
      0 ≤ user.mAmount.val.toRat)
    (hlt : total.toRat < 10 ^ 20 * 10 ^ places (isMinima p.tokenid) tok) :
    InUnits (places (isMinima p.tokenid) tok) total.toRat ∧ 0 ≤ total.toRat ∧
      total.toRat = (recipients.map fun user => user.mAmount.val.toRat).sum +
        if isMinima p.tokenid then p.burn.val.toRat else 0 := by
  obtain ⟨hu, hpos, hsum⟩ := recipientsOf_total hrecipients hunits
  unfold addBurn at htotal
  cases hminima : isMinima p.tokenid with
  | true =>
    rw [hminima] at htotal hu hlt hsum
    have hplaces : places true tok = 0 := rfl
    rw [hplaces] at hu hlt hsum ⊢
    have hburnunits : ∀ x ∈ [p.burn.val], InUnits 0 x.toRat ∧ 0 ≤ x.toRat := by
      intro x hx
      obtain rfl := List.mem_singleton.mp hx
      exact ⟨.of_canonical p.burn.2, hburn⟩
    have hfold : [p.burn.val].foldlM (fun acc x => MiniNumber.add acc x) total₀ = .ok total := by
      rw [List.foldlM_cons]
      exact Result.bind_eq_ok.mpr ⟨total, htotal, rfl⟩
    obtain ⟨hu', hpos'⟩ := inUnits_of_foldlM_add hburnunits hu hpos hfold
    have hvalue := foldlM_add_eq hburnunits hu hpos hfold hlt
    rw [List.map_singleton, List.sum_singleton] at hvalue
    refine ⟨hu', hpos', ?_⟩
    rw [hvalue, hsum (by linarith)]
    rfl
  | false =>
    rw [hminima] at htotal hu hlt hsum
    obtain rfl := Except.ok.inj htotal
    exact ⟨hu, hpos, by rw [hsum hlt, if_neg (by decide), add_zero]⟩

/-- **Amounts that fit are balanced.** -/
theorem balanced_of_fits {C : Crypto} {P : Settings} {node : Node} {p : Params} {b : Built}
    {recipients : List AddressAmount} {total₀ : MiniNumber}
    (hcoins : Spendable p.tokenid tok node.foundcoins)
    (hrecipients : recipientsOf C p.recipients = .ok (recipients, total₀))
    (hrun : runCommand C P node p = .ok (.signing b))
    (hfits : ∀ user ∈ recipients, Fits p.tokenid tok user.mAmount.val) : Balanced p tok recipients b := by
  obtain ⟨recipients', total₀', split, total, relcoins, current, coins, token, hrecipients', hburn, hsplit,
    htotal, hrelcoins, hgather, hcovers, hbuild⟩ := runCommand_eq_signing hrun
  obtain ⟨rfl, rfl⟩ := Prod.mk.inj (Except.ok.inj (hrecipients.symm.trans hrecipients'))
  set s := places (isMinima p.tokenid) tok with hs
  have hpow : (0 : ℚ) < 10 ^ s := by positivity
  -- the inputs
  obtain ⟨⟨more, hmore, hused⟩, hg⟩ := gatherCoins_spec
    (fun hm c hc => hcoins.token hm c (hrelcoins.subset hc))
    (fun c hc => hcoins.positive c (hrelcoins.subset hc)) (Gathered.start _ _)
    (by rw [List.nil_append]; exact hcoins.sum_lt hrelcoins) hgather
  rw [List.nil_append] at hused
  have hinputs : coins.Subperm node.foundcoins := hused ▸ hmore.subperm.trans hrelcoins
  have hcurrent : current.toRat < 10 ^ 20 * 10 ^ s := by
    rw [hg.value]
    exact mul_lt_mul_of_pos_right (hcoins.sum_lt hinputs) hpow
  obtain ⟨hin, hpaid, change, hsub, hchange⟩ := buildTransaction_eq_ok hbuild
  -- the amounts are positive, since the outputs are
  have hamounts : List.Forall₂ (fun user outputs => 0 < user.mAmount.val.toRat ∧
      (user.mAmount.val.toRat < 10 ^ 20 * 10 ^ s → (∀ c ∈ outputs, Pays user.mAddress c) ∧
        (outputs.map Coin.value).sum = user.mAmount.val.toRat / 10 ^ s)) recipients b.paid := by
    refine ((List.forall₂_and_left _ _).mpr ⟨fun user huser => huser, hpaid⟩).imp ?_
    rintro user outputs ⟨huser, houtputs⟩
    obtain ⟨usertotal, hminima, hpos, hspec⟩ := recipientOutputs_spec hsplit houtputs
    obtain ⟨hcanonical, hvalue⟩ := toMinima_spec hg.token user.mAmount.2 hminima
    have hvalue := hvalue (hfits user huser)
    rw [hvalue] at hpos hspec
    refine ⟨by rwa [lt_div_iff₀ hpow, zero_mul] at hpos, fun hlt => hspec hcanonical ?_⟩
    rwa [div_lt_iff₀ hpow]
  obtain ⟨hpositive, hparts⟩ := (List.forall₂_and_left _ _).mp hamounts
  obtain ⟨htotunits, htotpos, htotvalue⟩ := total_spec hrecipients hburn htotal
    (fun user huser => ⟨(hfits user huser).inUnits user.mAmount.2, (hpositive user huser).le⟩)
    (hcovers.trans_lt hcurrent)
  have hpaidspec : List.Forall₂ (fun user outputs => (∀ c ∈ outputs, Pays user.mAddress c) ∧
      (outputs.map Coin.value).sum = user.mAmount.val.toRat / 10 ^ s) recipients b.paid := by
    refine ((List.forall₂_and_left _ _).mpr ⟨fun user huser => huser, hparts⟩).imp ?_
    rintro user outputs ⟨huser, hspec⟩
    refine hspec (lt_of_le_of_lt ?_ hcurrent)
    have hle : user.mAmount.val.toRat ≤ (recipients.map fun user => user.mAmount.val.toRat).sum := by
      refine List.single_le_sum (fun x hx => ?_) _ (List.mem_map_of_mem huser)
      obtain ⟨u, hu, rfl⟩ := List.mem_map.mp hx
      exact (hpositive u hu).le
    have hburn' : 0 ≤ if isMinima p.tokenid then p.burn.val.toRat else 0 := by
      split_ifs
      · exact hburn
      · exact le_rfl
    linarith
  -- the change is what is left
  have hchangevalue : change.toRat = current.toRat - total.toRat := by
    refine sub_inUnits hg.units htotunits ?_ hsub
    rw [abs_of_nonneg (by linarith)]
    linarith
  have hchangeunits : InUnits s change.toRat := hchangevalue ▸ hg.units.sub htotunits
  obtain ⟨hchangepos, hchangesum⟩ := changeOutput_spec hg.token (sub_canonical hsub) (by linarith)
    (fits_of_inUnits (sub_canonical hsub) hchangeunits) hchange
  have hpaidsum := sum_flatten_of_forall₂ (hpaidspec.imp fun _ _ h => h.2)
  refine ⟨?_, ?_, hpaidspec.imp fun user outputs h =>
    ⟨fun c hc => (h.1 c hc).1, by rw [h.2, div_mul_cancel₀ _ hpow.ne']⟩, ?_⟩
  · rw [hin, Built.outputs, List.map_append, List.sum_append, hpaidsum, hchangesum, hchangevalue, hg.value,
      htotvalue, ← hs, sub_div, mul_div_assoc, div_self hpow.ne', add_div]
    split_ifs with hminima
    · rw [hs, places, if_pos hminima]
      ring
    · ring
  · intro c hc
    rcases List.mem_append.mp hc with hc | hc
    · obtain ⟨outputs, houtputs, hc⟩ := List.mem_flatten.mp hc
      obtain ⟨i, hi, rfl⟩ := List.getElem_of_mem houtputs
      have hlen := hpaidspec.length_eq
      exact ((hpaidspec.get (hlen ▸ hi) hi).1 c hc).2
    · exact hchangepos c (Option.mem_toList.mp hc)
  · rw [hin]
    obtain ⟨l, hperm, hsublist⟩ := hinputs
    exact ((hperm.map Coin.coinID).nodup_iff).mp (hcoins.nodup.sublist (hsublist.map Coin.coinID))

/-- What coins are worth is a whole number of the smallest units. -/
theorem inUnits_sum (coins : List Coin) : InUnits 0 (coins.map Coin.value).sum := by
  induction coins with
  | nil => exact InUnits.zero
  | cons c coins ih =>
    rw [List.map_cons, List.sum_cons]
    exact (InUnits.of_canonical c.amount.2).add ih

/-- **Balanced amounts fit.** -/
theorem fits_of_balanced {p : Params} {b : Built} {recipients : List AddressAmount}
    (h : Balanced p tok recipients b) : ∀ user ∈ recipients, Fits p.tokenid tok user.mAmount.val := by
  have hfits : List.Forall₂ (fun (user : AddressAmount) (_ : List Coin) =>
      Fits p.tokenid tok user.mAmount.val ∧ True) recipients b.paid := by
    refine h.received.imp fun user outputs hreceived => ⟨fits_of_inUnits user.mAmount.2 ?_, trivial⟩
    rw [← hreceived.2]
    exact (inUnits_sum outputs).mul_pow _
  exact ((List.forall₂_and_left _ _).mp hfits).1

/-- **When a signed transaction is balanced.** The coins are those of a node, and for a token all of them
carry it. Whenever the command reaches the signatures, the transaction is balanced, all outputs are positive,
every recipient gets exactly its amount and no coin is an input twice, if and only if Minima is sent or no
recipient is to get more decimal places than the token has. -/
theorem send_balanced_iff (C : Crypto) (P : Settings) (node : Node) (p : Params) (tok : Option Token)
    (recipients : List AddressAmount) (total : MiniNumber) (b : Built)
    (hcoins : Spendable p.tokenid tok node.foundcoins)
    (hrecipients : recipientsOf C p.recipients = .ok (recipients, total))
    (hrun : runCommand C P node p = .ok (.signing b)) :
    Balanced p tok recipients b ↔
      isMinima p.tokenid = true ∨ ∀ user ∈ recipients, ∀ t ∈ tok, t.Scalable user.mAmount.val := by
  have hfits : (∀ user ∈ recipients, Fits p.tokenid tok user.mAmount.val) ↔
      isMinima p.tokenid = true ∨ ∀ user ∈ recipients, ∀ t ∈ tok, t.Scalable user.mAmount.val := by
    unfold Fits
    cases isMinima p.tokenid <;> simp
  rw [← hfits]
  exact ⟨fits_of_balanced, balanced_of_fits hcoins hrecipients hrun⟩

/-! ### A token without decimal places -/

section Sample

/-- A token of whole units, each the smallest amount of Minima. -/
def wholeToken : Token :=
  ⟨⟨[0x07]⟩, ⟨.ofInt 44, by decide⟩, ⟨⟨10, 44⟩, by decide⟩, MiniNumber.ascii "whole",
    MiniNumber.ascii "RETURN TRUE", ⟨.zero, MiniNumber.canonical_zero⟩⟩

/-- A node with one coin, of ten units of the token. -/
def tokenNode : Node where
  sort := insertionByAmount
  use := ⟨[], []⟩
  tipNumber := ⟨.ofInt 10, MiniNumber.canonical_ten⟩
  foundcoins :=
    [{ coinAt 1 1 ⟨⟨10, 44⟩, by decide⟩ with tokenID := ⟨[0x05]⟩, token := some wholeToken }]
  hasPastNode := fun _ => true
  scriptKey := fun _ => some (MiniNumber.ascii "0x09")
  defaultAddress := some (MiniNumber.ascii "0x03", MiniNumber.ascii "0x09")
  isBaseSeedAvailable := false
  checkKey := fun _ => true

/-- Two recipients of a token, with these amounts. -/
def sendTwo (first second : String) : Params where
  recipients := .multi [MiniNumber.ascii ("0x01:" ++ first), MiniNumber.ascii ("0x02:" ++ second)]
  tokenid := MiniNumber.ascii "0x05"
  storestate := true
  burn := ⟨.zero, MiniNumber.canonical_zero⟩
  split := ⟨.one, MiniNumber.canonical_one⟩
  coinage := ⟨.ofInt 3, by decide⟩
  usepubkey := []
  fromaddress := ⟨[]⟩

/-- The transaction that is signed, if there is one. -/
def signed (C : Crypto) (P : Settings) (node : Node) (p : Params) : Option Built :=
  match runCommand C P node p with
  | .ok (.signing b) => some b
  | _ => none

/-- The recipients of two equal amounts. -/
def twoRecipients (amount : StoredNumber) : List AddressAmount := [⟨⟨[1]⟩, amount⟩, ⟨⟨[2]⟩, amount⟩]

theorem spendable_tokenNode (first second : String) :
    Spendable (sendTwo first second).tokenid (some wholeToken) tokenNode.foundcoins where
  positive := by
    intro c hc
    obtain rfl := List.mem_singleton.mp hc
    rw [Coin.value, ← toRat_zero, ← isMore_iff]
    decide
  valid := by
    intro c hc
    obtain rfl := List.mem_singleton.mp hc
    rw [Coin.value, ← toRat_billion, ← isLessEqual_iff]
    decide
  count := by decide
  nodup := by decide
  token _ c hc := by
    obtain rfl := List.mem_singleton.mp hc
    rfl

theorem exists_of_signed {C : Crypto} {P : Settings} {node : Node} {p : Params}
    (h : (signed C P node p).isSome = true) : ∃ b, runCommand C P node p = .ok (.signing b) := by
  unfold signed at h
  split at h
  next b hb => exact ⟨b, hb⟩
  next => cases h

/-- Two units for each of two recipients are sent as they are. -/
theorem send_balanced_iff_whole : ∃ b,
    runCommand Crypto.plain .standard tokenNode (sendTwo "2" "2") = .ok (.signing b) ∧
      (Balanced (sendTwo "2" "2") (some wholeToken) (twoRecipients ⟨.ofInt 2, by decide⟩) b ↔
        isMinima (sendTwo "2" "2").tokenid = true ∨
          ∀ user ∈ twoRecipients ⟨.ofInt 2, by decide⟩, ∀ t ∈ some wholeToken,
            t.Scalable user.mAmount.val) := by
  obtain ⟨b, hb⟩ := exists_of_signed
    (by decide +kernel : (signed Crypto.plain .standard tokenNode (sendTwo "2" "2")).isSome = true)
  exact ⟨b, hb, send_balanced_iff _ _ _ _ _ _ (.ofInt 4) b (spendable_tokenNode _ _) (by decide +kernel) hb⟩

/-- **Units are lost**: one and a half units for each of two recipients are signed as one unit each. -/
theorem send_not_balanced : ∃ b,
    Spendable (sendTwo "1.5" "1.5").tokenid (some wholeToken) tokenNode.foundcoins ∧
      recipientsOf Crypto.plain (sendTwo "1.5" "1.5").recipients =
        .ok (twoRecipients ⟨⟨15, 1⟩, by decide⟩, ⟨30, 1⟩) ∧
      runCommand Crypto.plain .standard tokenNode (sendTwo "1.5" "1.5") = .ok (.signing b) ∧
      ¬ Balanced (sendTwo "1.5" "1.5") (some wholeToken) (twoRecipients ⟨⟨15, 1⟩, by decide⟩) b := by
  obtain ⟨b, hb⟩ := exists_of_signed
    (by decide +kernel : (signed Crypto.plain .standard tokenNode (sendTwo "1.5" "1.5")).isSome = true)
  refine ⟨b, spendable_tokenNode _ _, by decide +kernel, hb, fun hbalanced => ?_⟩
  have hfits := fits_of_balanced hbalanced _ List.mem_cons_self (by decide) wholeToken rfl
  -- half a unit is no amount of Minima
  obtain ⟨k, hk⟩ := (wholeToken.scalable_iff (by decide : (⟨15, 1⟩ : MiniNumber).Canonical)).mp hfits
  have hplaces : wholeToken.getDecimalPlaces = 0 := by decide
  rw [hplaces, value_zero_right, toRat, value] at hk
  norm_num at hk
  have htwice : (3 : ℤ) = 2 * k := by
    have : (3 : ℚ) = 2 * k := by linarith
    exact_mod_cast this
  omega

end Sample

end Send

end Minima
