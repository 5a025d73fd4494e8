import Minima.Objects.Coin

/-! # `Transaction` and what `checkValid` guarantees

A transaction has input coins, output coins, state variables and a link hash. `checkValid` sums
amounts with `MiniNumber.add`; on amounts between zero and a billion and at most `2^31` coins these
sums are exact.

* **`Transaction.checkValid`** — the checks of the source, in its order.
* **`checkValid_eq_ok`** — what acceptance means over the rationals. -/

namespace Minima

/-- `Transaction`, without the caches of its id and of its script result. The number of coins is
written, read and counted as an `int`. -/
structure Transaction where
  inputs : List Coin
  outputs : List Coin
  state : List StateVariable
  linkHash : MiniData
  inputs_length : inputs.length < 2 ^ 31
  outputs_length : outputs.length < 2 ^ 31
  deriving DecidableEq

namespace Transaction

theorem noCoins_length : ([] : List Coin).length < 2 ^ 31 := by decide

/-- `isEmpty`. -/
def isEmpty (t : Transaction) : Bool := t.inputs.isEmpty && t.outputs.isEmpty

/-- `writeDataStream`: inputs, outputs and state, each behind its length, then the link hash. -/
def writeDataStream (t : Transaction) : Result (List Byte) := do
  let inputs ← Coin.writeAll Coin.writeDataStream t.inputs
  let outputs ← Coin.writeAll Coin.writeDataStream t.outputs
  let state ← Coin.writeAll StateVariable.writeDataStream t.state
  let linkHash ← t.linkHash.writeHashToStream
  return (MiniNumber.ofInt t.inputs.length).writeDataStream ++ inputs ++
    (MiniNumber.ofInt t.outputs.length).writeDataStream ++ outputs ++
    (MiniNumber.ofInt t.state.length).writeDataStream ++ state ++ linkHash

/-- Read coins behind their number, which `getAsInt` keeps below `2^31`. -/
def readCoins : Reader { cs : List Coin // cs.length < 2 ^ 31 } := do
  let len ← MiniNumber.readDataStream
  fun s => match h : Reader.readVector Coin.readDataStream len.getAsInt s with
    | (.ok cs, rest) => (.ok ⟨cs, by
        have hlen := Reader.length_of_readVector h
        have hint := len.getAsInt_lt
        omega⟩, rest)
    | (.error e, rest) => (.error e, rest)

/-- `readDataStream`. -/
def readDataStream : Reader Transaction := do
  let inputs ← readCoins
  let outputs ← readCoins
  let slen ← MiniNumber.getAsInt <$> MiniNumber.readDataStream
  let state ← Reader.readVector StateVariable.readDataStream slen
  let linkHash ← MiniData.readHashFromStream
  return ⟨inputs.val, outputs.val, state, linkHash, inputs.property, outputs.property⟩

/-- `calculateTransactionID`: the hash of the encoding. -/
def calculateTransactionID (C : Crypto) (t : Transaction) : MiniData := C.hashObject t.writeDataStream

/-- Add up the amounts of coins from `tot` on. -/
def sumFrom (tot : MiniNumber) (cs : List Coin) : Result MiniNumber :=
  cs.foldlM (fun tot cc => tot.add cc.amount.val) tot

/-- The coins of a token. -/
def ofToken (cs : List Coin) (zTokenID : MiniData) : List Coin :=
  cs.filter fun cc => cc.tokenID.isEqual zTokenID

/-- `sumInputs` of a token. -/
def sumInputs (t : Transaction) (zTokenID : MiniData) : Result MiniNumber :=
  sumFrom .zero (ofToken t.inputs zTokenID)

/-- `sumOutputs` of a token: exactly the outputs with that id. -/
def sumOutputs (t : Transaction) (zTokenID : MiniData) : Result MiniNumber :=
  sumFrom .zero (ofToken t.outputs zTokenID)

/-- The id an output is checked under: creating a token counts as Minima. -/
def normalisedTokenID (cc : Coin) : MiniData :=
  if cc.tokenID.isEqual Token.TOKENID_CREATE then Token.TOKENID_MINIMA else cc.tokenID

/-- The tokens of the outputs as texts, each once. -/
def outputTokens (outs : List Coin) : List Text :=
  outs.foldl (fun tokens cc =>
    let tok := (normalisedTokenID cc).to0xString
    if tokens.contains tok then tokens else tokens ++ [tok]) []

/-- The output amount of every token. -/
def outputAmounts (t : Transaction) : List Text → Result (List (Text × MiniNumber))
  | [] => .ok []
  | token :: tokens => do
      let tokmd ← MiniData.ofHex token
      let outamt ← t.sumOutputs tokmd
      let rest ← t.outputAmounts tokens
      return (token, outamt) :: rest

/-- Whether the inputs cover every output amount. -/
def inputsCover (t : Transaction) : List (Text × MiniNumber) → Result Bool
  | [] => .ok true
  | (tok, outamt) :: rest => do
      let tokmd ← MiniData.ofHex tok
      let inamt ← t.sumInputs tokmd
      if inamt.isLess outamt then return false
      t.inputsCover rest

/-- No two coins of the list have the same coin id. -/
def distinctCoinIDs : List Coin → Bool
  | [] => true
  | c :: cs => !cs.any (fun c' => c.coinID.isEqual c'.coinID) && distinctCoinIDs cs

/-- `checkValid`. -/
def checkValid (t : Transaction) : Result Bool := do
  if t.inputs.length < 1 then return false
  let totalin ← sumFrom .zero t.inputs
  let totalout ← sumFrom .zero t.outputs
  if totalout.isMore totalin then return false
  if !t.inputs.all fun cc => cc.amount.val.isValidMinimaValue then return false
  if !t.outputs.all fun cc => cc.amount.val.isValidMinimaValue then return false
  let outamounts ← t.outputAmounts (outputTokens t.outputs)
  let covered ← t.inputsCover outamounts
  if !covered then return false
  return distinctCoinIDs t.inputs

/-! ## Exact sums -/

/-- The exact sum of the amounts of coins. -/
def total (cs : List Coin) : ℚ := (cs.map Coin.value).sum

@[simp] theorem total_nil : total [] = 0 := rfl

@[simp] theorem total_cons (c : Coin) (cs : List Coin) : total (c :: cs) = c.value + total cs := by
  simp [total]

/-- Every amount is more than zero and at most a billion. -/
def ValidAmounts (cs : List Coin) : Prop := ∀ c ∈ cs, 0 < c.value ∧ c.value ≤ 10 ^ 9

theorem ValidAmounts.filter {cs : List Coin} (h : ValidAmounts cs) (p : Coin → Bool) :
    ValidAmounts (cs.filter p) := fun c hc => h c (List.mem_of_mem_filter hc)

theorem ValidAmounts.tail {c : Coin} {cs : List Coin} (h : ValidAmounts (c :: cs)) :
    ValidAmounts cs := fun d hd => h d (List.mem_cons_of_mem c hd)

theorem ValidAmounts.total_nonneg {cs : List Coin} (h : ValidAmounts cs) : 0 ≤ total cs := by
  induction cs with
  | nil => simp
  | cons c cs ih =>
      rw [total_cons]
      exact add_nonneg (h c List.mem_cons_self).1.le (ih h.tail)

theorem ValidAmounts.total_le {cs : List Coin} (h : ValidAmounts cs) :
    total cs ≤ cs.length * 10 ^ 9 := by
  induction cs with
  | nil => simp
  | cons c cs ih =>
      rw [total_cons, List.length_cons]
      push_cast
      linarith [(h c List.mem_cons_self).2, ih h.tail]

/-- **Sums of valid amounts are exact**, as long as the total stays below `10^20`. -/
theorem sumFrom_exact {cs : List Coin} (h : ValidAmounts cs) :
    ∀ tot : MiniNumber, tot.Canonical → 0 ≤ tot.toRat →
      tot.toRat + cs.length * 10 ^ 9 < 10 ^ 20 →
      ∃ s, sumFrom tot cs = .ok s ∧ s.Canonical ∧ s.toRat = tot.toRat + total cs := by
  induction cs with
  | nil =>
      intro tot hc _ _
      exact ⟨tot, rfl, hc, by simp⟩
  | cons c cs ih =>
      intro tot hc h0 hlt
      obtain ⟨hpos, hle⟩ := h c List.mem_cons_self
      rw [List.length_cons] at hlt
      push_cast at hlt
      have hlen : (0 : ℚ) ≤ cs.length * 10 ^ 9 := by positivity
      have hsum : |tot.toRat + c.amount.val.toRat| < 10 ^ 20 := by
        have hv : c.amount.val.toRat = c.value := rfl
        rw [hv, abs_of_nonneg (by linarith)]
        linarith
      obtain ⟨s, hs, hrat⟩ := MiniNumber.add_eq_ok hc c.amount.property hsum
      have hv : c.amount.val.toRat = c.value := rfl
      rw [hv] at hrat
      obtain ⟨r, hr, hrc, hrr⟩ := ih h.tail s (MiniNumber.add_canonical hs) (by linarith)
        (by linarith)
      refine ⟨r, ?_, hrc, ?_⟩
      · rw [sumFrom, List.foldlM_cons, hs]
        exact hr
      · rw [hrr, hrat, total_cons]
        ring

/-- The sum of at most `2^31` valid amounts. -/
theorem sumFrom_zero {cs : List Coin} (h : ValidAmounts cs) (hlen : cs.length < 2 ^ 31) :
    ∃ s, sumFrom .zero cs = .ok s ∧ s.Canonical ∧ s.toRat = total cs := by
  have hcast : (cs.length : ℚ) < 2 ^ 31 := by exact_mod_cast hlen
  obtain ⟨s, h1, h2, h3⟩ := sumFrom_exact h .zero MiniNumber.canonical_zero (by simp) (by
    rw [MiniNumber.toRat_zero]
    linarith)
  exact ⟨s, h1, h2, by simpa using h3⟩

/-! ## What acceptance means -/

theorem validAmounts_of_all {cs : List Coin}
    (h : (cs.all fun cc => cc.amount.val.isValidMinimaValue) = true) : ValidAmounts cs := by
  intro c hc
  exact (MiniNumber.isValidMinimaValue_iff _).mp (List.all_eq_true.mp h c hc)

/-- Every output is checked under its normalised token id. -/
theorem mem_outputTokens {outs : List Coin} {c : Coin} (hc : c ∈ outs) :
    (normalisedTokenID c).to0xString ∈ outputTokens outs := by
  have hfold : ∀ (outs : List Coin) (acc : List Text) (tok : Text),
      (tok ∈ acc ∨ ∃ c ∈ outs, (normalisedTokenID c).to0xString = tok) →
      tok ∈ outs.foldl (fun tokens cc =>
        let tok := (normalisedTokenID cc).to0xString
        if tokens.contains tok then tokens else tokens ++ [tok]) acc := by
    intro outs
    induction outs with
    | nil =>
        rintro acc tok (h | ⟨c, hc, -⟩)
        · exact h
        · exact absurd hc List.not_mem_nil
    | cons hd tl ih =>
        rintro acc tok h
        rw [List.foldl_cons]
        apply ih
        simp only
        rcases h with h | ⟨c, hc, rfl⟩
        · left
          split_ifs
          · exact h
          · exact List.mem_append_left _ h
        · rcases List.mem_cons.mp hc with rfl | hc
          · left
            split_ifs with hmem
            · exact List.contains_iff_mem.mp hmem
            · exact List.mem_append_right _ (List.mem_singleton.mpr rfl)
          · exact Or.inr ⟨c, hc, rfl⟩
  exact hfold outs [] _ (Or.inr ⟨c, hc, rfl⟩)

/-- Where the inputs cover all output amounts, they cover those of each token. -/
theorem inputsCover_eq_ok {t : Transaction} {tokens : List Text} :
    ∀ {amounts : List (Text × MiniNumber)}, t.outputAmounts tokens = .ok amounts →
      t.inputsCover amounts = .ok true → ∀ d : MiniData, d.to0xString ∈ tokens →
      ∃ outamt inamt, t.sumOutputs d = .ok outamt ∧ t.sumInputs d = .ok inamt ∧
        outamt.toRat ≤ inamt.toRat := by
  induction tokens with
  | nil =>
      intro amounts _ _ d hd
      exact absurd hd List.not_mem_nil
  | cons tok tokens ih =>
      intro amounts h hcover d hd
      simp only [outputAmounts, Result.bind_eq_ok, Result.pure_eq_ok] at h
      obtain ⟨tokmd, htok, outamt, hout, rest, hrest, rfl⟩ := h
      simp only [inputsCover, htok, Result.ok_bind, Result.bind_eq_ok] at hcover
      obtain ⟨inamt, hin, hcover⟩ := hcover
      split_ifs at hcover with hless
      · exact absurd (Except.ok.inj hcover) (by simp)
      · rcases List.mem_cons.mp hd with rfl | hd
        · rw [MiniData.ofHex_to0xString, Except.ok.injEq] at htok
          rw [MiniNumber.isLess_iff, not_lt] at hless
          exact ⟨outamt, inamt, htok ▸ hout, htok ▸ hin, hless⟩
        · exact ih hrest hcover d hd

/-- **What `checkValid` accepts:** some inputs, amounts between zero and a billion, no more out than
in, in total and under the normalised token id of each output, and no coin twice. -/
structure Accepted (t : Transaction) : Prop where
  nonempty : t.inputs ≠ []
  inputs : ValidAmounts t.inputs
  outputs : ValidAmounts t.outputs
  total_le : total t.outputs ≤ total t.inputs
  token_le : ∀ c ∈ t.outputs, total (ofToken t.outputs (normalisedTokenID c)) ≤
    total (ofToken t.inputs (normalisedTokenID c))
  distinct : distinctCoinIDs t.inputs = true

theorem ofToken_length (cs : List Coin) (d : MiniData) : (ofToken cs d).length ≤ cs.length :=
  List.length_filter_le _ _

/-- The sums `checkValid` compares are the exact totals. -/
theorem sumOutputs_eq {t : Transaction} (h : ValidAmounts t.outputs) (d : MiniData) :
    ∃ s, t.sumOutputs d = .ok s ∧ s.Canonical ∧ s.toRat = total (ofToken t.outputs d) :=
  sumFrom_zero (h.filter _) ((ofToken_length _ d).trans_lt t.outputs_length)

theorem sumInputs_eq {t : Transaction} (h : ValidAmounts t.inputs) (d : MiniData) :
    ∃ s, t.sumInputs d = .ok s ∧ s.Canonical ∧ s.toRat = total (ofToken t.inputs d) :=
  sumFrom_zero (h.filter _) ((ofToken_length _ d).trans_lt t.inputs_length)

theorem checkValid_eq_ok {t : Transaction} (h : t.checkValid = .ok true) : t.Accepted := by
  unfold checkValid at h
  split_ifs at h with h0 h2 h3
  all_goals simp only [Result.bind_eq_ok, Result.pure_eq_ok, Bool.false_eq_true] at h
  · obtain ⟨_, -, _, -, h⟩ := h
    split_ifs at h <;> exact absurd (Except.ok.inj h) (by simp)
  · obtain ⟨_, -, _, -, h⟩ := h
    split_ifs at h <;> exact absurd (Except.ok.inj h) (by simp)
  obtain ⟨totalin, hin, totalout, hout, h⟩ := h
  split_ifs at h with h1
  · exact absurd (Except.ok.inj h) (by simp)
  simp only [Result.bind_eq_ok] at h
  obtain ⟨amounts, hamounts, covered, hcovered, h⟩ := h
  cases covered with
  | false => exact absurd (Except.ok.inj h) (by simp)
  | true =>
      have hvin : ValidAmounts t.inputs := validAmounts_of_all (by simpa using h2)
      have hvout : ValidAmounts t.outputs := validAmounts_of_all (by simpa using h3)
      obtain ⟨a, ha, -, har⟩ := sumFrom_zero hvin t.inputs_length
      obtain ⟨b, hb, -, hbr⟩ := sumFrom_zero hvout t.outputs_length
      rw [hin, Except.ok.injEq] at ha
      rw [hout, Except.ok.injEq] at hb
      subst ha hb
      refine ⟨?_, hvin, hvout, ?_, ?_, Except.ok.inj h⟩
      · rintro hnil
        exact h0 (by simp [hnil])
      · rw [MiniNumber.isMore_iff, not_lt, har, hbr] at h1
        exact h1
      · intro c hc
        obtain ⟨o, i, ho, hi, hle⟩ := inputsCover_eq_ok hamounts hcovered (normalisedTokenID c)
          (mem_outputTokens hc)
        obtain ⟨o', ho', -, hor⟩ := sumOutputs_eq hvout (normalisedTokenID c)
        obtain ⟨i', hi', -, hir⟩ := sumInputs_eq hvin (normalisedTokenID c)
        rw [ho, Except.ok.injEq] at ho'
        rw [hi, Except.ok.injEq] at hi'
        rw [← hor, ← hir, ← ho', ← hi']
        exact hle

/-! ## Conservation of tokens -/

/-- Each token comes out no more than it goes in, and Minima covers what is paid out as Minima and
what backs created tokens. -/
def Conserves (t : Transaction) : Prop :=
  (∀ tok, tok ≠ Token.TOKENID_MINIMA → tok ≠ Token.TOKENID_CREATE →
    total (ofToken t.outputs tok) ≤ total (ofToken t.inputs tok)) ∧
  total (ofToken t.outputs Token.TOKENID_MINIMA) + total (ofToken t.outputs Token.TOKENID_CREATE) ≤
    total (ofToken t.inputs Token.TOKENID_MINIMA)

/-- The check of token `0x00`, with the outputs that create tokens summed in. -/
def minimaCoversCreation (t : Transaction) : Result Bool := do
  let minima ← t.sumOutputs Token.TOKENID_MINIMA
  let created ← t.sumOutputs Token.TOKENID_CREATE
  let outamt ← minima.add created
  let inamt ← t.sumInputs Token.TOKENID_MINIMA
  return !inamt.isLess outamt

/-- No output creates a token, or the Minima inputs cover the created amounts as well. -/
def CreationCovered (t : Transaction) : Prop :=
  (∀ c ∈ t.outputs, c.tokenID ≠ Token.TOKENID_CREATE) ∨ t.minimaCoversCreation = .ok true

theorem ofToken_eq_nil {cs : List Coin} {d : MiniData} (h : ∀ c ∈ cs, c.tokenID ≠ d) :
    ofToken cs d = [] := by
  rw [ofToken, List.filter_eq_nil_iff]
  intro c hc
  rw [MiniData.isEqual_iff]
  exact h c hc

/-- A token other than the create marker is conserved. -/
theorem Accepted.token_conserved {t : Transaction} (h : t.Accepted) {tok : MiniData}
    (hne : tok ≠ Token.TOKENID_CREATE) :
    total (ofToken t.outputs tok) ≤ total (ofToken t.inputs tok) := by
  by_cases hex : ∃ c ∈ t.outputs, c.tokenID = tok
  · obtain ⟨c, hc, rfl⟩ := hex
    have hnorm : normalisedTokenID c = c.tokenID := by
      rw [normalisedTokenID, if_neg]
      rwa [MiniData.isEqual_iff]
    have := h.token_le c hc
    rwa [hnorm] at this
  · push Not at hex
    rw [ofToken_eq_nil hex]
    exact (h.inputs.filter _).total_nonneg

/-- The check of token `0x00` with created tokens summed in, over the rationals. -/
theorem Accepted.minimaCoversCreation_iff {t : Transaction} (h : t.Accepted) :
    t.minimaCoversCreation = .ok true ↔
      total (ofToken t.outputs Token.TOKENID_MINIMA) +
        total (ofToken t.outputs Token.TOKENID_CREATE) ≤
          total (ofToken t.inputs Token.TOKENID_MINIMA) := by
  obtain ⟨a, ha, hac, har⟩ := sumOutputs_eq h.outputs Token.TOKENID_MINIMA
  obtain ⟨b, hb, hbc, hbr⟩ := sumOutputs_eq h.outputs Token.TOKENID_CREATE
  obtain ⟨i, hi, -, hir⟩ := sumInputs_eq h.inputs Token.TOKENID_MINIMA
  have hbound : ∀ d : MiniData, 0 ≤ total (ofToken t.outputs d) ∧
      total (ofToken t.outputs d) ≤ 2 ^ 31 * 10 ^ 9 := by
    intro d
    refine ⟨(h.outputs.filter _).total_nonneg, (h.outputs.filter _).total_le.trans ?_⟩
    have : ((ofToken t.outputs d).length : ℚ) ≤ 2 ^ 31 := by
      exact_mod_cast ((ofToken_length _ d).trans_lt t.outputs_length).le
    exact mul_le_mul_of_nonneg_right this (by norm_num)
  obtain ⟨h1, h2⟩ := hbound Token.TOKENID_MINIMA
  obtain ⟨h3, h4⟩ := hbound Token.TOKENID_CREATE
  obtain ⟨c, hc, hcr⟩ := MiniNumber.add_eq_ok hac hbc (by
    rw [har, hbr, abs_of_nonneg (by linarith)]
    linarith)
  rw [minimaCoversCreation]
  simp only [ha, hb, hc, hi, Result.ok_bind, Result.pure_eq_ok, Bool.not_eq_true', ← har, ← hbr,
    ← hir, ← hcr]
  rw [← Bool.not_eq_true, MiniNumber.isLess_iff, not_lt]

/-- **When an accepted transaction conserves tokens:** exactly when it creates none, or its Minima
inputs cover the created amounts next to the Minima outputs, which `checkValid` does not ask. -/
theorem checkValid_conserves_iff {t : Transaction} (h : t.checkValid = .ok true) :
    t.Conserves ↔ t.CreationCovered := by
  have hacc := checkValid_eq_ok h
  constructor
  · rintro ⟨-, hcover⟩
    exact Or.inr (hacc.minimaCoversCreation_iff.mpr hcover)
  · intro hcond
    refine ⟨fun tok _ hne => hacc.token_conserved hne, ?_⟩
    rcases hcond with hno | hcover
    · rw [ofToken_eq_nil hno, total_nil, add_zero]
      exact hacc.token_conserved (by decide)
    · exact hacc.minimaCoversCreation_iff.mp hcover

/-- A coin with an amount and a token, and nothing else of interest. -/
def sampleCoin (coinID : Byte) (amount : StoredNumber) (tokenID : MiniData) : Coin where
  coinID := ⟨[coinID]⟩
  address := ⟨[7]⟩
  amount := amount
  tokenID := tokenID
  storeState := true
  state := []
  mmrEntryNumber := .zero
  spent := 0
  blockCreated := ⟨.zero, MiniNumber.canonical_zero⟩
  token := none

def sampleTen : StoredNumber := ⟨.ofInt 10, MiniNumber.canonical_ten⟩

def sampleOne : StoredNumber := ⟨.ofInt 1, MiniNumber.canonical_one⟩

/-- Creates a token backed by ten Minima, which it pays from ten Minima. -/
def sampleCreate : Transaction :=
  ⟨[sampleCoin 1 sampleTen Token.TOKENID_MINIMA], [sampleCoin 0 sampleTen Token.TOKENID_CREATE], [],
    MiniData.zeroTxPowID, by decide, by decide⟩

theorem checkValid_conserves_iff_sample : sampleCreate.Conserves ↔ sampleCreate.CreationCovered :=
  checkValid_conserves_iff (by decide +kernel)

/-- Creates a token backed by ten Minima out of one Minima and ten units of another token. -/
def sampleMint : Transaction :=
  ⟨[sampleCoin 1 sampleOne Token.TOKENID_MINIMA, sampleCoin 2 sampleTen ⟨[0xAA]⟩],
    [sampleCoin 0 sampleTen Token.TOKENID_CREATE], [], MiniData.zeroTxPowID, by decide, by decide⟩

/-- **Created tokens are not counted:** the transaction is accepted and mints nine Minima. -/
theorem checkValid_not_conserves : sampleMint.checkValid = .ok true ∧ ¬ sampleMint.Conserves := by
  refine ⟨by decide +kernel, ?_⟩
  rintro ⟨-, h⟩
  rw [show ofToken sampleMint.outputs Token.TOKENID_MINIMA = [] by decide +kernel,
    show ofToken sampleMint.outputs Token.TOKENID_CREATE =
      [sampleCoin 0 sampleTen Token.TOKENID_CREATE] by decide +kernel,
    show ofToken sampleMint.inputs Token.TOKENID_MINIMA =
      [sampleCoin 1 sampleOne Token.TOKENID_MINIMA] by decide +kernel] at h
  norm_num [Coin.value, sampleCoin, sampleOne, sampleTen] at h

end Transaction

end Minima
