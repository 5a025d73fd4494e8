import Minima.Brains.TxPoWChecker
import Minima.Objects.MadeBlock

/-! # What the checks of a block accept

The checks go through a `TxPoW` once when it arrives and once for every block that lists it. This file says
what acceptance means for the coins: each transaction is backed by coin proofs, each coin proof is in the
MMR, no coin is used twice, and the script of each coin has run.

* **`TxPoWChecker.Backed`** — what `checkTxPoWBasic` accepts.
* **`TxPoWChecker.Ran`** — what `checkTxPoWScripts` accepts.
* **`TxPoWChecker.checkTransactions_spec`** — what the checks of a block accept. -/

namespace Minima

open TxBlock

namespace TxPoWChecker

variable {C : Crypto} {parse : Contract.Parser}

/-- A check that is made, and passed. -/
theorem passed_check {check rest : Result Bool}
    (h : (check >>= fun ok => if (!ok) = true then pure false else rest) = .ok true) :
    check = .ok true ∧ rest = .ok true := by
  obtain ⟨ok, hok, h⟩ := Result.bind_eq_ok.mp h
  obtain ⟨hpass, hrest⟩ := passed h
  cases ok with
  | true => exact ⟨hok, hrest⟩
  | false => exact absurd rfl hpass

/-! ## `checkTxPoWBasic` -/

/-- An input is backed by a coin proof: one for an unspent coin with the amount, the address and the token
of the input, and with its coin id, unless the input floats. -/
def Backs (input : Coin) (p : Option CoinProof) : Prop :=
  ∃ cp, p = some cp ∧ input.value = cp.coin.value ∧ input.address = cp.coin.address ∧
    input.tokenID = cp.coin.tokenID ∧ (input.coinID = Coin.COINID_ELTOO ∨ input.coinID = cp.coin.coinID) ∧
      cp.coin.getSpent = false

/-- **A transaction that is backed by its witness:** it is valid, and each of its inputs has its coin
proof. -/
structure Backed (tw : Transaction × Witness) : Prop where
  valid : tw.1.Accepted
  inputs : List.Forall₂ Backs tw.1.inputs tw.2.coinProofs

/-- The input that a coin proof backs. -/
theorem Backed.input {tw : Transaction × Witness} (h : Backed tw) {i : ℕ} {cp : CoinProof}
    (hcp : tw.2.coinProofs[i]? = some (some cp)) :
    ∃ input, tw.1.inputs[i]? = some input ∧ Backs input (some cp) := by
  obtain ⟨hi, hget⟩ := List.getElem?_eq_some_iff.mp hcp
  have hi' : i < tw.1.inputs.length := h.inputs.length_eq ▸ hi
  refine ⟨tw.1.inputs[i], List.getElem?_eq_getElem hi', ?_⟩
  have hbacks := h.inputs.get hi' hi
  simpa only [List.get_eq_getElem, hget] using hbacks

theorem backs_of_checkBasicInput {w : Witness} {used : List Text} {input : Coin} {p : Option CoinProof}
    (h : checkBasicInput C w used input p = .ok true) : Backs input p := by
  cases p with
  | none => cases h
  | some cp =>
    unfold checkBasicInput at h
    simp only at h
    obtain ⟨-, h⟩ := passed h
    obtain ⟨hsame, h⟩ := passed h
    obtain ⟨hid, h⟩ := passed h
    have hlast : (if cp.coin.getSpent = true then pure false
        else pure (w.getScript input.address).isSome : Result Bool) = .ok true := by
      by_cases htoken : (!input.tokenID.isEqual Token.TOKENID_MINIMA) = true
      · rw [if_pos htoken] at h
        obtain ⟨_, -, h⟩ := Result.bind_eq_ok.mp h
        obtain ⟨-, h⟩ := passed h
        obtain ⟨_, -, h⟩ := Result.bind_eq_ok.mp h
        exact (passed h).2
      · rwa [if_neg htoken] at h
    obtain ⟨hspent, -⟩ := passed hlast
    simp only [Bool.or_eq_true, Bool.not_eq_true', not_or, Bool.not_eq_false] at hsame
    obtain ⟨⟨hamount, haddress⟩, htokenID⟩ := hsame
    simp only [Bool.and_eq_true, Bool.not_eq_true', not_and, Bool.not_eq_false] at hid
    refine ⟨cp, rfl, (MiniNumber.isEqual_iff _ _).mp hamount, (MiniData.isEqual_iff _ _).mp haddress,
      (MiniData.isEqual_iff _ _).mp htokenID, ?_, by simpa using hspent⟩
    by_cases hfloat : input.coinID.isEqual Coin.COINID_ELTOO = false
    · exact Or.inr ((MiniData.isEqual_iff _ _).mp (hid hfloat))
    · exact Or.inl ((MiniData.isEqual_iff _ _).mp (by simpa using hfloat))

theorem backs_of_checkBasicInputs {w : Witness} {inputs : List Coin} : ∀ {used : List Text}
    {cproofs : List (Option CoinProof)}, inputs.length = cproofs.length →
      checkBasicInputs C w used inputs cproofs = .ok true → List.Forall₂ Backs inputs cproofs := by
  induction inputs with
  | nil =>
    intro used cproofs hlen _
    rw [List.eq_nil_of_length_eq_zero hlen.symm]
    exact .nil
  | cons input inputs ih =>
    intro used cproofs hlen h
    cases cproofs with
    | nil => cases hlen
    | cons p cproofs =>
      rw [checkBasicInputs] at h
      obtain ⟨haccepted, h⟩ := passed_check h
      exact .cons (backs_of_checkBasicInput haccepted) (ih (Nat.succ.inj hlen) h)

theorem backed_of_impl {tw : Transaction × Witness} (h : checkTxPoWBasic_impl C tw.1 tw.2 = .ok true) :
    tw.1.isEmpty = true ∨ Backed tw := by
  unfold checkTxPoWBasic_impl at h
  by_cases hempty : tw.1.isEmpty = true
  · exact Or.inl hempty
  · right
    rw [if_neg hempty] at h
    obtain ⟨hvalid, h⟩ := passed_check h
    obtain ⟨-, h⟩ := passed h
    obtain ⟨hlen, h⟩ := passed h
    obtain ⟨haccepted, -⟩ := passed_check h
    exact ⟨Transaction.checkValid_eq_ok hvalid, backs_of_checkBasicInputs (not_not.mp hlen) haccepted⟩

/-- **What `checkTxPoWBasic` accepts:** each of the two transactions is empty or backed by its witness. -/
theorem checkTxPoWBasic_spec {u : TxPoW} (h : checkTxPoWBasic C u = .ok true) :
    ∀ tw ∈ pairsOf u, tw.1.isEmpty = true ∨ Backed tw := by
  unfold checkTxPoWBasic at h
  obtain ⟨-, h⟩ := passed h
  obtain ⟨-, h⟩ := passed h
  obtain ⟨b, hbody, h⟩ := Result.bind_eq_ok.mp h
  have hb : u.body = some b := by
    unfold TxPoW.getTxBody at hbody
    cases hub : u.body with
    | none =>
      rw [hub] at hbody
      cases hbody
    | some b' =>
      rw [hub, Except.ok.injEq] at hbody
      rw [hbody]
  obtain ⟨hmain, h⟩ := passed_check h
  obtain ⟨-, h⟩ := passed h
  intro tw htw
  rw [pairsOf, hb] at htw
  simp only [List.mem_cons, List.not_mem_nil, or_false] at htw
  rcases htw with rfl | rfl
  · exact backed_of_impl hmain
  · by_cases hempty : b.burnTransaction.isEmpty = true
    · exact Or.inl hempty
    · rw [if_pos (by simpa using hempty)] at h
      exact backed_of_impl (passed h).2

/-! ## The MMR and the scripts -/

/-- A coin proof that is in the MMR. -/
def InMMR (C : Crypto) (m : MMR) (A : Ancestry) (p : Option CoinProof) : Prop :=
  ∃ cp d, p = some cp ∧ cp.getMMRData C = .ok d ∧
    m.checkProofTimeValid C A cp.coin.mmrEntryNumber d cp.proof = .ok true

theorem inMMR_of_checkCoinProofs {m : MMR} {A : Ancestry} {cproofs : List (Option CoinProof)}
    (h : checkCoinProofs C m A cproofs = .ok true) : ∀ p ∈ cproofs, InMMR C m A p := by
  induction cproofs with
  | nil => simp
  | cons p cproofs ih =>
    cases p with
    | none => cases h
    | some cp =>
      rw [checkCoinProofs] at h
      obtain ⟨d, hd, h⟩ := Result.bind_eq_ok.mp h
      obtain ⟨haccepted, h⟩ := passed_check h
      rw [List.forall_mem_cons]
      exact ⟨⟨cp, d, rfl, hd, haccepted⟩, ih h⟩

/-- **The script of a coin ran** in the context of a block and returned `TRUE`: the script behind the
address of the coin, for the input of the coin. -/
def Ran (C : Crypto) (parse : Contract.Parser) (zBlock : TxPoW) (tw : Transaction × Witness) (i : ℕ)
    (cp : CoinProof) : Prop :=
  ∃ prfs mono, tw.2.getScript cp.coin.address = some prfs ∧
    runScript C parse tw.1 tw.2 zBlock i cp.coin prfs.script = .ok (true, mono)

theorem ran_of_checkInput {zBlock : TxPoW} {tw : Transaction × Witness} {i : ℕ} {cp : CoinProof}
    (h : (checkInput C parse tw.1 tw.2 zBlock i (some cp)).1 = .ok true) : Ran C parse zBlock tw i cp := by
  unfold checkInput at h
  cases hscript : tw.2.getScript cp.coin.address with
  | none =>
    simp only [hscript] at h
    cases h
  | some prfs =>
    simp only [hscript] at h
    rcases hrun : runScript C parse tw.1 tw.2 zBlock i cp.coin prfs.script with e | ⟨_ | _, mono⟩
    · rw [hrun] at h
      cases h
    · rw [hrun] at h
      cases h
    · exact ⟨prfs, mono, hscript, hrun⟩

theorem ran_of_checkInputs {zBlock : TxPoW} {tw : Transaction × Witness} {cproofs : List (Option CoinProof)} :
    ∀ {first : ℕ}, (checkInputs C parse tw.1 tw.2 zBlock first cproofs).1 = .ok true →
      ∀ i cp, cproofs[i]? = some (some cp) → Ran C parse zBlock tw (first + i) cp := by
  induction cproofs with
  | nil => simp
  | cons p cproofs ih =>
    intro first h i cp hcp
    rw [checkInputs] at h
    rcases hstep : checkInput C parse tw.1 tw.2 zBlock first p with ⟨e | _ | _, mono⟩
    · rw [hstep] at h
      cases h
    · rw [hstep] at h
      cases h
    · rw [hstep] at h
      cases i with
      | zero =>
        obtain rfl : p = some cp := by simpa using hcp
        exact ran_of_checkInput (congrArg Prod.fst hstep)
      | succ i =>
        have hrest := ih h i cp (by simpa using hcp)
        rwa [show first + 1 + i = first + (i + 1) by omega] at hrest

/-- The flags of a transaction, left by checks in some blocks, vouch for one of these or for this one. -/
theorem ran_of_leftBy {tw : Transaction × Witness} {blocks : List TxPoW} {cache : ScriptCache}
    (hleft : LeftBy C parse tw.1 tw.2 blocks cache) {zBlock : TxPoW}
    (h : (checkTxPoWScripts_impl C parse tw.1 tw.2 zBlock cache).1 = .ok true) (hempty : tw.1.isEmpty = false) :
    ∃ x ∈ blocks ++ [zBlock], ∀ i cp, tw.2.coinProofs[i]? = some (some cp) → Ran C parse x tw i cp := by
  -- the block in which the scripts ran
  obtain ⟨x, hx, hrun⟩ : ∃ x ∈ blocks ++ [zBlock],
      (checkTxPoWScripts_impl C parse tw.1 tw.2 x ScriptCache.fresh).1 = .ok true := by
    by_cases hcache : cache.isCheckedMonotonic = true
    · obtain ⟨x, hx, rfl⟩ := hleft.exists_of_isCheckedMonotonic C parse hcache
      refine ⟨x, List.mem_append_left _ hx, ?_⟩
      rw [impl_fresh]
      exact (impl_cacheAt C parse tw.1 tw.2 hcache zBlock).mp h
    · refine ⟨zBlock, by simp, ?_⟩
      rw [impl_fresh]
      rwa [checkTxPoWScripts_impl_eq, if_neg hcache] at h
  refine ⟨x, hx, fun i cp hcp => ?_⟩
  unfold checkTxPoWScripts_impl at hrun
  rw [if_neg (by decide), if_neg (by simp [hempty])] at hrun
  split_ifs at hrun with hlen
  · cases hrun
  have hran := ran_of_checkInputs hrun i cp hcp
  rwa [Nat.zero_add] at hran

/-! ## The checks of a block -/

/-- A `TxPoW` whose witnesses hold coin proofs is a transaction. Of any other one the coin ids are not looked
at, and if it is the block itself, neither are its coin proofs: no check against the MMR, no scripts. -/
def Witnessed (u : TxPoW) : Prop := u.isTransaction = true ∨ ∀ tw ∈ pairsOf u, tw.2.coinProofs = []

theorem coinIDs_eq {u : TxPoW} (h : Witnessed u) :
    coinIDs u = (pairsOf u).flatMap fun tw => witnessCoinIDs tw.2 := by
  unfold coinIDs
  cases hbody : u.body with
  | none => simp [pairsOf, hbody]
  | some b =>
    rcases h with htrans | hnone
    · simp [pairsOf, hbody, htrans]
    · have hmain : b.witness.coinProofs = [] := hnone (b.transaction, b.witness) (by simp [pairsOf, hbody])
      have hburn : b.burnWitness.coinProofs = [] :=
        hnone (b.burnTransaction, b.burnWitness) (by simp [pairsOf, hbody])
      simp [pairsOf, hbody, witnessCoinIDs, hmain, hburn]

theorem nodup_of_uniqueCoinIDs {ids : List Text} (h : uniqueCoinIDs ids = true) : ids.Nodup := by
  have hlen : ids.dedup.length = ids.length := by simpa [uniqueCoinIDs] using h
  exact List.dedup_eq_self.mp ((List.dedup_sublist ids).eq_of_length hlen)

/-- **What `checkTxPoWSimple` accepts** of the coins and the scripts of a `TxPoW`. -/
structure Passes (C : Crypto) (parse : Contract.Parser) (m : MMR) (A : Ancestry)
    (flags : ScriptCache × ScriptCache) (zBlock u : TxPoW) : Prop where
  inMMR : ∀ tw ∈ pairsOf u, ∀ p ∈ tw.2.coinProofs, InMMR C m A p
  scripts : ∀ b, u.body = some b → (checkTxPoWScripts C parse b zBlock flags).1 = .ok true

theorem passes_of_checkTxPoWSimple {m : MMR} {A : Ancestry} {flags : ScriptCache × ScriptCache}
    {zBlock u : TxPoW} (h : checkTxPoWSimple C parse m A flags u zBlock = .ok true) :
    Passes C parse m A flags zBlock u := by
  unfold checkTxPoWSimple TxPoW.getTxBody at h
  cases hbody : u.body with
  | none =>
    rw [hbody] at h
    cases h
  | some b =>
    rw [hbody] at h
    simp only [Result.ok_bind] at h
    obtain ⟨-, h⟩ := passed h
    obtain ⟨-, h⟩ := passed h
    obtain ⟨-, h⟩ := passed h
    obtain ⟨hmmr, hscripts⟩ := passed_check h
    unfold checkMMR checkMMR_impl at hmmr
    obtain ⟨hmain, hburn⟩ := passed_check hmmr
    refine ⟨?_, ?_⟩
    · intro tw htw
      simp only [pairsOf, hbody, List.mem_cons, List.not_mem_nil, or_false] at htw
      rcases htw with rfl | rfl
      · exact inMMR_of_checkCoinProofs hmain
      · exact inMMR_of_checkCoinProofs hburn
    · intro b' hb'
      obtain rfl : b = b' := Option.some.inj (hbody.symm.trans hb')
      exact hscripts

theorem passes_of_checkListed {m : MMR} {A : Ancestry} {flags : ℕ → ScriptCache × ScriptCache}
    {zBlock : TxPoW} {txns : List TxPoW} : ∀ {first : ℕ},
      checkListed C parse m A flags zBlock first txns = .ok true →
      ∀ i u, txns[i]? = some u → Passes C parse m A (flags (first + i)) zBlock u := by
  induction txns with
  | nil => simp
  | cons txp txns ih =>
    intro first h i u hu
    rw [checkListed] at h
    obtain ⟨hhead, hrest⟩ := passed_check h
    cases i with
    | zero =>
      obtain rfl : txp = u := by simpa using hu
      exact passes_of_checkTxPoWSimple hhead
    | succ i =>
      have hpasses := ih hrest i u (by simpa using hu)
      rwa [show first + 1 + i = first + (i + 1) by omega] at hpasses

/-- **What the checks of a block accept:** all coin ids differ, and every `TxPoW` passes, but for a block
that is no transaction itself. -/
theorem checkTransactions_spec {weightText : ℕ → Text} {isMega : Bool} {megaMMR : Option MMR}
    {flags : ℕ → ScriptCache × ScriptCache} {m : MMR} {older : List MMR} {t : TxPoW} {txns : List TxPoW}
    (h : checkTransactions C parse weightText isMega megaMMR flags m older t txns = .ok true)
    (hwitnessed : ∀ u ∈ t :: txns, Witnessed u) :
    (((t :: txns).flatMap pairsOf).flatMap fun tw => witnessCoinIDs tw.2).Nodup ∧
      ∀ i u, (t :: txns)[i]? = some u → (i = 0 → t.isTransaction = true) →
        Passes C parse m ⟨older, megaMMR⟩ (flags i) t u := by
  unfold checkTransactions at h
  simp only at h
  obtain ⟨hunique, h⟩ := passed h
  have hids : coinIDs t ++ txns.flatMap coinIDs =
      ((t :: txns).flatMap pairsOf).flatMap fun tw => witnessCoinIDs tw.2 := by
    rw [← List.flatMap_cons, List.flatMap_assoc]
    exact List.flatMap_congr fun u hu => coinIDs_eq (hwitnessed u hu)
  refine ⟨hids ▸ nodup_of_uniqueCoinIDs (by simpa using hunique), ?_⟩
  -- the block itself is checked when it is a transaction, the others in any case
  have hrest : (t.isTransaction = true → checkTxPoWSimple C parse m ⟨older, megaMMR⟩ (flags 0) t t = .ok true) ∧
      checkListed C parse m ⟨older, megaMMR⟩ flags t 1 txns = .ok true := by
    by_cases htrans : t.isTransaction = true
    · rw [if_pos htrans] at h
      obtain ⟨hown, h⟩ := passed_check h
      exact ⟨fun _ => hown, (passed_check h).1⟩
    · rw [if_neg htrans] at h
      exact ⟨fun h' => absurd h' htrans, (passed_check h).1⟩
  intro i u hu hown
  cases i with
  | zero =>
    obtain rfl : t = u := by simpa using hu
    exact passes_of_checkTxPoWSimple (hrest.1 (hown rfl))
  | succ i =>
    have hpasses := passes_of_checkListed hrest.2 i u (by simpa using hu)
    rwa [Nat.add_comm] at hpasses

end TxPoWChecker

end Minima
