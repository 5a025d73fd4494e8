import Minima.Mmr.Rebuilt
import Minima.Objects.BlockMaking
import Minima.Objects.CoinLedger
import Minima.Objects.MegaMMR

/-! # What a `TxBlock` is made of

The constructor of a `TxBlock` sets every coin that the block spends in a child of the parent's MMR, one
after the other. So a later coin gets a proof that may carry siblings the earlier ones have changed.

* **`TxBlock.SpentAfter`** — the coin proofs of a block, each after those before it.
* **`TxBlock.OfTransaction`** — what one transaction spends and creates.
* **`TxBlock.make_spec`** — what is made of a block. -/

namespace Minima

open MountainRange SpendLedger

namespace TxBlock

variable {C : Crypto}

/-! ## The coins that are spent -/

/-- A coin proof that was made after the leaves `done` had been set: it is one for the unspent entry `k`,
and off those leaves it carries the siblings of the parent's tree. -/
structure SpendOf (P : Snapshot (MiniData × ℚ)) (l : List (Entry Coin)) (T : MiniNumber) (done : List ℕ)
    (k : ℕ) (p : CoinProof) : Prop where
  wire : p.coin.Wire
  number : p.coin.mmrEntryNumber = .ofNat k
  unspent : l[k]? = some ⟨p.coin.face, false⟩
  worth : 0 < p.coin.value
  time : p.proof.blockTime = T
  chunks : ∀ i c, p.proof.proofChain[i]? = some c → (∀ e ∈ done, sibling (k / 2 ^ i) ≠ e / 2 ^ i) →
    c.mmrData.content = P.label i (sibling (k / 2 ^ i))

/-- Coin proofs one after the other. -/
def SpentAfter (P : Snapshot (MiniData × ℚ)) (l : List (Entry Coin)) (T : MiniNumber) :
    List ℕ → List ℕ → List CoinProof → Prop
  | _, [], [] => True
  | done, k :: ks, p :: ps => SpendOf P l T done k p ∧ SpentAfter P l T (k :: done) ks ps
  | _, _, _ => False

theorem SpentAfter.concat {P : Snapshot (MiniData × ℚ)} {l : List (Entry Coin)} {T : MiniNumber} {k : ℕ}
    {p : CoinProof} {ks : List ℕ} : ∀ {done : List ℕ} {ps : List CoinProof}, SpentAfter P l T done ks ps →
      SpendOf P l T (ks.reverse ++ done) k p → SpentAfter P l T done (ks ++ [k]) (ps ++ [p]) := by
  induction ks with
  | nil =>
    intro done ps h hp
    cases ps with
    | nil => exact ⟨hp, trivial⟩
    | cons p' ps => exact h.elim
  | cons k' ks ih =>
    intro done ps h hp
    cases ps with
    | nil => exact h.elim
    | cons p' ps =>
      rw [List.reverse_cons, List.append_assoc] at hp
      exact ⟨h.1, ih h.2 hp⟩

/-- The state of the constructor after the leaves `ks`. -/
structure Play (C : Crypto) (P : Snapshot (MiniData × ℚ)) (older : List (Snapshot (MiniData × ℚ)))
    (l : List (Entry Coin)) (T : MiniNumber) (ks : List ℕ) (s : Making) : Prop where
  played : ∃ g, MMR.Played C MMRData.content (MMR.SumJoins C) P older ks.reverse s.mmr g
  time : s.mmr.blockTime = T
  spent : SpentAfter P l T [] ks s.spentCoins

/-- The coin proofs of a witness are ones for these entries of the ledger. -/
def Spends (l : List (Entry Coin)) (ks : List ℕ) (coinProofs : List (Option CoinProof)) : Prop :=
  List.Forall₂ (fun k p => ∃ cp, p = some cp ∧ l[k]? = some ⟨cp.coin.face, false⟩) ks coinProofs

section Play

variable {P : Snapshot (MiniData × ℚ)} {older : List (Snapshot (MiniData × ℚ))} {l : List (Entry Coin)}
  {T : MiniNumber}

/-- **One coin** is set to what it is, and gets a proof. -/
theorem Play.spendCoin (hl : Coin.Holds C l P) {ks : List ℕ} {s s' : Making} (h : Play C P older l T ks s)
    {k : ℕ} {p : CoinProof} (hp : Coin.Shown C P older l k p)
    (hs : spendCoin C ⟨(P :: older).map Snapshot.mmr, none⟩ s (some p) = .ok s') :
    Play C P older l T (ks ++ [k]) s' ∧ s'.newCoins = s.newCoins ∧
      ∃ proof, s'.spentCoins = s.spentCoins ++ [⟨p.coin, proof⟩] := by
  obtain ⟨g, hplayed⟩ := h.played
  unfold TxBlock.spendCoin at hs
  simp only [Result.bind_eq_ok, Result.pure_eq_ok, hp.number] at hs
  obtain ⟨d, hd, m, hm, proof, hproof, rfl⟩ := hs
  obtain ⟨g', cs, hplayed', htime, hget, hchunks⟩ := hplayed.update MMRData.content_clone MMR.sumJoins_of_create
    (hp.lt hl) (hp.leaf d hd) hp.time hp.supplies hm
  rw [hget, Except.ok.injEq] at hproof
  subst hproof
  refine ⟨⟨⟨g', ?_⟩, htime.trans h.time, ?_⟩, rfl, _, rfl⟩
  · rwa [List.reverse_append, List.reverse_singleton, List.singleton_append]
  · refine h.spent.concat ⟨hp.wire, hp.number, hp.unspent, hp.worth, h.time, ?_⟩
    intro i c hc hdone
    exact hchunks i c hc fun e he => hdone e (by simpa using he)

/-- What `spendCoin` adds. -/
theorem spendCoin_adds {A : Ancestry} {s s' : Making} {q : Option CoinProof} (h : spendCoin C A s q = .ok s') :
    s'.newCoins = s.newCoins ∧ ∃ p proof, q = some p ∧ s'.spentCoins = s.spentCoins ++ [⟨p.coin, proof⟩] := by
  cases q with
  | none => cases h
  | some p =>
    unfold spendCoin at h
    simp only [Result.bind_eq_ok, Result.pure_eq_ok] at h
    obtain ⟨_, -, _, -, proof, -, rfl⟩ := h
    exact ⟨rfl, p, proof, rfl, rfl⟩

theorem spendCoins_extends {A : Ancestry} {s s' : Making} {coinProofs : List (Option CoinProof)}
    (h : coinProofs.foldlM (spendCoin C A) s = .ok s') : s.spentCoins <+: s'.spentCoins := by
  refine MegaMMR.foldlM_keeps (P := fun t => s.spentCoins <+: t.spentCoins) ?_ h List.prefix_rfl
  intro t q t' ht hsub
  obtain ⟨-, p, proof, -, hspent⟩ := spendCoin_adds ht
  exact hspent ▸ hsub.trans (List.prefix_append _ _)

/-- A coin can be written. -/
def Written (c : Coin) : Prop := ∃ bytes, c.writeDataStream = .ok bytes

/-- Every coin proof of the witness that can be written is one for an entry of the ledger. -/
def AllShown (C : Crypto) (P : Snapshot (MiniData × ℚ)) (older : List (Snapshot (MiniData × ℚ)))
    (l : List (Entry Coin)) (coinProofs : List (Option CoinProof)) : Prop :=
  ∀ p, some p ∈ coinProofs → Written p.coin → ∃ k, Coin.Shown C P older l k p

/-- **The coins of a witness.** -/
theorem Play.spendCoins (hl : Coin.Holds C l P) {coinProofs : List (Option CoinProof)} :
    ∀ {ks : List ℕ} {s s' : Making}, Play C P older l T ks s → AllShown C P older l coinProofs →
      coinProofs.foldlM (TxBlock.spendCoin C ⟨(P :: older).map Snapshot.mmr, none⟩) s = .ok s' →
      (∀ p ∈ s'.spentCoins, Written p.coin) →
      ∃ ks', Play C P older l T (ks ++ ks') s' ∧ s'.newCoins = s.newCoins ∧ Spends l ks' coinProofs := by
  induction coinProofs with
  | nil =>
    intro ks s s' h _ hs _
    obtain rfl := Except.ok.inj (show Except.ok s = .ok s' from hs)
    exact ⟨[], by rwa [List.append_nil], rfl, .nil⟩
  | cons q coinProofs ih =>
    intro ks s s' h hshown hs hwritten
    rw [List.foldlM_cons] at hs
    obtain ⟨s₁, hs₁, hrest⟩ := Result.bind_eq_ok.mp hs
    obtain ⟨-, p, proof, rfl, hspent⟩ := spendCoin_adds hs₁
    have hmem : ⟨p.coin, proof⟩ ∈ s'.spentCoins :=
      (spendCoins_extends hrest).subset (by simp [hspent])
    obtain ⟨k, hk⟩ := hshown p List.mem_cons_self (hwritten ⟨p.coin, proof⟩ hmem)
    obtain ⟨hplay, hnew, -⟩ := h.spendCoin hl hk hs₁
    obtain ⟨ks', hplay', hnew', hspends⟩ := ih hplay
      (fun p hp => hshown p (List.mem_cons_of_mem _ hp)) hrest hwritten
    refine ⟨k :: ks', ?_, hnew'.trans hnew, .cons ⟨p, rfl, hk.unspent⟩ hspends⟩
    rwa [List.append_assoc] at hplay'

end Play

/-! ## The coins that are made -/

theorem length_of_writeHashToStream {d : MiniData} {bs : List Byte} (h : d.writeHashToStream = .ok bs) :
    d.getLength ≤ MiniData.maxHashLength := by
  unfold MiniData.writeHashToStream at h
  split_ifs at h with hlen
  · cases h
  · exact not_lt.mp hlen

/-- The ids of a coin that can be written are hashes. -/
theorem Written.ids {c : Coin} (h : Written c) : c.coinID.getLength ≤ MiniData.maxHashLength ∧
    c.tokenID.getLength ≤ MiniData.maxHashLength ∧
      ∀ t ∈ c.token, t.coinID.getLength ≤ MiniData.maxHashLength := by
  obtain ⟨bytes, h⟩ := h
  rw [Coin.writeDataStream_eq] at h
  simp only [Result.bind_eq_ok] at h
  obtain ⟨_, hcoinID, _, -, _, htokenID, _, -, _, htoken, -⟩ := h
  refine ⟨length_of_writeHashToStream hcoinID, length_of_writeHashToStream htokenID, ?_⟩
  intro t ht
  rw [Option.mem_def] at ht
  rw [ht] at htoken
  simp only [Coin.writeToken, Token.writeDataStream, Result.bind_eq_ok] at htoken
  obtain ⟨_, ⟨_, ht, -⟩, -⟩ := htoken
  exact length_of_writeHashToStream ht

/-- **The coin that an output becomes:** its id is derived, its amount is that of the output, and when it
can be written it is one that can be read. -/
theorem correctCoin_spec {block : StoredNumber} {t : Transaction} (ht : t.Wire) {base : MiniData} {o c : Coin}
    (ho : o.Wire) {num : ℕ} (h : correctCoin C block t base o num = .ok c) :
    c.coinID = calculateCoinID C base num ∧ c.amount = o.amount ∧ (Written c → c.Wire) := by
  unfold correctCoin Coin.getSameCoinWithCoinID at h
  cases hcopy : o.deepCopy with
  | none =>
    rw [hcopy] at h
    cases h
  | some copy =>
    obtain ⟨-, hwire, hsame⟩ := Coin.deepCopy_spec ho hcopy
    rw [hcopy] at h
    simp only [Option.map_some] at h
    -- the coin before its token is created
    obtain ⟨made, ⟨hid, hamount, hmade⟩, h⟩ : ∃ made : Coin, (made.coinID = calculateCoinID C base num ∧
        made.amount = o.amount ∧ (made.coinID.getLength ≤ MiniData.maxHashLength → made.Wire)) ∧
        createToken C block (calculateCoinID C base num) o made = .ok c := by
      refine ⟨_, ⟨?_, ?_, ?_⟩, h⟩
      · split_ifs <;> rfl
      · split_ifs <;> exact hsame.amount
      · split_ifs with hstore
        · intro hid
          exact ⟨hid, hwire.address, hwire.tokenID, hwire.number, ht.stateLength, ht.state, hwire.token⟩
        · intro hid
          exact ⟨hid, hwire.address, hwire.tokenID, hwire.number, hwire.length, hwire.state, hwire.token⟩
    unfold createToken at h
    split_ifs at h with hcreate
    · cases htoken : o.token with
      | none =>
        rw [htoken] at h
        cases h
      | some creator =>
        rw [htoken] at h
        simp only at h
        split at h
        · cases h
        · obtain rfl := Except.ok.inj h
          refine ⟨hid, hamount, fun hw => ?_⟩
          obtain ⟨hcoinID, htokenID, htok⟩ := hw.ids
          have hwire' := hmade hcoinID
          have hcreator := ho.token creator htoken
          refine ⟨hcoinID, hwire'.address, htokenID, hwire'.number, hwire'.length, hwire'.state, ?_⟩
          intro t hmem
          obtain rfl := Option.some.inj hmem
          exact ⟨htok _ rfl, hcreator.name, hcreator.script⟩
    · obtain rfl := Except.ok.inj h
      exact ⟨hid, hamount, fun hw => hmade hw.ids.1⟩

/-! ## A transaction -/

/-- **What a transaction spends and creates** at a time: the entries of the coin proofs of its witness, and
for each output a coin of its amount, whose id is derived from that of the first coin that is spent, but in
the first block from the id of the transaction. -/
structure OfTransaction (C : Crypto) (T : MiniNumber) (l : List (Entry Coin)) (tw : Transaction × Witness)
    (p : Transfer Coin) : Prop where
  spends : Spends l p.spends tw.2.coinProofs
  values : List.Forall₂ (fun o c => c.value = o.value) tw.1.outputs p.creates
  ids : T.isEqual .one = false → ∀ cp, tw.2.coinProofs.head? = some (some cp) →
    ∀ i c, p.creates[i]? = some c → c.coinID = calculateCoinID C cp.coin.coinID i
  first : T.isEqual .one = true →
    ∀ i c, p.creates[i]? = some c → c.coinID = calculateCoinID C (tw.1.calculateTransactionID C) i

/-- A transaction whose outputs are worth something, with a witness whose coin proofs have been accepted. -/
structure Ready (C : Crypto) (P : Snapshot (MiniData × ℚ)) (older : List (Snapshot (MiniData × ℚ)))
    (l : List (Entry Coin)) (tw : Transaction × Witness) : Prop where
  wire : tw.1.Wire
  worth : ∀ o ∈ tw.1.outputs, 0 < o.value
  shown : AllShown C P older l tw.2.coinProofs

/-- What the constructor has made of the transactions so far. -/
structure Made (C : Crypto) (P : Snapshot (MiniData × ℚ)) (older : List (Snapshot (MiniData × ℚ)))
    (l : List (Entry Coin)) (T : MiniNumber) (parts : List (Transfer Coin)) (s : Making) : Prop where
  play : Play C P older l T (spends parts) s
  creates : s.newCoins.map Coin.face = creates parts
  wire : ∀ c ∈ s.newCoins, 0 < c.value ∧ (Written c → c.Wire)

section Made

variable {P : Snapshot (MiniData × ℚ)} {older : List (Snapshot (MiniData × ℚ))} {l : List (Entry Coin)}
  {T : MiniNumber}

theorem spends_concat {parts : List (Transfer Coin)} {p : Transfer Coin} :
    spends (parts ++ [p]) = spends parts ++ p.spends := by simp [spends]

theorem creates_concat {parts : List (Transfer Coin)} {p : Transfer Coin} :
    creates (parts ++ [p]) = creates parts ++ p.creates := by simp [creates]

/-- `calculateCoins` of a pair. -/
def calculatePair (C : Crypto) (A : Ancestry) (block : StoredNumber) (s : Making) (tw : Transaction × Witness) :
    Result Making := calculateTransaction C A block s tw.1 tw.2

theorem calculatePairs_extends {A : Ancestry} {block : StoredNumber} {s s' : Making}
    {tws : List (Transaction × Witness)} (h : tws.foldlM (calculatePair C A block) s = .ok s') :
    s.spentCoins <+: s'.spentCoins := by
  refine MegaMMR.foldlM_keeps (P := fun t => s.spentCoins <+: t.spentCoins) ?_ h List.prefix_rfl
  intro t tw t' ht hsub
  unfold calculatePair TxBlock.calculateTransaction at ht
  simp only [Result.bind_eq_ok, Result.pure_eq_ok] at ht
  obtain ⟨t₁, hspend, _, -, _, -, rfl⟩ := ht
  have hmore : t.spentCoins <+: t₁.spentCoins := spendCoins_extends hspend
  exact hsub.trans hmore

/-- Every coin that is spent is that of a coin proof. -/
theorem calculatePairs_spent {A : Ancestry} {block : StoredNumber} {s s' : Making}
    {tws : List (Transaction × Witness)} (h : tws.foldlM (calculatePair C A block) s = .ok s') :
    ∀ p ∈ s'.spentCoins, p ∈ s.spentCoins ∨
      ∃ tw ∈ tws, ∃ (i : ℕ) (cp : CoinProof), tw.2.coinProofs[i]? = some (some cp) ∧ p.coin = cp.coin := by
  have hone : ∀ (coinProofs : List (Option CoinProof)) (s s' : Making),
      coinProofs.foldlM (spendCoin C A) s = .ok s' →
      ∀ p ∈ s'.spentCoins, p ∈ s.spentCoins ∨ ∃ cp, some cp ∈ coinProofs ∧ p.coin = cp.coin := by
    intro coinProofs
    induction coinProofs with
    | nil =>
      intro s s' h p hp
      obtain rfl := Except.ok.inj (show Except.ok s = .ok s' from h)
      exact Or.inl hp
    | cons q coinProofs ih =>
      intro s s' h p hp
      rw [List.foldlM_cons] at h
      obtain ⟨s₁, hs₁, hrest⟩ := Result.bind_eq_ok.mp h
      obtain ⟨-, cp, proof, rfl, hspent⟩ := spendCoin_adds hs₁
      rcases ih s₁ s' hrest p hp with hp | ⟨cp', hcp', hcoin⟩
      · rw [hspent, List.mem_append, List.mem_singleton] at hp
        rcases hp with hp | rfl
        · exact Or.inl hp
        · exact Or.inr ⟨cp, List.mem_cons_self, rfl⟩
      · exact Or.inr ⟨cp', List.mem_cons_of_mem _ hcp', hcoin⟩
  induction tws generalizing s with
  | nil =>
    intro p hp
    obtain rfl := Except.ok.inj (show Except.ok s = .ok s' from h)
    exact Or.inl hp
  | cons tw tws ih =>
    intro p hp
    rw [List.foldlM_cons] at h
    obtain ⟨s₁, hs₁, hrest⟩ := Result.bind_eq_ok.mp h
    rcases ih hrest p hp with hp | ⟨tw', htw', i, cp, hcp, hcoin⟩
    · unfold calculatePair TxBlock.calculateTransaction at hs₁
      simp only [Result.bind_eq_ok, Result.pure_eq_ok] at hs₁
      obtain ⟨s₂, hspend, _, -, _, -, rfl⟩ := hs₁
      rcases hone _ _ _ hspend p hp with hp | ⟨cp, hcp, hcoin⟩
      · exact Or.inl hp
      · obtain ⟨i, hi, hget⟩ := List.getElem_of_mem hcp
        exact Or.inr ⟨tw, List.mem_cons_self, i, cp, List.getElem?_eq_some_iff.mpr ⟨hi, hget⟩, hcoin⟩
    · exact Or.inr ⟨tw', List.mem_cons_of_mem _ htw', i, cp, hcp, hcoin⟩

/-- **One transaction.** -/
theorem Made.calculateTransaction (hl : Coin.Holds C l P) {block : StoredNumber}
    {parts : List (Transfer Coin)} {s s' : Making} (h : Made C P older l T parts s) {tw : Transaction × Witness}
    (htw : Ready C P older l tw)
    (hs : calculatePair C ⟨(P :: older).map Snapshot.mmr, none⟩ block s tw = .ok s')
    (hwritten : ∀ p ∈ s'.spentCoins, Written p.coin) :
    ∃ p, Made C P older l T (parts ++ [p]) s' ∧ OfTransaction C T l tw p := by
  unfold calculatePair TxBlock.calculateTransaction at hs
  simp only [Result.bind_eq_ok, Result.pure_eq_ok] at hs
  obtain ⟨s₁, hspend, base, hbase, coins, hcoins, rfl⟩ := hs
  obtain ⟨ks, hplay, hnew, hspends⟩ := h.play.spendCoins hl htw.shown hspend hwritten
  have hall := forall₂_of_mapM hcoins
  have hlength : tw.1.outputs.length = coins.length := by simpa using hall.length_eq
  have hspec : ∀ i (ho : i < tw.1.outputs.length) (hc : i < coins.length),
      coins[i].coinID = calculateCoinID C base i ∧ coins[i].amount = tw.1.outputs[i].amount ∧
        (Written coins[i] → coins[i].Wire) := by
    intro i ho hc
    have hmade := hall.get (by simpa using ho) hc
    simp only [List.get_eq_getElem, List.getElem_zipIdx, Nat.zero_add] at hmade
    exact correctCoin_spec htw.wire (htw.wire.outputs _ (List.getElem_mem ho)) hmade
  have hids : ∀ i c, (coins.map Coin.face)[i]? = some c → c.coinID = calculateCoinID C base i := by
    intro i c hc
    rw [List.getElem?_map, Option.map_eq_some_iff] at hc
    obtain ⟨c', hc', rfl⟩ := hc
    obtain ⟨hi, rfl⟩ := List.getElem?_eq_some_iff.mp hc'
    rw [Coin.face_coinID, (hspec i (hlength ▸ hi) hi).1]
  refine ⟨⟨ks, coins.map Coin.face⟩, ⟨?_, ?_, ?_⟩, hspends, ?_, ?_, ?_⟩
  · rw [spends_concat]
    exact ⟨hplay.played, hplay.time, hplay.spent⟩
  · rw [creates_concat, List.map_append, hnew, h.creates]
  · intro c hc
    rcases List.mem_append.mp hc with hc | hc
    · exact h.wire c (hnew ▸ hc)
    · obtain ⟨i, hi, rfl⟩ := List.getElem_of_mem hc
      obtain ⟨-, hamount, hwire⟩ := hspec i (hlength ▸ hi) hi
      refine ⟨?_, hwire⟩
      rw [Coin.value, hamount]
      exact htw.worth _ (List.getElem_mem (hlength ▸ hi))
  · rw [List.forall₂_map_right_iff, List.forall₂_iff_get]
    refine ⟨hlength, fun i ho hc => ?_⟩
    exact congrArg (fun a : StoredNumber => a.val.toRat) (hspec i ho hc).2.1
  · intro hT cp hcp i c hc
    -- the id is derived from the first coin, since this is not the first block
    obtain ⟨rest, hcoinProofs⟩ := List.head?_eq_some_iff.mp hcp
    have htime := hplay.time
    rw [hcoinProofs, baseCoinID, htime, hT] at hbase
    rw [hids i c hc]
    exact congrArg (calculateCoinID C · i) (Except.ok.inj hbase).symm
  · intro hT i c hc
    rw [hids i c hc]
    refine congrArg (calculateCoinID C · i) ?_
    have htime := hplay.time
    cases hcoinProofs : tw.2.coinProofs with
    | nil =>
      rw [hcoinProofs] at hbase
      exact (Except.ok.inj hbase).symm
    | cons cp rest =>
      rw [hcoinProofs, htime] at hbase
      unfold baseCoinID at hbase
      simp only [hT, if_true] at hbase
      exact (Except.ok.inj hbase).symm

/-- **All transactions of a block**, one after the other. -/
theorem Made.calculate (hl : Coin.Holds C l P) {block : StoredNumber}
    {tws : List (Transaction × Witness)} : ∀ {parts : List (Transfer Coin)} {s s' : Making},
      Made C P older l T parts s → (∀ tw ∈ tws, Ready C P older l tw) →
      tws.foldlM (calculatePair C ⟨(P :: older).map Snapshot.mmr, none⟩ block) s = .ok s' →
      (∀ p ∈ s'.spentCoins, Written p.coin) →
      ∃ parts', Made C P older l T (parts ++ parts') s' ∧ List.Forall₂ (OfTransaction C T l) tws parts' := by
  induction tws with
  | nil =>
    intro parts s s' h _ hs _
    obtain rfl := Except.ok.inj (show Except.ok s = .ok s' from hs)
    exact ⟨[], by rwa [List.append_nil], .nil⟩
  | cons tw tws ih =>
    intro parts s s' h htws hs hwritten
    rw [List.foldlM_cons] at hs
    obtain ⟨s₁, hs₁, hrest⟩ := Result.bind_eq_ok.mp hs
    have hsub : s₁.spentCoins <+: s'.spentCoins := calculatePairs_extends hrest
    obtain ⟨p, hmade, hp⟩ := h.calculateTransaction hl (htws tw List.mem_cons_self) hs₁
      fun q hq => hwritten q (hsub.subset hq)
    obtain ⟨parts', hmade', hparts⟩ := ih hmade (fun tw' h' => htws tw' (List.mem_cons_of_mem _ h')) hrest
      hwritten
    refine ⟨p :: parts', ?_, .cons hp hparts⟩
    rwa [List.append_assoc] at hmade'

end Made

/-! ## The constructor -/

/-- The transactions of a `TxPoW` with their witnesses. -/
def pairsOf (t : TxPoW) : List (Transaction × Witness) :=
  match t.body with
  | some b => [(b.transaction, b.witness), (b.burnTransaction, b.burnWitness)]
  | none => []

/-- The transactions that a block lists, in its order; one id stands for one `TxPoW`. -/
structure Lists (t : TxPoW) (txns : List TxPoW) : Prop where
  ids : t.getBlockTransactions = txns.map TxPoW.txPoWID
  same : ∀ a ∈ txns, ∀ b ∈ txns, a.txPoWID = b.txPoWID → a = b

theorem calculateCoins_eq {A : Ancestry} {block : StoredNumber} {s s' : Making} {t : TxPoW}
    (h : calculateCoins C A block s t = .ok s') : (pairsOf t).foldlM (calculatePair C A block) s = .ok s' := by
  unfold calculateCoins TxPoW.getTxBody at h
  unfold pairsOf
  cases hbody : t.body with
  | none =>
    rw [hbody] at h
    cases h
  | some b =>
    rw [hbody] at h
    simp only [Result.ok_bind] at h
    obtain ⟨s₁, hs₁, hs'⟩ := Result.bind_eq_ok.mp h
    simp only [List.foldlM_cons, List.foldlM_nil, calculatePair, hs₁, hs', Result.ok_bind]
    rfl

/-- What is found under the id of a listed `TxPoW`. -/
theorem Lists.find {t txp : TxPoW} {txns : List TxPoW} (h : Lists t txns) (hmem : txp ∈ txns) :
    getTxpoWFromList txp.txPoWID txns = some txp := by
  have hfound : (getTxpoWFromList txp.txPoWID txns).isSome := by
    rw [getTxpoWFromList, List.find?_isSome]
    exact ⟨txp, hmem, (MiniData.isEqual_iff _ _).mpr rfl⟩
  obtain ⟨other, hother⟩ := Option.isSome_iff_exists.mp hfound
  have hid : other.txPoWID = txp.txPoWID := by
    have hequal := List.find?_some (p := fun u : TxPoW => u.txPoWID.isEqual txp.txPoWID) hother
    exact (MiniData.isEqual_iff _ _).mp hequal
  rw [hother, h.same other (List.mem_of_find?_eq_some hother) txp hmem hid]

/-- **The constructor** goes through the transactions of the block and of what it lists. -/
theorem make_eq_ok {weightText : ℕ → Text} {isMega : Bool} {megaMMR : Option MMR} {parent : MMR}
    {older : List MMR} {t : TxPoW} {txns : List TxPoW} (hlists : Lists t txns) {b : TxBlock}
    (h : make C weightText isMega megaMMR parent older t txns = .ok b) :
    ∃ copy m p s, t.deepCopy C weightText = some copy ∧ MMR.childOf C isMega parent = .ok (m, p) ∧
      ((t :: txns).flatMap pairsOf).foldlM (calculatePair C ⟨p :: older, megaMMR⟩ copy.header.blockNumber)
        ⟨m, [], []⟩ = .ok s ∧ b = ⟨copy, parent.getPeaks, s.spentCoins, s.newCoins⟩ := by
  unfold make at h
  cases hcopy : t.deepCopy C weightText with
  | none =>
    rw [hcopy] at h
    cases h
  | some copy =>
    rw [hcopy] at h
    simp only [Result.bind_eq_ok, Result.pure_eq_ok, hlists.ids] at h
    obtain ⟨⟨m, p⟩, hchild, s₁, hown, s, hlisted, rfl⟩ := h
    refine ⟨copy, m, p, s, rfl, hchild, ?_, rfl⟩
    rw [List.flatMap_cons, List.foldlM_append, calculateCoins_eq hown, Result.ok_bind]
    -- the listed ones, each found under its id
    have hrun : ∀ (part : List TxPoW) (s₁ : Making), (∀ txp ∈ part, txp ∈ txns) →
        (part.map TxPoW.txPoWID).foldlM
          (calculateListed C ⟨p :: older, megaMMR⟩ copy.header.blockNumber txns) s₁ = .ok s →
        (part.flatMap pairsOf).foldlM (calculatePair C ⟨p :: older, megaMMR⟩ copy.header.blockNumber) s₁ =
          .ok s := by
      intro part
      induction part with
      | nil => exact fun s₁ _ h => h
      | cons txp part ih =>
        intro s₁ hpart hs
        rw [List.map_cons, List.foldlM_cons] at hs
        obtain ⟨s₂, hs₂, hs⟩ := Result.bind_eq_ok.mp hs
        rw [calculateListed, hlists.find (hpart txp List.mem_cons_self)] at hs₂
        rw [List.flatMap_cons, List.foldlM_append, calculateCoins_eq hs₂, Result.ok_bind]
        exact ih s₂ (fun q hq => hpart q (List.mem_cons_of_mem _ hq)) hs
    exact hrun txns s₁ (fun _ h => h) hlisted

section Make

variable {P : Snapshot (MiniData × ℚ)} {older : List (Snapshot (MiniData × ℚ))} {l : List (Entry Coin)}

/-- **What is made of a block** whose coin proofs have been accepted. -/
theorem make_spec (hchain : MMR.SumChain C (P :: older)) (hfinal : P.mmr.finalized = true)
    (hl : Coin.Holds C l P) {weightText : ℕ → Text} {t : TxPoW} {txns : List TxPoW} (hlists : Lists t txns)
    (hready : ∀ u ∈ t :: txns, ∀ tw ∈ pairsOf u, Ready C P older l tw) {T : MiniNumber}
    (htime : P.mmr.blockTime.add .one = .ok T) {b : TxBlock}
    (h : make C weightText false none P.mmr (older.map Snapshot.mmr) t txns = .ok b)
    (hwritten : ∀ p ∈ b.spentCoins, Written p.coin) :
    ∃ parts s, Made C P older l T parts s ∧
      List.Forall₂ (OfTransaction C T l) ((t :: txns).flatMap pairsOf) parts ∧
      t.deepCopy C weightText = some b.txpow ∧ b.previousPeaks = P.mmr.getPeaks ∧
      b.spentCoins = s.spentCoins ∧ b.newCoins = s.newCoins := by
  obtain ⟨copy, m, p, s, hcopy, hchild, hrun, rfl⟩ := make_eq_ok hlists h
  obtain ⟨rfl, hplayed, hblock⟩ := MMR.played_childOf MMRData.content_clone hchain hfinal hchild
  have hmT : m.blockTime = T := Except.ok.inj (hblock.symm.trans htime)
  have hstart : Made C P older l T [] ⟨m, [], []⟩ :=
    ⟨⟨⟨P.label, hplayed⟩, hmT, trivial⟩, rfl, by simp⟩
  obtain ⟨parts, hmade, hparts⟩ := hstart.calculate hl
    (fun tw htw => by
      obtain ⟨u, hu, htw⟩ := List.mem_flatMap.mp htw
      exact hready u hu tw htw) hrun hwritten
  exact ⟨parts, s, hmade, hparts, hcopy, rfl, rfl, rfl⟩

end Make

end TxBlock

end Minima
