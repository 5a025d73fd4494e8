import Minima.Brains.Genesis

/-! # What cannot happen on a branch

The checks of a block, its making and its MMR, over any number of blocks that are added to a branch: no
coin is spent that was not made before, none is spent twice, no two coins have one id, no value comes from
nowhere, and no coin is spent without its script.

* **`Branch.spends_once`** — each coin is made before it is spent, and spent once.
* **`Branch.ids_nodup`** — each coin has its own id.
* **`Branch.supply`** — the root of the MMR says what the unspent coins are worth, never more than a billion.
* **`Branch.ledger_unique`** — two branches whose MMRs have one root have one ledger.
* **`Branch.spends_ran`** — the script of each spent coin ran.
* **`Branch.accepted_unspent`** — an accepted coin proof is for a coin that is not spent. -/

namespace Minima

open MountainRange SpendLedger TxBlock TxPoWChecker TxPoWGenerator

namespace Branch

variable {C : Crypto} {parse : Contract.Parser} {weightText : ℕ → Text} {par : SpeedParams} {sort : TimeSort}
  {start : List (Entry Coin)} {n : TreeNode} {m : MMR} {ms : List MMR} {history : List Added}

/-- The coins that a branch has had after some blocks, as they were made. -/
def everMade (start : List (Entry Coin)) (history : List Added) : List Coin :=
  start.map Entry.item ++ history.flatMap fun a => a.txBlock.newCoins.map Coin.face

/-- The entry numbers of the coins that were spent. -/
def everSpent (history : List Added) : List MMREntryNumber :=
  history.flatMap fun a => a.txBlock.spentCoins.map fun p => p.coin.mmrEntryNumber

theorem everMade_concat (start : List (Entry Coin)) (history : List Added) (a : Added) :
    everMade start (history ++ [a]) = everMade start history ++ a.txBlock.newCoins.map Coin.face := by
  simp [everMade]

/-- The ledger lists the coins that were made. -/
theorem exists_keeps (hC : Function.Injective C.hashData)
    (h : Branch C parse weightText par sort (Begins C start) n m ms history) :
    ∃ s older l blocks, s.mmr = m ∧ older.map Snapshot.mmr = ms ∧
      Keeps C start n s older l blocks history ∧ l.map Entry.item = everMade start history := by
  refine h.exists_keeps_and hC (Q := fun l history => l.map Entry.item = everMade start history) ?_ ?_
  · simp [everMade]
  · intro n s older l blocks history a parts _ htransfers hitems
    have hmap := map_apply l parts fun c => c
    simp only [List.map_id'] at hmap
    rw [everMade_concat, ← hitems, htransfers.created]
    exact hmap

/-- The numbers of the spent entries. -/
theorem everSpent_eq {blocks : List (List (Transfer Coin))} (h : List.Forall₂ Records history blocks) :
    everSpent history = (blocks.flatMap spends).map MMREntryNumber.ofNat := by
  induction h with
  | nil => rfl
  | @cons a parts history blocks ha _ ih =>
    rw [everSpent, List.flatMap_cons, ← everSpent, ih, List.flatMap_cons, List.map_append]
    congr 1
    have hmap : List.Forall₂ Eq ((spends parts).map MMREntryNumber.ofNat)
        (a.txBlock.spentCoins.map fun p => p.coin.mmrEntryNumber) := by
      rw [List.forall₂_map_left_iff, List.forall₂_map_right_iff]
      exact ha.spends.imp fun _ _ hk => hk.symm
    rw [List.forall₂_eq_eq_eq] at hmap
    exact hmap.symm

theorem ofNat_injective : Function.Injective MMREntryNumber.ofNat := by
  intro a b h
  exact Int.ofNat.inj (congrArg MMREntryNumber.unscaled h)

/-! ## Ids -/

/-- Arguments of `calculateCoinID` that an encoding tells apart. -/
def GoodBase (base : MiniData) (i : ℕ) : Prop := base.getLength ≤ MiniData.maxHashLength ∧ i < 2 ^ 31

theorem calculateCoinID_eq (base : MiniData) (i : ℕ) : calculateCoinID C base i =
    ⟨C.hashData (base.writeDataStream ++ (MiniNumber.ofInt i).writeDataStream)⟩ := by
  have hall := C.hashAllObjects_ok [base.writeDataStream, (MiniNumber.ofInt i).writeDataStream]
  simpa [calculateCoinID, Crypto.hashObjects] using hall

/-- The coin ids of the first block are derived from the id of its transaction, the hash of one. -/
def TransactionID (C : Crypto) (id : MiniData) : Prop :=
  ∃ (t : Transaction) (bytes : List Byte), t.writeDataStream = .ok bytes ∧ id = ⟨C.hashData bytes⟩

/-- A transaction is not written like what a coin id is the hash of. -/
theorem writeDataStream_ne {t : Transaction} {bytes : List Byte} (h : t.writeDataStream = .ok bytes)
    {base : MiniData} (hbase : base.getLength ≤ MiniData.maxHashLength) (rest : List Byte) :
    base.writeDataStream ++ rest ≠ bytes := by
  intro heq
  unfold Transaction.writeDataStream at h
  simp only [Result.bind_eq_ok, Result.pure_eq_ok] at h
  obtain ⟨_, -, _, -, _, -, _, -, h⟩ := h
  -- the second byte counts the bytes of the number of inputs there, and is part of a short length here
  have hsecond : bytes[1]? = some (MiniNumber.int8Byte
      (MiniNumber.toTwosComplementBytes t.inputs.length).length) := by
    rw [← h]
    rfl
  have hsecond' : bytes[1]? = some (UInt8.ofNat (base.bytes.length / 2 ^ 16)) := by
    rw [← heq]
    rfl
  have hbyte := Option.some.inj (hsecond.symm.trans hsecond')
  have hcount := MiniNumber.length_toTwosComplementBytes_le (v := t.inputs.length) (by
    have hinputs := t.inputs_length
    rw [Nat.abs_cast, MiniNumber.maxDigits]
    norm_num
    omega)
  have hpos : MiniNumber.toTwosComplementBytes t.inputs.length ≠ [] := by
    intro hnil
    have hvalue := MiniNumber.ofSigned_toTwosComplementBytes t.inputs.length
    rw [hnil] at hvalue
    have hzero : (t.inputs.length : ℤ) = 0 := hvalue.symm
    rw [hzero] at hnil
    cases hnil
  have hlen := List.length_pos_iff.mpr hpos
  have hshort : base.bytes.length / 2 ^ 16 = 0 := by
    have hbase' : base.bytes.length ≤ 64 := hbase
    omega
  rw [hshort, MiniNumber.int8Byte, ← UInt8.toNat_inj, UInt8.toNat_ofNat', UInt8.toNat_ofNat'] at hbyte
  omega

/-- **Different arguments give different coin ids,** and none is the id of a transaction. -/
theorem calculateCoinID_tells (hC : Function.Injective C.hashData) :
    Tells (calculateCoinID C) GoodBase (TransactionID C) := by
  refine ⟨?_, fun base i hi ⟨t, bytes, ht, heq⟩ => ?_⟩
  swap
  · rw [calculateCoinID_eq] at heq
    exact writeDataStream_ne ht hi.1 _ (hC (congrArg MiniData.bytes heq))
  intro a i b j hi hj heq
  rw [calculateCoinID_eq, calculateCoinID_eq] at heq
  have hbytes := hC (congrArg MiniData.bytes heq)
  have hshort : MiniData.maxHashLength < 2 ^ 32 := by decide
  obtain ⟨rfl, hnumber⟩ := MiniData.writeDataStream_append_inj (hi.1.trans_lt hshort) (hj.1.trans_lt hshort) hbytes
  have hi' : (MiniNumber.ofInt i).Canonical := MiniNumber.canonical_ofNat (by have := hi.2; omega)
  have hj' : (MiniNumber.ofInt j).Canonical := MiniNumber.canonical_ofNat (by have := hj.2; omega)
  have hsame := congrArg MiniNumber.unscaled (MMR.writeDataStream_inj hi' hj' hnumber)
  exact ⟨rfl, Int.ofNat.inj hsame⟩

/-- The coins that a transaction creates have ids derived from that of the first coin that it spends. -/
theorem derived_of_transaction {T : MiniNumber} (hT : T.isEqual .one = false) {l : List (Entry Coin)}
    {tw : Transaction × Witness} {p : Transfer Coin} (h : OfTransaction C T l tw p) (htw : tw.1.isEmpty = true ∨ Backed tw)
    (hl : ∀ e ∈ l, e.item.coinID.getLength ≤ MiniData.maxHashLength) :
    Derived Coin.coinID (calculateCoinID C) GoodBase l p := by
  intro hne
  rcases htw with hempty | hbacked
  · -- nothing is created without a transaction
    rw [Transaction.isEmpty, Bool.and_eq_true] at hempty
    have hlen := h.values.length_eq
    rw [List.isEmpty_iff.mp hempty.2] at hlen
    exact absurd (List.eq_nil_of_length_eq_zero hlen.symm) hne
  · have hlen := hbacked.inputs.length_eq
    have hspends := h.spends
    cases hcoinProofs : tw.2.coinProofs with
    | nil =>
      rw [hcoinProofs] at hlen
      exact absurd (List.eq_nil_of_length_eq_zero hlen) hbacked.valid.nonempty
    | cons q coinProofs =>
      rw [hcoinProofs] at hspends
      cases hks : p.spends with
      | nil =>
        rw [hks] at hspends
        cases hspends
      | cons k ks =>
        rw [hks] at hspends
        obtain ⟨⟨cp, rfl, hget⟩, -⟩ := List.forall₂_cons.mp hspends
        refine ⟨k, cp.coin.face, by simp, ⟨_, hget⟩, fun i c hc => ⟨⟨?_, ?_⟩, ?_⟩⟩
        · exact hl _ (List.mem_of_getElem? hget)
        · obtain ⟨hi, -⟩ := List.getElem?_eq_some_iff.mp hc
          rw [← h.values.length_eq] at hi
          exact hi.trans tw.1.outputs_length
        · exact h.ids hT cp (by simp [hcoinProofs]) i c hc

/-- The ids in the ledger are hashes. -/
theorem ids_short {s : Snapshot (MiniData × ℚ)} {older : List (Snapshot (MiniData × ℚ))}
    {l : List (Entry Coin)} {blocks : List (List (Transfer Coin))}
    (h : Keeps C start n s older l blocks history) :
    ∀ e ∈ l, e.item.coinID.getLength ≤ MiniData.maxHashLength := by
  intro e he
  obtain ⟨k, hk, rfl⟩ := List.getElem_of_mem he
  obtain ⟨c, hc, hface, -, -⟩ := h.holds.leaf k _ (List.getElem?_eq_getElem hk)
  rw [← hface]
  exact hc.wire.coinID

/-- The coin ids that a branch has had. -/
def everNamed (start : List (Entry Coin)) (history : List Added) : List MiniData :=
  (start.map fun e => e.item.coinID) ++ history.flatMap fun a => a.txBlock.newCoins.map Coin.coinID

/-- What the ledger says about ids and spent coins. -/
structure Named (C : Crypto) (start l : List (Entry Coin)) (history : List Added) : Prop where
  distinct : Distinct Coin.coinID (calculateCoinID C) GoodBase (TransactionID C) l
  ids : (l.map fun e => e.item.coinID) = everNamed start history
  spent : ∀ p ∈ history.flatMap fun a => a.txBlock.spentCoins, ∃ k b, p.coin.mmrEntryNumber = .ofNat k ∧
    l[k]? = some ⟨p.coin.face, b⟩

/-- **One block** keeps this. -/
theorem Named.add (hC : Function.Injective C.hashData) {s : Snapshot (MiniData × ℚ)}
    {older : List (Snapshot (MiniData × ℚ))} {l : List (Entry Coin)} {blocks : List (List (Transfer Coin))}
    (hkeeps : Keeps C start n s older l blocks history) {a : Added} {parts : List (Transfer Coin)}
    (htransfers : Transfers C l a parts) (h : Named C start l history) :
    Named C start (apply l parts) (history ++ [a]) := by
  refine ⟨?_, ?_, ?_⟩
  · refine h.distinct.block (calculateCoinID_tells hC) htransfers.valid fun p hp => ?_
    obtain ⟨T, hT, htransactions⟩ := htransfers.transactions
    obtain ⟨tw, htw, hof⟩ := MMR.forall₂_mem_right htransactions hp
    exact derived_of_transaction hT hof (htransfers.backed tw htw) (ids_short hkeeps)
  · rw [map_apply l parts Coin.coinID, h.ids, everNamed, everNamed, ← htransfers.created, List.map_map,
      List.append_assoc]
    simp [Function.comp_def]
  · intro p hp
    rw [List.flatMap_append, List.flatMap_singleton, List.mem_append] at hp
    obtain ⟨k, b, hnumber, hget⟩ : ∃ k b, p.coin.mmrEntryNumber = .ofNat k ∧
        l[k]? = some ⟨p.coin.face, b⟩ := by
      rcases hp with hp | hp
      · exact h.spent p hp
      · obtain ⟨k, -, hnumber, hget, -⟩ := MMR.forall₂_mem_right htransfers.spent hp
        exact ⟨k, false, hnumber, hget⟩
    obtain ⟨hk, -⟩ := List.getElem?_eq_some_iff.mp hget
    refine ⟨k, b || decide (k ∈ SpendLedger.spends parts), hnumber, ?_⟩
    rw [getElem?_apply_of_lt hk, hget]
    rfl

/-- The ids of the first ledger differ, unless some hash is the id of the genesis coin. -/
theorem distinct_genesisLedger (hC : Function.Injective C.hashData)
    (hid : ∀ bytes, C.hashData bytes ≠ Main.GENESIS_COINID.bytes) {gencoin output : Coin}
    (hcoin : Main.genesisCoin C = .ok gencoin) {t : Transaction} {bytes : List Byte} (ht : t.writeDataStream = .ok bytes)
    (hlen : (C.hashData bytes).length ≤ MiniData.maxHashLength)
    (houtput : output.coinID = calculateCoinID C (t.calculateTransactionID C) 0) :
    Distinct Coin.coinID (calculateCoinID C) GoodBase (TransactionID C)
      (Main.genesisLedger gencoin output) := by
  have hbase : t.calculateTransactionID C = ⟨C.hashData bytes⟩ := by
    rw [Transaction.calculateTransactionID, ht]
    exact Crypto.hashObject_ok C bytes
  have hgood : GoodBase (t.calculateTransactionID C) 0 := ⟨hbase ▸ hlen, by norm_num⟩
  obtain ⟨hinjective, hnotRoot⟩ := calculateCoinID_tells hC
  have hgencoin : ∀ bytes, gencoin.coinID ≠ ⟨C.hashData bytes⟩ := by
    obtain ⟨trueAddress, rfl⟩ := Main.genesisCoin_eq hcoin
    exact fun bytes heq => hid bytes (congrArg MiniData.bytes heq).symm
  refine ⟨?_, ?_, ?_⟩
  · rw [Main.genesisLedger, List.map_cons, List.map_singleton, List.nodup_cons, List.mem_singleton]
    refine ⟨fun heq => ?_, List.nodup_singleton _⟩
    rw [Coin.face_coinID, houtput, calculateCoinID_eq] at heq
    exact hgencoin _ heq
  · simp only [Main.genesisLedger, List.forall_mem_cons, List.not_mem_nil, false_implies, implies_true, and_true]
    refine ⟨?_, houtput ▸ hnotRoot _ _ hgood⟩
    rintro ⟨_, bytes', -, heq⟩
    exact hgencoin bytes' heq
  · simp only [Main.genesisLedger, List.forall_mem_cons, List.not_mem_nil, false_implies, implies_true, and_true]
    refine ⟨fun i j _ heq => ?_, fun i j hij heq => Or.inl ?_⟩
    · rw [Coin.face_coinID, calculateCoinID_eq] at heq
      exact absurd heq (hgencoin _)
    · rw [houtput] at heq
      exact ⟨t, bytes, ht, (hinjective _ _ _ _ hgood hij heq).1 ▸ hbase⟩

/-! ## A branch to look at -/

section Sample

open Main.Sample

theorem hashing_ne (bytes : List Byte) : hashing.hashData bytes ≠ Main.GENESIS_COINID.bytes := by
  intro h
  have hhead := congrArg List.head? h
  simp only [hashing, hashWith] at hhead
  split at hhead
  · exact absurd (Option.some.inj hhead) (by decide)
  · exact absurd (Option.some.inj hhead) (by decide)

/-- A branch to look at: the first block, and one that spends its coin. -/
theorem exists_sample : ∃ (start : List (Entry Coin)) (n₀ n : TreeNode) (m₀ m : MMR) (a : Added), start ≠ [] ∧
    Distinct Coin.coinID (calculateCoinID hashing) GoodBase (TransactionID hashing) start ∧
      Begins hashing start n₀ m₀ ∧ InMMR hashing m₀ ⟨[], none⟩ (some secondProof) ∧
        a.txBlock.spentCoins.length = 1 ∧
          Branch hashing scriptParser oneWeight .global insertionByTime (Begins hashing start) n m [m₀] [a] := by
  obtain ⟨n₀, n, g, m₀, m, a, hg, hshortg, hgenesis, hshort, h, ha, hproof⟩ := exists_branch
  obtain ⟨gencoin, output, hbegins, hcoin, -, hid⟩ := Main.begins_of_doGenesis hgenesis hg hshortg hshort
  refine ⟨Main.genesisLedger gencoin output, n₀, n, m₀, m, a, by simp [Main.genesisLedger], ?_, hbegins, hproof, ha,
    h.mono ?_⟩
  · obtain ⟨hsample, hwrite, hshort⟩ := transactionID_short
    obtain rfl := Except.ok.inj (hsample.symm.trans hcoin)
    exact distinct_genesisLedger hashing_injective hashing_ne hcoin hwrite hshort hid
  · rintro _ _ ⟨rfl, rfl⟩
    exact hbegins

end Sample

/-! ## Coins that are spent -/

/-- **Each coin is made before it is spent, and spent once:** no entry number is spent twice, and the coin
that a block spends has the id, the address, the amount and the token of one that the branch began with or
that an earlier block made. -/
theorem spends_once (hC : Function.Injective C.hashData)
    (h : Branch C parse weightText par sort (Begins C start) n m ms history) :
    (everSpent history).Nodup ∧ ∀ before a after, history = before ++ a :: after →
      ∀ p ∈ a.txBlock.spentCoins, p.coin.face ∈ everMade start before := by
  obtain ⟨s, older, l, blocks, -, -, hkeeps, hitems, hmade⟩ := h.exists_keeps_and hC
    (Q := fun l history => l.map Entry.item = everMade start history ∧ ∀ before a after,
      history = before ++ a :: after → ∀ p ∈ a.txBlock.spentCoins, p.coin.face ∈ everMade start before)
    ⟨by simp [everMade], by simp⟩ (by
      rintro n s older l blocks history a parts - htransfers ⟨hitems, hmade⟩
      refine ⟨?_, ?_⟩
      · have hmap := map_apply l parts fun c => c
        simp only [List.map_id'] at hmap
        rw [everMade_concat, ← hitems, htransfers.created]
        exact hmap
      · intro before x after hsplit p hp
        rcases List.eq_nil_or_concat after with rfl | ⟨after', last, rfl⟩
        · -- the block that was added last
          obtain ⟨rfl, hx⟩ := List.append_inj' hsplit rfl
          obtain rfl : a = x := by simpa using hx
          obtain ⟨k, -, -, hget, -⟩ := MMR.forall₂_mem_right htransfers.spent hp
          rw [← hitems]
          exact List.mem_map.mpr ⟨_, List.mem_of_getElem? hget, rfl⟩
        · rw [List.concat_eq_append, ← List.cons_append, ← List.append_assoc] at hsplit
          obtain ⟨hhistory, -⟩ := List.append_inj' hsplit rfl
          exact hmade before x after' hhistory p hp)
  refine ⟨?_, hmade⟩
  rw [everSpent_eq hkeeps.records]
  exact hkeeps.run.nodup.1.map ofNat_injective

open Main.Sample in
/-- A billion is spent after it was made. -/
theorem spends_once_sample : ∃ (start : List (Entry Coin)) (n : TreeNode) (m : MMR) (ms : List MMR) (a : Added),
    Branch hashing scriptParser oneWeight .global insertionByTime (Begins hashing start) n m ms [a] ∧
      a.txBlock.spentCoins.length = 1 ∧ (everSpent [a]).Nodup ∧
        ∀ before x after, [a] = before ++ x :: after →
          ∀ p ∈ x.txBlock.spentCoins, p.coin.face ∈ everMade start before := by
  obtain ⟨start, n₀, n, m₀, m, a, -, -, -, -, ha, h⟩ := exists_sample
  exact ⟨start, n, m, [m₀], a, h, ha, spends_once hashing_injective h⟩

/-! ## Ids that differ -/

/-- **Each coin has its own id,** when this is so at the start and no id there is derived from a coin that is
still unspent; and so no coin id is spent twice. -/
theorem ids_nodup (hC : Function.Injective C.hashData)
    (hstart : Distinct Coin.coinID (calculateCoinID C) GoodBase (TransactionID C) start)
    (h : Branch C parse weightText par sort (Begins C start) n m ms history) :
    (everNamed start history).Nodup ∧
      (history.flatMap fun a => a.txBlock.spentCoins.map fun p => p.coin.coinID).Nodup := by
  obtain ⟨s, older, l, blocks, -, -, hkeeps, hnamed⟩ := h.exists_keeps_and hC (Q := Named C start)
    ⟨hstart, by simp [everNamed], by simp⟩ fun _ _ _ _ _ _ _ _ hkeeps htransfers hnamed =>
      Named.add hC hkeeps htransfers hnamed
  refine ⟨hnamed.ids ▸ hnamed.distinct.nodup, ?_⟩
  -- two spent coins with one id have one entry number
  have hnumbers : ((history.flatMap fun a => a.txBlock.spentCoins).map fun p => p.coin.mmrEntryNumber).Nodup := by
    rw [List.map_flatMap]
    have hspent := everSpent_eq hkeeps.records
    rw [everSpent] at hspent
    rw [hspent]
    exact hkeeps.run.nodup.1.map ofNat_injective
  rw [← List.map_flatMap]
  rw [List.Nodup, List.pairwise_map] at hnumbers ⊢
  refine hnumbers.imp_of_mem fun {p q} hp hq hne heq => hne ?_
  obtain ⟨i, b, hi, hgeti⟩ := hnamed.spent p hp
  obtain ⟨j, b', hj, hgetj⟩ := hnamed.spent q hq
  rw [hi, hj, hnamed.distinct.place hgeti hgetj heq]

open Main.Sample in
theorem ids_nodup_sample : ∃ (start : List (Entry Coin)) (n : TreeNode) (m : MMR) (ms : List MMR) (a : Added),
    Branch hashing scriptParser oneWeight .global insertionByTime (Begins hashing start) n m ms [a] ∧
      (everNamed start [a]).Nodup ∧
        ([a].flatMap fun a => a.txBlock.spentCoins.map fun p => p.coin.coinID).Nodup := by
  obtain ⟨start, n₀, n, m₀, m, a, -, hdistinct, -, -, -, h⟩ := exists_sample
  exact ⟨start, n, m, [m₀], a, h, ids_nodup hashing_injective hdistinct h⟩

/-! ## Value -/

/-- What the coins that the blocks spent were worth. -/
def spentValue (history : List Added) : ℚ :=
  ((history.flatMap fun a => a.txBlock.spentCoins).map fun p => p.coin.value).sum

/-- What the coins that the blocks made are worth. -/
def madeValue (history : List Added) : ℚ := ((history.flatMap fun a => a.txBlock.newCoins).map Coin.value).sum

/-- What the spent coins of a block were worth. -/
theorem sum_spent {l : List (Entry Coin)} {ks : List ℕ} {ps : List CoinProof}
    (h : List.Forall₂ (fun k p => p.coin.mmrEntryNumber = .ofNat k ∧ l[k]? = some ⟨p.coin.face, false⟩ ∧
      p.coin.Wire) ks ps) : (ps.map fun p => p.coin.value).sum = valueAt Coin.value l ks := by
  induction h with
  | nil => rfl
  | @cons k p ks ps hk _ ih =>
    rw [List.map_cons, List.sum_cons, ih]
    unfold valueAt
    rw [List.map_cons, List.sum_cons, hk.2.1]
    rfl

/-- The root of the MMR says what the unspent coins are worth: what the branch began with, less what was
spent, and what was made; and this is never more than at the start. -/
theorem root_value (hC : Function.Injective C.hashData) (hstart : start ≠ [])
    (h : Branch C parse weightText par sort (Begins C start) n m ms history) :
    ∃ root, m.getRoot C = .ok (some root) ∧
      root.value.toRat + spentValue history = total Coin.value start + madeValue history ∧
        root.value.toRat ≤ total Coin.value start := by
  obtain ⟨s, older, l, blocks, rfl, -, hkeeps, hl, htotal⟩ := h.exists_keeps_and hC
    (Q := fun l history => l ≠ [] ∧ total Coin.value l + spentValue history =
      total Coin.value start + madeValue history) ⟨hstart, by simp [spentValue, madeValue]⟩ (by
      rintro n s older l blocks history a parts - htransfers ⟨hl, htotal⟩
      have hspent := sum_spent htransfers.spent
      have hmade : (a.txBlock.newCoins.map Coin.value).sum = ((creates parts).map Coin.value).sum := by
        rw [← htransfers.created, List.map_map]
        rfl
      have happly := apply_total Coin.value htransfers.valid
      have hspentAll : spentValue (history ++ [a]) = spentValue history +
          ((a.txBlock.spentCoins).map fun p => p.coin.value).sum := by simp [spentValue]
      have hmadeAll : madeValue (history ++ [a]) = madeValue history +
          (a.txBlock.newCoins.map Coin.value).sum := by simp [madeValue]
      refine ⟨?_, by linarith⟩
      rw [← List.length_pos_iff] at hl ⊢
      simp only [apply, List.length_append, length_foldl_spend]
      omega)
  have hseal := hkeeps.seals s List.mem_cons_self
  obtain ⟨root, hroot⟩ := hseal.exists_root hkeeps.final (by
    rw [hkeeps.holds.size]
    exact (List.length_pos_iff.mpr hl).ne')
  refine ⟨root, hroot, ?_⟩
  have hsum : ∑ i ∈ Finset.range s.size, (s.label 0 i).2 < 10 ^ 20 :=
    hkeeps.holds.sum_eq_total ▸ hkeeps.worth.trans_lt hkeeps.small
  rw [hseal.root] at hroot
  have hvalue := (hkeeps.chain.1.getPeaks MMRData.content_clone).rootOfPeaks_value hkeeps.chain.1.joined
    hkeeps.holds.leaf_nonneg hsum hroot
  rw [hvalue, hkeeps.holds.sum_eq_total]
  exact ⟨htotal, hkeeps.worth⟩

/-- **There are never more than a billion Minima:** from the first block on, through all blocks, the value in
the root of the MMR is a billion, less what was spent, and what was made; and it never exceeds a billion. -/
theorem supply (hC : Function.Injective C.hashData) {prng address : MiniData} {now : StoredNumber} {n₀ : TreeNode}
    {g m₀ : MMR} (hgenesis : Main.doGenesis C weightText prng now address = .ok (n₀, m₀))
    (hg : Main.genesisMMR C = .ok g) (hshortg : ShortHashes C g) (hshort : ShortHashes C m₀)
    (h : Branch C parse weightText par sort (fun n m => n = n₀ ∧ m = m₀) n m ms history) :
    ∃ root, m.getRoot C = .ok (some root) ∧
      root.value.toRat + spentValue history = 10 ^ 9 + madeValue history ∧
        root.value.toRat ≤ 10 ^ 9 := by
  obtain ⟨gencoin, output, hbegins, -, hvalue, -⟩ := Main.begins_of_doGenesis hgenesis hg hshortg hshort
  have hfirst : ∀ n m, n = n₀ ∧ m = m₀ → Begins C (Main.genesisLedger gencoin output) n m := by
    rintro _ _ ⟨rfl, rfl⟩
    exact hbegins
  have hledger := (h.mono hfirst).root_value hC (by simp [Main.genesisLedger])
  rwa [Main.total_genesisLedger, hvalue] at hledger

open Main.Sample in
theorem supply_sample : ∃ (m : MMR) (a : Added), a.txBlock.spentCoins.length = 1 ∧
    ∃ root, m.getRoot hashing = .ok (some root) ∧
      root.value.toRat + spentValue [a] = 10 ^ 9 + madeValue [a] ∧ root.value.toRat ≤ 10 ^ 9 := by
  obtain ⟨n₀, n, g, m₀, m, a, hg, hshortg, hgenesis, hshort, h, ha, -⟩ := exists_branch
  exact ⟨m, a, ha, supply hashing_injective hgenesis hg hshortg hshort h⟩

/-! ## The root -/

/-- **The ledger of a branch:** the coins that it has had, and which of them are spent. -/
def ledger (start : List (Entry Coin)) (history : List Added) : List (Entry Coin) :=
  (everMade start history).mapIdx fun k c =>
    ⟨c, (start[k]?.map Entry.spent).getD false || decide (MMREntryNumber.ofNat k ∈ everSpent history)⟩

/-- What holds of a branch holds of its ledger. -/
theorem ledger_of_keeps {s : Snapshot (MiniData × ℚ)} {older : List (Snapshot (MiniData × ℚ))}
    {l : List (Entry Coin)} {blocks : List (List (Transfer Coin))} (h : Keeps C start n s older l blocks history)
    (hitems : l.map Entry.item = everMade start history) : ledger start history = l := by
  refine List.ext_getElem (by simp [ledger, ← hitems]) fun k hk hk' => ?_
  have hspent := h.run.entry (List.getElem?_eq_getElem hk')
  have hiff : MMREntryNumber.ofNat k ∈ everSpent history ↔ k ∈ blocks.flatMap spends := by
    rw [everSpent_eq h.records]
    exact List.mem_map_of_injective ofNat_injective
  have hitem : (everMade start history)[k]? = some l[k].item := by
    rw [← hitems, List.getElem?_map, List.getElem?_eq_getElem hk']
    rfl
  obtain ⟨_, hget⟩ := List.getElem?_eq_some_iff.mp hitem
  simp only [ledger, List.getElem_mapIdx, hget, hiff]
  rw [← hspent]

/-- **Where a branch stands another one can begin**, with the ledger that it has. -/
theorem begins_ledger (hC : Function.Injective C.hashData)
    (h : Branch C parse weightText par sort (Begins C start) n m ms history) :
    Begins C (ledger start history) n m := by
  obtain ⟨s, older, l, blocks, rfl, -, hkeeps, hitems⟩ := h.exists_keeps hC
  rw [ledger_of_keeps hkeeps hitems]
  exact ⟨s, rfl, hkeeps.seals s List.mem_cons_self, hkeeps.final, hkeeps.holds, hkeeps.number, hkeeps.late,
    hkeeps.worth.trans_lt hkeeps.small⟩

/-- **The root of the MMR says which coins there are, and which are spent:** two branches with one root, of
whatever nodes and however they came about, have one ledger. -/
theorem ledger_unique (hC : Function.Injective C.hashData)
    (h : Branch C parse weightText par sort (Begins C start) n m ms history) {parse' : Contract.Parser}
    {weightText' : ℕ → Text} {par' : SpeedParams} {sort' : TimeSort} {start' : List (Entry Coin)}
    {n' : TreeNode} {m' : MMR} {ms' : List MMR} {history' : List Added}
    (h' : Branch C parse' weightText' par' sort' (Begins C start') n' m' ms' history') {root root' : MMRData}
    (hroot : m.getRoot C = .ok (some root)) (hroot' : m'.getRoot C = .ok (some root'))
    (hsame : root.data = root'.data) : ledger start history = ledger start' history' := by
  obtain ⟨s, older, l, blocks, rfl, -, hkeeps, hitems⟩ := h.exists_keeps hC
  obtain ⟨s', older', l', blocks', rfl, -, hkeeps', hitems'⟩ := h'.exists_keeps hC
  rw [ledger_of_keeps hkeeps hitems, ledger_of_keeps hkeeps' hitems']
  exact hkeeps.holds.unique hC hkeeps'.holds (hkeeps.seals s List.mem_cons_self)
    (hkeeps'.seals s' List.mem_cons_self) hroot hroot' hsame

open Main.Sample in
theorem ledger_unique_sample : ∃ (start : List (Entry Coin)) (n : TreeNode) (m : MMR) (ms : List MMR) (a : Added)
    (root : MMRData), Branch hashing scriptParser oneWeight .global insertionByTime (Begins hashing start) n m ms [a] ∧
      m.getRoot hashing = .ok (some root) ∧ ledger start [a] = ledger (ledger start [a]) [] := by
  obtain ⟨start, n₀, n, m₀, m, a, hstart, -, -, -, -, h⟩ := exists_sample
  obtain ⟨root, hroot, -⟩ := root_value hashing_injective hstart h
  -- the second branch begins where the first one stands
  have hanew : Branch hashing scriptParser oneWeight .global insertionByTime
      (Begins hashing (ledger start [a])) n m [] [] := .start (h.begins_ledger hashing_injective)
  exact ⟨start, n, m, [m₀], a, root, h, hroot, ledger_unique hashing_injective h hanew hroot hroot rfl⟩

/-! ## Scripts -/

/-- **The script of each spent coin ran:** a coin that a block spends is that of a coin proof of one of the
block's transactions; and unless this transaction is empty, the coin proof backs an input of it, which may
leave its id open, and the script behind the address of the coin returned `TRUE` for this input, in the
context of the block or of one in which the scripts had been checked before. -/
theorem spends_ran {first : TreeNode → MMR → Prop}
    (h : Branch C parse weightText par sort first n m ms history) : ∀ a ∈ history, ∀ p ∈ a.txBlock.spentCoins,
      ∃ j u, (a.block :: a.txns)[j]? = some u ∧ ∃ tw ∈ pairsOf u, ∃ (i : ℕ) (cp : CoinProof),
        tw.2.coinProofs[i]? = some (some cp) ∧ p.coin = cp.coin ∧
          (tw.1.isEmpty = false → (∃ input, tw.1.inputs[i]? = some input ∧ Backs input (some cp)) ∧
            ∃ x ∈ a.checked j ++ [a.block], Ran C parse x tw i cp) := by
  induction h with
  | start _ => simp
  | trim d _ ih => exact ih
  | @add n m m' older history cascade flags checked t txns b coins _ accepts made _ _ ih =>
    intro a ha p hp
    rcases List.mem_append.mp ha with ha | ha
    · exact ih a ha p hp
    obtain rfl := List.mem_singleton.mp ha
    obtain ⟨copy, m₀, p₀, s, -, -, hrun, rfl⟩ := make_eq_ok accepts.lists made
    rcases calculatePairs_spent hrun p hp with hnone | ⟨tw, htw, i, cp, hcp, hcoin⟩
    · cases hnone
    obtain ⟨u, hu, htw⟩ := List.mem_flatMap.mp htw
    obtain ⟨j, hj⟩ := List.mem_iff_getElem?.mp hu
    refine ⟨j, u, hj, tw, htw, i, cp, hcp, hcoin, fun hempty => ⟨?_, accepts.ran hj htw hcp hempty⟩⟩
    rcases checkTxPoWBasic_spec (accepts.basic u hu) tw htw with h | hbacked
    · rw [hempty] at h
      cases h
    · exact hbacked.input hcp

open Main.Sample in
theorem spends_ran_sample : ∃ a : Added, a.txBlock.spentCoins.length = 1 ∧
    ∀ x ∈ [a], ∀ p ∈ x.txBlock.spentCoins, ∃ j u, (x.block :: x.txns)[j]? = some u ∧
      ∃ tw ∈ pairsOf u, ∃ (i : ℕ) (cp : CoinProof), tw.2.coinProofs[i]? = some (some cp) ∧ p.coin = cp.coin ∧
        (tw.1.isEmpty = false → (∃ input, tw.1.inputs[i]? = some input ∧ Backs input (some cp)) ∧
          ∃ y ∈ x.checked j ++ [x.block], Ran hashing scriptParser y tw i cp) := by
  obtain ⟨start, n₀, n, m₀, m, a, -, -, -, -, ha, h⟩ := exists_sample
  exact ⟨a, ha, spends_ran h⟩

/-- **An accepted coin proof is for a coin that is not spent:** the coin was made on the branch, and no block
of the branch has spent its entry. -/
theorem accepted_unspent (hC : Function.Injective C.hashData)
    (h : Branch C parse weightText par sort (Begins C start) n m ms history) {cp : CoinProof}
    (hwire : cp.coin.Wire) (hwritten : Written cp.coin) (haccepted : InMMR C m ⟨ms, none⟩ (some cp)) :
    cp.coin.face ∈ everMade start history ∧ cp.coin.mmrEntryNumber ∉ everSpent history := by
  obtain ⟨s, older, l, blocks, rfl, rfl, hkeeps, hitems⟩ := h.exists_keeps hC
  obtain ⟨cp', d, hcp', hd, hvalid⟩ := haccepted
  obtain rfl := Option.some.inj hcp'
  obtain ⟨bytes, hwrite⟩ := hwritten
  obtain ⟨k, hk⟩ := Coin.accepted_spend hC hkeeps.chain hkeeps.seals hkeeps.coins hkeeps.holds hwire hwrite hd
    hvalid
  refine ⟨?_, ?_⟩
  · rw [← hitems]
    exact List.mem_map.mpr ⟨_, List.mem_of_getElem? hk.unspent, rfl⟩
  · rw [everSpent_eq hkeeps.records, hk.number]
    intro hmem
    obtain ⟨j, hj, heq⟩ := List.mem_map.mp hmem
    obtain rfl := ofNat_injective heq
    obtain ⟨c, hc⟩ := hkeeps.run.nodup.2 _ hj
    rw [hk.unspent] at hc
    cases hc

open Main.Sample in
theorem accepted_unspent_sample : ∃ (start : List (Entry Coin)) (n : TreeNode) (m : MMR),
    Branch hashing scriptParser oneWeight .global insertionByTime (Begins hashing start) n m [] [] ∧
      secondProof.coin.face ∈ everMade start [] ∧ secondProof.coin.mmrEntryNumber ∉ everSpent [] := by
  obtain ⟨start, n₀, n, m₀, m, a, -, -, hbegins, hproof, -, -⟩ := exists_sample
  have hstart : Branch hashing scriptParser oneWeight .global insertionByTime (Begins hashing start) n₀ m₀ [] [] :=
    .start hbegins
  exact ⟨start, n₀, m₀, hstart, accepted_unspent hashing_injective hstart firstCoin_wire ⟨_, rfl⟩ hproof⟩

end Branch

end Minima
