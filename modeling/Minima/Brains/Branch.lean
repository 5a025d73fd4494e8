import Minima.Brains.AcceptedBlock
import Minima.Mmr.RootTotal
import Minima.Objects.BuiltBlock

/-! # The ledger of a branch

A node keeps a tree of blocks, each with its MMR. This file follows one branch of the tree, from the block
that it starts with: a block that the checks accept on the newest one becomes the newest one, and the root
of the tree moves up now and then. The coins of the branch are a ledger.

* **`Branch`** — what a branch goes through. **`Branch.Keeps`** — what holds all along.
* **`Branch.exists_keeps_and`** — it does. -/

namespace Minima

open MountainRange SpendLedger TxBlock TxPoWChecker TxPoWGenerator

/-- A `TxPoW` is copied with its header. -/
theorem TxPoW.deepCopy_header {C : Crypto} {weightText : ℕ → Text} {t copy : TxPoW} (h : t.header.Wire)
    (hcopy : t.deepCopy C weightText = some copy) : copy.header = t.header := by
  unfold deepCopy at hcopy
  cases hwrite : t.writeDataStream with
  | error e =>
    rw [hwrite] at hcopy
    cases hcopy
  | ok bytes =>
    rw [hwrite] at hcopy
    unfold writeDataStream encode at hwrite
    simp only [Result.bind_eq_ok, Result.pure_eq_ok] at hwrite
    obtain ⟨hs, hhs, bs, -, rfl⟩ := hwrite
    obtain ⟨hs', hhs', hread⟩ := TxHeader.transmits h
    obtain rfl := Except.ok.inj (hhs.symm.trans hhs')
    simp only at hcopy
    cases hout : (readDataStream C weightText (hs ++ bs)).1 with
    | error e =>
      rw [hout] at hcopy
      cases hcopy
    | ok copy' =>
      rw [hout] at hcopy
      obtain rfl := Option.some.inj hcopy
      have hall : readDataStream C weightText (hs ++ bs) =
          (.ok copy', (readDataStream C weightText (hs ++ bs)).2) := Prod.ext hout rfl
      rw [readDataStream_eq] at hall
      obtain ⟨header, rest, hheader, hall⟩ := Reader.bind_eq_ok.mp hall
      obtain ⟨body, rest', -, hderived⟩ := Reader.bind_eq_ok.mp hall
      rw [hread bs, Prod.mk.injEq, Except.ok.injEq] at hheader
      rw [hheader.1]
      exact (calculateTXPOWID_eq_ok (Prod.mk.inj hderived).1).1

namespace TxPoWChecker

/-- The checks of the transactions are the last ones of a block. -/
theorem transactions_of_accepted {par : SpeedParams} {s : TimeSort} {cascade : Cascade}
    {transactions : Result Bool} {n : TreeNode} {b : TxPoW}
    (h : checkTxPoWBlock par s cascade transactions n b = .ok true) : transactions = .ok true := by
  rw [checkTxPoWBlock] at h
  obtain ⟨-, h⟩ := passed h
  obtain ⟨number, -, h⟩ := Result.bind_eq_ok.mp h
  obtain ⟨-, h⟩ := passed h
  obtain ⟨-, h⟩ := passed_check h
  obtain ⟨maxtime, -, h⟩ := Result.bind_eq_ok.mp h
  obtain ⟨-, h⟩ := passed h
  obtain ⟨-, h⟩ := passed h
  obtain ⟨d, -, h⟩ := Result.bind_eq_ok.mp h
  obtain ⟨-, h⟩ := passed h
  obtain ⟨newcurrent, -, h⟩ := Result.bind_eq_ok.mp h
  obtain ⟨-, h⟩ := passed h
  exact (passed h).2

end TxPoWChecker

/-! ## Branches -/

/-- A block that was added: as it came, with the `TxPoW`s that it lists, for each of these (itself first) the
blocks in which its scripts had been checked before, and as a `TxBlock`. -/
structure Added where
  block : TxPoW
  txns : List TxPoW
  checked : ℕ → List TxPoW
  txBlock : TxBlock

section Branch

variable (C : Crypto) (parse : Contract.Parser) (weightText : ℕ → Text) (par : SpeedParams) (sort : TimeSort)

/-- **A block that the checks accept** on a node, with the MMR of the node and those before it. The `TxPoW`s
have arrived on a stream; whatever has coin proofs is a transaction; and the flags on the transactions were
left by earlier checks, each in one of the blocks `checked`. -/
structure Accepts (cascade : Cascade) (flags : ℕ → ScriptCache × ScriptCache) (checked : ℕ → List TxPoW)
    (n : TreeNode) (m : MMR) (older : List MMR) (t : TxPoW) (txns : List TxPoW) : Prop where
  wire : ∀ u ∈ t :: txns, u.Wire C weightText
  lists : Lists t txns
  witnessed : ∀ u ∈ t :: txns, Witnessed u
  left : ∀ i u b, (t :: txns)[i]? = some u → u.body = some b → flags i = checkAll C parse b (checked i)
  basic : ∀ u ∈ t :: txns, checkTxPoWBasic C u = .ok true
  block : checkTxPoWBlock par sort cascade
    (checkTransactions C parse weightText false none flags m older t txns) n t = .ok true

/-- The hashes in an MMR and those that its root is made from are short. Every hash that is used is. -/
structure ShortHashes (m : MMR) : Prop where
  entries : ∀ x ∈ m.setEntries, ∀ d ∈ x.mmrData, MMR.Short d.data
  bags : MMR.ShortBags C m.getPeaks.length m.getPeaks

/-- **What a branch goes through:** the newest node, its MMR, those of the nodes before it back to the root
of the tree, and all blocks that were added so far. -/
inductive Branch (first : TreeNode → MMR → Prop) : TreeNode → MMR → List MMR → List Added → Prop
  | start {n : TreeNode} {m : MMR} (h : first n m) : Branch first n m [] []
  | trim {n : TreeNode} {m : MMR} {older : List MMR} {history : List Added} (d : ℕ)
    (h : Branch first n m older history) : Branch first (rootedAt n d) m (older.take d) history
  | add {n : TreeNode} {m m' : MMR} {older : List MMR} {history : List Added} {cascade : Cascade}
    {flags : ℕ → ScriptCache × ScriptCache} {checked : ℕ → List TxPoW} {t : TxPoW} {txns : List TxPoW}
    {b : TxBlock} {coins : List Coin} (h : Branch first n m older history)
    (accepts : Accepts C parse weightText par sort cascade flags checked n m older t txns)
    (made : make C weightText false none m older t txns = .ok b)
    (built : TxPoWTreeNode.constructMMR C b = .ok (m', coins)) (short : ShortHashes C m') :
    Branch first ⟨b.txpow, n.chain⟩ m' (m :: older) (history ++ [⟨t, txns, checked, b⟩])

end Branch

/-! ## One block -/

variable {C : Crypto} {parse : Contract.Parser} {weightText : ℕ → Text} {par : SpeedParams} {sort : TimeSort}

section OneBlock

variable {T : MiniNumber} {l : List (Entry Coin)}

/-- What a transaction spends is what its inputs say. -/
theorem valueAt_eq_total {ks : List ℕ} {inputs : List Coin} {cproofs : List (Option CoinProof)}
    (hspends : Spends l ks cproofs) (hinputs : List.Forall₂ Backs inputs cproofs) :
    valueAt Coin.value l ks = Transaction.total inputs := by
  induction hspends generalizing inputs with
  | nil =>
    cases hinputs
    rfl
  | @cons k p ks cproofs hk _ ih =>
    cases hinputs with
    | @cons input _ inputs _ hinput hrest =>
      obtain ⟨cp, rfl, hget⟩ := hk
      obtain ⟨cp', hcp', hvalue, -⟩ := hinput
      obtain rfl := Option.some.inj hcp'
      have htail := ih hrest
      unfold valueAt at htail ⊢
      rw [List.map_cons, List.sum_cons, htail, hget, Transaction.total_cons, hvalue]
      rfl

theorem sum_creates {outputs creates : List Coin}
    (h : List.Forall₂ (fun o c : Coin => c.value = o.value) outputs creates) :
    (creates.map Coin.value).sum = Transaction.total outputs := by
  induction h with
  | nil => rfl
  | cons hc _ ih => rw [List.map_cons, List.sum_cons, ih, hc, Transaction.total_cons]

theorem valueAt_nonneg (hl : ∀ e ∈ l, 0 ≤ e.item.value) (ks : List ℕ) : 0 ≤ valueAt Coin.value l ks := by
  refine List.sum_nonneg fun x hx => ?_
  obtain ⟨k, -, rfl⟩ := List.mem_map.mp hx
  cases hk : l[k]? with
  | none => exact le_rfl
  | some e => exact hl e (List.mem_of_getElem? hk)

/-- **A transaction creates no more than it spends.** -/
theorem creates_le_spends (hl : ∀ e ∈ l, 0 ≤ e.item.value) {tw : Transaction × Witness} {p : Transfer Coin}
    (h : OfTransaction C T l tw p) (htw : tw.1.isEmpty = true ∨ Backed tw) :
    (p.creates.map Coin.value).sum ≤ valueAt Coin.value l p.spends := by
  rw [sum_creates h.values]
  rcases htw with hempty | hbacked
  · have hnil : tw.1.outputs = [] := by
      rw [Transaction.isEmpty, Bool.and_eq_true] at hempty
      exact List.isEmpty_iff.mp hempty.2
    rw [hnil]
    exact valueAt_nonneg hl _
  · rw [valueAt_eq_total h.spends hbacked.inputs]
    exact hbacked.valid.total_le

/-- **Nor do all transactions of a block.** -/
theorem allCreates_le_spends (hl : ∀ e ∈ l, 0 ≤ e.item.value) {tws : List (Transaction × Witness)}
    {parts : List (Transfer Coin)} (h : List.Forall₂ (OfTransaction C T l) tws parts)
    (htws : ∀ tw ∈ tws, tw.1.isEmpty = true ∨ Backed tw) :
    ((creates parts).map Coin.value).sum ≤ valueAt Coin.value l (spends parts) := by
  induction h with
  | nil => exact le_rfl
  | @cons tw p tws parts hp _ ih =>
    rw [creates, List.flatMap_cons, List.map_append, List.sum_append, spends, List.flatMap_cons,
      valueAt_append]
    exact add_le_add (creates_le_spends hl hp (htws tw List.mem_cons_self))
      (ih fun tw' h' => htws tw' (List.mem_cons_of_mem _ h'))

/-- The coin id at a place of the ledger, as text. -/
def idText (l : List (Entry Coin)) (k : ℕ) : Text := (l[k]?.map fun e => e.item.coinID.to0xString).getD []

theorem idTexts_of_spends {ks : List ℕ} {cproofs : List (Option CoinProof)} (h : Spends l ks cproofs) :
    ks.map (idText l) = cproofs.filterMap fun p => p.map fun cproof => cproof.coin.coinID.to0xString := by
  induction h with
  | nil => rfl
  | cons hk _ ih =>
    obtain ⟨cp, rfl, hget⟩ := hk
    rw [List.map_cons, ih, idText, hget]
    rfl

/-- **A block whose coin ids differ spends different entries.** -/
theorem nodup_spends {tws : List (Transaction × Witness)} {parts : List (Transfer Coin)}
    (h : List.Forall₂ (OfTransaction C T l) tws parts)
    (hids : (tws.flatMap fun tw => witnessCoinIDs tw.2).Nodup) : (spends parts).Nodup := by
  have htexts : (spends parts).map (idText l) = tws.flatMap fun tw => witnessCoinIDs tw.2 := by
    clear hids
    induction h with
    | nil => rfl
    | cons hp _ ih =>
      rw [spends, List.flatMap_cons, List.map_append, idTexts_of_spends hp.spends, List.flatMap_cons, ← ih]
      rfl
  exact List.Nodup.of_map (idText l) (htexts ▸ hids)

/-- What a block spends is unspent. -/
theorem unspent_of_parts {tws : List (Transaction × Witness)} {parts : List (Transfer Coin)}
    (h : List.Forall₂ (OfTransaction C T l) tws parts) : ∀ k ∈ spends parts, ∃ a, l[k]? = some ⟨a, false⟩ := by
  intro k hk
  obtain ⟨p, hp, hk⟩ := List.mem_flatMap.mp hk
  obtain ⟨tw, -, hof⟩ := MMR.forall₂_mem_right h hp
  obtain ⟨q, -, cp, rfl, hget⟩ := MMR.forall₂_mem_left hof.spends hk
  exact ⟨_, hget⟩

end OneBlock

/-- A block spends these entries and creates these coins. -/
structure Records (a : Added) (parts : List (Transfer Coin)) : Prop where
  spends : List.Forall₂ (fun k p => p.coin.mmrEntryNumber = .ofNat k) (spends parts) a.txBlock.spentCoins
  creates : a.txBlock.newCoins.map Coin.face = creates parts

/-- **What holds of a branch** whose coins were `start` at first: its MMRs are a chain that the hashes
determine, their leaves are coins, and those of the newest one are the ledger that the blocks have made. -/
structure Keeps (C : Crypto) (start : List (Entry Coin)) (n : TreeNode) (s : Snapshot (MiniData × ℚ))
    (older : List (Snapshot (MiniData × ℚ))) (l : List (Entry Coin)) (blocks : List (List (Transfer Coin)))
    (history : List Added) : Prop where
  chain : MMR.SumChain C (s :: older)
  seals : ∀ q ∈ s :: older, MMR.Sealed C q
  coins : ∀ q ∈ s :: older, Coin.AllCoins C q
  final : s.mmr.finalized = true
  holds : Coin.Holds C l s
  number : s.mmr.blockTime = n.getBlockNumber
  late : 1 ≤ s.mmr.blockTime.toRat
  run : Run start blocks l
  records : List.Forall₂ Records history blocks
  worth : total Coin.value l ≤ total Coin.value start
  small : total Coin.value start < 10 ^ 20

section Step

variable {start l : List (Entry Coin)} {n : TreeNode} {P : Snapshot (MiniData × ℚ)}
  {older : List (Snapshot (MiniData × ℚ))} {blocks : List (List (Transfer Coin))} {history : List Added}

/-- The entries of the ledger are worth something. -/
theorem Keeps.worth_pos (h : Keeps C start n P older l blocks history) : ∀ e ∈ l, 0 < e.item.value := by
  intro e he
  obtain ⟨k, hk, rfl⟩ := List.getElem_of_mem he
  obtain ⟨c, hc, hface, -, -⟩ := h.holds.leaf k _ (List.getElem?_eq_getElem hk)
  rw [← hface]
  exact hc.worth

/-- The number of the next block. -/
theorem Keeps.next_number (h : Keeps C start n P older l blocks history) {cascade : Cascade}
    {transactions : Result Bool} {t : TxPoW}
    (haccepted : checkTxPoWBlock par sort cascade transactions n t = .ok true) :
    ∃ T, P.mmr.blockTime.add .one = .ok T ∧ t.getBlockNumber.toRat = T.toRat ∧
      P.mmr.blockTime.toRat ≤ T.toRat ∧ T.isEqual .one = false := by
  obtain ⟨T, hT, hnumber⟩ := (meets_of_accepted haccepted).number
  rw [MiniNumber.increment, ← h.number] at hT
  have hnonneg := h.chain.1.time
  have hle := (hnonneg.add_one hT).2
  refine ⟨T, hT, hnumber, hle, ?_⟩
  rw [← Bool.not_eq_true, MiniNumber.isEqual_iff]
  intro hone
  have hone' : T.toRat = 1 := by simpa [MiniNumber.one] using hone
  have hlate := h.late
  have htime : P.mmr.blockTime.toRat = 1 := le_antisymm (hone' ▸ hle) hlate
  have hexact := MiniNumber.add_toRat hnonneg.canonical MiniNumber.canonical_one (by
    rw [htime]
    norm_num [MiniNumber.one]) hT
  rw [hone', htime] at hexact
  norm_num [MiniNumber.one] at hexact

/-- A spent coin of a block that was built can be written. -/
theorem written_of_constructMMR {b : TxBlock} {built : MMR × List Coin}
    (h : TxPoWTreeNode.constructMMR C b = .ok built) : ∀ p ∈ b.spentCoins, Written p.coin := by
  unfold TxPoWTreeNode.constructMMR at h
  simp only [Result.bind_eq_ok] at h
  obtain ⟨_, -, _, -, m, -, s, hs, -⟩ := h
  have hrun : ∀ (inputs : List CoinProof) (s₀ : MMR × List Coin),
      inputs.foldlM (TxPoWTreeNode.spendInput C) s₀ = .ok s → ∀ p ∈ inputs, Written p.coin := by
    intro inputs
    induction inputs with
    | nil => simp
    | cons p inputs ih =>
      intro s₀ hs
      rw [List.foldlM_cons] at hs
      obtain ⟨s₁, hs₁, hrest⟩ := Result.bind_eq_ok.mp hs
      obtain ⟨copy, hcopy, -⟩ := Result.bind_eq_ok.mp hs₁
      rw [List.forall_mem_cons]
      exact ⟨Coin.written_of_deepCopied hcopy, ih s₁ hrest⟩
  exact hrun b.spentCoins (m, []) hs

/-- The coin proofs of every transaction of the block are in the MMR of the node. -/
theorem Accepts.inMMR {cascade : Cascade} {flags : ℕ → ScriptCache × ScriptCache} {checked : ℕ → List TxPoW}
    {m : MMR} {ms : List MMR} {t : TxPoW} {txns : List TxPoW}
    (h : Accepts C parse weightText par sort cascade flags checked n m ms t txns) :
    ∀ u ∈ t :: txns, ∀ tw ∈ pairsOf u, ∀ p ∈ tw.2.coinProofs, InMMR C m ⟨ms, none⟩ p := by
  intro u hu tw htw p hp
  obtain ⟨-, hpasses⟩ := checkTransactions_spec (transactions_of_accepted h.block) h.witnessed
  obtain ⟨i, hi, rfl⟩ := List.getElem_of_mem hu
  refine (hpasses i _ (List.getElem?_eq_getElem hi) fun hzero => ?_).inMMR tw htw p hp
  subst hzero
  rcases h.witnessed t List.mem_cons_self with htrans | hnone
  · exact htrans
  · rw [hnone tw htw] at hp
    cases hp

/-- The scripts of every transaction of the block ran: in the block, or in one in which they had been checked
before. -/
theorem Accepts.ran {cascade : Cascade} {flags : ℕ → ScriptCache × ScriptCache} {checked : ℕ → List TxPoW}
    {m : MMR} {ms : List MMR} {t : TxPoW} {txns : List TxPoW}
    (h : Accepts C parse weightText par sort cascade flags checked n m ms t txns) {j : ℕ} {u : TxPoW}
    (hu : (t :: txns)[j]? = some u) {tw : Transaction × Witness} (htw : tw ∈ pairsOf u) {i : ℕ}
    {cp : CoinProof} (hcp : tw.2.coinProofs[i]? = some (some cp)) (hempty : tw.1.isEmpty = false) :
    ∃ x ∈ checked j ++ [t], Ran C parse x tw i cp := by
  obtain ⟨-, hpasses⟩ := checkTransactions_spec (transactions_of_accepted h.block) h.witnessed
  have hscripts := (hpasses j u hu fun hzero => by
    subst hzero
    obtain rfl := Option.some.inj hu
    rcases h.witnessed t List.mem_cons_self with htrans | hnone
    · exact htrans
    · rw [hnone tw htw] at hcp
      cases hcp).scripts
  cases hbody : u.body with
  | none =>
    rw [pairsOf, hbody] at htw
    cases htw
  | some b =>
    obtain ⟨hleft, hleft'⟩ := leftBy_checkAll C parse b (checked j)
    rw [← h.left j u b hu hbody] at hleft hleft'
    obtain ⟨hmain, hburn⟩ := (checkTxPoWScripts_eq_ok_true C parse b t _).mp (hscripts b hbody)
    rw [pairsOf, hbody] at htw
    simp only [List.mem_cons, List.not_mem_nil, or_false] at htw
    rcases htw with rfl | rfl
    · obtain ⟨x, hx, hran⟩ := @ran_of_leftBy _ _ (b.transaction, b.witness) _ _ hleft _ hmain hempty
      exact ⟨x, hx, hran i cp hcp⟩
    · obtain ⟨x, hx, hran⟩ := @ran_of_leftBy _ _ (b.burnTransaction, b.burnWitness) _ _ hleft' _ hburn hempty
      exact ⟨x, hx, hran i cp hcp⟩

/-- **The transactions of an accepted block** are ready to be worked on. -/
theorem Keeps.ready (hC : Function.Injective C.hashData) (h : Keeps C start n P older l blocks history)
    {cascade : Cascade} {flags : ℕ → ScriptCache × ScriptCache} {checked : ℕ → List TxPoW} {t : TxPoW}
    {txns : List TxPoW}
    (hacc : Accepts C parse weightText par sort cascade flags checked n P.mmr (older.map Snapshot.mmr) t txns) :
    ∀ u ∈ t :: txns, ∀ tw ∈ pairsOf u, Ready C P older l tw := by
  intro u hu tw htw
  have hwire : tw.1.Wire ∧ tw.2.Wire C := by
    have hbody := (hacc.wire u hu).body
    unfold pairsOf at htw
    cases hb : u.body with
    | none =>
      rw [hb] at htw
      cases htw
    | some b =>
      rw [hb] at htw hbody
      obtain hb' := hbody b rfl
      simp only [List.mem_cons, List.not_mem_nil, or_false] at htw
      rcases htw with rfl | rfl
      · exact ⟨hb'.transaction, hb'.witness⟩
      · exact ⟨hb'.burnTransaction, hb'.burnWitness⟩
  refine ⟨hwire.1, ?_, ?_⟩
  · intro o ho
    rcases checkTxPoWBasic_spec (hacc.basic u hu) tw htw with hempty | hbacked
    · rw [Transaction.isEmpty, Bool.and_eq_true] at hempty
      rw [List.isEmpty_iff.mp hempty.2] at ho
      cases ho
    · exact (hbacked.valid.outputs o ho).1
  · intro p hp hwritten
    obtain ⟨bytes, hwrite⟩ := hwritten
    obtain ⟨cp, d, hcp, hd, hvalid⟩ := hacc.inMMR u hu tw htw (some p) hp
    obtain rfl := Option.some.inj hcp
    exact Coin.accepted_spend hC h.chain h.seals h.coins h.holds (hwire.2.coinProofs _ hp p rfl).coin hwrite hd
      hvalid

/-- **An MMR that holds a ledger determines its tree** when the hashes in its entries are short, and those of
the nodes that it does not store are. -/
theorem sealed_of_holds {s : Snapshot (MiniData × ℚ)} {l' : List (Entry Coin)}
    (hs : MMR.Sound C MMRData.content (MMR.SumJoins C) s) (hholds : Coin.Holds C l' s)
    (hstored : ∀ r k, Complete s.size r k → s.mmr.Has r k ∨ MMR.Short (s.label r k).1)
    (hshort : ShortHashes C s.mmr) (hroot : s.mmr.getRoot C = MMR.rootOfPeaks C s.mmr.getPeaks)
    (hsmall : total Coin.value l' < 10 ^ 20) : MMR.Sealed C s := by
  have hhashes := hs.map (φ := Prod.fst) fun _ _ _ => MMR.SumJoins.hashJoins
  refine ⟨hs, ?_, ?_, ?_, hroot, hshort.bags⟩
  · intro r k hk
    rcases hstored r k hk with hhas | hsame
    · exact hhashes.tracks.stored.short hshort.entries hhas
    · exact hsame
  · intro r k hk
    have hsum : ∑ i ∈ Finset.range s.size, (s.label 0 i).2 < 10 ^ 20 := hholds.sum_eq_total ▸ hsmall
    obtain ⟨hnonneg, hle⟩ := MMR.leafSum_le hholds.leaf_nonneg hk
    rw [MMR.value_eq_leafSum hs.joined hholds.leaf_nonneg hsum hk, abs_of_nonneg hnonneg]
    exact hle.trans_lt hsum
  · intro k hk
    obtain ⟨c, -, hleaf⟩ := hholds.allCoins k hk
    exact hleaf.leafHash

/-- **The MMR of the next block** determines its tree as well. -/
theorem sealed_next {s : Snapshot (MiniData × ℚ)} {l' : List (Entry Coin)}
    (hchain : MMR.SumChain C (s :: P :: older)) (hP : MMR.Sealed C P) (hholds : Coin.Holds C l' s)
    (hshort : ShortHashes C s.mmr) (hroot : s.mmr.getRoot C = MMR.rootOfPeaks C s.mmr.getPeaks)
    (hsmall : total Coin.value l' < 10 ^ 20) : MMR.Sealed C s := by
  obtain ⟨hs, ⟨-, hcovers, -⟩, -⟩ := hchain
  refine sealed_of_holds hs hholds (fun r k hk => ?_) hshort hroot hsmall
  refine (hcovers r k hk).imp_right fun ⟨hcomplete, hsame⟩ => ?_
  rw [hsame]
  exact hP.short r k hcomplete

/-- What is spent, entry by entry. -/
theorem entries_of_spentAfter {T : MiniNumber} {ks : List ℕ} : ∀ {done : List ℕ} {ps : List CoinProof},
    SpentAfter P l T done ks ps → List.Forall₂ (fun k p => p.coin.mmrEntryNumber = .ofNat k ∧
      l[k]? = some ⟨p.coin.face, false⟩ ∧ p.coin.Wire) ks ps := by
  induction ks with
  | nil =>
    intro done ps h
    cases ps with
    | nil => exact .nil
    | cons p ps => exact h.elim
  | cons k ks ih =>
    intro done ps h
    cases ps with
    | nil => exact h.elim
    | cons p ps => exact .cons ⟨h.1.number, h.1.unspent, h.1.wire⟩ (ih h.2)

/-- **What a block does to a ledger:** the transfers of its transactions. -/
structure Transfers (C : Crypto) (l : List (Entry Coin)) (a : Added) (parts : List (Transfer Coin)) : Prop where
  transactions : ∃ T : MiniNumber, T.isEqual .one = false ∧
    List.Forall₂ (OfTransaction C T l) ((a.block :: a.txns).flatMap pairsOf) parts
  backed : ∀ tw ∈ (a.block :: a.txns).flatMap pairsOf, tw.1.isEmpty = true ∨ Backed tw
  valid : Valid l parts
  spent : List.Forall₂ (fun k p => p.coin.mmrEntryNumber = .ofNat k ∧ l[k]? = some ⟨p.coin.face, false⟩ ∧
    p.coin.Wire) (spends parts) a.txBlock.spentCoins
  created : a.txBlock.newCoins.map Coin.face = creates parts

theorem Transfers.records {a : Added} {parts : List (Transfer Coin)} (h : Transfers C l a parts) :
    Records a parts := ⟨h.spent.imp fun _ _ hk => hk.1, h.created⟩

/-- **What one block does to a branch.** -/
theorem Keeps.add (hC : Function.Injective C.hashData) (h : Keeps C start n P older l blocks history)
    {cascade : Cascade} {flags : ℕ → ScriptCache × ScriptCache} {checked : ℕ → List TxPoW} {t : TxPoW}
    {txns : List TxPoW}
    (hacc : Accepts C parse weightText par sort cascade flags checked n P.mmr (older.map Snapshot.mmr) t txns)
    {b : TxBlock} (hmake : make C weightText false none P.mmr (older.map Snapshot.mmr) t txns = .ok b)
    {m : MMR} {coins : List Coin} (hbuilt : TxPoWTreeNode.constructMMR C b = .ok (m, coins))
    (hshort : ShortHashes C m) :
    ∃ parts s, s.mmr = m ∧ Transfers C l ⟨t, txns, checked, b⟩ parts ∧
      Keeps C start ⟨b.txpow, n.chain⟩ s (P :: older) (apply l parts) (blocks ++ [parts])
        (history ++ [⟨t, txns, checked, b⟩]) := by
  obtain ⟨T, hT, hnumber, hle, hnotOne⟩ := h.next_number hacc.block
  obtain ⟨parts, made, hmade, hparts, hcopy, hpeaks, hspentCoins, hnewCoins⟩ :=
    make_spec h.chain h.final h.holds hacc.lists (h.ready hC hacc) hT hmake
      (written_of_constructMMR hbuilt)
  -- the copy has the number of the block, which is that of the play
  have hheader := TxPoW.deepCopy_header (hacc.wire t List.mem_cons_self).header hcopy
  have hblockNumber : b.txpow.getBlockNumber.toRat = T.toRat := by
    rw [← hnumber, TxPoW.getBlockNumber, TxPoW.getBlockNumber, hheader]
  obtain ⟨size, g, hchain, hfinal, htime, hroot, hholds⟩ := TxPoWTreeNode.constructMMR_spec h.chain h.holds
    hpeaks (hblockNumber ▸ hle) hblockNumber.ge (hspentCoins ▸ hmade.play.spent)
    (by rw [hnewCoins, hmade.creates]) (hnewCoins ▸ hmade.wire) hbuilt
  obtain ⟨hids, -⟩ := checkTransactions_spec (transactions_of_accepted hacc.block) hacc.witnessed
  have hvalid : Valid l parts := ⟨nodup_spends hparts hids, unspent_of_parts hparts⟩
  have hnonneg : ∀ e ∈ l, 0 ≤ e.item.value := fun e he => (h.worth_pos e he).le
  have hbacked : ∀ tw ∈ (t :: txns).flatMap pairsOf, tw.1.isEmpty = true ∨ Backed tw := by
    intro tw htw
    obtain ⟨u, hu, htw⟩ := List.mem_flatMap.mp htw
    exact checkTxPoWBasic_spec (hacc.basic u hu) tw htw
  have hworth : total Coin.value (apply l parts) ≤ total Coin.value start := by
    have hcreates := allCreates_le_spends hnonneg hparts hbacked
    have hworth := h.worth
    rw [apply_total Coin.value hvalid]
    linarith
  have hseal := sealed_next hchain (h.seals P List.mem_cons_self) hholds hshort hroot
    (hworth.trans_lt h.small)
  have htransfers : Transfers C l ⟨t, txns, checked, b⟩ parts :=
    ⟨⟨T, hnotOne, hparts⟩, hbacked, hvalid, hspentCoins ▸ entries_of_spentAfter hmade.play.spent,
      by rw [hnewCoins, hmade.creates]⟩
  refine ⟨parts, ⟨m, size, g⟩, rfl, htransfers, hchain, ?_, ?_, hfinal, hholds, htime, ?_,
    h.run.block hvalid, List.rel_append h.records (.cons htransfers.records .nil), hworth, h.small⟩
  · intro q hq
    rcases List.mem_cons.mp hq with rfl | hq
    · exact hseal
    · exact h.seals q hq
  · intro q hq
    rcases List.mem_cons.mp hq with rfl | hq
    · exact hholds.allCoins
    · exact h.coins q hq
  · show 1 ≤ m.blockTime.toRat
    rw [htime, hblockNumber]
    exact h.late.trans hle

end Step

/-! ## All blocks -/

/-- A node that a branch can begin with: its MMR is finalized and determines its tree, the leaves are the
coins `start`, and they are worth less than the limit of exact sums. -/
def Begins (C : Crypto) (start : List (Entry Coin)) (n : TreeNode) (m : MMR) : Prop :=
  ∃ s : Snapshot (MiniData × ℚ), s.mmr = m ∧ MMR.Sealed C s ∧ m.finalized = true ∧ Coin.Holds C start s ∧
    m.blockTime = n.getBlockNumber ∧ 1 ≤ m.blockTime.toRat ∧ total Coin.value start < 10 ^ 20

/-- **A branch keeps its ledger**, through all blocks and however often the root of the tree moves, and
whatever else each block keeps. -/
theorem Branch.exists_keeps_and (hC : Function.Injective C.hashData) {start : List (Entry Coin)}
    {Q : List (Entry Coin) → List Added → Prop} (hstart : Q start [])
    (hadd : ∀ (n : TreeNode) (s : Snapshot (MiniData × ℚ)) (older : List (Snapshot (MiniData × ℚ)))
      (l : List (Entry Coin)) (blocks : List (List (Transfer Coin))) (history : List Added) (a : Added)
      (parts : List (Transfer Coin)), Keeps C start n s older l blocks history → Transfers C l a parts →
        Q l history → Q (apply l parts) (history ++ [a])) {n : TreeNode} {m : MMR} {ms : List MMR}
    {history : List Added} (h : Branch C parse weightText par sort (Begins C start) n m ms history) :
    ∃ s older l blocks, s.mmr = m ∧ older.map Snapshot.mmr = ms ∧
      Keeps C start n s older l blocks history ∧ Q l history := by
  induction h with
  | start h =>
    obtain ⟨s, rfl, hseal, hfinal, hholds, htime, hlate, hsmall⟩ := h
    refine ⟨s, [], start, [], rfl, rfl, ⟨⟨hseal.sound, trivial, trivial⟩, ?_, ?_, hfinal, hholds, htime, hlate,
      .start, .nil, le_rfl, hsmall⟩, hstart⟩
    · simpa using hseal
    · simpa using hholds.allCoins
  | trim d _ ih =>
    obtain ⟨s, older, l, blocks, rfl, rfl, hkeeps, hQ⟩ := ih
    have hcut : s :: older = (s :: older.take d) ++ older.drop d := by simp
    have hsub : ∀ q ∈ s :: older.take d, q ∈ s :: older := fun q hq => by
      rw [hcut]
      exact List.mem_append_left _ hq
    refine ⟨s, older.take d, l, blocks, rfl, List.map_take, ⟨?_, fun q hq => hkeeps.seals q (hsub q hq),
      fun q hq => hkeeps.coins q (hsub q hq), hkeeps.final, hkeeps.holds, hkeeps.number, hkeeps.late, hkeeps.run,
      hkeeps.records, hkeeps.worth, hkeeps.small⟩, hQ⟩
    exact MMR.Chain.initial (hcut ▸ hkeeps.chain)
  | add _ accepts made built short ih =>
    obtain ⟨s, older, l, blocks, rfl, rfl, hkeeps, hQ⟩ := ih
    obtain ⟨parts, s', rfl, htransfers, hkeeps'⟩ := hkeeps.add hC accepts made built short
    exact ⟨s', s :: older, _, _, rfl, rfl, hkeeps', hadd _ _ _ _ _ _ _ _ hkeeps htransfers hQ⟩

/-- A branch can begin with less. -/
theorem Branch.mono {first first' : TreeNode → MMR → Prop} (hfirst : ∀ n m, first n m → first' n m)
    {n : TreeNode} {m : MMR} {ms : List MMR} {history : List Added}
    (h : Branch C parse weightText par sort first n m ms history) :
    Branch C parse weightText par sort first' n m ms history := by
  induction h with
  | start h => exact .start (hfirst _ _ h)
  | trim d _ ih => exact .trim d ih
  | add _ accepts made built short ih => exact .add ih accepts made built short

end Minima
