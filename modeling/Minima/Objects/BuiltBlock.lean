import Minima.Objects.MMRRun
import Minima.Objects.MadeBlock

/-! # The MMR that is built from a `TxBlock`

`constructMMR` starts from the peaks of the parent's MMR, sets the leaf of every spent coin by its proof,
and adds a leaf for every new coin. The MMR that it ends with follows the parent's in the chain, and holds
the ledger of the parent after the block.

* **`TxPoWTreeNode.Building`** — the MMR and the ledger while the block is built.
* **`TxPoWTreeNode.constructMMR_spec`** — the MMR and the ledger after it. -/

namespace Minima

open Decimal MountainRange SpendLedger TxBlock

namespace Coin

variable {C : Crypto}

/-- A copy of a coin can be written, and so can what becomes of it. -/
theorem deepCopied_spec {c copy : Coin} (h : c.Wire) (hcopy : TxPoWTreeNode.deepCopied c = .ok copy) :
    copy.Wire ∧ copy.Held ∧ Agrees copy c := by
  unfold TxPoWTreeNode.deepCopied at hcopy
  cases hdeep : c.deepCopy with
  | none =>
    rw [hdeep] at hcopy
    cases hcopy
  | some copy' =>
    rw [hdeep] at hcopy
    obtain rfl := Except.ok.inj hcopy
    obtain ⟨⟨bytes, hwrite⟩, hwire, hsame⟩ := deepCopy_spec h hdeep
    obtain ⟨held, ⟨bytes', hbytes', hread⟩, hheld⟩ := settles h hwrite
    obtain rfl := Except.ok.inj (hwrite.symm.trans hbytes')
    unfold deepCopy at hdeep
    have hread' := hread []
    rw [List.append_nil] at hread'
    rw [hwrite] at hdeep
    simp only [hread', Option.some.injEq] at hdeep
    exact ⟨hwire, hdeep ▸ hheld, hsame⟩

/-- A coin whose copy was used can be written. -/
theorem written_of_deepCopied {c copy : Coin} (h : TxPoWTreeNode.deepCopied c = .ok copy) : Written c := by
  unfold TxPoWTreeNode.deepCopied deepCopy at h
  cases hwrite : c.writeDataStream with
  | ok bytes => exact ⟨bytes, hwrite⟩
  | error e =>
    rw [hwrite] at h
    cases h

/-- The entry number of a leaf can be read. -/
theorem wire_ofNat {n : ℕ} (h : n < 2 ^ 256) : (MMREntryNumber.ofNat n).Wire := by
  refine ⟨show -2 ^ 31 ≤ (0 : ℤ) ∧ (0 : ℤ) < 2 ^ 31 by decide, ?_⟩
  show (MMREntryNumber.toTwosComplementBytes (n : ℤ)).length ≤ MiniData.maxMiniDataLength
  unfold MMREntryNumber.toTwosComplementBytes
  split_ifs with h0 hpos
  · decide
  · have hlen := TwosComplement.length_positiveBytes_le (n := n) (w := 32) (h.trans (by norm_num))
    rw [Int.natAbs_natCast, MiniData.maxMiniDataLength]
    omega
  · omega

theorem Held.written {c : Coin} (h : c.Wire) (hheld : c.Held) : Written c := by
  obtain ⟨bytes, hwrite, -⟩ := transmits h hheld
  exact ⟨bytes, hwrite⟩

end Coin

namespace TxPoWTreeNode

variable {C : Crypto} {P : Snapshot (MiniData × ℚ)} {l : List (Entry Coin)} {T : MiniNumber}

/-- The MMR of a block that is being built on the parent `P`: the leaves `done` have been set, and its tree
holds the ledger `l`. -/
structure Building (C : Crypto) (P : Snapshot (MiniData × ℚ)) (time : MiniNumber) (done : List ℕ)
    (l : List (Entry Coin)) (m : MMR) : Prop where
  tree : ∃ n g, MMR.Rebuilt MMRData.content (MMR.SumJoins C) P done m n g ∧ Coin.Holds C l ⟨m, n, g⟩
  time : m.blockTime = time

/-- **A spent coin.** -/
theorem Building.spendInput {time : MiniNumber} (hT : T.toRat ≤ time.toRat) {ks : List ℕ}
    (hsize : P.size = l.length) {s s' : MMR × List Coin}
    (h : Building C P time ks.reverse (ks.foldl spend l) s.1) {k : ℕ} {p : CoinProof}
    (hp : SpendOf P l T ks.reverse k p) (hs : TxPoWTreeNode.spendInput C s p = .ok s') :
    Building C P time (ks ++ [k]).reverse ((ks ++ [k]).foldl spend l) s'.1 := by
  obtain ⟨⟨n, g, hbuilt, hholds⟩, htime⟩ := h
  unfold TxPoWTreeNode.spendInput at hs
  simp only [Result.bind_eq_ok, Result.pure_eq_ok] at hs
  obtain ⟨copy, hcopy, d, hd, m, hm, rfl⟩ := hs
  obtain rfl : n = P.size := by rw [hsize, ← length_foldl_spend ks l, ← hholds.size]
  obtain ⟨hwire, hheld, hsame⟩ := Coin.deepCopied_spec hp.wire hcopy
  have hwire' := hwire.setSpent true
  obtain ⟨bytes, hwrite⟩ := Coin.Held.written hwire' (show (copy.setSpent true).Held from hheld)
  have hvalue : (copy.setSpent true).leafValue = .zero := by
    rw [Coin.leafValue, Coin.getSpent_setSpent]
    rfl
  have hleaf : Coin.LeafOf C (copy.setSpent true) d.content :=
    Coin.leafOf_create hwrite (by rw [hvalue]; exact hd)
  have hk : k < P.size := by
    rw [hsize]
    exact (List.getElem?_eq_some_iff.mp hp.unspent).choose
  rw [hp.number] at hm
  obtain ⟨g', hbuilt', hblock, hnew, hold⟩ := hbuilt.update MMRData.content_clone MMR.sumJoins_of_create hk
    (by rw [hp.time, htime]; exact hT) hp.chunks hm
  refine ⟨⟨P.size, g', ?_, ?_, ?_⟩, hblock.trans htime⟩
  · rwa [List.reverse_append, List.reverse_singleton, List.singleton_append]
  · rw [length_foldl_spend, ← hsize]
  · intro j e he
    rw [List.foldl_append, List.foldl_cons, List.foldl_nil, getElem?_spend, Option.map_eq_some_iff] at he
    obtain ⟨e', he', rfl⟩ := he
    by_cases hjk : j = k
    · subst hjk
      have hitem := getElem?_foldl_spend ks l j
      rw [hp.unspent, he', Option.map_some, Option.some.injEq] at hitem
      refine ⟨copy.setSpent true, ⟨hwire', hsame.mmrEntryNumber.trans hp.number, ?_⟩, ?_, ?_, ?_⟩
      · exact hsame.value ▸ hp.worth
      · rw [hitem]
        exact hsame.face
      · simp
      · show Coin.LeafOf C _ (g' 0 j)
        rwa [hnew]
    · obtain ⟨c, hc, hface, hspent, hcleaf⟩ := hholds.leaf j e' he'
      refine ⟨c, hc, hface, ?_, ?_⟩
      · simp [hspent, hjk]
      · show Coin.LeafOf C c (g' 0 j)
        rwa [hold j hjk]

/-- **The spent coins of a block**, one after the other. -/
theorem Building.spendInputs {time : MiniNumber} (hT : T.toRat ≤ time.toRat) (hsize : P.size = l.length)
    {inputs : List CoinProof} : ∀ {ks ks' : List ℕ} {s s' : MMR × List Coin},
      Building C P time ks.reverse (ks.foldl spend l) s.1 → SpentAfter P l T ks.reverse ks' inputs →
      inputs.foldlM (TxPoWTreeNode.spendInput C) s = .ok s' →
      Building C P time (ks ++ ks').reverse ((ks ++ ks').foldl spend l) s'.1 := by
  induction inputs with
  | nil =>
    intro ks ks' s s' h hspent hs
    obtain rfl := Except.ok.inj (show Except.ok s = .ok s' from hs)
    cases ks' with
    | nil => rwa [List.append_nil]
    | cons k ks' => exact hspent.elim
  | cons p inputs ih =>
    intro ks ks' s s' h hspent hs
    cases ks' with
    | nil => exact hspent.elim
    | cons k ks' =>
      rw [List.foldlM_cons] at hs
      obtain ⟨s₁, hs₁, hrest⟩ := Result.bind_eq_ok.mp hs
      have hnext : SpentAfter P l T (ks ++ [k]).reverse ks' inputs := by
        rw [List.reverse_append, List.reverse_singleton, List.singleton_append]
        exact hspent.2
      have hall := ih (h.spendInput hT hsize hspent.1 hs₁) hnext hrest
      rwa [List.append_assoc] at hall

/-- **A new coin.** -/
theorem Building.addOutput {time : MiniNumber} (htime : time.IsNonneg) {block : StoredNumber} {done : List ℕ}
    {s s' : MMR × List Coin} (h : Building C P time done l s.1) {c : Coin} (hworth : 0 < c.value)
    (hc : Written c → c.Wire) (hs : TxPoWTreeNode.addOutput C block s c = .ok s') :
    Building C P time done (l ++ [⟨c.face, false⟩]) s'.1 := by
  obtain ⟨⟨n, g, hbuilt, hholds⟩, hblock⟩ := h
  unfold TxPoWTreeNode.addOutput at hs
  simp only [Result.bind_eq_ok, Result.pure_eq_ok] at hs
  obtain ⟨copy, hcopy, d, hd, ⟨m, x⟩, hm, rfl⟩ := hs
  obtain ⟨hwire, hheld, hsame⟩ := Coin.deepCopied_spec (hc (Coin.written_of_deepCopied hcopy)) hcopy
  have hwire' := hwire.setLeaf (Coin.wire_ofNat hbuilt.tracks.small) 0 block
  obtain ⟨bytes, hwrite⟩ := Coin.Held.written hwire' hheld
  rw [hbuilt.tracks.entryNumber] at hd
  have hleaf := Coin.leafOf_create hwrite (show _ = Except.ok d from hsame.amount.symm ▸ hd)
  obtain ⟨g', hbuilt', htime', hnew, hold⟩ := hbuilt.add MMRData.content_clone MMR.sumJoins_of_create
    (hblock ▸ htime) hm
  have hlen : n = l.length := hholds.size
  refine ⟨⟨n + 1, g', hbuilt', ?_, ?_⟩, htime'.trans hblock⟩
  · simp [hlen]
  · intro k e he
    rcases Nat.lt_trichotomy k l.length with hk | rfl | hk
    · rw [List.getElem?_append_left hk] at he
      obtain ⟨c', hc', hface, hspent, hcleaf⟩ := hholds.leaf k e he
      refine ⟨c', hc', hface, hspent, ?_⟩
      show Coin.LeafOf C c' (g' 0 k)
      rwa [hold k (hlen ▸ hk)]
    · rw [List.getElem?_concat_length, Option.some.injEq] at he
      subst he
      refine ⟨_, ⟨hwire', by rw [hlen], hsame.value ▸ hworth⟩, hsame.face, rfl, ?_⟩
      show Coin.LeafOf C _ (g' 0 l.length)
      rw [← hlen, hnew]
      exact hleaf
    · rw [List.getElem?_eq_none (by simp; omega)] at he
      cases he

/-- **The new coins of a block**, one after the other. -/
theorem Building.addOutputs {time : MiniNumber} (htime : time.IsNonneg) {block : StoredNumber} {done : List ℕ}
    {outputs : List Coin} : ∀ {l : List (Entry Coin)} {s s' : MMR × List Coin}, Building C P time done l s.1 →
      (∀ c ∈ outputs, 0 < c.value ∧ (Written c → c.Wire)) →
      outputs.foldlM (TxPoWTreeNode.addOutput C block) s = .ok s' →
      Building C P time done (l ++ (outputs.map Coin.face).map fun a => ⟨a, false⟩) s'.1 := by
  induction outputs with
  | nil =>
    intro l s s' h _ hs
    obtain rfl := Except.ok.inj (show Except.ok s = .ok s' from hs)
    simpa using h
  | cons c outputs ih =>
    intro l s s' h hcoins hs
    rw [List.foldlM_cons] at hs
    obtain ⟨s₁, hs₁, hrest⟩ := Result.bind_eq_ok.mp hs
    obtain ⟨hworth, hwire⟩ := hcoins c List.mem_cons_self
    have hall := ih (h.addOutput htime hworth hwire hs₁) (fun c' hc' => hcoins c' (List.mem_cons_of_mem c hc'))
      hrest
    rwa [List.append_assoc] at hall

/-- Every peak has its data. -/
theorem filter_peaks {A : Type} {label : MMRData → A} {n : ℕ} {f : ℕ → ℕ → A} {xs : List MMREntry}
    (h : MMR.PeaksCarry label n f xs) : xs.filter (fun p => p.mmrData.isSome) = xs := by
  rw [List.filter_eq_self]
  intro x hx
  obtain ⟨r, k, -, hcarry⟩ := h.isPeak hx
  obtain ⟨d, hd, -⟩ := hcarry.data
  rw [hd]
  rfl

/-- **The MMR of a block** follows the parent's, and holds its ledger after the block. -/
theorem constructMMR_spec {older : List (Snapshot (MiniData × ℚ))} (hchain : MMR.SumChain C (P :: older))
    (hl : Coin.Holds C l P) {b : TxBlock} (hpeaks : b.previousPeaks = P.mmr.getPeaks)
    (htime : P.mmr.blockTime.toRat ≤ b.txpow.getBlockNumber.toRat)
    (hT : T.toRat ≤ b.txpow.getBlockNumber.toRat) {parts : List (Transfer Coin)}
    (hspent : SpentAfter P l T [] (spends parts) b.spentCoins)
    (hcreated : b.newCoins.map Coin.face = creates parts)
    (hcoins : ∀ c ∈ b.newCoins, 0 < c.value ∧ (Written c → c.Wire)) {m : MMR} {coins : List Coin}
    (h : constructMMR C b = .ok (m, coins)) :
    ∃ n g, MMR.SumChain C (⟨m, n, g⟩ :: P :: older) ∧ m.finalized = true ∧
      m.blockTime = b.txpow.getBlockNumber ∧ m.getRoot C = MMR.rootOfPeaks C m.getPeaks ∧
        Coin.Holds C (apply l parts) ⟨m, n, g⟩ := by
  have hP := hchain.1
  have hpeaksCarry := hP.getPeaks MMRData.content_clone
  have hcanonical : b.txpow.getBlockNumber.Canonical := b.txpow.header.blockNumber.property
  have hnonneg : b.txpow.getBlockNumber.IsNonneg :=
    ⟨hcanonical, not_lt.mp (mt (value_lt_zero_iff _ _).mpr (not_lt.mpr (hP.time.toRat_nonneg.trans htime)))⟩
  unfold constructMMR at h
  simp only [MMROperation.addPeaks_eq, hpeaks, filter_peaks hpeaksCarry, Result.bind_eq_ok,
    Result.pure_eq_ok, Prod.mk.injEq] at h
  obtain ⟨time, hcopy, m₁, hm₁, m₂, hm₂, s₁, hs₁, s₂, hs₂, m', hfinal, rfl, -⟩ := h
  obtain rfl := Except.ok.inj ((MiniNumber.copy_of_canonical hcanonical).symm.trans hcopy)
  have hindexed : MMR.Indexed { MMR.new with blockTime := b.txpow.getBlockNumber } :=
    ⟨MMR.indexed_new.found, MMR.indexed_new.largest, MMR.indexed_new.range⟩
  obtain ⟨hbuilt, hblock⟩ := MMR.rebuilt_start MMRData.content_clone hP hpeaksCarry rfl hindexed rfl hm₁
    hm₂
  have hstart : Building C P b.txpow.getBlockNumber [] l m₂ :=
    ⟨⟨P.size, P.label, hbuilt, hl.size, hl.leaf⟩, hblock⟩
  have hspentAll := @Building.spendInputs _ _ _ _ _ hT hl.size _ [] _ _ _ hstart hspent hs₁
  rw [List.nil_append] at hspentAll
  obtain ⟨⟨n, g, hbuilt', hholds⟩, hblock'⟩ := hspentAll.addOutputs hnonneg hcoins hs₂
  obtain ⟨hchain', hfinalized, hblock''⟩ := hbuilt'.finalize MMRData.content_clone hchain
    (hblock' ▸ hnonneg) (hblock' ▸ htime) hfinal
  have hdata : ∀ x ∈ m'.finalizedPeaks, ∃ d, x.getMMRData = .ok d := by
    intro x hx
    obtain ⟨_, _, -, hcarry⟩ := (hchain'.1.final hfinalized).1.isPeak hx
    obtain ⟨d, hd, -⟩ := hcarry.getMMRData
    exact ⟨d, hd⟩
  refine ⟨n, g, hchain', hfinalized, hblock''.trans hblock', MMR.getRoot_of_finalizeSet hfinal hdata,
    hholds.size.trans ?_, ?_⟩
  · rw [apply, hcreated]
  · rw [hcreated] at hholds
    exact hholds.leaf

end TxPoWTreeNode

end Minima
