import Minima.Lib.SpendLedger
import Minima.Mmr.CurrentLeaf
import Minima.Mmr.RootLeaves
import Minima.Objects.CoinLeaf

/-! # The coins of an MMR as a ledger

The leaves of the MMRs of a branch are coins, each with its place as entry number. The coins of the newest
one, spent or not, are a ledger: an accepted coin proof is one for an unspent entry of it.

* **`Coin.Holds`** — the tree of an MMR holds the coins of a ledger.
* **`Coin.Holds.unique`** — the root of the MMR determines the ledger.
* **`Coin.Shown`** — what an accepted coin proof shows. -/

namespace Minima

open MountainRange SpendLedger

namespace Coin

variable {C : Crypto}

/-- What a coin keeps from when it is made on: not its state, which other texts can be encoded like, and
not what the MMR adds to it. -/
def face (c : Coin) : Coin :=
  { c with state := [], mmrEntryNumber := .zero, spent := 0, blockCreated := ⟨.zero, MiniNumber.canonical_zero⟩ }

@[simp] theorem face_coinID (c : Coin) : c.face.coinID = c.coinID := rfl

@[simp] theorem face_address (c : Coin) : c.face.address = c.address := rfl

@[simp] theorem face_tokenID (c : Coin) : c.face.tokenID = c.tokenID := rfl

@[simp] theorem face_value (c : Coin) : c.face.value = c.value := rfl

theorem Agrees.face {c d : Coin} (h : Agrees c d) : c.face = d.face := (congrArg Coin.face h :)

/-- The coin of leaf `k`, spent or not. -/
structure AtLeaf (k : ℕ) (c : Coin) : Prop where
  wire : c.Wire
  number : c.mmrEntryNumber = .ofNat k
  worth : 0 < c.value

/-- The leaves of a tree are coins. -/
def AllCoins (C : Crypto) (s : Snapshot (MiniData × ℚ)) : Prop :=
  ∀ k < s.size, ∃ c, AtLeaf k c ∧ LeafOf C c (s.label 0 k)

/-- **The tree holds the coins of a ledger.** -/
structure Holds (C : Crypto) (l : List (Entry Coin)) (s : Snapshot (MiniData × ℚ)) : Prop where
  size : s.size = l.length
  leaf : ∀ k e, l[k]? = some e →
    ∃ c, AtLeaf k c ∧ c.face = e.item ∧ c.getSpent = e.spent ∧ LeafOf C c (s.label 0 k)

theorem Holds.get {l : List (Entry Coin)} {s : Snapshot (MiniData × ℚ)} (h : Holds C l s) {k : ℕ}
    (hk : k < s.size) : ∃ e, l[k]? = some e := by
  rw [h.size] at hk
  exact ⟨l[k], List.getElem?_eq_getElem hk⟩

theorem Holds.allCoins {l : List (Entry Coin)} {s : Snapshot (MiniData × ℚ)} (h : Holds C l s) :
    AllCoins C s := by
  intro k hk
  obtain ⟨e, he⟩ := h.get hk
  obtain ⟨c, hc, -, -, hleaf⟩ := h.leaf k e he
  exact ⟨c, hc, hleaf⟩

/-- What the leaf of a coin of the ledger is worth. -/
theorem Holds.value {l : List (Entry Coin)} {s : Snapshot (MiniData × ℚ)} (h : Holds C l s) {k : ℕ}
    {e : Entry Coin} (he : l[k]? = some e) :
    (s.label 0 k).2 = if e.spent then 0 else e.item.value := by
  obtain ⟨c, -, hface, hspent, hleaf⟩ := h.leaf k e he
  rw [hleaf.value, leafValue, hspent, ← hface]
  split_ifs
  · exact MiniNumber.toRat_zero
  · rfl

/-- **The leaves are worth what the ledger is worth.** -/
theorem Holds.sum_eq_total {l : List (Entry Coin)} {s : Snapshot (MiniData × ℚ)} (h : Holds C l s) :
    ∑ i ∈ Finset.range s.size, (s.label 0 i).2 = SpendLedger.total Coin.value l := by
  rw [h.size, SpendLedger.total, Finset.sum_range, ← Fin.sum_univ_fun_getElem]
  exact Finset.sum_congr rfl fun i _ => h.value (List.getElem?_eq_getElem i.isLt)

/-- No leaf is worth less than nothing. -/
theorem Holds.leaf_nonneg {l : List (Entry Coin)} {s : Snapshot (MiniData × ℚ)} (h : Holds C l s) :
    ∀ k < s.size, 0 ≤ (s.label 0 k).2 := by
  intro k hk
  obtain ⟨e, he⟩ := h.get hk
  obtain ⟨c, hc, hface, -, -⟩ := h.leaf k e he
  rw [h.value he]
  split_ifs
  · exact le_rfl
  · rw [← hface]
    exact hc.worth.le

/-- Leaves with one hash are coins with one face, spent or unspent both. -/
theorem LeafOf.entry_eq (hC : Function.Injective C.hashData) {c d : Coin} (hc : c.Wire) (hd : d.Wire)
    {a b : MiniData × ℚ} (h : LeafOf C c a) (h' : LeafOf C d b) (heq : a.1 = b.1) :
    c.face = d.face ∧ c.getSpent = d.getSpent := by
  obtain ⟨bytes, hwrite, rfl⟩ := h
  obtain ⟨bytes', hwrite', rfl⟩ := h'
  obtain ⟨hsame, -⟩ := same_of_bytes hc hd hwrite hwrite' (MMR.leafBytes_inj hC heq)
  exact ⟨hsame.face, hsame.getSpent⟩

/-- **The root determines the ledger.** -/
theorem Holds.unique (hC : Function.Injective C.hashData) {l l' : List (Entry Coin)}
    {s s' : Snapshot (MiniData × ℚ)} (h : Holds C l s) (h' : Holds C l' s') (hs : MMR.Sealed C s)
    (hs' : MMR.Sealed C s') {root root' : MMRData} (hroot : s.mmr.getRoot C = .ok (some root))
    (hroot' : s'.mmr.getRoot C = .ok (some root')) (hsame : root.data = root'.data) : l = l' := by
  obtain ⟨hsize, hleaves⟩ := hs.leaves_eq hC hs' hroot hroot' hsame
  refine List.ext_getElem (h.size.symm.trans (hsize.trans h'.size)) fun k hk hk' => ?_
  obtain ⟨c, hc, hface, hspent, hleaf⟩ := h.leaf k _ (List.getElem?_eq_getElem hk)
  obtain ⟨d, hd, hface', hspent', hleaf'⟩ := h'.leaf k _ (List.getElem?_eq_getElem hk')
  obtain ⟨hfaces, hspents⟩ := hleaf.entry_eq hC hc.wire hd.wire hleaf' (hleaves k (h.size ▸ hk))
  have hitem : l[k].item = l'[k].item := hface.symm.trans (hfaces.trans hface')
  have hflag : l[k].spent = l'[k].spent := hspent.symm.trans (hspents.trans hspent')
  calc l[k] = ⟨l[k].item, l[k].spent⟩ := rfl
    _ = ⟨l'[k].item, l'[k].spent⟩ := by rw [hitem, hflag]

/-- Wherever the leaf of a coin stands in a chain, the place is the entry number of the coin. -/
theorem placed (hC : Function.Injective C.hashData) {ss : List (Snapshot (MiniData × ℚ))}
    (hss : ∀ q ∈ ss, AllCoins C q) {p : CoinProof} (hp : p.coin.Wire) {bytes : List Byte}
    (hwrite : p.coin.writeDataStream = .ok bytes) {d : MMRData} (hd : p.getMMRData C = .ok d) :
    MMR.Placed p.coin.mmrEntryNumber d ss := by
  intro q hq k hk hdata
  obtain ⟨c, hc, hleaf⟩ := hss q hq k hk
  have hcontent := getMMRData_spec hwrite hd
  have hdd : d.data = ⟨C.hashData (MMRData.leafBytes bytes p.coin.amount.val)⟩ := congrArg Prod.fst hcontent
  obtain ⟨hsame, -, hvalue⟩ := LeafOf.same hC hc.wire hp hc.worth.ne' hleaf hwrite (hdata.trans hdd)
  refine ⟨hsame.mmrEntryNumber.trans hc.number, ?_⟩
  rw [hvalue]
  exact (congrArg Prod.snd hcontent).symm

/-- **What an accepted coin proof shows:** it is one for an unspent entry of the ledger, which has the number
of the coin, and its siblings are what a change of this leaf needs. -/
structure Shown (C : Crypto) (P : Snapshot (MiniData × ℚ)) (older : List (Snapshot (MiniData × ℚ)))
    (l : List (Entry Coin)) (k : ℕ) (p : CoinProof) : Prop where
  wire : p.coin.Wire
  number : p.coin.mmrEntryNumber = .ofNat k
  unspent : l[k]? = some ⟨p.coin.face, false⟩
  worth : 0 < p.coin.value
  leaf : ∀ d, p.getMMRData C = .ok d → P.label 0 k = d.content
  time : p.proof.blockTime.toRat ≤ P.mmr.blockTime.toRat
  supplies : MMR.Supplies MMRData.content p.proof k P older

theorem accepted_spend (hC : Function.Injective C.hashData) {P : Snapshot (MiniData × ℚ)}
    {older : List (Snapshot (MiniData × ℚ))} (hchain : MMR.SumChain C (P :: older))
    (hseal : ∀ q ∈ P :: older, MMR.Sealed C q) (hcoins : ∀ q ∈ P :: older, AllCoins C q)
    {l : List (Entry Coin)} (hl : Holds C l P) {p : CoinProof} (hp : p.coin.Wire) {bytes : List Byte}
    (hwrite : p.coin.writeDataStream = .ok bytes) {d : MMRData} (hd : p.getMMRData C = .ok d)
    (h : P.mmr.checkProofTimeValid C ⟨older.map Snapshot.mmr, none⟩ p.coin.mmrEntryNumber d p.proof = .ok true) :
    ∃ k, Shown C P older l k p := by
  have hcontent := getMMRData_spec hwrite hd
  have hleafHash : MMR.LeafHash C d.data := ⟨bytes, p.coin.amount.val, congrArg Prod.fst hcontent⟩
  obtain ⟨k, hnumber, hk, hlabel, htime, hsupplies⟩ := MMR.checkProofTimeValid_current hC hchain hseal
    hleafHash (placed hC hcoins hp hwrite hd) h
  obtain ⟨e, he⟩ := hl.get hk
  obtain ⟨c, hc, hface, hspent, hleaf⟩ := hl.leaf k e he
  have hdata : (P.label 0 k).1 = ⟨C.hashData (MMRData.leafBytes bytes p.coin.amount.val)⟩ := by
    rw [hlabel, hcontent]
  obtain ⟨hsame, hunspent, -⟩ := LeafOf.same hC hc.wire hp hc.worth.ne' hleaf hwrite hdata
  refine ⟨k, hp, hnumber, ?_, hsame.value ▸ hc.worth, ?_, htime, hsupplies⟩
  · rw [he, hsame.face, hface, ← hunspent, hspent]
  · intro d' hd'
    rw [hlabel, Except.ok.inj (hd.symm.trans hd')]

theorem Shown.lt {P : Snapshot (MiniData × ℚ)} {older : List (Snapshot (MiniData × ℚ))} {l : List (Entry Coin)}
    (hl : Holds C l P) {k : ℕ} {p : CoinProof} (h : Shown C P older l k p) : k < P.size := by
  rw [hl.size]
  exact (List.getElem?_eq_some_iff.mp h.unspent).choose

end Coin

end Minima
