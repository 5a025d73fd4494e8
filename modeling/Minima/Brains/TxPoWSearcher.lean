import Minima.Database.TreeStream
import Minima.Lib.NewestRecords
import Minima.Objects.MegaMMR

/-! # `TxPoWSearcher`: the unspent coins of a branch

`searchCoins` goes from a block of the tree up to the root, and at last to the coins of the MegaMMR. Of the
coin records that pass the filter it notes the ids: a record of a spent coin hides every older record with
its id, and a record of an unspent coin is taken unless a newer one hid it.

* **`searchCoins_eq`** — the search finds the unspent among the newest records that pass the filter.
* **`Kept`** — a coin that the branch spends has a record of the spend in front of the others, with the
  address, the amount and the token of the coin.
* **`searchCoins_exact_iff`** — the search is exact for every filter on exactly these branches. -/

namespace Minima

/-- `Coin::checkForStateVariable`. -/
def Coin.checkForStateVariable (c : Coin) (zCheckState : Text) (zWildcard : Bool) : Bool :=
  c.state.any fun sv => if zWildcard then zCheckState <:+: sv.data else sv.data = zCheckState

namespace TxPoWSearcher

/-- What a search compares with a coin, each only when it is asked for. -/
structure CoinFilter where
  tokenID : Option MiniData
  coinID : Option MiniData
  amount : Option MiniNumber
  address : Option MiniData

/-- The comparisons of `searchCoins` with one coin. -/
def CoinFilter.passes (f : CoinFilter) (coin : Coin) : Bool :=
  (f.tokenID.all fun zTokenID => coin.tokenID.isEqual zTokenID) &&
    (f.coinID.all fun zCoinID => coin.coinID.isEqual zCoinID) &&
    (f.amount.all fun zAmount => coin.amount.val.isEqual zAmount) &&
    (f.address.all fun zAddress => coin.address.isEqual zAddress)

/-- What `searchCoins` has found and the ids that it has seen. An entry is a null pointer where the copy
of the coin failed. -/
structure SearchState where
  coinentry : List (Option Coin)
  spentcoins : List Text

/-- The id under which `spentcoins` keeps a coin. -/
def coinid (coin : Coin) : Text := coin.coinID.to0xString

/-- One coin of the inner loop; `p` are the checks that it has to pass. -/
def checkCoin (p : Coin → Bool) (s : SearchState) (coin : Coin) : SearchState :=
  if !p coin then s
  else if coin.getSpent then { s with spentcoins := coinid coin :: s.spentcoins }
  else if coinid coin ∈ s.spentcoins then s
  else ⟨s.coinentry ++ [coin.deepCopy], coinid coin :: s.spentcoins⟩

/-- `std::numeric_limits<int>::max()`, the depth of a search without a bound. -/
def maxDepth : ℤ := 2 ^ 31 - 1

/-- `depth++`, an `int`. -/
def nextDepth (depth : ℤ) : ℤ := Int.bmod (depth + 1) (2 ^ 32)

/-- The loop of `searchCoins` over the nodes from the tip up, and over the coins of the MegaMMR after the
root. `coinsOf` is `getAllCoins` or `getRelevantCoins`. -/
def searchLoop (coinsOf : BlockNode → List Coin) (p : Coin → Bool) (zDepth : ℤ)
    (megammr : Option (List Coin)) : ℤ → List BlockNode → SearchState → SearchState
  | _, [], s => s
  | depth, tip :: parents, s =>
    if depth > zDepth then s
    else
      let s := (coinsOf tip).foldl (checkCoin p) s
      match parents, megammr with
      | [], some allmap =>
        -- `MEGACHECK`: one more turn, over the map of the MegaMMR
        if nextDepth depth > zDepth then s else allmap.foldl (checkCoin p) s
      | _, _ => searchLoop coinsOf p zDepth megammr (nextDepth depth) parents s

/-- The coins with a simple address; a null pointer is dereferenced. -/
def simpleOnly (isAddressSimple : Text → Bool) : List (Option Coin) → Result (List (Option Coin))
  | [] => .ok []
  | none :: _ => undefinedBehaviour "null Coin"
  | some cc :: coins => do
    let finalcoins ← simpleOnly isAddressSimple coins
    return if isAddressSimple cc.address.to0xString then some cc :: finalcoins else finalcoins

/-- **`searchCoins`** with all its arguments. The wallet's `isAddressSimple` is a parameter; `branch` is
the start node with its parents, and `megammr` the values of the map of the MegaMMR, in its order. -/
def searchCoins (isAddressSimple : Text → Bool) (coinsOf : BlockNode → List Coin)
    (branch : List BlockNode) (f : CoinFilter) (zState : Option (Text × Bool)) (zSimpleOnly : Bool)
    (zDepth : ℤ) (megammr : Option (List Coin)) : Result (List (Option Coin)) :=
  let passes coin := f.passes coin && zState.all fun s => coin.checkForStateVariable s.1 s.2
  let s := searchLoop coinsOf passes zDepth megammr 0 branch ⟨[], []⟩
  if zSimpleOnly then simpleOnly isAddressSimple s.coinentry else .ok s.coinentry

/-! ## What the loop finds -/

variable {p : Coin → Bool}

/-- The records that a search finds: of each id the newest that passes the filter, unless it is spent. -/
def found (p : Coin → Bool) (records : List Coin) : List Coin :=
  (NewestRecords.newest coinid (records.filter p)).filter fun c => !c.getSpent

/-- Seeing a record is what a scan with the set of seen ids does. -/
theorem coinentry_foldl (records : List Coin) (s : SearchState) :
    (records.foldl (checkCoin p) s).coinentry = s.coinentry ++
      (((NewestRecords.newest coinid (records.filter p)).filter
        fun c => coinid c ∉ s.spentcoins).filter fun c => !c.getSpent).map Coin.deepCopy := by
  induction records generalizing s with
  | nil => simp [NewestRecords.newest]
  | cons coin records ih =>
    rw [List.foldl_cons, ih, List.filter_cons]
    by_cases hpass : p coin = true
    · rw [if_pos hpass, NewestRecords.filter_newest_cons]
      by_cases hspent : coin.getSpent = true
      · have hstep : checkCoin p s coin = { s with spentcoins := coinid coin :: s.spentcoins } := by
          simp [checkCoin, hpass, hspent]
        rw [hstep]
        by_cases hseen : coinid coin ∈ s.spentcoins
        · have hsame : ∀ c : Coin, coinid c ∉ coinid coin :: s.spentcoins ↔ coinid c ∉ s.spentcoins := by
            intro c
            rw [List.mem_cons, not_or, and_iff_right_iff_imp]
            exact fun hc heq => hc (heq ▸ hseen)
          simp only [if_pos hseen, hsame]
        · rw [if_neg hseen, List.filter_cons, if_neg (by simpa using hspent)]
      · by_cases hseen : coinid coin ∈ s.spentcoins
        · have hstep : checkCoin p s coin = s := by simp [checkCoin, hpass, hspent, hseen]
          rw [hstep, if_pos hseen]
        · have hstep : checkCoin p s coin =
              ⟨s.coinentry ++ [coin.deepCopy], coinid coin :: s.spentcoins⟩ := by
            simp [checkCoin, hpass, hspent, hseen]
          rw [hstep, if_neg hseen, List.filter_cons, if_pos (by simpa using hspent), List.map_cons,
            List.append_assoc, List.singleton_append]
    · have hstep : checkCoin p s coin = s := by simp [checkCoin, hpass]
      rw [hstep, if_neg hpass]

/-- An `int` never exceeds the depth `INT_MAX`. -/
theorem nextDepth_le (depth : ℤ) : nextDepth depth ≤ maxDepth := by
  have h := Int.bmod_lt (x := depth + 1) (m := 2 ^ 32) (by norm_num)
  unfold nextDepth maxDepth
  omega

/-- Without a bound on the depth the loop goes over the whole branch and the MegaMMR. -/
theorem searchLoop_eq (coinsOf : BlockNode → List Coin) (megammr : Option (List Coin)) {depth : ℤ}
    (hdepth : depth ≤ maxDepth) (tip : BlockNode) (parents : List BlockNode) (s : SearchState) :
    searchLoop coinsOf p maxDepth megammr depth (tip :: parents) s =
      ((tip :: parents).flatMap coinsOf ++ megammr.getD []).foldl (checkCoin p) s := by
  induction parents generalizing tip depth s with
  | nil =>
    rw [searchLoop, if_neg (not_lt.mpr hdepth)]
    cases megammr with
    | none => simp [searchLoop]
    | some allmap =>
      simp only [if_neg (not_lt.mpr (nextDepth_le depth))]
      rw [Option.getD_some, List.flatMap_singleton, List.foldl_append]
  | cons parent parents ih =>
    rw [searchLoop, if_neg (not_lt.mpr hdepth)]
    simp only
    have htip : (tip :: parent :: parents).flatMap coinsOf = coinsOf tip ++ (parent :: parents).flatMap coinsOf :=
      List.flatMap_cons
    rw [ih (nextDepth_le depth) parent, htip, List.append_assoc, List.foldl_append (l := coinsOf tip)]

/-- **A search without a bound** returns copies of the records that it finds. -/
theorem searchCoins_eq (isAddressSimple : Text → Bool) (coinsOf : BlockNode → List Coin) (tip : BlockNode)
    (parents : List BlockNode) (f : CoinFilter) (megammr : Option (List Coin)) :
    searchCoins isAddressSimple coinsOf (tip :: parents) f none false maxDepth megammr =
      .ok ((found f.passes ((tip :: parents).flatMap coinsOf ++ megammr.getD [])).map Coin.deepCopy) := by
  have hdepth : (0 : ℤ) ≤ maxDepth := by norm_num [maxDepth]
  simp only [searchCoins, Option.all_none, Bool.and_true, if_neg Bool.false_ne_true]
  rw [searchLoop_eq coinsOf megammr hdepth, coinentry_foldl]
  simp [found]

/-! ## Exact searches -/

/-- The map of a MegaMMR: no two coins under one id. -/
abbrev CoinMap := { coins : List Coin // (coins.map Coin.coinID).Nodup }

/-- The coin records that a search of a branch sees, in its order. -/
def records (branch : List BlockNode) (megammr : Option CoinMap) : List Coin :=
  branch.flatMap BlockNode.coins ++ (megammr.map Subtype.val).getD []

/-- The ids of the coins that a branch spends. -/
def spentIDs (branch : List BlockNode) : List MiniData :=
  ((branch.flatMap BlockNode.coins).filter Coin.getSpent).map Coin.coinID

/-- No filter tells the two coins apart. -/
def SameFields (c d : Coin) : Prop :=
  c.coinID = d.coinID ∧ c.tokenID = d.tokenID ∧ c.amount.val.toRat = d.amount.val.toRat ∧
    c.address = d.address

/-- The coins are the unspent ones: created on the branch or kept by the MegaMMR, not spent on the branch,
and passing the filter; none of them twice. -/
structure Exact (branch : List BlockNode) (megammr : Option CoinMap) (f : CoinFilter)
    (coins : List Coin) : Prop where
  nodup : (coins.map Coin.coinID).Nodup
  unspent : ∀ c ∈ coins, c ∈ records branch megammr ∧ f.passes c = true ∧ c.getSpent = false ∧
    c.coinID ∉ spentIDs branch
  complete : ∀ c ∈ records branch megammr, f.passes c = true → c.getSpent = false →
    c.coinID ∉ spentIDs branch → ∃ d ∈ coins, d.coinID = c.coinID

/-- A coin that the branch spends has, in front of every record of it as unspent, a record of the spend with
the same fields. -/
def Kept (branch : List BlockNode) (megammr : Option CoinMap) : Prop :=
  ∀ newer c older, records branch megammr = newer ++ c :: older → c.getSpent = false →
    c.coinID ∈ spentIDs branch → ∃ s ∈ newer, s.getSpent = true ∧ SameFields s c

/-- The filter on all the fields of a coin. -/
def exactly (c : Coin) : CoinFilter := ⟨some c.tokenID, some c.coinID, some c.amount.val, some c.address⟩

theorem passes_exactly {c d : Coin} : (exactly c).passes d = true ↔ SameFields d c := by
  simp only [exactly, CoinFilter.passes, SameFields, Option.all_some, Bool.and_eq_true,
    MiniData.isEqual_iff, MiniNumber.isEqual_iff]
  tauto

theorem SameFields.passes {c d : Coin} (h : SameFields c d) (f : CoinFilter) : f.passes c = f.passes d := by
  obtain ⟨hid, htoken, hamount, haddress⟩ := h
  have hequal : ∀ x : MiniNumber, c.amount.val.isEqual x = d.amount.val.isEqual x := by
    intro x
    rw [Bool.eq_iff_iff, MiniNumber.isEqual_iff, MiniNumber.isEqual_iff, hamount]
  simp only [CoinFilter.passes, hid, htoken, haddress, hequal]

theorem coinid_inj {c d : Coin} : coinid c = coinid d ↔ c.coinID = d.coinID :=
  ⟨fun h => MiniData.to0xString_injective h, fun h => congrArg MiniData.to0xString h⟩

/-- A record of a branch that is not spent there is a record of an unspent coin. -/
theorem getSpent_of_notMem_spentIDs {branch : List BlockNode} {c : Coin}
    (hc : c ∈ branch.flatMap BlockNode.coins) (hid : c.coinID ∉ spentIDs branch) : c.getSpent = false := by
  by_contra hspent
  rw [Bool.not_eq_false] at hspent
  exact hid (List.mem_map_of_mem (List.mem_filter.mpr ⟨hc, hspent⟩))

/-- A record that is found has no record of its id in front of it that passes. -/
theorem of_mem_found {l : List Coin} {c : Coin} (h : c ∈ found p l) :
    p c = true ∧ c.getSpent = false ∧
      ∃ newer older, l = newer ++ c :: older ∧ ∀ s ∈ newer, p s = true → s.coinID ≠ c.coinID := by
  rw [found, List.mem_filter, NewestRecords.mem_newest, Bool.not_eq_true'] at h
  obtain ⟨⟨l₁, l₂, hl, hl₁⟩, hspent⟩ := h
  obtain ⟨newer, rest, rfl, rfl, hrest⟩ := List.filter_eq_append_iff.mp hl
  obtain ⟨skipped, older, rfl, hskipped, hc, -⟩ := List.filter_eq_cons_iff.mp hrest
  refine ⟨hc, hspent, newer ++ skipped, older, by simp, fun s hs hpass heq => ?_⟩
  rcases List.mem_append.mp hs with hs | hs
  · exact hl₁ s (List.mem_filter.mpr ⟨hs, hpass⟩) (coinid_inj.mpr heq)
  · exact hskipped s hs hpass

/-- The newest record that passes is found when it is unspent. -/
theorem exists_newest {l : List Coin} (l' : List Coin) {c : Coin} (hc : c ∈ l) (hpass : p c = true) :
    ∃ d ∈ l, p d = true ∧ d.coinID = c.coinID ∧ (d.getSpent = false → d ∈ found p (l ++ l')) := by
  obtain ⟨d, hd, heq⟩ := NewestRecords.exists_mem_newest coinid (List.mem_filter.mpr ⟨hc, hpass⟩)
  obtain ⟨hmem, hdpass⟩ := List.mem_filter.mp (NewestRecords.mem_of_mem_newest coinid hd)
  refine ⟨d, hmem, hdpass, coinid_inj.mp heq, fun hspent => List.mem_filter.mpr ⟨?_, by simpa using hspent⟩⟩
  rw [List.filter_append]
  exact NewestRecords.mem_newest_append_left coinid hd

theorem nodup_found (l : List Coin) : ((found p l).map Coin.coinID).Nodup := by
  have h := (NewestRecords.nodup_map_newest coinid (l.filter p)).sublist
    ((List.filter_sublist (p := fun c => !c.getSpent)).map coinid)
  refine List.Nodup.of_map MiniData.to0xString ?_
  rwa [List.map_map]

/-- **A search is complete** on every branch. -/
theorem found_complete {branch : List BlockNode} {megammr : Option CoinMap} {c : Coin}
    (hc : c ∈ records branch megammr) (hpass : p c = true) (hspent : c.getSpent = false)
    (hid : c.coinID ∉ spentIDs branch) : ∃ d ∈ found p (records branch megammr), d.coinID = c.coinID := by
  rcases List.mem_append.mp hc with hbranch | hmega
  · obtain ⟨d, hd, -, heq, hfound⟩ := exists_newest _ hbranch hpass
    exact ⟨d, hfound (getSpent_of_notMem_spentIDs hd (heq ▸ hid)), heq⟩
  · obtain ⟨d, hd, -, heq, hfound⟩ := exists_newest [] hc hpass
    rw [List.append_nil] at hfound
    refine ⟨d, hfound ?_, heq⟩
    rcases List.mem_append.mp hd with hd | hd
    · exact getSpent_of_notMem_spentIDs hd (heq ▸ hid)
    · -- the MegaMMR has one record of the id
      cases megammr with
      | none => cases hmega
      | some coins => exact List.inj_on_of_nodup_map coins.2 hd hmega heq ▸ hspent

/-- Where the records of the spends are kept, nothing spent is found. -/
theorem Kept.exact {branch : List BlockNode} {megammr : Option CoinMap} (h : Kept branch megammr)
    (f : CoinFilter) : Exact branch megammr f (found f.passes (records branch megammr)) where
  nodup := nodup_found _
  unspent c hc := by
    obtain ⟨hpass, hspent, newer, older, hl, hnewer⟩ := of_mem_found hc
    refine ⟨hl ▸ by simp, hpass, hspent, fun hid => ?_⟩
    obtain ⟨s, hs, -, hsame⟩ := h newer c older hl hspent hid
    exact hnewer s hs (hsame.passes f ▸ hpass) hsame.1
  complete _ hc hpass hspent hid := found_complete hc hpass hspent hid

/-- An exact search for the fields of a coin shows the record of its spend. -/
theorem kept_of_exact {branch : List BlockNode} {megammr : Option CoinMap}
    (h : ∀ f : CoinFilter, Exact branch megammr f (found f.passes (records branch megammr))) :
    Kept branch megammr := by
  intro newer c older hl hspent hid
  have hself : (exactly c).passes c = true := passes_exactly.mpr ⟨rfl, rfl, rfl, rfl⟩
  have hc : c ∈ newer ++ [c] := by simp
  obtain ⟨d, hd, hdpass, heq, hfound⟩ := exists_newest older hc hself
  rw [List.append_assoc, List.singleton_append, ← hl] at hfound
  have hdspent : d.getSpent = true := by
    by_contra hunspent
    exact ((h (exactly c)).unspent d (hfound (Bool.not_eq_true _ ▸ hunspent))).2.2.2 (heq ▸ hid)
  rcases List.mem_append.mp hd with hd | hd
  · exact ⟨d, hd, hdspent, passes_exactly.mp hdpass⟩
  · rw [List.mem_singleton.mp hd, hspent] at hdspent
    cases hdspent

/-- **A search of a branch** up to the root and with or without the MegaMMR returns a copy of every record
that it finds, and that these are exactly the unspent coins, whatever the filter, holds on the branches that
keep the records of their spends. -/
theorem searchCoins_exact_iff (isAddressSimple : Text → Bool) (tip : BlockNode) (parents : List BlockNode)
    (megammr : Option CoinMap) :
    (∀ f : CoinFilter, searchCoins isAddressSimple BlockNode.coins (tip :: parents) f none false maxDepth
        (megammr.map Subtype.val) =
      .ok ((found f.passes (records (tip :: parents) megammr)).map Coin.deepCopy)) ∧
    ((∀ f : CoinFilter, Exact (tip :: parents) megammr f
        (found f.passes (records (tip :: parents) megammr))) ↔ Kept (tip :: parents) megammr) :=
  ⟨fun f => searchCoins_eq isAddressSimple BlockNode.coins tip parents f _,
    kept_of_exact, fun h f => h.exact f⟩

/-! ### A spend with another amount -/

section Sample

open TxPowTree

/-- The node of a block. -/
def nodeOf (C : Crypto) (b : TxBlock) : Result BlockNode := do
  let s ← TxPoWTreeNode.constructMMR C b
  return ⟨b, s.1, s.2, []⟩

/-- A block that makes a coin of amount one. -/
def creatingBlock : TxBlock :=
  ⟨sampleTxPoW (headerOn MiniData.zeroTxPowID 0 TxPoW.oneStored TxPoW.zero_lt_limit), [], [],
    [Transaction.sampleCoin 1 Transaction.sampleOne Token.TOKENID_MINIMA]⟩

/-- A block on it that spends the coin as one of amount ten. -/
def spendingBlock : TxBlock :=
  ⟨sampleTxPoW (headerOn creatingBlock.txpow.txPoWID 1 TxPoW.oneStored TxPoW.one_lt_limit),
    [⟨0, .ofInt 0, some ⟨⟨[1]⟩, .ofInt 1, false, MiniNumber.canonical_one⟩, false⟩],
    [⟨Transaction.sampleCoin 1 Transaction.sampleTen Token.TOKENID_MINIMA, ⟨.zero, []⟩⟩], []⟩

/-- The search for the amount one finds the coin that the branch spends: the record of the spend does not
pass the filter. -/
theorem not_searchCoins_exact : ∃ tip parent, nodeOf sumHash spendingBlock = .ok tip ∧
    nodeOf sumHash creatingBlock = .ok parent ∧
    ¬ Exact [tip, parent] none ⟨none, none, some (.ofInt 1), none⟩
      (found (CoinFilter.passes ⟨none, none, some (.ofInt 1), none⟩) (records [tip, parent] none)) := by
  have hspending : (nodeOf sumHash spendingBlock).map BlockNode.coins =
      .ok [(Transaction.sampleCoin 1 Transaction.sampleTen Token.TOKENID_MINIMA).setSpent true] := by
    decide +kernel
  have hcreating : (nodeOf sumHash creatingBlock).map BlockNode.coins =
      .ok [Transaction.sampleCoin 1 Transaction.sampleOne Token.TOKENID_MINIMA] := by
    decide +kernel
  obtain ⟨tip, htip, htipCoins⟩ := Result.map_eq_ok.mp hspending
  obtain ⟨parent, hparent, hparentCoins⟩ := Result.map_eq_ok.mp hcreating
  have hrecords : [tip, parent].flatMap BlockNode.coins =
      [(Transaction.sampleCoin 1 Transaction.sampleTen Token.TOKENID_MINIMA).setSpent true,
        Transaction.sampleCoin 1 Transaction.sampleOne Token.TOKENID_MINIMA] := by
    simp [htipCoins, hparentCoins]
  refine ⟨tip, parent, htip, hparent, fun hexact => ?_⟩
  have hunspent := (hexact.unspent (Transaction.sampleCoin 1 Transaction.sampleOne Token.TOKENID_MINIMA)
    (by rw [records, hrecords]; decide +kernel)).2.2.2
  rw [spentIDs, hrecords] at hunspent
  exact hunspent (by decide +kernel)

end Sample

end TxPoWSearcher

end Minima
