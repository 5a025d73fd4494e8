import Minima.Lib.Grouping
import Minima.Lib.OrderStatistic
import Minima.Objects.Coin
import Minima.Utils.BaseConverter

/-! # The coins that `send` spends

`orderCoins` sorts the coins by amount, the largest first, and then puts the coins of one address
together. `selectCoins` runs through the coins in this order. It remembers each available coin that
covers the amount and stops at the first available one that does not; the coin it remembers is sent
alone, and when there is none the whole list is returned.

The scan stops at a coin that is too small, although a later address may hold a coin that covers the
amount.

* **`selectCoins_eq`** — the scan, in terms of the available coins.
* **`exists_coin_of_addressRank_lt`** — the addresses are ordered by their largest coins.
* **`selectCoins_best_iff`** — when the coin that is found is the best one. -/

namespace Minima

/-- A sort by amount, the largest amount first. `std::sort` is free where amounts are equal. -/
abbrev CoinSort := SortBy fun c : Coin => OrderDual.toDual c.amount.val.toRat

/-- What `send` knows of the coins in use: the ids of the coins being mined, as texts, and the coins of
the transactions in the mempool. -/
structure CoinsInUse where
  mMiningCoins : List Text
  mempool : List MiniData

namespace CoinsInUse

/-- `checkForMiningCoin`. -/
def checkForMiningCoin (use : CoinsInUse) (zCoinID : Text) : Bool := use.mMiningCoins.contains zCoinID

/-- `checkMempoolCoins`. -/
def checkMempoolCoins (use : CoinsInUse) (zCoinID : MiniData) : Bool := use.mempool.contains zCoinID

/-- The coin is neither being mined nor in the mempool. -/
def available (use : CoinsInUse) (c : Coin) : Bool :=
  !use.checkForMiningCoin c.coinID.to0xString && !use.checkMempoolCoins c.coinID

end CoinsInUse

namespace Send

/-- The text of the address, by which the coins are grouped. -/
def addressText (c : Coin) : Text := c.address.to0xString

/-- The addresses in the order in which they first appear in the sorted list. -/
def addresses (sort : CoinSort) (zCoins : List Coin) : List Text :=
  Grouping.distinct ((sort.arrange zCoins).map addressText)

/-- `orderCoins`. -/
def orderCoins (sort : CoinSort) (zCoins : List Coin) : List Coin :=
  Grouping.group addressText (addresses sort zCoins) (sort.arrange zCoins)

/-- The loop of `selectCoins`, with the coin found so far. -/
def scanCoins (use : CoinsInUse) (zAmountRequired : MiniNumber) : Option Coin → List Coin → Option Coin
  | found, [] => found
  | found, coin :: coins =>
    if use.checkForMiningCoin coin.coinID.to0xString then scanCoins use zAmountRequired found coins
    else if use.checkMempoolCoins coin.coinID then scanCoins use zAmountRequired found coins
    else if coin.amount.val.isMoreEqual zAmountRequired then
      scanCoins use zAmountRequired (some coin) coins
    else found

/-- `selectCoins`. -/
def selectCoins (sort : CoinSort) (use : CoinsInUse) (zAllCoins : List Coin)
    (zAmountRequired : MiniNumber) : List Coin :=
  let coinlist := orderCoins sort zAllCoins
  match scanCoins use zAmountRequired none coinlist with
  | some currentcoin => [currentcoin]
  | none => coinlist

/-! ## The order -/

theorem orderCoins_perm (sort : CoinSort) (coins : List Coin) : (orderCoins sort coins).Perm coins :=
  (Grouping.group_perm _).trans (sort.arrange_perm coins)

theorem mem_orderCoins {sort : CoinSort} {coins : List Coin} {c : Coin} :
    c ∈ orderCoins sort coins ↔ c ∈ coins :=
  (orderCoins_perm sort coins).mem_iff

/-- The place of a coin's address among the addresses. -/
def addressRank (sort : CoinSort) (coins : List Coin) (c : Coin) : ℕ :=
  Grouping.place (addresses sort coins) (addressText c)

/-- **The addresses are ordered by their largest coins**: an earlier address has a coin at least as
large as any coin of a later one. -/
theorem exists_coin_of_addressRank_lt {sort : CoinSort} {coins : List Coin} {x y : Coin} (hx : x ∈ coins)
    (hy : y ∈ coins) (hlt : addressRank sort coins x < addressRank sort coins y) :
    ∃ a ∈ coins, a.address = x.address ∧ y.amount.val.toRat ≤ a.amount.val.toRat := by
  have hmem := fun c => (sort.arrange_perm coins).mem_iff (a := c)
  obtain ⟨a, ha, hkey, hle⟩ := @Grouping.exists_of_idxOf_lt _ _ _ addressText _ _
    (sort.arrange_sorted coins) _ _ ((hmem x).mpr hx) ((hmem y).mpr hy) hlt
  exact ⟨a, (hmem a).mp ha, MiniData.to0xString_injective hkey, OrderDual.toDual_le_toDual.mp hle⟩

/-- The coins come by address, and those of one address from the largest down. -/
theorem orderCoins_pairwise (sort : CoinSort) (coins : List Coin) :
    (orderCoins sort coins).Pairwise fun a b =>
      addressRank sort coins a < addressRank sort coins b ∨
        (addressRank sort coins a = addressRank sort coins b ∧
          b.amount.val.toRat ≤ a.amount.val.toRat) := by
  refine (@Grouping.pairwise_group _ _ _ addressText _ _ (Grouping.nodup_distinct _) _
    (sort.arrange_sorted coins)).imp ?_
  rintro a b (hlt | ⟨heq, hle⟩)
  · exact .inl hlt
  · exact .inr ⟨congrArg (Grouping.place (addresses sort coins)) heq, OrderDual.toDual_le_toDual.mp hle⟩

/-! ## The scan -/

/-- The comparison of the loop. -/
def reaches (zAmountRequired : MiniNumber) (c : Coin) : Bool := c.amount.val.isMoreEqual zAmountRequired

theorem reaches_iff {required : MiniNumber} {c : Coin} :
    reaches required c = true ↔ required.toRat ≤ c.amount.val.toRat :=
  MiniNumber.isMoreEqual_iff _ _

/-- The coins that the loop remembers, one after the other. -/
def reached (sort : CoinSort) (use : CoinsInUse) (coins : List Coin) (required : MiniNumber) : List Coin :=
  ((orderCoins sort coins).filter use.available).takeWhile (reaches required)

theorem scanCoins_eq (use : CoinsInUse) (zAmountRequired : MiniNumber) (found : Option Coin)
    (coins : List Coin) :
    scanCoins use zAmountRequired found coins =
      ((coins.filter use.available).takeWhile (reaches zAmountRequired)).getLast?.or found := by
  induction coins generalizing found with
  | nil => rfl
  | cons c cs ih =>
    rw [scanCoins, List.filter_cons, CoinsInUse.available]
    cases hmining : use.checkForMiningCoin c.coinID.to0xString with
    | true => simp [ih]
    | false =>
      cases hpool : use.checkMempoolCoins c.coinID with
      | true => simp [ih]
      | false =>
        change (if reaches zAmountRequired c = true then _ else _) = _
        cases hreaches : reaches zAmountRequired c with
        | true =>
          simp only [if_true, Bool.not_false, Bool.and_self, ih, List.takeWhile_cons, hreaches,
            List.getLast?_cons]
          cases (List.takeWhile _ (cs.filter use.available)).getLast? <;> rfl
        | false => simp [hreaches]

/-- **The scan**: the last of the available coins in front of the first one that is too small, or
else the whole list. -/
theorem selectCoins_eq (sort : CoinSort) (use : CoinsInUse) (coins : List Coin) (required : MiniNumber) :
    selectCoins sort use coins required =
      match (reached sort use coins required).getLast? with
      | some c => [c]
      | none => orderCoins sort coins := by
  rw [selectCoins, scanCoins_eq, Option.or_none]
  rfl

/-- What is selected are coins of the list, none of them more often than there. -/
theorem selectCoins_subperm (sort : CoinSort) (use : CoinsInUse) (coins : List Coin)
    (required : MiniNumber) : (selectCoins sort use coins required).Subperm coins := by
  rw [selectCoins_eq]
  split
  next c hc =>
    have hmem := (List.takeWhile_sublist _).mem (List.mem_of_getLast? hc)
    exact List.singleton_subperm_iff.mpr (mem_orderCoins.mp (List.mem_filter.mp hmem).1)
  next => exact (orderCoins_perm sort coins).subperm

/-! ## The best coin -/

/-- The coin is available and covers the amount alone. -/
def Covers (use : CoinsInUse) (required : MiniNumber) (c : Coin) : Prop :=
  use.available c = true ∧ required.toRat ≤ c.amount.val.toRat

/-- The coin is available and too small. -/
def TooSmall (use : CoinsInUse) (required : MiniNumber) (c : Coin) : Prop :=
  use.available c = true ∧ c.amount.val.toRat < required.toRat

/-- No coin that covers the amount is smaller. -/
def Best (use : CoinsInUse) (required : MiniNumber) (coins : List Coin) (c : Coin) : Prop :=
  c ∈ coins ∧ Covers use required c ∧
    ∀ d ∈ coins, Covers use required d → c.amount.val.toRat ≤ d.amount.val.toRat

section Available

variable (sort : CoinSort) {use : CoinsInUse} {coins : List Coin} {required : MiniNumber} {c : Coin}

theorem covers_iff :
    c ∈ coins ∧ Covers use required c ↔
      c ∈ (orderCoins sort coins).filter use.available ∧ reaches required c = true := by
  rw [List.mem_filter, mem_orderCoins, reaches_iff, Covers, and_assoc]

theorem tooSmall_iff :
    c ∈ coins ∧ TooSmall use required c ↔
      c ∈ (orderCoins sort coins).filter use.available ∧ reaches required c = false := by
  rw [List.mem_filter, mem_orderCoins, ← Bool.not_eq_true, reaches_iff, not_le, TooSmall, and_assoc]

/-- The coins that the loop remembers cover the amount. -/
theorem covers_of_mem_reached (h : c ∈ reached sort use coins required) :
    c ∈ coins ∧ Covers use required c :=
  (covers_iff sort).mpr ⟨(List.takeWhile_sublist _).mem h, List.mem_takeWhile_imp h⟩

/-- Without a coin that covers the amount the list is returned, in another order. -/
theorem selectCoins_perm (h : ¬ ∃ c ∈ coins, Covers use required c) :
    (selectCoins sort use coins required).Perm coins := by
  rw [selectCoins_eq]
  split
  next c hc => exact absurd ⟨c, covers_of_mem_reached sort (List.mem_of_getLast? hc)⟩ h
  next => exact orderCoins_perm sort coins

/-- The best coin is returned alone exactly when the scan remembers it: a list with nothing but a coin
that covers the amount is no exception. -/
theorem exists_selectCoins_best_iff :
    (∃ c, selectCoins sort use coins required = [c] ∧ Best use required coins c) ↔
      ∃ c, (reached sort use coins required).getLast? = some c ∧
        ∀ d ∈ coins, Covers use required d → c.amount.val.toRat ≤ d.amount.val.toRat := by
  rw [selectCoins_eq]
  cases hlast : (reached sort use coins required).getLast? with
  | some c =>
    have hcovers := covers_of_mem_reached sort (List.mem_of_getLast? hlast)
    constructor
    · rintro ⟨d, hd, hbest⟩
      rw [← List.singleton_inj.mp hd] at hbest
      exact ⟨c, rfl, hbest.2.2⟩
    · rintro ⟨d, hd, hall⟩
      obtain rfl := Option.some.inj hd
      exact ⟨c, rfl, hcovers.1, hcovers.2, hall⟩
  | none =>
    constructor
    · rintro ⟨d, hd, hbest⟩
      have hcovers := (covers_iff sort).mp ⟨hbest.1, hbest.2.1⟩
      have hd : orderCoins sort coins = [d] := hd
      rw [reached, hd, List.filter_cons_of_pos (List.mem_filter.mp hcovers.1).2,
        List.takeWhile_cons_of_pos hcovers.2, List.getLast?_cons] at hlast
      exact absurd hlast (Option.some_ne_none _)
    · rintro ⟨c, hc, -⟩
      exact absurd hc.symm (Option.some_ne_none c)

end Available

/-- **When the best coin is selected.** If some available coin covers the amount, the one of the least
amount that does is returned alone, and otherwise the whole list, exactly when there is such a coin
with these two properties: no address in front of its own, in the order of their largest coins, holds
an available coin that is too small, and one that is too small stands between it and every later
address that holds a coin covering the amount. -/
theorem selectCoins_best_iff (sort : CoinSort) (use : CoinsInUse) (coins : List Coin)
    (required : MiniNumber) :
    (((∃ c ∈ coins, Covers use required c) →
        ∃ c, selectCoins sort use coins required = [c] ∧ Best use required coins c) ∧
      ((¬ ∃ c ∈ coins, Covers use required c) → (selectCoins sort use coins required).Perm coins)) ↔
      ((∃ c ∈ coins, Covers use required c) →
        ∃ c, Best use required coins c ∧
          (∀ a ∈ coins, TooSmall use required a → addressRank sort coins c ≤ addressRank sort coins a) ∧
          ∀ b ∈ coins, Covers use required b → addressRank sort coins c < addressRank sort coins b →
            ∃ a ∈ coins, TooSmall use required a ∧ addressRank sort coins c ≤ addressRank sort coins a ∧
              addressRank sort coins a < addressRank sort coins b) := by
  rw [and_iff_left (selectCoins_perm sort)]
  refine forall_congr' fun _ => ?_
  rw [exists_selectCoins_best_iff]
  have hscan := Grouping.getLast_takeWhile_least_iff (v := fun c : Coin => c.amount.val.toRat)
    (p := reaches required) ((orderCoins_pairwise sort coins).filter use.available)
    (fun {a b} ha hab => reaches_iff.mpr ((reaches_iff.mp ha).trans hab))
  rw [← reached] at hscan
  -- both sides range over the available coins, which the scan reads in the order of `orderCoins`
  simp only [Best, ← and_imp, ← and_assoc] at hscan ⊢
  simp only [← covers_iff, ← tooSmall_iff] at hscan
  exact hscan

/-- Some sort by amount: insertion sort. -/
def insertionByAmount : CoinSort :=
  .insertion _ (fun a b => b.amount.val.isLessEqual a.amount.val) fun _ _ => by
    rw [MiniNumber.isLessEqual_iff, OrderDual.toDual_le_toDual]

/-- A coin of an amount at an address. -/
def coinAt (id address : Byte) (amount : StoredNumber) : Coin where
  coinID := ⟨[id]⟩
  address := ⟨[address]⟩
  amount := amount
  tokenID := Token.TOKENID_MINIMA
  storeState := false
  state := []
  mmrEntryNumber := default
  spent := 0
  blockCreated := ⟨.zero, by decide⟩
  token := none

/-- Two coins at one address and one at another. -/
def threeCoins : List Coin :=
  [coinAt 1 1 ⟨.ofInt 10, by decide⟩, coinAt 2 1 ⟨.one, by decide⟩, coinAt 3 2 ⟨.ofInt 5, by decide⟩]

/-- **The best coin is missed**: to pay 3, the coin of 10 is sent although the coin of 5 covers the
amount, since the scan stops at the coin of 1 at the first address. -/
theorem selectCoins_not_best :
    (∃ c ∈ threeCoins, Covers ⟨[], []⟩ (.ofInt 3) c) ∧
      ¬ ∃ c, selectCoins insertionByAmount ⟨[], []⟩ threeCoins (.ofInt 3) = [c] ∧
        Best ⟨[], []⟩ (.ofInt 3) threeCoins c := by
  have hsmaller : Covers ⟨[], []⟩ (.ofInt 3) (coinAt 3 2 ⟨.ofInt 5, by decide⟩) :=
    ⟨by decide, (MiniNumber.isMoreEqual_iff _ _).mp (by decide)⟩
  have hmem : coinAt 3 2 ⟨.ofInt 5, by decide⟩ ∈ threeCoins := by simp [threeCoins]
  refine ⟨⟨_, hmem, hsmaller⟩, ?_⟩
  rintro ⟨c, hc, -, -, hleast⟩
  have hselected : selectCoins insertionByAmount ⟨[], []⟩ threeCoins (.ofInt 3) =
      [coinAt 1 1 ⟨.ofInt 10, by decide⟩] := by decide
  rw [hselected, List.singleton_inj] at hc
  have hle := hleast _ hmem hsmaller
  rw [← hc, ← MiniNumber.isLessEqual_iff] at hle
  exact absurd hle (by decide)

end Send

end Minima
