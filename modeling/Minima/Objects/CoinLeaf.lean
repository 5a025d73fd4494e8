import Minima.Mmr.HashLabels
import Minima.Objects.Codec

/-! # The leaf of a coin

The leaf of a coin in the MMR is made from its encoding and a value: the amount, or nothing when the coin
is spent. A hash without collisions determines the coin, all but the texts of the numbers in its state,
which another text can be encoded like.

* **`Coin.Agrees`** — two coins agree in everything but their state.
* **`Coin.same_of_bytes`** — coins with one encoding.
* **`Coin.LeafOf`** — hash and value of the leaf of a coin. -/

namespace Minima

namespace Coin

variable {C : Crypto}

/-- A coin without its state. -/
def stateless (c : Coin) : Coin := { c with state := [] }

/-- The coins agree in everything but their state. -/
def Agrees (c d : Coin) : Prop := c.stateless = d.stateless

namespace Agrees

variable {c d : Coin}

theorem coinID (h : Agrees c d) : c.coinID = d.coinID := (congrArg Coin.coinID h :)

theorem amount (h : Agrees c d) : c.amount = d.amount := (congrArg Coin.amount h :)

theorem mmrEntryNumber (h : Agrees c d) : c.mmrEntryNumber = d.mmrEntryNumber :=
  (congrArg Coin.mmrEntryNumber h :)

theorem spent (h : Agrees c d) : c.spent = d.spent := (congrArg Coin.spent h :)

theorem getSpent (h : Agrees c d) : c.getSpent = d.getSpent := by
  rw [Coin.getSpent, Coin.getSpent, h.spent]

theorem value (h : Agrees c d) : c.value = d.value := by rw [Coin.value, Coin.value, h.amount]

theorem symm (h : Agrees c d) : Agrees d c := Eq.symm h

theorem trans {e : Coin} (h : Agrees c d) (h' : Agrees d e) : Agrees c e := Eq.trans h h'

end Agrees

theorem agrees_state (c : Coin) (state : List StateVariable) : Agrees { c with state } c := rfl

/-- What a coin arrives as, once it can be written. -/
theorem arrives {c : Coin} (h : c.Wire) {bs : List Byte} (hwrite : c.writeDataStream = .ok bs) :
    ∃ state, Reads readDataStream bs { c with state } := by
  have hwrite' := hwrite
  simp only [writeDataStream_eq, Result.bind_eq_ok] at hwrite
  obtain ⟨_, -, _, -, _, -, ss, hss, -⟩ := hwrite
  obtain ⟨state, hstate, -⟩ := Transmits.settles_vector
    (fun sv hsv _ => StateVariable.settles (h.state sv hsv)) hss
  obtain ⟨bs', hbs, hread⟩ := sends h hstate
  rw [hwrite', Except.ok.injEq] at hbs
  exact ⟨state, hbs ▸ hread⟩

/-- **Coins with one encoding** agree, and so does what follows them. -/
theorem same_of_bytes {c d : Coin} (hc : c.Wire) (hd : d.Wire) {bs bs' rest rest' : List Byte}
    (hbs : c.writeDataStream = .ok bs) (hbs' : d.writeDataStream = .ok bs') (h : bs ++ rest = bs' ++ rest') :
    Agrees c d ∧ rest = rest' := by
  obtain ⟨state, hread⟩ := arrives hc hbs
  obtain ⟨state', hread'⟩ := arrives hd hbs'
  have hboth := hread rest
  rw [h, hread' rest', Prod.mk.injEq, Except.ok.injEq] at hboth
  obtain ⟨hcoin, hrest⟩ := hboth
  have hsame : Agrees { d with state := state' } { c with state } := congrArg stateless hcoin
  exact ⟨hsame.symm, hrest.symm⟩

/-- **A copy of a coin** can be written, and agrees with it. -/
theorem deepCopy_spec {c copy : Coin} (h : c.Wire) (hcopy : c.deepCopy = some copy) :
    (∃ bs, c.writeDataStream = .ok bs) ∧ copy.Wire ∧ Agrees copy c := by
  unfold deepCopy at hcopy
  cases hwrite : c.writeDataStream with
  | error e =>
    rw [hwrite] at hcopy
    cases hcopy
  | ok bs =>
    obtain ⟨state, hread⟩ := arrives h hwrite
    have hread' := hread []
    rw [List.append_nil] at hread'
    rw [hwrite] at hcopy
    simp only [hread', Option.some.injEq] at hcopy
    subst hcopy
    exact ⟨⟨bs, rfl⟩, yields hread', agrees_state c state⟩

/-- Another entry number, block or flag does not keep a coin from the wire. -/
theorem Wire.setLeaf {c : Coin} (h : c.Wire) {number : MMREntryNumber} (hnumber : number.Wire) (spent : Byte)
    (block : StoredNumber) :
    Wire { c with mmrEntryNumber := number, blockCreated := block, spent := spent } :=
  ⟨h.coinID, h.address, h.tokenID, hnumber, h.length, h.state, h.token⟩

theorem Wire.setSpent {c : Coin} (h : c.Wire) (b : Bool) : (c.setSpent b).Wire :=
  h.setLeaf h.number _ c.blockCreated

/-! ## Leaves -/

/-- The value of the leaf of a coin: a spent one has none. -/
def leafValue (c : Coin) : MiniNumber := if c.getSpent then .zero else c.amount.val

theorem leafValue_canonical (c : Coin) : c.leafValue.Canonical := by
  unfold leafValue
  split_ifs
  · exact MiniNumber.canonical_zero
  · exact c.amount.property

/-- **Hash and value of the leaf of a coin.** -/
def LeafOf (C : Crypto) (c : Coin) (a : MiniData × ℚ) : Prop :=
  ∃ bytes, c.writeDataStream = .ok bytes ∧
    a = (⟨C.hashData (MMRData.leafBytes bytes c.leafValue)⟩, c.leafValue.toRat)

theorem LeafOf.leafHash {c : Coin} {a : MiniData × ℚ} (h : LeafOf C c a) : MMR.LeafHash C a.1 := by
  obtain ⟨bytes, -, rfl⟩ := h
  exact ⟨bytes, c.leafValue, rfl⟩

theorem LeafOf.value {c : Coin} {a : MiniData × ℚ} (h : LeafOf C c a) : a.2 = c.leafValue.toRat := by
  obtain ⟨_, -, rfl⟩ := h
  rfl

/-- The leaf that is made of a coin with its value. -/
theorem leafOf_create {c : Coin} {bytes : List Byte} (hwrite : c.writeDataStream = .ok bytes) {d : MMRData}
    (h : MMRData.createMMRDataLeafNode C c.writeDataStream c.leafValue = .ok d) : LeafOf C c d.content := by
  rw [hwrite] at h
  obtain ⟨hvalue, hdata⟩ := MMRData.createMMRDataLeafNode_data h
  rw [MiniNumber.copy_of_canonical c.leafValue_canonical, Except.ok.injEq] at hvalue
  refine ⟨bytes, hwrite, ?_⟩
  rw [MMRData.content, hdata, ← hvalue]

/-- The leaf that a check makes of a coin: its value is the amount, whether the coin is spent or not. -/
theorem getMMRData_spec {p : CoinProof} {bytes : List Byte} (hwrite : p.coin.writeDataStream = .ok bytes)
    {d : MMRData} (h : p.getMMRData C = .ok d) :
    d.content = (⟨C.hashData (MMRData.leafBytes bytes p.coin.amount.val)⟩, p.coin.value) := by
  unfold CoinProof.getMMRData at h
  rw [hwrite] at h
  obtain ⟨hvalue, hdata⟩ := MMRData.createMMRDataLeafNode_data h
  rw [MiniNumber.copy_of_canonical p.coin.amount.property, Except.ok.injEq] at hvalue
  rw [MMRData.content, hdata, ← hvalue]
  rfl

/-- **The coin at a leaf is the one that is shown:** with a hash without collisions, a leaf of a coin that
is worth something can only be shown unspent, by a coin that agrees with it. -/
theorem LeafOf.same (hC : Function.Injective C.hashData) {c d : Coin} (hc : c.Wire) (hd : d.Wire)
    (hpos : c.value ≠ 0) {a : MiniData × ℚ} (h : LeafOf C c a) {bytes : List Byte}
    (hwrite : d.writeDataStream = .ok bytes)
    (heq : a.1 = ⟨C.hashData (MMRData.leafBytes bytes d.amount.val)⟩) :
    Agrees d c ∧ c.getSpent = false ∧ a.2 = d.value := by
  obtain ⟨bytes', hwrite', rfl⟩ := h
  have hbytes := MMR.leafBytes_inj hC heq
  obtain ⟨hsame, hvalue⟩ := same_of_bytes hc hd hwrite' hwrite hbytes
  have hnumber := MMR.writeDataStream_inj c.leafValue_canonical d.amount.property hvalue
  refine ⟨hsame.symm, ?_, congrArg MiniNumber.toRat hnumber⟩
  cases hspent : c.getSpent with
  | false => rfl
  | true =>
    rw [leafValue, hspent, if_pos rfl] at hnumber
    refine absurd ?_ hpos
    rw [hsame.value, Coin.value, ← hnumber, MiniNumber.toRat_zero]

end Coin

end Minima
