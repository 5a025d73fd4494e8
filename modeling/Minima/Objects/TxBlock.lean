import Minima.Objects.TxPoW

/-! # `TxBlock`: a block with what its MMR needs

A `TxBlock` carries a `TxPoW` together with the peaks of the MMR before it, the proofs of the coins it
spends and the coins it makes, so that the MMR of the block can be built without its transactions. -/

namespace Minima

/-- `TxBlock`, without the removed states, which are not part of the stream. -/
structure TxBlock where
  txpow : TxPoW
  previousPeaks : List MMREntry
  spentCoins : List CoinProof
  newCoins : List Coin
  deriving DecidableEq

namespace TxBlock

/-- `writeDataStream`. -/
def writeDataStream (b : TxBlock) : Result (List Byte) := do
  let txpow ← b.txpow.writeDataStream
  let peaks ← Coin.writeAll MMREntry.writeDataStream b.previousPeaks
  let spent ← Coin.writeAll CoinProof.writeDataStream b.spentCoins
  let coins ← Coin.writeAll Coin.writeDataStream b.newCoins
  return txpow ++ (MiniNumber.ofInt b.previousPeaks.length).writeDataStream ++ peaks ++
    (MiniNumber.ofInt b.spentCoins.length).writeDataStream ++ spent ++
    (MiniNumber.ofInt b.newCoins.length).writeDataStream ++ coins

/-- A coin proof is moved out of its pointer, which is null after an exception. -/
def readSpentCoin : Reader CoinProof := do
  let cp ← CoinProof.readFromStream
  match cp with
  | some cp => return cp
  | none => Reader.lift (undefinedBehaviour "null CoinProof")

/-- `readDataStream`. -/
def readDataStream (C : Crypto) (weightText : ℕ → Text) : Reader TxBlock := do
  let txpow ← TxPoW.readDataStream C weightText
  let peaksLength ← MiniNumber.getAsInt <$> MiniNumber.readDataStream
  let previousPeaks ← Reader.readVector MMREntry.readDataStream peaksLength
  let spentLength ← MiniNumber.getAsInt <$> MiniNumber.readDataStream
  let spentCoins ← Reader.readVector readSpentCoin spentLength
  let coinsLength ← MiniNumber.getAsInt <$> MiniNumber.readDataStream
  let newCoins ← Reader.readVector Coin.readDataStream coinsLength
  return ⟨txpow, previousPeaks, spentCoins, newCoins⟩

end TxBlock

end Minima
