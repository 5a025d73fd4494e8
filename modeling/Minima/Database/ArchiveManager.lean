import Minima.Lib.NumberedChain
import Minima.Objects.RoundTrip

/-! # `ArchiveManager`: the table of archived blocks

The archive is the table `syncblock` of a database: one row for a block, with its id, its number as a
`long long` and its bytes. Ids and numbers are unique in the table, and a block that would break this
is ignored.

* **`Archive.saveBlock`** — whether a row comes in, and the table behind it.
* **`Archive.loadLastBlock`** — the block with the lowest number.
* **`Archive.loadBlockRange`** — the blocks between two numbers, in order. -/

namespace Minima

/-- `getAsLong`: the low 64 bits of the whole part, as a signed number. -/
def MiniNumber.getAsLong (a : MiniNumber) : ℤ := a.getAsBigInteger.bmod (2 ^ 64)

namespace MiniNumber

theorem getAsLong_eq_floor {a : MiniNumber} (h : 0 ≤ a.toRat) (hlt : a.toRat < 2 ^ 63) :
    a.getAsLong = ⌊a.toRat⌋ := by
  have hnonneg : 0 ≤ ⌊a.toRat⌋ := Int.floor_nonneg.mpr h
  have hfloor : ⌊a.toRat⌋ < 2 ^ 63 := by
    rw [Int.floor_lt]
    exact_mod_cast hlt
  rw [getAsLong, getAsBigInteger_eq_floor h]
  exact Int.bmod_eq_of_le (by omega) (by omega)

theorem getAsLong_ofInt {n : ℤ} (h : 0 ≤ n) (hlt : n < 2 ^ 63) : (ofInt n).getAsLong = n := by
  have hrat : (0 : ℚ) ≤ (ofInt n).toRat := by
    rw [toRat_ofInt]
    exact_mod_cast h
  rw [getAsLong_eq_floor hrat (by rw [toRat_ofInt]; exact_mod_cast hlt), toRat_ofInt, Int.floor_intCast]

theorem isEqual_minusOne_ofInt {n : ℤ} (h : 0 ≤ n) : (ofInt n).isEqual minusOne = false := by
  rw [Bool.eq_false_iff, ne_eq, isEqual_iff, minusOne, toRat_ofInt, toRat_ofInt, Int.cast_inj]
  omega

end MiniNumber

/-- A row of `syncblock`; its time of insertion is nowhere read. -/
structure ArchiveRow where
  txpowid : Text
  block : ℤ
  syncdata : List Byte
  deriving DecidableEq

/-- The row of a block: the bytes are what `writeDataStream` writes. -/
def ArchiveRow.ofTxBlock (zBlock : TxBlock) : Result ArchiveRow := do
  let syncdata ← zBlock.writeDataStream
  return ⟨zBlock.txpow.getTxPoWID, zBlock.txpow.getBlockNumber.getAsLong, syncdata⟩

/-- **The table `syncblock`,** in the order of insertion: `UNIQUE (txpowid)` and `UNIQUE (block)`. -/
structure Archive where
  rows : List ArchiveRow
  uniqueIDs : (rows.map ArchiveRow.txpowid).Nodup
  uniqueBlocks : (rows.map ArchiveRow.block).Nodup

namespace Archive

/-- The empty table. -/
def empty : Archive := ⟨[], List.nodup_nil, List.nodup_nil⟩

/-- Whether neither the id nor the number of a row is taken. -/
def isFresh (archive : Archive) (row : ArchiveRow) : Bool :=
  !(archive.rows.map ArchiveRow.txpowid).contains row.txpowid &&
    !(archive.rows.map ArchiveRow.block).contains row.block

/-- A fresh row goes behind the others. -/
def insert (archive : Archive) (row : ArchiveRow) (h : archive.isFresh row = true) : Archive where
  rows := archive.rows ++ [row]
  uniqueIDs := by
    rw [isFresh, Bool.and_eq_true, Bool.not_eq_true', List.contains_eq_mem, decide_eq_false_iff_not] at h
    rw [List.map_append, List.map_singleton]
    exact (List.concat_eq_append ▸ archive.uniqueIDs.concat h.1)
  uniqueBlocks := by
    rw [isFresh, Bool.and_eq_true, Bool.not_eq_true', Bool.not_eq_true', List.contains_eq_mem,
      List.contains_eq_mem, decide_eq_false_iff_not, decide_eq_false_iff_not] at h
    rw [List.map_append, List.map_singleton]
    exact (List.concat_eq_append ▸ archive.uniqueBlocks.concat h.2)

/-- `INSERT OR IGNORE`: the table, and whether the row came in. -/
def insertOrIgnore (archive : Archive) (row : ArchiveRow) : Archive × Bool :=
  if h : archive.isFresh row = true then (archive.insert row h, true) else (archive, false)

/-- **`saveBlock`**: the table, and whether a row came in. An encoder that throws is caught. -/
def saveBlock (archive : Archive) (zBlock : TxBlock) : Result (Archive × Bool) :=
  match ArchiveRow.ofTxBlock zBlock with
  | .ok row => .ok (archive.insertOrIgnore row)
  | .error (.exception _) => .ok (archive, false)
  | .error (.undefined what) => undefinedBehaviour what

/-- The row with the lower number. -/
def lower (low : Option ArchiveRow) (row : ArchiveRow) : Option ArchiveRow :=
  match low with
  | none => some row
  | some l => if row.block < l.block then some row else some l

/-- `ORDER BY block ASC LIMIT 1`. -/
def lowestRow (archive : Archive) : Option ArchiveRow := archive.rows.foldl lower none

/-- **`loadLastBlock`**: the block of the lowest row. The number −1 stands for an empty table, and
bytes that cannot be read for no block. -/
def loadLastBlock (C : Crypto) (weightText : ℕ → Text) (archive : Archive) : Result (Option TxBlock) :=
  match archive.lowestRow with
  | none => .ok none
  | some row =>
    if row.block = -1 then .ok none
    else match (TxBlock.readDataStream C weightText row.syncdata).1 with
      | .ok block => .ok (some block)
      | .error (.exception _) => .ok none
      | .error (.undefined what) => undefinedBehaviour what

theorem saveBlock_of_ok {archive : Archive} {zBlock : TxBlock} {row : ArchiveRow}
    (h : ArchiveRow.ofTxBlock zBlock = .ok row) :
    archive.saveBlock zBlock = .ok (archive.insertOrIgnore row) := by
  unfold saveBlock
  rw [h]

theorem rows_of_insertOrIgnore {archive archive' : Archive} {row : ArchiveRow}
    (h : archive.insertOrIgnore row = (archive', true)) : archive'.rows = archive.rows ++ [row] := by
  unfold insertOrIgnore at h
  split_ifs at h
  · cases h
    rfl
  · cases h

/-- The lowest row is one of the table. -/
theorem mem_of_lowest {rows : List ArchiveRow} {low l : ArchiveRow}
    (h : l ∈ rows.foldl lower (some low)) : l = low ∨ l ∈ rows := by
  induction rows generalizing low with
  | nil => exact .inl (Option.some.inj h).symm
  | cons r rows ih =>
    rw [List.foldl_cons, lower] at h
    split_ifs at h
    · rcases ih h with rfl | hl
      · exact .inr (List.mem_cons_self ..)
      · exact .inr (List.mem_cons_of_mem _ hl)
    · rcases ih h with rfl | hl
      · exact .inl rfl
      · exact .inr (List.mem_cons_of_mem _ hl)

/-- **A saved block with a number below all others** is the one that `loadLastBlock` looks up next. -/
theorem lowestRow_saveBlock {archive archive' : Archive} {zBlock : TxBlock} {row : ArchiveRow}
    (hrow : ArchiveRow.ofTxBlock zBlock = .ok row)
    (h : archive.saveBlock zBlock = .ok (archive', true)) (hlow : ∀ r ∈ archive.rows, row.block < r.block) :
    archive'.lowestRow = some row := by
  rw [saveBlock_of_ok hrow, Except.ok.injEq] at h
  rw [lowestRow, rows_of_insertOrIgnore h, List.foldl_append]
  show lower (archive.rows.foldl lower none) row = some row
  cases hrows : archive.rows with
  | nil => rfl
  | cons r rows =>
    cases hl : (r :: rows).foldl lower none with
    | none => rfl
    | some l =>
      have hmem : l ∈ archive.rows := by
        rw [hrows, List.mem_cons]
        exact mem_of_lowest hl
      rw [lower, if_pos (hlow l hmem)]

/-! ## Ranges -/

/-- `convertMiniDataVersion` of `TxBlock`: nothing for bytes that cannot be read. -/
def convertMiniDataVersion (C : Crypto) (weightText : ℕ → Text) (zTxpData : List Byte) :
    Result (Option TxBlock) :=
  match (TxBlock.readDataStream C weightText zTxpData).1 with
  | .ok block => .ok (some block)
  | .error (.exception _) => .ok none
  | .error (.undefined what) => undefinedBehaviour what

/-- `exists`: the number of the block with an id, or −1. -/
def existsTxPoW (archive : Archive) (zTxPoWID : Text) : MiniNumber :=
  match archive.rows.find? fun row => row.txpowid == zTxPoWID with
  | some row => .ofInt row.block
  | none => .minusOne

/-- **`loadBlockRange`**: the blocks with numbers between two others, sorted. Rows that cannot be read
are left out. -/
def loadBlockRange (C : Crypto) (weightText : ℕ → Text) (archive : Archive)
    (zStartBlock zEndBlock : MiniNumber) (zDescending : Bool) : Result (List TxBlock) := do
  let rows := archive.rows.filter fun row =>
    zStartBlock.getAsLong < row.block ∧ row.block < zEndBlock.getAsLong
  let blocks ← rows.mapM fun row => convertMiniDataVersion C weightText row.syncdata
  let blocks := blocks.reduceOption
  if zDescending then
    return blocks.insertionSort fun a b => b.txpow.getBlockNumber.isLessEqual a.txpow.getBlockNumber
  else return blocks.insertionSort fun a b => a.txpow.getBlockNumber.isLessEqual b.txpow.getBlockNumber

section Holds

variable (C : Crypto) (weightText : ℕ → Text)

/-- A row that a block can be loaded from. -/
structure RowHolds (row : ArchiveRow) (block : TxBlock) : Prop where
  txpowid : row.txpowid = block.txpow.getTxPoWID
  number : row.block = block.txpow.getBlockNumber.getAsLong
  syncdata : convertMiniDataVersion C weightText row.syncdata = .ok (some block)

/-- **The archive holds these blocks,** and no others; they went in in any order. -/
def Holds (archive : Archive) (archived : List TxBlock) : Prop :=
  ∃ saved : List (ArchiveRow × TxBlock), saved.map Prod.fst = archive.rows ∧
    (saved.map Prod.snd).Perm archived ∧ ∀ row ∈ saved, RowHolds C weightText row.1 row.2

variable {C weightText} {archive : Archive} {archived : List TxBlock}

/-- A block that is saved can be loaded, when it is one that arrives unchanged. -/
theorem rowHolds_of_ofTxBlock {block : TxBlock} {row : ArchiveRow}
    (hrow : ArchiveRow.ofTxBlock block = .ok row) (hwire : block.Wire C weightText) (hheld : block.Held) :
    RowHolds C weightText row block := by
  obtain ⟨bytes, hbytes, hreads⟩ := TxBlock.transmits hwire hheld
  unfold ArchiveRow.ofTxBlock at hrow
  rw [hbytes, Result.ok_bind] at hrow
  cases hrow
  refine ⟨rfl, rfl, ?_⟩
  have hread := hreads []
  rw [List.append_nil] at hread
  unfold convertMiniDataVersion
  rw [hread]

/-- The archive of some blocks with distinct ids and numbers, as saving them makes it. -/
def ofBlocks (blocks : List TxBlock) (uniqueIDs : (blocks.map fun b => b.txpow.getTxPoWID).Nodup)
    (uniqueBlocks : (blocks.map fun b => b.txpow.getBlockNumber.getAsLong).Nodup) : Archive where
  rows := blocks.map fun b =>
    ⟨b.txpow.getTxPoWID, b.txpow.getBlockNumber.getAsLong, b.writeDataStream.toOption.getD []⟩
  uniqueIDs := by rwa [List.map_map]
  uniqueBlocks := by rwa [List.map_map]

/-- It holds the blocks, when they are ones that arrive unchanged. -/
theorem holds_ofBlocks {blocks : List TxBlock} (h : ∀ b ∈ blocks, b.Wire C weightText ∧ b.Held)
    (uniqueIDs : (blocks.map fun b => b.txpow.getTxPoWID).Nodup)
    (uniqueBlocks : (blocks.map fun b => b.txpow.getBlockNumber.getAsLong).Nodup) :
    (ofBlocks blocks uniqueIDs uniqueBlocks).Holds C weightText blocks := by
  refine ⟨blocks.map fun b =>
    (⟨b.txpow.getTxPoWID, b.txpow.getBlockNumber.getAsLong, b.writeDataStream.toOption.getD []⟩, b), ?_, ?_, ?_⟩
  · rw [List.map_map]
    rfl
  · rw [List.map_map]
    exact List.Perm.of_eq (List.map_id blocks)
  · intro row hrow
    obtain ⟨b, hb, rfl⟩ := List.mem_map.mp hrow
    obtain ⟨bytes, hbytes, -⟩ := TxBlock.transmits (h b hb).1 (h b hb).2
    refine rowHolds_of_ofTxBlock ?_ (h b hb).1 (h b hb).2
    rw [ArchiveRow.ofTxBlock, hbytes]
    rfl

/-- An id is looked up in the blocks that the archive holds. -/
theorem existsTxPoW_of_holds (h : archive.Holds C weightText archived) (zTxPoWID : Text) :
    (∃ block ∈ archived, block.txpow.getTxPoWID = zTxPoWID ∧
      archive.existsTxPoW zTxPoWID = .ofInt block.txpow.getBlockNumber.getAsLong) ∨
    archive.existsTxPoW zTxPoWID = .minusOne ∧ ∀ block ∈ archived, block.txpow.getTxPoWID ≠ zTxPoWID := by
  obtain ⟨saved, hrows, hperm, hholds⟩ := h
  unfold existsTxPoW
  rw [← hrows]
  cases hfind : (saved.map Prod.fst).find? fun row => row.txpowid == zTxPoWID with
  | none =>
    right
    refine ⟨rfl, fun block hblock heq => ?_⟩
    obtain ⟨row, hrow, rfl⟩ := List.mem_map.mp (hperm.symm.subset hblock)
    have hnot := List.find?_eq_none.mp hfind row.1 (List.mem_map_of_mem hrow)
    rw [(hholds row hrow).txpowid, heq] at hnot
    exact hnot (beq_self_eq_true _)
  | some found =>
    left
    obtain ⟨row, hrow, rfl⟩ := List.mem_map.mp (List.mem_of_find?_eq_some hfind)
    have hid := List.find?_some hfind
    rw [beq_iff_eq, (hholds row hrow).txpowid] at hid
    exact ⟨row.2, hperm.subset (List.mem_map_of_mem hrow), hid,
      congrArg MiniNumber.ofInt (hholds row hrow).number⟩

/-- The rows that a block can be loaded from are all loaded. -/
theorem mapM_convertMiniDataVersion {saved : List (ArchiveRow × TxBlock)}
    (h : ∀ row ∈ saved, RowHolds C weightText row.1 row.2) :
    ((saved.map Prod.fst).mapM fun row => convertMiniDataVersion C weightText row.syncdata) =
      .ok (saved.map fun row => some row.2) := by
  induction saved with
  | nil => rfl
  | cons row saved ih =>
    rw [List.map_cons, List.mapM_cons, (h row List.mem_cons_self).syncdata, Result.ok_bind,
      ih fun r hr => h r (List.mem_cons_of_mem _ hr), Result.ok_bind, List.map_cons]
    rfl

/-- **A range is loaded in the order of its numbers**, from the newest or from the oldest on. -/
theorem loadBlockRange_of_holds (h : archive.Holds C weightText archived) {zStartBlock zEndBlock : MiniNumber}
    {range : List TxBlock} (hrange : (archived.filter fun block =>
      zStartBlock.getAsLong < block.txpow.getBlockNumber.getAsLong ∧
        block.txpow.getBlockNumber.getAsLong < zEndBlock.getAsLong) = range)
    (hascending : NumberedChain.Ascending (fun b : TxBlock => b.txpow.getBlockNumber.toRat) range)
    (zDescending : Bool) :
    archive.loadBlockRange C weightText zStartBlock zEndBlock zDescending =
      .ok (if zDescending then range.reverse else range) := by
  obtain ⟨saved, hrows, hperm, hholds⟩ := h
  set inRange : ArchiveRow × TxBlock → Bool := fun row =>
    zStartBlock.getAsLong < row.1.block ∧ row.1.block < zEndBlock.getAsLong with hinRange
  have hfilter : (archive.rows.filter fun row =>
      decide (zStartBlock.getAsLong < row.block ∧ row.block < zEndBlock.getAsLong)) =
      (saved.filter inRange).map Prod.fst := by
    rw [← hrows, List.filter_map]
    rfl
  have hblocks : ((saved.filter inRange).map Prod.snd).Perm range := by
    rw [← hrange]
    refine List.Perm.trans ?_ (hperm.filter _)
    rw [List.filter_map]
    refine List.Perm.of_eq (congrArg _ (List.filter_congr fun row hrow => ?_))
    simp only [hinRange, Function.comp_apply, (hholds row hrow).number]
  have hloaded : ((saved.filter inRange).map fun row => some row.2).reduceOption =
      (saved.filter inRange).map Prod.snd := by
    simp [List.reduceOption, List.filterMap_map, List.filterMap_eq_map']
  unfold loadBlockRange
  rw [hfilter]
  dsimp only
  rw [mapM_convertMiniDataVersion fun row hrow => hholds row (List.mem_filter.mp hrow).1,
    Result.ok_bind, hloaded]
  simp only [MiniNumber.isLessEqual_iff]
  rw [NumberedChain.insertionSort_descending hascending hblocks,
    NumberedChain.insertionSort_ascending hascending hblocks]
  cases zDescending <;> rfl

end Holds

end Archive

end Minima
