import Minima.Mmr.Entry

/-! # `MMR`: the hash-sum mountain range of the coins

An `MMR` holds the nodes that one block set, a table of the largest entry per row, and a pointer to
the `MMR` of the parent block. A lookup that misses walks back through the parents (and, on a node
that keeps a MegaMMR, ends there). The pointer is modelled by an explicit `Ancestry`.

* **`MMR.addEntry`**, **`MMR.updateEntry`** — append a leaf, change a leaf.
* **`MMR.getProofToPeak`**, **`MMR.getProof`** — the path to the own peak, and on to the root.
* **`MMR.checkProof`**, **`MMR.checkProofTimeValid`** — proof checking.
* **`MMR.childOf`** — the constructor of the MMR of the next block, from the peaks of its parent. -/

namespace Minima

/-! ## Proofs -/

/-- `MMRProof::MMRProofChunk`: the side of a sibling, as a byte, and its data. -/
structure MMRProofChunk where
  left : Byte
  mmrData : MMRData
  deriving DecidableEq

/-- `isLeft`: any byte but zero. -/
def MMRProofChunk.isLeft (c : MMRProofChunk) : Bool := c.left != 0

/-- The constructor from a side and data, which it clones. -/
def MMRProofChunk.make (isLeft : Bool) (d : MMRData) : MMRProofChunk :=
  ⟨if isLeft then 1 else 0, d.clone⟩

/-- `writeDataStream`. -/
def MMRProofChunk.writeDataStream (c : MMRProofChunk) : Result (List Byte) := do
  let data ← c.mmrData.writeDataStream
  return c.left :: data

/-- `readDataStream`. -/
def MMRProofChunk.readDataStream : Reader MMRProofChunk := do
  let left ← Reader.readByte
  let data ← MMRData.readDataStream
  return ⟨left, data⟩

@[simp] theorem MMRProofChunk.isLeft_make (b : Bool) (d : MMRData) : (make b d).isLeft = b := by
  cases b <;> rfl

@[simp] theorem MMRProofChunk.mmrData_make (b : Bool) (d : MMRData) :
    (make b d).mmrData = d.clone := rfl

/-- `MMRProof`: the block time of the MMR that made it, and the chain of siblings. -/
structure MMRProof where
  blockTime : MiniNumber
  proofChain : List MMRProofChunk
  deriving DecidableEq

namespace MMRProof

/-- `addProofChunk`. -/
def addProofChunk (p : MMRProof) (c : MMRProofChunk) : MMRProof :=
  { p with proofChain := p.proofChain ++ [c] }

/-- `writeDataStream`: the block time, the length of the chain and the chunks. -/
def writeDataStream (p : MMRProof) : Result (List Byte) := do
  let chunks ← Crypto.concatAll (p.proofChain.map MMRProofChunk.writeDataStream)
  return p.blockTime.writeDataStream ++
    (MiniNumber.ofInt p.proofChain.length).writeDataStream ++ chunks

/-- `readDataStream`: the block time is assigned, which applies the limits. -/
def readDataStream : Reader MMRProof := do
  let time ← MiniNumber.readDataStream
  let blockTime ← Reader.lift time.copy
  let len ← MiniNumber.getAsInt <$> MiniNumber.readDataStream
  let proofChain ← Reader.readVector MMRProofChunk.readDataStream len
  return ⟨blockTime, proofChain⟩

/-- `getProofChunk`: throws out of range. -/
def getProofChunk (p : MMRProof) (i : ℕ) : Result MMRProofChunk :=
  match p.proofChain[i]? with
  | some c => .ok c
  | none => throwException "MMRProof::getProofChunk index out of range"

/-- One step of `calculateProof`: hash with the sibling on its side. -/
def calculateStep (C : Crypto) (cur : MMRData) (c : MMRProofChunk) : Result MMRData :=
  if c.isLeft then MMRData.createMMRDataParentNode C c.mmrData cur
  else MMRData.createMMRDataParentNode C cur c.mmrData

/-- `calculateProof` on a chain of siblings. -/
def calculateChain (C : Crypto) : MMRData → List MMRProofChunk → Result MMRData
  | cur, [] => .ok cur
  | cur, c :: cs => do
      let next ← calculateStep C cur c
      calculateChain C next cs

/-- `calculateProof`: fold the siblings over the data. -/
def calculateProof (C : Crypto) (p : MMRProof) (d : MMRData) : Result MMRData :=
  calculateChain C d.clone p.proofChain

end MMRProof

/-! ## The MMR of one block -/

/-- `MMR`, without its parent pointer. -/
structure MMR where
  blockTime : MiniNumber
  useMegaMMR : Bool
  entryNumber : MMREntryNumber
  setEntries : List MMREntry
  maxRow : ℤ
  maxEntries : ℤ → Option MMREntry
  finalized : Bool
  finalizedRoot : Option MMRData
  finalizedPeaks : List MMREntry

/-- What a lookup may fall back to: the parents, nearest first, and the MMR of the MegaMMR, when
the database has one. -/
structure Ancestry where
  parents : List MMR
  megaMMR : Option MMR

/-- No parents and no MegaMMR. -/
def Ancestry.none : Ancestry := ⟨[], .none⟩

namespace MMR

/-- `MAXROWS`, the length of the table of largest entries. -/
def maxRows : ℤ := 256

/-- The default constructor. -/
def new : MMR where
  blockTime := .zero
  useMegaMMR := false
  entryNumber := .zero
  setEntries := []
  maxRow := 0
  maxEntries := fun _ => Option.none
  finalized := false
  finalizedRoot := Option.none
  finalizedPeaks := []

/-- The key of the entry table, `row:number`. Two decimals print alike exactly when they are the
same number. -/
def sameKey (row : ℤ) (e : MMREntryNumber) (x : MMREntry) : Bool :=
  x.row == row && x.entryNumber.isEqual e

/-- Find an entry in the table. -/
def findEntry (entries : List MMREntry) (row : ℤ) (e : MMREntryNumber) : Option MMREntry :=
  entries.find? (sameKey row e)

/-- Overwrite or insert an entry of the table. -/
def putEntry (entries : List MMREntry) (x : MMREntry) : List MMREntry :=
  x :: entries.filter fun y => !sameKey x.row x.entryNumber y

/-- The table of largest entries after setting `x`. -/
def putMax (maxEntries : ℤ → Option MMREntry) (x : MMREntry) : ℤ → Option MMREntry := fun row =>
  if row = x.row then
    match maxEntries row with
    | Option.none => some x
    | some y => if y.entryNumber.isLessEqual x.entryNumber then some x else some y
  else maxEntries row

/-- `setEntry`. On a finalized MMR nothing is stored. A row outside the table of largest entries
is an index out of range. -/
def setEntry (m : MMR) (row : ℤ) (e : MMREntryNumber) (d : MMRData) : Result (MMR × MMREntry) :=
  let entry := MMREntry.make row e d
  if m.finalized then .ok (m, entry)
  else if row < 0 ∨ maxRows ≤ row then undefinedBehaviour "mMaxEntries index out of range"
  else .ok ({ m with
      maxRow := max m.maxRow row
      setEntries := putEntry m.setEntries entry
      maxEntries := putMax m.maxEntries entry }, entry)

/-- The MMRs a lookup walks through. -/
def searchPath (m : MMR) (A : Ancestry) : List MMR :=
  m :: A.parents ++ if m.useMegaMMR then A.megaMMR.toList else []

/-- The walk of `getEntry`: the first hit, stopping at the first MMR older than `maxBack`. -/
def lookup (maxBack : MiniNumber) (row : ℤ) (e : MMREntryNumber) : List MMR → Option MMREntry
  | [] => Option.none
  | current :: older =>
    if current.blockTime.isLess maxBack then Option.none
    else match findEntry current.setEntries row e with
      | some x => some x.copy
      | Option.none => lookup maxBack row e older

/-- `getEntry` with a limit on how far back it looks; an empty entry when nothing is found. -/
def getEntryBack (m : MMR) (A : Ancestry) (row : ℤ) (e : MMREntryNumber) (maxBack : MiniNumber) :
    MMREntry :=
  (lookup maxBack row e (m.searchPath A)).getD (MMREntry.empty row e)

/-- `getEntry` without limit. -/
def getEntry (m : MMR) (A : Ancestry) (row : ℤ) (e : MMREntryNumber) : MMREntry :=
  m.getEntryBack A row e .zero

/-! ### Peaks and root -/

/-- The rows `mMaxRow`, …, `0`. -/
def rowsDown (maxRow : ℤ) : List ℤ := (List.range (maxRow + 1).toNat).reverse.map (↑)

/-- `getPeaks`: the largest entries that are left nodes, from the top row down. -/
def getPeaks (m : MMR) : List MMREntry :=
  if m.finalized then m.finalizedPeaks.map MMREntry.copy
  else (rowsDown m.maxRow).filterMap fun row =>
    match m.maxEntries row with
    | some x => if x.isLeft then some x.copy else Option.none
    | Option.none => Option.none

/-- The loop of `addEntry`: while the entry is a right node, hash it with its left sibling. Every
pass goes up one row, and the 257th would index past the table. -/
def addLoop (C : Crypto) (A : Ancestry) : ℕ → MMR → MMREntry → Result MMR
  | 0, _, _ => undefinedBehaviour "mMaxEntries index out of range"
  | fuel + 1, m, entry =>
    if entry.isRight then do
      let sibling := m.getEntry A entry.row entry.getSibling
      let left ← sibling.getMMRData
      let right ← entry.getMMRData
      let parentdata ← MMRData.createMMRDataParentNode C left right
      let (m, entry) ← m.setEntry entry.getParentRow entry.getParentEntry parentdata
      addLoop C A fuel m entry
    else .ok m

/-- `addEntry`: append a leaf. -/
def addEntry (C : Crypto) (A : Ancestry) (m : MMR) (d : MMRData) : Result (MMR × MMREntry) := do
  let (m, entry) ← m.setEntry 0 m.entryNumber d
  let m := { m with entryNumber := m.entryNumber.increment }
  let m ← addLoop C A 257 m entry
  return (m, entry)

/-- One round of bagging: an MMR whose leaves are the peaks. -/
def bagPeaks (C : Crypto) : MMR → List MMREntry → Result MMR
  | m, [] => .ok m
  | m, peak :: peaks => do
      let d ← peak.getMMRData
      let newpeak ← MMRData.make d.data d.value
      let (m, _) ← addEntry C .none m newpeak
      bagPeaks C m peaks

/-- The loop of `getRootInternal`. A round leaves fewer peaks than it takes. -/
def rootLoop (C : Crypto) : ℕ → List MMREntry → Result (List MMREntry)
  | 0, peaks => .ok peaks
  | fuel + 1, peaks =>
    if 1 < peaks.length then do
      let newmmr ← bagPeaks C new peaks
      rootLoop C fuel newmmr.getPeaks
    else .ok peaks

/-- The body of `getRootInternal`, on a list of peaks: no root without peaks. -/
def rootOfPeaks (C : Crypto) (peaks : List MMREntry) : Result (Option MMRData) := do
  if peaks.isEmpty then return Option.none
  let peaks ← rootLoop C peaks.length peaks
  match peaks with
  | [] => undefinedBehaviour "peaks[0] of no peaks"
  | peak :: _ => do
      let d ← peak.getMMRData
      let root ← MMRData.make d.data d.value
      return some root

/-- `getRootInternal`. -/
def getRootInternal (C : Crypto) (m : MMR) : Result (Option MMRData) := rootOfPeaks C m.getPeaks

/-- `getRoot`. -/
def getRoot (C : Crypto) (m : MMR) : Result (Option MMRData) :=
  if m.finalized then .ok (m.finalizedRoot.map MMRData.clone) else m.getRootInternal C

/-! ### Life cycle -/

/-- `finalizeSet`: store peaks and root. -/
def finalizeSet (C : Crypto) (m : MMR) : Result MMR := do
  let m := { m with finalized := false }
  let m := { m with finalizedPeaks := m.getPeaks }
  let root ← m.getRoot C
  return { m with finalizedRoot := root, finalized := true }

/-- Set every peak of a list. -/
def setPeaks : MMR → List MMREntry → Result MMR
  | m, [] => .ok m
  | m, peak :: peaks => do
      let d ← peak.getMMRData
      let (m, _) ← m.setEntry peak.row peak.entryNumber d
      setPeaks m peaks

/-- The number of leaves under a list of peaks, `Σ 2^row`. -/
def totalOfPeaks (peaks : List MMREntry) : ℤ := (peaks.map fun p => 2 ^ p.row.toNat).sum

/-- Finalize the parent of a new MMR, unless it is finalized already. -/
def ensureFinalized (C : Crypto) (m : MMR) : Result MMR :=
  if m.finalized then .ok m else m.finalizeSet C

/-- `MMR(MMR* zParent)`: finalize the parent if need be, then start from its peaks, one block
later. Gives the child and the parent as it is left behind. -/
def childOf (C : Crypto) (isMegaMMR : Bool) (parent : MMR) : Result (MMR × MMR) := do
  let parent ← parent.ensureFinalized C
  let time ← parent.blockTime.add .one
  let m := { new with useMegaMMR := isMegaMMR, blockTime := time }
  let peaks := parent.getPeaks
  let m ← m.setPeaks peaks
  return ({ m with entryNumber := .ofInt (totalOfPeaks peaks) }, parent)

/-- `calculateEntryNumberFromPeaks`. -/
def calculateEntryNumberFromPeaks (m : MMR) : Result MMR := do
  let peaks := m.getPeaks
  let m ← m.setPeaks peaks
  return { m with entryNumber := .ofInt (totalOfPeaks peaks) }

/-! ### Updates -/

/-- The data of the sibling in `updateEntry`: found, or else taken from the proof. -/
def siblingData (proof : MMRProof) (currentproof : ℕ) (sibling : MMREntry) : Result MMRData :=
  if sibling.isEmpty then do
    let c ← proof.getProofChunk currentproof
    MMRData.make c.mmrData.data c.mmrData.value
  else sibling.getMMRData

/-- A missing sibling is taken from the proof, as it is. -/
theorem siblingData_empty {proof : MMRProof} {i : ℕ} {r : ℤ} {e : MMREntryNumber} {d : MMRData}
    (h : siblingData proof i (MMREntry.empty r e) = .ok d) :
    ∃ c, proof.proofChain[i]? = some c ∧ d = c.mmrData.clone := by
  have h' : (proof.getProofChunk i >>= fun c => MMRData.make c.mmrData.data c.mmrData.value) =
      .ok d := h
  rw [Result.bind_eq_ok] at h'
  obtain ⟨c, hc, hmake⟩ := h'
  rw [MMRData.make_eq_clone, Except.ok.injEq] at hmake
  refine ⟨c, ?_, hmake.symm⟩
  unfold MMRProof.getProofChunk at hc
  cases hi : proof.proofChain[i]? with
  | none => rw [hi] at hc; exact absurd hc (by simp)
  | some c' => rw [hi, Except.ok.injEq] at hc; rw [hc]

theorem siblingData_of_full {proof : MMRProof} {i : ℕ} {x : MMREntry} (h : x.isEmpty = false) :
    siblingData proof i x = x.getMMRData := by
  rw [siblingData, if_neg (by simp [h])]

/-- The parent of an entry and its sibling in `updateEntry`, left before right. -/
def parentData (C : Crypto) (entry : MMREntry) (cur sib : MMRData) : Result MMRData :=
  if entry.isLeft then MMRData.createMMRDataParentNode C cur sib
  else MMRData.createMMRDataParentNode C sib cur

/-- The loop of `updateEntry`: up to a peak, hash with the sibling, which is looked up no further
back than the proof. Stored rows are below 256, so a climb beyond them takes every sibling from the
proof. -/
def updateLoop (C : Crypto) (A : Ancestry) (peaks : List MMREntry) (proof : MMRProof) :
    ℕ → ℕ → MMR → MMREntry → Result MMR
  | 0, _, _, _ => undefinedBehaviour "mMaxEntries index out of range"
  | fuel + 1, currentproof, m, entry =>
    if entry.checkPositionAny peaks then .ok m
    else do
      let sibling := m.getEntryBack A entry.row entry.getSibling proof.blockTime
      let siblingdata ← siblingData proof currentproof sibling
      let (m, siblingtop) ← m.setEntry sibling.row sibling.entryNumber siblingdata
      let cur ← entry.getMMRData
      let sib ← siblingtop.getMMRData
      let parentdata ← parentData C entry cur sib
      let (m, entry) ← m.setEntry entry.getParentRow entry.getParentEntry parentdata
      updateLoop C A peaks proof fuel (currentproof + 1) m entry

/-- `updateEntry`: change a leaf and every node above it. -/
def updateEntry (C : Crypto) (A : Ancestry) (m : MMR) (e : MMREntryNumber) (oldProof : MMRProof)
    (newData : MMRData) : Result MMR := do
  let peaks := m.getPeaks
  let (m, entry) ← m.setEntry 0 e newData
  updateLoop C A peaks oldProof (257 + oldProof.proofChain.length) 0 m entry

/-! ### Making proofs -/

/-- The loop of `getProofToPeak`: collect siblings upwards until one is missing. Stored rows are
below 256. -/
def proofLoop (m : MMR) (A : Ancestry) : ℕ → MMRProof → MMREntry → Result MMRProof
  | 0, proof, _ => .ok proof
  | fuel + 1, proof, sibling =>
    if sibling.isEmpty then .ok proof
    else do
      let d ← sibling.getMMRData
      let proof := proof.addProofChunk (.make sibling.isLeft d)
      let parent := MMREntry.empty sibling.getParentRow sibling.getParentEntry
      proofLoop m A fuel proof (m.getEntry A parent.row parent.getSibling)

/-- `getProofToPeak`. -/
def getProofToPeak (m : MMR) (A : Ancestry) (e : MMREntryNumber) : Result MMRProof :=
  let entry := m.getEntry A 0 e
  proofLoop m A 257 ⟨m.blockTime, []⟩ (m.getEntry A entry.row entry.getSibling)

/-- One round of `getPeakToRoot`: an MMR of the peaks, and the last of its leaves with the hash
looked for. -/
def keepPeak (C : Crypto) (hash : MiniData) :
    MMR → Option MMREntry → List MMREntry → Result (MMR × Option MMREntry)
  | m, keeper, [] => .ok (m, keeper)
  | m, keeper, peak :: peaks => do
      let d ← peak.getMMRData
      let (m, current) ← addEntry C .none m d
      keepPeak C hash m (if d.data.isEqual hash then some current else keeper) peaks

/-- The loop of `getPeakToRoot`. -/
def peakToRootLoop (C : Crypto) (peak : MMRData) :
    ℕ → MMRProof → MMRData → Option MMREntry → List MMREntry → Result MMRProof
  | 0, total, _, _, _ => .ok total
  | fuel + 1, total, currentpeak, keeper, peaks =>
    if 1 < peaks.length then do
      let (newmmr, keeper) ← keepPeak C currentpeak.data new keeper peaks
      match keeper with
      | Option.none => undefinedBehaviour "no keeper"
      | some k => do
          let proof ← newmmr.getProofToPeak .none k.entryNumber
          let total := { total with proofChain := total.proofChain ++ proof.proofChain }
          let currentpeak ← total.calculateProof C peak
          peakToRootLoop C peak fuel total currentpeak (some k) newmmr.getPeaks
    else .ok total

/-- `getPeakToRoot`. -/
def getPeakToRoot (C : Crypto) (m : MMR) (peak : MMRData) : Result MMRProof := do
  let peaks := m.getPeaks
  let currentpeak ← MMRData.make peak.data peak.value
  peakToRootLoop C peak peaks.length ⟨m.blockTime, []⟩ currentpeak Option.none peaks

/-- `getProof`: the path to the own peak, then from there to the root. -/
def getProof (C : Crypto) (A : Ancestry) (m : MMR) (e : MMREntryNumber) : Result MMRProof := do
  let entry := m.getEntry A 0 e
  let proof ← m.getProofToPeak A e
  let d ← entry.getMMRData
  let peak ← proof.calculateProof C d
  let rootproof ← m.getPeakToRoot C peak
  return { proof with proofChain := proof.proofChain ++ rootproof.proofChain }

/-! ### Checking proofs -/

/-- `checkProof`: the proof ends at the root or at a peak. -/
def checkProof (C : Crypto) (m : MMR) (d : MMRData) (p : MMRProof) : Result Bool := do
  let rootcalc ← p.calculateProof C d
  let root ← m.getRoot C
  if (root.map rootcalc.isEqual).getD false then return true
  return m.getPeaks.any fun peak => (peak.mmrData.map rootcalc.isEqual).getD false

/-- `getParentAtTime`: the nearest MMR of that block time, going back through the parents. -/
def getParentAtTime (time : MiniNumber) : List MMR → Option MMR
  | [] => Option.none
  | current :: older =>
    if current.blockTime.isEqual time then some current
    else if current.blockTime.isLess time then Option.none
    else getParentAtTime time older

/-- `checkProofTimeValid`: the proof holds in the MMR of its block time, and the leaf has not been
set to anything else since. -/
def checkProofTimeValid (C : Crypto) (A : Ancestry) (m : MMR) (e : MMREntryNumber) (d : MMRData)
    (p : MMRProof) : Result Bool := do
  match getParentAtTime p.blockTime (m :: A.parents) with
  | Option.none => return false
  | some mmr => do
      if !(← mmr.checkProof C d p) then return false
      let checker := m.getEntryBack A 0 e p.blockTime
      if checker.isEmpty then return true
      let cur ← checker.getMMRData
      return cur.isEqual d

end MMR

end Minima
