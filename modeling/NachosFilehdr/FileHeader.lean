import NachosFilehdr.IndexBlock

/-!
# `FileHeader`: the root of the tree

The root is `IndexBlock` with three differences, and this file is the source's `class FileHeader`
method by method with the loops of `IndexBlock.lean`. Its table `dataSectors` has `NumPointers`
entries, because the root's sector also carries the two length words `numBytes` and
`numSectors`. Its level is not handed down but chosen by `InitLevel` from the file length, every
time the header is allocated or loaded; it is never stored on disk. And its `Allocate` checks
`NumClear()` before claiming anything, and `ASSERT`s `dataSectors[i] >= 0` where the blocks test
the bitmap.

## On-disk layout

`WriteBack` packs `numBytes`, `numSectors` and `dataSectors` into a buffer with `memcpy` at byte
offsets 0, 4 and 8 and writes one sector from it; `FetchFrom` reads one sector and unpacks the same
offsets. The three fields fill the sector exactly, as the length proof of `Sector.ofHeader`
checks. The buffer itself is declared `FileHeaderDiskSize` bytes long, which counts the table as
`NumPointers` sectors rather than `NumPointers` ints, so the `memcpy`s stay inside it and only its
first sector ever reaches the disk; the model keeps that sector only.
-/

namespace NachosFilehdr

/-- `FileHeader::level`. -/
inductive Level where
  | LDirect
  | LSingle
  | LDouble
  | LTriple
  deriving DecidableEq, Repr

/-- The enumerator's value: the index into `sizePerPointer`, and one more than the level of the
root's children. -/
def Level.toNat : Level → Nat
  | .LDirect => 0
  | .LSingle => 1
  | .LDouble => 2
  | .LTriple => 3

@[simp] theorem Level.toNat_LDirect : Level.LDirect.toNat = 0 := rfl
@[simp] theorem Level.toNat_LSingle : Level.LSingle.toNat = 1 := rfl
@[simp] theorem Level.toNat_LDouble : Level.LDouble.toNat = 2 := rfl
@[simp] theorem Level.toNat_LTriple : Level.LTriple.toNat = 3 := rfl

/-- An in-memory `FileHeader`. -/
structure FileHeader where
  /-- The file length in bytes. -/
  numBytes : Int
  /-- `divRoundUp(numBytes, SectorSize)`. -/
  numSectors : Int
  /-- The root table, persisted with the two length words. -/
  dataSectors : Table NumPointers
  /-- The indirection level, recomputed from `numBytes` on every load. -/
  level : Level
  /-- The number of active entries of `dataSectors`. -/
  levelSectors : Int
  /-- The non-`NULL` prefix of the children array. -/
  nextIndexBlocks : List IndexBlock

/-! ## The root sector -/

/-- `memcpy(&numBytes, buf + 0, sizeof(numBytes))`. -/
def Sector.numBytesField (s : Sector) : Int := (decodeWords (s.bytes.take 4)).headD 0

/-- `memcpy(&numSectors, buf + 4, sizeof(numSectors))`. -/
def Sector.numSectorsField (s : Sector) : Int := (decodeWords ((s.bytes.drop 4).take 4)).headD 0

/-- `memcpy(&dataSectors, buf + 8, sizeof(dataSectors))`: the rest of the sector. -/
def Sector.dataSectorsField (s : Sector) : Table NumPointers :=
  ⟨decodeWords (s.bytes.drop 8), by rw [length_decodeWords, List.length_drop, s.length_eq]; decide⟩

/-- The sector `FileHeader::WriteBack` sends: `numBytes`, `numSectors`, then `dataSectors`. -/
def Sector.ofHeader (numBytes numSectors : Int) (dataSectors : Table NumPointers) : Sector :=
  ⟨encodeInt numBytes ++ encodeInt numSectors ++ encodeWords dataSectors.entries, by
    simp only [List.length_append, length_encodeInt, length_encodeWords, dataSectors.length_eq]
    decide⟩

namespace FileHeader

/-- `FileHeader::FileHeader()`. -/
def new : FileHeader where
  numBytes := -1
  numSectors := -1
  dataSectors := Table.memsetNegOne NumPointers
  level := .LDirect
  levelSectors := -1
  nextIndexBlocks := []

/-- `FileHeader::InitLevel()`: the level for a file of `numBytes` bytes. -/
def InitLevel (numBytes : Int) : Except Fault Level :=
  if numBytes ≤ MaxDirectBytes then .ok .LDirect
  else if numBytes ≤ MaxSingleIndirectBytes then .ok .LSingle
  else if numBytes ≤ MaxDoubleIndirectBytes then .ok .LDouble
  else if numBytes ≤ MaxTripleIndirectBytes then .ok .LTriple
  else .error (.assertionFailed "(FALSE)")

/-- The `ASSERT` after each `FindAndSet` of `FileHeader::Allocate`. -/
def checkClaimed (sector : Int) (_ : Bitmap) : Except Fault Unit :=
  ASSERT (sector ≥ 0) "dataSectors[i] >= 0"

/-- `FileHeader::Allocate(freeMap, fileSize)`: the result flag, the header, and the map. -/
def Allocate (self : FileHeader) (freeMap : Bitmap) (fileSize : Int) :
    Except Fault (Bool × FileHeader × Bitmap) := do
  let self := { self with numBytes := fileSize, numSectors := divRoundUp fileSize SectorSize }
  if freeMap.NumClear < self.numSectors then
    return (false, self, freeMap)
  let level ← InitLevel self.numBytes
  let levelSectors := divRoundUp fileSize (sizePerPointer level.toNat)
  let (dataSectors, freeMap) ←
    claimSectors checkClaimed levelSectors.toNat 0 self.dataSectors freeMap
  let self := { self with level := level, levelSectors := levelSectors, dataSectors := dataSectors }
  if level ≠ .LDirect then
    let (ok, children, freeMap) ← allocateChildren (IndexBlock.Allocate (level.toNat - 1) .new)
      (childSize levelSectors fileSize (sizePerPointer level.toNat)) levelSectors.toNat 0 freeMap
    return (ok, { self with nextIndexBlocks := children }, freeMap)
  return (true, self, freeMap)

/-- `FileHeader::Deallocate(freeMap)`: the children first, then the root's own entries. -/
def Deallocate (self : FileHeader) (freeMap : Bitmap) : Except Fault Bitmap := do
  let freeMap ← if self.level ≠ .LDirect then
      deallocateChildren (IndexBlock.Deallocate (self.level.toNat - 1)) NumPointers.toNat
        self.nextIndexBlocks self.levelSectors.toNat 0 freeMap
    else pure freeMap
  clearSectors "freeMap->Test((int)dataSectors[i])" self.dataSectors self.levelSectors.toNat 0
    freeMap

/-- `FileHeader::FetchFrom(sector)`: the header, and the sectors read, in order. -/
def FetchFrom (self : FileHeader) (disk : Disk) (sector : Int) :
    Except Fault (FileHeader × List Int) := do
  let buf := ReadSector disk sector
  let self := { self with
    numBytes := buf.numBytesField
    numSectors := buf.numSectorsField
    dataSectors := buf.dataSectorsField }
  let level ← InitLevel self.numBytes
  let levelSectors := divRoundUp self.numBytes (sizePerPointer level.toNat)
  let self := { self with level := level, levelSectors := levelSectors }
  if level ≠ .LDirect then
    let (children, reads) ← fetchChildren (IndexBlock.FetchFrom (level.toNat - 1) .new disk)
      self.dataSectors (childSize levelSectors self.numBytes (sizePerPointer level.toNat))
      levelSectors.toNat 0
    return ({ self with nextIndexBlocks := children }, sector :: reads)
  return (self, [sector])

/-- `FileHeader::WriteBack(sector)`: the write requests, in issue order. -/
def WriteBack (self : FileHeader) (sector : Int) : Except Fault (List (Int × Sector)) := do
  let header := (sector, Sector.ofHeader self.numBytes self.numSectors self.dataSectors)
  if self.level ≠ .LDirect then
    let writes ← writeBackChildren (IndexBlock.WriteBack (self.level.toNat - 1)) self.dataSectors
      self.nextIndexBlocks self.levelSectors.toNat 0
    return header :: writes
  return [header]

/-- `FileHeader::ByteToSector(offset)`. A negative `levelSector` would index before the children
array, which is a fault of its own. -/
def ByteToSector (self : FileHeader) (offset : Int) : Except Fault Int := do
  if self.level = .LDirect then
    self.dataSectors.read (offset.tdiv (sizePerPointer self.level.toNat))
  else
    let levelSector := offset.tdiv (sizePerPointer self.level.toNat)
    if levelSector < 0 then throw .outOfBounds
    let child ← childAt NumPointers.toNat self.nextIndexBlocks levelSector.toNat
    child.ByteToSector (self.level.toNat - 1)
      (offset - levelSector * sizePerPointer self.level.toNat)

/-- `FileHeader::FileLength()`. -/
def FileLength (self : FileHeader) : Int := self.numBytes

end FileHeader

end NachosFilehdr
