import NachosFilehdr.Bitmap
import NachosFilehdr.Disk

/-!
# `IndexBlock`: one level of indirection

This file is the source's `class IndexBlock` method by method. An index block of level `0` names
data sectors; one of level `l + 1` names the sectors of its level-`l` children, which it also owns
in memory. The block's own sector holds nothing but its table `nextSectors`; how many bytes it
stands for is handed down by the parent on every `Allocate` and `FetchFrom`.

## Representation

The source stores `level` in each block and tests `level != 0` before touching children. Here the
level is the first argument of every operation instead, and the recursion is on it: the source
only ever builds a child with `new IndexBlock(level - 1)`, so passing `l` to the children of a
level-`l + 1` block is the same thing, and every operation is structurally recursive.

The array `IndexBlock **nextIndexBlocks` is filled from index `0` upwards and never has a hole,
so the model keeps its non-`NULL` prefix as a list. The source allocates it with `NumSectorInt`
slots in a block and `NumPointers` at the root, all `NULL` at first: reading past the end of the
list within those slots is reading a `NULL` pointer, reading past the slots is reading out of
bounds (`childAt`).

## Shared loops

`FileHeader` runs the same five loops over its own table (see `FileHeader.lean`): claim one
sector per active entry, allocate / fetch / write back / deallocate the children, and clear the
active entries. Each loop is one definition below, parameterised by what differs between the two
classes (the `ASSERT` after `FindAndSet`, the text of the `Test` assertion, the table); both
classes' methods are written with them.
-/

namespace NachosFilehdr

/-- An in-memory `IndexBlock`, less its `level` (see the module docstring). -/
structure IndexBlock where
  /-- The bytes this block stands for. -/
  numBytes : Int
  /-- `divRoundUp(numBytes, SectorSize)`. -/
  numSectors : Int
  /-- The number of active entries of `nextSectors`. -/
  levelSectors : Int
  /-- The pointer table, persisted verbatim in the block's sector. -/
  nextSectors : Table NumSectorInt
  /-- The non-`NULL` prefix of the children array. -/
  nextIndexBlocks : List IndexBlock

namespace IndexBlock

/-- `IndexBlock::IndexBlock(level)`: every count `-1`, every table entry `-1`, no children. -/
def new : IndexBlock where
  numBytes := -1
  numSectors := -1
  levelSectors := -1
  nextSectors := Table.memsetNegOne NumSectorInt
  nextIndexBlocks := []

end IndexBlock

/-! ## The shared loops -/

/-- The byte count the source hands child `i`, with `perPointer = sizePerPointer[level]`:
`(i == levelSectors - 1 && numBytes % perPointer) ? numBytes % perPointer : perPointer`. -/
def childSize (levelSectors numBytes perPointer : Int) (i : Nat) : Int :=
  if (i : Int) = levelSectors - 1 ∧ numBytes.tmod perPointer ≠ 0 then numBytes.tmod perPointer
  else perPointer

/-- `for (i = 0; i < levelSectors; i++) { table[i] = freeMap->FindAndSet(); check }`, run from
index `i` with `k` iterations left. -/
def claimSectors (check : Int → Bitmap → Except Fault Unit) {size : Int} :
    Nat → Int → Table size → Bitmap → Except Fault (Table size × Bitmap)
  | 0, _, table, freeMap => .ok (table, freeMap)
  | k + 1, i, table, freeMap => do
    let (sector, freeMap) := freeMap.FindAndSet
    let table ← table.write i sector
    check sector freeMap
    claimSectors check k (i + 1) table freeMap

/-- `for (i = 0; i < levelSectors; i++) { nextIndexBlocks[i] = new IndexBlock(level - 1);
if (!nextIndexBlocks[i]->Allocate(freeMap, size i)) return FALSE; }`, from index `i` with `k`
iterations left: the flag, the children built (a failed one included), and the map. -/
def allocateChildren (allocate : Bitmap → Int → Except Fault (Bool × IndexBlock × Bitmap))
    (size : Nat → Int) : Nat → Nat → Bitmap → Except Fault (Bool × List IndexBlock × Bitmap)
  | 0, _, freeMap => .ok (true, [], freeMap)
  | k + 1, i, freeMap => do
    let (ok, child, freeMap) ← allocate freeMap (size i)
    if ok then
      let (ok, children, freeMap) ← allocateChildren allocate size k (i + 1) freeMap
      pure (ok, child :: children, freeMap)
    else pure (false, [child], freeMap)

/-- `nextIndexBlocks[i]` as the object of a method call, on the array of `capacity` pointers the
source allocates (`NumSectorInt` in a block, `NumPointers` at the root): an index past the array is
out of bounds, a `NULL` slot within it is a null dereference. -/
def childAt (capacity : Nat) (children : List IndexBlock) (i : Nat) : Except Fault IndexBlock :=
  if i < capacity then
    match children[i]? with
    | some child => .ok child
    | none => .error .nullDereference
  else .error .outOfBounds

theorem childAt_eq_ok {capacity : Nat} {children : List IndexBlock} {i : Nat}
    {child : IndexBlock} :
    childAt capacity children i = .ok child ↔ i < capacity ∧ children[i]? = some child := by
  unfold childAt
  split_ifs with hi
  · split <;> simp [*]
  · simp [hi]

theorem childAt_of_lt {capacity : Nat} {children : List IndexBlock} {i : Nat}
    (hi : i < children.length) (hc : i < capacity) :
    childAt capacity children i = .ok children[i] :=
  childAt_eq_ok.mpr ⟨hc, List.getElem?_eq_getElem hi⟩

/-- `for (i = 0; i < levelSectors; i++) nextIndexBlocks[i]->Deallocate(freeMap);`. -/
def deallocateChildren (deallocate : IndexBlock → Bitmap → Except Fault Bitmap) (capacity : Nat)
    (children : List IndexBlock) : Nat → Nat → Bitmap → Except Fault Bitmap
  | 0, _, freeMap => .ok freeMap
  | k + 1, i, freeMap => do
    let child ← childAt capacity children i
    let freeMap ← deallocate child freeMap
    deallocateChildren deallocate capacity children k (i + 1) freeMap

/-- `for (i = 0; i < levelSectors; i++) { ASSERT(freeMap->Test((int)table[i]));
freeMap->Clear((int)table[i]); }`, where `text` is the source text of that `ASSERT`. -/
def clearSectors (text : String) {size : Int} (table : Table size) :
    Nat → Nat → Bitmap → Except Fault Bitmap
  | 0, _, freeMap => .ok freeMap
  | k + 1, i, freeMap => do
    let sector ← table.read i
    let used ← freeMap.Test sector
    ASSERT (used = true) text
    let freeMap ← freeMap.Clear sector
    clearSectors text table k (i + 1) freeMap

/-- `for (i = 0; i < levelSectors; i++) { nextIndexBlocks[i] = new IndexBlock(level - 1);
nextIndexBlocks[i]->FetchFrom(table[i], size i); }`: the children and the sectors they read. -/
def fetchChildren (fetch : Int → Int → Except Fault (IndexBlock × List Int)) {size : Int}
    (table : Table size) (childBytes : Nat → Int) :
    Nat → Nat → Except Fault (List IndexBlock × List Int)
  | 0, _ => .ok ([], [])
  | k + 1, i => do
    let sector ← table.read i
    let (child, reads) ← fetch sector (childBytes i)
    let (children, reads') ← fetchChildren fetch table childBytes k (i + 1)
    pure (child :: children, reads ++ reads')

/-- `for (i = 0; i < levelSectors; i++) if (nextIndexBlocks[i] != NULL)
nextIndexBlocks[i]->WriteBack(table[i]);`: the write requests, in issue order. -/
def writeBackChildren (writeBack : IndexBlock → Int → Except Fault (List (Int × Sector)))
    {size : Int} (table : Table size) (children : List IndexBlock) :
    Nat → Nat → Except Fault (List (Int × Sector))
  | 0, _ => .ok []
  | k + 1, i => do
    let writes ← match children[i]? with
      | some child => do
        let sector ← table.read i
        writeBack child sector
      | none => pure []
    let writes' ← writeBackChildren writeBack table children k (i + 1)
    pure (writes ++ writes')

/-! ## The methods -/

namespace IndexBlock

/-- The `ASSERT` after each `FindAndSet` of `IndexBlock::Allocate`. -/
def testClaimed (sector : Int) (freeMap : Bitmap) : Except Fault Unit := do
  let used ← freeMap.Test sector
  ASSERT (used = true) "freeMap->Test((int)nextSectors[i])"

/-- `IndexBlock::Allocate` up to its `level != 0` test: set the counts and claim one sector per
active entry. -/
def allocateEntries (self : IndexBlock) (level : Nat) (freeMap : Bitmap) (remSize : Int) :
    Except Fault (IndexBlock × Bitmap) := do
  ASSERT (remSize > 0) "remSize > 0"
  let levelSectors := divRoundUp remSize (sizePerPointer level)
  let (nextSectors, freeMap) ←
    claimSectors testClaimed levelSectors.toNat 0 self.nextSectors freeMap
  pure ({ self with
    numBytes := remSize
    numSectors := divRoundUp remSize SectorSize
    levelSectors := levelSectors
    nextSectors := nextSectors }, freeMap)

/-- `IndexBlock::Allocate(freeMap, remSize)` on a level-`level` block. -/
def Allocate : Nat → IndexBlock → Bitmap → Int → Except Fault (Bool × IndexBlock × Bitmap)
  | 0, self, freeMap, remSize => do
    let (self, freeMap) ← self.allocateEntries 0 freeMap remSize
    pure (true, self, freeMap)
  | l + 1, self, freeMap, remSize => do
    let (self, freeMap) ← self.allocateEntries (l + 1) freeMap remSize
    let (ok, children, freeMap) ← allocateChildren (Allocate l new)
      (childSize self.levelSectors self.numBytes (sizePerPointer (l + 1)))
      self.levelSectors.toNat 0 freeMap
    pure (ok, { self with nextIndexBlocks := children }, freeMap)

/-- `IndexBlock::Deallocate(freeMap)`: the children first, then the block's own entries. -/
def Deallocate : Nat → IndexBlock → Bitmap → Except Fault Bitmap
  | 0, self, freeMap =>
    clearSectors "freeMap->Test((int)nextSectors[i])" self.nextSectors self.levelSectors.toNat 0
      freeMap
  | l + 1, self, freeMap => do
    let freeMap ←
      deallocateChildren (Deallocate l) NumSectorInt.toNat self.nextIndexBlocks
        self.levelSectors.toNat 0 freeMap
    clearSectors "freeMap->Test((int)nextSectors[i])" self.nextSectors self.levelSectors.toNat 0
      freeMap

/-- `IndexBlock::FetchFrom` up to its `level != 0` test: the counts from `remSize`, the table from
the block's sector. -/
def load (self : IndexBlock) (level : Nat) (disk : Disk) (sector remSize : Int) : IndexBlock :=
  { self with
    numBytes := remSize
    numSectors := divRoundUp remSize SectorSize
    levelSectors := divRoundUp remSize (sizePerPointer level)
    nextSectors := (ReadSector disk sector).words }

/-- `IndexBlock::FetchFrom(sector, remSize)` on a level-`level` block: the block, and the sectors
it and its children read, in order. -/
def FetchFrom : Nat → IndexBlock → Disk → Int → Int → Except Fault (IndexBlock × List Int)
  | 0, self, disk, sector, remSize => .ok (self.load 0 disk sector remSize, [sector])
  | l + 1, self, disk, sector, remSize => do
    let self := self.load (l + 1) disk sector remSize
    let (children, reads) ← fetchChildren (FetchFrom l new disk) self.nextSectors
      (childSize self.levelSectors self.numBytes (sizePerPointer (l + 1)))
      self.levelSectors.toNat 0
    pure ({ self with nextIndexBlocks := children }, sector :: reads)

/-- `IndexBlock::WriteBack(sector)`: the block's table first, then each present child to the
sector its entry names. -/
def WriteBack : Nat → IndexBlock → Int → Except Fault (List (Int × Sector))
  | 0, self, sector => .ok [(sector, Sector.ofWords self.nextSectors)]
  | l + 1, self, sector => do
    let writes ← writeBackChildren (WriteBack l) self.nextSectors self.nextIndexBlocks
      self.levelSectors.toNat 0
    pure ((sector, Sector.ofWords self.nextSectors) :: writes)

/-- The two `ASSERT`s that open `IndexBlock::ByteToSector`. -/
def checkOffset (self : IndexBlock) (level : Nat) (offset : Int) : Except Fault Unit := do
  ASSERT (offset ≥ 0) "offset >= 0"
  ASSERT (offset < self.levelSectors * sizePerPointer level)
    "offset < levelSectors * sizePerPointer[level]"

/-- `IndexBlock::ByteToSector(offset)`. -/
def ByteToSector : Nat → IndexBlock → Int → Except Fault Int
  | 0, self, offset => do
    self.checkOffset 0 offset
    self.nextSectors.read (offset.tdiv (sizePerPointer 0))
  | l + 1, self, offset => do
    self.checkOffset (l + 1) offset
    let levelSector := offset.tdiv (sizePerPointer (l + 1))
    let child ← childAt NumSectorInt.toNat self.nextIndexBlocks levelSector.toNat
    child.ByteToSector l (offset - levelSector * sizePerPointer (l + 1))

end IndexBlock

end NachosFilehdr
