import NachosFilehdr.Offsets

/-!
# `Print`: the tree and the file, as text

`FileHeader::Print` writes two sections. The first lists sector numbers: the root's active entries,
then each child's `PrintSectors`, which lists its own entries and then its children's. The second,
after `File contents:`, reads each active entry of the root and writes the sector's bytes, one
sector to a line and no more bytes in all than the file's length; then each child's
`PrintContents` does the same with its own table and its own byte count.

## The output

Each method returns the text it prints, and a method that prints and then calls another returns
the first text followed by the second. The loops read the disk and change nothing, so this order
is the order of the `printf`s. A fault (an index past a table, a `NULL` child) ends the call with
that fault; the text printed before it is not kept.

## What it prints

On every shaped header, whatever the disk holds:

- `Print` completes, and its first section lists every sector of the tree in the order `Allocate`
  claims them (`FileHeader.Print_lists_sectors`);
- below a direct root, the second section is the file's bytes, one whole sector to a line but the
  last (`FileHeader.Print_direct_contents`);
- below an indirect root, the root's entries name index blocks, and the second section opens with
  their sectors: every byte of each of the root's index tables, one to a line, printed as if it
  were the file's contents (`FileHeader.Print_indirect_contents`). The blocks above level 0 do the
  same below it;
- whatever the level, the lines written for data sectors, in the order they are written, are the
  file's bytes end to end (`FileHeader.Print_shows_contents`): nothing of the file is left out, but
  below an indirect root it is interleaved with the index tables.
-/

namespace NachosFilehdr

/-! ## Text -/

theorem String.foldl_append (s t : String) (l : List String) :
    l.foldl (· ++ ·) (s ++ t) = s ++ l.foldl (· ++ ·) t := by
  induction l generalizing t with
  | nil => rfl
  | cons u l ih => rw [List.foldl_cons, List.foldl_cons, String.append_assoc, ih]

@[simp] theorem String.join_nil : String.join [] = "" := rfl

@[simp] theorem String.join_cons (s : String) (l : List String) :
    String.join (s :: l) = s ++ String.join l := by
  simp only [String.join, List.foldl_cons, String.empty_append]
  rw [← String.foldl_append, String.append_empty]

@[simp] theorem String.join_append (l l' : List String) :
    String.join (l ++ l') = String.join l ++ String.join l' := by
  induction l with
  | nil => simp
  | cons s l ih => simp [ih, String.append_assoc]

theorem String.join_flatMap {α : Type} (f : α → List String) (l : List α) :
    String.join (l.flatMap f) = String.join (l.map fun a ↦ String.join (f a)) := by
  induction l with
  | nil => rfl
  | cons a l ih => simp [ih]

/-- `printf("%d ", x)`. -/
def printInt (x : Int) : String := toString x ++ " "

/-- One byte of `data` under `if ('\040' <= data[j] && data[j] <= '\176') printf("%c", data[j]);
else printf("\\%x", (unsigned char)data[j]);`. `char` is signed, so the bytes from 128 up are
negative and take the second branch. -/
def printByte (b : UInt8) : String :=
  if 32 ≤ b.toNat ∧ b.toNat ≤ 126 then (Char.ofNat b.toNat).toString
  else "\\" ++ String.mk (Nat.toDigits 16 b.toNat)

/-- The text of a run of bytes. -/
def render (bs : List UInt8) : String := String.join (bs.map printByte)

/-- The text of a run of lines, each ended by `printf("\n")`. -/
def renderLines (ls : List (List UInt8)) : String := String.join (ls.map fun c ↦ render c ++ "\n")

@[simp] theorem renderLines_nil : renderLines [] = "" := rfl

@[simp] theorem renderLines_cons (c : List UInt8) (ls : List (List UInt8)) :
    renderLines (c :: ls) = render c ++ "\n" ++ renderLines ls := by
  simp [renderLines]

@[simp] theorem renderLines_append (ls ls' : List (List UInt8)) :
    renderLines (ls ++ ls') = renderLines ls ++ renderLines ls' := by
  simp [renderLines]

theorem renderLines_flatMap {α : Type} (f : α → List (List UInt8)) (l : List α) :
    renderLines (l.flatMap f) = String.join (l.map fun a ↦ renderLines (f a)) := by
  simp only [renderLines, List.map_flatMap, String.join_flatMap]

/-! ## The loops -/

/-- `for (i = 0; i < levelSectors; i++) printf("%d ", table[i]);`, from index `i` with `k`
iterations left. -/
def printTable {size : Int} (table : Table size) : Nat → Nat → Except Fault String
  | 0, _ => .ok ""
  | k + 1, i => do
    let x ← table.read i
    let rest ← printTable table k (i + 1)
    pure (printInt x ++ rest)

/-- `for (j = 0; (j < SectorSize) && (k < numBytes); j++, k++)` over the bytes of one sector: the
text, and the count `k` after it. -/
def printBytes (numBytes : Int) : List UInt8 → Int → String × Int
  | [], k => ("", k)
  | b :: bs, k =>
    if k < numBytes then
      let (text, k) := printBytes numBytes bs (k + 1)
      (printByte b ++ text, k)
    else ("", k)

/-- `for (i = k = 0; i < levelSectors; i++) { ReadSector(table[i], data); for (j = 0; ...) ...;
printf("\n"); }`, from index `i` with `n` iterations left and `k` bytes written. -/
def printData (disk : Disk) (numBytes : Int) {size : Int} (table : Table size) :
    Nat → Nat → Int → Except Fault String
  | 0, _, _ => .ok ""
  | n + 1, i, k => do
    let sector ← table.read i
    let (text, k) := printBytes numBytes (ReadSector disk sector).bytes k
    let rest ← printData disk numBytes table n (i + 1) k
    pure (text ++ "\n" ++ rest)

/-- `for (int i = 0; i < levelSectors; i++) nextIndexBlocks[i]->PrintSectors();`, and the same
loop over `PrintContents`. -/
def printChildren (print : IndexBlock → Except Fault String) (capacity : Nat)
    (children : List IndexBlock) : Nat → Nat → Except Fault String
  | 0, _ => .ok ""
  | k + 1, i => do
    let child ← childAt capacity children i
    let text ← print child
    let rest ← printChildren print capacity children k (i + 1)
    pure (text ++ rest)

namespace IndexBlock

/-- `IndexBlock::PrintSectors()` on a level-`level` block. -/
def PrintSectors : Nat → IndexBlock → Except Fault String
  | 0, self => printTable self.nextSectors self.levelSectors.toNat 0
  | l + 1, self => do
    let text ← printTable self.nextSectors self.levelSectors.toNat 0
    let rest ← printChildren (PrintSectors l) NumSectorInt.toNat self.nextIndexBlocks
      self.levelSectors.toNat 0
    pure (text ++ rest)

/-- `IndexBlock::PrintContents()` on a level-`level` block. -/
def PrintContents : Nat → IndexBlock → Disk → Except Fault String
  | 0, self, disk => printData disk self.numBytes self.nextSectors self.levelSectors.toNat 0 0
  | l + 1, self, disk => do
    let text ← printData disk self.numBytes self.nextSectors self.levelSectors.toNat 0 0
    let rest ← printChildren (fun c ↦ PrintContents l c disk) NumSectorInt.toNat
      self.nextIndexBlocks self.levelSectors.toNat 0
    pure (text ++ rest)

end IndexBlock

namespace FileHeader

/-- `FileHeader::Print()`. -/
def Print (self : FileHeader) (disk : Disk) : Except Fault String := do
  let head := "FileHeader contents.  File size: " ++ toString self.numBytes ++ ".  File blocks:\n"
  let table ← printTable self.dataSectors self.levelSectors.toNat 0
  let below ← if self.level ≠ .LDirect then
      printChildren (IndexBlock.PrintSectors (self.level.toNat - 1)) NumPointers.toNat
        self.nextIndexBlocks self.levelSectors.toNat 0
    else pure ""
  let data ← printData disk self.numBytes self.dataSectors self.levelSectors.toNat 0 0
  let dataBelow ← if self.level ≠ .LDirect then
      printChildren (fun c ↦ IndexBlock.PrintContents (self.level.toNat - 1) c disk)
        NumPointers.toNat self.nextIndexBlocks self.levelSectors.toNat 0
    else pure ""
  pure (head ++ table ++ below ++ "\nFile contents:\n" ++ data ++ dataBelow)

end FileHeader

/-! ## The lines written

`dataLines disk n es k` is what the contents loop writes for the entries `es` of a block of `n`
bytes, `k` bytes into it: each entry's sector cut to what is left of the `n` bytes. -/

/-- The lines the contents loop writes for entries `es`, `k` bytes into a block of `numBytes`. -/
def dataLines (disk : Disk) (numBytes : Int) : List Int → Int → List (List UInt8)
  | [], _ => []
  | x :: xs, k =>
    (ReadSector disk x).bytes.take (numBytes - k).toNat ::
      dataLines disk numBytes xs (k + SectorSize)

/-- The lines `PrintContents` writes for a level-`l` subtree, block by block in the order of
`sectors`. -/
def IndexBlock.contentLines (disk : Disk) : Nat → IndexBlock → List (List UInt8)
  | 0, b => dataLines disk b.numBytes b.entries 0
  | l + 1, b =>
    dataLines disk b.numBytes b.entries 0 ++ b.nextIndexBlocks.flatMap (contentLines disk l)

/-- The lines of the second section of `Print`. -/
def FileHeader.contentLines (h : FileHeader) (disk : Disk) : List (List UInt8) :=
  if h.level = .LDirect then dataLines disk h.numBytes h.entries 0
  else dataLines disk h.numBytes h.entries 0 ++
    h.nextIndexBlocks.flatMap (IndexBlock.contentLines disk (h.level.toNat - 1))

/-- The lines `PrintContents` writes for the level-0 blocks of a level-`l` subtree, the blocks
whose entries are data sectors. -/
def IndexBlock.leafLines (disk : Disk) : Nat → IndexBlock → List (List UInt8)
  | 0, b => dataLines disk b.numBytes b.entries 0
  | l + 1, b => b.nextIndexBlocks.flatMap (leafLines disk l)

/-- The lines of `Print`'s second section written for data sectors: the root's own below a direct
root, the level-0 blocks' below an indirect one. -/
def FileHeader.leafLines (h : FileHeader) (disk : Disk) : List (List UInt8) :=
  if h.level = .LDirect then dataLines disk h.numBytes h.entries 0
  else h.nextIndexBlocks.flatMap (IndexBlock.leafLines disk (h.level.toNat - 1))

theorem flatMap_sublist_flatMap {α β : Type} {f g : α → List β} (h : ∀ a, (f a).Sublist (g a)) :
    ∀ l : List α, (l.flatMap f).Sublist (l.flatMap g)
  | [] => .slnil
  | a :: l => (h a).append (flatMap_sublist_flatMap h l)

theorem IndexBlock.leafLines_sublist (disk : Disk) :
    ∀ (l : Nat) (b : IndexBlock), (b.leafLines disk l).Sublist (b.contentLines disk l)
  | 0, _ => .refl _
  | l + 1, _ => (flatMap_sublist_flatMap (leafLines_sublist disk l) _).trans
      (List.sublist_append_right _ _)

theorem FileHeader.leafLines_sublist (h : FileHeader) (disk : Disk) :
    (h.leafLines disk).Sublist (h.contentLines disk) := by
  unfold leafLines contentLines
  split_ifs
  · exact .refl _
  · exact (flatMap_sublist_flatMap (IndexBlock.leafLines_sublist disk _) _).trans
      (List.sublist_append_right _ _)

section Lines

variable {disk : Disk} {numBytes : Int}

/-- Past the end of the block every line is empty. -/
theorem dataLines_of_le {xs : List Int} {k : Int} (h : numBytes ≤ k) :
    dataLines disk numBytes xs k = xs.map fun _ ↦ [] := by
  induction xs generalizing k with
  | nil => rfl
  | cons x xs ih =>
    rw [dataLines, ih (by simp only [SectorSize_eq]; omega), Int.toNat_eq_zero.mpr (by omega)]
    rfl

/-- While whole sectors are left, every line is the whole sector. -/
theorem dataLines_of_full {xs : List Int} {k : Int} (h : SectorSize * xs.length ≤ numBytes - k) :
    dataLines disk numBytes xs k = xs.map fun x ↦ (ReadSector disk x).bytes := by
  induction xs generalizing k with
  | nil => rfl
  | cons x xs ih =>
    have hlen := (ReadSector disk x).length_eq
    simp only [SectorSize_eq, List.length_cons] at h hlen
    rw [dataLines, ih (by simp only [SectorSize_eq]; push_cast at h; omega),
      List.take_of_length_le (by omega)]
    rfl

/-- The lines hold the block's bytes from `k` on, in order. -/
theorem flatten_dataLines (xs : List Int) (k : Int) :
    (dataLines disk numBytes xs k).flatten =
      (xs.flatMap fun x ↦ (ReadSector disk x).bytes).take (numBytes - k).toNat := by
  induction xs generalizing k with
  | nil => simp [dataLines]
  | cons x xs ih =>
    have hlen : (ReadSector disk x).bytes.length = 128 := (ReadSector disk x).length_eq
    have hk : (numBytes - (k + SectorSize)).toNat = (numBytes - k).toNat - 128 := by
      simp only [SectorSize_eq]
      omega
    rw [dataLines, List.flatten_cons, ih, hk, List.flatMap_cons, List.take_append_eq_append_take,
      hlen]

/-- Every line but the last is a whole sector, when the entries are no more than the block's
sectors. -/
theorem dataLines_dropLast {xs : List Int} {k : Int}
    (h : SectorSize * xs.length < numBytes - k + SectorSize) :
    ∀ c ∈ (dataLines disk numBytes xs k).dropLast, c.length = SectorSize.toNat := by
  induction xs generalizing k with
  | nil => simp [dataLines]
  | cons x xs ih =>
    cases xs with
    | nil => simp [dataLines]
    | cons y ys =>
      have hlen := (ReadSector disk x).length_eq
      simp only [SectorSize_eq, List.length_cons] at h hlen ih ⊢
      push_cast at h
      rw [dataLines, List.dropLast_cons_of_ne_nil (by simp [dataLines])]
      rintro c (_ | ⟨_, hc⟩)
      · rw [List.length_take, hlen]
        omega
      · exact ih (by simp only [SectorSize_eq, List.length_cons]; push_cast; omega) c hc

/-- Every sector is `SectorSize` bytes. -/
theorem length_flatMap_bytes (xs : List Int) :
    (xs.flatMap fun x ↦ (ReadSector disk x).bytes).length = 128 * xs.length := by
  induction xs with
  | nil => rfl
  | cons x xs ih =>
    have hlen : (ReadSector disk x).bytes.length = 128 := (ReadSector disk x).length_eq
    rw [List.flatMap_cons, List.length_append, ih, hlen, List.length_cons]
    omega

/-- Children loaded one after another: when every child but the last is full, the bytes each
child keeps, end to end, are the first bytes of all of them. -/
theorem flatten_flatMap_of_forall₂ {P : Int → IndexBlock → Prop} {p : Int}
    {f : IndexBlock → List (List UInt8)} {g : IndexBlock → List UInt8}
    (hf : ∀ s c, P s c → (f c).flatten = (g c).take s.toNat)
    (hfull : ∀ c, P p c → (g c).length = p.toNat) {ss : List Int} {cs : List IndexBlock}
    (hss : List.Forall₂ P ss cs) (hpos : ∀ s ∈ ss, 0 ≤ s) (hfull' : ∀ s ∈ ss.dropLast, s = p) :
    (cs.flatMap f).flatten = (cs.flatMap g).take ss.sum.toNat := by
  induction hss with
  | nil => rfl
  | @cons s c ss cs hc hcs ih =>
    cases hcs with
    | nil => simp [hf s c hc]
    | @cons s' c' ss cs' hc' hcs' =>
      obtain rfl : s = p := hfull' s (by simp)
      have hsum : 0 ≤ (s' :: ss).sum :=
        List.sum_nonneg fun t ht ↦ hpos t (List.mem_cons_of_mem s ht)
      have hs := hpos s (List.mem_cons_self s _)
      have hgc := hfull c hc
      have hsplit : (s :: s' :: ss).sum.toNat = s.toNat + (s' :: ss).sum.toNat := by
        rw [List.sum_cons]
        omega
      rw [List.flatMap_cons c _ f, List.flatten_append, hf s c hc, List.take_of_length_le hgc.le,
        ih (fun t ht ↦ hpos t (List.mem_cons_of_mem s ht))
          (fun t ht ↦ hfull' t (by rw [List.dropLast_cons₂]; exact List.mem_cons_of_mem s ht)),
        List.flatMap_cons c _ g, hsplit, List.take_append_eq_append_take,
        List.take_of_length_le (l := g c) (by omega), hgc, Nat.add_sub_cancel_left]

end Lines

/-! ## Each loop -/

theorem printTable_eq {size : Int} (t : Table size) :
    ∀ {k i : Nat}, i + k ≤ t.entries.length →
      printTable t k i = .ok (String.join (((t.entries.drop i).take k).map printInt))
  | 0, _, _ => rfl
  | k + 1, i, h => by
    rw [List.drop_eq_getElem_cons (by omega : i < t.entries.length)]
    simp only [printTable, t.read_of_lt (i := i) (by omega), ok_bind,
      printTable_eq t (k := k) (i := i + 1) (by omega), List.take_succ_cons, List.map_cons,
      String.join_cons, pure_eq_ok]

theorem printBytes_eq (numBytes : Int) : ∀ (bs : List UInt8) (k : Int),
    printBytes numBytes bs k =
      (render (bs.take (numBytes - k).toNat), k + (min bs.length (numBytes - k).toNat : Nat))
  | [], k => by simp [printBytes, render]
  | b :: bs, k => by
    by_cases hk : k < numBytes
    · have hsucc : (numBytes - k).toNat = (numBytes - (k + 1)).toNat + 1 := by omega
      simp only [printBytes, if_pos hk, printBytes_eq numBytes bs (k + 1), hsucc,
        List.take_succ_cons, render, List.map_cons, String.join_cons, List.length_cons,
        Prod.mk.injEq, true_and]
      omega
    · have hzero : (numBytes - k).toNat = 0 := by omega
      simp [printBytes, hk, hzero, render]

theorem printData_eq (disk : Disk) (numBytes : Int) {size : Int} (t : Table size) :
    ∀ {n i : Nat} {k : Int}, i + n ≤ t.entries.length →
      printData disk numBytes t n i k =
        .ok (renderLines (dataLines disk numBytes ((t.entries.drop i).take n) k))
  | 0, _, _, _ => rfl
  | n + 1, i, k, h => by
    have hi : i < t.entries.length := by omega
    have hlen := (ReadSector disk t.entries[i]).length_eq
    -- the count after a line is `k + SectorSize`, or already past the block
    have hnext : dataLines disk numBytes ((t.entries.drop (i + 1)).take n)
        (k + (min (ReadSector disk t.entries[i]).bytes.length (numBytes - k).toNat : Nat)) =
        dataLines disk numBytes ((t.entries.drop (i + 1)).take n) (k + SectorSize) := by
      simp only [SectorSize_eq] at hlen ⊢
      by_cases hfull : 128 ≤ numBytes - k
      · congr 1
        omega
      · rw [dataLines_of_le (by omega), dataLines_of_le (by omega)]
    rw [List.drop_eq_getElem_cons hi]
    simp only [printData, t.read_of_lt hi, ok_bind, printBytes_eq,
      printData_eq disk numBytes t (n := n) (i := i + 1) (by omega), hnext, List.take_succ_cons,
      dataLines, renderLines_cons, pure_eq_ok]

theorem printChildren_eq {print : IndexBlock → Except Fault String} {f : IndexBlock → String}
    {capacity : Nat} {cs : List IndexBlock} (hcap : cs.length ≤ capacity)
    (hf : ∀ c ∈ cs, print c = .ok (f c)) :
    ∀ {k i : Nat}, i + k ≤ cs.length →
      printChildren print capacity cs k i = .ok (String.join (((cs.drop i).take k).map f))
  | 0, _, _ => rfl
  | k + 1, i, h => by
    have hi : i < cs.length := by omega
    rw [List.drop_eq_getElem_cons hi]
    simp only [printChildren, childAt_of_lt hi (hi.trans_le hcap), ok_bind,
      hf _ (List.getElem_mem hi), printChildren_eq hcap hf (k := k) (i := i + 1) (by omega),
      List.take_succ_cons, List.map_cons, String.join_cons, pure_eq_ok]

/-! ## Each method on a shaped tree -/

namespace IndexBlock

section Counted

variable {b : IndexBlock} {l : Nat} {r : Int} (hb : b.Counted l r) (hr : 0 < r)
  (hr' : r ≤ NumSectorInt * sizePerPointer l)
include hb hr hr'

theorem Counted.levelSectors_le : b.levelSectors.toNat ≤ b.nextSectors.entries.length := by
  have hk := (hb.length_entries hr hr').1
  have hls := hb.levelSectors_eq
  simp only [entries, List.length_take] at hk
  omega

theorem Counted.printTable :
    NachosFilehdr.printTable b.nextSectors b.levelSectors.toNat 0 =
      .ok (String.join (b.entries.map printInt)) := by
  have hk := hb.levelSectors_le hr hr'
  rw [printTable_eq _ (by omega), List.drop_zero, entries]

theorem Counted.printData (disk : Disk) :
    NachosFilehdr.printData disk b.numBytes b.nextSectors b.levelSectors.toNat 0 0 =
      .ok (renderLines (dataLines disk b.numBytes b.entries 0)) := by
  have hk := hb.levelSectors_le hr hr'
  rw [printData_eq _ _ _ (by omega), List.drop_zero, entries]

end Counted

/-- **`IndexBlock::PrintSectors`.** A shaped subtree lists its sectors, in the order `Allocate`
claims them. -/
theorem PrintSectors_eq : ∀ {l : Nat} {r : Int} {b : IndexBlock}, l ≤ 2 → 0 < r →
    r ≤ sizePerPointer (l + 1) → b.Shaped l r →
      b.PrintSectors l = .ok (String.join ((b.sectors l).map printInt))
  | 0, _, _, _, hr, hr', hb =>
    hb.counted.printTable hr (by rwa [← sizePerPointer_succ (by omega)])
  | l + 1, r, b, hl, hr, hr', hb => by
    have hcs := hb.children.length
    rw [← hb.counted.levelSectors_eq] at hcs
    rw [PrintSectors, hb.counted.printTable hr (by rwa [← sizePerPointer_succ (by omega)]),
      ok_bind, printChildren_eq (f := fun c ↦ String.join ((c.sectors l).map printInt))
        (hb.length_nextIndexBlocks_le hr (by rwa [← sizePerPointer_succ (by omega)])) (fun c hc ↦ by
          obtain ⟨s, hs, hs', hsc⟩ := hb.children.exists_of_mem hr hc
          exact PrintSectors_eq (by omega) hs hs' hsc) (by omega)]
    simp [sectors, ← hcs, List.map_flatMap, String.join_flatMap]

/-- **`IndexBlock::PrintContents`.** A shaped subtree writes its blocks' lines, block by block. -/
theorem PrintContents_eq (disk : Disk) :
    ∀ {l : Nat} {r : Int} {b : IndexBlock}, l ≤ 2 → 0 < r → r ≤ sizePerPointer (l + 1) →
      b.Shaped l r → b.PrintContents l disk = .ok (renderLines (b.contentLines disk l))
  | 0, _, _, _, hr, hr', hb =>
    hb.counted.printData hr (by rwa [← sizePerPointer_succ (by omega)]) disk
  | l + 1, r, b, hl, hr, hr', hb => by
    have hcs := hb.children.length
    rw [← hb.counted.levelSectors_eq] at hcs
    rw [PrintContents, hb.counted.printData hr (by rwa [← sizePerPointer_succ (by omega)]),
      ok_bind, printChildren_eq (f := fun c ↦ renderLines (c.contentLines disk l))
        (hb.length_nextIndexBlocks_le hr (by rwa [← sizePerPointer_succ (by omega)])) (fun c hc ↦ by
          obtain ⟨s, hs, hs', hsc⟩ := hb.children.exists_of_mem hr hc
          exact PrintContents_eq disk (by omega) hs hs' hsc) (by omega)]
    simp [contentLines, ← hcs, renderLines_flatMap]

/-- Children shaped as the source shapes them keep, in their level-0 lines, the first `r` bytes
of their data sectors, when each subtree keeps its own: every child but the last is full. -/
theorem ShapedChildren.flatten_leafLines (disk : Disk) {l : Nat} {r : Int}
    {cs : List IndexBlock} (hc : ShapedChildren l r cs) (hl : l ≤ 2) (hr : 0 < r)
    (ih : ∀ {s : Int} {c : IndexBlock}, 0 < s → s ≤ sizePerPointer (l + 1) → c.Shaped l s →
      (c.leafLines disk l).flatten =
        ((c.leafSectors l).flatMap fun x ↦ (ReadSector disk x).bytes).take s.toNat) :
    (cs.flatMap (leafLines disk l)).flatten =
      ((cs.flatMap (leafSectors l)).flatMap fun x ↦ (ReadSector disk x).bytes).take r.toNat := by
  have hp := sizePerPointer_pos (l + 1)
  rw [List.flatMap_assoc, ← sum_childSizes hr hp]
  refine flatten_flatMap_of_forall₂ (p := sizePerPointer (l + 1))
    (P := fun s c ↦ (0 < s ∧ s ≤ sizePerPointer (l + 1)) ∧ c.Shaped l s)
    (fun s c hsc ↦ ih hsc.1.1 hsc.1.2 hsc.2) (fun c hsc ↦ ?_)
    ((List.forall₂_and_left _ _).mpr ⟨fun s hs ↦ mem_childSizes hr hp hs, hc⟩)
    (fun s hs ↦ (mem_childSizes hr hp hs).1.le) (fun s hs ↦ ?_)
  · -- a full child's data sectors hold exactly its share
    obtain ⟨q, hq, hpq⟩ := sizePerPointer_eq_mul (l + 1)
    have hlen := hsc.2.length_leafSectors hl hp le_rfl
    rw [hpq, divRoundUp_mul (by rw [SectorSize_eq]; omega) hq.le] at hlen
    rw [length_flatMap_bytes, hpq, SectorSize_eq]
    omega
  · rw [childSizes_eq hr hp, List.dropLast_concat] at hs
    exact List.eq_of_mem_replicate hs

/-- A shaped subtree of `r` bytes keeps, in its level-0 blocks' lines, the first `r` bytes of its
data sectors. -/
theorem Shaped.flatten_leafLines (disk : Disk) : ∀ {l : Nat} {r : Int} {b : IndexBlock}, l ≤ 2 →
    0 < r → r ≤ sizePerPointer (l + 1) → b.Shaped l r →
      (b.leafLines disk l).flatten =
        ((b.leafSectors l).flatMap fun x ↦ (ReadSector disk x).bytes).take r.toNat
  | 0, _, _, _, _, _, hb => by
    rw [leafLines, flatten_dataLines, hb.counted.numBytes_eq, Int.sub_zero]
    rfl
  | l + 1, _, _, hl, hr, _, hb =>
    hb.children.flatten_leafLines disk (by omega) hr fun hs hs' hsc ↦
      Shaped.flatten_leafLines disk (by omega) hs hs' hsc

end IndexBlock

@[simp] theorem length_dataLines (disk : Disk) (numBytes : Int) (xs : List Int) (k : Int) :
    (dataLines disk numBytes xs k).length = xs.length := by
  induction xs generalizing k with
  | nil => rfl
  | cons x xs ih => simp [dataLines, ih]

namespace FileHeader

section Shaped

variable {n : Int} {h : FileHeader} (hn : 0 ≤ n) (hs : h.Shaped n)
include hn hs

/-- **`FileHeader::Print`.** A shaped header lists its sectors, then writes its blocks' lines. -/
theorem Shaped.Print_eq (disk : Disk) :
    h.Print disk = .ok ("FileHeader contents.  File size: " ++ toString h.numBytes ++
      ".  File blocks:\n" ++ String.join (h.sectors.map printInt) ++ "\nFile contents:\n" ++
      renderLines (h.contentLines disk)) := by
  have hk := hs.levelSectors_le hn
  have htable : printTable h.dataSectors h.levelSectors.toNat 0 =
      .ok (String.join (h.entries.map printInt)) := by
    rw [printTable_eq _ (by omega), List.drop_zero, entries]
  have hdata : printData disk h.numBytes h.dataSectors h.levelSectors.toNat 0 0 =
      .ok (renderLines (dataLines disk h.numBytes h.entries 0)) := by
    rw [printData_eq _ _ _ (by omega), List.drop_zero, entries]
  by_cases hL : h.level = .LDirect
  · simp [Print, hL, htable, hdata, sectors, contentLines, String.append_assoc]
  obtain ⟨l, hl, hl2⟩ := Level.exists_toNat_eq_succ hL
  have hpos := hs.pos_of_ne hL
  have hcs := hs.length_nextIndexBlocks hL
  have hc := hs.children hL
  rw [hl, Nat.add_sub_cancel] at hc
  have hcap := hs.length_nextIndexBlocks_le hn hL
  have hbelow : printChildren (IndexBlock.PrintSectors l) NumPointers.toNat h.nextIndexBlocks
      h.levelSectors.toNat 0 =
      .ok (String.join (h.nextIndexBlocks.map fun c ↦
        String.join ((c.sectors l).map printInt))) := by
    rw [printChildren_eq hcap (fun c hc' ↦ ?_) (by omega), List.drop_zero, ← hcs, List.take_length]
    obtain ⟨s, hs₁, hs₂, hsc⟩ := hc.exists_of_mem hpos hc'
    exact IndexBlock.PrintSectors_eq hl2 hs₁ hs₂ hsc
  have hdataBelow : printChildren (fun c ↦ IndexBlock.PrintContents l c disk) NumPointers.toNat
      h.nextIndexBlocks h.levelSectors.toNat 0 =
      .ok (String.join (h.nextIndexBlocks.map fun c ↦ renderLines (c.contentLines disk l))) := by
    rw [printChildren_eq hcap (fun c hc' ↦ ?_) (by omega), List.drop_zero, ← hcs, List.take_length]
    obtain ⟨s, hs₁, hs₂, hsc⟩ := hc.exists_of_mem hpos hc'
    exact IndexBlock.PrintContents_eq disk hl2 hs₁ hs₂ hsc
  simp [-NumPointers_eq, Print, hL, hl, htable, hdata, hbelow, hdataBelow, sectors, contentLines,
    List.map_flatMap,
    String.join_flatMap, renderLines_flatMap, String.append_assoc]

/-- **`Print` lists the tree.** On every shaped header, whatever the disk holds, `Print` completes,
and its first section lists every sector of the tree, in the order `Allocate` claims them. -/
theorem Print_lists_sectors (disk : Disk) :
    ∃ data, h.Print disk = .ok ("FileHeader contents.  File size: " ++ toString n ++
      ".  File blocks:\n" ++ String.join (h.sectors.map printInt) ++ "\nFile contents:\n" ++
      data) :=
  ⟨_, by rw [hs.Print_eq hn disk, hs.numBytes_eq]⟩

/-- **Below a direct root, `Print` shows the file.** The second section is the file's bytes, in
order, one line for each data sector, every line but the last a whole sector. -/
theorem Print_direct_contents (hL : h.level = .LDirect) (disk : Disk) :
    ∃ lines : List (List UInt8), h.Print disk = .ok ("FileHeader contents.  File size: " ++
        toString n ++ ".  File blocks:\n" ++ String.join (h.sectors.map printInt) ++
        "\nFile contents:\n" ++ renderLines lines) ∧
      lines.flatten = h.contents disk ∧ lines.length = h.leafSectors.length ∧
      ∀ c ∈ lines.dropLast, c.length = SectorSize.toNat := by
  have hlen := (hs.length_entries hn).1
  have hspec := divRoundUp_spec hn (sizePerPointer_pos h.level.toNat)
  rw [hL, Level.toNat_LDirect, sizePerPointer_zero] at hlen hspec
  refine ⟨dataLines disk n h.entries 0, ?_, ?_, ?_,
    dataLines_dropLast (by simp only [SectorSize_eq]; omega)⟩
  · rw [hs.Print_eq hn disk, contentLines, if_pos hL, hs.numBytes_eq]
  · rw [flatten_dataLines, contents, leafSectors, if_pos hL, hs.numBytes_eq, Int.sub_zero]
  · rw [length_dataLines, leafSectors, if_pos hL]

/-- **Below an indirect root, `Print` shows the index tables as file contents.** The root's
entries name index blocks, and the second section opens with every byte of each of their sectors,
one sector to a line, before any byte of the file. -/
theorem Print_indirect_contents (hL : h.level ≠ .LDirect) (disk : Disk) :
    h.entries ≠ [] ∧ (∀ x ∈ h.entries, x ∈ h.indexSectors) ∧
      ∃ rest, h.Print disk = .ok ("FileHeader contents.  File size: " ++ toString n ++
        ".  File blocks:\n" ++ String.join (h.sectors.map printInt) ++ "\nFile contents:\n" ++
        renderLines (h.entries.map fun x ↦ (ReadSector disk x).bytes) ++ rest) := by
  have hlen := hs.length_entries hn
  have hpos := divRoundUp_pos (hs.pos_of_ne hL) (sizePerPointer_pos h.level.toNat)
  -- the root of an indirect file stands for more bytes than its table has entries for sectors
  have hbig : NumPointers * sizePerPointer 0 < n :=
    (InitLevel_eq_ok hs.level_eq).2 .LDirect (Level.one_le_toNat hL)
  simp only [NumPointers_eq, sizePerPointer_zero] at hbig hlen
  refine ⟨fun he ↦ by simp [he] at hlen; omega, fun x hx ↦ by simp [indexSectors, hL, hx],
    renderLines (h.nextIndexBlocks.flatMap
      (IndexBlock.contentLines disk (h.level.toNat - 1))), ?_⟩
  rw [hs.Print_eq hn disk, contentLines, if_neg hL, hs.numBytes_eq,
    dataLines_of_full (by simp only [SectorSize_eq]; omega), renderLines_append,
    ← String.append_assoc]

/-- **`Print` shows every byte of the file.** On every shaped header and every disk, the lines
`Print` writes for data sectors, taken in the order it writes them, are the file's bytes end to
end. Below an indirect root the other lines are index tables (`Print_indirect_contents`). -/
theorem Print_shows_contents (disk : Disk) :
    ∃ lines, h.Print disk = .ok ("FileHeader contents.  File size: " ++ toString n ++
        ".  File blocks:\n" ++ String.join (h.sectors.map printInt) ++ "\nFile contents:\n" ++
        renderLines lines) ∧
      (h.leafLines disk).Sublist lines ∧ (h.leafLines disk).flatten = h.contents disk := by
  refine ⟨h.contentLines disk, by rw [hs.Print_eq hn disk, hs.numBytes_eq],
    h.leafLines_sublist disk, ?_⟩
  rw [leafLines, contents, leafSectors]
  split_ifs with hL
  · rw [flatten_dataLines, Int.sub_zero]
  · obtain ⟨l, hl, hl2⟩ := Level.exists_toNat_eq_succ hL
    have hc := hs.children hL
    rw [hl, Nat.add_sub_cancel] at hc ⊢
    rw [hs.numBytes_eq]
    exact hc.flatten_leafLines disk hl2 (hs.pos_of_ne hL) fun hs₁ hs₂ hsc ↦
      IndexBlock.Shaped.flatten_leafLines disk hl2 hs₁ hs₂ hsc

end Shaped

/-- The saved 200-byte file, printed from a blank disk. -/
theorem Print_lists_sectors_at_200 :
    (0 : Int) ≤ 200 ∧ savedFile.Shaped 200 ∧
      ∃ data, savedFile.Print blankDisk = .ok ("FileHeader contents.  File size: " ++
        toString (200 : Int) ++ ".  File blocks:\n" ++
        String.join (savedFile.sectors.map printInt) ++ "\nFile contents:\n" ++ data) := by
  have hs : savedFile.Shaped 200 := ⟨rfl, rfl, rfl, fun h ↦ absurd rfl h⟩
  exact ⟨by decide, hs, Print_lists_sectors (by decide) hs blankDisk⟩

theorem Print_direct_contents_at_200 :
    (0 : Int) ≤ 200 ∧ savedFile.Shaped 200 ∧ savedFile.level = .LDirect ∧
      ∃ lines : List (List UInt8), savedFile.Print blankDisk = .ok
          ("FileHeader contents.  File size: " ++ toString (200 : Int) ++ ".  File blocks:\n" ++
            String.join (savedFile.sectors.map printInt) ++ "\nFile contents:\n" ++
            renderLines lines) ∧
        lines.flatten = savedFile.contents blankDisk ∧
        lines.length = savedFile.leafSectors.length ∧
        ∀ c ∈ lines.dropLast, c.length = SectorSize.toNat := by
  have hs : savedFile.Shaped 200 := ⟨rfl, rfl, rfl, fun h ↦ absurd rfl h⟩
  exact ⟨by decide, hs, rfl, Print_direct_contents (by decide) hs rfl blankDisk⟩

/-- Printing the 3841-byte file from a blank disk: the contents section opens with sector 1, the
index table, before the file's 3841 bytes. -/
theorem Print_indirect_contents_at_3841 :
    (0 : Int) ≤ 3841 ∧ singleIndirectFile.Shaped 3841 ∧
      singleIndirectFile.level ≠ .LDirect ∧ singleIndirectFile.entries ≠ [] ∧
      (∀ x ∈ singleIndirectFile.entries, x ∈ singleIndirectFile.indexSectors) ∧
      ∃ rest, singleIndirectFile.Print blankDisk = .ok ("FileHeader contents.  File size: " ++
        toString (3841 : Int) ++ ".  File blocks:\n" ++
        String.join (singleIndirectFile.sectors.map printInt) ++ "\nFile contents:\n" ++
        renderLines (singleIndirectFile.entries.map fun x ↦ (ReadSector blankDisk x).bytes) ++
        rest) :=
  ⟨by decide, singleIndirectFile_shaped, by decide,
    Print_indirect_contents (by decide) singleIndirectFile_shaped (by decide) blankDisk⟩

/-- The 3841-byte file, printed from a blank disk: its 3841 bytes are in the lines of its one
level-0 block. -/
theorem Print_shows_contents_at_3841 :
    (0 : Int) ≤ 3841 ∧ singleIndirectFile.Shaped 3841 ∧
      ∃ lines, singleIndirectFile.Print blankDisk = .ok ("FileHeader contents.  File size: " ++
          toString (3841 : Int) ++ ".  File blocks:\n" ++
          String.join (singleIndirectFile.sectors.map printInt) ++ "\nFile contents:\n" ++
          renderLines lines) ∧
        (singleIndirectFile.leafLines blankDisk).Sublist lines ∧
        (singleIndirectFile.leafLines blankDisk).flatten = singleIndirectFile.contents blankDisk :=
  ⟨by decide, singleIndirectFile_shaped,
    Print_shows_contents (by decide) singleIndirectFile_shaped blankDisk⟩

end FileHeader

end NachosFilehdr
