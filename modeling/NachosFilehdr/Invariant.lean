import NachosFilehdr.Persist

/-!
# The shape invariant

Every header the source builds, by `Allocate` or by `FetchFrom`, has the shape its length fixes:
the least level that reaches it, a root count within `NumPointers`, every index block within the
reach of its table, and every node's bytes split among its children as full pointers and a nonzero
rest. `FileHeader.Invariant` states these bounds in the source's own terms, which keeps every
array index and the `ASSERT(remSize > 0)` of `IndexBlock::Allocate` in range.

Both ways of building a header give a shaped header (`Allocate_of_true`, `FetchFrom_spec`), and
a shaped header has the invariant (`FileHeader.Shaped.invariant`), so both give it
(`shape_invariant`). The one field the shape leaves open is the root's `numSectors`: `Allocate`
computes it, while `FetchFrom` takes it from the disk as stored
(`FetchFrom_keeps_stored_numSectors`).
-/

namespace NachosFilehdr

/-- How a node of `r` bytes with `levelSectors` active entries hands its bytes to its children,
`p` bytes per pointer: each child but the last gets `p`, the last the nonzero rest, so together
they get `r`. -/
def SplitsAs (cs : List IndexBlock) (levelSectors r p : Int) : Prop :=
  cs.map IndexBlock.numBytes =
      List.replicate (levelSectors - 1).toNat p ++ [r - (levelSectors - 1) * p] ∧
    0 < r - (levelSectors - 1) * p ∧ (cs.map IndexBlock.numBytes).sum = r

namespace IndexBlock

/-- Every block of a level-`l` subtree with its level: the block itself, then the blocks of each
child's subtree in order. -/
def blocks : Nat → IndexBlock → List (Nat × IndexBlock)
  | 0, b => [(0, b)]
  | l + 1, b => (l + 1, b) :: b.nextIndexBlocks.flatMap (blocks l)

/-- The bounds the source relies on at a level-`l` block. -/
structure Bounded (l : Nat) (b : IndexBlock) : Prop where
  numBytes_pos : 0 < b.numBytes
  numBytes_le : b.numBytes ≤ NumSectorInt * sizePerPointer l
  levelSectors_eq : b.levelSectors = divRoundUp b.numBytes (sizePerPointer l)
  levelSectors_le : b.levelSectors ≤ NumSectorInt
  children : l ≠ 0 → SplitsAs b.nextIndexBlocks b.levelSectors b.numBytes (sizePerPointer l)

/-- The children of a shaped block split its bytes as the source does. -/
theorem ShapedChildren.splitsAs {l : Nat} {r : Int} {cs : List IndexBlock} (hr : 0 < r)
    (hc : ShapedChildren l r cs) :
    SplitsAs cs (divRoundUp r (sizePerPointer (l + 1))) r (sizePerPointer (l + 1)) := by
  have hp := sizePerPointer_pos (l + 1)
  have hmap : cs.map numBytes =
      childSizes (divRoundUp r (sizePerPointer (l + 1))) r (sizePerPointer (l + 1)) := by
    simpa using (map_eq_of_forall₂ (f := id) hc fun _ _ _ hsc ↦ hsc.counted.numBytes_eq.symm).symm
  rw [SplitsAs, hmap]
  exact ⟨childSizes_eq hr hp, (lastChild_bounds hr hp).1, sum_childSizes hr hp⟩

theorem Counted.bounded {l : Nat} {r : Int} {b : IndexBlock} (hb : b.Counted l r) (hr : 0 < r)
    (hr' : r ≤ NumSectorInt * sizePerPointer l)
    (hc : l ≠ 0 →
      SplitsAs b.nextIndexBlocks (divRoundUp r (sizePerPointer l)) r (sizePerPointer l)) :
    b.Bounded l where
  numBytes_pos := hb.numBytes_eq ▸ hr
  numBytes_le := hb.numBytes_eq ▸ hr'
  levelSectors_eq := hb.numBytes_eq ▸ hb.levelSectors_eq
  levelSectors_le := hb.levelSectors_eq ▸ (hb.length_entries hr hr').2
  children hl := hb.numBytes_eq ▸ hb.levelSectors_eq ▸ hc hl

/-- **Every block of a shaped subtree is bounded.** -/
theorem Shaped.bounded : ∀ {l : Nat} {r : Int} {b : IndexBlock}, l ≤ 2 → 0 < r →
    r ≤ sizePerPointer (l + 1) → b.Shaped l r → ∀ p ∈ b.blocks l, p.2.Bounded p.1
  | 0, _, _, _, hr, hr', hb, p, hp => by
    rw [blocks, List.mem_singleton] at hp
    subst hp
    exact hb.counted.bounded hr (by rwa [← sizePerPointer_succ (by omega)]) fun h ↦ absurd rfl h
  | l + 1, r, b, hl, hr, hr', hb, p, hp => by
    rw [blocks, List.mem_cons, List.mem_flatMap] at hp
    rcases hp with rfl | ⟨c, hc, hp⟩
    · exact hb.counted.bounded hr (by rwa [← sizePerPointer_succ (by omega)])
        fun _ ↦ hb.children.splitsAs hr
    · obtain ⟨s, hs, hs', hsc⟩ := hb.children.exists_of_mem hr hc
      exact Shaped.bounded (by omega) hs hs' hsc p hp

end IndexBlock

namespace FileHeader

/-- Every index block of the tree with its level; none at `LDirect`. -/
def blocks (h : FileHeader) : List (Nat × IndexBlock) :=
  if h.level = .LDirect then []
  else h.nextIndexBlocks.flatMap (IndexBlock.blocks (h.level.toNat - 1))

/-- **The shape of a header of `n` bytes.** -/
structure Invariant (n : Int) (h : FileHeader) : Prop where
  numBytes_eq : h.numBytes = n
  /-- The level is the least whose root table reaches `n` bytes. -/
  level_least : n ≤ NumPointers * sizePerPointer h.level.toNat ∧
    ∀ L : Level, L.toNat < h.level.toNat → NumPointers * sizePerPointer L.toNat < n
  levelSectors_eq : h.levelSectors = divRoundUp n (sizePerPointer h.level.toNat)
  levelSectors_le : h.levelSectors ≤ NumPointers
  children : h.level ≠ .LDirect →
    SplitsAs h.nextIndexBlocks h.levelSectors n (sizePerPointer h.level.toNat)
  blocks : ∀ p ∈ h.blocks, p.2.Bounded p.1
  /-- The level-0 entries are `⌈n / SectorSize⌉` in all. -/
  leaves : (h.leafSectors.length : Int) = divRoundUp n SectorSize

/-- **A shaped header has the invariant.** -/
theorem Shaped.invariant {n : Int} {h : FileHeader} (hn : 0 ≤ n) (hs : h.Shaped n) :
    h.Invariant n where
  numBytes_eq := hs.numBytes_eq
  level_least := InitLevel_eq_ok hs.level_eq
  levelSectors_eq := hs.levelSectors_eq
  levelSectors_le := hs.levelSectors_eq ▸ (hs.length_entries hn).2
  children hL := by
    have := (hs.children hL).splitsAs (hs.pos_of_ne hL)
    rwa [Nat.sub_add_cancel (Level.one_le_toNat hL), ← hs.levelSectors_eq] at this
  blocks p hp := by
    unfold blocks at hp
    split_ifs at hp with hL
    · cases hp
    · obtain ⟨c, hc, hp⟩ := List.mem_flatMap.mp hp
      obtain ⟨s, hs0, hs1, hsc⟩ := (hs.children hL).exists_of_mem (hs.pos_of_ne hL) hc
      exact IndexBlock.Shaped.bounded (by have := h.level.toNat_le; omega) hs0 hs1 hsc p hp
  leaves := hs.length_leafSectors hn

/-- **Both ways of building a header give its shape.** For every length the header supports, the
header of a successful `Allocate`, whose `numSectors` is then `⌈n / SectorSize⌉`, and the header
`FetchFrom` loads, into any header, from any disk whose root sector stores that length, have the
invariant. -/
theorem shape_invariant {n : Int} (hn : 0 ≤ n) (hn' : n ≤ MaxFileSize) :
    (∀ {self h : FileHeader} {m m' : Bitmap}, self.Allocate m n = .ok (true, h, m') →
      h.Invariant n ∧ h.numSectors = divRoundUp n SectorSize) ∧
    ∀ (self : FileHeader) (disk : Disk) (s : Int), (ReadSector disk s).numBytesField = n →
      ∃ h reads, self.FetchFrom disk s = .ok (h, reads) ∧ h.Invariant n := by
  refine ⟨fun hA ↦ ?_, fun self disk s hs ↦ ?_⟩
  · obtain ⟨-, -, -, -, hsh, hns, -⟩ := Allocate_of_true hn hn' hA
    exact ⟨hsh.invariant hn, hns⟩
  · obtain ⟨h, hF, hsh, -⟩ := FetchFrom_spec self disk s (hs ▸ hn) (hs ▸ hn')
    rw [hs] at hsh
    exact ⟨h, _, hF, hsh.invariant hn⟩

/-- The smallest single-indirect file, with an index block below its root. -/
theorem shape_invariant_at_3841 :
    (0 : Int) ≤ 3841 ∧ (3841 : Int) ≤ MaxFileSize ∧
      (∀ {self h : FileHeader} {m m' : Bitmap}, self.Allocate m 3841 = .ok (true, h, m') →
        h.Invariant 3841 ∧ h.numSectors = divRoundUp 3841 SectorSize) ∧
      ∀ (self : FileHeader) (disk : Disk) (s : Int), (ReadSector disk s).numBytesField = 3841 →
        ∃ h reads, self.FetchFrom disk s = .ok (h, reads) ∧ h.Invariant 3841 :=
  ⟨by decide, by decide, shape_invariant (by decide) (by decide)⟩

/-- A disk whose every sector stores an empty file that claims one sector. -/
def staleDisk : Disk := fun _ ↦ Sector.ofHeader 0 1 (Table.memsetNegOne NumPointers)

/-- `FetchFrom` keeps the stored `numSectors` of an empty file that claims one sector, though the
file has no data sector. -/
theorem FetchFrom_keeps_stored_numSectors :
    (ReadSector staleDisk 0).numBytesField = 0 ∧
      ∃ h reads, new.FetchFrom staleDisk 0 = .ok (h, reads) ∧
        h.numSectors ≠ divRoundUp 0 SectorSize ∧ (h.leafSectors.length : Int) ≠ h.numSectors := by
  have h0 : (ReadSector staleDisk 0).numBytesField = 0 := rfl
  have h1 : (ReadSector staleDisk 0).numSectorsField = 1 := rfl
  obtain ⟨h, hF, hsh, hns, -⟩ :=
    FetchFrom_spec new staleDisk 0 (by rw [h0]) (by rw [h0]; decide)
  rw [h0] at hsh
  have hleaf := hsh.length_leafSectors le_rfl
  refine ⟨h0, h, _, hF, ?_, ?_⟩
  · rw [hns, h1]
    decide
  · rw [hns, h1, hleaf]
    decide

end FileHeader

end NachosFilehdr
