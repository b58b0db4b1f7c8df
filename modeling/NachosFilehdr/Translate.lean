import NachosFilehdr.Allocate

/-!
# Translating an offset

`ByteToSector(offset)` walks down the tree: at each block it picks the pointer
`offset / sizePerPointer[level]` and hands the child what is left of the offset. On a shaped tree
the walk lands on the file's `offset / SectorSize`-th data sector in file order, the
`(offset / SectorSize)`-th entry of `leafSectors` (`FileHeader.Shaped.ByteToSector`), and every
`ASSERT`, table read and child pointer on the way is in range.

## Counting positions

The walk and `leafSectors` meet through one fact about `flatMap`: when the first `j` pieces all
have `c` elements, position `j * c + t` of the whole list is position `t` of piece `j`
(`getElem?_flatMap_of_uniform`). Every child before the one the walk enters is full, so it holds
`sizePerPointer[level] / SectorSize` data sectors, and the arithmetic of the offsets is that of the
positions.
-/

namespace NachosFilehdr

/-- Position `j * c + t` of a `flatMap` whose first `j` pieces have `c` elements each is position
`t` of piece `j`. -/
theorem getElem?_flatMap_of_uniform {α β : Type} {f : α → List β} {c t : Nat} {a : α} :
    ∀ {cs : List α} {j : Nat}, cs[j]? = some a → (∀ b ∈ cs.take j, (f b).length = c) →
      t < (f a).length → (cs.flatMap f)[j * c + t]? = (f a)[t]?
  | [], _, hj, _, _ => by simp at hj
  | b :: cs, 0, hj, _, ht => by
    obtain rfl : b = a := by simpa using hj
    rw [List.flatMap_cons, Nat.zero_mul, Nat.zero_add, List.getElem?_append_left ht]
  | b :: cs, j + 1, hj, hc, ht => by
    have hb : (f b).length = c := hc b (List.mem_cons_self b _)
    rw [List.flatMap_cons, List.getElem?_append_right (by rw [hb, Nat.succ_mul]; omega), hb,
      show (j + 1) * c + t - c = j * c + t by rw [Nat.succ_mul]; omega]
    exact getElem?_flatMap_of_uniform (by simpa using hj)
      (fun b' hb' ↦ hc b' (List.mem_cons_of_mem b (by simpa using hb'))) ht

/-- Byte `o` of `r` bytes lies in a sector below `⌈r / s⌉`. -/
theorem ediv_lt_divRoundUp {o r s : Int} (ho : 0 ≤ o) (hor : o < r) (hs : 0 < s) :
    o / s < divRoundUp r s :=
  Int.ediv_lt_of_lt_mul hs (Int.lt_of_lt_of_le hor (divRoundUp_spec (by omega) hs).2.1)

/-- The entry for byte `o` of a table whose first `⌈r / s⌉` entries are active, one per `s`
bytes, is an active entry and is read without fault. -/
theorem Table.read_tdiv {size : Int} (t : Table size) {o r s : Int} (ho : 0 ≤ o) (hor : o < r)
    (hs : 0 < s) (hk : (divRoundUp r s).toNat ≤ t.entries.length) :
    ∃ x, (t.entries.take (divRoundUp r s).toNat)[(o / s).toNat]? = some x ∧
      t.read (o.tdiv s) = .ok x := by
  have hlt := ediv_lt_divRoundUp ho hor hs
  have hj := Int.ediv_nonneg ho hs.le
  refine ⟨_, by rw [List.getElem?_take, if_pos (by omega), List.getElem?_eq_getElem (by omega)], ?_⟩
  have hread := t.read_of_lt (i := (o / s).toNat) (by omega)
  rw [Int.tdiv_eq_ediv ho hs.le]
  simpa only [Int.toNat_of_nonneg hj] using hread

/-- Counting sectors through full pointers: with `p = SectorSize * q`, sector `o / SectorSize` is
sector `(o % p) / SectorSize` of pointer `o / p`. -/
theorem ediv_SectorSize_eq {o p q : Int} (hpq : p = SectorSize * q) :
    o / SectorSize = o % p / SectorSize + o / p * q := by
  have e : o % p + o / p * q * SectorSize = o := by
    rw [Int.mul_assoc, Int.mul_comm q, ← hpq]
    have := Int.ediv_add_emod' o p
    omega
  conv_lhs => rw [← e]
  exact Int.add_mul_ediv_right _ _ (by decide)

theorem toNat_ediv_SectorSize {o p q : Int} (ho : 0 ≤ o) (hq : 0 < q) (hpq : p = SectorSize * q) :
    (o / SectorSize).toNat = (o / p).toNat * q.toNat + (o % p / SectorSize).toNat := by
  have hp : 0 < p := by rw [hpq, SectorSize_eq]; omega
  have key : o / SectorSize = o % p / SectorSize + o / p * q := ediv_SectorSize_eq hpq
  have h1 := Int.ediv_nonneg (Int.emod_nonneg o hp.ne') (by decide : (0 : Int) ≤ SectorSize)
  have h2 := Int.ediv_nonneg ho hp.le
  apply Int.ofNat_inj.mp
  push_cast [Int.toNat_of_nonneg h1, Int.toNat_of_nonneg h2, Int.toNat_of_nonneg hq.le,
    Int.toNat_of_nonneg (Int.ediv_nonneg ho (by decide : (0 : Int) ≤ SectorSize))]
  rw [key, Int.add_comm]

/-- The offset the walk hands child `o / p` lies inside that child's share. -/
theorem emod_lt_childSize {o r p : Int} (ho : 0 ≤ o) (hor : o < r) (hp : 0 < p) :
    o % p < childSize (divRoundUp r p) r p (o / p).toNat := by
  have hdm := Int.ediv_add_emod' o p
  have hj0 := Int.ediv_nonneg ho hp.le
  have hjK := ediv_lt_divRoundUp ho hor hp
  by_cases hlast : o / p = divRoundUp r p - 1
  · rw [hlast, childSize_last (by omega) hp, ← hlast]
    omega
  · rw [childSize_of_lt (by omega)]
    exact Int.emod_lt_of_pos o hp

namespace IndexBlock

variable {l : Nat} {r o : Int}

/-- Every child but the last is full: with `sizePerPointer[l + 1] = SectorSize * q`, it holds `q`
data sectors. -/
theorem ShapedChildren.length_leafSectors_of_lt {cs : List IndexBlock} {q : Int}
    (hc : ShapedChildren l r cs) (hl : l ≤ 2) (hq : 0 < q)
    (hpq : sizePerPointer (l + 1) = SectorSize * q) {i : Nat} {b : IndexBlock}
    (hb : cs[i]? = some b) (hi : (i : Int) < divRoundUp r (sizePerPointer (l + 1)) - 1) :
    (b.leafSectors l).length = q.toNat := by
  obtain ⟨-, hbs⟩ := hc.getElem? hb
  rw [childSize_of_lt hi] at hbs
  have := hbs.length_leafSectors hl (sizePerPointer_pos _) le_rfl
  rw [hpq, divRoundUp_mul (by decide) hq.le] at this
  omega

/-- Both `ASSERT`s of `ByteToSector` hold on a block for any byte it stands for. -/
theorem Counted.checkOffset {b : IndexBlock} (h : b.Counted l r) (ho : 0 ≤ o) (hor : o < r) :
    b.checkOffset l o = .ok () := by
  have := (divRoundUp_spec (show 0 ≤ r by omega) (sizePerPointer_pos l)).2.1
  simp only [IndexBlock.checkOffset, ASSERT_of_true (show o ≥ 0 from ho), ok_bind,
    h.levelSectors_eq]
  exact ASSERT_of_true (by omega) _

/-- **The walk through the children.** Past its own checks, a level-`l + 1` block of `r` bytes
enters child `o / p` at offset `o - (o / p) * p` (with `p = sizePerPointer[l + 1]`), and lands on
entry `o / SectorSize` of its children's data sectors, given that each child does so. -/
theorem ShapedChildren.ByteToSector {cs : List IndexBlock} (hc : ShapedChildren l r cs)
    {capacity : Nat} (hcap : cs.length ≤ capacity) (hl : l ≤ 2) (ho : 0 ≤ o) (hor : o < r)
    (ih : ∀ (s : Int) (c : IndexBlock), 0 < s → s ≤ sizePerPointer (l + 1) → c.Shaped l s →
      ∀ o', 0 ≤ o' → o' < s →
        ∃ x, (c.leafSectors l)[(o' / SectorSize).toNat]? = some x ∧ c.ByteToSector l o' = .ok x) :
    ∃ x, (cs.flatMap (leafSectors l))[(o / SectorSize).toNat]? = some x ∧
      (do
        let child ← childAt capacity cs (o.tdiv (sizePerPointer (l + 1))).toNat
        child.ByteToSector l (o - o.tdiv (sizePerPointer (l + 1)) * sizePerPointer (l + 1)))
        = .ok x := by
  have hr : 0 < r := by omega
  have hp := sizePerPointer_pos (l + 1)
  obtain ⟨q, hq, hpq⟩ := sizePerPointer_eq_mul (l + 1)
  have hmod := Int.emod_nonneg o hp.ne'
  have hj0 := Int.ediv_nonneg ho hp.le
  have hjK := ediv_lt_divRoundUp ho hor hp
  rw [Int.tdiv_eq_ediv ho hp.le, show o - o / sizePerPointer (l + 1) * sizePerPointer (l + 1)
    = o % sizePerPointer (l + 1) by have := Int.ediv_add_emod' o (sizePerPointer (l + 1)); omega]
  -- the child the walk enters, and the offset it is handed, inside its share
  have hjlt : (o / sizePerPointer (l + 1)).toNat < cs.length := by rw [hc.length]; omega
  obtain ⟨c, hcj⟩ : ∃ c, cs[(o / sizePerPointer (l + 1)).toNat]? = some c :=
    ⟨_, List.getElem?_eq_getElem hjlt⟩
  obtain ⟨-, hsc⟩ := hc.getElem? hcj
  have hsize := childSize_bounds hr hp (o / sizePerPointer (l + 1)).toNat
  have ho'lt := emod_lt_childSize ho hor hp
  obtain ⟨x, hx, hrun⟩ := ih _ c hsize.1 hsize.2 hsc _ hmod ho'lt
  refine ⟨x, ?_, by rw [childAt_eq_ok.mpr ⟨by omega, hcj⟩, ok_bind]; exact hrun⟩
  -- every child before it is full
  have hfull : ∀ b ∈ cs.take (o / sizePerPointer (l + 1)).toNat,
      (b.leafSectors l).length = q.toNat := fun b hb ↦ by
    obtain ⟨i, hbi⟩ := List.mem_iff_getElem?.mp hb
    rw [List.getElem?_take] at hbi
    split_ifs at hbi with hi'
    exact hc.length_leafSectors_of_lt hl hq hpq hbi (by omega)
  rw [toNat_ediv_SectorSize ho hq hpq, getElem?_flatMap_of_uniform hcj hfull ?_, hx]
  have := hsc.length_leafSectors hl hsize.1 hsize.2
  have := ediv_lt_divRoundUp (s := SectorSize) hmod ho'lt (by decide)
  have := Int.ediv_nonneg hmod (by decide : (0 : Int) ≤ SectorSize)
  omega

/-- **`IndexBlock::ByteToSector`.** On a shaped level-`l` subtree of `r` bytes, every byte
`0 ≤ o < r` passes both `ASSERT`s at every block on the way down and maps to the subtree's
`o / SectorSize`-th data sector. -/
theorem Shaped.ByteToSector {b : IndexBlock} (hl : l ≤ 2) (hr' : r ≤ sizePerPointer (l + 1))
    (h : b.Shaped l r) (ho : 0 ≤ o) (hor : o < r) :
    ∃ x, (b.leafSectors l)[(o / SectorSize).toNat]? = some x ∧ b.ByteToSector l o = .ok x := by
  induction l generalizing r b o with
  | zero =>
    have hent := h.counted.length_entries (by omega) (by simpa using hr')
    have hlen := b.nextSectors.length_eq
    simp only [NumSectorInt_eq] at hlen hent
    obtain ⟨x, hx, hread⟩ := b.nextSectors.read_tdiv ho hor (sizePerPointer_pos 0) (by omega)
    refine ⟨x, by rw [leafSectors, entries, h.counted.levelSectors_eq]; exact hx, ?_⟩
    rw [ByteToSector, h.counted.checkOffset ho hor, ok_bind]
    exact hread
  | succ l ih =>
    obtain ⟨x, hx, hrun⟩ := h.children.ByteToSector (h.length_nextIndexBlocks_le (by omega)
      (by rwa [← sizePerPointer_succ (by omega)])) (by omega) ho hor
      fun s c _ hs' hsc o' ho' ho's ↦ ih (by omega) hs' hsc ho' ho's
    exact ⟨x, hx, by rw [ByteToSector, h.counted.checkOffset ho hor, ok_bind]; exact hrun⟩

end IndexBlock

namespace FileHeader

variable {n o : Int} {h : FileHeader}

/-- **`FileHeader::ByteToSector`.** On a shaped header for `n` bytes, every byte `0 ≤ o < n`
maps, past every check on the way down, to the file's `o / SectorSize`-th data sector. -/
theorem Shaped.ByteToSector (hs : h.Shaped n) (ho : 0 ≤ o) (hon : o < n) :
    ∃ x, h.leafSectors[(o / SectorSize).toNat]? = some x ∧ h.ByteToSector o = .ok x := by
  have hn : 0 ≤ n := by omega
  by_cases hL : h.level = .LDirect
  · obtain ⟨x, hx, hread⟩ := h.dataSectors.read_tdiv ho hon (sizePerPointer_pos h.level.toNat)
      (by rw [← hs.levelSectors_eq]; exact hs.levelSectors_le hn)
    refine ⟨x, by rw [leafSectors, if_pos hL, entries, hs.levelSectors_eq, hL]; rwa [hL] at hx, ?_⟩
    rw [FileHeader.ByteToSector, if_pos hL]
    exact hread
  · obtain ⟨l, hl⟩ : ∃ l, h.level.toNat = l + 1 :=
      ⟨h.level.toNat - 1, by have := Level.one_le_toNat hL; omega⟩
    have hl2 : l ≤ 2 := by have := h.level.toNat_le; omega
    have hc := hs.children hL
    rw [hl, Nat.add_sub_cancel] at hc
    obtain ⟨x, hx, hrun⟩ := hc.ByteToSector (hs.length_nextIndexBlocks_le hn hL) hl2 ho hon
      fun s c _ hs' hsc o' ho' ho's ↦ hsc.ByteToSector hl2 hs' ho' ho's
    refine ⟨x, by simpa [leafSectors, hL, hl] using hx, ?_⟩
    have hj := Int.tdiv_nonneg ho (sizePerPointer_pos (l + 1)).le
    simp only [FileHeader.ByteToSector, if_neg hL, hl, Nat.add_sub_cancel,
      if_neg (Int.not_lt.mpr hj)]
    exact hrun

/-- Two headers shaped for one length with the same data sectors translate every byte alike. -/
theorem Shaped.ByteToSector_congr {h' : FileHeader} (hs : h.Shaped n) (hs' : h'.Shaped n)
    (hleaf : h'.leafSectors = h.leafSectors) (ho : 0 ≤ o) (hon : o < n) :
    h'.ByteToSector o = h.ByteToSector o := by
  obtain ⟨y, hy, hb⟩ := hs.ByteToSector ho hon
  obtain ⟨y', hy', hb'⟩ := hs'.ByteToSector ho hon
  rw [hleaf, hy, Option.some_inj] at hy'
  rw [hb, hb', hy']

/-- After a successful `Allocate` of `n` bytes, every byte of the file translates without a
fault to its own data sector: the file's `o / SectorSize`-th level-0 entry, a sector that was clear
before and is set after, and not an index sector. Two bytes share a sector exactly when they share
a `SectorSize` block. -/
theorem ByteToSector_of_Allocate {self : FileHeader} {m m' : Bitmap} (hn : 0 ≤ n)
    (hn' : n ≤ MaxFileSize) (hA : self.Allocate m n = .ok (true, h, m')) {o₁ o₂ : Int}
    (ho₁ : 0 ≤ o₁) (ho₁' : o₁ < n) (ho₂ : 0 ≤ o₂) (ho₂' : o₂ < n) :
    ∃ x : Nat, h.ByteToSector o₁ = .ok (x : Int) ∧
      h.leafSectors[(o₁ / SectorSize).toNat]? = some (x : Int) ∧ m.IsFree x ∧ m'.IsUsed x ∧
      (x : Int) ∉ h.indexSectors ∧
      (h.ByteToSector o₁ = h.ByteToSector o₂ ↔ o₁ / SectorSize = o₂ / SectorSize) := by
  obtain ⟨xs, rfl, hxs, -, hs, -, hsec⟩ := Allocate_of_true hn hn' hA
  obtain ⟨y₁, hy₁, hb₁⟩ := hs.ByteToSector ho₁ ho₁'
  obtain ⟨y₂, hy₂, hb₂⟩ := hs.ByteToSector ho₂ ho₂'
  have hperm : (h.leafSectors ++ h.indexSectors).Perm (xs.map (↑)) := hsec ▸ (sectors_perm h).symm
  have hnd := hperm.nodup_iff.mpr (hxs.1.map Nat.cast_injective)
  have hmem₁ := List.getElem?_mem hy₁
  obtain ⟨x, hx, rfl⟩ := List.mem_map.mp (hperm.subset (List.mem_append_left _ hmem₁))
  refine ⟨x, hb₁, hy₁, hxs.2 x hx, (hxs.2 x hx).markAll_used hx,
    fun hi ↦ List.disjoint_of_nodup_append hnd hmem₁ hi, ?_⟩
  rw [hb₁, hb₂]
  constructor
  · intro heq
    cases heq
    have hi := List.getElem?_inj (List.getElem?_eq_some_iff.mp hy₁).1
      (List.nodup_append.mp hnd).1 (hy₁.trans hy₂.symm)
    have := Int.ediv_nonneg ho₁ (by decide : (0 : Int) ≤ SectorSize)
    have := Int.ediv_nonneg ho₂ (by decide : (0 : Int) ≤ SectorSize)
    omega
  · intro heq
    rw [heq, hy₂] at hy₁
    cases hy₁
    rfl

/-- A map of 33 sectors whose sector 0 is taken, for a header, and the other 32 free. -/
def headerOnlyMap : Bitmap := ⟨true :: List.replicate 32 false, by decide⟩

/-- The same map with all 33 sectors taken. -/
def fullMap : Bitmap := ⟨List.replicate 33 true, by decide⟩

/-- The header `Allocate` builds on `headerOnlyMap` for a 3841-byte file, one byte past what a
direct root holds: its root names one index block, in sector 1, whose table names the 31 data
sectors 2 to 32. -/
def singleIndirectFile : FileHeader :=
  ⟨3841, 31, ⟨1 :: List.replicate 29 (-1), rfl⟩, .LSingle, 1,
    [⟨3841, 31, 31,
      ⟨(List.range 31).map (fun i : Nat ↦ (i : Int) + 2) ++ [-1], by decide⟩, []⟩]⟩

theorem singleIndirectFile_shaped : singleIndirectFile.Shaped 3841 := by
  refine ⟨rfl, rfl, by decide, fun _ ↦ IndexBlock.shapedChildren_of_getElem? (by decide) ?_⟩
  rintro (_ | i) c hc
  · cases Option.some_inj.mp hc
    exact ⟨⟨rfl, by decide, by decide, by decide⟩, rfl⟩
  · cases hc

/-- `singleIndirectFile` is what `Allocate` builds for 3841 bytes on `headerOnlyMap`, which it
leaves full. -/
theorem Allocate_headerOnlyMap :
    new.Allocate headerOnlyMap 3841 = .ok (true, singleIndirectFile, fullMap) := rfl

/-- Bytes 3840 and 150 of that file, found through its index block, lie in its last and its
second data sector. -/
theorem ByteToSector_of_Allocate_at_3841 :
    (0 : Int) ≤ 3841 ∧ (3841 : Int) ≤ MaxFileSize ∧
      new.Allocate headerOnlyMap 3841 = .ok (true, singleIndirectFile, fullMap) ∧
      (0 : Int) ≤ 3840 ∧ (3840 : Int) < 3841 ∧ (0 : Int) ≤ 150 ∧ (150 : Int) < 3841 ∧
      ∃ x : Nat, singleIndirectFile.ByteToSector 3840 = .ok (x : Int) ∧
        singleIndirectFile.leafSectors[((3840 : Int) / SectorSize).toNat]? = some (x : Int) ∧
        headerOnlyMap.IsFree x ∧ fullMap.IsUsed x ∧ (x : Int) ∉ singleIndirectFile.indexSectors ∧
        (singleIndirectFile.ByteToSector 3840 = singleIndirectFile.ByteToSector 150 ↔
          (3840 : Int) / SectorSize = 150 / SectorSize) :=
  ⟨by decide, by decide, Allocate_headerOnlyMap, by decide, by decide, by decide, by decide,
    ByteToSector_of_Allocate (by decide) (by decide) Allocate_headerOnlyMap (by decide)
      (by decide) (by decide) (by decide)⟩

end FileHeader

end NachosFilehdr
