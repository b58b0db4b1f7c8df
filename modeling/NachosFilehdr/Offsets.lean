import NachosFilehdr.Reload

/-!
# `ByteToSector` at every offset

`FileHeader::ByteToSector` checks nothing at the root, and each index block below checks only
that the offset falls within its active entries. This file says what the walk does at offsets the
claims about a file's own bytes leave out.

The walk depends on an offset through its sector `offset / SectorSize` only: every pointer
reaches a whole number of sectors, so rounding an offset down to the start of its sector changes
neither the pointer taken at any level nor the outcome of any `ASSERT`
(`FileHeader.ByteToSector_align`). This holds for every header, whatever it holds.

Past the file's last data sector the two kinds of root part ways. Below an indirect root the walk
reaches the last child at every level and fails its offset check there, or finds no child at all.
A direct root checks nothing and reads its table past the active entries, which after `Allocate`
on a new header still hold the `-1` of `memset` (`FileHeader.ByteToSector_past_end`).

Within the file the walk finds every byte where the file holds it
(`FileHeader.ByteToSector_reads_contents`).
-/

namespace NachosFilehdr

/-! ## Rounding an offset to its sector -/

/-- An offset lies below a whole number of sectors exactly when the start of its sector does. -/
theorem lt_iff_align {o Y : Int} :
    o < SectorSize * Y ↔ o / SectorSize * SectorSize < SectorSize * Y := by
  simp only [SectorSize_eq]
  omega

/-- Rounding an offset down to its sector keeps the pointer a level takes, and rounds what is left
for the child the same way. -/
theorem ediv_align {o p q : Int} (hq : 0 < q) (hpq : p = SectorSize * q) :
    o / SectorSize * SectorSize / p = o / p ∧
      o / SectorSize * SectorSize - o / p * p = o % p / SectorSize * SectorSize := by
  have hp : 0 < p := by rw [hpq, SectorSize_eq]; omega
  have hm := Int.emod_nonneg o hp.ne'
  have hm' := Int.emod_lt_of_pos o hp
  have ha : o / SectorSize * SectorSize = o % p / SectorSize * SectorSize + o / p * p := by
    rw [ediv_SectorSize_eq hpq, Int.add_mul, hpq, Int.mul_assoc, Int.mul_comm q]
  refine ⟨?_, by rw [ha]; omega⟩
  rw [ha, Int.add_mul_ediv_right _ _ hp.ne', Int.ediv_eq_zero_of_lt
    (by simp only [SectorSize_eq]; omega) (by simp only [SectorSize_eq]; omega), Int.zero_add]

/-- At level 0 the pointer taken is the offset's sector, which rounding the offset keeps. -/
theorem tdiv_align_zero {o : Int} (ho : 0 ≤ o) :
    (o / SectorSize * SectorSize).tdiv (sizePerPointer 0) = o.tdiv (sizePerPointer 0) := by
  have ha : 0 ≤ o / SectorSize * SectorSize := by simp only [SectorSize_eq]; omega
  rw [Int.tdiv_eq_ediv ho (by decide), Int.tdiv_eq_ediv ha (by decide), sizePerPointer_zero,
    SectorSize_eq, Int.mul_ediv_cancel _ (by decide)]

namespace IndexBlock

theorem checkOffset_align (b : IndexBlock) (l : Nat) {o : Int} (ho : 0 ≤ o) :
    b.checkOffset l o = b.checkOffset l (o / SectorSize * SectorSize) := by
  obtain ⟨q, -, hpq⟩ := sizePerPointer_eq_mul l
  have h0 : o / SectorSize * SectorSize ≥ 0 := by simp only [SectorSize_eq]; omega
  have h1 : o < b.levelSectors * sizePerPointer l ↔
      o / SectorSize * SectorSize < b.levelSectors * sizePerPointer l := by
    rw [hpq, Int.mul_left_comm]
    exact lt_iff_align
  simp only [checkOffset, ASSERT_of_true (show o ≥ 0 from ho), ASSERT_of_true h0, ok_bind]
  by_cases h : o < b.levelSectors * sizePerPointer l
  · rw [ASSERT_of_true h, ASSERT_of_true (h1.mp h)]
  · rw [ASSERT_of_false h, ASSERT_of_false (mt h1.mpr h)]

/-- The walk below a level-`l + 1` table depends on the offset's sector only, given that each
child's walk does. -/
theorem walk_align {capacity : Nat} {cs : List IndexBlock} {l : Nat} {o : Int} (ho : 0 ≤ o)
    (ih : ∀ (c : IndexBlock) (o' : Int), 0 ≤ o' →
      c.ByteToSector l o' = c.ByteToSector l (o' / SectorSize * SectorSize)) :
    (do
      let child ← childAt capacity cs (o.tdiv (sizePerPointer (l + 1))).toNat
      child.ByteToSector l (o - o.tdiv (sizePerPointer (l + 1)) * sizePerPointer (l + 1))) =
    (do
      let child ←
        childAt capacity cs ((o / SectorSize * SectorSize).tdiv (sizePerPointer (l + 1))).toNat
      child.ByteToSector l (o / SectorSize * SectorSize -
        (o / SectorSize * SectorSize).tdiv (sizePerPointer (l + 1)) * sizePerPointer (l + 1))) := by
  obtain ⟨q, hq, hpq⟩ := sizePerPointer_eq_mul (l + 1)
  have hp := sizePerPointer_pos (l + 1)
  have ha : 0 ≤ o / SectorSize * SectorSize := by simp only [SectorSize_eq]; omega
  obtain ⟨h1, h2⟩ := ediv_align (o := o) hq hpq
  rw [Int.tdiv_eq_ediv ho hp.le, Int.tdiv_eq_ediv ha hp.le, h1, h2,
    show o - o / sizePerPointer (l + 1) * sizePerPointer (l + 1) = o % sizePerPointer (l + 1) by
      have := Int.ediv_add_emod' o (sizePerPointer (l + 1))
      omega]
  congr 1
  funext c
  exact ih c _ (Int.emod_nonneg o hp.ne')

/-- **`IndexBlock::ByteToSector` reads the offset's sector only.** -/
theorem ByteToSector_rounds : ∀ (l : Nat) (b : IndexBlock) {o : Int}, 0 ≤ o →
    b.ByteToSector l o = b.ByteToSector l (o / SectorSize * SectorSize)
  | 0, b, o, ho => by
    rw [ByteToSector, ByteToSector, checkOffset_align b 0 ho, tdiv_align_zero ho]
  | l + 1, b, o, ho => by
    rw [ByteToSector, ByteToSector, checkOffset_align b (l + 1) ho]
    congr 1
    funext _
    exact walk_align ho fun c _ ho' ↦ ByteToSector_rounds l c ho'

end IndexBlock

namespace FileHeader

/-- **`FileHeader::ByteToSector` reads the offset's sector only.** For every header, whatever it
holds, and every offset `o ≥ 0`, the walk at `o` and at the start of `o`'s sector take the same
pointers and pass or fail the same `ASSERT`s, so they give the same sector or the same fault. -/
theorem ByteToSector_align (h : FileHeader) {o : Int} (ho : 0 ≤ o) :
    h.ByteToSector o = h.ByteToSector (o / SectorSize * SectorSize) := by
  by_cases hL : h.level = .LDirect
  · rw [ByteToSector, ByteToSector, if_pos hL, if_pos hL, hL, Level.toNat_LDirect,
      tdiv_align_zero ho]
  · obtain ⟨l, hl, -⟩ := Level.exists_toNat_eq_succ hL
    have ha : 0 ≤ o / SectorSize * SectorSize := by simp only [SectorSize_eq]; omega
    have hp := sizePerPointer_pos (l + 1)
    simp only [ByteToSector, if_neg hL, hl, Nat.add_sub_cancel,
      if_neg (Int.not_lt.mpr (Int.tdiv_nonneg ho hp.le)),
      if_neg (Int.not_lt.mpr (Int.tdiv_nonneg ha hp.le))]
    exact IndexBlock.walk_align ho fun c _ ho' ↦ IndexBlock.ByteToSector_rounds l c ho'

theorem ByteToSector_align_at_200 :
    (0 : Int) ≤ 200 ∧
      savedFile.ByteToSector 200 = savedFile.ByteToSector (200 / SectorSize * SectorSize) :=
  ⟨by decide, ByteToSector_align savedFile (by decide)⟩

end FileHeader

/-! ## Within the file

A file is its bytes: the first `numBytes` bytes of its data sectors, in file order. On a shaped
header `ByteToSector` finds each of them: byte `o` of the file is byte `o % SectorSize` of the
sector the walk returns for `o`. -/

namespace FileHeader

/-- The file's bytes: the first `numBytes` bytes of its data sectors, in file order. -/
def contents (h : FileHeader) (disk : Disk) : List UInt8 :=
  (h.leafSectors.flatMap fun x ↦ (ReadSector disk x).bytes).take h.numBytes.toNat

/-- **Each byte of the file is where `ByteToSector` points.** On a shaped header, for every offset
`o` of the file and on every disk, `ByteToSector(o)` returns a sector whose byte `o % SectorSize`
is byte `o` of the file. -/
theorem ByteToSector_reads_contents {n o : Int} {h : FileHeader} (hs : h.Shaped n) (ho : 0 ≤ o)
    (hon : o < n) (disk : Disk) :
    ∃ x, h.ByteToSector o = .ok x ∧
      (h.contents disk)[o.toNat]? = (ReadSector disk x).bytes[(o % SectorSize).toNat]? := by
  obtain ⟨x, hx, hb⟩ := hs.ByteToSector ho hon
  have hlen : ∀ y, (ReadSector disk y).bytes.length = 128 := fun y ↦ (ReadSector disk y).length_eq
  have hsplit : o.toNat = (o / SectorSize).toNat * 128 + (o % SectorSize).toNat := by
    simp only [SectorSize_eq]
    omega
  refine ⟨x, hb, ?_⟩
  rw [contents, List.getElem?_take_of_lt (by rw [hs.numBytes_eq]; omega), hsplit,
    getElem?_flatMap_of_uniform hx (fun y _ ↦ hlen y)
      (by rw [hlen]; simp only [SectorSize_eq]; omega)]

/-- Byte 150 of the saved 200-byte file is byte 22 of its second data sector. -/
theorem ByteToSector_reads_contents_at_150 :
    savedFile.Shaped 200 ∧ (0 : Int) ≤ 150 ∧ (150 : Int) < 200 ∧
      ∃ x, savedFile.ByteToSector 150 = .ok x ∧
        (savedFile.contents blankDisk)[(150 : Int).toNat]? =
          (ReadSector blankDisk x).bytes[((150 : Int) % SectorSize).toNat]? := by
  have hs : savedFile.Shaped 200 := ⟨rfl, rfl, rfl, fun h ↦ absurd rfl h⟩
  exact ⟨hs, by decide, by decide, ByteToSector_reads_contents hs (by decide) (by decide) blankDisk⟩

end FileHeader

/-! ## Before the first byte -/

/-- C's division truncates toward zero. -/
theorem tdiv_of_neg {o p : Int} (ho : o < 0) (hp : 0 < p) : o.tdiv p = -((-o) / p) := by
  rw [← Int.tdiv_eq_ediv (by omega) hp.le, Int.neg_tdiv, Int.neg_neg]

namespace IndexBlock

/-- Every block's walk fails its first `ASSERT` at a negative offset. -/
theorem ByteToSector_of_neg (l : Nat) (b : IndexBlock) {o : Int} (ho : o < 0) :
    b.ByteToSector l o = .error (.assertionFailed "offset >= 0") := by
  have hc : b.checkOffset l o = .error (.assertionFailed "offset >= 0") := by
    rw [checkOffset, ASSERT_of_false (show ¬o ≥ 0 by omega)]
    rfl
  cases l <;> rw [IndexBlock.ByteToSector, hc] <;> rfl

end IndexBlock

namespace FileHeader

/-- **`ByteToSector` before the start of the file.** `FileHeader::ByteToSector` divides with C's
truncating division and checks nothing at the root. So on every header, whatever it holds, a
negative offset less than a sector before the start reads the same root entry as offset `0` when
the root is direct, and one further back reads before the table; below an indirect root every
negative offset faults. -/
theorem ByteToSector_negative (h : FileHeader) {o : Int} (ho : o < 0) :
    (h.level = .LDirect → -SectorSize < o → h.ByteToSector o = h.ByteToSector 0) ∧
      (h.level = .LDirect → o ≤ -SectorSize → h.ByteToSector o = .error .outOfBounds) ∧
      (h.level ≠ .LDirect → ∃ e, h.ByteToSector o = .error e) := by
  -- a direct root reads the entry C's division picks, which is `0` or negative
  have hdirect (hL : h.level = .LDirect) (o' : Int) :
      h.ByteToSector o' = h.dataSectors.read (o'.tdiv 128) := by
    rw [FileHeader.ByteToSector, if_pos hL, hL, Level.toNat_LDirect, sizePerPointer_zero]
  have hq := tdiv_of_neg ho (by decide : (0 : Int) < 128)
  refine ⟨fun hL ho' ↦ ?_, fun hL ho' ↦ ?_, fun hL ↦ ?_⟩
  · simp only [SectorSize_eq] at ho'
    rw [hdirect hL, hdirect hL, hq, Int.zero_tdiv, show -((-o) / 128) = 0 by omega]
  · simp only [SectorSize_eq] at ho'
    rw [hdirect hL, hq, Table.read, if_neg (by omega)]
  · have hp := sizePerPointer_pos h.level.toNat
    have hj := Int.ediv_nonneg (show 0 ≤ -o by omega) hp.le
    simp only [FileHeader.ByteToSector, if_neg hL, tdiv_of_neg ho hp]
    split_ifs with hneg
    · exact ⟨_, rfl⟩
    · rw [show -((-o) / sizePerPointer h.level.toNat) = 0 by omega, Int.zero_mul, Int.sub_zero,
        Int.toNat_zero]
      unfold childAt
      split_ifs
      · cases h.nextIndexBlocks[0]? with
        | none => exact ⟨_, rfl⟩
        | some c => exact ⟨_, IndexBlock.ByteToSector_of_neg _ c ho⟩
      · exact ⟨_, rfl⟩

end FileHeader

/-! ## Past the last data sector -/

/-- Two lists that agree from index `k` on agree at every index from `k` on. -/
theorem getElem?_of_drop_eq {l l' : List Int} {k j : Nat} (h : l.drop k = l'.drop k) (hj : k ≤ j) :
    l[j]? = l'[j]? := by
  rw [← Nat.add_sub_cancel' hj, ← List.getElem?_drop, h, List.getElem?_drop]

namespace IndexBlock

variable {l : Nat} {r o : Int}

/-- Past the last data sector of `r` bytes, the walk through the children faults, given that
each child's walk does past its own: it can only enter the last child, at an offset past that
child's last data sector. -/
theorem ShapedChildren.walk_past {capacity : Nat} {cs : List IndexBlock}
    (hc : ShapedChildren l r cs) (hr : 0 < r)
    (ho : divRoundUp r SectorSize * SectorSize ≤ o)
    (ih : ∀ (s : Int) (c : IndexBlock), 0 < s → s ≤ sizePerPointer (l + 1) → c.Shaped l s →
      ∀ o', divRoundUp s SectorSize * SectorSize ≤ o' → ∃ e, c.ByteToSector l o' = .error e) :
    ∃ e, (do
      let child ← childAt capacity cs (o.tdiv (sizePerPointer (l + 1))).toNat
      child.ByteToSector l (o - o.tdiv (sizePerPointer (l + 1)) * sizePerPointer (l + 1)))
        = .error e := by
  have hp := sizePerPointer_pos (l + 1)
  obtain ⟨q, hq, hpq⟩ := sizePerPointer_eq_mul (l + 1)
  have hD := divRoundUp_spec hr.le (by decide : (0 : Int) < SectorSize)
  have ho0 : 0 ≤ o := by simp only [SectorSize_eq] at hD ho; omega
  rw [Int.tdiv_eq_ediv ho0 hp.le]
  unfold childAt
  split_ifs
  swap
  · exact ⟨_, rfl⟩
  cases hci : cs[(o / sizePerPointer (l + 1)).toNat]? with
  | none => exact ⟨_, rfl⟩
  | some c =>
    obtain ⟨hi, hsc⟩ := hc.getElem? hci
    have hlast := lastChild_bounds hr hp
    -- every child but the last ends before the file does
    have hK : o / sizePerPointer (l + 1) = divRoundUp r (sizePerPointer (l + 1)) - 1 := by
      have hlt := Int.lt_ediv_add_one_mul_self o hp
      by_contra hne
      have := Int.mul_le_mul_of_nonneg_right (show o / sizePerPointer (l + 1) + 1 ≤
        divRoundUp r (sizePerPointer (l + 1)) - 1 by omega) hp.le
      omega
    rw [hK, childSize_last hr hp] at hsc
    have hkp : (divRoundUp r (sizePerPointer (l + 1)) - 1) * sizePerPointer (l + 1) =
        ((divRoundUp r (sizePerPointer (l + 1)) - 1) * q) * SectorSize := by
      rw [hpq, Int.mul_comm SectorSize q, Int.mul_assoc]
    have hsub := divRoundUp_sub_mul hr.le (hkp ▸ hlast.1.le) (by decide : (0 : Int) < SectorSize)
    obtain ⟨e, he⟩ := ih _ c hlast.1 hlast.2 hsc (o - o / sizePerPointer (l + 1) *
      sizePerPointer (l + 1)) (by rw [hK, hkp, hsub]; simp only [SectorSize_eq] at ho ⊢; omega)
    exact ⟨e, he⟩

/-- **Past its last data sector a shaped subtree faults.** -/
theorem Shaped.ByteToSector_past : ∀ {l : Nat} {r o : Int} {b : IndexBlock}, l ≤ 2 → 0 < r →
    r ≤ sizePerPointer (l + 1) → b.Shaped l r → divRoundUp r SectorSize * SectorSize ≤ o →
    ∃ e, b.ByteToSector l o = .error e
  | 0, r, o, b, _, hr, _, hb, ho => by
    have hD := divRoundUp_spec hr.le (by decide : (0 : Int) < SectorSize)
    simp only [SectorSize_eq] at hD ho
    refine ⟨.assertionFailed "offset < levelSectors * sizePerPointer[level]", ?_⟩
    rw [IndexBlock.ByteToSector, checkOffset, hb.counted.levelSectors_eq,
      ASSERT_of_true (show o ≥ 0 by omega),
      ok_bind, ASSERT_of_false (by simp only [sizePerPointer_zero]; omega)]
    rfl
  | l + 1, r, o, b, hl, hr, hr', hb, ho => by
    cases hck : b.checkOffset (l + 1) o with
    | error e => exact ⟨e, by rw [IndexBlock.ByteToSector, hck]; rfl⟩
    | ok u =>
      rw [IndexBlock.ByteToSector, hck, ok_bind]
      exact hb.children.walk_past hr ho fun s c hs hs' hsc o' ho' ↦
        Shaped.ByteToSector_past (by omega) hs hs' hsc ho'

end IndexBlock

namespace FileHeader

variable {m m' : Bitmap} {n o : Int} {h : FileHeader}

/-- Below an indirect root, past the file's last data sector the walk faults. -/
theorem Shaped.ByteToSector_past (hs : h.Shaped n) (hL : h.level ≠ .LDirect)
    (ho : divRoundUp n SectorSize * SectorSize ≤ o) : ∃ e, h.ByteToSector o = .error e := by
  obtain ⟨l, hl, hl2⟩ := Level.exists_toNat_eq_succ hL
  have hc := hs.children hL
  rw [hl, Nat.add_sub_cancel] at hc
  have hn := hs.pos_of_ne hL
  have hD := divRoundUp_spec hn.le (by decide : (0 : Int) < SectorSize)
  have ho0 : 0 ≤ o := by simp only [SectorSize_eq] at hD ho; omega
  simp only [FileHeader.ByteToSector, if_neg hL, hl, Nat.add_sub_cancel,
    if_neg (Int.not_lt.mpr (Int.tdiv_nonneg ho0 (sizePerPointer_pos (l + 1)).le))]
  exact hc.walk_past hn ho fun s c hs hs' hsc o' ho' ↦
    IndexBlock.Shaped.ByteToSector_past hl2 hs hs' hsc ho'

/-- Below a direct root, past the file's last data sector `ByteToSector` reads the inactive root
entries, which `Allocate` on a new header leaves as `memset` made them. -/
theorem ByteToSector_of_inactive (hn : 0 ≤ n) (hs : h.Shaped n)
    (hA : new.Allocate m n = .ok (true, h, m')) (hL : h.level = .LDirect)
    (ho : divRoundUp n SectorSize * SectorSize ≤ o) :
    h.ByteToSector o = (Table.memsetNegOne NumPointers).read (o / SectorSize) := by
  have hD := (divRoundUp_spec hn (by decide : (0 : Int) < SectorSize)).1
  have hls : h.levelSectors = divRoundUp n SectorSize := by rw [hs.levelSectors_eq, hL]; rfl
  simp only [SectorSize_eq] at hD ho hls
  have hget := getElem?_of_drop_eq (Allocate_inactive hA) (j := (o / SectorSize).toNat)
    (by rw [hls, SectorSize_eq]; omega)
  simp only [SectorSize_eq] at hget ⊢
  rw [FileHeader.ByteToSector, if_pos hL, hL, Level.toNat_LDirect, sizePerPointer_zero,
    Int.tdiv_eq_ediv (by omega) (by decide), Table.read, Table.read, hget]

/-- **`ByteToSector` past the end of the file.** `FileHeader::ByteToSector` does not check its
offset against the file length. On the header `Allocate` builds from a new header, at an offset
past the file's last data sector an indirect header faults on the way down, while a direct header
answers sector `-1`, the value `memset` left in its unused entries, as long as the offset is below
`MaxDirectBytes`, and reads past the end of its table beyond. -/
theorem ByteToSector_past_end (hn : 0 ≤ n) (hn' : n ≤ MaxFileSize)
    (hA : new.Allocate m n = .ok (true, h, m')) (ho : divRoundUp n SectorSize * SectorSize ≤ o) :
    (h.level = .LDirect → o < MaxDirectBytes → h.ByteToSector o = .ok (-1)) ∧
      (h.level = .LDirect → MaxDirectBytes ≤ o → h.ByteToSector o = .error .outOfBounds) ∧
      (h.level ≠ .LDirect → ∃ e, h.ByteToSector o = .error e) := by
  obtain ⟨-, -, -, -, hs, -, -⟩ := Allocate_of_true hn hn' hA
  have hD := (divRoundUp_spec hn (by decide : (0 : Int) < SectorSize)).1
  simp only [SectorSize_eq] at hD ho
  have ho0 : 0 ≤ o / SectorSize := Int.ediv_nonneg (by omega) (by decide)
  refine ⟨fun hL ho' ↦ ?_, fun hL ho' ↦ ?_, fun hL ↦ hs.ByteToSector_past hL (by simpa using ho)⟩
  all_goals
    rw [ByteToSector_of_inactive hn hs hA hL (by simpa using ho), Table.read, if_pos ho0]
    simp only [MaxDirectBytes_eq, SectorSize_eq, Table.memsetNegOne, NumPointers_eq,
      List.getElem?_replicate] at ho' ⊢
  · rw [if_pos (by omega)]
  · rw [if_neg (by omega)]

theorem ByteToSector_past_end_at_256 :
    (0 : Int) ≤ 200 ∧ (200 : Int) ≤ MaxFileSize ∧
      new.Allocate ⟨[true, false, false], by decide⟩ 200 =
        .ok (true, savedFile, ⟨[true, true, true], by decide⟩) ∧
      divRoundUp 200 SectorSize * SectorSize ≤ 256 ∧
      (savedFile.level = .LDirect → 256 < MaxDirectBytes → savedFile.ByteToSector 256 = .ok (-1)) ∧
      (savedFile.level = .LDirect → MaxDirectBytes ≤ 256 →
        savedFile.ByteToSector 256 = .error .outOfBounds) ∧
      (savedFile.level ≠ .LDirect → ∃ e, savedFile.ByteToSector 256 = .error e) := by
  have hA : new.Allocate ⟨[true, false, false], by decide⟩ 200 =
      .ok (true, savedFile, ⟨[true, true, true], by decide⟩) := rfl
  exact ⟨by decide, by decide, hA, by decide,
    ByteToSector_past_end (by decide) (by decide) hA (by decide)⟩

end FileHeader

end NachosFilehdr
