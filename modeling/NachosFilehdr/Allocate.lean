import NachosFilehdr.Shape

/-!
# Allocation

`FileHeader::Allocate` first compares `NumClear()` with the file's data sectors
`divRoundUp(fileSize, SectorSize)` and returns `FALSE` if they do not fit. Past that check it
calls `FindAndSet` once for every active entry of the tree, root first and then each child's
subtree in order, and never checks the map again. This file says what such a run does from any
free map.

## The allocation contract

`AllocSpec run need P S e` is the contract of one run that claims `need` sectors: from a map with
`need` clear sectors or more it returns `TRUE`, a result satisfying `P` whose active entries `S`
are `need` distinct sectors that were clear, and the map with exactly those set; from a map with
fewer it stops on the fault `e`, the `ASSERT` after the `FindAndSet` that found nothing. The
claiming loop, the children loop and `IndexBlock::Allocate` all meet such a contract, each proved
from the one below it.

## The root

The root's check counts the data sectors only, while the tree also needs its index sectors
(`treeSectors`). `FileHeader.Allocate_spec` gives all three outcomes: `FALSE` with the map
untouched below the data count, success at or above the tree count, and in between the `ASSERT`
inside the first `IndexBlock::Allocate` that runs out.
-/

namespace NachosFilehdr

namespace Bitmap

variable {m : Bitmap} {xs ys : List Nat} {x i : Nat}

/-- `xs` are distinct sectors, each a clear bit of `m`: what a run of `FindAndSet`s claims. -/
def Fresh (m : Bitmap) (xs : List Nat) : Prop := xs.Nodup ∧ ∀ x ∈ xs, m.IsFree x

theorem IsFree.Mark_of_ne (h : m.IsFree i) (hx : x ≠ i) : (m.Mark x).IsFree i := by
  simpa [IsFree, getElem?_Mark, hx] using h

theorem IsFree.used_Mark (h : m.IsFree x) : (m.Mark x).IsUsed x :=
  h.markAll_used (List.mem_singleton_self x)

theorem IsFree.of_markAll (h : (m.markAll xs).IsFree i) : m.IsFree i ∧ i ∉ xs := by
  simp only [IsFree, getElem?_markAll, Option.map_eq_some', Bool.or_eq_false_iff,
    decide_eq_false_iff_not] at h
  obtain ⟨b, hb, rfl, hi⟩ := h
  exact ⟨hb, hi⟩

theorem fresh_nil : m.Fresh [] := ⟨List.nodup_nil, by simp⟩

theorem Fresh.append (h₁ : m.Fresh xs) (h₂ : (m.markAll xs).Fresh ys) : m.Fresh (xs ++ ys) := by
  refine ⟨List.nodup_append.mpr ⟨h₁.1, h₂.1, fun a ha hb ↦ (h₂.2 a hb).of_markAll.2 ha⟩,
    fun a ha ↦ ?_⟩
  rcases List.mem_append.mp ha with ha | ha
  exacts [h₁.2 a ha, (h₂.2 a ha).of_markAll.1]

/-- Setting fresh sectors sets exactly them. -/
theorem getElem?_markAll_of_fresh (h : m.Fresh xs) (j : Nat) :
    (m.markAll xs).map[j]? = if j ∈ xs then some true else m.map[j]? := by
  rw [getElem?_markAll]
  split_ifs with hj
  · simp [show m.map[j]? = some false from h.2 j hj, hj]
  · cases m.map[j]? <;> simp [hj]

theorem Fresh.cons (hx : m.IsFree x) (h : (m.Mark x).Fresh xs) : m.Fresh (x :: xs) :=
  Fresh.append (⟨List.nodup_singleton x, by simpa using hx⟩ : m.Fresh [x]) h

theorem NumClear_markAll (h : m.Fresh xs) : (m.markAll xs).NumClear = m.NumClear - xs.length := by
  induction xs generalizing m with
  | nil => simp
  | cons x xs ih =>
    have hx := h.2 x (List.mem_cons_self x xs)
    have hrest : (m.Mark x).Fresh xs := ⟨(List.nodup_cons.mp h.1).2, fun y hy ↦
      (h.2 y (List.mem_cons_of_mem x hy)).Mark_of_ne fun hxy ↦
        (List.nodup_cons.mp h.1).1 (hxy ▸ hy)⟩
    rw [markAll_cons, ih hrest, NumClear_Mark hx, List.length_cons]
    omega

/-- A claimed sector is a bit of the map, so it is an `int`. -/
theorem Fresh.isInt (h : m.Fresh xs) : ∀ x ∈ xs, IsInt (x : Int) := fun x hx ↦ by
  have := (h.2 x hx).lt_numBits
  have := m.numBits_lt_two_pow
  constructor <;> omega

end Bitmap

/-! ## The claiming loop -/

section Claim

variable {size : Int} {check : Int → Bitmap → Except Fault Unit} {e : Fault}

/-- **Claiming with room.** From a map with `k` clear sectors, `k` iterations claim `k` distinct
free sectors and write them, in order, into the table from index `i`, provided the check after
`FindAndSet` accepts every sector it has just set. -/
theorem claimSectors_of_le (hok : ∀ (x : Nat) (m : Bitmap), m.IsUsed x → check x m = .ok ())
    {k i : Nat} {t : Table size} {m : Bitmap} (hik : i + k ≤ t.entries.length)
    (hk : (k : Int) ≤ m.NumClear) :
    ∃ xs t', claimSectors check k i t m = .ok (t', m.markAll xs) ∧ m.Fresh xs ∧
      xs.length = k ∧ t'.entries = t.entries.take i ++ xs.map (↑) ++ t.entries.drop (i + k) := by
  induction k generalizing i t m with
  | zero => exact ⟨[], t, rfl, Bitmap.fresh_nil, rfl, by simp⟩
  | succ k ih =>
    obtain ⟨x, hx, hfind⟩ := Bitmap.FindAndSet_of_pos (m := m) (by omega)
    have hi : i < t.entries.length := by omega
    obtain ⟨xs, t', hrun, hfresh, hlen, hent⟩ := ih (i := i + 1)
      (t := ⟨t.entries.set i x, by simp [t.length_eq]⟩) (m := m.Mark x) (by simp; omega)
      (by rw [Bitmap.NumClear_Mark hx]; omega)
    refine ⟨x :: xs, t', ?_, hfresh.cons hx, by simp [hlen], ?_⟩
    · simp only [claimSectors, hfind, Table.write_of_lt t hi,
        hok x _ hx.used_Mark]
      simpa using hrun
    · rw [hent, List.take_succ, List.set_take, List.set_eq_of_length_le (by simp),
        List.getElem?_set_self hi, List.drop_set_of_lt _ _ (by omega)]
      simp [Nat.add_right_comm i 1 k, Nat.add_assoc]

/-- **Claiming past the free space.** From a map with fewer than `k` clear sectors, some
`FindAndSet` returns `-1`, and the check after it stops the run. -/
theorem claimSectors_of_lt (hok : ∀ (x : Nat) (m : Bitmap), m.IsUsed x → check x m = .ok ())
    (hneg : ∀ m : Bitmap, check (-1) m = .error e)
    {k i : Nat} {t : Table size} {m : Bitmap} (hik : i + k ≤ t.entries.length)
    (hk : m.NumClear < k) : claimSectors check k i t m = .error e := by
  induction k generalizing i t m with
  | zero => exact absurd hk (by have := m.NumClear_nonneg; omega)
  | succ k ih =>
    have hi : i < t.entries.length := by omega
    rcases m.NumClear_nonneg.eq_or_lt with h0 | hpos
    · simp [claimSectors, Bitmap.FindAndSet_of_eq_zero h0.symm, Table.write, hneg,
        show (i : Int) < size by have := t.length_eq; omega]
    · obtain ⟨x, hx, hfind⟩ := Bitmap.FindAndSet_of_pos hpos
      have := ih (i := i + 1) (t := ⟨t.entries.set i x, by simp [t.length_eq]⟩) (m := m.Mark x)
        (by simp; omega) (by rw [Bitmap.NumClear_Mark hx]; omega)
      simp only [claimSectors, hfind, Table.write_of_lt t hi,
        hok x _ hx.used_Mark]
      simpa using this

end Claim

/-! ## The allocation contract -/

/-- The contract of a run that claims `need` sectors (see the module docstring). -/
structure AllocSpec {α : Type} (run : Bitmap → Except Fault (Bool × α × Bitmap)) (need : Int)
    (P : α → Prop) (S : α → List Int) (e : Fault) : Prop where
  need_nonneg : 0 ≤ need
  /-- With room, `TRUE` and `need` fresh sectors, now set, which are the result's entries. -/
  of_le : ∀ m : Bitmap, need ≤ m.NumClear → ∃ a xs, run m = .ok (true, a, m.markAll xs) ∧
    m.Fresh xs ∧ (xs.length : Int) = need ∧ P a ∧ S a = xs.map (↑)
  /-- Without room, the fault `e`. -/
  of_lt : ∀ m : Bitmap, m.NumClear < need → run m = .error e

/-- **The children loop.** If each child's allocation meets its contract, the loop over `k`
children from index `i` meets the contract of their sum, and builds the children in order. -/
theorem allocateChildren_spec {alloc : Bitmap → Int → Except Fault (Bool × IndexBlock × Bitmap)}
    {size : Nat → Int} {need : Int → Int} {P : Int → IndexBlock → Prop}
    {S : IndexBlock → List Int} {e : Fault}
    (h : ∀ j, AllocSpec (alloc · (size j)) (need (size j)) (P (size j)) S e) :
    ∀ k i : Nat, AllocSpec (allocateChildren alloc size k i)
      (((List.range' i k).map size).map need).sum
      (List.Forall₂ P ((List.range' i k).map size)) (·.flatMap S) e
  | 0, _ => ⟨le_rfl, fun m _ ↦ ⟨[], [], rfl, Bitmap.fresh_nil, rfl, .nil, rfl⟩,
      fun m hm ↦ absurd hm (by have := m.NumClear_nonneg; simpa using this)⟩
  | k + 1, i => by
    have ih := allocateChildren_spec h k (i + 1)
    have h0 := (h i).need_nonneg
    have h1 := ih.need_nonneg
    simp only [List.range'_succ, List.map_cons, List.sum_cons]
    refine ⟨by omega, fun m hm ↦ ?_, fun m hm ↦ ?_⟩
    · obtain ⟨c, xs, hc, hxs, hlen, hP, hS⟩ := (h i).of_le m (by omega)
      obtain ⟨cs, ys, hcs, hys, hlen', hP', hS'⟩ :=
        ih.of_le (m.markAll xs) (by rw [Bitmap.NumClear_markAll hxs]; omega)
      refine ⟨c :: cs, xs ++ ys, ?_, hxs.append hys,
        by simp only [List.length_append, Nat.cast_add]; omega, .cons hP hP', by simp [hS, hS']⟩
      simp [allocateChildren, hc, hcs, Bitmap.markAll_append]
    · by_cases h1 : m.NumClear < need (size i)
      · simp [allocateChildren, (h i).of_lt m h1]
      · obtain ⟨c, xs, hc, hxs, hlen, -, -⟩ := (h i).of_le m (by omega)
        simp [allocateChildren, hc,
          ih.of_lt (m.markAll xs) (by rw [Bitmap.NumClear_markAll hxs]; omega)]

/-! ## `IndexBlock::Allocate` -/

namespace IndexBlock

theorem testClaimed_of_used {m : Bitmap} {x : Nat} (h : m.IsUsed x) : testClaimed x m = .ok () := by
  simp [testClaimed, Bitmap.Test_of_used h]

theorem testClaimed_neg (m : Bitmap) :
    testClaimed (-1) m = .error (.assertionFailed "which >= 0 && which < numBits") := by
  simp [testClaimed, Bitmap.Test_of_neg (show (-1 : Int) < 0 by decide)]

theorem isInt_new : ∀ x ∈ new.nextSectors.entries, IsInt x := by
  simp [new, Table.memsetNegOne, IsInt]

section Entries

variable {b : IndexBlock} {l : Nat} {r : Int} {m : Bitmap}
  (hr : 0 < r) (hr' : r ≤ NumSectorInt * sizePerPointer l)
include hr hr'

/-- Setting the counts and claiming one sector per active entry, with room for them. The
entries claimed are the block's active entries, and every other field but the counts is kept. -/
theorem allocateEntries_of_le (hb : ∀ x ∈ b.nextSectors.entries, IsInt x)
    (hm : divRoundUp r (sizePerPointer l) ≤ m.NumClear) :
    ∃ b' xs, b.allocateEntries l m r = .ok (b', m.markAll xs) ∧ m.Fresh xs ∧
      (xs.length : Int) = divRoundUp r (sizePerPointer l) ∧ b'.Counted l r ∧
      b'.entries = xs.map (↑) ∧ b'.nextIndexBlocks = b.nextIndexBlocks := by
  have hk := divRoundUp_le hr.le (sizePerPointer_pos l) hr'
  have hk0 := (divRoundUp_spec hr.le (sizePerPointer_pos l)).1
  have hlen := b.nextSectors.length_eq
  simp only [NumSectorInt_eq] at hk hlen
  obtain ⟨xs, t', hrun, hxs, hlen', hent⟩ := claimSectors_of_le (fun _ _ h ↦ testClaimed_of_used h)
    (k := (divRoundUp r (sizePerPointer l)).toNat) (i := 0) (t := b.nextSectors) (m := m)
    (by simp only [hlen]; omega) (by omega)
  rw [Nat.cast_zero] at hrun
  refine ⟨{ b with
      numBytes := r
      numSectors := divRoundUp r SectorSize
      levelSectors := divRoundUp r (sizePerPointer l)
      nextSectors := t' }, xs, ?_, hxs, by omega, ⟨rfl, rfl, rfl, fun x hx ↦ ?_⟩, ?_, rfl⟩
  · simp [allocateEntries, ASSERT_of_true (show r > 0 from hr), hrun]
  · rw [hent, List.take_zero, List.nil_append] at hx
    rcases List.mem_append.mp hx with hx | hx
    · obtain ⟨y, hy, rfl⟩ := List.mem_map.mp hx
      exact hxs.isInt y hy
    · exact hb x (List.mem_of_mem_drop hx)
  · simp [entries, hent, ← hlen']

/-- Without room for its own entries, the block stops on the `ASSERT` after the `FindAndSet`
that found nothing. -/
theorem allocateEntries_of_lt (hm : m.NumClear < divRoundUp r (sizePerPointer l)) :
    b.allocateEntries l m r = .error (.assertionFailed "which >= 0 && which < numBits") := by
  have hk := divRoundUp_le hr.le (sizePerPointer_pos l) hr'
  have hlen := b.nextSectors.length_eq
  simp only [NumSectorInt_eq] at hk hlen
  have := claimSectors_of_lt (fun _ _ h ↦ testClaimed_of_used h) testClaimed_neg
    (k := (divRoundUp r (sizePerPointer l)).toNat) (i := 0) (t := b.nextSectors) (m := m)
    (by simp only [hlen]; omega) (by omega)
  rw [Nat.cast_zero] at this
  simp [allocateEntries, ASSERT_of_true (show r > 0 from hr), this]

end Entries

/-- The children loop of a level-`l + 1` node of `r` bytes claims, between its children, the tree
of `r` bytes one level down, given that each child's allocation meets its contract. -/
theorem allocateChildren_tree {l : Nat} {r : Int} {e : Fault} (hl : l ≤ 2) (hr : 0 < r)
    (hspec : ∀ {s : Int}, 0 < s → s ≤ sizePerPointer (l + 1) →
      AllocSpec (fun m ↦ Allocate l new m s) (treeSectors l s) (Shaped l s) (sectors l) e) :
    AllocSpec (allocateChildren (Allocate l new)
        (childSize (divRoundUp r (sizePerPointer (l + 1))) r (sizePerPointer (l + 1)))
        (divRoundUp r (sizePerPointer (l + 1))).toNat 0)
      (treeSectors l r) (ShapedChildren l r) (·.flatMap (sectors l)) e := by
  have hp := sizePerPointer_pos (l + 1)
  have hsizes : childSizes (divRoundUp r (sizePerPointer (l + 1))) r (sizePerPointer (l + 1)) =
      (List.range' 0 (divRoundUp r (sizePerPointer (l + 1))).toNat).map
        (childSize (divRoundUp r (sizePerPointer (l + 1))) r (sizePerPointer (l + 1))) := by
    rw [childSizes, List.range_eq_range']
  have hchildren := @allocateChildren_spec (Allocate l new) _ (treeSectors l) (Shaped l)
    (sectors l) _ (fun j ↦ hspec (childSize_bounds hr hp j).1 (childSize_bounds hr hp j).2)
    (divRoundUp r (sizePerPointer (l + 1))).toNat 0
  rwa [← hsizes, sum_treeSectors_childSizes hl hr] at hchildren

/-- **`IndexBlock::Allocate`.** A fresh level-`l` block told `r` bytes, no more than its parent's
pointer reaches, meets the contract of its whole tree: it claims `treeSectors l r` sectors and
builds the shaped subtree, whose active entries are exactly the sectors claimed, in order. -/
theorem Allocate_spec : ∀ {l : Nat} {r : Int}, l ≤ 2 → 0 < r → r ≤ sizePerPointer (l + 1) →
    AllocSpec (fun m ↦ Allocate l new m r) (treeSectors l r) (Shaped l r) (sectors l)
      (.assertionFailed "which >= 0 && which < numBits")
  | 0, r, _, hr, hr' => by
    have hr'' : r ≤ NumSectorInt * sizePerPointer 0 := by simpa using hr'
    refine ⟨treeSectors_nonneg 0 hr.le, fun m hm ↦ ?_, fun m hm ↦ ?_⟩
    · obtain ⟨b', xs, hrun, hxs, hlen, hc, hent, hnil⟩ :=
        allocateEntries_of_le hr hr'' isInt_new (by simpa [treeSectors] using hm)
      exact ⟨b', xs, by simp [Allocate, hrun], hxs, by simpa [treeSectors] using hlen,
        ⟨hc, hnil⟩, hent⟩
    · simp [Allocate, allocateEntries_of_lt hr hr'' (by simpa [treeSectors] using hm)]
  | l + 1, r, hl, hr, hr' => by
    have hr'' : r ≤ NumSectorInt * sizePerPointer (l + 1) := by
      rwa [← sizePerPointer_succ (by omega)]
    have hp := sizePerPointer_pos (l + 1)
    have hchildren := allocateChildren_tree (l := l) (by omega) hr fun hs hs' ↦
      Allocate_spec (by omega) hs hs'
    have hsub := treeSectors_nonneg l hr.le
    rw [treeSectors_succ]
    refine ⟨by have := (divRoundUp_spec hr.le hp).1; omega, fun m hm ↦ ?_, fun m hm ↦ ?_⟩
    · obtain ⟨b', xs, hrun, hxs, hlen, hc, hent, -⟩ :=
        allocateEntries_of_le (m := m) hr hr'' isInt_new (by omega)
      obtain ⟨cs, ys, hcs, hys, hlen', hP, hS⟩ :=
        hchildren.of_le (m.markAll xs) (by rw [Bitmap.NumClear_markAll hxs]; omega)
      refine ⟨{ b' with nextIndexBlocks := cs }, xs ++ ys, ?_, hxs.append hys,
        by simp only [List.length_append, Nat.cast_add]; omega,
        ⟨⟨hc.1, hc.2, hc.3, hc.4⟩, hP⟩, by simp [sectors, entries, ← hent, hS]⟩
      simp [Allocate, hrun, hc.numBytes_eq, hc.levelSectors_eq, hcs, Bitmap.markAll_append]
    · by_cases h1 : m.NumClear < divRoundUp r (sizePerPointer (l + 1))
      · simp [Allocate, allocateEntries_of_lt hr hr'' h1]
      · obtain ⟨b', xs, hrun, hxs, hlen, hc, -, -⟩ :=
          allocateEntries_of_le (m := m) hr hr'' isInt_new (by omega)
        simp [Allocate, hrun, hc.numBytes_eq, hc.levelSectors_eq,
          hchildren.of_lt (m.markAll xs) (by rw [Bitmap.NumClear_markAll hxs]; omega)]

end IndexBlock

/-! ## `FileHeader::Allocate` -/

namespace FileHeader

theorem checkClaimed_of_used {m : Bitmap} {x : Nat} (_ : m.IsUsed x) : checkClaimed x m = .ok () :=
  ASSERT_of_true (Int.natCast_nonneg x) _

variable {self : FileHeader} {m : Bitmap} {n : Int} {L : Level}

/-- **Too little room for the data.** Below `divRoundUp(fileSize, SectorSize)` clear sectors,
`Allocate` returns `FALSE` with the map untouched, having set only the two length fields. -/
theorem Allocate_of_lt_numSectors (hm : m.NumClear < divRoundUp n SectorSize) :
    self.Allocate m n =
      .ok (false, { self with numBytes := n, numSectors := divRoundUp n SectorSize }, m) := by
  simp only [Allocate, if_pos hm]
  rfl

section Root

variable (hn : 0 ≤ n) (hL : InitLevel n = .ok L) (hD : divRoundUp n SectorSize ≤ m.NumClear)
include hn hL hD

/-- Past the check the root's own entries are always claimed: they are no more than the data's
sectors. -/
theorem claimSectors_root :
    ∃ xs t', claimSectors checkClaimed (divRoundUp n (sizePerPointer L.toNat)).toNat 0
        self.dataSectors m = .ok (t', m.markAll xs) ∧ m.Fresh xs ∧
      (xs.length : Int) = divRoundUp n (sizePerPointer L.toNat) ∧
      t'.entries.take (divRoundUp n (sizePerPointer L.toNat)).toNat = xs.map (↑) := by
  have hp := sizePerPointer_pos L.toNat
  have hk := divRoundUp_le hn hp (InitLevel_eq_ok hL).1
  have hk0 := (divRoundUp_spec hn hp).1
  have hkD : divRoundUp n (sizePerPointer L.toNat) ≤ divRoundUp n SectorSize := by
    have := (divRoundUp_spec hn (by decide : (0 : Int) < SectorSize))
    exact divRoundUp_le hn hp (Int.le_trans this.2.1
      (Int.mul_le_mul_of_nonneg_left (SectorSize_le_sizePerPointer _) this.1))
  have hlen := self.dataSectors.length_eq
  simp only [NumPointers_eq] at hk hlen
  obtain ⟨xs, t', hrun, hxs, hlen', hent⟩ := claimSectors_of_le (fun _ _ h ↦ checkClaimed_of_used h)
    (k := (divRoundUp n (sizePerPointer L.toNat)).toNat) (i := 0) (t := self.dataSectors) (m := m)
    (by simp only [hlen]; omega) (by omega)
  rw [Nat.cast_zero] at hrun
  exact ⟨xs, t', hrun, hxs, by omega, by simp [hent, ← hlen']⟩

/-- **`FileHeader::Allocate` past its check.** With the data's sectors clear, the run succeeds
exactly when the whole tree's sectors are clear: it then claims `treeSectors` fresh sectors and
builds the shaped header, whose active entries they are. Otherwise it stops inside the first
`IndexBlock::Allocate` that finds the map full. -/
theorem Allocate_spec :
    (treeSectors L.toNat n ≤ m.NumClear → ∃ h xs, self.Allocate m n = .ok (true, h, m.markAll xs) ∧
      m.Fresh xs ∧ (xs.length : Int) = treeSectors L.toNat n ∧ h.Shaped n ∧
      h.numSectors = divRoundUp n SectorSize ∧ h.sectors = xs.map (↑)) ∧
    (m.NumClear < treeSectors L.toNat n →
      self.Allocate m n = .error (.assertionFailed "which >= 0 && which < numBits")) := by
  obtain ⟨xs, t', hrun, hxs, hlen, hent⟩ := @claimSectors_root self m n L hn hL hD
  have hcheck : ¬m.NumClear < divRoundUp n 128 := Int.not_lt.mpr hD
  by_cases hLD : L = .LDirect
  · subst hLD
    have htree : treeSectors Level.LDirect.toNat n = divRoundUp n SectorSize := by
      simp [treeSectors]
    rw [htree]
    refine ⟨fun _ ↦ ⟨{ self with
        numBytes := n
        numSectors := divRoundUp n SectorSize
        level := .LDirect
        levelSectors := divRoundUp n (sizePerPointer Level.LDirect.toNat)
        dataSectors := t' }, xs, ?_, hxs, by simpa using hlen,
      ⟨rfl, hL, rfl, fun h ↦ absurd rfl h⟩, rfl, by simpa [sectors, entries] using hent⟩,
      fun h ↦ absurd hD (Int.not_le.mpr h)⟩
    simp only [Level.toNat_LDirect, sizePerPointer_zero] at hrun
    simp [Allocate, hcheck, hL, hrun]
  · obtain ⟨l, hl⟩ : ∃ l, L.toNat = l + 1 := ⟨L.toNat - 1, by have := Level.one_le_toNat hLD; omega⟩
    have hl2 : l ≤ 2 := by have := L.toNat_le; omega
    have hpos := InitLevel_pos hL hLD
    have hchildren := IndexBlock.allocateChildren_tree hl2 hpos fun hs hs' ↦
      IndexBlock.Allocate_spec hl2 hs hs'
    rw [hl] at hrun hlen hent ⊢
    rw [treeSectors_succ]
    have hm := Bitmap.NumClear_markAll hxs
    refine ⟨fun hm' ↦ ?_, fun hm' ↦ ?_⟩
    · obtain ⟨cs, ys, hcs, hys, hlen', hP, hS⟩ := hchildren.of_le (m.markAll xs) (by omega)
      refine ⟨{ self with
          numBytes := n
          numSectors := divRoundUp n SectorSize
          level := L
          levelSectors := divRoundUp n (sizePerPointer (l + 1))
          dataSectors := t'
          nextIndexBlocks := cs }, xs ++ ys, ?_, hxs.append hys,
        by simp only [List.length_append, Nat.cast_add]; omega,
        ⟨rfl, hL, by simp [hl], fun _ ↦ by simpa [IndexBlock.ShapedChildren, hl] using hP⟩, rfl,
        by simp [sectors, entries, hLD, hl, hent, hS]⟩
      simp [Allocate, hcheck, hL, hl, hrun, hLD, hcs, Bitmap.markAll_append]
    · simp [Allocate, hcheck, hL, hl, hrun, hLD, hchildren.of_lt (m.markAll xs) (by omega)]

end Root

/-- **A successful `Allocate`.** On a size the header supports, a run that returns `TRUE` has
claimed fresh sectors for the whole tree and built the shaped header, whose active entries they
are. -/
theorem Allocate_of_true (hn : 0 ≤ n) (hn' : n ≤ MaxFileSize) {h : FileHeader} {m' : Bitmap}
    (hA : self.Allocate m n = .ok (true, h, m')) :
    ∃ xs, m' = m.markAll xs ∧ m.Fresh xs ∧ (xs.length : Int) = treeSectors h.level.toNat n ∧
      h.Shaped n ∧ h.numSectors = divRoundUp n SectorSize ∧ h.sectors = xs.map (↑) := by
  obtain ⟨L, hL⟩ := InitLevel_isOk hn'
  by_cases hD : m.NumClear < divRoundUp n SectorSize
  · rw [Allocate_of_lt_numSectors hD] at hA
    cases hA
  have hspec := @Allocate_spec self m n L hn hL (Int.not_lt.mp hD)
  by_cases ht : treeSectors L.toNat n ≤ m.NumClear
  · obtain ⟨h', xs, hA', hxs, hlen, hs, hns, hsec⟩ := hspec.1 ht
    rw [hA'] at hA
    cases hA
    exact ⟨xs, rfl, hxs, hs.level_of hL ▸ hlen, hs, hns, hsec⟩
  · rw [hspec.2 (Int.not_le.mp ht)] at hA
    cases hA

/-- The `FindAndSet` loops claim the tree: on a map with the data and index sectors clear,
`Allocate` returns `TRUE`, sets exactly `D + I` sectors that were clear, and they are the active
entries of the tree, each once: the level-0 entries are `D` of them, the index sectors the rest. -/
theorem Allocate_sets_tree_sectors (hn : 0 ≤ n) (hL : InitLevel n = .ok L)
    (hm : divRoundUp n SectorSize + ∑ k ∈ Finset.Ioc 0 L.toNat, divRoundUp n (sizePerPointer k)
      ≤ m.NumClear) :
    ∃ h xs, self.Allocate m n = .ok (true, h, m.markAll xs) ∧ xs.Nodup ∧ (∀ x ∈ xs, m.IsFree x) ∧
      (xs.length : Int) =
        divRoundUp n SectorSize + ∑ k ∈ Finset.Ioc 0 L.toNat, divRoundUp n (sizePerPointer k) ∧
      (∀ j, (m.markAll xs).map[j]? = if j ∈ xs then some true else m.map[j]?) ∧
      h.sectors = xs.map (↑) ∧ (h.leafSectors ++ h.indexSectors).Perm (xs.map (↑)) ∧
      (h.leafSectors.length : Int) = divRoundUp n SectorSize ∧
      (h.indexSectors.length : Int) =
        ∑ k ∈ Finset.Ioc 0 L.toNat, divRoundUp n (sizePerPointer k) := by
  have hD : divRoundUp n SectorSize ≤ m.NumClear := by
    have := Finset.sum_nonneg fun k (_ : k ∈ Finset.Ioc 0 L.toNat) ↦
      (divRoundUp_spec hn (sizePerPointer_pos k)).1
    omega
  obtain ⟨h, xs, hA, hxs, hlen, hs, -, hsec⟩ := (@Allocate_spec self m n L hn hL hD).1 hm
  refine ⟨h, xs, hA, hxs.1, hxs.2, hlen, Bitmap.getElem?_markAll_of_fresh hxs, hsec,
    hsec ▸ (sectors_perm h).symm, hs.length_leafSectors hn,
    hs.level_of hL ▸ hs.length_indexSectors hn⟩

/-- The same file on a map of 32 clear sectors: room for the index block too. -/
theorem Allocate_sets_tree_sectors_at_3841 :
    (0 : Int) ≤ 3841 ∧ InitLevel 3841 = .ok .LSingle ∧
      divRoundUp 3841 SectorSize + ∑ k ∈ Finset.Ioc 0 Level.LSingle.toNat,
        divRoundUp 3841 (sizePerPointer k) ≤
          (⟨List.replicate 32 false, by decide⟩ : Bitmap).NumClear ∧
      ∃ h xs, new.Allocate ⟨List.replicate 32 false, by decide⟩ 3841 =
          .ok (true, h, (⟨List.replicate 32 false, by decide⟩ : Bitmap).markAll xs) ∧
        xs.Nodup ∧ (∀ x ∈ xs, (⟨List.replicate 32 false, by decide⟩ : Bitmap).IsFree x) ∧
        (xs.length : Int) = divRoundUp 3841 SectorSize +
          ∑ k ∈ Finset.Ioc 0 Level.LSingle.toNat, divRoundUp 3841 (sizePerPointer k) ∧
        (∀ j, ((⟨List.replicate 32 false, by decide⟩ : Bitmap).markAll xs).map[j]? =
          if j ∈ xs then some true else (List.replicate 32 false)[j]?) ∧
        h.sectors = xs.map (↑) ∧ (h.leafSectors ++ h.indexSectors).Perm (xs.map (↑)) ∧
        (h.leafSectors.length : Int) = divRoundUp 3841 SectorSize ∧
        (h.indexSectors.length : Int) =
          ∑ k ∈ Finset.Ioc 0 Level.LSingle.toNat, divRoundUp 3841 (sizePerPointer k) :=
  ⟨by decide, rfl, by decide, Allocate_sets_tree_sectors (by decide) rfl (by decide)⟩

/-- The root checks for the data sectors only: on a map with room for the data but not for the
index sectors as well, `Allocate` does not return `FALSE` but stops on the `ASSERT` after the
`FindAndSet` that found the map full, inside an `IndexBlock::Allocate`. -/
theorem Allocate_asserts_without_index_room (hn : 0 ≤ n) (hL : InitLevel n = .ok L)
    (hD : divRoundUp n SectorSize ≤ m.NumClear)
    (hI : m.NumClear <
      divRoundUp n SectorSize + ∑ k ∈ Finset.Ioc 0 L.toNat, divRoundUp n (sizePerPointer k)) :
    self.Allocate m n = .error (.assertionFailed "which >= 0 && which < numBits") :=
  (Allocate_spec hn hL hD).2 hI

/-- The smallest single-indirect file, on a map of 31 clear sectors: room for its 31 data sectors
and none for its index block. -/
theorem Allocate_asserts_at_3841 :
    (0 : Int) ≤ 3841 ∧ InitLevel 3841 = .ok .LSingle ∧
      divRoundUp 3841 SectorSize ≤ (⟨List.replicate 31 false, by decide⟩ : Bitmap).NumClear ∧
      (⟨List.replicate 31 false, by decide⟩ : Bitmap).NumClear < divRoundUp 3841 SectorSize +
        ∑ k ∈ Finset.Ioc 0 Level.LSingle.toNat, divRoundUp 3841 (sizePerPointer k) ∧
      new.Allocate ⟨List.replicate 31 false, by decide⟩ 3841 =
        .error (.assertionFailed "which >= 0 && which < numBits") :=
  ⟨by decide, rfl, by decide, by decide,
    Allocate_asserts_without_index_room (by decide) rfl (by decide) (by decide)⟩

end FileHeader

end NachosFilehdr
