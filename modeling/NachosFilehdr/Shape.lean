import NachosFilehdr.FileHeader
import Mathlib.Algebra.BigOperators.Intervals
import Mathlib.Algebra.Order.BigOperators.Group.Finset
import Mathlib.Data.List.Perm.Basic

/-!
# The shape of a header tree

Every block of the tree is told by its parent how many bytes it stands for, and everything else
about it follows: its counts, how many children it has, and how many bytes each child is told in
turn. `IndexBlock.Shaped l r b` says that `b` is the level-`l` subtree the source builds for `r`
bytes, and `FileHeader.Shaped n h` the same of a whole header for a file of `n` bytes. Both
`Allocate` and `FetchFrom` build exactly this shape, which is how the results about allocation,
translation and persistence meet.

## Splitting a byte count

A block of `r` bytes at a level whose pointers reach `p` bytes has `k = ⌈r / p⌉` active entries.
The source hands each child `p` bytes, except the last, which gets what is left. `childSizes_eq`
says this in one line: `p` repeated `k - 1` times, then `r - (k - 1) * p`, a number in `(0, p]`.
Everything about counts then comes from one arithmetic fact, `sum_divRoundUp_childSizes`: when `q`
divides `p`, the children's `⌈sᵢ / q⌉` add up to `⌈r / q⌉`, because every child but the last is a
whole number of `q`s.

## Sector lists

`IndexBlock.sectors` lists every active entry of a subtree in the order `Allocate` claims them:
the block's own entries, then each child's subtree. `leafSectors` keeps the level-0 entries (the
file's data, in file order) and `indexSectors` the others (the sectors holding index blocks).
-/

open scoped BigOperators

namespace NachosFilehdr

/-! ## The ceiling -/

/-- `divRoundUp n s` is the only `k` with `k * s` in `[n, n + s)`. -/
theorem divRoundUp_eq_of {n s k : Int} (hn : 0 ≤ n) (hs : 0 < s) (h1 : n ≤ k * s)
    (h2 : k * s < n + s) : divRoundUp n s = k := by
  obtain ⟨-, h3, h4⟩ := divRoundUp_spec hn hs
  have hlt : divRoundUp n s < k + 1 :=
    Int.lt_of_mul_lt_mul_right (by rw [Int.add_mul, Int.one_mul]; omega) hs.le
  have hgt : k < divRoundUp n s + 1 :=
    Int.lt_of_mul_lt_mul_right (by rw [Int.add_mul, Int.one_mul]; omega) hs.le
  omega

/-- Taking away a whole number of `s`s takes the same number off the ceiling. -/
theorem divRoundUp_sub_mul {n s t : Int} (hn : 0 ≤ n) (hnt : 0 ≤ n - t * s) (hs : 0 < s) :
    divRoundUp (n - t * s) s = divRoundUp n s - t := by
  obtain ⟨-, h1, h2⟩ := divRoundUp_spec hn hs
  exact divRoundUp_eq_of hnt hs (by rw [Int.sub_mul]; omega) (by rw [Int.sub_mul]; omega)

theorem divRoundUp_mul {s t : Int} (hs : 0 < s) (ht : 0 ≤ t) : divRoundUp (s * t) s = t :=
  divRoundUp_eq_of (Int.mul_nonneg hs.le ht) hs (Int.le_of_eq (Int.mul_comm _ _))
    (by rw [Int.mul_comm]; omega)

/-! ## Splitting a byte count -/

/-- The byte counts a block hands its children, in order. -/
def childSizes (levelSectors numBytes perPointer : Int) : List Int :=
  (List.range levelSectors.toNat).map (childSize levelSectors numBytes perPointer)

section Split

variable {r p : Int} (hr : 0 < r) (hp : 0 < p)
include hr hp

/-- The last child gets the rest. -/
theorem childSize_last :
    childSize (divRoundUp r p) r p (divRoundUp r p - 1).toNat = r - (divRoundUp r p - 1) * p := by
  have hk := divRoundUp_pos hr hp
  have h1 := Int.ediv_add_emod' r p
  have h2 := Int.emod_nonneg r hp.ne'
  have h3 := Int.emod_lt_of_pos r hp
  rw [childSize, Int.tmod_eq_emod hr.le hp.le, Int.toNat_of_nonneg (by omega)]
  rw [divRoundUp_eq hr.le hp] at hk ⊢
  by_cases h0 : r % p = 0
  · rw [if_neg (by omega), if_neg (by omega), Int.add_zero, Int.sub_mul, Int.one_mul]
    omega
  · rw [if_pos ⟨rfl, h0⟩, if_pos (by omega), Int.add_sub_cancel]
    omega

omit hr hp in
theorem childSize_of_lt {i : Nat} (hi : (i : Int) < divRoundUp r p - 1) :
    childSize (divRoundUp r p) r p i = p := by
  rw [childSize, if_neg (by omega)]

theorem childSizes_eq :
    childSizes (divRoundUp r p) r p =
      List.replicate (divRoundUp r p - 1).toNat p ++ [r - (divRoundUp r p - 1) * p] := by
  have hk := divRoundUp_pos hr hp
  have hn : (divRoundUp r p).toNat = (divRoundUp r p - 1).toNat + 1 := by omega
  rw [childSizes, hn, List.range_succ, List.map_append, List.map_singleton, childSize_last hr hp]
  congr 1
  apply List.eq_replicate_iff.mpr
  refine ⟨by simp, fun s hs ↦ ?_⟩
  obtain ⟨i, hi, rfl⟩ := List.mem_map.mp hs
  exact childSize_of_lt (by rw [List.mem_range] at hi; omega)

/-- The last child's share is positive and at most a full pointer. -/
theorem lastChild_bounds : 0 < r - (divRoundUp r p - 1) * p ∧ r - (divRoundUp r p - 1) * p ≤ p := by
  have := divRoundUp_spec hr.le hp
  rw [Int.sub_mul, Int.one_mul]
  omega

/-- Whatever the index, a child's share is positive and at most a full pointer. -/
theorem childSize_bounds (i : Nat) :
    0 < childSize (divRoundUp r p) r p i ∧ childSize (divRoundUp r p) r p i ≤ p := by
  have := Int.emod_nonneg r hp.ne'
  have := Int.emod_lt_of_pos r hp
  rw [childSize, Int.tmod_eq_emod hr.le hp.le]
  split_ifs <;> omega

theorem mem_childSizes {s : Int} (hs : s ∈ childSizes (divRoundUp r p) r p) : 0 < s ∧ s ≤ p := by
  obtain ⟨i, -, rfl⟩ := List.mem_map.mp hs
  exact childSize_bounds hr hp i

/-- **Splitting.** When `q` divides the reach `p`, the children's ceilings add up to the parent's:
every child but the last is a whole number of `q`s. -/
theorem sum_divRoundUp_childSizes {q t : Int} (hq : 0 < q) (ht : 0 ≤ t) (hpq : p = q * t) :
    ((childSizes (divRoundUp r p) r p).map (divRoundUp · q)).sum = divRoundUp r q := by
  have hlast := lastChild_bounds hr hp
  have hk := divRoundUp_pos hr hp
  subst hpq
  rw [childSizes_eq hr hp, List.map_append, List.sum_append, List.map_replicate,
    List.sum_replicate, List.map_singleton, List.sum_singleton, nsmul_eq_mul,
    divRoundUp_mul hq ht, Int.toNat_of_nonneg (by omega)]
  have : (divRoundUp r (q * t) - 1) * (q * t) = ((divRoundUp r (q * t) - 1) * t) * q := by
    rw [Int.mul_comm q t, Int.mul_assoc]
  rw [this, divRoundUp_sub_mul hr.le (by rw [← this]; omega) hq]
  omega

theorem sum_childSizes : (childSizes (divRoundUp r p) r p).sum = r := by
  have hk := divRoundUp_pos hr hp
  rw [childSizes_eq hr hp, List.sum_append, List.sum_replicate, List.sum_singleton,
    nsmul_eq_mul, Int.toNat_of_nonneg (by omega), Int.mul_comm]
  omega

end Split

/-- Each reach divides every higher one. -/
theorem sizePerPointer_dvd {k l : Nat} (hkl : k ≤ l) (hl : l ≤ 3) :
    ∃ t, 0 ≤ t ∧ sizePerPointer l = sizePerPointer k * t := by
  interval_cases l <;> interval_cases k
  all_goals first
    | exact ⟨1, by decide, by decide⟩ | exact ⟨32, by decide, by decide⟩
    | exact ⟨1024, by decide, by decide⟩ | exact ⟨32768, by decide, by decide⟩

/-- Two lists related pointwise map to the same list when the two maps agree on related
elements. -/
theorem map_eq_of_forall₂ {α β γ : Type} {R : α → β → Prop} {f : α → γ} {g : β → γ}
    {as : List α} {bs : List β} (h : List.Forall₂ R as bs)
    (hfg : ∀ a ∈ as, ∀ b, R a b → f a = g b) : as.map f = bs.map g := by
  induction h with
  | nil => rfl
  | cons hab _ ih =>
    rw [List.map_cons, List.map_cons, hfg _ (List.mem_cons_self _ _) _ hab,
      ih fun a ha ↦ hfg a (List.mem_cons_of_mem _ ha)]

/-- A length of a `flatMap`, counted in `Int`. -/
theorem length_flatMap_int {α β : Type} (xs : List α) (f : α → List β) :
    ((xs.flatMap f).length : Int) = (xs.map fun x ↦ ((f x).length : Int)).sum := by
  induction xs with
  | nil => rfl
  | cons x xs ih =>
    simp only [List.flatMap_cons, List.length_append, Nat.cast_add, ih, List.map_cons,
      List.sum_cons]

/-- A list sum of finite sums is the finite sum of the list sums. -/
theorem list_sum_finset_sum {α : Type} (xs : List α) (R : Finset Nat) (f : Nat → α → Int) :
    (xs.map fun x ↦ ∑ k ∈ R, f k x).sum = ∑ k ∈ R, (xs.map (f k)).sum := by
  induction xs with
  | nil => simp
  | cons x xs ih => simp [ih, Finset.sum_add_distrib]

/-- The sectors a level-`l` tree of `r` bytes holds: `⌈r / SectorSize⌉` data sectors, and
`⌈r / sizePerPointer[k]⌉` index sectors at each level `k` in `(0, l]`. -/
def treeSectors (l : Nat) (r : Int) : Int :=
  divRoundUp r SectorSize + ∑ k ∈ Finset.Ioc 0 l, divRoundUp r (sizePerPointer k)

theorem treeSectors_succ (l : Nat) (r : Int) :
    treeSectors (l + 1) r = divRoundUp r (sizePerPointer (l + 1)) + treeSectors l r := by
  rw [treeSectors, treeSectors, Finset.sum_Ioc_succ_top (Nat.zero_le l)]
  omega

theorem treeSectors_nonneg (l : Nat) {r : Int} (hr : 0 ≤ r) : 0 ≤ treeSectors l r :=
  Int.add_nonneg (divRoundUp_spec hr (by decide)).1
    (Finset.sum_nonneg fun k _ ↦ (divRoundUp_spec hr (sizePerPointer_pos k)).1)

/-- A block's children hold, between them, the tree of the block's bytes one level down. -/
theorem sum_treeSectors_childSizes {l : Nat} {r : Int} (hl : l ≤ 2) (hr : 0 < r) :
    ((childSizes (divRoundUp r (sizePerPointer (l + 1))) r (sizePerPointer (l + 1))).map
      (treeSectors l)).sum = treeSectors l r := by
  have hsplit : ∀ k ≤ l + 1, ((childSizes (divRoundUp r (sizePerPointer (l + 1))) r
      (sizePerPointer (l + 1))).map (divRoundUp · (sizePerPointer k))).sum
        = divRoundUp r (sizePerPointer k) := fun k hk ↦ by
    obtain ⟨t, ht, hpt⟩ := sizePerPointer_dvd hk (by omega)
    exact sum_divRoundUp_childSizes hr (sizePerPointer_pos _) (sizePerPointer_pos k) ht hpt
  unfold treeSectors
  rw [List.sum_map_add, list_sum_finset_sum]
  congr 1
  · exact hsplit 0 (Nat.zero_le _)
  · exact Finset.sum_congr rfl fun k hk ↦ hsplit k (by rw [Finset.mem_Ioc] at hk; omega)

theorem forall₂_getElem? {α β : Type} {R : α → β → Prop} {as : List α} {bs : List β} {i : Nat}
    {b : β} (h : List.Forall₂ R as bs) (hb : bs[i]? = some b) : ∃ a, as[i]? = some a ∧ R a b := by
  induction h generalizing i with
  | nil => simp at hb
  | @cons a b' as bs hab _ ih =>
    cases i with
    | zero => exact ⟨a, List.getElem?_cons_zero, by simp at hb; exact hb ▸ hab⟩
    | succ i => simpa using ih (by simpa using hb)

theorem forall₂_of_getElem? {α β : Type} {R : α → β → Prop} :
    ∀ {as : List α} {bs : List β}, as.length = bs.length →
      (∀ (i : Nat) a b, as[i]? = some a → bs[i]? = some b → R a b) → List.Forall₂ R as bs
  | [], [], _, _ => .nil
  | a :: _, b :: _, hl, h => .cons (h 0 a b List.getElem?_cons_zero List.getElem?_cons_zero)
      (forall₂_of_getElem? (by simpa using hl) fun i a' b' ha hb ↦
        h (i + 1) a' b' (by simpa using ha) (by simpa using hb))
  | [], _ :: _, hl, _ => by simp at hl
  | _ :: _, [], hl, _ => by simp at hl

/-! ## Shaped blocks -/

namespace IndexBlock

/-- The active entries of the table: its first `levelSectors`. -/
def entries (b : IndexBlock) : List Int := b.nextSectors.entries.take b.levelSectors.toNat

/-- The fields `Allocate` and `FetchFrom` set in a level-`level` block for `remSize` bytes. -/
structure Counted (b : IndexBlock) (level : Nat) (remSize : Int) : Prop where
  numBytes_eq : b.numBytes = remSize
  numSectors_eq : b.numSectors = divRoundUp remSize SectorSize
  levelSectors_eq : b.levelSectors = divRoundUp remSize (sizePerPointer level)
  /-- Every table entry, active or not, is an `int`. -/
  isInt : ∀ x ∈ b.nextSectors.entries, IsInt x

/-- `b` is the level-`l` subtree the source builds for `r` bytes: its counts, and each child the
subtree for the bytes the source hands it. A level-0 block has no children. -/
def Shaped : Nat → Int → IndexBlock → Prop
  | 0, r, b => b.Counted 0 r ∧ b.nextIndexBlocks = []
  | l + 1, r, b => b.Counted (l + 1) r ∧
      List.Forall₂ (Shaped l) (childSizes (divRoundUp r (sizePerPointer (l + 1))) r
        (sizePerPointer (l + 1))) b.nextIndexBlocks

/-- The children of a level-`l + 1` block of `r` bytes, as the source shapes them. -/
def ShapedChildren (l : Nat) (r : Int) (cs : List IndexBlock) : Prop :=
  List.Forall₂ (Shaped l) (childSizes (divRoundUp r (sizePerPointer (l + 1))) r
    (sizePerPointer (l + 1))) cs

/-- Every active entry of the subtree, in the order `Allocate` claims them. -/
def sectors : Nat → IndexBlock → List Int
  | 0, b => b.entries
  | l + 1, b => b.entries ++ b.nextIndexBlocks.flatMap (sectors l)

/-- The level-0 entries of the subtree: its data sectors, in file order. -/
def leafSectors : Nat → IndexBlock → List Int
  | 0, b => b.entries
  | l + 1, b => b.nextIndexBlocks.flatMap (leafSectors l)

/-- The entries of the subtree's blocks above level 0: the sectors holding index blocks. -/
def indexSectors : Nat → IndexBlock → List Int
  | 0, _ => []
  | l + 1, b => b.entries ++ b.nextIndexBlocks.flatMap (indexSectors l)

theorem Shaped.counted : ∀ {l : Nat} {r : Int} {b : IndexBlock}, b.Shaped l r → b.Counted l r
  | 0, _, _, h => h.1
  | _ + 1, _, _, h => h.1

theorem Shaped.children {l : Nat} {r : Int} {b : IndexBlock} (h : b.Shaped (l + 1) r) :
    ShapedChildren l r b.nextIndexBlocks := h.2

theorem ShapedChildren.getElem? {l : Nat} {r : Int} {cs : List IndexBlock} {i : Nat}
    {c : IndexBlock} (hc : ShapedChildren l r cs) (h : cs[i]? = some c) :
    (i : Int) < divRoundUp r (sizePerPointer (l + 1)) ∧
      c.Shaped l
        (childSize (divRoundUp r (sizePerPointer (l + 1))) r (sizePerPointer (l + 1)) i) := by
  obtain ⟨s, hs, hsc⟩ := forall₂_getElem? hc h
  obtain ⟨hi, rfl⟩ := List.getElem?_eq_some_iff.mp hs
  simp only [childSizes, List.length_map, List.length_range] at hi
  exact ⟨by omega, by simpa [childSizes] using hsc⟩

theorem ShapedChildren.length {l : Nat} {r : Int} {cs : List IndexBlock}
    (hc : ShapedChildren l r cs) : cs.length = (divRoundUp r (sizePerPointer (l + 1))).toNat := by
  rw [← hc.length_eq]
  simp [childSizes]

/-- Children given one by one: the `i`-th is the shaped subtree for the `i`-th share. -/
theorem shapedChildren_of_getElem? {l : Nat} {r : Int} {cs : List IndexBlock}
    (hlen : cs.length = (divRoundUp r (sizePerPointer (l + 1))).toNat)
    (h : ∀ (i : Nat) (c : IndexBlock), cs[i]? = some c →
      c.Shaped l (childSize (divRoundUp r (sizePerPointer (l + 1))) r (sizePerPointer (l + 1)) i)) :
    ShapedChildren l r cs :=
  forall₂_of_getElem? (by simp [childSizes, hlen]) fun i s c hs hc ↦ by
    obtain ⟨-, rfl⟩ := List.getElem?_eq_some_iff.mp hs
    simpa [childSizes] using h i c hc

/-- Every child of a shaped block is a shaped subtree for a share in
`(0, sizePerPointer[l + 1]]`. -/
theorem ShapedChildren.exists_of_mem {l : Nat} {r : Int} {cs : List IndexBlock} {c : IndexBlock}
    (hc : ShapedChildren l r cs) (hr : 0 < r) (h : c ∈ cs) :
    ∃ s, 0 < s ∧ s ≤ sizePerPointer (l + 1) ∧ c.Shaped l s := by
  obtain ⟨i, hi⟩ := List.mem_iff_getElem?.mp h
  exact ⟨_, childSize_bounds hr (sizePerPointer_pos _) i |>.1,
    childSize_bounds hr (sizePerPointer_pos _) i |>.2, (hc.getElem? hi).2⟩

theorem sectors_perm : ∀ (l : Nat) (b : IndexBlock),
    (b.sectors l).Perm (b.leafSectors l ++ b.indexSectors l)
  | 0, b => by simp [sectors, leafSectors, indexSectors]
  | l + 1, b => by
    simp only [sectors, leafSectors, indexSectors]
    have hc := (List.Perm.flatMap_left b.nextIndexBlocks fun c _ ↦ sectors_perm l c).trans
      (List.flatMap_append_perm _ _ _).symm
    refine (hc.append_left _).trans ?_
    rw [← List.append_assoc, ← List.append_assoc]
    exact List.perm_append_comm.append_right _

/-- A block of `r` bytes, with `r` at most what its table can address, has exactly
`⌈r / sizePerPointer[level]⌉` active entries. -/
theorem Counted.length_entries {b : IndexBlock} {l : Nat} {r : Int} (h : b.Counted l r)
    (hr : 0 < r) (hr' : r ≤ NumSectorInt * sizePerPointer l) :
    (b.entries.length : Int) = divRoundUp r (sizePerPointer l) ∧
      divRoundUp r (sizePerPointer l) ≤ NumSectorInt := by
  have hp := sizePerPointer_pos l
  have hle := divRoundUp_le hr.le hp hr'
  have hpos := divRoundUp_pos hr hp
  have := b.nextSectors.length_eq
  simp only [entries, List.length_take, h.levelSectors_eq, NumSectorInt_eq] at *
  omega

/-- The children of a shaped block fit the `NumSectorInt` pointers the source allocates. -/
theorem Shaped.length_nextIndexBlocks_le {b : IndexBlock} {l : Nat} {r : Int}
    (h : b.Shaped (l + 1) r) (hr : 0 < r) (hr' : r ≤ NumSectorInt * sizePerPointer (l + 1)) :
    b.nextIndexBlocks.length ≤ NumSectorInt.toNat := by
  have := (h.counted.length_entries hr hr').2
  rw [h.children.length]
  simp only [NumSectorInt_eq] at *
  omega

section Children

variable {l : Nat} {r : Int} {cs : List IndexBlock} (hr : 0 < r) (hc : ShapedChildren l r cs)
include hr hc

/-- Counting over the children: a per-child count that is `⌈s / sizePerPointer[k]⌉` for each
child's share `s` adds up to `⌈r / sizePerPointer[k]⌉`. -/
theorem ShapedChildren.sum_map {k : Nat} (hk : k ≤ l + 1) (hl : l ≤ 2) (f : IndexBlock → Int)
    (hf : ∀ (s : Int) (c : IndexBlock), 0 < s → s ≤ sizePerPointer (l + 1) → c.Shaped l s → f c
      = divRoundUp s (sizePerPointer k)) :
    (cs.map f).sum = divRoundUp r (sizePerPointer k) := by
  obtain ⟨t, ht, hpt⟩ := sizePerPointer_dvd hk (by omega)
  have hb := fun s hm ↦ mem_childSizes hr (sizePerPointer_pos (l + 1)) (s := s) hm
  rw [← map_eq_of_forall₂ hc fun s hm c hsc ↦ (hf s c (hb s hm).1 (hb s hm).2 hsc).symm]
  exact sum_divRoundUp_childSizes hr (sizePerPointer_pos _) (sizePerPointer_pos k) ht hpt

/-- The children's level-0 entries number `⌈r / SectorSize⌉`, given that each child's do. -/
theorem ShapedChildren.length_leafSectors (hl : l ≤ 2)
    (ih : ∀ (s : Int) (c : IndexBlock), 0 < s → s ≤ sizePerPointer (l + 1) → c.Shaped l s →
      ((c.leafSectors l).length : Int) = divRoundUp s SectorSize) :
    ((cs.flatMap (leafSectors l)).length : Int) = divRoundUp r SectorSize := by
  rw [length_flatMap_int]
  exact hc.sum_map hr (Nat.zero_le _) hl _ ih

/-- The children's entries above level 0 number `∑ k ∈ (0, l], ⌈r / sizePerPointer[k]⌉`, given
that each child's do. -/
theorem ShapedChildren.length_indexSectors (hl : l ≤ 2)
    (ih : ∀ (s : Int) (c : IndexBlock), 0 < s → s ≤ sizePerPointer (l + 1) → c.Shaped l s →
      ((c.indexSectors l).length : Int) = ∑ k ∈ Finset.Ioc 0 l, divRoundUp s (sizePerPointer k)) :
    ((cs.flatMap (indexSectors l)).length : Int)
      = ∑ k ∈ Finset.Ioc 0 l, divRoundUp r (sizePerPointer k) := by
  have hb := fun s hm ↦ mem_childSizes hr (sizePerPointer_pos (l + 1)) (s := s) hm
  rw [length_flatMap_int, ← map_eq_of_forall₂ hc fun s hm c hsc ↦
    (ih s c (hb s hm).1 (hb s hm).2 hsc).symm, list_sum_finset_sum]
  refine Finset.sum_congr rfl fun k hk ↦ ?_
  rw [Finset.mem_Ioc] at hk
  obtain ⟨t, ht, hpt⟩ := sizePerPointer_dvd (k := k) (l := l + 1) (by omega) (by omega)
  exact sum_divRoundUp_childSizes hr (sizePerPointer_pos _) (sizePerPointer_pos k) ht hpt

end Children

section Counts

variable {l : Nat} {r : Int} {b : IndexBlock}

/-- **Data sectors.** A shaped subtree of `r` bytes has `⌈r / SectorSize⌉` level-0 entries. -/
theorem Shaped.length_leafSectors (hl : l ≤ 2) (hr : 0 < r) (hr' : r ≤ sizePerPointer (l + 1))
    (h : b.Shaped l r) : ((b.leafSectors l).length : Int) = divRoundUp r SectorSize := by
  induction l generalizing r b with
  | zero =>
    have := (h.counted.length_entries hr (by simpa using hr')).1
    simpa [leafSectors] using this
  | succ l ih =>
    exact h.children.length_leafSectors hr (by omega) fun s c hs hs' hsc ↦ ih (by omega) hs hs' hsc

/-- **Index sectors.** A shaped level-`l` subtree of `r` bytes has `⌈r / sizePerPointer[k]⌉`
entries at each level `k` in `(0, l]`, and those are its entries above level 0. -/
theorem Shaped.length_indexSectors (hl : l ≤ 2) (hr : 0 < r) (hr' : r ≤ sizePerPointer (l + 1))
    (h : b.Shaped l r) :
    ((b.indexSectors l).length : Int) = ∑ k ∈ Finset.Ioc 0 l, divRoundUp r (sizePerPointer k) := by
  induction l generalizing r b with
  | zero => simp [indexSectors]
  | succ l ih =>
    have hent := (h.counted.length_entries hr
      (by rw [← sizePerPointer_succ (by omega)]; exact hr')).1
    rw [indexSectors, List.length_append, Nat.cast_add, hent,
      h.children.length_indexSectors hr (by omega) fun s c hs hs' hsc ↦ ih (by omega) hs hs' hsc,
      Finset.sum_Ioc_succ_top (Nat.zero_le l)]
    omega

end Counts

end IndexBlock

/-! ## Shaped headers -/

theorem Level.toNat_le (L : Level) : L.toNat ≤ 3 := by cases L <;> decide

theorem Level.one_le_toNat {L : Level} (h : L ≠ .LDirect) : 1 ≤ L.toNat := by
  cases L <;> simp_all

/-- An indirect level is one above a block level `l ≤ 2`. -/
theorem Level.exists_toNat_eq_succ {L : Level} (h : L ≠ .LDirect) : ∃ l, L.toNat = l + 1 ∧ l ≤ 2 :=
  ⟨L.toNat - 1, by have := one_le_toNat h; omega, by have := L.toNat_le; omega⟩

namespace FileHeader

/-- `InitLevel` picks the least level whose root table reaches `n` bytes. -/
theorem InitLevel_eq_ok {n : Int} {L : Level} (h : InitLevel n = .ok L) :
    n ≤ NumPointers * sizePerPointer L.toNat ∧
      ∀ L' : Level, L'.toNat < L.toNat → NumPointers * sizePerPointer L'.toNat < n := by
  simp only [InitLevel] at h
  split_ifs at h <;> cases h <;> refine ⟨by simp_all, fun L' hL' ↦ ?_⟩ <;>
    cases L' <;> simp_all

/-- A level above `LDirect` is only chosen for a file longer than the root table reaches
directly. -/
theorem InitLevel_pos {n : Int} {L : Level} (h : InitLevel n = .ok L) (hL : L ≠ .LDirect) :
    0 < n := by
  have := (InitLevel_eq_ok h).2 .LDirect (by have := Level.one_le_toNat hL; simpa)
  simp at this
  omega

/-- Every size up to `MaxFileSize` has a level. -/
theorem InitLevel_isOk {n : Int} (hn : n ≤ MaxFileSize) : ∃ L, InitLevel n = .ok L := by
  simp only [InitLevel]
  split_ifs with h1 h2 h3 h4 <;> first | exact ⟨_, rfl⟩ | exact (h4 hn).elim

/-- The active entries of the root table. -/
def entries (h : FileHeader) : List Int := h.dataSectors.entries.take h.levelSectors.toNat

/-- Every active entry of the tree, in the order `Allocate` claims them. -/
def sectors (h : FileHeader) : List Int :=
  if h.level = .LDirect then h.entries
  else h.entries ++ h.nextIndexBlocks.flatMap (IndexBlock.sectors (h.level.toNat - 1))

/-- The file's data sectors, in file order. -/
def leafSectors (h : FileHeader) : List Int :=
  if h.level = .LDirect then h.entries
  else h.nextIndexBlocks.flatMap (IndexBlock.leafSectors (h.level.toNat - 1))

/-- The sectors holding the tree's index blocks. -/
def indexSectors (h : FileHeader) : List Int :=
  if h.level = .LDirect then []
  else h.entries ++ h.nextIndexBlocks.flatMap (IndexBlock.indexSectors (h.level.toNat - 1))

/-- `h` is the header the source builds for a file of `n` bytes: the length, the level
`InitLevel` picks, the root's count, and below a root that is not `LDirect` the shaped children.
The root table's inactive entries, and the children pointer at `LDirect`, are whatever they were;
so is `numSectors`, which `Allocate` computes but `FetchFrom` takes from the disk as stored. -/
structure Shaped (n : Int) (h : FileHeader) : Prop where
  numBytes_eq : h.numBytes = n
  level_eq : InitLevel n = .ok h.level
  levelSectors_eq : h.levelSectors = divRoundUp n (sizePerPointer h.level.toNat)
  children : h.level ≠ .LDirect →
    IndexBlock.ShapedChildren (h.level.toNat - 1) n h.nextIndexBlocks

theorem Shaped.level_of {n : Int} {h : FileHeader} {L : Level} (hs : h.Shaped n)
    (hL : InitLevel n = .ok L) : h.level = L := by
  have := hs.level_eq
  rw [hL] at this
  cases this
  rfl

theorem sectors_perm (h : FileHeader) : h.sectors.Perm (h.leafSectors ++ h.indexSectors) := by
  unfold sectors leafSectors indexSectors
  split_ifs
  · simp
  · have hc := (List.Perm.flatMap_left h.nextIndexBlocks fun c _ ↦
      IndexBlock.sectors_perm (h.level.toNat - 1) c).trans (List.flatMap_append_perm _ _ _).symm
    refine (hc.append_left _).trans ?_
    rw [← List.append_assoc, ← List.append_assoc]
    exact List.perm_append_comm.append_right _

section Counts

variable {n : Int} {h : FileHeader} (hn : 0 ≤ n) (hs : h.Shaped n)
include hn hs

omit hn in
theorem Shaped.pos_of_ne (hL : h.level ≠ .LDirect) : 0 < n := InitLevel_pos hs.level_eq hL

theorem Shaped.length_entries :
    (h.entries.length : Int) = divRoundUp n (sizePerPointer h.level.toNat) ∧
      divRoundUp n (sizePerPointer h.level.toNat) ≤ NumPointers := by
  have hp := sizePerPointer_pos h.level.toNat
  have hle := divRoundUp_le hn hp (InitLevel_eq_ok hs.level_eq).1
  have h0 := (divRoundUp_spec hn hp).1
  have := h.dataSectors.length_eq
  simp only [entries, List.length_take, hs.levelSectors_eq, NumPointers_eq] at *
  omega

theorem Shaped.levelSectors_le : h.levelSectors.toNat ≤ h.dataSectors.entries.length := by
  have hk := (hs.length_entries hn).2
  have hlen := h.dataSectors.length_eq
  simp only [NumPointers_eq] at hk hlen
  rw [hs.levelSectors_eq]
  omega

theorem Shaped.length_entries_eq : h.entries.length = h.levelSectors.toNat := by
  simp [entries, hs.levelSectors_le hn]

/-- The root's children fit the `NumPointers` pointers the source allocates. -/
theorem Shaped.length_nextIndexBlocks_le (hL : h.level ≠ .LDirect) :
    h.nextIndexBlocks.length ≤ NumPointers.toNat := by
  obtain ⟨l, hl, -⟩ := Level.exists_toNat_eq_succ hL
  have hc := hs.children hL
  have := (hs.length_entries hn).2
  rw [hl, Nat.add_sub_cancel] at hc
  rw [hc.length, ← hl]
  simp only [NumPointers_eq] at *
  omega

/-- **Data sectors.** A shaped header for `n` bytes has `⌈n / SectorSize⌉` level-0 entries. -/
theorem Shaped.length_leafSectors : (h.leafSectors.length : Int) = divRoundUp n SectorSize := by
  unfold leafSectors
  split_ifs with hL
  · simpa [hL] using (hs.length_entries hn).1
  · have h1 := Level.one_le_toNat hL
    have h3 := h.level.toNat_le
    refine (hs.children hL).length_leafSectors (hs.pos_of_ne hL) (by omega)
      fun s c hs0 hs1 hsc ↦ hsc.length_leafSectors (by omega) hs0 hs1

/-- **Index sectors.** A shaped header at level `L` has `⌈n / sizePerPointer[k]⌉` index sectors
at each level `k` in `(0, L]`. -/
theorem Shaped.length_indexSectors :
    (h.indexSectors.length : Int)
      = ∑ k ∈ Finset.Ioc 0 h.level.toNat, divRoundUp n (sizePerPointer k) := by
  unfold indexSectors
  split_ifs with hL
  · simp [hL, Level.toNat]
  · have h1 := Level.one_le_toNat hL
    have h3 := h.level.toNat_le
    have hlev : h.level.toNat = h.level.toNat - 1 + 1 := by omega
    rw [List.length_append, Nat.cast_add, (hs.length_entries hn).1,
      (hs.children hL).length_indexSectors (hs.pos_of_ne hL) (by omega)
        fun s c hs0 hs1 hsc ↦ hsc.length_indexSectors (by omega) hs0 hs1, hlev,
      Finset.sum_Ioc_succ_top (Nat.zero_le _), ← hlev]
    omega

end Counts

end FileHeader

end NachosFilehdr
