import NachosFilehdr.Machine

/-!
# The free-sector bitmap

The file header never owns free space: it asks the caller's `PersistentBitmap` for it. The spec
lists the four operations it uses (`FindAndSet`, `Test`, `Clear`, `NumClear`) as an external
service; the model is the Nachos bitmap behind them, one Boolean per sector, `true` while the
sector is in use. The spec asks of `FindAndSet` only that it claim and return one currently free
sector, or return `-1` and change nothing when every bit is set; which free sector it picks is the
bitmap's own choice, outside this repository. The model takes the Nachos one, the lowest clear bit,
so that runs can be evaluated, and every general result goes through `FindAndSet_of_pos` and
`FindAndSet_of_eq_zero`, which state the spec's contract and nothing more. `Test` and `Clear`
`ASSERT` that their argument is a bit of the map.

## Whole runs

An allocation is a sequence of `FindAndSet`s and a deallocation a sequence of `Test`/`Clear`
pairs. Their effect is stated once, pointwise, through `markAll` and `unmarkAll`: after marking
the list `xs`, bit `j` reads what it read before, or'ed with `j ∈ xs`. Every statement about the
free map after `Allocate` or `Deallocate` is phrased with these two.
-/

namespace NachosFilehdr

/-- Modelled from the spec: the free-sector bitmap (`PersistentBitmap`, absent here). Bit `i` is
set while sector `i` is in use. Its size `numBits` is a C `int`. -/
structure Bitmap where
  /-- One bit per sector, `true` for a sector in use. -/
  map : List Bool
  /-- `numBits` fits in an `int`. -/
  numBits_lt : map.length < 2 ^ 31

namespace Bitmap

@[ext] theorem ext {m m' : Bitmap} (h : m.map = m'.map) : m = m' := by
  cases m; cases m'; cases h; rfl

def numBits (m : Bitmap) : Int := m.map.length

/-- `Bitmap::Test`. -/
def Test (m : Bitmap) (which : Int) : Except Fault Bool := do
  ASSERT (which ≥ 0 ∧ which < m.numBits) "which >= 0 && which < numBits"
  pure (m.map.getD which.toNat false)

/-- `Bitmap::Mark`, at an index `FindAndSet` has found in range (its only caller here), so its
range `ASSERT` holds. -/
def Mark (m : Bitmap) (which : Nat) : Bitmap :=
  ⟨m.map.set which true, by simpa using m.numBits_lt⟩

/-- The bit update of `Bitmap::Clear`. -/
def unmark (m : Bitmap) (which : Nat) : Bitmap :=
  ⟨m.map.set which false, by simpa using m.numBits_lt⟩

/-- `Bitmap::Clear`. -/
def Clear (m : Bitmap) (which : Int) : Except Fault Bitmap := do
  ASSERT (which ≥ 0 ∧ which < m.numBits) "which >= 0 && which < numBits"
  pure (m.unmark which.toNat)

/-- `Bitmap::FindAndSet`: mark a clear bit and return it, or return `-1`. Which clear bit is the
bitmap's choice, beyond the spec's contract: this is the Nachos bitmap's, the lowest. -/
def FindAndSet (m : Bitmap) : Int × Bitmap :=
  match m.map.findIdx? (fun b ↦ !b) with
  | some i => (i, m.Mark i)
  | none => (-1, m)

/-- `Bitmap::NumClear`. -/
def NumClear (m : Bitmap) : Int := m.map.count false

/-- Sector `i` is a bit of the map and is free. -/
def IsFree (m : Bitmap) (i : Nat) : Prop := m.map[i]? = some false

/-- Sector `i` is a bit of the map and is in use. -/
def IsUsed (m : Bitmap) (i : Nat) : Prop := m.map[i]? = some true

instance (m : Bitmap) (i : Nat) : Decidable (m.IsFree i) := inferInstanceAs (Decidable (_ = _))
instance (m : Bitmap) (i : Nat) : Decidable (m.IsUsed i) := inferInstanceAs (Decidable (_ = _))

/-! ## The single operations -/

theorem IsFree.lt_numBits {m : Bitmap} {i : Nat} (h : m.IsFree i) : (i : Int) < m.numBits := by
  have := (List.getElem?_eq_some_iff.mp h).1
  simp only [numBits]
  omega

theorem IsUsed.lt_numBits {m : Bitmap} {i : Nat} (h : m.IsUsed i) : (i : Int) < m.numBits := by
  have := (List.getElem?_eq_some_iff.mp h).1
  simp only [numBits]
  omega

theorem IsFree.not_used {m : Bitmap} {i : Nat} (h : m.IsFree i) : ¬ m.IsUsed i := fun hu ↦ by
  simp_all [IsFree, IsUsed]

theorem numBits_lt_two_pow (m : Bitmap) : m.numBits < 2 ^ 31 := by
  have := m.numBits_lt
  simp only [numBits]
  omega

theorem getElem?_Mark (m : Bitmap) (i j : Nat) :
    (m.Mark i).map[j]? = if i = j then m.map[j]?.map (fun _ ↦ true) else m.map[j]? := by
  simp only [Mark, List.getElem?_set]
  split_ifs with h1 h2 <;> subst_vars <;> simp_all [List.getElem?_eq_none]

theorem getElem?_unmark (m : Bitmap) (i j : Nat) :
    (m.unmark i).map[j]? = if i = j then m.map[j]?.map (fun _ ↦ false) else m.map[j]? := by
  simp only [unmark, List.getElem?_set]
  split_ifs with h1 h2 <;> subst_vars <;> simp_all [List.getElem?_eq_none]

/-- **`FindAndSet` with a free sector**: it returns one and marks exactly it. -/
theorem FindAndSet_of_pos {m : Bitmap} (h : 0 < m.NumClear) :
    ∃ i : Nat, m.IsFree i ∧ m.FindAndSet = ((i : Int), m.Mark i) := by
  have hmem : false ∈ m.map := List.count_pos_iff.mp (by simpa [NumClear] using h)
  obtain ⟨hi, hp, -⟩ := List.findIdx?_eq_some_iff_getElem.mp
    (List.findIdx?_eq_some_of_exists (p := fun b ↦ !b) ⟨false, hmem, rfl⟩)
  refine ⟨_, ?_, by rw [FindAndSet, List.findIdx?_eq_some_of_exists ⟨false, hmem, rfl⟩]⟩
  simp only [IsFree, List.getElem?_eq_getElem hi]
  simpa using hp

/-- **`FindAndSet` on a full map**: it returns `-1` and changes nothing. -/
theorem FindAndSet_of_eq_zero {m : Bitmap} (h : m.NumClear = 0) : m.FindAndSet = (-1, m) := by
  have hmem : false ∉ m.map := List.count_eq_zero.mp (by simpa [NumClear] using h)
  have : m.map.findIdx? (fun b ↦ !b) = none :=
    List.findIdx?_eq_none_iff.mpr fun b hb ↦ by cases b <;> simp_all
  simp [FindAndSet, this]

theorem NumClear_Mark {m : Bitmap} {i : Nat} (h : m.IsFree i) :
    (m.Mark i).NumClear = m.NumClear - 1 := by
  obtain ⟨hi, hv⟩ := List.getElem?_eq_some_iff.mp h
  have hpos : 0 < m.map.count false := List.count_pos_iff.mpr (hv ▸ List.getElem_mem hi)
  simp only [NumClear, Mark, List.count_set _ _ _ _ hi, hv]
  simp
  omega

theorem NumClear_nonneg (m : Bitmap) : 0 ≤ m.NumClear := by simp [NumClear]

theorem Test_of_used {m : Bitmap} {i : Nat} (h : m.IsUsed i) : m.Test i = .ok true := by
  have hlt := h.lt_numBits
  simp only [Test, ASSERT_of_true (show (i : Int) ≥ 0 ∧ (i : Int) < m.numBits by omega)]
  simp [List.getD_eq_getElem?_getD, show m.map[i]? = some true from h]

theorem Test_of_neg {m : Bitmap} {which : Int} (h : which < 0) :
    m.Test which = .error (.assertionFailed "which >= 0 && which < numBits") := by
  simp only [Test, ASSERT_of_false (show ¬(which ≥ 0 ∧ which < m.numBits) by omega)]
  rfl

theorem Clear_of_used {m : Bitmap} {i : Nat} (h : m.IsUsed i) : m.Clear i = .ok (m.unmark i) := by
  have hlt := h.lt_numBits
  simp only [Clear, ASSERT_of_true (show (i : Int) ≥ 0 ∧ (i : Int) < m.numBits by omega)]
  rfl

/-- A `Test` that found the bit set was of a sector of the map. -/
theorem Test_eq_ok_true {m : Bitmap} {which : Int} (h : m.Test which = .ok true) :
    ∃ i : Nat, which = i ∧ m.IsUsed i := by
  simp only [Test, bind_eq_ok, ASSERT_eq_ok, pure_eq_ok, Except.ok.injEq] at h
  obtain ⟨-, ⟨h0, hlt⟩, hget⟩ := h
  have : which.toNat < m.map.length := by simp only [numBits] at hlt; omega
  refine ⟨which.toNat, by omega, ?_⟩
  simpa [IsUsed, List.getD_eq_getElem?_getD, List.getElem?_eq_getElem this] using hget

theorem Clear_eq_ok {m m' : Bitmap} {which : Int} (h : m.Clear which = .ok m') :
    m' = m.unmark which.toNat := by
  simp only [Clear, bind_eq_ok, pure_eq_ok, Except.ok.injEq] at h
  obtain ⟨-, -, rfl⟩ := h
  rfl

/-! ## Whole runs -/

/-- The bitmap after marking every sector of `xs`. -/
def markAll (m : Bitmap) (xs : List Nat) : Bitmap := xs.foldl Mark m

/-- The bitmap after clearing every sector of `xs`. -/
def unmarkAll (m : Bitmap) (xs : List Nat) : Bitmap := xs.foldl unmark m

@[simp] theorem markAll_nil (m : Bitmap) : m.markAll [] = m := rfl
@[simp] theorem markAll_cons (m : Bitmap) (x : Nat) (xs : List Nat) :
    m.markAll (x :: xs) = (m.Mark x).markAll xs := rfl
theorem markAll_append (m : Bitmap) (xs ys : List Nat) :
    m.markAll (xs ++ ys) = (m.markAll xs).markAll ys := List.foldl_append _ _ _ _

@[simp] theorem unmarkAll_nil (m : Bitmap) : m.unmarkAll [] = m := rfl
@[simp] theorem unmarkAll_cons (m : Bitmap) (x : Nat) (xs : List Nat) :
    m.unmarkAll (x :: xs) = (m.unmark x).unmarkAll xs := rfl
theorem unmarkAll_append (m : Bitmap) (xs ys : List Nat) :
    m.unmarkAll (xs ++ ys) = (m.unmarkAll xs).unmarkAll ys := List.foldl_append _ _ _ _

theorem getElem?_markAll (m : Bitmap) (xs : List Nat) (j : Nat) :
    (m.markAll xs).map[j]? = m.map[j]?.map (fun b ↦ b || decide (j ∈ xs)) := by
  induction xs generalizing m with
  | nil => simp
  | cons x xs ih =>
    rw [markAll_cons, ih, getElem?_Mark]
    by_cases hx : x = j
    · subst hx; cases m.map[x]? <;> simp
    · cases m.map[j]? <;> simp [hx, Ne.symm hx]

theorem getElem?_unmarkAll (m : Bitmap) (xs : List Nat) (j : Nat) :
    (m.unmarkAll xs).map[j]? = m.map[j]?.map (fun b ↦ b && !decide (j ∈ xs)) := by
  induction xs generalizing m with
  | nil => simp
  | cons x xs ih =>
    rw [unmarkAll_cons, ih, getElem?_unmark]
    by_cases hx : x = j
    · subst hx; cases m.map[x]? <;> simp
    · cases m.map[j]? <;> simp [hx, Ne.symm hx]

/-- Marking free sectors and then clearing the same sectors gives the map back. -/
theorem unmarkAll_markAll {m : Bitmap} {xs ys : List Nat} (hfree : ∀ x ∈ xs, m.IsFree x)
    (hperm : xs.Perm ys) : (m.markAll xs).unmarkAll ys = m := by
  ext1
  apply List.ext_getElem?
  intro j
  rw [getElem?_unmarkAll, getElem?_markAll, Option.map_map]
  by_cases hj : j ∈ xs
  · simp [show m.map[j]? = some false from hfree j hj, hperm.mem_iff.mp hj]
  · cases m.map[j]? <;> simp [hj, ← hperm.mem_iff]

theorem IsFree.markAll {m : Bitmap} {xs : List Nat} {i : Nat} (h : m.IsFree i) (hi : i ∉ xs) :
    (m.markAll xs).IsFree i := by
  simp_all [IsFree, getElem?_markAll]

theorem IsUsed.markAll {m : Bitmap} {xs : List Nat} {i : Nat} (h : m.IsUsed i) :
    (m.markAll xs).IsUsed i := by
  simp_all [IsUsed, getElem?_markAll]

theorem IsFree.markAll_used {m : Bitmap} {xs : List Nat} {i : Nat} (h : m.IsFree i)
    (hi : i ∈ xs) : (m.markAll xs).IsUsed i := by
  simp_all [IsFree, IsUsed, getElem?_markAll]

theorem IsUsed.unmarkAll {m : Bitmap} {xs : List Nat} {i : Nat} (h : m.IsUsed i) (hi : i ∉ xs) :
    (m.unmarkAll xs).IsUsed i := by
  simp_all [IsUsed, getElem?_unmarkAll]

/-- A sector in use after clearing `xs` was in use before, and is not in `xs`. -/
theorem IsUsed.of_unmarkAll {m : Bitmap} {xs : List Nat} {i : Nat}
    (h : (m.unmarkAll xs).IsUsed i) : m.IsUsed i ∧ i ∉ xs := by
  simp_all [IsUsed, getElem?_unmarkAll]

end Bitmap

end NachosFilehdr
