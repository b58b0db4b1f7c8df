import Mathlib.Tactic.IntervalCases

/-!
# The machine the file header runs on

`filehdr.h` sizes everything from two numbers it does not define: the device sector size
`SectorSize` (from `disk.h`) and the machine word `sizeof(int)`. The spec's worked scenario fixes
them at 128 and 4 bytes, so a sector holds `NumSectorInt = 32` pointers and the root sector, after
its two length words, `NumPointers = 30`.

## C arithmetic

Every runtime quantity of the source is an `int`, and the model keeps them as `Int`. Division and
remainder are C's, truncating towards zero (`Int.tdiv`, `Int.tmod`). On the nonnegative values the
header computes with they agree with Lean's `/` and `%`; the lemmas at the end of this file say so
once, so that no later proof has to mention truncation.

## Faults

A run of the source can stop in three ways besides returning: a Nachos `ASSERT` fails, an index
leaves a fixed-size array (undefined behaviour in C, a fault of its own here), or a call goes
through a `NULL` child pointer. `Fault` names them, an `ASSERT` by its condition's source text.
-/

namespace NachosFilehdr

/-! ## Constants -/

/-- Modelled from the spec: `SectorSize`, declared in `disk.h` (absent here). The spec's concrete
scenario fixes the device sector at 128 bytes. -/
def SectorSize : Int := 128

/-- Modelled from the spec: `sizeof(int)`, the 4-byte machine word of the spec's scenario. -/
def sizeofInt : Int := 4

def NumSectorInt : Int := SectorSize / sizeofInt

def NumPointers : Int := (SectorSize - 2 * sizeofInt) / sizeofInt

def MaxDirectBytes : Int := NumPointers * SectorSize

def MaxSingleIndirectBytes : Int := NumPointers * NumSectorInt * SectorSize

def MaxDoubleIndirectBytes : Int := NumPointers * NumSectorInt * NumSectorInt * SectorSize

def MaxTripleIndirectBytes : Int :=
  NumPointers * NumSectorInt * NumSectorInt * NumSectorInt * SectorSize

def MaxFileSize : Int := MaxTripleIndirectBytes

/-- `sizePerPointer[level]`: the bytes one pointer of a level-`level` table addresses. The source
table has four entries; the last clause is entry 3, and no index past it is ever used. -/
def sizePerPointer : Nat → Int
  | 0 => SectorSize
  | 1 => NumSectorInt * SectorSize
  | 2 => NumSectorInt * NumSectorInt * SectorSize
  | _ => NumSectorInt * NumSectorInt * NumSectorInt * SectorSize

@[simp] theorem SectorSize_eq : SectorSize = 128 := rfl
@[simp] theorem NumSectorInt_eq : NumSectorInt = 32 := by decide
@[simp] theorem NumPointers_eq : NumPointers = 30 := by decide
@[simp] theorem MaxDirectBytes_eq : MaxDirectBytes = 3840 := by decide
@[simp] theorem MaxSingleIndirectBytes_eq : MaxSingleIndirectBytes = 122880 := by decide
@[simp] theorem MaxDoubleIndirectBytes_eq : MaxDoubleIndirectBytes = 3932160 := by decide
@[simp] theorem MaxTripleIndirectBytes_eq : MaxTripleIndirectBytes = 125829120 := by decide
@[simp] theorem MaxFileSize_eq : MaxFileSize = 125829120 := by decide

@[simp] theorem sizePerPointer_zero : sizePerPointer 0 = 128 := rfl
@[simp] theorem sizePerPointer_one : sizePerPointer 1 = 4096 := by decide
@[simp] theorem sizePerPointer_two : sizePerPointer 2 = 131072 := by decide
@[simp] theorem sizePerPointer_three : sizePerPointer 3 = 4194304 := by decide

/-- One level up multiplies a pointer's reach by the fan-out, below the top entry. -/
theorem sizePerPointer_succ {l : Nat} (h : l < 3) :
    sizePerPointer (l + 1) = NumSectorInt * sizePerPointer l := by
  interval_cases l <;> decide

/-- Every reach is a whole number of sectors. -/
theorem sizePerPointer_eq_mul (l : Nat) : ∃ q, 0 < q ∧ sizePerPointer l = SectorSize * q := by
  match l with
  | 0 => exact ⟨1, by decide, by decide⟩
  | 1 => exact ⟨32, by decide, by decide⟩
  | 2 => exact ⟨1024, by decide, by decide⟩
  | _ + 3 => exact ⟨32768, by decide, rfl⟩

theorem SectorSize_le_sizePerPointer (l : Nat) : SectorSize ≤ sizePerPointer l := by
  obtain ⟨q, hq, h⟩ := sizePerPointer_eq_mul l
  rw [h, SectorSize_eq]
  omega

theorem sizePerPointer_pos (l : Nat) : 0 < sizePerPointer l :=
  Int.lt_of_lt_of_le (by decide) (SectorSize_le_sizePerPointer l)

/-! ## Faults -/

/-- How a run of the file-header code can stop short of returning. -/
inductive Fault where
  /-- A Nachos `ASSERT` whose condition was false; the argument is the condition's source text. -/
  | assertionFailed (condition : String)
  /-- An index outside a fixed-size C array: undefined behaviour in the source. -/
  | outOfBounds
  /-- A method called through a `NULL` entry of `nextIndexBlocks`. -/
  | nullDereference
  deriving DecidableEq, Repr

/-- A step that returned hands its value on; one that stopped stops the run. -/
@[simp] theorem ok_bind {α β : Type} (a : α) (f : α → Except Fault β) :
    (Except.ok a >>= f) = f a := rfl

@[simp] theorem error_bind {α β : Type} (e : Fault) (f : α → Except Fault β) :
    (Except.error e >>= f) = .error e := rfl

@[simp] theorem pure_eq_ok {α : Type} (a : α) : (pure a : Except Fault α) = .ok a := rfl

/-- A run through a bind returned exactly when both of its steps did. -/
theorem bind_eq_ok {α β : Type} {x : Except Fault α} {f : α → Except Fault β} {b : β} :
    (x >>= f) = .ok b ↔ ∃ a, x = .ok a ∧ f a = .ok b := by
  cases x <;> simp

/-- Nachos `ASSERT(condition)`. -/
def ASSERT (condition : Prop) [Decidable condition] (text : String) : Except Fault Unit :=
  if condition then .ok () else .error (.assertionFailed text)

@[simp] theorem ASSERT_of_true {c : Prop} [Decidable c] (h : c) (text : String) :
    ASSERT c text = .ok () := if_pos h

@[simp] theorem ASSERT_of_false {c : Prop} [Decidable c] (h : ¬c) (text : String) :
    ASSERT c text = .error (.assertionFailed text) := if_neg h

theorem ASSERT_eq_ok {c : Prop} [Decidable c] {text : String} {u : Unit} :
    ASSERT c text = .ok u ↔ c := by
  by_cases h : c <;> simp [h]

/-! ## Fixed-size arrays -/

/-- A C array `int a[size]`: exactly `size` entries. -/
structure Table (size : Int) where
  /-- The entries, in index order. -/
  entries : List Int
  /-- The array has its declared length. -/
  length_eq : entries.length = size.toNat

namespace Table

variable {size : Int}

@[ext] theorem ext {s t : Table size} (h : s.entries = t.entries) : s = t := by
  cases s; cases t; cases h; rfl

/-- `memset(a, -1, sizeof(a))`: every byte `0xff`, so every entry reads `-1`. -/
def memsetNegOne (size : Int) : Table size := ⟨List.replicate size.toNat (-1), by simp⟩

/-- `a[i]` as an rvalue. -/
def read (t : Table size) (i : Int) : Except Fault Int :=
  if 0 ≤ i then
    match t.entries[i.toNat]? with
    | some x => .ok x
    | none => .error .outOfBounds
  else .error .outOfBounds

/-- `a[i] = x`. -/
def write (t : Table size) (i : Int) (x : Int) : Except Fault (Table size) :=
  if 0 ≤ i ∧ i < size then .ok ⟨t.entries.set i.toNat x, by simp [t.length_eq]⟩
  else .error .outOfBounds

theorem read_of_lt (t : Table size) {i : Nat} (h : i < t.entries.length) :
    t.read i = .ok t.entries[i] := by
  simp [read, List.getElem?_eq_getElem h]

theorem read_eq_ok {t : Table size} {i : Nat} {x : Int} :
    t.read i = .ok x ↔ t.entries[i]? = some x := by
  simp only [read, Int.toNat_ofNat, Int.ofNat_nonneg, if_true]
  split <;> simp [*]

theorem write_of_lt (t : Table size) {i : Nat} (h : i < t.entries.length) (x : Int) :
    t.write i x = .ok ⟨t.entries.set i x, by simp [t.length_eq]⟩ := by
  have := t.length_eq
  simp only [write, Int.toNat_ofNat]
  rw [if_pos (by omega)]

/-- A write that returned was in range and changed that entry only. -/
theorem write_eq_ok {t t' : Table size} {i : Nat} {x : Int} (h : t.write i x = .ok t') :
    i < t.entries.length ∧ t'.entries = t.entries.set i x := by
  have := t.length_eq
  unfold write at h
  split_ifs at h with hi
  cases h
  exact ⟨by omega, by simp⟩

end Table

/-! ## C division on nonnegative operands -/

/-- Modelled from the spec: `divRoundUp` (Nachos `utility.h`, absent here), the ceiling of `n / s`
that the spec asks for, written as the macro computes it with C's truncating division:
`(n / s) + ((n % s > 0) ? 1 : 0)`. -/
def divRoundUp (n s : Int) : Int := n.tdiv s + if n.tmod s > 0 then 1 else 0

theorem divRoundUp_eq {n s : Int} (hn : 0 ≤ n) (hs : 0 < s) :
    divRoundUp n s = n / s + if n % s > 0 then 1 else 0 := by
  rw [divRoundUp, Int.tdiv_eq_ediv hn hs.le, Int.tmod_eq_emod hn hs.le]

/-- `divRoundUp` is the ceiling: `k * s` is the least multiple of `s` at or above `n`. -/
theorem divRoundUp_spec {n s : Int} (hn : 0 ≤ n) (hs : 0 < s) :
    0 ≤ divRoundUp n s ∧ n ≤ divRoundUp n s * s ∧ divRoundUp n s * s < n + s := by
  have h1 := Int.ediv_add_emod' n s
  have h2 := Int.emod_nonneg n hs.ne'
  have h3 := Int.emod_lt_of_pos n hs
  have h4 := Int.ediv_nonneg hn hs.le
  rw [divRoundUp_eq hn hs]
  split_ifs with h
  · rw [Int.add_mul, Int.one_mul]; omega
  · rw [Int.add_zero]; omega

theorem divRoundUp_pos {n s : Int} (hn : 0 < n) (hs : 0 < s) : 0 < divRoundUp n s := by
  have := divRoundUp_spec hn.le hs
  rcases Int.lt_or_le 0 (divRoundUp n s) with h | h
  · exact h
  · have : divRoundUp n s * s ≤ 0 := Int.mul_nonpos_of_nonpos_of_nonneg h hs.le
    omega

/-- The ceiling is monotone in the bound it is checked against: `n ≤ c * s` gives at most `c`. -/
theorem divRoundUp_le {n s c : Int} (hn : 0 ≤ n) (hs : 0 < s) (h : n ≤ c * s) :
    divRoundUp n s ≤ c := by
  have := divRoundUp_spec hn hs
  by_contra hc
  have : (c + 1) * s ≤ divRoundUp n s * s := Int.mul_le_mul_of_nonneg_right (by omega) hs.le
  rw [Int.add_mul, Int.one_mul] at this
  omega

end NachosFilehdr
