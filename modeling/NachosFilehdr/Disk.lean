import NachosFilehdr.Machine

/-!
# Sectors, the device, and the `int` codec

The header reaches the disk through whole-sector transfers only. An index block is read straight
into its `int nextSectors[NumSectorInt]` and written straight out of it; the root is unpacked from a
byte buffer with `memcpy` at offsets 0, 4 and 8 and packed back the same way. Both are the same
thing at the byte level: a sector is 32 consecutive four-byte `int`s, little-endian two's
complement. `decodeWords` and `encodeWords` are that reading and writing.

## The two round trips

Loading then saving must give back every byte (`encodeWords_decodeWords`), and saving then loading
must give back every `int` (`decodeWords_encodeWords`). The second holds only for values that fit
in an `int`, which is what `IsInt` records; every value the header writes is one.

## The device

The spec treats the sector device as a service with no failure of its own, so the model is a
total map from sector ids to sector contents. `WriteBack` is modelled by the list of write requests
it issues, and `Disk.apply` plays them in order; `Disk.Holds d ws` says that `d` already carries
every write of `ws`.
-/

namespace NachosFilehdr

/-- Modelled from the spec: the contents of one device sector, `SectorSize` bytes. -/
structure Sector where
  /-- The bytes, in address order. -/
  bytes : List UInt8
  /-- A sector is `SectorSize` bytes. -/
  length_eq : bytes.length = SectorSize.toNat

@[ext] theorem Sector.ext {s t : Sector} (h : s.bytes = t.bytes) : s = t := by
  cases s; cases t; cases h; rfl

/-! ## The `int` codec -/

/-- The value fits in a 32-bit `int`. -/
def IsInt (x : Int) : Prop := -2 ^ 31 ≤ x ∧ x < 2 ^ 31

instance (x : Int) : Decidable (IsInt x) := inferInstanceAs (Decidable (_ ∧ _))

/-- The four bytes `memcpy` copies out of an `int`: little-endian two's complement. -/
def encodeInt (x : Int) : List UInt8 :=
  let u := (x % 2 ^ 32).toNat
  [UInt8.ofNat (u % 2 ^ 8), UInt8.ofNat (u / 2 ^ 8 % 2 ^ 8), UInt8.ofNat (u / 2 ^ 16 % 2 ^ 8),
    UInt8.ofNat (u / 2 ^ 24 % 2 ^ 8)]

/-- The `int` `memcpy` copies into from four bytes. -/
def decodeInt (b0 b1 b2 b3 : UInt8) : Int :=
  let u : Int := b0.toNat + 2 ^ 8 * b1.toNat + 2 ^ 16 * b2.toNat + 2 ^ 24 * b3.toNat
  if u < 2 ^ 31 then u else u - 2 ^ 32

/-- A byte buffer read as consecutive `int`s. -/
def decodeWords : List UInt8 → List Int
  | b0 :: b1 :: b2 :: b3 :: rest => decodeInt b0 b1 b2 b3 :: decodeWords rest
  | _ => []

/-- Consecutive `int`s laid out as bytes. -/
def encodeWords (xs : List Int) : List UInt8 := xs.flatMap encodeInt

@[simp] theorem length_encodeInt (x : Int) : (encodeInt x).length = 4 := rfl

@[simp] theorem encodeWords_nil : encodeWords [] = [] := rfl

@[simp] theorem encodeWords_cons (x : Int) (xs : List Int) :
    encodeWords (x :: xs) = encodeInt x ++ encodeWords xs := List.flatMap_cons _ _ _

@[simp] theorem length_encodeWords (xs : List Int) : (encodeWords xs).length = 4 * xs.length := by
  induction xs with
  | nil => rfl
  | cons x xs ih => simp [ih]; omega

@[simp] theorem decodeWords_four_append (b0 b1 b2 b3 : UInt8) (rest : List UInt8) :
    decodeWords ([b0, b1, b2, b3] ++ rest) = decodeInt b0 b1 b2 b3 :: decodeWords rest := rfl

/-- Fewer than four bytes hold no `int`. -/
theorem decodeWords_of_short {bs : List UInt8}
    (h : ∀ b0 b1 b2 b3 rest, bs = b0 :: b1 :: b2 :: b3 :: rest → False) :
    decodeWords bs = [] ∧ bs.length < 4 := by
  match bs with
  | [] | [_] | [_, _] | [_, _, _] => simp [decodeWords]
  | _ :: _ :: _ :: _ :: _ => exact (h _ _ _ _ _ rfl).elim

theorem length_decodeWords (bs : List UInt8) : (decodeWords bs).length = bs.length / 4 := by
  induction bs using decodeWords.induct with
  | case1 b0 b1 b2 b3 rest ih => simp [decodeWords, ih]; omega
  | case2 bs h =>
    obtain ⟨h1, h2⟩ := decodeWords_of_short h
    rw [h1]
    simp only [List.length_nil]
    omega

theorem decodeInt_isInt (b0 b1 b2 b3 : UInt8) : IsInt (decodeInt b0 b1 b2 b3) := by
  have := b0.toNat_lt_size; have := b1.toNat_lt_size
  have := b2.toNat_lt_size; have := b3.toNat_lt_size
  simp only [decodeInt, IsInt, UInt8.size] at *
  split_ifs <;> omega

theorem isInt_of_mem_decodeWords {bs : List UInt8} {x : Int} (h : x ∈ decodeWords bs) :
    IsInt x := by
  induction bs using decodeWords.induct with
  | case1 b0 b1 b2 b3 rest ih =>
    simp only [decodeWords, List.mem_cons] at h
    rcases h with h | h
    · exact h ▸ decodeInt_isInt _ _ _ _
    · exact ih h
  | case2 bs hbs => simp [(decodeWords_of_short hbs).1] at h

theorem toNat_ofNat_byte (n : Nat) : (UInt8.ofNat (n % 2 ^ 8)).toNat = n % 2 ^ 8 :=
  UInt8.toNat_ofNat_of_lt (Nat.mod_lt _ (by decide))

theorem ofNat_byte_eq {b : UInt8} {n : Nat} (h : n % 2 ^ 8 = b.toNat) :
    UInt8.ofNat (n % 2 ^ 8) = b :=
  UInt8.toNat.inj (by rw [toNat_ofNat_byte, h])

/-- Saving then loading an `int` gives it back. -/
theorem decodeWords_encodeInt_append {x : Int} (hx : IsInt x) (rest : List UInt8) :
    decodeWords (encodeInt x ++ rest) = x :: decodeWords rest := by
  have hu : ((x % 2 ^ 32).toNat : Int) = x % 2 ^ 32 := Int.toNat_of_nonneg (by omega)
  simp only [encodeInt, decodeWords_four_append, decodeInt, toNat_ofNat_byte, IsInt,
    List.cons.injEq, and_true] at *
  split_ifs <;> omega

/-- Loading then saving four bytes gives them back. -/
theorem encodeInt_decodeInt (b0 b1 b2 b3 : UInt8) :
    encodeInt (decodeInt b0 b1 b2 b3) = [b0, b1, b2, b3] := by
  have := b0.toNat_lt_size; have := b1.toNat_lt_size
  have := b2.toNat_lt_size; have := b3.toNat_lt_size
  simp only [UInt8.size] at *
  have hu : ((decodeInt b0 b1 b2 b3 % 2 ^ 32).toNat : Int)
      = b0.toNat + 2 ^ 8 * b1.toNat + 2 ^ 16 * b2.toNat + 2 ^ 24 * b3.toNat := by
    rw [Int.toNat_of_nonneg (by omega), decodeInt]
    split_ifs <;> omega
  simp only [encodeInt, List.cons.injEq, and_true]
  refine ⟨ofNat_byte_eq ?_, ofNat_byte_eq ?_, ofNat_byte_eq ?_, ofNat_byte_eq ?_⟩ <;> omega

theorem encodeWords_append (xs ys : List Int) :
    encodeWords (xs ++ ys) = encodeWords xs ++ encodeWords ys := List.flatMap_append _ _ _

theorem decodeWords_encodeWords_append {xs : List Int} (hxs : ∀ x ∈ xs, IsInt x)
    (rest : List UInt8) : decodeWords (encodeWords xs ++ rest) = xs ++ decodeWords rest := by
  induction xs with
  | nil => rfl
  | cons x xs ih =>
    rw [encodeWords_cons, List.append_assoc,
      decodeWords_encodeInt_append (hxs x (List.mem_cons_self _ _)),
      ih fun y hy ↦ hxs y (List.mem_cons_of_mem _ hy), List.cons_append]

theorem decodeWords_encodeWords {xs : List Int} (hxs : ∀ x ∈ xs, IsInt x) :
    decodeWords (encodeWords xs) = xs := by
  simpa [decodeWords] using decodeWords_encodeWords_append hxs []

/-- Saving then loading gives back every `int` of a prefix that fits, whatever follows it. -/
theorem take_decodeWords_encodeWords {xs : List Int} {k : Nat} (hk : k ≤ xs.length)
    (hxs : ∀ x ∈ xs.take k, IsInt x) : (decodeWords (encodeWords xs)).take k = xs.take k := by
  conv_lhs => rw [← List.take_append_drop k xs]
  rw [encodeWords_append, decodeWords_encodeWords_append hxs,
    List.take_left' (by rw [List.length_take]; omega)]

theorem encodeWords_decodeWords {bs : List UInt8} (h : bs.length % 4 = 0) :
    encodeWords (decodeWords bs) = bs := by
  induction bs using decodeWords.induct with
  | case1 b0 b1 b2 b3 rest ih =>
    have hr : rest.length % 4 = 0 := by simp at h; omega
    simp only [decodeWords, encodeWords_cons, encodeInt_decodeInt, List.cons_append,
      List.nil_append, ih hr]
  | case2 bs hbs =>
    obtain ⟨h1, h2⟩ := decodeWords_of_short hbs
    rw [h1, encodeWords_nil, eq_comm, ← List.length_eq_zero]
    omega

/-! ## Sectors as `int` tables -/

/-- A sector as `ReadSector(sector, (char *)table)` leaves it in an `int table[NumSectorInt]`. -/
def Sector.words (s : Sector) : Table NumSectorInt :=
  ⟨decodeWords s.bytes, by rw [length_decodeWords, s.length_eq]; decide⟩

/-- The sector `WriteSector(sector, (char *)table)` sends for an `int table[NumSectorInt]`. -/
def Sector.ofWords (t : Table NumSectorInt) : Sector :=
  ⟨encodeWords t.entries, by rw [length_encodeWords, t.length_eq]; decide⟩

theorem Sector.words_ofWords {t : Table NumSectorInt} (h : ∀ x ∈ t.entries, IsInt x) :
    (Sector.ofWords t).words = t :=
  Table.ext (decodeWords_encodeWords h)

theorem Sector.ofWords_words (s : Sector) : Sector.ofWords s.words = s :=
  Sector.ext (encodeWords_decodeWords (by rw [s.length_eq]; decide))

theorem Sector.ofWords_injective {t t' : Table NumSectorInt} (h : ∀ x ∈ t.entries, IsInt x)
    (h' : ∀ x ∈ t'.entries, IsInt x) (ht : Sector.ofWords t = Sector.ofWords t') : t = t' := by
  rw [← Sector.words_ofWords h, ht, Sector.words_ofWords h']

theorem Sector.isInt_of_mem_words {s : Sector} {x : Int} (h : x ∈ s.words.entries) : IsInt x :=
  isInt_of_mem_decodeWords h

/-! ## The device -/

/-- Modelled from the spec: the raw sector device, the contents of every sector id. -/
def Disk := Int → Sector

/-- `SynchDisk::ReadSector`. -/
def ReadSector (disk : Disk) (sector : Int) : Sector := disk sector

namespace Disk

/-- The device after one `SynchDisk::WriteSector`. -/
def write (disk : Disk) (sector : Int) (data : Sector) : Disk :=
  fun s ↦ if s = sector then data else disk s

/-- The device after a list of write requests, in issue order. -/
def apply (disk : Disk) (writes : List (Int × Sector)) : Disk :=
  writes.foldl (fun d w ↦ d.write w.1 w.2) disk

/-- `disk` already carries every write of `writes`. -/
def Holds (disk : Disk) (writes : List (Int × Sector)) : Prop := ∀ w ∈ writes, disk w.1 = w.2

@[simp] theorem apply_nil (disk : Disk) : disk.apply [] = disk := rfl

@[simp] theorem apply_cons (disk : Disk) (w : Int × Sector) (ws : List (Int × Sector)) :
    disk.apply (w :: ws) = (disk.write w.1 w.2).apply ws := rfl

/-- A sector no request names keeps its contents. -/
theorem apply_of_not_mem (disk : Disk) {ws : List (Int × Sector)} {s : Int}
    (h : s ∉ ws.map Prod.fst) : disk.apply ws s = disk s := by
  induction ws generalizing disk with
  | nil => rfl
  | cons w ws ih =>
    simp only [List.map_cons, List.mem_cons, not_or] at h
    rw [apply_cons, ih _ h.2, write, if_neg h.1]

/-- With no sector written twice, the device ends up carrying every write. -/
theorem holds_apply (disk : Disk) {ws : List (Int × Sector)} (h : (ws.map Prod.fst).Nodup) :
    (disk.apply ws).Holds ws := by
  induction ws generalizing disk with
  | nil => intro w hw; cases hw
  | cons w ws ih =>
    simp only [List.map_cons, List.nodup_cons] at h
    intro v hv
    rcases List.mem_cons.mp hv with rfl | hv
    · rw [apply_cons, apply_of_not_mem _ h.1, write, if_pos rfl]
    · exact ih _ h.2 v hv

/-- Writes that rewrite what is already there change nothing. -/
theorem apply_eq_self {disk : Disk} {ws : List (Int × Sector)} (h : disk.Holds ws) :
    disk.apply ws = disk := by
  induction ws with
  | nil => rfl
  | cons w ws ih =>
    have hw : disk.write w.1 w.2 = disk := funext fun s ↦ by
      simp only [write]; split_ifs with hs
      · rw [hs, h w (List.mem_cons_self _ _)]
      · rfl
    rw [apply_cons, hw, ih fun v hv ↦ h v (List.mem_cons_of_mem _ hv)]

@[simp] theorem holds_nil (disk : Disk) : disk.Holds [] := fun _ h ↦ nomatch h

@[simp] theorem holds_cons {disk : Disk} {w : Int × Sector} {ws : List (Int × Sector)} :
    disk.Holds (w :: ws) ↔ disk w.1 = w.2 ∧ disk.Holds ws := by
  simp [Holds]

@[simp] theorem holds_flatMap {α : Type} {disk : Disk} {l : List α} {f : α → List (Int × Sector)} :
    disk.Holds (l.flatMap f) ↔ ∀ a ∈ l, disk.Holds (f a) := by
  simp only [Holds, List.mem_flatMap]
  exact ⟨fun h a ha w hw ↦ h w ⟨a, ha, hw⟩, fun h w ⟨a, ha, hw⟩ ↦ h a ha w hw⟩

end Disk

end NachosFilehdr
