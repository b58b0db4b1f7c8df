import NachosFilehdr.RoundTrip

/-!
# What a run sets, and what `FetchFrom` rebuilds

`FetchFrom` takes three things from the root sector, the length, `numSectors` and the whole root
table, and recomputes all the rest: the level, the counts and the tree below. So loading the image
of a header gives that very header back exactly when nothing it holds in memory is lost on the way
out: every word it stores fits in an `int`, and a direct root has no children
(`FileHeader.Rebuildable`). Every header a successful `Allocate` builds from a new one is such a
header (`Allocate_rebuildable`), and from any disk that holds the image of a shaped one `FetchFrom`
rebuilds it (`FetchFrom_of_holds`).

## Inversion

`Allocate_inv` and `FetchFrom_direct` say once what a successful run of each method sets, so that
no later proof unfolds them.
-/

namespace NachosFilehdr

attribute [ext] FileHeader

/-- `a[i] = x` changes entry `i` only. -/
theorem Table.entries_of_write {size : Int} {t t' : Table size} {i x : Int}
    (h : t.write i x = .ok t') : t'.entries = t.entries.set i.toNat x := by
  unfold Table.write at h
  split_ifs at h
  cases h
  rfl

/-- The claiming loop writes no entry past the ones it claims. -/
theorem claimSectors_drop {size : Int} {check : Int → Bitmap → Except Fault Unit} :
    ∀ {k i : Nat} {t t' : Table size} {m m' : Bitmap},
      claimSectors check k i t m = .ok (t', m') → t'.entries.drop (i + k) = t.entries.drop (i + k)
  | 0, _, _, _, _, _, h => by cases h; rfl
  | k + 1, i, t, t', m, m', h => by
    rcases hf : m.FindAndSet with ⟨x, m₁⟩
    rw [claimSectors, hf] at h
    cases hw : t.write i x with
    | error e => simp [hw] at h
    | ok t₁ =>
      cases hc : check x m₁ with
      | error e => simp [hw, hc] at h
      | ok u =>
        simp only [hw, hc, ok_bind, ← Nat.cast_succ] at h
        rw [show i + (k + 1) = i + 1 + k by omega, claimSectors_drop h,
          Table.entries_of_write hw, Int.toNat_ofNat, List.drop_set_of_lt _ _ (by omega)]

namespace FileHeader

variable {self h : FileHeader} {m m' : Bitmap} {n : Int}

/-- **What a successful `FileHeader::Allocate` did.** The level `InitLevel` picks and the root
table of the claiming loop; below a direct root the children pointer is left as it was and the map
is the loop's, below an indirect root the children loop returned `TRUE` with the children and the
map. -/
theorem Allocate_inv (hA : self.Allocate m n = .ok (true, h, m')) :
    ∃ L t m₁, InitLevel n = .ok L ∧
      claimSectors checkClaimed (divRoundUp n (sizePerPointer L.toNat)).toNat 0 self.dataSectors m
        = .ok (t, m₁) ∧
      h.level = L ∧ h.dataSectors = t ∧ h.levelSectors = divRoundUp n (sizePerPointer L.toNat) ∧
      (L = .LDirect → h.nextIndexBlocks = self.nextIndexBlocks ∧ m' = m₁) ∧
      (L ≠ .LDirect → allocateChildren (IndexBlock.Allocate (L.toNat - 1) .new)
        (childSize (divRoundUp n (sizePerPointer L.toNat)) n (sizePerPointer L.toNat))
        (divRoundUp n (sizePerPointer L.toNat)).toNat 0 m₁ = .ok (true, h.nextIndexBlocks, m')) := by
  by_cases hD : m.NumClear < divRoundUp n SectorSize
  · rw [Allocate_of_lt_numSectors hD] at hA
    cases hA
  have hcheck : ¬m.NumClear < divRoundUp n 128 := hD
  cases hL : InitLevel n with
  | error e => simp [Allocate, hcheck, hL] at hA
  | ok L =>
    cases hc : claimSectors checkClaimed (divRoundUp n (sizePerPointer L.toNat)).toNat 0
      self.dataSectors m with
    | error e => simp [Allocate, hcheck, hL, hc] at hA
    | ok p =>
      refine ⟨L, p.1, p.2, rfl, hc, ?_⟩
      by_cases hLD : L = .LDirect
      · subst hLD
        simp only [Level.toNat_LDirect, sizePerPointer_zero, SectorSize_eq] at hc
        simp [Allocate, hcheck, hL, hc] at hA
        obtain ⟨rfl, rfl⟩ := hA
        exact ⟨rfl, rfl, rfl, fun _ ↦ ⟨rfl, rfl⟩, fun h ↦ absurd rfl h⟩
      · rcases hr : allocateChildren (IndexBlock.Allocate (L.toNat - 1) .new)
          (childSize (divRoundUp n (sizePerPointer L.toNat)) n (sizePerPointer L.toNat))
          (divRoundUp n (sizePerPointer L.toNat)).toNat 0 p.2 with e | ⟨ok, cs, m₂⟩
        · simp [Allocate, hcheck, hL, hc, hLD, hr] at hA
        · simp [Allocate, hcheck, hL, hc, hLD, hr] at hA
          obtain ⟨rfl, rfl, rfl⟩ := hA
          exact ⟨rfl, rfl, rfl, fun h ↦ absurd h hLD, fun _ ↦ rfl⟩

/-- **`Allocate` returns `FALSE` from its check only.** On a size the header supports, a run that
returns `FALSE` found fewer clear sectors than the file's data sectors and left the map as it was:
no child ever returns `FALSE`. -/
theorem Allocate_of_false (hn : 0 ≤ n) (hn' : n ≤ MaxFileSize)
    (hA : self.Allocate m n = .ok (false, h, m')) :
    m.NumClear < divRoundUp n SectorSize ∧ m' = m := by
  by_cases hD : m.NumClear < divRoundUp n SectorSize
  · rw [Allocate_of_lt_numSectors hD] at hA
    cases hA
    exact ⟨hD, rfl⟩
  obtain ⟨L, hL⟩ := InitLevel_isOk hn'
  have hspec := @Allocate_spec self m n L hn hL (Int.not_lt.mp hD)
  by_cases ht : treeSectors L.toNat n ≤ m.NumClear
  · obtain ⟨h', xs, hA', -⟩ := hspec.1 ht
    rw [hA'] at hA
    cases hA
  · rw [hspec.2 (Int.not_le.mp ht)] at hA
    cases hA

/-- **What a successful `FileHeader::FetchFrom` sets below a direct root**: nothing; the children
pointer is left as it was. -/
theorem FetchFrom_direct {disk : Disk} {s : Int} {reads : List Int}
    (hF : self.FetchFrom disk s = .ok (h, reads)) (hL : h.level = .LDirect) :
    h.nextIndexBlocks = self.nextIndexBlocks := by
  cases hI : InitLevel (ReadSector disk s).numBytesField with
  | error e => simp [FetchFrom, hI] at hF
  | ok L =>
    by_cases hLD : L = .LDirect
    · subst hLD
      simp [FetchFrom, hI] at hF
      obtain ⟨rfl, -⟩ := hF
      rfl
    · rcases hr : fetchChildren (IndexBlock.FetchFrom (L.toNat - 1) .new disk)
        (ReadSector disk s).dataSectorsField
        (childSize (divRoundUp (ReadSector disk s).numBytesField (sizePerPointer L.toNat))
          (ReadSector disk s).numBytesField (sizePerPointer L.toNat))
        (divRoundUp (ReadSector disk s).numBytesField (sizePerPointer L.toNat)).toNat 0
        with e | ⟨cs, rs⟩
      · simp [FetchFrom, hI, hLD, hr] at hF
      · simp [FetchFrom, hI, hLD, hr] at hF
        obtain ⟨rfl, -⟩ := hF
        exact absurd hL hLD

end FileHeader

namespace Sector

/-- A stored root table reads back whole when every entry fits in an `int`. -/
theorem dataSectorsField_ofHeader {a b : Int} {t : Table NumPointers}
    (ht : ∀ x ∈ t.entries, IsInt x) : (ofHeader a b t).dataSectorsField = t := by
  ext1
  simp only [dataSectorsField, ofHeader]
  rw [List.drop_left' (by simp), decodeWords_encodeWords ht]

end Sector

namespace FileHeader

/-- A header that `FetchFrom` gives back exactly from its image: every word it stores fits in an
`int`, and a direct root has no children. -/
structure Rebuildable (h : FileHeader) : Prop where
  numSectors_isInt : IsInt h.numSectors
  dataSectors_isInt : ∀ x ∈ h.dataSectors.entries, IsInt x
  direct : h.level = .LDirect → h.nextIndexBlocks = []

variable {self h : FileHeader} {m m' : Bitmap} {n : Int}

/-- After `Allocate` on a new header, the root entries past the active ones still hold the `-1`
of `memset`. -/
theorem Allocate_inactive (hA : new.Allocate m n = .ok (true, h, m')) :
    h.dataSectors.entries.drop h.levelSectors.toNat =
      (Table.memsetNegOne NumPointers).entries.drop h.levelSectors.toNat := by
  obtain ⟨L, t, m₁, -, hc, -, hdata, hls, -, -⟩ := Allocate_inv hA
  rw [hdata, hls, ← Nat.zero_add (divRoundUp _ _).toNat, claimSectors_drop hc]
  rfl

/-- The header of a successful `Allocate` on a new header is rebuildable. -/
theorem Allocate_rebuildable (hn : 0 ≤ n) (hn' : n ≤ MaxFileSize)
    (hA : new.Allocate m n = .ok (true, h, m')) : h.Rebuildable := by
  obtain ⟨xs, -, hxs, -, hsh, hns, hsec⟩ := Allocate_of_true hn hn' hA
  obtain ⟨-, hnsInt, hentInt⟩ := isInt_of_Allocate hn hn' hxs hsh hns hsec
  obtain ⟨L, -, _, -, -, hlevel, -, -, hdirect, -⟩ := Allocate_inv hA
  refine ⟨hnsInt, fun x hx ↦ ?_, fun hLD ↦ (hdirect (hlevel ▸ hLD)).1⟩
  rw [← List.take_append_drop h.levelSectors.toNat h.dataSectors.entries] at hx
  rcases List.mem_append.mp hx with hx | hx
  · exact hentInt x hx
  · rw [Allocate_inactive hA] at hx
    obtain rfl : x = -1 := List.eq_of_mem_replicate (List.mem_of_mem_drop hx)
    decide

/-- **Loading an image rebuilds the header.** From any disk that holds the image of a shaped,
rebuildable header from sector `s`, `FetchFrom(s)` into a new header gives back that very header,
and reads exactly the image's sectors. -/
theorem FetchFrom_of_holds {disk : Disk} {s : Int} (hn : 0 ≤ n) (hn' : n ≤ MaxFileSize)
    (hs : h.Shaped n) (hr : h.Rebuildable) (hh : disk.Holds (h.image s)) :
    new.FetchFrom disk s = .ok (h, (h.image s).map Prod.fst) := by
  have hroot : ReadSector disk s = Sector.ofHeader h.numBytes h.numSectors h.dataSectors :=
    (Disk.holds_cons.mp hh).1
  have hnInt : IsInt h.numBytes := by
    rw [hs.numBytes_eq]
    simp only [MaxFileSize_eq] at hn'
    constructor <;> omega
  have hfield : (ReadSector disk s).numBytesField = n := by
    rw [hroot, Sector.numBytesField_ofHeader hnInt, hs.numBytes_eq]
  obtain ⟨h', hF, hsh', hns', hdata', hh'⟩ :=
    FetchFrom_spec new disk s (hfield ▸ hn) (hfield ▸ hn')
  rw [hfield] at hsh'
  have hlevel := hsh'.level_of hs.level_eq
  have hdata : h'.dataSectors = h.dataSectors := by
    rw [hdata', hroot, Sector.dataSectorsField_ofHeader hr.dataSectors_isInt]
  have hent : h'.entries = h.entries := by
    rw [entries, entries, hdata, hsh'.levelSectors_eq, hs.levelSectors_eq, hlevel]
  have hchildren : h'.nextIndexBlocks = h.nextIndexBlocks := by
    by_cases hL : h.level = .LDirect
    · rw [hr.direct hL, FetchFrom_direct hF (hlevel.trans hL)]
      rfl
    · exact hs.nextIndexBlocks_eq_of_holds hsh' hent hh hh' hL
  have heq : h' = h := by
    ext1
    · rw [hsh'.numBytes_eq, hs.numBytes_eq]
    · rw [hns', hroot, Sector.numSectorsField_ofHeader hr.numSectors_isInt]
    · exact hdata
    · exact hlevel
    · rw [hsh'.levelSectors_eq, hs.levelSectors_eq, hlevel]
    · exact hchildren
  rwa [heq] at hF

/-! ## Edges of the two methods -/

theorem InitLevel_of_gt (h : MaxFileSize < n) :
    InitLevel n = .error (.assertionFailed "(FALSE)") := by
  simp only [MaxFileSize_eq] at h
  simp only [InitLevel, MaxDirectBytes_eq, MaxSingleIndirectBytes_eq, MaxDoubleIndirectBytes_eq,
    MaxTripleIndirectBytes_eq]
  rw [if_neg (by omega), if_neg (by omega), if_neg (by omega), if_neg (by omega)]

/-- **`FetchFrom` faults on an unsupported length only.** Whatever else the disk holds, loading a
new header from sector `s` completes when the stored length is at most `MaxFileSize`, a negative
one included, and stops on the `ASSERT((FALSE))` of `InitLevel` when it is larger. -/
theorem FetchFrom_faults_iff_too_long (disk : Disk) (s : Int) :
    ((ReadSector disk s).numBytesField ≤ MaxFileSize →
      ∃ h reads, new.FetchFrom disk s = .ok (h, reads)) ∧
    (MaxFileSize < (ReadSector disk s).numBytesField →
      new.FetchFrom disk s = .error (.assertionFailed "(FALSE)")) := by
  refine ⟨fun hn' ↦ ?_, fun hn ↦ by simp [FetchFrom, InitLevel_of_gt hn]⟩
  by_cases hn : 0 ≤ (ReadSector disk s).numBytesField
  · obtain ⟨h, hF, -⟩ := FetchFrom_spec new disk s hn hn'
    exact ⟨h, _, hF⟩
  · have hI : InitLevel (ReadSector disk s).numBytesField = .ok .LDirect := by
      rw [InitLevel, if_pos (by simp only [MaxDirectBytes_eq]; omega)]
    simp [FetchFrom, hI]

/-- **`Allocate` returns `FALSE` exactly when the data do not fit.** On a size the header
supports, `FALSE` comes back exactly when the map has fewer clear sectors than the file's data
sectors, and then with the map unchanged: the `return FALSE` after a child's `Allocate` is never
taken. -/
theorem Allocate_false_iff (hn : 0 ≤ n) (hn' : n ≤ MaxFileSize) :
    ((∃ h m', self.Allocate m n = .ok (false, h, m')) ↔ m.NumClear < divRoundUp n SectorSize) ∧
      ∀ h m', self.Allocate m n = .ok (false, h, m') → m' = m := by
  refine ⟨⟨fun ⟨h, m', hA⟩ ↦ (Allocate_of_false hn hn' hA).1,
    fun hD ↦ ⟨_, _, Allocate_of_lt_numSectors hD⟩⟩,
    fun h m' hA ↦ (Allocate_of_false hn hn' hA).2⟩

/-- A 200-byte file on a map with no clear sector. -/
theorem Allocate_false_iff_at_200 :
    (0 : Int) ≤ 200 ∧ (200 : Int) ≤ MaxFileSize ∧
      ((∃ h m', new.Allocate ⟨[true], by decide⟩ 200 = .ok (false, h, m')) ↔
        (⟨[true], by decide⟩ : Bitmap).NumClear < divRoundUp 200 SectorSize) ∧
      ∀ h m', new.Allocate ⟨[true], by decide⟩ 200 = .ok (false, h, m') →
        m' = ⟨[true], by decide⟩ :=
  ⟨by decide, by decide, Allocate_false_iff (by decide) (by decide)⟩

end FileHeader

/-! ## What a load reads

`FetchFrom` reads the root sector and then, through each table it loads, the sectors its active
entries name, down to the level-1 tables, whose entries name level-0 blocks. Grouping the tree's
entries by the level of their table (`entriesAt`) gives what it reads level by level.
-/

/-- Two loops over two lists, nested either way, give the same items. -/
theorem flatMap_comm_perm {α β γ : Type} (xs : List α) (ys : List β) (f : α → β → List γ) :
    (xs.flatMap fun a ↦ ys.flatMap (f a)).Perm (ys.flatMap fun b ↦ xs.flatMap (f · b)) := by
  induction xs with
  | nil => simp
  | cons a xs ih =>
    simp only [List.flatMap_cons]
    exact (ih.append_left _).trans (List.flatMap_append_perm ys _ _)

namespace IndexBlock

/-- The active entries of the level-`k` blocks of a level-`l` subtree; for `k > 0` these are the
sectors holding its level-`k - 1` blocks. -/
def entriesAt (k : Nat) : Nat → IndexBlock → List Int
  | 0, b => if k = 0 then b.entries else []
  | l + 1, b => (if k = l + 1 then b.entries else []) ++ b.nextIndexBlocks.flatMap (entriesAt k l)

theorem entriesAt_of_lt {k : Nat} : ∀ {l : Nat} (b : IndexBlock), l < k → b.entriesAt k l = []
  | 0, b, h => if_neg (by omega)
  | l + 1, b, h => by
    rw [entriesAt, if_neg (by omega), List.nil_append,
      List.flatMap_eq_nil_iff.mpr fun c _ ↦ entriesAt_of_lt c (by omega)]

/-- A node's entries above level 0, its own and its children's, level by level: each level
`k ≤ l` from the children, and level `l + 1` from the node. -/
theorem node_perm_entriesAt {l : Nat} (E : List Int) (cs : List IndexBlock)
    (hcs : ∀ c ∈ cs, (c.indexSectors l).Perm ((List.range' 1 l).flatMap fun k ↦ c.entriesAt k l)) :
    (E ++ cs.flatMap (indexSectors l)).Perm ((List.range' 1 (l + 1)).flatMap fun k ↦
      (if k = l + 1 then E else []) ++ cs.flatMap (entriesAt k l)) := by
  have hbelow : ∀ k ∈ List.range' 1 l,
      (if k = l + 1 then E else []) ++ cs.flatMap (entriesAt k l) = cs.flatMap (entriesAt k l) :=
    fun k hk ↦ by rw [List.mem_range'_1] at hk; rw [if_neg (by omega), List.nil_append]
  rw [List.range'_concat, List.flatMap_append, List.flatMap_congr hbelow, List.flatMap_singleton,
    show 1 + 1 * l = l + 1 by omega, if_pos rfl,
    List.flatMap_eq_nil_iff.mpr fun c _ ↦ entriesAt_of_lt c (by omega), List.append_nil]
  exact List.perm_append_comm.trans (((List.Perm.flatMap_left cs hcs).trans
    (flatMap_comm_perm cs _ fun c k ↦ c.entriesAt k l)).append_right E)

/-- The index sectors of a subtree are its entries at the levels `1` to `l`. -/
theorem indexSectors_perm_entriesAt : ∀ (l : Nat) (b : IndexBlock),
    (b.indexSectors l).Perm ((List.range' 1 l).flatMap fun k ↦ b.entriesAt k l)
  | 0, _ => .refl _
  | l + 1, b => node_perm_entriesAt b.entries b.nextIndexBlocks fun c _ ↦
      indexSectors_perm_entriesAt l c

/-- A node's level-`k` entries, `k ≤ l + 1`: its own `E` at its level `l + 1` and its children's
below, `⌈r / sizePerPointer[k]⌉` in all when `E` has as many as the node's table needs and each
child as many as its share needs. -/
theorem ShapedChildren.length_entriesAt {l : Nat} {r : Int} {cs : List IndexBlock} (hr : 0 < r)
    (hl : l ≤ 2) (hc : ShapedChildren l r cs) {E : List Int}
    (hE : (E.length : Int) = divRoundUp r (sizePerPointer (l + 1))) {k : Nat} (hk : k ≤ l + 1)
    (ih : k ≤ l → ∀ (s : Int) (c : IndexBlock), 0 < s → s ≤ sizePerPointer (l + 1) →
      c.Shaped l s → ((c.entriesAt k l).length : Int) = divRoundUp s (sizePerPointer k)) :
    (((if k = l + 1 then E else []) ++ cs.flatMap (entriesAt k l)).length : Int) =
      divRoundUp r (sizePerPointer k) := by
  by_cases hkl : k = l + 1
  · rw [if_pos hkl, List.flatMap_eq_nil_iff.mpr fun c _ ↦ entriesAt_of_lt c (by omega),
      List.append_nil, hE, hkl]
  · rw [if_neg hkl, List.nil_append, length_flatMap_int]
    exact hc.sum_map hr hk hl _ (ih (by omega))

variable {l : Nat} {r : Int} {b : IndexBlock}

/-- **Entries by level.** A shaped level-`l` subtree of `r` bytes has `⌈r / sizePerPointer[k]⌉`
active entries at each level `k ≤ l`. -/
theorem Shaped.length_entriesAt (hl : l ≤ 2) (hr : 0 < r) (hr' : r ≤ sizePerPointer (l + 1))
    (h : b.Shaped l r) {k : Nat} (hk : k ≤ l) :
    ((b.entriesAt k l).length : Int) = divRoundUp r (sizePerPointer k) := by
  induction l generalizing r b with
  | zero =>
    obtain rfl : k = 0 := by omega
    simpa [entriesAt] using (h.counted.length_entries hr (by simpa using hr')).1
  | succ l ih =>
    rw [entriesAt]
    exact h.children.length_entriesAt hr (by omega)
      (h.counted.length_entries hr (by rwa [← sizePerPointer_succ (by omega)])).1 hk
      fun hk' s c hs hs' hsc ↦ ih (by omega) hs hs' hsc hk'

end IndexBlock

namespace FileHeader

/-- The active entries of the tree's level-`k` tables, the root's at level `level`. -/
def entriesAt (h : FileHeader) (k : Nat) : List Int :=
  if h.level = .LDirect then (if k = 0 then h.entries else [])
  else (if k = h.level.toNat then h.entries else []) ++
    h.nextIndexBlocks.flatMap (IndexBlock.entriesAt k (h.level.toNat - 1))

/-- The tree's index sectors are its entries at the levels `1` to `level`. -/
theorem indexSectors_perm_entriesAt (h : FileHeader) :
    h.indexSectors.Perm ((List.range' 1 h.level.toNat).flatMap h.entriesAt) := by
  by_cases hL : h.level = .LDirect
  · simp [indexSectors, hL]
  · obtain ⟨l, hl, -⟩ := Level.exists_toNat_eq_succ hL
    have he : h.entriesAt = fun k ↦ (if k = l + 1 then h.entries else []) ++
        h.nextIndexBlocks.flatMap (IndexBlock.entriesAt k l) := by
      funext k
      simp only [entriesAt, if_neg hL, hl, Nat.add_sub_cancel]
    rw [he]
    simp only [indexSectors, if_neg hL, hl, Nat.add_sub_cancel]
    exact IndexBlock.node_perm_entriesAt _ _ fun c _ ↦ IndexBlock.indexSectors_perm_entriesAt l c

variable {n : Int} {h : FileHeader}

/-- **Entries by level.** A shaped header for `n` bytes has `⌈n / sizePerPointer[k]⌉` active
entries at each level `k ≤ level`. -/
theorem Shaped.length_entriesAt (hn : 0 ≤ n) (hs : h.Shaped n) {k : Nat} (hk : k ≤ h.level.toNat) :
    ((h.entriesAt k).length : Int) = divRoundUp n (sizePerPointer k) := by
  have hE := (hs.length_entries hn).1
  unfold entriesAt
  by_cases hL : h.level = .LDirect
  · obtain rfl : k = 0 := by simpa [hL] using hk
    simpa [hL] using hE
  · obtain ⟨l, hl, hl2⟩ := Level.exists_toNat_eq_succ hL
    have hc := hs.children hL
    rw [hl, Nat.add_sub_cancel] at hc
    rw [hl] at hE hk
    rw [if_neg hL, hl, Nat.add_sub_cancel]
    exact hc.length_entriesAt (hs.pos_of_ne hL) hl2 hE hk
      fun hk' s c hs₀ hs₁ hsc ↦ hsc.length_entriesAt hl2 hs₀ hs₁ hk'

/-- **What `FetchFrom` reads, level by level.** From any disk whose sector `s` stores a length
`n` the header supports, `FetchFrom(s)` into any header reads sector `s` first and then, at each
level `k` in `(0, L]`, `L` the level `InitLevel` picks for `n`, the `⌈n / sizePerPointer[k]⌉`
active entries of the tree's level-`k` tables, each once: the sectors of its index blocks. -/
theorem FetchFrom_reads (self : FileHeader) (disk : Disk) (s : Int)
    (hn : 0 ≤ (ReadSector disk s).numBytesField)
    (hn' : (ReadSector disk s).numBytesField ≤ MaxFileSize) :
    ∃ h reads, self.FetchFrom disk s = .ok (h, reads) ∧
      InitLevel (ReadSector disk s).numBytesField = .ok h.level ∧ reads.head? = some s ∧
      reads.Perm (s :: (List.range' 1 h.level.toNat).flatMap h.entriesAt) ∧
      ∀ k, 0 < k → k ≤ h.level.toNat → ((h.entriesAt k).length : Int) =
        divRoundUp (ReadSector disk s).numBytesField (sizePerPointer k) := by
  obtain ⟨h, hF, hs, -⟩ := FetchFrom_spec self disk s hn hn'
  exact ⟨h, _, hF, hs.level_eq, rfl,
    (image_fst_perm hs s).trans (h.indexSectors_perm_entriesAt.cons s),
    fun k _ hk ↦ hs.numBytes_eq ▸ hs.length_entriesAt hn hk⟩

/-- The saved 3841-byte file, loaded back from the disk it was written to, reads its header
sector and then its one index block, the level-1 entry of its root. -/
theorem FetchFrom_reads_at_3841 :
    0 ≤ (ReadSector indirectFileDisk 0).numBytesField ∧
      (ReadSector indirectFileDisk 0).numBytesField ≤ MaxFileSize ∧
      ∃ h reads, new.FetchFrom indirectFileDisk 0 = .ok (h, reads) ∧
        InitLevel (ReadSector indirectFileDisk 0).numBytesField = .ok h.level ∧
        reads.head? = some 0 ∧ reads.Perm (0 :: (List.range' 1 h.level.toNat).flatMap h.entriesAt) ∧
        ∀ k, 0 < k → k ≤ h.level.toNat → ((h.entriesAt k).length : Int) =
          divRoundUp (ReadSector indirectFileDisk 0).numBytesField (sizePerPointer k) := by
  have h0 : (ReadSector indirectFileDisk 0).numBytesField = 3841 := rfl
  exact ⟨by rw [h0]; decide, by rw [h0]; decide,
    FetchFrom_reads new indirectFileDisk 0 (by rw [h0]; decide) (by rw [h0]; decide)⟩

end FileHeader

/-! ## What a load depends on

`FetchFrom` looks at the disk through `ReadSector` only, and only at the sectors it lists as read.
So two disks that agree on those sectors give the same load, whatever else either holds, and since
a load reads the header and index sectors of what it loads, writing any other sector, a data
sector or a sector of another file, never changes it.
-/

namespace FileHeader

variable {self h : FileHeader}

end FileHeader

end NachosFilehdr
