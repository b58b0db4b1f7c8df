import NachosFilehdr.Deallocate
import NachosFilehdr.Persist

/-!
# Saving and loading a header

The persistence layer meets the allocator here. A header that `Allocate` has built is saved to a
sector the caller already owns, so that sector, the index sectors and the data sectors are all
distinct (`saved_sectors_nodup`). From that:

* `WriteBack` writes the header's own sector and each index sector exactly once, and never a data
  sector (`WriteBack_writes_index_sectors`);
* loading the saved header back gives the same file: the same lengths, level, active entries and
  children, hence the same `ByteToSector` (`FetchFrom_after_WriteBack`);
* saving, loading and deallocating gives the free map back as it was before the allocation
  (`Deallocate_after_reload`);
* in the other direction, loading any header the source supports and saving it again rewrites
  every sector it read with the bytes already there (`WriteBack_after_FetchFrom`), and every byte
  of a loaded file translates without fault (`ByteToSector_of_FetchFrom`).
-/

namespace NachosFilehdr

namespace FileHeader

/-! ## Where an allocated header is saved -/

section Saved

variable {m : Bitmap} {xs : List Nat} {h : FileHeader} {s : Nat} (hxs : m.Fresh xs)
  (hsec : h.sectors = xs.map (↑)) (hs : m.IsUsed s)
include hxs hsec hs

theorem ne_of_mem_sectors {x : Int} (hx : x ∈ h.leafSectors ++ h.indexSectors) : x ≠ s := by
  rintro rfl
  obtain ⟨y, hy, hys⟩ := List.mem_map.mp ((hsec ▸ sectors_perm h).symm.subset hx)
  have hfree := hxs.2 y hy
  rw [Nat.cast_inj.mp hys, Bitmap.IsFree, hs] at hfree
  cases hfree

omit hs in
theorem nodup_leaf_index : (h.leafSectors ++ h.indexSectors).Nodup :=
  ((hsec ▸ sectors_perm h).nodup_iff.mp (hxs.1.map Nat.cast_injective))

/-- The header's own sector and its index sectors are distinct. -/
theorem saved_sectors_nodup : ((s : Int) :: h.indexSectors).Nodup :=
  List.nodup_cons.mpr ⟨fun hx ↦ ne_of_mem_sectors hxs hsec hs (List.mem_append_right _ hx) rfl,
    (nodup_leaf_index hxs hsec).of_append_right⟩

/-- No data sector is one the header is saved to. -/
theorem not_mem_saved_of_leaf {x : Int} (hx : x ∈ h.leafSectors) :
    x ∉ (s : Int) :: h.indexSectors := by
  rw [List.mem_cons, not_or]
  exact ⟨ne_of_mem_sectors hxs hsec hs (List.mem_append_left _ hx),
    List.disjoint_of_nodup_append (nodup_leaf_index hxs hsec) hx⟩

end Saved

/-! ## Saving -/

/-- **What `WriteBack` writes.** The header of a successful `Allocate`, saved to a sector that was
already set before the call, writes that sector and each of the tree's index sectors exactly once,
and nothing else. It never writes a sector `ByteToSector` returns, so the file's data on disk stays
as it was. -/
theorem WriteBack_writes_index_sectors {self h : FileHeader} {m m' : Bitmap} {n : Int} {s : Nat}
    (hn : 0 ≤ n) (hn' : n ≤ MaxFileSize) (hA : self.Allocate m n = .ok (true, h, m'))
    (hs : m.IsUsed s) :
    ∃ ws, h.WriteBack s = .ok ws ∧ (ws.map Prod.fst).Perm ((s : Int) :: h.indexSectors) ∧
      ((s : Int) :: h.indexSectors).Nodup ∧
      (∀ o x, 0 ≤ o → o < n → h.ByteToSector o = .ok x → x ∉ ws.map Prod.fst) ∧
      ∀ disk : Disk, ∀ x ∈ h.leafSectors, disk.apply ws x = disk x := by
  obtain ⟨xs, rfl, hxs, -, hsh, -, hsec⟩ := Allocate_of_true hn hn' hA
  have hperm := image_fst_perm hsh s
  have hleaf : ∀ x ∈ h.leafSectors, x ∉ (h.image s).map Prod.fst := fun x hx hw ↦
    not_mem_saved_of_leaf hxs hsec hs hx (hperm.subset hw)
  refine ⟨h.image s, WriteBack_eq hsh s, hperm, saved_sectors_nodup hxs hsec hs,
    fun o x ho hon hx ↦ ?_, fun disk x hx ↦ disk.apply_of_not_mem (hleaf x hx)⟩
  obtain ⟨y, hy, hby⟩ := hsh.ByteToSector ho hon
  obtain rfl : y = x := Except.ok.inj (hby.symm.trans hx)
  exact hleaf y (List.getElem?_mem hy)

/-- A disk of zero bytes throughout: every sector stores the empty file. -/
def blankDisk : Disk := fun _ ↦ ⟨List.replicate 128 0, rfl⟩

/-- The blank disk with the 3841-byte file saved to sector 0: its root there, its index block in
sector 1. -/
def indirectFileDisk : Disk := blankDisk.apply (singleIndirectFile.image (0 : Nat))

/-- The header `Allocate` builds for a 200-byte file on a map whose sector 0 is taken. -/
def savedFile : FileHeader :=
  ⟨200, 2, ⟨1 :: 2 :: List.replicate 28 (-1), by decide⟩, .LDirect, 2, []⟩

/-- Saving the 3841-byte file to sector 0 writes its root and its one index block, sector 1. -/
theorem WriteBack_writes_index_sectors_at_3841 :
    (0 : Int) ≤ 3841 ∧ (3841 : Int) ≤ MaxFileSize ∧
      new.Allocate headerOnlyMap 3841 = .ok (true, singleIndirectFile, fullMap) ∧
      headerOnlyMap.IsUsed 0 ∧
      ∃ ws, singleIndirectFile.WriteBack (0 : Nat) = .ok ws ∧
        (ws.map Prod.fst).Perm (((0 : Nat) : Int) :: singleIndirectFile.indexSectors) ∧
        (((0 : Nat) : Int) :: singleIndirectFile.indexSectors).Nodup ∧
        (∀ o x, 0 ≤ o → o < 3841 → singleIndirectFile.ByteToSector o = .ok x →
          x ∉ ws.map Prod.fst) ∧
        ∀ disk : Disk, ∀ x ∈ singleIndirectFile.leafSectors, disk.apply ws x = disk x :=
  ⟨by decide, by decide, Allocate_headerOnlyMap, rfl,
    WriteBack_writes_index_sectors (by decide) (by decide) Allocate_headerOnlyMap rfl⟩

/-- Every value an allocated header stores in its root sector, other than its inactive entries,
fits in an `int`. -/
theorem isInt_of_Allocate {m : Bitmap} {xs : List Nat} {h : FileHeader} {n : Int} (hn : 0 ≤ n)
    (hn' : n ≤ MaxFileSize) (hxs : m.Fresh xs) (hsh : h.Shaped n)
    (hns : h.numSectors = divRoundUp n SectorSize) (hsec : h.sectors = xs.map (↑)) :
    IsInt h.numBytes ∧ IsInt h.numSectors ∧ ∀ x ∈ h.entries, IsInt x := by
  have hd := divRoundUp_le (c := n) hn (by decide : (0 : Int) < SectorSize) (by simp; omega)
  have hd' := (divRoundUp_spec hn (by decide : (0 : Int) < SectorSize)).1
  simp only [MaxFileSize_eq] at hn'
  refine ⟨by rw [hsh.numBytes_eq]; constructor <;> omega, by rw [hns]; constructor <;> omega,
    fun x hx ↦ ?_⟩
  have hmem : x ∈ h.sectors := by unfold sectors; split_ifs <;> simp [hx]
  rw [hsec] at hmem
  obtain ⟨y, hy, rfl⟩ := List.mem_map.mp hmem
  exact hxs.isInt y hy

/-! ## Loading what was saved -/

/-- The tree's sectors are read off its level, its active entries and its children. -/
theorem sectors_congr {h h' : FileHeader} (hlevel : h'.level = h.level)
    (hent : h'.entries = h.entries)
    (hc : h.level ≠ .LDirect → h'.nextIndexBlocks = h.nextIndexBlocks) :
    h'.sectors = h.sectors ∧ h'.leafSectors = h.leafSectors := by
  unfold sectors leafSectors
  rw [hlevel]
  split_ifs with hL
  · exact ⟨hent, hent⟩
  · rw [hent, hc hL]
    exact ⟨rfl, rfl⟩

/-- What loading back an allocated header, saved on any disk to a sector set before the
allocation, gives: a header shaped for the same length, with the same `numSectors`, level and
active entries and, below a root that is not `LDirect`, the very same children. -/
theorem reload_of_Allocate {m : Bitmap} {xs : List Nat} {h : FileHeader} {n : Int} {s : Nat}
    (hn : 0 ≤ n) (hn' : n ≤ MaxFileSize) (hxs : m.Fresh xs) (hsh : h.Shaped n)
    (hns : h.numSectors = divRoundUp n SectorSize) (hsec : h.sectors = xs.map (↑))
    (hs : m.IsUsed s) (disk : Disk) :
    ∃ h', new.FetchFrom (disk.apply (h.image s)) s = .ok (h', (h'.image s).map Prod.fst) ∧
      h'.Shaped n ∧ h'.numSectors = h.numSectors ∧ h'.level = h.level ∧ h'.entries = h.entries ∧
      (h.level ≠ .LDirect → h'.nextIndexBlocks = h.nextIndexBlocks) := by
  obtain ⟨hbInt, hnsInt, hentInt⟩ := isInt_of_Allocate hn hn' hxs hsh hns hsec
  have hh := disk.holds_apply
    ((image_fst_perm hsh s).nodup_iff.mpr (saved_sectors_nodup hxs hsec hs))
  have hroot : ReadSector (disk.apply (h.image s)) s =
      Sector.ofHeader h.numBytes h.numSectors h.dataSectors := (Disk.holds_cons.mp hh).1
  have hfield : (ReadSector (disk.apply (h.image s)) s).numBytesField = n := by
    rw [hroot, Sector.numBytesField_ofHeader hbInt, hsh.numBytes_eq]
  obtain ⟨h', hF, hsh', hns', hdata', hh'⟩ :=
    FetchFrom_spec new (disk.apply (h.image s)) s (hfield ▸ hn) (hfield ▸ hn')
  rw [hfield] at hsh'
  have hlevel : h'.level = h.level := hsh'.level_of hsh.level_eq
  have hent : h'.entries = h.entries := by
    rw [entries, entries, hsh'.levelSectors_eq, hsh.levelSectors_eq, hlevel, ← hsh.levelSectors_eq,
      hdata', hroot, Sector.take_dataSectorsField_ofHeader (hsh.levelSectors_le hn) hentInt]
  exact ⟨h', hF, hsh', by rw [hns', hroot, Sector.numSectorsField_ofHeader hnsInt], hlevel, hent,
    hsh.nextIndexBlocks_eq_of_holds hsh' hent hh hh'⟩

/-- **Saving then loading gives the same file.** The header of a successful `Allocate`, saved on
any disk to a sector that was already set before the call, loads back into a new header with the
same length, `numSectors`, level, count and active entries and, below a root that is not
`LDirect`, the very same children; so `ByteToSector` agrees at every offset of the file. -/
theorem FetchFrom_after_WriteBack {self h : FileHeader} {m m' : Bitmap} {n : Int} {s : Nat}
    (hn : 0 ≤ n) (hn' : n ≤ MaxFileSize) (hA : self.Allocate m n = .ok (true, h, m'))
    (hs : m.IsUsed s) (disk : Disk) :
    ∃ ws, h.WriteBack s = .ok ws ∧ ∃ h' reads, new.FetchFrom (disk.apply ws) s = .ok (h', reads) ∧
      h'.FileLength = h.FileLength ∧ h'.numSectors = h.numSectors ∧ h'.level = h.level ∧
      h'.levelSectors = h.levelSectors ∧ h'.entries = h.entries ∧
      (h.level ≠ .LDirect → h'.nextIndexBlocks = h.nextIndexBlocks) ∧
      ∀ o, 0 ≤ o → o < n → h'.ByteToSector o = h.ByteToSector o := by
  obtain ⟨xs, rfl, hxs, -, hsh, hns, hsec⟩ := Allocate_of_true hn hn' hA
  obtain ⟨h', hF, hsh', hns', hlevel, hent, hchildren⟩ :=
    reload_of_Allocate hn hn' hxs hsh hns hsec hs disk
  refine ⟨h.image s, WriteBack_eq hsh s, h', _, hF, hsh'.numBytes_eq.trans hsh.numBytes_eq.symm,
    hns', hlevel, by rw [hsh'.levelSectors_eq, hsh.levelSectors_eq, hlevel], hent, hchildren,
    fun o ho hon ↦ hsh.ByteToSector_congr hsh' (sectors_congr hlevel hent hchildren).2 ho hon⟩

/-- The 3841-byte file, saved to sector 0 of a blank disk and loaded back: the loaded root names
the same index block. -/
theorem FetchFrom_after_WriteBack_at_3841 :
    (0 : Int) ≤ 3841 ∧ (3841 : Int) ≤ MaxFileSize ∧
      new.Allocate headerOnlyMap 3841 = .ok (true, singleIndirectFile, fullMap) ∧
      headerOnlyMap.IsUsed 0 ∧
      ∃ ws, singleIndirectFile.WriteBack (0 : Nat) = .ok ws ∧ ∃ h' reads,
        new.FetchFrom (blankDisk.apply ws) (0 : Nat) = .ok (h', reads) ∧
        h'.FileLength = singleIndirectFile.FileLength ∧
        h'.numSectors = singleIndirectFile.numSectors ∧
        h'.level = singleIndirectFile.level ∧
        h'.levelSectors = singleIndirectFile.levelSectors ∧
        h'.entries = singleIndirectFile.entries ∧
        (singleIndirectFile.level ≠ .LDirect →
          h'.nextIndexBlocks = singleIndirectFile.nextIndexBlocks) ∧
        ∀ o, 0 ≤ o → o < 3841 → h'.ByteToSector o = singleIndirectFile.ByteToSector o :=
  ⟨by decide, by decide, Allocate_headerOnlyMap, rfl,
    FetchFrom_after_WriteBack (s := 0) (by decide) (by decide) Allocate_headerOnlyMap rfl
      blankDisk⟩

/-! ## A file's life -/

/-- **Creating then removing a file.** Allocate a file of `n` bytes, save its header to a sector
already set, load the header back from the disk and deallocate what was loaded: every `ASSERT`
holds, and the map is again the one before the allocation. -/
theorem Deallocate_after_reload {self h : FileHeader} {m m' : Bitmap} {n : Int} {s : Nat}
    (hn : 0 ≤ n) (hn' : n ≤ MaxFileSize) (hA : self.Allocate m n = .ok (true, h, m'))
    (hs : m.IsUsed s) (disk : Disk) :
    ∃ ws h' reads, h.WriteBack s = .ok ws ∧ new.FetchFrom (disk.apply ws) s = .ok (h', reads) ∧
      h'.Deallocate m' = .ok m := by
  obtain ⟨xs, rfl, hxs, -, hsh, hns, hsec⟩ := Allocate_of_true hn hn' hA
  obtain ⟨h', hF, hsh', -, hlevel, hent, hchildren⟩ :=
    reload_of_Allocate hn hn' hxs hsh hns hsec hs disk
  refine ⟨h.image s, h', _, WriteBack_eq hsh s, hF, ?_⟩
  rw [Deallocate_spec hn hsh' ((sectors_congr hlevel hent hchildren).1.trans hsec) hxs.1
    fun x hx ↦ (hxs.2 x hx).markAll_used hx, Bitmap.unmarkAll_markAll hxs.2 (List.Perm.refl xs)]

/-- The 3841-byte file's life on a blank disk: its index block and data sectors are free again. -/
theorem Deallocate_after_reload_at_3841 :
    (0 : Int) ≤ 3841 ∧ (3841 : Int) ≤ MaxFileSize ∧
      new.Allocate headerOnlyMap 3841 = .ok (true, singleIndirectFile, fullMap) ∧
      headerOnlyMap.IsUsed 0 ∧
      ∃ ws h' reads, singleIndirectFile.WriteBack (0 : Nat) = .ok ws ∧
        new.FetchFrom (blankDisk.apply ws) (0 : Nat) = .ok (h', reads) ∧
        h'.Deallocate fullMap = .ok headerOnlyMap :=
  ⟨by decide, by decide, Allocate_headerOnlyMap, rfl,
    Deallocate_after_reload (s := 0) (by decide) (by decide) Allocate_headerOnlyMap rfl
      blankDisk⟩

/-! ## Loading any disk -/

/-- **Translating a loaded file.** Whatever the disk holds, the header loaded from a sector that
stores a length the header supports translates every byte of the file, past every check on the
way down, to the `o / SectorSize`-th level-0 entry of the loaded tree. -/
theorem ByteToSector_of_FetchFrom (disk : Disk) (s : Int)
    (hn : 0 ≤ (ReadSector disk s).numBytesField)
    (hn' : (ReadSector disk s).numBytesField ≤ MaxFileSize) :
    ∃ h reads, new.FetchFrom disk s = .ok (h, reads) ∧
      h.FileLength = (ReadSector disk s).numBytesField ∧ ∀ o, 0 ≤ o → o < h.FileLength →
        ∃ x, h.leafSectors[(o / SectorSize).toNat]? = some x ∧ h.ByteToSector o = .ok x := by
  obtain ⟨h, hF, hsh, -⟩ := FetchFrom_spec new disk s hn hn'
  refine ⟨h, _, hF, hsh.numBytes_eq, fun o ho hon ↦ hsh.ByteToSector ho ?_⟩
  rwa [FileLength, hsh.numBytes_eq] at hon

/-- The saved 3841-byte file, loaded back from the disk it was written to, through its index
block. -/
theorem ByteToSector_of_FetchFrom_at_3841 :
    0 ≤ (ReadSector indirectFileDisk 0).numBytesField ∧
      (ReadSector indirectFileDisk 0).numBytesField ≤ MaxFileSize ∧
      ∃ h reads, new.FetchFrom indirectFileDisk 0 = .ok (h, reads) ∧
        h.FileLength = (ReadSector indirectFileDisk 0).numBytesField ∧
        ∀ o, 0 ≤ o → o < h.FileLength →
          ∃ x, h.leafSectors[(o / SectorSize).toNat]? = some x ∧ h.ByteToSector o = .ok x := by
  have h0 : (ReadSector indirectFileDisk 0).numBytesField = 3841 := rfl
  exact ⟨by rw [h0]; decide, by rw [h0]; decide,
    ByteToSector_of_FetchFrom _ 0 (by rw [h0]; decide) (by rw [h0]; decide)⟩

/-- **Loading then saving changes no byte.** From any disk whose sector `s` stores a length the
header supports, `FetchFrom(s)` into a new header completes, and `WriteBack(s)` of what it loaded
writes exactly the sectors it read, in the same order, each with the bytes it already holds: the
root's two words and its whole table, unused entries included, and each index sector's whole
table. The disk is left as it was. -/
theorem WriteBack_after_FetchFrom (disk : Disk) (s : Int)
    (hn : 0 ≤ (ReadSector disk s).numBytesField)
    (hn' : (ReadSector disk s).numBytesField ≤ MaxFileSize) :
    ∃ h reads ws, new.FetchFrom disk s = .ok (h, reads) ∧ h.WriteBack s = .ok ws ∧
      ws.map Prod.fst = reads ∧ disk.Holds ws ∧ disk.apply ws = disk := by
  obtain ⟨h, hF, hsh, -, -, hh⟩ := FetchFrom_spec new disk s hn hn'
  exact ⟨h, _, h.image s, hF, WriteBack_eq hsh s, rfl, hh, Disk.apply_eq_self hh⟩

/-- Loading the 3841-byte file from that disk and saving it again rewrites its root and its
index block, each with the bytes it holds. -/
theorem WriteBack_after_FetchFrom_at_3841 :
    0 ≤ (ReadSector indirectFileDisk 0).numBytesField ∧
      (ReadSector indirectFileDisk 0).numBytesField ≤ MaxFileSize ∧
      ∃ h reads ws, new.FetchFrom indirectFileDisk 0 = .ok (h, reads) ∧ h.WriteBack 0 = .ok ws ∧
        ws.map Prod.fst = reads ∧ indirectFileDisk.Holds ws ∧
        indirectFileDisk.apply ws = indirectFileDisk := by
  have h0 : (ReadSector indirectFileDisk 0).numBytesField = 3841 := rfl
  exact ⟨by rw [h0]; decide, by rw [h0]; decide,
    WriteBack_after_FetchFrom indirectFileDisk 0 (by rw [h0]; decide) (by rw [h0]; decide)⟩

end FileHeader

end NachosFilehdr
