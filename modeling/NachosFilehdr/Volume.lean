import NachosFilehdr.Reload

/-!
# Many files on one volume

The header's callers keep one free map and one disk for all their files. A file is created by
`Allocate` on a new header followed by `WriteBack` to a sector the caller has already set aside
for it; its data are written to the sectors `ByteToSector` names, and other sectors may be written
too; it is removed by `Deallocate`. This file takes every sequence of such calls, in any order and
on any number of files, and proves what a whole run keeps (`Volume.Invariant`): the sectors the
live files own, header sectors included, are distinct and set in the map, and the disk holds each
live file's image. So no two files ever share a sector (`Volume.owned_nodup`), every live file
loads back from its header sector exactly as it is in memory (`Volume.FetchFrom_live`), and
removing a live file never fails an `ASSERT` and clears exactly its own sectors
(`Volume.Deallocate_live`).

## Representation

`Volume.Step` has one constructor per call, and the caller's side of each contract is a hypothesis
of its constructor: a new file's header sector is set in the map and owned by no live file, its
size is one the header supports, and a write from outside the header misses every header and index
sector of a live file. An `Allocate` that returns `FALSE` leaves the volume as it was, and a call
that faults ends the run, so neither needs a state of its own.
-/

namespace NachosFilehdr

namespace Disk

/-- A write to a sector that `ws` does not name keeps `ws` held. -/
theorem Holds.write {disk : Disk} {ws : List (Int × Sector)} {x : Int} (data : Sector)
    (h : disk.Holds ws) (hx : x ∉ ws.map Prod.fst) : (disk.write x data).Holds ws := fun w hw ↦ by
  rw [Disk.write, if_neg fun hwx : w.1 = x ↦ hx (hwx ▸ List.mem_map_of_mem Prod.fst hw)]
  exact h w hw

/-- Writes to sectors that `ws` does not name keep `ws` held. -/
theorem Holds.apply {disk : Disk} {ws ws' : List (Int × Sector)} (h : disk.Holds ws)
    (hx : ∀ x ∈ ws.map Prod.fst, x ∉ ws'.map Prod.fst) : (disk.apply ws').Holds ws := fun w hw ↦ by
  rw [apply_of_not_mem _ (hx _ (List.mem_map_of_mem _ hw))]
  exact h w hw

end Disk

namespace FileHeader

/-- The index sectors are active entries of the tree. -/
theorem indexSectors_subset (h : FileHeader) : h.indexSectors ⊆ h.sectors := fun _ hx ↦
  (sectors_perm h).symm.subset (List.mem_append_right _ hx)

end FileHeader

/-- Sectors that are each a set bit of the map are the bits of a list of them. -/
theorem exists_used_list {m : Bitmap} : ∀ {l : List Int},
    (∀ x ∈ l, ∃ y : Nat, (y : Int) = x ∧ m.IsUsed y) →
      ∃ ys : List Nat, l = ys.map (↑) ∧ ∀ y ∈ ys, m.IsUsed y
  | [], _ => ⟨[], rfl, by simp⟩
  | x :: l, h => by
    obtain ⟨y, rfl, hy⟩ := h x (List.mem_cons_self x l)
    obtain ⟨ys, rfl, hys⟩ := exists_used_list fun z hz ↦ h z (List.mem_cons_of_mem _ hz)
    exact ⟨y :: ys, rfl, List.forall_mem_cons.mpr ⟨hy, hys⟩⟩

/-- What the header's callers share: the free map, the disk, and each live file's header sector
with its header in memory. -/
structure Volume where
  freeMap : Bitmap
  disk : Disk
  files : List (Nat × FileHeader)

namespace Volume

/-- The sectors a live file owns: its header sector, then every active entry of its tree. -/
def owns (f : Nat × FileHeader) : List Int := (f.1 : Int) :: f.2.sectors

/-- The sectors the live files own. -/
def owned (v : Volume) : List Int := v.files.flatMap owns

/-- The sectors holding the live files' headers and index blocks. -/
def metadata (v : Volume) : List Int := v.files.flatMap fun f ↦ (f.1 : Int) :: f.2.indexSectors

/-- One call of the header's callers (see the module docstring). -/
inductive Step : Volume → Volume → Prop where
  /-- `Allocate(freeMap, n)` on a new header returns `TRUE`, and the header is written back to
  sector `s`. -/
  | create {v : Volume} {s : Nat} {n : Int} {h : FileHeader} {m : Bitmap}
      {ws : List (Int × Sector)} :
      v.freeMap.IsUsed s → (s : Int) ∉ v.owned → 0 ≤ n → n ≤ MaxFileSize →
      FileHeader.new.Allocate v.freeMap n = .ok (true, h, m) → h.WriteBack s = .ok ws →
      Step v ⟨m, v.disk.apply ws, (s, h) :: v.files⟩
  /-- `Allocate(freeMap, n)` on a new header returns `FALSE`; the header is dropped. -/
  | full {v : Volume} {n : Int} {h : FileHeader} {m : Bitmap} :
      0 ≤ n → n ≤ MaxFileSize → FileHeader.new.Allocate v.freeMap n = .ok (false, h, m) →
      Step v { v with freeMap := m }
  /-- One `WriteSector` from outside the header, such as a write of file data. -/
  | write {v : Volume} {x : Int} {data : Sector} :
      x ∉ v.metadata → Step v { v with disk := v.disk.write x data }
  /-- `Deallocate(freeMap)` of a live file, which is then forgotten. -/
  | remove {v : Volume} {pre post : List (Nat × FileHeader)} {s : Nat} {h : FileHeader}
      {m : Bitmap} :
      v.files = pre ++ (s, h) :: post → h.Deallocate v.freeMap = .ok m →
      Step v ⟨m, v.disk, pre ++ post⟩

/-- The volumes a run reaches from one with no file, whatever the map and the disk. -/
inductive Reachable : Volume → Prop where
  | init (m : Bitmap) (disk : Disk) : Reachable ⟨m, disk, []⟩
  | step {v v' : Volume} : Reachable v → Step v v' → Reachable v'

/-- A live file as the disk keeps it: shaped for a length the header supports, rebuildable, and
its image held from its header sector. -/
structure Saved (disk : Disk) (f : Nat × FileHeader) : Prop where
  nonneg : 0 ≤ f.2.numBytes
  le_max : f.2.numBytes ≤ MaxFileSize
  shaped : f.2.Shaped f.2.numBytes
  rebuildable : f.2.Rebuildable
  holds : disk.Holds (f.2.image f.1)

/-- **What every run keeps.** -/
structure Invariant (v : Volume) : Prop where
  /-- No sector belongs to two live files, or twice to one. -/
  nodup : v.owned.Nodup
  /-- Every sector a live file owns is set in the map. -/
  used : ∀ x ∈ v.owned, ∃ y : Nat, (y : Int) = x ∧ v.freeMap.IsUsed y
  /-- The disk holds every live file. -/
  saved : ∀ f ∈ v.files, Saved v.disk f

/-- A stored header writes only its header sector and index sectors. -/
theorem image_subset_metadata {n : Int} {h : FileHeader} (hs : h.Shaped n) (s : Nat) :
    ∀ x ∈ (h.image s).map Prod.fst, x ∈ (s : Int) :: h.indexSectors :=
  fun _ hx ↦ (FileHeader.image_fst_perm hs s).subset hx

theorem image_subset_owns {n : Int} {h : FileHeader} (hs : h.Shaped n) (s : Nat) :
    ∀ x ∈ (h.image s).map Prod.fst, x ∈ owns (s, h) := fun x hx ↦ by
  rcases List.mem_cons.mp (image_subset_metadata hs s x hx) with rfl | hx
  exacts [List.mem_cons_self _ _, List.mem_cons_of_mem _ (h.indexSectors_subset hx)]

/-- Taking a live file out of the list of files. -/
theorem owned_perm {v : Volume} {pre post : List (Nat × FileHeader)} {f : Nat × FileHeader}
    (hfiles : v.files = pre ++ f :: post) :
    v.owned.Perm (owns f ++ (pre ++ post).flatMap owns) := by
  rw [owned, hfiles]
  exact List.perm_middle.flatMap_right owns

/-! ## One call -/

section Steps

variable {v : Volume} (hv : v.Invariant)
include hv

/-- A new file owns no sector a live file owns: its header sector by the caller's contract, its
tree because `Allocate` took clear sectors and every owned sector is set. -/
theorem Invariant.owns_fresh {s : Nat} {h : FileHeader} {xs : List Nat}
    (hso : (s : Int) ∉ v.owned) (hxs : v.freeMap.Fresh xs) (hsec : h.sectors = xs.map (↑)) :
    ∀ x ∈ owns (s, h), x ∉ v.owned := by
  rintro x hx hxo
  rcases List.mem_cons.mp hx with rfl | hx
  · exact hso hxo
  · rw [hsec] at hx
    obtain ⟨y, hy, rfl⟩ := List.mem_map.mp hx
    obtain ⟨y', hy', hu⟩ := hv.used _ hxo
    exact (hxs.2 y hy).not_used (Nat.cast_inj.mp hy' ▸ hu)

theorem Invariant.create {s : Nat} {n : Int} {h : FileHeader} {m : Bitmap}
    {ws : List (Int × Sector)} (hs : v.freeMap.IsUsed s) (hso : (s : Int) ∉ v.owned)
    (hn : 0 ≤ n) (hn' : n ≤ MaxFileSize)
    (hA : FileHeader.new.Allocate v.freeMap n = .ok (true, h, m))
    (hW : h.WriteBack s = .ok ws) : Invariant ⟨m, v.disk.apply ws, (s, h) :: v.files⟩ := by
  obtain ⟨xs, rfl, hxs, -, hsh, hns, hsec⟩ := FileHeader.Allocate_of_true hn hn' hA
  obtain rfl : ws = h.image s := Except.ok.inj (hW.symm.trans (FileHeader.WriteBack_eq hsh s))
  have hfresh := hv.owns_fresh hso hxs hsec
  have hnd : (owns (s, h)).Nodup := List.nodup_cons.mpr
    ⟨fun hx ↦ FileHeader.ne_of_mem_sectors hxs hsec hs ((FileHeader.sectors_perm h).subset hx) rfl,
      hsec ▸ hxs.1.map Nat.cast_injective⟩
  refine ⟨List.nodup_append.mpr ⟨hnd, hv.nodup, fun x hx hxo ↦ hfresh x hx hxo⟩,
    fun x hx ↦ ?_, fun f hf ↦ ?_⟩
  · rcases List.mem_append.mp hx with hx | hx
    · rcases List.mem_cons.mp hx with rfl | hx
      · exact ⟨s, rfl, hs.markAll⟩
      · rw [hsec] at hx
        obtain ⟨y, hy, rfl⟩ := List.mem_map.mp hx
        exact ⟨y, rfl, (hxs.2 y hy).markAll_used hy⟩
    · obtain ⟨y, rfl, hy⟩ := hv.used x hx
      exact ⟨y, rfl, hy.markAll⟩
  · rcases List.mem_cons.mp hf with rfl | hf
    · exact ⟨hsh.numBytes_eq ▸ hn, hsh.numBytes_eq ▸ hn', hsh.numBytes_eq ▸ hsh,
        FileHeader.Allocate_rebuildable hn hn' hA, v.disk.holds_apply
          ((FileHeader.image_fst_perm hsh s).nodup_iff.mpr
            (FileHeader.saved_sectors_nodup hxs hsec hs))⟩
    · have hf' := hv.saved f hf
      refine { hf' with holds := hf'.holds.apply fun x hx hx' ↦ ?_ }
      exact hfresh x (image_subset_owns hsh s x hx')
        (List.mem_flatMap.mpr ⟨f, hf, image_subset_owns hf'.shaped f.1 x hx⟩)

theorem Invariant.full {n : Int} {h : FileHeader} {m : Bitmap} (hn : 0 ≤ n)
    (hn' : n ≤ MaxFileSize) (hA : FileHeader.new.Allocate v.freeMap n = .ok (false, h, m)) :
    Invariant { v with freeMap := m } := by
  obtain ⟨-, rfl⟩ := FileHeader.Allocate_of_false hn hn' hA
  exact hv

theorem Invariant.write {x : Int} {data : Sector} (hx : x ∉ v.metadata) :
    Invariant { v with disk := v.disk.write x data } :=
  { hv with
    saved := fun f hf ↦ have hf' := hv.saved f hf
      { hf' with
        holds := hf'.holds.write data fun hx' ↦
          hx (List.mem_flatMap.mpr ⟨f, hf, image_subset_metadata hf'.shaped f.1 x hx'⟩) } }

/-- A live file's tree entries are distinct set bits, and `Deallocate` clears exactly them. -/
theorem Invariant.Deallocate_eq {s : Nat} {h : FileHeader} (hf : (s, h) ∈ v.files) :
    ∃ ys : List Nat, h.sectors = ys.map (↑) ∧
      h.Deallocate v.freeMap = .ok (v.freeMap.unmarkAll ys) := by
  obtain ⟨pre, post, hfiles⟩ := List.append_of_mem hf
  have hperm := owned_perm hfiles
  have hnd := (List.nodup_cons.mp (List.nodup_append.mp (hperm.nodup_iff.mp hv.nodup)).1).2
  have hsaved := hv.saved (s, h) hf
  obtain ⟨ys, hys, hu⟩ := exists_used_list fun x hx ↦
    hv.used x (hperm.symm.subset (List.mem_append_left _ (List.mem_cons_of_mem _ hx)))
  rw [show (s, h).2.sectors = _ from hys] at hnd
  exact ⟨ys, hys, FileHeader.Deallocate_spec hsaved.nonneg hsaved.shaped hys (hnd.of_map _) hu⟩

theorem Invariant.remove {pre post : List (Nat × FileHeader)} {s : Nat} {h : FileHeader}
    {m : Bitmap} (hfiles : v.files = pre ++ (s, h) :: post)
    (hD : h.Deallocate v.freeMap = .ok m) : Invariant ⟨m, v.disk, pre ++ post⟩ := by
  have hf : (s, h) ∈ v.files := by simp [hfiles]
  obtain ⟨ys, hys, hD'⟩ := hv.Deallocate_eq hf
  rw [hD'] at hD
  cases hD
  have hperm := owned_perm hfiles
  obtain ⟨-, hnd, hdisj⟩ := List.nodup_append.mp (hperm.nodup_iff.mp hv.nodup)
  refine ⟨hnd, fun x hx ↦ ?_, fun f hf ↦ hv.saved f ?_⟩
  · obtain ⟨y, rfl, hy⟩ := hv.used x (hperm.symm.subset (List.mem_append_right _ hx))
    exact ⟨y, rfl, hy.unmarkAll fun hy' ↦
      hdisj (List.mem_cons_of_mem _ (hys ▸ List.mem_map_of_mem _ hy')) hx⟩
  · rw [hfiles]
    exact List.mem_append.mpr ((List.mem_append.mp hf).imp id (List.mem_cons_of_mem _))

end Steps

theorem Invariant.step {v v' : Volume} (hv : v.Invariant) : Step v v' → v'.Invariant
  | .create hs hso hn hn' hA hW => hv.create hs hso hn hn' hA hW
  | .full hn hn' hA => hv.full hn hn' hA
  | .write hx => hv.write hx
  | .remove hfiles hD => hv.remove hfiles hD

/-- **Every reachable volume has the invariant.** -/
theorem Reachable.invariant {v : Volume} (hv : v.Reachable) : v.Invariant := by
  induction hv with
  | init m disk => exact ⟨List.nodup_nil, by simp [owned], by simp⟩
  | step _ hs ih => exact ih.step hs

/-! ## What every run keeps -/

/-- **No two files share a sector.** On every reachable volume the sectors the live files own,
their header sectors and every active entry of their trees, are distinct, and each is set in the
free map. -/
theorem owned_nodup {v : Volume} (hv : v.Reachable) :
    v.owned.Nodup ∧ ∀ x ∈ v.owned, ∃ y : Nat, (y : Int) = x ∧ v.freeMap.IsUsed y :=
  ⟨hv.invariant.nodup, hv.invariant.used⟩

/-- The volume after `FileHeader.savedFile` is created on a three-sector map whose sector 0 was set
aside for its header. -/
def oneFile : Volume :=
  ⟨⟨[true, true, true], by decide⟩,
    FileHeader.blankDisk.apply (FileHeader.savedFile.image (0 : Nat)), [(0, FileHeader.savedFile)]⟩

theorem oneFile_reachable : oneFile.Reachable :=
  .step (.init ⟨[true, false, false], by decide⟩ FileHeader.blankDisk)
    (.create (n := 200) rfl (by simp [owned]) (by decide) (by decide) rfl rfl)

theorem owned_nodup_oneFile :
    oneFile.Reachable ∧ oneFile.owned.Nodup ∧
      ∀ x ∈ oneFile.owned, ∃ y : Nat, (y : Int) = x ∧ oneFile.freeMap.IsUsed y :=
  ⟨oneFile_reachable, owned_nodup oneFile_reachable⟩

/-- **Every live file loads back as it is.** On every reachable volume, `FetchFrom` from a live
file's header sector into a new header gives back that file's header exactly, reading its header
and index sectors only, whatever the other files and the writes from outside did. -/
theorem FetchFrom_live {v : Volume} (hv : v.Reachable) {s : Nat} {h : FileHeader}
    (hf : (s, h) ∈ v.files) :
    FileHeader.new.FetchFrom v.disk s = .ok (h, (h.image s).map Prod.fst) :=
  have hsaved := hv.invariant.saved _ hf
  FileHeader.FetchFrom_of_holds hsaved.nonneg hsaved.le_max hsaved.shaped hsaved.rebuildable
    hsaved.holds

theorem FetchFrom_live_oneFile :
    oneFile.Reachable ∧ (0, FileHeader.savedFile) ∈ oneFile.files ∧
      FileHeader.new.FetchFrom oneFile.disk (0 : Nat) =
        .ok (FileHeader.savedFile, (FileHeader.savedFile.image (0 : Nat)).map Prod.fst) :=
  ⟨oneFile_reachable, List.mem_singleton_self _,
    FetchFrom_live oneFile_reachable (List.mem_singleton_self _)⟩

/-- **Removing a live file clears exactly its sectors.** On every reachable volume, `Deallocate`
of a live file passes every `ASSERT` and clears exactly the active entries of its tree. -/
theorem Deallocate_live {v : Volume} (hv : v.Reachable) {s : Nat} {h : FileHeader}
    (hf : (s, h) ∈ v.files) :
    ∃ ys : List Nat, h.sectors = ys.map (↑) ∧
      h.Deallocate v.freeMap = .ok (v.freeMap.unmarkAll ys) :=
  hv.invariant.Deallocate_eq hf

theorem Deallocate_live_oneFile :
    oneFile.Reachable ∧ (0, FileHeader.savedFile) ∈ oneFile.files ∧
      ∃ ys : List Nat, FileHeader.savedFile.sectors = ys.map (↑) ∧
        FileHeader.savedFile.Deallocate oneFile.freeMap = .ok (oneFile.freeMap.unmarkAll ys) :=
  ⟨oneFile_reachable, List.mem_singleton_self _,
    Deallocate_live oneFile_reachable (List.mem_singleton_self _)⟩

/-- **Creating a file overwrites no live file.** On every reachable volume, storing a header that
`Allocate` has just built, at a sector no live file owns, writes no sector that a live file owns:
every header, index and data sector of the live files keeps its contents. -/
theorem create_frame {v : Volume} (hv : v.Reachable) {s : Nat} {n : Int} {h : FileHeader}
    {m : Bitmap} {ws : List (Int × Sector)} (hso : (s : Int) ∉ v.owned) (hn : 0 ≤ n)
    (hn' : n ≤ MaxFileSize) (hA : FileHeader.new.Allocate v.freeMap n = .ok (true, h, m))
    (hW : h.WriteBack s = .ok ws) : ∀ x ∈ v.owned, v.disk.apply ws x = v.disk x := by
  obtain ⟨xs, -, hxs, -, hsh, -, hsec⟩ := FileHeader.Allocate_of_true hn hn' hA
  obtain rfl : ws = h.image s := Except.ok.inj (hW.symm.trans (FileHeader.WriteBack_eq hsh s))
  exact fun x hx ↦ v.disk.apply_of_not_mem fun hx' ↦
    hv.invariant.owns_fresh hso hxs hsec x (image_subset_owns hsh s x hx') hx

/-- The volume after `FileHeader.savedFile` is created with its header in sector 0, on a 36-sector
map that also sets sector 3 aside for a second header and leaves the 32 sectors after it free. -/
def roomyVolume : Volume :=
  ⟨⟨List.replicate 4 true ++ List.replicate 32 false, by decide⟩,
    FileHeader.blankDisk.apply (FileHeader.savedFile.image (0 : Nat)), [(0, FileHeader.savedFile)]⟩

theorem roomyVolume_reachable : roomyVolume.Reachable :=
  .step (.init ⟨true :: false :: false :: true :: List.replicate 32 false, by decide⟩
      FileHeader.blankDisk)
    (.create (n := 200) rfl (by simp [owned]) (by decide) (by decide) rfl rfl)

/-- The header `Allocate` builds on `roomyVolume`'s map for a 3841-byte file: its index block in
sector 4, naming the data sectors 5 to 35. -/
def secondFile : FileHeader :=
  ⟨3841, 31, ⟨4 :: List.replicate 29 (-1), rfl⟩, .LSingle, 1,
    [⟨3841, 31, 31,
      ⟨(List.range 31).map (fun i : Nat ↦ (i : Int) + 5) ++ [-1], by decide⟩, []⟩]⟩

/-- Storing that header in sector 3 writes its root and its fresh index block, sector 4, and none
of the first file's sectors. -/
theorem create_frame_beside_savedFile :
    roomyVolume.Reachable ∧ ((3 : Nat) : Int) ∉ roomyVolume.owned ∧ (0 : Int) ≤ 3841 ∧
      (3841 : Int) ≤ MaxFileSize ∧
      FileHeader.new.Allocate roomyVolume.freeMap 3841 =
        .ok (true, secondFile, ⟨List.replicate 36 true, by decide⟩) ∧
      secondFile.level ≠ .LDirect ∧
      ∃ ws, secondFile.WriteBack (3 : Nat) = .ok ws ∧ ws.map Prod.fst = [3, 4] ∧
        ∀ x ∈ roomyVolume.owned, roomyVolume.disk.apply ws x = roomyVolume.disk x := by
  have hA : FileHeader.new.Allocate roomyVolume.freeMap 3841 =
      .ok (true, secondFile, ⟨List.replicate 36 true, by decide⟩) := rfl
  have hso : ((3 : Nat) : Int) ∉ roomyVolume.owned := by decide
  exact ⟨roomyVolume_reachable, hso, by decide, by decide, hA, by decide, _, rfl, rfl,
    create_frame roomyVolume_reachable hso (by decide) (by decide) hA rfl⟩

/-- **The data of a live file are its own.** On every reachable volume, every byte
`0 ≤ o < FileLength()` of a live file translates without fault to one of that file's data sectors,
which no other live file owns and which is no live file's header or index sector: no `WriteBack`
of any live file writes it. -/
theorem ByteToSector_live {v : Volume} (hv : v.Reachable) {s : Nat} {h : FileHeader}
    (hf : (s, h) ∈ v.files) {o : Int} (ho : 0 ≤ o) (ho' : o < h.FileLength) :
    ∃ x, h.ByteToSector o = .ok x ∧ x ∈ h.leafSectors ∧
      (∀ f ∈ v.files, f ≠ (s, h) → x ∉ owns f) ∧ x ∉ v.metadata := by
  have hi := hv.invariant
  obtain ⟨x, hx, hb⟩ := (hi.saved _ hf).shaped.ByteToSector ho ho'
  have hleaf := List.getElem?_mem hx
  have hsec : x ∈ h.sectors :=
    (FileHeader.sectors_perm h).symm.subset (List.mem_append_left _ hleaf)
  obtain ⟨pre, post, hfiles⟩ := List.append_of_mem hf
  obtain ⟨hnd₁, -, hdisj⟩ := List.nodup_append.mp ((owned_perm hfiles).nodup_iff.mp hi.nodup)
  have hother : ∀ f ∈ v.files, f ≠ (s, h) → x ∉ owns f := fun f hf' hne hxf ↦ by
    rw [hfiles, List.mem_append, List.mem_cons] at hf'
    exact hdisj (List.mem_cons_of_mem _ hsec) (List.mem_flatMap.mpr
      ⟨f, List.mem_append.mpr (hf'.imp id (Or.resolve_left · hne)), hxf⟩)
  -- nor is it its own file's header sector or an index sector
  have hown : x ∉ (s : Int) :: h.indexSectors := by
    obtain ⟨hs, hnd⟩ := List.nodup_cons.mp hnd₁
    rw [List.mem_cons]
    rintro (rfl | hxi)
    · exact hs hsec
    · exact List.disjoint_of_nodup_append ((FileHeader.sectors_perm h).nodup_iff.mp hnd) hleaf hxi
  refine ⟨x, hb, hleaf, hother, fun hm ↦ ?_⟩
  obtain ⟨f, hf', hxf⟩ := List.mem_flatMap.mp hm
  by_cases hfe : f = (s, h)
  · subst hfe
    exact hown hxf
  · exact hother f hf' hfe (List.cons_subset_cons _ f.2.indexSectors_subset hxf)

theorem ByteToSector_live_oneFile :
    oneFile.Reachable ∧ (0, FileHeader.savedFile) ∈ oneFile.files ∧ (0 : Int) ≤ 150 ∧
      (150 : Int) < FileHeader.savedFile.FileLength ∧
      ∃ x, FileHeader.savedFile.ByteToSector 150 = .ok x ∧ x ∈ FileHeader.savedFile.leafSectors ∧
        (∀ f ∈ oneFile.files, f ≠ (0, FileHeader.savedFile) → x ∉ owns f) ∧ x ∉ oneFile.metadata :=
  ⟨oneFile_reachable, List.mem_singleton_self _, by decide, by decide,
    ByteToSector_live oneFile_reachable (List.mem_singleton_self _) (by decide) (by decide)⟩

end Volume

end NachosFilehdr
