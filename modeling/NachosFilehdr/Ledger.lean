import NachosFilehdr.Volume

/-!
# The free map over a whole run

`Allocate` sets sectors and `Deallocate` clears them; nothing else the header's callers do here
touches the free map. This file follows the map along a run that starts from a volume with no
file, on a map `m₀`, and shows that it never drifts: at every point it is `m₀` with exactly the
sectors of the live files' trees set, each of them clear in `m₀` (`Volume.freeMap_ledger`). No
sector is ever lost to the map, none is set twice, and once every file created has been removed
the map is `m₀` again.

## The invariant

`Volume.Accounts m₀ v` is the statement above for one volume. `create` adds the fresh sectors of
the new tree, which `Allocate_of_true` gives; `remove` takes the file's sectors out again, which
`Invariant.Deallocate_eq` gives, and clearing freshly set sectors undoes setting them
(`Bitmap.unmarkAll_markAll`); `full` and `write` leave the map and the files alone.
-/

namespace NachosFilehdr

namespace Bitmap

variable {m : Bitmap} {xs ys : List Nat}

/-- Setting a list of sectors depends only on which sectors it holds. -/
theorem markAll_perm (h : xs.Perm ys) : m.markAll xs = m.markAll ys := by
  ext1
  apply List.ext_getElem?
  intro j
  simp [getElem?_markAll, h.mem_iff]

theorem Fresh.perm (h : m.Fresh xs) (hp : xs.Perm ys) : m.Fresh ys :=
  ⟨hp.nodup_iff.mp h.1, fun y hy ↦ h.2 y (hp.mem_iff.mpr hy)⟩

end Bitmap

/-- Integers that are all naturals are the naturals they are. -/
theorem map_toNat_cast {l : List Int} (h : ∀ x ∈ l, 0 ≤ x) : (l.map Int.toNat).map (↑) = l := by
  rw [List.map_map]
  conv_rhs => rw [← List.map_id l]
  exact List.map_congr_left fun x hx ↦ Int.toNat_of_nonneg (h x hx)

namespace Volume

/-- The sectors of the live files' trees: what `Allocate` set for them. -/
def allocated (v : Volume) : List Int := v.files.flatMap fun f ↦ f.2.sectors

/-- `v`'s map is `m₀` with exactly the sectors of the live files' trees set, each of them clear
in `m₀`. -/
def Accounts (m₀ : Bitmap) (v : Volume) : Prop :=
  ∃ ys : List Nat, v.allocated.Perm (ys.map (↑)) ∧ m₀.Fresh ys ∧ v.freeMap = m₀.markAll ys

section Steps

variable {m₀ : Bitmap} {v : Volume} (ha : Accounts m₀ v)
include ha

theorem Accounts.create {s : Nat} {n : Int} {h : FileHeader} {m : Bitmap} {disk : Disk}
    (hn : 0 ≤ n) (hn' : n ≤ MaxFileSize)
    (hA : FileHeader.new.Allocate v.freeMap n = .ok (true, h, m)) :
    Accounts m₀ ⟨m, disk, (s, h) :: v.files⟩ := by
  obtain ⟨ys, hperm, hys, hmap⟩ := ha
  obtain ⟨xs, rfl, hxs, -, -, -, hsec⟩ := FileHeader.Allocate_of_true hn hn' hA
  rw [hmap] at hxs ⊢
  refine ⟨ys ++ xs, ?_, hys.append hxs, (Bitmap.markAll_append _ _ _).symm⟩
  have hnew : ((s, h) :: v.files).flatMap (fun f ↦ f.2.sectors) = xs.map (↑) ++ v.allocated := by
    simp [allocated, hsec]
  show (((s, h) :: v.files).flatMap fun f ↦ f.2.sectors).Perm _
  rw [hnew, List.map_append]
  exact (hperm.append_left _).trans List.perm_append_comm

theorem Accounts.remove (hv : v.Invariant) {pre post : List (Nat × FileHeader)} {s : Nat}
    {h : FileHeader} {m : Bitmap} (hfiles : v.files = pre ++ (s, h) :: post)
    (hD : h.Deallocate v.freeMap = .ok m) : Accounts m₀ ⟨m, v.disk, pre ++ post⟩ := by
  obtain ⟨ys, hperm, hys, hmap⟩ := ha
  obtain ⟨zs, hzs, hD'⟩ := hv.Deallocate_eq (s := s) (h := h) (by simp [hfiles])
  obtain rfl : m = v.freeMap.unmarkAll zs := Except.ok.inj (hD.symm.trans hD')
  set rest := (pre ++ post).flatMap fun f ↦ f.2.sectors
  -- the file's sectors and the other files' sectors together are `ys`
  have hsplit : (h.sectors ++ rest).Perm (ys.map (↑)) := by
    rw [allocated, hfiles] at hperm
    exact (List.perm_middle.flatMap_right _).symm.trans hperm
  rw [hzs] at hsplit
  have hnat : ∀ x ∈ rest, 0 ≤ x := fun x hx ↦ by
    obtain ⟨y, -, rfl⟩ := List.mem_map.mp (hsplit.subset (List.mem_append_right _ hx))
    exact Int.natCast_nonneg y
  set ws := rest.map Int.toNat
  have hws : ws.map (↑) = rest := map_toNat_cast hnat
  have hys' : (zs ++ ws).Perm ys := by
    simpa [Function.comp_def] using hsplit.map Int.toNat
  have hfresh : m₀.Fresh (zs ++ ws) := hys.perm hys'.symm
  obtain ⟨-, hnd, hdisj⟩ := List.nodup_append.mp hfresh.1
  refine ⟨ws, .of_eq hws.symm, ⟨hnd, fun w hw ↦ hfresh.2 w (List.mem_append_right _ hw)⟩, ?_⟩
  rw [hmap, Bitmap.markAll_perm (hys'.symm.trans List.perm_append_comm), Bitmap.markAll_append]
  exact Bitmap.unmarkAll_markAll (fun z hz ↦
    (hfresh.2 z (List.mem_append_left _ hz)).markAll fun hw ↦ hdisj hz hw) (List.Perm.refl zs)

end Steps

theorem Accounts.step {m₀ : Bitmap} {v v' : Volume} (hv : v.Invariant) (ha : Accounts m₀ v) :
    Step v v' → Accounts m₀ v'
  | .create _ _ hn hn' hA _ => ha.create hn hn' hA
  | .full hn hn' hA => by
    obtain ⟨-, rfl⟩ := FileHeader.Allocate_of_false hn hn' hA
    exact ha
  | .write _ => ha
  | .remove hfiles hD => ha.remove hv hfiles hD

/-- A run from a volume with no file reaches a reachable volume. -/
theorem Reachable.of_run {m₀ : Bitmap} {d₀ : Disk} {v : Volume}
    (hr : Relation.ReflTransGen Step ⟨m₀, d₀, []⟩ v) : v.Reachable := by
  induction hr with
  | refl => exact .init m₀ d₀
  | tail _ hs ih => exact ih.step hs

/-- **No sector leaks.** Over every run that starts from a volume with no file on the map `m₀`,
the free map is `m₀` with exactly the sectors of the live files' trees set, each of them clear in
`m₀`; so once every file created has been removed, the map is `m₀` again. -/
theorem freeMap_ledger {m₀ : Bitmap} {d₀ : Disk} {v : Volume}
    (hr : Relation.ReflTransGen Step ⟨m₀, d₀, []⟩ v) :
    (∃ ys : List Nat, v.allocated.Perm (ys.map (↑)) ∧ m₀.Fresh ys ∧ v.freeMap = m₀.markAll ys) ∧
      (v.files = [] → v.freeMap = m₀) := by
  have ha : Accounts m₀ v := by
    induction hr with
    | refl => exact ⟨[], by simp [allocated], Bitmap.fresh_nil, rfl⟩
    | tail hr hs ih => exact ih.step (Reachable.of_run hr).invariant hs
  refine ⟨ha, fun he ↦ ?_⟩
  obtain ⟨ys, hperm, -, hmap⟩ := ha
  rw [allocated, he, List.flatMap_nil, List.nil_perm, List.map_eq_nil_iff] at hperm
  rw [hmap, hperm, Bitmap.markAll_nil]

/-- The volume after `oneFile`'s only file is removed. -/
def emptied : Volume := ⟨⟨[true, false, false], by decide⟩, oneFile.disk, []⟩

/-- `FileHeader.savedFile` created on sectors 1 and 2 of a three-sector map, then removed: the map
is back to `[true, false, false]`. -/
theorem freeMap_ledger_create_remove :
    Relation.ReflTransGen Step ⟨⟨[true, false, false], by decide⟩, FileHeader.blankDisk, []⟩
        emptied ∧
      (∃ ys : List Nat, emptied.allocated.Perm (ys.map (↑)) ∧
          Bitmap.Fresh ⟨[true, false, false], by decide⟩ ys ∧
          emptied.freeMap = Bitmap.markAll ⟨[true, false, false], by decide⟩ ys) ∧
        (emptied.files = [] → emptied.freeMap = ⟨[true, false, false], by decide⟩) := by
  have hr : Relation.ReflTransGen Step
      ⟨⟨[true, false, false], by decide⟩, FileHeader.blankDisk, []⟩ emptied :=
    .tail (.single (b := oneFile)
        (.create (n := 200) rfl (by simp [owned]) (by decide) (by decide) rfl rfl))
      (@Step.remove oneFile [] [] 0 FileHeader.savedFile _ rfl rfl)
  exact ⟨hr, freeMap_ledger hr⟩

end Volume

end NachosFilehdr
