import NachosFilehdr.Deallocate

/-!
# When `Deallocate` returns

`Deallocate_spec` runs `Deallocate` forward: on a tree whose active entries are distinct sectors,
all set, every `ASSERT` holds and exactly those sectors are cleared. This module runs it backward,
on any tree at all: whenever `Deallocate` returns, the entries it walked were distinct sectors,
each set when the walk reached it, and the map it returns is the map it was given with exactly
those cleared (`IndexBlock.Deallocate_clears`, `FileHeader.Deallocate_clears`). The walk visits
each block's children before its own entries, so the sectors come out in `clearOrder`, a
permutation of `sectors` on a shaped tree.

Together the two directions say what `Deallocate` is on a shaped header (`Deallocate_iff`): it
returns exactly when the tree's sectors are distinct and all set, and then it clears exactly them.
The `ASSERT(freeMap->Test(..))` in its loops therefore stops every double free; in particular a
header of a nonempty file cannot be deallocated twice (`Deallocate_twice`).
-/

namespace NachosFilehdr

namespace Bitmap

/-- `m'` is `m` with the sectors `xs` cleared, where `xs` are distinct sectors all set in `m`. -/
def Clears (m : Bitmap) (xs : List Int) (m' : Bitmap) : Prop :=
  ∃ ys : List Nat, xs = ys.map (↑) ∧ ys.Nodup ∧ (∀ y ∈ ys, m.IsUsed y) ∧ m' = m.unmarkAll ys

variable {m m₁ m' : Bitmap} {xs xs' : List Int}

theorem clears_nil (m : Bitmap) : m.Clears [] m := ⟨[], rfl, List.nodup_nil, by simp, rfl⟩

theorem clears_single {y : Nat} (h : m.IsUsed y) : m.Clears [(y : Int)] (m.unmark y) :=
  ⟨[y], rfl, List.nodup_singleton y, by simpa using h, rfl⟩

/-- Clearing `xs` and then `xs'` clears `xs ++ xs'`: a sector of `xs'` still set after `xs` was
cleared is not in `xs`. -/
theorem Clears.append (h₁ : m.Clears xs m₁) (h₂ : m₁.Clears xs' m') :
    m.Clears (xs ++ xs') m' := by
  obtain ⟨ys, rfl, hnd, hu, rfl⟩ := h₁
  obtain ⟨ys', rfl, hnd', hu', rfl⟩ := h₂
  refine ⟨ys ++ ys', by simp, List.nodup_append.mpr
    ⟨hnd, hnd', fun y hy hy' ↦ (hu' y hy').of_unmarkAll.2 hy⟩, fun y hy ↦ ?_,
    (unmarkAll_append m ys ys').symm⟩
  rcases List.mem_append.mp hy with hy | hy
  · exact hu y hy
  · exact (hu' y hy).of_unmarkAll.1

/-- Which sectors are cleared matters, not in which order. -/
theorem Clears.perm (h : m.Clears xs m') (hp : xs.Perm xs') : m.Clears xs' m' := by
  obtain ⟨ys, rfl, hnd, hu, rfl⟩ := h
  have hys : ys.Perm (xs'.map Int.toNat) := by simpa [Function.comp_def] using hp.map Int.toNat
  refine ⟨xs'.map Int.toNat, ?_, hys.nodup_iff.mp hnd, fun y hy ↦ hu y (hys.mem_iff.mpr hy),
    unmarkAll_perm hys⟩
  calc xs' = xs'.map id := (List.map_id xs').symm
    _ = (xs'.map Int.toNat).map (↑) := by
      rw [List.map_map]
      refine List.map_congr_left fun x hx ↦ ?_
      obtain ⟨y, -, rfl⟩ := List.mem_map.mp (hp.mem_iff.mpr hx)
      simp

/-- After `xs` is cleared, none of it can be cleared again. -/
theorem Clears.not_clears (h₁ : m.Clears xs m₁) (hne : xs ≠ []) : ¬m₁.Clears xs m' := by
  rintro ⟨ys', rfl, -, hu', -⟩
  obtain ⟨ys, hys, -, -, rfl⟩ := h₁
  obtain ⟨y, hy⟩ := List.exists_mem_of_ne_nil ys' (by simpa using hne)
  have hy' : (y : Int) ∈ ys.map (↑) := hys ▸ List.mem_map_of_mem _ hy
  obtain ⟨z, hz, hzy⟩ := List.mem_map.mp hy'
  exact (hu' y hy).of_unmarkAll.2 ((by omega : z = y) ▸ hz)

end Bitmap

/-! ## The loops, backward -/

/-- **The clearing loop.** Whenever it returns, the `k` entries from index `i` were distinct
sectors, each set when the loop reached it, and it cleared exactly them. -/
theorem clearSectors_clears {size : Int} {text : String} {t : Table size} :
    ∀ {k i : Nat} {m m' : Bitmap}, clearSectors text t k i m = .ok m' →
      m.Clears ((t.entries.drop i).take k) m'
  | 0, _, m, _, h => by
    cases h
    simpa using Bitmap.clears_nil m
  | k + 1, i, m, m', h => by
    simp only [clearSectors, bind_eq_ok, ASSERT_eq_ok] at h
    obtain ⟨x, hx, u, hu, -, rfl, m₁, hc, hrest⟩ := h
    obtain ⟨y, rfl, hy⟩ := Bitmap.Test_eq_ok_true hu
    obtain rfl := Bitmap.Clear_eq_ok hc
    obtain ⟨hi, hxi⟩ := List.getElem?_eq_some_iff.mp (Table.read_eq_ok.mp hx)
    rw [List.drop_eq_getElem_cons hi, List.take_succ_cons, hxi]
    exact (Bitmap.clears_single hy).append (by simpa using clearSectors_clears hrest)

/-- **The children loop.** When each child's deallocation clears the child's `S`, the loop over
`k` children from index `i` clears theirs, one after the other. -/
theorem deallocateChildren_clears {dealloc : IndexBlock → Bitmap → Except Fault Bitmap}
    {S : IndexBlock → List Int} {capacity : Nat} {cs : List IndexBlock}
    (hd : ∀ c m m', dealloc c m = .ok m' → m.Clears (S c) m') :
    ∀ {k i : Nat} {m m' : Bitmap}, deallocateChildren dealloc capacity cs k i m = .ok m' →
      m.Clears (((cs.drop i).take k).flatMap S) m'
  | 0, _, m, _, h => by
    cases h
    simpa using Bitmap.clears_nil m
  | k + 1, i, m, m', h => by
    simp only [deallocateChildren, bind_eq_ok, childAt_eq_ok] at h
    obtain ⟨c, ⟨-, hc⟩, m₁, h₁, hrest⟩ := h
    obtain ⟨hi, rfl⟩ := List.getElem?_eq_some_iff.mp hc
    rw [List.drop_eq_getElem_cons hi, List.take_succ_cons, List.flatMap_cons]
    exact (hd _ _ _ h₁).append (deallocateChildren_clears hd hrest)

/-! ## `IndexBlock::Deallocate` -/

namespace IndexBlock

/-- The entries `Deallocate` clears, in the order it clears them: the first `levelSectors`
children's, then the block's own active entries. -/
def clearOrder : Nat → IndexBlock → List Int
  | 0, b => b.entries
  | l + 1, b => (b.nextIndexBlocks.take b.levelSectors.toNat).flatMap (clearOrder l) ++ b.entries

/-- **`IndexBlock::Deallocate`, backward.** Whenever it returns, it has cleared exactly the
entries it walked, which were distinct sectors, all set. -/
theorem Deallocate_clears : ∀ {l : Nat} {b : IndexBlock} {m m' : Bitmap},
    b.Deallocate l m = .ok m' → m.Clears (b.clearOrder l) m'
  | 0, _, _, _, h => by simpa [clearOrder, entries] using clearSectors_clears h
  | l + 1, _, _, _, h => by
    simp only [Deallocate, bind_eq_ok] at h
    obtain ⟨m₁, h₁, h₂⟩ := h
    have hC := @deallocateChildren_clears _ (clearOrder l) _ _ (fun _ _ _ ↦ Deallocate_clears)
      _ _ _ _ h₁
    rw [List.drop_zero] at hC
    rw [clearOrder]
    exact hC.append (by simpa [entries] using clearSectors_clears h₂)

/-- On a shaped subtree the walk visits every child, so it clears the subtree's sectors. -/
theorem Shaped.clearOrder_perm : ∀ {l : Nat} {r : Int} {b : IndexBlock}, b.Shaped l r →
    (b.clearOrder l).Perm (b.sectors l)
  | 0, _, _, _ => .refl _
  | l + 1, _, b, hb => by
    rw [clearOrder, sectors, List.take_of_length_le
      (by rw [hb.children.length, hb.counted.levelSectors_eq])]
    refine List.perm_append_comm.trans (.append_left _ (.flatMap_left _ fun c hc ↦ ?_))
    obtain ⟨i, hi⟩ := List.mem_iff_getElem?.mp hc
    exact (hb.children.getElem? hi).2.clearOrder_perm

end IndexBlock

/-! ## `FileHeader::Deallocate` -/

namespace FileHeader

/-- The entries `Deallocate` clears, in the order it clears them. -/
def clearOrder (h : FileHeader) : List Int :=
  if h.level ≠ .LDirect then
    (h.nextIndexBlocks.take h.levelSectors.toNat).flatMap
      (IndexBlock.clearOrder (h.level.toNat - 1)) ++ h.entries
  else h.entries

variable {n : Int} {h : FileHeader} {m m' : Bitmap}

/-- **`FileHeader::Deallocate`, backward.** Whenever it returns, it has cleared exactly the
entries it walked, which were distinct sectors, all set. -/
theorem Deallocate_clears (hd : h.Deallocate m = .ok m') : m.Clears h.clearOrder m' := by
  by_cases hL : h.level = .LDirect
  · simp only [Deallocate, clearOrder, hL, ne_eq, not_true_eq_false, if_false, pure_eq_ok,
      ok_bind] at hd ⊢
    simpa [entries] using clearSectors_clears hd
  · simp only [Deallocate, clearOrder, if_pos hL, bind_eq_ok] at hd ⊢
    obtain ⟨m₁, h₁, h₂⟩ := hd
    have hC := @deallocateChildren_clears _ (IndexBlock.clearOrder (h.level.toNat - 1)) _ _
      (fun _ _ _ ↦ IndexBlock.Deallocate_clears) _ _ _ _ h₁
    rw [List.drop_zero] at hC
    exact hC.append (by simpa [entries] using clearSectors_clears h₂)

theorem Shaped.clearOrder_perm (hs : h.Shaped n) : h.clearOrder.Perm h.sectors := by
  unfold clearOrder sectors
  by_cases hL : h.level = .LDirect
  · simp [hL]
  · have hc := hs.children hL
    rw [if_pos hL, if_neg hL, List.take_of_length_le (by
      rw [hc.length, Nat.sub_add_cancel (Level.one_le_toNat hL), hs.levelSectors_eq])]
    refine List.perm_append_comm.trans (.append_left _ (.flatMap_left _ fun c hc' ↦ ?_))
    obtain ⟨i, hi⟩ := List.mem_iff_getElem?.mp hc'
    exact (hc.getElem? hi).2.clearOrder_perm

/-- A nonempty file's header has an active root entry, which `Deallocate` clears. -/
theorem Shaped.clearOrder_ne_nil (hn : 0 < n) (hs : h.Shaped n) : h.clearOrder ≠ [] := by
  have hpos := divRoundUp_pos hn (sizePerPointer_pos h.level.toNat)
  have hlen := hs.length_entries_eq hn.le
  rw [hs.levelSectors_eq] at hlen
  have hE : h.entries ≠ [] := fun he ↦ by simp [he] at hlen; omega
  unfold clearOrder
  split_ifs <;> simp [hE]

/-- **What `Deallocate` is.** On the header of a file of `n` bytes, `Deallocate` returns `m'`
exactly when the tree's sectors are distinct, all set in `m`, and `m'` is `m` with exactly them
cleared. -/
theorem Deallocate_iff (hn : 0 ≤ n) (hs : h.Shaped n) :
    h.Deallocate m = .ok m' ↔ m.Clears h.sectors m' := by
  refine ⟨fun hd ↦ (Deallocate_clears hd).perm hs.clearOrder_perm, ?_⟩
  rintro ⟨ys, hys, hnd, hu, rfl⟩
  exact Deallocate_spec hn hs hys hnd hu

/-- The 3841-byte file is released from the full map back to the one with only its header's
sector taken. -/
theorem Deallocate_iff_at_3841 :
    (0 : Int) ≤ 3841 ∧ singleIndirectFile.Shaped 3841 ∧
      (singleIndirectFile.Deallocate fullMap = .ok headerOnlyMap ↔
        fullMap.Clears singleIndirectFile.sectors headerOnlyMap) :=
  ⟨by decide, singleIndirectFile_shaped, Deallocate_iff (by decide) singleIndirectFile_shaped⟩

/-- **No double free.** Once the header of a nonempty file has been deallocated, deallocating it
again fails: the first sector it tests is already clear. -/
theorem Deallocate_twice (hn : 0 < n) (hs : h.Shaped n) (hd : h.Deallocate m = .ok m') :
    ∃ e, h.Deallocate m' = .error e := by
  match hd' : h.Deallocate m' with
  | .error e => exact ⟨e, rfl⟩
  | .ok _ =>
    exact absurd (Deallocate_clears hd')
      ((Deallocate_clears hd).not_clears (hs.clearOrder_ne_nil hn))

/-- The 3841-byte file, released once, cannot be released again. -/
theorem Deallocate_twice_at_3841 :
    (0 : Int) < 3841 ∧ singleIndirectFile.Shaped 3841 ∧
      singleIndirectFile.Deallocate fullMap = .ok headerOnlyMap ∧
      ∃ e, singleIndirectFile.Deallocate headerOnlyMap = .error e := by
  have hd : singleIndirectFile.Deallocate fullMap = .ok headerOnlyMap := rfl
  exact ⟨by decide, singleIndirectFile_shaped, hd,
    Deallocate_twice (by decide) singleIndirectFile_shaped hd⟩

end FileHeader

end NachosFilehdr
