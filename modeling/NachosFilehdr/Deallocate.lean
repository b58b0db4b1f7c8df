import NachosFilehdr.Translate

/-!
# Deallocation

`Deallocate` walks the tree children first and, at every block, `Test`s and `Clear`s each active
entry. On a tree whose active entries are distinct sectors, all set, every `ASSERT` holds and the
map comes out with exactly those sectors cleared, whatever order the walk clears them in
(`IndexBlock.Deallocate_spec`, `FileHeader.Deallocate_spec`). After a successful `Allocate` the
active entries are exactly the sectors it set, so `Deallocate` gives back the map `Allocate`
started from.
-/

namespace NachosFilehdr

namespace Bitmap

/-- Clearing a list of sectors depends only on which sectors it holds. -/
theorem unmarkAll_perm {m : Bitmap} {xs ys : List Nat} (h : xs.Perm ys) :
    m.unmarkAll xs = m.unmarkAll ys := by
  ext1
  apply List.ext_getElem?
  intro j
  simp [getElem?_unmarkAll, h.mem_iff]

end Bitmap

/-- Splitting the claimed sectors along a split of the entries they are. -/
theorem exists_split_of_map_eq {xs : List Nat} {ys zs : List Int} (h : ys ++ zs = xs.map (↑)) :
    ∃ ys' zs', xs = ys' ++ zs' ∧ ys = ys'.map (↑) ∧ zs = zs'.map (↑) := by
  obtain ⟨ys', zs', rfl, rfl, rfl⟩ := List.append_eq_map_iff.mp h
  exact ⟨ys', zs', rfl, rfl, rfl⟩

/-! ## The loops -/

/-- **The clearing loop.** When the `k` entries from index `i` are distinct sectors, all set, each
`Test` holds and the loop clears exactly them. -/
theorem clearSectors_spec {size : Int} {text : String} {t : Table size} :
    ∀ {k i : Nat} {m : Bitmap} {xs : List Nat}, i + k ≤ t.entries.length →
      (t.entries.drop i).take k = xs.map (↑) → xs.Nodup → (∀ x ∈ xs, m.IsUsed x) →
      clearSectors text t k i m = .ok (m.unmarkAll xs)
  | 0, _, _, xs, _, hxs, _, _ => by
    obtain rfl : xs = [] := by simpa using hxs.symm
    rfl
  | k + 1, i, m, xs, hik, hxs, hnd, hu => by
    rw [List.drop_eq_getElem_cons (by omega), List.take_succ_cons] at hxs
    obtain ⟨x, xs', rfl, hx, hxs'⟩ := List.map_eq_cons_iff.mp hxs.symm
    have hused := hu x (List.mem_cons_self x xs')
    have hrest : ∀ y ∈ xs', (m.unmark x).IsUsed y := fun y hy ↦
      show (m.unmarkAll [x]).IsUsed y from (hu y (List.mem_cons_of_mem x hy)).unmarkAll
        (by rw [List.mem_singleton]; exact fun h ↦ (List.nodup_cons.mp hnd).1 (h ▸ hy))
    have : clearSectors text t k (i + 1) (m.unmark x) = .ok ((m.unmark x).unmarkAll xs') :=
      clearSectors_spec (by omega) hxs'.symm (List.nodup_cons.mp hnd).2 hrest
    simp only [clearSectors, t.read_of_lt (show i < t.entries.length by omega), ← hx,
      Bitmap.Test_of_used hused, ASSERT_of_true rfl, Bitmap.Clear_of_used hused, ok_bind]
    simpa using this

/-- **The children loop.** When each child's deallocation clears its own sectors, the loop over
the children from index `i` to the end clears theirs, if they are distinct and all set. -/
theorem deallocateChildren_spec {dealloc : IndexBlock → Bitmap → Except Fault Bitmap}
    {S : IndexBlock → List Int} {capacity : Nat} {cs : List IndexBlock}
    (hcap : cs.length ≤ capacity)
    (hd : ∀ c ∈ cs, ∀ (m : Bitmap) (xs : List Nat), S c = xs.map (↑) → xs.Nodup →
      (∀ x ∈ xs, m.IsUsed x) → dealloc c m = .ok (m.unmarkAll xs)) :
    ∀ {k i : Nat} {m : Bitmap} {xs : List Nat}, i + k = cs.length →
      (cs.drop i).flatMap S = xs.map (↑) → xs.Nodup → (∀ x ∈ xs, m.IsUsed x) →
      deallocateChildren dealloc capacity cs k i m = .ok (m.unmarkAll xs)
  | 0, i, m, xs, hik, hxs, _, _ => by
    rw [List.drop_eq_nil_of_le (by omega), List.flatMap_nil] at hxs
    obtain rfl : xs = [] := List.map_eq_nil_iff.mp hxs.symm
    rfl
  | k + 1, i, m, xs, hik, hxs, hnd, hu => by
    have hi : i < cs.length := by omega
    rw [List.drop_eq_getElem_cons hi, List.flatMap_cons] at hxs
    obtain ⟨xs₁, xs₂, rfl, h₁, h₂⟩ := exists_split_of_map_eq hxs
    obtain ⟨hnd₁, hnd₂, hdisj⟩ := List.nodup_append.mp hnd
    have := deallocateChildren_spec hcap hd (k := k) (i := i + 1) (m := m.unmarkAll xs₁) (by omega)
      h₂ hnd₂ fun y hy ↦ (hu y (List.mem_append_right _ hy)).unmarkAll fun h ↦ hdisj h hy
    simp only [deallocateChildren, childAt_of_lt hi (hi.trans_le hcap), ok_bind,
      hd _ (List.getElem_mem hi) m xs₁ h₁ hnd₁ fun y hy ↦ hu y (List.mem_append_left _ hy)]
    rw [this, Bitmap.unmarkAll_append]

/-- **A block's deallocation.** Children first, then the block's own `K` active entries: when
each child clears its own sectors and all the entries are distinct sectors, all set, the two loops
clear exactly them. Both `Deallocate`s past their level test are this. -/
theorem deallocate_block {size : Int} {text : String} {t : Table size} {K : Nat}
    {capacity : Nat} {cs : List IndexBlock} {dealloc : IndexBlock → Bitmap → Except Fault Bitmap}
    {S : IndexBlock → List Int} (hcap : cs.length ≤ capacity)
    (hd : ∀ c ∈ cs, ∀ (m : Bitmap) (xs : List Nat), S c = xs.map (↑) → xs.Nodup →
      (∀ x ∈ xs, m.IsUsed x) → dealloc c m = .ok (m.unmarkAll xs))
    (hK : K ≤ t.entries.length) (hcs : K = cs.length) {m : Bitmap} {xs : List Nat}
    (hxs : t.entries.take K ++ cs.flatMap S = xs.map (↑)) (hnd : xs.Nodup)
    (hu : ∀ x ∈ xs, m.IsUsed x) :
    (deallocateChildren dealloc capacity cs K 0 m >>= clearSectors text t K 0)
      = .ok (m.unmarkAll xs) := by
  obtain ⟨xsE, xsC, rfl, hE, hC⟩ := exists_split_of_map_eq hxs
  obtain ⟨hndE, hndC, hdisj⟩ := List.nodup_append.mp hnd
  rw [deallocateChildren_spec hcap hd (by omega) (by simpa using hC) hndC
      fun y hy ↦ hu y (List.mem_append_right _ hy), ok_bind,
    clearSectors_spec (by omega) (by simpa using hE) hndE
      fun y hy ↦ (hu y (List.mem_append_left _ hy)).unmarkAll fun h ↦ hdisj hy h,
    ← Bitmap.unmarkAll_append, Bitmap.unmarkAll_perm List.perm_append_comm]

/-! ## `IndexBlock::Deallocate` -/

namespace IndexBlock

/-- **`IndexBlock::Deallocate`.** On a shaped subtree whose active entries are distinct sectors,
all set, every `ASSERT` holds and exactly those sectors are cleared. -/
theorem Deallocate_spec : ∀ {l : Nat} {r : Int} {b : IndexBlock}, l ≤ 2 → 0 < r →
    r ≤ sizePerPointer (l + 1) → b.Shaped l r → ∀ {m : Bitmap} {xs : List Nat},
    b.sectors l = xs.map (↑) → xs.Nodup → (∀ x ∈ xs, m.IsUsed x) →
    b.Deallocate l m = .ok (m.unmarkAll xs)
  | 0, r, b, _, hr, hr', hb, m, xs, hxs, hnd, hu => by
    have hent := (hb.counted.length_entries hr (by simpa using hr')).1
    have hlen := b.nextSectors.length_eq
    simp only [entries, List.length_take, NumSectorInt_eq] at hent hlen
    exact clearSectors_spec (by rw [← hb.counted.levelSectors_eq] at hent; omega)
      (by simpa [sectors, entries] using hxs) hnd hu
  | l + 1, r, b, hl, hr, hr', hb, m, xs, hxs, hnd, hu => by
    have hent := (hb.counted.length_entries hr
      (by rwa [← sizePerPointer_succ (by omega)])).1
    have hlen := b.nextSectors.length_eq
    have hcs := hb.children.length
    simp only [entries, List.length_take, NumSectorInt_eq] at hent hlen
    rw [← hb.counted.levelSectors_eq] at hcs hent
    exact deallocate_block (hb.length_nextIndexBlocks_le hr
        (by rwa [← sizePerPointer_succ (by omega)])) (fun c hc m' ys ↦ by
        obtain ⟨s, hs, hs', hsc⟩ := hb.children.exists_of_mem hr hc
        exact Deallocate_spec (by omega) hs hs' hsc)
      (by omega) hcs.symm hxs hnd hu

end IndexBlock

/-! ## `FileHeader::Deallocate` -/

namespace FileHeader

variable {n : Int} {h : FileHeader}

/-- **`FileHeader::Deallocate`.** On a shaped header whose active entries are distinct sectors,
all set, every `ASSERT` holds and exactly those sectors are cleared. -/
theorem Deallocate_spec (hn : 0 ≤ n) (hs : h.Shaped n) {m : Bitmap} {xs : List Nat}
    (hxs : h.sectors = xs.map (↑)) (hnd : xs.Nodup) (hu : ∀ x ∈ xs, m.IsUsed x) :
    h.Deallocate m = .ok (m.unmarkAll xs) := by
  have hent := hs.length_entries hn
  have hlen := h.dataSectors.length_eq
  simp only [entries, List.length_take, NumPointers_eq] at hent hlen
  rw [← hs.levelSectors_eq] at hent
  by_cases hL : h.level = .LDirect
  · simp only [FileHeader.Deallocate, hL, ne_eq, not_true_eq_false, if_false, pure_eq_ok, ok_bind]
    exact clearSectors_spec (by omega) (by simpa [sectors, entries, hL] using hxs) hnd hu
  · obtain ⟨l, hl⟩ : ∃ l, h.level.toNat = l + 1 :=
      ⟨h.level.toNat - 1, by have := Level.one_le_toNat hL; omega⟩
    have hl2 : l ≤ 2 := by have := h.level.toNat_le; omega
    have hc := hs.children hL
    rw [hl, Nat.add_sub_cancel] at hc
    have hcs := hc.length
    rw [← hl, ← hs.levelSectors_eq] at hcs
    simp only [FileHeader.Deallocate, if_pos hL, hl, Nat.add_sub_cancel]
    exact deallocate_block (hs.length_nextIndexBlocks_le hn hL) (fun c hc' m' ys ↦ by
        obtain ⟨s, hs₀, hs', hsc⟩ := hc.exists_of_mem (hs.pos_of_ne hL) hc'
        exact IndexBlock.Deallocate_spec hl2 hs₀ hs' hsc)
      (by omega) hcs.symm (by simpa [sectors, entries, hL, hl] using hxs) hnd hu

/-- After a successful `Allocate` of `n` bytes turned `m` into `m'`, `Deallocate` on the header
with `m'` passes every `ASSERT` and gives `m` back exactly. -/
theorem Deallocate_after_Allocate {self : FileHeader} {m m' : Bitmap} (hn : 0 ≤ n)
    (hn' : n ≤ MaxFileSize) (hA : self.Allocate m n = .ok (true, h, m')) :
    h.Deallocate m' = .ok m := by
  obtain ⟨xs, rfl, hxs, -, hs, -, hsec⟩ := Allocate_of_true hn hn' hA
  rw [Deallocate_spec hn hs hsec hxs.1 fun x hx ↦ (hxs.2 x hx).markAll_used hx,
    Bitmap.unmarkAll_markAll hxs.2 (List.Perm.refl xs)]

/-- The 3841-byte file: its index block and its 31 data sectors are cleared again, and only the
header's sector stays taken. -/
theorem Deallocate_after_Allocate_at_3841 :
    (0 : Int) ≤ 3841 ∧ (3841 : Int) ≤ MaxFileSize ∧
      new.Allocate headerOnlyMap 3841 = .ok (true, singleIndirectFile, fullMap) ∧
      singleIndirectFile.Deallocate fullMap = .ok headerOnlyMap :=
  ⟨by decide, by decide, Allocate_headerOnlyMap,
    Deallocate_after_Allocate (by decide) (by decide) Allocate_headerOnlyMap⟩

end FileHeader

end NachosFilehdr
