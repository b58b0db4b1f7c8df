import NachosFilehdr.Translate

/-!
# Persistence

`WriteBack(sector)` writes a block's table to its sector and then each child to the sector its
entry names; `FetchFrom(sector, remSize)` reads them back in the same order and recomputes every
count from the byte count it is handed. Both are described here by one pure function,
`IndexBlock.image l b x`: the sectors a shaped subtree stored from `x` occupies, each with the
contents stored there.

## The two directions

* `WriteBack` issues exactly the writes of the image (`IndexBlock.WriteBack_eq`), one per index
  sector and one for the block itself (`IndexBlock.image_fst_perm`).
* `FetchFrom` from any disk at all builds a shaped subtree whose image the disk holds, reading
  exactly the image's sectors (`IndexBlock.FetchFrom_spec`); and a disk holds at most one shaped
  subtree from a sector (`IndexBlock.Shaped.eq_of_holds`). So from a disk that holds a subtree's
  image the fetch gives that subtree back.

The child loops are proved once (`ShapedChildren.writeBackChildren`, `fetchChildren_shaped`,
`ShapedChildren.eq_of_holds`), each handed what holds of one child, and serve both a block and
the root. The root adds the two length words at offsets 0 and 4 of its sector and recomputes its
level from them. Its unused table entries are written and read verbatim
(`Sector.ofHeader_fields`), so loading then saving gives back every byte of the root sector too.
-/

namespace NachosFilehdr

theorem mem_zip_iff_getElem? {α β : Type} {as : List α} {bs : List β} {p : α × β} :
    p ∈ as.zip bs ↔ ∃ j : Nat, as[j]? = some p.1 ∧ bs[j]? = some p.2 :=
  List.mem_iff_getElem?.trans (exists_congr fun _ ↦ List.getElem?_zip_eq_some)

namespace IndexBlock

/-- What a level-`l` subtree stored from sector `x` occupies on disk: the block's table at `x`,
then each child's subtree from the sector its active entry names. -/
def image : Nat → IndexBlock → Int → List (Int × Sector)
  | 0, b, x => [(x, Sector.ofWords b.nextSectors)]
  | l + 1, b, x => (x, Sector.ofWords b.nextSectors) ::
      (b.nextIndexBlocks.zip b.entries).flatMap fun p ↦ image l p.1 p.2

end IndexBlock

/-! ## The two loops -/

/-- **The write-back loop.** When every child writes back without fault, the loop over `k`
children from index `i` writes each of them, in order, to the sector its entry names. -/
theorem writeBackChildren_eq {wb : IndexBlock → Int → Except Fault (List (Int × Sector))}
    {f : IndexBlock → Int → List (Int × Sector)} {size : Int} {t : Table size}
    {cs : List IndexBlock} (hf : ∀ c ∈ cs, ∀ y, wb c y = .ok (f c y)) :
    ∀ {k i : Nat}, i + k ≤ cs.length → i + k ≤ t.entries.length →
      writeBackChildren wb t cs k i =
        .ok ((((cs.drop i).take k).zip ((t.entries.drop i).take k)).flatMap fun p ↦ f p.1 p.2)
  | 0, _, _, _ => by simp [writeBackChildren]
  | k + 1, i, hc, ht => by
    have hi : i < cs.length := by omega
    rw [List.drop_eq_getElem_cons hi, List.drop_eq_getElem_cons (by omega : i < t.entries.length)]
    simp only [writeBackChildren, List.getElem?_eq_getElem hi, t.read_of_lt (i := i) (by omega),
      ok_bind, hf _ (List.getElem_mem hi), writeBackChildren_eq hf (k := k) (i := i + 1) (t := t)
        (by omega) (by omega),
      List.take_succ_cons, List.zip_cons_cons, List.flatMap_cons, pure_eq_ok]

/-- **The fetch loop.** When the fetch of child `j` from the sector its entry names succeeds for
each `j` the loop reaches, with a child satisfying `P j`, the loop over `k` children from index `i`
builds those children, in order, and reads what they read, in order. -/
theorem fetchChildren_spec {fetch : Int → Int → Except Fault (IndexBlock × List Int)}
    {R : IndexBlock → Int → List Int} {P : Nat → IndexBlock → Prop} {size : Int}
    {t : Table size} {sz : Nat → Int} :
    ∀ {k i : Nat}, i + k ≤ t.entries.length →
      (∀ j y, j < i + k → t.entries[j]? = some y → ∃ c, fetch y (sz j) = .ok (c, R c y) ∧ P j c) →
      ∃ cs : List IndexBlock, cs.length = k ∧ (∀ j c, cs[j]? = some c → P (i + j) c) ∧
        fetchChildren fetch t sz k i =
          .ok (cs, (cs.zip ((t.entries.drop i).take k)).flatMap fun p ↦ R p.1 p.2)
  | 0, _, _, _ => ⟨[], rfl, by simp, rfl⟩
  | k + 1, i, hik, h => by
    have hi : i < t.entries.length := by omega
    obtain ⟨c, hc, hP⟩ := h i t.entries[i] (by omega) (List.getElem?_eq_getElem hi)
    obtain ⟨cs, hlen, hcs, hrun⟩ := fetchChildren_spec (k := k) (i := i + 1) (by omega)
      fun j y hj hy ↦ h j y (by omega) hy
    refine ⟨c :: cs, by simp [hlen], fun j c' hj ↦ ?_, ?_⟩
    · cases j with
      | zero => simp at hj; exact hj ▸ hP
      | succ j => simpa [Nat.add_right_comm i 1 j, Nat.add_assoc] using hcs j c' (by simpa using hj)
    · rw [List.drop_eq_getElem_cons hi]
      simp only [fetchChildren, t.read_of_lt hi, ok_bind, hc, hrun, List.take_succ_cons,
        List.zip_cons_cons, List.flatMap_cons, pure_eq_ok]

namespace IndexBlock

theorem load_counted (l : Nat) (disk : Disk) (x r : Int) : (new.load l disk x r).Counted l r :=
  ⟨rfl, rfl, rfl, fun _ hy ↦ Sector.isInt_of_mem_words hy⟩

/-- A block is its counts, its table and its children. -/
theorem Counted.eq {b b' : IndexBlock} {l : Nat} {r : Int} (hb : b.Counted l r)
    (hb' : b'.Counted l r) (ht : b.nextSectors = b'.nextSectors)
    (hc : b.nextIndexBlocks = b'.nextIndexBlocks) : b = b' := by
  cases b; cases b'
  simp only [mk.injEq]
  exact ⟨hb.1.trans hb'.1.symm, hb.2.trans hb'.2.symm, hb.3.trans hb'.3.symm, ht, hc⟩

/-! ## The children of a node

Each lemma here is handed what holds of one child subtree: at a block that is the recursion's
hypothesis, at the root it is the block's theorem. -/

section Children

variable {disk : Disk} {l : Nat} {r : Int} {cs cs' : List IndexBlock} (hr : 0 < r)
  (hc : ShapedChildren l r cs)
include hr hc

theorem ShapedChildren.writeBackChildren
    (hwb : ∀ {s : Int} {c : IndexBlock}, 0 < s → s ≤ sizePerPointer (l + 1) → c.Shaped l s →
      ∀ y, WriteBack l c y = .ok (c.image l y))
    {size : Int} {t : Table size} {k : Nat} (hk : cs.length = k) (ht : k ≤ t.entries.length) :
    writeBackChildren (WriteBack l) t cs k 0 =
      .ok ((cs.zip (t.entries.take k)).flatMap fun p ↦ image l p.1 p.2) := by
  rw [writeBackChildren_eq (f := image l) (fun c hc' y ↦ by
      obtain ⟨s, hs, hs', hsc⟩ := hc.exists_of_mem hr hc'
      exact hwb hs hs' hsc y) (by omega) (by omega)]
  simp [← hk]

theorem ShapedChildren.image_fst_perm
    (hfst : ∀ {s : Int} {c : IndexBlock}, 0 < s → s ≤ sizePerPointer (l + 1) → c.Shaped l s →
      ∀ y, ((c.image l y).map Prod.fst).Perm (y :: c.indexSectors l))
    {es : List Int} (hes : es.length = cs.length) :
    (((cs.zip es).flatMap fun p ↦ image l p.1 p.2).map Prod.fst).Perm
      (es ++ cs.flatMap (indexSectors l)) := by
  have hzip : ∀ p ∈ cs.zip es, ((image l p.1 p.2).map Prod.fst).Perm (p.2 :: indexSectors l p.1) :=
    fun p hp ↦ by
      obtain ⟨s, hs, hs', hsc⟩ := hc.exists_of_mem hr (List.of_mem_zip hp).1
      exact hfst hs hs' hsc p.2
  rw [List.map_flatMap]
  refine (List.Perm.flatMap_left _ hzip).trans ?_
  have := List.flatMap_append_perm (cs.zip es) (fun p ↦ [p.2]) (fun p ↦ indexSectors l p.1)
  simp only [List.singleton_append] at this
  refine this.symm.trans ?_
  rw [← List.map_eq_flatMap, List.map_snd_zip _ _ (by omega),
    ← List.flatMap_map Prod.fst (indexSectors l), List.map_fst_zip _ _ (by omega)]

/-- Children shaped alike and stored from the same entries of one disk are the same children,
given that one subtree is. -/
theorem ShapedChildren.eq_of_holds
    (heq : ∀ {s : Int} {c c' : IndexBlock} {y : Int}, 0 < s → s ≤ sizePerPointer (l + 1) →
      c.Shaped l s → c'.Shaped l s → disk.Holds (c.image l y) → disk.Holds (c'.image l y) → c = c')
    (hc' : ShapedChildren l r cs') {es : List Int} (hes : cs.length ≤ es.length)
    (hh : disk.Holds ((cs.zip es).flatMap fun p ↦ image l p.1 p.2))
    (hh' : disk.Holds ((cs'.zip es).flatMap fun p ↦ image l p.1 p.2)) : cs = cs' := by
  have hp := sizePerPointer_pos (l + 1)
  have hlen : cs.length = cs'.length := by rw [hc.length, hc'.length]
  rw [Disk.holds_flatMap] at hh hh'
  refine List.ext_getElem hlen fun j h1 h2 ↦ ?_
  have hj : j < es.length := by omega
  have hy := List.getElem?_eq_getElem hj
  exact heq (childSize_bounds hr hp j).1 (childSize_bounds hr hp j).2
    (hc.getElem? (List.getElem?_eq_getElem h1)).2 (hc'.getElem? (List.getElem?_eq_getElem h2)).2
    (hh (cs[j], es[j]) (mem_zip_iff_getElem?.mpr ⟨j, List.getElem?_eq_getElem h1, hy⟩))
    (hh' (cs'[j], es[j]) (mem_zip_iff_getElem?.mpr ⟨j, List.getElem?_eq_getElem h2, hy⟩))

end Children

/-- Fetching the children of a node of `r` bytes from its table `t` builds shaped children, reads
their images' sectors, and the disk holds those images, given that one child's fetch does so. -/
theorem fetchChildren_shaped {disk : Disk} {l : Nat} {r : Int} (hr : 0 < r)
    (hfetch : ∀ {s : Int} (y : Int), 0 < s → s ≤ sizePerPointer (l + 1) → ∃ c,
      FetchFrom l new disk y s = .ok (c, (c.image l y).map Prod.fst) ∧ c.Shaped l s ∧
        disk.Holds (c.image l y))
    {size : Int} {t : Table size}
    (hk : (divRoundUp r (sizePerPointer (l + 1))).toNat ≤ t.entries.length) :
    ∃ cs, ShapedChildren l r cs ∧
      fetchChildren (FetchFrom l new disk) t
        (childSize (divRoundUp r (sizePerPointer (l + 1))) r (sizePerPointer (l + 1)))
        (divRoundUp r (sizePerPointer (l + 1))).toNat 0 =
          .ok (cs, ((cs.zip (t.entries.take (divRoundUp r (sizePerPointer (l + 1))).toNat)).flatMap
            fun p ↦ image l p.1 p.2).map Prod.fst) ∧
      disk.Holds ((cs.zip (t.entries.take (divRoundUp r (sizePerPointer (l + 1))).toNat)).flatMap
        fun p ↦ image l p.1 p.2) := by
  have hp := sizePerPointer_pos (l + 1)
  obtain ⟨cs, hcs, hP, hrun⟩ := @fetchChildren_spec (FetchFrom l new disk)
    (fun c y ↦ (c.image l y).map Prod.fst)
    (fun j c ↦ c.Shaped l (childSize (divRoundUp r (sizePerPointer (l + 1))) r
      (sizePerPointer (l + 1)) j) ∧ ∀ y, t.entries[j]? = some y → disk.Holds (c.image l y))
    _ t (childSize (divRoundUp r (sizePerPointer (l + 1))) r (sizePerPointer (l + 1)))
    (divRoundUp r (sizePerPointer (l + 1))).toNat 0 (by omega) fun j y _ hy ↦ by
      obtain ⟨c, hc, hs, hh⟩ := hfetch y (childSize_bounds hr hp j).1 (childSize_bounds hr hp j).2
      exact ⟨c, hc, hs, fun y' hy' ↦ by rw [hy] at hy'; cases hy'; exact hh⟩
  simp only [Nat.zero_add] at hP
  refine ⟨cs, shapedChildren_of_getElem? hcs fun i c hc ↦ (hP i c hc).1, ?_, ?_⟩
  · rw [hrun, List.drop_zero, List.map_flatMap]
  · rw [Disk.holds_flatMap]
    intro p hp
    obtain ⟨j, h1, h2⟩ := mem_zip_iff_getElem?.mp hp
    rw [List.getElem?_take] at h2
    split_ifs at h2
    exact (hP j p.1 h1).2 p.2 h2

/-! ## Blocks -/

/-- **`IndexBlock::WriteBack`.** A shaped subtree writes back, without fault, exactly its image. -/
theorem WriteBack_eq : ∀ {l : Nat} {r : Int} {b : IndexBlock}, l ≤ 2 → 0 < r →
    r ≤ sizePerPointer (l + 1) → b.Shaped l r → ∀ x, b.WriteBack l x = .ok (b.image l x)
  | 0, _, _, _, _, _, _, _ => rfl
  | l + 1, r, b, hl, hr, hr', hb, x => by
    have hent := (hb.counted.length_entries hr (by rwa [← sizePerPointer_succ (by omega)])).2
    have hlen := b.nextSectors.length_eq
    have hcs := hb.children.length
    simp only [NumSectorInt_eq] at hent hlen
    rw [← hb.counted.levelSectors_eq] at hcs hent
    rw [WriteBack, hb.children.writeBackChildren hr (fun hs hs' hsc y ↦
      WriteBack_eq (by omega) hs hs' hsc y) hcs (by omega)]
    rfl

/-- The image of a shaped subtree stored from `x` writes `x` and each of the subtree's index
sectors, once each, and nothing else. -/
theorem image_fst_perm : ∀ {l : Nat} {r : Int} {b : IndexBlock}, l ≤ 2 → 0 < r →
    r ≤ sizePerPointer (l + 1) → b.Shaped l r → ∀ x,
    ((b.image l x).map Prod.fst).Perm (x :: b.indexSectors l)
  | 0, _, _, _, _, _, _, _ => by simp [image, indexSectors]
  | l + 1, r, b, hl, hr, hr', hb, x => by
    have hent := (hb.counted.length_entries hr (by rwa [← sizePerPointer_succ (by omega)])).1
    have hcs := hb.children.length
    rw [← hent] at hcs
    simp only [image, indexSectors, List.map_cons, List.perm_cons]
    exact hb.children.image_fst_perm hr (fun hs hs' hsc y ↦ image_fst_perm (by omega) hs hs' hsc y)
      (by omega)

/-- **`IndexBlock::FetchFrom` from any disk.** Whatever the disk holds, fetching a level-`l` block
of `r` bytes completes; it builds a shaped subtree whose image the disk holds, and reads exactly
the sectors of that image. -/
theorem FetchFrom_spec (disk : Disk) : ∀ {l : Nat} {r : Int}, l ≤ 2 → 0 < r →
    r ≤ sizePerPointer (l + 1) → ∀ x, ∃ b, FetchFrom l new disk x r =
      .ok (b, (b.image l x).map Prod.fst) ∧ b.Shaped l r ∧ disk.Holds (b.image l x)
  | 0, r, _, _, _, x => ⟨new.load 0 disk x r, rfl, ⟨load_counted 0 disk x r, rfl⟩,
      by simp [image, load, ReadSector, Sector.ofWords_words]⟩
  | l + 1, r, hl, hr, hr', x => by
    have hb₀ := load_counted (l + 1) disk x r
    have hk := (hb₀.length_entries hr (by rwa [← sizePerPointer_succ (by omega)])).2
    have hlen := (new.load (l + 1) disk x r).nextSectors.length_eq
    simp only [NumSectorInt_eq] at hk hlen
    obtain ⟨cs, hcs, hrun, hh⟩ := fetchChildren_shaped (l := l) hr
      (fun y hs hs' ↦ FetchFrom_spec disk (by omega) hs hs' y)
      (t := (new.load (l + 1) disk x r).nextSectors) (by omega)
    refine ⟨{ new.load (l + 1) disk x r with nextIndexBlocks := cs }, ?_,
      ⟨⟨rfl, rfl, rfl, hb₀.isInt⟩, hcs⟩, ?_⟩
    · rw [FetchFrom]
      simp only [hb₀.levelSectors_eq, hb₀.numBytes_eq, hrun, ok_bind, pure_eq_ok, image,
        List.map_cons, entries]
    · simp only [image, Disk.holds_cons]
      exact ⟨(Sector.ofWords_words _).symm, hh⟩

/-- **A disk holds at most one subtree from a sector.** Two shaped subtrees for one byte count
whose images a disk holds from the same sector are the same subtree. -/
theorem Shaped.eq_of_holds {disk : Disk} : ∀ {l : Nat} {r : Int} {b b' : IndexBlock} {x : Int},
    l ≤ 2 → 0 < r → r ≤ sizePerPointer (l + 1) → b.Shaped l r → b'.Shaped l r →
    disk.Holds (b.image l x) → disk.Holds (b'.image l x) → b = b'
  | 0, _, _, _, _, _, _, _, hb, hb', hh, hh' => by
    simp only [image, Disk.holds_cons, Disk.holds_nil, and_true] at hh hh'
    exact hb.1.eq hb'.1 (Sector.ofWords_injective hb.1.isInt hb'.1.isInt (hh.symm.trans hh'))
      (hb.2.trans hb'.2.symm)
  | l + 1, r, b, b', x, hl, hr, hr', hb, hb', hh, hh' => by
    simp only [image, Disk.holds_cons] at hh hh'
    have ht := Sector.ofWords_injective hb.counted.isInt hb'.counted.isInt (hh.1.symm.trans hh'.1)
    have hent : b'.entries = b.entries := by
      simp only [entries, ht, hb.counted.levelSectors_eq, hb'.counted.levelSectors_eq]
    have hK := (hb.counted.length_entries hr (by rwa [← sizePerPointer_succ (by omega)])).1
    have hcs := hb.children.length
    exact hb.counted.eq hb'.counted ht (hb.children.eq_of_holds hr
      (fun hs hs' hc hc' ↦ Shaped.eq_of_holds (by omega) hs hs' hc hc') hb'.children
      (by omega) hh.2 (hent ▸ hh'.2))

end IndexBlock

/-! ## The root sector -/

/-- Loading then saving one `int` field gives back its four bytes. -/
theorem encodeInt_headD_decodeWords : ∀ {bs : List UInt8}, 4 ≤ bs.length →
    encodeInt ((decodeWords (bs.take 4)).headD 0) = bs.take 4
  | b0 :: b1 :: b2 :: b3 :: rest, _ => by
    rw [show (b0 :: b1 :: b2 :: b3 :: rest).take 4 = [b0, b1, b2, b3] ++ [] from rfl,
      decodeWords_four_append, List.headD_cons, encodeInt_decodeInt, List.append_nil]
  | [], h | [_], h | [_, _], h | [_, _, _], h => by simp at h

theorem decodeWords_encodeInt {x : Int} (hx : IsInt x) : decodeWords (encodeInt x) = [x] := by
  simpa [decodeWords] using decodeWords_encodeInt_append hx []

namespace Sector

variable {a b : Int} {t : Table NumPointers}

theorem numBytesField_ofHeader (ha : IsInt a) : (ofHeader a b t).numBytesField = a := by
  simp only [numBytesField, ofHeader, List.append_assoc, List.take_left' (length_encodeInt a),
    decodeWords_encodeInt ha, List.headD_cons]

theorem numSectorsField_ofHeader (hb : IsInt b) : (ofHeader a b t).numSectorsField = b := by
  simp only [numSectorsField, ofHeader, List.append_assoc, List.drop_left' (length_encodeInt a),
    List.take_left' (length_encodeInt b), decodeWords_encodeInt hb, List.headD_cons]

/-- The active entries of a stored root table read back as they were, whatever the rest of it. -/
theorem take_dataSectorsField_ofHeader {k : Nat} (hk : k ≤ t.entries.length)
    (ht : ∀ x ∈ t.entries.take k, IsInt x) :
    (ofHeader a b t).dataSectorsField.entries.take k = t.entries.take k := by
  simp only [dataSectorsField, ofHeader]
  rw [List.drop_left' (by simp), take_decodeWords_encodeWords hk ht]

/-- **Loading then saving the root sector gives back every byte.** -/
theorem ofHeader_fields (s : Sector) :
    ofHeader s.numBytesField s.numSectorsField s.dataSectorsField = s := by
  have hlen := s.length_eq
  simp only [SectorSize_eq] at hlen
  ext1
  simp only [ofHeader, numBytesField, numSectorsField, dataSectorsField]
  rw [encodeInt_headD_decodeWords (by omega), encodeInt_headD_decodeWords (by simp; omega),
    encodeWords_decodeWords (by simp; omega), List.append_assoc,
    show s.bytes.drop 8 = (s.bytes.drop 4).drop 4 by rw [List.drop_drop],
    List.take_append_drop, List.take_append_drop]

end Sector

namespace FileHeader

/-- What a header stored from sector `x` occupies on disk: the root sector, then, below a root
that is not `LDirect`, each child's subtree from the sector its active entry names. -/
def image (h : FileHeader) (x : Int) : List (Int × Sector) :=
  (x, Sector.ofHeader h.numBytes h.numSectors h.dataSectors) ::
    if h.level = .LDirect then []
    else (h.nextIndexBlocks.zip h.entries).flatMap fun p ↦
      IndexBlock.image (h.level.toNat - 1) p.1 p.2

section Shaped

variable {n : Int} {h : FileHeader} (hs : h.Shaped n)
include hs

theorem Shaped.length_nextIndexBlocks (hL : h.level ≠ .LDirect) :
    h.nextIndexBlocks.length = h.levelSectors.toNat := by
  rw [(hs.children hL).length, Nat.sub_add_cancel (Level.one_le_toNat hL), hs.levelSectors_eq]

/-- **`FileHeader::WriteBack`.** A shaped header writes back, without fault, exactly its image. -/
theorem WriteBack_eq (x : Int) : h.WriteBack x = .ok (h.image x) := by
  by_cases hL : h.level = .LDirect
  · simp [WriteBack, image, hL]
  · have h3 := h.level.toNat_le
    have hn := hs.pos_of_ne hL
    simp only [WriteBack, image, hL, ne_eq, not_false_eq_true, if_true, if_false,
      (hs.children hL).writeBackChildren hn (fun hs hs' hsc y ↦ IndexBlock.WriteBack_eq (by omega)
        hs hs' hsc y) (hs.length_nextIndexBlocks hL) (hs.levelSectors_le hn.le)]
    rfl

/-- The image of a shaped header stored from `x` writes `x` and each of the tree's index sectors,
once each, and nothing else. -/
theorem image_fst_perm (x : Int) : ((h.image x).map Prod.fst).Perm (x :: h.indexSectors) := by
  by_cases hL : h.level = .LDirect
  · simp [image, indexSectors, hL]
  · have h3 := h.level.toNat_le
    have hn := hs.pos_of_ne hL
    simp only [image, indexSectors, hL, if_false, List.map_cons, List.perm_cons]
    exact (hs.children hL).image_fst_perm hn (fun hs hs' hsc y ↦
      IndexBlock.image_fst_perm (by omega) hs hs' hsc y)
      (by rw [hs.length_entries_eq hn.le, hs.length_nextIndexBlocks hL])

/-- **A disk holds at most one tree below a root.** Two headers shaped for one length with the
same active entries, whose images a disk holds from one sector, have the same children. -/
theorem Shaped.nextIndexBlocks_eq_of_holds {disk : Disk} {h' : FileHeader} {x : Int}
    (hs' : h'.Shaped n) (hent : h'.entries = h.entries) (hh : disk.Holds (h.image x))
    (hh' : disk.Holds (h'.image x)) (hL : h.level ≠ .LDirect) :
    h'.nextIndexBlocks = h.nextIndexBlocks := by
  have h3 := h.level.toNat_le
  have hlevel : h'.level = h.level := hs'.level_of hs.level_eq
  have hL' : h'.level ≠ .LDirect := hlevel ▸ hL
  have hc' := hs'.children hL'
  simp only [image, hL, hL', if_false, Disk.holds_cons] at hh hh'
  rw [hlevel] at hc' hh'
  rw [hent] at hh'
  have hn := hs.pos_of_ne hL
  exact hc'.eq_of_holds hn (fun hs hs' hc hc' hh hh' ↦
    IndexBlock.Shaped.eq_of_holds (by omega) hs hs' hc hc' hh hh') (hs.children hL)
    (by rw [hs'.length_nextIndexBlocks hL', hs'.levelSectors_eq, hs.length_entries_eq hn.le,
      hs.levelSectors_eq, hlevel]) hh'.2 hh.2

end Shaped

/-- **`FileHeader::FetchFrom` from any disk.** When the stored length is one the header supports,
fetching into any header completes whatever else the disk holds. It builds a header shaped for
that length, with `numSectors` and the whole root table as stored; the disk holds its image, and
the fetch reads exactly that image's sectors. Of the header fetched into, only the children
pointer of a direct root is left as it was. -/
theorem FetchFrom_spec (self : FileHeader) (disk : Disk) (s : Int)
    (hn : 0 ≤ (ReadSector disk s).numBytesField)
    (hn' : (ReadSector disk s).numBytesField ≤ MaxFileSize) :
    ∃ h, self.FetchFrom disk s = .ok (h, (h.image s).map Prod.fst) ∧
      h.Shaped (ReadSector disk s).numBytesField ∧
      h.numSectors = (ReadSector disk s).numSectorsField ∧
      h.dataSectors = (ReadSector disk s).dataSectorsField ∧ disk.Holds (h.image s) := by
  obtain ⟨L, hL⟩ := InitLevel_isOk hn'
  have hroot : disk s = Sector.ofHeader (ReadSector disk s).numBytesField
      (ReadSector disk s).numSectorsField (ReadSector disk s).dataSectorsField :=
    (Sector.ofHeader_fields _).symm
  by_cases hD : L = .LDirect
  · subst hD
    refine ⟨{ self with
        numBytes := (ReadSector disk s).numBytesField
        numSectors := (ReadSector disk s).numSectorsField
        dataSectors := (ReadSector disk s).dataSectorsField
        level := .LDirect
        levelSectors := divRoundUp (ReadSector disk s).numBytesField (sizePerPointer 0) },
      ?_, ⟨rfl, hL, rfl, fun h ↦ absurd rfl h⟩, rfl, rfl, by simpa [image] using hroot⟩
    simp [FetchFrom, hL, image]
  · have h1 := Level.one_le_toNat hD
    have h3 := L.toNat_le
    have hpos := InitLevel_pos hL hD
    have hk := divRoundUp_le hn (sizePerPointer_pos _) (InitLevel_eq_ok hL).1
    have hlen := (ReadSector disk s).dataSectorsField.length_eq
    simp only [NumPointers_eq] at hk hlen
    obtain ⟨cs, hcs, hrun, hh⟩ := IndexBlock.fetchChildren_shaped (l := L.toNat - 1) hpos
      (fun y hs hs' ↦ IndexBlock.FetchFrom_spec disk (by omega) hs hs' y)
      (t := (ReadSector disk s).dataSectorsField) (by rw [Nat.sub_add_cancel h1]; omega)
    rw [Nat.sub_add_cancel h1] at hrun hh
    refine ⟨{ self with
        numBytes := (ReadSector disk s).numBytesField
        numSectors := (ReadSector disk s).numSectorsField
        dataSectors := (ReadSector disk s).dataSectorsField
        level := L
        levelSectors := divRoundUp (ReadSector disk s).numBytesField (sizePerPointer L.toNat)
        nextIndexBlocks := cs }, ?_, ⟨rfl, hL, rfl, fun _ ↦ hcs⟩, rfl, rfl, ?_⟩
    · simp [FetchFrom, hL, hD, hrun, image, entries]
    · simp only [image, hD, if_false, entries, Disk.holds_cons]
      exact ⟨hroot, hh⟩

end FileHeader

end NachosFilehdr
