-- SUMMARY: Programs that write ranges of tensors: what a write leaves of a tensor, and what a sequence of writes may have touched.
import BonsaiTpu.Board.Views

/-!
# Writes to tensors

A kernel writes its result range by range, each into one extent or across several. A
write of a range is the same store into the bytes of the tensor either way; the layout
of the tensors and all other bytes stay as they are.
-/

namespace Board

/-! ## Touched bytes -/

/-- From `a` to `a'` only bytes at locations in `touched` have changed. -/
structure Touched (touched : Loc → Prop) (a a' : Allocator (List Byte)) : Prop where
  layout : a' = { a with slabs := a'.slabs }
  lengths : a'.slabs.map (fun slab => (slab.size, slab.data.length)) =
    a.slabs.map fun slab => (slab.size, slab.data.length)
  frame : ∀ loc, ¬touched loc → byteAt a' loc = byteAt a loc

section

variable {touched : Loc → Prop} {a a' a'' : Allocator (List Byte)} {locs : List Loc}
    {bytes : List Byte} {r : TensorRecord}

theorem Touched.refl (touched : Loc → Prop) (a : Allocator (List Byte)) : Touched touched a a :=
  ⟨rfl, rfl, fun _ _ => rfl⟩

theorem Touched.wrote (h : Touched touched a a') (h' : Wrote a' a'' locs bytes)
    (hlocs : ∀ loc ∈ locs, touched loc) :
    Touched touched a a'' where
  layout := by rw [h'.layout, h.layout]
  lengths := h'.lengths.trans h.lengths
  frame loc hloc := by rw [h'.frame loc fun hmem => hloc (hlocs loc hmem), h.frame loc hloc]

theorem Touched.trans (h : Touched touched a a') (h' : Touched touched a' a'') :
    Touched touched a a'' where
  layout := by rw [h'.layout, h.layout]
  lengths := h'.lengths.trans h.lengths
  frame loc hloc := by rw [h'.frame loc hloc, h.frame loc hloc]

theorem Touched.records (h : Touched touched a a') : a'.records = a.records := by rw [h.layout]

theorem Touched.sizes (h : Touched touched a a') :
    a'.slabs.map Slab.size = a.slabs.map Slab.size := by
  have hfst := congrArg (List.map Prod.fst) h.lengths
  simpa only [List.map_map, Function.comp_def] using hfst

theorem Touched.inv (h : Touched touched a a') (ha : a.Inv) : a'.Inv := by
  obtain ⟨hpart, hsums, hfresh, hdistinct⟩ := ha
  rw [h.layout]
  refine ⟨?_, hsums, hfresh, hdistinct⟩
  rw [emptyFree_congr h.sizes]
  exact hpart

theorem Touched.filled (h : Touched touched a a') (hfill : a.Filled) : a'.Filled := by
  intro slab hslab
  have hmem : (slab.size, slab.data.length) ∈ a.slabs.map fun slab =>
    (slab.size, slab.data.length) :=
    h.lengths ▸ List.mem_map_of_mem hslab
  obtain ⟨slab', hslab', heq⟩ := List.mem_map.mp hmem
  obtain ⟨h1, h2⟩ := Prod.mk.inj heq
  rw [← h1, ← h2]
  exact hfill slab' hslab'

theorem Touched.slabView (h : Touched touched a a') (handle offset nbytes : Int) :
    a'.slabView handle offset nbytes = a.slabView handle offset nbytes := by
  have hlen : a'.slabs.length = a.slabs.length := by
    simpa only [List.length_map] using congrArg List.length h.sizes
  simp only [Allocator.slabView, Allocator.getRecord, Allocator.lookup, h.records, hlen]

/-- A range that is not touched keeps its bytes. -/
theorem Touched.range (h : Touched touched a a') {offset nbytes : Nat}
    (hout : ∀ loc ∈ rangeLocations r.extents offset nbytes, ¬touched loc) :
    ((contents a' r).drop offset).take nbytes = ((contents a r).drop offset).take nbytes := by
  simp only [contents, ← List.map_drop, ← List.map_take]
  exact List.map_congr_left fun loc hloc => h.frame loc (hout loc hloc)

end

/-! ## Ranges -/

section

variable {a a' : Allocator (List Byte)} {r : TensorRecord} {bytes : List Byte} {offset : Nat}

/-- The location of a byte is in a range when its position is. -/
theorem mem_rangeLocations (hnodup : (locations r.extents).Nodup) {pos nbytes : Nat} {loc : Loc}
    (hloc : (locations r.extents)[pos]? = some loc) :
    loc ∈ rangeLocations r.extents offset nbytes ↔ offset ≤ pos ∧ pos < offset + nbytes := by
  constructor
  · intro hmem
    obtain ⟨k, hk⟩ := List.mem_iff_getElem?.mp hmem
    rw [rangeLocations, List.getElem?_take] at hk
    split at hk
    · next hlt =>
      rw [List.getElem?_drop] at hk
      have := (List.getElem?_inj (List.getElem?_eq_some_iff.mp hk).1 hnodup).mp (hk.trans hloc.symm)
      omega
    · cases hk
  · rintro ⟨hle, hlt⟩
    refine List.mem_iff_getElem?.mpr ⟨pos - offset, ?_⟩
    rw [rangeLocations, List.getElem?_take, if_pos (by omega), List.getElem?_drop,
      Nat.add_sub_cancel' hle, hloc]

/-- A write of a range of a tensor is a store into its bytes. -/
theorem Wrote.contents (h : Wrote a a' (rangeLocations r.extents offset bytes.length) bytes)
    (hnodup : (locations r.extents).Nodup)
    (hin : offset + bytes.length ≤ (Board.contents a r).length) :
    Words.store (Board.contents a r) offset bytes = some (Board.contents a' r) := by
  rw [Words.store, if_pos hin]
  refine congrArg some (List.ext_getElem? fun pos => ?_)
  rw [Words.getElem?_splice _ _ hin, Board.contents, Board.contents, List.getElem?_map,
    List.getElem?_map]
  cases hloc : (locations r.extents)[pos]? with
  | none =>
    have hpos := List.getElem?_eq_none_iff.mp hloc
    rw [Board.contents, List.length_map] at hin
    rw [if_neg (by omega)]
    rfl
  | some loc =>
    have hiff : loc ∈ rangeLocations r.extents offset bytes.length ↔
        offset ≤ pos ∧ pos < offset + bytes.length :=
      mem_rangeLocations hnodup hloc
    split
    · next hpos =>
      have hk : pos - offset < bytes.length := by omega
      have hat : (rangeLocations r.extents offset bytes.length)[pos - offset]? = some loc := by
        rw [rangeLocations, List.getElem?_take, if_pos hk, List.getElem?_drop,
          Nat.add_sub_cancel' hpos.1, hloc]
      rw [List.getElem?_eq_getElem hk, Option.map_some,
        h.written _ loc _ hat (List.getElem?_eq_getElem hk)]
    · next hpos =>
        rw [Option.map_some, Option.map_some, h.frame loc fun hmem => hpos (hiff.mp hmem)]

/-- A view of a range shows the bytes of the tensor. -/
theorem Allocator.Inv.slab_of_view (ha : a.Inv) (hfill : a.Filled) (hr : r ∈ a.records)
    {nbytes : Nat} {view : Nat × Nat}
    (hpos : 0 < nbytes) (h : a.slabView r.handle offset nbytes = .ok view) :
    ∃ slab, a.slabs[view.1]? = some slab ∧ view.2 + nbytes ≤ slab.data.length ∧
      (slab.data.drop view.2).take nbytes = ((Board.contents a r).drop offset).take nbytes := by
  obtain ⟨hin, -, hlocs⟩ := ha.slabView_ok hr h
  have hvalid : ∀ loc ∈ span view.1 view.2 nbytes, a.Valid loc := by
    intro loc hloc
    rw [← hlocs] at hloc
    exact ha.valid hfill (mem_liveLocations hr (List.mem_of_mem_drop (List.mem_of_mem_take hloc)))
  obtain ⟨slab, hslab, hlt⟩ :=
    hvalid (view.1, view.2 + nbytes - 1)
      (mem_span.mpr ⟨rfl, by simp only; omega, by simp only; omega⟩)
  have hread := run_readSlab a view.1 view.2 nbytes true hpos hvalid
  simp only [readSlab, getSlab, EStateM.run_bind, EStateM.run_get, hslab, EStateM.run_pure,
    EStateM.run_modify, fakeIo, EStateM.Result.ok.injEq] at hread
  refine ⟨slab, hslab, ?_, ?_⟩
  · simp only at hlt
    omega
  · rw [hread.1, ← hlocs, rangeLocations, Board.contents, List.map_take, List.map_drop]

end

end Board
