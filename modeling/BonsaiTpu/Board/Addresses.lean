-- SUMMARY: The walks over the extents of a tensor agree: views, reads, physical addresses and what is left of an extent (`allocator.py`, `matmul_q1a8.py`).
import BonsaiTpu.Board.Matmul
import BonsaiTpu.Board.Views

/-!
# Addresses of tensors

Four loops find their way through the extents of a tensor, each with a cursor of its own:
`slab_view` for DMA addresses, `_walk` for reads and writes, `physical`, and
`_extent_remaining` to size chunks. They agree at every offset, the boundaries of extents
included.
-/

namespace Board

open Matmul

section Loops

variable {es : List Extent} {cursor offset nbytes : Nat}

/-- A range is in one extent if the rest of the extent of its first byte is as long. -/
theorem viewFrom_iff_remaining (hcursor : cursor ≤ offset) (hpos : 0 < nbytes) :
    (∃ view, viewFrom es cursor offset nbytes = .ok view) ↔
      nbytes ≤ extentRemainingFrom es cursor offset := by
  induction es generalizing cursor with
  | nil =>
    simp only [viewFrom, extentRemainingFrom, reduceCtorEq, exists_false, false_iff]
    omega
  | cons e es ih =>
    simp only [viewFrom, extentRemainingFrom]
    by_cases hpast : offset ≥ cursor + e.nbytes
    · rw [if_pos hpast, if_neg (by omega)]
      exact ih hpast
    · rw [if_neg hpast, if_pos (show offset < cursor + e.nbytes by omega)]
      split
      · simp only [reduceCtorEq, exists_false, false_iff]
        omega
      · simp only [Except.ok.injEq, exists_eq', true_iff]
        omega

variable {i o : Nat}

/-- A range in one extent is walked in one piece. -/
theorem walkFrom_of_view (hcursor : cursor ≤ offset) (hpos : 0 < nbytes)
    (h : viewFrom es cursor offset nbytes = .ok (i, o)) :
    ∃ e localOffset, walkFrom es cursor offset nbytes = [(e, localOffset, nbytes)] ∧
      e.slabIndex = i ∧
      e.offset + localOffset = o := by
  induction es generalizing cursor with
  | nil => cases h
  | cons e es ih =>
    simp only [viewFrom] at h
    simp only [walkFrom]
    split at h
    · next hpast =>
      rw [if_pos hpast]
      exact ih hpast h
    · next hpast =>
      split at h
      · cases h
      · next hfit =>
        cases h
        have hcount : min nbytes (e.nbytes - (offset - cursor)) = nbytes := by omega
        refine ⟨e, offset - cursor, ?_, rfl, rfl⟩
        rw [if_neg hpast, hcount, if_neg (by omega), if_pos (Nat.sub_self nbytes)]

/-- Its first byte is where `physical` finds it. -/
theorem physicalFrom_of_view (hcursor : cursor ≤ offset)
    (h : viewFrom es cursor offset nbytes = .ok (i, o)) :
    physicalFrom es cursor offset = some (i, o) := by
  induction es generalizing cursor with
  | nil => cases h
  | cons e es ih =>
    simp only [viewFrom] at h
    simp only [physicalFrom]
    split at h
    · next hpast =>
      rw [if_neg (by omega)]
      exact ih hpast h
    · next hpast =>
      rw [if_pos (by omega)]
      split at h
      · cases h
      · cases h
        rfl

end Loops

section

variable {σ : Type} {a : Allocator σ} {r : TensorRecord} {offset nbytes i o : Nat}

theorem Allocator.Inv.extentRemaining (ha : a.Inv) (hr : r ∈ a.records) (offset : Nat) :
    extentRemaining a r.handle offset = .ok (extentRemainingFrom r.extents 0 offset) := by
  simp only [Matmul.extentRemaining, ha.getRecord hr, bind, Except.bind]

theorem Allocator.Inv.physical (ha : a.Inv) (hr : r ∈ a.records) (hin : offset + nbytes ≤ r.nbytes)
    (hlt : i < a.slabs.length)
    (h : viewFrom r.extents 0 offset nbytes = .ok (i, o)) (physicalAddress : Nat → Nat) :
    a.physical physicalAddress r.handle offset = .ok (physicalAddress i + o) := by
  have hrange : ¬((offset : Int) < 0 ∨ (offset : Int) > r.nbytes) := by omega
  simp only [Allocator.physical, ha.getRecord hr, bind, Except.bind, if_neg hrange,
    Int.toNat_natCast, physicalFrom_of_view (Nat.zero_le offset) h, if_pos hlt]

/-- A read of a range in one extent is one read of its slab. -/
theorem Allocator.Inv.read_of_view (ha : a.Inv) (hr : r ∈ a.records) (hpos : 0 < nbytes)
    (hin : offset + nbytes ≤ r.nbytes)
    (h : viewFrom r.extents 0 offset nbytes = .ok (i, o)) {slab : Slab σ}
    (hslab : a.slabs[i]? = some slab) (io : SlabIo σ)
    (coherent : Bool) :
    (call io a (.read r.handle offset nbytes coherent)).1 =
      .ok (.bytes (io.read slab.data o nbytes coherent).1) := by
  have hrange : a.InRange r.handle offset nbytes r := ⟨ha.lookup hr, by omega, by omega, by omega⟩
  rcases run_validateRange a r.handle offset nbytes with ⟨_, _, hvalidate⟩ | ⟨hnone, -⟩
  · obtain ⟨e, localOffset, hwalk, rfl, rfl⟩ := walkFrom_of_view (Nat.zero_le offset) hpos h
    simp only [call, exec, run_map_prog, read, EStateM.run_bind, hvalidate,
      run_getRecord_some hrange.1, walk, Int.toNat_natCast, hwalk, readPieces, readSlab, getSlab,
      EStateM.run_get, hslab, EStateM.run_pure, EStateM.run_modify,
      List.append_nil]
  · exact absurd ⟨r, hrange⟩ hnone

end

/-- In every state of the allocator, for every range of a live tensor: there is a view exactly if
    the range lies in one extent. Then the bytes of the slab there are what a read of the range
    returns, `physical` gives their address and at least the range is left of the extent; otherwise
    `slab_view` raises `multi_extent`, and less than the range is left. -/
theorem slab_view_agrees {σ : Type} (io : SlabIo σ) {slabs : List (Slab σ)} {defaultAlignment : Int}
    {a₀ : Allocator σ}
    (hinit : Allocator.init slabs defaultAlignment = .ok a₀) (cs : List Call)
    (physicalAddress : Nat → Nat)
    {r : TensorRecord} (hr : r ∈ (calls io a₀ cs).2.records) {offset nbytes : Nat}
    (hpos : 1 ≤ nbytes) (hin : offset + nbytes ≤ r.nbytes) :
    let a := (calls io a₀ cs).2
    ((∃ i o, a.slabView r.handle offset nbytes = .ok (i, o)) ↔
      WithinExtent r.extents offset nbytes) ∧
    (∀ i o, a.slabView r.handle offset nbytes = .ok (i, o) →
      (∃ slab, a.slabs[i]? = some slab ∧ o + nbytes ≤ slab.size ∧ ∀ coherent,
        (call io a (.read r.handle offset nbytes coherent)).1 =
          .ok (.bytes (io.read slab.data o nbytes coherent).1)) ∧
      a.physical physicalAddress r.handle offset = .ok (physicalAddress i + o) ∧
      ∃ remaining, extentRemaining a r.handle offset = .ok remaining ∧ nbytes ≤ remaining) ∧
    (¬WithinExtent r.extents offset nbytes →
      (∃ message, a.slabView r.handle offset nbytes = .error (.allocator .multiExtent message)) ∧
      ∃ remaining, extentRemaining a r.handle offset = .ok remaining ∧ remaining < nbytes) := by
  intro a
  have ha : a.Inv := (Allocator.Inv.init hinit).calls io cs
  have hiff : (∃ view, a.slabView r.handle offset nbytes = .ok view) ↔
      WithinExtent r.extents offset nbytes :=
    ha.slabView_iff hr hpos
  have hremaining : (∃ view, viewFrom r.extents 0 offset nbytes = .ok view) ↔
      nbytes ≤ extentRemainingFrom r.extents 0 offset :=
    viewFrom_iff_remaining (Nat.zero_le offset) hpos
  refine ⟨?_, fun i o hok => ?_, fun hnot => ?_⟩
  · rw [← hiff]
    constructor
    · rintro ⟨i, o, h⟩
      exact ⟨(i, o), h⟩
    · rintro ⟨⟨i, o⟩, h⟩
      exact ⟨i, o, h⟩
  · rcases ha.slabView_cases hr hpos hin with ⟨i', o', hok', hview, hlt, -, hlocs⟩ |
      ⟨message, herr, -⟩
    · rw [hok] at hok'
      cases hok'
      refine ⟨?_, ha.physical hr hin hlt hview physicalAddress, _, ha.extentRemaining hr offset,
        hremaining.mp ⟨_, hview⟩⟩
      -- The last byte of the range is a byte of the slab.
      have hlast : (i, o + (nbytes - 1)) ∈ rangeLocations r.extents offset nbytes := by
        rw [hlocs]
        exact mem_span.mpr ⟨rfl, by simp only; omega, by simp only; omega⟩
      obtain ⟨slab, hslab, hsize⟩ :=
        ha.inside (mem_liveLocations hr (List.mem_of_mem_drop (List.mem_of_mem_take hlast)))
      simp only at hslab hsize
      exact ⟨slab, hslab, by omega, ha.read_of_view hr hpos hin hview hslab io⟩
    · rw [hok] at herr
      cases herr
  · rcases ha.slabView_cases hr hpos hin with ⟨i, o, hok, -⟩ | ⟨message, herr, hview⟩
    · exact absurd (hiff.mp ⟨(i, o), hok⟩) hnot
    · refine ⟨⟨message, herr⟩, _, ha.extentRemaining hr offset, ?_⟩
      by_contra hle
      obtain ⟨view, hok⟩ := hremaining.mpr (Nat.le_of_not_lt hle)
      rw [hview] at hok
      cases hok

/-- Two slabs of 8 bytes and a tensor of 12: its bytes 4 to 7 are in the first extent, 6 to 9 in
    none. -/
theorem slab_view_agrees_two_extents :
    let a₀ : Allocator (List Byte) := ⟨[fakeSlab 8, fakeSlab 8], [[(0, 8)], [(0, 8)]], [], 1, 8⟩
    let cs : List Call :=
      [.allocate 12 ⟨[12], "u8", "tensor", "raw"⟩ none, .write 1 4 [1, 2, 3, 4] true]
    let a := (calls fakeIo a₀ cs).2
    a.slabView 1 4 4 = .ok (0, 4) ∧ a.physical (fun i => 0x1000 * (i + 1)) 1 4 = .ok 0x1004 ∧
      (∃ message, a.slabView 1 6 4 = .error (.allocator .multiExtent message)) ∧
      (call fakeIo a (.read 1 4 4 true)).1 = .ok (.bytes [1, 2, 3, 4]) := by
  intro a₀ cs a
  have hinit : Allocator.init [fakeSlab 8, fakeSlab 8] 8 = .ok a₀ := rfl
  have hr : ⟨1, 12, [12], "u8", "tensor", "raw", [⟨0, 0, 8⟩, ⟨1, 0, 4⟩]⟩ ∈ a.records := by
    decide +kernel
  have hview : a.slabView 1 4 4 = .ok (0, 4) := by decide +kernel
  obtain ⟨-, hone, -⟩ := slab_view_agrees fakeIo hinit cs (fun i => 0x1000 * (i + 1)) hr
    (show 1 ≤ 4 by decide) (show 4 + 4 ≤ 12 by decide)
  obtain ⟨-, -, hmany⟩ := slab_view_agrees fakeIo hinit cs (fun i => 0x1000 * (i + 1)) hr
    (show 1 ≤ 4 by decide) (show 6 + 4 ≤ 12 by decide)
  obtain ⟨⟨slab, hslab, -, hread⟩, hphysical, -⟩ := hone 0 4 hview
  refine ⟨hview, hphysical, (hmany ?_).1, ?_⟩
  · rw [withinExtent_cons_of_lt (by decide)]
    decide
  · have hdata : a.slabs[0]?.map Slab.data = some [0, 0, 0, 0, 1, 2, 3, 4] := by decide +kernel
    have hbytes : slab.data = [0, 0, 0, 0, 1, 2, 3, 4] :=
      Option.some.inj ((congrArg (Option.map Slab.data) hslab).symm.trans hdata)
    refine (hread true).trans ?_
    rw [hbytes]
    rfl

end Board
