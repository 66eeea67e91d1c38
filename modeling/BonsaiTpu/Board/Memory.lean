-- SUMMARY: Reads and writes of tensors over fake slabs refine independent byte arrays, one per live handle.
import BonsaiTpu.Base.Words
import BonsaiTpu.Board.Invariant
import Mathlib.Data.List.Pairwise

/-!
# Tensors as byte arrays

The bytes of a tensor sit at a list of locations, its extents one after another.
The partition of the slabs makes the locations of all live tensors distinct, and
`walk` yields exactly the locations of a range; so reads and writes act on the
tensor as on an array of its own.
-/

namespace Board

open Blocks

/-! ## Locations -/

/-- A byte of a slab. -/
abbrev Loc := Nat × Nat

def span (slabIndex offset nbytes : Nat) : List Loc :=
  (List.range nbytes).map fun k => (slabIndex, offset + k)

/-- The locations of the bytes of a tensor, in order. -/
def locations (extents : List Extent) : List Loc :=
  extents.flatMap fun e => span e.slabIndex e.offset e.nbytes

def pieceLocations (pieces : List (Extent × Nat × Nat)) : List Loc :=
  pieces.flatMap fun p => span p.1.slabIndex (p.1.offset + p.2.1) p.2.2

@[simp] theorem length_span (i o n : Nat) : (span i o n).length = n := by simp [span]

theorem mem_span {i o n : Nat} {loc : Loc} :
    loc ∈ span i o n ↔ loc.1 = i ∧ o ≤ loc.2 ∧ loc.2 < o + n := by
  unfold span
  rw [List.mem_map]
  constructor
  · rintro ⟨k, hk, rfl⟩
    have := List.mem_range.mp hk
    simp only [true_and]
    omega
  · rintro ⟨rfl, h1, h2⟩
    refine ⟨loc.2 - o, List.mem_range.mpr (by omega), ?_⟩
    rw [Nat.add_sub_cancel' h1]

theorem span_add (i o m n : Nat) : span i o (m + n) = span i o m ++ span i (o + m) n := by
  simp [span, List.range_add, Nat.add_assoc]

theorem drop_span (i o n k : Nat) : (span i o n).drop k = span i (o + k) (n - k) := by
  by_cases hk : k ≤ n
  · have hsplit := span_add i o k (n - k)
    rw [Nat.add_sub_cancel' hk] at hsplit
    rw [hsplit, List.drop_left' (length_span i o k)]
  · rw [List.drop_of_length_le (by rw [length_span]; omega), Nat.sub_eq_zero_of_le (by omega)]
    rfl

theorem take_span (i o n k : Nat) : (span i o n).take k = span i o (min k n) := by
  by_cases hk : k ≤ n
  · have hsplit := span_add i o k (n - k)
    rw [Nat.add_sub_cancel' hk] at hsplit
    rw [hsplit, List.take_left' (length_span i o k), Nat.min_eq_left hk]
  · rw [List.take_of_length_le (by rw [length_span]; omega), Nat.min_eq_right (by omega)]

@[simp] theorem locations_cons (e : Extent) (es : List Extent) :
    locations (e :: es) = span e.slabIndex e.offset e.nbytes ++ locations es := rfl

@[simp] theorem length_locations (es : List Extent) : (locations es).length = extentBytes es := by
  induction es with
  | nil => rfl
  | cons e es ih => simp [ih]

theorem locations_flatMap (records : List TensorRecord) :
    locations (records.flatMap TensorRecord.extents) =
      records.flatMap fun r => locations r.extents := by
  unfold locations
  rw [List.flatMap_assoc]

theorem count_span (i o n : Nat) (loc : Loc) :
    (span i o n).count loc = if i = loc.1 then hit (o, n) loc.2 else 0 := by
  have hnodup : (span i o n).Nodup :=
    (List.nodup_range).map fun k k' h => by simpa using h
  rw [hnodup.count]
  unfold hit
  by_cases hi : i = loc.1
  · simp [mem_span, hi]
  · simp [mem_span, hi, Ne.symm hi]

/-- A location is held as often as the extents cover it. -/
theorem count_locations (es : List Extent) (loc : Loc) :
    (locations es).count loc = cover (ownedBy loc.1 es) loc.2 := by
  induction es with
  | nil => rfl
  | cons e es ih => rw [locations_cons, List.count_append, count_span, ih, cover_ownedBy_cons]

/-! ## Walking a range -/

theorem walkFrom_zero (es : List Extent) (cursor offset : Nat) :
    walkFrom es cursor offset 0 = [] := by
  induction es generalizing cursor with
  | nil => rfl
  | cons e es ih =>
    simp [walkFrom, ih]

theorem walkFrom_spec (es : List Extent) (cursor offset remaining : Nat)
    (hcursor : cursor ≤ offset) :
    pieceLocations (walkFrom es cursor offset remaining) =
      ((locations es).drop (offset - cursor)).take remaining := by
  induction es generalizing cursor offset remaining with
  | nil => simp [walkFrom, pieceLocations, locations]
  | cons e es ih =>
    rw [walkFrom, locations_cons, List.drop_append, length_span, drop_span]
    by_cases hpast : offset ≥ cursor + e.nbytes
    · -- The range starts behind this extent.
      have hnone : e.nbytes - (offset - cursor) = 0 := by omega
      have hdist : offset - (cursor + e.nbytes) = offset - cursor - e.nbytes := by omega
      rw [if_pos hpast, ih _ _ _ hpast, hnone, hdist]
      rfl
    · have hzero : offset - cursor - e.nbytes = 0 := by omega
      rw [if_neg hpast, hzero, List.drop_zero, List.take_append, take_span, length_span]
      by_cases hrem : remaining = 0
      · subst hrem
        simp [walkFrom_zero, pieceLocations, span]
      · rw [if_neg (by omega)]
        by_cases hlast : remaining - min remaining (e.nbytes - (offset - cursor)) = 0
        · -- The range ends in this extent.
          have hle : remaining - (e.nbytes - (offset - cursor)) = 0 := by omega
          rw [if_pos hlast, hle]
          simp [pieceLocations]
        · have hend : offset + (e.nbytes - (offset - cursor)) = cursor + e.nbytes := by omega
          have hmin : min remaining (e.nbytes - (offset - cursor)) =
              e.nbytes - (offset - cursor) := by omega
          have hih := ih (cursor + e.nbytes) (cursor + e.nbytes)
            (remaining - (e.nbytes - (offset - cursor))) (Nat.le_refl _)
          rw [if_neg hlast, hmin, hend]
          rw [Nat.sub_self, List.drop_zero] at hih
          rw [← hih]
          rfl

theorem walk_spec (record : TensorRecord) (offset size : Nat) :
    pieceLocations (walk record offset size) = ((locations record.extents).drop offset).take size :=
  walkFrom_spec record.extents 0 offset size (Nat.zero_le _)

/-! ## Slab contents -/

def byteAt (a : Allocator (List Byte)) (loc : Loc) : Byte :=
  match a.slabs[loc.1]? with
  | some slab => slab.data.getD loc.2 0
  | none => 0

/-- A location inside a slab. -/
def Allocator.Valid (a : Allocator (List Byte)) (loc : Loc) : Prop :=
  ∃ slab, a.slabs[loc.1]? = some slab ∧ loc.2 < slab.data.length

/-- Every fake slab holds as many bytes as its size says. -/
def Allocator.Filled (a : Allocator (List Byte)) : Prop :=
  ∀ slab ∈ a.slabs, slab.data.length = slab.size

/-- What `a'` has after `bytes` were written to `locs`. -/
structure Wrote (a a' : Allocator (List Byte)) (locs : List Loc) (bytes : List Byte) : Prop where
  layout : a' = { a with slabs := a'.slabs }
  lengths : a'.slabs.map (fun slab => (slab.size, slab.data.length)) =
    a.slabs.map fun slab => (slab.size, slab.data.length)
  written : ∀ (k : Nat) (loc : Loc) (b : Byte), locs[k]? = some loc → bytes[k]? = some b →
    byteAt a' loc = b
  frame : ∀ loc, loc ∉ locs → byteAt a' loc = byteAt a loc

theorem Wrote.refl (a : Allocator (List Byte)) : Wrote a a [] [] :=
  ⟨rfl, rfl, by simp, fun _ _ => rfl⟩

theorem Wrote.trans {a a' a'' : Allocator (List Byte)} {locs locs' : List Loc}
    {bytes bytes' : List Byte}
    (h : Wrote a a' locs bytes) (h' : Wrote a' a'' locs' bytes') (hlen : locs.length = bytes.length)
    (hdisj : ∀ loc ∈ locs, loc ∉ locs') : Wrote a a'' (locs ++ locs') (bytes ++ bytes') where
  layout := by
    rw [h'.layout, h.layout]
  lengths := h'.lengths.trans h.lengths
  written k loc b hloc hb := by
    by_cases hk : k < locs.length
    · rw [List.getElem?_append_left hk] at hloc
      rw [List.getElem?_append_left (hlen ▸ hk)] at hb
      rw [h'.frame loc (hdisj loc (List.mem_of_getElem? hloc))]
      exact h.written k loc b hloc hb
    · rw [List.getElem?_append_right (by omega)] at hloc
      rw [List.getElem?_append_right (by omega), ← hlen] at hb
      exact h'.written _ loc b hloc hb
  frame loc hloc := by
    rw [List.mem_append, not_or] at hloc
    rw [h'.frame loc hloc.2, h.frame loc hloc.1]

theorem Wrote.valid {a a' : Allocator (List Byte)} {locs : List Loc} {bytes : List Byte}
    (h : Wrote a a' locs bytes) {loc : Loc} (hloc : a.Valid loc) : a'.Valid loc := by
  obtain ⟨slab, hslab, hlt⟩ := hloc
  have hlen := congrArg (fun l => l[loc.1]?) h.lengths
  simp only [List.getElem?_map, hslab, Option.map_some, Option.map_eq_some_iff, Prod.mk.injEq]
    at hlen
  obtain ⟨slab', hslab', -, hlen'⟩ := hlen
  exact ⟨slab', hslab', by omega⟩

theorem run_writeSlab (a : Allocator (List Byte)) (i offset : Nat) (bytes : List Byte)
    (coherent : Bool)
    (hne : bytes ≠ []) (hvalid : ∀ loc ∈ span i offset bytes.length, a.Valid loc) :
    ∃ a', (writeSlab fakeIo i offset bytes coherent).run a = .ok () a' ∧
      Wrote a a' (span i offset bytes.length) bytes := by
  have hpos : 0 < bytes.length := List.length_pos_iff.mpr hne
  obtain ⟨slab, hslab, hlt⟩ := hvalid (i, offset + bytes.length - 1)
    (mem_span.mpr ⟨rfl, by simp only; omega, by simp only; omega⟩)
  have hfit : offset + bytes.length ≤ slab.data.length := by
    simp only at hlt
    omega
  obtain ⟨hi, hget⟩ := List.getElem?_eq_some_iff.mp hslab
  let data := fakeIo.write slab.data offset bytes coherent
  have hdata : ∀ b, data[b]? =
      if offset ≤ b ∧ b < offset + bytes.length then bytes[b - offset]? else slab.data[b]? :=
    Words.getElem?_splice slab.data bytes hfit
  have hbyte : ∀ loc : Loc, byteAt { a with slabs := a.slabs.set i { slab with data } } loc =
      if loc.1 = i then data.getD loc.2 0 else byteAt a loc := by
    intro loc
    unfold byteAt
    by_cases hloc : loc.1 = i
    · rw [hloc, List.getElem?_set_self hi, if_pos rfl]
    · rw [if_neg hloc, List.getElem?_set_ne (Ne.symm hloc)]
  refine ⟨{ a with slabs := a.slabs.set i { slab with data } }, ?_, rfl, ?_, ?_, ?_⟩
  · simp only [writeSlab, getSlab, EStateM.run_bind, EStateM.run_get, hslab, EStateM.run_pure,
      EStateM.run_modify, data]
  · have hlen : data.length = slab.data.length := by
      simp only [data, fakeIo, List.length_append, List.length_take, List.length_drop]
      omega
    have hi' : i < (a.slabs.map fun slab => (slab.size, slab.data.length)).length := by
      simpa using hi
    have hsame : (slab.size, slab.data.length) =
        (a.slabs.map fun slab => (slab.size, slab.data.length))[i] := by
      rw [List.getElem_map, hget]
    rw [List.map_set, hlen, hsame, List.set_getElem_self]
  · -- the bytes written are there
    intro k loc b hloc hb
    have hk : k < bytes.length := (List.getElem?_eq_some_iff.mp hb).1
    obtain rfl : (i, offset + k) = loc := by
      simpa [span, List.getElem?_range hk] using hloc
    rw [hbyte, if_pos rfl, List.getD_eq_getElem?_getD, hdata, if_pos (by simp only; omega)]
    simp only [Nat.add_sub_cancel_left]
    rw [hb, Option.getD_some]
  · -- and every other byte is as it was
    intro loc hloc
    rw [hbyte]
    split
    · next hi' =>
      rw [List.getD_eq_getElem?_getD, hdata, if_neg fun h => hloc (mem_span.mpr ⟨hi', h⟩)]
      simp only [byteAt, hi', hslab, List.getD_eq_getElem?_getD]
    · rfl

theorem run_writePieces {a : Allocator (List Byte)} {pieces : List (Extent × Nat × Nat)}
    {view : List Byte} (coherent : Bool) (hlen : (pieceLocations pieces).length = view.length)
    (hpos : ∀ p ∈ pieces, 0 < p.2.2) (hvalid : ∀ loc ∈ pieceLocations pieces, a.Valid loc)
    (hnodup : (pieceLocations pieces).Nodup) :
    ∃ a', (writePieces fakeIo coherent pieces view).run a = .ok () a' ∧
      Wrote a a' (pieceLocations pieces) view := by
  induction pieces generalizing a view with
  | nil =>
    obtain rfl : view = [] := List.length_eq_zero_iff.mp hlen.symm
    exact ⟨a, rfl, Wrote.refl a⟩
  | cons piece rest ih =>
    obtain ⟨extent, localOffset, count⟩ := piece
    have hsplit : pieceLocations ((extent, localOffset, count) :: rest) =
        span extent.slabIndex (extent.offset + localOffset) count ++ pieceLocations rest := rfl
    rw [hsplit] at hlen hvalid hnodup
    rw [List.length_append, length_span] at hlen
    obtain ⟨-, hrest, hdisj⟩ := List.nodup_append.mp hnodup
    have hcount : (view.take count).length = count := by rw [List.length_take]; omega
    have hcpos : 0 < count := hpos _ List.mem_cons_self
    obtain ⟨a₁, hrun, hwrote⟩ := run_writeSlab a extent.slabIndex
      (extent.offset + localOffset) (view.take count) coherent
      (List.ne_nil_of_length_pos (by omega))
      (by rw [hcount]; exact fun loc hloc => hvalid loc (List.mem_append_left _ hloc))
    rw [hcount] at hwrote
    obtain ⟨a₂, hrun', hwrote'⟩ := @ih a₁ (view.drop count)
      (by rw [List.length_drop]; omega) (fun p hp => hpos p (List.mem_cons_of_mem _ hp))
      (fun loc hloc => hwrote.valid (hvalid loc (List.mem_append_right _ hloc))) hrest
    refine ⟨a₂, ?_, ?_⟩
    · simp only [writePieces, EStateM.run_bind, hrun, hrun']
    · have htrans := hwrote.trans hwrote' (by rw [length_span, hcount])
        (fun loc h1 h2 => hdisj loc h1 loc h2 rfl)
      rwa [List.take_append_drop] at htrans

theorem run_readSlab (a : Allocator (List Byte)) (i offset size : Nat) (coherent : Bool)
    (hpos : 0 < size) (hvalid : ∀ loc ∈ span i offset size, a.Valid loc) :
    (readSlab fakeIo i offset size coherent).run a =
      .ok ((span i offset size).map (byteAt a)) a := by
  obtain ⟨slab, hslab, hlt⟩ := hvalid (i, offset + size - 1)
    (mem_span.mpr ⟨rfl, by simp only; omega, by simp only; omega⟩)
  simp only at hlt
  obtain ⟨hi, hget⟩ := List.getElem?_eq_some_iff.mp hslab
  have hsame : a.slabs.set i slab = a.slabs := by rw [← hget, List.set_getElem_self]
  have hbytes : (slab.data.drop offset).take size = (span i offset size).map (byteAt a) := by
    apply List.ext_getElem?
    intro k
    rw [List.getElem?_take, List.getElem?_drop, List.getElem?_map]
    by_cases hk : k < size
    · have hin : offset + k < slab.data.length := by omega
      rw [if_pos hk]
      simp [span, List.getElem?_range hk, byteAt, hslab, hin]
    · rw [if_neg hk, List.getElem?_eq_none (by rw [length_span]; omega)]
      rfl
  simp only [readSlab, getSlab, EStateM.run_bind, EStateM.run_get, hslab, EStateM.run_pure,
    EStateM.run_modify, fakeIo, hbytes, hsame]

theorem run_readPieces {a : Allocator (List Byte)} {pieces : List (Extent × Nat × Nat)}
    (coherent : Bool)
    (hpos : ∀ p ∈ pieces, 0 < p.2.2) (hvalid : ∀ loc ∈ pieceLocations pieces, a.Valid loc) :
    (readPieces fakeIo coherent pieces).run a = .ok ((pieceLocations pieces).map (byteAt a)) a := by
  induction pieces with
  | nil => rfl
  | cons piece rest ih =>
    obtain ⟨extent, localOffset, count⟩ := piece
    have hsplit : pieceLocations ((extent, localOffset, count) :: rest) =
        span extent.slabIndex (extent.offset + localOffset) count ++ pieceLocations rest := rfl
    rw [hsplit] at hvalid ⊢
    have hread := run_readSlab a extent.slabIndex (extent.offset + localOffset) count coherent
      (hpos _ List.mem_cons_self) fun loc hloc => hvalid loc (List.mem_append_left _ hloc)
    have hrest := ih (fun p hp => hpos p (List.mem_cons_of_mem _ hp))
      fun loc hloc => hvalid loc (List.mem_append_right _ hloc)
    simp only [readPieces, EStateM.run_bind, hread, hrest, EStateM.run_pure, List.map_append]

theorem walkFrom_pos (es : List Extent) (cursor offset remaining : Nat) :
    ∀ p ∈ walkFrom es cursor offset remaining, 0 < p.2.2 := by
  induction es generalizing cursor offset remaining with
  | nil => simp [walkFrom]
  | cons e es ih =>
    simp only [walkFrom]
    split
    · exact ih _ _ _
    · split
      · exact ih _ _ _
      · intro p hp
        cases hp with
        | head => simp only; omega
        | tail _ hp =>
          split at hp
          · cases hp
          · exact ih _ _ _ p hp

/-! ## Tensor contents -/

/-- The bytes of a tensor. -/
def contents (a : Allocator (List Byte)) (r : TensorRecord) : List Byte :=
  (locations r.extents).map (byteAt a)

theorem Allocator.Inv.length_contents {a : Allocator (List Byte)} (ha : a.Inv) {r : TensorRecord}
    (hr : r ∈ a.records) : (contents a r).length = r.nbytes := by
  rw [contents, List.length_map, length_locations, ha.sums r hr]

theorem Allocator.Inv.nodup_locations {σ : Type} {a : Allocator σ} (ha : a.Inv) :
    (locations a.liveExtents).Nodup := by
  apply List.nodup_iff_count_le_one.mpr
  intro loc
  rw [count_locations]
  have hcover := ha.partition.cover loc.1 loc.2
  cases hi : a.slabs[loc.1]? with
  | none =>
    have hnone : (emptyFree a.slabs).getD loc.1 [] = [] := by simp [emptyFree, hi]
    rw [hnone, cover_nil] at hcover
    omega
  | some slab =>
    have hinside := ha.free_inside hi loc.2
    rw [cover_append] at hinside
    split at hinside <;> omega

/-- The bytes of live tensors are bytes of slabs. -/
theorem Allocator.Inv.inside {σ : Type} {a : Allocator σ} (ha : a.Inv) {loc : Loc}
    (hloc : loc ∈ locations a.liveExtents) :
    ∃ slab, a.slabs[loc.1]? = some slab ∧ loc.2 < slab.size := by
  have hcount := List.count_pos_iff.mpr hloc
  rw [count_locations] at hcount
  have hcover := ha.partition.cover loc.1 loc.2
  cases hi : a.slabs[loc.1]? with
  | none =>
    have hnone : (emptyFree a.slabs).getD loc.1 [] = [] := by simp [emptyFree, hi]
    rw [hnone, cover_nil] at hcover
    omega
  | some slab =>
    have hinside := ha.free_inside hi loc.2
    rw [cover_append] at hinside
    split at hinside
    · next hlt => exact ⟨slab, rfl, hlt⟩
    · omega

theorem Allocator.Inv.valid {a : Allocator (List Byte)} (ha : a.Inv) (hfill : a.Filled) {loc : Loc}
    (hloc : loc ∈ locations a.liveExtents) : a.Valid loc := by
  obtain ⟨slab, hslab, hlt⟩ := ha.inside hloc
  exact ⟨slab, hslab, by rwa [hfill slab (List.mem_of_getElem? hslab)]⟩

theorem mem_liveLocations {σ : Type} {a : Allocator σ} {r : TensorRecord}
    (hr : r ∈ a.records) {loc : Loc}
    (hloc : loc ∈ locations r.extents) : loc ∈ locations a.liveExtents := by
  unfold Allocator.liveExtents
  rw [locations_flatMap]
  exact List.mem_flatMap.mpr ⟨r, hr, hloc⟩

/-- Different live tensors have no byte in common, and no byte of a tensor is in it twice. -/
theorem Allocator.Inv.separate {σ : Type} {a : Allocator σ} (ha : a.Inv) {r : TensorRecord}
    (hr : r ∈ a.records) : (locations r.extents).Nodup ∧
      ∀ r' ∈ a.records, r' ≠ r → ∀ loc ∈ locations r'.extents, loc ∉ locations r.extents := by
  have hnodup := ha.nodup_locations
  unfold Allocator.liveExtents at hnodup
  rw [locations_flatMap] at hnodup
  obtain ⟨heach, hpair⟩ := List.nodup_flatMap.mp hnodup
  have hsymm : Std.Symm (Function.onFun List.Disjoint fun r : TensorRecord =>
      locations r.extents) :=
    ⟨fun _ _ h _ h1 h2 => h h2 h1⟩
  exact ⟨heach r hr, fun r' hr' hne loc h1 h2 => hpair.forall hr' hr hne h1 h2⟩

theorem Allocator.InRange.mem {a : Allocator (List Byte)} {handle offset size : Int}
    {r : TensorRecord}
    (h : a.InRange handle offset size r) : r ∈ a.records := (lookup_eq_some h.1).1

theorem mem_walkLocations {r : TensorRecord} {offset size : Nat} {loc : Loc}
    (h : loc ∈ pieceLocations (walk r offset size)) : loc ∈ locations r.extents := by
  rw [walk_spec] at h
  exact List.mem_of_mem_drop (List.mem_of_mem_take h)

/-- A read in range returns the bytes of the tensor. -/
theorem run_read {a : Allocator (List Byte)} (ha : a.Inv) (hfill : a.Filled)
    {handle offset size : Int}
    {r : TensorRecord} (hrange : a.InRange handle offset size r) (coherent : Bool) :
    (read fakeIo handle offset size coherent).run a =
      .ok (((contents a r).drop offset.toNat).take size.toNat) a := by
  rcases run_validateRange a handle offset size with ⟨_, _, hvalidate⟩ | ⟨hnone, _⟩
  · have hpieces := @run_readPieces a (walk r offset.toNat size.toNat) coherent
      (walkFrom_pos _ _ _ _)
      (fun loc hloc => ha.valid hfill (mem_liveLocations hrange.mem (mem_walkLocations hloc)))
    rw [walk_spec] at hpieces
    simp only [read, EStateM.run_bind, hvalidate, run_getRecord_some hrange.1, hpieces, contents,
      List.map_take, List.map_drop]
  · exact absurd ⟨r, hrange⟩ hnone

theorem call_read {a : Allocator (List Byte)} (ha : a.Inv) (hfill : a.Filled)
    {handle offset size : Int}
    {r : TensorRecord} (hrange : a.InRange handle offset size r) (coherent : Bool) :
    call fakeIo a (.read handle offset size coherent) =
      (.ok (.bytes (((contents a r).drop offset.toNat).take size.toNat)), a) := by
  simp only [call, exec, run_map_prog, run_read ha hfill hrange]

/-- A write in range replaces the bytes of its range, and no byte of another tensor. -/
theorem run_write {a : Allocator (List Byte)} (ha : a.Inv) (hfill : a.Filled) {handle offset : Int}
    {data : List Byte} {r : TensorRecord} (hrange : a.InRange handle offset data.length r)
    (coherent : Bool) :
    ∃ a', (write fakeIo handle offset data coherent).run a = .ok () a' ∧
      Wrote a a' (((locations r.extents).drop offset.toNat).take data.length) data := by
  have hmem := hrange.mem
  rcases run_validateRange a handle offset data.length with ⟨_, _, hvalidate⟩ | ⟨hnone, _⟩
  · have hwalk := walk_spec r offset.toNat data.length
    have hlen : (pieceLocations (walk r offset.toNat data.length)).length = data.length := by
      have hsum := ha.sums r hmem
      obtain ⟨-, h1, -, h2⟩ := hrange
      rw [hwalk, List.length_take, List.length_drop, length_locations, hsum]
      omega
    have hnodup : (pieceLocations (walk r offset.toNat data.length)).Nodup := by
      rw [hwalk]
      exact (((ha.separate hmem).1.sublist (List.drop_sublist _ _)).sublist (List.take_sublist _ _))
    obtain ⟨a', hrun, hwrote⟩ := run_writePieces coherent hlen (walkFrom_pos _ _ _ _)
      (fun loc hloc => ha.valid hfill (mem_liveLocations hmem (mem_walkLocations hloc))) hnodup
    rw [hwalk] at hwrote
    refine ⟨a', ?_, hwrote⟩
    simp only [write, EStateM.run_bind, hvalidate, run_getRecord_some hrange.1, hrun]
  · exact absurd ⟨r, hrange⟩ hnone

theorem call_write {a : Allocator (List Byte)} (ha : a.Inv) (hfill : a.Filled) {handle offset : Int}
    {data : List Byte} {r : TensorRecord} (hrange : a.InRange handle offset data.length r)
    (coherent : Bool) :
    ∃ a', call fakeIo a (.write handle offset data coherent) = (.ok .none, a') ∧
      Wrote a a' (((locations r.extents).drop offset.toNat).take data.length) data := by
  obtain ⟨a', hrun, hwrote⟩ := run_write ha hfill hrange coherent
  refine ⟨a', ?_, hwrote⟩
  simp only [call, exec, run_map_prog, hrun]

/-- A read or write out of range raises `AllocatorError` and changes nothing. -/
theorem call_outOfRange {a : Allocator (List Byte)} {handle offset : Int} (coherent : Bool) :
    (∀ size, (¬ ∃ r, a.InRange handle offset size r) →
      ∃ code message, call fakeIo a (.read handle offset size coherent) =
        (.error (.allocator code message), a)) ∧
    ∀ data : List Byte, (¬ ∃ r, a.InRange handle offset data.length r) →
      ∃ code message, call fakeIo a (.write handle offset data coherent) =
        (.error (.allocator code message), a) := by
  constructor
  · intro size hnone
    rcases run_validateRange a handle offset size with ⟨r, hr, _⟩ | ⟨_, code, message, hrun⟩
    · exact absurd ⟨r, hr⟩ hnone
    · exact ⟨code, message, by simp only [call, exec, run_map_prog, read, EStateM.run_bind, hrun]⟩
  · intro data hnone
    rcases run_validateRange a handle offset data.length with ⟨r, hr, _⟩ | ⟨_, code, message, hrun⟩
    · exact absurd ⟨r, hr⟩ hnone
    · exact ⟨code, message, by simp only [call, exec, run_map_prog, write, EStateM.run_bind, hrun]⟩

/-! ## Histories of a byte -/

/-- A byte of a tensor after one call: only a write to the tensor that covers its
    position changes it. -/
def overwrite (handle : Int) (pos : Nat) (b : Byte) : Call × Except Err Value → Byte
  | (.write h offset data _, .ok _) =>
    if h = handle ∧ offset ≤ pos then data.getD (pos - offset.toNat) b else b
  | _ => b

/-- The byte last written to a position of a tensor in a history, `b` if none was. -/
def lastByte (handle : Int) (pos : Nat) (b : Byte)
    (history : List (Call × Except Err Value)) : Byte :=
  history.foldl (overwrite handle pos) b

theorem contents_congr {a a' : Allocator (List Byte)} (h : a'.slabs = a.slabs) (r : TensorRecord) :
    contents a' r = contents a r := by
  unfold contents byteAt
  rw [h]

/-- What a call leaves of the slabs, seen from one live tensor. -/
structure Keeps (a a' : Allocator (List Byte)) (c : Call) (out : Except Err Value) : Prop where
  filled : a'.Filled
  contents : ∀ r ∈ a.records, ∀ pos : Nat,
    (contents a' r)[pos]? = (contents a r)[pos]?.map fun b => overwrite r.handle pos b (c, out)

theorem Keeps.of_slabs {a a' : Allocator (List Byte)} {c : Call} {out : Except Err Value}
    (hfill : a.Filled)
    (hslabs : a'.slabs = a.slabs) (hover : ∀ handle pos b, overwrite handle pos b (c, out) = b) :
    Keeps a a' c out where
  filled := by
    unfold Allocator.Filled
    rw [hslabs]
    exact hfill
  contents r _ pos := by
    rw [contents_congr hslabs]
    simp only [hover, Option.map_id']

theorem Wrote.filled {a a' : Allocator (List Byte)} {locs : List Loc} {bytes : List Byte}
    (h : Wrote a a' locs bytes) (hfill : a.Filled) : a'.Filled := by
  intro slab hslab
  have hmem : (slab.size, slab.data.length) ∈ a.slabs.map fun slab =>
    (slab.size, slab.data.length) :=
    h.lengths ▸ List.mem_map_of_mem hslab
  obtain ⟨slab', hslab', heq⟩ := List.mem_map.mp hmem
  obtain ⟨h1, h2⟩ := Prod.mk.inj heq
  rw [← h1, ← h2]
  exact hfill slab' hslab'

theorem keeps_write {a : Allocator (List Byte)} (ha : a.Inv) (hfill : a.Filled)
    {handle offset : Int}
    {data : List Byte} {r : TensorRecord} (hrange : a.InRange handle offset data.length r)
    (coherent : Bool) :
    Keeps a (call fakeIo a (.write handle offset data coherent)).2
      (.write handle offset data coherent)
      (call fakeIo a (.write handle offset data coherent)).1 := by
  obtain ⟨a', hcall, hwrote⟩ := call_write ha hfill hrange coherent
  rw [hcall]
  refine ⟨hwrote.filled hfill, fun r' hr' pos => ?_⟩
  obtain ⟨hmem, hhandle⟩ := lookup_eq_some hrange.1
  obtain ⟨-, h0, -, hend⟩ := hrange
  have hsum := ha.sums r hmem
  obtain ⟨hnodup, hsep⟩ := ha.separate hmem
  unfold contents
  rw [List.getElem?_map, List.getElem?_map]
  cases hloc : (locations r'.extents)[pos]? with
  | none => rfl
  | some loc =>
    simp only [Option.map_some, Option.some.injEq]
    have hin : loc ∈ locations r'.extents := List.mem_of_getElem? hloc
    by_cases hsame : r' = r
    · subst hsame
      by_cases hpos : offset ≤ pos ∧ pos < offset + data.length
      · -- The position is in the range of the write.
        obtain ⟨hlo, hhi⟩ := hpos
        have hk : pos - offset.toNat < data.length := by omega
        have hat : (((locations r'.extents).drop offset.toNat).take data.length)[pos -
            offset.toNat]? = some loc := by
          rw [List.getElem?_take, if_pos hk, List.getElem?_drop,
            Nat.add_sub_cancel' (by omega), hloc]
        rw [hwrote.written _ loc _ hat (List.getElem?_eq_getElem hk)]
        simp only [overwrite]
        rw [if_pos ⟨hhandle.symm, hlo⟩, List.getD_eq_getElem?_getD, List.getElem?_eq_getElem hk,
          Option.getD_some]
      · have hout : loc ∉ ((locations r'.extents).drop offset.toNat).take data.length := by
          intro hmem'
          obtain ⟨k, hk⟩ := List.mem_iff_getElem?.mp hmem'
          rw [List.getElem?_take] at hk
          split at hk
          · next hlt =>
            rw [List.getElem?_drop] at hk
            have :=
              (List.getElem?_inj (List.getElem?_eq_some_iff.mp hk).1 hnodup).mp (hk.trans hloc.symm)
            omega
          · cases hk
        rw [hwrote.frame loc hout]
        simp only [overwrite]
        split
        · next hlo =>
          rw [List.getD_eq_getElem?_getD, List.getElem?_eq_none (by omega), Option.getD_none]
        · rfl
    · -- another tensor has none of the locations that are written
      have hout : loc ∉ ((locations r.extents).drop offset.toNat).take data.length := fun h =>
        hsep r' hr' hsame loc hin (List.mem_of_mem_drop (List.mem_of_mem_take h))
      have hne : handle ≠ r'.handle := by
        intro heq
        have hl := ha.lookup hr'
        rw [← heq, ← hhandle, ha.lookup hmem] at hl
        exact hsame (Option.some.inj hl).symm
      rw [hwrote.frame loc hout]
      simp only [overwrite]
      rw [if_neg fun h => hne h.1]

theorem keeps_call {a : Allocator (List Byte)} (ha : a.Inv) (hfill : a.Filled) (c : Call) :
    Keeps a (call fakeIo a c).2 c (call fakeIo a c).1 := by
  cases c with
  | allocate nbytes attrs alignment =>
    exact Keeps.of_slabs hfill ((ha.effect fakeIo _).slabs rfl) fun _ _ _ => rfl
  | free handle =>
    exact Keeps.of_slabs hfill ((ha.effect fakeIo _).slabs rfl) fun _ _ _ => rfl
  | write handle offset data coherent =>
    by_cases hrange : ∃ r, a.InRange handle offset data.length r
    · obtain ⟨r, hr⟩ := hrange
      exact keeps_write ha hfill hr coherent
    · obtain ⟨code, message, hcall⟩ := (call_outOfRange coherent).2 data hrange
      rw [hcall]
      exact Keeps.of_slabs hfill rfl fun _ _ _ => rfl
  | read handle offset size coherent =>
    refine Keeps.of_slabs hfill ?_ fun _ _ _ => rfl
    by_cases hrange : ∃ r, a.InRange handle offset size r
    · obtain ⟨r, hr⟩ := hrange
      rw [call_read ha hfill hr]
    · obtain ⟨code, message, hcall⟩ := (call_outOfRange coherent).1 size hrange
      rw [hcall]

/-- The live tensors after a step are old ones or the one it allocated. -/
theorem Effect.live {a a' : Allocator (List Byte)} {c : Call} {out : Except Err Value}
    (h : Effect a c out a') {r : TensorRecord} (hr : r ∈ a'.records) :
    r ∈ a.records ∨ out = .ok (.record r) ∧ ∃ nbytes attrs alignment,
      c = .allocate nbytes attrs alignment := by
  cases h with
  | failed => exact Or.inl hr
  | @allocated nbytes attrs alignment free' extents hnonneg hplace hsum =>
    rcases List.mem_append.mp hr with hold | hnew
    · exact Or.inl hold
    · obtain rfl := List.mem_singleton.mp hnew
      exact Or.inr ⟨rfl, nbytes, attrs, alignment, rfl⟩
  | freed => exact Or.inl (List.mem_of_mem_filter hr)
  | accessed => exact Or.inl hr

/-- The bytes of a live tensor after a sequence of calls, from those it had at the
    start or when it was allocated. -/
theorem calls_contents {a : Allocator (List Byte)} (ha : a.Inv) (hfill : a.Filled) (cs : List Call)
    {r : TensorRecord} (hr : r ∈ (calls fakeIo a cs).2.records) :
    (r ∈ a.records ∧ ∀ pos : Nat, (contents (calls fakeIo a cs).2 r)[pos]? =
      (contents a r)[pos]?.map fun b => lastByte r.handle pos b (cs.zip (calls fakeIo a cs).1)) ∨
    ∃ k nbytes attrs alignment, cs[k]? = some (.allocate nbytes attrs alignment) ∧
      (calls fakeIo a cs).1[k]? = some (.ok (.record r)) ∧
      ∀ pos : Nat, (contents (calls fakeIo a cs).2 r)[pos]? =
        (contents (calls fakeIo a (cs.take k)).2 r)[pos]?.map fun b =>
          lastByte r.handle pos b ((cs.zip (calls fakeIo a cs).1).drop (k + 1)) := by
  induction cs generalizing a with
  | nil => exact Or.inl ⟨hr, fun pos => by simp [lastByte, calls]⟩
  | cons c cs ih =>
    have heffect := ha.effect fakeIo c
    have hkeeps := keeps_call ha hfill c
    rcases ih (heffect.inv ha) hkeeps.filled hr with ⟨hmid, hcont⟩ |
      ⟨k, nbytes, attrs, alignment, hc, hout, hcont⟩
    · rcases heffect.live hmid with hold | ⟨hnew, nbytes, attrs, alignment, rfl⟩
      · refine Or.inl ⟨hold, fun pos => ?_⟩
        simp only [calls, List.zip_cons_cons]
        rw [hcont pos, hkeeps.contents r hold pos, Option.map_map]
        rfl
      · refine Or.inr ⟨0, nbytes, attrs, alignment, rfl, by simp [calls, hnew], fun pos => ?_⟩
        have hslabs := heffect.slabs rfl
        rw [contents_congr hslabs] at hcont
        exact hcont pos
    · exact Or.inr ⟨k + 1, nbytes, attrs, alignment, hc, hout, hcont⟩

theorem calls_filled {a : Allocator (List Byte)} (ha : a.Inv) (hfill : a.Filled) (cs : List Call) :
    (calls fakeIo a cs).2.Filled := by
  induction cs generalizing a with
  | nil => exact hfill
  | cons c cs ih => exact ih ((ha.effect fakeIo c).inv ha) (keeps_call ha hfill c).filled

/-- Over every sequence of calls, each live tensor is an array of its own: reads in
    range return the bytes last written to it, or the slab bytes it was allocated
    with, writes in range leave all other tensors alone, and reads and writes out
    of range raise and change nothing. -/
theorem allocator_refines_arrays {sizes : List Nat} {defaultAlignment : Int}
    {a₀ : Allocator (List Byte)}
    (hinit : Allocator.init (sizes.map fakeSlab) defaultAlignment = .ok a₀) (cs : List Call) :
    let outs := (calls fakeIo a₀ cs).1
    let a := (calls fakeIo a₀ cs).2
    (∀ handle offset size coherent r, a.InRange handle offset size r →
      ∃ bytes, call fakeIo a (.read handle offset size coherent) = (.ok (.bytes bytes), a) ∧
        (bytes.length : Int) = size ∧
        ∃ k nbytes attrs alignment, cs[k]? = some (.allocate nbytes attrs alignment) ∧
          outs[k]? = some (.ok (.record r)) ∧
          ∀ j : Nat, j < size → ∃ b,
          (contents (calls fakeIo a₀ (cs.take k)).2 r)[offset.toNat + j]? = some b ∧
            bytes[j]? = some (lastByte handle (offset.toNat + j) b ((cs.zip outs).drop (k + 1)))) ∧
    (∀ handle offset data coherent r, a.InRange handle offset data.length r →
      (call fakeIo a (.write handle offset data coherent)).1 = .ok .none ∧
      ∀ r' ∈ a.records, (r'.handle : Int) ≠ handle →
        contents (call fakeIo a (.write handle offset data coherent)).2 r' = contents a r') ∧
    (∀ handle offset size coherent, (¬ ∃ r, a.InRange handle offset size r) →
      ∃ code message, call fakeIo a (.read handle offset size coherent) =
        (.error (.allocator code message), a)) ∧
    ∀ handle offset coherent, ∀ data : List Byte, (¬ ∃ r, a.InRange handle offset data.length r) →
      ∃ code message,
        call fakeIo a (.write handle offset data coherent) =
          (.error (.allocator code message), a) := by
  intro outs a
  have hinv₀ := Allocator.Inv.init hinit
  have hinv : a.Inv := hinv₀.calls fakeIo cs
  have hstart : a₀.slabs = sizes.map fakeSlab ∧ a₀.records = [] := by
    unfold Allocator.init at hinit
    split at hinit
    · cases hinit
    · cases hinit
      exact ⟨rfl, rfl⟩
  have hfill₀ : a₀.Filled := by
    intro slab hslab
    rw [hstart.1] at hslab
    obtain ⟨size, -, rfl⟩ := List.mem_map.mp hslab
    simp [fakeSlab]
  have hfill : a.Filled := calls_filled hinv₀ hfill₀ cs
  refine ⟨?_, ?_, ?_, ?_⟩
  · intro handle offset size coherent r hrange
    have hmem := hrange.mem
    have hhandle := (lookup_eq_some hrange.1).2
    have hlen := hinv.length_contents hmem
    refine ⟨_, call_read hinv hfill hrange coherent, ?_, ?_⟩
    · obtain ⟨-, h1, h2, h3⟩ := hrange
      rw [List.length_take, List.length_drop, hlen]
      omega
    · rcases calls_contents hinv₀ hfill₀ cs hmem with
        ⟨hold, -⟩ | ⟨k, nbytes, attrs, alignment, hc, hout, hcont⟩
      · -- no record is older than the calls
        rw [hstart.2] at hold
        cases hold
      · refine ⟨k, nbytes, attrs, alignment, hc, hout, fun j hj => ?_⟩
        obtain ⟨-, h1, h2, h3⟩ := hrange
        have hlt : offset.toNat + j < (contents a r).length := by omega
        have hpos := hcont (offset.toNat + j)
        rw [List.getElem?_eq_getElem hlt] at hpos
        obtain ⟨b, hb, hlast⟩ := Option.map_eq_some_iff.mp hpos.symm
        refine ⟨b, hb, ?_⟩
        rw [List.getElem?_take, if_pos (by omega), List.getElem?_drop, List.getElem?_eq_getElem hlt,
          ← hhandle, hlast]
  · intro handle offset data coherent r hrange
    obtain ⟨a', hcall, -⟩ := call_write hinv hfill hrange coherent
    refine ⟨by rw [hcall], fun r' hr' hne => ?_⟩
    -- byte by byte: a write to another handle overwrites nothing of `r'`
    apply List.ext_getElem?
    intro pos
    rw [(keeps_write hinv hfill hrange coherent).contents r' hr' pos, hcall]
    have hkeep : ∀ b, overwrite r'.handle pos b (.write handle offset data coherent,
        .ok .none) = b := by
      intro b
      simp only [overwrite]
      rw [if_neg fun h => hne h.1.symm]
    simp only [hkeep, Option.map_id']
  · exact fun handle offset size coherent => (call_outOfRange coherent).1 size
  · exact fun handle offset coherent data => (call_outOfRange coherent).2 data

theorem allocator_refines_arrays_two_tensors :
    let a₀ : Allocator (List Byte) := ⟨[fakeSlab 32], [[(0, 32)]], [], 1, 8⟩
    let attrs : Attrs := ⟨[4], "u8", "tensor", "raw"⟩
    let cs : List Call :=
      [.allocate 4 attrs none, .write 1 2 [7, 9] true, .allocate 4 attrs none, .write 2 0 [1] true]
    let r : TensorRecord := ⟨1, 4, [4], "u8", "tensor", "raw", [⟨0, 0, 4⟩]⟩
    let a := (calls fakeIo a₀ cs).2
    a.InRange 1 1 3 r ∧ call fakeIo a (.read 1 1 3 true) = (.ok (.bytes [0, 7, 9]), a) := by
  intro a₀ attrs cs r a
  have hinit : Allocator.init ([32].map fakeSlab) 8 = .ok a₀ := rfl
  have hrange : a.InRange 1 1 3 r := ⟨by decide, by decide, by decide, by decide⟩
  obtain ⟨hread, -⟩ := allocator_refines_arrays hinit cs
  obtain ⟨bytes, hcall, hlen, k, nbytes, attrs', alignment, hk, hout, hbyte⟩ :=
    hread 1 1 3 true r hrange
  -- the tensor is the one that the first call has allocated
  have hsecond : (calls fakeIo a₀ cs).1[2]? =
      some (.ok (.record ⟨2, 4, [4], "u8", "tensor", "raw", [⟨0, 8, 4⟩]⟩)) := by decide
  have hfirst : k = 0 := by
    rcases k with _ | _ | _ | _ | k
    · rfl
    · cases hk
    · rw [hsecond] at hout
      exact absurd hout (by decide)
    · cases hk
    · cases hk
  subst hfirst
  have hzero : bytes[0]? = some 0 := by
    obtain ⟨b, hb, hlast⟩ := hbyte 0 (by decide)
    cases hb
    exact hlast.trans (by decide)
  have hone : bytes[1]? = some 7 := by
    obtain ⟨b, hb, hlast⟩ := hbyte 1 (by decide)
    cases hb
    exact hlast.trans (by decide)
  have htwo : bytes[2]? = some 9 := by
    obtain ⟨b, hb, hlast⟩ := hbyte 2 (by decide)
    cases hb
    exact hlast.trans (by decide)
  have hbytes : bytes = [0, 7, 9] := by
    refine List.ext_getElem? fun i => ?_
    rcases i with _ | _ | _ | i
    · exact hzero
    · exact hone
    · exact htwo
    · rw [List.getElem?_eq_none (by omega), List.getElem?_eq_none (Nat.le_add_left 3 i)]
  exact ⟨hrange, hbytes ▸ hcall⟩

end Board
