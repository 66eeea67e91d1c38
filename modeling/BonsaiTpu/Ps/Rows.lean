-- SUMMARY: Kernels that move rows: the loops of the C functions as stores into a buffer, pointers into slabs, and the loop over rows in Python.
import BonsaiTpu.Board.Writes
import BonsaiTpu.Ps.Kernels

/-!
# Rows

GET_ROWS and SET_ROWS have two forms. The bulk C function walks over all rows of three
contiguous buffers. The wrapper walks over the same rows itself, resolves each row to
its slab and calls C for this row only. If every call of the wrapper stores the row of
the bulk function at its place, the whole runs agree.
-/

namespace Ps

open Board (Err Prog Allocator TensorRecord fakeIo Wrote Touched rangeLocations contents)
open Words (Byte store)

/-! ## Integers in memory -/

/-- `int.from_bytes(bytes, "little", signed=True)`. -/
def fromBytesSigned (bytes : List Byte) : Int :=
  let value : Nat := bytes.foldr (fun b rest => b.toNat + 256 * rest) 0
  if 2 * value < 256 ^ bytes.length then (value : Int)
  else (value : Int) - (256 : Int) ^ bytes.length

/-- A load of a signed integer of `width` bytes; the machine is little-endian. -/
def loadSigned (mem : List Byte) (off width : Nat) : Option Int :=
  if off + width ≤ mem.length then some (fromBytesSigned ((mem.drop off).take width)) else none

/-- The place of an index of a Python slice. -/
def sliceIndex (length : Nat) (i : Int) : Nat :=
  if i < 0 then (i + length).toNat else min i.toNat length

/-- `bytes[start:stop]`. -/
def pySlice (bytes : List Byte) (start stop : Int) : List Byte :=
  (bytes.take (sliceIndex bytes.length stop)).drop (sliceIndex bytes.length start)

/-- A slice inside the bytes has what a load at its place sees. -/
theorem loadSigned_of_slice {bytes table : List Byte} {off width : Nat}
    (hin : off + width ≤ bytes.length) (hfront : bytes = table.take bytes.length) :
    loadSigned table off width = some (fromBytesSigned (pySlice bytes off (off + width))) := by
  have hle : bytes.length ≤ table.length := by
    have := congrArg List.length hfront
    rw [List.length_take] at this
    omega
  have hstart : sliceIndex bytes.length (off : Int) = off := by
    rw [sliceIndex, if_neg (by omega), Int.toNat_natCast]
    omega
  have hstop : sliceIndex bytes.length ((off : Int) + width) = off + width := by
    rw [sliceIndex, if_neg (by omega)]
    omega
  have hbytes : (table.drop off).take width = pySlice bytes off (off + width) := by
    rw [pySlice, hstart, hstop, hfront, List.take_take, List.drop_take]
    congr 1
    omega
  rw [loadSigned, if_pos (by omega), hbytes]

/-! ## Floats in memory -/

def le32 (w : BitVec 32) : List Byte :=
  [w.extractLsb' 0 8, w.extractLsb' 8 8, w.extractLsb' 16 8, w.extractLsb' 24 8]

def le16 (h : BitVec 16) : List Byte := [h.extractLsb' 0 8, h.extractLsb' 8 8]

def floatBytes (row : List (BitVec 32)) : List Byte := row.flatMap le32

def halfBytes (row : List (BitVec 16)) : List Byte := row.flatMap le16

theorem length_floatBytes (row : List (BitVec 32)) : (floatBytes row).length = 4 * row.length := by
  induction row with
  | nil => rfl
  | cons w row ih =>
    rw [floatBytes, List.flatMap_cons, List.length_append, ← floatBytes, ih, List.length_cons]
    have hlen : (le32 w).length = 4 := rfl
    omega

theorem length_halfBytes (row : List (BitVec 16)) : (halfBytes row).length = 2 * row.length := by
  induction row with
  | nil => rfl
  | cons h row ih =>
    rw [halfBytes, List.flatMap_cons, List.length_append, ← halfBytes, ih, List.length_cons]
    have hlen : (le16 h).length = 2 := rfl
    omega

/-! ## Loops over rows -/

/-- The indices of three nested loops, the last the innermost. -/
def triples (n2 n1 n0 : Nat) : List (Nat × Nat × Nat) :=
  (List.range n2).flatMap fun i2 => (List.range n1).flatMap fun i1 =>
    (List.range n0).map fun i0 => (i2, i1, i0)

theorem mem_triples {n2 n1 n0 : Nat} {t : Nat × Nat × Nat} :
    t ∈ triples n2 n1 n0 ↔ t.1 < n2 ∧ t.2.1 < n1 ∧ t.2.2 < n0 := by
  obtain ⟨i2, i1, i0⟩ := t
  simp only [triples, List.mem_flatMap, List.mem_map, List.mem_range, Prod.mk.injEq]
  constructor
  · rintro ⟨_, h2, _, h1, _, h0, rfl, rfl, rfl⟩
    exact ⟨h2, h1, h0⟩
  · rintro ⟨h2, h1, h0⟩
    exact ⟨i2, h2, i1, h1, i0, h0, rfl, rfl, rfl⟩

/-- The loop of a C function over rows: `row` yields the place and the bytes of a row, or
    the code the function returns instead. An access outside the buffers has no result. -/
def storeRows {ι : Type} (row : ι → Option (Except Int (Nat × List Byte))) :
    List ι → List Byte → Option (Int × List Byte)
  | [], dst => some (0, dst)
  | t :: ts, dst => do
    match ← row t with
    | .error rc => some (rc, dst)
    | .ok (off, bytes) => storeRows row ts (← store dst off bytes)

section

variable {ι : Type} {row : ι → Option (Except Int (Nat × List Byte))}

theorem storeRows_cons {t : ι} {ts : List ι} {dst dst' bytes : List Byte} {off : Nat}
    (hrow : row t = some (.ok (off, bytes)))
    (hstore : store dst off bytes = some dst') :
    storeRows row (t :: ts) dst = storeRows row ts dst' := by
  simp only [storeRows, hrow, hstore, Option.bind_eq_bind, Option.bind_some]

/-- Bytes outside of all rows stay. -/
theorem storeRows_frame {ts : List ι} {place : ι → Nat} {bytes : ι → List Byte}
    {dst out : List Byte} {rc : Int}
    (hrow : ∀ t ∈ ts, row t = some (.ok (place t, bytes t)))
    (h : storeRows row ts dst = some (rc, out)) {pos : Nat}
    (hout : ∀ t ∈ ts, ¬(place t ≤ pos ∧ pos < place t + (bytes t).length)) :
    out[pos]? = dst[pos]? := by
  induction ts generalizing dst with
  | nil =>
    cases h
    rfl
  | cons t ts ih =>
    simp only [storeRows, hrow t List.mem_cons_self, Option.bind_eq_bind, Option.bind_some] at h
    obtain ⟨dst', hstore, hrest⟩ := Option.bind_eq_some_iff.mp h
    have hin : place t + (bytes t).length ≤ dst.length := by
      by_contra hnot
      rw [store, if_neg hnot] at hstore
      cases hstore
    obtain ⟨out', hout', -, hget⟩ := Words.store_spec hin
    rw [hstore] at hout'
    cases hout'
    rw [ih (fun t' ht' => hrow t' (List.mem_cons_of_mem _ ht')) hrest fun t' ht' =>
      hout t' (List.mem_cons_of_mem _ ht'), hget, if_neg (hout t List.mem_cons_self)]

/-- A row that no other row overlaps is there at the end. -/
theorem storeRows_row {ts : List ι} {place : ι → Nat} {bytes : ι → List Byte}
    {dst out : List Byte} {rc : Int}
    (hrow : ∀ t ∈ ts, row t = some (.ok (place t, bytes t)))
    (h : storeRows row ts dst = some (rc, out)) {t : ι} (ht : t ∈ ts)
    (hapart : ∀ t' ∈ ts, t' ≠ t → place t' + (bytes t').length ≤ place t ∨
      place t + (bytes t).length ≤ place t')
    {k : Nat} (hk : k < (bytes t).length) : out[place t + k]? = (bytes t)[k]? := by
  induction ts generalizing dst with
  | nil => cases ht
  | cons s ts ih =>
    have hrest' := fun t' (ht' : t' ∈ ts) => hrow t' (List.mem_cons_of_mem s ht')
    simp only [storeRows, hrow s List.mem_cons_self, Option.bind_eq_bind, Option.bind_some] at h
    obtain ⟨dst', hstore, hrest⟩ := Option.bind_eq_some_iff.mp h
    by_cases hmem : t ∈ ts
    · exact ih hrest' hrest hmem fun t' ht' => hapart t' (List.mem_cons_of_mem s ht')
    · -- The row is stored here for the last time.
      obtain rfl : t = s := by
        rcases List.mem_cons.mp ht with rfl | hin
        · rfl
        · exact absurd hin hmem
      have hin : place t + (bytes t).length ≤ dst.length := by
        by_contra hnot
        rw [store, if_neg hnot] at hstore
        cases hstore
      obtain ⟨out', hout', -, hget⟩ := Words.store_spec hin
      rw [hstore] at hout'
      cases hout'
      rw [storeRows_frame hrest' hrest, hget, if_pos (by omega), Nat.add_sub_cancel_left]
      intro t' ht' hpos
      have hne : t' ≠ t := fun heq => hmem (heq ▸ ht')
      have := hapart t' (List.mem_cons_of_mem t ht') hne
      omega

end

/-! ## Pointers -/

/-- What a wrapper hands to C: an address in a slab, or a buffer of its own. -/
inductive Pointer where
  | slab (index offset : Nat)
  | buffer (bytes : List Byte)

/-- `slab_pointer`, with the slab and the offset in it for the address. `mapped` says which
    slabs are pynq-backed. -/
def slabPointer (a : Allocator (List Byte)) (mapped : Nat → Bool) (handle offset nbytes : Int) :
    Except Err (Nat × Nat) := do
  let view ← a.slabView handle offset nbytes
  if mapped view.1 then .ok view
  else .error (.allocator .invalidRequest "slab_pointer requires a pynq-backed slab")

/-- What stands for a C function that steps outside of the buffers it was handed. The function
    checks nothing there: it reads or writes other memory, or crashes. A run of the model ends. -/
def overrun : Err := .other "access outside of a buffer"

/-- The memory from `off` bytes behind a pointer on. -/
def Pointer.memory (p : Pointer) (off : Nat) : Prog (List Byte) (List Byte) :=
  match p with
  | .slab index offset => do
    let slab ← Board.getSlab index
    pure (slab.data.drop (offset + off))
  | .buffer bytes => pure (bytes.drop off)

/-- A C function leaves `out` in a slab from `offset` on. -/
def leaveInSlab (index offset : Nat) (out : List Byte) : Prog (List Byte) Unit := do
  let slab ← Board.getSlab index
  modify fun a =>
    { a with slabs := a.slabs.set index { slab with data := slab.data.take offset ++ out } }

section

variable {a : Allocator (List Byte)} {mapped : Nat → Bool} {r : TensorRecord} {offset nbytes : Nat}

theorem slabPointer_ok {view : Nat × Nat} (hview : a.slabView r.handle offset nbytes = .ok view) :
    slabPointer a mapped r.handle offset nbytes =
      if mapped view.1 then .ok view
      else .error (.allocator .invalidRequest "slab_pointer requires a pynq-backed slab") := by
  simp only [slabPointer, hview, bind, Except.bind]

theorem slabPointer_error {e : Err} (hview : a.slabView r.handle offset nbytes = .error e) :
    slabPointer a mapped r.handle offset nbytes = .error e := by
  simp only [slabPointer, hview, bind, Except.bind]

theorem run_memory_slab {view : Nat × Nat} (ha : a.Inv) (hfill : a.Filled) (hr : r ∈ a.records)
    (hpos : 0 < nbytes) (hview : a.slabView r.handle offset nbytes = .ok view) (off : Nat) :
    ∃ mem, ((Pointer.slab view.1 view.2).memory off).run a = .ok mem a ∧ nbytes - off ≤ mem.length ∧
      ∀ k, off + k < nbytes → mem[k]? = (contents a r)[offset + off + k]? := by
  obtain ⟨slab, hslab, hlen, htake⟩ := ha.slab_of_view hfill hr hpos hview
  refine ⟨slab.data.drop (view.2 + off), ?_, ?_, ?_⟩
  · simp only [Pointer.memory, Board.getSlab, EStateM.run_bind, EStateM.run_get, hslab,
      EStateM.run_pure]
  · rw [List.length_drop]
    omega
  · intro k hk
    have hget := congrArg (fun l => l[off + k]?) htake
    simp only [List.getElem?_take_of_lt hk, List.getElem?_drop] at hget
    rw [List.getElem?_drop, Nat.add_assoc, hget, Nat.add_assoc]

/-- A C function that stores `bytes` at a pointer into a slab. -/
theorem run_leaveInSlab {view : Nat × Nat} (ha : a.Inv) (hfill : a.Filled) (hr : r ∈ a.records)
    {bytes mem out : List Byte}
    (hpos : 0 < bytes.length) (hview : a.slabView r.handle offset bytes.length = .ok view)
    (hmem : ((Pointer.slab view.1 view.2).memory 0).run a = .ok mem a)
    (hout : store mem 0 bytes = some out) :
    ∃ a', (leaveInSlab view.1 view.2 out).run a = .ok () a' ∧
      Wrote a a' (rangeLocations r.extents offset bytes.length) bytes := by
  obtain ⟨-, -, hlocs⟩ := ha.slabView_ok hr hview
  obtain ⟨slab, hslab, hlen, -⟩ := ha.slab_of_view hfill hr hpos hview
  have hvalid : ∀ loc ∈ Board.span view.1 view.2 bytes.length, a.Valid loc := by
    intro loc hloc
    rw [← hlocs] at hloc
    exact ha.valid hfill
      (Board.mem_liveLocations hr (List.mem_of_mem_drop (List.mem_of_mem_take hloc)))
  obtain ⟨a', hrun, hwrote⟩ :=
    Board.run_writeSlab a view.1 view.2 bytes true (List.ne_nil_of_length_pos hpos) hvalid
  refine ⟨a', ?_, hlocs ▸ hwrote⟩
  simp only [Pointer.memory, Board.getSlab, EStateM.run_bind, EStateM.run_get, hslab,
    EStateM.run_pure, EStateM.Result.ok.injEq, and_true, Nat.add_zero] at hmem
  rw [store, ← hmem, if_pos (by rw [List.length_drop]; omega)] at hout
  simp only [List.take_zero, List.nil_append, Nat.zero_add, List.drop_drop, Option.some.injEq]
    at hout
  simp only [Board.writeSlab, Board.getSlab, EStateM.run_bind, EStateM.run_get, hslab,
    EStateM.run_pure, EStateM.run_modify, fakeIo] at hrun
  simp only [leaveInSlab, Board.getSlab, EStateM.run_bind, EStateM.run_get, hslab, EStateM.run_pure,
    EStateM.run_modify, ← hout, ← List.append_assoc]
  exact hrun

/-- Write a range through the allocator. -/
theorem run_write_range (ha : a.Inv) (hfill : a.Filled) (hr : r ∈ a.records) {bytes : List Byte}
    (hin : offset + bytes.length ≤ r.nbytes) :
    ∃ a', (Board.write fakeIo r.handle offset bytes true).run a = .ok () a' ∧
      Wrote a a' (rangeLocations r.extents offset bytes.length) bytes :=
  Board.run_write ha hfill ⟨ha.lookup hr, by omega, by omega, by omega⟩ true

/-- Read a range through the allocator. -/
theorem run_read_range (ha : a.Inv) (hfill : a.Filled) (hr : r ∈ a.records)
    (hin : offset + nbytes ≤ r.nbytes) :
    (Board.read fakeIo r.handle offset nbytes true).run a =
      .ok (((contents a r).drop offset).take nbytes) a :=
  Board.run_read ha hfill ⟨ha.lookup hr, by omega, by omega, by omega⟩ true

/-- A read out of bounds raises. -/
theorem run_read_raises (ha : a.Inv) (hr : r ∈ a.records) (hout : ¬offset + nbytes ≤ r.nbytes) :
    ∃ e, (Board.read fakeIo r.handle offset nbytes true).run a = .error e a := by
  rcases Board.run_validateRange a r.handle offset nbytes with ⟨r', hrange, -⟩ |
    ⟨-, code, message, herr⟩
  · have hsame := (ha.lookup hr).symm.trans hrange.1
    cases hsame
    have hend := hrange.2.2.2
    omega
  · exact ⟨.allocator code message, by simp only [Board.read, EStateM.run_bind, herr]⟩

end

/-! ## Two loops side by side -/

section

variable {ι : Type} {row : ι → Option (Except Int (Nat × List Byte))}
    {body : ι → Prog (List Byte) Unit}
  {touched : Board.Loc → Prop} {a₀ : Allocator (List Byte)} {r : TensorRecord} {base : Nat}

/-- A step of the wrapper stores the row of the C loop, at its place in the tensor. -/
structure StoresRow (row : ι → Option (Except Int (Nat × List Byte)))
    (body : ι → Prog (List Byte) Unit) (touched : Board.Loc → Prop)
    (r : TensorRecord) (base : Nat) (t : ι) (a : Allocator (List Byte)) : Prop where
  intro ::
  exists_wrote : ∃ off bytes a', row t = some (.ok (off, bytes)) ∧ (body t).run a = .ok () a' ∧
    base + off + bytes.length ≤ r.nbytes ∧
    Wrote a a' (rangeLocations r.extents (base + off) bytes.length) bytes ∧
    ∀ loc ∈ rangeLocations r.extents (base + off) bytes.length, touched loc

/-- A loop that ends went through steps none of which raised. -/
theorem forM_ok_all {P : ι → Prop} {ts : List ι}
    (hstep : ∀ t ∈ ts, ∀ a, Touched touched a₀ a → P t → StoresRow row body touched r base t a)
    (hraise : ∀ t ∈ ts, ∀ a, Touched touched a₀ a → ¬P t → ∃ e, (body t).run a = .error e a)
    {a a' : Allocator (List Byte)}
    (hta : Touched touched a₀ a) (hrun : (forM ts body).run a = .ok () a') : ∀ t ∈ ts, P t := by
  induction ts generalizing a with
  | nil => simp
  | cons t ts ih =>
    rw [List.forM_cons, EStateM.run_bind] at hrun
    have hP : P t := by
      by_contra hnot
      obtain ⟨e, herr⟩ := hraise t List.mem_cons_self a hta hnot
      rw [herr] at hrun
      cases hrun
    obtain ⟨off, bytes, a₁, -, hok, -, hwrote, hlocs⟩ :=
      (hstep t List.mem_cons_self a hta hP).exists_wrote
    rw [hok] at hrun
    have hrest := ih (fun t' ht' => hstep t' (List.mem_cons_of_mem t ht')) (fun t' ht' =>
      hraise t' (List.mem_cons_of_mem t ht'))
      (hta.wrote hwrote hlocs) hrun
    intro t' ht'
    rcases List.mem_cons.mp ht' with rfl | hin
    · exact hP
    · exact hrest t' hin

/-- Loops whose steps agree agree. -/
theorem forM_storeRows (ha : a₀.Inv) (hr : r ∈ a₀.records) {ts : List ι}
    (hstep : ∀ t ∈ ts, ∀ a, Touched touched a₀ a → StoresRow row body touched r base t a)
    {a : Allocator (List Byte)} (hta : Touched touched a₀ a) :
    ∃ a', (forM ts body).run a = .ok () a' ∧ Touched touched a₀ a' ∧
      storeRows row ts ((contents a r).drop base) = some (0, (contents a' r).drop base) := by
  induction ts generalizing a with
  | nil => exact ⟨a, rfl, hta, rfl⟩
  | cons t ts ih =>
    obtain ⟨off, bytes, a₁, hrow, hrun, hin, hwrote, hlocs⟩ :=
      (hstep t List.mem_cons_self a hta).exists_wrote
    obtain ⟨a₂, hrest, htouched, hstores⟩ :=
      ih (fun t' ht' => hstep t' (List.mem_cons_of_mem t ht')) (hta.wrote hwrote hlocs)
    have hinv := hta.inv ha
    have hmem : r ∈ a.records := hta.records ▸ hr
    have hlen := hinv.length_contents hmem
    have hcontents := hwrote.contents (hinv.separate hmem).1 (by omega)
    have hstore : store ((contents a r).drop base) off bytes =
        some ((contents a₁ r).drop base) := by
      rw [store, if_pos (by omega), Option.some.injEq] at hcontents
      rw [store, if_pos (by rw [List.length_drop]; omega), ← hcontents]
      have hbase : base ≤ ((contents a r).take (base + off)).length := by
        rw [List.length_take]; omega
      simp only [List.append_assoc, List.drop_append_of_le_length hbase, List.drop_take,
        List.drop_drop, Nat.add_assoc, Nat.add_sub_cancel_left]
    refine ⟨a₂, ?_, htouched, ?_⟩
    · rw [List.forM_cons, EStateM.run_bind, hrun]
      exact hrest
    · rw [storeRows_cons hrow hstore, hstores]

end

end Ps
