-- SUMMARY: SET_ROWS: the bulk C functions, the wrapper that converts row by row into extents, and that both leave the same bytes (`native.py`, `native.c`).
import BonsaiTpu.Layout.Pack
import BonsaiTpu.Ps.Half
import BonsaiTpu.Ps.Rows

/-!
# SET_ROWS

The wrapper reads the index table and takes one pointer to all source rows. Each row is
converted to half precision into its extent of dst, through a scratch buffer where the
slab has no mapping or the row crosses extents. The bulk functions do the same on
contiguous buffers.
-/

namespace Ps.SetRows

open Board (Err Prog Allocator TensorRecord fakeIo Wrote Touched rangeLocations contents byteAt)
open Words (Byte collect readLeU32 Window store)
open Layout (sizeT)

/-! ## The C functions -/

/-- The scalar arguments of the bulk functions. -/
structure Args where
  src0Nb : Nat × Nat × Nat
  indicesNb : Nat × Nat
  dstNb : Nat × Nat × Nat
  headDim : Nat
  ne01 : Nat
  ne02 : Nat
  ne03 : Nat
  ne11 : Nat
  ne12 : Nat

/-- The halves of a row of floats at `off`. -/
def halfRow (src : List Byte) (off headDim : Nat) : Option (List (BitVec 16)) :=
  collect (fun d => (readLeU32 src (off + 4 * d)).map floatToHalf) headDim

/-- `bonsai_set_rows_row_f32_to_f16`. Source and destination do not overlap, so the row may be read
    before it is written. -/
def bonsaiSetRowsRowF32ToF16 (dst src : List Byte) (headDim : Nat) : Option (Int × List Byte) :=
  if headDim = 0 then some (-1, dst)
  else do
    let row ← halfRow src 0 headDim
    let out ← store dst 0 (halfBytes row)
    some (0, out)

/-- The body of the loops of the bulk functions, with indices of `width` bytes. -/
def cRow (sizeBits width : Nat) (args : Args) (src0 indices : List Byte) (t : Nat × Nat × Nat) :
    Option (Except Int (Nat × List Byte)) := do
  let (i03, i02, i) := t
  let i12 := i03 % args.ne12
  let i11 := i02 % args.ne11
  let row ← loadSigned indices
    (sizeT sizeBits (i * width + i11 * args.indicesNb.1 + i12 * args.indicesNb.2)) width
  if row < 0 then some (.error (-2))
  else
    let halves ← halfRow src0
      (sizeT sizeBits (i * args.src0Nb.1 + i02 * args.src0Nb.2.1 + i03 * args.src0Nb.2.2))
      args.headDim
    some
      (.ok (sizeT sizeBits (row.toNat * args.dstNb.1 + i02 * args.dstNb.2.1 + i03 * args.dstNb.2.2),
        halfBytes halves))

/-- The bulk function for indices of `width` bytes. -/
def bonsaiSetRowsF32ToF16 (sizeBits width : Nat) (args : Args) (src0 indices dst : List Byte) :
    Option (Int × List Byte) :=
  if args.headDim = 0 then some (-1, dst)
  else storeRows (cRow sizeBits width args src0 indices) (triples args.ne03 args.ne02 args.ne01) dst

def bonsaiSetRowsF32ToF16I32 (sizeBits : Nat) := bonsaiSetRowsF32ToF16 sizeBits 4

def bonsaiSetRowsF32ToF16I64 (sizeBits : Nat) := bonsaiSetRowsF32ToF16 sizeBits 8

/-! ## The wrapper -/

section

variable (mapped : Nat → Bool)

/-- `_readable_base`. -/
def readableBase (handle offset nbytes : Int) : Prog (List Byte) Pointer := do
  match slabPointer (← get) mapped handle offset nbytes with
  | .ok view => pure (.slab view.1 view.2)
  | .error (.allocator _ _) =>
    let data ← Board.read fakeIo handle offset nbytes true
    pure (.buffer data)
  | .error e => throw e

/-- The call of the row function; its return code is not looked at. -/
def rowFn (dst src : List Byte) (headDim : Nat) : Prog (List Byte) (List Byte) :=
  match bonsaiSetRowsRowF32ToF16 dst src (cUint32 headDim) with
  | some (_, out) => pure out
  | none => throw overrun

/-- `_write_row`. Every call fills the scratch buffer, so a new one stands for it. -/
def writeRow (dstHandle dstRel : Int) (dstRowBytes : Nat) (src : List Byte) (headDim : Nat) :
    Prog (List Byte) Unit := do
  match (← get).slabView dstHandle dstRel dstRowBytes with
  | .error (.allocator .multiExtent _) =>
    let scratch ← rowFn (List.replicate dstRowBytes 0) src headDim
    Board.write fakeIo dstHandle dstRel scratch true
  | .error e => throw e
  | .ok (slabIndex, absOff) =>
    if mapped slabIndex then
      let dst ← (Pointer.slab slabIndex absOff).memory 0
      let out ← rowFn dst src headDim
      leaveInSlab slabIndex absOff out
    else
      let scratch ← rowFn (List.replicate dstRowBytes 0) src headDim
      Board.writeSlab fakeIo slabIndex absOff scratch true

/-- The body of the loops of `SetRows.run`. -/
def runRow (call : RowsCall) (idxElem : Nat) (idxRaw : List Byte) (srcPtr : Pointer)
    (t : Nat × Nat × Nat) :
    Prog (List Byte) Unit := do
  let (i03, i02, i) := t
  let i12 := Int.fmod i03 call.ne12
  let i11 := Int.fmod i02 call.ne11
  let ioff : Int := i * idxElem + i11 * call.indicesNb.1 + i12 * call.indicesNb.2
  let row := fromBytesSigned (pySlice idxRaw ioff (ioff + idxElem))
  if row < 0 then throw (.allocator .invalidRequest "SET_ROWS index must be non-negative")
  else
    let srcOff : Int := i * call.src0Nb.1 + i02 * call.src0Nb.2.1 + i03 * call.src0Nb.2.2
    let dstRel : Int :=
      call.dst.offset + row * call.dstNb.1 + i02 * call.dstNb.2.1 + i03 * call.dstNb.2.2
    if srcOff < 0 then throw overrun
    else
      let src ← srcPtr.memory srcOff.toNat
      writeRow mapped call.dst.handle dstRel (call.headDim * 2) src call.headDim

/-- The size of an index of the op. -/
def idxElem (op : Op) : Nat := if op.tagOr "indices_type" "i32" = "i32" then 4 else 8

/-- `SetRows.run`. The flush of the touched ranges changes no byte. -/
def run (op : Op) : Prog (List Byte) Unit := do
  let call ← Board.liftExcept (prepareSetRows op)
  let idxRaw ← Board.read fakeIo call.indices.handle call.indices.offset call.indices.nbytes true
  let srcPtr ← readableBase mapped call.src0.handle call.src0.offset call.src0.nbytes
  forM (triples call.ne03.toNat call.ne02.toNat call.ne01)
    (runRow mapped call (idxElem op) idxRaw srcPtr)

end

/-! ## Rows through windows -/

theorem halfRow_window {mem src : List Byte} {off headDim : Nat}
    (hwin : Window mem src off (4 * headDim)) :
    halfRow mem 0 headDim = halfRow src off headDim := by
  refine Words.collect_congr fun d hd => ?_
  rw [Nat.zero_add, hwin.readLeU32 (by omega)]

theorem halfRow_spec {src : List Byte} {off headDim : Nat} (hin : off + 4 * headDim ≤ src.length) :
    ∃ row, halfRow src off headDim = some row ∧ row.length = headDim := by
  refine Words.collect_spec fun d hd => ?_
  rw [Option.isSome_map]
  exact Words.readLeU32_isSome (by omega)

/-- The row function stores the halves at the front. -/
theorem run_rowFn {dst src : List Byte} {headDim : Nat} {row : List (BitVec 16)}
    (hpos : 0 < headDim) (hdim : headDim < 2 ^ 32)
    (hrow : halfRow src 0 headDim = some row) (hlen : row.length = headDim)
    (hdst : 2 * headDim ≤ dst.length) (a : Allocator (List Byte)) :
    ∃ out, store dst 0 (halfBytes row) = some out ∧ (rowFn dst src headDim).run a = .ok out a := by
  have hfits : 0 + (halfBytes row).length ≤ dst.length := by
    rw [length_halfBytes]
    omega
  obtain ⟨out, hstore, -, -⟩ := Words.store_spec hfits
  have hcdim : cUint32 headDim = headDim := Nat.mod_eq_of_lt hdim
  refine ⟨out, hstore, ?_⟩
  simp only [rowFn, bonsaiSetRowsRowF32ToF16, hcdim, if_neg (Nat.ne_of_gt hpos), hrow, hstore,
    Option.bind_eq_bind, Option.bind_some, EStateM.run_pure]

/-- A scratch buffer of the size of a row ends up as the row. -/
theorem run_rowFn_scratch {src : List Byte} {headDim : Nat} {row : List (BitVec 16)}
    (hpos : 0 < headDim) (hdim : headDim < 2 ^ 32)
    (hrow : halfRow src 0 headDim = some row) (hlen : row.length = headDim)
    (a : Allocator (List Byte)) :
    (rowFn (List.replicate (headDim * 2) 0) src headDim).run a = .ok (halfBytes row) a := by
  have hbytes : (halfBytes row).length = headDim * 2 := by
    rw [length_halfBytes, hlen, Nat.mul_comm]
  have hroom : 2 * headDim ≤ (List.replicate (headDim * 2) (0 : Byte)).length := by
    rw [List.length_replicate, Nat.mul_comm]
  obtain ⟨out, hstore, hrun⟩ := run_rowFn hpos hdim hrow hlen hroom a
  rw [store, if_pos (by simp; omega)] at hstore
  simp only [List.take_zero, List.nil_append, Nat.zero_add, List.drop_replicate, hbytes,
    Nat.sub_self, List.replicate_zero, List.append_nil, Option.some.injEq] at hstore
  rw [hrun, hstore]

section

variable {a : Allocator (List Byte)} {r : TensorRecord} {dstRel headDim : Nat} {src : List Byte}
  {row : List (BitVec 16)}

/-- A row of dst is written on each of the three ways. -/
theorem run_writeRow (mapped : Nat → Bool) (ha : a.Inv) (hfill : a.Filled) (hr : r ∈ a.records)
    (hpos : 0 < headDim) (hdim : headDim < 2 ^ 32)
    (hin : dstRel + 2 * headDim ≤ r.nbytes) (hrow : halfRow src 0 headDim = some row)
    (hlen : row.length = headDim) :
    ∃ a', (writeRow mapped r.handle dstRel (headDim * 2) src headDim).run a = .ok () a' ∧
      Wrote a a' (rangeLocations r.extents dstRel (halfBytes row).length) (halfBytes row) := by
  have hbytes : (halfBytes row).length = headDim * 2 := by
    rw [length_halfBytes, hlen, Nat.mul_comm]
  have hscratch := run_rowFn_scratch hpos hdim hrow hlen a
  have hfits : dstRel + (halfBytes row).length ≤ r.nbytes := by omega
  simp only [writeRow, EStateM.run_bind, EStateM.run_get]
  rcases ha.slabView_cases hr (by omega : 0 < (halfBytes row).length) hfits with ⟨i, o, hview, -⟩ |
    ⟨message, hview, -⟩
  · have hview' := hview
    rw [hbytes] at hview'
    simp only [hview']
    by_cases hm : mapped i
    · -- In place.
      obtain ⟨mem, hmem, hroom, -⟩ := run_memory_slab ha hfill hr (by omega) hview 0
      obtain ⟨out, hstore, hfn⟩ :=
        run_rowFn hpos hdim hrow hlen (by omega : 2 * headDim ≤ mem.length) a
      obtain ⟨a', hrun, hwrote⟩ := run_leaveInSlab ha hfill hr (by omega) hview hmem hstore
      refine ⟨a', ?_, hwrote⟩
      simp only [if_pos hm, EStateM.run_bind, hmem, hfn, hrun]
    · obtain ⟨-, -, hlocs⟩ := ha.slabView_ok hr hview
      have hvalid : ∀ loc ∈ Board.span i o (halfBytes row).length, a.Valid loc := by
        intro loc hloc
        rw [← hlocs] at hloc
        exact ha.valid hfill
          (Board.mem_liveLocations hr (List.mem_of_mem_drop (List.mem_of_mem_take hloc)))
      obtain ⟨a', hrun, hwrote⟩ :=
        Board.run_writeSlab a i o (halfBytes row) true (List.ne_nil_of_length_pos (by omega)) hvalid
      refine ⟨a', ?_, hlocs ▸ hwrote⟩
      simp only [if_neg hm, EStateM.run_bind, hscratch, hrun]
  · -- Across extents.
    rw [hbytes] at hview
    obtain ⟨a', hrun, hwrote⟩ := run_write_range ha hfill hr hfits
    refine ⟨a', ?_, hwrote⟩
    simp only [hview, EStateM.run_bind, hscratch, hrun]

end

/-! ## Jobs -/

/-- The rows of a call, in the order of the loops. -/
def Args.rows (args : Args) : List (Nat × Nat × Nat) := triples args.ne03 args.ne02 args.ne01

def Args.indexPlace (args : Args) (width : Nat) (t : Nat × Nat × Nat) : Nat :=
  t.2.2 * width + t.2.1 % args.ne11 * args.indicesNb.1 + t.1 % args.ne12 * args.indicesNb.2

def Args.srcPlace (args : Args) (t : Nat × Nat × Nat) : Nat :=
  t.2.2 * args.src0Nb.1 + t.2.1 * args.src0Nb.2.1 + t.1 * args.src0Nb.2.2

def Args.dstPlace (args : Args) (row : Nat) (t : Nat × Nat × Nat) : Nat :=
  row * args.dstNb.1 + t.2.1 * args.dstNb.2.1 + t.1 * args.dstNb.2.2

/-- The call that the wrapper prepares for these arguments, with a handle and an offset for each
    tensor. -/
def Args.call (args : Args) (src0 indices dst : Nat × Nat) : RowsCall where
  headDim := args.headDim
  ne01 := args.ne01
  ne02 := args.ne02
  ne03 := args.ne03
  ne10 := args.ne01
  ne11 := args.ne11
  ne12 := args.ne12
  src0Nb := (args.src0Nb.1, args.src0Nb.2.1, args.src0Nb.2.2)
  indicesNb := (args.indicesNb.1, args.indicesNb.2)
  dstNb := (args.dstNb.1, args.dstNb.2.1, args.dstNb.2.2)
  src0 := ⟨src0.1, src0.2, args.src0Nb.2.2 * args.ne03⟩
  indices := ⟨indices.1, indices.2, args.indicesNb.2 * args.ne12⟩
  dst := ⟨dst.1, dst.2, (args.headDim * 2 : Nat)⟩

/-- A SET_ROWS op on live tensors. The ranges that the wrapper reads cover the source rows
    and the indices, the addressed rows are inside dst, and they share no byte with the
    source rows. -/
structure Job (sizeBits : Nat) where
  a : Allocator (List Byte)
  inv : a.Inv
  filled : a.Filled
  op : Op
  args : Args
  src : TensorRecord
  idx : TensorRecord
  dst : TensorRecord
  srcOffset : Nat
  idxOffset : Nat
  dstOffset : Nat
  srcLive : src ∈ a.records
  idxLive : idx ∈ a.records
  dstLive : dst ∈ a.records
  addressable : src.nbytes < 2 ^ sizeBits ∧ idx.nbytes < 2 ^ sizeBits ∧ dst.nbytes < 2 ^ sizeBits
  prepared : prepareSetRows op =
    .ok (args.call (src.handle, srcOffset) (idx.handle, idxOffset) (dst.handle, dstOffset))
  positive : 0 < args.headDim ∧ 0 < args.ne01 ∧ 0 < args.ne02 ∧ 0 < args.ne03 ∧
    0 < args.ne11 ∧ 0 < args.ne12
  dims : args.headDim < 2 ^ 32 ∧ args.ne01 < 2 ^ 32 ∧ args.ne02 < 2 ^ 32 ∧ args.ne03 < 2 ^ 32 ∧
    args.ne11 < 2 ^ 32 ∧
    args.ne12 < 2 ^ 32
  srcCovered : ∀ t ∈ args.rows, args.srcPlace t + 4 * args.headDim ≤ args.src0Nb.2.2 * args.ne03
  srcInside : srcOffset + args.src0Nb.2.2 * args.ne03 ≤ src.nbytes
  idxCovered : ∀ t ∈ args.rows, args.indexPlace (idxElem op) t + idxElem op ≤
    args.indicesNb.2 * args.ne12
  idxInside : idxOffset + args.indicesNb.2 * args.ne12 ≤ idx.nbytes
  index : Nat × Nat × Nat → Nat
  indices : ∀ t ∈ args.rows,
    loadSigned ((contents a idx).drop idxOffset) (args.indexPlace (idxElem op) t) (idxElem op) =
      some (index t : Int)
  dstInside : ∀ t ∈ args.rows, dstOffset + args.dstPlace (index t) t + 2 * args.headDim ≤ dst.nbytes
  apart : ∀ t ∈ args.rows, ∀ t' ∈ args.rows,
    ∀ loc ∈ rangeLocations src.extents (srcOffset + args.srcPlace t) (4 * args.headDim),
    loc ∉ rangeLocations dst.extents (dstOffset + args.dstPlace (index t') t') (2 * args.headDim)

namespace Job

variable {sizeBits : Nat} (j : Job sizeBits)

def call : RowsCall :=
  j.args.call (j.src.handle, j.srcOffset) (j.idx.handle, j.idxOffset) (j.dst.handle, j.dstOffset)

/-- The bytes of the addressed rows of dst. -/
def InDst (loc : Board.Loc) : Prop :=
  ∃ t ∈ j.args.rows, loc ∈ rangeLocations j.dst.extents
    (j.dstOffset + j.args.dstPlace (j.index t) t) (2 * j.args.headDim)

/-- The contiguous copies of the tensors. -/
def srcBytes : List Byte := (contents j.a j.src).drop j.srcOffset

def idxBytes : List Byte := (contents j.a j.idx).drop j.idxOffset

/-- The bulk function for the type of the indices. -/
def bulk : Option (Int × List Byte) :=
  if j.op.tagOr "indices_type" "i32" = "i32" then
    bonsaiSetRowsF32ToF16I32 sizeBits j.args j.srcBytes j.idxBytes
      ((contents j.a j.dst).drop j.dstOffset)
  else bonsaiSetRowsF32ToF16I64 sizeBits j.args j.srcBytes j.idxBytes
    ((contents j.a j.dst).drop j.dstOffset)

/-- The index table as the wrapper has it. -/
def table : List Byte := j.idxBytes.take (j.args.indicesNb.2 * j.args.ne12)

variable {j} {t : Nat × Nat × Nat} (mapped : Nat → Bool)

theorem index_eq (ht : t ∈ j.args.rows) :
    fromBytesSigned (pySlice j.table (j.args.indexPlace (idxElem j.op) t)
      (j.args.indexPlace (idxElem j.op) t + idxElem j.op)) =
      j.index t := by
  have hin := j.idxInside
  have hlen : j.table.length = j.args.indicesNb.2 * j.args.ne12 := by
    rw [table, idxBytes, List.length_take, List.length_drop, j.inv.length_contents j.idxLive]
    omega
  have hload : loadSigned j.idxBytes (j.args.indexPlace (idxElem j.op) t) (idxElem j.op) =
      some (fromBytesSigned (pySlice j.table (j.args.indexPlace (idxElem j.op) t)
        (j.args.indexPlace (idxElem j.op) t + idxElem j.op))) :=
    loadSigned_of_slice (hlen ▸ j.idxCovered t ht) (by rw [hlen]; rfl)
  rw [idxBytes, j.indices t ht] at hload
  exact (Option.some.inj hload).symm

/-- Every source row has its halves. -/
theorem halves_spec (ht : t ∈ j.args.rows) :
    ∃ row, halfRow j.srcBytes (j.args.srcPlace t) j.args.headDim = some row ∧
      row.length = j.args.headDim := by
  refine halfRow_spec ?_
  have hcov := j.srcCovered t ht
  have hin := j.srcInside
  rw [srcBytes, List.length_drop, j.inv.length_contents j.srcLive]
  omega

/-- The row of the bulk function. -/
theorem cRow_eq (ht : t ∈ j.args.rows) {row : List (BitVec 16)}
    (hrow : halfRow j.srcBytes (j.args.srcPlace t) j.args.headDim = some row) :
    cRow sizeBits (idxElem j.op) j.args j.srcBytes j.idxBytes t =
      some (.ok (j.args.dstPlace (j.index t) t, halfBytes row)) := by
  obtain ⟨hsrc, hidx, hdst⟩ := j.addressable
  have hplace : sizeT sizeBits (t.2.2 * idxElem j.op + t.2.1 % j.args.ne11 * j.args.indicesNb.1 +
      t.1 % j.args.ne12 * j.args.indicesNb.2) = j.args.indexPlace (idxElem j.op) t :=
    Layout.sizeT_of_lt (by
    have := j.idxCovered t ht; have := j.idxInside; simp only [Args.indexPlace] at *; omega)
  have hsrcPlace : sizeT sizeBits (t.2.2 * j.args.src0Nb.1 + t.2.1 * j.args.src0Nb.2.1 +
      t.1 * j.args.src0Nb.2.2) = j.args.srcPlace t :=
    Layout.sizeT_of_lt (by
      have := j.srcCovered t ht; have := j.srcInside; simp only [Args.srcPlace] at *; omega)
  have hdstPlace : sizeT sizeBits
      (j.index t * j.args.dstNb.1 + t.2.1 * j.args.dstNb.2.1 + t.1 * j.args.dstNb.2.2) =
      j.args.dstPlace (j.index t) t :=
    Layout.sizeT_of_lt (by have := j.dstInside t ht; simp only [Args.dstPlace] at *; omega)
  have hload : loadSigned j.idxBytes (j.args.indexPlace (idxElem j.op) t) (idxElem j.op) =
      some (j.index t : Int) := j.indices t ht
  have hneg : ¬(j.index t : Int) < 0 := by omega
  simp only [cRow, hplace, hload, Option.bind_eq_bind, Option.bind_some, if_neg hneg, hsrcPlace,
    hrow, Int.toNat_natCast, hdstPlace]

/-- The source rows have not changed in any state of the run. -/
theorem source_unchanged (ht : t ∈ j.args.rows) {a : Allocator (List Byte)}
    (hta : Touched j.InDst j.a a) {k : Nat} (hk : k < 4 * j.args.headDim) :
    (contents a j.src)[j.srcOffset + j.args.srcPlace t + k]? =
      (contents j.a j.src)[j.srcOffset + j.args.srcPlace t + k]? := by
  have hrange : ((contents a j.src).drop (j.srcOffset + j.args.srcPlace t)).take
      (4 * j.args.headDim) =
      ((contents j.a j.src).drop (j.srcOffset + j.args.srcPlace t)).take (4 * j.args.headDim) :=
    hta.range fun loc hloc ⟨t', ht', hin⟩ => j.apart t ht t' ht' loc hloc hin
  have hget := congrArg (fun l => l[k]?) hrange
  simpa only [List.getElem?_take_of_lt hk, List.getElem?_drop] using hget

variable (j) in
/-- The base pointer shows every source row in every state of the run. -/
theorem run_readableBase :
    ∃ p, (readableBase mapped j.src.handle j.srcOffset (j.args.src0Nb.2.2 * j.args.ne03 : Nat)).run
      j.a = .ok p j.a ∧
    ∀ a, Touched j.InDst j.a a → ∀ t ∈ j.args.rows, ∃ mem,
      (p.memory (j.args.srcPlace t)).run a = .ok mem a ∧
      Window mem j.srcBytes (j.args.srcPlace t) (4 * j.args.headDim) := by
  have hin := j.srcInside
  have hpos : 0 < j.args.src0Nb.2.2 * j.args.ne03 := by
    obtain ⟨hdim, h1, h2, h3, -⟩ := j.positive
    have hcov := j.srcCovered (0, 0, 0) (mem_triples.mpr ⟨h3, h2, h1⟩)
    omega
  have hcopy : ∀ a, Touched j.InDst j.a a → ∀ t ∈ j.args.rows,
      ∃ mem,
      ((Pointer.buffer
        (((contents j.a j.src).drop j.srcOffset).take (j.args.src0Nb.2.2 * j.args.ne03))).memory
        (j.args.srcPlace t)).run a = .ok mem a ∧
          Window mem j.srcBytes (j.args.srcPlace t) (4 * j.args.headDim) := by
    intro a hta t ht
    refine ⟨_, rfl, fun k hk => ?_⟩
    have hcov := j.srcCovered t ht
    rw [List.getElem?_drop, List.getElem?_take_of_lt (by omega)]
    rfl
  have hread := run_read_range j.inv j.filled j.srcLive hin
  rcases j.inv.slabView_cases j.srcLive hpos hin with ⟨i, o, hview, -⟩ | ⟨message, hview, -⟩
  · by_cases hm : mapped i
    · refine ⟨.slab i o, ?_, fun a hta t ht => ?_⟩
      · simp only [readableBase, EStateM.run_bind, EStateM.run_get, slabPointer_ok hview, if_pos hm,
          EStateM.run_pure]
      · have hcov := j.srcCovered t ht
        have hlive : j.src ∈ a.records := hta.records ▸ j.srcLive
        obtain ⟨mem, hmem, -, hwin⟩ := run_memory_slab (hta.inv j.inv)
          (hta.filled j.filled) hlive hpos
          ((hta.slabView _ _ _).trans hview) (j.args.srcPlace t)
        refine ⟨mem, hmem, fun k hk => ?_⟩
        rw [hwin k (by omega), source_unchanged ht hta hk, srcBytes,
          List.getElem?_drop, Nat.add_assoc]
    · refine ⟨_, ?_, hcopy⟩
      simp only [readableBase, EStateM.run_bind, EStateM.run_get, slabPointer_ok hview, if_neg hm,
        hread, EStateM.run_pure]
  · refine ⟨_, ?_, hcopy⟩
    simp only [readableBase, EStateM.run_bind, EStateM.run_get, slabPointer_error hview, hread,
      EStateM.run_pure]

/-- The wrapper finds the index of a row, and the places of the bulk function. -/
theorem runRow_eq (ht : t ∈ j.args.rows) (p : Pointer) :
    runRow mapped j.call (idxElem j.op) j.table p t = (do
      let src ← p.memory (j.args.srcPlace t)
      writeRow mapped j.dst.handle (j.dstOffset + j.args.dstPlace (j.index t) t : Nat)
        (j.args.headDim * 2) src j.args.headDim) := by
  obtain ⟨i03, i02, i⟩ := t
  have hplace : (i : Int) * idxElem j.op + Int.fmod i02 j.call.ne11 * j.call.indicesNb.1 +
      Int.fmod i03 j.call.ne12 * j.call.indicesNb.2 =
      (j.args.indexPlace (idxElem j.op) (i03, i02, i) : Int) := by
    simp only [call, Args.call, Args.indexPlace, ← Int.ofNat_fmod]
    push_cast
    rfl
  have hsrc : (i : Int) * j.call.src0Nb.1 + i02 * j.call.src0Nb.2.1 + i03 * j.call.src0Nb.2.2 =
      (j.args.srcPlace (i03, i02, i) : Int) := by
    simp only [call, Args.call, Args.srcPlace]
    push_cast
    rfl
  have hdst : (j.call.dst.offset : Int) + j.index (i03, i02, i) * j.call.dstNb.1 +
      i02 * j.call.dstNb.2.1 + i03 * j.call.dstNb.2.2 =
      ((j.dstOffset + j.args.dstPlace (j.index (i03, i02, i)) (i03, i02, i) : Nat) : Int) := by
    simp only [call, Args.call, Args.dstPlace]
    push_cast
    omega
  have hneg : ¬(j.index (i03, i02, i) : Int) < 0 := by omega
  have hneg' : ¬(j.args.srcPlace (i03, i02, i) : Int) < 0 := by omega
  simp only [runRow, hplace, index_eq ht, if_neg hneg, hsrc, if_neg hneg', hdst, Int.toNat_natCast]
  rfl

/-- Every step of the wrapper stores the row of the bulk function. -/
theorem storesRow (ht : t ∈ j.args.rows) {p : Pointer}
    (hp : ∀ a, Touched j.InDst j.a a → ∀ t ∈ j.args.rows, ∃ mem,
      (p.memory (j.args.srcPlace t)).run a = .ok mem a ∧
      Window mem j.srcBytes (j.args.srcPlace t) (4 * j.args.headDim))
    {a : Allocator (List Byte)} (hta : Touched j.InDst j.a a) :
    StoresRow (cRow sizeBits (idxElem j.op) j.args j.srcBytes j.idxBytes)
      (runRow mapped j.call (idxElem j.op) j.table p) j.InDst j.dst
      j.dstOffset t a := by
  obtain ⟨row, hrow, hlen⟩ := halves_spec ht
  obtain ⟨mem, hmem, hwin⟩ := hp a hta t ht
  have hlive : j.dst ∈ a.records := hta.records ▸ j.dstLive
  have hin := j.dstInside t ht
  have hbytes : (halfBytes row).length = 2 * j.args.headDim := by rw [length_halfBytes, hlen]
  obtain ⟨a', hrun, hwrote⟩ := run_writeRow mapped (hta.inv j.inv) (hta.filled j.filled) hlive
    j.positive.1 j.dims.1 hin
    ((halfRow_window hwin).trans hrow) hlen
  refine ⟨j.args.dstPlace (j.index t) t, halfBytes row, a', cRow_eq ht hrow, ?_,
    by omega, hwrote, ?_⟩
  · rw [runRow_eq mapped ht p, EStateM.run_bind, hmem]
    exact hrun
  · intro loc hloc
    rw [hbytes] at hloc
    exact ⟨t, ht, hloc⟩

variable (j) in
/-- The op with its checks done. -/
theorem run_eq : run mapped j.op = (do
    let idxRaw ← Board.read fakeIo j.idx.handle j.idxOffset
      (j.args.indicesNb.2 * j.args.ne12 : Nat) true
    let srcPtr ← readableBase mapped j.src.handle j.srcOffset
      (j.args.src0Nb.2.2 * j.args.ne03 : Nat)
    forM j.args.rows (runRow mapped j.call (idxElem j.op) idxRaw srcPtr)) := by
  have hprepared : prepareSetRows j.op = .ok j.call := j.prepared
  simp only [run, hprepared, Board.liftExcept, pure_bind]
  rfl

theorem bulk_eq :
    j.bulk = bonsaiSetRowsF32ToF16 sizeBits (idxElem j.op) j.args j.srcBytes j.idxBytes
    ((contents j.a j.dst).drop j.dstOffset) := by
  unfold bulk idxElem
  split
  · rfl
  · rfl

end Job

/-- The wrapper leaves in dst what the bulk function leaves on contiguous copies, and touches
    no other byte. -/
theorem set_rows_agrees {sizeBits : Nat} (j : Job sizeBits) (mapped : Nat → Bool) :
    ∃ a', (run mapped j.op).run j.a = .ok () a' ∧
      j.bulk = some (0, (contents a' j.dst).drop j.dstOffset) ∧
      ∀ loc, ¬j.InDst loc → byteAt a' loc = byteAt j.a loc := by
  obtain ⟨p, hbase, hp⟩ := j.run_readableBase mapped
  obtain ⟨a', hloop, htouched, hstores⟩ := forM_storeRows j.inv j.dstLive
    (fun t ht a hta => Job.storesRow mapped ht hp hta) (Touched.refl _ _)
  refine ⟨a', ?_, ?_, htouched.frame⟩
  · rw [j.run_eq mapped, EStateM.run_bind, run_read_range j.inv j.filled j.idxLive j.idxInside]
    simp only [EStateM.run_bind, hbase]
    exact hloop
  · rw [Job.bulk_eq, bonsaiSetRowsF32ToF16, if_neg (Nat.ne_of_gt j.positive.1)]
    exact hstores

/-! ## A repeated index -/

/-- Three rows of two floats, the indices 1, 0 and 1, and a dst of two rows whose second row is
    across slabs. -/
def repeatedAllocator : Allocator (List Byte) :=
  let attrs : Board.Attrs := ⟨[], "u8", "tensor", "raw"⟩
  (Board.calls fakeIo ⟨[Board.fakeSlab 24, Board.fakeSlab 12, Board.fakeSlab 6, Board.fakeSlab 2],
      [[(0, 24)], [(0, 12)], [(0, 6)], [(0, 2)]], [], 1, 1⟩
    [.allocate 24 attrs none, .allocate 12 attrs none, .allocate 8 attrs none,
      .write 1 0 ((List.range 24).map (BitVec.ofNat 8)) true,
      .write 2 0 [1, 0, 0, 0, 0, 0, 0, 0, 1, 0, 0, 0] true]).2

theorem repeatedAllocator_inv : repeatedAllocator.Inv ∧ repeatedAllocator.Filled := by
  have hinit : Allocator.init [Board.fakeSlab 24, Board.fakeSlab 12, Board.fakeSlab 6,
      Board.fakeSlab 2] 1 =
      .ok ⟨[Board.fakeSlab 24, Board.fakeSlab 12, Board.fakeSlab 6, Board.fakeSlab 2],
        [[(0, 24)], [(0, 12)], [(0, 6)], [(0, 2)]], [], 1, 1⟩ :=
    rfl
  have hinv := Allocator.Inv.init hinit
  refine ⟨hinv.calls _ _, Board.calls_filled hinv ?_ _⟩
  intro slab hslab
  simp only [List.mem_cons, List.not_mem_nil, or_false] at hslab
  rcases hslab with rfl | rfl | rfl | rfl
  · rfl
  · rfl
  · rfl
  · rfl

def repeatedOp : Op where
  name := "SET_ROWS"
  ints := [("src0", 1), ("indices", 2), ("dst", 3), ("head_dim", 2), ("ne01", 3), ("ne02", 1),
    ("ne03", 1), ("ne11", 1), ("ne12", 1), ("src0_nb1", 8), ("src0_nb2", 24), ("src0_nb3", 24),
    ("indices_nb1", 12), ("indices_nb2", 12), ("dst_nb1", 4), ("dst_nb2", 8),
    ("dst_nb3", 8)]
  floats := []
  flags := []
  tags := [("dst_type", "f16"), ("indices_type", "i32")]

def repeatedJob : Job 32 where
  a := repeatedAllocator
  inv := repeatedAllocator_inv.1
  filled := repeatedAllocator_inv.2
  op := repeatedOp
  args := ⟨(8, 24, 24), (12, 12), (4, 8, 8), 2, 3, 1, 1, 1, 1⟩
  src := ⟨1, 24, [], "u8", "tensor", "raw", [⟨0, 0, 24⟩]⟩
  idx := ⟨2, 12, [], "u8", "tensor", "raw", [⟨1, 0, 12⟩]⟩
  dst := ⟨3, 8, [], "u8", "tensor", "raw", [⟨2, 0, 6⟩, ⟨3, 0, 2⟩]⟩
  srcOffset := 0
  idxOffset := 0
  dstOffset := 0
  srcLive := by decide +kernel
  idxLive := by decide +kernel
  dstLive := by decide +kernel
  addressable := by decide
  prepared := rfl
  positive := by decide
  dims := by decide
  srcCovered := by decide
  srcInside := by decide
  idxCovered := by decide +kernel
  idxInside := by decide
  index t := if t.2.2 = 1 then 0 else 1
  indices := by decide +kernel
  dstInside := by decide
  apart := by decide +kernel

theorem set_rows_agrees_repeated :
    ∃ a', (run (fun _ => true) repeatedOp).run repeatedAllocator = .ok () a' ∧
      bonsaiSetRowsF32ToF16I32 32 repeatedJob.args repeatedJob.srcBytes repeatedJob.idxBytes
        (contents repeatedAllocator repeatedJob.dst) =
        some (0, contents a' repeatedJob.dst) := by
  obtain ⟨a', hrun, hbulk, -⟩ := set_rows_agrees repeatedJob fun _ => true
  exact ⟨a', hrun, hbulk⟩

end Ps.SetRows
