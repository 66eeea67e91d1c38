-- SUMMARY: GET_ROWS: the bulk C functions, the wrapper that calls them row by row, and the layouts of extents for which the two agree (`native.py`, `native.c`).
import Mathlib.Tactic.Ring
import BonsaiTpu.Base.Indices
import BonsaiTpu.Ps.Rows
import BonsaiTpu.Ps.Weights

/-!
# GET_ROWS

The wrapper reads the index table, and for each row of dst resolves the source row, or
the packed rowblock that holds it, and the dst row to slabs. It then calls the C
function for this one row. A slab without a mapping is served through a buffer; a range
that crosses extents is not.
-/

namespace Ps.GetRows

open Board
  (Err Prog Allocator TensorRecord fakeIo Touched rangeLocations contents WithinExtent byteAt)
open Words (Byte collect readLeU16 readLeU32 Window)
open Layout (Q1_BLOCK ROWS_PER_BLOCK PACKED_PER_Q1_BLOCK sizeT)

/-- The types of `src0`. -/
inductive RowType where
  | f32
  | f16
  | q1_0
  deriving DecidableEq

def RowType.tag : RowType → String
  | .f32 => "f32"
  | .f16 => "f16"
  | .q1_0 => "q1_0"

/-- The scalar arguments of the three C functions. -/
structure Args where
  src0Nb : Nat × Nat × Nat
  indicesNb : Nat × Nat
  dstNb : Nat × Nat × Nat
  headDim : Nat
  ne01 : Nat
  ne10 : Nat
  ne11 : Nat
  ne12 : Nat

section

variable (ops : FloatOps (BitVec 32)) (sizeBits : Nat)

/-! ## The C functions -/

/-- The floats of row `(i01, i11, i12)` of `src0`. The packed weights ignore the strides. -/
def rowFloats (ty : RowType) (nb : Nat × Nat × Nat) (headDim : Nat) (src0 : List Byte)
    (i01 i11 i12 : Nat) :
    Option (List (BitVec 32)) :=
  let off := sizeT sizeBits (i01 * nb.1 + i11 * nb.2.1 + i12 * nb.2.2)
  match ty with
  | .f32 => collect (fun d => readLeU32 src0 (off + 4 * d)) headDim
  | .f16 => collect (fun d => (readLeU16 src0 (off + 2 * d)).map ops.ofHalf) headDim
  | .q1_0 => getRowsQ10Row ops sizeBits src0 (headDim / Q1_BLOCK) i01

/-- The body of the loops. Source and destination do not overlap, so a row may be read before it is
    written. -/
def cRow (ty : RowType) (args : Args) (src0 indices : List Byte) (t : Nat × Nat × Nat) :
    Option (Except Int (Nat × List Byte)) := do
  let (i12, i11, i10) := t
  let i01 ← loadSigned indices
    (sizeT sizeBits (i10 * 4 + i11 * args.indicesNb.1 + i12 * args.indicesNb.2)) 4
  if i01 < 0 ∨ i01 ≥ args.ne01 then some (.error (-2))
  else
    let row ← rowFloats ops sizeBits ty args.src0Nb args.headDim src0 i01.toNat i11 i12
    some (.ok (sizeT sizeBits (i10 * args.dstNb.1 + i11 * args.dstNb.2.1 + i12 * args.dstNb.2.2),
      floatBytes row))

/-- `bonsai_get_rows_f32`, `bonsai_get_rows_f16` and `bonsai_get_rows_q1_0`. -/
def bonsaiGetRows (ty : RowType) (args : Args) (src0 indices dst : List Byte) :
    Option (Int × List Byte) :=
  if args.headDim = 0 ∨ ty = .q1_0 ∧ args.headDim % Q1_BLOCK ≠ 0 then some (-1, dst)
  else storeRows (cRow ops sizeBits ty args src0 indices)
    (triples args.ne12 args.ne11 args.ne10) dst

/-! ## The wrapper -/

/-- What the wrapper resolves of `src0` for an index, and how C addresses the row in it. -/
structure SourceRow where
  offset : Int
  nbytes : Int
  index : Nat
  ne01 : Nat

def sourceRow (ty : RowType) (call : RowsCall) (rowblockNbytes : Nat) (i01 : Int)
    (i11 i12 : Nat) : SourceRow :=
  match ty with
  | .q1_0 =>
    ⟨call.src0.offset + i01 / ROWS_PER_BLOCK * rowblockNbytes + i11 * call.src0Nb.2.1 +
      i12 * call.src0Nb.2.2, rowblockNbytes, (i01 % ROWS_PER_BLOCK).toNat, ROWS_PER_BLOCK⟩
  | _ =>
    ⟨call.src0.offset + i01 * call.src0Nb.1 + i11 * call.src0Nb.2.1 + i12 * call.src0Nb.2.2,
      call.src0Nb.1, 0, 1⟩

/-- `ctypes.create_string_buffer`. -/
def createStringBuffer (nbytes : Int) : Prog (List Byte) (List Byte) :=
  if nbytes < 0 then throw (.valueError "Array length must be >= 0")
  else pure (List.replicate nbytes.toNat 0)

variable (mapped : Nat → Bool)

/-- The source pointer. Only a slab without a mapping is served by a copy. -/
def sourcePointer (handle offset nbytes : Int) : Prog (List Byte) Pointer := do
  match slabPointer (← get) mapped handle offset nbytes with
  | .ok view => pure (.slab view.1 view.2)
  | .error (.allocator .invalidRequest _) =>
    let _ ← createStringBuffer nbytes
    let bytes ← Board.read fakeIo handle offset nbytes true
    pure (.buffer bytes)
  | .error e => throw e

/-- The dst pointer. -/
def dstPointer (handle offset nbytes : Int) : Prog (List Byte) Pointer := do
  match slabPointer (← get) mapped handle offset nbytes with
  | .ok view => pure (.slab view.1 view.2)
  | .error (.allocator .invalidRequest _) =>
    let buffer ← createStringBuffer nbytes
    pure (.buffer buffer)
  | .error e => throw e

/-- `ctypes.c_size_t`. -/
def cSizeT (x : Int) : Nat := (x % 2 ^ sizeBits).toNat

/-- The arguments of the call for one row. -/
def rowArgs (call : RowsCall) (ne01 : Nat) : Args :=
  let srcNb := cSizeT sizeBits call.src0Nb.1
  let dstNb := cSizeT sizeBits call.dstNb.1
  ⟨(srcNb, srcNb, srcNb), (4, 4), (dstNb, dstNb, dstNb), cUint32 call.headDim, ne01, 1, 1, 1⟩

def checkGetRowsRc (ty : RowType) (rc : Int) : Prog (List Byte) Unit :=
  let tag := ty.tag
  if rc ≠ 0 then throw (.other s!"bonsai_get_rows_{tag} rc={rc}") else pure ()

/-- The C call for one row, and the write of its buffer. The buffer has `dst_nb1` bytes, and C
    writes a row of `head_dim` floats to it without a check: where these are more, this is an
    overrun, as it is when the row of `src0` ends behind the bytes that were resolved. -/
def callRow (ty : RowType) (call : RowsCall) (src : SourceRow) (srcPtr dstPtr : Pointer)
    (dstRowOffset : Int) :
    Prog (List Byte) Unit := do
  let srcMem ← srcPtr.memory 0
  let dstMem ← dstPtr.memory 0
  match bonsaiGetRows ops sizeBits ty (rowArgs sizeBits call src.ne01) srcMem
      (le32 (BitVec.ofNat 32 src.index)) dstMem with
  | none => throw overrun
  | some (rc, out) =>
    match dstPtr with
    | .slab index offset =>
      leaveInSlab index offset out
      checkGetRowsRc ty rc
    | .buffer _ =>
      checkGetRowsRc ty rc
      Board.write fakeIo call.dst.handle dstRowOffset (out.take call.dstNb.1.toNat) true

/-- The body of the loops of `GetRows.run`. -/
def runRow (ty : RowType) (call : RowsCall) (rowblockNbytes : Nat) (indicesBytes : List Byte)
    (t : Nat × Nat × Nat) :
    Prog (List Byte) Unit := do
  let (i12, i11, i10) := t
  let idxByteOff : Int := i10 * 4 + i11 * call.indicesNb.1 + i12 * call.indicesNb.2
  let i01 := fromBytesSigned (pySlice indicesBytes idxByteOff (idxByteOff + 4))
  let ne01 := call.ne01
  if i01 < 0 ∨ i01 ≥ ne01 then throw (.other s!"GET_ROWS index out of range: {i01} (ne01={ne01})")
  else
    let src := sourceRow ty call rowblockNbytes i01 i11 i12
    let dstRowOffset : Int :=
      call.dst.offset + i10 * call.dstNb.1 + i11 * call.dstNb.2.1 + i12 * call.dstNb.2.2
    let srcPtr ← sourcePointer mapped call.src0.handle src.offset src.nbytes
    let dstPtr ← dstPointer mapped call.dst.handle dstRowOffset call.dstNb.1
    callRow ops sizeBits ty call src srcPtr dstPtr dstRowOffset

/-- `rowblock_nbytes`, which is zero for the types that are not packed. -/
def rowblockNbytes (ty : RowType) (headDim : Nat) : Except Err Nat :=
  if ty = .q1_0 then Board.Matmul.liftLayout (Layout.packedBytesPerRowblock headDim) else .ok 0

/-- The type that passed the check of `src0_type`. -/
def RowType.ofTag (tag : String) : RowType :=
  if tag = "f32" then .f32 else if tag = "f16" then .f16 else .q1_0

/-- `GetRows.run`. -/
def run (op : Op) : Prog (List Byte) Unit := do
  let (tag, call) ← Board.liftExcept (prepareGetRows op)
  let ty := RowType.ofTag tag
  let rowblockNbytes ← Board.liftExcept (rowblockNbytes ty call.headDim)
  let indicesBytes ← Board.read fakeIo call.indices.handle call.indices.offset
    call.indices.nbytes true
  forM (triples call.ne12.toNat call.ne11.toNat call.ne10.toNat)
    (runRow ops sizeBits mapped ty call rowblockNbytes indicesBytes)

end

/-! ## Rows through windows -/

/-- How many bytes of `src0` the C function reads for a row. -/
def rowNbytes (ty : RowType) (headDim : Nat) : Nat :=
  match ty with
  | .f32 => 4 * headDim
  | .f16 => 2 * headDim
  | .q1_0 => headDim / Q1_BLOCK * PACKED_PER_Q1_BLOCK

/-- Where they start. -/
def rowPlace (ty : RowType) (nb : Nat × Nat × Nat) (headDim i01 i11 i12 : Nat) : Nat :=
  match ty with
  | .q1_0 => i01 / ROWS_PER_BLOCK * (headDim / Q1_BLOCK * PACKED_PER_Q1_BLOCK)
  | _ => i01 * nb.1 + i11 * nb.2.1 + i12 * nb.2.2

/-- The index of the row in them. -/
def rowIndex (ty : RowType) (i01 : Nat) : Nat := if ty = .q1_0 then i01 % ROWS_PER_BLOCK else 0

section

variable {ops : FloatOps (BitVec 32)} {sizeBits : Nat} {ty : RowType} {nb nb' : Nat × Nat × Nat}
    {headDim i01 i11 i12 : Nat}
  {mem src : List Byte}

/-- The addresses of the packed reader for a block of a row. -/
theorem block_of_lt {bpr rb b : Nat} (hb : b < bpr)
    (h : rb * (bpr * PACKED_PER_Q1_BLOCK) + bpr * PACKED_PER_Q1_BLOCK < 2 ^ sizeBits) :
    block sizeBits bpr rb b = rb * (bpr * PACKED_PER_Q1_BLOCK) + b * PACKED_PER_Q1_BLOCK := by
  have hle : b * PACKED_PER_Q1_BLOCK ≤ bpr * PACKED_PER_Q1_BLOCK :=
    Nat.mul_le_mul_right _ (Nat.le_of_lt hb)
  rw [block, Layout.sizeT_of_lt (by omega : bpr * PACKED_PER_Q1_BLOCK < 2 ^ sizeBits),
    Layout.sizeT_of_lt (by omega), Layout.sizeT_of_lt (by omega)]

/-- The parts of a block are inside the rowblock. -/
theorem block_fits {bpr b : Nat} (hb : b < bpr) :
    b * PACKED_PER_Q1_BLOCK + 144 ≤ bpr * PACKED_PER_Q1_BLOCK := by
  have hle := Nat.mul_le_mul_right PACKED_PER_Q1_BLOCK hb
  rw [Nat.succ_mul] at hle
  exact hle

section

variable (hfit : i01 / ROWS_PER_BLOCK * (headDim / Q1_BLOCK * PACKED_PER_Q1_BLOCK) +
    headDim / Q1_BLOCK * PACKED_PER_Q1_BLOCK <
    2 ^ sizeBits) {b : Nat} (hb : b < headDim / Q1_BLOCK)
  (hwin : Window mem src (i01 / ROWS_PER_BLOCK * (headDim / Q1_BLOCK * PACKED_PER_Q1_BLOCK))
    (headDim / Q1_BLOCK * PACKED_PER_Q1_BLOCK))

include hfit hb hwin

theorem getRowsScale_window :
    getRowsScale sizeBits mem (headDim / Q1_BLOCK) (i01 % ROWS_PER_BLOCK) b =
      getRowsScale sizeBits src (headDim / Q1_BLOCK) i01 b := by
  have hbound := block_fits hb
  have hlane : i01 % ROWS_PER_BLOCK < 8 := Nat.mod_lt _ (by decide)
  have hzero : i01 % ROWS_PER_BLOCK / ROWS_PER_BLOCK = 0 := Nat.div_eq_of_lt hlane
  simp only [getRowsScale, Nat.mod_mod, hzero]
  rw [block_of_lt hb hfit, block_of_lt hb (by omega), Nat.zero_mul, Nat.zero_add,
    Layout.sizeT_of_lt (by omega), Layout.sizeT_of_lt (by omega),
    hwin.readLeU16 (by omega)]
  congr 1
  omega

theorem getRowsBits_window {sub : Nat} (hsub : sub < 4) :
    getRowsBits sizeBits mem (headDim / Q1_BLOCK) (i01 % ROWS_PER_BLOCK) b sub =
      getRowsBits sizeBits src (headDim / Q1_BLOCK) i01 b sub := by
  have hbound := block_fits hb
  have hlane : i01 % ROWS_PER_BLOCK < 8 := Nat.mod_lt _ (by decide)
  have hzero : i01 % ROWS_PER_BLOCK / ROWS_PER_BLOCK = 0 := Nat.div_eq_of_lt hlane
  have hscales : Layout.SCALES_BYTES = 16 := rfl
  have hwbits : sub * Layout.WBITS_BYTES = 32 * sub := Nat.mul_comm _ _
  simp only [getRowsBits, Nat.mod_mod, hzero]
  rw [block_of_lt hb hfit, block_of_lt hb (by omega), Nat.zero_mul, Nat.zero_add, hwbits, hscales,
    Layout.sizeT_of_lt (by omega), Layout.sizeT_of_lt (by omega), Layout.sizeT_of_lt (by omega),
    hwin.readLeU32 (by omega)]
  congr 1
  omega

end

/-- The row read through a window on its source is the row of the whole source. -/
theorem rowFloats_window
    (hfit : rowPlace ty nb headDim i01 i11 i12 + rowNbytes ty headDim < 2 ^ sizeBits)
    (hwin : Window mem src (rowPlace ty nb headDim i01 i11 i12) (rowNbytes ty headDim)) :
    rowFloats ops sizeBits ty nb' headDim mem (rowIndex ty i01) 0 0 =
      rowFloats ops sizeBits ty nb headDim src i01 i11 i12 := by
  have hzero : sizeT sizeBits (0 * nb'.1 + 0 * nb'.2.1 + 0 * nb'.2.2) = 0 := by
    simp only [Nat.zero_mul, Nat.add_zero]
    exact Nat.zero_mod _
  cases ty with
  | f32 =>
    simp only [rowPlace, rowNbytes] at hfit hwin
    simp only [rowFloats, rowIndex, reduceCtorEq, if_false, hzero,
      Layout.sizeT_of_lt (by omega : i01 * nb.1 + i11 * nb.2.1 + i12 * nb.2.2 < 2 ^ sizeBits)]
    refine Words.collect_congr fun d hd => ?_
    rw [Nat.zero_add, hwin.readLeU32 (by omega)]
  | f16 =>
    simp only [rowPlace, rowNbytes] at hfit hwin
    simp only [rowFloats, rowIndex, reduceCtorEq, if_false, hzero,
      Layout.sizeT_of_lt (by omega : i01 * nb.1 + i11 * nb.2.1 + i12 * nb.2.2 < 2 ^ sizeBits)]
    refine Words.collect_congr fun d hd => ?_
    rw [Nat.zero_add, hwin.readLeU16 (by omega)]
  | q1_0 =>
    simp only [rowPlace, rowNbytes] at hfit hwin
    simp only [rowFloats, rowIndex, if_true]
    refine Words.foldlM_congr (fun b hb row => ?_) _
    rw [getRowsScale_window hfit hb hwin]
    refine congrArg (Option.bind _) (funext fun scale => ?_)
    refine Words.foldlM_congr (fun sub hsub row => ?_) _
    rw [getRowsBits_window hfit hb hwin hsub]

/-- The loops that expand a row add one Q1 block after the other. -/
theorem getRow_spec (ops : FloatOps (BitVec 32)) {scaleAt : Nat → Option (BitVec 16)}
    {bitsAt : Nat → Nat → Option (BitVec 32)} {bpr : Nat}
    (hscale : ∀ b < bpr, (scaleAt b).isSome) (hbits : ∀ b < bpr, ∀ sub < 4, (bitsAt b sub).isSome) :
    ∃ row, getRow ops scaleAt bitsAt bpr = some row ∧ row.length = bpr * 128 := by
  refine Words.foldlM_inv (fun b (row : List (BitVec 32)) => row.length = b * 128)
    (Nat.zero_mul 128).symm fun b hb row hrow => ?_
  obtain ⟨scale, hs⟩ := Option.isSome_iff_exists.mp (hscale b hb)
  simp only [hs, Option.bind_eq_bind, Option.bind_some]
  obtain ⟨row', hrun, hlen⟩ := Words.foldlM_inv (fun sub (st : List (BitVec 32)) =>
    st.length = b * 128 + sub * 32)
    (n := 4) (f := fun st sub => do
      let bits ← bitsAt b sub
      some (st ++ expand ops (ops.ofHalf scale) bits)) (s := row) (by omega) (by
    intro sub hsub st hst
    obtain ⟨bits, hb'⟩ := Option.isSome_iff_exists.mp (hbits b hb sub hsub)
    refine ⟨st ++ expand ops (ops.ofHalf scale) bits, by rw [hb']; rfl, ?_⟩
    have hexpand : (expand ops (ops.ofHalf scale) bits).length = 32 := by
      simp [expand, Layout.Q8_BLOCK]
    rw [List.length_append, hst, hexpand]
    omega)
  exact ⟨row', hrun, by omega⟩

/-- A row inside the source can be read. -/
theorem rowFloats_spec (hq : ty = .q1_0 → headDim % Q1_BLOCK = 0)
    (hfit : rowPlace ty nb headDim i01 i11 i12 + rowNbytes ty headDim < 2 ^ sizeBits)
    (hin : rowPlace ty nb headDim i01 i11 i12 + rowNbytes ty headDim ≤ src.length) :
    ∃ row, rowFloats ops sizeBits ty nb headDim src i01 i11 i12 = some row ∧
      row.length = headDim := by
  cases ty with
  | f32 =>
    simp only [rowPlace, rowNbytes] at hfit hin
    simp only [rowFloats,
      Layout.sizeT_of_lt (by omega : i01 * nb.1 + i11 * nb.2.1 + i12 * nb.2.2 < 2 ^ sizeBits)]
    exact Words.collect_spec fun d hd => Words.readLeU32_isSome (by omega)
  | f16 =>
    simp only [rowPlace, rowNbytes] at hfit hin
    simp only [rowFloats,
      Layout.sizeT_of_lt (by omega : i01 * nb.1 + i11 * nb.2.1 + i12 * nb.2.2 < 2 ^ sizeBits)]
    exact Words.collect_spec fun d hd => by
      rw [Option.isSome_map]
      exact Words.readLeU16_isSome (by omega)
  | q1_0 =>
    simp only [rowPlace, rowNbytes] at hfit hin
    have hlane : i01 % ROWS_PER_BLOCK < 8 := Nat.mod_lt _ (by decide)
    have hscale : ∀ b < headDim / Q1_BLOCK,
        (getRowsScale sizeBits src (headDim / Q1_BLOCK) i01 b).isSome := by
      intro b hb
      have hbound := block_fits hb
      simp only [getRowsScale]
      rw [block_of_lt hb hfit, Layout.sizeT_of_lt (by omega), Layout.sizeT_of_lt (by omega)]
      exact Words.readLeU16_isSome (by omega)
    have hbits : ∀ b < headDim / Q1_BLOCK, ∀ sub < 4,
        (getRowsBits sizeBits src (headDim / Q1_BLOCK) i01 b sub).isSome := by
      intro b hb sub hsub
      have hbound := block_fits hb
      have hscales : Layout.SCALES_BYTES = 16 := rfl
      have hwbits : sub * Layout.WBITS_BYTES = 32 * sub := Nat.mul_comm _ _
      simp only [getRowsBits]
      rw [block_of_lt hb hfit, hwbits, hscales, Layout.sizeT_of_lt (by omega),
        Layout.sizeT_of_lt (by omega), Layout.sizeT_of_lt (by omega)]
      exact Words.readLeU32_isSome (by omega)
    obtain ⟨row, hrow, hlen⟩ := getRow_spec ops hscale hbits
    refine ⟨row, hrow, ?_⟩
    rw [hlen]
    exact Nat.div_mul_cancel (Nat.dvd_of_mod_eq_zero (hq rfl))

end

/-! ## One row of the wrapper -/

section

variable {ops : FloatOps (BitVec 32)} {sizeBits : Nat} {ty : RowType} {args : Args}
    {mapped : Nat → Bool}

theorem loadSigned_index {index : Nat} (h : index < 8) :
    loadSigned (le32 (BitVec.ofNat 32 index)) 0 4 = some (index : Int) := by
  have hall : ∀ i < 8, loadSigned (le32 (BitVec.ofNat 32 i)) 0 4 = some (i : Int) := by decide
  exact hall index h

/-- The C function called for one row stores this row. -/
theorem bonsaiGetRows_one {src dst : List Byte} {index : Nat} {row : List (BitVec 32)}
    (hone : args.ne10 = 1 ∧ args.ne11 = 1 ∧ args.ne12 = 1)
    (hindex : index < args.ne01) (hlane : index < 8) (hdim : args.headDim ≠ 0)
    (hq : ty = .q1_0 → args.headDim % Q1_BLOCK = 0)
    (hrow : rowFloats ops sizeBits ty args.src0Nb args.headDim src index 0 0 = some row)
    (hdst : 4 * row.length ≤ dst.length) :
    ∃ out, Words.store dst 0 (floatBytes row) = some out ∧
      bonsaiGetRows ops sizeBits ty args src (le32 (BitVec.ofNat 32 index)) dst =
        some (0, out) := by
  obtain ⟨h10, h11, h12⟩ := hone
  have hcheck : ¬(args.headDim = 0 ∨ ty = .q1_0 ∧ args.headDim % Q1_BLOCK ≠ 0) := by
    rintro (h | ⟨h, hne⟩)
    · exact hdim h
    · exact hne (hq h)
  have hzero : sizeT sizeBits 0 = 0 := Nat.zero_mod _
  have hrange : ¬((index : Int) < 0 ∨ (index : Int) ≥ args.ne01) := by omega
  have hcrow : cRow ops sizeBits ty args src (le32 (BitVec.ofNat 32 index)) (0, 0, 0) =
      some (.ok (0, floatBytes row)) := by
    simp only [cRow, Nat.zero_mul, Nat.add_zero, hzero, loadSigned_index hlane, Option.bind_eq_bind,
      Option.bind_some, if_neg hrange, Int.toNat_natCast, hrow]
  have hfits : 0 + (floatBytes row).length ≤ dst.length := by
    rw [length_floatBytes]
    omega
  obtain ⟨out, hstore, -, -⟩ := Words.store_spec hfits
  refine ⟨out, hstore, ?_⟩
  have htriples : triples args.ne12 args.ne11 args.ne10 = [(0, 0, 0)] := by rw [h10, h11, h12]; rfl
  rw [bonsaiGetRows, if_neg hcheck, htriples, storeRows_cons hcrow hstore]
  rfl

variable {a : Allocator (List Byte)} {r : TensorRecord} {offset nbytes : Nat} {view : Nat × Nat}

/-- The source pointer shows the range, whether or not the slab is mapped. -/
theorem run_sourcePointer (mapped : Nat → Bool) (ha : a.Inv) (hfill : a.Filled) (hr : r ∈ a.records)
    (hpos : 0 < nbytes) (hview : a.slabView r.handle offset nbytes = .ok view) :
    ∃ p mem, (sourcePointer mapped r.handle offset nbytes).run a = .ok p a ∧
      (p.memory 0).run a = .ok mem a ∧
      Window mem (contents a r) offset nbytes := by
  obtain ⟨hin, -⟩ := ha.slabView_ok hr hview
  by_cases hm : mapped view.1
  · obtain ⟨mem, hmem, -, hwin⟩ := run_memory_slab ha hfill hr hpos hview 0
    refine ⟨.slab view.1 view.2, mem, ?_, hmem, fun k hk => ?_⟩
    · simp only [sourcePointer, EStateM.run_bind, EStateM.run_get, slabPointer_ok hview, if_pos hm,
        EStateM.run_pure]
    · rw [hwin k (by omega), Nat.add_zero]
  · have hneg : ¬(nbytes : Int) < 0 := by omega
    refine ⟨.buffer (((contents a r).drop offset).take nbytes), _, ?_, rfl, ?_⟩
    · simp only [sourcePointer, EStateM.run_bind, EStateM.run_get, slabPointer_ok hview, if_neg hm,
        createStringBuffer, if_neg hneg, EStateM.run_pure, run_read_range ha hfill hr hin]
    · refine Window.of_take ?_
      rw [List.drop_zero, List.take_take, Nat.min_self]

/-- The dst pointer has room for the range. -/
theorem run_dstPointer (mapped : Nat → Bool) (ha : a.Inv) (hfill : a.Filled) (hr : r ∈ a.records)
    (hpos : 0 < nbytes) (hview : a.slabView r.handle offset nbytes = .ok view) :
    ∃ p mem, (dstPointer mapped r.handle offset nbytes).run a = .ok p a ∧
      (p.memory 0).run a = .ok mem a ∧
      (p = .slab view.1 view.2 ∧ nbytes ≤ mem.length ∨ p = .buffer mem ∧ mem.length = nbytes) := by
  by_cases hm : mapped view.1
  · obtain ⟨mem, hmem, hlen, -⟩ := run_memory_slab ha hfill hr hpos hview 0
    refine ⟨.slab view.1 view.2, mem, ?_, hmem, Or.inl ⟨rfl, hlen⟩⟩
    simp only [dstPointer, EStateM.run_bind, EStateM.run_get, slabPointer_ok hview, if_pos hm,
      EStateM.run_pure]
  · have hneg : ¬(nbytes : Int) < 0 := by omega
    refine ⟨.buffer (List.replicate nbytes 0), List.replicate nbytes 0, ?_, rfl,
      Or.inr ⟨rfl, List.length_replicate⟩⟩
    simp only [dstPointer, EStateM.run_bind, EStateM.run_get, slabPointer_ok hview, if_neg hm,
      createStringBuffer, if_neg hneg, EStateM.run_pure, Int.toNat_natCast]

/-- A range that no view shows ends both. -/
theorem run_pointers_raise (ha : a.Inv) (hr : r ∈ a.records) (hpos : 0 < nbytes) {e : Err}
    (hview : a.slabView r.handle offset nbytes = .error e) :
    (sourcePointer mapped r.handle offset nbytes).run a = .error e a ∧
      (dstPointer mapped r.handle offset nbytes).run a = .error e a := by
  obtain ⟨code, message, rfl, hcode⟩ := ha.slabView_error hr hpos hview
  simp only [sourcePointer, dstPointer, EStateM.run_bind, EStateM.run_get, slabPointer_error hview]
  cases code with
  | invalidRequest => exact absurd rfl hcode
  | _ => exact ⟨rfl, rfl⟩

end

/-! ## Jobs -/

/-- The rows of a call, in the order of the loops. -/
def Args.rows (args : Args) : List (Nat × Nat × Nat) := triples args.ne12 args.ne11 args.ne10

def Args.indexPlace (args : Args) (t : Nat × Nat × Nat) : Nat :=
  t.2.2 * 4 + t.2.1 * args.indicesNb.1 + t.1 * args.indicesNb.2

def Args.dstPlace (args : Args) (t : Nat × Nat × Nat) : Nat :=
  t.2.2 * args.dstNb.1 + t.2.1 * args.dstNb.2.1 + t.1 * args.dstNb.2.2

/-- The call that the wrapper prepares for these arguments, with a handle and an offset for each
    tensor. -/
def Args.call (args : Args) (src0 indices dst : Nat × Nat) : RowsCall where
  headDim := args.headDim
  ne01 := args.ne01
  ne02 := 1
  ne03 := 1
  ne10 := args.ne10
  ne11 := args.ne11
  ne12 := args.ne12
  src0Nb := (args.src0Nb.1, args.src0Nb.2.1, args.src0Nb.2.2)
  indicesNb := (args.indicesNb.1, args.indicesNb.2)
  dstNb := (args.dstNb.1, args.dstNb.2.1, args.dstNb.2.2)
  src0 := ⟨src0.1, src0.2, 0⟩
  indices := ⟨indices.1, indices.2, args.indicesNb.2 * args.ne12⟩
  dst := ⟨dst.1, dst.2, 0⟩

/-- A GET_ROWS op as the lowering emits it, on live tensors. Packed weights are a plain
    matrix, dst is contiguous, the rows of src0 do not overlap each other or the rows of
    dst, and the index table that the wrapper reads has all indices. -/
structure Job (sizeBits : Nat) where
  a : Allocator (List Byte)
  inv : a.Inv
  filled : a.Filled
  op : Op
  ty : RowType
  args : Args
  src : TensorRecord
  idx : TensorRecord
  dst : TensorRecord
  srcOffset : Nat
  idxOffset : Nat
  dstOffset : Nat
  srcLive : src ∈ a.records
  idxLive : idx ∈ a.records
  dstLive : dst ∈ a.records
  addressable : src.nbytes < 2 ^ sizeBits ∧ idx.nbytes < 2 ^ sizeBits ∧ dst.nbytes < 2 ^ sizeBits
  prepared : prepareGetRows op =
    .ok (ty.tag, args.call (src.handle, srcOffset) (idx.handle, idxOffset) (dst.handle, dstOffset))
  dimPos : 0 < args.headDim
  dims : args.headDim < 2 ^ 32 ∧ args.ne01 < 2 ^ 32 ∧ args.ne10 < 2 ^ 32 ∧ args.ne11 < 2 ^ 32 ∧
    args.ne12 < 2 ^ 32
  packed : ty = .q1_0 → args.headDim % Q1_BLOCK = 0 ∧ args.ne11 = 1 ∧ args.ne12 = 1
  strided : ty ≠ .q1_0 → rowNbytes ty args.headDim ≤ args.src0Nb.1
  contiguous : args.dstNb = (4 * args.headDim, 4 * args.headDim * args.ne10,
    4 * args.headDim * args.ne10 * args.ne11)
  covered : ∀ t ∈ args.rows, args.indexPlace t + 4 ≤ args.indicesNb.2 * args.ne12
  index : Nat × Nat × Nat → Nat
  indices : ∀ t ∈ args.rows, index t < args.ne01 ∧
    loadSigned ((contents a idx).drop idxOffset) (args.indexPlace t) 4 = some (index t : Int)
  apart : ∀ t ∈ args.rows, ∀ t' ∈ args.rows,
    ∀ loc ∈ rangeLocations src.extents
        (srcOffset + rowPlace ty args.src0Nb args.headDim (index t) t.2.1 t.1)
        (rowNbytes ty args.headDim),
      loc ∉ rangeLocations dst.extents (dstOffset + args.dstPlace t') (4 * args.headDim)

namespace Job

variable {sizeBits : Nat} (j : Job sizeBits)

def call : RowsCall :=
  j.args.call (j.src.handle, j.srcOffset) (j.idx.handle, j.idxOffset) (j.dst.handle, j.dstOffset)

def srcPlace (t : Nat × Nat × Nat) : Nat :=
  rowPlace j.ty j.args.src0Nb j.args.headDim (j.index t) t.2.1 t.1

/-- How much the wrapper resolves of `src0` for a row. -/
def srcNbytes : Nat := if j.ty = .q1_0 then rowNbytes .q1_0 j.args.headDim else j.args.src0Nb.1

/-- The bytes of the rows of dst. -/
def InDst (loc : Board.Loc) : Prop :=
  ∃ t ∈ j.args.rows, loc ∈ rangeLocations j.dst.extents (j.dstOffset + j.args.dstPlace t)
    (4 * j.args.headDim)

/-- The index table is in bounds, and every row of dst and every source row, or packed rowblock,
    lies in one extent. -/
def InExtents : Prop :=
  j.idxOffset + j.args.indicesNb.2 * j.args.ne12 ≤ j.idx.nbytes ∧ ∀ t ∈ j.args.rows,
    WithinExtent j.src.extents (j.srcOffset + j.srcPlace t) j.srcNbytes ∧
    WithinExtent j.dst.extents (j.dstOffset + j.args.dstPlace t) (4 * j.args.headDim)

variable (ops : FloatOps (BitVec 32)) (mapped : Nat → Bool)

/-- Row `t` of `src0`, dequantised. -/
def sourceFloats (t : Nat × Nat × Nat) : Option (List (BitVec 32)) :=
  rowFloats ops sizeBits j.ty j.args.src0Nb j.args.headDim ((contents j.a j.src).drop j.srcOffset)
    (j.index t) t.2.1 t.1

/-- The bulk function on contiguous copies of the tensors. -/
def bulk : Option (Int × List Byte) :=
  bonsaiGetRows ops sizeBits j.ty j.args ((contents j.a j.src).drop j.srcOffset)
    ((contents j.a j.idx).drop j.idxOffset) ((contents j.a j.dst).drop j.dstOffset)

/-- The op succeeds, every row of dst holds its source row, nothing else has changed, and the bulk
    function leaves the same. -/
def Correct : Prop :=
  ∃ a', (run ops sizeBits mapped j.op).run j.a = .ok () a' ∧
    (∀ t ∈ j.args.rows, ∃ row, j.sourceFloats ops t = some row ∧
      ((contents a' j.dst).drop (j.dstOffset + j.args.dstPlace t)).take (4 * j.args.headDim) =
        floatBytes row) ∧
    (∀ loc, ¬j.InDst loc → byteAt a' loc = byteAt j.a loc) ∧
    j.bulk ops = some (0, (contents a' j.dst).drop j.dstOffset)

variable {j} {ops mapped} {t : Nat × Nat × Nat}

theorem rowNbytes_le : rowNbytes j.ty j.args.headDim ≤ j.srcNbytes := by
  unfold srcNbytes
  split
  · next h => rw [h]
  · next h => exact j.strided h

theorem rowNbytes_pos : 0 < rowNbytes j.ty j.args.headDim := by
  have hpos := j.dimPos
  cases hty : j.ty with
  | f32 => simp only [rowNbytes]; omega
  | f16 => simp only [rowNbytes]; omega
  | q1_0 =>
    have hmod := (j.packed hty).1
    have hblocks : 0 < j.args.headDim / Q1_BLOCK :=
      Nat.div_pos (Nat.le_of_dvd hpos (Nat.dvd_of_mod_eq_zero hmod)) (by decide)
    exact Nat.mul_pos hblocks (by decide)

/-- `rowblock_nbytes` as far as it is used. -/
theorem rowblockNbytes_ok : ∃ n, rowblockNbytes j.ty j.args.headDim = .ok n ∧
    (j.ty = .q1_0 → n = rowNbytes .q1_0 j.args.headDim) := by
  by_cases hq : j.ty = .q1_0
  · refine ⟨rowNbytes .q1_0 j.args.headDim, ?_, fun _ => rfl⟩
    rw [rowblockNbytes, if_pos hq, Layout.packedBytesPerRowblock_ok (j.packed hq).1]
    rfl
  · exact ⟨0, if_neg hq, fun h => absurd h hq⟩

/-- What the wrapper computes for a row. -/
theorem sourceRow_eq (ht : t ∈ j.args.rows) {n : Nat}
    (hn : j.ty = .q1_0 → n = rowNbytes .q1_0 j.args.headDim) :
    sourceRow j.ty j.call n (j.index t) t.2.1 t.1 =
      ⟨((j.srcOffset + j.srcPlace t : Nat) : Int), (j.srcNbytes : Int), rowIndex j.ty (j.index t),
        if j.ty = .q1_0 then ROWS_PER_BLOCK else 1⟩ := by
  obtain ⟨h2, h1, -⟩ := mem_triples.mp ht
  cases hty : j.ty with
  | f32 | f16 =>
    simp only [sourceRow, call, Args.call, srcPlace, srcNbytes, rowPlace, rowIndex, hty,
      reduceCtorEq, if_false]
    push_cast
    simp only [Int.add_assoc]
  | q1_0 =>
    obtain ⟨-, hne11, hne12⟩ := j.packed hty
    have hzero2 : t.1 = 0 := by omega
    have hzero1 : t.2.1 = 0 := by omega
    simp only [sourceRow, call, Args.call, srcPlace, srcNbytes, rowPlace, rowNbytes, rowIndex, hty,
      hn hty, hzero1, hzero2, if_true]
    push_cast
    simp only [SourceRow.mk.injEq, true_and, and_true]
    omega

theorem dstRowOffset_eq :
    (j.call.dst.offset : Int) + t.2.2 * j.call.dstNb.1 + t.2.1 * j.call.dstNb.2.1 +
      t.1 * j.call.dstNb.2.2 =
      ((j.dstOffset + j.args.dstPlace t : Nat) : Int) := by
  simp only [call, Args.call, Args.dstPlace]
  push_cast
  omega

theorem idxByteOff_eq :
    (t.2.2 : Int) * 4 + t.2.1 * j.call.indicesNb.1 + t.1 * j.call.indicesNb.2 =
      (j.args.indexPlace t : Int) := by
  simp only [call, Args.call, Args.indexPlace]
  push_cast
  rfl

/-- The index table as the wrapper has it. -/
def table (j : Job sizeBits) : List Byte :=
  ((contents j.a j.idx).drop j.idxOffset).take (j.args.indicesNb.2 * j.args.ne12)

theorem index_eq (hidx : j.idxOffset + j.args.indicesNb.2 * j.args.ne12 ≤ j.idx.nbytes)
    (ht : t ∈ j.args.rows) :
    fromBytesSigned (pySlice j.table (j.args.indexPlace t) (j.args.indexPlace t + 4)) =
      j.index t := by
  have hlen : j.table.length = j.args.indicesNb.2 * j.args.ne12 := by
    rw [table, List.length_take, List.length_drop, j.inv.length_contents j.idxLive]
    omega
  have hload : loadSigned ((contents j.a j.idx).drop j.idxOffset) (j.args.indexPlace t) 4 =
      some (fromBytesSigned (pySlice j.table (j.args.indexPlace t) (j.args.indexPlace t + 4))) :=
    loadSigned_of_slice (hlen ▸ j.covered t ht) (by rw [hlen]; rfl)
  rw [(j.indices t ht).2] at hload
  exact (Option.some.inj hload).symm

section

variable (hsrc : WithinExtent j.src.extents (j.srcOffset + j.srcPlace t) j.srcNbytes)

include hsrc

theorem source_in : j.srcOffset + j.srcPlace t + j.srcNbytes ≤ j.src.nbytes := by
  have hpos : 0 < j.srcNbytes := Nat.lt_of_lt_of_le rowNbytes_pos rowNbytes_le
  obtain ⟨view, hview⟩ := (j.inv.slabView_iff j.srcLive hpos).mpr hsrc
  exact (j.inv.slabView_ok j.srcLive hview).1

theorem source_addressable : j.srcPlace t + rowNbytes j.ty j.args.headDim < 2 ^ sizeBits := by
  have hin := source_in hsrc
  have hle : rowNbytes j.ty j.args.headDim ≤ j.srcNbytes := rowNbytes_le
  have := j.addressable.1
  omega

theorem sourceFloats_spec (ops : FloatOps (BitVec 32)) :
    ∃ row, j.sourceFloats ops t = some row ∧ row.length = j.args.headDim := by
  refine rowFloats_spec (fun h => (j.packed h).1) (source_addressable hsrc) ?_
  have hin := source_in hsrc
  have hle : rowNbytes j.ty j.args.headDim ≤ j.srcNbytes := rowNbytes_le
  rw [List.length_drop, j.inv.length_contents j.srcLive]
  simp only [srcPlace] at hin
  omega

end

/-- The row of the bulk function. -/
theorem cRow_eq (ht : t ∈ j.args.rows) {row : List (BitVec 32)}
    (hrow : j.sourceFloats ops t = some row)
    (hdst : j.dstOffset + j.args.dstPlace t < 2 ^ sizeBits) :
    cRow ops sizeBits j.ty j.args ((contents j.a j.src).drop j.srcOffset)
      ((contents j.a j.idx).drop j.idxOffset) t =
      some (.ok (j.args.dstPlace t, floatBytes row)) := by
  obtain ⟨hlt, hload⟩ := j.indices t ht
  have hplace : j.args.indexPlace t < 2 ^ sizeBits := by
    have hload' := hload
    unfold loadSigned at hload'
    split at hload'
    · next hin =>
      rw [List.length_drop, j.inv.length_contents j.idxLive] at hin
      have := j.addressable.2.1
      omega
    · cases hload'
  have hrange : ¬((j.index t : Int) < 0 ∨ (j.index t : Int) ≥ j.args.ne01) := by omega
  have hsize : sizeT sizeBits (t.2.2 * 4 + t.2.1 * j.args.indicesNb.1 + t.1 * j.args.indicesNb.2) =
      j.args.indexPlace t :=
    Layout.sizeT_of_lt hplace
  have hsize' : sizeT sizeBits (t.2.2 * j.args.dstNb.1 + t.2.1 * j.args.dstNb.2.1 +
      t.1 * j.args.dstNb.2.2) = j.args.dstPlace t :=
    Layout.sizeT_of_lt (by simp only [Args.dstPlace] at hdst; omega)
  have hrow' : rowFloats ops sizeBits j.ty j.args.src0Nb j.args.headDim
      ((contents j.a j.src).drop j.srcOffset) (j.index t) t.2.1 t.1 =
      some row := hrow
  simp only [cRow, hsize, hload, Option.bind_eq_bind, Option.bind_some, if_neg hrange,
    Int.toNat_natCast, hrow', hsize']

/-- The source is the same in all states of the run. -/
theorem window_of_touched (ht : t ∈ j.args.rows) {a : Allocator (List Byte)}
    (hta : Touched j.InDst j.a a) {mem : List Byte}
    (hwin : Window mem (contents a j.src) (j.srcOffset + j.srcPlace t) j.srcNbytes) :
    Window mem ((contents j.a j.src).drop j.srcOffset) (j.srcPlace t)
      (rowNbytes j.ty j.args.headDim) := by
  have hle : rowNbytes j.ty j.args.headDim ≤ j.srcNbytes := rowNbytes_le
  have hrange : ((contents a j.src).drop (j.srcOffset + j.srcPlace t)).take
      (rowNbytes j.ty j.args.headDim) =
      ((contents j.a j.src).drop (j.srcOffset + j.srcPlace t)).take
        (rowNbytes j.ty j.args.headDim) :=
    hta.range fun loc hloc ⟨t', ht', hin⟩ => j.apart t ht t' ht' loc hloc hin
  intro k hk
  have hget := congrArg (fun l => l[k]?) hrange
  simp only [List.getElem?_take_of_lt hk, List.getElem?_drop] at hget
  rw [hwin k (by omega), hget, List.getElem?_drop, Nat.add_assoc]

/-- The call for one row stores the source row, in the slab or through a buffer. -/
theorem run_callRow {a : Allocator (List Byte)} (ha : a.Inv) (hfill : a.Filled)
    (hlive : j.dst ∈ a.records) {srcPtr dstPtr : Pointer}
    {srcMem dstMem : List Byte} {view : Nat × Nat} {src : SourceRow} {row : List (BitVec 32)}
    (hsrcMem : (srcPtr.memory 0).run a = .ok srcMem a)
    (hdstMem : (dstPtr.memory 0).run a = .ok dstMem a)
    (hptr : dstPtr = .slab view.1 view.2 ∧ 4 * j.args.headDim ≤ dstMem.length ∨
      dstPtr = .buffer dstMem ∧ dstMem.length = 4 * j.args.headDim)
    (hview : a.slabView j.dst.handle (j.dstOffset + j.args.dstPlace t : Nat)
      (4 * j.args.headDim : Nat) = .ok view)
    (hindex : src.index < src.ne01 ∧ src.index < 8) (hlen : row.length = j.args.headDim)
    (hrow : rowFloats ops sizeBits j.ty (rowArgs sizeBits j.call src.ne01).src0Nb j.args.headDim
      srcMem src.index 0 0 = some row) :
    ∃ a',
      (callRow ops sizeBits j.ty j.call src srcPtr dstPtr
        (j.dstOffset + j.args.dstPlace t : Nat)).run a = .ok () a' ∧
      Board.Wrote a a' (rangeLocations j.dst.extents (j.dstOffset + j.args.dstPlace t)
        (floatBytes row).length) (floatBytes row) := by
  have hbytes : (floatBytes row).length = 4 * j.args.headDim := by rw [length_floatBytes, hlen]
  have hdim : (rowArgs sizeBits j.call src.ne01).headDim = j.args.headDim :=
    Nat.mod_eq_of_lt j.dims.1
  have hpos := j.dimPos
  have hroom : 4 * row.length ≤ dstMem.length := by
    rcases hptr with ⟨-, h⟩ | ⟨-, h⟩
    · omega
    · omega
  have hone : ∃ out, Words.store dstMem 0 (floatBytes row) = some out ∧
      bonsaiGetRows ops sizeBits j.ty (rowArgs sizeBits j.call src.ne01) srcMem
        (le32 (BitVec.ofNat 32 src.index)) dstMem = some (0, out) :=
    bonsaiGetRows_one ⟨rfl, rfl, rfl⟩ hindex.1 hindex.2 (by rw [hdim]; omega)
      (by rw [hdim]; exact fun h => (j.packed h).1)
      (by rw [hdim]; exact hrow) hroom
  obtain ⟨out, hstore, hcall⟩ := hone
  simp only [callRow, EStateM.run_bind, hsrcMem, hdstMem, hcall]
  rcases hptr with ⟨rfl, -⟩ | ⟨rfl, hmem⟩
  · -- one extent: the C function wrote in the slab itself
    rw [← hbytes] at hview
    obtain ⟨a', hrun, hwrote⟩ := run_leaveInSlab ha hfill hlive (by omega) hview hdstMem hstore
    refine ⟨a', ?_, hwrote⟩
    simp only [EStateM.run_bind, hrun]
    rfl
  · -- several extents: the scratch row is copied through `write`
    have hin := (ha.slabView_ok hlive hview).1
    have hfits : j.dstOffset + j.args.dstPlace t + (floatBytes row).length ≤ j.dst.nbytes := by
      omega
    obtain ⟨a', hrun, hwrote⟩ := run_write_range ha hfill hlive hfits
    refine ⟨a', ?_, hwrote⟩
    have hout : out = floatBytes row := by
      rw [Words.store, if_pos (by omega), Option.some.injEq] at hstore
      rw [← hstore, List.take_zero, List.nil_append, List.drop_of_length_le (by omega),
        List.append_nil]
    have hnb : j.call.dstNb.1.toNat = 4 * j.args.headDim := by
      simp only [call, Args.call, j.contiguous, Int.toNat_natCast]
    rw [hout, hnb, List.take_of_length_le (by omega)]
    exact hrun

/-- The source row of the wrapper. -/
def sourceOf (j : Job sizeBits) (t : Nat × Nat × Nat) : SourceRow :=
  ⟨((j.srcOffset + j.srcPlace t : Nat) : Int), (j.srcNbytes : Int), rowIndex j.ty (j.index t),
    if j.ty = .q1_0 then ROWS_PER_BLOCK else 1⟩

theorem sourceOf_index : (j.sourceOf t).index < (j.sourceOf t).ne01 ∧ (j.sourceOf t).index < 8 := by
  simp only [sourceOf, rowIndex]
  split
  · exact ⟨Nat.mod_lt _ (by decide), Nat.mod_lt _ (by decide)⟩
  · exact ⟨by decide, by decide⟩

/-- The wrapper finds the index of a row in range. -/
theorem runRow_eq (hidx : j.idxOffset + j.args.indicesNb.2 * j.args.ne12 ≤ j.idx.nbytes)
    (ht : t ∈ j.args.rows) {n : Nat} (hn : j.ty = .q1_0 → n = rowNbytes .q1_0 j.args.headDim) :
    runRow ops sizeBits mapped j.ty j.call n j.table t = (do
      let srcPtr ← sourcePointer mapped j.src.handle (j.srcOffset + j.srcPlace t : Nat) j.srcNbytes
      let dstPtr ← dstPointer mapped j.dst.handle (j.dstOffset + j.args.dstPlace t : Nat)
        (4 * j.args.headDim : Nat)
      callRow ops sizeBits j.ty j.call (j.sourceOf t) srcPtr dstPtr
        (j.dstOffset + j.args.dstPlace t : Nat)) := by
  have hrange : ¬((j.index t : Int) < 0 ∨ (j.index t : Int) ≥ j.call.ne01) := by
    have hlt : j.index t < j.call.ne01 := (j.indices t ht).1
    omega
  have hnb : j.call.dstNb.1 = (4 * j.args.headDim : Nat) := by
    simp only [call, Args.call, j.contiguous]
  obtain ⟨i12, i11, i10⟩ := t
  have hplace : (i10 : Int) * 4 + i11 * j.call.indicesNb.1 + i12 * j.call.indicesNb.2 =
      (j.args.indexPlace (i12, i11, i10) : Int) :=
    idxByteOff_eq (t := (i12, i11, i10))
  have hoffset : (j.call.dst.offset : Int) + i10 * j.call.dstNb.1 + i11 * j.call.dstNb.2.1 +
      i12 * j.call.dstNb.2.2 =
      ((j.dstOffset + j.args.dstPlace (i12, i11, i10) : Nat) : Int) :=
    dstRowOffset_eq (t := (i12, i11, i10))
  have hsource : sourceRow j.ty j.call n (j.index (i12, i11, i10)) i11 i12 =
      j.sourceOf (i12, i11, i10) := sourceRow_eq ht hn
  simp only [runRow, hplace, index_eq hidx ht, if_neg hrange, hsource, hoffset]
  rw [hnb]
  rfl

/-- A row whose ranges each lie in one extent. -/
theorem storesRow (hidx : j.idxOffset + j.args.indicesNb.2 * j.args.ne12 ≤ j.idx.nbytes)
    (ht : t ∈ j.args.rows)
    (hsrc : WithinExtent j.src.extents (j.srcOffset + j.srcPlace t) j.srcNbytes)
    (hdst : WithinExtent j.dst.extents (j.dstOffset + j.args.dstPlace t) (4 * j.args.headDim))
    {n : Nat} (hn : j.ty = .q1_0 → n = rowNbytes .q1_0 j.args.headDim) {a : Allocator (List Byte)}
    (hta : Touched j.InDst j.a a) :
    StoresRow (cRow ops sizeBits j.ty j.args ((contents j.a j.src).drop j.srcOffset)
      ((contents j.a j.idx).drop j.idxOffset))
      (runRow ops sizeBits mapped j.ty j.call n j.table) j.InDst j.dst j.dstOffset t a := by
  have ha := hta.inv j.inv
  have hfill := hta.filled j.filled
  have hsrcLive : j.src ∈ a.records := hta.records ▸ j.srcLive
  have hdstLive : j.dst ∈ a.records := hta.records ▸ j.dstLive
  have hsrcPos : 0 < j.srcNbytes := Nat.lt_of_lt_of_le rowNbytes_pos rowNbytes_le
  have hdstPos : 0 < 4 * j.args.headDim := Nat.mul_pos (by decide) j.dimPos
  obtain ⟨srcView, hsrcView⟩ := (ha.slabView_iff hsrcLive hsrcPos).mpr hsrc
  obtain ⟨dstView, hdstView⟩ := (ha.slabView_iff hdstLive hdstPos).mpr hdst
  have hin := (ha.slabView_ok hdstLive hdstView).1
  obtain ⟨row, hrow, hlen⟩ := sourceFloats_spec hsrc ops
  obtain ⟨srcPtr, srcMem, hsrcPtr, hsrcMem, hwin⟩ :=
    run_sourcePointer mapped ha hfill hsrcLive hsrcPos hsrcView
  obtain ⟨dstPtr, dstMem, hdstPtr, hdstMem, hptr⟩ :=
    run_dstPointer mapped ha hfill hdstLive hdstPos hdstView
  have hbytes : (floatBytes row).length = 4 * j.args.headDim := by rw [length_floatBytes, hlen]
  have hmemRow : ∀ nb', rowFloats ops sizeBits j.ty nb' j.args.headDim srcMem
      (rowIndex j.ty (j.index t)) 0 0 = some row := by
    intro nb'
    rw [rowFloats_window (source_addressable hsrc) (window_of_touched ht hta hwin)]
    exact hrow
  obtain ⟨a', hrun, hwrote⟩ :=
    run_callRow ha hfill hdstLive hsrcMem hdstMem hptr hdstView (sourceOf_index (t := t))
      hlen (hmemRow _)
  refine ⟨j.args.dstPlace t, floatBytes row, a', cRow_eq ht hrow ?_, ?_, ?_, hwrote, ?_⟩
  · have := j.addressable.2.2
    omega
  · rw [runRow_eq hidx ht hn, EStateM.run_bind, hsrcPtr]
    simp only [EStateM.run_bind, hdstPtr, hrun]
  · omega
  · intro loc hloc
    rw [hbytes] at hloc
    exact ⟨t, ht, hloc⟩

/-- A row with a range across extents, or out of bounds, ends the op. -/
theorem runRow_raises (hidx : j.idxOffset + j.args.indicesNb.2 * j.args.ne12 ≤ j.idx.nbytes)
    (ht : t ∈ j.args.rows)
    (hnot : ¬(WithinExtent j.src.extents (j.srcOffset + j.srcPlace t) j.srcNbytes ∧
      WithinExtent j.dst.extents (j.dstOffset + j.args.dstPlace t) (4 * j.args.headDim)))
    {n : Nat} (hn : j.ty = .q1_0 → n = rowNbytes .q1_0 j.args.headDim) {a : Allocator (List Byte)}
    (hta : Touched j.InDst j.a a) :
    ∃ e, (runRow ops sizeBits mapped j.ty j.call n j.table t).run a = .error e a := by
  have ha := hta.inv j.inv
  have hfill := hta.filled j.filled
  have hsrcLive : j.src ∈ a.records := hta.records ▸ j.srcLive
  have hdstLive : j.dst ∈ a.records := hta.records ▸ j.dstLive
  have hsrcPos : 0 < j.srcNbytes := Nat.lt_of_lt_of_le rowNbytes_pos rowNbytes_le
  have hdstPos : 0 < 4 * j.args.headDim := Nat.mul_pos (by decide) j.dimPos
  rw [runRow_eq hidx ht hn]
  cases hsrcView : a.slabView j.src.handle (j.srcOffset + j.srcPlace t : Nat) j.srcNbytes with
  | error e =>
    exact ⟨e, by rw [EStateM.run_bind, (run_pointers_raise ha hsrcLive hsrcPos hsrcView).1]⟩
  | ok srcView =>
    have hsrc := (ha.slabView_iff hsrcLive hsrcPos).mp ⟨srcView, hsrcView⟩
    obtain ⟨srcPtr, -, hsrcPtr, -⟩ := run_sourcePointer mapped ha hfill hsrcLive hsrcPos hsrcView
    rw [EStateM.run_bind, hsrcPtr]
    cases hdstView : a.slabView j.dst.handle (j.dstOffset + j.args.dstPlace t : Nat)
      (4 * j.args.headDim : Nat) with
    | error e =>
      refine ⟨e, ?_⟩
      simp only [EStateM.run_bind, (run_pointers_raise ha hdstLive hdstPos hdstView).2]
    | ok dstView =>
      exact absurd ⟨hsrc, (ha.slabView_iff hdstLive hdstPos).mp ⟨dstView, hdstView⟩⟩ hnot

/-! ## The rows of dst -/

theorem dstPlace_eq : j.args.dstPlace t =
    4 * j.args.headDim * (t.2.2 + j.args.ne10 * (t.2.1 + j.args.ne11 * t.1)) := by
  simp only [Args.dstPlace, j.contiguous]
  ring

/-- Different rows have different places in the order of the loops. -/
theorem dstPlace_apart {t' : Nat × Nat × Nat} (ht : t ∈ j.args.rows) (ht' : t' ∈ j.args.rows)
    (hne : t' ≠ t) :
    j.args.dstPlace t' + 4 * j.args.headDim ≤ j.args.dstPlace t ∨
      j.args.dstPlace t + 4 * j.args.headDim ≤ j.args.dstPlace t' := by
  obtain ⟨-, h1, h0⟩ := mem_triples.mp ht
  obtain ⟨-, h1', h0'⟩ := mem_triples.mp ht'
  have hstep : ∀ x y : Nat, x < y → 4 * j.args.headDim * x + 4 * j.args.headDim ≤
      4 * j.args.headDim * y := by
    intro x y hxy
    rw [← Nat.mul_succ]
    exact Nat.mul_le_mul_left _ hxy
  rw [dstPlace_eq, dstPlace_eq]
  rcases Nat.lt_trichotomy (t'.2.2 + j.args.ne10 * (t'.2.1 + j.args.ne11 * t'.1))
      (t.2.2 + j.args.ne10 * (t.2.1 + j.args.ne11 * t.1)) with h | h | h
  · exact Or.inl (hstep _ _ h)
  · have hinner := congrArg (· % j.args.ne10) h
    simp only [Nat.add_mul_mod_self_left, Nat.mod_eq_of_lt h0, Nat.mod_eq_of_lt h0'] at hinner
    rw [hinner] at h
    have houter :=
      Nat.eq_of_mul_eq_mul_left (Nat.lt_of_le_of_lt (Nat.zero_le _) h0) (Nat.add_left_cancel h)
    have hmiddle := congrArg (· % j.args.ne11) houter
    simp only [Nat.add_mul_mod_self_left, Nat.mod_eq_of_lt h1, Nat.mod_eq_of_lt h1'] at hmiddle
    rw [hmiddle] at houter
    have hlast :=
      Nat.eq_of_mul_eq_mul_left (Nat.lt_of_le_of_lt (Nat.zero_le _) h1) (Nat.add_left_cancel houter)
    exact absurd (Prod.ext hlast (Prod.ext hmiddle hinner)) hne
  · exact Or.inr (hstep _ _ h)

/-- The rows that the bulk function leaves. -/
theorem row_of_stores
    (hall : ∀ t ∈ j.args.rows, WithinExtent j.src.extents (j.srcOffset + j.srcPlace t) j.srcNbytes ∧
      WithinExtent j.dst.extents (j.dstOffset + j.args.dstPlace t) (4 * j.args.headDim))
    {dst : List Byte} {a' : Allocator (List Byte)} {rc : Int}
    (h : storeRows (cRow ops sizeBits j.ty j.args ((contents j.a j.src).drop j.srcOffset)
      ((contents j.a j.idx).drop j.idxOffset))
      j.args.rows dst = some (rc, (contents a' j.dst).drop j.dstOffset)) (ht : t ∈ j.args.rows) :
    ∃ row, j.sourceFloats ops t = some row ∧
      ((contents a' j.dst).drop (j.dstOffset + j.args.dstPlace t)).take (4 * j.args.headDim) =
        floatBytes row := by
  have hdstPos : 0 < 4 * j.args.headDim := Nat.mul_pos (by decide) j.dimPos
  -- Every row has floats, so the loop stores `bytes t` at its place.
  let bytes := fun t => floatBytes ((j.sourceFloats ops t).getD [])
  have hfloats : ∀ t ∈ j.args.rows, ∃ row,
      j.sourceFloats ops t = some row ∧ bytes t = floatBytes row ∧
      (bytes t).length = 4 * j.args.headDim := by
    intro t ht
    obtain ⟨row, hrow, hlen⟩ := sourceFloats_spec (hall t ht).1 ops
    have hbytes : bytes t = floatBytes row := by simp only [bytes, hrow, Option.getD_some]
    exact ⟨row, hrow, hbytes, by rw [hbytes, length_floatBytes, hlen]⟩
  have hrows : ∀ t ∈ j.args.rows,
      cRow ops sizeBits j.ty j.args ((contents j.a j.src).drop j.srcOffset)
        ((contents j.a j.idx).drop j.idxOffset) t =
        some (.ok (j.args.dstPlace t, bytes t)) := by
    intro t ht
    obtain ⟨row, hrow, hbytes, -⟩ := hfloats t ht
    obtain ⟨view, hview⟩ := (j.inv.slabView_iff j.dstLive hdstPos).mpr (hall t ht).2
    have hin := (j.inv.slabView_ok j.dstLive hview).1
    have haddr := j.addressable.2.2
    rw [hbytes]
    exact cRow_eq ht hrow (by omega)
  obtain ⟨row, hrow, hbytes, hlen⟩ := hfloats t ht
  refine ⟨row, hrow, List.ext_getElem? fun k => ?_⟩
  rw [← hbytes]
  rcases Nat.lt_or_ge k (4 * j.args.headDim) with hk | hk
  · have hat := storeRows_row hrows h ht (fun t' ht' hne => by
      rw [hlen, (hfloats t' ht').choose_spec.2.2]
      exact dstPlace_apart ht ht' hne) (hlen ▸ hk)
    rw [List.getElem?_take_of_lt hk, List.getElem?_drop, ← hat, List.getElem?_drop, Nat.add_assoc]
  · rw [List.getElem?_take_eq_none hk, List.getElem?_eq_none (by omega)]

/-- The op with its checks done. -/
theorem run_eq : ∃ n, (j.ty = .q1_0 → n = rowNbytes .q1_0 j.args.headDim) ∧
    run ops sizeBits mapped j.op = (do
      let indicesBytes ← Board.read fakeIo j.idx.handle j.idxOffset
        (j.args.indicesNb.2 * j.args.ne12 : Nat) true
      forM j.args.rows (runRow ops sizeBits mapped j.ty j.call n indicesBytes)) := by
  obtain ⟨n, hn, hq⟩ := rowblockNbytes_ok (j := j)
  refine ⟨n, hq, ?_⟩
  have htag : RowType.ofTag j.ty.tag = j.ty := by cases j.ty <;> rfl
  have hdim : rowblockNbytes j.ty j.call.headDim = .ok n := hn
  have hprepared : prepareGetRows j.op = .ok (j.ty.tag, j.call) := j.prepared
  simp only [run, hprepared, Board.liftExcept, pure_bind, htag, hdim]
  rfl

end Job

/-- Two rows of four floats, the second across two slabs, an index and a row of dst. -/
def splitAllocator (row : Fin 2) : Allocator (List Byte) :=
  let attrs : Board.Attrs := ⟨[], "u8", "tensor", "raw"⟩
  (Board.calls fakeIo ⟨[Board.fakeSlab 24, Board.fakeSlab 28], [[(0, 24)], [(0, 28)]], [], 1, 4⟩
    [.allocate 32 attrs none, .allocate 4 attrs none, .allocate 16 attrs none,
      .write 1 0 ((List.range 32).map (BitVec.ofNat 8)) true,
      .write 2 0 [BitVec.ofNat 8 row, 0, 0, 0] true]).2

theorem splitAllocator_inv (row : Fin 2) :
    (splitAllocator row).Inv ∧ (splitAllocator row).Filled := by
  have hinit : Allocator.init [Board.fakeSlab 24, Board.fakeSlab 28] 4 =
      .ok ⟨[Board.fakeSlab 24, Board.fakeSlab 28], [[(0, 24)], [(0, 28)]], [], 1, 4⟩ := rfl
  have hinv := Allocator.Inv.init hinit
  refine ⟨hinv.calls _ _, Board.calls_filled hinv ?_ _⟩
  intro slab hslab
  simp only [List.mem_cons, List.not_mem_nil, or_false] at hslab
  rcases hslab with rfl | rfl
  · rfl
  · rfl

def splitOp : Op where
  name := "GET_ROWS"
  ints := [("src0", 1), ("indices", 2), ("dst", 3), ("head_dim", 4), ("ne01", 2), ("ne10", 1),
    ("src0_nb1", 16), ("src0_nb2", 32), ("src0_nb3", 32), ("indices_nb1", 4), ("indices_nb2", 4),
    ("dst_nb1", 16), ("dst_nb2", 16), ("dst_nb3", 16)]
  floats := []
  flags := []
  tags := [("src0_type", "f32"), ("indices_type", "i32")]

def splitJob (row : Fin 2) : Job 32 where
  a := splitAllocator row
  inv := (splitAllocator_inv row).1
  filled := (splitAllocator_inv row).2
  op := splitOp
  ty := .f32
  args := ⟨(16, 32, 32), (4, 4), (16, 16, 16), 4, 2, 1, 1, 1⟩
  src := ⟨1, 32, [], "u8", "tensor", "raw", [⟨0, 0, 24⟩, ⟨1, 0, 8⟩]⟩
  idx := ⟨2, 4, [], "u8", "tensor", "raw", [⟨1, 8, 4⟩]⟩
  dst := ⟨3, 16, [], "u8", "tensor", "raw", [⟨1, 12, 16⟩]⟩
  srcOffset := 0
  idxOffset := 0
  dstOffset := 0
  srcLive := by revert row; decide +kernel
  idxLive := by revert row; decide +kernel
  dstLive := by revert row; decide +kernel
  addressable := by decide
  prepared := rfl
  dimPos := by decide
  dims := by decide
  packed := by decide
  strided := by decide
  contiguous := rfl
  covered := by decide
  index _ := row
  indices := by revert row; decide +kernel
  apart := by revert row; decide +kernel

/-- The float operations play no part in a copy of floats. -/
def plainOps : FloatOps (BitVec 32) :=
  ⟨0#32, fun x => x == 0#32, fun h => h.setWidth 32, fun n => BitVec.ofInt 32 n, (· + ·), (· * ·),
    fun x => x ^^^ 0x80000000#32⟩

/-- Two rows of four floats in a slab each, three indices and their rows of dst. -/
def pickAllocator : Allocator (List Byte) :=
  let attrs : Board.Attrs := ⟨[], "u8", "tensor", "raw"⟩
  (Board.calls fakeIo
    ⟨[12, 16, 16, 48].map Board.fakeSlab, [[(0, 12)], [(0, 16)], [(0, 16)], [(0, 48)]], [], 1, 4⟩
    [.allocate 48 attrs none, .allocate 12 attrs none, .allocate 32 attrs none,
      .write 3 0 ((List.range 32).map (BitVec.ofNat 8)) true,
      .write 2 0 [1, 0, 0, 0, 0, 0, 0, 0, 1, 0, 0, 0] true]).2

theorem pickAllocator_inv : pickAllocator.Inv ∧ pickAllocator.Filled := by
  have hinit : Allocator.init ([12, 16, 16, 48].map Board.fakeSlab) 4 =
      .ok ⟨[12, 16, 16, 48].map Board.fakeSlab, [[(0, 12)], [(0, 16)], [(0, 16)], [(0, 48)]],
        [], 1, 4⟩ := rfl
  have hinv := Allocator.Inv.init hinit
  refine ⟨hinv.calls _ _, Board.calls_filled hinv ?_ _⟩
  intro slab hslab
  obtain ⟨size, -, rfl⟩ := List.mem_map.mp hslab
  simp only [Board.fakeSlab, List.length_replicate]

def pickOp : Op where
  name := "GET_ROWS"
  ints := [("src0", 3), ("indices", 2), ("dst", 1), ("head_dim", 4), ("ne01", 2), ("ne10", 3),
    ("src0_nb1", 16), ("src0_nb2", 32), ("src0_nb3", 32), ("indices_nb1", 12), ("indices_nb2", 12),
    ("dst_nb1", 16), ("dst_nb2", 48), ("dst_nb3", 48)]
  floats := []
  flags := []
  tags := [("src0_type", "f32"), ("indices_type", "i32")]

/-- The rows `1`, `0` and `1` again. -/
def pickJob : Job 32 where
  a := pickAllocator
  inv := pickAllocator_inv.1
  filled := pickAllocator_inv.2
  op := pickOp
  ty := .f32
  args := ⟨(16, 32, 32), (12, 12), (16, 48, 48), 4, 2, 3, 1, 1⟩
  src := ⟨3, 32, [], "u8", "tensor", "raw", [⟨1, 0, 16⟩, ⟨2, 0, 16⟩]⟩
  idx := ⟨2, 12, [], "u8", "tensor", "raw", [⟨0, 0, 12⟩]⟩
  dst := ⟨1, 48, [], "u8", "tensor", "raw", [⟨3, 0, 48⟩]⟩
  srcOffset := 0
  idxOffset := 0
  dstOffset := 0
  srcLive := by decide +kernel
  idxLive := by decide +kernel
  dstLive := by decide +kernel
  addressable := by decide
  prepared := rfl
  dimPos := by decide
  dims := by decide
  packed := by decide
  strided := by decide
  contiguous := rfl
  covered := by decide
  index t := if t.2.2 = 1 then 0 else 1
  indices := by decide +kernel
  apart := by decide +kernel

end Ps.GetRows
