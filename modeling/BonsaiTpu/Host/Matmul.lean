-- SUMMARY: The lowering of a ggml matmul to plans for the chip, and the fold of their partial sums (`matmul.cpp`, `plan.h`, `transport.h`).
import BonsaiTpu.Host.Schedule

/-!
# Matmul on the chip

The host quantises the activations of a column, then computes the output rows in
pairs: one plan a pair, with one run for each block of 32 activations, whose partial
sums it scales and adds up. The float operations and the conversion of a tensor row to
floats are parameters, and so is the transport. A vector is a function of its index.
-/

namespace Bonsai

/-- The operations on `float` that the lowering uses. `roundHalf` is the round trip through
    half precision. -/
structure FloatOps (F : Type) where
  zero : F
  isZero : F → Bool
  nonneg : F → Bool
  isFinite : F → Bool
  abs : F → F
  add : F → F → F
  mul : F → F → F
  div : F → F → F
  max : F → F → F
  ofInt : Int → F
  roundHalf : F → F
  lround : F → Int

def kWeightGroup : Nat := 128
def kActBlock : Nat := 32

/-! ## Scales and quants -/

section Quants

variable {F : Type} (ops : FloatOps F)

def weightGroupScale (w : Nat → F) (start stop : Nat) : F :=
  if stop ≤ start then ops.zero
  else
    let sum :=
      (List.range' start (stop - start)).foldl (fun sum i => ops.add sum (ops.abs (w i))) ops.zero
    ops.div sum (ops.ofInt (stop - start : Nat))

structure ActQuants (F : Type) where
  q : Nat → Byte
  scales : Nat → F

/-- The largest finite magnitude of a block. -/
def blockAmax (a : Nat → F) (n b : Nat) : F :=
  let bStart := b * kActBlock
  let bEnd := min (bStart + kActBlock) n
  (List.range' bStart (bEnd - bStart)).foldl (fun amax i =>
    if ops.isFinite (a i) then ops.max amax (ops.abs (a i)) else amax)
    ops.zero

/-- `quantize_acts_q8_0`. -/
def quantizeActsQ8 (a : Nat → F) (n : Nat) : ActQuants F where
  scales b :=
    let amax := blockAmax ops a n b
    if ops.isZero amax then ops.zero else ops.roundHalf (ops.div amax (ops.ofInt 127))
  q i :=
    let amax := blockAmax ops a n (i / kActBlock)
    if ops.isZero amax then 0
    else if ops.isFinite (a i) then
      let inv := ops.div (ops.ofInt 1) (ops.div amax (ops.ofInt 127))
      let q := ops.lround (ops.mul (a i) inv)
      BitVec.ofInt 8 (if q < -128 then -128 else if q > 127 then 127 else q)
    else 0

end Quants

/-! ## The plan of a pair of rows -/

/-- Where the tail of a run is in the plan, and the scales of its partial sums. -/
structure SubBlockMeta (F : Type) where
  tailOpIndex : Nat
  dW : Fin tileRows → F
  dA : F

structure CellPlan (F : Type) where
  plan : Plan
  subBlocks : List (SubBlockMeta F)

section Plans

variable {F : Type} (ops : FloatOps F) (weights : Fin tileRows → Option (Nat → F))
    (quants : ActQuants F)

/-- The weight bits of a row of a tile: one for a weight that is not negative, and zero past the
    end of the block and in a row that is not there. -/
def packedWeights (k0 q8End : Nat) (row : Fin tileRows) : Byte :=
  (List.range tileCols).foldl (fun packed lane =>
    if k0 + lane < q8End then
      match weights row with
      | some w => if ops.nonneg (w (k0 + lane)) then packed ||| 1#8 <<< lane else packed
      | none => packed
    else packed) 0

/-- Tile `t` of the block `[q8Start, q8End)`. -/
def tileOp (q8Start q8End nTiles t : Nat) : PlanOp where
  startsRun := t == 0
  endsRun := t == nTiles - 1
  matmulTile :=
    { packedWeights := packedWeights ops weights (q8Start + t * tileCols) q8End
      acts := fun lane => if q8Start + t * tileCols + lane < q8End then
        quants.q (q8Start + t * tileCols + lane) else 0
      seeds := fun _ => 0 }

/-- The scale of a row of weights: zero for a row that is not there. -/
def groupScale (row : Fin tileRows) (start stop : Nat) : F :=
  match weights row with
  | some w => weightGroupScale ops w start stop
  | none => ops.zero

/-- The body of the loop over blocks of activations. -/
def addSubBlock (dW : Fin tileRows → F) (q1End : Nat) (st : CellPlan F)
    (q8Start : Nat) : CellPlan F :=
  let q8End := min (q8Start + kActBlock) q1End
  let aBlock := q8Start / kActBlock
  let dA := quants.scales aBlock
  if ops.isZero dA then st
  else
    let nTiles := (q8End - q8Start + tileCols - 1) / tileCols
    let opBase := st.plan.length
    let plan := (List.range nTiles).foldl
      (fun plan t => plan ++ [tileOp ops weights quants q8Start q8End nTiles t]) st.plan
    ⟨plan, st.subBlocks ++ [⟨opBase + (nTiles - 1), dW, dA⟩]⟩

/-- The body of the loop over groups of weights. -/
def addWeightGroup (k : Nat) (st : CellPlan F) (q1Start : Nat) : CellPlan F :=
  let q1End := min (q1Start + kWeightGroup) k
  let dW := fun row => groupScale ops weights row q1Start q1End
  if ops.isZero (dW 0) && ops.isZero (dW 1) then st
  else
    (List.range ((q1End - q1Start + kActBlock - 1) / kActBlock)).foldl
      (fun st j => addSubBlock ops weights quants dW q1End st (q1Start + j * kActBlock)) st

/-- The plan of a pair of rows and what its runs are scaled by. -/
def cellPlan (k : Nat) : CellPlan F :=
  (List.range ((k + kWeightGroup - 1) / kWeightGroup)).foldl
    (fun st g => addWeightGroup ops weights quants k st (g * kWeightGroup)) ⟨[], []⟩

/-- The fold of the partial sums of the run tails. -/
def foldPsums (psums : List Int) (subBlocks : List (SubBlockMeta F)) : Fin tileRows → F :=
  subBlocks.foldl (fun acc sb row =>
    if (weights row).isSome then
      ops.add (acc row)
        (ops.mul (ops.mul (sb.dW row) sb.dA)
          (ops.ofInt (psums.getD (sb.tailOpIndex * tileRows + row) 0)))
    else acc row) fun _ => ops.zero

end Plans

/-! ## Jobs -/

/-- What ggml knows of a type. -/
structure TypeTraits (τ : Type) where
  f32 : τ
  hasToFloat : τ → Bool
  blckSize : τ → Nat
  typeSize : τ → Nat

/-- A tensor; `floats` is what `row_to_float` reads at a byte offset of its data. -/
structure GgmlTensor (τ F : Type) where
  type : τ
  ne : Fin 4 → Int
  nb : Fin 4 → Nat
  floats : Nat → Nat → F

/-- A node of a graph with its first two operands. -/
structure MulMatNode (τ F : Type) extends GgmlTensor τ F where
  isMulMat : Bool
  src0 : Option (GgmlTensor τ F)
  src1 : Option (GgmlTensor τ F)

structure MatMulJob (F : Type) where
  src0Floats : Nat → Nat → F
  src1Floats : Nat → Nat → F
  k : Int
  nRows : Int
  nCols : Int
  nB2 : Int
  nB3 : Int
  src0B2 : Int
  src0B3 : Int
  src0Nb1 : Nat
  src0Nb2 : Nat
  src0Nb3 : Nat
  src1Nb1 : Nat
  src1Nb2 : Nat
  src1Nb3 : Nat
  dstNb0 : Nat
  dstNb1 : Nat
  dstNb2 : Nat
  dstNb3 : Nat

section Jobs

variable {τ F : Type} [DecidableEq τ] (traits : TypeTraits τ)

def typeCanConvertToFloat (type : τ) : Bool := decide (type = traits.f32) || traits.hasToFloat type

def makeMatmulJob (dst : MulMatNode τ F) : Option (MatMulJob F) :=
  if dst.isMulMat = false then none
  else
    match dst.src0, dst.src1 with
    | some src0, some src1 =>
      if typeCanConvertToFloat traits src0.type = false ∨
        typeCanConvertToFloat traits src1.type = false ∨
          dst.type ≠ traits.f32 then none
      else if src0.ne 0 ≠ src1.ne 0 then none
      else if src0.ne 0 % traits.blckSize src0.type ≠ 0 ∨
          src1.ne 0 % traits.blckSize src1.type ≠ 0 then none
      else if dst.ne 0 ≠ src0.ne 1 ∨ dst.ne 1 ≠ src1.ne 1 ∨ dst.ne 2 ≠ src1.ne 2 ∨
          dst.ne 3 ≠ src1.ne 3 then none
      else if src0.ne 2 ≤ 0 ∨ src0.ne 3 ≤ 0 ∨ src1.ne 2 % src0.ne 2 ≠ 0 ∨
          src1.ne 3 % src0.ne 3 ≠ 0 then none
      else if src0.nb 0 ≠ traits.typeSize src0.type ∨ src1.nb 0 ≠ traits.typeSize src1.type ∨
          dst.nb 0 ≠ 4 then none
      else
        some
          { src0Floats := src0.floats, src1Floats := src1.floats,
            k := src0.ne 0, nRows := dst.ne 0, nCols := dst.ne 1
            nB2 := dst.ne 2, nB3 := dst.ne 3
            src0B2 := (dst.ne 2).tdiv (src0.ne 2), src0B3 := (dst.ne 3).tdiv (src0.ne 3)
            src0Nb1 := src0.nb 1, src0Nb2 := src0.nb 2, src0Nb3 := src0.nb 3
            src1Nb1 := src1.nb 1, src1Nb2 := src1.nb 2, src1Nb3 := src1.nb 3
            dstNb0 := dst.nb 0, dstNb1 := dst.nb 1, dstNb2 := dst.nb 2, dstNb3 := dst.nb 3 }
    | _, _ => none

end Jobs

/-! ## Execution -/

/-- A transport: `execute` gives the partial sums, row-major, or `none` where it returns
    false. -/
structure Transport (σ : Type) where
  execute : σ → Plan → σ × Option (List Int)
  status : σ → Byte

/-- A store of `run_cell_pair`: the element of `dst`, its byte offset, and the value. -/
structure DstStore (F : Type) where
  b3 : Nat
  b2 : Nat
  col : Nat
  row : Nat
  offset : Nat
  value : F

/-- An offset computed in 64 bits. -/
def offset64 (x : Int) : Nat := (x % 2 ^ 64).toNat

section Run

variable {F σ : Type} (ops : FloatOps F) (tr : Transport σ) (job : MatMulJob F)

/-- The weights of a row. -/
def src0Row (b2 b3 row : Nat) : Nat → F :=
  let src0I3 := (b3 : Int).tdiv job.src0B3
  let src0I2 := (b2 : Int).tdiv job.src0B2
  job.src0Floats (offset64 (row * job.src0Nb1 + src0I2 * job.src0Nb2 + src0I3 * job.src0Nb3))

/-- The store to a cell. -/
def dstCell (col b2 b3 row : Nat) (value : F) : DstStore F :=
  ⟨b3, b2, col, row,
    offset64 (row * job.dstNb0 + col * job.dstNb1 + b2 * job.dstNb2 + b3 * job.dstNb3), value⟩

/-- The weights of a pair of rows. -/
def pairWeights (b2 b3 row0 : Nat) (row1 : Option Nat) : Fin tileRows → Option (Nat → F) :=
  ![some (src0Row job b2 b3 row0), row1.map (src0Row job b2 b3)]

/-- `run_cell_pair`: the transport after it and its stores, or `none` where it returns false.
    `row1` is `none` where `row1_idx` is negative. -/
def runCellPair (row0 : Nat) (row1 : Option Nat) (col b2 b3 : Nat) (quants : ActQuants F) (s : σ) :
    σ × Option (List (DstStore F)) :=
  let weights := pairWeights job b2 b3 row0 row1
  let cell := cellPlan ops weights quants job.k.toNat
  let stores := fun acc : Fin tileRows → F =>
    dstCell job col b2 b3 row0 (acc 0) :: row1.toList.map fun row =>
      dstCell job col b2 b3 row (acc 1)
  if cell.plan.isEmpty then (s, some (stores fun _ => ops.zero))
  else
    match tr.execute s cell.plan with
    | (s, none) => (s, none)
    | (s, some psums) => (s, some (stores (foldPsums ops weights psums cell.subBlocks)))

/-- The transport and the stores so far. -/
abbrev Progress (F σ : Type) := σ × List (DstStore F)

/-- The body of the loop over pairs of rows; an error is the return of false. -/
def runPair (col b2 b3 : Nat) (quants : ActQuants F) (st : Progress F σ) (p : Nat) :
    Except (Progress F σ) (Progress F σ) :=
  let row := p * tileRows
  let row1 := if (row + 1 : Int) < job.nRows then some (row + 1) else none
  match runCellPair ops tr job row row1 col b2 b3 quants st.1 with
  | (s, none) => .error (s, st.2)
  | (s, some stores) => .ok (s, st.2 ++ stores)

/-- The quantised activations of a column. -/
def colQuants (col b2 b3 : Nat) : ActQuants F :=
  quantizeActsQ8 ops
    (job.src1Floats (offset64 (col * job.src1Nb1 + b2 * job.src1Nb2 + b3 * job.src1Nb3)))
    job.k.toNat

/-- The body of the loop over columns. -/
def runColumn (b2 b3 : Nat) (st : Progress F σ) (col : Nat) :
    Except (Progress F σ) (Progress F σ) :=
  let quants := colQuants ops job col b2 b3
  (List.range ((job.nRows.toNat + tileRows - 1) / tileRows)).foldlM
    (runPair ops tr job col b2 b3 quants) st

/-- `run_bonsai_matmul`: the return value, and the transport and all stores. -/
def runBonsaiMatmul (s : σ) : Bool × Progress F σ :=
  if job.nRows = 0 ∨ job.nCols = 0 ∨ job.nB2 = 0 ∨ job.nB3 = 0 then (true, s, [])
  else
    let run := (List.range job.nB3.toNat).foldlM (fun st b3 =>
      (List.range job.nB2.toNat).foldlM
        (fun st b2 => (List.range job.nCols.toNat).foldlM (runColumn ops tr job b2 b3) st) st)
      (s, ([] : List (DstStore F)))
    match run with
    | .error st => (false, st)
    | .ok st => (tr.status st.1 &&& statusError == 0, st)

end Run

end Bonsai
