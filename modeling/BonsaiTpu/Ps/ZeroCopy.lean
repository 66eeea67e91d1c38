-- SUMMARY: The elementwise kernels, the norms and ROPE over pointers into slabs or into copies, and that the choice does not matter (`native.py`, `native.c`).
import BonsaiTpu.Ps.Norm

/-!
# Zero copy

A kernel gets a pointer for each operand. `_in_ptr` gives one straight into the slab, or
into a snapshot; `_out_ptr` gives one into the slab, or into a scratch buffer that is
written back after the call. The C functions are stated over any kind of pointer, so
that each of these choices is a run of the same function.
-/

namespace Ps.ZeroCopy

open Words (Byte)

/-! ## Pointers -/

/-- Reading an element through a pointer. -/
abbrev Load (σ : Type) := σ → Nat → BitVec 32

/-- Storing an element through a pointer. -/
abbrev Store (σ : Type) := σ → Nat → BitVec 32 → σ

/-- The memory of the tensors and the scratch buffer of the output. -/
structure Buffers where
  mem : Mem
  scratch : Nat → Byte

/-- `_in_ptr`: `snapshot` is the memory when the pointer was made. -/
def inPtr (mapped : Bool) (snapshot : Mem) (o : Operand) : Load Buffers := fun s p =>
  readF32 (if mapped then s.mem else snapshot) o p

/-- `_out_ptr`. -/
def outPtr (mapped : Bool) (o : Operand) : Store Buffers := fun s p v =>
  if mapped then { s with mem := writeF32 s.mem o p v }
  else
    { s with
      scratch := fun j => if 4 * p ≤ j ∧ j < 4 * p + 4 then v.extractLsb' (8 * (j - 4 * p)) 8
        else s.scratch j }

/-- `_run_finalizers`: a scratch buffer of `n` elements is written back. -/
def runFinalizers (mapped : Bool) (o : Operand) (n : Nat) (s : Buffers) : Mem :=
  if mapped then s.mem else fun b => if o.Holds n b then s.scratch (b.2 - o.offset) else s.mem b

/-! ## Kernels -/

/-- The float operations of all kernels. -/
structure MathOps extends F32Ops where
  ofInt32 : BitVec 32 → BitVec 32
  sub : BitVec 32 → BitVec 32 → BitVec 32
  neg : BitVec 32 → BitVec 32
  lt : BitVec 32 → BitVec 32 → Bool
  ge : BitVec 32 → BitVec 32 → Bool
  exp : BitVec 32 → BitVec 32
  log : BitVec 32 → BitVec 32
  pow : BitVec 32 → BitVec 32 → BitVec 32
  cos : BitVec 32 → BitVec 32
  sin : BitVec 32 → BitVec 32
  floor : BitVec 32 → BitVec 32
  ceil : BitVec 32 → BitVec 32

section

variable {σ : Type} (F : MathOps)

/-- The loops over columns and rows: `head` is computed at the start of a column. -/
def forColumns {β : Type} (rows cols : Nat) (dst : Store σ) (head : σ → Nat → β)
    (value : β → σ → Nat → Nat → BitVec 32) (s : σ) : σ :=
  (List.range cols).foldl (fun s col =>
    let h := head s col
    (List.range rows).foldl (fun s row =>
      dst s (col * rows + row) (value h s (col * rows + row) row)) s) s

/-- The loop over elements. -/
def forElements (elements : Nat) (dst : Store σ) (value : σ → Nat → BitVec 32) (s : σ) : σ :=
  (List.range elements).foldl (fun s i => dst s i (value s i)) s

def bonsaiAddF32 (src0 src1 : Load σ) (dst : Store σ) (rows cols : Nat)
    (src1Broadcast : Bool) (s : σ) : σ :=
  forColumns rows cols dst (fun _ _ => ())
    (fun _ s index row => F.add (src0 s index) (src1 s (if src1Broadcast then row else index))) s

def bonsaiMulF32 (src0 src1 : Load σ) (dst : Store σ) (rows cols : Nat)
    (src1Broadcast : Bool) (s : σ) : σ :=
  forColumns rows cols dst (fun _ _ => ())
    (fun _ s index row => F.mul (src0 s index) (src1 s (if src1Broadcast then row else index))) s

def bonsaiScaleF32 (src : Load σ) (dst : Store σ) (elements : Nat)
    (scale bias : BitVec 32) (s : σ) : σ :=
  forElements elements dst (fun s i => F.add (F.mul (src s i) scale) bias) s

def siluF32 (value : BitVec 32) : BitVec 32 :=
  if F.ge value 0#32 then F.div value (F.add floatOne (F.exp (F.neg value)))
  else
    let expValue := F.exp value
    F.div (F.mul value expValue) (F.add floatOne expValue)

def bonsaiSiluF32 (src : Load σ) (dst : Store σ) (elements : Nat) (s : σ) : σ :=
  forElements elements dst (fun s i => siluF32 F (src s i)) s

def bonsaiSwigluF32 (gate up : Load σ) (dst : Store σ) (elements : Nat) (s : σ) : σ :=
  forElements elements dst (fun s i => F.mul (siluF32 F (gate s i)) (up s i)) s

def bonsaiRmsNormF32 (src : Load σ) (dst : Store σ) (rows cols : Nat)
    (eps : BitVec 32) (s : σ) : σ :=
  forColumns rows cols dst (fun s col => rmsScale F.toF32Ops (src s) rows eps col)
    (fun scale s index _ => F.mul (src s index) scale) s

def bonsaiRmsNormMulF32 (src weight : Load σ) (dst : Store σ) (rows cols : Nat)
    (eps : BitVec 32) (s : σ) : σ :=
  forColumns rows cols dst (fun s col => rmsScale F.toF32Ops (src s) rows eps col)
    (fun scale s index row => F.mul (F.mul (src s index) scale) (weight s row)) s

/-! ## Rotary embedding -/

/-- The scalar arguments of `bonsai_rope_f32`. -/
structure RopeArgs where
  headDim : Nat
  nHead : Nat
  nToken : Nat
  nDims : Nat
  mode : Nat
  nCtxOrig : Nat
  freqBase : BitVec 32
  freqScale : BitVec 32
  extFactor : BitVec 32
  attnFactor : BitVec 32
  betaFast : BitVec 32
  betaSlow : BitVec 32

/-- `bonsai_yarn_corr_dim`; its first two arguments are of type `int`. -/
def bonsaiYarnCorrDim (nDims nCtxOrig : BitVec 32) (nRot freqBase : BitVec 32) : BitVec 32 :=
  F.div
    (F.mul (F.ofInt32 nDims) (F.log (F.div (F.ofInt32 nCtxOrig) (F.mul nRot 0x40C90FDB#32))))
    (F.mul 0x40000000#32 (F.log freqBase))

/-- `bonsai_yarn_ramp`. -/
def bonsaiYarnRamp (low high : BitVec 32) (i0 : Nat) : BitVec 32 :=
  let denom := if F.lt 0x3A83126F#32 (F.sub high low) then F.sub high low else 0x3A83126F#32
  let y := F.div (F.sub (F.ofNat (i0 / 2)) low) denom
  let cl := if F.lt y 0#32 then 0#32 else if F.lt floatOne y then floatOne else y
  F.sub floatOne cl

/-- The window of the correction and the magnitude scale. -/
def yarnWindow (a : RopeArgs) : BitVec 32 × BitVec 32 × BitVec 32 :=
  if floatIsZero a.extFactor then (0#32, F.ofNat a.nDims, a.attnFactor)
  else
    let ctxOrig := if a.nCtxOrig > 0 then BitVec.ofNat 32 a.nCtxOrig else 1#32
    let nDims := BitVec.ofNat 32 a.nDims
    let start := F.floor (bonsaiYarnCorrDim F nDims ctxOrig a.betaFast a.freqBase)
    let stop := F.ceil (bonsaiYarnCorrDim F nDims ctxOrig a.betaSlow a.freqBase)
    let corrLow := if F.lt start 0#32 then 0#32 else start
    let corrHigh := if F.lt (F.ofNat (a.nDims - 1)) stop then F.ofNat (a.nDims - 1) else stop
    (corrLow, corrHigh,
      F.mul a.attnFactor
        (F.add floatOne (F.mul 0x3DCCCCCD#32 (F.log (F.div floatOne a.freqScale)))))

/-- The cosine and the sine of a pair. -/
def ropeAngle (a : RopeArgs) (pos : BitVec 32) (i : Nat) : BitVec 32 × BitVec 32 :=
  let (corrLow, corrHigh, mscale) := yarnWindow F a
  let thetaExtrap :=
    F.mul pos (F.pow a.freqBase (F.mul (F.neg (F.ofNat i)) (F.div floatOne (F.ofNat a.nDims))))
  let theta :=
    if floatIsZero a.extFactor then F.mul thetaExtrap a.freqScale
    else
      let thetaInterp := F.mul a.freqScale thetaExtrap
      let rampMix := F.mul (bonsaiYarnRamp F corrLow corrHigh i) a.extFactor
      F.add (F.mul thetaInterp (F.sub floatOne rampMix)) (F.mul thetaExtrap rampMix)
  (F.mul (F.cos theta) mscale, F.mul (F.sin theta) mscale)

/-- The two elements of a pair. -/
def ropePair (a : RopeArgs) (i : Nat) : Nat × Nat :=
  if a.mode / 2 % 2 = 1 then (i / 2, i / 2 + a.nDims / 2) else (i, i + 1)

/-- One head: the pairs are turned, and the other elements copied. -/
def ropeHead (a : RopeArgs) (src : Load σ) (dst : Store σ) (pos : BitVec 32)
    (off : Nat) (s : σ) : σ :=
  let s := (List.range ((a.nDims + 1) / 2)).foldl (fun s j =>
    let (c, sn) := ropeAngle F a pos (2 * j)
    let (i0, i1) := ropePair a (2 * j)
    let x0 := src s (off + i0)
    let x1 := src s (off + i1)
    let s := dst s (off + i0) (F.sub (F.mul x0 c) (F.mul x1 sn))
    dst s (off + i1) (F.add (F.mul x0 sn) (F.mul x1 c))) s
  (List.range (a.headDim - a.nDims)).foldl
    (fun s j => dst s (off + (a.nDims + j)) (src s (off + (a.nDims + j)))) s

def bonsaiRopeF32 (a : RopeArgs) (src positions : Load σ) (dst : Store σ) (s : σ) : σ :=
  (List.range a.nToken).foldl (fun s t =>
    let pos := F.ofInt32 (positions s t)
    (List.range a.nHead).foldl (fun s h =>
      ropeHead F a src dst pos ((t * a.nHead + h) * a.headDim) s) s) s

end

/-! The norms and the product of `Ps.Norm` are these functions, with the memory behind a
pointer chosen by both operands at once. -/

section

variable (F : MathOps) (mapped : Operand → Bool) (src src0 src1 weight dst : Operand)
    (rows cols : Nat) (eps : BitVec 32) (m : Mem)

theorem rmsNorm_eq : Ps.bonsaiRmsNormF32 F.toF32Ops mapped src dst rows cols eps m =
    bonsaiRmsNormF32 F (fun cur => readF32 (behind mapped dst src m cur) src)
      (fun cur => writeF32 cur dst) rows cols eps m := rfl

theorem rmsNormMul_eq : Ps.bonsaiRmsNormMulF32 F.toF32Ops mapped src weight dst rows cols eps m =
    bonsaiRmsNormMulF32 F (fun cur => readF32 (behind mapped dst src m cur) src)
      (fun cur => readF32 (behind mapped dst weight m cur) weight) (fun cur => writeF32 cur dst)
      rows cols eps m := rfl

theorem mul_eq (broadcast : Bool) :
    Ps.bonsaiMulF32 F.toF32Ops mapped src0 src1 dst rows cols broadcast m =
    bonsaiMulF32 F (fun cur => readF32 (behind mapped dst src0 m cur) src0)
      (fun cur => readF32 (behind mapped dst src1 m cur) src1) (fun cur => writeF32 cur dst) rows
      cols broadcast m := rfl

end

/-! ## Calls -/

/-- The calls of the kernels that go through `_in_ptr` and `_out_ptr`. -/
inductive GlueCall where
  | add (c : BinaryCall)
  | mul (c : BinaryCall)
  | scale (c : ScaleCall)
  | silu (c : UnaryCall)
  | swiglu (c : SwigluCall)
  | rmsNorm (c : RmsNormCall)
  | rmsNormMul (c : RmsNormMulCall)
  | rope (src positions dst : Operand) (a : RopeArgs)

/-- Which operands are in one mapped extent: the first and the second input, and the output. -/
structure Mapped where
  src0 : Bool
  src1 : Bool
  dst : Bool

/-- The common course of a call: the pointers, the kernel, and the finalizers unless it fails. -/
def runCall (mapped : Mapped) (rc : Int) (src0 src1 dst : Operand) (n : Nat)
    (kernel : Load Buffers → Load Buffers → Store Buffers → Buffers → Buffers)
    (m : Mem) : Int × Mem :=
  if rc ≠ 0 then (rc, m)
  else
    let s := kernel (inPtr mapped.src0 m src0) (inPtr mapped.src1 m src1) (outPtr mapped.dst dst)
      ⟨m, fun _ => 0#8⟩
    (rc, runFinalizers mapped.dst dst n s)

/-- A call on memory: its return code and what it leaves. -/
def GlueCall.run (F : MathOps) (mapped : Mapped) : GlueCall → Mem → Int × Mem
  | .add c => runCall mapped (rowsColsRc c.rows c.cols) c.src0 c.src1 c.dst (c.rows * c.cols)
      fun src0 src1 dst =>
        bonsaiAddF32 F src0 src1 dst (cUint32 c.rows) (cUint32 c.cols) c.src1Broadcast
  | .mul c => runCall mapped (rowsColsRc c.rows c.cols) c.src0 c.src1 c.dst (c.rows * c.cols)
      fun src0 src1 dst =>
        bonsaiMulF32 F src0 src1 dst (cUint32 c.rows) (cUint32 c.cols) c.src1Broadcast
  | .scale c => runCall mapped (elementsRc c.elements) c.src c.src c.dst c.elements
      fun src _ dst => bonsaiScaleF32 F src dst (cUint32 c.elements) c.scale c.bias
  | .silu c => runCall mapped (elementsRc c.elements) c.src c.src c.dst c.elements
      fun src _ dst => bonsaiSiluF32 F src dst (cUint32 c.elements)
  | .swiglu c => runCall mapped (elementsRc c.elements) c.gate c.up c.dst c.elements
      fun gate up dst => bonsaiSwigluF32 F gate up dst (cUint32 c.elements)
  | .rmsNorm c => runCall mapped (rowsColsRc c.rows c.cols) c.src c.src c.dst (c.rows * c.cols)
      fun src _ dst => bonsaiRmsNormF32 F src dst (cUint32 c.rows) (cUint32 c.cols) c.eps
  | .rmsNormMul c =>
    runCall mapped (rowsColsRc c.rows c.cols) c.src c.weight c.dst (c.rows * c.cols)
      fun src weight dst =>
        bonsaiRmsNormMulF32 F src weight dst (cUint32 c.rows) (cUint32 c.cols) c.eps
  | .rope src positions dst a =>
    runCall mapped (ropeRc a.headDim a.nHead a.nToken a.nDims) src positions dst
      (a.headDim * a.nHead * a.nToken)
      fun src positions dst => bonsaiRopeF32 F
        { a with
          headDim := cUint32 a.headDim
          nHead := cUint32 a.nHead
          nToken := cUint32 a.nToken
          nDims := cUint32 a.nDims
          mode := cUint32 a.mode
          nCtxOrig := cUint32 a.nCtxOrig } src positions dst

/-- Two operands with no byte in common. -/
def Apart (o : Operand) (k : Nat) (o' : Operand) (n : Nat) : Prop :=
  ∀ b, o.Holds k b → ¬o'.Holds n b

/-- The output is in the place of an input of its size or apart from it, and apart from the
    other operands. -/
def GlueCall.Placed : GlueCall → Prop
  | .add c | .mul c => Aligned c.src0 c.dst (c.rows * c.cols) ∧
      if c.src1Broadcast then Apart c.src1 c.rows c.dst (c.rows * c.cols)
      else Aligned c.src1 c.dst (c.rows * c.cols)
  | .scale c => Aligned c.src c.dst c.elements
  | .silu c => Aligned c.src c.dst c.elements
  | .swiglu c => Aligned c.gate c.dst c.elements ∧ Aligned c.up c.dst c.elements
  | .rmsNorm c => Aligned c.src c.dst (c.rows * c.cols)
  | .rmsNormMul c =>
    Aligned c.src c.dst (c.rows * c.cols) ∧ Apart c.weight c.rows c.dst (c.rows * c.cols)
  | .rope src positions dst a => Aligned src dst (a.headDim * a.nHead * a.nToken) ∧
      Apart positions a.nToken dst (a.headDim * a.nHead * a.nToken)

/-- The shape is one that the parameters of type `uint32_t` can hold. -/
def GlueCall.Fits : GlueCall → Prop
  | .add c | .mul c => c.rows < 2 ^ 32 ∧ c.cols < 2 ^ 32
  | .scale c => c.elements < 2 ^ 32
  | .silu c => c.elements < 2 ^ 32
  | .swiglu c => c.elements < 2 ^ 32
  | .rmsNorm c => c.rows < 2 ^ 32 ∧ c.cols < 2 ^ 32
  | .rmsNormMul c => c.rows < 2 ^ 32 ∧ c.cols < 2 ^ 32
  | .rope _ _ _ a => a.headDim < 2 ^ 32 ∧ a.nHead < 2 ^ 32 ∧ a.nToken < 2 ^ 32 ∧ a.nDims < 2 ^ 32

/-! ## Two runs side by side -/

/-- The bytes of element `p` of an operand. -/
def InWord (o : Operand) (p : Nat) (b : Loc) : Prop :=
  b.1 = o.handle ∧ o.offset + 4 * p ≤ b.2 ∧ b.2 < o.offset + 4 * p + 4

/-- What an output pointer has at byte `j`. -/
def outByte (mapped : Bool) (o : Operand) (s : Buffers) (j : Nat) : Byte :=
  if mapped then s.mem (o.handle, o.offset + j) else s.scratch j

/-- The elements that are done hold the values `f`, and nothing else of the tensors has changed. -/
structure Written (mapped : Bool) (dst : Operand) (m : Mem) (done : Nat → Prop)
    (f : Nat → BitVec 32) (s : Buffers) : Prop where
  word : ∀ p, done p → ∀ i < 4, outByte mapped dst s (4 * p + i) = (f p).extractLsb' (8 * i) 8
  rest : ∀ b, (mapped = true → ∀ p, done p → ¬InWord dst p b) → s.mem b = m b

section

variable {mapped : Bool} {dst src : Operand} {m : Mem} {done : Nat → Prop}
    {f : Nat → BitVec 32} {s : Buffers}

theorem Written.start : Written mapped dst m (fun _ => False) f ⟨m, fun _ => 0#8⟩ :=
  ⟨fun _ h => h.elim, fun _ _ => rfl⟩

theorem Written.store (h : Written mapped dst m done f s) (p : Nat) (v : BitVec 32) :
    Written mapped dst m (fun q => done q ∨ q = p) (Function.update f p v)
      (outPtr mapped dst s p v) := by
  -- the element written is there, in the slab or in the scratch copy
  have hin : ∀ i < 4, outByte mapped dst (outPtr mapped dst s p v) (4 * p + i) =
      v.extractLsb' (8 * i) 8 := by
    intro i hi
    cases mapped with
    | true =>
      have hword : writeF32 s.mem dst p v (dst.handle, dst.offset + (4 * p + i)) =
          v.extractLsb' (8 * i) 8 := by
        rw [writeF32, if_pos ⟨rfl, by simp only; omega, by simp only; omega⟩]
        congr 1
        simp only
        omega
      exact hword
    | false =>
      have hword :
          (if 4 * p ≤ 4 * p + i ∧ 4 * p + i < 4 * p + 4 then v.extractLsb'
            (8 * (4 * p + i - 4 * p)) 8
          else s.scratch (4 * p + i)) = v.extractLsb' (8 * i) 8 := by
        rw [if_pos ⟨by omega, by omega⟩, Nat.add_sub_cancel_left]
      exact hword
  have hout : ∀ q, q ≠ p → ∀ i < 4, outByte mapped dst (outPtr mapped dst s p v) (4 * q + i) =
      outByte mapped dst s (4 * q + i) := by
    intro q hq i hi
    cases mapped with
    | true =>
      refine writeF32_of_not fun hbyte => ?_
      obtain ⟨-, hle, hlt⟩ := hbyte
      simp only at hle hlt
      omega
    | false =>
      have hword : ¬(4 * p ≤ 4 * q + i ∧ 4 * q + i < 4 * p + 4) := by omega
      exact if_neg hword
  constructor
  · intro q hq i hi
    by_cases heq : q = p
    · subst heq
      rw [Function.update_self, hin i hi]
    · rw [Function.update_of_ne heq, hout q heq i hi]
      exact h.word q (hq.resolve_right heq) i hi
  · intro b hb
    cases mapped with
    | true =>
      have hold : s.mem b = m b := h.rest b fun _ q hq => hb rfl q (.inl hq)
      exact (writeF32_of_not (hb rfl p (.inr rfl))).trans hold
    | false => exact h.rest b (fun hfalse => absurd hfalse (by decide))

/-- An input is as it was at the bytes that are not done. -/
theorem Written.load_of_not {q : Nat} {mappedSrc : Bool} (h : Written mapped dst m done f s)
    (hnot : ∀ i < 4, ∀ p, done p → ¬InWord dst p (src.handle, src.offset + 4 * q + i)) :
    inPtr mappedSrc m src s q = readF32 m src q := by
  refine readF32_congr fun i hi => ?_
  cases mappedSrc with
  | true => exact h.rest _ fun _ => hnot i hi
  | false => rfl

/-- An input in the place of the output, or apart from it, is as it was at the elements not done. -/
theorem Written.load {n q : Nat} {mappedSrc : Bool} (h : Written mapped dst m done f s)
    (hsrc : Aligned src dst n)
    (hdone : ∀ p, done p → p < n) (hq : q < n) (hnot : ¬done q) :
    inPtr mappedSrc m src s q = readF32 m src q := by
  refine h.load_of_not fun i hi p hp hword => ?_
  have hne : p ≠ q := fun heq => hnot (heq ▸ hp)
  obtain ⟨hhandle, hle, hlt⟩ := hword
  simp only at hhandle hle hlt
  rcases hsrc with ⟨-, hoffset⟩ | hapart
  · omega
  · have hlast := hdone p hp
    exact hapart (src.handle, src.offset + 4 * q + i) ⟨rfl, by simp only; omega,
      by simp only; omega⟩
      ⟨hhandle, by simp only; omega, by simp only; omega⟩

/-- An input that is apart is as it was. -/
theorem Written.load_apart {k n q : Nat} {mappedSrc : Bool} (h : Written mapped dst m done f s)
    (hsrc : Apart src k dst n)
    (hdone : ∀ p, done p → p < n) (hq : q < k) : inPtr mappedSrc m src s q = readF32 m src q := by
  refine h.load_of_not fun i hi p hp ⟨hhandle, hle, hlt⟩ => ?_
  have hlast := hdone p hp
  simp only at hhandle hle hlt
  exact hsrc (src.handle, src.offset + 4 * q + i) ⟨rfl, by simp only; omega, by simp only; omega⟩
    ⟨hhandle, by simp only; omega, by simp only; omega⟩

end

/-- Two runs that differ in how their operands are mapped have stored the same. -/
def Both (dst : Operand) (m : Mem) (mapped mapped' : Bool) (done : Nat → Prop)
    (s s' : Buffers) : Prop :=
  ∃ f, Written mapped dst m done f s ∧ Written mapped' dst m done f s'

section

variable {dst : Operand} {m : Mem} {mapped mapped' : Bool} {done done' : Nat → Prop}
    {s s' : Buffers}

theorem Both.start :
    Both dst m mapped mapped' (fun _ => False) ⟨m, fun _ => 0#8⟩ ⟨m, fun _ => 0#8⟩ :=
  ⟨fun _ => 0#32, .start, .start⟩

theorem Both.store (h : Both dst m mapped mapped' done s s') {p : Nat}
    {v v' : BitVec 32} (hv : v = v') :
    Both dst m mapped mapped' (fun q => done q ∨ q = p) (outPtr mapped dst s p v)
      (outPtr mapped' dst s' p v') := by
  obtain ⟨f, hs, hs'⟩ := h
  exact ⟨Function.update f p v, hs.store p v, hv ▸ hs'.store p v⟩

theorem Both.congr (h : Both dst m mapped mapped' done s s') (hdone : ∀ q, done q ↔ done' q) :
    Both dst m mapped mapped' done' s s' := by
  have heq : done = done' := funext fun q => propext (hdone q)
  exact heq ▸ h

/-- All elements done, the two runs leave the same. -/
theorem Both.finish {n : Nat} (h : Both dst m mapped mapped' (fun q => q < n) s s') :
    runFinalizers mapped dst n s = runFinalizers mapped' dst n s' := by
  obtain ⟨f, hs, hs'⟩ := h
  have hone : ∀ (mapped : Bool) (s : Buffers), Written mapped dst m (fun q => q < n) f s → ∀ b,
      runFinalizers mapped dst n s b =
        if dst.Holds n b then
          (f ((b.2 - dst.offset) / 4)).extractLsb' (8 * ((b.2 - dst.offset) % 4)) 8 else m b := by
    intro mapped s hs b
    by_cases hb : dst.Holds n b
    · obtain ⟨hhandle, hle, hlt⟩ := hb
      have hbyte := hs.word ((b.2 - dst.offset) / 4) (by omega) ((b.2 - dst.offset) % 4)
        (Nat.mod_lt _ (by decide))
      rw [Nat.div_add_mod] at hbyte
      rw [if_pos ⟨hhandle, hle, hlt⟩, ← hbyte]
      cases mapped with
      | true =>
        have hloc : (dst.handle, dst.offset + (b.2 - dst.offset)) = b :=
          Prod.ext hhandle.symm (by simp only; omega)
        exact congrArg s.mem hloc.symm
      | false => exact if_pos ⟨hhandle, hle, hlt⟩
    · have hmem : s.mem b = m b := by
        refine hs.rest b fun _ p hp ⟨hhandle, hle, hlt⟩ => hb ⟨hhandle, by omega, by omega⟩
      rw [if_neg hb, ← hmem]
      cases mapped with
      | true => rfl
      | false => exact if_neg hb
  funext b
  rw [hone mapped s hs b, hone mapped' s' hs' b]

theorem Both.load {src : Operand} {n q : Nat} (a a' : Bool)
    (h : Both dst m mapped mapped' done s s') (hsrc : Aligned src dst n)
    (hdone : ∀ p, done p → p < n) (hq : q < n) (hnot : ¬done q) :
    inPtr a m src s q = inPtr a' m src s' q := by
  obtain ⟨f, hs, hs'⟩ := h
  rw [hs.load hsrc hdone hq hnot, hs'.load hsrc hdone hq hnot]

theorem Both.load_apart {src : Operand} {k n q : Nat} (a a' : Bool)
    (h : Both dst m mapped mapped' done s s')
    (hsrc : Apart src k dst n) (hdone : ∀ p, done p → p < n) (hq : q < k) :
    inPtr a m src s q = inPtr a' m src s' q := by
  obtain ⟨f, hs, hs'⟩ := h
  rw [hs.load_apart hsrc hdone hq, hs'.load_apart hsrc hdone hq]

/-! ## Loops -/

/-- One loop that stores the elements of a range in order, in two runs. -/
theorem foldl_both (first count : Nat) (value value' : Buffers → Nat → BitVec 32)
    (hstart : Both dst m mapped mapped' (fun q => q < first) s s')
    (hvalue : ∀ i < count, ∀ s s', Both dst m mapped mapped' (fun q => q < first + i) s s' →
      value s i = value' s' i) :
    Both dst m mapped mapped' (fun q => q < first + count)
      ((List.range count).foldl (fun s i => outPtr mapped dst s (first + i) (value s i)) s)
      ((List.range count).foldl (fun s i => outPtr mapped' dst s (first + i) (value' s i)) s') := by
  refine foldl_range_rel (fun i s s' =>
    Both dst m mapped mapped' (fun q => q < first + i) s s') count hstart ?_
  intro i hi s s' hs
  exact (hs.store (hvalue i hi s s' hs)).congr fun q => by omega

theorem forElements_both {n : Nat} {value value' : Buffers → Nat → BitVec 32}
    (hvalue : ∀ i < n, ∀ s s', Both dst m mapped mapped' (fun q => q < i) s s' →
      value s i = value' s' i) :
    Both dst m mapped mapped' (fun q => q < n)
      (forElements n (outPtr mapped dst) value ⟨m, fun _ => 0#8⟩)
      (forElements n (outPtr mapped' dst) value' ⟨m, fun _ => 0#8⟩) := by
  have hloop := foldl_both 0 n value value'
    (Both.start.congr fun q => iff_of_false id (Nat.not_lt_zero q)) fun i hi s s' hs =>
      hvalue i hi s s' (hs.congr fun q => by rw [Nat.zero_add])
  simp only [Nat.zero_add] at hloop
  exact hloop

theorem forColumns_both {β : Type} {rows cols : Nat} {head head' : Buffers → Nat → β}
    {value value' : β → Buffers → Nat → Nat → BitVec 32}
    (hhead : ∀ col < cols, ∀ s s', Both dst m mapped mapped' (fun q => q < col * rows) s s' →
      head s col = head' s' col)
    (hvalue : ∀ col < cols, ∀ row < rows, ∀ h s s',
      Both dst m mapped mapped' (fun q => q < col * rows + row) s s' →
      value h s (col * rows + row) row = value' h s' (col * rows + row) row) :
    Both dst m mapped mapped' (fun q => q < cols * rows)
      (forColumns rows cols (outPtr mapped dst) head value ⟨m, fun _ => 0#8⟩)
      (forColumns rows cols (outPtr mapped' dst) head' value' ⟨m, fun _ => 0#8⟩) := by
  refine foldl_range_rel (fun col s s' =>
    Both dst m mapped mapped' (fun q => q < col * rows) s s') cols
    (Both.start.congr fun q => by rw [Nat.zero_mul]; exact iff_of_false id (Nat.not_lt_zero q)) ?_
  intro col hcol s s' hs
  have hcolumn := foldl_both (col * rows) rows (fun c row =>
    value (head s col) c (col * rows + row) row)
    (fun c row => value' (head' s' col) c (col * rows + row) row) hs fun row hrow c c' hc => by
      rw [hhead col hcol s s' hs]
      exact hvalue col hcol row hrow _ c c' hc
  exact hcolumn.congr fun q => by rw [Nat.succ_mul]

/-! ## The kernels -/

variable {src0 src1 : Operand} {rows cols n : Nat} (F : MathOps) (a0 a1 a0' a1' : Bool)

/-- The binary kernels, for any operation. -/
theorem binary_both {op : BitVec 32 → BitVec 32 → BitVec 32} {broadcast : Bool}
    (h0 : Aligned src0 dst (cols * rows))
    (h1 : if broadcast then Apart src1 rows dst (cols * rows) else Aligned src1 dst (cols * rows)) :
    Both dst m mapped mapped' (fun q => q < cols * rows)
      (forColumns rows cols (outPtr mapped dst) (fun _ _ => ())
        (fun _ s index row => op (inPtr a0 m src0 s index)
          (inPtr a1 m src1 s (if broadcast then row else index))) ⟨m, fun _ => 0#8⟩)
      (forColumns rows cols (outPtr mapped' dst) (fun _ _ => ())
        (fun _ s index row =>
          op (inPtr a0' m src0 s index) (inPtr a1' m src1 s (if broadcast then row else index)))
        ⟨m, fun _ => 0#8⟩) := by
  refine forColumns_both (fun _ _ _ _ _ => rfl) fun col hcol row hrow _ s s' hs => ?_
  have hindex := index_lt hcol hrow
  have hdone : ∀ p, p < col * rows + row → p < cols * rows := fun p hp => by omega
  have hleft := hs.load a0 a0' h0 hdone hindex (Nat.lt_irrefl _)
  cases broadcast with
  | true =>
    have hright := hs.load_apart a1 a1' h1 hdone hrow
    exact congr (congrArg op hleft) hright
  | false =>
    have hright := hs.load a1 a1' h1 hdone hindex (Nat.lt_irrefl _)
    exact congr (congrArg op hleft) hright

/-- The kernels over elements with one input, for any function. -/
theorem unary_both {g : BitVec 32 → BitVec 32} (h0 : Aligned src0 dst n) :
    Both dst m mapped mapped' (fun q => q < n)
      (forElements n (outPtr mapped dst) (fun s i => g (inPtr a0 m src0 s i)) ⟨m, fun _ => 0#8⟩)
      (forElements n (outPtr mapped' dst) (fun s i => g (inPtr a0' m src0 s i))
        ⟨m, fun _ => 0#8⟩) :=
  forElements_both fun _ hi _ _ hs =>
    congrArg g (hs.load a0 a0' h0 (fun _ hp => Nat.lt_trans hp hi) hi (Nat.lt_irrefl _))

theorem swiglu_both (h0 : Aligned src0 dst n) (h1 : Aligned src1 dst n) :
    Both dst m mapped mapped' (fun q => q < n)
      (bonsaiSwigluF32 F (inPtr a0 m src0) (inPtr a1 m src1) (outPtr mapped dst) n
        ⟨m, fun _ => 0#8⟩)
      (bonsaiSwigluF32 F (inPtr a0' m src0) (inPtr a1' m src1) (outPtr mapped' dst) n
        ⟨m, fun _ => 0#8⟩) := by
  refine forElements_both fun i hi s s' hs => ?_
  have hdone : ∀ p, p < i → p < n := fun _ hp => Nat.lt_trans hp hi
  rw [hs.load a0 a0' h0 hdone hi (Nat.lt_irrefl _), hs.load a1 a1' h1 hdone hi (Nat.lt_irrefl _)]

/-- The scale of a column is taken before anything of the column is stored. -/
theorem Both.rmsScale {col : Nat} {eps : BitVec 32}
    (hs : Both dst m mapped mapped' (fun q => q < col * rows) s s')
    (h0 : Aligned src0 dst (cols * rows)) (hcol : col < cols) :
    Ps.rmsScale F.toF32Ops (inPtr a0 m src0 s) rows eps col =
      Ps.rmsScale F.toF32Ops (inPtr a0' m src0 s') rows eps col := by
  refine rmsScale_congr fun row hrow =>
    hs.load a0 a0' h0 (fun p hp => ?_) (index_lt hcol hrow) (by omega)
  have hlast := index_lt hcol hrow
  omega

theorem rmsNorm_both {eps : BitVec 32} (h0 : Aligned src0 dst (cols * rows)) :
    Both dst m mapped mapped' (fun q => q < cols * rows)
      (bonsaiRmsNormF32 F (inPtr a0 m src0) (outPtr mapped dst) rows cols eps ⟨m, fun _ => 0#8⟩)
      (bonsaiRmsNormF32 F (inPtr a0' m src0) (outPtr mapped' dst) rows cols eps
        ⟨m, fun _ => 0#8⟩) := by
  refine forColumns_both (fun col hcol s s' hs => hs.rmsScale F a0 a0' h0 hcol)
    fun col hcol row hrow h s s' hs => ?_
  have hindex := index_lt hcol hrow
  rw [hs.load a0 a0' h0 (fun p hp => by omega) hindex (Nat.lt_irrefl _)]

theorem rmsNormMul_both {eps : BitVec 32} (h0 : Aligned src0 dst (cols * rows))
    (h1 : Apart src1 rows dst (cols * rows)) :
    Both dst m mapped mapped' (fun q => q < cols * rows)
      (bonsaiRmsNormMulF32 F (inPtr a0 m src0) (inPtr a1 m src1) (outPtr mapped dst) rows cols eps
        ⟨m, fun _ => 0#8⟩)
      (bonsaiRmsNormMulF32 F (inPtr a0' m src0) (inPtr a1' m src1) (outPtr mapped' dst) rows cols
        eps ⟨m, fun _ => 0#8⟩) := by
  refine forColumns_both (fun col hcol s s' hs => hs.rmsScale F a0 a0' h0 hcol)
    fun col hcol row hrow h s s' hs => ?_
  have hindex := index_lt hcol hrow
  have hdone : ∀ p, p < col * rows + row → p < cols * rows := fun p hp => by omega
  rw [hs.load a0 a0' h0 hdone hindex (Nat.lt_irrefl _), hs.load_apart a1 a1' h1 hdone hrow]

/-! ## Rotary embedding in place -/

/-- The pairs of a head that are turned after `j` turns. -/
def TurnedPairs (a : RopeArgs) (off j q : Nat) : Prop :=
  q < off ∨ ∃ i < j, q = off + (ropePair a (2 * i)).1 ∨ q = off + (ropePair a (2 * i)).2

theorem ropePair_normal {a : RopeArgs} (hmode : ¬a.mode / 2 % 2 = 1) (i : Nat) :
    ropePair a (2 * i) = (2 * i, 2 * i + 1) := if_neg hmode

theorem ropePair_neox {a : RopeArgs} (hmode : a.mode / 2 % 2 = 1) (i : Nat) :
    ropePair a (2 * i) = (i, i + a.nDims / 2) := by
  rw [ropePair, if_pos hmode, Nat.mul_div_cancel_left i (by decide)]

/-- A pair is in the turned part of the head, and was not turned before. -/
theorem not_turned {a : RopeArgs} {j : Nat} (off : Nat) (heven : a.nDims % 2 = 0)
    (hj : j < a.nDims / 2) :
    (ropePair a (2 * j)).1 < a.nDims ∧ (ropePair a (2 * j)).2 < a.nDims ∧
      ¬TurnedPairs a off j (off + (ropePair a (2 * j)).1) ∧
      ¬TurnedPairs a off j (off + (ropePair a (2 * j)).2) := by
  by_cases hmode : a.mode / 2 % 2 = 1
  · rw [ropePair_neox hmode]
    refine ⟨by simp only; omega, by simp only; omega, ?_, ?_⟩
    · rintro (h | ⟨i, hi, h⟩)
      · omega
      · rw [ropePair_neox hmode] at h
        simp only at h
        omega
    · rintro (h | ⟨i, hi, h⟩)
      · omega
      · rw [ropePair_neox hmode] at h
        simp only at h
        omega
  · rw [ropePair_normal hmode]
    refine ⟨by simp only; omega, by simp only; omega, ?_, ?_⟩
    · rintro (h | ⟨i, hi, h⟩)
      · omega
      · rw [ropePair_normal hmode] at h
        simp only at h
        omega
    · rintro (h | ⟨i, hi, h⟩)
      · omega
      · rw [ropePair_normal hmode] at h
        simp only at h
        omega

/-- The turns go over all of the first `n_dims` elements. -/
theorem turned_all {a : RopeArgs} {off : Nat} (heven : a.nDims % 2 = 0) (q : Nat) :
    TurnedPairs a off (a.nDims / 2) q ↔ q < off + a.nDims := by
  constructor
  · rintro (h | ⟨i, hi, h⟩)
    · omega
    · have hpair := not_turned off heven hi
      omega
  · intro h
    rcases Nat.lt_or_ge q off with hlt | hge
    · exact .inl hlt
    · right
      by_cases hmode : a.mode / 2 % 2 = 1
      · rcases Nat.lt_or_ge (q - off) (a.nDims / 2) with hlow | hhigh
        · exact ⟨q - off, hlow, .inl (by rw [ropePair_neox hmode]; simp only; omega)⟩
        · exact ⟨q - off - a.nDims / 2, by omega,
            .inr (by rw [ropePair_neox hmode]; simp only; omega)⟩
      · refine ⟨(q - off) / 2, by omega, ?_⟩
        rw [ropePair_normal hmode]
        simp only
        omega

theorem ropeHead_both {a : RopeArgs} (pos : BitVec 32) {off : Nat} (h0 : Aligned src0 dst n)
    (heven : a.nDims % 2 = 0)
    (hdims : a.nDims ≤ a.headDim) (hoff : off + a.headDim ≤ n)
    (hs : Both dst m mapped mapped' (fun q => q < off) s s') :
    Both dst m mapped mapped' (fun q => q < off + a.headDim)
      (ropeHead F a (inPtr a0 m src0) (outPtr mapped dst) pos off s)
      (ropeHead F a (inPtr a0' m src0) (outPtr mapped' dst) pos off s') := by
  have hcount : (a.nDims + 1) / 2 = a.nDims / 2 := by omega
  -- the turned pairs, each read before it is stored
  have hpairs : Both dst m mapped mapped' (fun q => q < off + a.nDims)
      ((List.range ((a.nDims + 1) / 2)).foldl (fun s j =>
        let (c, sn) := ropeAngle F a pos (2 * j)
        let (i0, i1) := ropePair a (2 * j)
        let x0 := inPtr a0 m src0 s (off + i0)
        let x1 := inPtr a0 m src0 s (off + i1)
        let s := outPtr mapped dst s (off + i0) (F.sub (F.mul x0 c) (F.mul x1 sn))
        outPtr mapped dst s (off + i1) (F.add (F.mul x0 sn) (F.mul x1 c))) s)
      ((List.range ((a.nDims + 1) / 2)).foldl (fun s j =>
        let (c, sn) := ropeAngle F a pos (2 * j)
        let (i0, i1) := ropePair a (2 * j)
        let x0 := inPtr a0' m src0 s (off + i0)
        let x1 := inPtr a0' m src0 s (off + i1)
        let s := outPtr mapped' dst s (off + i0) (F.sub (F.mul x0 c) (F.mul x1 sn))
        outPtr mapped' dst s (off + i1) (F.add (F.mul x0 sn) (F.mul x1 c))) s') := by
    rw [hcount]
    refine Both.congr ?_ (turned_all heven)
    refine foldl_range_rel (fun j s s' => Both dst m mapped mapped' (TurnedPairs a off j) s s')
      (a.nDims / 2) ?_ ?_
    · refine hs.congr fun q => ⟨.inl, ?_⟩
      rintro (h | ⟨i, hi, -⟩)
      · exact h
      · exact absurd hi (Nat.not_lt_zero i)
    · intro j hj s s' hs
      obtain ⟨hlt0, hlt1, hnot0, hnot1⟩ := not_turned off heven hj
      have hdone : ∀ p, TurnedPairs a off j p → p < n := by
        rintro p (h | ⟨i, hi, h⟩)
        · omega
        · have hpair := not_turned off heven (Nat.lt_trans hi hj)
          omega
      have hx0 := hs.load a0 a0' h0 hdone (by omega) hnot0
      have hx1 := hs.load a0 a0' h0 hdone (by omega) hnot1
      simp only [hx0, hx1]
      refine ((hs.store rfl).store rfl).congr fun q => ?_
      constructor
      · rintro (((h | ⟨i, hi, h⟩) | h) | h)
        · exact .inl h
        · exact .inr ⟨i, by omega, h⟩
        · exact .inr ⟨j, Nat.lt_succ_self j, .inl h⟩
        · exact .inr ⟨j, Nat.lt_succ_self j, .inr h⟩
      · rintro (h | ⟨i, hi, h⟩)
        · exact .inl (.inl (.inl h))
        · rcases Nat.eq_or_lt_of_le (Nat.le_of_lt_succ hi) with rfl | hlt
          · exact h.elim (fun h => .inl (.inr h)) .inr
          · exact .inl (.inl (.inr ⟨i, hlt, h⟩))
  have hrest := foldl_both (off + a.nDims) (a.headDim - a.nDims) (fun s j =>
    inPtr a0 m src0 s (off + (a.nDims + j)))
    (fun s j => inPtr a0' m src0 s (off + (a.nDims + j))) hpairs fun j hj s s' hs =>
      hs.load a0 a0' h0 (fun p hp => by omega) (by omega) (by omega)
  have hend : off + a.nDims + (a.headDim - a.nDims) = off + a.headDim := by omega
  rw [hend] at hrest
  simp only [Nat.add_assoc] at hrest ⊢
  exact hrest

theorem rope_both {a : RopeArgs} (h0 : Aligned src0 dst (a.headDim * a.nHead * a.nToken))
    (h1 : Apart src1 a.nToken dst (a.headDim * a.nHead * a.nToken)) (heven : a.nDims % 2 = 0)
    (hdims : a.nDims ≤ a.headDim) :
    Both dst m mapped mapped' (fun q => q < a.headDim * a.nHead * a.nToken)
      (bonsaiRopeF32 F a (inPtr a0 m src0) (inPtr a1 m src1) (outPtr mapped dst) ⟨m, fun _ => 0#8⟩)
      (bonsaiRopeF32 F a (inPtr a0' m src0) (inPtr a1' m src1) (outPtr mapped' dst)
        ⟨m, fun _ => 0#8⟩) := by
  have htotal : a.headDim * a.nHead * a.nToken = a.nToken * a.nHead * a.headDim := by
    rw [Nat.mul_comm (a.headDim * a.nHead), Nat.mul_comm a.headDim, Nat.mul_assoc]
  -- the heads of a token end where the next ones start
  have hhead : ∀ t < a.nToken, ∀ h < a.nHead,
      (t * a.nHead + h) * a.headDim + a.headDim ≤ a.headDim * a.nHead * a.nToken := by
    intro t ht h hh
    rw [htotal, ← Nat.succ_mul]
    exact Nat.mul_le_mul_right _ (index_lt ht hh)
  rw [htotal]
  refine foldl_range_rel (fun t s s' =>
    Both dst m mapped mapped' (fun q => q < t * a.nHead * a.headDim) s s') a.nToken
    (Both.start.congr fun q => by
      rw [Nat.zero_mul, Nat.zero_mul]; exact iff_of_false id (Nat.not_lt_zero q)) ?_
  intro t ht s s' hs
  have hdone : ∀ p, p < t * a.nHead * a.headDim → p < a.headDim * a.nHead * a.nToken := by
    intro p hp
    rw [htotal]
    exact Nat.lt_of_lt_of_le hp (Nat.mul_le_mul_right _ (Nat.mul_le_mul_right _ (Nat.le_of_lt ht)))
  have hpos := hs.load_apart a1 a1' h1 hdone ht
  simp only [hpos]
  have hheads := foldl_range_rel (fun h s s' =>
    Both dst m mapped mapped' (fun q => q < (t * a.nHead + h) * a.headDim) s s') a.nHead
    (f := fun s h =>
      ropeHead F a (inPtr a0 m src0) (outPtr mapped dst) (F.ofInt32 (inPtr a1' m src1 s' t))
        ((t * a.nHead + h) * a.headDim) s)
    (g := fun s h =>
      ropeHead F a (inPtr a0' m src0) (outPtr mapped' dst) (F.ofInt32 (inPtr a1' m src1 s' t))
        ((t * a.nHead + h) * a.headDim) s)
    hs fun h hh c c' hc => by
      have hnext := ropeHead_both F a0 a0' (F.ofInt32 (inPtr a1' m src1 s' t)) h0 heven hdims
        (hhead t ht h hh) hc
      refine hnext.congr fun q => ?_
      rw [← Nat.add_assoc, Nat.succ_mul]
  exact hheads.congr fun q => by rw [Nat.succ_mul t]

end

/-! ## Agreement -/

theorem cUint32_of_lt {n : Nat} (h : n < 2 ^ 32) : cUint32 n = n := Nat.mod_eq_of_lt h

theorem runCall_eq {mapped mapped' : Mapped} {rc : Int} {src0 src1 dst : Operand}
    {n : Nat} {m : Mem} {kernel : Load Buffers → Load Buffers → Store Buffers → Buffers → Buffers}
    (h : rc = 0 → Both dst m mapped.dst mapped'.dst (fun q => q < n)
      (kernel (inPtr mapped.src0 m src0) (inPtr mapped.src1 m src1) (outPtr mapped.dst dst)
        ⟨m, fun _ => 0#8⟩)
      (kernel (inPtr mapped'.src0 m src0) (inPtr mapped'.src1 m src1) (outPtr mapped'.dst dst)
        ⟨m, fun _ => 0#8⟩)) :
    runCall mapped rc src0 src1 dst n kernel m = runCall mapped' rc src0 src1 dst n kernel m := by
  by_cases hrc : rc = 0
  · rw [runCall, runCall, if_neg (not_not.mpr hrc), if_neg (not_not.mpr hrc)]
    simp only [(h hrc).finish]
  · rw [runCall, runCall, if_pos hrc, if_pos hrc]

/-- How the operands of a call are mapped makes no difference to what the call leaves. -/
theorem zero_copy_eq_staged (F : MathOps) (call : GlueCall) (hfits : call.Fits)
    (hplaced : call.Placed)
    (mapped mapped' : Mapped) (m : Mem) : call.run F mapped m = call.run F mapped' m := by
  -- one lemma for each loop; the counts that Python passes fit the C types
  cases call with
  | add c =>
    obtain ⟨h0, h1⟩ := hplaced
    rw [Nat.mul_comm] at h0 h1
    rw [GlueCall.run, GlueCall.run]
    refine runCall_eq fun _ => ?_
    rw [cUint32_of_lt hfits.1, cUint32_of_lt hfits.2, Nat.mul_comm]
    exact binary_both _ _ _ _ h0 h1
  | mul c =>
    obtain ⟨h0, h1⟩ := hplaced
    rw [Nat.mul_comm] at h0 h1
    rw [GlueCall.run, GlueCall.run]
    refine runCall_eq fun _ => ?_
    rw [cUint32_of_lt hfits.1, cUint32_of_lt hfits.2, Nat.mul_comm]
    exact binary_both _ _ _ _ h0 h1
  | scale c =>
    rw [GlueCall.run, GlueCall.run]
    refine runCall_eq fun _ => ?_
    rw [cUint32_of_lt hfits]
    exact unary_both (g := fun v => F.add (F.mul v c.scale) c.bias) _ _ hplaced
  | silu c =>
    rw [GlueCall.run, GlueCall.run]
    refine runCall_eq fun _ => ?_
    rw [cUint32_of_lt hfits]
    exact unary_both (g := siluF32 F) _ _ hplaced
  | swiglu c =>
    rw [GlueCall.run, GlueCall.run]
    refine runCall_eq fun _ => ?_
    rw [cUint32_of_lt hfits]
    exact swiglu_both F _ _ _ _ hplaced.1 hplaced.2
  | rmsNorm c =>
    rw [GlueCall.run, GlueCall.run]
    refine runCall_eq fun _ => ?_
    rw [cUint32_of_lt hfits.1, cUint32_of_lt hfits.2, Nat.mul_comm]
    exact rmsNorm_both F _ _ (Nat.mul_comm c.rows c.cols ▸ hplaced)
  | rmsNormMul c =>
    rw [GlueCall.run, GlueCall.run]
    refine runCall_eq fun _ => ?_
    rw [cUint32_of_lt hfits.1, cUint32_of_lt hfits.2, Nat.mul_comm]
    exact rmsNormMul_both F _ _ _ _ (Nat.mul_comm c.rows c.cols ▸ hplaced.1)
      (Nat.mul_comm c.rows c.cols ▸ hplaced.2)
  | rope src positions dst a =>
    obtain ⟨hhead, hnhead, htoken, hdims⟩ := hfits
    rw [GlueCall.run, GlueCall.run]
    refine runCall_eq fun hrc => ?_
    rw [ropeRc, cUint32_of_lt hhead, cUint32_of_lt hnhead, cUint32_of_lt htoken,
      cUint32_of_lt hdims] at hrc
    have hshape : a.nDims % 2 = 0 ∧ a.nDims ≤ a.headDim := by
      split at hrc
      · exact absurd hrc (by decide)
      · split at hrc
        · exact absurd hrc (by decide)
        · omega
    rw [cUint32_of_lt hhead, cUint32_of_lt hnhead, cUint32_of_lt htoken, cUint32_of_lt hdims]
    exact rope_both (a := { a with mode := cUint32 a.mode, nCtxOrig := cUint32 a.nCtxOrig }) F
      _ _ _ _ hplaced.1 hplaced.2
      hshape.1 hshape.2

/-- Operations on words in the place of those on floats. -/
def wordOps : MathOps where
  ofNat := BitVec.ofNat 32
  add := fun x y => x + y
  mul := fun x y => x * y
  div := fun x y => x / y
  sqrt := fun x => x
  ofInt32 := fun x => x
  sub := fun x y => x - y
  neg := fun x => -x
  lt := fun x y => x.slt y
  ge := fun x y => y.sle x
  exp := fun x => x
  log := fun x => x
  pow := fun x y => x * y
  cos := fun x => x
  sin := fun x => ~~~x
  floor := fun x => x
  ceil := fun x => x

/-- ROPE in place with the pairs half a head apart. -/
theorem rope_in_place_eq_staged :
    (GlueCall.rope ⟨1, 0, 32⟩ ⟨2, 0, 4⟩ ⟨1, 0, 32⟩ ⟨4, 2, 1, 4, 2, 0, 1, 1, 0, 1, 0, 0⟩).run wordOps
      ⟨true, true, true⟩ (fun b => BitVec.ofNat 8 b.2) =
      (GlueCall.rope ⟨1, 0, 32⟩ ⟨2, 0, 4⟩ ⟨1, 0, 32⟩ ⟨4, 2, 1, 4, 2, 0, 1, 1, 0, 1, 0, 0⟩).run
        wordOps ⟨false, true, false⟩
        (fun b => BitVec.ofNat 8 b.2) := by
  apply zero_copy_eq_staged
  · exact ⟨by decide, by decide, by decide, by decide⟩
  · refine ⟨.inl ⟨rfl, rfl⟩, ?_⟩
    rintro b ⟨hb, -, -⟩ ⟨hb', -, -⟩
    exact absurd (hb.symm.trans hb') (by decide)

end Ps.ZeroCopy
