-- SUMMARY: The norm kernels and the product kernel on memory: their loops, what they touch, and the fused norm against norm and product (`kernels/ps/native.c`).
import BonsaiTpu.Ps.Kernels
import BonsaiTpu.Base.Words

/-!
# Norms on memory

The three kernels go over the columns of their operands, and over the rows of a column,
and store one float after the other. A pointer is straight into a slab when the range
is in one mapped extent, otherwise it is a copy that is taken before or written back
after the loops; so a load sees the stores of the same call exactly if both its
operand and the destination are mapped. Float operations are left open.
-/

namespace Ps

open Words (Byte)

/-! ## Memory -/

/-- A byte of a tensor on the board, by its handle and its offset. -/
abbrev Loc := Nat × Nat

abbrev Mem := Loc → Byte

/-- The bytes of the first `n` floats of an operand. -/
def Operand.Holds (o : Operand) (n : Nat) (b : Loc) : Prop :=
  b.1 = o.handle ∧ o.offset ≤ b.2 ∧ b.2 < o.offset + 4 * n

instance (o : Operand) (n : Nat) (b : Loc) : Decidable (o.Holds n b) :=
  inferInstanceAs (Decidable (b.1 = o.handle ∧ o.offset ≤ b.2 ∧ b.2 < o.offset + 4 * n))

def readF32 (m : Mem) (o : Operand) (p : Nat) : BitVec 32 :=
  m (o.handle, o.offset + 4 * p + 3) ++ m (o.handle, o.offset + 4 * p + 2) ++
    m (o.handle, o.offset + 4 * p + 1) ++
    m (o.handle, o.offset + 4 * p)

def writeF32 (m : Mem) (o : Operand) (p : Nat) (v : BitVec 32) : Mem := fun b =>
  if b.1 = o.handle ∧ o.offset + 4 * p ≤ b.2 ∧ b.2 < o.offset + 4 * p + 4 then
    v.extractLsb' (8 * (b.2 - (o.offset + 4 * p))) 8
  else m b

theorem readF32_congr {m m' : Mem} {o : Operand} {p : Nat}
    (h : ∀ i < 4, m (o.handle, o.offset + 4 * p + i) = m' (o.handle, o.offset + 4 * p + i)) :
    readF32 m o p = readF32 m' o p := by
  have h0 := h 0 (by decide)
  rw [Nat.add_zero] at h0
  rw [readF32, readF32, h0, h 1 (by decide), h 2 (by decide), h 3 (by decide)]

/-- The elements of an operand whose bytes are the same. -/
theorem readF32_same {m m' : Mem} {o : Operand} {n q : Nat}
    (hsame : ∀ b, o.Holds n b → m b = m' b) (hq : q < n) :
    readF32 m o q = readF32 m' o q :=
  readF32_congr fun _ hi => hsame _ ⟨rfl, by simp only; omega, by simp only; omega⟩

theorem append_extractLsb' (v : BitVec 32) :
    (v.extractLsb' 24 8 ++ v.extractLsb' 16 8 ++ v.extractLsb' 8 8 ++
      v.extractLsb' 0 8 : BitVec 32) = v := by
  apply BitVec.eq_of_getLsbD_eq
  intro i hi
  simp only [BitVec.getLsbD_append, BitVec.getLsbD_extractLsb']
  grind

theorem readF32_writeF32 (m : Mem) (o : Operand) (p : Nat) (v : BitVec 32) :
    readF32 (writeF32 m o p v) o p = v := by
  have hbyte : ∀ i < 4, writeF32 m o p v (o.handle, o.offset + 4 * p + i) =
      v.extractLsb' (8 * i) 8 := by
    intro i hi
    rw [writeF32, if_pos ⟨rfl, by omega, by omega⟩, Nat.add_sub_cancel_left]
  have h0 := hbyte 0 (by decide)
  rw [Nat.add_zero] at h0
  rw [readF32, h0, hbyte 1 (by decide), hbyte 2 (by decide), hbyte 3 (by decide)]
  exact append_extractLsb' v

theorem writeF32_of_not {m : Mem} {o : Operand} {p : Nat} {v : BitVec 32} {b : Loc}
    (h : ¬(b.1 = o.handle ∧ o.offset + 4 * p ≤ b.2 ∧ b.2 < o.offset + 4 * p + 4)) :
    writeF32 m o p v b = m b := if_neg h

/-- Two operands that start at the same byte, or have no byte in common. -/
def Aligned (o o' : Operand) (n : Nat) : Prop :=
  o.handle = o'.handle ∧ o.offset = o'.offset ∨ ∀ b, o.Holds n b → ¬o'.Holds n b

/-! ## Loops -/

/-- Two counting loops side by side. -/
theorem foldl_range_rel {α β : Type} {f : α → Nat → α} {g : β → Nat → β} (I : Nat → α → β → Prop)
    (n : Nat) {a : α} {b : β}
    (hstart : I 0 a b) (hstep : ∀ i < n, ∀ a b, I i a b → I (i + 1) (f a i) (g b i)) :
    I n ((List.range n).foldl f a) ((List.range n).foldl g b) := by
  induction n with
  | zero => exact hstart
  | succ n ih =>
    rw [List.range_succ, List.foldl_append, List.foldl_append]
    exact hstep n (Nat.lt_succ_self n) _ _ (ih fun i hi => hstep i (Nat.lt_succ_of_lt hi))

/-- The loops of a kernel: what `start` computes at the head of a column is used for the
    value of each of its elements. -/
def columnLoop {β : Type} (rows cols : Nat) (dst : Operand) (start : Mem → Nat → β)
    (value : β → Mem → Nat → Nat → BitVec 32) (m : Mem) : Mem :=
  (List.range cols).foldl (fun cur col =>
    let head := start cur col
    (List.range rows).foldl (fun cur row =>
      writeF32 cur dst (col * rows + row) (value head cur (col * rows + row) row)) cur) m

/-- Two runs that stored the same up to element `p`, from two memories. -/
structure Like (m m' : Mem) (dst : Operand) (p : Nat) (cur cur' : Mem) : Prop where
  stored : ∀ b, dst.Holds p b → cur b = cur' b
  rest : ∀ b, ¬dst.Holds p b → cur b = m b ∧ cur' b = m' b

section

variable {m m' cur cur' : Mem} {dst : Operand} {p : Nat}

theorem Like.start (m m' : Mem) (dst : Operand) : Like m m' dst 0 m m' :=
  ⟨fun b ⟨_, hle, hlt⟩ => absurd hlt (by omega), fun _ _ => ⟨rfl, rfl⟩⟩

theorem Like.write (h : Like m m' dst p cur cur') (v : BitVec 32) :
    Like m m' dst (p + 1) (writeF32 cur dst p v) (writeF32 cur' dst p v) := by
  constructor
  · rintro b ⟨hhandle, hle, hlt⟩
    simp only [writeF32]
    split
    · rfl
    · next hword => exact h.stored b ⟨hhandle, hle, by omega⟩
  · intro b hb
    have hword : ¬(b.1 = dst.handle ∧ dst.offset + 4 * p ≤ b.2 ∧ b.2 < dst.offset + 4 * p + 4) := by
      rintro ⟨hhandle, hle, hlt⟩
      exact hb ⟨hhandle, by omega, by omega⟩
    rw [writeF32_of_not hword, writeF32_of_not hword]
    exact h.rest b fun ⟨hhandle, hle, hlt⟩ => hb ⟨hhandle, hle, by omega⟩

theorem Like.symm (h : Like m m' dst p cur cur') : Like m' m dst p cur' cur :=
  ⟨fun b hb => (h.stored b hb).symm, fun b hb => ⟨(h.rest b hb).2, (h.rest b hb).1⟩⟩

/-- What was the same before is the same. -/
theorem Like.agree (h : Like m m' dst p cur cur') {b : Loc} (hb : m b = m' b) : cur b = cur' b := by
  by_cases hstored : dst.Holds p b
  · exact h.stored b hstored
  · rw [(h.rest b hstored).1, (h.rest b hstored).2, hb]

/-- The elements from `p` on of an operand in place, or apart, are as they were. -/
theorem Like.ahead (h : Like m m' dst p cur cur') {o : Operand} {n q : Nat} (ho : Aligned o dst n)
    (hle : p ≤ q) (hlt : q < n) :
    readF32 cur o q = readF32 m o q := by
  refine readF32_congr fun i hi => (h.rest _ ?_).1
  rintro ⟨hhandle, hstart, hend⟩
  rcases ho with ⟨-, hoffset⟩ | hapart
  · simp only at hend
    omega
  · refine hapart (o.handle, o.offset + 4 * q + i) ⟨rfl, by simp only; omega, by simp only; omega⟩
      ⟨hhandle, hstart, ?_⟩
    simp only at hend ⊢
    omega

/-- Two kernels side by side store the same, if their values are the same. -/
theorem columnLoop_like {β β' : Type} {rows cols : Nat} {start : Mem → Nat → β}
    {start' : Mem → Nat → β'}
    {value : β → Mem → Nat → Nat → BitVec 32} {value' : β' → Mem → Nat → Nat → BitVec 32}
    (R : Nat → β → β' → Prop)
    (hhead : ∀ col < cols, ∀ cur cur', Like m m' dst (col * rows) cur cur' →
      R col (start cur col) (start' cur' col))
    (hvalue : ∀ col < cols, ∀ row < rows, ∀ head head' cur cur', R col head head' →
      Like m m' dst (col * rows + row) cur cur' →
      value head cur (col * rows + row) row = value' head' cur' (col * rows + row) row) :
    Like m m' dst (cols * rows) (columnLoop rows cols dst start value m)
      (columnLoop rows cols dst start' value' m') := by
  refine foldl_range_rel (fun col cur cur' => Like m m' dst (col * rows) cur cur') cols ?_ ?_
  · rw [Nat.zero_mul]
    exact .start m m' dst
  · intro col hcol cur cur' hcur
    have hinner := foldl_range_rel (fun row cur cur' =>
      Like m m' dst (col * rows + row) cur cur') rows hcur
      (f := fun c row =>
        writeF32 c dst (col * rows + row) (value (start cur col) c (col * rows + row) row))
      (g := fun c row =>
        writeF32 c dst (col * rows + row) (value' (start' cur' col) c (col * rows + row) row))
      fun row hrow c c' hc => by
        rw [hvalue col hcol row hrow _ _ c c' (hhead col hcol cur cur' hcur) hc]
        exact hc.write _
    rw [Nat.succ_mul]
    exact hinner

end

/-! ## Kernels -/

/-- The float operations of the kernels. -/
structure F32Ops where
  ofNat : Nat → BitVec 32
  add : BitVec 32 → BitVec 32 → BitVec 32
  mul : BitVec 32 → BitVec 32 → BitVec 32
  div : BitVec 32 → BitVec 32 → BitVec 32
  sqrt : BitVec 32 → BitVec 32

section

variable (F : F32Ops) (mapped : Operand → Bool)

/-- The memory behind the pointer of an input: `m` is the one at the start of the call. -/
def behind (dst src : Operand) (m cur : Mem) : Mem := if mapped src && mapped dst then cur else m

/-- The scale of a column. -/
def rmsScale (value : Nat → BitVec 32) (rows : Nat) (eps : BitVec 32) (col : Nat) : BitVec 32 :=
  let meanSquare := (List.range rows).foldl
    (fun sum row => F.add sum (F.mul (value (col * rows + row)) (value (col * rows + row)))) 0#32
  F.div floatOne (F.sqrt (F.add (F.div meanSquare (F.ofNat rows)) eps))

def bonsaiRmsNormF32 (src dst : Operand) (rows cols : Nat) (eps : BitVec 32) (m : Mem) : Mem :=
  columnLoop rows cols dst (fun cur col =>
    rmsScale F (readF32 (behind mapped dst src m cur) src) rows eps col)
    (fun scale cur index _ => F.mul (readF32 (behind mapped dst src m cur) src index) scale) m

def bonsaiRmsNormMulF32 (src weight dst : Operand) (rows cols : Nat) (eps : BitVec 32)
    (m : Mem) : Mem :=
  columnLoop rows cols dst (fun cur col =>
    rmsScale F (readF32 (behind mapped dst src m cur) src) rows eps col)
    (fun scale cur index row =>
      F.mul (F.mul (readF32 (behind mapped dst src m cur) src index) scale)
        (readF32 (behind mapped dst weight m cur) weight row)) m

def bonsaiMulF32 (src0 src1 dst : Operand) (rows cols : Nat) (src1Broadcast : Bool)
    (m : Mem) : Mem :=
  columnLoop rows cols dst (fun _ _ => ())
    (fun _ cur index row =>
      F.mul (readF32 (behind mapped dst src0 m cur) src0 index)
        (readF32 (behind mapped dst src1 m cur) src1 (if src1Broadcast then row else index))) m

end

/-! ## What the kernels store -/

section

variable {F : F32Ops} {mapped : Operand → Bool} {m m' cur cur' : Mem}
    {src src0 src1 weight dst : Operand}
  {rows cols p q n : Nat} {eps : BitVec 32}

theorem behind_agree (h : Like m m' dst p cur cur')
    (hsame : ∀ b, src.Holds n b → m b = m' b) (hq : q < n) :
    readF32 (behind mapped dst src m cur) src q =
      readF32 (behind mapped dst src m' cur') src q := by
  refine readF32_congr fun i hi => ?_
  have hb : src.Holds n (src.handle, src.offset + 4 * q + i) :=
    ⟨rfl, by simp only; omega, by simp only; omega⟩
  simp only [behind]
  split
  · exact h.agree (hsame _ hb)
  · exact hsame _ hb

theorem behind_ahead (h : Like m m' dst p cur cur') (ho : Aligned src dst n)
    (hle : p ≤ q) (hlt : q < n) :
    readF32 (behind mapped dst src m cur) src q = readF32 m src q := by
  simp only [behind]
  split
  · exact h.ahead ho hle hlt
  · rfl

theorem rmsScale_congr {value value' : Nat → BitVec 32} {col : Nat}
    (h : ∀ row < rows, value (col * rows + row) = value' (col * rows + row)) :
    rmsScale F value rows eps col = rmsScale F value' rows eps col := by
  have hsum := foldl_range_rel (fun _ s s' => s = s') rows (a := 0#32) (b := 0#32)
    (f := fun sum row => F.add sum (F.mul (value (col * rows + row)) (value (col * rows + row))))
    (g := fun sum row => F.add sum (F.mul (value' (col * rows + row)) (value' (col * rows + row))))
      rfl
    fun row hrow s s' hs => by rw [hs, h row hrow]
  rw [rmsScale, rmsScale, hsum]

theorem index_lt {col row : Nat} (hcol : col < cols) (hrow : row < rows) :
    col * rows + row < cols * rows := by
  calc col * rows + row < (col + 1) * rows := by rw [Nat.succ_mul]; omega
    _ ≤ cols * rows := Nat.mul_le_mul_right rows hcol

/-- The norm depends on its input alone. -/
theorem rmsNorm_like (hsrc : ∀ b, src.Holds (cols * rows) b → m b = m' b) :
    Like m m' dst (cols * rows) (bonsaiRmsNormF32 F mapped src dst rows cols eps m)
      (bonsaiRmsNormF32 F mapped src dst rows cols eps m') := by
  refine columnLoop_like (fun _ scale scale' => scale = scale') ?_ ?_
  · exact fun col hcol cur cur' hcur => rmsScale_congr fun row hrow =>
      behind_agree hcur hsrc (index_lt hcol hrow)
  · rintro col hcol row hrow scale _ cur cur' rfl hcur
    rw [behind_agree hcur hsrc (index_lt hcol hrow)]

/-- The product depends on its inputs alone. -/
theorem mul_like {broadcast : Bool} (hsrc0 : ∀ b, src0.Holds (cols * rows) b → m b = m' b)
    (hsrc1 : ∀ b, src1.Holds (if broadcast then rows else cols * rows) b → m b = m' b) :
    Like m m' dst (cols * rows) (bonsaiMulF32 F mapped src0 src1 dst rows cols broadcast m)
      (bonsaiMulF32 F mapped src0 src1 dst rows cols broadcast m') := by
  refine columnLoop_like (fun _ _ _ => True) (fun _ _ _ _ _ => trivial) ?_
  intro col hcol row hrow _ _ cur cur' _ hcur
  have hlt : (if broadcast then row else col * rows + row) < if broadcast then rows
      else cols * rows := by
    split
    · exact hrow
    · exact index_lt hcol hrow
  rw [behind_agree hcur hsrc0 (index_lt hcol hrow), behind_agree hcur hsrc1 hlt]

/-- An element of the norm of an input. -/
def rmsValue (F : F32Ops) (m : Mem) (src : Operand) (rows : Nat) (eps : BitVec 32)
    (index : Nat) : BitVec 32 :=
  F.mul (readF32 m src index) (rmsScale F (readF32 m src) rows eps (index / rows))

theorem index_div {col row : Nat} (hrow : row < rows) : (col * rows + row) / rows = col := by
  rw [Nat.mul_comm, Nat.mul_add_div (by omega), Nat.div_eq_of_lt hrow, Nat.add_zero]

theorem rmsValue_congr (hsame : ∀ p < cols * rows, readF32 m src p = readF32 m' src p)
    (hq : q < cols * rows) :
    rmsValue F m src rows eps q = rmsValue F m' src rows eps q := by
  have hcol : q / rows < cols := Nat.div_lt_of_lt_mul (by rwa [Nat.mul_comm] at hq)
  have hscale : rmsScale F (readF32 m src) rows eps (q / rows) =
      rmsScale F (readF32 m' src) rows eps (q / rows) :=
    rmsScale_congr fun row hrow => hsame _ (index_lt hcol hrow)
  rw [rmsValue, rmsValue, hsame q hq, hscale]

/-- The scale of a column that is not stored to yet. -/
theorem rmsScale_ahead {col : Nat} (h : Like m m' dst (col * rows) cur cur')
    (ho : Aligned src dst (cols * rows)) (hcol : col < cols) :
    rmsScale F (readF32 (behind mapped dst src m cur) src) rows eps col =
      rmsScale F (readF32 m src) rows eps col :=
  rmsScale_congr fun _ hrow => behind_ahead h ho (Nat.le_add_right _ _) (index_lt hcol hrow)

theorem readF32_writeF32_of_lt {v : BitVec 32} (h : q < p) :
    readF32 (writeF32 m dst p v) dst q = readF32 m dst q :=
  readF32_congr fun i hi => writeF32_of_not fun ⟨_, hle, _⟩ => by simp only at hle; omega

/-- Values that do not depend on memory are read back. -/
theorem columnLoop_read (v : Nat → BitVec 32) (hq : q < cols * rows) :
    readF32 (columnLoop rows cols dst (fun _ _ => ()) (fun _ _ index _ => v index) m)
      dst q = v q := by
  have hall := foldl_range_rel (fun col cur (_ : Unit) => ∀ q < col * rows,
    readF32 cur dst q = v q) cols
    (f := fun cur col =>
      (List.range rows).foldl (fun c row =>
        writeF32 c dst (col * rows + row) (v (col * rows + row))) cur)
    (g := fun u _ => u) (a := m) (b := ()) (fun q hq => absurd hq (by omega))
      fun col _ cur _ hcur => ?_
  · exact hall q hq
  · have hinner := foldl_range_rel (fun row cur (_ : Unit) => ∀ q < col * rows + row,
      readF32 cur dst q = v q) rows
      (f := fun c row => writeF32 c dst (col * rows + row) (v (col * rows + row)))
      (g := fun u _ => u) (a := cur) (b := ())
      hcur fun row _ c _ hc q hq => ?_
    · rw [Nat.succ_mul]
      exact hinner
    · rcases Nat.lt_or_ge q (col * rows + row) with hlt | hge
      · rw [readF32_writeF32_of_lt hlt]
        exact hc q hlt
      · obtain rfl : q = col * rows + row := by omega
        exact readF32_writeF32 c dst _ _

/-- The norm of an input that is apart, or replaced in place. -/
theorem rmsNorm_read (ho : Aligned src dst (cols * rows)) (hq : q < cols * rows) :
    readF32 (bonsaiRmsNormF32 F mapped src dst rows cols eps m) dst q =
      rmsValue F m src rows eps q := by
  have hlike : Like m m dst (cols * rows) (bonsaiRmsNormF32 F mapped src dst rows cols eps m)
      (columnLoop rows cols dst (fun _ _ => ()) (fun _ _ index _ =>
        rmsValue F m src rows eps index) m) := by
    refine columnLoop_like (fun col scale _ =>
      scale = rmsScale F (readF32 m src) rows eps col) ?_ ?_
    · exact fun col hcol cur cur' hcur => rmsScale_ahead hcur ho hcol
    · rintro col hcol row hrow scale _ cur cur' rfl hcur
      rw [behind_ahead hcur ho (Nat.le_refl _) (index_lt hcol hrow), rmsValue, index_div hrow]
  rw [← columnLoop_read (rmsValue F m src rows eps) hq]
  refine readF32_congr fun i hi => hlike.stored _ ⟨rfl, by simp only; omega, by simp only; omega⟩

/-- With one column, the second operand is broadcast or not. -/
theorem mul_one_column {broadcast : Bool} :
    bonsaiMulF32 F mapped src0 src1 dst rows 1 broadcast m =
      bonsaiMulF32 F mapped src0 src1 dst rows 1 true m := by
  simp only [bonsaiMulF32, columnLoop, List.range_one, List.foldl_cons, List.foldl_nil,
    Nat.zero_mul, Nat.zero_add, ite_self]

/-- The fused kernel stores what norm and product store: `rms` has the norm of the input in
    the one memory, and the weight is the same in both. -/
theorem fused_like {rms : Operand}
    (hrms : ∀ q < cols * rows, readF32 m rms q = rmsValue F m' src rows eps q)
    (hweight : ∀ b, weight.Holds rows b → m b = m' b) (hrmsDst : Aligned rms dst (cols * rows))
    (hsrcDst : Aligned src dst (cols * rows)) :
    Like m m' dst (cols * rows) (bonsaiMulF32 F mapped rms weight dst rows cols true m)
      (bonsaiRmsNormMulF32 F mapped src weight dst rows cols eps m') := by
  refine columnLoop_like (fun col _ scale => scale = rmsScale F (readF32 m' src) rows eps col) ?_ ?_
  · exact fun col hcol cur cur' hcur => rmsScale_ahead hcur.symm hsrcDst hcol
  · rintro col hcol row hrow _ scale cur cur' rfl hcur
    have hlt := index_lt hcol hrow
    have hweight' : readF32 (behind mapped dst weight m cur) weight
        (if true then row else col * rows + row) =
        readF32 (behind mapped dst weight m' cur') weight row := behind_agree hcur hweight hrow
    rw [hweight', behind_ahead hcur hrmsDst (Nat.le_refl _) hlt, hrms _ hlt,
      behind_ahead hcur.symm hsrcDst (Nat.le_refl _) hlt, rmsValue, index_div hrow]

end

end Ps
