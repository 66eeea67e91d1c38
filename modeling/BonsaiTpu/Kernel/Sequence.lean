-- SUMMARY: What a kernel run is for: the positions it goes through, the beats it takes and gives, and the lane results.
import BonsaiTpu.Kernel.Datapath

/-!
# The sequence of a run

A run is described without the registers: `Pos` is the place in the loop nest of
acts, rowblocks, Q1 blocks and sub-blocks, `Pos.next` moves on when a beat is
taken or given, and the lane results are folds over the two input streams.
-/

namespace Q1a8

/-- The block counts of a run and the contents of its two input streams. -/
structure Streams where
  q1Blocks : Nat
  rowblocks : Nat
  acts : Nat → BitVec 64
  weights : Nat → BitVec 64

/-- The runs the kernel is made for: the column fits the acts BRAM and the counts fit
    their registers. -/
structure Job extends Streams where
  q1Pos : 1 ≤ q1Blocks
  q1Le : q1Blocks ≤ 64
  rbPos : 1 ≤ rowblocks
  rbLe : rowblocks ≤ 65535

namespace Streams

variable (j : Streams)

/-! ## Operands in the streams -/

/-- The 32 activations of sub-block `s` of Q1 block `q`: four beats, the first lowest. -/
def actsWord (q s : Nat) : BitVec 256 :=
  j.acts (20 * q + 5 * s + 3) ++ j.acts (20 * q + 5 * s + 2) ++ j.acts (20 * q + 5 * s + 1) ++
    j.acts (20 * q + 5 * s)

def actScale (q s : Nat) : Fp16 := (j.acts (20 * q + 5 * s + 4)).extractLsb' 0 16

/-- The first weight beat of a Q1 block of a rowblock. -/
def weightBase (b q : Nat) : Nat := 18 * (b * j.q1Blocks + q)

def weightScale (b q lane : Nat) : Fp16 :=
  (j.weights (j.weightBase b q + lane / 4)).extractLsb' (lane % 4 * 16) 16

def weightBits (b q s lane : Nat) : BitVec 32 :=
  (j.weights (j.weightBase b q + 2 + 4 * s + lane / 2)).extractLsb' (lane % 2 * 32) 32

/-- The contribution of sub-block `i` of the column. -/
def term (b lane i : Nat) : Fp32 :=
  contribution (j.weightScale b (i / 4) lane) (j.actScale (i / 4) (i % 4))
    (j.weightBits b (i / 4) (i % 4) lane) (j.actsWord (i / 4) (i % 4))

/-- The first `n` contributions, added from `+0` in order. -/
def partialLane (b lane n : Nat) : Fp32 :=
  (List.range n).foldl (fun acc i => fp32Add acc (j.term b lane i)) 0

def laneResult (b lane : Nat) : Fp32 := j.partialLane b lane (4 * j.q1Blocks)

/-- Beat `c` of the result stream: lanes `2e` and `2e + 1` of rowblock `b`. -/
def resultBeat (c : Nat) : BitVec 64 :=
  j.laneResult (c / 4) (2 * (c % 4) + 1) ++ j.laneResult (c / 4) (2 * (c % 4))

def actsBeats : Nat := 20 * j.q1Blocks

def weightBeats : Nat := 18 * j.q1Blocks * j.rowblocks

def resultBeats : Nat := 4 * j.rowblocks

@[simp] theorem partialLane_zero (b lane : Nat) : j.partialLane b lane 0 = 0 := rfl

theorem partialLane_succ (b lane n : Nat) :
    j.partialLane b lane (n + 1) = fp32Add (j.partialLane b lane n) (j.term b lane n) := by
  rw [partialLane, List.range_succ, List.foldl_append]
  rfl

end Streams

/-! ## Positions -/

/-- A place in a run. `load n` has `n` beats of the acts stream behind it; the other
    positions count the rowblock `b`, the Q1 block `q` or sub-block `i`, and the
    beats `t` of the current group. -/
inductive Pos where
  | load (n : Nat)
  | scales (b q t : Nat)
  | wbits (b i t : Nat)
  | issue (b i : Nat)
  | wait (b c : Nat)
  | drain (b d : Nat)
  | emit (b e : Nat)
  | finish
  | done
  deriving DecidableEq

namespace Pos

variable (j : Job)

/-- The next position, given whether each stream has a beat to take or give. -/
def next (actsValid weightsValid ready : Bool) : Pos → Pos
  | load n =>
    if actsValid then if n + 1 = j.actsBeats then scales 0 0 0 else load (n + 1) else load n
  | scales b q t =>
    if weightsValid then if t = 1 then wbits b (4 * q) 0 else scales b q (t + 1) else scales b q t
  | wbits b i t =>
    if weightsValid then if t = 3 then issue b i else wbits b i (t + 1) else wbits b i t
  | issue b i =>
    if i % 4 = 3 then if i + 1 = 4 * j.q1Blocks then wait b 0 else scales b (i / 4 + 1) 0
    else wbits b (i + 1) 0
  | wait b c => if c = 3 then drain b 2 else wait b (c + 1)
  | drain b d => if d = 0 then emit b 0 else drain b (d - 1)
  | emit b e =>
    if ready then
      if e = 3 then if b + 1 = j.rowblocks then finish else scales (b + 1) 0 0 else emit b (e + 1)
    else emit b e
  | finish => done
  | done => done

def takesActs : Pos → Bool
  | load _ => true
  | _ => false

def takesWeights : Pos → Bool
  | scales .. => true
  | wbits .. => true
  | _ => false

def gives : Pos → Bool
  | emit .. => true
  | _ => false

/-- The beats of the acts stream taken so far. -/
def actsTaken : Pos → Nat
  | load n => n
  | _ => j.actsBeats

def weightsTaken : Pos → Nat
  | load _ => 0
  | scales b q t => j.weightBase b q + t
  | wbits b i t => j.weightBase b (i / 4) + 2 + 4 * (i % 4) + t
  | issue b i => j.weightBase b (i / 4) + 2 + 4 * (i % 4) + 4
  | wait b _ => j.weightBase (b + 1) 0
  | drain b _ => j.weightBase (b + 1) 0
  | emit b _ => j.weightBase (b + 1) 0
  | finish => j.weightBeats
  | done => j.weightBeats

def given : Pos → Nat
  | load _ => 0
  | scales b _ _ => 4 * b
  | wbits b _ _ => 4 * b
  | issue b _ => 4 * b
  | wait b _ => 4 * b
  | drain b _ => 4 * b
  | emit b e => 4 * b + e
  | finish => j.resultBeats
  | done => j.resultBeats

/-- The counters of a position are in their ranges. -/
def Valid : Pos → Prop
  | load n => n < j.actsBeats
  | scales b q t => b < j.rowblocks ∧ q < j.q1Blocks ∧ t < 2
  | wbits b i t => b < j.rowblocks ∧ i < 4 * j.q1Blocks ∧ t < 4
  | issue b i => b < j.rowblocks ∧ i < 4 * j.q1Blocks
  | wait b c => b < j.rowblocks ∧ c < 4
  | drain b d => b < j.rowblocks ∧ d < 3
  | emit b e => b < j.rowblocks ∧ e < 4
  | finish => True
  | done => True

variable {j}

theorem Valid.next {p : Pos} (h : p.Valid j) (av wv ready : Bool) :
    (p.next j av wv ready).Valid j := by
  have hq := j.q1Pos
  have hrb := j.rbPos
  -- position by position: a counter goes on below its bound, or the next loop begins
  cases p with
  | load n =>
    have hn : n < j.actsBeats := h
    rw [Pos.next]
    split_ifs with hv hlast
    · exact ⟨hrb, hq, by decide⟩
    · exact Nat.lt_of_le_of_ne hn hlast
    · exact hn
  | scales b q t =>
    obtain ⟨hb, hq, ht⟩ := h
    rw [Pos.next]
    split_ifs with hv hlast
    · exact ⟨hb, by omega, by decide⟩
    · exact ⟨hb, hq, by omega⟩
    · exact ⟨hb, hq, ht⟩
  | wbits b i t =>
    obtain ⟨hb, hi, ht⟩ := h
    rw [Pos.next]
    split_ifs with hv hlast
    · exact ⟨hb, hi⟩
    · exact ⟨hb, hi, by omega⟩
    · exact ⟨hb, hi, ht⟩
  | issue b i =>
    obtain ⟨hb, hi⟩ := h
    rw [Pos.next]
    split_ifs with hs hlast
    · exact ⟨hb, by decide⟩
    · exact ⟨hb, by omega, by decide⟩
    · exact ⟨hb, by omega, by decide⟩
  | wait b c =>
    obtain ⟨hb, hc⟩ := h
    rw [Pos.next]
    split_ifs with hlast
    · exact ⟨hb, by decide⟩
    · exact ⟨hb, by omega⟩
  | drain b d =>
    obtain ⟨hb, hd⟩ := h
    rw [Pos.next]
    split_ifs with hlast
    · exact ⟨hb, by decide⟩
    · exact ⟨hb, by omega⟩
  | emit b e =>
    obtain ⟨hb, he⟩ := h
    rw [Pos.next]
    split_ifs with hr hlast hfin
    · trivial
    · exact ⟨by omega, hq, by decide⟩
    · exact ⟨hb, by omega⟩
    · exact ⟨hb, he⟩
  | finish => trivial
  | done => trivial

/-! ## The counters of a position -/

theorem actsTaken_next {p : Pos} (h : p.Valid j) (av wv ready : Bool) :
    (p.next j av wv ready).actsTaken j = p.actsTaken j + if av && p.takesActs then 1 else 0 := by
  cases p with
  | load n =>
    have hn : n < j.actsBeats := h
    rw [Pos.next]
    split_ifs <;> simp_all [actsTaken, takesActs]
  | _ =>
    rw [Pos.next]
    split_ifs <;> simp_all [actsTaken, takesActs]

theorem weightsTaken_next {p : Pos} (h : p.Valid j) (av wv ready : Bool) :
    (p.next j av wv ready).weightsTaken j = p.weightsTaken j + if wv && p.takesWeights then 1
      else 0 := by
  cases p with
  | load n =>
    rw [Pos.next]
    split_ifs <;> simp_all [weightsTaken, takesWeights, Streams.weightBase]
  | scales b q t =>
    obtain ⟨hb, hq, ht⟩ := h
    rw [Pos.next]
    split_ifs <;> simp_all [weightsTaken, takesWeights]
    omega
  | wbits b i t =>
    rw [Pos.next]
    split_ifs <;> simp_all [weightsTaken, takesWeights]
    omega
  | issue b i =>
    obtain ⟨hb, hi⟩ := h
    have hsucc : (b + 1) * j.q1Blocks = b * j.q1Blocks + j.q1Blocks := Nat.succ_mul b j.q1Blocks
    rw [Pos.next]
    split_ifs <;> simp_all [weightsTaken, takesWeights, Streams.weightBase] <;> omega
  | emit b e =>
    rw [Pos.next]
    split_ifs <;> simp_all [weightsTaken, takesWeights, Streams.weightBase, Streams.weightBeats]
    rename_i hlast
    rw [← hlast, Nat.mul_assoc, Nat.mul_comm j.q1Blocks]
  | _ =>
    rw [Pos.next]
    split_ifs <;> simp_all [weightsTaken, takesWeights]

theorem given_next {p : Pos} (h : p.Valid j) (av wv ready : Bool) :
    (p.next j av wv ready).given j = p.given j + if p.gives && ready then 1 else 0 := by
  cases p with
  | emit b e =>
    obtain ⟨hb, he⟩ := h
    rw [Pos.next]
    split_ifs <;> simp_all [given, gives, Streams.resultBeats] <;> omega
  | _ =>
    rw [Pos.next]
    split_ifs <;> simp_all [given, gives]

theorem actsTaken_le {p : Pos} (h : p.Valid j) : p.actsTaken j ≤ j.actsBeats := by
  cases p with
  | load n => exact Nat.le_of_lt h
  | _ => exact Nat.le_refl _

theorem given_le {p : Pos} (h : p.Valid j) : p.given j ≤ j.resultBeats := by
  cases p <;> simp_all [given, Valid, Streams.resultBeats] <;> omega

theorem weightsTaken_le {p : Pos} (h : p.Valid j) : p.weightsTaken j ≤ j.weightBeats := by
  have hrow : ∀ b, b < j.rowblocks → (b + 1) * j.q1Blocks ≤ j.rowblocks * j.q1Blocks :=
    fun b hb => Nat.mul_le_mul_right _ hb
  have htotal : j.weightBeats = 18 * (j.rowblocks * j.q1Blocks) := by
    rw [Streams.weightBeats, Nat.mul_assoc, Nat.mul_comm j.q1Blocks]
  cases p <;> simp_all [weightsTaken, Valid, Streams.weightBase, Nat.succ_mul] <;> grind

/-! ## Stalls -/

/-- The position waits for a beat, or for the result beat to be taken. -/
def blocked (actsValid weightsValid ready : Bool) (p : Pos) : Bool :=
  p.takesActs && !actsValid || p.takesWeights && !weightsValid || p.gives && !ready

/-- Streams can only delay a run: a position either stays or moves on as without stalls. -/
theorem next_eq (p : Pos) (av wv ready : Bool) :
    p.next j av wv ready = if p.blocked av wv ready then p else p.next j true true true := by
  cases p <;> cases av <;> cases wv <;> cases ready <;> rfl

/-- The cycles of a rowblock without stalls. -/
def rowblockCycles (j : Job) : Nat := 22 * j.q1Blocks + 11

/-- The cycles of a run without stalls. -/
def runCycles (j : Job) : Nat := j.actsBeats + j.rowblocks * rowblockCycles j + 1

/-- The cycles that lead to a position when nothing stalls. -/
def cycles (j : Job) : Pos → Nat
  | load n => n
  | scales b q t => j.actsBeats + b * rowblockCycles j + 22 * q + t
  | wbits b i t => j.actsBeats + b * rowblockCycles j + 22 * (i / 4) + 5 * (i % 4) + 2 + t
  | issue b i => j.actsBeats + b * rowblockCycles j + 22 * (i / 4) + 5 * (i % 4) + 6
  | wait b c => j.actsBeats + b * rowblockCycles j + 22 * j.q1Blocks + c
  | drain b d => j.actsBeats + b * rowblockCycles j + 22 * j.q1Blocks + 4 + (2 - d)
  | emit b e => j.actsBeats + b * rowblockCycles j + 22 * j.q1Blocks + 7 + e
  | finish => j.actsBeats + j.rowblocks * rowblockCycles j
  | done => runCycles j

theorem cycles_next {p : Pos} (h : p.Valid j) (hp : p ≠ done) :
    (p.next j true true true).cycles j = p.cycles j + 1 := by
  have hrow : ∀ b, (b + 1) * rowblockCycles j = b * rowblockCycles j + 22 * j.q1Blocks + 11 :=
    fun b => Nat.succ_mul b _
  cases p with
  | load n =>
    rw [Pos.next]
    split_ifs <;> simp_all [cycles]
  | scales b q t =>
    obtain ⟨hb, hq, ht⟩ := h
    rw [Pos.next]
    split_ifs <;> simp_all [cycles]
    omega
  | wbits b i t =>
    rw [Pos.next]
    split_ifs <;> simp_all [cycles]
    omega
  | issue b i =>
    obtain ⟨hb, hi⟩ := h
    rw [Pos.next]
    split_ifs <;> simp_all [cycles] <;> omega
  | wait b c =>
    rw [Pos.next]
    split_ifs <;> simp_all [cycles]
    omega
  | drain b d =>
    obtain ⟨hb, hd⟩ := h
    rw [Pos.next]
    split_ifs <;> simp_all [cycles]
    omega
  | emit b e =>
    obtain ⟨hb, he⟩ := h
    rw [Pos.next]
    split_ifs with hr hlast hend
    · simp only [cycles]
      rw [← hend, hrow]
      omega
    · simp only [cycles, hrow]
      omega
    · rfl
    · exact absurd rfl hr
  | finish => rfl
  | done => exact absurd rfl hp

theorem cycles_lt {p : Pos} (h : p.Valid j) (hp : p ≠ done) : p.cycles j < runCycles j := by
  have hrow : ∀ b, b < j.rowblocks → b * rowblockCycles j + 22 * j.q1Blocks + 11 ≤
      j.rowblocks * rowblockCycles j := by
    intro b hb
    have hsucc : (b + 1) * rowblockCycles j = b * rowblockCycles j + 22 * j.q1Blocks + 11 :=
      Nat.succ_mul b _
    exact hsucc ▸ Nat.mul_le_mul_right _ hb
  cases p with
  | load n =>
    have hn : n < j.actsBeats := h
    simp only [cycles, runCycles]
    omega
  | finish => exact Nat.lt_succ_self _
  | done => exact absurd rfl hp
  | _ =>
    have hb := hrow _ h.1
    simp only [cycles, runCycles, Valid] at h ⊢
    omega

/-- Fair streams let every position move on. -/
theorem exists_not_blocked {av wv ready : Nat → Bool} (ha : ∀ n, ∃ m, n ≤ m ∧ av m = true)
    (hw : ∀ n, ∃ m, n ≤ m ∧ wv m = true) (hr : ∀ n, ∃ m, n ≤ m ∧ ready m = true)
    (p : Pos) (n : Nat) :
    ∃ m, n ≤ m ∧ p.blocked (av m) (wv m) (ready m) = false := by
  cases p with
  | load _ =>
    obtain ⟨m, hm, hav⟩ := ha n
    exact ⟨m, hm, by simp [blocked, takesActs, takesWeights, gives, hav]⟩
  | scales _ _ _ =>
    obtain ⟨m, hm, hwv⟩ := hw n
    exact ⟨m, hm, by simp [blocked, takesActs, takesWeights, gives, hwv]⟩
  | wbits _ _ _ =>
    obtain ⟨m, hm, hwv⟩ := hw n
    exact ⟨m, hm, by simp [blocked, takesActs, takesWeights, gives, hwv]⟩
  | emit _ _ =>
    obtain ⟨m, hm, hready⟩ := hr n
    exact ⟨m, hm, by simp [blocked, takesActs, takesWeights, gives, hready]⟩
  | _ => exact ⟨n, Nat.le_refl n, rfl⟩

end Pos

end Q1a8
