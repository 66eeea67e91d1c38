-- SUMMARY: The array under a stream of skewed vectors: every vector at its own cycle, and none of them mixed (`w1a8_array.v`).
import Mathlib.Algebra.BigOperators.Fin
import BonsaiTpu.Base.Machine
import BonsaiTpu.Tile.Array

/-!
# Streaming through the array

In cycle `n` element `(r, c)` holds its part of vector `t` with `n = t + r + c + 1`, so
neighbouring elements work on neighbouring vectors and up to `rows + cols - 1` of them
are in the array at once. The vectors come back to back or with gaps: a gap is a vector
that is valid for no row.
-/

namespace W1a8

variable {rows cols actWidth psumWidth : Nat}

/-- A stream of vectors. Each row has its own valid bit and its own seed. -/
structure Vectors (rows cols actWidth psumWidth : Nat) where
  acts : Nat → Fin cols → BitVec actWidth
  valid : Nat → Fin rows → Bool
  seeds : Nat → Fin rows → BitVec psumWidth

/-- The contract of the controller: the activation lanes are skewed by column, the valid bits
    and the seeds by row. Nothing is said about a lane before its first vector, except that
    it is not valid. -/
structure Skewed (vs : Vectors rows cols actWidth psumWidth)
    (inp : Nat → ArrayIn rows cols actWidth psumWidth) :
    Prop where
  act : ∀ t (c : Fin cols), (inp (t + c)).actIn c = vs.acts t c
  valid : ∀ t (r : Fin rows), (inp (t + r)).validIn r = vs.valid t r
  seed : ∀ t (r : Fin rows), (inp (t + r)).psumIn r = vs.seeds t r
  before : ∀ (n : Nat) (r : Fin rows), n < r.val → (inp n).validIn r = false

/-- The weights come in one column per cycle, the last column first. -/
def Shifted (weights : Fin rows → Fin cols → Bool)
    (load : Nat → ArrayIn rows cols actWidth psumWidth) : Prop :=
  ∀ (r : Fin rows) (k : Nat) (c : Fin cols), k + c + 1 = cols → (load k).weightIn r = weights r c

/-- What element `c` of a row with these weights adds to the partial sum of a vector. -/
def contribution (weights : Fin cols → Bool) (acts : Fin cols → BitVec actWidth)
    (c : Fin cols) : Int :=
  if weights c then (acts c).toInt else -(acts c).toInt

namespace Vectors

/-- The partial sum of vector `t` in row `r` after the first `k` elements. -/
def partialPsum (vs : Vectors rows cols actWidth psumWidth)
    (weights : Fin rows → Fin cols → Bool) (t : Nat) (r : Fin rows) : Nat → BitVec psumWidth
  | 0 => vs.seeds t r
  | k + 1 =>
    vs.partialPsum weights t r k +
      if h : k < cols then contribExt psumWidth (weights r ⟨k, h⟩) (vs.acts t ⟨k, h⟩) else 0

/-- What row `r` has to give for vector `t`. -/
def result (vs : Vectors rows cols actWidth psumWidth)
    (weights : Fin rows → Fin cols → Bool) (t : Nat) (r : Fin rows) : BitVec psumWidth :=
  BitVec.ofInt psumWidth ((vs.seeds t r).toInt + ∑ c, contribution (weights r) (vs.acts t) c)

theorem partialPsum_cols (vs : Vectors rows cols actWidth psumWidth)
    (weights : Fin rows → Fin cols → Bool)
    (t : Nat) (r : Fin rows) : vs.partialPsum weights t r cols = vs.result weights t r := by
  have hsoFar : ∀ k, vs.partialPsum weights t r k =
      BitVec.ofInt psumWidth ((vs.seeds t r).toInt +
        ∑ d ∈ Finset.range k, if h : d < cols then
          contribution (weights r) (vs.acts t) ⟨d, h⟩ else 0) := by
    intro k
    induction k with
    | zero => simp [partialPsum]
    | succ k ih =>
      rw [partialPsum, ih, Finset.sum_range_succ, ← add_assoc, BitVec.ofInt_add (_ + _)]
      congr 1
      split
      · rw [contribExt_eq, contribution]
      · simp
  rw [hsoFar, Finset.sum_range, result]
  simp only [Fin.is_lt, dif_pos]

end Vectors

/-- The inputs of a controller that keeps to the contract, with zeros before the first vector. -/
def skew (vs : Vectors rows cols actWidth psumWidth) (n : Nat) :
    ArrayIn rows cols actWidth psumWidth where
  weightIn _ := false
  actIn c := if c.val ≤ n then vs.acts (n - c) c else 0
  psumIn r := if r.val ≤ n then vs.seeds (n - r) r else 0
  validIn r := r.val ≤ n && vs.valid (n - r) r

theorem skewed_skew (vs : Vectors rows cols actWidth psumWidth) : Skewed vs (skew vs) where
  act t c := by simp [skew]
  valid t r := by simp [skew]
  seed t r := by simp [skew]
  before n r hn := by simp [skew, show ¬r.val ≤ n by omega]

/-- The inputs of a load. -/
def shiftIn (weights : Fin rows → Fin cols → Bool) (k : Nat) :
    ArrayIn rows cols actWidth psumWidth where
  weightIn r := if h : k < cols then weights r ⟨cols - 1 - k, by omega⟩ else false
  actIn _ := 0
  psumIn _ := 0
  validIn _ := false

theorem shifted_shiftIn (weights : Fin rows → Fin cols → Bool) :
    Shifted weights (shiftIn weights : Nat → ArrayIn rows cols actWidth psumWidth) := by
  intro r k c hk
  have hlt : k < cols := by omega
  simp only [shiftIn, dif_pos hlt]
  exact congrArg (weights r) (Fin.ext (by simp only; omega))

/-! ## Chains between the elements -/

/-- Entry `c` of a chain, by whether it is driven from outside or by the element before. -/
theorem chain_castSucc_of {α : Type*} {n : Nat} {x y : α} {f : Fin n → α} (c : Fin n)
    (h0 : c.val = 0 → x = y)
    (hs : ∀ d : Fin n, d.val + 1 = c.val → f d = y) :
    (Fin.cons x f : Fin (n + 1) → α) c.castSucc = y := by
  by_cases hc : c.val = 0
  · have hcast : c.castSucc = 0 := Fin.ext hc
    rw [hcast, Fin.cons_zero]
    exact h0 hc
  · rw [chain_castSucc x f c (by omega)]
    exact hs _ (by simp only; omega)

/-! ## Loading the weights -/

namespace Array

variable {weights : Fin rows → Fin cols → Bool} {vs : Vectors rows cols actWidth psumWidth}
  {load inp : Nat → ArrayIn rows cols actWidth psumWidth}
    {a : Array rows cols actWidth psumWidth} {n : Nat}

/-- The array in cycle `n` of a load, with `weight_load` high. -/
abbrev loadAt (a : Array rows cols actWidth psumWidth)
    (load : Nat → ArrayIn rows cols actWidth psumWidth) (n : Nat) :
    Array rows cols actWidth psumWidth :=
  Machine.trace (fun a i => step ⟨true, false, true⟩ i a) a load n

/-- The array in cycle `n` of a stream, with `clear` and `weight_load` low. -/
abbrev streamAt (a : Array rows cols actWidth psumWidth)
    (inp : Nat → ArrayIn rows cols actWidth psumWidth) (n : Nat) :
    Array rows cols actWidth psumWidth :=
  Machine.trace (fun a i => step ⟨true, false, false⟩ i a) a inp n

/-- After `k` load cycles column `d` is in element `c` once `c + cols = d + k`. -/
theorem loadAt_weightQ (h : Shifted weights load) (k : Nat) (r : Fin rows) (c d : Fin cols)
    (hcd : c.val + cols = d.val + k) : (loadAt a load k r c).weightQ = weights r d := by
  induction k generalizing c with
  | zero => omega
  | succ k ih =>
    rw [loadAt, Machine.trace_succ, step_load]
    refine chain_castSucc_of c (fun hc => ?_) (fun b hb => ?_)
    · exact h r k d (by omega)
    · exact ih b (by omega)

/-- A load of `cols` cycles leaves the weights in place and the pipeline empty. -/
theorem loadAt_cols (h : Shifted weights load) (r : Fin rows) (c : Fin cols) :
    loadAt a load cols r c = Pe.drained (weights r c) := by
  have hq := loadAt_weightQ (a := a) h cols r c c rfl
  obtain ⟨k, rfl⟩ : ∃ k, cols = k + 1 := ⟨cols - 1, by have := c.isLt; omega⟩
  rw [loadAt, Machine.trace_succ, step_load] at hq ⊢
  rw [← hq]
  rfl

/-! ## Streaming -/

/-- The array in cycle `n` of a stream: element `(r, c)` holds its part of vector `t` with
    `n = t + r + c + 1`, and nothing valid before the first vector reaches it. -/
structure Streaming (weights : Fin rows → Fin cols → Bool)
    (vs : Vectors rows cols actWidth psumWidth) (n : Nat)
    (a : Array rows cols actWidth psumWidth) : Prop where
  weightQ : ∀ r c, (a r c).weightQ = weights r c
  act : ∀ r c t, n = t + r.val + c.val + 1 → (a r c).actOut = vs.acts t c
  valid : ∀ r c t, n = t + r.val + c.val + 1 → (a r c).validOut = vs.valid t r
  psum : ∀ r c t, n = t + r.val + c.val + 1 → vs.valid t r = true →
    (a r c).psumOut = vs.partialPsum weights t r (c.val + 1)
  before : ∀ r c, n < r.val + c.val + 1 → (a r c).validOut = false

/-- A loaded array is ready to stream. -/
theorem Streaming.start (h : ∀ r c, a r c = Pe.drained (weights r c)) :
    Streaming weights vs 0 a where
  weightQ r c := by rw [h]; rfl
  act r c t ht := by omega
  valid r c t ht := by omega
  psum r c t ht := by omega
  before r c _ := by rw [h]; rfl

section Step

variable (h : Streaming weights vs n a) (hin : Skewed vs inp) (r : Fin rows)
    (c : Fin cols) (t : Nat)
include h hin

/-- The activation that element `(r, c)` samples. -/
theorem Streaming.actChain (ht : n = t + r.val + c.val) :
    Array.actChain (inp n).actIn a r.castSucc c = vs.acts t c := by
  have hchain : Array.actChain (inp n).actIn a r.castSucc =
      (Fin.cons (inp n).actIn (fun r c => (a r c).actOut) : Fin (rows + 1) → Fin cols →
        BitVec actWidth) r.castSucc := rfl
  by_cases hr : r.val = 0
  · have hcast : r.castSucc = 0 := Fin.ext hr
    rw [hchain, hcast, Fin.cons_zero, show n = t + c.val by omega]
    exact hin.act t c
  · rw [hchain, chain_castSucc _ _ r (by omega)]
    exact h.act _ c t (by simp only; omega)

/-- The valid bit it samples. -/
theorem Streaming.validChain (ht : n = t + r.val + c.val) :
    Row.validChain ((inp n).validIn r) (a r) c.castSucc = vs.valid t r := by
  refine chain_castSucc_of c (fun hc => ?_) (fun d hd => ?_)
  · rw [show n = t + r.val by omega]
    exact hin.valid t r
  · exact h.valid r d t (by omega)

/-- It samples no valid bit before the first vector. -/
theorem Streaming.validChain_before (hn : n < r.val + c.val) :
    Row.validChain ((inp n).validIn r) (a r) c.castSucc = false := by
  refine chain_castSucc_of c (fun hc => ?_) (fun d hd => ?_)
  · exact hin.before n r (by omega)
  · exact h.before r d (by omega)

/-- The partial sum it samples along with a valid bit. -/
theorem Streaming.psumChain (ht : n = t + r.val + c.val) (hv : vs.valid t r = true) :
    Row.psumChain ((inp n).psumIn r) (a r) c.castSucc = vs.partialPsum weights t r c.val := by
  refine chain_castSucc_of c (fun hc => ?_) (fun d hd => ?_)
  · rw [show n = t + r.val by omega, hc]
    exact hin.seed t r
  · rw [← hd]
    exact h.psum r d t (by omega) hv

end Step

/-- One edge moves every vector by one element. -/
theorem Streaming.step (h : Streaming weights vs n a) (hin : Skewed vs inp) :
    Streaming weights vs (n + 1) (Array.step ⟨true, false, false⟩ (inp n) a) where
  weightQ r c := by rw [step_compute]; exact h.weightQ r c
  act r c t ht := by
    rw [step_compute]
    exact h.actChain hin r c t (by omega)
  valid r c t ht := by
    rw [step_compute]
    exact h.validChain hin r c t (by omega)
  psum r c t ht hv := by
    have ht' : n = t + r.val + c.val := by omega
    rw [step_compute]
    simp only [h.validChain hin r c t ht', hv, if_true, h.psumChain hin r c t ht' hv,
      h.actChain hin r c t ht', h.weightQ, Vectors.partialPsum, dif_pos c.isLt]
  before r c hn := by
    rw [step_compute]
    exact h.validChain_before hin r c (by omega)

theorem streaming_streamAt (h : ∀ r c, a r c = Pe.drained (weights r c))
    (hin : Skewed vs inp) (n : Nat) :
    Streaming weights vs n (streamAt a inp n) :=
  Machine.trace_phase (P := Streaming weights vs) (Streaming.start h) fun _ _ _ hk => hk.step hin

/-- What row `r` gives in a cycle, if anything. -/
def given (a : Array rows cols actWidth psumWidth)
    (inp : Nat → ArrayIn rows cols actWidth psumWidth) (r : Fin rows)
    (n : Nat) : Option (BitVec psumWidth) :=
  if validOut (inp n) (streamAt a inp n) r then
    some (psumOut (inp n) (streamAt a inp n) r) else none

/-- For every stream of vectors through an array into which any weights were shifted: row `r`
    has in cycle `t + r + cols` the valid bit of vector `t` and, if it is high, the seed of that
    vector plus its own signed sum; before cycle `r + cols` it has nothing; and what it gives
    is one result for each of its valid vectors, in order. -/
theorem array_streaming (hcols : 0 < cols) (hload : Shifted weights load) (hin : Skewed vs inp)
    (r : Fin rows) :
    (∀ t, validOut (inp (t + r + cols)) (streamAt (loadAt a load cols) inp (t + r + cols))
      r = vs.valid t r) ∧
    (∀ t, vs.valid t r = true →
      psumOut (inp (t + r + cols)) (streamAt (loadAt a load cols) inp (t + r + cols)) r =
        vs.result weights t r) ∧
    (∀ n, n < r + cols → validOut (inp n) (streamAt (loadAt a load cols) inp n) r = false) ∧
    ∀ n, (List.range (n + (r + cols))).filterMap (given (loadAt a load cols) inp r) =
      (List.range n).filterMap fun t => if vs.valid t r then
        some (vs.result weights t r) else none := by
  have hstream := streaming_streamAt (a := loadAt a load cols) (loadAt_cols hload) hin
  have hvalid : ∀ t,
      validOut (inp (t + r + cols)) (streamAt (loadAt a load cols) inp (t + r + cols)) r =
      vs.valid t r := by
    intro t
    rw [validOut_eq hcols]
    exact (hstream _).valid r _ t (by simp only; omega)
  have hpsum : ∀ t, vs.valid t r = true →
      psumOut (inp (t + r + cols)) (streamAt (loadAt a load cols) inp (t + r + cols)) r =
        vs.result weights t r := by
    intro t hv
    rw [psumOut_eq hcols, (hstream _).psum r _ t (by simp only; omega) hv, ← vs.partialPsum_cols]
    congr 1
    simp only
    omega
  have hbefore : ∀ n, n < r + cols →
      validOut (inp n) (streamAt (loadAt a load cols) inp n) r = false := by
    intro n hn
    rw [validOut_eq hcols]
    exact (hstream n).before r _ (by simp only; omega)
  refine ⟨hvalid, hpsum, hbefore, Machine.collect_delayed (fun n hn => ?_) (fun t => ?_)⟩
  · rw [given, hbefore n hn, if_neg Bool.false_ne_true]
  · rw [given, ← Nat.add_assoc, hvalid t]
    split
    · rename_i hv
      rw [hpsum t hv]
    · rfl

/-- The weights `+ -` in the first row and `+ +` in the second. -/
def signs (r c : Fin 2) : Bool := r = 1 || c = 0

/-- Two vectors back to back and, after a gap, a third one; the second only for the second row. -/
def threeVectors : Vectors 2 2 8 16 where
  acts t c := if t = 1 then -128#8 else BitVec.ofNat 8 (10 * t + c.val + 1)
  valid t r := t = 0 || t = 1 && r = 1 || t = 3
  seeds t _ := if t = 1 then -32768#16 else 100#16

theorem array_streaming_three :
    (List.range (4 + (0 + 2))).filterMap
      (given (loadAt (fun _ _ => ⟨true, 7, 7, true⟩) (shiftIn signs) 2) (skew threeVectors) 0) =
      [99#16, 99#16] ∧
    (List.range (4 + (1 + 2))).filterMap
      (given (loadAt (fun _ _ => ⟨true, 7, 7, true⟩) (shiftIn signs) 2) (skew threeVectors) 1) =
      [103#16, 32512#16, 163#16] := by
  have hrow := fun r =>
    (array_streaming (a := fun _ _ => ⟨true, 7, 7, true⟩) (by decide) (shifted_shiftIn signs)
    (skewed_skew threeVectors) r).2.2.2 4
  refine ⟨(hrow 0).trans ?_, (hrow 1).trans ?_⟩
  · decide
  · decide

end Array

end W1a8
