-- SUMMARY: The values that the attention kernel computes, over the reals: its online softmax is the softmax of the scores (`kernels/ps/native.c`).
import Mathlib.Analysis.SpecialFunctions.Log.Basic
import BonsaiTpu.Base.Indices
import BonsaiTpu.Base.Softmax
import BonsaiTpu.Ps.FlashAttn

/-!
# Attention: values

`bonsai_flash_attn_ext_f32` with its float operations read as exact operations on
reals, extended by minus infinity where the running maximum starts and where the mask
excludes a position. The loop over positions takes them in an order that is a
parameter; the kernel counts up.
-/

namespace Ps

open Softmax

/-- What the buffers hold at byte offsets from their pointers, and the scale. -/
structure FlashValues where
  q : Nat → ℝ
  k : Nat → ℝ
  v : Nat → ℝ
  mask : Nat → EReal
  scale : ℝ

/-! ## The kernel -/

/-- `bonsai_dot_q_kf16` without NEON. -/
noncomputable def dotScalar (q k : Nat → ℝ) (n : Nat) : ℝ :=
  (List.range n).foldl (fun s d => s + q d * k d) 0

/-- `bonsai_dot_q_kf16` with NEON: four lanes, added up pairwise, and the rest one by one. -/
noncomputable def dotNeon (q k : Nat → ℝ) (n : Nat) : ℝ :=
  let acc := (List.range (n / 4)).foldl
    (fun (acc : Fin 4 → ℝ) b lane => acc lane + q (4 * b + lane) * k (4 * b + lane)) 0
  let s := acc 0 + acc 2 + (acc 1 + acc 3)
  (List.range' (4 * (n / 4)) (n % 4)).foldl (fun s d => s + q d * k d) s

/-- The accumulators of a head. -/
structure Accumulators (n : Nat) where
  M : EReal
  S : ℝ
  VKQ : Fin n → ℝ

section Kernel

variable (neon : Bool) (call : FlashCall) (vals : FlashValues)

noncomputable def dotQKf16 (q k : Nat → ℝ) (n : Nat) : ℝ :=
  if neon then dotNeon q k n else dotScalar q k n

def qRow (iq1 iq2 d : Nat) : ℝ := vals.q (cSize (iq1 * call.qNb1 + iq2 * call.qNb2) + 4 * d)

def kRow (ic ik2 d : Nat) : ℝ := vals.k (cSize (ic * call.kNb1 + ik2 * call.kNb2) + 2 * d)

def vRow (ic ik2 d : Nat) : ℝ := vals.v (cSize (ic * call.vNb1 + ik2 * call.vNb2) + 2 * d)

/-- The mask of a position: zero without a mask. -/
noncomputable def maskValue (iq1 ic : Nat) : EReal :=
  if call.mask.isSome then vals.mask (cSize (iq1 * call.maskNb1 + 2 * ic)) else 0

/-- The head of the cache of a head of `q`. -/
def headKv (iq2 : Nat) : Nat := iq2 / (cUint32 call.nHead / cUint32 call.nHeadKv)

/-- An iteration of the loop over positions. -/
noncomputable def attendStep (iq1 iq2 : Nat)
    (st : Accumulators (cUint32 call.headDimV)) (ic : Nat) :
    Accumulators (cUint32 call.headDimV) :=
  let mv := maskValue call vals iq1 ic
  -- a mask of minus infinity skips the position
  if mv = ⊥ then st
  else
    let dot := dotQKf16 neon (qRow call vals iq1 iq2) (kRow call vals ic (headKv call iq2))
      (cUint32 call.headDimQ)
    let s : EReal := ((dot * vals.scale : ℝ) : EReal) + mv
    if s > st.M then
      let ms := expE (st.M - s)
      ⟨s, st.S * ms + 1, fun d => st.VKQ d * ms + 1 * vRow call vals ic (headKv call iq2) d⟩
    else
      let vs := expE (s - st.M)
      ⟨st.M, st.S * 1 + vs, fun d => st.VKQ d + vs * vRow call vals ic (headKv call iq2) d⟩

/-- The values written for a token and a head. -/
noncomputable def flashHead (order : List Nat) (iq1 iq2 : Nat)
    (d : Fin (cUint32 call.headDimV)) : ℝ :=
  let st := order.foldl (attendStep neon call vals iq1 iq2) ⟨⊥, 0, 0⟩
  let sInv := if st.S = 0 then 0 else 1 / st.S
  st.VKQ d * sInv

/-- The stores of the loops over tokens, heads and the dimensions of a row, for the values of a
    token and a head. -/
def flashStores (value : Nat → Nat → Fin (cUint32 call.headDimV) → ℝ) : List (Nat × ℝ) :=
  (List.range (cUint32 call.nToken)).flatMap fun (iq1 : Nat) =>
    (List.range (cUint32 call.nHead)).flatMap fun (iq2 : Nat) =>
      (List.finRange (cUint32 call.headDimV)).map fun (d : Fin (cUint32 call.headDimV)) =>
        (cSize (iq2 * call.dstNb1 + iq1 * call.dstNb2) + 4 * d, value iq1 iq2 d)

/-- The return code and the stores to `dst`, with the positions visited in `order`. -/
noncomputable def flashAttnInOrder (order : List Nat) : Int × List (Nat × ℝ) :=
  if call.rc = 0 then (0, flashStores call (flashHead neon call vals order)) else (call.rc, [])

/-- `bonsai_flash_attn_ext_f32`. -/
noncomputable def flashAttn : Int × List (Nat × ℝ) :=
  flashAttnInOrder neon call vals (List.range (cUint32 call.nKv))

end Kernel

/-! ## The dot product -/

section Dot

variable (q k : Nat → ℝ)

theorem foldl_range' (s : ℝ) (a n : Nat) :
    (List.range' a n).foldl (fun s d => s + q d * k d) s = s + ∑ i ∈ Finset.range n,
      q (a + i) * k (a + i) := by
  induction n generalizing s a with
  | zero => simp
  | succ n ih =>
    have hindex : ∀ i, a + 1 + i = a + (i + 1) := fun i => by omega
    rw [List.range'_succ, List.foldl_cons, ih, Finset.sum_range_succ']
    simp only [hindex, Nat.add_zero]
    rw [add_assoc, add_comm (q a * k a)]

theorem dotScalar_eq (n : Nat) : dotScalar q k n = ∑ d ∈ Finset.range n, q d * k d := by
  rw [dotScalar, List.range_eq_range', foldl_range', zero_add]
  simp only [Nat.zero_add]

/-- The lanes after `blocks` blocks add up to the products so far. -/
theorem dotNeon_lanes (blocks : Nat) :
    let acc := (List.range blocks).foldl
      (fun (acc : Fin 4 → ℝ) b lane => acc lane + q (4 * b + lane) * k (4 * b + lane)) 0
    acc 0 + acc 2 + (acc 1 + acc 3) = ∑ d ∈ Finset.range (4 * blocks), q d * k d := by
  induction blocks with
  | zero => simp
  | succ blocks ih =>
    simp only [List.range_succ, List.foldl_append, List.foldl_cons, List.foldl_nil] at ih ⊢
    rw [Nat.mul_succ, Finset.sum_range_add, ← ih]
    have hthree : ((3 : Fin 4) : Nat) = 3 := rfl
    simp only [Finset.sum_range_succ, Finset.sum_range_zero, Fin.val_zero, Fin.val_one,
      Fin.val_two, hthree]
    ring

theorem dotNeon_eq (n : Nat) : dotNeon q k n = ∑ d ∈ Finset.range n, q d * k d := by
  have hsplit : n = 4 * (n / 4) + n % 4 := (Nat.div_add_mod n 4).symm
  have hlanes := dotNeon_lanes q k (n / 4)
  simp only [dotNeon] at hlanes ⊢
  rw [hlanes, foldl_range', ← Finset.sum_range_add, ← hsplit]

theorem dotQKf16_eq (neon : Bool) (n : Nat) :
    dotQKf16 neon q k n = ∑ d ∈ Finset.range n, q d * k d := by
  cases neon with
  | false => exact dotScalar_eq q k n
  | true => exact dotNeon_eq q k n

end Dot

/-! ## Attention -/

section Attention

variable (call : FlashCall) (vals : FlashValues)

/-- The mask's entry for a token and a position, two bytes each, or zero without a mask. -/
noncomputable def maskEntry (iq1 ic : Nat) : EReal :=
  call.mask.elim 0 fun _ => vals.mask (cSize (iq1 * call.maskNb1 + 2 * ic))

/-- Softmax attention of a token and a head: the elements at their strides, the head of the cache
    shared by `n_head / n_head_kv` heads, and the softmax over the positions not masked. -/
noncomputable def attention (iq1 iq2 d : Nat) : ℝ :=
  let ik2 := iq2 / (cUint32 call.nHead / cUint32 call.nHeadKv)
  let positions := (Finset.range (cUint32 call.nKv)).filter fun ic => maskEntry call vals iq1 ic ≠ ⊥
  let score := fun (ic : Nat) =>
    vals.scale * ∑ e ∈ Finset.range (cUint32 call.headDimQ),
      vals.q (cSize (iq1 * call.qNb1 + iq2 * call.qNb2) + 4 * e) *
        vals.k (cSize (ic * call.kNb1 + ik2 * call.kNb2) + 2 * e) +
      (maskEntry call vals iq1 ic).toReal
  ∑ ic ∈ positions, Real.exp (score ic) / (∑ jc ∈ positions, Real.exp (score jc)) *
    vals.v (cSize (ic * call.vNb1 + ik2 * call.vNb2) + 2 * d)

/-- Attention as it is to be stored: token by token, in it head by head, at the strides of `dst`. -/
noncomputable def attentionStores : List (Nat × ℝ) :=
  (List.range (cUint32 call.nToken)).flatMap fun (iq1 : Nat) =>
    (List.range (cUint32 call.nHead)).flatMap fun (iq2 : Nat) =>
      (List.range (cUint32 call.headDimV)).map fun (d : Nat) =>
        (cSize (iq2 * call.dstNb1 + iq1 * call.dstNb2) + 4 * d, attention call vals iq1 iq2 d)

end Attention

/-! ## The loop over positions -/

section Scores

variable (call : FlashCall) (vals : FlashValues)

/-- The positions that the mask leaves. -/
noncomputable def unmasked (iq1 : Nat) : Finset Nat :=
  (Finset.range (cUint32 call.nKv)).filter fun ic => maskValue call vals iq1 ic ≠ ⊥

/-- The scaled and masked score of a position. -/
noncomputable def score (iq1 iq2 ic : Nat) : ℝ :=
  vals.scale * ∑ d ∈ Finset.range (cUint32 call.headDimQ),
    qRow call vals iq1 iq2 d * kRow call vals ic (headKv call iq2) d +
      (maskValue call vals iq1 ic).toReal

/-- The row of `v` of a position. -/
def vVector (iq2 ic : Nat) (d : Fin (cUint32 call.headDimV)) : ℝ :=
  vRow call vals ic (headKv call iq2) d

theorem maskValue_eq (iq1 ic : Nat) : maskValue call vals iq1 ic = maskEntry call vals iq1 ic := by
  unfold maskValue maskEntry
  cases call.mask with
  | none => rfl
  | some o => rfl

/-- Attention is the softmax mean of the rows that the loop reads. -/
theorem attention_eq_mean (iq1 iq2 : Nat) (d : Fin (cUint32 call.headDimV)) :
    attention call vals iq1 iq2 d =
      mean (unmasked call vals iq1) (score call vals iq1 iq2) (vVector call vals iq2) d := by
  unfold attention mean unmasked score vVector weight qRow kRow vRow headKv
  simp only [maskValue_eq, Finset.sum_apply, Pi.smul_apply, smul_eq_mul]

end Scores

section Run

variable {neon : Bool} {call : FlashCall} {vals : FlashValues} {iq1 iq2 : Nat}

/-- What the accumulators hold after the positions `seen`. -/
def Seen (call : FlashCall) (vals : FlashValues) (iq1 iq2 : Nat) (seen : List Nat)
    (st : Accumulators (cUint32 call.headDimV)) :
    Prop :=
  Online (score call vals iq1 iq2) (vVector call vals iq2)
    (seen.filter fun ic => maskValue call vals iq1 ic ≠ ⊥) st.M st.S st.VKQ

/-- A position that the mask leaves raises the maximum or is weighed relative to it. -/
theorem attendStep_of_unmasked {ic : Nat} (hbot : maskValue call vals iq1 ic ≠ ⊥)
    (htop : maskValue call vals iq1 ic ≠ ⊤) (st : Accumulators (cUint32 call.headDimV)) :
    attendStep neon call vals iq1 iq2 st ic =
      if (score call vals iq1 iq2 ic : EReal) > st.M then
        ⟨score call vals iq1 iq2 ic, st.S * expE (st.M - score call vals iq1 iq2 ic) + 1,
          expE (st.M - score call vals iq1 iq2 ic) • st.VKQ + (1 : ℝ) • vVector call vals iq2 ic⟩
      else
        ⟨st.M, st.S + expE (score call vals iq1 iq2 ic - st.M),
          st.VKQ + expE (score call vals iq1 iq2 ic - st.M) • vVector call vals iq2 ic⟩ := by
  have hs :
      ((dotQKf16 neon (qRow call vals iq1 iq2) (kRow call vals ic (headKv call iq2))
        (cUint32 call.headDimQ) *
      vals.scale : ℝ) : EReal) + maskValue call vals iq1 ic = (score call vals iq1 iq2 ic : ℝ) := by
    rw [score, EReal.coe_add, EReal.coe_toReal htop hbot, dotQKf16_eq, mul_comm]
  simp only [attendStep, if_neg hbot, hs, mul_one]
  split_ifs with hgt
  · congr 1
    funext d
    simp only [Pi.add_apply, Pi.smul_apply, smul_eq_mul, mul_comm, vVector]
  · rfl

theorem attendStep_seen {seen : List Nat} {st : Accumulators (cUint32 call.headDimV)}
    (h : Seen call vals iq1 iq2 seen st) {ic : Nat} (htop : maskValue call vals iq1 ic ≠ ⊤) :
    Seen call vals iq1 iq2 (seen ++ [ic]) (attendStep neon call vals iq1 iq2 st ic) := by
  unfold Seen at h ⊢
  rw [List.filter_append]
  by_cases hbot : maskValue call vals iq1 ic = ⊥
  · have hskip : attendStep neon call vals iq1 iq2 st ic = st := by rw [attendStep, if_pos hbot]
    have hnone : [ic].filter (fun ic => maskValue call vals iq1 ic ≠ ⊥) = [] := by simp [hbot]
    rw [hskip, hnone, List.append_nil]
    exact h
  · have hkeep : [ic].filter (fun ic => maskValue call vals iq1 ic ≠ ⊥) = [ic] := by simp [hbot]
    rw [hkeep, attendStep_of_unmasked hbot htop]
    split_ifs with hgt
    · exact h.raise ic
    · exact h.keep (not_lt.mp hgt)

/-- The loop over positions. -/
theorem attend_seen {order : List Nat} (htop : ∀ ic ∈ order, maskValue call vals iq1 ic ≠ ⊤) :
    Seen call vals iq1 iq2 order (order.foldl (attendStep neon call vals iq1 iq2) ⟨⊥, 0, 0⟩) := by
  induction order using List.reverseRecOn with
  | nil => exact Online.nil
  | append_singleton seen ic ih =>
    rw [List.foldl_append, List.foldl_cons, List.foldl_nil]
    exact attendStep_seen (ih fun ic hic => htop ic (List.mem_append_left _ hic))
      (htop ic (by simp))

/-- Whatever the order of the positions, the value written is softmax attention. -/
theorem flashHead_eq (htop : ∀ ic < cUint32 call.nKv, maskValue call vals iq1 ic ≠ ⊤)
    {order : List Nat}
    (horder : order.Perm (List.range (cUint32 call.nKv))) (d : Fin (cUint32 call.headDimV)) :
    flashHead neon call vals order iq1 iq2 d = attention call vals iq1 iq2 d := by
  have hnodup : (order.filter fun ic => maskValue call vals iq1 ic ≠ ⊥).Nodup :=
    (horder.nodup_iff.mpr List.nodup_range).filter _
  have hpositions :
      (order.filter fun ic => maskValue call vals iq1 ic ≠ ⊥).toFinset =
        unmasked call vals iq1 := by
    ext ic
    simp [unmasked, horder.mem_iff]
  have hread : ∀ ic ∈ order, maskValue call vals iq1 ic ≠ ⊤ :=
    fun ic hic => htop ic (List.mem_range.mp (horder.mem_iff.mp hic))
  have hseen : Seen call vals iq1 iq2 order
      (order.foldl (attendStep neon call vals iq1 iq2) ⟨⊥, 0, 0⟩) := attend_seen hread
  have hresult := hseen.result hnodup
  rw [hpositions] at hresult
  have hvalue := congrFun hresult d
  simp only [Pi.smul_apply, smul_eq_mul] at hvalue
  rw [attention_eq_mean, flashHead, mul_comm]
  exact hvalue

/-- The loops store what `attentionStores` lists. -/
theorem flashStores_eq
    (htop : ∀ iq1 < cUint32 call.nToken, ∀ ic < cUint32 call.nKv, maskValue call vals iq1 ic ≠ ⊤)
    {order : List Nat} (horder : order.Perm (List.range (cUint32 call.nKv))) :
    flashStores call (flashHead neon call vals order) = attentionStores call vals := by
  refine List.flatMap_congr fun iq1 hiq1 => List.flatMap_congr fun iq2 _ => ?_
  rw [← List.map_coe_finRange_eq_range, List.map_map]
  refine List.map_congr_left fun d _ => ?_
  rw [flashHead_eq (htop iq1 (List.mem_range.mp hiq1)) horder]
  rfl

end Run

/-- Without a position there is nothing to weigh. -/
theorem attention_masked {call : FlashCall} {vals : FlashValues} {iq1 : Nat}
    (hall : ∀ ic < cUint32 call.nKv, maskEntry call vals iq1 ic = ⊥) (iq2 d : Nat) :
    attention call vals iq1 iq2 d = 0 := by
  have hempty : (Finset.range (cUint32 call.nKv)).filter
      (fun ic => maskEntry call vals iq1 ic ≠ ⊥) = ∅ :=
    Finset.filter_eq_empty_iff.mpr fun ic hic => not_not_intro (hall ic (Finset.mem_range.mp hic))
  rw [attention, hempty]
  exact Finset.sum_empty

theorem mem_attentionStores {call : FlashCall} {vals : FlashValues} {iq1 iq2 d : Nat}
    (h1 : iq1 < cUint32 call.nToken)
    (h2 : iq2 < cUint32 call.nHead) (hd : d < cUint32 call.headDimV) :
    (cSize (iq2 * call.dstNb1 + iq1 * call.dstNb2) + 4 * d, attention call vals iq1 iq2 d) ∈
      attentionStores call vals :=
  List.mem_flatMap.mpr ⟨iq1, List.mem_range.mpr h1,
    List.mem_flatMap.mpr ⟨iq2, List.mem_range.mpr h2,
    List.mem_map.mpr ⟨d, List.mem_range.mpr hd, rfl⟩⟩⟩

/-- The kernel stores, in whatever order it visits the positions, the softmax attention of each
    token and head at its place in `dst` and nothing else; the head of the cache that a head is
    mapped to exists; and zeros are stored for a token whose positions are all masked. -/
theorem online_softmax (neon : Bool) {call : FlashCall} (hrc : call.rc = 0) {vals : FlashValues}
    (hmask : ∀ iq1 < cUint32 call.nToken, ∀ ic < cUint32 call.nKv, maskEntry call vals iq1 ic ≠ ⊤) :
    flashAttn neon call vals = (0, attentionStores call vals) ∧
      (∀ order, order.Perm (List.range (cUint32 call.nKv)) →
        flashAttnInOrder neon call vals order = (0, attentionStores call vals)) ∧
      (∀ iq2 < cUint32 call.nHead,
        iq2 / (cUint32 call.nHead / cUint32 call.nHeadKv) < cUint32 call.nHeadKv) ∧
      ∀ iq1 < cUint32 call.nToken, (∀ ic < cUint32 call.nKv, maskEntry call vals iq1 ic = ⊥) →
        ∀ iq2 < cUint32 call.nHead, ∀ d < cUint32 call.headDimV,
          (cSize (iq2 * call.dstNb1 + iq1 * call.dstNb2) + 4 * d, 0) ∈
            (flashAttn neon call vals).2 := by
  have htop : ∀ iq1 < cUint32 call.nToken, ∀ ic < cUint32 call.nKv,
      maskValue call vals iq1 ic ≠ ⊤ := by
    intro iq1 hiq1 ic hic
    rw [maskValue_eq]
    exact hmask iq1 hiq1 ic hic
  have hkernel : ∀ order, order.Perm (List.range (cUint32 call.nKv)) →
      flashAttnInOrder neon call vals order = (0, attentionStores call vals) := by
    intro order horder
    rw [flashAttnInOrder, if_pos hrc, flashStores_eq htop horder]
  have hcounting : flashAttn neon call vals = (0, attentionStores call vals) :=
    hkernel _ (List.Perm.refl _)
  obtain ⟨-, -, -, -, -, -, hdvd⟩ := FlashCall.rc_eq_zero hrc
  refine ⟨hcounting, hkernel, fun iq2 h => headKv_lt hdvd h, fun iq1 hiq1 hall iq2 hiq2 d hd => ?_⟩
  rw [hcounting, ← attention_masked hall iq2 d]
  exact mem_attentionStores hiq1 hiq2 hd

/-- Two heads over one head of the cache, with the second of three positions masked for the first
    token and all of them for the second. Doubling scores give the weights 1/3 and 2/3. -/
theorem online_softmax_two_heads :
    ∃ (call : FlashCall) (vals : FlashValues),
      call.rc = 0 ∧ call.nHead = 2 ∧ call.nHeadKv = 1 ∧ call.nKv = 3 ∧
      maskEntry call vals 0 1 = ⊥ ∧ flashAttn true call vals =
        (0, [(0, 2), (4, 8 / 3), (8, 0), (12, 0)]) := by
  let call : FlashCall :=
    ⟨⟨1, 0, 16⟩, ⟨2, 0, 6⟩, ⟨3, 0, 6⟩, some ⟨4, 0, 12⟩, ⟨5, 0, 16⟩, 8, 4, 2, 6, 2, 6, 6, 4, 8, 1, 1,
      2, 1, 3, 2, 0x3F800000⟩
  let vals : FlashValues := ⟨fun offset => offset / 4, fun offset => offset / 4,
    fun offset => offset, fun offset => if offset = 0 ∨ offset = 4 then 0 else ⊥, Real.log 2⟩
  have hrc : call.rc = 0 := by decide
  have hmask : ∀ iq1 < cUint32 call.nToken, ∀ ic < cUint32 call.nKv,
      maskEntry call vals iq1 ic ≠ ⊤ := by
    intro iq1 _ ic _
    simp only [maskEntry, call, vals, Option.elim_some]
    split_ifs <;> simp
  have hskip : maskEntry call vals 0 1 = ⊥ := by simp [maskEntry, call, vals, cSize]
  have hmasked : ∀ ic < cUint32 call.nKv, maskEntry call vals 1 ic = ⊥ := by
    intro ic hic
    have hlt : ic < 3 := hic
    obtain rfl | rfl | rfl : ic = 0 ∨ ic = 1 ∨ ic = 2 := by omega
    all_goals simp [maskEntry, call, vals, cSize]
  have hpositions :
      (Finset.range (cUint32 call.nKv)).filter
        (fun ic => maskEntry call vals 0 ic ≠ ⊥) = {0, 2} := by
    ext ic
    have hkv : cUint32 call.nKv = 3 := rfl
    simp only [Finset.mem_filter, Finset.mem_range, Finset.mem_insert, Finset.mem_singleton, hkv]
    refine ⟨fun ⟨hlt, hne⟩ => ?_, ?_⟩
    · by_cases hone : ic = 1
      · exact absurd (hone ▸ hskip) hne
      · omega
    · rintro (rfl | rfl) <;> simp [maskEntry, call, vals, cSize]
  have hfour : Int.toNat 4 = 4 := rfl
  have hfirst : attention call vals 0 0 0 = 2 := by
    simp only [attention, hpositions]
    simp only [maskEntry, call, vals, cSize, cUint32, Option.elim_some]
    norm_num [hfour]
  have hsecond : attention call vals 0 1 0 = 8 / 3 := by
    simp only [attention, hpositions]
    simp only [maskEntry, call, vals, cSize, cUint32, Option.elim_some]
    norm_num [hfour, Real.exp_log two_pos]
  refine ⟨call, vals, hrc, rfl, rfl, rfl, hskip, ?_⟩
  rw [(online_softmax true hrc hmask).1]
  have hstores : attentionStores call vals =
      [(0, attention call vals 0 0 0), (4, attention call vals 0 1 0),
        (8, attention call vals 1 0 0), (12, attention call vals 1 1 0)] := rfl
  rw [hstores, hfirst, hsecond, attention_masked hmasked, attention_masked hmasked]

end Ps
