-- SUMMARY: The fused ops of a split against the unfused ones: both leave the same bytes in every tensor that is read afterwards, if each norm can be fused.
import BonsaiTpu.Backend.Liveness

/-!
# Fused graphs

The two op lists are run side by side, node by node. In between, memory differs only in
the ranges of norms that were left out (`Stale`), and while a product is still to come
its norm, where it was computed, is the norm of the input where it was not (`Sim`).
`fusion_preserves` follows by induction over the nodes.
-/

namespace Backend

open Ps (Op Loc Mem F32Ops Operand)

section

variable {h : Heap} {nodes : List TensorId} {kept : TensorId → Prop}

/-! ## Pairs -/

theorem isAbsorbed_iff {r : TensorId} :
    isAbsorbed h nodes r = true ↔ ∃ mul ∈ nodes, mulToRms h nodes mul = some r := by
  simp [isAbsorbed]

/-- What a pair that is fused is checked for. -/
structure Pair (h : Heap) (mul rms weight x : TensorId) : Prop where
  compute : (h mul).flagCompute = true
  mulOp : (h mul).op = .mul
  rmsOp : (h rms).op = .rmsNorm
  mulSrc : (h mul).src 0 = some rms
  weightSrc : (h mul).src 1 = some weight
  rmsSrc : (h rms).src 0 = some x
  mulShape : sameShape (h mul).toTensor (h rms).toTensor = true
  broadcast : isRowBroadcastFor (h weight).toTensor (h mul).toTensor = true

theorem mulToRms_pair {mul rms : TensorId} (hm : mulToRms h nodes mul = some rms) :
    ∃ weight x, Pair h mul rms weight x := by
  simp only [mulToRms, fusedRmsFor, Option.ite_none_right_eq_some, Option.ite_none_left_eq_some]
    at hm
  obtain ⟨hcompute, hmul, hm⟩ := hm
  split at hm
  · next rms' weight hsrc hweight =>
    simp only [Option.ite_none_left_eq_some] at hm
    obtain ⟨hrms, -, -, -, hm⟩ := hm
    split at hm
    · next x hx =>
      simp only [Option.ite_none_left_eq_some] at hm
      obtain ⟨-, hshape, hrow, hm⟩ := hm
      cases hm
      exact ⟨weight, x, hcompute, not_not.mp hmul, not_not.mp hrms, hsrc, hweight, hx,
        (not_not.mp hshape).1, not_not.mp hrow⟩
    · cases hm
  · cases hm

theorem Pair.executes {mul rms weight x : TensorId} (p : Pair h mul rms weight x) :
    Backend.executes h mul = true := by
  simp [Backend.executes, p.compute, p.mulOp, isMetadataOp]

/-- A product is not absorbed itself. -/
theorem Pair.not_absorbed {mul rms weight x : TensorId} (p : Pair h mul rms weight x) :
    isAbsorbed h nodes mul = false := by
  by_contra habsorbed
  obtain ⟨mul', -, hm⟩ := isAbsorbed_iff.mp (Bool.not_eq_false _ ▸ habsorbed)
  obtain ⟨weight', x', p'⟩ := mulToRms_pair hm
  have hop := p'.rmsOp
  rw [p.mulOp] at hop
  cases hop

/-! ## Stale bytes -/

variable (h nodes) in
/-- A byte of a norm that was left out, which no op has replaced since. -/
def Stale (n : Nat) (b : Loc) : Prop :=
  ∃ r ∈ nodes, isAbsorbed h nodes r = true ∧ pos nodes r < n ∧ h.Range r b ∧
    ∀ k ∈ nodes, executes h k = true → isAbsorbed h nodes k = false → pos nodes r < pos nodes k →
      pos nodes k < n →
      ¬ h.Range (h.target k) b

theorem pos_inj {t u : TensorId} (ht : t ∈ nodes) (heq : pos nodes t = pos nodes u) : t = u :=
  (List.idxOf_inj ht).mp heq

variable (hplaced : Placed h nodes kept)
  (hfusable : ∀ mul ∈ nodes, ∀ rms, mulToRms h nodes mul = some rms → Fusable h nodes kept mul rms)

include hfusable in
/-- The product has replaced what was left out, if it has the storage of the norm. -/
theorem not_stale_of_replaced {n : Nat} {b : Loc} {mul r r' : TensorId} (hmul : mul ∈ nodes)
    (hm : mulToRms h nodes mul = some r')
    (hle : pos nodes r ≤ pos nodes r') (hlt : pos nodes mul < n) (hroot : h.root mul = h.root r')
    (hb : h.Range r' b)
    (hnone : ∀ k ∈ nodes, executes h k = true → isAbsorbed h nodes k = false →
      pos nodes r < pos nodes k → pos nodes k < n →
      ¬ h.Range (h.target k) b) : False := by
  obtain ⟨weight, x, p⟩ := mulToRms_pair hm
  have hfus := hfusable mul hmul r' hm
  have htarget : h.target mul = mul := target_eq (by rw [p.mulOp]; decide)
  refine hnone mul hmul p.executes p.not_absorbed (Nat.lt_of_le_of_lt hle hfus.before) hlt ?_
  rw [htarget]
  exact hfus.replaced hroot b hb

include hplaced hfusable in
/-- A tensor that is there and is read from position `n` on has no stale byte; the product
    of a norm in its storage has replaced it. -/
theorem not_stale {n : Nat} {t : TensorId} (hthere : ThereAt h nodes n t)
    (hread : ReadFrom h nodes kept n t)
    (hsafe : ∀ mul ∈ nodes, ∀ r, mulToRms h nodes mul = some r → pos nodes r < n →
      h.root t = h.root r →
      pos nodes mul < n ∧ h.root mul = h.root r)
    {b : Loc} (hb : h.Range t b) : ¬ Stale h nodes n b := by
  rintro ⟨r, hr, habsorbed, hpos, hrb, hnone⟩
  obtain ⟨mul, hmul, hm⟩ := isAbsorbed_iff.mp habsorbed
  obtain ⟨weight, x, p⟩ := mulToRms_pair hm
  have hfus := hfusable mul hmul r hm
  have htarget : h.target r = r := target_eq (by rw [p.rmsOp]; decide)
  by_cases hroot : h.root t = h.root r
  · obtain ⟨hlt, hroot'⟩ := hsafe mul hmul r hm hpos hroot
    exact not_stale_of_replaced hfusable hmul hm (Nat.le_refl _) hlt hroot' hrb hnone
  · by_cases hold : ThereAt h nodes (pos nodes r) t
    · refine hplaced.live r hr hfus.executed t (by rwa [htarget]) hold ?_ b hb (by rwa [htarget])
      exact hread.imp_right fun ⟨j, hj, hex, hle, hreads⟩ => ⟨j, hj, hex, by omega, hreads⟩
    · -- The tensor was computed after the norm.
      simp only [ThereAt, Classical.not_imp] at hold
      obtain ⟨hcomputes, hnot⟩ := hold
      have hzlt := hthere hcomputes
      obtain ⟨hz, hzex, hztarget, -⟩ := hcomputes
      have hrz : pos nodes r < pos nodes (h.root t) := by
        refine Nat.lt_of_le_of_ne (Nat.not_lt.mp hnot) fun heq => hroot ?_
        rw [pos_inj hr heq, hplaced.flat]
      have hbz := hplaced.views t b hb
      cases hzabs : isAbsorbed h nodes (h.root t) with
      | false =>
        refine hnone _ hz hzex hzabs hrz hzlt ?_
        rwa [hztarget]
      | true =>
        obtain ⟨mul', hmul', hm'⟩ := isAbsorbed_iff.mp hzabs
        obtain ⟨hlt, hroot'⟩ := hsafe mul' hmul' _ hm' hzlt (hplaced.flat t).symm
        exact not_stale_of_replaced hfusable hmul' hm' hrz.le hlt hroot' hbz hnone

section Node

variable {k : TensorId} (hk : k ∈ nodes) (hex : executes h k = true)

include hplaced hfusable hk hex

/-- What a node reads is not stale, the norm of a fused product apart. -/
theorem reads_not_stale {t : TensorId} (hreads : h.Reads k t)
    (hweight : ∀ rms, mulToRms h nodes k = some rms → (h k).src 1 = some t) {b : Loc}
    (hb : h.Range t b) :
    ¬ Stale h nodes (pos nodes k) b := by
  refine not_stale hplaced hfusable (hplaced.order k hk hex t hreads)
    (Or.inr ⟨k, hk, hex, Nat.le_refl _, hreads⟩) ?_ hb
  intro mul hmul r hm hpos hroot
  rcases (hfusable mul hmul r hm).sole k hk hex hpos t hreads hroot with ⟨rfl, hne⟩ | hreplaced
  · exact absurd (hweight r hm) hne
  · exact hreplaced

/-- No node between a norm and its product writes over the norm. -/
theorem norm_kept {mul rms : TensorId} (hmul : mul ∈ nodes) (hm : mulToRms h nodes mul = some rms)
    (hafter : pos nodes rms < pos nodes k) (hbefore : pos nodes k < pos nodes mul) {b : Loc}
    (hb : h.Range rms b) :
    ¬ h.Range (h.target k) b := by
  have hfus := hfusable mul hmul rms hm
  obtain ⟨weight, x, p⟩ := mulToRms_pair hm
  have htarget : h.target rms = rms := target_eq (by rw [p.rmsOp]; decide)
  have hthere : ThereAt h nodes (pos nodes k) rms := by
    intro hcomputes
    by_cases howns : h.Owns rms
    · rwa [howns.2]
    · have hlt :=
        hplaced.order rms hfus.mem hfus.executed rms (Or.inr ⟨howns, htarget.symm⟩) hcomputes
      omega
  by_cases hroot : h.root rms = h.root (h.target k)
  · by_cases howns : h.Owns k
    · -- The node would compute the storage that the norm is in.
      rw [howns.1, howns.2] at hroot
      have hlt := hthere
      rw [ThereAt, hroot] at hlt
      exact absurd (hlt ⟨hk, hex, howns⟩) (Nat.lt_irrefl _)
    · rcases hfus.sole k hk hex hafter _ (Or.inr ⟨howns, rfl⟩) hroot.symm with ⟨rfl, -⟩ | ⟨hlt, -⟩
      · exact absurd hbefore (Nat.lt_irrefl _)
      · omega
  · exact hplaced.live k hk hex rms hroot hthere
      (Or.inr ⟨mul, hmul, p.executes, hbefore, Or.inl ⟨0, p.mulSrc⟩⟩) b hb

end Node

/-! ## Side by side -/

variable {F : F32Ops} {mapped : Operand → Bool} {other : Op → Mem → Option Mem}
    {blckSize : GgmlType → Int}

variable (h F) in
/-- The one memory has the norm of the input that the other has. -/
def Normed (rms : TensorId) (mU mF : Mem) : Prop :=
  ∃ x xB rB rows cols eps, RmsCall h rms x xB rB rows cols ∧
    jsonFloat ((h rms).params 0) = some eps ∧
    ∀ q < cols * rows, Ps.readF32 mU (rB.operand (f32Nbytes (rows * cols))) q =
      Ps.rmsValue F mF (xB.operand (f32Nbytes (rows * cols))) rows eps q

variable (h nodes F) in
/-- Memory without fusion, and with it, before position `n`. -/
structure Sim (n : Nat) (mU mF : Mem) : Prop where
  agree : ∀ b, ¬ Stale h nodes n b → mU b = mF b
  pending : ∀ mul ∈ nodes, ∀ rms, mulToRms h nodes mul = some rms → pos nodes rms < n →
    n ≤ pos nodes mul → Normed h F rms mU mF

/-- A norm in memory is not changed by writes elsewhere. -/
theorem Normed.congr {rms : TensorId} {mU mF mU' mF' : Mem} (hn : Normed h F rms mU mF)
    (hrms : ∀ b, h.Range rms b → mU' b = mU b)
    (hx : ∀ x, (h rms).src 0 = some x → ∀ b, h.Range x b → mF' b = mF b) :
    Normed h F rms mU' mF' := by
  obtain ⟨x, xB, rB, rows, cols, eps, call, heps, hread⟩ := hn
  refine ⟨x, xB, rB, rows, cols, eps, call, heps, fun q hq => ?_⟩
  have hr : Ps.readF32 mU' (rB.operand (f32Nbytes (rows * cols))) q =
      Ps.readF32 mU (rB.operand (f32Nbytes (rows * cols))) q :=
    Ps.readF32_same (fun b hb => hrms b ((call.dstDims.range _ b).mpr hb)) hq
  rw [hr, hread q hq]
  refine Ps.rmsValue_congr (fun p hp => ?_) hq
  exact (Ps.readF32_same (fun b hb => hx x call.src b ((call.srcDims.range _ b).mpr hb)) hp).symm

section Steps

variable {k : TensorId} {mU mF mU' mF' : Mem} (hs : Sim h nodes F (pos nodes k) mU mF)
    (hk : k ∈ nodes)

/-- What was stale stays so, unless an op at position `n` replaces it. -/
theorem Stale.succ {n : Nat} {b : Loc} (hstale : Stale h nodes n b)
    (hkeep : ∀ j ∈ nodes, executes h j = true → isAbsorbed h nodes j = false → pos nodes j = n →
      ¬ h.Range (h.target j) b) :
    Stale h nodes (n + 1) b := by
  obtain ⟨r, hr, habsorbed, hpos, hrb, hnone⟩ := hstale
  refine ⟨r, hr, habsorbed, by omega, hrb, fun j hj hex habs hlt hle => ?_⟩
  rcases Nat.lt_or_eq_of_le (Nat.le_of_lt_succ hle) with hlt' | heq
  · exact hnone j hj hex habs hlt hlt'
  · exact hkeep j hj hex habs heq

include hfusable hs hk

omit hk in
/-- A node that is not executed changes nothing. -/
theorem Sim.skip (hex : ¬ executes h k = true) : Sim h nodes F (pos nodes k + 1) mU mF := by
  constructor
  · intro b hb
    refine hs.agree b fun hstale => hb (hstale.succ fun j hj hjex _ heq => ?_)
    rw [pos_inj hj heq] at hjex
    exact absurd hjex hex
  · intro mul hmul rms hm hlt hle
    have hfus := hfusable mul hmul rms hm
    refine hs.pending mul hmul rms hm
      (Nat.lt_of_le_of_ne (Nat.le_of_lt_succ hlt) fun heq => hex ?_) (by omega)
    rw [← pos_inj hfus.mem heq]
    exact hfus.executed

include hplaced

/-- A norm that is left out. -/
theorem Sim.absorbed (hex : executes h k = true) (habsorbed : isAbsorbed h nodes k = true)
    (hout : ∀ b, ¬ h.Range k b → mU' b = mU b) (hnormed : Normed h F k mU' mF) :
    Sim h nodes F (pos nodes k + 1) mU' mF := by
  obtain ⟨mul₀, -, hm₀⟩ := isAbsorbed_iff.mp habsorbed
  obtain ⟨weight, x, p⟩ := mulToRms_pair hm₀
  have htarget : h.target k = k := target_eq (by rw [p.rmsOp]; decide)
  constructor
  · intro b hb
    have hnot : ¬ h.Range k b := by
      refine fun hrange =>
        hb ⟨k, hk, habsorbed, Nat.lt_succ_self _, hrange, fun j _ _ _ hlt hle => ?_⟩
      omega
    rw [hout b hnot]
    refine hs.agree b fun hstale => hb (hstale.succ fun j hj _ habs heq => ?_)
    rw [pos_inj hj heq, habsorbed] at habs
    cases habs
  · intro mul hmul rms hm hlt hle
    have hfus := hfusable mul hmul rms hm
    rcases Nat.lt_or_eq_of_le (Nat.le_of_lt_succ hlt) with hlt' | heq
    · refine (hs.pending mul hmul rms hm hlt' (by omega)).congr (fun b hb => hout b ?_)
        fun _ _ _ _ => rfl
      rw [← htarget]
      exact norm_kept hplaced hfusable hk hex hmul hm hlt' hle hb
    · rw [pos_inj hfus.mem heq]
      exact hnormed

/-- A node that both sides run. -/
theorem Sim.emitted (hex : executes h k = true) (hnot : isAbsorbed h nodes k = false)
    (hin : ∀ b, h.Range (h.target k) b → mU' b = mF' b)
    (hout : ∀ b, ¬ h.Range (h.target k) b → mU' b = mU b ∧ mF' b = mF b) :
    Sim h nodes F (pos nodes k + 1) mU' mF' := by
  constructor
  · intro b hb
    by_cases hrange : h.Range (h.target k) b
    · exact hin b hrange
    · rw [(hout b hrange).1, (hout b hrange).2]
      refine hs.agree b fun hstale => hb (hstale.succ fun j hj _ _ heq => ?_)
      rwa [pos_inj hj heq]
  · intro mul hmul rms hm hlt hle
    have hfus := hfusable mul hmul rms hm
    have hlt' : pos nodes rms < pos nodes k := by
      refine Nat.lt_of_le_of_ne (Nat.le_of_lt_succ hlt) fun heq => ?_
      have habsorbed : isAbsorbed h nodes k = true :=
        isAbsorbed_iff.mpr ⟨mul, hmul, by rw [hm, pos_inj hfus.mem heq]⟩
      rw [habsorbed] at hnot
      cases hnot
    refine (hs.pending mul hmul rms hm hlt' (by omega)).congr (fun b hb => ?_) fun x hx b hb => ?_
    · exact (hout b (norm_kept hplaced hfusable hk hex hmul hm hlt' hle hb)).1
    · exact (hout b (hfus.input x hx k hk hex hnot hlt' hle b hb)).2

end Steps

/-! ## Nodes -/

theorem Heap.Together.aligned {t u : TensorId} {tB uB : RemoteBinding} {rows cols : Nat}
    {nbytes nbytes' : Int}
    (htogether : h.Together t u) (dt : Dims h t tB rows cols) (du : Dims h u uB rows cols)
    (ht : (h t).toStrided.remote = some tB) (hu : (h u).toStrided.remote = some uB) :
    Ps.Aligned (tB.operand nbytes) (uB.operand nbytes') (cols * rows) := by
  rcases htogether with ⟨bt, bu, hbt, hbu, hhandle, hoffset⟩ | hapart
  · obtain rfl : tB = bt := Option.some.inj ((Strided.remote_eq_some ht).1.symm.trans hbt)
    obtain rfl : uB = bu := Option.some.inj ((Strided.remote_eq_some hu).1.symm.trans hbu)
    exact Or.inl ⟨hhandle, hoffset⟩
  · exact Or.inr fun b hb hb' => hapart b ((dt.range _ b).mpr hb) ((du.range _ b).mpr hb')

/-- Only products have a norm. -/
theorem mulToRms_of_rmsNorm {k : TensorId} (hop : (h k).op = .rmsNorm) :
    mulToRms h nodes k = none := by
  cases hm : mulToRms h nodes k with
  | none => rfl
  | some rms =>
    obtain ⟨weight, x, p⟩ := mulToRms_pair hm
    have hmul := p.mulOp
    rw [hop] at hmul
    cases hmul

variable (hsized : F32Sized h)
  (hothers : ∀ k ∈ nodes, executes h k = true → (h k).op ≠ .rmsNorm → (h k).op ≠ .mul → ∀ op,
    lowerNode blckSize (h.node k) = some op → Local h k (execOp F mapped other op))

section Run

variable {k : TensorId} {mU mF mU' : Mem} {op : Op} (hs : Sim h nodes F (pos nodes k) mU mF)
    (hk : k ∈ nodes)
  (hex : executes h k = true) (hl : lowerNode blckSize (h.node k) = some op)
    (hrun : execOp F mapped other op mU = some mU')

include hsized hothers hk hex hl in
theorem local_node : Local h k (execOp F mapped other op) := by
  by_cases hrms : (h k).op = .rmsNorm
  · exact local_rmsNorm hsized hrms hl
  · by_cases hmul : (h k).op = .mul
    · exact local_mul hsized hmul hl
    · exact hothers k hk hex hrms hmul op hl

include hplaced hfusable hsized hs hk hex hl hrun

theorem step_absorbed (habsorbed : isAbsorbed h nodes k = true) :
    Sim h nodes F (pos nodes k + 1) mU' mF := by
  obtain ⟨mul, hmul, hm⟩ := isAbsorbed_iff.mp habsorbed
  obtain ⟨weight, x₀, p⟩ := mulToRms_pair hm
  have hfus := hfusable mul hmul k hm
  obtain ⟨x, xB, kB, rows, cols, eps, call, heps, hexec⟩ := execOp_rmsNorm hsized p.rmsOp hl hrun
  obtain ⟨_, -, -, hout⟩ := local_rmsNorm hsized p.rmsOp hl mU mU mU' (fun _ _ _ _ => rfl) hrun
  rw [target_eq (by rw [p.rmsOp]; decide)] at hout
  refine hs.absorbed hplaced hfusable hk hex habsorbed (fun b hb => (hout b hb).1)
    ⟨x, xB, kB, rows, cols, eps, call, heps, fun q hq => ?_⟩
  obtain rfl : _ = mU' := Option.some.inj ((hexec mU).symm.trans hrun)
  rw [Ps.rmsNorm_read
    ((hfus.inPlace.2 x call.src).1.aligned call.srcDims call.dstDims call.srcB call.dstB) hq]
  refine Ps.rmsValue_congr (fun q hq => Ps.readF32_same (fun b hb => hs.agree b ?_) hq) hq
  refine reads_not_stale hplaced hfusable hk hex (Or.inl ⟨0, call.src⟩) (fun rms hrms => ?_)
    ((call.srcDims.range _ b).mpr hb)
  rw [mulToRms_of_rmsNorm p.rmsOp] at hrms
  cases hrms

include hothers in
theorem step_same (hnot : isAbsorbed h nodes k = false) (hnone : mulToRms h nodes k = none) :
    ∃ mF', execOp F mapped other op mF = some mF' ∧ Sim h nodes F (pos nodes k + 1) mU' mF' := by
  obtain ⟨mF', hrunF, hin, hout⟩ := local_node hsized hothers hk hex hl mU mF mU'
    (fun t hreads b hb => hs.agree b
    (reads_not_stale hplaced hfusable hk hex hreads
      (fun rms hm => by rw [hnone] at hm; cases hm) hb)) hrun
  exact ⟨mF', hrunF, hs.emitted hplaced hfusable hk hex hnot hin hout⟩

omit hplaced hfusable hsized hs hk hex hl hrun in
variable (F mapped other) in
/-- What the fused op runs. -/
theorem execOp_fused {rms weight x : TensorId} {xB cB kB : RemoteBinding} {rows cols : Nat}
    {eps : BitVec 32}
    (hsrc : (h rms).src 0 = some x) (hweight : (h k).src 1 = some weight)
    (hxB : (h x).toStrided.remote = some xB)
    (hcB : (h weight).toStrided.remote = some cB) (hkB : (h k).toStrided.remote = some kB)
    (hdims : Dims h k kB rows cols)
    (heps : jsonFloat ((h rms).params 0) = some eps) :
    ∃ opF, appendRmsNormMulOp h k rms = some opF ∧
      ∀ m, execOp F mapped other opF m =
        some (Ps.bonsaiRmsNormMulF32 F mapped (xB.operand (f32Nbytes (rows * cols)))
        (cB.operand (f32Nbytes rows)) (kB.operand (f32Nbytes (rows * cols))) rows cols eps m) := by
  simp only [appendRmsNormMulOp, hsrc, hweight, hxB, hcB, hkB, Option.bind_eq_bind,
    Option.bind_some, heps, Option.some.injEq, exists_eq_left']
  intro m
  have hnorm : ¬ "RMS_NORM_MUL_F32" = "RMS_NORM_F32" := by decide
  have hmul : ¬ "RMS_NORM_MUL_F32" = "MUL_F32" := by decide
  rw [execOp, if_neg hnorm, if_neg hmul, if_pos rfl,
    prepareRmsNormMul_eq xB cB kB rfl hdims.rowsPos rfl hdims.colsPos rfl rfl rfl rfl rfl rfl rfl]
  simp only [hdims.rows_eq, hdims.cols_eq, hdims.rowsU32, hdims.colsU32, hdims.rc, ne_eq,
    not_true_eq_false, if_false]

omit hplaced hfusable hs hk hex in
/-- A product of a pair runs as one with a broadcast weight. -/
theorem execOp_pair {rms weight x : TensorId} (p : Pair h k rms weight x) : ∃ rB cB kB rows cols,
    MulCall h k rms weight rB cB kB rows cols true ∧
      mU' = Ps.bonsaiMulF32 F mapped (rB.operand (f32Nbytes (rows * cols)))
      (cB.operand (f32Nbytes rows)) (kB.operand (f32Nbytes (rows * cols))) rows cols true mU := by
  obtain ⟨hsupports, -⟩ := lowerNode_mul p.mulOp hl
  obtain ⟨broadcast, hlow⟩ : ∃ b,
    getF32BinaryLowering (h.node k) = some ((h rms).toStrided, (h weight).toStrided, b) := by
    have h0 : (h.node k).src 0 = some (h rms).toStrided := by simp [Heap.node, p.mulSrc]
    have h1 : (h.node k).src 1 = some (h weight).toStrided := by simp [Heap.node, p.weightSrc]
    have hshape : sameShape (h rms).toTensor (h.node k).toTensor = true := by
      simp only [sameShape, decide_eq_true_eq]
      exact fun dim => (congrFun (sameShape_ne p.mulShape) dim).symm
    have hrow : isRowBroadcastFor (h weight).toTensor (h.node k).toTensor = true := p.broadcast
    simp only [supportsF32Binary, getF32BinaryLowering, h0, h1] at hsupports ⊢
    split at hsupports
    · cases hsupports
    · next hok =>
      rw [if_neg hok]
      by_cases hsame : sameShape (h weight).toTensor (h.node k).toTensor = true
      · exact ⟨false, if_pos ⟨hshape, hsame⟩⟩
      · exact ⟨true, by rw [if_neg fun hboth => hsame hboth.2, if_pos ⟨hshape, hrow⟩]⟩
  obtain ⟨rB, cB, kB, rows, cols, call, hexec⟩ := execOp_mul hsized p.mulOp hl hlow hrun
  have hdims1 : Dims h weight cB rows 1 := dims_of_broadcast call.dstDims call.dims1 p.broadcast
  refine ⟨rB, cB, kB, rows, cols, { call with dims1 := hdims1 }, ?_⟩
  obtain rfl : _ = mU' := Option.some.inj ((hexec mU).symm.trans hrun)
  cases broadcast with
  | true => rfl
  | false =>
    have hcols : cols = 1 := call.dims1.cols_eq.symm.trans hdims1.cols_eq
    simp only [hcols, Nat.mul_one, Bool.false_eq_true, if_false]
    exact Ps.mul_one_column

theorem step_fused {rms : TensorId} (hm : mulToRms h nodes k = some rms) :
    ∃ opF mF', appendRmsNormMulOp h k rms = some opF ∧ execOp F mapped other opF mF = some mF' ∧
      Sim h nodes F (pos nodes k + 1) mU' mF' := by
  have hfus := hfusable k hk rms hm
  obtain ⟨weight, x₀, p⟩ := mulToRms_pair hm
  obtain ⟨x, xB, rB, rows, cols, eps, call, heps, hread⟩ :=
    hs.pending k hk rms hm hfus.before (Nat.le_refl _)
  obtain ⟨rB', cB, kB, rows', cols', mcall, hmU⟩ := execOp_pair hsized hl hrun p
  obtain rfl : rB = rB' := Option.some.inj (call.dstB.symm.trans mcall.src0B)
  obtain rfl : rows = rows' := call.dstDims.rows_eq.symm.trans mcall.dims0.rows_eq
  obtain rfl : cols = cols' := call.dstDims.cols_eq.symm.trans mcall.dims0.cols_eq
  obtain ⟨opF, hopF, hexecF⟩ :=
    execOp_fused F mapped other call.src p.weightSrc call.srcB mcall.src1B mcall.dstB
      mcall.dstDims heps
  have hdims1 : Dims h weight cB rows 1 := mcall.dims1
  have hweight : ∀ b, (cB.operand (f32Nbytes rows)).Holds rows b → mU b = mF b := by
    intro b hb
    refine hs.agree b (reads_not_stale hplaced hfusable hk hex (Or.inl ⟨1, p.weightSrc⟩) (fun _ _ =>
      p.weightSrc) ?_)
    refine (hdims1.range (f32Nbytes rows) b).mpr ?_
    rwa [Nat.one_mul]
  have hlike : Ps.Like mU mF (kB.operand (f32Nbytes (rows * cols))) (cols * rows)
      (Ps.bonsaiMulF32 F mapped (rB.operand (f32Nbytes (rows * cols))) (cB.operand (f32Nbytes rows))
        (kB.operand (f32Nbytes (rows * cols))) rows cols true mU)
      (Ps.bonsaiRmsNormMulF32 F mapped (xB.operand (f32Nbytes (rows * cols)))
        (cB.operand (f32Nbytes rows))
        (kB.operand (f32Nbytes (rows * cols))) rows cols eps mF) :=
    Ps.fused_like hread hweight
      (hfus.inPlace.1.aligned call.dstDims mcall.dstDims call.dstB mcall.dstB)
      ((hfus.inPlace.2 x call.src).2.aligned call.srcDims mcall.dstDims call.srcB mcall.dstB)
  obtain ⟨hin, hout⟩ := local_of_like (by rw [p.mulOp]; decide) mcall.dstDims hlike
  subst hmU
  exact ⟨opF, _, hopF, hexecF mF, hs.emitted hplaced hfusable hk hex p.not_absorbed hin hout⟩

end Run

/-! ## Runs -/

include hplaced hfusable hsized hothers

/-- One node of the split. -/
theorem step_node {k : TensorId} (hk : k ∈ nodes) {mU mF mU' : Mem}
    (hs : Sim h nodes F (pos nodes k) mU mF)
    (hrun : runNode F mapped other (emitNode blckSize h) mU k = some mU') :
    ∃ mF', runNode F mapped other (emitFused blckSize h nodes) mF k = some mF' ∧
      Sim h nodes F (pos nodes k + 1) mU' mF' := by
  by_cases hex : executes h k = true
  · obtain ⟨op, hl, hexec⟩ : ∃ op, lowerNode blckSize (h.node k) = some op ∧
      execOp F mapped other op mU = some mU' := by
      simp only [runNode, emitNode, if_pos hex] at hrun
      cases hl : lowerNode blckSize (h.node k) with
      | none =>
        rw [hl] at hrun
        cases hrun
      | some op =>
        rw [hl] at hrun
        exact ⟨op, rfl, hrun⟩
    cases habsorbed : isAbsorbed h nodes k with
    | true =>
      refine ⟨mF, ?_, step_absorbed hplaced hfusable hsized hs hk hex hl hexec habsorbed⟩
      simp only [runNode, emitFused, hex, habsorbed, not_true_eq_false, if_false, if_true]
    | false =>
      cases hm : mulToRms h nodes k with
      | none =>
        obtain ⟨mF', hexecF, hs'⟩ :=
          step_same hplaced hfusable hsized hothers hs hk hex hl hexec habsorbed hm
        refine ⟨mF', ?_, hs'⟩
        simp only [runNode, emitFused, hex, habsorbed, hm, hl, not_true_eq_false,
          Bool.false_eq_true, if_false, Option.map_some]
        exact hexecF
      | some rms =>
        obtain ⟨opF, mF', hopF, hexecF, hs'⟩ :=
          step_fused hplaced hfusable hsized hs hk hex hl hexec hm
        refine ⟨mF', ?_, hs'⟩
        simp only [runNode, emitFused, hex, habsorbed, hm, hopF, not_true_eq_false,
          Bool.false_eq_true, if_false, Option.map_some]
        exact hexecF
  · simp only [runNode, emitNode, if_neg hex, Option.some.injEq] at hrun
    subst hrun
    refine ⟨mF, ?_, hs.skip hfusable hex⟩
    rw [runNode, emitFused, if_pos hex]

/-- The first `n` nodes of the split. -/
theorem run_prefix {n : Nat} (hn : n ≤ nodes.length) {m mU : Mem}
    (hrun : runNodes F mapped other (emitNode blckSize h) (nodes.take n) m = some mU) :
    ∃ mF, runNodes F mapped other (emitFused blckSize h nodes) (nodes.take n) m = some mF ∧
      Sim h nodes F n mU mF := by
  have hstart : Sim h nodes F 0 m m :=
    ⟨fun _ _ => rfl, fun _ _ _ _ hlt => absurd hlt (Nat.not_lt_zero _)⟩
  have hstep : ∀ i k, (nodes.take n)[i]? = some k → ∀ mU mU' mF, Sim h nodes F i mU mF →
      runNode F mapped other (emitNode blckSize h) mU k = some mU' →
      ∃ mF', runNode F mapped other (emitFused blckSize h nodes) mF k = some mF' ∧
        Sim h nodes F (i + 1) mU' mF' := by
    intro i k hi mU mU' mF hs hnode
    have hget : nodes[i]? = some k := by
      rw [List.getElem?_take] at hi
      split at hi
      · exact hi
      · cases hi
    obtain ⟨hlt, hk⟩ := List.getElem?_eq_some_iff.mp hget
    have hpos : pos nodes k = i := by
      rw [← hk]
      exact hplaced.nodup.idxOf_getElem i hlt
    rw [← hpos] at hs ⊢
    exact step_node hplaced hfusable hsized hothers (List.mem_of_getElem? hget) hs hnode
  obtain ⟨mF, hrunF, hs⟩ := Words.foldlM_lockstep (Sim h nodes F) hstart hstep hrun
  rw [List.length_take, Nat.min_eq_left hn] at hs
  exact ⟨mF, hrunF, hs⟩

omit hplaced hfusable hsized hothers in
/-- What runs was lowered. -/
theorem emit_isSome {emit : TensorId → Option (Option Op)} {m m' : Mem}
    (hrun : runNodes F mapped other emit nodes m = some m') :
    ∀ k ∈ nodes, (emit k).isSome := by
  induction nodes generalizing m with
  | nil => exact fun _ hk => absurd hk List.not_mem_nil
  | cons k nodes ih =>
    simp only [runNodes, List.foldlM_cons, Option.bind_eq_bind, Option.bind_eq_some_iff] at hrun
    obtain ⟨m₁, hnode, hrest⟩ := hrun
    rw [List.forall_mem_cons]
    refine ⟨?_, ih hrest⟩
    cases hemit : emit k with
    | none =>
      rw [runNode, hemit] at hnode
      cases hnode
    | some op => rfl

end

/-- For every split that is lowered and runs without fusion: it is lowered and runs with it,
    and leaves the same bytes in every tensor that another split or the host reads. On the way
    they are the same in every tensor that is there, is read later and does not share the
    storage of an absorbed norm: of a product in place of its norm only the end is told. -/
theorem fusion_preserves {h : Heap} {nodes : List TensorId} {kept : TensorId → Prop} {F : F32Ops}
    {mapped : Operand → Bool}
    {other : Op → Mem → Option Mem} {blckSize : GgmlType → Int} (hplaced : Placed h nodes kept)
    (hsized : F32Sized h)
    (hothers : ∀ k ∈ nodes, executes h k = true → (h k).op ≠ .rmsNorm → (h k).op ≠ .mul → ∀ op,
      lowerNode blckSize (h.node k) = some op → Local h k (execOp F mapped other op))
    (hfusable : ∀ mul ∈ nodes, ∀ rms, mulToRms h nodes mul = some rms →
      Fusable h nodes kept mul rms)
    {ops : List Op} (hops : unfusedOps blckSize h nodes = some ops) {m mU : Mem}
    (hrun : runOps F mapped other ops m = some mU) :
    ∃ opsF mF, graphOps blckSize h nodes = some opsF ∧ runOps F mapped other opsF m = some mF ∧
      (∀ t, kept t → ∀ b, h.Range t b → mU b = mF b) ∧
      ∀ n ≤ nodes.length, ∀ mUn,
        runNodes F mapped other (emitNode blckSize h) (nodes.take n) m = some mUn →
        ∃ mFn, runNodes F mapped other (emitFused blckSize h nodes) (nodes.take n) m = some mFn ∧
          ∀ t, ThereAt h nodes n t → ReadFrom h nodes kept n t →
            (∀ r, isAbsorbed h nodes r = true → h.root t ≠ h.root r) →
            ∀ b, h.Range t b → mUn b = mFn b := by
  rw [runOps_eq_runNodes hops] at hrun
  obtain ⟨mF, hrunF, hs⟩ :=
    run_prefix hplaced hfusable hsized hothers (Nat.le_refl _) (by rwa [List.take_length])
  rw [List.take_length] at hrunF
  obtain ⟨opsF, hopsF⟩ := Option.isSome_iff_exists.mp (emitAll_isSome.mpr (emit_isSome hrunF))
  refine ⟨opsF, mF, hopsF, by rw [runOps_eq_runNodes hopsF, hrunF], fun t ht b hb => hs.agree b ?_,
    fun n hn mUn hrunU => ?_⟩
  · refine not_stale hplaced hfusable (fun hcomputes => List.idxOf_lt_length_iff.mpr hcomputes.1)
      (Or.inl ht) ?_ hb
    intro mul hmul r hm _ hroot
    exact ⟨List.idxOf_lt_length_iff.mpr hmul, (hfusable mul hmul r hm).outside t ht hroot⟩
  · obtain ⟨mFn, hrunFn, hsn⟩ := run_prefix hplaced hfusable hsized hothers hn hrunU
    refine ⟨mFn, hrunFn, fun t hthere hread hapart b hb =>
      hsn.agree b (not_stale hplaced hfusable hthere hread ?_ hb)⟩
    intro mul hmul r hm _ hroot
    exact absurd hroot (hapart r (isAbsorbed_iff.mpr ⟨mul, hmul, hm⟩))

/-! ## A norm, a scaling and a product -/

/-- A float at an offset of one allocation. -/
def floatAt (offset : Nat) : Strided where
  type := .f32
  ne _ := 1
  isContiguous := true
  nbytes := 4
  nb _ := 4
  binding := some ⟨1, 24, 4, offset⟩

/-- Input, weight and another input, the norm of the first, the scaled second input, which
    is put at `offset`, and the product of norm and weight. -/
def normOffset (offset : Nat) : TensorId → Nat
  | 0 => 0
  | 1 => 4
  | 2 => 8
  | 3 => 12
  | 4 => offset
  | _ => 16

def normOp : TensorId → GgmlOp
  | 3 => .rmsNorm
  | 4 => .scale
  | 5 => .mul
  | _ => .none

def normSrc : TensorId → List TensorId
  | 3 => [0]
  | 4 => [2]
  | 5 => [3, 1]
  | _ => []

def normHeap (offset : Nat) : Heap := fun t =>
  ⟨floatAt (normOffset offset t), normOp t, fun s => (normSrc t)[s.val]?, fun _ => 0, false, false,
    true, false, none⟩

def normNodes : List TensorId := [3, 4, 5]

/-- The scaled input and the product are read later. -/
def normKept (t : TensorId) : Prop := t = 4 ∨ t = 5

/-- Floats that are added instead of multiplied. -/
def plainOps : F32Ops where
  ofNat _ := 0
  add a b := a + b
  mul a b := a + b
  div a _ := a
  sqrt a := a

/-- A scaling by one. -/
def scaleByOne (op : Op) (m : Mem) : Option Mem :=
  match Ps.prepareScale op with
  | .ok call => some (Ps.writeF32 m call.dst 0 (Ps.readF32 m call.src 0))
  | .error _ => none

/-- Memory where each byte is its offset. -/
def plainMem : Mem := fun b => BitVec.ofNat 8 b.2

section

variable {offset : Nat}

theorem normHeap_owns (t : TensorId) : (normHeap offset).Owns t := by
  refine ⟨target_eq ?_, rfl⟩
  show normOp t ≠ .cpy
  unfold normOp
  split <;> decide

theorem normHeap_range (t : TensorId) (b : Loc) :
    (normHeap offset).Range t b ↔ b.1 = 1 ∧ normOffset offset t ≤ b.2 ∧
      b.2 < normOffset offset t + 4 :=
  ⟨fun ⟨_, hb, hloc⟩ => by cases hb; exact hloc, fun hloc => ⟨_, rfl, hloc⟩⟩

theorem normHeap_reads {k t : TensorId} (hk : k ∈ normNodes)
    (hreads : (normHeap offset).Reads k t) :
    k = 3 ∧ t = 0 ∨ k = 4 ∧ t = 2 ∨ k = 5 ∧ (t = 3 ∨ t = 1) := by
  rcases hreads with ⟨s, hs⟩ | ⟨hnot, -⟩
  · have hmem : t ∈ normSrc k := List.mem_of_getElem? hs
    simp only [normNodes, List.mem_cons, List.not_mem_nil, or_false] at hk
    rcases hk with rfl | rfl | rfl <;> simp [normSrc] at hmem <;> simp [hmem]
  · exact absurd (normHeap_owns k) hnot

theorem normHeap_computes {t : TensorId} :
    Computes (normHeap offset) normNodes t ↔ t ∈ normNodes := by
  refine ⟨fun h => h.1, fun h => ⟨h, ?_, normHeap_owns t⟩⟩
  simp only [normNodes, List.mem_cons, List.not_mem_nil, or_false] at h
  rcases h with rfl | rfl | rfl <;> rfl

theorem normHeap_sized : F32Sized (normHeap offset) :=
  ⟨fun _ _ => rfl, fun _ _ hb => by cases hb; exact ⟨show 24 < 2 ^ 32 by decide, fun _ => rfl⟩⟩

/-- The scaled input may be where the first input was, whose last reader is the norm. -/
theorem normHeap_placed (hoffset : offset = 0 ∨ offset = 20) :
    Placed (normHeap offset) normNodes normKept where
  nodup := by decide
  flat _ := rfl
  views _ _ hb := hb
  order := by
    intro k hk _ t hreads hcomputes
    have hmem : t ∈ normNodes := normHeap_computes.mp hcomputes
    rcases normHeap_reads hk hreads with ⟨rfl, rfl⟩ | ⟨rfl, rfl⟩ | ⟨rfl, rfl | rfl⟩
    · exact absurd hmem (by decide)
    · exact absurd hmem (by decide)
    · show pos normNodes 3 < pos normNodes 5
      decide
    · exact absurd hmem (by decide)
  live := by
    intro k hk _ t hne hthere hread b hb htarget
    rw [(normHeap_owns k).1, normHeap_range] at htarget
    rw [(normHeap_owns k).1] at hne
    rw [normHeap_range] at hb
    have hcomputed : t ∈ normNodes → pos normNodes t < pos normNodes k :=
      fun hmem => hthere (normHeap_computes.mpr hmem)
    have h3 : pos normNodes 3 = 0 := rfl
    have h4 : pos normNodes 4 = 1 := rfl
    have h5 : pos normNodes 5 = 2 := rfl
    have hk' : k = 3 ∨ k = 4 ∨ k = 5 := by simpa [normNodes] using hk
    rcases hread with (rfl | rfl) | ⟨j, hj, -, hle, hreads⟩
    · have hlt := hcomputed (by decide)
      rcases hk' with rfl | rfl | rfl <;> simp only [normOffset] at hb htarget <;> omega
    · have hlt := hcomputed (by decide)
      rcases hk' with rfl | rfl | rfl <;> omega
    · rcases normHeap_reads hj hreads with ⟨rfl, rfl⟩ | ⟨rfl, rfl⟩ | ⟨rfl, rfl | rfl⟩
      · omega
      · rcases hk' with rfl | rfl | rfl <;> simp only [normOffset] at hb htarget <;> omega
      · rcases hk' with rfl | rfl | rfl
        · exact hne rfl
        · simp only [normOffset] at hb htarget
          omega
        · omega
      · rcases hk' with rfl | rfl | rfl <;> simp only [normOffset] at hb htarget <;> omega

/-- The op of the scaling. -/
def scaleOp (offset : Nat) : Op where
  name := "SCALE_F32"
  ints := [("src", 1), ("dst", 1), ("elements", 1), ("src_offset", 8), ("dst_offset", offset)]
  floats := [("scale", some 0), ("bias", some 0)]
  flags := []
  tags := []

/-- The scaling reads its input and changes its target. -/
theorem normHeap_others (hoffset : offset = 0 ∨ offset = 20) (k : TensorId) (hk : k ∈ normNodes)
    (_ : executes (normHeap offset) k = true)
    (hrms : (normHeap offset k).op ≠ .rmsNorm) (hmul : (normHeap offset k).op ≠ .mul) (op : Op)
    (hl : lowerNode ggmlBlckSize ((normHeap offset).node k) = some op) :
    Local (normHeap offset) k (execOp plainOps (fun _ => true) scaleByOne op) := by
  have hk' : k = 3 ∨ k = 4 ∨ k = 5 := by simpa [normNodes] using hk
  rcases hk' with rfl | rfl | rfl
  · exact absurd rfl hrms
  · have hop : op = scaleOp offset := by
      apply Option.some.inj
      rw [← hl]
      rcases hoffset with rfl | rfl <;> rfl
    have hexec : ∀ m, execOp plainOps (fun _ => true) scaleByOne op m =
        some (Ps.writeF32 m ⟨1, offset, 4⟩ 0 (Ps.readF32 m ⟨1, 8, 4⟩ 0)) := by
      rw [hop]
      exact fun _ => rfl
    intro m m' m₁ hreads hrun
    have hsame : Ps.readF32 m ⟨1, 8, 4⟩ 0 = Ps.readF32 m' ⟨1, 8, 4⟩ 0 :=
      Ps.readF32_same (n := 1) (fun b hb =>
        hreads 2 (Or.inl ⟨0, rfl⟩) b ((normHeap_range 2 b).mpr hb)) (Nat.lt_succ_self 0)
    rw [hexec] at hrun
    cases hrun
    refine ⟨_, hexec m', fun b hb => ?_, fun b hb => ?_⟩
    · rw [(normHeap_owns 4).1, normHeap_range] at hb
      simp only [Ps.writeF32, hsame]
      exact (if_pos hb).trans (if_pos hb).symm
    · rw [(normHeap_owns 4).1, normHeap_range] at hb
      exact ⟨Ps.writeF32_of_not hb, Ps.writeF32_of_not hb⟩
  · exact absurd rfl hmul

end

/-- The scaled input is put where the first input was. The product is then computed from it. -/
theorem reused_input : Placed (normHeap 0) normNodes normKept ∧ F32Sized (normHeap 0) ∧
    (∀ k ∈ normNodes, executes (normHeap 0) k = true → (normHeap 0 k).op ≠ .rmsNorm →
      (normHeap 0 k).op ≠ .mul → ∀ op,
      lowerNode ggmlBlckSize ((normHeap 0).node k) = some op →
        Local (normHeap 0) k (execOp plainOps (fun _ => true) scaleByOne op)) ∧
    normKept 5 ∧ (normHeap 0).Range 5 (1, 16) ∧
    ((unfusedOps ggmlBlckSize (normHeap 0) normNodes).bind fun ops =>
      (runOps plainOps (fun _ => true) scaleByOne ops plainMem).map fun m => m (1, 16)) = some 4#8 ∧
    ((graphOps ggmlBlckSize (normHeap 0) normNodes).bind fun ops =>
      (runOps plainOps (fun _ => true) scaleByOne ops plainMem).map fun m => m
        (1, 16)) = some 12#8 := by
  refine ⟨normHeap_placed (Or.inl rfl), normHeap_sized, normHeap_others (Or.inl rfl), Or.inr rfl,
    ?_, by decide +kernel, by decide +kernel⟩
  rw [normHeap_range]
  decide

/-- Only the norm is absorbed, by the product. -/
theorem normHeap_mulToRms {mul rms : TensorId} (hmul : mul ∈ normNodes)
    (hm : mulToRms (normHeap 20) normNodes mul = some rms) :
    mul = 5 ∧ rms = 3 := by
  obtain ⟨weight, x, p⟩ := mulToRms_pair hm
  have hmul' : mul = 3 ∨ mul = 4 ∨ mul = 5 := by simpa [normNodes] using hmul
  rcases hmul' with rfl | rfl | rfl
  · cases p.mulOp
  · cases p.mulOp
  · cases p.mulSrc
    exact ⟨rfl, rfl⟩

/-- The norm can be fused if the scaled input has storage of its own. -/
theorem normHeap_fusable : Fusable (normHeap 20) normNodes normKept 5 3 where
  mem := by decide
  executed := rfl
  before := by decide
  input := by
    intro x hx k hk _ _ hafter hbefore b hb htarget
    cases hx
    have hk' : k = 3 ∨ k = 4 ∨ k = 5 := by simpa [normNodes] using hk
    rw [(normHeap_owns k).1, normHeap_range] at htarget
    rw [normHeap_range] at hb
    rcases hk' with rfl | rfl | rfl <;> simp only [normOffset] at hb htarget
    · exact absurd hafter (by decide)
    · omega
    · exact absurd hbefore (by decide)
  sole := by
    intro j hj _ _ t hreads hroot
    have ht : t = 3 := hroot
    rcases normHeap_reads hj hreads with ⟨rfl, rfl⟩ | ⟨rfl, rfl⟩ | ⟨rfl, rfl | rfl⟩
    · exact absurd ht (by decide)
    · exact absurd ht (by decide)
    · exact Or.inl ⟨rfl, fun h => absurd (Option.some.inj h) (by decide)⟩
    · exact absurd ht (by decide)
  outside := by
    rintro t (rfl | rfl) hroot
    · exact absurd (show (4 : TensorId) = 3 from hroot) (by decide)
    · exact absurd (show (5 : TensorId) = 3 from hroot) (by decide)
  replaced hroot := absurd (show (5 : TensorId) = 3 from hroot) (by decide)
  inPlace := by
    have hapart : ∀ t u, normOffset 20 t + 4 ≤ normOffset 20 u → (normHeap 20).Together t u := by
      intro t u hle
      refine Or.inr fun b ht hu => ?_
      rw [normHeap_range] at ht hu
      omega
    refine ⟨hapart 3 5 (by decide), fun x hx => ?_⟩
    cases hx
    exact ⟨hapart 0 3 (by decide), hapart 0 5 (by decide)⟩

/-- With storage of its own for the scaled input, the product is the same. -/
theorem fusion_preserves_apart :
    ∃ ops opsF mU mF, unfusedOps ggmlBlckSize (normHeap 20) normNodes = some ops ∧
    runOps plainOps (fun _ => true) scaleByOne ops plainMem = some mU ∧
    graphOps ggmlBlckSize (normHeap 20) normNodes = some opsF ∧
    runOps plainOps (fun _ => true) scaleByOne opsF plainMem = some mF ∧
    mU (1, 16) = mF (1, 16) := by
  obtain ⟨ops, hops⟩ : ∃ ops, unfusedOps ggmlBlckSize (normHeap 20) normNodes = some ops := ⟨_, rfl⟩
  obtain ⟨mU, hrun⟩ : ∃ mU, runOps plainOps (fun _ => true) scaleByOne ops plainMem = some mU := by
    rw [← Option.isSome_iff_exists]
    obtain rfl := Option.some.inj hops
    decide +kernel
  have hfusable : ∀ mul ∈ normNodes, ∀ rms, mulToRms (normHeap 20) normNodes mul = some rms →
      Fusable (normHeap 20) normNodes normKept mul rms := by
    intro mul hmul rms hm
    obtain ⟨rfl, rfl⟩ := normHeap_mulToRms hmul hm
    exact normHeap_fusable
  obtain ⟨opsF, mF, hopsF, hrunF, hkept, -⟩ := fusion_preserves
    (normHeap_placed (Or.inr rfl)) normHeap_sized
    (normHeap_others (Or.inr rfl)) hfusable hops hrun
  refine ⟨ops, opsF, mU, mF, hops, hrun, hopsF, hrunF, hkept 5 (Or.inr rfl) (1, 16) ?_⟩
  rw [normHeap_range]
  decide

end Backend
