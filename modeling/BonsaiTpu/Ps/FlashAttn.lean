-- SUMMARY: The memory accesses of the attention kernel: which bytes its loops touch, and when they lie in the ranges that the wrapper computed and staged.
import BonsaiTpu.Ps.Kernels

/-!
# Attention: memory accesses

The wrapper computes a range of bytes for each operand from one of its two strides,
checks it against the tensor and passes a pointer to its first byte; the kernel
addresses rows with both strides. The accesses of a run depend on the data only through
the mask, whose entries of minus infinity skip a token.
-/

namespace Ps

open Board (Err Allocator)

/-! ## Staging -/

/-- What `_slab_pointer_or_scratch` returns: a pointer into the slab, or a scratch buffer
    with a copy of the range and its owner. -/
inductive Staged where
  | slab (pointer : Nat)
  | scratch (owner : Operand)

section Staging

variable {σ : Type} (a : Allocator σ) (baseVa : Nat → Option Nat)

def slabPointerOrScratch (o : Operand) : Except Err Staged :=
  match a.slabPointer baseVa o.handle o.offset o.nbytes with
  | .ok pointer => .ok (.slab pointer)
  | .error (.allocator .multiExtent _) => .ok (.scratch o)
  | .error e => .error e

def FlashCall.operands (call : FlashCall) : List Operand :=
  [call.q, call.k, call.v] ++ call.mask.toList ++ [call.dst]

/-- The operands in the order in which `run` resolves them. -/
def FlashCall.stage (call : FlashCall) : Except Err (List Staged) :=
  call.operands.mapM (slabPointerOrScratch a baseVa)

/-- The call reaches the loops of the C function. -/
structure FlashCall.Admitted (call : FlashCall) : Prop where
  staged : ∃ staged, call.stage a baseVa = .ok staged
  rc : call.rc = 0

end Staging

theorem mapM_ok {α β : Type} {f : α → Except Err β} {l : List α} {r : List β}
    (h : l.mapM f = .ok r) :
    ∀ x ∈ l, ∃ y, f x = .ok y := by
  induction l generalizing r with
  | nil => simp
  | cons x l ih =>
    rw [List.mapM_cons] at h
    cases hx : f x with
    | error e =>
      rw [hx] at h
      cases h
    | ok y =>
      cases hl : l.mapM f with
      | error e =>
        rw [hx, hl] at h
        cases h
      | ok ys =>
        intro z hz
        cases hz with
        | head => exact ⟨y, hx⟩
        | tail _ hz => exact ih hl z hz

/-- `slab_view` checks the range before it looks for the extent. -/
theorem slabView_bound {σ : Type} {a : Allocator σ} {handle offset nbytes : Int}
    (h : (∃ view, a.slabView handle offset nbytes = .ok view) ∨
      ∃ message, a.slabView handle offset nbytes = .error (.allocator .multiExtent message)) :
    ∃ record ∈ a.records, offset + nbytes ≤ record.nbytes := by
  unfold Allocator.slabView Allocator.getRecord at h
  cases hlookup : a.lookup handle with
  | none => simp [hlookup, bind, Except.bind] at h
  | some record =>
    refine ⟨record, List.mem_of_find?_eq_some hlookup, ?_⟩
    by_contra hgt
    have hout : offset + nbytes > record.nbytes := by omega
    by_cases hneg : offset < 0 ∨ nbytes < 0
    · simp [hlookup, bind, Except.bind, hneg] at h
    · simp [hlookup, bind, Except.bind, hneg, hout] at h

theorem slabPointerOrScratch_bound {σ : Type} {a : Allocator σ}
    {baseVa : Nat → Option Nat} {o : Operand}
    {staged : Staged} (h : slabPointerOrScratch a baseVa o = .ok staged) :
    ∃ record ∈ a.records, (o.offset : Int) + o.nbytes ≤ record.nbytes := by
  unfold slabPointerOrScratch Allocator.slabPointer at h
  cases hview : a.slabView o.handle o.offset o.nbytes with
  | ok view => exact slabView_bound (Or.inl ⟨view, hview⟩)
  | error e =>
    rw [hview] at h
    simp only [bind, Except.bind] at h
    split at h
    · next heq => cases heq
    · next message heq =>
      cases heq
      exact slabView_bound (Or.inr ⟨message, hview⟩)
    · cases h

/-! ## The arguments of a call -/

theorem bind_eq_ok {ε α β : Type} {x : Except ε α} {f : α → Except ε β} {b : β} :
    (x >>= f) = .ok b ↔ ∃ a, x = .ok a ∧ f a = .ok b := by
  cases x with
  | ok a => simp [bind, Except.bind]
  | error e => simp [bind, Except.bind]

theorem required_eq_ok {op : Op} {key : String} {n : Nat} (h : op.required key = .ok n) :
    op.ints.lookup key = some (n : Int) := by
  unfold Op.required Board.Matmul.required Board.requiredInt at h
  cases hlookup : op.ints.lookup key with
  | none =>
    rw [hlookup] at h
    cases h
  | some d =>
    rw [hlookup] at h
    change (Board.nonNegativeInt (some d) key >>= _) = _ at h
    obtain ⟨parsed, hparsed, hn⟩ := bind_eq_ok.mp h
    change (if d < 0 then _ else Except.ok d) = _ at hparsed
    split at hparsed
    · cases hparsed
    · next hneg =>
      cases hparsed
      cases hn
      rw [Int.toNat_of_nonneg (Int.not_lt.mp hneg)]

theorem positive_eq_ok {op : Op} {key : String} {n : Nat} (h : op.positive key = .ok n) :
    op.ints.lookup key = some (n : Int) ∧ 0 < n := by
  obtain ⟨value, hvalue, h⟩ := bind_eq_ok.mp h
  split at h
  · cases h
  · next hne =>
    cases h
    exact ⟨required_eq_ok hvalue, Nat.pos_of_ne_zero hne⟩

theorem int_eq_ok {op : Op} {key : String} {d : Int} (h : op.int key = .ok d) :
    op.ints.lookup key = some d := by
  unfold Op.int at h
  split at h
  · next value hlookup =>
    cases h
    exact hlookup
  · cases h

theorem optionalInt_eq_ok {op : Op} {key : String} {n : Nat} {d : Int}
    (hlookup : op.ints.lookup key = some d) (h : op.optionalInt key = .ok n) : d = n := by
  apply Option.some.inj
  rw [← hlookup]
  apply required_eq_ok
  rw [← h, Op.required, Op.optionalInt, hlookup]
  rfl

theorem operand_eq_ok {op : Op} {handleKey offsetKey : String} {nbytes : Int} {o : Operand}
    (h : op.operand handleKey offsetKey nbytes = .ok o) :
    op.ints.lookup handleKey = some (o.handle : Int) ∧
      (∀ d, op.ints.lookup offsetKey = some d → d = o.offset) ∧
      o.nbytes = nbytes := by
  obtain ⟨handle, hhandle, h⟩ := bind_eq_ok.mp h
  obtain ⟨offset, hoffset, h⟩ := bind_eq_ok.mp h
  cases h
  exact ⟨required_eq_ok hhandle, fun d hlookup => optionalInt_eq_ok hlookup hoffset, rfl⟩

theorem maskOperand_eq_ok {op : Op} {nbytes : Int} {mask : Option Operand}
    (h : op.maskOperand nbytes = .ok mask) :
    mask.isSome = op.flag "has_mask" ∧ ∀ o, mask = some o → o.nbytes = nbytes := by
  unfold Op.maskOperand at h
  split at h
  · next hflag =>
    cases ho : op.operand "mask" "mask_offset" nbytes with
    | error e =>
      rw [ho] at h
      cases h
    | ok o =>
      rw [ho] at h
      cases h
      refine ⟨by simp [hflag], ?_⟩
      rintro o' ⟨⟩
      exact (operand_eq_ok ho).2.2
  · next hflag =>
    cases h
    simp [hflag]

/-- What the wrapper computed for a call: its dimensions and strides are fields of the op,
    its ranges come from them. -/
structure FlashCall.Computed (call : FlashCall) (op : Op) : Prop where
  headDimQ : op.ints.lookup "head_dim_q" = some (call.headDimQ : Int)
  headDimV : op.ints.lookup "head_dim_v" = some (call.headDimV : Int)
  nHead : op.ints.lookup "n_head" = some (call.nHead : Int)
  nHeadKv : op.ints.lookup "n_head_kv" = some (call.nHeadKv : Int)
  nKv : op.ints.lookup "n_kv" = some (call.nKv : Int) ∧ 0 < call.nKv
  nToken : op.ints.lookup "n_token" = some (call.nToken : Int) ∧ 0 < call.nToken
  cap : call.nKv ≤ MAX_FLASH_ATTN_KV
  qNb : op.ints.lookup "q_nb1" = some call.qNb1 ∧ op.ints.lookup "q_nb2" = some call.qNb2
  kNb : op.ints.lookup "k_nb1" = some call.kNb1 ∧ op.ints.lookup "k_nb2" = some call.kNb2
  vNb : op.ints.lookup "v_nb1" = some call.vNb1 ∧ op.ints.lookup "v_nb2" = some call.vNb2
  dstNb : op.ints.lookup "dst_nb1" = some call.dstNb1 ∧ op.ints.lookup "dst_nb2" = some call.dstNb2
  maskNb : call.maskNb1 = op.intOr "mask_nb1" 0
  hasMask : call.mask.isSome = op.flag "has_mask"
  q : call.q.nbytes = spanNbytes call.qNb1 call.qNb2 call.nToken call.nHead
  k : call.k.nbytes = spanNbytes call.kNb1 call.kNb2 call.nKv call.nHeadKv
  v : call.v.nbytes = spanNbytes call.vNb1 call.vNb2 call.nKv call.nHeadKv
  mask : ∀ o, call.mask = some o → o.nbytes = call.maskNb1 * call.nToken
  dst : call.dst.nbytes = spanNbytes call.dstNb1 call.dstNb2 call.nHead call.nToken

theorem prepareFlash_computed {op : Op} {call : FlashCall} (h : prepareFlash op = .ok call) :
    call.Computed op := by
  obtain ⟨headDimQ, hdq, h⟩ := bind_eq_ok.mp h
  obtain ⟨headDimV, hdv, h⟩ := bind_eq_ok.mp h
  obtain ⟨nHead, hhead, h⟩ := bind_eq_ok.mp h
  obtain ⟨nHeadKv, hheadKv, h⟩ := bind_eq_ok.mp h
  obtain ⟨nKv, hkv, h⟩ := bind_eq_ok.mp h
  obtain ⟨nToken, htoken, h⟩ := bind_eq_ok.mp h
  obtain ⟨scale, -, h⟩ := bind_eq_ok.mp h
  obtain ⟨maxBias, -, h⟩ := bind_eq_ok.mp h
  obtain ⟨softcap, -, h⟩ := bind_eq_ok.mp h
  -- the three refusals: ALiBi or softcap, too long a context, heads in no whole groups
  split at h
  · cases h
  split at h
  · cases h
  next hcap =>
  split at h
  · cases h
  obtain ⟨qNb1, hq1, h⟩ := bind_eq_ok.mp h
  obtain ⟨qNb2, hq2, h⟩ := bind_eq_ok.mp h
  obtain ⟨kNb1, hk1, h⟩ := bind_eq_ok.mp h
  obtain ⟨kNb2, hk2, h⟩ := bind_eq_ok.mp h
  obtain ⟨vNb1, hv1, h⟩ := bind_eq_ok.mp h
  obtain ⟨vNb2, hv2, h⟩ := bind_eq_ok.mp h
  obtain ⟨dstNb1, hd1, h⟩ := bind_eq_ok.mp h
  obtain ⟨dstNb2, hd2, h⟩ := bind_eq_ok.mp h
  obtain ⟨q, hq, h⟩ := bind_eq_ok.mp h
  obtain ⟨k, hk, h⟩ := bind_eq_ok.mp h
  obtain ⟨v, hv, h⟩ := bind_eq_ok.mp h
  obtain ⟨mask, hmask, h⟩ := bind_eq_ok.mp h
  obtain ⟨dst, hdst, h⟩ := bind_eq_ok.mp h
  cases h
  exact
    { headDimQ := (positive_eq_ok hdq).1
      headDimV := (positive_eq_ok hdv).1
      nHead := (positive_eq_ok hhead).1
      nHeadKv := (positive_eq_ok hheadKv).1
      nKv := positive_eq_ok hkv
      nToken := positive_eq_ok htoken
      cap := Nat.le_of_not_gt hcap
      qNb := ⟨int_eq_ok hq1, int_eq_ok hq2⟩
      kNb := ⟨int_eq_ok hk1, int_eq_ok hk2⟩
      vNb := ⟨int_eq_ok hv1, int_eq_ok hv2⟩
      dstNb := ⟨int_eq_ok hd1, int_eq_ok hd2⟩
      maskNb := rfl
      hasMask := (maskOperand_eq_ok hmask).1
      q := (operand_eq_ok hq).2.2
      k := (operand_eq_ok hk).2.2
      v := (operand_eq_ok hv).2.2
      mask := (maskOperand_eq_ok hmask).2
      dst := (operand_eq_ok hdst).2.2 }

/-! ## Accesses -/

inductive FlashBuffer where
  | q | k | v | mask | dst
  deriving DecidableEq

/-- `nbytes` bytes at an offset from the pointer of a buffer. -/
structure Access where
  buffer : FlashBuffer
  offset : Nat
  nbytes : Nat

/-- An offset computed in `size_t`, which has 32 bits on the board. -/
def cSize (x : Int) : Nat := (x % 2 ^ 32).toNat

theorem cSize_eq {x : Int} (h0 : 0 ≤ x) (h : x < 2 ^ 32) : (cSize x : Int) = x := by
  unfold cSize
  omega

/-- The half-precision minus infinity. -/
def negInf : BitVec 16 := 0xFC00#16

/-- The rows of token `ic` of the cache. -/
def FlashCall.kvRows (call : FlashCall) (ik2 ic : Nat) : List Access :=
  [⟨.k, cSize (ic * call.kNb1 + ik2 * call.kNb2), 2 * cUint32 call.headDimQ⟩,
    ⟨.v, cSize (ic * call.vNb1 + ik2 * call.vNb2), 2 * cUint32 call.headDimV⟩]

/-- An iteration of the innermost loop. -/
def FlashCall.kvAccesses (call : FlashCall) (maskAt : Nat → Nat → BitVec 16)
    (iq1 ik2 ic : Nat) : List Access :=
  if call.mask.isSome then
    -- an entry of minus infinity skips the token
    ⟨.mask, cSize (iq1 * call.maskNb1 + 2 * ic), 2⟩ :: if maskAt iq1 ic = negInf then []
      else call.kvRows ik2 ic
  else call.kvRows ik2 ic

/-- The loops of `bonsai_flash_attn_ext_f32`; `maskAt` are the entries of the mask. -/
def FlashCall.accesses (call : FlashCall) (maskAt : Nat → Nat → BitVec 16) : List Access :=
  let rk2 := cUint32 call.nHead / cUint32 call.nHeadKv
  (List.range (cUint32 call.nToken)).flatMap fun iq1 =>
    (List.range (cUint32 call.nHead)).flatMap fun iq2 =>
      [⟨.q, cSize (iq1 * call.qNb1 + iq2 * call.qNb2), 4 * cUint32 call.headDimQ⟩] ++
        ((List.range (cUint32 call.nKv)).flatMap (call.kvAccesses maskAt iq1 (iq2 / rk2))) ++
        [⟨.dst, cSize (iq2 * call.dstNb1 + iq1 * call.dstNb2), 4 * cUint32 call.headDimV⟩]

/-- The number of bytes of the range of a buffer. -/
def FlashCall.rangeNbytes (call : FlashCall) : FlashBuffer → Int
  | .q => call.q.nbytes
  | .k => call.k.nbytes
  | .v => call.v.nbytes
  | .mask => (call.mask.map Operand.nbytes).getD 0
  | .dst => call.dst.nbytes

/-- An access stays in the range that was computed and staged for its buffer. -/
def FlashCall.InRange (call : FlashCall) (access : Access) : Prop :=
  (access.offset : Int) + access.nbytes ≤ call.rangeNbytes access.buffer

/-- Every access of every run, whatever the mask holds. -/
def FlashCall.Safe (call : FlashCall) : Prop :=
  ∀ maskAt, ∀ access ∈ call.accesses maskAt, call.InRange access

/-- Rows of `row` bytes of a buffer at two strides, for all indices below `m` and `n`. -/
def FlashCall.RowsInRange (call : FlashCall) (buffer : FlashBuffer) (nb1 nb2 : Int)
    (m n row : Nat) : Prop :=
  ∀ i < m, ∀ j < n, call.InRange ⟨buffer, cSize (i * nb1 + j * nb2), row⟩

theorem FlashCall.mem_kvAccesses {call : FlashCall} {maskAt : Nat → Nat → BitVec 16}
    {iq1 ik2 ic : Nat} {access : Access} (h : access ∈ call.kvAccesses maskAt iq1 ik2 ic) :
    access ∈ call.kvRows ik2 ic ∨
      (call.mask.isSome ∧ access = ⟨.mask, cSize (iq1 * call.maskNb1 + 2 * ic), 2⟩) := by
  unfold FlashCall.kvAccesses at h
  split at h
  · next hsome =>
    cases h with
    | head => exact Or.inr ⟨hsome, rfl⟩
    | tail _ h =>
      split at h
      · cases h
      · exact Or.inl h
  · exact Or.inl h

/-- A mask of zeros skips nothing. -/
theorem FlashCall.kvRows_subset (call : FlashCall) (iq1 ik2 ic : Nat) :
    ∀ access ∈ call.kvRows ik2 ic, access ∈ call.kvAccesses (fun _ _ => 0) iq1 ik2 ic := by
  intro access hmem
  unfold FlashCall.kvAccesses
  split
  · exact List.mem_cons_of_mem _ hmem
  · exact hmem

/-- The heads of the cache that the heads of `q` are mapped to are all of them. -/
theorem headKv_lt {nHead nHeadKv iq2 : Nat} (hdvd : nHead % nHeadKv = 0) (h : iq2 < nHead) :
    iq2 / (nHead / nHeadKv) < nHeadKv := by
  have hdecomp : nHead / nHeadKv * nHeadKv = nHead :=
    Nat.div_mul_cancel (Nat.dvd_of_mod_eq_zero hdvd)
  exact Nat.div_lt_of_lt_mul (by omega)

theorem headKv_surj {nHead nHeadKv ik2 : Nat} (hdvd : nHead % nHeadKv = 0) (hpos : 0 < nHead)
    (h : ik2 < nHeadKv) :
    ∃ iq2 < nHead, iq2 / (nHead / nHeadKv) = ik2 := by
  have hdecomp : nHead / nHeadKv * nHeadKv = nHead :=
    Nat.div_mul_cancel (Nat.dvd_of_mod_eq_zero hdvd)
  have hrk : 0 < nHead / nHeadKv := by
    apply Nat.pos_of_ne_zero
    intro hzero
    rw [hzero] at hdecomp
    omega
  refine ⟨ik2 * (nHead / nHeadKv), ?_, Nat.mul_div_cancel _ hrk⟩
  calc ik2 * (nHead / nHeadKv) < nHeadKv * (nHead / nHeadKv) := Nat.mul_lt_mul_of_pos_right h hrk
    _ = nHead := by rw [Nat.mul_comm, hdecomp]

theorem FlashCall.rc_eq_zero {call : FlashCall} (h : call.rc = 0) :
    0 < cUint32 call.headDimQ ∧ 0 < cUint32 call.headDimV ∧ 0 < cUint32 call.nHead ∧
      0 < cUint32 call.nHeadKv ∧
      0 < cUint32 call.nKv ∧ 0 < cUint32 call.nToken ∧
      cUint32 call.nHead % cUint32 call.nHeadKv = 0 := by
  unfold FlashCall.rc flashRc at h
  split at h
  · cases h
  · split at h
    · cases h
    · split at h
      · cases h
      · omega

/-- The loops over tokens, heads and cache touch every pair of indices of each buffer. -/
theorem FlashCall.safe_iff {call : FlashCall} (hrc : call.rc = 0) : call.Safe ↔
    call.RowsInRange .q call.qNb1 call.qNb2 (cUint32 call.nToken) (cUint32 call.nHead)
      (4 * cUint32 call.headDimQ) ∧
    call.RowsInRange .k call.kNb1 call.kNb2 (cUint32 call.nKv) (cUint32 call.nHeadKv)
      (2 * cUint32 call.headDimQ) ∧
    call.RowsInRange .v call.vNb1 call.vNb2 (cUint32 call.nKv) (cUint32 call.nHeadKv)
      (2 * cUint32 call.headDimV) ∧
    (call.mask.isSome →
      call.RowsInRange .mask call.maskNb1 2 (cUint32 call.nToken) (cUint32 call.nKv) 2) ∧
    call.RowsInRange .dst call.dstNb1 call.dstNb2 (cUint32 call.nHead) (cUint32 call.nToken)
      (4 * cUint32 call.headDimV) := by
  obtain ⟨-, -, hhead, -, hkv, htoken, hdvd⟩ := FlashCall.rc_eq_zero hrc
  unfold FlashCall.Safe FlashCall.accesses FlashCall.RowsInRange
  simp only [List.mem_flatMap, List.mem_range, List.mem_append, List.mem_singleton]
  constructor
  · intro h
    have hall : ∀ {iq1 iq2}, iq1 < cUint32 call.nToken → iq2 < cUint32 call.nHead → _ :=
      fun h1 h2 access hmem => h (fun _ _ => 0) access ⟨_, h1, _, h2, hmem⟩
    have hrows : ∀ ic < cUint32 call.nKv, ∀ ik2 < cUint32 call.nHeadKv,
        ∀ access ∈ call.kvRows ik2 ic, call.InRange access := by
      intro ic h3 ik2 h4 access hmem
      obtain ⟨iq2, h2, rfl⟩ := headKv_surj hdvd hhead h4
      exact hall htoken h2 access (Or.inl (Or.inr ⟨ic, h3, call.kvRows_subset 0 _ ic access hmem⟩))
    refine ⟨?_, ?_, ?_, ?_, ?_⟩
    · exact fun i hi j hj => hall hi hj _ (Or.inl (Or.inl rfl))
    · exact fun i hi j hj => hrows i hi j hj _ (by simp [FlashCall.kvRows])
    · exact fun i hi j hj => hrows i hi j hj _ (by simp [FlashCall.kvRows])
    · intro hmask i hi j hj
      refine hall hi hhead _ (Or.inl (Or.inr ⟨j, hj, ?_⟩))
      simp [FlashCall.kvAccesses, hmask, Int.mul_comm]
    · exact fun i hi j hj => hall hj hi _ (Or.inr rfl)
  · rintro ⟨hq, hk, hv, hmask, hdst⟩ maskAt access ⟨iq1, h1, iq2, h2, hmem⟩
    rcases hmem with (rfl | ⟨ic, h3, hmem⟩) | rfl
    · exact hq iq1 h1 iq2 h2
    · have h4 := headKv_lt hdvd h2
      rcases FlashCall.mem_kvAccesses hmem with hmem | ⟨hsome, rfl⟩
      · simp only [FlashCall.kvRows, List.mem_cons, List.not_mem_nil, or_false] at hmem
        rcases hmem with rfl | rfl
        · exact hk ic h3 _ h4
        · exact hv ic h3 _ h4
      · have := hmask hsome iq1 h1 ic h3
        rwa [Int.mul_comm (ic : Int) 2] at this
    · exact hdst iq2 h2 iq1 h1

/-! ## Strides -/

/-- The outer stride covers all rows of the inner dimension; without an outer stride,
    the inner one covers a row. -/
def strideCovers (nb1 nb2 inner : Int) (row : Nat) : Prop :=
  if nb2 ≠ 0 then (inner - 1) * nb1 + row ≤ nb2 else row ≤ nb1

instance (nb1 nb2 inner : Int) (row : Nat) : Decidable (strideCovers nb1 nb2 inner row) :=
  inferInstanceAs (Decidable (if nb2 ≠ 0 then (inner - 1) * nb1 + row ≤ nb2 else row ≤ nb1))

/-- Rows of all indices stay in the range exactly when the outer stride covers. The
    offsets do not wrap around; the kernel sees `m` and `n` for the dimensions of the
    wrapper. -/
theorem span_iff {nb1 nb2 : Int} {m n inner outer row : Nat} (h1 : 0 ≤ nb1) (h2 : 0 ≤ nb2)
    (hm : 0 < m) (hn : 0 < n) (hinner : nb1 ≠ 0 → m = inner) (houter : nb2 ≠ 0 → n = outer)
    (hfit : ((m : Int) - 1) * nb1 + ((n : Int) - 1) * nb2 < 2 ^ 32) :
    (∀ i < m, ∀ j < n, (cSize (i * nb1 + j * nb2) : Int) + row ≤ spanNbytes nb1 nb2 inner outer) ↔
      strideCovers nb1 nb2 inner row := by
  have hoffset : ∀ i < m, ∀ j < n, (i : Int) * nb1 ≤ ((m : Int) - 1) * nb1 ∧
      (j : Int) * nb2 ≤ ((n : Int) - 1) * nb2 ∧
      (cSize (i * nb1 + j * nb2) : Int) = i * nb1 + j * nb2 := by
    intro i hi j hj
    have hi0 : 0 ≤ (i : Int) * nb1 := Int.mul_nonneg (by omega) h1
    have hj0 : 0 ≤ (j : Int) * nb2 := Int.mul_nonneg (by omega) h2
    have hi1 : (i : Int) * nb1 ≤ ((m : Int) - 1) * nb1 :=
      Int.mul_le_mul_of_nonneg_right (by omega) h1
    have hj1 : (j : Int) * nb2 ≤ ((n : Int) - 1) * nb2 :=
      Int.mul_le_mul_of_nonneg_right (by omega) h2
    exact ⟨hi1, hj1, cSize_eq (by omega) (by omega)⟩
  have hcast : ∀ {d : Nat}, 0 < d → ((d - 1 : Nat) : Int) = (d : Int) - 1 := by omega
  -- The last row of all decides.
  obtain ⟨-, -, hlast⟩ := hoffset (m - 1) (by omega) (n - 1) (by omega)
  rw [hcast hm, hcast hn] at hlast
  have hinner' : ((m : Int) - 1) * nb1 = ((inner : Int) - 1) * nb1 := by
    by_cases hz : nb1 = 0
    · simp [hz]
    · rw [hinner hz]
  have hspan : spanNbytes nb1 nb2 inner outer = if nb2 ≠ 0 then nb2 + ((n : Int) - 1) * nb2
      else if nb1 ≠ 0 then nb1 + ((m : Int) - 1) * nb1 else 0 := by
    unfold spanNbytes
    by_cases h0 : nb2 = 0
    · by_cases hz : nb1 = 0
      · simp [h0, hz]
      · simp only [h0, ne_eq, not_true_eq_false, if_false, hz, not_false_eq_true, if_true,
          hinner hz, Int.sub_mul, Int.mul_comm nb1]
        omega
    · simp only [h0, ne_eq, not_false_eq_true, if_true, houter h0, Int.sub_mul, Int.mul_comm nb2]
      omega
  have hmax :
      (∀ i < m, ∀ j < n, (cSize (i * nb1 + j * nb2) : Int) + row ≤ spanNbytes nb1 nb2 inner outer) ↔
      ((m : Int) - 1) * nb1 + ((n : Int) - 1) * nb2 + row ≤ spanNbytes nb1 nb2 inner outer := by
    constructor
    · intro h
      have := h (m - 1) (by omega) (n - 1) (by omega)
      rw [hcast hm, hcast hn] at this
      omega
    · intro h i hi j hj
      obtain ⟨hi1, hj1, heq⟩ := hoffset i hi j hj
      omega
  rw [hmax, hspan, strideCovers, ← hinner']
  by_cases h0 : nb2 = 0
  · by_cases hz : nb1 = 0
    · simp [h0, hz]
    · simp only [h0, hz, ne_eq, not_true_eq_false, not_false_eq_true, if_true,
        if_false, Int.mul_zero]
      omega
  · simp only [h0, ne_eq, not_false_eq_true, if_true]
    omega

/-- The entries of the mask stay in its range exactly when a row of it holds `n` of them. -/
theorem mask_iff {nb1 : Int} {m n inner : Nat} (h1 : 0 ≤ nb1) (hm : 0 < m)
    (hinner : nb1 ≠ 0 → m = inner) (hfit : nb1 * inner < 2 ^ 32) :
    (∀ i < m, ∀ j < n, (cSize (i * nb1 + j * 2) : Int) + (2 : Nat) ≤ nb1 * inner) ↔
      2 * (n : Int) ≤ nb1 := by
  have hspan : nb1 * inner = ((m : Int) - 1) * nb1 + nb1 := by
    by_cases hz : nb1 = 0
    · simp [hz]
    · rw [← hinner hz, Int.sub_mul, Int.mul_comm nb1]
      omega
  have hlast : 0 ≤ ((m : Int) - 1) * nb1 := Int.mul_nonneg (by omega) h1
  rw [hspan] at hfit ⊢
  constructor
  · -- The first entry past the stride is outside, and its offset does not wrap around.
    intro h
    by_contra hlt
    have := h (m - 1) (by omega) (nb1 / 2).toNat (by omega)
    have hcast : ((m - 1 : Nat) : Int) = (m : Int) - 1 := by omega
    rw [hcast, cSize_eq (by omega) (by omega)] at this
    omega
  · intro h i hi j hj
    have hi0 : 0 ≤ (i : Int) * nb1 := Int.mul_nonneg (by omega) h1
    have hi1 : (i : Int) * nb1 ≤ ((m : Int) - 1) * nb1 :=
      Int.mul_le_mul_of_nonneg_right (by omega) h1
    rw [cSize_eq (by omega) (by omega)]
    omega

end Ps
