-- SUMMARY: The PYNQ buffer of the host backend: how tensors are bound, set and read back, and when what is read is what was set (`buffer.cpp`).
import BonsaiTpu.Backend.Lowering
import BonsaiTpu.Layout.Pack

/-!
# Tensors in a PYNQ buffer

A buffer is one allocation on the board, and each tensor in it is bound to a range of
it. A Q1_0 matrix that is set whole is stored in the packed layout; every other set
stores its bytes as they are, and a get reads the stored bytes. `round_trip_of_kept`
and `round_trip_whole_iff` say when the bytes that were set come back.
-/

namespace Backend

open Layout (Q1_BLOCK Q1_BLOCK_BYTES ROWS_PER_BLOCK PACKED_PER_Q1_BLOCK rowblocksFor packed
  packWeightsC Sized u32 sizeT)
open Words (Byte store)

/-! ## Sizes -/

def isRepackableQ1_0 (t : Tensor) : Bool :=
  decide (t.type = .q1_0 ∧ 0 < t.ne 0 ∧ 0 < t.ne 1 ∧ t.ne 2 = 1 ∧ t.ne 3 = 1 ∧
    t.ne 0 % Q1_BLOCK = 0) && t.isContiguous

/-- `static_cast<uint32_t>`. -/
def castU32 (d : Int) : Nat := (d % 2 ^ 32).toNat

/-- `bonsai_q1a8_packed_nbytes`. -/
def packedNbytesC (rows k : Nat) : Nat :=
  sizeT 64 (u32 (rows + ROWS_PER_BLOCK - 1) / ROWS_PER_BLOCK * (k / Q1_BLOCK) * PACKED_PER_Q1_BLOCK)

def q1_0PackedSize (t : Tensor) : Nat := packedNbytesC (castU32 (t.ne 1)) (castU32 (t.ne 0))

def effectiveAllocSize (t : Tensor) : Nat :=
  if isRepackableQ1_0 t then q1_0PackedSize t else t.nbytes

def shouldRepackAsAxisQ1a8 (t : Tensor) (offset size : Nat) : Bool :=
  isRepackableQ1_0 t && decide (offset = 0 ∧ size = t.nbytes)

/-! ## Bindings -/

/-- The fields of a `BufferContext` that binding a tensor reads. -/
structure BufferContext where
  base : Option Nat
  size : Nat
  remoteHandle : Nat
  remoteNbytes : Nat

/-- `tensor_buffer_offset`; `data` is the tensor's local pointer. -/
def tensorBufferOffset (ctx : BufferContext) (data : Option Nat) (t : Tensor) : Option Nat :=
  if ctx.size = 0 then if t.nbytes = 0 then some 0 else none
  else
    match ctx.base, data with
    | some base, some data =>
      if data < base then none
      else if data - base + effectiveAllocSize t > SIZE_MAX ∨ data - base + effectiveAllocSize t >
          ctx.size then none
      else some (data - base)
    | _, _ => none

/-- `pynq_buffer_init_tensor`. A view has the binding of its source, if that is bound, and
    its offset in it. -/
def initTensor (ctx : BufferContext) (view : Option (Option RemoteBinding × Nat))
    (data : Option Nat) (t : Tensor) :
    Option RemoteBinding :=
  match view with
  | some (none, _) => none
  | some (some src, viewOffs) =>
    if src.remoteOffset + viewOffs > SIZE_MAX then none
    else
      let binding :=
        { src with remoteOffset := src.remoteOffset + viewOffs, tensorNbytes := t.nbytes }
      if remoteRangeIsValid binding 0 binding.tensorNbytes then some binding else none
  | none =>
    match tensorBufferOffset ctx data t with
    | none => none
    | some remoteOffset =>
      let nbytes := effectiveAllocSize t
      if nbytes ≠ 0 ∧ ctx.remoteHandle = 0 then none
      else
        let binding : RemoteBinding := ⟨ctx.remoteHandle, ctx.remoteNbytes, nbytes, remoteOffset⟩
        if remoteRangeIsValid binding 0 nbytes then some binding else none

/-! ## Set and get -/

structure SetCall where
  offset : Nat
  data : List Byte

/-- `pynq_buffer_set_tensor` on the bytes of the allocation; a call that logs an error
    leaves them. OP_UPLOAD_TENSOR stores a range that the allocation has. The result is
    `none` when the packer would read outside of the data. -/
def setTensor (t : Tensor) (binding : RemoteBinding) (mem : List Byte) (call : SetCall) :
    Option (List Byte) :=
  let size := call.data.length
  if !remoteRangeIsValid binding call.offset size then some mem
  else if shouldRepackAsAxisQ1a8 t call.offset size then do
    let k := castU32 (t.ne 0)
    let rows := castU32 (t.ne 1)
    let want := packedNbytesC rows k
    let (rc, repacked) ← packWeightsC 64 call.data rows k (List.replicate want 0)
    if rc ≠ 0 then some mem
    else some ((store mem (binding.remoteOffset + call.offset) repacked).getD mem)
  else some ((store mem (binding.remoteOffset + call.offset) call.data).getD mem)

/-- `pynq_buffer_get_tensor`; `none` when it logs an error and returns nothing. -/
def getTensor (binding : RemoteBinding) (mem : List Byte) (offset size : Nat) :
    Option (List Byte) :=
  if !remoteRangeIsValid binding offset size then none
  else if binding.remoteOffset + offset + size ≤ mem.length then
    some ((mem.drop (binding.remoteOffset + offset)).take size)
  else none

/-! ## Round trips -/

/-- Position `i` is in the range of a call. -/
def SetCall.Has (call : SetCall) (i : Nat) : Prop :=
  call.offset ≤ i ∧ i < call.offset + call.data.length

instance (call : SetCall) (i : Nat) : Decidable (call.Has i) :=
  inferInstanceAs (Decidable (call.offset ≤ i ∧ i < call.offset + call.data.length))

/-- Position `i` after a call, if it had `b`. -/
def SetCall.over (i : Nat) (b : Option Byte) (call : SetCall) : Option Byte :=
  if call.Has i then call.data[i - call.offset]? else b

/-- The byte that the last call with position `i` in its range has for it. -/
def lastSet (calls : List SetCall) (i : Nat) : Option Byte := calls.foldl (SetCall.over i) none

/-- The calls are ranges of the tensor. -/
def InTensor (t : Tensor) (calls : List SetCall) : Prop :=
  ∀ call ∈ calls, call.offset + call.data.length ≤ t.nbytes

/-- Together they cover it. -/
def Covers (t : Tensor) (calls : List SetCall) : Prop :=
  ∀ i < t.nbytes, ∃ call ∈ calls, call.Has i

/-- Whatever the allocation held: after the calls, getting the whole tensor returns the
    bytes that were set. -/
def RoundTrip (t : Tensor) (binding : RemoteBinding) (calls : List SetCall) : Prop :=
  ∀ mem, mem.length = binding.handleNbytes → ∃ mem' bytes,
    calls.foldlM (setTensor t binding) mem = some mem' ∧
    getTensor binding mem' 0 t.nbytes = some bytes ∧ bytes.length = t.nbytes ∧ ∀ i < t.nbytes,
    bytes[i]? = lastSet calls i

/-- The size that ggml has for a Q1_0 matrix, and dimensions of 32 bits. -/
structure Q1Sized (t : Tensor) : Prop where
  nbytes : t.nbytes = (t.ne 1).toNat * ((t.ne 0).toNat / Q1_BLOCK) * Q1_BLOCK_BYTES
  rows : t.ne 1 + 7 < 2 ^ 32
  cols : t.ne 0 < 2 ^ 32

/-- The packer maps the data of a matrix to itself. -/
def PacksToItself (t : Tensor) (data : List Byte) : Prop :=
  ∃ out, packWeightsC 64 data (castU32 (t.ne 1)) (castU32 (t.ne 0))
    (List.replicate (q1_0PackedSize t) 0) = some (0, out) ∧
    out.take t.nbytes = data

/-- A call that is not repacked; or else the packed bytes fit the allocation and start
    with the data. -/
def Kept (t : Tensor) (binding : RemoteBinding) (call : SetCall) : Prop :=
  shouldRepackAsAxisQ1a8 t call.offset call.data.length = true →
    binding.remoteOffset + q1_0PackedSize t ≤ binding.handleNbytes ∧ PacksToItself t call.data

theorem castU32_eq {d : Int} (h0 : 0 ≤ d) (h : d < 2 ^ 32) : castU32 d = d.toNat := by
  unfold castU32
  omega

section Repackable

variable {t : Tensor} (hr : isRepackableQ1_0 t = true) (hs : Q1Sized t)

include hr hs

theorem isRepackableQ1_0_sized :
    castU32 (t.ne 1) = (t.ne 1).toNat ∧ castU32 (t.ne 0) = (t.ne 0).toNat ∧
    Sized 64 (t.ne 1).toNat (t.ne 0).toNat := by
  simp only [isRepackableQ1_0, Bool.and_eq_true, decide_eq_true_eq] at hr
  obtain ⟨⟨-, hk, hrows, -, -, hblock⟩, -⟩ := hr
  have hrowsLt := hs.rows
  have hcols := hs.cols
  refine ⟨castU32_eq hrows.le (by omega), castU32_eq hk.le hcols,
    ⟨by omega, by omega, by omega, by omega, ?_, Or.inl rfl⟩⟩
  unfold Layout.Q1_BLOCK at hblock ⊢
  omega

theorem q1_0PackedSize_eq :
    q1_0PackedSize t = rowblocksFor (t.ne 1).toNat * ((t.ne 0).toNat / Q1_BLOCK) *
      PACKED_PER_Q1_BLOCK := by
  obtain ⟨hrows, hk, hsized⟩ := isRepackableQ1_0_sized hr hs
  have hlt := hsized.rowsLt
  have hrowblocks : u32 ((t.ne 1).toNat + ROWS_PER_BLOCK - 1) =
      (t.ne 1).toNat + ROWS_PER_BLOCK - 1 := by
    apply Nat.mod_eq_of_lt
    unfold Layout.ROWS_PER_BLOCK
    omega
  rw [q1_0PackedSize, hrows, hk, packedNbytesC, hrowblocks]
  exact hsized.sizeT_eq (Nat.le_refl _)

theorem nbytes_le_packed : t.nbytes ≤ q1_0PackedSize t := by
  rw [q1_0PackedSize_eq hr hs, hs.nbytes]
  exact Sized.source_le

theorem nbytes_pos : 0 < t.nbytes := by
  obtain ⟨-, -, hsized⟩ := isRepackableQ1_0_sized hr hs
  rw [hs.nbytes]
  exact Nat.mul_pos (Nat.mul_pos hsized.rowsPos hsized.blocks_pos) (by decide)

/-- The packer succeeds on data of the size of the matrix. -/
theorem packWeightsC_ok {data : List Byte} (hdata : data.length = t.nbytes) :
    ∃ out, packWeightsC 64 data (castU32 (t.ne 1)) (castU32 (t.ne 0))
      (List.replicate (q1_0PackedSize t) 0) = some (0, out) ∧
      out.length = q1_0PackedSize t := by
  obtain ⟨hrows, hk, hsized⟩ := isRepackableQ1_0_sized hr hs
  have hsize := q1_0PackedSize_eq hr hs
  have hpack := Layout.packWeightsC_eq hsized (hdata.trans hs.nbytes)
    (show _ ≤ (List.replicate (q1_0PackedSize t) (0 : Byte)).length by
    rw [List.length_replicate, hsize])
  refine ⟨_, by rw [hrows, hk, hpack], ?_⟩
  rw [List.length_append, List.length_drop, List.length_replicate, Layout.length_packed, hsize]
  omega

end Repackable

/-- The binding of a tensor covers it. -/
theorem initTensor_valid {ctx : BufferContext} {view : Option (Option RemoteBinding × Nat)}
    {data : Option Nat} {t : Tensor}
    {binding : RemoteBinding} (h : initTensor ctx view data t = some binding)
    (hs : isRepackableQ1_0 t = true → Q1Sized t) :
    remoteRangeIsValid binding 0 t.nbytes = true := by
  unfold initTensor at h
  split at h
  · cases h
  · split at h
    · cases h
    · dsimp only at h
      split at h
      · next hvalid =>
        cases h
        exact hvalid
      · cases h
  · split at h
    · cases h
    · dsimp only at h
      split at h
      · cases h
      · split at h
        · next hvalid =>
          cases h
          have hle : t.nbytes ≤ effectiveAllocSize t := by
            unfold effectiveAllocSize
            split
            · next hr => exact nbytes_le_packed hr (hs hr)
            · exact Nat.le_refl _
          simp only [remoteRangeIsValid, decide_eq_true_eq] at hvalid ⊢
          omega
        · cases h

section Calls

variable {t : Tensor} {binding : RemoteBinding} {mem : List Byte}
    (hvalid : remoteRangeIsValid binding 0 t.nbytes = true)
  (hs : isRepackableQ1_0 t = true → Q1Sized t)

include hvalid

theorem remoteRangeIsValid_of_le {offset size : Nat} (h : offset + size ≤ t.nbytes) :
    remoteRangeIsValid binding offset size = true ∧ binding.remoteOffset + (offset + size) ≤
      binding.handleNbytes := by
  simp only [remoteRangeIsValid, decide_eq_true_eq] at hvalid ⊢
  omega

theorem getTensor_whole (hmem : mem.length = binding.handleNbytes) :
    getTensor binding mem 0 t.nbytes = some ((mem.drop binding.remoteOffset).take t.nbytes) := by
  obtain ⟨-, hfit⟩ := remoteRangeIsValid_of_le hvalid (Nat.le_of_eq (Nat.zero_add t.nbytes))
  unfold getTensor
  rw [hvalid, Bool.not_true, if_neg Bool.false_ne_true, if_pos (by omega), Nat.add_zero]

/-- A call that is not repacked stores its data. -/
theorem setTensor_raw (hmem : mem.length = binding.handleNbytes) {call : SetCall}
    (hin : call.offset + call.data.length ≤ t.nbytes)
    (hraw : shouldRepackAsAxisQ1a8 t call.offset call.data.length = false) :
    ∃ mem', setTensor t binding mem call = some mem' ∧ mem'.length = mem.length ∧
      ∀ i, mem'[i]? = if binding.remoteOffset + call.offset ≤ i ∧
      i < binding.remoteOffset + call.offset + call.data.length
        then call.data[i - (binding.remoteOffset + call.offset)]? else mem[i]? := by
  obtain ⟨hrange, hfit⟩ := remoteRangeIsValid_of_le hvalid hin
  obtain ⟨mem', hstore, hlen, hget⟩ :=
    Words.store_spec (show binding.remoteOffset + call.offset + call.data.length ≤
      mem.length by omega)
  refine ⟨mem', ?_, hlen, hget⟩
  simp only [setTensor, hrange, hraw, Bool.not_true, Bool.false_eq_true, if_false, hstore,
    Option.getD_some]

include hs

/-- A repacked call stores the packed bytes, if they fit, and nothing otherwise. -/
theorem setTensor_repacked {data : List Byte} (mem : List Byte)
    (hr : isRepackableQ1_0 t = true) (hdata : data.length = t.nbytes) :
    ∃ out, packWeightsC 64 data (castU32 (t.ne 1)) (castU32 (t.ne 0))
      (List.replicate (q1_0PackedSize t) 0) = some (0, out) ∧
      setTensor t binding mem ⟨0, data⟩ = some ((store mem binding.remoteOffset out).getD mem) ∧
      out.length = q1_0PackedSize t := by
  obtain ⟨out, hpack, hlen⟩ := packWeightsC_ok hr (hs hr) hdata
  have hrepack : shouldRepackAsAxisQ1a8 t 0 t.nbytes = true := by simp [shouldRepackAsAxisQ1a8, hr]
  have hpack' : packWeightsC 64 data (castU32 (t.ne 1)) (castU32 (t.ne 0))
      (List.replicate (packedNbytesC (castU32 (t.ne 1)) (castU32 (t.ne 0))) 0) = some (0, out) :=
    hpack
  refine ⟨out, hpack, ?_, hlen⟩
  simp only [setTensor, hdata, hvalid, hrepack, Bool.not_true, Bool.false_eq_true,
    if_false, if_true]
  rw [hpack']
  rfl

theorem setTensor_kept (hmem : mem.length = binding.handleNbytes) {call : SetCall}
    (hin : call.offset + call.data.length ≤ t.nbytes) (hkept : Kept t binding call) :
    ∃ mem', setTensor t binding mem call = some mem' ∧ mem'.length = mem.length ∧
      ∀ i < t.nbytes, mem'[binding.remoteOffset + i]? =
        call.over i mem[binding.remoteOffset + i]? := by
  cases hrepack : shouldRepackAsAxisQ1a8 t call.offset call.data.length with
  | false =>
    obtain ⟨mem', hset, hlen, hget⟩ := setTensor_raw hvalid hmem hin hrepack
    refine ⟨mem', hset, hlen, fun i _ => ?_⟩
    have hindex : binding.remoteOffset + i - (binding.remoteOffset + call.offset) =
        i - call.offset := by omega
    rw [hget, hindex, SetCall.over]
    by_cases hhas : call.Has i
    · rw [if_pos hhas, if_pos (by unfold SetCall.Has at hhas; omega)]
    · rw [if_neg hhas, if_neg (by unfold SetCall.Has at hhas; omega)]
  | true =>
    obtain ⟨offset, data⟩ := call
    obtain ⟨hfit, out', hpack', htake⟩ := hkept hrepack
    simp only [shouldRepackAsAxisQ1a8, Bool.and_eq_true, decide_eq_true_eq] at hrepack
    obtain ⟨hr, rfl, hdata⟩ := hrepack
    obtain ⟨out, hpack, hset, hlen⟩ := setTensor_repacked hvalid hs mem hr hdata
    obtain rfl : out' = out := by
      have h := hpack'.symm.trans hpack
      simpa using h
    obtain ⟨mem', hstore, hlen', hget⟩ :=
      Words.store_spec (show binding.remoteOffset + out'.length ≤ mem.length by omega)
    refine ⟨mem', by rw [hset, hstore, Option.getD_some], hlen', fun i hi => ?_⟩
    have hle := nbytes_le_packed hr (hs hr)
    simp only at hdata htake
    rw [hget, if_pos (by omega), SetCall.over, if_pos (by simp only [SetCall.Has]; omega),
      Nat.add_sub_cancel_left, Nat.sub_zero, ← htake, List.getElem?_take_of_lt hi]

/-- What the tensor holds after kept calls. -/
theorem sets_kept (calls : List SetCall) (hmem : mem.length = binding.handleNbytes)
    (hin : InTensor t calls) (hkept : ∀ call ∈ calls, Kept t binding call) :
    ∃ mem', calls.foldlM (setTensor t binding) mem = some mem' ∧ mem'.length = mem.length ∧
      ∀ i < t.nbytes, mem'[binding.remoteOffset + i]? =
        calls.foldl (SetCall.over i) mem[binding.remoteOffset + i]? := by
  induction calls generalizing mem with
  | nil => exact ⟨mem, rfl, rfl, fun _ _ => rfl⟩
  | cons call calls ih =>
    rw [InTensor, List.forall_mem_cons] at hin
    rw [List.forall_mem_cons] at hkept
    obtain ⟨mem₁, hset, hlen, hget⟩ := setTensor_kept hvalid hs hmem hin.1 hkept.1
    obtain ⟨mem₂, hsets, hlen', hget'⟩ := ih (hlen.trans hmem) hin.2 hkept.2
    refine ⟨mem₂, ?_, hlen'.trans hlen, fun i hi => ?_⟩
    · rw [List.foldlM_cons, hset]
      exact hsets
    · rw [List.foldl_cons, ← hget i hi]
      exact hget' i hi

end Calls

/-- Where some call has the position, what was there before does not matter. -/
theorem foldl_over_of_has {calls : List SetCall} {i : Nat} (h : ∃ call ∈ calls, call.Has i)
    (b b' : Option Byte) :
    calls.foldl (SetCall.over i) b = calls.foldl (SetCall.over i) b' := by
  induction calls generalizing b b' with
  | nil => simp at h
  | cons call calls ih =>
    rw [List.foldl_cons, List.foldl_cons]
    by_cases hhas : call.Has i
    · rw [SetCall.over, SetCall.over, if_pos hhas, if_pos hhas]
    · obtain ⟨c, hmem, hc⟩ := h
      rcases List.mem_cons.mp hmem with rfl | hmem
      · exact absurd hc hhas
      · exact ih ⟨c, hmem, hc⟩ _ _

section Bound

variable {t : Tensor} {binding : RemoteBinding}
    (hvalid : remoteRangeIsValid binding 0 t.nbytes = true)
  (hs : isRepackableQ1_0 t = true → Q1Sized t)

theorem lastSet_whole {data : List Byte} (hdata : data.length = t.nbytes) {i : Nat}
    (hi : i < t.nbytes) :
    lastSet [⟨0, data⟩] i = data[i]? := by
  have hhas : SetCall.Has ⟨0, data⟩ i := ⟨Nat.zero_le i, by simp only; omega⟩
  simp only [lastSet, List.foldl_cons, List.foldl_nil, SetCall.over, if_pos hhas, Nat.sub_zero]

include hvalid hs

/-- Calls that cover the tensor and are all kept come back. -/
theorem round_trip_of_kept {calls : List SetCall} (hin : InTensor t calls)
    (hcovers : Covers t calls)
    (hkept : ∀ call ∈ calls, Kept t binding call) : RoundTrip t binding calls := by
  intro mem hmem
  obtain ⟨mem', hsets, hlen, hget⟩ := sets_kept hvalid hs calls hmem hin hkept
  obtain ⟨-, hfit⟩ := remoteRangeIsValid_of_le hvalid (Nat.le_of_eq (Nat.zero_add t.nbytes))
  refine ⟨mem', _, hsets, getTensor_whole hvalid (hlen.trans hmem), ?_, fun i hi => ?_⟩
  · rw [List.length_take, List.length_drop]
    omega
  · rw [List.getElem?_take_of_lt hi, List.getElem?_drop, hget i hi]
    exact foldl_over_of_has (hcovers i hi) _ _

/-- So do calls none of which repacks. -/
theorem round_trip_of_raw {calls : List SetCall} (hin : InTensor t calls) (hcovers : Covers t calls)
    (hraw : ∀ call ∈ calls, shouldRepackAsAxisQ1a8 t call.offset call.data.length = false) :
    RoundTrip t binding calls := by
  refine round_trip_of_kept hvalid hs hin hcovers fun call hcall hrepack => ?_
  rw [hraw call hcall] at hrepack
  cases hrepack

/-- After a repacked call that comes back, the stored packed bytes are the data. -/
theorem stored_of_roundTrip {data : List Byte} (hdata : data.length = t.nbytes)
    (hr : isRepackableQ1_0 t = true)
    (h : RoundTrip t binding [⟨0, data⟩]) {mem : List Byte}
    (hmem : mem.length = binding.handleNbytes) :
    ∃ out, packWeightsC 64 data (castU32 (t.ne 1)) (castU32 (t.ne 0))
      (List.replicate (q1_0PackedSize t) 0) = some (0, out) ∧
      out.length = q1_0PackedSize t ∧
      ∀ i < t.nbytes,
        ((store mem binding.remoteOffset out).getD mem)[binding.remoteOffset + i]? = data[i]? := by
  obtain ⟨out, hpack, hset, hlen⟩ := setTensor_repacked hvalid hs mem hr hdata
  obtain ⟨mem', bytes, hsets, hget, -, hbytes⟩ := h mem hmem
  rw [List.foldlM_cons, hset] at hsets
  cases hsets
  refine ⟨out, hpack, hlen, fun i hi => ?_⟩
  rw [← lastSet_whole hdata hi, ← hbytes i hi]
  unfold getTensor at hget
  rw [hvalid, Bool.not_true, if_neg Bool.false_ne_true] at hget
  split at hget
  · cases hget
    rw [List.getElem?_take_of_lt hi, List.getElem?_drop]
    rfl
  · cases hget

/-- The packed bytes that do not fit are not stored, so the tensor keeps what it held. -/
theorem fits_of_roundTrip {data : List Byte} (hdata : data.length = t.nbytes)
    (hr : isRepackableQ1_0 t = true)
    (h : RoundTrip t binding [⟨0, data⟩]) :
    binding.remoteOffset + q1_0PackedSize t ≤ binding.handleNbytes := by
  by_contra hno
  have hpos := nbytes_pos hr (hs hr)
  obtain ⟨-, hfit⟩ := remoteRangeIsValid_of_le hvalid (Nat.le_of_eq (Nat.zero_add t.nbytes))
  obtain ⟨b, hb⟩ : ∃ b, data[0]? = some b := ⟨_, List.getElem?_eq_getElem (by omega)⟩
  have hmem : (List.replicate binding.handleNbytes (b + 1)).length = binding.handleNbytes :=
    List.length_replicate
  obtain ⟨out, -, hlen, hout⟩ := stored_of_roundTrip hvalid hs hdata hr h hmem
  have hstore : store (List.replicate binding.handleNbytes (b + 1))
      binding.remoteOffset out = none :=
    if_neg (by omega)
  have hzero := hout 0 hpos
  rw [hstore, Option.getD_none, hb, List.getElem?_replicate, if_pos (by omega), Option.some.injEq]
    at hzero
  have hne : ∀ x : Byte, x + 1 ≠ x := by decide
  exact hne b hzero

/-- A whole call comes back exactly when it is kept. -/
theorem round_trip_whole_iff {data : List Byte} (hdata : data.length = t.nbytes) :
    RoundTrip t binding [⟨0, data⟩] ↔ Kept t binding ⟨0, data⟩ := by
  constructor
  · intro h hrepack
    simp only [shouldRepackAsAxisQ1a8, Bool.and_eq_true] at hrepack
    have hr := hrepack.1
    have hfits := fits_of_roundTrip hvalid hs hdata hr h
    have hle := nbytes_le_packed hr (hs hr)
    have hmem : (List.replicate binding.handleNbytes (0 : Byte)).length = binding.handleNbytes :=
      List.length_replicate
    obtain ⟨out, hpack, hlen, hout⟩ := stored_of_roundTrip hvalid hs hdata hr h hmem
    obtain ⟨mem', hstore, -, hget⟩ :=
      Words.store_spec (show binding.remoteOffset + out.length ≤ _ by rw [hmem]; omega)
    refine ⟨hfits, out, hpack, List.ext_getElem? fun i => ?_⟩
    rcases Nat.lt_or_ge i t.nbytes with hi | hi
    · rw [List.getElem?_take_of_lt hi, ← hout i hi, hstore, Option.getD_some, hget,
        if_pos (by omega), Nat.add_sub_cancel_left]
    · rw [List.getElem?_take_eq_none hi, List.getElem?_eq_none (by simp only; omega)]
  · intro h
    refine round_trip_of_kept hvalid hs ?_ ?_ ?_
    · simp [InTensor, hdata]
    · intro i hi
      exact ⟨⟨0, data⟩, List.mem_singleton_self _, Nat.zero_le i, by simp only; omega⟩
    · simpa using h

end Bound

/-- For every bound tensor: sets that cover it, whole or in parts, come back if each of
    them is kept, and one set of the whole tensor only then. -/
theorem buffer_round_trip {ctx : BufferContext} {view : Option (Option RemoteBinding × Nat)}
    {pointer : Option Nat}
    {t : Tensor} {binding : RemoteBinding} (hbound : initTensor ctx view pointer t = some binding)
    (hs : isRepackableQ1_0 t = true → Q1Sized t) :
    (∀ calls, InTensor t calls → Covers t calls → (∀ call ∈ calls, Kept t binding call) →
      RoundTrip t binding calls) ∧
      ∀ data : List Byte, data.length = t.nbytes →
        (RoundTrip t binding [⟨0, data⟩] ↔ Kept t binding ⟨0, data⟩) := by
  have hvalid := initTensor_valid hbound hs
  exact ⟨fun calls hin hcovers hkept => round_trip_of_kept hvalid hs hin hcovers hkept,
    fun data hdata => round_trip_whole_iff hvalid hs hdata⟩

/-- A weight matrix of one rowblock and one block per row. -/
def smallMatrix : Tensor where
  type := .q1_0
  ne dim := if dim = 0 then 128 else if dim = 1 then 8 else 1
  isContiguous := true
  nbytes := 144

/-- A buffer that has just the matrix. -/
def smallBuffer : BufferContext := ⟨some 4096, 144, 1, 144⟩

theorem smallMatrix_bound :
    initTensor smallBuffer none (some 4096) smallMatrix = some ⟨1, 144, 144, 0⟩ := rfl

theorem smallMatrix_sized : Q1Sized smallMatrix := ⟨by decide, by decide, by decide⟩

/-- Set in two halves, the matrix comes back. -/
theorem buffer_round_trip_halves :
    RoundTrip smallMatrix ⟨1, 144, 144, 0⟩ [⟨0, List.replicate 72 1⟩,
      ⟨72, List.replicate 72 2⟩] := by
  refine (buffer_round_trip smallMatrix_bound fun _ => smallMatrix_sized).1 _ ?_ ?_ ?_
  · simp [InTensor, smallMatrix]
  · intro i hi
    have hi' : i < 144 := hi
    by_cases hlt : i < 72
    · exact ⟨_, List.mem_cons_self, Nat.zero_le i, by simpa using hlt⟩
    · exact ⟨_, List.mem_cons_of_mem _ (List.mem_singleton_self _), Nat.not_lt.mp hlt,
        by simpa using hi'⟩
  · intro call hcall
    simp only [List.mem_cons, List.not_mem_nil, or_false] at hcall
    intro hrepack
    rcases hcall with rfl | rfl <;> simp [shouldRepackAsAxisQ1a8, smallMatrix] at hrepack

/-- Set whole, it comes back in the packed layout. -/
theorem whole_matrix_comes_back_packed :
    initTensor smallBuffer none (some 4096) smallMatrix = some ⟨1, 144, 144, 0⟩ ∧
      ¬ RoundTrip smallMatrix ⟨1, 144, 144, 0⟩
        [⟨0, (List.range 144).map fun i => BitVec.ofNat 8 i⟩] := by
  refine ⟨smallMatrix_bound, ?_⟩
  have hvalid := initTensor_valid smallMatrix_bound fun _ => smallMatrix_sized
  rw [round_trip_whole_iff hvalid (fun _ => smallMatrix_sized) (by simp [smallMatrix])]
  intro h
  obtain ⟨-, out, hpack, htake⟩ := h (by decide +kernel)
  -- The second scale is that of the second row.
  have hbyte :
      (packWeightsC 64 ((List.range 144).map fun i => BitVec.ofNat 8 i) (castU32 (smallMatrix.ne 1))
      (castU32 (smallMatrix.ne 0)) (List.replicate (q1_0PackedSize smallMatrix) 0)).map (fun r =>
    r.2[2]?) =
      some (some 18#8) := by decide +kernel
  have hthree := congrArg (fun l : List Byte => l[2]?) htake
  rw [hpack] at hbyte
  simp only [Option.map_some, Option.some.injEq] at hbyte
  rw [List.getElem?_take_of_lt (by decide), hbyte] at hthree
  exact absurd hthree (by decide)

end Backend
