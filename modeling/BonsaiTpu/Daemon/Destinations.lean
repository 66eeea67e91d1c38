-- SUMMARY: The PS kernels write no tensor but the destination of their op, as long as their C functions stay in the buffers they are given.
import BonsaiTpu.Daemon.Native

/-!
# Destinations

A kernel takes its operands from the op and checks little of it: strides, indices and
shapes may be anything. On fake slabs every byte that the wrapper writes is one of the tensor
that the op names as `dst`, because it goes through `write` or a view that the allocator
has checked. What the C function writes goes to a buffer of the wrapper; `GET_ROWS` and
`SET_ROWS` do not check that the rows fit the buffers, and where they do not a run ends in
`Ps.overrun`, of which nothing is said.
-/

namespace Daemon.Native

open Wire (Json Dict)
open Board (Byte Err Allocator Prog TensorRecord Touched Wrote locations rangeLocations fakeIo)
open Ps (Op Operand Pointer RowsCall bind_eq_ok required_eq_ok)
open Ps.ZeroCopy (Load)

variable {κ α β ι : Type}

/-! ## Programs on the allocator -/

/-- A program on the allocator that writes only tensors with some handles. -/
abbrev Stays (κ : Type) (dst : Int → Prop) (p : Prog (List Byte) α) (post : α → Prop) : Prop :=
  Writing dst (onAllocator p : Work (List Byte) κ α) post

section

variable {dst : Int → Prop} {p : Prog (List Byte) α} {post : α → Prop} {post' : β → Prop}

theorem onAllocator_bind (p : Prog (List Byte) α) (f : α → Prog (List Byte) β) :
    (onAllocator (p >>= f) : Work (List Byte) κ β) = onAllocator p >>=
      fun x => onAllocator (f x) := by
  funext b
  simp only [onAllocator, EStateM.run_bind]
  simp only [bind, EStateM.bind, onAllocator]
  cases p.run b.allocator <;> rfl

theorem Stays.bind {f : α → Prog (List Byte) β} (hp : Stays κ dst p post)
    (hf : ∀ x, post x → Stays κ dst (f x) post') :
    Stays κ dst (p >>= f) post' := by
  rw [Stays, onAllocator_bind]
  exact Writing.bind hp hf

theorem Stays.pure {x : α} (h : post x) :
    Stays κ dst (pure x : Prog (List Byte) α) post := Writing.pure h

theorem Stays.throw (e : Err) : Stays κ dst (throw e : Prog (List Byte) α) post := Writing.throw e

theorem Stays.lift {x : Except Err α} (h : ∀ v, x = .ok v → post v) :
    Stays κ dst (Board.liftExcept x) post := by
  cases x with
  | ok v => exact .pure (h v rfl)
  | error e => exact .throw e

/-- A program that changes bytes of tensors with some handles only, run by run. -/
theorem Stays.of_touched (h : ∀ a, Sound a → Touched (Named a dst) a (Board.after p a)) :
    Stays κ dst p fun _ => True := by
  intro b hb
  have htouched := h b.allocator hb
  refine ⟨?_, fun _ _ _ => trivial⟩
  simp only [Board.after, Daemon.after, onAllocator, EStateM.run] at htouched ⊢
  cases hp : p b.allocator <;> rw [hp] at htouched <;> exact htouched

theorem Stays.touched {a : Allocator (List Byte)} (h : Stays Unit dst p post) (ha : Sound a) :
    Touched (Named a dst) a (Board.after p a) := by
  have htouched := (h ⟨a, ()⟩ ha).1
  simp only [Board.after, Daemon.after, onAllocator, EStateM.run] at htouched ⊢
  cases hp : p a <;> rw [hp] at htouched <;> exact htouched

/-- A program that leaves the allocator as it is. -/
theorem Stays.reads (h : ∀ a, Sound a → Board.after p a = a) : Stays κ dst p fun _ => True :=
  .of_touched fun a ha => by
    rw [h a ha]
    exact Touched.refl _ a

theorem Stays.get : Stays κ dst (get : Prog (List Byte) (Allocator (List Byte))) fun _ => True :=
  .reads fun _ _ => rfl

theorem Stays.forM {body : ι → Prog (List Byte) Unit} {ts : List ι}
    (h : ∀ t ∈ ts, Stays κ dst (body t) fun _ => True) :
    Stays κ dst (forM ts body) fun _ => True := by
  induction ts with
  | nil => exact .pure trivial
  | cons t ts ih =>
    rw [List.forM_cons]
    exact (h t List.mem_cons_self).bind fun _ _ =>
      ih fun t' ht' => h t' (List.mem_cons_of_mem t ht')

theorem Stays.mapM {f : ι → Prog (List Byte) α} {l : List ι}
    (h : ∀ i ∈ l, Stays κ dst (f i) fun _ => True) :
    Stays κ dst (l.mapM f) fun _ => True := by
  induction l with
  | nil =>
    rw [List.mapM_nil]
    exact .pure trivial
  | cons i l ih =>
    rw [List.mapM_cons]
    exact (h i List.mem_cons_self).bind fun _ _ =>
      (ih fun j hj => h j (List.mem_cons_of_mem i hj)).bind fun _ _ => .pure trivial

theorem Stays.read (handle offset size : Int) (coherent : Bool) :
    Stays κ dst (Board.read fakeIo handle offset size coherent) fun _ => True := by
  refine .reads fun a ha => ?_
  rw [Board.after]
  rcases Board.run_validateRange a handle offset size with ⟨r, hrange, -⟩ | ⟨-, code, message, herr⟩
  · rw [Board.run_read ha.inv ha.filled hrange]
  · simp only [Board.read, EStateM.run_bind, herr]

theorem Stays.write {handle : Int} (h : dst handle) (offset : Int) (data : List Byte)
    (coherent : Bool) :
    Stays κ dst (Board.write fakeIo handle offset data coherent) fun _ => True := by
  refine .of_touched fun a ha => ?_
  rw [Board.after]
  rcases Board.run_validateRange a handle offset data.length with ⟨r, hrange, -⟩ |
    ⟨-, code, message, herr⟩
  · obtain ⟨a', hrun, hwrote⟩ := Board.run_write ha.inv ha.filled hrange coherent
    rw [hrun]
    refine (Touched.refl _ a).wrote hwrote fun loc hloc => ?_
    exact ⟨r, hrange.mem, (Board.lookup_eq_some hrange.1).2 ▸ h,
      List.mem_of_mem_drop (List.mem_of_mem_take hloc)⟩
  · simp only [Board.write, EStateM.run_bind, herr]
    exact Touched.refl _ a

theorem Stays.memory (pointer : Pointer) (off : Nat) :
    Stays κ dst (pointer.memory off) fun _ => True := by
  refine .reads fun a _ => ?_
  rw [Board.after]
  cases pointer with
  | buffer bytes => rfl
  | slab index offset =>
    simp only [Pointer.memory, Board.getSlab, EStateM.run_bind, EStateM.run_get]
    cases a.slabs[index]? <;> rfl

end

/-! ## Staging -/

theorem slabPointer_unmapped (a : Allocator (List Byte)) (handle offset nbytes : Int) :
    ∃ e, Ps.slabPointer a unmapped handle offset nbytes = .error e := by
  rw [Ps.slabPointer]
  cases a.slabView handle offset nbytes with
  | error e => exact ⟨e, rfl⟩
  | ok view => exact ⟨_, rfl⟩

section

variable {dst : Int → Prop}

theorem Stays.readableBase (handle offset nbytes : Int) :
    Stays κ dst (Ps.SetRows.readableBase unmapped handle offset nbytes) fun _ => True := by
  refine Stays.get.bind fun a _ => ?_
  obtain ⟨e, he⟩ := slabPointer_unmapped a handle offset nbytes
  rw [he]
  cases e with
  | allocator code message => exact (Stays.read _ _ _ _).bind fun _ _ => .pure trivial
  | _ => exact .throw _

theorem Stays.inPtr (o : Operand) : Stays κ dst (inPtr o) fun _ => True :=
  (Stays.readableBase _ _ _).bind fun _ _ => .memory _ _

theorem Stays.createStringBuffer (nbytes : Int) :
    Stays κ dst (Ps.GetRows.createStringBuffer nbytes) fun _ => True := by
  rw [Ps.GetRows.createStringBuffer]
  split
  · exact .throw _
  · exact .pure trivial

/-- The output of a kernel is a buffer. -/
def IsBuffer (pointer : Pointer) : Prop := ∃ bytes, pointer = .buffer bytes

theorem Stays.writableBase (o : Operand) : Stays κ dst (writableBase o) IsBuffer := by
  refine Stays.get.bind fun a _ => ?_
  have hbuffer :
      Stays κ dst (Pointer.buffer <$> Ps.GetRows.createStringBuffer o.nbytes) IsBuffer := by
    rw [map_eq_pure_bind]
    exact (Stays.createStringBuffer _).bind fun bytes _ => .pure ⟨bytes, rfl⟩
  obtain ⟨e, he⟩ := slabPointer_unmapped a o.handle o.offset o.nbytes
  rw [he]
  cases e with
  | allocator code message =>
    cases code with
    | multiExtent | invalidRequest => exact hbuffer
    | _ => exact .throw _
  | _ => exact .throw _

theorem Stays.finish {pointer : Pointer} (hpointer : IsBuffer pointer) {o : Operand}
    (ho : dst o.handle) (out : List Byte) :
    Stays κ dst (finish pointer o out) fun _ => True := by
  obtain ⟨bytes, rfl⟩ := hpointer
  exact .write ho _ _ _

theorem Stays.check (symbol : String) (rc : Int) : Stays κ dst (check symbol rc) fun _ => True := by
  rw [Native.check]
  split
  · exact .throw _
  · exact .pure trivial

theorem Stays.glue (symbol : String) (rc : Int) (srcs : List Operand) {o : Operand}
    (ho : dst o.handle)
    (fn : List (List Byte) → List Byte → List Byte) :
    Stays κ dst (glue symbol rc srcs o fn) fun _ => True :=
  (Stays.mapM fun src _ => .inPtr src).bind fun _ _ =>
    (Stays.writableBase o).bind fun _ hpointer =>
      (Stays.memory _ _).bind fun _ _ => (Stays.check _ _).bind fun _ _ => .finish hpointer ho _

end

/-! ## Rows -/

section

variable {dst : Int → Prop} (ops : Ps.FloatOps (BitVec 32)) (sizeBits : Nat)

/-- The return code of a row is looked at before its buffer is written. -/
theorem Stays.callRow (ty : Ps.GetRows.RowType) {call : RowsCall} (hdst : dst call.dst.handle)
    (src : Ps.GetRows.SourceRow)
    (srcPtr : Pointer) {dstPtr : Pointer} (hpointer : IsBuffer dstPtr) (dstRowOffset : Int) :
    Stays κ dst (Ps.GetRows.callRow ops sizeBits ty call src srcPtr dstPtr dstRowOffset)
      fun _ => True := by
  obtain ⟨buffer, rfl⟩ := hpointer
  refine (Stays.memory _ _).bind fun srcMem _ => (Stays.memory _ _).bind fun dstMem _ => ?_
  split
  · exact .throw _
  · next rc out _ =>
    have hcheck : Stays κ dst (Ps.GetRows.checkGetRowsRc ty rc) fun _ => True := by
      rw [Ps.GetRows.checkGetRowsRc]
      split
      · exact .throw _
      · exact .pure trivial
    exact hcheck.bind fun _ _ => .write hdst _ _ _

theorem Stays.dstPointer (handle offset nbytes : Int) :
    Stays κ dst (Ps.GetRows.dstPointer unmapped handle offset nbytes) IsBuffer := by
  refine Stays.get.bind fun a _ => ?_
  obtain ⟨e, he⟩ := slabPointer_unmapped a handle offset nbytes
  rw [he]
  cases e with
  | allocator code message =>
    cases code with
    | invalidRequest => exact (Stays.createStringBuffer _).bind fun bytes _ => .pure ⟨bytes, rfl⟩
    | _ => exact .throw _
  | _ => exact .throw _

theorem Stays.sourcePointer (handle offset nbytes : Int) :
    Stays κ dst (Ps.GetRows.sourcePointer unmapped handle offset nbytes) fun _ => True := by
  refine Stays.get.bind fun a _ => ?_
  obtain ⟨e, he⟩ := slabPointer_unmapped a handle offset nbytes
  rw [he]
  cases e with
  | allocator code message =>
    cases code with
    | invalidRequest =>
      exact (Stays.createStringBuffer _).bind fun _ _ =>
        (Stays.read _ _ _ _).bind fun _ _ => .pure trivial
    | _ => exact .throw _
  | _ => exact .throw _

theorem Stays.getRow (ty : Ps.GetRows.RowType) {call : RowsCall} (hdst : dst call.dst.handle)
    (rowblockNbytes : Nat) (indicesBytes : List Byte) (t : Nat × Nat × Nat) :
    Stays κ dst (Ps.GetRows.runRow ops sizeBits unmapped ty call rowblockNbytes indicesBytes t)
      fun _ => True := by
  rw [Ps.GetRows.runRow.eq_def]
  simp only
  split
  · exact .throw _
  · exact (Stays.sourcePointer _ _ _).bind fun srcPtr _ =>
      (Stays.dstPointer _ _ _).bind fun dstPtr hpointer =>
      .callRow ops sizeBits ty hdst _ srcPtr hpointer _

end

section

variable {dst : Int → Prop}

/-- A view of a range names a live tensor. -/
theorem slabView_record {a : Allocator (List Byte)} {handle offset nbytes : Int} {view : Nat × Nat}
    (h : a.slabView handle offset nbytes = .ok view) :
    ∃ r ∈ a.records, (r.handle : Int) = handle ∧ 0 ≤ offset ∧ 0 ≤ nbytes := by
  obtain ⟨r, hr, h⟩ := bind_eq_ok.mp h
  split at h
  · cases h
  · next hneg =>
    rw [Allocator.getRecord] at hr
    split at hr
    · next hlookup =>
      cases hr
      obtain ⟨hmem, hhandle⟩ := Board.lookup_eq_some hlookup
      exact ⟨r, hmem, hhandle, by omega, by omega⟩
    · cases hr

/-- The row function keeps the length of its destination. -/
theorem length_rowFn {dst src out : List Byte} {headDim : Nat} {a a' : Allocator (List Byte)}
    (h : (Ps.SetRows.rowFn dst src headDim).run a = .ok out a') :
    out.length = dst.length ∧ a' = a := by
  rw [Ps.SetRows.rowFn] at h
  split at h
  · next rc out' hout =>
    cases h
    refine ⟨?_, rfl⟩
    rw [Ps.SetRows.bonsaiSetRowsRowF32ToF16] at hout
    split at hout
    · cases hout
      rfl
    · obtain ⟨row, -, hout⟩ := Option.bind_eq_some_iff.mp hout
      obtain ⟨out'', hstore, hout⟩ := Option.bind_eq_some_iff.mp hout
      cases hout
      by_cases hin : 0 + (Ps.halfBytes row).length ≤ dst.length
      · obtain ⟨_, hstored, hlen, -⟩ := Words.store_spec hin
        rw [hstore] at hstored
        cases hstored
        exact hlen
      · rw [Words.store, if_neg hin] at hstore
        cases hstore
  · cases h

/-- A view of a range of a destination is written in the range. -/
theorem touched_writeSlab {a : Allocator (List Byte)} (ha : Sound a) {handle offset : Int}
    (hdst : dst handle) {data : List Byte}
    (hne : data ≠ []) {view : Nat × Nat} (hview : a.slabView handle offset data.length = .ok view)
    (coherent : Bool) :
    Touched (Named a dst) a
      (Board.after (Board.writeSlab fakeIo view.1 view.2 data coherent) a) := by
  obtain ⟨r, hr, rfl, hoffset, -⟩ := slabView_record hview
  obtain ⟨n, rfl⟩ := Int.eq_ofNat_of_zero_le hoffset
  obtain ⟨-, -, hlocs⟩ := ha.inv.slabView_ok hr hview
  have hmem : ∀ loc ∈ Board.span view.1 view.2 data.length, loc ∈ locations r.extents := by
    intro loc hloc
    rw [← hlocs] at hloc
    exact List.mem_of_mem_drop (List.mem_of_mem_take hloc)
  have hvalid : ∀ loc ∈ Board.span view.1 view.2 data.length, a.Valid loc := fun loc hloc =>
    ha.inv.valid ha.filled (Board.mem_liveLocations hr (hmem loc hloc))
  obtain ⟨a', hrun, hwrote⟩ := Board.run_writeSlab a view.1 view.2 data coherent hne hvalid
  rw [Board.after, hrun]
  exact (Touched.refl _ a).wrote hwrote fun loc hloc => ⟨r, hr, hdst, hmem loc hloc⟩

/-- A row is written through the allocator, or through a view of its place. -/
theorem Stays.writeRow {handle : Int} (hdst : dst handle) (dstRel : Int) {dstRowBytes : Nat}
    (hpos : 0 < dstRowBytes) (src : List Byte)
    (headDim : Nat) :
    Stays κ dst (Ps.SetRows.writeRow unmapped handle dstRel dstRowBytes src headDim)
      fun _ => True := by
  have hrow : ∀ κ', Stays κ' dst (Ps.SetRows.rowFn (List.replicate dstRowBytes 0) src headDim)
      fun _ => True := by
    refine fun κ' => .reads fun a _ => ?_
    rw [Board.after]
    split
    · next x a' hrun => exact (length_rowFn hrun).2
    · next e a' hrun =>
      rw [Ps.SetRows.rowFn] at hrun
      split at hrun <;> cases hrun
      rfl
  refine .of_touched fun a ha => ?_
  have hsame : ∀ {p : Prog (List Byte) Unit},
      (Ps.SetRows.writeRow unmapped handle dstRel dstRowBytes src headDim).run a = p.run a →
      Touched (Named a dst) a (Board.after p a) →
      Touched (Named a dst) a
        (Board.after (Ps.SetRows.writeRow unmapped handle dstRel dstRowBytes src headDim) a) := by
    intro p hrun h
    rw [Board.after, hrun]
    exact h
  -- in one extent the row is stored there, over several extents `write` splits it
  cases hview : a.slabView handle dstRel dstRowBytes with
  | ok view =>
    have hrun : (Ps.SetRows.writeRow unmapped handle dstRel dstRowBytes src headDim).run a = (do
        let scratch ← Ps.SetRows.rowFn (List.replicate dstRowBytes 0) src headDim
        Board.writeSlab fakeIo view.1 view.2 scratch true : Prog (List Byte) Unit).run a := by
      simp only [Ps.SetRows.writeRow, EStateM.run_bind, EStateM.run_get, hview]
      rfl
    refine hsame hrun ?_
    rw [Board.after, EStateM.run_bind]
    cases hrow' : (Ps.SetRows.rowFn (List.replicate dstRowBytes 0) src headDim).run a with
    | error e a' =>
      have hfailed := (hrow Unit).touched ha
      rw [Board.after, hrow'] at hfailed
      exact hfailed
    | ok x a' =>
      obtain ⟨hlen, rfl⟩ := length_rowFn hrow'
      rw [List.length_replicate] at hlen
      have hne : x ≠ [] := List.ne_nil_of_length_pos (hlen ▸ hpos)
      exact touched_writeSlab ha hdst hne (hlen ▸ hview) true
  | error e =>
    cases e with
    | allocator code message =>
      cases code with
      | multiExtent =>
        refine hsame ?_ (((hrow Unit).bind fun x _ => Stays.write hdst dstRel x true).touched ha)
        simp only [Ps.SetRows.writeRow, EStateM.run_bind, EStateM.run_get, hview]
      -- another error of `slab_view` is raised before anything is written
      | _ =>
        rw [Board.after, Ps.SetRows.writeRow, EStateM.run_bind, EStateM.run_get]
        simp only [hview]
        exact Touched.refl _ a
    | _ =>
      rw [Board.after, Ps.SetRows.writeRow, EStateM.run_bind, EStateM.run_get]
      simp only [hview]
      exact Touched.refl _ a

theorem Stays.setRow {call : RowsCall} (hdst : dst call.dst.handle) (hpos : 0 < call.headDim)
    (idxElem : Nat) (idxRaw : List Byte) (srcPtr : Pointer) (t : Nat × Nat × Nat) :
    Stays κ dst (Ps.SetRows.runRow unmapped call idxElem idxRaw srcPtr t) fun _ => True := by
  rw [Ps.SetRows.runRow.eq_def]
  simp only
  split
  · exact .throw _
  · split
    · exact .throw _
    · exact (Stays.memory _ _).bind fun src _ => .writeRow hdst _ (by omega) src _

end

/-! ## Operands -/

/-- The tensor that an op names as destination. -/
def Dst (op : Op) (handle : Int) : Prop := op.ints.lookup "dst" = some handle

section

variable {op : Op}

theorem operand_dst {nbytes : Int} {o : Operand}
    (h : op.operand "dst" "dst_offset" nbytes = .ok o) : Dst op o.handle :=
  (Ps.operand_eq_ok h).1

theorem prepareCopy_dst {call : Ps.CopyCall} (h : Ps.prepareCopy op = .ok call) :
    match call with
    | .raw _ dst => Dst op dst.handle
    | .convert _ dst _ => Dst op dst.handle := by
  rw [Ps.prepareCopy] at h
  split at h
  · obtain ⟨elements, -, h⟩ := bind_eq_ok.mp h
    obtain ⟨src, -, h⟩ := bind_eq_ok.mp h
    obtain ⟨dst, hdst, h⟩ := bind_eq_ok.mp h
    cases h
    exact operand_dst hdst
  · obtain ⟨nbytes, -, h⟩ := bind_eq_ok.mp h
    obtain ⟨src, -, h⟩ := bind_eq_ok.mp h
    obtain ⟨dst, hdst, h⟩ := bind_eq_ok.mp h
    cases h
    exact operand_dst hdst

theorem prepareMatmul_dst {call : Ps.MatmulCall} (h : Ps.prepareMatmul op = .ok call) :
    Dst op call.dst.handle := by
  obtain ⟨rows, -, h⟩ := bind_eq_ok.mp h
  obtain ⟨cols, -, h⟩ := bind_eq_ok.mp h
  obtain ⟨k, -, h⟩ := bind_eq_ok.mp h
  split at h
  · cases h
  · obtain ⟨weightNbytes, -, h⟩ := bind_eq_ok.mp h
    obtain ⟨weights, -, h⟩ := bind_eq_ok.mp h
    obtain ⟨acts, -, h⟩ := bind_eq_ok.mp h
    obtain ⟨dst, hdst, h⟩ := bind_eq_ok.mp h
    cases h
    exact operand_dst hdst

theorem prepareBinary_dst {call : Ps.BinaryCall} (h : Ps.prepareBinary op = .ok call) :
    Dst op call.dst.handle := by
  obtain ⟨rows, -, h⟩ := bind_eq_ok.mp h
  obtain ⟨cols, -, h⟩ := bind_eq_ok.mp h
  obtain ⟨src0, -, h⟩ := bind_eq_ok.mp h
  obtain ⟨src1, -, h⟩ := bind_eq_ok.mp h
  obtain ⟨dst, hdst, h⟩ := bind_eq_ok.mp h
  cases h
  exact operand_dst hdst

theorem prepareScale_dst {call : Ps.ScaleCall} (h : Ps.prepareScale op = .ok call) :
    Dst op call.dst.handle := by
  obtain ⟨elements, -, h⟩ := bind_eq_ok.mp h
  split at h
  · cases h
  · obtain ⟨scale, -, h⟩ := bind_eq_ok.mp h
    obtain ⟨bias, -, h⟩ := bind_eq_ok.mp h
    obtain ⟨src, -, h⟩ := bind_eq_ok.mp h
    obtain ⟨dst, hdst, h⟩ := bind_eq_ok.mp h
    cases h
    exact operand_dst hdst

theorem prepareUnary_dst {call : Ps.UnaryCall} (h : Ps.prepareUnary op = .ok call) :
    Dst op call.dst.handle := by
  obtain ⟨elements, -, h⟩ := bind_eq_ok.mp h
  obtain ⟨src, -, h⟩ := bind_eq_ok.mp h
  obtain ⟨dst, hdst, h⟩ := bind_eq_ok.mp h
  cases h
  exact operand_dst hdst

theorem prepareSwiglu_dst {call : Ps.SwigluCall} (h : Ps.prepareSwiglu op = .ok call) :
    Dst op call.dst.handle := by
  obtain ⟨elements, -, h⟩ := bind_eq_ok.mp h
  obtain ⟨gate, -, h⟩ := bind_eq_ok.mp h
  obtain ⟨up, -, h⟩ := bind_eq_ok.mp h
  obtain ⟨dst, hdst, h⟩ := bind_eq_ok.mp h
  cases h
  exact operand_dst hdst

theorem prepareRmsNorm_dst {call : Ps.RmsNormCall} (h : Ps.prepareRmsNorm op = .ok call) :
    Dst op call.dst.handle := by
  obtain ⟨rows, -, h⟩ := bind_eq_ok.mp h
  obtain ⟨cols, -, h⟩ := bind_eq_ok.mp h
  split at h
  · cases h
  · obtain ⟨eps, -, h⟩ := bind_eq_ok.mp h
    obtain ⟨src, -, h⟩ := bind_eq_ok.mp h
    obtain ⟨dst, hdst, h⟩ := bind_eq_ok.mp h
    cases h
    exact operand_dst hdst

theorem prepareRmsNormMul_dst {call : Ps.RmsNormMulCall} (h : Ps.prepareRmsNormMul op = .ok call) :
    Dst op call.dst.handle := by
  obtain ⟨rows, -, h⟩ := bind_eq_ok.mp h
  obtain ⟨cols, -, h⟩ := bind_eq_ok.mp h
  split at h
  · cases h
  · obtain ⟨eps, -, h⟩ := bind_eq_ok.mp h
    obtain ⟨src, -, h⟩ := bind_eq_ok.mp h
    obtain ⟨weight, -, h⟩ := bind_eq_ok.mp h
    obtain ⟨dst, hdst, h⟩ := bind_eq_ok.mp h
    cases h
    exact operand_dst hdst

theorem prepareRope_dst {call : Ps.RopeCall} (h : Ps.prepareRope op = .ok call) :
    Dst op call.dst.handle := by
  -- four dimensions, two optional integers, six floats and two operands come first
  obtain ⟨headDim, -, h⟩ := bind_eq_ok.mp h
  obtain ⟨nHead, -, h⟩ := bind_eq_ok.mp h
  obtain ⟨nToken, -, h⟩ := bind_eq_ok.mp h
  obtain ⟨nDims, -, h⟩ := bind_eq_ok.mp h
  obtain ⟨mode, -, h⟩ := bind_eq_ok.mp h
  obtain ⟨nCtxOrig, -, h⟩ := bind_eq_ok.mp h
  obtain ⟨freqBase, -, h⟩ := bind_eq_ok.mp h
  obtain ⟨freqScale, -, h⟩ := bind_eq_ok.mp h
  obtain ⟨extFactor, -, h⟩ := bind_eq_ok.mp h
  obtain ⟨attnFactor, -, h⟩ := bind_eq_ok.mp h
  obtain ⟨betaFast, -, h⟩ := bind_eq_ok.mp h
  obtain ⟨betaSlow, -, h⟩ := bind_eq_ok.mp h
  obtain ⟨src, -, h⟩ := bind_eq_ok.mp h
  obtain ⟨positions, -, h⟩ := bind_eq_ok.mp h
  obtain ⟨dst, hdst, h⟩ := bind_eq_ok.mp h
  cases h
  exact operand_dst hdst

theorem prepareGetRows_dst {call : String × RowsCall} (h : Ps.prepareGetRows op = .ok call) :
    Dst op call.2.dst.handle := by
  rw [Ps.prepareGetRows] at h
  split at h
  · cases h
  split at h
  · cases h
  · obtain ⟨headDim, -, h⟩ := bind_eq_ok.mp h
    obtain ⟨ne01, -, h⟩ := bind_eq_ok.mp h
    obtain ⟨ne10, -, h⟩ := bind_eq_ok.mp h
    obtain ⟨strides, -, h⟩ := bind_eq_ok.mp h
    obtain ⟨src0, -, h⟩ := bind_eq_ok.mp h
    obtain ⟨dst, hdst, h⟩ := bind_eq_ok.mp h
    obtain ⟨indices, -, h⟩ := bind_eq_ok.mp h
    cases h
    exact operand_dst hdst

theorem prepareSetRows_dst {call : RowsCall} (h : Ps.prepareSetRows op = .ok call) :
    Dst op call.dst.handle ∧ 0 < call.headDim := by
  rw [Ps.prepareSetRows] at h
  split at h
  · cases h
  simp only at h
  split at h
  · cases h
  · obtain ⟨headDim, hheadDim, h⟩ := bind_eq_ok.mp h
    obtain ⟨ne01, -, h⟩ := bind_eq_ok.mp h
    obtain ⟨strides, -, h⟩ := bind_eq_ok.mp h
    obtain ⟨src0Offset, -, h⟩ := bind_eq_ok.mp h
    obtain ⟨indicesOffset, -, h⟩ := bind_eq_ok.mp h
    obtain ⟨dstOffset, -, h⟩ := bind_eq_ok.mp h
    obtain ⟨src0Handle, -, h⟩ := bind_eq_ok.mp h
    obtain ⟨indicesHandle, -, h⟩ := bind_eq_ok.mp h
    obtain ⟨dstHandle, hdst, h⟩ := bind_eq_ok.mp h
    cases h
    exact ⟨required_eq_ok hdst, (Ps.positive_eq_ok hheadDim).2⟩

end

/-! ## Kernels -/

section

variable (lib : Library) (op : Op)

theorem copy_stays : Stays κ (Dst op) (Copy.run op) fun _ => True := by
  refine (Stays.lift fun _ h => h).bind fun call hcall => ?_
  have hdst := prepareCopy_dst hcall
  cases call with
  | raw src dst => exact (Stays.read _ _ _ _).bind fun data _ => .write hdst _ _ _
  | convert src dst elements => exact .glue _ _ _ hdst _

theorem matmul_stays : Stays κ (Dst op) (MatmulQ1A8.run lib op) fun _ => True :=
  (Stays.lift fun _ h => h).bind fun _ hcall =>
    (Stays.read _ _ _ _).bind fun _ _ => (Stays.read _ _ _ _).bind fun _ _ =>
      (Stays.check _ _).bind fun _ _ => .write (prepareMatmul_dst hcall) _ _ _

theorem binary_stays (symbol : String)
    (fn : Load (List Byte) → Load (List Byte) → Ps.ZeroCopy.Store (List Byte) → Nat → Nat → Bool →
    List Byte → List Byte) : Stays κ (Dst op) (BinaryF32.run symbol fn op) fun _ => True :=
  (Stays.lift fun _ h => h).bind fun _ hcall => .glue _ _ _ (prepareBinary_dst hcall) _

theorem scale_stays : Stays κ (Dst op) (ScaleF32.run lib op) fun _ => True :=
  (Stays.lift fun _ h => h).bind fun _ hcall => .glue _ _ _ (prepareScale_dst hcall) _

theorem silu_stays : Stays κ (Dst op) (SiluF32.run lib op) fun _ => True :=
  (Stays.lift fun _ h => h).bind fun _ hcall => .glue _ _ _ (prepareUnary_dst hcall) _

theorem swiglu_stays : Stays κ (Dst op) (SwigluF32.run lib op) fun _ => True :=
  (Stays.lift fun _ h => h).bind fun _ hcall => .glue _ _ _ (prepareSwiglu_dst hcall) _

theorem rmsNorm_stays : Stays κ (Dst op) (RmsNormF32.run lib op) fun _ => True :=
  (Stays.lift fun _ h => h).bind fun _ hcall => .glue _ _ _ (prepareRmsNorm_dst hcall) _

theorem rmsNormMul_stays : Stays κ (Dst op) (RmsNormMulF32.run lib op) fun _ => True :=
  (Stays.lift fun _ h => h).bind fun _ hcall => .glue _ _ _ (prepareRmsNormMul_dst hcall) _

theorem rope_stays : Stays κ (Dst op) (RopeF32.run lib op) fun _ => True :=
  (Stays.lift fun _ h => h).bind fun _ hcall => .glue _ _ _ (prepareRope_dst hcall) _

theorem flashAttn_stays : Stays κ (Dst op) (FlashAttnExtF32.run op) fun _ => True := by
  refine (Stays.lift fun _ _ => trivial).bind fun call (_ : True) =>
    .forM fun o _ => Stays.get.bind fun a _ => ?_
  obtain ⟨e, he⟩ := slabPointer_unmapped a o.handle o.offset o.nbytes
  rw [he]
  cases e with
  | allocator code message => cases code <;> exact .throw _
  | _ => exact .throw _

theorem getRows_stays :
    Stays κ (Dst op) (Ps.GetRows.run lib.floats lib.sizeBits unmapped op) fun _ => True :=
  (Stays.lift fun _ h => h).bind fun _ hcall =>
    (Stays.lift fun _ _ => trivial).bind fun _ (_ : True) =>
    (Stays.read _ _ _ _).bind fun _ _ => .forM fun t _ =>
      .getRow _ _ _ (prepareGetRows_dst hcall) _ _ t

theorem setRows_stays : Stays κ (Dst op) (Ps.SetRows.run unmapped op) fun _ => True :=
  (Stays.lift fun _ h => h).bind fun _ hcall => (Stays.read _ _ _ _).bind fun _ _ =>
    (Stays.readableBase _ _ _).bind fun _ _ =>
      .forM fun t _ => .setRow (prepareSetRows_dst hcall).1 (prepareSetRows_dst hcall).2 _ _ _ t

end

/-! ## The registry -/

section

variable (py : Python)

theorem readFields_lookup {convert : Json → Except Err α} {op : Dict} {keys : List String}
    {l : List (String × α)}
    (h : readFields convert op keys = .ok l) {key : String} {x : α} (hx : l.lookup key = some x) :
    ∃ value, op key = some value ∧ convert value = .ok x := by
  induction keys generalizing l with
  | nil =>
    cases h
    cases hx
  | cons k keys ih =>
    rw [readFields] at h
    cases hop : op k with
    | none =>
      rw [hop] at h
      exact ih h hx
    | some value =>
      rw [hop] at h
      obtain ⟨y, hy, h⟩ := bind_eq_ok.mp h
      obtain ⟨later, hlater, h⟩ := bind_eq_ok.mp h
      cases h
      rw [List.lookup_cons] at hx
      split at hx
      · next hkey =>
        obtain rfl : key = k := eq_of_beq hkey
        cases hx
        exact ⟨value, hop, hy⟩
      · exact ih hlater hx

theorem Fields.read_dst {f : Fields} {op : Dict} {o : Op} (h : f.read py op = .ok o) (handle : Int)
    (hdst : Dst o handle) :
    Writes py op handle := by
  obtain ⟨ints, hints, h⟩ := bind_eq_ok.mp h
  obtain ⟨floats, -, h⟩ := bind_eq_ok.mp h
  obtain ⟨flags, -, h⟩ := bind_eq_ok.mp h
  obtain ⟨tags, -, h⟩ := bind_eq_ok.mp h
  cases h
  exact readFields_lookup hints hdst

theorem kernel_sound (name : String) (fields : Dict → Fields) {run : Op → Prog (List Byte) Unit}
    (hrun : ∀ op, Stays κ (Dst op) (run op) fun _ => True) :
    (kernel py name fields run : Kernel (List Byte) κ).Sound py where
  run op := (Writing.lift fun o ho => ho).bind fun o ho =>
    (hrun o).mono (Fields.read_dst py ho) fun _ h => h
  runAsync := by
    intro method hmethod
    cases hmethod

theorem mem_register {registry : Registry (List Byte) κ} {k k' : Kernel (List Byte) κ}
    (h : k' ∈ register registry k) :
    k' = k ∨ k' ∈ registry := by
  rw [register] at h
  split at h
  · obtain ⟨k'', hmem, rfl⟩ := List.mem_map.mp h
    split
    · exact .inl rfl
    · exact .inr hmem
  · rcases List.mem_append.mp h with hmem | hmem
    · exact .inr hmem
    · exact .inl (List.mem_singleton.mp hmem)

theorem mem_foldl_register {ks : List (Kernel (List Byte) κ)} {registry : Registry (List Byte) κ}
    {k : Kernel (List Byte) κ} (h : k ∈ ks.foldl register registry) : k ∈ ks ∨ k ∈ registry := by
  induction ks generalizing registry with
  | nil => exact .inr h
  | cons k' ks ih =>
    rcases ih h with hmem | hmem
    · exact .inl (List.mem_cons_of_mem _ hmem)
    · rcases mem_register hmem with rfl | hmem
      · exact .inl List.mem_cons_self
      · exact .inr hmem

end

/-- The registry of the daemon on fake slabs: whatever an op is, whatever the allocator is
    and wherever the kernel fails, no byte changes but those of the tensor that the op names
    as `dst`. -/
theorem registerAll_sound (py : Python) (lib : Library) :
    ∀ k ∈ (registerAll py lib [] : Registry (List Byte) κ), k.Sound py := by
  intro k hk
  rcases mem_foldl_register hk with hmem | hmem
  · simp only [kernels, List.mem_cons, List.not_mem_nil, or_false] at hmem
    rcases hmem with rfl | rfl | rfl | rfl | rfl | rfl | rfl | rfl | rfl | rfl | rfl | rfl | rfl
    · exact kernel_sound py _ _ copy_stays
    · exact kernel_sound py _ _ (matmul_stays lib)
    · exact kernel_sound py _ _ fun op => binary_stays op _ _
    · exact kernel_sound py _ _ fun op => binary_stays op _ _
    · exact kernel_sound py _ _ (scale_stays lib)
    · exact kernel_sound py _ _ (silu_stays lib)
    · exact kernel_sound py _ _ (swiglu_stays lib)
    · exact kernel_sound py _ _ (rmsNorm_stays lib)
    · exact kernel_sound py _ _ (rmsNormMul_stays lib)
    · exact kernel_sound py _ _ (rope_stays lib)
    · exact kernel_sound py _ _ flashAttn_stays
    · exact kernel_sound py _ _ (getRows_stays lib)
    · exact kernel_sound py _ _ setRows_stays
  · cases hmem

/-- The conversions of JSON values that need no rounding or parsing. -/
def plainPython : Python where
  int
    | .int n => .ok n
    | _ => .error .conversion
  str
    | .str s => s
    | _ => ""
  bool
    | .bool b => b
    | _ => false
  float _ := .error .conversion
  int_int _ := rfl
  str_str _ := rfl
  bool_bool _ := rfl

def plainLibrary : Library :=
  ⟨Ps.ZeroCopy.wordOps, Ps.GetRows.plainOps, 32, fun _ _ => (fun _ => 0, fun _ => 0#32)⟩

end Daemon.Native
