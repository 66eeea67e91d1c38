-- SUMMARY: The representation invariant of the allocator over every sequence of calls.
import BonsaiTpu.Board.Placement

/-!
# The allocator invariant

`call_cases` says everything one call can do. From it, every sequence of calls
keeps `Allocator.Inv`: free blocks and the extents of the live records partition
the slabs.
-/

namespace Board

open Blocks

section Calls

variable {σ α β : Type}

@[simp] theorem run_liftExcept_ok (x : α) (a : Allocator σ) :
    (liftExcept (.ok x) : Prog σ α).run a = .ok x a := rfl

@[simp] theorem run_liftExcept_error (e : Err) (a : Allocator σ) :
    (liftExcept (.error e) : Prog σ α).run a = .error e a := rfl

@[simp] theorem run_throw_err (e : Err) (a : Allocator σ) :
    (throw e : Prog σ α).run a = .error e a := rfl

@[simp] theorem run_map_prog (f : α → β) (p : Prog σ α) (a : Allocator σ) :
    (f <$> p).run a = match p.run a with
      | .ok x a' => .ok (f x) a'
      | .error e a' => .error e a' := by
  simp only [EStateM.run, Functor.map, EStateM.map]
  cases p a <;> rfl

/-! ## Placement calls -/

theorem run_placeSingle_found {a : Allocator σ} {nbytes slabIndex aligned : Nat} {alignment : Int}
    (ha : AllRegular a.free) (hn : 0 < nbytes)
    (hf : findSlab alignment nbytes a.free 0 = .ok (some (slabIndex, aligned))) :
    ∃ free' es, Placement alignment a.free free' es ∧ extentBytes es = nbytes ∧
      (placeSingle nbytes alignment).run a = .ok (some es) { a with free := free' } := by
  obtain ⟨i, l, hi, hl, hdvd, hfit⟩ := findSlab_spec hf
  obtain rfl : slabIndex = i := by omega
  obtain ⟨hlt, -⟩ := List.getElem?_eq_some_iff.mp hl
  have hget : a.free.getD slabIndex [] = l := by simp [hl]
  obtain ⟨l', htake, hcarved⟩ := takeBlock_spec hfit (hget ▸ ha slabIndex) hn
  refine ⟨a.free.set slabIndex l', [⟨slabIndex, aligned, nbytes⟩], ?_, rfl, ?_⟩
  · exact Placement.take ha hlt hn hdvd (hget ▸ hcarved)
  · simp only [placeSingle, EStateM.run_bind, EStateM.run_get, hf, run_liftExcept_ok, hget, htake]
    rfl

theorem run_placeSingle {a : Allocator σ} {nbytes : Nat} (alignment : Int) (ha : AllRegular a.free)
    (hn : 0 < nbytes) :
    (∃ e, (placeSingle nbytes alignment).run a = .error e a) ∨
    (placeSingle nbytes alignment).run a = .ok none a ∨
    ∃ free' es, Placement alignment a.free free' es ∧ extentBytes es = nbytes ∧
      (placeSingle nbytes alignment).run a = .ok (some es) { a with free := free' } := by
  cases hf : findSlab alignment nbytes a.free 0 with
  | error e => exact Or.inl ⟨e, by simp [placeSingle, hf]⟩
  | ok found =>
    cases found with
    | none => exact Or.inr (Or.inl (by simp [placeSingle, hf]))
    | some r => exact Or.inr (Or.inr (run_placeSingle_found ha hn hf))

theorem run_placeMulti_filled {a : Allocator σ} {nbytes : Nat} {alignment : Int} {es : List Extent}
    {free' : List (List Block)}
    (hf : fillSlabs alignment (List.range a.slabs.length) nbytes a.free = .ok (es, 0, free')) :
    (placeMulti nbytes alignment).run a = .ok (some es) { a with free := free' } := by
  simp only [placeMulti, EStateM.run_bind, EStateM.run_get, hf, run_liftExcept_ok, ne_eq,
    not_true_eq_false, if_false]
  rfl

/-- The rollback puts every block back, so the free lists are what they were. -/
theorem run_placeMulti_short {a : Allocator σ} {nbytes remaining : Nat} {alignment : Int}
    {es : List Extent} {free' : List (List Block)}
    (hf : fillSlabs alignment (List.range a.slabs.length) nbytes a.free =
      .ok (es, remaining, free'))
    (hplace : Placement alignment a.free free' es) (ha : AllRegular a.free) (hrem : remaining ≠ 0) :
    (placeMulti nbytes alignment).run a = .ok none a := by
  have hback := hplace.partition.rollback ha
  simp only [placeMulti, EStateM.run_bind, EStateM.run_get, hf, run_liftExcept_ok, ne_eq, hrem,
    not_false_eq_true, if_true, EStateM.run_modify, hback]
  rfl

theorem run_placeMulti {a : Allocator σ} (nbytes : Nat) (alignment : Int) (ha : AllRegular a.free)
    (hlen : a.free.length = a.slabs.length) :
    (∃ e, (placeMulti nbytes alignment).run a = .error e a) ∨
    (placeMulti nbytes alignment).run a = .ok none a ∨
    ∃ free' es, Placement alignment a.free free' es ∧ extentBytes es = nbytes ∧
      (placeMulti nbytes alignment).run a = .ok (some es) { a with free := free' } := by
  cases hf : fillSlabs alignment (List.range a.slabs.length) nbytes a.free with
  | error e => exact Or.inl ⟨e, by simp [placeMulti, hf]⟩
  | ok r =>
    obtain ⟨es, remaining, free'⟩ := r
    obtain ⟨hplace, hsum⟩ := fillSlabs_spec hf ha (by simp [hlen])
    by_cases hrem : remaining = 0
    · subst hrem
      exact Or.inr (Or.inr ⟨free', es, hplace, hsum, run_placeMulti_filled hf⟩)
    · exact Or.inr (Or.inl (run_placeMulti_short hf hplace ha hrem))

theorem run_place {a : Allocator σ} (nbytes : Nat) (alignment : Int) (ha : AllRegular a.free)
    (hlen : a.free.length = a.slabs.length) :
    (∃ e, (place nbytes alignment).run a = .error e a) ∨
    ∃ free' es, Placement alignment a.free free' es ∧ extentBytes es = nbytes ∧
      (place nbytes alignment).run a = .ok es { a with free := free' } := by
  by_cases hn : nbytes = 0
  · subst hn
    exact Or.inr ⟨a.free, [], Placement.nil alignment ha, rfl, rfl⟩
  · unfold place
    rw [if_neg hn]
    rcases run_placeSingle alignment ha (Nat.pos_of_ne_zero hn) with
      ⟨e, h⟩ | h | ⟨free', es, hplace, hsum, h⟩
    · exact Or.inl ⟨e, by simp [h]⟩
    · rcases run_placeMulti nbytes alignment ha hlen with ⟨e, h'⟩ |
        h' | ⟨free', es, hplace, hsum, h'⟩
      · exact Or.inl ⟨e, by simp [h, h']⟩
      · simp only [EStateM.run_bind, EStateM.run_get, h, h']
        exact Or.inl ⟨_, rfl⟩
      · exact Or.inr ⟨free', es, hplace, hsum, by simp [h, h']⟩
    · exact Or.inr ⟨free', es, hplace, hsum, by simp [h]⟩

/-! ## Reads and writes -/

theorem run_getRecord_some {a : Allocator σ} {handle : Int} {record : TensorRecord}
    (h : a.lookup handle = some record) : (getRecord handle).run a = .ok record a := by
  simp [getRecord, h]

theorem run_getRecord_none {a : Allocator σ} {handle : Int} (h : a.lookup handle = none) :
    (getRecord handle).run a =
      .error (.allocator .unknownTensor s!"unknown tensor handle {handle}") a := by
  simp [getRecord, h]

/-- The allocator after a program, whether or not it raises. -/
def after (p : Prog σ α) (a : Allocator σ) : Allocator σ :=
  match p.run a with
  | .ok _ a' => a'
  | .error _ a' => a'

/-- A program that changes nothing but the contents of slabs. -/
def ContentOnly (p : Prog σ α) : Prop :=
  ∀ a, ∃ slabs, slabs.map Slab.size = a.slabs.map Slab.size ∧ after p a = { a with slabs }

theorem ContentOnly.pure (x : α) : ContentOnly (pure x : Prog σ α) := fun a => ⟨a.slabs, rfl, rfl⟩

theorem ContentOnly.bind {p : Prog σ α} {f : α → Prog σ β} (hp : ContentOnly p)
    (hf : ∀ x, ContentOnly (f x)) : ContentOnly (p >>= f) := by
  intro a
  obtain ⟨slabs, hsize, hafter⟩ := hp a
  unfold after at hafter ⊢
  rw [EStateM.run_bind]
  cases hr : p.run a with
  | error e a' =>
    rw [hr] at hafter
    exact ⟨slabs, hsize, hafter⟩
  | ok x a' =>
    rw [hr] at hafter
    obtain ⟨slabs', hsize', hafter'⟩ := hf x a'
    unfold after at hafter'
    simp only at hafter ⊢
    rw [hafter] at hsize' hafter'
    exact ⟨slabs', hsize'.trans hsize, hafter ▸ hafter'⟩

theorem contentOnly_getRecord (handle : Int) :
    ContentOnly (getRecord handle : Prog σ TensorRecord) := by
  intro a
  unfold after
  cases h : a.lookup handle with
  | none => exact ⟨a.slabs, rfl, by simp [run_getRecord_none h]⟩
  | some record => exact ⟨a.slabs, rfl, by simp [run_getRecord_some h]⟩

/-- The range is one of bytes of a live tensor. -/
def Allocator.InRange (a : Allocator σ) (handle offset size : Int) (record : TensorRecord) : Prop :=
  a.lookup handle = some record ∧ 0 ≤ offset ∧ 0 ≤ size ∧ offset + size ≤ record.nbytes

theorem run_validateRange (a : Allocator σ) (handle offset size : Int) :
    (∃ record, a.InRange handle offset size record ∧
      (validateRange handle offset size).run a = .ok () a) ∨
    (¬ ∃ record, a.InRange handle offset size record) ∧
      ∃ code message, (validateRange handle offset size).run a =
        .error (.allocator code message) a := by
  unfold validateRange
  rw [EStateM.run_bind]
  cases h : a.lookup handle with
  | none =>
    refine Or.inr ⟨fun ⟨record, hr⟩ => ?_, _, _, by rw [run_getRecord_none h]⟩
    cases h.symm.trans hr.1
  | some record =>
    rw [run_getRecord_some h]
    by_cases hrange : 0 ≤ offset ∧ 0 ≤ size ∧ offset + size ≤ record.nbytes
    · refine Or.inl ⟨record, ⟨h, hrange⟩, ?_⟩
      obtain ⟨h1, h2, h3⟩ := hrange
      simp only [if_neg (Int.not_lt.mpr h1), if_neg (Int.not_lt.mpr h2), if_neg (Int.not_lt.mpr h3)]
      rfl
    · refine Or.inr ⟨fun ⟨record', hr⟩ => ?_, ?_⟩
      · cases h.symm.trans hr.1
        exact hrange hr.2
      · by_cases h1 : offset < 0
        · simp only [if_pos h1]
          exact ⟨_, _, rfl⟩
        · by_cases h2 : size < 0
          · simp only [if_neg h1, if_pos h2]
            exact ⟨_, _, rfl⟩
          · have h3 : offset + size > record.nbytes := by omega
            simp only [if_neg h1, if_neg h2, if_pos h3]
            exact ⟨_, _, rfl⟩

theorem contentOnly_validateRange (handle offset size : Int) :
    ContentOnly (validateRange handle offset size : Prog σ Unit) := by
  intro a
  unfold after
  rcases run_validateRange a handle offset size with ⟨_, _, h⟩ | ⟨_, _, _, h⟩
  · exact ⟨a.slabs, rfl, by rw [h]⟩
  · exact ⟨a.slabs, rfl, by rw [h]⟩

theorem map_size_set (slabs : List (Slab σ)) {i : Nat} {slab : Slab σ} (h : slabs[i]? = some slab)
    (data : σ) : (slabs.set i { slab with data }).map Slab.size = slabs.map Slab.size := by
  obtain ⟨hi, rfl⟩ := List.getElem?_eq_some_iff.mp h
  rw [List.map_set]
  apply List.ext_getElem
  · simp
  · intro j hj hj'
    rw [List.getElem_set]
    split
    · next hij =>
      subst hij
      simp
    · rfl

theorem contentOnly_readSlab (io : SlabIo σ) (i offset size : Nat) (coherent : Bool) :
    ContentOnly (readSlab io i offset size coherent) := by
  intro a
  unfold after readSlab getSlab
  cases h : a.slabs[i]? with
  | none => exact ⟨a.slabs, rfl, by simp [h]⟩
  | some slab =>
    exact ⟨_, map_size_set a.slabs h (io.read slab.data offset size coherent).2, by simp [h]⟩

theorem contentOnly_writeSlab (io : SlabIo σ) (i offset : Nat) (data : List Byte)
    (coherent : Bool) :
    ContentOnly (writeSlab io i offset data coherent) := by
  intro a
  unfold after writeSlab getSlab
  cases h : a.slabs[i]? with
  | none => exact ⟨a.slabs, rfl, by simp [h]⟩
  | some slab =>
    exact ⟨_, map_size_set a.slabs h (io.write slab.data offset data coherent), by simp [h]⟩

theorem contentOnly_writePieces (io : SlabIo σ) (coherent : Bool)
    (pieces : List (Extent × Nat × Nat))
    (view : List Byte) : ContentOnly (writePieces io coherent pieces view) := by
  induction pieces generalizing view with
  | nil => exact ContentOnly.pure ()
  | cons piece rest ih =>
    obtain ⟨extent, localOffset, count⟩ := piece
    exact (contentOnly_writeSlab io _ _ _ _).bind fun _ => ih _

theorem contentOnly_readPieces (io : SlabIo σ) (coherent : Bool)
    (pieces : List (Extent × Nat × Nat)) :
    ContentOnly (readPieces io coherent pieces) := by
  induction pieces with
  | nil => exact ContentOnly.pure []
  | cons piece rest ih =>
    obtain ⟨extent, localOffset, count⟩ := piece
    exact (contentOnly_readSlab io _ _ _ _).bind fun _ => ih.bind fun _ => ContentOnly.pure _

theorem contentOnly_write (io : SlabIo σ) (handle offset : Int) (data : List Byte)
    (coherent : Bool) :
    ContentOnly (write io handle offset data coherent) :=
  (contentOnly_validateRange handle offset data.length).bind fun _ =>
    (contentOnly_getRecord handle).bind fun _ => contentOnly_writePieces io _ _ _

theorem contentOnly_read (io : SlabIo σ) (handle offset size : Int) (coherent : Bool) :
    ContentOnly (read io handle offset size coherent) :=
  (contentOnly_validateRange handle offset size).bind fun _ =>
    (contentOnly_getRecord handle).bind fun _ => contentOnly_readPieces io _ _

/-! ## What one call does -/

def Call.isAccess : Call → Bool
  | .read .. => true
  | .write .. => true
  | .allocate .. => false
  | .free .. => false

/-- The record that `allocate` makes. -/
def Allocator.newRecord (a : Allocator σ) (nbytes : Int) (attrs : Attrs)
    (extents : List Extent) : TensorRecord :=
  ⟨a.nextHandle, nbytes.toNat, attrs.shape, attrs.dtype, attrs.usage, attrs.layout, extents⟩

/-- Every way in which one call can end. -/
inductive Effect (a : Allocator σ) : Call → Except Err Value → Allocator σ → Prop
  | failed (c : Call) (e : Err) : Effect a c (.error e) a
  | allocated {nbytes : Int} {attrs : Attrs} {alignment : Option Int} {free' : List (List Block)}
      {extents : List Extent} : 0 ≤ nbytes →
      Placement (a.alignmentUsed alignment) a.free free' extents →
      extentBytes extents = nbytes.toNat →
      Effect a (.allocate nbytes attrs alignment) (.ok (.record (a.newRecord nbytes attrs extents)))
        { a with
          free := free'
          nextHandle := a.nextHandle + 1
          records := a.records ++ [a.newRecord nbytes attrs extents] }
  | freed {handle : Int} {record : TensorRecord} : a.lookup handle = some record →
      Effect a (.free handle) (.ok (.record record))
        { a with
          records := a.records.filter fun r => (r.handle : Int) ≠ handle
          free := record.extents.foldl release a.free }
  | accessed {c : Call} {out : Except Err Value} {slabs : List (Slab σ)} :
      c.isAccess → slabs.map Slab.size = a.slabs.map Slab.size → Effect a c out { a with slabs }

theorem call_state (io : SlabIo σ) (a : Allocator σ) (c : Call) :
    (call io a c).2 = after (exec io c) a := by
  unfold call after
  cases (exec io c).run a <;> rfl

theorem ContentOnly.map {p : Prog σ α} (h : ContentOnly p) (f : α → β) : ContentOnly (f <$> p) := by
  intro a
  obtain ⟨slabs, hsize, hafter⟩ := h a
  refine ⟨slabs, hsize, ?_⟩
  rw [← hafter]
  unfold after
  rw [run_map_prog]
  cases p.run a <;> rfl

theorem call_free {a : Allocator σ} {handle : Int} {record : TensorRecord} (io : SlabIo σ)
    (h : a.lookup handle = some record) :
    call io a (.free handle) = (.ok (.record record),
      { a with
        records := a.records.filter fun r => (r.handle : Int) ≠ handle
        free := record.extents.foldl release a.free }) := by
  simp only [call, exec, free, run_map_prog, EStateM.run_bind, run_getRecord_some h,
    EStateM.run_modify]
  rfl

theorem call_effect (io : SlabIo σ) {a : Allocator σ} (ha : AllRegular a.free)
    (hlen : a.free.length = a.slabs.length) (c : Call) :
    Effect a c (call io a c).1 (call io a c).2 := by
  cases c with
  | allocate nbytes attrs alignment =>
    by_cases hneg : nbytes < 0
    · have hcall : call io a (.allocate nbytes attrs alignment) =
          (.error (.allocator .invalidRequest "nbytes must be non-negative"), a) := by
        simp only [call, exec, allocate, if_pos hneg]
        rfl
      rw [hcall]
      exact Effect.failed _ _
    · rcases run_place nbytes.toNat (a.alignmentUsed alignment) ha hlen with
        ⟨e, h⟩ | ⟨free', es, hplace, hsum, h⟩
      · have hcall : call io a (.allocate nbytes attrs alignment) = (.error e, a) := by
          simp only [call, exec, allocate, if_neg hneg, run_map_prog, EStateM.run_bind,
            EStateM.run_get, h]
        rw [hcall]
        exact Effect.failed _ _
      · have hcall : call io a (.allocate nbytes attrs alignment) =
            (.ok (.record (a.newRecord nbytes attrs es)),
              { a with
                free := free'
                nextHandle := a.nextHandle + 1
                records := a.records ++ [a.newRecord nbytes attrs es] }) := by
          simp only [call, exec, allocate, if_neg hneg, run_map_prog, EStateM.run_bind,
            EStateM.run_get, EStateM.run_modify, h]
          rfl
        rw [hcall]
        exact Effect.allocated (Int.not_lt.mp hneg) hplace hsum
  | free handle =>
    cases h : a.lookup handle with
    | none =>
      have hcall : call io a (.free handle) =
          (.error (.allocator .unknownTensor s!"unknown tensor handle {handle}"), a) := by
        simp only [call, exec, free, run_map_prog, EStateM.run_bind, run_getRecord_none h]
      rw [hcall]
      exact Effect.failed _ _
    | some record =>
      rw [call_free io h]
      exact Effect.freed h
  | write handle offset data coherent =>
    obtain ⟨slabs, hsize, hafter⟩ := (contentOnly_write io handle offset data coherent).map
      (fun _ => Value.none) a
    rw [call_state, exec, hafter]
    exact Effect.accessed rfl hsize
  | read handle offset size coherent =>
    obtain ⟨slabs, hsize, hafter⟩ :=
      (contentOnly_read io handle offset size coherent).map Value.bytes a
    rw [call_state, exec, hafter]
    exact Effect.accessed rfl hsize

/-! ## The invariant -/

/-- The free lists of slabs that hold no tensor. -/
def emptyFree (slabs : List (Slab σ)) : List (List Block) := slabs.map fun slab => [(0, slab.size)]

def Allocator.liveExtents (a : Allocator σ) : List Extent := a.records.flatMap TensorRecord.extents

structure Allocator.Inv (a : Allocator σ) : Prop where
  partition : Partition (emptyFree a.slabs) a.free a.liveExtents
  sums : ∀ r ∈ a.records, extentBytes r.extents = r.nbytes
  fresh : ∀ r ∈ a.records, r.handle < a.nextHandle
  distinct : a.records.Pairwise fun r r' => r.handle ≠ r'.handle

theorem emptyFree_congr {slabs slabs' : List (Slab σ)}
    (h : slabs.map Slab.size = slabs'.map Slab.size) :
    emptyFree slabs = emptyFree slabs' := by
  have hmap : ∀ l : List (Slab σ), emptyFree l = (l.map Slab.size).map fun n => [(0, n)] := by
    intro l
    simp [emptyFree]
  rw [hmap, hmap, h]

theorem emptyFree_allRegular (slabs : List (Slab σ)) : AllRegular (emptyFree slabs) := by
  intro i
  unfold emptyFree Regular
  cases hi : slabs[i]? with
  | none => simpa [hi] using canonical_nil
  | some slab =>
    by_cases hsize : slab.size = 0
    · simp [hi, hsize]
    · simpa [hi, hsize] using canonical_cons.mpr ⟨Nat.pos_of_ne_zero hsize, by simp, canonical_nil⟩

theorem Allocator.Inv.length {a : Allocator σ} (h : a.Inv) : a.free.length = a.slabs.length := by
  rw [h.partition.length]
  simp [emptyFree]

theorem lookup_eq_some {a : Allocator σ} {handle : Int} {record : TensorRecord}
    (h : a.lookup handle = some record) : record ∈ a.records ∧ (record.handle : Int) = handle :=
  ⟨List.mem_of_find?_eq_some h, by simpa using List.find?_some h⟩

theorem Allocator.Inv.lookup {a : Allocator σ} (h : a.Inv) {record : TensorRecord}
    (hr : record ∈ a.records) : a.lookup record.handle = some record := by
  have hdistinct := h.distinct
  unfold Allocator.lookup
  generalize a.records = records at hr hdistinct ⊢
  induction records with
  | nil => cases hr
  | cons r rs ih =>
    obtain ⟨hne, hrest⟩ := List.pairwise_cons.mp hdistinct
    cases hr with
    | head => simp
    | tail _ hr =>
      have : (r.handle : Int) ≠ record.handle := fun heq => hne record hr (by omega)
      rw [List.find?_cons_of_neg (by simpa using this)]
      exact ih hr hrest

/-- A record and the others. -/
theorem perm_cons_filter {records : List TensorRecord} {record : TensorRecord}
    (hdistinct : records.Pairwise fun r r' => r.handle ≠ r'.handle) (hr : record ∈ records) :
    records.Perm (record :: records.filter fun r => (r.handle : Int) ≠ record.handle) := by
  induction records with
  | nil => cases hr
  | cons r rs ih =>
    obtain ⟨hne, hrest⟩ := List.pairwise_cons.mp hdistinct
    cases hr with
    | head =>
      have hkeep : rs.filter (fun r => (r.handle : Int) ≠ record.handle) = rs := by
        apply List.filter_eq_self.mpr
        intro s hs
        have := hne s hs
        simp only [ne_eq, decide_not, Bool.not_eq_true', decide_eq_false_iff_not]
        omega
      rw [List.filter_cons_of_neg (by simp), hkeep]
    | tail _ hr =>
      have : (r.handle : Int) ≠ record.handle := fun heq => hne record hr (by omega)
      rw [List.filter_cons_of_pos (by simpa using this)]
      exact ((ih hrest hr).cons r).trans (List.Perm.swap _ _ _)

theorem Effect.inv {a a' : Allocator σ} {c : Call} {out : Except Err Value} (h : Effect a c out a')
    (ha : a.Inv) : a'.Inv := by
  cases h with
  | failed => exact ha
  | @allocated nbytes attrs alignment free' extents hnonneg hplace hsum =>
    refine ⟨?_, ?_, ?_, ?_⟩
    · have hlive : a.liveExtents ++ extents =
          (a.records ++ [a.newRecord nbytes attrs extents]).flatMap TensorRecord.extents := by
        rw [List.flatMap_append, List.flatMap_singleton]
        rfl
      unfold Allocator.liveExtents
      rw [← hlive]
      exact ha.partition.trans hplace.partition
    · intro r hr
      rcases List.mem_append.mp hr with hr | hr
      · exact ha.sums r hr
      · rw [List.mem_singleton.mp hr]
        exact hsum
    · intro r hr
      rcases List.mem_append.mp hr with hr | hr
      · exact Nat.lt_succ_of_lt (ha.fresh r hr)
      · rw [List.mem_singleton.mp hr]
        exact Nat.lt_succ_self _
    · refine List.pairwise_append.mpr ⟨ha.distinct, List.pairwise_singleton _ _, ?_⟩
      intro r hr s hs
      rw [List.mem_singleton.mp hs]
      exact Nat.ne_of_lt (ha.fresh r hr)
  | @freed handle record hlookup =>
    obtain ⟨hmem, rfl⟩ := lookup_eq_some hlookup
    have hperm := perm_cons_filter ha.distinct hmem
    refine ⟨?_, ?_, ?_, ?_⟩
    · have hlive := hperm.flatMap_right TensorRecord.extents
      rw [List.flatMap_cons] at hlive
      exact (ha.partition.perm hlive).release_append (emptyFree_allRegular _)
    · exact fun r hr => ha.sums r (List.mem_of_mem_filter hr)
    · exact fun r hr => ha.fresh r (List.mem_of_mem_filter hr)
    · exact ha.distinct.filter _
  | @accessed c out slabs _ hsize =>
    refine ⟨?_, ha.sums, ha.fresh, ha.distinct⟩
    rw [emptyFree_congr hsize]
    exact ha.partition

theorem Allocator.Inv.effect {a : Allocator σ} (ha : a.Inv) (io : SlabIo σ) (c : Call) :
    Effect a c (call io a c).1 (call io a c).2 :=
  call_effect io ha.partition.allRegular ha.length c

theorem Allocator.Inv.calls {a : Allocator σ} (ha : a.Inv) (io : SlabIo σ) (cs : List Call) :
    (calls io a cs).2.Inv := by
  induction cs generalizing a with
  | nil => exact ha
  | cons c cs ih => exact ih ((ha.effect io c).inv ha)

theorem Allocator.Inv.init {slabs : List (Slab σ)} {defaultAlignment : Int} {a : Allocator σ}
    (h : Allocator.init slabs defaultAlignment = .ok a) : a.Inv := by
  unfold Allocator.init at h
  split at h
  · cases h
  · cases h
    exact ⟨Partition.refl (emptyFree_allRegular slabs), by simp, by simp, List.Pairwise.nil⟩

/-! ## Histories -/

/-- The handle that a call of `allocate` hands out. -/
def issuedHandle : Call × Except Err Value → Option Nat
  | (.allocate .., .ok (.record r)) => some r.handle
  | _ => none

/-- The handles handed out in a sequence of calls with the given outcomes. -/
def issuedHandles (cs : List Call) (outs : List (Except Err Value)) : List Nat :=
  (cs.zip outs).filterMap issuedHandle

/-- A record was returned by a call of `allocate` in the history, and its extents
    have the alignment of that call. -/
def Granted (a : Allocator σ) (cs : List Call) (outs : List (Except Err Value))
    (r : TensorRecord) : Prop :=
  ∃ (k : Nat) (nbytes : Int) (attrs : Attrs) (alignment : Option Int),
    cs[k]? = some (.allocate nbytes attrs alignment) ∧ outs[k]? = some (.ok (.record r)) ∧
      (r.nbytes : Int) = nbytes ∧ ∀ e ∈ r.extents, a.alignmentUsed alignment ∣ (e.offset : Int)

theorem Effect.defaultAlignment {a a' : Allocator σ} {c : Call} {out : Except Err Value}
    (h : Effect a c out a') : a'.defaultAlignment = a.defaultAlignment := by
  cases h <;> rfl

theorem Effect.slabs {a a' : Allocator σ} {c : Call} {out : Except Err Value}
    (h : Effect a c out a') (hc : c.isAccess = false) : a'.slabs = a.slabs := by
  cases h with
  | failed => rfl
  | allocated => rfl
  | freed => rfl
  | accessed hacc _ => rw [hc] at hacc; cases hacc

theorem Effect.sizes {a a' : Allocator σ} {c : Call} {out : Except Err Value}
    (h : Effect a c out a') : a'.slabs.map Slab.size = a.slabs.map Slab.size := by
  cases h with
  | failed => rfl
  | allocated => rfl
  | freed => rfl
  | accessed _ hsize => exact hsize

theorem calls_sizes {a : Allocator σ} (ha : a.Inv) (io : SlabIo σ) (cs : List Call) :
    (calls io a cs).2.slabs.map Slab.size = a.slabs.map Slab.size := by
  induction cs generalizing a with
  | nil => rfl
  | cons c cs ih =>
    have heffect := ha.effect io c
    exact (ih (heffect.inv ha)).trans heffect.sizes

/-- The handle of a step is the next one, and later steps start above it. -/
theorem Effect.issued {a a' : Allocator σ} {c : Call} {out : Except Err Value}
    (h : Effect a c out a') :
    a.nextHandle ≤ a'.nextHandle ∧
      ∀ handle, issuedHandle (c, out) = some handle →
        handle = a.nextHandle ∧ handle < a'.nextHandle := by
  cases h with
  | failed c e =>
    refine ⟨Nat.le_refl _, ?_⟩
    cases c <;> simp [issuedHandle]
  | allocated =>
    refine ⟨Nat.le_succ _, ?_⟩
    rintro handle ⟨⟩
    exact ⟨rfl, Nat.lt_succ_self _⟩
  | freed => exact ⟨Nat.le_refl _, by simp [issuedHandle]⟩
  | @accessed c out slabs hacc _ =>
    refine ⟨Nat.le_refl _, ?_⟩
    cases c with
    | allocate => cases hacc
    | free => cases hacc
    | read => simp [issuedHandle]
    | write => simp [issuedHandle]

theorem calls_issued {a : Allocator σ} (ha : a.Inv) (io : SlabIo σ) (cs : List Call) :
    (∀ handle ∈ issuedHandles cs (calls io a cs).1, a.nextHandle ≤ handle) ∧
      (issuedHandles cs (calls io a cs).1).Pairwise (· < ·) := by
  induction cs generalizing a with
  | nil => exact ⟨by simp [issuedHandles], List.Pairwise.nil⟩
  | cons c cs ih =>
    have heffect := ha.effect io c
    obtain ⟨hmono, hissue⟩ := heffect.issued
    obtain ⟨hge, hlt⟩ := ih (heffect.inv ha)
    unfold issuedHandles at hge hlt ⊢
    simp only [calls, List.zip_cons_cons, List.filterMap_cons]
    cases hh : issuedHandle (c, (call io a c).1) with
    | none => exact ⟨fun handle hmem => hmono.trans (hge handle hmem), hlt⟩
    | some handle =>
      obtain ⟨rfl, hnext⟩ := hissue handle hh
      refine ⟨?_, List.pairwise_cons.mpr ⟨?_, hlt⟩⟩
      · intro handle hmem
        cases hmem with
        | head => exact Nat.le_refl _
        | tail _ hmem => exact hmono.trans (hge handle hmem)
      · exact fun handle hmem => Nat.lt_of_lt_of_le hnext (hge handle hmem)

theorem Granted.cons {a a' : Allocator σ} {cs : List Call} {outs : List (Except Err Value)}
    {r : TensorRecord} (h : Granted a' cs outs r) (hdef : a'.defaultAlignment = a.defaultAlignment)
    (c : Call) (out : Except Err Value) : Granted a (c :: cs) (out :: outs) r := by
  obtain ⟨k, nbytes, attrs, alignment, hc, ho, hn, hdvd⟩ := h
  refine ⟨k + 1, nbytes, attrs, alignment, hc, ho, hn, ?_⟩
  unfold Allocator.alignmentUsed at hdvd ⊢
  rwa [hdef] at hdvd

theorem calls_granted {a : Allocator σ} (ha : a.Inv) (io : SlabIo σ) (cs : List Call)
    {r : TensorRecord}
    (hr : r ∈ (calls io a cs).2.records) : r ∈ a.records ∨ Granted a cs (calls io a cs).1 r := by
  induction cs generalizing a with
  | nil => exact Or.inl hr
  | cons c cs ih =>
    have heffect := ha.effect io c
    rcases ih (heffect.inv ha) hr with hold | hnew
    · generalize hout : (call io a c).1 = out at heffect
      generalize hstate : (call io a c).2 = a' at heffect hold
      simp only [calls, hout]
      cases heffect with
      | failed => exact Or.inl hold
      | @allocated nbytes attrs alignment free' extents hnonneg hplace hsum =>
        rcases List.mem_append.mp hold with hold | hold
        · exact Or.inl hold
        · obtain rfl := List.mem_singleton.mp hold
          exact Or.inr ⟨0, nbytes, attrs, alignment, rfl, rfl,
            Int.toNat_of_nonneg hnonneg, hplace.aligned⟩
      | freed => exact Or.inl (List.mem_of_mem_filter hold)
      | accessed => exact Or.inl hold
    · exact Or.inr (hnew.cons heffect.defaultAlignment c _)

/-- Freeing the live handles, in whatever order, empties the slabs. -/
theorem calls_free_all {a : Allocator σ} (ha : a.Inv) (io : SlabIo σ) {handles : List Nat}
    (hperm : handles.Perm (a.records.map TensorRecord.handle)) :
    (∀ out ∈ (calls io a (handles.map fun h : Nat => .free h)).1, ∃ r, out = .ok (.record r)) ∧
      (calls io a (handles.map fun h : Nat => .free h)).2.records = [] ∧
      (calls io a (handles.map fun h : Nat => .free h)).2.free = emptyFree a.slabs := by
  induction handles generalizing a with
  | nil =>
    have hnone : a.records = [] := List.map_eq_nil_iff.mp hperm.nil_eq.symm
    have hpart := ha.partition
    rw [Allocator.liveExtents, hnone, List.flatMap_nil] at hpart
    exact ⟨by simp [calls], hnone, hpart.unique (Partition.refl (emptyFree_allRegular _))⟩
  | cons handle handles ih =>
    obtain ⟨record, hmem, rfl⟩ := List.mem_map.mp (hperm.mem_iff.mp List.mem_cons_self)
    have hcall := call_free io (ha.lookup hmem)
    have hinv := (ha.effect io (.free record.handle)).inv ha
    rw [hcall] at hinv
    have hothers := (perm_cons_filter ha.distinct hmem).map TensorRecord.handle
    obtain ⟨hok, hrest⟩ := ih hinv ((hperm.trans hothers).cons_inv)
    simp only [List.map_cons, calls, hcall]
    refine ⟨?_, hrest⟩
    intro out hout
    cases hout with
    | head => exact ⟨record, rfl⟩
    | tail _ hout => exact hok out hout

/-! ## The invariant, spelled out -/

theorem Allocator.Inv.free_inside {a : Allocator σ} (ha : a.Inv) {i : Nat} {slab : Slab σ}
    (hi : a.slabs[i]? = some slab) (b : Nat) :
    cover (a.free.getD i [] ++ ownedBy i a.liveExtents) b = if b < slab.size then 1 else 0 := by
  have hcover := ha.partition.cover i b
  have hwhole : (emptyFree a.slabs).getD i [] = [(0, slab.size)] := by simp [emptyFree, hi]
  rw [hwhole] at hcover
  rw [cover_append, hcover]
  simp [hit]

theorem Allocator.Inv.freeList {a : Allocator σ} (ha : a.Inv) {i : Nat} {slab : Slab σ}
    (hi : a.slabs[i]? = some slab) (hsize : 0 < slab.size) : ∃ l, a.free[i]? = some l ∧
      (l.Pairwise fun p q => p.1 + p.2 < q.1) ∧ ∀ p ∈ l, 0 < p.2 ∧ p.1 + p.2 ≤ slab.size := by
  obtain ⟨hlt, -⟩ := List.getElem?_eq_some_iff.mp hi
  rw [← ha.length] at hlt
  have hget : a.free[i]? = some (a.free.getD i []) := by simp [hlt]
  have hcanon : Canonical (a.free.getD i []) := by
    apply (ha.partition.regular i).canonical
    simp only [emptyFree, List.getD_eq_getElem?_getD, List.getElem?_map, hi, Option.map_some,
      Option.getD_some, ne_eq, List.cons.injEq, Prod.mk.injEq]
    omega
  refine ⟨_, hget, hcanon.gaps, fun p hp => ?_⟩
  have hpos := hcanon.pos p hp
  refine ⟨hpos, ?_⟩
  -- The last byte of the block is covered, so it is a byte of the slab.
  by_contra hgt
  have hcover := ha.free_inside hi (p.1 + p.2 - 1)
  have hhit : 0 < cover (a.free.getD i []) (p.1 + p.2 - 1) := cover_pos hp (by omega) (by omega)
  rw [cover_append, if_neg (by omega)] at hcover
  omega

theorem Allocator.Inv.slabIndex_lt {a : Allocator σ} (ha : a.Inv) {e : Extent}
    (he : e ∈ a.liveExtents) : e.slabIndex < a.slabs.length := by
  have hpos := ha.partition.pos e he
  have hown : 0 < cover (ownedBy e.slabIndex a.liveExtents) e.offset :=
    cover_ownedBy_pos he (Nat.le_refl _) (by omega)
  have hcover := ha.partition.cover e.slabIndex e.offset
  by_contra hge
  have hnone : (emptyFree a.slabs).getD e.slabIndex [] = [] := by
    simp [emptyFree, Nat.not_lt.mp hge]
  rw [hnone, cover_nil] at hcover
  omega

theorem extentBytes_flatMap (records : List TensorRecord)
    (h : ∀ r ∈ records, extentBytes r.extents = r.nbytes) :
    extentBytes (records.flatMap TensorRecord.extents) = (records.map TensorRecord.nbytes).sum := by
  induction records with
  | nil => rfl
  | cons r rs ih =>
    obtain ⟨hr, hrs⟩ := List.forall_mem_cons.mp h
    rw [List.flatMap_cons, extentBytes_append, hr, ih hrs]
    rfl

theorem Allocator.Inv.usedBytes {a : Allocator σ} (ha : a.Inv) :
    a.usedBytes = ((a.records.map TensorRecord.nbytes).sum : Nat) := by
  have hbytes := ha.partition.bytes
  have hwhole : ((emptyFree a.slabs).map total).sum = a.totalBytes := by
    unfold emptyFree Allocator.totalBytes
    rw [List.map_map]
    rfl
  rw [hwhole, Allocator.liveExtents, extentBytes_flatMap _ ha.sums] at hbytes
  unfold Allocator.usedBytes Allocator.freeBytes
  omega

/-- The representation invariant of the allocator: over every sequence of calls,
    from slabs of positive size. -/
theorem allocator_invariant (io : SlabIo σ) {slabs : List (Slab σ)} {defaultAlignment : Int}
    {a₀ : Allocator σ} (hinit : Allocator.init slabs defaultAlignment = .ok a₀)
    (hsizes : ∀ slab ∈ slabs, 0 < slab.size) (cs : List Call) :
    let outs := (calls io a₀ cs).1
    let a := (calls io a₀ cs).2
    a.slabs.map Slab.size = slabs.map Slab.size ∧
    (∀ i slab, a.slabs[i]? = some slab →
      (∃ l, a.free[i]? = some l ∧ (l.Pairwise fun p q => p.1 + p.2 < q.1) ∧
        ∀ p ∈ l, 0 < p.2 ∧ p.1 + p.2 ≤ slab.size) ∧
      ∀ b, cover (a.free.getD i [] ++ ownedBy i a.liveExtents) b = if b < slab.size then 1 else 0) ∧
    (∀ e ∈ a.liveExtents, e.slabIndex < a.slabs.length ∧ 0 < e.nbytes) ∧
    (∀ r ∈ a.records, extentBytes r.extents = r.nbytes ∧ Granted a₀ cs outs r) ∧
    a.usedBytes = ((a.records.map TensorRecord.nbytes).sum : Nat) ∧
    (issuedHandles cs outs).Nodup ∧
    ∀ handles : List Nat, handles.Perm (a.records.map TensorRecord.handle) →
      (∀ out ∈ (calls io a (handles.map fun h : Nat => .free h)).1, ∃ r, out = .ok (.record r)) ∧
      (calls io a (handles.map fun h : Nat => .free h)).2.free = slabs.map fun slab =>
        [(0, slab.size)] := by
  intro outs a
  have hinv₀ := Allocator.Inv.init hinit
  have hinv : a.Inv := hinv₀.calls io cs
  have hstart : a₀.slabs = slabs ∧ a₀.records = [] := by
    unfold Allocator.init at hinit
    split at hinit
    · cases hinit
    · cases hinit
      exact ⟨rfl, rfl⟩
  have hsame : a.slabs.map Slab.size = slabs.map Slab.size := by
    rw [← hstart.1]
    exact calls_sizes hinv₀ io cs
  refine ⟨hsame, ?_, ?_, ?_, hinv.usedBytes, ?_, ?_⟩
  · intro i slab hi
    have hmem : slab.size ∈ slabs.map Slab.size :=
      hsame ▸ List.mem_map_of_mem (List.mem_of_getElem? hi)
    obtain ⟨slab', hslab', heq⟩ := List.mem_map.mp hmem
    exact ⟨hinv.freeList hi (heq ▸ hsizes slab' hslab'), hinv.free_inside hi⟩
  · exact fun e he => ⟨hinv.slabIndex_lt he, hinv.partition.pos e he⟩
  · intro r hr
    refine ⟨hinv.sums r hr, ?_⟩
    -- no record is there at the start, so each was granted by a call
    rcases calls_granted hinv₀ io cs hr with hold | hnew
    · rw [hstart.2] at hold
      cases hold
    · exact hnew
  · exact (calls_issued hinv₀ io cs).2.imp Nat.ne_of_lt
  · intro handles hperm
    obtain ⟨hok, -, hfree⟩ := calls_free_all hinv io hperm
    exact ⟨hok, hfree.trans (emptyFree_congr hsame)⟩

end Calls

theorem allocator_invariant_two_slabs :
    let a₀ : Allocator (List Byte) :=
  ⟨[fakeSlab 96, fakeSlab 64], [[(0, 96)], [(0, 64)]], [], 1, 32⟩
    let attrs : Attrs := ⟨[], "u8", "tensor", "raw"⟩
    let cs : List Call :=
      [.allocate 40 attrs none, .allocate 30 attrs (some 16), .allocate 60 attrs none, .free 1]
    let a := (calls fakeIo a₀ cs).2
    a.records.map TensorRecord.handle = [2, 3] ∧ a.usedBytes = 90 ∧
      (calls fakeIo a ([3, 2].map fun h : Nat => .free h)).2.free = [[(0, 96)], [(0, 64)]] := by
  intro a₀ attrs cs
  have hinit : Allocator.init [fakeSlab 96, fakeSlab 64] 32 = .ok a₀ := rfl
  have hhandles : (calls fakeIo a₀ cs).2.records.map TensorRecord.handle = [2, 3] := by decide
  have hbytes : (calls fakeIo a₀ cs).2.records.map TensorRecord.nbytes = [30, 60] := by decide
  obtain ⟨-, -, -, -, hused, -, hfree⟩ := allocator_invariant fakeIo hinit (by simp [fakeSlab]) cs
  rw [hbytes] at hused
  rw [hhandles] at hfree
  exact ⟨hhandles, hused, (hfree [3, 2] (by decide)).2⟩

end Board
