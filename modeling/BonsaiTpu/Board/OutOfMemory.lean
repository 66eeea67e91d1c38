-- SUMMARY: When the allocator runs out of memory: exactly when the aligned bytes of the free blocks do not suffice; a call that raises changes nothing.
import BonsaiTpu.Board.Invariant

/-!
# Running out of memory

What a request can use of a free block are the bytes from its first aligned offset
on. `_place_multi` takes all of these before it gives up, so an allocation fails
exactly when it asks for more than their sum.
-/

namespace Board

open Blocks

theorem alignUp_ok {alignment : Int} (h : 0 < alignment) (value : Nat) :
    ∃ aligned, alignUp value alignment = .ok aligned := by
  unfold alignUp
  rw [if_neg (Int.not_le.mpr h)]
  exact ⟨_, rfl⟩

/-- `max(0, off + size - align_up(off, alignment))`. -/
def usableBlock (alignment : Int) (p : Block) : Nat :=
  match alignUp p.1 alignment with
  | .ok aligned => p.1 + p.2 - aligned
  | .error _ => 0

/-- The bytes of a free list that a request with the alignment can use. -/
def usable (alignment : Int) (l : List Block) : Nat := (l.map (usableBlock alignment)).sum

@[simp] theorem usable_nil (alignment : Int) : usable alignment [] = 0 := rfl

@[simp] theorem usable_cons (alignment : Int) (p : Block) (l : List Block) :
    usable alignment (p :: l) = usableBlock alignment p + usable alignment l := rfl

@[simp] theorem usable_append (alignment : Int) (l l' : List Block) :
    usable alignment (l ++ l') = usable alignment l + usable alignment l' := by
  simp [usable]

theorem usableBlock_eq {alignment : Int} {p : Block} {aligned : Nat}
    (h : alignUp p.1 alignment = .ok aligned) : usableBlock alignment p = p.1 + p.2 - aligned := by
  unfold usableBlock
  rw [h]

def Allocator.usable {σ : Type} (a : Allocator σ) (alignment : Int) : Nat :=
  (a.free.map (Board.usable alignment)).sum

section Search

variable {alignment : Int}

/-! ## One block -/

theorem findBlock_ok (halign : 0 < alignment) (nbytes : Nat) (l : List Block) :
    ∃ found, findBlock alignment nbytes l = .ok found ∧
      (found ≠ none → nbytes ≤ usable alignment l) := by
  induction l with
  | nil => exact ⟨none, rfl, by simp⟩
  | cons p rest ih =>
    obtain ⟨offset, size⟩ := p
    obtain ⟨aligned, ha⟩ := alignUp_ok halign offset
    have hblock : usableBlock alignment (offset, size) = offset + size - aligned :=
      usableBlock_eq ha
    rw [findBlock]
    simp only [ha, bind, Except.bind, usable_cons, hblock]
    split
    · exact ⟨some aligned, rfl, fun _ => by omega⟩
    · obtain ⟨found, hfound, hle⟩ := ih
      refine ⟨found, hfound, fun hne => ?_⟩
      have := hle hne
      omega

theorem findSlab_ok (halign : 0 < alignment) (nbytes : Nat)
    (free : List (List Block)) (base : Nat) :
    ∃ found, findSlab alignment nbytes free base = .ok found ∧
      (found ≠ none → nbytes ≤ (free.map (usable alignment)).sum) := by
  induction free generalizing base with
  | nil => exact ⟨none, rfl, by simp⟩
  | cons l free ih =>
    obtain ⟨found, hfound, hle⟩ := findBlock_ok halign nbytes l
    rw [findSlab]
    simp only [hfound, bind, Except.bind, List.map_cons, List.sum_cons]
    cases found with
    | some aligned =>
      have := hle (by simp)
      exact ⟨some (base, aligned), rfl, fun _ => by omega⟩
    | none =>
      obtain ⟨found, hrest, hle'⟩ := ih (base + 1)
      refine ⟨found, hrest, fun hne => ?_⟩
      have := hle' hne
      omega

/-! ## Greedy taking -/

/-- A block that is not the last one taken is used up: what stays of it is the
    padding, and none of that is usable. -/
theorem takeLargest_ok (halign : 0 < alignment) (maxSize : Nat) (l : List Block) :
    (takeLargest maxSize alignment l = .ok none ∧ usable alignment l = 0) ∨
    ∃ o n l', takeLargest maxSize alignment l = .ok (some (o, n, l')) ∧ n ≤ maxSize ∧
      n ≤ usable alignment l ∧ (n < maxSize → n + usable alignment l' = usable alignment l) := by
  induction l with
  | nil => exact Or.inl ⟨rfl, rfl⟩
  | cons p rest ih =>
    obtain ⟨offset, size⟩ := p
    obtain ⟨aligned, ha⟩ := alignUp_ok halign offset
    obtain ⟨-, hle, -⟩ := alignUp_spec ha
    have hblock : usableBlock alignment (offset, size) = size - (aligned - offset) := by
      rw [usableBlock_eq ha]
      simp only
      omega
    rw [takeLargest]
    simp only [ha, bind, Except.bind, usable_cons, hblock]
    by_cases havail : size - (aligned - offset) = 0
    · rw [if_pos havail]
      rcases ih with ⟨hnone, hzero⟩ | ⟨o, n, l', hsome, hmax, hn, hall⟩
      · exact Or.inl ⟨by rw [hnone]; rfl, by omega⟩
      · refine Or.inr ⟨o, n, (offset, size) :: l', by rw [hsome]; rfl, hmax,
          by omega, fun hlt => ?_⟩
        have := hall hlt
        rw [usable_cons, hblock]
        omega
    · rw [if_neg havail]
      refine Or.inr ⟨_, _, _, rfl, Nat.min_le_left _ _, by omega, fun hlt => ?_⟩
      have htail : size - (aligned - offset) - min maxSize (size - (aligned - offset)) = 0 := by
        omega
      have hpad : usableBlock alignment (offset, aligned - offset) = 0 := by
        rw [usableBlock_eq ha]
        simp only
        omega
      have hhead : usable alignment
          (if aligned - offset ≠ 0 then [(offset, aligned - offset)] else []) = 0 := by
        split
        · rw [usable_cons, hpad, usable_nil]
        · rfl
      rw [usable_append, usable_append, hhead, htail]
      simp only [ne_eq, not_true_eq_false, if_false, usable_nil]
      omega

/-- The inner loop takes all that is usable in the slab, or all that is asked for. -/
theorem fillSlab_ok (halign : 0 < alignment) {slabIndex : Nat} (remaining : Nat)
    (free : List (List Block)) (hi : slabIndex < free.length) :
    ∃ es free', fillSlab alignment slabIndex remaining free =
        .ok (es, remaining - usable alignment (free.getD slabIndex []), free') ∧
      free'.length = free.length ∧ ∀ j, j ≠ slabIndex → free'.getD j [] = free.getD j [] := by
  induction remaining using Nat.strong_induction_on generalizing free with
  | _ remaining ih =>
    rw [fillSlab]
    by_cases hpos : 0 < remaining
    · rw [dif_pos hpos]
      rcases takeLargest_ok halign remaining (free.getD slabIndex []) with
        ⟨hnone, hzero⟩ | ⟨o, n, l', hsome, hmax, hn, hall⟩
      · refine ⟨[], free, ?_, rfl, fun _ _ => rfl⟩
        rw [hzero]
        split
        · next e h => cases hnone.symm.trans h
        · rfl
        · next h => cases hnone.symm.trans h
      · have hnpos : 0 < n := takeLargest_pos hsome hpos
        obtain ⟨es, free', hfill, hsame, hother⟩ :=
          ih (remaining - n) (by omega) (free.set slabIndex l') (by simpa using hi)
        have hget : (free.set slabIndex l').getD slabIndex [] = l' := by
          rw [getD_set, if_pos ⟨rfl, hi⟩]
        have hleft : remaining - n - usable alignment l' =
            remaining - usable alignment (free.getD slabIndex []) := by
          by_cases hlt : n < remaining
          · have := hall hlt
            omega
          · omega
        rw [hget, hleft] at hfill
        refine ⟨⟨slabIndex, o, n⟩ :: es, free', ?_, ?_, ?_⟩
        · split
          · next e h => cases hsome.symm.trans h
          · next h => cases hsome.symm.trans h
          · next h =>
            cases hsome.symm.trans h
            rw [hfill]
            rfl
        · rw [hsame, List.length_set]
        · intro j hj
          rw [hother j hj, getD_set, if_neg fun h => hj h.1.symm]
    · rw [dif_neg hpos]
      obtain rfl : remaining = 0 := by omega
      exact ⟨[], free, by rw [Nat.zero_sub], rfl, fun _ _ => rfl⟩

theorem fillSlabs_ok (halign : 0 < alignment) {slabIndices : List Nat} (hnodup : slabIndices.Nodup)
    (remaining : Nat) (free : List (List Block)) (hi : ∀ i ∈ slabIndices, i < free.length) :
    ∃ es free', fillSlabs alignment slabIndices remaining free =
        .ok (es, remaining - (slabIndices.map fun i => usable alignment (free.getD i [])).sum,
          free') := by
  induction slabIndices generalizing remaining free with
  | nil => exact ⟨[], free, rfl⟩
  | cons i rest ih =>
    obtain ⟨hnot, hrest⟩ := List.nodup_cons.mp hnodup
    obtain ⟨es, free', hfill, hlen, hother⟩ :=
      fillSlab_ok halign remaining free (hi i List.mem_cons_self)
    rw [fillSlabs]
    simp only [hfill, bind, Except.bind, List.map_cons, List.sum_cons]
    split
    · next hzero =>
        exact ⟨es, free', by simp only [Except.ok.injEq, Prod.mk.injEq, true_and, and_true]; omega⟩
    · obtain ⟨es', free'', hfills⟩ := ih hrest
        (remaining - usable alignment (free.getD i [])) free' (by
        intro j hj
        rw [hlen]
        exact hi j (List.mem_cons_of_mem _ hj))
      have hkept : (rest.map fun j => usable alignment (free'.getD j [])) =
          rest.map fun j => usable alignment (free.getD j []) := by
        apply List.map_congr_left
        intro j hj
        rw [hother j (by rintro rfl; exact hnot hj)]
      rw [hkept, Nat.sub_sub] at hfills
      exact ⟨es ++ es', free'', by rw [hfills]⟩

end Search

/-! ## Calls -/

section Calls

variable {σ : Type} {a : Allocator σ} {alignment : Int}

theorem map_usable_range (free : List (List Block)) (n : Nat) (hn : n = free.length) :
    ((List.range n).map fun i => usable alignment (free.getD i [])) =
      free.map (usable alignment) := by
  subst hn
  apply List.ext_getElem
  · simp
  · intro i hi hi'
    have hlt : i < free.length := by simpa using hi'
    simp [hlt]

theorem Allocator.Inv.fillSlabs (ha : a.Inv) (halign : 0 < alignment) (nbytes : Nat) :
    ∃ es free', fillSlabs alignment (List.range a.slabs.length) nbytes a.free =
      .ok (es, nbytes - a.usable alignment, free') := by
  obtain ⟨es, free', hfill⟩ := fillSlabs_ok halign
    (List.nodup_range (n := a.slabs.length)) nbytes a.free
    (by simp [ha.length])
  rw [map_usable_range a.free _ ha.length.symm] at hfill
  exact ⟨es, free', hfill⟩

theorem length_le_extentBytes {es : List Extent} (h : ∀ e ∈ es, 0 < e.nbytes) :
    es.length ≤ extentBytes es := by
  induction es with
  | nil => exact Nat.le_refl _
  | cons e es ih =>
    obtain ⟨he, hes⟩ := List.forall_mem_cons.mp h
    have := ih hes
    rw [List.length_cons, extentBytes_cons]
    omega

/-- `_place_multi` ends after it has taken at most `nbytes` blocks. -/
theorem Allocator.Inv.fillSlabs_ends (ha : a.Inv) (halign : 0 < alignment) (nbytes : Nat) :
    ∃ es remaining free', Board.fillSlabs alignment (List.range a.slabs.length) nbytes a.free =
      .ok (es, remaining, free') ∧ es.length ≤ nbytes := by
  obtain ⟨es, free', hfill⟩ := ha.fillSlabs halign nbytes
  obtain ⟨hplace, hsum⟩ := fillSlabs_spec hfill ha.partition.allRegular (by simp [ha.length])
  have := length_le_extentBytes hplace.partition.pos
  exact ⟨es, _, free', hfill, by omega⟩

/-- What `allocate` raises for want of memory. -/
def outOfMemory (nbytes freeBytes : Nat) : Err :=
  .allocator .outOfMemory s!"cannot allocate {nbytes} bytes (free {freeBytes})"

/-- Placement succeeds, or it raises `out_of_memory` and nothing else. -/
theorem Allocator.Inv.run_place (ha : a.Inv) (halign : 0 < alignment) {nbytes : Nat}
    (hn : 0 < nbytes) :
    (nbytes ≤ a.usable alignment ∧ ∃ es a', (place nbytes alignment).run a = .ok es a') ∨
    (a.usable alignment < nbytes ∧ (place nbytes alignment).run a =
      .error (outOfMemory nbytes a.freeBytes) a) := by
  obtain ⟨found, hfound, hle⟩ := findSlab_ok halign nbytes a.free 0
  obtain ⟨es, free', hfill⟩ := ha.fillSlabs halign nbytes
  have hreg := ha.partition.allRegular
  unfold place
  rw [if_neg (Nat.ne_of_gt hn)]
  cases found with
  | some r =>
    obtain ⟨free', es, -, -, h⟩ := run_placeSingle_found hreg hn hfound
    exact Or.inl ⟨hle (by simp), es, { a with free := free' }, by simp [h]⟩
  | none =>
    have hsingle : (placeSingle nbytes alignment).run a = .ok none a := by
      simp [placeSingle, hfound]
    obtain ⟨hplace, -⟩ := fillSlabs_spec hfill hreg (by simp [ha.length])
    by_cases hrem : nbytes - a.usable alignment = 0
    · rw [hrem] at hfill
      have hmulti := run_placeMulti_filled hfill
      exact Or.inl ⟨by omega, es, { a with free := free' }, by simp [hsingle, hmulti]⟩
    · have hmulti := run_placeMulti_short hfill hplace hreg hrem
      refine Or.inr ⟨by omega, ?_⟩
      simp only [EStateM.run_bind, EStateM.run_get, hsingle, hmulti]
      rfl

/-- An alignment of one wastes nothing. -/
theorem Allocator.usable_one (a : Allocator σ) : a.usable 1 = a.freeBytes := by
  have hblock : ∀ p : Block, usableBlock 1 p = p.2 := by
    intro p
    have haligned : alignUp p.1 1 = .ok p.1 := by simp [alignUp]
    rw [usableBlock_eq haligned, Nat.add_sub_cancel_left]
  have hlist : ∀ l : List Block, Board.usable 1 l = total l := by
    intro l
    induction l with
    | nil => rfl
    | cons p l ih => rw [usable_cons, hblock, ih, total_cons]
  rw [Allocator.usable, Allocator.freeBytes, funext hlist]

/-! ## Alignments that are not positive -/

theorem alignUp_neg (halign : alignment ≤ 0) (value : Nat) :
    alignUp value alignment = .error (.valueError "alignment must be positive") := if_pos halign

/-- The search raises at the first block, if there is one. -/
theorem findSlab_neg (halign : alignment ≤ 0) (nbytes : Nat)
    (free : List (List Block)) (base : Nat) :
    findSlab alignment nbytes free base = .error (.valueError "alignment must be positive") ∨
      findSlab alignment nbytes free base = .ok none ∧ ∀ l ∈ free, l = [] := by
  induction free generalizing base with
  | nil => exact Or.inr ⟨rfl, by simp⟩
  | cons l rest ih =>
    cases l with
    | nil =>
      rcases ih (base + 1) with h | ⟨h, hempty⟩
      · exact Or.inl h
      · exact Or.inr ⟨h, List.forall_mem_cons.mpr ⟨rfl, hempty⟩⟩
    | cons p l =>
      left
      rw [findSlab, findBlock, alignUp_neg halign]
      rfl

theorem fillSlabs_empty (alignment : Int) {free : List (List Block)}
    (hempty : ∀ i, free.getD i [] = []) {nbytes : Nat} (hn : 0 < nbytes)
    (slabIndices : List Nat) :
    fillSlabs alignment slabIndices nbytes free = .ok ([], nbytes, free) := by
  have hslab : ∀ i, fillSlab alignment i nbytes free = .ok ([], nbytes, free) := by
    intro i
    rw [fillSlab, dif_pos hn]
    split
    · next h => rw [hempty i] at h; cases h
    · rfl
    · next h => rw [hempty i] at h; cases h
  induction slabIndices with
  | nil => rfl
  | cons i rest ih =>
    simp only [fillSlabs, hslab i, ih, bind, Except.bind, if_neg hn.ne', List.nil_append]

/-- Placement with an alignment that is not positive always fails. -/
theorem Allocator.Inv.run_place_neg (ha : a.Inv) (halign : alignment ≤ 0) {nbytes : Nat}
    (hn : 0 < nbytes) :
    (place nbytes alignment).run a = .error (.valueError "alignment must be positive") a ∨
      a.freeBytes = 0 ∧ (place nbytes alignment).run a =
        .error (outOfMemory nbytes a.freeBytes) a := by
  unfold place
  rw [if_neg (Nat.ne_of_gt hn)]
  rcases findSlab_neg halign nbytes a.free 0 with hraises | ⟨hfound, hempty⟩
  · have hsingle : (placeSingle nbytes alignment).run a =
        .error (.valueError "alignment must be positive") a := by
      simp [placeSingle, hraises]
    exact Or.inl (by simp [hsingle])
  · have hreg := ha.partition.allRegular
    have hsingle : (placeSingle nbytes alignment).run a = .ok none a := by
      simp [placeSingle, hfound]
    have hget : ∀ i, a.free.getD i [] = [] := by
      intro i
      rw [List.getD_eq_getElem?_getD]
      cases hi : a.free[i]? with
      | none => rfl
      | some l => exact hempty l (List.mem_of_getElem? hi)
    have hmulti := run_placeMulti_short (fillSlabs_empty alignment hget hn _)
      (Placement.nil alignment hreg) hreg hn.ne'
    have hfree : a.freeBytes = 0 := by
      refine List.sum_eq_zero fun n hmem => ?_
      obtain ⟨l, hl, rfl⟩ := List.mem_map.mp hmem
      rw [hempty l hl]
      rfl
    refine Or.inr ⟨hfree, ?_⟩
    simp only [EStateM.run_bind, EStateM.run_get, hsingle, hmulti]
    rfl

/-- The outcome of `allocate` is that of the placement. -/
theorem call_allocate (io : SlabIo σ) {nbytes : Int} (hn : 0 ≤ nbytes) (attrs : Attrs)
    (k : Option Int) :
    (call io a (.allocate nbytes attrs k)).1 =
      match (place nbytes.toNat (a.alignmentUsed k)).run a with
      | .ok extents a' => .ok (.record (a'.newRecord nbytes attrs extents))
      | .error e _ => .error e := by
  simp only [call, exec, allocate, if_neg (Int.not_lt.mpr hn), run_map_prog, EStateM.run_bind,
    EStateM.run_get, EStateM.run_modify]
  cases (place nbytes.toNat (a.alignmentUsed k)).run a <;> rfl

theorem Allocator.Inv.outOfMemory_iff (ha : a.Inv) (io : SlabIo σ) {nbytes : Int} (hn : 0 < nbytes)
    (attrs : Attrs) (halign : 0 < alignment) :
    (∃ message, (call io a (.allocate nbytes attrs (some alignment))).1 =
      .error (.allocator .outOfMemory message)) ↔ (a.usable alignment : Int) < nbytes := by
  have hused : a.alignmentUsed (some alignment) = alignment := if_neg (by omega)
  rw [call_allocate io hn.le, hused]
  rcases ha.run_place halign (show 0 < nbytes.toNat by omega) with ⟨hle, es, a', h⟩ | ⟨hlt, h⟩
  · rw [h]
    refine ⟨by simp, fun _ => by omega⟩
  · rw [h]
    exact ⟨fun _ => by omega, fun _ => ⟨_, rfl⟩⟩

theorem Effect.failed_state {a' : Allocator σ} {c : Call} {e : Err} (h : Effect a c (.error e) a')
    (hc : c.isAccess = false) : a' = a := by
  cases h with
  | failed => rfl
  | accessed hacc _ => rw [hc] at hacc; cases hacc

/-- From every reachable state: the exact condition for `out_of_memory`, the end of
    the greedy loop, and failures that change nothing. -/
theorem allocate_out_of_memory (io : SlabIo σ) {slabs : List (Slab σ)} {defaultAlignment : Int}
    {a₀ : Allocator σ} (hinit : Allocator.init slabs defaultAlignment = .ok a₀) (cs : List Call) :
    let a := (calls io a₀ cs).2
    (∀ (nbytes alignment : Int) (attrs : Attrs), 0 < nbytes → 0 < alignment →
      ((∃ message, (call io a (.allocate nbytes attrs (some alignment))).1 =
          .error (.allocator .outOfMemory message)) ↔
        ((a.free.map (usable alignment)).sum : Int) < nbytes) ∧
      ∃ es remaining free', fillSlabs alignment (List.range a.slabs.length) nbytes.toNat a.free =
        .ok (es, remaining, free') ∧ (es.length : Int) ≤ nbytes) ∧
    ∀ (nbytes : Int) (attrs : Attrs) (alignment : Option Int) (e : Err),
      (call io a (.allocate nbytes attrs alignment)).1 = .error e →
      (call io a (.allocate nbytes attrs alignment)).2 = a := by
  intro a
  have hinv : a.Inv := (Allocator.Inv.init hinit).calls io cs
  refine ⟨?_, ?_⟩
  · intro nbytes alignment attrs hn halign
    refine ⟨hinv.outOfMemory_iff io hn attrs halign, ?_⟩
    obtain ⟨es, remaining, free', hfill, hlen⟩ := hinv.fillSlabs_ends halign nbytes.toNat
    exact ⟨es, remaining, free', hfill, by omega⟩
  · intro nbytes attrs alignment e he
    have heffect := hinv.effect io (.allocate nbytes attrs alignment)
    rw [he] at heffect
    exact heffect.failed_state rfl

end Calls

theorem allocate_out_of_memory_two_slabs :
    let a₀ : Allocator (List Byte) :=
  ⟨[fakeSlab 96, fakeSlab 64], [[(0, 96)], [(0, 64)]], [], 1, 32⟩
    let attrs : Attrs := ⟨[], "u8", "tensor", "raw"⟩
    let a := (calls fakeIo a₀ [.allocate 40 attrs none]).2
    a.free = [[(40, 56)], [(0, 64)]] ∧
    (¬ ∃ message, (call fakeIo a (.allocate 96 attrs (some 32))).1 =
      .error (.allocator .outOfMemory message)) ∧
    (∃ message, (call fakeIo a (.allocate 97 attrs (some 32))).1 =
      .error (.allocator .outOfMemory message)) ∧
    (call fakeIo a (.allocate 97 attrs (some 32))).2.free = a.free := by
  intro a₀ attrs a
  have hinit : Allocator.init [fakeSlab 96, fakeSlab 64] 32 = .ok a₀ := rfl
  have hfree : a.free = [[(40, 56)], [(0, 64)]] := by decide
  have hsum : (a.free.map (usable 32)).sum = 96 := by rw [hfree]; rfl
  obtain ⟨hiff, hkept⟩ := allocate_out_of_memory fakeIo hinit [.allocate 40 attrs none]
  have hshort : ∃ message, (call fakeIo a (.allocate 97 attrs (some 32))).1 =
      .error (.allocator .outOfMemory message) :=
    (hiff 97 32 attrs (by decide) (by decide)).1.mpr (by rw [hsum]; decide)
  refine ⟨hfree, ?_, hshort, ?_⟩
  · intro hfail
    have hlt := (hiff 96 32 attrs (by decide) (by decide)).1.mp hfail
    rw [hsum] at hlt
    exact absurd hlt (by decide)
  · obtain ⟨message, herr⟩ := hshort
    rw [hkept 97 attrs (some 32) _ herr]

end Board
