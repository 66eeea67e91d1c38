-- SUMMARY: What `slab_view` returns: the locations of a range that lies in one extent, and `multi_extent` otherwise.
import BonsaiTpu.Board.Memory

/-!
# Views of tensors

A kernel or a DMA engine needs a range of a tensor at consecutive addresses. For a
live tensor and a range in bounds, `slab_view` either finds the extent that holds all
of the range, or raises `multi_extent`; it raises nothing else.
-/

namespace Board

/-- A range of a slab lies in one of the extents. -/
def InOneExtent (extents : List Extent) (slabIndex offset nbytes : Nat) : Prop :=
  ∃ e ∈ extents, e.slabIndex = slabIndex ∧ e.offset ≤ offset ∧ offset + nbytes ≤ e.offset + e.nbytes

theorem InOneExtent.cons {e : Extent} {es : List Extent} {slabIndex offset nbytes : Nat}
    (h : InOneExtent es slabIndex offset nbytes) :
    InOneExtent (e :: es) slabIndex offset nbytes := by
  obtain ⟨e', he', hin⟩ := h
  exact ⟨e', List.mem_cons_of_mem _ he', hin⟩

/-- The locations of a range of a tensor. -/
def rangeLocations (extents : List Extent) (offset nbytes : Nat) : List Loc :=
  ((locations extents).drop offset).take nbytes

theorem length_rangeLocations {extents : List Extent} {offset nbytes : Nat}
    (h : offset + nbytes ≤ extentBytes extents) :
    (rangeLocations extents offset nbytes).length = nbytes := by
  rw [rangeLocations, List.length_take, List.length_drop, length_locations]
  omega

theorem rangeLocations_append (extents : List Extent) (offset m n : Nat) :
    rangeLocations extents offset (m + n) = rangeLocations extents offset m ++
      rangeLocations extents (offset + m) n := by
  simp only [rangeLocations, List.take_add, List.drop_drop]

/-- A view of a range is the range, in one extent. -/
theorem viewFrom_ok {es : List Extent} {cursor offset nbytes : Nat} {view : Nat × Nat}
    (hcursor : cursor ≤ offset) (h : viewFrom es cursor offset nbytes = .ok view) :
    InOneExtent es view.1 view.2 nbytes ∧
      ((locations es).drop (offset - cursor)).take nbytes = span view.1 view.2 nbytes := by
  induction es generalizing cursor with
  | nil => cases h
  | cons e es ih =>
    simp only [viewFrom] at h
    rw [locations_cons, List.drop_append, length_span, drop_span]
    split at h
    · -- The range starts behind this extent.
      next hpast =>
      obtain ⟨hin, hlocs⟩ := ih hpast h
      have hnone : e.nbytes - (offset - cursor) = 0 := by omega
      have hdist : offset - cursor - e.nbytes = offset - (cursor + e.nbytes) := by omega
      refine ⟨hin.cons, ?_⟩
      rw [hnone, hdist, hlocs.symm]
      rfl
    · split at h
      · cases h
      · cases h
        refine ⟨⟨e, List.mem_cons_self, rfl, by omega, by omega⟩, ?_⟩
        have hfit : min nbytes (e.nbytes - (offset - cursor)) = nbytes := by omega
        have hrest : nbytes - (e.nbytes - (offset - cursor)) = 0 := by omega
        rw [List.take_append, take_span, length_span, hfit, hrest, List.take_zero, List.append_nil]

/-- A range in bounds that is not seen through one extent raises `multi_extent`. -/
theorem viewFrom_error {es : List Extent} {cursor offset nbytes : Nat} {e : Err}
    (hcursor : cursor ≤ offset)
    (hin : offset < cursor + extentBytes es) (h : viewFrom es cursor offset nbytes = .error e) :
    ∃ message, e = .allocator .multiExtent message := by
  induction es generalizing cursor with
  | nil =>
    simp only [extentBytes_nil] at hin
    omega
  | cons x es ih =>
    rw [extentBytes_cons] at hin
    simp only [viewFrom] at h
    split at h
    · next hpast => exact ih hpast (by omega) h
    · split at h
      · cases h
        exact ⟨_, rfl⟩
      · cases h

/-- A range of a tensor lies in one of its extents. -/
def WithinExtent (extents : List Extent) (offset nbytes : Nat) : Prop :=
  ∃ before e after, extents = before ++ e :: after ∧ extentBytes before ≤ offset ∧
    offset + nbytes ≤ extentBytes before + e.nbytes

theorem withinExtent_cons_of_ge {e : Extent} {es : List Extent} {offset nbytes : Nat}
    (hpos : 0 < nbytes) (h : e.nbytes ≤ offset) :
    WithinExtent (e :: es) offset nbytes ↔ WithinExtent es (offset - e.nbytes) nbytes := by
  constructor
  · rintro ⟨before, x, after, heq, hle, hend⟩
    cases before with
    | nil =>
      obtain ⟨rfl, rfl⟩ := List.cons.inj heq
      rw [extentBytes_nil] at hend
      omega
    | cons y before =>
      obtain ⟨rfl, rfl⟩ := List.cons.inj heq
      rw [extentBytes_cons] at hle hend
      exact ⟨before, x, after, rfl, by omega, by omega⟩
  · rintro ⟨before, x, after, rfl, hle, hend⟩
    refine ⟨e :: before, x, after, rfl, ?_, ?_⟩
    · rw [extentBytes_cons]
      omega
    · rw [extentBytes_cons]
      omega

theorem withinExtent_cons_of_lt {e : Extent} {es : List Extent} {offset nbytes : Nat}
    (h : offset < e.nbytes) :
    WithinExtent (e :: es) offset nbytes ↔ offset + nbytes ≤ e.nbytes := by
  constructor
  · rintro ⟨before, x, after, heq, hle, hend⟩
    cases before with
    | nil =>
      obtain ⟨rfl, rfl⟩ := List.cons.inj heq
      simpa using hend
    | cons y before =>
      obtain ⟨rfl, rfl⟩ := List.cons.inj heq
      rw [extentBytes_cons] at hle
      omega
  · intro hend
    exact ⟨[], e, es, rfl, by simp, by simpa using hend⟩

/-- The loop of `slab_view` finds a range exactly when it lies in one extent. -/
theorem viewFrom_iff {es : List Extent} {cursor offset nbytes : Nat} (hcursor : cursor ≤ offset)
    (hpos : 0 < nbytes) :
    (∃ view, viewFrom es cursor offset nbytes = .ok view) ↔
      WithinExtent es (offset - cursor) nbytes := by
  induction es generalizing cursor with
  | nil =>
    constructor
    · rintro ⟨view, h⟩
      cases h
    · rintro ⟨before, e, after, heq, -⟩
      simp at heq
  | cons e es ih =>
    simp only [viewFrom]
    split
    · next hpast =>
      rw [ih hpast, withinExtent_cons_of_ge hpos (by omega), Nat.sub_add_eq]
    · rw [withinExtent_cons_of_lt (by omega)]
      split
      · simp only [reduceCtorEq, exists_false, false_iff]
        omega
      · simp only [Except.ok.injEq, exists_eq', true_iff]
        omega

section

variable {σ : Type} {a : Allocator σ} {r : TensorRecord} {offset nbytes : Nat}

theorem Allocator.Inv.getRecord (ha : a.Inv) (hr : r ∈ a.records) :
    a.getRecord r.handle = .ok r := by
  rw [Allocator.getRecord, ha.lookup hr]

theorem Allocator.Inv.slabView_eq (ha : a.Inv) (hr : r ∈ a.records)
    (hin : offset + nbytes ≤ r.nbytes) :
    a.slabView r.handle offset nbytes = (do
      let view ← viewFrom r.extents 0 offset nbytes
      if view.1 < a.slabs.length then .ok view else .error .indexError) := by
  have hneg : ¬((offset : Int) < 0 ∨ (nbytes : Int) < 0) := by omega
  have hout : ¬(offset : Int) + nbytes > r.nbytes := by omega
  simp only [Allocator.slabView, ha.getRecord hr, bind, Except.bind, if_neg hneg, if_neg hout,
    Int.toNat_natCast]

theorem Allocator.Inv.inOneExtent_lt (ha : a.Inv) (hr : r ∈ a.records) {i o : Nat}
    (h : InOneExtent r.extents i o nbytes) :
    i < a.slabs.length := by
  obtain ⟨e, he, rfl, -⟩ := h
  exact ha.slabIndex_lt (List.mem_flatMap.mpr ⟨r, hr, he⟩)

/-- `slab_view` on a live tensor and a range in bounds. -/
theorem Allocator.Inv.slabView_cases (ha : a.Inv) (hr : r ∈ a.records) (hpos : 0 < nbytes)
    (hin : offset + nbytes ≤ r.nbytes) :
    (∃ i o, a.slabView r.handle offset nbytes = .ok (i, o) ∧
      viewFrom r.extents 0 offset nbytes = .ok (i, o) ∧
      i < a.slabs.length ∧ InOneExtent r.extents i o nbytes ∧
      rangeLocations r.extents offset nbytes = span i o nbytes) ∨
    ∃ message, a.slabView r.handle offset nbytes = .error (.allocator .multiExtent message) ∧
      viewFrom r.extents 0 offset nbytes = .error (.allocator .multiExtent message) := by
  rw [ha.slabView_eq hr hin]
  cases hview : viewFrom r.extents 0 offset nbytes with
  | ok view =>
    obtain ⟨hone, hlocs⟩ := viewFrom_ok (Nat.zero_le offset) hview
    have hlt := ha.inOneExtent_lt hr hone
    refine Or.inl ⟨view.1, view.2, ?_, rfl, hlt, hone, hlocs⟩
    simp only [bind, Except.bind, if_pos hlt]
  | error e =>
    obtain ⟨message, rfl⟩ := viewFrom_error (Nat.zero_le offset) (by rw [ha.sums r hr]; omega) hview
    exact Or.inr ⟨message, rfl, rfl⟩

/-- A view that is returned is the range, in bounds and in one extent. -/
theorem Allocator.Inv.slabView_ok (ha : a.Inv) (hr : r ∈ a.records) {view : Nat × Nat}
    (h : a.slabView r.handle offset nbytes = .ok view) :
    offset + nbytes ≤ r.nbytes ∧ view.1 < a.slabs.length ∧
      rangeLocations r.extents offset nbytes = span view.1 view.2 nbytes := by
  have hin : offset + nbytes ≤ r.nbytes := by
    by_contra hnot
    have hneg : ¬((offset : Int) < 0 ∨ (nbytes : Int) < 0) := by omega
    have hout : (offset : Int) + nbytes > r.nbytes := by omega
    simp only [Allocator.slabView, ha.getRecord hr, bind, Except.bind, if_neg hneg, if_pos hout,
      reduceCtorEq] at h
  rw [ha.slabView_eq hr hin] at h
  cases hview : viewFrom r.extents 0 offset nbytes with
  | error e =>
    rw [hview] at h
    cases h
  | ok v =>
    simp only [hview, bind, Except.bind] at h
    split at h
    · next hlt =>
      cases h
      exact ⟨hin, hlt, (viewFrom_ok (Nat.zero_le offset) hview).2⟩
    · cases h

theorem Allocator.Inv.slabView_iff (ha : a.Inv) (hr : r ∈ a.records) (hpos : 0 < nbytes) :
    (∃ view, a.slabView r.handle offset nbytes = .ok view) ↔
      WithinExtent r.extents offset nbytes := by
  have hiff : (∃ view, viewFrom r.extents 0 offset nbytes = .ok view) ↔
      WithinExtent r.extents offset nbytes :=
    viewFrom_iff (Nat.zero_le offset) hpos
  constructor
  · rintro ⟨view, h⟩
    obtain ⟨hin, -⟩ := ha.slabView_ok hr h
    rw [ha.slabView_eq hr hin] at h
    cases hview : viewFrom r.extents 0 offset nbytes with
    | error e =>
      rw [hview] at h
      cases h
    | ok v => exact hiff.mp ⟨v, hview⟩
  · intro hwithin
    have hin : offset + nbytes ≤ r.nbytes := by
      obtain ⟨before, e, after, heq, -, hend⟩ := hwithin
      have hsum := ha.sums r hr
      rw [heq, extentBytes_append, extentBytes_cons] at hsum
      omega
    obtain ⟨view, hview⟩ := hiff.mpr hwithin
    rcases ha.slabView_cases hr hpos hin with ⟨i, o, hok, -⟩ | ⟨message, -, herr⟩
    · exact ⟨(i, o), hok⟩
    · rw [herr] at hview
      cases hview

/-- No view is refused as an invalid request. -/
theorem Allocator.Inv.slabView_error (ha : a.Inv) (hr : r ∈ a.records) (hpos : 0 < nbytes) {e : Err}
    (h : a.slabView r.handle offset nbytes = .error e) :
    ∃ code message, e = .allocator code message ∧ code ≠ .invalidRequest := by
  by_cases hin : offset + nbytes ≤ r.nbytes
  · rcases ha.slabView_cases hr hpos hin with ⟨i, o, hok, -⟩ | ⟨message, herr, -⟩
    · rw [hok] at h
      cases h
    · rw [herr] at h
      cases h
      exact ⟨_, _, rfl, by decide⟩
  · have hneg : ¬((offset : Int) < 0 ∨ (nbytes : Int) < 0) := by omega
    have hout : (offset : Int) + nbytes > r.nbytes := by omega
    simp only [Allocator.slabView, ha.getRecord hr, bind, Except.bind, if_neg hneg, if_pos hout,
      Except.error.injEq] at h
    exact ⟨_, _, h.symm, by decide⟩

end

end Board
