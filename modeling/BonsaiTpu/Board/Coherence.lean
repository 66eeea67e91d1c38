-- SUMMARY: Which cache lines a matmul invalidates: the lines the DMA wrote exactly when no slab has a gap between them.
import BonsaiTpu.Board.Async

/-!
# Cache invalidation

After its passes the driver invalidates, for every slab, one range that spans all ranges
the DMA wrote into it. PS kernels do not flush what they write, so a line of the range
that the DMA did not write may hold the only copy of another tensor's bytes.
-/

namespace Board

/-! ## Cache lines -/

def CACHELINE : Nat := 32

/-- `_cacheline_bounds`. -/
def cachelineBounds (offset nbytes size : Nat) : Option (Nat × Nat) :=
  if nbytes = 0 then none
  else
    let start := offset - offset % CACHELINE
    let stop := offset + nbytes
    let stop := stop + (CACHELINE - stop % CACHELINE) % CACHELINE
    some (start, if stop > size then size else stop)

/-- A byte in the round-out of a range of a slab. -/
def InRoundOut (offset nbytes size z : Nat) : Prop :=
  ∃ bounds, cachelineBounds offset nbytes size = some bounds ∧ bounds.1 ≤ z ∧ z < bounds.2

/-- The round-out of a range is the lines that hold a byte of it. -/
theorem inRoundOut_iff {offset nbytes size z : Nat} (hz : z < size) :
    InRoundOut offset nbytes size z ↔ ∃ w,
      offset ≤ w ∧ w < offset + nbytes ∧ w / CACHELINE = z / CACHELINE := by
  unfold InRoundOut cachelineBounds
  constructor
  · rintro ⟨bounds, hbounds, hlo, hhi⟩
    split at hbounds
    · cases hbounds
    · next hn =>
      cases hbounds
      have hhi' : z < offset + nbytes +
          (CACHELINE - (offset + nbytes) % CACHELINE) % CACHELINE := by
        simp only at hhi
        split at hhi <;> omega
      simp only [CACHELINE] at *
      by_cases hbefore : z < offset
      · exact ⟨offset, Nat.le_refl _, by omega, by omega⟩
      · by_cases hafter : z < offset + nbytes
        · exact ⟨z, by omega, hafter, rfl⟩
        · exact ⟨offset + nbytes - 1, by omega, by omega, by omega⟩
  · rintro ⟨w, hlo, hhi, hline⟩
    rw [if_neg (by omega)]
    refine ⟨_, rfl, ?_, ?_⟩
    · simp only [CACHELINE] at *
      omega
    · simp only
      split
      · exact hz
      · simp only [CACHELINE] at *
        omega

namespace Matmul

/-! ## What the DMA writes -/

/-- A range of a slab that one pass streams into. -/
structure DmaRange where
  slabIndex : Nat
  lo : Nat
  nbytes : Nat
  deriving DecidableEq

section

variable {σ : Type} (d : Driver) (a : Allocator σ) (s : Setup)

/-- What the DMA writes in a pass that streams its result into dst. -/
def Pass.dmaRange (p : Pass s.rows) : Option DmaRange :=
  (p.target d a s).map fun view => ⟨view.1, view.2.1, p.paddedNbytes s⟩

def dmaRanges (extents : List Extent) : List DmaRange :=
  (allPasses s extents).filterMap fun p => p.dmaRange d a s

end

/-- `dst_dirty` after the ranges were written. -/
def dirtyOf (ranges : List DmaRange) : List Dirty :=
  ranges.foldl (fun dirty r => addDirty r.slabIndex r.lo (r.lo + r.nbytes) dirty) []

/-! ## The merged ranges -/

/-- `dst_dirty` has one entry for each slab, from the first to the last byte that was written
    there. -/
structure Merged (ranges : List DmaRange) (dirty : List Dirty) : Prop where
  distinct : dirty.Pairwise fun e e' => e.slabIndex ≠ e'.slabIndex
  covers : ∀ r ∈ ranges, ∃ e ∈ dirty, e.slabIndex = r.slabIndex ∧ e.lo ≤ r.lo ∧
    r.lo + r.nbytes ≤ e.hi
  lo_eq : ∀ e ∈ dirty, ∃ r ∈ ranges, r.slabIndex = e.slabIndex ∧ r.lo = e.lo
  hi_eq : ∀ e ∈ dirty, ∃ r ∈ ranges, r.slabIndex = e.slabIndex ∧ r.lo + r.nbytes = e.hi

/-- The entry of a slab is widened in place, or a new one is added at the end. -/
theorem addDirty_cases (i lo hi : Nat) (dirty : List Dirty) :
    (∃ pre e post, dirty = pre ++ e :: post ∧ e.slabIndex = i ∧
      addDirty i lo hi dirty = pre ++ ⟨i, min e.lo lo, max e.hi hi⟩ :: post) ∨
    (∀ e ∈ dirty, e.slabIndex ≠ i) ∧ addDirty i lo hi dirty = dirty ++ [⟨i, lo, hi⟩] := by
  induction dirty with
  | nil => exact Or.inr ⟨by simp, rfl⟩
  | cons entry rest ih =>
    unfold addDirty
    split
    · next heq => exact Or.inl ⟨[], entry, rest, rfl, heq, rfl⟩
    · next hne =>
      rcases ih with ⟨pre, e, post, rfl, he, hadd⟩ | ⟨hnone, hadd⟩
      · exact Or.inl ⟨entry :: pre, e, post, rfl, he, by rw [hadd]; rfl⟩
      · refine Or.inr ⟨?_, by rw [hadd]; rfl⟩
        intro e he
        cases he with
        | head => exact hne
        | tail _ he => exact hnone e he

theorem Merged.nil : Merged [] [] := ⟨.nil, by simp, by simp, by simp⟩

section

variable {ranges : List DmaRange} {r : DmaRange} {P : DmaRange → Prop}

theorem exists_mem_concat (h : ∃ r' ∈ ranges, P r') : ∃ r' ∈ ranges ++ [r], P r' := by
  obtain ⟨r', hr', hP⟩ := h
  exact ⟨r', List.mem_append_left _ hr', hP⟩

theorem mem_concat_self : r ∈ ranges ++ [r] := List.mem_append_right _ List.mem_cons_self

/-- A range in a slab that has an entry. -/
theorem Merged.widen {pre post : List Dirty} {e : Dirty} (h : Merged ranges (pre ++ e :: post))
    (he : e.slabIndex = r.slabIndex) :
    Merged (ranges ++ [r])
      (pre ++ ⟨r.slabIndex, min e.lo r.lo, max e.hi (r.lo + r.nbytes)⟩ :: post) := by
  obtain ⟨hdistinct, hcovers, hlo, hhi⟩ := h
  have hmem : ∀ e' ∈ pre ++ ⟨r.slabIndex, min e.lo r.lo, max e.hi (r.lo + r.nbytes)⟩ :: post,
      e' = ⟨r.slabIndex, min e.lo r.lo, max e.hi (r.lo + r.nbytes)⟩ ∨ e' ∈ pre ++ e :: post := by
    intro e' he'
    rcases List.mem_append.mp he' with hpre | hpost
    · exact Or.inr (List.mem_append_left _ hpre)
    · exact (List.mem_cons.mp hpost).imp id fun h =>
        List.mem_append_right _ (List.mem_cons_of_mem _ h)
  have hself : e ∈ pre ++ e :: post := List.mem_append_right _ List.mem_cons_self
  refine ⟨?_, ?_, ?_, ?_⟩
  · -- widening does not change the slabs
    have hmap : (pre ++ e :: post).map Dirty.slabIndex =
        (pre ++ ⟨r.slabIndex, min e.lo r.lo, max e.hi (r.lo + r.nbytes)⟩ :: post).map
          Dirty.slabIndex := by
      simp [he]
    rw [← List.pairwise_map (f := Dirty.slabIndex) (R := fun i i' => i ≠ i')] at hdistinct ⊢
    rwa [← hmap]
  · -- every range is still covered, the new one by the widened entry
    intro r' hr'
    rcases List.mem_append.mp hr' with hr' | hr'
    · obtain ⟨e', he', hslab, h1, h2⟩ := hcovers r' hr'
      rcases List.mem_append.mp he' with hpre | hpost
      · exact ⟨e', List.mem_append_left _ hpre, hslab, h1, h2⟩
      · cases hpost with
        | head =>
          refine ⟨_, List.mem_append_right _ List.mem_cons_self, by rw [← hslab, he], ?_, ?_⟩
          · simp only
            omega
          · simp only
            omega
        | tail _ hpost =>
          exact ⟨e', List.mem_append_right _ (List.mem_cons_of_mem _ hpost), hslab, h1, h2⟩
    · obtain rfl := List.mem_singleton.mp hr'
      refine ⟨_, List.mem_append_right _ List.mem_cons_self, rfl, ?_, ?_⟩
      · simp only
        omega
      · simp only
        omega
  · intro e' he'
    rcases hmem e' he' with rfl | he'
    · rcases Nat.le_total e.lo r.lo with hle | hle
      · simp only [Nat.min_eq_left hle, ← he]
        exact exists_mem_concat (hlo e hself)
      · simp only [Nat.min_eq_right hle]
        exact ⟨r, mem_concat_self, rfl, rfl⟩
    · exact exists_mem_concat (hlo e' he')
  · intro e' he'
    rcases hmem e' he' with rfl | he'
    · rcases Nat.le_total (r.lo + r.nbytes) e.hi with hle | hle
      · simp only [Nat.max_eq_left hle, ← he]
        exact exists_mem_concat (hhi e hself)
      · simp only [Nat.max_eq_right hle]
        exact ⟨r, mem_concat_self, rfl, rfl⟩
    · exact exists_mem_concat (hhi e' he')

/-- A range in a slab that has no entry yet. -/
theorem Merged.append {dirty : List Dirty} (h : Merged ranges dirty)
    (hnone : ∀ e ∈ dirty, e.slabIndex ≠ r.slabIndex) :
    Merged (ranges ++ [r]) (dirty ++ [⟨r.slabIndex, r.lo, r.lo + r.nbytes⟩]) := by
  refine ⟨?_, ?_, ?_, ?_⟩
  · refine List.pairwise_append.mpr ⟨h.distinct, List.pairwise_singleton _ _, ?_⟩
    intro e he e' he'
    obtain rfl := List.mem_singleton.mp he'
    exact hnone e he
  · intro r' hr'
    rcases List.mem_append.mp hr' with hr' | hr'
    · obtain ⟨e, he, hcover⟩ := h.covers r' hr'
      exact ⟨e, List.mem_append_left _ he, hcover⟩
    · obtain rfl := List.mem_singleton.mp hr'
      exact ⟨_, List.mem_append_right _ List.mem_cons_self, rfl, Nat.le_refl _, Nat.le_refl _⟩
  · intro e he
    rcases List.mem_append.mp he with he | he
    · exact exists_mem_concat (h.lo_eq e he)
    · obtain rfl := List.mem_singleton.mp he
      exact ⟨r, mem_concat_self, rfl, rfl⟩
  · intro e he
    rcases List.mem_append.mp he with he | he
    · exact exists_mem_concat (h.hi_eq e he)
    · obtain rfl := List.mem_singleton.mp he
      exact ⟨r, mem_concat_self, rfl, rfl⟩

/-- One more range keeps the entries merged. -/
theorem Merged.add {dirty : List Dirty} (h : Merged ranges dirty) (r : DmaRange) :
    Merged (ranges ++ [r]) (addDirty r.slabIndex r.lo (r.lo + r.nbytes) dirty) := by
  rcases addDirty_cases r.slabIndex r.lo (r.lo + r.nbytes) dirty
    with ⟨pre, e, post, rfl, he, hadd⟩ | ⟨hnone, hadd⟩
  · rw [hadd]
    exact h.widen he
  · rw [hadd]
    exact h.append hnone

end

theorem merged_dirtyOf (ranges : List DmaRange) : Merged ranges (dirtyOf ranges) := by
  induction ranges using List.reverseRecOn with
  | nil => exact .nil
  | append_singleton ranges r ih =>
    unfold dirtyOf at ih ⊢
    rw [List.foldl_append]
    exact ih.add r

/-! ## Exact invalidation -/

/-- A byte of a slab that the DMA writes. -/
def Streamed (ranges : List DmaRange) (slabIndex x : Nat) : Prop :=
  ∃ r ∈ ranges, r.slabIndex = slabIndex ∧ r.lo ≤ x ∧ x < r.lo + r.nbytes

/-- Every cache line between two bytes of a slab that the DMA writes holds such a byte. -/
def Gapless (ranges : List DmaRange) : Prop :=
  ∀ slabIndex x y z, Streamed ranges slabIndex x → Streamed ranges slabIndex y → x ≤ z → z ≤ y →
    ∃ w, Streamed ranges slabIndex w ∧ w / CACHELINE = z / CACHELINE

/-- Every byte that is invalidated lies in the round-out of a range that the DMA wrote. -/
def InvalidatesOnly {σ : Type} (a : Allocator σ) (ranges : List DmaRange)
    (events : List Act) : Prop :=
  ∀ i offset nbytes, Act.invalidateRange i offset nbytes ∈ events → ∀ z,
    offset ≤ z → z < offset + nbytes →
    ∃ slab, a.slabs[i]? = some slab ∧ ∃ r ∈ ranges,
    r.slabIndex = i ∧ InRoundOut r.lo r.nbytes slab.size z

section

variable {σ : Type} {a : Allocator σ} {ranges : List DmaRange}

/-- The merged ranges are exact when there are no gaps, and only then. -/
theorem invalidatesOnly_iff (hpos : ∀ r ∈ ranges, 0 < r.nbytes)
    (hinside : ∀ r ∈ ranges, ∃ slab, a.slabs[r.slabIndex]? = some slab ∧
      r.lo + r.nbytes ≤ slab.size) :
    InvalidatesOnly a ranges
        ((dirtyOf ranges).map fun entry =>
          .invalidateRange entry.slabIndex entry.lo (entry.hi - entry.lo)) ↔
      Gapless ranges := by
  obtain ⟨hdistinct, hcovers, hlo, hhi⟩ := merged_dirtyOf ranges
  constructor
  · rintro hexact i x y z ⟨rx, hrx, rfl, hx1, hx2⟩ ⟨ry, hry, hslab, hy1, hy2⟩ hxz hzy
    obtain ⟨e, he, heslab, helo, hehi⟩ := hcovers rx hrx
    obtain ⟨e', he', heslab', -, hehi'⟩ := hcovers ry hry
    -- one entry covers both bytes
    obtain rfl : e = e' := by
      have hsymm : Std.Symm fun e e' : Dirty => e.slabIndex ≠ e'.slabIndex := ⟨fun _ _ h => h.symm⟩
      by_contra hne
      exact hdistinct.forall he he' hne (by rw [heslab, heslab', hslab])
    obtain ⟨slab, hslabs, r, hr, hrslab, hround⟩ := hexact e.slabIndex e.lo (e.hi - e.lo)
      (List.mem_map.mpr ⟨e, he, rfl⟩) z (by omega) (by omega)
    obtain ⟨slab', hslabs', hsize⟩ := hinside ry hry
    obtain rfl : slab = slab' := by
      rw [heslab, ← hslab] at hslabs
      exact Option.some.inj (hslabs.symm.trans hslabs')
    obtain ⟨w, hw1, hw2, hline⟩ := (inRoundOut_iff (by omega)).mp hround
    exact ⟨w, ⟨r, hr, by rw [hrslab, heslab], hw1, hw2⟩, hline⟩
  · intro hgap i offset nbytes hmem z hz1 hz2
    obtain ⟨e, he, heq⟩ := List.mem_map.mp hmem
    cases heq
    obtain ⟨r, hr, hrslab, hrlo⟩ := hlo e he
    obtain ⟨r', hr', hrslab', hrhi⟩ := hhi e he
    have hpos' := hpos r' hr'
    have hposr := hpos r hr
    obtain ⟨slab, hslabs, hsize⟩ := hinside r' hr'
    obtain ⟨w, ⟨rw', hrw, hwslab, hw1, hw2⟩, hline⟩ := hgap e.slabIndex r.lo (e.hi - 1) z
      ⟨r, hr, hrslab, Nat.le_refl _, by omega⟩ ⟨r', hr', hrslab', by omega, by omega⟩
      (by omega) (by omega)
    rw [hrslab'] at hslabs
    exact ⟨slab, hslabs, rw', hrw, hwslab, (inRoundOut_iff (by omega)).mpr ⟨w, hw1, hw2, hline⟩⟩

end

section

variable {σ : Type} {d : Driver} {a : Allocator σ} {s : Setup} {weights dst : TensorRecord}

/-- `dst_dirty` after the passes. -/
theorem Ready.foldl_mark (h : Ready d a s weights dst) (ps : List (Pass s.rows))
    (hps : ∀ p ∈ ps, IsPass s weights.extents p ∧ p.col < s.cols) (dirty : List Dirty) :
    ps.foldl (fun dirty p => p.mark d a s dirty) dirty =
      (ps.filterMap fun p => p.dmaRange d a s).foldl
        (fun dirty r => addDirty r.slabIndex r.lo (r.lo + r.nbytes) dirty) dirty := by
  induction ps generalizing dirty with
  | nil => rfl
  | cons p ps ih =>
    obtain ⟨hp, hcol⟩ := hps p List.mem_cons_self
    rw [List.foldl_cons, ih fun p' hp' => hps p' (List.mem_cons_of_mem _ hp')]
    rcases h.target_cases hp hcol with ⟨i, o, physical, heq, -, -, htarget, -⟩ | ⟨htarget, -⟩
    · rw [List.filterMap_cons_some (show p.dmaRange d a s = some ⟨i, o, p.paddedNbytes s⟩ by
        rw [Pass.dmaRange, htarget]; rfl)]
      simp only [Pass.mark, htarget, List.foldl_cons, heq]
    · rw [List.filterMap_cons_none (show p.dmaRange d a s = none by
        rw [Pass.dmaRange, htarget]; rfl)]
      simp only [Pass.mark, htarget]

/-- The DMA writes inside of slabs. -/
theorem Ready.dmaRanges_inside (h : Ready d a s weights dst) :
    ∀ r ∈ dmaRanges d a s weights.extents,
    0 < r.nbytes ∧ ∃ slab, a.slabs[r.slabIndex]? = some slab ∧ r.lo + r.nbytes ≤ slab.size := by
  intro r hr
  obtain ⟨p, hp, hrange⟩ := List.mem_filterMap.mp hr
  obtain ⟨hpass, hcol⟩ := isPass_of_mem_all hp
  have hpos := (h.dst_range hpass hcol).1
  rcases h.target_cases hpass hcol
    with ⟨i, o, physical, heq, -, -, htarget, hone, hlocs⟩ | ⟨htarget, -⟩
  · rw [Pass.dmaRange, htarget] at hrange
    cases hrange
    refine ⟨heq ▸ hpos, ?_⟩
    -- the last byte is a byte of the tensor
    have hlast : (i, o + p.paddedNbytes s - 1) ∈ locations dst.extents := by
      have hmem : (i, o + p.paddedNbytes s - 1) ∈ span i o (p.paddedNbytes s) :=
        mem_span.mpr ⟨rfl, by simp only; omega, by simp only; omega⟩
      rw [← hlocs] at hmem
      exact List.mem_of_mem_drop (List.mem_of_mem_take hmem)
    obtain ⟨slab, hslab, hlt⟩ := h.inv.inside (mem_liveLocations h.dst_live hlast)
    simp only at hlt
    exact ⟨slab, hslab, by simp only; omega⟩
  · rw [Pass.dmaRange, htarget] at hrange
    cases hrange

end

/-! ## Ops -/

section

variable {σ : Type} {d : Driver} {a : Allocator σ}

/-- The setup of an op without its buffers. -/
def Job.bare {op : Op} (j : Job a op) : Setup := j.setup 0 ⟨0, 0, 0⟩ ⟨0, 0, 0⟩ ⟨0, 0, 0⟩

/-- The passes of an op do not depend on its buffers. -/
theorem Job.passes_eq {op : Op} (j : Job a op) (actsAddr : Nat) (acts weightsDma result : Buffer)
    (extents : List Extent) (col : Nat) (cur : Cursor j.rows) :
    passes (j.setup actsAddr acts weightsDma result) extents col cur =
      passes j.bare extents col cur := by
  induction cur using passes_induction (s := j.setup actsAddr acts weightsDma result) extents with
  | done cur h =>
    rw [passes_of_le h]
    exact (passes_of_le (s := j.bare) h).symm
  | step cur h ih =>
    rw [passes_of_lt h, ih]
    exact (passes_of_lt (s := j.bare) h).symm

/-- The ranges that the DMA writes for an op: those of the chunks of whole rowblocks whose
    part of dst lies in one extent. -/
def Job.dmaRanges (d : Driver) {op : Op} (j : Job a op) : List DmaRange :=
  Matmul.dmaRanges d a j.bare j.weights.extents

theorem Job.dmaRanges_eq (d : Driver) {op : Op} (j : Job a op) (actsAddr : Nat)
    (acts weightsDma result : Buffer) :
    Matmul.dmaRanges d a (j.setup actsAddr acts weightsDma result) j.weights.extents =
      j.dmaRanges d := by
  have hpasses : allPasses (j.setup actsAddr acts weightsDma result) j.weights.extents =
      allPasses j.bare j.weights.extents :=
    List.flatMap_congr fun col _ => j.passes_eq actsAddr acts weightsDma result _ _ _
  unfold Job.dmaRanges Matmul.dmaRanges
  rw [hpasses]
  rfl

theorem invalidateRange_not_mem (s : Setup) (extents : List Extent) (cols : List Nat)
    (i offset nbytes : Nat) :
    Act.invalidateRange i offset nbytes ∉ cols.flatMap (columnEvents d a s extents) := by
  intro hmem
  obtain ⟨col, -, hcol⟩ := List.mem_flatMap.mp hmem
  rcases List.mem_append.mp hcol with hhead | hpasses
  · simp at hhead
  · obtain ⟨p, -, hp⟩ := List.mem_flatMap.mp hpasses
    unfold Pass.events at hp
    cases hsource : p.source d a s <;> cases htarget : p.target d a s <;>
      simp [hsource, htarget] at hp

/-- The driver invalidates only cache lines that the DMA wrote exactly when, in every slab,
    there is no line without a streamed byte between two streamed bytes. -/
theorem invalidation_exact_iff {op : Op} (j : Job a op) (ha : a.Inv)
    (hd : d.Works a.slabs.length) (b : Buffers) :
    InvalidatesOnly a (j.dmaRanges d) (run d a b op).events ↔ Gapless (j.dmaRanges d) := by
  obtain ⟨pre, actsAddr, actsIn, acts, weightsDma, result, hready, hpre, hrun⟩ := j.run_eq ha hd b
  have hranges := j.dmaRanges_eq d actsAddr acts weightsDma result
  have hinside := hready.dmaRanges_inside
  rw [hranges] at hinside
  have hdirty := hready.foldl_mark _ (fun p hp => isPass_of_mem_all hp) []
  rw [show (allPasses (j.setup actsAddr acts weightsDma result) j.weights.extents).filterMap
    (fun p => p.dmaRange d a (j.setup actsAddr acts weightsDma result)) =
      j.dmaRanges d from hranges] at hdirty
  have hpre' : ∀ i offset nbytes, Act.invalidateRange i offset nbytes ∉ pre := by
    rcases hpre with rfl | rfl <;> simp
  rw [← invalidatesOnly_iff (fun r hr => (hinside r hr).1) (fun r hr => (hinside r hr).2), hrun]
  simp only [InvalidatesOnly, List.mem_append, hpre', invalidateRange_not_mem, false_or, hdirty]
  rfl

end

theorem invalidation_exact_narrow :
    narrowJob.dmaRanges quietDriver = [⟨0, 1344, 32⟩] ∧
      InvalidatesOnly (matmulAllocator 256) (narrowJob.dmaRanges quietDriver)
        (run quietDriver (matmulAllocator 256) noBuffers (matmulOp 256)).events := by
  have hranges : narrowJob.dmaRanges quietDriver = [⟨0, 1344, 32⟩] := by decide +kernel
  refine ⟨hranges, ?_⟩
  rw [invalidation_exact_iff narrowJob (matmulAllocator_inv 256) (quietDriver_works _) noBuffers,
    hranges]
  rintro i x y z ⟨r, hr, hi, hx1, hx2⟩ ⟨r', hr', -, hy1, hy2⟩ hxz hzy
  obtain rfl := List.mem_singleton.mp hr
  obtain rfl := List.mem_singleton.mp hr'
  exact ⟨z, ⟨_, List.mem_singleton_self _, hi, by omega, by omega⟩, rfl⟩

/-! ### A tensor between two extents of dst -/

/-- Two tensors are freed on both sides of a third, and dst takes their place. -/
def interleavedAllocator : Allocator Unit :=
  let slabs : List (Slab Unit) := [⟨192, ()⟩, ⟨1344, ()⟩]
  let attrs : Attrs := ⟨[], "u8", "tensor", "raw"⟩
  (calls ⟨fun _ _ _ _ => ([], ()), fun _ _ _ _ => ()⟩
    ⟨slabs, slabs.map fun slab => [(0, slab.size)], [], 1, 64⟩
    [.allocate 64 attrs none, .allocate 64 attrs none, .allocate 64 attrs none,
      .allocate 288 attrs none, .allocate 1024 attrs none, .free 1, .free 3,
      .allocate 128 attrs none]).2

def interleavedOp : Op :=
  ⟨some (some 16), some (some 2), some (some 128), some (some 4), none, some (some 5), none,
    some (some 6), none⟩

def interleavedJob : Job interleavedAllocator interleavedOp where
  rows := 16
  cols := 2
  k := 128
  weights := ⟨4, 288, [], "u8", "tensor", "raw", [⟨1, 0, 288⟩]⟩
  weightsOffset := 0
  acts := ⟨5, 1024, [], "u8", "tensor", "raw", [⟨1, 320, 1024⟩]⟩
  actsOffset := 0
  dst := ⟨6, 128, [], "u8", "tensor", "raw", [⟨0, 0, 64⟩, ⟨0, 128, 64⟩]⟩
  dstOffset := 0
  shape := rfl
  weights_eq := rfl
  weightsOffset_eq := rfl
  acts_eq := rfl
  actsOffset_eq := rfl
  dst_eq := rfl
  dstOffset_eq := rfl
  weights_live := by decide +kernel
  acts_live := by decide +kernel
  dst_live := by decide +kernel
  weights_inBounds n hn := by
    cases hn
    decide
  acts_inBounds := by decide
  dst_inBounds := by decide

/-- The two columns go to the two extents of dst, and all of tensor 2 between them is
    invalidated. -/
theorem invalidation_discards_neighbour :
    (⟨2, 64, [], "u8", "tensor", "raw", [⟨0, 64, 64⟩]⟩ : TensorRecord) ∈
      interleavedAllocator.records ∧
      interleavedJob.dmaRanges quietDriver = [⟨0, 0, 64⟩, ⟨0, 128, 64⟩] ∧
      Act.invalidateRange 0 0 192 ∈
        (run quietDriver interleavedAllocator noBuffers interleavedOp).events ∧
      ¬InvalidatesOnly interleavedAllocator (interleavedJob.dmaRanges quietDriver)
        (run quietDriver interleavedAllocator noBuffers interleavedOp).events := by
  have hranges : interleavedJob.dmaRanges quietDriver = [⟨0, 0, 64⟩, ⟨0, 128, 64⟩] := by
    decide +kernel
  have hmem : Act.invalidateRange 0 0 192 ∈
      (run quietDriver interleavedAllocator noBuffers interleavedOp).events := by
    decide +kernel
  refine ⟨by decide +kernel, hranges, hmem, ?_⟩
  rw [hranges]
  intro h
  obtain ⟨slab, hslab, r, hr, -, hround⟩ := h 0 0 192 hmem 64 (by decide) (by decide)
  have hsize : slab.size = 192 := by
    have hsizes : (interleavedAllocator.slabs[0]?).map Slab.size = some 192 := by decide +kernel
    rw [hslab] at hsizes
    exact Option.some.inj hsizes
  obtain ⟨w, hw1, hw2, hline⟩ := (inRoundOut_iff (by omega)).mp hround
  simp only [CACHELINE] at hline
  rcases List.mem_cons.mp hr with rfl | hr
  · simp only at hw1 hw2
    omega
  · obtain rfl := List.mem_singleton.mp hr
    simp only at hw1 hw2
    omega

end Matmul

end Board
