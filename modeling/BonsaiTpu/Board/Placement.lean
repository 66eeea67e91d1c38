-- SUMMARY: What placement and release do to the free lists: bytes move between free blocks and extents, and none is lost or duplicated.
import BonsaiTpu.Board.Allocator
import Mathlib.Data.Nat.ModEq

/-!
# Placement and release

Specifications of the free-list functions, one per function. `Placement` relates
the free lists before and after an allocation to the extents it hands out; the
release of extents is its converse.
-/

namespace Board

open Blocks

/-! ## One free list -/

/-- The form of a free list of a slab whose free list was `whole` at first. A slab
    of size zero keeps its empty block; all other free lists are canonical. -/
def Regular (whole l : List Block) : Prop := if whole = [(0, 0)] then l = whole else Canonical l

theorem Regular.of_canonical {l l' : List Block} (h : Canonical l) (h' : Canonical l') :
    Regular l l' := by
  unfold Regular
  rw [if_neg h.ne_zero]
  exact h'

theorem Regular.canonical {whole l : List Block} (h : Regular whole l) (hne : whole ≠ [(0, 0)]) :
    Canonical l := by
  unfold Regular at h
  rwa [if_neg hne] at h

/-- A free list that covers anything is canonical. -/
theorem Regular.of_cover {l : List Block} (h : Regular l l) {b : Nat} (hb : 0 < cover l b) :
    Canonical l := by
  apply h.canonical
  rintro rfl
  obtain ⟨p, hp, h1, h2⟩ := exists_of_cover_pos hb
  rw [List.mem_singleton.mp hp] at h1 h2
  simp only at h1 h2
  omega

theorem Regular.trans {l l' l'' : List Block} (h : Regular l l') (h' : Regular l' l'') :
    Regular l l'' := by
  unfold Regular at *
  by_cases hl : l = [(0, 0)]
  · rw [if_pos hl] at h ⊢
    rw [h, if_pos hl] at h'
    exact h'
  · rw [if_neg hl] at h ⊢
    rwa [if_neg h.ne_zero] at h'

theorem Regular.ext {whole l l' : List Block} (h : Regular whole l) (h' : Regular whole l')
    (hcov : ∀ b, cover l b = cover l' b) : l = l' := by
  unfold Regular at h h'
  split at h
  · next hw =>
    rw [if_pos hw] at h'
    exact h.trans h'.symm
  · next hw =>
    rw [if_neg hw] at h'
    exact h.ext h' hcov

theorem alignUp_spec {value r : Nat} {alignment : Int} (h : alignUp value alignment = .ok r) :
    0 < alignment ∧ value ≤ r ∧ alignment ∣ (r : Int) := by
  unfold alignUp at h
  split at h
  · cases h
  · next hpos =>
    have hk : 0 < alignment.toNat := by omega
    cases h
    refine ⟨by omega, ?_, ?_⟩
    · have hdiv := Nat.div_add_mod (value + alignment.toNat - 1) alignment.toNat
      have hmod := Nat.mod_lt (value + alignment.toNat - 1) hk
      rw [Nat.mul_comm] at hdiv
      omega
    · have hcast : (alignment.toNat : Int) = alignment := Int.toNat_of_nonneg (by omega)
      rw [Int.natCast_mul, hcast]
      exact Dvd.intro_left _ rfl

theorem findBlock_spec {alignment : Int} {nbytes aligned : Nat} {l : List Block}
    (h : findBlock alignment nbytes l = .ok (some aligned)) :
    alignment ∣ (aligned : Int) ∧ ∃ p ∈ l, p.1 ≤ aligned ∧ aligned + nbytes ≤ p.1 + p.2 := by
  induction l with
  | nil => cases h
  | cons p rest ih =>
    obtain ⟨offset, size⟩ := p
    rw [findBlock] at h
    cases ha : alignUp offset alignment with
    | error e => rw [ha] at h; cases h
    | ok r =>
      obtain ⟨-, hle, hdvd⟩ := alignUp_spec ha
      simp only [ha, bind, Except.bind] at h
      split at h
      · next hfit =>
        cases h
        exact ⟨hdvd, (offset, size), List.mem_cons_self, hle, hfit⟩
      · obtain ⟨hd, q, hq, hfit⟩ := ih h
        exact ⟨hd, q, List.mem_cons_of_mem _ hq, hfit⟩

theorem findSlab_spec {alignment : Int} {nbytes slabIndex aligned base : Nat}
    {free : List (List Block)}
    (h : findSlab alignment nbytes free base = .ok (some (slabIndex, aligned))) :
    ∃ i l, slabIndex = base + i ∧ free[i]? = some l ∧ alignment ∣ (aligned : Int) ∧
      ∃ p ∈ l, p.1 ≤ aligned ∧ aligned + nbytes ≤ p.1 + p.2 := by
  induction free generalizing base with
  | nil => cases h
  | cons l free ih =>
    rw [findSlab] at h
    cases hb : findBlock alignment nbytes l with
    | error e => rw [hb] at h; cases h
    | ok found =>
      simp only [hb, bind, Except.bind] at h
      cases found with
      | some r =>
        cases h
        exact ⟨0, l, rfl, rfl, findBlock_spec hb⟩
      | none =>
        obtain ⟨i, l', hi, hl, hrest⟩ := ih h
        exact ⟨i + 1, l', by omega, by simpa using hl, hrest⟩

theorem takeBlock_spec {offset nbytes : Nat} {l : List Block}
    (h : ∃ p ∈ l, p.1 ≤ offset ∧ offset + nbytes ≤ p.1 + p.2) (hl : Regular l l) (hn : 0 < nbytes) :
    ∃ l', takeBlock offset nbytes l = some l' ∧ Carved l offset nbytes l' := by
  have hcanon : Canonical l := by
    obtain ⟨p, hp, h1, h2⟩ := h
    exact hl.of_cover (cover_pos hp h1 (by omega))
  have hsplit : ∃ l₁ p l₂, l = l₁ ++ p :: l₂ ∧ p.1 ≤ offset ∧ offset + nbytes ≤ p.1 + p.2 ∧
      takeBlock offset nbytes l = some (l₁ ++ carve p offset nbytes ++ l₂) := by
    clear hl hcanon
    induction l with
    | nil => simp at h
    | cons q rest ih =>
      by_cases hq : q.1 ≤ offset ∧ offset + nbytes ≤ q.1 + q.2
      · refine ⟨[], q, rest, rfl, hq.1, hq.2, ?_⟩
        obtain ⟨o, s⟩ := q
        rw [takeBlock, if_pos hq]
        rfl
      · have hrest : ∃ p ∈ rest, p.1 ≤ offset ∧ offset + nbytes ≤ p.1 + p.2 := by
          obtain ⟨p, hp, hfit⟩ := h
          cases hp with
          | head => exact absurd hfit hq
          | tail _ hp => exact ⟨p, hp, hfit⟩
        obtain ⟨l₁, p, l₂, rfl, h1, h2, ht⟩ := ih hrest
        refine ⟨q :: l₁, p, l₂, rfl, h1, h2, ?_⟩
        obtain ⟨o, s⟩ := q
        rw [takeBlock, if_neg hq, ht]
        rfl
  obtain ⟨l₁, p, l₂, rfl, h1, h2, ht⟩ := hsplit
  exact ⟨_, ht, hcanon.carved h1 h2 hn⟩

theorem takeLargest_spec {maxSize o n : Nat} {alignment : Int} {l l' : List Block}
    (h : takeLargest maxSize alignment l = .ok (some (o, n, l'))) (hl : Regular l l)
    (hmax : 0 < maxSize) :
    0 < n ∧ n ≤ maxSize ∧ alignment ∣ (o : Int) ∧ Carved l o n l' := by
  have hsplit : ∃ l₁ p l₂, l = l₁ ++ p :: l₂ ∧ p.1 ≤ o ∧ o + n ≤ p.1 + p.2 ∧ 0 < n ∧ n ≤ maxSize ∧
      alignment ∣ (o : Int) ∧ l' = l₁ ++ carve p o n ++ l₂ := by
    clear hl
    induction l generalizing l' with
    | nil => cases h
    | cons q rest ih =>
      obtain ⟨offset, size⟩ := q
      rw [takeLargest] at h
      cases ha : alignUp offset alignment with
      | error e => rw [ha] at h; cases h
      | ok aligned =>
        obtain ⟨-, hle, hdvd⟩ := alignUp_spec ha
        simp only [ha, bind, Except.bind] at h
        -- nothing is left of the block behind the aligned offset: it is passed over
        split at h
        · cases ht : takeLargest maxSize alignment rest with
          | error e => rw [ht] at h; cases h
          | ok taken =>
            rw [ht] at h
            cases taken with
            | none => cases h
            | some r =>
              obtain ⟨o', n', l''⟩ := r
              simp only [Option.map_some, Except.ok.injEq, Option.some.injEq, Prod.mk.injEq] at h
              obtain ⟨rfl, rfl, rfl⟩ := h
              obtain ⟨l₁, p, l₂, rfl, h1, h2, h3, h4, h5, rfl⟩ := ih ht
              exact ⟨(offset, size) :: l₁, p, l₂, rfl, h1, h2, h3, h4, h5, rfl⟩
        · next havail =>
          simp only [Except.ok.injEq, Option.some.injEq, Prod.mk.injEq] at h
          obtain ⟨rfl, rfl, rfl⟩ := h
          refine ⟨[], (offset, size), rest, rfl, hle, by simp only; omega, by omega,
            by omega, hdvd, ?_⟩
          have hhead : aligned - offset ≠ 0 ↔ aligned > offset := by omega
          have htail : size - (aligned - offset) - min maxSize (size - (aligned - offset)) ≠ 0 ↔
              aligned + min maxSize (size - (aligned - offset)) < offset + size := by omega
          have hsize : size - (aligned - offset) - min maxSize (size - (aligned - offset)) =
              offset + size - (aligned + min maxSize (size - (aligned - offset))) := by omega
          simp only [carve, List.nil_append, hhead, htail]
          rw [hsize]
  obtain ⟨l₁, p, l₂, rfl, h1, h2, hn, hle, hdvd, rfl⟩ := hsplit
  have hcanon : Canonical (l₁ ++ p :: l₂) :=
    hl.of_cover (cover_pos (b := o) (p := p) (by simp) h1 (by omega))
  exact ⟨hn, hle, hdvd, hcanon.carved h1 h2 hn⟩

theorem blockLe_total (p q : Block) : blockLe p q ∨ blockLe q p := by
  unfold blockLe
  omega

theorem blockLe_trans {p q r : Block} (h1 : blockLe p q) (h2 : blockLe q r) : blockLe p r := by
  unfold blockLe at *
  omega

instance : Std.Total blockLe := ⟨blockLe_total⟩

instance : IsTrans Block blockLe := ⟨fun _ _ _ => blockLe_trans⟩

/-- `l'` is `l` with `[o, o + n)` added. -/
theorem releaseBlock_spec {l : List Block} {o n : Nat} (hl : Canonical l) (hn : 0 < n)
    (hdisj : ∀ b, cover l b + hit (o, n) b ≤ 1) : Canonical (releaseBlock l o n) ∧
      Carved (releaseBlock l o n) o n l := by
  have hperm := List.perm_insertionSort blockLe (l ++ [(o, n)])
  have hcover : ∀ b, cover ((l ++ [(o, n)]).insertionSort blockLe) b =
      cover l b + hit (o, n) b := by
    intro b
    rw [cover_perm hperm, cover_append, cover_cons, cover_nil, Nat.add_zero]
  obtain ⟨hcanon, hcov, htotal⟩ : Coalesced _ (releaseBlock l o n) := by
    apply coalesce_spec
    · refine (List.pairwise_insertionSort blockLe (l ++ [(o, n)])).imp ?_
      intro p q hle
      unfold blockLe at hle
      omega
    · intro p hp
      rcases List.mem_append.mp (hperm.mem_iff.mp hp) with hp | hp
      · exact hl.pos p hp
      · rw [List.mem_singleton.mp hp]
        exact hn
    · intro b
      rw [hcover]
      exact hdisj b
  refine ⟨hcanon, hl, fun b => ?_, ?_⟩
  · rw [hcov, hcover]
  · rw [htotal, total_perm hperm, total_append, total_cons, total_nil, Nat.add_zero]

/-! ## All free lists -/

/-- The blocks that extents occupy in one slab. -/
def ownedBy (i : Nat) (extents : List Extent) : List Block :=
  (extents.filter fun e => e.slabIndex = i).map fun e => (e.offset, e.nbytes)

def extentBytes (extents : List Extent) : Nat := (extents.map Extent.nbytes).sum

@[simp] theorem ownedBy_nil (i : Nat) : ownedBy i [] = [] := rfl

@[simp] theorem ownedBy_append (i : Nat) (es es' : List Extent) :
    ownedBy i (es ++ es') = ownedBy i es ++ ownedBy i es' := by
  simp [ownedBy]

theorem ownedBy_perm (i : Nat) {es es' : List Extent} (h : es.Perm es') :
    (ownedBy i es).Perm (ownedBy i es') :=
  (h.filter _).map _

@[simp] theorem extentBytes_nil : extentBytes [] = 0 := rfl

@[simp] theorem extentBytes_cons (e : Extent) (es : List Extent) :
    extentBytes (e :: es) = e.nbytes + extentBytes es := rfl

@[simp] theorem extentBytes_append (es es' : List Extent) :
    extentBytes (es ++ es') = extentBytes es + extentBytes es' := by
  simp [extentBytes]

theorem cover_ownedBy_cons (i : Nat) (e : Extent) (es : List Extent) (b : Nat) :
    cover (ownedBy i (e :: es)) b =
      (if e.slabIndex = i then hit (e.offset, e.nbytes) b else 0) + cover (ownedBy i es) b := by
  unfold ownedBy
  rw [List.filter_cons]
  by_cases h : e.slabIndex = i
  · simp [h]
  · simp [h]

theorem cover_ownedBy_pos {es : List Extent} {e : Extent} (he : e ∈ es) {b : Nat}
    (h1 : e.offset ≤ b) (h2 : b < e.offset + e.nbytes) : 0 < cover (ownedBy e.slabIndex es) b := by
  apply cover_pos (p := (e.offset, e.nbytes))
  · unfold ownedBy
    exact List.mem_map.mpr ⟨e, List.mem_filter.mpr ⟨he, by simp⟩, rfl⟩
  · exact h1
  · exact h2

/-- The free lists `free` together with `extents` make up the free lists `whole`:
    no byte is lost and none is counted twice. -/
structure Partition (whole free : List (List Block)) (extents : List Extent) : Prop where
  length : free.length = whole.length
  regular : ∀ i, Regular (whole.getD i []) (free.getD i [])
  cover : ∀ i b, cover (free.getD i []) b + cover (ownedBy i extents) b = cover (whole.getD i []) b
  bytes : (free.map total).sum + extentBytes extents = (whole.map total).sum
  pos : ∀ e ∈ extents, 0 < e.nbytes

theorem getD_set {α : Type} (l : List α) (i j : Nat) (x d : α) :
    (l.set i x).getD j d = if i = j ∧ j < l.length then x else l.getD j d := by
  simp only [List.getD_eq_getElem?_getD, List.getElem?_set]
  by_cases hij : i = j
  · subst hij
    by_cases hlt : i < l.length
    · simp [hlt]
    · simp [hlt]
  · simp [hij]

theorem sum_map_set {α : Type} (f : α → Nat) (l : List α) (i : Nat) (x d : α) (hi : i < l.length) :
    ((l.set i x).map f).sum + f (l.getD i d) = (l.map f).sum + f x := by
  induction l generalizing i with
  | nil => simp at hi
  | cons y l ih =>
    cases i with
    | zero =>
      simp only [List.set_cons_zero, List.map_cons, List.sum_cons, List.getD_cons_zero]
      omega
    | succ i =>
      have := ih i (by simpa using hi)
      simp only [List.set_cons_succ, List.map_cons, List.sum_cons, List.getD_cons_succ]
      omega

/-- Free lists that can be split further. -/
def AllRegular (free : List (List Block)) : Prop := ∀ i, Regular (free.getD i []) (free.getD i [])

theorem Partition.allRegular {whole free : List (List Block)} {es : List Extent}
    (h : Partition whole free es) : AllRegular free := by
  intro i
  have hi := h.regular i
  unfold Regular at hi ⊢
  split at hi
  · next hw => rw [if_pos (hi.trans hw)]
  · rw [if_neg hi.ne_zero]
    exact hi

theorem Partition.refl {free : List (List Block)} (h : AllRegular free) :
    Partition free free [] :=
  ⟨rfl, h, fun _ _ => rfl, rfl, by simp⟩

theorem Partition.trans {whole free free' : List (List Block)} {es es' : List Extent}
    (h : Partition whole free es) (h' : Partition free free' es') :
    Partition whole free' (es ++ es') where
  length := h'.length.trans h.length
  regular i := (h.regular i).trans (h'.regular i)
  cover i b := by
    have := h.cover i b
    have := h'.cover i b
    rw [ownedBy_append, cover_append]
    omega
  bytes := by
    have := h.bytes
    have := h'.bytes
    rw [extentBytes_append]
    omega
  pos e he := by
    rcases List.mem_append.mp he with he | he
    · exact h.pos e he
    · exact h'.pos e he

theorem Partition.perm {whole free : List (List Block)} {es es' : List Extent}
    (h : Partition whole free es) (hp : es.Perm es') : Partition whole free es' where
  length := h.length
  regular := h.regular
  cover i b := by
    rw [← cover_perm (ownedBy_perm i hp)]
    exact h.cover i b
  bytes := by
    have hbytes : extentBytes es = extentBytes es' := (hp.map _).sum_eq
    rw [← hbytes]
    exact h.bytes
  pos e he := h.pos e (hp.mem_iff.mpr he)

/-- Only one choice of free lists goes with given extents. -/
theorem Partition.unique {whole free free' : List (List Block)} {es : List Extent}
    (h : Partition whole free es) (h' : Partition whole free' es) : free = free' := by
  apply List.ext_getElem (h.length.trans h'.length.symm)
  intro i hi hi'
  have hext : free.getD i [] = free'.getD i [] := by
    apply (h.regular i).ext (h'.regular i)
    intro b
    have := h.cover i b
    have := h'.cover i b
    omega
  simpa [hi, hi'] using hext

/-- A block taken out of one of the free lists. -/
theorem Partition.take {free : List (List Block)} {i o n : Nat} {l : List Block}
    (hfree : AllRegular free) (hi : i < free.length) (hn : 0 < n)
    (hl : Carved (free.getD i []) o n l) : Partition free (free.set i l) [⟨i, o, n⟩] where
  length := List.length_set
  regular j := by
    rw [getD_set]
    split
    · next h =>
      obtain ⟨rfl, -⟩ := h
      have hcover := hl.cover o
      rw [hit_eq_one (Nat.le_refl _) (by simp only; omega)] at hcover
      have hpos : 0 < Blocks.cover (free.getD i []) o := by omega
      exact Regular.of_canonical ((hfree i).of_cover hpos) hl.canonical
    · exact hfree j
  cover j b := by
    rw [getD_set, cover_ownedBy_cons]
    by_cases hij : i = j
    · subst hij
      have := hl.cover b
      simp only [true_and, hi, if_true, ownedBy_nil, cover_nil]
      omega
    · simp [hij]
  bytes := by
    have := sum_map_set total free i l [] hi
    have := hl.total
    simp only [extentBytes_cons, extentBytes_nil]
    omega
  pos e he := by
    rw [List.mem_singleton.mp he]
    exact hn

/-! ## Releasing extents -/

theorem Partition.release_cons {whole free : List (List Block)} {e : Extent} {es : List Extent}
    (h : Partition whole free (e :: es)) (hwhole : AllRegular whole) :
    Partition whole (release free e) es := by
  have hpos : 0 < e.nbytes := h.pos e List.mem_cons_self
  -- The extent occupies bytes of its slab, so the free lists of the slab are canonical.
  have hfirst : 0 < Blocks.cover (whole.getD e.slabIndex []) e.offset := by
    have h1 := h.cover e.slabIndex e.offset
    rw [cover_ownedBy_cons, if_pos rfl, hit_eq_one (Nat.le_refl _) (by simp only; omega)] at h1
    omega
  have hwcanon := (hwhole e.slabIndex).of_cover hfirst
  have hle : ∀ b, Blocks.cover (free.getD e.slabIndex []) b + hit (e.offset, e.nbytes) b ≤ 1 := by
    intro b
    have h1 := h.cover e.slabIndex b
    have h2 := hwcanon.cover_le_one b
    rw [cover_ownedBy_cons, if_pos rfl] at h1
    omega
  have hi : e.slabIndex < free.length := by
    by_contra hge
    have hnone : whole.getD e.slabIndex [] = [] := by
      simp only [List.getD_eq_getElem?_getD]
      rw [List.getElem?_eq_none (by rw [← h.length]; omega)]
      rfl
    rw [hnone] at hfirst
    cases hfirst
  obtain ⟨hcanon, hcarved⟩ :=
    releaseBlock_spec ((h.regular e.slabIndex).canonical hwcanon.ne_zero) hpos hle
  refine ⟨by rw [← h.length]; exact List.length_set, fun i => ?_, fun i b => ?_, ?_, ?_⟩
  · rw [release, getD_set]
    split
    · next hij =>
      obtain ⟨rfl, -⟩ := hij
      exact Regular.of_canonical hwcanon hcanon
    · exact h.regular i
  · have h1 := h.cover i b
    rw [cover_ownedBy_cons] at h1
    rw [release, getD_set]
    by_cases hij : e.slabIndex = i
    · subst hij
      have h2 := hcarved.cover b
      simp only [true_and, hi, if_true] at h1 ⊢
      omega
    · simp only [hij, false_and, if_false] at h1 ⊢
      omega
  · have h1 := sum_map_set Blocks.total free e.slabIndex
      (releaseBlock (free.getD e.slabIndex []) e.offset e.nbytes) [] hi
    have h2 := hcarved.total
    have h3 := h.bytes
    rw [extentBytes_cons] at h3
    rw [release]
    omega
  · exact fun x hx => h.pos x (List.mem_cons_of_mem _ hx)

/-- Releasing some of the extents. -/
theorem Partition.release_append {whole free : List (List Block)} {es es' : List Extent}
    (h : Partition whole free (es ++ es')) (hwhole : AllRegular whole) :
    Partition whole (es.foldl release free) es' := by
  induction es generalizing free with
  | nil => exact h
  | cons e es ih => exact ih (h.release_cons hwhole)

/-- Releasing what was taken restores the free lists. -/
theorem Partition.rollback {whole free : List (List Block)} {es : List Extent}
    (h : Partition whole free es) (hwhole : AllRegular whole) :
    es.foldl release free = whole := by
  have hall : Partition whole (es.foldl release free) [] :=
    Partition.release_append (by rwa [List.append_nil]) hwhole
  exact hall.unique (Partition.refl hwhole)

/-! ## Placement -/

/-- What one placement does: `extents` are aligned and taken out of the free lists. -/
structure Placement (alignment : Int) (free free' : List (List Block))
    (extents : List Extent) : Prop where
  partition : Partition free free' extents
  aligned : ∀ e ∈ extents, alignment ∣ (e.offset : Int)

theorem Placement.trans {alignment : Int} {free free' free'' : List (List Block)}
    {es es' : List Extent}
    (h : Placement alignment free free' es) (h' : Placement alignment free' free'' es') :
    Placement alignment free free'' (es ++ es') where
  partition := h.partition.trans h'.partition
  aligned e he := by
    rcases List.mem_append.mp he with he | he
    · exact h.aligned e he
    · exact h'.aligned e he

theorem Placement.nil (alignment : Int) {free : List (List Block)} (h : AllRegular free) :
    Placement alignment free free [] :=
  ⟨Partition.refl h, by simp⟩

theorem Placement.take {alignment : Int} {free : List (List Block)} {i o n : Nat} {l : List Block}
    (hfree : AllRegular free) (hi : i < free.length) (hn : 0 < n)
    (hdvd : alignment ∣ (o : Int)) (hl : Carved (free.getD i []) o n l) :
    Placement alignment free (free.set i l) [⟨i, o, n⟩] where
  partition := Partition.take hfree hi hn hl
  aligned e he := by
    rw [List.mem_singleton.mp he]
    exact hdvd

theorem fillSlab_spec {alignment : Int} {slabIndex remaining remaining' : Nat}
    {free free' : List (List Block)} {es : List Extent}
    (h : fillSlab alignment slabIndex remaining free = .ok (es, remaining', free'))
    (hfree : AllRegular free) (hi : slabIndex < free.length) :
    Placement alignment free free' es ∧ extentBytes es + remaining' = remaining := by
  fun_induction fillSlab alignment slabIndex remaining free generalizing es with
  | case1 remaining free hpos e ht => cases h
  | case2 remaining free hpos ht =>
    cases h
    exact ⟨Placement.nil alignment hfree, Nat.zero_add _⟩
  | case3 remaining free hpos o n l ht ih =>
    obtain ⟨hn, hle, hdvd, hcarved⟩ := takeLargest_spec ht (hfree slabIndex) hpos
    have htake := Placement.take hfree hi hn hdvd hcarved
    cases hr : fillSlab alignment slabIndex (remaining - n) (free.set slabIndex l) with
    | error e => simp only [hr, bind, Except.bind] at h; cases h
    | ok r =>
      simp only [hr, bind, Except.bind, Except.ok.injEq, Prod.mk.injEq] at h
      obtain ⟨rfl, hr2⟩ := h
      obtain ⟨es', r2⟩ := r
      subst hr2
      obtain ⟨hplace, hsum⟩ := ih hr htake.partition.allRegular (by simpa using hi)
      refine ⟨htake.trans hplace, ?_⟩
      simp only [extentBytes_cons]
      omega
  | case4 remaining free hpos =>
    cases h
    exact ⟨Placement.nil alignment hfree, Nat.zero_add _⟩

theorem fillSlabs_spec {alignment : Int} {slabIndices : List Nat} {remaining remaining' : Nat}
    {free free' : List (List Block)} {es : List Extent}
    (h : fillSlabs alignment slabIndices remaining free = .ok (es, remaining', free'))
    (hfree : AllRegular free) (hi : ∀ i ∈ slabIndices, i < free.length) :
    Placement alignment free free' es ∧ extentBytes es + remaining' = remaining := by
  induction slabIndices generalizing remaining free es with
  | nil =>
    cases h
    exact ⟨Placement.nil alignment hfree, Nat.zero_add _⟩
  | cons i rest ih =>
    rw [fillSlabs] at h
    cases hr : fillSlab alignment i remaining free with
    | error e => simp only [hr, bind, Except.bind] at h; cases h
    | ok r =>
      obtain ⟨es₁, rem₁, free₁⟩ := r
      obtain ⟨hplace, hsum⟩ := fillSlab_spec hr hfree (hi i List.mem_cons_self)
      simp only [hr, bind, Except.bind] at h
      split at h
      · cases h
        exact ⟨hplace, hsum⟩
      · cases hr' : fillSlabs alignment rest rem₁ free₁ with
        | error e => rw [hr'] at h; cases h
        | ok r' =>
          obtain ⟨es₂, rem₂, free₂⟩ := r'
          rw [hr'] at h
          cases h
          have hrest : ∀ j ∈ rest, j < free₁.length := by
            intro j hj
            rw [hplace.partition.length]
            exact hi j (List.mem_cons_of_mem _ hj)
          obtain ⟨hplace', hsum'⟩ := ih hr' hplace.partition.allRegular hrest
          refine ⟨hplace.trans hplace', ?_⟩
          simp only [extentBytes_append]
          omega

end Board
