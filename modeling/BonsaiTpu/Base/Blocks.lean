-- SUMMARY: Lists of half-open blocks: coverage counts, the canonical form, its uniqueness, splicing and coalescing.
import Mathlib.Algebra.BigOperators.Group.List.Basic
import Mathlib.Algebra.Ring.Nat
import Mathlib.Data.List.Sort
import Mathlib.Tactic.Common

/-!
# Block lists

A block `(offset, size)` stands for the positions `[offset, offset + size)`. A
list of blocks is described by how often it covers each position. In canonical
form the blocks are positive, in order, and separated by gaps; a canonical list
is determined by what it covers.
-/

namespace Blocks

abbrev Block := Nat × Nat

/-- Whether a block covers a position, as a number. -/
def hit (p : Block) (b : Nat) : Nat := if p.1 ≤ b ∧ b < p.1 + p.2 then 1 else 0

/-- How many blocks of a list cover a position. -/
def cover (l : List Block) (b : Nat) : Nat := (l.map fun p => hit p b).sum

/-- The number of positions in a list of disjoint blocks. -/
def total (l : List Block) : Nat := (l.map Prod.snd).sum

theorem hit_eq_one {p : Block} {b : Nat} (h1 : p.1 ≤ b) (h2 : b < p.1 + p.2) : hit p b = 1 :=
  if_pos ⟨h1, h2⟩

theorem hit_pos {p : Block} {b : Nat} (h : 0 < hit p b) : p.1 ≤ b ∧ b < p.1 + p.2 := by
  by_contra hnot
  rw [hit, if_neg hnot] at h
  omega

@[simp] theorem cover_nil (b : Nat) : cover [] b = 0 := rfl

@[simp] theorem cover_cons (p : Block) (l : List Block) (b : Nat) :
    cover (p :: l) b = hit p b + cover l b := rfl

@[simp] theorem cover_append (l l' : List Block) (b : Nat) :
    cover (l ++ l') b = cover l b + cover l' b := by
  simp [cover]

theorem cover_perm {l l' : List Block} (h : l.Perm l') (b : Nat) : cover l b = cover l' b :=
  (h.map _).sum_eq

@[simp] theorem total_nil : total [] = 0 := rfl

@[simp] theorem total_cons (p : Block) (l : List Block) : total (p :: l) = p.2 + total l := rfl

@[simp] theorem total_append (l l' : List Block) : total (l ++ l') = total l + total l' := by
  simp [total]

theorem total_perm {l l' : List Block} (h : l.Perm l') : total l = total l' := (h.map _).sum_eq

theorem exists_of_cover_pos {l : List Block} {b : Nat} (h : 0 < cover l b) :
    ∃ p ∈ l, p.1 ≤ b ∧ b < p.1 + p.2 := by
  induction l with
  | nil => simp at h
  | cons p l ih =>
    by_cases hp : 0 < hit p b
    · exact ⟨p, List.mem_cons_self, hit_pos hp⟩
    · rw [cover_cons] at h
      obtain ⟨q, hq, hb⟩ := ih (by omega)
      exact ⟨q, List.mem_cons_of_mem _ hq, hb⟩

theorem cover_pos {l : List Block} {p : Block} (hp : p ∈ l) {b : Nat} (h1 : p.1 ≤ b)
    (h2 : b < p.1 + p.2) : 0 < cover l b := by
  induction l with
  | nil => simp at hp
  | cons q l ih =>
    rw [cover_cons]
    cases hp with
    | head => rw [hit_eq_one h1 h2]; omega
    | tail _ hp => have := ih hp; omega

theorem cover_eq_zero {l : List Block} {b : Nat} (h : ∀ p ∈ l, b < p.1 ∨ p.1 + p.2 ≤ b) :
    cover l b = 0 := by
  by_contra hne
  obtain ⟨p, hp, h1, h2⟩ := exists_of_cover_pos (Nat.pos_of_ne_zero hne)
  have := h p hp
  omega

/-! ## Canonical lists -/

/-- Positive blocks in order, no two of which overlap or touch. -/
structure Canonical (l : List Block) : Prop where
  pos : ∀ p ∈ l, 0 < p.2
  gaps : l.Pairwise fun p q => p.1 + p.2 < q.1

theorem canonical_nil : Canonical [] := ⟨by simp, List.Pairwise.nil⟩

theorem canonical_cons {p : Block} {l : List Block} :
    Canonical (p :: l) ↔ 0 < p.2 ∧ (∀ q ∈ l, p.1 + p.2 < q.1) ∧ Canonical l := by
  constructor
  · rintro ⟨hpos, hgaps⟩
    obtain ⟨hp, hl⟩ := List.forall_mem_cons.mp hpos
    obtain ⟨hq, hg⟩ := List.pairwise_cons.mp hgaps
    exact ⟨hp, hq, hl, hg⟩
  · rintro ⟨hp, hq, hl⟩
    exact ⟨List.forall_mem_cons.mpr ⟨hp, hl.pos⟩, List.pairwise_cons.mpr ⟨hq, hl.gaps⟩⟩

theorem Canonical.ne_zero {l : List Block} (h : Canonical l) : l ≠ [(0, 0)] := by
  rintro rfl
  have := h.pos (0, 0) List.mem_cons_self
  omega

theorem Canonical.cover_le_one {l : List Block} (h : Canonical l) (b : Nat) : cover l b ≤ 1 := by
  induction l with
  | nil => simp
  | cons p l ih =>
    obtain ⟨hp, hgap, hl⟩ := canonical_cons.mp h
    rw [cover_cons]
    by_cases hb : 0 < hit p b
    · obtain ⟨h1, h2⟩ := hit_pos hb
      have hzero : cover l b = 0 := by
        apply cover_eq_zero
        intro q hq
        have := hgap q hq
        omega
      rw [hzero, hit_eq_one h1 h2]
    · have := ih hl
      omega

/-- The first position covered by a canonical list is the start of its head. -/
theorem Canonical.head_le {p : Block} {l : List Block} (h : Canonical (p :: l)) {b : Nat}
    (hb : 0 < cover (p :: l) b) : p.1 ≤ b := by
  obtain ⟨q, hq, h1, _⟩ := exists_of_cover_pos hb
  obtain ⟨-, hgap, -⟩ := canonical_cons.mp h
  cases hq with
  | head => exact h1
  | tail _ hq => have := hgap q hq; omega

/-- The position after the head of a canonical list is not covered. -/
theorem Canonical.cover_head_end {p : Block} {l : List Block} (h : Canonical (p :: l)) :
    cover (p :: l) (p.1 + p.2) = 0 := by
  obtain ⟨-, hgap, -⟩ := canonical_cons.mp h
  apply cover_eq_zero
  intro q hq
  cases hq with
  | head => exact Or.inr (Nat.le_refl _)
  | tail _ hq => exact Or.inl (hgap q hq)

theorem Canonical.head_end_le {p q : Block} {l l' : List Block} (hq : Canonical (q :: l'))
    (hstart : p.1 = q.1)
    (hcov : ∀ b, cover (p :: l) b = cover (q :: l') b) : p.1 + p.2 ≤ q.1 + q.2 := by
  by_contra hlt
  have hend := hq.cover_head_end
  have hhit : 0 < cover (p :: l) (q.1 + q.2) :=
    cover_pos List.mem_cons_self (by omega) (by omega)
  rw [hcov, hend] at hhit
  omega

/-- A canonical list is determined by what it covers. -/
theorem Canonical.ext {l l' : List Block} (h : Canonical l) (h' : Canonical l')
    (hcov : ∀ b, cover l b = cover l' b) : l = l' := by
  induction l generalizing l' with
  | nil =>
    cases l' with
    | nil => rfl
    | cons q l' =>
      have hq := (canonical_cons.mp h').1
      have hpos : 0 < cover (q :: l') q.1 := cover_pos List.mem_cons_self (Nat.le_refl _) (by omega)
      rw [← hcov] at hpos
      simp at hpos
  | cons p l ih =>
    have hp := (canonical_cons.mp h).1
    have hpos : 0 < cover (p :: l) p.1 := cover_pos List.mem_cons_self (Nat.le_refl _) (by omega)
    cases l' with
    | nil =>
      rw [hcov] at hpos
      simp at hpos
    | cons q l' =>
      have hq := (canonical_cons.mp h').1
      have hpos' : 0 < cover (q :: l') q.1 :=
        cover_pos List.mem_cons_self (Nat.le_refl _) (by omega)
      have hstart : p.1 = q.1 := by
        have h1 := h.head_le (hcov q.1 ▸ hpos')
        have h2 := h'.head_le (hcov p.1 ▸ hpos)
        omega
      have hend1 := h'.head_end_le hstart hcov
      have hend2 := h.head_end_le hstart.symm fun b => (hcov b).symm
      obtain rfl : p = q := Prod.ext hstart (by omega)
      have htail : l = l' := by
        refine ih (canonical_cons.mp h).2.2 (canonical_cons.mp h').2.2 fun b => ?_
        have := hcov b
        rw [cover_cons, cover_cons] at this
        omega
      rw [htail]

/-! ## Splicing -/

/-- Replacing a block by canonical pieces of it. -/
theorem Canonical.splice {l₁ l₂ r : List Block} {p : Block} (h : Canonical (l₁ ++ p :: l₂))
    (hr : Canonical r) (hin : ∀ q ∈ r, p.1 ≤ q.1 ∧ q.1 + q.2 ≤ p.1 + p.2) :
    Canonical (l₁ ++ r ++ l₂) := by
  obtain ⟨hpos, hgaps⟩ := h
  rw [List.pairwise_append, List.pairwise_cons] at hgaps
  obtain ⟨hg1, ⟨hp2, hg2⟩, hcross⟩ := hgaps
  refine ⟨?_, ?_⟩
  · intro q hq
    rw [List.mem_append, List.mem_append] at hq
    rcases hq with (hq | hq) | hq
    · exact hpos q (by simp [hq])
    · exact hr.pos q hq
    · exact hpos q (by simp [hq])
  · rw [List.append_assoc, List.pairwise_append, List.pairwise_append]
    refine ⟨hg1, ⟨hr.gaps, hg2, ?_⟩, ?_⟩
    · intro q hq s hs
      have := hp2 s hs
      have := hin q hq
      omega
    · intro q hq s hs
      rw [List.mem_append] at hs
      rcases hs with hs | hs
      · have := hcross q hq p List.mem_cons_self
        have := hin s hs
        omega
      · exact hcross q hq s (List.mem_cons_of_mem _ hs)

/-- What is left of a block when `[o, o + n)` is taken out of it. -/
def carve (p : Block) (o n : Nat) : List Block :=
  (if o > p.1 then [(p.1, o - p.1)] else [])
    ++ (if o + n < p.1 + p.2 then [(o + n, p.1 + p.2 - (o + n))] else [])

/-- `l'` is `l` without `[o, o + n)`. -/
structure Carved (l : List Block) (o n : Nat) (l' : List Block) : Prop where
  canonical : Canonical l'
  cover : ∀ b, cover l' b + hit (o, n) b = cover l b
  total : total l' + n = total l

theorem mem_carve {p q : Block} {o n : Nat} (h1 : p.1 ≤ o) (h2 : o + n ≤ p.1 + p.2)
    (hq : q ∈ carve p o n) : 0 < q.2 ∧ p.1 ≤ q.1 ∧ q.1 + q.2 ≤ p.1 + p.2 := by
  unfold carve at hq
  rw [List.mem_append] at hq
  rcases hq with hq | hq
  · split at hq
    · obtain rfl := List.mem_singleton.mp hq
      simp only
      omega
    · cases hq
  · split at hq
    · obtain rfl := List.mem_singleton.mp hq
      simp only
      omega
    · cases hq

theorem canonical_carve {p : Block} {o n : Nat} (h1 : p.1 ≤ o)
    (h2 : o + n ≤ p.1 + p.2) (hn : 0 < n) :
    Canonical (carve p o n) := by
  refine ⟨fun q hq => (mem_carve h1 h2 hq).1, ?_⟩
  unfold carve
  rw [List.pairwise_append]
  refine ⟨?_, ?_, ?_⟩
  · split <;> simp
  · split <;> simp
  · intro q hq s hs
    split at hq
    · split at hs
      · obtain rfl := List.mem_singleton.mp hq
        obtain rfl := List.mem_singleton.mp hs
        simp only
        omega
      · cases hs
    · cases hq

theorem cover_carve {p : Block} {o n : Nat} (h1 : p.1 ≤ o) (h2 : o + n ≤ p.1 + p.2) (b : Nat) :
    cover (carve p o n) b + hit (o, n) b = hit p b := by
  unfold carve
  rw [cover_append]
  split <;> split <;> simp only [cover_cons, cover_nil, hit] <;> grind

theorem total_carve {p : Block} {o n : Nat} (h1 : p.1 ≤ o) (h2 : o + n ≤ p.1 + p.2) :
    total (carve p o n) + n = p.2 := by
  unfold carve
  rw [total_append]
  split <;> split <;> simp only [total_cons, total_nil] <;> omega

/-- Taking a range out of one block of a canonical list. -/
theorem Canonical.carved {l₁ l₂ : List Block} {p : Block} {o n : Nat}
    (h : Canonical (l₁ ++ p :: l₂)) (h1 : p.1 ≤ o) (h2 : o + n ≤ p.1 + p.2) (hn : 0 < n) :
    Carved (l₁ ++ p :: l₂) o n (l₁ ++ carve p o n ++ l₂) where
  canonical := h.splice (canonical_carve h1 h2 hn) fun _ hq => (mem_carve h1 h2 hq).2
  cover b := by
    have := cover_carve h1 h2 b
    simp only [cover_append, cover_cons]
    omega
  total := by
    have := total_carve h1 h2
    simp only [total_append, total_cons]
    omega

/-! ## Coalescing -/

/-- Join blocks that overlap or touch, in a list sorted by offset; `cur` is the
    block being extended. -/
def coalesceFrom (cur : Block) : List Block → List Block
  | [] => [cur]
  | (o, n) :: rest =>
    if o ≤ cur.1 + cur.2 then coalesceFrom (cur.1, max (cur.1 + cur.2) (o + n) - cur.1) rest
    else cur :: coalesceFrom (o, n) rest

def coalesce : List Block → List Block
  | [] => []
  | cur :: rest => coalesceFrom cur rest

/-- What coalescing gives on sorted disjoint blocks. -/
structure Coalesced (l r : List Block) : Prop where
  canonical : Canonical r
  cover : ∀ b, cover r b = cover l b
  total : total r = total l

theorem coalesceFrom_spec (cur : Block) (rest : List Block)
    (hsorted : (cur :: rest).Pairwise fun p q => p.1 ≤ q.1)
    (hpos : ∀ p ∈ cur :: rest, 0 < p.2) (hdisj : ∀ b, cover (cur :: rest) b ≤ 1) :
    Coalesced (cur :: rest) (coalesceFrom cur rest) ∧
      ∀ q ∈ coalesceFrom cur rest, cur.1 ≤ q.1 := by
  induction rest generalizing cur with
  | nil =>
    refine ⟨⟨canonical_cons.mpr ⟨hpos cur List.mem_cons_self, by simp, canonical_nil⟩,
      fun _ => rfl, rfl⟩, ?_⟩
    simp [coalesceFrom]
  | cons q rest ih =>
    obtain ⟨o, n⟩ := q
    obtain ⟨hle, hrest⟩ := List.pairwise_cons.mp hsorted
    obtain ⟨hcur, hpos'⟩ := List.forall_mem_cons.mp hpos
    have hn : 0 < n := hpos' (o, n) List.mem_cons_self
    have ho : cur.1 ≤ o := hle (o, n) List.mem_cons_self
    -- The next block starts at or after the end of `cur`: its first position
    -- would otherwise be covered twice.
    have hend : cur.1 + cur.2 ≤ o := by
      by_contra hlt
      have h2 := hdisj o
      rw [cover_cons, cover_cons, hit_eq_one ho (by omega),
        hit_eq_one (p := (o, n)) (Nat.le_refl _) (by simp only; omega)] at h2
      omega
    by_cases htouch : o ≤ cur.1 + cur.2
    · obtain rfl : o = cur.1 + cur.2 := by omega
      let joined : Block := (cur.1, cur.2 + n)
      have hjoin : (cur.1, max (cur.1 + cur.2) (cur.1 + cur.2 + n) - cur.1) = joined := by
        simp only [joined, Prod.mk.injEq, true_and]
        omega
      have hhit : ∀ b, hit joined b = hit cur b + hit (cur.1 + cur.2, n) b := by
        intro b
        unfold hit
        split <;> split <;> split <;> simp only [joined] at * <;> omega
      have hcover : ∀ b, cover (joined :: rest) b =
          cover (cur :: (cur.1 + cur.2, n) :: rest) b := by
        intro b
        simp only [cover_cons, hhit, Nat.add_assoc]
      rw [coalesceFrom, if_pos htouch, hjoin]
      obtain ⟨hco, hge⟩ := ih joined
        (List.pairwise_cons.mpr ⟨fun s hs => hle s (List.mem_cons_of_mem _ hs),
          (List.pairwise_cons.mp hrest).2⟩)
        (List.forall_mem_cons.mpr ⟨by simp only [joined]; omega, (List.forall_mem_cons.mp hpos').2⟩)
        (fun b => by rw [hcover]; exact hdisj b)
      refine ⟨⟨hco.canonical, fun b => (hco.cover b).trans (hcover b), ?_⟩, hge⟩
      rw [hco.total]
      simp only [joined, total_cons, Nat.add_assoc]
    · rw [coalesceFrom, if_neg htouch]
      obtain ⟨hco, hge⟩ := ih (o, n) hrest hpos' (fun b => by
        have := hdisj b
        rw [cover_cons] at this
        omega)
      refine ⟨⟨canonical_cons.mpr ⟨hcur, ?_, hco.canonical⟩, ?_, ?_⟩, ?_⟩
      · intro s hs
        have := hge s hs
        omega
      · intro b
        rw [cover_cons, hco.cover]
        rfl
      · rw [total_cons, hco.total]
        rfl
      · intro s hs
        cases hs with
        | head => exact Nat.le_refl _
        | tail _ hs => have := hge s hs; omega

theorem coalesce_spec {l : List Block} (hsorted : l.Pairwise fun p q => p.1 ≤ q.1)
    (hpos : ∀ p ∈ l, 0 < p.2) (hdisj : ∀ b, cover l b ≤ 1) : Coalesced l (coalesce l) := by
  cases l with
  | nil => exact ⟨canonical_nil, fun _ => rfl, rfl⟩
  | cons cur rest => exact (coalesceFrom_spec cur rest hsorted hpos hdisj).1

end Blocks
