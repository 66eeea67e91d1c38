-- SUMMARY: Indexed part-selects of bit vectors (`x[base +: w]` as a left-hand side) and how they compose.
import Mathlib.Data.BitVec
import Mathlib.Data.List.FinRange
import Mathlib.Tactic.Common

/-!
# Part-select assignment

`x.extractLsb' base w` reads the part-select `x[base +: w]`. `x.setPart base v`
is `x` after the assignment `x[base +: w] <= v`. As in Verilog, bits of the
part-select past the end of `x` are not written.
-/

namespace BitVec

variable {n w : Nat}

def setPart (x : BitVec n) (base : Nat) (v : BitVec w) : BitVec n :=
  let mask := ((BitVec.allOnes w).setWidth n) <<< base
  (x &&& ~~~mask) ||| ((v.setWidth n) <<< base)

theorem getLsbD_setPart (x : BitVec n) (base : Nat) (v : BitVec w) (i : Nat) :
    (x.setPart base v).getLsbD i =
      if base ≤ i ∧ i < base + w then decide (i < n) && v.getLsbD (i - base) else x.getLsbD i := by
  by_cases hi : i < n
  · by_cases hb : i < base
    · have : ¬ base ≤ i := by omega
      simp [setPart, hi, hb, this]
    · have hbi : base ≤ i := by omega
      by_cases hw : i - base < w
      · have : i < base + w := by omega
        simp [setPart, hi, hb, hbi, this, hw]
      · have : ¬ i < base + w := by omega
        have hv : v.getLsbD (i - base) = false := BitVec.getLsbD_of_ge v _ (by omega)
        simp [setPart, hi, hb, this, hw, hv]
  · have hx : x.getLsbD i = false := BitVec.getLsbD_of_ge x i (by omega)
    have hs : (x.setPart base v).getLsbD i = false := BitVec.getLsbD_of_ge _ i (by omega)
    simp [hi, hx, hs]

/-- Reading back the part that was written. -/
theorem extractLsb'_setPart_self (x : BitVec n) (base : Nat) (v : BitVec w)
    (h : base + w ≤ n) : (x.setPart base v).extractLsb' base w = v := by
  apply BitVec.eq_of_getLsbD_eq
  intro i hi
  have hn : base + i < n := by omega
  have hb : base ≤ base + i ∧ base + i < base + w := by omega
  rw [BitVec.getLsbD_extractLsb', getLsbD_setPart, if_pos hb]
  simp [hi, hn]

/-- A disjoint part is not affected by the write. -/
theorem extractLsb'_setPart_disjoint (x : BitVec n) (base : Nat) (v : BitVec w)
    (base' w' : Nat) (h : base' + w' ≤ base ∨ base + w ≤ base') :
    (x.setPart base v).extractLsb' base' w' = x.extractLsb' base' w' := by
  apply BitVec.eq_of_getLsbD_eq
  intro i hi
  have hni : ¬ (base ≤ base' + i ∧ base' + i < base + w) := by omega
  simp only [BitVec.getLsbD_extractLsb', hi, decide_true, Bool.true_and,
    getLsbD_setPart, if_neg hni]

/-! ## Packed arrays

A packed array of `rows` fields of width `w` is one vector of `rows * w` bits,
field `r` being the part-select `[r*w +: w]`. -/

/-- Field `r` of a packed array. -/
def field {rows : Nat} (x : BitVec (rows * w)) (r : Nat) : BitVec w :=
  x.extractLsb' (r * w) w

theorem field_setPart_self {rows : Nat} (x : BitVec (rows * w)) {r : Nat} (v : BitVec w)
    (hr : r < rows) : field (x.setPart (r * w) v) r = v := by
  apply extractLsb'_setPart_self
  calc r * w + w = (r + 1) * w := (Nat.succ_mul r w).symm
    _ ≤ rows * w := Nat.mul_le_mul_right w hr

theorem field_setPart_ne {rows : Nat} (x : BitVec (rows * w)) {r q : Nat} (v : BitVec w)
    (h : q ≠ r) : field (x.setPart (r * w) v) q = field x q := by
  apply extractLsb'_setPart_disjoint
  rcases Nat.lt_or_gt_of_ne h with hlt | hgt
  · left
    calc q * w + w = (q + 1) * w := (Nat.succ_mul q w).symm
      _ ≤ r * w := Nat.mul_le_mul_right w hlt
  · right
    calc r * w + w = (r + 1) * w := (Nat.succ_mul r w).symm
      _ ≤ q * w := Nat.mul_le_mul_right w hgt

/-- A part select inside one field changes that field only. -/
theorem field_setPart_within {rows k : Nat} (x : BitVec (rows * w)) {r : Nat} (off : Nat)
    (v : BitVec k) (hr : r < rows) (hoff : off + k ≤ w) (q : Nat) :
    field (x.setPart (r * w + off) v) q = if q = r then (field x q).setPart off v
      else field x q := by
  by_cases hq : q = r
  · subst hq
    rw [if_pos rfl]
    have hrow : q * w + w ≤ rows * w := by
      rw [← Nat.succ_mul]
      exact Nat.mul_le_mul_right w hr
    apply BitVec.eq_of_getLsbD_eq
    intro i hi
    have hn : q * w + i < rows * w := by omega
    have hsub : q * w + i - (q * w + off) = i - off := by omega
    have hiff : (q * w + off ≤ q * w + i ∧ q * w + i < q * w + off + k) ↔
        (off ≤ i ∧ i < off + k) := by omega
    simp only [field, BitVec.getLsbD_extractLsb', getLsbD_setPart, hi, hn, hsub, hiff,
      decide_true, Bool.true_and]
  · rw [if_neg hq]
    apply extractLsb'_setPart_disjoint
    rcases Nat.lt_or_gt_of_ne hq with hlt | hgt
    · left
      have : q * w + w ≤ r * w := by
        rw [← Nat.succ_mul]
        exact Nat.mul_le_mul_right w hlt
      omega
    · right
      have : r * w + w ≤ q * w := by
        rw [← Nat.succ_mul]
        exact Nat.mul_le_mul_right w hgt
      omega

theorem extractLsb'_field {rows : Nat} (x : BitVec (rows * w)) (r off k : Nat)
    (hoff : off + k ≤ w) :
    (field x r).extractLsb' off k = x.extractLsb' (r * w + off) k := by
  apply BitVec.eq_of_getLsbD_eq
  intro i hi
  have hlt : off + i < w := by omega
  simp only [field, BitVec.getLsbD_extractLsb', hi, hlt, decide_true, Bool.true_and, Nat.add_assoc]

/-- Packed arrays with equal fields are equal. -/
theorem eq_of_field_eq {rows : Nat} {x y : BitVec (rows * w)}
    (h : ∀ r < rows, field x r = field y r) : x = y := by
  apply BitVec.eq_of_getLsbD_eq
  intro i hi
  have hw : 0 < w := by
    rcases Nat.eq_zero_or_pos w with rfl | hw
    · simp at hi
    · exact hw
  have hr : i / w < rows := Nat.div_lt_of_lt_mul (by rw [Nat.mul_comm]; exact hi)
  have hbit := congrArg (fun v => v.getLsbD (i % w)) (h (i / w) hr)
  have hi' : i / w * w + i % w = i := by rw [Nat.mul_comm]; exact Nat.div_add_mod i w
  simpa [field, BitVec.getLsbD_extractLsb', Nat.mod_lt i hw, hi'] using hbit

/-- A loop that conditionally assigns each field of a packed array. -/
def setFields {rows : Nat} (x : BitVec (rows * w)) (en : Fin rows → Bool)
    (v : Fin rows → BitVec w) :
    BitVec (rows * w) :=
  (List.finRange rows).foldl (fun acc r => if en r then acc.setPart (r * w) (v r) else acc) x

theorem field_setFields {rows : Nat} (x : BitVec (rows * w)) (en : Fin rows → Bool)
    (v : Fin rows → BitVec w) (r : Fin rows) :
    field (setFields x en v) r = if en r then v r else field x r := by
  -- Each iteration writes its own field only, so the loop is tracked per field
  -- over the suffix of indices still to be visited.
  have key : ∀ (l : List (Fin rows)) (x : BitVec (rows * w)), l.Nodup →
      field (l.foldl (fun acc r => if en r then acc.setPart (r * w) (v r) else acc) x) r =
        if r ∈ l ∧ en r then v r else field x r := by
    intro l
    induction l with
    | nil => intro x _; simp
    | cons q l ih =>
      intro x hnd
      obtain ⟨hq, hnd'⟩ := List.nodup_cons.mp hnd
      rw [List.foldl_cons, ih _ hnd']
      by_cases hrq : r = q
      · subst hrq
        by_cases hen : en r
        · simp [hq, hen, field_setPart_self]
        · simp [hq, hen]
      · have hne : (r : Nat) ≠ q := fun h => hrq (Fin.ext h)
        by_cases hen : en q
        · simp [hrq, hen, field_setPart_ne _ _ hne]
        · simp [hrq, hen]
  have := key (List.finRange rows) x (List.nodup_finRange rows)
  simpa [setFields] using this

/-- A loop that assigns consecutive fields of a packed array, those that exist. -/
def setLanes {rows : Nat} (x : BitVec (rows * w)) (first n : Nat) (v : Nat → BitVec w) :
    BitVec (rows * w) :=
  (List.range n).foldl (fun acc lane =>
    if first + lane < rows then acc.setPart ((first + lane) * w) (v lane) else acc) x

theorem field_setLanes {rows : Nat} (x : BitVec (rows * w)) (first n : Nat)
    (v : Nat → BitVec w) {r : Nat} (hr : r < rows) :
    field (setLanes x first n v) r = if first ≤ r ∧ r < first + n then v (r - first)
      else field x r := by
  unfold setLanes
  induction n with
  | zero => rw [if_neg (by omega)]; rfl
  | succ n ih =>
    rw [List.range_succ, List.foldl_append, List.foldl_cons, List.foldl_nil]
    by_cases hlast : r = first + n
    · subst hlast
      rw [if_pos hr, field_setPart_self _ _ hr, if_pos (by omega), Nat.add_sub_cancel_left]
    · have hiff : (first ≤ r ∧ r < first + (n + 1)) ↔ (first ≤ r ∧ r < first + n) := by omega
      simp only [hiff]
      rw [← ih]
      split
      · exact field_setPart_ne _ _ hlast
      · rfl

end BitVec
