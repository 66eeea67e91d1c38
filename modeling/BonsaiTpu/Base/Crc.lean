-- SUMMARY: Cyclic redundancy checks with reflected input and output: the shift register, and the table-driven form of it.
import Mathlib.Data.BitVec
import Mathlib.Logic.Function.Iterate
import Mathlib.Tactic.Common

/-!
# Cyclic redundancy checks

A check is given by its generator polynomial, the initial register and the value added at
the end. `reflected` is the shift register of the definition: the bits of each byte enter
least significant first and the register is reversed at the end. Programs keep the register
reversed all the time (`advance`) and take eight bits at once from a table; both are the
same because `advance` is linear.
-/

namespace Crc

variable {w : Nat}

/-! ## The shift register -/

/-- One bit of the message enters the register. -/
def shiftIn (poly reg : BitVec w) (bit : Bool) : BitVec w :=
  (reg <<< 1) ^^^ if reg.msb ^^ bit then poly else 0#w

/-- The bits of a byte, least significant first. -/
def bitsOf (byte : BitVec 8) : List Bool := (List.range 8).map byte.getLsbD

/-- The check of a message. -/
def reflected (poly init xorOut : BitVec w) (data : List (BitVec 8)) : BitVec w :=
  ((data.flatMap bitsOf).foldl (shiftIn poly) init).reverse ^^^ xorOut

/-! ## The reversed register -/

/-- The reversed register without a bit of the message. -/
def advance (poly reg : BitVec w) : BitVec w := (reg >>> 1) ^^^ if reg.getLsbD 0 then poly else 0#w

/-- A bit of the message as a vector. -/
def bitVec (w : Nat) (bit : Bool) : BitVec w := (BitVec.ofBool bit).setWidth w

theorem getLsbD_bitVec (hw : 0 < w) (bit : Bool) (i : Nat) :
    (bitVec w bit).getLsbD i = (decide (i = 0) && bit) := by
  by_cases hi : i = 0
  · subst hi
    cases bit <;> simp [bitVec, hw]
  · cases bit <;> simp [bitVec, hi]

theorem reverse_shiftIn (hw : 0 < w) (poly reg : BitVec w) (bit : Bool) :
    (shiftIn poly reg bit).reverse = advance poly.reverse (reg.reverse ^^^ bitVec w bit) := by
  have hmsb : (reg.reverse ^^^ bitVec w bit).getLsbD 0 = (reg.msb ^^ bit) := by
    rw [BitVec.getLsbD_xor, getLsbD_bitVec hw, BitVec.getLsbD_reverse, BitVec.msb]
    simp
  apply BitVec.eq_of_getLsbD_eq
  intro i hi
  rw [advance, hmsb, shiftIn, BitVec.getLsbD_reverse, BitVec.getMsbD_xor, BitVec.getLsbD_xor,
    BitVec.getLsbD_ushiftRight, BitVec.getLsbD_xor, getLsbD_bitVec hw, BitVec.getLsbD_reverse,
    BitVec.getMsbD_shiftLeft]
  cases hbit : (reg.msb ^^ bit) with
  | true => simp [BitVec.getLsbD_reverse, Nat.add_comm 1 i]
  | false => simp [Nat.add_comm 1 i]

/-- The check, with the register reversed all the time. -/
theorem reflected_eq (hw : 0 < w) (poly init xorOut : BitVec w) (data : List (BitVec 8)) :
    reflected poly init xorOut data =
      (data.flatMap bitsOf).foldl (fun reg bit => advance poly.reverse (reg ^^^ bitVec w bit))
        init.reverse ^^^ xorOut := by
  rw [reflected]
  congr 1
  generalize data.flatMap bitsOf = bits
  induction bits generalizing init with
  | nil => rfl
  | cons bit bits ih => rw [List.foldl_cons, List.foldl_cons, ih, reverse_shiftIn hw]

/-! ## Eight bits at once -/

section Linear

variable (poly : BitVec w)

theorem advance_xor (x y : BitVec w) :
    advance poly (x ^^^ y) = advance poly x ^^^ advance poly y := by
  apply BitVec.eq_of_getLsbD_eq
  intro i _
  simp only [advance, BitVec.getLsbD_xor, BitVec.getLsbD_ushiftRight]
  cases x.getLsbD 0 <;> cases y.getLsbD 0 <;> simp <;> grind

theorem iterate_advance_xor (n : Nat) (x y : BitVec w) :
    (advance poly)^[n] (x ^^^ y) = (advance poly)^[n] x ^^^ (advance poly)^[n] y := by
  induction n generalizing x y with
  | zero => rfl
  | succ n ih =>
    rw [Function.iterate_succ_apply, Function.iterate_succ_apply, Function.iterate_succ_apply,
      advance_xor, ih]

theorem advance_of_even {x : BitVec w} (h : x.getLsbD 0 = false) : advance poly x = x >>> 1 := by
  rw [advance, h, if_neg Bool.false_ne_true, BitVec.xor_zero]

/-- What is above the bits that leave the register only moves down. -/
theorem iterate_advance_high {n : Nat} {x : BitVec w} (h : ∀ i < n, x.getLsbD i = false) :
    (advance poly)^[n] x = x >>> n := by
  induction n generalizing x with
  | zero => rw [Function.iterate_zero_apply, BitVec.ushiftRight_zero]
  | succ n ih =>
    have hnext : ∀ i < n, (x >>> 1).getLsbD i = false := by
      intro i hi
      rw [BitVec.getLsbD_ushiftRight]
      exact h (1 + i) (by omega)
    rw [Function.iterate_succ_apply, advance_of_even poly (h 0 (Nat.succ_pos n)), ih hnext,
      ← BitVec.shiftRight_add, Nat.add_comm]

/-- The table-driven step: the low bits select an entry, the others move down. -/
theorem iterate_advance_split (n : Nat) (x low : BitVec w)
    (hlow : ∀ i, low.getLsbD i = (decide (i < n) && x.getLsbD i)) :
    (advance poly)^[n] x = (advance poly)^[n] low ^^^ (x >>> n) := by
  have hhigh : ∀ i < n, (low ^^^ x).getLsbD i = false := by
    intro i hi
    simp [hlow, hi]
  have hx : x = low ^^^ (low ^^^ x) := by rw [← BitVec.xor_assoc, BitVec.xor_self, BitVec.zero_xor]
  have hshift : (low ^^^ x) >>> n = x >>> n := by
    apply BitVec.eq_of_getLsbD_eq
    intro i _
    simp [hlow, show ¬n + i < n by omega]
  calc (advance poly)^[n] x = (advance poly)^[n] low ^^^ (advance poly)^[n] (low ^^^ x) := by
        rw [← iterate_advance_xor, ← hx]
    _ = (advance poly)^[n] low ^^^ (x >>> n) := by rw [iterate_advance_high poly hhigh, hshift]

/-- Bits that are added to the register in advance are as good as bits that enter one by one. -/
theorem iterate_advance_bits (hw : 0 < w) (n : Nat) (reg v : BitVec w)
    (hv : ∀ i, n ≤ i → v.getLsbD i = false) :
    (advance poly)^[n] (reg ^^^ v) =
      ((List.range n).map v.getLsbD).foldl
        (fun reg bit => advance poly (reg ^^^ bitVec w bit)) reg := by
  induction n generalizing reg v with
  | zero =>
    have hzero : v = 0#w := by
      apply BitVec.eq_of_getLsbD_eq
      intro i _
      rw [hv i (Nat.zero_le i), BitVec.getLsbD_zero]
    simp [hzero]
  | succ n ih =>
    have hnext : ∀ i, n ≤ i → (v >>> 1).getLsbD i = false := by
      intro i hi
      rw [BitVec.getLsbD_ushiftRight]
      exact hv (1 + i) (by omega)
    have hrest : (List.range n).map (v.getLsbD ∘ Nat.succ) =
        (List.range n).map (v >>> 1).getLsbD := by
      apply List.map_congr_left
      intro i _
      rw [Function.comp_apply, BitVec.getLsbD_ushiftRight, Nat.add_comm]
    have hfirst : advance poly (reg ^^^ v) =
        advance poly (reg ^^^ bitVec w (v.getLsbD 0)) ^^^ (v >>> 1) := by
      have hsplit : reg ^^^ v = (reg ^^^ bitVec w (v.getLsbD 0)) ^^^
          (bitVec w (v.getLsbD 0) ^^^ v) := by
        rw [BitVec.xor_assoc, ← BitVec.xor_assoc (bitVec w (v.getLsbD 0)), BitVec.xor_self,
          BitVec.zero_xor]
      have hshift : (bitVec w (v.getLsbD 0) ^^^ v) >>> 1 = v >>> 1 := by
        apply BitVec.eq_of_getLsbD_eq
        intro i _
        simp [getLsbD_bitVec hw]
      rw [hsplit, advance_xor, advance_of_even poly (x := bitVec w (v.getLsbD 0) ^^^ v), hshift]
      simp [getLsbD_bitVec hw]
    rw [Function.iterate_succ_apply, hfirst, ih _ _ hnext, List.range_succ_eq_map, List.map_cons,
      List.foldl_cons, List.map_map, hrest]

end Linear

/-- The check of a message, byte by byte: a byte is added to the low end of the register, which then
    advances by eight bits. -/
theorem reflected_bytes (hw : 8 ≤ w) (poly init xorOut : BitVec w) (data : List (BitVec 8)) :
    reflected poly init xorOut data =
      data.foldl (fun reg byte => (advance poly.reverse)^[8] (reg ^^^ byte.setWidth w))
        init.reverse ^^^ xorOut := by
  have hpos : 0 < w := by omega
  rw [reflected_eq hpos]
  congr 1
  generalize init.reverse = reg
  induction data generalizing reg with
  | nil => rfl
  | cons byte data ih =>
    have hhigh : ∀ i, 8 ≤ i → (byte.setWidth w).getLsbD i = false := by
      intro i hi
      rw [BitVec.getLsbD_setWidth, BitVec.getLsbD_of_ge byte i hi, Bool.and_false]
    have hbits : bitsOf byte = (List.range 8).map (byte.setWidth w).getLsbD := by
      apply List.map_congr_left
      intro i hi
      have hlt : i < w := Nat.lt_of_lt_of_le (List.mem_range.mp hi) hw
      rw [BitVec.getLsbD_setWidth, decide_eq_true hlt, Bool.true_and]
    rw [List.flatMap_cons, List.foldl_append, List.foldl_cons, ih,
      iterate_advance_bits _ hpos 8 _ _ hhigh, hbits]

end Crc
