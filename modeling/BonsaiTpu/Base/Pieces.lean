-- SUMMARY: Byte streams that arrive in pieces, and reading an exact count from them.
import Mathlib.Algebra.Ring.Nat
import Mathlib.Data.List.Basic
import Mathlib.Tactic.Common

/-!
# Streams in pieces

A stream is delivered as a list of pieces of any sizes, empty ones included. A
reader that asks for `n` elements takes pieces until it has them, and leaves the
unread part of the last piece in front. What it gets depends on the concatenation
of the pieces only.
-/

namespace Pieces

variable {α : Type*}

/-- Take exactly `n` elements, or `none` when the pieces run out first. -/
def read : Nat → List (List α) → Option (List α × List (List α))
  | 0, ps => some ([], ps)
  | _ + 1, [] => none
  | n + 1, p :: ps =>
    if p.length ≤ n + 1 then
      (read (n + 1 - p.length) ps).map fun r => (p ++ r.1, r.2)
    else some (p.take (n + 1), p.drop (n + 1) :: ps)

theorem read_of_le {n : Nat} {ps : List (List α)} (h : n ≤ ps.flatten.length) :
    ∃ rest, read n ps = some (ps.flatten.take n, rest) ∧ rest.flatten = ps.flatten.drop n := by
  induction ps generalizing n with
  | nil =>
    obtain rfl : n = 0 := by simpa using h
    exact ⟨[], rfl, rfl⟩
  | cons p ps ih =>
    cases n with
    | zero => exact ⟨p :: ps, rfl, rfl⟩
    | succ n =>
      rw [List.flatten_cons, List.length_append] at h
      by_cases hp : p.length ≤ n + 1
      · obtain ⟨rest, hread, hrest⟩ := ih (n := n + 1 - p.length) (by omega)
        refine ⟨rest, ?_, ?_⟩
        · rw [read, if_pos hp, hread, Option.map_some, List.flatten_cons, List.take_append,
            List.take_of_length_le hp]
        · rw [hrest, List.flatten_cons, List.drop_append, List.drop_of_length_le hp,
            List.nil_append]
      · refine ⟨p.drop (n + 1) :: ps, ?_, ?_⟩
        · rw [read, if_neg hp, List.flatten_cons, List.take_append_of_le_length (by omega)]
        · rw [List.flatten_cons, List.flatten_cons, List.drop_append_of_le_length (by omega)]

theorem read_of_lt {n : Nat} {ps : List (List α)} (h : ps.flatten.length < n) :
    read n ps = none := by
  induction ps generalizing n with
  | nil =>
    cases n with
    | zero => simp at h
    | succ n => rfl
  | cons p ps ih =>
    cases n with
    | zero => simp at h
    | succ n =>
      rw [List.flatten_cons, List.length_append] at h
      rw [read, if_pos (by omega), ih (by omega), Option.map_none]

end Pieces
