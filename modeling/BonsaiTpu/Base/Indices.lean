-- SUMMARY: Index types with a few elements: their literals.
import Mathlib.Algebra.Ring.Nat
import Mathlib.Tactic.Common

/-!
# Short index types

Dimensions, sources, lanes and rows are indexed by `Fin n` for a small number `n`. The
literals of these types need `n ≠ 0`, which is stated here once for each size.
-/

namespace Indices

instance neZero_two : NeZero 2 := ⟨by decide⟩

instance neZero_four : NeZero 4 := ⟨by decide⟩

instance neZero_ten : NeZero 10 := ⟨by decide⟩

end Indices
