-- SUMMARY: Programs that write a buffer in order: what a loop writes, and lists cut into pieces of one length.
import Mathlib.Algebra.Ring.Nat
import Mathlib.Data.List.Basic
import Mathlib.Tactic.Common

/-!
# Writing in order

A writer's state is a function of what it has written so far. `Writes` says what a
step adds at a position of the buffer; steps compose by concatenation, and a counting
loop writes the concatenation of what its iterations write.
-/

namespace Writer

/-! ## Pieces of one length -/

section Pieces

variable {β : Type*} (piece : Nat → List β) {n m : Nat} (hlen : ∀ i < n, (piece i).length = m)

include hlen

theorem length_pieces : ((List.range n).flatMap piece).length = n * m := by
  induction n with
  | zero => rw [List.range_zero, List.flatMap_nil, Nat.zero_mul, List.length_nil]
  | succ n ih =>
    rw [List.range_succ, List.flatMap_append, List.length_append,
      ih fun i hi => hlen i (Nat.lt_succ_of_lt hi), List.flatMap_singleton,
      hlen n (Nat.lt_succ_self n), Nat.succ_mul]

/-- A piece, read back from a list that starts with all pieces. -/
theorem slice_pieces (rest : List β) {i : Nat} (hi : i < n) :
    ((((List.range n).flatMap piece) ++ rest).drop (i * m)).take m = piece i := by
  have hsplit : List.range n = List.range i ++ (List.range (n - i)).map (i + ·) := by
    rw [← List.range_add, Nat.add_sub_cancel' (Nat.le_of_lt hi)]
  obtain ⟨d, hd⟩ : ∃ d, n - i = d + 1 := ⟨n - i - 1, by omega⟩
  have hbefore : ((List.range i).flatMap piece).length = i * m :=
    length_pieces piece fun j hj => hlen j (Nat.lt_trans hj hi)
  rw [hsplit, hd, List.range_succ_eq_map, List.flatMap_append, List.append_assoc,
    List.drop_left' hbefore, List.map_cons, List.flatMap_cons, List.append_assoc]
  exact List.take_left' (hlen i hi)

omit hlen in
/-- A list cut into pieces. -/
theorem take_pieces (l : List β) :
    l.take (n * m) = (List.range n).flatMap fun i => (l.drop (i * m)).take m := by
  induction n with
  | zero => rw [Nat.zero_mul, List.take_zero, List.range_zero, List.flatMap_nil]
  | succ n ih =>
    rw [Nat.succ_mul, List.take_add, ih, List.range_succ, List.flatMap_append,
      List.flatMap_singleton]

end Pieces

/-! ## Steps -/

section Steps

variable {β σ τ υ : Type}

/-- With `pos` elements written and room for `bytes`, the step adds `bytes`. -/
def Writes (room pos : Nat) (f : σ → Option τ) (pre : List β → σ) (post : List β → τ)
    (bytes : List β) : Prop :=
  ∀ done, done.length = pos → pos + bytes.length ≤ room → f (pre done) = some (post (done ++ bytes))

variable {room pos : Nat}

theorem Writes.bind {f : σ → Option τ} {g : τ → Option υ} {pre : List β → σ} {mid : List β → τ}
    {post : List β → υ}
    {xs ys : List β} (hf : Writes room pos f pre mid xs)
    (hg : Writes room (pos + xs.length) g mid post ys) :
    Writes room pos (fun s => f s >>= g) pre post (xs ++ ys) := by
  intro done hdone hroom
  rw [List.length_append] at hroom
  have hmid : (done ++ xs).length = pos + xs.length := by rw [List.length_append, hdone]
  show (f (pre done)).bind g = _
  rw [hf done hdone (by omega), Option.bind_some, hg (done ++ xs) hmid (by omega),
    List.append_assoc]

/-- A step whose result is put into a larger state. -/
theorem Writes.map {f : σ → Option τ} {pre : List β → σ} {post : List β → τ} {bytes : List β}
    (h : Writes room pos f pre post bytes) (u : τ → υ) :
    Writes room pos (fun s => f s >>= fun t => some (u t)) pre
      (fun done => u (post done)) bytes := by
  intro done hdone hroom
  show (f (pre done)).bind _ = _
  rw [h done hdone hroom, Option.bind_some]

/-- A counting loop, one of whose iterations writes `m` elements. -/
theorem Writes.range {f : σ → Nat → Option σ} (inv : Nat → List β → σ)
    {piece : Nat → List β} {n m : Nat} (hlen : ∀ i < n, (piece i).length = m)
    (h : ∀ i < n, Writes room (pos + i * m) (f · i) (inv i) (inv (i + 1)) (piece i)) :
    Writes room pos (fun s => (List.range n).foldlM f s) (inv 0) (inv n)
      ((List.range n).flatMap piece) := by
  induction n with
  | zero =>
    intro done hdone hroom
    simp
  | succ n ih =>
    have hbefore := length_pieces piece fun i hi => hlen i (Nat.lt_succ_of_lt hi)
    have hfirst := ih (fun i hi => hlen i (Nat.lt_succ_of_lt hi)) fun i hi =>
      h i (Nat.lt_succ_of_lt hi)
    have hlast := h n (Nat.lt_succ_self n)
    rw [← hbefore] at hlast
    have hboth := hfirst.bind hlast
    simp only [List.range_succ, List.foldlM_append, List.flatMap_append, List.flatMap_singleton]
    simpa only [List.foldlM_cons, List.foldlM_nil, bind_pure] using hboth

/-- The result of a step, when it starts with nothing written. -/
theorem Writes.run {f : σ → Option τ} {pre : List β → σ} {post : List β → τ} {bytes : List β}
    (h : Writes room 0 f pre post bytes) (hroom : bytes.length ≤ room) :
    f (pre []) = some (post bytes) :=
  h [] rfl (by omega)

end Steps

end Writer
