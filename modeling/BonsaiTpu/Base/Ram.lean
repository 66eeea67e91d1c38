-- SUMMARY: Memories as functions, lists of writes to them, and runs of consecutive cells.
import Mathlib.Data.List.Basic
import Mathlib.Logic.Function.Basic
import Mathlib.Tactic.Common

/-!
# Memories

A memory gives each address a value. `poke` performs some writes in their order; what it
leaves depends only on the last write to each address, so writes to different addresses
can be read off the list. `Agrees` is what a program with a scratch area leaves: the
writes that it is for, and anything in the scratch area.
-/

namespace Ram

variable {α β γ : Type*} [DecidableEq α]

/-- A memory after some writes, in their order. -/
def poke (mem : α → β) (writes : List (α × β)) : α → β :=
  writes.foldl (fun mem w => Function.update mem w.1 w.2) mem

@[simp] theorem poke_nil (mem : α → β) : poke mem [] = mem := rfl

@[simp] theorem poke_cons (mem : α → β) (w : α × β) (writes : List (α × β)) :
    poke mem (w :: writes) = poke (Function.update mem w.1 w.2) writes := rfl

theorem poke_append (mem : α → β) (writes writes' : List (α × β)) :
    poke mem (writes ++ writes') = poke (poke mem writes) writes' := List.foldl_append

theorem poke_of_notMem {mem : α → β} {writes : List (α × β)} {x : α} (h : x ∉ writes.map Prod.fst) :
    poke mem writes x = mem x := by
  induction writes generalizing mem with
  | nil => rfl
  | cons w writes ih =>
    rw [List.map_cons, List.mem_cons, not_or] at h
    rw [poke_cons, ih h.2, Function.update_of_ne h.1]

theorem poke_of_mem {mem : α → β} {writes : List (α × β)} (hnodup : (writes.map Prod.fst).Nodup)
    {w : α × β} (h : w ∈ writes) :
    poke mem writes w.1 = w.2 := by
  induction writes generalizing mem with
  | nil => cases h
  | cons w' writes ih =>
    rw [List.map_cons, List.nodup_cons] at hnodup
    rcases List.mem_cons.mp h with rfl | hmem
    · rw [poke_cons, poke_of_notMem hnodup.1, Function.update_self]
    · rw [poke_cons, ih hnodup.2 hmem]

/-- What writes leave in a cell depends on no other cell. -/
theorem poke_congr {mem mem' : α → β} (writes : List (α × β)) {x : α} (h : mem x = mem' x) :
    poke mem writes x = poke mem' writes x := by
  induction writes generalizing mem mem' with
  | nil => exact h
  | cons w writes ih =>
    rw [poke_cons, poke_cons]
    refine ih ?_
    by_cases heq : x = w.1
    · subst heq
      rw [Function.update_self, Function.update_self]
    · rw [Function.update_of_ne heq, Function.update_of_ne heq, h]

/-! ## Values for a list of cells -/

theorem keys_zip {keys : List γ} {values : List β} (h : keys.length = values.length) :
    (keys.zip values).map Prod.fst = keys :=
  List.map_fst_zip (Nat.le_of_eq h)

theorem poke_zip {mem : α → β} {keys : List α} {values : List β}
    (hlen : keys.length = values.length) (hnodup : keys.Nodup) {i : Nat} {x : α}
    {v : β} (hx : keys[i]? = some x) (hv : values[i]? = some v) :
    poke mem (keys.zip values) x = v := by
  refine poke_of_mem (w := (x, v)) ?_
    (List.mem_of_getElem? (List.getElem?_zip_eq_some.mpr ⟨hx, hv⟩))
  rw [keys_zip hlen]
  exact hnodup

theorem poke_zip_of_notMem {mem : α → β} {keys : List α} {values : List β}
    (hlen : keys.length = values.length) {x : α} (hx : x ∉ keys) :
    poke mem (keys.zip values) x = mem x := by
  refine poke_of_notMem ?_
  rw [keys_zip hlen]
  exact hx

/-! ## Ranges -/

/-- The values of the cells from an address on. -/
def peek (mem : Nat → β) (start n : Nat) : List β := (List.range n).map fun i => mem (start + i)

@[simp] theorem length_peek (mem : Nat → β) (start n : Nat) : (peek mem start n).length = n := by
  rw [peek, List.length_map, List.length_range]

theorem getElem?_peek (mem : Nat → β) (start : Nat) {n i : Nat} (hi : i < n) :
    (peek mem start n)[i]? = some (mem (start + i)) := by
  rw [peek, List.getElem?_map, List.getElem?_range hi]
  rfl

/-- A memory with some values from an address on. -/
def pokeAt (mem : Nat → β) (start : Nat) (values : List β) : Nat → β :=
  poke mem ((List.range' start values.length).zip values)

theorem pokeAt_of_lt {mem : Nat → β} {start : Nat} {values : List β} {x : Nat}
    (h : x < start ∨ start + values.length ≤ x) :
    pokeAt mem start values x = mem x := by
  refine poke_zip_of_notMem List.length_range' ?_
  rw [List.mem_range'_1]
  omega

theorem pokeAt_add {mem : Nat → β} {start : Nat} {values : List β} {i : Nat} {v : β}
    (h : values[i]? = some v) :
    pokeAt mem start values (start + i) = v := by
  obtain ⟨hi, -⟩ := List.getElem?_eq_some_iff.mp h
  refine poke_zip List.length_range' List.nodup_range' (i := i) ?_ h
  rw [List.getElem?_range' hi, Nat.one_mul]

/-! ## Scratch areas -/

/-- Outside of a scratch area, a memory is an earlier one with some writes. -/
def Agrees (scratch : α → Prop) (mem mem' : α → β) (writes : List (α × β)) : Prop :=
  ∀ x, ¬scratch x → mem' x = poke mem writes x

section

variable {scratch scratch' : α → Prop} {mem mem' mem'' : α → β} {writes writes' : List (α × β)}

theorem Agrees.refl (scratch : α → Prop) (mem : α → β) : Agrees scratch mem mem [] := fun _ _ => rfl

theorem Agrees.trans (h : Agrees scratch mem mem' writes) (h' : Agrees scratch mem' mem'' writes') :
    Agrees scratch mem mem'' (writes ++ writes') := by
  intro x hx
  rw [h' x hx, poke_append]
  exact poke_congr writes' (h x hx)

theorem Agrees.mono (h : Agrees scratch mem mem' writes) (hscratch : ∀ x, scratch x → scratch' x) :
    Agrees scratch' mem mem' writes :=
  fun x hx => h x fun hs => hx (hscratch x hs)

/-- A cell that is neither written nor scratch keeps its value. -/
theorem Agrees.kept (h : Agrees scratch mem mem' writes) {x : α} (hx : ¬scratch x)
    (hw : x ∉ writes.map Prod.fst) : mem' x = mem x := by
  rw [h x hx, poke_of_notMem hw]

/-- Cells that are written once have their values. -/
theorem Agrees.values {keys : List α} {values : List β}
    (h : Agrees scratch mem mem' (keys.zip values)) (hlen : keys.length = values.length)
    (hnodup : keys.Nodup) (hkeys : ∀ x ∈ keys, ¬scratch x) : keys.map mem' = values := by
  refine List.ext_getElem? fun i => ?_
  rcases Nat.lt_or_ge i keys.length with hi | hi
  · have hkey := List.getElem?_eq_getElem hi
    have hvalue := List.getElem?_eq_getElem (hlen ▸ hi)
    rw [List.getElem?_map, hkey, hvalue, Option.map_some, h _ (hkeys _ (List.getElem_mem hi)),
      poke_zip hlen hnodup hkey hvalue]
  · rw [List.getElem?_eq_none (by rwa [List.length_map]), List.getElem?_eq_none (hlen ▸ hi)]

/-- A copy to the scratch area changes nothing outside of it. -/
theorem agrees_pokeAt {scratch : Nat → Prop} {mem : Nat → β} {start : Nat} {values : List β}
    (hscratch : ∀ i < values.length, scratch (start + i)) :
    Agrees scratch mem (pokeAt mem start values) [] := by
  intro x hx
  refine pokeAt_of_lt ?_
  by_contra hin
  refine hx ?_
  have hsplit : x = start + (x - start) := by omega
  rw [hsplit]
  exact hscratch _ (by omega)

end

end Ram
