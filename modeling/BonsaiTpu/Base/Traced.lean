-- SUMMARY: Computations that emit events and may raise: the events emitted before an exception are kept.
import Mathlib.Algebra.Ring.Nat
import Mathlib.Tactic.Common

/-!
# Traced computations

A program is run for the calls it makes. `Traced ε err α` has the events emitted
so far, in order, and the result; an exception ends the run but does not undo
its events.
-/

/-- The events of a run and its result. -/
structure Traced (ε err α : Type) where
  events : List ε
  result : Except err α

namespace Traced

variable {ε err α β : Type}

def bind (x : Traced ε err α) (f : α → Traced ε err β) : Traced ε err β :=
  match x.result with
  | .error e => ⟨x.events, .error e⟩
  | .ok a => ⟨x.events ++ (f a).events, (f a).result⟩

instance : Monad (Traced ε err) where
  pure a := ⟨[], .ok a⟩
  bind := bind

def emit (e : ε) : Traced ε err Unit := ⟨[e], .ok ()⟩

def lift (x : Except err α) : Traced ε err α := ⟨[], x⟩

def raise (e : err) : Traced ε err α := ⟨[], .error e⟩

@[simp] theorem pure_eq (a : α) : (pure a : Traced ε err α) = ⟨[], .ok a⟩ := rfl

theorem bind_ok {x : Traced ε err α} {f : α → Traced ε err β} {t : List ε} {a : α}
    (h : x = ⟨t, .ok a⟩) :
    x >>= f = ⟨t ++ (f a).events, (f a).result⟩ := by
  subst h
  rfl

theorem bind_error {x : Traced ε err α} {f : α → Traced ε err β} {t : List ε} {e : err}
    (h : x = ⟨t, .error e⟩) : x >>= f = ⟨t, .error e⟩ := by
  subst h
  rfl

@[simp] theorem raise_bind (e : err) (f : α → Traced ε err β) :
    (raise e : Traced ε err α) >>= f = raise e := rfl

@[simp] theorem lift_ok_bind (a : α) (f : α → Traced ε err β) :
    (lift (.ok a) : Traced ε err α) >>= f = f a := rfl

@[simp] theorem lift_error_bind (e : err) (f : α → Traced ε err β) :
    (lift (.error e) : Traced ε err α) >>= f = raise e := rfl

@[simp] theorem pure_bind (a : α) (f : α → Traced ε err β) :
    (pure a : Traced ε err α) >>= f = f a := lift_ok_bind a f

theorem bind_assoc {γ : Type} (x : Traced ε err α) (f : α → Traced ε err β)
    (g : β → Traced ε err γ) :
    x >>= f >>= g = x >>= fun a => f a >>= g := by
  obtain ⟨t, r⟩ := x
  cases r with
  | error e => rfl
  | ok a =>
    simp only [Bind.bind, bind]
    cases (f a).result with
    | error e => rfl
    | ok b => simp only [List.append_assoc]

/-! ## Rules -/

/-- A run that returns went through both parts. -/
theorem of_bind_ok {x : Traced ε err α} {f : α → Traced ε err β} {b : β}
    (h : (x >>= f).result = .ok b) :
    ∃ a, x.result = .ok a ∧ (f a).result = .ok b ∧ (x >>= f).events = x.events ++ (f a).events := by
  obtain ⟨t, r⟩ := x
  cases r with
  | error e => cases h
  | ok a => exact ⟨a, rfl, h, rfl⟩

/-- Every event of a run satisfies `P`. -/
def All (P : ε → Prop) (x : Traced ε err α) : Prop := ∀ e ∈ x.events, P e

section

variable {P : ε → Prop}

theorem All.of_nil {x : Traced ε err α} (h : x.events = []) : x.All P := by
  intro e he
  rw [h] at he
  cases he

theorem All.pure (a : α) : (Pure.pure a : Traced ε err α).All P := .of_nil rfl

theorem All.lift (x : Except err α) : (Traced.lift x : Traced ε err α).All P := .of_nil rfl

theorem All.raise (e : err) : (Traced.raise e : Traced ε err α).All P := .of_nil rfl

theorem All.emit {e : ε} (h : P e) : (Traced.emit e : Traced ε err Unit).All P := by
  intro e' he'
  obtain rfl := List.mem_singleton.mp he'
  exact h

theorem All.bind {x : Traced ε err α} {f : α → Traced ε err β} (hx : x.All P)
    (hf : ∀ a, x.result = .ok a → (f a).All P) : (x >>= f).All P := by
  obtain ⟨t, r⟩ := x
  cases r with
  | error e => exact hx
  | ok a =>
    intro e he
    rcases List.mem_append.mp he with ht | hfa
    · exact hx e ht
    · exact hf a rfl e hfa

/-- A run that returns has an event that satisfies `P`. -/
def Emits (P : ε → Prop) (x : Traced ε err α) : Prop := ∀ a, x.result = .ok a → ∃ e ∈ x.events, P e

theorem Emits.emit {e : ε} (h : P e) : (Traced.emit e : Traced ε err Unit).Emits P :=
  fun _ _ => ⟨e, List.mem_singleton_self e, h⟩

theorem Emits.raise (e : err) : (Traced.raise e : Traced ε err α).Emits P := by
  intro a h
  cases h

theorem Emits.bind_left {x : Traced ε err α} {f : α → Traced ε err β} (hx : x.Emits P) :
    (x >>= f).Emits P := by
  intro b hb
  obtain ⟨a, hxa, -, hev⟩ := of_bind_ok hb
  obtain ⟨e, he, hP⟩ := hx a hxa
  exact ⟨e, hev ▸ List.mem_append_left _ he, hP⟩

theorem Emits.bind_right {x : Traced ε err α} {f : α → Traced ε err β}
    (hf : ∀ a, x.result = .ok a → (f a).Emits P) : (x >>= f).Emits P := by
  intro b hb
  obtain ⟨a, hxa, hfb, hev⟩ := of_bind_ok hb
  obtain ⟨e, he, hP⟩ := hf a hxa b hfb
  exact ⟨e, hev ▸ List.mem_append_right _ he, hP⟩

end

end Traced
