-- SUMMARY: Commands with open outcomes: what is sure to hold after a list of them, and the rules for it.
import Mathlib.Data.List.Basic
import Mathlib.Tactic.Common

/-!
# Commands with open outcomes

A command relates a state to the states it may leave, where its surroundings decide which.
`Ensures` is total: each command can be done whatever the ones before it left, and what
holds in the end holds for every outcome of each.
-/

/-- From the state the commands can be done one after another, and however they come out, `post`
    holds then. -/
def Ensures {ε σ : Type*} (does : ε → σ → σ → Prop) : List ε → (σ → Prop) → σ → Prop
  | [], post => post
  | cmd :: cmds, post => fun st =>
    (∃ st', does cmd st st') ∧ ∀ st', does cmd st st' → Ensures does cmds post st'

namespace Ensures

variable {ε σ α : Type*} {does : ε → σ → σ → Prop} {cmds cmds' : List ε}
    {post post' : σ → Prop} {st : σ}

theorem nil (h : post st) : Ensures does [] post st := h

theorem mono (h : Ensures does cmds post st) (hpost : ∀ st', post st' → post' st') :
    Ensures does cmds post' st := by
  induction cmds generalizing st with
  | nil => exact hpost st h
  | cons cmd cmds ih => exact ⟨h.1, fun st' hst' => ih (h.2 st' hst')⟩

theorem append (h : Ensures does cmds (Ensures does cmds' post) st) :
    Ensures does (cmds ++ cmds') post st := by
  induction cmds generalizing st with
  | nil => exact h
  | cons cmd cmds ih => exact ⟨h.1, fun st' hst' => ih (h.2 st' hst')⟩

/-- A command with one outcome. -/
theorem cons_eq {cmd : ε} {next : σ} (hdoes : ∀ st', does cmd st st' ↔ st' = next)
    (h : Ensures does cmds post next) :
    Ensures does (cmd :: cmds) post st :=
  ⟨⟨next, (hdoes next).mpr rfl⟩, fun st' hst' => (hdoes st').mp hst' ▸ h⟩

/-- The rule for a loop: what a body keeps, with the elements so far, holds with all of them. -/
theorem flatMap {body : α → List ε} {l : List α} (inv : List α → σ → Prop)
    (hbody : ∀ done x, done ++ [x] <+: l → ∀ st,
      inv done st → Ensures does (body x) (inv (done ++ [x])) st) (h : inv [] st) :
    Ensures does (l.flatMap body) (inv l) st := by
  suffices hrest : ∀ done rest, done ++ rest = l → ∀ st,
      inv done st → Ensures does (rest.flatMap body) (inv l) st from
    hrest [] l rfl st h
  intro done rest
  induction rest generalizing done with
  | nil =>
    rintro rfl st hst
    rw [List.append_nil]
    exact hst
  | cons x rest ih =>
    intro hl st hst
    have hsplit : done ++ [x] ++ rest = l := by rw [List.append_assoc, ← hl]; rfl
    rw [List.flatMap_cons]
    exact append ((hbody done x ⟨rest, hsplit⟩ st hst).mono fun st' hst' =>
      ih (done ++ [x]) hsplit st' hst')

end Ensures
