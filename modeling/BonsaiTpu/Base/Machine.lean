-- SUMMARY: Synchronous machines: states along a run, reachability, and the invariant rules for both.
import Mathlib.Algebra.Ring.Nat
import Mathlib.Data.List.Basic
import Mathlib.Tactic.Common

/-!
# Synchronous machines

A clocked design is a next-state function `step : σ → ι → σ`, applied once per
clock edge to the state and to the inputs sampled at that edge. This file has
the run of such a machine under a stream of inputs, the states it can reach,
and the rules by which properties of single steps become properties of runs.
-/

namespace Machine

variable {σ ι ο : Type*} {step : σ → ι → σ}

/-- The state in each clock cycle: `trace step s inp n` is the state in which
    the input `inp n` is sampled. -/
def trace (step : σ → ι → σ) (s : σ) (inp : Nat → ι) : Nat → σ
  | 0 => s
  | n + 1 => step (trace step s inp n) (inp n)

@[simp] theorem trace_zero (s : σ) (inp : Nat → ι) : trace step s inp 0 = s := rfl

@[simp] theorem trace_succ (s : σ) (inp : Nat → ι) (n : Nat) :
    trace step s inp (n + 1) = step (trace step s inp n) (inp n) := rfl

/-- The rule for a run that passes through a sequence of phases: if every step
    below `n` leads from one phase to the next, cycle `n` is in phase `n`. -/
theorem trace_phase {P : Nat → σ → Prop} {s : σ} {inp : Nat → ι} {n : Nat} (h0 : P 0 s)
    (hstep : ∀ k < n, ∀ t, P k t → P (k + 1) (step t (inp k))) :
    P n (trace step s inp n) := by
  induction n with
  | zero => exact h0
  | succ n ih =>
      exact hstep n (Nat.lt_succ_self n) _
        (ih fun k hk => hstep k (Nat.lt_succ_of_lt hk))

/-! ## Reachability -/

/-- The states reachable from an initial state under some inputs. -/
inductive Reachable (init : σ → Prop) (step : σ → ι → σ) : σ → Prop
  | init {s : σ} : init s → Reachable init step s
  | step {s : σ} (i : ι) : Reachable init step s → Reachable init step (step s i)

/-- An inductive invariant holds in every reachable state. -/
theorem Reachable.invariant {init Inv : σ → Prop} (hinit : ∀ s, init s → Inv s)
    (hstep : ∀ s i, Inv s → Inv (step s i)) {s : σ} (h : Reachable init step s) : Inv s := by
  induction h with
  | init hs => exact hinit _ hs
  | step i _ ih => exact hstep _ i ih

/-! ## Progress -/

/-- What waits for a condition that comes again and again is done waiting at some
    later time. -/
theorem exists_of_fair {wait go next : Nat → Prop} (hgo : ∀ n, wait n → go n → next (n + 1))
    (hstay : ∀ n, wait n → ¬go n → wait (n + 1)) (hfair : ∀ n, ∃ m, n ≤ m ∧ go m)
    {n : Nat} (h : wait n) :
    ∃ m, n < m ∧ next m := by
  obtain ⟨m, hnm, hm⟩ := hfair n
  obtain ⟨d, rfl⟩ := Nat.exists_eq_add_of_le hnm
  induction d generalizing n with
  | zero => exact ⟨n + 1, Nat.lt_succ_self n, hgo n h hm⟩
  | succ d ih =>
    by_cases hn : go n
    · exact ⟨n + 1, Nat.lt_succ_self n, hgo n h hn⟩
    · have hm' : go (n + 1 + d) := by rwa [Nat.add_right_comm]
      obtain ⟨m, hlt, hnext⟩ := ih (hstay n h hn) (Nat.le_add_right _ _) hm'
      exact ⟨m, Nat.lt_of_succ_lt hlt, hnext⟩

/-- A count that always rises at some later time, until it has its final value, gets there. -/
theorem exists_of_rises {P : Nat → Nat → Prop} {total : Nat}
    (hrise : ∀ n r, P n r → r ≠ total → ∃ m, n < m ∧ P m (r + 1)) {n r : Nat} (h : P n r)
    (hr : r ≤ total) :
    ∃ m, n ≤ m ∧ P m total := by
  induction hd : total - r generalizing n r with
  | zero =>
    have hr' : r = total := by omega
    exact ⟨n, Nat.le_refl n, hr' ▸ h⟩
  | succ d ih =>
    obtain ⟨m, hlt, hm⟩ := hrise n r h (by omega)
    obtain ⟨m', hle, hm'⟩ := ih hm (by omega) (by omega)
    exact ⟨m', Nat.le_trans (Nat.le_of_lt hlt) hle, hm'⟩

/-! ## Latches -/

/-- A bit that one event sets and another one clears is set if there was one of the first
    after the last one of the second. -/
theorem latch_iff {q set clear : Nat → Bool} (hfirst : q 0 = false)
    (hstep : ∀ n, q (n + 1) = (!clear n && (set n || q n))) (n : Nat) :
    q n = true ↔ ∃ c < n, set c = true ∧ ∀ k, c ≤ k → k < n → clear k = false := by
  induction n with
  | zero => simp [hfirst]
  | succ n ih =>
    rw [hstep, Bool.and_eq_true, Bool.or_eq_true, Bool.not_eq_true']
    constructor
    · rintro ⟨hclear, hset | hq⟩
      · refine ⟨n, Nat.lt_succ_self n, hset, fun k hk hk' => ?_⟩
        rwa [Nat.le_antisymm (Nat.le_of_lt_succ hk') hk]
      · obtain ⟨c, hc, hset, hkept⟩ := ih.mp hq
        refine ⟨c, Nat.lt_succ_of_lt hc, hset, fun k hk hk' => ?_⟩
        rcases Nat.lt_succ_iff_lt_or_eq.mp hk' with hlt | rfl
        · exact hkept k hk hlt
        · exact hclear
    · rintro ⟨c, hc, hset, hkept⟩
      refine ⟨hkept n (Nat.le_of_lt_succ hc) (Nat.lt_succ_self n), ?_⟩
      rcases Nat.lt_succ_iff_lt_or_eq.mp hc with hlt | rfl
      · exact .inr (ih.mpr ⟨c, hlt, hset, fun k hk hk' => hkept k hk (Nat.lt_succ_of_lt hk')⟩)
      · exact .inl hset

/-! ## Latency -/

/-- What comes out with a latency of `d` cycles is what went in, in the same order. -/
theorem collect_delayed {out inp : Nat → Option ο} {d : Nat} (hfirst : ∀ n < d, out n = none)
    (hlater : ∀ n, out (n + d) = inp n) (n : Nat) :
    (List.range (n + d)).filterMap out = (List.range n).filterMap inp := by
  induction n with
  | zero =>
    rw [Nat.zero_add, List.range_zero, List.filterMap_nil, List.filterMap_eq_nil_iff]
    intro k hk
    exact hfirst k (List.mem_range.mp hk)
  | succ n ih =>
    rw [Nat.succ_add, List.range_succ, List.range_succ, List.filterMap_append,
      List.filterMap_append, ih]
    simp only [List.filterMap_cons, List.filterMap_nil, hlater]

/-! ## Finite runs -/

/-- The outputs of a finite run, each sampled after its clock edge with the
    input still applied. -/
def outputs (step : σ → ι → σ) (out : σ → ι → ο) : σ → List ι → List ο
  | _, [] => []
  | s, i :: is => out (step s i) i :: outputs step out (step s i) is

section Outputs

variable {out : σ → ι → ο}

@[simp] theorem outputs_nil (s : σ) : outputs step out s [] = [] := rfl

@[simp] theorem outputs_cons (s : σ) (i : ι) (is : List ι) :
    outputs step out s (i :: is) = out (step s i) i :: outputs step out (step s i) is := rfl

theorem outputs_append (s : σ) (is js : List ι) :
    outputs step out s (is ++ js) = outputs step out s is ++
      outputs step out (is.foldl step s) js := by
  induction is generalizing s with
  | nil => rfl
  | cons i is ih => simp [ih]

@[simp] theorem length_outputs (s : σ) (is : List ι) :
    (outputs step out s is).length = is.length := by
  induction is generalizing s with
  | nil => rfl
  | cons i is ih => simp [ih]

end Outputs

end Machine
