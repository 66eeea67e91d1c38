-- SUMMARY: Actions on a memory, one of which may be in flight: overlapped execution of independent actions is serial.
import Mathlib.Algebra.Ring.Nat
import Mathlib.Data.Set.Insert
import Mathlib.Tactic.Common

/-!
# Overlapped execution

Actions read some locations of a memory and write others. An action is either
run at once, or issued and later completed; while it is in flight the locations
it writes may hold anything, and it may read each of its inputs at any moment.
If only actions that are independent of the one in flight are run meanwhile, every
action reads what it reads in a serial execution, and the memory ends the same.
-/

namespace Overlap

/-- An action: what it writes depends only on what it reads. -/
structure Action (L V : Type*) where
  reads : Set L
  writes : Set L
  effect : (L → V) → L → V
  effect_congr : ∀ m m', (∀ x ∈ reads, m x = m' x) → effect m = effect m'

variable {L V : Type*}

open Classical in
/-- Run an action on the memory `m`, with the inputs it has in `view`. -/
noncomputable def Action.applyTo (a : Action L V) (view m : L → V) : L → V :=
  fun x => if x ∈ a.writes then a.effect view x else m x

noncomputable def Action.apply (a : Action L V) (m : L → V) : L → V := a.applyTo m m

theorem Action.applyTo_of_mem (a : Action L V) (view m : L → V) {x : L} (h : x ∈ a.writes) :
    a.applyTo view m x = a.effect view x := if_pos h

theorem Action.applyTo_of_notMem (a : Action L V) (view m : L → V) {x : L} (h : x ∉ a.writes) :
    a.applyTo view m x = m x := if_neg h

/-- The memory before action `k` when the actions are run one after another. -/
noncomputable def serial (act : Nat → Action L V) (m : L → V) : Nat → L → V
  | 0 => m
  | k + 1 => (act k).apply (serial act m k)

/-- `b` may be run while `a` is in flight. -/
structure Independent (a b : Action L V) : Prop where
  reads : ∀ x ∈ b.reads, x ∉ a.writes
  writes : ∀ x ∈ b.writes, x ∉ a.writes
  inputs : ∀ x ∈ b.writes, x ∉ a.writes → x ∉ a.reads

inductive Step where
  | run (k : Nat)
  | issue (k : Nat)
  | complete (k : Nat)
  deriving DecidableEq

/-- Schedules that go through the actions in order from `k` to `n`, with at most one
    in flight and only independent ones run meanwhile. -/
inductive Overlapped (act : Nat → Action L V) : Nat → Option Nat → List Step → Nat → Prop
  | done {n : Nat} : Overlapped act n none [] n
  | run {k n : Nat} {t : List Step} : Overlapped act (k + 1) none t n →
      Overlapped act k none (.run k :: t) n
  | beside {i k n : Nat} {t : List Step} : Independent (act i) (act k) →
      Overlapped act (k + 1) (some i) t n → Overlapped act k (some i) (.run k :: t) n
  | issue {k n : Nat} {t : List Step} : Overlapped act (k + 1) (some k) t n →
      Overlapped act k none (.issue k :: t) n
  | complete {i k n : Nat} {t : List Step} : Overlapped act k none t n →
      Overlapped act k (some i) (.complete i :: t) n

/-! ## Execution -/

/-- The action in flight: the memory it was issued in, and the values that each
    location has had since. -/
structure Flight (L V : Type*) where
  op : Nat
  start : L → V
  seen : L → Set V

def Flight.observe (f : Flight L V) (m : L → V) : Flight L V :=
  { f with seen := fun x => insert (m x) (f.seen x) }

/-- A memory, the action in flight, and what the actions so far have read. -/
structure State (L V : Type*) where
  mem : L → V
  flight : Option (Flight L V)
  log : List (Nat × (L → V))

noncomputable def State.run (s : State L V) (k : Nat) (a : Action L V) : State L V where
  mem := a.apply s.mem
  flight := s.flight.map fun f => f.observe (a.apply s.mem)
  log := (k, s.mem) :: s.log

def State.stir (s : State L V) (f : Flight L V) (m : L → V) : State L V :=
  { s with mem := m, flight := some (f.observe m) }

def State.issue (s : State L V) (k : Nat) : State L V :=
  { s with flight := some ⟨k, s.mem, fun x => {s.mem x}⟩ }

noncomputable def State.complete (s : State L V) (k : Nat) (a : Action L V)
    (view : L → V) : State L V where
  mem := a.applyTo view s.mem
  flight := none
  log := (k, view) :: s.log

/-- Executions of a schedule. What the action in flight writes changes at any
    moment and in any way until it is complete (`stir`); of its inputs, it reads
    those it also writes when it is issued, and all others at any moment. -/
inductive Exec (act : Nat → Action L V) : State L V → List Step → State L V → Prop
  | done (s : State L V) : Exec act s [] s
  | stir {s s' : State L V} {t : List Step} {f : Flight L V} (m : L → V) : s.flight = some f →
      (∀ x ∉ (act f.op).writes, m x = s.mem x) →
      Exec act (s.stir f m) t s' → Exec act s t s'
  | run {s s' : State L V} {t : List Step} {k : Nat} :
      Exec act (s.run k (act k)) t s' → Exec act s (.run k :: t) s'
  | issue {s s' : State L V} {t : List Step} {k : Nat} : s.flight = none →
      Exec act (s.issue k) t s' → Exec act s (.issue k :: t) s'
  | complete {s s' : State L V} {t : List Step} {f : Flight L V} (view : L → V) :
      s.flight = some f →
      (∀ x ∈ (act f.op).reads, x ∈ (act f.op).writes → view x = f.start x) →
      (∀ x ∈ (act f.op).reads, x ∉ (act f.op).writes → view x ∈ f.seen x) →
      Exec act (s.complete f.op (act f.op) view) t s' → Exec act s (.complete f.op :: t) s'

/-! ## Serial equivalence -/

section Serial

variable (act : Nat → Action L V) (m₀ : L → V)

/-- What the action `i` in flight has read and left behind, when the actions below `k`
    have been started. -/
structure InFlight (i k : Nat) (mem : L → V) (f : Flight L V) : Prop where
  op : f.op = i
  start : f.start = serial act m₀ i
  mem : ∀ x ∉ (act i).writes, mem x = serial act m₀ k x
  result : ∀ x ∈ (act i).writes, serial act m₀ k x = (act i).effect (serial act m₀ i) x
  inputs : ∀ x ∈ (act i).reads, x ∉ (act i).writes → serial act m₀ k x = serial act m₀ i x
  seen : ∀ x ∈ (act i).reads, x ∉ (act i).writes → ∀ v ∈ f.seen x, v = serial act m₀ i x
  started : ∀ x, f.start x ∈ f.seen x

/-- The memory is that of the serial execution, up to what is in flight. -/
def MemAt (k : Nat) : Option Nat → State L V → Prop
  | none, s => s.flight = none ∧ s.mem = serial act m₀ k
  | some i, s => ∃ f, s.flight = some f ∧ InFlight act m₀ i k s.mem f

/-- Every action below `k` that is not in flight has read what it reads serially. -/
structure LogAt (k : Nat) (fl : Option Nat) (log : List (Nat × (L → V))) : Prop where
  reads : ∀ p ∈ log, ∀ x ∈ (act p.1).reads, p.2 x = serial act m₀ p.1 x
  all : ∀ j < k, fl ≠ some j → ∃ view, (j, view) ∈ log

variable {act m₀}

theorem InFlight.stir {i k : Nat} {mem m : L → V} {f : Flight L V} (h : InFlight act m₀ i k mem f)
    (hm : ∀ x ∉ (act f.op).writes, m x = mem x) : InFlight act m₀ i k m (f.observe m) where
  op := h.op
  start := h.start
  mem x hx := by
    rw [hm x (by rwa [h.op])]
    exact h.mem x hx
  result := h.result
  inputs := h.inputs
  seen x hr hw v hv := by
    rcases hv with rfl | hv
    · rw [hm x (by rwa [h.op]), h.mem x hw, h.inputs x hr hw]
    · exact h.seen x hr hw v hv
  started x := Set.mem_insert_of_mem _ (h.started x)

/-- Running an independent action while `i` is in flight. -/
theorem InFlight.run {i k : Nat} {mem : L → V} {f : Flight L V} (h : InFlight act m₀ i k mem f)
    (hind : Independent (act i) (act k)) :
    InFlight act m₀ i (k + 1) ((act k).apply mem) (f.observe ((act k).apply mem)) := by
  have hview : (act k).effect mem = (act k).effect (serial act m₀ k) :=
    (act k).effect_congr _ _ fun x hx => h.mem x (hind.reads x hx)
  have hmem : ∀ x ∉ (act i).writes, (act k).apply mem x = serial act m₀ (k + 1) x := by
    intro x hx
    by_cases hw : x ∈ (act k).writes
    · rw [serial, Action.apply, Action.apply, Action.applyTo_of_mem _ _ _ hw,
        Action.applyTo_of_mem _ _ _ hw, hview]
    · rw [serial, Action.apply, Action.apply, Action.applyTo_of_notMem _ _ _ hw,
        Action.applyTo_of_notMem _ _ _ hw, h.mem x hx]
  have hinputs : ∀ x ∈ (act i).reads, x ∉ (act i).writes →
      serial act m₀ (k + 1) x = serial act m₀ i x := by
    intro x hr hw
    have hk : x ∉ (act k).writes := fun hk => hind.inputs x hk hw hr
    rw [serial, Action.apply, Action.applyTo_of_notMem _ _ _ hk, h.inputs x hr hw]
  refine ⟨h.op, h.start, hmem, ?_, hinputs, ?_, fun x => Set.mem_insert_of_mem _ (h.started x)⟩
  · intro x hx
    have hk : x ∉ (act k).writes := fun hk => hind.writes x hk hx
    rw [serial, Action.apply, Action.applyTo_of_notMem _ _ _ hk, h.result x hx]
  · intro x hr hw v hv
    rcases hv with rfl | hv
    · rw [hmem x hw, hinputs x hr hw]
    · exact h.seen x hr hw v hv

/-- What an action reads while it is in flight is what it reads serially. -/
theorem InFlight.view {i k : Nat} {mem view : L → V} {f : Flight L V}
    (h : InFlight act m₀ i k mem f)
    (h1 : ∀ x ∈ (act i).reads, x ∈ (act i).writes → view x = f.start x)
    (h2 : ∀ x ∈ (act i).reads, x ∉ (act i).writes → view x ∈ f.seen x) :
    ∀ x ∈ (act i).reads, view x = serial act m₀ i x := by
  intro x hx
  by_cases hw : x ∈ (act i).writes
  · rw [h1 x hx hw, h.start]
  · exact h.seen x hx hw _ (h2 x hx hw)

theorem InFlight.complete {i k : Nat} {mem view : L → V} {f : Flight L V}
    (h : InFlight act m₀ i k mem f) (hview : ∀ x ∈ (act i).reads, view x = serial act m₀ i x) :
    (act i).applyTo view mem = serial act m₀ k := by
  funext x
  by_cases hw : x ∈ (act i).writes
  · rw [Action.applyTo_of_mem _ _ _ hw, h.result x hw, (act i).effect_congr _ _ hview]
  · rw [Action.applyTo_of_notMem _ _ _ hw, h.mem x hw]

theorem InFlight.issue (k : Nat) : InFlight act m₀ k (k + 1) (serial act m₀ k)
    ⟨k, serial act m₀ k, fun x => {serial act m₀ k x}⟩ where
  op := rfl
  start := rfl
  mem x hx := by rw [serial, Action.apply, Action.applyTo_of_notMem _ _ _ hx]
  result x hx := by rw [serial, Action.apply, Action.applyTo_of_mem _ _ _ hx]
  inputs x _ hw := by rw [serial, Action.apply, Action.applyTo_of_notMem _ _ _ hw]
  seen x _ _ v hv := hv
  started x := rfl

theorem LogAt.cons {k : Nat} {fl : Option Nat} {log : List (Nat × (L → V))} {j : Nat} {view : L → V}
    {k' : Nat} {fl' : Option Nat} (h : LogAt act m₀ k fl log)
    (hview : ∀ x ∈ (act j).reads, view x = serial act m₀ j x)
    (hall : ∀ i < k', fl' ≠ some i → i = j ∨ i < k ∧ fl ≠ some i) :
    LogAt act m₀ k' fl' ((j, view) :: log) where
  reads p hp := by
    cases hp with
    | head => exact hview
    | tail _ hp => exact h.reads p hp
  all i hi hne := by
    rcases hall i hi hne with rfl | ⟨hlt, hfl⟩
    · exact ⟨view, List.mem_cons_self⟩
    · obtain ⟨v, hv⟩ := h.all i hlt hfl
      exact ⟨v, List.mem_cons_of_mem _ hv⟩

theorem MemAt.run {k : Nat} {s : State L V} (h : MemAt act m₀ k none s) :
    MemAt act m₀ (k + 1) none (s.run k (act k)) := by
  obtain ⟨hnone, heq⟩ := h
  refine ⟨?_, ?_⟩
  · rw [State.run, hnone]
    rfl
  · rw [State.run, heq]
    rfl

theorem MemAt.beside {i k : Nat} {s : State L V} (h : MemAt act m₀ k (some i) s)
    (hind : Independent (act i) (act k)) : MemAt act m₀ (k + 1) (some i) (s.run k (act k)) := by
  obtain ⟨f, hf, hin⟩ := h
  refine ⟨_, ?_, hin.run hind⟩
  rw [State.run, hf]
  rfl

theorem MemAt.issue {k : Nat} {s : State L V} (h : MemAt act m₀ k none s) :
    MemAt act m₀ (k + 1) (some k) (s.issue k) := by
  obtain ⟨-, heq⟩ := h
  refine ⟨_, rfl, ?_⟩
  rw [State.issue, heq]
  exact InFlight.issue k

/-- Every execution of an overlapped schedule is serial: in the memory it ends with, and
    in what each action reads. -/
theorem Exec.serial {s s' : State L V} {t : List Step} (hexec : Exec act s t s') {k n : Nat}
    {fl : Option Nat}
    (hsched : Overlapped act k fl t n) (hmem : MemAt act m₀ k fl s)
    (hlog : LogAt act m₀ k fl s.log) :
    s'.flight = none ∧ s'.mem = Overlap.serial act m₀ n ∧ LogAt act m₀ n none s'.log := by
  induction hexec generalizing k fl with
  | done s =>
    cases hsched
    exact ⟨hmem.1, hmem.2, hlog⟩
  | @stir s s' t f m hf hm _ ih =>
    -- only an op in flight may stir its footprint
    cases fl with
    | none =>
      obtain ⟨hnone, -⟩ := hmem
      rw [hnone] at hf
      cases hf
    | some i =>
      obtain ⟨f', hf', hin⟩ := hmem
      cases hf.symm.trans hf'
      exact ih hsched ⟨_, rfl, hin.stir hm⟩ hlog
  | @run s s' t j _ ih =>
    cases hsched with
    | run hrest =>
      refine ih hrest hmem.run ?_
      refine hlog.cons (fun x _ => by rw [hmem.2]) fun i hi hne => ?_
      simp only [ne_eq, reduceCtorEq, not_false_eq_true, and_true]
      omega
    -- the op run beside the one in flight is independent of it, so it sees its serial memory
    | @beside i _ _ _ hind hrest =>
      refine ih hrest (hmem.beside hind) ?_
      obtain ⟨f, hf, hin⟩ := hmem
      refine hlog.cons (fun x hx => hin.mem x (hind.reads x hx)) fun i' hi hne => ?_
      by_cases hij : i' = j
      · exact Or.inl hij
      · exact Or.inr ⟨by omega, hne⟩
  | @issue s s' t j hnone _ ih =>
    cases hsched with
    | issue hrest =>
      refine ih hrest hmem.issue ⟨hlog.reads, fun i hi hne => hlog.all i ?_ (by simp)⟩
      have : j ≠ i := fun h => hne (by rw [h])
      omega
  | @complete s s' t f view hf h1 h2 _ ih =>
    cases hsched with
    | complete hrest =>
      obtain ⟨f', hf', hin⟩ := hmem
      cases hf.symm.trans hf'
      have hview := hin.view h1 h2
      refine ih hrest ⟨rfl, hin.complete hview⟩ ?_
      refine hlog.cons hview fun j hj _ => ?_
      by_cases hji : j = f.op
      · exact Or.inl hji
      · refine Or.inr ⟨hj, fun h => hji ?_⟩
        cases h
        rfl

/-- Overlapped schedules can be executed. -/
theorem Overlapped.exec {k n : Nat} {fl : Option Nat} {t : List Step}
    (hsched : Overlapped act k fl t n)
    {s : State L V} (hmem : MemAt act m₀ k fl s) : ∃ s', Exec act s t s' := by
  induction hsched generalizing s with
  | done => exact ⟨s, Exec.done s⟩
  | run _ ih =>
    obtain ⟨s', hs'⟩ := ih hmem.run
    exact ⟨s', Exec.run hs'⟩
  | beside hind _ ih =>
    obtain ⟨s', hs'⟩ := ih (hmem.beside hind)
    exact ⟨s', Exec.run hs'⟩
  | issue _ ih =>
    obtain ⟨s', hs'⟩ := ih hmem.issue
    exact ⟨s', Exec.issue hmem.1 hs'⟩
  | complete _ ih =>
    obtain ⟨f, hf, hin⟩ := hmem
    obtain rfl := hin.op
    have hview : ∀ x ∈ (act f.op).reads, f.start x = serial act m₀ f.op x :=
      fun x _ => by rw [hin.start]
    have hnext : MemAt act m₀ _ none (s.complete f.op (act f.op) f.start) :=
      ⟨rfl, hin.complete hview⟩
    obtain ⟨s', hs'⟩ := ih hnext
    exact ⟨s', Exec.complete f.start hf (fun _ _ _ => rfl) (fun x _ _ => hin.started x) hs'⟩

end Serial

end Overlap
