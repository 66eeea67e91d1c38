-- SUMMARY: The loop of a graph makes the calls of kernels that `Executes` allows, and no others.
import BonsaiTpu.Daemon.Store

/-!
# The calls of a graph

`schedule_executes` is that the loop of `run_graph` calls the kernels of its ops as
`Executes` says: each op once and in its order, never over an op in flight that it touches,
and an op in flight completed before it can be forgotten, unless the graph fails.
-/

namespace Daemon

open Wire (Json Dict)
open Board (Byte Err Counts Role)

variable {κ α β : Type} {py : Python}

theorem ok_bind (x : α) (f : α → Except Err β) : (Except.ok x >>= f) = f x := rfl

theorem error_bind (e : Err) (f : α → Except Err β) : (Except.error e >>= f) = .error e := rfl

theorem ok_of_bind {x : Except Err α} {f : α → Except Err β} {y : β} (h : (x >>= f) = .ok y) :
    ∃ v, x = .ok v ∧ f v = .ok y := by
  cases x with
  | ok v => exact ⟨v, rfl, h⟩
  | error e => cases h

@[simp] theorem run_lift_ok (x : α) (b : Machine (List Byte) κ) :
    (lift (.ok x) : Work (List Byte) κ α).run b = .ok x b := rfl

@[simp] theorem run_lift_error (e : Err) (b : Machine (List Byte) κ) :
    (lift (.error e) : Work (List Byte) κ α).run b = .error e b := rfl

/-- A field that `int()` does not take. -/
def BadField (py : Python) (op : Dict) (e : Err) : Prop :=
  ∃ role key value, (key = handleField role ∨ key = offsetField role) ∧ op key = some value ∧
    py.int value = .error e

/-! ## The barrier -/

section Barrier

variable {op : Dict} {handle lo hi : Int} {roles : List Role}

theorem intOr_error {key : String} {fallback : Int} {e : Err}
    (h : intOr py op key fallback = .error e) :
    ∃ value, op key = some value ∧ py.int value = .error e := by
  rw [intOr] at h
  split at h
  · cases h
  · next value hvalue => exact ⟨value, hvalue, h⟩

/-- An op that touches nothing names the bytes in no role. -/
theorem touchesFrom_false (h : touchesFrom py op handle lo hi roles = .ok false) :
    ∀ role ∈ roles, ∀ value, op (handleField role) = some value → py.int value = .ok handle →
      ∀ offset, intOr py op (offsetField role) 0 = .ok offset → ¬(lo ≤ offset ∧ offset < hi) := by
  induction roles with
  | nil => simp
  | cons role rest ih =>
    rw [touchesFrom] at h
    split at h
    · next hnone =>
      refine List.forall_mem_cons.mpr ⟨fun value hvalue => ?_, ih h⟩
      rw [hnone] at hvalue
      cases hvalue
    · next found hfound =>
      obtain ⟨named, hnamed, h⟩ := ok_of_bind h
      split at h
      · next hsame =>
        obtain ⟨offset, hoffset, h⟩ := ok_of_bind h
        split at h
        · cases h
        · next hout =>
          refine List.forall_mem_cons.mpr ⟨fun _ _ _ offset' hoffset' => ?_, ih h⟩
          obtain rfl : offset = offset' := Except.ok.inj (hoffset.symm.trans hoffset')
          exact hout
      · next hother =>
        refine List.forall_mem_cons.mpr ⟨fun value hvalue hint => ?_, ih h⟩
        obtain rfl : found = value := Option.some.inj (hfound.symm.trans hvalue)
        exact absurd (Except.ok.inj (hnamed.symm.trans hint)) hother

theorem touchesFrom_error {e : Err} (h : touchesFrom py op handle lo hi roles = .error e) :
    BadField py op e := by
  induction roles with
  | nil => cases h
  | cons role rest ih =>
    rw [touchesFrom] at h
    split at h
    · exact ih h
    · next value hvalue =>
      cases hint : py.int value with
      | error e' =>
        rw [hint, error_bind] at h
        cases h
        exact ⟨role, _, value, Or.inl rfl, hvalue, hint⟩
      | ok named =>
        rw [hint, ok_bind] at h
        split at h
        · cases hoffset : intOr py op (offsetField role) 0 with
          | error e' =>
            rw [hoffset, error_bind] at h
            cases h
            obtain ⟨value', hvalue', hint'⟩ := intOr_error hoffset
            exact ⟨role, _, value', Or.inr rfl, hvalue', hint'⟩
          | ok offset =>
            rw [hoffset, ok_bind] at h
            split at h
            · cases h
            · exact ih h
        · exact ih h

end Barrier

section

variable {registry : Registry (List Byte) κ} {kernel : Kernel (List Byte) κ} {op : Dict}
  {inFlight : Option (Flight (List Byte) κ)}

theorem barrier_false (h : barrier py kernel op inFlight = .ok false) :
    Clear py kernel op inFlight := by
  rintro flight rfl
  rw [barrier] at h
  split at h
  · cases h
  · next hbackend => exact ⟨hbackend, touchesFrom_false h⟩

theorem barrier_true (h : barrier py kernel op inFlight = .ok true) :
    ∃ flight, inFlight = some flight := by
  cases inFlight with
  | none => cases h
  | some flight => exact ⟨flight, rfl⟩

theorem barrier_error {e : Err} (h : barrier py kernel op inFlight = .error e) :
    BadField py op e := by
  cases inFlight with
  | none => cases h
  | some flight =>
    rw [barrier] at h
    split at h
    · cases h
    · exact touchesFrom_error h

theorem getKernel_ok (hname : strOr py op "op" "" ≠ "")
    (h : getKernel registry (strOr py op "op" "") = .ok kernel) :
    kernelOf py registry op = some kernel := by
  rw [getKernel] at h
  split at h
  · next found hfound =>
    cases h
    simp only [kernelOf, if_neg hname, hfound]
  · cases h

theorem getKernel_error {e : Err} (index : Nat) (hname : strOr py op "op" "" ≠ "")
    (h : getKernel registry (strOr py op "op" "") = .error e) : Refused py registry index op e := by
  rw [getKernel] at h
  split at h
  · cases h
  · next hnone =>
    cases h
    exact .unsupported hname (by simp only [kernelOf, if_neg hname, hnone])

/-- An op is started by a method of its kernel. -/
theorem startOp_method (hclear : Clear py kernel op inFlight) :
    Method py kernel op inFlight (startOp kernel op inFlight) := by
  rw [startOp.eq_def]
  split
  · next method hmethod => exact .runAsync hmethod
  · next hnot =>
    refine .run ?_ hclear
    cases hmethod : kernel.runAsync with
    | none => exact Or.inl rfl
    | some method => exact Or.inr (Option.isSome_iff_ne_none.mpr (hnot method hmethod))

end

/-! ## The loop -/

section

variable {registry : Registry (List Byte) κ} {kernel : Kernel (List Byte) κ} {op : Dict}
  {inFlight : Option (Flight (List Byte) κ)} {index : Nat} {ops : List Dict}
    {b : Machine (List Byte) κ}

theorem Refused.of_badField {e : Err} (hkernel : kernelOf py registry op = some kernel)
    (h : BadField py op e) :
    Refused py registry index op e := by
  obtain ⟨role, key, value, hkey, hvalue, hint⟩ := h
  exact .field (by rw [hkernel]; rfl) hkey hvalue hint

/-- What an iteration of the loop makes of the graph. -/
theorem graphOp_executes (py : Python) (registry : Registry (List Byte) κ) (index : Nat) (op : Dict)
    (inFlight : Option (Flight (List Byte) κ)) (b : Machine (List Byte) κ) (counts : Counts) :
    match (graphOp py registry index op inFlight counts).run b with
    | .ok next b₁ => (∃ kernel, kernelOf py registry op = some kernel ∧
          next.2 = counts.add ⟨kernel.backend, kernel.runAsync.isSome⟩) ∧
        ∀ ops o b', Executes py registry (index + 1) next.1 ops b₁ o b' →
          Executes py registry index inFlight (op :: ops) b o b'
    | .error e b' => ∀ ops, Executes py registry index inFlight (op :: ops) b (.error e) b' := by
  rw [graphOp]
  by_cases hname : strOr py op "op" "" = ""
  · rw [if_pos hname]
    exact fun _ => .refused (.missing hname)
  rw [if_neg hname]
  cases hget : getKernel registry (strOr py op "op" "") with
  | error e => exact fun _ => .refused (getKernel_error index hname hget)
  | ok kernel =>
    have hkernel := getKernel_ok hname hget
    simp only [EStateM.run_bind, run_lift_ok]
    cases hbarrier : barrier py kernel op inFlight with
    | error e => exact fun _ => .refused (.of_badField hkernel (barrier_error hbarrier))
    | ok wait =>
      simp only [run_lift_ok]
      cases wait with
      | false =>
        have hmethod := startOp_method (barrier_false hbarrier)
        simp only [release, Bool.false_eq_true, if_false, EStateM.run_pure]
        cases hrun : (startOp kernel op inFlight).run b with
        | error e b' => exact fun _ => .failed hkernel hmethod hrun
        | ok next b₁ =>
          exact ⟨⟨kernel, hkernel, rfl⟩, fun _ _ _ hrest => .ran hkernel hmethod hrun hrest⟩
      | true =>
        obtain ⟨flight, rfl⟩ := barrier_true hbarrier
        have hmethod : Method py kernel op none (startOp kernel op none) :=
          startOp_method fun _ h => by cases h
        simp only [release, if_true, EStateM.run_bind, settle]
        cases hcomplete : flight.complete.run b with
        | error e b' => exact fun _ => .completeFailed hcomplete
        | ok _ b₁ =>
          simp only [EStateM.run_pure]
          cases hrun : (startOp kernel op none).run b₁ with
          | error e b' => exact fun _ => .completed hcomplete (.failed hkernel hmethod hrun)
          | ok next b₂ =>
            exact ⟨⟨kernel, hkernel, rfl⟩, fun _ _ _ hrest =>
              .completed hcomplete (.ran hkernel hmethod hrun hrest)⟩

theorem countsOf_cons (hkernel : kernelOf py registry op = some kernel) (counts : Counts)
    (ops : List Dict) :
    (counts.add ⟨kernel.backend, kernel.runAsync.isSome⟩).ps + (countsOf py registry ops).ps =
        counts.ps + (countsOf py registry (op :: ops)).ps ∧
      (counts.add ⟨kernel.backend, kernel.runAsync.isSome⟩).pl + (countsOf py registry ops).pl =
        counts.pl + (countsOf py registry (op :: ops)).pl := by
  have hop : ((kernelOf py registry op).any fun kernel => kernel.backend = "pl") =
      decide (kernel.backend = "pl") := by
    rw [hkernel]
    rfl
  have hle : ops.countP (fun op => (kernelOf py registry op).any fun kernel =>
      kernel.backend = "pl") ≤ ops.length :=
    List.countP_le_length
  simp only [countsOf, List.countP_cons, List.length_cons, hop, Counts.add, decide_eq_true_eq]
  split <;> constructor <;> simp only <;> omega

/-- The loop calls its kernels as the graph is executed, and counts the ops. -/
theorem schedule_executes (py : Python) (registry : Registry (List Byte) κ) (ops : List Dict)
    (b : Machine (List Byte) κ) (inFlight : Option (Flight (List Byte) κ)) (index : Nat)
    (counts : Counts) :
    match (schedule py registry index inFlight counts ops).run b with
    | .ok total b' => Executes py registry index inFlight ops b (.ok ()) b' ∧
        total = ⟨counts.ps + (countsOf py registry ops).ps,
          counts.pl + (countsOf py registry ops).pl⟩
    | .error e b' => Executes py registry index inFlight ops b (.error e) b' := by
  induction ops generalizing index inFlight counts b with
  | nil =>
    rw [schedule, EStateM.run_bind]
    cases inFlight with
    | none => exact ⟨.done, rfl⟩
    | some flight =>
      rw [settle]
      cases hcomplete : flight.complete.run b with
      | error e b' => exact .completeFailed hcomplete
      | ok _ b' => exact ⟨.completed hcomplete .done, rfl⟩
  | cons op ops ih =>
    rw [schedule, EStateM.run_bind]
    have hstep := graphOp_executes py registry index op inFlight b counts
    cases hop : (graphOp py registry index op inFlight counts).run b with
    | error e b' =>
      rw [hop] at hstep
      exact hstep ops
    | ok next b₁ =>
      rw [hop] at hstep
      obtain ⟨⟨kernel, hkernel, hcounts⟩, hstep⟩ := hstep
      have hrest := ih (b := b₁) next.1 (index + 1) next.2
      simp only
      cases hschedule : (schedule py registry (index + 1) next.1 next.2 ops).run b₁ with
      | error e b' =>
        rw [hschedule] at hrest
        exact hstep ops _ b' hrest
      | ok total b' =>
        rw [hschedule] at hrest
        obtain ⟨hps, hpl⟩ := countsOf_cons hkernel counts ops
        refine ⟨hstep ops _ b' hrest.1, ?_⟩
        rw [hrest.2, hcounts, hps, hpl]

end

end Daemon
