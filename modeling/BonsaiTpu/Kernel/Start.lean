-- SUMMARY: A kernel run that the host starts by a register write: it ends, and `done_latched` tells.
import BonsaiTpu.Kernel.AxiLite
import BonsaiTpu.Kernel.Run

/-!
# Runs that the host starts

The kernel in `q1a8_kernel_top.v` is a run of its own, with the registers at its inputs. A
write that starts it begins a run in the sense of `Run`, as long as the host leaves the
registers alone until the kernel is done.
-/

namespace Q1a8

open Handshake

namespace AxiLite

variable {s : Top} {inp : Nat → TopInputs}

/-- The ports of the kernel from cycle `n` on. -/
def kernelInputs (s : Top) (inp : Nat → TopInputs) (n c : Nat) : Inputs :=
  (cycle s inp (n + c)).kernelIn (inp (n + c))

theorem kernel_cycle (n c : Nat) :
    (cycle s inp (n + c)).kernel = Q1a8.cycle (cycle s inp n).kernel (kernelInputs s inp n) c := by
  induction c with
  | zero => rfl
  | succ c ih =>
    rw [← Nat.add_assoc, cycle_succ, Q1a8.cycle, Machine.trace_succ, ← Q1a8.cycle, ← ih]
    rfl

theorem reachable_cycle (h : Reachable s.kernel) (n : Nat) : Reachable (cycle s inp n).kernel := by
  induction n with
  | zero => exact h
  | succ n ih => exact .step _ ih

theorem reachable_of_reset (hs : s.AfterReset) : Reachable s.kernel := by
  obtain ⟨t₀, i, hrst, rfl⟩ := hs
  exact .init ⟨t₀.kernel, t₀.kernelIn i, hrst, rfl⟩

theorem kernel_reachable (hs : s.AfterReset) (n : Nat) : Reachable (cycle s inp n).kernel :=
  reachable_cycle (reachable_of_reset hs) n

/-- No `kernel_done` in the first `c` cycles of the run that a write in cycle `n` starts. -/
def Pending (s : Top) (inp : Nat → TopInputs) (n c : Nat) : Prop :=
  Unfinished (cycle s inp (n + 1)).kernel (kernelInputs s inp (n + 1)) c

/-- A write that starts the idle kernel on the streams of a job, and a host that writes no
    register until the kernel is done. -/
structure Started (s : Top) (inp : Nat → TopInputs) (j : Job) (n : Nat) : Prop where
  write : (awChannel s inp).transfer n = true
  starts : (writeAt inp n).starts = true
  idle : (cycle s inp (n + 1)).kernelBusy = false
  numQ1Blocks : (cycle s inp (n + 1)).numQ1BlocksQ.toNat = j.q1Blocks
  numRowblocks : (cycle s inp (n + 1)).numRowblocksQ.toNat = j.rowblocks
  quiet : ∀ c, Pending s inp n (c + 1) → (awChannel s inp).transfer (n + 1 + c) = false
  acts : ∀ c, Pending s inp n (c + 1) →
    (cycle s inp (n + 1 + c)).kernel.actsBeatAccept (kernelInputs s inp (n + 1) c) = true →
      (inp (n + 1 + c)).sAxisActsTdata =
        j.acts (actsAccepted (cycle s inp (n + 1)).kernel (kernelInputs s inp (n + 1)) c)
  weights : ∀ c, Pending s inp n (c + 1) →
    (cycle s inp (n + 1 + c)).kernel.weightsBeatAccept (kernelInputs s inp (n + 1) c) = true →
      (inp (n + 1 + c)).sAxisTdata =
        j.weights (weightsAccepted (cycle s inp (n + 1)).kernel (kernelInputs s inp (n + 1)) c)

namespace Started

variable {j : Job} {n : Nat} (hs : s.AfterReset) (hm : Master s inp) (h : Started s inp j n)

include hs hm h

/-- The counts stay as they are until the kernel is done. -/
theorem counts_kept {c : Nat} (hpending : Pending s inp n c) :
    (cycle s inp (n + 1 + c)).counts = (cycle s inp (n + 1)).counts := by
  induction c with
  | zero => rfl
  | succ c ih =>
    have hquiet := h.quiet c hpending
    rw [← Nat.add_assoc, counts_succ hs.settled hm, hquiet, if_neg Bool.false_ne_true]
    exact ih (hpending.mono (Nat.le_succ c))

/-- There is no second start. -/
theorem startStrobe_low {c : Nat} (h1 : 1 ≤ c) (hpending : Pending s inp n c) :
    (cycle s inp (n + 1 + c)).startStrobe = false := by
  obtain ⟨d, rfl⟩ := Nat.exists_eq_add_of_le' h1
  rw [← Nat.add_assoc, startStrobe_succ hs.settled hm, h.quiet d hpending, Bool.false_and]

/-- What the kernel sees is a run on the streams of the job. -/
theorem run : Run (cycle s inp (n + 1)).kernel (kernelInputs s inp (n + 1)) j.toStreams where
  start := by
    have hstrobe : (cycle s inp (n + 1)).startStrobe = true := by
      rw [startStrobe_succ hs.settled hm, h.write, h.starts, Bool.and_self]
    exact hstrobe
  rstN c _ := hm.aresetn (n + 1 + c)
  acts c hpending haccept := h.acts c hpending (by rwa [kernel_cycle])
  weights c hpending haccept := h.weights c hpending (by rwa [kernel_cycle])
  numRowblocks := h.numRowblocks
  numQ1Blocks c hpending := by
    have hkept := h.counts_kept hs hm (hpending.mono (Nat.le_succ c))
    have hsame : (cycle s inp (n + 1 + c)).numQ1BlocksQ = (cycle s inp (n + 1)).numQ1BlocksQ :=
      congrArg Counts.numQ1Blocks hkept
    exact (congrArg BitVec.toNat hsame).trans h.numQ1Blocks

/-- The kernel gets done: all beats of the job were taken, the result beats were given, and
    `done_latched` is set. -/
theorem done_latched (hfair : Fair (kernelInputs s inp (n + 1))) :
    ∃ c, 1 ≤ c ∧ (cycle s inp (n + 1 + c)).kernelDone = true ∧
      (cycle s inp (n + 1 + c + 1)).doneLatched = true ∧
      Observed (cycle s inp (n + 1)).kernel (kernelInputs s inp (n + 1)) j.toStreams c := by
  have hreach : Reachable (cycle s inp (n + 1)).kernel := kernel_reachable hs (n + 1)
  have hrests := hreach.rests
  have hrun := h.run hs hm
  obtain ⟨c, h1, hpending, hdone⟩ := hrun.finishes hrests h.idle hfair
  have hdone' : (cycle s inp (n + 1 + c)).kernelDone = true := by
    rw [Top.kernelDone, kernel_cycle]
    exact hdone
  refine ⟨c, h1, hdone', ?_, hrun.observed hrests h.idle hpending⟩
  rw [cycle_succ, Top.step_doneLatched (hm.aresetn _), hdone', h.startStrobe_low hs hm h1 hpending]
  rfl

end Started

end AxiLite

end Q1a8
