-- SUMMARY: Register accesses of the host one after the other: what they leave in the registers, and what `STATUS` and `CYCLES` then tell.
import BonsaiTpu.Kernel.Start

/-!
# Accesses to the registers

A host that waits for every response performs its accesses in their order. Between two
writes the registers stay as they are; a read of `STATUS` that comes after the response of
a start sees `done_latched` of that start, not of an earlier one.
-/

namespace Q1a8

open Handshake

namespace AxiLite

/-- A register access of the host, with the value that it wrote or got. -/
inductive RegAccess where
  | write (w : Write)
  | read (addr : BitVec 8) (value : BitVec 32)

section

variable (s : Top) (inp : Nat → TopInputs)

/-- The host writes no register in the cycles from `a` up to `b`. -/
def NoWrites (a b : Nat) : Prop := ∀ n, a ≤ n → n < b → (awChannel s inp).transfer n = false

/-- The accesses in the cycles from `a` up to `b`. Each one is offered after the response of
    the one before it. -/
inductive Performs : List RegAccess → Nat → Nat → Prop
  | nil {a b : Nat} : a ≤ b → NoWrites s inp a b → Performs [] a b
  | write {w : Write} {accesses : List RegAccess} {a c m b : Nat} : a ≤ c → NoWrites s inp a c →
      (awChannel s inp).transfer c = true → writeAt inp c = w → c < m →
      NoWrites s inp (c + 1) (m + 1) →
      (bChannel s inp).transfer m = true → Performs accesses (m + 1) b →
      Performs (.write w :: accesses) a b
  | read {addr : BitVec 8} {value : BitVec 32} {accesses : List RegAccess} {a c m b : Nat} : a ≤ c →
      NoWrites s inp a (m + 1) → (arChannel s inp).transfer (c + 1) = true →
      (inp (c + 1)).sAxiAraddr = addr → c < m →
      (∀ i, c < i → i < m → (rChannel s inp).transfer i = false) →
      (rChannel s inp).transfer m = true →
      ((rChannel s inp).payload m).1 = value → Performs accesses (m + 1) b →
      Performs (.read addr value :: accesses) a b

/-- The cycles from `a` up to `b` in which the kernel is busy. -/
def busyCycles (a b : Nat) : Nat :=
  Nat.count (fun i => (cycle s inp (a + i)).kernelBusy = true) (b - a)

end

section

variable {s : Top} {inp : Nat → TopInputs} {a b c : Nat}

theorem NoWrites.mono (h : NoWrites s inp a b) {a' b' : Nat} (ha : a ≤ a') (hb : b' ≤ b) :
    NoWrites s inp a' b' :=
  fun n hn hn' => h n (Nat.le_trans ha hn) (Nat.lt_of_lt_of_le hn' hb)

theorem NoWrites.append (h : NoWrites s inp a c) (h' : NoWrites s inp c b) :
    NoWrites s inp a b := by
  intro n hn hn'
  rcases Nat.lt_or_ge n c with hlt | hge
  · exact h n hn hlt
  · exact h' n hge hn'

theorem Performs.le {accesses : List RegAccess} (h : Performs s inp accesses a b) : a ≤ b := by
  induction h with
  | nil hle _ => exact hle
  | write hac _ _ _ hcm _ _ _ ih => omega
  | read hac _ _ _ hcm _ _ _ _ ih => omega

/-- Reads pass without a write. -/
theorem Performs.reads {reads accesses : List RegAccess}
    (h : Performs s inp (reads ++ accesses) a b)
    (hreads : ∀ access ∈ reads, ∃ addr value, access = .read addr value) :
    ∃ c, a ≤ c ∧ NoWrites s inp a c ∧ Performs s inp accesses c b := by
  induction reads generalizing a with
  | nil => exact ⟨a, Nat.le_refl a, fun n hn hn' => absurd hn' (Nat.not_lt.mpr hn), h⟩
  | cons access reads ih =>
    obtain ⟨addr, value, rfl⟩ := hreads _ List.mem_cons_self
    cases h with
    | read hac hquiet _ _ hcm _ _ _ hrest =>
      obtain ⟨c', hle, hquiet', hrest'⟩ := ih hrest fun access' h' =>
        hreads access' (List.mem_cons_of_mem _ h')
      exact ⟨c', by omega, hquiet.append hquiet', hrest'⟩

/-! ## Busy cycles -/

variable (s inp) in
theorem busyCycles_add (hac : a ≤ c) (hcb : c ≤ b) :
    busyCycles s inp a b = busyCycles s inp a c + busyCycles s inp c b := by
  obtain ⟨d, rfl⟩ := Nat.exists_eq_add_of_le hac
  obtain ⟨e, rfl⟩ := Nat.exists_eq_add_of_le hcb
  have hsplit : a + d + e - a = d + e := by omega
  rw [busyCycles, busyCycles, busyCycles, hsplit, Nat.count_add, Nat.add_sub_cancel_left,
    Nat.add_sub_cancel_left]
  simp only [Nat.add_assoc]

theorem busyCycles_idle (h : ∀ n, a ≤ n → n < b → (cycle s inp n).kernelBusy = false) :
    busyCycles s inp a b = 0 := by
  refine Nat.count_iff_forall_not.mpr fun i hi => ?_
  rw [h (a + i) (Nat.le_add_right a i) (by omega)]
  exact Bool.false_ne_true

/-! ## The kernel from a later cycle on -/

theorem kernelInputs_add (a d c : Nat) :
    kernelInputs s inp a (d + c) = kernelInputs s inp (a + d) c := by
  rw [kernelInputs, kernelInputs, Nat.add_assoc]

theorem kernel_cycle_add (a d c : Nat) :
    Q1a8.cycle (cycle s inp a).kernel (kernelInputs s inp a) (d + c) =
    Q1a8.cycle (cycle s inp (a + d)).kernel (kernelInputs s inp (a + d)) c := by
  rw [← kernel_cycle, ← kernel_cycle, Nat.add_assoc]

variable (s inp) in
/-- What does not happen in the first cycles may be counted from the cycle after them. -/
theorem count_from (a : Nat) {d : Nat} (happens : Kernel → Inputs → Bool)
    (h : ∀ i < d, happens (cycle s inp (a + i)).kernel (kernelInputs s inp a i) = false) (c : Nat) :
    Nat.count (fun i => happens (Q1a8.cycle (cycle s inp a).kernel (kernelInputs s inp a) i)
      (kernelInputs s inp a i) = true) (d + c) =
      Nat.count (fun i =>
        happens (Q1a8.cycle (cycle s inp (a + d)).kernel (kernelInputs s inp (a + d)) i)
        (kernelInputs s inp (a + d) i) = true) c := by
  have hfirst : Nat.count (fun i =>
      happens (Q1a8.cycle (cycle s inp a).kernel (kernelInputs s inp a) i)
      (kernelInputs s inp a i) = true) d = 0 := by
    refine Nat.count_iff_forall_not.mpr fun i hi => ?_
    rw [← kernel_cycle, h i hi]
    exact Bool.false_ne_true
  rw [Nat.count_add, hfirst, Nat.zero_add]
  simp only [kernel_cycle_add, kernelInputs_add]

end

/-! ## Runs one after the other -/

section

variable {s s' : Top} {inp inp' : Nat → TopInputs} {d e a b c : Nat}

/-- From cycle `d` on, and for `e` cycles, the second run is the first one. -/
structure Follows (s : Top) (inp : Nat → TopInputs) (s' : Top)
    (inp' : Nat → TopInputs) (d e : Nat) :
    Prop where
  state : cycle s' inp' d = s
  inputs : ∀ n < e, inp' (d + n) = inp n

theorem Follows.cycle_eq (h : Follows s inp s' inp' d e) {n : Nat} (hn : n ≤ e) :
    cycle s' inp' (d + n) = cycle s inp n := by
  induction n with
  | zero => exact h.state
  | succ n ih =>
    rw [← Nat.add_assoc, cycle_succ, cycle_succ, ih (Nat.le_of_succ_le hn), h.inputs n hn]

theorem Follows.writes (h : Follows s inp s' inp' d e) {n : Nat} (hn : n < e) :
    (awChannel s' inp').wires (d + n) = (awChannel s inp).wires n ∧
      (wChannel s' inp').wires (d + n) = (wChannel s inp).wires n ∧
      (bChannel s' inp').wires (d + n) = (bChannel s inp).wires n := by
  simp only [Channel.wires, awChannel, wChannel, bChannel, h.cycle_eq hn.le,
    h.inputs n hn, and_self]

theorem Follows.reads (h : Follows s inp s' inp' d e) {n : Nat} (hn : n < e) :
    (arChannel s' inp').wires (d + n) = (arChannel s inp).wires n ∧
      (rChannel s' inp').wires (d + n) = (rChannel s inp).wires n := by
  simp only [Channel.wires, arChannel, rChannel, h.cycle_eq hn.le, h.inputs n hn, and_self]

theorem NoWrites.follows (hquiet : NoWrites s inp a b)
    (h : Follows s inp s' inp' d e) (hb : b ≤ e) :
    NoWrites s' inp' (d + a) (d + b) := by
  intro n hn hn'
  obtain ⟨i, rfl⟩ := Nat.exists_eq_add_of_le (Nat.le_of_add_right_le hn)
  rw [Channel.transfer_of_wires (h.writes (by omega)).1]
  exact hquiet i (by omega) (by omega)

theorem Performs.follows {accesses : List RegAccess} (hperforms : Performs s inp accesses a b)
    (h : Follows s inp s' inp' d e) (hb : b ≤ e) : Performs s' inp' accesses (d + a) (d + b) := by
  induction hperforms with
  | nil hle hquiet => exact .nil (Nat.add_le_add_left hle d) (hquiet.follows h hb)
  | @write w _ a c m b hac hquiet htransfer hw hcm hquiet' hresponse hrest ih =>
    have hle := hrest.le
    refine .write (c := d + c) (m := d + m) (by omega) (hquiet.follows h (by omega))
      ?_ ?_ (by omega)
      (hquiet'.follows h (hle.trans hb)) ?_ (ih hb)
    · exact (Channel.transfer_of_wires (h.writes (by omega)).1).trans htransfer
    · rw [writeAt, h.inputs c (by omega)]
      exact hw
    · exact (Channel.transfer_of_wires (h.writes (by omega)).2.2).trans hresponse
  | @read addr value _ a c m b hac hquiet hread haddr hcm hfirst hresponse hvalue hrest ih =>
    have hle := hrest.le
    refine .read (c := d + c) (m := d + m) (by omega) (hquiet.follows h (by omega)) ?_ ?_ (by omega)
      ?_ ?_ ?_ (ih hb)
    · exact (Channel.transfer_of_wires (h.reads (n := c + 1) (by omega)).1).trans hread
    · rw [Nat.add_assoc, h.inputs (c + 1) (by omega)]
      exact haddr
    · intro i hi hi'
      obtain ⟨j, rfl⟩ := Nat.exists_eq_add_of_le (show d ≤ i by omega)
      rw [Channel.transfer_of_wires (h.reads (by omega)).2]
      exact hfirst j (by omega) (by omega)
    · exact (Channel.transfer_of_wires (h.reads (by omega)).2).trans hresponse
    · exact (congrArg (fun wires => wires.2.2.1) (h.reads (by omega)).2).trans hvalue

theorem Follows.kernelInputs_eq (h : Follows s inp s' inp' d e) (hc : a + c < e) :
    kernelInputs s' inp' (d + a) c = kernelInputs s inp a c := by
  rw [kernelInputs, kernelInputs, Nat.add_assoc, h.cycle_eq hc.le, h.inputs (a + c) hc]

theorem Follows.kernel_eq (h : Follows s inp s' inp' d e) (hc : a + c ≤ e) :
    Q1a8.cycle (cycle s' inp' (d + a)).kernel (kernelInputs s' inp' (d + a)) c =
      Q1a8.cycle (cycle s inp a).kernel (kernelInputs s inp a) c := by
  rw [← kernel_cycle, ← kernel_cycle, Nat.add_assoc, h.cycle_eq hc]

theorem Follows.count_eq (h : Follows s inp s' inp' d e) (happens : Kernel → Inputs → Bool)
    (hc : a + c ≤ e) :
    Nat.count (fun i =>
      happens (Q1a8.cycle (cycle s' inp' (d + a)).kernel (kernelInputs s' inp' (d + a)) i)
        (kernelInputs s' inp' (d + a) i) = true) c =
      Nat.count (fun i => happens (Q1a8.cycle (cycle s inp a).kernel (kernelInputs s inp a) i)
        (kernelInputs s inp a i) = true) c := by
  induction c with
  | zero => rfl
  | succ c ih =>
    rw [Nat.count_succ, Nat.count_succ, ih (by omega), h.kernel_eq (by omega),
      h.kernelInputs_eq (by omega)]

/-- The inputs of a run, and from cycle `d` on those of another one. -/
def followedBy (d : Nat) (inp inp' : Nat → TopInputs) (n : Nat) : TopInputs :=
  if n < d then inp n else inp' (n - d)

variable (s inp inp' d) in
theorem follows_first : Follows s inp s (followedBy d inp inp') 0 d where
  state := rfl
  inputs n hn := by rw [Nat.zero_add, followedBy, if_pos hn]

variable (s inp inp' d) in
theorem follows_second (e : Nat) : Follows (cycle s inp d) inp' s (followedBy d inp inp') d e where
  state := by
    have hcycle := (follows_first s inp inp' d).cycle_eq (Nat.le_refl d)
    rwa [Nat.zero_add] at hcycle
  inputs n _ := by rw [followedBy, if_neg (by omega), Nat.add_sub_cancel_left]

/-- A host that offers nothing. -/
structure Silent (i : TopInputs) : Prop where
  aw : i.sAxiAwvalid = false
  w : i.sAxiWvalid = false
  ar : i.sAxiArvalid = false

/-- A host that ends in silence may be followed by another one. -/
theorem Master.followed (hm : Master s inp) (hm' : Master (cycle s inp d) inp')
    (hlast : ∀ n, n + 1 = d → Silent (inp n)) :
    Master s (followedBy d inp inp') := by
  have hfirst {n : Nat} (hn : n < d) := (follows_first s inp inp' d).writes hn
  have hfirst' {n : Nat} (hn : n < d) := (follows_first s inp inp' d).reads hn
  simp only [Nat.zero_add] at hfirst hfirst'
  have hsecond (n : Nat) := follows_second s inp inp' d (n + 1)
  refine ⟨fun n => ?_, ?_, ?_, ?_⟩
  · rw [followedBy]
    split
    · exact hm.aresetn n
    · exact hm'.aresetn _
  · exact hm.aw.followed hm'.aw (fun n hn => (hfirst hn).1) (fun n =>
      ((hsecond n).writes (Nat.lt_succ_self n)).1)
      fun n hn => (hlast n hn).aw
  · exact hm.w.followed hm'.w (fun n hn => (hfirst hn).2.1) (fun n =>
      ((hsecond n).writes (Nat.lt_succ_self n)).2.1)
      fun n hn => (hlast n hn).w
  · exact hm.ar.followed hm'.ar (fun n hn => (hfirst' hn).1) (fun n =>
      ((hsecond n).reads (Nat.lt_succ_self n)).1)
      fun n hn => (hlast n hn).ar

end

/-! ## Registers along accesses -/

section

variable {s : Top} {inp : Nat → TopInputs} (hs : s.Settled) (hm : Master s inp)

include hs hm

theorem NoWrites.counts {a b : Nat} (h : NoWrites s inp a b) (hle : a ≤ b) :
    (cycle s inp b).counts = (cycle s inp a).counts := by
  obtain ⟨d, rfl⟩ := Nat.exists_eq_add_of_le hle
  induction d with
  | zero => rfl
  | succ d ih =>
    rw [← Nat.add_assoc, counts_succ hs hm, h (a + d) (Nat.le_add_right a d) (by omega),
      if_neg Bool.false_ne_true]
    exact ih (h.mono (Nat.le_refl a) (Nat.le_succ _)) (Nat.le_add_right a d)

/-- Without a write there is no start. -/
theorem NoWrites.startStrobe {a b n : Nat} (h : NoWrites s inp a b) (han : a < n) (hnb : n ≤ b) :
    (cycle s inp n).startStrobe = false := by
  obtain ⟨i, rfl⟩ := Nat.exists_eq_add_of_lt han
  rw [startStrobe_succ hs hm, h (a + i) (Nat.le_add_right a i) (by omega), Bool.false_and]

/-- What the host gets is the value of the register in the cycle in which the read was accepted. -/
theorem read_value {n m : Nat} (hread : (arChannel s inp).transfer (n + 1) = true) (hlt : n < m)
    (hfirst : ∀ i, n < i → i < m → (rChannel s inp).transfer i = false) :
    ((rChannel s inp).payload m).1 = readAt s inp n := by
  have hanswers := (readsOnce hs hm).answered
  have hwait : ∀ i, n < i → i < m → (rChannel s inp).ready i = false := by
    intro i hni him
    induction i using Nat.strong_induction_on with
    | _ i ih =>
      obtain ⟨hvalid, -⟩ := hanswers.waits hread hni fun j hnj hji =>
        ih j hji hnj (Nat.lt_trans hji him)
      have hnone := hfirst i hni him
      rw [Channel.transfer, hvalid, Bool.true_and] at hnone
      exact hnone
  rw [(hanswers.waits hread hlt hwait).2]

/-- A write, and where it leaves the registers. -/
theorem Performs.write_cases {w : Write} {accesses : List RegAccess} {a b : Nat}
    (h : Performs s inp (.write w :: accesses) a b) :
    ∃ c m, a ≤ c ∧ c + 2 ≤ m ∧ NoWrites s inp a c ∧ NoWrites s inp (c + 1) m ∧
      Performs s inp accesses m b ∧
      (cycle s inp (c + 1)).counts = w.apply (cycle s inp a).counts ∧
      (cycle s inp (c + 1)).startStrobe = w.starts := by
  cases h with
  | @write _ _ _ c m _ hac hquiet htransfer hw hcm hquiet' _ hrest =>
    refine ⟨c, m + 1, hac, by omega, hquiet, hquiet', hrest, ?_, ?_⟩
    · rw [counts_succ hs hm, if_pos htransfer, hw, hquiet.counts hs hm hac]
    · rw [startStrobe_succ hs hm, htransfer, hw, Bool.true_and]

/-- A write that does not start the kernel. -/
theorem Performs.write_silent {w : Write} {accesses : List RegAccess} {a b : Nat}
    (h : Performs s inp (.write w :: accesses) a b)
    (hw : w.starts = false) (hlow : (cycle s inp a).startStrobe = false) :
    ∃ m, a ≤ m ∧ Performs s inp accesses m b ∧
      (cycle s inp m).counts = w.apply (cycle s inp a).counts ∧
      ∀ i, a ≤ i → i ≤ m → (cycle s inp i).startStrobe = false := by
  obtain ⟨c, m, hac, hcm, hbefore, hafter, hrest, hcounts, hstrobe⟩ := h.write_cases hs hm
  refine ⟨m, by omega, hrest, (hafter.counts hs hm (by omega)).trans hcounts, fun i hai him => ?_⟩
  rcases Nat.lt_trichotomy i (c + 1) with hlt | rfl | hgt
  · rcases Nat.eq_or_lt_of_le hai with rfl | hlt'
    · exact hlow
    · exact hbefore.startStrobe hs hm hlt' (Nat.lt_succ_iff.mp hlt)
  · rw [hstrobe, hw]
  · exact hafter.startStrobe hs hm hgt him

/-- A write that starts the kernel. -/
theorem Performs.write_start {w : Write} {accesses : List RegAccess} {a b : Nat}
    (h : Performs s inp (.write w :: accesses) a b)
    (hw : w.starts = true) (hlow : (cycle s inp a).startStrobe = false) :
    ∃ n m, a < n ∧ n < m ∧ Performs s inp accesses m b ∧
      (cycle s inp n).counts = w.apply (cycle s inp a).counts ∧
      (cycle s inp n).startStrobe = true ∧
      (∀ i, a ≤ i → i < n → (cycle s inp i).startStrobe = false) ∧ NoWrites s inp n m := by
  obtain ⟨c, m, hac, hcm, hbefore, hafter, hrest, hcounts, hstrobe⟩ := h.write_cases hs hm
  refine ⟨c + 1, m, by omega, by omega, hrest, hcounts, hstrobe.trans hw,
    fun i hai hic => ?_, hafter⟩
  rcases Nat.eq_or_lt_of_le hai with rfl | hlt
  · exact hlow
  · exact hbefore.startStrobe hs hm hlt (Nat.lt_succ_iff.mp hic)

/-- A read, and the cycle in which it was accepted. -/
theorem Performs.read_cases {addr : BitVec 8} {value : BitVec 32}
    {accesses : List RegAccess} {a b : Nat}
    (h : Performs s inp (.read addr value :: accesses) a b) :
    ∃ c m, a ≤ c ∧ c < m ∧ NoWrites s inp a m ∧ Performs s inp accesses m b ∧
      value = (cycle s inp c).register (addr.extractLsb' 0 6) := by
  cases h with
  | @read _ _ _ _ c m _ hac hquiet hread haddr hcm hfirst _ hvalue hrest =>
    refine ⟨c, m + 1, hac, by omega, hquiet, hrest, ?_⟩
    rw [← hvalue, read_value hs hm hread hcm hfirst, readAt, haddr]

/-! ## Starts -/

omit hs in
/-- A set `done_latched` is of the last start. -/
theorem done_since (hs : s.AfterReset) {n c : Nat} (hstart : (cycle s inp n).startStrobe = true)
    (hlt : n < c) (hdone : (cycle s inp c).doneLatched = true) :
    ∃ d, 1 ≤ d ∧ n + d < c ∧ (cycle s inp (n + d)).kernelDone = true := by
  obtain ⟨i, hi, hkernel, hclear⟩ := (doneLatched_iff hs hm c).mp hdone
  have hafter : n < i := by
    by_contra hle
    have hlow := hclear n (Nat.not_lt.mp hle) hlt
    rw [hstart] at hlow
    cases hlow
  obtain ⟨d, rfl⟩ := Nat.exists_eq_add_of_lt hafter
  exact ⟨d + 1, Nat.le_add_left 1 d, hi, hkernel⟩

omit hs in
theorem cycleCountQ_succ (n : Nat) : (cycle s inp (n + 1)).cycleCountQ =
    if (cycle s inp n).startStrobe then 0#32
    else if (cycle s inp n).kernelBusy then (cycle s inp n).cycleCountQ + 1#32
    else (cycle s inp n).cycleCountQ := by
  have hcount : (cycle s inp (n + 1)).cycleCountQ = (cycle s inp n).cycleCountStep (inp n) := rfl
  rw [hcount, Top.cycleCountStep, hm.aresetn n, Bool.not_true, if_neg Bool.false_ne_true]

omit hs in
/-- `CYCLES` counts the busy cycles since the last start. -/
theorem cycleCountQ_eq {n b : Nat} (hstart : (cycle s inp n).startStrobe = true) (hlt : n < b)
    (hclear : ∀ i, n < i → i < b → (cycle s inp i).startStrobe = false) :
    (cycle s inp b).cycleCountQ = BitVec.ofNat 32 (busyCycles s inp (n + 1) b) := by
  obtain ⟨d, rfl⟩ := Nat.exists_eq_add_of_lt hlt
  induction d with
  | zero =>
    rw [cycleCountQ_succ hm, if_pos hstart, busyCycles_idle fun i hi hi' =>
      absurd hi' (Nat.not_lt.mpr hi)]
  | succ d ih =>
    have hcount := ih (Nat.lt_succ_of_le (Nat.le_add_right n d)) fun i hi hi' =>
      hclear i hi (by omega)
    have hsplit : n + (d + 1) + 1 - (n + 1) = n + d + 1 - (n + 1) + 1 := by omega
    have hlast : n + 1 + (n + d + 1 - (n + 1)) = n + (d + 1) := by omega
    rw [cycleCountQ_succ hm, hclear _ (by omega) (Nat.lt_succ_self _), if_neg Bool.false_ne_true,
      ← Nat.add_assoc, hcount, busyCycles, busyCycles, Nat.add_assoc n d 1, hsplit,
      count_succ_bool, hlast]
    split
    · rw [BitVec.ofNat_add]
      rfl
    · rw [Nat.add_zero]
      rfl

end

/-! ## Performing accesses -/

/-- No write is under way. -/
structure WriteIdle (t : Top) : Prop where
  awreadyQ : t.awreadyQ = false
  wreadyQ : t.wreadyQ = false
  bvalidQ : t.bvalidQ = false

/-- No read is under way. -/
structure ReadIdle (t : Top) : Prop where
  arreadyQ : t.arreadyQ = false
  rvalidQ : t.rvalidQ = false

section

variable {s : Top} {inp : Nat → TopInputs} {accesses : List RegAccess} {a b : Nat}

/-- Accesses may be begun earlier. -/
theorem Performs.later {c : Nat} (h : Performs s inp accesses c b) (hac : a ≤ c)
    (hquiet : NoWrites s inp a c) :
    Performs s inp accesses a b := by
  cases h with
  | nil hcb hquiet' => exact .nil (Nat.le_trans hac hcb) (hquiet.append hquiet')
  | write hle hquiet' htransfer hw hlt hafter hresponse hrest =>
    exact .write (Nat.le_trans hac hle) (hquiet.append hquiet') htransfer hw hlt
      hafter hresponse hrest
  | read hle hquiet' hread haddr hlt hfirst hresponse hvalue hrest =>
    exact .read (Nat.le_trans hac hle) (hquiet.append hquiet') hread haddr hlt hfirst
      hresponse hvalue hrest

variable (hrst : ∀ n, (inp n).sAxiAresetn = true)

include hrst

/-- The cycles of a write whose address and data come together. -/
theorem write_taken_at (hidle : WriteIdle (cycle s inp a)) (haw : (inp a).sAxiAwvalid = true)
    (hw : (inp a).sAxiWvalid = true) :
    (cycle s inp (a + 1)).awreadyQ = true ∧ (cycle s inp (a + 1)).wreadyQ = true ∧
      (cycle s inp (a + 2)).awreadyQ = false ∧
      (cycle s inp (a + 2)).bvalidQ = true ∧
      ((inp (a + 2)).sAxiBready = true → WriteIdle (cycle s inp (a + 3))) := by
  obtain ⟨hawready, hwready, hbvalid⟩ := hidle
  have haccept : (cycle s inp a).writeAccept (inp a) = true := by
    rw [Top.writeAccept, hawready, hwready, hbvalid, haw, hw]
    rfl
  have hawready1 : (cycle s inp (a + 1)).awreadyQ = true :=
    (Top.step_awreadyQ (hrst a)).trans haccept
  have hwready1 : (cycle s inp (a + 1)).wreadyQ = true := (Top.step_wreadyQ (hrst a)).trans haccept
  have haccept1 : (cycle s inp (a + 1)).writeAccept (inp (a + 1)) = false := by
    rw [Top.writeAccept, hawready1]
    rfl
  have hawready2 : (cycle s inp (a + 2)).awreadyQ = false :=
    (Top.step_awreadyQ (hrst (a + 1))).trans haccept1
  have hwready2 : (cycle s inp (a + 2)).wreadyQ = false :=
    (Top.step_wreadyQ (hrst (a + 1))).trans haccept1
  have hbvalid2 : (cycle s inp (a + 2)).bvalidQ = true := by
    rw [cycle_succ, Top.step_bvalidQ (hrst (a + 1)), Top.writeCommit, hawready1, hwready1]
    rfl
  have haccept2 : (cycle s inp (a + 2)).writeAccept (inp (a + 2)) = false := by
    rw [Top.writeAccept, hbvalid2, Bool.not_true, Bool.and_false]
  refine ⟨hawready1, hwready1, hawready2, hbvalid2, fun hbready => ⟨?_, ?_, ?_⟩⟩
  · exact (Top.step_awreadyQ (hrst (a + 2))).trans haccept2
  · exact (Top.step_wreadyQ (hrst (a + 2))).trans haccept2
  · rw [cycle_succ, Top.step_bvalidQ (hrst (a + 2)), Top.writeCommit, hawready2, hbready,
      Bool.false_and, Bool.false_or, Bool.not_true, Bool.and_false]

/-- A write in three cycles. -/
theorem Performs.of_write {w : Write} (hidle : WriteIdle (cycle s inp a))
    (haw : (inp a).sAxiAwvalid = true) (hw : (inp a).sAxiWvalid = true)
    (haw' : (inp (a + 1)).sAxiAwvalid = true) (hwrite : writeAt inp (a + 1) = w)
    (hbready : (inp (a + 2)).sAxiBready = true)
    (hrest : Performs s inp accesses (a + 3) b) : Performs s inp (.write w :: accesses) a b := by
  obtain ⟨hawready1, -, hawready2, hbvalid2, -⟩ := write_taken_at hrst hidle haw hw
  refine .write (c := a + 1) (m := a + 2) (Nat.le_succ a) (fun n hn hn' => ?_) ?_ hwrite
    (Nat.lt_succ_self _) (fun n hn hn' => ?_) ?_ hrest
  · obtain rfl : n = a := by omega
    have hready : (awChannel s inp).ready n = false := hidle.awreadyQ
    rw [Channel.transfer, hready, Bool.and_false]
  · exact Bool.and_eq_true_iff.mpr ⟨haw', hawready1⟩
  · obtain rfl : n = a + 2 := by omega
    have hready : (awChannel s inp).ready (a + 2) = false := hawready2
    rw [Channel.transfer, hready, Bool.and_false]
  · exact Bool.and_eq_true_iff.mpr ⟨hbvalid2, hbready⟩

/-- The cycles of a read whose response is taken at once. -/
theorem read_taken_at (hidle : ReadIdle (cycle s inp a)) (har : (inp a).sAxiArvalid = true) :
    (cycle s inp (a + 1)).arreadyQ = true ∧ (cycle s inp (a + 1)).rvalidQ = true ∧
      ((inp (a + 1)).sAxiRready = true → ReadIdle (cycle s inp (a + 2))) := by
  obtain ⟨harready, hrvalid⟩ := hidle
  have haccept : (cycle s inp a).readAccept (inp a) = true := by
    rw [Top.readAccept, harready, hrvalid, har]
    rfl
  have harready1 : (cycle s inp (a + 1)).arreadyQ = true :=
    (Top.step_arreadyQ (hrst a)).trans haccept
  have hrvalid1 : (cycle s inp (a + 1)).rvalidQ = true := by
    rw [cycle_succ, Top.step_rvalidQ (hrst a), haccept, Bool.true_or]
  have haccept1 : (cycle s inp (a + 1)).readAccept (inp (a + 1)) = false := by
    rw [Top.readAccept, harready1]
    rfl
  refine ⟨harready1, hrvalid1, fun hrready =>
    ⟨(Top.step_arreadyQ (hrst (a + 1))).trans haccept1, ?_⟩⟩
  rw [cycle_succ, Top.step_rvalidQ (hrst (a + 1)), haccept1, hrready, Bool.false_or,
    Bool.not_true, Bool.and_false]

/-- A read in two cycles. -/
theorem Performs.of_read {addr : BitVec 8} {value : BitVec 32} (hidle : ReadIdle (cycle s inp a))
    (har : (inp a).sAxiArvalid = true)
    (har' : (inp (a + 1)).sAxiArvalid = true) (haddr : (inp (a + 1)).sAxiAraddr = addr)
    (hrready : (inp (a + 1)).sAxiRready = true)
    (hvalue : ((rChannel s inp).payload (a + 1)).1 = value) (hquiet : NoWrites s inp a (a + 2))
    (hrest : Performs s inp accesses (a + 2) b) :
    Performs s inp (.read addr value :: accesses) a b := by
  obtain ⟨harready1, hrvalid1, -⟩ := read_taken_at hrst hidle har
  refine .read (c := a) (m := a + 1) (Nat.le_refl a) hquiet ?_ haddr (Nat.lt_succ_self a)
    (fun i hi hi' => ?_) ?_ hvalue hrest
  · exact Bool.and_eq_true_iff.mpr ⟨har', harready1⟩
  · omega
  · exact Bool.and_eq_true_iff.mpr ⟨hrvalid1, hrready⟩

/-- Without a request no write begins. -/
theorem writeIdle_kept (hidle : WriteIdle (cycle s inp a)) (haw : (inp a).sAxiAwvalid = false) :
    WriteIdle (cycle s inp (a + 1)) := by
  have haccept : (cycle s inp a).writeAccept (inp a) = false := by
    rw [Top.writeAccept, haw, Bool.and_false, Bool.false_and, Bool.false_and]
  refine ⟨(Top.step_awreadyQ (hrst a)).trans haccept, (Top.step_wreadyQ (hrst a)).trans haccept, ?_⟩
  rw [cycle_succ, Top.step_bvalidQ (hrst a), Top.writeCommit, hidle.awreadyQ, hidle.bvalidQ]
  rfl

/-- Without a request no read begins. -/
theorem readIdle_kept (hidle : ReadIdle (cycle s inp a)) (har : (inp a).sAxiArvalid = false) :
    ReadIdle (cycle s inp (a + 1)) := by
  have haccept : (cycle s inp a).readAccept (inp a) = false := by
    rw [Top.readAccept, har, Bool.and_false, Bool.false_and]
  refine ⟨(Top.step_arreadyQ (hrst a)).trans haccept, ?_⟩
  rw [cycle_succ, Top.step_rvalidQ (hrst a), haccept, hidle.rvalidQ]
  rfl

end

end AxiLite

end Q1a8
