-- SUMMARY: The calls of the chunk runner on the registers of the kernel: what a call that returns has done to the memory, and its cycle count.
import BonsaiTpu.Board.Events
import BonsaiTpu.Board.Fpga
import BonsaiTpu.Kernel.Accesses

/-!
# Calls of the runner

The accesses of a call to the kernel go over AXI-Lite, with any timing; those to the DMA
engines set what these transfer. A call that returns 0 has seen `done_latched` of its own
start, so its chunk has gone through the kernel, however often the kernel was started before.
-/

namespace Board.Runner

open Q1a8.AxiLite (RegAccess Performs NoWrites busyCycles cycle kernelInputs Master)
open Board.Matmul (Sends Dwells Moves Proper chunkMemory Platform Driver Buffers Chunk Fpga Does)

/-! ## Calls -/

/-- A call of the runner, with the memory before and after it and the cycles of the kernel that it
    takes. -/
structure Call where
  words : Words
  cycles : BitVec 32
  events : List Event
  dram : Nat → Byte
  dram' : Nat → Byte
  first : Nat
  last : Nat

/-- The start and the wait have returned 0, whatever was done between them. -/
def Call.Returns (call : Call) : Prop :=
  ∃ (δ : Type) (dev : Device δ) (ptrs : Pointers) (pollLimit : BitVec 32) (st st' : δ),
    let started := startMatmulChunk dev.noted ptrs call.words ⟨(st, []), []⟩
    let waited := waitMatmulChunk dev.noted ptrs pollLimit ⟨(st', started.2.state.2), started.2.log⟩
    started.1 = 0 ∧ waited.1 = (0, some call.cycles) ∧ call.events = waited.2.state.2

/-- The accesses of a call that returns: to the engines, the writes of the chunk, and reads. -/
theorem Call.Returns.events {call : Call} (h : call.Returns) :
    ∃ ups waits polls, Beside ups ∧ (Beside waits ∧ Reads waits) ∧
    SeenIdle .dmaW DMA_S2MM_DMASR waits ∧ SeenDone call.cycles polls ∧
      call.events = ups ++ (chunkWrites call.words).map .write ++ (waits ++ polls) := by
  obtain ⟨δ, dev, ptrs, pollLimit, st, st', hstarted, hwaited, hevents⟩ := h
  obtain ⟨events, hstart, hups⟩ := notes_startMatmulChunk dev ptrs call.words ⟨(st, []), []⟩
  obtain ⟨ups, hbeside, rfl⟩ := hups hstarted
  obtain ⟨events', hwait, hpolls⟩ := notes_waitMatmulChunk dev ptrs pollLimit
    ⟨(st', (startMatmulChunk dev.noted ptrs call.words ⟨(st, []), []⟩).2.state.2), _⟩
  obtain ⟨waits, polls, hwaits, hidle, hdone, rfl⟩ := hpolls _ hwaited
  refine ⟨ups, waits, polls, hbeside, hwaits, hidle, hdone, ?_⟩
  rw [hevents, hwait, hstart, List.nil_append]

/-- A call sets the transfers of its chunk. -/
theorem Call.Returns.programmed {call : Call} (h : call.Returns) :
    Programmed call.events call.words := by
  obtain ⟨ups, waits, polls, -, hwaits, -, hdone, hevents⟩ := h.events
  have hlast {regs : Regs} {off : Nat} {value : BitVec 32}
      (hwrite : lastWrite regs off ((chunkWrites call.words).map .write) = some value) :
      lastWrite regs off call.events = some value := by
    rw [hevents, lastWrite_reads (hwaits.2.append hdone.reads)]
    exact lastWrite_writes hwrite
  exact ⟨hlast rfl, hlast rfl, hlast rfl, hlast rfl, hlast rfl, hlast rfl⟩

theorem Call.Returns.drained {call : Call} (h : call.Returns) : Drained call.events := by
  obtain ⟨ups, waits, polls, -, hwaits, ⟨sr, hmem, hok⟩, hdone, hevents⟩ := h.events
  refine ⟨ups ++ ((chunkWrites call.words).take 3).map .write, call.words.resultNbytes,
    ((chunkWrites call.words).drop 4).map .write ++ (waits ++ polls), ?_, fun nbytes' hin =>
      ?_, sr, ?_, hok⟩
  · rw [hevents, List.append_assoc, List.append_assoc]
    rfl
  · rcases List.mem_append.mp hin with hwrite | hread
    · simp [chunkWrites, DMA_MM2S_SA, DMA_MM2S_LENGTH, DMA_S2MM_LENGTH] at hwrite
    · obtain ⟨_, _, _, heq⟩ := hwaits.2.append hdone.reads _ hread
      cases heq
  · exact List.mem_append_right _ (List.mem_append_left _ hmem)

/-! ## The accesses to the kernel -/

/-- A word access over AXI-Lite. -/
def Event.onKernel : Event → Option RegAccess
  | .read .kernel off value => some (.read (BitVec.ofNat 8 (4 * off)) value)
  | .write ⟨.kernel, off, value⟩ => some (.write ⟨BitVec.ofNat 8 (4 * off), value, 0b1111#4⟩)
  | _ => none

theorem Beside.onKernel {events : List Event} (h : Beside events) :
    events.filterMap Event.onKernel = [] := by
  refine List.filterMap_eq_nil_iff.mpr fun event hevent => ?_
  have hne := h event hevent
  cases event with
  | read regs off value =>
    cases regs with
    | kernel => exact absurd rfl hne
    | _ => rfl
  | write w =>
    obtain ⟨regs, off, value⟩ := w
    cases regs with
    | kernel => exact absurd rfl hne
    | _ => rfl

/-- The write of a word to a register of the kernel. -/
def kernelWrite (off : Nat) (value : BitVec 32) : Q1a8.Write :=
  ⟨BitVec.ofNat 8 (4 * off), value, 0b1111#4⟩

/-- What a call does at the kernel: the counts, the start, and polls up to a set `KSTAT_DONE`. -/
theorem Call.Returns.onKernel {call : Call} (h : call.Returns) :
    ∃ polls status, (∀ access ∈ polls, ∃ addr value, access = RegAccess.read addr value) ∧
      status &&& KSTAT_DONE ≠ 0 ∧
      call.events.filterMap Event.onKernel =
        .write (kernelWrite KREG_NUM_Q1_BLOCKS call.words.numQ1Blocks) ::
          .write (kernelWrite KREG_NUM_ROWBLOCKS call.words.numRowblocks) ::
          .write (kernelWrite KREG_CTRL KCTRL_START) ::
            (polls ++ [.read 0x0C#8 status, .read 0x18#8 call.cycles]) := by
  obtain ⟨ups, waits, polls, hups, hwaits, -, ⟨reads, status, hreads, hdone, rfl⟩, hevents⟩ :=
    h.events
  refine ⟨reads.filterMap Event.onKernel, status, fun access haccess => ?_, hdone, ?_⟩
  · obtain ⟨event, hevent, haccess⟩ := List.mem_filterMap.mp haccess
    obtain ⟨value, rfl⟩ := hreads event hevent
    exact ⟨_, _, (Option.some.inj haccess).symm⟩
  · rw [hevents, List.filterMap_append, List.filterMap_append, List.filterMap_append,
      List.filterMap_append, hups.onKernel, hwaits.1.onKernel, List.nil_append, List.nil_append]
    rfl

/-! ## The kernel during a call -/

section

variable (s : Q1a8.Top) (inp : Nat → Q1a8.TopInputs)

/-- The DMA engines in the cycles from `a` up to `b`: they send the beats of their sources in
    order, and what the kernel gives is in the memory when the result channel was seen idle. -/
structure Engines (w : Words) (events : List Event) (dram dram' : Nat → Byte)
    (a b : Nat) : Prop where
  acts : ∀ c, a + c < b →
    (Q1a8.cycle (cycle s inp a).kernel (kernelInputs s inp a) c).actsBeatAccept
      (kernelInputs s inp a c) = true →
      Sends w dram w.actsPhysAddr w.actsNbytes
        (Q1a8.actsAccepted (cycle s inp a).kernel (kernelInputs s inp a) c)
        (kernelInputs s inp a c).sAxisActsTdata
  weights : ∀ c, a + c < b →
    (Q1a8.cycle (cycle s inp a).kernel (kernelInputs s inp a) c).weightsBeatAccept
      (kernelInputs s inp a c) = true →
      Sends w dram w.weightsPhysAddr w.weightsNbytes
        (Q1a8.weightsAccepted (cycle s inp a).kernel (kernelInputs s inp a) c)
        (kernelInputs s inp a c).sAxisTdata
  stored : Drained events → ∀ c, a + c < b →
    (Q1a8.cycle (cycle s inp a).kernel (kernelInputs s inp a) c).mAxisTvalid = true →
    (kernelInputs s inp a c).mAxisTready = true →
      ∀ i < 8, 8 * Q1a8.emitted (cycle s inp a).kernel (kernelInputs s inp a) c + i <
        w.resultNbytes.toNat →
        dram' (w.resultPhysAddr.toNat +
          (8 * Q1a8.emitted (cycle s inp a).kernel (kernelInputs s inp a) c + i)) =
          (Q1a8.cycle (cycle s inp a).kernel (kernelInputs s inp a) c).mAxisTdata.extractLsb'
            (8 * i) 8
  kept : ∀ x, ¬(w.resultPhysAddr.toNat ≤ x ∧ x < w.resultPhysAddr.toNat + w.resultNbytes.toNat) →
    dram' x = dram x

/-- A call that returns, its accesses on the bus, and the engines as it sets them. -/
structure Call.Served (call : Call) : Prop where
  returns : call.Returns
  performs : Performs s inp (call.events.filterMap Event.onKernel) call.first call.last
  engines : Programmed call.events call.words →
    Engines s inp call.words call.events call.dram call.dram' call.first call.last

/-- On a board with the memory and the kernel that a call begins with, the start and the wait of its
    chunk end with those that the call leaves. -/
def Call.OnBoard (call : Call) : Prop :=
  ∀ {σ : Type} (pf : Platform) (d : Driver) (a : Allocator σ) (b : Buffers) (c : Chunk) (st : Fpga),
    c.words = call.words → st.dram = call.dram → st.kernel = (cycle s inp call.first).kernel →
      ∃ st1 st2, Does pf d a b (.start c) st st1 ∧ Does pf d a b .wait st1 st2 ∧
        st2.dram = call.dram' ∧ Dwells st2.kernel (cycle s inp call.last).kernel

/-- Calls one after the other, with no other writes to the kernel. -/
inductive Calls : List Call → Nat → Nat → Prop
  | nil {a b : Nat} : a ≤ b → NoWrites s inp a b → Calls [] a b
  | cons {call : Call} {calls : List Call} {a b : Nat} :
      a ≤ call.first → NoWrites s inp a call.first → call.Served s inp →
      Calls calls call.last b → Calls (call :: calls) a b

end

/-! ### Register writes -/

/-- A write of all bytes of a count. -/
theorem update_word (addr : BitVec 8) (value : BitVec 32) (count : BitVec 16) :
    (⟨addr, value, 0b1111#4⟩ : Q1a8.Write).update count = value.setWidth 16 := by
  rw [← Q1a8.Write.extract_bytes (value.setWidth 16)]
  have hbyte (b : Nat) (hb : b < 2) : (⟨addr, value, 0b1111#4⟩ : Q1a8.Write).byte count b =
      (value.setWidth 16).extractLsb' (8 * b) 8 := by
    have hstrb : (0b1111#4).getLsbD b = true := by
      rcases Nat.lt_succ_iff_lt_or_eq.mp hb with hlt | rfl
      · obtain rfl := Nat.lt_one_iff.mp hlt
        rfl
      · rfl
    rw [Q1a8.Write.byte, if_pos hstrb]
    apply BitVec.eq_of_getLsbD_eq
    intro i hi
    rw [BitVec.getLsbD_extractLsb', BitVec.getLsbD_extractLsb', BitVec.getLsbD_setWidth,
      decide_eq_true (show 8 * b + i < 16 by omega), Bool.true_and]
  rw [Q1a8.Write.update, hbyte 1 (by decide), hbyte 0 (by decide)]

theorem kernelWrite_numQ1Blocks (value : BitVec 32) (counts : Q1a8.Counts) :
    (kernelWrite KREG_NUM_Q1_BLOCKS value).apply counts =
      { counts with numQ1Blocks := value.setWidth 16 } := by
  have hoffset : (kernelWrite KREG_NUM_Q1_BLOCKS value).offset = 0x10#6 := rfl
  rw [Q1a8.Write.apply, if_pos hoffset, kernelWrite, update_word]

theorem kernelWrite_numRowblocks (value : BitVec 32) (counts : Q1a8.Counts) :
    (kernelWrite KREG_NUM_ROWBLOCKS value).apply counts =
      { counts with numRowblocks := value.setWidth 16 } := by
  have hoffset : (kernelWrite KREG_NUM_ROWBLOCKS value).offset = 0x14#6 := rfl
  rw [Q1a8.Write.apply, if_neg (by rw [hoffset]; decide), if_pos hoffset, kernelWrite, update_word]

theorem kernelWrite_ctrl (value : BitVec 32) (counts : Q1a8.Counts) :
    (kernelWrite KREG_CTRL value).apply counts = counts := by
  have hoffset : (kernelWrite KREG_CTRL value).offset = 0x08#6 := rfl
  exact Q1a8.Write.apply_of_ne _ (by rw [hoffset]; decide) (by rw [hoffset]; decide)

/-! ### The outcome of a call -/

section

variable {s : Q1a8.Top} {inp : Nat → Q1a8.TopInputs} (hs : s.AfterReset) (hm : Master s inp)

include hm in
/-- Without a start the kernel dwells. -/
theorem dwells {a b : Nat} (hle : a ≤ b)
    (hlow : ∀ i, a ≤ i → i < b → (cycle s inp i).startStrobe = false) :
    Dwells (cycle s inp a).kernel (cycle s inp b).kernel := by
  obtain ⟨d, rfl⟩ := Nat.exists_eq_add_of_le hle
  induction d with
  | zero => exact .refl
  | succ d ih =>
    refine .step ((cycle s inp (a + d)).kernelIn (inp (a + d)))
      (ih (Nat.le_add_right a d) fun i hai hid => hlow i hai (by omega)) ?_
      (hm.aresetn (a + d))
    exact hlow (a + d) (Nat.le_add_right a d) (by omega)

include hs hm

/-- The start of a call, and what its reads of the status and of the cycles have seen. -/
theorem Call.Served.started {call : Call} (h : call.Served s inp)
    (hlow : (cycle s inp call.first).startStrobe = false) :
    ∃ n c r, call.first < n ∧ n < c ∧ c < r ∧ r < call.last ∧
      (cycle s inp n).startStrobe = true ∧
      (∀ i, call.first ≤ i → i < n → (cycle s inp i).startStrobe = false) ∧
      NoWrites s inp n call.last ∧
      (cycle s inp n).counts = ⟨call.words.numQ1Blocks.setWidth 16,
        call.words.numRowblocks.setWidth 16⟩ ∧
      (cycle s inp c).doneLatched = true ∧ call.cycles = (cycle s inp r).cycleCountQ := by
  obtain ⟨polls, status, hpolls, hdone, haccesses⟩ := h.returns.onKernel
  have hperforms := h.performs
  rw [haccesses] at hperforms
  obtain ⟨m1, hle1, hperforms, hcounts1, hlow1⟩ := hperforms.write_silent hs.settled hm rfl hlow
  obtain ⟨m2, hle2, hperforms, hcounts2, hlow2⟩ :=
    hperforms.write_silent hs.settled hm rfl (hlow1 m1 hle1 (Nat.le_refl _))
  obtain ⟨n, m3, hlt3, hlt3', hperforms, hcounts3, hstrobe, hlow3, hquiet3⟩ :=
    hperforms.write_start hs.settled hm rfl (hlow2 m2 hle2 (Nat.le_refl _))
  obtain ⟨m4, hle4, hquiet4, hperforms⟩ := hperforms.reads hpolls
  obtain ⟨c, m5, hle5, hlt5, hquiet5, hperforms, hstatus⟩ := hperforms.read_cases hs.settled hm
  obtain ⟨r, m6, hle6, hlt6, hquiet6, hperforms, hcycles⟩ := hperforms.read_cases hs.settled hm
  have hlast := hperforms.le
  have hquiet : NoWrites s inp m6 call.last := by
    cases hperforms with
    | nil _ hquiet => exact hquiet
  refine ⟨n, c, r, by omega, by omega, by omega, by omega, hstrobe, fun i hi hin => ?_,
    hquiet3.append (hquiet4.append (hquiet5.append (hquiet6.append hquiet))), ?_, ?_, hcycles⟩
  · rcases Nat.lt_or_ge i m1 with hlt | hge
    · exact hlow1 i hi (Nat.le_of_lt hlt)
    · rcases Nat.lt_or_ge i m2 with hlt' | hge'
      · exact hlow2 i hge (Nat.le_of_lt hlt')
      · exact hlow3 i hge' hin
  · rw [hcounts3, hcounts2, hcounts1, kernelWrite_ctrl, kernelWrite_numRowblocks,
      kernelWrite_numQ1Blocks]
  · by_contra hnot
    have hclear : (cycle s inp c).doneLatched = false := Bool.eq_false_iff.mpr hnot
    refine hdone ?_
    have hregister : status = 0#30 ++ BitVec.ofBool (cycle s inp c).doneLatched ++
        BitVec.ofBool (cycle s inp c).kernelBusy := hstatus
    rw [hregister, hclear]
    cases (cycle s inp c).kernelBusy <;> rfl

/-- The run of a call, from its start up to the cycle in which the kernel is done, has moved its
    chunk. -/
theorem Call.Served.moves {call : Call} (h : call.Served s inp) {d m : Nat}
    (hwait : ∀ i ≤ d, (cycle s inp (call.first + i)).kernel.busyQ = false)
    (hstrobe : (cycle s inp (call.first + d)).startStrobe = true)
    (hquiet : NoWrites s inp (call.first + d) call.last)
    (hcounts : (cycle s inp (call.first + d)).counts =
      ⟨call.words.numQ1Blocks.setWidth 16, call.words.numRowblocks.setWidth 16⟩)
    (hpos : 1 ≤ m) (hlast : call.first + d + m < call.last)
    (hdone : (cycle s inp (call.first + d + m)).kernelDone = true)
    (hmin : ∀ i, 1 ≤ i → i < m → (cycle s inp (call.first + d + i)).kernelDone = false) :
    Moves call.words call.dram call.dram' (cycle s inp (call.first + d)).kernel
      (kernelInputs s inp (call.first + d)) m := by
  have hengines := h.engines h.returns.programmed
  have hready {i : Nat} (hi : i < d) (flag : Bool) :
      ((cycle s inp (call.first + i)).kernel.busyQ && flag) = false := by
    rw [hwait i (Nat.le_of_lt hi), Bool.false_and]
  -- before the start the kernel is idle: it takes and gives no beat, so counts begin at the start
  have hacts :=
    Q1a8.AxiLite.count_from s inp call.first Q1a8.Kernel.actsBeatAccept fun i (hi : i < d) => by
    rw [Q1a8.Kernel.actsBeatAccept, Q1a8.Kernel.sAxisActsTready, hready hi, Bool.and_false]
  have hweights :=
    Q1a8.AxiLite.count_from s inp call.first Q1a8.Kernel.weightsBeatAccept fun i (hi : i < d) => by
    rw [Q1a8.Kernel.weightsBeatAccept, Q1a8.Kernel.sAxisTready, hready hi, Bool.and_false]
  have hemitted := Q1a8.AxiLite.count_from s inp call.first (fun k i =>
    k.mAxisTvalid && i.mAxisTready)
    fun i (hi : i < d) => by
      rw [Q1a8.Kernel.mAxisTvalid,
        (Q1a8.AxiLite.kernel_reachable hs _).rests (hwait i (Nat.le_of_lt hi))]
      rfl
  exact
    { start := hstrobe
      rstN := fun i _ => hm.aresetn _
      numRowblocks := congrArg Q1a8.Counts.numRowblocks hcounts
      numQ1Blocks := fun i hi => by
        have hkept :=
          (hquiet.mono (Nat.le_refl _) (show call.first + d + i ≤ call.last by omega)).counts
            hs.settled hm (Nat.le_add_right _ i)
        exact congrArg Q1a8.Counts.numQ1Blocks (hkept.trans hcounts)
      acts := fun i hi haccept => by
        have hsends := hengines.acts (d + i) (by omega)
          (by rw [Q1a8.AxiLite.kernel_cycle_add, Q1a8.AxiLite.kernelInputs_add]; exact haccept)
        rw [Q1a8.AxiLite.kernelInputs_add, Q1a8.actsAccepted, hacts] at hsends
        exact hsends
      weights := fun i hi haccept => by
        have hsends := hengines.weights (d + i) (by omega)
          (by rw [Q1a8.AxiLite.kernel_cycle_add, Q1a8.AxiLite.kernelInputs_add]; exact haccept)
        rw [Q1a8.AxiLite.kernelInputs_add, Q1a8.weightsAccepted, hweights] at hsends
        exact hsends
      pos := hpos
      unfinished := fun i h1 hi => by
        rw [← Q1a8.AxiLite.kernel_cycle]
        exact hmin i h1 hi
      done := by
        rw [← Q1a8.AxiLite.kernel_cycle]
        exact hdone
      stored := fun i hi hvalid hready => by
        have hstored := hengines.stored h.returns.drained (d + i) (by omega)
          (by rw [Q1a8.AxiLite.kernel_cycle_add]; exact hvalid)
          (by rw [Q1a8.AxiLite.kernelInputs_add]; exact hready)
        rw [Q1a8.emitted, hemitted, Q1a8.AxiLite.kernel_cycle_add] at hstored
        exact hstored
      kept := hengines.kept }

/-- The run of the kernel in a call that returns, and the cycles that the call gives. -/
theorem Call.Served.run {call : Call} (h : call.Served s inp) (hp : Proper call.words)
    (hidle : (cycle s inp call.first).kernelBusy = false)
    (hlow : (cycle s inp call.first).startStrobe = false) :
    ∃ d m, Dwells (cycle s inp call.first).kernel (cycle s inp (call.first + d)).kernel ∧
      Moves call.words call.dram call.dram' (cycle s inp (call.first + d)).kernel
        (kernelInputs s inp (call.first + d)) m ∧
      Dwells (cycle s inp (call.first + d + m)).kernel (cycle s inp call.last).kernel ∧
      call.cycles = BitVec.ofNat 32 (busyCycles s inp call.first call.last) ∧
      (cycle s inp call.last).startStrobe = false := by
  obtain ⟨n, c, r, hn, hc, hr, hlast, hstrobe, hbefore, hquiet, hcounts, hdone, hcycles⟩ :=
    h.started hs hm hlow
  have hafter : ∀ i, n < i → i ≤ call.last → (cycle s inp i).startStrobe = false :=
    fun i hni hil => hquiet.startStrobe hs.settled hm hni hil
  have hreach (i : Nat) : Q1a8.Reachable (cycle s inp i).kernel :=
    Q1a8.AxiLite.kernel_reachable hs i
  have hwait {i : Nat} (hi : call.first ≤ i) (hin : i ≤ n) : (cycle s inp i).kernel.busyQ = false :=
    ((dwells hm hi fun j hj hji => hbefore j hj (by omega)).idle (hreach _) hidle).2
  -- the run of the kernel ends where it is done for the first time
  have hends : ∃ m, 1 ≤ m ∧ (cycle s inp (n + m)).kernelDone = true ∧ n + m < c := by
    obtain ⟨m, hpos, hlt, hdone⟩ := Q1a8.AxiLite.done_since hm hs hstrobe hc hdone
    exact ⟨m, hpos, hdone, hlt⟩
  obtain ⟨hpos, hdone, hlt⟩ := Nat.find_spec hends
  have hmin := fun i (hi : i < Nat.find hends) => Nat.find_min hends hi
  generalize Nat.find hends = m at hpos hdone hlt hmin
  obtain ⟨d, rfl⟩ := Nat.exists_eq_add_of_le (Nat.le_of_lt hn)
  have hfirst : ∀ i, 1 ≤ i → i < m → (cycle s inp (call.first + d + i)).kernelDone =
      false := fun i h1 hi =>
    Bool.eq_false_iff.mpr fun hdone => hmin i hi ⟨h1, hdone, by omega⟩
  have hmoves := h.moves hs hm (fun i hi => hwait (Nat.le_add_right _ i) (by omega)) hstrobe hquiet
    hcounts hpos (by omega) hdone hfirst
  have hend := hmoves.idle hp (hreach _) (hwait hn.le (Nat.le_refl _))
  rw [← Q1a8.AxiLite.kernel_cycle] at hend
  have hrest {i : Nat} (hi : call.first + d + m ≤ i) (hil : i ≤ call.last) :
      (cycle s inp i).kernelBusy = false :=
    ((dwells hm hi fun j hj hji => hafter j (by omega) (by omega)).idle hend.1 hend.2).2
  have hcount : busyCycles s inp call.first call.last =
      busyCycles s inp (call.first + d + 1) r := by
    have hbegin : busyCycles s inp call.first (call.first + d + 1) = 0 :=
      Q1a8.AxiLite.busyCycles_idle fun i hi hin => hwait hi (Nat.lt_succ_iff.mp hin)
    have htail : busyCycles s inp r call.last = 0 :=
      Q1a8.AxiLite.busyCycles_idle fun i hi hil => hrest (by omega) (Nat.le_of_lt hil)
    have hsplit := Q1a8.AxiLite.busyCycles_add s inp (a := call.first) (c := call.first + d + 1)
      (b := call.last)
      (by omega) (by omega)
    have hsplit' := Q1a8.AxiLite.busyCycles_add s inp (a := call.first + d + 1) (c := r)
      (b := call.last)
      (by omega) (by omega)
    omega
  refine ⟨d, m, dwells hm hn.le hbefore, hmoves,
    dwells hm (by omega) fun i hi hil => hafter i (by omega) hil.le, ?_,
    hafter _ (by omega) (Nat.le_refl _)⟩
  rw [hcycles, hcount]
  exact Q1a8.AxiLite.cycleCountQ_eq hm hstrobe (by omega) fun i hi hir => hafter i hi (by omega)

/-- A call that returns has moved its chunk through the kernel, which is idle again, and gives the
    busy cycles of the call. -/
theorem Call.Served.outcome {call : Call} (h : call.Served s inp) (hp : Proper call.words)
    (hidle : (cycle s inp call.first).kernelBusy = false)
    (hlow : (cycle s inp call.first).startStrobe = false) :
    (call.dram' = chunkMemory call.words call.dram ∧
      call.cycles = BitVec.ofNat 32 (busyCycles s inp call.first call.last)) ∧
      (cycle s inp call.last).kernelBusy = false ∧ (cycle s inp call.last).startStrobe = false := by
  obtain ⟨d, m, hbefore, hmoves, hafter, hcycles, hlast⟩ := h.run hs hm hp hidle hlow
  obtain ⟨hreach, hwait⟩ := hbefore.idle (Q1a8.AxiLite.kernel_reachable hs _) hidle
  have hend := hmoves.idle hp hreach hwait
  rw [← Q1a8.AxiLite.kernel_cycle] at hend
  exact ⟨⟨hmoves.memory hp hreach hwait, hcycles⟩, (hafter.idle hend.1 hend.2).2, hlast⟩

theorem Call.Served.onBoard {call : Call} (h : call.Served s inp) (hp : Proper call.words)
    (hidle : (cycle s inp call.first).kernelBusy = false)
    (hlow : (cycle s inp call.first).startStrobe = false) : call.OnBoard s inp := by
  intro σ pf d a b c st hc hdram hkernel
  obtain ⟨n, m, hbefore, hmoves, hafter, -, -⟩ := h.run hs hm hp hidle hlow
  rw [Q1a8.AxiLite.kernel_cycle] at hafter
  refine ⟨{ st with started := some c },
    { st with dram := call.dram', started := none, kernel := _ }, rfl,
    ⟨c, _, _, m, rfl, hkernel ▸ hbefore, ?_, rfl⟩, rfl, hafter⟩
  rw [hc, hdram]
  exact hmoves

omit hs hm in
theorem Calls.le {calls : List Call} {a b : Nat} (h : Calls s inp calls a b) : a ≤ b := by
  induction h with
  | nil hle _ => exact hle
  | cons hle _ hserved _ ih => exact hle.trans (hserved.performs.le.trans ih)

theorem Calls.outcomes {calls : List Call} {a b : Nat} (h : Calls s inp calls a b)
    (hproper : ∀ call ∈ calls, Proper call.words) (hidle : (cycle s inp a).kernelBusy = false)
    (hlow : (cycle s inp a).startStrobe = false) :
    ∀ call ∈ calls, call.dram' = chunkMemory call.words call.dram ∧
      call.cycles = BitVec.ofNat 32 (busyCycles s inp call.first call.last) ∧
      call.OnBoard s inp := by
  induction h with
  | nil => exact fun _ hcall => absurd hcall List.not_mem_nil
  | @cons call calls a b hle hquiet hserved _ ih =>
    have hlow' : ∀ i, a ≤ i → i ≤ call.first → (cycle s inp i).startStrobe = false := by
      intro i hai hif
      rcases Nat.eq_or_lt_of_le hai with rfl | hlt
      · exact hlow
      · exact hquiet.startStrobe hs.settled hm hlt hif
    have hidle' : (cycle s inp call.first).kernelBusy = false :=
      ((dwells hm hle fun i hai hif => hlow' i hai (Nat.le_of_lt hif)).idle
        (Q1a8.AxiLite.kernel_reachable hs a) hidle).2
    have hp := hproper _ List.mem_cons_self
    have hfirst := hlow' _ hle (Nat.le_refl _)
    obtain ⟨⟨hmemory, hcycles⟩, hlast, hlastLow⟩ := hserved.outcome hs hm hp hidle' hfirst
    intro call' hcall'
    rcases List.mem_cons.mp hcall' with rfl | hmem
    · exact ⟨hmemory, hcycles, hserved.onBoard hs hm hp hidle' hfirst⟩
    · exact ih (fun call hcall => hproper call (List.mem_cons_of_mem _ hcall)) hlast
        hlastLow call' hmem

omit hm in
theorem kernelBusy_reset : s.kernelBusy = false := by
  obtain ⟨t, i, hrst, rfl⟩ := hs
  simp only [Q1a8.Top.kernelBusy, Q1a8.Top.step, Q1a8.Kernel.step, Q1a8.Kernel.control,
    Q1a8.Top.kernelIn, hrst]
  rfl

/-- Calls of the runner on the kernel that all return 0, from its reset on and with any timing of
    the bus, of the kernel and of the engines, where the words of every call fit each other
    (`Proper`: up to 64 blocks and 65535 rowblocks, the sizes that go with them, sources apart from
    the result). Every call leaves the results of its own chunk in the memory and nothing else, its
    cycles are the busy cycles of the kernel during the call, and it is a start and a wait of the
    board. -/
theorem calls_on_kernel {calls : List Call} {e : Nat} (h : Calls s inp calls 0 e)
    (hproper : ∀ call ∈ calls, Proper call.words) :
    ∀ call ∈ calls, call.dram' = chunkMemory call.words call.dram ∧
      call.cycles = BitVec.ofNat 32 (busyCycles s inp call.first call.last) ∧ call.OnBoard s inp :=
  h.outcomes hs hm hproper (kernelBusy_reset hs) hs.idle.startStrobe

end

/-! ### A call that can be made -/

section

variable {s : Q1a8.Top} {inp : Nat → Q1a8.TopInputs}

/-- Engines that move a chunk in a run of the kernel, when it is idle before and after the run. -/
theorem engines_of_moves (hs : Q1a8.Reachable s.kernel) {w : Words} {dram dram' : Nat → Byte}
    {a b d m : Nat} (events : List Event)
    (h : Moves w dram dram' (cycle s inp (a + d)).kernel (kernelInputs s inp (a + d)) m)
    (hbefore : ∀ i < d, (cycle s inp (a + i)).kernel.busyQ = false)
    (hafter : ∀ i, d + m ≤ i → a + i < b → (cycle s inp (a + i)).kernel.busyQ = false) :
    Engines s inp w events dram dram' a b := by
  -- a beat can move only while the kernel is busy, in the cycles `d .. d + m`
  have hbusy {i : Nat} (hi : a + i < b) (flag : Bool)
      (hmoves : ((Q1a8.cycle (cycle s inp a).kernel (kernelInputs s inp a) i).busyQ && flag) =
        true) : ∃ j < m, i = d + j := by
    rw [← Q1a8.AxiLite.kernel_cycle, Bool.and_eq_true] at hmoves
    have hlow : d ≤ i := by
      by_contra hlt
      rw [hbefore i (by omega)] at hmoves
      cases hmoves.1
    have hhigh : i < d + m := by
      by_contra hge
      rw [hafter i (by omega) hi] at hmoves
      cases hmoves.1
    obtain ⟨j, rfl⟩ := Nat.exists_eq_add_of_le hlow
    exact ⟨j, by omega, rfl⟩
  have hready {i : Nat} (hi : i < d) (flag : Bool) :
      ((cycle s inp (a + i)).kernel.busyQ && flag) = false := by
    rw [hbefore i hi, Bool.false_and]
  -- so none moved in the first `d` cycles, and the counts begin there
  have hacts := Q1a8.AxiLite.count_from s inp a Q1a8.Kernel.actsBeatAccept fun i (hi : i < d) => by
    rw [Q1a8.Kernel.actsBeatAccept, Q1a8.Kernel.sAxisActsTready, hready hi, Bool.and_false]
  have hweights :=
    Q1a8.AxiLite.count_from s inp a Q1a8.Kernel.weightsBeatAccept fun i (hi : i < d) => by
    rw [Q1a8.Kernel.weightsBeatAccept, Q1a8.Kernel.sAxisTready, hready hi, Bool.and_false]
  have hemitted := Q1a8.AxiLite.count_from s inp a (fun k i => k.mAxisTvalid && i.mAxisTready)
    fun i (hi : i < d) => by
    rw [Q1a8.Kernel.mAxisTvalid, (Q1a8.AxiLite.reachable_cycle hs _).rests (hbefore i hi)]
    rfl
  refine ⟨fun c hc haccept => ?_, fun c hc haccept => ?_, fun _ c hc hvalid hready => ?_, h.kept⟩
  · obtain ⟨j, hj, rfl⟩ := hbusy hc _ (Bool.and_eq_true_iff.mp haccept).2
    rw [Q1a8.AxiLite.kernel_cycle_add, Q1a8.AxiLite.kernelInputs_add] at haccept
    rw [Q1a8.AxiLite.kernelInputs_add, Q1a8.actsAccepted, hacts]
    exact h.acts j hj haccept
  · obtain ⟨j, hj, rfl⟩ := hbusy hc _ (Bool.and_eq_true_iff.mp haccept).2
    rw [Q1a8.AxiLite.kernel_cycle_add, Q1a8.AxiLite.kernelInputs_add] at haccept
    rw [Q1a8.AxiLite.kernelInputs_add, Q1a8.weightsAccepted, hweights]
    exact h.weights j hj haccept
  · have hgives : (Q1a8.cycle (cycle s inp a).kernel (kernelInputs s inp a) c).busyQ = true := by
      by_contra hidle
      rw [Q1a8.Kernel.mAxisTvalid, ← Q1a8.AxiLite.kernel_cycle,
        (Q1a8.AxiLite.reachable_cycle hs _).rests
        (by rw [Q1a8.AxiLite.kernel_cycle]; exact Bool.eq_false_iff.mpr hidle)] at hvalid
      cases hvalid
    obtain ⟨j, hj, rfl⟩ := hbusy hc true (by rw [hgives]; rfl)
    rw [Q1a8.AxiLite.kernel_cycle_add] at hvalid
    rw [Q1a8.AxiLite.kernelInputs_add] at hready
    rw [Q1a8.emitted, hemitted, Q1a8.AxiLite.kernel_cycle_add]
    exact h.stored j hj hvalid hready

end

/-- A device with idle engines and a kernel that is done. -/
def answering (status cycles : BitVec 32) : Device Unit where
  read regs off _ :=
    (match regs with
      | .kernel => if off = KREG_STATUS then status else cycles
      | _ => 3#32, ())
  write _ _ := ()

/-- The accesses of a call whose first polls succeed. -/
def callEvents (w : Words) (status cycles : BitVec 32) : List Event :=
  [.read .dmaW DMA_MM2S_DMACR 3#32, .read .dmaW DMA_S2MM_DMACR 3#32,
    .read .dmaA DMA_MM2S_DMACR 3#32] ++ (chunkWrites w).map .write ++
    [.read .dmaA DMA_MM2S_DMASR 3#32, .read .dmaW DMA_MM2S_DMASR 3#32,
      .read .dmaW DMA_S2MM_DMASR 3#32, .read .kernel KREG_STATUS status,
      .read .kernel KREG_CYCLES cycles]

section

variable (status cycles : BitVec 32) (bus : Bus (Unit × List Event))

/-- The notes of a run go on. -/
def Bus.noting (events : List Event) : Bus (Unit × List Event) :=
  ⟨((), bus.state.2 ++ events), bus.log⟩

theorem answering_mmioRd {regs : Regs} (off : Nat) (hne : regs ≠ .kernel) :
    mmioRd (answering status cycles).noted regs off bus =
      (3#32, bus.noting [.read regs off 3#32]) := by
  cases regs with
  | kernel => exact absurd rfl hne
  | _ => rfl

theorem answering_ensureDmaRunning {regs : Regs} (off : Nat) (hne : regs ≠ .kernel) :
    ensureDmaRunning (answering status cycles).noted regs off bus =
      (0, bus.noting [.read regs off 3#32]) := by
  have hrunning : 3#32 &&& DMACR_RS ≠ 0 := by decide
  rw [ensureDmaRunning, bind_apply, answering_mmioRd _ _ _ _ hne]
  dsimp only
  rw [if_pos hrunning]
  rfl

theorem answering_pollDmaIdle {regs : Regs} (off : Nat) (hne : regs ≠ .kernel) :
    pollDmaIdle (answering status cycles).noted regs off 1 bus =
      (0, bus.noting [.read regs off 3#32]) := by
  have herr : ¬(3#32 &&& DMASR_ERR_MASK ≠ 0) := by decide
  have hidle : 3#32 &&& DMASR_IDLE ≠ 0 := by decide
  rw [pollDmaIdle, bind_apply, answering_mmioRd _ _ _ _ hne]
  dsimp only
  rw [if_neg herr, if_pos hidle]
  rfl

theorem answering_pollDone (hdone : status &&& KSTAT_DONE ≠ 0) :
    pollDone (answering status cycles).noted 1 bus =
      ((0, some cycles),
        bus.noting [.read .kernel KREG_STATUS status, .read .kernel KREG_CYCLES cycles]) := by
  have hread : (mmioRd (answering status cycles).noted .kernel KREG_STATUS bus).1 = status := rfl
  have hlog : bus.noting [.read .kernel KREG_STATUS status, .read .kernel KREG_CYCLES cycles] =
      (bus.noting [.read .kernel KREG_STATUS status]).noting
        [.read .kernel KREG_CYCLES cycles] := by
    simp only [Bus.noting, List.append_assoc, List.cons_append, List.nil_append]
  rw [pollDone, bind_apply, hread, if_pos hdone, hlog]
  rfl

theorem answering_start (w : Words) :
    startMatmulChunk (answering status cycles).noted ⟨true, true, true, true⟩ w bus =
    (0,
      ⟨((), bus.state.2 ++ ([.read .dmaW DMA_MM2S_DMACR 3#32, .read .dmaW DMA_S2MM_DMACR 3#32,
        .read .dmaA DMA_MM2S_DMACR 3#32] ++
      (chunkWrites w).map .write)), bus.log ++ chunkWrites w⟩) := by
  have hnull : ¬((!true || !true || !true) = true) := by decide
  have hok : ¬((0 : Int) ≠ 0) := by decide
  rw [startMatmulChunk, if_neg hnull, bind_apply, answering_ensureDmaRunning _ _ _ _ (by decide),
    if_neg hok, bind_apply, answering_ensureDmaRunning _ _ _ _ (by decide), if_neg hok, bind_apply,
    answering_ensureDmaRunning _ _ _ _ (by decide), if_neg hok]
  simp only [bind_apply, mmioWr, Device.noted, Bus.noting, chunkWrites, List.append_assoc,
    List.cons_append, List.nil_append, List.map_cons, List.map_nil]
  rfl

theorem answering_wait (hdone : status &&& KSTAT_DONE ≠ 0) :
    waitMatmulChunk (answering status cycles).noted ⟨true, true, true, true⟩ 1#32 bus =
      ((0, some cycles),
        bus.noting [.read .dmaA DMA_MM2S_DMASR 3#32, .read .dmaW DMA_MM2S_DMASR 3#32,
        .read .dmaW DMA_S2MM_DMASR 3#32, .read .kernel KREG_STATUS status,
          .read .kernel KREG_CYCLES cycles]) := by
  have hone : (1#32).toNat = 1 := rfl
  have hnull : ¬((!true || !true || !true || !true) = true) := by decide
  have hok : ¬((0 : Int) ≠ 0) := by decide
  rw [waitMatmulChunk, if_neg hnull, hone, bind_apply, answering_pollDmaIdle _ _ _ _ (by decide),
    if_neg hok, bind_apply, answering_pollDmaIdle _ _ _ _ (by decide), if_neg hok, bind_apply,
    answering_pollDmaIdle _ _ _ _ (by decide), if_neg hok,
    answering_pollDone _ _ _ hdone]
  simp only [Bus.noting, List.append_assoc, List.cons_append, List.nil_append]

end

theorem returns_callEvents (w : Words) {status : BitVec 32} (cycles : BitVec 32)
    (hdone : status &&& KSTAT_DONE ≠ 0)
    (dram dram' : Nat → Byte) (first last : Nat) :
    Call.Returns ⟨w, cycles, callEvents w status cycles, dram, dram', first, last⟩ := by
  refine ⟨Unit, answering status cycles, ⟨true, true, true, true⟩, 1#32, (), (), ?_⟩
  simp only [answering_start, answering_wait _ _ _ hdone]
  exact ⟨trivial, trivial, rfl⟩

/-! ### A host that makes one call -/

/-- The writes of a call to the kernel. -/
def hostWrite (w : Words) (t : Nat) : Q1a8.Write :=
  if t = 0 then kernelWrite KREG_NUM_Q1_BLOCKS w.numQ1Blocks
  else if t = 1 then kernelWrite KREG_NUM_ROWBLOCKS w.numRowblocks
  else kernelWrite KREG_CTRL KCTRL_START

/-- The streams of a kernel that is started in cycle 8. -/
def hostStreams (feed : Nat → Q1a8.Inputs) (n : Nat) : Q1a8.Inputs :=
  if n < 8 then Q1a8.smallInputs 0 else feed (n - 8)

/-- A host that performs each write in three cycles, and two reads from cycle `poll` on in two
    cycles each. -/
def hostInputs (w : Words) (feed : Nat → Q1a8.Inputs) (poll n : Nat) : Q1a8.TopInputs where
  sAxiAresetn := true
  sAxiAwaddr := (hostWrite w (n / 3)).addr
  sAxiAwvalid := decide (n < 9 ∧ n % 3 ≠ 2)
  sAxiWdata := (hostWrite w (n / 3)).data
  sAxiWstrb := (hostWrite w (n / 3)).strb
  sAxiWvalid := decide (n < 9 ∧ n % 3 ≠ 2)
  sAxiBready := true
  sAxiAraddr := if n < poll + 2 then 0x0C#8 else 0x18#8
  sAxiArvalid := decide (poll ≤ n ∧ n < poll + 4)
  sAxiRready := true
  sAxisTdata := (hostStreams feed n).sAxisTdata
  sAxisTvalid := (hostStreams feed n).sAxisTvalid
  sAxisActsTdata := (hostStreams feed n).sAxisActsTdata
  sAxisActsTvalid := (hostStreams feed n).sAxisActsTvalid
  mAxisTready := (hostStreams feed n).mAxisTready

/-- A state in which a call may begin. -/
structure Waits (s : Q1a8.Top) : Prop where
  settled : s.Settled
  startStrobe : s.startStrobe = false
  reachable : Q1a8.Reachable s.kernel
  idle : s.kernel.busyQ = false

theorem waits_of_reset {s : Q1a8.Top} (hs : s.AfterReset) : Waits s :=
  ⟨hs.settled, hs.idle.startStrobe, Q1a8.AxiLite.reachable_of_reset hs, kernelBusy_reset hs⟩

section Host

variable {s : Q1a8.Top} {w : Words} {feed : Nat → Q1a8.Inputs} {poll : Nat} (hs : Waits s)

theorem hostInputs_aresetn (w : Words) (feed : Nat → Q1a8.Inputs) (poll n : Nat) :
    (hostInputs w feed poll n).sAxiAresetn = true := rfl

theorem hostInputs_valid (w : Words) (feed : Nat → Q1a8.Inputs) (poll : Nat) {t r : Nat}
    (ht : t < 3) (hr : r < 2) :
    (hostInputs w feed poll (3 * t + r)).sAxiAwvalid = true := decide_eq_true (by omega)

theorem hostInputs_noWrites (a b : Nat) (ha : 9 ≤ a) : NoWrites s (hostInputs w feed poll) a b := by
  intro n hn _
  have hvalid : (Q1a8.AxiLite.awChannel s (hostInputs w feed poll)).valid n = false :=
    decide_eq_false (by omega)
  rw [Handshake.Channel.transfer, hvalid, Bool.false_and]

theorem hostInputs_writeAt {t : Nat} :
    Q1a8.AxiLite.writeAt (hostInputs w feed poll) (3 * t + 1) = hostWrite w t := by
  have hdiv : (3 * t + 1) / 3 = t := by omega
  rw [Q1a8.AxiLite.writeAt, hostInputs, hdiv]

/-- What the host offers and does not get rid of is the first cycle of a write. -/
theorem hostInputs_first {n : Nat} (hvalid : n < 9 ∧ n % 3 ≠ 2) {ready : Nat → Bool}
    (hready : ready n = false)
    (htaken : ∀ t < 3, ready (3 * t + 1) = true) : ∃ t < 3, n = 3 * t := by
  have hsplit : n = 3 * (n / 3) ∨ n = 3 * (n / 3) + 1 := by omega
  rcases hsplit with h | h
  · exact ⟨n / 3, by omega, h⟩
  · rw [h, htaken (n / 3) (by omega)] at hready
    cases hready

include hs

theorem hostInputs_writeIdle {t : Nat} (ht : t ≤ 3) :
    Q1a8.AxiLite.WriteIdle (cycle s (hostInputs w feed poll) (3 * t)) := by
  induction t with
  | zero => exact ⟨hs.settled.awreadyQ, hs.settled.wreadyQ, hs.settled.bvalidQ⟩
  | succ t ih =>
    have hvalid := hostInputs_valid w feed poll (t := t) (r := 0) (by omega) (by decide)
    exact (Q1a8.AxiLite.write_taken_at (hostInputs_aresetn w feed poll) (ih (by omega)) hvalid
      hvalid).2.2.2.2 rfl

theorem hostInputs_readIdle {n : Nat} (hn : n ≤ poll) :
    Q1a8.AxiLite.ReadIdle (cycle s (hostInputs w feed poll) n) := by
  induction n with
  | zero => exact ⟨hs.settled.arreadyQ, hs.settled.rvalidQ⟩
  | succ n ih =>
    exact Q1a8.AxiLite.readIdle_kept (hostInputs_aresetn w feed poll) (ih (by omega))
      (decide_eq_false (by omega))

theorem hostInputs_readIdle_next :
    Q1a8.AxiLite.ReadIdle (cycle s (hostInputs w feed poll) (poll + 2)) :=
  (Q1a8.AxiLite.read_taken_at (hostInputs_aresetn w feed poll)
    (hostInputs_readIdle hs (Nat.le_refl poll)) (decide_eq_true (by omega))).2.2 rfl

theorem hostInputs_taken {t : Nat} (ht : t < 3) :
    (cycle s (hostInputs w feed poll) (3 * t + 1)).awreadyQ = true ∧
      (cycle s (hostInputs w feed poll) (3 * t + 1)).wreadyQ = true ∧
      (cycle s (hostInputs w feed poll) (3 * t + 2)).awreadyQ = false := by
  have hvalid := hostInputs_valid w feed poll (t := t) (r := 0) ht (by decide)
  obtain ⟨haw, hw, haw', -⟩ :=
    Q1a8.AxiLite.write_taken_at (hostInputs_aresetn w feed poll)
      (hostInputs_writeIdle hs (Nat.le_of_lt ht)) hvalid hvalid
  exact ⟨haw, hw, haw'⟩

/-- The host keeps what it offers. -/
theorem hostInputs_master : Master s (hostInputs w feed poll) where
  aresetn := hostInputs_aresetn w feed poll
  aw n hvalid hready := by
    obtain ⟨t, ht, rfl⟩ := hostInputs_first (of_decide_eq_true hvalid) hready fun t ht =>
      (hostInputs_taken hs ht).1
    have hdiv : (3 * t + 1) / 3 = 3 * t / 3 := by omega
    exact ⟨hostInputs_valid w feed poll ht (by decide),
      congrArg (fun t => (hostWrite w t).addr) hdiv⟩
  w n hvalid hready := by
    obtain ⟨t, ht, rfl⟩ := hostInputs_first (of_decide_eq_true hvalid) hready fun t ht =>
      (hostInputs_taken hs ht).2.1
    have hdiv : (3 * t + 1) / 3 = 3 * t / 3 := by omega
    exact ⟨hostInputs_valid w feed poll ht (by decide),
      congrArg (fun t => (hostWrite w t).data) hdiv⟩
  ar n hvalid hready := by
    obtain ⟨hlo, hhi⟩ := of_decide_eq_true hvalid
    have hfirst := (Q1a8.AxiLite.read_taken_at (hostInputs_aresetn w feed poll)
      (hostInputs_readIdle hs (Nat.le_refl poll))
      (decide_eq_true (by omega))).1
    have hnext :=
      (Q1a8.AxiLite.read_taken_at (hostInputs_aresetn w feed poll) (hostInputs_readIdle_next hs)
      (decide_eq_true (by omega))).1
    have hcases : n = poll ∨ n = poll + 1 ∨ n = poll + 2 ∨ n = poll + 3 := by omega
    have haddr (n : Nat) (haddr : n + 1 < poll + 2 ↔ n < poll + 2) :
        (hostInputs w feed poll (n + 1)).sAxiAraddr = (hostInputs w feed poll n).sAxiAraddr := by
      simp only [hostInputs, haddr]
    rcases hcases with rfl | rfl | rfl | rfl
    · exact ⟨decide_eq_true (by omega), haddr _ (by omega)⟩
    · cases hready.symm.trans hfirst
    · exact ⟨decide_eq_true (by omega), haddr _ (by omega)⟩
    · cases hready.symm.trans hnext

omit hs in
theorem hostInputs_notTaken {t r : Nat} (ht : t < 3) (hr : r ≠ 1) (hlt : r < 3) (hs : Waits s) :
    (Q1a8.AxiLite.awChannel s (hostInputs w feed poll)).transfer (3 * t + r) = false := by
  have hcases : r = 0 ∨ r = 2 := by omega
  have hready : (Q1a8.AxiLite.awChannel s (hostInputs w feed poll)).ready (3 * t + r) = false := by
    rcases hcases with rfl | rfl
    · exact (hostInputs_writeIdle hs (Nat.le_of_lt ht)).awreadyQ
    · exact (hostInputs_taken hs ht).2.2
  rw [Handshake.Channel.transfer, hready, Bool.and_false]

variable (w feed poll) in
/-- What a write of the host leaves in the registers. -/
theorem hostInputs_write {t : Nat} (ht : t < 3) :
    (cycle s (hostInputs w feed poll) (3 * t + 2)).counts =
      (hostWrite w t).apply (cycle s (hostInputs w feed poll) (3 * t)).counts ∧
      (cycle s (hostInputs w feed poll) (3 * t + 2)).startStrobe = (hostWrite w t).starts ∧
      (cycle s (hostInputs w feed poll) (3 * t + 3)).counts =
        (cycle s (hostInputs w feed poll) (3 * t + 2)).counts ∧
      (cycle s (hostInputs w feed poll) (3 * t + 1)).startStrobe = false ∧
      (cycle s (hostInputs w feed poll) (3 * t + 3)).startStrobe = false := by
  have hm : Master s (hostInputs w feed poll) := hostInputs_master hs
  have htransfer : (Q1a8.AxiLite.awChannel s (hostInputs w feed poll)).transfer
      (3 * t + 1) = true :=
    Bool.and_eq_true_iff.mpr ⟨hostInputs_valid w feed poll ht (by decide),
      (hostInputs_taken hs ht).1⟩
  have hfirst : (Q1a8.AxiLite.awChannel s (hostInputs w feed poll)).transfer (3 * t) = false :=
    hostInputs_notTaken (r := 0) ht (by decide) (by decide) hs
  have hlast : (Q1a8.AxiLite.awChannel s (hostInputs w feed poll)).transfer (3 * t + 2) = false :=
    hostInputs_notTaken (r := 2) ht (by decide) (by decide) hs
  refine ⟨?_, ?_, ?_, ?_, ?_⟩
  · rw [Q1a8.AxiLite.counts_succ hs.settled hm, if_pos htransfer, hostInputs_writeAt,
      Q1a8.AxiLite.counts_succ hs.settled hm, if_neg (by rw [hfirst]; decide)]
  · rw [Q1a8.AxiLite.startStrobe_succ hs.settled hm, htransfer, hostInputs_writeAt, Bool.true_and]
  · rw [Q1a8.AxiLite.counts_succ hs.settled hm, if_neg (by rw [hlast]; decide)]
  · rw [Q1a8.AxiLite.startStrobe_succ hs.settled hm, hfirst, Bool.false_and]
  · rw [Q1a8.AxiLite.startStrobe_succ hs.settled hm, hlast, Bool.false_and]

variable (w feed poll) in
/-- The kernel is started in cycle 8, with the counts of the chunk. -/
theorem hostInputs_started :
    (cycle s (hostInputs w feed poll) 8).startStrobe = true ∧
      (cycle s (hostInputs w feed poll) 8).counts =
        ⟨w.numQ1Blocks.setWidth 16, w.numRowblocks.setWidth 16⟩ ∧
      ∀ i < 8, (cycle s (hostInputs w feed poll) i).startStrobe = false := by
  obtain ⟨hcounts0, hstart0, hkept0, hlow0, hlow0'⟩ :=
    hostInputs_write w feed poll hs (t := 0) (by decide)
  obtain ⟨hcounts1, hstart1, hkept1, hlow1, hlow1'⟩ :=
    hostInputs_write w feed poll hs (t := 1) (by decide)
  obtain ⟨hcounts2, hstart2, -, hlow2, -⟩ := hostInputs_write w feed poll hs (t := 2) (by decide)
  have hctrl : (kernelWrite KREG_CTRL KCTRL_START).starts = true := by decide
  refine ⟨hstart2.trans hctrl, ?_, fun i hi => ?_⟩
  · rw [hcounts2, hkept1, hcounts1, hkept0, hcounts0]
    simp only [hostWrite, kernelWrite_ctrl, kernelWrite_numRowblocks, kernelWrite_numQ1Blocks,
      reduceIte, Nat.reduceEqDiff]
  · rcases (show i = 0 ∨ i = 1 ∨ i = 2 ∨ i = 3 ∨ i = 4 ∨ i = 5 ∨ i = 6 ∨ i = 7 by omega) with rfl |
      rfl | rfl | rfl | rfl | rfl | rfl | rfl
    · exact hs.startStrobe
    · exact hlow0
    · exact hstart0.trans rfl
    · exact hlow0'
    · exact hlow1
    · exact hstart1.trans rfl
    · exact hlow1'
    · exact hlow2

/-- There is no start behind the one in cycle 8. -/
theorem hostInputs_low {n : Nat} (hn : 9 ≤ n) :
    (cycle s (hostInputs w feed poll) n).startStrobe = false := by
  rcases Nat.eq_or_lt_of_le hn with rfl | hlt
  · exact (hostInputs_write w feed poll hs (t := 2) (by decide)).2.2.2.2
  · exact (hostInputs_noWrites 9 n (Nat.le_refl 9)).startStrobe hs.settled (hostInputs_master hs)
      hlt (Nat.le_refl n)

/-- The kernel waits for its start. -/
theorem hostInputs_waits {i : Nat} (hi : i ≤ 8) :
    (cycle s (hostInputs w feed poll) i).kernel.busyQ = false := by
  have hm : Master s (hostInputs w feed poll) := hostInputs_master hs
  have hdwells := dwells (a := 0) (b := i) hm (Nat.zero_le i) fun j _ hj =>
    (hostInputs_started w feed poll hs).2.2 j (by omega)
  exact (hdwells.idle hs.reachable hs.idle).2

/-- From its start on, the kernel is fed. -/
theorem hostInputs_fed (j : Q1a8.Streams)
    (hq1 : BitVec.ofNat 16 j.q1Blocks = w.numQ1Blocks.setWidth 16)
    (hrb : BitVec.ofNat 16 j.rowblocks = w.numRowblocks.setWidth 16) (k : Q1a8.Kernel) :
    kernelInputs s (hostInputs w (Q1a8.feedInputs j k) poll) 8 = Q1a8.feedInputs j k := by
  funext c
  have hm : Master s (hostInputs w (Q1a8.feedInputs j k) poll) := hostInputs_master hs
  obtain ⟨hstart, hcounts, -⟩ := hostInputs_started w (Q1a8.feedInputs j k) poll hs
  have hstrobe : (cycle s (hostInputs w (Q1a8.feedInputs j k) poll) (8 + c)).startStrobe =
      decide (c = 0) := by
    cases c with
    | zero => exact hstart
    | succ c => exact hostInputs_low hs (by omega)
  have hkept : (cycle s (hostInputs w (Q1a8.feedInputs j k) poll) (8 + c)).counts =
      ⟨w.numQ1Blocks.setWidth 16, w.numRowblocks.setWidth 16⟩ := by
    have hquiet : NoWrites s (hostInputs w (Q1a8.feedInputs j k) poll) 8 (8 + c) := by
      intro n hn hn'
      rcases Nat.eq_or_lt_of_le hn with rfl | hlt
      · exact hostInputs_notTaken (t := 2) (r := 2) (by decide) (by decide) (by decide) hs
      · exact hostInputs_noWrites 9 (n + 1) (Nat.le_refl 9) n hlt (Nat.lt_succ_self n)
    rw [hquiet.counts hs.settled hm (Nat.le_add_right 8 c), hcounts]
  have hstreams : hostStreams (Q1a8.feedInputs j k) (8 + c) = Q1a8.feedInputs j k c := by
    rw [hostStreams, if_neg (by omega), Nat.add_sub_cancel_left]
  have hq1' := (congrArg Q1a8.Counts.numQ1Blocks hkept).trans hq1.symm
  have hrb' := (congrArg Q1a8.Counts.numRowblocks hkept).trans hrb.symm
  simp only [Q1a8.Top.counts] at hq1' hrb'
  simp only [kernelInputs, Q1a8.Top.kernelIn, hostInputs] at hstrobe hq1' hrb' hstreams ⊢
  rw [hstrobe, hq1', hrb', hstreams]
  rfl

/-- The accesses of the host. -/
theorem hostInputs_performs (hpoll : 9 ≤ poll) {status cycles : BitVec 32}
    (hstatus : ((Q1a8.AxiLite.rChannel s (hostInputs w feed poll)).payload (poll + 1)).1 = status)
    (hcycles : ((Q1a8.AxiLite.rChannel s (hostInputs w feed poll)).payload (poll + 3)).1 = cycles) :
    Performs s (hostInputs w feed poll) [.write (hostWrite w 0), .write (hostWrite w 1),
      .write (hostWrite w 2), .read 0x0C#8 status, .read 0x18#8 cycles] 0 (poll + 5) := by
  have hrst := hostInputs_aresetn w feed poll
  have hquiet {c d : Nat} (hc : 9 ≤ c) : NoWrites s (hostInputs w feed poll) c d :=
    hostInputs_noWrites c d hc
  have har {r : Nat} (hr : r < 4) : (hostInputs w feed poll (poll + r)).sAxiArvalid = true :=
    decide_eq_true (by omega)
  have haddr : (hostInputs w feed poll (poll + 1)).sAxiAraddr = 0x0C#8 := if_pos (by omega)
  have haddr' : (hostInputs w feed poll (poll + 3)).sAxiAraddr = 0x18#8 := if_neg (by omega)
  have hcyclesRead : Performs s (hostInputs w feed poll) [.read 0x18#8 cycles]
      (poll + 2) (poll + 5) :=
    .of_read hrst (hostInputs_readIdle_next hs) (har (r := 2) (by decide))
      (har (r := 3) (by decide)) haddr' rfl hcycles
      (hquiet (by omega)) (.nil (Nat.le_succ _) (hquiet (by omega)))
  have hreads : Performs s (hostInputs w feed poll) [.read 0x0C#8 status, .read 0x18#8 cycles]
      poll (poll + 5) :=
    .of_read hrst (hostInputs_readIdle hs (Nat.le_refl poll)) (har (r := 0) (by decide))
      (har (r := 1) (by decide)) haddr rfl hstatus
      (hquiet hpoll) hcyclesRead
  have hwrite {t : Nat} {accesses : List RegAccess} (ht : t < 3)
      (hrest : Performs s (hostInputs w feed poll) accesses (3 * t + 3) (poll + 5)) :
      Performs s (hostInputs w feed poll) (.write (hostWrite w t) :: accesses) (3 * t)
        (poll + 5) := by
    have hvalid := hostInputs_valid w feed poll (r := 0) ht (by decide)
    have hvalid' := hostInputs_valid w feed poll (r := 1) ht (by decide)
    exact .of_write hrst (hostInputs_writeIdle hs (Nat.le_of_lt ht)) hvalid hvalid hvalid'
      hostInputs_writeAt rfl hrest
  have hlast := hwrite (t := 2) (by decide) (hreads.later hpoll (hquiet (Nat.le_refl 9)))
  exact hwrite (t := 0) (by decide) (hwrite (t := 1) (by decide) hlast)

/-- After the call the host is silent, and the next call may begin. -/
theorem hostInputs_waits_again (hpoll : 9 ≤ poll)
    (hidle : (cycle s (hostInputs w feed poll) (poll + 5)).kernel.busyQ = false) :
    Waits (cycle s (hostInputs w feed poll) (poll + 5)) := by
  have hrst := hostInputs_aresetn w feed poll
  have hwrite {n : Nat} (hn : 9 ≤ n) :
      Q1a8.AxiLite.WriteIdle (cycle s (hostInputs w feed poll) n) := by
    induction n, hn using Nat.le_induction with
    | base => exact hostInputs_writeIdle hs (t := 3) (Nat.le_refl 3)
    | succ n hn ih => exact Q1a8.AxiLite.writeIdle_kept hrst ih (decide_eq_false (by omega))
  have hread : Q1a8.AxiLite.ReadIdle (cycle s (hostInputs w feed poll) (poll + 4)) :=
    (Q1a8.AxiLite.read_taken_at hrst (hostInputs_readIdle_next hs) (decide_eq_true (by omega))).2.2
      rfl
  have hread' := Q1a8.AxiLite.readIdle_kept hrst hread (decide_eq_false (by omega))
  obtain ⟨hawready, hwready, hbvalid⟩ := hwrite (n := poll + 5) (by omega)
  exact ⟨⟨hawready, hwready, hbvalid, hread'.arreadyQ, hread'.rvalidQ⟩,
    hostInputs_low hs (by omega), Q1a8.AxiLite.reachable_cycle hs.reachable _, hidle⟩

/-- The first read of the host is of the status. -/
theorem hostInputs_status (hdone : (cycle s (hostInputs w feed poll) poll).doneLatched = true) :
    ((Q1a8.AxiLite.rChannel s (hostInputs w feed poll)).payload (poll + 1)).1 &&&
      KSTAT_DONE ≠ 0 := by
  have hm : Master s (hostInputs w feed poll) := hostInputs_master hs
  have har {r : Nat} (hr : r < 4) : (hostInputs w feed poll (poll + r)).sAxiArvalid = true :=
    decide_eq_true (by omega)
  have hready :=
    (Q1a8.AxiLite.read_taken_at hm.aresetn (hostInputs_readIdle hs (Nat.le_refl poll))
      (har (r := 0) (by decide))).1
  have hread : (Q1a8.AxiLite.arChannel s (hostInputs w feed poll)).transfer (poll + 1) = true :=
    Bool.and_eq_true_iff.mpr ⟨har (r := 1) (by decide), hready⟩
  have haddr : (hostInputs w feed poll (poll + 1)).sAxiAraddr = 0x0C#8 := if_pos (by omega)
  have hvalue := Q1a8.AxiLite.read_value hs.settled hm hread (Nat.lt_succ_self _) fun i hi hi' => by
    omega
  rw [Q1a8.AxiLite.readAt, haddr] at hvalue
  have hregister : ((Q1a8.AxiLite.rChannel s (hostInputs w feed poll)).payload (poll + 1)).1 =
      0#30 ++ BitVec.ofBool (cycle s (hostInputs w feed poll) poll).doneLatched ++
        BitVec.ofBool (cycle s (hostInputs w feed poll) poll).kernelBusy := by
    rw [hvalue]
    rfl
  rw [hregister, hdone]
  cases (cycle s (hostInputs w feed poll) poll).kernelBusy <;> decide

end Host

/-- What the kernel has done stays latched when nothing starts it. -/
theorem doneLatched_of_done {s : Q1a8.Top} {inp : Nat → Q1a8.TopInputs}
    (hm : Master s inp) {n : Nat}
    (hdone : (cycle s inp n).kernelDone = true) (hlow : (cycle s inp n).startStrobe = false) :
    (cycle s inp (n + 1)).doneLatched = true := by
  rw [Q1a8.AxiLite.cycle_succ, Q1a8.Top.step_doneLatched (hm.aresetn _), hdone, hlow]
  rfl

/-- Up to the start it does not matter what the host will feed, nor when it will read. -/
theorem hostInputs_follows (s : Q1a8.Top) (w : Words) (feed feed' : Nat → Q1a8.Inputs)
    {poll poll' : Nat} (hpoll : 9 ≤ poll) (hpoll' : 9 ≤ poll') :
    Q1a8.AxiLite.Follows s (hostInputs w feed poll) s (hostInputs w feed' poll') 0 8 where
  state := rfl
  inputs i hi := by
    have hstreams : hostStreams feed i = hostStreams feed' i := by
      rw [hostStreams, hostStreams, if_pos hi, if_pos hi]
    have har : decide (poll ≤ i ∧ i < poll + 4) = decide (poll' ≤ i ∧ i < poll' + 4) := by
      rw [decide_eq_false (by omega), decide_eq_false (by omega)]
    rw [Nat.zero_add]
    simp only [hostInputs, hstreams, har, if_pos (show i < poll + 2 by omega),
      if_pos (show i < poll' + 2 by omega)]

/-- The host feeds some chunk: its kernel moves the beats and is done when the host reads. -/
theorem exists_moves {s : Q1a8.Top} (hs : Waits s) {w : Words} (hp : Proper w) (dram : Nat → Byte) :
    ∃ feed m, 0 < m ∧ Moves w dram (chunkMemory w dram)
      (cycle s (hostInputs w feed (9 + m)) 8).kernel
      (kernelInputs s (hostInputs w feed (9 + m)) 8) m := by
  obtain ⟨k, hkernel⟩ : ∃ k, k = (cycle s (hostInputs w Q1a8.smallInputs 9) 8).kernel := ⟨_, rfl⟩
  have hk : Q1a8.Reachable k := hkernel ▸ Q1a8.AxiLite.reachable_cycle hs.reachable 8
  have hidle : k.busyQ = false := hkernel ▸ hostInputs_waits hs (Nat.le_refl 8)
  obtain ⟨m, hmoves⟩ := Board.Matmul.moves_feedInputs hp hk hidle dram
  -- the kernel that is fed is the one that another host leaves in cycle 8
  have hsame :
      (cycle s (hostInputs w (Q1a8.feedInputs (hp.job dram).toStreams k) (9 + m)) 8).kernel =
        k := by
    rw [hkernel]
    exact congrArg Q1a8.Top.kernel
      ((hostInputs_follows s w _ _ (Nat.le_refl 9) (Nat.le_add_right 9 m)).cycle_eq (Nat.le_refl 8))
  have hfed : kernelInputs s (hostInputs w (Q1a8.feedInputs (hp.job dram).toStreams k) (9 + m)) 8 =
      Q1a8.feedInputs (hp.job dram).toStreams k :=
    hostInputs_fed hs _ (BitVec.ofNat_toNat ..) (BitVec.ofNat_toNat ..) k
  refine ⟨Q1a8.feedInputs (hp.job dram).toStreams k, m, hmoves.pos, ?_⟩
  rw [hsame, hfed]
  exact hmoves

/-- A chunk can be called, whenever the kernel waits. -/
theorem exists_call {s : Q1a8.Top} (hs : Waits s) {w : Words} (hp : Proper w) (dram : Nat → Byte) :
    ∃ inp cycles events e, Master s inp ∧
      Call.Served s inp ⟨w, cycles, events, dram, chunkMemory w dram, 0, e⟩ ∧
      Waits (cycle s inp e) ∧ ∀ n, n + 1 = e → Q1a8.AxiLite.Silent (inp n) := by
  obtain ⟨feed, m, hpos, hmoves⟩ := exists_moves hs hp dram
  have hm : Master s (hostInputs w feed (9 + m)) := hostInputs_master hs
  have hlow {i : Nat} (hi : 9 ≤ i) : (cycle s (hostInputs w feed (9 + m)) i).startStrobe = false :=
    hostInputs_low hs hi
  have hend := hmoves.idle hp (Q1a8.AxiLite.reachable_cycle hs.reachable 8)
    (hostInputs_waits hs (Nat.le_refl 8))
  have hdone := hmoves.done
  rw [← Q1a8.AxiLite.kernel_cycle] at hend hdone
  have hrests {i : Nat} (hi : 8 + m ≤ i) :
      (cycle s (hostInputs w feed (9 + m)) i).kernel.busyQ = false := by
    have hdwells := dwells (a := 8 + m) (b := i) hm hi fun j hj _ => hlow (by omega)
    exact (hdwells.idle hend.1 hend.2).2
  have hlatched : (cycle s (hostInputs w feed (9 + m)) (9 + m)).doneLatched = true := by
    have hnext : 9 + m = 8 + m + 1 := by omega
    have hlatched := doneLatched_of_done hm hdone (hlow (by omega))
    rwa [← hnext] at hlatched
  obtain ⟨status, hstatus⟩ : ∃ status,
    ((Q1a8.AxiLite.rChannel s (hostInputs w feed (9 + m))).payload (9 + m + 1)).1 = status :=
    ⟨_, rfl⟩
  obtain ⟨cycles, hcycles⟩ : ∃ cycles,
    ((Q1a8.AxiLite.rChannel s (hostInputs w feed (9 + m))).payload (9 + m + 3)).1 = cycles :=
    ⟨_, rfl⟩
  have hseen : status &&& KSTAT_DONE ≠ 0 := hstatus ▸ hostInputs_status hs hlatched
  have hperforms := hostInputs_performs hs (Nat.le_add_right 9 m) hstatus hcycles
  have hengines : Engines s (hostInputs w feed (9 + m)) w (callEvents w status cycles) dram
      (chunkMemory w dram) 0 (9 + m + 5) := by
    refine engines_of_moves (d := 8) hs.reachable _ hmoves (fun i hi => ?_) fun i hi _ => ?_
    · rw [Nat.zero_add]
      exact hostInputs_waits hs (Nat.le_of_lt hi)
    · rw [Nat.zero_add]
      exact hrests hi
  refine ⟨hostInputs w feed (9 + m), cycles, callEvents w status cycles, 9 + m + 5, hm,
    ⟨returns_callEvents w cycles hseen _ _ _ _, hperforms, fun _ => hengines⟩,
    hostInputs_waits_again hs (Nat.le_add_right 9 m) (hrests (by omega)), fun n hn => ?_⟩
  exact ⟨decide_eq_false (by omega), decide_eq_false (by omega), decide_eq_false (by omega)⟩

/-! ### Calls one after the other -/

section

variable {s s' : Q1a8.Top} {inp inp' : Nat → Q1a8.TopInputs} {d e : Nat}

/-- A call that begins `d` cycles later. -/
def Call.later (d : Nat) (call : Call) : Call :=
  { call with first := d + call.first, last := d + call.last }

theorem Call.later_zero (call : Call) : call.later 0 = call := by
  simp only [Call.later, Nat.zero_add]

theorem Engines.follows {w : Words} {events : List Event} {dram dram' : Nat → Byte} {a b : Nat}
    (hengines : Engines s inp w events dram dram' a b)
    (h : Q1a8.AxiLite.Follows s inp s' inp' d e) (hb : b ≤ e) :
    Engines s' inp' w events dram dram' (d + a) (d + b) where
  acts c hc haccept := by
    rw [h.kernel_eq (by omega), h.kernelInputs_eq (by omega)] at haccept
    rw [h.kernelInputs_eq (by omega), Q1a8.actsAccepted,
      h.count_eq Q1a8.Kernel.actsBeatAccept (by omega)]
    exact hengines.acts c (by omega) haccept
  weights c hc haccept := by
    rw [h.kernel_eq (by omega), h.kernelInputs_eq (by omega)] at haccept
    rw [h.kernelInputs_eq (by omega), Q1a8.weightsAccepted,
      h.count_eq Q1a8.Kernel.weightsBeatAccept (by omega)]
    exact hengines.weights c (by omega) haccept
  stored hdrained c hc hvalid hready := by
    rw [h.kernel_eq (by omega)] at hvalid
    rw [h.kernelInputs_eq (by omega)] at hready
    rw [h.kernel_eq (by omega), Q1a8.emitted,
      h.count_eq (fun k i => k.mAxisTvalid && i.mAxisTready) (by omega)]
    exact hengines.stored hdrained c (by omega) hvalid hready
  kept := hengines.kept

theorem Call.Served.follows {call : Call} (hserved : call.Served s inp)
    (h : Q1a8.AxiLite.Follows s inp s' inp' d e)
    (he : call.last ≤ e) : (call.later d).Served s' inp' where
  returns := hserved.returns
  performs := hserved.performs.follows h he
  engines hprogrammed := (hserved.engines hprogrammed).follows h he

theorem Calls.follows {calls : List Call} {a b : Nat} (hcalls : Calls s inp calls a b)
    (h : Q1a8.AxiLite.Follows s inp s' inp' d e) (hb : b ≤ e) :
    Calls s' inp' (calls.map (Call.later d)) (d + a) (d + b) := by
  induction hcalls with
  | nil hle hquiet => exact .nil (Nat.add_le_add_left hle d) (hquiet.follows h hb)
  | @cons call calls a b hle hquiet hserved hrest ih =>
    have hlast := hrest.le
    exact .cons (Nat.add_le_add_left hle d)
      (hquiet.follows h (hserved.performs.le.trans (hlast.trans hb)))
      (hserved.follows h (hlast.trans hb)) (ih hb)

end

/-- The memory of every call is what the calls before it have left. -/
def Linked (dram : Nat → Byte) : List Call → Prop
  | [] => True
  | call :: calls => call.dram = dram ∧ Linked call.dram' calls

theorem Linked.later {dram : Nat → Byte} {calls : List Call} (d : Nat) (h : Linked dram calls) :
    Linked dram (calls.map (Call.later d)) := by
  induction calls generalizing dram with
  | nil => trivial
  | cons call calls ih => exact ⟨h.1, ih h.2⟩

/-- Chunks can be called one after the other, whenever the kernel waits. -/
theorem exists_calls {s : Q1a8.Top} (hs : Waits s) {chunks : List Words}
    (hp : ∀ w ∈ chunks, Proper w) (dram : Nat → Byte) :
    ∃ inp calls e, Master s inp ∧ Calls s inp calls 0 e ∧ calls.map Call.words = chunks ∧
      Linked dram calls := by
  induction chunks generalizing s dram with
  | nil =>
    obtain ⟨inp, hm⟩ : ∃ inp, Master s inp := 
      ⟨hostInputs ⟨0, 0, 0, 0, 0, 0, 0, 0⟩ Q1a8.smallInputs 9, hostInputs_master hs⟩
    exact ⟨inp, [], 0, hm, .nil (Nat.le_refl 0) fun n _ hn =>
      absurd hn (Nat.not_lt_zero n), rfl, trivial⟩
  | cons w chunks ih =>
    obtain ⟨inp, cycles, events, d, hm, hserved, hwaits, hlast⟩ :=
      exists_call hs (hp w List.mem_cons_self) dram
    obtain ⟨inp', calls, e, hm', hcalls, hwords, hlinked⟩ :=
      ih hwaits (fun w' hw' => hp w' (List.mem_cons_of_mem _ hw')) (chunkMemory w dram)
    have hserved' := hserved.follows (Q1a8.AxiLite.follows_first s inp inp' d) (Nat.le_refl d)
    have hcalls' := hcalls.follows (Q1a8.AxiLite.follows_second s inp inp' d e) (Nat.le_refl e)
    rw [Call.later_zero] at hserved'
    refine ⟨Q1a8.AxiLite.followedBy d inp inp', _ :: calls.map (Call.later d), d + e,
      hm.followed hm' hlast,
      .cons (Nat.le_refl 0) (fun n _ hn => absurd hn (Nat.not_lt_zero n)) hserved' hcalls', ?_, rfl,
      hlinked.later d⟩
    rw [List.map_cons, List.map_map]
    exact congrArg (w :: ·) hwords

def smallWords : Words where
  weightsPhysAddr := 0x2000#32
  weightsNbytes := 144#32
  actsPhysAddr := 0x1000#32
  actsNbytes := 160#32
  resultPhysAddr := 0x3000#32
  resultNbytes := 32#32
  numQ1Blocks := 1#32
  numRowblocks := 1#32

theorem smallWords_proper : Proper smallWords where
  q1Pos := by decide
  q1Le := by decide
  rbPos := by decide
  rbLe := by decide
  actsNbytes := by decide
  weightsNbytes := by decide
  resultNbytes := by decide
  acts_apart i hi := by
    have hlt : i < 160 := hi
    have hacts : smallWords.actsPhysAddr.toNat = 0x1000 := rfl
    have hresult : smallWords.resultPhysAddr.toNat = 0x3000 := rfl
    omega
  weights_apart i hi := by
    have hlt : i < 144 := hi
    have hweights : smallWords.weightsPhysAddr.toNat = 0x2000 := rfl
    have hresult : smallWords.resultPhysAddr.toNat = 0x3000 := rfl
    omega

/-- The next chunk: two blocks for two rowblocks, behind the first one. -/
def nextWords : Words where
  weightsPhysAddr := 0x2100#32
  weightsNbytes := 576#32
  actsPhysAddr := 0x1100#32
  actsNbytes := 320#32
  resultPhysAddr := 0x3020#32
  resultNbytes := 64#32
  numQ1Blocks := 2#32
  numRowblocks := 2#32

theorem nextWords_proper : Proper nextWords where
  q1Pos := by decide
  q1Le := by decide
  rbPos := by decide
  rbLe := by decide
  actsNbytes := by decide
  weightsNbytes := by decide
  resultNbytes := by decide
  acts_apart i hi := by
    have hlt : i < 320 := hi
    have hacts : nextWords.actsPhysAddr.toNat = 0x1100 := rfl
    have hresult : nextWords.resultPhysAddr.toNat = 0x3020 := rfl
    omega
  weights_apart i hi := by
    have hlt : i < 576 := hi
    have hweights : nextWords.weightsPhysAddr.toNat = 0x2100 := rfl
    have hresult : nextWords.resultPhysAddr.toNat = 0x3020 := rfl
    omega

/-- Two chunks of different sizes, the second one on the memory that the first one has left. -/
theorem calls_on_kernel_two :
    ∃ inp first second e, Master Q1a8.AxiLite.resetTop inp ∧
      Calls Q1a8.AxiLite.resetTop inp [first, second] 0 e ∧
      first.words = smallWords ∧ second.words = nextWords ∧ first.dram = BitVec.ofNat 8 ∧
      second.dram' = chunkMemory nextWords (chunkMemory smallWords (BitVec.ofNat 8)) ∧
      second.cycles = BitVec.ofNat 32
        (busyCycles Q1a8.AxiLite.resetTop inp second.first second.last) ∧
      second.OnBoard Q1a8.AxiLite.resetTop inp := by
  have hs : Q1a8.AxiLite.resetTop.AfterReset := ⟨default, _, rfl, rfl⟩
  have hproper : ∀ w ∈ [smallWords, nextWords], Proper w := by
    simp only [List.forall_mem_cons, List.not_mem_nil, false_implies, implies_true, and_true]
    exact ⟨smallWords_proper, nextWords_proper⟩
  obtain ⟨inp, calls, e, hm, hcalls, hwords, hlinked⟩ :=
    exists_calls (waits_of_reset hs) hproper (BitVec.ofNat 8)
  obtain ⟨first, rest, rfl, hfirst, hrest⟩ := List.map_eq_cons_iff.mp hwords
  obtain ⟨second, rest', rfl, hsecond, hrest'⟩ := List.map_eq_cons_iff.mp hrest
  obtain rfl := List.map_eq_nil_iff.mp hrest'
  obtain ⟨hdram, hdram', -⟩ := hlinked
  have hall := calls_on_kernel hs hm hcalls fun call hcall =>
    hproper _ (hwords ▸ List.mem_map_of_mem hcall)
  obtain ⟨hmemory, -⟩ := hall first List.mem_cons_self
  obtain ⟨hmemory', hcycles, hboard⟩ := hall second (List.mem_cons_of_mem _ List.mem_cons_self)
  refine ⟨inp, first, second, e, hm, hcalls, hfirst, hsecond, hdram, ?_, hcycles, hboard⟩
  rw [hmemory', hdram', hmemory, hdram, hfirst, hsecond]

end Board.Runner
