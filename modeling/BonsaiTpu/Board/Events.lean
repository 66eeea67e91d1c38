-- SUMMARY: The accesses that the chunk runner makes, in order: what a start and a wait that return 0 have read and written.
import BonsaiTpu.Board.Runner

/-!
# The accesses of the runner

A device that notes its accesses tells what a run of the C code has done to the registers: a
start that returns 0 has written the registers of its chunk, a wait that returns 0 has seen the
result channel idle and `done_latched` set.
-/

namespace Board.Runner

/-! ## The accesses of a call -/

/-- An access with the value that it read or wrote. -/
inductive Event where
  | read (regs : Regs) (off : Nat) (value : BitVec 32)
  | write (w : Write)

def Event.regs : Event → Regs
  | .read regs .. => regs
  | .write w => w.regs

section

variable {δ α β : Type} {dev : Device δ}

/-- A device whose accesses are noted. -/
def Device.noted (dev : Device δ) : Device (δ × List Event) where
  read regs off st :=
    let answer := dev.read regs off st.1
    (answer.1, answer.2, st.2 ++ [.read regs off answer.1])
  write w st := (dev.write w st.1, st.2 ++ [.write w])

/-- The result of a run and the accesses that it makes. -/
def Notes (x : Access (δ × List Event) α) (post : α → List Event → Prop) : Prop :=
  ∀ bus, ∃ events, (x bus).2.state.2 = bus.state.2 ++ events ∧ post (x bus).1 events

variable {x : Access (δ × List Event) α} {post post' : α → List Event → Prop}

theorem Notes.pure {v : α} (h : post v []) : Notes (Pure.pure v : Access (δ × List Event) α) post :=
  fun _ => ⟨[], (List.append_nil _).symm, h⟩

theorem Notes.mono (h : Notes x post) (himp : ∀ v events, post v events → post' v events) :
    Notes x post' := by
  intro bus
  obtain ⟨events, hevents, hpost⟩ := h bus
  exact ⟨events, hevents, himp _ _ hpost⟩

theorem Notes.bind {f : α → Access (δ × List Event) β} {postf : β → List Event → Prop}
    (h : Notes x post)
    (hf : ∀ v events, post v events → Notes (f v) fun w events' => postf w (events ++ events')) :
    Notes (x >>= f) postf := by
  intro bus
  obtain ⟨events, hevents, hpost⟩ := h bus
  obtain ⟨events', hevents', hpost'⟩ := hf _ _ hpost (x bus).2
  refine ⟨events ++ events', ?_, hpost'⟩
  rw [bind_apply, hevents', hevents, List.append_assoc]

theorem notes_mmioRd (regs : Regs) (off : Nat) :
    Notes (mmioRd dev.noted regs off) fun v events => events = [.read regs off v] :=
  fun _ => ⟨_, rfl, rfl⟩

theorem notes_mmioWr (regs : Regs) (off : Nat) (value : BitVec 32) :
    Notes (mmioWr dev.noted regs off value) fun _ events => events = [.write ⟨regs, off, value⟩] :=
  fun _ => ⟨_, rfl, rfl⟩

/-- The accesses are to some registers only. -/
def Within (regs : Regs) (events : List Event) : Prop := ∀ event ∈ events, event.regs = regs

theorem Within.append {regs : Regs} {events events' : List Event} (h : Within regs events)
    (h' : Within regs events') :
    Within regs (events ++ events') := by
  intro event hevent
  rcases List.mem_append.mp hevent with hmem | hmem
  · exact h event hmem
  · exact h' event hmem

theorem within_singleton (event : Event) : Within event.regs [event] := by
  intro event' hevent
  rw [List.mem_singleton.mp hevent]

theorem notes_awaitReset (regs : Regs) (off count : Nat) :
    Notes (awaitReset dev.noted regs off count) fun _ => Within regs := by
  induction count with
  | zero => exact .pure fun _ h => absurd h List.not_mem_nil
  | succ count ih =>
    refine .bind (notes_mmioRd regs off) fun cr events hevents => ?_
    subst hevents
    split
    · exact .pure (within_singleton _)
    · exact ih.mono fun _ _ h => (within_singleton _).append h

theorem notes_ensureDmaRunning (regs : Regs) (off : Nat) :
    Notes (ensureDmaRunning dev.noted regs off) fun _ => Within regs := by
  have hread : Notes (mmioRd dev.noted regs off) fun _ => Within regs :=
    (notes_mmioRd regs off).mono fun _ _ h => h ▸ within_singleton _
  have hwrite (value : BitVec 32) : Notes (mmioWr dev.noted regs off value) fun _ => Within regs :=
    (notes_mmioWr regs off value).mono fun _ _ h => h ▸ within_singleton _
  have hpure (rc : Int) {events : List Event} (h : Within regs events) :
      Notes (Pure.pure rc : Access (δ × List Event) Int) fun _ events' =>
    Within regs (events ++ events') :=
    .pure (by rwa [List.append_nil])
  refine .bind hread fun cr e1 h1 => ?_
  split
  · exact hpure _ h1
  · refine .bind (hwrite _) fun _ e2 h2 =>
      .bind (notes_awaitReset regs off _) fun _ e3 h3 => .bind hread fun cr e4 h4 => ?_
    split
    · refine .pure ?_
      rw [List.append_nil]
      exact h1.append (h2.append (h3.append h4))
    · refine .bind (hwrite _) fun _ e5 h5 => .pure ?_
      rw [List.append_nil]
      exact h1.append (h2.append (h3.append (h4.append h5)))

/-- Reads only. -/
def Reads (events : List Event) : Prop :=
  ∀ event ∈ events, ∃ regs off value, event = .read regs off value

theorem Reads.append {events events' : List Event} (h : Reads events) (h' : Reads events') :
    Reads (events ++ events') := by
  intro event hevent
  rcases List.mem_append.mp hevent with hmem | hmem
  · exact h event hmem
  · exact h' event hmem

theorem reads_singleton (regs : Regs) (off : Nat) (value : BitVec 32) :
    Reads [.read regs off value] := by
  intro event hevent
  exact ⟨regs, off, value, List.mem_singleton.mp hevent⟩

/-- A channel that was seen idle, without an error. -/
def SeenIdle (regs : Regs) (dmasrOff : Nat) (events : List Event) : Prop :=
  ∃ sr, .read regs dmasrOff sr ∈ events ∧ sr &&& DMASR_ERR_MASK = 0 ∧ sr &&& DMASR_IDLE ≠ 0

theorem notes_pollDmaIdle (regs : Regs) (dmasrOff pollLimit : Nat) :
    Notes (pollDmaIdle dev.noted regs dmasrOff pollLimit) fun rc events =>
      (Within regs events ∧ Reads events) ∧ (rc = 0 → SeenIdle regs dmasrOff events) := by
  induction pollLimit with
  | zero =>
    exact .pure ⟨⟨fun _ h => absurd h List.not_mem_nil, fun _ h => absurd h List.not_mem_nil⟩,
      fun h => by cases h⟩
  | succ n ih =>
    refine .bind (notes_mmioRd regs dmasrOff) fun sr events hevents => ?_
    subst hevents
    have hone : Within regs [.read regs dmasrOff sr] ∧ Reads [.read regs dmasrOff sr] :=
      ⟨within_singleton _, reads_singleton _ _ _⟩
    split
    · exact .pure ⟨hone, fun h => by cases h⟩
    · next herr =>
      split
      · next hidle =>
          exact .pure ⟨hone, fun _ => ⟨sr, List.mem_singleton_self _, not_ne_iff.mp herr, hidle⟩⟩
      · refine ih.mono fun rc events' h =>
          ⟨⟨hone.1.append h.1.1, hone.2.append h.1.2⟩, fun hrc => ?_⟩
        obtain ⟨sr', hmem, hok⟩ := h.2 hrc
        exact ⟨sr', List.mem_append_right _ hmem, hok⟩

/-- Reads of the status up to one with `KSTAT_DONE`, and of the cycles. -/
def SeenDone (cycles : BitVec 32) (events : List Event) : Prop :=
  ∃ polls status, (∀ event ∈ polls, ∃ value, event = .read .kernel KREG_STATUS value) ∧
    status &&& KSTAT_DONE ≠ 0 ∧
    events = polls ++ [.read .kernel KREG_STATUS status, .read .kernel KREG_CYCLES cycles]

theorem notes_pollDone (pollLimit : Nat) :
    Notes (pollDone dev.noted pollLimit) fun r events => ∀ cycles,
      r = (0, some cycles) → SeenDone cycles events := by
  induction pollLimit with
  | zero => exact .pure fun cycles h => by cases h
  | succ n ih =>
    refine .bind (notes_mmioRd .kernel KREG_STATUS) fun status events hevents => ?_
    subst hevents
    split
    · next hdone =>
      refine .bind (notes_mmioRd .kernel KREG_CYCLES) fun cycles events hevents =>
        .pure fun cycles' h => ?_
      subst hevents
      cases h
      exact ⟨[], status, fun _ h => absurd h List.not_mem_nil, hdone, rfl⟩
    · refine ih.mono fun r events h cycles hr => ?_
      obtain ⟨polls, status', hpolls, hdone, rfl⟩ := h cycles hr
      refine ⟨.read .kernel KREG_STATUS status :: polls, status',
        fun event hevent => ?_, hdone, rfl⟩
      rcases List.mem_cons.mp hevent with rfl | hmem
      · exact ⟨status, rfl⟩
      · exact hpolls event hmem

/-- No access to the kernel. -/
def Beside (events : List Event) : Prop := ∀ event ∈ events, event.regs ≠ .kernel

theorem Beside.append {events events' : List Event} (h : Beside events) (h' : Beside events') :
    Beside (events ++ events') := by
  intro event hevent
  rcases List.mem_append.mp hevent with hmem | hmem
  · exact h event hmem
  · exact h' event hmem

theorem Within.beside {regs : Regs} {events : List Event} (h : Within regs events)
    (hne : regs ≠ .kernel) : Beside events :=
  fun event hevent => h event hevent ▸ hne

variable (dev) in
/-- A start that returns 0 has made the writes of its chunk, after accesses to the engines. -/
theorem notes_startMatmulChunk (ptrs : Pointers) (w : Words) :
    Notes (startMatmulChunk dev.noted ptrs w) fun rc events =>
      rc = 0 → ∃ ups, Beside ups ∧ events = ups ++ (chunkWrites w).map .write := by
  have hup (regs : Regs) (off : Nat) (hne : regs ≠ .kernel) :
      Notes (ensureDmaRunning dev.noted regs off) fun _ => Beside :=
    (notes_ensureDmaRunning regs off).mono fun _ _ h => h.beside hne
  unfold startMatmulChunk
  split
  · exact .pure fun h => by cases h
  · refine .bind (hup .dmaW _ (by decide)) fun rc e1 h1 => ?_
    split
    · exact .pure fun h => by cases h
    · refine .bind (hup .dmaW _ (by decide)) fun rc e2 h2 => ?_
      split
      · exact .pure fun h => by cases h
      · refine .bind (hup .dmaA _ (by decide)) fun rc e3 h3 => ?_
        split
        · exact .pure fun h => by cases h
        · have hwrites : Notes (do
              mmioWr dev.noted .kernel KREG_NUM_Q1_BLOCKS w.numQ1Blocks
              mmioWr dev.noted .kernel KREG_NUM_ROWBLOCKS w.numRowblocks
              mmioWr dev.noted .dmaW DMA_S2MM_DA w.resultPhysAddr
              mmioWr dev.noted .dmaW DMA_S2MM_LENGTH w.resultNbytes
              mmioWr dev.noted .kernel KREG_CTRL KCTRL_START
              mmioWr dev.noted .dmaA DMA_MM2S_SA w.actsPhysAddr
              mmioWr dev.noted .dmaA DMA_MM2S_LENGTH w.actsNbytes
              mmioWr dev.noted .dmaW DMA_MM2S_SA w.weightsPhysAddr
              mmioWr dev.noted .dmaW DMA_MM2S_LENGTH w.weightsNbytes
              Pure.pure (0 : Int)) fun _ events => events = (chunkWrites w).map .write := by
            intro bus
            refine ⟨_, ?_, rfl⟩
            simp only [bind_apply, mmioWr, Device.noted, chunkWrites, List.append_assoc,
              List.cons_append, List.nil_append, List.map_cons, List.map_nil]
            rfl
          refine hwrites.mono fun _ events h _ => ⟨e1 ++ (e2 ++ e3), h1.append (h2.append h3), ?_⟩
          rw [h, List.append_assoc, List.append_assoc]

variable (dev) in
/-- A wait that returns 0 has seen the result channel idle and the kernel done. -/
theorem notes_waitMatmulChunk (ptrs : Pointers) (pollLimit : BitVec 32) :
    Notes (waitMatmulChunk dev.noted ptrs pollLimit) fun r events => ∀ cycles,
      r = (0, some cycles) →
      ∃ waits polls, (Beside waits ∧ Reads waits) ∧ SeenIdle .dmaW DMA_S2MM_DMASR waits ∧
        SeenDone cycles polls ∧ events = waits ++ polls := by
  have hfail (rc : Int) {post : BitVec 32 → List Event → Prop} :
      Notes (Pure.pure (rc, none) : Access (δ × List Event) (Int × Option (BitVec 32)))
        fun r events =>
        ∀ cycles, r = (0, some cycles) → post cycles events :=
    .pure fun cycles h => by cases congrArg Prod.snd h
  unfold waitMatmulChunk
  split
  · exact hfail _
  · refine .bind (notes_pollDmaIdle .dmaA DMA_MM2S_DMASR _) fun rc e1 h1 => ?_
    split
    · exact hfail _
    · refine .bind (notes_pollDmaIdle .dmaW DMA_MM2S_DMASR _) fun rc e2 h2 => ?_
      split
      · exact hfail _
      · refine .bind (notes_pollDmaIdle .dmaW DMA_S2MM_DMASR _) fun rc e3 h3 => ?_
        split
        · exact hfail _
        · next hrc =>
          refine (notes_pollDone _).mono fun r polls hpolls cycles hr => ?_
          obtain ⟨sr, hmem, hok⟩ := h3.2 (not_ne_iff.mp hrc)
          refine ⟨e1 ++ (e2 ++ e3), polls, ⟨?_, ?_⟩, ⟨sr, ?_, hok⟩, hpolls cycles hr, ?_⟩
          · exact (h1.1.1.beside (by decide)).append
              ((h2.1.1.beside (by decide)).append (h3.1.1.beside (by decide)))
          · exact h1.1.2.append (h2.1.2.append h3.1.2)
          · exact List.mem_append_right _ (List.mem_append_right _ hmem)
          · rw [List.append_assoc, List.append_assoc]

end

/-! ## What the engines are told -/

/-- The value of a write to a register. -/
def Event.written (regs : Regs) (off : Nat) : Event → Option (BitVec 32)
  | .read .. => none
  | .write w => if w.regs = regs ∧ w.off = off then some w.value else none

/-- The last value written to a register. -/
def lastWrite (regs : Regs) (off : Nat) (events : List Event) : Option (BitVec 32) :=
  (events.filterMap (Event.written regs off)).getLast?

/-- The transfers of a chunk are set at the engines. -/
structure Programmed (events : List Event) (w : Words) : Prop where
  actsPhysAddr : lastWrite .dmaA DMA_MM2S_SA events = some w.actsPhysAddr
  actsNbytes : lastWrite .dmaA DMA_MM2S_LENGTH events = some w.actsNbytes
  weightsPhysAddr : lastWrite .dmaW DMA_MM2S_SA events = some w.weightsPhysAddr
  weightsNbytes : lastWrite .dmaW DMA_MM2S_LENGTH events = some w.weightsNbytes
  resultPhysAddr : lastWrite .dmaW DMA_S2MM_DA events = some w.resultPhysAddr
  resultNbytes : lastWrite .dmaW DMA_S2MM_LENGTH events = some w.resultNbytes

/-- The result channel was seen idle after its last start. -/
def Drained (events : List Event) : Prop :=
  ∃ before nbytes after, events = before ++ .write ⟨.dmaW, DMA_S2MM_LENGTH, nbytes⟩ :: after ∧
    (∀ nbytes', .write ⟨.dmaW, DMA_S2MM_LENGTH, nbytes'⟩ ∉ after) ∧
    SeenIdle .dmaW DMA_S2MM_DMASR after

section

variable {regs : Regs} {off : Nat} {events events' : List Event}

theorem Reads.written (h : Reads events) : events.filterMap (Event.written regs off) = [] := by
  refine List.filterMap_eq_nil_iff.mpr fun event hevent => ?_
  obtain ⟨_, _, _, rfl⟩ := h event hevent
  rfl

theorem lastWrite_reads (h : Reads events') :
    lastWrite regs off (events ++ events') = lastWrite regs off events := by
  rw [lastWrite, List.filterMap_append, h.written, List.append_nil, lastWrite]

theorem lastWrite_writes {value : BitVec 32} (h : lastWrite regs off events' = some value) :
    lastWrite regs off (events ++ events') = some value := by
  rw [lastWrite] at h ⊢
  rw [List.filterMap_append, List.getLast?_append, h, Option.some_or]

theorem SeenDone.reads {cycles : BitVec 32} (h : SeenDone cycles events) : Reads events := by
  obtain ⟨polls, status, hpolls, -, rfl⟩ := h
  refine Reads.append (fun event hevent => ?_)
    ((reads_singleton _ _ _).append (reads_singleton _ _ _))
  obtain ⟨value, rfl⟩ := hpolls event hevent
  exact ⟨_, _, _, rfl⟩

end

end Board.Runner
