-- SUMMARY: The AXI-Lite front end of the kernel: every write and every read takes effect once and is answered once.
import BonsaiTpu.Base.Handshake
import BonsaiTpu.Kernel.Top

/-!
# The AXI-Lite front end

The host writes and reads the registers of `q1a8_kernel_top.v` over the five channels of
AXI-Lite. A write takes its address and its data in one cycle, and a read is accepted in the cycle
before its handshake. Whatever the host's timing is, as long as it keeps what it
offers: the registers are those that the writes so far left, and each request is answered once.
-/

namespace Q1a8

open Handshake

/-! ## Register writes -/

/-- What a write handshake carries. -/
structure Write where
  addr : BitVec 8
  data : BitVec 32
  strb : BitVec 4

/-- The registers that the host writes. -/
structure Counts where
  numQ1Blocks : BitVec 16
  numRowblocks : BitVec 16

namespace Write

variable (w : Write)

/-- The design decodes six bits of the address. -/
def offset : BitVec 6 := w.addr.extractLsb' 0 6

/-- A byte of a count is written if its strobe is set. -/
def byte (count : BitVec 16) (b : Nat) : BitVec 8 :=
  if w.strb.getLsbD b then w.data.extractLsb' (8 * b) 8 else count.extractLsb' (8 * b) 8

def update (count : BitVec 16) : BitVec 16 := w.byte count 1 ++ w.byte count 0

/-- The counts after a write. -/
def apply (c : Counts) : Counts :=
  if w.offset = 0x10#6 then { c with numQ1Blocks := w.update c.numQ1Blocks }
  else if w.offset = 0x14#6 then { c with numRowblocks := w.update c.numRowblocks }
  else c

/-- A write to `CTRL` that starts the kernel. -/
def starts : Bool := w.offset == 0x08#6 && w.strb.getLsbD 0 && w.data.getLsbD 0

/-- One strobed byte write of `writeCount`. -/
def setByte (b : Nat) (count : BitVec 16) : BitVec 16 :=
  if w.strb.getLsbD b then count.setPart (8 * b) (w.data.extractLsb' (8 * b) 8) else count

theorem extractLsb'_setByte_self (count : BitVec 16) {b : Nat} (hb : b < 2) :
    (w.setByte b count).extractLsb' (8 * b) 8 = w.byte count b := by
  unfold setByte byte
  split
  · exact BitVec.extractLsb'_setPart_self _ _ _ (by omega)
  · rfl

theorem extractLsb'_setByte_ne (count : BitVec 16) {b c : Nat} (hne : c ≠ b) :
    (w.setByte b count).extractLsb' (8 * c) 8 = count.extractLsb' (8 * c) 8 := by
  unfold setByte
  split
  · exact BitVec.extractLsb'_setPart_disjoint _ _ _ _ _ (by omega)
  · rfl

/-- A count is its two bytes. -/
theorem extract_bytes (count : BitVec 16) :
    count.extractLsb' (8 * 1) 8 ++ count.extractLsb' (8 * 0) 8 = count := by
  apply BitVec.eq_of_getLsbD_eq
  intro j hj
  rw [BitVec.getLsbD_append, BitVec.getLsbD_extractLsb', BitVec.getLsbD_extractLsb']
  by_cases hlow : j < 8
  · simp [hlow]
  · have hhigh : j - 8 < 8 := by omega
    have hj' : 8 + (j - 8) = j := by omega
    simp [hlow, hhigh, hj']

/-- The design writes a count byte by byte. -/
theorem writeCount_eq (count : BitVec 16) : writeCount count w.strb w.data = w.update count := by
  have hset : writeCount count w.strb w.data = w.setByte 1 (w.setByte 0 count) := rfl
  have hlow : (w.setByte 1 (w.setByte 0 count)).extractLsb' (8 * 0) 8 = w.byte count 0 := by
    rw [w.extractLsb'_setByte_ne _ (by decide), w.extractLsb'_setByte_self _ (by decide)]
  have hhigh : (w.setByte 1 (w.setByte 0 count)).extractLsb' (8 * 1) 8 = w.byte count 1 := by
    rw [w.extractLsb'_setByte_self _ (by decide), byte, byte,
      w.extractLsb'_setByte_ne _ (by decide)]
  rw [hset, update, ← hlow, ← hhigh, extract_bytes]

theorem apply_of_ne {c : Counts} (h10 : w.offset ≠ 0x10#6) (h14 : w.offset ≠ 0x14#6) :
    w.apply c = c := by
  rw [apply, if_neg h10, if_neg h14]

theorem starts_of_eq (h8 : w.offset = 0x08#6) :
    w.starts = (w.strb.getLsbD 0 && w.data.getLsbD 0) := by
  rw [starts, h8, beq_self_eq_true, Bool.true_and]

theorem starts_of_ne (h8 : w.offset ≠ 0x08#6) : w.starts = false := by
  rw [starts, beq_false_of_ne h8, Bool.false_and, Bool.false_and]

end Write

namespace Top

/-! ## Single steps -/

variable (t : Top) (i : TopInputs)

def counts : Counts := ⟨t.numQ1BlocksQ, t.numRowblocksQ⟩

/-- The write of a commit: the address was latched, data and strobes are on the wires. -/
def committed : Write := ⟨t.awaddrQ, i.sAxiWdata, i.sAxiWstrb⟩

/-- A commit is one register write, or a start. -/
theorem commit_eq (w : Write) (hdata : w.data = i.sAxiWdata) (hstrb : w.strb = i.sAxiWstrb) :
    t.commit i w.offset =
      { t with
        numQ1BlocksQ := (w.apply t.counts).numQ1Blocks
        numRowblocksQ := (w.apply t.counts).numRowblocks
        startStrobe := w.starts || t.startStrobe } := by
  rw [commit, ← hdata, ← hstrb]
  split
  case h_1 hoffset =>
    have h8 : w.offset = 0x08#6 := BitVec.eq_of_toNat_eq hoffset
    have h10 : w.offset ≠ 0x10#6 := by rw [h8]; decide
    have h14 : w.offset ≠ 0x14#6 := by rw [h8]; decide
    rw [w.apply_of_ne h10 h14, w.starts_of_eq h8]
    cases w.strb.getLsbD 0 && w.data.getLsbD 0 <;> rfl
  case h_2 hoffset =>
    have h10 : w.offset = 0x10#6 := BitVec.eq_of_toNat_eq hoffset
    have h8 : w.offset ≠ 0x08#6 := by rw [h10]; decide
    rw [w.starts_of_ne h8, Write.apply, if_pos h10, w.writeCount_eq]
    rfl
  case h_3 hoffset =>
    have h14 : w.offset = 0x14#6 := BitVec.eq_of_toNat_eq hoffset
    have h8 : w.offset ≠ 0x08#6 := by rw [h14]; decide
    have h10 : w.offset ≠ 0x10#6 := by rw [h14]; decide
    rw [w.starts_of_ne h8, Write.apply, if_neg h10, if_pos h14, w.writeCount_eq]
    rfl
  case h_4 h8 h10 h14 =>
    have hne8 : w.offset ≠ 0x08#6 := fun h => h8 (congrArg BitVec.toNat h)
    have hne10 : w.offset ≠ 0x10#6 := fun h => h10 (congrArg BitVec.toNat h)
    have hne14 : w.offset ≠ 0x14#6 := fun h => h14 (congrArg BitVec.toNat h)
    rw [w.apply_of_ne hne10 hne14, w.starts_of_ne hne8]
    rfl

section Step

variable {t i} (hrst : i.sAxiAresetn = true)

include hrst

/-- One edge of the write channel out of reset. -/
theorem writeChannel_eq : t.writeChannel i =
    { t with
      numQ1BlocksQ :=
  (if t.writeCommit then (t.committed i).apply t.counts else t.counts).numQ1Blocks
      numRowblocksQ :=
  (if t.writeCommit then (t.committed i).apply t.counts else t.counts).numRowblocks
      startStrobe := t.writeCommit && (t.committed i).starts
      awreadyQ := t.writeAccept i
      wreadyQ := t.writeAccept i
      awaddrQ := if t.writeAccept i then i.sAxiAwaddr else t.awaddrQ
      bvalidQ := t.writeCommit || (t.bvalidQ && !i.sAxiBready) } := by
  rw [writeChannel, hrst, Bool.not_true, if_neg Bool.false_ne_true]
  cases hcommit : t.writeCommit with
  | false => cases t.bvalidQ <;> cases i.sAxiBready <;> rfl
  | true =>
    rw [if_pos rfl, if_pos rfl, Bool.true_and, Bool.true_or]
    refine (commit_eq _ i (t.committed i) rfl rfl).trans ?_
    rw [Bool.or_false]
    rfl

theorem step_awreadyQ : (t.step i).awreadyQ = t.writeAccept i :=
  congrArg awreadyQ (writeChannel_eq hrst)

theorem step_wreadyQ : (t.step i).wreadyQ = t.writeAccept i :=
  congrArg wreadyQ (writeChannel_eq hrst)

theorem step_awaddrQ : (t.step i).awaddrQ = if t.writeAccept i then i.sAxiAwaddr else t.awaddrQ :=
  congrArg awaddrQ (writeChannel_eq hrst)

theorem step_bvalidQ : (t.step i).bvalidQ = (t.writeCommit || (t.bvalidQ && !i.sAxiBready)) :=
  congrArg bvalidQ (writeChannel_eq hrst)

theorem step_counts : (t.step i).counts = if t.writeCommit then (t.committed i).apply t.counts
    else t.counts :=
  congrArg counts (writeChannel_eq hrst)

theorem step_startStrobe : (t.step i).startStrobe = (t.writeCommit && (t.committed i).starts) :=
  congrArg startStrobe (writeChannel_eq hrst)

/-- One edge of the read channel out of reset. -/
theorem readChannel_eq : t.readChannel i =
    { t with
      arreadyQ := t.readAccept i
      rvalidQ := t.readAccept i || (t.rvalidQ && !i.sAxiRready)
      rdataQ := if t.readAccept i then t.register (i.sAxiAraddr.extractLsb' 0 6)
        else t.rdataQ } := by
  rw [readChannel, hrst, Bool.not_true, if_neg Bool.false_ne_true]
  cases t.readAccept i with
  | true => rfl
  | false => cases t.rvalidQ <;> cases i.sAxiRready <;> rfl

theorem step_arreadyQ : (t.step i).arreadyQ = t.readAccept i :=
  congrArg arreadyQ (readChannel_eq hrst)

theorem step_rvalidQ : (t.step i).rvalidQ = (t.readAccept i || (t.rvalidQ && !i.sAxiRready)) :=
  congrArg rvalidQ (readChannel_eq hrst)

theorem step_rdataQ :
    (t.step i).rdataQ = if t.readAccept i then t.register (i.sAxiAraddr.extractLsb' 0 6)
      else t.rdataQ :=
  congrArg rdataQ (readChannel_eq hrst)

theorem step_doneLatched :
    (t.step i).doneLatched = (!t.startStrobe && (t.kernelDone || t.doneLatched)) := by
  have hdone : (t.step i).doneLatched = t.doneStep i := rfl
  rw [hdone, doneStep, hrst, Bool.not_true, if_neg Bool.false_ne_true]
  cases t.startStrobe <;> cases t.kernelDone <;> rfl

end Step

/-- The registers of the front end after a reset edge. -/
structure Idle : Prop where
  counts : t.counts = ⟨0#16, 0#16⟩
  startStrobe : t.startStrobe = false
  doneLatched : t.doneLatched = false
  awreadyQ : t.awreadyQ = false
  wreadyQ : t.wreadyQ = false
  bvalidQ : t.bvalidQ = false
  arreadyQ : t.arreadyQ = false
  rvalidQ : t.rvalidQ = false

theorem AfterReset.idle {t : Top} (h : t.AfterReset) : t.Idle := by
  obtain ⟨t₀, i, hrst, rfl⟩ := h
  have hwrite : t₀.writeChannel i = { t₀ with
      awreadyQ := false, wreadyQ := false, bvalidQ := false, awaddrQ := 0#8
      numQ1BlocksQ := 0#16, numRowblocksQ := 0#16, startStrobe := false } := by
    rw [writeChannel, hrst, Bool.not_false, if_pos rfl]
  have hread : t₀.readChannel i =
      { t₀ with arreadyQ := false, rvalidQ := false, rdataQ := 0#32 } := by
    rw [readChannel, hrst, Bool.not_false, if_pos rfl]
  have hdone : t₀.doneStep i = false := by
    rw [doneStep, hrst, Bool.not_false, if_pos rfl]
  exact {
    counts := congrArg Top.counts hwrite
    startStrobe := congrArg Top.startStrobe hwrite
    doneLatched := hdone
    awreadyQ := congrArg Top.awreadyQ hwrite
    wreadyQ := congrArg Top.wreadyQ hwrite
    bvalidQ := congrArg Top.bvalidQ hwrite
    arreadyQ := congrArg Top.arreadyQ hread
    rvalidQ := congrArg Top.rvalidQ hread }

/-- No access is under way. -/
structure Settled : Prop where
  awreadyQ : t.awreadyQ = false
  wreadyQ : t.wreadyQ = false
  bvalidQ : t.bvalidQ = false
  arreadyQ : t.arreadyQ = false
  rvalidQ : t.rvalidQ = false

theorem AfterReset.settled {t : Top} (h : t.AfterReset) : t.Settled :=
  ⟨h.idle.awreadyQ, h.idle.wreadyQ, h.idle.bvalidQ, h.idle.arreadyQ, h.idle.rvalidQ⟩

end Top

/-! ## Runs -/

namespace AxiLite

variable (s : Top) (inp : Nat → TopInputs)

/-- The state in each cycle. -/
def cycle (n : Nat) : Top := Machine.trace Top.step s inp n

def awChannel : Channel (BitVec 8) where
  valid n := (inp n).sAxiAwvalid
  ready n := (cycle s inp n).sAxiAwready
  payload n := (inp n).sAxiAwaddr

def wChannel : Channel (BitVec 32) where
  valid n := (inp n).sAxiWvalid
  ready n := (cycle s inp n).sAxiWready
  payload n := (inp n).sAxiWdata

def bChannel : Channel (BitVec 2) where
  valid n := (cycle s inp n).sAxiBvalid
  ready n := (inp n).sAxiBready
  payload _ := Top.sAxiBresp

def arChannel : Channel (BitVec 8) where
  valid n := (inp n).sAxiArvalid
  ready n := (cycle s inp n).sAxiArready
  payload n := (inp n).sAxiAraddr

def rChannel : Channel (BitVec 32 × BitVec 2) where
  valid n := (cycle s inp n).sAxiRvalid
  ready n := (inp n).sAxiRready
  payload n := ((cycle s inp n).sAxiRdata, Top.sAxiRresp)

/-- A host that keeps what it offers until the handshake. -/
structure Master : Prop where
  aresetn : ∀ n, (inp n).sAxiAresetn = true
  aw : (awChannel s inp).Stable
  w : (wChannel s inp).Stable
  ar : (arChannel s inp).Stable

/-- The write of a handshake in cycle `n`. -/
def writeAt (n : Nat) : Write := ⟨(inp n).sAxiAwaddr, (inp n).sAxiWdata, (inp n).sAxiWstrb⟩

/-- The value of the register that is read by a handshake in cycle `c + 1`. -/
def readAt (c : Nat) : BitVec 32 :=
  (cycle s inp c).register ((inp (c + 1)).sAxiAraddr.extractLsb' 0 6)

/-- Every write takes effect once, in the cycle of its handshake, and has one response. -/
structure WritesOnce : Prop where
  together : ∀ n, (wChannel s inp).transfer n = (awChannel s inp).transfer n
  counts : ∀ n, (cycle s inp n).counts =
    (occurred (awChannel s inp).transfer (writeAt inp) n).foldl (fun c w => w.apply c) ⟨0#16, 0#16⟩
  unstarted : (cycle s inp 0).startStrobe = false
  started : ∀ n, (cycle s inp (n + 1)).startStrobe =
    ((awChannel s inp).transfer n && (writeAt inp n).starts)
  answered : Answers (awChannel s inp).transfer (fun _ => 0b00#2) (bChannel s inp)

/-- Every read has one response, with the value of its register in the cycle in which it was
    accepted. -/
structure ReadsOnce : Prop where
  first : (arChannel s inp).transfer 0 = false
  accepted : ∀ c, (arChannel s inp).transfer (c + 1) = (cycle s inp c).readAccept (inp c)
  answered : Answers (fun c => (arChannel s inp).transfer (c + 1))
    (fun c => (readAt s inp c, 0b00#2)) (rChannel s inp)

/-- `done_latched` is set if the kernel was done since the last start. -/
def DoneLatched : Prop :=
  ∀ n, (cycle s inp n).doneLatched = true ↔
    ∃ c < n, (cycle s inp c).kernelDone = true ∧ ∀ k,
    c ≤ k → k < n → (cycle s inp k).startStrobe = false

section Runs

variable {s inp}

theorem cycle_succ (n : Nat) : cycle s inp (n + 1) = (cycle s inp n).step (inp n) := rfl

theorem aw_transfer_zero (hs : s.Settled) : (awChannel s inp).transfer 0 = false := by
  have hready : (awChannel s inp).ready 0 = false := hs.awreadyQ
  rw [Channel.transfer, hready, Bool.and_false]

theorem ar_transfer_zero (hs : s.Settled) : (arChannel s inp).transfer 0 = false := by
  have hready : (arChannel s inp).ready 0 = false := hs.arreadyQ
  rw [Channel.transfer, hready, Bool.and_false]

variable (hs : s.Settled) (hm : Master s inp)

include hm

/-! ## The write channels of a run -/

/-- An accepted write is still offered in the next cycle. -/
theorem offered_of_writeAccept {n : Nat} (h : (cycle s inp n).writeAccept (inp n) = true) :
    (inp (n + 1)).sAxiAwvalid = true ∧ (inp (n + 1)).sAxiWvalid = true ∧
      (inp (n + 1)).sAxiAwaddr = (inp n).sAxiAwaddr := by
  simp only [Top.writeAccept, Bool.and_eq_true, Bool.not_eq_true'] at h
  obtain ⟨⟨⟨⟨hawready, hwready⟩, hawvalid⟩, hwvalid⟩, -⟩ := h
  obtain ⟨hawvalid', haddr⟩ := hm.aw n hawvalid hawready
  exact ⟨hawvalid', (hm.w n hwvalid hwready).1, haddr⟩

/-- The address handshake comes in the cycle after a write was accepted. -/
theorem aw_transfer_succ (n : Nat) :
    (awChannel s inp).transfer (n + 1) = (cycle s inp n).writeAccept (inp n) := by
  have hready : (awChannel s inp).ready (n + 1) = (cycle s inp n).writeAccept (inp n) :=
    Top.step_awreadyQ (hm.aresetn n)
  rw [Channel.transfer, hready]
  cases h : (cycle s inp n).writeAccept (inp n) with
  | false => exact Bool.and_false _
  | true =>
    have hvalid : (awChannel s inp).valid (n + 1) = true := (offered_of_writeAccept hm h).1
    rw [hvalid, Bool.and_true]

/-- So does the data handshake. -/
theorem w_transfer_succ (n : Nat) :
    (wChannel s inp).transfer (n + 1) = (cycle s inp n).writeAccept (inp n) := by
  have hready : (wChannel s inp).ready (n + 1) = (cycle s inp n).writeAccept (inp n) :=
    Top.step_wreadyQ (hm.aresetn n)
  rw [Channel.transfer, hready]
  cases h : (cycle s inp n).writeAccept (inp n) with
  | false => exact Bool.and_false _
  | true =>
    have hvalid : (wChannel s inp).valid (n + 1) = true := (offered_of_writeAccept hm h).2.1
    rw [hvalid, Bool.and_true]

/-- The next commit is a write that was accepted. -/
theorem writeCommit_succ (n : Nat) :
    (cycle s inp (n + 1)).writeCommit = (cycle s inp n).writeAccept (inp n) := by
  rw [cycle_succ, Top.writeCommit, Top.step_awreadyQ (hm.aresetn n),
    Top.step_wreadyQ (hm.aresetn n), Bool.and_self]

/-- No response waits while a write commits. -/
theorem bvalidQ_of_writeAccept {n : Nat} (h : (cycle s inp n).writeAccept (inp n) = true) :
    (cycle s inp (n + 1)).bvalidQ = false := by
  simp only [Top.writeAccept, Bool.and_eq_true, Bool.not_eq_true'] at h
  obtain ⟨⟨⟨⟨hawready, -⟩, -⟩, -⟩, hbvalid⟩ := h
  rw [cycle_succ, Top.step_bvalidQ (hm.aresetn n), Top.writeCommit, hawready, hbvalid,
    Bool.false_and, Bool.false_and, Bool.or_false]

/-- The address that was latched is that of the handshake. -/
theorem committed_of_writeAccept {n : Nat} (h : (cycle s inp n).writeAccept (inp n) = true) :
    (cycle s inp (n + 1)).committed (inp (n + 1)) = writeAt inp (n + 1) := by
  rw [cycle_succ, Top.committed, Top.step_awaddrQ (hm.aresetn n), if_pos h,
    ← (offered_of_writeAccept hm h).2.2, writeAt]

include hs

theorem w_transfer_eq (n : Nat) : (wChannel s inp).transfer n = (awChannel s inp).transfer n := by
  cases n with
  | zero =>
    have hready : (wChannel s inp).ready 0 = false := hs.wreadyQ
    rw [aw_transfer_zero hs, Channel.transfer, hready, Bool.and_false]
  | succ n => rw [aw_transfer_succ hm, w_transfer_succ hm]

/-- A write commits in the cycle of its handshake. -/
theorem writeCommit_eq (n : Nat) : (cycle s inp n).writeCommit = (awChannel s inp).transfer n := by
  cases n with
  | zero =>
    have hready : (cycle s inp 0).awreadyQ = false := hs.awreadyQ
    rw [aw_transfer_zero hs, Top.writeCommit, hready, Bool.false_and]
  | succ n => rw [aw_transfer_succ hm, writeCommit_succ hm]

theorem committed_eq {n : Nat} (h : (awChannel s inp).transfer n = true) :
    (cycle s inp n).committed (inp n) = writeAt inp n := by
  cases n with
  | zero =>
    rw [aw_transfer_zero hs] at h
    cases h
  | succ n =>
    rw [aw_transfer_succ hm] at h
    exact committed_of_writeAccept hm h

theorem bvalidQ_of_transfer {n : Nat} (h : (awChannel s inp).transfer n = true) :
    (cycle s inp n).bvalidQ = false := by
  cases n with
  | zero => exact hs.bvalidQ
  | succ n =>
    rw [aw_transfer_succ hm] at h
    exact bvalidQ_of_writeAccept hm h

/-- A write handshake, and nothing else, changes the counts. -/
theorem counts_succ (n : Nat) : (cycle s inp (n + 1)).counts =
    if (awChannel s inp).transfer n then (writeAt inp n).apply (cycle s inp n).counts
    else (cycle s inp n).counts := by
  rw [cycle_succ, Top.step_counts (hm.aresetn n), writeCommit_eq hs hm]
  split
  case isTrue h => rw [committed_eq hs hm h]
  case isFalse => rfl

/-- Only the handshake of a starting write raises the strobe, for one cycle. -/
theorem startStrobe_succ (n : Nat) :
    (cycle s inp (n + 1)).startStrobe =
      ((awChannel s inp).transfer n && (writeAt inp n).starts) := by
  rw [cycle_succ, Top.step_startStrobe (hm.aresetn n), writeCommit_eq hs hm]
  cases h : (awChannel s inp).transfer n with
  | false => rw [Bool.false_and, Bool.false_and]
  | true => rw [committed_eq hs hm h]

/-- The response register is loaded by the handshakes. -/
theorem bBuffer : Buffer (awChannel s inp).transfer (fun _ => 0b00#2) (bChannel s inp) where
  empty := hs.bvalidQ
  load n h := by
    have hvalid : (bChannel s inp).valid (n + 1) = true := by
      have hstep : (bChannel s inp).valid (n + 1) = ((cycle s inp n).writeCommit || _) :=
        Top.step_bvalidQ (hm.aresetn n)
      rw [hstep, writeCommit_eq hs hm, h, Bool.true_or]
    exact ⟨bvalidQ_of_transfer hs hm h, hvalid, rfl⟩
  keep n h := by
    have hvalid : (bChannel s inp).valid (n + 1) =
        ((bChannel s inp).valid n && !(bChannel s inp).ready n) := by
      have hstep : (bChannel s inp).valid (n + 1) = ((cycle s inp n).writeCommit || _) :=
        Top.step_bvalidQ (hm.aresetn n)
      rw [hstep, writeCommit_eq hs hm, h, Bool.false_or]
      rfl
    exact ⟨hvalid, fun _ => rfl⟩

/-! ## The read channels of a run -/

omit hs in
/-- The address handshake comes in the cycle after a read was accepted. -/
theorem ar_transfer_succ (c : Nat) :
    (arChannel s inp).transfer (c + 1) = (cycle s inp c).readAccept (inp c) := by
  have hready : (arChannel s inp).ready (c + 1) = (cycle s inp c).readAccept (inp c) :=
    Top.step_arreadyQ (hm.aresetn c)
  rw [Channel.transfer, hready]
  cases h : (cycle s inp c).readAccept (inp c) with
  | false => exact Bool.and_false _
  | true =>
    simp only [Top.readAccept, Bool.and_eq_true, Bool.not_eq_true'] at h
    have hvalid : (arChannel s inp).valid (c + 1) = true := (hm.ar c h.1.2 h.1.1).1
    rw [hvalid, Bool.and_true]

omit hs in
/-- The response register is loaded when a read is accepted. -/
theorem rvalid_succ (n : Nat) : (rChannel s inp).valid (n + 1) =
    ((cycle s inp n).readAccept (inp n) ||
      ((rChannel s inp).valid n && !(rChannel s inp).ready n)) :=
  Top.step_rvalidQ (hm.aresetn n)

omit hs in
theorem rdataQ_of_readAccept {c : Nat} (h : (cycle s inp c).readAccept (inp c) = true) :
    (cycle s inp (c + 1)).rdataQ = readAt s inp c := by
  rw [cycle_succ, Top.step_rdataQ (hm.aresetn c), if_pos h, readAt]
  simp only [Top.readAccept, Bool.and_eq_true, Bool.not_eq_true'] at h
  have haddr : (inp (c + 1)).sAxiAraddr = (inp c).sAxiAraddr := (hm.ar c h.1.2 h.1.1).2
  rw [haddr]

theorem rBuffer :
    Buffer (fun c => (arChannel s inp).transfer (c + 1)) (fun c => (readAt s inp c, 0b00#2))
      (rChannel s inp) where
  empty := hs.rvalidQ
  load n h := by
    rw [ar_transfer_succ hm] at h
    have hfree : (rChannel s inp).valid n = false := by
      have hunfold := h
      simp only [Top.readAccept, Bool.and_eq_true, Bool.not_eq_true'] at hunfold
      exact hunfold.2
    have hdata : (rChannel s inp).payload (n + 1) = (readAt s inp n, 0b00#2) :=
      congrArg (·, 0b00#2) (rdataQ_of_readAccept hm h)
    exact ⟨hfree, by rw [rvalid_succ hm, h, Bool.true_or], hdata⟩
  keep n h := by
    rw [ar_transfer_succ hm] at h
    have hdata : (cycle s inp (n + 1)).rdataQ = (cycle s inp n).rdataQ := by
      rw [cycle_succ, Top.step_rdataQ (hm.aresetn n), h, if_neg Bool.false_ne_true]
    exact ⟨by rw [rvalid_succ hm, h, Bool.false_or], fun _ => congrArg (·, 0b00#2) hdata⟩

theorem readsOnce : ReadsOnce s inp where
  first := ar_transfer_zero hs
  accepted := ar_transfer_succ hm
  answered := (rBuffer hs hm).answers

end Runs

/-! ## From the reset on -/

section Reset

variable {s inp} (hs : s.AfterReset) (hm : Master s inp)

include hs hm

theorem counts_eq (n : Nat) : (cycle s inp n).counts =
    (occurred (awChannel s inp).transfer (writeAt inp) n).foldl (fun c w => w.apply c)
      ⟨0#16, 0#16⟩ := by
  induction n with
  | zero => exact hs.idle.counts
  | succ n ih =>
    rw [counts_succ hs.settled hm, occurred_succ, List.foldl_append, ← ih]
    split <;> rfl

theorem writesOnce : WritesOnce s inp where
  together := w_transfer_eq hs.settled hm
  counts := counts_eq hs hm
  unstarted := hs.idle.startStrobe
  started := startStrobe_succ hs.settled hm
  answered := (bBuffer hs.settled hm).answers

theorem doneLatched_iff : DoneLatched s inp :=
  Machine.latch_iff hs.idle.doneLatched fun n => Top.step_doneLatched (hm.aresetn n)

end Reset

/-- A host that starts the kernel and reads its status at the same time, with every channel offered
    in the first two cycles. The responses are taken in every other cycle. -/
def startHost (n : Nat) : TopInputs where
  sAxiAresetn := true
  sAxiAwaddr := 0x08#8
  sAxiAwvalid := decide (n < 2)
  sAxiWdata := 1#32
  sAxiWstrb := 0b0001#4
  sAxiWvalid := decide (n < 2)
  sAxiBready := decide (n % 2 = 1)
  sAxiAraddr := 0x0C#8
  sAxiArvalid := decide (n < 2)
  sAxiRready := decide (n % 2 = 0)
  sAxisTdata := 0#64
  sAxisTvalid := false
  sAxisActsTdata := 0#64
  sAxisActsTvalid := false
  mAxisTready := false

/-- The kernel and its registers after a reset. -/
def resetTop : Top := (default : Top).step { startHost 0 with sAxiAresetn := false }

/-- A channel whose source stops after its second cycle, and whose sink is ready in it. -/
theorem stable_of_lt_two {α : Type} (ch : Channel α) (hvalid : ch.valid = fun n => decide (n < 2))
    (hready : ch.ready 1 = true) (hsame : ch.payload 1 = ch.payload 0) : ch.Stable := by
  intro n hn hwait
  rw [hvalid, decide_eq_true_iff] at hn
  have hzero : n = 0 := by
    rcases Nat.lt_succ_iff_lt_or_eq.mp hn with hlt | rfl
    · omega
    · rw [hready] at hwait
      cases hwait
  subst hzero
  exact ⟨by rw [hvalid]; rfl, hsame⟩

section Progress

variable {s : Top} {inp : Nat → TopInputs} (hs : s.Settled) (hm : Master s inp)

include hs hm

theorem wreadyQ_eq (n : Nat) : (cycle s inp n).wreadyQ = (cycle s inp n).awreadyQ := by
  cases n with
  | zero => exact hs.wreadyQ.trans hs.awreadyQ.symm
  | succ n => rw [cycle_succ, Top.step_wreadyQ (hm.aresetn n), Top.step_awreadyQ (hm.aresetn n)]

/-- A write is accepted when its address and its data are there and no response waits. -/
theorem writeServer :
    Server (fun n => (inp n).sAxiAwvalid = true ∧ (inp n).sAxiWvalid = true) (awChannel s inp).ready
      (bChannel s inp) where
  patient n ho hready := by
    have hwready : (wChannel s inp).ready n = false := (wreadyQ_eq hs hm n).trans hready
    exact ⟨(hm.aw n ho.1 hready).1, (hm.w n ho.2 hwready).1⟩
  accept n ho hready hfree := by
    have hawready : (cycle s inp n).awreadyQ = false := hready
    have hbvalid : (cycle s inp n).bvalidQ = false := hfree
    have haccept : (cycle s inp n).writeAccept (inp n) = true := by
      rw [Top.writeAccept, wreadyQ_eq hs hm, hawready, hbvalid, ho.1, ho.2]
      rfl
    exact (Top.step_awreadyQ (hm.aresetn n)).trans haccept
  busy n hready hwait := by
    have hbvalid : (cycle s inp n).bvalidQ = true := hwait
    have haccept : (cycle s inp n).writeAccept (inp n) = false := by
      rw [Top.writeAccept, hbvalid, Bool.not_true, Bool.and_false]
    have hidle : (awChannel s inp).transfer n = false := by
      rw [Channel.transfer, hready, Bool.and_false]
    have hkeep := ((bBuffer hs hm).keep n hidle).1
    rw [hwait, Bool.true_and] at hkeep
    exact ⟨(Top.step_awreadyQ (hm.aresetn n)).trans haccept, hkeep⟩

/-- A write is taken, if the host takes its responses. -/
theorem write_taken (hfair : ∀ n, ∃ m, n ≤ m ∧ (inp m).sAxiBready = true) {n : Nat}
    (haw : (inp n).sAxiAwvalid = true)
    (hw : (inp n).sAxiWvalid = true) : ∃ m, n ≤ m ∧ (awChannel s inp).transfer m = true := by
  obtain ⟨m, hle, ho, hready⟩ := (writeServer hs hm).serves hfair ⟨haw, hw⟩
  exact ⟨m, hle, Bool.and_eq_true_iff.mpr ⟨ho.1, hready⟩⟩

/-- A read is accepted when its address is there and no response waits. -/
theorem readServer :
    Server (fun n => (inp n).sAxiArvalid = true) (arChannel s inp).ready (rChannel s inp) where
  patient n ho hready := (hm.ar n ho hready).1
  accept n ho hready hfree := by
    have harready : (cycle s inp n).arreadyQ = false := hready
    have hrvalid : (cycle s inp n).rvalidQ = false := hfree
    have haccept : (cycle s inp n).readAccept (inp n) = true := by
      rw [Top.readAccept, harready, hrvalid, ho]
      rfl
    exact (Top.step_arreadyQ (hm.aresetn n)).trans haccept
  busy n hready hwait := by
    have hrvalid : (cycle s inp n).rvalidQ = true := hwait
    have haccept : (cycle s inp n).readAccept (inp n) = false := by
      rw [Top.readAccept, hrvalid, Bool.not_true, Bool.and_false]
    have hkeep := ((rBuffer hs hm).keep n ((ar_transfer_succ hm n).trans haccept)).1
    rw [hwait, Bool.true_and] at hkeep
    exact ⟨(Top.step_arreadyQ (hm.aresetn n)).trans haccept, hkeep⟩

/-- A read is taken, if the host takes its responses. -/
theorem read_taken (hfair : ∀ n, ∃ m, n ≤ m ∧ (inp m).sAxiRready = true) {n : Nat}
    (har : (inp n).sAxiArvalid = true) :
    ∃ m, n ≤ m ∧ (arChannel s inp).transfer m = true := by
  obtain ⟨m, hle, ho, hready⟩ := (readServer hs hm).serves hfair har
  exact ⟨m, hle, Bool.and_eq_true_iff.mpr ⟨ho, hready⟩⟩

/-- A write that is offered takes effect and gets its response. -/
theorem write_answered (hfair : ∀ n, ∃ m, n ≤ m ∧ (inp m).sAxiBready = true) {n : Nat}
    (haw : (inp n).sAxiAwvalid = true) (hw : (inp n).sAxiWvalid = true) :
    ∃ c m, n ≤ c ∧ (awChannel s inp).transfer c = true ∧ c < m ∧
      (bChannel s inp).transfer m = true := by
  obtain ⟨c, hle, hc⟩ := write_taken hs hm hfair haw hw
  obtain ⟨m, hlt, hm', -⟩ := (bBuffer hs hm).answers.arrives hfair hc
  exact ⟨c, m, hle, hc, hlt, hm'⟩

/-- A read that is offered gets the value that its register had when it was accepted. -/
theorem read_answered (hfair : ∀ n, ∃ m, n ≤ m ∧ (inp m).sAxiRready = true) {n : Nat}
    (har : (inp n).sAxiArvalid = true) :
    ∃ c m, n ≤ c + 1 ∧ (arChannel s inp).transfer (c + 1) = true ∧ c < m ∧
      (rChannel s inp).transfer m = true ∧
      (rChannel s inp).payload m = (readAt s inp c, 0b00#2) := by
  obtain ⟨c, hle, hc⟩ := read_taken hs hm hfair har
  cases c with
  | zero =>
    rw [ar_transfer_zero hs] at hc
    cases hc
  | succ c =>
    obtain ⟨m, hlt, hm', hdata⟩ := (rBuffer hs hm).answers.arrives hfair hc
    exact ⟨c, m, hle, hc, hlt, hm', hdata⟩

end Progress

end AxiLite

end Q1a8
