-- SUMMARY: The top of the PL kernel: the AXI-Lite registers around the sequencer (`q1a8_kernel_top.v`).
import BonsaiTpu.Kernel.Design

/-!
# The kernel behind its registers

`q1a8_kernel_top.v`: the kernel, the registers through which the host sets and starts it,
and the write and read channels of AXI-Lite. `awprot`, `arprot`, `tkeep` and `tlast`
are inputs that the design does not use.
-/

namespace Q1a8

def ID_VALUE : BitVec 32 := 0xB05A2000#32

def VERSION_VALUE : BitVec 32 := 0x00000004#32

structure Top where
  kernel : Kernel
  numQ1BlocksQ : BitVec 16
  numRowblocksQ : BitVec 16
  startStrobe : Bool
  doneLatched : Bool
  cycleCountQ : BitVec 32
  awreadyQ : Bool
  wreadyQ : Bool
  bvalidQ : Bool
  awaddrQ : BitVec 8
  arreadyQ : Bool
  rvalidQ : Bool
  rdataQ : BitVec 32
  deriving Inhabited

structure TopInputs where
  sAxiAresetn : Bool
  sAxiAwaddr : BitVec 8
  sAxiAwvalid : Bool
  sAxiWdata : BitVec 32
  sAxiWstrb : BitVec 4
  sAxiWvalid : Bool
  sAxiBready : Bool
  sAxiAraddr : BitVec 8
  sAxiArvalid : Bool
  sAxiRready : Bool
  sAxisTdata : BitVec 64
  sAxisTvalid : Bool
  sAxisActsTdata : BitVec 64
  sAxisActsTvalid : Bool
  mAxisTready : Bool

namespace Top

variable (t : Top) (i : TopInputs)

def kernelBusy : Bool := t.kernel.busyQ

def kernelDone : Bool := t.kernel.kernelDone

/-- The ports of `u_kernel`. -/
def kernelIn : Inputs where
  rstN := i.sAxiAresetn
  startKernel := t.startStrobe
  numQ1Blocks := t.numQ1BlocksQ
  numRowblocks := t.numRowblocksQ
  sAxisTdata := i.sAxisTdata
  sAxisTvalid := i.sAxisTvalid
  sAxisActsTdata := i.sAxisActsTdata
  sAxisActsTvalid := i.sAxisActsTvalid
  mAxisTready := i.mAxisTready

def doneStep : Bool :=
  if !i.sAxiAresetn then false
  else if t.startStrobe then false
  else if t.kernelDone then true
  else t.doneLatched

def cycleCountStep : BitVec 32 :=
  if !i.sAxiAresetn then 0#32
  else if t.startStrobe then 0#32
  else if t.kernelBusy then t.cycleCountQ + 1#32
  else t.cycleCountQ

/-! ## The write channel -/

def writeAccept : Bool := !t.awreadyQ && !t.wreadyQ && i.sAxiAwvalid && i.sAxiWvalid && !t.bvalidQ

def writeCommit : Bool := t.awreadyQ && t.wreadyQ

/-- The register write of a commit to the address that was latched. -/
def commit (addr : BitVec 6) : Top :=
  match addr.toNat with
  | 0x08 =>
    if i.sAxiWstrb.getLsbD 0 && i.sAxiWdata.getLsbD 0 then { t with startStrobe := true } else t
  | 0x10 => { t with numQ1BlocksQ := writeCount t.numQ1BlocksQ i.sAxiWstrb i.sAxiWdata }
  | 0x14 => { t with numRowblocksQ := writeCount t.numRowblocksQ i.sAxiWstrb i.sAxiWdata }
  | _ => t

def writeChannel : Top :=
  if !i.sAxiAresetn then
    { t with
      awreadyQ := false, wreadyQ := false, bvalidQ := false, awaddrQ := 0#8
      numQ1BlocksQ := 0#16, numRowblocksQ := 0#16, startStrobe := false }
  else
    let t' := { t with
      startStrobe := false
      awreadyQ := t.writeAccept i
      wreadyQ := t.writeAccept i
      awaddrQ := if t.writeAccept i then i.sAxiAwaddr else t.awaddrQ
      bvalidQ := if t.writeCommit then true
        else if t.bvalidQ && i.sAxiBready then false else t.bvalidQ }
    if t.writeCommit then t'.commit i (t.awaddrQ.extractLsb' 0 6) else t'

/-! ## The read channel -/

def readAccept : Bool := !t.arreadyQ && i.sAxiArvalid && !t.rvalidQ

/-- What is read at an address. -/
def register (addr : BitVec 6) : BitVec 32 :=
  match addr.toNat with
  | 0x00 => ID_VALUE
  | 0x04 => VERSION_VALUE
  | 0x08 => 0#32
  | 0x0C => 0#30 ++ BitVec.ofBool t.doneLatched ++ BitVec.ofBool t.kernelBusy
  | 0x10 => 0#16 ++ t.numQ1BlocksQ
  | 0x14 => 0#16 ++ t.numRowblocksQ
  | 0x18 => t.cycleCountQ
  | 0x1C => BitVec.ofNat 32 rows
  | _ => 0#32

def readChannel : Top :=
  if !i.sAxiAresetn then { t with arreadyQ := false, rvalidQ := false, rdataQ := 0#32 }
  else
    let t' := { t with arreadyQ := t.readAccept i }
    if t.readAccept i then
      { t' with rvalidQ := true, rdataQ := t.register (i.sAxiAraddr.extractLsb' 0 6) }
    else if t.rvalidQ && i.sAxiRready then { t' with rvalidQ := false }
    else t'

/-- One clock edge. Every block reads the registers before the edge. -/
def step : Top :=
  { t.writeChannel i with
    kernel := t.kernel.step (t.kernelIn i)
    doneLatched := t.doneStep i
    cycleCountQ := t.cycleCountStep i
    arreadyQ := (t.readChannel i).arreadyQ
    rvalidQ := (t.readChannel i).rvalidQ
    rdataQ := (t.readChannel i).rdataQ }

/-! ## The outputs -/

def sAxiAwready : Bool := t.awreadyQ

def sAxiWready : Bool := t.wreadyQ

def sAxiBresp : BitVec 2 := 0b00#2

def sAxiBvalid : Bool := t.bvalidQ

def sAxiArready : Bool := t.arreadyQ

def sAxiRdata : BitVec 32 := t.rdataQ

def sAxiRresp : BitVec 2 := 0b00#2

def sAxiRvalid : Bool := t.rvalidQ

/-- The states after a reset edge. -/
def AfterReset : Prop := ∃ t₀ i, i.sAxiAresetn = false ∧ t = step t₀ i

end Top

end Q1a8
