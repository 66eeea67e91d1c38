-- SUMMARY: The RP2350 streamer firmware: USB framing, the per-cycle and tile-macro modes, and what each reads, drives and replies (`main.c`).
import BonsaiTpu.Base.Pieces
import BonsaiTpu.Host.Schedule

/-!
# The streamer firmware

The firmware is a loop over request frames. Its state is the two USB pipes, the
`rst_n` pin, the chip and the flash; a program of the firmware either finishes or
stops where it waits for bytes that never come. TinyUSB is a lossless in-order
pipe: `usb_write_blocking` appends to the reply stream, and the request stream is
read in the pieces in which it arrives.
-/

namespace Firmware

open Bonsai (Byte Pair Chip)

/-- Why the main loop does not come back: it waits for USB bytes, or the
    microcontroller has rebooted. -/
inductive Halt where
  | waiting
  | reboot
  deriving DecidableEq

/-- The firmware with its surroundings. -/
structure State (φ : Type) where
  usbRx : List (List Byte)
  usbTx : List Byte
  rstN : Bool
  chip : Chip
  flash : φ

abbrev Prog (φ : Type) := EStateM Halt (State φ)

/-- The bitstream flash and the iCE40 loader. Loading a bitstream replaces the
    chip, whatever it was. -/
structure Flash (φ : Type) where
  flashBegin : Nat → φ → Bool × φ
  flashAppend : List Byte → φ → φ
  flashEnd : φ → Int × φ
  present : φ → Bool
  loadBitstream : φ → Chip → Bool × Chip

def bitstreamMaxBytes : Nat := 256 * 1024 - 256

variable {φ : Type}

/-! ## Chip cycles -/

def chipCycle (ui uio : Byte) : Prog φ Byte := fun s =>
  let p : Tile.Pins := ⟨s.rstN, ui, uio⟩
  let chip := s.chip.step p
  .ok (chip.uoOut p) { s with chip }

def cmdClear : Byte := 1
def cmdLdw : Byte := 2
def cmdLda : Byte := 3
def cmdSeed : Byte := 4
def cmdStart : Byte := 5
def cmdRdp : Byte := 6
def cmdNop : Byte := 7

def tileRows : Nat := 2
def tilePsumBytes : Nat := 2
def tileDonePad : Nat := 6
def rowBits : Nat := 1

def tileFlagStartsRun : Byte := 0x01
def tileFlagEndsRun : Byte := 0x02

def packUi (cmd arg : Byte) : Byte := (cmd &&& 0x7#8) ||| ((arg &&& 0x1f#8) <<< 3)

/-- The selector of SEED and RDP. -/
def rowByteArg (r b : Nat) : Byte := BitVec.ofNat 8 ((r &&& 1) ||| ((b &&& 1) <<< rowBits))

/-- The nested `for` loops over rows and bytes. -/
def rowBytes : List (Nat × Nat) :=
  (List.range tileRows).flatMap fun r => (List.range tilePsumBytes).map fun b => (r, b)

/-- The cycles of one tile; the result is what is stored to `psum_out`, which is
    non-null exactly when `hasSlot` holds. -/
def runTileMacro (flags pw0 pw1 a0 a1 : Byte) (hasSlot : Bool) : Prog φ (List Byte) := do
  let startsRun := flags &&& tileFlagStartsRun
  let endsRun := flags &&& tileFlagEndsRun
  if startsRun ≠ 0 then
    let _ ← chipCycle (packUi cmdClear 0) 0
    let _ ← chipCycle (packUi cmdNop 0) 0
  let _ ← chipCycle (packUi cmdLdw 0) pw0
  let _ ← chipCycle (packUi cmdLdw 1) pw1
  let _ ← chipCycle (packUi cmdLda 0) a0
  let _ ← chipCycle (packUi cmdLda 1) a1
  if startsRun ≠ 0 then
    let _ ← rowBytes.mapM fun rb => chipCycle (packUi cmdSeed (rowByteArg rb.1 rb.2)) 0
  let _ ← chipCycle (packUi cmdStart 0) 0
  let _ ← chipCycle (packUi cmdNop 0) 0
  let _ ← (List.range tileDonePad).mapM fun _ => chipCycle (packUi cmdNop 0) 0
  if endsRun ≠ 0 ∧ hasSlot then
    rowBytes.mapM fun rb => chipCycle (packUi cmdRdp (rowByteArg rb.1 rb.2)) 0
  else pure []

/-! ## USB -/

def usbReadBlocking (n : Nat) : Prog φ (List Byte) := fun s =>
  match Pieces.read n s.usbRx with
  | some (bytes, usbRx) => .ok bytes { s with usbRx }
  | none => .error .waiting s

def usbWriteBlocking (bytes : List Byte) : Prog φ Unit := fun s =>
  .ok () { s with usbTx := s.usbTx ++ bytes }

/-! ## Modes -/

def loadStored (fl : Flash φ) : Prog φ Bool := fun s =>
  let r := fl.loadBitstream s.flash s.chip
  .ok r.1 { s with chip := r.2 }

/-- The `while` loop of mode `F`. -/
def flashLoop (fl : Flash φ) (remaining : Nat) : Prog φ Unit := do
  if _h : remaining > 0 then
    let want := if remaining < 1024 then remaining else 1024
    let rx ← usbReadBlocking want
    modify fun s => { s with flash := fl.flashAppend rx s.flash }
    flashLoop fl (remaining - want)
  termination_by remaining
  decreasing_by
    split <;> omega

def modeFlash (fl : Flash φ) (n : Nat) : Prog φ Unit := do
  let accepted ← (fun s =>
    if n = 0 ∨ n > bitstreamMaxBytes then .ok false s
    else
      let r := fl.flashBegin n s.flash
      .ok r.1 { s with flash := r.2 } : Prog φ Bool)
  if accepted then
    flashLoop fl n
    let rc ← (fun s =>
      let r := fl.flashEnd s.flash
      .ok r.1 { s with flash := r.2 } : Prog φ Int)
    if rc = 0 then
      let _ ← loadStored fl
    usbWriteBlocking [BitVec.ofInt 8 rc]
  else usbWriteBlocking [0xff]

def modeLoad (fl : Flash φ) : Prog φ Unit := do
  if fl.present (← get).flash then
    let ok ← loadStored fl
    usbWriteBlocking [if ok then 0 else 2]
  else usbWriteBlocking [1]

/-- The `while` loop of mode `X`: up to 64 cycles are read, run and answered at a
    time. -/
def transactLoop (remaining : Nat) : Prog φ Unit := do
  if _h : remaining > 0 then
    let batch := if remaining < 64 then remaining else 64
    let inBuf ← usbReadBlocking (2 * batch)
    let outBuf ← (List.range batch).mapM fun i =>
      chipCycle (inBuf.getD (2 * i) 0) (inBuf.getD (2 * i + 1) 0)
    usbWriteBlocking outBuf
    transactLoop (remaining - batch)
  termination_by remaining
  decreasing_by
    split <;> omega

/-- One descriptor of mode `M`; the result is what it adds to `out_buf`. -/
def runDescriptor (inBuf : List Byte) (i : Nat) : Prog φ (List Byte) :=
  let a0 := inBuf.getD (i * 3 + 0) 0
  let a1 := inBuf.getD (i * 3 + 1) 0
  let packed := inBuf.getD (i * 3 + 2) 0
  let pw0 := packed &&& 0x03
  let pw1 := (packed >>> 2) &&& 0x03
  let flags := (packed >>> 4) &&& 0x03
  runTileMacro flags pw0 pw1 a0 a1 (flags &&& tileFlagEndsRun ≠ 0)

/-- The `while` loop of mode `M`: up to 32 descriptors are read, unrolled and
    answered at a time. -/
def macroLoop (remaining : Nat) : Prog φ Unit := do
  if _h : remaining > 0 then
    let batch := if remaining < 32 then remaining else 32
    let inBuf ← usbReadBlocking (batch * 3)
    let outBuf ← (List.range batch).mapM fun i => runDescriptor inBuf i
    if outBuf.flatten.length > 0 then
      usbWriteBlocking outBuf.flatten
    macroLoop (remaining - batch)
  termination_by remaining
  decreasing_by
    split <;> omega

def le32 (b0 b1 b2 b3 : Byte) : BitVec 32 :=
  b0.setWidth 32 ||| (b1.setWidth 32 <<< 8) ||| (b2.setWidth 32 <<< 16) ||| (b3.setWidth 32 <<< 24)

def modeByte (c : Char) : Byte := BitVec.ofNat 8 c.toNat

/-- One iteration of the main loop. -/
def serveFrame (fl : Flash φ) : Prog φ Unit := do
  let hdr ← usbReadBlocking 5
  let mode := hdr.getD 0 0
  let n := (le32 (hdr.getD 1 0) (hdr.getD 2 0) (hdr.getD 3 0) (hdr.getD 4 0)).toNat
  if mode = modeByte 'B' then throw .reboot
  else if mode = modeByte 'a' then modify fun s => { s with rstN := false }
  else if mode = modeByte 'd' then modify fun s => { s with rstN := true }
  else if mode = modeByte 'F' then modeFlash fl n
  else if mode = modeByte 'L' then modeLoad fl
  else if mode = modeByte 'X' then transactLoop n
  else if mode = modeByte 'M' then macroLoop n

/-- The main loop for at most `fuel` frames. Every frame consumes its header, so
    the number of bytes on the way bounds the frames that can be served. -/
def serve (fl : Flash φ) : Nat → State φ → State φ
  | 0, s => s
  | fuel + 1, s =>
    match (serveFrame fl).run s with
    | .ok _ s' => serve fl fuel s'
    | .error _ s' => s'

end Firmware
