-- SUMMARY: The streaming writer of the bitstream region and its accessors (`bitstream_flash.c`, `bitstream_flash.h`, `crc32.c`).
import BonsaiTpu.Base.Crc
import BonsaiTpu.Base.NorFlash

/-!
# The bitstream in flash

The top 256 KiB of the flash hold one header page and the bitstream behind it. The bytes
of a new bitstream are collected in a buffer of one sector and programmed when it is full;
the header comes last. The flash routines of the SDK are a `Driver`; the log of the calls
made of it is kept beside the contents of the chip, for the statements only.
-/

namespace BitstreamFlash

open NorFlash

def flashPageSize : Nat := 256
def flashSectorSize : Nat := 4096
def regionBytes : Nat := 256 * 1024
def maxBytes : Nat := regionBytes - flashPageSize
def magic : BitVec 32 := 0x42535442#32

/-- The flash of the board: whole sectors, and at least the region. -/
structure Board extends Driver flashPageSize flashSectorSize where
  sizeSectors : flashSectorSize ∣ size
  sizeGe : regionBytes ≤ size

def Board.flashOffset (d : Board) : Nat := d.size - regionBytes

-- ---------------------------------------------------------------------------
-- crc32.c
-- ---------------------------------------------------------------------------

def crc32Init : BitVec 32 := 0xFFFFFFFF#32

/-- One bit of `build_table`. -/
def tableBit (c : BitVec 32) : BitVec 32 :=
  if c &&& 1#32 ≠ 0 then 0xEDB88320#32 ^^^ (c >>> 1) else c >>> 1

/-- `table[i]`. The first call of `crc32_update` fills the table. -/
def table (i : BitVec 32) : BitVec 32 := tableBit^[8] i

def crc32Update (crc : BitVec 32) (data : List Byte) : BitVec 32 :=
  data.foldl (fun crc byte => table ((crc ^^^ byte.setWidth 32) &&& 0xFF#32) ^^^ (crc >>> 8)) crc

def crc32Finalize (crc : BitVec 32) : BitVec 32 := crc ^^^ 0xFFFFFFFF#32

/-- CRC-32/ISO-HDLC, by its polynomial. -/
def crc32IsoHdlc (data : List Byte) : BitVec 32 :=
  Crc.reflected 0x04C11DB7#32 0xFFFFFFFF#32 0xFFFFFFFF#32 data

-- ---------------------------------------------------------------------------
-- The region
-- ---------------------------------------------------------------------------

/-- A little-endian word of the flash, as the processor reads it. -/
def readU32 (image : Image) (a : Nat) : BitVec 32 :=
  image (a + 3) ++ image (a + 2) ++ image (a + 1) ++ image a

def leBytes32 (x : BitVec 32) : List Byte :=
  [x.extractLsb' 0 8, x.extractLsb' 8 8, x.extractLsb' 16 8, x.extractLsb' 24 8]

/-- The header: magic, length, check and a reserved word. -/
def header (length : Nat) (crc : BitVec 32) : List Byte :=
  leBytes32 magic ++ leBytes32 (BitVec.ofNat 32 length) ++ leBytes32 crc ++ leBytes32 0

/-- The header in a page of its own. -/
def headerPage (length : Nat) (crc : BitVec 32) : List Byte :=
  header length crc ++ List.replicate (flashPageSize - 16) 0xff

def length (d : Board) (image : Image) : Nat := (readU32 image (d.flashOffset + 4)).toNat

def present (d : Board) (image : Image) : Bool :=
  readU32 image d.flashOffset == magic &&
    !(length d image == 0 || decide (maxBytes < length d image))

/-- Where the bitstream starts. -/
def data (d : Board) : Nat := d.flashOffset + flashPageSize

-- ---------------------------------------------------------------------------
-- The writer
-- ---------------------------------------------------------------------------

/-- `g_state`, the contents of the flash, and the calls of the flash routines so far. -/
structure State where
  buf : List Byte
  bufUsed : Nat
  payloadOff : Nat
  expectedLen : Nat
  crc : BitVec 32
  active : Bool
  flash : Image
  log : List Op

/-- The state at power-up, with whatever the flash holds. -/
def powerUp (flash : Image) : State :=
  ⟨List.replicate flashSectorSize 0, 0, 0, 0, 0, false, flash, []⟩

variable (d : Board)

def State.call (op : Op) (s : State) : State :=
  { s with flash := op.apply d.toDriver s.flash, log := s.log ++ [op] }

/-- Round up to whole blocks. The source clears the low bits of the sum. -/
def roundUp (block n : Nat) : Nat := (n + block - 1) / block * block

def flashBegin (totalLength : Nat) (s : State) : Bool × State :=
  if totalLength = 0 ∨ maxBytes < totalLength then (false, s)
  else
    let bytesNeeded := flashPageSize + totalLength
    let eraseBytes := roundUp flashSectorSize bytesNeeded
    (true,
      { s.call d (.erase d.flashOffset eraseBytes) with
        bufUsed := 0, payloadOff := 0
        expectedLen := totalLength, crc := crc32Init, active := true })

/-- Program the full buffer. -/
def flush (s : State) : State :=
  { s.call d (.program (d.flashOffset + flashPageSize + s.payloadOff) s.buf) with
    payloadOff := s.payloadOff + flashSectorSize, bufUsed := 0 }

/-- Copy bytes to the buffer, behind those it has. -/
def State.memcpy (bytes : List Byte) (s : State) : State :=
  { s with
    buf := s.buf.take s.bufUsed ++ bytes ++ s.buf.drop (s.bufUsed + bytes.length)
    bufUsed := s.bufUsed + bytes.length }

/-- One pass of the loop in `append`: what fits is copied to the buffer. -/
def appendPass (s : State) (data : List Byte) : State × List Byte :=
  let copy := min (flashSectorSize - s.bufUsed) data.length
  let copied := s.memcpy (data.take copy)
  (if copied.bufUsed = flashSectorSize then flush d copied else copied, data.drop copy)

/-- The loop, for at most `fuel` passes. -/
def appendLoop : Nat → State → List Byte → Option State
  | _, s, [] => some s
  | 0, _, _ :: _ => none
  | fuel + 1, s, byte :: data =>
    appendLoop fuel (appendPass d s (byte :: data)).1 (appendPass d s (byte :: data)).2

/-- The sum of the lengths is computed in 32 bits. -/
def flashAppend (data : List Byte) (s : State) : Option (Bool × State) :=
  if !s.active then some (false, s)
  else if s.expectedLen < (s.payloadOff + s.bufUsed + data.length) % 2 ^ 32 then
    some (false, { s with active := false })
  else (appendLoop d data.length { s with crc := crc32Update s.crc data } data).map fun s' =>
    (true, s')

/-- Program what is left in the buffer, padded to whole pages. -/
def flushTail (s : State) : State :=
  if 0 < s.bufUsed then
    let padded := roundUp flashPageSize s.bufUsed
    let buf := s.buf.take s.bufUsed ++ List.replicate (padded - s.bufUsed) 0xff ++ s.buf.drop padded
    { ({ s with buf := buf }).call d
        (.program (d.flashOffset + flashPageSize + s.payloadOff) (buf.take padded)) with
      payloadOff := s.payloadOff + s.bufUsed, bufUsed := 0 }
  else s

def flashEnd (s : State) : Nat × State :=
  if !s.active then (1, s)
  else
    let s := flushTail d s
    if s.payloadOff ≠ s.expectedLen then (2, { s with active := false })
    else
      let s :=
        { s.call d (.program d.flashOffset (headerPage s.expectedLen (crc32Finalize s.crc))) with
          active := false }
      if !present d s.flash || length d s.flash != s.expectedLen then (3, s) else (0, s)

end BitstreamFlash
