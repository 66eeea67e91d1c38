-- SUMMARY: The host's chip-cycle protocol: plans, argument encoding and the per-tile cycle schedule (`protocol.h`, `protocol.cpp`, `plan.h`).
import BonsaiTpu.Base.Indices
import BonsaiTpu.Tile.Commands

/-!
# The chip-cycle protocol

The host describes a matmul as a plan of tiles and unrolls each tile into the
`(ui, uio)` bytes of its chip cycles. `int8_t` and `int16_t` data are kept as bit
vectors, which is how they travel; results are integers.
-/

namespace Bonsai

open Tile (chip)

abbrev Byte := BitVec 8

/-- The `ui_in` and `uio_in` bytes of one chip cycle. -/
abbrev Pair := Byte × Byte

abbrev tileRows : Nat := 2
abbrev tileCols : Nat := 2
abbrev tilePsumBits : Nat := 16

inductive Command where
  | status
  | clear
  | ldw
  | lda
  | seed
  | start
  | rdp
  | nop
  deriving DecidableEq

def Command.code : Command → Byte
  | .status => 0
  | .clear => 1
  | .ldw => 2
  | .lda => 3
  | .seed => 4
  | .start => 5
  | .rdp => 6
  | .nop => 7

def statusDone : Byte := 1#8 <<< 1
def statusStartReady : Byte := 1#8 <<< 4
def statusError : Byte := 1#8 <<< 6

/-! ## Argument fields -/

/-- The `while` loop of `bit_width_for_count`, which runs at most `count` times. -/
def bitWidthLoop (maxValue : Int) : Nat → Nat → Nat
  | 0, bits => bits
  | fuel + 1, bits =>
    if ((1 <<< bits : Nat) : Int) ≤ maxValue then bitWidthLoop maxValue fuel (bits + 1) else bits

def bitWidthForCount (count : Nat) : Nat := bitWidthLoop (count - 1) count 1

abbrev rowBits : Nat := bitWidthForCount tileRows
abbrev colBits : Nat := bitWidthForCount tileCols
abbrev psumBytes : Nat := (tilePsumBits + 7) / 8

instance : NeZero psumBytes := ⟨by decide⟩

def packUi (cmd : Command) (arg : Byte) : Byte := cmd.code ||| ((arg &&& 0x1f#8) <<< 3)

def encodeRowArg (row : Nat) : Byte := BitVec.ofNat 8 (row &&& ((1 <<< rowBits) - 1))
def encodeColArg (col : Nat) : Byte := BitVec.ofNat 8 (col &&& ((1 <<< colBits) - 1))
def encodeRowByteArg (row byte : Nat) : Byte :=
  BitVec.ofNat 8 ((encodeRowArg row).toNat ||| (byte <<< rowBits))

/-- The conversion to `int16_t`. -/
def toInt16 (x : Int) : Int := (BitVec.ofInt 16 x).toInt

def signExtendPsum (raw : BitVec 16) : Int :=
  let sign : BitVec 16 := 1#16 <<< (tilePsumBits - 1)
  let mask : BitVec 16 := 0xffff#16
  let raw := raw &&& mask
  if raw &&& sign ≠ 0 then toInt16 ((raw.toNat : Int) - (mask.toNat + 1)) else toInt16 raw.toNat

theorem signExtendPsum_eq (raw : BitVec 16) : signExtendPsum raw = raw.toInt := by
  have hmask : raw &&& 0xffff#16 = raw := BitVec.and_allOnes
  have hval : ((raw.toNat : Int) - (((0xffff#16).toNat : Int) + 1)).bmod (2 ^ 16) =
      (raw.toNat : Int).bmod (2 ^ 16) := by
    have hsub : (raw.toNat : Int) - (((0xffff#16).toNat : Int) + 1) = raw.toNat - (2 ^ 16 : Nat) :=
      rfl
    rw [hsub, Int.sub_bmod_right]
  simp only [signExtendPsum, toInt16, hmask, BitVec.toInt_ofInt, hval, ite_self]
  exact (BitVec.toInt_eq_toNat_bmod raw).symm

/-! ## Plans -/

/-- One K-tile: the weights of each row as packed bits, and the activations and
    the accumulator seeds as the bits of an `int8_t` and an `int16_t`. -/
structure MatmulTileAttrs where
  packedWeights : Fin tileRows → Byte
  acts : Fin tileCols → Byte
  seeds : Fin tileRows → BitVec 16
  deriving DecidableEq

/-- A tile with its run boundaries. -/
structure PlanOp where
  startsRun : Bool
  endsRun : Bool
  matmulTile : MatmulTileAttrs
  deriving DecidableEq

abbrev Plan := List PlanOp

/-! ## The cycle schedule of a tile -/

abbrev tileDonePadCycles : Nat := 6
abbrev tileHeadCyclesFull : Nat := 2 + tileRows * psumBytes
abbrev tileBodyCycles : Nat := tileRows + tileCols + 2 + tileDonePadCycles
abbrev tileTailCyclesFull : Nat := tileRows * psumBytes

def tileCyclesFor (startsRun endsRun : Bool) : Nat :=
  (if startsRun then tileHeadCyclesFull else 0) + tileBodyCycles
    + (if endsRun then tileTailCyclesFull else 0)

def nopPair : Pair := (packUi .nop 0, 0)
def startPair : Pair := (packUi .start 0, 0)

/-- The row and byte selectors of SEED and RDP, in the order they are visited. -/
def rowBytes : List (Fin tileRows × Fin psumBytes) :=
  (List.finRange tileRows).flatMap fun row => (List.finRange psumBytes).map fun byte => (row, byte)

def seedByte (seed : BitVec 16) (byte : Nat) : Byte :=
  ((seed >>> (byte * 8)) &&& 0xff#16).setWidth 8

/-- The cycles up to START. -/
def loadPairs (m : MatmulTileAttrs) (startsRun : Bool) : List Pair :=
  (if startsRun then [(packUi .clear 0, 0), nopPair] else [])
    ++ ((List.finRange tileRows).map fun row =>
        (packUi .ldw (encodeRowArg row.val), m.packedWeights row))
    ++ ((List.finRange tileCols).map fun lane =>
        (packUi .lda (encodeColArg lane.val), m.acts lane))
    ++ (if startsRun then
          rowBytes.map fun rb =>
            (packUi .seed (encodeRowByteArg rb.1 rb.2), seedByte (m.seeds rb.1) rb.2)
        else [])

/-- START and its padding. -/
def firePairs : List Pair := [startPair, nopPair] ++ List.replicate tileDonePadCycles nopPair

def rdpPairs : List Pair := rowBytes.map fun rb => (packUi .rdp (encodeRowByteArg rb.1 rb.2), 0)

/-- What `build_tile_pairs` writes to its destination and to
    `out_rdp_byte_offset`. -/
structure TilePairs where
  pairs : List Pair
  outRdpByteOffset : Int

def buildTilePairs (m : MatmulTileAttrs) (startsRun endsRun : Bool) : TilePairs :=
  let body := loadPairs m startsRun ++ firePairs
  if endsRun then ⟨body ++ rdpPairs, body.length⟩ else ⟨body, -1⟩

def PlanOp.tilePairs (op : PlanOp) : TilePairs :=
  buildTilePairs op.matmulTile op.startsRun op.endsRun

/-- The little-endian bytes of one partial sum. -/
def rawPsum (rdp : Nat → Byte) : BitVec 16 :=
  (List.range psumBytes).foldl (fun raw byte => raw ||| ((rdp byte).setWidth 16 <<< (byte * 8))) 0

def parsePsumAt (rx : List Byte) (rdpByteOffset : Nat) (row : Nat) : Int :=
  signExtendPsum (rawPsum fun byte => rx.getD (rdpByteOffset + row * psumBytes + byte) 0)

end Bonsai
