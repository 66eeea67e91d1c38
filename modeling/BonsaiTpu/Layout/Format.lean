-- SUMMARY: The constants and sizes of the packed Q1A8 layout (`proto/q1a8_layout.h`, `proto/q1a8_layout.py`).
import Mathlib.Tactic.Common

/-!
# The packed layout

Weights are packed by rowblocks of eight rows. A rowblock holds, for each Q1 block
of 128 columns, two beats of scales and four times four beats of weight bits; a beat
is eight bytes.
-/

namespace Layout

def Q1_BLOCK : Nat := 128
def Q1_BLOCK_BYTES : Nat := 18
def Q8_BLOCK : Nat := 32
def ROWS_PER_BLOCK : Nat := 8
def SCALE_BEATS : Nat := (ROWS_PER_BLOCK + 3) / 4
def WBITS_BEATS : Nat := (ROWS_PER_BLOCK + 1) / 2
def Q8_SUBBLOCKS : Nat := Q1_BLOCK / Q8_BLOCK
def SCALES_BYTES : Nat := SCALE_BEATS * 8
def ACTS_BYTES : Nat := Q8_BLOCK
def ACT_SCALE_BYTES : Nat := 8
def WBITS_BYTES : Nat := WBITS_BEATS * 8
def SUBBLOCK_STREAM_BYTES : Nat := ACTS_BYTES + ACT_SCALE_BYTES + WBITS_BYTES
def STREAM_PER_Q1_BLOCK : Nat := SCALES_BYTES + Q8_SUBBLOCKS * SUBBLOCK_STREAM_BYTES
def PACKED_PER_Q1_BLOCK : Nat := SCALES_BYTES + Q8_SUBBLOCKS * WBITS_BYTES
def ACTS_PER_Q1_BLOCK : Nat := Q8_SUBBLOCKS * (ACTS_BYTES + ACT_SCALE_BYTES)

/-- The assertion of both sources: packing does not change the size of whole rowblocks. -/
theorem packedPerQ1Block_eq : PACKED_PER_Q1_BLOCK = ROWS_PER_BLOCK * Q1_BLOCK_BYTES := rfl

/-! ## Size helpers -/

def rowblocksFor (rows : Nat) : Nat := (rows + ROWS_PER_BLOCK - 1) / ROWS_PER_BLOCK

/-- Raises `ValueError` when `k` is no multiple of the block. -/
def blocksPerRow (k : Nat) : Except String Nat :=
  if k % Q1_BLOCK ≠ 0 then .error s!"k={k} must be a multiple of Q1_BLOCK={Q1_BLOCK}"
  else .ok (k / Q1_BLOCK)

def packedNbytes (rows k : Nat) : Except String Nat := do
  let blocks ← blocksPerRow k
  .ok (rowblocksFor rows * blocks * PACKED_PER_Q1_BLOCK)

def packedBytesPerRowblock (k : Nat) : Except String Nat := do
  let blocks ← blocksPerRow k
  .ok (blocks * PACKED_PER_Q1_BLOCK)

def actsStreamNbytes (k : Nat) : Except String Nat := do
  let blocks ← blocksPerRow k
  .ok (blocks * ACTS_PER_Q1_BLOCK)

section

variable {k : Nat} (hk : k % Q1_BLOCK = 0)

include hk

theorem blocksPerRow_ok : blocksPerRow k = .ok (k / Q1_BLOCK) := by
  rw [blocksPerRow, if_neg (not_not_intro hk)]

theorem packedNbytes_ok (rows : Nat) :
    packedNbytes rows k = .ok (rowblocksFor rows * (k / Q1_BLOCK) * PACKED_PER_Q1_BLOCK) := by
  rw [packedNbytes, blocksPerRow_ok hk]
  rfl

theorem packedBytesPerRowblock_ok :
    packedBytesPerRowblock k = .ok (k / Q1_BLOCK * PACKED_PER_Q1_BLOCK) := by
  rw [packedBytesPerRowblock, blocksPerRow_ok hk]
  rfl

theorem actsStreamNbytes_ok : actsStreamNbytes k = .ok (k / Q1_BLOCK * ACTS_PER_Q1_BLOCK) := by
  rw [actsStreamNbytes, blocksPerRow_ok hk]
  rfl

end

end Layout
