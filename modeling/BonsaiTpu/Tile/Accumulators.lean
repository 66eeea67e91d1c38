-- SUMMARY: The accumulators as the host's byte file: what RDP reads after any sequence of SEEDs (`tpu_acc_mem.v`, `project.v`).
import Mathlib.Data.List.Induction
import BonsaiTpu.Tile.Phases

/-!
# The accumulator file

Row and byte of a SEED become one bit offset into a flat register. The row selector is
checked against the number of rows, the byte selector is not checked at all: a selector
past the last byte of a row denotes a byte of the row after it.
-/

namespace Tile

variable {g : Geometry}

/-- A width of whole bytes, with both selectors in the argument of the command. -/
structure Geometry.Bytewise (g : Geometry) : Prop where
  psumWidth : g.psumWidth = 8 * g.psumBytes
  psumPos : 0 < g.psumWidth
  fits : g.rowSelW + g.byteSelW ≤ 5

/-- The cycle carries a command other than CLEAR and START, and no reset. -/
structure Pins.Host (p : Pins) : Prop where
  rstN : p.rstN = true
  clear : p.cmd.clear = false
  start : p.cmd.start = false

/-- Byte `b` of the accumulator of row `r`. -/
def AccMem.byte (m : AccMem g) (r : Fin g.rows) (b : Nat) : BitVec 8 :=
  (m.row r).extractLsb' (8 * b) 8

/-- The cycle carries a command whose argument selects byte `b` of row `r`. -/
def Pins.Selects (g : Geometry) (r b : Nat) (p : Pins) : Prop :=
  (AccMem.argRow g p.cmd.arg).toNat = r ∧ (AccMem.argByte g p.cmd.arg).toNat = b

instance (r b : Nat) (p : Pins) : Decidable (p.Selects g r b) := inferInstanceAs (Decidable (_ ∧ _))

/-- A SEED with a selector outside of the file. -/
def Pins.OutOfFile (g : Geometry) (p : Pins) : Prop :=
  p.cmd.seed = true ∧
    (g.rows ≤ (AccMem.argRow g p.cmd.arg).toNat ∨ g.psumBytes ≤ (AccMem.argByte g p.cmd.arg).toNat)

/-- The data of the last SEED of byte `b` of row `r`, or `old` if there is none. -/
def lastSeed (g : Geometry) (r b : Nat) (old : BitVec 8) (ps : List Pins) : BitVec 8 :=
  ps.foldl (fun byte p => if p.cmd.seed = true ∧ p.Selects g r b then p.uioIn else byte) old

/-- The registers after a sequence of commands. -/
abbrev after (t : Tile g) (ps : List Pins) : Tile g := ps.foldl step t

/-- All along a sequence of commands the tile is idle, RDP returns what SEED wrote last, and a
    SEED outside of the file changes nothing. -/
structure KeepsFile (t : Tile g) (ps : List Pins) : Prop where
  idle : ∀ ps₁, ps₁ <+: ps → (t.after ps₁).idle = true
  read : ∀ ps₁, ps₁ <+: ps → ∀ (q : Pins) (r : Fin g.rows) (b : Nat),
    b < g.psumBytes → q.cmd.rdp = true →
    q.Selects g r b → (t.after ps₁).uoOut q = lastSeed g r b (t.accmem.byte r b) ps₁
  ignored : ∀ ps₁ p, ps₁ ++ [p] <+: ps → p.OutOfFile g →
    (t.after (ps₁ ++ [p])).accmem.accQ = (t.after ps₁).accmem.accQ

/-- No SEED runs over the end of its row into the next one. -/
def InRow (g : Geometry) (p : Pins) : Prop :=
  p.cmd.seed = true → (AccMem.argRow g p.cmd.arg).toNat + 1 < g.rows →
    (AccMem.argByte g p.cmd.arg).toNat < g.psumBytes

/-! ## One command -/

section Step

variable {t : Tile g} {p : Pins}

/-- A command on a quiet idle tile changes the accumulators by SEED alone. -/
theorem accQ_step_of_host (hidle : t.ctrl.stateQ = .idle) (hquiet : t.array.Quiet) (hp : p.Host) :
    (t.step p).accmem.accQ =
      if p.cmd.seed = true ∧ (AccMem.argRow g p.cmd.arg).toNat < g.rows then
        t.accmem.accQ.setPart (AccMem.byteBase g p.cmd.arg) p.uioIn
      else t.accmem.accQ := by
  have hvalid : ∀ r, W1a8.Array.validOut t.arrayIn t.array r = false := hquiet.validOut g.colsPos
  have hcaptured : t.accmem.accQ.setFields (W1a8.Array.validOut t.arrayIn t.array)
      (W1a8.Array.psumOut t.arrayIn t.array) = t.accmem.accQ := by
    apply BitVec.eq_of_field_eq
    intro r hr
    rw [BitVec.field_setFields _ _ _ ⟨r, hr⟩, hvalid, if_neg Bool.false_ne_true]
  have hstate : t.idle = true := by simp [Ctrl.idle, hidle]
  simp [step, AccMem.step, AccMem.rowOob, hp.rstN, hp.clear, hcaptured, hstate]

theorem AccMem.byte_eq (hg : g.Bytewise) (m : AccMem g) (r : Fin g.rows) {b : Nat}
    (hb : b < g.psumBytes) :
    m.byte r b = m.accQ.extractLsb' (8 * (r * g.psumBytes + b)) 8 := by
  have hbits : 8 * b + 8 ≤ g.psumWidth := by rw [hg.psumWidth]; omega
  rw [AccMem.byte, AccMem.row, BitVec.extractLsb'_field _ _ _ _ hbits, Nat.mul_add, ← Nat.mul_assoc,
    Nat.mul_comm 8 r.val, Nat.mul_assoc, ← hg.psumWidth]

theorem AccMem.byteBase_eq (hg : g.Bytewise) (arg : BitVec 5) :
    AccMem.byteBase g arg = 8 * ((argRow g arg).toNat * g.psumBytes + (argByte g arg).toNat) := by
  rw [AccMem.byteBase, Nat.mul_add, hg.psumWidth, Nat.mul_left_comm, Nat.mul_comm _ 8]

/-- Positions in the file are determined by row and byte. -/
theorem position_inj {r r' b b' w : Nat} (hb : b < w) (hb' : b' < w) (h : r * w + b = r' * w + b') :
    r = r' ∧ b = b' := by
  have hr : r = r' := by
    have hdiv := congrArg (· / w) h
    simpa [Nat.mul_comm _ w, Nat.mul_add_div (Nat.zero_lt_of_lt hb), Nat.div_eq_of_lt hb,
      Nat.div_eq_of_lt hb'] using hdiv
  subst hr
  exact ⟨rfl, by omega⟩

theorem position_lt {r b w rows : Nat} (hr : r < rows) (hb : b < w) : r * w + b < rows * w := by
  have hmul : (r + 1) * w ≤ rows * w := Nat.mul_le_mul_right w hr
  rw [Nat.succ_mul] at hmul
  omega

/-- A SEED inside of the file, or past its end, changes at most the byte it selects. -/
theorem byte_setPart (hg : g.Bytewise) (m : AccMem g) {arg : BitVec 5} (data : BitVec 8)
    (hrow : (AccMem.argRow g arg).toNat < g.rows)
    (hin : (AccMem.argRow g arg).toNat + 1 < g.rows → (AccMem.argByte g arg).toNat < g.psumBytes)
    (r : Fin g.rows) {b : Nat} (hb : b < g.psumBytes) :
    (m.accQ.setPart (AccMem.byteBase g arg) data).extractLsb' (8 * (r * g.psumBytes + b)) 8 =
      if (AccMem.argRow g arg).toNat = r ∧ (AccMem.argByte g arg).toNat = b then data
      else m.byte r b := by
  rw [AccMem.byteBase_eq hg, AccMem.byte_eq hg m r hb]
  have hpos := position_lt r.isLt hb
  have hsize : g.rows * g.psumWidth = 8 * (g.rows * g.psumBytes) := by
    rw [hg.psumWidth, Nat.mul_left_comm]
  split
  · rename_i hsel
    rw [hsel.1, hsel.2]
    exact BitVec.extractLsb'_setPart_self _ _ _ (by omega)
  · rename_i hsel
    apply BitVec.extractLsb'_setPart_disjoint
    have hne : (AccMem.argRow g arg).toNat * g.psumBytes + (AccMem.argByte g arg).toNat ≠
        r * g.psumBytes + b := by
      intro heq
      by_cases hbyte : (AccMem.argByte g arg).toNat < g.psumBytes
      · exact hsel (position_inj hbyte hb heq)
      · -- Only the last row may be overrun, and its end is the end of the file.
        have hlast : (AccMem.argRow g arg).toNat + 1 = g.rows := by omega
        have hend : g.rows * g.psumBytes = (AccMem.argRow g arg).toNat * g.psumBytes +
            g.psumBytes := by
          rw [← hlast, Nat.succ_mul]
        omega
    omega

/-- A SEED past the end of the file is no SEED. -/
theorem setPart_past (hg : g.Bytewise) (m : AccMem g) {arg : BitVec 5} (data : BitVec 8)
    (hrow : (AccMem.argRow g arg).toNat + 1 = g.rows)
    (hbyte : g.psumBytes ≤ (AccMem.argByte g arg).toNat) :
    m.accQ.setPart (AccMem.byteBase g arg) data = m.accQ := by
  have hsize : g.rows * g.psumWidth = 8 * (g.rows * g.psumBytes) := by
    rw [hg.psumWidth, Nat.mul_left_comm]
  have hend : g.rows * g.psumBytes = (AccMem.argRow g arg).toNat * g.psumBytes + g.psumBytes := by
    rw [← hrow, Nat.succ_mul]
  have hbase := AccMem.byteBase_eq hg arg
  apply BitVec.eq_of_getLsbD_eq
  intro i hi
  rw [BitVec.getLsbD_setPart, if_neg (by omega)]

end Step

/-! ## Sequences of commands -/

/-- The registers of a tile that has only been given commands: idle, with the bytes written last. -/
structure Seeded (t₀ : Tile g) (ps : List Pins) (t : Tile g) : Prop where
  state : t.ctrl.stateQ = .idle
  quiet : t.array.Quiet
  byte : ∀ (r : Fin g.rows) b, b < g.psumBytes →
    t.accmem.byte r b = lastSeed g r b (t₀.accmem.byte r b) ps

section Run

variable {t₀ t : Tile g} {p : Pins} {ps : List Pins}

theorem lastSeed_append (r b : Nat) (old : BitVec 8) (ps : List Pins) (p : Pins) :
    lastSeed g r b old (ps ++ [p]) =
      if p.cmd.seed = true ∧ p.Selects g r b then p.uioIn else lastSeed g r b old ps := by
  rw [lastSeed, List.foldl_append]
  rfl

theorem Seeded.step (hg : g.Bytewise) (h : Seeded t₀ ps t) (hp : p.Host) (hin : InRow g p) :
    Seeded t₀ (ps ++ [p]) (t.step p) := by
  obtain ⟨hctrl, hquiet⟩ := step_idle h.state h.quiet hp.rstN hp.clear hp.start
  refine ⟨by rw [hctrl]; exact h.state, hquiet, fun r b hb => ?_⟩
  rw [AccMem.byte_eq hg _ r hb, accQ_step_of_host h.state h.quiet hp, lastSeed_append,
    ← h.byte r b hb]
  by_cases hseed : p.cmd.seed = true
  · by_cases hrow : (AccMem.argRow g p.cmd.arg).toNat < g.rows
    · rw [if_pos ⟨hseed, hrow⟩, byte_setPart hg _ _ hrow (hin hseed) r hb]
      simp only [hseed, Pins.Selects, true_and]
    · have hsel : ¬p.Selects g r b := fun hsel => hrow (hsel.1 ▸ r.isLt)
      rw [if_neg (fun h => hrow h.2), if_neg (fun h => hsel h.2), AccMem.byte_eq hg _ r hb]
  · rw [if_neg (fun h => hseed h.1), if_neg (fun h => hseed h.1), AccMem.byte_eq hg _ r hb]

theorem seeded_after (hg : g.Bytewise) (h : Reachable t) (hidle : t.idle = true) (ps : List Pins)
    (hp : ∀ p ∈ ps, p.Host) (hin : ∀ p ∈ ps, InRow g p) : Seeded t ps (t.after ps) := by
  have hstate : t.ctrl.stateQ = .idle := by simpa [Ctrl.idle] using hidle
  induction ps using List.reverseRecOn with
  | nil => exact ⟨hstate, Reachable.quiet h hstate, fun _ _ _ => rfl⟩
  | append_singleton ps p ih =>
    have hprev := ih (fun q hq => hp q (by simp [hq])) (fun q hq => hin q (by simp [hq]))
    rw [after, List.foldl_append]
    exact hprev.step hg (hp p (by simp)) (hin p (by simp))

/-- In a run that keeps to its rows the file is kept. -/
theorem KeepsFile.of_inRow (hg : g.Bytewise) (h : Reachable t) (hidle : t.idle = true)
    (hp : ∀ p ∈ ps, p.Host) (hin : ∀ p ∈ ps, InRow g p) : KeepsFile t ps := by
  have hseeded : ∀ ps₁, ps₁ <+: ps → Seeded t ps₁ (t.after ps₁) := fun ps₁ hpre =>
    seeded_after hg h hidle ps₁ (fun p hm => hp p (hpre.subset hm)) (fun p hm =>
      hin p (hpre.subset hm))
  refine ⟨fun ps₁ hpre => ?_, fun ps₁ hpre q r b hb hrdp hsel => ?_, fun ps₁ p hpre hout => ?_⟩
  · simp [Ctrl.idle, (hseeded ps₁ hpre).state]
  · have hrow : AccMem.rowOob g q.cmd.arg = false := by
      simp only [AccMem.rowOob, decide_eq_false_iff_not, hsel.1]
      omega
    rw [uoOut, if_pos hrdp, AccMem.resultByte, hrow, if_neg Bool.false_ne_true,
      AccMem.byteBase_eq hg, hsel.1, hsel.2, ← AccMem.byte_eq hg _ r hb]
    exact (hseeded ps₁ hpre).byte r b hb
  · have hprev := hseeded ps₁ ((List.prefix_append ps₁ [p]).trans hpre)
    have hmem : p ∈ ps := hpre.subset (by simp)
    rw [after, List.foldl_append, List.foldl_cons, List.foldl_nil,
      accQ_step_of_host hprev.state hprev.quiet (hp p hmem)]
    split
    · rename_i hwrite
      obtain ⟨hseed, hrow | hbyte⟩ := hout
      · omega
      · have hlast : (AccMem.argRow g p.cmd.arg).toNat + 1 = g.rows := by
          have := hin p hmem hseed
          omega
        exact setPart_past hg _ _ hlast hbyte
    · rfl

end Run

/-! ## Which geometries keep the file -/

/-- Every byte selector denotes a byte of the row, or there is no row to overrun into. -/
def Geometry.Closed (g : Geometry) : Prop := g.rows = 1 ∨ g.psumBytes = 2 ^ g.byteSelW

theorem Geometry.Closed.inRow (h : g.Closed) (p : Pins) : InRow g p := by
  intro _ hrow
  rcases h with hrows | hbytes
  · omega
  · rw [hbytes]
    exact (AccMem.argByte g p.cmd.arg).isLt

/-- A SEED of the first row with the byte selector one past its last byte. -/
def overrun (g : Geometry) : Pins :=
  ⟨true, BitVec.ofNat 8 (4 + 8 * (g.psumBytes * 2 ^ g.rowSelW)), 0xFF#8⟩

theorem overrun_host (g : Geometry) : (overrun g).Host ∧ (overrun g).cmd.seed = true := by
  have hcmd : (overrun g).uiIn.extractLsb' 0 3 = 4#3 := by
    apply BitVec.eq_of_toNat_eq
    simp only [overrun, BitVec.extractLsb'_toNat, BitVec.toNat_ofNat, Nat.shiftRight_zero]
    omega
  refine ⟨⟨rfl, ?_, ?_⟩, ?_⟩
  · simp [Pins.cmd, cmdDecode, hcmd]
  · simp [Pins.cmd, cmdDecode, hcmd]
  · simp [Pins.cmd, cmdDecode, hcmd]

theorem overrun_selects (hg : g.Bytewise) (h : g.psumBytes < 2 ^ g.byteSelW) :
    (overrun g).Selects g 0 g.psumBytes := by
  have hlt : g.psumBytes * 2 ^ g.rowSelW < 32 := by
    calc g.psumBytes * 2 ^ g.rowSelW < 2 ^ g.byteSelW * 2 ^ g.rowSelW :=
          Nat.mul_lt_mul_of_pos_right h (Nat.two_pow_pos _)
      _ = 2 ^ (g.rowSelW + g.byteSelW) := by rw [Nat.pow_add, Nat.mul_comm]
      _ ≤ 2 ^ 5 := Nat.pow_le_pow_right (by decide) hg.fits
  have harg : (overrun g).cmd.arg.toNat = g.psumBytes * 2 ^ g.rowSelW := by
    simp only [Pins.cmd, cmdDecode, overrun, BitVec.extractLsb'_toNat, BitVec.toNat_ofNat,
      Nat.shiftRight_eq_div_pow]
    omega
  constructor
  · rw [AccMem.argRow, BitVec.extractLsb'_toNat, harg, Nat.shiftRight_zero, Nat.mul_mod_left]
  · rw [AccMem.argByte, BitVec.extractLsb'_toNat, harg, Nat.shiftRight_eq_div_pow,
      Nat.mul_div_cancel _ (Nat.two_pow_pos _), Nat.mod_eq_of_lt h]

/-- Where there is a next row, that SEED changes it. -/
theorem not_keepsFile_overrun (hg : g.Bytewise) (hrows : g.rows ≠ 1)
    (h : g.psumBytes < 2 ^ g.byteSelW) :
    ¬KeepsFile (reset : Tile g) [overrun g] := by
  intro hkeeps
  obtain ⟨hhost, hseed⟩ := overrun_host g
  obtain ⟨hrow, hbyte⟩ := overrun_selects hg h
  have hpos := g.rowsPos
  have hsame :=
    hkeeps.ignored [] (overrun g) (List.prefix_refl _) ⟨hseed, .inr (Nat.le_of_eq hbyte.symm)⟩
  have hstep := accQ_step_of_host (t := (reset : Tile g)) rfl (fun _ _ => rfl) hhost
  rw [if_pos ⟨hseed, by omega⟩] at hstep
  have hdata : (overrun g).uioIn = 0xFF#8 := rfl
  have hbase : AccMem.byteBase g (overrun g).cmd.arg = g.psumWidth := by
    rw [AccMem.byteBase_eq hg, hrow, hbyte, hg.psumWidth, Nat.zero_mul, Nat.zero_add]
  have hnext : g.psumWidth < g.rows * g.psumWidth := by
    have hmul : 2 * g.psumWidth ≤ g.rows * g.psumWidth := Nat.mul_le_mul_right _ (by omega)
    have := hg.psumPos
    omega
  have hbit :
      (((reset : Tile g).accmem.accQ.setPart g.psumWidth 0xFF#8).getLsbD g.psumWidth) = false := by
    rw [hbase, hdata] at hstep
    rw [← hstep]
    exact (congrArg (fun x => x.getLsbD g.psumWidth) hsame).trans BitVec.getLsbD_zero
  rw [BitVec.getLsbD_setPart, if_pos (by omega), Nat.sub_self] at hbit
  simp [hnext] at hbit

/-- In every sequence of commands in which no SEED runs over the end of a row before the last one,
    every byte read is the one written last and a SEED outside of the file changes nothing; and all
    sequences are like that exactly if there is one row or the byte selector has no values to
    spare. -/
theorem accumulator_file (g : Geometry) (hg : g.Bytewise) :
    (∀ t : Tile g, Reachable t → t.idle = true → ∀ ps : List Pins,
      (∀ p ∈ ps, p.Host) → (∀ p ∈ ps, InRow g p) →
      KeepsFile t ps) ∧
    ((∀ t : Tile g, Reachable t → t.idle = true → ∀ ps : List Pins,
      (∀ p ∈ ps, p.Host) → KeepsFile t ps) ↔ g.Closed) := by
  refine ⟨fun t ht hidle ps hp hin => .of_inRow hg ht hidle hp hin, fun hall => ?_,
    fun hclosed t ht hidle ps hp => ?_⟩
  · by_contra hopen
    rw [Geometry.Closed, not_or] at hopen
    have hle : g.psumBytes ≤ 2 ^ g.byteSelW := le_two_pow_selW g.psumBytes
    refine not_keepsFile_overrun hg hopen.1 (by omega) (hall reset (.init rfl) rfl _ fun p hp => ?_)
    rw [List.mem_singleton.mp hp]
    exact (overrun_host g).1
  · exact .of_inRow hg ht hidle hp fun p _ => hclosed.inRow p

/-- Three rows of 24-bit accumulators: the byte selector has a value to spare. -/
def threeByteTile : Geometry := ⟨3, 2, 24, by decide, one_le_two_cols, two_cols_le⟩

theorem threeByteTile_bytewise : threeByteTile.Bytewise := ⟨rfl, by decide, by decide⟩

/-- SEED of byte 2 of row 1, RDP of it, and SEED of byte 3 of row 2. -/
theorem accumulator_file_three_bytes :
    KeepsFile (reset : Tile threeByteTile) [⟨true, 0x4C#8, 0xAB#8⟩, ⟨true, 0x4E#8, 0#8⟩,
      ⟨true, 0x74#8, 0xCD#8⟩] := by
  refine (accumulator_file threeByteTile threeByteTile_bytewise).1 reset (.init rfl) rfl _ ?_ ?_
  · simp only [List.forall_mem_cons, List.not_mem_nil, false_imp_iff, implies_true, and_true]
    exact ⟨⟨rfl, rfl, rfl⟩, ⟨rfl, rfl, rfl⟩, ⟨rfl, rfl, rfl⟩⟩
  · simp only [List.forall_mem_cons, List.not_mem_nil, false_imp_iff, implies_true, and_true, InRow]
    decide

/-- SEED of byte 3 of row 0 is outside of the file and changes byte 0 of row 1, which RDP then
    shows. -/
theorem seed_overruns_row :
    Reachable (reset : Tile threeByteTile) ∧ (reset : Tile threeByteTile).idle = true ∧
    (⟨true, 0x64#8, 0xFF#8⟩ : Pins).Host ∧ (⟨true, 0x64#8, 0xFF#8⟩ : Pins).OutOfFile threeByteTile ∧
    (⟨true, 0x0E#8, 0#8⟩ : Pins).cmd.rdp = true ∧
    (⟨true, 0x0E#8, 0#8⟩ : Pins).Selects threeByteTile 1 0 ∧
    ((reset : Tile threeByteTile).step ⟨true, 0x64#8, 0xFF#8⟩).uoOut ⟨true, 0x0E#8, 0#8⟩ = 0xFF#8 ∧
    ¬KeepsFile (reset : Tile threeByteTile) [⟨true, 0x64#8, 0xFF#8⟩] := by
  have hread : ((reset : Tile threeByteTile).step ⟨true, 0x64#8, 0xFF#8⟩).uoOut
      ⟨true, 0x0E#8, 0#8⟩ = 0xFF#8 := by
    decide +kernel
  refine ⟨.init rfl, rfl, ⟨rfl, rfl, rfl⟩, ⟨rfl, ?_⟩, rfl, by decide, hread, fun hkeeps => ?_⟩
  · decide
  · have hbyte := hkeeps.read [⟨true, 0x64#8, 0xFF#8⟩] (List.prefix_refl _) ⟨true, 0x0E#8, 0#8⟩
      ⟨1, by decide⟩ 0
      (by decide) rfl (by decide)
    rw [after, List.foldl_cons, List.foldl_nil, hread] at hbyte
    revert hbyte
    decide +kernel

end Tile
