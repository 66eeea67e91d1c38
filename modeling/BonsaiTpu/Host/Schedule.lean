-- SUMMARY: The host's open-loop cycle schedule on the chip: latency, selectors and accumulated partial sums over whole plans.
import BonsaiTpu.Host.Protocol
import Mathlib.Tactic.FinCases

/-!
# Plans on the chip

The host emits the cycles of a plan without looking at the chip. Here the emitted
bytes are followed through the RTL: a tile, whatever its run flags, takes a ready
chip to a ready chip, and what it leaves behind depends on the accumulators only.
-/

namespace Bonsai

open Tile (chip View Ready Pins)

abbrev Chip := Tile chip

theorem chip_exact : chip.Exact where
  rows x := x.isLt
  cols x := x.isLt
  bytes x := by
    have hx : x.toNat < 2 := x.isLt
    show x.toNat * 8 + 8 ≤ 16
    omega

/-! ## Commands of the protocol -/

theorem cmdDecode_packUi (cmd : Command) (arg : Byte) :
    Tile.cmdDecode (packUi cmd arg) =
      { clear := cmd == .clear, ldw := cmd == .ldw, lda := cmd == .lda, seed := cmd == .seed,
        start := cmd == .start, rdp := cmd == .rdp, arg := arg.setWidth 5 } := by
  revert arg
  cases cmd <;> decide +kernel

@[simp] theorem wrow_encodeRowArg (row : Fin tileRows) :
    (Tile.WeightMem.wrow chip ((encodeRowArg row).setWidth 5)).toNat = row := by
  revert row
  decide

@[simp] theorem wcol_encodeColArg (col : Fin tileCols) :
    (Tile.ActMem.wcol chip ((encodeColArg col).setWidth 5)).toNat = col := by
  revert col
  decide

@[simp] theorem argRow_encodeRowByteArg (row : Fin tileRows) (byte : Fin psumBytes) :
    (Tile.AccMem.argRow chip ((encodeRowByteArg row byte).setWidth 5)).toNat = row := by
  revert row byte
  decide

@[simp] theorem argByte_encodeRowByteArg (row : Fin tileRows) (byte : Fin psumBytes) :
    (Tile.AccMem.argByte chip ((encodeRowByteArg row byte).setWidth 5)).toNat = byte := by
  revert row byte
  decide

theorem execPair_nop (v : View chip) : v.execPair nopPair = v := by
  simp [View.execPair, View.exec, nopPair, cmdDecode_packUi]

theorem execPair_clear (v : View chip) :
    v.execPair (packUi .clear 0, 0) = { v with amem := fun _ => 0, acc := fun _ => 0 } := by
  simp [View.execPair, View.exec, cmdDecode_packUi]

theorem execPair_ldw (v : View chip) (row : Fin tileRows) (data : Byte) :
    v.execPair (packUi .ldw (encodeRowArg row), data) =
      { v with wmem := fun r c => if row = r then data.getLsbD c else v.wmem r c } := by
  simp [View.execPair, View.exec, cmdDecode_packUi, Fin.val_inj]

theorem execPair_lda (v : View chip) (lane : Fin tileCols) (data : Byte) :
    v.execPair (packUi .lda (encodeColArg lane), data) =
      { v with amem := fun c => if lane = c then data else v.amem c } := by
  simp [View.execPair, View.exec, cmdDecode_packUi, Fin.val_inj]

theorem execPair_seed (v : View chip) (row : Fin tileRows) (byte : Fin psumBytes) (data : Byte) :
    v.execPair (packUi .seed (encodeRowByteArg row byte), data) =
      { v with
        acc := fun r => if row = r then (v.acc r).setPart (byte * 8) data else v.acc r } := by
  simp [View.execPair, View.exec, cmdDecode_packUi, Fin.val_inj]

theorem execPair_rdp (v : View chip) (arg : Byte) : v.execPair (packUi .rdp arg, 0) = v := by
  simp [View.execPair, View.exec, cmdDecode_packUi]

/-! ## Bytes of a partial sum -/

theorem getLsbD_seedByte (seed : BitVec 16) (byte i : Nat) :
    (seedByte seed byte).getLsbD i = (decide (i < 8) && seed.getLsbD (byte * 8 + i)) := by
  have hff : ∀ k < 8, (255#16).getLsbD k = true := by decide
  by_cases hi : i < 8
  · have hi16 : i < 16 := by omega
    simp only [seedByte, BitVec.getLsbD_setWidth, BitVec.getLsbD_and, BitVec.getLsbD_ushiftRight,
      hff i hi, hi, decide_true, Bool.true_and, Bool.and_true]
  · simp only [seedByte, BitVec.getLsbD_setWidth, hi, decide_false, Bool.false_and]

/-- Writing the two bytes of a seed replaces the accumulator. -/
theorem setPart_seedByte (x seed : BitVec 16) :
    (x.setPart (0 * 8) (seedByte seed 0)).setPart (1 * 8) (seedByte seed 1) = seed := by
  apply BitVec.eq_of_getLsbD_eq
  intro i hi
  simp only [BitVec.getLsbD_setPart, getLsbD_seedByte, hi, decide_true, Bool.true_and]
  by_cases h8 : i < 8
  · have hhi : ¬ 8 ≤ i := by omega
    simp [h8, hhi]
  · have hlo : 8 ≤ i := by omega
    have hsub : i - 8 < 8 := by omega
    have hsum : 8 + (i - 8) = i := by omega
    simp [hlo, hi, hsub, hsum]

/-- Reading both bytes gives the accumulator back. -/
theorem rawPsum_extract (x : BitVec 16) : rawPsum (fun byte => x.extractLsb' (byte * 8) 8) = x := by
  have hrange : List.range psumBytes = [0, 1] := rfl
  apply BitVec.eq_of_getLsbD_eq
  intro i hi
  by_cases h8 : i < 8
  · simp [rawPsum, hrange, h8, hi]
  · have hsub : i - 8 < 8 := by omega
    have hlo : 8 ≤ i := by omega
    have hsum : 8 + (i - 8) = i := by omega
    simp [rawPsum, hrange, h8, hi, hsub, hlo, hsum]

/-! ## One tile -/

/-- The chip once a tile is loaded: nothing of the scratchpads before is left. -/
def PlanOp.loaded (op : PlanOp) (v : View chip) : View chip where
  wmem r c := (op.matmulTile.packedWeights r).getLsbD c
  amem := op.matmulTile.acts
  acc r := if op.startsRun then op.matmulTile.seeds r else v.acc r

/-- The chip once a tile has run. -/
def PlanOp.ran (op : PlanOp) (v : View chip) : View chip := (op.loaded v).fire

private theorem finRange_two : List.finRange 2 = [0, 1] := rfl

theorem rowBytes_eq : rowBytes = [(0, 0), (0, 1), (1, 0), (1, 1)] := rfl

theorem loadPairs_exec (op : PlanOp) (v : View chip) :
    (loadPairs op.matmulTile op.startsRun).foldl View.execPair v = op.loaded v := by
  cases hs : op.startsRun with
  | false =>
    simp only [loadPairs, Bool.false_eq_true, if_false, List.nil_append, List.append_nil,
      finRange_two, List.map_cons, List.map_nil, List.cons_append, List.foldl_cons, List.foldl_nil,
      execPair_ldw, execPair_lda, PlanOp.loaded, hs]
    ext r
    · fin_cases r <;> rfl
    · fin_cases r <;> rfl
    · rfl
  | true =>
    simp only [loadPairs, if_true, rowBytes_eq, finRange_two, List.map_cons, List.map_nil,
      List.cons_append, List.nil_append, List.foldl_cons, List.foldl_nil, execPair_clear,
      execPair_nop, execPair_ldw, execPair_lda, execPair_seed, PlanOp.loaded, hs]
    refine View.ext ?_ ?_ ?_ <;> funext r
    · fin_cases r <;> rfl
    · fin_cases r <;> rfl
    · fin_cases r
      · exact setPart_seedByte 0 _
      · exact setPart_seedByte 0 _

/-! ## Driving the chip -/

/-- The chip after the given cycles. -/
def drive (ps : List Pair) (t : Chip) : Chip := (ps.map Pins.ofPair).foldl Tile.step t

/-- The `uo_out` bytes of the given cycles. -/
def uoBytes (ps : List Pair) (t : Chip) : List Byte :=
  Machine.outputs Tile.step Tile.uoOut t (ps.map Pins.ofPair)

@[simp] theorem drive_nil (t : Chip) : drive [] t = t := rfl

@[simp] theorem drive_append (ps qs : List Pair) (t : Chip) :
    drive (ps ++ qs) t = drive qs (drive ps t) := by
  simp [drive]

@[simp] theorem uoBytes_append (ps qs : List Pair) (t : Chip) :
    uoBytes (ps ++ qs) t = uoBytes ps t ++ uoBytes qs (drive ps t) := by
  simp [uoBytes, drive, Machine.outputs_append]

@[simp] theorem length_uoBytes (ps : List Pair) (t : Chip) : (uoBytes ps t).length = ps.length := by
  simp [uoBytes]

/-- A sequence of protocol cycles without START. -/
def Startless (ps : List Pair) : Prop := ∀ p ∈ ps, (Tile.cmdDecode p.1).start = false

theorem loadPairs_startless (m : MatmulTileAttrs) (startsRun : Bool) :
    Startless (loadPairs m startsRun) := by
  cases startsRun <;>
    simp only [Startless, loadPairs, nopPair, List.forall_mem_append, List.forall_mem_map,
      List.forall_mem_cons, cmdDecode_packUi, if_true, if_false,
      Bool.false_eq_true] <;> simp

theorem rdpPairs_startless : Startless rdpPairs := by
  simp only [Startless, rdpPairs, List.forall_mem_map, cmdDecode_packUi]
  simp

section Ready

variable {t : Chip} {v : View chip}

theorem ready_load (h : Ready t v) (op : PlanOp) :
    Ready (drive (loadPairs op.matmulTile op.startsRun) t) (op.loaded v) := by
  rw [← loadPairs_exec]
  exact h.execPairs chip_exact _ (loadPairs_startless _ _)

theorem firePairs_eq : firePairs = startPair :: List.replicate 7 nopPair := rfl

theorem firePairs_phaseAt (h : Ready t v) (k : Nat) (hk : k ≤ 7) :
    Tile.PhaseAt t (k + 1) (drive (firePairs.take (k + 1)) t) := by
  have htake : firePairs.take (k + 1) = startPair :: List.replicate k nopPair := by
    rw [firePairs_eq, List.take_succ_cons, List.take_replicate, Nat.min_eq_left hk]
  have hphase := h.phaseAt (Pins.ofPair startPair) ((List.replicate k nopPair).map Pins.ofPair) rfl
    (by simp [Pins.ofPair, Pins.cmd, startPair, cmdDecode_packUi])
    (by simp [Pins.ofPair, Pins.cmd, nopPair, cmdDecode_packUi])
    (by simpa [Tile.Geometry.runCycles] using hk)
  rw [htake, drive, List.map_cons]
  simpa using hphase

theorem ready_fire (h : Ready t v) : Ready (drive firePairs t) v.fire :=
  h.fired (firePairs_phaseAt h 7 (Nat.le_refl 7)).finished

/-- RDP reads the accumulators and leaves the chip as it is. -/
theorem ready_rdp (h : Ready t v) (rbs : List (Fin tileRows × Fin psumBytes)) :
    let ps := rbs.map fun rb => (packUi .rdp (encodeRowByteArg rb.1 rb.2), 0)
    Ready (drive ps t) v ∧
      uoBytes ps t = rbs.map fun rb => (v.acc rb.1).extractLsb' (rb.2 * 8) 8 := by
  induction rbs generalizing t with
  | nil => exact ⟨h, rfl⟩
  | cons rb rbs ih =>
    have hstep : Ready (t.step (Pins.ofPair (packUi .rdp (encodeRowByteArg rb.1 rb.2), 0))) v := by
      rw [← execPair_rdp v (encodeRowByteArg rb.1 rb.2)]
      exact h.exec chip_exact rfl (by simp [Pins.ofPair, Pins.cmd, cmdDecode_packUi])
    obtain ⟨hready, hout⟩ := ih hstep
    refine ⟨hready, ?_⟩
    have hbyte := hstep.uoOut_rdp chip_exact
      (p := Pins.ofPair (packUi .rdp (encodeRowByteArg rb.1 rb.2), 0))
      (by simp [Pins.ofPair, Pins.cmd, cmdDecode_packUi]) rb.1
      (by simp [Pins.ofPair, Pins.cmd, cmdDecode_packUi])
    simp only [List.map_cons, uoBytes, Machine.outputs_cons]
    rw [hbyte]
    congr 1
    simp [Pins.ofPair, Pins.cmd, cmdDecode_packUi]

/-- Before and after every cycle of a sequence without START the chip is idle. -/
theorem Startless.idle {ps : List Pair} (hps : Startless ps) (h : Ready t v) (j : Nat) :
    (drive (ps.take j) t).busy = false :=
  (h.execPairs chip_exact (ps.take j) fun p hp => hps p (List.mem_of_mem_take hp)).busy

theorem Startless.getElem?_ne {ps : List Pair} (hps : Startless ps) (j : Nat) :
    ps[j]? ≠ some startPair := by
  intro hj
  have := hps _ (List.mem_of_getElem? hj)
  simp [startPair, cmdDecode_packUi] at this

end Ready

/-! ## Pacing -/

/-- The chip is busy in exactly the seven cycles after each START. -/
def Paced (ps : List Pair) (t : Chip) : Prop :=
  ∀ j ≤ ps.length, (drive (ps.take j) t).busy = true ↔
    ∃ k, 1 ≤ k ∧ k ≤ 7 ∧ k ≤ j ∧ ps[j - k]? = some startPair

/-- Each START is followed by seven NOPs. -/
def Padded (ps : List Pair) : Prop :=
  ∀ j, ps[j]? = some startPair → ∀ k, 1 ≤ k → k ≤ 7 → ps[j + k]? = some nopPair

theorem Padded.lt_length {ps : List Pair} (hps : Padded ps) {j : Nat}
    (hj : ps[j]? = some startPair) :
    j + 7 < ps.length :=
  (List.getElem?_eq_some_iff.mp (hps j hj 7 (by decide) (by decide))).1

theorem Padded.append {ps qs : List Pair} (hps : Padded ps) (hqs : Padded qs) :
    Padded (ps ++ qs) := by
  intro j hj k h1 h7
  by_cases hlt : j < ps.length
  · rw [List.getElem?_append_left hlt] at hj
    have := hps.lt_length hj
    rw [List.getElem?_append_left (by omega)]
    exact hps j hj k h1 h7
  · rw [List.getElem?_append_right (by omega)] at hj
    have hsub : j + k - ps.length = j - ps.length + k := by omega
    rw [List.getElem?_append_right (by omega), hsub]
    exact hqs _ hj k h1 h7

theorem Paced.append {ps qs : List Pair} {t : Chip} (hpad : Padded ps) (hps : Paced ps t)
    (hqs : Paced qs (drive ps t)) : Paced (ps ++ qs) t := by
  intro j hj
  rw [List.length_append] at hj
  by_cases hlt : j ≤ ps.length
  · rw [List.take_append_of_le_length hlt, hps j hlt]
    constructor
    · rintro ⟨k, h1, h7, hkj, hk⟩
      have := hpad.lt_length hk
      exact ⟨k, h1, h7, hkj, by rw [List.getElem?_append_left (by omega)]; exact hk⟩
    · rintro ⟨k, h1, h7, hkj, hk⟩
      exact ⟨k, h1, h7, hkj, by rwa [List.getElem?_append_left (by omega)] at hk⟩
  · rw [List.take_append, List.take_of_length_le (by omega), drive_append, hqs _ (by omega)]
    constructor
    · rintro ⟨k, h1, h7, hkj, hk⟩
      have hsub : j - k - ps.length = j - ps.length - k := by omega
      exact ⟨k, h1, h7, by omega, by rw [List.getElem?_append_right (by omega), hsub]; exact hk⟩
    · rintro ⟨k, h1, h7, hkj, hk⟩
      -- A START before the boundary has its padding before the boundary too.
      by_cases hleft : j - k < ps.length
      · rw [List.getElem?_append_left hleft] at hk
        have := hpad.lt_length hk
        omega
      · have hsub : j - k - ps.length = j - ps.length - k := by omega
        rw [List.getElem?_append_right (by omega), hsub] at hk
        exact ⟨k, h1, h7, by omega, hk⟩

theorem Startless.padded {ps : List Pair} (hps : Startless ps) : Padded ps :=
  fun j hj => absurd hj (hps.getElem?_ne j)

theorem Startless.paced {ps : List Pair} (hps : Startless ps) {t : Chip} {v : View chip}
    (h : Ready t v) : Paced ps t := by
  intro j _
  rw [hps.idle h j]
  constructor
  · intro hfalse
    cases hfalse
  · rintro ⟨k, -, -, -, hk⟩
    exact absurd hk (hps.getElem?_ne _)

theorem firePairs_start {j : Nat} (hj : firePairs[j]? = some startPair) : j = 0 := by
  cases j with
  | zero => rfl
  | succ j =>
    rw [firePairs_eq, List.getElem?_cons_succ, List.getElem?_replicate] at hj
    split at hj
    · exact absurd hj (by decide)
    · cases hj

theorem firePairs_padded : Padded firePairs := by
  intro j hj k h1 h7
  obtain rfl := firePairs_start hj
  obtain ⟨k, rfl⟩ : ∃ i, k = i + 1 := ⟨k - 1, by omega⟩
  rw [firePairs_eq, Nat.zero_add, List.getElem?_cons_succ, List.getElem?_replicate,
    if_pos (by omega)]

theorem firePairs_paced {t : Chip} {v : View chip} (h : Ready t v) : Paced firePairs t := by
  intro j hj
  have hlen : firePairs.length = 8 := rfl
  cases j with
  | zero =>
    rw [List.take_zero, drive_nil, h.busy]
    constructor
    · intro hfalse
      cases hfalse
    · rintro ⟨k, h1, -, hk, -⟩
      omega
  | succ j =>
    by_cases hlast : j = 7
    · subst hlast
      have hbusy : (drive (firePairs.take (7 + 1)) t).busy = false := (ready_fire h).busy
      rw [hbusy]
      constructor
      · intro hfalse
        cases hfalse
      · rintro ⟨k, -, h7, -, hk⟩
        have := firePairs_start hk
        omega
    · have hbusy := (firePairs_phaseAt h j (by omega)).busy (by omega) (by
        simp only [Tile.Geometry.runCycles]
        omega)
      rw [hbusy.1]
      refine ⟨fun _ => ⟨j + 1, by omega, by omega, le_refl _, ?_⟩, fun _ => rfl⟩
      rw [Nat.sub_self]
      rfl

/-! ## Whole tiles and plans -/

def planPairs (plan : Plan) : List Pair := plan.flatMap fun op => op.tilePairs.pairs

/-- The bytes of RDP cycles that show `v`. -/
def rdpBytes (v : View chip) : List Byte :=
  rowBytes.map fun rb => (v.acc rb.1).extractLsb' (rb.2 * 8) 8

theorem tilePairs_pairs (op : PlanOp) : op.tilePairs.pairs =
    loadPairs op.matmulTile op.startsRun ++ firePairs ++ if op.endsRun then rdpPairs else [] := by
  unfold PlanOp.tilePairs buildTilePairs
  cases op.endsRun <;> simp

theorem length_tilePairs (op : PlanOp) :
    op.tilePairs.pairs.length = tileCyclesFor op.startsRun op.endsRun := by
  rw [tilePairs_pairs]
  cases hs : op.startsRun <;> cases he : op.endsRun <;> rfl

section Tiles

variable {t : Chip} {v : View chip}

theorem ready_body (h : Ready t v) (op : PlanOp) :
    Ready (drive (loadPairs op.matmulTile op.startsRun ++ firePairs) t) (op.ran v) := by
  rw [drive_append]
  exact ready_fire (ready_load h op)

theorem ready_tile (h : Ready t v) (op : PlanOp) :
    Ready (drive op.tilePairs.pairs t) (op.ran v) := by
  rw [tilePairs_pairs, drive_append]
  cases op.endsRun with
  | false => exact ready_body h op
  | true => exact (ready_rdp (ready_body h op) rowBytes).1

theorem tail_startless (op : PlanOp) : Startless (if op.endsRun then rdpPairs else []) := by
  cases op.endsRun with
  | false => exact fun p hp => absurd hp List.not_mem_nil
  | true => exact rdpPairs_startless

theorem padded_body (op : PlanOp) : Padded (loadPairs op.matmulTile op.startsRun ++ firePairs) :=
  (loadPairs_startless _ _).padded.append firePairs_padded

theorem padded_tile (op : PlanOp) : Padded op.tilePairs.pairs := by
  rw [tilePairs_pairs]
  exact (padded_body op).append (tail_startless op).padded

theorem paced_tile (h : Ready t v) (op : PlanOp) : Paced op.tilePairs.pairs t := by
  have hload := loadPairs_startless op.matmulTile op.startsRun
  rw [tilePairs_pairs]
  refine Paced.append (padded_body op) ?_ ((tail_startless op).paced (ready_body h op))
  exact Paced.append hload.padded (hload.paced h) (firePairs_paced (ready_load h op))

/-- The accumulators seen by the host after a plan. -/
def planView (plan : Plan) (v : View chip) : View chip := plan.foldl (fun v op => op.ran v) v

theorem planView_append (plan : Plan) (op : PlanOp) (v : View chip) :
    planView (plan ++ [op]) v = op.ran (planView plan v) := by
  simp [planView]

theorem ready_plan (h : Ready t v) (plan : Plan) :
    Ready (drive (planPairs plan) t) (planView plan v) := by
  induction plan generalizing t v with
  | nil => exact h
  | cons op plan ih =>
    have hplan : planPairs (op :: plan) = op.tilePairs.pairs ++ planPairs plan := rfl
    rw [hplan, drive_append]
    exact ih (ready_tile h op)

theorem padded_plan (plan : Plan) : Padded (planPairs plan) := by
  induction plan with
  | nil => exact Startless.padded fun p hp => absurd hp List.not_mem_nil
  | cons op plan ih => exact (padded_tile op).append ih

theorem paced_plan (h : Ready t v) (plan : Plan) : Paced (planPairs plan) t := by
  induction plan generalizing t v with
  | nil => exact Startless.paced (fun p hp => absurd hp List.not_mem_nil) h
  | cons op plan ih => exact Paced.append (padded_tile op) (paced_tile h op) (ih (ready_tile h op))

end Tiles

/-! ## Accumulation over a run -/

/-- `Σ (a[lane] if (packed_weights[r] >> lane) & 1 else -a[lane])`. -/
def PlanOp.dot (op : PlanOp) (r : Fin tileRows) : Int :=
  ∑ lane : Fin tileCols, if (op.matmulTile.packedWeights r).getLsbD lane then
    (op.matmulTile.acts lane).toInt
    else -(op.matmulTile.acts lane).toInt

/-- The tiles from the latest `starts_run` tile on. -/
def currentRun (plan : Plan) : Plan :=
  plan.foldl (fun run op => if op.startsRun then [op] else run ++ [op]) []

/-- The seed of the run and the contributions of its tiles. -/
def runPsum (run : Plan) (r : Fin tileRows) : Int :=
  (run.head?.elim 0 fun first => (first.matmulTile.seeds r).toInt) + (run.map (·.dot r)).sum

theorem ran_acc (op : PlanOp) (v : View chip) (r : Fin tileRows) :
    (op.ran v).acc r = BitVec.ofInt 16
      ((if op.startsRun then op.matmulTile.seeds r else v.acc r).toInt + op.dot r) := rfl

theorem currentRun_append (plan : Plan) (op : PlanOp) : currentRun (plan ++ [op]) =
    if op.startsRun then [op] else currentRun plan ++ [op] := by
  simp [currentRun]

theorem currentRun_ne_nil {plan : Plan} (h : plan ≠ []) : currentRun plan ≠ [] := by
  cases plan using List.reverseRecOn with
  | nil => exact absurd rfl h
  | append_singleton plan op =>
    rw [currentRun_append]
    split <;> simp

theorem runPsum_append {run : Plan} (h : run ≠ []) (op : PlanOp) (r : Fin tileRows) :
    runPsum (run ++ [op]) r = runPsum run r + op.dot r := by
  cases run with
  | nil => exact absurd rfl h
  | cons first run => simp [runPsum, add_assoc]

/-- After a plan whose first tile starts a run, the accumulators hold the sum of
    the current run. -/
theorem planView_acc (plan : Plan) (hne : plan ≠ [])
    (hfirst : ∀ op ∈ plan.head?, op.startsRun = true)
    (v : View chip) (r : Fin tileRows) :
    (planView plan v).acc r = BitVec.ofInt 16 (runPsum (currentRun plan) r) := by
  induction plan using List.reverseRecOn with
  | nil => exact absurd rfl hne
  | append_singleton plan op ih =>
    rw [planView_append, ran_acc, currentRun_append]
    cases hs : op.startsRun with
    | true => simp [runPsum]
    | false =>
      have hplan : plan ≠ [] := by
        rintro rfl
        have := hfirst op (by simp)
        simp [hs] at this
      have hfirst' : ∀ op ∈ plan.head?, op.startsRun = true := by
        intro op' hop'
        apply hfirst op'
        rw [List.head?_append, hop']
        rfl
      simp only [Bool.false_eq_true, if_false]
      rw [ih hplan hfirst', runPsum_append (currentRun_ne_nil hplan), BitVec.ofInt_add,
        BitVec.ofInt_toInt, ← BitVec.ofInt_add]

/-! ## Reading results back -/

theorem rawPsum_congr {f f' : Nat → Byte} (h0 : f 0 = f' 0) (h1 : f 1 = f' 1) :
    rawPsum f = rawPsum f' := by
  have hrange : List.range psumBytes = [0, 1] := rfl
  simp [rawPsum, hrange, h0, h1]

theorem parsePsumAt_append (xs ys : List Byte) (off row : Nat) :
    parsePsumAt (xs ++ ys) (xs.length + off) row = parsePsumAt ys off row := by
  unfold parsePsumAt
  congr 2
  funext byte
  have hsub : xs.length + off + row * psumBytes + byte - xs.length =
      off + row * psumBytes + byte := by
    omega
  rw [List.getD_eq_getElem?_getD, List.getElem?_append_right (by omega), hsub,
    List.getD_eq_getElem?_getD]

theorem parsePsumAt_rdpBytes (v : View chip) (ys : List Byte) (row : Fin tileRows) :
    parsePsumAt (rdpBytes v ++ ys) 0 row = (v.acc row).toInt := by
  have hraw :
      rawPsum (fun byte => (rdpBytes v ++ ys).getD (0 + row * psumBytes + byte) 0) = v.acc row := by
    rw [← rawPsum_extract (v.acc row)]
    fin_cases row <;> exact rawPsum_congr rfl rfl
  rw [parsePsumAt, hraw, signExtendPsum_eq]

/-- Driving the cycles of a plan into a reachable idle chip: every tile takes the
    announced number of cycles, the chip is busy exactly during the NOPs that pad
    each START, and the bytes of a run's last tile decode to the sum of the run. -/
theorem plan_on_chip (plan : Plan) (hfirst : ∀ op ∈ plan.head?, op.startsRun = true) (t : Chip)
    (ht : Tile.Reachable t) (hidle : t.idle = true) :
    (∀ op ∈ plan, op.tilePairs.pairs.length = tileCyclesFor op.startsRun op.endsRun) ∧
      (∀ j p, (planPairs plan)[j]? = some p →
        (drive ((planPairs plan).take j) t).busy = true → p = nopPair) ∧
      (∀ j ≤ (planPairs plan).length, (drive ((planPairs plan).take j) t).busy = true ↔
        ∃ k, 1 ≤ k ∧ k ≤ 7 ∧ k ≤ j ∧ (planPairs plan)[j - k]? = some startPair) ∧
      ∀ pre op post, plan = pre ++ op :: post → op.endsRun = true → ∀ row : Fin tileRows,
        parsePsumAt (uoBytes (planPairs plan) t)
            ((planPairs pre).length + op.tilePairs.outRdpByteOffset.toNat) row =
          toInt16 (runPsum (currentRun (pre ++ [op])) row) := by
  have h := Ready.of_reachable chip_exact ht hidle
  refine ⟨fun op _ => length_tilePairs op, ?_, paced_plan h plan, ?_⟩
  · intro j p hp hbusy
    have hj : j < (planPairs plan).length := (List.getElem?_eq_some_iff.mp hp).1
    obtain ⟨k, h1, h7, hkj, hk⟩ := (paced_plan h plan j (by omega)).mp hbusy
    have hnop := padded_plan plan (j - k) hk k h1 h7
    rw [Nat.sub_add_cancel hkj, hp] at hnop
    exact Option.some.inj hnop
  · rintro pre op post rfl hends row
    have hbody := ready_body (ready_plan h pre) op
    obtain ⟨-, hbytes⟩ := ready_rdp hbody rowBytes
    have hoff : op.tilePairs.outRdpByteOffset.toNat =
        (loadPairs op.matmulTile op.startsRun ++ firePairs).length := by
      simp only [PlanOp.tilePairs, buildTilePairs, hends, if_true, Int.toNat_natCast]
    have hpairs : planPairs (pre ++ op :: post) = planPairs pre ++
        (loadPairs op.matmulTile op.startsRun ++ firePairs ++ (rdpPairs ++ planPairs post)) := by
      simp [planPairs, tilePairs_pairs, hends]
    have hfirst' : ∀ op' ∈ (pre ++ [op]).head?, op'.startsRun = true := by
      intro op' hop'
      apply hfirst op'
      cases pre <;> simpa using hop'
    rw [hpairs, hoff, uoBytes_append, ← length_uoBytes _ t, parsePsumAt_append, uoBytes_append,
      ← length_uoBytes _ (drive (planPairs pre) t), ← Nat.add_zero (List.length _),
      parsePsumAt_append, uoBytes_append, rdpPairs, hbytes]
    exact (parsePsumAt_rdpBytes _ _ row).trans (by
      rw [← planView_append, planView_acc _ (by simp) hfirst']
      rfl)

/-- A tile with weights `+ -` in row 0 and `- -` in row 1, and seeds `7` and `-1`. -/
def sampleTile : MatmulTileAttrs where
  packedWeights := ![0x01, 0x00]
  acts := ![0x7f, 0x80]
  seeds := ![0x0007, 0xffff]

theorem plan_on_chip_two_tiles :
    parsePsumAt
      (uoBytes (planPairs [⟨true, false, sampleTile⟩, ⟨false, true, sampleTile⟩]) Tile.reset)
      30 0 = 517 := by
  have h := plan_on_chip [⟨true, false, sampleTile⟩, ⟨false, true, sampleTile⟩]
    (by simp) Tile.reset (.init rfl) rfl
  exact (h.2.2.2 [⟨true, false, sampleTile⟩] ⟨false, true, sampleTile⟩ [] rfl rfl 0).trans
    (by decide)

end Bonsai
