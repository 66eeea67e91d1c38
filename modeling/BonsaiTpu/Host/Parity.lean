-- SUMMARY: The verilated transport, which polls the chip for DONE, and its agreement with the USB transport (`transport-verilator.cpp`).
import BonsaiTpu.Host.Usb

/-!
# The verilated transport

`VerilatorTransport` drives the RTL directly, one command at a time, and polls the
status byte instead of padding with NOPs. On every plan without seeds whose request and
reply are below 2^31 bytes the USB transport fills the same output slots; on the others it
does not succeed.
-/

namespace Bonsai

open Tile (chip View Ready Pins)

namespace VerilatorTransport

/-- Drive one command and sample `uo_out` after the rising edge. -/
def transact (cmd : Command) (data arg : Byte) : StateM Chip Byte := fun t =>
  let p : Pins := ⟨true, packUi cmd arg, data⟩
  ((t.step p).uoOut p, t.step p)

def maxPolls : Nat := 128

/-- The polling loop; the result is the `errored` flag. -/
def pollDone : Nat → StateM Chip Bool
  | 0 => pure false
  | polls + 1 => do
    let st ← transact .status 0 0
    if st &&& statusError ≠ 0 then pure true
    else if st &&& statusDone ≠ 0 then pure false
    else pollDone polls

def readPsum (row : Fin tileRows) : StateM Chip Int := do
  let bytes ← (List.finRange psumBytes).mapM fun byte =>
    transact .rdp 0 (encodeRowByteArg row byte)
  pure (signExtendPsum (rawPsum fun byte => bytes.getD byte 0))

/-- The commands of one tile; `outPsums` is left untouched unless the tile ends a
    run. -/
def runOneMatmulTile (m : MatmulTileAttrs) (startsRun endsRun : Bool) (outPsums : Slot) :
    StateM Chip Slot := do
  if startsRun then
    let _ ← transact .clear 0 0
    let _ ← transact .nop 0 0
  let _ ← (List.finRange tileRows).mapM fun row =>
    transact .ldw (m.packedWeights row) (encodeRowArg row)
  let _ ← (List.finRange tileCols).mapM fun lane => transact .lda (m.acts lane) (encodeColArg lane)
  if startsRun then
    let _ ← rowBytes.mapM fun rb =>
      transact .seed (seedByte (m.seeds rb.1) rb.2) (encodeRowByteArg rb.1 rb.2)
  let _ ← transact .start 0 0
  let _ ← transact .nop 0 0
  let errored ← pollDone maxPolls
  if endsRun then
    let psums ← (List.finRange tileRows).mapM fun row => if errored then pure 0 else readPsum row
    pure fun row => psums.getD row 0
  else pure outPsums

/-- The ops from index `i` on; `outputs` is the caller's buffer before the call. -/
def executeFrom (outputs : Nat → Slot) : Plan → Nat → StateM Chip (List Slot)
  | [], _ => pure []
  | op :: plan, i => do
    let slot ← runOneMatmulTile op.matmulTile op.startsRun op.endsRun (outputs i)
    let slots ← executeFrom outputs plan (i + 1)
    pure ((if op.endsRun then slot else fun _ => 0) :: slots)

def execute (outputs : Nat → Slot) (plan : Plan) : StateM Chip (List Slot) :=
  executeFrom outputs plan 0

/-! ## Commands whose outputs are not looked at -/

theorem run_transact_bind {β : Type} (cmd : Command) (data arg : Byte)
    (f : StateM Chip β) (t : Chip) :
    (transact cmd data arg >>= fun _ => f).run t = f.run (drive [(packUi cmd arg, data)] t) := by
  rw [StateT.run_bind]
  rfl

theorem run_mapM_transact {ι : Type} (xs : List ι) (cmd : Command)
    (data arg : ι → Byte) (t : Chip) :
    (xs.mapM fun x => transact cmd (data x) (arg x)).run t =
      (uoBytes (xs.map fun x => (packUi cmd (arg x), data x)) t,
        drive (xs.map fun x => (packUi cmd (arg x), data x)) t) := by
  induction xs generalizing t with
  | nil => rfl
  | cons x xs ih =>
    rw [List.mapM_cons, StateT.run_bind]
    show Prod.map _ id ((xs.mapM fun x => transact cmd (data x) (arg x)).run _) = _
    rw [ih]
    rfl

theorem run_mapM_transact_bind {ι β : Type} (xs : List ι) (cmd : Command) (data arg : ι → Byte)
    (f : StateM Chip β) (t : Chip) :
    ((xs.mapM fun x => transact cmd (data x) (arg x)) >>= fun _ => f).run t =
      f.run (drive (xs.map fun x => (packUi cmd (arg x), data x)) t) := by
  rw [StateT.run_bind, run_mapM_transact]
  rfl

/-! ## Polling -/

/-- From cycle `k` of a run the loop polls until DONE, which comes in time. -/
theorem run_pollDone {t₀ : Chip} {v : View chip} (h : Ready t₀ v) (polls k : Nat) (t : Chip)
    (hphase : Tile.PhaseAt t₀ k t) (h1 : 1 ≤ k) (hk : k ≤ 7) (hpolls : 8 ≤ polls + k) :
    ((pollDone polls).run t).1 = false ∧ Tile.PhaseAt t₀ 8 ((pollDone polls).run t).2 := by
  induction polls generalizing k t with
  | zero => omega
  | succ polls ih =>
    let p : Pins := ⟨true, packUi .status 0, 0⟩
    have hcmd : p.cmd.clear = false ∧ p.cmd.rdp = false := by
      simp [p, Pins.cmd, cmdDecode_packUi]
    have hnext : Tile.PhaseAt t₀ (k + 1) (t.step p) :=
      Tile.PhaseAt.step h.state h.quiet hk rfl (by omega) (fun _ => hcmd.1) hphase
    have hout : (t.step p).uoOut p = (t.step p).statusByte := by
      simp [Tile.uoOut, hcmd.2]
    have herror : (t.step p).statusByte &&& statusError = 0 := by
      have := Tile.statusByte_error (t.step p)
      rw [hnext.errorLatched, h.noError] at this
      simpa [statusError] using this
    have hdone : (t.step p).statusByte &&& statusDone ≠ 0 ↔ (t.step p).ctrl.doneLatchedQ = true :=
      Tile.statusByte_done _
    have hrun : (pollDone (polls + 1)).run t =
        if (t.step p).statusByte &&& statusDone ≠ 0 then (false, t.step p)
        else (pollDone polls).run (t.step p) := by
      rw [pollDone, StateT.run_bind]
      show (if (t.step p).uoOut p &&& statusError ≠ 0 then pure true
        else if (t.step p).uoOut p &&& statusDone ≠ 0 then pure false
        else pollDone polls : StateM Chip Bool).run (t.step p) = _
      rw [hout, if_neg (not_not.mpr herror)]
      split <;> rfl
    rw [hrun]
    by_cases hlast : k = 7
    · subst hlast
      rw [if_pos (hdone.mpr (Tile.PhaseAt.finished hnext).done)]
      exact ⟨rfl, hnext⟩
    · have hbusy := (hnext.busy (by omega) (by simp only [Tile.Geometry.runCycles]; omega)).2
      have hnot : ¬ (t.step p).statusByte &&& statusDone ≠ 0 := by
        rw [hdone, hbusy]
        decide
      rw [if_neg hnot]
      exact ih (k + 1) (t.step p) hnext (by omega) (by omega) (by omega)

/-! ## One tile -/

/-- Reading a row of a ready chip. -/
theorem run_readPsum {t : Chip} {v : View chip} (h : Ready t v) (row : Fin tileRows) :
    ((readPsum row).run t).1 = (v.acc row).toInt ∧ Ready ((readPsum row).run t).2 v := by
  obtain ⟨hready, hbytes⟩ := ready_rdp h ((List.finRange psumBytes).map fun byte => (row, byte))
  rw [List.map_map] at hready hbytes
  have hraw : rawPsum (fun byte => (uoBytes ((List.finRange psumBytes).map fun byte =>
      (packUi .rdp (encodeRowByteArg row byte), 0)) t).getD byte 0) = v.acc row := by
    rw [← rawPsum_extract (v.acc row)]
    have hlist : uoBytes ((List.finRange psumBytes).map fun byte =>
        (packUi .rdp (encodeRowByteArg row byte), 0)) t =
        [(v.acc row).extractLsb' (0 * 8) 8, (v.acc row).extractLsb' (1 * 8) 8] := hbytes
    rw [hlist]
    exact rawPsum_congr rfl rfl
  have hrun : (readPsum row).run t =
      (signExtendPsum (rawPsum fun byte => (uoBytes ((List.finRange psumBytes).map fun byte =>
        (packUi .rdp (encodeRowByteArg row byte), 0)) t).getD byte 0),
        drive ((List.finRange psumBytes).map fun byte =>
          (packUi .rdp (encodeRowByteArg row byte), 0)) t) := by
    rw [readPsum, StateT.run_bind, run_mapM_transact]
    rfl
  rw [hrun, hraw, signExtendPsum_eq]
  exact ⟨rfl, hready⟩

/-- The rows of a ready chip, read in order. -/
theorem run_readPsums {t : Chip} {v : View chip} (h : Ready t v) (rows : List (Fin tileRows)) :
    ((rows.mapM readPsum).run t).1 = rows.map (fun row => (v.acc row).toInt) ∧
      Ready ((rows.mapM readPsum).run t).2 v := by
  induction rows generalizing t with
  | nil => exact ⟨rfl, h⟩
  | cons row rows ih =>
    obtain ⟨hval, hready⟩ := run_readPsum h row
    obtain ⟨hvals, hready'⟩ := ih hready
    rw [List.mapM_cons, StateT.run_bind]
    refine ⟨?_, hready'⟩
    rw [List.map_cons, ← hval, ← hvals]
    rfl

/-- The tile from the polling loop on. -/
def pollAndRead (endsRun : Bool) (outPsums : Slot) : StateM Chip Slot := do
  let errored ← pollDone maxPolls
  if endsRun then
    let psums ← (List.finRange tileRows).mapM fun row => if errored then pure 0 else readPsum row
    pure fun row => psums.getD row 0
  else pure outPsums

theorem run_runOneMatmulTile_eq (m : MatmulTileAttrs) (startsRun endsRun : Bool)
    (slot : Slot) (t : Chip) :
    (runOneMatmulTile m startsRun endsRun slot).run t =
      (pollAndRead endsRun slot).run
        (drive (loadPairs m startsRun ++ ([startPair] ++ [nopPair])) t) := by
  unfold runOneMatmulTile loadPairs pollAndRead
  cases startsRun with
  | false =>
    simp only [Bool.false_eq_true, if_false, run_mapM_transact_bind, run_transact_bind,
      List.nil_append, List.append_nil, drive_append, startPair, nopPair]
  | true =>
    have hhead : ∀ t, drive [(packUi .clear 0, 0), (packUi .nop 0, 0)] t =
        drive [(packUi .nop 0, 0)] (drive [(packUi .clear 0, 0)] t) := fun _ => rfl
    simp only [if_true, run_mapM_transact_bind, run_transact_bind, drive_append, hhead, startPair,
      nopPair]

theorem run_pollAndRead {t₀ : Chip} {v : View chip} (h : Ready t₀ v)
    (endsRun : Bool) (slot : Slot) :
    let r := (pollAndRead endsRun slot).run (drive (firePairs.take 2) t₀)
    r.1 = (if endsRun then fun row => (v.fire.acc row).toInt else slot) ∧ Ready r.2 v.fire := by
  intro r
  obtain ⟨hpoll, hphase⟩ := run_pollDone h maxPolls 2 (drive (firePairs.take 2) t₀)
    (firePairs_phaseAt h 1 (by decide)) (by decide) (by decide) (by decide)
  have hfired := h.fired (Tile.PhaseAt.finished hphase)
  simp only [r]
  rw [pollAndRead, StateT.run_bind]
  generalize (pollDone maxPolls).run (drive (firePairs.take 2) t₀) = polled at hpoll hfired
  obtain ⟨errored, t₂⟩ := polled
  obtain rfl : errored = false := hpoll
  cases endsRun with
  | false => exact ⟨rfl, hfired⟩
  | true =>
    obtain ⟨hvals, hready⟩ := run_readPsums hfired (List.finRange tileRows)
    refine ⟨?_, hready⟩
    show (fun row : Fin tileRows =>
        (((List.finRange tileRows).mapM readPsum).run t₂).1.getD row 0) = _
    rw [hvals]
    funext row
    fin_cases row <;> rfl

theorem run_runOneMatmulTile {t : Chip} {v : View chip} (h : Ready t v)
    (op : PlanOp) (slot : Slot) :
    let r := (runOneMatmulTile op.matmulTile op.startsRun op.endsRun slot).run t
    r.1 = (if op.endsRun then fun row => ((op.ran v).acc row).toInt else slot) ∧
      Ready r.2 (op.ran v) := by
  intro r
  have hfire : [startPair] ++ [nopPair] = firePairs.take 2 := rfl
  have hr : r = (pollAndRead op.endsRun slot).run
      (drive (firePairs.take 2) (drive (loadPairs op.matmulTile op.startsRun) t)) := by
    rw [← drive_append, ← hfire]
    exact run_runOneMatmulTile_eq _ _ _ _ _
  rw [hr]
  exact run_pollAndRead (ready_load h op) op.endsRun slot

theorem run_executeFrom {t : Chip} {v : View chip} (h : Ready t v)
    (outputs : Nat → Slot) (plan : Plan)
    (i : Nat) : ((executeFrom outputs plan i).run t).1 = planSlots plan v := by
  induction plan generalizing t v i with
  | nil => rfl
  | cons op plan ih =>
    obtain ⟨hslot, hready⟩ := run_runOneMatmulTile h op (outputs i)
    have hrest := ih hready (i + 1)
    rw [planSlots, ← hrest, executeFrom, StateT.run_bind]
    generalize (runOneMatmulTile op.matmulTile op.startsRun op.endsRun (outputs i)).run t = r
      at hslot
    show (if op.endsRun then r.1 else fun _ => 0) ::
        ((executeFrom outputs plan (i + 1)).run r.2).1 = _
    rw [hslot]
    cases op.endsRun <;> rfl

end VerilatorTransport

/-! ## Agreement -/

theorem length_planSlots (plan : Plan) (v : View chip) :
    (planSlots plan v).length = plan.length := by
  induction plan generalizing v with
  | nil => rfl
  | cons op plan ih => rw [planSlots, List.length_cons, List.length_cons, ih]

theorem planSlots_mid {plan : Plan} {i : Nat} {op : PlanOp} (hi : plan[i]? = some op)
    (hends : op.endsRun = false) (v : View chip) : (planSlots plan v)[i]? = some fun _ => 0 := by
  induction plan generalizing i v with
  | nil => simp at hi
  | cons first plan ih =>
    cases i with
    | zero =>
      obtain rfl : first = op := by simpa using hi
      simp [planSlots, hends]
    | succ i =>
      rw [List.getElem?_cons_succ] at hi
      rw [planSlots, List.getElem?_cons_succ]
      exact ih hi _

/-- The same plan on the same chip state gives the same output slots over USB and in the verilated
    RTL, with zeros for the tiles that do not end a run, exactly if the request and the reply are
    below 2^31 bytes. The lengths of libusb transfers are of type `int`: of a longer buffer the USB
    transport never gets rid, or reports that it failed. -/
theorem usb_eq_verilator_iff {φ : Type} (c : Connection φ) (flash : φ) (plan : Plan)
    (hne : 1 ≤ plan.length) (hlen : plan.length < 2 ^ 32)
    (hseeds : ∀ op ∈ plan, op.startsRun = true → ∀ r, op.matmulTile.seeds r = 0) (t : Chip)
    (ht : Tile.Reachable t) (hidle : t.idle = true) (outputs : Nat → Slot) :
    (∃ usb, UsbTransport.execute c plan (UsbTransport.open t flash) = some usb ∧ usb.ok = true ∧
      usb.outputs = ((VerilatorTransport.execute outputs plan).run t).1 ∧
      usb.outputs.length = plan.length ∧
      ∀ (i : Nat) (op : PlanOp), plan[i]? = some op → op.endsRun = false →
        usb.outputs[i]? = some fun _ => 0) ↔
    5 + 3 * plan.length < 2 ^ 31 ∧ 4 * plan.countP (·.endsRun) < 2 ^ 31 := by
  refine ⟨fun ⟨usb, hexec, hok, _⟩ => ?_, fun hsize => ?_⟩
  · by_contra hsize
    rw [(execute_oversized c plan hne rfl hsize hexec).1] at hok
    cases hok
  · have h := Ready.of_reachable chip_exact ht hidle
    obtain ⟨rx, -, husb⟩ := execute_waiting c plan hne hlen (u := UsbTransport.open t flash) rfl
      hsize hseeds rfl rfl rfl h
    have hver := VerilatorTransport.run_executeFrom h outputs plan 0
    exact ⟨_, husb, rfl, hver.symm, length_planSlots plan _, fun i op hi hends =>
      planSlots_mid hi hends _⟩

/-- A link that moves one byte per transfer. -/
def byteLink : Connection Unit where
  usb := ⟨fun _ n => min 1 n, fun _ => true, fun _ n h => by omega, fun _ n => by omega⟩
  flash :=
    ⟨fun _ f => (true, f), fun _ f => f, fun f => (0, f), fun _ => false, fun _ t => (true, t)⟩
  deliver := id
  lossless _ := rfl

theorem usb_eq_verilator_iff_two_tiles :
    let plan := [⟨true, false, { sampleTile with seeds := fun _ => 0 }⟩, ⟨false, true, sampleTile⟩]
    ∃ usb, UsbTransport.execute byteLink plan (UsbTransport.open Tile.reset ()) =
      some usb ∧ usb.ok = true ∧
      usb.outputs = ((VerilatorTransport.execute (fun _ _ => 1) plan).run Tile.reset).1 := by
  intro plan
  obtain ⟨usb, hexec, hok, hsame, -⟩ :=
    (usb_eq_verilator_iff byteLink () plan (by decide) (by decide) (by simp [plan]) Tile.reset
      (.init rfl) rfl fun _ _ => 1).mpr
      (by decide)
  exact ⟨usb, hexec, hok, hsame⟩

/-- A tile that is a run of its own. -/
def loneTile : PlanOp := ⟨true, true, { sampleTile with seeds := fun _ => 0 }⟩

/-- Of 2^29 runs of one tile the reply has 2^31 bytes: the USB transport fails and gives zeros. -/
theorem oversized_reply_fails :
    let plan := List.replicate (2 ^ 29) loneTile
    1 ≤ plan.length ∧ plan.length < 2 ^ 32 ∧
      (∀ op ∈ plan, op.startsRun = true → ∀ r, op.matmulTile.seeds r = 0) ∧
      ∃ usb, UsbTransport.execute byteLink plan (UsbTransport.open Tile.reset ()) = some usb ∧
      usb.ok = false ∧
        usb.outputs[0]? = some (fun _ => 0) ∧
        ∃ slot, ((VerilatorTransport.execute (fun _ _ => 1) plan).run Tile.reset).1[0]? =
          some slot ∧ slot 0 = 255 := by
  intro plan
  have hlength : plan.length = 2 ^ 29 := List.length_replicate
  have hne : 1 ≤ plan.length := by omega
  have hends : plan.countP (·.endsRun) = 2 ^ 29 := by
    rw [List.countP_eq_length.mpr fun op hop => by rw [List.eq_of_mem_replicate hop]; rfl, hlength]
  have hlarge : ¬ Transferable plan := fun h => by
    have hreply := h.2
    omega
  obtain ⟨usb, hexec⟩ :=
    execute_returns byteLink plan hne (u := UsbTransport.open Tile.reset ()) rfl fun _ => rfl
  obtain ⟨hok, houtputs⟩ := execute_oversized byteLink plan hne rfl hlarge hexec
  have h := Ready.of_reachable chip_exact (.init rfl : Tile.Reachable (g := chip) Tile.reset) rfl
  have hver : ((VerilatorTransport.execute (fun _ _ => 1) plan).run Tile.reset).1 =
      planSlots plan _ :=
    VerilatorTransport.run_executeFrom h _ plan 0
  have hfirst : ∃ rest, plan = loneTile :: rest := ⟨_, List.replicate_succ⟩
  obtain ⟨rest, hplan⟩ := hfirst
  refine ⟨hne, by omega, fun op hop _ r => ?_, usb, hexec, hok, ?_, ?_⟩
  · rw [List.eq_of_mem_replicate hop]
    rfl
  · rw [houtputs, hplan]
    rfl
  · rw [hver, hplan]
    exact ⟨_, rfl, by decide⟩

end Bonsai
