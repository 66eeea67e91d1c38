-- SUMMARY: The whole accelerator behind the USB transport: start-up from any chip state, status requests, and the promise of `plan.h` kept by the host, the firmware and the RTL together (`transport-usb.cpp`).
import BonsaiTpu.Firmware.Frames
import BonsaiTpu.Host.Results
import BonsaiTpu.Host.Usb

/-!
# The accelerator

`create_usb_transport` resets the chip over the firmware, whatever its registers hold.
After that the transport is `Live`: no byte is on its way in either direction and the
chip is idle. Every request keeps it so, and `usbTransport_obeys` is the promise that
`matmul.cpp` relies on, proved of the transport, the firmware and the RTL together.
-/

namespace Bonsai

open Tile (chip View Ready Pins)

variable {φ : Type}

/-! ## Requests -/

/-- `bulk_write` of a request, and the firmware serving it. -/
def sendRequest (c : Connection φ) (tx : List Byte) (board : Firmware.State φ) :
    Ended × Firmware.State φ :=
  let sent := bulkWrite c.usb 0 tx
  (sent.1, Firmware.serve c.flash tx.length { board with usbRx := board.usbRx ++ c.deliver sent.2 })

def modeHeader (mode : Char) : List Byte := [Firmware.modeByte mode, 0, 0, 0, 0]

/-- The bytes of an X-frame. -/
def xFrameBytes (pairs : List Pair) : List Byte :=
  let n := BitVec.ofNat 32 pairs.length
  [Firmware.modeByte 'X', Firmware.u32Byte n 0, Firmware.u32Byte n 1, Firmware.u32Byte n 2,
    Firmware.u32Byte n 3]
    ++ pairs.flatMap fun p => [p.1, p.2]

/-- `x_frame_locked`; a failed transfer gives no bytes. The frames here have a few cycles each, so
    that no transfer goes on for ever (`xFrameLocked_eq`); such a one is not told from a failed
    one. -/
def xFrameLocked (c : Connection φ) (pairs : List Pair) (board : Firmware.State φ) :
    List Byte × Firmware.State φ :=
  match sendRequest c (xFrameBytes pairs) board with
  | (.ok, board) =>
    match bulkRead c.usb 0 pairs.length board.usbTx with
    | (.ok, resp, usbTx) => (resp, { board with usbTx })
    | (_, _, usbTx) => ([], { board with usbTx })
  | (_, board) => ([], board)

def statusPair : Pair := (packUi .status 0, 0)

/-- `UsbTransport::status`. -/
def UsbTransport.pollStatus (c : Connection φ) (u : UsbTransport φ) : Byte × UsbTransport φ :=
  if u.dead then (statusError, u)
  else
    match xFrameLocked c [statusPair] u.board with
    | ([], board) => (statusError, { dead := true, board })
    | (st :: _, board) => (st, { u with board })

/-- `cycle_reset_and_check`. -/
def cycleResetAndCheck (c : Connection φ) (board : Firmware.State φ) : Bool × Firmware.State φ :=
  match sendRequest c (modeHeader 'a') board with
  | (.ok, board) =>
    let (_, board) := xFrameLocked c (List.replicate 8 nopPair) board
    match sendRequest c (modeHeader 'd') board with
    | (.ok, board) =>
      let (_, board) := xFrameLocked c (List.replicate 4 nopPair) board
      match xFrameLocked c [statusPair] board with
      | ([], board) => (false, board)
      | (st :: _, board) =>
        (if st = 0xff#8 then false
          else if st &&& statusError ≠ 0 then false
          else decide (st &&& statusStartReady ≠ 0), board)
    | (_, board) => (false, board)
  | (_, board) => (false, board)

/-- `create_usb_transport`, behind the opening of the device. -/
def createUsbTransport (c : Connection φ) (board : Firmware.State φ) : UsbTransport φ :=
  let (resetOk, board) := cycleResetAndCheck c board
  ⟨!resetOk, board⟩

/-! ## One request -/

/-- The firmware waits for a header and no reply is outstanding. -/
structure Waiting (board : Firmware.State φ) : Prop where
  rx : board.usbRx.flatten = []
  tx : board.usbTx = []

section Requests

variable (c : Connection φ) {board : Firmware.State φ} (h : Waiting board)

include h

/-- A request that is no upload is served whole. -/
theorem sendRequest_frame (f : Firmware.Frame) (hmode : f.mode ≠ .flash)
    (hlen : f.bytes.length < 2 ^ 31) :
    ∃ served : Firmware.State φ, sendRequest c f.bytes board = (.ok, served) ∧
      served.usbRx.flatten = [] ∧
      served.usbTx = (f.effect c.flash board.device).1 ∧
      served.device = (f.effect c.flash board.device).2 := by
  obtain ⟨hsent, hflat⟩ := bulkWrite_of_lt c.usb 0 f.bytes hlen
  let s : Firmware.State φ :=
    { board with usbRx := board.usbRx ++ c.deliver (bulkWrite c.usb 0 f.bytes).2 }
  have hrx : s.usbRx.flatten = f.bytes ++ [] := by
    show (board.usbRx ++ c.deliver (bulkWrite c.usb 0 f.bytes).2).flatten = _
    rw [List.flatten_append, h.rx, c.lossless, hflat, List.nil_append, List.append_nil]
  obtain ⟨fuel, hfuel⟩ : ∃ fuel, f.bytes.length = fuel + 1 :=
    ⟨f.body.length + 4, by simp [Firmware.Frame.bytes, Firmware.Frame.header]⟩
  obtain ⟨s', hrun, ⟨-, hout⟩ | ⟨hno, -⟩⟩ := Firmware.run_serveFrame c.flash f [] s hrx
  · have hserve : sendRequest c f.bytes board = (.ok, s') := by
      show ((bulkWrite c.usb 0 f.bytes).1, Firmware.serve c.flash f.bytes.length s) = (.ok, s')
      rw [hsent, hfuel, Firmware.serve_succ c.flash hrun, Firmware.serve_idle c.flash hout.rx]
    refine ⟨s', hserve, hout.rx, ?_, hout.device⟩
    rw [hout.tx]
    show board.usbTx ++ _ = _
    rw [h.tx, List.nil_append]
    rfl
  · exact absurd (fun hflash => absurd hflash hmode) hno

omit h in
theorem bodyPairs_flatMap (pairs : List Pair) :
    Firmware.bodyPairs pairs.length (pairs.flatMap fun p => [p.1, p.2]) = pairs := by
  induction pairs with
  | nil => rfl
  | cons p pairs ih =>
    rw [List.length_cons, Nat.add_comm, List.flatMap_cons, Firmware.bodyPairs_append _ _ rfl, ih]
    rfl

/-- An X-frame drives its cycles and returns their bytes. -/
theorem xFrameLocked_eq (pairs : List Pair) (hlen : 5 + 2 * pairs.length < 2 ^ 31) :
    ∃ rx, rx.flatten = [] ∧ xFrameLocked c pairs board =
      (Firmware.uoBytesAt board.rstN pairs board.chip,
        ⟨rx, [], board.rstN, Firmware.driveAt board.rstN pairs board.chip, board.flash⟩) := by
  have hn : (BitVec.ofNat 32 pairs.length).toNat = pairs.length := by
    rw [BitVec.toNat_ofNat]
    exact Nat.mod_eq_of_lt (by omega)
  let f : Firmware.Frame :=
    { mode := .transact
      count := BitVec.ofNat 32 pairs.length
      body := pairs.flatMap fun p => [p.1, p.2]
      length_body := by simp [Firmware.Mode.bodyNbytes, hn, List.length_flatMap, Nat.mul_comm] }
  have heffect : f.effect c.flash board.device =
      (Firmware.uoBytesAt board.rstN pairs board.chip,
        { board.device with chip := Firmware.driveAt board.rstN pairs board.chip }) := by
    simp only [Firmware.Frame.effect, f, hn, bodyPairs_flatMap]
    rfl
  have hbytes : xFrameBytes pairs = f.bytes := rfl
  have hsize : f.bytes.length < 2 ^ 31 := by
    rw [← hbytes, xFrameBytes, List.length_append, List.length_flatMap]
    simpa [Nat.mul_comm, Nat.add_comm] using hlen
  obtain ⟨served, hserved, hrx, htx, hdevice⟩ := sendRequest_frame c h f (by simp [f]) hsize
  rw [heffect] at htx hdevice
  refine ⟨served.usbRx, hrx, ?_⟩
  have hreply : (Firmware.uoBytesAt board.rstN pairs board.chip).length = pairs.length :=
    Firmware.length_uoBytesAt _ _ _
  have hread := bulkRead_of_lt c.usb 0 pairs.length (Firmware.uoBytesAt board.rstN pairs board.chip)
    (by omega) hreply.ge
  rw [List.take_of_length_le hreply.le, List.drop_of_length_le hreply.le] at hread
  simp only [Firmware.State.device, Firmware.Device.mk.injEq] at hdevice
  simp only [xFrameLocked, hbytes, hserved, htx, hread, hdevice]

end Requests

/-! ## Start-up -/

/-- Cycles with `rst_n` low leave the reset state, whatever the chip was. -/
theorem driveAt_low {pairs : List Pair} (hne : pairs ≠ []) (t : Chip) :
    Firmware.driveAt false pairs t = Tile.reset := by
  induction pairs using List.reverseRecOn with
  | nil => exact absurd rfl hne
  | append_singleton pairs p _ =>
    rw [Firmware.driveAt_append]
    exact Tile.step_reset _ rfl

/-- A transport between requests: it is not dead, no byte is on its way, the chip is out of reset,
    idle and has no error. -/
structure UsbTransport.Live (u : UsbTransport φ) : Prop where
  alive : u.dead = false
  waiting : Waiting u.board
  rstN : u.board.rstN = true
  ready : ∃ v, Ready u.board.chip v

theorem modeHeader_served (c : Connection φ) {board : Firmware.State φ} (h : Waiting board)
    (level : Bool) :
    ∃ served : Firmware.State φ,
      sendRequest c (modeHeader (if level then 'd' else 'a')) board = (.ok, served) ∧
      Waiting served ∧ served.rstN = level ∧ served.chip = board.chip := by
  cases level with
  | false =>
    obtain ⟨served, hserved, hrx, htx, hdevice⟩ :=
      sendRequest_frame c h ⟨.assertReset, 0, [], rfl⟩ (by simp) (by decide)
    exact ⟨served, hserved, ⟨hrx, htx⟩, congrArg Firmware.Device.rstN hdevice,
      congrArg Firmware.Device.chip hdevice⟩
  | true =>
    obtain ⟨served, hserved, hrx, htx, hdevice⟩ :=
      sendRequest_frame c h ⟨.deassertReset, 0, [], rfl⟩ (by simp) (by decide)
    exact ⟨served, hserved, ⟨hrx, htx⟩, congrArg Firmware.Device.rstN hdevice,
      congrArg Firmware.Device.chip hdevice⟩

/-- A tile that was just reset shows cleared scratchpads. -/
theorem ready_reset : Ready (g := chip) Tile.reset ⟨fun _ _ => false, fun _ => 0,
    (Tile.reset (g := chip)).accmem.row⟩ :=
  Ready.of_reachable chip_exact (.init rfl) rfl

theorem statusPair_byte (t : Chip) :
    Firmware.uoBytesAt true [statusPair] t = [(t.step (Pins.ofPair statusPair)).statusByte] := by
  have hrdp : (Pins.ofPair statusPair).cmd.rdp = false := by decide
  show [(t.step (Pins.ofPair statusPair)).uoOut (Pins.ofPair statusPair)] = _
  rw [Tile.uoOut, hrdp]
  rfl

theorem ready_status {t : Chip} {v : View chip} (h : Ready t v) :
    Ready (t.step (Pins.ofPair statusPair)) v := by
  have hstart : ∀ p ∈ [statusPair], (Tile.cmdDecode p.1).start = false := by
    simp [statusPair, cmdDecode_packUi]
  have hready := h.execPairs chip_exact [statusPair] hstart
  have hview : v.execPair statusPair = v := by
    simp [View.execPair, View.exec, statusPair, cmdDecode_packUi]
  rwa [List.foldl_cons, List.foldl_nil, hview] at hready

theorem ready_statusByte {t : Chip} {v : View chip} (h : Ready t v) :
    t.statusByte &&& statusError = 0 ∧ t.statusByte &&& statusStartReady ≠ 0 := by
  have herror := Tile.statusByte_error t
  rw [h.noError] at herror
  exact ⟨by simpa [statusError] using herror, (Tile.statusByte_startReady t).mpr h.idle⟩

/-- `create_usb_transport` succeeds whatever state the chip is in, and leaves a live transport. -/
theorem createUsbTransport_live (c : Connection φ) {board : Firmware.State φ} (h : Waiting board) :
    (createUsbTransport c board).Live := by
  obtain ⟨board₁, hboard₁, hwait₁, hrst₁, -⟩ := modeHeader_served c h false
  simp only [Bool.false_eq_true, if_false] at hboard₁
  -- Eight cycles in reset.
  obtain ⟨rx₂, hrx₂, hframe₂⟩ := xFrameLocked_eq c hwait₁ (List.replicate 8 nopPair) (by decide)
  rw [hrst₁, driveAt_low (by decide)] at hframe₂
  obtain ⟨board₂, hboard₂⟩ : ∃ b : Firmware.State φ,
    ⟨rx₂, [], false, Tile.reset, board₁.flash⟩ = b := ⟨_, rfl⟩
  have hwait₂ : Waiting board₂ := hboard₂ ▸ ⟨hrx₂, rfl⟩
  have hchip₂ : board₂.chip = Tile.reset := hboard₂ ▸ rfl
  rw [hboard₂] at hframe₂
  -- Out of reset, and four cycles of NOP.
  obtain ⟨board₃, hboard₃, hwait₃, hrst₃, hchip₃⟩ := modeHeader_served c hwait₂ true
  simp only [if_true] at hboard₃
  obtain ⟨rx₄, hrx₄, hframe₄⟩ := xFrameLocked_eq c hwait₃ (List.replicate 4 nopPair) (by decide)
  rw [hrst₃, hchip₃, hchip₂] at hframe₄
  have hstart : ∀ p ∈ List.replicate 4 nopPair, (Tile.cmdDecode p.1).start = false := by
    intro p hp
    rw [List.eq_of_mem_replicate hp]
    simp [nopPair, cmdDecode_packUi]
  have hready₄ : Ready (Firmware.driveAt true (List.replicate 4 nopPair) Tile.reset) _ :=
    ready_reset.execPairs chip_exact (List.replicate 4 nopPair) hstart
  obtain ⟨t₄, ht₄⟩ : ∃ t, Firmware.driveAt true (List.replicate 4 nopPair) Tile.reset = t :=
    ⟨_, rfl⟩
  rw [ht₄] at hframe₄ hready₄
  -- The status byte.
  have hwait₄ : Waiting (⟨rx₄, [], true, t₄, board₃.flash⟩ : Firmware.State φ) := ⟨hrx₄, rfl⟩
  obtain ⟨rx₅, hrx₅, hframe₅⟩ := xFrameLocked_eq c hwait₄ [statusPair] (by decide)
  have hready₅ := ready_status hready₄
  obtain ⟨hnoError, hstartReady⟩ := ready_statusByte hready₅
  simp only [statusPair_byte] at hframe₅
  have hcheck : cycleResetAndCheck c board =
      (true, ⟨rx₅, [], true, t₄.step (Pins.ofPair statusPair), board₃.flash⟩) := by
    simp only [cycleResetAndCheck, hboard₁, hframe₂, hboard₃, hframe₄, hframe₅]
    rw [if_neg (Tile.statusByte_ne_undriven _), if_neg (not_not.mpr hnoError),
      decide_eq_true hstartReady]
    rfl
  rw [createUsbTransport, hcheck]
  exact ⟨rfl, ⟨hrx₅, rfl⟩, rfl, _, hready₅⟩

/-! ## Requests of a live transport -/

/-- `status` of a live transport has no error and leaves it live. -/
theorem pollStatus_live (c : Connection φ) {u : UsbTransport φ} (h : u.Live) :
    (u.pollStatus c).1 &&& statusError = 0 ∧ (u.pollStatus c).2.Live := by
  obtain ⟨v, hready⟩ := h.ready
  obtain ⟨rx, hrx, hframe⟩ := xFrameLocked_eq c h.waiting [statusPair] (by decide)
  rw [h.rstN, statusPair_byte] at hframe
  have hnext := ready_status hready
  simp only [UsbTransport.pollStatus, h.alive, Bool.false_eq_true, if_false, hframe]
  exact ⟨(ready_statusByte hnext).1, rfl, ⟨hrx, rfl⟩, rfl, v, hnext⟩

/-- `UsbTransport` behind the seam of `transport.h`. A call that does not return has no outputs. -/
def usbTransport (c : Connection φ) : Transport (UsbTransport φ) where
  execute u plan :=
    match UsbTransport.execute c plan u with
    | some r => (r.transport, if r.ok then some (r.outputs.flatMap List.ofFn) else none)
    | none => (u, none)
  status u := (u.pollStatus c).1

/-- The plans that the USB transport can carry: below 2^31 bytes in either direction, and no
    seeds. -/
def Carried (plan : Plan) : Prop :=
  Transferable plan ∧ ∀ op ∈ plan, op.startsRun = true → ∀ r, op.matmulTile.seeds r = 0

/-- The slots of a plan, in terms of the accumulators. -/
theorem getElem?_planSlots {plan : Plan} {i : Nat} {op : PlanOp} (hi : plan[i]? = some op)
    (hends : op.endsRun = true)
    (v : View chip) :
    (planSlots plan v)[i]? = some fun row => ((planView (plan.take (i + 1)) v).acc row).toInt := by
  induction plan generalizing i v with
  | nil => simp at hi
  | cons first plan ih =>
    cases i with
    | zero =>
      obtain rfl : first = op := by simpa using hi
      simp [planSlots, hends, planView]
    | succ i =>
      rw [List.getElem?_cons_succ] at hi
      rw [planSlots, List.getElem?_cons_succ, ih hi]
      rfl

theorem getD_flatMap_ofFn (slots : List Slot) {i : Nat} {slot : Slot} (hi : slots[i]? = some slot)
    (row : Fin tileRows) :
    (slots.flatMap List.ofFn).getD (i * tileRows + row) 0 = slot row := by
  induction slots generalizing i with
  | nil => simp at hi
  | cons first slots ih =>
    have hlen : (List.ofFn first).length = tileRows := List.length_ofFn
    have hrow : (row : Nat) < tileRows := row.isLt
    cases i with
    | zero =>
      obtain rfl : first = slot := by simpa using hi
      rw [List.flatMap_cons, List.getD_append _ _ _ _ (by rw [hlen]; omega),
        List.getD_eq_getElem?_getD, Nat.zero_mul, Nat.zero_add, List.getElem?_ofFn, dif_pos hrow,
        Option.getD_some]
    | succ i =>
      rw [List.getElem?_cons_succ] at hi
      have hsub : (i + 1) * tileRows + row - (List.ofFn first).length = i * tileRows + row := by
        rw [hlen, Nat.succ_mul]
        omega
      rw [List.flatMap_cons, List.getD_append_right _ _ _ _ (by rw [hlen, Nat.succ_mul]; omega),
        hsub, ih hi]

/-- The host transport, the firmware and the chip keep the promise of `plan.h`, on every plan that
    the macro mode can carry. -/
theorem usbTransport_obeys (c : Connection φ) :
    (usbTransport c).ObeysOn UsbTransport.Live Carried := by
  rintro u plan hlive hne ⟨hsize, hseeds⟩ hfirst
  obtain ⟨v, hready⟩ := hlive.ready
  have hlen : plan.length < 2 ^ 32 := by
    have hrequest := hsize.1
    omega
  obtain ⟨rx, hrx, hexec⟩ := execute_waiting c plan (List.length_pos_iff.mpr hne) hlen
    hlive.alive hsize hseeds
    hlive.waiting.rx hlive.waiting.tx hlive.rstN hready
  refine ⟨⟨false, ⟨rx, [], true, drive (planPairs (plan.map PlanOp.wire)) u.board.chip,
    u.board.flash⟩⟩,
    (planSlots plan v).flatMap List.ofFn, by simp only [usbTransport, hexec, if_true],
    ⟨rfl, ⟨hrx, rfl⟩, rfl, _, ready_plan hready _⟩, fun i op hop hends row => ?_⟩
  have htake : plan.take (i + 1) ≠ [] := by simp [hne]
  have hhead : ∀ op ∈ (plan.take (i + 1)).head?, op.startsRun = true := by
    rw [List.head?_take, if_neg (Nat.succ_ne_zero i)]
    exact hfirst
  rw [getD_flatMap_ofFn _ (getElem?_planSlots hop hends v), planView_acc _ htake hhead]
  rfl

end Bonsai
