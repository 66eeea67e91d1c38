-- SUMMARY: The USB transport: bulk transfers, descriptor packing and reply decoding (`transport-usb.cpp`).
import BonsaiTpu.Firmware.Macro

/-!
# The USB transport

`UsbTransport::execute` sends a whole plan as one mode `M` request and decodes
the reply. libusb moves any positive number of bytes per transfer and TinyUSB
hands them to the firmware in any pieces; neither loses nor reorders bytes.
-/

namespace Bonsai

open Tile (chip View Ready)

/-- The partial sums of one op, one per array row. -/
abbrev Slot := Fin tileRows → Int

/-! ## Bulk transfers -/

/-- What libusb does with bulk transfers: the `i`-th one of a positive length moves at least
    one and at most all of its bytes. Another length moves none, and is refused or not. -/
structure Libusb where
  transferred : Nat → Nat → Nat
  refuses : Int → Bool
  pos : ∀ i n, 0 < n → 0 < transferred i n
  le : ∀ i n, transferred i n ≤ n

/-- The conversion of a `size_t` to `int`. -/
def toInt32 (n : Nat) : Int := (BitVec.ofNat 32 n).toInt

theorem toInt32_of_lt {n : Nat} (h : n < 2 ^ 31) : toInt32 n = n := by
  rw [toInt32, BitVec.toInt_ofNat']
  exact Int.bmod_eq_of_le (by omega) (by omega)

/-- The conversion of a size from 2^31 on leaves at least as much behind. -/
theorem toInt32_le {n : Nat} (h : 2 ^ 31 ≤ n) : toInt32 n ≤ n - 2 ^ 31 := by
  rw [toInt32, BitVec.toInt_ofNat', Int.bmod_def]
  split <;> omega

/-- How a loop of transfers ends: with all bytes moved, at an error, or not at all. -/
inductive Ended where
  | ok
  | failed
  | never
  deriving DecidableEq

/-- How a call ends whose length is not positive: the next one would be the same. -/
def Libusb.stalled (usb : Libusb) (len : Int) : Ended := if usb.refuses len then .failed else .never

/-- `bulk_write`: the pieces in which a buffer is sent, from transfer `i` on. -/
def bulkWrite (usb : Libusb) (i : Nat) (buf : List Byte) : Ended × List (List Byte) :=
  if _h : 0 < buf.length then
    let len := toInt32 buf.length
    if hlen : 0 < len then
      let k := usb.transferred i len.toNat
      let rest := bulkWrite usb (i + 1) (buf.drop k)
      (rest.1, buf.take k :: rest.2)
    else (usb.stalled len, [])
  else (.ok, [])
  termination_by buf.length
  decreasing_by
    have := usb.pos i (toInt32 buf.length).toNat (by omega)
    simp only [List.length_drop]
    omega

/-- `bulk_read` of `n` bytes of the reply stream, from transfer `i` on: the bytes, and what is left
    of the stream. A transfer from an empty stream times out. -/
def bulkRead (usb : Libusb) (i n : Nat) (stream : List Byte) : Ended × List Byte × List Byte :=
  if _hn : 0 < n then
    let len := toInt32 n
    if _hlen : 0 < len then
      if _h : 0 < stream.length then
        let k := min (usb.transferred i len.toNat) stream.length
        let rest := bulkRead usb (i + 1) (n - k) (stream.drop k)
        (rest.1, stream.take k ++ rest.2.1, rest.2.2)
      else (.failed, [], stream)
    else (usb.stalled len, [], stream)
  else (.ok, [], stream)
  termination_by n
  decreasing_by
    have := usb.pos i (toInt32 n).toNat (by omega)
    omega

theorem Libusb.stalled_ne_ok (usb : Libusb) (len : Int) : usb.stalled len ≠ .ok := by
  unfold Libusb.stalled
  split <;> decide

/-- With a libusb that refuses lengths that are not positive, every loop ends. -/
theorem bulkWrite_ends {usb : Libusb} (h : ∀ len, usb.refuses len = true) (i : Nat)
    (buf : List Byte) :
    (bulkWrite usb i buf).1 ≠ .never := by
  fun_induction bulkWrite usb i buf with
  | case1 i buf hbuf len hlen k rest ih => exact ih
  | case2 i buf hbuf len hlen => simp [Libusb.stalled, h]
  | case3 i buf hbuf => exact nofun

theorem bulkRead_ends {usb : Libusb} (h : ∀ len, usb.refuses len = true) (i n : Nat)
    (stream : List Byte) :
    (bulkRead usb i n stream).1 ≠ .never := by
  fun_induction bulkRead usb i n stream with
  | case1 i n stream hpos len hlen hs k rest ih => exact ih
  | case2 i n stream hpos len hlen hs => exact nofun
  | case3 i n stream hpos len hlen => simp [Libusb.stalled, h]
  | case4 i n stream hpos => exact nofun

/-- A buffer below 2^31 bytes is sent whole. -/
theorem bulkWrite_of_lt (usb : Libusb) (i : Nat) (buf : List Byte) (h : buf.length < 2 ^ 31) :
    (bulkWrite usb i buf).1 = .ok ∧ (bulkWrite usb i buf).2.flatten = buf := by
  fun_induction bulkWrite usb i buf with
  | case1 i buf hbuf len hlen k rest ih =>
    obtain ⟨hok, hflat⟩ := ih (lt_of_le_of_lt (by simp) h)
    refine ⟨hok, ?_⟩
    rw [List.flatten_cons, hflat, List.take_append_drop]
  | case2 i buf hbuf len hlen =>
    have hcast : len = buf.length := toInt32_of_lt h
    omega
  | case3 i buf hbuf =>
    obtain rfl : buf = [] := List.length_eq_zero_iff.mp (by omega)
    exact ⟨rfl, rfl⟩

/-- A longer one is not: what is left never falls below 2^31 bytes. -/
theorem bulkWrite_of_ge (usb : Libusb) (i : Nat) (buf : List Byte) (h : 2 ^ 31 ≤ buf.length) :
    (bulkWrite usb i buf).1 ≠ .ok := by
  fun_induction bulkWrite usb i buf with
  | case1 i buf hbuf len hlen k rest ih =>
    have hle := toInt32_le h
    have hk : k ≤ len.toNat := usb.le i _
    exact ih (by rw [List.length_drop]; omega)
  | case2 i buf hbuf len hlen => exact usb.stalled_ne_ok len
  | case3 i buf hbuf => omega

theorem bulkRead_of_lt (usb : Libusb) (i n : Nat) (stream : List Byte) (hn : n < 2 ^ 31)
    (h : n ≤ stream.length) :
    bulkRead usb i n stream = (.ok, stream.take n, stream.drop n) := by
  fun_induction bulkRead usb i n stream with
  | case1 i n stream hpos len hlen hs k rest ih =>
    have hcast : len = n := toInt32_of_lt hn
    have hle : usb.transferred i len.toNat ≤ len.toNat := usb.le i _
    have hk : k ≤ n := le_trans (min_le_left _ _) (by omega)
    rw [show rest = _ from ih (by omega) (by simp only [List.length_drop]; omega)]
    have htake : stream.take k ++ (stream.drop k).take (n - k) = stream.take n := by
      rw [← List.take_add, Nat.add_sub_cancel' hk]
    have hdrop : (stream.drop k).drop (n - k) = stream.drop n := by
      rw [List.drop_drop, Nat.add_sub_cancel' hk]
    rw [htake, hdrop]
  | case2 i n stream hpos len hlen hs => omega
  | case3 i n stream hpos len hlen =>
    have hcast : len = n := toInt32_of_lt hn
    omega
  | case4 i n stream hpos =>
    obtain rfl : n = 0 := by omega
    rfl

theorem bulkRead_of_ge (usb : Libusb) (i n : Nat) (stream : List Byte) (h : 2 ^ 31 ≤ n) :
    (bulkRead usb i n stream).1 ≠ .ok := by
  fun_induction bulkRead usb i n stream with
  | case1 i n stream hpos len hlen hs k rest ih =>
    have hle : len ≤ n - 2 ^ 31 := toInt32_le h
    have hk : k ≤ len.toNat := le_trans (min_le_left _ _) (usb.le i _)
    exact ih (by omega)
  | case2 i n stream hpos len hlen hs => exact nofun
  | case3 i n stream hpos len hlen => exact usb.stalled_ne_ok len
  | case4 i n stream hpos => omega

/-! ## execute -/

def bytesPerPsumSet : Nat := tileRows * psumBytes

def packFlags (op : PlanOp) : Byte :=
  (if op.startsRun then 0x01#8 else 0) ||| (if op.endsRun then 0x02#8 else 0)

def packDesc (op : PlanOp) : List Byte :=
  let m := op.matmulTile
  [m.acts 0, m.acts 1,
    (m.packedWeights 0 &&& 0x03#8) ||| ((m.packedWeights 1 &&& 0x03#8) <<< 2)
      ||| ((packFlags op &&& 0x03#8) <<< 4)]

def packPlan (plan : Plan) : List Byte :=
  let n := BitVec.ofNat 32 plan.length
  [Firmware.modeByte 'M', Firmware.u32Byte n 0, Firmware.u32Byte n 1, Firmware.u32Byte n 2,
    Firmware.u32Byte n 3] ++ plan.flatMap packDesc

def expectedRx (plan : Plan) : Nat :=
  plan.foldl (fun acc op => if op.endsRun then acc + bytesPerPsumSet else acc) 0

/-- The decoding loop over the ops, from `rx_pos` on. -/
def decodeReply (rx : List Byte) : Plan → Nat → List Slot
  | [], _ => []
  | op :: plan, rxPos =>
    if op.endsRun then
      (fun row => signExtendPsum (rawPsum fun byte => rx.getD (rxPos + row * psumBytes + byte) 0))
        :: decodeReply rx plan (rxPos + bytesPerPsumSet)
    else (fun _ => 0) :: decodeReply rx plan rxPos

/-- The link to the board. -/
structure Connection (φ : Type) where
  usb : Libusb
  flash : Firmware.Flash φ
  deliver : List (List Byte) → List (List Byte)
  lossless : ∀ ps, (deliver ps).flatten = ps.flatten

/-- The transport's `dead` flag and the board behind the link. -/
structure UsbTransport (φ : Type) where
  dead : Bool
  board : Firmware.State φ

/-- The return value, the output slots and the transport after a call. -/
structure Executed (φ : Type) where
  ok : Bool
  outputs : List Slot
  transport : UsbTransport φ

variable {φ : Type}

/-- `UsbTransport::execute`; it is `none` when the call does not return. -/
def UsbTransport.execute (c : Connection φ) (plan : Plan) (u : UsbTransport φ) :
    Option (Executed φ) :=
  let failed (board : Firmware.State φ) : Executed φ :=
    ⟨false, plan.map fun _ _ => 0, { dead := true, board }⟩
  if plan.length = 0 then some ⟨true, [], u⟩
  else if u.dead then some (failed u.board)
  else
    let tx := packPlan plan
    let sent := bulkWrite c.usb 0 tx
    let board :=
      Firmware.serve c.flash tx.length { u.board with usbRx := u.board.usbRx ++ c.deliver sent.2 }
    match sent.1 with
    | .never => none
    | .failed => some (failed board)
    | .ok =>
      if 0 < expectedRx plan then
        match bulkRead c.usb 0 (expectedRx plan) board.usbTx with
        | (.never, _) => none
        | (.failed, _, usbTx) => some (failed { board with usbTx })
        | (.ok, rx, usbTx) =>
          some ⟨true, decodeReply rx plan 0, { u with board := { board with usbTx } }⟩
      else some ⟨true, decodeReply [] plan 0, { u with board }⟩

/-- The transport between requests: the firmware waits for a header, no reply is
    outstanding and the chip is out of reset. -/
def UsbTransport.open (t : Chip) (flash : φ) : UsbTransport φ :=
  ⟨false, ⟨[], [], true, t, flash⟩⟩

/-! ## What a descriptor keeps of a tile -/

/-- The tile as the firmware decodes it: the weight bits of the two columns, the
    activations, the flags, and zero seeds. -/
def PlanOp.wire (op : PlanOp) : PlanOp :=
  { op with
    matmulTile :=
      { packedWeights :=
          ![op.matmulTile.packedWeights 0 &&& 0x03, op.matmulTile.packedWeights 1 &&& 0x03]
        acts := ![op.matmulTile.acts 0, op.matmulTile.acts 1]
        seeds := fun _ => 0 } }

/-- The third descriptor byte holds three two-bit fields. -/
private theorem packed_fields : ∀ x y f : Fin 4,
    let packed := (BitVec.ofNat 8 x ||| (BitVec.ofNat 8 y <<< 2)) ||| (BitVec.ofNat 8 f <<< 4)
    packed &&& 0x03#8 = BitVec.ofNat 8 x ∧ (packed >>> 2) &&& 0x03#8 = BitVec.ofNat 8 y ∧
      (packed >>> 4) &&& 0x03#8 = BitVec.ofNat 8 f := by
  decide

private theorem exists_fin_four (x : Byte) : ∃ k : Fin 4, x &&& 0x03#8 = BitVec.ofNat 8 k := by
  revert x
  decide +kernel

theorem macroOp_flags (op : PlanOp) (pw0 pw1 a0 a1 : Byte) :
    Firmware.macroOp (packFlags op &&& 0x03#8) pw0 pw1 a0 a1 =
      ⟨op.startsRun, op.endsRun, ⟨![pw0, pw1], ![a0, a1], fun _ => 0⟩⟩ := by
  unfold packFlags Firmware.macroOp
  cases op.startsRun <;> cases op.endsRun <;> rfl

theorem descriptorOp_packDesc (op : PlanOp) (rest : List Byte) :
    Firmware.descriptorOp (packDesc op ++ rest) 0 = op.wire := by
  obtain ⟨x, hx⟩ := exists_fin_four (op.matmulTile.packedWeights 0)
  obtain ⟨y, hy⟩ := exists_fin_four (op.matmulTile.packedWeights 1)
  obtain ⟨f, hf⟩ := exists_fin_four (packFlags op)
  obtain ⟨h0, h2, h4⟩ := packed_fields x y f
  have hop := macroOp_flags op (op.matmulTile.packedWeights 0 &&& 0x03#8)
    (op.matmulTile.packedWeights 1 &&& 0x03#8) (op.matmulTile.acts 0) (op.matmulTile.acts 1)
  let packed := (BitVec.ofNat 8 x ||| (BitVec.ofNat 8 y <<< 2)) ||| (BitVec.ofNat 8 f <<< 4)
  have hdesc : packDesc op = [op.matmulTile.acts 0, op.matmulTile.acts 1, packed] := by
    simp only [packDesc, hx, hy, hf, packed]
  rw [hdesc]
  show Firmware.macroOp ((packed >>> 4) &&& 0x03#8) (packed &&& 0x03#8) ((packed >>> 2) &&& 0x03#8)
    (op.matmulTile.acts 0) (op.matmulTile.acts 1) = op.wire
  rw [h0, h2, h4, ← hx, ← hy, ← hf]
  exact hop

theorem bodyPlan_packDesc (plan : Plan) :
    Firmware.bodyPlan plan.length (plan.flatMap packDesc) = plan.map PlanOp.wire := by
  induction plan with
  | nil => rfl
  | cons op plan ih =>
    have hlen : (packDesc op).length = 1 * 3 := rfl
    rw [List.length_cons, Nat.add_comm, Firmware.bodyPlan_split, List.flatMap_cons, ← hlen,
      List.take_left, List.drop_left, ih, List.map_cons, ← descriptorOp_packDesc op [],
      List.append_nil]
    rfl

/-- The wire form of a tile does the same to the chip, given that a tile that
    starts a run has zero seeds. -/
theorem ran_wire (op : PlanOp) (v : View chip)
    (hseeds : op.startsRun = true → ∀ r, op.matmulTile.seeds r = 0) : op.wire.ran v = op.ran v := by
  have hbit : ∀ c < 2, (0x03#8).getLsbD c = true := by decide
  have hw : ∀ (r : Fin tileRows) (c : Fin tileCols),
      (op.wire.matmulTile.packedWeights r).getLsbD c =
        (op.matmulTile.packedWeights r).getLsbD c := by
    intro r c
    have hc := hbit c c.isLt
    fin_cases r <;> simp [PlanOp.wire, hc]
  have hloaded : op.wire.loaded v = op.loaded v := by
    refine View.ext ?_ ?_ ?_ <;> funext r
    · funext c
      exact hw r c
    · fin_cases r <;> rfl
    · show (if op.startsRun then 0 else v.acc r) = if op.startsRun then
          op.matmulTile.seeds r else v.acc r
      cases hs : op.startsRun with
      | false => rfl
      | true => exact (hseeds hs r).symm
  rw [PlanOp.ran, PlanOp.ran, hloaded]

/-! ## The reply -/

/-- The reply to a plan, in terms of the accumulators. -/
def replyBytes : Plan → View chip → List Byte
  | [], _ => []
  | op :: plan, v => (if op.endsRun then rdpBytes (op.ran v) else []) ++ replyBytes plan (op.ran v)

/-- The partial sums of a plan, in terms of the accumulators. -/
def planSlots : Plan → View chip → List Slot
  | [], _ => []
  | op :: plan, v =>
    (if op.endsRun then fun row => ((op.ran v).acc row).toInt else fun _ => 0)
      :: planSlots plan (op.ran v)

theorem flatten_planReplies {t : Chip} {v : View chip} (h : Ready t v) (plan : Plan) :
    (Firmware.planReplies plan t).flatten = replyBytes plan v := by
  induction plan generalizing t v with
  | nil => rfl
  | cons op plan ih =>
    rw [Firmware.planReplies, List.flatten_cons, ih (ready_tile h op), replyBytes,
      Firmware.tileReply]
    congr 1
    split
    · exact (ready_rdp (ready_body h op) rowBytes).2
    · rfl

theorem length_replyBytes (plan : Plan) (v : View chip) :
    (replyBytes plan v).length = expectedRx plan := by
  have hfold : ∀ (plan : Plan) (v : View chip) (n : Nat),
      n + (replyBytes plan v).length =
        plan.foldl (fun acc op => if op.endsRun then acc + bytesPerPsumSet else acc) n := by
    intro plan
    induction plan with
    | nil => intro v n; rfl
    | cons op plan ih =>
      intro v n
      rw [replyBytes, List.length_append, List.foldl_cons, ← ih (op.ran v), ← Nat.add_assoc]
      cases op.endsRun <;> rfl
  rw [← Nat.zero_add (List.length _)]
  exact hfold plan v 0

theorem decodeReply_replyBytes (plan : Plan) (v : View chip) (pre : List Byte) :
    decodeReply (pre ++ replyBytes plan v) plan pre.length = planSlots plan v := by
  induction plan generalizing v pre with
  | nil => rfl
  | cons op plan ih =>
    rw [decodeReply, planSlots, replyBytes]
    cases op.endsRun with
    | false =>
      simp only [Bool.false_eq_true, if_false, List.nil_append, ih]
    | true =>
      have hlen : pre.length + bytesPerPsumSet = (pre ++ rdpBytes (op.ran v)).length := by
        rw [List.length_append]
        rfl
      have hrow : ∀ row : Fin tileRows,
          parsePsumAt (pre ++ (rdpBytes (op.ran v) ++ replyBytes plan (op.ran v)))
            (pre.length + 0) row =
            ((op.ran v).acc row).toInt := by
        intro row
        rw [parsePsumAt_append, parsePsumAt_rdpBytes]
      simp only [if_true]
      rw [hlen, ← List.append_assoc, ih]
      congr 1
      funext row
      rw [List.append_assoc]
      exact hrow row

theorem replyBytes_wire (plan : Plan) (v : View chip)
    (hseeds : ∀ op ∈ plan, op.startsRun = true → ∀ r, op.matmulTile.seeds r = 0) :
    replyBytes (plan.map PlanOp.wire) v = replyBytes plan v := by
  induction plan generalizing v with
  | nil => rfl
  | cons op plan ih =>
    obtain ⟨hop, hplan⟩ := List.forall_mem_cons.mp hseeds
    rw [List.map_cons, replyBytes, replyBytes, ran_wire op v hop, ih _ hplan]
    rfl

/-! ## Sizes -/

theorem length_packPlan (plan : Plan) : (packPlan plan).length = 5 + 3 * plan.length := by
  have hdesc : ∀ op : PlanOp, (packDesc op).length = 3 := fun _ => rfl
  rw [packPlan, List.length_append, List.length_flatMap, funext hdesc]
  simp
  omega

theorem expectedRx_eq (plan : Plan) : expectedRx plan = 4 * plan.countP (·.endsRun) := by
  have hfold : ∀ (plan : Plan) (n : Nat),
      plan.foldl (fun acc op => if op.endsRun then acc + bytesPerPsumSet else acc) n =
      n + 4 * plan.countP (·.endsRun) := by
    intro plan
    induction plan with
    | nil => intro n; rfl
    | cons op plan ih =>
      intro n
      have hbytes : bytesPerPsumSet = 4 := rfl
      rw [List.foldl_cons, ih, List.countP_cons, hbytes]
      cases op.endsRun <;> simp
      omega
  rw [expectedRx, hfold, Nat.zero_add]

/-- The request and the reply of a plan are below 2^31 bytes. -/
def Transferable (plan : Plan) : Prop :=
  5 + 3 * plan.length < 2 ^ 31 ∧ 4 * plan.countP (·.endsRun) < 2 ^ 31

instance (plan : Plan) : Decidable (Transferable plan) := inferInstanceAs (Decidable (_ ∧ _))

/-! ## Requests -/

section Requests

variable (c : Connection φ) (plan : Plan) (hne : 1 ≤ plan.length) (hlen : plan.length < 2 ^ 32)
    {u : UsbTransport φ}
  (hdead : u.dead = false)

include hne hdead

theorem execute_alive : UsbTransport.execute c plan u =
    let failed (board : Firmware.State φ) : Executed φ :=
  ⟨false, plan.map fun _ _ => 0, { dead := true, board }⟩
    let sent := bulkWrite c.usb 0 (packPlan plan)
    let board := Firmware.serve c.flash (packPlan plan).length
      { u.board with usbRx := u.board.usbRx ++ c.deliver sent.2 }
    match sent.1 with
    | .never => none
    | .failed => some (failed board)
    | .ok =>
      if 0 < expectedRx plan then
        match bulkRead c.usb 0 (expectedRx plan) board.usbTx with
        | (.never, _) => none
        | (.failed, _, usbTx) => some (failed { board with usbTx })
        | (.ok, rx, usbTx) =>
          some ⟨true, decodeReply rx plan 0, { u with board := { board with usbTx } }⟩
      else some ⟨true, decodeReply [] plan 0, { u with board }⟩ := by
  have hplan : ¬ plan.length = 0 := by omega
  simp only [UsbTransport.execute, hplan, if_false, hdead, Bool.false_eq_true]

theorem execute_returns (hrefuses : ∀ len, c.usb.refuses len = true) :
    ∃ r, UsbTransport.execute c plan u = some r := by
  rw [execute_alive c plan hne hdead]
  dsimp only
  split
  · next hsent => exact absurd hsent (bulkWrite_ends hrefuses _ _)
  · exact ⟨_, rfl⟩
  · split
    · split
      · next hread => exact absurd (congrArg Prod.fst hread) (bulkRead_ends hrefuses _ _ _)
      · exact ⟨_, rfl⟩
      · exact ⟨_, rfl⟩
    · exact ⟨_, rfl⟩

/-- A plan that is too large for a transfer does not succeed: the call fails or does not return. -/
theorem execute_oversized (h : ¬ Transferable plan) {r : Executed φ}
    (hr : UsbTransport.execute c plan u = some r) :
    r.ok = false ∧ r.outputs = plan.map fun _ _ => 0 := by
  rw [execute_alive c plan hne hdead] at hr
  dsimp only at hr
  split at hr
  · cases hr
  · cases hr
    exact ⟨rfl, rfl⟩
  · next hsent =>
    have hrequest : 5 + 3 * plan.length < 2 ^ 31 := by
      by_contra hge
      exact bulkWrite_of_ge c.usb 0 (packPlan plan) (by rw [length_packPlan]; omega) hsent
    have hreply : 2 ^ 31 ≤ expectedRx plan := by
      rw [expectedRx_eq]
      by_contra hlt
      exact h ⟨hrequest, by omega⟩
    rw [if_pos (by omega)] at hr
    split at hr
    · cases hr
    · cases hr
      exact ⟨rfl, rfl⟩
    · next hread => exact absurd (congrArg Prod.fst hread) (bulkRead_of_ge c.usb 0 _ _ hreply)

include hlen

/-- A plan sent to firmware that waits for a header, with no reply outstanding and the chip out of
    reset: the call succeeds, the slots hold the partial sums of the plan, and the firmware waits
    for the next request. -/
theorem execute_waiting (hsize : Transferable plan)
    (hseeds : ∀ op ∈ plan, op.startsRun = true → ∀ r, op.matmulTile.seeds r = 0) {v : View chip}
    (hrx : u.board.usbRx.flatten = []) (htx : u.board.usbTx = []) (hrst : u.board.rstN = true)
    (h : Ready u.board.chip v) :
    ∃ rx, rx.flatten = [] ∧ UsbTransport.execute c plan u =
      some ⟨true, planSlots plan v,
        ⟨false, ⟨rx, [], true, drive (planPairs (plan.map PlanOp.wire)) u.board.chip,
          u.board.flash⟩⟩⟩ := by
  let n := BitVec.ofNat 32 plan.length
  have hn : n.toNat = plan.length := by
    rw [BitVec.toNat_ofNat]
    exact Nat.mod_eq_of_lt hlen
  have hbody : (plan.flatMap packDesc).length = n.toNat * 3 := by
    rw [hn, List.length_flatMap]
    simp [packDesc]
  obtain ⟨hsent, hflat⟩ :=
    bulkWrite_of_lt c.usb 0 (packPlan plan) (by rw [length_packPlan]; exact hsize.1)
  let s : Firmware.State φ :=
    { u.board with usbRx := u.board.usbRx ++ c.deliver (bulkWrite c.usb 0 (packPlan plan)).2 }
  -- the board reads the request as it was sent, and its reply is read whole
  have hrequest : s.usbRx.flatten = Firmware.macroRequest n (plan.flatMap packDesc) := by
    show (u.board.usbRx ++ c.deliver (bulkWrite c.usb 0 (packPlan plan)).2).flatten = _
    rw [List.flatten_append, hrx, List.nil_append, c.lossless, hflat]
    rfl
  obtain ⟨rx, hserve, hrest⟩ := Firmware.serve_macro c.flash s hrst n _ hbody hrequest
  have hboard : Firmware.serve c.flash (packPlan plan).length s =
      ⟨rx, replyBytes plan v, true, drive (planPairs (plan.map PlanOp.wire)) u.board.chip,
        u.board.flash⟩ := by
    refine Eq.trans hserve ?_
    rw [hn, bodyPlan_packDesc, flatten_planReplies h, replyBytes_wire plan v hseeds]
    show (⟨rx, u.board.usbTx ++ replyBytes plan v, u.board.rstN, _, _⟩ : Firmware.State φ) = _
    rw [htx, List.nil_append, hrst]
  have hslots : decodeReply (replyBytes plan v) plan 0 = planSlots plan v :=
    decodeReply_replyBytes plan v []
  have hreply := length_replyBytes plan v
  have hread := bulkRead_of_lt c.usb 0 (expectedRx plan) (replyBytes plan v)
    (by rw [expectedRx_eq]; exact hsize.2) (by omega)
  rw [← hreply, List.take_length, List.drop_length] at hread
  refine ⟨rx, hrest, ?_⟩
  rw [execute_alive c plan hne hdead]
  simp only [hsent]
  rw [hboard]
  by_cases hrx0 : 0 < expectedRx plan
  · rw [if_pos hrx0, ← hreply, hread]
    dsimp only
    rw [hslots, hdead]
  · have hnil : replyBytes plan v = [] := List.length_eq_zero_iff.mp (by omega)
    rw [if_neg hrx0, ← hslots, hnil, hdead]

end Requests

end Bonsai
