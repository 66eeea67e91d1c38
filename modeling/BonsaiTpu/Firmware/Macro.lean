-- SUMMARY: Mode `M` of the firmware: every descriptor drives the cycles the host would have emitted for its tile.
import BonsaiTpu.Firmware.Main

/-!
# The tile macro

`run_tile_macro` unrolls a descriptor into the same cycles as `build_tile_pairs`
with zero seeds, so mode `M` is described by plans: a batch of descriptors drives
`planPairs`, and the reply holds the RDP bytes of the tiles that end a run. The
firmware drives the cycles at whatever level `rst_n` has.
-/

namespace Firmware

open Bonsai (Byte Pair Chip Plan PlanOp drive uoBytes loadPairs firePairs rdpPairs planPairs)

variable {φ : Type}

/-! ## Programs that only drive the chip -/

theorem run_bind {α β : Type} {x : Prog φ α} {f : α → Prog φ β} {s s' : State φ} {a : α}
    (h : x.run s = .ok a s') : (x >>= f).run s = (f a).run s' := by
  have hx : x s = .ok a s' := h
  simp only [EStateM.run, bind, EStateM.bind, hx]

/-- The chip after the given cycles, with `rst_n` at a level. -/
def driveAt (rst : Bool) (ps : List Pair) (t : Chip) : Chip :=
  (ps.map fun p => (⟨rst, p.1, p.2⟩ : Tile.Pins)).foldl Tile.step t

/-- The `uo_out` bytes of these cycles. -/
def uoBytesAt (rst : Bool) (ps : List Pair) (t : Chip) : List Byte :=
  Machine.outputs Tile.step Tile.uoOut t (ps.map fun p => ⟨rst, p.1, p.2⟩)

@[simp] theorem driveAt_nil (rst : Bool) (t : Chip) : driveAt rst [] t = t := rfl

@[simp] theorem driveAt_append (rst : Bool) (ps qs : List Pair) (t : Chip) :
    driveAt rst (ps ++ qs) t = driveAt rst qs (driveAt rst ps t) := by
  simp [driveAt]

theorem uoBytesAt_append (rst : Bool) (ps qs : List Pair) (t : Chip) :
    uoBytesAt rst (ps ++ qs) t = uoBytesAt rst ps t ++ uoBytesAt rst qs (driveAt rst ps t) := by
  simp [uoBytesAt, driveAt, Machine.outputs_append]

@[simp] theorem length_uoBytesAt (rst : Bool) (ps : List Pair) (t : Chip) :
    (uoBytesAt rst ps t).length = ps.length := by
  simp [uoBytesAt]

/-- With `rst_n` at a level, `x` drives the cycles `ps` and returns `out` of the chip it
    found. -/
def Emits {α : Type} (rst : Bool) (x : Prog φ α) (ps : List Pair) (out : Chip → α) : Prop :=
  ∀ s, s.rstN = rst → x.run s = .ok (out s.chip) { s with chip := driveAt rst ps s.chip }

variable {rst : Bool}

theorem Emits.pure {α : Type} (a : α) : Emits (φ := φ) rst (Pure.pure a) [] (fun _ => a) :=
  fun _ _ => rfl

theorem Emits.bind {α β : Type} {x : Prog φ α} {f : α → Prog φ β} {ps qs : List Pair}
    {out : Chip → α} {out' : α → Chip → β} (hx : Emits rst x ps out)
    (hf : ∀ a, Emits rst (f a) qs (out' a)) :
    Emits rst (x >>= f) (ps ++ qs) (fun t => out' (out t) (driveAt rst ps t)) := by
  intro s hs
  rw [run_bind (hx s hs), hf _ { s with chip := driveAt rst ps s.chip } hs, driveAt_append]

/-- Sequencing when the outputs of the first part are not looked at. -/
theorem Emits.seq {α β : Type} {x : Prog φ α} {f : Prog φ β} {ps qs : List Pair} {out : Chip → α}
    {out' : Chip → β} (hx : Emits rst x ps out) (hf : Emits rst f qs out') :
    Emits rst (x >>= fun _ => f) (ps ++ qs) (fun t => out' (driveAt rst ps t)) :=
  hx.bind fun _ => hf

theorem Emits.congr {α : Type} {x : Prog φ α} {ps ps' : List Pair} {out out' : Chip → α}
    (hx : Emits rst x ps out) (hps : ps = ps') (hout : ∀ t, out t = out' t) :
    Emits rst x ps' out' := by
  obtain rfl := hps
  obtain rfl := funext hout
  exact hx

theorem Emits.map {α β : Type} {x : Prog φ α} {ps : List Pair} {out : Chip → α}
    (hx : Emits rst x ps out)
    (g : α → β) : Emits rst (x >>= fun a => Pure.pure (g a)) ps (fun t => g (out t)) := by
  intro s hs
  rw [run_bind (hx s hs)]
  rfl

variable (rst)

theorem emits_chipCycle (ui uio : Byte) :
    Emits (φ := φ) rst (chipCycle ui uio) [(ui, uio)] (fun t =>
      (t.step ⟨rst, ui, uio⟩).uoOut ⟨rst, ui, uio⟩) := by
  intro s hs
  simp only [EStateM.run, chipCycle, hs]
  rfl

theorem emits_mapM {ι : Type} (xs : List ι) (ui uio : ι → Byte) :
    Emits (φ := φ) rst (xs.mapM fun x => chipCycle (ui x) (uio x)) (xs.map fun x => (ui x, uio x))
      (uoBytesAt rst (xs.map fun x => (ui x, uio x))) := by
  induction xs with
  | nil => exact Emits.pure _
  | cons x xs ih =>
    rw [List.mapM_cons]
    exact (emits_chipCycle rst _ _).bind fun a => ih.map fun as => a :: as

/-! ## One descriptor -/

/-- The tile of a descriptor. -/
def macroOp (flags pw0 pw1 a0 a1 : Byte) : PlanOp where
  startsRun := flags &&& tileFlagStartsRun ≠ 0
  endsRun := flags &&& tileFlagEndsRun ≠ 0
  matmulTile := ⟨![pw0, pw1], ![a0, a1], fun _ => 0⟩

/-- What a tile adds to the reply. -/
def tileReplyAt (rst : Bool) (op : PlanOp) (t : Chip) : List Byte :=
  if op.endsRun then
    uoBytesAt rst rdpPairs (driveAt rst (loadPairs op.matmulTile op.startsRun ++ firePairs) t)
  else []

/-- The same with `rst_n` high. -/
def tileReply (op : PlanOp) (t : Chip) : List Byte :=
  if op.endsRun then uoBytes rdpPairs (drive (loadPairs op.matmulTile op.startsRun ++ firePairs) t)
  else []

/-- START, its padding and the reads, for either value of the `ends_run` flag. -/
theorem emits_fire (flags : Byte) :
    Emits (φ := φ) rst
      (do
        let _ ← chipCycle (packUi cmdStart 0) 0
        let _ ← chipCycle (packUi cmdNop 0) 0
        let _ ← (List.range tileDonePad).mapM fun _ => chipCycle (packUi cmdNop 0) 0
        if flags &&& tileFlagEndsRun ≠ 0 ∧ decide (flags &&& tileFlagEndsRun ≠ 0) then
          rowBytes.mapM fun rb => chipCycle (packUi cmdRdp (rowByteArg rb.1 rb.2)) 0
        else pure [])
      (firePairs ++ if decide (flags &&& tileFlagEndsRun ≠ 0) then rdpPairs else [])
      (fun t => if decide (flags &&& tileFlagEndsRun ≠ 0) then uoBytesAt rst rdpPairs
        (driveAt rst firePairs t)
        else []) := by
  have hfire : Emits (φ := φ) rst
      (do
        let _ ← chipCycle (packUi cmdStart 0) 0
        let _ ← chipCycle (packUi cmdNop 0) 0
        (List.range tileDonePad).mapM fun _ => chipCycle (packUi cmdNop 0) 0)
      firePairs _ :=
    (emits_chipCycle rst _ _).seq ((emits_chipCycle rst _ _).seq (emits_mapM rst _ _ _))
  have hrdp : Emits (φ := φ) rst
      (rowBytes.mapM fun rb => chipCycle (packUi cmdRdp (rowByteArg rb.1 rb.2)) 0)
      rdpPairs (uoBytesAt rst rdpPairs) := emits_mapM rst _ _ _
  by_cases he : flags &&& tileFlagEndsRun = 0
  · simp only [he, ne_eq, not_true_eq_false, decide_false, Bool.false_eq_true, and_false, if_false]
    simpa using hfire.seq (Emits.pure [])
  · simp only [he, ne_eq, not_false_eq_true, decide_true, and_self, if_true]
    simpa using hfire.seq hrdp

theorem loadPairs_mid (pw0 pw1 a0 a1 : Byte) :
    loadPairs ⟨![pw0, pw1], ![a0, a1], fun _ => 0⟩ false =
      [(packUi cmdLdw 0, pw0)] ++ ([(packUi cmdLdw 1, pw1)] ++ ([(packUi cmdLda 0, a0)] ++
        [(packUi cmdLda 1, a1)])) := rfl

theorem loadPairs_first (pw0 pw1 a0 a1 : Byte) :
    loadPairs ⟨![pw0, pw1], ![a0, a1], fun _ => 0⟩ true =
      [(packUi cmdClear 0, 0)] ++ ([(packUi cmdNop 0, 0)] ++ ([(packUi cmdLdw 0, pw0)] ++
        ([(packUi cmdLdw 1, pw1)] ++ ([(packUi cmdLda 0, a0)] ++ ([(packUi cmdLda 1, a1)] ++
          rowBytes.map fun rb => (packUi cmdSeed (rowByteArg rb.1 rb.2), 0)))))) := by
  have hseeds : (Bonsai.rowBytes.map fun rb =>
      (Bonsai.packUi .seed (Bonsai.encodeRowByteArg rb.1 rb.2), Bonsai.seedByte 0 rb.2)) =
      rowBytes.map fun rb => (packUi cmdSeed (rowByteArg rb.1 rb.2), 0) := by decide
  rw [← hseeds]
  rfl

/-- The unrolled tile is the host's own schedule for the tile. -/
theorem emits_runTileMacro (flags pw0 pw1 a0 a1 : Byte) :
    Emits (φ := φ) rst (runTileMacro flags pw0 pw1 a0 a1 (flags &&& tileFlagEndsRun ≠ 0))
      (macroOp flags pw0 pw1 a0 a1).tilePairs.pairs
      (tileReplyAt rst (macroOp flags pw0 pw1 a0 a1)) := by
  have hfire := emits_fire (φ := φ) rst flags
  have hcyc := emits_chipCycle (φ := φ) rst
  have hseed :=
    emits_mapM (φ := φ) rst rowBytes (fun rb => packUi cmdSeed (rowByteArg rb.1 rb.2)) fun _ => 0
  rw [Bonsai.tilePairs_pairs]
  unfold runTileMacro tileReplyAt macroOp
  by_cases hs : flags &&& tileFlagStartsRun = 0
  · simp only [hs, ne_eq, not_true_eq_false, if_false, decide_false, loadPairs_mid]
    refine ((hcyc _ _).seq ((hcyc _ _).seq ((hcyc _ _).seq ((hcyc _ _).seq hfire)))).congr ?_ ?_
    · simp only [List.append_assoc, ne_eq]
    · intro t
      simp only [driveAt_append, ne_eq]
  · simp only [hs, ne_eq, not_false_eq_true, if_true, decide_true, loadPairs_first]
    refine ((hcyc _ _).seq ((hcyc _ _).seq ((hcyc _ _).seq ((hcyc _ _).seq ((hcyc _ _).seq
      ((hcyc _ _).seq (hseed.seq hfire))))))).congr ?_ ?_
    · simp only [List.append_assoc, ne_eq]
    · intro t
      simp only [driveAt_append, ne_eq]

/-! ## Batches of descriptors -/

/-- The tile of descriptor `i` in a body. -/
def descriptorOp (body : List Byte) (i : Nat) : PlanOp :=
  let packed := body.getD (i * 3 + 2) 0
  macroOp ((packed >>> 4) &&& 0x03) (packed &&& 0x03) ((packed >>> 2) &&& 0x03)
    (body.getD (i * 3 + 0) 0) (body.getD (i * 3 + 1) 0)

/-- The plan of the first `n` descriptors of a body. -/
def bodyPlan (n : Nat) (body : List Byte) : Plan := (List.range n).map (descriptorOp body)

/-- What each tile of a plan adds to the reply. -/
def planRepliesAt (rst : Bool) : Plan → Chip → List (List Byte)
  | [], _ => []
  | op :: plan, t =>
    tileReplyAt rst op t :: planRepliesAt rst plan (driveAt rst op.tilePairs.pairs t)

/-- The same with `rst_n` high. -/
def planReplies : Plan → Chip → List (List Byte)
  | [], _ => []
  | op :: plan, t => tileReply op t :: planReplies plan (drive op.tilePairs.pairs t)

theorem planRepliesAt_true (plan : Plan) (t : Chip) :
    planRepliesAt true plan t = planReplies plan t := by
  induction plan generalizing t with
  | nil => rfl
  | cons op plan ih =>
    rw [planRepliesAt, ih]
    rfl

theorem planRepliesAt_append (plan plan' : Plan) (t : Chip) :
    planRepliesAt rst (plan ++ plan') t =
      planRepliesAt rst plan t ++ planRepliesAt rst plan' (driveAt rst (planPairs plan) t) := by
  induction plan generalizing t with
  | nil => rfl
  | cons op plan ih =>
    have hpairs : planPairs (op :: plan) = op.tilePairs.pairs ++ planPairs plan := rfl
    simp [planRepliesAt, ih, hpairs]

theorem emits_descriptors (body : List Byte) (is : List Nat) :
    Emits (φ := φ) rst (is.mapM fun i => runDescriptor body i)
      (planPairs (is.map (descriptorOp body)))
      (planRepliesAt rst (is.map (descriptorOp body))) := by
  induction is with
  | nil => exact Emits.pure _
  | cons i is ih =>
    rw [List.mapM_cons]
    exact (emits_runTileMacro rst _ _ _ _ _).bind fun out => ih.map fun outs => out :: outs

theorem descriptorOp_take (body : List Byte) {n i : Nat} (hi : i < n) :
    descriptorOp (body.take (n * 3)) i = descriptorOp body i := by
  have h : ∀ k < 3, (body.take (n * 3)).getD (i * 3 + k) 0 = body.getD (i * 3 + k) 0 := by
    intro k hk
    rw [List.getD_eq_getElem?_getD, List.getElem?_take_of_lt (by omega), List.getD_eq_getElem?_getD]
  simp only [descriptorOp, h 0 (by decide), h 1 (by decide), h 2 (by decide)]

theorem descriptorOp_drop (body : List Byte) (n i : Nat) :
    descriptorOp (body.drop (n * 3)) i = descriptorOp body (n + i) := by
  have h : ∀ k, (body.drop (n * 3)).getD (i * 3 + k) 0 = body.getD ((n + i) * 3 + k) 0 := by
    intro k
    have hsum : n * 3 + (i * 3 + k) = (n + i) * 3 + k := by omega
    rw [List.getD_eq_getElem?_getD, List.getElem?_drop, hsum, List.getD_eq_getElem?_getD]
  simp only [descriptorOp, h]

theorem bodyPlan_split (body : List Byte) (m n : Nat) :
    bodyPlan (m + n) body = bodyPlan m (body.take (m * 3)) ++ bodyPlan n (body.drop (m * 3)) := by
  have hleft : bodyPlan m (body.take (m * 3)) = bodyPlan m body :=
    List.map_congr_left fun i hi => descriptorOp_take body (List.mem_range.mp hi)
  rw [hleft, bodyPlan, List.range_add, List.map_append, List.map_map]
  congr 1
  exact List.map_congr_left fun i _ => (descriptorOp_drop body m i).symm

/-! ## The loop -/

theorem run_usbReadBlocking {n : Nat} {s : State φ} (h : n ≤ s.usbRx.flatten.length) :
    ∃ rx, (usbReadBlocking n).run s = .ok (s.usbRx.flatten.take n) { s with usbRx := rx } ∧
      rx.flatten = s.usbRx.flatten.drop n := by
  obtain ⟨rx, hread, hrx⟩ := Pieces.read_of_le h
  refine ⟨rx, ?_, hrx⟩
  simp only [EStateM.run, usbReadBlocking, hread]

theorem run_usbReadBlocking_short {n : Nat} {s : State φ} (h : s.usbRx.flatten.length < n) :
    (usbReadBlocking n).run s = .error .waiting s := by
  simp only [EStateM.run, usbReadBlocking, Pieces.read_of_lt h]

theorem run_usbWriteBlocking (bytes : List Byte) (s : State φ) :
    (usbWriteBlocking bytes).run s = .ok () { s with usbTx := s.usbTx ++ bytes } := rfl

/-- Skipping an empty reply makes no difference to the reply stream. -/
theorem run_writeNonempty (bytes : List Byte) (f : Prog φ Unit) (s : State φ) :
    (if bytes.length > 0 then do usbWriteBlocking bytes; f else f).run s =
      f.run { s with usbTx := s.usbTx ++ bytes } := by
  by_cases hb : bytes.length > 0
  · rw [if_pos hb, run_bind (run_usbWriteBlocking bytes s)]
  · obtain rfl : bytes = [] := List.length_eq_zero_iff.mp (by omega)
    rw [if_neg hb, List.append_nil]

/-- Mode `M` reads its body to the last byte, drives the tiles of all descriptors
    in order, across batches, and replies for those that end a run. -/
theorem run_macroLoopAt (n : Nat) (s : State φ)
    (hlen : n * 3 ≤ s.usbRx.flatten.length) :
    ∃ rx, (macroLoop n).run s =
        .ok () { s with
          usbRx := rx
          usbTx := s.usbTx ++ (planRepliesAt s.rstN (bodyPlan n s.usbRx.flatten) s.chip).flatten
          chip := driveAt s.rstN (planPairs (bodyPlan n s.usbRx.flatten)) s.chip } ∧
      rx.flatten = s.usbRx.flatten.drop (n * 3) := by
  induction n using Nat.strongRecOn generalizing s with
  | _ n ih =>
    by_cases hn : n > 0
    · obtain ⟨m, hm⟩ : ∃ m, (if n < 32 then n else 32) = m := ⟨_, rfl⟩
      have hm0 : 0 < m := by
        subst hm
        split <;> omega
      have hmn : m ≤ n := by
        subst hm
        split <;> omega
      -- one batch is read and served, and the loop goes on behind it
      obtain ⟨rx, hread, hrx⟩ := run_usbReadBlocking (n := m * 3) (s := s) (by omega)
      have hbatch := emits_descriptors (φ := φ) s.rstN (s.usbRx.flatten.take (m * 3)) (List.range m)
        { s with usbRx := rx } rfl
      let t' := driveAt s.rstN (planPairs (bodyPlan m (s.usbRx.flatten.take (m * 3)))) s.chip
      let out := (planRepliesAt s.rstN (bodyPlan m (s.usbRx.flatten.take (m * 3))) s.chip).flatten
      obtain ⟨rx', hloop, hrx'⟩ := ih (n - m) (by omega)
        { s with usbRx := rx, usbTx := s.usbTx ++ out, chip := t' }
        (by simp only [hrx, List.length_drop]; omega)
      have hplan : bodyPlan n s.usbRx.flatten =
          bodyPlan m (s.usbRx.flatten.take (m * 3)) ++
            bodyPlan (n - m) (s.usbRx.flatten.drop (m * 3)) := by
        rw [← bodyPlan_split, Nat.add_sub_cancel' hmn]
      refine ⟨rx', ?_, ?_⟩
      · rw [macroLoop, dif_pos hn]
        simp only [hm]
        rw [run_bind hread, run_bind hbatch, run_writeNonempty]
        refine Eq.trans hloop ?_
        simp only [hplan, hrx, planRepliesAt_append, List.flatten_append, List.append_assoc,
          Bonsai.planPairs, List.flatMap_append, driveAt_append]
        rfl
      · rw [hrx', hrx, List.drop_drop]
        congr 1
        omega
    · obtain rfl : n = 0 := by omega
      refine ⟨s.usbRx, ?_, by simp⟩
      rw [macroLoop, dif_neg hn]
      simp [bodyPlan, planRepliesAt, planPairs]

theorem run_macroLoop (n : Nat) (s : State φ) (hrst : s.rstN = true)
    (hlen : n * 3 ≤ s.usbRx.flatten.length) :
    ∃ rx, (macroLoop n).run s =
        .ok () { s with
          usbRx := rx
          usbTx := s.usbTx ++ (planReplies (bodyPlan n s.usbRx.flatten) s.chip).flatten
          chip := drive (planPairs (bodyPlan n s.usbRx.flatten)) s.chip } ∧
      rx.flatten = s.usbRx.flatten.drop (n * 3) := by
  obtain ⟨rx, hrun, hrx⟩ := run_macroLoopAt n s hlen
  refine ⟨rx, ?_, hrx⟩
  rw [hrun, hrst, planRepliesAt_true]
  rfl

/-! ## A whole request -/

/-- Byte `k` of a little-endian 32-bit count. -/
def u32Byte (n : BitVec 32) (k : Nat) : Byte := ((n >>> (8 * k)) &&& 0xff#32).setWidth 8

theorem getLsbD_u32Byte (n : BitVec 32) (k i : Nat) :
    (u32Byte n k).getLsbD i = (decide (i < 8) && n.getLsbD (8 * k + i)) := by
  have hff : ∀ k < 8, (0xff#32).getLsbD k = true := by decide
  by_cases hi : i < 8
  · simp only [u32Byte, BitVec.getLsbD_setWidth, BitVec.getLsbD_and, BitVec.getLsbD_ushiftRight,
      hff i hi, hi, decide_true, Bool.true_and, Bool.and_true]
  · simp only [u32Byte, BitVec.getLsbD_setWidth, hi, decide_false, Bool.false_and]

theorem le32_u32Byte (n : BitVec 32) :
    le32 (u32Byte n 0) (u32Byte n 1) (u32Byte n 2) (u32Byte n 3) = n := by
  apply BitVec.eq_of_getLsbD_eq
  intro i hi
  have hk : i = 8 * (i / 8) + i % 8 := (Nat.div_add_mod i 8).symm
  simp only [le32, BitVec.getLsbD_or, BitVec.getLsbD_shiftLeft, BitVec.getLsbD_setWidth,
    getLsbD_u32Byte, hi, decide_true, Bool.true_and]
  grind

/-- A request in mode `M` with count `n`. -/
def macroRequest (n : BitVec 32) (body : List Byte) : List Byte :=
  [modeByte 'M', u32Byte n 0, u32Byte n 1, u32Byte n 2, u32Byte n 3] ++ body

theorem bodyPlan_append (body rest : List Byte) {n : Nat} (h : body.length = n * 3) :
    bodyPlan n (body ++ rest) = bodyPlan n body := by
  have htake : (body ++ rest).take (n * 3) = body := by
    rw [← h, List.take_left]
  refine List.map_congr_left fun i hi => ?_
  rw [← descriptorOp_take (body ++ rest) (List.mem_range.mp hi), htake]

/-- The main loop reads exactly one request and answers it. -/
theorem run_serveFrame_macro (fl : Flash φ) (s : State φ) (hrst : s.rstN = true) (n : BitVec 32)
    (body rest : List Byte) (hbody : body.length = n.toNat * 3)
    (hrx : s.usbRx.flatten = macroRequest n body ++ rest) :
    ∃ rx, (serveFrame fl).run s =
        .ok () { s with
          usbRx := rx
          usbTx := s.usbTx ++ (planReplies (bodyPlan n.toNat body) s.chip).flatten
          chip := drive (planPairs (bodyPlan n.toNat body)) s.chip } ∧
      rx.flatten = rest := by
  have hlen : s.usbRx.flatten.length = 5 + (n.toNat * 3 + rest.length) := by
    rw [hrx, macroRequest, List.append_assoc, List.length_append, List.length_append, hbody]
    rfl
  obtain ⟨rx, hread, hrest⟩ := run_usbReadBlocking (n := 5) (s := s) (by omega)
  have hdrop : rx.flatten = body ++ rest := by
    rw [hrest, hrx, macroRequest, List.append_assoc]
    rfl
  have hhdr : s.usbRx.flatten.take 5 =
      [modeByte 'M', u32Byte n 0, u32Byte n 1, u32Byte n 2, u32Byte n 3] := by
    rw [hrx, macroRequest, List.append_assoc]
    rfl
  obtain ⟨rx', hloop, hrx'⟩ := run_macroLoop n.toNat { s with usbRx := rx } hrst
    (by simp only [hdrop, List.length_append, hbody]; omega)
  refine ⟨rx', ?_, ?_⟩
  · rw [serveFrame, run_bind hread, hhdr]
    simp only [List.getD_cons_zero, List.getD_cons_succ, le32_u32Byte]
    rw [if_neg (by decide), if_neg (by decide), if_neg (by decide), if_neg (by decide),
      if_neg (by decide), if_neg (by decide), if_pos trivial]
    refine Eq.trans hloop ?_
    simp only [hdrop, bodyPlan_append body rest hbody]
  · simp only [hdrop] at hrx'
    rw [hrx', ← hbody, List.drop_left]

/-- Without a request the main loop waits for one. -/
theorem run_serveFrame_idle (fl : Flash φ) (s : State φ) (hrx : s.usbRx.flatten = []) :
    (serveFrame fl).run s = .error .waiting s := by
  have hread := run_usbReadBlocking_short (n := 5) (s := s) (by simp [hrx])
  have hread' : usbReadBlocking 5 s = .error .waiting s := hread
  simp only [serveFrame, EStateM.run, bind, EStateM.bind, hread']

/-- A request that arrives alone is served, and then the main loop waits. -/
theorem serve_macro (fl : Flash φ) (s : State φ) (hrst : s.rstN = true) (n : BitVec 32)
    (body : List Byte) (hbody : body.length = n.toNat * 3)
    (hrx : s.usbRx.flatten = macroRequest n body) :
    ∃ rx, serve fl (macroRequest n body).length s =
        { s with
          usbRx := rx
          usbTx := s.usbTx ++ (planReplies (bodyPlan n.toNat body) s.chip).flatten
          chip := drive (planPairs (bodyPlan n.toNat body)) s.chip } ∧
      rx.flatten = [] := by
  obtain ⟨rx, hframe, hrest⟩ := run_serveFrame_macro fl s hrst n body [] hbody (by simpa using hrx)
  refine ⟨rx, ?_, hrest⟩
  have hlen : (macroRequest n body).length = body.length + 3 + 1 + 1 := by
    simp only [macroRequest, List.length_append, List.length_cons, List.length_nil]
    omega
  rw [hlen, serve, hframe]
  dsimp only
  rw [serve, run_serveFrame_idle fl _ hrest]

end Firmware
