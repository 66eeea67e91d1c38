-- SUMMARY: Streams of request frames: what the protocol declares for each frame, and when the main loop serves exactly the frames that were sent.
import Mathlib.Data.List.GetD
import BonsaiTpu.Firmware.Macro

/-!
# Request frames

A request has a header of five bytes, the mode and a 32-bit count, and the body that the
protocol declares for them. The loop has no marker to find the next header, so it serves
a stream of frames only if every branch consumes its body. `frames_interpreted_iff` says
for which streams it does: a bitstream upload that is refused leaves its body in the pipe.
-/

namespace Firmware

open Bonsai (Byte Pair Chip Plan PlanOp planPairs)

variable {φ : Type}

/-! ## The protocol -/

/-- The modes of requests after which the loop goes on. -/
inductive Mode where
  | assertReset
  | deassertReset
  | transact
  | tiles
  | flash
  | load
  deriving DecidableEq

def Mode.char : Mode → Char
  | .assertReset => 'a'
  | .deassertReset => 'd'
  | .transact => 'X'
  | .tiles => 'M'
  | .flash => 'F'
  | .load => 'L'

/-- The body that is declared for a count. -/
def Mode.bodyNbytes : Mode → Nat → Nat
  | .transact, n => 2 * n
  | .tiles, n => 3 * n
  | .flash, n => n
  | _, _ => 0

structure Frame where
  mode : Mode
  count : BitVec 32
  body : List Byte
  length_body : body.length = mode.bodyNbytes count.toNat

def Frame.header (f : Frame) : List Byte :=
  [modeByte f.mode.char, u32Byte f.count 0, u32Byte f.count 1, u32Byte f.count 2, u32Byte f.count 3]

def Frame.bytes (f : Frame) : List Byte := f.header ++ f.body

/-- What the requests act on. -/
structure Device (φ : Type) where
  rstN : Bool
  chip : Chip
  flash : φ

def State.device (s : State φ) : Device φ := ⟨s.rstN, s.chip, s.flash⟩

/-- The cycles of the first `n` pairs of a body. -/
def bodyPairs (n : Nat) (body : List Byte) : List Pair :=
  (List.range n).map fun i => (body.getD (2 * i) 0, body.getD (2 * i + 1) 0)

section Spec

variable (fl : Flash φ)

/-- The flash after the first `n` bytes of a body, appended in chunks of 1024. -/
def flashChunks (n : Nat) (body : List Byte) (flash : φ) : φ :=
  if _h : n > 0 then
    let want := if n < 1024 then n else 1024
    flashChunks (n - want) (body.drop want) (fl.flashAppend (body.take want) flash)
  else flash
  termination_by n
  decreasing_by
    split <;> omega

/-- A bitstream upload: its status and what it leaves. -/
def flashEffect (n : Nat) (body : List Byte) (d : Device φ) : List Byte × Device φ :=
  if n = 0 ∨ n > bitstreamMaxBytes then ([0xff], d)
  else
    let begun := fl.flashBegin n d.flash
    if begun.1 then
      let ended := fl.flashEnd (flashChunks fl n body begun.2)
      let chip := if ended.1 = 0 then (fl.loadBitstream ended.2 d.chip).2 else d.chip
      ([BitVec.ofInt 8 ended.1], { d with chip, flash := ended.2 })
    else ([0xff], { d with flash := begun.2 })

def loadEffect (d : Device φ) : List Byte × Device φ :=
  if fl.present d.flash then
    let loaded := fl.loadBitstream d.flash d.chip
    ([if loaded.1 then 0 else 2], { d with chip := loaded.2 })
  else ([1], d)

/-- The reply that is declared for a frame, and what the frame does. -/
def Frame.effect (f : Frame) (d : Device φ) : List Byte × Device φ :=
  let n := f.count.toNat
  match f.mode with
  | .assertReset => ([], { d with rstN := false })
  | .deassertReset => ([], { d with rstN := true })
  | .transact =>
    (uoBytesAt d.rstN (bodyPairs n f.body) d.chip,
      { d with chip := driveAt d.rstN (bodyPairs n f.body) d.chip })
  | .tiles =>
    ((planRepliesAt d.rstN (bodyPlan n f.body) d.chip).flatten,
      { d with chip := driveAt d.rstN (planPairs (bodyPlan n f.body)) d.chip })
  | .flash => flashEffect fl n f.body d
  | .load => loadEffect fl d

/-- The replies to a sequence of frames. -/
def replies : List Frame → Device φ → List (List Byte)
  | [], _ => []
  | f :: frames, d => (f.effect fl d).1 :: replies frames (f.effect fl d).2

def deviceAfter : List Frame → Device φ → Device φ
  | [], d => d
  | f :: frames, d => deviceAfter frames (f.effect fl d).2

/-- An upload is not refused, or it has no body. -/
def Frame.Accepted (f : Frame) (d : Device φ) : Prop :=
  f.mode = .flash → f.count.toNat = 0 ∨
    (f.count.toNat ≤ bitstreamMaxBytes ∧ (fl.flashBegin f.count.toNat d.flash).1 = true)

def AllAccepted : List Frame → Device φ → Prop
  | [], _ => True
  | f :: frames, d => f.Accepted fl d ∧ AllAccepted frames (f.effect fl d).2

/-- After some frames the loop is at the next header, has sent their replies and has done
    what they say. -/
structure Served (frames : List Frame) (rest : List Byte) (s s' : State φ) : Prop where
  rx : s'.usbRx.flatten = rest
  tx : s'.usbTx = s.usbTx ++ (replies fl frames s.device).flatten
  device : s'.device = deviceAfter fl frames s.device

end Spec

/-- The number of reply bytes that the protocol declares for a frame. -/
def Frame.replyNbytes (f : Frame) : Nat :=
  match f.mode with
  | .transact => f.count.toNat
  | .tiles => 4 * (bodyPlan f.count.toNat f.body).countP PlanOp.endsRun
  | .flash | .load => 1
  | _ => 0

theorem length_planRepliesAt (rst : Bool) (plan : Plan) (t : Chip) :
    (planRepliesAt rst plan t).flatten.length = 4 * plan.countP PlanOp.endsRun := by
  induction plan generalizing t with
  | nil => rfl
  | cons op plan ih =>
    rw [planRepliesAt, List.flatten_cons, List.length_append, ih, List.countP_cons]
    have hreply : (tileReplyAt rst op t).length = if op.endsRun then 4 else 0 := by
      unfold tileReplyAt
      split
      · rw [length_uoBytesAt]
        rfl
      · rfl
    rw [hreply]
    split <;> omega

theorem length_flashEffect (fl : Flash φ) (n : Nat) (body : List Byte) (d : Device φ) :
    (flashEffect fl n body d).1.length = 1 := by
  unfold flashEffect
  split
  · rfl
  · dsimp only
    split <;> rfl

theorem length_loadEffect (fl : Flash φ) (d : Device φ) : (loadEffect fl d).1.length = 1 := by
  unfold loadEffect
  split <;> rfl

theorem Frame.length_reply (fl : Flash φ) (f : Frame) (d : Device φ) :
    (f.effect fl d).1.length = f.replyNbytes := by
  unfold Frame.effect Frame.replyNbytes
  cases f.mode with
  | assertReset => rfl
  | deassertReset => rfl
  | transact => simp [bodyPairs]
  | tiles => exact length_planRepliesAt _ _ _
  | flash => exact length_flashEffect fl _ _ d
  | load => exact length_loadEffect fl d

/-! ## Loops -/

/-- A read that the stream starts with. -/
theorem run_read_append {s : State φ} {bytes rest : List Byte}
    (h : s.usbRx.flatten = bytes ++ rest) :
    ∃ rx, (usbReadBlocking bytes.length).run s = .ok bytes { s with usbRx := rx } ∧
      rx.flatten = rest := by
  obtain ⟨rx, hread, hrx⟩ := run_usbReadBlocking (n := bytes.length) (s := s) (by rw [h]; simp)
  rw [h, List.take_left] at hread
  rw [h, List.drop_left] at hrx
  exact ⟨rx, hread, hrx⟩

theorem bodyPairs_append (a b : List Byte) {m n : Nat} (ha : a.length = 2 * m) :
    bodyPairs (m + n) (a ++ b) = bodyPairs m a ++ bodyPairs n b := by
  unfold bodyPairs
  rw [List.range_add, List.map_append, List.map_map]
  congr 1
  · refine List.map_congr_left fun i hi => ?_
    have him := List.mem_range.mp hi
    rw [List.getD_append _ _ _ _ (by omega), List.getD_append _ _ _ _ (by omega)]
  · refine List.map_congr_left fun i _ => ?_
    have h0 : 2 * (m + i) - a.length = 2 * i := by omega
    have h1 : 2 * (m + i) + 1 - a.length = 2 * i + 1 := by omega
    simp only [Function.comp_apply]
    rw [List.getD_append_right _ _ _ _ (by omega),
      List.getD_append_right _ _ _ _ (by omega), h0, h1]

/-- The size of a chunk: all that is left, or the size of the buffer. -/
theorem chunk_spec {n k m : Nat} (hk : 0 < k) (hn : 0 < n) (hm : (if n < k then n else k) = m) :
    0 < m ∧ m ≤ n := by
  subst hm
  split <;> omega

/-- Mode `X` drives the cycles of its body in order, across chunks, and replies with
    the byte of each. -/
theorem run_transactLoop (n : Nat) (s : State φ) (body rest : List Byte)
    (hlen : body.length = 2 * n) (hrx : s.usbRx.flatten = body ++ rest) :
    ∃ rx, (transactLoop n).run s =
        .ok () { s with
          usbRx := rx
          usbTx := s.usbTx ++ uoBytesAt s.rstN (bodyPairs n body) s.chip
          chip := driveAt s.rstN (bodyPairs n body) s.chip } ∧
      rx.flatten = rest := by
  induction n using Nat.strongRecOn generalizing s body with
  | _ n ih =>
    by_cases hn : n > 0
    · obtain ⟨m, hm⟩ : ∃ m, (if n < 64 then n else 64) = m := ⟨_, rfl⟩
      obtain ⟨hm0, hmn⟩ := chunk_spec (by decide) hn hm
      have hchunk : (body.take (2 * m)).length = 2 * m := by
        rw [List.length_take]
        omega
      have hsplit : s.usbRx.flatten = body.take (2 * m) ++ (body.drop (2 * m) ++ rest) := by
        rw [hrx, ← List.append_assoc, List.take_append_drop]
      obtain ⟨rx, hread, hrx1⟩ := run_read_append hsplit
      rw [hchunk] at hread
      have hbatch := emits_mapM (φ := φ) s.rstN (List.range m) (fun i =>
        (body.take (2 * m)).getD (2 * i) 0)
        (fun i => (body.take (2 * m)).getD (2 * i + 1) 0) { s with usbRx := rx } rfl
      let out := uoBytesAt s.rstN (bodyPairs m (body.take (2 * m))) s.chip
      let t' := driveAt s.rstN (bodyPairs m (body.take (2 * m))) s.chip
      obtain ⟨rx', hloop, hrx'⟩ := ih (n - m) (by omega)
        { s with usbRx := rx, usbTx := s.usbTx ++ out, chip := t' }
        (body.drop (2 * m)) (by rw [List.length_drop]; omega) hrx1
      have hpairs : bodyPairs n body = bodyPairs m (body.take (2 * m)) ++
          bodyPairs (n - m) (body.drop (2 * m)) := by
        rw [← bodyPairs_append _ _ hchunk, List.take_append_drop, Nat.add_sub_cancel' hmn]
      refine ⟨rx', ?_, hrx'⟩
      rw [transactLoop, dif_pos hn]
      simp only [hm]
      rw [run_bind hread, run_bind hbatch, run_bind (run_usbWriteBlocking _ _)]
      refine Eq.trans hloop ?_
      rw [hpairs, uoBytesAt_append, driveAt_append, ← List.append_assoc]
    · obtain rfl : n = 0 := by omega
      obtain rfl : body = [] := List.length_eq_zero_iff.mp hlen
      refine ⟨s.usbRx, ?_, hrx⟩
      rw [transactLoop, dif_neg hn]
      simp [bodyPairs, uoBytesAt]

theorem run_flashLoop (fl : Flash φ) (n : Nat) (s : State φ) (body rest : List Byte)
    (hlen : body.length = n) (hrx : s.usbRx.flatten = body ++ rest) :
    ∃ rx, (flashLoop fl n).run s =
      .ok () { s with usbRx := rx, flash := flashChunks fl n body s.flash } ∧
      rx.flatten = rest := by
  induction n using Nat.strongRecOn generalizing s body with
  | _ n ih =>
    by_cases hn : n > 0
    · obtain ⟨m, hm⟩ : ∃ m, (if n < 1024 then n else 1024) = m := ⟨_, rfl⟩
      obtain ⟨hm0, hmn⟩ := chunk_spec (by decide) hn hm
      have hchunk : (body.take m).length = m := by
        rw [List.length_take]
        omega
      have hsplit : s.usbRx.flatten = body.take m ++ (body.drop m ++ rest) := by
        rw [hrx, ← List.append_assoc, List.take_append_drop]
      obtain ⟨rx, hread, hrx1⟩ := run_read_append hsplit
      rw [hchunk] at hread
      obtain ⟨rx', hloop, hrx'⟩ := ih (n - m) (by omega)
        { s with usbRx := rx, flash := fl.flashAppend (body.take m) s.flash } (body.drop m)
        (by rw [List.length_drop]; omega) hrx1
      refine ⟨rx', ?_, hrx'⟩
      rw [flashLoop, flashChunks, dif_pos hn, dif_pos hn]
      simp only [hm]
      rw [run_bind hread]
      exact hloop
    · obtain rfl : n = 0 := by omega
      obtain rfl : body = [] := List.length_eq_zero_iff.mp hlen
      refine ⟨s.usbRx, ?_, hrx⟩
      rw [flashLoop, flashChunks, dif_neg hn, dif_neg hn]
      rfl

/-! ## Modes -/

section Modes

variable (fl : Flash φ)

/-- What a served frame leaves; `rest` is what is left in the pipe. -/
structure Outcome (f : Frame) (rest : List Byte) (s s' : State φ) : Prop where
  rx : s'.usbRx.flatten = rest
  tx : s'.usbTx = s.usbTx ++ (f.effect fl s.device).1
  device : s'.device = (f.effect fl s.device).2

/-- An upload that is refused replies at once and reads nothing. -/
theorem run_modeFlash_refused {n : Nat} {s : State φ} (body : List Byte)
    (h : n = 0 ∨ n > bitstreamMaxBytes ∨ (fl.flashBegin n s.flash).1 = false) :
    ∃ s', (modeFlash fl n).run s = .ok () s' ∧ s'.usbRx = s.usbRx ∧
      s'.usbTx = s.usbTx ++ (flashEffect fl n body s.device).1 ∧
      s'.device = (flashEffect fl n body s.device).2 := by
  by_cases hsize : n = 0 ∨ n > bitstreamMaxBytes
  · refine ⟨{ s with usbTx := s.usbTx ++ [0xff] }, ?_, rfl, ?_, ?_⟩
    · simp only [modeFlash, EStateM.run, bind, EStateM.bind, hsize, if_true]
      rfl
    · rw [flashEffect, if_pos hsize]
    · rw [flashEffect, if_pos hsize]
      rfl
  · have hbegin : (fl.flashBegin n s.flash).1 = false := by
      rcases h with h | h | h
      · exact absurd (Or.inl h) hsize
      · exact absurd (Or.inr h) hsize
      · exact h
    refine ⟨{ s with usbTx := s.usbTx ++ [0xff], flash := (fl.flashBegin n s.flash).2 },
      ?_, rfl, ?_, ?_⟩
    · simp only [modeFlash, EStateM.run, bind, EStateM.bind, hsize, if_false, hbegin,
        Bool.false_eq_true]
      rfl
    · rw [flashEffect, if_neg hsize]
      simp [State.device, hbegin]
    · rw [flashEffect, if_neg hsize]
      simp [State.device, hbegin]

/-- An upload that is accepted reads its body and replies with the status. -/
theorem run_modeFlash_accepted {n : Nat} {s : State φ} {body rest : List Byte} (hn : n ≠ 0)
    (hmax : n ≤ bitstreamMaxBytes)
    (hbegin : (fl.flashBegin n s.flash).1 = true) (hlen : body.length = n)
    (hrx : s.usbRx.flatten = body ++ rest) :
    ∃ s', (modeFlash fl n).run s = .ok () s' ∧ s'.usbRx.flatten = rest ∧
      s'.usbTx = s.usbTx ++ (flashEffect fl n body s.device).1 ∧
      s'.device = (flashEffect fl n body s.device).2 := by
  have hsize : ¬ (n = 0 ∨ n > bitstreamMaxBytes) := by omega
  obtain ⟨rx, hloop, hrest⟩ :=
    run_flashLoop fl n { s with flash := (fl.flashBegin n s.flash).2 } body rest hlen hrx
  have hloop' : flashLoop fl n { s with flash := (fl.flashBegin n s.flash).2 } = _ := hloop
  obtain ⟨ended, hended⟩ : ∃ e,
    fl.flashEnd (flashChunks fl n body (fl.flashBegin n s.flash).2) = e := ⟨_, rfl⟩
  by_cases hrc : ended.1 = 0
  · refine ⟨{ s with
        usbRx := rx, usbTx := s.usbTx ++ [BitVec.ofInt 8 ended.1]
        chip := (fl.loadBitstream ended.2 s.chip).2, flash := ended.2 }, ?_, hrest, ?_, ?_⟩
    · simp only [modeFlash, EStateM.run, bind, EStateM.bind, hsize, if_false, hbegin, if_true,
        hloop', hended, hrc]
      rfl
    · rw [flashEffect, if_neg hsize]
      simp [State.device, hbegin, hended]
    · rw [flashEffect, if_neg hsize]
      simp [State.device, hbegin, hended, hrc]
  · refine ⟨{ s with usbRx := rx, usbTx := s.usbTx ++ [BitVec.ofInt 8 ended.1], flash := ended.2 },
      ?_, hrest, ?_, ?_⟩
    · simp only [modeFlash, EStateM.run, bind, EStateM.bind, hsize, if_false, hbegin, if_true,
        hloop', hended, hrc]
      rfl
    · rw [flashEffect, if_neg hsize]
      simp [State.device, hbegin, hended]
    · rw [flashEffect, if_neg hsize]
      simp [State.device, hbegin, hended, hrc]

theorem run_modeLoad (s : State φ) : ∃ s', (modeLoad fl).run s = .ok () s' ∧ s'.usbRx = s.usbRx ∧
    s'.usbTx = s.usbTx ++ (loadEffect fl s.device).1 ∧ s'.device = (loadEffect fl s.device).2 := by
  by_cases hpresent : fl.present s.flash = true
  · have hdevice : fl.present s.device.flash = true := hpresent
    refine ⟨{ s with
        usbTx := s.usbTx ++ [if (fl.loadBitstream s.flash s.chip).1 then 0 else 2]
        chip := (fl.loadBitstream s.flash s.chip).2 }, ?_, rfl, ?_, ?_⟩
    · simp only [modeLoad, EStateM.run_bind, EStateM.run_get, hpresent, if_true]
      rfl
    · rw [loadEffect, if_pos hdevice]
      rfl
    · rw [loadEffect, if_pos hdevice]
      rfl
  · have hdevice : ¬ fl.present s.device.flash = true := hpresent
    refine ⟨{ s with usbTx := s.usbTx ++ [1] }, ?_, rfl, ?_, ?_⟩
    · simp only [modeLoad, EStateM.run_bind, EStateM.run_get, hpresent]
      rfl
    · rw [loadEffect, if_neg hdevice]
    · rw [loadEffect, if_neg hdevice]
      rfl

/-- The branch of the main loop for a mode. -/
def Mode.program : Mode → Nat → Prog φ Unit
  | .assertReset, _ => modify fun s => { s with rstN := false }
  | .deassertReset, _ => modify fun s => { s with rstN := true }
  | .transact, n => transactLoop n
  | .tiles, n => macroLoop n
  | .flash, n => modeFlash fl n
  | .load, _ => modeLoad fl

theorem run_serveFrame_header (f : Frame) (rest : List Byte) (s : State φ)
    (hrx : s.usbRx.flatten = f.bytes ++ rest) :
    ∃ rx, (serveFrame fl).run s = (f.mode.program fl f.count.toNat).run { s with usbRx := rx } ∧
      rx.flatten = f.body ++ rest := by
  rw [Frame.bytes, List.append_assoc] at hrx
  obtain ⟨rx, hread, hrest⟩ := run_read_append hrx
  refine ⟨rx, ?_, hrest⟩
  have hlen : f.header.length = 5 := rfl
  rw [hlen] at hread
  rw [serveFrame, run_bind hread]
  simp only [Frame.header, List.getD_cons_zero, List.getD_cons_succ, le32_u32Byte]
  cases f.mode <;> rfl

theorem Frame.body_nil {f : Frame} (h : f.mode.bodyNbytes f.count.toNat = 0) : f.body = [] :=
  List.length_eq_zero_iff.mp (f.length_body.trans h)

/-- The frames that cannot be refused consume their body. -/
theorem run_program {f : Frame} (hmode : f.mode ≠ .flash) (rest : List Byte) (s : State φ)
    (hbody : s.usbRx.flatten = f.body ++ rest) :
    ∃ s', (f.mode.program fl f.count.toNat).run s = .ok () s' ∧ Outcome fl f rest s s' := by
  have hlen := f.length_body
  have hnil : f.mode.bodyNbytes f.count.toNat = 0 → s.usbRx.flatten = rest := by
    intro h
    rw [hbody, Frame.body_nil h, List.nil_append]
  cases hm : f.mode with
  | assertReset =>
    refine ⟨_, rfl, hnil (by rw [hm]; rfl), ?_, ?_⟩
    · simp [Frame.effect, hm]
    · simp [Frame.effect, hm, State.device]
  | deassertReset =>
    refine ⟨_, rfl, hnil (by rw [hm]; rfl), ?_, ?_⟩
    · simp [Frame.effect, hm]
    · simp [Frame.effect, hm, State.device]
  | transact =>
    rw [hm] at hlen
    obtain ⟨rx, hrun, hrest⟩ := run_transactLoop _ s _ rest hlen hbody
    refine ⟨_, hrun, hrest, ?_, ?_⟩
    · simp [Frame.effect, hm, State.device]
    · simp [Frame.effect, hm, State.device]
  | tiles =>
    rw [hm] at hlen
    have hlen' : f.body.length = f.count.toNat * 3 := by rw [hlen, Mode.bodyNbytes, Nat.mul_comm]
    obtain ⟨rx, hrun, hrest⟩ :=
      run_macroLoopAt f.count.toNat s (by rw [hbody, List.length_append, hlen']; omega)
    simp only [hbody, bodyPlan_append f.body rest hlen', ← hlen', List.drop_left] at hrun hrest
    refine ⟨_, hrun, hrest, ?_, ?_⟩
    · simp [Frame.effect, hm, State.device]
    · simp [Frame.effect, hm, State.device]
  | flash => exact absurd hm hmode
  | load =>
    obtain ⟨s', hrun, hrx, htx, hdevice⟩ := run_modeLoad fl s
    refine ⟨s', hrun, by rw [hrx, hnil (by rw [hm]; rfl)], ?_, ?_⟩
    · simp [htx, Frame.effect, hm]
    · simp [hdevice, Frame.effect, hm]

/-- An upload consumes its body exactly when it is accepted. -/
theorem run_flash {f : Frame} (hmode : f.mode = .flash) (rest : List Byte) (s : State φ)
    (hbody : s.usbRx.flatten = f.body ++ rest) :
    ∃ s', (modeFlash fl f.count.toNat).run s = .ok () s' ∧
      ((f.Accepted fl s.device ∧ Outcome fl f rest s s') ∨
        (¬ f.Accepted fl s.device ∧ Outcome fl f (f.body ++ rest) s s')) := by
  have hlen := f.length_body
  rw [hmode] at hlen
  have heffect : f.effect fl s.device = flashEffect fl f.count.toNat f.body s.device := by
    simp [Frame.effect, hmode]
  by_cases hacc : f.Accepted fl s.device
  · by_cases hzero : f.count.toNat = 0
    · obtain ⟨s', hrun, hrx, htx, hdevice⟩ :=
        run_modeFlash_refused fl (s := s) f.body (Or.inl hzero)
      have hnil : f.body = [] := List.length_eq_zero_iff.mp (hlen.trans hzero)
      rw [hnil, List.nil_append] at hbody
      exact ⟨s', hrun, Or.inl ⟨hacc, by rw [hrx, hbody], by rw [htx, heffect],
        by rw [hdevice, heffect]⟩⟩
    · obtain ⟨hmax, hbegin⟩ := (hacc hmode).resolve_left hzero
      obtain ⟨s', hrun, hrx, htx, hdevice⟩ := run_modeFlash_accepted fl hzero hmax hbegin hlen hbody
      exact ⟨s', hrun, Or.inl ⟨hacc, hrx, by rw [htx, heffect], by rw [hdevice, heffect]⟩⟩
  · have hrefused : f.count.toNat > bitstreamMaxBytes ∨
        (fl.flashBegin f.count.toNat s.flash).1 = false := by
      by_contra hno
      rw [not_or, Nat.not_lt, Bool.not_eq_false] at hno
      exact hacc fun _ => Or.inr hno
    obtain ⟨s', hrun, hrx, htx, hdevice⟩ :=
      run_modeFlash_refused fl (s := s) f.body (Or.inr hrefused)
    exact ⟨s', hrun, Or.inr ⟨hacc, by rw [hrx, hbody], by rw [htx, heffect],
      by rw [hdevice, heffect]⟩⟩

/-- One iteration of the loop does what the frame declares; the body of a refused upload
    stays in the pipe. -/
theorem run_serveFrame (f : Frame) (rest : List Byte) (s : State φ)
    (hrx : s.usbRx.flatten = f.bytes ++ rest) :
    ∃ s', (serveFrame fl).run s = .ok () s' ∧
      ((f.Accepted fl s.device ∧ Outcome fl f rest s s') ∨
        (¬ f.Accepted fl s.device ∧ Outcome fl f (f.body ++ rest) s s')) := by
  obtain ⟨rx, hheader, hbody⟩ := run_serveFrame_header fl f rest s hrx
  by_cases hmode : f.mode = .flash
  · obtain ⟨s', hrun, hout⟩ := run_flash fl hmode rest { s with usbRx := rx } hbody
    refine ⟨s', by rw [hheader, hmode]; exact hrun, ?_⟩
    rcases hout with ⟨hacc, hrx', htx, hdevice⟩ | ⟨hacc, hrx', htx, hdevice⟩
    · exact Or.inl ⟨hacc, hrx', htx, hdevice⟩
    · exact Or.inr ⟨hacc, hrx', htx, hdevice⟩
  · obtain ⟨s', hrun, hrx', htx, hdevice⟩ := run_program fl hmode rest { s with usbRx := rx } hbody
    exact ⟨s', by rw [hheader, hrun], Or.inl ⟨fun h => absurd h hmode, hrx', htx, hdevice⟩⟩

end Modes

/-! ## Streams -/

section Streams

variable (fl : Flash φ)

theorem length_replies (frames : List Frame) (d : Device φ) :
    (replies fl frames d).map List.length = frames.map Frame.replyNbytes := by
  induction frames generalizing d with
  | nil => rfl
  | cons f frames ih => rw [replies, List.map_cons, List.map_cons, ih, Frame.length_reply]

theorem serve_succ {s s' : State φ} (h : (serveFrame fl).run s = .ok () s') (fuel : Nat) :
    serve fl (fuel + 1) s = serve fl fuel s' := by
  rw [serve, h]

theorem serve_idle {s : State φ} (h : s.usbRx.flatten = []) (fuel : Nat) : serve fl fuel s = s := by
  cases fuel with
  | zero => rfl
  | succ fuel => rw [serve, run_serveFrame_idle fl s h]

/-- The loop interprets exactly the frames of a stream, in order, and then waits. -/
structure Interprets (frames : List Frame) (s : State φ) : Prop where
  served : ∀ k ≤ frames.length,
    Served fl (frames.take k) ((frames.drop k).flatMap Frame.bytes) s (serve fl k s)
  waits : ∀ fuel, frames.length ≤ fuel → serve fl fuel s = serve fl frames.length s

/-- A frame in front of frames that are served after it. -/
theorem Served.cons_iff {f : Frame} {frames : List Frame} {rest rest' : List Byte}
    {s s' s'' : State φ}
    (h : Outcome fl f rest s s') : Served fl (f :: frames) rest' s s'' ↔
      Served fl frames rest' s' s'' := by
  have htx : s.usbTx ++ (replies fl (f :: frames) s.device).flatten =
      s'.usbTx ++ (replies fl frames s'.device).flatten := by
    rw [replies, List.flatten_cons, h.tx, h.device, List.append_assoc]
  have hdevice : deviceAfter fl (f :: frames) s.device = deviceAfter fl frames s'.device := by
    rw [deviceAfter, h.device]
  constructor
  · rintro ⟨hrx, htx', hdevice'⟩
    exact ⟨hrx, by rw [htx', htx], by rw [hdevice', hdevice]⟩
  · rintro ⟨hrx, htx', hdevice'⟩
    exact ⟨hrx, by rw [htx', htx], by rw [hdevice', hdevice]⟩

theorem interprets_of_accepted (frames : List Frame) (s : State φ)
    (hrx : s.usbRx.flatten = frames.flatMap Frame.bytes)
    (hacc : AllAccepted fl frames s.device) : Interprets fl frames s := by
  induction frames generalizing s with
  | nil =>
    refine ⟨?_, fun fuel _ => by rw [serve_idle fl hrx, serve_idle fl hrx]⟩
    intro k hk
    obtain rfl : k = 0 := Nat.le_zero.mp hk
    exact ⟨hrx, by simp [serve, replies], rfl⟩
  | cons f frames ih =>
    obtain ⟨hf, hframes⟩ := hacc
    obtain ⟨s', hrun, ⟨-, hout⟩ | ⟨hno, -⟩⟩ := run_serveFrame fl f _ s hrx
    · have hrest := ih s' hout.rx (by rw [hout.device]; exact hframes)
      refine ⟨?_, ?_⟩
      · intro k hk
        cases k with
        | zero => exact ⟨hrx, by simp [serve, replies], rfl⟩
        | succ k =>
          rw [serve_succ fl hrun, List.take_succ_cons, List.drop_succ_cons, Served.cons_iff fl hout]
          exact hrest.served k (Nat.le_of_succ_le_succ hk)
      · intro fuel hfuel
        cases fuel with
        | zero => cases hfuel
        | succ fuel =>
          rw [List.length_cons, serve_succ fl hrun, serve_succ fl hrun]
          exact hrest.waits fuel (Nat.le_of_succ_le_succ hfuel)
    · exact absurd hf hno

/-- A refused upload leaves a body, so the next iteration is not at a header. -/
theorem accepted_of_interprets (frames : List Frame) (s : State φ)
    (hrx : s.usbRx.flatten = frames.flatMap Frame.bytes)
    (h : ∀ k ≤ frames.length,
      Served fl (frames.take k) ((frames.drop k).flatMap Frame.bytes) s (serve fl k s)) :
    AllAccepted fl frames s.device := by
  induction frames generalizing s with
  | nil => trivial
  | cons f frames ih =>
    obtain ⟨s', hrun, ⟨hf, hout⟩ | ⟨hno, hout⟩⟩ := run_serveFrame fl f _ s hrx
    · refine ⟨hf, ?_⟩
      rw [← hout.device]
      apply ih s' hout.rx
      intro k hk
      have hk' := h (k + 1) (Nat.succ_le_succ hk)
      rw [serve_succ fl hrun, List.take_succ_cons, List.drop_succ_cons, Served.cons_iff fl hout]
        at hk'
      exact hk'
    · exfalso
      have hone := (h 1 (by simp)).rx
      rw [serve_succ fl hrun, serve, hout.rx] at hone
      have hnil : f.body = [] := List.append_left_eq_self.mp hone
      have hlen := f.length_body
      apply hno
      intro hmode
      rw [hmode, hnil] at hlen
      exact Or.inl hlen.symm

/-- For every stream of frames, however it is delivered: the loop interprets exactly
    these frames and sends their declared replies if and only if every upload with a
    body is accepted. -/
theorem frames_interpreted_iff (frames : List Frame) (s : State φ)
    (hrx : s.usbRx.flatten = frames.flatMap Frame.bytes) :
    (Interprets fl frames s ↔ AllAccepted fl frames s.device) ∧
      (replies fl frames s.device).map List.length = frames.map Frame.replyNbytes :=
  ⟨⟨fun h => accepted_of_interprets fl frames s hrx h.served,
    interprets_of_accepted fl frames s hrx⟩, length_replies fl frames s.device⟩

end Streams

/-- A flash in which every upload and load works. -/
def workingFlash : Flash Unit where
  flashBegin _ _ := (true, ())
  flashAppend _ _ := ()
  flashEnd _ := (0, ())
  present _ := true
  loadBitstream _ chip := (true, chip)

/-- An upload of one byte and a cycle, delivered byte by byte. -/
theorem frames_interpreted_iff_upload :
    Interprets workingFlash [⟨.flash, 1, [0x7e], rfl⟩, ⟨.transact, 1, [0x07, 0x00], rfl⟩]
      ⟨[[0x46], [1], [0, 0], [0], [0x7e], [], [0x58, 1, 0, 0, 0, 0x07], [0]], [], true,
        Tile.reset, ()⟩ := by
  have hiff := frames_interpreted_iff workingFlash [⟨.flash, 1, [0x7e], rfl⟩,
    ⟨.transact, 1, [0x07, 0x00], rfl⟩]
    ⟨[[0x46], [1], [0, 0], [0], [0x7e], [], [0x58, 1, 0, 0, 0, 0x07], [0]], [], true,
      Tile.reset, ()⟩ rfl
  exact hiff.1.mpr ⟨fun _ => Or.inr ⟨by decide, rfl⟩, ⟨fun h => Mode.noConfusion h, trivial⟩⟩

/-- A bitstream that is one byte too long. -/
def oversizedUpload : Frame where
  mode := .flash
  count := 261889
  body := List.replicate 261889 0x61
  length_body := List.length_replicate

/-- The upload is refused and its body is read as requests. -/
theorem oversized_upload_desynchronizes :
    ¬ Interprets workingFlash [oversizedUpload] ⟨[oversizedUpload.bytes], [], true,
      Tile.reset, ()⟩ := by
  intro h
  have hrx : ([oversizedUpload.bytes] : List (List Byte)).flatten =
      [oversizedUpload].flatMap Frame.bytes := by simp
  obtain ⟨hacc, -⟩ := accepted_of_interprets workingFlash _ _ hrx h.served
  have hcount : oversizedUpload.count.toNat = 261889 := rfl
  rcases hacc rfl with hzero | ⟨hmax, -⟩
  · rw [hcount] at hzero
    cases hzero
  · rw [hcount] at hmax
    exact absurd hmax (by decide)

end Firmware
