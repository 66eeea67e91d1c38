-- SUMMARY: Every bitstream that is streamed to the flash is stored, whatever its chunks, and nothing half-written looks like one.
import BonsaiTpu.Firmware.Staging

/-!
# Streaming a bitstream

The calls of `begin`, `append` and `end` can come in any order. A history is what was
called since power-up and what was returned; a session is open from a successful `begin`
to an `end` that returns zero. While it is open, there is no bitstream in the flash.
-/

namespace BitstreamFlash

open NorFlash

/-- The data of an `append`. No object of a C program has `2 ^ 31` bytes or more. -/
abbrev Chunk := { data : List Byte // data.length < 2 ^ 31 }

inductive Call where
  | flashBegin (totalLength : Nat)
  | flashAppend (data : Chunk)
  | flashEnd
  deriving DecidableEq

/-- `begin` and `append` return whether they succeeded, `end` an error code. -/
inductive Reply where
  | ok (success : Bool)
  | code (error : Nat)
  deriving DecidableEq

/-- One call, if it returns. -/
def call (d : Board) (s : State) : Call → Option (Reply × State)
  | .flashBegin totalLength => some ((flashBegin d totalLength s).map .ok id)
  | .flashAppend data => (flashAppend d data s).map (Prod.map .ok id)
  | .flashEnd => some ((flashEnd d s).map .code id)

/-- Some calls in a row. -/
def calls (d : Board) (s : State) : List Call → Option (List Reply × State)
  | [] => some ([], s)
  | c :: cs => do
    let (r, s') ← call d s c
    let (rs, s'') ← calls d s' cs
    return (r :: rs, s'')

/-- The calls since power-up with what they returned, and the state they lead to. -/
inductive History (d : Board) (flash : Image) : List (Call × Reply) → State → Prop
  | powerUp : History d flash [] (powerUp flash)
  | call {h : List (Call × Reply)} {s s' : State} {c : Call} {r : Reply} :
    History d flash h s → call d s c = some (r, s') → History d flash (h ++ [(c, r)]) s'

/-- A `begin` succeeded and no `end` has returned zero since. -/
def Open (h : List (Call × Reply)) : Prop :=
  ∃ before n after, h = before ++ (.flashBegin n, .ok true) :: after ∧ (.flashEnd, .code 0) ∉ after

section Open

variable {h : List (Call × Reply)} {e : Call × Reply}

theorem Open.append (ho : Open h) (he : e ≠ (.flashEnd, .code 0)) : Open (h ++ [e]) := by
  obtain ⟨before, n, after, rfl, hafter⟩ := ho
  refine ⟨before, n, after ++ [e], by rw [List.append_assoc, List.cons_append], fun hm => ?_⟩
  rcases List.mem_append.mp hm with hm | hm
  · exact hafter hm
  · exact he (List.mem_singleton.mp hm).symm

theorem open_begin (h : List (Call × Reply)) (n : Nat) : Open (h ++ [(.flashBegin n, .ok true)]) :=
  ⟨h, n, [], rfl, List.not_mem_nil⟩

/-- A session that is open after a call other than `begin` was open before it. -/
theorem Open.of_append (ho : Open (h ++ [e]))
    (he : ∀ n, e ≠ (.flashBegin n, .ok true)) : Open h := by
  obtain ⟨before, n, after, heq, hafter⟩ := ho
  rcases List.eq_nil_or_concat after with rfl | ⟨after, last, rfl⟩
  · obtain ⟨-, hlast⟩ := List.append_inj' heq rfl
    cases hlast
    exact absurd rfl (he n)
  · rw [List.concat_eq_append] at heq hafter
    rw [← List.cons_append, ← List.append_assoc] at heq
    obtain ⟨rfl, -⟩ := List.append_inj' heq rfl
    exact ⟨before, n, after, rfl, fun hm => hafter (List.mem_append_left _ hm)⟩

theorem not_open_end (h : List (Call × Reply)) : ¬Open (h ++ [(.flashEnd, .code 0)]) := by
  rintro ⟨before, n, after, heq, hafter⟩
  rcases List.eq_nil_or_concat after with rfl | ⟨after, last, rfl⟩
  · obtain ⟨-, hlast⟩ := List.append_inj' heq rfl
    simp at hlast
  · rw [List.concat_eq_append] at heq hafter
    rw [← List.cons_append, ← List.append_assoc] at heq
    obtain ⟨-, hlast⟩ := List.append_inj' heq rfl
    exact hafter (List.mem_append_right _ (by rw [← hlast]; simp))

end Open

/-! ## Every call keeps the invariant -/

section Invariant

variable {d : Board} {flash : Image} {h : List (Call × Reply)} {s : State}

/-- What holds after any calls. -/
structure Inv (d : Board) (flash : Image) (h : List (Call × Reply)) (s : State) :
    Prop extends Kept d flash s where
  session : s.active = true → Open h ∧ ∃ len received, Session d len received s
  erased : Open h → HeaderErased d s.log

theorem Inv.powerUp (d : Board) (flash : Image) : Inv d flash [] (powerUp flash) where
  buf := List.length_replicate
  flash := rfl
  sound := soundLog_nil
  session h := by simp [BitstreamFlash.powerUp] at h
  erased h := by
    obtain ⟨_, _, _, hnil, -⟩ := h
    simp at hnil

/-- A call that changes nothing. -/
theorem Inv.same (hi : Inv d flash h s) {e : Call × Reply} (hend : e ≠ (.flashEnd, .code 0))
    (hbegin : ∀ n, e ≠ (.flashBegin n, .ok true)) : Inv d flash (h ++ [e]) s where
  toKept := hi.toKept
  session hactive := ⟨(hi.session hactive).1.append hend, (hi.session hactive).2⟩
  erased ho := hi.erased (ho.of_append hbegin)

/-- A session that has just been opened or has got more bytes. -/
theorem Inv.ofSession (hk : Kept d flash s) {len : Nat} {received : List Byte}
    (hs : Session d len received s) (ho : Open h) :
    Inv d flash h s where
  toKept := hk
  session _ := ⟨ho, len, received, hs⟩
  erased _ := hs.headerErased

/-- A session that has been closed. -/
theorem Inv.closed (hk : Kept d flash s) (hactive : s.active = false)
    (herased : Open h → HeaderErased d s.log) :
    Inv d flash h s where
  toKept := hk
  session h := by rw [hactive] at h; exact absurd h Bool.false_ne_true
  erased := herased

/-- Every call returns and keeps the invariant. -/
theorem Inv.call (hi : Inv d flash h s) (c : Call) :
    ∃ r s', BitstreamFlash.call d s c = some (r, s') ∧ Inv d flash (h ++ [(c, r)]) s' := by
  cases c with
  | flashBegin n =>
    by_cases hn : n = 0 ∨ maxBytes < n
    · refine ⟨.ok false, s, ?_, hi.same (by simp) (by simp)⟩
      rw [BitstreamFlash.call, flashBegin, if_pos hn]
      rfl
    · obtain ⟨s', hbegin, hsession, hkept⟩ :=
        flashBegin_ok hi.toKept (show 0 < n by omega) (by omega)
      refine ⟨.ok true, s', ?_, .ofSession hkept hsession (open_begin h n)⟩
      rw [BitstreamFlash.call, hbegin]
      rfl
  | flashAppend data =>
    by_cases hactive : s.active = true
    · obtain ⟨ho, len, received, hsession⟩ := hi.session hactive
      by_cases hle : received.length + data.val.length ≤ len
      · obtain ⟨s', happend, hsession', hkept⟩ := hsession.flashAppend hi.toKept data.val hle
        refine ⟨.ok true, s', ?_, .ofSession hkept hsession' (ho.append (by simp))⟩
        rw [BitstreamFlash.call, happend]
        rfl
      · refine ⟨.ok false, { s with active := false }, ?_,
          .closed ⟨hi.buf, hi.flash, hi.sound⟩ rfl fun _ => hi.erased ho⟩
        rw [BitstreamFlash.call, hsession.flashAppend_overflow (by omega) data.property]
        rfl
    · refine ⟨.ok false, s, ?_, hi.same (by simp) (by simp)⟩
      rw [BitstreamFlash.call, flashAppend, if_pos (by simpa using hactive)]
      rfl
  | flashEnd =>
    by_cases hactive : s.active = true
    · obtain ⟨ho, len, received, hsession⟩ := hi.session hactive
      by_cases hlen : received.length = len
      · obtain ⟨s', hend, hclosed, hkept, -⟩ := hsession.flashEnd hi.toKept hlen
        refine ⟨.code 0, s', ?_, .closed hkept hclosed fun ho' => absurd ho' (not_open_end h)⟩
        rw [BitstreamFlash.call, hend]
        rfl
      · obtain ⟨s', hend, hclosed, hkept, herased⟩ := hsession.flashEnd_short hi.toKept hlen
        refine ⟨.code 2, s', ?_, .closed hkept hclosed fun _ => herased⟩
        rw [BitstreamFlash.call, hend]
        rfl
    · refine ⟨.code 1, s, ?_, hi.same (by simp) (by simp)⟩
      rw [BitstreamFlash.call, flashEnd, if_pos (by simpa using hactive)]
      rfl

theorem History.inv (hh : History d flash h s) : Inv d flash h s := by
  induction hh with
  | powerUp => exact .powerUp d flash
  | @call _ _ _ c r _ hcall ih =>
    obtain ⟨r', s', hcall', hinv⟩ := ih.call c
    rw [hcall] at hcall'
    cases hcall'
    exact hinv

theorem Inv.not_present (hi : Inv d flash h s) (ho : Open h) : present d s.flash = false := by
  rw [hi.flash]
  exact present_of_headerErased hi.sound (hi.erased ho)

end Invariant

/-! ## Whole sessions -/

section Sessions

variable {d : Board} {flash : Image} {s : State}

theorem calls_append {s' s'' : State} {cs cs' : List Call} {rs rs' : List Reply}
    (h : calls d s cs = some (rs, s'))
    (h' : calls d s' cs' = some (rs', s'')) : calls d s (cs ++ cs') = some (rs ++ rs', s'') := by
  induction cs generalizing s rs with
  | nil =>
    cases h
    exact h'
  | cons c cs ih =>
    rw [calls, Option.bind_eq_bind, Option.bind_eq_some_iff] at h
    obtain ⟨⟨r, s₁⟩, hc, h⟩ := h
    simp only [Option.bind_eq_bind, Option.pure_def, Option.bind_eq_some_iff, Option.some.injEq,
      Prod.exists] at h
    obtain ⟨rs₁, s₂, hcs, hrs⟩ := h
    cases hrs
    simp [calls, hc, ih hcs]

/-- The bytes of some chunks. -/
def payload (chunks : List Chunk) : List Byte := (chunks.map Subtype.val).flatten

/-- Chunks that fit are all taken. -/
theorem Session.appends {len : Nat} {received : List Byte} (hs : Session d len received s)
    (hk : Kept d flash s)
    (chunks : List Chunk) (hle : received.length + (payload chunks).length ≤ len) :
    ∃ s', calls d s (chunks.map .flashAppend) = some (chunks.map fun _ => .ok true, s') ∧
      Session d len (received ++ payload chunks) s' ∧ Kept d flash s' := by
  induction chunks generalizing s received with
  | nil =>
    exact ⟨s, rfl, by rw [payload, List.map_nil, List.flatten_nil, List.append_nil]; exact hs, hk⟩
  | cons chunk chunks ih =>
    have hpayload : payload (chunk :: chunks) = chunk.val ++ payload chunks := rfl
    rw [hpayload, List.length_append] at hle
    obtain ⟨s₁, happend, hsession, hkept⟩ := hs.flashAppend hk chunk.val (by omega)
    obtain ⟨s', hcalls, hsession', hkept'⟩ := ih hsession hkept (by rw [List.length_append]; omega)
    refine ⟨s', ?_, by rw [hpayload, ← List.append_assoc]; exact hsession', hkept'⟩
    simp [calls, call, happend, hcalls]

/-- A session for a payload that fits the region succeeds, however it is cut into chunks. -/
theorem session_stored (hk : Kept d flash s) (chunks : List Chunk)
    (hpos : 0 < (payload chunks).length) (hle : (payload chunks).length ≤ maxBytes) :
    ∃ s',
      calls d s (.flashBegin (payload chunks).length :: (chunks.map .flashAppend ++ [.flashEnd])) =
        some (.ok true :: ((chunks.map fun _ => .ok true) ++ [.code 0]), s') ∧
      Stored d (payload chunks) s'.flash := by
  obtain ⟨s₁, hbegin, hsession, hkept⟩ := flashBegin_ok (s := s) hk hpos hle
  obtain ⟨s₂, hcalls, hsession₂, hkept₂⟩ := hsession.appends hkept chunks (by simp)
  obtain ⟨s', hend, -, -, hstored⟩ := hsession₂.flashEnd hkept₂ rfl
  refine ⟨s', ?_, hstored⟩
  have hlast : calls d s₂ [.flashEnd] = some ([.code 0], s') := by simp [calls, call, hend]
  simp [calls, call, hbegin, calls_append hcalls hlast]

/-- The call is an append overflow, an `end` with error 2, or an `end` with error 1 in an open
    session. -/
inductive Failed (h : List (Call × Reply)) (s : State) : Call → Reply → Prop
  | overflow (data : Chunk) : s.active = true → Failed h s (.flashAppend data) (.ok false)
  | short : Failed h s .flashEnd (.code 2)
  | inactive : Open h → Failed h s .flashEnd (.code 1)

/-- From every state the calls can lead to, and for every payload and every way to cut it into
    chunks: a session succeeds and stores the payload. Every call of the flash routines in the past
    kept to the rules: whole pages of the region, erased since the last `begin` and not programmed
    since. There is no bitstream while a session is open, at no point inside of its calls, and not
    after a call that failed. -/
theorem bitstream_flash (d : Board) (flash : Image) {h : List (Call × Reply)} {s : State}
    (hh : History d flash h s) :
    (∀ chunks : List Chunk, 0 < (payload chunks).length → (payload chunks).length ≤ maxBytes →
      ∃ s', calls d s (.flashBegin (payload chunks).length ::
        (chunks.map .flashAppend ++ [.flashEnd])) =
          some (.ok true :: ((chunks.map fun _ => .ok true) ++ [.code 0]), s') ∧
        Stored d (payload chunks) s'.flash) ∧
    s.flash = replay d.toDriver flash s.log ∧
    SoundLog flashPageSize flashSectorSize d.flashOffset regionBytes s.log ∧
    (Open h → HeaderErased d s.log ∧ present d s.flash = false) ∧
    (∀ log, log <+: s.log → HeaderErased d log → present d (replay d.toDriver flash log) = false) ∧
    (∀ c, ∃ r s', call d s c = some (r, s') ∧ (Failed h s c r → present d s'.flash = false)) := by
  have hinv := hh.inv
  refine ⟨session_stored hinv.toKept, hinv.flash, hinv.sound,
    fun ho => ⟨hinv.erased ho, hinv.not_present ho⟩,
    fun log hlog herased =>
      present_of_headerErased (hinv.sound.of_prefix hlog) herased, fun c => ?_⟩
  obtain ⟨r, s', hcall, hinv'⟩ := hinv.call c
  refine ⟨r, s', hcall, fun hfailed => hinv'.not_present ?_⟩
  cases hfailed with
  | overflow data hactive => exact (hinv.session hactive).1.append (by simp)
  | short =>
    have hactive : s.active = true := by
      by_contra hne
      rw [call, flashEnd, if_pos (by simpa using hne)] at hcall
      simp at hcall
    exact (hinv.session hactive).1.append (by simp)
  | inactive ho => exact ho.append (by simp)

/-- The flash of a board with 4 MiB. -/
def pico : Board where
  toDriver := clearing flashPageSize flashSectorSize (4 * 1024 * 1024)
  sizeSectors := by decide
  sizeGe := by decide

/-- Three bytes in two chunks. -/
def twoChunks : List Chunk := [⟨[0xA5, 0x5A], by decide⟩, ⟨[0x01], by decide⟩]

theorem bitstream_flash_two_chunks :
    ∃ s', calls pico (powerUp fun _ => 0)
      (.flashBegin 3 :: (twoChunks.map .flashAppend ++ [.flashEnd])) =
        some ([.ok true, .ok true, .ok true, .code 0], s') ∧
          Stored pico [0xA5, 0x5A, 0x01] s'.flash :=
  (bitstream_flash pico (fun _ => 0) .powerUp).1 twoChunks (by decide) (by decide)

/-- A second `end` after a successful one returns error 1, and the bitstream is there. -/
theorem end_after_end :
    ∃ s, History pico (fun _ => 0)
        [(.flashBegin 1, .ok true), (.flashAppend ⟨[0xA5], by decide⟩, .ok true),
          (.flashEnd, .code 0), (.flashEnd, .code 1)] s ∧
      present pico s.flash = true := by
  have hkept : Kept pico (fun _ => 0) (powerUp fun _ => 0) := (Inv.powerUp pico _).toKept
  obtain ⟨s₁, hbegin, hsession, hkept₁⟩ := flashBegin_ok hkept Nat.one_pos (by decide)
  obtain ⟨s₂, happend, hsession₂, hkept₂⟩ := hsession.flashAppend hkept₁ [0xA5] (by decide)
  obtain ⟨s₃, hend, hclosed, -, hstored⟩ := hsession₂.flashEnd hkept₂ rfl
  refine ⟨s₃, ?_, hstored.present⟩
  have hcall₁ : call pico (powerUp fun _ => 0) (.flashBegin 1) = some (.ok true, s₁) := by
    rw [call, hbegin]; rfl
  have hcall₂ : call pico s₁ (.flashAppend ⟨[0xA5], by decide⟩) = some (.ok true, s₂) := by
    rw [call, happend]; rfl
  have hcall₃ : call pico s₂ .flashEnd = some (.code 0, s₃) := by rw [call, hend]; rfl
  have hcall₄ : call pico s₃ .flashEnd = some (.code 1, s₃) := by
    rw [call, flashEnd, if_pos (by rw [hclosed]; rfl)]
    rfl
  exact (((History.powerUp.call hcall₁).call hcall₂).call hcall₃).call hcall₄

end Sessions

end BitstreamFlash
