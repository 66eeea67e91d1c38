-- SUMMARY: One session of the bitstream writer: what is programmed and what is in the buffer after any number of appends (`bitstream_flash.c`).
import Mathlib.Data.List.GetD
import BonsaiTpu.Firmware.Flash

/-!
# A session of the writer

A session starts with a successful `begin` and is described by the bytes received since:
whole sectors of them are programmed, the rest is in the buffer. The log of flash calls
since the erase is then one call per sector, each behind the other, so that the log stays
sound; the header page is the last call of a session that succeeds.
-/

namespace BitstreamFlash

open NorFlash

variable {d : Board} {flash : Image} {s : State}

/-! ## The check -/

theorem tableBit_eq (c : BitVec 32) : tableBit c = Crc.advance 0xEDB88320#32 c := by
  have hlow : (c &&& 1#32 ≠ 0) ↔ c.getLsbD 0 = true := by
    rw [ne_eq, show (0 : BitVec 32) = 0#32 from rfl, BitVec.and_one_eq_setWidth_ofBool_getLsbD]
    cases c.getLsbD 0 <;> decide
  rw [tableBit, Crc.advance]
  by_cases hc : c.getLsbD 0 = true
  · rw [if_pos (hlow.mpr hc), if_pos hc, BitVec.xor_comm]
  · rw [if_neg (fun h => hc (hlow.mp h)), if_neg hc, BitVec.xor_zero]

/-- One byte from the table is eight bits of the register. -/
theorem table_step (crc : BitVec 32) (byte : Byte) :
    table ((crc ^^^ byte.setWidth 32) &&& 0xFF#32) ^^^ (crc >>> 8) =
      (Crc.advance 0xEDB88320#32)^[8] (crc ^^^ byte.setWidth 32) := by
  have hmask : ∀ i, (0xFF#32).getLsbD i = decide (i < 8) := by
    intro i
    by_cases hi : i < 32
    · revert i
      decide
    · rw [BitVec.getLsbD_of_ge _ _ (by omega), decide_eq_false (by omega)]
  have hshift : (crc ^^^ byte.setWidth 32) >>> 8 = crc >>> 8 := by
    apply BitVec.eq_of_getLsbD_eq
    intro i _
    simp
  have hbit : tableBit = Crc.advance 0xEDB88320#32 := funext tableBit_eq
  rw [Crc.iterate_advance_split _ 8 _ ((crc ^^^ byte.setWidth 32) &&& 0xFF#32), hshift, table, hbit]
  intro i
  rw [BitVec.getLsbD_and, hmask, Bool.and_comm]

theorem crc32_eq (data : List Byte) :
    crc32Finalize (crc32Update crc32Init data) = crc32IsoHdlc data := by
  have hpoly : (0x04C11DB7#32).reverse = 0xEDB88320#32 := by decide +kernel
  have hinit : (0xFFFFFFFF#32).reverse = 0xFFFFFFFF#32 := by decide +kernel
  rw [crc32IsoHdlc, Crc.reflected_bytes (by decide), hpoly, hinit, crc32Finalize,
    crc32Update, crc32Init]
  simp only [table_step]

example : crc32IsoHdlc [0x31, 0x32, 0x33, 0x34, 0x35, 0x36, 0x37, 0x38, 0x39] = 0xCBF43926#32 := by
  decide +kernel

theorem crc32Update_append (crc : BitVec 32) (data data' : List Byte) :
    crc32Update crc (data ++ data') = crc32Update (crc32Update crc data) data' :=
  List.foldl_append

/-! ## The header -/

theorem length_headerPage (n : Nat) (crc : BitVec 32) :
    (headerPage n crc).length = flashPageSize := by
  rw [headerPage, List.length_append, List.length_replicate]
  rfl

/-- A word whose bytes are at an offset reads back. -/
theorem readU32_of_bytes {image : Image} {a : Nat} {x : BitVec 32}
    (h0 : image a = x.extractLsb' 0 8)
    (h1 : image (a + 1) = x.extractLsb' 8 8) (h2 : image (a + 2) = x.extractLsb' 16 8)
    (h3 : image (a + 3) = x.extractLsb' 24 8) : readU32 image a = x := by
  rw [readU32, h0, h1, h2, h3]
  apply BitVec.eq_of_getLsbD_eq
  intro i hi
  simp only [BitVec.getLsbD_append, BitVec.getLsbD_extractLsb']
  grind

/-- What the accessors read from a header page. -/
theorem header_read {image : Image} {n : Nat} {crc : BitVec 32} (hn : n < 2 ^ 32)
    (h : ∀ i < 16, image (d.flashOffset + i) = (headerPage n crc).getD i 0xff) :
    readU32 image d.flashOffset = magic ∧ length d image = n ∧
      readU32 image (d.flashOffset + 8) = crc := by
  replace h : ∀ i < 16, image (d.flashOffset + i) = (header n crc).getD i 0xff := by
    intro i hi
    rw [h i hi, headerPage, List.getD_append _ _ _ _ hi]
  have hword : ∀ k < 4, ∀ x,
      (∀ j < 4, (header n crc).getD (4 * k + j) 0xff = x.extractLsb' (8 * j) 8) →
      readU32 image (d.flashOffset + 4 * k) = x := by
    intro k hk x hx
    refine readU32_of_bytes ?_ ?_ ?_ ?_
    · rw [h (4 * k) (by omega), ← Nat.add_zero (4 * k), hx 0 (by decide)]
    · rw [Nat.add_assoc, h (4 * k + 1) (by omega), hx 1 (by decide)]
    · rw [Nat.add_assoc, h (4 * k + 2) (by omega), hx 2 (by decide)]
    · rw [Nat.add_assoc, h (4 * k + 3) (by omega), hx 3 (by decide)]
  refine ⟨?_, ?_, hword 2 (by decide) crc ?_⟩
  · rw [← Nat.add_zero d.flashOffset]
    refine hword 0 (by decide) magic fun j hj => ?_
    match j, hj with
    | 0, _ | 1, _ | 2, _ | 3, _ => rfl
  · have hlength : readU32 image (d.flashOffset + 4) = BitVec.ofNat 32 n := by
      refine hword 1 (by decide) (BitVec.ofNat 32 n) fun j hj => ?_
      match j, hj with
      | 0, _ | 1, _ | 2, _ | 3, _ => rfl
    rw [length, hlength, BitVec.toNat_ofNat, Nat.mod_eq_of_lt hn]
  · intro j hj
    match j, hj with
    | 0, _ | 1, _ | 2, _ | 3, _ => rfl

/-! ## The region -/

theorem Board.flashOffset_dvd (d : Board) : flashSectorSize ∣ d.flashOffset :=
  Nat.dvd_sub d.sizeSectors (by decide)

theorem Board.flashOffset_add (d : Board) : d.flashOffset + regionBytes = d.size :=
  Nat.sub_add_cancel d.sizeGe

/-- What holds of every state: the buffer is one sector, the contents are those the flash calls
    left, and every one of these calls keeps to the rules. -/
structure Kept (d : Board) (flash : Image) (s : State) : Prop where
  buf : s.buf.length = flashSectorSize
  flash : s.flash = replay d.toDriver flash s.log
  sound : SoundLog flashPageSize flashSectorSize d.flashOffset regionBytes s.log

theorem Kept.call (h : Kept d flash s) {op : Op}
    (hop : Sound flashPageSize flashSectorSize d.flashOffset regionBytes s.log op) :
    Kept d flash (s.call d op) where
  buf := h.buf
  flash := by
    rw [State.call, replay_append, ← h.flash]
    rfl
  sound := h.sound.append hop

/-- Since the last erase the header page has not been programmed. -/
def HeaderErased (d : Board) (log : List Op) : Prop :=
  ∃ before count since, log = before ++ .erase d.flashOffset count :: since ∧ Programs since ∧
    ∀ off data, .program off data ∈ since → off ≠ d.flashOffset

/-- An erased header is none. -/
theorem present_of_headerErased {log : List Op}
    (hsound : SoundLog flashPageSize flashSectorSize d.flashOffset regionBytes log)
    (h : HeaderErased d log) :
    present d (replay d.toDriver flash log) = false := by
  obtain ⟨before, count, since, rfl, hprog, hoff⟩ := h
  obtain ⟨-, hcount, hpos, -, -⟩ := hsound before (.erase d.flashOffset count) since rfl
  have hle := Nat.le_of_dvd hpos hcount
  have hbyte : ∀ i < 4, replay d.toDriver flash (before ++ .erase d.flashOffset count :: since)
      (d.flashOffset + i) = 0xff := by
    intro i hi
    refine hsound.erased (Nat.le_of_eq d.flashOffset_add) hprog (Nat.le_add_right _ _) ?_
      fun op hm hcov => ?_
    · simp only [flashSectorSize] at hle
      omega
    · obtain ⟨off, data, rfl⟩ := hprog op hm
      obtain ⟨l, l', rfl⟩ := List.append_of_mem hm
      obtain ⟨hpage, -, hlo, -, -⟩ :=
        hsound (before ++ .erase d.flashOffset count :: l) (.program off data) l' (by simp)
      -- The next page after the header is out of reach.
      have hbase : flashPageSize ∣ d.flashOffset := Nat.dvd_trans (by decide) d.flashOffset_dvd
      have hne := hoff off data hm
      have hgap := Nat.le_of_dvd (by omega) (Nat.dvd_sub hpage hbase)
      simp only [Op.Covers, flashPageSize] at hcov hgap
      omega
  have hfirst := hbyte 0 (by decide)
  rw [Nat.add_zero] at hfirst
  have hmagic : readU32 (replay d.toDriver flash (before ++ .erase d.flashOffset count :: since))
      d.flashOffset = 0xFFFFFFFF#32 :=
    readU32_of_bytes hfirst (hbyte 1 (by decide)) (hbyte 2 (by decide)) (hbyte 3 (by decide))
  rw [present, hmagic]
  rfl

/-! ## Whole sectors -/

/-- The flash calls for the first `k` sectors of a payload. -/
def sectors (d : Board) (payload : List Byte) (k : Nat) : List Op :=
  (List.range k).map fun i =>
    .program (d.flashOffset + flashPageSize + flashSectorSize * i)
      ((payload.drop (flashSectorSize * i)).take flashSectorSize)

theorem sectors_succ (d : Board) (payload : List Byte) (k : Nat) :
    sectors d payload (k + 1) = sectors d payload k ++
      [.program (d.flashOffset + flashPageSize + flashSectorSize * k)
        ((payload.drop (flashSectorSize * k)).take flashSectorSize)] := by
  rw [sectors, List.range_succ, List.map_append]
  rfl

/-- What follows the sectors does not change them. -/
theorem sectors_append (d : Board) (payload rest : List Byte) {k : Nat}
    (h : flashSectorSize * k ≤ payload.length) :
    sectors d (payload ++ rest) k = sectors d payload k := by
  apply List.map_congr_left
  intro i hi
  have hlt : flashSectorSize * i + flashSectorSize ≤ payload.length := by
    have := Nat.mul_le_mul_left flashSectorSize (Nat.succ_le_of_lt (List.mem_range.mp hi))
    rw [Nat.mul_succ] at this
    omega
  rw [List.drop_append_of_le_length (by omega), List.take_append_of_le_length]
  rw [List.length_drop]
  omega

theorem mem_sectors {payload : List Byte} {k : Nat} {op : Op} (h : op ∈ sectors d payload k) :
    ∃ off data, op = .program off data ∧ d.flashOffset + flashPageSize ≤ off ∧
      off + data.length ≤ d.flashOffset + flashPageSize + flashSectorSize * k := by
  obtain ⟨i, hi, rfl⟩ := List.mem_map.mp h
  refine ⟨_, _, rfl, Nat.le_add_right _ _, ?_⟩
  have hmul := Nat.mul_le_mul_left flashSectorSize (Nat.succ_le_of_lt (List.mem_range.mp hi))
  rw [Nat.mul_succ] at hmul
  have hlen : ((payload.drop (flashSectorSize * i)).take flashSectorSize).length ≤
      flashSectorSize := List.length_take_le _ _
  omega

/-- What `begin` erases for a payload. -/
abbrev eraseBytes (len : Nat) : Nat := roundUp flashSectorSize (flashPageSize + len)

/-- A program call right behind those since the erase. -/
theorem sound_behind {before since : List Op} {len off : Nat} {data : List Byte}
    (hlen : len ≤ maxBytes)
    (hpage : flashPageSize ∣ off) (hdata : flashPageSize ∣ data.length)
    (hlo : d.flashOffset + flashPageSize ≤ off)
    (hhi : off + data.length ≤ d.flashOffset + flashPageSize + roundUp flashPageSize len)
    (hsince : ∀ op ∈ since, ∃ off' data', op = .program off' data' ∧ off' + data'.length ≤ off) :
    Sound flashPageSize flashSectorSize d.flashOffset regionBytes
      (before ++ .erase d.flashOffset (eraseBytes len) :: since) (.program off data) := by
  simp only [roundUp, flashPageSize, flashSectorSize, maxBytes, regionBytes] at *
  refine ⟨hpage, hdata, by omega, by omega, before, _, since, rfl, by omega, fun op hm => ?_⟩
  obtain ⟨off', data', hop, hend⟩ := hsince op hm
  exact ⟨off', data', hop, .inl hend⟩

/-! ## A session -/

/-- A session for `len` bytes in which `received` has come so far, up to the check. -/
structure Staged (d : Board) (len : Nat) (received : List Byte) (s : State) : Prop where
  active : s.active = true
  expectedLen : s.expectedLen = len
  lenPos : 0 < len
  lenLe : len ≤ maxBytes
  le : received.length ≤ len
  used : s.bufUsed < flashSectorSize
  total : s.payloadOff + s.bufUsed = received.length
  staged : s.buf.take s.bufUsed = received.drop s.payloadOff
  log : ∃ before k, s.payloadOff = flashSectorSize * k ∧
    s.log = before ++ .erase d.flashOffset (eraseBytes len) :: sectors d received k

section Session

variable {len : Nat} {received : List Byte}

theorem Staged.headerErased (h : Staged d len received s) : HeaderErased d s.log := by
  obtain ⟨before, k, -, hlog⟩ := h.log
  refine ⟨before, _, _, hlog, fun op hm => ?_, fun off data hm => ?_⟩
  · obtain ⟨off, data, rfl, -⟩ := mem_sectors hm
    exact ⟨off, data, rfl⟩
  · obtain ⟨off', data', hop, hlo, -⟩ := mem_sectors hm
    cases hop
    simp only [flashPageSize] at hlo
    omega

/-- Whole pages can be programmed behind the sectors that are. -/
theorem Staged.sound_next (h : Staged d len received s) {data : List Byte}
    (hdata : flashPageSize ∣ data.length)
    (hhi : s.payloadOff + data.length ≤ roundUp flashPageSize len) :
    Sound flashPageSize flashSectorSize d.flashOffset regionBytes s.log
      (.program (d.flashOffset + flashPageSize + s.payloadOff) data) := by
  obtain ⟨before, k, hoff, hlog⟩ := h.log
  rw [hlog]
  refine sound_behind h.lenLe ?_ hdata (Nat.le_add_right _ _) (by omega) fun op hm => ?_
  · rw [hoff]
    exact Nat.dvd_add (Nat.dvd_add (Nat.dvd_trans (by decide) d.flashOffset_dvd) (Nat.dvd_refl _))
      (Nat.dvd_trans (by decide) (Nat.dvd_mul_right _ _))
  · obtain ⟨off', data', rfl, -, hend⟩ := mem_sectors hm
    exact ⟨off', data', rfl, by rw [hoff]; exact hend⟩

/-- Bytes that fit are copied behind the others. -/
theorem Staged.buf_memcpy (h : Staged d len received s) (hk : Kept d flash s) (bytes : List Byte)
    (hfit : s.bufUsed + bytes.length ≤ flashSectorSize) :
    (s.memcpy bytes).buf.length = flashSectorSize ∧
      (s.memcpy bytes).buf.take (s.bufUsed + bytes.length) =
        (received ++ bytes).drop s.payloadOff := by
  have hused := h.used
  have htotal := h.total
  have htake : (s.buf.take s.bufUsed).length = s.bufUsed := by
    rw [List.length_take, hk.buf]
    omega
  constructor
  · rw [State.memcpy, List.length_append, List.length_append, htake, List.length_drop, hk.buf]
    omega
  · rw [State.memcpy, List.take_left' (by rw [List.length_append, htake]), h.staged,
      List.drop_append_of_le_length (by omega)]

theorem Staged.memcpy (h : Staged d len received s) (hk : Kept d flash s) (bytes : List Byte)
    (hfit : s.bufUsed + bytes.length < flashSectorSize)
    (hle : received.length + bytes.length ≤ len) :
    Staged d len (received ++ bytes) (s.memcpy bytes) ∧ Kept d flash (s.memcpy bytes) := by
  have htotal := h.total
  obtain ⟨hbuf, hstaged⟩ := h.buf_memcpy hk bytes (Nat.le_of_lt hfit)
  obtain ⟨before, k, hoff, hlog⟩ := h.log
  refine ⟨⟨h.active, h.expectedLen, h.lenPos, h.lenLe, ?_, hfit, ?_, hstaged, before, k, hoff, ?_⟩,
    hbuf, hk.flash, hk.sound⟩
  · rw [List.length_append]
    exact hle
  · show s.payloadOff + (s.bufUsed + bytes.length) = _
    rw [List.length_append, ← htotal, Nat.add_assoc]
  · rw [sectors_append _ _ _ (by omega)]
    exact hlog

/-- A full buffer is the next sector of what has been received. -/
theorem Staged.flush (h : Staged d len received s) (hk : Kept d flash s) {bytes : List Byte}
    (hfull : s.bufUsed + bytes.length = flashSectorSize)
    (hle : received.length + bytes.length ≤ len) :
    Staged d len (received ++ bytes) (flush d (s.memcpy bytes)) ∧
      Kept d flash (BitstreamFlash.flush d (s.memcpy bytes)) := by
  have hlen := h.lenLe
  have htotal := h.total
  obtain ⟨hbuf, hstaged⟩ := h.buf_memcpy hk bytes (Nat.le_of_eq hfull)
  obtain ⟨before, k, hoff, hlog⟩ := h.log
  have hnew : (received ++ bytes).length = received.length + bytes.length := List.length_append
  have hkeep : sectors d (received ++ bytes) k = sectors d received k :=
    sectors_append _ _ _ (by omega)
  rw [hfull, List.take_of_length_le (Nat.le_of_eq hbuf)] at hstaged
  have hsector : (s.memcpy bytes).buf =
      ((received ++ bytes).drop (flashSectorSize * k)).take flashSectorSize := by
    rw [← hoff, ← hstaged, List.take_of_length_le (Nat.le_of_eq hbuf)]
  have hsound : Sound flashPageSize flashSectorSize d.flashOffset regionBytes s.log
      (.program (d.flashOffset + flashPageSize + s.payloadOff) (s.memcpy bytes).buf) := by
    refine h.sound_next (by rw [hbuf]; decide) ?_
    rw [hbuf]
    simp only [roundUp, flashPageSize, flashSectorSize] at hfull ⊢
    omega
  have hkept : Kept d flash (s.memcpy bytes) := ⟨hbuf, hk.flash, hk.sound⟩
  have hcall := hkept.call hsound
  refine ⟨⟨h.active, h.expectedLen, h.lenPos, h.lenLe, ?_, ?_, ?_, ?_, before, k + 1, ?_, ?_⟩,
    hcall.buf, hcall.flash, hcall.sound⟩
  · omega
  · show 0 < flashSectorSize
    decide
  · show s.payloadOff + flashSectorSize + 0 = _
    omega
  · show List.take 0 _ = List.drop (s.payloadOff + flashSectorSize) _
    rw [List.take_zero, List.drop_eq_nil_of_le (by omega)]
  · show s.payloadOff + flashSectorSize = _
    rw [Nat.mul_succ, hoff]
  · show s.log ++ [.program (d.flashOffset + flashPageSize + s.payloadOff) (s.memcpy bytes).buf] = _
    rw [hlog, sectors_succ, hkeep, ← hsector, hoff, List.append_assoc, List.cons_append]

/-- One pass of the loop takes at least one byte. -/
theorem Staged.appendPass (h : Staged d len received s) (hk : Kept d flash s) {data : List Byte}
    (hdata : data ≠ []) (hle : received.length + data.length ≤ len) :
    ∃ n s', 0 < n ∧ n ≤ data.length ∧ appendPass d s data = (s', data.drop n) ∧
      Staged d len (received ++ data.take n) s' ∧ Kept d flash s' ∧ s'.crc = s.crc := by
  have hpos : 0 < data.length := List.length_pos_iff.mpr hdata
  have hused := h.used
  obtain ⟨n, hn⟩ : ∃ n, n = min (flashSectorSize - s.bufUsed) data.length := ⟨_, rfl⟩
  have hlen : (data.take n).length = n := by
    rw [List.length_take]
    omega
  by_cases hfull : s.bufUsed + (data.take n).length = flashSectorSize
  · obtain ⟨hstaged, hkept⟩ := h.flush hk hfull (by omega)
    refine ⟨n, _, by omega, by omega, ?_, hstaged, hkept, rfl⟩
    simp only [BitstreamFlash.appendPass, ← hn]
    rw [if_pos (show (s.memcpy (data.take n)).bufUsed = flashSectorSize from hfull)]
  · obtain ⟨hstaged, hkept⟩ := h.memcpy hk (data.take n) (by omega) (by omega)
    refine ⟨n, _, by omega, by omega, ?_, hstaged, hkept, rfl⟩
    simp only [BitstreamFlash.appendPass, ← hn]
    rw [if_neg (show ¬(s.memcpy (data.take n)).bufUsed = flashSectorSize from hfull)]

/-- The loop takes all bytes, and one pass per byte is enough for it. -/
theorem Staged.appendLoop (h : Staged d len received s) (hk : Kept d flash s)
    {data : List Byte} {fuel : Nat}
    (hfuel : data.length ≤ fuel) (hle : received.length + data.length ≤ len) :
    ∃ s', appendLoop d fuel s data = some s' ∧ Staged d len (received ++ data) s' ∧
      Kept d flash s' ∧ s'.crc = s.crc := by
  induction fuel generalizing s received data with
  | zero =>
    have hnil : data = [] := List.length_eq_zero_iff.mp (by omega)
    subst hnil
    exact ⟨s, rfl, by rw [List.append_nil]; exact h, hk, rfl⟩
  | succ fuel ih =>
    cases data with
    | nil => exact ⟨s, rfl, by rw [List.append_nil]; exact h, hk, rfl⟩
    | cons byte data =>
      obtain ⟨n, s₁, hpos, hn, hpass, hstaged, hkept, hcrc⟩ :=
        h.appendPass hk (List.cons_ne_nil byte data) hle
      have hdrop : ((byte :: data).drop n).length = (byte :: data).length - n := List.length_drop
      have htake : ((byte :: data).take n).length = n := by rw [List.length_take]; omega
      obtain ⟨s', hloop, hstaged', hkept', hcrc'⟩ :=
        ih hstaged hkept (show ((byte :: data).drop n).length ≤ fuel by omega)
          (by rw [List.length_append]; omega)
      refine ⟨s', ?_, ?_, hkept', hcrc'.trans hcrc⟩
      · rw [BitstreamFlash.appendLoop, hpass]
        exact hloop
      · rwa [List.append_assoc, List.take_append_drop] at hstaged'

/-- The flash calls since the erase once everything received is programmed. -/
structure Programmed (d : Board) (len : Nat) (received : List Byte) (since : List Op)
    (s : State) : Prop where
  log : ∃ before, s.log = before ++ .erase d.flashOffset (eraseBytes len) :: since
  behind : ∀ op ∈ since, ∃ off data, op = .program off data ∧ d.flashOffset + flashPageSize ≤ off
  stored : ∀ i < received.length, ∃ off data,
    .program off data ∈ since ∧ off ≤ d.flashOffset + flashPageSize + i ∧
    d.flashOffset + flashPageSize + i < off + data.length ∧
    data.getD (d.flashOffset + flashPageSize + i - off) 0xff = received.getD i 0xff

/-- The sectors hold their part of what was received. -/
theorem sectors_stored (d : Board) (payload : List Byte) {k i : Nat}
    (hk : flashSectorSize * k ≤ payload.length) (hi : i < flashSectorSize * k) :
    ∃ off data, .program off data ∈ sectors d payload k ∧ off ≤ d.flashOffset + flashPageSize + i ∧
      d.flashOffset + flashPageSize + i < off + data.length ∧
      data.getD (d.flashOffset + flashPageSize + i - off) 0xff = payload.getD i 0xff := by
  have hq : i / flashSectorSize < k := Nat.div_lt_of_lt_mul hi
  have hmul := Nat.mul_le_mul_left flashSectorSize (Nat.succ_le_of_lt hq)
  rw [Nat.mul_succ] at hmul
  have hdiv := Nat.div_add_mod i flashSectorSize
  have hmod := Nat.mod_lt i (show 0 < flashSectorSize by decide)
  have hlen :
      ((payload.drop (flashSectorSize * (i / flashSectorSize))).take flashSectorSize).length =
        flashSectorSize := by
    rw [List.length_take, List.length_drop]
    omega
  refine ⟨_, _, List.mem_map.mpr ⟨i / flashSectorSize, List.mem_range.mpr hq, rfl⟩,
    by omega, by omega, ?_⟩
  have hpos : d.flashOffset + flashPageSize + i -
      (d.flashOffset + flashPageSize + flashSectorSize * (i / flashSectorSize)) =
        i % flashSectorSize := by omega
  rw [hpos, List.getD_eq_getElem?_getD, List.getD_eq_getElem?_getD, List.getElem?_take, if_pos hmod,
    List.getElem?_drop, hdiv]

/-- `end` programs the rest, padded to whole pages. -/
theorem Staged.flushTail (h : Staged d len received s) (hk : Kept d flash s) :
    ∃ since, Programmed d len received since (flushTail d s) ∧
      Kept d flash (BitstreamFlash.flushTail d s) ∧
      (BitstreamFlash.flushTail d s).payloadOff = received.length ∧
      (BitstreamFlash.flushTail d s).crc = s.crc ∧
      (BitstreamFlash.flushTail d s).expectedLen = len := by
  have hused := h.used
  have htotal := h.total
  have hle := h.le
  obtain ⟨before, k, hoff, hlog⟩ := h.log
  have hbehind : ∀ op ∈ sectors d received k, ∃ off data,
      op = .program off data ∧ d.flashOffset + flashPageSize ≤ off := by
    intro op hm
    obtain ⟨off, data, rfl, hlo, -⟩ := mem_sectors hm
    exact ⟨off, data, rfl, hlo⟩
  by_cases hrest : 0 < s.bufUsed
  · -- what is left in the buffer is padded to a page and programmed behind the sectors
    obtain ⟨padded, hpadded⟩ : ∃ padded, padded = roundUp flashPageSize s.bufUsed := ⟨_, rfl⟩
    have hpad : s.bufUsed ≤ padded ∧ padded ≤ flashSectorSize ∧
        s.payloadOff + padded ≤ roundUp flashPageSize len := by
      simp only [hpadded, hoff, roundUp, flashPageSize, flashSectorSize] at hused htotal ⊢
      omega
    have hfill :
        s.bufUsed + (List.replicate (padded - s.bufUsed) (0xff : Byte)).length = padded := by
      rw [List.length_replicate]
      omega
    obtain ⟨hbuf, htail⟩ := h.buf_memcpy hk (List.replicate (padded - s.bufUsed) 0xff) (by omega)
    obtain ⟨buf, hdef⟩ : ∃ buf, buf = (s.memcpy (List.replicate (padded - s.bufUsed) 0xff)).buf :=
      ⟨_, rfl⟩
    rw [hfill, ← hdef, List.drop_append_of_le_length (by omega)] at htail
    rw [← hdef] at hbuf
    have hlenTail : (buf.take padded).length = padded := by
      rw [List.length_take]
      omega
    have hsound : Sound flashPageSize flashSectorSize d.flashOffset regionBytes s.log
        (.program (d.flashOffset + flashPageSize + s.payloadOff) (buf.take padded)) := by
      refine h.sound_next ?_ (by omega)
      rw [hlenTail, hpadded]
      exact Nat.dvd_mul_left _ _
    have heq : BitstreamFlash.flushTail d s =
        { ({ s with buf := buf }).call d
            (.program (d.flashOffset + flashPageSize + s.payloadOff) (buf.take padded)) with
          payloadOff := s.payloadOff + s.bufUsed, bufUsed := 0 } := by
      rw [hdef, State.memcpy, hfill, BitstreamFlash.flushTail, if_pos hrest, ← hpadded]
    have hkept : Kept d flash { s with buf := buf } := ⟨hbuf, hk.flash, hk.sound⟩
    have hcall := hkept.call hsound
    rw [heq]
    refine ⟨sectors d received k ++
      [.program (d.flashOffset + flashPageSize + s.payloadOff) (buf.take padded)],
      ⟨⟨before, ?_⟩, fun op hm => ?_, fun i hi => ?_⟩, ⟨hcall.buf, hcall.flash, hcall.sound⟩,
      htotal, rfl, h.expectedLen⟩
    · show s.log ++ _ = _
      rw [hlog, List.append_assoc, List.cons_append]
    · rcases List.mem_append.mp hm with hm | hm
      · exact hbehind op hm
      · exact ⟨_, _, List.mem_singleton.mp hm, Nat.le_add_right _ _⟩
    · -- byte `i` is of a sector programmed before, or of the tail
      by_cases hsec : i < s.payloadOff
      · rw [hoff] at hsec
        obtain ⟨off, data, hm, hrest⟩ := sectors_stored d received (by omega) hsec
        exact ⟨off, data, List.mem_append_left _ hm, hrest⟩
      · refine ⟨_, _, List.mem_append_right _ (List.mem_singleton.mpr rfl), by omega, by omega, ?_⟩
        rw [show d.flashOffset + flashPageSize + i -
          (d.flashOffset + flashPageSize + s.payloadOff) = i - s.payloadOff by omega,
          htail, List.getD_append _ _ _ _ (by rw [List.length_drop]; omega),
          List.getD_eq_getElem?_getD, List.getD_eq_getElem?_getD, List.getElem?_drop,
          Nat.add_sub_cancel' (by omega)]
  · have heq : BitstreamFlash.flushTail d s = s := by rw [BitstreamFlash.flushTail, if_neg hrest]
    rw [heq]
    refine ⟨sectors d received k, ⟨⟨before, hlog⟩, hbehind, fun i hi => ?_⟩, hk, by omega,
      rfl, h.expectedLen⟩
    exact sectors_stored d received (by omega) (by omega)

/-- A session, with the check of what was received. -/
structure Session (d : Board) (len : Nat) (received : List Byte) (s : State) :
    Prop extends Staged d len received s where
  crc : s.crc = crc32Update crc32Init received

/-- A bitstream is stored: the header is valid and the payload is behind it. -/
structure Stored (d : Board) (payload : List Byte) (image : Image) : Prop where
  present : present d image = true
  length : length d image = payload.length
  crc : readU32 image (d.flashOffset + 8) = crc32IsoHdlc payload
  bytes : ∀ i (hi : i < payload.length), image (data d + i) = payload.get ⟨i, hi⟩

theorem flashBegin_ok (hk : Kept d flash s) (hpos : 0 < len) (hle : len ≤ maxBytes) :
    ∃ s', flashBegin d len s = (true, s') ∧ Session d len [] s' ∧ Kept d flash s' := by
  have hsound : Sound flashPageSize flashSectorSize d.flashOffset regionBytes s.log
      (.erase d.flashOffset (eraseBytes len)) := by
    refine ⟨d.flashOffset_dvd, Nat.dvd_mul_left _ _, ?_, rfl, ?_⟩
    · simp only [roundUp, flashPageSize, flashSectorSize]
      omega
    · simp only [roundUp, flashPageSize, flashSectorSize, maxBytes, regionBytes] at hle ⊢
      omega
  have hcall := hk.call hsound
  refine ⟨_, if_neg (by omega),
    ⟨⟨rfl, rfl, hpos, hle, Nat.zero_le _, ?_, rfl, rfl, s.log, 0, rfl, rfl⟩, rfl⟩,
    hcall.buf, hcall.flash, hcall.sound⟩
  show 0 < flashSectorSize
  decide

theorem Session.flashAppend (h : Session d len received s) (hk : Kept d flash s) (data : List Byte)
    (hle : received.length + data.length ≤ len) :
    ∃ s', flashAppend d data s = some (true, s') ∧ Session d len (received ++ data) s' ∧
      Kept d flash s' := by
  have hstaged : Staged d len received { s with crc := crc32Update s.crc data } :=
    ⟨h.active, h.expectedLen, h.lenPos, h.lenLe, h.le, h.used, h.total, h.staged, h.log⟩
  obtain ⟨s', hloop, hstaged', hkept, hcrc⟩ :=
    hstaged.appendLoop ⟨hk.buf, hk.flash, hk.sound⟩ (Nat.le_refl data.length) hle
  refine ⟨s', ?_, ⟨hstaged', ?_⟩, hkept⟩
  · have hlen := h.lenLe
    simp only [maxBytes, regionBytes] at hlen
    have hfits : ¬s.expectedLen < (s.payloadOff + s.bufUsed + data.length) % 2 ^ 32 := by
      rw [h.total, h.expectedLen, Nat.mod_eq_of_lt (by omega)]
      omega
    rw [BitstreamFlash.flashAppend, if_neg (by simp [h.active]), if_neg hfits, hloop]
    rfl
  · rw [hcrc, crc32Update_append, ← h.crc]

/-- More bytes than `begin` was told. No object of a C program has more than `2 ^ 31` bytes. -/
theorem Session.flashAppend_overflow (h : Session d len received s) {data : List Byte}
    (hlt : len < received.length + data.length)
    (hobj : data.length < 2 ^ 31) :
    BitstreamFlash.flashAppend d data s = some (false, { s with active := false }) := by
  have hlen := h.lenLe
  have hle := h.le
  simp only [maxBytes, regionBytes] at hlen
  have hover : s.expectedLen < (s.payloadOff + s.bufUsed + data.length) % 2 ^ 32 := by
    rw [h.total, h.expectedLen, Nat.mod_eq_of_lt (by omega)]
    exact hlt
  rw [BitstreamFlash.flashAppend, if_neg (by simp [h.active]), if_pos hover]

/-- Fewer bytes than `begin` was told. -/
theorem Session.flashEnd_short (h : Session d len received s) (hk : Kept d flash s)
    (hne : received.length ≠ len) :
    ∃ s', flashEnd d s = (2, s') ∧ s'.active = false ∧ Kept d flash s' ∧ HeaderErased d s'.log := by
  obtain ⟨since, hprog, hkept, hoff, -, hexp⟩ := h.toStaged.flushTail hk
  obtain ⟨before, hlog⟩ := hprog.log
  refine ⟨{ flushTail d s with active := false }, ?_, rfl, ⟨hkept.buf, hkept.flash, hkept.sound⟩,
    before, _, since, hlog, fun op hm => ?_, fun off data hm => ?_⟩
  · simp only [flashEnd, h.active, hoff, hexp]
    rw [if_neg (by decide), if_pos hne]
  · obtain ⟨off, data, rfl, -⟩ := hprog.behind op hm
    exact ⟨off, data, rfl⟩
  · obtain ⟨off', data', hop, hlo⟩ := hprog.behind _ hm
    cases hop
    simp only [flashPageSize] at hlo
    omega

/-- The header is programmed last. With it the bitstream is there. -/
theorem Programmed.header {since : List Op} (h : Programmed d received.length received since s)
    (hk : Kept d flash s) (hpos : 0 < received.length) (hle : received.length ≤ maxBytes) :
    Kept d flash
      (s.call d (.program d.flashOffset (headerPage received.length (crc32IsoHdlc received)))) ∧
      Stored d received
        (s.call d
          (.program d.flashOffset (headerPage received.length (crc32IsoHdlc received)))).flash := by
  obtain ⟨before, hlog⟩ := h.log
  obtain ⟨page, hpage⟩ : ∃ page, page = headerPage received.length (crc32IsoHdlc received) :=
    ⟨_, rfl⟩
  have hlen : page.length = flashPageSize := by rw [hpage, length_headerPage]
  have hsound : Sound flashPageSize flashSectorSize d.flashOffset regionBytes s.log
      (.program d.flashOffset page) := by
    rw [hlog]
    refine ⟨Nat.dvd_trans (by decide) d.flashOffset_dvd, hlen.symm ▸ Nat.dvd_refl _, Nat.le_refl _,
      ?_, before, _, since, rfl, ?_, fun op hm => ?_⟩
    · rw [hlen]
      exact Nat.add_le_add_left (by decide) _
    · rw [hlen]
      simp only [roundUp, flashPageSize, flashSectorSize]
      omega
    · obtain ⟨off, data, rfl, hlo⟩ := h.behind op hm
      exact ⟨off, data, rfl, .inr (by rw [hlen]; exact hlo)⟩
  have hcall := hk.call hsound
  rw [← hpage]
  have hprograms : Programs (since ++ [.program d.flashOffset page]) := by
    intro op hm
    rcases List.mem_append.mp hm with hm | hm
    · obtain ⟨off, data, rfl, -⟩ := h.behind op hm
      exact ⟨off, data, rfl⟩
    · exact ⟨_, _, List.mem_singleton.mp hm⟩
  have hlog' : (s.call d (.program d.flashOffset page)).log =
      before ++ .erase d.flashOffset (eraseBytes received.length) ::
        (since ++ [.program d.flashOffset page]) := by
    rw [State.call, hlog, List.append_assoc, List.cons_append]
  -- what was programmed since the erase is read back, the header too
  have hread : ∀ {off data a}, .program off data ∈ since ++ [.program d.flashOffset page] →
      off ≤ a → a < off + data.length →
      (s.call d (.program d.flashOffset page)).flash a = data.getD (a - off) 0xff := by
    intro off data a hm hlo hhi
    rw [hcall.flash, hlog']
    exact (hlog' ▸ hcall.sound).programmed (Nat.le_of_eq d.flashOffset_add) hprograms hm hlo hhi
  have hbytes : ∀ i < 16, (s.call d (.program d.flashOffset page)).flash (d.flashOffset + i) =
      (headerPage received.length (crc32IsoHdlc received)).getD i 0xff := by
    intro i hi
    rw [hread (List.mem_append_right _ (List.mem_singleton.mpr rfl)) (Nat.le_add_right _ _)
      (by rw [hlen]; simp only [flashPageSize]; omega), Nat.add_sub_cancel_left, hpage]
  have hword : received.length < 2 ^ 32 := by
    simp only [maxBytes, regionBytes] at hle
    omega
  obtain ⟨hmagic, hlength, hcheck⟩ := header_read hword hbytes
  refine ⟨hcall, ?_, hlength, hcheck, fun i hi => ?_⟩
  · simp [present, hmagic, hlength, show ¬maxBytes < received.length by omega,
      show received.length ≠ 0 by omega]
  · obtain ⟨off, data, hm, hlo, hhi, hbyte⟩ := h.stored i hi
    rw [BitstreamFlash.data, hread (List.mem_append_left _ hm) hlo hhi, hbyte,
      List.getD_eq_getElem _ _ hi]
    rfl

/-- The whole payload has come. -/
theorem Session.flashEnd (h : Session d len received s) (hk : Kept d flash s)
    (heq : received.length = len) :
    ∃ s', flashEnd d s = (0, s') ∧ s'.active = false ∧ Kept d flash s' ∧
      Stored d received s'.flash := by
  subst heq
  obtain ⟨since, hprog, hkept, hoff, hcrc, hexp⟩ := h.toStaged.flushTail hk
  obtain ⟨hcall, hstored⟩ := hprog.header hkept h.lenPos h.lenLe
  refine ⟨{ (BitstreamFlash.flushTail d s).call d
      (.program d.flashOffset (headerPage received.length (crc32IsoHdlc received))) with
    active := false }, ?_, rfl, ⟨hcall.buf, hcall.flash, hcall.sound⟩, hstored⟩
  have hcheck : crc32Finalize (BitstreamFlash.flushTail d s).crc = crc32IsoHdlc received := by
    rw [hcrc, h.crc, crc32_eq]
  simp only [BitstreamFlash.flashEnd, h.active, hoff, hexp, hcheck]
  rw [if_neg (by decide), if_neg (by simp), if_neg]
  simp only [State.call, hexp] at hstored ⊢
  simp [hstored.present, hstored.length]

end Session

end BitstreamFlash
