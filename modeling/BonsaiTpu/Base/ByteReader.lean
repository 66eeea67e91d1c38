-- SUMMARY: Programs that read a byte stream by exact amounts, and their runs over sockets that deliver the stream in pieces.
import BonsaiTpu.Base.Words

/-!
# Byte readers

A reader asks for exact numbers of bytes, one read after the other. A socket
delivers a stream in chunks of any size; `readExact` collects them. The result of a
reader depends on the bytes of the stream only, not on the chunks.
-/

open Words (Byte)

/-- A program that reads bytes and ends with a result or an exception. -/
inductive ByteReader (ε α : Type) where
  | done (a : α)
  | fail (e : ε)
  | read (n : Nat) (k : List Byte → ByteReader ε α)

namespace ByteReader

variable {ε α β : Type}

def bind (r : ByteReader ε α) (f : α → ByteReader ε β) : ByteReader ε β :=
  match r with
  | done a => f a
  | fail e => fail e
  | read n k => read n fun bytes => (k bytes).bind f

instance : Monad (ByteReader ε) where
  pure := done
  bind := bind

/-- Read `n` bytes. -/
def exact (n : Nat) : ByteReader ε (List Byte) := read n done

/-! ## Streams -/

/-- Run a reader on a whole stream. `onEof` is the exception of a read that the stream does
    not cover, given whether it got no byte at all. -/
def runBytes (onEof : Bool → ε) : ByteReader ε α → List Byte → Except ε α × List Byte
  | done a, rest => (.ok a, rest)
  | fail e, rest => (.error e, rest)
  | read n k, rest =>
    if n ≤ rest.length then (k (rest.take n)).runBytes onEof (rest.drop n)
    else (.error (onEof rest.isEmpty), [])

/-! ## Sockets -/

/-- A socket: the bytes that are still to come before the end of the stream, and a source of
    chunk sizes. -/
structure Sock where
  rest : List Byte
  pick : Nat → Nat

/-- `recv`: a nonempty chunk of at most `n` bytes, of any size, or nothing at the end. -/
def Sock.recv (s : Sock) (n : Nat) : List Byte × Sock :=
  let most := min n s.rest.length
  let size := if most = 0 then 0 else s.pick 0 % most + 1
  (s.rest.take size, ⟨s.rest.drop size, fun i => s.pick (i + 1)⟩)

theorem Sock.recv_spec (s : Sock) {n : Nat} (hn : 0 < n) :
    s.rest = (s.recv n).1 ++ (s.recv n).2.rest ∧ (s.recv n).1.length ≤ n ∧
      ((s.recv n).1 = [] ↔ s.rest = []) := by
  have hsize : (if min n s.rest.length = 0 then 0 else s.pick 0 % min n s.rest.length + 1) ≤
      min n s.rest.length := by
    split
    · exact Nat.zero_le _
    · exact Nat.mod_lt _ (by omega)
  refine ⟨(List.take_append_drop _ _).symm, ?_, ?_⟩
  · rw [recv, List.length_take]
    omega
  · rw [recv, List.take_eq_nil_iff]
    constructor
    · rintro (hzero | hnil)
      · split at hzero
        · next hmost => exact List.length_eq_zero_iff.mp (by omega)
        · cases hzero
      · exact hnil
    · exact .inr

/-- Collect exactly `nbytes` bytes from chunks. -/
def readExact (onEof : Bool → ε) (nbytes : Nat) (sock : Sock) (chunks : List Byte) :
    Except ε (List Byte) × Sock :=
  if _hmore : chunks.length < nbytes then
    if _hchunk : (sock.recv (nbytes - chunks.length)).1 = [] then
      (.error (onEof chunks.isEmpty), (sock.recv (nbytes - chunks.length)).2)
    else
      readExact onEof nbytes (sock.recv (nbytes - chunks.length)).2
        (chunks ++ (sock.recv (nbytes - chunks.length)).1)
  else (.ok chunks, sock)
termination_by nbytes - chunks.length
decreasing_by
  have hpos := List.length_pos_iff.mpr _hchunk
  rw [List.length_append]
  omega

/-- What `readExact` returns depends on the stream only. -/
theorem readExact_eq (onEof : Bool → ε) {nbytes : Nat} (sock : Sock) (chunks : List Byte)
    (hle : chunks.length ≤ nbytes) :
    ∃ pick, readExact onEof nbytes sock chunks =
      if nbytes - chunks.length ≤ sock.rest.length then
        (.ok (chunks ++ sock.rest.take (nbytes - chunks.length)),
          ⟨sock.rest.drop (nbytes - chunks.length), pick⟩)
      else (.error (onEof (chunks ++ sock.rest).isEmpty), ⟨[], pick⟩) := by
  fun_induction readExact onEof nbytes sock chunks with
  | case1 sock chunks hmore hchunk =>
    obtain ⟨hrest, -, hnil⟩ := sock.recv_spec (n := nbytes - chunks.length) (by omega)
    generalize sock.recv (nbytes - chunks.length) = received at *
    have hempty : sock.rest = [] := hnil.mp hchunk
    have hsock : received.2.rest = [] := by
      rw [hempty] at hrest
      exact (List.append_eq_nil_iff.mp hrest.symm).2
    refine ⟨received.2.pick, ?_⟩
    rw [if_neg (by rw [hempty]; simp only [List.length_nil]; omega), hempty,
      List.append_nil, ← hsock]
  | case2 sock chunks hmore hchunk ih =>
    obtain ⟨hrest, hlen, -⟩ := sock.recv_spec (n := nbytes - chunks.length) (by omega)
    generalize sock.recv (nbytes - chunks.length) = received at *
    have hle' : (chunks ++ received.1).length ≤ nbytes := by
      rw [List.length_append]
      omega
    obtain ⟨pick, ih⟩ := ih hle'
    have hsub : nbytes - (chunks ++ received.1).length =
        nbytes - chunks.length - received.1.length := by
      rw [List.length_append]
      omega
    have hiff : nbytes - chunks.length - received.1.length ≤ received.2.rest.length ↔
        nbytes - chunks.length ≤ (received.1 ++ received.2.rest).length := by
      rw [List.length_append]
      omega
    refine ⟨pick, ?_⟩
    rw [ih, hrest, hsub, List.take_append, List.drop_append, List.take_of_length_le hlen,
      List.drop_of_length_le hlen, List.append_assoc, List.append_assoc, List.nil_append]
    by_cases hcover : nbytes - chunks.length - received.1.length ≤ received.2.rest.length
    · rw [if_pos hcover, if_pos (hiff.mp hcover)]
    · rw [if_neg hcover, if_neg (mt hiff.mpr hcover)]
  | case3 sock chunks hmore =>
    have hzero : nbytes - chunks.length = 0 := by omega
    exact ⟨sock.pick, by simp [hzero]⟩

/-- Run a reader on a socket. -/
def run (onEof : Bool → ε) : ByteReader ε α → Sock → Except ε α × Sock
  | done a, sock => (.ok a, sock)
  | fail e, sock => (.error e, sock)
  | read n k, sock =>
    match readExact onEof n sock [] with
    | (.ok bytes, sock') => (k bytes).run onEof sock'
    | (.error e, sock') => (.error e, sock')

/-- The chunks do not matter. -/
theorem run_eq (onEof : Bool → ε) (r : ByteReader ε α) (sock : Sock) :
    ((r.run onEof sock).1, (r.run onEof sock).2.rest) = r.runBytes onEof sock.rest := by
  induction r generalizing sock with
  | done a => rfl
  | fail e => rfl
  | read n k ih =>
    obtain ⟨pick, hread⟩ := readExact_eq onEof sock [] (Nat.zero_le n)
    simp only [List.length_nil, Nat.sub_zero, List.nil_append] at hread
    rw [run, runBytes, hread]
    by_cases hcover : n ≤ sock.rest.length
    · rw [if_pos hcover, if_pos hcover]
      exact ih _ _
    · rw [if_neg hcover, if_neg hcover]

/-! ## Runs of composed readers -/

section

variable (onEof : Bool → ε)

@[simp] theorem runBytes_pure (a : α) (rest : List Byte) :
    runBytes onEof (pure a) rest = (.ok a, rest) := rfl

@[simp] theorem runBytes_fail (e : ε) (rest : List Byte) :
    runBytes (α := α) onEof (fail e) rest = (.error e, rest) := rfl

theorem runBytes_bind (r : ByteReader ε α) (f : α → ByteReader ε β) (rest : List Byte) :
    runBytes onEof (r >>= f) rest =
      match runBytes onEof r rest with
      | (.ok a, rest') => runBytes onEof (f a) rest'
      | (.error e, rest') => (.error e, rest') := by
  induction r generalizing rest with
  | done a => rfl
  | fail e => rfl
  | read n k ih =>
    show runBytes onEof (read n fun bytes => k bytes >>= f) rest = _
    rw [runBytes, runBytes]
    split
    · exact ih _ _
    · rfl

/-- Reading what is there. -/
theorem runBytes_exact_append (bytes rest : List Byte) :
    runBytes onEof (exact bytes.length) (bytes ++ rest) = (.ok bytes, rest) := by
  rw [exact, runBytes, if_pos (by simp), List.take_left, List.drop_left]
  rfl

theorem runBytes_exact (n : Nat) (rest : List Byte) :
    runBytes onEof (exact n) rest =
      if n ≤ rest.length then (.ok (rest.take n), rest.drop n)
      else (.error (onEof rest.isEmpty), []) := rfl

end

/-! ## Partial runs -/

/-- Bytes that can be at hand for the next read of a reader. -/
def Fits : ByteReader ε α → List Byte → Prop
  | read n _, got => got.length ≤ n
  | _, got => got = []

theorem fits_nil (r : ByteReader ε α) : r.Fits [] := by
  cases r with
  | read n k => exact Nat.zero_le n
  | _ => rfl

/-- With `got` at hand, `r` is what is left of `r₀` after the bytes `used`. -/
structure Fed (onEof : Bool → ε) (r₀ : ByteReader ε α) (used : List Byte) (r : ByteReader ε α)
    (got : List Byte) : Prop where
  run : ∀ rest, r₀.runBytes onEof (used ++ rest) = r.runBytes onEof (got ++ rest)
  fits : r.Fits got

namespace Fed

variable {onEof : Bool → ε} {r₀ : ByteReader ε α} {used got : List Byte} {n : Nat}
    {k : List Byte → ByteReader ε α}

theorem start (onEof : Bool → ε) (r₀ : ByteReader ε α) : Fed onEof r₀ [] r₀ [] :=
  ⟨fun _ => rfl, fits_nil r₀⟩

/-- A chunk arrives. -/
theorem recv (h : Fed onEof r₀ used (read n k) got) {chunk : List Byte}
    (hle : (got ++ chunk).length ≤ n) :
    Fed onEof r₀ (used ++ chunk) (read n k) (got ++ chunk) where
  run rest := by
    rw [List.append_assoc, List.append_assoc]
    exact h.run (chunk ++ rest)
  fits := hle

/-- The read has all its bytes. -/
theorem collect (h : Fed onEof r₀ used (read n k) got) (hn : got.length = n) :
    Fed onEof r₀ used (k got) [] where
  run rest := by
    subst hn
    rw [h.run rest, runBytes, if_pos (by simp), List.take_left, List.drop_left, List.nil_append]
  fits := fits_nil _

/-- A reader that is done has used just the bytes in front. -/
theorem done {a : α} (h : Fed onEof r₀ used (.done a) got) (rest : List Byte) :
    r₀.runBytes onEof (used ++ rest) = (.ok a, rest) := by
  have hgot : got = [] := h.fits
  rw [h.run rest, hgot]
  rfl

end Fed

end ByteReader
