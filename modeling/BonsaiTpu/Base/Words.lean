-- SUMMARY: Little-endian words in byte buffers: stores at a cursor, reads of halves and quarters, and counting loops over a buffer.
import Mathlib.Data.BitVec
import Mathlib.Data.List.GetD
import Mathlib.Tactic.Common

/-!
# Words in byte buffers

A buffer is a list of bytes. Programs fill it with 64-bit words from the front, one
store after the other, and read 16-bit and 32-bit parts back at byte offsets.
-/

namespace Words

abbrev Byte := BitVec 8

/-- The bytes of a word, the low byte first. -/
def leBytes (word : BitVec 64) : List Byte :=
  [word.extractLsb' 0 8, word.extractLsb' 8 8, word.extractLsb' 16 8, word.extractLsb' 24 8,
    word.extractLsb' 32 8, word.extractLsb' 40 8, word.extractLsb' 48 8, word.extractLsb' 56 8]

theorem getElem?_leBytes (word : BitVec 64) {i : Nat} (hi : i < 8) :
    (leBytes word)[i]? = some (word.extractLsb' (8 * i) 8) := by
  have hcases : i = 0 ∨ i = 1 ∨ i = 2 ∨ i = 3 ∨ i = 4 ∨ i = 5 ∨ i = 6 ∨ i = 7 := by omega
  rcases hcases with rfl | rfl | rfl | rfl | rfl | rfl | rfl | rfl <;> rfl

/-- The first `n` words of a stream, as bytes. -/
def bytesOf (word : Nat → BitVec 64) (n : Nat) : List Byte :=
  (List.range n).flatMap fun i => leBytes (word i)

theorem bytesOf_succ (word : Nat → BitVec 64) (n : Nat) :
    bytesOf word (n + 1) = bytesOf word n ++ leBytes (word n) := by
  rw [bytesOf, List.range_succ, List.flatMap_append, List.flatMap_singleton]
  rfl

@[simp] theorem length_bytesOf (word : Nat → BitVec 64) (n : Nat) :
    (bytesOf word n).length = 8 * n := by
  induction n with
  | zero => rfl
  | succ n ih =>
    rw [bytesOf_succ, List.length_append, ih]
    rfl

theorem getElem?_bytesOf (word : Nat → BitVec 64) {n i : Nat} (hi : i < 8 * n) :
    (bytesOf word n)[i]? = some ((word (i / 8)).extractLsb' (8 * (i % 8)) 8) := by
  induction n with
  | zero => omega
  | succ n ih =>
    rw [bytesOf_succ]
    by_cases hlt : i < 8 * n
    · rw [List.getElem?_append_left (by simpa using hlt)]
      exact ih hlt
    · have hdiv : i / 8 = n := by omega
      rw [List.getElem?_append_right (by simpa using hlt), length_bytesOf,
        getElem?_leBytes _ (by omega), hdiv]
      congr 3
      omega

theorem leBytes_injective {w v : BitVec 64} (h : leBytes w = leBytes v) : w = v := by
  apply BitVec.eq_of_getLsbD_eq
  intro i hi
  have hbyte : w.extractLsb' (8 * (i / 8)) 8 = v.extractLsb' (8 * (i / 8)) 8 := by
    have hw := getElem?_leBytes w (i := i / 8) (by omega)
    rw [h, getElem?_leBytes v (by omega)] at hw
    exact (Option.some.inj hw).symm
  have hbit := congrArg (fun x => x.getLsbD (i % 8)) hbyte
  have hmod : i % 8 < 8 := by omega
  have hindex : 8 * (i / 8) + i % 8 = i := Nat.div_add_mod i 8
  simpa only [BitVec.getLsbD_extractLsb', hmod, hindex, decide_true, Bool.true_and] using hbit

/-- The bytes of one word of a stream. -/
theorem take_drop_bytesOf (word : Nat → BitVec 64) {n w : Nat} (hw : w < n) :
    ((bytesOf word n).drop (8 * w)).take 8 = leBytes (word w) := by
  refine List.ext_getElem? fun i => ?_
  rcases Nat.lt_or_ge i 8 with hi | hi
  · have hdiv : (8 * w + i) / 8 = w := by omega
    have hmod : (8 * w + i) % 8 = i := by omega
    rw [List.getElem?_take_of_lt hi, List.getElem?_drop, getElem?_bytesOf word (by omega),
      getElem?_leBytes _ hi, hdiv, hmod]
  · rw [List.getElem?_take_eq_none hi]
    exact (List.getElem?_eq_none hi).symm

/-! ## Stores -/

/-- Overwrite a range of a buffer, if it has it. -/
def store (out : List Byte) (cursor : Nat) (bytes : List Byte) : Option (List Byte) :=
  if cursor + bytes.length ≤ out.length then
    some (out.take cursor ++ bytes ++ out.drop (cursor + bytes.length))
  else none

/-- An element of a list with a range overwritten. -/
theorem getElem?_splice {α : Type} (l bytes : List α) {offset : Nat}
    (h : offset + bytes.length ≤ l.length) (b : Nat) :
    (l.take offset ++ bytes ++ l.drop (offset + bytes.length))[b]? =
      if offset ≤ b ∧ b < offset + bytes.length then bytes[b - offset]? else l[b]? := by
  have htake : (l.take offset).length = offset := by rw [List.length_take]; omega
  by_cases h1 : b < offset
  · rw [if_neg (by omega), List.append_assoc, List.getElem?_append_left (by omega),
      List.getElem?_take, if_pos h1]
  · by_cases h2 : b < offset + bytes.length
    · rw [if_pos (by omega), List.getElem?_append_left (by rw [List.length_append]; omega),
        List.getElem?_append_right (by omega), htake]
    · rw [if_neg (by omega), List.getElem?_append_right (by rw [List.length_append]; omega),
        List.length_append, htake, List.getElem?_drop]
      congr 1
      omega

/-- A store inside a buffer keeps its length and changes its range only. -/
theorem store_spec {out : List Byte} {cursor : Nat} {bytes : List Byte}
    (h : cursor + bytes.length ≤ out.length) :
    ∃ out', store out cursor bytes = some out' ∧ out'.length = out.length ∧
      ∀ i, out'[i]? = if cursor ≤ i ∧ i < cursor + bytes.length then bytes[i - cursor]?
        else out[i]? := by
  refine ⟨_, if_pos h, ?_, getElem?_splice out bytes h⟩
  simp only [List.length_append, List.length_take, List.length_drop]
  omega

/-- A buffer with `n` words at its front. -/
def filled (word : Nat → BitVec 64) (out : List Byte) (n : Nat) : List Byte :=
  bytesOf word n ++ out.drop (8 * n)

@[simp] theorem filled_zero (word : Nat → BitVec 64) (out : List Byte) :
    filled word out 0 = out := by
  simp [filled, bytesOf]

/-- Storing the next word at the cursor. -/
theorem store_filled (word : Nat → BitVec 64) {out : List Byte} {n : Nat}
    (h : 8 * (n + 1) ≤ out.length) :
    store (filled word out n) (8 * n) (leBytes (word n)) = some (filled word out (n + 1)) := by
  have hlen : (leBytes (word n)).length = 8 := rfl
  have hfit : 8 * n + (leBytes (word n)).length ≤ (filled word out n).length := by
    rw [hlen, filled, List.length_append, length_bytesOf, List.length_drop]
    omega
  have htake : (filled word out n).take (8 * n) = bytesOf word n := by
    rw [filled, ← length_bytesOf word n, List.take_left]
  have hdrop : (filled word out n).drop (8 * n + 8) = out.drop (8 * (n + 1)) := by
    rw [filled, ← List.drop_drop, ← length_bytesOf word n, List.drop_left,
      length_bytesOf, List.drop_drop, Nat.mul_succ]
  rw [store, if_pos hfit, htake, hlen, hdrop, filled, bytesOf_succ]

/-! ## Reads -/

def readLeU16 (mem : List Byte) (off : Nat) : Option (BitVec 16) := do
  let b0 ← mem[off]?
  let b1 ← mem[off + 1]?
  some (b0.setWidth 16 ||| b1.setWidth 16 <<< 8)

def readLeU32 (mem : List Byte) (off : Nat) : Option (BitVec 32) := do
  let b0 ← mem[off]?
  let b1 ← mem[off + 1]?
  let b2 ← mem[off + 2]?
  let b3 ← mem[off + 3]?
  some (b0.setWidth 32 ||| b1.setWidth 32 <<< 8 ||| b2.setWidth 32 <<< 16 ||| b3.setWidth 32 <<< 24)

/-- A read inside the buffer succeeds. -/
theorem readLeU16_isSome {mem : List Byte} {off : Nat} (h : off + 2 ≤ mem.length) :
    (readLeU16 mem off).isSome := by
  have h0 : off < mem.length := by omega
  have h1 : off + 1 < mem.length := by omega
  simp [readLeU16, List.getElem?_eq_getElem h0, List.getElem?_eq_getElem h1]

theorem readLeU32_isSome {mem : List Byte} {off : Nat} (h : off + 4 ≤ mem.length) :
    (readLeU32 mem off).isSome := by
  have h0 : off < mem.length := by omega
  have h1 : off + 1 < mem.length := by omega
  have h2 : off + 2 < mem.length := by omega
  have h3 : off + 3 < mem.length := by omega
  simp [readLeU32, List.getElem?_eq_getElem h0, List.getElem?_eq_getElem h1,
    List.getElem?_eq_getElem h2, List.getElem?_eq_getElem h3]

/-- Part `l` of word `w`. -/
theorem readLeU16_bytesOf (word : Nat → BitVec 64) {n w l : Nat} (hw : w < n) (hl : l < 4) :
    readLeU16 (bytesOf word n) (8 * w + 2 * l) = some ((word w).extractLsb' (16 * l) 16) := by
  have h0 : (8 * w + 2 * l) / 8 = w := by omega
  have h0' : (8 * w + 2 * l) % 8 = 2 * l := by omega
  have h1 : (8 * w + 2 * l + 1) / 8 = w := by omega
  have h1' : (8 * w + 2 * l + 1) % 8 = 2 * l + 1 := by omega
  rw [readLeU16, getElem?_bytesOf word (by omega), getElem?_bytesOf word (by omega),
    h0, h0', h1, h1']
  refine congrArg some ?_
  apply BitVec.eq_of_getLsbD_eq
  intro i hi
  simp only [BitVec.getLsbD_or, BitVec.getLsbD_setWidth, BitVec.getLsbD_shiftLeft,
    BitVec.getLsbD_extractLsb']
  grind

theorem readLeU32_bytesOf (word : Nat → BitVec 64) {n w l : Nat} (hw : w < n) (hl : l < 2) :
    readLeU32 (bytesOf word n) (8 * w + 4 * l) = some ((word w).extractLsb' (32 * l) 32) := by
  have hdiv : ∀ i < 4, (8 * w + 4 * l + i) / 8 = w ∧ (8 * w + 4 * l + i) % 8 = 4 * l + i := by
    intro i hi
    omega
  have hbyte : ∀ i < 4, (bytesOf word n)[8 * w + 4 * l + i]? =
      some ((word w).extractLsb' (8 * (4 * l + i)) 8) := by
    intro i hi
    rw [getElem?_bytesOf word (by omega), (hdiv i hi).1, (hdiv i hi).2]
  have hzero := hbyte 0 (by decide)
  rw [readLeU32, Nat.add_zero] at *
  rw [hzero, hbyte 1 (by decide), hbyte 2 (by decide), hbyte 3 (by decide)]
  refine congrArg some ?_
  apply BitVec.eq_of_getLsbD_eq
  intro i hi
  simp only [BitVec.getLsbD_or, BitVec.getLsbD_setWidth, BitVec.getLsbD_shiftLeft,
    BitVec.getLsbD_extractLsb']
  grind

/-! ## Words of parts -/

/-- Four 16-bit parts or-ed into a word, the first lowest. -/
def pack16 (part : Nat → BitVec 16) : BitVec 64 :=
  (List.range 4).foldl (fun word l => word ||| (part l).setWidth 64 <<< (l * 16)) 0

def pack32 (part : Nat → BitVec 32) : BitVec 64 :=
  (List.range 2).foldl (fun word l => word ||| (part l).setWidth 64 <<< (l * 32)) 0

theorem pack16_zero {part : Nat → BitVec 16} (h : ∀ l < 4, part l = 0) : pack16 part = 0 := by
  simp [pack16, List.range_succ, h]

theorem pack32_zero {part : Nat → BitVec 32} (h : ∀ l < 2, part l = 0) : pack32 part = 0 := by
  simp [pack32, List.range_succ, h]

/-- A bit of parts or-ed into a word, the first lowest. -/
theorem getLsbD_parts {v w : Nat} (part : Nat → BitVec v) (n : Nat) {i : Nat} (hi : i < w) :
    ((List.range n).foldl (fun word l => word ||| (part l).setWidth w <<< (l * v)) 0).getLsbD i =
      (decide (i < n * v) && (part (i / v)).getLsbD (i % v)) := by
  induction n with
  | zero => simp
  | succ n ih =>
    have hsucc : (n + 1) * v = n * v + v := Nat.succ_mul n v
    rw [List.range_succ, List.foldl_append, List.foldl_cons, List.foldl_nil, BitVec.getLsbD_or, ih,
      BitVec.getLsbD_shiftLeft, BitVec.getLsbD_setWidth, hsucc]
    by_cases hbefore : i < n * v
    · have hless : i < n * v + v := by omega
      simp [hbefore, hless]
    · by_cases hpart : i < n * v + v
      · have hdiv : i / v = n := Nat.div_eq_of_lt_le (by omega) (by omega)
        have hmod : i % v = i - n * v := by rw [Nat.mod_eq_sub_mul_div, hdiv, Nat.mul_comm]
        have hw : i - n * v < w := by omega
        simp [hbefore, hpart, hi, hdiv, hmod, hw]
      · have hge : v ≤ i - n * v := by omega
        simp [hbefore, hpart, BitVec.getLsbD_of_ge _ _ hge]

/-- A part of a word of parts. -/
theorem extractLsb'_parts {v w : Nat} (part : Nat → BitVec v) {n l : Nat} (hl : l < n)
    (hw : n * v ≤ w) :
    ((List.range n).foldl (fun word l => word ||| (part l).setWidth w <<< (l * v)) 0).extractLsb'
      (v * l) v = part l := by
  have hend : l * v + v ≤ n * v := by
    rw [← Nat.succ_mul]
    exact Nat.mul_le_mul_right v hl
  rw [Nat.mul_comm v l]
  apply BitVec.eq_of_getLsbD_eq
  intro i hi
  have hdiv : (l * v + i) / v = l := Nat.div_eq_of_lt_le (by omega) (by rw [Nat.succ_mul]; omega)
  have hmod : (l * v + i) % v = i := by
    rw [Nat.add_comm, Nat.add_mul_mod_self_right, Nat.mod_eq_of_lt hi]
  have hlt : l * v + i < n * v := by omega
  rw [BitVec.getLsbD_extractLsb', getLsbD_parts part n (by omega), hdiv, hmod]
  simp [hi, hlt]

theorem extractLsb'_pack16 (part : Nat → BitVec 16) {l : Nat} (hl : l < 4) :
    (pack16 part).extractLsb' (16 * l) 16 = part l := extractLsb'_parts part hl (by decide)

theorem extractLsb'_pack32 (part : Nat → BitVec 32) {l : Nat} (hl : l < 2) :
    (pack32 part).extractLsb' (32 * l) 32 = part l := extractLsb'_parts part hl (by decide)

/-- Eight bytes or-ed into a word, the first lowest. -/
def pack8 (part : Nat → Byte) : BitVec 64 :=
  (List.range 8).foldl (fun word l => word ||| (part l).setWidth 64 <<< (l * 8)) 0

theorem leBytes_pack8 (part : Nat → Byte) : leBytes (pack8 part) = (List.range 8).map part := by
  have hbytes : leBytes (pack8 part) = (List.range 8).map fun l =>
    (pack8 part).extractLsb' (8 * l) 8 := rfl
  rw [hbytes]
  exact List.map_congr_left fun l hl => extractLsb'_parts part (List.mem_range.mp hl) (by decide)

/-! ## Loops -/

/-- A counting loop whose iterations lead from each state of a sequence to the next. -/
theorem foldlM_range {m : Type → Type} [Monad m] [LawfulMonad m] {σ : Type} {f : σ → Nat → m σ}
    {S : Nat → σ} {n : Nat}
    (h : ∀ i < n, f (S i) i = pure (S (i + 1))) : (List.range n).foldlM f (S 0) = pure (S n) := by
  induction n with
  | zero => rfl
  | succ n ih =>
    rw [List.range_succ, List.foldlM_append, ih fun i hi => h i (Nat.lt_succ_of_lt hi)]
    simp [h n (Nat.lt_succ_self n)]

/-- A counting loop that folds in what it reads. -/
theorem foldlM_read {m : Type → Type} [Monad m] [LawfulMonad m] {σ α : Type} {f : σ → α → Nat → σ}
    {read : Nat → m α} {part : Nat → α} {n : Nat} (h : ∀ i < n, read i = pure (part i)) (s : σ) :
    (List.range n).foldlM (fun st i => do pure (f st (← read i) i)) s =
      pure ((List.range n).foldl (fun st i => f st (part i) i) s) := by
  have hstep : ∀ i < n,
      (do pure (f ((List.range i).foldl (fun st i => f st (part i) i) s) (← read i) i)) =
      (pure ((List.range (i + 1)).foldl (fun st i => f st (part i) i) s) : m σ) := by
    intro i hi
    rw [h i hi, List.range_succ, List.foldl_append]
    simp
  exact foldlM_range (S := fun i => (List.range i).foldl (fun st i => f st (part i) i) s) hstep

theorem foldlM_congr {m : Type → Type} [Monad m] {σ : Type} {f g : σ → Nat → m σ} {n : Nat}
    (h : ∀ i < n, ∀ st, f st i = g st i) (s : σ) :
    (List.range n).foldlM f s = (List.range n).foldlM g s := by
  have hmem : ∀ l : List Nat, (∀ i ∈ l, i < n) → ∀ st, l.foldlM f st = l.foldlM g st := by
    intro l
    induction l with
    | nil => intro _ st; rfl
    | cons i l ih =>
      intro hl st
      rw [List.foldlM_cons, List.foldlM_cons, h i (hl i (List.mem_cons_self ..))]
      exact bind_congr fun st' => ih (fun i hi => hl i (List.mem_cons_of_mem _ hi)) st'
  exact hmem _ (fun i hi => List.mem_range.mp hi) s

/-- A counting loop that keeps an invariant over the number of iterations. -/
theorem foldlM_inv {σ : Type} {f : σ → Nat → Option σ} (inv : Nat → σ → Prop) {n : Nat}
    {s : σ} (h0 : inv 0 s)
    (hstep : ∀ i < n, ∀ st, inv i st → ∃ st', f st i = some st' ∧ inv (i + 1) st') :
    ∃ st, (List.range n).foldlM f s = some st ∧ inv n st := by
  induction n with
  | zero => exact ⟨s, rfl, h0⟩
  | succ n ih =>
    obtain ⟨st, hrun, hinv⟩ := ih fun i hi => hstep i (Nat.lt_succ_of_lt hi)
    obtain ⟨st', hlast, hinv'⟩ := hstep n (Nat.lt_succ_self n) st hinv
    refine ⟨st', ?_, hinv'⟩
    rw [List.range_succ, List.foldlM_append, hrun]
    simp [hlast]

/-- Two loops over one list side by side: if the first gets through, so does the second, and
    both are related after each element. -/
theorem foldlM_lockstep {σ τ α : Type} {f : σ → α → Option σ} {g : τ → α → Option τ} {l : List α}
    (I : Nat → σ → τ → Prop) {s s' : σ} {t : τ} (h0 : I 0 s t)
    (hstep : ∀ n a, l[n]? = some a → ∀ s s' t, I n s t → f s a = some s' → ∃ t',
      g t a = some t' ∧ I (n + 1) s' t')
    (hrun : l.foldlM f s = some s') : ∃ t', l.foldlM g t = some t' ∧ I l.length s' t' := by
  induction l generalizing I s t with
  | nil =>
    obtain rfl : s = s' := Option.some.inj hrun
    exact ⟨t, rfl, h0⟩
  | cons a l ih =>
    simp only [List.foldlM_cons, Option.bind_eq_bind, Option.bind_eq_some_iff] at hrun ⊢
    obtain ⟨s₁, hs₁, hrest⟩ := hrun
    obtain ⟨t₁, ht₁, h1⟩ := hstep 0 a rfl s s₁ t h0 hs₁
    obtain ⟨t', ht', hI⟩ := ih (fun n => I (n + 1)) h1 (fun n b hb => hstep (n + 1) b hb) hrest
    exact ⟨t', ⟨t₁, ht₁, ht'⟩, hI⟩

/-! ### Collected reads -/

/-- The results of `n` reads, when all succeed. -/
def collect {α : Type} (read : Nat → Option α) (n : Nat) : Option (List α) :=
  (List.range n).foldlM (fun row d => do some (row ++ [← read d])) []

theorem collect_congr {α : Type} {read read' : Nat → Option α} {n : Nat}
    (h : ∀ d < n, read d = read' d) :
    collect read n = collect read' n :=
  foldlM_congr (fun d hd row => by simp only [h d hd]) []

theorem collect_spec {α : Type} {read : Nat → Option α} {n : Nat} (h : ∀ d < n, (read d).isSome) :
    ∃ row, collect read n = some row ∧ row.length = n := by
  refine foldlM_inv (fun i (row : List α) => row.length = i) rfl fun d hd row hrow => ?_
  obtain ⟨x, hx⟩ := Option.isSome_iff_exists.mp (h d hd)
  exact ⟨row ++ [x], by simp only [hx]; rfl, by simp [hrow]⟩

/-! ### Windows -/

/-- The first `n` bytes of `mem` are those of `src` from `off` on. -/
def Window (mem src : List Byte) (off n : Nat) : Prop := ∀ k < n, mem[k]? = src[off + k]?

theorem Window.of_take {mem src : List Byte} {off n : Nat}
    (h : mem.take n = (src.drop off).take n) : Window mem src off n := by
  intro k hk
  have hget := congrArg (fun l => l[k]?) h
  simpa only [List.getElem?_take_of_lt hk, List.getElem?_drop] using hget

theorem Window.readLeU16 {mem src : List Byte} {off n k : Nat} (h : Window mem src off n)
    (hk : k + 2 ≤ n) :
    readLeU16 mem k = readLeU16 src (off + k) := by
  simp only [Words.readLeU16, h k (by omega), h (k + 1) (by omega), Nat.add_assoc]

theorem Window.readLeU32 {mem src : List Byte} {off n k : Nat} (h : Window mem src off n)
    (hk : k + 4 ≤ n) :
    readLeU32 mem k = readLeU32 src (off + k) := by
  simp only [Words.readLeU32, h k (by omega), h (k + 1) (by omega), h (k + 2) (by omega),
    h (k + 3) (by omega), Nat.add_assoc]

/-! ### Parts as integers -/

theorem toNat_part {w n : Nat} (x : BitVec w) {shift : Nat} (h : w + shift ≤ n) :
    (x.setWidth n <<< shift).toNat = x.toNat <<< shift := by
  have hlt : x.toNat < 2 ^ w := x.isLt
  have hle : (2 : Nat) ^ w * 2 ^ shift ≤ 2 ^ n := by
    rw [← Nat.pow_add]
    exact Nat.pow_le_pow_right (by decide) h
  have hprod : x.toNat * 2 ^ shift < 2 ^ n :=
    Nat.lt_of_lt_of_le (Nat.mul_lt_mul_of_pos_right hlt (Nat.two_pow_pos shift)) hle
  have hx : x.toNat < 2 ^ n :=
    Nat.lt_of_le_of_lt (Nat.le_mul_of_pos_right _ (Nat.two_pow_pos shift)) hprod
  rw [BitVec.toNat_shiftLeft, BitVec.toNat_setWidth, Nat.mod_eq_of_lt hx, Nat.shiftLeft_eq,
    Nat.mod_eq_of_lt hprod]

theorem toNat_pack16 (part : Nat → BitVec 16) :
    (pack16 part).toNat = (List.range 4).foldl
      (fun word l => word ||| (part l).toNat <<< (l * 16)) 0 := by
  have hunfold : pack16 part = 0 ||| (part 0).setWidth 64 <<< 0 ||| (part 1).setWidth 64 <<< 16 |||
      (part 2).setWidth 64 <<< 32 ||| (part 3).setWidth 64 <<< 48 := rfl
  simp only [hunfold, BitVec.toNat_or]
  rw [toNat_part _ (by decide), toNat_part _ (by decide), toNat_part _ (by decide),
    toNat_part _ (by decide)]
  rfl

theorem toNat_pack32 (part : Nat → BitVec 32) :
    (pack32 part).toNat = (List.range 2).foldl
      (fun word l => word ||| (part l).toNat <<< (l * 32)) 0 := by
  have hunfold : pack32 part = 0 ||| (part 0).setWidth 64 <<< 0 ||| (part 1).setWidth 64 <<< 32 :=
    rfl
  simp only [hunfold, BitVec.toNat_or]
  rw [toNat_part _ (by decide), toNat_part _ (by decide)]
  rfl

end Words
