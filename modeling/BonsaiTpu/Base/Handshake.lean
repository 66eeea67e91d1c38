-- SUMMARY: Valid/ready channels: transfers, sources that keep their offers, and requests that are answered once each.
import BonsaiTpu.Base.Machine
import Mathlib.Data.Nat.Find

/-!
# Valid/ready channels

A payload moves over a channel in each clock cycle in which its source is valid and its
sink is ready. This file has the transfers of a channel, the rule that a source keeps what
it offers, and the pattern of a sink that answers each request on a second channel:
`Answers` says that every request gets one answer, `Buffer` is how a register does it, and
`Server` is a sink that is not stuck: it takes what is offered when its response was taken.
-/

namespace Handshake

variable {α : Type*}

/-- The values of the cycles before `n` in which something happens. -/
def occurred (happens : Nat → Bool) (value : Nat → α) (n : Nat) : List α :=
  ((List.range n).filter happens).map value

@[simp] theorem occurred_zero (happens : Nat → Bool) (value : Nat → α) :
    occurred happens value 0 = [] := rfl

theorem occurred_succ (happens : Nat → Bool) (value : Nat → α) (n : Nat) :
    occurred happens value (n + 1) = occurred happens value n ++ if happens n then
      [value n] else [] := by
  rw [occurred, List.range_succ, List.filter_append, List.map_append, List.filter_singleton]
  cases happens n <;> rfl

/-- The wires of a channel in each cycle. -/
structure Channel (α : Type*) where
  valid : Nat → Bool
  ready : Nat → Bool
  payload : Nat → α

namespace Channel

variable (ch : Channel α)

def transfer (n : Nat) : Bool := ch.valid n && ch.ready n

/-- The source keeps what it offers until it is taken. -/
def Stable : Prop :=
  ∀ n, ch.valid n = true → ch.ready n = false →
    ch.valid (n + 1) = true ∧ ch.payload (n + 1) = ch.payload n

/-- The wires in cycle `n`. -/
def wires (n : Nat) : Bool × Bool × α := (ch.valid n, ch.ready n, ch.payload n)

variable {ch} in
theorem transfer_of_wires {ch' : Channel α} {n m : Nat} (h : ch.wires n = ch'.wires m) :
    ch.transfer n = ch'.transfer m :=
  congrArg (fun wires : Bool × Bool × α => wires.1 && wires.2.1) h

variable {ch} in
/-- A source that has nothing to offer may be followed by another one. -/
theorem Stable.followed {first second : Channel α} {d : Nat} (h : first.Stable) (h' : second.Stable)
    (hfirst : ∀ n < d, ch.wires n = first.wires n)
    (hsecond : ∀ n, ch.wires (d + n) = second.wires n)
    (hlast : ∀ n, n + 1 = d → first.valid n = false) : ch.Stable := by
  intro n hvalid hready
  rcases Nat.lt_or_ge n d with hlt | hge
  · obtain ⟨hvalid₁, hready₁, hpayload₁⟩ :=
      Prod.ext_iff.mp (hfirst n hlt) |>.imp_right Prod.ext_iff.mp
    obtain ⟨hnext, hsame⟩ := h n (hvalid₁.symm.trans hvalid) (hready₁.symm.trans hready)
    rcases Nat.eq_or_lt_of_le (Nat.succ_le_of_lt hlt) with heq | hlt'
    · cases hvalid.symm.trans (hvalid₁.trans (hlast n heq))
    · obtain ⟨hvalid₂, -, hpayload₂⟩ :=
        Prod.ext_iff.mp (hfirst (n + 1) hlt') |>.imp_right Prod.ext_iff.mp
      exact ⟨hvalid₂.trans hnext, hpayload₂.trans (hsame.trans hpayload₁.symm)⟩
  · obtain ⟨m, rfl⟩ := Nat.exists_eq_add_of_le hge
    obtain ⟨hvalid₁, hready₁, hpayload₁⟩ := Prod.ext_iff.mp (hsecond m) |>.imp_right Prod.ext_iff.mp
    obtain ⟨hvalid₂, -, hpayload₂⟩ := Prod.ext_iff.mp (hsecond (m + 1)) |>.imp_right Prod.ext_iff.mp
    obtain ⟨hnext, hsame⟩ := h' m (hvalid₁.symm.trans hvalid) (hready₁.symm.trans hready)
    exact ⟨hvalid₂.trans hnext, hpayload₂.trans (hsame.trans hpayload₁.symm)⟩

/-- What moved over the channel before cycle `n`. -/
def transferred (n : Nat) : List α := occurred ch.transfer ch.payload n

/-- What is offered in cycle `n`. -/
def offer (n : Nat) : List α := if ch.valid n then [ch.payload n] else []

end Channel

variable {request : Nat → Bool} {answer : Nat → α} {ch : Channel α}

/-- Every request is answered once: the answer is offered from the next cycle on until it is taken,
    there is no other request while it waits, and the answers come in the order of their
    requests. -/
structure Answers (request : Nat → Bool) (answer : Nat → α) (ch : Channel α) : Prop where
  offered : ∀ c, request c = true → ch.valid (c + 1) = true ∧ ch.payload (c + 1) = answer c
  held : ch.Stable
  alone : ∀ n, ch.valid n = true → request n = false
  once : ∀ n, ch.transferred n ++ ch.offer n = occurred request answer n

/-- An answer waits until the first cycle in which it can be taken. -/
theorem Answers.waits (h : Answers request answer ch) {c : Nat} (hreq : request c = true)
    {m : Nat} (hlt : c < m)
    (hwait : ∀ j, c < j → j < m → ch.ready j = false) :
    ch.valid m = true ∧ ch.payload m = answer c := by
  obtain ⟨d, rfl⟩ := Nat.exists_eq_add_of_lt hlt
  induction d with
  | zero => exact h.offered c hreq
  | succ d ih =>
    obtain ⟨hvalid, hpayload⟩ := ih (by omega) fun j hcj hj => hwait j hcj (by omega)
    obtain ⟨hvalid', hpayload'⟩ := h.held _ hvalid (hwait _ (by omega) (by omega))
    exact ⟨hvalid', hpayload'.trans hpayload⟩

/-- An answer is taken, if its channel is ready at some later time. -/
theorem Answers.arrives (h : Answers request answer ch)
    (hfair : ∀ n, ∃ m, n ≤ m ∧ ch.ready m = true) {c : Nat}
    (hreq : request c = true) : ∃ m, c < m ∧ ch.transfer m = true ∧ ch.payload m = answer c := by
  have hlater : ∃ m, c < m ∧ ch.ready m = true := hfair (c + 1)
  obtain ⟨hlt, hready⟩ := Nat.find_spec hlater
  have hwait : ∀ j, c < j → j < Nat.find hlater → ch.ready j = false := fun j hcj hj =>
    Bool.eq_false_iff.mpr fun hj' => Nat.find_min hlater hj ⟨hcj, hj'⟩
  obtain ⟨hvalid, hpayload⟩ := h.waits hreq hlt hwait
  exact ⟨_, hlt, Bool.and_eq_true_iff.mpr ⟨hvalid, hready⟩, hpayload⟩

/-- A register that is loaded by requests and emptied by its channel. -/
structure Buffer (request : Nat → Bool) (answer : Nat → α) (ch : Channel α) : Prop where
  empty : ch.valid 0 = false
  load : ∀ n, request n = true → ch.valid n = false ∧ ch.valid (n + 1) = true ∧
    ch.payload (n + 1) = answer n
  keep : ∀ n, request n = false → ch.valid (n + 1) = (ch.valid n && !ch.ready n) ∧
    (ch.valid (n + 1) = true → ch.payload (n + 1) = ch.payload n)

namespace Buffer

variable (h : Buffer request answer ch)

include h

theorem alone {n : Nat} (hvalid : ch.valid n = true) : request n = false := by
  cases hreq : request n with
  | false => rfl
  | true =>
    rw [(h.load n hreq).1] at hvalid
    cases hvalid

theorem stable : ch.Stable := by
  intro n hvalid hready
  obtain ⟨hnext, hsame⟩ := h.keep n (h.alone hvalid)
  rw [hvalid, hready] at hnext
  exact ⟨hnext, hsame hnext⟩

/-- One cycle moves what is offered, or keeps it, and adds the answer of a request. -/
theorem once_succ {n : Nat} (hn : ch.transferred n ++ ch.offer n = occurred request answer n) :
    ch.transferred (n + 1) ++ ch.offer (n + 1) = occurred request answer (n + 1) := by
  rw [Channel.transferred, occurred_succ, occurred_succ, ← hn, Channel.transferred,
    Channel.transfer]
  cases hreq : request n with
  | true =>
    obtain ⟨hvalid, hnext, hpayload⟩ := h.load n hreq
    simp [Channel.offer, hvalid, hnext, hpayload]
  | false =>
    obtain ⟨hnext, hsame⟩ := h.keep n hreq
    cases hvalid : ch.valid n with
    | false =>
      rw [hvalid] at hnext
      simp [Channel.offer, hvalid, hnext]
    | true =>
      cases hready : ch.ready n with
      | true =>
        rw [hvalid, hready] at hnext
        simp [Channel.offer, hvalid, hnext]
      | false =>
        rw [hvalid, hready] at hnext
        simp [Channel.offer, hvalid, hnext, hsame hnext]

theorem answers : Answers request answer ch where
  offered c hreq := (h.load c hreq).2
  held := h.stable
  alone _ hvalid := h.alone hvalid
  once n := by
    induction n with
    | zero => simp [Channel.transferred, Channel.offer, h.empty]
    | succ n ih => exact h.once_succ ih

end Buffer

/-! ## Progress -/

/-- A sink that takes what is offered when no response waits on its second channel. -/
structure Server (offered : Nat → Prop) (ready : Nat → Bool) (resp : Channel α) : Prop where
  patient : ∀ n, offered n → ready n = false → offered (n + 1)
  accept : ∀ n, offered n → ready n = false → resp.valid n = false → ready (n + 1) = true
  busy : ∀ n, ready n = false → resp.valid n = true →
    ready (n + 1) = false ∧ resp.valid (n + 1) = !resp.ready n

namespace Server

variable {offered : Nat → Prop} {ready : Nat → Bool} {resp : Channel α}
    (h : Server offered ready resp)

include h

theorem taken {n : Nat} (ho : offered n) (hready : ready n = false) (hfree : resp.valid n = false) :
    offered (n + 1) ∧ ready (n + 1) = true :=
  ⟨h.patient n ho hready, h.accept n ho hready hfree⟩

/-- What is offered waits until the response that waits is taken. -/
theorem freed (hfair : ∀ n, ∃ m, n ≤ m ∧ resp.ready m = true) {n : Nat}
    (hn : (offered n ∧ ready n = false) ∧ resp.valid n = true) :
    ∃ m, n < m ∧ (offered m ∧ ready m = false) ∧ resp.valid m = false := by
  have hstep (k : Nat) (hk : (offered k ∧ ready k = false) ∧ resp.valid k = true) :
      (offered (k + 1) ∧ ready (k + 1) = false) ∧ resp.valid (k + 1) = !resp.ready k := by
    obtain ⟨hlow, hnext⟩ := h.busy k hk.1.2 hk.2
    exact ⟨⟨h.patient k hk.1.1 hk.1.2, hlow⟩, hnext⟩
  have hgo (k : Nat) (hk : (offered k ∧ ready k = false) ∧ resp.valid k = true)
      (hr : resp.ready k = true) :
      (offered (k + 1) ∧ ready (k + 1) = false) ∧ resp.valid (k + 1) = false :=
    ⟨(hstep k hk).1, by rw [(hstep k hk).2, hr, Bool.not_true]⟩
  have hstay (k : Nat) (hk : (offered k ∧ ready k = false) ∧ resp.valid k = true)
      (hr : ¬resp.ready k = true) :
      (offered (k + 1) ∧ ready (k + 1) = false) ∧ resp.valid (k + 1) = true :=
    ⟨(hstep k hk).1, by rw [(hstep k hk).2, Bool.eq_false_iff.mpr hr, Bool.not_false]⟩
  exact Machine.exists_of_fair hgo hstay hfair hn

/-- What is offered is taken at once, in the next cycle, or after the response that waits. -/
theorem serves (hfair : ∀ n, ∃ m, n ≤ m ∧ resp.ready m = true) {n : Nat} (ho : offered n) :
    ∃ m, n ≤ m ∧ offered m ∧ ready m = true := by
  cases hready : ready n with
  | true => exact ⟨n, Nat.le_refl n, ho, hready⟩
  | false =>
    cases hvalid : resp.valid n with
    | false => exact ⟨n + 1, Nat.le_succ n, h.taken ho hready hvalid⟩
    | true =>
      obtain ⟨m, hlt, ⟨hm, hlow⟩, hfree⟩ := h.freed hfair ⟨⟨ho, hready⟩, hvalid⟩
      exact ⟨m + 1, by omega, h.taken hm hlow hfree⟩

end Server

end Handshake
