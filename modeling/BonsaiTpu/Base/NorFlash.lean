-- SUMMARY: Flash memory that is erased by sectors and programmed by pages: calls, logs of calls, and what a sound log leaves behind.
import Mathlib.Algebra.Ring.Nat
import Mathlib.Data.List.Induction
import Mathlib.Tactic.Common

/-!
# Flash memory

The driver of a flash chip promises two things: a call that erases whole sectors leaves
`0xff` in them, and a call that programs whole pages stores the data, if what it programs
is erased. What a program does to flash is a log of such calls. A log is sound if every
call in it is one the driver promises something about; then the contents can be read off
the log, from the last erase on.
-/

namespace NorFlash

abbrev Byte := BitVec 8

/-- The contents of the chip by offset. -/
abbrev Image := Nat → Byte

/-- The flash routines with what they promise. -/
structure Driver (page sector : Nat) where
  size : Nat
  erase : Nat → Nat → Image → Image
  program : Nat → List Byte → Image → Image
  erase_apply : ∀ off count image a, sector ∣ off → sector ∣ count → off + count ≤ size →
    erase off count image a = if off ≤ a ∧ a < off + count then 0xff else image a
  program_apply : ∀ off data image, page ∣ off → page ∣ data.length → off + data.length ≤ size →
    (∀ i < data.length, image (off + i) = 0xff) →
    ∀ a, program off data image a = if off ≤ a ∧ a < off + data.length then
      data.getD (a - off) 0xff else image a

/-- A call of the driver. -/
inductive Op where
  | erase (off count : Nat)
  | program (off : Nat) (data : List Byte)
  deriving DecidableEq

/-- The call programs the byte at an offset. -/
def Op.Covers (a : Nat) : Op → Prop
  | .erase _ _ => False
  | .program off data => off ≤ a ∧ a < off + data.length

variable {page sector : Nat} (d : Driver page sector)

def Op.apply (image : Image) : Op → Image
  | .erase off count => d.erase off count image
  | .program off data => d.program off data image

/-- The contents after a log of calls, the oldest first. -/
def replay (image : Image) (log : List Op) : Image := log.foldl (Op.apply d) image

/-- The call programs bytes that were erased and have not been programmed since. -/
def Fresh (base : Nat) (earlier : List Op) (off len : Nat) : Prop :=
  ∃ before count since, earlier = before ++ .erase base count :: since ∧ off + len ≤ base + count ∧
    ∀ op ∈ since, ∃ off' data', op = .program off' data' ∧
    (off' + data'.length ≤ off ∨ off + len ≤ off')

/-- A call after earlier ones that keeps to the rules, inside a region of the chip: it erases
    whole sectors from the start of the region, or it programs whole pages that are fresh. -/
def Sound (page sector base region : Nat) (earlier : List Op) : Op → Prop
  | .erase off count =>
    sector ∣ off ∧ sector ∣ count ∧ 0 < count ∧ off = base ∧ off + count ≤ base + region
  | .program off data =>
    page ∣ off ∧ page ∣ data.length ∧ base ≤ off ∧ off + data.length ≤ base + region ∧
      Fresh base earlier off data.length

/-- Every call of a log keeps to the rules. -/
def SoundLog (page sector base region : Nat) (log : List Op) : Prop :=
  ∀ earlier op later, log = earlier ++ op :: later → Sound page sector base region earlier op

section

variable {d} {base region : Nat} {log : List Op} {image : Image}

theorem replay_append (l l' : List Op) :
    replay d image (l ++ l') = replay d (replay d image l) l' :=
  List.foldl_append

theorem soundLog_nil : SoundLog page sector base region [] := by
  intro earlier op later h
  simp at h

theorem SoundLog.append (h : SoundLog page sector base region log) {op : Op}
    (hop : Sound page sector base region log op) :
    SoundLog page sector base region (log ++ [op]) := by
  intro earlier op' later heq
  rcases List.eq_nil_or_concat later with rfl | ⟨later', last, rfl⟩
  · obtain ⟨rfl, hlast⟩ := List.append_inj' heq rfl
    cases hlast
    exact hop
  · rw [List.concat_eq_append, ← List.cons_append, ← List.append_assoc] at heq
    exact h earlier op' later' (List.append_inj' heq rfl).1

theorem SoundLog.of_prefix {l : List Op} (h : SoundLog page sector base region log)
    (hl : l <+: log) :
    SoundLog page sector base region l := by
  intro earlier op later heq
  obtain ⟨rest, rfl⟩ := hl
  exact h earlier op (later ++ rest) (by rw [heq]; simp)

/-- All calls are programs. -/
def Programs (since : List Op) : Prop := ∀ op ∈ since, ∃ off data, op = .program off data

/-- The last erase of a log is determined by the calls after it being programs. -/
theorem lastErase_unique {before before' since since' : List Op} {off off' count count' : Nat}
    (heq : before ++ .erase off count :: since = before' ++ .erase off' count' :: since')
    (h : Programs since) (h' : Programs since') :
    count = count' ∧ since = since' := by
  induction since using List.reverseRecOn generalizing since' with
  | nil =>
    rcases List.eq_nil_or_concat since' with rfl | ⟨l, last, rfl⟩
    · obtain ⟨-, hlast⟩ := List.append_inj' heq rfl
      cases hlast
      exact ⟨rfl, rfl⟩
    · rw [List.concat_eq_append, ← List.cons_append, ← List.append_assoc] at heq
      obtain ⟨-, hlast⟩ := List.append_inj' heq rfl
      obtain ⟨o, data, hprog⟩ := h' last (by simp)
      rw [hprog] at hlast
      simp at hlast
  | append_singleton since last ih =>
    rcases List.eq_nil_or_concat since' with rfl | ⟨l, last', rfl⟩
    · rw [← List.cons_append, ← List.append_assoc] at heq
      obtain ⟨-, hlast⟩ := List.append_inj' heq rfl
      obtain ⟨o, data, hprog⟩ := h last (by simp)
      rw [hprog] at hlast
      simp at hlast
    · rw [List.concat_eq_append] at heq h' ⊢
      rw [← List.cons_append, ← List.append_assoc, ← List.cons_append, ← List.append_assoc] at heq
      obtain ⟨hinit, hlast⟩ := List.append_inj' heq rfl
      obtain ⟨hcount, hsince⟩ :=
        ih hinit (fun op hm => h op (by simp [hm])) (fun op hm => h' op (by simp [hm]))
      cases hlast
      exact ⟨hcount, by rw [hsince]⟩

/-- A program after the last erase stores its data where nothing was stored before. -/
theorem SoundLog.program_apply {before since : List Op} {count off : Nat} {data : List Byte}
    (hsize : base + region ≤ d.size)
    (h : SoundLog page sector base region
      ((before ++ .erase base count :: since) ++ [.program off data]))
    (hprog : Programs since)
    (herased : ∀ a, base ≤ a → a < base + count → (∀ op ∈ since, ¬op.Covers a) →
      replay d image (before ++ .erase base count :: since) a = 0xff) (a : Nat) :
    replay d image ((before ++ .erase base count :: since) ++ [.program off data]) a =
      if off ≤ a ∧ a < off + data.length then data.getD (a - off) 0xff
      else replay d image (before ++ .erase base count :: since) a := by
  obtain ⟨hoff, hlen, hlo, hhi, before', count', since', heq, hcount, hapart⟩ := h _ _ [] rfl
  obtain ⟨rfl, rfl⟩ := lastErase_unique heq hprog fun op hm =>
    ⟨_, _, (hapart op hm).choose_spec.choose_spec.1⟩
  rw [replay_append]
  refine d.program_apply off data _ hoff hlen (by omega) (fun i hi => ?_) a
  refine herased (off + i) (by omega) (by omega) fun op hm hcov => ?_
  obtain ⟨off', data', rfl, hdisj⟩ := hapart op hm
  simp only [Op.Covers] at hcov
  omega

/-- What was erased last and not programmed since is still erased. -/
theorem SoundLog.erased {before since : List Op} {count : Nat} (hsize : base + region ≤ d.size)
    (h : SoundLog page sector base region (before ++ .erase base count :: since))
    (hprog : Programs since) {a : Nat}
    (hlo : base ≤ a) (hhi : a < base + count) (hfree : ∀ op ∈ since, ¬op.Covers a) :
    replay d image (before ++ .erase base count :: since) a = 0xff := by
  induction since using List.reverseRecOn generalizing a with
  | nil =>
    obtain ⟨hoff, hlen, -, -, hend⟩ := h _ _ [] rfl
    rw [replay_append]
    show d.erase base count (replay d image before) a = 0xff
    rw [d.erase_apply base count _ a hoff hlen (by omega), if_pos ⟨hlo, hhi⟩]
  | append_singleton since op ih =>
    obtain ⟨off, data, rfl⟩ := hprog op (by simp)
    have hprog' : Programs since := fun op hm => hprog op (by simp [hm])
    have hcov : ¬(off ≤ a ∧ a < off + data.length) := hfree (.program off data) (by simp)
    rw [← List.cons_append, ← List.append_assoc] at h ⊢
    have hearlier := h.of_prefix (List.prefix_append _ _)
    rw [h.program_apply hsize hprog' (fun b hb1 hb2 hb => ih hearlier hprog' hb1 hb2 hb) a,
      if_neg hcov]
    exact ih hearlier hprog' hlo hhi fun op hm => hfree op (by simp [hm])

/-- What was programmed since the last erase is there. -/
theorem SoundLog.programmed {before since : List Op} {count off : Nat} {data : List Byte}
    (hsize : base + region ≤ d.size)
    (h : SoundLog page sector base region (before ++ .erase base count :: since))
    (hprog : Programs since)
    (hmem : .program off data ∈ since) {a : Nat} (hlo : off ≤ a) (hhi : a < off + data.length) :
    replay d image (before ++ .erase base count :: since) a = data.getD (a - off) 0xff := by
  induction since using List.reverseRecOn with
  | nil => simp at hmem
  | append_singleton since op ih =>
    obtain ⟨off', data', rfl⟩ := hprog op (by simp)
    have hprog' : Programs since := fun op hm => hprog op (by simp [hm])
    rw [← List.cons_append, ← List.append_assoc] at h ⊢
    have hearlier := h.of_prefix (List.prefix_append _ _)
    rw [h.program_apply hsize hprog' (fun b hb1 hb2 hb =>
      hearlier.erased hsize hprog' hb1 hb2 hb) a]
    rcases List.mem_append.mp hmem with hm | hm
    · -- A later call leaves it alone, since it is disjoint from it.
      obtain ⟨-, -, -, -, before', count', since', heq, -, hapart⟩ := h _ _ [] rfl
      obtain ⟨rfl, rfl⟩ := lastErase_unique heq hprog' fun op hm =>
        ⟨_, _, (hapart op hm).choose_spec.choose_spec.1⟩
      obtain ⟨_, _, hsame, hdisj⟩ := hapart _ hm
      cases hsame
      rw [if_neg (by omega)]
      exact ih hearlier hprog' hm
    · cases List.mem_singleton.mp hm
      rw [if_pos ⟨hlo, hhi⟩]

end

/-! ## A chip -/

/-- A chip that can only clear bits outside of an erase. -/
def clearing (page sector size : Nat) : Driver page sector where
  size := size
  erase off count image a := if off ≤ a ∧ a < off + count then 0xff else image a
  program off data image a := if off ≤ a ∧ a < off + data.length then
    image a &&& data.getD (a - off) 0xff else image a
  erase_apply _ _ _ _ _ _ _ := rfl
  program_apply off data image _ _ _ herased a := by
    split
    · rename_i ha
      have hbyte := herased (a - off) (by omega)
      rw [Nat.add_sub_cancel' ha.1] at hbyte
      rw [hbyte]
      exact BitVec.allOnes_and
    · rfl

end NorFlash
