-- SUMMARY: The daemon as its clients see it: every history of calls over failing connections is a serial run of a tensor store, and a download has the bytes that were last uploaded.
import BonsaiTpu.Daemon.Destinations
import BonsaiTpu.Wire.Correlation

/-!
# The daemon as a tensor store

The executions of a history, in their order, are requests on one store that starts empty
(`Serial`), and each call that returns got the answer to one of them. What a request
leaves alone of a store is said byte by byte (`Spares`), so a byte that was uploaded stays
until a request writes it.
-/

namespace Daemon

open Wire (Json Dict Message Outcome Event System JsonText CppJson Interoperable Reachable
  RpcResponse SameJson Decodes
  ExecutionOf stateAfter)
open Board (Byte Err Allocator fakeIo fakeSlab)
open Native (plainPython)

variable {κ : Type}

/-! ## Start -/

/-- The sizes of the slabs of `fake_slabs`, from what remains. -/
def chunkSizes (slabBytes remaining : Nat) : List Nat :=
  if _h : slabBytes = 0 ∨ remaining = 0 then []
  else min slabBytes remaining :: chunkSizes slabBytes (remaining - min slabBytes remaining)
termination_by remaining
decreasing_by omega

/-- `fake_slabs`. -/
def fakeSlabs (totalBytes slabBytes : Int) : Except Err (List (Board.Slab (List Byte))) :=
  if totalBytes ≤ 0 ∨ slabBytes ≤ 0 then
    .error (.valueError "total_bytes and slab_bytes must be positive")
  else .ok ((chunkSizes slabBytes.toNat totalBytes.toNat).map fakeSlab)

/-- `make_runtime` on fake slabs: the allocator that the runtime gets. -/
def fakeAllocator (totalBytes slabBytes : Int) : Except Err (Allocator (List Byte)) := do
  let slabs ← fakeSlabs totalBytes slabBytes
  Allocator.init slabs 64

theorem sum_chunkSizes {slabBytes : Nat} (h : 0 < slabBytes) (remaining : Nat) :
    (chunkSizes slabBytes remaining).sum = remaining := by
  induction remaining using Nat.strong_induction_on with
  | _ remaining ih =>
    rw [chunkSizes]
    split
    · rw [List.sum_nil]
      omega
    · rw [List.sum_cons, ih _ (by omega)]
      omega

/-- The store of a daemon that just started. -/
def Store.Empty (s : Store) (totalBytes : Int) : Prop :=
  s.totalBytes = totalBytes ∧ s.tensors = [] ∧ s.next = 1

theorem fakeAllocator_empty {totalBytes slabBytes : Int} {a : Allocator (List Byte)}
    (h : fakeAllocator totalBytes slabBytes = .ok a) :
    Sound a ∧ (storeOf a).Empty totalBytes := by
  rw [fakeAllocator, fakeSlabs] at h
  split at h
  · cases h
  · next hpos =>
    rw [ok_bind] at h
    have hinv := Allocator.Inv.init h
    unfold Allocator.init at h
    split at h
    · cases h
    · cases h
      refine ⟨⟨hinv, ?_, show (0 : Int) < 64 by decide⟩, ?_, rfl, rfl⟩
      · intro slab hslab
        obtain ⟨size, -, rfl⟩ := List.mem_map.mp hslab
        exact List.length_replicate
      · simp only [storeOf, Allocator.totalBytes, List.map_map, Function.comp_def,
          fakeSlab, List.map_id']
        rw [sum_chunkSizes (by omega)]
        omega

/-! ## Serial runs -/

section

variable (py : Python) (registry : Registry (List Byte) κ) (figures : κ → Figures)
    (overlayId : String)

/-- The stores before and after every place of a run: a request is served as the store
    serves it, and nothing else changes the store. -/
def Serial (requests : Nat → Option (Message × Outcome)) (stores : Nat → Store) : Prop :=
  ∀ x, match requests x with
  | some (m, o) => Serves py registry figures overlayId m (stores x) o (stores (x + 1))
  | none => stores (x + 1) = stores x

/-- A request does not write a byte of a tensor. -/
structure Spares (handle : Int) (j : Nat) (m : Message) : Prop where
  upload : strOr py m.1 "op" "" = "UPLOAD_TENSOR" → requiredInt py m.1 "handle" = .ok handle →
    ∀ offset, intOr py m.1 "offset" 0 = .ok offset → ¬(offset ≤ j ∧ j < offset + m.2.length)
  graph : strOr py m.1 "op" "" = "RUN_GRAPH" → ∀ graphVersion ops outputs,
    graphArgs py m.1 = .ok (graphVersion, ops, outputs) → ¬∃ op ∈ ops, Writes py op handle

end

/-- A tensor, while it is there, has a byte in some place, and its handle is taken. -/
structure Keeps (handle : Int) (j : Nat) (v : Byte) (s : Store) : Prop where
  taken : handle < s.next
  byte : ∀ t ∈ s.tensors, (t.1 : Int) = handle → t.2.bytes[j]? = some v

/-- The handles of a store are taken. -/
def Store.Fresh (s : Store) : Prop := ∀ t ∈ s.tensors, t.1 < s.next

section

variable {py : Python} {registry : Registry (List Byte) κ} {figures : κ → Figures}
    {overlayId : String} {m : Message} {s s' : Store} {o : Outcome}

theorem Store.get_ok {handle : Int} {t : Nat × Tensor} (h : s.get handle = .ok t) :
    t ∈ s.tensors ∧ (t.1 : Int) = handle := by
  rw [Store.get] at h
  split at h
  · next hfind =>
    cases h
    exact ⟨List.mem_of_find?_eq_some hfind, by simpa using List.find?_some hfind⟩
  · cases h

theorem Store.range_ok {handle offset size : Int} {t : Nat × Tensor}
    (h : s.range handle offset size = .ok t) :
    s.get handle = .ok t ∧ 0 ≤ offset ∧ 0 ≤ size ∧ offset + size ≤ t.2.bytes.length := by
  obtain ⟨t', hget, h⟩ := ok_of_bind h
  split at h
  · cases h
  split at h
  · cases h
  split at h
  · cases h
  · cases h
    exact ⟨hget, by omega, by omega, by omega⟩

/-- An upload that is served writes its payload to the tensor that it names. -/
theorem Store.upload_ok {metadata : Dict} {payload : List Byte} {r : Dict × Store}
    (h : s.upload py metadata payload = .ok r) :
    ∃ handle offset t, requiredInt py metadata "handle" = .ok handle ∧
      intOr py metadata "offset" 0 = .ok offset ∧
      s.range handle offset payload.length = .ok t ∧
      r.2 = s.put (t.1, t.2.write offset.toNat payload) := by
  obtain ⟨handle, hhandle, h⟩ := ok_of_bind h
  obtain ⟨offset, hoffset, h⟩ := ok_of_bind h
  obtain ⟨t, hrange, h⟩ := ok_of_bind h
  cases h
  exact ⟨handle, offset, t, hhandle, hoffset, hrange, rfl⟩

theorem Store.download_ok {metadata : Dict} {r : Dict × List Byte}
    (h : s.download py metadata = .ok r) :
    ∃ handle offset size t, requiredInt py metadata "handle" = .ok handle ∧
      intOr py metadata "offset" 0 = .ok offset ∧
      requiredInt py metadata "size" = .ok size ∧ s.range handle offset size = .ok t ∧
      r.2 = (t.2.bytes.drop offset.toNat).take size.toNat := by
  obtain ⟨handle, hhandle, h⟩ := ok_of_bind h
  obtain ⟨offset, hoffset, h⟩ := ok_of_bind h
  obtain ⟨size, hsize, h⟩ := ok_of_bind h
  obtain ⟨t, hrange, h⟩ := ok_of_bind h
  cases h
  exact ⟨handle, offset, size, t, hhandle, hoffset, hsize, hrange, rfl⟩

theorem Store.free_ok {metadata : Dict} {r : Dict × Store} (h : s.free py metadata = .ok r) :
    ∃ t ∈ s.tensors, r.2 = s.remove t.1 := by
  obtain ⟨handle, hhandle, h⟩ := ok_of_bind h
  obtain ⟨t, hget, h⟩ := ok_of_bind h
  cases h
  exact ⟨t, (Store.get_ok hget).1, rfl⟩

/-- The bytes of a tensor after a write in range. -/
theorem getElem?_write {t : Tensor} {offset : Nat} {data : List Byte}
    (h : offset + data.length ≤ t.bytes.length) (j : Nat) :
    (t.write offset data).bytes[j]? =
      if offset ≤ j ∧ j < offset + data.length then data[j - offset]? else t.bytes[j]? := by
  have htake : (t.bytes.take offset).length = offset := by
    rw [List.length_take]
    omega
  rw [Tensor.write, List.append_assoc]
  by_cases hbefore : j < offset
  · rw [List.getElem?_append_left (by omega), List.getElem?_take_of_lt hbefore, if_neg (by omega)]
  rw [List.getElem?_append_right (by omega), htake]
  by_cases hin : j < offset + data.length
  · rw [List.getElem?_append_left (by omega), if_pos ⟨by omega, hin⟩]
  · rw [List.getElem?_append_right (by omega), List.getElem?_drop, if_neg (by omega)]
    congr 1
    omega

/-- What a request does to the store, if it changes it at all. -/
theorem Serves.cases_store (h : Serves py registry figures overlayId m s o s') :
    s' = s ∨
    (∃ t, s' = { s with tensors := s.tensors ++ [(s.next, t)], next := s.next + 1 }) ∨
    (∃ handle offset t, strOr py m.1 "op" "" = "UPLOAD_TENSOR" ∧
      requiredInt py m.1 "handle" = .ok handle ∧
      intOr py m.1 "offset" 0 = .ok offset ∧ s.range handle offset m.2.length = .ok t ∧
      s' = s.put (t.1, t.2.write offset.toNat m.2)) ∨
    (∃ t ∈ s.tensors, s' = s.remove t.1) ∨
    ∃ graphVersion ops outputs, strOr py m.1 "op" "" = "RUN_GRAPH" ∧
      graphArgs py m.1 = .ok (graphVersion, ops, outputs) ∧
      s.Ran py ops s' := by
  cases h with
  | hello _ | memory _ | badAlloc _ _ | refused _ _ _ | badGraph _ _ | unsupported _ =>
    exact Or.inl rfl
  | allocated _ _ _ _ _ _ _ _ _ => exact Or.inr (Or.inl ⟨_, rfl⟩)
  | upload hop hspec =>
    cases hupload : s.upload py m.1 m.2 with
    | error e =>
      rw [hupload] at hspec
      cases hspec
      exact Or.inl rfl
    | ok r =>
      rw [hupload] at hspec
      cases hspec
      obtain ⟨handle, offset, t, hhandle, hoffset, hrange, hr⟩ := Store.upload_ok hupload
      exact Or.inr (Or.inr (Or.inl ⟨handle, offset, t, hop, hhandle, hoffset, hrange, hr⟩))
  | download hop hspec =>
    cases hdownload : s.download py m.1 with
    | error e =>
      rw [hdownload] at hspec
      cases hspec
      exact Or.inl rfl
    | ok r =>
      rw [hdownload] at hspec
      cases hspec
      exact Or.inl rfl
  | free hop hspec =>
    cases hfree : s.free py m.1 with
    | error e =>
      rw [hfree] at hspec
      cases hspec
      exact Or.inl rfl
    | ok r =>
      rw [hfree] at hspec
      cases hspec
      exact Or.inr (Or.inr (Or.inr (Or.inl (Store.free_ok hfree))))
  | graph hop hargs hgraphed _ | graphRaised hop hargs hgraphed
  | missingOutput hop hargs hgraphed _ _ =>
    exact Or.inr (Or.inr (Or.inr (Or.inr ⟨_, _, _, hop, hargs, hgraphed.ran⟩)))

/-- A tensor of a graph comes from one that was there. -/
theorem Store.Ran.mem {ops : List Dict} (h : s.Ran py ops s') {t' : Nat × Tensor}
    (ht' : t' ∈ s'.tensors) :
    ∃ t ∈ s.tensors, Daemon.Ran py ops t t' := by
  obtain ⟨k, hk, rfl⟩ := List.mem_iff_getElem.mp ht'
  obtain ⟨hlen, hrel⟩ := List.forall₂_iff_get.mp h.2
  exact ⟨s.tensors[k], List.getElem_mem _, hrel k (by omega) hk⟩

theorem Store.Ran.next {ops : List Dict} (h : s.Ran py ops s') : s'.next = s.next := by
  have hnext := congrArg Store.next h.1
  exact hnext

/-- Handles stay taken. -/
theorem Serves.fresh (h : Serves py registry figures overlayId m s o s') (hs : s.Fresh) :
    s'.Fresh ∧ s.next ≤ s'.next := by
  rcases h.cases_store with rfl | ⟨t, rfl⟩ |
    ⟨handle, offset, t, -, -, -, hrange, rfl⟩ | ⟨t, -, rfl⟩ | ⟨_, ops, _, -, -, hran⟩
  · exact ⟨hs, Nat.le_refl _⟩
  · refine ⟨fun u hu => ?_, Nat.le_succ _⟩
    rcases List.mem_append.mp hu with hold | hnew
    · exact Nat.lt_succ_of_lt (hs u hold)
    · obtain rfl := List.mem_singleton.mp hnew
      exact Nat.lt_succ_self _
  · refine ⟨fun u hu => ?_, Nat.le_refl _⟩
    obtain ⟨u', hu', rfl⟩ := List.mem_map.mp hu
    have ht := (Store.get_ok (Store.range_ok hrange).1).1
    split
    · exact hs t ht
    · exact hs u' hu'
  · exact ⟨fun u hu => hs u (List.mem_of_mem_filter hu), Nat.le_refl _⟩
  · have hnext := hran.next
    refine ⟨fun u hu => ?_, Nat.le_of_eq hnext.symm⟩
    obtain ⟨t, ht, hrun⟩ := hran.mem hu
    rw [hrun.attributes, hnext]
    exact hs t ht

/-- A request that spares a byte keeps it. -/
theorem Serves.keeps (h : Serves py registry figures overlayId m s o s') {handle : Int}
    {j : Nat} {v : Byte}
    (hspares : Spares py handle j m) (hs : Keeps handle j v s) : Keeps handle j v s' := by
  rcases h.cases_store with rfl | ⟨t, rfl⟩ |
    ⟨named, offset, t, hop, hhandle, hoffset, hrange, rfl⟩ | ⟨t, -, rfl⟩ |
    ⟨graphVersion, ops, outputs, hop, hargs, hran⟩
  · exact hs
  · refine ⟨lt_of_lt_of_le hs.taken (Int.ofNat_le.mpr (Nat.le_succ _)), fun u hu heq => ?_⟩
    rcases List.mem_append.mp hu with hold | hnew
    · exact hs.byte u hold heq
    · -- the handle of a new tensor is not taken yet
      obtain rfl := List.mem_singleton.mp hnew
      exact absurd hs.taken (heq ▸ lt_irrefl _)
  · refine ⟨hs.taken, fun u hu heq => ?_⟩
    obtain ⟨hget, hpos, -, hend⟩ := Store.range_ok hrange
    obtain ⟨ht, hnamed⟩ := Store.get_ok hget
    obtain ⟨u', hu', rfl⟩ := List.mem_map.mp hu
    split at heq
    · next hsame =>
      simp only [if_pos hsame]
      have hout :=
        hspares.upload hop (by rw [hhandle, ← hnamed]; exact congrArg _ heq) offset hoffset
      rw [getElem?_write (by omega), if_neg (by omega)]
      exact hs.byte t ht heq
    · next hother =>
      simp only [if_neg hother]
      exact hs.byte u' hu' heq
  · exact ⟨hs.taken, fun u hu heq => hs.byte u (List.mem_of_mem_filter hu) heq⟩
  · have hnext := hran.next
    refine ⟨hnext ▸ hs.taken, fun u hu heq => ?_⟩
    obtain ⟨t, ht, hrun⟩ := hran.mem hu
    have hsame : (t.1 : Int) = handle := by
      rw [hrun.attributes] at heq
      exact heq
    rw [hrun.frame (hsame ▸ hspares.graph hop _ _ _ hargs)]
    exact hs.byte t ht hsame

theorem Serves.upload_eq (h : Serves py registry figures overlayId m s o s')
    (hop : strOr py m.1 "op" "" = "UPLOAD_TENSOR") :
    conclude s (fun r => (r.1, [])) Prod.snd (s.upload py m.1 m.2) = (o, s') := by
  cases h with
  | upload _ hspec => exact hspec
  | unsupported hnot => exact absurd (show "UPLOAD_TENSOR" ∈ RPC_OPS by decide) (hop ▸ hnot)
  | hello hop' | memory hop' | badAlloc hop' _
  | allocated hop' _ _ _ _ _ _ _ _ | refused hop' _ _ | download hop' _
  | free hop' _ | graph hop' _ _ _ | badGraph hop' _
  | graphRaised hop' _ _ | missingOutput hop' _ _ _ _ =>
    exact absurd (hop.symm.trans hop') (by decide)

theorem Serves.download_eq (h : Serves py registry figures overlayId m s o s')
    (hop : strOr py m.1 "op" "" = "DOWNLOAD_TENSOR") :
    conclude s id (fun _ => s) (s.download py m.1) = (o, s') := by
  cases h with
  | download _ hspec => exact hspec
  | unsupported hnot => exact absurd (show "DOWNLOAD_TENSOR" ∈ RPC_OPS by decide) (hop ▸ hnot)
  | hello hop' | memory hop' | badAlloc hop' _
  | allocated hop' _ _ _ _ _ _ _ _ | refused hop' _ _ | upload hop' _
  | free hop' _ | graph hop' _ _ _ | badGraph hop' _
  | graphRaised hop' _ _ | missingOutput hop' _ _ _ _ =>
    exact absurd (hop.symm.trans hop') (by decide)

/-- What an upload wrote is there after it. -/
theorem Serves.uploaded {answer : Dict × List Byte}
    (h : Serves py registry figures overlayId m s (.ok answer) s') (hs : s.Fresh)
    (hop : strOr py m.1 "op" "" = "UPLOAD_TENSOR") {handle offset : Int}
    (hhandle : requiredInt py m.1 "handle" = .ok handle)
    (hoffset : intOr py m.1 "offset" 0 = .ok offset) {j : Nat} {v : Byte} (hj : offset ≤ j)
    (hv : m.2[(j - offset).toNat]? = some v) : Keeps handle j v s' := by
  have hspec := h.upload_eq hop
  cases hupload : s.upload py m.1 m.2 with
  | error e =>
    rw [hupload] at hspec
    cases hspec
  | ok r =>
    rw [hupload] at hspec
    obtain ⟨-, rfl⟩ := Prod.mk.inj hspec
    obtain ⟨handle', offset', t, hhandle', hoffset', hrange, hr⟩ := Store.upload_ok hupload
    obtain rfl : handle' = handle := Except.ok.inj (hhandle'.symm.trans hhandle)
    obtain rfl : offset' = offset := Except.ok.inj (hoffset'.symm.trans hoffset)
    obtain ⟨hget, hpos, -, hend⟩ := Store.range_ok hrange
    obtain ⟨ht, hnamed⟩ := Store.get_ok hget
    have hlt := (List.getElem?_eq_some_iff.mp hv).1
    rw [hr]
    refine ⟨hnamed ▸ Int.ofNat_lt.mpr (hs t ht), fun u hu heq => ?_⟩
    obtain ⟨u', hu', rfl⟩ := List.mem_map.mp hu
    split
    · rw [getElem?_write (by omega), if_pos (by omega), ← hv]
      congr 1
      omega
    · next hother =>
      rw [if_neg hother] at heq
      exact absurd (Int.ofNat_inj.mp (heq.trans hnamed.symm)) hother

/-- A download has as many bytes as it asks for, and in each place what the tensor has there. -/
theorem Serves.downloaded {result : Dict} {payload : List Byte}
    (h : Serves py registry figures overlayId m s (.ok (result, payload)) s')
    (hop : strOr py m.1 "op" "" = "DOWNLOAD_TENSOR") {handle offset size : Int}
    (hhandle : requiredInt py m.1 "handle" = .ok handle)
    (hoffset : intOr py m.1 "offset" 0 = .ok offset)
    (hsize : requiredInt py m.1 "size" = .ok size) :
    (payload.length : Int) = size ∧ ∀ (j : Nat) (v : Byte), Keeps handle j v s → offset ≤ j →
      j < offset + size →
      payload[(j - offset).toNat]? = some v := by
  have hspec := h.download_eq hop
  cases hdownload : s.download py m.1 with
  | error e =>
    rw [hdownload] at hspec
    cases hspec
  | ok r =>
    rw [hdownload] at hspec
    obtain ⟨hr, -⟩ := Prod.mk.inj hspec
    obtain ⟨handle', offset', size', t, hhandle', hoffset', hsize', hrange, hbytes⟩ :=
      Store.download_ok hdownload
    obtain rfl : handle' = handle := Except.ok.inj (hhandle'.symm.trans hhandle)
    obtain rfl : offset' = offset := Except.ok.inj (hoffset'.symm.trans hoffset)
    obtain rfl : size' = size := Except.ok.inj (hsize'.symm.trans hsize)
    obtain rfl : r = (result, payload) := Except.ok.inj hr
    simp only at hbytes
    obtain ⟨hget, hpos, hnonneg, hend⟩ := Store.range_ok hrange
    obtain ⟨ht, hnamed⟩ := Store.get_ok hget
    refine ⟨?_, fun j v hkeeps hj hlt => ?_⟩
    · rw [hbytes, List.length_take, List.length_drop]
      omega
    · rw [hbytes, List.getElem?_take_of_lt (by omega), List.getElem?_drop,
        ← hkeeps.byte t ht hnamed]
      congr 1
      omega

end

/-! ### Runs -/

section

variable {py : Python} {registry : Registry (List Byte) κ} {figures : κ → Figures}
    {overlayId : String} {requests : Nat → Option (Message × Outcome)}
  {stores : Nat → Store}

theorem Serial.fresh (h : Serial py registry figures overlayId requests stores)
    (hstart : (stores 0).Fresh) (x : Nat) :
    (stores x).Fresh := by
  induction x with
  | zero => exact hstart
  | succ x ih =>
    have hstep := h x
    split at hstep
    · exact (Serves.fresh hstep ih).1
    · rw [hstep]
      exact ih

theorem Serial.keeps (h : Serial py registry figures overlayId requests stores) {handle : Int}
    {j : Nat} {v : Byte} {x y : Nat} (hxy : x ≤ y) (hx : Keeps handle j v (stores x))
    (hspares : ∀ z, x ≤ z → z < y → ∀ m o, requests z = some (m, o) → Spares py handle j m) :
    Keeps handle j v (stores y) := by
  induction y, hxy using Nat.le_induction with
  | base => exact hx
  | succ y hxy ih =>
    have hbefore := ih fun z hxz hzy => hspares z hxz (Nat.lt_succ_of_lt hzy)
    have hstep := h y
    split at hstep
    · next m o hm => exact Serves.keeps hstep (hspares y hxy (Nat.lt_succ_self y) m o hm) hbefore
    · rw [hstep]
      exact hbefore

/-- A byte of a download is the one that was uploaded, if no request writes it in between. -/
theorem Serial.download_last (h : Serial py registry figures overlayId requests stores)
    (hstart : (stores 0).Fresh)
    {x y : Nat} (hxy : x < y) {m m' : Message} {answer answer' : Dict × List Byte}
    (hx : requests x = some (m, .ok answer))
    (hy : requests y = some (m', .ok answer')) (hop : strOr py m.1 "op" "" = "UPLOAD_TENSOR")
    (hop' : strOr py m'.1 "op" "" = "DOWNLOAD_TENSOR") {handle offset offset' size : Int}
    (hhandle : requiredInt py m.1 "handle" = .ok handle)
    (hhandle' : requiredInt py m'.1 "handle" = .ok handle)
    (hoffset : intOr py m.1 "offset" 0 = .ok offset)
    (hoffset' : intOr py m'.1 "offset" 0 = .ok offset')
    (hsize : requiredInt py m'.1 "size" = .ok size) {j : Nat} (hj : offset ≤ j)
    (hlt : j < offset + m.2.length) (hj' : offset' ≤ j) (hlt' : j < offset' + size)
    (hspares : ∀ z, x < z → z < y → ∀ m o, requests z = some (m, o) → Spares py handle j m) :
    answer'.2[(j - offset').toNat]? = m.2[(j - offset).toNat]? := by
  have hstep := h x
  rw [hx] at hstep
  have hstep' := h y
  rw [hy] at hstep'
  have hv : m.2[(j - offset).toNat]? = some m.2[(j - offset).toNat] :=
    List.getElem?_eq_getElem (by omega)
  have huploaded := Serves.uploaded hstep (h.fresh hstart x) hop hhandle hoffset hj hv
  have hkept := h.keeps hxy huploaded fun z hxz hzy => hspares z hxz hzy
  rw [hv]
  exact (Serves.downloaded hstep' hop' hhandle' hoffset' hsize).2 j _ hkept hj' hlt'

end

/-! ## Every history is a serial run -/

section

variable (py : Python) {registry : Registry (List Byte) κ}
    (hk : ∀ kernel ∈ registry, kernel.Sound py) (figures : κ → Figures)
  (overlayId : String)

/-- The execution that a place of a history records. -/
def executedAt (h : List Event) (x : Nat) : Option (Message × Outcome) :=
  match h[x]? with
  | some (.executed _ _ m o) => some (m, o)
  | _ => none

theorem executedAt_executed {h : List Event} {x c n : Nat} {m : Message} {o : Outcome}
    (hx : h[x]? = some (.executed c n m o)) : executedAt h x = some (m, o) := by
  rw [executedAt, hx]

theorem executedAt_eq_some {h : List Event} {x : Nat} {m : Message} {o : Outcome}
    (hx : executedAt h x = some (m, o)) :
    ∃ c n, h[x]? = some (.executed c n m o) := by
  rw [executedAt] at hx
  split at hx
  · next c n m' o' hevent =>
    cases hx
    exact ⟨c, n, hevent⟩
  · cases hx

/-- What one more event makes of the runtime. -/
theorem stateAfter_take_succ {σ : Type} (body : Message → Wire.Body σ Outcome) (runtime : σ)
    (h : List Event) (x : Nat) :
    stateAfter body runtime (h.take (x + 1)) =
      match executedAt h x with
      | some (m, _) => ((body m).run (stateAfter body runtime (h.take x))).2
      | none => stateAfter body runtime (h.take x) := by
  rw [List.take_add_one, stateAfter, List.foldl_append, ← stateAfter, executedAt]
  cases hx : h[x]? with
  | none => rfl
  | some e => cases e <;> rfl

variable {b : Machine (List Byte) κ} (h : Sound b.allocator)

include hk h

theorem stateAfter_sound (history : List Event) (x : Nat) :
    Sound (stateAfter (body py registry figures fakeIo overlayId) b
      (history.take x)).allocator := by
  induction x with
  | zero =>
    rw [List.take_zero]
    exact h
  | succ x ih =>
    rw [stateAfter_take_succ]
    split
    · next m o hm => exact (serve_refines ih hk figures overlayId m).1
    · exact ih

/-- The executions of a history are a serial run. -/
theorem stateAfter_serial (history : List Event)
    (houtcome : ∀ (x c n : Nat) (m : Message) (o : Outcome),
      history[x]? = some (.executed c n m o) →
        o = ((body py registry figures fakeIo overlayId m).run
          (stateAfter (body py registry figures fakeIo overlayId) b (history.take x))).1) :
    Serial py registry figures overlayId (executedAt history)
      fun x => storeOf
        (stateAfter (body py registry figures fakeIo overlayId) b (history.take x)).allocator := by
  intro x
  have hsound := stateAfter_sound py hk figures overlayId h history x
  simp only [stateAfter_take_succ _ _ history x]
  split
  · next m o hm =>
    obtain ⟨c, n, hx⟩ := executedAt_eq_some hm
    rw [houtcome x c n m o hx]
    exact (serve_refines hsound hk figures overlayId m).2
  · rfl

end

/-- A daemon with one slab and the PS kernels. -/
def plainRegistry : Registry (List Byte) Unit :=
  Native.registerAll plainPython Native.plainLibrary []

def noFigures (_ : Unit) : Figures := ⟨0, 0, 0⟩

def oneSlab : Allocator (List Byte) := ⟨[fakeSlab 128], [[(0, 128)]], [], 1, 64⟩

theorem fakeAllocator_oneSlab : fakeAllocator 128 128 = .ok oneSlab := by
  have hsizes : chunkSizes 128 128 = [128] := by
    rw [chunkSizes, dif_neg (by decide), chunkSizes, dif_pos (by decide)]
    rfl
  rw [fakeAllocator, fakeSlabs, if_neg (by decide), show (128 : Int).toNat = 128 from rfl, hsizes]
  rfl

def allocFields : Dict := object [("nbytes", .int 4)]

def allocRequest : Wire.Request := ⟨"ALLOC_TENSOR", .obj allocFields, .null 0⟩

def allocMetadata : Dict := Wire.requestMetadata allocFields 1 "ALLOC_TENSOR"

def allocAnswer : Dict :=
  object
    [("tensor", .obj (object [("handle", .int 1), ("nbytes", .int 4), ("shape", .arr []),
      ("dtype", .str "u8"),
    ("usage", .str "tensor"), ("layout", .str "raw"), ("extent_count", .int 1)]))]

def allocText : String := "\x7b\"id\":1,\"nbytes\":4,\"op\":\"ALLOC_TENSOR\"\x7d"

def allocReplyText : String :=
  "\x7b\"id\":1,\"ok\":true,\"result\":\x7b\"tensor\":\x7b\"handle\":1,\"nbytes\":4,\"shape\":[],\"dtype\":\"u8\"," ++
    "\"usage\":\"tensor\",\"layout\":\"raw\",\"extent_count\":1\x7d\x7d\x7d"

open Classical in
/-- The JSON module of the daemon on these two texts. -/
noncomputable def allocJson : JsonText where
  dumps v := if v = .obj (Wire.okReply (.int 1) allocAnswer) then allocReplyText else ""
  loads text := if text = allocText then .ok (.obj allocMetadata)
    else .error (.decode "Expecting value")

open Classical in
/-- The JSON library of the client on these two texts. -/
noncomputable def allocCpp : CppJson where
  dump v := if v = .obj allocMetadata then some (Wire.encodeUtf8 allocText) else none
  parse raw :=
    if raw = Wire.encodeUtf8 allocReplyText then .ok (.obj (Wire.okReply (.int 1) allocAnswer))
    else .error "parse error"
  eqId v id := match v with
    | .int n => n == id
    | _ => false
  toDouble _ := 0

theorem alloc_dumps :
    allocJson.dumps (.obj (Wire.okReply (.int 1) allocAnswer)) = allocReplyText := if_pos rfl

theorem alloc_loads : allocJson.loads allocText = .ok (.obj allocMetadata) := by
  simp only [allocJson, if_true]

theorem alloc_parse (raw : List Byte) (h : raw ≠ Wire.encodeUtf8 allocReplyText) :
    allocCpp.parse raw = .error "parse error" := by
  simp only [allocCpp, if_neg h]

theorem alloc_parse_reply :
    allocCpp.parse (Wire.encodeUtf8 allocReplyText) =
      .ok (.obj (Wire.okReply (.int 1) allocAnswer)) := by
  simp only [allocCpp, if_true]

/-- An object of values that the client reads as they are. -/
theorem sameJson_object {toDouble : Int → BitVec 64} {entries : List (String × Json)}
    (h : ∀ e ∈ entries, SameJson toDouble e.2 e.2) :
    SameJson toDouble (.obj (object entries)) (.obj (object entries)) := by
  refine .obj fun key => ?_
  rw [object]
  cases hfind : entries.find? fun e => e.1 == key with
  | none => exact .none
  | some e => exact .some (h e (List.mem_of_find?_eq_some hfind))

theorem alloc_interoperable : Interoperable allocJson allocCpp := by
  have hint : ∀ n : Int, -2 ^ 63 ≤ n → n < 2 ^ 64 →
      SameJson allocCpp.toDouble (.int n) (.int n) := .int
  have hanswer : SameJson allocCpp.toDouble (.obj allocAnswer) (.obj allocAnswer) := by
    refine sameJson_object fun e he => ?_
    obtain rfl := List.mem_singleton.mp he
    refine sameJson_object fun e he => ?_
    simp only [List.mem_cons, List.not_mem_nil, or_false] at he
    rcases he with rfl | rfl | rfl | rfl | rfl | rfl | rfl
    · exact hint 1 (by decide) (by decide)
    · exact hint 4 (by decide) (by decide)
    · exact .arr .nil
    · exact .str _
    · exact .str _
    · exact .str _
    · exact hint 1 (by decide) (by decide)
  intro v w hw
  by_cases hv : v = .obj (Wire.okReply (.int 1) allocAnswer)
  · rw [hv, alloc_dumps, alloc_parse_reply] at hw
    cases hw
    rw [hv]
    refine .obj fun key => ?_
    rw [Wire.okReply]
    split
    · exact .some (hint 1 (by decide) (by decide))
    · split
      · exact .some (.bool true)
      · split
        · exact .some hanswer
        · exact .none
  · have hdumps : allocJson.dumps v = "" := if_neg hv
    rw [hdumps, alloc_parse _ (by decide)] at hw
    cases hw

section

variable (py : Python) (registry : Registry (List Byte) κ) (figures : κ → Figures)
    (overlayId : String)

/-- The outcomes of some requests, served one after the other, and the machine after them. -/
def serveAll : List Message → Machine (List Byte) κ → List Outcome × Machine (List Byte) κ
  | [], b => ([], b)
  | m :: rest, b =>
    let served := serve py registry figures fakeIo overlayId m b
    let later := serveAll rest served.2
    (served.1 :: later.1, later.2)

variable {py registry}

theorem serveAll_serial (hk : ∀ kernel ∈ registry, kernel.Sound py) (ms : List Message)
    {b : Machine (List Byte) κ} (h : Sound b.allocator) :
    ∃ stores : Nat → Store, stores 0 = storeOf b.allocator ∧
      Serial py registry figures overlayId
        (fun x => (ms.zip (serveAll py registry figures overlayId ms b).1)[x]?) stores := by
  induction ms generalizing b with
  | nil => exact ⟨fun _ => storeOf b.allocator, rfl, fun x => rfl⟩
  | cons m ms ih =>
    obtain ⟨hsound, hserves⟩ := serve_refines h hk figures overlayId m
    obtain ⟨stores, hstart, hserial⟩ := ih hsound
    refine ⟨fun x => Nat.casesOn x (storeOf b.allocator) stores, rfl, fun x => ?_⟩
    cases x with
    | zero =>
      simp only [serveAll, List.zip_cons_cons, List.getElem?_cons_zero, hstart]
      exact hserves
    | succ x => exact hserial x

end

/-! ## Graphs of the PS kernels -/

/-- A program ends in a machine, and no C function has stepped outside of its buffers. -/
def EndsIn {α : Type} (p : Work (List Byte) κ α) (b b' : Machine (List Byte) κ) : Prop :=
  (∃ x, p.run b = .ok x b') ∨ ∃ e, p.run b = .error e b' ∧ e ≠ Ps.overrun

/-- The machines after some requests, in none of which a C function has stepped outside of its
    buffers. -/
inductive Served (py : Python) (registry : Registry (List Byte) κ) (figures : κ → Figures)
    (overlayId : String) (b : Machine (List Byte) κ) : Machine (List Byte) κ → Prop
  | start : Served py registry figures overlayId b b
  | request {b₁ b₂ : Machine (List Byte) κ} (m : Message) :
      Served py registry figures overlayId b b₁ →
      EndsIn (handle py registry figures fakeIo overlayId m) b₁ b₂ →
      Served py registry figures overlayId b b₂

section

variable {py : Python} {registry : Registry (List Byte) κ} {figures : κ → Figures}
  {overlayId : String} {b b' : Machine (List Byte) κ}

theorem EndsIn.after {α : Type} {p : Work (List Byte) κ α} (h : EndsIn p b b') :
    Daemon.after p b = b' := by
  rw [Daemon.after]
  rcases h with ⟨x, hrun⟩ | ⟨e, hrun, -⟩
  · rw [hrun]
  · rw [hrun]

theorem EndsIn.serve {m : Message}
    (h : EndsIn (handle py registry figures fakeIo overlayId m) b b') :
    (serve py registry figures fakeIo overlayId m b).2 = b' := by
  rcases h with ⟨answer, hrun⟩ | ⟨e, hrun, -⟩
  · rw [serve_ok hrun]
  · rw [serve_error hrun]

theorem Served.sound (h : Served py registry figures overlayId b b')
    (hk : ∀ kernel ∈ registry, kernel.Sound py) (hb : Sound b.allocator) : Sound b'.allocator := by
  induction h with
  | start => exact hb
  | request m _ hends ih =>
    rw [← hends.serve]
    exact (serve_refines ih hk figures overlayId m).1

/-- Requests served one after the other, none of them with an overrun. -/
theorem Served.serveAll {ms : List Message}
    (h : .error (raised Ps.overrun) ∉ (serveAll py registry figures overlayId ms b').1)
    (hb : Served py registry figures overlayId b b') :
    Served py registry figures overlayId b (serveAll py registry figures overlayId ms b').2 := by
  induction ms generalizing b' with
  | nil => exact hb
  | cons m ms ih =>
    obtain ⟨hfirst, hrest⟩ := not_or.mp (mt List.mem_cons.mpr h)
    refine ih hrest (hb.request m ?_)
    simp only [serve] at hfirst ⊢
    cases hrun : (handle py registry figures fakeIo overlayId m).run b' with
    | ok answer b₂ => exact Or.inl ⟨answer, hrun⟩
    | error e b₂ =>
      refine Or.inr ⟨e, hrun, ?_⟩
      rintro rfl
      rw [hrun] at hfirst
      exact hfirst rfl

end

/-- A graph of the kernels of `register_all`, after any requests to a daemon on fake slabs:
    whether it returns or raises, and wherever it raises, nothing of the allocator changes but
    bytes of its slabs, and of these no other ones than those of the tensors that the ops of the
    graph name as `dst`; this as long as no C function steps outside of its buffers. -/
theorem graph_destinations (py : Python) (lib : Native.Library) (figures : κ → Figures)
    (overlayId : String) {totalBytes slabBytes : Int} {a₀ : Allocator (List Byte)}
    (hinit : fakeAllocator totalBytes slabBytes = .ok a₀) {kernels : κ}
    {b b' : Machine (List Byte) κ}
    (hserved : Served py (Native.registerAll py lib []) figures overlayId ⟨a₀, kernels⟩ b)
    {metadata : Dict} {graphVersion : Int} {ops : List Dict} {outputs : List Int}
    (hargs : graphArgs py metadata = .ok (graphVersion, ops, outputs))
    (hends : EndsIn (runGraph py (Native.registerAll py lib []) figures metadata) b b') :
    Board.Touched (Named b.allocator (Dsts py ops)) b.allocator b'.allocator := by
  have hk : ∀ k ∈ (Native.registerAll py lib [] : Registry (List Byte) κ), k.Sound py :=
    Native.registerAll_sound py lib
  have hstart : Sound (⟨a₀, kernels⟩ : Machine (List Byte) κ).allocator :=
    (fakeAllocator_empty hinit).1
  rw [← hends.after]
  exact runGraph_touched hk (hserved.sound hk hstart) figures hargs

/-! ### A graph that raises in its third op -/

def allocFour : Message :=
  (object [("op", .str "ALLOC_TENSOR"), ("nbytes", .int 4), ("alignment", .int 4)], [])

def destinationRequests : List Message := [allocFour, allocFour, allocFour,
  (object [("op", .str "UPLOAD_TENSOR"), ("handle", .int 1)], [1, 2, 3, 4])]

def copyFields (src dst : Int) : Dict :=
  object [("op", .str "COPY"), ("nbytes", .int 4), ("src", .int src), ("dst", .int dst)]

def destinationGraph : Dict :=
  object [("graph_version", .int 1),
    ("ops", .arr [.obj (copyFields 1 2), .obj (copyFields 2 1), .obj (copyFields 1 9)])]

def destinationMachine : Machine (List Byte) Unit :=
  (serveAll plainPython plainRegistry noFigures "fake-local" destinationRequests ⟨oneSlab, ()⟩).2

/-- The third copy names no tensor. -/
theorem destinationGraph_raises :
    ∃ e b, (runGraph plainPython plainRegistry noFigures destinationGraph).run destinationMachine =
      .error e b ∧ e ≠ Ps.overrun := by
  have hraises : (match (runGraph plainPython plainRegistry noFigures destinationGraph).run
      destinationMachine with
      | .ok _ _ => false
      | .error e _ => decide (e ≠ Ps.overrun)) = true := by decide +kernel
  cases hrun : (runGraph plainPython plainRegistry noFigures destinationGraph).run
    destinationMachine with
  | ok result b =>
    rw [hrun] at hraises
    cases hraises
  | error e b =>
    rw [hrun] at hraises
    exact ⟨e, b, rfl, of_decide_eq_true hraises⟩

theorem destinationRequests_served :
    Served plainPython plainRegistry noFigures "fake-local" ⟨oneSlab, ()⟩ destinationMachine := by
  refine Served.serveAll (fun hmem => ?_) .start
  have hok :
      ((serveAll plainPython plainRegistry noFigures "fake-local" destinationRequests
        ⟨oneSlab, ()⟩).1.all
      fun o => match o with
        | .ok _ => true
        | .error _ => false) = true := by decide +kernel
  exact absurd (List.all_eq_true.mp hok _ hmem) (by decide)

/-- The graph fails after its second copy, and the third tensor keeps its bytes. -/
theorem graph_destinations_raises :
    ∃ e b, (runGraph plainPython plainRegistry noFigures destinationGraph).run
      destinationMachine = .error e b ∧
      ∃ r ∈ destinationMachine.allocator.records, r.handle = 3 ∧ ∀ loc ∈ Board.locations r.extents,
        Board.byteAt b.allocator loc = Board.byteAt destinationMachine.allocator loc := by
  obtain ⟨e, b, hraises, hinside⟩ := destinationGraph_raises
  have htouched := graph_destinations plainPython Native.plainLibrary noFigures "fake-local"
    fakeAllocator_oneSlab destinationRequests_served
    (show graphArgs plainPython destinationGraph =
      .ok (1, [copyFields 1 2, copyFields 2 1, copyFields 1 9], []) from rfl)
    (Or.inr ⟨e, hraises, hinside⟩)
  have hk : ∀ k ∈ plainRegistry, k.Sound plainPython :=
    Native.registerAll_sound plainPython Native.plainLibrary
  have hstart : Sound (⟨oneSlab, ()⟩ : Machine (List Byte) Unit).allocator :=
    (fakeAllocator_empty fakeAllocator_oneSlab).1
  have hsound := destinationRequests_served.sound hk hstart
  have hthree : (destinationMachine.allocator.lookup 3).isSome = true := by decide +kernel
  obtain ⟨r, hr⟩ := Option.isSome_iff_exists.mp hthree
  obtain ⟨hmem, hhandle⟩ := Board.lookup_eq_some hr
  refine ⟨e, b, hraises, r, hmem, by omega, fun loc hloc => htouched.frame loc ?_⟩
  rintro ⟨r', hr', ⟨op, hop, value, hvalue, hint⟩, hloc'⟩
  by_cases hsame : r' = r
  · -- no op names the third tensor
    subst hsame
    rw [hhandle] at hint
    simp only [List.mem_cons, List.not_mem_nil, or_false] at hop
    rcases hop with rfl | rfl | rfl <;> cases hvalue <;> cases hint
  · exact (hsound.inv.separate hmem).2 r' hr' hsame loc hloc' hloc

/-- A download has the size it asks for, and in every place the byte that was uploaded
    there last, however the tensor lies in the slabs and whatever else was requested in
    between: other tensors, parts of this one, graphs that do not write it, requests that
    fail. This for kernels that write no tensor but the `dst` of their op (`Kernel.Sound`), as
    those of `register_all` do. -/
theorem download_last_uploaded {py : Python} {registry : Registry (List Byte) κ}
    (hk : ∀ kernel ∈ registry, kernel.Sound py)
    (figures : κ → Figures) (overlayId : String) {totalBytes slabBytes : Int}
    {a₀ : Allocator (List Byte)}
    (hinit : fakeAllocator totalBytes slabBytes = .ok a₀) (kernels : κ) (ms : List Message)
    {x y : Nat} (hxy : x < y)
    {m m' : Message} {answer answer' : Dict × List Byte} (hx : ms[x]? = some m)
    (hy : ms[y]? = some m')
    (hok : (serveAll py registry figures overlayId ms ⟨a₀, kernels⟩).1[x]? = some (.ok answer))
    (hok' : (serveAll py registry figures overlayId ms ⟨a₀, kernels⟩).1[y]? = some (.ok answer'))
    (hop : strOr py m.1 "op" "" = "UPLOAD_TENSOR")
    (hop' : strOr py m'.1 "op" "" = "DOWNLOAD_TENSOR")
    {handle offset offset' size : Int} (hhandle : requiredInt py m.1 "handle" = .ok handle)
    (hhandle' : requiredInt py m'.1 "handle" = .ok handle)
    (hoffset : intOr py m.1 "offset" 0 = .ok offset)
    (hoffset' : intOr py m'.1 "offset" 0 = .ok offset')
    (hsize : requiredInt py m'.1 "size" = .ok size) :
    (answer'.2.length : Int) = size ∧
      ∀ j : Nat, offset ≤ j → j < offset + m.2.length → offset' ≤ j → j < offset' + size →
        (∀ z m'', x < z → z < y → ms[z]? = some m'' → Spares py handle j m'') →
          answer'.2[(j - offset').toNat]? = m.2[(j - offset).toNat]? := by
  obtain ⟨hsound, hempty⟩ := fakeAllocator_empty hinit
  have hrun : Sound (⟨a₀, kernels⟩ : Machine (List Byte) κ).allocator := hsound
  obtain ⟨stores, hstart, hserial⟩ := serveAll_serial figures overlayId hk ms hrun
  have hfresh : (stores 0).Fresh := by
    intro t ht
    rw [hstart, hempty.2.1] at ht
    cases ht
  have hrequest := (List.getElem?_zip_eq_some (z := (m, Except.ok answer))).mpr ⟨hx, hok⟩
  have hrequest' := (List.getElem?_zip_eq_some (z := (m', Except.ok answer'))).mpr ⟨hy, hok'⟩
  refine ⟨?_, fun j hj hlt hj' hlt' hspares => ?_⟩
  · have hstep := hserial y
    simp only [hrequest'] at hstep
    exact (Serves.downloaded hstep hop' hhandle' hoffset' hsize).1
  · refine hserial.download_last hfresh hxy hrequest hrequest' hop hop' hhandle hhandle' hoffset
      hoffset' hsize hj hlt hj' hlt' ?_
    intro z hxz hzy m'' o hz
    exact hspares z m'' hxz hzy (List.getElem?_zip_eq_some.mp hz).1

/-! ### Two uploads, a copy and a download -/

def storeRequests : List Message := [
  (object [("op", .str "ALLOC_TENSOR"), ("nbytes", .int 4)], []),
  (object [("op", .str "ALLOC_TENSOR"), ("nbytes", .int 4)], []),
  (object [("op", .str "UPLOAD_TENSOR"), ("handle", .int 1)], [1, 2, 3, 4]),
  (object [("op", .str "RUN_GRAPH"), ("graph_version", .int 1),
    ("ops", .arr [.obj (object [("op", .str "COPY"), ("nbytes", .int 4), ("src", .int 1),
      ("dst", .int 2)])])], []),
  (object [("op", .str "UPLOAD_TENSOR"), ("handle", .int 1), ("offset", .int 3)], [9]),
  (object [("op", .str "DOWNLOAD_TENSOR"), ("handle", .int 1), ("offset", .int 1),
    ("size", .int 2)], [])]

/-- Four slabs of two bytes. -/
def smallSlabs : Allocator (List Byte) :=
  ⟨[2, 2, 2, 2].map fakeSlab, [[(0, 2)], [(0, 2)], [(0, 2)], [(0, 2)]], [], 1, 64⟩

theorem fakeAllocator_smallSlabs : fakeAllocator 8 2 = .ok smallSlabs := by
  have hsizes : chunkSizes 2 8 = [2, 2, 2, 2] := by
    rw [chunkSizes, dif_neg (by decide), chunkSizes, dif_neg (by decide), chunkSizes,
      dif_neg (by decide), chunkSizes, dif_neg (by decide), chunkSizes, dif_pos (by decide)]
    rfl
  rw [fakeAllocator, fakeSlabs, if_neg (by decide), show (8 : Int).toNat = 8 from rfl,
    show (2 : Int).toNat = 2 from rfl, hsizes]
  rfl

def storeRun : List Outcome × Machine (List Byte) Unit :=
  serveAll plainPython plainRegistry noFigures "fake-local" storeRequests ⟨smallSlabs, ()⟩

def storeOutcomes : List Outcome := storeRun.1

/-- The payload of an answer. -/
def payloadOf : Outcome → Option (List Byte)
  | .ok answer => some answer.2
  | .error _ => none

theorem answered (x : Nat) (payload : List Byte)
    (h : storeOutcomes[x]?.bind payloadOf = some payload) :
    ∃ answer, storeOutcomes[x]? = some (.ok answer) ∧ answer.2 = payload := by
  obtain ⟨o, ho, hpayload⟩ := Option.bind_eq_some_iff.mp h
  cases o with
  | ok answer => exact ⟨answer, ho, Option.some.inj hpayload⟩
  | error e => cases hpayload

/-- The copy writes the second tensor, and the second upload another byte. -/
theorem storeRequests_spare {j : Nat} (hj : j < 3) (z : Nat) (m : Message)
    (hlt : 2 < z) (hlt' : z < 5) (hz : storeRequests[z]? = some m) : Spares plainPython 1 j m := by
  rcases (show z = 3 ∨ z = 4 by omega) with rfl | rfl
  · cases hz
    refine ⟨fun hop => absurd hop (by decide), fun _ graphVersion ops outputs hargs => ?_⟩
    have hops : ops =
        [object [("op", .str "COPY"), ("nbytes", .int 4), ("src", .int 1), ("dst", .int 2)]] := by
      cases hargs
      rfl
    rintro ⟨op, hop, value, hvalue, hint⟩
    rw [hops, List.mem_singleton] at hop
    subst hop
    cases hvalue
    cases hint
  · cases hz
    refine ⟨fun _ _ offset hoffset => ?_, fun hop => absurd hop (by decide)⟩
    obtain rfl : offset = 3 := (Except.ok.inj hoffset).symm
    omega

/-- A download after the two uploads and the copy has the bytes of the first upload, one from the
    end of a slab and one from the start of the next one. -/
theorem download_last_uploaded_copy :
    (storeRun.2.allocator.lookup 1).map Board.TensorRecord.extents = some [⟨0, 0, 2⟩, ⟨1, 0, 2⟩] ∧
    ∃ answer, storeOutcomes[5]? = some (.ok answer) ∧ (answer.2.length : Int) = 2 ∧
      answer.2[0]? = some 2 ∧ answer.2[1]? = some 3 := by
  obtain ⟨answer, hok, -⟩ := answered 2 [] (by decide +kernel)
  obtain ⟨answer', hok', -⟩ := answered 5 [2, 3] (by decide +kernel)
  obtain ⟨hlength, hbytes⟩ :=
    download_last_uploaded (Native.registerAll_sound plainPython Native.plainLibrary) noFigures
      "fake-local" fakeAllocator_smallSlabs ()
      storeRequests (show 2 < 5 by decide) rfl rfl hok hok' (by decide) (by decide)
      (show requiredInt plainPython _ "handle" = .ok 1 from rfl) rfl
        (show intOr plainPython _ "offset" 0 = .ok 0 from rfl)
      (show intOr plainPython _ "offset" 0 = .ok 1 from rfl)
        (show requiredInt plainPython _ "size" = .ok 2 from rfl)
  exact ⟨by decide +kernel, answer', hok', hlength,
    hbytes 1 (by decide) (by decide) (by decide) (by decide) (storeRequests_spare (by decide)),
    hbytes 2 (by decide) (by decide) (by decide) (by decide) (storeRequests_spare (by decide))⟩

end Daemon
