-- SUMMARY: A matmul on the board, from the packed weights to the bytes of dst: every element is a row times a column in the arithmetic of the RTL.
import BonsaiTpu.Board.Fpga
import BonsaiTpu.Ps.Rows

/-!
# The product in memory

The slabs and the buffers of the driver are areas of the memory that do not overlap. Each
pass of the chunk loop leaves the bytes of its rows in dst and anything in the buffers;
the passes of all columns leave the product.
-/

namespace Board.Matmul

open Layout (Q1_BLOCK ROWS_PER_BLOCK)
open Ram (poke peek pokeAt Agrees)

/-! ## Areas of the memory -/

/-- A part of the memory that the driver uses. -/
inductive Area where
  | slab (i : Nat)
  | acts
  | weightsDma
  | result
  | actsIn

section

variable {σ : Type} (d : Driver) (a : Allocator σ) (b : Buffers)

def Area.start : Area → Nat
  | .slab i => (d.pynqBuffer i).getD 0
  | .acts => startOf b.acts
  | .weightsDma => startOf b.weightsDma
  | .result => startOf b.result
  | .actsIn => startOf b.actsIn

def Area.size : Area → Nat
  | .slab i => ((a.slabs[i]?).map Slab.size).getD 0
  | .acts => sizeOf b.acts
  | .weightsDma => sizeOf b.weightsDma
  | .result => sizeOf b.result
  | .actsIn => sizeOf b.actsIn

def Area.Has (area : Area) (x : Nat) : Prop :=
  area.start d b ≤ x ∧ x < area.start d b + area.size a b

/-- The slabs and the buffers lie beside each other, at addresses of 32 bits. -/
structure Placed : Prop where
  apart : ∀ (area area' : Area) (x : Nat), area.Has d a b x → area'.Has d a b x → area = area'
  inWord : ∀ area : Area, area.start d b + area.size a b < 2 ^ 32

/-- The user-space addresses of the slabs and of the copy of the activations are those of the same
    bytes. -/
structure Mapped (pf : Platform) : Prop where
  slabs : ∀ i slab va, a.slabs[i]? = some slab → d.baseVa i = some va →
    ∀ o < slab.size, pf.translate (va + o) = address d (i, o)
  actsIn : ∀ buffer, b.actsIn = some buffer →
    ∀ o < buffer.size, pf.translate (buffer.data + o) = buffer.physicalAddress + o

/-- What a pass may leave anything in, and what a column may. -/
def InBuffers (x : Nat) : Prop := Area.weightsDma.Has d a b x ∨ Area.result.Has d a b x

def InScratch (x : Nat) : Prop := Area.acts.Has d a b x ∨ InBuffers d a b x

/-- The buffers of the driver. -/
def InWorkspace (x : Nat) : Prop := Area.actsIn.Has d a b x ∨ InScratch d a b x

end

section

variable {σ : Type} {d : Driver} {a : Allocator σ} {b : Buffers}

/-- A byte of a live tensor lies in its slab. -/
theorem has_of_live (ha : a.Inv) {r : TensorRecord} (hr : r ∈ a.records) {loc : Loc}
    (hloc : loc ∈ locations r.extents) :
    (Area.slab loc.1).Has d a b (address d loc) := by
  obtain ⟨slab, hslab, hlt⟩ := ha.inside (mem_liveLocations hr hloc)
  refine ⟨Nat.le_add_right _ _, Nat.add_lt_add_left ?_ _⟩
  rw [Area.size, hslab]
  exact hlt

theorem Placed.address_inj (hb : Placed d a b) {loc loc' : Loc}
    (h : (Area.slab loc.1).Has d a b (address d loc))
    (h' : (Area.slab loc'.1).Has d a b (address d loc')) (heq : address d loc = address d loc') :
    loc = loc' := by
  have harea := hb.apart _ _ _ h (heq ▸ h')
  have hslab : loc.1 = loc'.1 := Area.slab.inj harea
  rw [address, address, hslab] at heq
  exact Prod.ext hslab (Nat.add_left_cancel heq)

/-- The bytes of a range of a tensor lie at different addresses. -/
theorem Placed.nodup_addresses (hb : Placed d a b) (ha : a.Inv) {r : TensorRecord}
    (hr : r ∈ a.records) (offset nbytes : Nat) :
    ((rangeLocations r.extents offset nbytes).map (address d)).Nodup := by
  have hnodup : (rangeLocations r.extents offset nbytes).Nodup :=
    ((ha.separate hr).1.sublist (List.drop_sublist _ _)).sublist (List.take_sublist _ _)
  refine List.Nodup.map_on (fun loc hloc loc' hloc' heq => ?_) hnodup
  exact hb.address_inj (has_of_live ha hr (List.mem_of_mem_drop (List.mem_of_mem_take hloc)))
    (has_of_live ha hr (List.mem_of_mem_drop (List.mem_of_mem_take hloc'))) heq

theorem Placed.slab_not_workspace (hb : Placed d a b) {i x : Nat} (h : (Area.slab i).Has d a b x) :
    ¬InWorkspace d a b x := by
  rintro (hin | hacts | hweights | hresult)
  · cases hb.apart _ _ _ h hin
  · cases hb.apart _ _ _ h hacts
  · cases hb.apart _ _ _ h hweights
  · cases hb.apart _ _ _ h hresult

end

/-! ## Ranges -/

theorem getElem?_rangeLocations {extents : List Extent} {offset nbytes t : Nat} (ht : t < nbytes) :
    (rangeLocations extents offset nbytes)[t]? = (locations extents)[offset + t]? := by
  rw [rangeLocations, List.getElem?_take_of_lt ht, List.getElem?_drop]

theorem mem_of_subrange {extents : List Extent} {offset pos m n : Nat} {loc : Loc}
    (hle : pos + m ≤ n)
    (h : loc ∈ rangeLocations extents (offset + pos) m) :
    loc ∈ rangeLocations extents offset n := by
  obtain ⟨rest, rfl⟩ := Nat.exists_eq_add_of_le hle
  rw [rangeLocations_append, rangeLocations_append]
  exact List.mem_append_left _ (List.mem_append_right _ h)

theorem mem_locations_of_range {extents : List Extent} {offset nbytes : Nat} {loc : Loc}
    (h : loc ∈ rangeLocations extents offset nbytes) : loc ∈ locations extents :=
  List.mem_of_mem_drop (List.mem_of_mem_take h)

theorem getElem?_span {i o n t : Nat} (ht : t < n) : (span i o n)[t]? = some (i, o + t) := by
  rw [span, List.getElem?_map, List.getElem?_range ht]
  rfl

theorem rangeAddresses_eq {σ : Type} {d : Driver} {a : Allocator σ} (ha : a.Inv) {r : TensorRecord}
    (hr : r ∈ a.records)
    (offset nbytes : Nat) : rangeAddresses d a r.handle offset nbytes =
      (rangeLocations r.extents offset nbytes).map (address d) := by
  rw [rangeAddresses, ha.getRecord hr]

/-- A byte of a range lies in the slab of one of the extents. -/
theorem slab_of_range {extents : List Extent} {offset nbytes : Nat} {loc : Loc}
    (h : loc ∈ rangeLocations extents offset nbytes) :
    loc.1 ∈ extents.map Extent.slabIndex := by
  obtain ⟨e, he, hloc⟩ := List.mem_flatMap.mp (mem_locations_of_range h)
  rw [(mem_span.mp hloc).1]
  exact List.mem_map_of_mem he

theorem disjoint_ranges {extents extents' : List Extent} {offset offset' nbytes nbytes' : Nat}
    (h : ∀ i ∈ extents.map Extent.slabIndex, i ∉ extents'.map Extent.slabIndex) :
    ∀ loc ∈ rangeLocations extents offset nbytes, loc ∉ rangeLocations extents' offset' nbytes' :=
  fun _ hloc hloc' => h _ (slab_of_range hloc) (slab_of_range hloc')

/-! ## What a matmul rests on -/

/-- The setup of a run and its buffers on the board. -/
structure Setting {σ : Type} (d : Driver) (a : Allocator σ) (b : Buffers) (s : Setup)
    (weights dst : TensorRecord) : Prop where
  ready : Ready d a s weights dst
  placed : Placed d a b
  acts_eq : b.acts = some s.acts
  weightsDma_eq : b.weightsDma = some s.weightsDma
  result_eq : b.result = some s.result
  k_pos : 1 ≤ s.k
  k_mod : s.k % Q1_BLOCK = 0
  k_le : s.k ≤ MAX_K
  packed_eq : s.packedBytesPerRb = s.k / Q1_BLOCK * Layout.PACKED_PER_Q1_BLOCK
  stream_eq : s.actsStreamNbytes = s.k / Q1_BLOCK * Layout.ACTS_PER_Q1_BLOCK
  acts_size : s.actsStreamNbytes ≤ s.acts.size
  apart : ∀ loc ∈ rangeLocations weights.extents s.weightsBaseOffset
      (Layout.rowblocksFor s.rows * s.packedBytesPerRb),
    loc ∉ rangeLocations dst.extents s.dstBaseOffset (s.rows * s.cols * F32_BYTES)

section

variable {σ : Type} {pf : Platform} {d : Driver} {a : Allocator σ} {b : Buffers} {s : Setup}
    {weights dst : TensorRecord} {src : List Byte}
  {column : Nat → List Byte × List (BitVec 16)}

/-- The packed weights are in their tensor. -/
def HoldsWeights (d : Driver) (s : Setup) (weights : TensorRecord) (src : List Byte)
    (dram : Nat → Byte) : Prop :=
  ∀ t < Layout.rowblocksFor s.rows * s.packedBytesPerRb, ∀ loc,
    (locations weights.extents)[s.weightsBaseOffset + t]? = some loc →
    dram (address d loc) = (Layout.packed src s.rows (s.k / Q1_BLOCK))[t]?.getD 0

/-- The byte of a lane: that of the row times the column. -/
def laneValue (src : List Byte) (k : Nat) (column : Nat → List Byte × List (BitVec 16))
    (l : LaneByte) : Byte :=
  (Layout.rowResult src (k / Q1_BLOCK) (column l.col).1 (column l.col).2 l.row).extractLsb'
    (8 * l.byte) 8

/-- What a pass writes to dst. -/
def Pass.stores (d : Driver) (a : Allocator σ) (s : Setup) (dst : TensorRecord) (src : List Byte)
    (column : Nat → List Byte × List (BitVec 16)) (p : Pass s.rows) : List (Nat × Byte) :=
  (p.writes d a s dst.extents).map fun w => (address d w.1, laneValue src s.k column w.2)

namespace Setting

variable (h : Setting d a b s weights dst)

include h

theorem q1Blocks : 1 ≤ s.k / Q1_BLOCK ∧ s.k / Q1_BLOCK ≤ 64 := by
  have hpos := h.k_pos
  have hmod := h.k_mod
  have hle : s.k ≤ 8192 := h.k_le
  have hblock : Q1_BLOCK = 128 := rfl
  rw [hblock] at hmod ⊢
  omega

theorem packed_bytes : s.packedBytesPerRb = 144 * (s.k / Q1_BLOCK) := by
  rw [h.packed_eq, Nat.mul_comm]
  rfl

/-- The rowblocks of a pass fit their register. -/
theorem rowblocks_le {p : Pass s.rows} (hp : IsPass s weights.extents p) : p.rowblocks ≤ 65535 := by
  have hle := hp.rowblocks_le_max
  have hpacked := h.packed_bytes
  have hq := h.q1Blocks.1
  have hmax : MAX_WEIGHTS_NBYTES / s.packedBytesPerRb ≤ MAX_WEIGHTS_NBYTES / 144 :=
    Nat.div_le_div_left (by omega) (by decide)
  have hbound : MAX_WEIGHTS_NBYTES / 144 ≤ 65535 := by decide
  rw [maxRowblocksPerChunk] at hle
  omega

end Setting

/-! ### What a pass reads and writes -/

section

variable {p : Pass s.rows} (hp : IsPass s weights.extents p)

include hp

/-- The weights of a pass are a part of those of the matmul. -/
theorem IsPass.weights_part :
    p.cur.rowblock * s.packedBytesPerRb + p.weightsNbytes s ≤
      Layout.rowblocksFor s.rows * s.packedBytesPerRb := by
  rw [Pass.weightsNbytes, ← Nat.add_mul]
  exact Nat.mul_le_mul_right _ hp.rowblocks_le

/-- The results of a pass are a part of those of the matmul. -/
theorem IsPass.result_part (hcol : p.col < s.cols) :
    (p.col * s.rows + p.cur.row) * F32_BYTES + p.actualNbytes s ≤ s.rows * s.cols * F32_BYTES := by
  have hrows := hp.rows_le
  have hcols : (p.col + 1) * s.rows ≤ s.rows * s.cols := by
    rw [Nat.mul_comm s.rows]
    exact Nat.mul_le_mul_right _ hcol
  rw [Nat.add_mul, Nat.one_mul] at hcols
  rw [Pass.actualNbytes, ← Nat.add_mul]
  exact Nat.mul_le_mul_right _ (by omega)

/-- The rows of a pass are rows of the matrix. -/
theorem IsPass.lane_lt {t : Nat} (ht : t < p.actualNbytes s) :
    p.cur.rowblock * ROWS_PER_BLOCK + t / F32_BYTES < s.rows := by
  have hrows := hp.rows_le
  have hrow := (p.cur.rowblock_lt hp.row_lt).1
  rw [Pass.actualNbytes, F32_BYTES] at ht
  rw [F32_BYTES]
  omega

omit hp in
theorem Pass.actual_le : p.actualNbytes s ≤ p.paddedNbytes s :=
  Nat.mul_le_mul_right _ (Nat.min_le_left _ _)

/-- The byte of the weights at a position of the pass. -/
theorem IsPass.packed_at {dram : Nat → Byte} (hweights : HoldsWeights d s weights src dram)
    {t : Nat} (ht : t < p.weightsNbytes s) {loc : Loc}
    (hloc : (rangeLocations weights.extents (p.weightsOffset s) (p.weightsNbytes s))[t]? =
      some loc) :
    dram (address d loc) = (Layout.packed src s.rows (s.k / Q1_BLOCK))[p.cur.rowblock *
      s.packedBytesPerRb + t]?.getD 0 := by
  have hpart := hp.weights_part
  rw [getElem?_rangeLocations ht, Pass.weightsOffset, Nat.add_assoc] at hloc
  exact hweights _ (by omega) loc hloc

end

/-- Where the weights of a matmul may be read from. -/
def IsWeights (d : Driver) (a : Allocator σ) (b : Buffers) (s : Setup) (weights : TensorRecord)
    (x : Nat) : Prop :=
  Area.weightsDma.Has d a b x ∨
    ∃ loc ∈ rangeLocations weights.extents s.weightsBaseOffset
      (Layout.rowblocksFor s.rows * s.packedBytesPerRb), address d loc = x

/-- Where the results of a matmul may be written to. -/
def IsResult (d : Driver) (a : Allocator σ) (b : Buffers) (s : Setup) (dst : TensorRecord)
    (x : Nat) : Prop :=
  Area.result.Has d a b x ∨
    ∃ loc ∈ rangeLocations dst.extents s.dstBaseOffset (s.rows * s.cols * F32_BYTES),
    address d loc = x

namespace Setting

variable (h : Setting d a b s weights dst)

include h

theorem lt_word {area : Area} {x : Nat} (hx : area.Has d a b x) : x < 2 ^ 32 :=
  Nat.lt_trans hx.2 (h.placed.inWord area)

theorem weights_lt_word {x : Nat} (hx : IsWeights d a b s weights x) : x < 2 ^ 32 := by
  rcases hx with hbuf | ⟨loc, hloc, rfl⟩
  · exact h.lt_word hbuf
  · exact h.lt_word (has_of_live h.ready.inv h.ready.weights_live (mem_locations_of_range hloc))

theorem result_lt_word {x : Nat} (hx : IsResult d a b s dst x) : x < 2 ^ 32 := by
  rcases hx with hbuf | ⟨loc, hloc, rfl⟩
  · exact h.lt_word hbuf
  · exact h.lt_word (has_of_live h.ready.inv h.ready.dst_live (mem_locations_of_range hloc))

theorem weights_not_result {x : Nat} (hx : IsWeights d a b s weights x) :
    ¬IsResult d a b s dst x := by
  have hlive {r : TensorRecord} (hr : r ∈ a.records) {loc : Loc} {offset nbytes : Nat}
      (hloc : loc ∈ rangeLocations r.extents offset nbytes) :
      (Area.slab loc.1).Has d a b (address d loc) :=
    has_of_live h.ready.inv hr (mem_locations_of_range hloc)
  rcases hx with hbuf | ⟨loc, hloc, rfl⟩
  · rintro (hres | ⟨loc', hloc', rfl⟩)
    · cases h.placed.apart _ _ _ hbuf hres
    · cases h.placed.apart _ _ _ hbuf (hlive h.ready.dst_live hloc')
  · rintro (hres | ⟨loc', hloc', heq⟩)
    · cases h.placed.apart _ _ _ (hlive h.ready.weights_live hloc) hres
    · have hsame :=
        h.placed.address_inj (hlive h.ready.dst_live hloc') (hlive h.ready.weights_live hloc) heq
      exact h.apart loc hloc (hsame ▸ hloc')

theorem acts_not_result {x : Nat} (hx : Area.acts.Has d a b x) : ¬IsResult d a b s dst x := by
  rintro (hres | ⟨loc, hloc, rfl⟩)
  · cases h.placed.apart _ _ _ hx hres
  · cases h.placed.apart _ _ _ hx
      (has_of_live h.ready.inv h.ready.dst_live (mem_locations_of_range hloc))

theorem acts_is {t : Nat} (ht : t < s.actsStreamNbytes) :
    Area.acts.Has d a b (s.acts.physicalAddress + t) := by
  have hfit := h.acts_size
  refine ⟨?_, ?_⟩
  · simp only [Area.start, h.acts_eq, startOf_some]
    omega
  · simp only [Area.start, Area.size, h.acts_eq, startOf_some, sizeOf_some]
    omega

/-- The packed column stays where it is. -/
theorem column_kept {dram dram' : Nat → Byte} {writes : List (Nat × Byte)} {quants : List Byte}
    {scaleBits : List (BitVec 16)}
    (hagrees : Agrees (InBuffers d a b) dram dram' writes)
    (hwrites : ∀ x ∈ writes.map Prod.fst, IsResult d a b s dst x)
    (hacts : Layout.HoldsColumn (s.k / Q1_BLOCK) quants scaleBits fun t =>
      dram (s.acts.physicalAddress + t)) :
    Layout.HoldsColumn (s.k / Q1_BLOCK) quants scaleBits fun t => dram'
      (s.acts.physicalAddress + t) := by
  intro t ht
  have hin := h.acts_is (t := t) (by rw [h.stream_eq]; exact ht)
  rw [← hacts t ht]
  refine hagrees.kept ?_ fun hmem => h.acts_not_result hin (hwrites _ hmem)
  rintro (hbuf | hbuf)
  · cases h.placed.apart _ _ _ hin hbuf
  · cases h.placed.apart _ _ _ hin hbuf

variable {p : Pass s.rows} (hp : IsPass s weights.extents p)

include hp

theorem source_is {t : Nat} (ht : t < p.weightsNbytes s) :
    IsWeights d a b s weights ((p.chunk d a s).weightsPhysAddr + t) := by
  unfold Pass.chunk
  rcases h.ready.source_cases hp with ⟨i, o, physical, -, hphysical, hsource, -, hlocs⟩ |
    ⟨-, -, hsource, -, hfit⟩
  · rw [hsource]
    refine .inr ⟨(i, o + t), mem_of_subrange (hp.weights_part) ?_, ?_⟩
    · have hmem : (i, o + t) ∈ span i o (p.weightsNbytes s) :=
        mem_span.mpr ⟨rfl, by simp, by simpa using ht⟩
      rw [← hlocs] at hmem
      exact hmem
    · simp only [address, hphysical, Option.map_some, Option.getD_some, Nat.add_assoc]
  · rw [hsource]
    refine .inl ⟨?_, ?_⟩
    · simp only [Area.start, h.weightsDma_eq, startOf_some, Option.map_none, Option.getD_none]
      omega
    · simp only [Area.start, Area.size, h.weightsDma_eq, startOf_some, sizeOf_some, Option.map_none,
        Option.getD_none]
      omega

theorem target_is (hcol : p.col < s.cols) {t : Nat} (ht : t < p.paddedNbytes s) :
    IsResult d a b s dst ((p.chunk d a s).resultPhysAddr + t) := by
  unfold Pass.chunk
  rcases h.ready.target_cases hp hcol with ⟨i, o, physical, heq, -, hphysical, htarget, -, hlocs⟩ |
    ⟨htarget, -, hfit⟩
  · rw [htarget]
    refine .inr ⟨(i, o + t), mem_of_subrange (hp.result_part hcol) ?_, ?_⟩
    · have hmem : (i, o + t) ∈ span i o (p.paddedNbytes s) :=
        mem_span.mpr ⟨rfl, by simp, by simpa using ht⟩
      rw [← hlocs] at hmem
      exact hmem
    · simp only [address, hphysical, Option.map_some, Option.getD_some, Nat.add_assoc]
  · rw [htarget]
    refine .inl ⟨?_, ?_⟩
    · simp only [Area.start, h.result_eq, startOf_some, Option.map_none, Option.getD_none]
      omega
    · simp only [Area.start, Area.size, h.result_eq, startOf_some, sizeOf_some, Option.map_none,
        Option.getD_none]
      omega

/-- The sizes of a pass. -/
theorem sizes : p.weightsNbytes s = 144 * (s.k / Q1_BLOCK * p.rowblocks) ∧
    s.actsStreamNbytes = 160 * (s.k / Q1_BLOCK) ∧
    p.paddedNbytes s = 32 * p.rowblocks ∧ 1 ≤ s.k / Q1_BLOCK * p.rowblocks ∧
    s.k / Q1_BLOCK * p.rowblocks ≤ 64 * 65535 := by
  obtain ⟨hq1, hq64⟩ := h.q1Blocks
  refine ⟨?_, ?_, ?_, Nat.mul_pos hq1 hp.rowblocks_pos, Nat.mul_le_mul hq64 (h.rowblocks_le hp)⟩
  · rw [Pass.weightsNbytes, h.packed_bytes, Nat.mul_left_comm, Nat.mul_comm p.rowblocks]
  · rw [h.stream_eq, Nat.mul_comm]
    rfl
  · rw [Pass.paddedNbytes, ROWS_PER_BLOCK, F32_BYTES]
    omega

theorem exact (hcol : p.col < s.cols) : (p.chunk d a s).Exact := by
  obtain ⟨hweights, hstream, hresult, hprod, hprodLe⟩ := h.sizes hp
  have hpos := hp.rowblocks_pos
  have hle := h.rowblocks_le hp
  obtain ⟨hq1, hq64⟩ := h.q1Blocks
  exact
    { weightsPhysAddr := toNat_cUint32 (h.weights_lt_word (h.source_is hp (t := 0) (by omega)))
      weightsNbytes := toNat_cUint32 (show p.weightsNbytes s < 2 ^ 32 by omega)
      actsPhysAddr := toNat_cUint32 (h.lt_word (h.acts_is (t := 0) (by omega)))
      actsNbytes := toNat_cUint32 (show s.actsStreamNbytes < 2 ^ 32 by omega)
      resultPhysAddr := toNat_cUint32 (h.result_lt_word (h.target_is hp hcol (t := 0) (by omega)))
      resultNbytes := toNat_cUint32 (show p.paddedNbytes s < 2 ^ 32 by omega)
      numQ1Blocks := toNat_cUint32 (show s.k / Q1_BLOCK < 2 ^ 32 by omega)
      numRowblocks := toNat_cUint32 (show p.rowblocks < 2 ^ 32 by omega) }

/-- The kernel is made for the chunk of a pass. -/
theorem proper (hcol : p.col < s.cols) : Proper (p.chunk d a s).words := by
  obtain ⟨hweights, hstream, hresult, -, -⟩ := h.sizes hp
  obtain ⟨hq1, hq64⟩ := h.q1Blocks
  have hexact := h.exact hp hcol
  have hin : ∀ x, (p.chunk d a s).resultPhysAddr ≤ x ∧
      x < (p.chunk d a s).resultPhysAddr + p.paddedNbytes s →
      IsResult d a b s dst x := by
    rintro x ⟨hlo, hhi⟩
    have hsplit : x = (p.chunk d a s).resultPhysAddr + (x - (p.chunk d a s).resultPhysAddr) := by
      omega
    rw [hsplit]
    exact h.target_is hp hcol (by omega)
  refine ⟨?_, ?_, ?_, ?_, ?_, ?_, ?_, ?_, ?_⟩
  · exact hexact.numQ1Blocks ▸ hq1
  · exact hexact.numQ1Blocks ▸ hq64
  · exact hexact.numRowblocks ▸ hp.rowblocks_pos
  · exact hexact.numRowblocks ▸ h.rowblocks_le hp
  · rw [hexact.actsNbytes, hexact.numQ1Blocks]
    exact hstream
  · rw [hexact.weightsNbytes, hexact.numQ1Blocks, hexact.numRowblocks]
    exact hweights
  · rw [hexact.resultNbytes, hexact.numRowblocks]
    exact hresult
  · rw [hexact.actsNbytes, hexact.actsPhysAddr, hexact.resultPhysAddr, hexact.resultNbytes]
    exact fun i hi hres => h.acts_not_result (h.acts_is hi) (hin _ hres)
  · rw [hexact.weightsNbytes, hexact.weightsPhysAddr, hexact.resultPhysAddr, hexact.resultNbytes]
    exact fun i hi hres => h.weights_not_result (h.source_is hp hi) (hin _ hres)

/-! ### The calls of a pass -/

/-- The rowblocks of a pass that streams them from a slab. -/
theorem rowblocks_slab {dram : Nat → Byte} (hweights : HoldsWeights d s weights src dram)
    {view : Nat × Nat × Nat} (hview : p.source d a s = some view) :
    Layout.HoldsRowblocks src s.rows (s.k / Q1_BLOCK) p.cur.rowblock p.rowblocks
      fun t => dram ((p.chunk d a s).weightsPhysAddr + t) := by
  intro t ht
  rw [← h.packed_eq] at ht ⊢
  rcases h.ready.source_cases hp with ⟨i, o, physical, -, hphysical, hsource, -, hlocs⟩ |
    ⟨-, -, hnone, -⟩
  · have hat := getElem?_span (i := i) (o := o) (show t < p.weightsNbytes s from ht)
    rw [← hlocs] at hat
    rw [← hp.packed_at hweights ht hat, Pass.chunk, hsource, address, hphysical]
    simp only [Option.map_some, Option.getD_some, Nat.add_assoc]
  · rw [hnone] at hview
    cases hview

/-- The rowblock of a pass that copies it to the scratch buffer. -/
theorem rowblocks_copied {dram : Nat → Byte} (hweights : HoldsWeights d s weights src dram)
    (hnone : p.source d a s = none) :
    Layout.HoldsRowblocks src s.rows (s.k / Q1_BLOCK) p.cur.rowblock p.rowblocks fun t =>
      pokeAt dram (startOf b.weightsDma)
        ((rangeAddresses d a s.weightsHandle (p.weightsOffset s) (p.weightsNbytes s)).map dram)
        ((p.chunk d a s).weightsPhysAddr + t) := by
  intro t ht
  rw [← h.packed_eq] at ht ⊢
  have hlen : (rangeLocations weights.extents (p.weightsOffset s) (p.weightsNbytes s)).length =
      p.weightsNbytes s := by
    refine length_rangeLocations ?_
    rw [h.ready.inv.sums weights h.ready.weights_live]
    exact (h.ready.weights_range hp).2
  have hat := List.getElem?_eq_getElem
    (show t < (rangeLocations weights.extents (p.weightsOffset s) (p.weightsNbytes s)).length by
    rw [hlen]
    exact ht)
  have hstart : (p.chunk d a s).weightsPhysAddr = startOf b.weightsDma := by
    rw [Pass.chunk, hnone, h.weightsDma_eq]
    rfl
  rw [hstart, h.ready.weights_eq, rangeAddresses_eq h.ready.inv h.ready.weights_live]
  refine Ram.pokeAt_add ?_
  rw [List.getElem?_map, List.getElem?_map, hat, Option.map_some, Option.map_some,
    hp.packed_at hweights ht hat]

/-- A byte of the result of a pass, in a row of the matrix. -/
theorem resultByte_row {dram : Nat → Byte} (hcol : p.col < s.cols)
    (hcolumn : Layout.Column s.k (column p.col).1 (column p.col).2)
    (hacts : Layout.HoldsColumn (s.k / Q1_BLOCK) (column p.col).1 (column p.col).2 fun t =>
      dram (s.acts.physicalAddress + t))
    (hrows : Layout.HoldsRowblocks src s.rows (s.k / Q1_BLOCK) p.cur.rowblock p.rowblocks
      fun t => dram ((p.chunk d a s).weightsPhysAddr + t)) {i : Nat} (hi : i < p.paddedNbytes s)
    (hrow : p.cur.rowblock * ROWS_PER_BLOCK + i / F32_BYTES < s.rows) :
    resultByte (chunkStreams (p.chunk d a s).words dram) i =
      laneValue src s.k column ⟨p.col, p.cur.rowblock * ROWS_PER_BLOCK + i / F32_BYTES,
        i % F32_BYTES⟩ := by
  obtain ⟨-, -, hresult, -, -⟩ := h.sizes hp
  have hexact := h.exact hp hcol
  have hlane : (p.cur.rowblock + i / 32) * ROWS_PER_BLOCK + i / 4 % 8 =
      p.cur.rowblock * ROWS_PER_BLOCK + i / F32_BYTES := by
    rw [ROWS_PER_BLOCK, F32_BYTES]
    omega
  have hstreams : chunkStreams (p.chunk d a s).words dram =
      Layout.memoryStreams (s.k / Q1_BLOCK) p.rowblocks (fun t => dram (s.acts.physicalAddress + t))
        fun t => dram ((p.chunk d a s).weightsPhysAddr + t) := by
    rw [chunkStreams, hexact.numQ1Blocks, hexact.numRowblocks, hexact.actsPhysAddr,
      hexact.weightsPhysAddr]
    rfl
  rw [resultByte, hstreams,
    Layout.laneResult_rows hcolumn hacts hrows hp.rowblocks_le (by omega) (Nat.mod_lt _ (by decide))
    (by rw [hlane]; exact hrow), hlane]
  rfl

/-- The run of the kernel of a pass. -/
theorem chunk_makes (hcol : p.col < s.cols)
    (hcolumn : Layout.Column s.k (column p.col).1 (column p.col).2) {st : Fpga} (hst : st.Rests)
    (hacts : Layout.HoldsColumn (s.k / Q1_BLOCK) (column p.col).1 (column p.col).2 fun t =>
      st.dram (s.acts.physicalAddress + t))
    (hrows : Layout.HoldsRowblocks src s.rows (s.k / Q1_BLOCK) p.cur.rowblock p.rowblocks
      fun t => st.dram ((p.chunk d a s).weightsPhysAddr + t)) :
    Makes pf d a b [.start (p.chunk d a s), .wait] (fun st' => st'.Rests ∧
      (∀ i < p.paddedNbytes s, p.cur.rowblock * ROWS_PER_BLOCK + i / F32_BYTES < s.rows →
        st'.dram ((p.chunk d a s).resultPhysAddr + i) =
          laneValue src s.k column ⟨p.col, p.cur.rowblock * ROWS_PER_BLOCK + i / F32_BYTES,
            i % F32_BYTES⟩) ∧
      ∀ x, ¬((p.chunk d a s).resultPhysAddr ≤ x ∧
        x < (p.chunk d a s).resultPhysAddr + p.paddedNbytes s) →
        st'.dram x = st.dram x) st := by
  have hproper := h.proper hp hcol
  have hexact := h.exact hp hcol
  refine .cons_eq (fun _ => Iff.rfl) ⟨?_, ?_⟩
  · obtain ⟨dram', inp, n, hmoves⟩ := exists_moves hproper hst.reachable hst.idle st.dram
    exact ⟨{ st with dram := dram', started := none, kernel := Q1a8.cycle st.kernel inp n },
      _, st.kernel, inp, n, rfl, .refl, hmoves, rfl⟩
  · rintro st' ⟨c, k, inp, n, hstarted, hdwells, hmoves, hst'⟩
    obtain rfl := Option.some.inj hstarted
    obtain ⟨hreach, hidle⟩ := hdwells.idle hst.reachable hst.idle
    obtain ⟨hreach', hidle'⟩ := hmoves.idle hproper hreach hidle
    refine ⟨?_, fun i hi hrow => ?_, fun x hx => ?_⟩
    · rw [hst']
      exact ⟨hreach', hidle', rfl⟩
    · have hbyte :=
        hmoves.result hproper hreach hidle (i := i) (by rw [hexact.resultNbytes]; exact hi)
      rw [hexact.resultPhysAddr] at hbyte
      rw [hbyte, h.resultByte_row hp hcol hcolumn hacts hrows hi hrow]
    · refine hmoves.kept x ?_
      rw [hexact.resultPhysAddr, hexact.resultNbytes]
      exact hx

/-! ### What a pass leaves -/

/-- The addresses that a pass writes in dst. -/
theorem keys_stores (src : List Byte) (column : Nat → List Byte × List (BitVec 16))
    (hcol : p.col < s.cols) :
    (p.stores d a s dst src column).map Prod.fst =
      (rangeLocations dst.extents (p.dstOffset s) (p.actualNbytes s)).map (address d) := by
  have hlen : (rangeLocations dst.extents (p.dstOffset s) (p.actualNbytes s)).length =
      p.actualNbytes s := by
    refine length_rangeLocations ?_
    rw [h.ready.inv.sums dst h.ready.dst_live]
    exact (h.ready.dst_range hp hcol).2
  rw [Pass.stores, List.map_map, h.ready.writes_eq hp hcol]
  show List.map (address d ∘ Prod.fst) _ = _
  rw [← List.map_map, List.map_fst_zip]
  rw [hlen, List.length_map, List.length_range']

theorem stores_at (hcol : p.col < s.cols) {t : Nat} (ht : t < p.actualNbytes s) {loc : Loc}
    (hloc : (rangeLocations dst.extents (p.dstOffset s) (p.actualNbytes s))[t]? = some loc) :
    (address d loc, laneValue src s.k column
      ⟨p.col, p.cur.rowblock * ROWS_PER_BLOCK + t / F32_BYTES, t % F32_BYTES⟩) ∈
      p.stores d a s dst src column := by
  have hlt : t < p.rowblocks * ROWS_PER_BLOCK * F32_BYTES := Nat.lt_of_lt_of_le ht p.actual_le
  have hlane : p.emitted[t]? = some ⟨p.col, p.cur.rowblock * ROWS_PER_BLOCK + t / F32_BYTES,
      t % F32_BYTES⟩ := by
    rw [Pass.emitted, laneBytes, List.getElem?_map, List.getElem?_range hlt]
    rfl
  refine List.mem_map.mpr ⟨(loc, _), List.mem_of_getElem? (i := t) ?_, rfl⟩
  unfold Pass.writes
  rcases h.ready.target_cases hp hcol
    with ⟨i, o, physical, heq, -, -, htarget, -, hlocs⟩ | ⟨htarget, -, -⟩
  · rw [htarget]
    rw [hlocs] at hloc
    exact List.getElem?_zip_eq_some.mpr ⟨hloc, hlane⟩
  · rw [htarget]
    exact List.getElem?_zip_eq_some.mpr ⟨hloc, by rw [List.getElem?_take_of_lt ht]; exact hlane⟩

/-- A memory with the bytes of the rows of a pass agrees with its writes. -/
theorem agrees_stores (hcol : p.col < s.cols) {dram dram' : Nat → Byte}
    (hrange : ∀ t loc, t < p.actualNbytes s →
      (rangeLocations dst.extents (p.dstOffset s) (p.actualNbytes s))[t]? = some loc →
      dram' (address d loc) = laneValue src s.k column
        ⟨p.col, p.cur.rowblock * ROWS_PER_BLOCK + t / F32_BYTES, t % F32_BYTES⟩)
    (hkept : ∀ x, ¬InBuffers d a b x →
      x ∉ (rangeLocations dst.extents (p.dstOffset s) (p.actualNbytes s)).map (address d) →
      dram' x = dram x) : Agrees (InBuffers d a b) dram dram' (p.stores d a s dst src column) := by
  intro x hx
  have hkeys := h.keys_stores hp src column hcol
  have hnodup : ((p.stores d a s dst src column).map Prod.fst).Nodup :=
    hkeys ▸ (h.placed.nodup_addresses h.ready.inv h.ready.dst_live _ _)
  by_cases hin : x ∈ (rangeLocations dst.extents (p.dstOffset s) (p.actualNbytes s)).map (address d)
  · obtain ⟨loc, hloc, rfl⟩ := List.mem_map.mp hin
    obtain ⟨t, ht, hat⟩ := List.mem_iff_getElem.mp hloc
    have hlt : t < p.actualNbytes s := Nat.lt_of_lt_of_le ht (List.length_take_le _ _)
    have hloc' := List.getElem?_eq_some_iff.mpr ⟨ht, hat⟩
    rw [hrange t loc hlt hloc', Ram.poke_of_mem hnodup (h.stores_at hp hcol hlt hloc')]
  · rw [hkept x hx hin, Ram.poke_of_notMem (hkeys ▸ hin)]

/-- The weights of a pass are where its chunk reads them, in the slab or in the scratch buffer. -/
theorem source_makes {st : Fpga} (hst : st.Rests) (hweights : HoldsWeights d s weights src st.dram)
    {rest : List Act} {post : Fpga → Prop}
    (hrest : ∀ st', st'.Rests → Agrees (InBuffers d a b) st.dram st'.dram [] →
      Layout.HoldsRowblocks src s.rows (s.k / Q1_BLOCK) p.cur.rowblock p.rowblocks
        (fun t => st'.dram ((p.chunk d a s).weightsPhysAddr + t)) → Makes pf d a b rest post st') :
    Makes pf d a b ((match p.source d a s with
      | some _ => []
      | none =>
        [.copyWeights s.weightsHandle (p.weightsOffset s) (p.weightsNbytes s)]) ++
          rest) post st := by
  cases hsource : p.source d a s with
  | some view => exact hrest st hst (.refl _ _) (h.rowblocks_slab hp hweights hsource)
  | none =>
    refine .cons_eq (fun _ => Iff.rfl)
      (hrest _ ⟨hst.reachable, hst.idle, hst.started⟩ ?_ (h.rowblocks_copied hp hweights hsource))
    have hfit : p.weightsNbytes s ≤ s.weightsDma.size := by
      rcases h.ready.source_cases hp with ⟨i, o, physical, -, -, hsome, -⟩ | ⟨-, -, -, -, hfit⟩
      · rw [hsource] at hsome
        cases hsome
      · exact hfit
    refine Ram.agrees_pokeAt fun t ht => .inl ⟨Nat.le_add_right _ _, Nat.add_lt_add_left ?_ _⟩
    rw [List.length_map, h.ready.weights_eq, rangeAddresses_eq h.ready.inv h.ready.weights_live,
      List.length_map] at ht
    have hlen : t < p.weightsNbytes s := Nat.lt_of_lt_of_le ht (List.length_take_le _ _)
    rw [Area.size, h.weightsDma_eq, sizeOf_some]
    omega

/-- The result of a pass gets to dst, from the kernel or from the result buffer. -/
theorem target_makes (hcol : p.col < s.cols) {dram : Nat → Byte} {st : Fpga} (hst : st.Rests)
    (hrows : ∀ i < p.paddedNbytes s, p.cur.rowblock * ROWS_PER_BLOCK + i / F32_BYTES < s.rows →
      st.dram ((p.chunk d a s).resultPhysAddr + i) =
        laneValue src s.k column
          ⟨p.col, p.cur.rowblock * ROWS_PER_BLOCK + i / F32_BYTES, i % F32_BYTES⟩)
    (hkept : ∀ x, ¬InBuffers d a b x →
      ¬((p.chunk d a s).resultPhysAddr ≤ x ∧
        x < (p.chunk d a s).resultPhysAddr + p.paddedNbytes s) → st.dram x = dram x) :
    Makes pf d a b (match p.target d a s with
      | some _ => []
      | none =>
        [.invalidateResult (p.paddedNbytes s),
          .writeResult s.dstHandle (p.dstOffset s) (p.actualNbytes s)])
      (fun st' => st'.Rests ∧
        Agrees (InBuffers d a b) dram st'.dram (p.stores d a s dst src column)) st := by
  have hactual : p.actualNbytes s ≤ p.paddedNbytes s := p.actual_le
  rcases h.ready.target_cases hp hcol with ⟨i, o, physical, heq, -, hphysical, htarget, -, hlocs⟩ |
    ⟨htarget, -, hfit⟩
  · -- the kernel has written dst
    have hstart : (p.chunk d a s).resultPhysAddr = physical + o := by
      rw [Pass.chunk, htarget]
      rfl
    have haddress : ∀ t, address d (i, o + t) = (p.chunk d a s).resultPhysAddr + t := by
      intro t
      rw [hstart, address, hphysical, Option.getD_some, Nat.add_assoc]
    rw [htarget]
    refine ⟨hst, h.agrees_stores hp hcol (fun t loc ht hloc => ?_) fun x hx hout =>
      hkept x hx fun hin => hout ?_⟩
    · rw [hlocs, getElem?_span (by omega)] at hloc
      obtain rfl := Option.some.inj hloc
      rw [haddress, hrows t (by omega) (hp.lane_lt ht)]
    · refine List.mem_map.mpr ⟨(i, o + (x - (p.chunk d a s).resultPhysAddr)), ?_, ?_⟩
      · rw [hlocs]
        exact mem_span.mpr ⟨rfl, by simp, by simp only; omega⟩
      · rw [haddress]
        omega
  · -- the kernel has written the result buffer, which is copied without its padding
    have hstart : (p.chunk d a s).resultPhysAddr = startOf b.result := by
      rw [Pass.chunk, htarget, h.result_eq]
      rfl
    have hlen : (rangeLocations dst.extents (p.dstOffset s) (p.actualNbytes s)).length =
        p.actualNbytes s := by
      refine length_rangeLocations ?_
      rw [h.ready.inv.sums dst h.ready.dst_live]
      exact (h.ready.dst_range hp hcol).2
    have hkeys :
        ((rangeLocations dst.extents (p.dstOffset s) (p.actualNbytes s)).map (address d)).length =
        (peek st.dram (startOf b.result) (p.actualNbytes s)).length := by
      rw [List.length_map, hlen, Ram.length_peek]
    rw [htarget]
    refine .cons_eq (fun _ => Iff.rfl)
      (.cons_eq (fun _ => Iff.rfl) (.nil ⟨⟨hst.reachable, hst.idle, hst.started⟩, ?_⟩))
    rw [h.ready.dst_eq, rangeAddresses_eq h.ready.inv h.ready.dst_live]
    refine h.agrees_stores hp hcol (fun t loc ht hloc => ?_) fun x hx hout =>
      (Ram.poke_zip_of_notMem hkeys hout).trans (hkept x hx ?_)
    · have hkey :
          ((rangeLocations dst.extents (p.dstOffset s) (p.actualNbytes s)).map (address d))[t]? =
            some (address d loc) := by
        rw [List.getElem?_map, hloc]
        rfl
      refine (Ram.poke_zip hkeys (h.placed.nodup_addresses h.ready.inv h.ready.dst_live _ _) hkey
        (Ram.getElem?_peek _ _ ht)).trans ?_
      rw [← hstart, hrows t (by omega) (hp.lane_lt ht)]
    · rintro ⟨hlo, hhi⟩
      refine hx (.inr ⟨?_, ?_⟩)
      · rw [Area.start, ← hstart]
        exact hlo
      · rw [Area.start, Area.size, ← hstart, h.result_eq, sizeOf_some]
        omega

/-- A pass leaves the bytes of its rows in dst. -/
theorem pass_makes (hcol : p.col < s.cols)
    (hcolumn : Layout.Column s.k (column p.col).1 (column p.col).2) {st : Fpga} (hst : st.Rests)
    (hweights : HoldsWeights d s weights src st.dram)
    (hacts : Layout.HoldsColumn (s.k / Q1_BLOCK) (column p.col).1 (column p.col).2 fun t =>
      st.dram (s.acts.physicalAddress + t)) :
    Makes pf d a b (p.events d a s)
      (fun st' => st'.Rests ∧
        Agrees (InBuffers d a b) st.dram st'.dram (p.stores d a s dst src column)) st := by
  unfold Pass.events
  rw [List.append_assoc]
  refine h.source_makes hp hst hweights fun st1 hst1 hsame hrows => ?_
  refine .append
    ((h.chunk_makes hp hcol hcolumn hst1 (h.column_kept hsame (by simp) hacts) hrows).mono ?_)
  rintro st2 ⟨hst2, hresult, hkept⟩
  refine h.target_makes hp hcol hst2 hresult fun x hx hout => ?_
  rw [hkept x hout, hsame.kept hx (by simp)]

end Setting

/-! ### Columns -/

/-- What the passes of a column write to dst. -/
def columnStores (d : Driver) (a : Allocator σ) (s : Setup) (weights dst : TensorRecord)
    (src : List Byte)
    (column : Nat → List Byte × List (BitVec 16)) (col : Nat) : List (Nat × Byte) :=
  (passes s weights.extents col (Cursor.zero s.rows)).flatMap fun p => p.stores d a s dst src column

/-- The floats of a column of the activations, as the quantizer reads them. -/
def columnFloats (pf : Platform) (s : Setup) (dram : Nat → Byte) (col : Nat) : List Byte :=
  (List.range (s.k * F32_BYTES)).map fun i =>
    dram (pf.translate (s.actsAddr + col * s.k * F32_BYTES + i))

/-- Where the quantizer reads is neither scratch nor written. -/
def InputsApart (pf : Platform) (d : Driver) (a : Allocator σ) (b : Buffers) (s : Setup)
    (dst : TensorRecord) : Prop :=
  ∀ i < s.cols * s.k * F32_BYTES, ¬InScratch d a b (pf.translate (s.actsAddr + i)) ∧
    ¬IsResult d a b s dst (pf.translate (s.actsAddr + i))

/-- The columns of the activations stay what they are. -/
theorem InputsApart.columnFloats_kept (hinputs : InputsApart pf d a b s dst)
    {dram dram' : Nat → Byte} {writes : List (Nat × Byte)}
    (hagrees : Agrees (InScratch d a b) dram dram' writes)
    (hwrites : ∀ x ∈ writes.map Prod.fst, IsResult d a b s dst x) {col : Nat}
    (hcol : col < s.cols) : columnFloats pf s dram' col = columnFloats pf s dram col := by
  refine List.map_congr_left fun i hi => ?_
  have hlt : col * s.k * F32_BYTES + i < s.cols * s.k * F32_BYTES := by
    have hle : (col + 1) * (s.k * F32_BYTES) ≤ s.cols * (s.k * F32_BYTES) :=
      Nat.mul_le_mul_right _ hcol
    have hi' := List.mem_range.mp hi
    rw [Nat.add_mul, Nat.one_mul] at hle
    rw [Nat.mul_assoc, Nat.mul_assoc]
    omega
  obtain ⟨hscratch, hresult⟩ := hinputs _ hlt
  rw [Nat.add_assoc]
  exact hagrees.kept hscratch fun hmem => hresult (hwrites _ hmem)

namespace Setting

variable (h : Setting d a b s weights dst)

include h

theorem stores_result {ps : List (Pass s.rows)}
    (hps : ∀ p ∈ ps, IsPass s weights.extents p ∧ p.col < s.cols) {x : Nat}
    (hx : x ∈ (ps.flatMap fun p => p.stores d a s dst src column).map Prod.fst) :
    IsResult d a b s dst x := by
  rw [List.map_flatMap] at hx
  obtain ⟨p, hp, hmem⟩ := List.mem_flatMap.mp hx
  obtain ⟨hpass, hcol⟩ := hps p hp
  rw [h.keys_stores hpass src column hcol] at hmem
  obtain ⟨loc, hloc, rfl⟩ := List.mem_map.mp hmem
  exact .inr ⟨loc, mem_of_subrange (hpass.result_part hcol) hloc, rfl⟩

/-- The weights stay where they are. -/
theorem weights_kept {dram dram' : Nat → Byte} {writes : List (Nat × Byte)}
    (hagrees : Agrees (InWorkspace d a b) dram dram' writes)
    (hwrites : ∀ x ∈ writes.map Prod.fst, IsResult d a b s dst x)
    (hweights : HoldsWeights d s weights src dram) :
    HoldsWeights d s weights src dram' := by
  intro t ht loc hloc
  have hlive : loc ∈ locations weights.extents := List.mem_of_getElem? hloc
  have hrange : loc ∈ rangeLocations weights.extents s.weightsBaseOffset
      (Layout.rowblocksFor s.rows * s.packedBytesPerRb) := by
    refine List.mem_of_getElem? (i := t) ?_
    rw [getElem?_rangeLocations ht]
    exact hloc
  have hslab :=
    h.placed.slab_not_workspace (has_of_live (b := b) h.ready.inv h.ready.weights_live hlive)
  rw [hagrees.kept hslab fun hmem =>
    h.weights_not_result (.inr ⟨loc, hrange, rfl⟩) (hwrites _ hmem)]
  exact hweights t ht loc hloc

theorem column_quantized (pf : Platform) (bytes : List Byte)
    (hlen : bytes.length = s.k * F32_BYTES) :
    Layout.Column s.k (pf.quantize bytes).1 (pf.quantize bytes).2 where
  kLt := Nat.lt_of_le_of_lt h.k_le (by decide)
  block := h.k_mod
  quantsLen := by
    rw [pf.quants_length, hlen, Nat.mul_div_cancel _ (by decide)]
  scalesLen := by
    rw [pf.scales_length, hlen, Nat.mul_div_cancel _ (by decide)]

/-- Quantizing and packing leave the packed column in its buffer. -/
theorem prepare_makes {col : Nat} {st : Fpga} (hst : st.Rests) {rest : List Act}
    {post : Fpga → Prop}
    (hrest : ∀ st', st'.Rests → Agrees (Area.acts.Has d a b) st.dram st'.dram [] →
      Layout.HoldsColumn (s.k / Q1_BLOCK) (pf.quantize (columnFloats pf s st.dram col)).1
        (pf.quantize (columnFloats pf s st.dram col)).2
    (fun t => st'.dram (s.acts.physicalAddress + t)) → Makes pf d a b rest post st') :
    Makes pf d a b ([.quantize (s.actsAddr + col * s.k * F32_BYTES) s.k, .packActs s.k] ++ rest)
      post st := by
  have hcolumn := h.column_quantized pf (columnFloats pf s st.dram col)
    (by rw [columnFloats, List.length_map, List.length_range])
  have hquants : (pf.quantize (columnFloats pf s st.dram col)).1.length < 2 ^ 32 := by
    rw [pf.quants_length, columnFloats, List.length_map, List.length_range,
      Nat.mul_div_cancel _ (by decide)]
    exact Nat.lt_of_le_of_lt h.k_le (by decide)
  have hsize : s.k / Q1_BLOCK * Layout.ACTS_PER_Q1_BLOCK ≤
      (peek st.dram (startOf b.acts) (sizeOf b.acts)).length := by
    rw [Ram.length_peek, ← h.stream_eq, h.acts_eq]
    exact h.acts_size
  have hpack := Layout.packActsC_eq hcolumn hquants h.k_pos hsize
  have hlen := Layout.length_actsStream hcolumn
  have hstart : startOf b.acts = s.acts.physicalAddress := by rw [h.acts_eq, startOf_some]
  refine .cons_eq (fun _ => Iff.rfl)
    (.cons_eq (does_packActs hpack) (hrest _ ⟨hst.reachable, hst.idle, hst.started⟩ ?_ ?_))
  · refine Ram.agrees_pokeAt fun t ht => ⟨Nat.le_add_right _ _, Nat.add_lt_add_left ?_ _⟩
    rw [List.length_append, hlen, List.length_drop, Ram.length_peek] at ht
    rw [Ram.length_peek] at hsize
    rw [Area.size]
    omega
  · intro t ht
    rw [← hstart]
    refine Ram.pokeAt_add ?_
    rw [List.getElem?_append_left (by rw [hlen]; exact ht),
      List.getElem?_eq_getElem (by rw [hlen]; exact ht), Option.getD_some]

/-- A column leaves its bytes in dst. -/
theorem column_makes {col : Nat} (hcol : col < s.cols) {st : Fpga} (hst : st.Rests)
    (hweights : HoldsWeights d s weights src st.dram)
    (hcolumn : column col = pf.quantize (columnFloats pf s st.dram col)) :
    Makes pf d a b (columnEvents d a s weights.extents col)
      (fun st' => st'.Rests ∧ Agrees (InScratch d a b) st.dram st'.dram
        (columnStores d a s weights dst src column col)) st := by
  refine h.prepare_makes hst fun st1 hst1 hprepared hacts => ?_
  rw [← hcolumn] at hacts
  have hprepared' : Agrees (InScratch d a b) st.dram st1.dram [] :=
    hprepared.mono fun x hx => .inl hx
  have hweights1 := h.weights_kept (hprepared'.mono fun x hx => .inr hx) (by simp) hweights
  have hlen : (columnFloats pf s st.dram col).length = s.k * F32_BYTES := by
    rw [columnFloats, List.length_map, List.length_range]
  refine Ensures.mono (Ensures.flatMap (fun done st' => st'.Rests ∧
    Agrees (InBuffers d a b) st1.dram st'.dram
      (done.flatMap fun p => p.stores d a s dst src column)) ?_ ⟨hst1, .refl _ _⟩) ?_
  · rintro done p hpart st2 ⟨hst2, hagrees⟩
    have hmem : ∀ p' ∈ done ++ [p], IsPass s weights.extents p' ∧ p'.col = col :=
      fun p' hp' => isPass_of_mem p' (hpart.subset hp')
    obtain ⟨hp, rfl⟩ := hmem p (List.mem_append_right _ List.mem_cons_self)
    have hdone : ∀ p' ∈ done, IsPass s weights.extents p' ∧ p'.col < s.cols := by
      intro p' hp'
      obtain ⟨hpass, hcol'⟩ := hmem p' (List.mem_append_left _ hp')
      exact ⟨hpass, hcol' ▸ hcol⟩
    have hwrites : ∀ x ∈ (done.flatMap fun p => p.stores d a s dst src column).map Prod.fst,
        IsResult d a b s dst x :=
      fun x hx => h.stores_result hdone hx
    refine (h.pass_makes hp hcol (hcolumn ▸ h.column_quantized pf _ hlen) hst2
      (h.weights_kept (hagrees.mono fun x hx => .inr (.inr hx)) hwrites hweights1)
      (h.column_kept hagrees hwrites hacts)).mono ?_
    rintro st3 ⟨hst3, hagrees3⟩
    refine ⟨hst3, ?_⟩
    rw [List.flatMap_append, List.flatMap_singleton]
    exact hagrees.trans hagrees3
  · rintro st2 ⟨hst2, hagrees⟩
    exact ⟨hst2, hprepared'.trans (hagrees.mono fun x hx => .inr hx)⟩

theorem columnStores_result {cols : List Nat} (hcols : ∀ col ∈ cols, col < s.cols) {x : Nat}
    (hx : x ∈ (cols.flatMap (columnStores d a s weights dst src column)).map Prod.fst) :
    IsResult d a b s dst x := by
  rw [List.map_flatMap] at hx
  obtain ⟨col, hcol, hmem⟩ := List.mem_flatMap.mp hx
  refine h.stores_result (fun p hp => ?_) hmem
  obtain ⟨hpass, rfl⟩ := isPass_of_mem p hp
  exact ⟨hpass, hcols _ hcol⟩

/-- The columns leave the bytes of all rows in dst. -/
theorem columns_make {st : Fpga} (hst : st.Rests) (hweights : HoldsWeights d s weights src st.dram)
    (hinputs : InputsApart pf d a b s dst)
    (hcolumn : ∀ col < s.cols, column col = pf.quantize (columnFloats pf s st.dram col)) :
    Makes pf d a b ((List.range s.cols).flatMap (columnEvents d a s weights.extents))
      (fun st' => st'.Rests ∧ Agrees (InScratch d a b) st.dram st'.dram
        ((List.range s.cols).flatMap (columnStores d a s weights dst src column))) st := by
  refine Ensures.flatMap (fun done (st' : Fpga) => st'.Rests ∧
    Agrees (InScratch d a b) st.dram st'.dram
      (done.flatMap (columnStores d a s weights dst src column))) ?_ ⟨hst, .refl _ _⟩
  rintro done col hpart st1 ⟨hst1, hagrees⟩
  have hlt : ∀ col' ∈ done ++ [col], col' < s.cols :=
    fun col' hcol' => List.mem_range.mp (hpart.subset hcol')
  have hcol : col < s.cols := hlt col (List.mem_append_right _ List.mem_cons_self)
  have hwrites : ∀ x ∈ (done.flatMap (columnStores d a s weights dst src column)).map Prod.fst,
      IsResult d a b s dst x :=
    fun x hx => h.columnStores_result (fun col' hcol' => hlt col' (List.mem_append_left _ hcol')) hx
  have hcolumn1 : column col = pf.quantize (columnFloats pf s st1.dram col) := by
    rw [hcolumn col hcol, hinputs.columnFloats_kept hagrees hwrites hcol]
  refine (h.column_makes hcol hst1
    (h.weights_kept (hagrees.mono fun x hx => .inr hx) hwrites hweights) hcolumn1).mono ?_
  rintro st2 ⟨hst2, hagrees2⟩
  refine ⟨hst2, ?_⟩
  rw [List.flatMap_append, List.flatMap_singleton]
  exact hagrees.trans hagrees2

end Setting

/-! ## The product -/

/-- The product of a matrix and its columns, column by column. -/
def product (src : List Byte) (rows cols k : Nat) (column : Nat → List Byte × List (BitVec 16)) :
    List Q1a8.Fp32 :=
  (List.range cols).flatMap fun col =>
    (List.range rows).map fun row =>
      Layout.rowResult src (k / Q1_BLOCK) (column col).1 (column col).2 row

theorem getElem?_product (src : List Byte) (k : Nat) (column : Nat → List Byte × List (BitVec 16))
    {rows cols col row : Nat} (hcol : col < cols) (hrow : row < rows) :
    (product src rows cols k column)[col * rows + row]? =
      some (Layout.rowResult src (k / Q1_BLOCK) (column col).1 (column col).2 row) := by
  rw [product, Layout.getElem?_pieces (fun _ _ => by rw [List.length_map, List.length_range]) hcol
    hrow, List.getElem?_map, List.getElem?_range hrow]
  rfl

theorem getElem?_floatBytes (row : List (BitVec 32)) {i l : Nat} (hl : l < 4) :
    (Ps.floatBytes row)[4 * i + l]? = (row[i]?).map fun w => w.extractLsb' (8 * l) 8 := by
  induction row generalizing i with
  | nil => rfl
  | cons w row ih =>
    have hlen : (Ps.le32 w).length = 4 := rfl
    rw [Ps.floatBytes, List.flatMap_cons, ← Ps.floatBytes]
    cases i with
    | zero =>
      rw [List.getElem?_append_left (by omega)]
      rcases (show l = 0 ∨ l = 1 ∨ l = 2 ∨ l = 3 by omega) with rfl | rfl | rfl | rfl <;> rfl
    | succ i =>
      rw [List.getElem?_append_right (by omega), hlen,
        show 4 * (i + 1) + l - 4 = 4 * i + l by omega, ih]
      rfl

/-- The bytes of the product, by their positions. -/
theorem floatBytes_product (src : List Byte) (rows cols k : Nat)
    (column : Nat → List Byte × List (BitVec 16)) :
    Ps.floatBytes (product src rows cols k column) =
      (List.range (rows * cols * F32_BYTES)).map fun i => laneValue src k column
        (laneAt rows i) := by
  have hcolumn : ∀ col < cols, ((List.range rows).map fun row =>
      Layout.rowResult src (k / Q1_BLOCK) (column col).1 (column col).2 row).length = rows := by
    intro col _
    rw [List.length_map, List.length_range]
  have hlen : (product src rows cols k column).length = cols * rows :=
    Writer.length_pieces _ hcolumn
  refine List.ext_getElem? fun i => ?_
  rcases Nat.lt_or_ge i (rows * cols * F32_BYTES) with hi | hi
  · have hlt : i / F32_BYTES < cols * rows := by
      rw [Nat.mul_comm cols]
      exact Nat.div_lt_of_lt_mul (by rwa [Nat.mul_comm])
    have hrows : 0 < rows := Nat.pos_of_ne_zero fun hzero => by simp [hzero] at hlt
    have hsplit : i / F32_BYTES / rows * rows + i / F32_BYTES % rows = i / F32_BYTES :=
      Nat.div_add_mod' _ _
    have hindex : i = 4 * (i / F32_BYTES) + i % F32_BYTES := (Nat.div_add_mod i 4).symm
    have hbyte : i % F32_BYTES < 4 := Nat.mod_lt _ (by decide)
    have helement := getElem?_product src k column
      (Nat.div_lt_of_lt_mul (by rwa [Nat.mul_comm rows]))
      (Nat.mod_lt (i / F32_BYTES) hrows)
    rw [hsplit] at helement
    rw [List.getElem?_map, List.getElem?_range hi]
    conv_lhs => rw [hindex]
    rw [getElem?_floatBytes _ hbyte, helement]
    rfl
  · rw [List.getElem?_eq_none, List.getElem?_eq_none]
    · rwa [List.length_map, List.length_range]
    · rw [Ps.length_floatBytes, hlen, Nat.mul_comm 4, Nat.mul_comm cols]
      exact hi

/-! ## The run of an op -/

/-- The activations are read in their slab, or in a copy that is large enough. -/
theorem resolveActs_cases {r : TensorRecord} (ha : a.Inv) (hd : d.Works a.slabs.length)
    (hr : r ∈ a.records) (scratch : Option Buffer)
    {offset nbytes : Nat} (hpos : 0 < nbytes) (hin : offset + nbytes ≤ r.nbytes) :
    (∃ i o va, resolveActs d a scratch r.handle offset nbytes = ⟨[], .ok (va + o, scratch)⟩ ∧
      d.baseVa i = some va ∧
      rangeLocations r.extents offset nbytes = span i o nbytes) ∨
    ∃ buffer, resolveActs d a scratch r.handle offset nbytes =
      ⟨[.copyActs r.handle offset nbytes], .ok (buffer.data, some buffer)⟩ ∧
      nbytes ≤ buffer.size := by
  unfold resolveActs Allocator.slabPointer
  rcases ha.slabView_cases hr hpos hin with ⟨i, o, hview, -, hlt, -, hlocs⟩ | ⟨message, hview, -⟩
  · obtain ⟨va, hva⟩ := hd.baseVa i hlt
    refine .inl ⟨i, o, va, ?_, hva, hlocs⟩
    rw [hview]
    simp only [bind, Except.bind, hva]
    rfl
  · obtain ⟨buffer, hbuffer, hsize⟩ := ensureBuffer_ok hd scratch nbytes
    refine .inr ⟨buffer, ?_, hsize⟩
    have hbounds : inBounds a r.handle offset nbytes = .ok () := by
      rw [inBounds, ha.getRecord hr]
      simp only [bind, Except.bind]
      rw [if_neg (by omega)]
    rw [hview]
    simp only [bind, Except.bind]
    rw [hbuffer, hbounds]
    rfl

/-- The run of an op from where its activations are, with its buffers. -/
theorem Job.run_of_buffers {op : Op} (j : Job a op) (hd : d.Works a.slabs.length) {pre : List Act}
    {actsAddr : Nat} {actsIn : Option Buffer} {b' : Buffers} {acts weightsDma result : Buffer}
    (hresolve : resolveActs d a b.actsIn j.acts.handle j.actsOffset (j.cols * j.k * F32_BYTES) =
      ⟨pre, .ok (actsAddr, actsIn)⟩)
    (hbuffers : ensureBuffers d b actsIn (j.k / Q1_BLOCK * Layout.ACTS_PER_Q1_BLOCK)
      (maxRowblocksPerChunk j.rows (j.k / Q1_BLOCK * Layout.PACKED_PER_Q1_BLOCK) *
        (j.k / Q1_BLOCK * Layout.PACKED_PER_Q1_BLOCK))
      (maxRowblocksPerChunk j.rows (j.k / Q1_BLOCK * Layout.PACKED_PER_Q1_BLOCK) *
        ROWS_PER_BLOCK * F32_BYTES) =
        .ok (b', acts, weightsDma, result))
    (hready : Ready d a (j.setup actsAddr acts weightsDma result) j.weights j.dst) :
    (run d a b op).result = .ok b' ∧ ∃ dirty : List Dirty, (run d a b op).events =
      pre ++ ((List.range j.cols).flatMap
        (columnEvents d a (j.setup actsAddr acts weightsDma result) j.weights.extents) ++
        dirty.map fun entry => .invalidateRange entry.slabIndex entry.lo
          (entry.hi - entry.lo)) := by
  have hloop := hready.columnLoop_eq j.cols 0 (Nat.zero_add _) []
  rw [← List.range_eq_range'] at hloop
  rw [j.run_head hd.checkKernelId hd.regRows, hd.ensureNative, Traced.lift_ok_bind,
    Traced.bind_ok hresolve]
  simp only
  rw [hbuffers, Traced.lift_ok_bind]
  simp only
  rw [Traced.bind_ok hloop, Traced.bind_ok (invalidateDirty_eq _)]
  simp only [Traced.pure_eq, List.append_nil]
  exact ⟨trivial, _, rfl⟩

/-- All that a matmul writes: the product, to dst. -/
theorem Setting.allStores_eq (h : Setting d a b s weights dst) :
    (List.range s.cols).flatMap (columnStores d a s weights dst src column) =
      ((rangeLocations dst.extents s.dstBaseOffset (s.rows * s.cols * F32_BYTES)).map
        (address d)).zip
        (Ps.floatBytes (product src s.rows s.cols s.k column)) := by
  have hstores : (List.range s.cols).flatMap (columnStores d a s weights dst src column) =
      ((allPasses s weights.extents).flatMap fun p => p.writes d a s dst.extents).map
        fun w => (address d w.1, laneValue src s.k column w.2) := by
    unfold columnStores allPasses Pass.stores
    rw [List.flatMap_assoc, List.map_flatMap]
    refine List.flatMap_congr fun col _ => ?_
    rw [List.map_flatMap]
  have hlanes : (List.range (s.rows * s.cols * F32_BYTES)).map
      (fun i => laneValue src s.k column (laneAt s.rows i)) =
      ((List.range (s.rows * s.cols * F32_BYTES)).map (laneAt s.rows)).map
        (laneValue src s.k column) := by
    rw [List.map_map]
    rfl
  rw [hstores, h.ready.all_writes, floatBytes_product, hlanes, List.zip_map]
  rfl

/-- The bytes at some locations of the slabs. -/
def bytesAt (d : Driver) (locs : List Loc) (dram : Nat → Byte) : List Byte :=
  locs.map fun loc => dram (address d loc)

theorem invalidate_makes {dirty : List Dirty} {post : Fpga → Prop} {st : Fpga} (h : post st) :
    Makes pf d a b (dirty.map fun entry =>
      .invalidateRange entry.slabIndex entry.lo (entry.hi - entry.lo)) post st := by
  induction dirty with
  | nil => exact h
  | cons entry dirty ih => exact .cons_eq (fun _ => Iff.rfl) ih

end

namespace Job

section

variable {σ : Type} {d : Driver} {a : Allocator σ} {op : Op} (j : Job a op)

def weightsRange : List Loc :=
  rangeLocations j.weights.extents j.weightsOffset
    (Layout.rowblocksFor j.rows * (j.k / Q1_BLOCK * Layout.PACKED_PER_Q1_BLOCK))

def actsRange : List Loc := rangeLocations j.acts.extents j.actsOffset (j.cols * j.k * F32_BYTES)

def dstRange : List Loc := rangeLocations j.dst.extents j.dstOffset (j.rows * j.cols * F32_BYTES)

/-- A quantized column of the activations. -/
def column (pf : Platform) (acts : List Byte) (col : Nat) : List Byte × List (BitVec 16) :=
  pf.quantize ((acts.drop (col * j.k * F32_BYTES)).take (j.k * F32_BYTES))

/-- The board where the columns start: the activations are where the quantizer reads them. -/
structure Begun (d : Driver) (pf : Platform) (b : Buffers) (actsAddr : Nat) (dram : Nat → Byte)
    (st : Fpga) : Prop where
  rests : st.Rests
  agrees : Agrees (Area.actsIn.Has d a b) dram st.dram []
  inputs : ∀ t < j.cols * j.k * F32_BYTES,
    st.dram (pf.translate (actsAddr + t)) = (bytesAt d j.actsRange dram)[t]?.getD 0
  apart : ∀ t < j.cols * j.k * F32_BYTES, ¬InScratch d a b (pf.translate (actsAddr + t)) ∧
    ∀ loc ∈ j.dstRange, address d loc ≠ pf.translate (actsAddr + t)

theorem length_actsRange (ha : a.Inv) : j.actsRange.length = j.cols * j.k * F32_BYTES := by
  refine length_rangeLocations ?_
  rw [ha.sums j.acts j.acts_live]
  exact j.acts_inBounds

variable {pf : Platform} {b : Buffers}

/-- The activations get to where the quantizer reads them. -/
theorem resolve_makes (ha : a.Inv) (hd : d.Works a.slabs.length) (hplaced : Placed d a b)
    (hmapped : Mapped d a b pf)
    (hapart : ∀ loc ∈ j.actsRange, loc ∉ j.dstRange) {scratch : Option Buffer} {pre : List Act}
    {actsAddr : Nat}
    (hresolve : resolveActs d a scratch j.acts.handle j.actsOffset (j.cols * j.k * F32_BYTES) =
      ⟨pre, .ok (actsAddr, b.actsIn)⟩)
    {st : Fpga} (hst : st.Rests) {rest : List Act} {post : Fpga → Prop}
    (hrest : ∀ st', j.Begun d pf b actsAddr st.dram st' → Makes pf d a b rest post st') :
    Makes pf d a b (pre ++ rest) post st := by
  have hpos : 0 < j.cols * j.k * F32_BYTES :=
    Nat.mul_pos (Nat.mul_pos j.shape_ok.2.1 j.shape_ok.2.2.1) (by decide)
  rcases resolveActs_cases ha hd j.acts_live scratch hpos j.acts_inBounds
    with ⟨i, o, va, heq, hva, hlocs⟩ | ⟨buffer, heq, hsize⟩
  · -- the range lies in one mapped slab and is read in place
    obtain ⟨rfl, hok⟩ := (Traced.mk.injEq ..).mp (heq.symm.trans hresolve)
    obtain ⟨rfl, -⟩ := Prod.mk.inj (Except.ok.inj hok)
    have hrange : j.actsRange = span i o (j.cols * j.k * F32_BYTES) := hlocs
    have hin : ∀ t < j.cols * j.k * F32_BYTES,
        (i, o + t) ∈ j.actsRange ∧ pf.translate (va + o + t) = address d (i, o + t) := by
      intro t ht
      have hmem : (i, o + t) ∈ j.actsRange := by
        rw [hrange]
        exact mem_span.mpr ⟨rfl, by simp, by simpa using ht⟩
      obtain ⟨slab, hslab, hlt⟩ :=
        ha.inside (mem_liveLocations j.acts_live (mem_locations_of_range hmem))
      rw [Nat.add_assoc]
      exact ⟨hmem, hmapped.slabs i slab va hslab hva _ hlt⟩
    refine hrest st ⟨hst, .refl _ _, fun t ht => ?_, fun t ht => ?_⟩
    · rw [(hin t ht).2, bytesAt, hrange, List.getElem?_map, getElem?_span ht]
      rfl
    · obtain ⟨hmem, haddress⟩ := hin t ht
      have hhas := has_of_live (d := d) (b := b) ha j.acts_live (mem_locations_of_range hmem)
      rw [haddress]
      refine ⟨fun hscratch => hplaced.slab_not_workspace hhas (.inr hscratch),
        fun loc hloc heq => ?_⟩
      have hsame :=
        hplaced.address_inj (has_of_live ha j.dst_live (mem_locations_of_range hloc)) hhas heq
      exact hapart _ hmem (hsame ▸ hloc)
  · -- the range is copied to the buffer of the activations
    obtain ⟨rfl, hok⟩ := (Traced.mk.injEq ..).mp (heq.symm.trans hresolve)
    obtain ⟨rfl, hbuffer⟩ := Prod.mk.inj (Except.ok.inj hok)
    have hstart : startOf b.actsIn = buffer.physicalAddress := by rw [← hbuffer, startOf_some]
    have hlen : j.actsRange.length = j.cols * j.k * F32_BYTES := j.length_actsRange ha
    have haddresses : rangeAddresses d a j.acts.handle j.actsOffset (j.cols * j.k * F32_BYTES) =
        j.actsRange.map (address d) :=
      rangeAddresses_eq ha j.acts_live _ _
    have hhas : ∀ t < j.cols * j.k * F32_BYTES,
        Area.actsIn.Has d a b (buffer.physicalAddress + t) := by
      intro t ht
      refine ⟨?_, ?_⟩
      · rw [Area.start, hstart]
        omega
      · rw [Area.start, Area.size, hstart, ← hbuffer, sizeOf_some]
        omega
    refine .cons_eq (fun _ => Iff.rfl)
      (hrest _ ⟨⟨hst.reachable, hst.idle, hst.started⟩, ?_, fun t ht => ?_, fun t ht => ?_⟩)
    · refine Ram.agrees_pokeAt fun t ht => ?_
      rw [hstart]
      refine hhas t ?_
      rw [haddresses, List.length_map, List.length_map, hlen] at ht
      exact ht
    · have hat := List.getElem?_eq_getElem (show t < (bytesAt d j.actsRange st.dram).length by
        rw [bytesAt, List.length_map, hlen]; exact ht)
      rw [hmapped.actsIn buffer hbuffer.symm t (by omega), hat, Option.getD_some, ← hstart,
        haddresses, List.map_map]
      exact Ram.pokeAt_add hat
    · rw [hmapped.actsIn buffer hbuffer.symm t (by omega)]
      refine ⟨?_, fun loc hloc heq => ?_⟩
      · -- the copy is apart from the other buffers and from every slab
        rintro (hacts | hweights | hres)
        · cases hplaced.apart _ _ _ (hhas t ht) hacts
        · cases hplaced.apart _ _ _ (hhas t ht) hweights
        · cases hplaced.apart _ _ _ (hhas t ht) hres
      · have hslab := has_of_live (d := d) (b := b) ha j.dst_live (mem_locations_of_range hloc)
        rw [heq] at hslab
        cases hplaced.apart _ _ _ (hhas t ht) hslab

/-- The setting of the run of an op. -/
theorem setting {actsAddr : Nat} {acts weightsDma result : Buffer}
    (hready : Ready d a (j.setup actsAddr acts weightsDma result) j.weights j.dst)
    (hplaced : Placed d a b)
    (hb : b = ⟨some acts, some weightsDma, some result, b.actsIn⟩) (hk : j.k ≤ MAX_K)
    (hacts : j.k / Q1_BLOCK * Layout.ACTS_PER_Q1_BLOCK ≤ acts.size)
    (hweights : ∀ loc ∈ j.weightsRange, loc ∉ j.dstRange) :
    Setting d a b (j.setup actsAddr acts weightsDma result) j.weights j.dst where
  ready := hready
  placed := hplaced
  acts_eq := by rw [hb]; rfl
  weightsDma_eq := by rw [hb]; rfl
  result_eq := by rw [hb]; rfl
  k_pos := j.shape_ok.2.2.1
  k_mod := j.shape_ok.2.2.2
  k_le := hk
  packed_eq := rfl
  stream_eq := rfl
  acts_size := hacts
  apart := hweights

/-- The weights of an op, as the passes find them. -/
theorem holdsWeights {src : List Byte} {dram : Nat → Byte}
    (hweights : bytesAt d j.weightsRange dram = Layout.packed src j.rows (j.k / Q1_BLOCK))
    (actsAddr : Nat) (acts weightsDma result : Buffer) :
    HoldsWeights d (j.setup actsAddr acts weightsDma result) j.weights src dram := by
  intro t ht loc hloc
  have hat : j.weightsRange[t]? = some loc := (getElem?_rangeLocations ht).trans hloc
  show _ = (Layout.packed src j.rows (j.k / Q1_BLOCK))[t]?.getD 0
  rw [← hweights, bytesAt, List.getElem?_map, hat]
  rfl

/-- The floats of a column are its part of the activations. -/
theorem Begun.columnFloats {pf : Platform} {actsAddr : Nat} {dram : Nat → Byte} {st : Fpga}
    (h : j.Begun d pf b actsAddr dram st) (ha : a.Inv)
    (acts weightsDma result : Buffer) {col : Nat} (hcol : col < j.cols) :
    columnFloats pf (j.setup actsAddr acts weightsDma result) st.dram col =
      ((bytesAt d j.actsRange dram).drop (col * j.k * F32_BYTES)).take (j.k * F32_BYTES) := by
  have hle : (col + 1) * (j.k * F32_BYTES) ≤ j.cols * (j.k * F32_BYTES) :=
    Nat.mul_le_mul_right _ hcol
  have hlen : (bytesAt d j.actsRange dram).length = j.cols * j.k * F32_BYTES := by
    rw [bytesAt, List.length_map, j.length_actsRange ha]
  rw [Nat.add_mul, Nat.one_mul, ← Nat.mul_assoc, ← Nat.mul_assoc] at hle
  refine List.ext_getElem? fun i => ?_
  rcases Nat.lt_or_ge i (j.k * F32_BYTES) with hi | hi
  · have hinput := h.inputs (col * j.k * F32_BYTES + i) (by omega)
    rw [List.getElem?_eq_getElem (by omega), Option.getD_some] at hinput
    have hrange : (List.range ((j.setup actsAddr acts weightsDma result).k * F32_BYTES))[i]? =
        some i := List.getElem?_range hi
    rw [Board.Matmul.columnFloats, List.getElem?_map, hrange, List.getElem?_take_of_lt hi,
      List.getElem?_drop, List.getElem?_eq_getElem (by omega), ← hinput, ← Nat.add_assoc]
    rfl
  · rw [List.getElem?_eq_none, List.getElem?_eq_none]
    · rw [List.length_take]
      omega
    · rw [Board.Matmul.columnFloats, List.length_map, List.length_range]
      exact hi

end

end Job

/-- A matmul of the driver on the FPGA board. However the kernel and the DMA engines take
    their time, from every state in which the packed weights are in their range, the calls of
    the driver can be done and leave the product in dst: every element is its row of the
    weights times its quantized column in the arithmetic of the RTL, and no other byte of the
    slabs has changed. No native call of the driver fails or times out here (`Driver.Works`). -/
theorem matmul_on_board {σ : Type} {d : Driver} {a : Allocator σ} {op : Op} (pf : Platform)
    (j : Job a op) (ha : a.Inv)
    (hd : d.Works a.slabs.length) {b b' : Buffers} (hrun : (run d a b op).result = .ok b')
    (hplaced : Placed d a b')
    (hmapped : Mapped d a b' pf) (hk : j.k ≤ MAX_K)
    (hweightsApart : ∀ loc ∈ j.weightsRange, loc ∉ j.dstRange)
    (hactsApart : ∀ loc ∈ j.actsRange, loc ∉ j.dstRange) {src : List Byte} {st : Fpga}
    (hst : st.Rests)
    (hweights : bytesAt d j.weightsRange st.dram = Layout.packed src j.rows (j.k / Q1_BLOCK)) :
    Makes pf d a b' (run d a b op).events (fun st' => st'.Rests ∧
      bytesAt d j.dstRange st'.dram =
        Ps.floatBytes
          (product src j.rows j.cols j.k (j.column pf (bytesAt d j.actsRange st.dram))) ∧
      ∀ i slab, a.slabs[i]? = some slab → ∀ o < slab.size, (i, o) ∉ j.dstRange →
        st'.dram (address d (i, o)) = st.dram (address d (i, o))) st := by
  -- the activations are resolved without an error, in place or through the copy
  obtain ⟨pre, actsAddr, actsIn, hresolve⟩ : ∃ pre actsAddr actsIn,
      resolveActs d a b.actsIn j.acts.handle j.actsOffset (j.cols * j.k * F32_BYTES) =
        ⟨pre, .ok (actsAddr, actsIn)⟩ := by
    rcases resolveActs_cases ha hd j.acts_live b.actsIn
      (Nat.mul_pos (Nat.mul_pos j.shape_ok.2.1 j.shape_ok.2.2.1) (by decide))
      j.acts_inBounds with ⟨i, o, va, heq, -, -⟩ | ⟨buffer, heq, -⟩
    · exact ⟨_, _, _, heq⟩
    · exact ⟨_, _, _, heq⟩
  obtain ⟨acts, weightsDma, result, hbuffers, hsize, hw, hr⟩ := ensureBuffers_ok hd b actsIn
    (j.k / Q1_BLOCK * Layout.ACTS_PER_Q1_BLOCK) _ _
  have hready := j.ready ha hd actsAddr acts hw hr
  obtain ⟨hresult, dirty, hevents⟩ := j.run_of_buffers hd hresolve hbuffers hready
  have hb := Except.ok.inj (hrun.symm.trans hresult)
  have hactsIn : b'.actsIn = actsIn := by rw [hb]
  subst hactsIn
  have hset := j.setting hready hplaced hb hk hsize hweightsApart
  rw [hevents]
  -- the activations first: they change the workspace only
  refine j.resolve_makes ha hd hplaced hmapped hactsApart hresolve hst fun st1 hbegun => ?_
  have hworkspace : Agrees (InWorkspace d a b') st.dram st1.dram [] :=
    hbegun.agrees.mono fun x hx => .inl hx
  have hweights1 :=
    hset.weights_kept hworkspace (by simp) (j.holdsWeights hweights actsAddr acts weightsDma result)
  have hinputs : InputsApart pf d a b' (j.setup actsAddr acts weightsDma result) j.dst := by
    intro t ht
    obtain ⟨hscratch, hdst⟩ := hbegun.apart t ht
    refine ⟨hscratch, ?_⟩
    rintro (hres | ⟨loc, hloc, heq⟩)
    · exact hscratch (.inr (.inr hres))
    · exact hdst loc hloc heq
  have hcolumn : ∀ col < j.cols, j.column pf (bytesAt d j.actsRange st.dram) col =
      pf.quantize (columnFloats pf (j.setup actsAddr acts weightsDma result) st1.dram col) := by
    intro col hcol
    rw [hbegun.columnFloats j ha acts weightsDma result hcol]
    rfl
  -- then the columns one after the other, from the state the activations left
  refine .append ((hset.columns_make hbegun.rests hweights1 hinputs hcolumn).mono ?_)
  rintro st2 ⟨hst2, hagrees⟩
  rw [hset.allStores_eq] at hagrees
  have hall : Agrees (InWorkspace d a b') st.dram st2.dram ((j.dstRange.map (address d)).zip
      (Ps.floatBytes
        (product src j.rows j.cols j.k (j.column pf (bytesAt d j.actsRange st.dram))))) :=
    hworkspace.trans (hagrees.mono fun x hx => .inr hx)
  have hlen : (j.dstRange.map (address d)).length =
      (Ps.floatBytes
        (product src j.rows j.cols j.k (j.column pf (bytesAt d j.actsRange st.dram)))).length := by
    rw [List.length_map, floatBytes_product, List.length_map, List.length_range]
    exact length_rangeLocations hset.ready.dst_extents
  -- the invalidation changes no byte, so the values and the frame are those of the columns
  refine invalidate_makes ⟨hst2, ?_, fun i slab hslab o ho hout => ?_⟩
  · rw [← hall.values hlen (hplaced.nodup_addresses ha j.dst_live _ _), bytesAt, List.map_map]
    · rfl
    · intro x hx
      obtain ⟨loc, hloc, rfl⟩ := List.mem_map.mp hx
      exact hplaced.slab_not_workspace (has_of_live ha j.dst_live (mem_locations_of_range hloc))
  · have hhas : (Area.slab i).Has d a b' (address d (i, o)) := by
      refine ⟨Nat.le_add_right _ _, Nat.add_lt_add_left ?_ _⟩
      rw [Area.size, hslab]
      exact ho
    refine hall.kept (hplaced.slab_not_workspace hhas) ?_
    rw [Ram.keys_zip hlen]
    intro hmem
    obtain ⟨loc, hloc, heq⟩ := List.mem_map.mp hmem
    have hsame :=
      hplaced.address_inj (has_of_live ha j.dst_live (mem_locations_of_range hloc)) hhas heq
    exact hout (hsame ▸ hloc)

/-! ### Twenty rows in fragmented tensors -/

/-- A driver whose slabs and buffers lie a page or more apart. -/
def pagedDriver : Driver :=
  { quietDriver with
    pynqBuffer := fun i => if i < 5 then some (0x10000000 + 4096 * i) else none
    baseVa := fun i => if i < 5 then some (0x20000000 + 4096 * i) else none }

theorem pagedDriver_pynqBuffer (i : Nat) :
    pagedDriver.pynqBuffer i = if i < 5 then some (0x10000000 + 4096 * i) else none := rfl

theorem pagedDriver_baseVa (i : Nat) :
    pagedDriver.baseVa i = if i < 5 then some (0x20000000 + 4096 * i) else none := rfl

def pagedBuffers : Buffers where
  acts := some ⟨160, 0x18000000, 0x28000000⟩
  weightsDma := some ⟨432, 0x18001000, 0x28001000⟩
  result := some ⟨96, 0x18002000, 0x28002000⟩
  actsIn := none

/-- The quants of columns of zeros. -/
def zeroPlatform : Platform where
  translate va := va - 0x10000000
  quantize floats := (List.replicate (floats.length / F32_BYTES) 0,
    List.replicate (floats.length / F32_BYTES / Layout.Q8_BLOCK) 0)
  quants_length _ := List.length_replicate
  scales_length _ := List.length_replicate

/-- Weights of twenty rows. -/
def twentyRows : List Byte := (List.range 360).map (BitVec.ofNat 8)

def zeros (_ : Nat) : Byte := 0

/-- The board with the packed weights of `twentyRows` in their tensor and zeros elsewhere. -/
def fragmentedBoard : Fpga where
  dram :=
    poke zeros
      ((fragmentedJob.weightsRange.map (address pagedDriver)).zip (Layout.packed twentyRows 20 1))
  quants := []
  scaleBits := []
  started := none
  kernel := Q1a8.resetKernel

theorem zeroPlatform_translate (va : Nat) : zeroPlatform.translate va = va - 0x10000000 := rfl

theorem fragmentedAllocator_slabs : fragmentedAllocator.slabs.length = 5 := by decide +kernel

theorem fragmentedBoard_dram : fragmentedBoard.dram =
    poke zeros ((fragmentedJob.weightsRange.map (address pagedDriver)).zip
      (Layout.packed twentyRows 20 1)) := by
  simp only [fragmentedBoard]

theorem pagedDriver_works : pagedDriver.Works fragmentedAllocator.slabs.length := by
  rw [fragmentedAllocator_slabs]
  exact
    { ensureNative := rfl, checkKernelId := rfl, regRows := rfl, allocate := fun _ => ⟨_, rfl, rfl⟩
      pynqBuffer := fun i hi => ⟨_, if_pos hi⟩
      baseVa := fun i hi => ⟨_, if_pos hi⟩
      quantizeRc := fun _ => rfl
      packActsRc := fun _ => rfl, startRc := fun _ _ => rfl, waitRc := fun _ _ => rfl }

theorem paged_resolve :
    resolveActs pagedDriver fragmentedAllocator none 1 0 1024 = ⟨[], .ok (0x20002000, none)⟩ := by
  have hpointer : fragmentedAllocator.slabPointer pagedDriver.baseVa 1 0 1024 = .ok 0x20002000 := by
    decide +kernel
  unfold resolveActs
  rw [show ((1 : Nat) : Int) = 1 from rfl, show ((0 : Nat) : Int) = 0 from rfl,
    show ((1024 : Nat) : Int) = 1024 from rfl, hpointer]
  rfl

/-- The page of the memory in which an area lies. -/
def Area.page : Area → Nat
  | .slab i => i
  | .acts => 0x8000
  | .weightsDma => 0x8001
  | .result => 0x8002
  | .actsIn => 0x8003

/-- An area that is not empty starts with its page and is no longer than it. -/
theorem paged_area (area : Area) :
    area.size fragmentedAllocator pagedBuffers = 0 ∧ area.start pagedDriver pagedBuffers = 0 ∨
    area.size fragmentedAllocator pagedBuffers ≤ 4096 ∧ area.start pagedDriver pagedBuffers =
      0x10000000 + 4096 * area.page ∧
      area.page ≤ 0x8003 ∧ ∀ i, area = .slab i → i < 5 := by
  cases area with
  | slab i =>
    have hsizes : fragmentedAllocator.slabs.map Slab.size = [216, 216, 1024, 100, 60] := by
      decide +kernel
    have hsize : (Area.slab i).size fragmentedAllocator pagedBuffers =
        [216, 216, 1024, 100, 60][i]?.getD 0 := by
      rw [← hsizes, List.getElem?_map]
      rfl
    rw [hsize]
    by_cases hi : i < 5
    · refine .inr ⟨?_, ?_, Nat.le_trans (Nat.le_of_lt hi) (by decide), fun _ h =>
        Area.slab.inj h ▸ hi⟩
      · rcases (show i = 0 ∨ i = 1 ∨ i = 2 ∨ i = 3 ∨ i = 4 by omega) with rfl |
          rfl | rfl | rfl | rfl <;> decide
      · rw [Area.start, pagedDriver_pynqBuffer, if_pos hi]
        rfl
    · refine .inl ⟨?_, ?_⟩
      · rw [List.getElem?_eq_none (by simp only [List.length_cons, List.length_nil]; omega)]
        rfl
      · rw [Area.start, pagedDriver_pynqBuffer, if_neg hi]
        rfl
  | acts => exact .inr ⟨by decide, rfl, by decide, fun _ h => by cases h⟩
  | weightsDma => exact .inr ⟨by decide, rfl, by decide, fun _ h => by cases h⟩
  | result => exact .inr ⟨by decide, rfl, by decide, fun _ h => by cases h⟩
  | actsIn => exact .inl ⟨rfl, rfl⟩

theorem paged_placed : Placed pagedDriver fragmentedAllocator pagedBuffers where
  apart area area' x h h' := by
    obtain ⟨hlo, hhi⟩ := h
    obtain ⟨hlo', hhi'⟩ := h'
    rcases paged_area area with ⟨hsize, hstart⟩ | ⟨hsize, hstart, -, hslab⟩
    · omega
    rcases paged_area area' with ⟨hsize', hstart'⟩ | ⟨hsize', hstart', -, hslab'⟩
    · omega
    have hpage : area.page = area'.page := by omega
    cases area with
    | slab i =>
      have hi := hslab i rfl
      cases area' with
      | slab i' => rw [show i = i' from hpage]
      | _ =>
        simp only [Area.page] at hpage
        omega
    | _ =>
      cases area' with
      | slab i' =>
        have hi' := hslab' i' rfl
        simp only [Area.page] at hpage
        omega
      | _ => first | rfl | cases hpage
  inWord area := by
    rcases paged_area area with ⟨hsize, hstart⟩ | ⟨hsize, hstart, hpage, -⟩ <;> omega

theorem paged_mapped : Mapped pagedDriver fragmentedAllocator pagedBuffers zeroPlatform where
  slabs i slab va hslab hva o ho := by
    have hi : i < 5 := by
      obtain ⟨hlt, -⟩ := List.getElem?_eq_some_iff.mp hslab
      rwa [fragmentedAllocator_slabs] at hlt
    rw [pagedDriver_baseVa, if_pos hi] at hva
    obtain rfl := Option.some.inj hva
    rw [address, pagedDriver_pynqBuffer, if_pos hi, Option.getD_some]
    rw [zeroPlatform_translate]
    omega
  actsIn buffer h := by cases h

theorem paged_weights : bytesAt pagedDriver fragmentedJob.weightsRange fragmentedBoard.dram =
    Layout.packed twentyRows 20 1 := by
  have hlen : (fragmentedJob.weightsRange.map (address pagedDriver)).length =
      (Layout.packed twentyRows 20 1).length := by
    rw [List.length_map, Layout.length_packed]
    exact length_rangeLocations (by decide)
  have hagrees : Agrees (fun _ => False) zeros fragmentedBoard.dram
      ((fragmentedJob.weightsRange.map (address pagedDriver)).zip
        (Layout.packed twentyRows 20 1)) := by
    intro x _
    rw [fragmentedBoard_dram]
  have hvalues :=
    hagrees.values hlen (paged_placed.nodup_addresses fragmentedAllocator_inv
      fragmentedJob.weights_live _ _) fun _ _ => id
  rw [bytesAt, ← hvalues, List.map_map]
  rfl

theorem paged_run : (run pagedDriver fragmentedAllocator pagedBuffers fragmentedOp).result =
    .ok pagedBuffers := by
  have hready := fragmentedJob.ready fragmentedAllocator_inv pagedDriver_works 0x20002000
    ⟨160, 0x18000000, 0x28000000⟩
    (show _ ≤ Buffer.size ⟨432, 0x18001000, 0x28001000⟩ by decide)
    (show _ ≤ Buffer.size ⟨96, 0x18002000, 0x28002000⟩ by decide)
  exact (fragmentedJob.run_of_buffers pagedDriver_works paged_resolve rfl hready).1

theorem matmul_on_board_fragmented :
    Makes zeroPlatform pagedDriver fragmentedAllocator pagedBuffers
      (run pagedDriver fragmentedAllocator pagedBuffers fragmentedOp).events (fun st' => st'.Rests ∧
        bytesAt pagedDriver fragmentedJob.dstRange st'.dram =
          Ps.floatBytes (product twentyRows 20 2 128
          (fragmentedJob.column zeroPlatform
            (bytesAt pagedDriver fragmentedJob.actsRange fragmentedBoard.dram))) ∧
        ∀ i slab, fragmentedAllocator.slabs[i]? = some slab → ∀ o < slab.size,
          (i, o) ∉ fragmentedJob.dstRange →
          st'.dram (address pagedDriver (i, o)) =
            fragmentedBoard.dram (address pagedDriver (i, o))) fragmentedBoard :=
  matmul_on_board zeroPlatform fragmentedJob fragmentedAllocator_inv pagedDriver_works paged_run
    paged_placed paged_mapped (by decide)
    (disjoint_ranges (by decide)) (disjoint_ranges (by decide)) ⟨.init ⟨default, _, rfl, rfl⟩, rfl,
      rfl⟩ paged_weights

end Board.Matmul
