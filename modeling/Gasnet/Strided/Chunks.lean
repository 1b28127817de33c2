import Gasnet.Foundation.Memory
import Gasnet.Strided.Traverse

/-! The chunks of a strided transfer: the direct copy `gasnete_strided_memcpy`, and the loop
bodies that gather chunks into a packet and scatter them from it. -/
namespace Gasnet.Strided

/-- `SMD_SELF` and `SMD_PEER`. -/
inductive Side
  | self
  | peer
  deriving DecidableEq, Repr

def Dim.stride (d : Dim) : Side → Word
  | .self => d.self
  | .peer => d.peer

/-- The count and one stride of a dimension. -/
def Dim.axis (side : Side) (d : Dim) : ℕ × Word := (d.count.toNat, d.stride side)

/-- `smd->addr[side]`. -/
def Smd.addr (smd : Smd) : Side → Word
  | .self => smd.self
  | .peer => smd.peer

variable {β : Type*} {smd : Smd} {mem : Word → β} {side src dst : Side} {k n c : ℕ}

/-- A chunk copied to the destination: its coordinates, its address, its bytes. -/
structure Landing (β : Type*) where
  idx : List ℕ
  addr : Word
  bytes : List β
  deriving DecidableEq, Repr

/-- The stores of one `GASNETI_MEMCPY`. -/
def Landing.stores (c : Landing β) : List (Word × β) := (span c.addr c.bytes.length).zip c.bytes

/-- `gasnete_strided_memcpy`. -/
def stridedMemcpy (mem : Word → β) (dstbase srcbase : Word) (elemsz : Word) (dim : List Dim)
    (srcside dstside : Side) : List (Landing β) :=
  (strided (dim.map fun d => (d.count.toNat, d.stride dstside, d.stride srcside))
    (dstbase, srcbase)).map fun v => ⟨v.2, v.1.1, (span v.1.2 elemsz.toNat).map mem⟩

/-- `smd->elemcnt`, without wrapping. -/
def Smd.elemcnt (smd : Smd) : ℕ := (smd.dim.map fun d => d.count.toNat).prod

/-- `smd->totalsz`, without wrapping. -/
def Smd.totalsz (smd : Smd) : ℕ := datasize smd.elemsz smd.dim

/-- The counts and the strides of one side. -/
def Smd.axes (smd : Smd) (side : Side) : List (ℕ × Word) := smd.dim.map (Dim.axis side)

/-- The chunks of the source, one after the other. -/
def gather (mem : Word → β) (visits : List (Visit Word)) (chunksz : ℕ) : List β :=
  visits.flatMap fun v => (span v.1 chunksz).map mem

/-- The loop body of the unpackers. -/
def unpackLoop (chunksz : ℕ) : List (Visit Word) → (psrc : List β) → List (Landing β)
  | [], _ => []
  | (p1, idx) :: visits, psrc =>
    ⟨idx, p1, psrc.take chunksz⟩ :: unpackLoop chunksz visits (psrc.drop chunksz)

/-- A transfer: no dimension and no element is empty, and its bytes can be counted in a
`size_t`. -/
structure Smd.Wf (smd : Smd) : Prop where
  elemsz : smd.elemsz ≠ 0
  count : ∀ d ∈ smd.dim, d.count ≠ 0
  size : smd.totalsz < 2 ^ 64

/-- The counts, the fastest dimension first. -/
abbrev Smd.counts (smd : Smd) : List ℕ := smd.dim.map fun d => d.count.toNat

@[simp] theorem axes_fst (smd : Smd) (side : Side) : (smd.axes side).map Prod.fst = smd.counts := by
  simp [Smd.axes, Dim.axis, Function.comp_def]

theorem extent_axes (smd : Smd) (side : Side) : extent (smd.axes side) = smd.elemcnt := by
  rw [extent, axes_fst]
  rfl

theorem Smd.Wf.count_pos (h : smd.Wf) : ∀ c ∈ smd.counts, c ≠ 0 := by
  intro c hc
  rcases List.mem_map.mp hc with ⟨d, hd, rfl⟩
  exact Nat.pos_iff_ne_zero.mp (toNat_pos (h.count d hd))

theorem Smd.Wf.axes_pos (h : smd.Wf) : ∀ x ∈ smd.axes side, x.1 ≠ 0 := by
  intro x hx
  apply h.count_pos
  rw [← axes_fst smd side]
  exact List.mem_map_of_mem hx

theorem Smd.Wf.elemsz_pos (h : smd.Wf) : 0 < smd.elemsz.toNat := toNat_pos h.elemsz

theorem Smd.Wf.elemcnt_pos (h : smd.Wf) : 0 < smd.elemcnt := by
  rw [← extent_axes smd .self]
  exact extent_pos h.axes_pos

/-- The direct copy of a transfer. -/
def Smd.copy (smd : Smd) (mem : Word → β) (src dst : Side) : List (Landing β) :=
  stridedMemcpy mem (smd.addr dst) (smd.addr src) smd.elemsz smd.dim src dst

/-- The bytes of the chunk at position `k`. -/
def chunkBytes (smd : Smd) (mem : Word → β) (src : Side) (k : ℕ) : List β :=
  (span (smd.addr src + offset (smd.axes src) k) smd.elemsz.toNat).map mem

/-- The chunk at position `k`, landed. -/
def landing (smd : Smd) (mem : Word → β) (src dst : Side) (k : ℕ) : Landing β :=
  ⟨countdown smd.counts k, smd.addr dst + offset (smd.axes dst) k, chunkBytes smd mem src k⟩

@[simp] theorem length_chunkBytes (smd : Smd) (mem : Word → β) (src : Side) (k : ℕ) :
    (chunkBytes smd mem src k).length = smd.elemsz.toNat := by simp [chunkBytes]

/-- The chunks of two sides, in order. -/
theorem strided_pairs (h : smd.Wf) (s s' : Side) :
    strided (smd.dim.map fun d => (d.count.toNat, d.stride s, d.stride s'))
        (smd.addr s, smd.addr s') =
      (List.range' 0 smd.elemcnt).map fun k =>
        ((smd.addr s + offset (smd.axes s) k, smd.addr s' + offset (smd.axes s') k),
          countdown smd.counts k) := by
  have hpair : ∀ x ∈ smd.dim.map fun d => (d.count.toNat, d.stride s, d.stride s'), x.1 ≠ 0 := by
    intro x hx
    rcases List.mem_map.mp hx with ⟨d, hd, rfl⟩
    exact h.count_pos _ (List.mem_map_of_mem hd)
  have hfst : (smd.dim.map fun d => (d.count.toNat, d.stride s, d.stride s')).map
      Prod.fst = smd.counts := by simp [Function.comp_def]
  have hoff : ∀ k, offset (smd.dim.map fun d => (d.count.toNat, d.stride s, d.stride s')) k =
      (offset (smd.axes s) k, offset (smd.axes s') k) := by
    intro k
    have hp := offset_map (AddMonoidHom.fst Word Word)
      (smd.dim.map fun d => (d.count.toNat, d.stride s, d.stride s')) k
    have hs := offset_map (AddMonoidHom.snd Word Word)
      (smd.dim.map fun d => (d.count.toNat, d.stride s, d.stride s')) k
    rw [List.map_map] at hp hs
    exact Prod.ext hp.symm hs.symm
  rw [strided_eq hpair, extent, hfst]
  refine List.map_congr_left fun k _ => ?_
  simp [visit, hoff, hfst]

/-- The direct copy lands every chunk, in order. -/
theorem copy_eq (h : smd.Wf) (mem : Word → β) (src dst : Side) :
    smd.copy mem src dst = (List.range' 0 smd.elemcnt).map (landing smd mem src dst) := by
  rw [Smd.copy, stridedMemcpy, strided_pairs h, List.map_map]
  rfl

theorem unpackLoop_eq (dims : List (ℕ × Word)) (base : Word) {bytes : ℕ → List β}
    (hb : ∀ k, (bytes k).length = c) (ks : List ℕ) :
    unpackLoop c (ks.map (visit dims base)) (ks.flatMap bytes) =
      ks.map fun k => ⟨countdown (dims.map Prod.fst) k, base + offset dims k, bytes k⟩ := by
  induction ks with
  | nil => rfl
  | cons k ks ih =>
    rw [List.map_cons, List.map_cons, List.flatMap_cons, visit, unpackLoop,
      List.take_left' (hb k), List.drop_left' (hb k), ih]

theorem digits_lt {l : List ℕ} (h : ∀ c ∈ l, c ≠ 0 ∧ c < 2 ^ 64) (k : ℕ) :
    ∀ i ∈ digits l k, i < 2 ^ 64 := by
  induction l generalizing k with
  | nil => simp [digits]
  | cons c l ih =>
    rcases h c List.mem_cons_self with ⟨hc, hlt⟩
    intro i hi
    rcases List.mem_cons.mp hi with rfl | hi
    · exact (Nat.mod_lt _ (Nat.pos_of_ne_zero hc)).trans hlt
    · exact ih (fun d hd => h d (List.mem_cons_of_mem _ hd)) _ i hi

/-- Coordinates survive their trip in the header. -/
theorem header_init (h : smd.Wf) (k : ℕ) :
    ((digits smd.counts k).map (BitVec.ofNat 64)).map BitVec.toNat = digits smd.counts k := by
  rw [List.map_map]
  refine List.map_congr_left (g := id) (fun i hi => ?_) |>.trans (List.map_id _)
  have hlt : i < 2 ^ 64 := by
    refine digits_lt (fun c hc => ⟨h.count_pos c hc, ?_⟩) k i hi
    rcases List.mem_map.mp hc with ⟨d, _, rfl⟩
    exact d.count.isLt
  rw [Function.comp_apply, BitVec.toNat_ofNat, Nat.mod_eq_of_lt hlt, id_eq]

theorem zip_axes (smd : Smd) (side : Side) :
    ((smd.dim.map Dim.count).map BitVec.toNat).zip (smd.dim.map (Dim.stride · side)) =
      smd.axes side := by
  rw [List.map_map, List.zip_map']
  rfl

theorem toNat_arg (h : n < 2 ^ 32) : (BitVec.ofNat 32 n).toNat = n := by
  rw [BitVec.toNat_ofNat, Nat.mod_eq_of_lt h]

theorem gather_eq (smd : Smd) (mem : Word → β) (src : Side) (ks : List ℕ) :
    gather mem (ks.map (visit (smd.axes src) (smd.addr src))) smd.elemsz.toNat =
      ks.flatMap (chunkBytes smd mem src) := by
  rw [gather, List.flatMap_map]
  rfl

/-- The chunks visited from a header's coordinates. -/
theorem partial_visits (h : smd.Wf) (side : Side) (hn : 0 < n) (hk : k + n ≤ smd.elemcnt) :
    (stridedPartial (smd.axes side) (smd.addr side) n (digits smd.counts k) false 0).1 =
      (List.range' k n).map (visit (smd.axes side) (smd.addr side)) := by
  have hp := @stridedPartial_eq Word _ (smd.axes side) (smd.addr side) k n h.axes_pos hn
    (by rw [extent_axes]; exact hk) false 0 (fun _ => rfl)
  rw [axes_fst] at hp
  simp only [Bool.false_eq_true, if_false] at hp
  rw [hp]

theorem scatter_eq (smd : Smd) (mem : Word → β) (src dst : Side) (ks : List ℕ) :
    unpackLoop smd.elemsz.toNat (ks.map (visit (smd.axes dst) (smd.addr dst)))
      (ks.flatMap (chunkBytes smd mem src)) = ks.map (landing smd mem src dst) := by
  rw [unpackLoop_eq _ _ (length_chunkBytes smd mem src), axes_fst]
  rfl

theorem landing_idx_inj (h : smd.Wf) {k' : ℕ} (hk : k < smd.elemcnt) (hk' : k' < smd.elemcnt)
    (he : (landing smd mem src dst k).idx = (landing smd mem src dst k').idx) : k = k' := by
  have hz := congrArg (List.zipWith (· - ·) smd.counts) he
  rw [landing, landing, zipWith_countdown h.count_pos, zipWith_countdown h.count_pos] at hz
  exact digits_inj hk hk' hz

theorem mem_landing_idx (h : smd.Wf) {s : ℕ} (hk : k < smd.elemcnt) (hs : s + n ≤ smd.elemcnt) :
    (landing smd mem src dst k).idx ∈ ((List.range' s n).map (landing smd mem src dst)).map Landing.idx ↔
      s ≤ k ∧ k < s + n := by
  rw [List.map_map, List.mem_map]
  constructor
  · rintro ⟨k', hk', he⟩
    rw [List.mem_range'_1] at hk'
    rw [landing_idx_inj h hk (by omega) he.symm]
    exact hk'
  · intro hin
    exact ⟨k, List.mem_range'_1.mpr hin, rfl⟩

end Gasnet.Strided
