import Gasnet.Foundation.Cut
import Gasnet.Strided.Chunks

/-! The strided copy `gasnete_strided_memcpy` and the request packets of
`gasnete_puts_AMPipeline`. -/
namespace Gasnet.Strided

variable {β : Type*}

/-- `smd->lcontig_dims`: how many inner dimensions continue the element. -/
def lcontigDims (side : Side) : (lcontigsz : Word) → List Dim → ℕ
  | _, [] => 0
  | lcontigsz, d :: dim =>
    if d.stride side = lcontigsz then lcontigDims side (lcontigsz * d.count) dim + 1 else 0

/-- `smd->lcontig_dims[SMD_SELF] == stridelevels`. -/
def Smd.srcContig (smd : Smd) : Bool := lcontigDims .self smd.elemsz smd.dim == smd.dim.length

/-- What the conduit grants: the limits on the two kinds of packet, and with
`GASNETE_VIS_NPAM == 2` the size of the buffer it hands out when so many chunks remain. -/
structure Medium where
  maxpacket1 : ℕ
  maxpacket : ℕ
  srcDescSize : Option (ℕ → ℕ)

/-- `GASNETE_PUTS_AMPIPELINE1_PACKETOVERHEAD`. -/
def overhead1 (stridelevels : ℕ) : ℕ := stridelevels * (8 + 8)

/-- `GASNETE_PUTS_AMPIPELINE_PACKETOVERHEAD`. -/
def overhead (stridelevels : ℕ) : ℕ := stridelevels * (2 * 8 + 8)

/-- `packetchunks`. -/
def Medium.packetchunks (m : Medium) (headersz chunksz remaining : ℕ) : ℕ :=
  match m.srcDescSize with
  | none => min ((m.maxpacket - headersz) / chunksz) remaining
  | some size => (size remaining - headersz) / chunksz

/-- A request: the narrowed AM arguments, the header arrays one after the other, the data. Without
`packetchunks` it is for the single-packet handler and has no `packet_init`. -/
structure Packet (β : Type*) where
  dstaddr : Word
  stridelevels : BitVec 32
  chunksz : BitVec 32
  packetchunks : Option (BitVec 32)
  header : List Word
  payload : List β
  deriving DecidableEq, Repr

/-- `gasnete_puts_AMPipeline1_reqh`. -/
def putsAMPipeline1Reqh (p : Packet β) : List (Landing β) :=
  let stridelevels := p.stridelevels.toNat
  let packetcount := (p.header.take stridelevels).map BitVec.toNat
  let packetstrides := (p.header.drop stridelevels).take stridelevels
  unpackLoop p.chunksz.toNat (strided (packetcount.zip packetstrides) p.dstaddr) p.payload

/-- `gasnete_puts_AMPipeline_reqh`. -/
def putsAMPipelineReqh (p : Packet β) (packetchunks : BitVec 32) : List (Landing β) :=
  let stridelevels := p.stridelevels.toNat
  let packetinit := (p.header.take stridelevels).map BitVec.toNat
  let packetcount := ((p.header.drop stridelevels).take stridelevels).map BitVec.toNat
  let packetstrides := ((p.header.drop stridelevels).drop stridelevels).take stridelevels
  unpackLoop p.chunksz.toNat
    (stridedPartial (packetcount.zip packetstrides) p.dstaddr packetchunks.toNat packetinit
      false 0).1 p.payload

/-- The chunks a request lands. -/
def Packet.unpack (p : Packet β) : List (Landing β) :=
  match p.packetchunks with
  | none => putsAMPipeline1Reqh p
  | some packetchunks => putsAMPipelineReqh p packetchunks

section Sender

variable (m : Medium) (smd : Smd) (mem : Word → β)

/-- "fill packet with data": the data, then `srcaddr` and `init` for the next packet. The helper
takes `remaining` as its `int update_addr_init`. -/
def fill (srcaddr : Word) (init : List ℕ) (packetchunks remaining : ℕ) :
    List β × Word × List ℕ :=
  let chunksz := smd.elemsz.toNat
  if smd.srcContig then
    let packetsz := packetchunks * chunksz
    ((span srcaddr packetsz).map mem, srcaddr + (packetsz : Word),
      if remaining ≠ 0 then vectorInc (smd.dim.map fun d => d.count.toNat) init packetchunks
        else init)
  else
    let (visits, srcaddr, init) :=
      stridedPartial (smd.axes .self) srcaddr packetchunks init true (BitVec.ofNat 32 remaining)
    (gather mem visits chunksz, srcaddr, init)

/-- The packetization loop. -/
def packetize : (fuel remaining : ℕ) → (srcaddr : Word) → (init : List ℕ) → List (Packet β)
  | 0, _, _, _ => []
  | fuel + 1, remaining, srcaddr, init =>
    let stridelevels := smd.dim.length
    let packetchunks := m.packetchunks (overhead stridelevels) smd.elemsz.toNat remaining
    let left := remaining - packetchunks
    let (payload, srcaddr', init') := fill smd mem srcaddr init packetchunks left
    let packet : Packet β :=
      { dstaddr := smd.peer
        stridelevels := BitVec.ofNat 32 stridelevels
        chunksz := BitVec.ofNat 32 smd.elemsz.toNat
        packetchunks := some (BitVec.ofNat 32 packetchunks)
        header := init.map (BitVec.ofNat 64) ++ smd.dim.map Dim.count ++ smd.dim.map (Dim.stride · .peer)
        payload }
    packet :: if left = 0 then [] else packetize fuel left srcaddr' init'

/-- The simplified path. -/
def singlePacket : Packet β :=
  { dstaddr := smd.peer
    stridelevels := BitVec.ofNat 32 smd.dim.length
    chunksz := BitVec.ofNat 32 smd.elemsz.toNat
    packetchunks := none
    header := smd.dim.map Dim.count ++ smd.dim.map (Dim.stride · .peer)
    payload :=
      if smd.srcContig then (span smd.self smd.totalsz).map mem
      else gather mem (strided (smd.axes .self) smd.self) smd.elemsz.toNat }

/-- `gasnete_puts_AMPipeline`: the requests it sends. -/
def putsAMPipeline : List (Packet β) :=
  if smd.totalsz ≤ m.maxpacket1 - overhead1 smd.dim.length then [singlePacket smd mem]
  else packetize m smd mem smd.elemcnt smd.elemcnt smd.self (List.replicate smd.dim.length 0)

end Sender
end Gasnet.Strided

/-! What one request of the put pipeline lands. -/
namespace Gasnet.Strided

variable {β : Type*} {m : Medium} {smd : Smd} {mem : Word → β} {k n c : ℕ} {side : Side}

/-- The limits admit the metadata and one chunk, as the code asserts, and a negotiated buffer
is within what was asked for. The AM arguments hold what is put in them. -/
structure Medium.Admits (m : Medium) (smd : Smd) : Prop where
  single : overhead1 smd.dim.length + smd.elemsz.toNat ≤ m.maxpacket1
  general : overhead smd.dim.length + smd.elemsz.toNat ≤ m.maxpacket
  arg : m.maxpacket < 2 ^ 32
  desc : ∀ size, m.srcDescSize = some size → ∀ r, r ≠ 0 →
    overhead smd.dim.length + smd.elemsz.toNat ≤ size r ∧
    size r ≤ overhead smd.dim.length + r * smd.elemsz.toNat ∧ size r ≤ m.maxpacket

theorem Medium.Admits.levels (hm : m.Admits smd) : smd.dim.length < 2 ^ 32 := by
  have h := hm.general
  have harg := hm.arg
  unfold overhead at h
  omega

theorem Medium.Admits.elemsz (hm : m.Admits smd) : smd.elemsz.toNat < 2 ^ 32 := by
  have h := hm.general
  have harg := hm.arg
  omega

/-- The request for `n` chunks from position `k`. -/
def packetAt (smd : Smd) (mem : Word → β) (k n : ℕ) : Packet β :=
  { dstaddr := smd.peer
    stridelevels := BitVec.ofNat 32 smd.dim.length
    chunksz := BitVec.ofNat 32 smd.elemsz.toNat
    packetchunks := some (BitVec.ofNat 32 n)
    header := (digits smd.counts k).map (BitVec.ofNat 64) ++ smd.dim.map Dim.count ++
      smd.dim.map (Dim.stride · .peer)
    payload := (List.range' k n).flatMap (chunkBytes smd mem .self) }

/-- The handler lands the chunks the sender meant. -/
theorem packetAt_unpack (h : smd.Wf) (hm : m.Admits smd) (hn : 0 < n) (hn' : n < 2 ^ 32)
    (hk : k + n ≤ smd.elemcnt) :
    (packetAt smd mem k n).unpack = (List.range' k n).map (landing smd mem .self .peer) := by
  have hlen : ((digits smd.counts k).map (BitVec.ofNat 64)).length = smd.dim.length := by simp
  have hlen' : (smd.dim.map Dim.count).length = smd.dim.length := List.length_map _
  have hlen'' : (smd.dim.map (Dim.stride · .peer)).length = smd.dim.length := List.length_map _
  simp only [Packet.unpack, packetAt, putsAMPipelineReqh, toNat_arg hm.levels,
    toNat_arg hm.elemsz, toNat_arg hn', List.append_assoc, List.take_left' hlen,
    List.drop_left' hlen, List.take_left' hlen', List.drop_left' hlen', header_init h]
  rw [List.take_of_length_le (Nat.le_of_eq hlen''), zip_axes]
  change unpackLoop _ (stridedPartial _ (smd.addr .peer) _ _ _ _).1 _ = _
  rw [partial_visits h .peer hn hk, scatter_eq]

/-- The contiguous dimensions step from element to element. -/
theorem offset_contig {l : List Dim} {e : Word} {i : ℕ}
    (hi : i < extent ((l.take (lcontigDims side e l)).map (Dim.axis side))) :
    offset ((l.take (lcontigDims side e l)).map (Dim.axis side)) i = i • e := by
  induction l generalizing e i with
  | nil =>
    have hz : i = 0 := by simpa [lcontigDims, extent] using hi
    simp [lcontigDims, hz]
  | cons d l ih =>
    rw [lcontigDims] at hi ⊢
    split
    · rename_i hstride
      rw [if_pos hstride, List.take_succ_cons, List.map_cons] at hi
      rw [List.take_succ_cons, List.map_cons, Dim.axis, offset, hstride]
      rw [Dim.axis, extent_cons] at hi
      rw [ih (Nat.div_lt_of_lt_mul hi), mul_comm, ← toNat_nsmul, ← mul_nsmul', ← add_nsmul,
        Nat.mul_comm, Nat.mod_add_div]
    · rename_i hstride
      rw [if_neg hstride] at hi
      have hz : i = 0 := by simpa [extent] using hi
      simp [hz]

theorem srcContig_offset (h : smd.srcContig = true) (hk : k < smd.elemcnt) :
    offset (smd.axes .self) k = k • smd.elemsz := by
  have hall : lcontigDims .self smd.elemsz smd.dim = smd.dim.length := by
    simpa [Smd.srcContig] using h
  have hoff := @offset_contig .self smd.dim smd.elemsz k
  rw [hall, List.take_length] at hoff
  exact hoff (by rwa [← extent_axes smd .self] at hk)

/-- From a contiguous source the chunks are one block. -/
theorem contig_bytes (h : smd.srcContig = true) (hk : k + n ≤ smd.elemcnt) :
    (span (smd.self + k • smd.elemsz) (n * smd.elemsz.toNat)).map mem =
      (List.range' k n).flatMap (chunkBytes smd mem .self) := by
  rw [span_mul, List.range'_eq_map_range, List.flatMap_map, List.map_flatMap]
  refine List.flatMap_congr fun i hi => ?_
  have hi : i < n := List.mem_range.mp hi
  rw [chunkBytes, Smd.addr, srcContig_offset h (by omega), natCast_toNat, add_assoc, ← add_nsmul]

/-- The single packet lands everything. -/
theorem singlePacket_unpack (h : smd.Wf) (hm : m.Admits smd) :
    (singlePacket smd mem).unpack = (List.range' 0 smd.elemcnt).map (landing smd mem .self .peer) := by
  have hlen : (smd.dim.map Dim.count).length = smd.dim.length := List.length_map _
  have hlen' : (smd.dim.map (Dim.stride · .peer)).length = smd.dim.length := List.length_map _
  have hdata : (if smd.srcContig then (span smd.self smd.totalsz).map mem
      else gather mem (strided (smd.axes .self) smd.self) smd.elemsz.toNat) =
      (List.range' 0 smd.elemcnt).flatMap (chunkBytes smd mem .self) := by
    by_cases hc : smd.srcContig = true
    · have hsz : smd.totalsz = smd.elemcnt * smd.elemsz.toNat := Nat.mul_comm _ _
      have hb := @contig_bytes β smd mem 0 smd.elemcnt hc (by omega)
      rw [zero_nsmul, add_zero] at hb
      rw [if_pos hc, hsz, hb]
    · rw [if_neg hc, strided_eq h.axes_pos, ← gather_eq, extent_axes]
      rfl
  simp only [Packet.unpack, singlePacket, putsAMPipeline1Reqh, toNat_arg hm.levels,
    toNat_arg hm.elemsz, List.take_left' hlen, List.drop_left' hlen]
  rw [List.take_of_length_le (Nat.le_of_eq hlen'), zip_axes, hdata, strided_eq h.axes_pos,
    extent_axes]
  exact scatter_eq smd mem .self .peer _

end Gasnet.Strided

/-! When the put pipeline is the direct copy. -/
namespace Gasnet.Strided

variable {β : Type*} {m : Medium} {smd : Smd} {mem : Word → β} {k n r left fuel : ℕ}

/-- `packetchunks` as a function of what remains. -/
def Medium.sizes (m : Medium) (smd : Smd) (remaining : ℕ) : ℕ :=
  m.packetchunks (overhead smd.dim.length) smd.elemsz.toNat remaining

theorem sizes_mul_le (hm : m.Admits smd) (hr : r ≠ 0) :
    m.sizes smd r * smd.elemsz.toNat ≤ m.maxpacket := by
  unfold Medium.sizes Medium.packetchunks
  rcases hd : m.srcDescSize with _ | size
  · simp only
    calc min ((m.maxpacket - overhead smd.dim.length) / smd.elemsz.toNat) r * smd.elemsz.toNat
        ≤ (m.maxpacket - overhead smd.dim.length) / smd.elemsz.toNat * smd.elemsz.toNat :=
          Nat.mul_le_mul_right _ (min_le_left _ _)
      _ ≤ m.maxpacket - overhead smd.dim.length := Nat.div_mul_le_self _ _
      _ ≤ m.maxpacket := Nat.sub_le _ _
  · rcases hm.desc size hd r hr with ⟨_, _, hmax⟩
    simp only
    exact (Nat.div_mul_le_self _ _).trans ((Nat.sub_le _ _).trans hmax)

theorem sizes_cutting (h : smd.Wf) (hm : m.Admits smd) : Cutting (m.sizes smd) := by
  intro r hr
  have hpos := h.elemsz_pos
  have hgen := hm.general
  unfold Medium.sizes Medium.packetchunks
  rcases hd : m.srcDescSize with _ | size
  · simp only
    have : 1 ≤ (m.maxpacket - overhead smd.dim.length) / smd.elemsz.toNat := by
      rw [Nat.le_div_iff_mul_le hpos]
      omega
    omega
  · rcases hm.desc size hd r hr with ⟨hmin, hmax, _⟩
    simp only
    have hlow : 1 ≤ (size r - overhead smd.dim.length) / smd.elemsz.toNat := by
      rw [Nat.le_div_iff_mul_le hpos]
      omega
    have hup : (size r - overhead smd.dim.length) / smd.elemsz.toNat ≤ r := by
      rw [Nat.div_le_iff_le_mul_add_pred hpos, mul_comm]
      omega
    omega

theorem sizes_lt (h : smd.Wf) (hm : m.Admits smd) (hr : r ≠ 0) : m.sizes smd r < 2 ^ 32 :=
  lt_of_le_of_lt ((Nat.le_mul_of_pos_right _ h.elemsz_pos).trans (sizes_mul_le hm hr)) hm.arg

/-- Whether the sender moves on when `left` chunks remain. -/
def Smd.resumes (smd : Smd) (left : ℕ) : Bool := smd.srcContig || BitVec.ofNat 32 left != 0

theorem fill_data (h : smd.Wf) (hn : 0 < n) (hk : k + n ≤ smd.elemcnt)
    (hleft : left ≠ 0 → k + n < smd.elemcnt) :
    (fill smd mem (smd.self + offset (smd.axes .self) k) (digits smd.counts k) n left).1 =
      (List.range' k n).flatMap (chunkBytes smd mem .self) := by
  unfold fill
  by_cases hc : smd.srcContig = true
  · simp only [hc, if_true]
    rw [srcContig_offset hc (by omega), contig_bytes hc hk]
  · have hp := @stridedPartial_eq Word _ (smd.axes .self) smd.self k n h.axes_pos hn
      (by rw [extent_axes]; exact hk) true (BitVec.ofNat 32 left) (by
        rw [extent_axes]
        intro he
        by_contra hz
        exact absurd (hleft fun h0 => hz (by rw [h0]; rfl)) (by omega))
    rw [axes_fst] at hp
    simp only [hc, Bool.false_eq_true, if_false]
    simp only [if_true] at hp
    rw [hp]
    exact gather_eq smd mem .self _

/-- The cursor moves past the packet, or not at all. -/
theorem fill_cursor (h : smd.Wf) (hn : 0 < n) (hleft : left ≠ 0) (hk : k + n < smd.elemcnt) :
    (fill smd mem (smd.self + offset (smd.axes .self) k) (digits smd.counts k) n left).2 =
      (smd.self + offset (smd.axes .self) (if smd.resumes left then k + n else k),
        digits smd.counts (if smd.resumes left then k + n else k)) := by
  unfold fill Smd.resumes
  by_cases hc : smd.srcContig = true
  · simp only [hc, if_true, Bool.true_or, if_pos hleft, vectorInc_digits]
    rw [srcContig_offset hc (by omega), srcContig_offset hc hk, add_nsmul, Nat.cast_mul,
      natCast_toNat, ← nsmul_eq_mul, add_assoc]
  · have hp := @stridedPartial_eq Word _ (smd.axes .self) smd.self k n h.axes_pos hn
      (by rw [extent_axes]; omega) true (BitVec.ofNat 32 left) (by
        rw [extent_axes]
        omega)
    rw [axes_fst] at hp
    simp only [if_true] at hp
    simp only [hc, Bool.false_eq_true, if_false, Bool.false_or, bne_iff_ne, hp]
    by_cases hu : BitVec.ofNat 32 left = 0#32
    · simp [hu]
    · simp [hu]

/-- The requests are those of the cuts the sender makes. -/
theorem packetize_eq (h : smd.Wf) (hm : m.Admits smd) (hr : r ≠ 0) (hk : k + r ≤ smd.elemcnt) :
    packetize m smd mem fuel r (smd.self + offset (smd.axes .self) k) (digits smd.counts k) =
      (cuts (m.sizes smd) smd.resumes fuel r k).map fun c => packetAt smd mem c.1 c.2 := by
  induction fuel generalizing r k with
  | zero => rfl
  | succ fuel ih =>
    rcases sizes_cutting h hm r hr with ⟨h0, hle⟩
    have hn : 0 < m.sizes smd r := Nat.pos_of_ne_zero h0
    have hdata := @fill_data β smd mem k (m.sizes smd r) (r - m.sizes smd r) h hn (by omega)
      (by omega)
    have hsize : m.packetchunks (overhead smd.dim.length) smd.elemsz.toNat r = m.sizes smd r := rfl
    rw [packetize, cuts, List.map_cons]
    simp only [hsize, hdata]
    by_cases hz : r - m.sizes smd r = 0
    · rw [if_pos hz, if_pos hz]
      rfl
    · have hcur := @fill_cursor β smd mem k (m.sizes smd r) (r - m.sizes smd r) h hn hz (by omega)
      rw [if_neg hz, if_neg hz]
      simp only [hcur]
      rw [ih hz (by split <;> omega)]
      rfl

theorem packetize_start (h : smd.Wf) (hm : m.Admits smd) :
    packetize m smd mem smd.elemcnt smd.elemcnt smd.self (List.replicate smd.dim.length 0) =
      (cuts (m.sizes smd) smd.resumes smd.elemcnt smd.elemcnt 0).map
        fun c => packetAt smd mem c.1 c.2 := by
  have hp := @packetize_eq β m smd mem 0 smd.elemcnt smd.elemcnt h hm
    (Nat.pos_iff_ne_zero.mp h.elemcnt_pos) (by omega)
  rwa [offset_zero, add_zero, digits_zero, List.length_map] at hp

theorem cut_unpack (h : smd.Wf) (hm : m.Admits smd) {c : ℕ × ℕ}
    (hc : c ∈ cuts (m.sizes smd) smd.resumes smd.elemcnt smd.elemcnt 0) :
    (packetAt smd mem c.1 c.2).unpack = (List.range' c.1 c.2).map (landing smd mem .self .peer) := by
  have hne := Nat.pos_iff_ne_zero.mp h.elemcnt_pos
  rcases cuts_size (sizes_cutting h hm) hne hc with ⟨hpos, r', hr', he⟩
  apply packetAt_unpack h hm (Nat.pos_of_ne_zero hpos)
  · rw [he]
    exact sizes_lt h hm hr'
  · exact cuts_le (sizes_cutting h hm) hne (by omega) c hc

/-- Whatever the order of delivery, the chunks landed are those of the direct copy, and each
comes in one request. -/
def PutsRefines (m : Medium) (smd : Smd) (mem : Word → β) : Prop :=
  (∀ order : List (Packet β), order.Perm (putsAMPipeline m smd mem) →
    (order.flatMap Packet.unpack).Perm
      (smd.copy mem .self .peer)) ∧
  ∀ c ∈ smd.copy mem .self .peer,
    (putsAMPipeline m smd mem).countP (fun p => c.idx ∈ p.unpack.map Landing.idx) = 1

/-- Requests that land the cuts of the whole range, each chunk once. -/
theorem refines_of_lands (h : smd.Wf) {cs : List (ℕ × ℕ)} {ps : List (Packet β)}
    (hps : putsAMPipeline m smd mem = ps)
    (hland : ps.map Packet.unpack = cs.map fun c => (List.range' c.1 c.2).map (landing smd mem .self .peer))
    (hall : cs.flatMap (fun c => List.range' c.1 c.2) = List.range' 0 smd.elemcnt) :
    PutsRefines m smd mem := by
  have hle : ∀ c ∈ cs, c.2 ≠ 0 → c.1 + c.2 ≤ smd.elemcnt := by
    intro c hc h0
    have hmem : c.1 + c.2 - 1 ∈ cs.flatMap fun c => List.range' c.1 c.2 :=
      List.mem_flatMap.mpr ⟨c, hc, List.mem_range'_1.mpr (by omega)⟩
    rw [hall, List.mem_range'_1] at hmem
    omega
  constructor
  · intro order hord
    rw [hps] at hord
    refine (hord.flatMap_right _).trans ?_
    rw [List.flatMap_def, hland, copy_eq h, ← hall, List.map_flatMap, List.flatMap_def]
  · rw [copy_eq h]
    intro c hc
    rcases List.mem_map.mp hc with ⟨k, hk, rfl⟩
    have hk : k < smd.elemcnt := by
      have := List.mem_range'_1.mp hk
      omega
    have hcount : ps.countP (fun p => (landing smd mem .self .peer k).idx ∈ p.unpack.map Landing.idx) =
        (ps.map Packet.unpack).countP fun l => (landing smd mem .self .peer k).idx ∈ l.map Landing.idx := by
      rw [List.countP_map]
      rfl
    rw [hps, hcount, hland, List.countP_map]
    calc cs.countP _ = cs.countP fun c => c.1 ≤ k ∧ k < c.1 + c.2 := by
          refine List.countP_congr fun c hc => ?_
          simp only [Function.comp_apply, decide_eq_true_eq]
          by_cases h0 : c.2 = 0
          · simp only [h0, List.range'_zero, List.map_nil, List.not_mem_nil, false_iff]
            omega
          · exact mem_landing_idx h hk (hle c hc h0)
      _ = (List.range' 0 smd.elemcnt).count k := by rw [← hall, count_cuts]
      _ = 1 := List.count_eq_one_of_mem List.nodup_range' (List.mem_range'_1.mpr (by omega))

/-- What is left to send after each request of the general path but the last. -/
def Medium.leftovers (m : Medium) (smd : Smd) : List ℕ :=
  Gasnet.leftovers (m.sizes smd) smd.elemcnt smd.elemcnt

/-- The general path refines the direct copy while every leftover makes the sender move on. -/
theorem refines_of_resumes (h : smd.Wf) (hm : m.Admits smd)
    (hbig : ¬ smd.totalsz ≤ m.maxpacket1 - overhead1 smd.dim.length)
    (hres : ∀ l ∈ m.leftovers smd, smd.resumes l = true) : PutsRefines m smd mem := by
  have hne := Nat.pos_iff_ne_zero.mp h.elemcnt_pos
  refine refines_of_lands h (by rw [putsAMPipeline, if_neg hbig, packetize_start h hm]) ?_
    (cuts_flatMap (k := 0) (sizes_cutting h hm) hne le_rfl hres)
  rw [List.map_map]
  exact List.map_congr_left fun c hc => cut_unpack h hm hc

/-- After a leftover that the `int` parameter reads as zero, the last chunk is never sent. -/
theorem not_refines_of_stuck (h : smd.Wf) (hm : m.Admits smd)
    (hbig : ¬ smd.totalsz ≤ m.maxpacket1 - overhead1 smd.dim.length)
    (hstuck : ∃ l ∈ m.leftovers smd, smd.resumes l = false) : ¬ PutsRefines m smd mem := by
  have hpos := h.elemcnt_pos
  have hne := Nat.pos_iff_ne_zero.mp hpos
  rintro ⟨-, hone⟩
  have hlast : landing smd mem .self .peer (smd.elemcnt - 1) ∈
      smd.copy mem .self .peer := by
    rw [copy_eq h]
    exact List.mem_map_of_mem (List.mem_range'_1.mpr (by omega))
  have hcount := hone _ hlast
  rw [putsAMPipeline, if_neg hbig, packetize_start h hm] at hcount
  rcases List.countP_pos_iff.mp (Nat.lt_of_lt_of_eq Nat.one_pos hcount.symm) with ⟨p, hp, hidx⟩
  rcases List.mem_map.mp hp with ⟨c, hc, rfl⟩
  have hlt := cuts_lag (sizes_cutting h hm) hne (Nat.zero_add _) hstuck c hc
  rw [decide_eq_true_eq, cut_unpack h hm hc, mem_landing_idx h (by omega) (by omega)] at hidx
  omega

/-- The pipeline refines the direct copy exactly when the source is contiguous, or one packet
takes everything, or no packet leaves a positive multiple of `2 ^ 32` chunks to send. -/
theorem puts_refines_iff (h : smd.Wf) (hm : m.Admits smd) (mem : Word → β) :
    PutsRefines m smd mem ↔
      smd.srcContig = true ∨ smd.totalsz ≤ m.maxpacket1 - overhead1 smd.dim.length ∨
        ∀ l ∈ m.leftovers smd, ¬ 2 ^ 32 ∣ l := by
  have hres : ∀ l, smd.resumes l = true ↔ smd.srcContig = true ∨ ¬ 2 ^ 32 ∣ l := by
    intro l
    rw [Smd.resumes, Bool.or_eq_true, bne_iff_ne, ne_eq, Nat.dvd_iff_mod_eq_zero,
      BitVec.toNat_eq, BitVec.toNat_ofNat]
    rfl
  by_cases hbig : smd.totalsz ≤ m.maxpacket1 - overhead1 smd.dim.length
  · refine iff_of_true ?_ (.inr (.inl hbig))
    refine @refines_of_lands β m smd mem h [(0, smd.elemcnt)] [singlePacket smd mem]
      (by rw [putsAMPipeline, if_pos hbig]) ?_ (by simp)
    rw [List.map_singleton, List.map_singleton, singlePacket_unpack h hm]
  · constructor
    · intro hr
      by_contra hno
      rw [not_or, not_or] at hno
      rcases hno with ⟨hc, -, hl⟩
      push Not at hl
      rcases hl with ⟨l, hl, hdvd⟩
      refine not_refines_of_stuck h hm hbig ⟨l, hl, ?_⟩ hr
      rw [← Bool.not_eq_true, hres]
      tauto
    · intro hcond
      apply refines_of_resumes h hm hbig
      intro l hl
      rw [hres]
      rcases hcond with hc | hs | hall
      · exact .inl hc
      · exact absurd hs hbig
      · exact .inr (hall l hl)

/-- Three chunks of two bytes, the source strided; a request holds one. -/
def smallPut : Smd := ⟨2, 0x1000, 0x2000, [⟨3, 4, 2⟩]⟩

def smallMedium : Medium := ⟨18, 26, none⟩

theorem smallPut_wf : smallPut.Wf := ⟨by decide, by decide, by decide⟩

theorem smallMedium_admits : smallMedium.Admits smallPut :=
  ⟨by decide, by decide, by decide, by rintro size ⟨⟩⟩

theorem puts_refines_small : PutsRefines smallMedium smallPut (BitVec.setWidth 8) :=
  (puts_refines_iff smallPut_wf smallMedium_admits _).mpr (.inr (.inr (by decide)))

/-- `2 ^ 32` chunks and one packet more, of one byte each. -/
def longPut : Smd := ⟨1, 0x100000000, 0x800000000, [⟨4295032272, 2, 1⟩]⟩

def longMedium : Medium := ⟨65000, 65000, none⟩

theorem longPut_wf : longPut.Wf := ⟨by decide, by decide, by decide⟩

theorem longMedium_admits : longMedium.Admits longPut :=
  ⟨by decide, by decide, by decide, by rintro size ⟨⟩⟩

theorem puts_stuck :
    longPut.Wf ∧ longMedium.Admits longPut ∧
      ¬ PutsRefines longMedium longPut (BitVec.setWidth 8) := by
  have hfirst : longMedium.sizes longPut 4295032272 = 64976 := by decide
  have hleft : 4294967296 ∈ longMedium.leftovers longPut := by
    have hcnt : longPut.elemcnt = 4295032271 + 1 := by decide
    rw [Medium.leftovers, hcnt, leftovers, hfirst]
    exact List.mem_cons_self
  refine ⟨longPut_wf, longMedium_admits, ?_⟩
  exact not_refines_of_stuck longPut_wf longMedium_admits (by decide)
    ⟨4294967296, hleft, by decide⟩

end Gasnet.Strided
