import Gasnet.Strided.Analyze
import Gasnet.Strided.Resume
import Gasnet.Vis.Packetize
import Gasnet.Vis.Pieces

/-! Strided metadata converted to lists of pieces, for the vector and the indexed interface. -/
namespace Gasnet.Strided

open Vis (Memvec flat flatAddrs)

variable {E : Type*} {entry : Word → Word → E} {smd : Smd} {side side' : Side}
  {smlsz bigsz looplim : Word} {L lim j k m n c : ℕ}

/-- `!id`. -/
def Side.other : Side → Side
  | .self => .peer
  | .peer => .self

/-- Where the two sides get entries at different rates: the entries of the side with the smaller
contiguous size and of the other one, and after how many chunks the other one gets its next. -/
structure Fill (E : Type*) where
  loopcnt : Word
  sml : List E
  big : List E

/-- The loop body; `entry` makes an entry of an address and a length. -/
def Fill.step (entry : Word → Word → E) (smlsz bigsz looplim : Word) (f : Fill E)
    (p : Word × Word) : Fill E :=
  let sml := f.sml ++ [entry p.1 smlsz]
  let loopcnt := f.loopcnt - 1
  if loopcnt = 0 then ⟨looplim, sml, f.big ++ [entry p.2 bigsz]⟩ else ⟨loopcnt, sml, f.big⟩

/-- The dimensions of two sides. -/
def Smd.pairs (smd : Smd) (s s' : Side) : List (ℕ × Word × Word) :=
  smd.dim.map fun d => (d.count.toNat, d.stride s, d.stride s')

/-- The conversion of analyzed metadata; `L` is `GASNETE_LOOPING_DIMS`. -/
def convert (entry : Word → Word → E) (L : ℕ) (smd : Smd) (t : Stats) (side : Side) : List E :=
  let selfcontigsz := (t.lcontig .self).sz
  let peercontigsz := (t.lcontig .peer).sz
  if selfcontigsz = peercontigsz then
    let visits := helper L (smd.pairs .self .peer) (smd.addr .self, smd.addr .peer)
    match side with
    | .self => visits.map fun p => entry p.1 selfcontigsz
    | .peer => visits.map fun p => entry p.2 peercontigsz
  else
    let smallid : Side := if selfcontigsz < peercontigsz then .self else .peer
    let smlsz := (t.lcontig smallid).sz
    let bigsz := (t.lcontig smallid.other).sz
    let visits := helper L (smd.pairs smallid smallid.other)
      (smd.addr smallid, smd.addr smallid.other)
    let fill := visits.foldl (Fill.step entry smlsz bigsz (bigsz / smlsz)) ⟨1, [], []⟩
    if side = smallid then fill.sml else fill.big

/-- `gasnete_convert_strided_to_memvec`. -/
def convertStridedToMemvec (L : ℕ) (smd : Smd) : Side → List Memvec :=
  convert (fun addr len => ⟨addr, len.toNat⟩) L smd (analyzeSmd smd)

/-- `gasnete_convert_strided_to_addrlist`. -/
def convertStridedToAddrlist (L : ℕ) (smd : Smd) : Side → List Word :=
  convert (fun addr _ => addr) L smd (analyzeSmd smd)

/-- The pairs of bytes of a strided transfer, chunk by chunk. -/
def Smd.mapping (smd : Smd) : List (Word × Word) :=
  (strided (smd.pairs .self .peer) (smd.self, smd.peer)).flatMap fun v =>
    (span v.1.1 smd.elemsz.toNat).zip (span v.1.2 smd.elemsz.toNat)

/-- The chunk at position `k`. -/
def Smd.chunkAddr (smd : Smd) (side : Side) (k : ℕ) : Word :=
  smd.addr side + offset (smd.axes side) k

/-- The bytes of one side, in order. -/
def Smd.sideBytes (smd : Smd) (side : Side) : List Word :=
  (List.range smd.elemcnt).flatMap fun k => span (smd.chunkAddr side k) smd.elemsz.toNat

section Loop

variable {f : ℕ → Word × Word}

/-- After `n` chunks the next entry of the other side is due in `loopcnt`. -/
theorem fill_chunks (hlim : looplim.toNat = lim) (hpos : 0 < lim) (n : ℕ) :
    ∃ m loopcnt : ℕ, n + loopcnt = m * lim + 1 ∧ 1 ≤ loopcnt ∧ loopcnt ≤ lim ∧
      ((List.range n).map f).foldl (Fill.step entry smlsz bigsz looplim) ⟨1, [], []⟩ =
        ⟨BitVec.ofNat 64 loopcnt, (List.range n).map fun k => entry (f k).1 smlsz,
          (List.range m).map fun j => entry (f (j * lim)).2 bigsz⟩ := by
  have hsize : lim < 2 ^ 64 := hlim ▸ looplim.isLt
  induction n with
  | zero => exact ⟨0, 1, by omega, le_refl _, hpos, rfl⟩
  | succ n ih =>
    obtain ⟨m, loopcnt, hn, hone, hle, heq⟩ := ih
    have hdec : BitVec.ofNat 64 loopcnt - 1 = BitVec.ofNat 64 (loopcnt - 1) := by
      apply BitVec.eq_of_toNat_eq
      rw [BitVec.toNat_sub]
      simp only [BitVec.ofNat_eq_ofNat, BitVec.toNat_ofNat]
      omega
    rw [List.range_succ, List.map_append, List.foldl_append, heq, List.map_singleton,
      List.foldl_cons, List.foldl_nil, Fill.step, hdec]
    by_cases hz : loopcnt = 1
    · have hnow : n = m * lim := by omega
      refine ⟨m + 1, lim, by rw [Nat.succ_mul]; omega, hpos, le_refl _, ?_⟩
      rw [if_pos (by rw [hz]; rfl), List.range_succ, List.map_append, List.map_append, ← hlim,
        BitVec.ofNat_toNat, BitVec.setWidth_eq, List.map_singleton, List.map_singleton, hlim, hnow]
    · refine ⟨m, loopcnt - 1, by omega, by omega, by omega, ?_⟩
      have hne : BitVec.ofNat 64 (loopcnt - 1) ≠ 0 := by
        intro h0
        have := congrArg BitVec.toNat h0
        simp only [BitVec.toNat_ofNat, BitVec.ofNat_eq_ofNat] at this
        omega
      rw [if_neg hne, List.map_append, List.map_singleton]

/-- A whole number of entries of the other side has been written when the chunks are done. -/
theorem fill_all (hlim : looplim.toNat = lim) (hpos : 0 < lim) (c : ℕ) :
    ∃ loopcnt, ((List.range (c * lim)).map f).foldl (Fill.step entry smlsz bigsz looplim)
        ⟨1, [], []⟩ =
      ⟨loopcnt, (List.range (c * lim)).map fun k => entry (f k).1 smlsz,
        (List.range c).map fun j => entry (f (j * lim)).2 bigsz⟩ := by
  obtain ⟨m, loopcnt, hn, hone, hle, heq⟩ := @fill_chunks E entry smlsz bigsz looplim lim f hlim
    hpos (c * lim)
  have hmc : m = c := by
    rcases Nat.lt_trichotomy m c with hlt | rfl | hgt
    · have := Nat.mul_le_mul_right lim (Nat.succ_le_of_lt hlt)
      rw [Nat.succ_mul] at this
      omega
    · rfl
    · have := Nat.mul_le_mul_right lim (Nat.succ_le_of_lt hgt)
      rw [Nat.succ_mul] at this
      omega
  exact ⟨_, hmc ▸ heq⟩

theorem flatMap_range_mul {B : Type*} (g : ℕ → List B) (m c : ℕ) :
    (List.range (m * c)).flatMap g =
      (List.range m).flatMap fun j => (List.range c).flatMap fun r => g (j * c + r) := by
  induction m with
  | zero => simp
  | succ m ih =>
    rw [Nat.succ_mul, List.range_add, List.flatMap_append, ih, List.range_succ,
      List.flatMap_append, List.flatMap_map, List.flatMap_singleton]

end Loop

section Sides

/-- How many chunks make one contiguous segment of a side. -/
def Smd.rate (smd : Smd) (side : Side) : ℕ :=
  ((smd.dim.take (lcontigDims side smd.elemsz smd.dim)).map fun d => d.count.toNat).prod

/-- How many segments there are. -/
def Smd.segments (smd : Smd) (side : Side) : ℕ :=
  ((smd.dim.drop (lcontigDims side smd.elemsz smd.dim)).map fun d => d.count.toNat).prod

theorem lcontig_sz (h : smd.Wf) (side : Side) :
    ((analyzeSmd smd).lcontig side).sz.toNat = smd.elemsz.toNat * smd.rate side := by
  rw [analyze_lcontig]
  exact (h.countProd_parts _).2.2

theorem lcontig_segments (h : smd.Wf) (side : Side) :
    ((analyzeSmd smd).lcontig side).segments.toNat = smd.segments side := by
  rw [analyze_lcontig]
  exact (h.countProd_parts _).2.1

theorem segments_rate (smd : Smd) (side : Side) : smd.segments side * smd.rate side = smd.elemcnt :=
  (Nat.mul_comm _ _).trans (prod_take_drop smd.dim _)

theorem rate_pos (h : smd.Wf) (side : Side) : 0 < smd.rate side :=
  prod_pos fun d hd => h.count d (List.mem_of_mem_take hd)

/-- Within a segment the chunks follow each other. -/
theorem chunkAddr_segment (h : smd.Wf) (side : Side) (j : ℕ) {r : ℕ} (hr : r < smd.rate side) :
    smd.chunkAddr side (j * smd.rate side + r) =
      smd.chunkAddr side (j * smd.rate side) + r • smd.elemsz := by
  have hpos := rate_pos h side
  have hext : extent ((smd.dim.take (lcontigDims side smd.elemsz smd.dim)).map (Dim.axis side)) =
      smd.rate side := by
    rw [extent, List.map_map]
    rfl
  have haxes : smd.axes side =
      (smd.dim.take (lcontigDims side smd.elemsz smd.dim)).map (Dim.axis side) ++
        (smd.dim.drop (lcontigDims side smd.elemsz smd.dim)).map (Dim.axis side) := by
    rw [← List.map_append, List.take_append_drop, Smd.axes]
  have hround (r : ℕ) := offset_round
    ((smd.dim.take (lcontigDims side smd.elemsz smd.dim)).map (Dim.axis side)) r j
  have hinner := @offset_contig side smd.dim smd.elemsz r
  rw [hext] at hround hinner
  have hstart := hround 0
  have hthere := hround r
  rw [Nat.zero_add, offset_zero] at hstart
  rw [hinner hr, Nat.add_comm] at hthere
  rw [Smd.chunkAddr, Smd.chunkAddr, haxes, offset_cat, offset_cat, hext, Nat.mul_comm j, hthere,
    hstart, Nat.mul_add_div hpos, Nat.div_eq_of_lt hr, Nat.mul_div_cancel_left _ hpos,
    Nat.add_zero, zero_add, add_comm (r • _), add_assoc]

/-- The bytes of a side are those of its segments. -/
theorem sideBytes_segments (h : smd.Wf) (side : Side) :
    smd.sideBytes side = (List.range (smd.segments side)).flatMap fun j =>
      span (smd.chunkAddr side (j * smd.rate side)) (smd.elemsz.toNat * smd.rate side) := by
  rw [Smd.sideBytes, ← segments_rate smd side, flatMap_range_mul]
  refine List.flatMap_congr fun j _ => ?_
  rw [mul_comm smd.elemsz.toNat, span_mul]
  refine List.flatMap_congr fun r hr => ?_
  rw [chunkAddr_segment h side j (List.mem_range.1 hr), natCast_toNat]

/-- What the traversal visits. -/
theorem helper_pairs (L : ℕ) (h : smd.Wf) (hne : smd.dim ≠ []) (s s' : Side) :
    helper L (smd.pairs s s') (smd.addr s, smd.addr s') =
      (List.range smd.elemcnt).map fun k => (smd.chunkAddr s k, smd.chunkAddr s' k) := by
  have hd : ∀ x ∈ smd.pairs s s', x.1 ≠ 0 := by
    intro x hx
    obtain ⟨d, hd, rfl⟩ := List.mem_map.1 hx
    exact Nat.pos_iff_ne_zero.1 (toNat_pos (h.count d hd))
  rw [helper_eq L (by simpa [Smd.pairs] using hne) hd, Smd.pairs, strided_pairs h, List.map_map,
    List.range_eq_range']
  rfl

/-- Each side gets one entry for each of its segments. -/
theorem convert_eq (L : ℕ) (h : smd.Normal) (hne : smd.dim ≠ []) (side : Side) :
    convert entry L smd (analyzeSmd smd) side =
      (List.range (smd.segments side)).map fun j =>
        entry (smd.chunkAddr side (j * smd.rate side)) ((analyzeSmd smd).lcontig side).sz := by
  have hwf := h.wf
  have hpos := hwf.elemsz_pos
  have hmin := (analyze_sound h).elemsz
  have hone {s : Side} (hs : ((analyzeSmd smd).lcontig s).sz.toNat = smd.elemsz.toNat) :
      smd.rate s = 1 := by
    rw [lcontig_sz hwf] at hs
    exact Nat.eq_of_mul_eq_mul_left hpos (hs.trans (Nat.mul_one _).symm)
  have hcount {s : Side} (hs : smd.rate s = 1) : smd.elemcnt = smd.segments s := by
    rw [← segments_rate smd s, hs, Nat.mul_one]
  unfold convert
  simp only
  split
  · rename_i heq
    rw [heq, min_self] at hmin
    have hpeer := hone hmin.symm
    have hself := @hone .self (by rw [heq, ← hmin])
    rw [helper_pairs L hwf hne]
    cases side with
    | self => simp [hself, hcount hself]
    | peer => simp [hpeer, hcount hpeer]
  · rename_i hdiff
    have hsmall : ∀ s : Side, s = (if ((analyzeSmd smd).lcontig .self).sz <
        ((analyzeSmd smd).lcontig .peer).sz then Side.self else Side.peer) → smd.rate s = 1 := by
      rintro s rfl
      apply hone
      have hne' := fun he => hdiff (BitVec.eq_of_toNat_eq he)
      split
      · rename_i hlt
        rw [BitVec.lt_def] at hlt
        omega
      · rename_i hge
        rw [BitVec.lt_def] at hge
        omega
    generalize (if ((analyzeSmd smd).lcontig .self).sz < ((analyzeSmd smd).lcontig .peer).sz
      then Side.self else Side.peer) = small at hsmall ⊢
    have hrate := hsmall small rfl
    have hlim : (((analyzeSmd smd).lcontig small.other).sz /
        ((analyzeSmd smd).lcontig small).sz).toNat = smd.rate small.other := by
      rw [BitVec.toNat_udiv, lcontig_sz hwf, lcontig_sz hwf, hrate, Nat.mul_one,
        Nat.mul_div_cancel_left _ hpos]
    obtain ⟨loopcnt, hfill⟩ := @fill_all E entry ((analyzeSmd smd).lcontig small).sz
      ((analyzeSmd smd).lcontig small.other).sz _ _
      (fun k => (smd.chunkAddr small k, smd.chunkAddr small.other k)) hlim
      (rate_pos hwf small.other) (smd.segments small.other)
    rw [helper_pairs L hwf hne, ← segments_rate smd small.other, hfill]
    split
    · rename_i hs
      simp only [hs, hrate, Nat.mul_one]
      rw [segments_rate, hcount hrate]
    · rename_i hs
      have hother : side = small.other := by
        cases side <;> cases small <;> simp_all [Side.other]
      simp only [hother]

end Sides

section Mapping

theorem flat_memvec (L : ℕ) (h : smd.Normal) (hne : smd.dim ≠ []) (side : Side) :
    flat (convertStridedToMemvec L smd side) = smd.sideBytes side := by
  rw [convertStridedToMemvec, convert_eq L h hne, sideBytes_segments h.wf, flat, List.flatMap_map]
  refine List.flatMap_congr fun j _ => ?_
  rw [Memvec.bytes, lcontig_sz h.wf]

theorem flat_addrlist (L : ℕ) (h : smd.Normal) (hne : smd.dim ≠ []) (side : Side) :
    flatAddrs ((analyzeSmd smd).lcontig side).sz.toNat (convertStridedToAddrlist L smd side) =
      smd.sideBytes side := by
  rw [convertStridedToAddrlist, convert_eq L h hne, sideBytes_segments h.wf, flatAddrs,
    List.flatMap_map, lcontig_sz h.wf]

theorem length_convert (L : ℕ) (h : smd.Normal) (hne : smd.dim ≠ []) (side : Side) :
    (convert entry L smd (analyzeSmd smd) side).length =
      ((analyzeSmd smd).lcontig side).segments.toNat := by
  rw [convert_eq L h hne, List.length_map, List.length_range, lcontig_segments h.wf]

theorem zip_flatMap {B : Type*} (f g : B → List Word) (l : List B)
    (h : ∀ x ∈ l, (f x).length = (g x).length) :
    (l.flatMap f).zip (l.flatMap g) = l.flatMap fun x => (f x).zip (g x) := by
  induction l with
  | nil => rfl
  | cons x l ih =>
    rw [List.flatMap_cons, List.flatMap_cons, List.flatMap_cons,
      List.zip_append (h x List.mem_cons_self), ih fun y hy => h y (List.mem_cons_of_mem _ hy)]

theorem mapping_eq (h : smd.Wf) :
    smd.mapping = (List.range smd.elemcnt).flatMap fun k =>
      (span (smd.chunkAddr .self k) smd.elemsz.toNat).zip
        (span (smd.chunkAddr .peer k) smd.elemsz.toNat) := by
  have hvisits := strided_pairs h .self .peer
  rw [Smd.mapping, Smd.pairs]
  change (strided _ (smd.addr .self, smd.addr .peer)).flatMap _ = _
  rw [hvisits, List.flatMap_map, List.range_eq_range']
  rfl

/-- The bytes of the two sides, one to one. -/
theorem zip_sideBytes (h : smd.Wf) :
    (smd.sideBytes .self).zip (smd.sideBytes .peer) = smd.mapping := by
  rw [mapping_eq h, Smd.sideBytes, Smd.sideBytes, zip_flatMap _ _ _ fun k _ => by simp]

theorem zip_span (a b : Word) (n : ℕ) :
    (span a n).zip (span b n) = (List.range n).map fun i => (a, b) + i • ((1 : Word), (1 : Word)) := by
  induction n with
  | zero => rfl
  | succ n ih =>
    rw [span_add, span_add, List.zip_append (by simp), ih, List.range_succ, List.map_append]
    simp [span]

/-- In any order they are the bytes of the transfer. -/
theorem mapping_bytes (h : smd.Wf) : (smd.mapping : Multiset (Word × Word)) = smd.bytes := by
  have hoff (k : ℕ) : offset (smd.dim.map Dim.step) k =
      (offset (smd.axes .self) k, offset (smd.axes .peer) k) := by
    have hs := offset_map (AddMonoidHom.fst Word Word) (smd.dim.map Dim.step) k
    have hp := offset_map (AddMonoidHom.snd Word Word) (smd.dim.map Dim.step) k
    rw [List.map_map] at hs hp
    exact Prod.ext hs.symm hp.symm
  have hext : extent (smd.dim.map Dim.step) = smd.elemcnt := by
    rw [extent, List.map_map]
    rfl
  rw [mapping_eq h, Smd.bytes, Strided.bytes, box_cons, Multiset.map_bind, box_eq_offset, hext]
  simp only [Multiset.map_map, Function.comp_def, hoff]
  rw [Multiset.bind_map_comm, ← Multiset.coe_range, ← Multiset.coe_range]
  simp only [Multiset.map_coe]
  rw [Multiset.coe_bind]
  congr 1
  refine List.flatMap_congr fun k _ => ?_
  rw [zip_span]
  refine List.map_congr_left fun i _ => ?_
  simp only [Smd.chunkAddr, Smd.addr, Prod.mk_add_mk, Prod.smul_mk]
  congr 1 <;> abel

end Mapping

/-- The conversions write the announced number of entries to each list, and the bytes of the two
lists, one to one, are the bytes of the transfer in the order of the traversal. -/
theorem convert_mapping (L : ℕ) (smd : Smd) (h : smd.Normal) (hne : smd.dim ≠ []) :
    (∀ side,
      (convertStridedToMemvec L smd side).length =
          ((analyzeSmd smd).lcontig side).segments.toNat ∧
        (convertStridedToAddrlist L smd side).length =
          ((analyzeSmd smd).lcontig side).segments.toNat ∧
        (flat (convertStridedToMemvec L smd side)).length = smd.totalsz ∧
        flatAddrs ((analyzeSmd smd).lcontig side).sz.toNat (convertStridedToAddrlist L smd side) =
          flat (convertStridedToMemvec L smd side)) ∧
      (flat (convertStridedToMemvec L smd .self)).zip (flat (convertStridedToMemvec L smd .peer)) =
        smd.mapping ∧
      (smd.mapping : Multiset (Word × Word)) = smd.bytes := by
  refine ⟨fun side => ⟨length_convert L h hne side, length_convert L h hne side, ?_, ?_⟩, ?_,
    mapping_bytes h.wf⟩
  · rw [flat_memvec L h hne, Smd.sideBytes]
    simp [Smd.totalsz, datasize, Smd.elemcnt, mul_comm]
  · rw [flat_addrlist L h hne, flat_memvec L h hne]
  · rw [flat_memvec L h hne, flat_memvec L h hne, zip_sideBytes h.wf]

/-- The self side has segments of two chunks. -/
theorem convert_mapping_two :
    flat (convertStridedToMemvec 8 ⟨4, 1000, 5000, [⟨2, 4, 16⟩, ⟨3, 100, 60⟩]⟩ .self) =
      flat [⟨1000, 8⟩, ⟨1100, 8⟩, ⟨1200, 8⟩] ∧
    (convertStridedToMemvec 8 ⟨4, 1000, 5000, [⟨2, 4, 16⟩, ⟨3, 100, 60⟩]⟩ .peer).length = 6 :=
  ⟨by decide, ((convert_mapping 8 ⟨4, 1000, 5000, [⟨2, 4, 16⟩, ⟨3, 100, 60⟩]⟩
    ⟨⟨by decide, by decide, by decide⟩, by decide, by decide, by decide, by decide, by decide⟩
    (by decide)).1 .peer).1⟩

end Gasnet.Strided
