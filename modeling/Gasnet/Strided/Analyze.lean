import Gasnet.Strided.Normal
import Gasnet.Strided.Puts

/-! The analysis `gasnete_analyze_smd` and what it finds on normalized metadata. -/
namespace Gasnet.Strided

variable {e : Word} {d : Dim} {l : List Dim} {side : Side} {smd : Smd} {i k : ℕ}

/-- `lcontig_dims`, `lcontig_sz` and `lcontig_segments` of one side. -/
structure Contig where
  dims : ℕ
  sz : Word
  segments : Word
  deriving DecidableEq, Repr

/-- `DIMANAL`; a side has a value once its `brk` is set. -/
def dimanal (stride cnt lcontigsz : Word) (d : ℕ) : Option Contig → Option Contig
  | some c => some { c with segments := c.segments * cnt }
  | none => if stride = lcontigsz then none else some ⟨d, lcontigsz, cnt⟩

/-- The loop state of the analysis. -/
structure Tally where
  d : ℕ
  elemcnt : Word
  lcontigsz : Word
  brk : Side → Option Contig

/-- The body of the loop. -/
def Tally.step (a : Tally) (dim : Dim) : Tally where
  d := a.d + 1
  elemcnt := a.elemcnt * dim.count
  lcontigsz := a.lcontigsz * dim.count
  brk side := dimanal (dim.stride side) dim.count a.lcontigsz a.d (a.brk side)

/-- The statistics in a `gasneti_vis_smd_t`. -/
structure Stats where
  totalsz : Word
  elemcnt : Word
  lcontig : Side → Contig

/-- `gasnete_analyze_smd`, with `DIMTAIL`. -/
def analyzeSmd (smd : Smd) : Stats :=
  let a := smd.dim.foldl Tally.step ⟨0, 1, smd.elemsz, fun _ => none⟩
  ⟨a.lcontigsz, a.elemcnt, fun side => (a.brk side).getD ⟨smd.dim.length, a.lcontigsz, 1⟩⟩

/-- The derived fields: the sizes and counts are those of the transfer, the smaller contiguous size
is the element, one side has no contiguous dimension, the segments of each side are the whole, and
its contiguous dimensions run through consecutive bytes. -/
structure Stats.Sound (t : Stats) (smd : Smd) : Prop where
  totalsz : t.totalsz.toNat = smd.totalsz
  elemcnt : t.elemcnt.toNat = smd.elemcnt
  elemsz : smd.elemsz.toNat = min (t.lcontig .self).sz.toNat (t.lcontig .peer).sz.toNat
  dims : min (t.lcontig .self).dims (t.lcontig .peer).dims = 0
  segments : ∀ side,
    (t.lcontig side).segments.toNat * (t.lcontig side).sz.toNat = t.totalsz.toNat
  contig : ∀ side base,
    ((strided ((smd.dim.take (t.lcontig side).dims).map (Dim.axis side)) base).flatMap fun v =>
      span v.1 smd.elemsz.toNat) = span base (t.lcontig side).sz.toNat

theorem step_brk (a : Tally) (d : Dim) (side : Side) :
    (a.step d).brk side = dimanal (d.stride side) d.count a.lcontigsz a.d (a.brk side) := rfl

/-- The product of the counts, as the code multiplies them. -/
def countProd (l : List Dim) : Word := (l.map Dim.count).prod

theorem tally_sizes (l : List Dim) (a : Tally) :
    (l.foldl Tally.step a).elemcnt = a.elemcnt * countProd l ∧
      (l.foldl Tally.step a).lcontigsz = a.lcontigsz * countProd l := by
  induction l generalizing a with
  | nil => simp [countProd]
  | cons d l ih =>
    rw [List.foldl_cons, (ih _).1, (ih _).2]
    simp [Tally.step, countProd, mul_assoc]

theorem tally_broken (l : List Dim) {a : Tally} {c : Contig} (h : a.brk side = some c) :
    (l.foldl Tally.step a).brk side = some { c with segments := c.segments * countProd l } := by
  induction l generalizing a c with
  | nil => simp [h, countProd]
  | cons d l ih =>
    have hstep : (a.step d).brk side = some { c with segments := c.segments * d.count } := by
      rw [step_brk, h]
      rfl
    rw [List.foldl_cons, ih hstep]
    simp [countProd, mul_assoc]

/-- A side breaks where its contiguous dimensions end. -/
theorem tally_contig (l : List Dim) {a : Tally} (h : a.brk side = none) :
    ((l.foldl Tally.step a).brk side).getD
        ⟨a.d + l.length, a.lcontigsz * countProd l, 1⟩ =
      ⟨a.d + lcontigDims side a.lcontigsz l,
        a.lcontigsz * countProd (l.take (lcontigDims side a.lcontigsz l)),
        countProd (l.drop (lcontigDims side a.lcontigsz l))⟩ := by
  induction l generalizing a with
  | nil => simp [h, countProd, lcontigDims]
  | cons d l ih =>
    rw [List.foldl_cons, lcontigDims]
    split
    · rename_i hstride
      have hstep : (a.step d).brk side = none := by
        rw [step_brk, h]
        exact if_pos hstride
      have hrest := ih hstep
      simp only [Tally.step] at hrest ⊢
      simp only [List.length_cons, List.take_succ_cons, List.drop_succ_cons]
      simp only [countProd, List.map_cons, List.prod_cons, mul_assoc] at hrest ⊢
      rw [Nat.add_right_comm] at hrest
      rw [← Nat.add_assoc, hrest]
      congr 1
      omega
    · rename_i hstride
      have hstep : (a.step d).brk side = some ⟨a.d, a.lcontigsz, d.count⟩ := by
        rw [step_brk, h]
        exact if_neg hstride
      rw [tally_broken l hstep]
      simp [countProd]

theorem analyze_lcontig (smd : Smd) (side : Side) :
    (analyzeSmd smd).lcontig side =
      ⟨lcontigDims side smd.elemsz smd.dim,
        smd.elemsz * countProd (smd.dim.take (lcontigDims side smd.elemsz smd.dim)),
        countProd (smd.dim.drop (lcontigDims side smd.elemsz smd.dim))⟩ := by
  have h := @tally_contig side smd.dim ⟨0, 1, smd.elemsz, fun _ => none⟩ rfl
  rw [Nat.zero_add, Nat.zero_add] at h
  rw [← h, analyzeSmd, (tally_sizes smd.dim _).2]

theorem toNat_countProd (h : (l.map fun d => d.count.toNat).prod < 2 ^ 64)
    (hc : ∀ d ∈ l, d.count ≠ 0) :
    (countProd l).toNat = (l.map fun d => d.count.toNat).prod := by
  induction l with
  | nil => rfl
  | cons d l ih =>
    have hd := toNat_pos (hc d List.mem_cons_self)
    have hl : ∀ d ∈ l, d.count ≠ 0 := fun x hx => hc x (List.mem_cons_of_mem _ hx)
    rw [List.map_cons, List.prod_cons] at h ⊢
    have htail := ih (lt_of_le_of_lt (Nat.le_mul_of_pos_left _ hd) h) hl
    rw [countProd, List.map_cons, List.prod_cons]
    change (d.count * countProd l).toNat = _
    rw [toNat_mul_of_lt (by rwa [htail]), htail]

theorem prod_take_drop (l : List Dim) (k : ℕ) :
    ((l.take k).map fun d => d.count.toNat).prod * ((l.drop k).map fun d => d.count.toNat).prod =
      (l.map fun d => d.count.toNat).prod := by
  rw [← List.prod_append, ← List.map_append, List.take_append_drop]

section Sound

theorem Smd.Wf.counts_lt (h : smd.Wf) : (smd.dim.map fun d => d.count.toNat).prod < 2 ^ 64 :=
  lt_of_le_of_lt (Nat.le_mul_of_pos_left _ h.elemsz_pos) h.size

/-- The counts of the first and of the other dimensions, multiplied without wrapping. -/
theorem Smd.Wf.countProd_parts (h : smd.Wf) (k : ℕ) :
    (countProd (smd.dim.take k)).toNat = ((smd.dim.take k).map fun d => d.count.toNat).prod ∧
      (countProd (smd.dim.drop k)).toNat =
        ((smd.dim.drop k).map fun d => d.count.toNat).prod ∧
      (smd.elemsz * countProd (smd.dim.take k)).toNat =
        smd.elemsz.toNat * ((smd.dim.take k).map fun d => d.count.toNat).prod := by
  have hparts := prod_take_drop smd.dim k
  have htake : ∀ d ∈ smd.dim.take k, d.count ≠ 0 := fun d hd => h.count d (List.mem_of_mem_take hd)
  have hdrop : ∀ d ∈ smd.dim.drop k, d.count ≠ 0 := fun d hd => h.count d (List.mem_of_mem_drop hd)
  have htpos := prod_pos htake
  have hdpos := prod_pos hdrop
  have hlt := h.counts_lt
  have hle : ((smd.dim.take k).map fun d => d.count.toNat).prod ≤
      (smd.dim.map fun d => d.count.toNat).prod := by
    rw [← hparts]
    exact Nat.le_mul_of_pos_right _ hdpos
  have hle' : ((smd.dim.drop k).map fun d => d.count.toNat).prod ≤
      (smd.dim.map fun d => d.count.toNat).prod := by
    rw [← hparts]
    exact Nat.le_mul_of_pos_left _ htpos
  have hinner := toNat_countProd (lt_of_le_of_lt hle hlt) htake
  refine ⟨hinner, toNat_countProd (lt_of_le_of_lt hle' hlt) hdrop, ?_⟩
  rw [toNat_mul_of_lt, hinner]
  rw [hinner]
  exact lt_of_le_of_lt (Nat.mul_le_mul_left _ hle) h.size

/-- The dimensions that continue the element visit consecutive bytes. -/
theorem contig_span (h : smd.Wf) (side : Side) (base : Word) :
    ((strided ((smd.dim.take ((analyzeSmd smd).lcontig side).dims).map (Dim.axis side))
      base).flatMap fun v => span v.1 smd.elemsz.toNat) =
      span base ((analyzeSmd smd).lcontig side).sz.toNat := by
  simp only [analyze_lcontig]
  have hd : ∀ x ∈ (smd.dim.take (lcontigDims side smd.elemsz smd.dim)).map (Dim.axis side),
      x.1 ≠ 0 := by
    intro x hx
    obtain ⟨d, hd, rfl⟩ := List.mem_map.1 hx
    exact Nat.pos_iff_ne_zero.1 (toNat_pos (h.count d (List.mem_of_mem_take hd)))
  have hext : extent ((smd.dim.take (lcontigDims side smd.elemsz smd.dim)).map (Dim.axis side)) =
      ((smd.dim.take (lcontigDims side smd.elemsz smd.dim)).map fun d => d.count.toNat).prod := by
    rw [extent, List.map_map]
    rfl
  rw [(h.countProd_parts _).2.2, ← hext, strided_eq hd, List.flatMap_map, mul_comm, span_mul,
    List.range_eq_range']
  refine List.flatMap_congr fun i hi => ?_
  rw [List.mem_range'_1] at hi
  rw [visit, offset_contig (by omega), natCast_toNat]

/-- Unless the first dimension continues the element on both sides, one side breaks at once. -/
theorem lcontigDims_zero (hi : ∀ d ∈ l.head?, ¬d.DualContig e) :
    lcontigDims .self e l = 0 ∨ lcontigDims .peer e l = 0 := by
  cases l with
  | nil => exact .inl rfl
  | cons d l =>
    have hd := hi d rfl
    rw [Dim.DualContig, not_and_or] at hd
    rcases hd with hd | hd
    · exact .inl (if_neg hd)
    · exact .inr (if_neg hd)

theorem analyze_sound (h : smd.Normal) : (analyzeSmd smd).Sound smd := by
  have hwf := h.wf
  have hsizes := tally_sizes smd.dim ⟨0, 1, smd.elemsz, fun _ => none⟩
  have htotal : (analyzeSmd smd).totalsz = smd.elemsz * countProd smd.dim := hsizes.2
  have hcount : (analyzeSmd smd).elemcnt = countProd smd.dim := hsizes.1.trans (one_mul _)
  have hall := hwf.countProd_parts smd.dim.length
  rw [List.take_length] at hall
  have hsz (side : Side) : smd.elemsz.toNat ≤ ((analyzeSmd smd).lcontig side).sz.toNat := by
    rw [analyze_lcontig, (hwf.countProd_parts _).2.2]
    exact Nat.le_mul_of_pos_right _ (prod_pos fun d hd => hwf.count d (List.mem_of_mem_take hd))
  have hzero {side : Side} (hz : lcontigDims side smd.elemsz smd.dim = 0) :
      ((analyzeSmd smd).lcontig side).sz = smd.elemsz := by
    simp [analyze_lcontig, hz, countProd]
  refine ⟨?_, ?_, ?_, ?_, ?_, contig_span hwf⟩
  · rw [htotal, hall.2.2]
    rfl
  · rw [hcount, hall.1]
    rfl
  · have hself := hsz .self
    have hpeer := hsz .peer
    rcases lcontigDims_zero h.inner with hz | hz
    · rw [hzero hz] at hself ⊢
      omega
    · rw [hzero hz] at hpeer ⊢
      omega
  · simp only [analyze_lcontig]
    rcases lcontigDims_zero h.inner with hz | hz
    · rw [hz, Nat.zero_min]
    · rw [hz, Nat.min_zero]
  · intro side
    have hparts := hwf.countProd_parts (lcontigDims side smd.elemsz smd.dim)
    rw [htotal, hall.2.2]
    simp only [analyze_lcontig]
    rw [hparts.2.1, hparts.2.2, mul_comm, mul_assoc, prod_take_drop]

end Sound

/-- The normalization reaches a normal form, on which it does nothing, and the fields derived from
it are sound. -/
theorem build_analyze_normal {n : ℕ} {selfaddr peeraddr elemsz : Word}
    {selfstrides peerstrides count : Fin n → Word}
    (hv : Valid elemsz (callerDims selfstrides peerstrides count))
    (h : buildSmd selfaddr selfstrides peeraddr peerstrides elemsz count = some smd) :
    smd.Normal ∧ (analyzeSmd smd).Sound smd ∧ smd.rebuild = some smd :=
  have hnormal := buildSmd_normal hv h
  ⟨hnormal, analyze_sound hnormal, rebuild_self hnormal⟩

theorem build_analyze_normal_three :
    (⟨8, 1004, 4996, [⟨3, 100, 60⟩]⟩ : Smd).Normal ∧
      (analyzeSmd ⟨8, 1004, 4996, [⟨3, 100, 60⟩]⟩).Sound ⟨8, 1004, 4996, [⟨3, 100, 60⟩]⟩ ∧
      (⟨8, 1004, 4996, [⟨3, 100, 60⟩]⟩ : Smd).rebuild = some ⟨8, 1004, 4996, [⟨3, 100, 60⟩]⟩ :=
  @build_analyze_normal ⟨8, 1004, 4996, [⟨3, 100, 60⟩]⟩ 3 1008 5000 4 ![100, 99, -4] ![60, 7, -4]
    ![3, 1, 2] ⟨by decide, by decide, by decide⟩ (by decide)

end Gasnet.Strided
