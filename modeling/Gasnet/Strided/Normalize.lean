import Gasnet.Strided.Traverse
import Mathlib.Data.Fin.VecNotation

/-! Each pass of the normalization keeps the multiset of byte addresses. -/
namespace Gasnet.Strided

variable {n : Nat} {e s p : Word} {d lo : Dim} {l l' : List Dim} {a a' : Scan}

theorem bytes_perm (h : l.Perm l') : bytes e s p l = bytes e s p l' := by
  unfold bytes
  rw [box_perm ((h.map Dim.step).cons _)]

/-- A dimension may be brought to the front. -/
theorem bytes_middle (l l' : List Dim) :
    bytes e s p (l ++ d :: l') = bytes e s p (d :: (l ++ l')) :=
  bytes_perm List.perm_middle

theorem bytes_null (h : d.count = 1) : bytes e s p (d :: l) = bytes e s p l := by
  unfold bytes
  have hd : d.step = (1, d.self, d.peer) := by simp [Dim.step, h]
  rw [List.map_cons, box_swap, hd, box_one]

theorem bytes_invert (h : d.count ≠ 0) :
    bytes e (s + d.self * (d.count - 1)) (p + d.peer * (d.count - 1)) (d.invert :: l) =
      bytes e s p (d :: l) := by
  have hc : d.count.toNat = (d.count - 1).toNat + 1 := by
    have := toNat_pos h
    rw [toNat_sub_one h]
    omega
  have hstep : d.step = ((d.count - 1).toNat + 1, (d.self, d.peer)) := by rw [Dim.step, hc]
  have hinv : d.invert.step = ((d.count - 1).toNat + 1, -(d.self, d.peer)) := by
    simp only [Dim.step, Dim.invert, hc, Prod.neg_mk]
  unfold bytes
  rw [List.map_cons, List.map_cons, box_swap, box_swap _ d.step, hstep, hinv,
    box_neg _ (d.self, d.peer), Multiset.map_map]
  refine Multiset.map_congr rfl fun x _ => ?_
  simp only [Function.comp_apply, Prod.smul_mk, toNat_nsmul, ← add_assoc, Prod.mk_add_mk,
    mul_comm]

theorem scanStep_bytes (h : a.step d = some a') (l : List Dim) :
    bytes e a'.self a'.peer (a'.dim ++ l) = bytes e a.self a.peer (a.dim ++ d :: l) := by
  unfold Scan.step at h
  split at h
  · simp at h
  · rename_i hz
    rw [bytes_middle]
    split at h
    · rename_i hone
      obtain rfl : a = a' := by simpa using h
      rw [bytes_null hone]
    · split at h
      · obtain rfl : (a.invert d).push d.invert = a' := by simpa using h
        have hi := bytes_invert (e := e) (s := a.self) (p := a.peer) (l := a.dim ++ l) hz
        rw [← hi, ← bytes_middle]
        simp [Scan.push, Scan.invert]
      · obtain rfl : a.push d = a' := by simpa using h
        rw [← bytes_middle]
        simp [Scan.push]

theorem scan_bytes (h : l.foldlM Scan.step a = some a') :
    bytes e a'.self a'.peer a'.dim = bytes e a.self a.peer (a.dim ++ l) := by
  induction l generalizing a with
  | nil =>
    obtain rfl : a = a' := by simpa using h
    simp
  | cons d l ih =>
    rw [List.foldlM_cons] at h
    obtain ⟨b, hb, h⟩ := Option.bind_eq_some_iff.mp h
    rw [ih h, scanStep_bytes hb]

theorem scanStep_eq_none : a.step d = none ↔ d.count = 0 := by
  unfold Scan.step
  split
  · simp_all
  · split
    · simp_all
    · split <;> simp_all

/-- Pass 1 gives up exactly on an empty dimension. -/
theorem scan_eq_none (l : List Dim) (a : Scan) :
    l.foldlM Scan.step a = none ↔ ∃ d ∈ l, d.count = 0 := by
  induction l generalizing a with
  | nil => simp
  | cons d l ih =>
    rw [List.foldlM_cons]
    cases hb : a.step d with
    | none => simp [scanStep_eq_none.mp hb]
    | some b =>
      have hne : d.count ≠ 0 := fun h0 => by simp [scanStep_eq_none.mpr h0] at hb
      simp only [Option.bind_eq_bind, Option.bind_some, ih b, List.exists_mem_cons_iff, hne,
        false_or]

theorem swapMin_perm (l : List Dim) (i : Nat) : (swapMin l i).Perm l := by
  unfold swapMin
  split
  · exact .refl l
  · rename_i tmp hi
    obtain ⟨hlt, rfl⟩ := List.getElem?_eq_some_iff.mp hi
    dsimp only
    split
    · exact .refl l
    · rename_i d hd
      obtain ⟨hm, rfl⟩ := List.getElem?_eq_some_iff.mp hd
      split
      · exact .refl l
      · exact List.set_set_perm hlt hm

theorem sortDims_perm (l : List Dim) : (sortDims l).Perm l := by
  unfold sortDims
  generalize List.range (l.length - 1) = is
  induction is generalizing l with
  | nil => exact .refl l
  | cons i is ih => exact (ih (swapMin l i)).trans (swapMin_perm l i)

theorem prod_pos (h : ∀ d ∈ l, d.count ≠ 0) : 0 < (l.map fun d => d.count.toNat).prod := by
  induction l with
  | nil => exact Nat.one_pos
  | cons d l ih =>
    rw [List.map_cons, List.prod_cons]
    exact Nat.mul_pos (toNat_pos (h d List.mem_cons_self))
      (ih fun b hb => h b (List.mem_cons_of_mem _ hb))

theorem datasize_perm (h : l.Perm l') : datasize e l = datasize e l' := by
  unfold datasize
  rw [(h.map _).prod_eq]

theorem datasize_cons (e : Word) (d : Dim) (l : List Dim) :
    datasize e (d :: l) = e.toNat * d.count.toNat * (l.map fun d => d.count.toNat).prod := by
  rw [datasize, List.map_cons, List.prod_cons, mul_assoc]

/-- Folding the innermost dimension into the element cannot wrap. -/
theorem toNat_mul_count (h : ∀ d ∈ l, d.count ≠ 0) (hs : datasize e (d :: l) < 2 ^ 64) :
    (e * d.count).toNat = e.toNat * d.count.toNat := by
  rw [datasize_cons] at hs
  exact toNat_mul_of_lt (lt_of_le_of_lt (Nat.le_mul_of_pos_right _ (prod_pos h)) hs)

theorem bytes_contig (h : ∀ d ∈ l, d.count ≠ 0) (hs : datasize e (d :: l) < 2 ^ 64)
    (hself : d.self = e) (hpeer : d.peer = e) :
    bytes (e * d.count) s p l = bytes e s p (d :: l) := by
  have hd : d.step = (d.count.toNat, e.toNat • ((1 : Word), (1 : Word))) := by
    simp only [Dim.step, hself, hpeer, Prod.smul_mk, toNat_nsmul, mul_one]
  unfold bytes
  rw [List.map_cons, hd, box_mul, toNat_mul_count h hs]

theorem foldContig_bytes (he : 0 < e.toNat) (h : ∀ d ∈ l, d.count ≠ 0)
    (hs : datasize e l < 2 ^ 64) :
    bytes (foldContig e l).1 s p (foldContig e l).2 = bytes e s p l ∧
      0 < (foldContig e l).1.toNat ∧ (∀ d ∈ (foldContig e l).2, d.count ≠ 0) ∧
      datasize (foldContig e l).1 (foldContig e l).2 < 2 ^ 64 := by
  induction l generalizing e with
  | nil => exact ⟨rfl, he, h, hs⟩
  | cons d l ih =>
    rw [foldContig]
    split
    · rename_i hd
      have htail : ∀ d ∈ l, d.count ≠ 0 := fun b hb => h b (List.mem_cons_of_mem _ hb)
      have hmul := toNat_mul_count htail hs
      have hpos : 0 < (e * d.count).toNat := by
        rw [hmul]
        exact Nat.mul_pos he (toNat_pos (h d List.mem_cons_self))
      have hsize : datasize (e * d.count) l < 2 ^ 64 := by
        rw [datasize, hmul, ← datasize_cons]
        exact hs
      rw [← bytes_contig htail hs hd.1 hd.2]
      exact ih hpos htail hsize
    · exact ⟨rfl, he, h, hs⟩

/-- Pass 4, on the dimensions alone. -/
theorem foldInner_box (h : ∀ d ∈ lo :: l, d.count ≠ 0)
    (hs : ((lo :: l).map fun d => d.count.toNat).prod < 2 ^ 64) :
    box ((foldInner lo l).map Dim.step) = box ((lo :: l).map Dim.step) := by
  induction l generalizing lo with
  | nil => rfl
  | cons hi l ih =>
    have hlo : lo.count ≠ 0 := h lo List.mem_cons_self
    have hhi : hi.count ≠ 0 := h hi (by simp)
    have htail : ∀ d ∈ l, d.count ≠ 0 := fun d hd => h d (by simp [hd])
    simp only [List.map_cons, List.prod_cons] at hs
    rw [foldInner]
    split
    · rename_i hd
      have hmul : (lo.count * hi.count).toNat = lo.count.toNat * hi.count.toNat := by
        rw [← mul_assoc] at hs
        exact toNat_mul_of_lt
          (lt_of_le_of_lt (Nat.le_mul_of_pos_right _ (prod_pos htail)) hs)
      have hpos : lo.count * hi.count ≠ 0 := by
        intro hz
        have := Nat.mul_pos (toNat_pos hlo) (toNat_pos hhi)
        rw [← hmul, hz] at this
        exact absurd this (by decide)
      rw [ih]
      · have hstep : hi.step = (hi.count.toNat, lo.count.toNat • (lo.self, lo.peer)) := by
          simp only [Dim.step, hd.1, hd.2, Prod.smul_mk, toNat_nsmul, mul_comm]
        rw [List.map_cons, List.map_cons, List.map_cons, hstep, Dim.step, Dim.step, box_mul, hmul]
      · intro d hd
        obtain rfl | hd := List.mem_cons.mp hd
        · exact hpos
        · exact htail d hd
      · rw [List.map_cons, List.prod_cons, hmul, mul_assoc]
        exact hs
    · rw [List.map_cons, List.map_cons]
      refine box_congr_tail _ (ih (fun d hd => h d (List.mem_cons_of_mem _ hd)) ?_)
      rw [List.map_cons, List.prod_cons]
      exact lt_of_le_of_lt (Nat.le_mul_of_pos_left _ (toNat_pos hlo)) hs

theorem foldDims_bytes (he : 0 < e.toNat) (h : ∀ d ∈ l, d.count ≠ 0)
    (hs : datasize e l < 2 ^ 64) : bytes e s p (foldDims l) = bytes e s p l := by
  cases l with
  | nil => rfl
  | cons lo l =>
    have hprod := lt_of_le_of_lt (Nat.le_mul_of_pos_left _ he) hs
    unfold bytes
    rw [foldDims, box_congr_tail _ (foldInner_box h hprod)]

/-- What pass 1 keeps of the dimensions: none is empty, and the product is the same. -/
theorem scanStep_counts (h : a.step d = some a') (ha : ∀ b ∈ a.dim, b.count ≠ 0) :
    (∀ b ∈ a'.dim, b.count ≠ 0) ∧ datasize e a'.dim = datasize e (d :: a.dim) := by
  unfold Scan.step at h
  split at h
  · simp at h
  · rename_i hz
    split at h
    · rename_i hone
      obtain rfl : a = a' := by simpa using h
      exact ⟨ha, by simp [datasize, hone]⟩
    · split at h
      · obtain rfl : (a.invert d).push d.invert = a' := by simpa using h
        refine ⟨?_, by simp [datasize, Scan.push, Scan.invert, Dim.invert, mul_comm]⟩
        intro b hb
        obtain hb | rfl := List.mem_append.mp hb |>.imp_right List.mem_singleton.mp
        · exact ha b hb
        · exact hz
      · obtain rfl : a.push d = a' := by simpa using h
        refine ⟨?_, by simp [datasize, Scan.push, mul_comm]⟩
        intro b hb
        obtain hb | rfl := List.mem_append.mp hb |>.imp_right List.mem_singleton.mp
        · exact ha b hb
        · exact hz

theorem scan_counts (h : l.foldlM Scan.step a = some a') (ha : ∀ b ∈ a.dim, b.count ≠ 0) :
    (∀ b ∈ a'.dim, b.count ≠ 0) ∧ datasize e a'.dim = datasize e (a.dim ++ l) := by
  induction l generalizing a with
  | nil =>
    obtain rfl : a = a' := by simpa using h
    exact ⟨ha, by simp⟩
  | cons d l ih =>
    rw [List.foldlM_cons] at h
    obtain ⟨b, hb, h⟩ := Option.bind_eq_some_iff.mp h
    obtain ⟨hcb, hsb⟩ := scanStep_counts (e := e) hb ha
    obtain ⟨hc, hsz⟩ := ih h hcb
    refine ⟨hc, hsz.trans ?_⟩
    rw [datasize_perm List.perm_middle]
    simp only [datasize, List.map_append, List.prod_append, List.map_cons, List.prod_cons] at hsb ⊢
    rw [← mul_assoc, hsb]
    simp only [mul_assoc]

theorem buildSmd_eq_none {selfaddr peeraddr : Word} {selfstrides peerstrides count : Fin n → Word} :
    buildSmd selfaddr selfstrides peeraddr peerstrides e count = none ↔ ∃ i, count i = 0 := by
  have hnone := scan_eq_none (callerDims selfstrides peerstrides count)
    ⟨selfaddr, peeraddr, [], -1, true⟩
  have hcount : (∃ d ∈ callerDims selfstrides peerstrides count, d.count = 0) ↔
      ∃ i, count i = 0 := by
    simp [callerDims, List.mem_ofFn]
  rw [← hcount, ← hnone]
  unfold buildSmd
  split <;> simp_all

theorem buildSmd_bytes {selfaddr peeraddr : Word} {selfstrides peerstrides count : Fin n → Word}
    {smd : Smd} (he : e ≠ 0) (hs : datasize e (callerDims selfstrides peerstrides count) < 2 ^ 64)
    (h : buildSmd selfaddr selfstrides peeraddr peerstrides e count = some smd) :
    smd.bytes = bytes e selfaddr peeraddr (callerDims selfstrides peerstrides count) := by
  unfold buildSmd at h
  split at h
  · simp at h
  · rename_i a ha
    obtain ⟨hc, hsize⟩ := scan_counts (e := e) ha (by simp)
    have hbytes := scan_bytes (e := e) ha
    rw [List.nil_append] at hsize hbytes
    have hsort : (if a.sorted then a.dim else sortDims a.dim).Perm a.dim := by
      split
      · exact .refl _
      · exact sortDims_perm _
    obtain ⟨hcontig, hpos, hne, hlt⟩ := foldContig_bytes (s := a.self) (p := a.peer) (toNat_pos he)
      (fun d hd => hc d (hsort.mem_iff.mp hd)) (by rwa [datasize_perm hsort, hsize])
    obtain rfl := Option.some.inj h
    calc bytes _ a.self a.peer (foldDims _)
        = bytes _ a.self a.peer _ := foldDims_bytes hpos hne hlt
      _ = bytes e a.self a.peer _ := hcontig
      _ = bytes e a.self a.peer a.dim := bytes_perm hsort
      _ = _ := hbytes

/-- The normalization gives up exactly on an empty transfer, and otherwise describes the same
pairs of byte addresses, each as often. -/
theorem buildSmd_preserves {selfaddr peeraddr : Word}
    {selfstrides peerstrides count : Fin n → Word} (he : e ≠ 0)
    (hs : datasize e (callerDims selfstrides peerstrides count) < 2 ^ 64) :
    (buildSmd selfaddr selfstrides peeraddr peerstrides e count = none ↔ ∃ i, count i = 0) ∧
      ∀ smd, buildSmd selfaddr selfstrides peeraddr peerstrides e count = some smd →
        smd.bytes = bytes e selfaddr peeraddr (callerDims selfstrides peerstrides count) :=
  ⟨buildSmd_eq_none, fun _ h => buildSmd_bytes he hs h⟩

/-- One dimension is null, one is walked backwards and then folded into the element. -/
theorem buildSmd_preserves_three :
    (⟨8, 1004, 4996, [⟨3, 100, 60⟩]⟩ : Smd).bytes =
      bytes 4 1008 5000 (callerDims ![100, 99, -4] ![60, 7, -4] ![3, 1, 2]) :=
  (@buildSmd_preserves 3 4 1008 5000 ![100, 99, -4] ![60, 7, -4] ![3, 1, 2]
    (by decide) (by decide)).2 _ (by decide)

end Gasnet.Strided
