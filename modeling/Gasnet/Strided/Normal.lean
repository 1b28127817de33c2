import Gasnet.Strided.Chunks
import Gasnet.Strided.Normalize

/-! The normal form that the normalization reaches. -/
namespace Gasnet.Strided

variable {e s p : Word} {d lo hi : Dim} {l l' : List Dim} {a a' : Scan}

/-- The test of pass 3. -/
def Dim.DualContig (d : Dim) (elemsz : Word) : Prop := d.self = elemsz ∧ d.peer = elemsz

/-- The test of pass 4. -/
def Dim.Folds (lo hi : Dim) : Prop :=
  hi.self = lo.self * lo.count ∧ hi.peer = lo.peer * lo.count

/-- Sorted by the peer stride. -/
def Ascending (l : List Dim) : Prop := l.Pairwise fun d d' => d.peer.toInt ≤ d'.peer.toInt

instance (d : Dim) (elemsz : Word) : Decidable (d.DualContig elemsz) :=
  inferInstanceAs (Decidable (_ ∧ _))

instance (lo hi : Dim) : Decidable (lo.Folds hi) := inferInstanceAs (Decidable (_ ∧ _))

instance (l : List Dim) : Decidable (Ascending l) :=
  inferInstanceAs (Decidable (l.Pairwise fun d d' => d.peer.toInt ≤ d'.peer.toInt))

/-- Normalized metadata. -/
structure Smd.Normal (smd : Smd) : Prop where
  wf : smd.Wf
  count : ∀ d ∈ smd.dim, 2 ≤ d.count.toNat
  peer : ∀ d ∈ smd.dim, 0 ≤ d.peer.toInt
  ascending : Ascending smd.dim
  folded : smd.dim.IsChain fun lo hi => ¬lo.Folds hi
  inner : ∀ d ∈ smd.dim.head?, ¬d.DualContig smd.elemsz

section Selection

theorem minDim_spec (l : List Dim) (j m : ℕ) (x : Word) :
    (minDim l j x m = m ∧ ∀ d ∈ l, x.toInt ≤ d.peer.toInt) ∨
      ∃ k d, l[k]? = some d ∧ minDim l j x m = j + k ∧ d.peer.toInt < x.toInt ∧
        ∀ d' ∈ l, d.peer.toInt ≤ d'.peer.toInt := by
  induction l generalizing j m x with
  | nil => exact .inl ⟨rfl, nofun⟩
  | cons b l ih =>
    rw [minDim]
    split
    · rename_i hlt
      rw [BitVec.slt_iff_toInt_lt] at hlt
      refine .inr ?_
      rcases ih (j + 1) j b.peer with ⟨hr, hall⟩ | ⟨k, d, hk, hr, hd, hall⟩
      · refine ⟨0, b, rfl, hr, hlt, fun d' hd' => ?_⟩
        rcases List.mem_cons.1 hd' with rfl | hd'
        · exact le_refl _
        · exact hall d' hd'
      · refine ⟨k + 1, d, hk, by omega, by omega, fun d' hd' => ?_⟩
        rcases List.mem_cons.1 hd' with rfl | hd'
        · omega
        · exact hall d' hd'
    · rename_i hle
      rw [BitVec.slt_iff_toInt_lt, not_lt] at hle
      rcases ih (j + 1) m x with ⟨hr, hall⟩ | ⟨k, d, hk, hr, hd, hall⟩
      · refine .inl ⟨hr, fun d' hd' => ?_⟩
        rcases List.mem_cons.1 hd' with rfl | hd'
        · exact hle
        · exact hall d' hd'
      · refine .inr ⟨k + 1, d, hk, by omega, hd, fun d' hd' => ?_⟩
        rcases List.mem_cons.1 hd' with rfl | hd'
        · omega
        · exact hall d' hd'

/-- The smallest of what is left comes to the front of it. -/
theorem swapMin_append (l : List Dim) (b : Dim) (l' : List Dim) :
    ∃ c r, swapMin (l ++ b :: l') l.length = l ++ c :: r ∧ (c :: r).Perm (b :: l') ∧
      ∀ d ∈ r, c.peer.toInt ≤ d.peer.toInt := by
  have hget : (l ++ b :: l')[l.length]? = some b := by simp
  have hdrop : (l ++ b :: l').drop (l.length + 1) = l' := by
    rw [List.drop_append]
    simp
  unfold swapMin
  rw [hget]
  simp only [hdrop]
  rcases minDim_spec l' (l.length + 1) l.length b.peer with
    ⟨hr, hall⟩ | ⟨k, d, hk, hr, hlt, hall⟩
  · rw [hr, hget]
    exact ⟨b, l', if_pos rfl, .refl _, hall⟩
  · have hmin : (l ++ b :: l')[l.length + 1 + k]? = some d := by
      rw [List.getElem?_append_right (by omega)]
      simpa [show l.length + 1 + k - l.length = k + 1 by omega] using hk
    rw [hr, hmin]
    simp only
    rw [if_neg (by omega)]
    obtain ⟨hlen, rfl⟩ := List.getElem?_eq_some_iff.1 hk
    refine ⟨l'[k], l'.set k b, ?_, ?_, ?_⟩
    · rw [List.set_append_right _ _ (le_refl _), List.set_append_right _ _ (by omega)]
      simp [show l.length + 1 + k - l.length = k + 1 by omega]
    · exact @List.set_set_perm _ (b :: l') 0 (k + 1) (by simp) (by simpa using hlen)
    · intro d hd
      rcases List.mem_or_eq_of_mem_set hd with hd | rfl
      · exact hall d hd
      · exact le_of_lt hlt

/-- After `n` rounds the first `n` are sorted and below the rest. -/
theorem sort_rounds (l : List Dim) (n : ℕ) (hn : n ≤ l.length) :
    ∃ A B, (List.range n).foldl swapMin l = A ++ B ∧ A.length = n ∧ Ascending A ∧
      ∀ a ∈ A, ∀ b ∈ B, a.peer.toInt ≤ b.peer.toInt := by
  induction n with
  | zero => exact ⟨[], l, rfl, rfl, .nil, nofun⟩
  | succ n ih =>
    obtain ⟨A, B, heq, hlen, hA, hAB⟩ := ih (by omega)
    have hlength : (A ++ B).length = l.length := by
      rw [← heq]
      clear heq hAB hA hlen ih
      generalize List.range n = is
      induction is using List.reverseRecOn with
      | nil => rfl
      | append_singleton is i ih => rw [List.foldl_concat, (swapMin_perm _ i).length_eq, ih]
    cases B with
    | nil =>
      simp at hlength
      omega
    | cons b B =>
      obtain ⟨c, r, hswap, hperm, hmin⟩ := swapMin_append A b B
      refine ⟨A ++ [c], r, ?_, by simp [hlen], ?_, ?_⟩
      · rw [List.range_succ, List.foldl_concat, heq, ← hlen, hswap, List.append_cons]
      · refine List.pairwise_append.2 ⟨hA, List.pairwise_singleton _ _, fun x hx y hy => ?_⟩
        rw [List.mem_singleton.1 hy]
        exact hAB x hx c (hperm.subset List.mem_cons_self)
      · intro x hx y hy
        rcases List.mem_append.1 hx with hx | hx
        · exact hAB x hx y (hperm.subset (List.mem_cons_of_mem _ hy))
        · rw [List.mem_singleton.1 hx]
          exact hmin y hy

theorem sortDims_ascending (l : List Dim) : Ascending (sortDims l) := by
  obtain ⟨A, B, heq, hlen, hA, hAB⟩ := sort_rounds l (l.length - 1) (by omega)
  have hlength := (sortDims_perm l).length_eq
  rw [sortDims] at hlength ⊢
  rw [heq] at hlength ⊢
  rw [List.length_append] at hlength
  refine List.pairwise_append.2 ⟨hA, ?_, hAB⟩
  rcases B with _ | ⟨b, _ | ⟨b', B⟩⟩
  · exact .nil
  · exact List.pairwise_singleton _ _
  · simp only [List.length_cons] at hlength
    omega

end Selection

section Passes

/-- What pass 1 has written: no null dimension, no negative peer stride; and with `is_sorted` the
strides ascend to the last one. -/
structure Scan.Clean (a : Scan) : Prop where
  count : ∀ d ∈ a.dim, 2 ≤ d.count.toNat
  peer : ∀ d ∈ a.dim, 0 ≤ d.peer.toInt
  ascending : a.sorted = true → Ascending a.dim
  last : a.sorted = true → ∀ d ∈ a.dim, d.peer.toInt ≤ a.lastPeer.toInt

theorem push_clean (ha : a.Clean) (hc : 2 ≤ d.count.toNat) (hp : 0 ≤ d.peer.toInt) :
    (a.push d).Clean := by
  have hsorted : (a.push d).sorted = true →
      a.sorted = true ∧ a.lastPeer.toInt ≤ d.peer.toInt := by
    intro h
    rw [← BitVec.sle_iff_toInt_le]
    exact Bool.and_eq_true_iff.1 h
  refine ⟨?_, ?_, ?_, ?_⟩
  · intro b hb
    rcases List.mem_append.1 hb with hb | hb
    · exact ha.count b hb
    · rwa [List.mem_singleton.1 hb]
  · intro b hb
    rcases List.mem_append.1 hb with hb | hb
    · exact ha.peer b hb
    · rwa [List.mem_singleton.1 hb]
  · intro h
    refine List.pairwise_append.2 ⟨ha.ascending (hsorted h).1, List.pairwise_singleton _ _, ?_⟩
    intro x hx y hy
    rw [List.mem_singleton.1 hy]
    exact (ha.last (hsorted h).1 x hx).trans (hsorted h).2
  · intro h b hb
    rcases List.mem_append.1 hb with hb | hb
    · exact (ha.last (hsorted h).1 b hb).trans (hsorted h).2
    · rw [List.mem_singleton.1 hb]
      exact le_refl _

theorem two_le_count (h0 : d.count ≠ 0) (h1 : d.count ≠ 1) : 2 ≤ d.count.toNat := by
  have hpos := toNat_pos h0
  have hone : d.count.toNat ≠ 1 := fun h => h1 (BitVec.eq_of_toNat_eq (by simpa using h))
  omega

theorem scanStep_clean (hd : d.count ≠ 1 → d.peer ≠ BitVec.intMin 64) (ha : a.Clean)
    (h : a.step d = some a') : a'.Clean := by
  unfold Scan.step at h
  split at h
  · simp at h
  · rename_i h0
    split at h
    · obtain rfl : a = a' := by simpa using h
      exact ha
    · rename_i h1
      split at h
      · rename_i hneg
        obtain rfl : (a.invert d).push d.invert = a' := by simpa using h
        have hinv : (a.invert d).Clean := ⟨ha.count, ha.peer, ha.ascending, ha.last⟩
        refine push_clean hinv (two_le_count h0 h1) ?_
        rw [BitVec.slt_iff_toInt_lt] at hneg
        rw [Dim.invert, BitVec.toInt_neg_of_ne_intMin (hd h1)]
        simp only [BitVec.ofNat_eq_ofNat, BitVec.toInt_zero] at hneg
        omega
      · rename_i hnonneg
        obtain rfl : a.push d = a' := by simpa using h
        rw [BitVec.slt_iff_toInt_lt] at hnonneg
        exact push_clean ha (two_le_count h0 h1) (by simpa using hnonneg)

theorem scan_clean (hd : ∀ d ∈ l, d.count ≠ 1 → d.peer ≠ BitVec.intMin 64) (ha : a.Clean)
    (h : l.foldlM Scan.step a = some a') : a'.Clean := by
  induction l generalizing a with
  | nil =>
    obtain rfl : a = a' := by simpa using h
    exact ha
  | cons d l ih =>
    rw [List.foldlM_cons] at h
    obtain ⟨b, hb, h⟩ := Option.bind_eq_some_iff.1 h
    exact ih (fun x hx => hd x (List.mem_cons_of_mem _ hx))
      (scanStep_clean (hd d List.mem_cons_self) ha hb) h

theorem foldContig_suffix (e : Word) (l : List Dim) : (foldContig e l).2 <:+ l := by
  induction l generalizing e with
  | nil => exact List.suffix_refl _
  | cons d l ih =>
    rw [foldContig]
    split
    · exact (ih _).trans (List.suffix_cons _ _)
    · exact List.suffix_refl _

theorem foldContig_inner (e : Word) (l : List Dim) :
    ∀ d ∈ (foldContig e l).2.head?, ¬d.DualContig (foldContig e l).1 := by
  induction l generalizing e with
  | nil => exact nofun
  | cons d l ih =>
    rw [foldContig]
    split
    · exact ih _
    · rename_i hd
      intro x hx
      obtain rfl : d = x := Option.some.inj hx
      exact hd

/-- The first dimension keeps its strides. -/
theorem foldInner_head (lo : Dim) (l : List Dim) :
    ∃ d r, foldInner lo l = d :: r ∧ d.self = lo.self ∧ d.peer = lo.peer := by
  induction l generalizing lo with
  | nil => exact ⟨lo, [], rfl, rfl, rfl⟩
  | cons hi l ih =>
    rw [foldInner]
    split
    · exact ih _
    · exact ⟨lo, _, rfl, rfl, rfl⟩

/-- No stride is new, and their order stays. -/
theorem foldInner_peers (lo : Dim) (l : List Dim) :
    ((foldInner lo l).map Dim.peer).Sublist ((lo :: l).map Dim.peer) := by
  induction l generalizing lo with
  | nil => exact List.Sublist.refl _
  | cons hi l ih =>
    rw [foldInner]
    split
    · exact (ih _).trans ((List.sublist_cons_self _ _).cons_cons _)
    · exact (ih hi).cons_cons _

theorem foldInner_folded (lo : Dim) (l : List Dim) :
    (foldInner lo l).IsChain fun lo hi => ¬lo.Folds hi := by
  induction l generalizing lo with
  | nil => exact .singleton _
  | cons hi l ih =>
    rw [foldInner]
    split
    · exact ih _
    · rename_i hne
      have hchain := ih hi
      obtain ⟨d, r, heq, hself, hpeer⟩ := foldInner_head hi l
      rw [heq] at hchain ⊢
      refine .cons_cons ?_ hchain
      rwa [Dim.Folds, hself, hpeer]

theorem foldInner_counts (h : ∀ d ∈ lo :: l, 2 ≤ d.count.toNat)
    (hs : ((lo :: l).map fun d => d.count.toNat).prod < 2 ^ 64) :
    (∀ d ∈ foldInner lo l, 2 ≤ d.count.toNat) ∧
      ((foldInner lo l).map fun d => d.count.toNat).prod =
        ((lo :: l).map fun d => d.count.toNat).prod := by
  induction l generalizing lo with
  | nil => exact ⟨h, rfl⟩
  | cons hi l ih =>
    have hlo := h lo List.mem_cons_self
    have hhi := h hi (by simp)
    have htail : ∀ d ∈ l, 2 ≤ d.count.toNat := fun d hd => h d (by simp [hd])
    have hpos : 0 < (l.map fun d => d.count.toNat).prod := by
      refine prod_pos fun d hd hz => ?_
      have := htail d hd
      rw [hz] at this
      simp at this
    simp only [List.map_cons, List.prod_cons] at hs
    rw [foldInner]
    split
    · have hmul : (lo.count * hi.count).toNat = lo.count.toNat * hi.count.toNat := by
        rw [← mul_assoc] at hs
        exact toNat_mul_of_lt (lt_of_le_of_lt (Nat.le_mul_of_pos_right _ hpos) hs)
      have hmerged := @ih { lo with count := lo.count * hi.count } ?_ ?_
      · simp only [List.map_cons, List.prod_cons, hmul] at hmerged ⊢
        rwa [← mul_assoc]
      · intro d hd
        rcases List.mem_cons.1 hd with rfl | hd
        · rw [hmul]
          exact le_trans hlo (Nat.le_mul_of_pos_right _ (by omega))
        · exact htail d hd
      · rwa [List.map_cons, List.prod_cons, hmul, mul_assoc]
    · have hrest := @ih hi (fun d hd => h d (List.mem_cons_of_mem _ hd)) ?_
      · refine ⟨fun d hd => ?_, ?_⟩
        · rcases List.mem_cons.1 hd with rfl | hd
          · exact hlo
          · exact hrest.1 d hd
        · rw [List.map_cons, List.prod_cons, hrest.2]
          rfl
      · exact lt_of_le_of_lt (Nat.le_mul_of_pos_left _ (by omega)) hs

theorem foldInner_self (h : (lo :: l).IsChain fun lo hi => ¬lo.Folds hi) :
    foldInner lo l = lo :: l := by
  induction l generalizing lo with
  | nil => rfl
  | cons hi l ih =>
    rw [List.isChain_cons_cons] at h
    have hne : ¬(hi.self = lo.self * lo.count ∧ hi.peer = lo.peer * lo.count) := h.1
    rw [foldInner, if_neg hne, ih h.2]

end Passes

section Build

variable {n : ℕ} {selfaddr peeraddr : Word} {selfstrides peerstrides count : Fin n → Word}
  {smd : Smd}

/-- What the callers promise: the bytes can be counted in a `size_t`, and a peer stride that has to
be inverted is the negative of a `ptrdiff_t`. -/
structure Valid (elemsz : Word) (dim : List Dim) : Prop where
  pos : elemsz ≠ 0
  size : datasize elemsz dim < 2 ^ 64
  peer : ∀ d ∈ dim, d.count ≠ 1 → d.peer ≠ BitVec.intMin 64

theorem foldDims_normal (hsz : e ≠ 0) (hs : datasize e l < 2 ^ 64)
    (hc : ∀ d ∈ l, 2 ≤ d.count.toNat) (hp : ∀ d ∈ l, 0 ≤ d.peer.toInt) (ha : Ascending l)
    (hi : ∀ d ∈ l.head?, ¬d.DualContig e) : (⟨e, s, p, foldDims l⟩ : Smd).Normal := by
  have hne : ∀ {l' : List Dim}, (∀ d ∈ l', 2 ≤ d.count.toNat) → ∀ d ∈ l', d.count ≠ 0 := by
    intro l' h d hd hz
    have := h d hd
    rw [hz] at this
    simp at this
  cases l with
  | nil => exact ⟨⟨hsz, nofun, by rwa [Smd.totalsz]⟩, nofun, nofun, .nil, .nil, nofun⟩
  | cons lo l =>
    have hprod := lt_of_le_of_lt (Nat.le_mul_of_pos_left _ (toNat_pos hsz)) hs
    obtain ⟨hcount, hsame⟩ := foldInner_counts hc hprod
    have hsub := foldInner_peers lo l
    obtain ⟨d, r, heq, hself, hpeer⟩ := foldInner_head lo l
    refine ⟨⟨hsz, hne hcount, ?_⟩, hcount, ?_, ?_, foldInner_folded lo l, ?_⟩
    · rw [Smd.totalsz, datasize, foldDims, hsame]
      exact hs
    · intro d hd
      obtain ⟨d', hd', heq⟩ := List.mem_map.1 (hsub.subset (List.mem_map_of_mem hd))
      exact heq ▸ hp d' hd'
    · have hmap : ((lo :: l).map Dim.peer).Pairwise fun x y => x.toInt ≤ y.toInt :=
        List.pairwise_map.2 ha
      have hfolded := hmap.sublist hsub
      rw [List.pairwise_map] at hfolded
      exact hfolded
    · intro x hx
      rw [foldDims, heq] at hx
      obtain rfl : d = x := Option.some.inj hx
      rw [Dim.DualContig, hself, hpeer]
      exact hi lo rfl

theorem buildSmd_normal (hv : Valid e (callerDims selfstrides peerstrides count))
    (h : buildSmd selfaddr selfstrides peeraddr peerstrides e count = some smd) : smd.Normal := by
  unfold buildSmd at h
  split at h
  · simp at h
  · rename_i a ha
    have hstart : Scan.Clean ⟨selfaddr, peeraddr, [], -1, true⟩ :=
      ⟨by simp, by simp, fun _ => .nil, by simp⟩
    have hclean := scan_clean hv.peer hstart ha
    obtain ⟨hc, hsize⟩ := scan_counts (e := e) ha (by simp)
    rw [List.nil_append] at hsize
    have hsort : (if a.sorted then a.dim else sortDims a.dim).Perm a.dim := by
      split
      · exact .refl _
      · exact sortDims_perm _
    have hascending : Ascending (if a.sorted then a.dim else sortDims a.dim) := by
      split
      · rename_i hsorted
        exact hclean.ascending hsorted
      · exact sortDims_ascending _
    obtain rfl := Option.some.inj h
    generalize (if a.sorted then a.dim else sortDims a.dim) = dim at hsort hascending ⊢
    obtain ⟨-, hpos, -, hlt⟩ := foldContig_bytes (s := a.self) (p := a.peer) (toNat_pos hv.pos)
      (fun d hd => hc d (hsort.mem_iff.1 hd)) (by rw [datasize_perm hsort, hsize]; exact hv.size)
    have hsuffix := foldContig_suffix e dim
    have hmem : ∀ d ∈ (foldContig e dim).2, d ∈ a.dim := fun d hd =>
      hsort.mem_iff.1 (hsuffix.subset hd)
    refine foldDims_normal ?_ hlt (fun d hd => hclean.count d (hmem d hd))
      (fun d hd => hclean.peer d (hmem d hd)) (hascending.sublist hsuffix.sublist)
      (foldContig_inner e dim)
    rintro hz
    rw [hz] at hpos
    simp at hpos

/-- Pass 1 copies normalized dimensions and finds them sorted. -/
theorem scan_self (hc : ∀ d ∈ l, 2 ≤ d.count.toNat) (hp : ∀ d ∈ l, 0 ≤ d.peer.toInt)
    (ha : Ascending l) (hsorted : a.sorted = true)
    (hlast : ∀ d ∈ l, a.lastPeer.toInt ≤ d.peer.toInt) :
    ∃ last, l.foldlM Scan.step a = some ⟨a.self, a.peer, a.dim ++ l, last, true⟩ := by
  induction l generalizing a with
  | nil =>
    refine ⟨a.lastPeer, ?_⟩
    rw [List.append_nil, ← hsorted]
    rfl
  | cons d l ih =>
    have hcount := hc d List.mem_cons_self
    have hstep : a.step d = some (a.push d) := by
      rw [Scan.step, if_neg, if_neg, if_neg]
      · rw [BitVec.slt_iff_toInt_lt, not_lt]
        simpa using hp d List.mem_cons_self
      · intro h1
        rw [h1] at hcount
        simp at hcount
      · intro h0
        rw [h0] at hcount
        simp at hcount
    have hpush : (a.push d).sorted = true := by
      have hle := BitVec.sle_iff_toInt_le.2 (hlast d List.mem_cons_self)
      simp [Scan.push, hsorted, hle]
    obtain ⟨last, hrest⟩ := @ih (a.push d) (fun x hx => hc x (List.mem_cons_of_mem _ hx))
      (fun x hx => hp x (List.mem_cons_of_mem _ hx)) (List.pairwise_cons.1 ha).2 hpush
      (List.pairwise_cons.1 ha).1
    refine ⟨last, ?_⟩
    rw [List.foldlM_cons, hstep, Option.bind_eq_bind, Option.bind_some, hrest]
    simp [Scan.push]

/-- `gasnete_build_smd` on normalized metadata. -/
def Smd.rebuild (smd : Smd) : Option Smd :=
  buildSmd smd.self (fun d : Fin smd.dim.length => (smd.dim.get d).self) smd.peer
    (fun d => (smd.dim.get d).peer) smd.elemsz fun d => (smd.dim.get d).count

theorem rebuild_self (h : smd.Normal) : smd.rebuild = some smd := by
  have hdims : callerDims (fun d : Fin smd.dim.length => (smd.dim.get d).self)
      (fun d => (smd.dim.get d).peer) (fun d => (smd.dim.get d).count) = smd.dim :=
    List.ofFn_get smd.dim
  obtain ⟨last, hscan⟩ := @scan_self smd.dim ⟨smd.self, smd.peer, [], -1, true⟩ h.count h.peer
    h.ascending rfl fun d hd => by
      have := h.peer d hd
      have hminus : (-1 : Word).toInt ≤ 0 := by decide
      exact hminus.trans this
  have hcontig : foldContig smd.elemsz smd.dim = (smd.elemsz, smd.dim) := by
    cases hl : smd.dim with
    | nil => rfl
    | cons d l =>
      rw [foldContig, if_neg]
      exact h.inner d (by rw [hl]; rfl)
  have hfold : foldDims smd.dim = smd.dim := by
    have hchain := h.folded
    cases hl : smd.dim with
    | nil => rfl
    | cons d l =>
      rw [hl] at hchain
      exact foldInner_self hchain
  rw [Smd.rebuild, buildSmd, hdims, hscan]
  simp only [List.nil_append, if_true, hcontig, hfold]

end Build

end Gasnet.Strided
