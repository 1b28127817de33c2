import Gasnet.Firehose.BucketTablesRuns

/-! Merging a region that has to be pinned with the pinned regions next to it. -/
namespace Gasnet.Firehose.Chained

variable {c : Config} {s : State} {r m : Region} {x y : Priv} {a p : Nat}

/-- The region that `fh_bucket_lookup` leads to, on this node. -/
def localPriv (c : Config) (s : State) (addr : Nat) : Option Priv :=
  (bucketLookup c s c.mynode addr).bind fun bd => s.privs bd.priv

/-- The first half of `fhi_merge_regions`: the region behind `r`, if it fits. An address wraps around to
zero at the end of memory. -/
def mergeSuccessor (c : Config) (s : State) (r : Region) : Region :=
  let spaceAvail := c.maxRegionSize - r.len
  let nextAddr := (r.addr + r.len) % 2 ^ 64
  if spaceAvail ≠ 0 ∧ nextAddr ≠ 0 then
    match localPriv c s nextAddr with
    | some priv =>
      let endAddr := priv.region.last + 1
      let extend := endAddr - nextAddr
      if c.mayMerge priv.client ∧ extend ≤ spaceAvail then ⟨r.addr, r.len + extend⟩ else r
    | none => r
  else r

/-- The second half: the region before `r`. -/
def mergePredecessor (c : Config) (s : State) (r : Region) : Region :=
  let spaceAvail := c.maxRegionSize - r.len
  if spaceAvail ≠ 0 ∧ r.addr ≠ 0 then
    match localPriv c s (r.addr - c.bucketSize) with
    | some priv =>
      let extend := r.addr - priv.region.addr
      if c.mayMerge priv.client ∧ extend ≤ spaceAvail then ⟨r.addr - extend, r.len + extend⟩ else r
    | none => r
  else r

/-- `fhi_merge_regions`. -/
def mergeRegions (c : Config) (s : State) (r : Region) : Region :=
  mergePredecessor c s (mergeSuccessor c s r)

/-- `n` is the address of a byte of the region. -/
def HasByte (r : Region) (n : Nat) : Prop := r.addr ≤ n ∧ n < r.addr + r.len

/-- A live region of this node that may be merged with. -/
def Mergeable (c : Config) (s : State) (x : Priv) : Prop :=
  (∃ p, s.privs p = some x) ∧ x.node = c.mynode ∧ c.mayMerge x.client

/-- A region that may be pinned in place of `r`. -/
structure Merged (c : Config) (s : State) (r m : Region) : Prop where
  aligned : m.Aligned c.bucketSize
  covers : m.Covers r
  fits : m.len ≤ c.maxRegionSize
  inside : m.addr + m.len ≤ 2 ^ 64
  added : ∀ n, HasByte m n → ¬HasByte r n → ∃ x, Mergeable c s x ∧ HasByte x.region n ∧
    m.Covers x.region ∧ (n < r.addr → m.addr = x.region.addr) ∧
    (r.addr + r.len ≤ n → m.last = x.region.last)

theorem last_of_aligned (hr : r.Aligned c.bucketSize) : r.last + 1 = r.addr + r.len := by
  have hpos := hr.2.2
  unfold Region.last
  omega

theorem covers_of_localPriv (h : Valid c s) (hx : localPriv c s a = some x) :
    ∃ p, s.privs p = some x ∧ x.Covers c ⟨c.mynode, a⟩ := by
  obtain ⟨bd, hbd, hp⟩ := Option.bind_eq_some_iff.1 hx
  have hin : bd ∈ at1 c s ⟨c.mynode, a⟩ := by
    rw [bucketLookup, find1_eq] at hbd
    exact List.mem_of_head? hbd
  obtain ⟨y, hy, hk⟩ := h.covers (Or.inl hin)
  obtain rfl := Option.some.inj (hy.symm.trans hp)
  exact ⟨_, hy, hk⟩

/-- No region that is there contains one that was missed. -/
theorem not_covers_of_missed (h : Valid c s) (hr : r.Aligned c.bucketSize)
    (hmiss : findPriv c s c.mynode r = none) (hp : s.privs p = some x) (hnode : x.node = c.mynode) :
    ¬x.region.Covers r := by
  intro hx
  obtain ⟨q, y, hfind, -⟩ := h.finds hr.1 hp hx
  rw [hnode, hmiss] at hfind
  simp at hfind

/-- The region grows to the end of one that begins behind its own beginning, or stays. -/
theorem mergeSuccessor_spec (h : Valid c s) (hr : r.Aligned c.bucketSize)
    (hlen : r.len ≤ c.maxRegionSize) (hend : r.addr + r.len ≤ 2 ^ 64)
    (hmiss : findPriv c s c.mynode r = none) :
    mergeSuccessor c s r = r ∨ ∃ x, Mergeable c s x ∧ Admissible c x.region ∧
      r.addr < x.region.addr ∧ x.region.addr ≤ r.addr + r.len ∧
      r.addr + r.len < x.region.addr + x.region.len ∧
      mergeSuccessor c s r = ⟨r.addr, x.region.addr + x.region.len - r.addr⟩ ∧
      x.region.addr + x.region.len - r.addr ≤ c.maxRegionSize := by
  unfold mergeSuccessor
  simp only
  split
  · rename_i hroom
    have hnext : (r.addr + r.len) % 2 ^ 64 = r.addr + r.len := by
      rcases hend.lt_or_eq with hlt | heq
      · exact Nat.mod_eq_of_lt hlt
      · exact absurd (by rw [heq, Nat.mod_self]) hroom.2
    rw [hnext]
    split
    · rename_i x hx
      obtain ⟨p, hp, hnode, hdvd, hge, hle⟩ := covers_of_localPriv h hx
      have hshape := h.shaped p x hp
      have hxl := last_add_one hshape.admissible
      have hout := not_covers_of_missed h hr hmiss hp hnode.symm
      have hrl := last_of_aligned hr
      simp only at hge hle
      split
      · rename_i hmerge
        rw [hxl] at hmerge
        have hbegin : r.addr < x.region.addr := by
          by_contra hcon
          exact hout ⟨by omega, by omega⟩
        have hsum : r.len + (x.region.addr + x.region.len - (r.addr + r.len)) =
            x.region.addr + x.region.len - r.addr := by omega
        refine Or.inr ⟨x, ⟨⟨p, hp⟩, hnode.symm, hmerge.1⟩, hshape.admissible, hbegin, hge, by omega, ?_,
          by omega⟩
        rw [hxl, hsum]
      · exact Or.inl rfl
    · exact Or.inl rfl
  · exact Or.inl rfl

/-- The region grows down to the beginning of one that ends before it does, or stays. -/
theorem mergePredecessor_spec (h : Valid c s) (hr : r.Aligned c.bucketSize)
    (hmiss : findPriv c s c.mynode r = none) (haddr : m.addr = r.addr)
    (hlen : m.len ≤ c.maxRegionSize) :
    mergePredecessor c s m = m ∨ ∃ y, Mergeable c s y ∧ Admissible c y.region ∧
      y.region.addr < r.addr ∧ r.addr ≤ y.region.addr + y.region.len ∧
      y.region.addr + y.region.len < r.addr + r.len ∧
      mergePredecessor c s m = ⟨y.region.addr, m.len + (r.addr - y.region.addr)⟩ ∧
      m.len + (r.addr - y.region.addr) ≤ c.maxRegionSize := by
  unfold mergePredecessor
  simp only
  split
  · rename_i hroom
    split
    · rename_i y hy
      obtain ⟨p, hp, hnode, hdvd, hge, hle⟩ := covers_of_localPriv h hy
      have hshape := h.shaped p y hp
      have hyl := last_add_one hshape.admissible
      have hout := not_covers_of_missed h hr hmiss hp hnode.symm
      have hg := c.bucketSize_pos
      have hfirst : c.bucketSize ≤ r.addr := by
        refine Nat.le_of_dvd ?_ hr.1
        omega
      have hyend : c.bucketSize ∣ y.region.addr + y.region.len :=
        Nat.dvd_add hshape.admissible.1.1 hshape.admissible.1.2.1
      rw [haddr] at hge hle
      simp only at hge hle
      -- it ends on a bucket boundary behind the bucket it covers
      have hreach : r.addr ≤ y.region.addr + y.region.len := by
        have hlt : r.addr - c.bucketSize < y.region.addr + y.region.len := by omega
        have hstep := add_le_of_dvd (Nat.dvd_sub hr.1 (dvd_refl _)) hyend hlt
        omega
      have hrl := last_of_aligned hr
      split
      · rename_i hmerge
        rw [haddr] at hmerge
        have hshort : y.region.addr + y.region.len < r.addr + r.len := by
          by_contra hcon
          exact hout ⟨by omega, by omega⟩
        refine Or.inr ⟨y, ⟨⟨p, hp⟩, hnode.symm, hmerge.1⟩, hshape.admissible, by omega, hreach, hshort, ?_,
          by omega⟩
        rw [haddr]
        congr 1
        omega
      · exact Or.inl rfl
    · exact Or.inl rfl
  · exact Or.inl rfl

theorem merged_self (hr : r.Aligned c.bucketSize) (hlen : r.len ≤ c.maxRegionSize)
    (hend : r.addr + r.len ≤ 2 ^ 64) : Merged c s r r :=
  ⟨hr, ⟨le_rfl, le_rfl⟩, hlen, hend, fun _ hin hout => absurd hin hout⟩

theorem merged_successor (h : Valid c s) (hr : r.Aligned c.bucketSize)
    (hlen : r.len ≤ c.maxRegionSize) (hend : r.addr + r.len ≤ 2 ^ 64)
    (hmiss : findPriv c s c.mynode r = none) :
    (mergeSuccessor c s r).addr = r.addr ∧ Merged c s r (mergeSuccessor c s r) := by
  rcases mergeSuccessor_spec h hr hlen hend hmiss with heq | ⟨x, hx, hadm, hbegin, hnext, hlong, heq, hfits⟩
  · rw [heq]
    exact ⟨rfl, merged_self hr hlen hend⟩
  · rw [heq]
    have hxl := last_add_one hadm
    have hrl := last_of_aligned hr
    have hmem := hadm.2
    have haligned : (⟨r.addr, x.region.addr + x.region.len - r.addr⟩ : Region).Aligned c.bucketSize :=
      ⟨hr.1, Nat.dvd_sub (Nat.dvd_add hadm.1.1 hadm.1.2.1) hr.1,
        show 0 < x.region.addr + x.region.len - r.addr by omega⟩
    have hml := last_of_aligned haligned
    simp only at hml
    refine ⟨rfl, haligned, ⟨le_rfl, by omega⟩, hfits, ?_, fun n hin hout => ⟨x, hx, ?_, ?_, ?_, ?_⟩⟩
    all_goals simp only [HasByte] at *
    · omega
    · omega
    · exact ⟨hbegin.le, by omega⟩
    · intro hlt
      omega
    · intro _
      omega

theorem merged_predecessor (h : Valid c s) (hr : r.Aligned c.bucketSize)
    (hmiss : findPriv c s c.mynode r = none) (haddr : m.addr = r.addr) (hm : Merged c s r m) :
    Merged c s r (mergePredecessor c s m) := by
  rcases mergePredecessor_spec h hr hmiss haddr hm.fits with heq | ⟨y, hy, hadm, hbegin, hreach, hshort, heq, hfits⟩
  · rw [heq]
    exact hm
  · rw [heq]
    have hyl := last_add_one hadm
    have hrl := last_of_aligned hr
    have hml := last_of_aligned hm.aligned
    have hcovers := hm.covers.2
    have haligned : (⟨y.region.addr, m.len + (r.addr - y.region.addr)⟩ : Region).Aligned c.bucketSize :=
      ⟨hadm.1.1, Nat.dvd_add hm.aligned.2.1 (Nat.dvd_sub hr.1 hadm.1.1),
        show 0 < m.len + (r.addr - y.region.addr) by omega⟩
    have hnl := last_of_aligned haligned
    simp only at hnl
    have hsame : y.region.addr + (m.len + (r.addr - y.region.addr)) = m.addr + m.len := by omega
    refine ⟨haligned, ⟨hbegin.le, by omega⟩, hfits, hsame.trans_le hm.inside, fun n hin hout => ?_⟩
    by_cases hn : n < r.addr
    · refine ⟨y, hy, ⟨hin.1, by omega⟩, ⟨le_rfl, by omega⟩, fun _ => rfl, fun hle => ?_⟩
      omega
    · have hin' : HasByte m n := ⟨by omega, by
        have := hin.2
        simp only at this
        omega⟩
      obtain ⟨x, hx, hbyte, hcov, -, hfar⟩ := hm.added n hin' hout
      have hxm := hcov.1
      refine ⟨x, hx, hbyte, ⟨?_, ?_⟩, fun hlt => absurd hlt hn, fun hle => ?_⟩
      · show y.region.addr ≤ x.region.addr
        omega
      · exact hcov.2.trans (by omega)
      · have hfar' := hfar hle
        omega

/-- A region that was missed is merged with its neighbours as far as there is room. -/
theorem merge_regions (h : Reachable (Step c) initial s) (hr : r.Aligned c.bucketSize)
    (hlen : r.len ≤ c.maxRegionSize) (hend : r.addr + r.len ≤ 2 ^ 64)
    (hmiss : findPriv c s c.mynode r = none) : Merged c s r (mergeRegions c s r) := by
  have hs := valid_reachable h
  obtain ⟨haddr, hm⟩ := merged_successor hs hr hlen hend hmiss
  exact merged_predecessor hs hr hmiss haddr hm

/-- Pages of 4096 bytes. The second page is merged with the pinned first and third. -/
theorem merge_regions_three : ∃ (c : Config) (s : State),
    Merged c s ⟨8192, 4096⟩ (mergeRegions c s ⟨8192, 4096⟩) ∧
      mergeRegions c s ⟨8192, 4096⟩ = ⟨4096, 12288⟩ := by
  let c : Config :=
    { bucketShift := 12, remoteBucketsM := 1, remote_pos := Nat.one_pos, maxVictimBuckets := 1
      victim_pos := Nat.one_pos, maxRegionSize := 2 ^ 20, bucket_le := by decide
      keyhash1 := fun _ => 0, keyhash2 := fun _ => 0, mynode := 0, mayMerge := fun _ => true }
  have h₁ : Step c initial (.create 7) (createPriv c 7 0 ⟨4096, 4096⟩ 0 initial) :=
    .create rfl (by decide)
  have h₂ : Step c (createPriv c 7 0 ⟨4096, 4096⟩ 0 initial) (.create 8)
      (createPriv c 8 0 ⟨12288, 4096⟩ 0 (createPriv c 7 0 ⟨4096, 4096⟩ 0 initial)) :=
    .create (Option.isNone_iff_eq_none.1 (by decide)) (by decide)
  have hrun : Reachable (Step c) initial _ := ⟨_, .stepL h₁ (.stepL h₂ .refl)⟩
  exact ⟨c, _, merge_regions hrun (by decide) (by decide) (by decide) (by decide), by decide⟩

end Gasnet.Firehose.Chained
