import Mathlib.Data.Multiset.Basic
import Mathlib.Data.Multiset.AddSub
import Mathlib.Algebra.Order.BigOperators.Group.Multiset
import Mathlib.Algebra.Order.Ring.Nat
import Mathlib.Order.Interval.Finset.Nat
import Gasnet.Foundation.Align

/-! The probe for the largest segment that can be mapped: the binary search, the mapping at the
address it found, and the loop that fits one segment for each process of a supernode. -/
namespace Gasnet.Segment

/-- A range of the address space: `gasnet_seginfo_t`. -/
structure SegInfo where
  addr : Nat
  size : Nat
deriving DecidableEq

/-- The `NULL` range. -/
def SegInfo.nil : SegInfo := ⟨0, 0⟩

/-- The page sizes of a build: `GASNET_PAGESIZE`, `gasneti_mmap_pagesize()` and
`GASNETI_MMAP_GRANULARITY`. -/
structure Config where
  page : Nat
  mmapPage : Nat
  granularity : Nat
  page_pos : 0 < page
  mmapPage_pos : 0 < mmapPage
  page_dvd : page ∣ mmapPage

/-- The search granule. -/
def Config.granule (c : Config) : Nat := max c.granularity c.mmapPage

/-- The answer to a mapping request: `MAP_FAILED`, with whether `errno` is `ENOMEM`, or where. -/
inductive Answer
  | failed (enomem : Bool)
  | mapped (addr : Nat)

/-- No byte of `[addr, addr + size)` is mapped. -/
def Free (maps : Multiset SegInfo) (addr size : Nat) : Prop :=
  ∀ m ∈ maps, addr + size ≤ m.addr ∨ m.addr + m.size ≤ addr

/-- A page-aligned range of the address space. -/
structure Placed (page addr size : Nat) : Prop where
  ne_zero : addr ≠ 0
  aligned : page ∣ addr
  lt : addr + size < 2 ^ 64

/-- The system's answers, by the number of requests before, what is mapped and the request. An
address that is not page-aligned ends the program, so none is. A mapping at an address takes a free
range when it is asked for one. -/
structure Oracle (page : Nat) where
  mmap : Nat → Multiset SegInfo → Nat → Answer
  fixed : Nat → Multiset SegInfo → Nat → Nat → Answer
  mmap_placed : ∀ {n maps size a}, mmap n maps size = .mapped a → Placed page a size
  mmap_free : ∀ {n maps size a}, mmap n maps size = .mapped a → Free maps a size
  fixed_placed : ∀ {n maps addr size a}, fixed n maps addr size = .mapped a → Placed page a size
  fixed_free : ∀ {n maps addr size a}, fixed n maps addr size = .mapped a →
    Free maps addr size → Free maps a size

/-- What is mapped, the requests so far, and the second chances so far. -/
structure St where
  maps : Multiset SegInfo
  requests : Nat
  restarts : Nat

variable {c : Config} (o : Oracle c.page)

/-- The effect of an answer. -/
def answered (size : Nat) (s : St) : Answer → Answer × St
  | .failed e => (.failed e, { s with requests := s.requests + 1 })
  | .mapped a => (.mapped a, { s with requests := s.requests + 1, maps := ⟨a, size⟩ ::ₘ s.maps })

/-- `gasneti_do_mmap`. -/
def doMmap (size : Nat) (s : St) : Answer × St :=
  answered size s (o.mmap s.requests s.maps size)

/-- `gasneti_do_mmap_fixed`. -/
def doMmapFixed (addr size : Nat) (s : St) : Answer × St :=
  answered size s (o.fixed s.requests s.maps addr size)

/-- `gasneti_do_munmap`. -/
def doMunmap (si : SegInfo) (s : St) : St := { s with maps := s.maps.erase si }

/-- `gasneti_mmap_binary_segsrch`. -/
def binarySegsrch : Nat → Nat → Nat → St → Option (SegInfo × St)
  | 0, _, _, _ => none
  | fuel + 1, lowsz, highsz, s =>
    if highsz - lowsz ≤ c.granule then some (.nil, s)
    else
      let size := alignDown c.mmapPage (lowsz + (highsz - lowsz) / 2)
      match doMmap o size s with
      | (.failed _, s) => binarySegsrch fuel lowsz size s
      | (.mapped addr, s) => do
        let (temp, s) ← binarySegsrch fuel size highsz (doMunmap ⟨addr, size⟩ s)
        return (if temp.size ≠ 0 then temp else ⟨addr, size⟩, s)

/-- How the mapping at a fixed address ends. -/
inductive Remap
  | fail
  | failed (size : Nat)
  | mapped (addr size : Nat)

/-- The retries with one page less each. -/
def trim (addr : Nat) : Nat → Nat → St → Remap × St
  | 0, size, s => (.failed size, s)
  | i + 1, size, s =>
    if size ≤ c.mmapPage then (.fail, s)
    else
      match doMmapFixed o addr (size - c.mmapPage) s with
      | (.mapped ptr, s) => (.mapped ptr (size - c.mmapPage), s)
      | (.failed true, s) => trim addr i (size - c.mmapPage) s
      | (.failed false, s) => (.failed (size - c.mmapPage), s)

/-- The mapping that preserves the alignment. -/
def remap (addr size : Nat) (s : St) : Remap × St :=
  match doMmapFixed o addr size s with
  | (.mapped ptr, s) => (.mapped ptr size, s)
  | (.failed true, s) => trim o addr 4 size s
  | (.failed false, s) => (.failed size, s)

/-- The first half of a pass: a range, and whether it is mapped. -/
def probe (fuel maxsz : Nat) (s : St) : Option (SegInfo × Bool × St) :=
  match doMmap o maxsz s with
  | (.mapped addr, s) => some (⟨addr, maxsz⟩, true, s)
  | (.failed _, s) => (binarySegsrch o fuel 0 maxsz s).map fun r => (r.1, false, r.2)

/-- `_gasneti_mmap_segment_search_inner`, from `again`. -/
def segmentSearchInner (fuel : Nat) : Nat → Nat → Nat → St → Option (SegInfo × St)
  | 0, _, _, _ => none
  | chances + 1, prevsz, maxsz, s => do
    let (si, mmaped, s) ← probe o fuel maxsz s
    if si.addr = 0 then return (.nil, s)
    else if mmaped ∧ si.addr % c.page = 0 then return (si, s)
    else
      let s := if mmaped then doMunmap si s else s
      let begin_ := alignUp c.page si.addr
      let end_ := alignDown c.page (si.addr + si.size)
      if end_ - begin_ = 0 then return (.nil, s)
      else
        match remap o begin_ (end_ - begin_) s with
        | (.fail, s) => return (.nil, s)
        | (.failed size, s) =>
          if prevsz = 0 then
            segmentSearchInner fuel chances size size { s with restarts := s.restarts + 1 }
          else return (.nil, s)
        | (.mapped ptr size, s) => return (⟨ptr, size⟩, s)

/-- The first inner loop of `gasneti_segmentLimit`: the segments that `n` searches map, and
`done`. -/
def fitPass (fuel maxsz : Nat) : Nat → St → Option (List SegInfo × Bool × St)
  | 0, s => some ([], true, s)
  | n + 1, s => do
    let (si, s) ← segmentSearchInner o fuel fuel 0 maxsz s
    if si.size ≠ maxsz ∧ si.size < c.granularity then return ([si], false, s)
    else
      let (rest, done, s) ← fitPass fuel maxsz n s
      return (si :: rest, done && si.size == maxsz, s)

/-- The second inner loop. -/
def unmapAll (segs : List SegInfo) (s : St) : St :=
  segs.foldl (fun s si => if si.size ≠ 0 then doMunmap si s else s) s

/-- What the loop leaves: the size, the segments of its last pass, what was mapped at the end of
the searches of that pass, and the state. -/
structure Fit where
  maxsz : Nat
  segs : List SegInfo
  peak : Multiset SegInfo
  st : St

/-- The loop that looks for a size at which `nodes` segments fit. -/
def fitLoop (fuel nodes : Nat) : Nat → Nat → St → Option Fit
  | 0, _, _ => none
  | passes + 1, maxsz, s => do
    let (segs, done, t) ← fitPass o fuel maxsz nodes s
    let sum := (segs.map SegInfo.size).sum % 2 ^ 64
    let avg := alignDown c.mmapPage (sum / nodes)
    if !done && avg != 0 then fitLoop fuel nodes passes avg (unmapAll segs t)
    else return ⟨avg, segs, t.maps, unmapAll segs t⟩

end Gasnet.Segment

/-! A search for a segment ends with one mapped range or with nothing mapped, and the fit loop with
a size that was mapped for every process at once. -/
namespace Gasnet.Segment

variable {c : Config} {o : Oracle c.page} {s t : St} {si : SegInfo} {a : Answer}
  {addr size low high maxsz n fuel L : Nat}

/-- Beside `maps`, requests for sizes up to a limit succeed, at an address when it has room, and
others fail. -/
structure Oracle.Upto {page : Nat} (o : Oracle page) (maps : Multiset SegInfo) (L : Nat) :
    Prop where
  mmap : ∀ n size, (∃ a, o.mmap n maps size = .mapped a) ↔ size ≤ L
  fixed : ∀ n addr size, Placed page addr size → Free maps addr size →
    ((∃ a, o.fixed n maps addr size = .mapped a) ↔ size ≤ L)

/-- What a request does to the state. -/
def Effect (page : Nat) (size : Nat) (s t : St) : Answer → Prop
  | .failed _ => t.maps = s.maps ∧ t.restarts = s.restarts
  | .mapped a => t.maps = ⟨a, size⟩ ::ₘ s.maps ∧ t.restarts = s.restarts ∧ Placed page a size

theorem doMmap_effect (o : Oracle c.page) (h : doMmap o size s = (a, t)) :
    Effect c.page size s t a := by
  simp only [doMmap] at h
  cases hq : o.mmap s.requests s.maps size with
  | failed e =>
    rw [hq] at h
    cases h
    exact ⟨rfl, rfl⟩
  | mapped p =>
    rw [hq] at h
    cases h
    exact ⟨rfl, rfl, o.mmap_placed hq⟩

theorem doMmap_free (h : doMmap o size s = (.mapped addr, t)) : Free s.maps addr size := by
  simp only [doMmap] at h
  cases hq : o.mmap s.requests s.maps size with
  | failed e =>
    rw [hq] at h
    cases h
  | mapped p =>
    rw [hq] at h
    cases h
    exact o.mmap_free hq

theorem doMmap_upto (ho : o.Upto s.maps L) (h : doMmap o size s = (a, t)) :
    (∃ p, a = .mapped p) ↔ size ≤ L := by
  rw [← ho.mmap s.requests size]
  simp only [doMmap] at h
  cases hq : o.mmap s.requests s.maps size with
  | failed e =>
    rw [hq] at h
    cases h
    simp
  | mapped p =>
    rw [hq] at h
    cases h
    simp

theorem doMmapFixed_effect {p : Nat} (o : Oracle c.page) (h : doMmapFixed o addr size s = (a, t)) :
    Effect c.page size s t a ∧
      (a = .mapped p → Free s.maps addr size → Free s.maps p size) := by
  simp only [doMmapFixed] at h
  cases hq : o.fixed s.requests s.maps addr size with
  | failed e =>
    rw [hq] at h
    cases h
    exact ⟨⟨rfl, rfl⟩, by simp⟩
  | mapped q =>
    rw [hq] at h
    cases h
    refine ⟨⟨rfl, rfl, o.fixed_placed hq⟩, fun he => ?_⟩
    cases he
    exact o.fixed_free hq

theorem doMmapFixed_upto (ho : o.Upto s.maps L) (hp : Placed c.page addr size)
    (hf : Free s.maps addr size) (hsize : size ≤ L) :
    ∃ p t, doMmapFixed o addr size s = (.mapped p, t) := by
  obtain ⟨p, hp⟩ := (ho.fixed s.requests addr size hp hf).2 hsize
  exact ⟨p, (answered size s (.mapped p)).2, by rw [doMmapFixed, hp]; rfl⟩

theorem doMunmap_maps {maps : Multiset SegInfo} (h : s.maps = si ::ₘ maps) :
    (doMunmap si s).maps = maps := by
  simp only [doMunmap, h, Multiset.erase_cons_head]

/-- The middle of a span wider than a granule is a page boundary inside it. -/
theorem midpoint (hl : c.mmapPage ∣ low) (hh : c.mmapPage ∣ high)
    (hw : ¬ high - low ≤ c.granule) :
    low < alignDown c.mmapPage (low + (high - low) / 2) ∧
      alignDown c.mmapPage (low + (high - low) / 2) < high := by
  have hpos := c.mmapPage_pos
  have hpage : c.mmapPage ≤ c.granule := le_max_right _ _
  obtain ⟨i, rfl⟩ := hl
  obtain ⟨j, rfl⟩ := hh
  have htwo : c.mmapPage * i + 2 * c.mmapPage ≤ c.mmapPage * j := by
    have hij : i + 2 ≤ j := by
      by_contra hlt
      have hle : c.mmapPage * j ≤ c.mmapPage * (i + 1) := Nat.mul_le_mul_left _ (by omega)
      rw [Nat.mul_add, Nat.mul_one] at hle
      omega
    calc c.mmapPage * i + 2 * c.mmapPage = c.mmapPage * (i + 2) := by ring
      _ ≤ c.mmapPage * j := Nat.mul_le_mul_left _ hij
  constructor
  · have hdvd : c.mmapPage ∣ c.mmapPage * i + c.mmapPage :=
      Nat.dvd_add (Nat.dvd_mul_right _ _) (Nat.dvd_refl _)
    have hle := le_alignDown (a := c.mmapPage * i + (c.mmapPage * j - c.mmapPage * i) / 2) hdvd
      (by omega)
    omega
  · have hle := alignDown_le (g := c.mmapPage)
      (a := c.mmapPage * i + (c.mmapPage * j - c.mmapPage * i) / 2)
    omega

/-- A page-aligned range that was free. -/
structure Found (c : Config) (maps : Multiset SegInfo) (si : SegInfo) : Prop where
  placed : Placed c.page si.addr si.size
  free : Free maps si.addr si.size
  dvd : c.mmapPage ∣ si.size
  pos : 0 < si.size

theorem binarySegsrch_spec (hl : c.mmapPage ∣ low) (hh : c.mmapPage ∣ high) (hlt : low ≤ high)
    (hf : high - low < fuel) : ∃ si t, binarySegsrch o fuel low high s = some (si, t) ∧
      t.maps = s.maps ∧ t.restarts = s.restarts ∧
      (si = .nil ∨ Found c s.maps si ∧ low < si.size ∧ si.size < high) := by
  induction fuel generalizing low high s with
  | zero => omega
  | succ fuel ih =>
    rw [binarySegsrch]
    by_cases hw : high - low ≤ c.granule
    · rw [if_pos hw]
      exact ⟨_, _, rfl, rfl, rfl, .inl rfl⟩
    · rw [if_neg hw]
      obtain ⟨hlow, hhigh⟩ := midpoint hl hh hw
      have hmid : c.mmapPage ∣ alignDown c.mmapPage (low + (high - low) / 2) := alignDown_dvd
      simp only []
      generalize alignDown c.mmapPage (low + (high - low) / 2) = mid at *
      rcases hq : doMmap o mid s with ⟨_ | addr, u⟩
      · obtain ⟨hm, hr⟩ := doMmap_effect o hq
        obtain ⟨si, t, hrun, hmt, hrt, hsi⟩ := ih (s := u) hl hmid hlow.le (by omega)
        refine ⟨si, t, hrun, hmt.trans hm, hrt.trans hr, ?_⟩
        obtain hnil | ⟨hfound, h₁, h₂⟩ := hsi
        · exact .inl hnil
        · exact .inr ⟨hm ▸ hfound, h₁, h₂.trans hhigh⟩
      · obtain ⟨hm, hr, hplaced⟩ := doMmap_effect o hq
        have hfree := doMmap_free hq
        have hun := doMunmap_maps hm
        obtain ⟨si, t, hrun, hmt, hrt, hsi⟩ :=
          ih (s := doMunmap ⟨addr, mid⟩ u) hmid hh hhigh.le (by omega)
        refine ⟨if si.size ≠ 0 then si else ⟨addr, mid⟩, t, ?_, hmt.trans hun, hrt.trans hr, ?_⟩
        · simp [hrun]
        · right
          obtain rfl | ⟨hfound, h₁, h₂⟩ := hsi
          · rw [if_neg (by simp [SegInfo.nil])]
            exact ⟨⟨hplaced, hfree, hmid, by simp only []; omega⟩, hlow, hhigh⟩
          · rw [if_pos (by omega)]
            exact ⟨hun ▸ hfound, by omega, h₂⟩

/-- Against a limit the binary search ends within a granule of it. -/
theorem binarySegsrch_limit (ho : o.Upto s.maps L) (hl : c.mmapPage ∣ low) (hh : c.mmapPage ∣ high)
    (hlow : low ≤ L) (hhigh : L < high) (hf : high - low < fuel)
    (h : binarySegsrch o fuel low high s = some (si, t)) :
    si.size ≤ L ∧ L < max low si.size + c.granule := by
  induction fuel generalizing low high s si t with
  | zero => omega
  | succ fuel ih =>
    rw [binarySegsrch] at h
    by_cases hw : high - low ≤ c.granule
    · rw [if_pos hw] at h
      cases h
      simp only [SegInfo.nil]
      omega
    · rw [if_neg hw] at h
      obtain ⟨hlm, hmh⟩ := midpoint hl hh hw
      have hmid : c.mmapPage ∣ alignDown c.mmapPage (low + (high - low) / 2) := alignDown_dvd
      simp only [] at h
      generalize alignDown c.mmapPage (low + (high - low) / 2) = mid at *
      have hupto := fun a t h => @doMmap_upto c o s t a mid L ho h
      rcases hq : doMmap o mid s with ⟨_ | addr, u⟩
      · rw [hq] at h
        have hgt : ¬ mid ≤ L := by
          rw [← hupto _ _ hq]
          simp
        have hm : u.maps = s.maps := (doMmap_effect o hq).1
        exact ih (hm ▸ ho) hl hmid hlow (by omega) (by omega) h
      · rw [hq] at h
        have hle : mid ≤ L := (hupto _ _ hq).1 ⟨_, rfl⟩
        obtain ⟨temp, v, hrun, -, -, htemp⟩ :=
          @binarySegsrch_spec c o (doMunmap ⟨addr, mid⟩ u) mid high fuel hmid hh hmh.le (by omega)
        have hm : (doMunmap ⟨addr, mid⟩ u).maps = s.maps := doMunmap_maps (doMmap_effect o hq).1
        obtain ⟨h₁, h₂⟩ := ih (hm ▸ ho) hmid hh hle hhigh (by omega) hrun
        simp only [hrun, Option.bind_eq_bind, Option.bind_some, Option.pure_def, Option.some_inj,
          Prod.mk.injEq] at h
        obtain ⟨rfl, rfl⟩ := h
        obtain rfl | ⟨-, hgt, -⟩ := htemp
        · rw [if_neg (by simp [SegInfo.nil])]
          simp only [SegInfo.nil] at h₁ h₂ ⊢
          omega
        · rw [if_pos (by omega)]
          omega

/-- What a search may return: nothing, with nothing new mapped, or the one new mapping. -/
def Returns (c : Config) (maxsz : Nat) (si : SegInfo) (s t : St) : Prop :=
  (si = .nil ∧ t.maps = s.maps) ∨ (Found c s.maps si ∧ si.size ≤ maxsz ∧ t.maps = si ::ₘ s.maps)

/-- What the mapping at a fixed address leaves. -/
def Remapped (c : Config) (size : Nat) (s t : St) : Remap → Prop
  | .fail => t.maps = s.maps
  | .failed n => t.maps = s.maps ∧ c.mmapPage ∣ n ∧ 0 < n ∧ n ≤ size
  | .mapped p n => t.maps = ⟨p, n⟩ ::ₘ s.maps ∧ Found c s.maps ⟨p, n⟩ ∧ n ≤ size

theorem trim_spec {i : Nat} (hfree : Free s.maps addr size) (hdvd : c.mmapPage ∣ size)
    (hpos : 0 < size) :
    Remapped c size s (trim o addr i size s).2 (trim o addr i size s).1 ∧
      (trim o addr i size s).2.restarts = s.restarts := by
  induction i generalizing size s with
  | zero => exact ⟨⟨rfl, hdvd, hpos, le_rfl⟩, rfl⟩
  | succ i ih =>
    rw [trim]
    by_cases hs : size ≤ c.mmapPage
    · rw [if_pos hs]
      exact ⟨rfl, rfl⟩
    · rw [if_neg hs]
      have hdvd' : c.mmapPage ∣ size - c.mmapPage := Nat.dvd_sub hdvd (Nat.dvd_refl _)
      have hpos' : 0 < size - c.mmapPage := by omega
      have hfree' : Free s.maps addr (size - c.mmapPage) := by
        intro m hm
        obtain h | h := hfree m hm
        · exact .inl (by omega)
        · exact .inr h
      rcases hq : doMmapFixed o addr (size - c.mmapPage) s with ⟨(_ | _) | p, t⟩
      · obtain ⟨⟨hm, hr⟩, -⟩ := doMmapFixed_effect (p := 0) o hq
        exact ⟨⟨hm, hdvd', hpos', by omega⟩, hr⟩
      · obtain ⟨⟨hm, hr⟩, -⟩ := doMmapFixed_effect (p := 0) o hq
        obtain ⟨h, hrest⟩ := ih (s := t) (hm ▸ hfree') hdvd' hpos'
        refine ⟨?_, hrest.trans hr⟩
        simp only []
        generalize trim o addr i (size - c.mmapPage) t = r at *
        obtain ⟨_ | n | ⟨p, n⟩, u⟩ := r
        · exact Eq.trans h hm
        · obtain ⟨h₁, h₂, h₃, h₄⟩ := h
          exact ⟨h₁.trans hm, h₂, h₃, by omega⟩
        · obtain ⟨h₁, h₂, h₃⟩ := h
          rw [hm] at h₁ h₂
          exact ⟨h₁, h₂, by omega⟩
      · obtain ⟨⟨hm, hr, hplaced⟩, hf⟩ := doMmapFixed_effect (p := p) o hq
        exact ⟨⟨hm, ⟨hplaced, hf rfl hfree', hdvd', hpos'⟩, by omega⟩, hr⟩

theorem remap_spec (hfree : Free s.maps addr size) (hdvd : c.mmapPage ∣ size) (hpos : 0 < size) :
    Remapped c size s (remap o addr size s).2 (remap o addr size s).1 ∧
      (remap o addr size s).2.restarts = s.restarts := by
  rw [remap]
  rcases hq : doMmapFixed o addr size s with ⟨(_ | _) | p, t⟩
  · obtain ⟨⟨hm, hr⟩, -⟩ := doMmapFixed_effect (p := 0) o hq
    exact ⟨⟨hm, hdvd, hpos, le_rfl⟩, hr⟩
  · obtain ⟨⟨hm, hr⟩, -⟩ := doMmapFixed_effect (p := 0) o hq
    obtain ⟨h, hrest⟩ := trim_spec (o := o) (s := t) (i := 4) (hm ▸ hfree) hdvd hpos
    refine ⟨?_, hrest.trans hr⟩
    simp only []
    generalize trim o addr 4 size t = r at *
    obtain ⟨_ | n | ⟨p, n⟩, u⟩ := r
    · exact Eq.trans h hm
    · exact ⟨h.1.trans hm, h.2⟩
    · obtain ⟨h₁, h₂, h₃⟩ := h
      rw [hm] at h₁ h₂
      exact ⟨h₁, h₂, h₃⟩
  · obtain ⟨⟨hm, hr, hplaced⟩, hf⟩ := doMmapFixed_effect (p := p) o hq
    exact ⟨⟨hm, ⟨hplaced, hf rfl hfree, hdvd, hpos⟩, le_rfl⟩, hr⟩

theorem remap_upto (ho : o.Upto s.maps L) (hp : Placed c.page addr size)
    (hf : Free s.maps addr size) (hsize : size ≤ L) :
    ∃ p t, remap o addr size s = (.mapped p size, t) := by
  obtain ⟨p, t, h⟩ := doMmapFixed_upto ho hp hf hsize
  exact ⟨p, t, by rw [remap, h]⟩

/-- The first half of a pass. -/
theorem probe_spec (hdvd : c.mmapPage ∣ maxsz) (hpos : 0 < maxsz) (hf : maxsz < fuel) :
    ∃ si mm t, probe o fuel maxsz s = some (si, mm, t) ∧ t.restarts = s.restarts ∧
      ((si = .nil ∧ t.maps = s.maps) ∨
        (Found c s.maps si ∧ si.size ≤ maxsz ∧
          t.maps = if mm then si ::ₘ s.maps else s.maps)) ∧
      ∀ L, o.Upto s.maps L → si.size ≤ L ∧ min L maxsz < si.size + c.granule := by
  have hgran : 0 < c.granule := lt_of_lt_of_le c.mmapPage_pos (le_max_right _ _)
  have hupto := fun a t L ho h => @doMmap_upto c o s t a maxsz L ho h
  rw [probe]
  rcases hq : doMmap o maxsz s with ⟨_ | addr, u⟩
  · obtain ⟨hm, hr⟩ := doMmap_effect o hq
    obtain ⟨si, t, hrun, hmt, hrt, hsi⟩ :=
      @binarySegsrch_spec c o u 0 maxsz fuel (Nat.dvd_zero _) hdvd (Nat.zero_le _) (by omega)
    refine ⟨si, false, t, by simp [hrun], hrt.trans hr, ?_, ?_⟩
    · obtain hnil | ⟨hfound, -, hlt⟩ := hsi
      · exact .inl ⟨hnil, hmt.trans hm⟩
      · exact .inr ⟨hm ▸ hfound, hlt.le, hmt.trans hm⟩
    · intro L ho
      have hgt : ¬ maxsz ≤ L := by
        rw [← hupto _ _ L ho hq]
        simp
      have := binarySegsrch_limit (hm ▸ ho) (Nat.dvd_zero _) hdvd (Nat.zero_le L) (by omega)
        (by omega) hrun
      omega
  · obtain ⟨hm, hr, hplaced⟩ := doMmap_effect o hq
    refine ⟨⟨addr, maxsz⟩, true, u, rfl, hr, .inr ⟨?_, le_rfl, hm⟩, ?_⟩
    · exact ⟨hplaced, doMmap_free hq, hdvd, hpos⟩
    · intro L ho
      have := (hupto _ _ L ho hq).1 ⟨_, rfl⟩
      simp only []
      omega

/-- What is owed to a limit that all requests obey. -/
def Near (o : Oracle c.page) (maps : Multiset SegInfo) (maxsz : Nat) (si : SegInfo) : Prop :=
  ∀ L, o.Upto maps L → si.size ≤ min L maxsz ∧ min L maxsz < si.size + c.granule

/-- One pass: it returns, or it is the first and takes the second chance. -/
theorem segmentSearchInner_pass {chances prevsz : Nat} (hdvd : c.mmapPage ∣ maxsz)
    (hpos : 0 < maxsz) (hf : maxsz < fuel) :
    (∃ si t, segmentSearchInner o fuel (chances + 1) prevsz maxsz s = some (si, t) ∧
      t.restarts = s.restarts ∧ Returns c maxsz si s t ∧ Near o s.maps maxsz si) ∨
    (prevsz = 0 ∧ (∀ L, ¬ o.Upto s.maps L) ∧ ∃ n t, c.mmapPage ∣ n ∧ 0 < n ∧ n ≤ maxsz ∧
      t.maps = s.maps ∧ t.restarts = s.restarts + 1 ∧
      segmentSearchInner o fuel (chances + 1) prevsz maxsz s =
        segmentSearchInner o fuel chances n n t) := by
  obtain ⟨si, mm, u, hprobe, hr, hsi, hlim⟩ := @probe_spec c o s maxsz fuel hdvd hpos hf
  have hpage : c.page ∣ c.mmapPage := c.page_dvd
  rw [segmentSearchInner, hprobe]
  simp only [Option.bind_eq_bind, Option.bind_some, Option.pure_def]
  obtain ⟨rfl, hm⟩ | ⟨hfound, hle, hm⟩ := hsi
  · -- the search found no size
    left
    refine ⟨.nil, u, if_pos rfl, hr, .inl ⟨rfl, hm⟩, fun L ho => ?_⟩
    obtain ⟨h₁, h₂⟩ := hlim L ho
    exact ⟨Nat.zero_le _, h₂⟩
  have hnear : Near o s.maps maxsz si := by
    intro L ho
    obtain ⟨h₁, h₂⟩ := hlim L ho
    exact ⟨le_min h₁ hle, h₂⟩
  rw [if_neg hfound.placed.ne_zero]
  cases mm with
  | true =>
    left
    have hal : si.addr % c.page = 0 := Nat.mod_eq_zero_of_dvd hfound.placed.aligned
    exact ⟨si, u, if_pos ⟨rfl, hal⟩, hr, .inr ⟨hfound, hle, hm⟩, hnear⟩
  | false =>
    have hbegin : alignUp c.page si.addr = si.addr := alignUp_eq c.page_pos hfound.placed.aligned
    have hend : alignDown c.page (si.addr + si.size) = si.addr + si.size :=
      alignDown_eq (Nat.dvd_add hfound.placed.aligned (hpage.trans hfound.dvd))
    have hpos := hfound.pos
    have hsub : si.addr + si.size - si.addr = si.size := by omega
    have hcond : ¬ (false = true ∧ si.addr % c.page = 0) := by simp
    rw [if_neg hcond, hbegin, hend, hsub, if_neg hpos.ne']
    simp only [Bool.false_eq_true, if_false] at hm ⊢
    obtain ⟨hremap, hrest⟩ :=
      @remap_spec c o u si.addr si.size (hm ▸ hfound.free) hfound.dvd hfound.pos
    have hupto : ∀ L, o.Upto s.maps L →
        ∃ p t, remap o si.addr si.size u = (.mapped p si.size, t) :=
      fun L ho => remap_upto (hm ▸ ho) hfound.placed (hm ▸ hfound.free) (hlim L ho).1
    generalize remap o si.addr si.size u = r at *
    obtain ⟨_ | n | ⟨p, n⟩, t⟩ := r
    · left
      refine ⟨.nil, t, rfl, hrest.trans hr, .inl ⟨rfl, Eq.trans hremap hm⟩, fun L ho => ?_⟩
      obtain ⟨p, v, h⟩ := hupto L ho
      cases h
    · obtain ⟨h₁, h₂, h₃, h₄⟩ := hremap
      have hno : ∀ L, ¬ o.Upto s.maps L := by
        intro L ho
        obtain ⟨p, v, h⟩ := hupto L ho
        cases h
      by_cases hz : prevsz = 0
      · right
        refine ⟨hz, hno, n, { t with restarts := t.restarts + 1 }, h₂, h₃, h₄.trans hle,
          h₁.trans hm, congrArg (· + 1) (hrest.trans hr), ?_⟩
        simp only [if_pos hz]
      · left
        refine ⟨.nil, t, by simp only [if_neg hz], hrest.trans hr, .inl ⟨rfl, h₁.trans hm⟩, ?_⟩
        exact fun L ho => absurd ho (hno L)
    · left
      obtain ⟨h₁, h₂, h₃⟩ := hremap
      rw [hm] at h₁ h₂
      refine ⟨⟨p, n⟩, t, rfl, hrest.trans hr, .inr ⟨h₂, h₃.trans hle, h₁⟩, fun L ho => ?_⟩
      obtain ⟨q, v, h⟩ := hupto L ho
      cases h
      exact hnear L ho

/-- The search ends after at most one second chance. -/
theorem segmentSearchInner_spec {chances : Nat} (hdvd : c.mmapPage ∣ maxsz) (hpos : 0 < maxsz)
    (hf : maxsz < fuel) (hc : 2 ≤ chances) :
    ∃ si t, segmentSearchInner o fuel chances 0 maxsz s = some (si, t) ∧
      t.restarts ≤ s.restarts + 1 ∧ Returns c maxsz si s t ∧ Near o s.maps maxsz si := by
  obtain ⟨chances, rfl⟩ : ∃ k, chances = k + 1 + 1 := ⟨chances - 2, by omega⟩
  obtain ⟨si, t, hrun, hr, hret, hnear⟩ | ⟨-, hno, n, u, hn, hpn, hle, hm, hr, heq⟩ :=
    @segmentSearchInner_pass c o s maxsz fuel (chances + 1) 0 hdvd hpos hf
  · exact ⟨si, t, hrun, by omega, hret, hnear⟩
  · rw [heq]
    obtain ⟨si, t, hrun, hrt, hret, -⟩ | ⟨hz, -⟩ :=
      @segmentSearchInner_pass c o u n fuel chances n hn hpn (by omega)
    · refine ⟨si, t, hrun, by omega, ?_, fun L ho => absurd ho (hno L)⟩
      obtain ⟨rfl, hmt⟩ | ⟨hfound, hs, hmt⟩ := hret
      · exact .inl ⟨rfl, hmt.trans hm⟩
      · rw [hm] at hfound hmt
        exact .inr ⟨hfound, hs.trans hle, hmt⟩
    · omega

/-- Two ranges that share no byte. -/
def Apart (a b : SegInfo) : Prop := a.addr + a.size ≤ b.addr ∨ b.addr + b.size ≤ a.addr

/-- The ranges of a pass that are mapped. -/
def mappedOf (segs : List SegInfo) : Multiset SegInfo := ↑(segs.filter fun si => si.size ≠ 0)

theorem mappedOf_cons_nil {segs : List SegInfo} (h : si.size = 0) :
    mappedOf (si :: segs) = mappedOf segs := by
  simp [mappedOf, h]

theorem mappedOf_cons {segs : List SegInfo} (h : si.size ≠ 0) :
    mappedOf (si :: segs) = si ::ₘ mappedOf segs := by
  simp [mappedOf, h]

/-- What a pass of the fit loop leaves. -/
structure Passed (c : Config) (maxsz n : Nat) (s : St) (segs : List SegInfo) (done : Bool)
    (t : St) : Prop where
  maps : t.maps = mappedOf segs + s.maps
  found : ∀ si ∈ segs, si.size ≤ maxsz ∧ (si.size ≠ 0 → Found c s.maps si)
  length : segs.length ≤ n
  all : done = true → segs.length = n ∧ ∀ si ∈ segs, si.size = maxsz
  short : done = false → ∃ si ∈ segs, si.size < maxsz
  apart : segs.Pairwise fun a b => a.size ≠ 0 → b.size ≠ 0 → Apart a b

theorem fitPass_spec (hdvd : c.mmapPage ∣ maxsz) (hpos : 0 < maxsz) (hf : maxsz < fuel)
    (hfuel : 2 ≤ fuel) : ∃ segs done t, fitPass o fuel maxsz n s = some (segs, done, t) ∧
      Passed c maxsz n s segs done t := by
  induction n generalizing s with
  | zero =>
    refine ⟨[], true, s, rfl, ?_, by simp, le_rfl, by simp, by simp, .nil⟩
    simp [mappedOf]
  | succ n ih =>
    obtain ⟨si, u, hrun, -, hret, -⟩ := @segmentSearchInner_spec c o s maxsz fuel fuel hdvd hpos hf hfuel
    have hmaps : u.maps = mappedOf [si] + s.maps := by
      obtain ⟨rfl, hm⟩ | ⟨hfound, -, hm⟩ := hret
      · simpa [mappedOf, SegInfo.nil] using hm
      · simpa [mappedOf, hfound.pos.ne'] using hm
    have hsi : si.size ≤ maxsz ∧ (si.size ≠ 0 → Found c s.maps si) := by
      obtain ⟨rfl, -⟩ | ⟨hfound, hle, -⟩ := hret
      · exact ⟨Nat.zero_le _, fun h => absurd rfl h⟩
      · exact ⟨hle, fun _ => hfound⟩
    rw [fitPass, hrun]
    simp only [Option.bind_eq_bind, Option.bind_some, Option.pure_def]
    by_cases hbreak : si.size ≠ maxsz ∧ si.size < c.granularity
    · rw [if_pos hbreak]
      refine ⟨[si], false, u, rfl, hmaps, by simpa using hsi, by simp, by simp, ?_, by simp⟩
      exact fun _ => ⟨si, List.mem_singleton_self si, lt_of_le_of_ne hsi.1 hbreak.1⟩
    · rw [if_neg hbreak]
      obtain ⟨segs, done, t, hrest, hpass⟩ := ih (s := u)
      refine ⟨si :: segs, done && si.size == maxsz, t, by simp [hrest], ?_, ?_, ?_, ?_, ?_, ?_⟩
      · have happ : mappedOf (si :: segs) = mappedOf [si] + mappedOf segs := by
          simp only [mappedOf, Multiset.coe_add, ← List.filter_append, List.singleton_append]
        rw [hpass.maps, hmaps, happ, add_left_comm, add_assoc]
      · intro r hr
        obtain rfl | hr := List.mem_cons.1 hr
        · exact hsi
        · obtain ⟨hle, hfound⟩ := hpass.found r hr
          refine ⟨hle, fun hz => ⟨(hfound hz).placed, ?_, (hfound hz).dvd, (hfound hz).pos⟩⟩
          intro m hm
          exact (hfound hz).free m (hmaps ▸ Multiset.mem_add.2 (.inr hm))
      · simpa using hpass.length
      · intro hdone
        simp only [Bool.and_eq_true, beq_iff_eq] at hdone
        obtain ⟨hlen, hall⟩ := hpass.all hdone.1
        refine ⟨by simpa using hlen, ?_⟩
        intro r hr
        obtain rfl | hr := List.mem_cons.1 hr
        · exact hdone.2
        · exact hall r hr
      · intro hdone
        by_cases hs : si.size = maxsz
        · have : done = false := by simpa [hs] using hdone
          obtain ⟨r, hr, hlt⟩ := hpass.short this
          exact ⟨r, List.mem_cons_of_mem si hr, hlt⟩
        · exact ⟨si, List.mem_cons_self, lt_of_le_of_ne hsi.1 hs⟩
      · refine List.pairwise_cons.2 ⟨fun r hr hz hzr => ?_, hpass.apart⟩
        have hmem : si ∈ u.maps := by
          rw [hmaps, mappedOf_cons hz]
          exact Multiset.mem_add.2 (.inl (Multiset.mem_cons_self _ _))
        obtain h | h := ((hpass.found r hr).2 hzr).free si hmem
        · exact .inr h
        · exact .inl h

theorem unmapAll_maps {segs : List SegInfo} {maps : Multiset SegInfo}
    (h : t.maps = mappedOf segs + maps) : (unmapAll segs t).maps = maps := by
  induction segs generalizing t with
  | nil => simpa [mappedOf, unmapAll] using h
  | cons si segs ih =>
    rw [unmapAll, List.foldl_cons]
    by_cases hz : si.size = 0
    · rw [if_neg (by simpa using hz)]
      exact ih (by rw [h, mappedOf_cons_nil hz])
    · rw [if_pos hz]
      apply ih
      apply doMunmap_maps
      rw [h, mappedOf_cons hz, Multiset.cons_add]

/-- Ranges that share no byte fill no more than the address space. -/
theorem sum_sizes_lt {segs : List SegInfo} (hp : ∀ si ∈ segs, Placed c.page si.addr si.size)
    (ha : segs.Pairwise Apart) : (segs.map SegInfo.size).sum < 2 ^ 64 := by
  obtain ⟨S, hcard, hmem⟩ : ∃ S : Finset ℕ, S.card = (segs.map SegInfo.size).sum ∧
      ∀ x, x ∈ S ↔ ∃ si ∈ segs, si.addr ≤ x ∧ x < si.addr + si.size := by
    induction segs with
    | nil => exact ⟨∅, rfl, by simp⟩
    | cons si segs ih =>
      rw [List.pairwise_cons] at ha
      obtain ⟨S, hcard, hmem⟩ := ih (fun r hr => hp r (List.mem_cons_of_mem si hr)) ha.2
      refine ⟨Finset.Ico si.addr (si.addr + si.size) ∪ S, ?_, ?_⟩
      · rw [Finset.card_union_of_disjoint, hcard, Nat.card_Ico, List.map_cons, List.sum_cons,
          Nat.add_sub_cancel_left]
        rw [Finset.disjoint_left]
        intro x hx hxS
        obtain ⟨r, hr, h₁, h₂⟩ := (hmem x).1 hxS
        have hIco := Finset.mem_Ico.1 hx
        obtain h | h := ha.1 r hr
        · omega
        · omega
      · intro x
        simp [hmem]
  have hsub : S ⊆ Finset.Ico 1 (2 ^ 64) := by
    intro x hx
    obtain ⟨si, hsi, h₁, h₂⟩ := (hmem x).1 hx
    have hplaced := hp si hsi
    have hz := hplaced.ne_zero
    have hlt := hplaced.lt
    exact Finset.mem_Ico.2 ⟨by omega, by omega⟩
  have hle := Finset.card_le_card hsub
  rw [hcard, Nat.card_Ico] at hle
  omega

/-- What the fit loop returns: a size that every process had mapped at once, or zero. -/
structure Fits (c : Config) (nodes maxsz : Nat) (s : St) (r : Fit) : Prop where
  maps : r.st.maps = s.maps
  le : r.maxsz ≤ maxsz
  fits : r.maxsz ≠ 0 → r.segs.length = nodes ∧
    (∀ si ∈ r.segs, si.size = r.maxsz ∧ Found c s.maps si) ∧ r.segs.Pairwise Apart ∧
    r.peak = ↑r.segs + s.maps

theorem sum_sizes_le {segs : List SegInfo} (h : ∀ si ∈ segs, si.size ≤ maxsz) :
    (segs.map SegInfo.size).sum ≤ segs.length * maxsz := by
  induction segs with
  | nil => simp
  | cons si segs ih =>
    have h₁ := h si List.mem_cons_self
    have h₂ := ih fun r hr => h r (List.mem_cons_of_mem si hr)
    simp only [List.map_cons, List.sum_cons, List.length_cons, Nat.add_mul, Nat.one_mul]
    omega

theorem sum_sizes_short {segs : List SegInfo} (h : ∀ si ∈ segs, si.size ≤ maxsz)
    (hs : ∃ si ∈ segs, si.size < maxsz) :
    (segs.map SegInfo.size).sum < segs.length * maxsz := by
  induction segs with
  | nil => simp at hs
  | cons si segs ih =>
    have h₁ := h si List.mem_cons_self
    have hrest := fun r hr => h r (List.mem_cons_of_mem si hr)
    have h₂ := sum_sizes_le hrest
    simp only [List.map_cons, List.sum_cons, List.length_cons, Nat.add_mul, Nat.one_mul]
    obtain ⟨r, hr, hlt⟩ := hs
    obtain rfl | hr := List.mem_cons.1 hr
    · omega
    · have := ih hrest ⟨r, hr, hlt⟩
      omega

/-- A pass that ran over every process leaves its size, and another a smaller one. -/
theorem average_spec {nodes : Nat} {segs : List SegInfo} {done : Bool} (hnodes : 0 < nodes)
    (hdvd : c.mmapPage ∣ maxsz) (hpos : 0 < maxsz) (h : Passed c maxsz nodes s segs done t) :
    (done = true → segs.Pairwise Apart ∧
      alignDown c.mmapPage ((segs.map SegInfo.size).sum % 2 ^ 64 / nodes) = maxsz) ∧
    (done = false →
      alignDown c.mmapPage ((segs.map SegInfo.size).sum % 2 ^ 64 / nodes) < maxsz) := by
  constructor
  · intro hdone
    obtain ⟨hlen, hall⟩ := h.all hdone
    have hz : ∀ si ∈ segs, si.size ≠ 0 := by
      intro si hsi
      rw [hall si hsi]
      exact hpos.ne'
    have hapart : segs.Pairwise Apart :=
      h.apart.imp_of_mem fun ha hb hab => hab (hz _ ha) (hz _ hb)
    have hlt := sum_sizes_lt (fun si hsi => ((h.found si hsi).2 (hz si hsi)).placed) hapart
    have hsum : (segs.map SegInfo.size).sum = nodes * maxsz := by
      rw [← hlen, List.map_congr_left hall]
      simp
    refine ⟨hapart, ?_⟩
    rw [Nat.mod_eq_of_lt hlt, hsum, Nat.mul_div_cancel_left _ hnodes, alignDown_eq hdvd]
  · intro hdone
    have hlt := sum_sizes_short (fun si hsi => (h.found si hsi).1) (h.short hdone)
    have hle : segs.length * maxsz ≤ nodes * maxsz := Nat.mul_le_mul_right _ h.length
    have hmod := Nat.mod_le (segs.map SegInfo.size).sum (2 ^ 64)
    calc alignDown c.mmapPage ((segs.map SegInfo.size).sum % 2 ^ 64 / nodes)
        ≤ (segs.map SegInfo.size).sum % 2 ^ 64 / nodes := alignDown_le
      _ < maxsz := Nat.div_lt_of_lt_mul (by omega)

theorem fitLoop_spec {nodes passes : Nat} (hnodes : 0 < nodes) (hdvd : c.mmapPage ∣ maxsz)
    (hpos : 0 < maxsz) (hf : maxsz < fuel) (hfuel : 2 ≤ fuel) (hp : maxsz < passes) :
    ∃ r, fitLoop o fuel nodes passes maxsz s = some r ∧ Fits c nodes maxsz s r := by
  induction passes generalizing maxsz s with
  | zero => omega
  | succ passes ih =>
    obtain ⟨segs, done, t, hrun, hpass⟩ := @fitPass_spec c o s maxsz nodes fuel hdvd hpos hf hfuel
    obtain ⟨hall, hshort⟩ := average_spec hnodes hdvd hpos hpass
    have hun : (unmapAll segs t).maps = s.maps := unmapAll_maps hpass.maps
    have havg : c.mmapPage ∣
      alignDown c.mmapPage ((segs.map SegInfo.size).sum % 2 ^ 64 / nodes) := alignDown_dvd
    rw [fitLoop, hrun]
    simp only [Option.bind_eq_bind, Option.bind_some, Option.pure_def]
    generalize alignDown c.mmapPage ((segs.map SegInfo.size).sum % 2 ^ 64 / nodes) = avg at *
    cases done with
    | true =>
      obtain ⟨hapart, rfl⟩ := hall rfl
      obtain ⟨hlen, hsize⟩ := hpass.all rfl
      refine ⟨_, if_neg (by simp), hun, le_rfl, fun _ => ⟨hlen, ?_, hapart, ?_⟩⟩
      · intro si hsi
        refine ⟨hsize si hsi, (hpass.found si hsi).2 ?_⟩
        rw [hsize si hsi]
        exact hpos.ne'
      · rw [hpass.maps, mappedOf, List.filter_eq_self.2]
        intro si hsi
        simpa [hsize si hsi] using hpos.ne'
    | false =>
      have hlt := hshort rfl
      by_cases hz : avg = 0
      · subst hz
        exact ⟨_, if_neg (by simp), hun, Nat.zero_le _, fun h => absurd rfl h⟩
      · rw [if_pos (by simp [hz])]
        obtain ⟨r, hr, hfits⟩ :=
          ih (s := unmapAll segs t) havg (Nat.pos_of_ne_zero hz) (by omega) (by omega)
        refine ⟨r, hr, hfits.maps.trans hun, hfits.le.trans hlt.le, fun h => ?_⟩
        rw [← hun]
        exact hfits.fits h

/-- The search ends after at most one second chance with nothing, and nothing new mapped, or with
one new mapping of at most `maxsz`, within a granule of a limit that all requests obey. The fit loop
ends with zero or with a size that every process of the supernode had mapped at once. -/
theorem segment_search_correct (o : Oracle c.page) (s : St) (hpos : 0 < maxsz)
    (hdvd : c.mmapPage ∣ maxsz) :
    (∃ n, ∀ fuel, n ≤ fuel → ∃ si t, segmentSearchInner o fuel fuel 0 maxsz s = some (si, t) ∧
      t.restarts ≤ s.restarts + 1 ∧ Returns c maxsz si s t ∧ Near o s.maps maxsz si) ∧
    ∀ nodes, 0 < nodes → ∃ n, ∀ fuel, n ≤ fuel →
      ∃ r, fitLoop o fuel nodes fuel maxsz s = some r ∧ Fits c nodes maxsz s r := by
  constructor
  · exact ⟨maxsz + 2, fun fuel hf =>
      segmentSearchInner_spec hdvd hpos (by omega) (by omega)⟩
  · exact fun nodes hn => ⟨maxsz + 2, fun fuel hf =>
      fitLoop_spec hn hdvd hpos (by omega) (by omega) (by omega)⟩

/-- A system that maps each request up to a limit above everything mapped so far. -/
def above (page limit : Nat) (hpage : 0 < page) : Oracle page where
  mmap _ maps size :=
    let a := page * (1 + (maps.map fun m => m.addr + m.size).sum)
    if size ≤ limit ∧ a + size < 2 ^ 64 then .mapped a else .failed true
  fixed _ _ addr size :=
    if addr ≠ 0 ∧ addr % page = 0 ∧ size ≤ limit ∧ addr + size < 2 ^ 64 then .mapped addr
    else .failed true
  mmap_placed := by
    intro n maps size a h
    simp only [] at h
    split at h
    · rename_i hcond
      cases h
      exact ⟨(Nat.mul_pos hpage (by omega)).ne', Nat.dvd_mul_right _ _, hcond.2⟩
    · cases h
  mmap_free := by
    intro n maps size a h m hm
    simp only [] at h
    split at h
    · cases h
      right
      have hle : m.addr + m.size ≤ (maps.map fun m => m.addr + m.size).sum :=
        Multiset.single_le_sum (fun _ _ => Nat.zero_le _) _
          (Multiset.mem_map_of_mem (fun m : SegInfo => m.addr + m.size) hm)
      calc m.addr + m.size ≤ 1 + (maps.map fun m => m.addr + m.size).sum := by omega
        _ ≤ page * (1 + (maps.map fun m => m.addr + m.size).sum) := Nat.le_mul_of_pos_left _ hpage
    · cases h
  fixed_placed := by
    intro n maps addr size a h
    split at h
    · rename_i hcond
      cases h
      exact ⟨hcond.1, Nat.dvd_of_mod_eq_zero hcond.2.1, hcond.2.2.2⟩
    · cases h
  fixed_free := by
    intro n maps addr size a h hfree
    split at h
    · cases h
      exact hfree
    · cases h

theorem above_upto {page limit : Nat} (hpage : 0 < page) (hl : page + limit < 2 ^ 64) :
    (above page limit hpage).Upto 0 limit where
  mmap := by
    intro n size
    have hsum : (Multiset.map (fun m : SegInfo => m.addr + m.size) 0).sum = 0 := rfl
    simp only [above, hsum, Nat.add_zero, Nat.mul_one]
    split
    · rename_i h
      simp [h.1]
    · rename_i h
      have : ¬ size ≤ limit := by omega
      simp [this]
  fixed := by
    intro n addr size hp _
    have hmod := Nat.mod_eq_zero_of_dvd hp.aligned
    have hcond : (addr ≠ 0 ∧ addr % page = 0 ∧ size ≤ limit ∧ addr + size < 2 ^ 64) ↔
        size ≤ limit := by
      have := hp.ne_zero
      have := hp.lt
      omega
    simp only [above, hcond]
    split <;> simp_all

/-- Four-kilobyte pages. -/
def pages : Config where
  page := 4096
  mmapPage := 4096
  granularity := 2 ^ 22
  page_pos := Nat.succ_pos 4095
  mmapPage_pos := Nat.succ_pos 4095
  page_dvd := ⟨1, rfl⟩

/-- A gigabyte asked of a system that gives a hundred million bytes at a time. -/
theorem segment_search_correct_gigabyte :
    (above 4096 100000000 (by decide)).Upto 0 100000000 ∧
    (∃ n, ∀ fuel, n ≤ fuel → ∃ si t,
      segmentSearchInner (c := pages) (above 4096 100000000 (by decide)) fuel fuel 0 (2 ^ 30)
        ⟨0, 0, 0⟩ = some (si, t) ∧ t.restarts ≤ 0 + 1 ∧
      Returns pages (2 ^ 30) si ⟨0, 0, 0⟩ t ∧
      Near (c := pages) (above 4096 100000000 (by decide)) 0 (2 ^ 30) si) ∧
    ∀ nodes, 0 < nodes → ∃ n, ∀ fuel, n ≤ fuel → ∃ r,
      fitLoop (c := pages) (above 4096 100000000 (by decide)) fuel nodes fuel (2 ^ 30)
        ⟨0, 0, 0⟩ = some r ∧ Fits pages nodes (2 ^ 30) ⟨0, 0, 0⟩ r :=
  ⟨above_upto (by decide) (by decide),
    segment_search_correct (c := pages) (above 4096 100000000 (by decide)) ⟨0, 0, 0⟩ (by decide)
      ⟨2 ^ 18, by decide⟩⟩

end Gasnet.Segment
