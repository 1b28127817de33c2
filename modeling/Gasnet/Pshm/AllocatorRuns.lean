import Gasnet.Pshm.AllocatorSteps

/-! The integrity of the payload allocator over all runs: its blocks, the search that ends, and
what a search that found nothing has seen. -/
namespace Gasnet.Pshm

variable {c : NetConfig} {s t u : Allocator} {p q n e curr length nbytes : Nat} {remain : Int}
  {a : AllocatorAction} {xs : List AllocatorAction}

/-- The payload size a search is for. -/
def Search.request : Search → Option Nat
  | .idle => none
  | .visit nbytes .. | .scan nbytes .. => some nbytes

namespace Allocator

/-- Where the next block is looked for. -/
def position (s : Allocator) : Nat :=
  match s.search with
  | .idle => s.next
  | .visit _ curr _ | .scan _ curr _ _ => curr

/-- A bound on the accesses that are left to the search. -/
def work (c : NetConfig) (s : Allocator) : Nat :=
  match s.search with
  | .idle => 0
  | .visit _ _ remain => remain.toNat * (c.count + 2) + c.count + 1
  | .scan _ curr remain length => remain.toNat * (c.count + 2) + (c.count - (curr + length))

/-- The blocks from `p` to `e` are free. -/
inductive FreeRun (c : NetConfig) (s : Allocator) (p : Nat) : Nat → Prop
  | refl : FreeRun c s p p
  | next {e : Nat} (he : FreeRun c s p e) (hlt : e < c.count) (hb : s.busy c e = false) :
      FreeRun c s p (e + s.length e)

/-- At the block boundary `p` there is no run of free blocks with room for `nbytes`. -/
structure Short (c : NetConfig) (s : Allocator) (nbytes p : Nat) : Prop where
  boundary : Boundary s.length c.count p
  run : ∀ e, FreeRun c s p e → e < p + c.needed nbytes

theorem FreeRun.boundary (h : FreeRun c s p e) (hp : Boundary s.length c.count p) :
    Boundary s.length c.count e := by
  induction h with
  | refl => exact hp
  | next _ hlt _ ih => exact ih.next hlt

/-- A run of free blocks does not go on at a block that is not free. -/
theorem FreeRun.le_of_busy (h : FreeRun c s p e) (hs : s.Inv c)
    (hp : Boundary s.length c.count p) (hq : Boundary s.length c.count q) (hpq : p ≤ q)
    (hbusy : q = c.count ∨ s.busy c q = true) : e ≤ q := by
  induction h with
  | refl => exact hpq
  | @next e he hlt hb ih =>
    have hne : e ≠ q := by
      rintro rfl
      rcases hbusy with h | h
      · omega
      · rw [hb] at h
        cases h
    exact hs.tiles.add_le (he.boundary hp) hq (by omega)

/-- What the search sees when it leaves a block. -/
theorem short_leave (hs : s.Inv c) (h : AllocatorStep c s (.leave p n) t)
    (hreq : s.search.request = some nbytes) : s.Short c nbytes p := by
  have hsearch := hs.search
  have hpos : 0 < c.needed nbytes := c.needed_pos
  cases h with
  | busy hc hf =>
    rw [hc] at hreq
    cases hreq
    simp only [SearchInv, hc] at hsearch
    obtain ⟨_, hb, hlt, _⟩ := hsearch
    refine ⟨hb, fun e he => ?_⟩
    have := he.le_of_busy hs hb hb (Nat.le_refl _)
      (Or.inr (by rwa [busy, ← c.shift_eq hlt.le]))
    omega
  | stop hc hl hf =>
    rw [hc] at hreq
    cases hreq
    simp only [SearchInv, hc] at hsearch
    obtain ⟨_, hb, _, _, _, hend, _⟩ := hsearch
    refine ⟨hb, fun e he => ?_⟩
    have := he.le_of_busy hs hb hend (by omega)
      (hf.imp id fun h => by rwa [busy, ← c.shift_add (hs.le_count hend)])
    omega

theorem request_step (h : AllocatorStep c s a t) (ha : ∀ m, a ≠ .alloc m)
    (ht : t.search.request = some n) : s.search.request = some n := by
  cases h with
  | alloc => exact absurd rfl (ha _)
  | busy hc _ | stop hc _ _ =>
    rw [hc]
    unfold leave at ht
    dsimp only at ht
    split at ht <;> simp_all [Search.request]
  | found hc _ | grow hc _ _ _ => rwa [hc]
  | take hc _ => simp [take, Search.request] at ht
  | free _ => exact ht
  | write _ _ _ => exact ht

theorem visited_leave (s : Allocator) (nbytes curr : Nat) (remain : Int) (length : Nat) :
    (s.leave c nbytes curr remain length).visited = (curr, length) :: s.visited := by
  unfold leave
  dsimp only
  split <;> rfl

theorem visited_step (h : AllocatorStep c s a t) (ha : ∀ m, a ≠ .alloc m) :
    (∃ p n, a = .leave p n ∧ t.visited = (p, n) :: s.visited) ∨ t.visited = s.visited := by
  cases h with
  | alloc => exact absurd rfl (ha _)
  | busy hc _ => exact Or.inl ⟨_, _, rfl, visited_leave _ _ _ _ _⟩
  | stop hc _ _ => exact Or.inl ⟨_, _, rfl, visited_leave _ _ _ _ _⟩
  | take _ _ =>
    right
    simp only [take]
    split <;> rfl
  | _ => exact Or.inr rfl

/-- A place is on the list because the search found too little there. -/
theorem visited_run (h : Run (AllocatorStep c) s xs t) (hs : s.Inv c)
    (ha : ∀ m, .alloc m ∉ xs) (hreq : ∀ m, s.search.request = some m → m = nbytes)
    (hmem : (p, n) ∈ t.visited) :
    (p, n) ∈ s.visited ∨ ∃ ys zs u v, xs = ys ++ .leave p n :: zs ∧
      Run (AllocatorStep c) s ys u ∧ AllocatorStep c u (.leave p n) v ∧
      Run (AllocatorStep c) v zs t ∧ u.Short c nbytes p := by
  induction h with
  | refl => exact Or.inl hmem
  | @stepL s u t a xs h hrun ih =>
    have ha' : ∀ m, a ≠ .alloc m := fun m hm => ha m (by simp [hm])
    have hreq' : ∀ m, u.search.request = some m → m = nbytes :=
      fun m hm => hreq m (request_step h ha' hm)
    rcases ih (inv_step h hs) (fun m hm => ha m (List.mem_cons_of_mem _ hm)) hreq' hmem with
      hu | ⟨ys, zs, v, w, rfl, hys, hstep, hzs, hshort⟩
    · rcases visited_step h ha' with ⟨p', n', rfl, hv⟩ | hv
      · rw [hv, List.mem_cons] at hu
        rcases hu with heq | hu
        · obtain ⟨rfl, rfl⟩ := Prod.mk.inj heq
          have hsome : ∃ m, s.search.request = some m := by
            cases h with
            | busy hc _ | stop hc _ _ =>
              rw [hc]
              exact ⟨_, rfl⟩
          obtain ⟨m, hm⟩ := hsome
          have hshort := short_leave hs h hm
          rw [hreq m hm] at hshort
          exact Or.inr ⟨[], xs, s, u, rfl, .refl, h, hrun, hshort⟩
        · exact Or.inl hu
      · exact Or.inl (hv ▸ hu)
    · exact Or.inr ⟨a :: ys, zs, v, w, rfl, .stepL h hys, hstep, hzs, hshort⟩

/-- A search that comes to its end without a block has visited every page. -/
theorem covered_step (h : AllocatorStep c s a t) (ha : ∀ m, a ≠ .alloc m) (ha' : ∀ p, a ≠ .take p)
    (hs : s.Inv c) (hcov : s.search = .idle → ∀ q < c.count, s.Covered q) :
    t.search = .idle → ∀ q < c.count, t.Covered q := by
  have hsearch := hs.search
  cases h with
  | alloc => exact absurd rfl (ha _)
  | take => exact absurd rfl (ha' _)
  | busy hc _ =>
    simp only [SearchInv, hc] at hsearch
    obtain ⟨hn, hb, hlt, hpass⟩ := hsearch
    exact (leave_search hn (hb.next hlt) (hs.tiles.add_length_le hb hlt) hpass).2
  | @stop nbytes curr remain length hc _ _ =>
    simp only [SearchInv, hc] at hsearch
    obtain ⟨hn, hb, hlt, hpass, hpos, he, _⟩ := hsearch
    have hend := ((inv_merge hs hc).2.2 _).mpr ⟨he, by omega⟩
    exact (@leave_search c { s with length := Function.update s.length curr length } curr length
      nbytes remain hn hend (hs.le_count he) hpass).2
  | found | grow => exact fun h => by cases h
  | free | write => exact hcov

theorem covered_run (h : Run (AllocatorStep c) s xs t) (ha : ∀ m, .alloc m ∉ xs)
    (ha' : ∀ p, .take p ∉ xs) (hs : s.Inv c)
    (hcov : s.search = .idle → ∀ q < c.count, s.Covered q) :
    t.search = .idle → ∀ q < c.count, t.Covered q := by
  refine (h.invariant_of
    (P := fun s => s.Inv c ∧ (s.search = .idle → ∀ q < c.count, s.Covered q))
    (Q := fun a => (∀ m, a ≠ .alloc m) ∧ ∀ p, a ≠ .take p) (fun hq hstep hP => ?_)
    (fun a hmem => ⟨?_, ?_⟩) ⟨hs, hcov⟩).2
  · exact ⟨inv_step hstep hP.1, covered_step hstep hq.1 hq.2 hP.1 hP.2⟩
  · rintro m rfl
    exact ha m hmem
  · rintro p rfl
    exact ha' p hmem

/-- Whatever the flags say, the search can go on. -/
theorem search_enabled (hc : s.search ≠ .idle) :
    ∃ a t, a.searches = true ∧ AllocatorStep c s a t := by
  cases h : s.search with
  | idle => exact absurd h hc
  | visit nbytes curr remain =>
    cases hf : s.inUse (c.shift curr) with
    | true => exact ⟨_, _, rfl, .busy h hf⟩
    | false => exact ⟨_, _, rfl, .found h hf⟩
  | scan nbytes curr remain length =>
    by_cases hl : c.needed nbytes ≤ length
    · exact ⟨_, _, rfl, .take h hl⟩
    · by_cases he : curr + length = c.count
      · exact ⟨_, _, rfl, .stop h (by omega) (Or.inl he)⟩
      · cases hf : s.inUse (c.shift curr + c.shift length) with
        | true => exact ⟨_, _, rfl, .stop h (by omega) (Or.inr hf)⟩
        | false => exact ⟨_, _, rfl, .grow h (by omega) he hf⟩

theorem work_leave (c : NetConfig) (s : Allocator) (nbytes curr : Nat) (hpos : 0 < length) (hrem : 0 < remain) :
    (s.leave c nbytes curr remain length).work c < remain.toNat * (c.count + 2) := by
  obtain ⟨r, rfl⟩ : ∃ r : Nat, remain = r + 1 := ⟨(remain - 1).toNat, by omega⟩
  have hr : ((r : Int) + 1).toNat = r + 1 := by omega
  rw [hr, Nat.add_mul]
  by_cases hmore : 0 < (r : Int) + 1 - length
  · have hle : ((r : Int) + 1 - length).toNat ≤ r := by omega
    have := Nat.mul_le_mul_right (c.count + 2) hle
    simp only [leave, if_pos hmore, work]
    omega
  · simp only [leave, if_neg hmore, work]
    omega

/-- Every access of the search brings its end nearer, and no other process puts it off. -/
theorem work_step (hs : s.Inv c) (h : AllocatorStep c s a t) (ha : ∀ m, a ≠ .alloc m) :
    t.work c + (if a.searches then 1 else 0) ≤ s.work c := by
  have hsearch := hs.search
  cases h with
  | alloc => exact absurd rfl (ha _)
  | @busy nbytes curr remain hc _ =>
    simp only [SearchInv, hc] at hsearch
    obtain ⟨_, hb, hlt, hpass⟩ := hsearch
    have hw : s.work c = remain.toNat * (c.count + 2) + c.count + 1 := by simp only [work, hc]
    have := work_leave c s nbytes curr (hs.tiles.pos _ hb hlt) hpass.1
    rw [hw, AllocatorAction.searches, if_pos rfl]
    omega
  | @found nbytes curr remain hc _ =>
    simp only [AllocatorAction.searches, if_true, work, hc]
    omega
  | @grow nbytes curr remain length hc _ he _ =>
    simp only [SearchInv, hc] at hsearch
    obtain ⟨_, _, _, _, _, hend, _⟩ := hsearch
    have hle := hs.le_count hend
    have := hs.tiles.pos _ hend (by omega)
    simp only [AllocatorAction.searches, if_true, work, hc]
    omega
  | @stop nbytes curr remain length hc _ _ =>
    simp only [SearchInv, hc] at hsearch
    obtain ⟨_, _, _, hpass, hpos, _⟩ := hsearch
    have hw : s.work c = remain.toNat * (c.count + 2) + (c.count - (curr + length)) := by
      simp only [work, hc]
    have := work_leave c { s with length := Function.update s.length curr length } nbytes curr
      hpos hpass.1
    rw [hw, AllocatorAction.searches, if_pos rfl]
    omega
  | @take nbytes curr remain length hc _ =>
    simp only [SearchInv, hc] at hsearch
    obtain ⟨_, _, _, hpass, _⟩ := hsearch
    have hrem : 0 < remain.toNat := by have := hpass.1; omega
    have := Nat.mul_pos hrem (by omega : 0 < c.count + 2)
    simp only [AllocatorAction.searches, if_true, work, hc, take]
    omega
  | free | write => exact Nat.le_refl _

theorem work_run (h : Run (AllocatorStep c) s xs t) (hs : s.Inv c) (ha : ∀ m, .alloc m ∉ xs) :
    xs.countP AllocatorAction.searches + t.work c ≤ s.work c := by
  induction h with
  | refl => simp
  | @stepL s u t a xs h _ ih =>
    have hstep := work_step hs h fun m hm => ha m (by simp [hm])
    have hrest := ih (inv_step h hs) fun m hm => ha m (List.mem_cons_of_mem _ hm)
    rw [List.countP_cons]
    omega

theorem boundary_position (hs : s.Inv c) :
    Boundary s.length c.count s.position ∧ s.position < c.count := by
  have hsearch := hs.search
  unfold SearchInv at hsearch
  unfold position
  cases hc : s.search with
  | idle =>
    rw [hc] at hsearch
    exact hsearch
  | visit | scan =>
    rw [hc] at hsearch
    exact ⟨hsearch.2.1, hsearch.2.2.1⟩

/-- The blocks of the region, those given out, and the place where the search stands. -/
structure Integrity (c : NetConfig) (s : Allocator) : Prop where
  tiles : ∀ q < c.count, ∃ p, (Boundary s.length c.count p ∧ p ≤ q ∧ q < p + s.length p) ∧
    ∀ p', Boundary s.length c.count p' → p' ≤ q → q < p' + s.length p' → p' = p
  ends : ∀ p, Boundary s.length c.count p → p < c.count → p + s.length p ≤ c.count
  live : ∀ p n, (p, n) ∈ s.live → Boundary s.length c.count p ∧ p + s.length p ≤ c.count ∧
    c.shift p = p * c.pageSize ∧ s.inUse (c.shift p) = true ∧
    n + c.header ≤ s.length p * c.pageSize
  disjoint : s.live.Pairwise fun a b =>
    a.1 + s.length a.1 ≤ b.1 ∨ b.1 + s.length b.1 ≤ a.1
  position : Boundary s.length c.count s.position ∧ s.position < c.count

theorem Inv.integrity (hs : s.Inv c) : s.Integrity c where
  tiles q hq := by
    obtain ⟨p, hp, hle, hlt⟩ := hs.tiles.exists_block hq
    refine ⟨p, ⟨hp, hle, hlt⟩, fun p' hp' hle' hlt' => ?_⟩
    by_contra hne
    have := hs.tiles.disjoint hp' hp hne
    omega
  ends p hp hlt := hs.tiles.add_length_le hp hlt
  live p n hp := by
    have hl := hs.live p n hp
    refine ⟨hl.boundary, hs.tiles.add_length_le hl.boundary hl.lt, c.shift_eq hl.lt.le, ?_, ?_⟩
    · rw [c.shift_eq hl.lt.le]
      exact hl.busy
    · rw [hl.length]
      exact c.le_needed n
  disjoint := by
    refine (List.pairwise_map.mp hs.nodup).imp_of_mem fun {a b} ha hb hne => ?_
    exact hs.tiles.disjoint (hs.live _ _ ha).boundary (hs.live _ _ hb).boundary hne
  position := boundary_position hs

/-- At every moment of every run the blocks tile the region, those given out are apart from each
other, the search stands at a block and has a bound on its remaining accesses that no other
process can raise. If it ends without a block, each page was in a block that it left, at a
moment when no run of free blocks from there was long enough. -/
theorem allocator_integrity (h : Reachable (AllocatorStep c) (initial c) s) :
    s.Integrity c ∧
    (s.search ≠ .idle → ∃ a t, a.searches = true ∧ AllocatorStep c s a t) ∧
    (∃ bound, ∀ xs t, Run (AllocatorStep c) s xs t → (∀ m, .alloc m ∉ xs) →
      xs.countP AllocatorAction.searches ≤ bound) ∧
    ∀ nbytes t xs u, AllocatorStep c s (.alloc nbytes) t → Run (AllocatorStep c) t xs u →
      (∀ m, .alloc m ∉ xs) → (∀ p, .take p ∉ xs) → u.search = .idle →
      ∀ q < c.count, ∃ ys p n zs v w, xs = ys ++ .leave p n :: zs ∧ p ≤ q ∧ q < p + n ∧
        Run (AllocatorStep c) t ys v ∧ AllocatorStep c v (.leave p n) w ∧
        v.Short c nbytes p := by
  have hs := inv_reachable h
  refine ⟨hs.integrity, search_enabled, ⟨s.work c, fun xs t hrun ha => ?_⟩,
    fun nbytes t xs u hstep hrun ha ha' hidle q hq => ?_⟩
  · have := work_run hrun hs ha
    omega
  · have ht := inv_step hstep hs
    obtain ⟨hv, hr, hne⟩ : t.visited = [] ∧ t.search.request = some nbytes ∧ t.search ≠ .idle := by
      cases hstep with
      | alloc hc hn => exact ⟨rfl, rfl, fun h => by cases h⟩
    obtain ⟨⟨p, n⟩, hmem, hle, hlt⟩ :=
      covered_run hrun ha ha' ht (fun h => absurd h hne) hidle q hq
    rcases visited_run hrun ht ha (fun m hm => by rw [hr] at hm; cases hm; rfl) hmem with
      hold | ⟨ys, zs, v, w, hxs, hys, hleave, _, hshort⟩
    · rw [hv] at hold
      cases hold
    · exact ⟨ys, p, n, zs, v, w, hxs, hle, hlt, hys, hleave, hshort⟩

/-- A region of 64 blocks of 64 KiB. -/
def exampleConfig : NetConfig where
  pageShift := 12
  header := 64
  header_pos := by decide
  blockSize := 65600
  blockSize_pos := by decide
  depth := 64
  depth_min := by decide
  depth_max := by decide

theorem allocator_integrity_first : ∃ s : Allocator, (0, 100) ∈ s.live ∧ s.Integrity exampleConfig := by
  have h₁ := Reachable.refl.snoc (@AllocatorStep.alloc exampleConfig
    (initial exampleConfig) 100 rfl (by decide))
  have h₂ := h₁.snoc (.found rfl rfl)
  have h₃ := h₂.snoc (.take rfl (by decide))
  exact ⟨_, List.mem_cons_self, (allocator_integrity h₃).1⟩

end Allocator
end Gasnet.Pshm
