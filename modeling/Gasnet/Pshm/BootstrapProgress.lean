import Mathlib.Algebra.Order.BigOperators.Group.Finset
import Mathlib.Data.Fintype.Lattice
import Gasnet.Pshm.BootstrapBlocks

/-! The bootstrap collectives do not get stuck, and leave the data in place. -/
namespace Gasnet.Pshm

namespace Allocator

variable {c : NetConfig} {s t t' u : Allocator} {x : AllocatorAction} {xs : List AllocatorAction}
  {nbytes e p : Nat}

/-- A step of the search that does not end it. -/
def Hunt (c : NetConfig) (s : Allocator) (x : AllocatorAction) (t : Allocator) : Prop :=
  AllocatorStep c s x t ∧ x.searches = true ∧ t.search ≠ .idle

theorem Hunt.not_take (h : Hunt c s x t) (hs : s.Inv c) : (∀ p, x ≠ .take p) ∧ (∀ p, x ≠ .free p) ∧
    ∀ m, x ≠ .alloc m := by
  refine ⟨?_, ?_, ?_⟩ <;> rintro p rfl
  · exact h.2.2 (live_take h.1 hs).1
  · cases h.2.1
  · cases h.2.1

/-- Left alone, a search comes to its end. -/
theorem search_ends (hs : s.Inv c) (hne : s.search ≠ .idle) :
    ∃ xs u x v, Run (Hunt c) s xs u ∧ u.Inv c ∧ u.search ≠ .idle ∧ AllocatorStep c u x v ∧
      x.searches = true ∧ v.search = .idle := by
  induction hw : s.work c using Nat.strong_induction_on generalizing s with
  | _ w ih =>
    obtain ⟨x, t, hx, hstep⟩ := search_enabled (c := c) hne
    by_cases ht : t.search = .idle
    · exact ⟨[], s, x, t, .refl, hs, hne, hstep, hx, ht⟩
    · have hwork := work_step hs hstep (by rintro m rfl; cases hx)
      rw [if_pos hx] at hwork
      obtain ⟨xs, u, y, v, hrun, hrest⟩ := ih (t.work c) (by omega) (inv_step hstep hs) ht rfl
      exact ⟨x :: xs, u, y, v, .stepL ⟨hstep, hx, ht⟩ hrun, hrest⟩

theorem hunt_run (h : Run (Hunt c) s xs t) (hs : s.Inv c) : Run (AllocatorStep c) s xs t ∧
    t.Inv c ∧ t.live = s.live ∧ ∀ x ∈ xs, (∀ p, x ≠ .take p) ∧ (∀ p, x ≠ .free p) ∧ ∀ m, x ≠ .alloc m := by
  induction h with
  | refl => exact ⟨.refl, hs, rfl, nofun⟩
  | @stepL s u t x xs h _ ih =>
    obtain ⟨htake, hfree, halloc⟩ := h.not_take hs
    obtain ⟨hrun, ht, hlive, hall⟩ := ih (inv_step h.1 hs)
    refine ⟨.stepL h.1 hrun, ht, hlive.trans (live_step h.1 htake hfree), ?_⟩
    intro y hy
    rcases List.mem_cons.1 hy with rfl | hy
    · exact ⟨htake, hfree, halloc⟩
    · exact hall y hy

/-- Without a block in use the whole region is free. -/
theorem freeRun_of_live (hs : s.Inv c) (hlive : s.live = []) (he : Boundary s.length c.count e) :
    FreeRun c s 0 e := by
  induction he with
  | zero => exact .refl
  | @next q hq hlt ih =>
    refine .next ih hlt ?_
    by_contra hbusy
    obtain ⟨l, hl⟩ := hs.owned q hq hlt (by simpa using hbusy)
    rw [hlive] at hl
    cases hl

theorem needed_le_count (h : nbytes + c.header ≤ c.allocMaxSz) : c.needed nbytes ≤ c.count := by
  have hmul := c.count_mul
  have hdepth := Nat.le_mul_of_pos_right c.allocMaxSz (by have := c.depth_min; omega : 0 < c.depth)
  have hlt : c.needed nbytes < c.count + 1 := by
    refine (Nat.div_lt_iff_lt_mul c.pageSize_pos).2 ?_
    rw [Nat.add_mul, Nat.one_mul]
    have := c.pageSize_pos
    omega
  omega

/-- A request of an admissible size is met when no block is in use. -/
theorem never_refused (hs : s.Inv c) (hlive : s.live = []) (h : AllocatorStep c s (.alloc nbytes) t)
    (hrun : Run (Hunt c) t xs u) (hstep : AllocatorStep c u x t') (hx : x.searches = true)
    (hend : t'.search = .idle) : ∃ p, x = .take p := by
  by_contra hnot
  have htake : ∀ p, x ≠ .take p := fun p hp => hnot ⟨p, hp⟩
  have hfree : ∀ p, x ≠ .free p := by rintro p rfl; cases hx
  have halloc : ∀ m, x ≠ .alloc m := by rintro m rfl; cases hx
  have ht := inv_step h hs
  obtain ⟨hrun', -, -, hall⟩ := hunt_run hrun ht
  have hfull : Run (AllocatorStep c) t (xs ++ [x]) t' := hrun'.snoc hstep
  have hall' : ∀ y ∈ xs ++ [x],
      (∀ p, y ≠ .take p) ∧ (∀ p, y ≠ .free p) ∧ ∀ m, y ≠ .alloc m := by
    intro y hy
    rcases List.mem_append.1 hy with hy | hy
    · exact hall y hy
    · rw [List.mem_singleton.1 hy]
      exact ⟨htake, hfree, halloc⟩
  have hlivet : t.live = [] := by rw [live_step h nofun nofun, hlive]
  obtain ⟨hv, hr, hne, hsize⟩ : t.visited = [] ∧ t.search.request = some nbytes ∧
      t.search ≠ .idle ∧ nbytes + c.header ≤ c.allocMaxSz := by
    cases h with
    | alloc hc hn => exact ⟨rfl, rfl, nofun, hn⟩
  obtain ⟨⟨p, l⟩, hmem, hle, -⟩ := covered_run hfull (fun m hm => (hall' _ hm).2.2 m rfl)
    (fun p hp => (hall' _ hp).1 p rfl) ht (fun hidle => absurd hidle hne) hend 0 c.count_pos
  obtain rfl : p = 0 := Nat.le_zero.1 hle
  have hreq : ∀ m, t.search.request = some m → m = nbytes := fun m hm => by
    rw [hr] at hm
    cases hm
    rfl
  rcases visited_run hfull ht (fun m hm => (hall' _ hm).2.2 m rfl) hreq hmem with hold | ⟨ys, zs, v, w, hxs, hys, -, -, hshort⟩
  · rw [hv] at hold
    cases hold
  · have hinv : v.Inv c ∧ v.live = [] := by
      refine hys.invariant_of (P := fun a => a.Inv c ∧ a.live = [])
        (Q := fun y => (∀ p, y ≠ .take p) ∧ ∀ p, y ≠ .free p) (fun hq hstep ha => ?_)
        (fun y hy => ?_) ⟨ht, hlivet⟩
      · exact ⟨inv_step hstep ha.1, (live_step hstep hq.1 hq.2).trans ha.2⟩
      · have hy' : y ∈ xs ++ [x] := by
          rw [hxs]
          exact List.mem_append_left _ hy
        exact ⟨(hall' y hy').1, (hall' y hy').2.1⟩
    have hrun0 := freeRun_of_live hinv.1 hinv.2 hinv.1.tiles.boundary_count
    have hlt := hshort.run c.count hrun0
    have := needed_le_count hsize
    omega

end Allocator

namespace Bootstrap

variable {n len : Nat} {α : Type*} {c : NetConfig} {job : Job n} {src : Fin n → Nat → α}
  {s t : State n α} {i j k : Fin n} {m : Message n} {P : Plan job len}

theorem turns_start (P : Plan job len) (h : Start c job s) : Turns c P s := by
  have hrest : ∀ k, (s.proc k).rest = job.ops k := fun k => (h.proc k).2.2.1
  have hoff : ∀ k, (s.proc k).off = 0 := fun k => (h.proc k).2.1
  have hsenders : ∀ k, s.senders k = [] := by
    intro k
    obtain ⟨-, -, -, hact, hgot⟩ := h.proc k
    rw [State.senders, State.pending, hact, h.queue, hgot]
    rfl
  refine ⟨fun k => ?_, fun k _ => ?_, fun k => ?_, fun k hk => ?_, fun k hk => ?_, fun k => ?_,
    fun j k _ => ?_, fun j k hlt => ?_, fun j k hlt => ?_, fun k => ?_, fun j k => ?_, fun k => ?_,
    fun j k hne hs hjk hj => ?_⟩
  · rw [hrest]
  · exact (h.proc k).2.2
  · rw [hoff]
    exact Nat.zero_le _
  · rw [(h.proc k).1] at hk
    cases hk
  · rw [(h.proc k).1] at hk
    cases hk
  · rw [Proc.Turn, (h.proc k).2.2.2.1]
    trivial
  · exact (hoff j).le.trans (Nat.zero_le _)
  · rw [hoff, hoff] at hlt
    exact absurd hlt (lt_irrefl _)
  · rw [hoff, hoff] at hlt
    exact absurd hlt (lt_irrefl _)
  · rw [hsenders]
    exact List.nodup_nil
  · rw [hsenders, Plan.Sent, hoff, hoff, hrest]
    simp only [List.not_mem_nil, lt_irrefl, false_or, true_and, false_iff, not_and, not_not]
    exact Plan.mem_ops.2
  · rw [(h.proc k).2.2.2.2, hrest, P.count_ops]
    exact Nat.zero_add _
  · exact absurd hjk (Plan.first_of_started (hrest k) hne hs hj)

theorem blocks_start (P : Plan job len) (h : Start c job s) : Blocks c P src s := by
  have hheld : ∀ k, s.held k = [] := by
    intro k
    rw [State.held, (h.proc k).2.2.2.1, h.queue]
    rfl
  have hpend : ∀ k, s.pending k = [] := by
    intro k
    rw [State.pending, (h.proc k).2.2.2.1, h.queue]
    rfl
  refine ⟨fun j => Allocator.inv_reachable (h.alloc j), fun j => ?_, fun j p hp => ?_,
    fun k m hm => ?_, fun i k m hm => ?_, fun j p l hl => ?_, fun j p hp => ?_, fun k m hm => ?_,
    fun j k _ a ha => ?_, fun k d hk => ?_⟩
  · rw [h.search, (h.proc j).2.2.2.1]
    rfl
  · rw [(h.proc j).2.2.2.1] at hp
    cases hp
  · rw [hheld] at hm
    cases hm
  · rw [hheld] at hm
    cases hm
  · rw [h.live] at hl
    cases hl
  · rw [(h.proc j).2.2.2.1] at hp
    cases hp
  · rw [hpend] at hm
    cases hm
  · rw [(h.proc k).2.1, (h.proc k).2.2.2.2] at ha
    simp at ha
  · rw [(h.proc k).1] at hk
    cases hk

/-- Both invariants hold in every run. -/
theorem inv_reach (hmax : 0 < c.maxPayload) (h : Reachable (Step c job len src) s t)
    (hs : Turns c P s ∧ Blocks c P src s) : Turns c P t ∧ Blocks c P src t :=
  h.invariant (P := fun u => Turns c P u ∧ Blocks c P src u)
    (fun hstep hu => ⟨turns_step hmax hstep hu.1, blocks_step hstep hu.1 hu.2⟩) hs

/-- The search of one process, left alone. -/
theorem hunt_reach {a u : Allocator} {xs : List AllocatorAction}
    (h : Run (Allocator.Hunt c) a xs u) (hact : (s.proc k).act = .searching)
    (ha : s.alloc k = a) : Reachable (Step c job len src) s (s.setAlloc k u) := by
  induction h generalizing s with
  | refl =>
    have hsame : s.setAlloc k (s.alloc k) = s := by
      rw [State.setAlloc, Function.update_eq_self]
    rw [← ha, hsame]
    exact .refl
  | @stepL a v u x xs hx _ ih =>
    subst ha
    have hstep : Step c job len src s k (s.setAlloc k v) := .search hact hx.1 hx.2.1 hx.2.2
    obtain ⟨ys, hys⟩ := ih (s := s.setAlloc k v) hact (Function.update_self _ _ _)
    have hidem : (s.setAlloc k v).setAlloc k u = s.setAlloc k u := by
      simp only [State.setAlloc, Function.update_idem]
    rw [hidem] at hys
    exact ⟨k :: ys, .stepL hstep hys⟩

/-- A process that is looking for a block gets one or gives up. -/
theorem search_reach (hs : Blocks c P src s) (hact : (s.proc k).act = .searching) :
    ∃ xs u x v, Run (Allocator.Hunt c) (s.alloc k) xs u ∧ AllocatorStep c u x v ∧
      x.searches = true ∧ v.search = .idle ∧
      ((∃ p, x = .take p ∧
          Reachable (Step c job len src) s ((s.setAlloc k v).setAct k (.filling p))) ∨
        v.live = (s.alloc k).live ∧
          Reachable (Step c job len src) s ((s.setAlloc k v).setAct k .idle)) := by
  have hne : (s.alloc k).search ≠ .idle := by
    intro hidle
    have hasks := hs.search k
    rw [hidle, hact] at hasks
    cases hasks
  obtain ⟨xs, u, x, v, hrun, hu, hbusy, hstep, hx, hend⟩ := Allocator.search_ends (hs.alloc k) hne
  refine ⟨xs, u, x, v, hrun, hstep, hx, hend, ?_⟩
  have hreach := @hunt_reach n len α c job src s k _ u xs hrun hact rfl
  have halloc : (s.setAlloc k u).alloc k = u := Function.update_self _ _ _
  have hidem : (s.setAlloc k u).setAlloc k v = s.setAlloc k v := by
    simp only [State.setAlloc, Function.update_idem]
  cases x with
  | take p =>
    refine .inl ⟨p, rfl, ?_⟩
    rw [← hidem]
    exact hreach.snoc (.granted hact (halloc.symm ▸ hstep))
  | leave p l =>
    refine .inr ⟨?_, ?_⟩
    · rw [Allocator.live_step hstep nofun nofun]
      exact (Allocator.hunt_run hrun (hs.alloc k)).2.2.1
    · rw [← hidem]
      exact hreach.snoc (.refused hact (halloc.symm ▸ hstep) hend)
  | found =>
    cases hstep with
    | found _ _ => cases hend
  | grow =>
    cases hstep with
    | grow _ _ _ _ => cases hend
  | alloc _ => cases hx
  | free _ => cases hx
  | write => cases hx

/-- A process without a block in use gets the one that it asks for. -/
theorem grant_reach (hmax : 0 < c.maxPayload) (hs : Blocks c P src s) (hturns : Turns c P s)
    (hact : (s.proc k).act = .idle) (hbody : (s.proc k).phase = .body)
    {rest : List (Op n)} (hrest : (s.proc k).rest = .send i :: rest) (hlive : (s.alloc k).live = []) :
    ∃ a p, Reachable (Step c job len src) s ((s.setAlloc k a).setAct k (.filling p)) := by
  have hidle : (s.alloc k).search = .idle := by
    have hasks := hs.search k
    rw [hact] at hasks
    exact Allocator.request_none.1 hasks
  have hsize : nbytes c len (s.proc k).off + c.header ≤ c.allocMaxSz := by
    have hle : nbytes c len (s.proc k).off ≤ c.maxPayload := Nat.min_le_right _ _
    unfold NetConfig.maxPayload at hle hmax
    omega
  have halloc : AllocatorStep c (s.alloc k) (.alloc (nbytes c len (s.proc k).off)) _ :=
    .alloc hidle hsize
  set a : Allocator := { s.alloc k with
    search := .visit (nbytes c len (s.proc k).off) (s.alloc k).next c.count, visited := [] }
  set u := (s.setAlloc k a).setAct k .searching with hu
  have hstep : Step c job len src s k u := .request hbody hact hrest halloc
  have hblocks := blocks_step hstep hturns hs
  have haself : u.alloc k = a := Function.update_self _ _ _
  have huact : (u.proc k).act = .searching := congrArg Proc.act setProc_proc
  obtain ⟨xs, v, x, w, hrun, hlast, hx, hend, hcase⟩ := search_reach hblocks huact
  rw [haself] at hrun
  obtain ⟨p, hp⟩ := Allocator.never_refused (hs.alloc k) hlive halloc hrun hlast hx hend
  rcases hcase with ⟨q, -, ys, hys⟩ | ⟨hsame, -⟩
  · refine ⟨w, q, k :: ys, .stepL hstep ?_⟩
    have hidem : (u.setAlloc k w).setAct k (.filling q) = (s.setAlloc k w).setAct k (.filling q) := by
      rw [hu]
      simp only [State.setAct, State.setProc, State.setAlloc, Function.update_idem,
        Function.update_self]
    rwa [hidem] at hys
  · subst hp
    obtain ⟨-, ⟨l, -, hl⟩, -⟩ := Allocator.live_take hlast (Allocator.hunt_run hrun (haself ▸ hblocks.alloc k)).2.1
    have hv : v.live = a.live := (Allocator.hunt_run hrun (haself ▸ hblocks.alloc k)).2.2.1
    rw [hsame, haself, hv] at hl
    exact absurd (congrArg List.length hl) (by simp)

/-- A bound on the steps, those of the searches aside, that are left to a process. -/
def Act.cost : Act n → Nat
  | .idle | .searching => 3
  | .filling _ => 2
  | .filled _ => 1
  | .reading _ => 2
  | .releasing _ => 4

def Phase.cost : Phase → Nat
  | .barrier => 2
  | .test => 1
  | .body | .done => 0

def Proc.cost (len : Nat) (ops : List (Op n)) (p : Proc n α) : Nat :=
  (len - p.off) * (5 * ops.length + 3) + 5 * p.rest.length + p.act.cost + p.phase.cost

def State.cost (job : Job n) (len : Nat) (s : State n α) : Nat :=
  ∑ k, (s.proc k).cost len (job.ops k)

theorem cost_mono {p : Proc n α} (ht : t.proc = Function.update s.proc k p)
    (hp : p.cost len (job.ops k) ≤ (s.proc k).cost len (job.ops k)) (j : Fin n) :
    (t.proc j).cost len (job.ops j) ≤ (s.proc j).cost len (job.ops j) := by
  rw [ht]
  by_cases hj : j = k
  · subst hj
    rwa [Function.update_self]
  · rw [Function.update_of_ne hj]

theorem cost_lt {p : Proc n α} (ht : t.proc = Function.update s.proc k p)
    (hp : p.cost len (job.ops k) < (s.proc k).cost len (job.ops k)) :
    t.cost job len < s.cost job len := by
  refine Finset.sum_lt_sum (fun j _ => cost_mono ht hp.le j) ⟨k, Finset.mem_univ k, ?_⟩
  rw [ht, Function.update_self]
  exact hp

/-- No run from `s` costs anything. -/
def Stuck (c : NetConfig) (job : Job n) (len : Nat) (src : Fin n → Nat → α) (s : State n α) : Prop :=
  ∀ t, Reachable (Step c job len src) s t → s.cost job len ≤ t.cost job len

theorem Stuck.cost_le (h : Stuck c job len src s) (hr : Reachable (Step c job len src) s t)
    {p : Proc n α} (ht : t.proc = Function.update s.proc k p) :
    (s.proc k).cost len (job.ops k) ≤ p.cost len (job.ops k) := by
  by_contra hlt
  have hle := h t hr
  have := cost_lt ht (not_le.1 hlt)
  omega

theorem Stuck.act_le (h : Stuck c job len src s) (hr : Reachable (Step c job len src) s t)
    {a : Act n} (ht : t.proc = Function.update s.proc k { s.proc k with act := a }) :
    (s.proc k).act.cost ≤ a.cost := by
  have hle := h.cost_le hr ht
  unfold Proc.cost at hle
  dsimp only at hle
  omega

/-- A stuck process waits for others: at the barrier, for a block to come back or for one to read. -/
inductive Waits (s : State n α) (k : Fin n) : Prop
  | done : (s.proc k).phase = .done → Waits s k
  | barrier : (s.proc k).phase = .barrier → (∃ j, (s.proc j).off < (s.proc k).off) → Waits s k
  | send {i : Fin n} {rest : List (Op n)} : (s.proc k).phase = .body →
      (s.proc k).act = .idle ∨ (s.proc k).act = .searching →
      (s.proc k).rest = .send i :: rest → (s.alloc k).live ≠ [] → Waits s k
  | recv {rest : List (Op n)} : (s.proc k).phase = .body → (s.proc k).act = .idle →
      (s.proc k).rest = .recv :: rest → s.queue k = [] → Waits s k

/-- If a process cannot get a block, another one has a block of it. -/
theorem Stuck.live_ne (h : Stuck c job len src s) (hmax : 0 < c.maxPayload) (hturns : Turns c P s)
    (hs : Blocks c P src s) (hbody : (s.proc k).phase = .body) (hact : (s.proc k).act = .idle)
    {rest : List (Op n)} (hrest : (s.proc k).rest = .send i :: rest) : (s.alloc k).live ≠ [] := by
  intro hlive
  obtain ⟨a, p, hr⟩ := grant_reach hmax hs hturns hact hbody hrest hlive
  have hle := h.act_le (k := k) (a := .filling p) hr rfl
  rw [hact] at hle
  simp [Act.cost] at hle

theorem Stuck.live_ne_searching (h : Stuck c job len src s) (hmax : 0 < c.maxPayload)
    (hturns : Turns c P s) (hs : Blocks c P src s) (hbody : (s.proc k).phase = .body)
    (hact : (s.proc k).act = .searching) {rest : List (Op n)}
    (hrest : (s.proc k).rest = .send i :: rest) : (s.alloc k).live ≠ [] := by
  obtain ⟨-, -, -, v, -, -, -, -, ⟨p, -, hr⟩ | ⟨hlive, hr⟩⟩ := search_reach hs hact
  · have hle := h.act_le (k := k) (a := .filling p) hr rfl
    rw [hact] at hle
    simp [Act.cost] at hle
  · set u := (s.setAlloc k v).setAct k .idle with hu
    have huk : u.proc k = { s.proc k with act := .idle } := setProc_proc
    have hualloc : u.alloc k = v := Function.update_self _ _ _
    obtain ⟨hturns', hs'⟩ := inv_reach hmax hr ⟨hturns, hs⟩
    have hstuck : Stuck c job len src u := by
      intro t ht
      have hsame : u.cost job len ≤ s.cost job len := by
        refine Finset.sum_le_sum fun j _ => cost_mono (k := k) (p := u.proc k) ?_ ?_ j
        · rw [huk]
          rfl
        · rw [huk]
          simp [Proc.cost, hact, Act.cost]
      exact hsame.trans (h t (hr.trans ht))
    rw [← hlive, ← hualloc]
    have hurest : (u.proc k).rest = .send i :: rest := by rwa [huk]
    refine hstuck.live_ne hmax hturns' hs' ?_ ?_ hurest
    · rwa [huk]
    · rw [huk]

theorem Stuck.waits (h : Stuck c job len src s) (hmax : 0 < c.maxPayload) (hturns : Turns c P s)
    (hs : Blocks c P src s) (k : Fin n) : Waits s k := by
  have hturn := hturns.turn k
  unfold Proc.Turn at hturn
  cases hf : (s.proc k).phase with
  | test =>
    exfalso
    by_cases hoff : (s.proc k).off < len
    · have hle := h.cost_le (Reachable.refl.snoc (.enter hf hoff)) rfl
      simp [Proc.cost, hf, Phase.cost] at hle
    · have hle := h.cost_le (Reachable.refl.snoc (.exit hf hoff)) rfl
      simp [Proc.cost, Proc.finish, hf, Phase.cost] at hle
  | done => exact .done hf
  | barrier =>
    refine .barrier hf ?_
    by_contra hall
    have hle := h.cost_le (Reachable.refl.snoc
      (.leave hf fun j => not_lt.1 fun hlt => hall ⟨j, hlt⟩)) rfl
    simp [Proc.cost, hf, Phase.cost] at hle
  | body =>
    cases ha : (s.proc k).act with
    | filling p =>
      have hle := h.act_le (k := k) (a := .filled p) (Reachable.refl.snoc (.fill ha)) rfl
      rw [ha] at hle
      simp [Act.cost] at hle
    | releasing m =>
      have hle := h.act_le (k := k) (a := .idle) (Reachable.refl.snoc (.release ha)) rfl
      rw [ha] at hle
      simp [Act.cost] at hle
    | filled p =>
      rw [ha] at hturn
      obtain ⟨-, i, rest, hrest⟩ := hturn
      have hle := h.cost_le (Reachable.refl.snoc (.deliver ha hrest)) rfl
      simp only [Proc.cost, ha, hrest, Act.cost, List.length_cons] at hle
      omega
    | reading m =>
      rw [ha] at hturn
      obtain ⟨-, rest, hrest⟩ := hturn
      have hle := h.cost_le (Reachable.refl.snoc (.copy ha hrest)) rfl
      simp only [Proc.cost, Proc.receive, ha, hrest, Act.cost, List.length_cons] at hle
      omega
    | searching =>
      rw [ha] at hturn
      obtain ⟨-, i, rest, hrest⟩ := hturn
      exact .send hf (.inr ha) hrest (h.live_ne_searching hmax hturns hs hf ha hrest)
    | idle =>
      cases hrest : (s.proc k).rest with
      | nil =>
        have hle := h.cost_le (Reachable.refl.snoc (.arrive hf ha hrest)) rfl
        have hpos := nbytes_pos hmax (hturns.more k hf)
        have hmul := Nat.mul_le_mul_right (5 * (job.ops k).length + 3)
          (by have := hturns.more k hf; omega : len - ((s.proc k).off + nbytes c len (s.proc k).off) + 1 ≤
            len - (s.proc k).off)
        simp only [Proc.cost, Proc.arrive, ha, hf, hrest, Act.cost, Phase.cost, List.length_nil] at hle
        rw [Nat.add_mul] at hmul
        omega
      | cons o rest =>
        cases o with
        | send i => exact .send hf (.inl ha) hrest (h.live_ne hmax hturns hs hf ha hrest)
        | recv =>
          cases hq : s.queue k with
          | nil => exact .recv hf ha hrest hq
          | cons m q =>
            have hle := h.act_le (k := k) (a := .reading m)
              (Reachable.refl.snoc (.receive hf ha hrest hq)) rfl
            rw [ha] at hle
            simp [Act.cost] at hle

theorem Plan.send_not_mem (P : Plan job len) {rest : List (Op n)} (h : .recv :: rest <:+ P.tail k) :
    .send i ∉ .recv :: rest := by
  rcases List.suffix_or_suffix_of_suffix h (List.suffix_append _ _) with hrecv | ⟨l, hl⟩
  · intro hmem
    exact absurd (List.eq_of_mem_replicate (hrecv.subset hmem)) nofun
  · cases l with
    | nil =>
      rw [← hl]
      simp
    | cons o l =>
      obtain ⟨q, hq⟩ := h
      rw [← hl, ← List.append_assoc] at hq
      have hsends : .recv ∈ (P.targets k).map Op.send := by
        rw [← List.append_cancel_right hq]
        rw [List.cons_append] at hl
        cases hl
        simp
      simp at hsends

section Deadlock

/-- The chunk that `k` is at is one that no process has yet to come to. -/
def State.Last (s : State n α) (k : Fin n) : Prop := ∀ j, (s.proc k).off ≤ (s.proc j).off

/-- A process at the last chunk is in the loop, as long as not all are done. -/
theorem body_of_last (hturns : Turns c P s) (hw : ∀ k, Waits s k)
    (hnot : ∃ k, (s.proc k).phase ≠ .done) (hk : s.Last k) : (s.proc k).phase = .body := by
  cases hw k with
  | send hbody _ _ _ => exact hbody
  | recv hbody _ _ _ => exact hbody
  | barrier _ hlow =>
    obtain ⟨j, hj⟩ := hlow
    exact absurd (hk j) (not_le.2 hj)
  | done hdone =>
    have hlen := hturns.ended k hdone
    have hall : ∀ j, (s.proc j).off = len := fun j =>
      Nat.le_antisymm (hturns.bound j) (hlen ▸ hk j)
    obtain ⟨j, hj⟩ := hnot
    cases hw j with
    | done hdone => exact absurd hdone hj
    | barrier _ hlow =>
      obtain ⟨i, hi⟩ := hlow
      rw [hall, hall] at hi
      exact absurd hi (lt_irrefl _)
    | send hbody _ _ _ | recv hbody _ _ _ =>
      have := hturns.more j hbody
      rw [hall] at this
      exact absurd this (lt_irrefl _)

/-- Nothing is kept by a process that waits. -/
theorem kept_of_waits (hturns : Turns c P s) (hw : Waits s k) : (s.proc k).act.kept = [] := by
  have hfull := hturns.full k
  cases hw with
  | done hf | barrier hf _ =>
    rw [(hfull (by rw [hf]; nofun)).2.1]
    rfl
  | send _ hact _ _ =>
    rcases hact with hact | hact <;> rw [hact] <;> rfl
  | recv _ hact _ _ =>
    rw [hact]
    rfl

/-- No process at the last chunk waits for one of its blocks. -/
theorem recv_of_last (hturns : Turns c P s) (hs : Blocks c P src s) (hw : ∀ k, Waits s k)
    (hnot : ∃ k, (s.proc k).phase ≠ .done) (hk : s.Last k) :
    ∃ rest, (s.proc k).rest = .recv :: rest ∧ s.senders k = (s.proc k).got := by
  induction hv : k.val using Nat.strong_induction_on generalizing k with
  | _ v ih =>
    subst hv
    have hbody := body_of_last hturns hw hnot hk
    cases hw k with
    | done hf =>
      rw [hbody] at hf
      cases hf
    | barrier hf _ =>
      rw [hbody] at hf
      cases hf
    | @recv rest _ hact hrest hq =>
      refine ⟨rest, hrest, ?_⟩
      rw [State.senders, State.pending, hact, hq]
      rfl
    | @send i rest _ hact hrest hlive =>
      exfalso
      obtain ⟨⟨p, l⟩, hp⟩ := List.exists_mem_of_ne_nil _ hlive
      rcases hs.used k p l hp with hpage | ⟨r, m, hm, rfl, -⟩
      · rcases hact with hact | hact <;> rw [hact] at hpage <;> cases hpage
      -- The block is on the queue of `r`, which has come to its turns that send.
      · rw [State.held, kept_of_waits hturns (hw r), List.nil_append] at hm
        have hpend : m.sender ∈ (s.pending r).map Message.sender :=
          List.mem_map_of_mem (List.mem_append_right _ hm)
        obtain ⟨htarget, hsent⟩ := (hturns.sent m.sender r).1 (List.mem_append_left _ hpend)
        obtain ⟨hoff, -⟩ := hsent.resolve_left (not_lt.2 (hk r))
        have hr : s.Last r := fun j => hoff ▸ hk j
        have hgot : m.sender ∉ (s.proc r).got := by
          have hnodup := hturns.nodup r
          unfold State.senders at hnodup
          rw [List.nodup_append] at hnodup
          exact fun hmem => hnodup.2.2 _ hpend _ hmem rfl
        rcases lt_trichotomy r m.sender with hlt | heq | hlt
        · obtain ⟨rest', -, hsame⟩ := ih r hlt hr rfl
          refine hgot (hsame ▸ ?_)
          exact List.mem_append_left _ hpend
        · exact P.other r (heq ▸ htarget)
        · cases hw r with
          | done hf | barrier hf _ =>
            rw [body_of_last hturns hw hnot hr] at hf
            cases hf
          | recv _ _ _ hq =>
            rw [hq] at hm
            cases hm
          | @send i' rest' _ _ hrest' _ =>
            have hne : P.targets r ≠ [] := by
              refine List.ne_nil_of_mem (a := i') ?_
              refine Plan.mem_ops.1 ((hturns.suffix r).subset ?_)
              rw [hrest']
              exact List.mem_cons_self
            exact hgot (hturns.early m.sender r hne (hturns.started_of_send hrest') hlt htarget)

/-- A sender that has come to its turns that send is past them when it waits at a turn to receive. -/
theorem sent_of_started (hturns : Turns c P s) (hk : s.Last k) (hj : k ∈ P.targets j)
    (hlow : s.Last j → P.Started (s.proc j) j ∧ ∃ rest, (s.proc j).rest = .recv :: rest) :
    j ∈ s.senders k := by
  rw [hturns.sent]
  refine ⟨hj, ?_⟩
  rcases (hk j).lt_or_eq with hlt | heq
  · exact .inl hlt
  · obtain ⟨hstarted, rest, hrest⟩ := hlow fun i => heq ▸ hk i
    have htail := P.rest_of_started (hturns.suffix j) hstarted
    rw [hrest] at htail ⊢
    exact .inr ⟨heq.symm, P.send_not_mem htail⟩

/-- All that are to send at the last chunk have come to that. -/
theorem started_of_last (hturns : Turns c P s) (hs : Blocks c P src s) (hw : ∀ k, Waits s k)
    (hnot : ∃ k, (s.proc k).phase ≠ .done) (hk : s.Last k) (hne : P.targets k ≠ []) :
    P.Started (s.proc k) k := by
  induction hv : k.val using Nat.strong_induction_on generalizing k with
  | _ v ih =>
    subst hv
    by_contra hstarted
    obtain ⟨r, hr, hrest⟩ := P.rest_of_not_started (hturns.suffix k) hstarted
    obtain ⟨-, -, hgot⟩ := recv_of_last hturns hs hw hnot hk
    have hcount := hturns.count k
    rw [hrest, List.count_append, List.count_replicate_self, P.count_tail] at hcount
    have hrecvs := P.recvs k
    have hsub : (Finset.univ.filter fun j => j < k ∧ k ∈ P.targets j) ⊆ (s.proc k).got.toFinset := by
      intro j hj
      obtain ⟨-, hlt, hj⟩ := Finset.mem_filter.1 hj
      rw [List.mem_toFinset, ← hgot]
      refine sent_of_started hturns hk hj fun hlast => ?_
      obtain ⟨rest, hrecv, -⟩ := recv_of_last hturns hs hw hnot hlast
      exact ⟨ih j hlt hlast (List.ne_nil_of_mem hj) rfl, rest, hrecv⟩
    have hle := (Finset.card_le_card hsub).trans (List.toFinset_card_le _)
    rw [← P.early k hne] at hle
    unfold Plan.sources at hcount
    omega

/-- As long as not all are done, some process can go on. -/
theorem not_stuck (hmax : 0 < c.maxPayload) (hturns : Turns c P s) (hs : Blocks c P src s)
    (hnot : ∃ k, (s.proc k).phase ≠ .done) : ¬Stuck c job len src s := by
  intro h
  have hw := h.waits hmax hturns hs
  obtain ⟨i, hi⟩ := hnot
  have : Nonempty (Fin n) := ⟨i⟩
  obtain ⟨k, hk⟩ := Finite.exists_min fun k => (s.proc k).off
  obtain ⟨rest, hrest, hgot⟩ := recv_of_last hturns hs hw ⟨i, hi⟩ hk
  have hcount := hturns.count k
  rw [hrest, List.count_cons_self] at hcount
  have hsub : P.sources k ⊆ (s.proc k).got.toFinset := by
    intro j hj
    have hj := (Finset.mem_filter.1 hj).2
    rw [List.mem_toFinset, ← hgot]
    refine sent_of_started hturns hk hj fun hlast => ?_
    obtain ⟨rest, hrecv, -⟩ := recv_of_last hturns hs hw ⟨i, hi⟩ hlast
    exact ⟨started_of_last hturns hs hw ⟨i, hi⟩ hlast (List.ne_nil_of_mem hj), rest, hrecv⟩
  have hle := (Finset.card_le_card hsub).trans (List.toFinset_card_le _)
  omega

end Deadlock

/-- From every state a run leads to one where all are done. -/
theorem finishes (hmax : 0 < c.maxPayload) (hturns : Turns c P s) (hs : Blocks c P src s) :
    ∃ t, Reachable (Step c job len src) s t ∧ ∀ k, (t.proc k).phase = .done := by
  induction hv : s.cost job len using Nat.strong_induction_on generalizing s with
  | _ v ih =>
    by_cases hnot : ∃ k, (s.proc k).phase ≠ .done
    · have hstuck := not_stuck hmax hturns hs hnot
      simp only [Stuck, not_forall, not_le] at hstuck
      obtain ⟨u, hu, hlt⟩ := hstuck
      obtain ⟨hturns', hs'⟩ := inv_reach hmax hu ⟨hturns, hs⟩
      obtain ⟨t, ht, hdone⟩ := ih _ (hv ▸ hlt) hturns' hs' rfl
      exact ⟨t, hu.trans ht, hdone⟩
    · exact ⟨s, .refl, fun k => by_contra fun hk => hnot ⟨k, hk⟩⟩

/-- What holds in every run of a collective: who is done has the data that it is to have, what a
process has yet to read is the chunk that was sent to it, in a block of its own, apart from every block
that is being filled, and from every state all can be done. -/
structure Delivers (c : NetConfig) (job : Job n) (len : Nat) (src : Fin n → Nat → α)
    (placed : Fin n → (Nat → α) → Prop) (s : State n α) : Prop where
  placed : ∀ k, (s.proc k).phase = .done → placed k (s.proc k).dst
  intact : ∀ k, ∀ m ∈ s.pending k, m.len = nbytes c len (s.proc k).off ∧
    ∀ a < m.len, s.block m.sender m.page a = src m.sender ((s.proc k).off + a)
  apart : ∀ j p, (s.proc j).act.page = some p → ∀ k, ∀ m ∈ s.pending k, m.sender = j →
    p + c.needed (nbytes c len (s.proc j).off) ≤ m.page ∨ m.page + c.needed m.len ≤ p
  ends : ∃ t, Reachable (Step c job len src) s t ∧ ∀ k, (t.proc k).phase = .done

theorem delivers (hmax : 0 < c.maxPayload) (P : Plan job len) (hs : Start c job s)
    (ht : Reachable (Step c job len src) s t) {placed : Fin n → (Nat → α) → Prop}
    (hplaced : ∀ k dst, (∀ j, k ∈ P.targets j → ∀ a < len, dst (job.stride * j + a) = src j a) →
      (∀ d, job.own k = some d → ∀ a < len, dst (d + a) = src k a) → placed k dst) :
    Delivers c job len src placed t := by
  obtain ⟨hturns, hblocks⟩ := inv_reach hmax ht ⟨turns_start P hs, blocks_start P hs⟩
  refine ⟨fun k hk => ?_, hblocks.chunk, fun j p hp k m hm hj => ?_, finishes hmax hturns hblocks⟩
  · refine hplaced k _ (fun j hj a ha => ?_) fun d hd => hblocks.own k d hk hd
    refine hblocks.data j k hj a ?_
    rw [hturns.ended k hk]
    exact Nat.lt_add_right _ ha
  · obtain ⟨hlive, hne⟩ := hblocks.mine j p hp
    have hheld := State.held_of_pending hm
    have hmlive := hblocks.live k m hheld
    rw [hj] at hmlive
    have hlp := (hblocks.alloc j).live _ _ hlive
    have hlm := (hblocks.alloc j).live _ _ hmlive
    have hdisj := (hblocks.alloc j).tiles.disjoint hlp.boundary hlm.boundary (hne k m hheld hj).symm
    rw [hlp.length, hlm.length] at hdisj
    exact hdisj

theorem maxPayload_pos (h : c.header < c.blockSize) : 0 < c.maxPayload := by
  have := NetConfig.le_roundUp c.pageShift c.blockSize
  unfold NetConfig.maxPayload NetConfig.allocMaxSz
  omega

/-- The three collectives, for every number of processes, every length and every order of steps. -/
theorem bootstrap_delivers (h : c.header < c.blockSize) (root : Fin n) (src : Fin n → Nat → α) :
    (∀ s t, Start c (exchange n len) s → Reachable (Step c (exchange n len) len src) s t →
      Delivers c (exchange n len) len src
        (fun _ dst => ∀ j : Fin n, ∀ a < len, dst (len * j + a) = src j a) t) ∧
    (∀ s t, Start c (gather len root) s → Reachable (Step c (gather len root) len src) s t →
      Delivers c (gather len root) len src
        (fun k dst => k = root → ∀ j : Fin n, ∀ a < len, dst (len * j + a) = src j a) t) ∧
    ∀ s t, Start c (broadcast root) s → Reachable (Step c (broadcast root) len src) s t →
      Delivers c (broadcast root) len src (fun _ dst => ∀ a < len, dst a = src root a) t := by
  have hmax := maxPayload_pos h
  refine ⟨fun s t hs ht => ?_, fun s t hs ht => ?_, fun s t hs ht => ?_⟩
  · refine delivers hmax (exchangePlan n len) hs ht fun k dst hdata hown j a ha => ?_
    by_cases hj : j = k
    · subst hj
      rw [Nat.mul_comm]
      exact hown _ rfl a ha
    · exact hdata j (mem_peers.2 (Ne.symm hj)) a ha
  · refine delivers hmax (gatherPlan len root) hs ht fun k dst hdata hown hk j a ha => ?_
    subst hk
    by_cases hj : j = k
    · subst hj
      rw [Nat.mul_comm]
      exact hown _ (if_pos rfl) a ha
    · refine hdata j ?_ a ha
      simp [gatherPlan, hj]
  · refine delivers hmax (broadcastPlan len root) hs ht fun k dst hdata hown a ha => ?_
    by_cases hk : k = root
    · subst hk
      have hplace := hown 0 (if_pos rfl) a ha
      rwa [Nat.zero_add] at hplace
    · have hplace := hdata root (by simp [broadcastPlan, mem_peers, hk]) a ha
      rwa [show (broadcast root : Job n).stride * root + a = a from by simp [broadcast]] at hplace

/-- The state of three processes before an exchange. -/
def exampleStart (len : Nat) : State 3 Nat where
  proc k := ⟨.test, 0, (exchange 3 len).ops k, .idle, fun _ => 0, []⟩
  queue _ := []
  alloc _ := Allocator.initial Allocator.exampleConfig
  block _ _ _ := 0

theorem example_start (len : Nat) : Start Allocator.exampleConfig (exchange 3 len) (exampleStart len) :=
  ⟨fun _ => ⟨rfl, rfl, rfl, rfl, rfl⟩, fun _ => rfl, fun _ => .refl, fun _ => rfl, fun _ => rfl⟩

/-- Three processes exchange data that needs two chunks. -/
theorem bootstrap_delivers_three : nbytes Allocator.exampleConfig 100000 0 < 100000 ∧
    ∃ t : State 3 Nat, ∀ k, (t.proc k).phase = .done ∧
      ∀ j : Fin 3, ∀ a < 100000, (t.proc k).dst (100000 * j + a) = 10 * j + a := by
  refine ⟨by decide, ?_⟩
  have hall := (@bootstrap_delivers 3 100000 Nat Allocator.exampleConfig
    (by decide) 0 fun j a => 10 * j + a).1 (exampleStart 100000)
  obtain ⟨t, ht, hdone⟩ := (hall _ (example_start _) .refl).ends
  exact ⟨t, fun k => ⟨hdone k, (hall t (example_start _) ht).placed k (hdone k)⟩⟩

end Bootstrap
end Gasnet.Pshm
