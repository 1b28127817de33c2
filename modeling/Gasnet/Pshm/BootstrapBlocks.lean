import Gasnet.Pshm.BootstrapRuns

/-! What is in the blocks and in the destinations of a bootstrap collective. -/
namespace Gasnet.Pshm

namespace Allocator

variable {c : NetConfig} {s t : Allocator} {x : AllocatorAction} {p : Nat}

theorem live_step (h : AllocatorStep c s x t) (htake : ∀ p, x ≠ .take p) (hfree : ∀ p, x ≠ .free p) :
    t.live = s.live := by
  cases h with
  | busy _ _ | stop _ _ _ => exact (leave_fields _ _ _ _ _).2.2
  | take _ _ => exact absurd rfl (htake _)
  | free _ => exact absurd rfl (hfree _)
  | _ => rfl

theorem live_take (h : AllocatorStep c s (.take p) t) (hs : s.Inv c) :
    t.search = .idle ∧ (∃ l, s.search.request = some l ∧ t.live = (p, l) :: s.live) ∧
      ∀ l, (p, l) ∉ s.live := by
  have ht := inv_step h hs
  cases h with
  | @take nbytes curr remain length hc hl =>
    have hlive : (s.take c nbytes p length).live = (p, nbytes) :: s.live := by
      simp only [take]
    refine ⟨rfl, ⟨nbytes, ?_, hlive⟩, fun l hmem => ?_⟩
    · rw [hc]
      rfl
    · have hnodup := ht.nodup
      rw [hlive, List.map_cons, List.nodup_cons] at hnodup
      exact hnodup.1 (List.mem_map.2 ⟨_, hmem, rfl⟩)

theorem request_alloc {nbytes : Nat} (h : AllocatorStep c s (.alloc nbytes) t) :
    t.search.request = some nbytes := by
  cases h with
  | alloc _ _ => rfl

theorem request_none : t.search.request = none ↔ t.search = .idle := by
  cases ht : t.search <;> simp [Search.request]

end Allocator

namespace Bootstrap

variable {n len : Nat} {α : Type*} {c : NetConfig} {job : Job n} {src : Fin n → Nat → α}
  {s t : State n α} {i j k : Fin n} {m : Message n} {P : Plan job len}

theorem copyTo_in {mem data : Nat → α} {d l a : Nat} (ha : a < l) :
    copyTo mem d l data (d + a) = data a := by
  rw [copyTo, if_pos ⟨Nat.le_add_right d a, Nat.add_lt_add_left ha d⟩, Nat.add_sub_cancel_left]

theorem copyTo_out {mem data : Nat → α} {d l x : Nat} (h : ∀ b < l, x ≠ d + b) :
    copyTo mem d l data x = mem x := by
  refine if_neg ?_
  rintro ⟨h₁, h₂⟩
  exact h (x - d) (by omega) (by omega)

/-- The places of two ranks do not overlap. -/
theorem stride_apart {stride a b : Nat} (hij : i ≠ j) (hlen : len ≤ stride) (ha : a < len)
    (hb : b < len) : stride * i + a ≠ stride * j + b := by
  rcases lt_or_gt_of_ne hij with h | h
  · have := Nat.mul_le_mul_left stride (Nat.succ_le_of_lt (Fin.lt_def.1 h))
    rw [Nat.succ_eq_add_one, Nat.mul_add, Nat.mul_one] at this
    omega
  · have := Nat.mul_le_mul_left stride (Nat.succ_le_of_lt (Fin.lt_def.1 h))
    rw [Nat.succ_eq_add_one, Nat.mul_add, Nat.mul_one] at this
    omega

/-- A block that a process has taken from its queue and not released. -/
def Act.kept : Act n → List (Message n)
  | .reading m | .releasing m => [m]
  | _ => []

/-- A block that a process has got and not delivered. -/
def Act.page : Act n → Option Nat
  | .filling p | .filled p => some p
  | _ => none

/-- What a process has asked its allocator for. -/
def Act.asks (nbytes : Nat) : Act n → Option Nat
  | .searching => some nbytes
  | _ => none

/-- The blocks that were delivered to `k` and not released. -/
def State.held (s : State n α) (k : Fin n) : List (Message n) := (s.proc k).act.kept ++ s.queue k

theorem State.held_of_pending (h : m ∈ s.pending k) : m ∈ s.held k := by
  unfold pending at h
  unfold held
  cases ha : (s.proc k).act <;> rw [ha] at h <;> first | exact h | exact List.mem_append_right _ h

/-- Two blocks at one process come from two senders. -/
theorem Turns.held_nodup (h : Turns c P s) (k : Fin n) :
    ((s.held k).map Message.sender).Nodup := by
  have hnodup := h.nodup k
  have hturn := h.turn k
  unfold State.senders State.pending at hnodup
  unfold State.held
  unfold Proc.Turn at hturn
  cases ha : (s.proc k).act with
  | releasing m =>
    rw [ha] at hnodup hturn
    rw [List.nodup_append] at hnodup
    refine List.nodup_cons.2 ⟨fun hmem => ?_, hnodup.1⟩
    exact hnodup.2.2 _ hmem _ hturn.2 rfl
  | _ =>
    rw [ha] at hnodup
    exact (List.nodup_append.1 hnodup).1

structure Blocks (c : NetConfig) (P : Plan job len) (src : Fin n → Nat → α) (s : State n α) :
    Prop where
  alloc : ∀ j, (s.alloc j).Inv c
  search : ∀ j, (s.alloc j).search.request = (s.proc j).act.asks (nbytes c len (s.proc j).off)
  mine : ∀ j p, (s.proc j).act.page = some p →
    (p, nbytes c len (s.proc j).off) ∈ (s.alloc j).live ∧ ∀ k, ∀ m ∈ s.held k, m.sender = j → m.page ≠ p
  live : ∀ k, ∀ m ∈ s.held k, (m.page, m.len) ∈ (s.alloc m.sender).live
  unique : ∀ i k, ∀ m ∈ s.held i, ∀ m' ∈ s.held k, m.sender = m'.sender → m.page = m'.page → i = k
  used : ∀ j p l, (p, l) ∈ (s.alloc j).live → (s.proc j).act.page = some p ∨
    ∃ k, ∃ m ∈ s.held k, m.sender = j ∧ m.page = p
  filled : ∀ j p, (s.proc j).act = .filled p → ∀ a < nbytes c len (s.proc j).off,
    s.block j p a = src j ((s.proc j).off + a)
  chunk : ∀ k, ∀ m ∈ s.pending k, m.len = nbytes c len (s.proc k).off ∧
    ∀ a < m.len, s.block m.sender m.page a = src m.sender ((s.proc k).off + a)
  data : ∀ j k, k ∈ P.targets j → ∀ a,
    a < (s.proc k).off + (if j ∈ (s.proc k).got then nbytes c len (s.proc k).off else 0) →
    (s.proc k).dst (job.stride * j + a) = src j a
  own : ∀ k d, (s.proc k).phase = .done → job.own k = some d → ∀ a < len,
    (s.proc k).dst (d + a) = src k a

/-- A process is as far as before. -/
structure Proc.Alike (p q : Proc n α) : Prop where
  off : p.off = q.off
  got : p.got = q.got
  dst : p.dst = q.dst
  done : p.phase = .done → q.phase = .done

/-- What holds of `k`, and of the others as before. -/
theorem forall_of_ne (k : Fin n) {Q : Fin n → Prop} (hself : Q k) (hother : ∀ j, j ≠ k → Q j) : ∀ j, Q j := by
  intro j
  by_cases hj : j = k
  · exact hj ▸ hself
  · exact hother j hj

theorem same_of {β : Type*} (f : Proc n α → β) (hother : ∀ j, j ≠ k → t.proc j = s.proc j)
    (hself : f (t.proc k) = f (s.proc k)) : ∀ j, f (t.proc j) = f (s.proc j) :=
  forall_of_ne k hself fun j hj => congrArg f (hother j hj)

theorem Proc.alike_of (hother : ∀ j, j ≠ k → t.proc j = s.proc j) (hself : (t.proc k).Alike (s.proc k)) :
    ∀ j, (t.proc j).Alike (s.proc j) := by
  refine forall_of_ne k hself fun j hj => ?_
  rw [hother j hj]
  exact ⟨rfl, rfl, rfl, id⟩

theorem State.held_same (hother : ∀ j, j ≠ k → t.proc j = s.proc j)
    (hself : (t.proc k).act.kept = (s.proc k).act.kept) (hqueue : t.queue = s.queue) :
    ∀ j, t.held j = s.held j := by
  intro j
  rw [State.held, State.held, same_of (fun p => p.act.kept) hother hself, hqueue]

theorem State.pending_same (hother : ∀ j, j ≠ k → t.proc j = s.proc j)
    (hself : (t.proc k).act.hand = (s.proc k).act.hand) (hqueue : t.queue = s.queue) :
    ∀ j, t.pending j = s.pending j := by
  intro j
  rw [State.pending, State.pending, same_of (fun p => p.act.hand) hother hself, hqueue]

/-- The destinations of processes that are as far as before. -/
theorem Blocks.data_alike (h : Blocks c P src s) (halike : ∀ j, (t.proc j).Alike (s.proc j)) :
    (∀ j k, k ∈ P.targets j → ∀ a,
      a < (t.proc k).off + (if j ∈ (t.proc k).got then nbytes c len (t.proc k).off else 0) →
      (t.proc k).dst (job.stride * j + a) = src j a) ∧
    ∀ k d, (t.proc k).phase = .done → job.own k = some d → ∀ a < len, (t.proc k).dst (d + a) = src k a := by
  constructor
  · intro j k hk a
    rw [(halike k).off, (halike k).got, (halike k).dst]
    exact h.data j k hk a
  · intro k d hk
    rw [(halike k).dst]
    exact h.own k d ((halike k).done hk)

/-- The blocks do not see where the processes are, or what the allocators look at. -/
theorem Blocks.congr (h : Blocks c P src s) (hinv : ∀ j, (t.alloc j).Inv c)
    (hlive : ∀ j, (t.alloc j).live = (s.alloc j).live)
    (hsearch : ∀ j, (t.alloc j).search.request = (t.proc j).act.asks (nbytes c len (t.proc j).off))
    (hpage : ∀ j, (t.proc j).act.page = (s.proc j).act.page)
    (hfilled : ∀ j p, (t.proc j).act = .filled p → (s.proc j).act = .filled p)
    (hheld : ∀ j, t.held j = s.held j) (hpend : ∀ j, t.pending j = s.pending j)
    (hblock : t.block = s.block) (halike : ∀ j, (t.proc j).Alike (s.proc j)) : Blocks c P src t := by
  have hoff := fun j => (halike j).off
  refine ⟨hinv, hsearch, fun j p hp => ?_, fun k m hm => ?_, fun i k m hm m' hm' => ?_,
    fun j p l hl => ?_, fun j p hp => ?_, fun k m hm => ?_, (h.data_alike halike).1, (h.data_alike halike).2⟩
  · rw [hpage] at hp
    rw [hlive, hoff]
    simp only [hheld]
    exact h.mine j p hp
  · rw [hheld] at hm
    rw [hlive]
    exact h.live k m hm
  · rw [hheld] at hm hm'
    exact h.unique i k m hm m' hm'
  · rw [hlive] at hl
    rw [hpage]
    simp only [hheld]
    exact h.used j p l hl
  · rw [hblock, hoff]
    exact h.filled j p (hfilled j p hp)
  · rw [hpend] at hm
    rw [hblock, hoff]
    exact h.chunk k m hm

/-- A step of `k` in its allocator, or to another act with the same blocks. -/
theorem Blocks.setAct (h : Blocks c P src s) (act : Act n) (a : Allocator) (hinv : a.Inv c)
    (hlive : a.live = (s.alloc k).live) (hsearch : a.search.request = act.asks (nbytes c len (s.proc k).off))
    (hkept : act.kept = (s.proc k).act.kept) (hhand : act.hand = (s.proc k).act.hand)
    (hpage : act.page = (s.proc k).act.page)
    (hfilled : ∀ p, act = .filled p → (s.proc k).act = .filled p)
    (hproc : t.proc = (s.setAct k act).proc) (halloc : t.alloc = (s.setAlloc k a).alloc)
    (hqueue : t.queue = s.queue) (hblock : t.block = s.block) : Blocks c P src t := by
  have hself : t.proc k = { s.proc k with act := act } := by
    rw [hproc]
    exact setProc_proc
  have hother : ∀ j, j ≠ k → t.proc j = s.proc j := fun j hj => by
    rw [hproc]
    exact setProc_other hj
  have haself : t.alloc k = a := by
    rw [halloc]
    exact Function.update_self _ _ _
  have haother : ∀ j, j ≠ k → t.alloc j = s.alloc j := fun j hj => by
    rw [halloc]
    exact Function.update_of_ne hj _ _
  have hheld := State.held_same hother (by rw [hself]; exact hkept) hqueue
  have hpend := State.pending_same hother (by rw [hself]; exact hhand) hqueue
  refine h.congr (forall_of_ne k ?_ fun j hj => ?_) (forall_of_ne k ?_ fun j hj => ?_)
    (forall_of_ne k ?_ fun j hj => ?_) (same_of (fun p => p.act.page) hother ?_) (fun j p hp => ?_) hheld hpend hblock
    (Proc.alike_of hother (hself ▸ ⟨rfl, rfl, rfl, id⟩))
  · rw [haself]
    exact hinv
  · rw [haother j hj]
    exact h.alloc j
  · rw [haself]
    exact hlive
  · rw [haother j hj]
  · rw [hself, haself]
    exact hsearch
  · rw [hother j hj, haother j hj]
    exact h.search j
  · rw [hself]
    exact hpage
  · by_cases hjk : j = k
    · rw [hjk] at hp ⊢
      rw [hself] at hp
      exact hfilled p hp
    · rwa [hother j hjk] at hp

theorem Blocks.setPhase (h : Blocks c P src s) (f : Phase) (hf : f ≠ .done) :
    Blocks c P src (s.setPhase k f) := by
  have hself : (s.setPhase k f).proc k = { s.proc k with phase := f } := setProc_proc
  have hother : ∀ j, j ≠ k → (s.setPhase k f).proc j = s.proc j := fun j hj => setProc_other hj
  have hact := same_of Proc.act hother (by rw [hself])
  have hoff := same_of Proc.off hother (by rw [hself])
  have hheld := State.held_same hother (by rw [hself]) rfl
  have hpend := State.pending_same hother (by rw [hself]) rfl
  refine h.congr h.alloc (fun _ => rfl) (fun j => ?_) (fun j => ?_) (fun j p => ?_) hheld hpend rfl
    (Proc.alike_of hother (hself ▸ ⟨rfl, rfl, rfl, fun hdone => absurd hdone hf⟩))
  · rw [hact, hoff]
    exact h.search j
  · rw [hact]
  · rw [hact]
    exact id

/-- The block comes from the queue. -/
theorem Blocks.receive (h : Blocks c P src s) {q : List (Message n)}
    (hidle : (s.proc k).act = .idle) (hq : s.queue k = m :: q) :
    Blocks c P src ((s.setQueue k q).setAct k (.reading m)) := by
  set t := (s.setQueue k q).setAct k (.reading m) with ht
  have hself : t.proc k = { s.proc k with act := .reading m } := setProc_proc
  have hother : ∀ j, j ≠ k → t.proc j = s.proc j := fun j hj => setProc_other hj
  have hqself : t.queue k = q := Function.update_self _ _ _
  have hqother : ∀ j, j ≠ k → t.queue j = s.queue j := fun j hj => Function.update_of_ne hj _ _
  refine h.congr h.alloc (fun _ => rfl) (forall_of_ne k ?_ fun j hj => ?_) (same_of (fun p => p.act.page) hother ?_)
    (fun j p hp => ?_) (forall_of_ne k ?_ fun j hj => ?_) (forall_of_ne k ?_ fun j hj => ?_) rfl
    (Proc.alike_of hother (hself ▸ ⟨rfl, rfl, rfl, id⟩))
  · have hsearch := h.search k
    rw [hidle] at hsearch
    rw [hself]
    exact hsearch
  · rw [hother j hj]
    exact h.search j
  · rw [hself, hidle]
    rfl
  · by_cases hjk : j = k
    · rw [hjk, hself] at hp
      cases hp
    · rwa [hother j hjk] at hp
  · rw [State.held, State.held, hself, hqself, hidle, hq]
    rfl
  · rw [State.held, State.held, hother j hj, hqother j hj]
  · rw [State.pending, State.pending, hself, hqself, hidle, hq]
    rfl
  · rw [State.pending, State.pending, hother j hj, hqother j hj]

/-- The allocator gives `k` a block that no one has. -/
theorem Blocks.granted (h : Blocks c P src s) {p : Nat} {a : Allocator}
    (hact : (s.proc k).act = .searching) (hstep : AllocatorStep c (s.alloc k) (.take p) a) :
    Blocks c P src ((s.setAlloc k a).setAct k (.filling p)) := by
  obtain ⟨hidle, ⟨l, hl, hlive⟩, hnew⟩ := Allocator.live_take hstep (h.alloc k)
  obtain rfl : l = nbytes c len (s.proc k).off := by
    have hsearch := h.search k
    rw [hact, hl] at hsearch
    exact Option.some.inj hsearch
  set t := (s.setAlloc k a).setAct k (.filling p) with ht
  have hself : t.proc k = { s.proc k with act := .filling p } := setProc_proc
  have hother : ∀ j, j ≠ k → t.proc j = s.proc j := fun j hj => setProc_other hj
  have haself : t.alloc k = a := Function.update_self _ _ _
  have haother : ∀ j, j ≠ k → t.alloc j = s.alloc j := fun j hj => Function.update_of_ne hj _ _
  have hold : ∀ j q l, (q, l) ∈ (s.alloc j).live → (q, l) ∈ (t.alloc j).live := by
    intro j q l hq
    by_cases hj : j = k
    · rw [hj] at hq ⊢
      rw [haself, hlive]
      exact List.mem_cons_of_mem _ hq
    · rwa [haother j hj]
  have hheld := State.held_same hother (by rw [hself, hact]; rfl) rfl
  have hpend := State.pending_same hother (by rw [hself, hact]; rfl) rfl
  have halike := Proc.alike_of hother (hself ▸ ⟨rfl, rfl, rfl, id⟩)
  refine ⟨fun j => ?_, fun j => ?_, fun j q hq => ?_, fun i m hm => ?_, fun i j m hm m' hm' => ?_,
    fun j q l hq => ?_, fun j q hq => ?_, fun i m hm => ?_, (h.data_alike halike).1,
    (h.data_alike halike).2⟩
  · by_cases hj : j = k
    · rw [hj, haself]
      exact Allocator.inv_step hstep (h.alloc k)
    · rw [haother j hj]
      exact h.alloc j
  · by_cases hj : j = k
    · rw [hj, hself, haself]
      exact Allocator.request_none.2 hidle
    · rw [hother j hj, haother j hj]
      exact h.search j
  · simp only [hheld]
    by_cases hj : j = k
    · rw [hj] at hq ⊢
      rw [hself] at hq
      cases hq
      refine ⟨?_, fun i m hm hsender => ?_⟩
      · rw [hself, haself, hlive]
        exact List.mem_cons_self
      · rintro rfl
        have hl := h.live i m hm
        rw [hsender] at hl
        exact hnew _ hl
    · rw [hother j hj] at hq ⊢
      rw [haother j hj]
      exact h.mine j q hq
  · rw [hheld] at hm
    exact hold _ _ _ (h.live i m hm)
  · rw [hheld] at hm hm'
    exact h.unique i j m hm m' hm'
  · simp only [hheld]
    by_cases hj : j = k
    · rw [hj] at hq ⊢
      rw [haself, hlive, List.mem_cons] at hq
      rcases hq with heq | hq
      · cases heq
        rw [hself]
        exact .inl rfl
      · refine .inr ((h.used k q l hq).resolve_left ?_)
        rw [hact]
        nofun
    · rw [haother j hj] at hq
      rw [hother j hj]
      exact h.used j q l hq
  · by_cases hj : j = k
    · rw [hj, hself] at hq
      cases hq
    · rw [hother j hj] at hq ⊢
      exact h.filled j q hq
  · rw [hpend] at hm
    by_cases hi : i = k
    · rw [hi] at hm ⊢
      rw [hself]
      exact h.chunk k m hm
    · rw [hother i hi]
      exact h.chunk i m hm

/-- The chunk is copied to the block of `k`. -/
theorem Blocks.fill (h : Blocks c P src s) {p : Nat} (hact : (s.proc k).act = .filling p) :
    Blocks c P src ((s.setBlock k p (copyTo (s.block k p) 0 (nbytes c len (s.proc k).off)
      fun a => src k ((s.proc k).off + a))).setAct k (.filled p)) := by
  set data := copyTo (s.block k p) 0 (nbytes c len (s.proc k).off)
    fun a => src k ((s.proc k).off + a) with hdata
  set t := (s.setBlock k p data).setAct k (.filled p) with ht
  have hself : t.proc k = { s.proc k with act := .filled p } := setProc_proc
  have hother : ∀ j, j ≠ k → t.proc j = s.proc j := fun j hj => setProc_other hj
  have hheld := State.held_same hother (by rw [hself, hact]; rfl) rfl
  have hpend := State.pending_same hother (by rw [hself, hact]; rfl) rfl
  have hpage := same_of (fun p => p.act.page) hother (by rw [hself, hact]; rfl)
  have hoff := same_of Proc.off hother (by rw [hself])
  have hblock : ∀ j q, j ≠ k ∨ q ≠ p → t.block j q = s.block j q := by
    intro j q hne
    by_cases hj : j = k
    · rw [hj]
      have hq := hne.resolve_left fun hjk => hjk hj
      show Function.update s.block k (Function.update (s.block k) p data) k q = _
      rw [Function.update_self, Function.update_of_ne hq]
    · show Function.update s.block k (Function.update (s.block k) p data) j q = _
      rw [Function.update_of_ne hj]
  have halike := Proc.alike_of hother (hself ▸ ⟨rfl, rfl, rfl, id⟩)
  refine ⟨h.alloc, fun j => ?_, fun j q hq => ?_, fun i m hm => ?_, fun i j m hm m' hm' => ?_,
    fun j q l hq => ?_, fun j q hq => ?_, fun i m hm => ?_, (h.data_alike halike).1,
    (h.data_alike halike).2⟩
  · by_cases hj : j = k
    · have hsearch := h.search k
      rw [hact] at hsearch
      rw [hj, hself]
      exact hsearch
    · rw [hother j hj]
      exact h.search j
  · rw [hpage] at hq
    rw [hoff]
    simp only [hheld]
    exact h.mine j q hq
  · rw [hheld] at hm
    exact h.live i m hm
  · rw [hheld] at hm hm'
    exact h.unique i j m hm m' hm'
  · rw [hpage]
    simp only [hheld]
    exact h.used j q l hq
  · by_cases hj : j = k
    · rw [hj, hself] at hq
      cases hq
      rw [hj, hself]
      intro a ha
      show Function.update s.block k (Function.update (s.block k) p data) k p a = _
      rw [Function.update_self, Function.update_self, hdata, ← Nat.zero_add a]
      rw [copyTo_in ha]
      simp
    · rw [hother j hj] at hq ⊢
      rw [hblock j q (.inl hj)]
      exact h.filled j q hq
  · rw [hpend] at hm
    have hne : m.sender ≠ k ∨ m.page ≠ p := by
      by_contra hboth
      rw [not_or, not_not, not_not] at hboth
      exact (h.mine k p (by rw [hact]; rfl)).2 i m (State.held_of_pending hm) hboth.1 hboth.2
    rw [hblock _ _ hne]
    by_cases hi : i = k
    · rw [hi] at hm ⊢
      rw [hself]
      exact h.chunk k m hm
    · rw [hother i hi]
      exact h.chunk i m hm

/-- The block of `k` goes to the queue of `i`. -/
theorem Blocks.deliver (h : Blocks c P src s) (hturns : Turns c P s) {p : Nat} {rest : List (Op n)}
    (hact : (s.proc k).act = .filled p) (hrest : (s.proc k).rest = .send i :: rest) :
    Blocks c P src ((s.setQueue i (s.queue i ++ [⟨k, p, nbytes c len (s.proc k).off⟩])).setProc k
      { s.proc k with act := .idle, rest := rest }) := by
  set m : Message n := ⟨k, p, nbytes c len (s.proc k).off⟩ with hm₀
  set t := (s.setQueue i (s.queue i ++ [m])).setProc k { s.proc k with act := .idle, rest := rest }
    with ht
  have hbody : (s.proc k).phase = .body := by
    have hturn := hturns.turn k
    simp only [Proc.Turn, hact] at hturn
    exact hturn.1
  have hlevel := hturns.level hbody hrest
  have hmine := h.mine k p (by rw [hact]; rfl)
  have hself : t.proc k = { s.proc k with act := .idle, rest := rest } := setProc_proc
  have hother : ∀ j, j ≠ k → t.proc j = s.proc j := fun j hj => setProc_other hj
  have hqueue : ∀ j, t.queue j = s.queue j ++ if j = i then [m] else [] := by
    intro j
    by_cases hj : j = i
    · rw [if_pos hj, hj]
      exact Function.update_self _ _ _
    · rw [if_neg hj, List.append_nil]
      exact Function.update_of_ne hj _ _
  have hheld : ∀ j x, x ∈ t.held j ↔ x ∈ s.held j ∨ j = i ∧ x = m := by
    intro j x
    have hkept : (t.proc j).act.kept = (s.proc j).act.kept := by
      by_cases hj : j = k
      · rw [hj, hself, hact]
        rfl
      · rw [hother j hj]
    unfold State.held
    rw [hkept, hqueue, ← List.append_assoc, List.mem_append]
    by_cases hj : j = i <;> simp [hj]
  have hpend : ∀ j x, x ∈ t.pending j ↔ x ∈ s.pending j ∨ j = i ∧ x = m := by
    intro j x
    have hhand : (t.proc j).act.hand = (s.proc j).act.hand := by
      by_cases hj : j = k
      · rw [hj, hself, hact]
        rfl
      · rw [hother j hj]
    unfold State.pending
    rw [hhand, hqueue, ← List.append_assoc, List.mem_append]
    by_cases hj : j = i <;> simp [hj]
  have hoff := same_of Proc.off hother (by rw [hself])
  have halike := Proc.alike_of hother (hself ▸ ⟨rfl, rfl, rfl, id⟩)
  refine ⟨h.alloc, fun j => ?_, fun j q hq => ?_, fun a x hx => ?_, fun a b x hx y hy hsender hpage => ?_,
    fun j q l hq => ?_, fun j q hq => ?_, fun j x hx => ?_, (h.data_alike halike).1,
    (h.data_alike halike).2⟩
  · by_cases hj : j = k
    · have hsearch := h.search k
      rw [hact] at hsearch
      rw [hj, hself]
      exact hsearch
    · rw [hother j hj]
      exact h.search j
  · by_cases hj : j = k
    · rw [hj, hself] at hq
      cases hq
    · rw [hother j hj] at hq ⊢
      obtain ⟨hlive, hnot⟩ := h.mine j q hq
      refine ⟨hlive, fun a x hx hsender => ?_⟩
      rcases (hheld a x).1 hx with hold | ⟨-, rfl⟩
      · exact hnot a x hold hsender
      · exact absurd hsender.symm hj
  · rcases (hheld a x).1 hx with hold | ⟨-, rfl⟩
    · exact h.live a x hold
    · exact hmine.1
  · rcases (hheld a x).1 hx with hx | ⟨ha, rfl⟩
    · rcases (hheld b y).1 hy with hy | ⟨-, rfl⟩
      · exact h.unique a b x hx y hy hsender hpage
      · exact absurd hpage (hmine.2 a x hx hsender)
    · rcases (hheld b y).1 hy with hy | ⟨hb, rfl⟩
      · exact absurd hpage.symm (hmine.2 b y hy hsender.symm)
      · rw [ha, hb]
  · by_cases hj : j = k
    · rw [hj] at hq ⊢
      right
      rcases h.used k q l hq with hpage | ⟨a, x, hx, hrest⟩
      · rw [hact] at hpage
        cases hpage
        exact ⟨i, m, (hheld i m).2 (.inr ⟨rfl, rfl⟩), rfl, rfl⟩
      · exact ⟨a, x, (hheld a x).2 (.inl hx), hrest⟩
    · rw [hother j hj]
      rcases h.used j q l hq with hpage | ⟨a, x, hx, hrest⟩
      · exact .inl hpage
      · exact .inr ⟨a, x, (hheld a x).2 (.inl hx), hrest⟩
  · by_cases hj : j = k
    · rw [hj, hself] at hq
      cases hq
    · rw [hother j hj] at hq ⊢
      exact h.filled j q hq
  · rw [hoff]
    rcases (hpend j x).1 hx with hx | ⟨rfl, rfl⟩
    · exact h.chunk j x hx
    · rw [← hlevel]
      exact ⟨rfl, h.filled k p hact⟩

theorem nbytes_le {off : Nat} (h : off ≤ len) : off + nbytes c len off ≤ len := by
  unfold nbytes
  omega

/-- The chunk of one sender is put in its place. -/
theorem Blocks.copy (h : Blocks c P src s) (hturns : Turns c P s) {rest : List (Op n)}
    (hact : (s.proc k).act = .reading m) :
    Blocks c P src (s.setProc k ((s.proc k).receive m
      (copyTo (s.proc k).dst (job.stride * m.sender + (s.proc k).off) m.len
        (s.block m.sender m.page)) rest)) := by
  set dst := copyTo (s.proc k).dst (job.stride * m.sender + (s.proc k).off) m.len
    (s.block m.sender m.page) with hdst
  set t := s.setProc k ((s.proc k).receive m dst rest) with ht
  have hself : t.proc k = (s.proc k).receive m dst rest := setProc_proc
  have hother : ∀ j, j ≠ k → t.proc j = s.proc j := fun j hj => setProc_other hj
  have hheld := State.held_same hother (by rw [hself, hact]; rfl) rfl
  have hpend : ∀ j, ∀ x ∈ t.pending j, x ∈ s.pending j := by
    intro j x
    unfold State.pending
    by_cases hj : j = k
    · rw [hj, hself, hact]
      exact List.mem_cons_of_mem _
    · rw [hother j hj]
      exact id
  have hpage := same_of (fun p => p.act.page) hother (by rw [hself, hact]; rfl)
  have hoff := same_of Proc.off hother (by rw [hself]; rfl)
  have hbody : (s.proc k).phase = .body := by
    have hturn := hturns.turn k
    simp only [Proc.Turn, hact] at hturn
    exact hturn.1
  have hmem : m ∈ s.pending k := by
    unfold State.pending
    rw [hact]
    exact List.mem_cons_self
  obtain ⟨hlen, hchunk⟩ := h.chunk k m hmem
  have hsource : k ∈ P.targets m.sender :=
    ((hturns.sent m.sender k).1 (List.mem_append_left _ (List.mem_map_of_mem hmem))).1
  have hbound := nbytes_le (c := c) (hturns.bound k)
  refine ⟨h.alloc, fun j => ?_, fun j q hq => ?_, fun i x hx => ?_, fun i j x hx y hy => ?_,
    fun j q l hq => ?_, fun j q hq => ?_, fun i x hx => ?_, fun i j hj a ha => ?_, fun j d hj => ?_⟩
  · by_cases hj : j = k
    · have hsearch := h.search k
      rw [hact] at hsearch
      rw [hj, hself]
      exact hsearch
    · rw [hother j hj]
      exact h.search j
  · rw [hpage] at hq
    rw [hoff]
    simp only [hheld]
    exact h.mine j q hq
  · rw [hheld] at hx
    exact h.live i x hx
  · rw [hheld] at hx hy
    exact h.unique i j x hx y hy
  · rw [hpage]
    simp only [hheld]
    exact h.used j q l hq
  · by_cases hj : j = k
    · rw [hj, hself] at hq
      cases hq
    · rw [hother j hj] at hq ⊢
      exact h.filled j q hq
  · have hold := h.chunk i x (hpend i x hx)
    by_cases hi : i = k
    · rw [hi] at hold ⊢
      rw [hself]
      exact hold
    · rw [hother i hi]
      exact hold
  · by_cases hjk : j = k
    · rw [hjk] at hj ha ⊢
      rw [hself] at ha ⊢
      change a < (s.proc k).off + (if i ∈ m.sender :: (s.proc k).got then
        nbytes c len (s.proc k).off else 0) at ha
      show dst (job.stride * i + a) = src i a
      by_cases hi : i = m.sender
      · rw [hi] at ha ⊢
        rw [if_pos List.mem_cons_self] at ha
        by_cases hlow : a < (s.proc k).off
        · rw [hdst, copyTo_out fun b _ => by omega]
          exact h.data m.sender k hsource a (by omega)
        · have hin : a - (s.proc k).off < m.len := by omega
          have hsum : job.stride * m.sender + a =
              job.stride * m.sender + (s.proc k).off + (a - (s.proc k).off) := by omega
          rw [hdst, hsum, copyTo_in hin, hchunk _ hin]
          congr 1
          omega
      · have hstride := P.apart i m.sender k hj hsource hi
        have hle : (s.proc k).off + (if i ∈ m.sender :: (s.proc k).got then
            nbytes c len (s.proc k).off else 0) ≤ len := by
          split <;> omega
        rw [hdst, copyTo_out fun b hb => ?_]
        · refine h.data i k hj a ?_
          simpa [hi] using ha
        · rw [Nat.add_assoc]
          exact stride_apart hi hstride (by omega) (by omega)
    · rw [hother j hjk] at ha ⊢
      exact h.data i j hj a ha
  · by_cases hjk : j = k
    · rw [hjk, hself] at hj
      exact absurd (hbody.symm.trans hj) (by simp)
    · rw [hother j hjk] at hj ⊢
      exact h.own j d hj

/-- A block goes back to its sender. -/
theorem Blocks.release (h : Blocks c P src s) (hturns : Turns c P s)
    (hact : (s.proc k).act = .releasing m) :
    Blocks c P src ((s.setAlloc m.sender ((s.alloc m.sender).free c m.page)).setAct k .idle) := by
  set t := (s.setAlloc m.sender ((s.alloc m.sender).free c m.page)).setAct k .idle with ht
  have hself : t.proc k = { s.proc k with act := .idle } := setProc_proc
  have hother : ∀ j, j ≠ k → t.proc j = s.proc j := fun j hj => setProc_other hj
  have haself : t.alloc m.sender = (s.alloc m.sender).free c m.page := Function.update_self _ _ _
  have haother : ∀ j, j ≠ m.sender → t.alloc j = s.alloc j := fun j hj => Function.update_of_ne hj _ _
  have hkeep : m ∈ s.held k := by
    unfold State.held
    rw [hact]
    exact List.mem_cons_self
  have hl₀ := h.live k m hkeep
  have hheld : ∀ j x, x ∈ t.held j ↔ x ∈ s.held j ∧ ¬(x.sender = m.sender ∧ x.page = m.page) := by
    intro j x
    by_cases hj : j = k
    · subst hj
      have hnodup := hturns.held_nodup j
      unfold State.held at hnodup ⊢
      rw [hself]
      rw [hact] at hnodup ⊢
      have hnot := (List.nodup_cons.1 hnodup).1
      show x ∈ s.queue j ↔ x ∈ m :: s.queue j ∧ _
      constructor
      · intro hx
        refine ⟨List.mem_cons_of_mem _ hx, fun heq => hnot ?_⟩
        exact heq.1 ▸ List.mem_map_of_mem hx
      · rintro ⟨hx, hne⟩
        rcases List.mem_cons.1 hx with rfl | hx
        · exact absurd ⟨rfl, rfl⟩ hne
        · exact hx
    · have hsame : t.held j = s.held j := by
        unfold State.held
        rw [hother j hj]
        rfl
      rw [hsame]
      refine ⟨fun hx => ⟨hx, fun heq => hj ?_⟩, And.left⟩
      exact h.unique j k x hx m hkeep heq.1 heq.2
  have hpend := State.pending_same hother (by rw [hself, hact]; rfl) rfl
  have hpage := same_of (fun p => p.act.page) hother (by rw [hself, hact]; rfl)
  have hoff := same_of Proc.off hother (by rw [hself])
  have hlive : ∀ j q l, (q, l) ∈ (t.alloc j).live ↔
      (q, l) ∈ (s.alloc j).live ∧ ¬(j = m.sender ∧ q = m.page) := by
    intro j q l
    by_cases hj : j = m.sender
    · rw [hj, haself]
      simp [Allocator.free]
    · rw [haother j hj]
      simp [hj]
  have halike := Proc.alike_of hother (hself ▸ ⟨rfl, rfl, rfl, id⟩)
  refine ⟨fun j => ?_, fun j => ?_, fun j q hq => ?_, fun i x hx => ?_, fun i j x hx y hy => ?_,
    fun j q l hq => ?_, fun j q hq => ?_, fun i x hx => ?_, (h.data_alike halike).1,
    (h.data_alike halike).2⟩
  · by_cases hj : j = m.sender
    · rw [hj, haself]
      exact Allocator.inv_step (.free hl₀) (h.alloc m.sender)
    · rw [haother j hj]
      exact h.alloc j
  · have hsearch : (t.alloc j).search = (s.alloc j).search := by
      by_cases hj : j = m.sender
      · rw [hj, haself]
        rfl
      · rw [haother j hj]
    rw [hsearch]
    by_cases hj : j = k
    · have hsearch := h.search k
      rw [hact] at hsearch
      rw [hj, hself]
      exact hsearch
    · rw [hother j hj]
      exact h.search j
  · rw [hpage] at hq
    rw [hoff]
    obtain ⟨hl, hnot⟩ := h.mine j q hq
    refine ⟨(hlive j q _).2 ⟨hl, ?_⟩, fun i x hx => hnot i x ((hheld i x).1 hx).1⟩
    rintro ⟨rfl, rfl⟩
    exact hnot k m hkeep rfl rfl
  · obtain ⟨hx, hne⟩ := (hheld i x).1 hx
    exact (hlive _ _ _).2 ⟨h.live i x hx, hne⟩
  · exact h.unique i j x ((hheld i x).1 hx).1 y ((hheld j y).1 hy).1
  · obtain ⟨hq, hne⟩ := (hlive j q l).1 hq
    rw [hpage]
    refine (h.used j q l hq).imp_right ?_
    rintro ⟨i, x, hx, hsender, hpage⟩
    exact ⟨i, x, (hheld i x).2 ⟨hx, fun heq => hne ⟨hsender ▸ heq.1, hpage ▸ heq.2⟩⟩, hsender, hpage⟩
  · by_cases hj : j = k
    · rw [hj, hself] at hq
      cases hq
    · rw [hother j hj] at hq ⊢
      exact h.filled j q hq
  · rw [hpend] at hx
    by_cases hi : i = k
    · rw [hi] at hx ⊢
      rw [hself]
      exact h.chunk k x hx
    · rw [hother i hi]
      exact h.chunk i x hx

/-- A step of `k` with nothing in its hands that changes its place in the loop and its destination. -/
theorem Blocks.move (h : Blocks c P src s) {p : Proc n α} (hidle : (s.proc k).act = .idle)
    (hact : p.act = .idle)
    (hchunk : ∀ m ∈ s.queue k, m.len = nbytes c len p.off ∧
      ∀ a < m.len, s.block m.sender m.page a = src m.sender (p.off + a))
    (hdata : ∀ j, k ∈ P.targets j → ∀ a, a < p.off + (if j ∈ p.got then nbytes c len p.off else 0) →
      p.dst (job.stride * j + a) = src j a)
    (hown : ∀ d, p.phase = .done → job.own k = some d → ∀ a < len, p.dst (d + a) = src k a) :
    Blocks c P src (s.setProc k p) := by
  set t := s.setProc k p with ht
  have hself : t.proc k = p := setProc_proc
  have hother : ∀ j, j ≠ k → t.proc j = s.proc j := fun j hj => setProc_other hj
  have hsame : ∀ j, (t.proc j).act = (s.proc j).act := by
    intro j
    by_cases hj : j = k
    · rw [hj, hself, hact, hidle]
    · rw [hother j hj]
  have hheld : ∀ j, t.held j = s.held j := by
    intro j
    unfold State.held
    rw [hsame]
    rfl
  refine ⟨h.alloc, fun j => ?_, fun j q hq => ?_, fun i x hx => ?_, fun i j x hx y hy => ?_,
    fun j q l hq => ?_, fun j q hq => ?_, fun i x hx => ?_, fun i j hj a => ?_, fun j d hj => ?_⟩
  · by_cases hj : j = k
    · have hsearch := h.search k
      rw [hidle] at hsearch
      rw [hj, hself, hact]
      exact hsearch
    · rw [hother j hj]
      exact h.search j
  · by_cases hj : j = k
    · rw [hj, hself, hact] at hq
      cases hq
    · rw [hother j hj] at hq ⊢
      simp only [hheld]
      exact h.mine j q hq
  · rw [hheld] at hx
    exact h.live i x hx
  · rw [hheld] at hx hy
    exact h.unique i j x hx y hy
  · rw [hsame]
    simp only [hheld]
    exact h.used j q l hq
  · by_cases hj : j = k
    · rw [hj, hself, hact] at hq
      cases hq
    · rw [hother j hj] at hq ⊢
      exact h.filled j q hq
  · by_cases hi : i = k
    · rw [hi] at hx ⊢
      unfold State.pending at hx
      rw [hself, hact] at hx
      rw [hself]
      exact hchunk x hx
    · unfold State.pending at hx
      rw [hother i hi] at hx ⊢
      exact h.chunk i x hx
  · by_cases hjk : j = k
    · rw [hjk] at hj ⊢
      rw [hself]
      exact hdata i hj a
    · rw [hother j hjk]
      exact h.data i j hj a
  · by_cases hjk : j = k
    · rw [hjk, hself] at hj
      rw [hjk, hself]
      exact hown d hj
    · rw [hother j hjk] at hj ⊢
      exact h.own j d hj

theorem Blocks.arrive (h : Blocks c P src s) (hturns : Turns c P s)
    (hidle : (s.proc k).act = .idle) (hrest : (s.proc k).rest = []) :
    Blocks c P src (s.setProc k ((s.proc k).arrive (nbytes c len (s.proc k).off) (job.ops k))) := by
  obtain ⟨hempty, hall⟩ := hturns.complete hrest
  refine h.move hidle hidle (fun m hm => ?_) (fun j hj a ha => ?_) nofun
  · rw [hempty] at hm
    cases hm
  · refine h.data j k hj a ?_
    rw [if_pos (hall j hj).1]
    exact ha

theorem Blocks.exit (h : Blocks c P src s) (hturns : Turns c P s)
    (hphase : (s.proc k).phase = .test) (hoff : ¬(s.proc k).off < len) :
    Blocks c P src (s.setProc k ((s.proc k).finish (job.own k) len (src k))) := by
  obtain ⟨-, hidle, hgot⟩ := hturns.full k (by rw [hphase]; nofun)
  have hlen : (s.proc k).off = len := Nat.le_antisymm (hturns.bound k) (Nat.le_of_not_lt hoff)
  refine h.move hidle hidle (fun m hm => ?_) (fun j hj a ha => ?_) fun d _ hd a ha => ?_
  · refine h.chunk k m ?_
    unfold State.pending
    rw [hidle]
    exact hm
  · change a < (s.proc k).off + (if j ∈ (s.proc k).got then nbytes c len (s.proc k).off else 0) at ha
    have hold := h.data j k hj a ha
    rw [hgot, if_neg List.not_mem_nil, hlen] at ha
    unfold Proc.finish
    cases hd : job.own k with
    | none => exact hold
    | some d =>
      have hne : j ≠ k := by
        rintro rfl
        exact P.other j hj
      show copyTo (s.proc k).dst d len (src k) (job.stride * j + a) = src j a
      rw [copyTo_out fun b hb => ?_]
      · exact hold
      · rw [P.own k d hd]
        exact stride_apart hne (P.ownApart j k d hd hj) ha hb
  · unfold Proc.finish
    rw [hd]
    exact copyTo_in ha

theorem blocks_step (hstep : Step c job len src s k t) (hturns : Turns c P s)
    (h : Blocks c P src s) : Blocks c P src t := by
  cases hstep with
  | enter _ _ => exact h.setPhase .body nofun
  | exit hphase hoff => exact h.exit hturns hphase hoff
  | arrive _ hidle hrest => exact h.arrive hturns hidle hrest
  | leave _ _ => exact h.setPhase .test nofun
  | @request _ _ a _ hidle _ hstep =>
    refine h.setAct .searching a (Allocator.inv_step hstep (h.alloc k))
      (Allocator.live_step hstep nofun nofun) (Allocator.request_alloc hstep) ?_ ?_ ?_ nofun
      rfl rfl rfl rfl
    all_goals
      rw [hidle]
      rfl
  | @search x a hact hstep hx hsearch =>
    have hlive : a.live = (s.alloc k).live := by
      refine Allocator.live_step hstep ?_ ?_
      · rintro p rfl
        exact hsearch (Allocator.live_take hstep (h.alloc k)).1
      · rintro p rfl
        cases hx
    have hasks : a.search.request = some (nbytes c len (s.proc k).off) := by
      obtain ⟨r, hr⟩ := Option.ne_none_iff_exists'.1 (mt Allocator.request_none.1 hsearch)
      have hold := Allocator.request_step hstep (by rintro m rfl; cases hx) hr
      rw [h.search k, hact] at hold
      rw [hr]
      exact hold.symm
    refine h.setAct .searching a (Allocator.inv_step hstep (h.alloc k)) hlive hasks ?_ ?_ ?_
      nofun ?_ rfl rfl rfl
    · rw [hact]
    · rw [hact]
    · rw [hact]
    · show s.proc = Function.update s.proc k { s.proc k with act := .searching }
      rw [← hact, Function.update_eq_self]
  | @refused p l a hact hstep hsearch =>
    refine h.setAct .idle a (Allocator.inv_step hstep (h.alloc k))
      (Allocator.live_step hstep nofun nofun) (Allocator.request_none.2 hsearch) ?_ ?_ ?_ nofun
      rfl rfl rfl rfl
    all_goals
      rw [hact]
      rfl
  | granted hact hstep => exact h.granted hact hstep
  | @scribble p a hact hstep =>
    have hidle : a.search.request = none := by
      have hold := h.search k
      rw [hact] at hold
      cases hstep with
      | write _ _ _ => exact hold
    refine h.setAct (.filling p) a (Allocator.inv_step hstep (h.alloc k))
      (Allocator.live_step hstep nofun nofun) hidle ?_ ?_ ?_ nofun ?_ rfl rfl rfl
    · rw [hact]
    · rw [hact]
    · rw [hact]
    · show s.proc = Function.update s.proc k { s.proc k with act := .filling p }
      rw [← hact, Function.update_eq_self]
  | fill hact => exact h.fill hact
  | deliver hact hrest => exact h.deliver hturns hact hrest
  | receive _ hidle _ hq => exact h.receive hidle hq
  | copy hact _ => exact h.copy hturns hact
  | release hact => exact h.release hturns hact

end Bootstrap
end Gasnet.Pshm
