import Gasnet.Event.EopLists

/-! Each op is in use or on a list of its owner, in one place at a time. -/
namespace Gasnet.Event.EopLists

variable {O T : Type*} {s s' : State O T} {t u v : T} {o : O}
  {p : Pc O T} {a : Action O T} {next next' : O → Option O} {S S' : O → Prop} {h e r : Option O}
  {q : Queue O} {seg : List O}

/-- The links from `h` run through the ops of `S`, each once. -/
def Held (next : O → Option O) (h : Option O) (S : O → Prop) : Prop :=
  ∃ l, Chain next h l none ∧ l.Nodup ∧ ∀ o, o ∈ l ↔ S o

theorem Held.frame (hh : Held next h S) (hnext : ∀ o, S o → next' o = next o)
    (hS : ∀ o, S' o ↔ S o) : Held next' h S' := by
  obtain ⟨l, hl, hn, hm⟩ := hh
  exact ⟨l, hl.congr fun o ho => hnext o ((hm o).1 ho), hn, fun o => by rw [hm, hS]⟩

theorem held_none : Held next none S ↔ ∀ o, ¬ S o := by
  constructor
  · rintro ⟨l, hl, -, hm⟩ o ho
    cases l with
    | nil => exact absurd ((hm o).2 ho) (List.not_mem_nil)
    | cons x l => exact absurd hl.1 (by simp)
  · intro hS
    exact ⟨[], rfl, List.nodup_nil, fun o => by simp [hS o]⟩

/-- The head of a list is in it, and its link leads to the others. -/
theorem Held.pop (hh : Held next (some o) S) :
    S o ∧ Held next (next o) fun x => S x ∧ x ≠ o := by
  obtain ⟨l, hl, hn, hm⟩ := hh
  cases l with
  | nil => exact absurd hl (by simp [Chain])
  | cons x l =>
    obtain ⟨hx, hl⟩ := hl
    cases hx
    rw [List.nodup_cons] at hn
    refine ⟨(hm o).1 List.mem_cons_self, l, hl, hn.2, fun y => ?_⟩
    show y ∈ l ↔ S y ∧ y ≠ o
    rw [← hm, List.mem_cons]
    constructor
    · intro hy
      exact ⟨.inr hy, fun he => hn.1 (he ▸ hy)⟩
    · rintro ⟨rfl | hy, hne⟩
      · exact absurd rfl hne
      · exact hy

/-- A push puts the ops of a queue in front. -/
theorem Held.push [DecidableEq O] (hh : Held next h S) (hq : Chain next q.head seg e)
    (htail : q.tail = seg.getLast?) (hn : seg.Nodup) (hne : seg ≠ []) (hd : ∀ o ∈ seg, ¬ S o) :
    Held (q.close next h) q.head fun o => S o ∨ o ∈ seg := by
  obtain ⟨l, hl, hnl, hm⟩ := hh
  have hdis : ∀ a ∈ seg, a ∉ l := fun a ha hl => hd a ha ((hm a).1 hl)
  refine ⟨seg ++ l, Queue.close_front hq htail hn hne hl hdis, ?_, fun o => ?_⟩
  · rw [List.nodup_append]
    exact ⟨hn, hnl, fun a ha b hb hab => hdis a ha (hab ▸ hb)⟩
  · rw [List.mem_append, hm, or_comm]

/-- The private list, also while its owner has its head in a local. -/
def listHead (s : State O T) (t : T) : Option O :=
  match s.pc t with
  | .cleared e => e
  | .alloc => none
  | .take o => some o
  | _ => s.eopFree t

/-- The lock of `u` is held by a thread `t` that is there. -/
def Holding (t u : T) : Pc O T → Prop
  | .locked | .read _ | .cleared _ => u = t
  | .free _ _ w .locked _ | .free _ _ w .linked _ | .free _ _ w .published _ => u = w
  | _ => False

/-- The caller's, or a caller's that frees it. -/
def Place.used : Place T → Bool
  | .inUse | .claimed _ => true
  | _ => false

def Claimed (s : State O T) (t : T) (o : O) : Prop := s.place o = .claimed t

/-- The ops that a push has in hand, and those after it. -/
structure Pushing (s : State O T) (t : T) (q : Queue O) (seg : List O) (u : T) (r e : Option O) :
    Prop where
  chain : Chain s.next q.head seg e
  tail : q.tail = seg.getLast?
  nodup : seg.Nodup
  ne_nil : seg ≠ []
  owner : ∀ o ∈ seg, s.threadidx o = some u
  claimed : ∀ o ∈ seg, Claimed s t o
  rest : Held s.next r fun o => Claimed s t o ∧ o ∉ seg

/-- The two chains of a pass. -/
structure Collecting (s : State O T) (t : T) (b : Batch O T) (l : List O) : Prop where
  main : b.main.Holds s.next b.mains
  other : b.other.Holds s.next l
  disjoint : ∀ o ∈ b.mains, o ∉ l
  claimed : ∀ o, Claimed s t o ↔ o ∈ b.mains ∨ o ∈ l
  owner : ∀ o ∈ b.mains, ∃ u, b.threadidx = some u ∧ s.threadidx o = some u

/-- What holds of a thread where it is. -/
def PcInv (s : State O T) (t : T) : Pc O T → Prop
  | .empty | .locked => (∀ o, ¬ Claimed s t o) ∧ s.eopFree t = none
  | .read e => (∀ o, ¬ Claimed s t o) ∧ s.eopFree t = none ∧ e = s.foreignEops t
  | .batch b => ∃ l, Collecting s t b l
  | .free q seg u .start r | .free q seg u .locked r => ∃ e, Pushing s t q seg u r e
  | .free q seg u .linked r => Pushing s t q seg u r (s.foreignEops u)
  | .free _ _ _ .published r | .rest r => Held s.next r (Claimed s t)
  | _ => ∀ o, ¬ Claimed s t o

structure Inv (s : State O T) : Prop where
  fresh : ∀ o, s.place o = .fresh ↔ s.threadidx o = none
  free : ∀ t, Held s.next (listHead s t) fun o => s.threadidx o = some t ∧ s.place o = .free
  foreign : ∀ t, Held s.next (s.foreignEops t) fun o =>
    s.threadidx o = some t ∧ s.place o = .foreign
  pcs : ∀ t, PcInv s t (s.pc t)
  lock : ∀ u t, s.foreignLock u = some t ↔ Holding t u (s.pc t)
  counts : ∀ o, s.handed o = s.freed o +
    if (s.place o).used then 1 else 0

/-- What thread `v` knows stays true when its own fields, the lists it has locked and the ops it
has claimed stay as they are. -/
theorem PcInv.frame (hp : PcInv s v p) (hfree : s'.eopFree v = s.eopFree v)
    (hforeign : ∀ u, Holding v u p → s'.foreignEops u = s.foreignEops u)
    (hplace : ∀ o, Claimed s' v o ↔ Claimed s v o)
    (hnext : ∀ o, Claimed s v o → s'.next o = s.next o)
    (hidx : ∀ o, Claimed s v o → s'.threadidx o = s.threadidx o) : PcInv s' v p := by
  have hpush : ∀ {q seg u r e}, Pushing s v q seg u r e → Pushing s' v q seg u r e := by
    intro q seg u r e h
    refine ⟨h.chain.congr fun o ho => hnext o (h.claimed o ho), h.tail, h.nodup, h.ne_nil, ?_, ?_,
      ?_⟩
    · intro o ho
      rw [hidx o (h.claimed o ho)]
      exact h.owner o ho
    · exact fun o ho => (hplace o).2 (h.claimed o ho)
    · exact h.rest.frame (fun o ho => hnext o ho.1) fun o => by rw [hplace]
  have hnone : (∀ o, ¬ Claimed s v o) → ∀ o, ¬ Claimed s' v o := fun h o ho =>
    h o ((hplace o).1 ho)
  cases p with
  | idle => exact hnone hp
  | empty => exact ⟨hnone hp.1, hfree.trans hp.2⟩
  | locked => exact ⟨hnone hp.1, hfree.trans hp.2⟩
  | read e =>
    exact ⟨hnone hp.1, hfree.trans hp.2.1, hp.2.2.trans (hforeign v rfl).symm⟩
  | cleared e => exact hnone hp
  | alloc => exact hnone hp
  | take o => exact hnone hp
  | batch b =>
    obtain ⟨l, h⟩ := hp
    refine ⟨l, ⟨?_, h.main.tail, h.main.nodup⟩, ⟨?_, h.other.tail, h.other.nodup⟩, h.disjoint, ?_,
      ?_⟩
    · exact h.main.chain.congr fun o ho => hnext o ((h.claimed o).2 (.inl ho))
    · exact h.other.chain.congr fun o ho => hnext o ((h.claimed o).2 (.inr ho))
    · exact fun o => (hplace o).trans (h.claimed o)
    · intro o ho
      rw [hidx o ((h.claimed o).2 (.inl ho))]
      exact h.owner o ho
  | free q seg u stage r =>
    cases stage with
    | start => exact hp.imp fun _ => hpush
    | locked => exact hp.imp fun _ => hpush
    | linked =>
      show Pushing s' v q seg u r (s'.foreignEops u)
      rw [hforeign u rfl]
      exact hpush hp
    | published => exact Held.frame hp hnext hplace
  | rest r => exact Held.frame hp hnext hplace

/-- Only one thread holds a lock. -/
theorem Inv.holder (hi : Inv s) (ht : Holding t u (s.pc t)) (hv : Holding v u (s.pc v)) : v = t :=
  Option.some.inj (((hi.lock u v).2 hv).symm.trans ((hi.lock u t).2 ht))

/-- What a step of `t` leaves to the others. -/
structure Frame (s s' : State O T) (t : T) : Prop where
  pc : ∀ v, v ≠ t → s'.pc v = s.pc v
  eopFree : ∀ v, v ≠ t → s'.eopFree v = s.eopFree v
  next : ∀ o, s'.next o = s.next o ∨ Claimed s t o ∨ s.place o = .fresh ∨ s.place o = .inUse
  threadidx : ∀ o, s'.threadidx o = s.threadidx o ∨ s.place o = .fresh
  claimed : ∀ v, v ≠ t → ∀ o, Claimed s' v o ↔ Claimed s v o
  foreign : ∀ u, s'.foreignEops u = s.foreignEops u ∨ Holding t u (s.pc t)
  free : ∀ v, v ≠ t → ∀ o, (s'.threadidx o = some v ∧ s'.place o = .free) ↔
    (s.threadidx o = some v ∧ s.place o = .free)

theorem Frame.pcs (hf : Frame s s' t) (hi : Inv s) (hv : v ≠ t) : PcInv s' v (s'.pc v) := by
  rw [hf.pc v hv]
  refine (hi.pcs v).frame (hf.eopFree v hv) ?_ (hf.claimed v hv) ?_ ?_
  · intro u hu
    obtain h | h := hf.foreign u
    · exact h
    · exact absurd (hi.holder h hu) hv
  · intro o ho
    obtain h | h | h | h := hf.next o
    · exact h
    · rw [Claimed, ho] at h
      exact absurd (Place.claimed.inj h) hv
    · rw [ho] at h
      cases h
    · rw [ho] at h
      cases h
  · intro o ho
    obtain h | h := hf.threadidx o
    · exact h
    · rw [ho] at h
      cases h

theorem Frame.free_lists (hf : Frame s s' t) (hi : Inv s) (hv : v ≠ t) :
    Held s'.next (listHead s' v) fun o => s'.threadidx o = some v ∧ s'.place o = .free := by
  have hhead : listHead s' v = listHead s v := by
    simp only [listHead, hf.pc v hv, hf.eopFree v hv]
  rw [hhead]
  refine (hi.free v).frame ?_ (hf.free v hv)
  intro o ho
  obtain h | h | h | h := hf.next o
  · exact h
  · rw [Claimed, ho.2] at h
    cases h
  · rw [ho.2] at h
    cases h
  · rw [ho.2] at h
    cases h

/-- What is left to show of a step. -/
theorem Frame.inv [DecidableEq T] (hf : Frame s s' t) (hi : Inv s)
    (hfresh : ∀ o, s'.place o = .fresh ↔ s'.threadidx o = none)
    (hfree : Held s'.next (listHead s' t) fun o => s'.threadidx o = some t ∧ s'.place o = .free)
    (hforeign : ∀ u, Held s'.next (s'.foreignEops u) fun o =>
      s'.threadidx o = some u ∧ s'.place o = .foreign)
    (hpc : PcInv s' t (s'.pc t))
    (hlock : ∀ u v, s'.foreignLock u = some v ↔ Holding v u (s'.pc v))
    (hcounts : ∀ o, s'.handed o = s'.freed o + if (s'.place o).used then 1 else 0) : Inv s' where
  fresh := hfresh
  free := by
    intro v
    by_cases hv : v = t
    · exact hv ▸ hfree
    · exact hf.free_lists hi hv
  foreign := hforeign
  pcs := by
    intro v
    by_cases hv : v = t
    · exact hv ▸ hpc
    · exact hf.pcs hi hv
  lock := hlock
  counts := hcounts

variable [DecidableEq T]

theorem lock_goto (hi : Inv s) (h : ∀ u, Holding t u p ↔ Holding t u (s.pc t)) (u v : T) :
    s.foreignLock u = some v ↔ Holding v u (Function.update s.pc t p v) := by
  rw [hi.lock]
  by_cases hv : v = t
  · subst hv
    rw [Function.update_self, h]
  · rw [Function.update_of_ne hv]

theorem lock_acquire (hi : Inv s) (hfree : s.foreignLock u = none)
    (hold : ∀ w, ¬ Holding t w (s.pc t)) (hnew : ∀ w, Holding t w p ↔ w = u) (w v : T) :
    Function.update s.foreignLock u (some t) w = some v ↔
      Holding v w (Function.update s.pc t p v) := by
  by_cases hv : v = t
  · subst hv
    rw [Function.update_self, hnew]
    by_cases hw : w = u
    · simp [hw]
    · rw [Function.update_of_ne hw, hi.lock]
      simp [hw, hold]
  · rw [Function.update_of_ne hv, ← hi.lock]
    by_cases hw : w = u
    · subst hw
      simp [hfree, Ne.symm hv]
    · rw [Function.update_of_ne hw]

theorem lock_release (hi : Inv s) (hold : ∀ w, Holding t w (s.pc t) ↔ w = u)
    (hnew : ∀ w, ¬ Holding t w p) (w v : T) :
    Function.update s.foreignLock u none w = some v ↔
      Holding v w (Function.update s.pc t p v) := by
  have ht : s.foreignLock u = some t := (hi.lock u t).2 ((hold u).2 rfl)
  by_cases hv : v = t
  · subst hv
    rw [Function.update_self]
    by_cases hw : w = u
    · simp [hw, hnew]
    · rw [Function.update_of_ne hw, hi.lock, hold]
      simp [hw, hnew]
  · rw [Function.update_of_ne hv, ← hi.lock]
    by_cases hw : w = u
    · subst hw
      rw [Function.update_self, ht]
      simp [Ne.symm hv]
    · rw [Function.update_of_ne hw]

/-- A step that touches only where `t` is and the locks. -/
theorem Inv.control {L : T → Option T} (hi : Inv s)
    (hhead : listHead { s with pc := Function.update s.pc t p, foreignLock := L } t = listHead s t)
    (hp : PcInv s t p) (hl : ∀ u v, L u = some v ↔ Holding v u (Function.update s.pc t p v)) :
    Inv { s with pc := Function.update s.pc t p, foreignLock := L } := by
  have hf : Frame s { s with pc := Function.update s.pc t p, foreignLock := L } t :=
    { pc := fun v hv => Function.update_of_ne hv _ _
      eopFree := fun _ _ => rfl
      next := fun _ => .inl rfl
      threadidx := fun _ => .inl rfl
      claimed := fun _ _ _ => .rfl
      foreign := fun _ => .inl rfl
      free := fun _ _ _ => .rfl }
  refine hf.inv hi hi.fresh ?_ hi.foreign ?_ hl hi.counts
  · rw [hhead]
    exact hi.free t
  · show PcInv _ t (Function.update s.pc t p t)
    rw [Function.update_self]
    exact hp.frame rfl (fun _ _ => rfl) (fun _ => .rfl) (fun _ _ => rfl) fun _ _ => rfl

theorem inv_goto (hi : Inv s) (hhead : listHead (s.goto t p) t = listHead s t) (hp : PcInv s t p)
    (hl : ∀ u, Holding t u p ↔ Holding t u (s.pc t)) : Inv (s.goto t p) :=
  hi.control hhead hp (lock_goto hi hl)

theorem inv_lock (hi : Inv s) (hhead : listHead (s.lock t u p) t = listHead s t)
    (hp : PcInv s t p) (hfree : s.foreignLock u = none) (hold : ∀ w, ¬ Holding t w (s.pc t))
    (hnew : ∀ w, Holding t w p ↔ w = u) : Inv (s.lock t u p) :=
  hi.control hhead hp (lock_acquire hi hfree hold hnew)

theorem inv_unlock (hi : Inv s) (hhead : listHead (s.unlock t u p) t = listHead s t)
    (hp : PcInv s t p) (hold : ∀ w, Holding t w (s.pc t) ↔ w = u)
    (hnew : ∀ w, ¬ Holding t w p) : Inv (s.unlock t u p) :=
  hi.control hhead hp (lock_release hi hold hnew)

theorem listHead_goto (s : State O T) (t : T) (p : Pc O T) :
    listHead (s.goto t p) t = match p with
      | .cleared e => e
      | .alloc => none
      | .take o => some o
      | _ => s.eopFree t := by
  simp only [listHead, State.goto, Function.update_self]

theorem listHead_lock (s : State O T) (t u : T) (p : Pc O T) :
    listHead (s.lock t u p) t = listHead (s.goto t p) t := rfl

theorem listHead_unlock (s : State O T) (t u : T) (p : Pc O T) :
    listHead (s.unlock t u p) t = listHead (s.goto t p) t := rfl

theorem inv_new (hi : Inv s) (hpc : s.pc t = .idle) : Inv (s.new t) := by
  have hp := hi.pcs t
  rw [hpc] at hp
  have hl : ∀ u, Holding t u (s.pc t) ↔ False := fun u => by
    rw [hpc]
    exact .rfl
  cases hf : s.eopFree t with
  | none =>
    rw [State.new, hf]
    refine inv_goto hi ?_ ⟨hp, hf⟩ fun u => (hl u).symm
    rw [listHead_goto, listHead, hpc]
  | some o =>
    rw [State.new, hf]
    refine inv_goto hi ?_ hp fun u => (hl u).symm
    rw [listHead_goto, listHead, hpc]
    exact hf.symm

theorem inv_unlockOwn {e : Option O} (hi : Inv s) (hpc : s.pc t = .cleared e) :
    Inv (s.unlock t t (State.harvested e)) := by
  have hp := hi.pcs t
  rw [hpc] at hp
  have hhead : listHead s t = e := by
    rw [listHead, hpc]
  have hold : ∀ w, Holding t w (s.pc t) ↔ w = t := fun w => by
    rw [hpc]
    exact .rfl
  cases e with
  | none =>
    refine inv_unlock hi ?_ hp hold fun w hw => hw
    rw [listHead_unlock, listHead_goto, hhead]
    rfl
  | some o =>
    refine inv_unlock hi ?_ hp hold fun w hw => hw
    rw [listHead_unlock, listHead_goto, hhead]
    rfl

theorem inv_batchEnd {b : Batch O T} (hi : Inv s) (hpc : s.pc t = .batch b) :
    Inv (s.batchEnd t b) := by
  have hp := hi.pcs t
  rw [hpc] at hp
  obtain ⟨l, h⟩ := hp
  have hl : ∀ u, Holding t u (s.pc t) ↔ False := fun u => by
    rw [hpc]
    exact .rfl
  have hhead : listHead s t = s.eopFree t := by
    rw [listHead, hpc]
  have hother : Held s.next b.other.head fun o => Claimed s t o ∧ o ∉ b.mains := by
    refine ⟨l, h.other.chain, h.other.nodup, fun o => ?_⟩
    show o ∈ l ↔ Claimed s t o ∧ o ∉ b.mains
    rw [h.claimed]
    constructor
    · exact fun ho => ⟨.inr ho, fun hm => h.disjoint o hm ho⟩
    · rintro ⟨hm | ho, hn⟩
      · exact absurd hm hn
      · exact ho
  have hmain := h.main.head_eq
  by_cases hm : b.mains = []
  · rw [hm] at hmain
    rw [State.batchEnd, hmain]
    refine inv_goto hi ?_ (hother.frame (fun _ _ => rfl) fun o => ?_) fun u => (hl u).symm
    · rw [listHead_goto, hhead]
      rfl
    · simp [hm]
  · obtain ⟨c, cs, hc⟩ := List.exists_cons_of_ne_nil hm
    obtain ⟨u, hu, -⟩ := h.owner c (hc ▸ List.mem_cons_self)
    rw [hc] at hmain
    rw [State.batchEnd, hmain, hu]
    refine inv_goto hi ?_ ⟨none, h.main.chain, h.main.tail, h.main.nodup, hm, ?_, ?_, hother⟩
      fun u => (hl u).symm
    · rw [listHead_goto, hhead]
      rfl
    · intro o ho
      obtain ⟨w, hw, how⟩ := h.owner o ho
      rw [how, ← hw, hu]
    · exact fun o ho => (h.claimed o).2 (.inl ho)

theorem inv_more (hi : Inv s) (hpc : s.pc t = .rest (some o)) (ho : s.threadidx o = some u) :
    Inv (s.goto t (.free ⟨some o, some o⟩ [o] u .start (s.next o))) := by
  have hp := hi.pcs t
  rw [hpc] at hp
  obtain ⟨hc, hrest⟩ := Held.pop hp
  refine inv_goto hi ?_ ⟨s.next o, ⟨rfl, rfl⟩, rfl, List.nodup_singleton o, List.cons_ne_nil _ _,
    ?_, ?_, ?_⟩ fun u => ?_
  · rw [listHead_goto, listHead, hpc]
  · simpa using ho
  · simpa using hc
  · simpa using hrest
  · rw [hpc]
    exact .rfl

theorem inv_batch (hi : Inv s) (hpc : s.pc t = .idle) :
    Inv (s.goto t (.batch ⟨none, .empty, .empty, []⟩)) := by
  have hp := hi.pcs t
  rw [hpc] at hp
  refine inv_goto hi ?_ ⟨[], Queue.holds_empty _, Queue.holds_empty _, by simp, ?_, by simp⟩
    fun u => ?_
  · rw [listHead_goto, listHead, hpc]
  · intro o
    simpa using hp o
  · rw [hpc]
    exact .rfl

/-- The clearing of the foreign list makes its ops the owner's. -/
theorem inv_clear {e : Option O} (hi : Inv s) (hpc : s.pc t = .read e) : Inv (s.clear t e) := by
  have hp := hi.pcs t
  rw [hpc] at hp
  obtain ⟨hnone, hempty, rfl⟩ := hp
  have hold := hi.free t
  rw [listHead, hpc] at hold
  simp only [hempty, held_none] at hold
  have hclaim : ∀ v o, Claimed (s.clear t (s.foreignEops t)) v o ↔ Claimed s v o := by
    intro v o
    simp only [Claimed, State.clear, State.goto, State.move, decide_eq_true_eq]
    split
    · rename_i h
      simp [h.2]
    · rfl
  have hf : Frame s (s.clear t (s.foreignEops t)) t :=
    { pc := fun v hv => Function.update_of_ne hv _ _
      eopFree := fun _ _ => rfl
      next := fun _ => .inl rfl
      threadidx := fun _ => .inl rfl
      claimed := fun v _ => hclaim v
      foreign := fun u => by
        by_cases hu : u = t
        · right
          rw [hpc]
          exact hu
        · exact .inl (Function.update_of_ne hu _ _)
      free := fun v hv o => by
        simp only [State.clear, State.goto, State.move, decide_eq_true_eq]
        split
        · rename_i h
          simp [h.1, h.2, Ne.symm hv]
        · rfl }
  refine hf.inv hi ?_ ?_ ?_ ?_ ?_ ?_
  · intro o
    simp only [State.clear, State.goto, State.move, decide_eq_true_eq]
    split
    · rename_i h
      simp [h.1]
    · exact hi.fresh o
  · have hhead : listHead (s.clear t (s.foreignEops t)) t = s.foreignEops t := by
      simp only [listHead, State.clear, State.goto, Function.update_self]
    rw [hhead]
    refine (hi.foreign t).frame (fun _ _ => rfl) fun o => ?_
    simp only [State.clear, State.goto, State.move, decide_eq_true_eq]
    split
    · rename_i h
      simp [h.1, h.2]
    · rename_i h
      exact ⟨fun h' => absurd h' (hold o), fun h' => absurd h' h⟩
  · intro u
    by_cases hu : u = t
    · subst hu
      have hnil : (s.clear u (s.foreignEops u)).foreignEops u = none := Function.update_self ..
      rw [hnil, held_none]
      intro o
      simp only [State.clear, State.goto, State.move, decide_eq_true_eq]
      split
      · simp
      · rename_i h
        exact h
    · have hsame : (s.clear t (s.foreignEops t)).foreignEops u = s.foreignEops u :=
        Function.update_of_ne hu _ _
      rw [hsame]
      refine (hi.foreign u).frame (fun _ _ => rfl) fun o => ?_
      simp only [State.clear, State.goto, State.move, decide_eq_true_eq]
      split
      · rename_i h
        simp [h.1, Ne.symm hu]
      · rfl
  · simp only [State.clear, State.goto, Function.update_self]
    exact fun o ho => hnone o ((hclaim t o).1 ho)
  · refine lock_goto hi fun u => ?_
    rw [hpc]
    exact .rfl
  · intro o
    have hcount := hi.counts o
    simp only [State.clear, State.goto, State.move, decide_eq_true_eq]
    split
    · rename_i h
      rw [h.2] at hcount
      exact hcount
    · exact hcount

variable [DecidableEq O]

theorem linkChunk_of_not_mem {c : O} {cs : List O} (ho : o ∉ c :: cs) :
    State.linkChunk c cs next o = next o := by
  induction cs generalizing c with
  | nil =>
    rw [State.linkChunk, Function.update_of_ne (by simpa using ho)]
  | cons d cs ih =>
    rw [List.mem_cons, not_or] at ho
    rw [State.linkChunk, Function.update_of_ne ho.1, ih ho.2]

theorem chain_linkChunk {c : O} {cs : List O} (hn : (c :: cs).Nodup) :
    Chain (State.linkChunk c cs next) (some c) (c :: cs) none := by
  induction cs generalizing c with
  | nil => exact ⟨rfl, by simp [State.linkChunk, Chain]⟩
  | cons d cs ih =>
    rw [List.nodup_cons] at hn
    refine ⟨rfl, ?_⟩
    rw [State.linkChunk, Function.update_self]
    exact (ih hn.2).update hn.1

/-- The ops of a new chunk are free. -/
theorem inv_alloc {c : O} {cs : List O} (hi : Inv s) (hpc : s.pc t = .alloc)
    (hn : (c :: cs).Nodup) (hnew : ∀ o ∈ c :: cs, s.place o = .fresh) :
    Inv (s.alloc t c cs) := by
  have hp := hi.pcs t
  rw [hpc] at hp
  have hold := hi.free t
  rw [listHead, hpc] at hold
  simp only [held_none] at hold
  have hclaim : ∀ v o, Claimed (s.alloc t c cs) v o ↔ Claimed s v o := by
    intro v o
    simp only [Claimed, State.alloc, State.goto, State.move, decide_eq_true_eq]
    split
    · rename_i h
      simp [hnew o h]
    · rfl
  have hf : Frame s (s.alloc t c cs) t :=
    { pc := fun v hv => Function.update_of_ne hv _ _
      eopFree := fun v hv => Function.update_of_ne hv _ _
      next := fun o => by
        by_cases ho : o ∈ c :: cs
        · exact .inr (.inr (.inl (hnew o ho)))
        · exact .inl (linkChunk_of_not_mem ho)
      threadidx := fun o => by
        by_cases ho : o ∈ c :: cs
        · exact .inr (hnew o ho)
        · exact .inl (if_neg ho)
      claimed := fun v _ => hclaim v
      foreign := fun _ => .inl rfl
      free := fun v hv o => by
        simp only [State.alloc, State.goto, State.move, decide_eq_true_eq]
        split
        · rename_i h
          simp [hnew o h, Ne.symm hv]
        · rfl }
  refine hf.inv hi ?_ ?_ ?_ ?_ ?_ ?_
  · intro o
    simp only [State.alloc, State.goto, State.move, decide_eq_true_eq]
    split
    · simp
    · exact hi.fresh o
  · have hhead : listHead (s.alloc t c cs) t = some c := by
      simp only [listHead, State.alloc, State.goto, Function.update_self]
    rw [hhead]
    refine ⟨c :: cs, chain_linkChunk hn, hn, fun o => ?_⟩
    simp only [State.alloc, State.goto, State.move, decide_eq_true_eq]
    split
    · rename_i h
      simp [h]
    · rename_i h
      exact ⟨fun h' => absurd h' h, fun h' => absurd h' (hold o)⟩
  · intro u
    refine (hi.foreign u).frame (fun o ho => linkChunk_of_not_mem fun h => ?_) fun o => ?_
    · rw [hnew o h] at ho
      cases ho.2
    · simp only [State.alloc, State.goto, State.move, decide_eq_true_eq]
      split
      · rename_i h
        simp [hnew o h]
      · rfl
  · simp only [State.alloc, State.goto, Function.update_self]
    exact fun o ho => hp o ((hclaim t o).1 ho)
  · refine lock_goto hi fun u => ?_
    rw [hpc]
    exact .rfl
  · intro o
    have hcount := hi.counts o
    simp only [State.alloc, State.goto, State.move, decide_eq_true_eq]
    split
    · rename_i h
      rw [hnew o h] at hcount
      exact hcount
    · exact hcount

omit [DecidableEq T] [DecidableEq O] in
/-- What a thread takes was on its private list. -/
theorem free_of_take (hi : Inv s) (hpc : s.pc t = .take o) :
    s.threadidx o = some t ∧ s.place o = .free := by
  have hhead := hi.free t
  rw [listHead, hpc] at hhead
  exact hhead.pop.1

theorem inv_handOut (hi : Inv s) (hpc : s.pc t = .take o) : Inv (s.handOut t o) := by
  have hp := hi.pcs t
  rw [hpc] at hp
  have hhead := hi.free t
  rw [listHead, hpc] at hhead
  obtain ⟨⟨hidx, hfree⟩, hrest⟩ := hhead.pop
  have hclaim : ∀ v x, Claimed (s.handOut t o) v x ↔ Claimed s v x := by
    intro v x
    simp only [Claimed, State.handOut, State.goto, State.move, decide_eq_true_eq]
    split
    · rename_i h
      simp [h, hfree]
    · rfl
  have hf : Frame s (s.handOut t o) t :=
    { pc := fun v hv => Function.update_of_ne hv _ _
      eopFree := fun v hv => Function.update_of_ne hv _ _
      next := fun _ => .inl rfl
      threadidx := fun _ => .inl rfl
      claimed := fun v _ => hclaim v
      foreign := fun _ => .inl rfl
      free := fun v hv x => by
        simp only [State.handOut, State.goto, State.move, decide_eq_true_eq]
        split
        · rename_i h
          simp [h, hidx, Ne.symm hv]
        · rfl }
  refine hf.inv hi ?_ ?_ ?_ ?_ ?_ ?_
  · intro x
    simp only [State.handOut, State.goto, State.move, decide_eq_true_eq]
    split
    · rename_i h
      simp [h, hidx]
    · exact hi.fresh x
  · have hhead' : listHead (s.handOut t o) t = s.next o := by
      simp only [listHead, State.handOut, State.goto, State.move, Function.update_self]
    rw [hhead']
    refine hrest.frame (fun _ _ => rfl) fun x => ?_
    simp only [State.handOut, State.goto, State.move, decide_eq_true_eq]
    split
    · rename_i h
      simp [h]
    · rename_i h
      simp [h]
  · intro u
    refine (hi.foreign u).frame (fun _ _ => rfl) fun x => ?_
    simp only [State.handOut, State.goto, State.move, decide_eq_true_eq]
    split
    · rename_i h
      simp [h, hfree]
    · rfl
  · simp only [State.handOut, State.goto, Function.update_self]
    exact fun x hx => hp x ((hclaim t x).1 hx)
  · refine lock_goto hi fun u => ?_
    rw [hpc]
    exact .rfl
  · intro x
    have hcount := hi.counts x
    simp only [State.handOut, State.goto, State.move, decide_eq_true_eq]
    by_cases hx : x = o
    · subst hx
      rw [hfree] at hcount
      simp only [Function.update_self, if_true]
      exact congrArg (· + 1) hcount
    · rw [Function.update_of_ne hx, if_neg hx]
      exact hcount

omit [DecidableEq T] in
theorem inv_mark {b : Bool} (hi : Inv s) :
    Inv { s with anyLive := Function.update s.anyLive o b } where
  fresh := hi.fresh
  free := hi.free
  foreign := hi.foreign
  pcs := fun t => (hi.pcs t).frame rfl (fun _ _ => rfl) (fun _ => .rfl) (fun _ _ => rfl)
    fun _ _ => rfl
  lock := hi.lock
  counts := hi.counts

/-- A claim takes an op in use, and links nothing but it and what the thread has claimed. -/
theorem inv_claim {n : O → Option O} (hi : Inv s) (ho : s.place o = .inUse)
    (hpc : ∀ u, ¬ Holding t u (s.pc t)) (hheadOld : listHead s t = s.eopFree t)
    (hnext : ∀ x, n x = s.next x ∨ Claimed s t x ∨ x = o)
    (hhead : listHead (({ s with next := n }.move (· = o) (.claimed t)).goto t p) t = s.eopFree t)
    (hp : PcInv ({ s with next := n }.move (· = o) (.claimed t)) t p)
    (hpcNew : ∀ u, ¬ Holding t u p) :
    Inv (({ s with next := n }.move (· = o) (.claimed t)).goto t p) := by
  have hplace : ∀ x a, a ≠ .claimed t → a ≠ .inUse →
      ((if decide (x = o) = true then .claimed t else s.place x) = a ↔ s.place x = a) := by
    intro x a ha hu
    by_cases hx : x = o
    · simp [hx, ho, Ne.symm ha, Ne.symm hu]
    · simp [hx]
  have hsame : ∀ x, s.place x = .free ∨ s.place x = .foreign → n x = s.next x := by
    intro x hx
    obtain h | h | h := hnext x
    · exact h
    · rw [Claimed] at h
      rw [h] at hx
      simp at hx
    · rw [h, ho] at hx
      simp at hx
  have hf : Frame s (({ s with next := n }.move (· = o) (.claimed t)).goto t p) t :=
    { pc := fun v hv => Function.update_of_ne hv _ _
      eopFree := fun _ _ => rfl
      next := fun x => by
        obtain h | h | h := hnext x
        · exact .inl h
        · exact .inr (.inl h)
        · exact .inr (.inr (.inr (h ▸ ho)))
      threadidx := fun _ => .inl rfl
      claimed := fun v hv x =>
        hplace x (.claimed v) (fun h => hv (Place.claimed.inj h)) (by simp)
      foreign := fun _ => .inl rfl
      free := fun v _ x => and_congr_right fun _ => hplace x .free (by simp) (by simp) }
  refine hf.inv hi ?_ ?_ ?_ ?_ ?_ ?_
  · exact fun x => (hplace x .fresh (by simp) (by simp)).trans (hi.fresh x)
  · rw [hhead]
    have hfree := hi.free t
    rw [hheadOld] at hfree
    exact hfree.frame (fun x hx => hsame x (.inl hx.2)) fun x =>
      and_congr_right fun _ => hplace x .free (by simp) (by simp)
  · intro u
    exact (hi.foreign u).frame (fun x hx => hsame x (.inr hx.2)) fun x =>
      and_congr_right fun _ => hplace x .foreign (by simp) (by simp)
  · show PcInv _ t (Function.update s.pc t p t)
    rw [Function.update_self]
    exact hp.frame rfl (fun _ _ => rfl) (fun _ => .rfl) (fun _ _ => rfl) fun _ _ => rfl
  · exact lock_goto hi fun u => ⟨fun h => absurd h (hpcNew u), fun h => absurd h (hpc u)⟩
  · intro x
    have hcount := hi.counts x
    simp only [State.goto, State.move, decide_eq_true_eq]
    split
    · rename_i h
      rw [h, ho] at hcount
      rw [h]
      exact hcount
    · exact hcount

theorem inv_test (hi : Inv s) (hpc : s.pc t = .idle) (ho : s.place o = .inUse)
    (hidx : s.threadidx o = some u) : Inv (s.test t u o) := by
  have hp := hi.pcs t
  rw [hpc] at hp
  have hclaim : ∀ x, Claimed (s.move (· = o) (.claimed t)) t x ↔ x = o := by
    intro x
    simp only [Claimed, State.move, decide_eq_true_eq]
    split
    · rename_i h
      simp [h]
    · rename_i h
      exact ⟨fun hx => absurd hx (hp x), fun hx => absurd hx h⟩
  refine inv_claim (n := s.next) hi ho (fun u hu => by rw [hpc] at hu; exact hu) ?_
    (fun _ => .inl rfl) ?_ ⟨s.next o, ⟨rfl, rfl⟩, rfl, List.nodup_singleton o,
      List.cons_ne_nil _ _, ?_, ?_, ?_⟩ fun u hu => hu
  · rw [listHead, hpc]
  · rw [listHead_goto]
    rfl
  · simpa [State.move] using hidx
  · simpa using (hclaim o).2 rfl
  · refine held_none.2 fun x hx => hx.2 ?_
    rw [(hclaim x).1 hx.1]
    exact List.mem_singleton_self o

omit [DecidableEq T] in
theorem push_next_eq (q : Queue O) (next : O → Option O) {x y : O}
    (hy : (q.push next x).2 y ≠ next y) : y = x ∨ q.tail = some y := by
  unfold Queue.push at hy
  by_contra hne
  rw [not_or] at hne
  apply hy
  cases ht : q.tail with
  | none => exact Function.update_of_ne hne.1 _ _
  | some z =>
    have hz : y ≠ z := fun h => hne.2 (by rw [ht, h])
    show Function.update (Function.update next z (some x)) x none y = next y
    rw [Function.update_of_ne hne.1, Function.update_of_ne hz]

/-- The next op of a pass joins the chain of its owner, or that of the others. -/
theorem inv_batchAdd {b : Batch O T} (hi : Inv s) (hpc : s.pc t = .batch b)
    (ho : s.place o = .inUse) (hidx : s.threadidx o = some u) : Inv (s.batchAdd t u o b) := by
  have hp := hi.pcs t
  rw [hpc] at hp
  obtain ⟨l, h⟩ := hp
  have hnot : ¬ Claimed s t o := by
    rw [Claimed, ho]
    simp
  rw [h.claimed, not_or] at hnot
  have hold : ∀ u, ¬ Holding t u (s.pc t) := fun u hu => by
    rw [hpc] at hu
    exact hu
  have hheadOld : listHead s t = s.eopFree t := by
    rw [listHead, hpc]
  have hclaim : ∀ (n : O → Option O) x,
      Claimed ({ s with next := n }.move (· = o) (.claimed t)) t x ↔
        (x ∈ b.mains ∨ x ∈ l) ∨ x = o := by
    intro n x
    rw [← h.claimed]
    simp only [Claimed, State.move, decide_eq_true_eq]
    split
    · rename_i hx
      simp [hx]
    · rename_i hx
      simp [hx]
  have htail : ∀ (q : Queue O) (m : List O) x, q.tail = m.getLast? → (∀ y ∈ m, Claimed s t y) →
      (q.push s.next o).2 x = s.next x ∨ Claimed s t x ∨ x = o := by
    intro q m x hq hm
    by_cases hx : (q.push s.next o).2 x = s.next x
    · exact .inl hx
    · obtain rfl | hx := push_next_eq q s.next hx
      · exact .inr (.inr rfl)
      · exact .inr (.inl (hm x (List.mem_of_getLast? (hq ▸ hx))))
  have hmains : ∀ y ∈ b.mains, Claimed s t y := fun y hy => (h.claimed y).2 (.inl hy)
  have hothers : ∀ y ∈ l, Claimed s t y := fun y hy => (h.claimed y).2 (.inr hy)
  have hcase : (∃ v, b.threadidx = some v ∧ v ≠ u) ∨ b.threadidx.getD u = u := by
    cases hb : b.threadidx with
    | none => exact .inr rfl
    | some v =>
      by_cases hv : v = u
      · exact .inr hv
      · exact .inl ⟨v, rfl, hv⟩
  obtain ⟨v, hb, hv⟩ | hb := hcase
  · have heq : s.batchAdd t u o b = ({ s with next := (b.other.push s.next o).2 }.move (· = o)
        (.claimed t)).goto t (.batch { b with other := (b.other.push s.next o).1 }) := by
      simp only [State.batchAdd, hb]
      simp [hv]
    rw [heq]
    refine inv_claim hi ho hold hheadOld (fun x => htail _ l x h.other.tail hothers) ?_
      ⟨l ++ [o], ?_, ?_, ?_, ?_, ?_⟩ fun u hu => hu
    · rw [listHead_goto]
      rfl
    · refine ⟨?_, h.main.tail, h.main.nodup⟩
      exact Queue.push_chain h.other.tail h.main.chain (fun a ha hm => h.disjoint a hm ha) hnot.1
    · exact h.other.push hnot.2
    · intro x hx hm
      obtain hm | hm := List.mem_append.1 hm
      · exact h.disjoint x hx hm
      · exact hnot.1 (List.mem_singleton.1 hm ▸ hx)
    · intro x
      rw [hclaim, List.mem_append, List.mem_singleton, or_assoc]
    · exact h.owner
  · have heq : s.batchAdd t u o b = ({ s with next := (b.main.push s.next o).2 }.move (· = o)
        (.claimed t)).goto t (.batch { b with
          threadidx := some u
          main := (b.main.push s.next o).1
          mains := b.mains ++ [o] }) := by
      cases hc : b.threadidx with
      | none => simp [State.batchAdd, hc]
      | some v =>
        obtain rfl : v = u := by
          rw [hc] at hb
          exact hb
        simp [State.batchAdd, hc]
    rw [heq]
    refine inv_claim hi ho hold hheadOld (fun x => htail _ b.mains x h.main.tail hmains) ?_
      ⟨l, ?_, ?_, ?_, ?_, ?_⟩ fun u hu => hu
    · rw [listHead_goto]
      rfl
    · exact h.main.push hnot.1
    · refine ⟨?_, h.other.tail, h.other.nodup⟩
      exact Queue.push_chain h.main.tail h.other.chain h.disjoint hnot.2
    · intro x hx hm
      obtain hx | hx := List.mem_append.1 hx
      · exact h.disjoint x hx hm
      · exact hnot.2 (List.mem_singleton.1 hx ▸ hm)
    · intro x
      rw [hclaim, List.mem_append, List.mem_singleton]
      tauto
    · intro x hx
      obtain hx | hx := List.mem_append.1 hx
      · obtain ⟨w, hw, hxw⟩ := h.owner x hx
        rw [hw] at hb
        exact ⟨u, rfl, by rw [← hb]; exact hxw⟩
      · exact ⟨u, rfl, List.mem_singleton.1 hx ▸ hidx⟩

omit [DecidableEq T] in
theorem close_of_not_mem (htail : q.tail = seg.getLast?) (ho : o ∉ seg) :
    q.close next h o = next o := by
  unfold Queue.close
  cases ht : q.tail with
  | none => rfl
  | some y =>
    have hy := List.mem_of_getLast? (ht ▸ htail).symm
    exact Function.update_of_ne (fun he => ho (by rw [he]; exact hy)) _ _

omit [DecidableEq T] in
theorem close_self (hq : Chain next q.head seg e) (htail : q.tail = seg.getLast?)
    (hn : seg.Nodup) (hne : seg ≠ []) : Chain (q.close next h) q.head seg h := by
  unfold Queue.close
  rcases List.eq_nil_or_concat' seg with rfl | ⟨k, y, rfl⟩
  · exact absurd rfl hne
  · rw [List.getLast?_concat] at htail
    rw [htail]
    rw [List.nodup_append] at hn
    exact hq.redirect fun hy => hn.2.2 y hy y (by simp) rfl

/-- The writing of the last link. -/
theorem inv_pushLink (hi : Inv s) (hpc : s.pc t = .free q seg u .locked r) :
    Inv ((s.close q (s.foreignEops u)).goto t (.free q seg u .linked r)) := by
  have hp := hi.pcs t
  rw [hpc] at hp
  obtain ⟨e, h⟩ := hp
  have hnext : ∀ x, ¬ Claimed s t x → q.close s.next (s.foreignEops u) x = s.next x :=
    fun x hx => close_of_not_mem h.tail fun hm => hx (h.claimed x hm)
  have hf : Frame s ((s.close q (s.foreignEops u)).goto t (.free q seg u .linked r)) t :=
    { pc := fun v hv => Function.update_of_ne hv _ _
      eopFree := fun _ _ => rfl
      next := fun x => by
        by_cases hx : Claimed s t x
        · exact .inr (.inl hx)
        · exact .inl (hnext x hx)
      threadidx := fun _ => .inl rfl
      claimed := fun _ _ _ => .rfl
      foreign := fun _ => .inl rfl
      free := fun _ _ _ => .rfl }
  have hfree := hi.free t
  rw [listHead, hpc] at hfree
  refine hf.inv hi hi.fresh ?_ ?_ ?_ ?_ hi.counts
  · rw [listHead_goto]
    refine hfree.frame (fun x hx => hnext x ?_) fun _ => .rfl
    rw [Claimed, hx.2]
    simp
  · intro w
    refine (hi.foreign w).frame (fun x hx => hnext x ?_) fun _ => .rfl
    rw [Claimed, hx.2]
    simp
  · show PcInv _ t (Function.update s.pc t _ t)
    rw [Function.update_self]
    refine ⟨close_self h.chain h.tail h.nodup h.ne_nil, h.tail, h.nodup, h.ne_nil, h.owner,
      h.claimed, ?_⟩
    exact h.rest.frame (fun x hx => close_of_not_mem h.tail hx.2) fun _ => .rfl
  · refine lock_goto hi fun w => ?_
    rw [hpc]
    exact .rfl

omit [DecidableEq T] in
/-- What becomes of the places and the counts when the ops of a push reach a list. -/
theorem pushed_places {a : Place T} (h : ∀ x ∈ seg, Claimed s t x) (ha : a.used = false) :
    (∀ x b, b ≠ a → b ≠ .claimed t → ((if decide (x ∈ seg) = true then a else s.place x) = b ↔
      s.place x = b)) ∧
    (∀ x, (if decide (x ∈ seg) = true then a else s.place x) = .claimed t ↔
      Claimed s t x ∧ x ∉ seg) := by
  constructor
  · intro x b hba hb
    by_cases hx : x ∈ seg
    · have hc : s.place x = .claimed t := h x hx
      simp [hx, hc, Ne.symm hba, Ne.symm hb]
    · simp [hx]
  · intro x
    by_cases hx : x ∈ seg
    · have hne : a ≠ .claimed t := by
        rintro rfl
        cases ha
      simp [hx, hne]
    · simp [hx, Claimed]

omit [DecidableEq T] in
theorem pushed_counts {a : Place T} (hi : Inv s) (h : ∀ x ∈ seg, Claimed s t x)
    (ha : a.used = false) (x : O) :
    s.handed x = (if x ∈ seg then s.freed x + 1 else s.freed x) +
      if (if decide (x ∈ seg) = true then a else s.place x).used then 1 else 0 := by
  have hcount := hi.counts x
  by_cases hx : x ∈ seg
  · have hc : s.place x = .claimed t := h x hx
    rw [hc] at hcount
    simp only [hx, decide_true, if_true, ha]
    exact hcount
  · simpa [hx] using hcount

/-- A push on the private list. -/
theorem inv_pushLocal (hi : Inv s) (hpc : s.pc t = .free q seg t .start r) :
    Inv (s.pushLocal t q seg r) := by
  have hp := hi.pcs t
  rw [hpc] at hp
  obtain ⟨e, h⟩ := hp
  obtain ⟨hplace, hclaimed⟩ := pushed_places (a := .free) h.claimed rfl
  have hnext : ∀ x, ¬ Claimed s t x → q.close s.next (s.eopFree t) x = s.next x :=
    fun x hx => close_of_not_mem h.tail fun hm => hx (h.claimed x hm)
  have hfree := hi.free t
  rw [listHead, hpc] at hfree
  have hf : Frame s (s.pushLocal t q seg r) t :=
    { pc := fun v hv => Function.update_of_ne hv _ _
      eopFree := fun v hv => Function.update_of_ne hv _ _
      next := fun x => by
        by_cases hx : Claimed s t x
        · exact .inr (.inl hx)
        · exact .inl (hnext x hx)
      threadidx := fun _ => .inl rfl
      claimed := fun v hv x =>
        hplace x (.claimed v) (by simp) fun hc => hv (Place.claimed.inj hc)
      foreign := fun _ => .inl rfl
      free := fun v hv x => by
        simp only [State.pushLocal, State.count, State.goto, State.move]
        by_cases hx : x ∈ seg
        · have hc : s.place x = .claimed t := h.claimed x hx
          have hidx : s.threadidx x = some t := h.owner x hx
          simp [State.close, hidx, Ne.symm hv]
        · simp [State.close, hx] }
  refine hf.inv hi ?_ ?_ ?_ ?_ ?_ ?_
  · exact fun x => (hplace x .fresh (by simp) (by simp)).trans (hi.fresh x)
  · have hhead : listHead (s.pushLocal t q seg r) t = q.head := by
      rw [State.pushLocal, listHead_goto]
      exact Function.update_self ..
    rw [hhead]
    have hd : ∀ x ∈ seg, ¬ (s.threadidx x = some t ∧ s.place x = .free) := by
      intro x hx hfr
      have hc : s.place x = .claimed t := h.claimed x hx
      rw [hc] at hfr
      cases hfr.2
    refine (hfree.push h.chain h.tail h.nodup h.ne_nil hd).frame (fun _ _ => rfl) fun x => ?_
    simp only [State.pushLocal, State.count, State.goto, State.move]
    by_cases hx : x ∈ seg
    · simp [State.close, hx, h.owner x hx]
    · simp [State.close, hx]
  · intro w
    refine (hi.foreign w).frame (fun x hx => hnext x ?_) fun x =>
      and_congr_right fun _ => hplace x .foreign (by simp) (by simp)
    rw [Claimed, hx.2]
    simp
  · show PcInv _ t (Function.update s.pc t _ t)
    rw [Function.update_self]
    exact h.rest.frame (fun x hx => close_of_not_mem h.tail hx.2) hclaimed
  · refine lock_goto hi fun w => ?_
    rw [hpc]
    exact .rfl
  · exact fun x => pushed_counts hi h.claimed rfl x

/-- A push on the foreign list. -/
theorem inv_publish (hi : Inv s) (hpc : s.pc t = .free q seg u .linked r) :
    Inv (s.publish t u q seg r) := by
  have hp := hi.pcs t
  rw [hpc] at hp
  have h : Pushing s t q seg u r (s.foreignEops u) := hp
  obtain ⟨hplace, hclaimed⟩ := pushed_places (a := .foreign) h.claimed rfl
  have hfree := hi.free t
  rw [listHead, hpc] at hfree
  have hf : Frame s (s.publish t u q seg r) t :=
    { pc := fun v hv => Function.update_of_ne hv _ _
      eopFree := fun _ _ => rfl
      next := fun _ => .inl rfl
      threadidx := fun _ => .inl rfl
      claimed := fun v hv x =>
        hplace x (.claimed v) (by simp) fun hc => hv (Place.claimed.inj hc)
      foreign := fun w => by
        by_cases hw : w = u
        · right
          rw [hpc]
          exact hw
        · exact .inl (Function.update_of_ne hw _ _)
      free := fun v _ x => and_congr_right fun _ => hplace x .free (by simp) (by simp) }
  refine hf.inv hi ?_ ?_ ?_ ?_ ?_ ?_
  · exact fun x => (hplace x .fresh (by simp) (by simp)).trans (hi.fresh x)
  · rw [State.publish, listHead_goto]
    exact hfree.frame (fun _ _ => rfl) fun x =>
      and_congr_right fun _ => hplace x .free (by simp) (by simp)
  · intro w
    by_cases hw : w = u
    · subst hw
      have hhead : (s.publish t w q seg r).foreignEops w = q.head := Function.update_self ..
      obtain ⟨l, hl, hn, hm⟩ := hi.foreign w
      have hd : ∀ x ∈ seg, x ∉ l := by
        intro x hx hxl
        have hc : s.place x = .claimed t := h.claimed x hx
        have := ((hm x).1 hxl).2
        rw [hc] at this
        cases this
      rw [hhead]
      refine ⟨seg ++ l, h.chain.append hl, ?_, fun x => ?_⟩
      · rw [List.nodup_append]
        exact ⟨h.nodup, hn, fun a ha b hb hab => hd a ha (hab ▸ hb)⟩
      · rw [List.mem_append, hm]
        simp only [State.publish, State.count, State.goto, State.move]
        by_cases hx : x ∈ seg
        · simp [hx, h.owner x hx]
        · simp [hx]
    · have hsame : (s.publish t u q seg r).foreignEops w = s.foreignEops w :=
        Function.update_of_ne hw _ _
      rw [hsame]
      refine (hi.foreign w).frame (fun _ _ => rfl) fun x => ?_
      simp only [State.publish, State.count, State.goto, State.move]
      by_cases hx : x ∈ seg
      · simp [h.owner x hx, Ne.symm hw]
      · simp [hx]
  · show PcInv _ t (Function.update s.pc t _ t)
    rw [Function.update_self]
    exact h.rest.frame (fun _ _ => rfl) hclaimed
  · refine lock_goto hi fun w => ?_
    rw [hpc]
    exact .rfl
  · exact fun x => pushed_counts hi h.claimed rfl x

theorem inv_step (h : Step s a s') (hi : Inv s) : Inv s' := by
  cases h with
  | new hpc => exact inv_new hi hpc
  | @lockOwn t hpc hfree =>
    have hp := hi.pcs t
    rw [hpc] at hp
    refine inv_lock hi ?_ hp hfree (fun w hw => by rw [hpc] at hw; exact hw) fun w => .rfl
    rw [listHead_lock, listHead_goto, listHead, hpc]
  | @read t hpc =>
    have hp := hi.pcs t
    rw [hpc] at hp
    refine inv_goto hi ?_ ⟨hp.1, hp.2, rfl⟩ fun w => by rw [hpc]; exact .rfl
    rw [listHead_goto, listHead, hpc]
  | clear hpc => exact inv_clear hi hpc
  | unlockOwn hpc => exact inv_unlockOwn hi hpc
  | alloc hpc hn hnew => exact inv_alloc hi hpc hn hnew
  | handOut hpc => exact inv_handOut hi hpc
  | mark => exact inv_mark hi
  | test hpc ho _ hidx => exact inv_test hi hpc ho hidx
  | batch hpc => exact inv_batch hi hpc
  | batchAdd hpc ho _ hidx => exact inv_batchAdd hi hpc ho hidx
  | batchEnd hpc => exact inv_batchEnd hi hpc
  | @done t hpc =>
    have hp := hi.pcs t
    rw [hpc] at hp
    refine inv_goto hi ?_ (held_none.1 hp) fun w => by rw [hpc]; exact .rfl
    rw [listHead_goto, listHead, hpc]
  | more hpc hidx => exact inv_more hi hpc hidx
  | pushLocal hpc => exact inv_pushLocal hi hpc
  | @pushLock t q seg u r hpc _ hfree =>
    have hp := hi.pcs t
    rw [hpc] at hp
    refine inv_lock hi ?_ hp hfree (fun w hw => by rw [hpc] at hw; exact hw) fun w => .rfl
    rw [listHead_lock, listHead_goto, listHead, hpc]
  | pushLink hpc => exact inv_pushLink hi hpc
  | publish hpc => exact inv_publish hi hpc
  | @pushUnlock t q seg u r hpc =>
    have hp := hi.pcs t
    rw [hpc] at hp
    refine inv_unlock hi ?_ hp (fun w => by rw [hpc]; exact .rfl) fun w hw => hw
    rw [listHead_unlock, listHead_goto, listHead, hpc]

omit [DecidableEq O] [DecidableEq T] in
theorem inv_initial : Inv (initial : State O T) where
  fresh := fun _ => by simp [initial]
  free := fun _ => held_none.2 fun _ h => by simp [initial] at h
  foreign := fun _ => held_none.2 fun _ h => by simp [initial] at h
  pcs := fun _ o h => by simp [Claimed, initial] at h
  lock := fun _ _ => ⟨fun h => by simp [initial] at h, fun h => h.elim⟩
  counts := fun _ => rfl

theorem inv_reachable (h : Reachable Step (initial : State O T) s) : Inv s :=
  h.invariant inv_step inv_initial

/-- The private and the foreign list of each thread. -/
structure Lists (s : State O T) (free foreign : T → List O) : Prop where
  own : ∀ t, Chain s.next (listHead s t) (free t) none
  others : ∀ t, Chain s.next (s.foreignEops t) (foreign t) none
  nodup : ∀ t, (free t ++ foreign t).Nodup
  owner : ∀ t, ∀ o ∈ free t ++ foreign t, s.threadidx o = some t

/-- Handed out, and not freed since. -/
def InUse (s : State O T) (o : O) : Prop := s.handed o = s.freed o + 1

/-- At each moment an op that was allocated is in use, on the private list of its owner or on its
foreign list, in one of these and once. It is handed out only by its owner and when every earlier
hand-out was followed by a free, and a thread at rest has freed all that it synced. -/
theorem eop_conservation (h : Reachable Step (initial : State O T) s) :
    (∃ free foreign, Lists s free foreign ∧ ∀ o t, s.threadidx o = some t →
      (InUse s o ∧ o ∉ free t ∧ o ∉ foreign t) ∨ (¬ InUse s o ∧ o ∈ free t ∧ o ∉ foreign t) ∨
        (¬ InUse s o ∧ o ∉ free t ∧ o ∈ foreign t)) ∧
    (∀ o, s.handed o = s.freed o ∨ InUse s o) ∧
    (∀ t o s', Step s (.handOut t o) s' → s.threadidx o = some t ∧ s.handed o = s.freed o ∧
      InUse s' o) ∧
    ∀ t o, s.pc t = .idle → s.place o ≠ .claimed t := by
  have hi := inv_reachable h
  have huse : ∀ o, InUse s o ↔ (s.place o).used = true := by
    intro o
    have hcount := hi.counts o
    rw [InUse]
    split at hcount
    · rename_i hu
      simp [hcount, hu]
    · rename_i hu
      simp [hcount, hu]
  refine ⟨?_, ?_, ?_, ?_⟩
  · choose free hfree hnf hmf using hi.free
    choose foreign hforeign hnr hmr using hi.foreign
    refine ⟨free, foreign, ⟨hfree, hforeign, fun t => ?_, fun t o ho => ?_⟩, fun o t ho => ?_⟩
    · rw [List.nodup_append]
      refine ⟨hnf t, hnr t, ?_⟩
      rintro a ha b hb rfl
      have h₁ := ((hmf t a).1 ha).2
      have h₂ := ((hmr t a).1 hb).2
      rw [h₁] at h₂
      cases h₂
    · obtain ho | ho := List.mem_append.1 ho
      · exact ((hmf t o).1 ho).1
      · exact ((hmr t o).1 ho).1
    · have hfresh := hi.fresh o
      rw [huse, hmf, hmr]
      cases hp : s.place o with
      | fresh =>
        rw [hfresh.1 hp] at ho
        cases ho
      | inUse => simp [Place.used, hp]
      | claimed v => simp [Place.used, hp]
      | free => simp [Place.used, hp, ho]
      | foreign => simp [Place.used, hp, ho]
  · intro o
    have hcount := hi.counts o
    rw [InUse]
    split at hcount
    · exact .inr hcount
    · exact .inl hcount
  · intro t o s' hs
    cases hs with
    | handOut hpc =>
      obtain ⟨hidx, hplace⟩ := free_of_take hi hpc
      have hcount := hi.counts o
      rw [hplace] at hcount
      refine ⟨hidx, hcount, ?_⟩
      show Function.update s.handed o (s.handed o + 1) o = s.freed o + 1
      rw [Function.update_self, hcount]
      rfl
  · intro t o hpc
    have hp := hi.pcs t
    rw [hpc] at hp
    exact hp o

/-- An op of one thread is handed out, completed, and freed by another. -/
theorem eop_conservation_foreign : ∃ s : State Nat Bool, Reachable Step initial s ∧
    s.foreignEops true = some 0 ∧ s.eopFree true = some 1 ∧
    ((∃ free foreign, Lists s free foreign ∧ ∀ o t, s.threadidx o = some t →
      (InUse s o ∧ o ∉ free t ∧ o ∉ foreign t) ∨ (¬ InUse s o ∧ o ∈ free t ∧ o ∉ foreign t) ∨
        (¬ InUse s o ∧ o ∉ free t ∧ o ∈ foreign t)) ∧
    (∀ o, s.handed o = s.freed o ∨ InUse s o) ∧
    (∀ t o s', Step s (.handOut t o) s' → s.threadidx o = some t ∧ s.handed o = s.freed o ∧
      InUse s' o) ∧
    ∀ t o, s.pc t = .idle → s.place o ≠ .claimed t) := by
  have hrun : ∃ s : State Nat Bool, Reachable Step initial s ∧ s.foreignEops true = some 0 ∧
      s.eopFree true = some 1 := by
    refine ⟨_, ⟨_, .stepL (.new (t := true) rfl) <| .stepL (.lockOwn (t := true) rfl rfl) <|
      .stepL (.read (t := true) rfl) <| .stepL (.clear (t := true) rfl) <|
      .stepL (.unlockOwn (t := true) rfl) <|
      .stepL (.alloc (t := true) rfl (show ([0, 1] : List Nat).Nodup by decide) fun _ _ => rfl) <|
      .stepL (.handOut (t := true) (o := 0) rfl) <| .stepL (.mark (o := 0) (b := false) rfl) <|
      .stepL (.test (t := false) (o := 0) (u := true) rfl rfl rfl rfl) <|
      .stepL (.pushLock (t := false) rfl (by decide) rfl) <| .stepL (.pushLink (t := false) rfl) <|
      .stepL (.publish (t := false) rfl) <| .stepL (.pushUnlock (t := false) rfl) <|
      .stepL (.done (t := false) rfl) .refl⟩, rfl, rfl⟩
  obtain ⟨s, hs, h₁, h₂⟩ := hrun
  exact ⟨s, hs, h₁, h₂, eop_conservation hs⟩

end Gasnet.Event.EopLists
