import Mathlib.Data.List.Nodup
import Mathlib.Data.List.Perm.Basic
import Gasnet.Foundation.Run

/-! The send buffers of the ucx conduit: their pools, the sends that own them, and the end of the job. -/
namespace Gasnet.Ucx

/-- The field `list` of a buffer: the pool it goes back to, or NULL if it is an extra. -/
inductive Home
  | sreq_free_req
  | sreq_free_rep
  | extra
  deriving DecidableEq

/-- `gasnetc_ucx_req_status_t`, as far as sends have it. -/
inductive Status
  | init
  | active
  | complete
  | cancel
  deriving DecidableEq

/-- Where `gasnetc_send_fini` is: before it, in the loop that pops, in the one that waits for a request
that was cancelled, and after it. -/
inductive Phase (R : Type*)
  | running
  | draining
  | cancelling (r : R)
  | done

/-- The buffers of the pools. -/
structure Pools (A : Type*) where
  reqs : List A
  reps : List A
  nodup : (reqs ++ reps).Nodup
  length_reqs : reqs.length = 8
  length_reps : reps.length = 8

/-- The pool a buffer was allocated for. -/
def Pools.home {A : Type*} [DecidableEq A] (P : Pools A) (a : A) : Home :=
  if a ∈ P.reqs then .sreq_free_req else if a ∈ P.reps then .sreq_free_rep else .extra

/-- The lists and the requests. Each allocation is a buffer of its own, and each request that UCX returns
is one. The last fields are history: the buffers that were allocated and freed, the requests that were
returned, taken from the queue and freed. -/
structure State (A R : Type*) where
  sreq_free_req : List A
  sreq_free_rep : List A
  list : A → Home
  held : List A
  send_queue : List R
  am_req : R → Option A
  status : R → Status
  phase : Phase R
  crashed : Bool
  allocated : List A
  freed : List A
  requests : List R
  removed : List R
  released : List R

variable {A R : Type*} [DecidableEq A] [DecidableEq R]

/-- After `gasnetc_send_init`. -/
def initial (P : Pools A) : State A R where
  sreq_free_req := P.reqs
  sreq_free_rep := P.reps
  list := P.home
  held := []
  send_queue := []
  am_req _ := none
  status _ := .init
  phase := .running
  crashed := false
  allocated := P.reqs ++ P.reps
  freed := []
  requests := []
  removed := []
  released := []

namespace State

variable (s : State A R)

/-- `gasnetc_am_req_release`. -/
def amReqRelease (a : A) : State A R :=
  { s with
    sreq_free_req := if s.list a = .sreq_free_req then s.sreq_free_req ++ [a] else s.sreq_free_req
    sreq_free_rep := if s.list a = .sreq_free_rep then s.sreq_free_rep ++ [a] else s.sreq_free_rep
    freed := if s.list a = .extra then s.freed ++ [a] else s.freed }

/-- `gasneti_list_rem` on the send queue. The links of an item that is in no list are NULL, and they are
followed. -/
def listRem (r : R) : State A R :=
  if r ∈ s.send_queue then
    { s with send_queue := s.send_queue.erase r, removed := s.removed ++ [r] }
  else { s with crashed := true }

/-- `gasnetc_req_free`. -/
def reqFree (r : R) : State A R :=
  let s' := match s.am_req r with
    | some a => s.amReqRelease a
    | none => s
  { s' with
    am_req := Function.update s'.am_req r none
    status := Function.update s'.status r .init
    released := s'.released ++ [r] }

/-- What follows `gasneti_list_rem`, where it has not crashed. -/
def thenFree (r : R) : State A R := if s.crashed then s else s.reqFree r

end State

/-- What can happen: in `gasnetc_am_req_get` for a request and for a reply, in `gasnetc_send_req`, in
`gasnetc_ucx_send_handler` where UCX makes progress, and in `gasnetc_send_fini`. -/
inductive Act : State A R → State A R → Prop
  | request {s : State A R} {a : A} {as : List A} : s.phase = .running → s.sreq_free_req = a :: as →
      Act s { s with sreq_free_req := as, held := a :: s.held }
  | reply {s : State A R} {a : A} {as : List A} : s.phase = .running → s.sreq_free_rep = a :: as →
      Act s { s with sreq_free_rep := as, held := a :: s.held }
  | borrow {s : State A R} {a : A} {as : List A} : s.phase = .running → s.sreq_free_rep = [] →
      s.sreq_free_req = a :: as → Act s { s with sreq_free_req := as, held := a :: s.held }
  | allocate {s : State A R} {a : A} : s.phase = .running → s.sreq_free_rep = [] → s.sreq_free_req = [] →
      a ∉ s.allocated →
      Act s { s with
        list := Function.update s.list a .extra
        held := a :: s.held
        allocated := s.allocated ++ [a] }
  | sendInPlace {s : State A R} {a : A} : s.phase = .running → a ∈ s.held →
      Act s ({ s with held := s.held.erase a }.amReqRelease a)
  | send {s : State A R} {a : A} {r : R} : s.phase = .running → a ∈ s.held → r ∉ s.requests →
      Act s { s with
        held := s.held.erase a
        am_req := Function.update s.am_req r (some a)
        status := Function.update s.status r .active
        send_queue := s.send_queue ++ [r]
        requests := s.requests ++ [r] }
  | handler {s : State A R} {r : R} : (s.phase = .running ∨ ∃ r', s.phase = .cancelling r') →
      s.status r = .active →
      Act s (({ s with status := Function.update s.status r .complete }.listRem r).thenFree r)
  | cancelled {s : State A R} {r : R} : s.phase = .cancelling r → s.status r = .active →
      Act s { s with status := Function.update s.status r .cancel }
  | fini {s : State A R} : s.phase = .running → Act s { s with phase := .draining }
  | pop {s : State A R} {r : R} {rs : List R} : s.phase = .draining → s.send_queue = r :: rs →
      Act s { s with
        send_queue := rs
        removed := s.removed ++ [r]
        phase := if s.status r = .active then .cancelling r else .draining }
  | remove {s : State A R} {r : R} : s.phase = .cancelling r → s.status r ≠ .active →
      Act s { (s.listRem r).thenFree r with phase := .draining }
  | finish {s : State A R} : s.phase = .draining → s.send_queue = [] →
      Act s { s with
        sreq_free_req := []
        sreq_free_rep := []
        freed := s.freed ++ s.sreq_free_req ++ s.sreq_free_rep
        phase := .done }

/-- Nothing happens after a crash. -/
def Step (s : State A R) (_ : Unit) (s' : State A R) : Prop := s.crashed = false ∧ Act s s'

variable {P : Pools A} {s s' : State A R} {t : Unit} {a : A} {r : R}

namespace State

variable (s : State A R)

/-- The buffers that the sends in the queue own. -/
def owned : List A := s.send_queue.filterMap s.am_req

/-- Where buffers are: in a pool, with a caller, with a send, or freed. -/
def places : List A := s.sreq_free_req ++ s.sreq_free_rep ++ s.held ++ s.owned ++ s.freed

end State

/-- Each buffer that was allocated is in one place, those in the pools and those that were freed are where
they belong, and each request is in the queue or has been taken from it and freed, each once. Where no
send is under way the pools are what they were. -/
structure Conserved (P : Pools A) (s : State A R) : Prop where
  crashed : s.crashed = false
  allocated : s.allocated.Nodup
  places : s.places.Perm s.allocated
  free_req : ∀ a ∈ s.sreq_free_req, a ∈ P.reqs
  free_rep : ∀ a ∈ s.sreq_free_rep, a ∈ P.reps
  freed : s.phase ≠ .done → ∀ a ∈ s.freed, a ∉ P.reqs ∧ a ∉ P.reps
  quiescent : s.phase ≠ .done → s.held = [] → s.send_queue = [] →
    s.sreq_free_req.Perm P.reqs ∧ s.sreq_free_rep.Perm P.reps
  requests : s.requests.Nodup
  removed : (s.send_queue ++ s.removed).Perm s.requests
  released : s.released = s.removed
  done : s.phase = .done → s.send_queue = [] ∧ s.sreq_free_req = [] ∧ s.sreq_free_rep = []

/-- The condition on the state before a step: the loop of `gasnetc_send_fini` finds no send. -/
def Kept (s : State A R) : Prop := s.phase = .draining → s.send_queue = []

/-- A step from a state that meets the condition. -/
def KeptStep (s : State A R) (t : Unit) (s' : State A R) : Prop := Kept s ∧ Step s t s'

/-- The requests in such runs. -/
structure Queued (s : State A R) : Prop where
  crashed : s.crashed = false
  phase : ∀ r, s.phase ≠ .cancelling r
  am_req : ∀ r ∈ s.send_queue, ∃ a, s.am_req r = some a
  active : ∀ r, s.status r = .active ↔ r ∈ s.send_queue
  requests : s.requests.Nodup
  removed : (s.send_queue ++ s.removed).Perm s.requests
  released : s.released = s.removed
  done : s.phase = .done → s.send_queue = []

/-- The buffers. -/
structure Placed (P : Pools A) (s : State A R) : Prop where
  allocated : s.allocated.Nodup
  pools : ∀ a ∈ P.reqs ++ P.reps, a ∈ s.allocated
  places : s.places.Perm s.allocated
  list : ∀ a ∈ s.allocated, s.list a = P.home a
  free_req : ∀ a ∈ s.sreq_free_req, P.home a = .sreq_free_req
  free_rep : ∀ a ∈ s.sreq_free_rep, P.home a = .sreq_free_rep
  freed : s.phase ≠ .done → ∀ a ∈ s.freed, P.home a = .extra
  done : s.phase = .done → s.sreq_free_req = [] ∧ s.sreq_free_rep = []

theorem Pools.home_reqs (h : P.home a = .sreq_free_req) : a ∈ P.reqs := by
  by_contra hnot
  rw [Pools.home, if_neg hnot] at h
  split at h <;> cases h

theorem Pools.home_reps (h : P.home a = .sreq_free_rep) : a ∈ P.reps := by
  by_contra hnot
  rw [Pools.home, if_neg hnot] at h
  split at h <;> cases h

theorem Pools.home_of_reqs (h : a ∈ P.reqs) : P.home a = .sreq_free_req := if_pos h

theorem Pools.home_of_reps (h : a ∈ P.reps) : P.home a = .sreq_free_rep := by
  have hnot : a ∉ P.reqs := fun hreq => List.disjoint_of_nodup_append P.nodup hreq h
  rw [Pools.home, if_neg hnot, if_pos h]

theorem Pools.not_mem_of_home (h : P.home a = .extra) : a ∉ P.reqs ∧ a ∉ P.reps := by
  constructor
  · intro hmem
    rw [Pools.home_of_reqs hmem] at h
    cases h
  · intro hmem
    rw [Pools.home_of_reps hmem] at h
    cases h

omit [DecidableEq R] in
theorem queued_initial (P : Pools A) : Queued (initial P : State A R) where
  crashed := rfl
  phase _ := nofun
  am_req _ := nofun
  active _ := ⟨nofun, nofun⟩
  requests := List.nodup_nil
  removed := List.Perm.refl _
  released := rfl
  done := nofun

omit [DecidableEq R] in
theorem placed_initial (P : Pools A) : Placed P (initial P : State A R) where
  allocated := P.nodup
  pools _ h := h
  places := by simp [State.places, State.owned, initial]
  list _ _ := rfl
  free_req _ := Pools.home_of_reqs
  free_rep _ := Pools.home_of_reps
  freed _ _ := nofun
  done := nofun

namespace Queued

omit [DecidableEq A] [DecidableEq R] in
theorem queue_nodup (h : Queued s) : (s.send_queue ++ s.removed).Nodup :=
  h.removed.nodup_iff.mpr h.requests

omit [DecidableEq A] [DecidableEq R] in
theorem not_mem_queue (h : Queued s) (hr : r ∉ s.requests) : r ∉ s.send_queue :=
  fun hmem => hr (h.removed.subset (List.mem_append_left _ hmem))

omit [DecidableEq A] in
/-- A send that completes is in the queue and owns a buffer. The handler takes it out, frees it and
releases the buffer. -/
theorem handled (h : Queued s) (hr : r ∈ s.send_queue) (ha : s.am_req r = some a) :
    ({ s with status := Function.update s.status r .complete }.listRem r).thenFree r =
      { s.amReqRelease a with
        send_queue := s.send_queue.erase r
        removed := s.removed ++ [r]
        am_req := Function.update s.am_req r none
        status := Function.update s.status r .init
        released := s.released ++ [r] } := by
  have hcrashed := h.crashed
  simp [State.listRem, State.thenFree, State.reqFree, State.amReqRelease, hr, ha, hcrashed]

end Queued

theorem queued_step (h : KeptStep s t s') (hq : Queued s) : Queued s' := by
  obtain ⟨hkept, -, hact⟩ := h
  cases hact with
  | request hphase => exact { hq with phase := hq.phase, done := hq.done }
  | reply hphase => exact { hq with phase := hq.phase, done := hq.done }
  | borrow hphase => exact { hq with phase := hq.phase, done := hq.done }
  | allocate hphase => exact { hq with phase := hq.phase, done := hq.done }
  | sendInPlace hphase =>
    exact ⟨hq.crashed, hq.phase, hq.am_req, hq.active, hq.requests, hq.removed, hq.released, hq.done⟩
  | @send a r hphase hheld hnew =>
    have hout := hq.not_mem_queue hnew
    refine ⟨hq.crashed, hq.phase, ?_, ?_, ?_, ?_, hq.released, ?_⟩
    · intro r' hr'
      dsimp only at hr' ⊢
      by_cases heq : r' = r
      · exact ⟨a, by rw [heq, Function.update_self]⟩
      · rw [Function.update_of_ne heq]
        rcases List.mem_append.mp hr' with hmem | hmem
        · exact hq.am_req r' hmem
        · exact absurd (List.mem_singleton.mp hmem) heq
    · intro r'
      dsimp only
      by_cases heq : r' = r
      · simp [heq]
      · rw [Function.update_of_ne heq, hq.active r']
        simp [heq]
    · have hnodup : (s.requests ++ [r]).Nodup := List.concat_eq_append ▸ hq.requests.concat hnew
      exact hnodup
    · have hswap : (s.send_queue ++ [r] ++ s.removed).Perm (s.send_queue ++ s.removed ++ [r]) := by
        rw [List.append_assoc, List.append_assoc]
        exact List.perm_append_comm.append_left _
      exact hswap.trans (hq.removed.append_right [r])
    · intro hdone
      rw [hphase] at hdone
      cases hdone
  | @handler r hphase hactive =>
    have hmem := (hq.active r).mp hactive
    obtain ⟨a, ha⟩ := hq.am_req r hmem
    have hnodup : s.send_queue.Nodup := hq.queue_nodup.of_append_left
    rw [hq.handled hmem ha]
    refine ⟨hq.crashed, hq.phase, ?_, ?_, hq.requests, ?_, ?_, ?_⟩
    · intro r' hr'
      obtain ⟨hne, hr'⟩ := hnodup.mem_erase_iff.mp hr'
      dsimp only
      rw [Function.update_of_ne hne]
      exact hq.am_req r' hr'
    · intro r'
      dsimp only
      rw [hnodup.mem_erase_iff]
      by_cases heq : r' = r
      · simp [heq]
      · rw [Function.update_of_ne heq, hq.active r']
        simp [heq]
    · have hout := (List.perm_cons_erase hmem).append_right s.removed
      refine List.Perm.trans ?_ (hout.symm.trans hq.removed)
      rw [← List.append_assoc]
      exact List.perm_append_singleton _ _
    · exact congrArg (· ++ [r]) hq.released
    · intro hdone
      dsimp only
      rw [hq.done hdone]
      rfl
  | @cancelled r hphase => exact absurd hphase (hq.phase r)
  | fini hphase => exact { hq with phase := nofun, done := nofun }
  | @pop r rs hphase hpop =>
    rw [hkept hphase] at hpop
    cases hpop
  | @remove r hphase => exact absurd hphase (hq.phase r)
  | finish hphase hempty => exact { hq with phase := nofun, done := fun _ => hempty }

/-! The buffers. -/

omit [DecidableEq R] in
/-- A buffer that is released is back in one place. -/
theorem count_release (s : State A R) (a b : A) :
    let s' := s.amReqRelease a
    s'.sreq_free_req.count b + s'.sreq_free_rep.count b + s'.freed.count b =
      s.sreq_free_req.count b + s.sreq_free_rep.count b + s.freed.count b + [a].count b := by
  cases h : s.list a <;> simp [State.amReqRelease, h] <;> omega

omit [DecidableEq R] in
theorem count_places (s : State A R) (b : A) :
    s.places.count b = s.sreq_free_req.count b + s.sreq_free_rep.count b + s.held.count b +
      s.owned.count b + s.freed.count b := by
  simp only [State.places, List.count_append]

omit [DecidableEq A] in
/-- The send of a request in the queue owns its buffer until the request is taken out. -/
theorem owned_perm (hnodup : s.send_queue.Nodup) (hr : r ∈ s.send_queue) (ha : s.am_req r = some a) :
    s.owned.Perm (a :: (s.send_queue.erase r).filterMap (Function.update s.am_req r none)) := by
  have hsame : (s.send_queue.erase r).filterMap (Function.update s.am_req r none) =
      (s.send_queue.erase r).filterMap s.am_req := by
    apply List.filterMap_congr
    intro r' hr'
    have hne : r' ≠ r := (hnodup.mem_erase_iff.mp hr').1
    rw [Function.update_of_ne hne]
  rw [hsame]
  have hperm := (List.perm_cons_erase hr).filterMap s.am_req
  rw [List.filterMap_cons_some ha] at hperm
  exact hperm

omit [DecidableEq A] in
theorem owned_send (hr : r ∉ s.send_queue) (a : A) :
    (s.send_queue ++ [r]).filterMap (Function.update s.am_req r (some a)) = s.owned ++ [a] := by
  have hsame : s.send_queue.filterMap (Function.update s.am_req r (some a)) = s.owned := by
    apply List.filterMap_congr
    intro r' hr'
    have hne : r' ≠ r := by
      rintro rfl
      exact hr hr'
    rw [Function.update_of_ne hne]
  rw [List.filterMap_append, hsame]
  simp

namespace Placed

omit [DecidableEq R] in
theorem mem_allocated (h : Placed P s) (ha : a ∈ s.places) : a ∈ s.allocated := h.places.subset ha

omit [DecidableEq R] in
/-- Releasing a buffer that is in no pool keeps the pools apart. -/
theorem release (h : Placed P s) (ha : a ∈ s.places) :
    (∀ b ∈ (s.amReqRelease a).sreq_free_req, P.home b = .sreq_free_req) ∧
      (∀ b ∈ (s.amReqRelease a).sreq_free_rep, P.home b = .sreq_free_rep) ∧
      (s.phase ≠ .done → ∀ b ∈ (s.amReqRelease a).freed, P.home b = .extra) := by
  have hlist := h.list a (h.mem_allocated ha)
  refine ⟨fun b hb => ?_, fun b hb => ?_, fun hphase b hb => ?_⟩
  · simp only [State.amReqRelease] at hb
    split at hb
    · rcases List.mem_append.mp hb with hb | hb
      · exact h.free_req b hb
      · rw [List.mem_singleton.mp hb, ← hlist]
        assumption
    · exact h.free_req b hb
  · simp only [State.amReqRelease] at hb
    split at hb
    · rcases List.mem_append.mp hb with hb | hb
      · exact h.free_rep b hb
      · rw [List.mem_singleton.mp hb, ← hlist]
        assumption
    · exact h.free_rep b hb
  · simp only [State.amReqRelease] at hb
    split at hb
    · rcases List.mem_append.mp hb with hb | hb
      · exact h.freed hphase b hb
      · rw [List.mem_singleton.mp hb, ← hlist]
        assumption
    · exact h.freed hphase b hb

end Placed

theorem placed_step (h : KeptStep s t s') (hq : Queued s) (hp : Placed P s) : Placed P s' := by
  obtain ⟨hkept, -, hact⟩ := h
  have hcount := fun b => (count_places s b).symm.trans (hp.places.count_eq b)
  cases hact with
  | @request a as hphase hfree =>
    refine ⟨hp.allocated, hp.pools, ?_, hp.list, ?_, hp.free_rep, hp.freed, ?_⟩
    · refine List.perm_iff_count.mpr fun b => ?_
      have hb := hcount b
      rw [hfree] at hb
      rw [count_places]
      change as.count b + s.sreq_free_rep.count b + (a :: s.held).count b + s.owned.count b +
        s.freed.count b = s.allocated.count b
      simp only [List.count_cons] at hb ⊢
      omega
    · intro b hb
      exact hp.free_req b (by rw [hfree]; exact List.mem_cons_of_mem _ hb)
    · intro hdone
      rw [hphase] at hdone
      cases hdone
  | @reply a as hphase hfree =>
    refine ⟨hp.allocated, hp.pools, ?_, hp.list, hp.free_req, ?_, hp.freed, ?_⟩
    · refine List.perm_iff_count.mpr fun b => ?_
      have hb := hcount b
      rw [hfree] at hb
      rw [count_places]
      change s.sreq_free_req.count b + as.count b + (a :: s.held).count b + s.owned.count b +
        s.freed.count b = s.allocated.count b
      simp only [List.count_cons] at hb ⊢
      omega
    · intro b hb
      exact hp.free_rep b (by rw [hfree]; exact List.mem_cons_of_mem _ hb)
    · intro hdone
      rw [hphase] at hdone
      cases hdone
  | @borrow a as hphase hnone hfree =>
    refine ⟨hp.allocated, hp.pools, ?_, hp.list, ?_, hp.free_rep, hp.freed, ?_⟩
    · refine List.perm_iff_count.mpr fun b => ?_
      have hb := hcount b
      rw [hfree] at hb
      rw [count_places]
      change as.count b + s.sreq_free_rep.count b + (a :: s.held).count b + s.owned.count b +
        s.freed.count b = s.allocated.count b
      simp only [List.count_cons] at hb ⊢
      omega
    · intro b hb
      exact hp.free_req b (by rw [hfree]; exact List.mem_cons_of_mem _ hb)
    · intro hdone
      rw [hphase] at hdone
      cases hdone
  | @allocate a hphase hrep hreq hnew =>
    have hextra : P.home a = .extra := by
      have hout : a ∉ P.reqs ++ P.reps := fun hmem => hnew (hp.pools a hmem)
      rw [List.mem_append, not_or] at hout
      rw [Pools.home, if_neg hout.1, if_neg hout.2]
    have hnodup : (s.allocated ++ [a]).Nodup := List.concat_eq_append ▸ hp.allocated.concat hnew
    refine ⟨hnodup, fun b hb => List.mem_append_left _ (hp.pools b hb), ?_, ?_,
      hp.free_req, hp.free_rep, hp.freed, ?_⟩
    · refine List.perm_iff_count.mpr fun b => ?_
      have hb := hcount b
      rw [count_places]
      change s.sreq_free_req.count b + s.sreq_free_rep.count b + (a :: s.held).count b +
        s.owned.count b + s.freed.count b = (s.allocated ++ [a]).count b
      simp only [List.count_cons, List.count_append, List.count_nil] at hb ⊢
      omega
    · intro b hb
      dsimp only at hb ⊢
      by_cases heq : b = a
      · rw [heq, Function.update_self, hextra]
      · rw [Function.update_of_ne heq]
        rcases List.mem_append.mp hb with hb | hb
        · exact hp.list b hb
        · exact absurd (List.mem_singleton.mp hb) heq
    · intro hdone
      rw [hphase] at hdone
      cases hdone
  | @sendInPlace a hphase hheld =>
    have hin : a ∈ s.places := by simp [State.places, hheld]
    obtain ⟨hreq, hrep, hfreed⟩ := hp.release hin
    refine ⟨hp.allocated, hp.pools, ?_, hp.list, hreq, hrep, hfreed, ?_⟩
    · refine List.perm_iff_count.mpr fun b => ?_
      have hb := hcount b
      have hrel := count_release s a b
      have herase := (List.perm_cons_erase hheld).count_eq b
      rw [count_places]
      change (s.amReqRelease a).sreq_free_req.count b + (s.amReqRelease a).sreq_free_rep.count b +
        (s.held.erase a).count b + s.owned.count b + (s.amReqRelease a).freed.count b =
        s.allocated.count b
      simp only [List.count_cons, List.count_nil] at hb hrel herase ⊢
      omega
    · intro hdone
      rw [show _ = s.phase from rfl, hphase] at hdone
      cases hdone
  | @send a r hphase hheld hnew =>
    refine ⟨hp.allocated, hp.pools, ?_, hp.list, hp.free_req, hp.free_rep, hp.freed, hp.done⟩
    refine List.perm_iff_count.mpr fun b => ?_
    have hb := hcount b
    have herase := (List.perm_cons_erase hheld).count_eq b
    rw [count_places]
    change s.sreq_free_req.count b + s.sreq_free_rep.count b + (s.held.erase a).count b +
      ((s.send_queue ++ [r]).filterMap (Function.update s.am_req r (some a))).count b +
      s.freed.count b = s.allocated.count b
    rw [owned_send (hq.not_mem_queue hnew)]
    simp only [List.count_append, List.count_cons, List.count_nil] at hb herase ⊢
    omega
  | @handler r hphase hactive =>
    have hmem := (hq.active r).mp hactive
    obtain ⟨a, ha⟩ := hq.am_req r hmem
    have howned := owned_perm hq.queue_nodup.of_append_left hmem ha
    have hin : a ∈ s.places := by
      have hown : a ∈ s.owned := List.mem_filterMap.mpr ⟨r, hmem, ha⟩
      simp [State.places, hown]
    obtain ⟨hreq, hrep, hfreed⟩ := hp.release hin
    rw [hq.handled hmem ha]
    refine ⟨hp.allocated, hp.pools, ?_, hp.list, hreq, hrep, hfreed, ?_⟩
    · refine List.perm_iff_count.mpr fun b => ?_
      have hb := hcount b
      have hrel := count_release s a b
      have hown := howned.count_eq b
      rw [count_places]
      change (s.amReqRelease a).sreq_free_req.count b + (s.amReqRelease a).sreq_free_rep.count b +
        s.held.count b +
        ((s.send_queue.erase r).filterMap (Function.update s.am_req r none)).count b +
        (s.amReqRelease a).freed.count b = s.allocated.count b
      simp only [List.count_cons, List.count_nil] at hb hrel hown ⊢
      omega
    · intro hdone
      have hempty := hq.done hdone
      rw [hempty] at hmem
      cases hmem
  | @cancelled r hphase => exact absurd hphase (hq.phase r)
  | fini hphase =>
    exact { hp with
      done := nofun
      freed := fun _ => hp.freed (by rw [hphase]; exact nofun)
      places := hp.places }
  | @pop r rs hphase hpop =>
    rw [hkept hphase] at hpop
    cases hpop
  | @remove r hphase => exact absurd hphase (hq.phase r)
  | finish hphase hempty =>
    refine ⟨hp.allocated, hp.pools, ?_, hp.list, nofun, nofun, ?_, fun _ => ⟨rfl, rfl⟩⟩
    · refine List.perm_iff_count.mpr fun b => ?_
      have hb := hcount b
      rw [count_places]
      change ([] : List A).count b + ([] : List A).count b + s.held.count b + s.owned.count b +
        (s.freed ++ s.sreq_free_req ++ s.sreq_free_rep).count b = s.allocated.count b
      simp only [List.count_append, List.count_nil] at hb ⊢
      omega
    · intro hdone
      exact absurd rfl hdone

omit [DecidableEq R] in
/-- The pools hold all their buffers where no send is under way. -/
theorem Placed.quiescent (hp : Placed P s) (hphase : s.phase ≠ .done) (hheld : s.held = [])
    (hqueue : s.send_queue = []) :
    s.sreq_free_req.Perm P.reqs ∧ s.sreq_free_rep.Perm P.reps := by
  have hnodup : s.places.Nodup := hp.places.nodup_iff.mpr hp.allocated
  have hplaces : s.places = s.sreq_free_req ++ s.sreq_free_rep ++ s.freed := by
    simp [State.places, State.owned, hheld, hqueue]
  rw [hplaces] at hnodup
  have hpools := hnodup.of_append_left
  have hin : ∀ a ∈ P.reqs ++ P.reps, a ∈ s.sreq_free_req ++ s.sreq_free_rep ++ s.freed := by
    intro a ha
    rw [← hplaces]
    exact hp.places.symm.subset (hp.pools a ha)
  constructor
  · rw [List.perm_ext_iff_of_nodup hpools.of_append_left P.nodup.of_append_left]
    refine fun a => ⟨fun ha => Pools.home_reqs (hp.free_req a ha), fun ha => ?_⟩
    have hhome := Pools.home_of_reqs ha
    rcases List.mem_append.mp (hin a (List.mem_append_left _ ha)) with hmem | hmem
    · rcases List.mem_append.mp hmem with hmem | hmem
      · exact hmem
      · rw [hp.free_rep a hmem] at hhome
        cases hhome
    · rw [hp.freed hphase a hmem] at hhome
      cases hhome
  · rw [List.perm_ext_iff_of_nodup hpools.of_append_right P.nodup.of_append_right]
    refine fun a => ⟨fun ha => Pools.home_reps (hp.free_rep a ha), fun ha => ?_⟩
    have hhome := Pools.home_of_reps ha
    rcases List.mem_append.mp (hin a (List.mem_append_right _ ha)) with hmem | hmem
    · rcases List.mem_append.mp hmem with hmem | hmem
      · rw [hp.free_req a hmem] at hhome
        cases hhome
      · exact hmem
    · rw [hp.freed hphase a hmem] at hhome
      cases hhome

omit [DecidableEq R] in
theorem Placed.conserved (hp : Placed P s) (hq : Queued s) : Conserved P s where
  crashed := hq.crashed
  allocated := hp.allocated
  places := hp.places
  free_req a ha := Pools.home_reqs (hp.free_req a ha)
  free_rep a ha := Pools.home_reps (hp.free_rep a ha)
  freed hphase a ha := Pools.not_mem_of_home (hp.freed hphase a ha)
  quiescent := hp.quiescent
  requests := hq.requests
  removed := hq.removed
  released := hq.released
  done hphase := ⟨hq.done hphase, hp.done hphase⟩

theorem queued_reachable (h : Reachable KeptStep (initial P : State A R) s) : Queued s :=
  h.invariant queued_step (queued_initial P)

theorem conserved_reachable (h : Reachable KeptStep (initial P : State A R) s) : Conserved P s := by
  have hboth : Queued s ∧ Placed P s := by
    apply h.invariant (P := fun s => Queued s ∧ Placed P s)
    · intro s t s' hstep hs
      exact ⟨queued_step hstep hs.1, placed_step hstep hs.1 hs.2⟩
    · exact ⟨queued_initial P, placed_initial P⟩
  exact hboth.2.conserved hboth.1

/-! A send that `gasnetc_send_fini` pops while it is active is unlinked again when it has ended. -/

/-- The request that was popped is waited for, or its links have been followed. -/
def Stuck (s : State A R) : Prop :=
  (∃ r, s.phase = .cancelling r ∧ r ∉ s.send_queue) ∨ (s.crashed = true ∧ s.phase ≠ .done)

omit [DecidableEq A] in
@[simp] theorem thenFree_phase (s : State A R) (r : R) : (s.thenFree r).phase = s.phase := by
  unfold State.thenFree State.reqFree
  split
  · rfl
  · cases s.am_req r <;> rfl

omit [DecidableEq A] in
@[simp] theorem thenFree_queue (s : State A R) (r : R) : (s.thenFree r).send_queue = s.send_queue := by
  unfold State.thenFree State.reqFree
  split
  · rfl
  · cases s.am_req r <;> rfl

omit [DecidableEq A] in
/-- Unlinking a request that is in no queue follows its NULL links. -/
theorem listRem_crash (hr : r ∉ s.send_queue) : (s.listRem r).thenFree r = { s with crashed := true } := by
  simp [State.listRem, State.thenFree, hr]

omit [DecidableEq A] in
theorem stuck_crash (hr : r ∉ s.send_queue) (hphase : s.phase ≠ .done) :
    Stuck ((s.listRem r).thenFree r) := by
  rw [listRem_crash hr]
  exact .inr ⟨rfl, hphase⟩

theorem stuck_step (h : Step s t s') (hs : Stuck s) : Stuck s' := by
  obtain ⟨hcrashed, hact⟩ := h
  obtain ⟨r, hphase, hr⟩ | ⟨hcrash, -⟩ := hs
  · cases hact with
    | cancelled => exact .inl ⟨r, hphase, hr⟩
    | @handler r' _ hactive =>
      by_cases hmem : r' ∈ s.send_queue
      · have hout : r ∉ s.send_queue.erase r' := fun hin => hr (List.mem_of_mem_erase hin)
        exact .inl ⟨r, by simpa [State.listRem, hmem] using hphase, by simpa [State.listRem, hmem] using hout⟩
      · apply stuck_crash
        · exact hmem
        · rw [hphase]
          exact nofun
    | @remove r' hphase' =>
      right
      rw [hphase] at hphase'
      cases hphase'
      rw [listRem_crash hr]
      exact ⟨rfl, nofun⟩
    | _ => simp_all
  · rw [hcrash] at hcrashed
    cases hcrashed

theorem stuck_of_not_kept (h : Step s t s') (hq : Queued s) (hkept : ¬Kept s) : Stuck s' := by
  obtain ⟨hphase, hne⟩ := Classical.not_imp.mp hkept
  obtain ⟨-, hact⟩ := h
  cases hact with
  | @pop r rs _ hpop =>
    have hnodup : s.send_queue.Nodup := hq.queue_nodup.of_append_left
    rw [hpop] at hnodup
    have hactive : s.status r = .active := (hq.active r).mpr (by rw [hpop]; exact List.mem_cons_self)
    exact .inl ⟨r, if_pos hactive, (List.nodup_cons.mp hnodup).1⟩
  | cancelled => simp_all
  | remove => simp_all
  | finish _ hempty => exact absurd hempty hne
  | _ => simp_all

/-- The run of a job that gets through `gasnetc_send_fini` meets the condition at each step. -/
theorem kept_of_done {ts : List Unit} (h : Run Step s ts s') (hq : Queued s) (hdone : s'.phase = .done) :
    Run KeptStep s ts s' := by
  induction h with
  | refl => exact .refl
  | @stepL s u s' t ts hstep hrun ih =>
    by_cases hkept : Kept s
    · exact .stepL ⟨hkept, hstep⟩ (ih (queued_step ⟨hkept, hstep⟩ hq) hdone)
    · have hstuck : Stuck s' := hrun.invariant stuck_step (stuck_of_not_kept hstep hq hkept)
      obtain ⟨r, hphase, -⟩ | ⟨-, hphase⟩ := hstuck
      · rw [hdone] at hphase
        cases hphase
      · exact absurd hdone hphase

/-- Send buffers and requests are conserved in each state of a run whose drain finds the queue empty, and
no other run gets to its end. -/
theorem send_buffers_conserved (P : Pools A) {s : State A R} (h : Reachable Step (initial P) s) :
    (Reachable KeptStep (initial P) s → Conserved P s) ∧
      (s.phase = .done → Reachable KeptStep (initial P) s ∧ Conserved P s) := by
  refine ⟨conserved_reachable, fun hdone => ?_⟩
  obtain ⟨ts, hrun⟩ := h
  have hkept : Reachable KeptStep (initial P) s := ⟨ts, kept_of_done hrun (queued_initial P) hdone⟩
  exact ⟨hkept, conserved_reachable hkept⟩

/-- Sixteen buffers. -/
def numbered : Pools Nat where
  reqs := List.range 8
  reps := List.range' 8 8
  nodup := by decide
  length_reqs := rfl
  length_reps := rfl

/-- A request that is sent in place. -/
theorem send_buffers_conserved_in_place : ∃ s : State Nat Unit,
    s.sreq_free_req = [1, 2, 3, 4, 5, 6, 7, 0] ∧ Conserved numbered s := by
  have hstart : Reachable KeptStep (initial numbered : State Nat Unit) (initial numbered) := .refl
  have hget := hstart.snoc (a := ()) ⟨nofun, rfl, .request (a := 0) rfl rfl⟩
  have hsend := hget.snoc (a := ()) ⟨nofun, rfl, .sendInPlace (a := 0) rfl List.mem_cons_self⟩
  have hrun : Reachable Step (initial numbered : State Nat Unit) _ :=
    (Reachable.refl.snoc (a := ()) ⟨rfl, .request (a := 0) rfl rfl⟩).snoc (a := ())
      ⟨rfl, .sendInPlace (a := 0) rfl List.mem_cons_self⟩
  exact ⟨_, rfl, (send_buffers_conserved numbered hrun).1 hsend⟩

/-- A send that is active when the job ends, and that completes after it was popped. -/
theorem active_send_not_conserved :
    ¬∀ s : State Nat Unit, Reachable Step (initial numbered) s → Conserved numbered s := by
  intro hall
  have hstart : Reachable Step (initial numbered : State Nat Unit) (initial numbered) := .refl
  have hget := hstart.snoc (a := ()) ⟨rfl, .request (a := 0) rfl rfl⟩
  have hsend := hget.snoc (a := ()) ⟨rfl, .send (a := 0) (r := ()) rfl List.mem_cons_self List.not_mem_nil⟩
  have hfini := hsend.snoc (a := ()) ⟨rfl, .fini rfl⟩
  have hpop := hfini.snoc (a := ()) ⟨rfl, .pop (r := ()) rfl rfl⟩
  have hhandler := hpop.snoc (a := ()) ⟨rfl, .handler (r := ()) (.inr ⟨(), rfl⟩) rfl⟩
  have hcrashed := (hall _ hhandler).crashed
  cases hcrashed

end Gasnet.Ucx
