import Gasnet.Barrier.Spec

/-! The centralized AM barrier of one team, with any order of message handling. What the leader
has still to send in the loop of a kick counts as in flight. -/
namespace Gasnet.Barrier.Amc

variable {N : Nat}

/-- What every rank has of `gasnete_coll_amcbarrier_t`. -/
structure Data where
  phase : Bool
  responseDone : Bool → Bool
  response : Bool → Tag

/-- The global state on the leader. -/
structure Leader where
  consensus : Bool → Tag
  count : Bool → Nat

/-- A `gasnete_amcbarrier_notify_reqh` request. The sender and the number of the barrier are
ghosts. -/
structure Notify (N : Nat) where
  src : Fin N
  epoch : Nat
  phase : Bool
  arg : Tag
  deriving DecidableEq

/-- A `gasnete_amcbarrier_done_reqh` request. The number of the barrier is a ghost. -/
structure Done (N : Nat) where
  dst : Fin N
  epoch : Nat
  phase : Bool
  arg : Tag
  deriving DecidableEq

/-- Requests in flight, done requests whose handler has written the response but not yet
`amcbarrier_response_done`, and the history: barriers that each rank has notified and completed,
what it passed and what it found, the barriers the leader has ended and whom it has counted. -/
structure State (N : Nat) where
  data : Fin N → Data
  leader : Leader
  inside : Fin N → Bool
  notifies : List (Notify N)
  dones : List (Done N)
  responding : List (Done N)
  notified : Fin N → Nat
  completed : Fin N → Nat
  arg : Fin N → Nat → Tag
  result : Fin N → Nat → Tag
  ended : Nat
  counted : Nat → List (Fin N)

/-- `gasnete_amcbarrier_init`. -/
def initial (N : Nat) : State N where
  data _ := ⟨false, fun _ => false, fun _ => ⟨0, 0⟩⟩
  leader := ⟨fun _ => .anonymous, fun _ => 0⟩
  inside _ := false
  notifies := []
  dones := []
  responding := []
  notified _ := 0
  completed _ := 0
  arg _ _ := .anonymous
  result _ _ := .anonymous
  ended := 0
  counted _ := []

namespace Data

/-- `gasnete_amcbarrier_notify`: enter the new phase. -/
@[simp] def flipPhase (d : Data) : Data := { d with phase := !d.phase }

/-- The first writes of `gasnete_amcbarrier_done_reqh`. -/
@[simp] def respond (d : Data) (phase : Bool) (a : Tag) : Data :=
  { d with response := Function.update d.response phase a }

/-- Its last write. -/
@[simp] def markDone (d : Data) (phase : Bool) : Data :=
  { d with responseDone := Function.update d.responseDone phase true }

/-- `gasnete_amcbarrier_wait` once `amcbarrier_response_done` is set. -/
@[simp] def wait (d : Data) : Data :=
  { d with responseDone := Function.update d.responseDone d.phase false }

/-- What it returns. -/
def waitOk (d : Data) (a : Tag) : Bool :=
  if (d.response d.phase).hasMismatch then false
  else if (a.flags ||| (d.response d.phase).flags) &&& ANONYMOUS = 0 ∧
      a.value ≠ (d.response d.phase).value then false
  else true

end Data

namespace Leader

/-- `gasnete_amcbarrier_notify_reqh`. -/
@[simp] def notify (l : Leader) (phase : Bool) (a : Tag) : Leader where
  consensus := Function.update l.consensus phase ((l.consensus phase).merge a)
  count := Function.update l.count phase (l.count phase + 1)

/-- The locked part of `gasnete_amcbarrier_kick`, when all have been counted. -/
@[simp] def kick (l : Leader) (phase : Bool) : Leader where
  consensus := Function.update l.consensus phase { l.consensus phase with flags := ANONYMOUS }
  count := Function.update l.count phase 0

end Leader

inductive Action (N : Nat)
  | notify (r : Fin N) (a : Tag)
  | singleton (r : Fin N) (a : Tag)
  | handle (m : Notify N)
  | kick (phase : Bool)
  | respond (m : Done N)
  | markDone (m : Done N)
  | wait (r : Fin N) (a : Tag) (ok : Bool)

namespace State

@[simp] def setData (s : State N) (r : Fin N) (d : Data) : State N :=
  { s with data := Function.update s.data r d }

/-- The barrier that `r` now starts is recorded as notified. -/
@[simp] def enter (s : State N) (r : Fin N) (a : Tag) : State N :=
  { s.setData r (s.data r).flipPhase with
    inside := Function.update s.inside r true
    notified := Function.update s.notified r (s.notified r + 1)
    arg := Function.update s.arg r (Function.update (s.arg r) (s.notified r + 1) a) }

@[simp] def notify (s : State N) (r : Fin N) (a : Tag) : State N :=
  { s.enter r a with
    notifies := ⟨r, s.notified r + 1, !(s.data r).phase, a⟩ :: s.notifies }

/-- `gasnete_amcbarrier_send` when `amcbarrier_max` is 1. -/
@[simp] def singleton (s : State N) (r : Fin N) (a : Tag) : State N :=
  { s.enter r a with
    data := Function.update s.data r
      (((s.data r).flipPhase.respond (!(s.data r).phase) a).markDone (!(s.data r).phase))
    ended := s.ended + 1
    counted := Function.update s.counted (s.ended + 1) [r] }

@[simp] def handle (s : State N) (m : Notify N) : State N :=
  { s with
    leader := s.leader.notify m.phase m.arg
    notifies := s.notifies.erase m
    counted := Function.update s.counted m.epoch (m.src :: s.counted m.epoch) }

/-- One done request to every rank. -/
@[simp] def kick (s : State N) (phase : Bool) : State N :=
  { s with
    leader := s.leader.kick phase
    dones := (List.finRange N).map (fun r => ⟨r, s.ended + 1, phase, s.leader.consensus phase⟩) ++
      s.dones
    ended := s.ended + 1 }

@[simp] def respond (s : State N) (m : Done N) : State N :=
  { s.setData m.dst ((s.data m.dst).respond m.phase m.arg) with
    dones := s.dones.erase m
    responding := m :: s.responding }

@[simp] def markDone (s : State N) (m : Done N) : State N :=
  { s.setData m.dst ((s.data m.dst).markDone m.phase) with responding := s.responding.erase m }

@[simp] def wait (s : State N) (r : Fin N) : State N :=
  { s.setData r (s.data r).wait with
    inside := Function.update s.inside r false
    completed := Function.update s.completed r (s.completed r + 1)
    result := Function.update s.result r (Function.update (s.result r) (s.completed r + 1)
      ((s.data r).response (s.data r).phase)) }

end State

/-- Each rank alternates `notify` and `wait`; handlers run at any time. A kick reads the phase
before it takes the lock, and may find the other phase by then. -/
inductive Step : State N → Action N → State N → Prop
  | notify {s : State N} {r : Fin N} {a : Tag} (hout : s.inside r = false) (hN : N ≠ 1) :
      Step s (.notify r a) (s.notify r a)
  | singleton {s : State N} {r : Fin N} {a : Tag} (hout : s.inside r = false) (hN : N = 1) :
      Step s (.singleton r a) (s.singleton r a)
  | handle {s : State N} {m : Notify N} (hm : m ∈ s.notifies) : Step s (.handle m) (s.handle m)
  | kick {s : State N} {phase : Bool} (hN : 0 < N) (hcount : s.leader.count phase = N) :
      Step s (.kick phase) (s.kick phase)
  | respond {s : State N} {m : Done N} (hm : m ∈ s.dones) : Step s (.respond m) (s.respond m)
  | markDone {s : State N} {m : Done N} (hm : m ∈ s.responding) :
      Step s (.markDone m) (s.markDone m)
  | wait {s : State N} {r : Fin N} {a : Tag} (hin : s.inside r = true)
      (hdone : (s.data r).responseDone (s.data r).phase = true) :
      Step s (.wait r a ((s.data r).waitOk a)) (s.wait r)

end Gasnet.Barrier.Amc
