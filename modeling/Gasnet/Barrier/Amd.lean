import Gasnet.Barrier.Spec
import Gasnet.Foundation.Dissemination
import Gasnet.Foundation.Run

/-! The AM dissemination barrier of one team, with any order of message handling. -/
namespace Gasnet.Barrier.Amd

open Dissemination

variable {N : Nat}

/-- The loop `for (i=1; i<N; i*=2) ++count`, which ends within `fuel` rounds. -/
def countPeers (N : Nat) : (fuel i : Nat) → Nat
  | 0, _ => 0
  | fuel + 1, i => if i < N then countPeers N fuel (i * 2) + 1 else 0

/-- `peers->num`, the number of steps. -/
def size (N : Nat) : Nat := countPeers N N 1

/-- `gasnete_coll_amdbarrier_t`, without the constants and the lock. -/
structure Data where
  value : Arg
  flags : Arg
  step : Nat
  phase : Bool
  stepDone : Bool → Nat → Bool
  recv : Bool → Tag

/-- A rank is outside, inside `notify`, or between its `notify` and its `wait`. -/
inductive PC
  | outside
  | notifying
  | inside
  deriving DecidableEq

/-- A `gasnete_amdbarrier_notify_reqh` request. The sender and the number of the barrier are
ghosts: the handler reads neither. -/
structure Msg (N : Nat) where
  src : Fin N
  epoch : Nat
  dst : Fin N
  phase : Bool
  step : Nat
  arg : Tag
  deriving DecidableEq

/-- Requests in flight, requests past the locked half of their handler, and the history of
each rank: barriers notified and completed, what it passed and what it found. -/
structure State (N : Nat) where
  data : Fin N → Data
  pc : Fin N → PC
  requests : List (Msg N)
  merged : List (Msg N)
  notified : Fin N → Nat
  completed : Fin N → Nat
  arg : Fin N → Nat → Tag
  result : Fin N → Nat → Tag

/-- `gasnete_amdbarrier_init`. -/
def initData : Data :=
  ⟨0, 0, 0, false, fun _ _ => false, fun _ => .anonymous⟩

def initial (N : Nat) : State N :=
  ⟨fun _ => initData, fun _ => .outside, [], [], fun _ => 0, fun _ => 0,
    fun _ _ => .anonymous, fun _ _ => .anonymous⟩

namespace Data

/-- The notify argument of this rank. -/
def localArg (d : Data) : Tag := ⟨d.value, d.flags⟩

/-- The first half of `notify`: record the argument and restart at step 0. -/
@[simp] def notifyArg (d : Data) (a : Tag) : Data :=
  { d with value := a.value, flags := a.flags, step := 0 }

/-- The second half of `notify`. -/
@[simp] def flipPhase (d : Data) : Data := { d with phase := !d.phase }

/-- `gasnete_amdbarrier_notify_singleton`: no peers, so the result is the argument. -/
@[simp] def notifySingleton (d : Data) (a : Tag) : Data :=
  { d with
    value := a.value
    flags := a.flags
    phase := !d.phase
    recv := Function.update d.recv (!d.phase) a }

/-- The locked half of `gasnete_amdbarrier_notify_reqh`. -/
@[simp] def mergeRecv (d : Data) (phase : Bool) (a : Tag) : Data :=
  { d with recv := Function.update d.recv phase ((d.recv phase).merge a) }

/-- The unlocked half of `gasnete_amdbarrier_notify_reqh`. -/
@[simp] def markDone (d : Data) (phase : Bool) (step : Nat) : Data :=
  { d with
    stepDone := Function.update d.stepDone phase
      (Function.update (d.stepDone phase) step true) }

/-- The cursor loop of `gasnete_amdbarrier_kick`: how far the done slots reach. -/
def scan (done : Nat → Bool) : (fuel cursor : Nat) → Nat
  | 0, cursor => cursor
  | fuel + 1, cursor => if done cursor then scan done fuel (cursor + 1) else cursor

def cursor (size : Nat) (d : Data) : Nat := scan (d.stepDone d.phase) (size - d.step) d.step

/-- The pair a kick that made progress leaves in `recv`: the local argument joins it once. -/
def kickRecv (d : Data) : Tag :=
  if d.step = 0 then (d.recv d.phase).merge d.localArg else d.recv d.phase

/-- The locked half of `gasnete_amdbarrier_kick`. -/
def kick (size : Nat) (d : Data) : Data :=
  if d.cursor size = d.step then d
  else
    { d with
      stepDone := Function.update d.stepDone d.phase fun t =>
        if d.step ≤ t ∧ t < d.cursor size then false else d.stepDone d.phase t
      recv := Function.update d.recv d.phase d.kickRecv
      step := d.cursor size }

/-- The number of messages a kick sends: none at the last step. -/
def numSends (size : Nat) (d : Data) : Nat :=
  if d.cursor size = size then d.cursor size - d.step - 1 else d.cursor size - d.step

/-- The steps whose messages a kick sends. -/
def kickSteps (size : Nat) (d : Data) : List Nat := List.range' (d.step + 1) (d.numSends size)

/-- `gasnete_amdbarrier_wait` once `step == size`. -/
@[simp] def wait (d : Data) : Data :=
  { d with
    value := (d.recv d.phase).value
    flags := (d.recv d.phase).flags
    recv := Function.update d.recv d.phase { d.recv d.phase with flags := ANONYMOUS } }

/-- What `wait` returns: true for GASNET_OK, false for GASNET_ERR_BARRIER_MISMATCH. -/
def waitOk (d : Data) (a : Tag) : Bool :=
  if (d.recv d.phase).hasMismatch then false
  else if (a.flags ||| (d.recv d.phase).flags) &&& ANONYMOUS = 0 ∧
      a.value ≠ (d.recv d.phase).value then false
  else true

end Data

inductive Action (N : Nat)
  | notify (r : Fin N) (a : Tag)
  | send (r : Fin N)
  | singleton (r : Fin N) (a : Tag)
  | handle (m : Msg N)
  | markDone (m : Msg N)
  | kick (r : Fin N)
  | wait (r : Fin N) (a : Tag) (ok : Bool)

/-- The rank whose record the action touches. -/
def Action.actor : Action N → Fin N
  | .notify r _ | .send r | .singleton r _ | .kick r | .wait r _ _ => r
  | .handle m | .markDone m => m.dst

namespace State

@[simp] def setData (s : State N) (r : Fin N) (d : Data) : State N :=
  { s with data := Function.update s.data r d }

/-- The message of a step to the peer of that step. -/
@[simp] def message (s : State N) (r : Fin N) (step : Nat) (a : Tag) : Msg N :=
  ⟨r, s.notified r, fwd r step, (s.data r).phase, step, a⟩

@[simp] def notify (s : State N) (r : Fin N) (a : Tag) : State N :=
  { s.setData r ((s.data r).notifyArg a) with pc := Function.update s.pc r .notifying }

/-- The barrier that `r` now starts is recorded as notified. -/
@[simp] def enter (s : State N) (r : Fin N) (a : Tag) : State N :=
  { s with
    pc := Function.update s.pc r .inside
    notified := Function.update s.notified r (s.notified r + 1)
    arg := Function.update s.arg r (Function.update (s.arg r) (s.notified r + 1) a) }

@[simp] def flip (s : State N) (r : Fin N) : State N :=
  (s.enter r (s.data r).localArg).setData r (s.data r).flipPhase

@[simp] def send (s : State N) (r : Fin N) : State N :=
  { s.flip r with requests := (s.flip r).message r 0 (s.data r).localArg :: s.requests }

@[simp] def singleton (s : State N) (r : Fin N) (a : Tag) : State N :=
  (s.enter r a).setData r ((s.data r).notifySingleton a)

@[simp] def handle (s : State N) (m : Msg N) : State N :=
  { s.setData m.dst ((s.data m.dst).mergeRecv m.phase m.arg) with
    requests := s.requests.erase m
    merged := m :: s.merged }

@[simp] def markDone (s : State N) (m : Msg N) : State N :=
  { s.setData m.dst ((s.data m.dst).markDone m.phase m.step) with merged := s.merged.erase m }

@[simp] def kick (s : State N) (r : Fin N) : State N :=
  { s.setData r ((s.data r).kick (size N)) with
    requests := ((s.data r).kickSteps (size N)).map
      (fun t => s.message r t (s.data r).kickRecv) ++ s.requests }

@[simp] def wait (s : State N) (r : Fin N) : State N :=
  { s.setData r (s.data r).wait with
    pc := Function.update s.pc r .outside
    completed := Function.update s.completed r (s.completed r + 1)
    result := Function.update s.result r (Function.update (s.result r) (s.completed r + 1)
      ((s.data r).recv (s.data r).phase)) }

end State

/-- Each rank alternates `notify` and `wait`; handlers and kicks run at any time. -/
inductive Step : State N → Action N → State N → Prop
  | notify {s : State N} {r : Fin N} {a : Tag} (hpc : s.pc r = .outside) (hN : 0 < size N) :
      Step s (.notify r a) (s.notify r a)
  | send {s : State N} {r : Fin N} (hpc : s.pc r = .notifying) : Step s (.send r) (s.send r)
  | singleton {s : State N} {r : Fin N} {a : Tag} (hpc : s.pc r = .outside) (hN : size N = 0) :
      Step s (.singleton r a) (s.singleton r a)
  | handle {s : State N} {m : Msg N} (hm : m ∈ s.requests) : Step s (.handle m) (s.handle m)
  | markDone {s : State N} {m : Msg N} (hm : m ∈ s.merged) : Step s (.markDone m) (s.markDone m)
  | kick {s : State N} {r : Fin N} : Step s (.kick r) (s.kick r)
  | wait {s : State N} {r : Fin N} {a : Tag} (hpc : s.pc r = .inside)
      (hstep : (s.data r).step = size N) :
      Step s (.wait r a ((s.data r).waitOk a)) (s.wait r)

end Gasnet.Barrier.Amd
