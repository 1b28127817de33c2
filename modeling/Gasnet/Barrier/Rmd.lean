import Gasnet.Barrier.Amd

/-! The RDMA dissemination barrier of one team: puts into the inboxes of the peers, visible
bit by bit in any order, and the kick that polls them. -/
namespace Gasnet.Barrier.Rmd

open Dissemination
open Amd (size)

variable {N : Nat}

/-- The words of a `gasnete_coll_rmdbarrier_inbox_t`. -/
inductive Field
  | flags
  | value
  | value2
  | flags2
  deriving DecidableEq

/-- An inbox, a payload, or a set of their bits. -/
abbrev Inbox := Field → Arg

/-- What `gasnete_rmdbarrier_send` stores in its in-segment temporary. -/
def payload (a : Tag) : Inbox
  | .flags => a.flags
  | .value => a.value
  | .value2 => ~~~a.value
  | .flags2 => ~~~a.flags

/-- The inbox after the bits in `mask` have been overwritten with those of `x`. -/
def overwrite (inbox x mask : Inbox) : Inbox := fun f =>
  inbox f &&& ~~~mask f ||| x f &&& mask f

/-- `gasnete_coll_rmdbarrier_t`, with the two parts of `barrier_state`; steps count from 0. -/
structure Data where
  value : Arg
  flags : Arg
  step : Nat
  phase : Nat

/-- The locals of a `gasnete_rmdbarrier_kick` that holds the lock: the step of `new_state`, the
running pair, and what it has read of the words of the current inbox. -/
structure Kick where
  step : Nat
  tag : Tag
  reads : Field → Option Arg

/-- A put of an inbox: its phase, the first step of the send that issued it, the bits that are
visible, and whether it is complete. The pair sent is a ghost: the words that become visible are
those of the temporary. -/
structure Put where
  phase : Nat
  first : Nat
  seen : Inbox
  done : Bool
  arg : Tag

/-- Inboxes and temporaries are indexed by phase and step, puts by sender, barrier and step.
The history of each rank is that of `Amd.State`. -/
structure State (N : Nat) where
  data : Fin N → Data
  inside : Fin N → Bool
  kick : Fin N → Option Kick
  inbox : Fin N → Nat → Nat → Inbox
  temporary : Fin N → Nat → Nat → Inbox
  puts : Fin N → Nat → Nat → Option Put
  notified : Fin N → Nat
  completed : Fin N → Nat
  arg : Fin N → Nat → Tag
  result : Fin N → Nat → Tag

/-- `gasnete_rmdbarrier_init`, over a zeroed auxiliary segment. -/
def initial (N : Nat) : State N :=
  ⟨fun _ => ⟨0, 0, 0, 0⟩, fun _ => false, fun _ => none, fun _ _ _ _ => 0, fun _ _ _ _ => 0,
    fun _ _ _ => none, fun _ => 0, fun _ => 0, fun _ _ => .anonymous, fun _ _ => .anonymous⟩

namespace Data

def tag (d : Data) : Tag := ⟨d.value, d.flags⟩

@[simp] def setTag (d : Data) (a : Tag) : Data := { d with value := a.value, flags := a.flags }

/-- `next_phase`. -/
def nextPhase (d : Data) : Nat := (d.phase + 1) % 4

/-- The phase of `alt_state`. -/
def altPhase (d : Data) : Nat := (d.phase + 2) % 4

/-- `gasnete_rmdbarrier_notify` enters the next phase at step 0. -/
@[simp] def notify (d : Data) (a : Tag) : Data :=
  { d.setTag a with step := 0, phase := d.nextPhase }

/-- What `wait` returns: true for GASNET_OK, false for GASNET_ERR_BARRIER_MISMATCH. -/
def waitOk (d : Data) (a : Tag) : Bool :=
  if d.tag.hasMismatch then false
  else if (a.flags ||| d.flags) &&& ANONYMOUS = 0 ∧ a.value ≠ d.value then false
  else true

/-- A kick that made progress publishes its running pair and its step. -/
@[simp] def advance (d : Data) (k : Kick) : Data := { d.setTag k.tag with step := k.step }

end Data

namespace Kick

/-- `gasnete_rmdbarrier_poll`, on the words read. -/
def Accepts (k : Kick) : Prop :=
  ∃ v v2 f f2, k.reads .value = some v ∧ k.reads .value2 = some v2 ∧
    k.reads .flags = some f ∧ k.reads .flags2 = some f2 ∧ v = ~~~v2 ∧ f = ~~~f2

/-- Either comparison of the poll came out false. -/
def Rejects (k : Kick) : Prop :=
  (∃ v v2, k.reads .value = some v ∧ k.reads .value2 = some v2 ∧ v ≠ ~~~v2) ∨
    ∃ f f2, k.reads .flags = some f ∧ k.reads .flags2 = some f2 ∧ f ≠ ~~~f2

/-- The body of the kick's loop: merge the accepted pair and go to the next inbox. -/
@[simp] def merge (k : Kick) (a : Tag) : Kick := ⟨k.step + 1, k.tag.merge a, fun _ => none⟩

@[simp] def read (k : Kick) (f : Field) (x : Arg) : Kick :=
  { k with reads := Function.update k.reads f (some x) }

end Kick

/-- A kick starts from the published state. -/
def Data.start (d : Data) : Kick := ⟨d.step, d.tag, fun _ => none⟩

/-- `numsteps` after the last adjustment: no send at the last step. -/
def numSends (size : Nat) (d : Data) (k : Kick) : Nat :=
  if size ≤ k.step then k.step - d.step - 1 else k.step - d.step

inductive Action (N : Nat)
  | notify (r : Fin N) (a : Tag)
  | singleton (r : Fin N) (a : Tag)
  | land (r : Fin N) (k i : Nat) (mask : Inbox)
  | complete (r : Fin N) (k i : Nat)
  | kickStart (r : Fin N)
  | read (r : Fin N) (f : Field)
  | consume (r : Fin N)
  | kickEnd (r : Fin N)
  | wait (r : Fin N) (a : Tag) (ok : Bool)

namespace State

@[simp] def setKick (s : State N) (r : Fin N) (k : Option Kick) : State N :=
  { s with kick := Function.update s.kick r k }

@[simp] def setData (s : State N) (r : Fin N) (d : Data) : State N :=
  { s with data := Function.update s.data r d }

@[simp] def setInbox (s : State N) (r : Fin N) (phase i : Nat) (x : Inbox) : State N :=
  { s with
    inbox := Function.update s.inbox r (Function.update (s.inbox r) phase
      (Function.update (s.inbox r phase) i x)) }

@[simp] def setPut (s : State N) (r : Fin N) (k i : Nat) (p : Put) : State N :=
  { s with
    puts := Function.update s.puts r (Function.update (s.puts r) k
      (Function.update (s.puts r k) i (some p))) }

/-- The pair accepted from an inbox. -/
def stepTag (s : State N) (r : Fin N) (phase i : Nat) : Tag :=
  ⟨s.inbox r phase i .value, s.inbox r phase i .flags⟩

/-- `gasnete_rmdbarrier_send`: the payload goes to the temporary of the other phase, and from
there to `num` consecutive steps, in barrier `k`. -/
@[simp] def send (s : State N) (r : Fin N) (k first num : Nat) (a : Tag) : State N :=
  { s with
    temporary := Function.update s.temporary r
      (Function.update (s.temporary r) ((s.data r).phase ^^^ 1)
        (Function.update (s.temporary r ((s.data r).phase ^^^ 1)) first (payload a)))
    puts := Function.update s.puts r (Function.update (s.puts r) k fun i =>
      if first ≤ i ∧ i < first + num then some ⟨(s.data r).phase, first, 0, false, a⟩
      else s.puts r k i) }

/-- The barrier that `r` now starts is recorded as notified. -/
@[simp] def enter (s : State N) (r : Fin N) (a : Tag) : State N :=
  { s with
    inside := Function.update s.inside r true
    notified := Function.update s.notified r (s.notified r + 1)
    arg := Function.update s.arg r (Function.update (s.arg r) (s.notified r + 1) a) }

@[simp] def notify (s : State N) (r : Fin N) (a : Tag) : State N :=
  ((s.enter r a).setData r ((s.data r).notify a)).send r (s.notified r + 1) 0 1 a

/-- `gasnete_rmdbarrier_notify_singleton`: no peers, and the state stays at the goal. -/
@[simp] def singleton (s : State N) (r : Fin N) (a : Tag) : State N :=
  (s.enter r a).setData r ((s.data r).setTag a)

/-- Some bits of a put become visible at its peer. -/
@[simp] def land (s : State N) (r : Fin N) (k i : Nat) (p : Put) (mask : Inbox) : State N :=
  (s.setInbox (fwd r i) p.phase i
    (overwrite (s.inbox (fwd r i) p.phase i) (s.temporary r (p.phase ^^^ 1) p.first) mask)).setPut
    r k i { p with seen := fun f => p.seen f ||| mask f }

@[simp] def complete (s : State N) (r : Fin N) (k i : Nat) (p : Put) : State N :=
  s.setPut r k i { p with done := true }

/-- Merge the pair of the current inbox and zero the one two phases on. -/
@[simp] def consume (s : State N) (r : Fin N) (k : Kick) : State N :=
  (s.setKick r (some (k.merge (s.stepTag r (s.data r).phase k.step)))).setInbox r
    (s.data r).altPhase k.step 0

/-- Publish what was consumed, and send it to the steps after it. -/
def kickEnd (s : State N) (r : Fin N) (k : Kick) : State N :=
  if k.step = (s.data r).step then s.setKick r none
  else if numSends (size N) (s.data r) k = 0 then
    (s.setKick r none).setData r ((s.data r).advance k)
  else
    ((s.setKick r none).setData r ((s.data r).advance k)).send r (s.notified r)
      ((s.data r).step + 1) (numSends (size N) (s.data r) k) k.tag

@[simp] def wait (s : State N) (r : Fin N) : State N :=
  { s with
    inside := Function.update s.inside r false
    completed := Function.update s.completed r (s.completed r + 1)
    result := Function.update s.result r (Function.update (s.result r) (s.completed r + 1)
      (s.data r).tag) }

/-- The puts of rank `r` for the barriers up to two before the next one are complete. -/
def Quiet (s : State N) (r : Fin N) : Prop :=
  ∀ k i p, k + 2 ≤ s.notified r + 1 → s.puts r k i = some p → p.done = true

end State

/-- Each rank alternates `notify` and `wait`. A kick runs between them, one at a time. -/
inductive Step : State N → Action N → State N → Prop
  | notify {s : State N} {r : Fin N} {a : Tag} (hin : s.inside r = false) (hN : 0 < size N)
      (hq : s.Quiet r) : Step s (.notify r a) (s.notify r a)
  | singleton {s : State N} {r : Fin N} {a : Tag} (hin : s.inside r = false) (hN : size N = 0) :
      Step s (.singleton r a) (s.singleton r a)
  | land {s : State N} {r : Fin N} {k i : Nat} {p : Put} {mask : Inbox}
      (hp : s.puts r k i = some p) (hd : p.done = false) :
      Step s (.land r k i mask) (s.land r k i p mask)
  | complete {s : State N} {r : Fin N} {k i : Nat} {p : Put} (hp : s.puts r k i = some p)
      (hseen : ∀ f, p.seen f = BitVec.allOnes 32) :
      Step s (.complete r k i) (s.complete r k i p)
  | kickStart {s : State N} {r : Fin N} (hin : s.inside r = true)
      (hstep : (s.data r).step < size N) (hk : s.kick r = none) :
      Step s (.kickStart r) (s.setKick r (some (s.data r).start))
  | read {s : State N} {r : Fin N} {f : Field} {k : Kick} (hk : s.kick r = some k)
      (hstep : k.step < size N) :
      Step s (.read r f) (s.setKick r (some (k.read f (s.inbox r (s.data r).phase k.step f))))
  | consume {s : State N} {r : Fin N} {k : Kick} (hk : s.kick r = some k)
      (hstep : k.step < size N) (ha : k.Accepts) : Step s (.consume r) (s.consume r k)
  | kickEnd {s : State N} {r : Fin N} {k : Kick} (hk : s.kick r = some k)
      (hend : k.step = size N ∨ k.Rejects) : Step s (.kickEnd r) (s.kickEnd r k)
  | wait {s : State N} {r : Fin N} {a : Tag} (hin : s.inside r = true)
      (hstep : (s.data r).step = size N) :
      Step s (.wait r a ((s.data r).waitOk a)) (s.wait r)

end Gasnet.Barrier.Rmd
