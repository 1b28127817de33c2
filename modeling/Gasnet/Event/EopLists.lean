import Gasnet.Foundation.Chain
import Gasnet.Foundation.Run

/-! The free lists of explicit ops: each thread has a private list, and a list under a lock that
other threads push on. -/
namespace Gasnet.Event.EopLists

variable {O T : Type*} [DecidableEq O] [DecidableEq T]

/-- Where a push is: before it, holding the lock, with the last link written, with the list written. -/
inductive Stage
  | start
  | locked
  | linked
  | published

/-- The chains of an array test, and which ops are in the first. -/
structure Batch (O T : Type*) where
  threadidx : Option T
  main : Queue O
  other : Queue O
  mains : List O

/-- Where a thread is. -/
inductive Pc (O T : Type*)
  | idle
  /-- `gasnete_eop_new`: the private list was empty. -/
  | empty
  | locked
  | read (eop : Option O)
  | cleared (eop : Option O)
  | alloc
  | take (eop : O)
  /-- `gasnete_test_array`: the pass over the events. -/
  | batch (b : Batch O T)
  /-- The ops `seg` between `q.head` and `q.tail` go to a list of `u`, then those from `rest` on. -/
  | free (q : Queue O) (seg : List O) (u : T) (stage : Stage) (rest : Option O)
  | rest (eop : Option O)

/-- Where an op is. -/
inductive Place (T : Type*)
  | fresh
  | inUse
  /-- In use, and about to be freed by a thread. -/
  | claimed (t : T)
  | free
  | foreign
  deriving DecidableEq

/-- The memory, the lock of each foreign list, where each thread is, and what became of each op. -/
structure State (O T : Type*) where
  next : O → Option O
  threadidx : O → Option T
  anyLive : O → Bool
  eopFree : T → Option O
  foreignEops : T → Option O
  foreignLock : T → Option T
  pc : T → Pc O T
  place : O → Place T
  handed : O → Nat
  freed : O → Nat

/-- Nothing allocated. -/
def initial : State O T where
  next := fun _ => none
  threadidx := fun _ => none
  anyLive := fun _ => false
  eopFree := fun _ => none
  foreignEops := fun _ => none
  foreignLock := fun _ => none
  pc := fun _ => .idle
  place := fun _ => .fresh
  handed := fun _ => 0
  freed := fun _ => 0

namespace State
variable (s : State O T) (t u : T) (o : O)

def goto (p : Pc O T) : State O T := { s with pc := Function.update s.pc t p }

/-- The ops that satisfy `p` go to `a`. -/
def move (p : O → Bool) (a : Place T) : State O T :=
  { s with place := fun o => if p o then a else s.place o }

/-- `*tail_p = v` for the ops on their way to a list. -/
def close (q : Queue O) (v : Option O) : State O T := { s with next := q.close s.next v }

/-- The chunk that `gasnete_eop_alloc` links. -/
def linkChunk : O → List O → (O → Option O) → O → Option O
  | c, [], next => Function.update next c none
  | c, d :: cs, next => Function.update (linkChunk d cs next) c (some d)

/-- Start of `gasnete_eop_new`. -/
def new : State O T :=
  s.goto t (match s.eopFree t with
    | none => .empty
    | some o => .take o)

/-- Where `gasnete_eop_new` goes from the foreign list. -/
def harvested : Option O → Pc O T
  | none => .alloc
  | some o => .take o

def lock (p : Pc O T) : State O T :=
  { s with
    foreignLock := Function.update s.foreignLock u (some t)
    pc := Function.update s.pc t p }

def unlock (p : Pc O T) : State O T :=
  { s with
    foreignLock := Function.update s.foreignLock u none
    pc := Function.update s.pc t p }

/-- `thread->foreign_eops = NULL`. -/
def clear (e : Option O) : State O T :=
  ({ s with foreignEops := Function.update s.foreignEops t none }.move
    (fun o => s.threadidx o = some t ∧ s.place o = Place.foreign) .free).goto t (.cleared e)

/-- `gasnete_eop_alloc`. -/
def alloc (c : O) (cs : List O) : State O T :=
  ({ s with
    next := linkChunk c cs s.next
    threadidx := fun o => if o ∈ c :: cs then some t else s.threadidx o
    eopFree := Function.update s.eopFree t (some c) }.move (fun o => o ∈ c :: cs) .free).goto t
      (.take c)

/-- `thread->eop_free = eop->next`, and the op is the caller's. -/
def handOut : State O T :=
  ({ s with
    eopFree := Function.update s.eopFree t (s.next o)
    anyLive := Function.update s.anyLive o true
    handed := Function.update s.handed o (s.handed o + 1) }.move (· = o) .inUse).goto t .idle

/-- A successful test of a single event. -/
def test : State O T :=
  (s.move (· = o) (.claimed t)).goto t (.free ⟨some o, some o⟩ [o] u .start none)

/-- Link an op whose event is done into the chain of its owner, or into that of the others. -/
def batchAdd (b : Batch O T) : State O T :=
  let other := match b.threadidx with
    | none => false
    | some v => decide (v ≠ u)
  let r := (if other then b.other else b.main).push s.next o
  ({ s with next := r.2 }.move (· = o) (.claimed t)).goto t
    (.batch (if other then { b with other := r.1 }
      else { b with threadidx := some (b.threadidx.getD u), main := r.1, mains := b.mains ++ [o] }))

/-- The end of the pass. -/
def batchEnd (b : Batch O T) : State O T :=
  s.goto t (match b.main.head, b.threadidx with
    | some _, some u => .free b.main b.mains u .start b.other.head
    | _, _ => .rest b.other.head)

/-- What was pushed is free. -/
def count (seg : List O) : State O T :=
  { s with freed := fun o => if o ∈ seg then s.freed o + 1 else s.freed o }

/-- The push on the private list. -/
def pushLocal (q : Queue O) (seg : List O) (r : Option O) : State O T :=
  (({ s.close q (s.eopFree t) with
    eopFree := Function.update s.eopFree t q.head }.move (· ∈ seg) .free).count seg).goto t
      (.rest r)

/-- `thread->foreign_eops = head`. -/
def publish (q : Queue O) (seg : List O) (r : Option O) : State O T :=
  (({ s with foreignEops := Function.update s.foreignEops u q.head }.move
    (· ∈ seg) .foreign).count seg).goto t (.free q seg u .published r)

end State

inductive Action (O T : Type*)
  | handOut (t : T) (o : O)
  | claim (t : T) (o : O)
  | mark (o : O) (live : Bool)
  | run (t : T)

open State in
/-- One step of thread `t`, or a change to the events of an op in use. An event is synced by one
thread, after which its op is not used. -/
inductive Step : State O T → Action O T → State O T → Prop
  | new {s t} : s.pc t = .idle → Step s (.run t) (s.new t)
  | lockOwn {s t} : s.pc t = .empty → s.foreignLock t = none → Step s (.run t) (s.lock t t .locked)
  | read {s t} : s.pc t = .locked → Step s (.run t) (s.goto t (.read (s.foreignEops t)))
  | clear {s t e} : s.pc t = .read e → Step s (.run t) (s.clear t e)
  | unlockOwn {s t e} : s.pc t = .cleared e → Step s (.run t) (s.unlock t t (harvested e))
  | alloc {s t c cs} : s.pc t = .alloc → (c :: cs).Nodup → (∀ o ∈ c :: cs, s.place o = .fresh) →
      Step s (.run t) (s.alloc t c cs)
  | handOut {s t o} : s.pc t = .take o → Step s (.handOut t o) (s.handOut t o)
  | mark {s o b} : s.place o = .inUse →
      Step s (.mark o b) { s with anyLive := Function.update s.anyLive o b }
  | test {s t o u} : s.pc t = .idle → s.place o = .inUse → s.anyLive o = false →
      s.threadidx o = some u → Step s (.claim t o) (s.test t u o)
  | batch {s t} : s.pc t = .idle → Step s (.run t) (s.goto t (.batch ⟨none, .empty, .empty, []⟩))
  | batchAdd {s t o u b} : s.pc t = .batch b → s.place o = .inUse → s.anyLive o = false →
      s.threadidx o = some u → Step s (.claim t o) (s.batchAdd t u o b)
  | batchEnd {s t b} : s.pc t = .batch b → Step s (.run t) (s.batchEnd t b)
  | done {s t} : s.pc t = .rest none → Step s (.run t) (s.goto t .idle)
  | more {s t o u} : s.pc t = .rest (some o) → s.threadidx o = some u →
      Step s (.run t) (s.goto t (.free ⟨some o, some o⟩ [o] u .start (s.next o)))
  | pushLocal {s t q seg r} : s.pc t = .free q seg t .start r →
      Step s (.run t) (s.pushLocal t q seg r)
  | pushLock {s t q seg u r} : s.pc t = .free q seg u .start r → u ≠ t → s.foreignLock u = none →
      Step s (.run t) (s.lock t u (.free q seg u .locked r))
  | pushLink {s t q seg u r} : s.pc t = .free q seg u .locked r →
      Step s (.run t) ((s.close q (s.foreignEops u)).goto t (.free q seg u .linked r))
  | publish {s t q seg u r} : s.pc t = .free q seg u .linked r →
      Step s (.run t) (s.publish t u q seg r)
  | pushUnlock {s t q seg u r} : s.pc t = .free q seg u .published r →
      Step s (.run t) (s.unlock t u (.rest r))

end Gasnet.Event.EopLists
