import Gasnet.Barrier.Spec
import Gasnet.Coll.Seq32

/-! Consensus identifiers: many split-phase barriers over one, each rank trying its identifiers in
any order. -/
namespace Gasnet.Coll.Consensus

open Gasnet.Barrier (Tag Spec.State)

variable {N : Nat}

/-- Where both counters begin, near to their wrap-around. -/
def BASE : Nat := 0xfffffff8

/-- `GASNET_BARRIERFLAG_UNNAMED`. -/
def UNNAMED : Barrier.Arg := 9

/-- The arguments of the barrier: a debug build names it. -/
def name (debug : Bool) (consensusId : BitVec 32) : Tag :=
  if debug then ⟨consensusId, 0⟩ else ⟨0, UNNAMED⟩

/-- Why `gasnete_coll_consensus_try` tries the barrier. -/
inductive Why
  | predecessor
  | own
  | other

/-- Where a rank is in `gasnete_coll_consensus_try` for its `k`-th identifier. -/
inductive PC
  | idle
  | trying (why : Why) (k : Nat) (id : BitVec 32)
  | turn (k : Nat) (id : BitVec 32)
  | done (k : Nat) (id : BitVec 32)
  | fatal

/-- The counters of a rank, and the history: what it has created and what it has tried. -/
structure Local where
  issuedId : BitVec 32
  consensusId : BitVec 32
  pc : PC
  ids : List (BitVec 32)
  tried : List Nat

/-- `gasneti_assert`. -/
def checked (debug : Bool) (c : Prop) [Decidable c] (pc : PC) : PC :=
  if debug = true ∧ ¬c then .fatal else pc

namespace Local

/-- `gasnete_coll_consensus_create`. -/
def create (debug : Bool) (l : Local) : Local :=
  { l with
    issuedId := l.issuedId + 2
    ids := l.ids ++ [l.issuedId]
    pc := if seq32Safe debug l.issuedId l.consensusId then l.pc else .fatal }

/-- The `switch` of `gasnete_coll_consensus_try`. -/
def branch (l : Local) (k : Nat) (id : BitVec 32) : PC :=
  if id - l.consensusId = 1 then .trying .predecessor k id
  else if id - l.consensusId = 0 then .turn k id
  else if l.consensusId &&& 1 ≠ 0 then .trying .other k id
  else .done k id

def call (debug : Bool) (l : Local) (k : Nat) (id : BitVec 32) : Local :=
  { l with
    tried := k :: l.tried
    pc := checked debug (id &&& 1 = 0) (l.branch k id) }

/-- `gasnete_coll_consensus_do_notify`, less the barrier. -/
def notify (debug : Bool) (l : Local) (k : Nat) (id : BitVec 32) : Local :=
  { l with
    consensusId := l.consensusId + 1
    pc := checked debug (l.consensusId + 1 - id = 1) (.trying .own k id) }

/-- `gasnete_coll_consensus_do_try` has found the barrier complete. -/
def advance (debug : Bool) (l : Local) (why : Why) (k : Nat) (id : BitVec 32) : Local :=
  let c := l.consensusId + 1
  { l with
    consensusId := c
    pc := match why with
      | .predecessor => checked debug (id = c) (.turn k id)
      | .own => checked debug (c - id = 1 ∨ c - id = 2) (.done k id)
      | .other => .done k id }

/-- It has not. -/
def stay (debug : Bool) (l : Local) (why : Why) (k : Nat) (id : BitVec 32) : Local :=
  { l with
    pc := match why with
      | .predecessor => checked debug (id - l.consensusId = 1) (.done k id)
      | .own => checked debug (l.consensusId - id = 1 ∨ l.consensusId - id = 2) (.done k id)
      | .other => .done k id }

/-- The barrier has returned: a mismatch is fatal in a debug build, and not heeded in another. -/
def answer (debug : Bool) (l : Local) (why : Why) (k : Nat) (id : BitVec 32) (ok : Bool) : Local :=
  if ok then l.advance debug why k id
  else if debug then { l with pc := .fatal }
  else l.stay debug why k id

/-- What `gasnete_coll_consensus_try` returns. -/
def result (l : Local) (id : BitVec 32) : Bool := seq32Ge l.consensusId (id + 2)

def leave (debug : Bool) (l : Local) (id : BitVec 32) : Local :=
  { l with pc := if seq32Safe debug l.consensusId (id + 2) then .idle else .fatal }

end Local

structure State (N : Nat) where
  loc : Fin N → Local
  barrier : Spec.State N

def initial (N : Nat) : State N where
  loc _ := ⟨BitVec.ofNat 32 BASE, BitVec.ofNat 32 BASE, .idle, [], []⟩
  barrier := Barrier.Spec.initial N

def State.set (s : State N) (r : Fin N) (l : Local) : State N :=
  { s with loc := Function.update s.loc r l }

inductive Action (N : Nat)
  | create (r : Fin N)
  | call (r : Fin N) (k : Nat)
  | notify (r : Fin N)
  | notReady (r : Fin N)
  | ready (r : Fin N) (ok : Bool)
  | ret (r : Fin N) (k : Nat) (b : Bool)

/-- What a correct barrier promises a rank that has notified it: to answer when all have, and what
they have said. It promises nothing to others. -/
def Promised (b : Spec.State N) (r : Fin N) (a : Tag) (ok : Bool) : Prop :=
  b.notified r = b.completed r + 1 →
    (∀ j, b.notified r ≤ b.notified j) ∧ ok = Barrier.outcome (b.total (b.notified r)) a

inductive Step (debug : Bool) : State N → Action N → State N → Prop
  | create {s r} (hpc : (s.loc r).pc ≠ .fatal) :
      Step debug s (.create r) (s.set r ((s.loc r).create debug))
  | call {s r k id} (hpc : (s.loc r).pc = .idle) (hid : (s.loc r).ids[k]? = some id) :
      Step debug s (.call r k) (s.set r ((s.loc r).call debug k id))
  | notify {s r k id} (hpc : (s.loc r).pc = .turn k id) :
      Step debug s (.notify r)
        { s.set r ((s.loc r).notify debug k id) with
          barrier := s.barrier.notify r (name debug ((s.loc r).consensusId + 1)) }
  | notReady {s r why k id} (hpc : (s.loc r).pc = .trying why k id) :
      Step debug s (.notReady r) (s.set r ((s.loc r).stay debug why k id))
  | ready {s r why k id} (ok : Bool) (hpc : (s.loc r).pc = .trying why k id)
      (hok : Promised s.barrier r (name debug (s.loc r).consensusId) ok) :
      Step debug s (.ready r ok)
        { s.set r ((s.loc r).answer debug why k id ok) with barrier := s.barrier.wait r }
  | ret {s r k id} (hpc : (s.loc r).pc = .done k id) :
      Step debug s (.ret r k ((s.loc r).result id)) (s.set r ((s.loc r).leave debug id))

/-- The calls of the barrier. -/
def Action.event (debug : Bool) (s : State N) : Action N → Option (Barrier.Spec.Event N)
  | .notify r => some (.notify r (name debug ((s.loc r).consensusId + 1)))
  | .ready r ok => some (.wait r (name debug (s.loc r).consensusId) ok)
  | .create _ | .call _ _ | .notReady _ | .ret _ _ _ => none

/-- How many identifiers the counters can tell apart, in a debug build before an assertion. -/
def window (debug : Bool) : Nat := if debug then 2 ^ 29 else 2 ^ 30

/-- As many identifiers are outstanding, and none is tried that is older. -/
def Within (debug : Bool) (s : State N) : Action N → Prop
  | .create r => (s.loc r).ids.length < s.barrier.completed r + window debug
  | .call r k => s.barrier.notified r ≤ k + window debug
  | _ => True

def WindowStep (debug : Bool) (s : State N) (a : Action N) (t : State N) : Prop :=
  Step debug s a t ∧ Within debug s a

/-- About a billion barriers. -/
def FEW : Nat := 0x40000000

/-- Fewer than so many identifiers are outstanding, and any is tried. -/
def FewStep (debug : Bool) (s : State N) (a : Action N) (t : State N) : Prop :=
  Step debug s a t ∧
    ∀ r, a = .create r → (s.loc r).ids.length + 1 < s.barrier.completed r + FEW

end Gasnet.Coll.Consensus
