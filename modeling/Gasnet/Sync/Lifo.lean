import Gasnet.Foundation.Chain
import Gasnet.Foundation.Run

/-! The LIFO of `gasnet_syncops.h`: a stack linked through the first word of its elements, pushed to and
popped from by any number of calls at a time. -/
namespace Gasnet.Lifo

/-- Compare-and-swap of head and tag, in one `gasneti_atomic_dblptr_t` or one `gasneti_atomic128_t`, or
the mutex-based default. -/
inductive Impl
  | cas | mutex
  deriving DecidableEq

/-- A call of `_gasneti_lifo_push`, of the elements in `front` and then `tail`, or `_gasneti_lifo_pop`. -/
inductive Call (E : Type*)
  | push (front : List E) (tail : E)
  | pop

variable {E : Type*}

/-- The elements a call brings. -/
def Call.chain : Call E → List E
  | push front tail => front ++ [tail]
  | pop => []

/-- What a stack is after the call. -/
def Call.effect : Call E → List E → List E
  | push front tail, l => front ++ tail :: l
  | pop, l => l.tail

/-- What the call gives back. -/
def Call.result : Call E → List E → Option E
  | push _ _, _ => none
  | pop, l => l.head?

/-- The calls of the list, one after the other, from the empty stack. -/
def stackAfter (calls : Nat → Call E) (order : List Nat) : List E :=
  order.foldl (fun l i => (calls i).effect l) []

/-- What they return, from the stack `l`. -/
def returned (calls : Nat → Call E) : List E → List Nat → List E
  | _, [] => []
  | l, i :: order => ((calls i).result l).toList ++ returned calls ((calls i).effect l) order

/-- Where a call is. `since` is the number of updates that the LIFO had seen when the tag was read. -/
inductive Stage (E : Type*)
  | idle
  | begun
  | pushHead (oldhead : Option E)
  | pushTag (oldhead : Option E) (tag : BitVec 64)
  | pushLinked (oldhead : Option E) (tag : BitVec 64)
  | popHead (oldhead : Option E)
  | popTag (oldhead : Option E) (tag : BitVec 64) (since : Nat)
  | popNext (oldhead : E) (tag : BitVec 64) (since : Nat) (newhead : Option E)
  | locked
  | pushWritten
  | popElem (elem : Option E)
  | popFetched (elem : E) (next : Option E)
  | unlocking (elem : Option E)
  | done (elem : Option E)

/-- The call has not taken effect as a push. -/
def Stage.pending : Stage E → Prop
  | idle | unlocking _ | done _ => False
  | _ => True

/-- `link` is the first word of each element. `order` and `updates` are history: the calls that have taken
effect, and how often the head was set. -/
structure State (E : Type*) where
  link : E → Option E
  head : Option E
  tag : BitVec 64
  lock : Option Nat
  stage : Nat → Stage E
  order : List Nat
  updates : Nat

/-- `_gasneti_lifo_init`. -/
def initial (link : E → Option E) : State E := ⟨link, none, 0, none, fun _ => .idle, [], 0⟩

namespace State

def setStage (s : State E) (i : Nat) (g : Stage E) : State E :=
  { s with stage := Function.update s.stage i g }

def write [DecidableEq E] (s : State E) (x : E) (v : Option E) : State E :=
  { s with link := Function.update s.link x v }

/-- The head is set, which makes call `i` take effect. -/
def setHead (s : State E) (i : Nat) (h : Option E) : State E :=
  { s with head := h, order := s.order ++ [i], updates := s.updates + 1 }

/-- The same, together with the tag. -/
def swing (s : State E) (i : Nat) (h : Option E) (tag : BitVec 64) : State E :=
  { s.setHead i h with tag := tag }

/-- Call `i` takes effect on the empty stack. -/
def note (s : State E) (i : Nat) : State E := { s with order := s.order ++ [i] }

def setLock (s : State E) (l : Option Nat) : State E := { s with lock := l }

end State

/-- An element on its way onto the stack. -/
def Holds (calls : Nat → Call E) (s : State E) (i : Nat) (x : E) : Prop :=
  (s.stage i).pending ∧ x ∈ (calls i).chain

/-- An element that is neither on the stack nor on its way there. -/
def Out (calls : Nat → Call E) (s : State E) (x : E) : Prop :=
  x ∉ stackAfter calls s.order ∧ ∀ i, ¬Holds calls s i x

/-- A step of call `i`, or a write to an element that is not in use. -/
inductive Action (E : Type*)
  | call (i : Nat)
  | write (x : E) (v : Option E)

variable [DecidableEq E]

inductive Step (impl : Impl) (calls : Nat → Call E) (s : State E) : Action E → State E → Prop
  /-- A chain to push is linked in its order, up to the tail. -/
  | push {i : Nat} {front : List E} {tail : E} {e : Option E} : s.stage i = .idle →
      calls i = .push front tail → (front ++ [tail]).Nodup →
      Chain s.link (front ++ [tail]).head? (front ++ [tail]) e →
      (∀ x ∈ front ++ [tail], Out calls s x) → Step impl calls s (.call i) (s.setStage i .begun)
  | pop {i : Nat} : s.stage i = .idle → calls i = .pop →
      Step impl calls s (.call i) (s.setStage i .begun)
  | pushHead {i : Nat} {front : List E} {tail : E} : impl = .cas → s.stage i = .begun →
      calls i = .push front tail → Step impl calls s (.call i) (s.setStage i (.pushHead s.head))
  | pushTag {i : Nat} {oldhead : Option E} : s.stage i = .pushHead oldhead →
      Step impl calls s (.call i) (s.setStage i (.pushTag oldhead s.tag))
  /-- `*tail = (void *)oldhead`. -/
  | pushLink {i : Nat} {oldhead : Option E} {tag : BitVec 64} {front : List E} {tail : E} :
      s.stage i = .pushTag oldhead tag → calls i = .push front tail →
      Step impl calls s (.call i) ((s.write tail oldhead).setStage i (.pushLinked oldhead tag))
  | pushSwap {i : Nat} {oldhead : Option E} {tag : BitVec 64} {front : List E} {tail : E} :
      s.stage i = .pushLinked oldhead tag → calls i = .push front tail →
      s.head = oldhead → s.tag = tag →
      Step impl calls s (.call i)
        ((s.swing i (front ++ [tail]).head? (tag + 1)).setStage i (.done none))
  | pushRetry {i : Nat} {oldhead : Option E} {tag : BitVec 64} :
      s.stage i = .pushLinked oldhead tag → ¬(s.head = oldhead ∧ s.tag = tag) →
      Step impl calls s (.call i) (s.setStage i .begun)
  | popHead {i : Nat} {x : E} : impl = .cas → s.stage i = .begun → calls i = .pop → s.head = some x →
      Step impl calls s (.call i) (s.setStage i (.popHead (some x)))
  | popHeadNull {i : Nat} : impl = .cas → s.stage i = .begun → calls i = .pop → s.head = none →
      Step impl calls s (.call i) ((s.note i).setStage i (.popHead none))
  | popTag {i : Nat} {oldhead : Option E} : s.stage i = .popHead oldhead →
      Step impl calls s (.call i) (s.setStage i (.popTag oldhead s.tag s.updates))
  /-- `if_pf (!oldhead) break`. -/
  | popBreak {i : Nat} {tag : BitVec 64} {since : Nat} : s.stage i = .popTag none tag since →
      Step impl calls s (.call i) (s.setStage i (.done none))
  | popNext {i : Nat} {oldhead : E} {tag : BitVec 64} {since : Nat} :
      s.stage i = .popTag (some oldhead) tag since →
      Step impl calls s (.call i) (s.setStage i (.popNext oldhead tag since (s.link oldhead)))
  | popSwap {i : Nat} {oldhead : E} {tag : BitVec 64} {since : Nat} {newhead : Option E} :
      s.stage i = .popNext oldhead tag since newhead → s.head = some oldhead → s.tag = tag →
      Step impl calls s (.call i) ((s.swing i newhead (tag + 1)).setStage i (.done (some oldhead)))
  | popRetry {i : Nat} {oldhead : E} {tag : BitVec 64} {since : Nat} {newhead : Option E} :
      s.stage i = .popNext oldhead tag since newhead → ¬(s.head = some oldhead ∧ s.tag = tag) →
      Step impl calls s (.call i) (s.setStage i .begun)
  | lock {i : Nat} : impl = .mutex → s.stage i = .begun → s.lock = none →
      Step impl calls s (.call i) ((s.setLock (some i)).setStage i .locked)
  /-- `*tail = p->head`. -/
  | pushWrite {i : Nat} {front : List E} {tail : E} : s.stage i = .locked →
      calls i = .push front tail →
      Step impl calls s (.call i) ((s.write tail s.head).setStage i .pushWritten)
  | pushSet {i : Nat} {front : List E} {tail : E} : s.stage i = .pushWritten →
      calls i = .push front tail →
      Step impl calls s (.call i) ((s.setHead i (front ++ [tail]).head?).setStage i (.unlocking none))
  | popElem {i : Nat} : s.stage i = .locked → calls i = .pop →
      Step impl calls s (.call i) (s.setStage i (.popElem s.head))
  | popNull {i : Nat} : s.stage i = .popElem none →
      Step impl calls s (.call i) ((s.note i).setStage i (.unlocking none))
  | popFetch {i : Nat} {elem : E} : s.stage i = .popElem (some elem) →
      Step impl calls s (.call i) (s.setStage i (.popFetched elem (s.link elem)))
  | popSet {i : Nat} {elem : E} {next : Option E} : s.stage i = .popFetched elem next →
      Step impl calls s (.call i) ((s.setHead i next).setStage i (.unlocking (some elem)))
  | unlock {i : Nat} {elem : Option E} : s.stage i = .unlocking elem →
      Step impl calls s (.call i) ((s.setLock none).setStage i (.done elem))
  | write {x : E} {v : Option E} : Out calls s x → Step impl calls s (.write x v) (s.write x v)

/-- Since each pop that is about to swap has read its tag, there were fewer than 2⁶⁴ updates. -/
def Timely (s : State E) : Prop :=
  ∀ i oldhead tag since newhead, s.stage i = .popNext oldhead tag since newhead →
    s.updates < since + 2 ^ 64

/-- A step taken in time. -/
def TimelyStep (impl : Impl) (calls : Nat → Call E) (s : State E) (a : Action E) (t : State E) : Prop :=
  Timely s ∧ Step impl calls s a t

end Gasnet.Lifo
