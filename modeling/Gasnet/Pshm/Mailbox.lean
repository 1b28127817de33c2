import Mathlib.Logic.Function.Basic
import Gasnet.Foundation.Run
import Gasnet.Foundation.Follows

/-! The message queue of `gasneti_pshmnet_deliver_send_buffer` and `gasneti_pshmnet_recv`, one
step for each access to shared memory. -/
namespace Gasnet.Pshm

/-- What a producer does next. Offsets are numbers, and no payload has offset 0. -/
inductive Producer (Data : Type)
  | idle
  | prepared (offset : Nat) (message : Data)
  | linking (offset prev : Nat)
  deriving DecidableEq

/-- What the consumer does next, one constructor for each access of `gasneti_pshmnet_recv`. -/
inductive Consumer
  | idle
  | peekHead
  | readShead
  | testHead
  | takeHead
  | storeShead (head : Nat)
  | clearHead (head : Nat)
  | readNext (head : Nat)
  | casTail (head : Nat)
  | storeNext (head next : Nat)
  deriving DecidableEq

/-- A queue, its payloads and the threads that use it. The offsets in the queue, the messages
sent and what was read from the payloads received are history. -/
structure Mailbox (Thread Data : Type) where
  tail : Nat
  head : Nat
  shead : Nat
  next : Nat → Nat
  data : Nat → Option (Thread × Data)
  inUse : Nat → Bool
  producer : Thread → Producer Data
  consumer : Consumer
  held : List Nat
  queue : List Nat
  sent : List (Thread × Data)
  received : List (Option (Thread × Data))

namespace Mailbox

variable {Thread Data : Type} [DecidableEq Thread]

def initial : Mailbox Thread Data where
  tail := 0
  head := 0
  shead := 0
  next _ := 0
  data _ := none
  inUse _ := false
  producer _ := .idle
  consumer := .idle
  held := []
  queue := []
  sent := []
  received := []

def setProducer (s : Mailbox Thread Data) (i : Thread) (c : Producer Data) : Mailbox Thread Data :=
  { s with producer := Function.update s.producer i c }

def setConsumer (s : Mailbox Thread Data) (c : Consumer) : Mailbox Thread Data :=
  { s with consumer := c }

/-- `gasneti_pshmnet_get_send_buffer`, and the message written to the buffer. -/
def prepare (s : Mailbox Thread Data) (i : Thread) (a : Nat) (m : Data) : Mailbox Thread Data :=
  { s.setProducer i (.prepared a m) with
    next := Function.update s.next a 0
    data := Function.update s.data a (some (i, m))
    inUse := Function.update s.inUse a true }

/-- `gasneti_pshmnet_tail_swap`. -/
def swap (s : Mailbox Thread Data) (i : Thread) (a : Nat) (m : Data) : Mailbox Thread Data :=
  { s.setProducer i (.linking a s.tail) with
    tail := a
    queue := s.queue ++ [a]
    sent := s.sent ++ [(i, m)] }

/-- The store to `prev->next` or to `q->head`. -/
def link (s : Mailbox Thread Data) (i : Thread) (a prev : Nat) : Mailbox Thread Data :=
  let s := s.setProducer i .idle
  if prev ≠ 0 then { s with next := Function.update s.next prev a } else { s with head := a }

/-- `q->shead = next`, and the message is returned. -/
def take (s : Mailbox Thread Data) (head next : Nat) : Mailbox Thread Data :=
  { s with
    consumer := .idle
    shead := next
    held := head :: s.held
    received := s.received ++ [s.data head] }

/-- `gasneti_pshmnet_recv_release`. -/
def release (s : Mailbox Thread Data) (a : Nat) : Mailbox Thread Data :=
  { s with
    inUse := Function.update s.inUse a false
    held := s.held.erase a }

end Mailbox

open Mailbox in
/-- The consumer alone. `empty` is a call that returns nothing. -/
inductive Recv {Thread Data : Type} [DecidableEq Thread] :
    Mailbox Thread Data → Bool → Mailbox Thread Data → Prop
  | start {s} (hc : s.consumer = .idle) : Recv s false (s.setConsumer .readShead)
  | peek {s} (hc : s.consumer = .idle) :
      Recv s false (s.setConsumer (if s.shead ≠ 0 then .readShead else .peekHead))
  | peekHead {s} (hc : s.consumer = .peekHead) (h : s.head ≠ 0) :
      Recv s false (s.setConsumer .readShead)
  | peekEmpty {s} (hc : s.consumer = .peekHead) (h : s.head = 0) :
      Recv s true (s.setConsumer .idle)
  | readShead {s} (hc : s.consumer = .readShead) :
      Recv s false (s.setConsumer (if s.shead ≠ 0 then .readNext s.shead else .testHead))
  | testHead {s} (hc : s.consumer = .testHead) (h : s.head ≠ 0) :
      Recv s false (s.setConsumer .takeHead)
  | testEmpty {s} (hc : s.consumer = .testHead) (h : s.head = 0) :
      Recv s true (s.setConsumer .idle)
  | takeHead {s} (hc : s.consumer = .takeHead) :
      Recv s false (s.setConsumer (.storeShead s.head))
  | storeShead {s h} (hc : s.consumer = .storeShead h) :
      Recv s false { s with consumer := .clearHead h, shead := h }
  | clearHead {s h} (hc : s.consumer = .clearHead h) :
      Recv s false { s with consumer := .readNext h, head := 0 }
  | nextSome {s h} (hc : s.consumer = .readNext h) (hn : s.next h ≠ 0) :
      Recv s false { s with consumer := .storeNext h (s.next h), queue := s.queue.tail }
  | nextNone {s h} (hc : s.consumer = .readNext h) (hn : s.next h = 0) :
      Recv s false (s.setConsumer (.casTail h))
  | casDone {s h} (hc : s.consumer = .casTail h) (ht : s.tail = h) :
      Recv s false { s with consumer := .storeNext h 0, tail := 0, queue := s.queue.tail }
  | casFail {s h} (hc : s.consumer = .casTail h) (ht : s.tail ≠ h) :
      Recv s false (s.setConsumer (.readNext h))
  | take {s h n} (hc : s.consumer = .storeNext h n) : Recv s false (s.take h n)

inductive MailboxAction (Thread Data : Type)
  | prepare (i : Thread) (a : Nat) (m : Data)
  | swap (i : Thread)
  | link (i : Thread)
  | recv (empty : Bool)
  | release (a : Nat)

open Mailbox in
/-- A step of a producer or of the consumer. A buffer that is allocated is not in use. -/
inductive MailboxStep {Thread Data : Type} [DecidableEq Thread] :
    Mailbox Thread Data → MailboxAction Thread Data → Mailbox Thread Data → Prop
  | prepare {s i a m} (hi : s.producer i = .idle) (ha : a ≠ 0) (hfree : s.inUse a = false) :
      MailboxStep s (.prepare i a m) (s.prepare i a m)
  | swap {s i a m} (hi : s.producer i = .prepared a m) :
      MailboxStep s (.swap i) (s.swap i a m)
  | link {s i a p} (hi : s.producer i = .linking a p) : MailboxStep s (.link i) (s.link i a p)
  | recv {s e t} (h : Recv s e t) : MailboxStep s (.recv e) t
  | release {s a} (ha : a ∈ s.held) : MailboxStep s (.release a) (s.release a)

end Gasnet.Pshm

/-! The invariant of the message queue: where its first element is found, and which links are
still to be stored. -/
namespace Gasnet.Pshm

variable {Thread Data : Type} {s t : Mailbox Thread Data}
  {i : Thread} {a : Nat} {m : Data}

/-- What the consumer has taken from the queue and not returned. -/
def Consumer.hand : Consumer → List Nat
  | .storeNext h _ => [h]
  | _ => []

/-- Where the consumer is going to find the first element. -/
def Consumer.entry (shead head : Nat) : Consumer → Nat
  | .storeNext _ n => if n ≠ 0 then n else head
  | _ => if shead ≠ 0 then shead else head

/-- What the consumer has seen of the two heads. -/
def Consumer.Sees (shead head : Nat) (next : Nat → Nat) : Consumer → Prop
  | .idle | .readShead => shead ≠ 0 → head = 0
  | .peekHead | .testHead => shead = 0
  | .takeHead => shead = 0 ∧ head ≠ 0
  | .storeShead h => shead = 0 ∧ head = h ∧ h ≠ 0
  | .clearHead h => shead = h ∧ head = h ∧ h ≠ 0
  | .readNext h | .casTail h => shead = h ∧ head = 0 ∧ h ≠ 0
  | .storeNext h n => shead = h ∧ next h = n ∧ h ≠ 0 ∧ (n ≠ 0 → head = 0)

theorem Consumer.Sees.congr {shead head : Nat} {next next' : Nat → Nat} {c : Consumer}
    (hc : c.Sees shead head next) (hnext : ∀ x ∈ c.hand, next' x = next x) :
    c.Sees shead head next' := by
  cases c with
  | storeNext h n =>
    obtain ⟨h₁, h₂, h₃⟩ := hc
    exact ⟨h₁, (hnext h (by simp [hand])).trans h₂, h₃⟩
  | _ => exact hc

/-- Nothing is found yet: a store to `q->head` is seen by every later read of the consumer. -/
theorem Consumer.Sees.store {shead head a : Nat} {next : Nat → Nat} {c : Consumer}
    (hc : c.Sees shead head next) (he : c.entry shead head = 0) :
    c.Sees shead a next ∧ c.entry shead a = a := by
  cases c <;> grind [Sees, entry]

namespace Mailbox

/-- The tail was exchanged for `a`, and the link to it is not stored yet. -/
def Mid (s : Mailbox Thread Data) (a : Nat) : Prop := ∃ i p, s.producer i = .linking a p

def hand (s : Mailbox Thread Data) : List Nat := s.consumer.hand

def entry (s : Mailbox Thread Data) : Nat := s.consumer.entry s.shead s.head

/-- The first element is found from the consumer's side, or not linked yet. -/
def Front (s : Mailbox Thread Data) : Prop :=
  s.queue.head? = some s.entry ∧ s.entry ≠ 0 ∧ ¬s.Mid s.entry ∨
    s.entry = 0 ∧ ∀ a, s.queue.head? = some a → s.Mid a

structure Inv (s : Mailbox Thread Data) : Prop where
  sees : s.consumer.Sees s.shead s.head s.next
  live : (s.hand ++ s.queue ++ s.held).Nodup
  used : ∀ a ∈ s.hand ++ s.queue ++ s.held, s.inUse a = true ∧ a ≠ 0
  prepared : ∀ i a m, s.producer i = .prepared a m → a ∉ s.hand ++ s.queue ++ s.held ∧
    s.inUse a = true ∧ a ≠ 0 ∧ s.next a = 0 ∧ s.data a = some (i, m)
  tail : s.tail = s.queue.getLast?.getD 0
  linking : ∀ i a p, s.producer i = .linking a p → a ∈ s.queue ∧
    (p = 0 → s.queue.head? = some a) ∧ (p ≠ 0 → Follows s.queue p a)
  linkOnce : ∀ i j a p q, s.producer i = .linking a p → s.producer j = .linking a q → i = j
  links : ∀ x y, Follows s.queue x y → s.next x = y ∧ ¬s.Mid y ∨ s.next x = 0 ∧ s.Mid y
  last : ∀ a, s.queue.getLast? = some a → s.next a = 0
  front : s.Front
  log : s.sent.map some = s.received ++ (s.hand ++ s.queue).map s.data

theorem inv_initial : (initial : Mailbox Thread Data).Inv where
  sees := by simp [Consumer.Sees, initial]
  live := by simp [hand, Consumer.hand, initial]
  used := by simp [hand, Consumer.hand, initial]
  prepared := by simp [initial]
  tail := rfl
  linking := by simp [initial]
  linkOnce := by simp [initial]
  links x y h := absurd h not_follows_nil
  last := by simp [initial]
  front := Or.inr ⟨by simp [entry, Consumer.entry, initial], by simp [initial]⟩
  log := by simp [hand, Consumer.hand, initial]

theorem Inv.nodup (hs : s.Inv) : s.queue.Nodup :=
  (List.nodup_append.mp (List.nodup_append.mp hs.live).1).2.1

theorem Inv.mem_live (hs : s.Inv) (ha : a ∈ s.queue) : s.inUse a = true ∧ a ≠ 0 :=
  hs.used a (by simp [ha])

theorem Inv.prepared_ne (hs : s.Inv) {j : Thread} {m' : Data} (hi : s.producer i = .prepared a m)
    (hj : s.producer j = .prepared a m') : i = j := by
  have hdi := (hs.prepared i a m hi).2.2.2.2
  have hdj := (hs.prepared j a m' hj).2.2.2.2
  rw [hdi] at hdj
  exact (Prod.mk.inj (Option.some.inj hdj)).1

/-- The entry is the first element, once that is linked. -/
theorem Inv.entry_eq (hs : s.Inv) (ha : s.queue.head? = some a) (hmid : ¬s.Mid a) :
    s.entry = a := by
  rcases hs.front with ⟨he, _, _⟩ | ⟨_, hall⟩
  · exact Option.some.inj (he.symm.trans ha)
  · exact absurd (hall a ha) hmid

end Mailbox
end Gasnet.Pshm
