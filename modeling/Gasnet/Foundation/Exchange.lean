import Mathlib.Algebra.BigOperators.Group.Finset.Basic
import Mathlib.Algebra.BigOperators.Group.List.Basic
import Mathlib.Algebra.Order.BigOperators.Group.Finset
import Gasnet.Foundation.Run
import Gasnet.Foundation.Dissemination

/-! Exchanges over messages in steps of doubling distance, one exchange after the other. Every
rank has two buffers with a counter for each step, used in turn, and a message may come before
its target has begun the exchange that it belongs to. -/
namespace Gasnet.Exchange

variable {N : Nat} {σ W β : Type}

/-- Memory that was allocated. -/
structure Buffer (β : Type) where
  size : Nat
  byte : Nat → β

/-- What a handler reads off the arguments of a message. The size is for the allocation, if the
message is the first to need the buffer. -/
structure Landing where
  phase : Bool
  step : Nat
  size : Nat
  offset : Nat
  deriving DecidableEq

/-- A message to be sent: its arguments, and which part of the buffer it carries. -/
structure Fragment (W : Type) where
  wire : W
  start : Nat
  length : Nat

/-- One exchange as one rank runs it. -/
structure Plan (W β : Type) where
  size : Nat
  own : List β
  frags : Nat → List (Fragment W)
  expect : Nat → Nat

/-- What the ranks run. A rank without a plan has no exchange left. -/
structure Program (N : Nat) (σ W β : Type) where
  steps : Nat
  start : Fin N → σ
  plan : Fin N → σ → Option (Plan W β)
  next : Fin N → σ → List β → σ
  peer : Fin N → Nat → Fin N
  landing : Fin N → W → Landing
  alloc : Nat → Bool
  gain : Nat → Nat
  ready : Nat → Nat → Bool

/-- A message, with the exchange, the step and the place it was sent at as history. -/
structure Message (N : Nat) (W β : Type) where
  target : Fin N
  wire : W
  payload : List β
  op : Nat
  step : Nat
  index : Nat

/-- In an exchange, `place` is the step and the number of messages sent in it. -/
structure Rank (σ β : Type) where
  control : σ
  phase : Bool
  place : Option (Nat × Nat)
  data : Bool → Option (Buffer β)
  rcvd : Bool → Nat → Nat
  results : List (List β)

structure System (N : Nat) (σ W β : Type) where
  rank : Fin N → Rank σ β
  net : List (Message N W β)
  aborted : Bool

/-- The bytes of the buffer from `start` on. -/
def Buffer.read (b : Buffer β) (start length : Nat) : List β :=
  (List.range length).map fun i => b.byte (start + i)

/-- Copy `bytes` to the place `offset`. To write past the end is an error. -/
def Buffer.copy (b : Buffer β) (offset : Nat) (bytes : List β) : Option (Buffer β) :=
  if offset + bytes.length ≤ b.size then
    some { b with byte := fun x => if offset ≤ x then (bytes[x - offset]?).getD (b.byte x)
                                   else b.byte x }
  else none

/-- A buffer that is not there is allocated first, with anything in it. -/
def allocated (alloc : Nat → Bool) (b : Option (Buffer β)) (size : Nat) (junk : Nat → β) :
    Option (Buffer β) :=
  match b with
  | some b => some b
  | none => if alloc size then some ⟨size, junk⟩ else none

def store (alloc : Nat → Bool) (b : Option (Buffer β)) (size : Nat) (junk : Nat → β)
    (offset : Nat) (bytes : List β) : Option (Buffer β) :=
  (allocated alloc b size junk).bind fun b => b.copy offset bytes

def System.set (s : System N σ W β) (r : Fin N) (x : Rank σ β) : System N σ W β :=
  { s with rank := Function.update s.rank r x }

def Rank.setData (x : Rank σ β) (phase : Bool) (b : Option (Buffer β)) : Rank σ β :=
  { x with data := Function.update x.data phase b }

def Rank.setRcvd (x : Rank σ β) (phase : Bool) (step n : Nat) : Rank σ β :=
  { x with rcvd := Function.update x.rcvd phase (Function.update (x.rcvd phase) step n) }

theorem Rank.setData_data (x : Rank σ β) (ph ph' : Bool) (b : Option (Buffer β)) :
    (x.setData ph b).data ph' = if ph' = ph then b else x.data ph' := by
  simp only [setData, Function.update_apply]

theorem Rank.setRcvd_rcvd (x : Rank σ β) (ph ph' : Bool) (t t' n : Nat) :
    (x.setRcvd ph t n).rcvd ph' t' = if ph' = ph ∧ t' = t then n else x.rcvd ph' t' := by
  by_cases h : ph' = ph
  · subst h
    simp only [setRcvd, Function.update_self, Function.update_apply, true_and]
  · simp only [setRcvd, Function.update_of_ne h, h, false_and, if_false]

variable (p : Program N σ W β)

/-- The handler of a message. -/
def Rank.receive (x : Rank σ β) (m : Message N W β) (junk : Nat → β) : Option (Rank σ β) := do
  let d := p.landing m.target m.wire
  let b ← store p.alloc (x.data d.phase) d.size junk d.offset m.payload
  some ((x.setData d.phase (some b)).setRcvd d.phase d.step
    (x.rcvd d.phase d.step + p.gain m.payload.length))

def initial : System N σ W β where
  rank r :=
    { control := p.start r, phase := false, place := none, data := fun _ => none,
      rcvd := fun _ _ => 0, results := [] }
  net := []
  aborted := false

inductive Action (N : Nat)
  | enter (r : Fin N)
  | send (r : Fin N)
  | pass (r : Fin N)
  | finish (r : Fin N)
  | deliver (r : Fin N)
  | abort

inductive Step : System N σ W β → Action N → System N σ W β → Prop
  | enter {s r x P b} {junk : Nat → β} (ha : s.aborted = false) (hx : s.rank r = x)
      (hp : x.place = none) (hP : p.plan r x.control = some P)
      (hb : store p.alloc (x.data x.phase) P.size junk 0 P.own = some b) :
      Step s (.enter r) (s.set r { x.setData x.phase (some b) with place := some (0, 0) })
  | send {s r x P b t n f} (ha : s.aborted = false) (hx : s.rank r = x)
      (hp : x.place = some (t, n)) (hP : p.plan r x.control = some P) (ht : t < p.steps)
      (hf : (P.frags t)[n]? = some f) (hb : x.data x.phase = some b) :
      Step s (.send r)
        { s.set r { x with place := some (t, n + 1) } with
          net := ⟨p.peer r t, f.wire, b.read f.start f.length, x.results.length, t, n⟩ :: s.net }
  | pass {s r x P t n} (ha : s.aborted = false) (hx : s.rank r = x)
      (hp : x.place = some (t, n)) (hP : p.plan r x.control = some P) (ht : t < p.steps)
      (hn : n = (P.frags t).length) (hr : p.ready (x.rcvd x.phase t) (P.expect t) = true) :
      Step s (.pass r) (s.set r { x.setRcvd x.phase t 0 with place := some (t + 1, 0) })
  | finish {s r x P b n} (ha : s.aborted = false) (hx : s.rank r = x)
      (hp : x.place = some (p.steps, n)) (hP : p.plan r x.control = some P)
      (hb : x.data x.phase = some b) :
      Step s (.finish r) (s.set r
        { x.setData x.phase none with
          control := p.next r x.control (b.read 0 P.size)
          phase := !x.phase
          place := none
          results := x.results ++ [b.read 0 P.size] })
  | deliver {s m xs ys y} {junk : Nat → β} (ha : s.aborted = false) (hm : s.net = xs ++ m :: ys)
      (hy : (s.rank m.target).receive p m junk = some y) :
      Step s (.deliver m.target) { s.set m.target y with net := xs ++ ys }
  | abort {s m} {junk : Nat → β} (ha : s.aborted = false) (hm : m ∈ s.net)
      (hy : (s.rank m.target).receive p m junk = none) :
      Step s .abort { s with aborted := true }
  | abortEnter {s r x P} {junk : Nat → β} (ha : s.aborted = false) (hx : s.rank r = x)
      (hp : x.place = none) (hP : p.plan r x.control = some P)
      (hb : store p.alloc (x.data x.phase) P.size junk 0 P.own = none) :
      Step s .abort { s with aborted := true }

/-- The course of `K` exchanges: what each rank then runs, what it is to get, and how much of it
is known before each step. -/
structure Course (N : Nat) (σ W β : Type) where
  control : Nat → Fin N → σ
  plan : Nat → Fin N → Plan W β
  full : Nat → Fin N → List β
  known : Nat → Fin N → Nat → Nat

/-- The buffer of exchange `k`. -/
def parity (k : Nat) : Bool := k % 2 == 1

/-- The ranks run the first `K` exchanges of the course, and every message carries what its
target has to know next. -/
structure Course.Sound (C : Course N σ W β) (K : Nat) : Prop where
  steps : N ≤ 2 ^ p.steps
  peer : ∀ r t, t < p.steps → p.peer (Dissemination.fwd r t) t = r
  gain : ∀ n, 0 < p.gain n
  ready : ∀ c e, c ≤ e → (p.ready c e = true ↔ c = e)
  start : ∀ r, C.control 0 r = p.start r
  plan : ∀ k r, k < K → p.plan r (C.control k r) = some (C.plan k r)
  last : ∀ r, p.plan r (C.control K r) = none
  next : ∀ k r, k < K → C.control (k + 1) r = p.next r (C.control k r) (C.full k r)
  size : ∀ k r, k < K → (C.plan k r).size = (C.full k r).length
  alloc : ∀ k r, k < K → p.alloc (C.full k r).length = true
  own : ∀ k r, k < K → (C.plan k r).own = (C.full k r).take (C.known k r 0)
  mono : ∀ k r t, k < K → t < p.steps → C.known k r t ≤ C.known k r (t + 1)
  whole : ∀ k r, k < K → C.known k r p.steps = (C.full k r).length
  frag : ∀ k r t f, k < K → t < p.steps → f ∈ (C.plan k (Dissemination.fwd r t)).frags t →
    f.start + f.length ≤ C.known k (Dissemination.fwd r t) t ∧
    ∃ offset, p.landing r f.wire = ⟨parity k, t, (C.full k r).length, offset⟩ ∧
      offset + f.length ≤ C.known k r (t + 1) ∧
      ∀ j < f.length, (C.full k r)[offset + j]? =
        (C.full k (Dissemination.fwd r t))[f.start + j]?
  cover : ∀ k r t x, k < K → t < p.steps → C.known k r t ≤ x → x < C.known k r (t + 1) →
    ∃ f ∈ (C.plan k (Dissemination.fwd r t)).frags t, (p.landing r f.wire).offset ≤ x ∧
      x < (p.landing r f.wire).offset + f.length
  nonempty : ∀ k r t, k < K → t < p.steps → (C.plan k r).frags t ≠ []
  expect : ∀ k r t, k < K → t < p.steps → (C.plan k r).expect t =
    (((C.plan k (Dissemination.fwd r t)).frags t).map fun f => p.gain f.length).sum

end Gasnet.Exchange

/-! The invariant of a course of exchanges: who has begun what, which messages were sent and
which of them are on their way, and what the buffers and the counters hold. -/
namespace Gasnet.Exchange

open Dissemination

variable {N : Nat} {σ W β : Type} {p : Program N σ W β} {C : Course N σ W β} {K : Nat}
  {s u : System N σ W β} {x y : Rank σ β} {r q : Fin N} {k t n i : Nat}

theorem parity_succ (k : Nat) : parity (k + 1) = !parity k := by
  rcases Nat.mod_two_eq_zero_or_one k with h | h <;> simp [parity, Nat.add_mod, h]

theorem parity_succ_ne (k : Nat) : parity (k + 1) ≠ parity k := by
  rw [parity_succ]
  cases parity k <;> decide

theorem parity_add_two (k : Nat) : parity (k + 2) = parity k := by
  rw [parity_succ, parity_succ, Bool.not_not]

namespace Rank

/-- The exchanges that are done. -/
def op (x : Rank σ β) : Nat := x.results.length

/-- The rank has begun exchange `k`. -/
def Entered (x : Rank σ β) (k : Nat) : Prop := k < x.op ∨ k = x.op ∧ x.place ≠ none

/-- The rank is past step `t` of exchange `k`. -/
def Consumed (x : Rank σ β) (k t : Nat) : Prop :=
  k < x.op ∨ k = x.op ∧ ∃ t' n, x.place = some (t', n) ∧ t < t'

/-- The messages that rank `q` has sent in step `t` of exchange `k`. -/
def sent (C : Course N σ W β) (q : Fin N) (x : Rank σ β) (k t : Nat) : Nat :=
  if k < x.op then ((C.plan k q).frags t).length
  else if k = x.op then
    match x.place with
    | none => 0
    | some (t', n) => if t < t' then ((C.plan k q).frags t).length else if t = t' then n else 0
  else 0

theorem sent_out (hp : x.place = none) :
    x.sent C q k t = if k < x.op then ((C.plan k q).frags t).length else 0 := by
  unfold sent
  rw [hp]
  split
  · rfl
  · split <;> rfl

theorem sent_at {t₀ : Nat} (hp : x.place = some (t₀, n)) :
    x.sent C q k t = if k < x.op then ((C.plan k q).frags t).length else if k = x.op then
      if t < t₀ then ((C.plan k q).frags t).length else if t = t₀ then n else 0 else 0 := by
  unfold sent
  rw [hp]

theorem sent_entered (h : 0 < x.sent C q k t) : x.Entered k := by
  unfold sent at h
  split at h
  · exact Or.inl ‹_›
  · split at h
    · refine Or.inr ⟨‹_›, fun hp => ?_⟩
      rw [hp] at h
      exact absurd h (Nat.lt_irrefl 0)
    · exact absurd h (Nat.lt_irrefl 0)

end Rank

/-- The target, exchange, step and place a message was sent at. -/
def Message.tag (m : Message N W β) : Fin N × Nat × Nat × Nat := (m.target, m.op, m.step, m.index)

namespace System

def tags (s : System N σ W β) : List (Fin N × Nat × Nat × Nat) := s.net.map Message.tag

/-- The messages sent to `r` in step `t` of exchange `k`. -/
def sentTo (C : Course N σ W β) (s : System N σ W β) (r : Fin N) (k t : Nat) : Nat :=
  (s.rank (fwd r t)).sent C (fwd r t) k t

/-- The message was sent and has arrived. -/
def Delivered (C : Course N σ W β) (s : System N σ W β) (r : Fin N) (k t i : Nat) : Prop :=
  i < s.sentTo C r k t ∧ (r, k, t, i) ∉ s.tags

end System

/-- What the counter is advanced by for a message. -/
def fragGain (p : Program N σ W β) (l : List (Fragment W)) (i : Nat) : Nat :=
  ((l[i]?).map fun f => p.gain f.length).getD 0

instance (s : System N σ W β) (r : Fin N) (k t i : Nat) : Decidable (s.Delivered C r k t i) :=
  inferInstanceAs (Decidable (_ ∧ _))

/-- What the counter has been advanced by. -/
def System.counted (p : Program N σ W β) (C : Course N σ W β) (s : System N σ W β) (r : Fin N)
    (k t : Nat) : Nat :=
  ∑ i ∈ Finset.range ((C.plan k (fwd r t)).frags t).length,
    if s.Delivered C r k t i then fragGain p ((C.plan k (fwd r t)).frags t) i else 0

/-- What a buffer for exchange `k` holds. -/
structure Holds (p : Program N σ W β) (C : Course N σ W β) (s : System N σ W β) (r : Fin N)
    (x : Rank σ β) (k : Nat) (b : Buffer β) : Prop where
  size : b.size = (C.full k r).length
  own : x.Entered k → ∀ i < C.known k r 0, (C.full k r)[i]? = some (b.byte i)
  arrived : ∀ t i f, t < p.steps → s.Delivered C r k t i →
    ((C.plan k (fwd r t)).frags t)[i]? = some f → ∀ j < f.length,
      (C.full k r)[(p.landing r f.wire).offset + j]? =
        some (b.byte ((p.landing r f.wire).offset + j))

/-- The exchange was begun by the rank or by a message. -/
def Begun (p : Program N σ W β) (C : Course N σ W β) (s : System N σ W β) (r : Fin N)
    (x : Rank σ β) (k : Nat) : Prop :=
  x.Entered k ∨ ∃ t i, t < p.steps ∧ s.Delivered C r k t i

/-- There is a buffer when the exchange has begun. -/
def Memory (p : Program N σ W β) (C : Course N σ W β) (s : System N σ W β) (r : Fin N)
    (x : Rank σ β) (k : Nat) : Prop :=
  match x.data (parity k) with
  | none => ¬Begun p C s r x k
  | some b => Holds p C s r x k b ∧ Begun p C s r x k

/-- A message on its way is one that its sender has sent and its target waits for. -/
structure Underway (p : Program N σ W β) (C : Course N σ W β) (s : System N σ W β)
    (m : Message N W β) : Prop where
  step : m.step < p.steps
  ahead : ¬(s.rank m.target).Consumed m.op m.step
  sent : m.index < s.sentTo C m.target m.op m.step
  frag : ∃ f, ((C.plan m.op (fwd m.target m.step)).frags m.step)[m.index]? = some f ∧
    m.wire = f.wire ∧
    m.payload = ((C.full m.op (fwd m.target m.step)).drop f.start).take f.length

/-- Where a rank is in the course. -/
structure OnCourse (p : Program N σ W β) (C : Course N σ W β) (K : Nat) (r : Fin N)
    (x : Rank σ β) : Prop where
  op_le : x.op ≤ K
  results : x.results = (List.range x.op).map fun k => C.full k r
  control : x.control = C.control x.op r
  phase : x.phase = parity x.op
  inside : ∀ t n, x.place = some (t, n) → x.op < K ∧ t ≤ p.steps ∧
    n ≤ ((C.plan x.op r).frags t).length ∧ (t = p.steps → n = 0)
  reset : ∀ t n t', x.place = some (t, n) → t' < t → x.rcvd x.phase t' = 0

structure Inv (p : Program N σ W β) (C : Course N σ W β) (K : Nat) (s : System N σ W β) :
    Prop where
  alive : s.aborted = false
  onCourse : ∀ r, OnCourse p C K r (s.rank r)
  past : ∀ r j k, k < (s.rank r).op → (s.rank j).Entered k
  heard : ∀ r j t n, (s.rank r).place = some (t, n) → Hears t j r →
    (s.rank j).Entered (s.rank r).op
  underway : ∀ m ∈ s.net, Underway p C s m
  nodup : s.tags.Nodup
  counter : ∀ r k t, t < p.steps → ¬(s.rank r).Consumed k t → k ≤ (s.rank r).op + 1 →
    (s.rank r).rcvd (parity k) t = s.counted p C r k t
  complete : ∀ r k t, t < p.steps → (s.rank r).Consumed k t →
    s.sentTo C r k t = ((C.plan k (fwd r t)).frags t).length
  memory : ∀ r k, k = (s.rank r).op ∨ k = (s.rank r).op + 1 →
    Memory p C s r (s.rank r) k

theorem OnCourse.sent_le (h : OnCourse p C K r x) :
    x.sent C r k t ≤ ((C.plan k r).frags t).length := by
  unfold Rank.sent
  split
  · exact Nat.le_refl _
  · split
    · cases hp : x.place with
      | none => exact Nat.zero_le _
      | some tn =>
        obtain ⟨t', n⟩ := tn
        dsimp only
        split
        · exact Nat.le_refl _
        · split
          · subst_vars
            exact (h.inside _ _ hp).2.2.1
          · exact Nat.zero_le _
    · exact Nat.zero_le _

theorem Inv.lt_of_sent (hs : Inv p C K s) (h : 0 < s.sentTo C r k t) : k < K := by
  have hq := hs.onCourse (fwd r t)
  rcases Rank.sent_entered h with hk | ⟨rfl, hp⟩
  · exact lt_of_lt_of_le hk hq.op_le
  · obtain ⟨⟨t', n⟩, hpl⟩ := Option.ne_none_iff_exists'.mp hp
    exact (hq.inside t' n hpl).1

/-- Nobody is more than one exchange ahead. -/
theorem Inv.sent_le_succ (hs : Inv p C K s) (h : 0 < s.sentTo C r k t) :
    k ≤ (s.rank r).op + 1 := by
  by_contra hlt
  have hk : k - 1 < (s.rank (fwd r t)).op ∨ k ≤ (s.rank (fwd r t)).op := by
    rcases Rank.sent_entered h with hk | ⟨hk, _⟩ <;> omega
  have hent := hs.past (fwd r t) r (k - 1) (by omega)
  rcases hent with hlt' | ⟨heq, _⟩ <;> omega

end Gasnet.Exchange
