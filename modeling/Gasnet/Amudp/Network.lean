import Gasnet.Amudp.Endpoint
import Gasnet.Foundation.Run

/-! Endpoints joined by a network that may lose, duplicate and reorder every datagram. -/
namespace Gasnet.Amudp

variable {Node : Type} [DecidableEq Node]

/-- The configuration of all endpoints; `remoteTag p q` is the tag `p` has mapped for `q`. -/
structure Job (Node : Type) where
  config : Node → Config
  remoteTag : Node → Node → Nat
  idHint : Node → Nat

/-- `wire` holds every datagram ever sent: each may arrive any number of times, at any time
or never. The requests issued, the next identity and the log of handlers are history. -/
structure State (Node : Type) where
  ep : Node → Endpoint Node
  wire : List (Packet Node)
  issued : List (Packet Node)
  fresh : Nat
  log : List Event

def initial : State Node := ⟨fun _ => .initial, [], [], 0, []⟩

inductive Action (Node : Type)
  | acquire (p q : Node) (b : Body)
  | send (p : Node)
  | sendFail (p : Node)
  | abandon (p : Node)
  | loopback (p : Node) (b : Body) (reply : Option Body)
  | loopbackRefused (p : Node) (b : Body)
  | deliver (m : Packet Node) (o : Choice)
  | retransmit (p q : Node) (i : Nat)
  | undeliverable (p q : Node) (i : Nat)

namespace State

def setEp (s : State Node) (p : Node) (ep : Endpoint Node) : State Node :=
  { s with ep := Function.update s.ep p ep }

/-- The datagram of a request on descriptor `d`. -/
def request (j : Job Node) (s : State Node) (p : Node) (r : Pending Node) : Packet Node :=
  let d := (s.ep p).req r.dst r.desc
  { src := p
    dst := r.dst
    msg :=
      { tag := j.remoteTag p r.dst
        word := packWord d.seqNum r.inst
        isRequest := true
        system := .user
        systemArg := j.idHint p
        body := r.body }
    uid := s.fresh
    gen := d.gen }

/-- `gotinstance`. -/
def acquire (s : State Node) (p q : Node) (b : Body) (a : Nat × Nat × Nat) : State Node :=
  s.setEp p { (s.ep p).setHint q a.2.2 with pending := some ⟨q, a.1, a.2.1, b⟩ }

/-- Claim the descriptor, send, and enter the retransmit ring. -/
def send (j : Job Node) (s : State Node) (p : Node) (r : Pending Node) : State Node :=
  let ep := s.ep p
  let m := s.request j p r
  { s.setEp p { ep.setReq r.dst r.desc { ep.req r.dst r.desc with buffer := some m } with
      pending := none
      outstanding := ep.outstanding + 1 } with
    wire := m :: s.wire
    issued := m :: s.issued
    fresh := s.fresh + 1 }

/-- The send failed: the descriptor is released again, and so is its instance. -/
def sendFail (s : State Node) (p : Node) (r : Pending Node) : State Node :=
  let ep := s.ep p
  s.setEp p { (ep.setReq r.dst r.desc { ep.req r.dst r.desc with buffer := none }).setHint
    r.dst r.inst with pending := none }

def abandon (s : State Node) (p : Node) : State Node :=
  s.setEp p { s.ep p with pending := none }

/-- A request to oneself runs its handler, and that of its reply, synchronously. -/
def loopback (s : State Node) (reply : Option Body) : State Node :=
  { s with
    fresh := s.fresh + 1
    log := s.log ++ [.request s.fresh reply] ++ (reply.map (.reply s.fresh s.fresh)).toList }

def loopbackRefused (s : State Node) : State Node :=
  { s with fresh := s.fresh + 1, log := s.log ++ [.returned s.fresh] }

def deliver (j : Job Node) (s : State Node) (m : Packet Node) (o : Choice) : State Node :=
  let r := processPacket (j.config m.dst) (j.remoteTag m.dst m.src) (j.idHint m.dst)
    (s.ep m.dst) m o
  { s.setEp m.dst r.1 with wire := r.2.1 ++ s.wire, log := s.log ++ r.2.2 }

def retransmit (s : State Node) (m : Packet Node) : State Node := { s with wire := m :: s.wire }

/-- `AMUDP_HandleRequestTimeouts` gives up: the sequence number stays as it is. -/
def undeliverable (s : State Node) (p q : Node) (i : Nat) (m : Packet Node) : State Node :=
  let ep := s.ep p
  { s.setEp p { ep.setReq q i { ep.req q i with buffer := none } with
      outstanding := ep.outstanding - 1 } with
    log := s.log ++ [.returned m.uid] }

/-- The message a loopback request is checked as. -/
def selfMsg (j : Job Node) (p : Node) (b : Body) : Msg :=
  ⟨j.remoteTag p p, packWord 0 0, true, .user, j.idHint p, b⟩

end State

inductive Step (j : Job Node) : State Node → Action Node → State Node → Prop
  | acquire {s : State Node} {p q : Node} {b : Body} {a : Nat × Nat × Nat} (hpq : p ≠ q)
      (hidle : (s.ep p).pending = none)
      (ha : (s.ep p).acquire (j.config p).depth q = some a) :
      Step j s (.acquire p q b) (s.acquire p q b a)
  | send {s : State Node} {p : Node} {r : Pending Node} (hr : (s.ep p).pending = some r)
      (hdepth : (s.ep p).outstanding < (j.config p).sendDepth) :
      Step j s (.send p) (s.send j p r)
  | sendFail {s : State Node} {p : Node} {r : Pending Node} (hr : (s.ep p).pending = some r)
      (hdepth : (s.ep p).outstanding < (j.config p).sendDepth) :
      Step j s (.sendFail p) (s.sendFail p r)
  | abandon {s : State Node} {p : Node} {r : Pending Node} (hr : (s.ep p).pending = some r) :
      Step j s (.abandon p) (s.abandon p)
  | loopback {s : State Node} {p : Node} {b : Body} {reply : Option Body}
      (hc : (j.config p).refuse (State.selfMsg j p b) = none) :
      Step j s (.loopback p b reply) (s.loopback reply)
  | loopbackRefused {s : State Node} {p : Node} {b : Body}
      (hc : (j.config p).refuse (State.selfMsg j p b) ≠ none) :
      Step j s (.loopbackRefused p b) s.loopbackRefused
  | deliver {s : State Node} {m : Packet Node} {o : Choice} (hm : m ∈ s.wire) :
      Step j s (.deliver m o) (s.deliver j m o)
  | retransmit {s : State Node} {p q : Node} {i : Nat} {m : Packet Node}
      (hm : ((s.ep p).req q i).buffer = some m) : Step j s (.retransmit p q i) (s.retransmit m)
  | undeliverable {s : State Node} {p q : Node} {i : Nat} {m : Packet Node}
      (hm : ((s.ep p).req q i).buffer = some m) :
      Step j s (.undeliverable p q i) (s.undeliverable p q i m)

/-- The descriptor a datagram arrives for is at most 63 generations ahead of it. -/
def Timely (s : State Node) (m : Packet Node) : Prop :=
  if m.msg.isRequest then ((s.ep m.dst).rep m.src m.msg.inst).gen < m.gen + 64
  else ((s.ep m.dst).req m.src m.msg.inst).gen < m.gen + 64

/-- No datagram is too late, and no request is refused or given up. -/
def Allowed (j : Job Node) (s : State Node) : Action Node → Prop
  | .deliver m _ =>
    Timely s m ∧ (m.msg.isRequest → (j.config m.dst).refuse m.msg = none)
  | .undeliverable _ _ _ => False
  | _ => True

def GoodStep (j : Job Node) (s : State Node) (a : Action Node) (t : State Node) : Prop :=
  Step j s a t ∧ Allowed j s a

/-- The same for a returned request, which arrives for the descriptor it was sent on. -/
def OnTime (s : State Node) (m : Packet Node) : Prop :=
  if m.msg.system = .returned then ((s.ep m.dst).req m.src m.msg.inst).gen < m.gen + 64
  else Timely s m

/-- No datagram is too late, no request is given up, and at most `lim` requests of an instance
are returned as refused. -/
def LagAllowed (j : Job Node) (lim : Nat) (s : State Node) : Action Node → Prop
  | .deliver m _ =>
    OnTime s m ∧
      (lim = 0 → m.msg.isRequest → (j.config m.dst).refuse m.msg = none) ∧
      (m.msg.isRequest → m.msg.system = .returned →
        ((s.ep m.dst).req m.src m.msg.inst).gen < ((s.ep m.src).rep m.dst m.msg.inst).gen + lim)
  | .undeliverable _ _ _ => False
  | _ => True

def LagStep (j : Job Node) (lim : Nat) (s : State Node) (a : Action Node) (t : State Node) :
    Prop := Step j s a t ∧ LagAllowed j lim s a

end Gasnet.Amudp

/-! The invariant of requesters, repliers, the wire and the history. -/
namespace Gasnet.Amudp

variable {Node : Type} {j : Job Node} {s t : State Node} {p q : Node}
  {i u : Nat} {m r : Packet Node} {d : Desc Node} {ep : Endpoint Node}

namespace State

/-- The request descriptor of `p` for instance `i` to `q`. -/
def reqDesc (s : State Node) (p q : Node) (i : Nat) : Desc Node := (s.ep p).req q i

/-- The reply descriptor of `q` for instance `i` from `p`. -/
def repDesc (s : State Node) (q p : Node) (i : Nat) : Desc Node := (s.ep q).rep p i

end State

def Event.isRequest (u : Nat) : Event → Bool
  | .request v _ => v = u
  | _ => false

def Event.isReply (u : Nat) : Event → Bool
  | .reply v _ _ => v = u
  | _ => false

/-- A request that was sent: it is the current one of its instance, or an earlier one. -/
structure RequestInv (s : State Node) (m : Packet Node) : Prop where
  isRequest : m.msg.isRequest = true
  system : m.msg.system = .user
  seqnum : m.msg.seqnum = m.gen % 64
  uid : m.uid < s.fresh
  place : m.gen < (s.reqDesc m.src m.dst m.msg.inst).gen ∨
    (s.reqDesc m.src m.dst m.msg.inst).buffer = some m

/-- A reply to the request `m`, made when `m` was accepted. -/
structure ReplyTo (s : State Node) (m r : Packet Node) : Prop where
  issued : m ∈ s.issued
  uid : r.uid = m.uid
  src : r.src = m.dst
  dst : r.dst = m.src
  inst : r.msg.inst = m.msg.inst
  gen : r.gen = m.gen
  seqnum : r.msg.seqnum = r.gen % 64
  isRequest : r.msg.isRequest = false
  system : r.msg.system ≠ .returned
  accepted : m.gen < (s.repDesc m.dst m.src m.msg.inst).gen
  log : r.msg.system = .user → Event.request r.uid (some r.msg.body) ∈ s.log

structure Inv (j : Job Node) (s : State Node) : Prop where
  reqSeq : ∀ p q i, (s.reqDesc p q i).seqNum = (s.reqDesc p q i).gen % 64
  repSeq : ∀ q p i, (s.repDesc q p i).seqNum = (s.repDesc q p i).gen % 64
  gens : ∀ p q i, (s.repDesc q p i).gen = (s.reqDesc p q i).gen ∨
    (s.repDesc q p i).gen = (s.reqDesc p q i).gen + 1 ∧ (s.reqDesc p q i).buffer ≠ none
  buffer : ∀ p q i m, (s.reqDesc p q i).buffer = some m →
    m ∈ s.issued ∧ m.src = p ∧ m.dst = q ∧ m.msg.inst = i ∧ m.gen = (s.reqDesc p q i).gen
  issued : ∀ m ∈ s.issued, RequestInv s m
  uid : ∀ m ∈ s.issued, ∀ m' ∈ s.issued, m.uid = m'.uid → m = m'
  slot : ∀ m ∈ s.issued, ∀ m' ∈ s.issued, m.src = m'.src → m.dst = m'.dst →
    m.msg.inst = m'.msg.inst → m.gen = m'.gen → m = m'
  wireRequest : ∀ m ∈ s.wire, m.msg.isRequest = true → m ∈ s.issued
  wireReply : ∀ r ∈ s.wire, r.msg.isRequest = false → r.msg.system ≠ .returned →
    ∃ m, ReplyTo s m r
  cached : ∀ q p i r, (s.repDesc q p i).buffer = some r → ∃ m, ReplyTo s m r
  ran : ∀ u b, Event.request u b ∈ s.log → u < s.fresh ∧
    ∀ m ∈ s.issued, m.uid = u → m.gen < (s.repDesc m.dst m.src m.msg.inst).gen
  replied : ∀ u o b, Event.reply u o b ∈ s.log →
    o = u ∧ Event.request u (some b) ∈ s.log ∧ u < s.fresh ∧
      ∀ m ∈ s.issued, m.uid = u → m.gen < (s.reqDesc m.src m.dst m.msg.inst).gen
  ranOnce : ∀ u, s.log.countP (Event.isRequest u) ≤ 1
  repliedOnce : ∀ u, s.log.countP (Event.isReply u) ≤ 1
  pending : ∀ p r, (s.ep p).pending = some r →
    r.desc = r.inst ∧ r.inst < (j.config p).depth ∧ (s.reqDesc p r.dst r.inst).buffer = none
  hint : ∀ p q, (s.ep p).hint q < (j.config p).depth

/-- A refused request on its way back. -/
structure ReturnOf (j : Job Node) (m r : Packet Node) : Prop where
  refused : (j.config m.dst).refuse m.msg ≠ none
  src : r.src = m.dst
  dst : r.dst = m.src
  inst : r.msg.inst = m.msg.inst
  gen : r.gen = m.gen
  seqnum : r.msg.seqnum = r.gen % 64

/-- The same where up to `lim` requests of an instance may have been refused: the requester is
ahead by these. -/
structure LagInv (j : Job Node) (lim : Nat) (s : State Node) : Prop where
  reqSeq : ∀ p q i, (s.reqDesc p q i).seqNum = (s.reqDesc p q i).gen % 64
  repSeq : ∀ q p i, (s.repDesc q p i).seqNum = (s.repDesc q p i).gen % 64
  gens : ∀ p q i, (s.repDesc q p i).gen ≤ (s.reqDesc p q i).gen ∨
    (s.repDesc q p i).gen = (s.reqDesc p q i).gen + 1 ∧ (s.reqDesc p q i).buffer ≠ none
  window : ∀ p q i, (s.reqDesc p q i).gen ≤ (s.repDesc q p i).gen + lim
  buffer : ∀ p q i m, (s.reqDesc p q i).buffer = some m →
    m ∈ s.issued ∧ m.src = p ∧ m.dst = q ∧ m.msg.inst = i ∧ m.gen = (s.reqDesc p q i).gen
  issued : ∀ m ∈ s.issued, RequestInv s m
  uid : ∀ m ∈ s.issued, ∀ m' ∈ s.issued, m.uid = m'.uid → m = m'
  slot : ∀ m ∈ s.issued, ∀ m' ∈ s.issued, m.src = m'.src → m.dst = m'.dst →
    m.msg.inst = m'.msg.inst → m.gen = m'.gen → m = m'
  depth : ∀ m ∈ s.issued, m.msg.inst < (j.config m.src).depth
  used : ∀ p q i g, g < (s.reqDesc p q i).gen →
    ∃ m ∈ s.issued, m.src = p ∧ m.dst = q ∧ m.msg.inst = i ∧ m.gen = g
  accepted : ∀ m ∈ s.issued, m.gen < (s.repDesc m.dst m.src m.msg.inst).gen →
    (j.config m.dst).refuse m.msg = none
  skipped : ∀ m ∈ s.issued, (s.repDesc m.dst m.src m.msg.inst).gen ≤ m.gen →
    m.gen < (s.reqDesc m.src m.dst m.msg.inst).gen → (j.config m.dst).refuse m.msg ≠ none
  wireRequest : ∀ m ∈ s.wire, m.msg.isRequest = true → m.msg.system ≠ .returned → m ∈ s.issued
  wireReturned : ∀ r ∈ s.wire, r.msg.isRequest = true → r.msg.system = .returned →
    lim ≠ 0 ∧ ∃ m ∈ s.issued, ReturnOf j m r
  wireReply : ∀ r ∈ s.wire, r.msg.isRequest = false → r.msg.system ≠ .returned →
    ∃ m, ReplyTo s m r
  cached : ∀ q p i r, (s.repDesc q p i).buffer = some r → ∃ m, ReplyTo s m r
  ran : ∀ u b, Event.request u b ∈ s.log → u < s.fresh ∧
    ∀ m ∈ s.issued, m.uid = u → m.gen < (s.repDesc m.dst m.src m.msg.inst).gen
  replied : ∀ u o b, Event.reply u o b ∈ s.log →
    o = u ∧ Event.request u (some b) ∈ s.log ∧ u < s.fresh ∧
      ∀ m ∈ s.issued, m.uid = u → m.gen < (s.reqDesc m.src m.dst m.msg.inst).gen
  ranOnce : ∀ u, s.log.countP (Event.isRequest u) ≤ 1
  repliedOnce : ∀ u, s.log.countP (Event.isReply u) ≤ 1
  pending : ∀ p r, (s.ep p).pending = some r →
    r.desc = r.inst ∧ r.inst < (j.config p).depth ∧ (s.reqDesc p r.dst r.inst).buffer = none
  hint : ∀ p q, (s.ep p).hint q < (j.config p).depth

/-- What is never taken back. -/
structure Grows (s t : State Node) : Prop where
  issued : ∀ m ∈ s.issued, m ∈ t.issued
  rep : ∀ q p i, (s.repDesc q p i).gen ≤ (t.repDesc q p i).gen
  log : ∀ e ∈ s.log, e ∈ t.log

theorem replyTo_mono (h : Grows s t) (hr : ReplyTo s m r) : ReplyTo t m r where
  issued := h.issued m hr.issued
  uid := hr.uid
  src := hr.src
  dst := hr.dst
  inst := hr.inst
  gen := hr.gen
  seqnum := hr.seqnum
  isRequest := hr.isRequest
  system := hr.system
  accepted := lt_of_lt_of_le hr.accepted (h.rep _ _ _)
  log hs := h.log _ (hr.log hs)

theorem lagInv_initial (j : Job Node) (lim : Nat) : LagInv j lim (initial : State Node) where
  reqSeq _ _ _ := rfl
  repSeq _ _ _ := rfl
  gens _ _ _ := Or.inl le_rfl
  window _ _ _ := Nat.zero_le _
  buffer _ _ _ _ h := by simp [initial, State.reqDesc, Endpoint.initial] at h
  issued _ h := by simp [initial] at h
  uid _ h := by simp [initial] at h
  slot _ h := by simp [initial] at h
  depth _ h := by simp [initial] at h
  used _ _ _ g h := absurd h (Nat.not_lt_zero g)
  accepted _ h := by simp [initial] at h
  skipped _ h := by simp [initial] at h
  wireRequest _ h := by simp [initial] at h
  wireReturned _ h := by simp [initial] at h
  wireReply _ h := by simp [initial] at h
  cached _ _ _ _ h := by simp [initial, State.repDesc, Endpoint.initial] at h
  ran _ _ h := by simp [initial] at h
  replied _ _ _ h := by simp [initial] at h
  ranOnce _ := by simp [initial]
  repliedOnce _ := by simp [initial]
  pending _ _ h := by simp [initial, Endpoint.initial] at h
  hint p _ := (j.config p).depth_pos

/-- One descriptor changes, the others do not. -/
theorem cases_at {P : Node → Node → Nat → Prop} (a b : Node) (c : Nat) (hself : P a b c)
    (hother : ∀ p q i, (p, q, i) ≠ (a, b, c) → P p q i) : ∀ p q i, P p q i := by
  intro p q i
  by_cases he : (p, q, i) = (a, b, c)
  · cases he
    exact hself
  · exact hother p q i he

/-- The search never finds an instance: it only looks where the hint was wrong. -/
theorem search_eq_none {depth fuel : Nat} (h : (ep.req q (ep.hint q)).buffer ≠ none) :
    ep.search depth q fuel i = none := by
  induction fuel generalizing i with
  | zero => rfl
  | succ fuel ih =>
    rw [Endpoint.search]
    simp only [Option.isNone_iff_eq_none, h, if_false]
    split
    · rfl
    · exact ih

theorem acquire_eq {depth : Nat} {a : Nat × Nat × Nat} (h : ep.acquire depth q = some a) :
    a = (ep.hint q, ep.hint q, Endpoint.nextInst depth (ep.hint q)) ∧
      (ep.req q (ep.hint q)).buffer = none := by
  unfold Endpoint.acquire at h
  dsimp only at h
  split at h
  · rename_i hn
    exact ⟨(Option.some.inj h).symm, Option.isNone_iff_eq_none.mp hn⟩
  · rename_i hn
    rw [search_eq_none (by simpa using hn)] at h
    simp at h

theorem nextInst_lt {depth : Nat} (h : i < depth) : Endpoint.nextInst depth i < depth := by
  unfold Endpoint.nextInst
  split <;> omega

end Gasnet.Amudp
