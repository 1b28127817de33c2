import Mathlib.Logic.Function.Basic
import Gasnet.Foundation.Memory

/-! AMUDP messages: the packed sequence and instance numbers, and what makes an endpoint
refuse a message. -/
namespace Gasnet.Amudp

/-- `AMUDP_SEQNUM_INC`. -/
def seqInc (v : Nat) : Nat := (v + 1) % 64

theorem seqInc_mod (g : Nat) : seqInc (g % 64) = (g + 1) % 64 := by
  unfold seqInc
  omega

inductive Category
  | short
  | medium
  | long
  deriving DecidableEq

/-- `amudp_system_messagetype_t`. -/
inductive System
  | user
  | autoreply
  | returned
  deriving DecidableEq

/-- What the caller of a request or a reply supplies. -/
structure Body where
  category : Category
  handlerId : Nat
  destOffset : Word
  args : List (BitVec 32)
  data : List (BitVec 8)
  deriving DecidableEq

def Body.nBytes (b : Body) : Nat := b.data.length

/-- An automatic reply: short, with handler 0 and no arguments. -/
def Body.empty : Body := ⟨.short, 0, 0, [], []⟩

/-- `amudp_msg_t`. The field `word` is `_instance`. -/
structure Msg where
  tag : Nat
  word : Nat
  isRequest : Bool
  system : System
  systemArg : Nat
  body : Body
  deriving DecidableEq

/-- The second half of `AMUDP_MSG_SETFLAGS`. -/
def packWord (seqnum inst : Nat) : Nat := seqnum % 64 + inst % 1024 * 64

/-- `AMUDP_MSG_SEQNUM`. -/
def Msg.seqnum (m : Msg) : Nat := m.word % 64

/-- `AMUDP_MSG_INSTANCE`. -/
def Msg.inst (m : Msg) : Nat := m.word / 64

theorem packWord_mod (seqnum inst : Nat) : packWord seqnum inst % 64 = seqnum % 64 := by
  unfold packWord
  omega

theorem packWord_div {inst : Nat} (seqnum : Nat) (h : inst < 1024) :
    packWord seqnum inst / 64 = inst := by
  unfold packWord
  omega

def AM_NONE : Nat := 0
def AM_ALL : Nat := 1
def AMUDP_MAX_LONG : Nat := 65000
def AMUDP_MAX_MEDIUM : Nat := AMUDP_MAX_LONG

def EBADTAG : Nat := 3
def EBADHANDLER : Nat := 4
def EBADSEGOFF : Nat := 5
def EBADLENGTH : Nat := 6
def EUNREACHABLE : Nat := 9

/-- What an endpoint is configured with. The depth fits the ten instance bits. -/
structure Config where
  depth : Nat
  depth_pos : 0 < depth
  depth_le : depth ≤ 1024
  sendDepth : Nat
  tag : Nat
  registered : Nat → Bool
  segAddr : Word
  segLength : Word

theorem one_le_depth : 1 ≤ 1024 := by decide

/-- The part of the acceptance checks that depends on the category. -/
def Config.refuseLength (c : Config) (b : Body) : Option Nat :=
  match b.category with
  | .short => if 0 < b.nBytes ∨ b.destOffset ≠ 0 then some EBADLENGTH else none
  | .medium =>
    if AMUDP_MAX_MEDIUM < b.nBytes ∨ b.destOffset ≠ 0 then some EBADLENGTH else none
  | .long =>
    if AMUDP_MAX_LONG < b.nBytes then some EBADLENGTH
    else if b.nBytes ≠ 0 ∧ (c.segLength = 0 ∨ c.segAddr + b.destOffset = 0) then some EBADSEGOFF
    else if c.segLength < b.destOffset + BitVec.ofNat 64 b.nBytes then some EBADLENGTH
    else none

/-- The acceptance checks of `AMUDP_processPacket`. -/
def Config.refuse (c : Config) (m : Msg) : Option Nat :=
  if c.tag = AM_NONE ∨ c.tag ≠ m.tag ∧ c.tag ≠ AM_ALL then some EBADTAG
  else if c.depth ≤ m.inst then some EUNREACHABLE
  else if c.registered m.body.handlerId = false ∧ m.system = .user ∧ m.body.handlerId ≠ 0 then
    some EBADHANDLER
  else c.refuseLength m.body

theorem inst_lt_of_accepted {c : Config} {m : Msg} (h : c.refuse m = none) : m.inst < c.depth := by
  unfold Config.refuse at h
  split at h
  · simp at h
  · split at h
    · simp at h
    · omega

end Gasnet.Amudp

/-! One AMUDP endpoint: its descriptors, the start of a request, and `AMUDP_processPacket`. -/
namespace Gasnet.Amudp

variable {Node : Type} [DecidableEq Node]

/-- A datagram. The request it belongs to and the generation of its instance are ghosts. -/
structure Packet (Node : Type) where
  src : Node
  dst : Node
  msg : Msg
  uid : Nat
  gen : Nat
  deriving DecidableEq

/-- `amudp_bufdesc_t`. The generation counts the increments of the sequence number. -/
structure Desc (Node : Type) where
  buffer : Option (Packet Node)
  seqNum : Nat
  gen : Nat

/-- `desc->seqNum = AMUDP_SEQNUM_INC(desc->seqNum)`. -/
def Desc.advance (d : Desc Node) : Desc Node :=
  { d with seqNum := seqInc d.seqNum, gen := d.gen + 1 }

/-- A request that has its instance and waits for the send depth. -/
structure Pending (Node : Type) where
  dst : Node
  inst : Nat
  desc : Nat
  body : Body
  deriving DecidableEq

structure Endpoint (Node : Type) where
  req : Node → Nat → Desc Node
  rep : Node → Nat → Desc Node
  hint : Node → Nat
  outstanding : Nat
  pending : Option (Pending Node)

/-- What a handler did, seen from outside: `request` with the user's reply if it issued one,
`reply` with the request that was waiting for it and the one it was made for. -/
inductive Event
  | request (uid : Nat) (reply : Option Body)
  | reply (uid origin : Nat) (body : Body)
  | returned (uid : Nat)
  deriving DecidableEq

namespace Endpoint

def initial : Endpoint Node :=
  ⟨fun _ _ => ⟨none, 0, 0⟩, fun _ _ => ⟨none, 0, 0⟩, fun _ => 0, 0, none⟩

def setReq (ep : Endpoint Node) (q : Node) (i : Nat) (d : Desc Node) : Endpoint Node :=
  { ep with req := Function.update ep.req q (Function.update (ep.req q) i d) }

def setRep (ep : Endpoint Node) (q : Node) (i : Nat) (d : Desc Node) : Endpoint Node :=
  { ep with rep := Function.update ep.rep q (Function.update (ep.rep q) i d) }

def setHint (ep : Endpoint Node) (q : Node) (i : Nat) : Endpoint Node :=
  { ep with hint := Function.update ep.hint q i }

/-- `instance+1==depth?0:instance+1`. -/
def nextInst (depth i : Nat) : Nat := if i + 1 = depth then 0 else i + 1

/-- The search loop of `AMUDP_RequestGeneric`. It moves `instance` but looks at the
descriptor of the hint each time. -/
def search (ep : Endpoint Node) (depth : Nat) (q : Node) : (fuel inst : Nat) → Option Nat
  | 0, _ => none
  | fuel + 1, inst =>
    let inst := nextInst depth inst
    if (ep.req q (ep.hint q)).buffer.isNone then some inst
    else if inst = ep.hint q then none
    else ep.search depth q fuel inst

/-- One round of the acquisition loop: the instance, the descriptor and the new hint. -/
def acquire (ep : Endpoint Node) (depth : Nat) (q : Node) : Option (Nat × Nat × Nat) :=
  let hint := ep.hint q
  if (ep.req q hint).buffer.isNone then some (hint, hint, nextInst depth hint)
  else (ep.search depth q depth hint).map fun inst => (inst, hint, hint)

/-- Free a request descriptor, its ring entry and its instance. -/
def complete (ep : Endpoint Node) (q : Node) (i : Nat) : Endpoint Node :=
  { (ep.setReq q i { (ep.req q i).advance with buffer := none }).setHint q i with
    outstanding := ep.outstanding - 1 }

end Endpoint

/-- What is open when a packet is processed: the reply the handler issued, if any; whether the
automatic reply could be sent; whether a duplicate request has its reply sent again. -/
structure Choice where
  reply : Option Body
  autoSent : Bool
  resend : Bool

/-- `AMUDP_REFUSEMESSAGE`: the message goes back with the reason. -/
def Packet.refused (m : Packet Node) (err : Nat) : Packet Node :=
  { m with src := m.dst, dst := m.src, msg := { m.msg with system := .returned, systemArg := err } }

/-- The message `AMUDP_ReplyGeneric` builds: the request's own numbers are cloned. -/
def Packet.replyTo (m : Packet Node) (tag idHint : Nat) (o : Choice) : Packet Node :=
  { m with
    src := m.dst
    dst := m.src
    msg :=
      { tag := tag
        word := packWord m.msg.seqnum m.msg.inst
        isRequest := false
        system := if o.reply.isSome then .user else .autoreply
        systemArg := idHint
        body := o.reply.getD .empty } }

/-- A returned message frees the request it names. -/
def processReturned (ep : Endpoint Node) (m : Packet Node) :
    Endpoint Node × List (Packet Node) × List Event :=
  let d := ep.req m.src m.msg.inst
  if m.msg.isRequest ∧ d.buffer.isSome ∧ d.seqNum = m.msg.seqnum then
    (ep.complete m.src m.msg.inst, [], [.returned m.uid])
  else (ep, [], [.returned m.uid])

/-- An acceptable request: new, a duplicate of the last one, or stale. -/
def processRequest (tag idHint : Nat) (ep : Endpoint Node) (m : Packet Node) (o : Choice) :
    Endpoint Node × List (Packet Node) × List Event :=
  let d := ep.rep m.src m.msg.inst
  if m.msg.seqnum ≠ d.seqNum then
    if seqInc m.msg.seqnum ≠ d.seqNum then (ep, [], [])
    else (ep, if o.resend then d.buffer.toList else [], [])
  else
    let r := m.replyTo tag idHint o
    (ep.setRep m.src m.msg.inst { d.advance with buffer := some r },
      if o.reply.isSome ∨ o.autoSent then [r] else [], [.request m.uid o.reply])

/-- An acceptable reply: the awaited one, a late one, or a duplicate. -/
def processReply (ep : Endpoint Node) (m : Packet Node) :
    Endpoint Node × List (Packet Node) × List Event :=
  let d := ep.req m.src m.msg.inst
  if m.msg.seqnum ≠ d.seqNum then (ep, [], [])
  else
    match d.buffer with
    | none => (ep.setReq m.src m.msg.inst d.advance, [], [])
    | some req =>
      (ep.complete m.src m.msg.inst, [],
        if m.msg.system = .user then [.reply req.uid m.uid m.msg.body] else [])

/-- `AMUDP_processPacket` for a datagram from the network. -/
def processPacket (c : Config) (tag idHint : Nat) (ep : Endpoint Node) (m : Packet Node)
    (o : Choice) : Endpoint Node × List (Packet Node) × List Event :=
  if m.msg.system = .returned then processReturned ep m
  else
    match c.refuse m.msg with
    | some err => (ep, [m.refused err], [])
    | none => if m.msg.isRequest then processRequest tag idHint ep m o else processReply ep m

end Gasnet.Amudp
