import Mathlib.Algebra.Ring.Nat
import Mathlib.Algebra.BigOperators.Group.List.Basic
import Gasnet.Foundation.Run

/-! AMMPI endpoints: what is accepted from the network, and the limits on the tokens. -/
namespace Gasnet.Ammpi

inductive Category
  | short
  | medium
  | long
deriving DecidableEq, Repr

inductive SystemMessageType
  | user
  | autoreply
  | returnedMessage
  | controlMessage
deriving DecidableEq, Repr

/-- `systemMessageArg` is a byte: returned tokens, or the reason of a refusal. -/
structure Msg where
  isRequest : Bool
  cat : Category
  handlerId : Nat
  nBytes : Nat
  destOffset : Nat
  tag : Nat
  systemMessageType : SystemMessageType
  systemMessageArg : Nat
deriving DecidableEq, Repr

def EBADTAG : Nat := 3
def EBADHANDLER : Nat := 4
def EBADSEGOFF : Nat := 5
def EBADLENGTH : Nat := 6

def AM_NONE : Nat := 0
def AM_ALL : Nat := 1

def AMMPI_MAX_MEDIUM : Nat := 65000
def AMMPI_MAX_LONG : Nat := 65000
def AMMPI_MAX_NETWORKDEPTH : Nat := 1024 * 1024

/-- What the client sets of an endpoint: its tag, its handlers and its segment. -/
structure Gate where
  useAmtags : Bool
  tag : Nat
  handler : Nat → Bool
  segAddr : Nat
  segLength : Nat

/-- The acceptance checks of `AMMPI_processPacket`, in its order. -/
def refusal (g : Gate) (m : Msg) : Option Nat :=
  if g.useAmtags ∧ (g.tag = AM_NONE ∨ g.tag ≠ m.tag ∧ g.tag ≠ AM_ALL) then some EBADTAG
  else if g.handler m.handlerId = false ∧ m.systemMessageType = .user ∧ m.handlerId ≠ 0 then
    some EBADHANDLER
  else match m.cat with
    | .short => if 0 < m.nBytes ∨ 0 < m.destOffset then some EBADLENGTH else none
    | .medium =>
      if AMMPI_MAX_MEDIUM < m.nBytes ∨ 0 < m.destOffset then some EBADLENGTH else none
    | .long =>
      if 0 < m.nBytes ∧ ((g.segAddr + m.destOffset) % 2 ^ 64 = 0 ∨ g.segLength = 0) then
        some EBADSEGOFF
      else if g.segLength < (m.destOffset + m.nBytes) % 2 ^ 64 ∨ AMMPI_MAX_LONG < m.nBytes then
        some EBADLENGTH
      else none

/-- `tokens_perhost` and `tokens_slack`, both `uint32_t`. -/
structure Limits where
  tokensPerhost : Nat
  tokensSlack : Nat
  slack_lt : tokensSlack < tokensPerhost
  lt : tokensPerhost < 2 ^ 32
deriving Repr

/-- `uint32_t` of what `atoi` returns. -/
def toUint32 (n : Int) : Nat := (n % 2 ^ 32).toNat

theorem toUint32_lt (n : Int) : toUint32 n < 2 ^ 32 := by
  unfold toUint32
  omega

/-- `AMMPI_CREDITS_PP` or twice the depth, and at least one. -/
def perhost (depth : Int) (creditsPP : Option Int) : Nat :=
  match creditsPP with
  | some n => if toUint32 n < 1 then 1 else toUint32 n
  | none => toUint32 (2 * depth)

/-- `AMMPI_CREDITS_SLACK` or three quarters of the tokens, and fewer than the tokens. -/
def slack (tokens : Nat) (creditsSlack : Option Int) : Nat :=
  match creditsSlack with
  | some n => min (toUint32 n) (tokens - 1)
  | none => min (tokens * 3 / 4) (tokens - 1)

theorem perhost_pos {depth : Int} (h : 1 ≤ depth ∧ depth ≤ AMMPI_MAX_NETWORKDEPTH)
    (creditsPP : Option Int) : 0 < perhost depth creditsPP ∧ perhost depth creditsPP < 2 ^ 32 := by
  cases creditsPP with
  | none =>
    simp only [perhost, toUint32, AMMPI_MAX_NETWORKDEPTH] at h ⊢
    omega
  | some n =>
    have := toUint32_lt n
    simp only [perhost]
    split <;> omega

theorem slack_lt {tokens : Nat} (h : 0 < tokens) (creditsSlack : Option Int) :
    slack tokens creditsSlack < tokens := by
  cases creditsSlack <;> simp only [slack] <;> omega

/-- `AM_SetExpectedResources`, the environment given. -/
def setExpectedResources (depth : Int) (creditsPP creditsSlack : Option Int) : Option Limits :=
  if h : 1 ≤ depth ∧ depth ≤ AMMPI_MAX_NETWORKDEPTH then
    some {
      tokensPerhost := perhost depth creditsPP
      tokensSlack := slack (perhost depth creditsPP) creditsSlack
      slack_lt := slack_lt (perhost_pos h creditsPP).1 creditsSlack
      lt := (perhost_pos h creditsPP).2 }
  else none

end Gasnet.Ammpi

/-! Token flow control: a request takes a token of its sender, and any later message of its
receiver brings tokens back. -/
namespace Gasnet.Ammpi

/-- What an endpoint has for one peer, and the messages it has sent to that peer. -/
structure PerProc where
  tokensOut : Nat
  tokensIn : Nat
  /-- `replyIssued` of the peer's requests whose handlers run, the innermost first. -/
  handling : List Bool
  flight : List Msg
deriving DecidableEq, Repr

namespace PerProc

def initial (lim : Limits) : PerProc := ⟨lim.tokensPerhost, 0, [], []⟩

def send (x : PerProc) (m : Msg) : PerProc := { x with flight := x.flight ++ [m] }

def setHandling (x : PerProc) (fs : List Bool) : PerProc := { x with handling := fs }

/-- Tokens that one message can bring back. -/
def carry (x : PerProc) : Nat := min 255 x.tokensIn

/-- A message that brings back what it can. -/
def sendTokens (x : PerProc) (m : Msg) : PerProc :=
  ({ x with tokensIn := x.tokensIn - x.carry }).send { m with systemMessageArg := x.carry }

/-- The part of `AMMPI_RequestGeneric` after its polls. -/
def request (x : PerProc) (m : Msg) : PerProc :=
  ({ x with tokensOut := x.tokensOut - 1 }).sendTokens m

/-- Returned tokens: `tokens_out += msg->systemMessageArg`. -/
def refund (x : PerProc) (n : Nat) : PerProc :=
  { x with tokensOut := (x.tokensOut + n) % 2 ^ 32 }

/-- A request arrives: `tokens_in++`, and its handler starts. -/
def start (x : PerProc) : PerProc :=
  { x with tokensIn := (x.tokensIn + 1) % 2 ^ 32, handling := false :: x.handling }

variable (x : PerProc) (m : Msg) (fs : List Bool) (n : Nat)

@[simp] theorem send_tokensOut : (x.send m).tokensOut = x.tokensOut := rfl
@[simp] theorem send_tokensIn : (x.send m).tokensIn = x.tokensIn := rfl
@[simp] theorem send_handling : (x.send m).handling = x.handling := rfl
@[simp] theorem send_flight : (x.send m).flight = x.flight ++ [m] := rfl

@[simp] theorem setHandling_tokensOut : (x.setHandling fs).tokensOut = x.tokensOut := rfl
@[simp] theorem setHandling_tokensIn : (x.setHandling fs).tokensIn = x.tokensIn := rfl
@[simp] theorem setHandling_handling : (x.setHandling fs).handling = fs := rfl
@[simp] theorem setHandling_flight : (x.setHandling fs).flight = x.flight := rfl

@[simp] theorem sendTokens_tokensOut : (x.sendTokens m).tokensOut = x.tokensOut := rfl
@[simp] theorem sendTokens_tokensIn : (x.sendTokens m).tokensIn = x.tokensIn - x.carry := rfl
@[simp] theorem sendTokens_handling : (x.sendTokens m).handling = x.handling := rfl
@[simp] theorem sendTokens_flight :
    (x.sendTokens m).flight = x.flight ++ [{ m with systemMessageArg := x.carry }] := rfl

@[simp] theorem request_tokensOut : (x.request m).tokensOut = x.tokensOut - 1 := rfl
@[simp] theorem request_tokensIn : (x.request m).tokensIn = x.tokensIn - x.carry := rfl
@[simp] theorem request_handling : (x.request m).handling = x.handling := rfl
@[simp] theorem request_flight :
    (x.request m).flight = x.flight ++ [{ m with systemMessageArg := x.carry }] := rfl

@[simp] theorem refund_tokensOut : (x.refund n).tokensOut = (x.tokensOut + n) % 2 ^ 32 := rfl
@[simp] theorem refund_tokensIn : (x.refund n).tokensIn = x.tokensIn := rfl
@[simp] theorem refund_handling : (x.refund n).handling = x.handling := rfl
@[simp] theorem refund_flight : (x.refund n).flight = x.flight := rfl

@[simp] theorem start_tokensOut : x.start.tokensOut = x.tokensOut := rfl
@[simp] theorem start_tokensIn : x.start.tokensIn = (x.tokensIn + 1) % 2 ^ 32 := rfl
@[simp] theorem start_handling : x.start.handling = false :: x.handling := rfl
@[simp] theorem start_flight : x.start.flight = x.flight := rfl

theorem carry_le : x.carry ≤ x.tokensIn := Nat.min_le_right _ _

theorem carry_pos (h : 0 < x.tokensIn) : 0 < x.carry := by
  unfold carry
  omega

end PerProc

variable {x y : PerProc} {m : Msg}

/-- The message of `AMMPI_REFUSEMESSAGE`: the same one with a reason for its argument. -/
def Msg.returned (m : Msg) (errcode : Nat) : Msg :=
  { m with systemMessageType := .returnedMessage, systemMessageArg := errcode }

/-- What follows when a message is accepted, up to its handler. -/
def accept (x : PerProc) (m : Msg) : PerProc :=
  match m.systemMessageType with
  | .user => if m.isRequest then x.start.refund m.systemMessageArg else x.refund m.systemMessageArg
  | .autoreply => x.refund m.systemMessageArg
  | .controlMessage | .returnedMessage => x

/-- `AMMPI_processPacket` up to the handler. For a returned message, the handler is the whole. -/
def processPacket (g : Gate) (x : PerProc) (m : Msg) : PerProc :=
  if m.systemMessageType = .returnedMessage then x
  else match refusal g m with
    | some errcode => x.send (m.returned errcode)
    | none => accept x m

/-- The automatic reply, its tokens apart. -/
def autoreply : Msg := ⟨false, .short, 0, 0, 0, 0, .autoreply, 0⟩

/-- What `AMMPI_processPacket` does after the handler of a request. -/
def afterHandler (lim : Limits) (x : PerProc) (replyIssued : Bool) (tag : Nat) : PerProc :=
  if replyIssued = false ∧ lim.tokensSlack < x.tokensIn then
    x.sendTokens { autoreply with tag := tag }
  else x

/-- What an endpoint can do that concerns a peer. -/
inductive Act
  | request (m : Msg)
  | reply (m : Msg)
  | finish (tag : Nat)
  | control (m : Msg)
  | receive (g : Gate) (m : Msg)

/-- An endpoint with `x` for a peer acts. The peer, with `y` for it, only loses the message that is
received. The networks keep no order. -/
inductive Move (lim : Limits) : PerProc → PerProc → Act → PerProc → PerProc → Prop
  | request {x y : PerProc} {m : Msg} (hout : x.tokensOut ≠ 0) (hreq : m.isRequest = true)
      (huser : m.systemMessageType = .user) : Move lim x y (.request m) (x.request m) y
  | reply {x y : PerProc} {m : Msg} {fs : List Bool} (hrun : x.handling = false :: fs)
      (hrep : m.isRequest = false) (huser : m.systemMessageType = .user) :
      Move lim x y (.reply m) ((x.sendTokens m).setHandling (true :: fs)) y
  | finish {x y : PerProc} {tag : Nat} {r : Bool} {fs : List Bool}
      (hrun : x.handling = r :: fs) :
      Move lim x y (.finish tag) ((afterHandler lim x r tag).setHandling fs) y
  | control {x y : PerProc} {m : Msg} (hrep : m.isRequest = false)
      (hcontrol : m.systemMessageType = .controlMessage) (harg : m.systemMessageArg = 0) :
      Move lim x y (.control m) (x.send m) y
  | receive {x y : PerProc} {g : Gate} {m : Msg} {l r : List Msg} (hfl : y.flight = l ++ m :: r) :
      Move lim x y (.receive g m) (processPacket g x m) { y with flight := l ++ r }

variable {E : Type*} [DecidableEq E]

/-- `s a b` is what `a` has for `b`. -/
abbrev State (E : Type*) := E → E → PerProc

def initial (lim : E → Limits) : State E := fun a _ => .initial (lim a)

def State.set (s : State E) (a b : E) (x : PerProc) : State E :=
  fun c d => if c = a ∧ d = b then x else s c d

structure Action (E : Type*) where
  ep : E
  peer : E
  act : Act

inductive Step (lim : E → Limits) : State E → Action E → State E → Prop
  | act {s : State E} {a b : E} {act : Act} {x y : PerProc} (hne : a ≠ b)
      (h : Move (lim a) (s a b) (s b a) act x y) :
      Step lim s ⟨a, b, act⟩ ((s.set a b x).set b a y)

/-- What a property of the two sides needs to be kept for every pair. -/
theorem Step.pair {lim : E → Limits} {s t : State E} {a : Action E} (h : Step lim s a t)
    {P : PerProc → PerProc → Prop} {c d : E} (hcd : c ≠ d)
    (hleft : ∀ {x y}, a.ep = c → a.peer = d → Move (lim c) (s c d) (s d c) a.act x y → P x y)
    (hright : ∀ {x y}, a.ep = d → a.peer = c → Move (lim d) (s d c) (s c d) a.act y x → P x y)
    (hsame : P (s c d) (s d c)) : P (t c d) (t d c) := by
  cases h with
  | @act a b act x y hne h =>
    by_cases hab : c = a ∧ d = b
    · obtain ⟨rfl, rfl⟩ := hab
      have := hleft rfl rfl h
      simpa [State.set, hcd, hcd.symm] using this
    · by_cases hba : c = b ∧ d = a
      · obtain ⟨rfl, rfl⟩ := hba
        have := hright rfl rfl h
        simpa [State.set, hcd, hcd.symm] using this
      · have hdc : ¬(d = b ∧ c = a) := fun h => hab h.symm
        have hcd' : ¬(d = a ∧ c = b) := fun h => hba h.symm
        simpa [State.set, hab, hba, hdc, hcd'] using hsame

end Gasnet.Ammpi
