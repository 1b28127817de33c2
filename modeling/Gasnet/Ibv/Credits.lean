import Mathlib.Data.Int.ModEq
import Mathlib.Data.List.Basic
import Mathlib.Logic.Function.Basic
import Gasnet.Foundation.Run

/-! The limits on AM credits that `gasnetc_sndrcv_limits` computes, and the hidden argument. -/
namespace Gasnet.Ibv

/-- A value kept in an `int`. -/
def toInt32 (x : Int) : Int := Int.bmod x (2 ^ 32)

/-- `idiv_round_up`. -/
def idivRoundUp (numerator denominator : Int) : Int :=
  (toInt32 (numerator + denominator - 1)).tdiv denominator

structure Hca where
  maxCqe : Int
  qps : Int

/-- What is known when the limits are computed. -/
structure Settings where
  amOustPp : Int
  amCreditsSlack : Int
  numQps : Int
  nodes : Int
  rbufSpares : Int
  hcas : List Hca
  useSrq : Bool

/-- `gasnetc_am_rqst_per_qp`, the shared queues apart. -/
def amRqstPerQp (c : Settings) : Int :=
  c.hcas.foldl
    (fun n h => min n (idivRoundUp (toInt32 (h.maxCqe - c.rbufSpares)) (toInt32 (2 * h.qps))))
    (toInt32 (idivRoundUp c.amOustPp c.numQps * (c.nodes - 1)))

/-- The final `gasnetc_am_oust_pp`. -/
def amOustPp (c : Settings) : Int := idivRoundUp (amRqstPerQp c) (max 1 (c.nodes - 1))

/-- The final `gasnetc_am_credits_slack`. -/
def amCreditsSlack (c : Settings) : Int :=
  if c.useSrq then 0 else
    min (min (if c.amOustPp ≤ c.amCreditsSlack then c.amOustPp - 1 else c.amCreditsSlack)
      (amOustPp c - 1)) 256

/-- The two limits as they are used. -/
structure Limits where
  oustPp : Nat
  slack : Nat
  slack_lt : slack < oustPp
  slack_le : slack ≤ 256
deriving Repr

/-- `gasnetc_sndrcv_limits`: nothing when no credit or a negative slack results. -/
def sndrcvLimits (c : Settings) : Option Limits :=
  if h : 0 < amOustPp c ∧ 0 ≤ amCreditsSlack c then
    some {
      oustPp := (amOustPp c).toNat
      slack := (amCreditsSlack c).toNat
      slack_lt := by
        have hle : amCreditsSlack c ≤ max 0 (amOustPp c - 1) := by
          unfold amCreditsSlack
          split <;> omega
        omega
      slack_le := by
        have hle : amCreditsSlack c ≤ 256 := by
          unfold amCreditsSlack
          split <;> omega
        omega }
  else none

/-- The slack the environment sets is not negative, so it is the credits that decide. -/
theorem sndrcvLimits_isSome {c : Settings} (hpp : 1 ≤ c.amOustPp) (hslack : 0 ≤ c.amCreditsSlack) :
    (sndrcvLimits c).isSome ↔ 0 < amOustPp c := by
  unfold sndrcvLimits
  split
  · rename_i h
    simpa using h.1
  · rename_i h
    have hnot : ¬0 < amOustPp c := fun hpos => h ⟨hpos, by
      unfold amCreditsSlack
      split
      · exact Int.le_refl 0
      · split <;> omega⟩
    simpa using hnot

/-- `GASNETC_GEN_HIDDEN_ARG`. -/
def genHiddenArg (credits numargs : Nat) : Nat := credits ||| (numargs + 1) <<< 16

/-- `GASNETC_HIDDEN_ARG_CREDITS`. -/
def hiddenArgCredits (arg : Nat) : Nat := arg &&& 0xff

/-- `GASNETC_HIDDEN_ARG_FULL_NARGS`. -/
def hiddenArgFullNargs (arg : Nat) : Nat := arg >>> 16 &&& 0x1f

theorem genHiddenArg_eq {credits : Nat} (h : credits < 2 ^ 16) (numargs : Nat) :
    genHiddenArg credits numargs = 2 ^ 16 * (numargs + 1) + credits := by
  rw [genHiddenArg, Nat.shiftLeft_eq, Nat.mul_comm, Nat.or_comm]
  exact Nat.two_pow_add_eq_or_of_lt h _ |>.symm

/-- Up to 255 credits arrive. -/
theorem hiddenArgCredits_gen {credits : Nat} (h : credits ≤ 255) (numargs : Nat) :
    hiddenArgCredits (genHiddenArg credits numargs) = credits := by
  rw [genHiddenArg_eq (by omega)]
  show (2 ^ 16 * (numargs + 1) + credits) &&& (2 ^ 8 - 1) = credits
  rw [Nat.and_two_pow_sub_one_eq_mod]
  omega

/-- So does the number of arguments, of which there are up to 16. -/
theorem hiddenArgFullNargs_gen {credits numargs : Nat} (h : credits < 2 ^ 16)
    (hn : numargs ≤ 16) : hiddenArgFullNargs (genHiddenArg credits numargs) = numargs + 1 := by
  rw [genHiddenArg_eq h]
  show (2 ^ 16 * (numargs + 1) + credits) >>> 16 &&& (2 ^ 5 - 1) = numargs + 1
  rw [Nat.and_two_pow_sub_one_eq_mod, Nat.shiftRight_eq_div_pow]
  omega

end Gasnet.Ibv

/-! AM flow control of ibv-conduit: what the threads of a node do with the credits of a queue
pair, one atomic operation at a time. -/
namespace Gasnet.Ibv

/-- `hidden` is the first argument of a message that has `GASNETC_MAX_ARGS` of them. -/
structure Msg where
  isReq : Bool
  hidden : Option Nat
deriving DecidableEq, Repr

/-- Credits in the hidden argument. -/
def carried : Option Nat → Nat
  | some arg => hiddenArgCredits arg
  | none => 0

/-- Credits a message brings: the hidden ones, and one for itself if this is a reply. -/
def Msg.credits (m : Msg) : Nat := carried m.hidden + if m.isReq then 0 else 1

/-- Where a thread is that works on a queue pair. The first three send a request, the next two
have received a message, `handling` to `replied` have a request to answer, and the others a
reply. -/
inductive Task
  | credited
  | reserved
  | request (hidden : Option Nat)
  | arrived (m : Msg)
  | ready (m : Msg)
  | handling
  | acking
  | compare (old : Nat)
  | mustAck
  | reply (hidden : Option Nat)
  | replied
  | handlingReply
  | reposted
deriving DecidableEq, Repr

/-- A `gasnetc_cep_t`: `am_rem`, `am_flow.credit`, the buffers posted to its own receive queue,
the threads at work on it and what it has sent. With shared receive queues this is a pair, with
`am_rem` in its upper member and the rest in the lower. -/
structure Cep where
  amRem : Nat
  credit : Nat
  posted : Nat
  tasks : List Task
  flight : List Msg
deriving DecidableEq, Repr

/-- What the queue pairs of one HCA share: `am_sema` and the buffers posted to `rqst_srq` and
`repl_srq`. -/
structure Pool where
  amSema : Nat
  rqst : Nat
  repl : Nat
deriving DecidableEq, Repr

/-- What a thread does next on a queue pair. `haveFlow` was read before, so it may be stale. -/
inductive Act
  | takeCredit
  | takeSema
  | undoSema
  | undoCredit
  | loadRequest (haveFlow : Bool) (numargs : Nat)
  | postRequest
  | deliver
  | replace
  | process
  | finish
  | readBank
  | compareAndSwap
  | loadReply (haveFlow : Bool) (numargs : Nat)
  | postReply
  | done
  | repost
  | upSema
deriving DecidableEq, Repr

/-- The hidden argument, after the banked credits were swapped for 0. -/
def hiddenArg (haveFlow : Bool) (credit numargs : Nat) : Option Nat :=
  if haveFlow then some (genHiddenArg credit numargs) else none

def bankAfter (haveFlow : Bool) (credit : Nat) : Nat := if haveFlow then 0 else credit

/-- After `am_rem` was taken: with shared queues `am_sema` is next. -/
def afterCredit (useSrq : Bool) : Task := if useSrq then .credited else .reserved

/-- A request is processed with its buffer replaced, or with shared queues before that. -/
def requestAt (useSrq : Bool) (m : Msg) : Task := if useSrq then .arrived m else .ready m

/-- A request was not answered by its handler: with shared queues it is acknowledged at once. -/
def afterHandler (useSrq : Bool) : Task := if useSrq then .mustAck else .acking

/-- `gasnetc_hidden_ack` has read the banked credits. -/
def afterRead (slack old : Nat) : Task := if slack ≤ old then .mustAck else .compare old

def Pool.buffers (p : Pool) (isReq : Bool) : Nat := if isReq then p.rqst else p.repl

def Pool.take (p : Pool) (isReq : Bool) : Pool :=
  if isReq then ⟨p.amSema, p.rqst - 1, p.repl⟩ else ⟨p.amSema, p.rqst, p.repl - 1⟩

/-- A thread of the node works on `c`, whose HCA has `p`. A step changes one task. -/
inductive Work (slack : Nat) (useSrq : Bool) : Pool → Cep → Act → Pool → Cep → Prop
  | takeCredit {p : Pool} {c : Cep} (hrem : c.amRem ≠ 0) :
      Work slack useSrq p c .takeCredit p
        ⟨c.amRem - 1, c.credit, c.posted, afterCredit useSrq :: c.tasks, c.flight⟩
  | takeSema {p : Pool} {c : Cep} {l r : List Task} (hsrq : useSrq = true) (hsema : p.amSema ≠ 0)
      (ht : c.tasks = l ++ .credited :: r) :
      Work slack useSrq p c .takeSema ⟨p.amSema - 1, p.rqst, p.repl⟩
        ⟨c.amRem, c.credit, c.posted, l ++ .reserved :: r, c.flight⟩
  | undoSema {p : Pool} {c : Cep} {l r : List Task} (hsrq : useSrq = true)
      (ht : c.tasks = l ++ .reserved :: r) :
      Work slack useSrq p c .undoSema ⟨p.amSema + 1, p.rqst, p.repl⟩
        ⟨c.amRem, c.credit, c.posted, l ++ .credited :: r, c.flight⟩
  | undoCredit {p : Pool} {c : Cep} {l r : List Task}
      (ht : c.tasks = l ++ afterCredit useSrq :: r) :
      Work slack useSrq p c .undoCredit p
        ⟨c.amRem + 1, c.credit, c.posted, l ++ r, c.flight⟩
  | loadRequest {p : Pool} {c : Cep} {l r : List Task} {haveFlow : Bool} {numargs : Nat}
      (ht : c.tasks = l ++ .reserved :: r) :
      Work slack useSrq p c (.loadRequest haveFlow numargs) p
        ⟨c.amRem, bankAfter haveFlow c.credit, c.posted,
          l ++ .request (hiddenArg haveFlow c.credit numargs) :: r, c.flight⟩
  | postRequest {p : Pool} {c : Cep} {l r : List Task} {hidden : Option Nat}
      (ht : c.tasks = l ++ .request hidden :: r) :
      Work slack useSrq p c .postRequest p
        ⟨c.amRem, c.credit, c.posted, l ++ r, c.flight ++ [⟨true, hidden⟩]⟩
  | replace {p : Pool} {c : Cep} {l r : List Task} {m : Msg} (hsrq : useSrq = false)
      (hreq : m.isReq = true) (ht : c.tasks = l ++ .arrived m :: r) :
      Work slack useSrq p c .replace p
        ⟨c.amRem, c.credit, c.posted + 1, l ++ .ready m :: r, c.flight⟩
  | processRequest {p : Pool} {c : Cep} {l r : List Task} {m : Msg} (hreq : m.isReq = true)
      (ht : c.tasks = l ++ requestAt useSrq m :: r) :
      Work slack useSrq p c .process p
        ⟨c.amRem + m.credits, c.credit, c.posted, l ++ .handling :: r, c.flight⟩
  | processReply {p : Pool} {c : Cep} {l r : List Task} {m : Msg} (hrep : m.isReq = false)
      (ht : c.tasks = l ++ .arrived m :: r) :
      Work slack useSrq p c .process p
        ⟨c.amRem + m.credits, c.credit, c.posted, l ++ .handlingReply :: r, c.flight⟩
  | finish {p : Pool} {c : Cep} {l r : List Task} (ht : c.tasks = l ++ .handling :: r) :
      Work slack useSrq p c .finish p
        ⟨c.amRem, c.credit, c.posted, l ++ afterHandler useSrq :: r, c.flight⟩
  | readBank {p : Pool} {c : Cep} {l r : List Task} (hsrq : useSrq = false)
      (ht : c.tasks = l ++ .acking :: r) :
      Work slack useSrq p c .readBank p
        ⟨c.amRem, c.credit, c.posted, l ++ afterRead slack c.credit :: r, c.flight⟩
  | bank {p : Pool} {c : Cep} {l r : List Task} (hsrq : useSrq = false)
      (ht : c.tasks = l ++ .compare c.credit :: r) :
      Work slack useSrq p c .compareAndSwap p
        ⟨c.amRem, c.credit + 1, c.posted, l ++ r, c.flight⟩
  | retry {p : Pool} {c : Cep} {l r : List Task} {old : Nat} (hsrq : useSrq = false)
      (hne : c.credit ≠ old)
      (ht : c.tasks = l ++ .compare old :: r) :
      Work slack useSrq p c .compareAndSwap p
        ⟨c.amRem, c.credit, c.posted, l ++ .acking :: r, c.flight⟩
  | loadReply {p : Pool} {c : Cep} {l r : List Task} {t : Task} {haveFlow : Bool} {numargs : Nat}
      (hopen : t = .handling ∨ t = .mustAck) (ht : c.tasks = l ++ t :: r) :
      Work slack useSrq p c (.loadReply haveFlow numargs) p
        ⟨c.amRem, bankAfter haveFlow c.credit, c.posted,
          l ++ .reply (hiddenArg haveFlow c.credit numargs) :: r, c.flight⟩
  | postReply {p : Pool} {c : Cep} {l r : List Task} {hidden : Option Nat}
      (ht : c.tasks = l ++ .reply hidden :: r) :
      Work slack useSrq p c .postReply p
        ⟨c.amRem, c.credit, c.posted, l ++ .replied :: r, c.flight ++ [⟨false, hidden⟩]⟩
  | done {p : Pool} {c : Cep} {l r : List Task} (hsrq : useSrq = false)
      (ht : c.tasks = l ++ .replied :: r) :
      Work slack useSrq p c .done p ⟨c.amRem, c.credit, c.posted, l ++ r, c.flight⟩
  | doneShared {p : Pool} {c : Cep} {l r : List Task} (hsrq : useSrq = true)
      (ht : c.tasks = l ++ .replied :: r) :
      Work slack useSrq p c .done ⟨p.amSema, p.rqst + 1, p.repl⟩
        ⟨c.amRem, c.credit, c.posted, l ++ r, c.flight⟩
  | repost {p : Pool} {c : Cep} {l r : List Task} (hsrq : useSrq = false)
      (ht : c.tasks = l ++ .handlingReply :: r) :
      Work slack useSrq p c .repost p
        ⟨c.amRem, c.credit, c.posted + 1, l ++ r, c.flight⟩
  | repostShared {p : Pool} {c : Cep} {l r : List Task} (hsrq : useSrq = true)
      (ht : c.tasks = l ++ .handlingReply :: r) :
      Work slack useSrq p c .repost ⟨p.amSema, p.rqst, p.repl + 1⟩
        ⟨c.amRem, c.credit, c.posted, l ++ .reposted :: r, c.flight⟩
  | upSema {p : Pool} {c : Cep} {l r : List Task} (ht : c.tasks = l ++ .reposted :: r) :
      Work slack useSrq p c .upSema ⟨p.amSema + 1, p.rqst, p.repl⟩
        ⟨c.amRem, c.credit, c.posted, l ++ r, c.flight⟩

/-- A message of `d` is taken from the network into a buffer posted for `c`. With several pollers
messages are worked on in any order. -/
inductive Deliver (useSrq : Bool) : Pool → Cep → Cep → Pool → Cep → Cep → Prop
  | own {p : Pool} {c d : Cep} {l r : List Msg} {m : Msg} (hsrq : useSrq = false)
      (hposted : c.posted ≠ 0) (hfl : d.flight = l ++ m :: r) :
      Deliver useSrq p c d p
        ⟨c.amRem, c.credit, c.posted - 1, .arrived m :: c.tasks, c.flight⟩
        ⟨d.amRem, d.credit, d.posted, d.tasks, l ++ r⟩
  | shared {p : Pool} {c d : Cep} {l r : List Msg} {m : Msg} (hsrq : useSrq = true)
      (hposted : p.buffers m.isReq ≠ 0) (hfl : d.flight = l ++ m :: r) :
      Deliver useSrq p c d (p.take m.isReq)
        ⟨c.amRem, c.credit, c.posted, .arrived m :: c.tasks, c.flight⟩
        ⟨d.amRem, d.credit, d.posted, d.tasks, l ++ r⟩

variable {N Q H : Type*}

/-- The queue pair `qpi` of `node` to `peer`. -/
structure Key (N Q : Type*) where
  node : N
  peer : N
  qpi : Q
deriving DecidableEq

/-- The other end. -/
def Key.opp (k : Key N Q) : Key N Q := ⟨k.peer, k.node, k.qpi⟩

@[simp] theorem Key.opp_opp (k : Key N Q) : k.opp.opp = k := rfl

theorem Key.opp_ne {k : Key N Q} (h : k.node ≠ k.peer) : k.opp ≠ k :=
  fun he => h (congrArg Key.peer he)

/-- The limits, which HCA a queue pair is on, and how many buffers its shared queues have. -/
structure Config (N Q H : Type*) where
  lim : Limits
  useSrq : Bool
  hca : N → Q → H
  rbufCount : N × H → Nat

/-- The HCA of a queue pair. -/
def Config.home (g : Config N Q H) (k : Key N Q) : N × H := (k.node, g.hca k.node k.qpi)

structure State (N Q H : Type*) where
  cep : Key N Q → Cep
  pool : N × H → Pool

/-- Each queue pair has a buffer for every request and for every reply. -/
def initial (g : Config N Q H) : State N Q H where
  cep _ := ⟨g.lim.oustPp, 0, if g.useSrq then 0 else 2 * g.lim.oustPp, [], []⟩
  pool h := ⟨g.rbufCount h, g.rbufCount h, g.rbufCount h⟩

variable [DecidableEq N] [DecidableEq Q] [DecidableEq H]

inductive Step (g : Config N Q H) : State N Q H → Key N Q × Act → State N Q H → Prop
  | work {s : State N Q H} {k : Key N Q} {act : Act} {p : Pool} {c : Cep} (hne : k.node ≠ k.peer)
      (h : Work g.lim.slack g.useSrq (s.pool (g.home k)) (s.cep k) act p c) :
      Step g s (k, act)
        ⟨Function.update s.cep k c, Function.update s.pool (g.home k) p⟩
  | deliver {s : State N Q H} {k : Key N Q} {p : Pool} {c d : Cep} (hne : k.node ≠ k.peer)
      (h : Deliver g.useSrq (s.pool (g.home k)) (s.cep k) (s.cep k.opp) p c d) :
      Step g s (k, .deliver)
        ⟨Function.update (Function.update s.cep k c) k.opp d,
          Function.update s.pool (g.home k) p⟩

end Gasnet.Ibv
