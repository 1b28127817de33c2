import Mathlib.Data.BitVec
import Mathlib.Logic.Function.Basic
import Gasnet.Foundation.Run

/-! The operations of an atomic domain of an integer type: what they compute, the accesses to memory
they are made of, and how a request names them. -/
namespace Gasnet.Ratomic

/-- The integer types of `gex_DT_t`. -/
inductive DT
  | i32 | u32 | i64 | u64
  deriving DecidableEq

def DT.bits : DT → Nat
  | i32 | u32 => 32
  | i64 | u64 => 64

def DT.signed : DT → Bool
  | i32 | i64 => true
  | u32 | u64 => false

/-- The bit number of `GEX_DT_*`. -/
def DT.idx : DT → Nat
  | i32 => 0 | u32 => 1 | i64 => 2 | u64 => 3

abbrev Val (d : DT) := BitVec d.bits

/-- `gex_OP_t`. -/
inductive Op
  | and | or | xor | add | sub | mult | min | max | inc | dec
  | fAnd | fOr | fXor | fAdd | fSub | fMult | fMin | fMax | fInc | fDec
  | set | cas | swap | fCas | get
  deriving DecidableEq

/-- `gasneti_op_idx_t`: the bit number of `GEX_OP_*`. -/
def Op.idx : Op → Nat
  | and => 0 | or => 1 | xor => 2 | add => 3 | sub => 4 | mult => 5 | min => 6 | max => 7
  | inc => 8 | dec => 9 | set => 10 | cas => 11
  | fAnd => 15 | fOr => 16 | fXor => 17 | fAdd => 18 | fSub => 19 | fMult => 20 | fMin => 21
  | fMax => 22 | fInc => 23 | fDec => 24 | swap => 25 | fCas => 26 | get => 27

/-- `gasneti_op_fetch`. -/
def Op.fetch : Op → Bool
  | and | or | xor | add | sub | mult | min | max | inc | dec | set | cas => false
  | fAnd | fOr | fXor | fAdd | fSub | fMult | fMin | fMax | fInc | fDec | swap | fCas | get => true

/-- `gasneti_op_0arg`, `gasneti_op_1arg` and `gasneti_op_2arg`. -/
def Op.args : Op → Nat
  | get | inc | dec | fInc | fDec => 0
  | cas | fCas => 2
  | _ => 1

/-- The switch of `gasnete_amratomic_reqh_inner`. -/
def Op.ofIdx : Nat → Option Op
  | 0 => some and | 1 => some or | 2 => some xor | 3 => some add | 4 => some sub | 5 => some mult
  | 6 => some min | 7 => some max | 8 => some inc | 9 => some dec | 10 => some set | 11 => some cas
  | 15 => some fAnd | 16 => some fOr | 17 => some fXor | 18 => some fAdd | 19 => some fSub
  | 20 => some fMult | 21 => some fMin | 22 => some fMax | 23 => some fInc | 24 => some fDec
  | 25 => some swap | 26 => some fCas | 27 => some get | _ => none

variable {d : DT}

/-- `a < b` in the type. -/
def lt (a b : Val d) : Bool := if d.signed then a.slt b else a.ult b

/-- How `gasnete_ratomicfn` carries an operation out. -/
inductive Method (d : DT)
  | set (operand : Val d)
  | get
  | swap (operand : Val d)
  | compareAndSwap (operand1 operand2 : Val d)
  | add (operand : Val d)
  | subtract (operand : Val d)
  | loop (operator : Val d → Val d)

/-- The cases of `_GASNETE_RATOMIC_FN_SW1` and `_GASNETE_RATOMIC_FN_DEFN2`. -/
def Op.method (op : Op) (operand1 operand2 : Val d) : Method d :=
  match op with
  | set => .set operand1
  | get => .get
  | swap => .swap operand1
  | cas | fCas => .compareAndSwap operand1 operand2
  | inc | fInc => .add 1
  | add | fAdd => .add operand1
  | dec | fDec => .subtract 1
  | sub | fSub => .subtract operand1
  | and | fAnd => .loop fun a => a &&& operand1
  | or | fOr => .loop fun a => a ||| operand1
  | xor | fXor => .loop fun a => a ^^^ operand1
  | mult | fMult => .loop fun a => a * operand1
  | min | fMin => .loop fun a => if lt a operand1 then a else operand1
  | max | fMax => .loop fun a => if lt operand1 a then a else operand1

/-- Where a call of `gasnete_ratomicfn` is: before its first access, between the read and the
compare-and-swap of `GASNETE_RATOMIC_CAS`, between a failed compare-and-swap and the read behind it, or at
its end. -/
inductive Frame (d : DT)
  | start
  | loaded (oldval : Val d)
  | failed
  | returned (result : Val d)

/-- One atomic access to a target that holds `v`. -/
def Method.access : Method d → Frame d → Val d → Frame d × Val d
  | _, .returned x, v => (.returned x, v)
  | .set x, _, _ => (.returned 0, x)
  | .get, _, v => (.returned v, v)
  | .swap x, _, v => (.returned v, x)
  | .compareAndSwap x _, .failed, v => if v = x then (.start, v) else (.returned v, v)
  | .compareAndSwap x y, _, v => if v = x then (.returned x, y) else (.failed, v)
  | .add x, _, v => (.returned (v + x - x), v + x)
  | .subtract x, _, v => (.returned (v - x + x), v - x)
  | .loop f, .loaded old, v => if v = old then (.returned old, f old) else (.start, v)
  | .loop _, _, v => (.loaded v, v)

/-- What an operation does to its target when it is done at one go. Those that fetch fetch the old
value. -/
def Op.apply (op : Op) (operand1 operand2 v : Val d) : Val d :=
  match op with
  | set | swap => operand1
  | get => v
  | cas | fCas => if v = operand1 then operand2 else v
  | inc | fInc => v + 1
  | add | fAdd => v + operand1
  | dec | fDec => v - 1
  | sub | fSub => v - operand1
  | and | fAnd => v &&& operand1
  | or | fOr => v ||| operand1
  | xor | fXor => v ^^^ operand1
  | mult | fMult => v * operand1
  | min | fMin => if lt v operand1 then v else operand1
  | max | fMax => if lt operand1 v then v else operand1

variable {op : Op} {x y v v' r : Val d} {f f' : Frame d} {m : Method d}

/-- An access ends the call, and does to the target what the whole operation does, or it leaves the
target alone. -/
theorem access_spec (h : (op.method x y).access f v = (f', v')) (hf : ∀ r, f ≠ .returned r) :
    (∃ r, f' = .returned r ∧ v' = op.apply x y v ∧ (op.fetch → r = v)) ∨
      (∀ r, f' ≠ .returned r) ∧ v' = v := by
  cases op <;> cases f <;> simp_all [Op.method, Method.access, Op.apply, Op.fetch] <;>
    first
    | (obtain ⟨rfl, rfl⟩ := h; simp)
    | (split at h <;> simp_all <;> (obtain ⟨rfl, rfl⟩ := h; simp))

/-- `op_idx | (datatype << 8)`. -/
def ctrl (op : Op) (d : DT) : BitVec 32 :=
  BitVec.ofNat 32 op.idx ||| (1#32 <<< d.idx) <<< 8

/-- The operation that the request handler finds in the low five bits, if the data type is `d`. -/
def decode (d : DT) (c : BitVec 32) : Option Op :=
  if c >>> 8 = 1#32 <<< d.idx then Op.ofIdx (c &&& 0x1F).toNat else none

theorem decode_ctrl : decode d (ctrl op d) = some op := by
  cases op <;> cases d <;> decide

/-- The operands that go into a request. -/
def payload (op : Op) (operand1 operand2 : Val d) : List (Val d) :=
  match op.args with
  | 0 => []
  | 1 => [operand1]
  | _ => [operand1, operand2]

/-- `GASNETE_AMRATOMIC_REQH_OPS`. -/
def unpack : List (Val d) → Val d × Val d
  | [] => (0, 0)
  | [a] => (a, 0)
  | a :: b :: _ => (a, b)

/-- Operands that were not sent are not used. -/
theorem method_unpack : op.method (unpack (payload op x y)).1 (unpack (payload op x y)).2 =
    op.method x y := by
  cases op <;> rfl

end Gasnet.Ratomic

/-! All operations of one atomic domain, under way at the same time: carried out by the calling thread on
shared memory, by request and reply, or, for `SET` and `GET`, by RMA. -/
namespace Gasnet.Ratomic

/-- How an operation reaches its target. -/
inductive Path
  | tools | am | rma
  deriving DecidableEq

/-- `gex_EC_t`, the counters of an iop. -/
inductive EC
  | put | get | rmw
  deriving DecidableEq

/-- What an operation completes: an event of its own, or a count of the current iop. -/
inductive Completion
  | eop (e : Nat)
  | iop (i : Nat) (type : EC)
  deriving DecidableEq

/-- A call of `gex_AD_OpNB_*` or `gex_AD_OpNBI_*`. -/
structure Call (d : DT) where
  op : Op
  target : Nat
  operand1 : Val d
  operand2 : Val d
  path : Path

/-- The counter that `gasnete_amratomic_request_NBI`, `NBI_S1` and `NBI_G0` take. -/
def Op.ec : Op → EC
  | .set => .put
  | .get => .get
  | _ => .rmw

/-- `gasnete_amratomic_op_t`: where the result goes, if anywhere, and what to complete. -/
structure Rop where
  resultP : Option Nat
  completion : Completion

/-- `gasnete_amratomic_reqh` with its arguments. -/
structure Request (d : DT) where
  ctrl : BitVec 32
  target : Nat
  payload : List (Val d)
  rop : Nat

/-- Where an operation is. -/
inductive Stage (d : DT)
  | idle
  | direct (f : Frame d)
  | starting (rop : Option Nat)
  | requested (m : Request d)
  | handling (f : Frame d) (op : Op) (m : Request d)
  | replied (rop : Nat) (payload : List (Val d))
  | moving
  | stored (rop : Option Nat)
  | done
  | refused

/-- `eops` holds for each event in use whether it is done. `results` is what the operations wrote to
their result variables, and `handle` what the caller has to test or sync. `order` and `pending` are
history: the operations that have taken effect, and those that have begun and not completed. -/
structure State (d : DT) where
  mem : Nat → Val d
  stage : Nat → Stage d
  rops : Nat → Option Rop
  eops : Nat → Option Bool
  initiated : Nat → EC → Nat
  completed : Nat → EC → Nat
  results : Nat → Option (Val d)
  handle : Nat → Option Completion
  order : List Nat
  pending : List Nat

variable {d : DT}

def initial (mem : Nat → Val d) : State d where
  mem := mem
  stage := fun _ => .idle
  rops := fun _ => none
  eops := fun _ => none
  initiated := fun _ _ => 0
  completed := fun _ _ => 0
  results := fun _ => none
  handle := fun _ => none
  order := []
  pending := []

namespace State

def setStage (s : State d) (i : Nat) (g : Stage d) : State d :=
  { s with stage := Function.update s.stage i g }

def setRop (s : State d) (r : Nat) (v : Option Rop) : State d :=
  { s with rops := Function.update s.rops r v }

def setEop (s : State d) (e : Nat) (v : Option Bool) : State d :=
  { s with eops := Function.update s.eops e v }

/-- Write the result of `i`, if there is one. -/
def store (s : State d) (i : Option Nat) (v : Option (Val d)) : State d :=
  match i, v with
  | some i, some v => { s with results := Function.update s.results i (some v) }
  | _, _ => s

/-- `gasneti_iop_register` and `gasneti_iop_register_rmw`, or `gasneti_eop_create`. -/
def register (s : State d) (i : Nat) (c : Completion) : State d :=
  let s := { s with handle := Function.update s.handle i (some c), pending := i :: s.pending }
  match c with
  | .eop e => s.setEop e (some false)
  | .iop j t => { s with
      initiated := fun k u => if k = j ∧ u = t then s.initiated k u + 1 else s.initiated k u }

/-- `gasneti_eop_markdone`, `gasneti_iop_markdone` and `gasneti_iop_markdone_rmw`. -/
def markdone (s : State d) (i : Nat) (c : Completion) : State d :=
  let s := { s with pending := s.pending.erase i }
  match c with
  | .eop e => s.setEop e (some true)
  | .iop j t => { s with
      completed := fun k u => if k = j ∧ u = t then s.completed k u + 1 else s.completed k u }

def dropHandle (s : State d) (i : Nat) : State d :=
  { s with handle := Function.update s.handle i none }

/-- After `gasneti_eop_markdone`, `gasnete_test` frees the event of a refused operation. The caller gets
none. -/
def unregister (s : State d) (i : Nat) (c : Completion) : State d :=
  let s := (s.markdone i c).dropHandle i
  match c with
  | .eop e => s.setEop e none
  | .iop _ _ => s

/-- Operation `i` accesses its target `t`, which makes it take effect if that ends the call. -/
def access (s : State d) (i t : Nat) (f : Frame d) (v : Val d) : State d :=
  { s with
    mem := Function.update s.mem t v
    order := match f with
      | .returned _ => s.order ++ [i]
      | _ => s.order }

end State

/-- The request that `gasnete_amratomic_request_NB` or `gasnete_amratomic_request_NBI` sends. -/
def Call.request (c : Call d) (rop : Nat) : Request d :=
  ⟨Ratomic.ctrl c.op d, c.target, Ratomic.payload c.op c.operand1 c.operand2, rop⟩

/-- The completion a call may get: an unused event, or a count of the right kind. -/
def Fresh (s : State d) (c : Call d) : Completion → Prop
  | .eop e => s.eops e = none
  | .iop _ t => t = c.op.ec

/-- The steps of operation `i`. `calls` tells what the operations are. -/
inductive Step (calls : Nat → Call d) (s : State d) : Nat → State d → Prop
  /-- A neighbour's memory, or its own. -/
  | direct {i : Nat} : s.stage i = .idle → (calls i).path = .tools →
      Step calls s i (s.setStage i (.direct .start))
  | directAccess {i : Nat} {f f' : Frame d} {v : Val d} : s.stage i = .direct f →
      (∀ r, f ≠ .returned r) →
      ((calls i).op.method (calls i).operand1 (calls i).operand2).access f
        (s.mem (calls i).target) = (f', v) →
      Step calls s i ((s.access i (calls i).target f' v).setStage i (.direct f'))
  | directReturn {i : Nat} {r : Val d} : s.stage i = .direct (.returned r) →
      Step calls s i ((s.store (some i) (if (calls i).op.fetch then some r else none)).setStage i .done)
  | beginAM {i r : Nat} {c : Completion} : s.stage i = .idle → (calls i).path = .am →
      s.rops r = none → Fresh s (calls i) c →
      Step calls s i (((s.register i c).setRop r
        (some ⟨if (calls i).op.fetch then some i else none, c⟩)).setStage i (.starting (some r)))
  | beginRMA {i : Nat} {c : Completion} : s.stage i = .idle → (calls i).path = .rma →
      (calls i).op = .set ∨ (calls i).op = .get → Fresh s (calls i) c →
      Step calls s i ((s.register i c).setStage i (.starting none))
  /-- `GEX_FLAG_IMMEDIATE` and no resources. -/
  | refuseAM {i r : Nat} {rop : Rop} : s.stage i = .starting (some r) → s.rops r = some rop →
      Step calls s i (((s.unregister i rop.completion).setRop r none).setStage i .refused)
  | refuseRMA {i : Nat} {c : Completion} : s.stage i = .starting none → s.handle i = some c →
      Step calls s i ((s.unregister i c).setStage i .refused)
  | send {i r : Nat} : s.stage i = .starting (some r) →
      Step calls s i (s.setStage i (.requested ((calls i).request r)))
  | move {i : Nat} : s.stage i = .starting none → Step calls s i (s.setStage i .moving)
  /-- `gasnete_amratomic_reqh` starts. -/
  | handle {i : Nat} {m : Request d} {op : Op} : s.stage i = .requested m → decode d m.ctrl = some op →
      Step calls s i (s.setStage i (.handling .start op m))
  | handlerAccess {i : Nat} {f f' : Frame d} {op : Op} {m : Request d} {v : Val d} :
      s.stage i = .handling f op m → (∀ r, f ≠ .returned r) →
      (op.method (unpack m.payload).1 (unpack m.payload).2).access f (s.mem m.target) = (f', v) →
      Step calls s i ((s.access i m.target f' v).setStage i (.handling f' op m))
  | reply {i : Nat} {op : Op} {m : Request d} {r : Val d} :
      s.stage i = .handling (.returned r) op m →
      Step calls s i (s.setStage i (.replied m.rop (if op.fetch then [r] else [])))
  /-- `gasnete_amratomic_reph` up to `gasneti_sync_writes`. -/
  | storeReply {i r : Nat} {p : List (Val d)} {rop : Rop} : s.stage i = .replied r p →
      s.rops r = some rop →
      Step calls s i ((s.store rop.resultP p.head?).setStage i (.stored (some r)))
  | finishAM {i r : Nat} {rop : Rop} : s.stage i = .stored (some r) → s.rops r = some rop →
      Step calls s i (((s.markdone i rop.completion).setRop r none).setStage i .done)
  /-- The one access of an RMA operation. -/
  | rmaAccess {i : Nat} {f' : Frame d} {v r : Val d} : s.stage i = .moving →
      ((calls i).op.method (calls i).operand1 (calls i).operand2).access .start
        (s.mem (calls i).target) = (f', v) → f' = .returned r →
      Step calls s i (((s.access i (calls i).target f' v).store (some i)
        (if (calls i).op.fetch then some r else none)).setStage i (.stored none))
  | finishRMA {i : Nat} {c : Completion} : s.stage i = .stored none → s.handle i = some c →
      Step calls s i ((s.markdone i c).setStage i .done)
  /-- The caller of `i` syncs its event. -/
  | sync {i e : Nat} : s.handle i = some (.eop e) → s.stage i = .done → s.eops e = some true →
      Step calls s i ((State.setEop s e none).dropHandle i)

end Gasnet.Ratomic
