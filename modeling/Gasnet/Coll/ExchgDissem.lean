import Gasnet.Coll.Dissem
import Gasnet.Foundation.Blocks
import Gasnet.Foundation.Run

/-! `gasnete_coll_exchg_Dissem`: in each phase of the dissemination order every rank sends some of its
blocks on, through the scratch spaces of the ranks. -/
namespace Gasnet.Coll.ExchgDissem

open Dissem Blocks

variable {β : Type*}

/-- The arguments of the operation on all ranks, and the order that each rank has built. -/
structure Exchg (β : Type*) where
  totalRanks : ℕ
  nbytes : ℕ
  info : ℕ → Info
  src : ℕ → ℕ → β
  insync : Bool
  outsync : Bool

/-- Block `i_idx` goes to peer `j` of this phase. -/
def Selected (digit radix j i : ℕ) : Prop := i / mypow radix digit % radix = j

instance (digit radix j : ℕ) : DecidablePred (Selected digit radix j) := fun i =>
  inferInstanceAs (Decidable (i / mypow radix digit % radix = j))

/-- `gasnete_coll_pack_all_to_all_msg`. -/
def packAllToAllMsg (m : ℕ → β) (src dest nbytes digit radix j totalRanks : ℕ) : (ℕ → β) × ℕ :=
  gather (Selected digit radix j) nbytes dest src totalRanks m

/-- `gasnete_coll_unpack_all_to_all_msg`. -/
def unpackAllToAllMsg (m : ℕ → β) (src dest nbytes digit radix j totalRanks : ℕ) : ℕ → β :=
  (scatter (Selected digit radix j) nbytes dest src totalRanks m).1

/-- `gasnete_coll_local_rotate_right` into `m`. -/
def localRotateRight (m : ℕ → β) (dst : ℕ) (src : ℕ → β) (elemSize numElem amt : ℕ) : ℕ → β :=
  copy (copy m (dst + amt * elemSize) src 0 ((numElem - amt) * elemSize)) dst src
    ((numElem - amt) * elemSize) (amt * elemSize)

/-- The block of the scratch space that ends up at block `i` of the destination. -/
def srcRank (myrank totalRanks i : ℕ) : ℕ :=
  if myrank < i then totalRanks + myrank - i else myrank - i

def copyOut (m : ℕ → β) (scratch : ℕ → β) (scratch2 nbytes myrank totalRanks : ℕ) : ℕ → β :=
  (List.range totalRanks).foldl (fun m i =>
    copy m (i * nbytes) scratch (scratch2 + srcRank myrank totalRanks i * nbytes) nbytes) m

namespace Exchg

variable (X : Exchg β)

/-- `incoming_size`, a `size_t`. -/
def incomingSize (a : ℕ) : ℕ :=
  (X.nbytes * X.totalRanks + X.nbytes * (X.info a).maxDissemBlocks * 2 * ((X.info a).radix - 1)) % 2 ^ 64

/-- `scratch2`, from the start of the scratch space; `(2)*(radix-1)` is an `int`. -/
def scratch2 (a : ℕ) : Option ℕ :=
  (mulInt 2 ((X.info a).radix - 1)).map fun k => X.nbytes * (X.info a).maxDissemBlocks * k % 2 ^ 64

/-- `IDX_EXPR`, and with the next phase `IDXP1_EXPR`. -/
def idxExpr (a phase j : ℕ) : ℕ :=
  (phase % 2 * ((X.info a).radix - 1) + j) * ((X.info a).maxDissemBlocks * X.nbytes) % 2 ^ 64

end Exchg

/-- Where a rank is in `gasnete_coll_pf_exchg_Dissem`. Phase `p` is in the states `3p+2`, `3p+3` and
`3p+4`; each of its loops has its index, and the last two states wait first. -/
inductive Stage
  | scratch
  | insync
  | advance (p j : ℕ)
  | clear (p : ℕ)
  | send (p j : ℕ)
  | await (p : ℕ)
  | unpack (p j : ℕ)
  | copy
  | outsync
  | done
  deriving DecidableEq

/-- A call of `gasnete_coll_p2p_advance_reqh` on its way. -/
inductive Advance
  | unsent
  | sent (dest idx : ℕ)
  | handled
  deriving DecidableEq

/-- A long request with `gasnete_coll_p2p_put_and_advance_reqh`. -/
structure PutMsg (β : Type*) where
  dest : ℕ
  addr : ℕ
  nbytes : ℕ
  payload : ℕ → β
  idx : ℕ

/-- The payload of a long request is in place before the handler runs. -/
inductive Put (β : Type*)
  | unsent
  | sent (m : PutMsg β)
  | landed (m : PutMsg β)
  | handled (m : PutMsg β)

/-- The messages are named by their sender, the phase and the number of the peer. -/
structure State (β : Type*) where
  stage : ℕ → Stage
  scratch : ℕ → ℕ → β
  dst : ℕ → ℕ → β
  counter : ℕ → ℕ → ℕ
  advances : ℕ → ℕ → ℕ → Advance
  puts : ℕ → ℕ → ℕ → Put β

def initial (scratch dst : ℕ → ℕ → β) : State β where
  stage := fun _ => .scratch
  scratch := scratch
  dst := dst
  counter := fun _ _ => 0
  advances := fun _ _ _ => .unsent
  puts := fun _ _ _ => .unsent

def update3 {γ : Type*} (f : ℕ → ℕ → ℕ → γ) (a p j : ℕ) (v : γ) : ℕ → ℕ → ℕ → γ :=
  fun b q k => if b = a ∧ q = p ∧ k = j then v else f b q k

namespace State

variable (s : State β)

def setStage (a : ℕ) (g : Stage) : State β := { s with stage := Function.update s.stage a g }

def setScratch (a : ℕ) (m : ℕ → β) : State β := { s with scratch := Function.update s.scratch a m }

def setDst (a : ℕ) (m : ℕ → β) : State β := { s with dst := Function.update s.dst a m }

def setAdvance (a p j : ℕ) (v : Advance) : State β := { s with advances := update3 s.advances a p j v }

def setPut (a p j : ℕ) (v : Put β) : State β := { s with puts := update3 s.puts a p j v }

def count (b idx : ℕ) : State β :=
  { s with counter := fun c i => if c = b ∧ i = idx then s.counter c i + 1 else s.counter c i }

end State

variable (X : Exchg β)

/-- The phases come first, and then the copy into the destination. -/
def enter (a p : ℕ) : Stage := if p < (X.info a).phases then .advance p 0 else .copy

/-- A step of rank `a`, or of a message that it has sent. -/
inductive Step (s : State β) : ℕ → State β → Prop
  /-- `gasnete_coll_scratch_alloc_nb` succeeds. -/
  | alloc {a : ℕ} : a < X.totalRanks → s.stage a = .scratch → Step s a (s.setStage a .insync)
  | single {a : ℕ} : a < X.totalRanks → s.stage a = .insync →
      (X.insync → ∀ b < X.totalRanks, s.stage b ≠ .scratch) → X.totalRanks = 1 →
      Step s a ((s.setDst a (copy (s.dst a) 0 (X.src a) 0 X.nbytes)).setStage a .outsync)
  | rotate {a o : ℕ} : a < X.totalRanks → s.stage a = .insync →
      (X.insync → ∀ b < X.totalRanks, s.stage b ≠ .scratch) → X.totalRanks ≠ 1 →
      X.scratch2 a = some o →
      Step s a ((s.setScratch a (localRotateRight (s.scratch a) o (X.src a) X.nbytes X.totalRanks
        (X.totalRanks - a))).setStage a (enter X a 0))
  | advance {a p j b : ℕ} : a < X.totalRanks → s.stage a = .advance p j →
      j < (X.info a).peerCount p → ((X.info a).behindPeers p)[j]? = some b →
      Step s a ((s.setAdvance a p j (.sent b (p * 2))).setStage a (.advance p (j + 1)))
  | advanced {a p j : ℕ} : a < X.totalRanks → s.stage a = .advance p j →
      ¬j < (X.info a).peerCount p → Step s a (s.setStage a (.clear p))
  | clear {a p : ℕ} : a < X.totalRanks → s.stage a = .clear p →
      s.counter a (p * 2) = (X.info a).peerCount p → Step s a (s.setStage a (.send p 0))
  | send {a p j b o nblocks : ℕ} {m : ℕ → β} : a < X.totalRanks → s.stage a = .send p j →
      j < (X.info a).peerCount p → ((X.info a).frontPeers p)[j]? = some b → X.scratch2 a = some o →
      packAllToAllMsg (s.scratch a) o (X.idxExpr a p j) X.nbytes p (X.info a).radix (j + 1)
        X.totalRanks = (m, nblocks) →
      Step s a (((s.setScratch a m).setPut a p j (.sent
        { dest := b
          addr := X.idxExpr a (p + 1) j
          nbytes := nblocks * X.nbytes
          payload := fun k => m (X.idxExpr a p j + k)
          idx := p * 2 + 1 })).setStage a (.send p (j + 1)))
  | sent {a p j : ℕ} : a < X.totalRanks → s.stage a = .send p j → ¬j < (X.info a).peerCount p →
      Step s a (s.setStage a (.await p))
  | await {a p : ℕ} : a < X.totalRanks → s.stage a = .await p →
      s.counter a (p * 2 + 1) = (X.info a).peerCount p → Step s a (s.setStage a (.unpack p 0))
  | unpack {a p j o : ℕ} : a < X.totalRanks → s.stage a = .unpack p j →
      j < (X.info a).peerCount p → X.scratch2 a = some o →
      Step s a ((s.setScratch a (unpackAllToAllMsg (s.scratch a) (X.idxExpr a (p + 1) j) o X.nbytes p
        (X.info a).radix (j + 1) X.totalRanks)).setStage a (.unpack p (j + 1)))
  | unpacked {a p j : ℕ} : a < X.totalRanks → s.stage a = .unpack p j →
      ¬j < (X.info a).peerCount p → Step s a (s.setStage a (enter X a (p + 1)))
  | copy {a o : ℕ} : a < X.totalRanks → s.stage a = .copy → X.scratch2 a = some o →
      Step s a ((s.setDst a (copyOut (s.dst a) (s.scratch a) o X.nbytes a X.totalRanks)).setStage a
        .outsync)
  | finish {a : ℕ} : a < X.totalRanks → s.stage a = .outsync →
      (X.outsync → ∀ b < X.totalRanks, s.stage b = .outsync ∨ s.stage b = .done) →
      Step s a (s.setStage a .done)
  | handleAdvance {a p j b idx : ℕ} : s.advances a p j = .sent b idx →
      Step s a ((s.count b idx).setAdvance a p j .handled)
  | land {a p j : ℕ} {m : PutMsg β} : s.puts a p j = .sent m →
      Step s a ((s.setScratch m.dest
        (Blocks.copy (s.scratch m.dest) m.addr m.payload 0 m.nbytes)).setPut a p j (.landed m))
  | handlePut {a p j : ℕ} {m : PutMsg β} : s.puts a p j = .landed m →
      Step s a ((s.count m.dest m.idx).setPut a p j (.handled m))

/-- The parts of the scratch space that the next step of a rank reads or writes. -/
def accesses (a : ℕ) (o : ℕ) : Stage → List (ℕ × ℕ)
  | .insync => if X.totalRanks = 1 then [] else
      [(o + (X.totalRanks - a) * X.nbytes, (X.totalRanks - (X.totalRanks - a)) * X.nbytes),
        (o, (X.totalRanks - a) * X.nbytes)]
  | .send p j => if ¬j < (X.info a).peerCount p then [] else
    ((List.range X.totalRanks).filter (Selected p (X.info a).radix (j + 1))).map
      (fun i => (o + i * X.nbytes, X.nbytes)) ++
      [(X.idxExpr a p j, Nat.count (Selected p (X.info a).radix (j + 1)) X.totalRanks * X.nbytes)]
  | .unpack p j => if ¬j < (X.info a).peerCount p then [] else
    ((List.range X.totalRanks).filter (Selected p (X.info a).radix (j + 1))).map
      (fun i => (o + i * X.nbytes, X.nbytes)) ++
      [(X.idxExpr a (p + 1) j, Nat.count (Selected p (X.info a).radix (j + 1)) X.totalRanks * X.nbytes)]
  | .copy => (List.range X.totalRanks).map fun i =>
      (o + srcRank a X.totalRanks i * X.nbytes, X.nbytes)
  | _ => []

end Gasnet.Coll.ExchgDissem
