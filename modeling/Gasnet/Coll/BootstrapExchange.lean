import Gasnet.Foundation.ExchangeRuns
import Gasnet.Foundation.ExchangeRotation
import Mathlib.Data.Fintype.Basic
import Mathlib.Data.List.FinRange

/-! `gasneti_bootstrapExchange_am`: an exchange between the leaders of the neighborhoods, between a
gather and a broadcast inside each. Both of these end with a barrier, so a neighborhood begins and
finishes an exchange together. -/
namespace Gasnet.Coll

open Exchange Rotation

/-- `gasneti_nodeinfo[].supernode`: the processes by neighborhood. -/
structure Nodemap (nodes size : Nat) where
  supernode : Fin nodes → Fin size
  nonempty : ∀ k, ∃ i, supernode i = k
  /-- Asserted before the permutation is made. -/
  first : ∀ i : Fin nodes, i.val = 0 → (supernode i).val = 0

/-- The arguments of `gasnetc_am_exchange_reqh`. -/
structure ExchangeArgs where
  arg0 : BitVec 32
  elemsz : BitVec 32
  deriving DecidableEq

/-- `phase | (step << 1) | (seq << 5)`. -/
def packArg (phase : Bool) (step seq : Nat) : BitVec 32 :=
  (if phase then 1#32 else 0#32) ||| (BitVec.ofNat 32 step <<< 1) ||| (BitVec.ofNat 32 seq <<< 5)

/-- What the handler reads: `arg0 & 1`, `(arg0 >> 1) & 0x0f` and `arg0 >> 5`. -/
def unpackArg (arg0 : BitVec 32) : Bool × Nat × Nat :=
  (arg0 &&& 1#32 == 1#32, ((arg0 >>> 1) &&& 0x0f#32).toNat, (arg0 >>> 5).toNat)

/-- `for (gex_Rank_t i = 1; i < size; i *= 2) result_len += 1`. -/
def resultLen (size i : Nat) : Nat := if 0 < i ∧ i < size then 1 + resultLen size (i * 2) else 0
termination_by size - i
decreasing_by omega

/-- The length of the vector of `gasneti_get_dissem_peers_pshm`. -/
def numPeers (size : Nat) : Nat := resultLen size 1

/-- The neighborhood whose leader is peer `step`. -/
def dissemPeer {size : Nat} (rank : Fin size) (step : Nat) : Fin size :=
  ⟨(if 2 ^ step ≤ rank.val then rank.val - 2 ^ step else rank.val + (size - 2 ^ step)) % size,
    Nat.mod_lt _ rank.pos⟩

namespace Nodemap

variable {nodes size : Nat} (m : Nodemap nodes size)

/-- The processes of a neighborhood, by local rank. -/
def members (k : Fin size) : List (Fin nodes) :=
  (List.finRange nodes).filter fun i => m.supernode i = k

/-- `width[k]`. -/
def width (k : Fin size) : Nat := (m.members k).length

/-- `gasneti_am_exchange_rcvd`: with `sum1` over the neighborhoods from one's own on. -/
def rcvd (rank : Fin size) (step : Nat) : Nat :=
  if step = numPeers size then nodes else Rotation.extent m.width rank (2 ^ step)

/-- `gasneti_am_exchange_send`: the last step is what `sum2`, over the neighborhoods from the last
peer on, leaves of all. -/
def send (rank : Fin size) (step : Nat) : Nat :=
  if step + 1 = numPeers size then
    nodes - Rotation.extent m.width (dissemPeer rank (numPeers size - 1)) (2 ^ (numPeers size - 1))
  else Rotation.extent m.width rank (2 ^ step)

/-- The comparison of each process with the one before. -/
def sortedFrom (n : Nat) : List Nat → Bool
  | [] => true
  | k :: l => if k < n then false else sortedFrom k l

/-- `sorted`: whether no process is in a neighborhood before that of the process before it. -/
def sorted : Bool := sortedFrom 0 ((List.finRange nodes).map fun i => (m.supernode i).val).tail

/-- The loop over the neighborhoods that makes `offset`, from one's own on. -/
def offsets (rank : Fin size) : Nat → (Fin size → Nat) × Nat
  | 0 => (fun _ => 0, 0)
  | i + 1 =>
    let (offset, sum1) := offsets rank i
    (Function.update offset (ahead rank i) sum1, sum1 + m.width (ahead rank i))

/-- The scan that collects the processes of each neighborhood: `offset` and `permute`. -/
def scan (rank : Fin size) (l : List (Fin nodes)) : (Fin size → Nat) × (Nat → Nat) :=
  l.foldl (fun s i => (Function.update s.1 (m.supernode i) (s.1 (m.supernode i) + 1),
    Function.update s.2 (s.1 (m.supernode i)) i.val)) ((m.offsets rank size).1, fun _ => 0)

/-- `gasneti_am_exchange_permute`, if there is one. -/
def permute (rank : Fin size) : Option (Nat → Nat) :=
  if size = 1 ∨ m.sorted then none else some (m.scan rank (List.finRange nodes)).2

/-- `gasneti_mynode` of the leader. -/
def leader (rank : Fin size) : Nat := ((m.members rank).head?.map Fin.val).getD 0

/-- The copy to the destination, of blocks by the permutation or else a rotation. -/
def arrange (rank : Fin size) (len : Nat) (temp : List UInt8) : List UInt8 :=
  match m.permute rank with
  | some permute =>
    (List.range (len * nodes)).map fun x => (List.range nodes).foldl (fun byte n =>
      if x / len = permute n then temp.getD (len * n + x % len) 0 else byte) 0
  | none =>
    (temp.drop (len * (nodes - m.leader rank))).take (len * m.leader rank) ++
      temp.take (len * (nodes - m.leader rank))

end Nodemap

/-- A job: the processes, the payload of a message, and what each process gives to each exchange,
of the same length for all. -/
structure BootstrapJob (nodes size : Nat) where
  map : Nodemap nodes size
  chunk : Nat
  chunk_pos : 0 < chunk
  exchanges : List (Nat × (Fin nodes → List UInt8))
  length_src : ∀ e ∈ exchanges, 0 < e.1 ∧ ∀ i, (e.2 i).length = e.1

namespace BootstrapJob

variable {nodes size : Nat} (j : BootstrapJob nodes size)

/-- `gasnetc_am_exchange_reqh`, where the product of two 32-bit numbers has 32 bits. -/
def amExchangeReqh (rank : Fin size) (a : ExchangeArgs) : Landing :=
  let (phase, step, seq) := unpackArg a.arg0
  { phase := phase
    step := step
    size := a.elemsz.toNat * nodes
    offset := a.elemsz.toNat * j.map.rcvd rank step % 2 ^ 32 + seq * j.chunk }

/-- One exchange of a leader. Its own part is what the gather has put together. -/
def amPlan (rank : Fin size) (phase : Bool) (len : Nat) (src : Fin nodes → List UInt8) :
    Plan ExchangeArgs UInt8 where
  size := len * nodes
  own := (j.map.members rank).flatMap src
  frags step := (pieces j.chunk (len * j.map.send rank step) 0).zipIdx.map fun x =>
    ⟨⟨packArg phase step x.2, BitVec.ofNat 32 len⟩, x.1.1, x.1.2⟩
  expect step :=
    (len * (j.map.rcvd rank (step + 1) - j.map.rcvd rank step) + j.chunk - 1) / j.chunk % 2 ^ 32

/-- The phase, and the destinations of the exchanges that are done. -/
structure Control where
  phase : Bool
  dests : List (List UInt8)

def plan (rank : Fin size) (x : Control) : Option (Plan ExchangeArgs UInt8) :=
  (j.exchanges[x.dests.length]?).map fun e => j.amPlan rank x.phase e.1 e.2

def next (rank : Fin size) (x : Control) (temp : List UInt8) : Control where
  phase := !x.phase
  dests := x.dests ++
    [j.map.arrange rank (((j.exchanges[x.dests.length]?).map Prod.fst).getD 0) temp]

/-- The exchanges of all leaders. A counter counts messages. -/
def program : Program size Control ExchangeArgs UInt8 where
  steps := numPeers size
  start _ := ⟨false, []⟩
  plan := j.plan
  next := j.next
  peer := dissemPeer
  landing := j.amExchangeReqh
  alloc n := decide (n < 2 ^ 63)
  gain _ := 1
  ready rcvd seq := decide (rcvd = seq)

/-- The destination of a process after each exchange, which its leader has broadcast. -/
def dests (s : System size Control ExchangeArgs UInt8) (i : Fin nodes) : List (List UInt8) :=
  (s.rank (j.map.supernode i)).control.dests

end BootstrapJob

end Gasnet.Coll
