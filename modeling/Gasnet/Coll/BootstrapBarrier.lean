import Gasnet.Coll.BootstrapExchange
import Gasnet.Foundation.CentralBarrier
import Gasnet.Foundation.Rounds

/-! The barriers of the bootstrap: `gasneti_host_barrier` and `gasneti_bootstrapBarrier_am`. Both
send messages in steps of doubling distance, among all processes of a host or among the leaders of
the neighborhoods, and have barriers in shared memory around that. -/
namespace Gasnet.Coll.BootstrapBarrier

variable {n N : Nat} {M : Type}

/-- Where the messages of a barrier are recorded, by phase. -/
structure Memory (M : Type) where
  init : M
  /-- The argument of the message of a step. -/
  arg : Bool → Nat → BitVec 32
  handler : M → BitVec 32 → M
  /-- What a step waits for. -/
  ready : M → Bool → Nat → Bool
  /-- What a step does when its wait is over. -/
  pass : M → Bool → Nat → M
  /-- What the end of a barrier does. -/
  reset : M → Bool → M
  /-- How much is recorded for a step. -/
  count : M → Bool → Nat → Nat
  /-- It is set back by the step, or else by the end of the barrier. -/
  early : Bool

/-- `gasneti_hbarr_rcvd[phase][step]`. -/
abbrev Counters := Bool → Nat → Nat

def Counters.set (m : Counters) (phase : Bool) (step count : Nat) : Counters :=
  Function.update m phase (Function.update (m phase) step count)

/-- `phase`, as a bit. -/
def phaseBit (phase : Bool) : BitVec 32 := if phase then 1#32 else 0#32

/-- The memory of `gasneti_host_barrier`: a counter for each step, which is set back by the step. -/
def hostMemory : Memory Counters where
  init _ _ := 0
  arg phase step := phaseBit phase ||| (BitVec.ofNat 32 step <<< 1)
  handler m arg0 :=
    let phase := arg0 &&& 1#32 == 1#32
    let step := ((arg0 >>> 1) &&& 0x1f#32).toNat
    m.set phase step (m phase step + 1)
  ready m phase step := m phase step != 0
  pass m phase step := m.set phase step 0
  reset m _ := m
  count m := m
  early := true

/-- `2 << i`. -/
def stepBit (i : Nat) : BitVec 32 := 2#32 <<< i

/-- The memory of `gasneti_bootstrapBarrier_am`: a word of bits, which the end sets back. -/
def jobMemory : Memory (Bool → BitVec 32) where
  init _ := 0
  arg phase i := phaseBit phase ||| stepBit i
  handler m arg :=
    let phase := arg &&& 1#32
    let bit := arg ^^^ phase
    Function.update m (phase == 1#32) (m (phase == 1#32) ||| bit)
  ready m phase i := m phase &&& stepBit i != 0
  pass m _ _ := m
  reset m phase := Function.update m phase 0
  count m phase i := if m phase &&& stepBit i = 0 then 0 else 1
  early := false

/-- The processes of a barrier: who takes part in the messages, the neighborhoods, and the barriers
in shared memory before and after the messages. -/
structure Layout (n N : Nat) where
  /-- The process with a rank among those that send messages. -/
  node : Fin N → Fin n
  injective : Function.Injective node
  nbrhd : Fin n → Nat
  pre : Bool
  post : Nat

/-- A host: all processes send messages. `gasneti_pshmnet_bootstrapBarrierPoll` is two barriers. -/
def hostLayout (pshm : Bool) (nbrhd : Fin n → Nat) : Layout n n where
  node := id
  injective := Function.injective_id
  nbrhd := nbrhd
  pre := false
  post := if pshm then 2 else 0

/-- A job without shared memory. -/
def flatLayout (n : Nat) : Layout n n where
  node := id
  injective := Function.injective_id
  nbrhd i := i
  pre := false
  post := 0

/-- The process of a neighborhood with local rank 0. -/
def leaderOf {nodes size : Nat} (m : Nodemap nodes size) (k : Fin size) : Fin nodes :=
  (Finset.univ.filter fun i => m.supernode i = k).min' (by
    obtain ⟨i, hi⟩ := m.nonempty k
    exact ⟨i, by simp [hi]⟩)

theorem supernode_leaderOf {nodes size : Nat} (m : Nodemap nodes size) (k : Fin size) :
    m.supernode (leaderOf m k) = k := by
  have hmem : leaderOf m k ∈ Finset.univ.filter fun i => m.supernode i = k :=
    Finset.min'_mem _ _
  exact (Finset.mem_filter.mp hmem).2

/-- A job with shared memory: the leaders send messages. -/
def jobLayout {nodes size : Nat} (m : Nodemap nodes size) : Layout nodes size where
  node := leaderOf m
  injective a b h := by rw [← supernode_leaderOf m a, h, supernode_leaderOf]
  nbrhd i := (m.supernode i).val
  pre := true
  post := 1

/-- Where a process is in a barrier. -/
inductive PC
  | out
  | pre
  | ring (step : Nat) (sent : Bool)
  | post (k : Nat)
deriving DecidableEq

/-- A process, with the number of barriers that it has left as history. -/
structure Rank (M : Type) where
  calls : Nat
  phase : Bool
  pc : PC
  mem : M
  proc : CentralBarrier.Proc

/-- A message, with the barrier and the step that it is of as history. -/
structure Message (N : Nat) where
  dst : Fin N
  arg : BitVec 32
  call : Nat
  step : Nat
deriving DecidableEq

/-- The processes, the shared memory of the neighborhoods, the messages under way, and as history
those delivered. -/
structure State (n N : Nat) (M : Type) where
  rank : Fin n → Rank M
  shared : Nat → CentralBarrier.Shared
  flight : List (Message N)
  delivered : List (Fin N × Nat × Nat)

/-- The steps of a barrier. -/
def schedule (N : Nat) : Rounds.Schedule N := ⟨numPeers N, fun step r => dissemPeer r step⟩

variable (mem : Memory M) (lay : Layout n N)

def Layout.team (h : Nat) : Finset (Fin n) := Finset.univ.filter fun p => lay.nbrhd p = h

def initial : State n N M where
  rank _ := ⟨0, false, .out, mem.init, ⟨0, .idle⟩⟩
  shared h := ⟨(lay.team h).card, 0⟩
  flight := []
  delivered := []

namespace Rank
variable {mem lay}

def toPc (x : Rank M) (pc : PC) : Rank M := { x with pc := pc }

def toMem (x : Rank M) (m : M) : Rank M := { x with mem := m }

def toProc (x : Rank M) (y : CentralBarrier.Proc) : Rank M := { x with proc := y }

/-- The end of a barrier. -/
def finish (mem : Memory M) (x : Rank M) : Rank M :=
  { x with calls := x.calls + 1, phase := !x.phase, pc := .out, mem := mem.reset x.mem x.phase }

/-- What follows the messages. -/
def afterRing (mem : Memory M) (lay : Layout n N) (x : Rank M) : Rank M :=
  if lay.post = 0 then x.finish mem else x.toPc (.post 0)

/-- What follows a barrier in shared memory after the messages. -/
def afterPost (mem : Memory M) (lay : Layout n N) (k : Nat) (x : Rank M) : Rank M :=
  if k + 1 < lay.post then x.toPc (.post (k + 1)) else x.finish mem

/-- What follows the beginning: the messages, if the process takes part in them. -/
def afterPre (mem : Memory M) (lay : Layout n N) (p : Fin n) (x : Rank M) : Rank M :=
  if ∃ r, lay.node r = p then x.toPc (.ring 0 false) else x.afterRing mem lay

/-- A process is at a barrier in shared memory. -/
def AtLocal (x : Rank M) : Prop := x.pc = .pre ∨ ∃ k, x.pc = .post k

end Rank

def State.setRank (s : State n N M) (p : Fin n) (x : Rank M) : State n N M :=
  { s with rank := Function.update s.rank p x }

inductive Action (n N : Nat)
  | call (p : Fin n)
  | move (p : Fin n)
  | exitPre (p : Fin n)
  | exitPost (p : Fin n)
  | send (r : Fin N)
  | deliver (m : Message N)
  | pass (r : Fin N)
  | ringDone (r : Fin N)

/-- Every process takes the steps of its barriers in its own time, and a message is delivered at any
time after it was sent. -/
inductive Step : State n N M → Action n N → State n N M → Prop
  | call {s : State n N M} {p : Fin n} (hpc : (s.rank p).pc = .out) :
      Step s (.call p) (s.setRank p
        (if lay.pre then (s.rank p).toPc .pre else (s.rank p).afterPre mem lay p))
  | move {s : State n N M} {p : Fin n} {m' : CentralBarrier.Shared} {y : CentralBarrier.Proc}
      (hpc : (s.rank p).AtLocal)
      (hmove : CentralBarrier.Move (lay.team (lay.nbrhd p)).card (s.shared (lay.nbrhd p))
        (s.rank p).proc m' y) :
      Step s (.move p)
        { s.setRank p ((s.rank p).toProc y) with
          shared := Function.update s.shared (lay.nbrhd p) m' }
  | exitPre {s : State n N M} {p : Fin n} (hpc : (s.rank p).pc = .pre)
      (hdone : (s.rank p).proc.Done (s.shared (lay.nbrhd p))) :
      Step s (.exitPre p)
        (s.setRank p (((s.rank p).toProc (s.rank p).proc.exit).afterPre mem lay p))
  | exitPost {s : State n N M} {p : Fin n} {k : Nat} (hpc : (s.rank p).pc = .post k)
      (hdone : (s.rank p).proc.Done (s.shared (lay.nbrhd p))) :
      Step s (.exitPost p)
        (s.setRank p (((s.rank p).toProc (s.rank p).proc.exit).afterPost mem lay k))
  | send {s : State n N M} {r : Fin N} {step : Nat}
      (hpc : (s.rank (lay.node r)).pc = .ring step false) (hstep : step < numPeers N) :
      Step s (.send r)
        { s.setRank (lay.node r) ((s.rank (lay.node r)).toPc (.ring step true)) with
          flight := ⟨dissemPeer r step, mem.arg (s.rank (lay.node r)).phase step,
            (s.rank (lay.node r)).calls, step⟩ :: s.flight }
  | deliver {s : State n N M} {m : Message N} (hm : m ∈ s.flight) :
      Step s (.deliver m)
        { s.setRank (lay.node m.dst) ((s.rank (lay.node m.dst)).toMem
            (mem.handler (s.rank (lay.node m.dst)).mem m.arg)) with
          flight := s.flight.erase m
          delivered := (m.dst, m.call, m.step) :: s.delivered }
  | pass {s : State n N M} {r : Fin N} {step : Nat}
      (hpc : (s.rank (lay.node r)).pc = .ring step true)
      (hready : mem.ready (s.rank (lay.node r)).mem (s.rank (lay.node r)).phase step = true) :
      Step s (.pass r) (s.setRank (lay.node r)
        (((s.rank (lay.node r)).toMem (mem.pass (s.rank (lay.node r)).mem
          (s.rank (lay.node r)).phase step)).toPc (.ring (step + 1) false)))
  | ringDone {s : State n N M} {r : Fin N} {step : Nat}
      (hpc : (s.rank (lay.node r)).pc = .ring step false) (hstep : ¬step < numPeers N) :
      Step s (.ringDone r) (s.setRank (lay.node r) ((s.rank (lay.node r)).afterRing mem lay))

/-- A process has entered a barrier. -/
def Rank.Entered (x : Rank M) (i : Nat) : Prop := i < x.calls ∨ i = x.calls ∧ x.pc ≠ .out

end Gasnet.Coll.BootstrapBarrier
