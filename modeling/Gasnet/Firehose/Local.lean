import Gasnet.Firehose.Table

/-! Remote pinning: what one node does, under the table lock, with its tables about one peer. -/
namespace Gasnet.Firehose

/-- `FH_MAX_UNPIN_REM`. -/
def maxUnpinRem : Nat := 4

/-- `bucketsUsed` and `victimFifoBuckets` are the counters `fhc_RemoteBucketsUsed` and
`fhc_RemoteVictimFifoBuckets`. `held` has one entry for every request pinned and not yet
released, `stalled` every miss that polls in `fh_WaitRemoteFirehoses`. -/
structure Peer where
  table : Table
  bucketsUsed : Int
  victimFifoBuckets : Int
  held : List Nat
  stalled : List Region

namespace Peer

def initial : Peer := ⟨.empty, 0, 0, [], []⟩

/-- `fh_priv_acquire_remote`, for a new request. -/
def privAcquireRemote (s : Peer) (x : Priv) : Peer :=
  if x.ptr ∈ s.table.fifo then
    { s with
      table := { s.table.setStatus x.ptr (.used 0 1) with fifo := s.table.fifo.erase x.ptr }
      victimFifoBuckets := s.victimFifoBuckets - 1
      held := x.ptr :: s.held }
  else
    match x.status with
    | .used l r =>
      { s with
        table := s.table.setStatus x.ptr (.used l (r + 1))
        held := x.ptr :: s.held }
    | .pending _ _ => s

/-- `fh_priv_release_remote`. -/
def privReleaseRemote (s : Peer) (x : Priv) : Peer :=
  match x.status with
  | .used l (r + 1) =>
    let t := s.table.setStatus x.ptr (.used l r)
    if r = 0 then
      { s with
        table := { t with fifo := if x.visible = 0 then x.ptr :: t.fifo else t.fifo ++ [x.ptr] }
        victimFifoBuckets := s.victimFifoBuckets + 1
        held := s.held.erase x.ptr }
    else { s with table := t, held := s.held.erase x.ptr }
  | _ => s

/-- One pass of the loop of `fh_WaitRemoteFirehoses(node, 1)`; `none` is the pass that polls. -/
def waitRemoteFirehoses (s : Peer) : Option Peer :=
  if 0 < s.victimFifoBuckets then
    some { s with
      table := s.table.freeVictim 1
      victimFifoBuckets := s.victimFifoBuckets - 1 }
  else none

/-- The resources of a miss: a free slot, or the slot of a victim. Also how many were unpinned. -/
def acquireSlot (c : Params) (s : Peer) : Option (Peer × Nat) :=
  if s.bucketsUsed < c.remoteBucketsM then some ({ s with bucketsUsed := s.bucketsUsed + 1 }, 0)
  else s.waitRemoteFirehoses.map fun s' => (s', 1)

/-- `fh_clean_covered_remote`. -/
def cleanCoveredRemote (s : Peer) (limit : Nat) : Peer :=
  { s with
    table := (s.table.cleanCovered limit).1
    victimFifoBuckets := s.victimFifoBuckets - (s.table.cleanCovered limit).2 }

/-- The rest of a miss: clean, create the pending entry, hang the request on it and send. -/
def miss (c : Params) (s : Peer) (req : Region) (numUnpin : Nat) : Peer :=
  let s := s.cleanCoveredRemote (maxUnpinRem - numUnpin)
  { s with table := s.table.createPriv c.bucketSize req (.pending 1 [req]) }

/-- `fh_acquire_remote_region`. -/
def acquireRemoteRegion (c : Params) (s : Peer) (req : Region) : Peer :=
  match s.table.findPriv req with
  | none =>
    match s.acquireSlot c with
    | some (s', n) => s'.miss c req n
    | none => { s with stalled := req :: s.stalled }
  | some x =>
    match x.status with
    | .pending r ccbs =>
      { s with table := s.table.setStatus x.ptr (.pending (r + 1) (req :: ccbs)) }
    | .used _ _ => s.privAcquireRemote x

/-- A stalled miss finds a victim. -/
def resume (c : Params) (s : Peer) (req : Region) : Peer :=
  match s.waitRemoteFirehoses with
  | some s' => { s' with stalled := s'.stalled.erase req }.miss c req 1
  | none => s

/-- `fh_find_pending_callbacks`: the region pinned is in the reply. -/
def findPendingCallbacks (c : Params) (s : Peer) (x : Priv) (r : Region) : Peer :=
  match x.status with
  | .pending n ccbs =>
    { s with
      table := (s.table.updatePriv c.bucketSize x r).setStatus x.ptr (.used 0 n)
      held := List.replicate ccbs.length x.ptr ++ s.held }
  | .used _ _ => s

end Peer

/-- What a request covers: whole buckets. -/
def Region.Aligned (g : Nat) (r : Region) : Prop := g ∣ r.addr ∧ g ∣ r.len ∧ 0 < r.len

instance {g : Nat} {r : Region} : Decidable (r.Aligned g) :=
  inferInstanceAs (Decidable (_ ∧ _ ∧ _))

def Region.Covers (r s : Region) : Prop := r.addr ≤ s.addr ∧ s.last ≤ r.last

instance {r s : Region} : Decidable (r.Covers s) := inferInstanceAs (Decidable (_ ∧ _))

inductive RemoteAction
  | pin (req : Region)
  | resume (req : Region)
  | reply (p : Nat) (r : Region)
  | acquire (p : Nat)
  | release (p : Nat)

/-- `pin` is `firehose_remote_pin`, on a request rounded to buckets; `acquire` a try-pin or
partial-pin that found the entry. A reply names an aligned region around the one asked for. -/
inductive RemoteStep (c : Params) (s : Peer) : RemoteAction → Peer → Prop
  | pin {req : Region} (ha : req.Aligned c.bucketSize) (hl : req.len ≤ c.maxRegionSize) :
      RemoteStep c s (.pin req) (s.acquireRemoteRegion c req)
  | resume {req : Region} (hs : req ∈ s.stalled) : RemoteStep c s (.resume req) (s.resume c req)
  | reply {x : Priv} {r : Region} (hx : x ∈ s.table.privs) (hp : x.status.isPending)
      (ha : r.Aligned c.bucketSize) (hc : r.Covers x.region) :
      RemoteStep c s (.reply x.ptr r) (s.findPendingCallbacks c x r)
  | acquire {x : Priv} (hx : x ∈ s.table.privs) (hp : ¬x.status.isPending) :
      RemoteStep c s (.acquire x.ptr) (s.privAcquireRemote x)
  | release {x : Priv} (hx : x ∈ s.table.privs) (hh : x.ptr ∈ s.held) :
      RemoteStep c s (.release x.ptr) (s.privReleaseRemote x)

end Gasnet.Firehose

/-! Local pinning: what one node does with the tables about its own memory. The table lock is
dropped while a region is pinned or unpinned and while a thread waits for a victim; the model's
steps are the stretches of code between. -/
namespace Gasnet.Firehose

/-- `FH_MAX_UNPIN_LOC`. -/
def maxUnpinLoc : Nat := 4

/-- What a thread that has dropped the lock does once it holds it again. -/
inductive Task
  /-- `fh_acquire_local_region` has missed on this region: make its entry. -/
  | make (r : Region)
  /-- The hit was not ready: `fhi_wait_for_one`, and start over. -/
  | retry (req : Region)
  /-- Another thread has made the entry and it is not ready: `fhi_wait_for_one`, and look again. -/
  | again (r : Region)
  /-- A pin for a peer: make the entry with a remote reference. -/
  | serve (r : Region)
  /-- A pin that turned out to be a duplicate has been undone. -/
  | settle (localRef : Bool)
  deriving DecidableEq

/-- The task is in `fhi_wait_for_one`. -/
def Task.waitsForOne : Task → Bool
  | .retry _ | .again _ => true
  | _ => false

/-- `onlyPinned` and `victimFifoBuckets` are `fhc_LocalOnlyBucketsPinned` and
`fhc_LocalVictimFifoBuckets`. `held` has one entry for every local request not yet released. -/
structure Own where
  table : Table
  onlyPinned : Int
  victimFifoBuckets : Int
  held : List Nat
  waiting : List Task
  moving : List Task

namespace Own

variable (c : Params) (s : Own)

def initial : Own := ⟨.empty, 0, 0, [], [], []⟩

/-- `FHC_MAXVICTIM_BUCKETS_AVAIL`. -/
def avail : Int := c.maxVictimBuckets - s.onlyPinned

/-- `FH_IS_READY` of a local entry. -/
def isReady (x : Priv) : Bool :=
  s.avail c ≠ 0 || s.table.fifo.contains x.ptr ||
    match x.status with
    | .used l _ => l ≠ 0
    | .pending _ _ => false

/-- `fh_region_to_priv`: the entry of exactly this region. -/
def regionToPriv (r : Region) : Option Priv := s.table.privs.find? fun x => x.region = r

/-- `fh_priv_acquire_local`. -/
def privAcquireLocal (localRef : Bool) (x : Priv) : Own :=
  if x.ptr ∈ s.table.fifo then
    { s with
      table := { s.table.setStatus x.ptr (.used localRef.toNat (!localRef).toNat) with
        fifo := s.table.fifo.erase x.ptr }
      onlyPinned := s.onlyPinned - (!localRef).toNat
      victimFifoBuckets := s.victimFifoBuckets - 1 }
  else
    match x.status with
    | .used l r =>
      { s with
        table := s.table.setStatus x.ptr (.used (l + localRef.toNat) (r + (!localRef).toNat))
        onlyPinned := s.onlyPinned + (localRef && l == 0).toNat }
    | .pending _ _ => s

/-- `fh_priv_release_local`. -/
def privReleaseLocal (localRef : Bool) (x : Priv) : Own :=
  match x.status with
  | .used l r =>
    let l' := l - localRef.toNat
    let r' := r - (!localRef).toNat
    let t := s.table.setStatus x.ptr (.used l' r')
    if l' = 0 ∧ r' = 0 then
      { s with
        table := { t with fifo := if x.visible = 0 then x.ptr :: t.fifo else t.fifo ++ [x.ptr] }
        onlyPinned := s.onlyPinned + (!localRef).toNat
        victimFifoBuckets := s.victimFifoBuckets + 1 }
    else { s with table := t, onlyPinned := s.onlyPinned - (localRef && l' == 0).toNat }
  | .pending _ _ => s

/-- `fhi_FreeVictimLocal` with its counter. -/
def freeVictimLocal (n : Nat) : Own :=
  { s with
    table := s.table.freeVictim n
    victimFifoBuckets := s.victimFifoBuckets - n }

/-- One pass of `fh_WaitLocalFirehoses(1)`: room below the limit, or a victim; `none` polls. -/
def waitLocalFirehoses : Option (Own × Nat) :=
  if 0 < s.avail c then some ({ s with onlyPinned := s.onlyPinned + 1 }, 0)
  else if 0 < s.victimFifoBuckets then some (s.freeVictimLocal 1, 1)
  else none

/-- `fh_clean_covered_local`. -/
def cleanCoveredLocal (limit : Nat) : Own :=
  { s with
    table := (s.table.cleanCovered limit).1
    victimFifoBuckets := s.victimFifoBuckets - (s.table.cleanCovered limit).2
    onlyPinned := s.onlyPinned - (s.table.cleanCovered limit).2 }

/-- How far the pinned successor of `r` extends it, where the limit allows. -/
def successor (r : Region) : Nat :=
  match s.table.lookup (r.addr + r.len) with
  | some x =>
    let extend := x.region.last + 1 - (r.addr + r.len)
    if extend ≤ c.maxRegionSize - r.len then extend else 0
  | none => 0

def predecessor (r : Region) : Nat :=
  if r.addr = 0 then 0
  else
    match s.table.lookup (r.addr - c.bucketSize) with
    | some x =>
      let extend := r.addr - x.region.addr
      if extend ≤ c.maxRegionSize - r.len then extend else 0
    | none => 0

/-- `fhi_merge_regions`. -/
def mergeRegions (r : Region) : Region :=
  let len := r.len + s.successor c r
  let back := s.predecessor c ⟨r.addr, len⟩
  ⟨r.addr - back, len + back⟩

/-- Get a slot for `task`, clean, and let go of the lock to move; or wait. -/
def enter (task : Task) : Own :=
  match s.waitLocalFirehoses c with
  | none => { s with waiting := task :: s.waiting }
  | some (s', n) =>
    let s' := s'.cleanCoveredLocal (maxUnpinLoc - n)
    { s' with moving := task :: s'.moving }

/-- A request now holds `p`. -/
def hold (localRef : Bool) (p : Nat) : Own :=
  if localRef then { s with held := p :: s.held } else s

/-- `fh_acquire_local_region`. -/
def acquireLocalRegion (req : Region) : Own :=
  match s.table.findPriv req with
  | none => s.enter c (.make (s.mergeRegions c req))
  | some x =>
    if s.isReady c x then (s.privAcquireLocal true x).hold true x.ptr else s.enter c (.retry req)

/-- The end of `fhi_init_local_region` when there is no such entry. -/
def initNew (localRef : Bool) (r : Region) : Own :=
  { s with
    table := s.table.createPriv c.bucketSize r (.used localRef.toNat (!localRef).toNat) }.hold
      localRef s.table.next

/-- Its end when there is one: the pin just made is undone. -/
def initDuplicate (localRef : Bool) (x : Priv) : Own :=
  let s := (s.privAcquireLocal localRef x).hold localRef x.ptr
  { s with moving := .settle localRef :: s.moving }

/-- `fhi_init_local_region`. -/
def initLocalRegion (localRef : Bool) (r : Region) : Own :=
  match s.regionToPriv r with
  | none => s.initNew c localRef r
  | some x =>
    if localRef && !s.isReady c x then s.enter c (.again r) else s.initDuplicate localRef x

/-- A thread goes on with the lock held. -/
def proceed : Task → Own
  | .make r => s.initLocalRegion c true r
  | .serve r => s.initLocalRegion c false r
  | .retry req => { s with onlyPinned := s.onlyPinned - 1 }.acquireLocalRegion c req
  | .again r =>
    let s := { s with onlyPinned := s.onlyPinned - 1 }
    match s.regionToPriv r with
    | none => s.initNew c true r
    | some x => s.initDuplicate true x
  | .settle localRef => { s with onlyPinned := s.onlyPinned - localRef.toNat }

/-- A waiting thread polls again. `fhi_wait_for_one` keeps the lock when it finds room. -/
def resume (task : Task) : Own :=
  match s.waitLocalFirehoses c with
  | none => s
  | some (s', n) =>
    let s' := { s' with waiting := s'.waiting.erase task }
    if n = 0 ∧ task.waitsForOne then s'.proceed c task
    else
      let s' := s'.cleanCoveredLocal (maxUnpinLoc - n)
      { s' with moving := task :: s'.moving }

/-- `fh_AdjustLocalFifoAndPin`, up to where it drops the lock. -/
def adjustLocalFifo : Own :=
  let n := (s.onlyPinned - c.maxVictimBuckets).toNat
  { s.freeVictimLocal n with onlyPinned := s.onlyPinned - n }

/-- `fh_release_local_region`. -/
def releaseLocalRegion (x : Priv) : Own :=
  let s := s.privReleaseLocal true x
  { s with held := s.held.erase x.ptr }.adjustLocalFifo c

/-- A region that a peer has unpinned. -/
def releaseRegion (r : Region) : Own :=
  match s.regionToPriv r with
  | none => s
  | some x => s.privReleaseLocal false x

/-- `fh_move_request`, up to where it drops the lock. -/
def moveRequest (new : Region) (old : List Region) : Own :=
  match s.table.findPriv new with
  | none =>
    let r := s.mergeRegions c new
    let s := (old.foldl releaseRegion s).adjustLocalFifo c
    { s with moving := .serve r :: s.moving }
  | some x => (old.foldl releaseRegion (s.privAcquireLocal false x)).adjustLocalFifo c

end Own

inductive LocalAction
  | pin (req : Region)
  | resume (task : Task)
  | proceed (task : Task)
  | acquire (p : Nat)
  | release (p : Nat)
  | move (new : Region) (old : List Region)

/-- `pin` is `firehose_local_pin`, on a request rounded to buckets; `acquire` a try-pin or
partial-pin that found the entry; `move` a peer's request, which unpins an old region at most as
often as peers have pinned it. -/
inductive LocalStep (c : Params) (s : Own) : LocalAction → Own → Prop
  | pin {req : Region} (ha : req.Aligned c.bucketSize) (hl : req.len ≤ c.maxRegionSize) :
      LocalStep c s (.pin req) (s.acquireLocalRegion c req)
  | resume {task : Task} (ht : task ∈ s.waiting) : LocalStep c s (.resume task) (s.resume c task)
  | proceed {task : Task} (ht : task ∈ s.moving) :
      LocalStep c s (.proceed task) ({ s with moving := s.moving.erase task }.proceed c task)
  | acquire {x : Priv} (hx : x ∈ s.table.privs) (hr : s.isReady c x) :
      LocalStep c s (.acquire x.ptr) ((s.privAcquireLocal true x).hold true x.ptr)
  | release {x : Priv} (hx : x ∈ s.table.privs) (hh : x.ptr ∈ s.held) :
      LocalStep c s (.release x.ptr) (s.releaseLocalRegion c x)
  | move {new : Region} {old : List Region} (ha : new.Aligned c.bucketSize)
      (hl : new.len ≤ c.maxRegionSize)
      (ho : ∀ r ∈ old, ∃ x ∈ s.table.privs, x.region = r ∧ ∃ l k, x.status = .used l k ∧
        old.count r ≤ k) :
      LocalStep c s (.move new old) (s.moveRequest c new old)

end Gasnet.Firehose
