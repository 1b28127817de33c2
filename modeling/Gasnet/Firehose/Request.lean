import Gasnet.Firehose.Frame

/-! The life of a `firehose_request_t`: how `firehose_remote_pin` takes one, hangs it on a region
whose pin is in flight, and gives it to the client, who releases it. The lock is dropped while the
request to pin is sent; the model's steps are the stretches of code between. -/
namespace Gasnet.Firehose

/-- A `firehose_request_t *`: one the library has allocated, or memory of the client. -/
inductive Handle
  | lib (i : Nat)
  | user (i : Nat)
  deriving DecidableEq

/-- `firehose_request_t`, with its four flags. `internal` is the entry it holds. -/
structure Request (Node : Type) where
  fhreq : Bool
  pinned : Bool
  pending : Bool
  inflight : Bool
  node : Node
  region : Region
  internal : Option Nat

/-- Where a thread is in `firehose_remote_pin`. -/
inductive Phase
  | idle
  /-- In `fh_WaitRemoteFirehoses`. -/
  | stalled (r : Handle)
  /-- A miss has made the entry `p` and dropped the lock, but not yet sent the request. -/
  | send (r : Handle) (p : Nat)
  /-- `fh_acquire_remote_region` has returned, after a hit or not. -/
  | check (r : Handle) (hit : Bool)
  | done
  deriving DecidableEq

/-- A call of `firehose_remote_pin`. `returnIfPinned` is `FIREHOSE_FLAG_RETURN_IF_PINNED`. -/
structure Call (Node : Type) where
  node : Node
  region : Region
  returnIfPinned : Bool
  phase : Phase

/-- `fh_completion_callback_t`: the callback and context of a call, and its request. -/
structure Ccb where
  call : Nat
  request : Handle
  deriving DecidableEq

/-- A callback on the list of the entry `entry` of `node`. -/
structure Hung (Node : Type) where
  node : Node
  entry : Nat
  ccb : Ccb
  deriving DecidableEq

/-- A call gives the client a request, as its return value or through the callback. -/
structure Delivery where
  call : Nat
  request : Handle
  returned : Bool
  pinned : Bool

/-- `hung` are the callbacks on pending entries, `inFlight` the entries whose reply is to come,
`callbacks` those that wait to be run, `given` the requests the client has and may release.
`log` is history. -/
structure Pins (Node : Type) where
  peer : Node → Peer
  request : Handle → Request Node
  freehead : List Handle
  bufidx : Nat
  call : Nat → Call Node
  hung : List (Hung Node)
  inFlight : List (Node × Nat)
  callbacks : List Ccb
  given : List Handle
  log : List Delivery

/-- `FH_REQUEST_ALLOC_PERIDX`. -/
def requestAllocPeridx : Nat := 256

/-- `FH_REQUEST_ALLOC_MAXIDX`. -/
def requestAllocMaxidx : Nat := 256

namespace Pins

variable {Node : Type} [DecidableEq Node] (c : Params) (me : Node) (s : Pins Node)

def initial : Pins Node where
  peer _ := .initial
  request _ := ⟨false, false, false, false, me, ⟨0, 0⟩, none⟩
  freehead := []
  bufidx := 0
  call _ := ⟨me, ⟨0, 0⟩, false, .idle⟩
  hung := []
  inFlight := []
  callbacks := []
  given := []
  log := []

def setPeer (q : Node) (p : Peer) : Pins Node := { s with peer := Function.update s.peer q p }

def setRequest (r : Handle) (x : Request Node) : Pins Node :=
  { s with request := Function.update s.request r x }

def setPhase (k : Nat) (phase : Phase) : Pins Node :=
  { s with call := Function.update s.call k { s.call k with phase := phase } }

/-- The flags of a request that has just been taken. -/
def clear (fhreq : Bool) (x : Request Node) : Request Node :=
  { x with fhreq := fhreq, pinned := false, pending := false, inflight := false, internal := none }

/-- `fh_request_new`; `none` is where it has to poll, or gives up. -/
def requestNew (ureq : Option Handle) : Option (Handle × Pins Node) :=
  match ureq with
  | some r => some (r, s.setRequest r (clear false (s.request r)))
  | none =>
    match s.freehead with
    | r :: rest => some (r, { s with freehead := rest }.setRequest r (clear true (s.request r)))
    | [] =>
      if s.bufidx = requestAllocMaxidx then none
      else
        let i := requestAllocPeridx * s.bufidx
        some (.lib i, { s with
          bufidx := s.bufidx + 1
          freehead := (List.range (requestAllocPeridx - 1)).map fun j => .lib (i + (j + 1)) }.setRequest
            (.lib i) (clear true (s.request (.lib i))))

/-- `fhi_hang_callback`. -/
def hangCallback (k : Nat) (r : Handle) (p : Nat) : Pins Node :=
  { s with hung := ⟨(s.call k).node, p, ⟨k, r⟩⟩ :: s.hung }.setRequest r
    { s.request r with pending := true }

/-- The end of a miss: the request hangs on the entry just made. -/
def missed (k : Nat) (r : Handle) (p : Nat) : Pins Node :=
  (s.hangCallback k r p).setPhase k (.send r p)

/-- `fh_acquire_remote_region`, up to where it drops the lock. -/
def acquireRemoteRegion (k : Nat) (r : Handle) : Pins Node :=
  let q := (s.call k).node
  let req := (s.call k).region
  let s' := s.setPeer q ((s.peer q).acquireRemoteRegion c req)
  match (s.peer q).table.findPriv req with
  | none =>
    if ((s.peer q).acquireSlot c).isSome then s'.missed k r (s.peer q).table.next
    else s'.setPhase k (.stalled r)
  | some x =>
    if x.status.isPending then (s'.hangCallback k r x.ptr).setPhase k (.check r false)
    else
      (s'.setRequest r
        { s.request r with region := x.region, internal := some x.ptr, pinned := true }).setPhase k
          (.check r true)

/-- `firehose_remote_pin`, once it has a request. -/
def remotePin (k : Nat) (q : Node) (req : Region) (returnIfPinned : Bool) (r : Handle) :
    Pins Node :=
  ({ s with call := Function.update s.call k ⟨q, req, returnIfPinned, .idle⟩ }.setRequest r
    { s.request r with node := q, region := req }).acquireRemoteRegion c k r

/-- A stalled miss looks for a victim again. -/
def resume (k : Nat) (r : Handle) : Pins Node :=
  let q := (s.call k).node
  if (s.peer q).waitRemoteFirehoses.isSome then
    (s.setPeer q ((s.peer q).resume c (s.call k).region)).missed k r (s.peer q).table.next
  else s

/-- The end of `fh_acquire_remote_region` after a miss. -/
def inject (k : Nat) (r : Handle) (p : Nat) : Pins Node :=
  { s with inFlight := ((s.call k).node, p) :: s.inFlight }.setRequest r
    { s.request r with inflight := true } |>.setPhase k (.check r false)

def Hung.on (q : Node) (p : Nat) (h : Hung Node) : Bool := h.node = q && h.entry = p

/-- The reply handler: `fh_find_pending_callbacks`, and its callbacks are queued. -/
def reply (q : Node) (x : Priv) (r : Region) : Pins Node :=
  let hung := s.hung.filter (Hung.on q x.ptr)
  { s.setPeer q ((s.peer q).findPendingCallbacks c x r) with
    request := fun i =>
      if hung.any fun h => h.ccb.request = i then
        { s.request i with pending := false, region := r, internal := some x.ptr }
      else s.request i
    inFlight := s.inFlight.erase (q, x.ptr)
    hung := s.hung.filter fun h => !Hung.on q x.ptr h
    callbacks := s.callbacks ++ hung.map Hung.ccb }

/-- Every bucket that the call wants is pinned, by the entry its request holds. -/
def isPinned (k : Nat) (r : Handle) : Bool :=
  (s.request r).node = (s.call k).node &&
    match (s.request r).internal.bind (s.peer (s.call k).node).table.priv? with
    | some x =>
      match x.status with
      | .used _ n => n ≠ 0 && x.region.Covers (s.call k).region
      | .pending _ _ => false
    | none => false

def deliver (k : Nat) (r : Handle) (returned : Bool) : Pins Node :=
  { s with
    log := ⟨k, r, returned, s.isPinned k r⟩ :: s.log
    given := r :: s.given }

/-- A callback is run. -/
def run (b : Ccb) : Pins Node :=
  { s with callbacks := s.callbacks.erase b }.deliver b.call b.request false

/-- The end of `firehose_remote_pin`, which looks at the flags without the lock. -/
def check (k : Nat) (r : Handle) : Pins Node :=
  let s' := s.setPhase k .done
  if (s.request r).pinned then s'.deliver k r (s.call k).returnIfPinned else s'

/-- `firehose_release` of one request. The node's own tables are not part of this state. -/
def release (r : Handle) : Pins Node :=
  let q := (s.request r).node
  let s' :=
    match (s.request r).internal.bind (s.peer q).table.priv? with
    | some x => s.setPeer q ((s.peer q).privReleaseRemote x)
    | none => s
  { s' with
    given := s.given.erase r
    freehead := if (s.request r).fhreq then r :: s.freehead else s.freehead }

/-- `firehose_local_pin`, or a try-pin or partial-pin of the node's own memory that succeeds. -/
def localPin (req : Region) (r : Handle) : Pins Node :=
  { s with given := r :: s.given }.setRequest r
    { s.request r with node := me, region := req, pinned := true }

/-- `firehose_try_remote_pin` or `firehose_partial_remote_pin` when it finds `x`. -/
def tryPin (q : Node) (x : Priv) (r : Handle) : Pins Node :=
  { s.setPeer q ((s.peer q).privAcquireRemote x) with given := r :: s.given }.setRequest r
    { s.request r with node := q, region := x.region, internal := some x.ptr }

/-- Callbacks that have not been run. -/
def ccbs : List Ccb := s.hung.map Hung.ccb ++ s.callbacks

/-- What a request is in use for. -/
inductive Use
  | stalled (k : Nat)
  | hit (k : Nat)
  | ccb (k : Nat)
  | given

def Holds (r : Handle) : Use → Prop
  | .stalled k => (s.call k).phase = .stalled r
  | .hit k => (s.call k).phase = .check r true
  | .ccb k => ⟨k, r⟩ ∈ s.ccbs
  | .given => r ∈ s.given

/-- A client passes its own memory for a request only when no earlier pin has it. -/
def MayPass (ureq : Option Handle) : Prop :=
  ∀ r ∈ ureq, (∃ i, r = .user i) ∧ ∀ u, ¬s.Holds r u

end Pins

inductive PinAction (Node : Type)
  | start (k : Nat)
  | resume (k : Nat)
  | inject (k : Nat)
  | reply (q : Node) (p : Nat)
  | run (b : Ccb)
  | check (k : Nat)
  | release (r : Handle)
  | localPin
  | tryPin (q : Node) (p : Nat)

variable {Node : Type} [DecidableEq Node]

inductive PinStep (c : Params) (me : Node) (s : Pins Node) : PinAction Node → Pins Node → Prop
  | start {k : Nat} {q : Node} {req : Region} {b : Bool} {ureq : Option Handle} {r : Handle}
      {s' : Pins Node} (hk : (s.call k).phase = .idle) (hq : q ≠ me)
      (ha : req.Aligned c.bucketSize) (hl : req.len ≤ c.maxRegionSize) (hu : s.MayPass ureq)
      (hr : s.requestNew ureq = some (r, s')) : PinStep c me s (.start k) (s'.remotePin c k q req b r)
  | resume {k : Nat} {r : Handle} (hk : (s.call k).phase = .stalled r) :
      PinStep c me s (.resume k) (s.resume c k r)
  | inject {k p : Nat} {r : Handle} (hk : (s.call k).phase = .send r p) :
      PinStep c me s (.inject k) (s.inject k r p)
  | reply {q : Node} {x : Priv} {r : Region} (hf : (q, x.ptr) ∈ s.inFlight)
      (hx : x ∈ (s.peer q).table.privs) (hp : x.status.isPending) (ha : r.Aligned c.bucketSize)
      (hc : r.Covers x.region) : PinStep c me s (.reply q x.ptr) (s.reply c q x r)
  | run {b : Ccb} (hb : b ∈ s.callbacks) : PinStep c me s (.run b) (s.run b)
  | check {k : Nat} {r : Handle} {hit : Bool} (hk : (s.call k).phase = .check r hit) :
      PinStep c me s (.check k) (s.check k r)
  | release {r : Handle} (hr : r ∈ s.given) : PinStep c me s (.release r) (s.release r)
  | localPin {req : Region} {ureq : Option Handle} {r : Handle} {s' : Pins Node}
      (hu : s.MayPass ureq) (hr : s.requestNew ureq = some (r, s')) :
      PinStep c me s .localPin (s'.localPin me req r)
  | tryPin {q : Node} {x : Priv} {ureq : Option Handle} {r : Handle} {s' : Pins Node} (hq : q ≠ me)
      (hx : x ∈ (s.peer q).table.privs) (hp : ¬x.status.isPending) (hu : s.MayPass ureq)
      (hr : s.requestNew ureq = some (r, s')) : PinStep c me s (.tryPin q x.ptr) (s'.tryPin q x r)

/-- A call whose request was hung does not find that request marked as pinned when it looks. -/
def Unmarked (s : Pins Node) : PinAction Node → Prop
  | .check k => ∀ r, (s.call k).phase = .check r false → (s.request r).pinned = false
  | _ => True

def UnmarkedStep (c : Params) (me : Node) (s : Pins Node) (a : PinAction Node) (t : Pins Node) :
    Prop := PinStep c me s a t ∧ Unmarked s a

end Gasnet.Firehose
