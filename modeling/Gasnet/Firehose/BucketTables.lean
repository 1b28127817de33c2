import Gasnet.Firehose.Local
import Gasnet.Foundation.HashChains
import Gasnet.Foundation.Run

/-! The two chained hash tables of firehose-region, over the regions of all nodes. A bucket is known by
its region and its key: `fh_create_priv` and `fh_update_priv` make one for each address. -/
namespace Gasnet.Firehose.Chained

/-- `fh_key_t`. -/
structure Key where
  node : Nat
  addr : Nat
  deriving DecidableEq

/-- `fh_bucket_t`. -/
structure Bucket where
  priv : Nat
  key : Key
  deriving DecidableEq

/-- `firehose_private_t`: what the tables know about a region. -/
structure Priv where
  node : Nat
  region : Region
  client : Nat
  buckets : List Bucket
  visible : Int

/-- What the plugin is configured with: `KEYHASH` of the two tables, and `FH_MAY_MERGE`. -/
structure Config extends Params where
  keyhash1 : Key → Nat
  keyhash2 : Key → Nat
  mynode : Nat
  mayMerge : Nat → Bool

/-- The live regions by their pointers, `fh_BucketTable1`, `fh_BucketTable2`, and the victim FIFO about
each node. -/
structure State where
  privs : Nat → Option Priv
  table1 : HashTable Bucket
  table2 : HashTable Bucket
  fifo : Nat → List Nat

def initial : State := ⟨fun _ => none, .empty, .empty, fun _ => []⟩

namespace State

def modify (s : State) (p : Nat) (f : Priv → Priv) : State :=
  { s with privs := Function.update s.privs p ((s.privs p).map f) }

def regionOf (s : State) (p : Nat) : Region := ((s.privs p).map Priv.region).getD ⟨0, 0⟩

def bucketsOf (s : State) (p : Nat) : List Bucket := ((s.privs p).map Priv.buckets).getD []

def visible (s : State) (p : Nat) : Int := ((s.privs p).map Priv.visible).getD 0

/-- `fh_bucket_is_better`. -/
def isBetter (s : State) (a b : Bucket) : Bool := (s.regionOf a.priv).better (s.regionOf b.priv)

/-- `fh_bucket_uncover`. -/
def uncover (s : State) (b : Bucket) : State :=
  s.modify b.priv fun x => { x with visible := x.visible + 1 }

/-- `fh_bucket_cover`. -/
def cover (s : State) (b : Bucket) : State :=
  s.modify b.priv fun x => { x with visible := x.visible - 1 }

/-- `fh_bucket_cover_and_check`: a region in the FIFO that is no longer visible moves to its head. -/
def coverAndCheck (s : State) (b : Bucket) : State :=
  let s := s.cover b
  let queue := s.fifo b.key.node
  if s.visible b.priv = 0 ∧ b.priv ∈ queue then
    { s with fifo := Function.update s.fifo b.key.node (b.priv :: queue.erase b.priv) }
  else s

end State

variable (c : Config)

/-- `fh_hash_find` in `fh_BucketTable1`. -/
def find1 (s : State) (k : Key) : Option Bucket := (s.table1.find c.keyhash1 Bucket.key k).head?

/-- `fh_bucket_lookup`. -/
def bucketLookup (s : State) (node addr : Nat) : Option Bucket := find1 c s ⟨node, addr⟩

/-- `fh_hash_insert` into `fh_BucketTable1`. -/
def insert1 (b : Bucket) (s : State) : State :=
  { s with table1 := s.table1.insert c.keyhash1 Bucket.key b }

def insert2 (b : Bucket) (s : State) : State :=
  { s with table2 := s.table2.insert c.keyhash2 Bucket.key b }

/-- `fh_hash_replace` in `fh_BucketTable1`. -/
def replace1 (b : Bucket) (new : Option Bucket) (s : State) : State :=
  { s with table1 := s.table1.replace c.keyhash1 Bucket.key b new }

def replace2 (b : Bucket) (new : Option Bucket) (s : State) : State :=
  { s with table2 := s.table2.replace c.keyhash2 Bucket.key b new }

/-- `fh_bucket_hash`. -/
def bucketHash (s : State) (b : Bucket) : State :=
  match find1 c s b.key with
  | some other =>
    if s.isBetter b other then
      insert2 c other (((replace1 c other (some b) s).uncover b).coverAndCheck other)
    else insert2 c b s
  | none => insert1 c b (s.uncover b)

/-- `fh_bucket_unhash`. -/
def bucketUnhash (s : State) (b : Bucket) : State :=
  if find1 c s b.key = some b then
    match s.table2.find c.keyhash2 Bucket.key b.key with
    | best :: rest =>
      let best := HashTable.bestFrom Bucket.key s.isBetter best
        (HashTable.seek Bucket.key best.key rest)
      ((replace1 c b (some best) (replace2 c best none s)).uncover best).cover b
    | [] => (replace1 c b none s).cover b
  else replace2 c b none s

/-- `fh_bucket_rehash`. -/
def bucketRehash (s : State) (b : Bucket) : State :=
  match find1 c s b.key with
  | some other =>
    if other ≠ b ∧ s.isBetter b other then
      ((insert2 c other (replace1 c other (some b) (replace2 c b none s))).uncover b).coverAndCheck
        other
    else s
  | none => s

/-- The buckets of the region `p` at the addresses `as`. -/
def bucketsAt (p node : Nat) (as : List Nat) : List Bucket := as.map fun a => ⟨p, node, a⟩

/-- `fh_create_priv`, at the pointer `p`. -/
def createPriv (p node : Nat) (r : Region) (client : Nat) (s : State) : State :=
  let bs := bucketsAt p node (r.buckets c.bucketSize)
  bs.foldl (bucketHash c)
    { s with privs := Function.update s.privs p (some ⟨node, r, client, bs, 0⟩) }

/-- `fh_destroy_priv`. -/
def destroyPriv (p : Nat) (s : State) : State :=
  let s := (s.bucketsOf p).foldl (bucketUnhash c) s
  { s with privs := Function.update s.privs p none }

/-- `fh_update_priv`: buckets are added before and after those the region has. -/
def updatePriv (p : Nat) (x : Priv) (r : Region) (client : Nat) (s : State) : State :=
  if x.region.addr = r.addr ∧ x.region.last = r.last then
    s.modify p fun x => { x with client := client }
  else
    let front := bucketsAt p x.node (x.region.front c.bucketSize r)
    let suffix := bucketsAt p x.node (x.region.suffix c.bucketSize r)
    let s := s.modify p fun x =>
      { x with region := r, client := client, buckets := front ++ x.buckets ++ suffix }
    suffix.foldl (bucketHash c) (x.buckets.foldl (bucketRehash c) (front.foldl (bucketHash c) s))

/-- `fhi_find_priv`. -/
def findPriv (s : State) (node : Nat) (r : Region) : Option Nat :=
  match bucketLookup c s node r.addr with
  | some bd => if r.last ≤ (s.regionOf bd.priv).last then some bd.priv else none
  | none => none

/-- Whole buckets that do not reach the end of memory, where `FH_FOREACH_BUCKET` would not end. -/
def Admissible (r : Region) : Prop := r.Aligned c.bucketSize ∧ r.addr + r.len < 2 ^ 64

instance {r : Region} : Decidable (Admissible c r) := inferInstanceAs (Decidable (_ ∧ _))

inductive Action
  | create (p : Nat)
  | destroy (p : Nat)
  | update (p : Nat)
  | queue

/-- `queue` stands for what the victim FIFOs are used for elsewhere. Only the regions of other nodes are
enlarged. -/
inductive Step (s : State) : Action → State → Prop
  | create {p node client : Nat} {r : Region} : s.privs p = none → Admissible c r →
      Step s (.create p) (createPriv c p node r client s)
  | destroy {p : Nat} {x : Priv} : s.privs p = some x → Step s (.destroy p) (destroyPriv c p s)
  | update {p client : Nat} {x : Priv} {r : Region} : s.privs p = some x → x.node ≠ c.mynode →
      Admissible c r → r.addr ≤ x.region.addr → x.region.last ≤ r.last →
      Step s (.update p) (updatePriv c p x r client s)
  | queue (f : Nat → List Nat) : Step s .queue { s with fifo := f }

end Gasnet.Firehose.Chained
