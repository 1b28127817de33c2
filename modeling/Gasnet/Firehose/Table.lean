import Mathlib.Logic.Function.Basic
import Gasnet.Foundation.Align

/-! The firehose-region tables one node keeps about one node's memory: the pinned regions, the two
hash tables of their buckets, and the victim FIFO. The hash keys hold the node, so the tables
about different nodes never meet. -/
namespace Gasnet.Firehose

/-- What `fh_init_plugin` fixes. A user address and its bucket end below `2 ^ 64`. -/
structure Params where
  bucketShift : Nat
  remoteBucketsM : Nat
  remote_pos : 0 < remoteBucketsM
  maxVictimBuckets : Nat
  victim_pos : 0 < maxVictimBuckets
  maxRegionSize : Nat
  bucket_le : 2 ^ bucketShift ≤ maxRegionSize

/-- `FH_BUCKET_SIZE`. -/
def Params.bucketSize (c : Params) : Nat := 2 ^ c.bucketShift

theorem Params.bucketSize_pos (c : Params) : 0 < c.bucketSize := Nat.two_pow_pos _

/-- `FH_ADDR_ALIGN`. -/
def addrAlign (g addr : Nat) : Nat := alignDown g addr

/-- `FH_SIZE_ALIGN`. -/
def sizeAlign (g addr len : Nat) : Nat := alignUp g (addr + len) - alignDown g addr

structure Region where
  addr : Nat
  len : Nat
  deriving DecidableEq

namespace Region

/-- `fh_region_end`: the last byte. -/
def last (r : Region) : Nat := r.addr + (r.len - 1)

/-- `fh_bucket_is_better`: the greatest forward extent, then the greatest length. -/
def better (r s : Region) : Bool :=
  if r.last ≠ s.last then s.last < r.last else s.len < r.len

def buckets (g : Nat) (r : Region) : List Nat := steps g r.addr (r.last + 1)

/-- The buckets of `s` before `r`. -/
def front (g : Nat) (r s : Region) : List Nat := steps g s.addr r.addr

/-- The buckets of `s` after `r`. -/
def suffix (g : Nat) (r s : Region) : List Nat := steps g (r.last + 1) (s.last + 1)

end Region

/-- The reference counts of an entry, or those of one whose pin is in flight together with the
requests hung on it. -/
inductive Status
  | used (refcL refcR : Nat)
  | pending (refcR : Nat) (ccbs : List Region)
  deriving DecidableEq

def Status.isPending : Status → Bool
  | used _ _ => false
  | pending _ _ => true

/-- `firehose_private_t`, with the addresses of its buckets. `ptr` is its identity. -/
structure Priv where
  ptr : Nat
  region : Region
  buckets : List Nat
  visible : Int
  status : Status
  deriving DecidableEq

/-- `best` and `other` are `fh_BucketTable1` and `fh_BucketTable2`, newest entry first. -/
structure Table where
  privs : List Priv
  best : Nat → Option Nat
  other : List (Nat × Nat)
  fifo : List Nat
  next : Nat

/-- The entry once it stands for `r`. -/
def Priv.extend (g : Nat) (x : Priv) (r : Region) : Priv :=
  { x with
    region := r
    buckets := x.region.front g r ++ x.buckets ++ x.region.suffix g r }

namespace Table

def empty : Table := ⟨[], fun _ => none, [], [], 0⟩

def priv? (t : Table) (p : Nat) : Option Priv := t.privs.find? fun x => x.ptr = p

def modify (t : Table) (p : Nat) (f : Priv → Priv) : Table :=
  { t with privs := t.privs.map fun x => if x.ptr = p then f x else x }

def setStatus (t : Table) (p : Nat) (st : Status) : Table :=
  t.modify p fun x => { x with status := st }

/-- `fh_bucket_lookup`, followed to the entry. -/
def lookup (t : Table) (b : Nat) : Option Priv := (t.best b).bind t.priv?

def isBetter (t : Table) (p q : Nat) : Bool :=
  match t.priv? p, t.priv? q with
  | some x, some y => x.region.better y.region
  | _, _ => false

def uncover (t : Table) (p : Nat) : Table :=
  t.modify p fun x => { x with visible := x.visible + 1 }

def cover (t : Table) (p : Nat) : Table :=
  t.modify p fun x => { x with visible := x.visible - 1 }

def visible (t : Table) (p : Nat) : Int := ((t.priv? p).map Priv.visible).getD 0

/-- An entry of the FIFO that is no longer visible moves to its head. -/
def coverAndCheck (t : Table) (o : Nat) : Table :=
  let t := t.cover o
  if t.visible o = 0 ∧ o ∈ t.fifo then { t with fifo := o :: t.fifo.erase o } else t

/-- `fh_bucket_hash`. -/
def bucketHash (p : Nat) (t : Table) (b : Nat) : Table :=
  match t.best b with
  | none => { t with best := Function.update t.best b (some p) }.uncover p
  | some o =>
    if t.isBetter p o then
      { (t.uncover p).coverAndCheck o with
        best := Function.update t.best b (some p)
        other := (b, o) :: t.other }
    else { t with other := (b, p) :: t.other }

/-- The entries of `fh_BucketTable2` with the key `b`, as `fh_hash_next` visits them. -/
def others (t : Table) (b : Nat) : List Nat := (t.other.filter fun e => e.1 = b).map Prod.snd

/-- `fh_best_bucket` over the whole chain. -/
def bestOf (t : Table) (q : Nat) (qs : List Nat) : Nat :=
  qs.foldl (fun best o => if t.isBetter o best then o else best) q

/-- `fh_bucket_unhash`. -/
def bucketUnhash (p : Nat) (t : Table) (b : Nat) : Table :=
  if t.best b = some p then
    match t.others b with
    | [] => { t with best := Function.update t.best b none }.cover p
    | q :: qs =>
      { (t.uncover (t.bestOf q qs)).cover p with
        best := Function.update t.best b (some (t.bestOf q qs))
        other := t.other.erase (b, t.bestOf q qs) }
  else { t with other := t.other.erase (b, p) }

/-- `fh_bucket_rehash`. -/
def bucketRehash (p : Nat) (t : Table) (b : Nat) : Table :=
  match t.best b with
  | none => t
  | some o =>
    if o ≠ p ∧ t.isBetter p o then
      { (t.uncover p).coverAndCheck o with
        best := Function.update t.best b (some p)
        other := (b, o) :: t.other.erase (b, p) }
    else t

/-- `fh_create_priv`; the caller sets the status at once. -/
def createPriv (g : Nat) (t : Table) (r : Region) (st : Status) : Table :=
  (r.buckets g).foldl (bucketHash t.next)
    { t with privs := ⟨t.next, r, r.buckets g, 0, st⟩ :: t.privs, next := t.next + 1 }

def drop (t : Table) (p : Nat) : Table :=
  { t with privs := t.privs.filter fun x => x.ptr ≠ p }

def bucketsOf (t : Table) (p : Nat) : List Nat := ((t.priv? p).map Priv.buckets).getD []

/-- `fh_destroy_priv`. -/
def destroyPriv (t : Table) (p : Nat) : Table :=
  ((t.bucketsOf p).foldl (bucketUnhash p) t).drop p

/-- `fh_update_priv`: buckets are added before and after those the entry has. -/
def updatePriv (g : Nat) (t : Table) (x : Priv) (r : Region) : Table :=
  if x.region.addr = r.addr ∧ x.region.last = r.last then t
  else
    (x.region.suffix g r).foldl (bucketHash x.ptr) <|
      x.buckets.foldl (bucketRehash x.ptr) <|
        (x.region.front g r).foldl (bucketHash x.ptr) (t.modify x.ptr fun y => y.extend g r)

/-- Remove the head of the FIFO and destroy it. -/
def evict (t : Table) (p : Nat) (rest : List Nat) : Table := { t with fifo := rest }.destroyPriv p

/-- `fh_FreeVictim`. -/
def freeVictim : Nat → Table → Table
  | 0, t => t
  | n + 1, t =>
    match t.fifo with
    | [] => t
    | p :: rest => freeVictim n (t.evict p rest)

/-- `fh_clean_covered`: destroy what is at the head of the FIFO, up to the first visible entry;
returns how many. -/
def cleanCovered : Nat → Table → Table × Nat
  | 0, t => (t, 0)
  | n + 1, t =>
    match t.fifo with
    | [] => (t, 0)
    | p :: rest =>
      if t.visible p = 0 then ((cleanCovered n (t.evict p rest)).1, (cleanCovered n (t.evict p rest)).2 + 1)
      else (t, 0)

/-- `fhi_find_priv`. -/
def findPriv (t : Table) (r : Region) : Option Priv :=
  (t.lookup r.addr).filter fun x => r.last ≤ x.region.last

end Table

end Gasnet.Firehose

/-! What the table operations do to the entries and to the FIFO. Hashing a bucket changes neither,
apart from visibility counts and the order of the FIFO. -/
namespace Gasnet.Firehose

variable {t u : Table} {p q b n g : Nat} {x : Priv} {r : Region} {st : Status} {bs : List Nat}
  {f : Priv → Priv}

/-- An entry without its visibility count. -/
def Priv.core (x : Priv) : Priv := { x with visible := 0 }

namespace Table

def entries (t : Table) : List Priv := t.privs.map Priv.core

theorem core_mem_entries (hx : x ∈ t.privs) : x.core ∈ t.entries := List.mem_map_of_mem hx

theorem length_entries : t.entries.length = t.privs.length := List.length_map _

theorem mem_of_priv? (h : t.priv? p = some x) : x ∈ t.privs ∧ x.ptr = p :=
  ⟨List.mem_of_find?_eq_some h, by simpa using List.find?_some h⟩

theorem mem_of_lookup (h : t.lookup b = some x) : x ∈ t.privs ∧ t.best b = some x.ptr := by
  obtain ⟨p, hp, hx⟩ := Option.bind_eq_some_iff.1 h
  obtain ⟨hmem, rfl⟩ := mem_of_priv? hx
  exact ⟨hmem, hp⟩

theorem findPriv_eq_some : t.findPriv r = some x ↔ t.lookup r.addr = some x ∧ r.last ≤ x.region.last := by
  simp [findPriv, Option.filter_eq_some_iff]

/-- Only visibility counts and the order of the FIFO differ. -/
structure Quiet (t u : Table) : Prop where
  entries : u.entries = t.entries
  fifo : u.fifo.Perm t.fifo
  next : u.next = t.next

theorem Quiet.refl : Quiet t t := ⟨rfl, .refl _, rfl⟩

theorem Quiet.trans {v : Table} (h : Quiet t u) (k : Quiet u v) : Quiet t v :=
  ⟨k.entries.trans h.entries, k.fifo.trans h.fifo, k.next.trans h.next⟩

theorem Quiet.foldl {op : Table → Nat → Table} (h : ∀ t b, Quiet t (op t b)) :
    Quiet t (bs.foldl op t) := by
  induction bs generalizing t with
  | nil => exact .refl
  | cons b bs ih => exact (h t b).trans ih

theorem entries_modify {f' : Priv → Priv} (hf : ∀ x, (f x).core = f' x.core) :
    (t.modify p f).entries = t.entries.map fun x => if x.ptr = p then f' x else x := by
  simp only [entries, modify, List.map_map, List.map_inj_left, Function.comp]
  intro x _
  by_cases hx : x.ptr = p
  · rw [if_pos hx, if_pos (show x.core.ptr = p from hx), hf]
  · rw [if_neg hx, if_neg (show x.core.ptr ≠ p from hx)]

theorem quiet_modify (hf : ∀ x, (f x).core = x.core) : Quiet t (t.modify p f) := by
  refine ⟨?_, .refl _, rfl⟩
  rw [@entries_modify t p f id hf]
  simp

theorem quiet_uncover : Quiet t (t.uncover p) := quiet_modify fun _ => rfl

theorem quiet_cover : Quiet t (t.cover p) := quiet_modify fun _ => rfl

theorem quiet_coverAndCheck : Quiet t (t.coverAndCheck p) := by
  unfold coverAndCheck
  simp only
  split
  · rename_i h
    have hq : Quiet t (t.cover p) := quiet_cover
    exact ⟨hq.entries, (List.perm_cons_erase h.2).symm.trans hq.fifo, hq.next⟩
  · exact quiet_cover

/-- The hash tables themselves are no part of what is kept quiet. -/
theorem Quiet.rehashed {best : Nat → Option Nat} {other : List (Nat × Nat)} (h : Quiet t u) :
    Quiet t { u with best := best, other := other } := ⟨h.entries, h.fifo, h.next⟩

theorem quiet_bucketHash (t : Table) (b : Nat) : Quiet t (t.bucketHash p b) := by
  unfold bucketHash
  split
  · exact Quiet.rehashed (u := t.uncover p) quiet_uncover
  · split
    · exact (quiet_uncover.trans quiet_coverAndCheck).rehashed
    · exact Quiet.rehashed .refl

theorem quiet_bucketRehash (t : Table) (b : Nat) : Quiet t (t.bucketRehash p b) := by
  unfold bucketRehash
  split
  · exact .refl
  · split
    · exact (quiet_uncover.trans quiet_coverAndCheck).rehashed
    · exact .refl

theorem quiet_bucketUnhash (t : Table) (b : Nat) : Quiet t (t.bucketUnhash p b) := by
  unfold bucketUnhash
  split
  · split
    · exact Quiet.rehashed (u := t.cover p) quiet_cover
    · exact (quiet_uncover.trans quiet_cover).rehashed
  · exact Quiet.rehashed .refl

theorem fifo_bucketUnhash (t : Table) (b : Nat) : (t.bucketUnhash p b).fifo = t.fifo := by
  unfold bucketUnhash
  split
  · split <;> rfl
  · rfl

theorem fifo_foldl_bucketUnhash : (bs.foldl (bucketUnhash p) t).fifo = t.fifo := by
  induction bs generalizing t with
  | nil => rfl
  | cons b bs ih => exact ih.trans (fifo_bucketUnhash t b)

theorem quiet_createPriv :
    Quiet { t with
      privs := ⟨t.next, r, r.buckets g, 0, st⟩ :: t.privs
      next := t.next + 1 } (t.createPriv g r st) :=
  Quiet.foldl quiet_bucketHash

theorem entries_createPriv :
    (t.createPriv g r st).entries = ⟨t.next, r, r.buckets g, 0, st⟩ :: t.entries :=
  quiet_createPriv.entries

theorem entries_drop : (t.drop p).entries = t.entries.filter fun x => x.ptr ≠ p := by
  simp only [entries, drop, List.filter_map]
  rfl

theorem entries_destroyPriv :
    (t.destroyPriv p).entries = t.entries.filter fun x => x.ptr ≠ p := by
  rw [destroyPriv, entries_drop, (Quiet.foldl quiet_bucketUnhash).entries]

theorem fifo_destroyPriv : (t.destroyPriv p).fifo = t.fifo := fifo_foldl_bucketUnhash

theorem next_destroyPriv : (t.destroyPriv p).next = t.next :=
  (Quiet.foldl quiet_bucketUnhash).next

theorem entries_setStatus :
    (t.setStatus p st).entries =
      t.entries.map fun x => if x.ptr = p then { x with status := st } else x :=
  entries_modify fun _ => rfl

theorem updatePriv_same (h : x.region.addr = r.addr ∧ x.region.last = r.last) :
    t.updatePriv g x r = t := if_pos h

theorem quiet_updatePriv (h : ¬(x.region.addr = r.addr ∧ x.region.last = r.last)) :
    Quiet (t.modify x.ptr fun y => y.extend g r) (t.updatePriv g x r) := by
  rw [updatePriv, if_neg h]
  exact ((Quiet.foldl quiet_bucketHash).trans (Quiet.foldl quiet_bucketRehash)).trans
    (Quiet.foldl quiet_bucketHash)

/-- The identities and statuses of the entries. -/
def tags (t : Table) : List (Nat × Status) := t.entries.map fun x => (x.ptr, x.status)

theorem length_tags : t.tags.length = t.privs.length := by
  rw [tags, List.length_map, length_entries]

theorem tag_mem (hx : x ∈ t.privs) : (x.ptr, x.status) ∈ t.tags :=
  List.mem_map.2 ⟨x.core, core_mem_entries hx, rfl⟩

theorem tags_modify (hf : ∀ y, (f y).ptr = y.ptr ∧ (f y).status = y.status) :
    (t.modify p f).tags = t.tags := by
  simp only [tags, entries, modify, List.map_map, List.map_inj_left, Function.comp]
  intro y _
  split
  · exact Prod.ext (hf y).1 (hf y).2
  · rfl

theorem tags_createPriv : (t.createPriv g r st).tags = (t.next, st) :: t.tags := by
  rw [tags, entries_createPriv]
  rfl

theorem tags_destroyPriv : (t.destroyPriv p).tags = t.tags.filter fun e => e.1 ≠ p := by
  rw [tags, entries_destroyPriv, tags, List.filter_map]
  rfl

theorem tags_setStatus :
    (t.setStatus p st).tags = t.tags.map fun e => if e.1 = p then (e.1, st) else e := by
  simp only [tags, entries_setStatus, List.map_map, List.map_inj_left, Function.comp]
  intro y _
  split <;> rfl

/-- At most the region and the buckets of one entry change. -/
theorem updatePriv_spec :
    (t.updatePriv g x r).tags = t.tags ∧ (t.updatePriv g x r).fifo.Perm t.fifo ∧
      (t.updatePriv g x r).next = t.next := by
  by_cases h : x.region.addr = r.addr ∧ x.region.last = r.last
  · rw [updatePriv_same h]
    exact ⟨rfl, .refl _, rfl⟩
  · have hq := quiet_updatePriv (t := t) (g := g) h
    refine ⟨?_, hq.fifo, hq.next⟩
    rw [tags, hq.entries]
    exact tags_modify fun y => ⟨rfl, rfl⟩

end Table

end Gasnet.Firehose
