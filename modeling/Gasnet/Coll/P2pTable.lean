import Gasnet.Coll.Seq32
import Gasnet.Foundation.BackLinks

/-! The table of point-to-point records of a team: sorted lists by slot, and a free list. -/
namespace Gasnet.Coll.P2p

/-- `GASNETE_COLL_P2P_TABLE_SIZE`. -/
abbrev TABLE_SIZE : Nat := 16

/-- `GASNETE_COLL_P2P_TABLE_SLOT`. -/
def slotOf (sequence : BitVec 32) : Fin TABLE_SIZE :=
  ⟨(sequence &&& BitVec.ofNat 32 (TABLE_SIZE - 1)).toNat % TABLE_SIZE, Nat.mod_lt _ (by decide)⟩

/-- What sizes a team admits. -/
structure Config where
  totalRanks : Nat
  eagerBuffersz : Nat
  totalRanks_lt : totalRanks < 2 ^ 31

/-- `2 * team->total_ranks`, of 32 bits. -/
def Config.limit (cfg : Config) : Nat := 2 * cfg.totalRanks % 2 ^ 32

/-- `gasnete_coll_p2p_t`, less its links. -/
structure Record where
  sequence : BitVec 32
  data : List (BitVec 8)
  state : List (BitVec 32)
  counter : List Nat
  finalized : Bool

def Record.blank (sequence : BitVec 32) : Record := ⟨sequence, [], [], [], false⟩

/-- What an allocator leaves in memory that it hands out. -/
structure Fresh where
  data : Nat → BitVec 8
  state : Nat → BitVec 32
  counter : Nat → Nat

/-- `gasneti_realloc`. -/
def realloc {α : Type} (fresh : Nat → α) (a : List α) (n : Nat) : List α :=
  (List.range n).map fun i => a.getD i (fresh i)

/-- `memset(tmp + k, 0, ..)`, to the end. -/
def zeroFrom {w : Nat} (a : List (BitVec w)) (k : Nat) : List (BitVec w) :=
  a.take k ++ List.replicate (a.length - k) 0

/-- `for (int i = ..; i < n; i++) tmp[i] = 0`: the comparison is of 64 bits. -/
def clearLoop : (fuel : Nat) → (i : BitVec 32) → (n : Nat) → List Nat → List Nat
  | 0, _, _, a => a
  | fuel + 1, i, n, a =>
    if (i.signExtend 64).toNat < n then clearLoop fuel (i + 1) n (a.set i.toNat 0) else a

/-- `GASNETE_P2P_NEW_SZ`. -/
def newSz (old want limit : Nat) : Nat := min limit (max want (2 * old % 2 ^ 64))

namespace Record

variable (cfg : Config) (fresh : Fresh)

def growState (r : Record) (nstates : Nat) : Record :=
  if r.state.length < nstates then
    let n := newSz r.state.length nstates cfg.limit
    { r with state := zeroFrom (realloc fresh.state r.state n) r.state.length }
  else r

def growCounter (r : Record) (ncounters : Nat) : Record :=
  if r.counter.length < ncounters then
    let n := newSz r.counter.length ncounters cfg.limit
    { r with
      counter := clearLoop n (BitVec.ofNat 32 r.counter.length) n
        (realloc fresh.counter r.counter n) }
  else r

def growData (r : Record) (ndata : Nat) : Record :=
  if r.data.length < ndata then
    let n := newSz r.data.length ndata cfg.eagerBuffersz
    { r with data := zeroFrom (realloc fresh.data r.data n) r.data.length }
  else r

/-- Allocate or grow fields as needed, unless the record is finalized. -/
def grow (r : Record) (nstates ncounters ndata : Nat) : Record :=
  if r.finalized then r
  else ((r.growState cfg fresh nstates).growCounter cfg fresh ncounters).growData cfg fresh ndata

/-- Their contents when `gasnete_coll_p2p_free` has freed them. -/
def release (r : Record) : Record := .blank r.sequence

end Record

abbrev Addr := Nat

structure Table where
  links : Links (Fin TABLE_SIZE) Addr
  record : Addr → Record
  freelist : Option Addr
  /-- The addresses below are in use. -/
  brk : Addr

def initial : Table := ⟨⟨fun _ => none, fun _ => none, fun _ => .head 0⟩, fun _ => .blank 0, none, 0⟩

namespace Table

def setRecord (t : Table) (a : Addr) (r : Record) : Table :=
  { t with record := Function.update t.record a r }

/-- The link that points to the first record not before `sequence`. -/
def search (t : Table) (sequence : BitVec 32) :
    (fuel : Nat) → Link (Fin TABLE_SIZE) Addr → Link (Fin TABLE_SIZE) Addr
  | 0, prev => prev
  | fuel + 1, prev =>
    match t.links.deref prev with
    | some p =>
      if seq32Lt (t.record p).sequence sequence then search t sequence fuel (.next p) else prev
    | none => prev

/-- Take a record from the free list, or a new one. -/
def take (t : Table) : Table × Addr :=
  match t.freelist with
  | some p => ({ t with freelist := t.links.next p }, p)
  | none => ({ (t.setRecord t.brk (.blank 0)) with brk := t.brk + 1 }, t.brk)

/-- If not found, create it. -/
def create (t : Table) (prev : Link (Fin TABLE_SIZE) Addr) (sequence : BitVec 32) :
    Table × Addr :=
  let (t, p) := t.take
  ({ (t.setRecord p { t.record p with sequence := sequence }) with
      links := t.links.insertAt prev p }, p)

def locate (t : Table) (sequence : BitVec 32) : Table × Addr :=
  let prev := t.search sequence (t.brk + 1) (.head (slotOf sequence))
  match t.links.deref prev with
  | some p => if (t.record p).sequence = sequence then (t, p) else t.create prev sequence
  | none => t.create prev sequence

/-- `gasnete_coll_p2p_get_inner`. -/
def get (t : Table) (cfg : Config) (fresh : Fresh) (sequence : BitVec 32)
    (nstates ncounters ndata : Nat) (finalize : Bool) : Table × Addr :=
  let (t, p) := t.locate sequence
  let r := (t.record p).grow cfg fresh nstates ncounters ndata
  (t.setRecord p { r with finalized := r.finalized || finalize }, p)

/-- `gasnete_coll_p2p_free`. -/
def free (t : Table) (p : Addr) : Table :=
  { (t.setRecord p (t.record p).release) with
    links := (t.links.remove p).store (.next p) t.freelist
    freelist := some p }

/-- `gasnete_coll_p2p_purge`. -/
def purge (t : Table) : Table := { t with freelist := none }

/-- The record is in a list of the table. -/
def Live (t : Table) (p : Addr) : Prop :=
  ∃ i xs, t.links.Path (.head i) xs none ∧ p ∈ xs

end Table

/-- The numbers in use lie in a window of `2 ^ 31`; sizes are within the limits; and a record that
is finalized is asked for no more than it has, nor finalized again. -/
structure Admits (cfg : Config) (t : Table) (sequence : BitVec 32)
    (nstates ncounters ndata : Nat) (finalize : Bool) : Prop where
  window : ∃ base, ahead32 base sequence < 2 ^ 31 ∧
    ∀ p, t.Live p → ahead32 base (t.record p).sequence < 2 ^ 31
  state : nstates ≤ cfg.limit
  counter : ncounters ≤ cfg.limit
  data : ndata ≤ cfg.eagerBuffersz
  final : ∀ p, t.Live p → (t.record p).sequence = sequence → (t.record p).finalized = true →
    finalize = false ∧ nstates ≤ (t.record p).state.length ∧
      ncounters ≤ (t.record p).counter.length ∧ ndata ≤ (t.record p).data.length

inductive Action
  | get (sequence : BitVec 32) (nstates ncounters ndata : Nat) (finalize : Bool)
  | write (p : Addr)
  | free (p : Addr)
  | purge

/-- Local operations and message handlers, under the lock of the table. -/
inductive Step (cfg : Config) : Table → Action → Table → Prop
  | get {t sequence nstates ncounters ndata finalize} (fresh : Fresh)
      (h : Admits cfg t sequence nstates ncounters ndata finalize) :
      Step cfg t (.get sequence nstates ncounters ndata finalize)
        (t.get cfg fresh sequence nstates ncounters ndata finalize).1
  | write {t p} {r : Record} (hp : t.Live p) (hseq : r.sequence = (t.record p).sequence)
      (hfinal : r.finalized = (t.record p).finalized)
      (hdata : r.data.length = (t.record p).data.length)
      (hstate : r.state.length = (t.record p).state.length)
      (hcounter : r.counter.length = (t.record p).counter.length) :
      Step cfg t (.write p) (t.setRecord p r)
  | free {t p} (hp : t.Live p) : Step cfg t (.free p) (t.free p)
  | purge {t} : Step cfg t .purge t.purge

end Gasnet.Coll.P2p
