import Gasnet.Foundation.Memory
import Gasnet.Vis.Vlide

/-! The initiator's loop of the incremental vector put and get, `gasneti_AMpipeline_incremental`. -/
namespace Gasnet.Vis

/-- `gex_Memvec_t`. -/
structure Memvec where
  addr : Word
  len : Nat
deriving DecidableEq

def Memvec.bytes (v : Memvec) : List Word := span v.addr v.len

def Memvec.advance (v : Memvec) (n : Nat) : Memvec := ⟨v.addr + n, v.len - n⟩

/-- What the caller passes and what the conduit answers; `maxchunk` bounds what is packed if RMA
is used. The queries of the limits never answer less than 512. -/
structure Config where
  isget : Bool
  useRma : Bool
  npam : Bool
  maxchunk : Nat
  maxrequest : Nat
  maxreply : Nat
  segbase : Word
  maxrequest_ge : 512 ≤ maxrequest
  maxrequest_lt : maxrequest < 2 ^ 64
  maxreply_ge : 512 ≤ maxreply

/-- An entry of a packet: where it belongs remotely and, in a put, its data. -/
structure Entry where
  rptr : Word
  len : Nat
  data : List Byte
deriving DecidableEq

/-- `SHORTLEN_MAX`. -/
def shortlenMax : Nat := 65535

/-- A `shortlen_t` as bytes. -/
def shortlen (n : Nat) : List Byte := [BitVec.ofNat 8 n, BitVec.ofNat 8 (n / 256)]

/-- The entries on the wire, each address relative to the one before it. -/
def wire (prev : Word) : List Entry → List Byte
  | [] => []
  | e :: es => encode prev e.rptr ++ shortlen e.len ++ e.data ++ wire e.rptr es

structure Packet where
  entries : List Entry
  savedIdx : Nat
  savedOffset : Nat
deriving DecidableEq

/-- A direct transfer: `lptr`, `rptr` and `sz`. -/
structure Rma where
  lptr : Word
  rptr : Word
  sz : Nat
deriving DecidableEq

/-- The variables of the loop. `started` is `pack_p != NULL`; `cur` is the entry that `pack_rvec`
points into and `closed` are those before it; `savedPos` is `savedlst_pos != NULL`. -/
structure State where
  rvec : Memvec
  rnext : List Memvec
  lvec : Memvec
  lnext : List Memvec
  started : Bool
  closed : List Entry
  cur : Option Entry
  reply : Nat
  saved : List Memvec
  savedPos : Bool
  savedIdx : Nat
  savedOffset : Nat
  sent : List Packet
  rma : List Rma
  deferred : List Rma
deriving DecidableEq

namespace State

variable (c : Config) (mem : Word → Byte) (s : State)

def entries : List Entry := s.closed ++ s.cur.toList

/-- `pack_p - pack_buf`. -/
def cursor : Nat := (wire c.segbase s.entries).length

/-- `prev_rptr`. -/
def prevRptr : Word := (s.entries.getLast?.map Entry.rptr).getD c.segbase

/-- `pack_rvec = NULL`. -/
def settle : State := { s with closed := s.entries, cur := none }

end State

/-- The merging up of what is contiguous. -/
def mergeUp (v : Memvec) : List Memvec → Memvec × List Memvec
  | [] => (v, [])
  | w :: next =>
    if w.len = 0 then mergeUp v next
    else if w.addr = v.addr + v.len then mergeUp ⟨v.addr, v.len + w.len⟩ next
    else (v, w :: next)

namespace State

variable (c : Config) (mem : Word → Byte) (s : State)

def pickUpR : State :=
  if s.rvec.len = 0 then
    match s.rnext with
    | [] => s
    | v :: next => { s.settle with rvec := (mergeUp v next).1, rnext := (mergeUp v next).2 }
  else s

def pickUpL : State :=
  if s.lvec.len = 0 then
    match s.lnext with
    | [] => s
    | v :: next =>
      { s with savedPos := false, lvec := (mergeUp v next).1, lnext := (mergeUp v next).2 }
  else s

/-- `contig_sz` as it is first. -/
def contig : Nat := min s.lvec.len s.rvec.len

def advance (n : Nat) : State :=
  { s with lvec := s.lvec.advance n, rvec := s.rvec.advance n }

/-- The RMA of a large chunk, at once or after the open packet. It breaks the packed entry and the
saved one. -/
def direct : State :=
  let x : Rma := ⟨s.lvec.addr, s.rvec.addr, s.contig⟩
  let now := !c.npam || !s.started
  let broken := c.isget && s.savedPos
  { s.settle with
    rma := if now then s.rma ++ [x] else s.rma
    deferred := if now then s.deferred else x :: s.deferred
    saved := if broken then s.saved.dropLast ++
        (s.saved.getLast?.map fun v => ⟨v.addr, v.len - s.lvec.len⟩).toList
      else s.saved
    savedPos := if broken then false else s.savedPos }

/-- The check for a full buffer: room for a pointer, a length and, in a put, a byte. -/
def full : Bool :=
  s.started && (decide (c.maxrequest < s.cursor c + 8 + 2 + (if c.isget then 0 else 1)) ||
    (c.isget && decide (s.reply = c.maxreply)))

/-- `gasneti_AMpipeline_packetinject` and `DRAIN_DEFERRED`. -/
def send : State :=
  { s with
    sent := s.sent ++ [⟨s.entries, s.savedIdx, s.savedOffset⟩]
    started := false
    closed := []
    cur := none
    rma := s.rma ++ s.deferred
    deferred := [] }

/-- A get saves where its data goes. -/
def save : State :=
  if c.isget && !s.savedPos then { s with saved := s.saved ++ [s.lvec], savedPos := true } else s

/-- A new packet. -/
def start : State :=
  if s.started then s
  else
    { s.settle with
      started := true
      reply := if c.isget then 0 else s.reply
      savedIdx := if c.isget then s.saved.length - 1 else s.savedIdx
      savedOffset :=
        if c.isget then (s.lvec.addr - (s.saved.getLast?.map Memvec.addr).getD 0).toNat
        else s.savedOffset }

/-- The entry to resume, or a new one. -/
def entry : State :=
  match s.cur with
  | some e =>
    if e.len = shortlenMax then { s.settle with cur := some ⟨s.rvec.addr, 0, []⟩ } else s
  | none => { s.settle with cur := some ⟨s.rvec.addr, 0, []⟩ }

/-- `already_packed`. -/
def already : Nat := (s.cur.map Entry.len).getD 0

/-- `remaining_space`, in `size_t`. -/
def remaining : Nat :=
  if c.isget then c.maxreply - s.reply else (c.maxrequest + 2 ^ 64 - s.cursor c) % 2 ^ 64

/-- `contig_sz` capped. -/
def portion : Nat := min (min s.contig (s.remaining c)) (shortlenMax - s.already)

/-- The data of a put, and the length of the entry. -/
def grow (n : Nat) : State :=
  { s with
    cur := s.cur.map fun e =>
      { e with
        len := e.len + n
        data := if c.isget then e.data else e.data ++ (span s.lvec.addr n).map mem }
    reply := if c.isget then s.reply + n else s.reply }

/-- The packet and the saved entry that a chunk needs. -/
def ready : State := ((if s.full c then s.send else s).save c).start c

/-- What is packed of the chunk. -/
def pack : State :=
  let s := (s.ready c).entry
  (s.grow c mem (s.portion c)).advance (s.portion c)

/-- One iteration of the loop. -/
def iterate : State :=
  let s := s.pickUpR.pickUpL
  if c.useRma && decide (c.maxchunk < s.contig) then (s.direct c).advance s.contig
  else s.pack c mem

def done : Bool := decide (s.lvec.len + s.rvec.len = 0) && s.rnext.isEmpty

end State

/-- Before the loop. Empty entries at the front are skipped. -/
def initial (rlist llist : List Memvec) : State where
  rvec := ⟨0, 0⟩
  rnext := rlist.dropWhile (·.len = 0)
  lvec := ⟨0, 0⟩
  lnext := llist.dropWhile (·.len = 0)
  started := false
  closed := []
  cur := none
  reply := 0
  saved := []
  savedPos := false
  savedIdx := 0
  savedOffset := 0
  sent := []
  rma := []
  deferred := []

/-- The state after up to `n` iterations. A transfer without data returns before the first. -/
def loop (c : Config) (mem : Word → Byte) : Nat → State → State
  | 0, s => s
  | n + 1, s => if s.done then s else loop c mem n (s.iterate c mem)

end Gasnet.Vis
