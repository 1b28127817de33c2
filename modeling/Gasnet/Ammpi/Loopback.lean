import Gasnet.Ammpi.Tokens
import Gasnet.Loopback.Delivery

/-! A message of an AMMPI endpoint to itself: run at once, or sent through the network. -/
namespace Gasnet.Ammpi.Loopback
open Gasnet.Loopback

variable {e : Endpoint} {i : Nat} {t : Entry Name} {c : Call} {m : Msg} {s : Nat × Name}

/-- `en_t`. -/
structure Name where
  mpirank : Nat
  mpitag : Nat
deriving DecidableEq

structure Endpoint where
  name : Name
  table : Table Name
  useAmtags : Bool
  tag : Nat
  handler : Nat → Bool
  segAddr : Word
  segLength : Word

def EBADENDPOINT : Nat := 7

namespace Endpoint

def gate (e : Endpoint) : Gate where
  useAmtags := e.useAmtags
  tag := e.tag
  handler := e.handler
  segAddr := e.segAddr.toNat
  segLength := e.segLength.toNat

/-- The source of a packet from an MPI rank: the id equal to the rank if it fits, else the last
one that does. -/
def findSource (e : Endpoint) (rank : Nat) : Option (Nat × Name) :=
  match e.table.perProc[rank]?.filter (·.name.mpirank = rank) with
  | some p => some (rank, p.name)
  | none =>
    (e.table.perProc.zipIdx.reverse.find? (·.1.name.mpirank = rank)).map fun p => (p.2, p.1.name)

/-- Where the endpoint's own packets come from. -/
def self (e : Endpoint) : Option (Nat × Name) := e.findSource e.name.mpirank

end Endpoint

def category (c : Call) : Category :=
  match c.payload with
  | .short => .short
  | .medium _ => .medium
  | .long _ _ => .long

/-- The header that `AMMPI_RequestGeneric` and `AMMPI_ReplyGeneric` set up. -/
def header (isRequest : Bool) (tag : Nat) (c : Call) : Msg where
  isRequest := isRequest
  cat := category c
  handlerId := c.handler
  nBytes := c.data.length % 2 ^ 16
  destOffset := c.destOffset.toNat
  tag := tag
  systemMessageType := .user
  systemMessageArg := 0

/-- `AMMPI_processPacket` for a user message. A refusal goes through the network even for a
message to oneself. -/
def processPacket (isloopback : Bool) (e : Endpoint) (m : Msg) (c : Call)
    (src : Option (Nat × Name)) (mem : Word → BitVec 8) : Outcome Name :=
  match src with
  | none => ⟨.returned EBADENDPOINT (e.self.map Prod.fst), mem⟩
  | some (id, source) =>
    match refusal e.gate m with
    | some reason => ⟨.returned reason (e.self.map Prod.fst), mem⟩
    | none => deliverTo isloopback e.segAddr c id source mem

/-- `AMMPI_RequestGeneric` to translation `i`, one of the endpoint itself. -/
def loopbackRequest (e : Endpoint) (i : Nat) (t : Entry Name) (c : Call)
    (mem : Word → BitVec 8) : Outcome Name :=
  if c.BadArg then ⟨.rejected BAD_ARG, mem⟩
  else processPacket true e (header true t.tag c) c (some (i, e.name)) (copyLong e.segAddr c mem)

/-- The same request when it is sent. -/
def networkRequest (e : Endpoint) (t : Entry Name) (c : Call) (mem : Word → BitVec 8) :
    Outcome Name :=
  if c.BadArg then ⟨.rejected BAD_ARG, mem⟩
  else processPacket false e (header true t.tag c) c e.self mem

/-- `AMMPI_ReplyGeneric` to a request from the endpoint itself, its source id `destP`. -/
def loopbackReply (e : Endpoint) (destP : Nat) (c : Call) (mem : Word → BitVec 8) :
    Outcome Name :=
  if c.BadArg then ⟨.rejected BAD_ARG, mem⟩
  else
    match e.table.perProc[destP]? with
    | none => ⟨.undefined, mem⟩
    | some p =>
      processPacket true e (header false p.tag c) c (some (destP, e.name)) (copyLong e.segAddr c mem)

/-- The same reply when it is sent. -/
def networkReply (e : Endpoint) (destP : Nat) (c : Call) (mem : Word → BitVec 8) : Outcome Name :=
  if c.BadArg then ⟨.rejected BAD_ARG, mem⟩
  else
    match e.table.perProc[destP]? with
    | none => ⟨.undefined, mem⟩
    | some p => processPacket false e (header false p.tag c) c e.self mem

/-- The tag and the handler of a message are no reason to refuse it. -/
def Takes (g : Gate) (m : Msg) : Prop :=
  ¬ (g.useAmtags ∧ (g.tag = AM_NONE ∨ g.tag ≠ m.tag ∧ g.tag ≠ AM_ALL)) ∧
    ¬ (g.handler m.handlerId = false ∧ m.systemMessageType = .user ∧ m.handlerId ≠ 0)

/-- Only its bounds can have a long message refused. -/
def Checked (e : Endpoint) (m : Msg) (c : Call) : Prop :=
  c.IsLong ∧ ¬ c.BadArg ∧ Takes e.gate m

/-- The request to oneself, and the reply its handler issues, are as through the network. -/
structure AsSent (e : Endpoint) (i : Nat) (t : Entry Name) (c : Call)
    (reply : Option Call) : Prop where
  request : ∀ mem, Agrees (segment e.segAddr e.segLength) (Checked e (header true t.tag c) c)
    (c.Inside e.segLength) mem (loopbackRequest e i t c mem) (networkRequest e t c mem)
  reply : ∀ r ∈ reply, ∀ mem v v', (loopbackRequest e i t c mem).verdict = .accepted v →
    (networkRequest e t c mem).verdict = .accepted v' →
    ∀ mem, Agrees (segment e.segAddr e.segLength)
      (∃ p, e.table.perProc[v.sourceId]? = some p ∧ Checked e (header false p.tag r) r)
      (r.Inside e.segLength) mem (loopbackReply e v.sourceId r mem)
      (networkReply e v'.sourceId r mem)

/-- A message that is accepted comes from the id that the network finds, and does not wrap; one
that is refused is not for bytes of the segment. -/
def Clear (e : Endpoint) (id : Nat) (m : Msg) (c : Call) : Prop :=
  if refusal e.gate m = none then e.self = some (id, e.name) ∧ (c.IsLong → c.NoWrap)
  else c.IsLong → Disjoint (segment e.segAddr e.segLength) (target e.segAddr c)

/-- The request is clear, and if its handler runs then so is the reply. -/
def ClearExchange (e : Endpoint) (i : Nat) (t : Entry Name) (c : Call) (reply : Option Call) :
    Prop :=
  ¬ c.BadArg → Clear e i (header true t.tag c) c ∧
    (refusal e.gate (header true t.tag c) = none → ∀ r ∈ reply, ¬ r.BadArg →
      ∀ p, e.table.perProc[i]? = some p → Clear e i (header false p.tag r) r)

theorem findSource_mem {rank : Nat} (h : e.findSource rank = some s) :
    ∃ p, e.table.perProc[s.1]? = some p ∧ p.name = s.2 ∧ p.name.mpirank = rank := by
  unfold Endpoint.findSource at h
  split at h
  · rename_i p hp
    obtain ⟨hp, hr⟩ := Option.filter_eq_some_iff.1 hp
    cases h
    exact ⟨p, hp, rfl, by simpa using hr⟩
  · obtain ⟨⟨p, k⟩, hp, rfl⟩ := Option.map_eq_some_iff.1 h
    have hr := List.find?_some hp
    have hk := List.mem_zipIdx_iff_getElem?.1 (List.mem_reverse.1 (List.mem_of_find?_eq_some hp))
    exact ⟨p, hk, rfl, by simpa using hr⟩

/-- The endpoint finds itself if it is in its table. -/
theorem self_isSome (h : e.table[i]? = some (some t)) (ht : t.name = e.name) :
    ∃ s, e.self = some s := by
  unfold Endpoint.self Endpoint.findSource
  split
  · exact ⟨_, rfl⟩
  · rw [← Option.isSome_iff_exists, Option.isSome_map, List.find?_isSome]
    obtain ⟨k, hk⟩ := List.getElem?_of_mem (Table.mem_perProc h)
    exact ⟨(t, k), List.mem_reverse.2 (List.mem_zipIdx_iff_getElem?.2 hk), by simp [ht]⟩

theorem header_long {isRequest : Bool} {tag : Nat} (hl : c.IsLong) (hb : ¬ c.BadArg) :
    (header isRequest tag c).cat = .long ∧ (header isRequest tag c).nBytes = c.data.length := by
  unfold Call.BadArg at hb
  constructor
  · unfold Call.IsLong at hl
    unfold header category
    cases hp : c.payload <;> simp_all
  · simp only [header]
    omega

/-- The bounds of an accepted long message are exact if it does not wrap. -/
theorem inside_iff {isRequest : Bool} {tag : Nat} (hl : c.IsLong) (hb : ¬ c.BadArg)
    (h : refusal e.gate (header isRequest tag c) = none) : c.Inside e.segLength ↔ c.NoWrap := by
  obtain ⟨hcat, hn⟩ := @header_long c isRequest tag hl hb
  unfold refusal at h
  simp only [hcat, hn] at h
  have hoff : (header isRequest tag c).destOffset = c.destOffset.toNat := rfl
  have hseg : e.gate.segLength = e.segLength.toNat := rfl
  have hlt := e.segLength.isLt
  unfold Call.Inside Call.NoWrap
  unfold Call.BadArg at hb
  split_ifs at h
  omega

/-- A long message refused for its bounds, though they are right, is one to the null address. -/
theorem not_disjoint_of_refused {isRequest : Bool} {tag reason : Nat}
    (hc : Checked e (header isRequest tag c) c) (hin : c.Inside e.segLength)
    (h : refusal e.gate (header isRequest tag c) = some reason) :
    ¬ Disjoint (segment e.segAddr e.segLength) (target e.segAddr c) := by
  obtain ⟨hl, hb, htag, hhandler⟩ := hc
  obtain ⟨hcat, hn⟩ := @header_long c isRequest tag hl hb
  apply not_disjoint_of_inside hin
  unfold refusal at h
  rw [if_neg htag, if_neg hhandler] at h
  simp only [hcat, hn] at h
  have hoff : (header isRequest tag c).destOffset = c.destOffset.toNat := rfl
  have hseg : e.gate.segLength = e.segLength.toNat := rfl
  have hlt := e.segLength.isLt
  unfold Call.Inside at hin
  unfold Call.BadArg at hb
  split_ifs at h <;> omega

theorem takes_of_accepted {g : Gate} (h : refusal g m = none) : Takes g m := by
  unfold refusal at h
  split at h
  · simp at h
  · rename_i htag
    split at h
    · simp at h
    · rename_i hhandler
      exact ⟨htag, hhandler⟩

theorem agrees_processPacket {isRequest : Bool} {tag id : Nat} (hs : ∃ s, e.self = some s)
    (hb : ¬ c.BadArg) :
    (∀ mem, Agrees (segment e.segAddr e.segLength) (Checked e (header isRequest tag c) c)
      (c.Inside e.segLength) mem
      (processPacket true e (header isRequest tag c) c (some (id, e.name))
        (copyLong e.segAddr c mem))
      (processPacket false e (header isRequest tag c) c e.self mem)) ↔
      Clear e id (header isRequest tag c) c := by
  obtain ⟨s, hs⟩ := hs
  unfold Clear
  cases hr : refusal e.gate (header isRequest tag c) with
  | none =>
    simp only [processPacket, hs, hr, agrees_deliverTo, if_true, Option.some.injEq]
    constructor
    · intro h
      refine ⟨(h fun _ => 0).1, fun hl => (inside_iff hl hb hr).1 ((h fun _ => 0).2 ?_)⟩
      exact ⟨hl, hb, takes_of_accepted hr⟩
    · rintro ⟨h, hw⟩ mem
      exact ⟨h, fun hc => (inside_iff hc.1 hb hr).2 (hw hc.1)⟩
  | some reason =>
    simp only [processPacket, hs, hr, reduceCtorEq, if_false]
    rw [agrees_returned (fun hc hin _ => not_disjoint_of_refused hc hin hr) (fun hc => hc.1)]
    simp

theorem loopbackRequest_accepted {mem : Word → BitVec 8} {v : View Name}
    (h : (loopbackRequest e i t c mem).verdict = .accepted v) :
    ¬ c.BadArg ∧ refusal e.gate (header true t.tag c) = none ∧ v.sourceId = i := by
  unfold loopbackRequest processPacket at h
  split at h
  · simp at h
  · rename_i hb
    dsimp only at h
    split at h
    · simp at h
    · rename_i hr
      simp only [deliverTo, Verdict.accepted.injEq] at h
      exact ⟨hb, hr, h ▸ rfl⟩

theorem loopbackRequest_of_accepted (hb : ¬ c.BadArg)
    (hr : refusal e.gate (header true t.tag c) = none) (mem : Word → BitVec 8) :
    ∃ v, (loopbackRequest e i t c mem).verdict = .accepted v ∧ v.sourceId = i := by
  simp [loopbackRequest, processPacket, hb, hr, deliverTo, view]

theorem agrees_reply {p : Entry Name} {r : Call} (hs : ∃ s, e.self = some s)
    (hp : e.table.perProc[i]? = some p) :
    (∀ mem, Agrees (segment e.segAddr e.segLength)
      (∃ p, e.table.perProc[i]? = some p ∧ Checked e (header false p.tag r) r)
      (r.Inside e.segLength) mem (loopbackReply e i r mem) (networkReply e i r mem)) ↔
      (¬ r.BadArg → Clear e i (header false p.tag r) r) := by
  unfold loopbackReply networkReply
  simp only [hp, Option.some.injEq, exists_eq_left']
  by_cases hb : r.BadArg
  · simp only [hb, if_true, not_true, false_imp_iff, iff_true]
    exact fun mem => Agrees.rejected BAD_ARG fun hc => hc.2.1 hb
  · simp only [hb, if_false, not_false_iff, true_imp_iff]
    exact agrees_processPacket hs hb

/-- When a request to oneself, and its reply, are as if sent. -/
theorem asSent_iff (h : e.table[i]? = some (some t)) (ht : t.name = e.name)
    (reply : Option Call) :
    AsSent e i t c reply ↔ ClearExchange e i t c reply := by
  have hs := self_isSome h ht
  constructor
  · rintro ⟨hreq, hrep⟩ hb
    have hclear : Clear e i (header true t.tag c) c := by
      rw [← agrees_processPacket hs hb]
      simpa only [loopbackRequest, networkRequest, if_neg hb] using hreq
    refine ⟨hclear, fun hr r hrm hrb p hp => ?_⟩
    obtain ⟨v, hv, hvi⟩ := loopbackRequest_of_accepted (i := i) hb hr fun _ => 0
    have hrep := hrep r hrm _ v v hv ((hreq _).verdict ▸ hv)
    rw [hvi] at hrep
    exact (agrees_reply hs hp).1 hrep hrb
  · intro hcond
    have hreq : ∀ mem, Agrees (segment e.segAddr e.segLength) (Checked e (header true t.tag c) c)
        (c.Inside e.segLength) mem (loopbackRequest e i t c mem) (networkRequest e t c mem) := by
      unfold loopbackRequest networkRequest
      by_cases hb : c.BadArg
      · simp only [if_pos hb]
        exact fun mem => Agrees.rejected BAD_ARG fun hc => hc.2.1 hb
      · simp only [if_neg hb]
        exact (agrees_processPacket hs hb).2 (hcond hb).1
    refine ⟨hreq, fun r hrm mem v v' hv hv' => ?_⟩
    obtain ⟨hb, hr, hvi⟩ := loopbackRequest_accepted hv
    have hvv : v = v' := Verdict.accepted.inj (hv.symm.trans ((hreq mem).verdict.trans hv'))
    obtain ⟨hclear, hrep⟩ := hcond hb
    simp only [Clear, hr, if_true] at hclear
    obtain ⟨p, hp, -, -⟩ := findSource_mem hclear.1
    rw [← hvv, hvi]
    exact (agrees_reply hs hp).2 fun hrb => hrep hr r hrm hrb p hp

end Gasnet.Ammpi.Loopback
