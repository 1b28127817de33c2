import Gasnet.Amudp.Endpoint
import Gasnet.Loopback.Delivery

/-! A message of an AMUDP endpoint to itself: run at once, or sent through the network. -/
namespace Gasnet.Amudp.Loopback
open Gasnet.Loopback

structure Endpoint (N : Type) where
  name : N
  table : Table N
  config : Config

variable {N : Type} [DecidableEq N] {e : Endpoint N} {i destP id seqnum inst tag : Nat}
  {isRequest : Bool} {t : Entry N} {c : Call}

namespace Endpoint

def named (e : Endpoint N) (i : Nat) : Bool := (e.table.perProc[i]?.map (·.name)) = some e.name

/-- The ids of the endpoint's own entries, in order. -/
def own (e : Endpoint N) : List Nat := (List.range e.table.perProc.length).filter e.named

/-- The last of them, as a byte in every message. -/
def idHint (e : Endpoint N) : Nat := e.own.getLast?.getD 0 % 2 ^ 8

/-- `sourceAddrToId` of the endpoint's own name: an id that fits the hint, else the first one. -/
def sourceAddrToId (e : Endpoint N) (hint : Nat) : Option Nat :=
  (e.own.find? (· % 2 ^ 8 = hint)).or e.own.head?

/-- `TRANSID_TO_NODEID`. The table is freed if its entries in use are the first ones. -/
def nodeId (e : Endpoint N) (i : Nat) : Nat :=
  if (e.table.take e.table.perProc.length).all Option.isSome then i
  else (Table.perProc (e.table.take i)).length

end Endpoint

def body (c : Call) : Body where
  category :=
    match c.payload with
    | .short => .short
    | .medium _ => .medium
    | .long _ _ => .long
  handlerId := c.handler
  destOffset := c.destOffset
  args := c.args
  data := c.data

def msg (e : Endpoint N) (isRequest : Bool) (tag seqnum inst : Nat) (c : Call) : Msg where
  tag := tag
  word := packWord seqnum inst
  isRequest := isRequest
  system := .user
  systemArg := e.idHint
  body := body c

/-- `AMUDP_processPacket` for a user message whose sequence number is the awaited one. The
shortcut also takes a refusal, with the source id of the message. -/
def processPacket (isloopback : Bool) (e : Endpoint N) (m : Msg) (c : Call) (src : Option Nat)
    (source : N) (mem : Word → BitVec 8) : Outcome N :=
  match e.config.refuse m with
  | some reason => ⟨.returned reason (if isloopback then src else e.sourceAddrToId reason), mem⟩
  | none =>
    match src with
    | none => ⟨.dropped, mem⟩
    | some id => deliverTo isloopback e.config.segAddr c id source mem

/-- The "segment overflow" of the shortcut. -/
def Overflow (e : Endpoint N) (c : Call) : Prop :=
  c.IsLong ∧ c.data.length ≠ 0 ∧
    e.config.segLength < c.destOffset + BitVec.ofNat 64 c.data.length

instance : Decidable (Overflow e c) := inferInstanceAs (Decidable (_ ∧ _ ∧ _))

/-- The shortcut of `AMUDP_RequestGeneric` and `AMUDP_ReplyGeneric`: the message is for node
`destP`, the id that its handler is told is `id`. -/
def shortcut (e : Endpoint N) (isRequest : Bool) (destP id : Nat) (c : Call)
    (mem : Word → BitVec 8) : Outcome N :=
  if c.BadArg then ⟨.rejected BAD_ARG, mem⟩
  else
    match e.table.perProc[destP]? with
    | none => ⟨.undefined, mem⟩
    | some p =>
      if Overflow e c then ⟨.rejected BAD_ARG, mem⟩
      else processPacket true e (msg e isRequest p.tag 0 0 c) c (some id) p.name
        (copyLong e.config.segAddr c mem)

/-- The same message when it is sent. -/
def sent (e : Endpoint N) (isRequest : Bool) (destP seqnum inst : Nat) (c : Call)
    (mem : Word → BitVec 8) : Outcome N :=
  if c.BadArg then ⟨.rejected BAD_ARG, mem⟩
  else
    match e.table.perProc[destP]? with
    | none => ⟨.undefined, mem⟩
    | some p =>
      processPacket false e (msg e isRequest p.tag seqnum inst c) c (e.sourceAddrToId e.idHint)
        e.name mem

def loopbackRequest (e : Endpoint N) (i : Nat) : Call → (Word → BitVec 8) → Outcome N :=
  shortcut e true (e.nodeId i) i

def networkRequest (e : Endpoint N) (i seqnum inst : Nat) :
    Call → (Word → BitVec 8) → Outcome N :=
  sent e true (e.nodeId i) seqnum inst

def loopbackReply (e : Endpoint N) (destP : Nat) : Call → (Word → BitVec 8) → Outcome N :=
  shortcut e false destP destP

def networkReply (e : Endpoint N) (destP seqnum inst : Nat) :
    Call → (Word → BitVec 8) → Outcome N :=
  sent e false destP seqnum inst

/-- The tag and the handler of a message are no reason to refuse it. -/
def Takes (g : Config) (m : Msg) : Prop :=
  ¬ (g.tag = AM_NONE ∨ g.tag ≠ m.tag ∧ g.tag ≠ AM_ALL) ∧
    ¬ (g.registered m.body.handlerId = false ∧ m.system = .user ∧ m.body.handlerId ≠ 0)

/-- Only its bounds can have a long message refused. -/
def Checked (e : Endpoint N) (m : Msg) (c : Call) : Prop :=
  c.IsLong ∧ ¬ c.BadArg ∧ Takes e.config m

/-- What `Agrees` says of one message, for all contents of the memory. -/
def MessageAgrees (e : Endpoint N) (isRequest : Bool) (destP : Nat) (c : Call)
    (loop net : (Word → BitVec 8) → Outcome N) : Prop :=
  ∀ mem, Agrees (segment e.config.segAddr e.config.segLength)
    (∃ p, e.table.perProc[destP]? = some p ∧ Checked e (msg e isRequest p.tag 0 0 c) c)
    (c.Inside e.config.segLength) mem (loop mem) (net mem)

/-- The request to oneself, and the reply its handler issues, are as through the network, which
gives them some instance and sequence number. -/
structure AsSent (e : Endpoint N) (i : Nat) (c : Call) (reply : Option Call) : Prop where
  request : ∀ seqnum inst, inst < e.config.depth → MessageAgrees e true (e.nodeId i) c
    (loopbackRequest e i c) (networkRequest e i seqnum inst c)
  reply : ∀ r ∈ reply, ∀ seqnum inst mem v v', inst < e.config.depth →
    (loopbackRequest e i c mem).verdict = .accepted v →
    (networkRequest e i seqnum inst c mem).verdict = .accepted v' →
    MessageAgrees e false v.sourceId r (loopbackReply e v.sourceId r)
      (networkReply e v'.sourceId seqnum inst r)

/-- A message does not overflow the segment. One that is accepted comes from the id that the
network finds, and does not wrap; one that is refused comes from the id that the network finds for
the refusal, and is not for bytes of the segment. -/
def Clear (e : Endpoint N) (id : Nat) (m : Msg) (c : Call) : Prop :=
  ¬ Overflow e c ∧
    match e.config.refuse m with
    | none => e.sourceAddrToId e.idHint = some id ∧ (c.IsLong → c.NoWrap)
    | some reason => e.sourceAddrToId reason = some id ∧
        (c.IsLong → Disjoint (segment e.config.segAddr e.config.segLength)
          (target e.config.segAddr c))

/-- The request is clear, and if its handler runs then so is the reply. -/
def ClearExchange (e : Endpoint N) (i : Nat) (t : Entry N) (c : Call) (reply : Option Call) :
    Prop :=
  ¬ c.BadArg → Clear e i (msg e true t.tag 0 0 c) c ∧
    (e.config.refuse (msg e true t.tag 0 0 c) = none → ∀ r ∈ reply, ¬ r.BadArg →
      ∀ p, e.table.perProc[i]? = some p → Clear e i (msg e false p.tag 0 0 r) r)

theorem sourceAddrToId_mem {hint : Nat} (h : e.sourceAddrToId hint = some id) :
    ∃ p, e.table.perProc[id]? = some p ∧ p.name = e.name := by
  have hmem : id ∈ e.own := by
    unfold Endpoint.sourceAddrToId at h
    obtain h | ⟨-, h⟩ := Option.or_eq_some_iff.1 h
    · exact List.mem_of_find?_eq_some h
    · exact List.mem_of_mem_head? h
  simpa [Endpoint.own, Endpoint.named] using (List.mem_filter.1 hmem).2

/-- The endpoint finds itself if it is in its table. -/
theorem sourceAddrToId_isSome (h : e.table.perProc[i]? = some t) (ht : t.name = e.name)
    (hint : Nat) : ∃ id, e.sourceAddrToId hint = some id := by
  have hmem : i ∈ e.own := by
    have hi := (List.getElem?_eq_some_iff.1 h).1
    simpa [Endpoint.own, Endpoint.named, h, ht] using hi
  rw [← Option.isSome_iff_exists, Endpoint.sourceAddrToId, Option.isSome_or]
  cases ho : e.own with
  | nil => simp [ho] at hmem
  | cons => simp

omit [DecidableEq N] in
/-- The compressed id of a translation in use leads to its entry. -/
theorem perProc_nodeId (h : e.table[i]? = some (some t)) :
    e.table.perProc[e.nodeId i]? = some t := by
  unfold Endpoint.nodeId
  have ht := Table.perProc_take h
  split
  · rename_i hd
    rwa [Table.length_perProc_take h hd] at ht
  · exact ht

theorem refuse_msg (hinst : inst < e.config.depth) :
    e.config.refuse (msg e isRequest tag seqnum inst c) =
      e.config.refuse (msg e isRequest tag 0 0 c) := by
  have hle := e.config.depth_le
  have h0 := e.config.depth_pos
  have hi : (msg e isRequest tag seqnum inst c).inst = inst :=
    packWord_div seqnum (by omega)
  have hz : (msg e isRequest tag 0 0 c).inst = 0 := packWord_div 0 (by omega)
  unfold Config.refuse
  rw [hi, hz, if_neg (by omega : ¬ e.config.depth ≤ inst), if_neg (by omega : ¬ e.config.depth ≤ 0)]
  rfl

theorem takes_of_accepted {g : Config} {m : Msg} (h : g.refuse m = none) : Takes g m := by
  unfold Config.refuse at h
  split at h
  · simp at h
  · rename_i htag
    split at h
    · simp at h
    · split at h
      · simp at h
      · rename_i hhandler
        exact ⟨htag, hhandler⟩

theorem body_long (hl : c.IsLong) : (body c).category = .long := by
  unfold Call.IsLong at hl
  unfold body
  cases hp : c.payload <;> simp_all

/-- The machine's sum, with the exact one it stands for. -/
theorem add_data_toNat :
    (c.destOffset + BitVec.ofNat 64 c.data.length).toNat =
      (c.destOffset.toNat + c.data.length) % 2 ^ 64 := by
  simp

/-- The bounds of an accepted long message are exact if it does not wrap. -/
theorem inside_iff (hl : c.IsLong)
    (h : e.config.refuse (msg e isRequest tag 0 0 c) = none) :
    c.Inside e.config.segLength ↔ c.NoWrap := by
  have hbody := body_long hl
  have hlen := add_data_toNat (c := c)
  have hoff : (msg e isRequest tag 0 0 c).body.destOffset = c.destOffset := rfl
  have hn : (msg e isRequest tag 0 0 c).body.nBytes = c.data.length := rfl
  have hcat : (msg e isRequest tag 0 0 c).body.category = .long := hbody
  have hlt := e.config.segLength.isLt
  unfold Config.refuse Config.refuseLength at h
  simp only [hcat, hn, hoff] at h
  unfold Call.Inside Call.NoWrap
  split_ifs at h with _ _ _ _ _ hle
  rw [BitVec.lt_def, hlen] at hle
  omega

/-- A long message refused for its bounds, though they are right, is one to the null address. -/
theorem not_disjoint_of_refused {reason : Nat}
    (hc : Checked e (msg e isRequest tag 0 0 c) c) (hin : c.Inside e.config.segLength)
    (h : e.config.refuse (msg e isRequest tag 0 0 c) = some reason) :
    ¬ Disjoint (segment e.config.segAddr e.config.segLength) (target e.config.segAddr c) := by
  obtain ⟨hl, hb, htag, hhandler⟩ := hc
  have hlen := add_data_toNat (c := c)
  have hoff : (msg e isRequest tag 0 0 c).body.destOffset = c.destOffset := rfl
  have hn : (msg e isRequest tag 0 0 c).body.nBytes = c.data.length := rfl
  have hcat : (msg e isRequest tag 0 0 c).body.category = .long := body_long hl
  have hinst : (msg e isRequest tag 0 0 c).inst = 0 := packWord_div 0 (by omega)
  have hpos := e.config.depth_pos
  have hlt := e.config.segLength.isLt
  apply not_disjoint_of_inside hin
  unfold Config.refuse Config.refuseLength at h
  rw [if_neg htag, if_neg hhandler, if_neg (by omega)] at h
  simp only [hcat, hn, hoff] at h
  unfold Call.Inside at hin
  unfold Call.BadArg at hb
  split_ifs at h with hmax hnull hle
  · unfold AMUDP_MAX_LONG at hmax
    omega
  · omega
  · rw [BitVec.lt_def, hlen] at hle
    omega

/-- The network does not reject a message that is sent. -/
theorem processPacket_ne_rejected {m : Msg} {src : Option Nat} {source : N}
    {mem : Word → BitVec 8} {isloopback : Bool} {error : Nat} :
    (processPacket isloopback e m c src source mem).verdict ≠ .rejected error := by
  unfold processPacket
  split
  · simp
  · split <;> simp [deliverTo]

theorem agrees_message {p : Entry N} (h : e.table.perProc[destP]? = some p)
    (hp : p.name = e.name) (hinst : inst < e.config.depth) :
    MessageAgrees e isRequest destP c (shortcut e isRequest destP id c)
      (sent e isRequest destP seqnum inst c) ↔
      (¬ c.BadArg → Clear e id (msg e isRequest p.tag 0 0 c) c) := by
  unfold MessageAgrees shortcut sent
  simp only [h, Option.some.injEq, exists_eq_left']
  by_cases hb : c.BadArg
  · simp only [hb, if_true, not_true, false_imp_iff, iff_true]
    exact fun mem => Agrees.rejected BAD_ARG fun hc => hc.2.1 hb
  simp only [hb, if_false, not_false_iff, true_imp_iff]
  unfold Clear
  by_cases ho : Overflow e c
  · simp only [ho, if_true, not_true, false_and, iff_false]
    exact fun ha => processPacket_ne_rejected (ha fun _ => 0).verdict.symm
  simp only [ho, if_false, not_false_iff, true_and]
  cases hr : e.config.refuse (msg e isRequest p.tag 0 0 c) with
  | none =>
    obtain ⟨s, hs⟩ := sourceAddrToId_isSome h hp e.idHint
    simp only [processPacket, refuse_msg hinst, hr, hs, hp, agrees_deliverTo, Prod.mk.injEq,
      and_true, Option.some.injEq]
    constructor
    · intro ha
      refine ⟨(ha fun _ => 0).1, fun hl => (inside_iff hl hr).1 ((ha fun _ => 0).2 ?_)⟩
      exact ⟨hl, hb, takes_of_accepted hr⟩
    · rintro ⟨ha, hw⟩ mem
      exact ⟨ha, fun hc => (inside_iff hc.1 hr).2 (hw hc.1)⟩
  | some reason =>
    simp only [processPacket, refuse_msg hinst, hr, if_true, Bool.false_eq_true, if_false]
    rw [agrees_returned (fun hc hin _ => not_disjoint_of_refused hc hin hr) (fun hc => hc.1)]

/-- A request to oneself whose handler runs. -/
theorem loopbackRequest_accepted {mem : Word → BitVec 8} {v : View N}
    (h : e.table.perProc[e.nodeId i]? = some t)
    (hv : (loopbackRequest e i c mem).verdict = .accepted v) :
    ¬ c.BadArg ∧ e.config.refuse (msg e true t.tag 0 0 c) = none ∧ v.sourceId = i := by
  unfold loopbackRequest shortcut processPacket at hv
  simp only [h] at hv
  split at hv
  · simp at hv
  · rename_i hb
    split at hv
    · simp at hv
    · split at hv
      · simp at hv
      · rename_i hr
        simp only [deliverTo, Verdict.accepted.injEq] at hv
        exact ⟨hb, hr, hv ▸ rfl⟩

theorem loopbackRequest_of_accepted (h : e.table.perProc[e.nodeId i]? = some t)
    (hb : ¬ c.BadArg) (ho : ¬ Overflow e c)
    (hr : e.config.refuse (msg e true t.tag 0 0 c) = none) (mem : Word → BitVec 8) :
    ∃ v, (loopbackRequest e i c mem).verdict = .accepted v ∧ v.sourceId = i := by
  simp [loopbackRequest, shortcut, processPacket, h, hb, ho, hr, deliverTo, view]

/-- When a request to oneself, and its reply, are as if sent. -/
theorem asSent_iff (h : e.table[i]? = some (some t)) (ht : t.name = e.name)
    (reply : Option Call) :
    AsSent e i c reply ↔ ClearExchange e i t c reply := by
  have hproc := perProc_nodeId h
  have hdepth := e.config.depth_pos
  constructor
  · rintro ⟨hreq, hrep⟩ hb
    have hclear : Clear e i (msg e true t.tag 0 0 c) c :=
      (agrees_message hproc ht hdepth).1 (hreq 0 0 hdepth) hb
    refine ⟨hclear, fun hr r hrm hrb p hp => ?_⟩
    obtain ⟨ho, hself⟩ := hclear
    simp only [hr] at hself
    obtain ⟨p', hp', hname⟩ := sourceAddrToId_mem hself.1
    rw [hp, Option.some.injEq] at hp'
    obtain ⟨v, hv, hvi⟩ := loopbackRequest_of_accepted hproc hb ho hr fun _ => 0
    have hrep := hrep r hrm 0 0 _ v v hdepth hv ((hreq 0 0 hdepth _).verdict ▸ hv)
    rw [hvi] at hrep
    exact (agrees_message hp (hp' ▸ hname) hdepth).1 hrep hrb
  · intro hcond
    have hreq : ∀ seqnum inst, inst < e.config.depth → MessageAgrees e true (e.nodeId i) c
        (loopbackRequest e i c) (networkRequest e i seqnum inst c) := fun _ _ hinst =>
      (agrees_message hproc ht hinst).2 fun hb => (hcond hb).1
    refine ⟨hreq, fun r hrm seqnum inst mem v v' hinst hv hv' => ?_⟩
    obtain ⟨hb, hr, hvi⟩ := loopbackRequest_accepted hproc hv
    have hvv : v = v' :=
      Verdict.accepted.inj (hv.symm.trans ((hreq seqnum inst hinst mem).verdict.trans hv'))
    obtain ⟨⟨-, hself⟩, hrep⟩ := hcond hb
    simp only [hr] at hself
    obtain ⟨p, hp, hname⟩ := sourceAddrToId_mem hself.1
    rw [← hvv, hvi]
    exact (agrees_message hp hname hinst).2 fun hrb => hrep hr r hrm hrb p hp

end Gasnet.Amudp.Loopback
