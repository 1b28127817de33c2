import Gasnet.Amudp.ExactlyOnce

/-! Exactly-once delivery over every good run. -/
namespace Gasnet.Amudp

variable {Node : Type} [DecidableEq Node] {j : Job Node} {s t : State Node} {lim : Nat}
  {m r : Packet Node} {o : Choice} {a : Action Node}

theorem inv_deliverRequest (hs : LagInv j lim s) (hlim : lim ≤ 62) (hm : m ∈ s.issued)
    (htimely : Timely s m) (haccept : (j.config m.dst).refuse m.msg = none) :
    LagInv j lim (s.deliver j m o) := by
  have hinst : m.msg.inst < 1024 :=
    lt_of_lt_of_le (inst_lt_of_accepted haccept) (j.config m.dst).depth_le
  have hdeliver := deliver_request (o := o) hs.core hm haccept
  split at hdeliver
  · rename_i hseq
    obtain ⟨ws, h⟩ := hdeliver
    obtain ⟨hgen, hcur⟩ := current_of_accepted hs hlim hm haccept hseq
      (by simpa [Timely, (hs.issued m hm).isRequest, State.repDesc] using htimely)
    exact inv_acceptRequest hs h hm hinst haccept hgen hcur
  · obtain ⟨ws, h, hws⟩ := hdeliver
    refine inv_quiet hs h fun r hr => ?_
    obtain ⟨m', hm'⟩ := hs.cached _ _ _ r (hws r hr)
    exact onWire_replyTo hm'

theorem inv_deliverReply (hs : LagInv j lim s) (hr : ReplyTo s m r) (htimely : Timely s r)
    (haccept : (j.config r.dst).refuse r.msg = none) : LagInv j lim (s.deliver j r o) := by
  have hdeliver := deliver_reply (o := o) hs.core hr.isRequest hr.system haccept
  split at hdeliver
  · rename_i hseq
    obtain ⟨es, h, hes⟩ := hdeliver
    have hgen : r.gen = (s.reqDesc r.dst r.src r.msg.inst).gen := by
      refine eq_of_mod_eq (reply_gen_le hs hr) ?_ ?_
      · simpa [Timely, hr.isRequest, State.reqDesc] using htimely
      · rw [← hr.seqnum, hseq, hs.reqSeq]
    obtain ⟨hbuf, hacc⟩ := answers_of_gen_eq hs hr hgen
    rw [hr.dst, hr.src, hr.inst] at h hbuf hacc hgen hes
    have hgen' := hr.gen
    refine inv_retire hs h hbuf (by omega) (fun hle => absurd hle (by omega)) ?_
    obtain rfl | ⟨x, hx, hsys, rfl⟩ := hes
    · exact Or.inl (by simp)
    · rw [hbuf] at hx
      obtain rfl := Option.some.inj hx
      exact Or.inr ⟨m, r, hr, rfl, by omega, hsys, rfl⟩
  · exact inv_quiet hs hdeliver (by simp)

theorem inv_deliverReturn (hs : LagInv j lim s) (hm : m ∈ s.issued) (hr : ReturnOf j m r)
    (hreq : r.msg.isRequest = true) (hsys : r.msg.system = .returned)
    (htime : (s.reqDesc m.src m.dst m.msg.inst).gen < m.gen + 64)
    (hwin : (s.reqDesc m.src m.dst m.msg.inst).gen <
      (s.repDesc m.dst m.src m.msg.inst).gen + lim) : LagInv j lim (s.deliver j r o) := by
  have hproc : processPacket (j.config r.dst) (j.remoteTag r.dst r.src) (j.idHint r.dst)
      (s.ep r.dst) r o = processReturned (s.ep r.dst) r := by
    simp [processPacket, hsys]
  by_cases hfree : ((s.ep r.dst).req r.src r.msg.inst).buffer.isSome ∧
      ((s.ep r.dst).req r.src r.msg.inst).seqNum = r.msg.seqnum
  · have hgen : m.gen = (s.reqDesc m.src m.dst m.msg.inst).gen := by
      refine eq_of_mod_eq (issued_gen_le hs hm) htime ?_
      have hseq := hfree.2
      rw [hr.seqnum, hr.gen, hr.dst, hr.src, hr.inst] at hseq
      rw [← hseq]
      exact hs.reqSeq m.src m.dst m.msg.inst
    rw [processReturned, if_pos ⟨hreq, hfree⟩] at hproc
    have h := retire_complete hproc
    rw [hr.dst, hr.src, hr.inst] at h
    exact inv_retire hs h (buffer_of_gen_eq hs hm hgen) hwin (fun _ => hr.refused)
      (Or.inl (by simp))
  · rw [processReturned, if_neg (fun h => hfree h.2)] at hproc
    exact inv_quiet hs (quiet_deliver hs.core hproc (by simp)) (by simp)

/-- A message that is refused goes back and changes nothing else. -/
theorem inv_deliverRefused {err : Nat} (hs : LagInv j lim s) (hsys : m.msg.system ≠ .returned)
    (hacc : (j.config m.dst).refuse m.msg = some err)
    (hm : m.msg.isRequest = true → lim ≠ 0 ∧ m ∈ s.issued) : LagInv j lim (s.deliver j m o) := by
  refine inv_quiet hs (quiet_refused hs.core hsys hacc) fun x hx => ?_
  obtain rfl := List.mem_singleton.mp hx
  refine ⟨fun _ h => absurd rfl h, fun hq _ => ?_, fun _ h => absurd rfl h⟩
  obtain ⟨hlim, hmem⟩ := hm hq
  exact ⟨hlim, m, hmem, by simp [hacc], rfl, rfl, rfl, rfl, (hs.issued m hmem).seqnum⟩

theorem inv_deliver (hs : LagInv j lim s) (hlim : lim ≤ 62) (hm : m ∈ s.wire)
    (hallowed : LagAllowed j lim s (.deliver m o)) : LagInv j lim (s.deliver j m o) := by
  obtain ⟨htime, hrefuse, hwin⟩ := hallowed
  by_cases hsys : m.msg.system = .returned
  · rw [OnTime, if_pos hsys] at htime
    by_cases hreq : m.msg.isRequest = true
    · obtain ⟨_, m', hm', hret⟩ := hs.wireReturned m hm hreq hsys
      have hwin := hwin hreq hsys
      rw [hret.dst, hret.src, hret.inst] at htime hwin
      rw [hret.gen] at htime
      exact inv_deliverReturn hs hm' hret hreq hsys htime hwin
    · exact inv_quiet hs (quiet_returned hs.core hsys hreq) (by simp)
  · rw [OnTime, if_neg hsys] at htime
    by_cases hreq : m.msg.isRequest = true
    · have hmem := hs.wireRequest m hm hreq hsys
      cases hacc : (j.config m.dst).refuse m.msg with
      | none => exact inv_deliverRequest hs hlim hmem htime hacc
      | some err =>
        refine inv_deliverRefused hs hsys hacc fun _ => ⟨fun h0 => ?_, hmem⟩
        simp [hrefuse h0 hreq] at hacc
    · have hrep : m.msg.isRequest = false := by simpa using hreq
      cases hacc : (j.config m.dst).refuse m.msg with
      | none =>
        obtain ⟨m', hm'⟩ := hs.wireReply m hm hrep hsys
        exact inv_deliverReply hs hm' htime hacc
      | some err => exact inv_deliverRefused hs hsys hacc fun h => absurd h hreq

theorem lagInv_step (hlim : lim ≤ 62) (h : LagStep j lim s a t) (hs : LagInv j lim s) :
    LagInv j lim t := by
  obtain ⟨h, hallowed⟩ := h
  cases h with
  | acquire _ _ ha => exact inv_quiet hs (quiet_acquire hs.core ha) (by simp)
  | send hr _ =>
    refine inv_issue hs (issue_send hs.core hr) ?_
    rw [request_inst hs.core hr]
    exact (hs.pending _ _ hr).2.1
  | sendFail hr _ => exact inv_quiet hs (quiet_sendFail hs.core hr) (by simp)
  | abandon _ => exact inv_quiet hs (quiet_abandon hs.core) (by simp)
  | loopback _ => exact inv_loopback hs _
  | @loopbackRefused p _ _ => exact inv_quiet hs (quiet_loopbackRefused p hs.core) (by simp)
  | deliver hm => exact inv_deliver hs hlim hm hallowed
  | @retransmit p q i m hm =>
    refine inv_quiet hs (quiet_retransmit p hs.core) fun r hr => ?_
    obtain rfl := List.mem_singleton.mp hr
    exact onWire_issued hs (hs.buffer p q i r hm).1
  | undeliverable _ => exact hallowed.elim

theorem lagInv_reachable (hlim : lim ≤ 62) (h : Reachable (LagStep j lim) initial s) :
    LagInv j lim s :=
  h.invariant (lagInv_step hlim) (lagInv_initial j lim)

/-- Without refusals there are no returned requests, and nobody is ahead. -/
theorem lagStep_of_good (hs : LagInv j 0 s) (h : GoodStep j s a t) : LagStep j 0 s a t := by
  refine ⟨h.1, ?_⟩
  obtain ⟨hstep, hallowed⟩ := h
  cases hstep with
  | @deliver m o hm =>
    have hnot : m.msg.isRequest → m.msg.system ≠ .returned := fun hreq hsys =>
      (hs.wireReturned m hm hreq hsys).1 rfl
    refine ⟨?_, fun _ => hallowed.2, fun hreq hsys => absurd hsys (hnot hreq)⟩
    by_cases hsys : m.msg.system = .returned
    · have hrep : m.msg.isRequest = false := by
        by_contra hreq
        exact hnot (by simpa using hreq) hsys
      have htime := hallowed.1
      rw [Timely, hrep] at htime
      rw [OnTime, if_pos hsys]
      simpa using htime
    · rw [OnTime, if_neg hsys]
      exact hallowed.1
  | undeliverable _ => exact hallowed.elim
  | acquire | send | sendFail | abandon | loopback | loopbackRefused | retransmit => trivial

omit [DecidableEq Node] in
theorem Inv.of_lag (hs : LagInv j 0 s) : Inv j s where
  reqSeq := hs.reqSeq
  repSeq := hs.repSeq
  gens p q i := by
    have hwin := hs.window p q i
    obtain hle | hnext := hs.gens p q i
    · exact Or.inl (by omega)
    · exact Or.inr hnext
  buffer := hs.buffer
  issued := hs.issued
  uid := hs.uid
  slot := hs.slot
  wireRequest m hm hreq :=
    hs.wireRequest m hm hreq fun hsys => (hs.wireReturned m hm hreq hsys).1 rfl
  wireReply := hs.wireReply
  cached := hs.cached
  ran := hs.ran
  replied := hs.replied
  ranOnce := hs.ranOnce
  repliedOnce := hs.repliedOnce
  pending := hs.pending
  hint := hs.hint

theorem inv_reachable (h : Reachable (GoodStep j) initial s) : Inv j s :=
  .of_lag (h.invariant (fun hstep hs => lagInv_step (by omega) (lagStep_of_good hs hstep) hs)
    (lagInv_initial j 0))

/-- Every request handler runs at most once for each request, every reply handler at most once
and with the reply made for that very request, and the sequence numbers of requester and
replier are equal, or the replier's is the next one while the request is outstanding. -/
theorem amudp_exactly_once (h : Reachable (GoodStep j) initial s) :
    (∀ u, s.log.countP (Event.isRequest u) ≤ 1) ∧
    (∀ u, s.log.countP (Event.isReply u) ≤ 1) ∧
    (∀ u v b, Event.reply u v b ∈ s.log → v = u ∧ Event.request u (some b) ∈ s.log) ∧
    ∀ p q i, (s.repDesc q p i).seqNum = (s.reqDesc p q i).seqNum ∨
      (s.repDesc q p i).seqNum = seqInc (s.reqDesc p q i).seqNum ∧
        (s.reqDesc p q i).buffer ≠ none := by
  have hs := inv_reachable h
  refine ⟨hs.ranOnce, hs.repliedOnce, fun u v b hu => ?_, fun p q i => ?_⟩
  · obtain ⟨hv, hran, _⟩ := hs.replied u v b hu
    exact ⟨hv, hran⟩
  · rw [hs.repSeq, hs.reqSeq, seqInc_mod]
    obtain he | ⟨he, hbuf⟩ := hs.gens p q i
    · exact Or.inl (by rw [he])
    · exact Or.inr ⟨by rw [he], hbuf⟩

/-- Two endpoints with one instance each. -/
def pair : Job Bool :=
  ⟨fun _ => ⟨1, Nat.one_pos, one_le_depth, 1, AM_ALL, fun _ => true, 0, 0⟩, fun _ _ => 0, fun _ => 0⟩

/-- A request that arrives twice and is answered twice, then its reply, twice. -/
def duplicated : State Bool :=
  let x : Pending Bool := ⟨true, 0, 0, .empty⟩
  let o : Choice := ⟨some .empty, true, true⟩
  let s := initial.acquire false true .empty (0, 0, 0)
  let m := s.request pair false x
  let r := m.replyTo 0 0 o
  ((((s.send pair false x).deliver pair m o).deliver pair m o).deliver pair r o).deliver pair r o

theorem duplicated_reachable : Reachable (GoodStep pair) initial duplicated :=
  ⟨_, .stepL ⟨.acquire (by decide) (by decide) (by decide), trivial⟩ <|
    .stepL ⟨.send (by decide) (by decide), trivial⟩ <|
    .stepL ⟨.deliver (by decide), by unfold Allowed Timely; decide⟩ <|
    .stepL ⟨.deliver (by decide), by unfold Allowed Timely; decide⟩ <|
    .stepL ⟨.deliver (by decide), by unfold Allowed Timely; decide⟩ <|
    .stepL ⟨.deliver (by decide), by unfold Allowed Timely; decide⟩ .refl⟩

theorem amudp_exactly_once_duplicated :
    duplicated.log.countP (Event.isReply 0) ≤ 1 :=
  (amudp_exactly_once duplicated_reachable).2.1 0

/-! A request that is outstanding can always be completed. -/
variable {p q : Node} {i : Nat}

/-- A replier keeps its answer to the last request of an instance. -/
def KeepsLast (s : State Node) : Prop := ∀ q p i, (s.repDesc q p i).gen = 0 ∨
  ∃ r, (s.repDesc q p i).buffer = some r ∧ r.src = q ∧ r.dst = p ∧ r.msg.inst = i ∧
    r.gen + 1 = (s.repDesc q p i).gen

theorem keepsLast_step (hs : LagInv j 0 s) (h : GoodStep j s a t) (hk : KeepsLast s) :
    KeepsLast t := by
  have hsame (he : ∀ q p i, t.repDesc q p i = s.repDesc q p i) : KeepsLast t := by
    simpa only [KeepsLast, he] using hk
  obtain ⟨hstep, hallowed⟩ := h
  cases hstep with
  | acquire _ _ ha => exact hsame (quiet_acquire hs.core ha).1.rep
  | send hr _ => exact hsame (issue_send hs.core hr).rep
  | sendFail hr _ => exact hsame (quiet_sendFail hs.core hr).1.rep
  | abandon _ => exact hsame (quiet_abandon hs.core).1.rep
  | loopback _ | loopbackRefused _ | retransmit _ => exact hk
  | undeliverable _ => exact hallowed.elim
  | @deliver m o hm =>
    by_cases hreq : m.msg.isRequest = true
    · have hacc := hallowed.2 hreq
      have hmem := hs.wireRequest m hm hreq fun hsys => (hs.wireReturned m hm hreq hsys).1 rfl
      have hdeliver := deliver_request (o := o) hs.core hmem hacc
      split at hdeliver
      · rename_i hseq
        obtain ⟨ws, he⟩ := hdeliver
        have hgen := (current_of_accepted hs (by omega) hmem hacc hseq
          (by simpa [Timely, hreq, State.repDesc] using hallowed.1)).1
        refine cases_at m.dst m.src m.msg.inst (Or.inr ?_) fun q p i hne => ?_
        · rw [he.self]
          exact ⟨_, rfl, rfl, rfl, packWord_div _ ((inst_lt_of_accepted hacc).trans_le
            (j.config m.dst).depth_le), congrArg Nat.succ hgen⟩
        · rw [he.other q p i hne]
          exact hk q p i
      · exact hdeliver.elim fun _ he => hsame he.1.1.rep
    · by_cases hsys : m.msg.system = .returned
      · exact hsame (quiet_returned hs.core hsys hreq).1.rep
      · cases hacc : (j.config m.dst).refuse m.msg with
        | some err => exact hsame (quiet_refused hs.core hsys hacc).1.rep
        | none =>
          have hdeliver := deliver_reply (o := o) hs.core (by simpa using hreq) hsys hacc
          split at hdeliver
          · exact hdeliver.elim fun _ he => hsame he.1.rep
          · exact hsame hdeliver.1.rep

/-- What is sent when `m` arrives. -/
def State.answers (j : Job Node) (s : State Node) (m : Packet Node) (o : Choice) :
    List (Packet Node) :=
  (processPacket (j.config m.dst) (j.remoteTag m.dst m.src) (j.idHint m.dst) (s.ep m.dst) m o).2.1

theorem exists_answer (hs : LagInv j 0 s) (hk : KeepsLast s) (ho : o.autoSent) (hresend : o.resend)
    (hm : (s.reqDesc m.src m.dst m.msg.inst).buffer = some m)
    (hq : (j.config m.dst).refuse m.msg = none) :
    ∃ r ∈ s.answers j m o, r.src = m.dst ∧ r.dst = m.src ∧ r.msg.inst = m.msg.inst ∧
      r.gen = m.gen ∧ r.msg.isRequest = false ∧ r.msg.system ≠ .returned := by
  obtain ⟨hmem, _, _, _, hgen⟩ := hs.buffer _ _ _ _ hm
  have hi := hs.issued m hmem
  have hseq := hi.seqnum
  have hrep : ((s.ep m.dst).rep m.src m.msg.inst).seqNum = _ := hs.repSeq m.dst m.src m.msg.inst
  have hgens := hs.gens m.src m.dst m.msg.inst
  have hwin := hs.window m.src m.dst m.msg.inst
  have hproc : s.answers j m o =
      (processRequest (j.remoteTag m.dst m.src) (j.idHint m.dst) (s.ep m.dst) m o).2.1 := by
    simp [State.answers, processPacket, hi.system, hq, hi.isRequest]
  rw [hproc]
  unfold processRequest
  dsimp only
  obtain he | he : (s.repDesc m.dst m.src m.msg.inst).gen = m.gen ∨
      (s.repDesc m.dst m.src m.msg.inst).gen = m.gen + 1 := by omega
  · rw [if_neg (by rw [hseq, hrep, he]; simp)]
    refine ⟨m.replyTo (j.remoteTag m.dst m.src) (j.idHint m.dst) o, by simp [ho], rfl, rfl,
      packWord_div _ ((inst_lt_of_accepted hq).trans_le (j.config m.dst).depth_le), rfl, rfl, ?_⟩
    simp only [Packet.replyTo]
    split <;> simp
  · rw [if_pos (by rw [hseq, hrep]; omega), if_neg (by rw [hseq, hrep, he, seqInc_mod]; simp)]
    obtain h0 | ⟨r, hr, hsrc, hdst, hinst, hlast⟩ := hk m.dst m.src m.msg.inst
    · omega
    · obtain ⟨_, hm'⟩ := hs.cached _ _ _ _ hr
      change ((s.ep m.dst).rep m.src m.msg.inst).buffer = some r at hr
      exact ⟨r, by simp [hresend, hr], hsrc, hdst, hinst, by omega, hm'.isRequest, hm'.system⟩

end Gasnet.Amudp
