import Gasnet.Amudp.Recovery

/-! Every request issued after one was given up is executed once and gets its own reply, as long
as the two ends of its instance agree when it is sent. -/
namespace Gasnet.Amudp

variable {Node : Type} [DecidableEq Node] {j : Job Node} {s t : State Node} {p q : Node}
  {i u : Nat} {m r : Packet Node} {o : Choice} {a : Action Node}

omit [DecidableEq Node] in
theorem rec_loopback (hs : RecInv j s) (reply : Option Body) : RecInv j (s.loopback reply) := by
  have hgrow := grows_loopback s reply
  have hexec : ∀ m ∈ s.issued, Executed (s.loopback reply) m.uid → Executed s m.uid := by
    rintro m hm ⟨b, hb⟩
    simp only [State.loopback, List.mem_append, List.mem_singleton] at hb
    obtain (hb | hb) | hb := hb
    · exact ⟨b, hb⟩
    · exact absurd (Event.request.inj hb).1 (hs.issued m hm).uid.ne
    · cases reply <;> simp at hb
  exact
    { core_loopback hs.core reply, hs with
      place := fun m hm he => (hs.place m hm he).imp_right (hgrow.log _)
      once := fun m hm m' hm' h₁ h₂ h₃ h₄ hu hu' =>
        hs.once m hm m' hm' h₁ h₂ h₃ h₄ (hexec m hm hu) (hexec m' hm' hu')
      current := fun p q i m hm he => (hs.current p q i m hm he).imp_left (executed_mono hgrow)
      settled := fun m hm hlt => (hs.settled m hm hlt).imp (executed_mono hgrow) (hgrow.log _)
      wireReply := fun x hx hxq hxs =>
        (hs.wireReply x hx hxq hxs).imp fun _ hm => answerTo_mono hgrow hm
      cached := fun q p i x hx => (hs.cached q p i x hx).imp fun _ hm => answerTo_mono hgrow hm }

theorem rec_deliverRequest (hs : RecInv j s) (hm : m ∈ s.issued) (htimely : Timely s m)
    (haccept : (j.config m.dst).refuse m.msg = none)
    (hfree : m.msg.seqnum = (s.repDesc m.dst m.src m.msg.inst).seqNum →
      ∀ m', (s.reqDesc m.src m.dst m.msg.inst).buffer = some m' → m' = m) :
    RecInv j (s.deliver j m o) := by
  have hi := hs.issued m hm
  have hinst : m.msg.inst < 1024 :=
    lt_of_lt_of_le (inst_lt_of_accepted haccept) (j.config m.dst).depth_le
  have hdeliver := deliver_request (o := o) hs.core hm haccept
  split at hdeliver
  · rename_i hseq
    obtain ⟨ws, h⟩ := hdeliver
    have hle := hi.le
    have hgens := hs.gens m.src m.dst m.msg.inst
    have hgen : m.gen = (s.repDesc m.dst m.src m.msg.inst).gen := by
      refine eq_of_mod_eq (by omega) ?_ ?_
      · simpa [Timely, hi.isRequest, State.repDesc] using htimely
      · rw [← hi.seqnum, hseq, hs.repSeq]
    exact rec_acceptRequest hs h hm hgen (by omega) (hfree hseq)
      (replyTo_replyTo hi.seqnum hinst hm (h.lt hgen) (by simp [h.log]))
  · obtain ⟨ws, h, hws⟩ := hdeliver
    refine rec_quiet hs h.1 fun r hr => ?_
    obtain ⟨m', hm'⟩ := hs.cached _ _ _ r (hws r hr)
    exact sendable_answerTo hm'

theorem rec_deliverReply (hs : RecInv j s) (hr : AnswerTo s m r) (htimely : Timely s r)
    (haccept : (j.config r.dst).refuse r.msg = none) : RecInv j (s.deliver j r o) := by
  have hdeliver := deliver_reply (o := o) hs.core hr.isRequest hr.system haccept
  have hinst := inst_lt_of_accepted haccept
  split at hdeliver
  · rename_i hseq
    obtain ⟨es, h, hes⟩ := hdeliver
    rw [hr.dst, hr.src, hr.inst] at h hes hseq
    rw [hr.dst, hr.inst] at hinst
    refine rec_acceptReply hs h hr ?_ hinst hes
    rw [← hr.gen]
    refine eq_of_mod_eq (hr.gen ▸ (hs.issued m hr.issued).le) ?_ ?_
    · simpa [Timely, hr.isRequest, State.reqDesc, hr.dst, hr.src, hr.inst] using htimely
    · rw [← hr.seqnum, hseq, hs.reqSeq]
  · exact rec_quiet hs hdeliver.1 (by simp)

theorem rec_deliver (hs : RecInv j s) (hm : m ∈ s.wire)
    (hallowed : RecoveryAllowed j s (.deliver m o)) : RecInv j (s.deliver j m o) := by
  obtain ⟨htime, hrequest⟩ := hallowed
  by_cases hreq : m.msg.isRequest = true
  · obtain ⟨haccept, hfree⟩ := hrequest hreq
    exact rec_deliverRequest hs (hs.wireRequest m hm hreq) htime haccept hfree
  · have hrep : m.msg.isRequest = false := by simpa using hreq
    by_cases hsys : m.msg.system = .returned
    · exact rec_quiet hs (quiet_returned hs.core hsys hreq).1 (by simp)
    · cases hacc : (j.config m.dst).refuse m.msg with
      | none =>
        obtain ⟨m', hm'⟩ := hs.wireReply m hm hrep hsys
        exact rec_deliverReply hs hm' htime hacc
      | some err =>
        refine rec_quiet hs (quiet_refused hs.core hsys hacc).1 fun x hx => ?_
        obtain rfl := List.mem_singleton.mp hx
        exact ⟨fun h => absurd h hreq, fun _ h => absurd rfl h⟩

theorem recInv_step (h : RecoveryStep j s a t) (hs : RecInv j s) : RecInv j t := by
  obtain ⟨h, hallowed⟩ := h
  cases h with
  | acquire _ _ ha => exact rec_quiet hs (quiet_acquire hs.core ha).1 (by simp)
  | send hr _ =>
    have hsame := hallowed _ hr
    rw [(hs.pending _ _ hr).1, ← request_inst hs.core hr] at hsame
    exact rec_issue hs (issue_send hs.core hr) hsame
  | sendFail hr _ => exact rec_quiet hs (quiet_sendFail hs.core hr).1 (by simp)
  | abandon _ => exact rec_quiet hs (quiet_abandon hs.core).1 (by simp)
  | loopback _ => exact rec_loopback hs _
  | @loopbackRefused p _ _ => exact rec_quiet hs (quiet_loopbackRefused p hs.core).1 (by simp)
  | deliver hm => exact rec_deliver hs hm hallowed
  | @retransmit p q i m hm =>
    refine rec_quiet hs (quiet_retransmit p hs.core).1 fun r hr => ?_
    obtain rfl := List.mem_singleton.mp hr
    exact sendable_issued hs (hs.buffer p q i r hm).1
  | undeliverable hm => exact rec_quiet hs (releasing_undeliverable hs.core hm) (by simp)

theorem recInv_reachable (h : Reachable (RecoveryStep j) initial s) : RecInv j s :=
  h.invariant recInv_step (recInv_initial j)

omit [DecidableEq Node] in
theorem executed_iff : Executed s u ↔ 0 < s.log.countP (Event.isRequest u) := by
  rw [List.countP_pos_iff]
  constructor
  · rintro ⟨b, hb⟩
    exact ⟨_, hb, by simp [Event.isRequest]⟩
  · rintro ⟨e, he, hu⟩
    cases e with
    | request v b =>
      obtain rfl : v = u := by simpa [Event.isRequest] using hu
      exact ⟨b, he⟩
    | reply | returned => simp [Event.isRequest] at hu

/-- The outstanding request of an instance is the one its receiver expects, and was not executed;
or it was, once, and its own reply is kept for its duplicates. -/
def OwnTurn (s : State Node) (p q : Node) (i : Nat) (m : Packet Node) : Prop :=
  SameNumber s p q i ∧ s.log.countP (Event.isRequest m.uid) = 0 ∨
    s.log.countP (Event.isRequest m.uid) = 1 ∧
      ∃ r, (s.repDesc q p i).buffer = some r ∧ r.uid = m.uid

/-- What a request gets: its handler and that of its reply run at most once, the reply is its
own, and it is executed exactly once unless it is still outstanding or was given up. -/
def Served (s : State Node) : Prop :=
  (∀ u, s.log.countP (Event.isRequest u) ≤ 1) ∧
  (∀ u, s.log.countP (Event.isReply u) ≤ 1) ∧
  (∀ u v b, Event.reply u v b ∈ s.log → v = u ∧ Event.request u (some b) ∈ s.log) ∧
  (∀ m ∈ s.issued, (s.reqDesc m.src m.dst m.msg.inst).buffer ≠ some m →
    Event.returned m.uid ∉ s.log → s.log.countP (Event.isRequest m.uid) = 1) ∧
  ∀ p q i m, (s.reqDesc p q i).buffer = some m → OwnTurn s p q i m

/-- In every run in which requests are given up, as long as a request is sent only where both
ends of its instance have the same number and a request that was given up is not executed once
its number is used again, every request gets what it should. -/
theorem amudp_recovery (h : Reachable (RecoveryStep j) initial s) : Served s := by
  have hs := recInv_reachable h
  have hone : ∀ u, Executed s u → s.log.countP (Event.isRequest u) = 1 := fun u hu =>
    le_antisymm (hs.ranOnce u) (executed_iff.mp hu)
  refine ⟨hs.ranOnce, hs.repliedOnce, fun u v b hu => ?_, fun m hm hout hret => ?_,
    fun p q i m hm => ?_⟩
  · obtain ⟨hv, hran, _⟩ := hs.replied u v b hu
    exact ⟨hv, hran⟩
  · obtain hlt | heq := (hs.issued m hm).le.lt_or_eq
    · exact hone _ ((hs.settled m hm hlt).resolve_right hret)
    · exact absurd ((hs.place m hm heq).resolve_right hret) hout
  · obtain hgen | hgen := hs.gens p q i
    · left
      refine ⟨by rw [SameNumber, hs.repSeq, hs.reqSeq, hgen], ?_⟩
      obtain ⟨hmem, rfl, rfl, rfl, hmg⟩ := hs.buffer p q i m hm
      by_contra hne
      have := (executed_iff.mpr (Nat.pos_of_ne_zero hne)).gen_lt hs hmem
      omega
    · obtain ⟨hu, hkept⟩ := hs.current p q i m hm hgen
      exact Or.inr ⟨hone _ hu, hkept⟩

/-- The request 0 is given up before it arrives; the request 1 is executed and answered. -/
def recovered : State Bool :=
  let x : Pending Bool := ⟨true, 0, 0, .empty⟩
  let o : Choice := ⟨some .empty, true, true⟩
  let s := initial.acquire false true .empty (0, 0, 0)
  let m := s.request pair false x
  let s := (s.send pair false x).undeliverable false true 0 m
  let s := s.acquire false true .empty (0, 0, 0)
  let m := s.request pair false x
  ((s.send pair false x).deliver pair m o).deliver pair (m.replyTo 0 0 o) o

theorem recovered_reachable : Reachable (RecoveryStep pair) initial recovered :=
  ⟨_, .stepL ⟨.acquire (by decide) (by decide) (by decide), trivial⟩ <|
    .stepL ⟨.send (by decide) (by decide), by
      unfold RecoveryAllowed SameNumber; decide⟩ <|
    .stepL ⟨.undeliverable (by decide), trivial⟩ <|
    .stepL ⟨.acquire (by decide) (by decide) (by decide), trivial⟩ <|
    .stepL ⟨.send (by decide) (by decide), by
      unfold RecoveryAllowed SameNumber; decide⟩ <|
    .stepL ⟨.deliver (by decide), by
      unfold RecoveryAllowed Timely; decide⟩ <|
    .stepL ⟨.deliver (by decide), by
      unfold RecoveryAllowed Timely; decide⟩ .refl⟩

theorem amudp_recovery_recovered : Served recovered := amudp_recovery recovered_reachable

/-- The request 0 is executed and given up; the request 1 is sent before the reply arrives. -/
def staleReply : State Bool :=
  let x : Pending Bool := ⟨true, 0, 0, .empty⟩
  let o : Choice := ⟨some .empty, true, true⟩
  let s := initial.acquire false true .empty (0, 0, 0)
  let m := s.request pair false x
  let s := ((s.send pair false x).deliver pair m o).undeliverable false true 0 m
  let s := s.acquire false true .empty (0, 0, 0)
  (s.send pair false x).deliver pair (m.replyTo 0 0 o) o

/-- The reply handler of the request 1 ran with the reply of the request 0, and the request 1 was
not executed, although no datagram was late and none refused. -/
theorem stale_reply :
    Reachable (fun s a t => Step pair s a t ∧ ∀ m o, a = .deliver m o →
      Timely s m ∧ (pair.config m.dst).refuse m.msg = none) initial staleReply ∧
      Event.reply 1 0 .empty ∈ staleReply.log ∧
      staleReply.log.countP (Event.isRequest 1) = 0 ∧ ¬Served staleReply := by
  have hrun : Event.reply 1 0 .empty ∈ staleReply.log := by decide
  refine ⟨?_, hrun, by decide, fun h => absurd (h.2.2.1 _ _ _ hrun).1 (by decide)⟩
  have hd : ∀ {s : State Bool} {m : Packet Bool} {o : Choice},
      Timely s m ∧ (pair.config m.dst).refuse m.msg = none → ∀ m' o',
        Action.deliver m o = .deliver m' o' →
        Timely s m' ∧ (pair.config m'.dst).refuse m'.msg = none := by
    rintro s m o h m' o' ⟨⟩
    exact h
  have hq : ∀ {s : State Bool} {a : Action Bool}, (∀ m o, a ≠ .deliver m o) → ∀ m o, a = .deliver m o →
      Timely s m ∧ (pair.config m.dst).refuse m.msg = none := fun h m o he => absurd he (h m o)
  let x : Pending Bool := ⟨true, 0, 0, .empty⟩
  let o : Choice := ⟨some .empty, true, true⟩
  let s1 : State Bool := initial.acquire false true .empty (0, 0, 0)
  let m := s1.request pair false x
  let s2 := s1.send pair false x
  let s3 := s2.deliver pair m o
  let s4 := s3.undeliverable false true 0 m
  let s5 := s4.acquire false true .empty (0, 0, 0)
  let s6 := s5.send pair false x
  let r := m.replyTo 0 0 o
  have h1 : Step pair initial (.acquire false true .empty) s1 := .acquire (by decide) (by decide) (by decide)
  have h2 : Step pair s1 (.send false) s2 := .send (by decide) (by decide)
  have h3 : Step pair s2 (.deliver m o) s3 := .deliver (by decide)
  have h4 : Step pair s3 (.undeliverable false true 0) s4 := .undeliverable (by decide)
  have h5 : Step pair s4 (.acquire false true .empty) s5 := .acquire (by decide) (by decide) (by decide)
  have h6 : Step pair s5 (.send false) s6 := .send (by decide) (by decide)
  have h7 : Step pair s6 (.deliver r o) staleReply := .deliver (by decide)
  have hm : Timely s2 m ∧ (pair.config m.dst).refuse m.msg = none := by
    unfold Timely
    decide
  have hr : Timely s6 r ∧ (pair.config r.dst).refuse r.msg = none := by
    unfold Timely
    decide
  exact ⟨_, .stepL ⟨h1, hq (fun _ _ => by simp)⟩ <| .stepL ⟨h2, hq (fun _ _ => by simp)⟩ <| .stepL ⟨h3, hd hm⟩ <|
    .stepL ⟨h4, hq (fun _ _ => by simp)⟩ <| .stepL ⟨h5, hq (fun _ _ => by simp)⟩ <|
    .stepL ⟨h6, hq (fun _ _ => by simp)⟩ <| .stepL ⟨h7, hd hr⟩ .refl⟩

end Gasnet.Amudp
