import Gasnet.Amudp.Effects

/-! Resent datagrams and accepted requests keep the invariant of good runs. -/
namespace Gasnet.Amudp

variable {Node : Type} {j : Job Node} {s t : State Node} {p q : Node} {i lim : Nat}
  {m r : Packet Node} {o : Choice} {ws : List (Packet Node)} {es : List Event}

/-- A datagram that may be on the wire. -/
structure OnWire (j : Job Node) (lim : Nat) (s : State Node) (r : Packet Node) : Prop where
  request : r.msg.isRequest = true → r.msg.system ≠ .returned → r ∈ s.issued
  returned : r.msg.isRequest = true → r.msg.system = .returned →
    lim ≠ 0 ∧ ∃ m ∈ s.issued, ReturnOf j m r
  reply : r.msg.isRequest = false → r.msg.system ≠ .returned → ∃ m, ReplyTo s m r

theorem onWire_of_mem (hs : LagInv j lim s) (hr : r ∈ s.wire) : OnWire j lim s r :=
  ⟨hs.wireRequest r hr, hs.wireReturned r hr, hs.wireReply r hr⟩

theorem onWire_mono (h : Grows s t) (hr : OnWire j lim s r) : OnWire j lim t r := by
  refine ⟨fun hq hsys => h.issued r (hr.request hq hsys), fun hq hsys => ?_, fun hq hsys => ?_⟩
  · obtain ⟨hlim, m, hm, hret⟩ := hr.returned hq hsys
    exact ⟨hlim, m, h.issued m hm, hret⟩
  · obtain ⟨m, hm⟩ := hr.reply hq hsys
    exact ⟨m, replyTo_mono h hm⟩

theorem onWire_issued (hs : LagInv j lim s) (hm : m ∈ s.issued) : OnWire j lim s m := by
  have hi := hs.issued m hm
  exact ⟨fun _ _ => hm, fun _ h => by simp [hi.system] at h, fun h => by simp [hi.isRequest] at h⟩

theorem onWire_replyTo (hr : ReplyTo s m r) : OnWire j lim s r :=
  ⟨fun h => by simp [hr.isRequest] at h, fun h => by simp [hr.isRequest] at h,
    fun _ _ => ⟨m, hr⟩⟩

theorem eq_of_mod_eq {g h : Nat} (hle : g ≤ h) (hlt : h < g + 64) (he : g % 64 = h % 64) :
    g = h := by
  omega

theorem issued_gen_le (hs : LagInv j lim s) (hm : m ∈ s.issued) :
    m.gen ≤ (s.reqDesc m.src m.dst m.msg.inst).gen := by
  obtain hlt | hbuf := (hs.issued m hm).place
  · omega
  · have := (hs.buffer _ _ _ _ hbuf).2.2.2.2
    omega

theorem LagInv.core (hs : LagInv j lim s) : Core j s :=
  { hs with
    issued := fun m hm => by
      have hi := hs.issued m hm
      exact ⟨hi.isRequest, hi.system, hi.seqnum, hi.uid, issued_gen_le hs hm⟩ }

theorem SentInv.requestInv (h : SentInv s m)
    (hplace : m.gen < (s.reqDesc m.src m.dst m.msg.inst).gen ∨
      (s.reqDesc m.src m.dst m.msg.inst).buffer = some m) : RequestInv s m :=
  ⟨h.isRequest, h.system, h.seqnum, h.uid, hplace⟩

theorem inv_quiet (hs : LagInv j lim s) (hq : Quiet j ws es s t)
    (hws : ∀ r ∈ ws, OnWire j lim s r) : LagInv j lim t := by
  obtain ⟨h, hreq⟩ := hq
  have hcore := core_releasing hs.core h
  have hall : ∀ r ∈ t.wire, OnWire j lim t r := by
    intro r hr
    rw [h.wire] at hr
    obtain hr | hr := List.mem_append.mp hr
    · exact onWire_mono h.grows (hws r hr)
    · exact onWire_mono h.grows (onWire_of_mem hs hr)
  exact
    { hcore with
      gens := fun p q i => by rw [hreq, h.rep]; exact hs.gens p q i
      window := fun p q i => by rw [hreq, h.rep]; exact hs.window p q i
      issued := fun m hm => (hcore.issued m hm).requestInv (by
        rw [hreq]
        exact (hs.issued m (h.issued ▸ hm)).place)
      slot := fun m hm m' hm' => hs.slot m (h.issued ▸ hm) m' (h.issued ▸ hm')
      depth := fun m hm => hs.depth m (h.issued ▸ hm)
      used := fun p q i g hg => by rw [hreq] at hg; rw [h.issued]; exact hs.used p q i g hg
      accepted := fun m hm hlt => by
        rw [h.issued] at hm
        rw [h.rep] at hlt
        exact hs.accepted m hm hlt
      skipped := fun m hm hle hlt => by
        rw [h.issued] at hm
        rw [h.rep] at hle
        rw [hreq] at hlt
        exact hs.skipped m hm hle hlt
      wireRequest := fun m hm => (hall m hm).request
      wireReturned := fun m hm => (hall m hm).returned
      wireReply := fun m hm => (hall m hm).reply
      cached := fun q p i r hr => by
        rw [h.rep] at hr
        exact (hs.cached q p i r hr).imp fun _ hm => replyTo_mono h.grows hm }

/-- The latest request of an instance is the one in its buffer. -/
theorem buffer_of_gen_eq (hs : LagInv j lim s) (hm : m ∈ s.issued)
    (hgen : m.gen = (s.reqDesc m.src m.dst m.msg.inst).gen) :
    (s.reqDesc m.src m.dst m.msg.inst).buffer = some m := by
  obtain hlt | hbuf := (hs.issued m hm).place
  · omega
  · exact hbuf

/-- An acceptable request whose number is the expected one is the current request of its
instance, which is in step. -/
theorem current_of_accepted (hs : LagInv j lim s) (hlim : lim ≤ 62) (hm : m ∈ s.issued)
    (hok : (j.config m.dst).refuse m.msg = none)
    (hseq : m.msg.seqnum = (s.repDesc m.dst m.src m.msg.inst).seqNum)
    (htime : (s.repDesc m.dst m.src m.msg.inst).gen < m.gen + 64) :
    m.gen = (s.repDesc m.dst m.src m.msg.inst).gen ∧
      m.gen = (s.reqDesc m.src m.dst m.msg.inst).gen := by
  have hle := issued_gen_le hs hm
  have hwin := hs.window m.src m.dst m.msg.inst
  rw [(hs.issued m hm).seqnum, hs.repSeq] at hseq
  by_cases hold : m.gen < (s.repDesc m.dst m.src m.msg.inst).gen
  · have := eq_of_mod_eq hold.le htime hseq
    omega
  · by_cases hcur : m.gen = (s.reqDesc m.src m.dst m.msg.inst).gen
    · have := @eq_of_mod_eq (s.repDesc m.dst m.src m.msg.inst).gen m.gen (by omega) (by omega)
        hseq.symm
      exact ⟨this.symm, hcur⟩
    · exact absurd hok (hs.skipped m hm (by omega) (by omega))

/-- A reply whose number is the expected one answers the waiting request. -/
theorem answers_of_gen_eq (hs : LagInv j lim s) (hr : ReplyTo s m r)
    (hgen : r.gen = (s.reqDesc r.dst r.src r.msg.inst).gen) :
    (s.reqDesc r.dst r.src r.msg.inst).buffer = some m ∧
      (s.repDesc r.src r.dst r.msg.inst).gen = r.gen + 1 := by
  have hplace := (hs.issued m hr.issued).place
  have hacc := hr.accepted
  have hgens := hs.gens m.src m.dst m.msg.inst
  rw [hr.dst, hr.src, hr.inst, hr.gen] at hgen ⊢
  obtain hlt | hbuf := hplace
  · omega
  · exact ⟨hbuf, by omega⟩

theorem reply_gen_le (hs : LagInv j lim s) (hr : ReplyTo s m r) :
    r.gen ≤ (s.reqDesc r.dst r.src r.msg.inst).gen := by
  rw [hr.gen, hr.dst, hr.src, hr.inst]
  exact issued_gen_le hs hr.issued

theorem replyTo_replyTo {tag idHint : Nat} (hseq : m.msg.seqnum = m.gen % 64)
    (hinst : m.msg.inst < 1024) (hissued : m ∈ t.issued)
    (hgen : m.gen < (t.repDesc m.dst m.src m.msg.inst).gen)
    (hlog : Event.request m.uid o.reply ∈ t.log) : ReplyTo t m (m.replyTo tag idHint o) where
  issued := hissued
  uid := rfl
  src := rfl
  dst := rfl
  inst := packWord_div _ hinst
  gen := rfl
  seqnum := by
    simp only [Packet.replyTo, Msg.seqnum, packWord_mod] at hseq ⊢
    omega
  isRequest := rfl
  system := by
    simp only [Packet.replyTo]
    split <;> simp
  accepted := hgen
  log hsys := by
    cases hreply : o.reply with
    | none => simp [Packet.replyTo, hreply] at hsys
    | some b => simpa [Packet.replyTo, hreply] using hlog

theorem inv_acceptRequest {tag idHint : Nat} (hs : LagInv j lim s)
    (h : Accept s t m (m.replyTo tag idHint o) ws o) (hm : m ∈ s.issued)
    (hinst : m.msg.inst < 1024) (hok : (j.config m.dst).refuse m.msg = none)
    (hgen : m.gen = (s.repDesc m.dst m.src m.msg.inst).gen)
    (hcur : m.gen = (s.reqDesc m.src m.dst m.msg.inst).gen) : LagInv j lim t := by
  have hcore := core_accept hs.core h hm hgen
  have hanswer : ReplyTo t m (m.replyTo tag idHint o) :=
    replyTo_replyTo (hs.issued m hm).seqnum hinst (h.issued ▸ hm) (h.lt hgen) (by simp [h.log])
  have hbuf := buffer_of_gen_eq hs hm hcur
  have hall : ∀ x ∈ t.wire, OnWire j lim t x := by
    intro x hx
    rw [h.wire] at hx
    obtain hx | hx := List.mem_append.mp hx
    · obtain rfl := h.sent x hx
      exact onWire_replyTo hanswer
    · exact onWire_mono h.grows (onWire_of_mem hs hx)
  refine
    { hcore with
      gens := fun p q i => ?_
      window := fun p q i => ?_
      issued := fun x hx => ?_
      slot := by simpa only [h.issued] using hs.slot
      depth := by simpa only [h.issued] using hs.depth
      used := by simpa only [h.req, h.issued] using hs.used
      accepted := fun x hx hlt => ?_
      skipped := fun x hx hle hlt => ?_
      wireRequest := fun x hx => (hall x hx).request
      wireReturned := fun x hx => (hall x hx).returned
      wireReply := fun x hx => (hall x hx).reply
      cached := cases_at m.dst m.src m.msg.inst (fun x hx => ?_) fun q p i he x hx => ?_ }
  · rw [h.req]
    by_cases he : (q, p, i) = (m.dst, m.src, m.msg.inst)
    · obtain ⟨rfl, rfl, rfl⟩ : q = m.dst ∧ p = m.src ∧ i = m.msg.inst := by simpa using he
      rw [h.self]
      refine Or.inr ⟨?_, by simp [hbuf]⟩
      simp only [Desc.advance]
      omega
    · rw [h.other q p i he]
      exact hs.gens p q i
  · rw [h.req]
    have := hs.window p q i
    have := h.rep q p i
    omega
  · refine (hcore.issued x hx).requestInv ?_
    rw [h.req]
    exact (hs.issued x (h.issued ▸ hx)).place
  · rw [h.issued] at hx
    by_cases he : (x.dst, x.src, x.msg.inst) = (m.dst, m.src, m.msg.inst)
    · obtain ⟨hxd, hxs, hxi⟩ : x.dst = m.dst ∧ x.src = m.src ∧ x.msg.inst = m.msg.inst := by
        simpa using he
      rw [hxd, hxs, hxi, h.self] at hlt
      simp only [Desc.advance] at hlt
      by_cases hxg : x.gen = m.gen
      · rw [hs.slot x hx m hm hxs hxd hxi hxg]
        exact hok
      · exact hs.accepted x hx (by rw [hxd, hxs, hxi]; omega)
    · rw [h.other _ _ _ he] at hlt
      exact hs.accepted x hx hlt
  · rw [h.issued] at hx
    rw [h.req] at hlt
    exact hs.skipped x hx ((h.rep _ _ _).trans hle) hlt
  · rw [h.self] at hx
    obtain rfl := Option.some.inj hx
    exact ⟨m, hanswer⟩
  · rw [h.other q p i he] at hx
    exact (hs.cached q p i x hx).imp fun _ hm' => replyTo_mono h.grows hm'

end Gasnet.Amudp
