import Gasnet.Amudp.Runs

/-! Requests that are given up: the invariant of an instance whose number is used again. -/
namespace Gasnet.Amudp

variable {Node : Type} {j : Job Node} {s t : State Node} {u : Nat} {m r : Packet Node}
  {o : Choice} {ws : List (Packet Node)} {es : List Event}

/-- The receiver and the requester of an instance expect the same number. -/
def SameNumber (s : State Node) (p q : Node) (i : Nat) : Prop :=
  (s.repDesc q p i).seqNum = (s.reqDesc p q i).seqNum

/-- The handler of the request `u` has run. -/
def Executed (s : State Node) (u : Nat) : Prop := ∃ b, Event.request u b ∈ s.log

/-- No datagram is too late and no request refused; a request is sent only where the receiver
expects its number; and no request that was given up is executed once its number is used by
another. -/
def RecoveryAllowed (j : Job Node) (s : State Node) : Action Node → Prop
  | .deliver m _ =>
    Timely s m ∧ (m.msg.isRequest → (j.config m.dst).refuse m.msg = none ∧
      (m.msg.seqnum = (s.repDesc m.dst m.src m.msg.inst).seqNum →
        ∀ m', (s.reqDesc m.src m.dst m.msg.inst).buffer = some m' → m' = m))
  | .send p => ∀ r, (s.ep p).pending = some r → SameNumber s p r.dst r.desc
  | _ => True

def RecoveryStep [DecidableEq Node] (j : Job Node) (s : State Node) (a : Action Node) (t : State Node) : Prop :=
  Step j s a t ∧ RecoveryAllowed j s a

/-- A reply to `m`, whose handler has run. -/
structure AnswerTo (s : State Node) (m r : Packet Node) : Prop extends ReplyTo s m r where
  ran : Executed s m.uid

/-- The request `m` was executed and its reply is the one kept for duplicates. -/
def Answered (s : State Node) (p q : Node) (i : Nat) (m : Packet Node) : Prop :=
  Executed s m.uid ∧ ∃ r, (s.repDesc q p i).buffer = some r ∧ r.uid = m.uid

structure RecInv (j : Job Node) (s : State Node) : Prop where
  reqSeq : ∀ p q i, (s.reqDesc p q i).seqNum = (s.reqDesc p q i).gen % 64
  repSeq : ∀ q p i, (s.repDesc q p i).seqNum = (s.repDesc q p i).gen % 64
  gens : ∀ p q i, (s.repDesc q p i).gen = (s.reqDesc p q i).gen ∨
    (s.repDesc q p i).gen = (s.reqDesc p q i).gen + 1
  buffer : ∀ p q i m, (s.reqDesc p q i).buffer = some m →
    m ∈ s.issued ∧ m.src = p ∧ m.dst = q ∧ m.msg.inst = i ∧ m.gen = (s.reqDesc p q i).gen
  issued : ∀ m ∈ s.issued, SentInv s m
  place : ∀ m ∈ s.issued, m.gen = (s.reqDesc m.src m.dst m.msg.inst).gen →
    (s.reqDesc m.src m.dst m.msg.inst).buffer = some m ∨ Event.returned m.uid ∈ s.log
  uid : ∀ m ∈ s.issued, ∀ m' ∈ s.issued, m.uid = m'.uid → m = m'
  once : ∀ m ∈ s.issued, ∀ m' ∈ s.issued, m.src = m'.src → m.dst = m'.dst →
    m.msg.inst = m'.msg.inst → m.gen = m'.gen → Executed s m.uid → Executed s m'.uid → m = m'
  current : ∀ p q i m, (s.reqDesc p q i).buffer = some m →
    (s.repDesc q p i).gen = (s.reqDesc p q i).gen + 1 → Answered s p q i m
  settled : ∀ m ∈ s.issued, m.gen < (s.reqDesc m.src m.dst m.msg.inst).gen →
    Executed s m.uid ∨ Event.returned m.uid ∈ s.log
  wireRequest : ∀ m ∈ s.wire, m.msg.isRequest = true → m ∈ s.issued
  wireReply : ∀ r ∈ s.wire, r.msg.isRequest = false → r.msg.system ≠ .returned →
    ∃ m, AnswerTo s m r
  cached : ∀ q p i r, (s.repDesc q p i).buffer = some r → ∃ m, AnswerTo s m r
  ran : ∀ u b, Event.request u b ∈ s.log → u < s.fresh ∧
    ∀ m ∈ s.issued, m.uid = u → m.gen < (s.repDesc m.dst m.src m.msg.inst).gen
  replied : ∀ u o b, Event.reply u o b ∈ s.log →
    o = u ∧ Event.request u (some b) ∈ s.log ∧ u < s.fresh ∧
      ∀ m ∈ s.issued, m.uid = u → m.gen < (s.reqDesc m.src m.dst m.msg.inst).gen
  ranOnce : ∀ u, s.log.countP (Event.isRequest u) ≤ 1
  repliedOnce : ∀ u, s.log.countP (Event.isReply u) ≤ 1
  pending : ∀ p r, (s.ep p).pending = some r →
    r.desc = r.inst ∧ r.inst < (j.config p).depth ∧ (s.reqDesc p r.dst r.inst).buffer = none
  hint : ∀ p q, (s.ep p).hint q < (j.config p).depth

theorem executed_mono (h : Grows s t) (hu : Executed s u) : Executed t u :=
  hu.imp fun _ hb => h.log _ hb

theorem answerTo_mono (h : Grows s t) (hr : AnswerTo s m r) : AnswerTo t m r :=
  ⟨replyTo_mono h hr.toReplyTo, executed_mono h hr.ran⟩

theorem recInv_initial (j : Job Node) : RecInv j (initial : State Node) where
  reqSeq _ _ _ := rfl
  repSeq _ _ _ := rfl
  gens _ _ _ := Or.inl rfl
  buffer _ _ _ _ h := by simp [initial, State.reqDesc, Endpoint.initial] at h
  issued _ h := by simp [initial] at h
  place _ h := by simp [initial] at h
  uid _ h := by simp [initial] at h
  once _ h := by simp [initial] at h
  current _ _ _ _ h := by simp [initial, State.reqDesc, Endpoint.initial] at h
  settled _ h := by simp [initial] at h
  wireRequest _ h := by simp [initial] at h
  wireReply _ h := by simp [initial] at h
  cached _ _ _ _ h := by simp [initial, State.repDesc, Endpoint.initial] at h
  ran _ _ h := by simp [initial] at h
  replied _ _ _ h := by simp [initial] at h
  ranOnce _ := by simp [initial]
  repliedOnce _ := by simp [initial]
  pending _ _ h := by simp [initial, Endpoint.initial] at h
  hint p _ := (j.config p).depth_pos

/-- A datagram that may be on the wire. -/
structure Sendable (s : State Node) (r : Packet Node) : Prop where
  request : r.msg.isRequest = true → r ∈ s.issued
  reply : r.msg.isRequest = false → r.msg.system ≠ .returned → ∃ m, AnswerTo s m r

theorem sendable_of_mem (hs : RecInv j s) (hr : r ∈ s.wire) : Sendable s r :=
  ⟨hs.wireRequest r hr, hs.wireReply r hr⟩

theorem sendable_mono (h : Grows s t) (hr : Sendable s r) : Sendable t r :=
  ⟨fun hq => h.issued r (hr.request hq),
    fun hq hsys => (hr.reply hq hsys).imp fun _ hm => answerTo_mono h hm⟩

theorem sendable_issued (hs : RecInv j s) (hm : m ∈ s.issued) : Sendable s m :=
  ⟨fun _ => hm, fun h => by simp [(hs.issued m hm).isRequest] at h⟩

theorem sendable_answerTo (hr : AnswerTo s m r) : Sendable s r :=
  ⟨fun h => by simp [hr.isRequest] at h, fun _ _ => ⟨m, hr⟩⟩

/-- An executed request is the one its instance was executed for last, or an earlier one. -/
theorem Executed.gen_lt (hs : RecInv j s) (hm : m ∈ s.issued) (hu : Executed s m.uid) :
    m.gen < (s.repDesc m.dst m.src m.msg.inst).gen := by
  obtain ⟨b, hb⟩ := hu
  exact (hs.ran _ b hb).2 m hm rfl

theorem RecInv.core (hs : RecInv j s) : Core j s := { hs with }

/-- Steps that keep all numbers: they resend, return, give up or move hints. -/
theorem rec_quiet (hs : RecInv j s) (h : Releasing j ws es s t) (hws : ∀ r ∈ ws, Sendable s r) :
    RecInv j t := by
  have hran : ∀ u, Executed t u → Executed s u := fun u hu =>
    hu.imp fun b hb => h.mem hb (by simp)
  have hall : ∀ r ∈ t.wire, Sendable t r := by
    intro r hr
    rw [h.wire] at hr
    obtain hr | hr := List.mem_append.mp hr
    · exact sendable_mono h.grows (hws r hr)
    · exact sendable_mono h.grows (sendable_of_mem hs hr)
  refine
    { core_releasing hs.core h with
      gens := fun p q i => by rw [h.gen, h.rep]; exact hs.gens p q i
      place := fun m hm he => ?_
      once := fun m hm m' hm' h₁ h₂ h₃ h₄ hu hu' =>
        hs.once m (h.issued ▸ hm) m' (h.issued ▸ hm') h₁ h₂ h₃ h₄ (hran _ hu) (hran _ hu')
      current := fun p q i m hm he => ?_
      settled := fun m hm hlt => ?_
      wireRequest := fun x hx => (hall x hx).request
      wireReply := fun x hx => (hall x hx).reply
      cached := fun q p i r hr => ?_ }
  · rw [h.issued] at hm
    rw [h.gen] at he
    obtain hcur | hret := hs.place m hm he
    · obtain hsame | ⟨_, hback⟩ := h.buffer m.src m.dst m.msg.inst
      · exact Or.inl (hsame.trans hcur)
      · exact Or.inr (by simp [h.log, hback m hcur])
    · exact Or.inr (h.grows.log _ hret)
  · rw [h.gen, h.rep] at he
    obtain ⟨hu, hkept⟩ := hs.current p q i m (h.some hm) he
    refine ⟨executed_mono h.grows hu, ?_⟩
    rw [h.rep]
    exact hkept
  · rw [h.issued] at hm
    rw [h.gen] at hlt
    exact (hs.settled m hm hlt).imp (executed_mono h.grows) (h.grows.log _)
  · rw [h.rep] at hr
    exact (hs.cached q p i r hr).imp fun _ hm => answerTo_mono h.grows hm

theorem rec_acceptRequest (hs : RecInv j s) (h : Accept s t m r ws o) (hm : m ∈ s.issued)
    (hgen : m.gen = (s.repDesc m.dst m.src m.msg.inst).gen)
    (hcur : m.gen = (s.reqDesc m.src m.dst m.msg.inst).gen)
    (hfree : ∀ m', (s.reqDesc m.src m.dst m.msg.inst).buffer = some m' → m' = m)
    (hr : ReplyTo t m r) : RecInv j t := by
  have hself' : Executed t m.uid := ⟨o.reply, by simp [h.log]⟩
  have hanswer : AnswerTo t m r := ⟨hr, hself'⟩
  have hexec : ∀ u, Executed t u → Executed s u ∨ u = m.uid := by
    rintro u ⟨b, hb⟩
    rw [h.log] at hb
    obtain hb | hb := List.mem_append.mp hb
    · exact Or.inl ⟨b, hb⟩
    · obtain ⟨rfl, _⟩ : u = m.uid ∧ b = o.reply := by simpa using hb
      exact Or.inr rfl
  -- nobody has been executed for this number yet
  have hfirst : ∀ x ∈ s.issued, x.src = m.src → x.dst = m.dst → x.msg.inst = m.msg.inst →
      x.gen = m.gen → ¬Executed s x.uid := by
    intro x hx hxs hxd hxi hxg hu
    have := hu.gen_lt hs hx
    rw [hxs, hxd, hxi] at this
    omega
  have hall : ∀ x ∈ t.wire, Sendable t x := by
    intro x hx
    rw [h.wire] at hx
    obtain hx | hx := List.mem_append.mp hx
    · obtain rfl := h.sent x hx
      exact sendable_answerTo hanswer
    · exact sendable_mono h.grows (sendable_of_mem hs hx)
  refine
    { core_accept hs.core h hm hgen with
      gens := fun p q i => ?_
      place := fun x hx hxg => ?_
      once := fun x hx y hy hsrc hdst hinst hxy hu hv => ?_
      current := fun p q i x hx hnext => ?_
      settled := fun x hx hlt => ?_
      wireRequest := fun x hx => (hall x hx).request
      wireReply := fun x hx => (hall x hx).reply
      cached := cases_at m.dst m.src m.msg.inst (fun x hx => ?_) fun q p i he x hx => ?_ }
  · rw [h.req]
    by_cases he : (q, p, i) = (m.dst, m.src, m.msg.inst)
    · obtain ⟨rfl, rfl, rfl⟩ : q = m.dst ∧ p = m.src ∧ i = m.msg.inst := by simpa using he
      rw [h.self]
      right
      simp only [Desc.advance]
      omega
    · rw [h.other q p i he]
      exact hs.gens p q i
  · rw [h.issued] at hx
    rw [h.req] at hxg ⊢
    exact (hs.place x hx hxg).imp_right (h.grows.log _)
  · rw [h.issued] at hx hy
    obtain hu | hu := hexec _ hu <;> obtain hv | hv := hexec _ hv
    · exact hs.once x hx y hy hsrc hdst hinst hxy hu hv
    · obtain rfl := hs.uid y hy m hm hv
      exact absurd hu (hfirst x hx hsrc hdst hinst hxy)
    · obtain rfl := hs.uid x hx m hm hu
      exact absurd hv (hfirst y hy hsrc.symm hdst.symm hinst.symm hxy.symm)
    · exact hs.uid x hx y hy (hu.trans hv.symm)
  · rw [h.req] at hx hnext
    by_cases he : (q, p, i) = (m.dst, m.src, m.msg.inst)
    · obtain ⟨rfl, rfl, rfl⟩ : q = m.dst ∧ p = m.src ∧ i = m.msg.inst := by simpa using he
      obtain rfl := hfree x hx
      exact ⟨hself', r, by rw [h.self], hr.uid⟩
    · rw [h.other q p i he] at hnext
      obtain ⟨hu, hkept⟩ := hs.current p q i x hx hnext
      refine ⟨executed_mono h.grows hu, ?_⟩
      rw [h.other q p i he]
      exact hkept
  · rw [h.issued] at hx
    rw [h.req] at hlt
    exact (hs.settled x hx hlt).imp (executed_mono h.grows) (h.grows.log _)
  · rw [h.self] at hx
    obtain rfl := Option.some.inj hx
    exact ⟨m, hanswer⟩
  · rw [h.other q p i he] at hx
    exact (hs.cached q p i x hx).imp fun _ hm' => answerTo_mono h.grows hm'

end Gasnet.Amudp
