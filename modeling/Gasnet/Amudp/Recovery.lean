import Gasnet.Amudp.Abandoned

/-! Runs in which requests are given up, and what the next request of an instance gets. -/
namespace Gasnet.Amudp

variable {Node : Type} {j : Job Node} {s t : State Node} {m r : Packet Node} {es : List Event}

/-- An accepted reply ends the request that waits for it, or only moves the number on. -/
theorem rec_acceptReply (hs : RecInv j s) (h : Retire s t m.src m.dst m.msg.inst es)
    (hr : AnswerTo s m r) (hgen : m.gen = (s.reqDesc m.src m.dst m.msg.inst).gen)
    (hinst : m.msg.inst < (j.config m.src).depth)
    (hes : es = [] ∨ ∃ x, (s.reqDesc m.src m.dst m.msg.inst).buffer = some x ∧
      r.msg.system = .user ∧ es = [.reply x.uid r.uid r.msg.body]) : RecInv j t := by
  have hnext : (s.repDesc m.dst m.src m.msg.inst).gen =
      (s.reqDesc m.src m.dst m.msg.inst).gen + 1 := by
    have hacc := hr.accepted
    have := hs.gens m.src m.dst m.msg.inst
    omega
  -- the waiting request is the one the reply was made for
  have howner : ∀ x, (s.reqDesc m.src m.dst m.msg.inst).buffer = some x → x = m := by
    intro x hx
    obtain ⟨hxm, hxs, hxd, hxi, hxg⟩ := hs.buffer _ _ _ _ hx
    exact hs.once x hxm m hr.issued hxs hxd hxi (hxg.trans hgen.symm)
      (hs.current _ _ _ _ hx hnext).1 hr.ran
  have howed : Owed s m.src m.dst m.msg.inst es := by
    obtain rfl | ⟨x, hx, hsys, rfl⟩ := hes
    · exact Or.inl (by simp)
    · obtain rfl := howner x hx
      exact Or.inr ⟨x, r, hr.toReplyTo, rfl, hgen, hsys, rfl⟩
  have hexec : ∀ u, Executed t u → Executed s u := fun u hu => hu.imp fun _ => howed.mem h
  have hall : ∀ x ∈ t.wire, Sendable t x := fun x hx =>
    sendable_mono h.grows (sendable_of_mem hs (h.wire ▸ hx))
  refine
    { core_retire hs.core h hinst howed with
      gens := fun p q i => ?_
      place := fun x hx hxg => ?_
      once := fun x hx y hy h₁ h₂ h₃ h₄ hu hv =>
        hs.once x (h.issued ▸ hx) y (h.issued ▸ hy) h₁ h₂ h₃ h₄ (hexec _ hu) (hexec _ hv)
      current := fun p q i x hx hlt => ?_
      settled := fun x hx hlt => ?_
      wireRequest := fun x hx => (hall x hx).request
      wireReply := fun x hx => (hall x hx).reply
      cached := fun q p i x hx => ?_ }
  · rw [h.rep]
    obtain he | ⟨⟨rfl, rfl, rfl⟩, _, he⟩ := h.eq_or p q i
    · rw [he]
      exact hs.gens p q i
    · rw [he]
      exact Or.inl hnext
  · rw [h.issued] at hx
    have hle := (hs.issued x hx).le
    obtain he | ⟨_, _, he⟩ := h.eq_or x.src x.dst x.msg.inst
    · rw [he] at hxg ⊢
      exact (hs.place x hx hxg).imp_right (h.grows.log _)
    · omega
  · obtain he | ⟨_, hnone, _⟩ := h.eq_or p q i
    · rw [he] at hx hlt
      rw [h.rep] at hlt
      obtain ⟨hu, hkept⟩ := hs.current p q i x hx hlt
      refine ⟨executed_mono h.grows hu, ?_⟩
      rw [h.rep]
      exact hkept
    · simp [hnone] at hx
  · rw [h.issued] at hx
    by_cases hold : x.gen < (s.reqDesc x.src x.dst x.msg.inst).gen
    · exact (hs.settled x hx hold).imp (executed_mono h.grows) (h.grows.log _)
    · obtain he | ⟨⟨hxs, hxd, hxi⟩, _⟩ := h.eq_or x.src x.dst x.msg.inst
      · rw [he] at hlt
        exact absurd hlt hold
      · obtain hcur | hret := hs.place x hx (le_antisymm (hs.issued x hx).le (not_lt.mp hold))
        · rw [hxs, hxd, hxi] at hcur
          rw [howner x hcur]
          exact Or.inl (executed_mono h.grows hr.ran)
        · exact Or.inr (h.grows.log _ hret)
  · rw [h.rep] at hx
    exact (hs.cached q p i x hx).imp fun _ hm' => answerTo_mono h.grows hm'

/-- A new request takes a free descriptor whose number its receiver expects. -/
theorem rec_issue (hs : RecInv j s) (h : Issue s t m) (hsame : SameNumber s m.src m.dst m.msg.inst) :
    RecInv j t := by
  have hgen := h.gen
  have hexec : ∀ u, Executed t u ↔ Executed s u := fun u => by rw [Executed, h.log, Executed]
  have hlevel : (s.repDesc m.dst m.src m.msg.inst).gen = (s.reqDesc m.src m.dst m.msg.inst).gen := by
    rw [SameNumber, hs.repSeq, hs.reqSeq] at hsame
    have := hs.gens m.src m.dst m.msg.inst
    omega
  have hfirst : ¬Executed s m.uid := by
    rintro ⟨b, hb⟩
    exact absurd h.new (hs.ran _ b hb).1.ne
  have hall : ∀ x ∈ t.wire, Sendable t x := by
    intro x hx
    rw [h.wire] at hx
    obtain rfl | hx := List.mem_cons.mp hx
    · exact ⟨fun _ => by simp [h.issued], fun hreq => by simp [h.isRequest] at hreq⟩
    · exact sendable_mono h.grows (sendable_of_mem hs hx)
  refine
    { core_issue hs.core h with
      gens := fun p q i => by rw [(h.same p q i).1, h.rep]; exact hs.gens p q i
      place := fun x hx hxg => ?_
      once := fun x hx y hy h₁ h₂ h₃ h₄ hu hv => ?_
      current := fun p q i x hx hnext => ?_
      settled := fun x hx hlt => ?_
      wireRequest := fun x hx => (hall x hx).request
      wireReply := fun x hx => (hall x hx).reply
      cached := fun q p i x hx => ?_ }
  · rw [h.issued] at hx
    rw [(h.same _ _ _).1] at hxg
    obtain rfl | hx := List.mem_cons.mp hx
    · exact Or.inl (by rw [h.self])
    · obtain hcur | hret := hs.place x hx hxg
      · left
        rw [h.other, hcur]
        rintro he
        obtain ⟨hxs, hxd, hxi⟩ : x.src = m.src ∧ x.dst = m.dst ∧ x.msg.inst = m.msg.inst := by
          simpa using he
        rw [hxs, hxd, hxi, h.free] at hcur
        simp at hcur
      · exact Or.inr (h.grows.log _ hret)
  · rw [hexec] at hu hv
    rw [h.issued] at hx hy
    obtain rfl | hx := List.mem_cons.mp hx
    · exact absurd hu hfirst
    · obtain rfl | hy := List.mem_cons.mp hy
      · exact absurd hv hfirst
      · exact hs.once x hx y hy h₁ h₂ h₃ h₄ hu hv
  · rw [(h.same p q i).1, h.rep] at hnext
    by_cases he : (p, q, i) = (m.src, m.dst, m.msg.inst)
    · obtain ⟨rfl, rfl, rfl⟩ : p = m.src ∧ q = m.dst ∧ i = m.msg.inst := by simpa using he
      omega
    · rw [h.other p q i he] at hx
      obtain ⟨hu, hkept⟩ := hs.current p q i x hx hnext
      refine ⟨executed_mono h.grows hu, ?_⟩
      rw [h.rep]
      exact hkept
  · rw [h.issued] at hx
    rw [(h.same _ _ _).1] at hlt
    obtain rfl | hx := List.mem_cons.mp hx
    · omega
    · exact (hs.settled x hx hlt).imp (executed_mono h.grows) (h.grows.log _)
  · rw [h.rep] at hx
    exact (hs.cached q p i x hx).imp fun _ hm' => answerTo_mono h.grows hm'

end Gasnet.Amudp
