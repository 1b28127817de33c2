import Gasnet.Amudp.Preserve

/-! Completed and new requests and requests to oneself keep the invariant. -/
namespace Gasnet.Amudp

variable {Node : Type} {j : Job Node} {s t : State Node} {u lim : Nat} {m : Packet Node}
  {es : List Event}

/-- The request in a descriptor is answered or returned, and the requester goes on. -/
theorem inv_retire (hs : LagInv j lim s) (h : Retire s t m.src m.dst m.msg.inst es)
    (hbuf : (s.reqDesc m.src m.dst m.msg.inst).buffer = some m)
    (hwin : (s.reqDesc m.src m.dst m.msg.inst).gen <
      (s.repDesc m.dst m.src m.msg.inst).gen + lim)
    (hskip : (s.repDesc m.dst m.src m.msg.inst).gen ≤ m.gen →
      (j.config m.dst).refuse m.msg ≠ none)
    (ho : Owed s m.src m.dst m.msg.inst es) : LagInv j lim t := by
  obtain ⟨hm, _, _, _, hgen⟩ := hs.buffer _ _ _ _ hbuf
  have hcore := core_retire hs.core h (hs.depth m hm) ho
  have hall : ∀ x ∈ t.wire, OnWire j lim t x := fun x hx =>
    onWire_mono h.grows (onWire_of_mem hs (h.wire ▸ hx))
  refine
    { hcore with
      gens := fun p q i => ?_
      window := fun p q i => ?_
      issued := fun x hx => (hcore.issued x hx).requestInv ?_
      slot := by simpa only [h.issued] using hs.slot
      depth := by simpa only [h.issued] using hs.depth
      used := fun p q i g hg => ?_
      accepted := by simpa only [h.rep, h.issued] using hs.accepted
      skipped := fun x hx hle hlt => ?_
      wireRequest := fun x hx => (hall x hx).request
      wireReturned := fun x hx => (hall x hx).returned
      wireReply := fun x hx => (hall x hx).reply
      cached := fun q p i x hx => ?_ }
  · rw [h.rep]
    have hold := hs.gens p q i
    obtain he | ⟨_, _, he⟩ := h.eq_or p q i
    · rw [he]
      exact hold
    · rw [he]
      omega
  · rw [h.rep]
    obtain he | ⟨⟨rfl, rfl, rfl⟩, _, he⟩ := h.eq_or p q i
    · rw [he]
      exact hs.window p q i
    · rw [he]
      omega
  · have hold := (hs.issued x (h.issued ▸ hx)).place
    have hle := issued_gen_le hs (h.issued ▸ hx)
    obtain he | ⟨_, _, he⟩ := h.eq_or x.src x.dst x.msg.inst
    · rw [he]
      exact hold
    · rw [he]
      exact Or.inl (Nat.lt_succ_of_le hle)
  · rw [h.issued]
    obtain he | ⟨⟨rfl, rfl, rfl⟩, _, he⟩ := h.eq_or p q i
    · rw [he] at hg
      exact hs.used p q i g hg
    · rw [he] at hg
      by_cases hlast : g = m.gen
      · exact ⟨m, hm, rfl, rfl, rfl, hlast.symm⟩
      · exact hs.used _ _ _ g (by omega)
  · rw [h.issued] at hx
    rw [h.rep] at hle
    obtain he | ⟨⟨hxs, hxd, hxi⟩, _, he⟩ := h.eq_or x.src x.dst x.msg.inst
    · rw [he] at hlt
      exact hs.skipped x hx hle hlt
    · rw [he] at hlt
      by_cases hlast : x.gen = m.gen
      · obtain rfl := hs.slot x hx m hm hxs hxd hxi hlast
        exact hskip hle
      · refine hs.skipped x hx hle ?_
        rw [hxs, hxd, hxi] at hlt ⊢
        omega
  · rw [h.rep] at hx
    exact (hs.cached q p i x hx).imp fun _ hm' => replyTo_mono h.grows hm'

theorem inv_issue (hs : LagInv j lim s) (h : Issue s t m)
    (hdepth : m.msg.inst < (j.config m.src).depth) : LagInv j lim t := by
  have hcore := core_issue hs.core h
  have hgen := h.gen
  have hold : ∀ x ∈ s.issued, x.src = m.src → x.dst = m.dst → x.msg.inst = m.msg.inst →
      x.gen < m.gen := by
    intro x hx hxs hxd hxi
    have hplace := (hs.issued x hx).place
    rw [hxs, hxd, hxi, h.free, ← hgen] at hplace
    simpa using hplace
  have hgens := hs.gens m.src m.dst m.msg.inst
  simp only [h.free, ne_eq, not_true_eq_false, and_false, or_false] at hgens
  have hall : ∀ x ∈ t.wire, OnWire j lim t x := by
    intro x hx
    rw [h.wire] at hx
    obtain rfl | hx := List.mem_cons.mp hx
    · exact ⟨fun _ _ => by simp [h.issued], fun _ hsys => by simp [h.system] at hsys,
        fun hreq => by simp [h.isRequest] at hreq⟩
    · exact onWire_mono h.grows (onWire_of_mem hs hx)
  refine
    { hcore with
      gens := fun p q i => ?_
      window := fun p q i => by rw [h.rep, (h.same p q i).1]; exact hs.window p q i
      issued := fun x hx => (hcore.issued x hx).requestInv ?_
      slot := fun x hx y hy hsrc hdst hinst he => ?_
      depth := fun x hx => ?_
      used := fun p q i g hg => ?_
      accepted := fun x hx hlt => ?_
      skipped := fun x hx hle hlt => ?_
      wireRequest := fun x hx => (hall x hx).request
      wireReturned := fun x hx => (hall x hx).returned
      wireReply := fun x hx => (hall x hx).reply
      cached := fun q p i x hx => ?_ }
  · rw [h.rep, (h.same p q i).1]
    by_cases he : (p, q, i) = (m.src, m.dst, m.msg.inst)
    · obtain ⟨rfl, rfl, rfl⟩ : p = m.src ∧ q = m.dst ∧ i = m.msg.inst := by simpa using he
      exact Or.inl hgens
    · rw [h.other p q i he]
      exact hs.gens p q i
  · rw [h.issued] at hx
    obtain rfl | hx := List.mem_cons.mp hx
    · exact Or.inr (by rw [h.self])
    · rw [(h.same _ _ _).1]
      by_cases he : (x.src, x.dst, x.msg.inst) = (m.src, m.dst, m.msg.inst)
      · obtain ⟨hxs, hxd, hxi⟩ : x.src = m.src ∧ x.dst = m.dst ∧ x.msg.inst = m.msg.inst := by
          simpa using he
        have hlt := hold x hx hxs hxd hxi
        rw [hgen, ← hxs, ← hxd, ← hxi] at hlt
        exact Or.inl hlt
      · rw [h.other _ _ _ he]
        exact (hs.issued x hx).place
  · rw [h.issued] at hx hy
    obtain rfl | hx' := List.mem_cons.mp hx <;> obtain rfl | hy' := List.mem_cons.mp hy
    · rfl
    · have := hold y hy' hsrc.symm hdst.symm hinst.symm
      omega
    · have := hold x hx' hsrc hdst hinst
      omega
    · exact hs.slot x hx' y hy' hsrc hdst hinst he
  · rw [h.issued] at hx
    obtain rfl | hx := List.mem_cons.mp hx
    · exact hdepth
    · exact hs.depth x hx
  · rw [(h.same p q i).1] at hg
    obtain ⟨x, hx, hrest⟩ := hs.used p q i g hg
    exact ⟨x, h.grows.issued x hx, hrest⟩
  · rw [h.issued] at hx
    rw [h.rep] at hlt
    obtain rfl | hx := List.mem_cons.mp hx
    · omega
    · exact hs.accepted x hx hlt
  · rw [h.issued] at hx
    rw [h.rep] at hle
    rw [(h.same _ _ _).1] at hlt
    obtain rfl | hx := List.mem_cons.mp hx
    · omega
    · exact hs.skipped x hx hle hlt
  · rw [h.rep] at hx
    exact (hs.cached q p i x hx).imp fun _ hm' => replyTo_mono h.grows hm'

theorem inv_loopback (hs : LagInv j lim s) (reply : Option Body) :
    LagInv j lim (s.loopback reply) := by
  have hcore := core_loopback hs.core reply
  have hgrow := grows_loopback s reply
  exact
    { hcore, hs with
      issued := fun m hm => (hcore.issued m hm).requestInv (hs.issued m hm).place
      wireReply := fun x hx hxq hxs =>
        (hs.wireReply x hx hxq hxs).imp fun _ hm => replyTo_mono hgrow hm
      cached := fun q p i x hx => (hs.cached q p i x hx).imp fun _ hm => replyTo_mono hgrow hm }

end Gasnet.Amudp
