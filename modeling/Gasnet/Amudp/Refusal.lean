import Gasnet.Amudp.Runs

/-! What a refused request does to its instance: the requester goes on to the next number and
the replier does not. -/
namespace Gasnet.Amudp

variable {Node : Type} [DecidableEq Node] {j : Job Node} {s t : State Node} {p q : Node}
  {i lim : Nat} {m r : Packet Node}

/-- The sequence numbers of an instance are equal, or the replier's is the next one while the
request is outstanding. -/
def InStep (s : State Node) (p q : Node) (i : Nat) : Prop :=
  (s.repDesc q p i).seqNum = (s.reqDesc p q i).seqNum ∨
    (s.repDesc q p i).seqNum = seqInc (s.reqDesc p q i).seqNum ∧ (s.reqDesc p q i).buffer ≠ none

/-- A request of the instance that its receiver refuses. -/
def RefusedOn (j : Job Node) (s : State Node) (p q : Node) (i : Nat) (r : Packet Node) : Prop :=
  r ∈ s.issued ∧ r.src = p ∧ r.dst = q ∧ r.msg.inst = i ∧ (j.config q).refuse r.msg ≠ none

/-- It was returned: its instance has gone on to later requests. -/
def Returned (j : Job Node) (s : State Node) (p q : Node) (i : Nat) : Prop :=
  ∃ r, RefusedOn j s p q i r ∧ r.gen < (s.reqDesc p q i).gen

/-- A refused request was returned on the instance before `m` was issued there. -/
def AfterRefusal (j : Job Node) (s : State Node) (m : Packet Node) : Prop :=
  ∃ r, RefusedOn j s m.src m.dst m.msg.inst r ∧ r.gen < m.gen

omit [DecidableEq Node] in
theorem returned_iff (hs : LagInv j lim s) :
    Returned j s p q i ↔ (s.repDesc q p i).gen < (s.reqDesc p q i).gen := by
  constructor
  · rintro ⟨r, ⟨hr, rfl, rfl, rfl, hbad⟩, hgen⟩
    by_contra hle
    exact hbad (hs.accepted r hr (by omega))
  · intro hlt
    obtain ⟨r, hr, rfl, rfl, rfl, hgen⟩ := hs.used p q i _ hlt
    exact ⟨r, ⟨hr, rfl, rfl, rfl, hs.skipped r hr hgen.ge (by omega)⟩, by omega⟩

omit [DecidableEq Node] in
theorem inStep_iff (hs : LagInv j lim s) (hlim : lim ≤ 62) :
    InStep s p q i ↔ ¬ Returned j s p q i := by
  have hwin := hs.window p q i
  rw [returned_iff hs, InStep, hs.repSeq, hs.reqSeq, seqInc_mod]
  constructor
  · rintro (he | ⟨he, _⟩) <;> omega
  · intro hle
    obtain hge | ⟨hnext, hbuf⟩ := hs.gens p q i
    · exact Or.inl (by rw [show (s.repDesc q p i).gen = (s.reqDesc p q i).gen by omega])
    · exact Or.inr ⟨by rw [hnext], hbuf⟩

omit [DecidableEq Node] in
/-- A request issued after a refusal is behind what its receiver expects for ever. -/
theorem not_accepted_of_afterRefusal (hs : LagInv j lim s) (h : AfterRefusal j s m) :
    (s.repDesc m.dst m.src m.msg.inst).gen ≤ m.gen := by
  obtain ⟨r, ⟨hr, hsrc, hdst, hinst, hbad⟩, hgen⟩ := h
  by_contra hlt
  rw [← hdst] at hbad
  exact hbad (hs.accepted r hr (by rw [hsrc, hdst, hinst]; omega))

/-- Handler 1 is not registered. -/
def refusing : Job Bool :=
  ⟨fun _ => ⟨1, Nat.one_pos, one_le_depth, 1, AM_ALL, fun n => n = 0, 0, 0⟩, fun _ _ => 0, fun _ => 0⟩

/-- A request for handler 1 comes back; then one for handler 0 is delivered. -/
def afterReturn : State Bool :=
  let x : Pending Bool := ⟨true, 0, 0, ⟨.short, 1, 0, [], []⟩⟩
  let y : Pending Bool := ⟨true, 0, 0, .empty⟩
  let o : Choice := ⟨some .empty, true, true⟩
  let s := initial.acquire false true ⟨.short, 1, 0, [], []⟩ (0, 0, 0)
  let m := s.request refusing false x
  let s := ((s.send refusing false x).deliver refusing m o).deliver refusing
    (m.refused EBADHANDLER) o
  let s := s.acquire false true .empty (0, 0, 0)
  let m := s.request refusing false y
  (s.send refusing false y).deliver refusing m o

theorem afterReturn_reachable : Reachable (LagStep refusing 62) initial afterReturn :=
  ⟨_, .stepL ⟨.acquire (by decide) (by decide) (by decide), trivial⟩ <|
    .stepL ⟨.send (by decide) (by decide), trivial⟩ <|
    .stepL ⟨.deliver (by decide),
      by unfold LagAllowed OnTime Timely; decide⟩ <|
    .stepL ⟨.deliver (by decide),
      by unfold LagAllowed OnTime Timely; decide⟩ <|
    .stepL ⟨.acquire (by decide) (by decide) (by decide), trivial⟩ <|
    .stepL ⟨.send (by decide) (by decide), trivial⟩ <|
    .stepL ⟨.deliver (by decide),
      by unfold LagAllowed OnTime Timely; decide⟩ .refl⟩

end Gasnet.Amudp
