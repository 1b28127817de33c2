import Gasnet.Coll.BootstrapSumRuns

/-! The results of `gasneti_host_sumu64`, and what its counter and accumulator hold of the messages of
the calls. -/
namespace Gasnet.Coll.BootstrapSum

variable {size r k c : Nat} {operand : Nat → Nat → BitVec 64} {e : Nat → Nat} {x : Rank}
  {s t : State} {a : Action} {m : Message}

/-- The accumulator has been set back since a message of this call and way could be added. -/
def Rank.Cleared (x : Rank) (m : Message) : Prop :=
  m.call < if m.up then x.clearsUp else x.clearsDown

instance (x : Rank) (m : Message) : Decidable (x.Cleared m) :=
  inferInstanceAs (Decidable (_ < _))

/-- The messages that a counter holds. -/
def Rank.counts (r : Nat) (x : Rank) (m : Message) : Bool := m.dst = r ∧ x.resets ≤ m.call

/-- The messages that an accumulator holds. -/
def Rank.adds (r : Nat) (x : Rank) (m : Message) : Bool := m.dst = r ∧ ¬x.Cleared m

/-- The sum of the messages that an accumulator holds. -/
def Rank.held (r : Nat) (x : Rank) (l : List Message) : BitVec 64 :=
  ((l.filter (x.adds r)).map Message.operand).sum

structure Ledger (size : Nat) (s : State) : Prop where
  counter : ∀ r < size, (s.rank r).rcvd = s.counted.countP ((s.rank r).counts r)
  accumulator : ∀ r < size, (s.rank r).sum = (s.rank r).held r (s.added ++ s.counted)

/-- Where a message that was added comes from. -/
theorem Inv.added_le (hsize : size < 2 ^ 31) (h : Inv size operand e s)
    (hm : m ∈ s.added ++ s.counted) (hdst : m.dst = r) :
    (m.up = true → ∃ k < children size r, 6 * m.call + 2 ≤ (s.rank r).kidHi k) ∧
      (m.up = false → r ≠ 0 ∧ 6 * m.call + 5 ≤ (s.rank r).ownHi) := by
  have hstage : m.Wired size operand ∧ m.start + 1 ≤ e m.child := by
    rcases List.mem_append.mp hm with hm | hm
    · exact ⟨(h.added m hm).1, Nat.le_of_eq (h.added m hm).2.symm⟩
    · exact ⟨(h.counted m hm).1, Nat.le_of_succ_le (h.counted m hm).2⟩
  obtain ⟨⟨hne, hlt, hd, -⟩, hle⟩ := hstage
  rw [hdst] at hd
  unfold Message.start at hle
  constructor
  · intro hup
    rw [hup, if_pos rfl] at hle hd
    obtain ⟨k, hk, hkid⟩ := exists_child hsize hne hlt
    rw [← hd] at hk hkid
    have := ((h.fits r (hd ▸ (parent_lt hsize hne hlt).2)).kids k hk).2
    rw [hkid] at this
    exact ⟨k, hk, by omega⟩
  · intro hup
    rw [hup, if_neg Bool.false_ne_true] at hle hd
    have := ((h.fits r (hd ▸ hlt)).own (hd ▸ hne)).2
    rw [← hd] at hle hne
    exact ⟨hne, by omega⟩

theorem Inv.counted_le (hsize : size < 2 ^ 31) (h : Inv size operand e s)
    (hm : m ∈ s.counted) (hdst : m.dst = r) :
    (m.up = true → ∃ k < children size r, 6 * m.call + 3 ≤ (s.rank r).kidHi k) ∧
      (m.up = false → r ≠ 0 ∧ 6 * m.call + 6 ≤ (s.rank r).ownHi) := by
  obtain ⟨⟨hne, hlt, hd, -⟩, hle⟩ := h.counted m hm
  rw [hdst] at hd
  unfold Message.start at hle
  constructor
  · intro hup
    rw [hup, if_pos rfl] at hle hd
    obtain ⟨k, hk, hkid⟩ := exists_child hsize hne hlt
    rw [← hd] at hk hkid
    have := ((h.fits r (hd ▸ (parent_lt hsize hne hlt).2)).kids k hk).2
    rw [hkid] at this
    exact ⟨k, hk, by omega⟩
  · intro hup
    rw [hup, if_neg Bool.false_ne_true] at hle hd
    have := ((h.fits r (hd ▸ hlt)).own (hd ▸ hne)).2
    rw [← hd] at hle hne
    exact ⟨hne, by omega⟩

/-- One process takes a step: what it holds stays, or it is set back. -/
theorem Ledger.setRank (h : Ledger size s)
    (hcounter : (x.rcvd = (s.rank r).rcvd ∧ x.resets = (s.rank r).resets) ∨
      x.rcvd = 0 ∧ ∀ m ∈ s.counted, m.dst = r → m.call < x.resets)
    (hacc : (x.sum = (s.rank r).sum ∧ ∀ m ∈ s.added ++ s.counted, m.dst = r →
        (x.Cleared m ↔ (s.rank r).Cleared m)) ∨
      x.sum = 0 ∧ ∀ m ∈ s.added ++ s.counted, m.dst = r → x.Cleared m) :
    Ledger size (s.setRank r x) where
  counter q hq := by
    rw [rank_setRank]
    split
    · rename_i he
      subst he
      obtain ⟨hrcvd, hresets⟩ | ⟨hzero, hall⟩ := hcounter
      · rw [hrcvd, h.counter q hq]
        refine List.countP_congr fun m _ => ?_
        rw [Rank.counts, Rank.counts, hresets]
      · rw [hzero, eq_comm]
        refine List.countP_eq_zero.mpr fun m hm hc => ?_
        rw [Rank.counts, decide_eq_true_eq] at hc
        have := hall m hm hc.1
        omega
    · exact h.counter q hq
  accumulator q hq := by
    rw [rank_setRank]
    split
    · rename_i he
      subst he
      obtain ⟨hsum, hiff⟩ | ⟨hzero, hall⟩ := hacc
      · rw [hsum, h.accumulator q hq, Rank.held, Rank.held]
        refine congrArg (fun l => (l.map Message.operand).sum) (List.filter_congr fun m hm => ?_)
        rw [Rank.adds, Rank.adds, decide_eq_decide]
        exact and_congr_right fun hdst => not_congr (hiff m hm hdst).symm
      · have hnone : (s.added ++ s.counted).filter (x.adds q) = [] := by
          refine List.filter_eq_nil_iff.mpr fun m hm hc => ?_
          rw [Rank.adds, decide_eq_true_eq] at hc
          exact hc.2 (hall m hm hc.1)
        show x.sum = x.held q (s.added ++ s.counted)
        rw [hzero, Rank.held, hnone]
        rfl
    · exact h.accumulator q hq

/-- The thresholds stay. -/
theorem Ledger.setRank_same (h : Ledger size s) (hrcvd : x.rcvd = (s.rank r).rcvd)
    (hsum : x.sum = (s.rank r).sum) (hresets : x.resets = (s.rank r).resets)
    (hup : x.clearsUp = (s.rank r).clearsUp) (hdown : x.clearsDown = (s.rank r).clearsDown) :
    Ledger size (s.setRank r x) := by
  refine h.setRank (.inl ⟨hrcvd, hresets⟩) (.inl ⟨hsum, fun m _ _ => ?_⟩)
  rw [Rank.Cleared, Rank.Cleared, hup, hdown]

/-- A process without children has nothing to set back for the way up, and the root nothing for the
way down. -/
theorem Ledger.call (hsize : size < 2 ^ 31) (h : Ledger size s) (hi : Inv size operand e s)
    (hpc : (s.rank r).pc = .out) :
    Ledger size (s.setRank r
      (let y := (s.rank r).toResult (operand r (s.rank r).calls)
       if children size r ≠ 0 then y.toPc .gather else y.afterUp r)) := by
  simp only
  split
  · exact h.setRank_same rfl rfl (by simp [Rank.resets, hpc, Rank.toPc, Rank.toResult])
      (by simp [Rank.clearsUp, hpc, Rank.toPc, Rank.toResult])
      (by simp [Rank.clearsDown, hpc, Rank.toPc, Rank.toResult])
  · rename_i hz
    refine h.setRank (.inl ⟨rfl, ?_⟩) (.inl ⟨rfl, fun m hm hdst => ?_⟩)
    · rw [Rank.afterUp]
      split <;> simp [Rank.resets, hpc, Rank.toPc, Rank.toResult]
    · obtain ⟨hup, hdown⟩ := hi.added_le hsize hm hdst
      cases hu : m.up with
      | true =>
        obtain ⟨k, hk, -⟩ := hup hu
        omega
      | false =>
        have hne := (hdown hu).1
        simp [Rank.Cleared, hu, Rank.afterUp, hne, Rank.clearsDown, hpc, Rank.toPc, Rank.toResult]

theorem Ledger.clearUp (hsize : size < 2 ^ 31) (h : Ledger size s) (hi : Inv size operand e s)
    (hpc : (s.rank r).pc = .clearUp) :
    Ledger size (s.setRank r (((s.rank r).toSum 0).afterUp r)) := by
  refine h.setRank (.inl ⟨rfl, ?_⟩) (.inr ⟨rfl, fun m hm hdst => ?_⟩)
  · rw [Rank.afterUp]
    split <;> simp [Rank.resets, hpc, Rank.toPc, Rank.toSum]
  · obtain ⟨hup, hdown⟩ := hi.added_le hsize hm hdst
    simp only [Rank.kidHi, Rank.ownHi, hpc] at hup hdown
    cases hu : m.up with
    | true =>
      obtain ⟨k, -, hk⟩ := hup hu
      have hup' : (((s.rank r).toSum 0).afterUp r).clearsUp = (s.rank r).calls + 1 := by
        rw [Rank.afterUp]
        split <;> rfl
      rw [Rank.Cleared, hu, if_pos rfl, hup']
      omega
    | false =>
      obtain ⟨-, hle⟩ := hdown hu
      have hdown' : (s.rank r).calls ≤ (((s.rank r).toSum 0).afterUp r).clearsDown := by
        rw [Rank.afterUp]
        split <;> simp [Rank.clearsDown, Rank.toPc, Rank.toSum]
      rw [Rank.Cleared, hu, if_neg Bool.false_ne_true]
      omega

theorem Ledger.clearDown (hsize : size < 2 ^ 31) (h : Ledger size s) (hi : Inv size operand e s)
    (hpc : (s.rank r).pc = .clearDown) :
    Ledger size (s.setRank r (((s.rank r).toSum 0).toPc .reset)) := by
  refine h.setRank (.inl ⟨rfl, by simp [Rank.resets, hpc, Rank.toPc, Rank.toSum]⟩)
    (.inr ⟨rfl, fun m hm hdst => ?_⟩)
  obtain ⟨hup, hdown⟩ := hi.added_le hsize hm hdst
  simp only [Rank.kidHi, Rank.ownHi, hpc] at hup hdown
  cases hu : m.up with
  | true =>
    obtain ⟨k, -, hk⟩ := hup hu
    rw [Rank.Cleared, hu, if_pos rfl]
    simp only [Rank.clearsUp, Rank.toPc, Rank.toSum]
    omega
  | false =>
    obtain ⟨-, hle⟩ := hdown hu
    rw [Rank.Cleared, hu, if_neg Bool.false_ne_true]
    simp only [Rank.clearsDown, Rank.toPc, Rank.toSum]
    omega

theorem Ledger.reset (hsize : size < 2 ^ 31) (h : Ledger size s) (hi : Inv size operand e s)
    (hpc : (s.rank r).pc = .reset) :
    Ledger size (s.setRank r (((s.rank r).toRcvd 0).toPc (.forward (children size r)))) := by
  refine h.setRank (.inr ⟨rfl, fun m hm hdst => ?_⟩) (.inl ⟨rfl, fun m _ _ => ?_⟩)
  · obtain ⟨hup, hdown⟩ := hi.counted_le hsize hm hdst
    simp only [Rank.kidHi, Rank.ownHi, hpc] at hup hdown
    simp only [Rank.resets, Rank.toPc, Rank.toRcvd]
    cases hu : m.up with
    | true =>
      obtain ⟨k, -, hk⟩ := hup hu
      omega
    | false =>
      obtain ⟨-, hle⟩ := hdown hu
      omega
  · simp [Rank.Cleared, Rank.clearsUp, Rank.clearsDown, hpc, Rank.toPc, Rank.toRcvd]

/-- A message under way is of the call that its receiver has not counted, -/
theorem Inv.resets_eq (hsize : size < 2 ^ 31) (h : Inv size operand e s)
    (hm : m ∈ s.flight ∨ m ∈ s.added) : m.dst < size ∧ (s.rank m.dst).resets = m.call := by
  have hstage : m.Wired size operand ∧ (e m.child = m.start ∨ e m.child = m.start + 1) :=
    hm.elim (fun hm => ⟨(h.flight m hm).1, .inl (h.flight m hm).2⟩)
      fun hm => ⟨(h.added m hm).1, .inr (h.added m hm).2⟩
  obtain ⟨⟨hne, hlt, hdst, -⟩, he⟩ := hstage
  unfold Message.start at he
  cases hup : m.up with
  | true =>
    rw [hup, if_pos rfl] at hdst he
    obtain ⟨k, hk, hkid⟩ := exists_child hsize hne hlt
    have hp := (parent_lt hsize hne hlt).2
    have hkid' : e (parent m.child + 2 ^ k) = 6 * m.call + 1 ∨
        e (parent m.child + 2 ^ k) = 6 * m.call + 2 := by
      rw [hkid]
      exact he
    rw [hdst]
    exact ⟨hp, ((h.fits _ hp).call_of_kid hk hkid').1⟩
  | false =>
    rw [hup, if_neg Bool.false_ne_true] at hdst he
    rw [hdst]
    exact ⟨hlt, ((h.fits _ hlt).call_of_parent hne he).1⟩

/-- and was not set back. -/
theorem Inv.not_cleared (hsize : size < 2 ^ 31) (h : Inv size operand e s) (hm : m ∈ s.flight) :
    ¬(s.rank m.dst).Cleared m := by
  obtain ⟨⟨hne, hlt, hdst, -⟩, he⟩ := h.flight m hm
  unfold Message.start at he
  unfold Rank.Cleared
  cases hup : m.up with
  | true =>
    rw [hup, if_pos rfl] at hdst he
    obtain ⟨k, hk, hkid⟩ := exists_child hsize hne hlt
    have hp := (parent_lt hsize hne hlt).2
    rw [← hkid] at he
    rw [hdst, if_pos rfl, ((h.fits _ hp).call_of_kid hk (.inl he)).2]
    exact Nat.lt_irrefl _
  | false =>
    rw [hup, if_neg Bool.false_ne_true] at hdst he
    rw [hdst, if_neg Bool.false_ne_true, ((h.fits _ hlt).call_of_parent hne (.inl he)).2]
    exact Nat.lt_irrefl _

theorem Rank.held_cons (r : Nat) (x : Rank) (m : Message) (l : List Message) :
    x.held r (m :: l) = x.held r l + if x.adds r m then m.operand else 0 := by
  rw [held, held, List.filter_cons]
  split
  · rw [List.map_cons, List.sum_cons, add_comm]
  · rw [add_zero]

theorem Rank.held_perm {l l' : List Message} (h : l.Perm l') : x.held r l = x.held r l' :=
  ((h.filter _).map _).sum_eq

theorem Ledger.add (hsize : size < 2 ^ 31) (h : Ledger size s) (hi : Inv size operand e s)
    (hm : m ∈ s.flight) : Ledger size
      { s.setRank m.dst ((s.rank m.dst).toSum ((s.rank m.dst).sum + m.operand)) with
        flight := s.flight.erase m
        added := m :: s.added } where
  counter q hq := by
    rw [rank_setRank]
    split
    · rename_i he
      subst he
      exact h.counter m.dst hq
    · exact h.counter q hq
  accumulator q hq := by
    rw [rank_setRank]
    split
    · rename_i he
      subst he
      have hadds : (s.rank m.dst).adds m.dst m = true := by
        rw [Rank.adds, decide_eq_true_eq]
        exact ⟨rfl, hi.not_cleared hsize hm⟩
      show (s.rank m.dst).sum + m.operand =
        (s.rank m.dst).held m.dst (m :: (s.added ++ s.counted))
      rw [Rank.held_cons, if_pos hadds, h.accumulator m.dst hq]
    · rename_i hne
      have hadds : (s.rank q).adds q m = false := by
        rw [Rank.adds, decide_eq_false_iff_not]
        exact fun h => hne h.1.symm
      show (s.rank q).sum = (s.rank q).held q (m :: (s.added ++ s.counted))
      rw [Rank.held_cons, hadds, if_neg Bool.false_ne_true, add_zero]
      exact h.accumulator q hq

theorem Ledger.count (hsize : size < 2 ^ 31) (h : Ledger size s) (hi : Inv size operand e s)
    (hm : m ∈ s.added) : Ledger size
      { s.setRank m.dst ((s.rank m.dst).toRcvd ((s.rank m.dst).rcvd + 1)) with
        added := s.added.erase m
        counted := m :: s.counted } where
  counter q hq := by
    rw [rank_setRank]
    split
    · rename_i he
      subst he
      have hcounts : (s.rank m.dst).counts m.dst m = true := by
        rw [Rank.counts, decide_eq_true_eq]
        exact ⟨rfl, Nat.le_of_eq (hi.resets_eq hsize (.inr hm)).2⟩
      show (s.rank m.dst).rcvd + 1 = (m :: s.counted).countP ((s.rank m.dst).counts m.dst)
      rw [List.countP_cons_of_pos hcounts, h.counter m.dst hq]
    · rename_i hne
      have hcounts : ¬(s.rank q).counts q m = true := by
        rw [Rank.counts, decide_eq_true_eq]
        exact fun h => hne h.1.symm
      show (s.rank q).rcvd = (m :: s.counted).countP ((s.rank q).counts q)
      rw [List.countP_cons_of_neg hcounts, h.counter q hq]
  accumulator q hq := by
    have hperm : (s.added ++ s.counted).Perm (s.added.erase m ++ m :: s.counted) :=
      ((List.perm_cons_erase hm).append_right _).trans List.perm_middle.symm
    rw [rank_setRank]
    split
    · rename_i he
      subst he
      exact (h.accumulator m.dst hq).trans (Rank.held_perm hperm)
    · exact (h.accumulator q hq).trans (Rank.held_perm hperm)

theorem Ledger.step (hsize : size < 2 ^ 31) (h : Ledger size s) (hi : Inv size operand e s)
    (hs : Step size operand s a t) : Ledger size t := by
  cases hs with
  | call _ hpc => exact h.call hsize hi hpc
  | clearUp _ hpc => exact h.clearUp hsize hi hpc
  | clearDown _ hpc => exact h.clearDown hsize hi hpc
  | reset _ hpc => exact h.reset hsize hi hpc
  | add hm => exact h.add hsize hi hm
  | count hm => exact h.count hsize hi hm
  | gather _ hpc | addUp _ hpc | await _ hpc | readDown _ hpc | leave _ hpc =>
    refine h.setRank_same rfl rfl ?_ ?_ ?_ <;>
      simp [Rank.resets, Rank.clearsUp, Rank.clearsDown, Rank.toPc, Rank.toResult, Rank.leave, hpc]
  | @sendUp r _ hpc =>
    have hnew : Ledger size (s.setRank r ((s.rank r).toPc .await)) := by
      refine h.setRank_same rfl rfl ?_ ?_ ?_ <;>
        simp [Rank.resets, Rank.clearsUp, Rank.clearsDown, Rank.toPc, hpc]
    exact ⟨hnew.counter, hnew.accumulator⟩
  | @forward r idx _ hpc =>
    have hnew : Ledger size (s.setRank r ((s.rank r).toPc (.forward idx))) := by
      refine h.setRank_same rfl rfl ?_ ?_ ?_ <;>
        simp [Rank.resets, Rank.clearsUp, Rank.clearsDown, Rank.toPc, hpc]
    exact ⟨hnew.counter, hnew.accumulator⟩

/-- What the sums promise. -/
structure Correct (size : Nat) (operand : Nat → Nat → BitVec 64) (s : State) : Prop where
  /-- Every call of every process has returned the sum of all operands. -/
  returned : ∀ r < size, (s.rank r).returned = (List.range (s.rank r).calls).map fun i =>
    ∑ q ∈ Finset.range size, operand q i
  /-- No message is under way to a counter that its call has already set back, -/
  pending : ∀ m, m ∈ s.flight ∨ m ∈ s.added → m.dst < size ∧ (s.rank m.dst).resets ≤ m.call
  /-- nor to an accumulator that its call has already set back for its way. -/
  not_cleared : ∀ m ∈ s.flight, ¬(s.rank m.dst).Cleared m
  /-- The messages handled that were not set back are all there. -/
  ledger : Ledger size s

theorem correct_reachable (hsize : size < 2 ^ 31)
    (hr : Reachable (Step size operand) initial s) : Correct size operand s := by
  have hinv : (∃ e, Inv size operand e s) ∧ Ledger size s := by
    refine hr.invariant (P := fun s => (∃ e, Inv size operand e s) ∧ Ledger size s)
      (fun hs h => ?_) ⟨⟨_, inv_initial⟩, fun _ _ => rfl, fun _ _ => rfl⟩
    obtain ⟨⟨e, hi⟩, h⟩ := h
    obtain ⟨e', hi', -⟩ := hi.step hsize hs
    exact ⟨⟨e', hi'⟩, h.step hsize hi hs⟩
  obtain ⟨⟨e, hi⟩, h⟩ := hinv
  exact ⟨fun r hr => (hi.fits r hr).returned, fun m hm => (hi.resets_eq hsize hm).imp id Nat.le_of_eq,
    fun m hm => hi.not_cleared hsize hm, h⟩

end Gasnet.Coll.BootstrapSum
