import Gasnet.Barrier.AmdInvariant

/-! Why two phases are enough: the barrier that a message or a set slot belongs to is known
from its phase alone. -/
namespace Gasnet.Barrier.Amd

open Dissemination

variable {N : Nat} {s t : State N} {r p q j : Fin N} {c i k n : Nat} {a : Tag} {m : Msg N}
  {act : Action N} {v w : Flat Arg} {d : Data} {ph : Bool}

theorem eq_of_bodd_eq {k n : Nat} (h : k.bodd = n.bodd) (hk : k ≤ n + 1) (hn : n ≤ k + 1) :
    k = n := by
  by_contra hne
  obtain rfl | rfl : k = n + 1 ∨ n = k + 1 := by omega
  · simp at h
  · simp at h

theorem add_two_le_of_bodd_eq {k n : Nat} (h : k.bodd = n.bodd) (hk : k < n) : k + 2 ≤ n := by
  by_contra hne
  obtain rfl : n = k + 1 := by omega
  simp at h

theorem completed_le_consumed (s : State N) (r : Fin N) (i : Nat) :
    s.completed r ≤ s.consumed r i := by
  unfold State.consumed
  split <;> omega

theorem consumed_le_notified (hs : Control s) (r : Fin N) (i : Nat) :
    s.consumed r i ≤ s.notified r := by
  by_cases hpc : s.pc r = .inside
  · rw [hs.inside r hpc]
    unfold State.consumed
    split <;> omega
  · simp [State.consumed, hpc, hs.outside r hpc]

theorem consumed_of_le (hi : (s.data r).step ≤ i) : s.consumed r i = s.completed r := by
  simp [State.consumed, show ¬ i < (s.data r).step by omega]

theorem consumed_of_lt (hpc : s.pc r = .inside) (hi : i < (s.data r).step) :
    s.consumed r i = s.completed r + 1 := by
  simp [State.consumed, hpc, hi]

theorem consumed_outside (hpc : s.pc r ≠ .inside) : s.consumed r i = s.completed r := by
  simp [State.consumed, hpc]

theorem consumed_congr (hpc : t.pc q = s.pc q) (hd : (t.data q).step = (s.data q).step)
    (hc : t.completed q = s.completed q) (i : Nat) : t.consumed q i = s.consumed q i := by
  simp [State.consumed, hpc, hd, hc]

theorem consumed_same (h : SameAt s t q) (i : Nat) : t.consumed q i = s.consumed q i :=
  consumed_congr h.pc (by rw [h.data]) h.completed i

theorem sent_le_notified (hs : Control s) (p : Fin N) (i : Nat) : s.sent p i ≤ s.notified p := by
  cases i with
  | zero => exact le_rfl
  | succ i => exact consumed_le_notified hs p i

theorem notified_le_completed (hs : Control s) (r : Fin N) : s.notified r ≤ s.completed r + 1 := by
  by_cases hpc : s.pc r = .inside
  · exact le_of_eq (hs.inside r hpc)
  · rw [hs.outside r hpc]
    omega

/-- No rank is more than one barrier ahead of another. -/
theorem notified_le (hs : Inv s) (p r : Fin N) : s.notified p ≤ s.notified r + 1 :=
  le_trans (notified_le_completed hs.toControl p) (Nat.succ_le_succ (hs.safe p r))

theorem slot_epoch_le (hs : Inv s) (hk : SlotInv s r ph i k) : k ≤ s.notified r + 1 := by
  obtain ⟨p, hp⟩ := fwd_surjective i r
  exact le_trans (hk.sent p hp) (le_trans (sent_le_notified hs.toControl p i) (notified_le hs p r))

/-- A set slot of the current phase is of the current barrier and not yet consumed. -/
theorem slot_epoch_eq (hs : Inv s) (hk : SlotInv s r (s.data r).phase i k) :
    k = s.notified r ∧ s.pc r = .inside ∧ (s.data r).step ≤ i := by
  have hle := slot_epoch_le hs hk
  have hph : k.bodd = (s.notified r).bodd := hk.phase.symm.trans (hs.phase r)
  have hfresh := hk.fresh
  have hlow := completed_le_consumed s r i
  have hn := notified_le_completed hs.toControl r
  have he := eq_of_bodd_eq hph hle (by omega)
  refine ⟨he, ?_, ?_⟩
  · by_contra hpc
    have := hs.outside r hpc
    omega
  · by_contra hi
    by_cases hpc : s.pc r = .inside
    · have := consumed_of_lt hpc (by omega : i < (s.data r).step)
      have := hs.inside r hpc
      omega
    · have := hs.outside r hpc
      omega

/-- Outside a barrier a kick finds nothing to do. -/
theorem cursor_outside (hs : Inv s) (hpc : s.pc r ≠ .inside) :
    (s.data r).cursor (size N) = (s.data r).step := by
  by_contra hne
  have hlt : (s.data r).step < (s.data r).cursor (size N) :=
    lt_of_le_of_ne (step_le_cursor _ _) (Ne.symm hne)
  obtain ⟨k, hk⟩ := hs.slot r _ _ (cursor_done le_rfl hlt)
  exact hpc (slot_epoch_eq hs hk).2.1

/-- A slot the cursor passes was set by the message of this barrier. -/
theorem cursor_slot (hs : Inv s) (hi : (s.data r).step ≤ i) (hc : i < (s.data r).cursor (size N)) :
    SlotInv s r (s.data r).phase i (s.notified r) := by
  obtain ⟨k, hk⟩ := hs.slot r _ _ (cursor_done hi hc)
  rwa [(slot_epoch_eq hs hk).1] at hk

/-- Two barriers back, this slot has been consumed and everything sent to it handled. -/
theorem new_slot_clear (hs : Inv s) (hp : fwd p i = r) (hk : s.sent p i + 1 = k)
    (hle : k ≤ s.completed p + 1) : (s.data r).stepDone k.bodd i = false := by
  by_contra hd
  obtain ⟨k', hk'⟩ := hs.slot r _ _ (eq_true_of_ne_false hd)
  have hsent := hk'.sent p hp
  have hfresh := hk'.fresh
  have htwo := add_two_le_of_bodd_eq hk'.phase.symm (by omega)
  have hlow := completed_le_consumed s r i
  have hn := notified_le_completed hs.toControl r
  have hsafe := hs.safe p r
  omega

theorem new_key_fresh (hs : Inv s) (hp : fwd p i = r) (hk : s.sent p i + 1 = k)
    (hle : k ≤ s.completed p + 1) (hm : m ∈ s.requests ++ s.merged) :
    m.key ≠ (r, k.bodd, i) := by
  intro he
  obtain ⟨hdst, hph, hi⟩ : m.dst = r ∧ m.phase = k.bodd ∧ m.step = i := by
    simpa [Msg.key] using he
  have hm := hs.msg m hm
  subst hi
  have hsrc : m.src = p := fwd_injective m.step (hm.dst.symm.trans (hdst.trans hp.symm))
  have hsent := hm.sent
  have hfresh := hm.fresh
  rw [hsrc] at hsent
  rw [hdst] at hfresh
  have htwo := add_two_le_of_bodd_eq (hm.phase.symm.trans hph) (by omega)
  have hlow := completed_le_consumed s r m.step
  have hn := notified_le_completed hs.toControl r
  have hsafe := hs.safe p r
  omega

theorem completed_mono (h : Step s act t) (q : Fin N) : s.completed q ≤ t.completed q := by
  by_cases hq : q = act.actor
  · subst hq
    cases h <;> simp [Action.actor]
  · exact le_of_eq (step_other h hq).completed.symm

theorem extends_step (h : Step s act t) (hs : Inv s) : Extends s t := by
  constructor
  · intro q
    by_cases hq : q = act.actor
    · subst hq
      cases h <;> simp [Action.actor]
    · exact le_of_eq (step_other h hq).notified.symm
  · intro q k hk
    by_cases hq : q = act.actor
    · subst hq
      cases h <;> simp_all [Action.actor, Function.update_apply] <;> omega
    · rw [(step_other h hq).arg]
  · intro q k
    by_cases hq : q = act.actor
    · subst hq
      have hf := hs.future act.actor k
      cases h <;> simp_all [Action.actor, State.said, Function.update_apply]
      all_goals
        split
        · rename_i hk
          rw [hf (by omega)]
          exact bot_le
        · exact le_rfl
    · rw [State.said, State.said, (step_other h hq).arg]
  · intro q i
    by_cases hq : q = act.actor
    · subst hq
      have hcur := step_le_cursor (size N) (s.data act.actor)
      have hcomp := completed_mono h act.actor
      cases h with
      | notify hpc _ | singleton hpc _ | send hpc =>
        rw [consumed_outside (by simp [Action.actor, hpc])]
        exact le_trans hcomp (completed_le_consumed _ _ _)
      | handle _ | markDone _ =>
        exact le_of_eq (consumed_congr (by simp) (by simp [Action.actor]) (by simp) i).symm
      | kick =>
        unfold State.consumed
        split <;> split <;> simp_all [Action.actor]
        omega
      | wait _ _ =>
        unfold State.consumed
        split <;> split <;> simp_all [Action.actor]
    · exact le_of_eq (consumed_same (step_other h hq) i).symm

end Gasnet.Barrier.Amd

/-! What one step can do to the slots, the received pairs and the consumed messages. -/
namespace Gasnet.Barrier.Amd

open Dissemination

variable {N : Nat} {s t : State N} {r p q j : Fin N} {c i k n : Nat} {a : Tag} {m : Msg N}
  {act : Action N} {v w : Flat Arg} {d : Data} {ph : Bool}

theorem kick_stepDone (h : (d.kick n).stepDone ph i = true) :
    d.stepDone ph i = true ∧ (ph = d.phase → d.step ≤ i → ¬ i < d.cursor n) := by
  unfold Data.kick at h
  split at h
  · rename_i he
    exact ⟨h, fun _ hi => by omega⟩
  · by_cases hph : ph = d.phase
    · subst hph
      simp only [Function.update_self] at h
      split at h
      · simp at h
      · rename_i hc
        exact ⟨h, fun _ hi hlt => hc ⟨hi, hlt⟩⟩
    · simp only [Function.update_of_ne hph] at h
      exact ⟨h, fun he => absurd he hph⟩

theorem kick_recv (h : d.step < d.cursor n) : (d.kick n).recv d.phase = d.kickRecv := by
  rw [Data.kick, if_neg (by omega)]
  simp

theorem kick_recv_noop (h : d.cursor n = d.step) : d.kick n = d := by
  rw [Data.kick, if_pos h]

theorem kick_recv_other (h : ph ≠ d.phase) : (d.kick n).recv ph = d.recv ph := by
  unfold Data.kick
  split
  · rfl
  · simp [Function.update_of_ne h]

theorem le_kickRecv (d : Data) : (d.recv d.phase).consensus ≤ d.kickRecv.consensus := by
  unfold Data.kickRecv
  split
  · rw [Tag.consensus_merge]
    exact le_sup_left
  · exact le_rfl

theorem le_kick_recv (n : Nat) (d : Data) (ph : Bool) :
    (d.recv ph).consensus ≤ ((d.kick n).recv ph).consensus := by
  by_cases hc : d.cursor n = d.step
  · rw [kick_recv_noop hc]
  · by_cases hph : ph = d.phase
    · subst hph
      rw [kick_recv (lt_of_le_of_ne (step_le_cursor n d) (Ne.symm hc))]
      exact le_kickRecv d
    · rw [kick_recv_other hph]

/-- A slot is only ever set by the unlocked half of the handler. -/
theorem stepDone_step (h : Step s act t) (hd : (t.data q).stepDone ph i = true) :
    (s.data q).stepDone ph i = true ∨
      ∃ m ∈ s.merged, act = .markDone m ∧ m.key = (q, ph, i) := by
  by_cases hq : q = act.actor
  · subst hq
    cases h with
    | @markDone m hm =>
      by_cases hph : ph = m.phase
      · by_cases hi : i = m.step
        · exact Or.inr ⟨m, hm, rfl, by simp [Msg.key, Action.actor, hph, hi]⟩
        · left
          simpa [Action.actor, hph, hi] using hd
      · left
        simpa [Action.actor, hph] using hd
    | kick => exact Or.inl (kick_stepDone (by simpa [Action.actor] using hd)).1
    | notify | send | singleton | handle | wait => exact Or.inl (by simpa [Action.actor] using hd)
  · left
    rwa [(step_other h hq).data] at hd

/-- What was received only grows, except where a `wait` starts the phase afresh. -/
theorem recv_step (h : Step s act t) (hN : 0 < size N) (q : Fin N) (ph : Bool) :
    ((s.data q).recv ph).consensus ≤ ((t.data q).recv ph).consensus ∨
      ∃ a ok, act = .wait q a ok ∧ ph = (s.data q).phase := by
  by_cases hq : q = act.actor
  · subst hq
    cases h with
    | singleton hpc hz => omega
    | @handle m hm =>
      left
      by_cases hph : ph = m.phase
      · subst hph
        simp [Action.actor, Tag.consensus_merge]
      · simp [Action.actor, hph]
    | kick =>
      left
      simpa [Action.actor] using le_kick_recv _ _ _
    | @wait r a hpc hstep =>
      by_cases hph : ph = (s.data r).phase
      · exact Or.inr ⟨a, _, rfl, hph⟩
      · left
        simp [Action.actor, hph]
    | notify | send | markDone =>
      left
      simp [Action.actor]
  · left
    rw [(step_other h hq).data]

/-- Only a kick consumes, and only what its slot showed. -/
theorem consumed_step (h : Step s act t) (hs : Inv s) (hi : i < size N) :
    t.consumed q i = s.consumed q i ∨
      (act = .kick q ∧ t.consumed q i = s.notified q ∧
        (s.data q).step ≤ i ∧ i < (s.data q).cursor (size N)) := by
  by_cases hq : q = act.actor
  · subst hq
    have hnot := hs.notifying act.actor
    cases h with
    | @notify r a hpc _ =>
      left
      change (s.notify r a).consumed r i = s.consumed r i
      rw [consumed_outside (by simp), consumed_outside (by simp [hpc])]
      simp
    | singleton hpc hz => omega
    | @send r hpc =>
      left
      have hz : (s.data r).step = 0 := (hnot hpc).1
      change (s.send r).consumed r i = s.consumed r i
      rw [consumed_of_le (by simp [hz]), consumed_outside (by simp [hpc])]
      simp
    | handle | markDone =>
      exact Or.inl (consumed_congr (by simp) (by simp [Action.actor]) (by simp) i)
    | @kick r =>
      change (s.kick r).consumed r i = s.consumed r i ∨
        (Action.kick r = Action.kick r ∧ (s.kick r).consumed r i = _ ∧ _)
      by_cases hpc : s.pc r = .inside
      · by_cases hlt : i < (s.data r).cursor (size N)
        · have ht : (s.kick r).consumed r i = s.completed r + 1 :=
            consumed_of_lt (by simpa using hpc) (by simpa using hlt)
          by_cases hle : (s.data r).step ≤ i
          · exact Or.inr ⟨rfl, ht.trans (hs.inside r hpc).symm, hle, hlt⟩
          · exact Or.inl (ht.trans (consumed_of_lt hpc (by omega)).symm)
        · left
          have hcur := step_le_cursor (size N) (s.data r)
          rw [consumed_of_le (by simpa using hlt), consumed_of_le (by omega)]
          simp
      · left
        rw [consumed_outside (by simpa using hpc), consumed_outside hpc]
        simp
    | @wait r a hpc hstep =>
      left
      change (s.wait r).consumed r i = s.consumed r i
      rw [consumed_outside (by simp), consumed_of_lt hpc (by rwa [hstep])]
      simp
  · exact Or.inl (consumed_same (step_other h hq) i)

/-- What a kick has merged covers every rank heard of up to the cursor. -/
theorem kick_covers (hs : Inv s) (hlt : (s.data r).step < (s.data r).cursor (size N))
    (hle : (s.data r).step ≤ c) (hc : c ≤ (s.data r).cursor (size N)) :
    s.Covers (s.notified r) c r (s.data r).kickRecv.consensus := by
  have hpc : s.pc r = .inside := by
    by_contra hpc
    have := cursor_outside hs hpc
    omega
  induction c, hle using Nat.le_induction with
  | base =>
    by_cases hz : (s.data r).step = 0
    · intro j hj
      rw [hz] at hj
      obtain rfl := hears_zero.mp hj
      refine ⟨le_rfl, ?_⟩
      rw [Data.kickRecv, if_pos hz, Tag.consensus_merge, hs.localArg j hpc]
      exact le_sup_right
    · intro j hj
      obtain ⟨hn, hv⟩ := hs.recv_ge r hpc (Or.inl (by omega)) j hj
      exact ⟨hn, le_trans hv (le_kickRecv _)⟩
  | succ c hle ih =>
    intro j hj
    obtain ⟨p, hp⟩ := fwd_surjective c r
    obtain hj | hj := hears_succ hp hj
    · exact ih (by omega) j hj
    · obtain ⟨hn, hv⟩ := (cursor_slot hs hle (by omega)).covers p hp j hj
      exact ⟨hn, le_trans hv (le_kickRecv _)⟩

end Gasnet.Barrier.Amd
