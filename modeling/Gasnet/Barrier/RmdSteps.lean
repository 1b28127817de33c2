import Gasnet.Barrier.RmdInvariant

/-! What one step can do to the control of each rank, to what it has published and consumed,
and to the puts. -/
namespace Gasnet.Barrier.Rmd

open Dissemination
open Amd (size)

variable {N : Nat} {s t : State N} {r p q j : Fin N} {i k n : Nat} {a : Tag} {act : Action N}
  {v w : Flat Arg} {P : Put} {K : Kick}

/-- The rank whose record and history the action changes. -/
def Action.actor : Action N → Fin N
  | .notify r _ | .singleton r _ | .land r _ _ _ | .complete r _ _ | .kickStart r | .read r _
  | .consume r | .kickEnd r | .wait r _ _ => r

/-- The record and the history of one rank, without its inboxes. -/
structure SameAt (s t : State N) (q : Fin N) : Prop where
  data : t.data q = s.data q
  inside : t.inside q = s.inside q
  kick : t.kick q = s.kick q
  puts : t.puts q = s.puts q
  temporary : t.temporary q = s.temporary q
  notified : t.notified q = s.notified q
  completed : t.completed q = s.completed q
  arg : t.arg q = s.arg q
  result : t.result q = s.result q

theorem kickEnd_frame (s : State N) (r : Fin N) (K : Kick) :
    (s.kickEnd r K).inside = s.inside ∧ (s.kickEnd r K).inbox = s.inbox ∧
    (s.kickEnd r K).notified = s.notified ∧ (s.kickEnd r K).completed = s.completed ∧
    (s.kickEnd r K).arg = s.arg ∧ (s.kickEnd r K).result = s.result := by
  unfold State.kickEnd
  split
  · simp
  · split <;> simp

theorem kickEnd_kick (s : State N) (r : Fin N) (K : Kick) :
    (s.kickEnd r K).kick = Function.update s.kick r none := by
  unfold State.kickEnd
  split
  · simp
  · split <;> simp

theorem kickEnd_data (s : State N) (r : Fin N) (K : Kick) :
    (s.kickEnd r K).data =
      if K.step = (s.data r).step then s.data
      else Function.update s.data r ((s.data r).advance K) := by
  unfold State.kickEnd
  split
  · simp
  · split <;> simp

theorem kickEnd_step (s : State N) (r : Fin N) (K : Kick) :
    ((s.kickEnd r K).data r).step = K.step ∧ ((s.kickEnd r K).data r).phase = (s.data r).phase := by
  rw [kickEnd_data]
  split
  · rename_i he
    exact ⟨he.symm, rfl⟩
  · simp

theorem step_other (h : Step s act t) (hq : q ≠ act.actor) : SameAt s t q := by
  cases h with
  | @kickEnd r K hK hend =>
    have hf := kickEnd_frame s r K
    have hd := kickEnd_data s r K
    have hr : q ≠ r := hq
    refine ⟨?_, by rw [hf.1], by rw [kickEnd_kick]; simp [hr], ?_, ?_, by rw [hf.2.2.1],
      by rw [hf.2.2.2.1], by rw [hf.2.2.2.2.1], by rw [hf.2.2.2.2.2]⟩
    · rw [hd]
      split <;> simp [hr]
    · unfold State.kickEnd
      split
      · simp
      · split <;> simp [hr]
    · unfold State.kickEnd
      split
      · simp
      · split <;> simp [hr]
  | notify | singleton | land | complete | kickStart | read | consume | wait =>
    constructor <;> simp_all [Action.actor]

theorem extends_step (h : Step s act t) (hs : Control s) : Extends s t := by
  constructor
  · intro q
    by_cases hq : q = act.actor
    · subst hq
      cases h with
      | @kickEnd r K hK hend => rw [(kickEnd_frame s r K).2.2.1]
      | notify | singleton | land | complete | kickStart | read | consume | wait =>
        simp [Action.actor]
    · exact le_of_eq (step_other h hq).notified.symm
  · intro q k hk
    by_cases hq : q = act.actor
    · subst hq
      cases h with
      | @kickEnd r K hK hend => rw [(kickEnd_frame s r K).2.2.2.2.1]
      | @notify r | @singleton r =>
        have hne : k ≠ s.notified r + 1 := by
          intro he
          simp only [Action.actor] at hk
          omega
        simp [Action.actor, hne]
      | land | complete | kickStart | read | consume | wait => simp
    · rw [(step_other h hq).arg]
  · intro q k
    by_cases hq : q = act.actor
    · subst hq
      have hf := hs.future act.actor k
      cases h with
      | @kickEnd r K hK hend => rw [State.said, State.said, (kickEnd_frame s r K).2.2.2.2.1]
      | notify | singleton =>
        simp only [Action.actor] at hf
        simp only [State.said, Action.actor, State.notify, State.singleton, State.enter,
          State.setData, State.send, Function.update_self, Function.update_apply]
        split
        · rename_i hk
          rw [hf (by omega), Tag.consensus_anonymous]
          exact bot_le
        · exact le_rfl
      | land | complete | kickStart | read | consume | wait => simp [State.said]
    · rw [State.said, State.said, (step_other h hq).arg]

theorem control_initial (N : Nat) : Control (initial N) where
  phase _ _ := rfl
  inside _ h := by simp [initial] at h
  outside _ _ := rfl
  step_le _ := Nat.zero_le _
  kick _ _ h := by simp [initial] at h
  future _ _ _ := rfl

theorem phase_step (h : Step s act t) (hs : Control s) (q : Fin N) (hN : 0 < size N) :
    (t.data q).phase = t.notified q % 4 := by
  have hp := hs.phase q hN
  by_cases hq : q = act.actor
  · subst hq
    cases h with
    | @kickEnd r K hK hend =>
      rw [Action.actor, (kickEnd_frame s r K).2.2.1, (kickEnd_step s r K).2]
      exact hp
    | notify =>
      simp only [Action.actor] at hp
      simp [Action.actor, Data.nextPhase, hp]
    | singleton _ hz => omega
    | land | complete | kickStart | read | consume | wait => simpa [Action.actor] using hp
  · have he := step_other h hq
    rw [he.data, he.notified, hp]

theorem inside_step (h : Step s act t) (hs : Control s) (q : Fin N) (hin : t.inside q = true) :
    t.notified q = t.completed q + 1 := by
  have hi := hs.inside q
  have ho := hs.outside q
  by_cases hq : q = act.actor
  · subst hq
    cases h with
    | @kickEnd r K hK hend =>
      have hf := kickEnd_frame s r K
      rw [hf.1] at hin
      rw [hf.2.2.1, hf.2.2.2.1, hi hin]
    | notify | singleton | land | complete | kickStart | read | consume | wait =>
      simp_all [Action.actor]
  · have he := step_other h hq
    rw [he.inside] at hin
    rw [he.notified, he.completed, hi hin]

theorem outside_step (h : Step s act t) (hs : Control s) (q : Fin N)
    (hout : t.inside q = false) : t.notified q = t.completed q := by
  have hi := hs.inside q
  have ho := hs.outside q
  by_cases hq : q = act.actor
  · subst hq
    cases h with
    | @kickEnd r K hK hend =>
      have hf := kickEnd_frame s r K
      rw [hf.1] at hout
      rw [hf.2.2.1, hf.2.2.2.1, ho hout]
    | notify | singleton | land | complete | kickStart | read | consume | wait =>
      simp_all [Action.actor]
  · have he := step_other h hq
    rw [he.inside] at hout
    rw [he.notified, he.completed, ho hout]

theorem step_le_step (h : Step s act t) (hs : Control s) (q : Fin N) :
    (t.data q).step ≤ size N := by
  have hl := hs.step_le q
  by_cases hq : q = act.actor
  · subst hq
    cases h with
    | @kickEnd r K hK hend =>
      rw [Action.actor, (kickEnd_step s r K).1]
      exact (hs.kick r K hK).step_le
    | notify | singleton | land | complete | kickStart | read | consume | wait =>
      simp_all [Action.actor]
  · rw [(step_other h hq).data]
    exact hl

theorem kick_step (h : Step s act t) (hs : Control s) (q : Fin N) (K : Kick)
    (hK : t.kick q = some K) : KickInv t q K := by
  have hold := hs.kick q
  by_cases hq : q = act.actor
  · subst hq
    cases h with
    | @kickEnd r L hL hend =>
      rw [Action.actor, kickEnd_kick] at hK
      simp at hK
    | @notify r a hin | @singleton r a hin | @wait r a hin hstep =>
      have hnone : s.kick r = none := by
        first
        | exact kick_none hs hin
        | exact kick_none_of_step hs hstep
      simp [Action.actor, hnone] at hK
    | land | complete =>
      have hi := hold K (by simpa using hK)
      exact ⟨by simpa using hi.inside, by simpa using hi.step_lt, by simpa using hi.le_step,
        hi.step_le⟩
    | @kickStart r hin hstep hk =>
      simp only [Action.actor, State.setKick, Function.update_self, Option.some.injEq] at hK
      subst hK
      exact ⟨hin, hstep, le_rfl, le_of_lt hstep⟩
    | @read r f L hL hlt =>
      have hi := hold L hL
      simp only [Action.actor, State.setKick, Function.update_self, Option.some.injEq] at hK
      subst hK
      exact ⟨hi.inside, hi.step_lt, hi.le_step, hi.step_le⟩
    | @consume r L hL hlt ha =>
      have hi := hold L hL
      simp only [Action.actor, State.consume, State.setInbox, State.setKick, Function.update_self,
        Option.some.injEq] at hK
      subst hK
      exact ⟨hi.inside, hi.step_lt, Nat.le_succ_of_le hi.le_step, hlt⟩
  · have he := step_other h hq
    rw [he.kick] at hK
    have hi := hold K hK
    exact ⟨by rw [he.inside]; exact hi.inside, by rw [he.data]; exact hi.step_lt,
      by rw [he.data]; exact hi.le_step, hi.step_le⟩

theorem future_step (h : Step s act t) (hs : Control s) (q : Fin N) (k : Nat)
    (hk : t.notified q < k) : t.arg q k = .anonymous := by
  have hf := hs.future q k
  have hle := (extends_step h hs).notified q
  by_cases hq : q = act.actor
  · subst hq
    cases h with
    | @kickEnd r K hK hend =>
      rw [(kickEnd_frame s r K).2.2.2.2.1]
      exact hf (by omega)
    | @notify r | @singleton r =>
      have hne : k ≠ s.notified r + 1 := by
        intro he
        simp [Action.actor] at hk
        omega
      simpa [Action.actor, hne] using hf (by omega)
    | land | complete | kickStart | read | consume | wait => exact hf (by simpa using hk)
  · have he := step_other h hq
    rw [he.arg, hf (by omega)]

theorem control_step (h : Step s act t) (hs : Control s) : Control t :=
  ⟨phase_step h hs, inside_step h hs, outside_step h hs, step_le_step h hs, kick_step h hs,
    future_step h hs⟩

theorem consumed_congr (hin : t.inside q = s.inside q) (hr : t.reached q = s.reached q)
    (hc : t.completed q = s.completed q) (i : Nat) : t.consumed q i = s.consumed q i := by
  simp [State.consumed, hin, hr, hc]

theorem published_congr (hin : t.inside q = s.inside q)
    (hd : (t.data q).step = (s.data q).step) (hc : t.completed q = s.completed q) (i : Nat) :
    t.published q i = s.published q i := by
  simp [State.published, hin, hd, hc]

theorem published_outside (hin : s.inside r = false) : s.published r i = s.completed r := by
  simp [State.published, hin]

theorem consumed_outside (hin : s.inside r = false) : s.consumed r i = s.completed r := by
  simp [State.consumed, hin]

/-- Only an accepted inbox counts as consumed. -/
theorem consumed_step (h : Step s act t) (hs : Control s) (hi : i < size N) :
    t.consumed q i = s.consumed q i ∨
      ∃ K, act = .consume q ∧ s.kick q = some K ∧ K.step = i ∧ K.Accepts ∧
        s.consumed q i = s.completed q ∧ t.consumed q i = s.notified q ∧
        t = s.consume q K := by
  by_cases hq : q = act.actor
  · subst hq
    cases h with
    | @notify r a hin =>
      left
      have hr : (s.notify r a).reached r = 0 := by
        rw [reached_none (by simpa using kick_none hs hin)]
        simp
      rw [Action.actor, consumed_of_le (by omega), consumed_outside hin]
      simp
    | singleton hin hz => omega
    | land | complete =>
      exact Or.inl (consumed_congr (by simp) (by simp [State.reached]) (by simp) i)
    | @kickStart r hin hstep hk =>
      refine Or.inl (consumed_congr (by simp) ?_ (by simp) i)
      rw [Action.actor, reached_none hk, @reached_some _ _ r (s.data r).start (by simp)]
      rfl
    | @read r f K hK =>
      refine Or.inl (consumed_congr (by simp) ?_ (by simp) i)
      rw [Action.actor, reached_some hK, @reached_some _ _ r (K.read f (s.inbox r (s.data r).phase K.step f)) (by simp)]
      rfl
    | @consume r K hK hlt ha =>
      have hin := (hs.kick r K hK).inside
      have hr : (s.consume r K).reached r = K.step + 1 := by
        rw [@reached_some _ _ r (K.merge (s.stepTag r (s.data r).phase K.step)) (by simp)]
        rfl
      by_cases he : K.step = i
      · refine Or.inr ⟨K, rfl, hK, he, ha, consumed_of_le ?_, ?_, rfl⟩
        · rw [Action.actor, reached_some hK, he]
        · rw [Action.actor, consumed_of_lt (by simpa using hin) (by omega), hs.inside r hin]
          simp
      · left
        by_cases hlt : i < K.step
        · rw [Action.actor, consumed_of_lt (by simpa using hin) (by omega),
            consumed_of_lt hin (by rwa [reached_some hK])]
          simp
        · rw [Action.actor, consumed_of_le (by omega),
            consumed_of_le (by rw [reached_some hK]; omega)]
          simp
    | @kickEnd r K hK =>
      have hf := kickEnd_frame s r K
      refine Or.inl (consumed_congr (by rw [hf.1]) ?_ (by rw [hf.2.2.2.1]) i)
      rw [Action.actor, reached_some hK, reached_none (by rw [kickEnd_kick]; simp),
        (kickEnd_step s r K).1]
    | @wait r a hin hstep =>
      left
      have hr : s.reached r = size N := by rw [reached_none (kick_none_of_step hs hstep), hstep]
      rw [Action.actor, consumed_outside (by simp), consumed_of_lt hin (by omega)]
      simp
  · have he := step_other h hq
    refine Or.inl (consumed_congr he.inside ?_ he.completed i)
    rw [State.reached, State.reached, he.kick, he.data]

/-- Only the end of a kick publishes. -/
theorem published_step (h : Step s act t) (hs : Control s) (hi : i < size N) :
    t.published q i = s.published q i ∨
      ∃ K, act = .kickEnd q ∧ s.kick q = some K ∧ t = s.kickEnd q K ∧ (s.data q).step ≤ i ∧
        i < K.step ∧ t.published q i = s.notified q := by
  by_cases hq : q = act.actor
  · subst hq
    cases h with
    | @notify r a hin =>
      left
      rw [Action.actor, published_of_le (by simp), published_outside hin]
      simp
    | singleton hin hz => omega
    | land | complete | kickStart | read | consume =>
      exact Or.inl (published_congr (by simp) (by simp) (by simp) i)
    | @kickEnd r K hK =>
      have hf := kickEnd_frame s r K
      have hst := (kickEnd_step s r K).1
      have hin := (hs.kick r K hK).inside
      have hle := (hs.kick r K hK).le_step
      by_cases hlt : i < K.step
      · have ht : (s.kickEnd r K).published r i = s.completed r + 1 := by
          rw [published_of_lt (by rw [hf.1]; exact hin) (by omega), hf.2.2.2.1]
        by_cases hge : (s.data r).step ≤ i
        · exact Or.inr ⟨K, rfl, hK, rfl, hge, hlt, by rw [Action.actor, ht, hs.inside r hin]⟩
        · left
          rw [Action.actor, ht, published_of_lt hin (by omega)]
      · left
        rw [Action.actor, published_of_le (by omega), published_of_le (by omega), hf.2.2.2.1]
    | @wait r a hin hstep =>
      left
      rw [Action.actor, published_outside (by simp), published_of_lt hin (by omega)]
      simp
  · have he := step_other h hq
    exact Or.inl (published_congr he.inside (by rw [he.data]) he.completed i)

end Gasnet.Barrier.Rmd
