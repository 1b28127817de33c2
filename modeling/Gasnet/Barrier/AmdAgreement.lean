import Gasnet.Barrier.AmdMessages

/-! Safety and agreement of every run of the dissemination barrier. -/
namespace Gasnet.Barrier.Amd

open Dissemination

variable {N : Nat} {s t : State N} {r p q j : Fin N} {c i k n : Nat} {a : Tag} {m : Msg N}
  {act : Action N} {v w : Flat Arg} {d : Data} {ph ok : Bool}

theorem inv_initial (N : Nat) : Inv (initial N) where
  toControl := control_initial N
  notifying _ h := by simp [initial] at h
  safe _ _ := le_rfl
  msg m hm := by simp [initial] at hm
  merged m hm := by simp [initial] at hm
  keys := by simp [initial]
  slot _ _ _ h := by simp [initial, initData] at h
  recv_le r k _ _ := by
    rw [show ((initial N).data r).recv k.bodd = .anonymous from rfl, Tag.consensus_anonymous]
    exact bot_le
  heard _ h := by simp [initial] at h
  recv_ge _ h := by simp [initial] at h
  consumed_le p i _ := by simp [initial, State.consumed]
  result r k hk hc := by
    simp only [initial] at hc
    omega

theorem notifying_step (h : Step s act t) (hs : Inv s) (q : Fin N) (hpc : t.pc q = .notifying) :
    (t.data q).step = 0 ∧ 0 < size N := by
  have hn := hs.notifying q
  by_cases hq : q = act.actor
  · subst hq
    cases h with
    | @kick r =>
      have hr : s.pc r = .notifying := hpc
      have hz := hn hr
      simpa [Action.actor, cursor_outside hs (by simp [hr] : s.pc r ≠ .inside)] using hz
    | notify _ hN => simpa [Action.actor] using hN
    | singleton | send | wait => simp [Action.actor] at hpc
    | handle | markDone => simpa [Action.actor] using hn hpc
  · have he := step_other h hq
    rw [he.pc] at hpc
    rw [he.data]
    exact hn hpc

/-- At the last step every rank has been heard of. -/
theorem wait_heard (hs : Inv s) (hpc : s.pc r = .inside) (hstep : (s.data r).step = size N)
    (j : Fin N) : s.notified r ≤ s.notified j := by
  refine hs.heard r hpc j ?_
  rw [hstep]
  exact hears_all (le_two_pow_size N) r j

/-- At the last step the received pair is the fold of what all ranks said. -/
theorem wait_total (hs : Inv s) (hpc : s.pc r = .inside) (hstep : (s.data r).step = size N) :
    ((s.data r).recv (s.data r).phase).consensus = s.total (s.notified r) := by
  have hin := hs.inside r hpc
  have hcov := hs.recv_ge r hpc (by omega)
  rw [hstep] at hcov
  apply le_antisymm
  · have hle := hs.recv_le r (s.notified r) (by omega) (by omega)
    rwa [← hs.phase r] at hle
  · exact Finset.sup_le fun j _ => (hcov j (hears_all (le_two_pow_size N) r j)).2

theorem completed_step (h : Step s act t) (q : Fin N) :
    t.completed q = s.completed q ∨ ∃ a ok, act = .wait q a ok := by
  by_cases hq : q = act.actor
  · subst hq
    cases h with
    | wait => exact Or.inr ⟨_, _, rfl⟩
    | notify | send | singleton | handle | markDone | kick => exact Or.inl rfl
  · exact Or.inl (step_other h hq).completed

theorem safe_step (h : Step s act t) (hs : Inv s) (q j : Fin N) :
    t.completed q ≤ t.notified j := by
  have hj := (extends_step h hs).notified j
  obtain he | ⟨a, ok, rfl⟩ := completed_step h q
  · rw [he]
    exact le_trans (hs.safe q j) hj
  · cases h with
    | wait hpc hstep =>
      have hall := wait_heard hs hpc hstep j
      rw [hs.inside q hpc] at hall
      simpa using hall

theorem merged_step (h : Step s act t) (hs : Inv s) (hm : m ∈ t.merged) :
    m.arg.consensus ≤ ((t.data m.dst).recv m.phase).consensus := by
  have hold : m ∈ s.merged ∨ act = .handle m := by
    cases h <;> simp_all
    · tauto
    · exact List.mem_of_mem_erase hm
  obtain hold | rfl := hold
  · have hi := hs.msg m (List.mem_append_right _ hold)
    have hN : 0 < size N := lt_of_le_of_lt (Nat.zero_le _) hi.step
    obtain hle | ⟨a, ok, rfl, hph⟩ := recv_step h hN m.dst m.phase
    · exact le_trans (hs.merged m hold) hle
    · cases h with
      | wait hpc hstep =>
        have hfresh := hi.fresh
        rw [consumed_of_lt hpc (by rw [hstep]; exact hi.step), ← hs.inside _ hpc] at hfresh
        have he : m.epoch = s.notified m.dst :=
          eq_of_bodd_eq (by rw [← hi.phase, hph, hs.phase]) (msg_epoch_le hs hi) (by omega)
        omega
  · cases h
    simp [Tag.consensus_merge]

theorem slot_step (h : Step s act t) (hs : Inv s) (hd : (t.data q).stepDone ph i = true) :
    ∃ k, SlotInv t q ph i k := by
  have hext := extends_step h hs
  obtain hold | ⟨m, hm, rfl, hkey⟩ := stepDone_step h hd
  · obtain ⟨k, hk⟩ := hs.slot q ph i hold
    have hN : 0 < size N := lt_of_le_of_lt (Nat.zero_le _) hk.step
    refine ⟨k, slotInv_mono hext ?_ ?_ hk⟩
    · obtain he | ⟨rfl, he, hle, hlt⟩ := consumed_step (q := q) h hs hk.step
      · rw [he]
        exact hk.fresh
      · cases h
        have hph : ph ≠ (s.data q).phase := fun hph =>
          (kick_stepDone (by simpa using hd)).2 hph hle hlt
        rw [hk.phase, hs.phase] at hph
        have hfresh := hk.fresh
        rw [consumed_of_le hle] at hfresh
        have hc := notified_le_completed hs.toControl q
        have hne : k ≠ s.notified q := fun hne => hph (by rw [hne])
        omega
    · obtain hle | ⟨a, ok, rfl, rfl⟩ := recv_step h hN q ph
      · exact hle
      · cases h with
        | wait hpc hstep =>
          have := (slot_epoch_eq hs hk).2.2
          have := hk.step
          omega
  · have hi := hs.msg m (List.mem_append_right _ hm)
    obtain ⟨rfl, rfl, rfl⟩ : m.dst = q ∧ m.phase = ph ∧ m.step = i := by
      simpa [Msg.key] using hkey
    have hcons : t.consumed m.dst m.step = s.consumed m.dst m.step := by
      obtain he | ⟨hact, _⟩ := consumed_step (q := m.dst) h hs hi.step
      · exact he
      · simp at hact
    refine ⟨m.epoch, hi.step, hi.phase, by rw [hcons]; exact hi.fresh, ?_, ?_⟩
    · intro p hp
      obtain rfl := fwd_injective m.step (hp.trans hi.dst)
      exact le_trans hi.sent (sent_mono hext _ _)
    · intro p hp
      obtain rfl := fwd_injective m.step (hp.trans hi.dst)
      have hle := merged_step h hs (m := m)
      cases h
      refine covers_mono hext ?_ hi.covers
      simpa using hs.merged m hm

theorem recv_le_step (h : Step s act t) (hs : Inv s) (q : Fin N) (k : Nat)
    (hlo : t.completed q < k) (hhi : k ≤ t.completed q + 2) :
    ((t.data q).recv k.bodd).consensus ≤ t.total k := by
  have hext := extends_step h hs
  have htot := total_mono hext k
  have hold := hs.recv_le q k
  by_cases hq : q = act.actor
  · subst hq
    cases h with
    | notify | send | markDone =>
      exact le_trans (by simpa [Action.actor] using hold hlo hhi) htot
    | @singleton r a hpc hz =>
      have hout := hs.outside r (by simp [hpc])
      by_cases hk : k = s.completed r + 1
      · subst hk
        have := said_le_total (s.singleton r a) r (s.completed r + 1)
        simpa [Action.actor, State.said, hs.phase r, hout] using this
      · obtain rfl : k = s.completed r + 2 := by
          simp [Action.actor] at hlo hhi
          omega
        refine le_trans ?_ htot
        simpa [Action.actor, hs.phase r, hout] using hold (by simp [Action.actor]) le_rfl
    | @handle m hm =>
      have hlow := hold hlo hhi
      by_cases hph : k.bodd = m.phase
      · have hi := hs.msg m (List.mem_append_left _ hm)
        have hfresh := hi.fresh
        have hc := completed_le_consumed s m.dst m.step
        have hle := msg_epoch_le hs hi
        have hn := notified_le_completed hs.toControl m.dst
        simp only [Action.actor, State.handle, State.setData] at hlo hhi
        obtain rfl : k = m.epoch := eq_of_bodd_eq (by rw [hph, hi.phase]) (by omega) (by omega)
        refine le_trans ?_ htot
        simp only [Action.actor] at hlow
        simpa [Action.actor, hph, Tag.consensus_merge, hi.le_total] using hph ▸ hlow
      · exact le_trans (by simpa [Action.actor, hph] using hlow) htot
    | @kick r =>
      refine le_trans ?_ htot
      have hlow := hold hlo hhi
      by_cases hc : (s.data r).cursor (size N) = (s.data r).step
      · simpa [Action.actor, kick_recv_noop hc] using hlow
      · have hpc : s.pc r = .inside := by
          by_contra hpc
          exact hc (cursor_outside hs hpc)
        have hin := hs.inside r hpc
        by_cases hph : k.bodd = (s.data r).phase
        · simp only [Action.actor, State.kick, State.setData] at hlo hhi
          obtain rfl : k = s.notified r :=
            eq_of_bodd_eq (by rw [hph, hs.phase]) (by omega) (by omega)
          have hlt := lt_of_le_of_ne (step_le_cursor (size N) (s.data r)) (Ne.symm hc)
          simpa [Action.actor, hph, kick_recv hlt] using kickRecv_le hs hpc
        · simpa [Action.actor, kick_recv_other hph] using hlow
    | @wait r a hpc hstep =>
      have hin := hs.inside r hpc
      by_cases hph : k.bodd = (s.data r).phase
      · simp only [Action.actor, State.wait, State.setData, Function.update_self, Data.wait, hph,
          Tag.consensus_reset]
        exact bot_le
      · have hne : k ≠ s.completed r + 3 := by
          intro he
          apply hph
          rw [he, hs.phase, hin]
          simp
        simp only [Action.actor, State.wait, State.setData, Function.update_self] at hlo hhi
        refine le_trans ?_ htot
        simpa [Action.actor, hph] using
          hold (by simp only [Action.actor]; omega) (by simp only [Action.actor]; omega)
  · have he := step_other h hq
    rw [he.completed] at hlo hhi
    rw [he.data]
    exact le_trans (hold hlo hhi) htot

theorem heard_step (h : Step s act t) (hs : Inv s) (q : Fin N) (hpc : t.pc q = .inside)
    (j : Fin N) (hj : Hears (t.data q).step q j) : t.notified q ≤ t.notified j := by
  have hext := extends_step h hs
  have hold := hs.heard q
  by_cases hq : q = act.actor
  · subst hq
    cases h with
    | notify | wait => simp [Action.actor] at hpc
    | @send r hn =>
      simp only [Action.actor, State.send, State.flip, State.setData, Function.update_self,
        Data.flipPhase, (hs.notifying r hn).1] at hj
      rw [hears_zero.mp hj]
      exact le_rfl
    | @singleton r a hout hz =>
      have hstep : (s.data r).step = 0 := by
        have := hs.step_le r
        omega
      simp only [Action.actor, State.singleton, State.setData, Function.update_self,
        Data.notifySingleton, hstep] at hj
      rw [hears_zero.mp hj]
      exact le_rfl
    | handle | markDone =>
      exact le_trans (hold hpc j (by simpa [Action.actor] using hj)) (hext.notified j)
    | @kick r =>
      have hcur := step_le_cursor (size N) (s.data r)
      simp only [Action.actor, State.kick, State.setData, Function.update_self, kick_step] at hj
      refine le_trans ?_ (hext.notified j)
      by_cases hc : (s.data r).cursor (size N) = (s.data r).step
      · exact hold hpc j (by rwa [hc] at hj)
      · exact (kick_covers hs (by omega) hcur le_rfl j hj).1
  · have he := step_other h hq
    rw [he.pc] at hpc
    rw [he.data] at hj
    rw [he.notified]
    exact le_trans (hold hpc j hj) (hext.notified j)

theorem recv_ge_step (h : Step s act t) (hs : Inv s) (q : Fin N) (hpc : t.pc q = .inside)
    (hi : 0 < (t.data q).step ∨ size N = 0) :
    t.Covers (t.notified q) (t.data q).step q ((t.data q).recv (t.data q).phase).consensus := by
  have hext := extends_step h hs
  have hold := hs.recv_ge q
  by_cases hq : q = act.actor
  · subst hq
    cases h with
    | notify | wait => simp [Action.actor] at hpc
    | @send r hn =>
      have := hs.notifying r hn
      simp only [Action.actor, State.send, State.flip, State.setData, Function.update_self,
        Data.flipPhase] at hi
      omega
    | @singleton r a hout hz =>
      have hstep : (s.data r).step = 0 := by
        have := hs.step_le r
        omega
      intro j hj
      simp only [Action.actor, State.singleton, State.setData, Function.update_self,
        Data.notifySingleton, hstep] at hj
      obtain rfl := hears_zero.mp hj
      simp [Action.actor, State.said]
    | @handle m hm =>
      have hle : ((s.data m.dst).recv (s.data m.dst).phase).consensus ≤
          (((s.handle m).data m.dst).recv (s.data m.dst).phase).consensus := by
        by_cases hph : (s.data m.dst).phase = m.phase
        · simp [hph, Tag.consensus_merge]
        · simp [hph]
      have hcov := covers_mono hext hle (hold hpc (by simpa [Action.actor] using hi))
      simpa [Action.actor] using hcov
    | markDone =>
      have hcov := covers_mono hext le_rfl (hold hpc (by simpa [Action.actor] using hi))
      simpa [Action.actor] using hcov
    | @kick r =>
      have hcur := step_le_cursor (size N) (s.data r)
      by_cases hc : (s.data r).cursor (size N) = (s.data r).step
      · have hcov := hold hpc (by simpa [Action.actor, kick_recv_noop hc] using hi)
        exact covers_mono hext le_rfl (by simpa [Action.actor, kick_recv_noop hc] using hcov)
      · have hlt := lt_of_le_of_ne hcur (Ne.symm hc)
        have hcov := covers_mono hext le_rfl (kick_covers hs hlt hcur le_rfl)
        simpa [Action.actor, kick_recv hlt] using hcov
  · have he := step_other h hq
    rw [he.pc] at hpc
    rw [he.data] at hi ⊢
    rw [he.notified]
    exact covers_mono hext le_rfl (hold hpc hi)

theorem consumed_le_step (h : Step s act t) (hs : Inv s) (p : Fin N) (i : Nat)
    (hi : i < size N) : t.consumed (fwd p i) i ≤ t.sent p i := by
  have hsent := sent_mono (extends_step h hs) p i
  obtain he | ⟨_, he, hle, hlt⟩ := consumed_step (q := fwd p i) h hs hi
  · rw [he]
    exact le_trans (hs.consumed_le p i hi) hsent
  · rw [he]
    exact le_trans ((cursor_slot hs hle hlt).sent p rfl) hsent

theorem result_step (h : Step s act t) (hs : Inv s) (q : Fin N) (k : Nat) (hk : 0 < k)
    (hc : k ≤ t.completed q) : (t.result q k).consensus = t.total k := by
  have hext := extends_step h hs
  have hold : k ≤ s.completed q → (s.result q k).consensus = t.total k := by
    intro hle
    rw [hs.result q k hk hle, total_eq hext fun j => le_trans hle (hs.safe q j)]
  by_cases hq : q = act.actor
  · subst hq
    cases h with
    | notify | send | singleton | handle | markDone | kick => exact hold hc
    | @wait r a hpc hstep =>
      have hin := hs.inside r hpc
      by_cases he : k = s.completed r + 1
      · subst he
        have htot := total_eq hext fun j => hin ▸ wait_heard hs hpc hstep j
        rw [← hin] at htot
        simp only [Action.actor, State.wait, State.setData, Function.update_self]
        rw [wait_total hs hpc hstep, ← htot, hin]
        simp
      · have hle : k ≤ s.completed r := by
          simp [Action.actor] at hc
          omega
        simpa [Action.actor, he] using hold hle
  · have he := step_other h hq
    rw [he.completed] at hc
    rw [he.result]
    exact hold hc

theorem inv_step (h : Step s act t) (hs : Inv s) : Inv t where
  toControl := control_step h hs.toControl
  notifying := notifying_step h hs
  safe := safe_step h hs
  msg _ := msg_step h hs
  merged _ := merged_step h hs
  keys := keys_step h hs
  slot _ _ _ := slot_step h hs
  recv_le := recv_le_step h hs
  heard := heard_step h hs
  recv_ge := recv_ge_step h hs
  consumed_le := consumed_le_step h hs
  result := result_step h hs

theorem inv_reachable (h : Reachable Step (initial N) s) : Inv s :=
  h.invariant inv_step (inv_initial N)

/-- No rank completes a barrier before all have notified it; all complete it with the fold of
what was said; and no done slot is set twice. -/
theorem amdbarrier_agreement (h : Reachable Step (initial N) s) :
    (∀ r j, s.completed r ≤ s.notified j) ∧
    (∀ r k, 0 < k → k ≤ s.completed r → (s.result r k).consensus = s.total k) ∧
    ∀ m t, Step s (.markDone m) t → (s.data m.dst).stepDone m.phase m.step = false := by
  have hs := inv_reachable h
  refine ⟨hs.safe, hs.result, ?_⟩
  intro m t hstep
  cases hstep with
  | markDone hm => exact (hs.msg m (List.mem_append_right _ hm)).slot

/-- Two ranks that passed different ids anonymously, after one barrier. -/
def twoAnonymous : State 2 :=
  let m : Msg 2 := ⟨0, 1, 1, true, 0, ⟨5, ANONYMOUS⟩⟩
  let m' : Msg 2 := ⟨1, 1, 0, true, 0, ⟨7, ANONYMOUS⟩⟩
  let s := (((initial 2).notify 0 ⟨5, ANONYMOUS⟩).send 0).notify 1 ⟨7, ANONYMOUS⟩ |>.send 1
  ((((s.handle m).markDone m).handle m').markDone m').kick 0 |>.kick 1 |>.wait 0 |>.wait 1

theorem twoAnonymous_reachable : Reachable Step (initial 2) twoAnonymous :=
  ⟨_, .stepL (.notify (by decide) (by decide)) <| .stepL (.send (by decide)) <|
    .stepL (.notify (by decide) (by decide)) <| .stepL (.send (by decide)) <|
    .stepL (.handle (by decide)) <| .stepL (.markDone (by decide)) <|
    .stepL (.handle (by decide)) <| .stepL (.markDone (by decide)) <|
    .stepL .kick <| .stepL .kick <|
    .stepL (.wait (a := .anonymous) (by decide) (by decide)) <|
    .stepL (.wait (a := .anonymous) (by decide) (by decide)) .refl⟩

theorem amdbarrier_agreement_two :
    (twoAnonymous.result 0 1).consensus = twoAnonymous.total 1 :=
  (amdbarrier_agreement twoAnonymous_reachable).2.1 0 1 (by decide) (by decide)

/-- The value that comes with an anonymous result is not agreed on. -/
theorem amdbarrier_value_differs :
    ∃ s : State 2, Reachable Step (initial 2) s ∧ 1 ≤ s.completed 0 ∧ 1 ≤ s.completed 1 ∧
      s.result 0 1 ≠ s.result 1 1 :=
  ⟨twoAnonymous, twoAnonymous_reachable, by decide, by decide, by decide +kernel⟩

end Gasnet.Barrier.Amd
