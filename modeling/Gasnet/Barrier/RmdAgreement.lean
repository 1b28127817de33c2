import Gasnet.Barrier.RmdInbox
import Gasnet.Barrier.AmcAgreement

/-! Safety, agreement and reuse of the inboxes in every run of the RDMA barrier. -/
namespace Gasnet.Barrier.Rmd

open Dissemination
open Amd (size le_two_pow_size)

variable {N : Nat} {s t : State N} {r p q j : Fin N} {i k n : Nat} {a : Tag} {act : Action N}
  {v w : Flat Arg} {P : Put} {K : Kick} {f : Field} {x : Arg}

theorem inv_initial (N : Nat) : Inv (initial N) where
  toControl := control_initial N
  safe _ _ := le_rfl
  puts p k i := by
    cases i <;> simp [initial, State.sent, State.published] <;> omega
  put _ _ _ _ h := by simp [initial] at h
  consumed_le p i _ := by simp [initial, State.consumed]
  cell _ _ _ _ _ _ := rfl
  reads _ _ _ _ h := by simp [initial] at h
  running _ _ h := by simp [initial] at h
  published _ h := by simp [initial] at h
  result r k hk hc := by
    simp only [initial] at hc
    omega

theorem reads_keep (h : Step s act t) (hs : Inv s) (hkick : t.kick q = s.kick q)
    (hdata : t.data q = s.data q) (hK : t.kick q = some K) (hlt : K.step < size N)
    (hx : K.reads f = some x) : x &&& t.inbox q (t.data q).phase K.step f = x := by
  obtain ⟨p, hp⟩ := fwd_surjective K.step q
  have hK' : s.kick q = some K := hkick ▸ hK
  have hcell := kick_cell hs hK' hlt hp
  have hread := hs.reads q K f x hK' hlt hx
  rw [hcell] at hread
  obtain ⟨hcons, hin⟩ := kick_consumed hs hK'
  have hct := control_step h hs.toControl
  have hcons' : t.consumed q K.step = t.completed q := consumed_of_le (le_of_eq (reached_some hK))
  have hin' := hct.inside q (hct.kick q K hK).inside
  have hnot : t.notified q = s.notified q := by
    have hq := (hs.phase q (by omega)).symm.trans ((congrArg Data.phase hdata).symm.trans
      (hct.phase q (by omega)))
    have hle := (extends_step h hs.toControl).notified q
    by_cases he : q = act.actor
    · subst he
      cases h with
      | @notify r _ hout | @singleton r _ hout | wait hout => simp_all [Action.actor]
      | kickEnd => rw [(kickEnd_frame s _ _).2.2.1]
      | land | complete | kickStart | read | consume => rfl
    · exact (step_other h he).notified
  have hnew := cell_step h hs p K.step (t.notified q) hlt (by rw [hp]; omega) (by rw [hp]; omega)
  rw [hp] at hnew
  rw [hct.phase q (by omega), hnew, hnot]
  exact visible_mono h hs hread

theorem reads_step (h : Step s act t) (hs : Inv s) (q : Fin N) (K : Kick) (f : Field) (x : Arg)
    (hK : t.kick q = some K) (hlt : K.step < size N) (hx : K.reads f = some x) :
    x &&& t.inbox q (t.data q).phase K.step f = x := by
  by_cases hq : q = act.actor
  · subst hq
    have hkeep := fun hkick hdata => reads_keep h hs hkick hdata hK hlt hx
    cases h with
    | @notify r _ hout | @singleton r _ hout =>
      simp [Action.actor, kick_none hs.toControl hout] at hK
    | @wait r _ _ hstep => simp [Action.actor, kick_none_of_step hs.toControl hstep] at hK
    | @kickEnd r L =>
      rw [Action.actor, kickEnd_kick] at hK
      simp at hK
    | land | complete => exact hkeep (by simp) (by simp)
    | @kickStart r =>
      simp only [Action.actor, State.setKick, Function.update_self, Option.some.injEq] at hK
      subst hK
      simp [Data.start] at hx
    | @consume r L =>
      simp only [Action.actor, State.consume, State.setInbox, State.setKick, Function.update_self,
        Option.some.injEq] at hK
      subst hK
      simp at hx
    | @read r g L hL =>
      simp only [Action.actor, State.setKick, Function.update_self, Option.some.injEq] at hK
      subst hK
      simp only [Kick.read, Function.update_apply] at hx
      split at hx
      · rename_i hg
        subst hg
        obtain rfl := Option.some.inj hx
        exact BitVec.and_self
      · exact hs.reads r L f x hL hlt hx
  · have he := step_other h hq
    exact reads_keep h hs he.kick he.data hK hlt hx

theorem consumed_le_step (h : Step s act t) (hs : Inv s) (p : Fin N) (i : Nat)
    (hi : i < size N) : t.consumed (fwd p i) i ≤ t.sent p i := by
  have hsent := sent_mono h hs.toControl p hi
  rcases consumed_step (q := fwd p i) h hs.toControl hi with
    he | ⟨K, _, hK, rfl, ha, _, he, _⟩
  · rw [he]
    exact le_trans (hs.consumed_le p i hi) hsent
  · obtain ⟨P, hP, _⟩ := accepts_payload hs hK hi ha rfl
    rw [he]
    exact le_trans (put_sent hs hP).2.1 hsent

theorem running_step (h : Step s act t) (hs : Inv s) (q : Fin N) (K : Kick)
    (hK : t.kick q = some K) : t.Covers (t.notified q) K.step q K.tag.consensus := by
  have hext := extends_step h hs.toControl
  by_cases hq : q = act.actor
  · subst hq
    cases h with
    | @notify r _ hout | @singleton r _ hout =>
      simp [Action.actor, kick_none hs.toControl hout] at hK
    | @wait r _ _ hstep => simp [Action.actor, kick_none_of_step hs.toControl hstep] at hK
    | @kickEnd r L =>
      rw [Action.actor, kickEnd_kick] at hK
      simp at hK
    | land | complete => exact covers_mono hext (hs.running _ K hK)
    | @kickStart r hin =>
      simp only [Action.actor, State.setKick, Function.update_self, Option.some.injEq] at hK
      subst hK
      exact covers_mono hext (hs.published r hin)
    | @read r g L hL =>
      simp only [Action.actor, State.setKick, Function.update_self, Option.some.injEq] at hK
      subst hK
      exact covers_mono hext (hs.running r L hL)
    | @consume r L hL hlt ha =>
      simp only [Action.actor, State.consume, State.setInbox, State.setKick, Function.update_self,
        Option.some.injEq] at hK
      subst hK
      obtain ⟨p, hp⟩ := fwd_surjective L.step r
      obtain ⟨P, hP, htag⟩ := stepTag_accepted hs hL hlt ha hp
      have hput := (hs.put p _ _ P hP).covers
      rw [Kick.merge, htag]
      exact covers_mono hext (covers_merge hp (hs.running r L hL) hput)
  · have he := step_other h hq
    rw [he.kick] at hK
    rw [he.notified]
    exact covers_mono hext (hs.running q K hK)

theorem published_covers_step (h : Step s act t) (hs : Inv s) (q : Fin N)
    (hin : t.inside q = true) :
    t.Covers (t.notified q) (t.data q).step q (t.data q).tag.consensus := by
  have hext := extends_step h hs.toControl
  by_cases hq : q = act.actor
  · subst hq
    cases h with
    | wait => simp [Action.actor] at hin
    | @notify r a =>
      have hcov := covers_self (s.notify r a) r (k := s.notified r + 1) (by simp)
      simpa [State.said, Action.actor, Data.tag] using hcov
    | @singleton r a hout hz =>
      have hstep : (s.data r).step = 0 := by
        have := hs.step_le r
        omega
      have hcov := covers_self (s.singleton r a) r (k := s.notified r + 1) (by simp)
      simpa [State.said, Action.actor, Data.tag, hstep] using hcov
    | @kickEnd r K hK =>
      have hf := kickEnd_frame s r K
      have hkick := hs.kick r K hK
      rw [Action.actor, hf.2.2.1, kickEnd_data]
      split
      · exact covers_mono hext (hs.published r hkick.inside)
      · rw [Function.update_self]
        exact covers_mono hext (hs.running r K hK)
    | land | complete | kickStart | read | consume =>
      exact covers_mono hext (hs.published _ hin)
  · have he := step_other h hq
    rw [he.inside] at hin
    rw [he.data, he.notified]
    exact covers_mono hext (hs.published q hin)

/-- At the last step every rank has been heard of. -/
theorem wait_heard (hs : Inv s) (hin : s.inside r = true) (hstep : (s.data r).step = size N)
    (j : Fin N) : s.notified r ≤ s.notified j := by
  have hcov := (hs.published r hin).1 j
  rw [hstep] at hcov
  exact (hcov (hears_all (le_two_pow_size N) r j)).1

/-- At the last step the published pair is the fold of what all ranks said. -/
theorem wait_total (hs : Inv s) (hin : s.inside r = true) (hstep : (s.data r).step = size N) :
    (s.data r).tag.consensus = s.total (s.notified r) := by
  have hcov := hs.published r hin
  rw [hstep] at hcov
  exact le_antisymm hcov.2
    (Finset.sup_le fun j _ => (hcov.1 j (hears_all (le_two_pow_size N) r j)).2)

theorem completed_step (h : Step s act t) (q : Fin N) :
    t.completed q = s.completed q ∨ ∃ a ok, act = .wait q a ok := by
  by_cases hq : q = act.actor
  · subst hq
    cases h with
    | wait => exact Or.inr ⟨_, _, rfl⟩
    | @kickEnd r K => exact Or.inl (congrFun (kickEnd_frame s r K).2.2.2.1 _)
    | notify | singleton | land | complete | kickStart | read | consume => exact Or.inl rfl
  · exact Or.inl (step_other h hq).completed

theorem safe_step (h : Step s act t) (hs : Inv s) (q j : Fin N) :
    t.completed q ≤ t.notified j := by
  have hj := (extends_step h hs.toControl).notified j
  rcases completed_step h q with he | ⟨a, ok, rfl⟩
  · rw [he]
    exact le_trans (hs.safe q j) hj
  · cases h with
    | wait hin hstep =>
      have hall := wait_heard hs hin hstep j
      rw [hs.inside q hin] at hall
      simpa using hall

theorem result_step (h : Step s act t) (hs : Inv s) (q : Fin N) (k : Nat) (hk : 0 < k)
    (hc : k ≤ t.completed q) : (t.result q k).consensus = t.total k := by
  have hext := extends_step h hs.toControl
  have hold : k ≤ s.completed q → (s.result q k).consensus = t.total k := by
    intro hle
    rw [hs.result q k hk hle, total_eq hext fun j => le_trans hle (hs.safe q j)]
  by_cases hq : q = act.actor
  · subst hq
    cases h with
    | notify | singleton | land | complete | kickStart | read | consume => exact hold hc
    | @kickEnd r K =>
      have hf := kickEnd_frame s r K
      rw [hf.2.2.2.1] at hc
      rw [hf.2.2.2.2.2]
      exact hold hc
    | @wait r a hin hstep =>
      have hnot := hs.inside r hin
      by_cases he : k = s.completed r + 1
      · subst he
        have htot := total_eq hext fun j => hnot ▸ wait_heard hs hin hstep j
        rw [← hnot] at htot
        simp only [Action.actor, State.wait, Function.update_self]
        rw [wait_total hs hin hstep, ← htot, hnot]
        simp
      · have hle : k ≤ s.completed r := by
          simp [Action.actor] at hc
          omega
        simpa [Action.actor, he] using hold hle
  · have he := step_other h hq
    rw [he.completed] at hc
    rw [he.result]
    exact hold hc

theorem inv_step (h : Step s act t) (hs : Inv s) : Inv t where
  toControl := control_step h hs.toControl
  safe := safe_step h hs
  puts := puts_step h hs
  put := putInv_step h hs
  consumed_le := consumed_le_step h hs
  cell := cell_step h hs
  reads := reads_step h hs
  running := running_step h hs
  published := published_covers_step h hs
  result := result_step h hs

theorem inv_reachable (h : Reachable Step (initial N) s) : Inv s :=
  h.invariant inv_step (inv_initial N)

/-- No rank completes a barrier before all have notified it, and all complete it with the fold
of what was said. A kick accepts an inbox only when it holds the whole payload of the barrier
at hand, and the inbox it zeroes holds no payload still to be consumed and has none on its way.
Two barriers at most are on their way to an inbox, and what it shows for each barrier still to be
consumed is that barrier's payload alone. -/
theorem rmdbarrier_agreement (h : Reachable Step (initial N) s) :
    (∀ r j, s.completed r ≤ s.notified j) ∧
    (∀ r k, 0 < k → k ≤ s.completed r → (s.result r k).consensus = s.total k) ∧
    (∀ r t K p, Step s (.consume r) t → s.kick r = some K → fwd p K.step = r →
      (∃ P, s.puts p (s.notified r) K.step = some P ∧
        s.inbox r (s.data r).phase K.step = payload P.arg) ∧
      ∀ k P, s.puts p k K.step = some P → P.phase = (s.data r).altPhase →
        k ≤ s.consumed r K.step ∧ P.done = true) ∧
    ∀ p i, i < size N → s.sent p i ≤ s.consumed (fwd p i) i + 2 ∧
      ∀ k, s.consumed (fwd p i) i < k → k ≤ s.consumed (fwd p i) i + 2 →
        s.inbox (fwd p i) (k % 4) i = visible (s.puts p k i) := by
  have hs := inv_reachable h
  refine ⟨hs.safe, hs.result, ?_, ?_⟩
  · intro r t K p hstep hK hp
    cases hstep with
    | @consume _ L hL hlt ha =>
      rw [hK] at hL
      obtain rfl : K = L := Option.some.inj hL
      refine ⟨accepts_payload hs hK hlt ha hp, fun k P hP hph => ?_⟩
      exact alt_spent hs hK hlt ha hp hP ((hs.put p k _ P hP).phase.symm.trans hph)
  · intro p i hi
    exact ⟨sent_le hs p (fwd p i) i, fun k hlo hhi => hs.cell p i k hi (by omega) hhi⟩

/-- The kick of a rank, or the one it would start. -/
def State.current (s : State N) (r : Fin N) : Kick := (s.kick r).getD (s.data r).start

def State.readWord (s : State N) (r : Fin N) (f : Field) : State N :=
  s.setKick r (some ((s.current r).read f (s.inbox r (s.data r).phase (s.current r).step f)))

theorem kick_current (h : (s.kick r).isSome = true) : s.kick r = some (s.current r) := by
  obtain ⟨K, hK⟩ := Option.isSome_iff_exists.mp h
  simp [State.current, hK]

/-- A whole kick of one step, and the wait after it. -/
def State.hear (s : State N) (r : Fin N) : State N :=
  let s := s.setKick r (some (s.data r).start)
  let s := (((s.readWord r .value).readWord r .value2).readWord r .flags).readWord r .flags2
  let s := s.consume r (s.current r)
  (s.kickEnd r (s.current r)).wait r

local instance two_neZero : NeZero 2 := ⟨by decide⟩

/-- Two ranks that passed different ids anonymously, after one barrier. -/
def twoAnonymous : State 2 :=
  let s := ((initial 2).notify 0 ⟨5, ANONYMOUS⟩).notify 1 ⟨7, ANONYMOUS⟩
  let s := s.land 0 1 0 (notifyPut ((initial 2).data 0) ⟨5, ANONYMOUS⟩) fun _ => ~~~0
  let s := s.land 1 1 0 (notifyPut ((initial 2).data 1) ⟨7, ANONYMOUS⟩) fun _ => ~~~0
  (s.hear 0).hear 1

theorem quiet_initial (r : Fin N) : (initial N).Quiet r := fun _ _ _ _ h => by simp [initial] at h

theorem twoAnonymous_reachable : Reachable Step (initial 2) twoAnonymous :=
  ⟨_, .stepL (.notify rfl (by decide) (quiet_initial 0)) <|
    .stepL (.notify rfl (by decide) (fun _ _ _ _ h => by simp [initial] at h)) <|
    .stepL (.land rfl rfl) <| .stepL (.land rfl rfl) <|
    .stepL (.kickStart rfl (by decide) rfl) <|
    .stepL (.read (f := .value) (kick_current (by decide)) (by decide)) <|
    .stepL (.read (f := .value2) (kick_current (by decide)) (by decide)) <|
    .stepL (.read (f := .flags) (kick_current (by decide)) (by decide)) <|
    .stepL (.read (f := .flags2) (kick_current (by decide)) (by decide)) <|
    .stepL (.consume (kick_current (by decide)) (by decide)
      ⟨7, ~~~7, 1, ~~~1, by decide⟩) <|
    .stepL (.kickEnd (kick_current (by decide)) (Or.inl (by decide))) <|
    .stepL (.wait (a := .anonymous) (by decide) (by decide)) <|
    .stepL (.kickStart rfl (by decide) rfl) <|
    .stepL (.read (f := .value) (kick_current (by decide)) (by decide)) <|
    .stepL (.read (f := .value2) (kick_current (by decide)) (by decide)) <|
    .stepL (.read (f := .flags) (kick_current (by decide)) (by decide)) <|
    .stepL (.read (f := .flags2) (kick_current (by decide)) (by decide)) <|
    .stepL (.consume (kick_current (by decide)) (by decide)
      ⟨5, ~~~5, 1, ~~~1, by decide⟩) <|
    .stepL (.kickEnd (kick_current (by decide)) (Or.inl (by decide))) <|
    .stepL (.wait (a := .anonymous) (by decide) (by decide)) .refl⟩

theorem rmdbarrier_agreement_two :
    (twoAnonymous.result 0 1).consensus = twoAnonymous.total 1 :=
  (rmdbarrier_agreement twoAnonymous_reachable).2.1 0 1 (by decide) (by decide)

/-- The value that comes with an anonymous result is not agreed on. -/
theorem rmdbarrier_value_differs :
    ∃ s : State 2, Reachable Step (initial 2) s ∧ 1 ≤ s.completed 0 ∧ 1 ≤ s.completed 1 ∧
      s.result 0 1 ≠ s.result 1 1 :=
  ⟨twoAnonymous, twoAnonymous_reachable, by decide, by decide, by decide⟩

def State.abs (s : State N) : Spec.State N := ⟨s.notified, s.completed, s.arg⟩

def Action.event : Action N → Option (Spec.Event N)
  | .notify r a | .singleton r a => some (.notify r a)
  | .wait r a ok => some (.wait r a ok)
  | .land .. | .complete .. | .kickStart _ | .read .. | .consume _ | .kickEnd _ => none

theorem refines_step (h : Step s act t) (hs : Inv s) :
    Spec.Simulates s.abs act.event t.abs := by
  cases h with
  | land | complete | kickStart | read | consume => rfl
  | @kickEnd r K =>
    obtain ⟨_, _, hn, hc, ha, _⟩ := kickEnd_frame s r K
    show State.abs _ = _
    rw [State.abs, hn, hc, ha]
    rfl
  | notify hin => exact Spec.Step.notify (hs.outside _ hin)
  | singleton hin => exact Spec.Step.notify (hs.outside _ hin)
  | @wait r a hin hstep =>
    have hok : (s.data r).waitOk a = outcome (s.abs.total (s.abs.notified r)) a := by
      show accepts (s.data r).tag a = _
      rw [accepts_eq_outcome, wait_total hs hin hstep]
      rfl
    show Spec.Step s.abs (.wait r a _) _
    rw [hok]
    exact Spec.Step.wait (hs.inside r hin) (wait_heard hs hin hstep)

end Gasnet.Barrier.Rmd
