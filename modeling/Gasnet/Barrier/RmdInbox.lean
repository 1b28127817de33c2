import Gasnet.Barrier.RmdPuts

/-! The redundant encoding shows when a payload is complete, and four phases keep the payloads
of different barriers apart. -/
namespace Gasnet.Barrier.Rmd

open Dissemination
open Amd (size)

variable {N : Nat} {s t : State N} {r p q j : Fin N} {i k n : Nat} {a : Tag} {act : Action N}
  {v w : Flat Arg} {P : Put} {K : Kick} {f : Field} {x : Arg}

theorem overwrite_masked (x seen mask : Arg) :
    x &&& seen &&& ~~~mask ||| x &&& mask = x &&& (seen ||| mask) := by
  ext i hi
  simp
  cases x[i] <;> cases seen[i] <;> cases mask[i] <;> rfl

theorem and_or_of_and {r x seen mask : Arg} (h : r &&& (x &&& seen) = r) :
    r &&& (x &&& (seen ||| mask)) = r := by
  ext i hi
  have hb := congrArg (·[i]) h
  simp at hb ⊢
  grind

/-- Words read from partial copies of a word and of its complement match only when both copies
are whole: a bit that is missing from one is missing from the other as well. -/
theorem whole_of_match {v v2 x seen seen2 : Arg} (h : v &&& (x &&& seen) = v)
    (h2 : v2 &&& (~~~x &&& seen2) = v2) (he : v = ~~~v2) :
    x &&& seen = x ∧ ~~~x &&& seen2 = ~~~x := by
  constructor
  · ext i hi
    have hb := congrArg (·[i]) h
    have hb2 := congrArg (·[i]) h2
    have he := congrArg (·[i]) he
    simp at hb hb2 he ⊢
    grind
  · ext i hi
    have hb := congrArg (·[i]) h
    have hb2 := congrArg (·[i]) h2
    have he := congrArg (·[i]) he
    simp at hb hb2 he ⊢
    grind

/-- A running kick looks at the inbox of the barrier at hand, which it has not consumed. -/
theorem kick_consumed (hs : Inv s) (hK : s.kick r = some K) :
    s.consumed r K.step = s.completed r ∧ s.notified r = s.completed r + 1 :=
  ⟨consumed_of_le (le_of_eq (reached_some hK)), hs.inside r (hs.kick r K hK).inside⟩

/-- The inbox that a running kick looks at shows bits of one put. -/
theorem kick_cell (hs : Inv s) (hK : s.kick r = some K) (hlt : K.step < size N)
    (hp : fwd p K.step = r) :
    s.inbox r (s.data r).phase K.step = visible (s.puts p (s.notified r) K.step) := by
  obtain ⟨hcons, hin⟩ := kick_consumed hs hK
  subst hp
  rw [hs.phase _ (by omega)]
  exact hs.cell p K.step _ hlt (by omega) (by omega)

/-- What a poll accepts is the whole payload of the barrier at hand. -/
theorem accepts_payload (hs : Inv s) (hK : s.kick r = some K) (hlt : K.step < size N)
    (ha : K.Accepts) (hp : fwd p K.step = r) :
    ∃ P, s.puts p (s.notified r) K.step = some P ∧
      s.inbox r (s.data r).phase K.step = payload P.arg := by
  obtain ⟨v, v2, f, f2, hv, hv2, hf, hf2, hmatch, hmatch'⟩ := ha
  have hread : ∀ g y, K.reads g = some y →
      y &&& visible (s.puts p (s.notified r) K.step) g = y := by
    intro g y hy
    rw [← kick_cell hs hK hlt hp]
    exact hs.reads r K g y hK hlt hy
  have hrv := hread _ _ hv
  have hrv2 := hread _ _ hv2
  have hrf := hread _ _ hf
  have hrf2 := hread _ _ hf2
  rw [kick_cell hs hK hlt hp]
  cases hput : s.puts p (s.notified r) K.step with
  | none =>
    -- Zeros are not each other's complement.
    have hzero : ∀ y : Arg, y &&& (0 : Inbox) .value = y → y = 0 := fun y hy => by
      rw [← hy]
      exact BitVec.and_zero
    rw [hput] at hrv hrv2
    rw [hzero v hrv, hzero v2 hrv2] at hmatch
    exact absurd hmatch (by decide)
  | some P =>
    simp only [hput, visible, payload] at hrv hrv2 hrf hrf2
    obtain ⟨h1, h2⟩ := whole_of_match hrv hrv2 hmatch
    obtain ⟨h3, h4⟩ := whole_of_match hrf hrf2 hmatch'
    refine ⟨P, rfl, funext fun g => ?_⟩
    cases g with
    | value => exact h1
    | value2 => exact h2
    | flags => exact h3
    | flags2 => exact h4

theorem stepTag_accepted (hs : Inv s) (hK : s.kick r = some K) (hlt : K.step < size N)
    (ha : K.Accepts) (hp : fwd p K.step = r) :
    ∃ P, s.puts p (s.notified r) K.step = some P ∧
      s.stepTag r (s.data r).phase K.step = P.arg := by
  obtain ⟨P, hP, hcell⟩ := accepts_payload hs hK hlt ha hp
  refine ⟨P, hP, ?_⟩
  rw [State.stepTag, hcell]
  rfl

/-- Two live barriers of one phase are the same. -/
theorem eq_of_phase {c k l : Nat} (hph : k % 4 = l % 4) (hk : c ≤ k + 1) (hk' : k ≤ c + 2)
    (hl : c ≤ l + 1) (hl' : l ≤ c + 2) : k = l := by
  omega

/-- A put that is not complete is of a barrier its inbox still distinguishes. -/
theorem live (hs : Inv s) (hP : s.puts p k i = some P) (hd : P.done = false) :
    s.consumed (fwd p i) i ≤ k + 1 ∧ k ≤ s.consumed (fwd p i) i + 2 := by
  obtain ⟨_, hsent, hN⟩ := put_sent hs hP
  have hnot := sent_le_notified hs.toControl p i
  have hcons := hs.consumed_le p i hN
  have hle := sent_le hs p (fwd p i) i
  have hquiet : ¬ k + 2 ≤ s.notified p := by
    intro hq
    rw [(hs.put p k i P hP).quiet hq] at hd
    exact Bool.noConfusion hd
  omega

theorem puts_none (hs : Inv s) (hk : s.sent p i < k) : s.puts p k i = none := by
  by_contra hne
  have := ((hs.puts p k i).mp hne).2.1
  omega

/-- The inbox two phases on holds nothing that is still to be consumed, and nothing more is on
its way to it. -/
theorem alt_spent (hs : Inv s) (hK : s.kick r = some K) (hlt : K.step < size N)
    (ha : K.Accepts) (hp : fwd p K.step = r) (hP : s.puts p k K.step = some P)
    (hk : k % 4 = (s.data r).altPhase) : k ≤ s.consumed r K.step ∧ P.done = true := by
  obtain ⟨Q, hQ, _⟩ := accepts_payload hs hK hlt ha hp
  obtain ⟨hcons, hin⟩ := kick_consumed hs hK
  have hsent := (put_sent hs hP).2.1
  have hle := sent_le hs p r K.step
  have hcur := (put_sent hs hQ).2.1
  have hnot := sent_le_notified hs.toControl p K.step
  rw [Data.altPhase, hs.phase r (by omega)] at hk
  have hfar : k + 2 ≤ s.notified r := by omega
  exact ⟨by omega, (hs.put p k _ P hP).quiet (by omega)⟩

theorem visible_step (h : Step s act t) (hs : Inv s) (hact : ∀ mask, act ≠ .land p k i mask) :
    visible (t.puts p k i) = visible (s.puts p k i) := by
  cases put_step h hs p k i with
  | same he => rw [he]
  | land P mask he => exact absurd he (hact mask)
  | complete P hP he =>
    rw [he, hP]
    rfl
  | issue P _ hold _ _ hseen _ he =>
    rw [he, puts_none hs hold]
    funext f
    simp [visible, hseen]

/-- A word once read stays below what the inbox shows. -/
theorem visible_mono (h : Step s act t) (hs : Inv s)
    (hx : x &&& visible (s.puts p k i) f = x) : x &&& visible (t.puts p k i) f = x := by
  cases put_step h hs p k i with
  | same he => rwa [he]
  | land P mask _ hP _ he =>
    rw [hP] at hx
    rw [he]
    exact and_or_of_and hx
  | complete P hP he =>
    rw [hP] at hx
    rw [he]
    exact hx
  | issue P _ hold _ _ _ _ he =>
    rw [puts_none hs hold] at hx
    rw [← hx]
    simp [visible]

theorem setInbox_other {ph m : Nat} (x : Inbox) (hne : ¬ (r = q ∧ ph = k ∧ m = i)) :
    (s.setInbox r ph m x).inbox q k i = s.inbox q k i := by
  by_cases hr : q = r
  · subst hr
    by_cases hk : k = ph
    · subst hk
      have hm : i ≠ m := fun hm => hne ⟨rfl, rfl, hm.symm⟩
      simp [hm]
    · simp [hk]
  · simp [hr]

theorem cell_keep (h : Step s act t) (hs : Inv s) (hi : i < size N)
    (hact : ∀ mask, act ≠ .land p k i mask) (hcons : t.consumed (fwd p i) i = s.consumed (fwd p i) i)
    (hbox : t.inbox (fwd p i) (k % 4) i = s.inbox (fwd p i) (k % 4) i)
    (hlo : t.consumed (fwd p i) i ≤ k + 1) (hhi : k ≤ t.consumed (fwd p i) i + 2) :
    t.inbox (fwd p i) (k % 4) i = visible (t.puts p k i) := by
  rw [hcons] at hlo hhi
  rw [hbox, visible_step h hs hact, hs.cell p i k hi hlo hhi]

theorem cell_land {l m : Nat} {mask : Inbox} (hs : Inv s) (hP : s.puts r l m = some P)
    (hd : P.done = false) (hi : i < size N)
    (hlo : (s.land r l m P mask).consumed (fwd p i) i ≤ k + 1)
    (hhi : k ≤ (s.land r l m P mask).consumed (fwd p i) i + 2) :
    (s.land r l m P mask).inbox (fwd p i) (k % 4) i =
      visible ((s.land r l m P mask).puts p k i) := by
  have h : Step s (.land r l m mask) (s.land r l m P mask) := .land hP hd
  have hcons : (s.land r l m P mask).consumed (fwd p i) i = s.consumed (fwd p i) i :=
    consumed_congr (by simp) (by simp [State.reached]) (by simp) i
  have hinv := hs.put r l m P hP
  have hlive := live hs hP hd
  by_cases hcell : fwd r m = fwd p i ∧ P.phase = k % 4 ∧ m = i
  · obtain ⟨hr, hph, rfl⟩ := hcell
    obtain rfl : r = p := fwd_injective m hr
    rw [hcons] at hlo hhi
    obtain rfl : l = k :=
      eq_of_phase (hinv.phase.symm.trans hph) hlive.1 hlive.2 hlo hhi
    have hold := hs.cell r m l hi hlo hhi
    rw [hP] at hold
    rw [← hph] at hold ⊢
    funext f
    simp only [State.land, State.setInbox, State.setPut, Function.update_self, overwrite,
      hinv.temporary hd, hold, visible]
    exact overwrite_masked _ _ _
  · refine cell_keep h hs hi ?_ hcons ?_ hlo hhi
    · intro mask' he
      obtain ⟨rfl, rfl, rfl, _⟩ : r = p ∧ l = k ∧ m = i ∧ mask = mask' := by simpa using he
      exact hcell ⟨rfl, hinv.phase, rfl⟩
    · exact setInbox_other _ hcell

theorem cell_consume (hs : Inv s) (hK : s.kick r = some K) (hlt : K.step < size N)
    (ha : K.Accepts) (hi : i < size N)
    (hlo : (s.consume r K).consumed (fwd p i) i ≤ k + 1)
    (hhi : k ≤ (s.consume r K).consumed (fwd p i) i + 2) :
    (s.consume r K).inbox (fwd p i) (k % 4) i = visible ((s.consume r K).puts p k i) := by
  have h : Step s (.consume r) (s.consume r K) := .consume hK hlt ha
  have hact : ∀ mask, Action.consume r ≠ .land p k i mask := fun _ he => by simp at he
  by_cases hcell : r = fwd p i ∧ K.step = i
  · obtain ⟨rfl, rfl⟩ := hcell
    obtain ⟨hcons, hin⟩ := kick_consumed hs hK
    have hnew : (s.consume (fwd p K.step) K).consumed (fwd p K.step) K.step =
        s.completed (fwd p K.step) + 1 := by
      rw [consumed_of_lt (by simpa using (hs.kick _ K hK).inside)]
      · simp
      · rw [@reached_some _ _ (fwd p K.step)
          (K.merge (s.stepTag (fwd p K.step) (s.data (fwd p K.step)).phase K.step)) (by simp)]
        exact Nat.lt_succ_self _
    rw [hnew] at hlo hhi
    have halt : (s.data (fwd p K.step)).altPhase = (s.completed (fwd p K.step) + 3) % 4 := by
      rw [Data.altPhase, hs.phase _ (by omega), hin]
      omega
    by_cases hk : k % 4 = (s.data (fwd p K.step)).altPhase
    · have hnone : s.puts p k K.step = none := by
        apply puts_none hs
        have := sent_le hs p (fwd p K.step) K.step
        omega
      rw [visible_step h hs hact, hnone]
      simp [hk, visible]
    · rw [visible_step h hs hact, ← hs.cell p K.step k hi (by omega) (by omega)]
      simp [hk]
  · have hcons : (s.consume r K).consumed (fwd p i) i = s.consumed (fwd p i) i := by
      rcases consumed_step (q := fwd p i) h hs.toControl hi with he | ⟨L, he, hL, hst, _⟩
      · exact he
      · obtain rfl : r = fwd p i := by simpa using he
        rw [hK] at hL
        obtain rfl : K = L := by simpa using hL
        exact absurd ⟨rfl, hst⟩ hcell
    refine cell_keep h hs hi hact hcons ?_ hlo hhi
    exact setInbox_other _ fun he => hcell ⟨he.1, he.2.2⟩

theorem cell_step (h : Step s act t) (hs : Inv s) (p : Fin N) (i k : Nat) (hi : i < size N)
    (hlo : t.consumed (fwd p i) i ≤ k + 1) (hhi : k ≤ t.consumed (fwd p i) i + 2) :
    t.inbox (fwd p i) (k % 4) i = visible (t.puts p k i) := by
  have hcons := consumed_step (q := fwd p i) h hs.toControl hi
  cases h with
  | land hP hd => exact cell_land hs hP hd hi hlo hhi
  | consume hK hlt ha => exact cell_consume hs hK hlt ha hi hlo hhi
  | notify hin hN hq =>
    exact cell_keep (.notify hin hN hq) hs hi (by simp) (by simpa using hcons) (by simp) hlo hhi
  | singleton _ hz => omega
  | complete hP hseen =>
    exact cell_keep (.complete hP hseen) hs hi (by simp) (by simpa using hcons) (by simp) hlo hhi
  | kickStart hin hstep hk =>
    exact cell_keep (.kickStart hin hstep hk) hs hi (by simp) (by simpa using hcons) (by simp)
      hlo hhi
  | read hK hstep =>
    exact cell_keep (.read hK hstep) hs hi (by simp) (by simpa using hcons) (by simp) hlo hhi
  | @kickEnd r K hK hend =>
    exact cell_keep (.kickEnd hK hend) hs hi (by simp) (by simpa using hcons)
      (by rw [(kickEnd_frame s r K).2.1]) hlo hhi
  | wait hin hstep =>
    exact cell_keep (.wait (a := .anonymous) hin hstep) hs hi (by simp) (by simpa using hcons)
      (by simp) hlo hhi

end Gasnet.Barrier.Rmd
