import Gasnet.Barrier.RmdSteps
import Mathlib.Data.LawfulXor.Basic

/-! Which puts a step issues, and why a temporary is not reused before its puts are
complete. -/
namespace Gasnet.Barrier.Rmd

open Dissemination
open Amd (size)

variable {N : Nat} {s t : State N} {r p q j : Fin N} {i k n : Nat} {a : Tag} {act : Action N}
  {v w : Flat Arg} {P : Put} {K : Kick}

/-- The steps a kick sends: those after the published one, up to its own, less the last. -/
theorem mem_sends (hi : KickInv s r K) :
    (s.data r).step + 1 ≤ i ∧ i < (s.data r).step + 1 + numSends (size N) (s.data r) K ↔
      (s.data r).step < i ∧ i ≤ K.step ∧ i < size N := by
  have hlt := hi.step_lt
  have hle := hi.le_step
  have hsz := hi.step_le
  unfold numSends
  split <;> omega

/-- The put that the end of a kick issues. -/
def kickPut (d : Data) (K : Kick) : Put := ⟨d.phase, d.step + 1, 0, false, K.tag⟩

theorem kickEnd_puts (hi : KickInv s r K) (q : Fin N) (k i : Nat) :
    (s.kickEnd r K).puts q k i =
      if q = r ∧ k = s.notified r ∧ (s.data r).step < i ∧ i ≤ K.step ∧ i < size N then
        some (kickPut (s.data r) K)
      else s.puts q k i := by
  have hmem := mem_sends (i := i) hi
  unfold State.kickEnd
  split
  · rw [if_neg (by omega)]
    rfl
  · split
    · rename_i hz
      rw [hz] at hmem
      rw [if_neg (by omega)]
      rfl
    · by_cases hq : q = r
      · subst hq
        by_cases hk : k = s.notified q
        · subst hk
          simp only [Nat.add_one_le_iff] at hmem
          simp [hmem, kickPut, Nat.add_one_le_iff]
        · simp [hk]
      · simp [hq]

theorem kickEnd_temporary (hi : KickInv s r K) (q : Fin N) (ph i : Nat) :
    (s.kickEnd r K).temporary q ph i = s.temporary q ph i ∨
      (q = r ∧ ph = (s.data r).phase ^^^ 1 ∧ i = (s.data r).step + 1 ∧
        (s.kickEnd r K).temporary q ph i = payload K.tag) := by
  unfold State.kickEnd
  split
  · exact Or.inl rfl
  · split
    · exact Or.inl rfl
    · by_cases hq : q = r
      · subst hq
        by_cases hph : ph = (s.data q).phase ^^^ 1
        · subst hph
          by_cases he : i = (s.data q).step + 1
          · subst he
            exact Or.inr ⟨rfl, rfl, rfl, by simp⟩
          · left
            simp [he]
        · left
          simp [hph]
      · left
        simp [hq]

/-- A kick that sends fills its temporary. -/
theorem kickEnd_temporary_self (hi : KickInv s r K) (hlt : (s.data r).step < i)
    (hle : i ≤ K.step) (hN : i < size N) :
    (s.kickEnd r K).temporary r ((s.data r).phase ^^^ 1) ((s.data r).step + 1) =
      payload K.tag := by
  have hmem := (mem_sends hi).mpr ⟨hlt, hle, hN⟩
  unfold State.kickEnd
  rw [if_neg (by omega), if_neg (by omega)]
  simp

/-- The put that a notify issues. -/
def notifyPut (d : Data) (a : Tag) : Put := ⟨d.nextPhase, 0, 0, false, a⟩

theorem notify_puts (s : State N) (r : Fin N) (a : Tag) (q : Fin N) (k i : Nat) :
    (s.notify r a).puts q k i =
      if q = r ∧ k = s.notified r + 1 ∧ i = 0 then some (notifyPut (s.data r) a)
      else s.puts q k i := by
  by_cases hq : q = r
  · subst hq
    by_cases hk : k = s.notified q + 1
    · subst hk
      simp [notifyPut]
    · simp [hk]
  · simp [hq]

/-- A step leaves a put as it is, shows more of it, completes it, or issues it. -/
inductive PutStep (s : State N) (act : Action N) (t : State N) (p : Fin N) (k i : Nat) : Prop
  | same (h : t.puts p k i = s.puts p k i)
  | land (P : Put) (mask : Inbox) (hact : act = .land p k i mask) (hP : s.puts p k i = some P) (hd : P.done = false)
      (h : t.puts p k i = some { P with seen := fun f => P.seen f ||| mask f })
  | complete (P : Put) (hP : s.puts p k i = some P)
      (h : t.puts p k i = some { P with done := true })
  | issue (P : Put) (hk : 0 < k) (hold : s.sent p i < k) (hnew : k = t.sent p i)
      (hN : i < size N) (hseen : P.seen = 0) (hP : PutInv t p k i P)
      (h : t.puts p k i = some P)

theorem covers_le (hc : s.Covers k n r v) (hi : i ≤ n) : s.Covers k i r v :=
  ⟨fun j hj => hc.1 j (hears_mono hi hj), hc.2⟩

theorem put_step (h : Step s act t) (hs : Inv s) (p : Fin N) (k i : Nat) :
    PutStep s act t p k i := by
  have hext := extends_step h hs.toControl
  have hct := control_step h hs.toControl
  by_cases hp : p = act.actor
  · subst hp
    cases h with
    | singleton | kickStart | read | consume | wait => exact .same (by simp)
    | @land r l m P mask hP hd =>
      by_cases hk : k = l
      · subst hk
        by_cases hi : i = m
        · subst hi
          exact .land P mask rfl hP hd (by simp [Action.actor])
        · exact .same (by simp [Action.actor, hi])
      · exact .same (by simp [Action.actor, hk])
    | @complete r l m P hP hseen =>
      by_cases hk : k = l
      · subst hk
        by_cases hi : i = m
        · subst hi
          exact .complete P hP (by simp [Action.actor])
        · exact .same (by simp [Action.actor, hi])
      · exact .same (by simp [Action.actor, hk])
    | @notify r a hin hN hq =>
      simp only [Action.actor]
      by_cases hc : k = s.notified r + 1 ∧ i = 0
      · obtain ⟨rfl, rfl⟩ := hc
        have hph := hct.phase r hN
        refine .issue (notifyPut (s.data r) a) (by omega) (Nat.lt_succ_self _) ?_ hN rfl ?_ ?_
        · simp [State.sent]
        · refine ⟨?_, le_rfl, ?_, ?_, ?_⟩
          · simpa [notifyPut] using hph
          · have hcov := covers_self (s.notify r a) r (k := s.notified r + 1) (by simp)
            simpa [State.said, notifyPut] using hcov
          · intro hle
            have hnow : (s.notify r a).notified r = s.notified r + 1 := by simp
            omega
          · intro _
            simp [notifyPut]
        · rw [notify_puts, if_pos ⟨rfl, rfl, rfl⟩]
      · refine .same ?_
        rw [notify_puts, if_neg fun hx => hc hx.2]
    | @kickEnd r K hK hend =>
      simp only [Action.actor]
      have hi := hs.kick r K hK
      by_cases hc : k = s.notified r ∧ (s.data r).step < i ∧ i ≤ K.step ∧ i < size N
      · obtain ⟨rfl, hlt, hle, hN⟩ := hc
        have hf := kickEnd_frame s r K
        have hin := hs.inside r hi.inside
        obtain ⟨c, rfl⟩ : ∃ c, i = c + 1 := ⟨i - 1, by omega⟩
        refine .issue (kickPut (s.data r) K) (by omega) ?_ ?_ hN rfl ?_ ?_
        · rw [State.sent, published_of_le (by omega)]
          omega
        · rw [State.sent, published_of_lt (by rw [hf.1]; exact hi.inside)
            (by rw [(kickEnd_step s r K).1]; omega), hf.2.2.2.1]
          exact hin
        · refine ⟨?_, hlt, ?_, ?_, ?_⟩
          · exact hs.phase r (by omega)
          · exact covers_mono hext (covers_le (hs.running r K hK) hle)
          · intro hq
            rw [hf.2.2.1] at hq
            omega
          · intro _
            exact kickEnd_temporary_self hi hlt hle hN
        · rw [kickEnd_puts hi, if_pos ⟨rfl, rfl, hlt, hle, hN⟩]
      · refine .same ?_
        rw [kickEnd_puts hi, if_neg fun hx => hc hx.2]
  · exact .same (by rw [(step_other h hp).puts])

theorem sent_mono (h : Step s act t) (hs : Control s) (p : Fin N) (hi : i < size N) :
    s.sent p i ≤ t.sent p i := by
  cases i with
  | zero => exact (extends_step h hs).notified p
  | succ i =>
    rcases published_step (q := p) h hs (Nat.lt_of_succ_lt hi) with he | ⟨K, _, _, _, _, _, he⟩
    · exact le_of_eq he.symm
    · rw [State.sent, State.sent, he]
      exact published_le_notified hs p i

/-- What is newly due has just been issued. -/
theorem sent_step (h : Step s act t) (hs : Inv s) (p : Fin N) (hi : i < size N) :
    t.sent p i = s.sent p i ∨
      (t.sent p i = s.sent p i + 1 ∧ t.puts p (t.sent p i) i ≠ none) := by
  cases i with
  | zero =>
    by_cases hp : p = act.actor
    · subst hp
      cases h with
      | @notify r a =>
        right
        have hsent : (s.notify r a).sent r 0 = s.notified r + 1 := by simp [State.sent]
        refine ⟨hsent, ?_⟩
        rw [Action.actor, hsent, notify_puts, if_pos ⟨rfl, rfl, rfl⟩]
        simp
      | singleton _ hz => omega
      | @kickEnd r K => exact Or.inl (congrFun (kickEnd_frame s r K).2.2.1 _)
      | land | complete | kickStart | read | consume | wait => exact Or.inl rfl
    · exact Or.inl (step_other h hp).notified
  | succ i =>
    rcases published_step (q := p) h hs.toControl (Nat.lt_of_succ_lt hi) with
      he | ⟨K, _, hK, rfl, hle, hlt, he⟩
    · exact Or.inl he
    · right
      have hkick := hs.kick p K hK
      have hold : s.sent p (i + 1) = s.completed p := published_of_le hle
      have hsent : (s.kickEnd p K).sent p (i + 1) = s.notified p := he
      refine ⟨by rw [hsent, hold, hs.inside p hkick.inside], ?_⟩
      rw [hsent, kickEnd_puts hkick, if_pos ⟨rfl, rfl, by omega, by omega, hi⟩]
      simp

theorem puts_step (h : Step s act t) (hs : Inv s) (p : Fin N) (k i : Nat) :
    t.puts p k i ≠ none ↔ 0 < k ∧ k ≤ t.sent p i ∧ i < size N := by
  have hold := hs.puts p k i
  constructor
  · intro hne
    cases put_step h hs p k i with
    | same he =>
      rw [he] at hne
      obtain ⟨hk, hle, hN⟩ := hold.mp hne
      exact ⟨hk, le_trans hle (sent_mono h hs.toControl p hN), hN⟩
    | land P mask _ hP | complete P hP =>
      obtain ⟨hk, hle, hN⟩ := put_sent hs hP
      exact ⟨hk, le_trans hle (sent_mono h hs.toControl p hN), hN⟩
    | issue P hk _ hnew hN => exact ⟨hk, le_of_eq hnew, hN⟩
  · rintro ⟨hk, hle, hN⟩
    cases put_step h hs p k i with
    | land P mask _ _ _ he | complete P _ he | issue P _ _ _ _ _ _ he => simp [he]
    | same he =>
      rw [he]
      refine hold.mpr ⟨hk, ?_, hN⟩
      rcases sent_step h hs p hN with hsent | ⟨hsent, hnew⟩
      · omega
      · by_contra hlt
        obtain rfl : k = t.sent p i := by omega
        rw [he] at hnew
        exact hlt (hold.mp hnew).2.1

/-- A rank that starts a barrier has completed its puts of two barriers before. -/
theorem quiet_step (h : Step s act t) (hs : Inv s) (hP : s.puts p k i = some P)
    (hk : k + 2 ≤ t.notified p) : P.done = true := by
  have hold := (hs.put p k i P hP).quiet
  by_cases hp : p = act.actor
  · subst hp
    cases h with
    | @notify r a hin hN hq => exact hq k i P (by simpa [Action.actor] using hk) hP
    | singleton _ hz =>
      have := (put_sent hs hP).2.2
      omega
    | @kickEnd r K =>
      rw [(kickEnd_frame s r K).2.2.1] at hk
      exact hold hk
    | land | complete | kickStart | read | consume | wait => exact hold hk
  · rw [(step_other h hp).notified] at hk
    exact hold hk

/-- No step writes the temporary of a put that is not complete. -/
theorem temporary_step (h : Step s act t) (hs : Inv s) (hP : s.puts p k i = some P)
    (hd : P.done = false) :
    t.temporary p (P.phase ^^^ 1) P.first = s.temporary p (P.phase ^^^ 1) P.first := by
  have hi := hs.put p k i P hP
  obtain ⟨hk, hsent, hN⟩ := put_sent hs hP
  have hle := le_trans hsent (sent_le_notified hs.toControl p i)
  have hN0 : 0 < size N := by omega
  have hphase := hs.phase p hN0
  by_cases hp : p = act.actor
  · subst hp
    cases h with
    | @notify r a hin _ hq =>
      simp only [Action.actor] at *
      by_cases hph : P.phase ^^^ 1 = (s.data r).nextPhase ^^^ 1
      · have hph : P.phase = (s.data r).nextPhase := (xor_left_involutive 1).injective hph
        rw [hi.phase, Data.nextPhase, hphase] at hph
        have hdone : ¬ k + 2 ≤ s.notified r + 1 := by
          intro hq'
          rw [hq k i P hq' hP] at hd
          exact Bool.noConfusion hd
        omega
      · simp [hph]
    | @kickEnd r K hK hend =>
      simp only [Action.actor] at *
      have hkick := hs.kick r K hK
      rcases kickEnd_temporary hkick r (P.phase ^^^ 1) P.first with he | ⟨_, hph, hfirst, _⟩
      · exact he
      · have hph : P.phase = (s.data r).phase := (xor_left_involutive 1).injective hph
        rw [hi.phase, hphase] at hph
        have hdone : ¬ k + 2 ≤ s.notified r := by
          intro hq'
          rw [hi.quiet hq'] at hd
          exact Bool.noConfusion hd
        obtain rfl : k = s.notified r := by omega
        have hstep := step_of_sent hs.toControl hkick.inside hsent
        have hlow := hi.first
        omega
    | singleton _ hz => omega
    | land | complete | kickStart | read | consume | wait => simp
  · rw [(step_other h hp).temporary]

theorem putInv_keep {P' : Put} (h : Step s act t) (hs : Inv s) (hP : s.puts p k i = some P)
    (hph : P'.phase = P.phase) (hfirst : P'.first = P.first) (harg : P'.arg = P.arg)
    (hdone : P.done = true → P'.done = true) : PutInv t p k i P' := by
  have hi := hs.put p k i P hP
  refine ⟨hph.trans hi.phase, hfirst.trans_le hi.first, ?_, ?_, ?_⟩
  · rw [harg]
    exact covers_mono (extends_step h hs.toControl) hi.covers
  · intro hk
    exact hdone (quiet_step h hs hP hk)
  · intro hd
    have hd0 : P.done = false := by
      by_contra hne
      rw [hdone (eq_true_of_ne_false hne)] at hd
      exact Bool.noConfusion hd
    rw [hph, hfirst, harg, temporary_step h hs hP hd0, hi.temporary hd0]

theorem putInv_step (h : Step s act t) (hs : Inv s) (p : Fin N) (k i : Nat) (P : Put)
    (hP : t.puts p k i = some P) : PutInv t p k i P := by
  cases put_step h hs p k i with
  | same he =>
    rw [he] at hP
    exact putInv_keep h hs hP rfl rfl rfl id
  | land P0 mask _ hP0 _ he =>
    obtain rfl : { P0 with seen := fun f => P0.seen f ||| mask f } = P := by simpa [he] using hP
    exact putInv_keep h hs hP0 rfl rfl rfl id
  | complete P0 hP0 he =>
    obtain rfl : { P0 with done := true } = P := by simpa [he] using hP
    exact putInv_keep h hs hP0 rfl rfl rfl fun _ => rfl
  | issue P0 _ _ _ _ _ hi he =>
    obtain rfl : P0 = P := by simpa [he] using hP
    exact hi

end Gasnet.Barrier.Rmd
