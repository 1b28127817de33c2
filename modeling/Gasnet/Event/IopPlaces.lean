import Gasnet.Event.IopRuns

/-! Iops in use are those of the open and the ended regions; all others are idle. -/
namespace Gasnet.Event

variable {T : Type*} [DecidableEq T] {cfg : Config} {s s' : State T} {t u : T} {k l n : Nat}
  {c e : Cat} {d : Counter} {f : Finish T} {a : Action T}

theorem begin_lists (cfg : Config) (s : State T) (t u : T) :
    (s.begin cfg t).regions u = (if u = t then (s.takeIop t).1 :: s.regions u else s.regions u) ∧
      (s.begin cfg t).held u = s.held u ∧ (s.begin cfg t).finishing = s.finishing := by
  have hreg : (s.takeIop t).2.held = s.held := by
    unfold State.takeIop
    split <;> rfl
  refine ⟨?_, congrFun hreg u, takeIop_finishing s t⟩
  by_cases hu : u = t
  · subst hu
    simp [State.begin]
  · simp [State.begin, hu]

theorem finish_lists (cfg : Config) (s : State T) (t : T) (k : Nat) (c : Cat) (n : Nat) :
    (s.finish cfg t k c n).regions = s.regions ∧ (s.finish cfg t k c n).held = s.held := by
  unfold State.finish
  dsimp only
  split <;> exact ⟨rfl, rfl⟩

theorem check_lists (cfg : Config) (s : State T) (f : Finish T) :
    (s.check cfg f).regions = s.regions ∧ (s.check cfg f).held = s.held ∧
      (s.check cfg f).finishing = s.finishing.erase f := by
  unfold State.check
  dsimp only
  split <;> exact ⟨rfl, rfl, rfl⟩

theorem sync_lists (s : State T) (u t : T) (k : Nat) :
    (s.sync u t k).regions = s.regions ∧
      (s.sync u t k).held = Function.update s.held t ((s.held t).erase k) ∧
      (s.sync u t k).finishing = s.finishing := by
  unfold State.sync
  dsimp only
  split <;> exact ⟨rfl, rfl, rfl⟩

omit [DecidableEq T] in
theorem lists_held (hs : Lists s) (hk : k ∈ s.held t) :
    k ≠ 0 ∧ k ∉ s.regions t ∧ k ∉ (s.held t).erase k := by
  have hnodup := hs.nodup t
  simp only [List.nodup_cons, List.nodup_append, List.mem_append] at hnodup
  refine ⟨?_, ?_, ?_⟩
  · rintro rfl
    tauto
  · intro hr
    exact hnodup.2.1.1.2.2 k hr k hk rfl
  · exact hnodup.2.1.1.2.1.not_mem_erase

theorem next_finishReg (cfg : Config) (s : State T) (t : T) (k : Nat) (c : Cat) (n : Nat)
    (d : Counter) (u : T) (l : Nat) :
    ((s.finishReg cfg t k c n d).iops u l).next = (s.iops u l).next :=
  next_setCounter ..

theorem next_finish (cfg : Config) (s : State T) (t : T) (k : Nat) (c : Cat) (n : Nat) (u : T)
    (l : Nat) : ((s.finish cfg t k c n).iops u l).next = (s.iops u l).next := by
  unfold State.finish
  dsimp only
  split
  · exact next_finishReg ..
  · exact next_setCounter ..

theorem next_check (cfg : Config) (s : State T) (f : Finish T) (u : T) (l : Nat) :
    ((s.check cfg f).iops u l).next = (s.iops u l).next := by
  unfold State.check
  dsimp only
  split
  · exact next_setCounter ..
  · rfl

/-- The link of an iop changes only as the iop enters a region, leaves it, or is freed. -/
theorem next_step (h : Step cfg s a s') (hs : Lists s) (u : T) (l : Nat) :
    (s'.iops u l).next = (s.iops u l).next ∨
      (l ≠ 0 ∧ ((s'.iops u l).next ≠ none ∨ l ∉ s'.regions u ∧ l ∉ s'.held u)) := by
  cases h with
  | @begin t =>
    have htake := takeIop_iops s t
    by_cases hu : u = t
    · subst hu
      by_cases hk : l = (s.takeIop u).1
      · subst hk
        exact Or.inr ⟨(takeIop_idle hs).1, Or.inl (by simp [State.begin])⟩
      · left
        simp [State.begin, hk, htake]
    · left
      simp [State.begin, hu, htake]
  | start => exact Or.inl (next_setCounter ..)
  | balance => exact Or.inl (next_finishReg ..)
  | finish => exact Or.inl (next_finish ..)
  | check => exact Or.inl (next_check ..)
  | @pop t k ks hr =>
    by_cases hu : u = t
    · subst hu
      by_cases hk : l = k
      · subst hk
        have hnodup := hs.nodup u
        simp [hr] at hnodup
        exact Or.inr ⟨Ne.symm hnodup.1.1, Or.inl (by simp [State.pop])⟩
      · left
        simp [State.pop, hk]
    · left
      simp [State.pop, hu]
  | @sync v t k hk hdone =>
    obtain ⟨hreg, hheld, _⟩ := sync_lists s v t k
    by_cases hu : u = t
    · subst hu
      by_cases hlk : l = k
      · subst hlk
        obtain ⟨hzero, hnotreg, hnoterase⟩ := lists_held hs hk
        refine Or.inr ⟨hzero, Or.inr ⟨by rwa [hreg], ?_⟩⟩
        rwa [hheld, Function.update_self]
      · left
        unfold State.sync
        split <;> simp [hlk]
    · left
      unfold State.sync
      split <;> simp [hu]

/-- An iop in use was in use, or has just been taken. -/
theorem used_before (h : Step cfg s a s') (u : T) (l : Nat)
    (hl : l ∈ s'.regions u ∨ l ∈ s'.held u) :
    (l ∈ s.regions u ∨ l ∈ s.held u) ∨ (s'.iops u l).next ≠ none := by
  cases h with
  | @begin t =>
    obtain ⟨hreg, hheld, _⟩ := begin_lists cfg s t u
    rw [hreg, hheld] at hl
    by_cases hu : u = t
    · subst hu
      by_cases hk : l = (s.takeIop u).1
      · subst hk
        right
        simp [State.begin]
      · rw [if_pos rfl, List.mem_cons] at hl
        tauto
    · rw [if_neg hu] at hl
      exact Or.inl hl
  | start | balance => exact Or.inl hl
  | @finish t k c n =>
    obtain ⟨hreg, hheld⟩ := finish_lists cfg s t k c n
    rw [hreg, hheld] at hl
    exact Or.inl hl
  | @check f =>
    obtain ⟨hreg, hheld, _⟩ := check_lists cfg s f
    rw [hreg, hheld] at hl
    exact Or.inl hl
  | @pop t k ks hr =>
    left
    by_cases hu : u = t
    · subst hu
      simp only [State.pop, State.setIop, Function.update_self, List.mem_cons] at hl
      rw [hr, List.mem_cons]
      tauto
    · simpa [State.pop, hu] using hl
  | @sync v t k =>
    obtain ⟨hreg, hheld, _⟩ := sync_lists s v t k
    rw [hreg, hheld] at hl
    left
    by_cases hu : u = t
    · subst hu
      rw [Function.update_self] at hl
      exact hl.imp id List.mem_of_mem_erase
    · rwa [Function.update_of_ne hu] at hl

theorem used_step (h : Step cfg s a s') (hs : Inv cfg s) (u : T) (l : Nat)
    (hl : l ∈ s'.regions u ∨ l ∈ s'.held u) : (s'.iops u l).next ≠ none := by
  rcases used_before h u l hl with hold | hnew
  · rcases next_step h hs.toLists u l with he | ⟨_, hne | hout⟩
    · rw [he]
      exact hs.used u l hold
    · exact hne
    · tauto
  · exact hnew

theorem implicit_step (h : Step cfg s a s') (hs : Inv cfg s) (u : T) :
    (s'.iops u 0).next = none := by
  rcases next_step h hs.toLists u 0 with he | ⟨hzero, _⟩
  · rw [he]
    exact hs.implicit u
  · exact absurd rfl hzero

theorem idle_step (h : Step cfg s a s') (hs : Inv cfg s) (u : T) (l : Nat) (e : Cat)
    (hreg' : l ∉ s'.regions u) (hheld' : l ∉ s'.held u) : (s'.counter u l e).live = false := by
  have hold := hs.idle u l e
  cases h with
  | @begin t =>
    obtain ⟨hreg, hheld, _⟩ := begin_lists cfg s t u
    rw [hreg] at hreg'
    rw [hheld] at hheld'
    rw [counter_begin]
    by_cases hu : u = t
    · subst hu
      rw [if_pos rfl, List.mem_cons, not_or] at hreg'
      rw [if_neg fun he => hreg'.1 he.2]
      exact hold hreg'.2 hheld'
    · rw [if_neg hu] at hreg'
      rw [if_neg fun he => hu he.1]
      exact hold hreg' hheld'
  | start =>
    rw [counter_setCounter]
    split
    · rename_i hk
      obtain ⟨rfl, rfl, rfl⟩ := hk
      exact hold hreg' hheld'
    · exact hold hreg' hheld'
  | balance =>
    rw [State.balance, counter_finishReg]
    split
    · rename_i hk
      obtain ⟨rfl, rfl, rfl⟩ := hk
      exact hold hreg' hheld'
    · exact hold hreg' hheld'
  | @finish t k c n =>
    obtain ⟨hreg, hheld⟩ := finish_lists cfg s t k c n
    rw [hreg] at hreg'
    rw [hheld] at hheld'
    rw [counter_finish]
    split
    · rename_i hk
      obtain ⟨rfl, rfl, rfl⟩ := hk
      exact hold hreg' hheld'
    · exact hold hreg' hheld'
  | @check f =>
    obtain ⟨hreg, hheld, _⟩ := check_lists cfg s f
    rw [hreg] at hreg'
    rw [hheld] at hheld'
    rw [counter_check]
    split
    · rfl
    · exact hold hreg' hheld'
  | @pop t k ks hr =>
    rw [counter_pop]
    by_cases hu : u = t
    · subst hu
      simp [State.pop] at hreg' hheld'
      refine hold ?_ hheld'.2
      rw [hr, List.mem_cons, not_or]
      exact ⟨hheld'.1, hreg'⟩
    · simp [State.pop, hu] at hreg' hheld'
      exact hold hreg' hheld'
  | @sync v t k hk hdone =>
    obtain ⟨hreg, hheld, _⟩ := sync_lists s v t k
    rw [hreg] at hreg'
    rw [hheld] at hheld'
    rw [counter_sync]
    by_cases hu : u = t
    · subst hu
      by_cases hlk : l = k
      · subst hlk
        exact hdone e
      · rw [Function.update_self, List.mem_erase_of_ne hlk] at hheld'
        exact hold hreg' hheld'
    · rw [Function.update_of_ne hu] at hheld'
      exact hold hreg' hheld'

omit [DecidableEq T] in
theorem armed_credit (hc : cfg.has c = true) : (s.armed cfg t k c).credit = true := by
  simp [State.armed, hc]

theorem inside_step (h : Step cfg s a s') (hs : Inv cfg s) (u : T) (l : Nat)
    (hl : l ∈ s'.regions u) (e : Cat) (he : cfg.has e = true) :
    (s'.counter u l e).credit = true := by
  have hold := fun hmem => hs.inside u l hmem e he
  cases h with
  | @begin t =>
    rw [(begin_lists cfg s t u).1] at hl
    rw [counter_begin]
    split
    · exact armed_credit he
    · rename_i hk
      refine hold ?_
      by_cases hu : u = t
      · subst hu
        rw [if_pos rfl, List.mem_cons] at hl
        exact hl.resolve_left fun he => hk ⟨rfl, he⟩
      · rwa [if_neg hu] at hl
  | start =>
    rw [counter_setCounter]
    split
    · rename_i hk
      obtain ⟨rfl, rfl, rfl⟩ := hk
      exact hold hl
    · exact hold hl
  | @balance t k c hk =>
    rw [State.balance, counter_finishReg]
    split
    · rename_i hkey
      obtain ⟨rfl, rfl, rfl⟩ := hkey
      exact absurd hl (lists_held hs.toLists hk).2.1
    · exact hold hl
  | @finish t k c n =>
    rw [(finish_lists cfg s t k c n).1] at hl
    rw [counter_finish]
    split
    · rename_i hk
      obtain ⟨rfl, rfl, rfl⟩ := hk
      exact hold hl
    · exact hold hl
  | @check f =>
    rw [(check_lists cfg s f).1] at hl
    rw [counter_check]
    split
    · exact hold hl
    · exact hold hl
  | @pop t k ks hr =>
    rw [counter_pop]
    refine hold ?_
    by_cases hu : u = t
    · subst hu
      rw [hr]
      simp only [State.pop, State.setIop, Function.update_self] at hl
      exact List.mem_cons_of_mem _ hl
    · simpa [State.pop, hu] using hl
  | @sync v t k hk hdone =>
    rw [(sync_lists s v t k).1] at hl
    rw [counter_sync]
    exact hold hl

theorem resets_step (h : Step cfg s a s') (u : T) (l : Nat) (e : Cat) :
    (s.counter u l e).resets ≤ (s'.counter u l e).resets := by
  cases h with
  | @begin t =>
    rw [counter_begin]
    split
    · rename_i hk
      obtain ⟨rfl, _⟩ := hk
      unfold State.armed
      dsimp only
      cases s.reuses u && cfg.resets e <;> cases cfg.has e <;> simp
    · exact Nat.le_refl _
  | start =>
    rw [counter_setCounter]
    split
    · rename_i hk
      obtain ⟨rfl, rfl, rfl⟩ := hk
      exact Nat.le_refl _
    · exact Nat.le_refl _
  | balance =>
    rw [State.balance, counter_finishReg]
    split
    · rename_i hk
      obtain ⟨rfl, rfl, rfl⟩ := hk
      exact Nat.le_refl _
    · exact Nat.le_refl _
  | finish =>
    rw [counter_finish]
    split
    · rename_i hk
      obtain ⟨rfl, rfl, rfl⟩ := hk
      exact Nat.le_refl _
    · exact Nat.le_refl _
  | check =>
    rw [counter_check]
    split <;> exact Nat.le_refl _
  | pop => exact Nat.le_of_eq (congrArg _ (counter_pop ..).symm)
  | sync => exact Nat.le_of_eq (congrArg _ (counter_sync ..).symm)

end Gasnet.Event
