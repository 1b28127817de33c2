import Gasnet.Event.Iop
import Mathlib.Data.List.Perm.Basic

/-! What one step does to the lists of iops and to the counters. -/
namespace Gasnet.Event

variable {T : Type*} [DecidableEq T] {cfg : Config} {s s' : State T} {t u : T} {k l n : Nat}
  {c e : Cat} {d : Counter} {f : Finish T} {a : Action T}

theorem takeIop_cases (s : State T) (t : T) :
    (∃ k ks, s.free t = k :: ks ∧
      s.takeIop t = (k, { s with free := Function.update s.free t ks })) ∨
    (∃ k ks, s.free t = [] ∧ s.foreign t = k :: ks ∧
      s.takeIop t = (k, { s with
        free := Function.update s.free t ks
        foreign := Function.update s.foreign t [] })) ∨
    (s.free t = [] ∧ s.foreign t = [] ∧
      s.takeIop t = (s.num t, { s with num := Function.update s.num t (s.num t + 1) })) := by
  unfold State.takeIop
  cases hfree : s.free t with
  | cons k ks => exact Or.inl ⟨k, ks, rfl, rfl⟩
  | nil =>
    cases hforeign : s.foreign t with
    | cons k ks => exact Or.inr (Or.inl ⟨k, ks, rfl, rfl, rfl⟩)
    | nil => exact Or.inr (Or.inr ⟨rfl, rfl, rfl⟩)

/-- The iop a region takes is neither implicit nor in use. -/
theorem takeIop_idle (hs : Lists s) :
    (s.takeIop t).1 ≠ 0 ∧ (s.takeIop t).1 ∉ s.regions t ∧ (s.takeIop t).1 ∉ s.held t := by
  have hnodup := hs.nodup t
  have halloc := hs.alloc t
  rcases takeIop_cases s t with ⟨k, ks, hfree, htake⟩ | ⟨k, ks, hfree, hforeign, htake⟩ |
    ⟨hfree, hforeign, htake⟩
  · rw [htake]
    simp only [hfree, List.nodup_cons, List.nodup_append, List.mem_append, List.mem_cons] at hnodup
    grind
  · rw [htake]
    simp only [hfree, hforeign, List.nodup_cons, List.nodup_append, List.mem_append,
      List.mem_cons] at hnodup
    grind
  · rw [htake]
    simp only [hfree, hforeign, List.mem_append, List.mem_cons] at halloc
    refine ⟨?_, ?_, ?_⟩
    · have := halloc 0 (Or.inl rfl)
      simp only
      omega
    · intro hk
      exact absurd (halloc _ (Or.inr (by tauto))) (Nat.lt_irrefl _)
    · intro hk
      exact absurd (halloc _ (Or.inr (by tauto))) (Nat.lt_irrefl _)

theorem lists_begin (hs : Lists s) (t : T) : Lists (s.begin cfg t) := by
  obtain ⟨hzero, hreg, hheld⟩ := takeIop_idle (t := t) hs
  constructor
  · intro u
    have hnodup := hs.nodup u
    by_cases hu : u = t
    · subst hu
      rcases takeIop_cases s u with ⟨k, ks, hfree, htake⟩ | ⟨k, ks, hfree, hforeign, htake⟩ |
        ⟨hfree, hforeign, htake⟩
      · simp only [State.begin, htake, State.setIop, Function.update_self]
        rw [hfree] at hnodup
        refine (List.Perm.nodup_iff ?_).mp hnodup
        refine List.Perm.cons 0 ?_
        simp only [List.append_assoc, List.cons_append]
        rw [← List.append_assoc]
        exact List.perm_middle.trans (by simp)
      · simp only [State.begin, htake, State.setIop, Function.update_self, List.append_nil]
        rw [hfree, hforeign, List.append_nil] at hnodup
        refine (List.Perm.nodup_iff ?_).mp hnodup
        exact List.Perm.cons 0 List.perm_middle
      · have halloc := hs.alloc u
        simp only [State.begin, htake, State.setIop, Function.update_self]
        refine (List.Perm.nodup_iff (List.Perm.swap 0 (s.num u) _)).mp ?_
        exact List.nodup_cons.mpr ⟨fun hm => absurd (halloc _ hm) (Nat.lt_irrefl _), hnodup⟩
    · rcases takeIop_cases s t with ⟨k, ks, hfree, htake⟩ | ⟨k, ks, hfree, hforeign, htake⟩ |
        ⟨hfree, hforeign, htake⟩
      all_goals simpa [State.begin, htake, hu] using hnodup
  · intro u
    have halloc := hs.alloc u
    by_cases hu : u = t
    · subst hu
      rcases takeIop_cases s u with ⟨k, ks, hfree, htake⟩ | ⟨k, ks, hfree, hforeign, htake⟩ |
        ⟨hfree, hforeign, htake⟩
      · simp only [State.begin, htake, State.setIop, Function.update_self]
        intro j hj
        refine halloc j ?_
        simp only [hfree, List.mem_append, List.mem_cons] at hj ⊢
        tauto
      · simp only [State.begin, htake, State.setIop, Function.update_self]
        intro j hj
        refine halloc j ?_
        simp only [hfree, hforeign, List.mem_append, List.mem_cons] at hj ⊢
        tauto
      · simp only [State.begin, htake, State.setIop, Function.update_self]
        intro j hj
        by_cases he : j = s.num u
        · omega
        · refine Nat.lt_succ_of_lt (halloc j ?_)
          simp only [List.mem_append, List.mem_cons] at hj ⊢
          tauto
    · rcases takeIop_cases s t with ⟨k, ks, hfree, htake⟩ | ⟨k, ks, hfree, hforeign, htake⟩ |
        ⟨hfree, hforeign, htake⟩
      all_goals simpa [State.begin, htake, hu] using halloc

omit [DecidableEq T] in
/-- Steps that only move iops of thread `t` from one list to another. -/
theorem lists_perm (hs : Lists s) (hnum : s'.num = s.num)
    (hperm : ∀ u, (s.regions u ++ s.held u ++ s.free u ++ s.foreign u).Perm
      (s'.regions u ++ s'.held u ++ s'.free u ++ s'.foreign u)) : Lists s' where
  nodup u := (List.Perm.nodup_iff (List.Perm.cons 0 (hperm u))).mp (hs.nodup u)
  alloc u j hj := by
    rw [hnum]
    exact hs.alloc u j ((List.Perm.cons 0 (hperm u)).mem_iff.mpr hj)

theorem lists_step (h : Step cfg s a s') (hs : Lists s) : Lists s' := by
  cases h with
  | @begin t => exact lists_begin hs t
  | start | balance => exact lists_perm hs rfl fun u => .refl _
  | @finish t k c n =>
    refine lists_perm hs ?_ fun u => ?_
    · unfold State.finish
      dsimp only
      split <;> rfl
    · unfold State.finish
      dsimp only
      split <;> exact .refl _
  | @check f =>
    refine lists_perm hs ?_ fun u => ?_
    · unfold State.check
      dsimp only
      split <;> rfl
    · unfold State.check
      dsimp only
      split <;> exact .refl _
  | @pop t k ks hr =>
    refine lists_perm hs rfl fun u => ?_
    by_cases hu : u = t
    · subst hu
      simp only [State.pop, State.setIop, Function.update_self, hr, List.append_assoc,
        List.cons_append]
      exact List.perm_middle.symm
    · simp [State.pop, hu]
  | @sync v t k hk hdone =>
    refine lists_perm hs ?_ fun u => ?_
    · unfold State.sync
      split <;> rfl
    · by_cases hu : u = t
      · subst hu
        have hheld := List.perm_cons_erase hk
        unfold State.sync
        split
        all_goals
          simp only [State.setIop, Function.update_self, List.append_assoc]
          refine List.Perm.append_left _ ?_
          refine (hheld.append_right _).trans ?_
        · exact List.perm_middle.symm
        · simp only [List.cons_append, ← List.append_assoc]
          exact List.perm_middle.symm
      · unfold State.sync
        split <;> simp [hu]

theorem counter_finish (cfg : Config) (s : State T) (t : T) (k : Nat) (c : Cat) (n : Nat) (u : T)
    (l : Nat) (e : Cat) :
    (s.finish cfg t k c n).counter u l e =
      if u = t ∧ l = k ∧ e = c then
        { s.counter t k c with pending := (s.counter t k c).pending - n }.add cfg n
      else s.counter u l e := by
  unfold State.finish
  dsimp only
  split
  · exact counter_finishReg ..
  · exact counter_setCounter ..

theorem counter_check (cfg : Config) (s : State T) (f : Finish T) (u : T) (l : Nat) (e : Cat) :
    (s.check cfg f).counter u l e =
      if s.Matches cfg f ∧ u = f.owner ∧ l = f.iop ∧ e = f.cat then (s.counter u l e).setDone
      else s.counter u l e := by
  unfold State.check
  dsimp only
  split
  · rename_i hm
    rw [counter_setCounter]
    by_cases hk : u = f.owner ∧ l = f.iop ∧ e = f.cat
    · obtain ⟨rfl, rfl, rfl⟩ := hk
      simp [hm]
    · rw [if_neg hk, if_neg fun h => hk h.2]
      rfl
  · rename_i hm
    rw [if_neg fun h => hm h.1]
    rfl

omit [DecidableEq T] in
theorem arm_counterInv (hs : CounterInv cfg d) (hcredit : d.credit = false) :
    CounterInv cfg (d.arm cfg) := by
  have hbal := hs.balance
  rw [hcredit, Bool.toNat_false] at hbal
  refine ⟨?_, hs.completed, ?_⟩
  · simp [hs.initiated]
  · simp only [Counter.arm, Bool.toNat_true]
    omega

omit [DecidableEq T] in
theorem armed_counterInv (hs : CounterInv cfg (s.counter t k c))
    (hpending : (s.counter t k c).pending = 0) (hcredit : (s.counter t k c).credit = false) :
    CounterInv cfg (s.armed cfg t k c) := by
  have hreset : CounterInv cfg (s.counter t k c).reset := by
    refine ⟨?_, ?_, ?_⟩ <;> simp [hpending, hcredit]
  unfold State.armed
  dsimp only
  cases s.reuses t && cfg.resets c with
  | true =>
    cases cfg.has c with
    | true => exact arm_counterInv hreset hcredit
    | false => exact hreset
  | false =>
    cases cfg.has c with
    | true => exact arm_counterInv hs hcredit
    | false => exact hs

theorem counterInv_step (h : Step cfg s a s') (hs : Inv cfg s) (u : T) (l : Nat) (e : Cat) :
    CounterInv cfg (s'.counter u l e) := by
  have hold := hs.counters u l e
  have hinit := hold.initiated
  have hcomp := hold.completed
  have hbal := hold.balance
  cases h with
  | @begin t =>
    rw [counter_begin]
    split
    · rename_i hk
      obtain ⟨rfl, rfl⟩ := hk
      obtain ⟨hzero, hreg, hheld⟩ := takeIop_idle (t := u) hs.toLists
      obtain ⟨_, hpending, hcredit⟩ := started_eq hs (hs.idle u _ e hreg hheld) hzero
      exact armed_counterInv hold hpending hcredit
    · exact hold
  | @start t c n hc =>
    rw [counter_setCounter]
    split
    · rename_i hk
      obtain ⟨rfl, rfl, rfl⟩ := hk
      refine ⟨?_, hcomp, ?_⟩
      · simp [hinit]
      · simp only [Counter.start]
        omega
    · exact hold
  | pop hr =>
    rw [counter_pop]
    exact hold
  | @balance t k c hk hcredit =>
    rw [State.balance, counter_finishReg]
    split
    · rename_i hk
      obtain ⟨rfl, rfl, rfl⟩ := hk
      refine ⟨hinit, ?_, ?_⟩
      · simp [hcomp]
      · rw [hcredit, Bool.toNat_true] at hbal
        simp only [Counter.add, Bool.toNat_false]
        omega
    · exact hold
  | @finish t k c n hn hle =>
    rw [counter_finish]
    split
    · rename_i hk
      obtain ⟨rfl, rfl, rfl⟩ := hk
      refine ⟨hinit, ?_, ?_⟩
      · simp [hcomp]
      · simp only [Counter.add]
        omega
    · exact hold
  | check hf =>
    rw [counter_check]
    split
    · exact ⟨hinit, hcomp, hbal⟩
    · exact hold
  | sync hk hdone =>
    rw [counter_sync]
    exact hold

end Gasnet.Event
