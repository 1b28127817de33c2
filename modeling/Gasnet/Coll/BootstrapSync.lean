import Mathlib.Algebra.Order.BigOperators.Group.Finset
import Gasnet.Coll.BootstrapSumCorrect
import Gasnet.Coll.BootstrapBarrierSafety

/-! A sum that all processes take part in goes on until it is over. -/
namespace Gasnet.Coll.BootstrapSum

variable {size r k c i : Nat} {operand : Nat → Nat → BitVec 64} {e : Nat → Nat} {x : Rank}
  {s t : State} {a : Action} {xs : List Action} {m : Message}

/-- A process has entered a call. -/
def Rank.Entered (x : Rank) (i : Nat) : Prop := i < x.calls ∨ i = x.calls ∧ x.pc ≠ .out

/-- A process outside of the calls, or waiting for what has not come. -/
def Rank.Blocked (size r : Nat) (x : Rank) : Prop :=
  x.pc = .out ∨ x.pc = .gather ∧ x.rcvd ≠ children size r ∨
    x.pc = .await ∧ x.rcvd ≠ children size r + 1

/-- What it takes that nothing but a new call can happen. -/
structure Stuck (size : Nat) (s : State) : Prop where
  flight : s.flight = []
  added : s.added = []
  blocked : ∀ r < size, (s.rank r).Blocked size r

theorem stuck_or_step (size : Nat) (operand : Nat → Nat → BitVec 64) (s : State) :
    Stuck size s ∨ ∃ a t, Step size operand s a t ∧ ∀ r, a ≠ .call r := by
  by_contra hn
  rw [not_or] at hn
  obtain ⟨hstuck, hstep⟩ := hn
  refine hstuck ⟨?_, ?_, fun r hr => ?_⟩
  · by_contra hne
    obtain ⟨m, hm⟩ := List.exists_mem_of_ne_nil _ hne
    exact hstep ⟨_, _, .add hm, fun _ h => nomatch h⟩
  · by_contra hne
    obtain ⟨m, hm⟩ := List.exists_mem_of_ne_nil _ hne
    exact hstep ⟨_, _, .count hm, fun _ h => nomatch h⟩
  · cases hpc : (s.rank r).pc with
    | out => exact .inl hpc
    | gather =>
      exact .inr (.inl ⟨hpc, fun hready =>
        hstep ⟨_, _, .gather hr hpc hready, fun _ h => nomatch h⟩⟩)
    | await =>
      exact .inr (.inr ⟨hpc, fun hready =>
        hstep ⟨_, _, .await hr hpc hready, fun _ h => nomatch h⟩⟩)
    | addUp => exact (hstep ⟨_, _, .addUp hr hpc, fun _ h => nomatch h⟩).elim
    | clearUp => exact (hstep ⟨_, _, .clearUp hr hpc, fun _ h => nomatch h⟩).elim
    | sendUp => exact (hstep ⟨_, _, .sendUp hr hpc, fun _ h => nomatch h⟩).elim
    | readDown => exact (hstep ⟨_, _, .readDown hr hpc, fun _ h => nomatch h⟩).elim
    | clearDown => exact (hstep ⟨_, _, .clearDown hr hpc, fun _ h => nomatch h⟩).elim
    | reset => exact (hstep ⟨_, _, .reset hr hpc, fun _ h => nomatch h⟩).elim
    | forward idx =>
      cases idx with
      | zero => exact (hstep ⟨_, _, .leave hr hpc, fun _ h => nomatch h⟩).elim
      | succ idx => exact (hstep ⟨_, _, .forward hr hpc, fun _ h => nomatch h⟩).elim

/-- All are at rest between messages. -/
theorem Inv.stage_of_stuck (h : Inv size operand e s) (hs : Stuck size s) (hc : c < size)
    (hne : c ≠ 0) : e c % 3 = 0 := by
  have hflight := mt (h.flight_of c hc hne)
  have hadded := mt (h.added_of c hc hne)
  rw [hs.flight] at hflight
  rw [hs.added] at hadded
  have := hflight (by simp)
  have := hadded (by simp)
  omega

theorem rcvdOf_of_kids {resets : Nat}
    (hkids : ∀ k < children size r, 6 * resets + 3 ≤ e (r + 2 ^ k)) :
    rcvdOf size e r resets = children size r + if r ≠ 0 ∧ 6 * resets + 6 ≤ e r then 1 else 0 := by
  rw [rcvdOf, Finset.sum_congr rfl fun k hk => if_pos (hkids k (Finset.mem_range.mp hk))]
  simp

/-- A process that waits for its parent waits for one in the same call. -/
theorem Inv.parent_waits (hsize : size < 2 ^ 31) (h : Inv size operand e s) (hs : Stuck size s)
    (hall : ∀ q < size, (s.rank q).Entered i) (hc : c < size) (hcalls : (s.rank c).calls = i)
    (hpc : (s.rank c).pc = .await) :
    parent c < c ∧ (s.rank (parent c)).calls = i ∧
      ((s.rank (parent c)).pc = .gather ∨ (s.rank (parent c)).pc = .await) := by
  have hfits := h.fits c hc
  have hne : c ≠ 0 := by
    have := hfits.pcOk
    rwa [Rank.PcOk, hpc] at this
  obtain ⟨hlt, hplt⟩ := parent_lt hsize hne hc
  obtain ⟨k, hk, hkid⟩ := exists_child hsize hne hc
  have hmod := h.stage_of_stuck hs hc hne
  have hown := hfits.own hne
  have hrcvd := hfits.rcvd
  have hkids := hfits.kids
  simp only [Rank.ownLo, Rank.ownHi, Rank.kidLo, Rank.kidHi, Rank.resets, hpc] at hown hrcvd hkids
  have hstage : e c = 6 * i + 3 := by
    by_contra hlast
    rw [rcvdOf_of_kids fun k hk => (hkids k hk).1, if_pos ⟨hne, by omega⟩] at hrcvd
    have hblocked := hs.blocked c hc
    simp [Rank.Blocked, hpc, hrcvd] at hblocked
  have hentered := hall _ hplt
  have hkid' := (h.fits _ hplt).kids k hk
  rw [hkid, hstage] at hkid'
  refine ⟨hlt, ?_⟩
  obtain hp | ⟨hp, -⟩ | ⟨hp, -⟩ := hs.blocked _ hplt <;>
    simp only [Rank.Entered, Rank.kidLo, Rank.kidHi, hp] at hentered hkid'
  · simp only [ne_eq, not_true_eq_false, and_false, or_false] at hentered
    omega
  · exact ⟨by omega, .inl hp⟩
  · exact ⟨by omega, .inr hp⟩

/-- A process that waits for a child waits for one in the same call. -/
theorem Inv.child_waits (hsize : size < 2 ^ 31) (h : Inv size operand e s) (hs : Stuck size s)
    (hall : ∀ q < size, (s.rank q).Entered i) (hr : r < size) (hcalls : (s.rank r).calls = i)
    (hpc : (s.rank r).pc = .gather) :
    ∃ c < size, r < c ∧ (s.rank c).calls = i ∧ (s.rank c).pc = .gather := by
  have hfits := h.fits r hr
  have hown := hfits.own
  have hrcvd := hfits.rcvd
  have hkids := hfits.kids
  simp only [Rank.ownLo, Rank.ownHi, Rank.kidLo, Rank.kidHi, Rank.resets, hpc] at hown hrcvd hkids
  obtain ⟨k, hk, hlt⟩ : ∃ k < children size r, e (r + 2 ^ k) < 6 * i + 3 := by
    by_contra hn
    rw [rcvdOf_of_kids fun k hk => by
      by_contra hlt
      exact hn ⟨k, hk, by omega⟩, if_neg fun h0 => by
      have := hown h0.1
      omega] at hrcvd
    have hblocked := hs.blocked r hr
    simp [Rank.Blocked, hpc, hrcvd] at hblocked
  obtain ⟨hc, -⟩ := parent_child hsize hk hr
  have hpos := Nat.two_pow_pos k
  have hne : r + 2 ^ k ≠ 0 := by omega
  have hmod := h.stage_of_stuck hs hc hne
  have hkid := hkids k hk
  have hentered := hall _ hc
  have hself := (h.fits _ hc).own hne
  refine ⟨r + 2 ^ k, hc, by omega, ?_⟩
  obtain hp | ⟨hp, -⟩ | ⟨hp, -⟩ := hs.blocked _ hc <;>
    simp only [Rank.Entered, Rank.ownLo, Rank.ownHi, hp] at hentered hself
  · simp only [ne_eq, not_true_eq_false, and_false, or_false] at hentered
    omega
  · exact ⟨by omega, hp⟩
  · omega

/-- While a process is in a call that all have entered, something other than a new call can happen. -/
theorem Inv.progress (hsize : size < 2 ^ 31) (h : Inv size operand e s) (hr : r < size)
    (hpc : (s.rank r).pc ≠ .out) (hall : ∀ q < size, (s.rank q).Entered (s.rank r).calls) :
    ∃ a t, Step size operand s a t ∧ ∀ q, a ≠ .call q := by
  refine (stuck_or_step size operand s).resolve_left fun hs => ?_
  generalize hi : (s.rank r).calls = i at hall
  -- up to somebody who waits for its children, then down without an end
  have hgather : ∀ r < size, (s.rank r).calls = i → (s.rank r).pc ≠ .out →
      ∃ q < size, (s.rank q).calls = i ∧ (s.rank q).pc = .gather := by
    intro r
    induction r using Nat.strongRecOn with
    | ind r ih =>
      intro hr hi hpc
      obtain hp | ⟨hp, -⟩ | ⟨hp, -⟩ := hs.blocked r hr
      · exact absurd hp hpc
      · exact ⟨r, hr, hi, hp⟩
      · obtain ⟨hlt, hcalls, hp⟩ := h.parent_waits hsize hs hall hr hi hp
        refine ih _ hlt (Nat.lt_trans hlt hr) hcalls ?_
        obtain hp | hp := hp <;> simp [hp]
  obtain ⟨q, hq, hcalls, hp⟩ := hgather r hr hi hpc
  generalize hn : size - q = n
  induction n using Nat.strongRecOn generalizing q with
  | ind n ih =>
    obtain ⟨c, hc, hlt, hcalls, hp⟩ := h.child_waits hsize hs hall hq hcalls hp
    exact ih (size - c) (by omega) c hc hcalls hp rfl

/-- How far a process is in a call. -/
def PC.index (children : Nat) : PC → Nat
  | .out => 0
  | .gather => 1
  | .addUp => 2
  | .clearUp => 3
  | .sendUp => 4
  | .await => 5
  | .readDown => 6
  | .clearDown => 7
  | .reset => 8
  | .forward idx => 9 + (children - idx)

/-- How far it is in all. -/
def Rank.position (size r : Nat) (x : Rank) : Nat :=
  x.calls * (children size r + 10) + x.pc.index (children size r)

theorem Rank.position_lt (pc : PC) (hcalls : x.calls = (s.rank r).calls) (hpc : x.pc = pc)
    (hlt : (s.rank r).pc.index (children size r) < pc.index (children size r)) :
    (s.rank r).position size r < x.position size r := by
  rw [position, position, hcalls, hpc]
  exact Nat.add_lt_add_left hlt _

theorem Rank.position_leave (hpc : x.pc = .forward 0) :
    x.position size r < x.leave.position size r := by
  rw [position, position, hpc]
  show _ < (x.calls + 1) * (children size r + 10) + 0
  rw [Nat.succ_mul, PC.index, Nat.sub_zero]
  omega

/-- A process that takes a step is farther. -/
theorem step_position (hs : Step size operand s a t) (h : Inv size operand e s) :
    (∀ q, (s.rank q).position size q ≤ (t.rank q).position size q) ∧
      ∀ r, a = .call r ∨ a = .run r →
        r < size ∧ (s.rank r).position size r < (t.rank r).position size r := by
  have hset : ∀ {r : Nat} {x : Rank} {s' : State} {b : Action}, r < size →
      (b = .call r ∨ b = .run r) → s'.rank = (s.setRank r x).rank →
      (s.rank r).position size r < x.position size r →
      (∀ q, (s.rank q).position size q ≤ (s'.rank q).position size q) ∧ ∀ r, b = .call r ∨ b = .run r →
        r < size ∧ (s.rank r).position size r < (s'.rank r).position size r := by
    intro r x s' b hr hb hrank hlt
    constructor
    · intro q
      rw [hrank, rank_setRank]
      split
      · rename_i he
        exact he ▸ Nat.le_of_lt hlt
      · exact Nat.le_refl _
    · intro q hq
      obtain rfl : q = r := by
        obtain rfl | rfl := hb <;> simpa [eq_comm] using hq
      rw [hrank, rank_setRank, if_pos rfl]
      exact ⟨hr, hlt⟩
  have hkeep : ∀ {r : Nat} {x : Rank}, x.calls = (s.rank r).calls → x.pc = (s.rank r).pc →
      ∀ q, (s.rank q).position size q ≤ ((s.setRank r x).rank q).position size q := by
    intro r x hcalls hpc q
    rw [rank_setRank]
    split
    · rename_i he
      rw [Rank.position, Rank.position, hcalls, hpc, he]
    · exact Nat.le_refl _
  cases hs with
  | call hr hpc =>
    refine hset hr (.inl rfl) rfl ?_
    simp only [Rank.afterUp]
    split
    · exact Rank.position_lt .gather rfl rfl (by simp [hpc, PC.index])
    · split
      · exact Rank.position_lt .sendUp rfl rfl (by simp [hpc, PC.index])
      · exact Rank.position_lt .reset rfl rfl (by simp [hpc, PC.index])
  | gather hr hpc _ =>
    exact hset hr (.inr rfl) rfl (Rank.position_lt .addUp rfl rfl (by simp [hpc, PC.index]))
  | addUp hr hpc =>
    exact hset hr (.inr rfl) rfl (Rank.position_lt .clearUp rfl rfl (by simp [hpc, PC.index]))
  | clearUp hr hpc =>
    refine hset hr (.inr rfl) rfl ?_
    rw [Rank.afterUp]
    split
    · exact Rank.position_lt .sendUp rfl rfl (by simp [hpc, PC.index])
    · exact Rank.position_lt .reset rfl rfl (by simp [hpc, PC.index])
  | sendUp hr hpc =>
    exact hset hr (.inr rfl) rfl (Rank.position_lt .await rfl rfl (by simp [hpc, PC.index]))
  | await hr hpc _ =>
    exact hset hr (.inr rfl) rfl (Rank.position_lt .readDown rfl rfl (by simp [hpc, PC.index]))
  | readDown hr hpc =>
    exact hset hr (.inr rfl) rfl (Rank.position_lt .clearDown rfl rfl (by simp [hpc, PC.index]))
  | clearDown hr hpc =>
    exact hset hr (.inr rfl) rfl (Rank.position_lt .reset rfl rfl (by simp [hpc, PC.index]))
  | reset hr hpc =>
    refine hset hr (.inr rfl) rfl (Rank.position_lt (.forward _) rfl rfl ?_)
    simp only [hpc, PC.index]
    omega
  | @forward r idx hr hpc =>
    have hle := (h.fits r hr).pcOk
    rw [Rank.PcOk, hpc] at hle
    refine hset hr (.inr rfl) rfl (Rank.position_lt (.forward idx) rfl rfl ?_)
    simp only [hpc, PC.index] at hle ⊢
    omega
  | leave hr hpc => exact hset hr (.inr rfl) rfl (Rank.position_leave hpc)
  | add hm => exact ⟨hkeep rfl rfl, by simp⟩
  | count hm => exact ⟨hkeep rfl rfl, by simp⟩

/-- How far all processes and their messages are. -/
def work (size : Nat) (e : Nat → Nat) (s : State) : Nat :=
  ∑ r ∈ Finset.range size, ((s.rank r).position size r + if r = 0 then 0 else e r)

theorem work_lt {e' : Nat → Nat} (hs : Step size operand s a t) (h : Inv size operand e s)
    (he : Ahead e e' a) : work size e s < work size e' t := by
  obtain ⟨hle, hlt⟩ := step_position hs h
  have hstage : ∀ r, (if r = 0 then 0 else e r) ≤ if r = 0 then 0 else e' r := fun r => by
    split
    · exact Nat.le_refl _
    · exact he.le r
  have hmessage : ∀ m, m.Wired size operand → (a = .add m ∨ a = .count m) →
      work size e s < work size e' t := fun m hw ha => by
    refine Finset.sum_lt_sum (fun r _ => Nat.add_le_add (hle r) (hstage r))
      ⟨m.child, Finset.mem_range.mpr hw.lt, Nat.add_lt_add_of_le_of_lt (hle _) ?_⟩
    rw [if_neg hw.ne_zero, if_neg hw.ne_zero]
    exact he.lt m ha
  have hrank : ∀ r, (a = .call r ∨ a = .run r) → work size e s < work size e' t := fun r ha => by
    obtain ⟨hr, hlt⟩ := hlt r ha
    exact Finset.sum_lt_sum (fun r _ => Nat.add_le_add (hle r) (hstage r))
      ⟨r, Finset.mem_range.mpr hr, Nat.add_lt_add_of_lt_of_le hlt (hstage r)⟩
  cases a with
  | call r => exact hrank r (.inl rfl)
  | run r => exact hrank r (.inr rfl)
  | add m =>
    cases hs with
    | add hm => exact hmessage m (h.flight m hm).1 (.inl rfl)
  | count m =>
    cases hs with
    | count hm => exact hmessage m (h.added m hm).1 (.inr rfl)

theorem Inv.run (hsize : size < 2 ^ 31) (hrun : Run (Step size operand) s xs t)
    (h : Inv size operand e s) :
    ∃ e', Inv size operand e' t ∧ work size e s + xs.length ≤ work size e' t := by
  induction hrun generalizing e with
  | refl => exact ⟨e, h, Nat.le_refl _⟩
  | stepL hs _ ih =>
    obtain ⟨e₁, h₁, he⟩ := h.step hsize hs
    obtain ⟨e₂, h₂, hle⟩ := ih h₁
    have := work_lt hs h he
    exact ⟨e₂, h₂, by rw [List.length_cons]; omega⟩

theorem Inv.work_le (h : Inv size operand e s) : work size e s ≤
    ∑ r ∈ Finset.range size, ((s.rank r).calls + 1) * (children size r + 16) := by
  refine Finset.sum_le_sum fun r hr => ?_
  have hfits := h.fits r (Finset.mem_range.mp hr)
  have hindex : (s.rank r).pc.index (children size r) ≤ 9 + children size r := by
    cases (s.rank r).pc <;> simp only [PC.index] <;> omega
  have hown : (if r = 0 then 0 else e r) ≤ 6 * (s.rank r).calls + 6 := by
    split
    · exact Nat.zero_le _
    · rename_i hne
      refine (hfits.own hne).2.trans ?_
      unfold Rank.ownHi
      split <;> omega
  have hmul : ((s.rank r).calls + 1) * (children size r + 16) =
      (s.rank r).calls * (children size r + 10) + (children size r + 10) +
        (6 * (s.rank r).calls + 6) := by ring
  rw [hmul, Rank.position]
  omega

/-- A run is no longer than the calls allow. -/
theorem length_le (hsize : size < 2 ^ 31) (hrun : Run (Step size operand) initial xs s) :
    xs.length ≤ ∑ r ∈ Finset.range size, ((s.rank r).calls + 1) * (children size r + 16) := by
  obtain ⟨e, h, hle⟩ := inv_initial.run hsize hrun
  exact (Nat.le_of_add_left_le hle).trans h.work_le

end Gasnet.Coll.BootstrapSum

/-! The barriers and the sum of the bootstrap, in any order of messages and for any number of calls. -/
namespace Gasnet.Coll

/-- What a barrier promises holds in every state that it can get to. -/
def BarrierCorrect {n N : Nat} {M : Type} (mem : BootstrapBarrier.Memory M)
    (lay : BootstrapBarrier.Layout n N) : Prop :=
  ∀ s, Reachable (BootstrapBarrier.Step mem lay) (BootstrapBarrier.initial mem lay) s →
    BootstrapBarrier.Correct mem lay s

/-- What a sum promises, that it goes on while all take part in it, and that it comes to an end. -/
def SumCorrect (size : Nat) (operand : Nat → Nat → BitVec 64) : Prop :=
  ∀ xs s, Run (BootstrapSum.Step size operand) BootstrapSum.initial xs s →
    BootstrapSum.Correct size operand s ∧
    (∀ r < size, (s.rank r).pc ≠ .out → (∀ q < size, (s.rank q).Entered (s.rank r).calls) →
      ∃ a t, BootstrapSum.Step size operand s a t ∧ ∀ q, a ≠ .call q) ∧
    xs.length ≤ ∑ r ∈ Finset.range size,
      ((s.rank r).calls + 1) * (BootstrapSum.children size r + 16)

end Gasnet.Coll
