import Gasnet.Coll.AutotuneRuns
import Gasnet.Coll.SubCollectives

/-! Numbers of live operations do not collide while each call fits what it reserved and 32 bits hold
the numbers in use. -/
namespace Gasnet.Coll.SubColl

open Autotune (Team)

variable {R : Type*} [DecidableEq R] {team : Team} {script : Nat → Alg} {s t : State R}
  {a : Action R} {r : Rank} {i j m n : Nat} {p q : List Nat} {k : Key} {u v : Live}

theorem base_succ (team : Team) (script : Nat → Alg) (i : Nat) :
    base team script (i + 1) = base team script i + (1 + reserve team (script i)) := by
  simp [base, List.range_succ]

theorem base_mono (h : i ≤ j) : base team script i ≤ base team script j := by
  induction j, h using Nat.le_induction with
  | base => exact Nat.le_refl _
  | succ j _ ih =>
    rw [base_succ]
    omega

theorem Near.symm (h : Near team script i j) : Near team script j i := ⟨h.2, h.1⟩

theorem reserve_lt (team : Team) (alg : Alg) : reserve team alg < 2 ^ 32 := by
  have := team.totalRanks_lt
  cases alg <;> simp only [reserve] <;> omega

theorem near_self (team : Team) (script : Nat → Alg) (i : Nat) : Near team script i i := by
  have := reserve_lt team (script i)
  rw [Near, base_succ]
  omega

/-- The number of an operation. -/
def numberOf (team : Team) (script : Nat → Alg) (i n : Nat) : BitVec 32 :=
  firstSequence + BitVec.ofNat 32 (base team script i + n)

theorem numberOf_inj (hnear : Near team script i j) (hm : m ≤ reserve team (script i))
    (hn : n ≤ reserve team (script j)) (h : numberOf team script i m = numberOf team script j n) :
    i = j ∧ m = n := by
  have hnat := congrArg BitVec.toNat (add_left_cancel h)
  rw [BitVec.toNat_ofNat, BitVec.toNat_ofNat] at hnat
  obtain ⟨h₁, h₂⟩ := hnear
  have hi := base_succ team script i
  have hj := base_succ team script j
  have heq : base team script i + m = base team script j + n := by omega
  rcases Nat.lt_trichotomy i j with hlt | rfl | hlt
  · have : base team script (i + 1) ≤ base team script j := base_mono hlt
    omega
  · exact ⟨rfl, by omega⟩
  · have : base team script (j + 1) ≤ base team script i := base_mono hlt
    omega

/-- An operation with the number that its place in its call gives it. -/
def Placed (team : Team) (script : Nat → Alg) (k : Key) (sequence : BitVec 32) : Prop :=
  ∃ n c, walk team (script k.1) k.2 = some (n, c) ∧ sequence = numberOf team script k.1 n

theorem Placed.inj {k k' : Key} {x : BitVec 32} (hk : Placed team script k x)
    (hk' : Placed team script k' x) (hfits : Fits team (script k.1))
    (hfits' : Fits team (script k'.1)) (hnear : Near team script k.1 k'.1) : k = k' := by
  obtain ⟨i, p⟩ := k
  obtain ⟨j, q⟩ := k'
  obtain ⟨n, c, hp, rfl⟩ := hk
  obtain ⟨n', c', hq, he⟩ := hk'
  obtain ⟨rfl, rfl⟩ :=
    numberOf_inj hnear (walk_le_reserve hfits hp) (walk_le_reserve hfits' hq) he
  exact congrArg (Prod.mk i) (walk_inj hfits hp hq)

/-- What holds of a rank: its counter, and its operations in their places. -/
structure RankInv (team : Team) (script : Nat → Alg) (r : Rank) : Prop where
  sequence_eq : r.sequence = numberOf team script r.issued 0
  fits : ∀ i < r.issued, Fits team (script i)
  issued : ∀ k u, r.live k = some u → k.1 < r.issued
  placed : ∀ k u, r.live k = some u →
    ∃ n, walk team (script k.1) k.2 = some (n, u.alg) ∧ u.sequence = numberOf team script k.1 n
  near : ∀ k u k' u', r.live k = some u → r.live k' = some u' → Near team script k.1 k'.1

/-- An operation that a rank has after a step is one that it had, in the same place and with the
same number, or belongs to the same call as one that it had. -/
def Spawned (team : Team) (script : Nat → Alg) (r r' : Rank) : Prop :=
  ∀ k u, r'.live k = some u →
    (∃ q v, r.live (k.1, q) = some v) ∧
    ∃ n, walk team (script k.1) k.2 = some (n, u.alg) ∧ u.sequence = numberOf team script k.1 n

theorem RankInv.of_spawned {r' : Rank} (h : RankInv team script r) (hs : Spawned team script r r')
    (hissued : r'.issued = r.issued) (hsequence : r'.sequence = r.sequence) :
    RankInv team script r' where
  sequence_eq := by rw [hsequence, hissued, h.sequence_eq]
  fits := by rw [hissued]; exact h.fits
  issued k u hk := by
    obtain ⟨⟨q, v, hv⟩, -⟩ := hs k u hk
    rw [hissued]
    exact h.issued (k.1, q) v hv
  placed k u hk := (hs k u hk).2
  near k u k' u' hk hk' := by
    obtain ⟨⟨q, v, hv⟩, -⟩ := hs k u hk
    obtain ⟨⟨q', v', hv'⟩, -⟩ := hs k' u' hk'
    exact h.near (k.1, q) v (k'.1, q') v' hv hv'

theorem spawned_spawn (h : RankInv team script r) (hlive : r.live (i, p) = some u) (late : Bool) :
    Spawned team script r (r.spawn team i p u late) := by
  obtain ⟨n, hwalk, hseq⟩ := h.placed _ _ hlive
  intro k v hk
  obtain ⟨i', q⟩ := k
  -- the operation itself, a new one below it, or one that was there
  have hold : ∀ v, r.live (i', q) = some v → (∃ q v, r.live (i', q) = some v) ∧
      ∃ n, walk team (script i') q = some (n, v.alg) ∧ v.sequence = numberOf team script i' n :=
    fun v hv => ⟨⟨q, v, hv⟩, h.placed _ _ hv⟩
  match q with
  | [] =>
    simp only [Rank.spawn] at hk
    split at hk
    · rename_i he
      obtain ⟨rfl, rfl⟩ := he
      obtain rfl := Option.some.inj hk
      exact ⟨⟨[], u, hlive⟩, n, hwalk, hseq⟩
    · exact hold v hk
  | j :: q =>
    simp only [Rank.spawn] at hk
    split at hk
    · rename_i he
      obtain ⟨rfl, rfl⟩ := he
      obtain rfl := Option.some.inj hk
      exact ⟨⟨_, u, hlive⟩, n, hwalk, hseq⟩
    · split at hk
      · rename_i he
        obtain ⟨rfl, rfl, -⟩ := he
        split at hk
        · rename_i offset alg hsub
          obtain rfl := Option.some.inj hk
          refine ⟨⟨_, u, hlive⟩, n + offset, walk_cons hwalk hsub, ?_⟩
          rw [hseq, numberOf, numberOf, ← Nat.add_assoc, BitVec.ofNat_add _ offset, add_assoc]
        · exact hold v hk
      · exact hold v hk

theorem spawned_finish (h : RankInv team script r) (k : Key) :
    Spawned team script r (r.finish k) := by
  intro k' v hk'
  simp only [Rank.finish, Function.update_apply] at hk'
  split at hk'
  · exact absurd hk' (by simp)
  · exact ⟨⟨_, v, hk'⟩, h.placed _ _ hk'⟩

theorem rankInv_issue (h : RankInv team script r) (hfits : Fits team (script r.issued))
    (hnear : ∀ k u, r.live k = some u → Near team script r.issued k.1) :
    RankInv team script (r.issue team (script r.issued)) where
  sequence_eq := by
    simp only [Rank.issue, h.sequence_eq, numberOf, base_succ, Nat.add_zero, BitVec.ofNat_add]
    rw [add_assoc]
    rfl
  fits i hi := by
    rcases Nat.lt_succ_iff_lt_or_eq.mp hi with hlt | rfl
    · exact h.fits i hlt
    · exact hfits
  issued k u hk := by
    simp only [Rank.issue, Function.update_apply] at hk ⊢
    split at hk
    · rename_i he
      rw [he]
      exact Nat.lt_succ_self _
    · exact Nat.lt_succ_of_lt (h.issued _ _ hk)
  placed k u hk := by
    simp only [Rank.issue, Function.update_apply] at hk
    split at hk
    · rename_i he
      obtain rfl := Option.some.inj hk
      rw [he]
      exact ⟨0, rfl, h.sequence_eq⟩
    · exact h.placed _ _ hk
  near k u k' u' hk hk' := by
    simp only [Rank.issue, Function.update_apply] at hk hk'
    split at hk <;> split at hk'
    · rename_i he he'
      rw [he, he']
      exact near_self _ _ _
    · rename_i he he'
      rw [he]
      exact hnear _ _ hk'
    · rename_i he he'
      rw [he']
      exact (hnear _ _ hk).symm
    · exact h.near _ _ _ _ hk hk'

/-- What holds of the ranks and of the mail. -/
structure Inv (team : Team) (script : Nat → Alg) (s : State R) : Prop where
  rank : ∀ r, RankInv team script (s.rank r)
  mailPlaced : ∀ m ∈ s.mail, Fits team (script m.key.1) ∧ Placed team script m.key m.sequence
  mailNear : ∀ m ∈ s.mail, ∀ k u, (s.rank m.dst).live k = some u →
    Near team script m.key.1 k.1

omit [DecidableEq R] in
theorem inv_initial (team : Team) (script : Nat → Alg) : Inv team script (initial R) where
  rank _ :=
    { sequence_eq := by simp [initial, numberOf, base]
      fits := fun i hi => absurd hi (Nat.not_lt_zero i)
      issued := fun _ _ h => absurd h (by simp [initial])
      placed := fun _ _ h => absurd h (by simp [initial])
      near := fun _ _ _ _ h => absurd h (by simp [initial]) }
  mailPlaced := by simp [initial]
  mailNear := by simp [initial]

/-- A rank goes on, with calls that it had. -/
theorem Inv.update {x : R} {r' : Rank} (h : Inv team script s)
    (hs : Spawned team script (s.rank x) r') (hinv : RankInv team script r') :
    Inv team script { s with rank := Function.update s.rank x r' } where
  rank y := by
    simp only [Function.update_apply]
    split
    · exact hinv
    · exact h.rank y
  mailPlaced := h.mailPlaced
  mailNear m hm k u hk := by
    simp only [Function.update_apply] at hk
    split at hk
    · rename_i he
      obtain ⟨⟨q, v, hv⟩, -⟩ := hs k u hk
      exact h.mailNear m hm (k.1, q) v (by rw [he]; exact hv)
    · exact h.mailNear m hm k u hk

omit [DecidableEq R] in
theorem Inv.filter {f : Message R → Bool} (h : Inv team script s) :
    Inv team script { s with mail := s.mail.filter f } where
  rank := h.rank
  mailPlaced m hm := h.mailPlaced m (List.mem_of_mem_filter hm)
  mailNear m hm := h.mailNear m (List.mem_of_mem_filter hm)

theorem inv_step (h : Step team script s a t) (hmeets : Meets team script s a)
    (hs : Inv team script s) : Inv team script t := by
  cases h with
  | issue x =>
    obtain ⟨hfits, hnear, hmail⟩ := hmeets
    refine ⟨fun y => ?_, hs.mailPlaced, fun m hm k u hk => ?_⟩
    · simp only [Function.update_apply]
      split
      · exact rankInv_issue (hs.rank x) hfits hnear
      · exact hs.rank y
    · simp only [Function.update_apply] at hk
      split at hk
      · rename_i he
        simp only [Rank.issue, Function.update_apply] at hk
        split at hk
        · rename_i hkey
          rw [hkey]
          exact (hmail m hm he).symm
        · exact hs.mailNear m hm k u (by rw [he]; exact hk)
      · exact hs.mailNear m hm k u hk
  | start hlive =>
    have hspawn := spawned_spawn (hs.rank _) hlive false
    exact hs.update hspawn ((hs.rank _).of_spawned hspawn rfl rfl)
  | startLate hlive =>
    have hspawn := spawned_spawn (hs.rank _) hlive true
    exact hs.update hspawn ((hs.rank _).of_spawned hspawn rfl rfl)
  | @finish x i p u hlive =>
    have hspawn := spawned_finish (hs.rank x) (i, p)
    exact (hs.update hspawn ((hs.rank x).of_spawned hspawn rfl rfl)).filter
  | @send x k u hlive dst =>
    refine ⟨hs.rank, fun m hm => ?_, fun m hm k' u' hk' => ?_⟩
    · rcases List.mem_cons.mp hm with rfl | hm
      · obtain ⟨n, hwalk, hseq⟩ := (hs.rank x).placed _ _ hlive
        exact ⟨(hs.rank x).fits _ ((hs.rank x).issued _ _ hlive), n, _, hwalk, hseq⟩
      · exact hs.mailPlaced m hm
    · rcases List.mem_cons.mp hm with rfl | hm
      · exact hmeets k' u' hk'
      · exact hs.mailNear m hm k' u' hk'

/-- A step that meets the condition. -/
def MeetingStep (team : Team) (script : Nat → Alg) (s : State R) (a : Action R) (t : State R) :
    Prop :=
  Step team script s a t ∧ Meets team script s a

theorem inv_reachable (h : Reachable (MeetingStep team script) (initial R) s) :
    Inv team script s :=
  h.invariant (fun hstep hs => inv_step hstep.1 hstep.2 hs) (inv_initial team script)

theorem RankInv.distinct (h : RankInv team script r) : Distinct team script r where
  unique k u k' u' hk hk' he := by
    obtain ⟨n, hwalk, hseq⟩ := h.placed _ _ hk
    obtain ⟨n', hwalk', hseq'⟩ := h.placed _ _ hk'
    exact Placed.inj ⟨n, _, hwalk, hseq⟩ ⟨n', _, hwalk', he.trans hseq'⟩
      (h.fits _ (h.issued _ _ hk)) (h.fits _ (h.issued _ _ hk')) (h.near _ _ _ _ hk hk')
  reserved k u hk := by
    obtain ⟨n, hwalk, hseq⟩ := h.placed _ _ hk
    exact ⟨n, walk_le_reserve (h.fits _ (h.issued _ _ hk)) hwalk, hseq⟩

omit [DecidableEq R] in
theorem Inv.recorded (h : Inv team script s) : Recorded s := by
  intro m hm k u hk he
  obtain ⟨hfits, hplaced⟩ := h.mailPlaced m hm
  obtain ⟨n, hwalk, hseq⟩ := (h.rank m.dst).placed _ _ hk
  refine Placed.inj ⟨n, _, hwalk, he.symm.trans hseq⟩ hplaced ?_ hfits ?_
  · exact (h.rank m.dst).fits _ ((h.rank m.dst).issued _ _ hk)
  · exact (h.mailNear m hm _ _ hk).symm

/-- In every run of calls that fit, with the numbers in use within 32 bits, the live operations of a
rank have different numbers, and mail is recorded for the operation that it is of. -/
theorem sequence_numbers (team : Team) (script : Nat → Alg) (s : State R)
    (h : Reachable (MeetingStep team script) (initial R) s) :
    (∀ r, Distinct team script (s.rank r)) ∧ Recorded s := by
  have hinv := inv_reachable h
  exact ⟨fun r => (hinv.rank r).distinct, hinv.recorded⟩

local instance two_neZero : NeZero 2 := ⟨by decide⟩

/-- Rank 0 of two has made its first call. -/
def called (script : Nat → Alg) : State (Fin 2) where
  rank := Function.update (initial (Fin 2)).rank 0
    (((initial (Fin 2)).rank 0).issue Autotune.pair (script 0))
  mail := []

/-- An operation of it enters its first stage. -/
def spawned (s : State (Fin 2)) (p : List Nat) (u : Live) : State (Fin 2) where
  rank := Function.update s.rank 0 ((s.rank 0).spawn Autotune.pair 0 p u false)
  mail := s.mail

theorem step_called (script : Nat → Alg) :
    Step Autotune.pair script (initial (Fin 2)) (.issue 0) (called script) := .issue 0

/-- The segmented scatter with the parameter of the default choice. -/
def scatterTwo (_ : Nat) : Alg := .scatTreePutSeg 1000000 524288#32

/-- A scatter in two segments, both alive. -/
theorem sequence_numbers_two : ∃ s : State (Fin 2),
    ((s.rank 0).live (0, [0])).isSome ∧ ((s.rank 0).live (0, [1])).isSome ∧
      (∀ r, Distinct Autotune.pair scatterTwo (s.rank r)) ∧ Recorded s := by
  let u : Live := ⟨firstSequence, scatterTwo 0, 0⟩
  have hfits : Fits Autotune.pair (scatterTwo 0) := by
    change fan Autotune.pair (scatterTwo 0) ≤ reserve Autotune.pair (scatterTwo 0)
    decide
  have hstart : Step Autotune.pair scatterTwo (called scatterTwo) (.start 0 (0, []))
      (spawned (called scatterTwo) [] u) :=
    .start rfl rfl (by decide) (by decide)
  have hreach : Reachable (MeetingStep Autotune.pair scatterTwo) (initial (Fin 2))
      (spawned (called scatterTwo) [] u) :=
    (Reachable.refl.snoc ⟨step_called scatterTwo, hfits,
      fun _ _ h => absurd h (by simp [initial]), by simp [initial]⟩).snoc ⟨hstart, trivial⟩
  exact ⟨_, by decide, by decide, sequence_numbers _ _ _ hreach⟩

/-- A broadcast by scatter and all-gather of one byte more than two segmented halves. -/
def scatterAllgatherOdd (_ : Nat) : Alg :=
  .bcastScatterAllgather 1200001 (some 524288#32) none false

/-- The first segment of the scatter has the number of the broadcast of the rest. -/
theorem numbers_collide : ¬ ∀ (team : Team) (script : Nat → Alg) (s : State (Fin 2)),
    Reachable (Step team script) (initial (Fin 2)) s → ∀ r k u k' u',
      (s.rank r).live k = some u → (s.rank r).live k' = some u' → u.sequence = u'.sequence →
        k = k' := by
  intro h
  let top : Live := ⟨firstSequence, scatterAllgatherOdd 0, 0⟩
  let scatter : Live := ⟨firstSequence + 1, .scatTreePutSeg 600000 524288#32, 0⟩
  let s := spawned (called scatterAllgatherOdd) [] top
  have hstart : Step Autotune.pair scatterAllgatherOdd (called scatterAllgatherOdd)
      (.start 0 (0, [])) s := .start rfl rfl (by decide) (by decide)
  have hscatter : Step Autotune.pair scatterAllgatherOdd s (.start 0 (0, [0]))
      (spawned s [0] scatter) := .start (by decide) rfl (by decide) (by decide)
  have hreach := ((Reachable.refl.snoc (step_called scatterAllgatherOdd)).snoc hstart).snoc hscatter
  exact absurd (h _ _ _ hreach 0 (0, [1]) ⟨firstSequence + 2, .plain, 0⟩ (0, [0, 0])
    ⟨firstSequence + 1 + 1, .plain, 0⟩ (by decide) (by decide) (by decide))
    (by decide)

end Gasnet.Coll.SubColl
