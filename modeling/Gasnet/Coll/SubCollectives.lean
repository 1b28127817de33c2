import Mathlib.Data.BitVec
import Mathlib.Logic.Function.Basic
import Gasnet.Coll.Autotune
import Gasnet.Foundation.Run

/-! The sequence numbers of collectives and of the collectives that they start. A call takes numbers
when it is made; what it starts later is numbered from its own. -/
namespace Gasnet.Coll.SubColl

open Autotune (Team numSegs)

variable {R : Type*} [DecidableEq R]

/-- The implementations, by what they start: `plain` for those that start no other collective. The
parameter is `param_list[0]`; the scatter-allgather has the parameters of the segmented scatter and
the segmented broadcast when it chooses these, and whether its all-gather is the one of a gather and
a broadcast. -/
inductive Alg
  | plain
  | bcastTreePutSeg (nbytes : Nat) (param : BitVec 32)
  | scatTreePutSeg (nbytes : Nat) (param : BitVec 32)
  | gathTreePutSeg (nbytes : Nat) (param : BitVec 32)
  | gallGathBcast
  | exchgGath
  | bcastScatterAllgather (nbytes : Nat) (scatterSeg bcastSeg : Option (BitVec 32))
      (gathBcast : Bool)
deriving DecidableEq

/-- How many segments a poll function starts: the loop up to an `int` less one, and one more. -/
def started (nbytes segSize : Nat) : Nat :=
  max 1 (BitVec.ofNat 32 (numSegs nbytes segSize)).toInt.toNat

/-- The plain collectives that an implementation starts. -/
def fan (team : Team) : Alg → Nat
  | .plain | .bcastScatterAllgather .. => 0
  | .bcastTreePutSeg nbytes param => started nbytes param.toNat
  -- `gasnete_coll_get_pipe_seg_size`, not the parameter
  | .scatTreePutSeg nbytes _ | .gathTreePutSeg nbytes _ => started nbytes team.pipeSegSize
  | .gallGathBcast => 1
  | .exchgGath => team.totalRanks

/-- The `sequence` that an implementation hands to `gasnete_coll_op_generic_init_with_scratch` when
it is not subordinate: the numbers to reserve after its own. -/
def reserve (team : Team) : Alg → Nat
  | .plain => 0
  | .bcastTreePutSeg nbytes param | .scatTreePutSeg nbytes param =>
    numSegs nbytes param.toNat % 2 ^ 32
  | .gathTreePutSeg nbytes param =>
    (nbytes + param.toNat - 1) % 2 ^ 64 / param.toNat % 2 ^ 32
  | .gallGathBcast => 1
  | .exchgGath => team.totalRanks
  | .bcastScatterAllgather .. => (3 + 2 * Autotune.maxNumSegs + team.totalRanks) % 2 ^ 32

/-- The collectives that an implementation starts, with their numbers relative to its own. -/
def subs (team : Team) : Alg → Nat → Option (Nat × Alg)
  | .bcastScatterAllgather nbytes scatterSeg _ _, 0 =>
    some (1, match scatterSeg with
      | none => .plain
      | some param => .scatTreePutSeg (nbytes / team.totalRanks) param)
  | .bcastScatterAllgather nbytes _ bcastSeg _, 1 =>
    if 0 < nbytes % team.totalRanks then
      some (2, match bcastSeg with
        | none => .plain
        | some param => .bcastTreePutSeg (nbytes % team.totalRanks) param)
    else none
  | .bcastScatterAllgather nbytes _ _ gathBcast, 2 =>
    if 0 < nbytes / team.totalRanks then some (3, if gathBcast then .gallGathBcast else .plain)
    else none
  | alg, j => if j < fan team alg then some (j + 1, .plain) else none

/-- The segment size that a poll function divides by. -/
def divisor (team : Team) : Alg → Nat
  | .bcastTreePutSeg _ param => param.toNat
  | .scatTreePutSeg .. | .gathTreePutSeg .. => team.pipeSegSize
  | _ => 1

/-- The all-gather of a scatter-allgather starts after the others, when its scatter is done. -/
def isLate : Alg → Nat → Bool
  | .bcastScatterAllgather .., j => j == 2
  | _, _ => false

/-- The states of a poll function in which collectives are started. -/
def stages : Alg → Nat
  | .plain => 0
  | .bcastScatterAllgather .. => 2
  | _ => 1

/-- An operation: the number of the call, and the places of the collectives that lead from it to the
operation, the last one first. -/
abbrev Key := Nat × List Nat

/-- A live operation. -/
structure Live where
  sequence : BitVec 32
  alg : Alg
  stage : Nat
deriving DecidableEq

/-- One rank: the calls that it has made, `team->sequence`, and its live operations. -/
structure Rank where
  issued : Nat
  sequence : BitVec 32
  live : Key → Option Live

/-- A message under way, or recorded for its number at the destination. -/
structure Message (R : Type*) where
  dst : R
  key : Key
  sequence : BitVec 32
deriving DecidableEq

structure State (R : Type*) where
  rank : R → Rank
  mail : List (Message R)

/-- `team->sequence` of a new team, near to its wrap-around. -/
def firstSequence : BitVec 32 := 0xfffffff8#32

def initial (R : Type*) : State R where
  rank _ := ⟨0, firstSequence, fun _ => none⟩
  mail := []

/-- A call that is not subordinate. -/
def Rank.issue (team : Team) (r : Rank) (alg : Alg) : Rank where
  issued := r.issued + 1
  sequence := r.sequence + (1 + BitVec.ofNat 32 (reserve team alg))
  live := Function.update r.live (r.issued, []) (some ⟨r.sequence, alg, 0⟩)

/-- An operation enters its next stage with the collectives that it starts there. -/
def Rank.spawn (team : Team) (r : Rank) (i : Nat) (p : List Nat) (u : Live) (late : Bool) : Rank :=
  { r with
    live := fun k => match k with
      | (i', []) => if i' = i ∧ p = [] then some { u with stage := u.stage + 1 } else r.live k
      | (i', j :: q) =>
        if i' = i ∧ p = j :: q then some { u with stage := u.stage + 1 }
        else if i' = i ∧ q = p ∧ isLate u.alg j = late then
          match subs team u.alg j with
          | some (offset, alg) => some ⟨u.sequence + BitVec.ofNat 32 offset, alg, 0⟩
          | none => r.live k
        else r.live k }

def Rank.finish (r : Rank) (k : Key) : Rank :=
  { r with live := Function.update r.live k none }

inductive Action (R : Type*)
  | issue (r : R)
  | start (r : R) (k : Key)
  | startLate (r : R) (k : Key)
  | finish (r : R) (k : Key)
  | send (r : R) (k : Key) (dst : R)

/-- All ranks make the calls of `script` in its order; each goes on in its own time. -/
inductive Step (team : Team) (script : Nat → Alg) : State R → Action R → State R → Prop
  | issue {s : State R} (r : R) :
      Step team script s (.issue r)
        { s with
          rank := Function.update s.rank r
            ((s.rank r).issue team (script (s.rank r).issued)) }
  | start {s : State R} {r : R} {i : Nat} {p : List Nat} {u : Live}
      (hlive : (s.rank r).live (i, p) = some u) (hstage : u.stage = 0) (hmore : 0 < stages u.alg)
      (hdiv : divisor team u.alg ≠ 0) :
      Step team script s (.start r (i, p))
        { s with rank := Function.update s.rank r ((s.rank r).spawn team i p u false) }
  | startLate {s : State R} {r : R} {i : Nat} {p : List Nat} {u : Live}
      (hlive : (s.rank r).live (i, p) = some u) (hstage : u.stage = 1) (hmore : 1 < stages u.alg)
      (hfirst : (s.rank r).live (i, 0 :: p) = none) :
      Step team script s (.startLate r (i, p))
        { s with rank := Function.update s.rank r ((s.rank r).spawn team i p u true) }
  -- an operation has waited for those that it started; its record goes with it
  | finish {s : State R} {r : R} {i : Nat} {p : List Nat} {u : Live}
      (hlive : (s.rank r).live (i, p) = some u) (hstage : u.stage = stages u.alg)
      (hdone : ∀ j, (s.rank r).live (i, j :: p) = none) :
      Step team script s (.finish r (i, p))
        { rank := Function.update s.rank r ((s.rank r).finish (i, p))
          mail := s.mail.filter fun m => decide ¬(m.dst = r ∧ m.sequence = u.sequence) }
  | send {s : State R} {r : R} {k : Key} {u : Live} (hlive : (s.rank r).live k = some u) (dst : R) :
      Step team script s (.send r k dst) { s with mail := ⟨dst, k, u.sequence⟩ :: s.mail }

/-- The numbers handed out before a call, without wrapping. -/
def base (team : Team) (script : Nat → Alg) (i : Nat) : Nat :=
  ((List.range i).map fun j => 1 + reserve team (script j)).sum

/-- The numbers of two calls and those between them fit 32 bits. -/
def Near (team : Team) (script : Nat → Alg) (i j : Nat) : Prop :=
  base team script (i + 1) ≤ base team script j + 2 ^ 32 ∧
    base team script (j + 1) ≤ base team script i + 2 ^ 32

/-- No operation of a call collides with another one of it, nor leaves the numbers reserved. -/
def Fits (team : Team) (alg : Alg) : Prop :=
  match alg with
  | .plain | .gallGathBcast | .exchgGath => True
  | .bcastTreePutSeg nbytes param => 0 < numSegs nbytes param.toNat % 2 ^ 32
  | .scatTreePutSeg .. | .gathTreePutSeg .. => fan team alg ≤ reserve team alg
  | .bcastScatterAllgather nbytes scatterSeg bcastSeg _ =>
    let segSize := nbytes / team.totalRanks
    let remainder := nbytes % team.totalRanks
    -- the segments of the scatter and of the broadcast have the numbers of what follows them
    (∀ param ∈ scatterSeg, remainder = 0 ∧
      (0 < segSize → fan team (.scatTreePutSeg segSize param) ≤ 1)) ∧
    (bcastSeg.isSome → 0 < remainder → segSize = 0)

/-- The condition on a step: a call that fits, and is near to what the rank has alive or has mail
for; mail only for calls that are near to what its destination has alive. -/
def Meets (team : Team) (script : Nat → Alg) (s : State R) : Action R → Prop
  | .issue r =>
    let i := (s.rank r).issued
    Fits team (script i) ∧
      (∀ k u, (s.rank r).live k = some u → Near team script i k.1) ∧
      ∀ m ∈ s.mail, m.dst = r → Near team script i m.key.1
  | .send _ k dst => ∀ k' u, (s.rank dst).live k' = some u → Near team script k.1 k'.1
  | _ => True

/-- The operations alive on a rank have different numbers, of the blocks that their calls
reserved. -/
structure Distinct (team : Team) (script : Nat → Alg) (r : Rank) : Prop where
  unique : ∀ k u k' u', r.live k = some u → r.live k' = some u' → u.sequence = u'.sequence → k = k'
  reserved : ∀ k u, r.live k = some u →
    ∃ n ≤ reserve team (script k.1),
      u.sequence = firstSequence + BitVec.ofNat 32 (base team script k.1 + n)

/-- Mail is recorded for the operation that it is of. -/
def Recorded (s : State R) : Prop :=
  ∀ m ∈ s.mail, ∀ k u, (s.rank m.dst).live k = some u → u.sequence = m.sequence → k = m.key

end Gasnet.Coll.SubColl

/-! The numbers of a call's operations, relative to its own. -/
namespace Gasnet.Coll.SubColl

open Autotune (Team numSegs)

variable {team : Team} {alg b c : Alg} {j l m n nbytes : Nat} {p q : List Nat}

/-- The number of an operation relative to its call, and its implementation. -/
def walk (team : Team) (alg : Alg) : List Nat → Option (Nat × Alg)
  | [] => some (0, alg)
  | j :: p => (walk team alg p).bind fun x => (subs team x.2 j).map fun y => (x.1 + y.1, y.2)

theorem walk_cons (h : walk team alg p = some (n, b)) (hs : subs team b j = some (m, c)) :
    walk team alg (j :: p) = some (n + m, c) := by
  simp [walk, h, hs]

theorem walk_cons_inv (h : walk team alg (j :: p) = some (n, c)) :
    ∃ n' b m, walk team alg p = some (n', b) ∧ subs team b j = some (m, c) ∧ n = n' + m := by
  rw [walk, Option.bind_eq_some_iff] at h
  obtain ⟨⟨n', b⟩, hp, hm⟩ := h
  rw [Option.map_eq_some_iff] at hm
  obtain ⟨⟨m, c'⟩, hs, he⟩ := hm
  obtain ⟨rfl, rfl⟩ := Prod.mk.injEq .. ▸ he
  exact ⟨n', b, m, hp, hs, rfl⟩

/-- The implementations that start plain collectives only. -/
def Flat : Alg → Prop
  | .bcastScatterAllgather .. => False
  | _ => True

theorem subs_flat (hf : Flat alg) (h : subs team alg j = some (m, c)) :
    j < fan team alg ∧ m = j + 1 ∧ c = .plain := by
  have hsubs : subs team alg j = if j < fan team alg then some (j + 1, .plain) else none := by
    cases alg with
    | bcastScatterAllgather => exact hf.elim
    | _ => rfl
  rw [hsubs, Option.ite_none_right_eq_some, Option.some.injEq, Prod.mk.injEq] at h
  exact ⟨h.1, h.2.1.symm, h.2.2.symm⟩

theorem flat_plain : Flat .plain := trivial

/-- The collectives of a scatter-allgather are numbered in their order. -/
theorem subs_scatterAllgather {scatterSeg bcastSeg : Option (BitVec 32)} {gathBcast : Bool}
    (h : subs team (.bcastScatterAllgather nbytes scatterSeg bcastSeg gathBcast) j = some (m, c)) :
    m = j + 1 ∧ Flat c := by
  match j with
  | 0 =>
    simp only [subs, Option.some.injEq, Prod.mk.injEq] at h
    obtain ⟨rfl, rfl⟩ := h
    cases scatterSeg <;> simp [Flat]
  | 1 =>
    simp only [subs, Option.ite_none_right_eq_some, Option.some.injEq, Prod.mk.injEq] at h
    obtain ⟨-, rfl, rfl⟩ := h
    cases bcastSeg <;> simp [Flat]
  | 2 =>
    simp only [subs, Option.ite_none_right_eq_some, Option.some.injEq, Prod.mk.injEq] at h
    obtain ⟨-, rfl, rfl⟩ := h
    cases gathBcast <;> simp [Flat]
  | j + 3 => simp [subs, fan] at h

theorem subs_eq (h : subs team alg j = some (m, c)) : m = j + 1 ∧ Flat c := by
  by_cases hf : Flat alg
  · obtain ⟨-, hm, rfl⟩ := subs_flat hf h
    exact ⟨hm, flat_plain⟩
  · cases alg with
    | bcastScatterAllgather => exact subs_scatterAllgather h
    | _ => exact absurd trivial hf

/-- The call itself, a collective that it starts, or one that this starts. -/
theorem walk_cases (h : walk team alg p = some (n, c)) :
    p = [] ∧ n = 0 ∧ c = alg ∨
      (∃ j, p = [j] ∧ n = j + 1 ∧ subs team alg j = some (n, c)) ∨
      ∃ l j b, p = [l, j] ∧ n = j + 1 + (l + 1) ∧ subs team alg j = some (j + 1, b) ∧
        l < fan team b ∧ c = .plain := by
  induction p generalizing n c with
  | nil =>
    simp only [walk, Option.some.injEq, Prod.mk.injEq] at h
    exact .inl ⟨rfl, h.1.symm, h.2.symm⟩
  | cons j p ih =>
    obtain ⟨n', b, m, hp, hs, rfl⟩ := walk_cons_inv h
    obtain ⟨rfl, rfl, rfl⟩ | ⟨j', rfl, rfl, hj⟩ | ⟨l, j', b', rfl, -, -, -, rfl⟩ := ih hp
    · obtain ⟨rfl, -⟩ := subs_eq hs
      exact .inr (.inl ⟨j, rfl, by omega, by rwa [Nat.zero_add]⟩)
    · obtain ⟨hlt, rfl, rfl⟩ := subs_flat (subs_eq hj).2 hs
      exact .inr (.inr ⟨j, j', b, rfl, rfl, hj, hlt, rfl⟩)
    · exact absurd (subs_flat flat_plain hs).1 (Nat.not_lt_zero _)

theorem numSegs_le (hn : 0 < n) (m : Nat) : numSegs n m ≤ n := by
  have hdiv := Nat.div_le_self n m
  unfold numSegs
  split
  · exact hdiv
  · rename_i hmod
    rcases Nat.lt_trichotomy m 1 with hm | rfl | hm
    · obtain rfl : m = 0 := by omega
      rw [Nat.div_zero]
      exact hn
    · exact absurd (Nat.mod_one n) hmod
    · have := Nat.div_lt_self hn hm
      omega

theorem toNat_toInt_le (n : Nat) : (BitVec.ofNat 32 n).toInt.toNat ≤ n % 2 ^ 32 := by
  rw [BitVec.toInt_eq_toNat_cond, BitVec.toNat_ofNat]
  split <;> omega

theorem started_le (hn : 0 < nbytes) (segSize : Nat) : started nbytes segSize ≤ nbytes := by
  have := numSegs_le hn segSize
  have := toNat_toInt_le (numSegs nbytes segSize)
  have := Nat.mod_le (numSegs nbytes segSize) (2 ^ 32)
  unfold started
  omega

/-- What a scatter-allgather starts: its scatter, its broadcast of the rest and its all-gather. -/
theorem scatterAllgather_cases {scatterSeg bcastSeg : Option (BitVec 32)} {gathBcast : Bool}
    (hfits : Fits team (.bcastScatterAllgather nbytes scatterSeg bcastSeg gathBcast))
    (h : subs team (.bcastScatterAllgather nbytes scatterSeg bcastSeg gathBcast) j = some (m, c)) :
    j = 0 ∧ (0 < nbytes % team.totalRanks → fan team c = 0) ∧ fan team c ≤ 1 ∨
      j = 1 ∧ 0 < nbytes % team.totalRanks ∧ fan team c ≤ team.totalRanks ∧
        (0 < nbytes / team.totalRanks → fan team c = 0) ∨
      j = 2 ∧ 0 < nbytes / team.totalRanks ∧ fan team c ≤ 1 := by
  match j with
  | 0 =>
    simp only [subs, Option.some.injEq, Prod.mk.injEq] at h
    obtain ⟨-, rfl⟩ := h
    left
    cases scatterSeg with
    | none => exact ⟨rfl, fun _ => rfl, Nat.zero_le _⟩
    | some param =>
      obtain ⟨hrest, hone⟩ := hfits.1 param rfl
      refine ⟨rfl, fun h => by omega, ?_⟩
      rcases Nat.eq_zero_or_pos (nbytes / team.totalRanks) with hz | hpos
      · simp [fan, started, numSegs, hz]
      · exact hone hpos
  | 1 =>
    simp only [subs, Option.ite_none_right_eq_some, Option.some.injEq, Prod.mk.injEq] at h
    obtain ⟨hpos, -, rfl⟩ := h
    right
    left
    have hlt := Nat.mod_lt nbytes team.totalRanks_pos
    cases bcastSeg with
    | none => exact ⟨rfl, hpos, Nat.zero_le _, fun _ => rfl⟩
    | some param =>
      have hz := hfits.2 rfl hpos
      have := started_le hpos param.toNat
      exact ⟨rfl, hpos, by simp only [fan]; omega, fun h => absurd hz (by omega)⟩
  | 2 =>
    simp only [subs, Option.ite_none_right_eq_some, Option.some.injEq, Prod.mk.injEq] at h
    obtain ⟨hpos, -, rfl⟩ := h
    right
    right
    refine ⟨rfl, hpos, ?_⟩
    cases gathBcast
    · exact Nat.zero_le _
    · exact Nat.le_refl _
  | j + 3 => simp [subs, fan] at h

theorem fan_le_reserve (hf : Flat alg) (hfits : Fits team alg) :
    fan team alg ≤ reserve team alg := by
  cases alg with
  | plain => exact Nat.le_refl _
  | bcastTreePutSeg nbytes param =>
    have := toNat_toInt_le (numSegs nbytes param.toNat)
    simp only [Fits] at hfits
    simp only [fan, reserve, started]
    omega
  | scatTreePutSeg => exact hfits
  | gathTreePutSeg => exact hfits
  | gallGathBcast => exact Nat.le_refl _
  | exchgGath => exact Nat.le_refl _
  | bcastScatterAllgather => exact hf.elim

/-- The numbers of a call that fits are among those reserved. -/
theorem walk_le_reserve (hfits : Fits team alg) (h : walk team alg p = some (n, c)) :
    n ≤ reserve team alg := by
  have hranks := team.totalRanks_lt
  by_cases hf : Flat alg
  · have hfan := fan_le_reserve hf hfits
    obtain ⟨-, rfl, -⟩ | ⟨j, -, rfl, hj⟩ | ⟨l, j, b, -, -, hj, hlt, -⟩ := walk_cases h
    · exact Nat.zero_le _
    · have := (subs_flat hf hj).1
      omega
    · obtain ⟨-, -, rfl⟩ := subs_flat hf hj
      exact absurd hlt (Nat.not_lt_zero _)
  · cases alg with
    | bcastScatterAllgather =>
      simp only [reserve, Autotune.maxNumSegs]
      obtain ⟨-, rfl, -⟩ | ⟨j, -, rfl, hj⟩ | ⟨l, j, b, -, rfl, hj, hlt, -⟩ := walk_cases h
      · omega
      · have := scatterAllgather_cases hfits hj
        omega
      · have := scatterAllgather_cases hfits hj
        omega
    | _ => exact absurd trivial hf

/-- No two operations of a call that fits have one number. -/
theorem walk_inj (hfits : Fits team alg) (h : walk team alg p = some (n, b))
    (h' : walk team alg q = some (n, c)) : p = q := by
  by_cases hf : Flat alg
  · have hcases : ∀ {p b}, walk team alg p = some (n, b) → p = [] ∧ n = 0 ∨ n ≠ 0 ∧ p = [n - 1] := by
      intro p b h
      obtain ⟨rfl, rfl, -⟩ | ⟨j, rfl, rfl, -⟩ | ⟨l, j, b, -, -, hj, hlt, -⟩ := walk_cases h
      · exact .inl ⟨rfl, rfl⟩
      · exact .inr ⟨by omega, rfl⟩
      · obtain ⟨-, -, rfl⟩ := subs_flat hf hj
        exact absurd hlt (Nat.not_lt_zero _)
    obtain ⟨rfl, hz⟩ | ⟨hz, rfl⟩ := hcases h <;> obtain ⟨rfl, hz'⟩ | ⟨hz', rfl⟩ := hcases h'
    · rfl
    · exact absurd hz hz'
    · exact absurd hz' hz
    · rfl
  · cases alg with
    | bcastScatterAllgather =>
      obtain ⟨rfl, rfl, -⟩ | ⟨j, rfl, rfl, hj⟩ | ⟨l, j, d, rfl, rfl, hj, hlt, -⟩ := walk_cases h <;>
        obtain ⟨rfl, hn, -⟩ | ⟨j', rfl, hn, hj'⟩ | ⟨l', j', d', rfl, hn, hj', hlt', -⟩ :=
          walk_cases h'
      · rfl
      · omega
      · omega
      · omega
      · obtain rfl : j = j' := by omega
        rfl
      · have := scatterAllgather_cases hfits hj
        have := scatterAllgather_cases hfits hj'
        omega
      · omega
      · have := scatterAllgather_cases hfits hj
        have := scatterAllgather_cases hfits hj'
        omega
      · have hc := scatterAllgather_cases hfits hj
        have hc' := scatterAllgather_cases hfits hj'
        obtain rfl : j = j' := by omega
        obtain rfl : l = l' := by omega
        rfl
    | _ => exact absurd trivial hf

end Gasnet.Coll.SubColl
