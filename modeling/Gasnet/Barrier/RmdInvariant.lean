import Gasnet.Barrier.Rmd
import Gasnet.Barrier.AmdInvariant

/-! What a reachable state of the RDMA barrier satisfies. All of it is derived; none of it
restricts the step relation. -/
namespace Gasnet.Barrier.Rmd

open Dissemination
open Amd (size)

variable {N : Nat} {s t : State N} {r p q j : Fin N} {i k n : Nat} {a : Tag} {act : Action N}
  {v w : Flat Arg} {P : Put} {K : Kick}

namespace State

/-- The steps that `r` has consumed, those of a running kick included. -/
def reached (s : State N) (r : Fin N) : Nat :=
  match s.kick r with
  | some k => k.step
  | none => (s.data r).step

/-- The last barrier whose step `i` inbox `r` has consumed. -/
def consumed (s : State N) (r : Fin N) (i : Nat) : Nat :=
  if s.inside r = true ∧ i < s.reached r then s.completed r + 1 else s.completed r

/-- The last barrier whose step `i` a finished kick of `r` has published. -/
def published (s : State N) (r : Fin N) (i : Nat) : Nat :=
  if s.inside r = true ∧ i < (s.data r).step then s.completed r + 1 else s.completed r

/-- The last barrier whose step `i` put `p` has issued. -/
def sent (s : State N) (p : Fin N) : Nat → Nat
  | 0 => s.notified p
  | i + 1 => s.published p i

/-- What rank `j` said in barrier `k`. -/
def said (s : State N) (j : Fin N) (k : Nat) : Flat Arg := (s.arg j k).consensus

/-- The fold of what all ranks said in barrier `k`. -/
def total (s : State N) (k : Nat) : Flat Arg := Finset.univ.sup fun j => s.said j k

/-- All ranks heard by `r` after `i` steps have notified barrier `k`, and `v` is the fold of
what some ranks said that include them. -/
def Covers (s : State N) (k i : Nat) (r : Fin N) (v : Flat Arg) : Prop :=
  (∀ j, Hears i r j → k ≤ s.notified j ∧ s.said j k ≤ v) ∧ v ≤ s.total k

end State

/-- The bits of a put that its inbox shows. -/
def visible : Option Put → Inbox
  | none => 0
  | some p => fun f => payload p.arg f &&& p.seen f

/-- The put of step `i` in barrier `k`. -/
structure PutInv (s : State N) (p : Fin N) (k i : Nat) (P : Put) : Prop where
  phase : P.phase = k % 4
  first : P.first ≤ i
  covers : s.Covers k i p P.arg.consensus
  quiet : k + 2 ≤ s.notified p → P.done = true
  temporary : P.done = false → s.temporary p (P.phase ^^^ 1) P.first = payload P.arg

/-- A running kick is ahead of the published step. -/
structure KickInv (s : State N) (r : Fin N) (K : Kick) : Prop where
  inside : s.inside r = true
  step_lt : (s.data r).step < size N
  le_step : (s.data r).step ≤ K.step
  step_le : K.step ≤ size N

structure Control (s : State N) : Prop where
  phase : ∀ r, 0 < size N → (s.data r).phase = s.notified r % 4
  inside : ∀ r, s.inside r = true → s.notified r = s.completed r + 1
  outside : ∀ r, s.inside r = false → s.notified r = s.completed r
  step_le : ∀ r, (s.data r).step ≤ size N
  kick : ∀ r K, s.kick r = some K → KickInv s r K
  future : ∀ r k, s.notified r < k → s.arg r k = .anonymous

structure Inv (s : State N) : Prop extends Control s where
  safe : ∀ r j, s.completed r ≤ s.notified j
  puts : ∀ p k i, s.puts p k i ≠ none ↔ 0 < k ∧ k ≤ s.sent p i ∧ i < size N
  put : ∀ p k i P, s.puts p k i = some P → PutInv s p k i P
  consumed_le : ∀ p i, i < size N → s.consumed (fwd p i) i ≤ s.sent p i
  cell : ∀ p i k, i < size N → s.consumed (fwd p i) i ≤ k + 1 →
    k ≤ s.consumed (fwd p i) i + 2 → s.inbox (fwd p i) (k % 4) i = visible (s.puts p k i)
  reads : ∀ r K f x, s.kick r = some K → K.step < size N → K.reads f = some x →
    x &&& s.inbox r (s.data r).phase K.step f = x
  running : ∀ r K, s.kick r = some K → s.Covers (s.notified r) K.step r K.tag.consensus
  published : ∀ r, s.inside r = true →
    s.Covers (s.notified r) (s.data r).step r (s.data r).tag.consensus
  result : ∀ r k, 0 < k → k ≤ s.completed r → (s.result r k).consensus = s.total k

/-- History only grows: what was notified, said, published and consumed stays so. -/
structure Extends (s t : State N) : Prop where
  notified : ∀ j, s.notified j ≤ t.notified j
  arg : ∀ j k, k ≤ s.notified j → t.arg j k = s.arg j k
  said : ∀ j k, s.said j k ≤ t.said j k

theorem said_le_total (s : State N) (j : Fin N) (k : Nat) : s.said j k ≤ s.total k :=
  Finset.le_sup (f := fun j => s.said j k) (Finset.mem_univ j)

theorem total_mono (h : Extends s t) (k : Nat) : s.total k ≤ t.total k :=
  Finset.sup_mono_fun fun j _ => h.said j k

theorem total_eq (h : Extends s t) (hk : ∀ j, k ≤ s.notified j) : t.total k = s.total k := by
  simp only [State.total, State.said, h.arg _ _ (hk _)]

theorem covers_mono (h : Extends s t) (hc : s.Covers k i r v) : t.Covers k i r v := by
  obtain ⟨hall, hle⟩ := hc
  refine ⟨fun j hj => ?_, le_trans hle (total_mono h k)⟩
  obtain ⟨hk, hsaid⟩ := hall j hj
  refine ⟨le_trans hk (h.notified j), ?_⟩
  rw [State.said, h.arg j k hk]
  exact hsaid

/-- One more step: the pair merges what the peer behind covers. -/
theorem covers_merge {b : Tag} (hp : fwd p i = r) (hr : s.Covers k i r a.consensus)
    (hb : s.Covers k i p b.consensus) : s.Covers k (i + 1) r (a.merge b).consensus := by
  rw [Tag.consensus_merge]
  refine ⟨fun j hj => ?_, sup_le hr.2 hb.2⟩
  rcases hears_succ hp hj with hj | hj
  · exact ⟨(hr.1 j hj).1, le_trans (hr.1 j hj).2 le_sup_left⟩
  · exact ⟨(hb.1 j hj).1, le_trans (hb.1 j hj).2 le_sup_right⟩

/-- The state right after a notify: only the rank itself has been heard of. -/
theorem covers_self (s : State N) (r : Fin N) (hk : k ≤ s.notified r) :
    s.Covers k 0 r (s.said r k) := by
  refine ⟨fun j hj => ?_, said_le_total s r k⟩
  obtain rfl := hears_zero.mp hj
  exact ⟨hk, le_rfl⟩

theorem reached_some (hK : s.kick r = some K) : s.reached r = K.step := by
  simp [State.reached, hK]

theorem reached_none (hK : s.kick r = none) : s.reached r = (s.data r).step := by
  simp [State.reached, hK]

theorem kick_none (hs : Control s) (hin : s.inside r = false) : s.kick r = none := by
  by_contra hne
  obtain ⟨K, hK⟩ := Option.ne_none_iff_exists'.mp hne
  rw [(hs.kick r K hK).inside] at hin
  exact Bool.noConfusion hin

/-- At the last step no kick runs. -/
theorem kick_none_of_step (hs : Control s) (hstep : (s.data r).step = size N) :
    s.kick r = none := by
  by_contra hne
  obtain ⟨K, hK⟩ := Option.ne_none_iff_exists'.mp hne
  have := (hs.kick r K hK).step_lt
  omega

theorem completed_le_consumed (s : State N) (r : Fin N) (i : Nat) :
    s.completed r ≤ s.consumed r i := by
  unfold State.consumed
  split <;> omega

theorem published_le_notified (hs : Control s) (r : Fin N) (i : Nat) :
    s.published r i ≤ s.notified r := by
  cases hin : s.inside r with
  | true =>
    rw [hs.inside r hin]
    unfold State.published
    split <;> omega
  | false => simp [State.published, hin, hs.outside r hin]

theorem sent_le_notified (hs : Control s) (p : Fin N) (i : Nat) : s.sent p i ≤ s.notified p := by
  cases i with
  | zero => exact le_rfl
  | succ i => exact published_le_notified hs p i

theorem notified_le_completed (hs : Control s) (r : Fin N) :
    s.notified r ≤ s.completed r + 1 := by
  cases hin : s.inside r with
  | true => exact le_of_eq (hs.inside r hin)
  | false =>
    rw [hs.outside r hin]
    exact Nat.le_succ _

/-- No rank is more than one barrier ahead of another. -/
theorem notified_le (hs : Inv s) (p r : Fin N) : s.notified p ≤ s.notified r + 1 :=
  le_trans (notified_le_completed hs.toControl p) (Nat.succ_le_succ (hs.safe p r))

/-- Two barriers at most are on their way to one inbox. -/
theorem sent_le (hs : Inv s) (p r : Fin N) (i : Nat) : s.sent p i ≤ s.consumed r i + 2 := by
  have hsent := sent_le_notified hs.toControl p i
  have hnot := notified_le hs p r
  have hcomp := notified_le_completed hs.toControl r
  have hcons := completed_le_consumed s r i
  omega

theorem put_sent (hs : Inv s) (hP : s.puts p k i = some P) :
    0 < k ∧ k ≤ s.sent p i ∧ i < size N :=
  (hs.puts p k i).mp (by simp [hP])

theorem consumed_of_lt (hin : s.inside r = true) (hi : i < s.reached r) :
    s.consumed r i = s.completed r + 1 := by
  simp [State.consumed, hin, hi]

theorem consumed_of_le (hi : s.reached r ≤ i) : s.consumed r i = s.completed r := by
  simp [State.consumed, show ¬ i < s.reached r by omega]

theorem published_of_lt (hin : s.inside r = true) (hi : i < (s.data r).step) :
    s.published r i = s.completed r + 1 := by
  simp [State.published, hin, hi]

theorem published_of_le (hi : (s.data r).step ≤ i) : s.published r i = s.completed r := by
  simp [State.published, show ¬ i < (s.data r).step by omega]

/-- The last step of the barrier at hand that `p` has issued. -/
theorem step_of_sent (hs : Control s) (hin : s.inside p = true) (hi : s.notified p ≤ s.sent p i) :
    i ≤ (s.data p).step := by
  cases i with
  | zero => exact Nat.zero_le _
  | succ i =>
    by_contra hlt
    rw [State.sent, published_of_le (by omega), hs.inside p hin] at hi
    omega

end Gasnet.Barrier.Rmd
