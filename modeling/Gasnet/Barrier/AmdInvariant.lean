import Gasnet.Barrier.Amd
import Mathlib.Data.Nat.Bits

/-! What a reachable state of the dissemination barrier satisfies. All of it is derived; none
of it restricts the step relation. -/
namespace Gasnet.Barrier.Amd

open Dissemination

variable {N : Nat} {s t : State N} {r p q j : Fin N} {i k n : Nat} {a : Tag} {m : Msg N}
  {act : Action N} {v w : Flat Arg} {d : Data} {done : Nat → Bool} {ph : Bool}

namespace State

/-- What rank `j` said in barrier `k`. -/
def said (s : State N) (j : Fin N) (k : Nat) : Flat Arg := (s.arg j k).consensus

/-- The fold of what all ranks said in barrier `k`. -/
def total (s : State N) (k : Nat) : Flat Arg := Finset.univ.sup fun j => s.said j k

/-- The last barrier whose step `i` message `r` has consumed. -/
def consumed (s : State N) (r : Fin N) (i : Nat) : Nat :=
  if s.pc r = .inside ∧ i < (s.data r).step then s.completed r + 1 else s.completed r

/-- The last barrier whose step `i` message `p` has sent. -/
def sent (s : State N) (p : Fin N) : Nat → Nat
  | 0 => s.notified p
  | i + 1 => s.consumed p i

/-- All ranks heard by `r` after `i` steps have notified barrier `k`, and `v` holds what
they said. -/
def Covers (s : State N) (k i : Nat) (r : Fin N) (v : Flat Arg) : Prop :=
  ∀ j, Hears i r j → k ≤ s.notified j ∧ s.said j k ≤ v

end State

def Msg.key (m : Msg N) : Fin N × Bool × Nat := (m.dst, m.phase, m.step)

/-- A request not yet marked done. -/
structure MsgInv (s : State N) (m : Msg N) : Prop where
  dst : m.dst = fwd m.src m.step
  step : m.step < size N
  phase : m.phase = m.epoch.bodd
  sent : m.epoch ≤ s.sent m.src m.step
  fresh : s.consumed m.dst m.step < m.epoch
  slot : (s.data m.dst).stepDone m.phase m.step = false
  covers : s.Covers m.epoch m.step m.src m.arg.consensus
  le_total : m.arg.consensus ≤ s.total m.epoch

/-- A slot that is set: by the message of the one barrier that can have set it. -/
structure SlotInv (s : State N) (r : Fin N) (ph : Bool) (i k : Nat) : Prop where
  step : i < size N
  phase : ph = k.bodd
  fresh : s.consumed r i < k
  sent : ∀ p, fwd p i = r → k ≤ s.sent p i
  covers : ∀ p, fwd p i = r → s.Covers k i p ((s.data r).recv ph).consensus

structure Control (s : State N) : Prop where
  phase : ∀ r, (s.data r).phase = (s.notified r).bodd
  inside : ∀ r, s.pc r = .inside → s.notified r = s.completed r + 1
  outside : ∀ r, s.pc r ≠ .inside → s.notified r = s.completed r
  step_le : ∀ r, (s.data r).step ≤ size N
  future : ∀ r k, s.notified r < k → s.arg r k = .anonymous
  localArg : ∀ r, s.pc r = .inside → (s.data r).localArg = s.arg r (s.notified r)

structure Inv (s : State N) : Prop extends Control s where
  notifying : ∀ r, s.pc r = .notifying → (s.data r).step = 0 ∧ 0 < size N
  safe : ∀ r j, s.completed r ≤ s.notified j
  msg : ∀ m ∈ s.requests ++ s.merged, MsgInv s m
  merged : ∀ m ∈ s.merged, m.arg.consensus ≤ ((s.data m.dst).recv m.phase).consensus
  keys : ((s.requests ++ s.merged).map Msg.key).Nodup
  slot : ∀ r ph i, (s.data r).stepDone ph i = true → ∃ k, SlotInv s r ph i k
  recv_le : ∀ r k, s.completed r < k → k ≤ s.completed r + 2 →
    ((s.data r).recv k.bodd).consensus ≤ s.total k
  heard : ∀ r, s.pc r = .inside → ∀ j, Hears (s.data r).step r j → s.notified r ≤ s.notified j
  recv_ge : ∀ r, s.pc r = .inside → (0 < (s.data r).step ∨ size N = 0) →
    s.Covers (s.notified r) (s.data r).step r ((s.data r).recv (s.data r).phase).consensus
  consumed_le : ∀ p i, i < size N → s.consumed (fwd p i) i ≤ s.sent p i
  result : ∀ r k, 0 < k → k ≤ s.completed r → (s.result r k).consensus = s.total k

/-- History only grows: what was notified, said and consumed stays so. -/
structure Extends (s t : State N) : Prop where
  notified : ∀ j, s.notified j ≤ t.notified j
  arg : ∀ j k, k ≤ s.notified j → t.arg j k = s.arg j k
  said : ∀ j k, s.said j k ≤ t.said j k
  consumed : ∀ r i, s.consumed r i ≤ t.consumed r i

theorem total_mono (h : Extends s t) (k : Nat) : s.total k ≤ t.total k :=
  Finset.sup_mono_fun fun j _ => h.said j k

theorem total_eq (h : Extends s t) (hk : ∀ j, k ≤ s.notified j) : t.total k = s.total k := by
  simp only [State.total, State.said, h.arg _ _ (hk _)]

theorem said_le_total (s : State N) (j : Fin N) (k : Nat) : s.said j k ≤ s.total k :=
  Finset.le_sup (f := fun j => s.said j k) (Finset.mem_univ j)

theorem sent_mono (h : Extends s t) (p : Fin N) (i : Nat) : s.sent p i ≤ t.sent p i := by
  cases i with
  | zero => exact h.notified p
  | succ i => exact h.consumed p i

theorem covers_mono (h : Extends s t) (hvw : v ≤ w) (hc : s.Covers k i r v) :
    t.Covers k i r w := by
  intro j hj
  obtain ⟨hk, hle⟩ := hc j hj
  refine ⟨le_trans hk (h.notified j), ?_⟩
  rw [State.said, h.arg j k hk]
  exact le_trans hle hvw

/-- A request stays good while its slot stays free and its message unconsumed. -/
theorem msgInv_mono (h : Extends s t) (hfresh : t.consumed m.dst m.step < m.epoch)
    (hslot : (t.data m.dst).stepDone m.phase m.step = false) (hm : MsgInv s m) :
    MsgInv t m where
  dst := hm.dst
  step := hm.step
  phase := hm.phase
  sent := le_trans hm.sent (sent_mono h _ _)
  fresh := hfresh
  slot := hslot
  covers := covers_mono h le_rfl hm.covers
  le_total := le_trans hm.le_total (total_mono h _)

/-- A set slot stays good while what was received only grows. -/
theorem slotInv_mono (h : Extends s t) (hfresh : t.consumed r i < k)
    (hrecv : ((s.data r).recv ph).consensus ≤ ((t.data r).recv ph).consensus)
    (hk : SlotInv s r ph i k) : SlotInv t r ph i k where
  step := hk.step
  phase := hk.phase
  fresh := hfresh
  sent p hp := le_trans (hk.sent p hp) (sent_mono h _ _)
  covers p hp := covers_mono h hrecv (hk.covers p hp)

theorem le_scan (done : Nat → Bool) (n i : Nat) : i ≤ Data.scan done n i := by
  induction n generalizing i with
  | zero => exact le_rfl
  | succ n ih =>
    rw [Data.scan]
    split
    · exact le_trans (Nat.le_succ i) (ih (i + 1))
    · exact le_rfl

theorem scan_le (done : Nat → Bool) (n i : Nat) : Data.scan done n i ≤ i + n := by
  induction n generalizing i with
  | zero => exact le_rfl
  | succ n ih =>
    rw [Data.scan]
    split
    · have := ih (i + 1)
      omega
    · omega

theorem scan_done {c : Nat} (hi : i ≤ c) (hc : c < Data.scan done n i) : done c = true := by
  induction n generalizing i with
  | zero => simp only [Data.scan] at hc; omega
  | succ n ih =>
    rw [Data.scan] at hc
    split at hc
    · rename_i hd
      by_cases he : c = i
      · rw [he, hd]
      · exact ih (by omega) hc
    · omega

theorem step_le_cursor (n : Nat) (d : Data) : d.step ≤ d.cursor n := le_scan _ _ _

theorem cursor_le (h : d.step ≤ n) : d.cursor n ≤ n := by
  have := scan_le (d.stepDone d.phase) (n - d.step) d.step
  rw [Data.cursor]
  omega

theorem cursor_done (hi : d.step ≤ i) (h : i < d.cursor n) : d.stepDone d.phase i = true :=
  scan_done hi h

/-- The doublings reach every rank. -/
theorem le_two_pow_countPeers (hi : 0 < i) (hN : N ≤ i + n) :
    N ≤ i * 2 ^ countPeers N n i := by
  induction n generalizing i with
  | zero => simpa [countPeers] using hN
  | succ n ih =>
    rw [countPeers]
    split
    · have := ih (i := i * 2) (by omega) (by omega)
      rwa [pow_succ', ← mul_assoc]
    · simpa using (by omega : N ≤ i)

theorem le_two_pow_size (N : Nat) : N ≤ 2 ^ size N := by
  simpa [size] using le_two_pow_countPeers (N := N) (i := 1) (n := N) (by omega) (by omega)

@[simp] theorem kick_phase (n : Nat) (d : Data) : (d.kick n).phase = d.phase := by
  unfold Data.kick
  split <;> rfl

@[simp] theorem kick_value (n : Nat) (d : Data) : (d.kick n).value = d.value := by
  unfold Data.kick
  split <;> rfl

@[simp] theorem kick_flags (n : Nat) (d : Data) : (d.kick n).flags = d.flags := by
  unfold Data.kick
  split <;> rfl

@[simp] theorem kick_step (n : Nat) (d : Data) : (d.kick n).step = d.cursor n := by
  unfold Data.kick
  split
  · rename_i h
    exact h.symm
  · rfl

/-- The record and the history of one rank. -/
structure SameAt (s t : State N) (q : Fin N) : Prop where
  data : t.data q = s.data q
  pc : t.pc q = s.pc q
  notified : t.notified q = s.notified q
  completed : t.completed q = s.completed q
  arg : t.arg q = s.arg q
  result : t.result q = s.result q

theorem step_other (h : Step s act t) (hq : q ≠ act.actor) : SameAt s t q := by
  cases h <;> constructor <;> simp_all [Action.actor]

theorem control_initial (N : Nat) : Control (initial N) where
  phase _ := by simp [initial, initData]
  inside _ h := by simp [initial] at h
  outside _ _ := rfl
  step_le _ := Nat.zero_le _
  future _ _ _ := rfl
  localArg _ h := by simp [initial] at h

theorem phase_step (h : Step s act t) (hs : Control s) (q : Fin N) :
    (t.data q).phase = (t.notified q).bodd := by
  have hp := hs.phase q
  by_cases hq : q = act.actor
  · subst hq
    cases h <;> simp_all [Action.actor]
  · have he := step_other h hq
    rw [he.data, he.notified, hp]

theorem inside_step (h : Step s act t) (hs : Control s) (q : Fin N) (hpc : t.pc q = .inside) :
    t.notified q = t.completed q + 1 := by
  have hi := hs.inside q
  have ho := hs.outside q
  by_cases hq : q = act.actor
  · subst hq
    cases h <;> simp_all [Action.actor]
  · have he := step_other h hq
    rw [he.pc] at hpc
    rw [he.notified, he.completed, hi hpc]

theorem outside_step (h : Step s act t) (hs : Control s) (q : Fin N) (hpc : t.pc q ≠ .inside) :
    t.notified q = t.completed q := by
  have hi := hs.inside q
  have ho := hs.outside q
  by_cases hq : q = act.actor
  · subst hq
    cases h <;> simp_all [Action.actor]
  · have he := step_other h hq
    rw [he.pc] at hpc
    rw [he.notified, he.completed, ho hpc]

theorem step_le_step (h : Step s act t) (hs : Control s) (q : Fin N) :
    (t.data q).step ≤ size N := by
  have hl := hs.step_le q
  by_cases hq : q = act.actor
  · subst hq
    cases h <;> simp_all [Action.actor, cursor_le]
  · rw [(step_other h hq).data]
    exact hl

theorem future_step (h : Step s act t) (hs : Control s) (q : Fin N) (k : Nat)
    (hk : t.notified q < k) : t.arg q k = .anonymous := by
  have hf := hs.future q k
  by_cases hq : q = act.actor
  · subst hq
    cases h <;> simp_all [Action.actor, Function.update_apply]
    all_goals
      rw [if_neg (by omega)]
      exact hf (by omega)
  · have he := step_other h hq
    rw [he.notified] at hk
    rw [he.arg, hf hk]

theorem localArg_step (h : Step s act t) (hs : Control s) (q : Fin N) (hpc : t.pc q = .inside) :
    (t.data q).localArg = t.arg q (t.notified q) := by
  have hl := hs.localArg q
  by_cases hq : q = act.actor
  · subst hq
    cases h <;> simp_all [Action.actor, Data.localArg]
  · have he := step_other h hq
    rw [he.pc] at hpc
    rw [he.data, he.arg, he.notified, hl hpc]

theorem control_step (h : Step s act t) (hs : Control s) : Control t :=
  ⟨phase_step h hs, inside_step h hs, outside_step h hs, step_le_step h hs,
    future_step h hs, localArg_step h hs⟩

end Gasnet.Barrier.Amd
