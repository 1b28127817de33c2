import Gasnet.Foundation.Dissemination
import Mathlib.Logic.Function.Basic
import Mathlib.Order.Basic

/-! Operations in rounds of messages, one operation after another: in each step of an operation a
party sends to its peer of the step, and waits for the message of the party whose peer it is. -/
namespace Gasnet.Rounds

variable {N : Nat}

/-- The steps of one operation, and to whom a party sends in each of them. -/
structure Schedule (N : Nat) where
  steps : Nat
  peer : Nat → Fin N → Fin N

/-- The messages of the first `d` steps lead from the beginning of one party to another one. -/
def Schedule.Heard (sch : Schedule N) : Nat → Fin N → Fin N → Prop
  | 0, r, q => q = r
  | d + 1, r, q => sch.Heard d r q ∨ ∃ p, sch.peer d p = r ∧ sch.Heard d p q

/-- Everybody has one peer in a step, and hears of everybody in the end. -/
structure Schedule.Full (sch : Schedule N) : Prop where
  injective : ∀ d < sch.steps, Function.Injective (sch.peer d)
  heard : ∀ r q, sch.Heard sch.steps r q

section Dissemination
open Dissemination

/-- Sending back instead. -/
theorem full_bwd {steps : Nat} {peer : Nat → Fin N → Fin N} (hN : N ≤ 2 ^ steps)
    (hpeer : ∀ d < steps, ∀ r, peer d (fwd r d) = r) : Schedule.Full ⟨steps, peer⟩ where
  injective d hd a b h := by
    obtain ⟨a, rfl⟩ := fwd_surjective d a
    obtain ⟨b, rfl⟩ := fwd_surjective d b
    exact congrArg (fwd · d) ((hpeer d hd a).symm.trans (h.trans (hpeer d hd b)))
  heard r q := by
    suffices h : ∀ d ≤ steps, ∀ r, Hears d q r → Schedule.Heard ⟨steps, peer⟩ d r q from
      h _ (Nat.le_refl _) r (hears_all hN q r)
    intro d
    induction d with
    | zero => exact fun _ r h => (hears_zero.mp h).symm
    | succ d ih =>
      intro hd r h
      exact (hears_succ_fwd h).imp (ih (by omega) r) fun h =>
        ⟨fwd r d, hpeer d hd r, ih (by omega) _ h⟩

end Dissemination

/-- How far a party is: the operations that it has left, and its position in the next one. It is
outside at 0; step `d` begins at `2 * d + 1` and its message has been sent at `2 * d + 2`. -/
structure Place where
  left : Nat
  pos : Nat

/-- The place is at a position of an operation or after it. -/
def Place.Reached (x : Place) (i n : Nat) : Prop := i < x.left ∨ i = x.left ∧ n ≤ x.pos

def Place.Entered (x : Place) (i : Nat) : Prop := x.Reached i 1

def Place.Sent (x : Place) (i d : Nat) : Prop := x.Reached i (2 * d + 2)

/-- The wait of a step is over. -/
def Place.Passed (x : Place) (i d : Nat) : Prop := x.Reached i (2 * d + 3)

/-- The places of the parties, and the messages that arrived at each, by operation and step. -/
structure State (N : Nat) where
  place : Fin N → Place
  arrived : Fin N → Nat → Nat → Prop

def initial (N : Nat) : State N where
  place _ := ⟨0, 0⟩
  arrived _ _ _ := False

structure Inv (sched : Nat → Schedule N) (s : State N) : Prop where
  sent : ∀ r i d, s.arrived r i d →
    d < (sched i).steps ∧ ∃ p, (sched i).peer d p = r ∧ (s.place p).Sent i d
  arrived : ∀ r i d, d < (sched i).steps → (s.place r).Passed i d → s.arrived r i d
  heard : ∀ r i d, d ≤ (sched i).steps → (s.place r).Reached i (2 * d + 1) →
    ∀ q, (sched i).Heard d r q → (s.place q).Entered i

variable {sched : Nat → Schedule N} {s : State N} {p q r : Fin N} {i d n : Nat}

theorem inv_initial : Inv sched (initial N) where
  sent _ _ _ h := h.elim
  arrived r i d _ h := by
    simp only [Place.Passed, Place.Reached, initial] at h
    omega
  heard r i d _ h := by
    simp only [Place.Reached, initial] at h
    omega

/-- A party moves on. -/
theorem Inv.update (h : Inv sched s) {x : Place}
    (hmono : ∀ i n, (s.place p).Reached i n → x.Reached i n)
    (harrived : ∀ i d, d < (sched i).steps → x.Passed i d → s.arrived p i d)
    (hheard : ∀ i d, d ≤ (sched i).steps → x.Reached i (2 * d + 1) → ∀ q, (sched i).Heard d p q →
      q = p ∨ (s.place q).Entered i) :
    Inv sched { s with place := Function.update s.place p x } := by
  have hkeep : ∀ q i n, (s.place q).Reached i n → (Function.update s.place p x q).Reached i n := by
    intro q i n hq
    rw [Function.update_apply]
    split
    · rename_i he
      exact hmono i n (he ▸ hq)
    · exact hq
  refine ⟨fun r i d ha => ?_, fun r i d hd hr => ?_, fun r i d hd hr q hq => ?_⟩
  · obtain ⟨hd, q, hq, hs⟩ := h.sent r i d ha
    exact ⟨hd, q, hq, hkeep q i _ hs⟩
  · simp only [Function.update_apply] at hr
    split at hr
    · rename_i he
      exact he ▸ harrived i d hd hr
    · exact h.arrived r i d hd hr
  · simp only [Function.update_apply] at hr
    split at hr
    · rename_i he
      subst he
      obtain rfl | he := hheard i d hd hr q hq
      · simp only [Place.Entered, Function.update_self]
        exact hr.imp id fun hr => ⟨hr.1, by omega⟩
      · exact hkeep q i 1 he
    · exact hkeep q i 1 (h.heard r i d hd hr q hq)

/-- A party takes a step inside an operation; a wait needs its message. -/
theorem Inv.advance (h : Inv sched s) (hfull : ∀ i, (sched i).Full)
    (hwait : ∀ d, (s.place p).pos = 2 * d + 2 → s.arrived p (s.place p).left d) :
    Inv sched { s with
      place := Function.update s.place p ⟨(s.place p).left, (s.place p).pos + 1⟩ } := by
  refine h.update (fun i n hr => ?_) (fun i d hd hp => ?_) fun i d hd hr q hq => ?_
  · simp only [Place.Reached] at hr ⊢
    omega
  · by_cases hold : (s.place p).Passed i d
    · exact h.arrived p i d hd hold
    · simp only [Place.Passed, Place.Reached] at hp hold
      obtain rfl : i = (s.place p).left := by omega
      exact hwait d (by omega)
  · by_cases hold : (s.place p).Reached i (2 * d + 1)
    · exact .inr (h.heard p i d hd hold q hq)
    · simp only [Place.Reached] at hr hold
      obtain rfl : i = (s.place p).left := by omega
      cases d with
      | zero => exact .inl hq
      | succ d =>
        -- what the last step adds comes from the party whose message has arrived
        obtain hq | ⟨p', hp', hq⟩ := hq
        · have hreached : (s.place p).Reached (s.place p).left (2 * d + 1) :=
            .inr ⟨rfl, by omega⟩
          exact .inr (h.heard p _ d (Nat.le_of_succ_le hd) hreached q hq)
        · obtain ⟨hlt, p'', hp'', hs⟩ := h.sent p _ d (hwait d (by omega))
          obtain rfl : p' = p'' := (hfull _).injective d hlt (hp'.trans hp''.symm)
          refine .inr (h.heard p' _ d (Nat.le_of_lt hlt) ?_ q hq)
          simp only [Place.Sent, Place.Reached] at hs ⊢
          omega

/-- A party leaves an operation after its last step. -/
theorem Inv.leave (h : Inv sched s)
    (hpos : (s.place p).pos = 2 * (sched (s.place p).left).steps + 1) :
    Inv sched { s with place := Function.update s.place p ⟨(s.place p).left + 1, 0⟩ } := by
  refine h.update (fun i n hr => ?_) (fun i d hd hp => h.arrived p i d hd ?_)
    fun i d hd hr q hq => .inr (h.heard p i d hd ?_ q hq)
  · simp only [Place.Reached] at hr ⊢
    omega
  · simp only [Place.Passed, Place.Reached] at hp ⊢
    by_cases he : i = (s.place p).left
    · subst he
      omega
    · omega
  · simp only [Place.Reached] at hr ⊢
    by_cases he : i = (s.place p).left
    · subst he
      omega
    · omega

/-- A message arrives. -/
theorem Inv.arrive (h : Inv sched s) (hd : d < (sched i).steps) (hp : (sched i).peer d p = r)
    (hs : (s.place p).Sent i d) :
    Inv sched { s with
      arrived := fun r' i' d' => s.arrived r' i' d' ∨ r' = r ∧ i' = i ∧ d' = d } := by
  refine ⟨fun r' i' d' ha => ?_, fun r' i' d' hd' hr => .inl (h.arrived r' i' d' hd' hr), h.heard⟩
  obtain ha | ⟨rfl, rfl, rfl⟩ := ha
  · exact h.sent r' i' d' ha
  · exact ⟨hd, p, hp, hs⟩

/-- Nobody leaves an operation before all have entered it. -/
theorem Inv.entered_of_left (h : Inv sched s) (hfull : ∀ i, (sched i).Full)
    (hl : i < (s.place p).left) (q : Fin N) : (s.place q).Entered i :=
  h.heard p i _ (Nat.le_refl _) (.inl hl) q ((hfull i).heard p q)

/-- A message of an operation finds everybody past the one before. -/
theorem Inv.entered_of_sent (h : Inv sched s) (hfull : ∀ i, (sched i).Full)
    (hs : (s.place p).Sent (i + 1) d) (q : Fin N) : (s.place q).Entered i := by
  apply h.entered_of_left hfull (p := p)
  simp only [Place.Sent, Place.Reached] at hs
  omega

/-- The places that follow a place. -/
def Place.Next (steps : Nat) (x y : Place) : Prop :=
  y = x ∨ y = ⟨x.left, x.pos + 1⟩ ∨ x.pos = 2 * steps + 1 ∧ y = ⟨x.left + 1, 0⟩

theorem Place.Next.mono {steps : Nat} {x y : Place} (h : x.Next steps y) (hr : x.Reached i n) :
    y.Reached i n := by
  simp only [Place.Reached] at hr ⊢
  obtain rfl | rfl | ⟨-, rfl⟩ := h
  · exact hr
  · simp only
    omega
  · simp only
    omega

/-- Only the end of a wait is the end of a wait. -/
theorem Place.Next.passed_iff {steps : Nat} {x y : Place} (h : x.Next steps y) (hd : d < steps)
    (hpos : ∀ d, x.pos ≠ 2 * d + 2) : y.Passed i d ↔ x.Passed i d := by
  have := hpos d
  simp only [Place.Passed, Place.Reached]
  obtain rfl | rfl | ⟨hp, rfl⟩ := h
  · rfl
  · simp only
    omega
  · simp only
    omega

theorem Inv.next (h : Inv sched s) (hfull : ∀ i, (sched i).Full) {x : Place}
    (hnext : (s.place p).Next (sched (s.place p).left).steps x)
    (hwait : ∀ d, (s.place p).pos = 2 * d + 2 → x = s.place p ∨ s.arrived p (s.place p).left d) :
    Inv sched { s with place := Function.update s.place p x } := by
  obtain rfl | rfl | ⟨hpos, rfl⟩ := hnext
  · rwa [Function.update_eq_self]
  · refine h.advance hfull fun d hd => (hwait d hd).resolve_left fun he => ?_
    have := congrArg Place.pos he
    simp at this
  · exact h.leave hpos

end Gasnet.Rounds
