import Mathlib.Tactic.TypeStar
import Mathlib.Order.Filter.AtTopBot.Basic
import Mathlib.Order.Filter.Finite

/-! Finite runs of a labelled step relation, and the two induction rules for them. -/
namespace Gasnet

variable {S L : Type*} {step : S → L → S → Prop} {s t u : S} {a : L} {xs ys : List L}

/-- `Run step s xs t`: the labels `xs` lead from `s` to `t`. -/
inductive Run (step : S → L → S → Prop) : S → List L → S → Prop
  | refl {s : S} : Run step s [] s
  | stepL {s u t : S} {a : L} {xs : List L} :
      step s a u → Run step u xs t → Run step s (a :: xs) t

/-- Reachable by some finite run from `s`. -/
def Reachable (step : S → L → S → Prop) (s t : S) : Prop := ∃ xs, Run step s xs t

theorem Run.single (h : step s a t) : Run step s [a] t := .stepL h .refl

theorem Run.append (h : Run step s xs t) (k : Run step t ys u) : Run step s (xs ++ ys) u := by
  induction h with
  | refl => exact k
  | stepL h _ ih => exact .stepL h (ih k)

theorem Run.snoc (h : Run step s xs t) (k : step t a u) : Run step s (xs ++ [a]) u :=
  h.append (.single k)

theorem Run.mono {step' : S → L → S → Prop} (hsub : ∀ {s a t}, step s a t → step' s a t)
    (h : Run step s xs t) : Run step' s xs t := by
  induction h with
  | refl => exact .refl
  | stepL h _ ih => exact .stepL (hsub h) ih

/-- What every step keeps, every run keeps. -/
theorem Run.invariant {P : S → Prop} (hstep : ∀ {s a t}, step s a t → P s → P t)
    (h : Run step s xs t) (hs : P s) : P t := by
  induction h with
  | refl => exact hs
  | stepL h _ ih => exact ih (hstep h hs)

/-- The same when the steps are known to keep `P` only on labels satisfying `Q`. -/
theorem Run.invariant_of {P : S → Prop} {Q : L → Prop}
    (hstep : ∀ {s a t}, Q a → step s a t → P s → P t)
    (h : Run step s xs t) (hq : ∀ a ∈ xs, Q a) (hs : P s) : P t := by
  induction h with
  | refl => exact hs
  | stepL h _ ih =>
    exact ih (fun b hb => hq b (List.mem_cons_of_mem _ hb)) (hstep (hq _ List.mem_cons_self) h hs)

/-- A run each step of which is one of another relation, or changes nothing that it sees. -/
theorem Run.simulate {S' L' : Type*} {step' : S' → L' → S' → Prop} {f : S → S'} {g : L → Option L'}
    {P : S → Prop} (hkeep : ∀ {s a t}, step s a t → P s → P t)
    (hsim : ∀ {s a t}, step s a t → P s →
      (g a = none → f t = f s) ∧ ∀ e, g a = some e → step' (f s) e (f t))
    (h : Run step s xs t) (hs : P s) : Run step' (f s) (xs.filterMap g) (f t) := by
  induction h with
  | refl => exact .refl
  | @stepL s u t a xs h _ ih =>
    obtain ⟨hnone, hsome⟩ := hsim h hs
    have hrest := ih (hkeep h hs)
    cases he : g a with
    | none =>
      rw [List.filterMap_cons_none he, ← hnone he]
      exact hrest
    | some e =>
      rw [List.filterMap_cons_some he]
      exact .stepL (hsome e he) hrest

theorem Reachable.refl : Reachable step s s := ⟨[], .refl⟩

theorem Reachable.snoc (h : Reachable step s t) (k : step t a u) : Reachable step s u := by
  obtain ⟨xs, hx⟩ := h
  exact ⟨xs ++ [a], hx.snoc k⟩

theorem Reachable.trans (h : Reachable step s t) (k : Reachable step t u) : Reachable step s u := by
  obtain ⟨xs, hx⟩ := h
  obtain ⟨ys, hy⟩ := k
  exact ⟨xs ++ ys, hx.append hy⟩

theorem Reachable.invariant {P : S → Prop} (hstep : ∀ {s a t}, step s a t → P s → P t)
    (h : Reachable step s t) (hs : P s) : P t := by
  obtain ⟨xs, hx⟩ := h
  exact hx.invariant hstep hs

end Gasnet

/-! Executions of a labelled step relation without an end: a state at each instant, and the step
that is taken there or none. -/
namespace Gasnet

variable {S L : Type*} {step : S → L → S → Prop} {E : Nat → S} {A : Nat → Option L} {n : Nat}

structure Execution (step : S → L → S → Prop) (E : Nat → S) (A : Nat → Option L) : Prop where
  idle : ∀ n, A n = none → E (n + 1) = E n
  step : ∀ n a, A n = some a → step (E n) a (E (n + 1))

namespace Execution

theorem reachable (hE : Execution step E A) (n : Nat) : Reachable step (E 0) (E n) := by
  induction n with
  | zero => exact .refl
  | succ n ih =>
    cases h : A n with
    | none =>
      rw [hE.idle n h]
      exact ih
    | some a => exact ih.snoc (hE.step n a h)

/-- What each instant keeps is kept. -/
theorem keeps {P : S → Prop} (hE : Execution step E A)
    (hstep : ∀ m ≥ n, ∀ a, A m = some a → P (E m) → step (E m) a (E (m + 1)) → P (E (m + 1)))
    (hP : P (E n)) : ∀ m ≥ n, P (E m) := by
  intro m hm
  induction m, hm using Nat.le_induction with
  | base => exact hP
  | succ m hm ih =>
    cases h : A m with
    | none =>
      rw [hE.idle m h]
      exact ih
    | some a => exact hstep m hm a h ih (hE.step m a h)

/-- What holds until a step of some kind holds when the first one is taken. -/
theorem first {P : S → Prop} {Q : L → Prop} (hE : Execution step E A)
    (hstep : ∀ m ≥ n, ∀ a, P (E m) → step (E m) a (E (m + 1)) → ¬Q a → P (E (m + 1)))
    (hP : P (E n)) (hev : ∃ m ≥ n, ∃ a, A m = some a ∧ Q a) :
    ∃ m ≥ n, ∃ a, A m = some a ∧ Q a ∧ P (E m) ∧ step (E m) a (E (m + 1)) := by
  obtain ⟨m, hm, a, ha, hQ⟩ := hev
  by_contra hnone
  have hkept : P (E m) := by
    refine hE.keeps (P := P) (n := n) (fun i hi b hb hPi hs => ?_) hP m hm
    by_cases hQb : Q b
    · exact absurd ⟨i, hi, b, hb, hQb, hPi, hs⟩ hnone
    · exact hstep i hi b hPi hs hQb
  exact hnone ⟨m, hm, a, ha, hQ, hkept, hE.step m a ha⟩

end Execution

/-- A finite run is the beginning of an execution that stays where it ends. -/
theorem Run.execution {xs : List L} {s t : S} (h : Run step s xs t) :
    ∃ E A, Execution step E A ∧ E 0 = s ∧ ∀ n ≥ xs.length, E n = t := by
  induction h with
  | @refl s => exact ⟨fun _ => s, fun _ => none, ⟨fun _ _ => rfl, nofun⟩, rfl, fun _ _ => rfl⟩
  | @stepL s u t a xs hstep _ ih =>
    obtain ⟨E, A, hE, h0, hend⟩ := ih
    refine ⟨fun n => n.casesOn s E, fun n => n.casesOn (some a) A, ⟨fun n hn => ?_, fun n b hb => ?_⟩,
      rfl, fun n hn => ?_⟩
    · cases n with
      | zero => cases hn
      | succ n => exact hE.idle n hn
    · cases n with
      | zero =>
        cases hb
        show step s a (E 0)
        rwa [h0]
      | succ n => exact hE.step n b hb
    · cases n with
      | zero => cases hn
      | succ n => exact hend n (Nat.le_of_succ_le_succ hn)

/-- What each of finitely many does for good from some instant on, all do. -/
theorem exists_forall_ge {N : Nat} {P : Fin N → Nat → Prop}
    (h : ∀ r, ∃ n, ∀ m ≥ n, P r m) : ∃ n, ∀ m ≥ n, ∀ r, P r m := by
  have hall : ∀ᶠ m in Filter.atTop, ∀ r, P r m :=
    Filter.eventually_all.mpr fun r => Filter.eventually_atTop.mpr (h r)
  exact Filter.eventually_atTop.mp hall

end Gasnet
