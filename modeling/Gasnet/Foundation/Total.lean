import Gasnet.Foundation.Run
import Mathlib.Algebra.BigOperators.Ring.Finset
import Mathlib.Algebra.Order.BigOperators.Group.Finset
import Mathlib.Logic.Function.Basic
import Mathlib.Algebra.BigOperators.Group.List.Basic

/-! What the members of a finite set hold in all, as one of them changes at a time. -/
namespace Gasnet

variable {T P : Type*} [Fintype T] [DecidableEq T] {w : P → Int} {f : T → P}

/-- The sum of what all hold, each counted in its own way. -/
def totalBy (w : T → P → Int) (f : T → P) : Int := ∑ t, w t (f t)

theorem totalBy_update (w : T → P → Int) (f : T → P) (t : T) (p : P) :
    totalBy w (Function.update f t p) = totalBy w f - w t (f t) + w t p := by
  have hnew := Finset.add_sum_erase Finset.univ (fun u => w u (Function.update f t p u))
    (Finset.mem_univ t)
  have hold := Finset.add_sum_erase Finset.univ (fun u => w u (f u)) (Finset.mem_univ t)
  have hrest : ∑ u ∈ Finset.univ.erase t, w u (Function.update f t p u) =
      ∑ u ∈ Finset.univ.erase t, w u (f u) :=
    Finset.sum_congr rfl fun u hu => by rw [Function.update_of_ne (Finset.ne_of_mem_erase hu)]
  simp only [Function.update_self] at hnew
  unfold totalBy
  omega

omit [DecidableEq T] in
theorem totalBy_mono {w v : T → P → Int} (h : ∀ t, w t (f t) ≤ v t (f t)) :
    totalBy w f ≤ totalBy v f :=
  Finset.sum_le_sum fun t _ => h t

omit [DecidableEq T] in
theorem totalBy_add (w v : T → P → Int) (f : T → P) :
    totalBy (fun t p => w t p + v t p) f = totalBy w f + totalBy v f :=
  Finset.sum_add_distrib

omit [DecidableEq T] in
theorem totalBy_eq_zero {w : T → P → Int} (h : ∀ t, w t (f t) = 0) : totalBy w f = 0 :=
  Finset.sum_eq_zero fun t _ => h t

/-- The sum of what all hold. -/
def total (w : P → Int) (f : T → P) : Int := ∑ t, w (f t)

theorem total_update (w : P → Int) (f : T → P) (t : T) (p : P) :
    total w (Function.update f t p) = total w f - w (f t) + w p :=
  totalBy_update (fun _ => w) f t p

omit [DecidableEq T] in
theorem total_nonneg (h : ∀ t, 0 ≤ w (f t)) : 0 ≤ total w f :=
  Finset.sum_nonneg fun t _ => h t

omit [DecidableEq T] in
theorem total_eq_zero (h : ∀ t, w (f t) = 0) : total w f = 0 :=
  Finset.sum_eq_zero fun t _ => h t

omit [DecidableEq T] in
/-- What one holds is part of what all hold. -/
theorem le_total (h : ∀ t, 0 ≤ w (f t)) (t : T) : w (f t) ≤ total w f :=
  Finset.single_le_sum (fun u _ => h u) (Finset.mem_univ t)

end Gasnet

/-! What the members of a list weigh in all. -/
namespace Gasnet

variable {α : Type*} {f g : α → Nat} {a : α} {l r : List α}

def weight (f : α → Nat) (l : List α) : Nat := (l.map f).sum

@[simp] theorem weight_nil (f : α → Nat) : weight f [] = 0 := rfl

@[simp] theorem weight_cons (f : α → Nat) (a : α) (l : List α) :
    weight f (a :: l) = f a + weight f l := by
  simp [weight]

@[simp] theorem weight_append (f : α → Nat) (l r : List α) :
    weight f (l ++ r) = weight f l + weight f r := by
  simp [weight]

theorem weight_le (h : ∀ a, f a ≤ g a) (l : List α) : weight f l ≤ weight g l := by
  induction l with
  | nil => exact Nat.le_refl _
  | cons a l ih =>
    have := h a
    simp only [weight_cons]
    omega

theorem weight_add (f g : α → Nat) (l : List α) :
    weight (fun a => f a + g a) l = weight f l + weight g l := by
  induction l with
  | nil => rfl
  | cons a l ih =>
    simp only [weight_cons, ih]
    omega

theorem weight_one (l : List α) : weight (fun _ => 1) l = l.length := by
  induction l with
  | nil => rfl
  | cons a l ih =>
    simp only [weight_cons, ih, List.length_cons]
    omega

end Gasnet

/-! What the members of a finite set have before them bounds the runs in which they use it up. -/
namespace Gasnet

variable {S L ι : Type*} {step : S → L → S → Prop} {s t : S} {xs : List L} {I : Finset ι}

/-- Steps of a kind that lower the potential of a member of `I`, where no step raises one. -/
theorem Run.countP_le {V : S → ι → Nat} {p : L → Bool} {b : Nat}
    (hstep : ∀ {s a t}, step s a t →
      (∀ i, V t i ≤ V s i) ∧ (p a = true → ∃ i ∈ I, V t i < V s i))
    (hb : ∀ s i, V s i ≤ b) (h : Run step s xs t) : xs.countP p ≤ b * I.card := by
  have hsum : xs.countP p ≤ ∑ i ∈ I, V s i := by
    induction h with
    | refl => exact Nat.zero_le _
    | stepL h _ ih =>
      obtain ⟨hle, hlt⟩ := hstep h
      rw [List.countP_cons]
      split
      · rename_i ha
        exact ih.trans_lt (Finset.sum_lt_sum (fun i _ => hle i) (hlt ha))
      · exact ih.trans (Finset.sum_le_sum fun i _ => hle i)
  rw [Nat.mul_comm]
  exact hsum.trans (Finset.sum_le_card_nsmul I _ b fun i _ => hb s i)

end Gasnet
