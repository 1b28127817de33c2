import Mathlib.Data.Finset.Lattice.Fold
import Mathlib.Data.Fintype.Basic

/-! The flat join semilattice: unknown below every value, conflict above all of them. -/
namespace Gasnet

variable {α β ι : Type*}

inductive Flat (α : Type*)
  | unknown
  | known (a : α)
  | conflict
  deriving DecidableEq, Repr

namespace Flat

variable [DecidableEq α]

def join : Flat α → Flat α → Flat α
  | unknown, y => y
  | x, unknown => x
  | known a, known b => if a = b then known a else conflict
  | _, _ => conflict

theorem join_comm (x y : Flat α) : x.join y = y.join x := by
  cases x <;> cases y <;> simp only [join]
  rename_i a b
  by_cases h : a = b
  · simp [h]
  · simp [h, Ne.symm h]

theorem join_assoc (x y z : Flat α) : (x.join y).join z = x.join (y.join z) := by
  cases x <;> cases y <;> cases z <;> simp only [join] <;> grind [join]

theorem join_self (x : Flat α) : x.join x = x := by
  cases x <;> simp [join]

instance : SemilatticeSup (Flat α) :=
  @SemilatticeSup.mk' (Flat α) ⟨join⟩ join_comm join_assoc join_self

instance : OrderBot (Flat α) where
  bot := unknown
  bot_le x := by
    change join unknown x = x
    cases x <;> rfl

theorem sup_eq_join (x y : Flat α) : x ⊔ y = x.join y := rfl

@[simp] theorem unknown_sup (x : Flat α) : unknown ⊔ x = x := by
  cases x <;> rfl

@[simp] theorem sup_unknown (x : Flat α) : x ⊔ unknown = x := by
  cases x <;> rfl

@[simp] theorem conflict_sup (x : Flat α) : conflict ⊔ x = conflict := by
  cases x <;> rfl

@[simp] theorem sup_conflict (x : Flat α) : x ⊔ conflict = conflict := by
  cases x <;> rfl

theorem known_sup_known (a b : α) :
    known a ⊔ known b = if a = b then known a else conflict := rfl

theorem known_sup_of_ne {a b : α} (h : a ≠ b) : known a ⊔ known b = conflict := by
  simp [known_sup_known, h]

end Flat
end Gasnet
