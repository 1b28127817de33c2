import Mathlib.Algebra.BigOperators.Intervals
import Mathlib.Data.Nat.Size
import Mathlib.Tactic.Ring

/-! Binomial trees on the numbers below a bound: the parent of a number is what is left of it without
its lowest bit, and its subtree is an interval that begins with it. -/
namespace Gasnet.Binomial

variable {size r c k j m : Nat}

/-- The lowest bit of a number, or 0. -/
def lowbit (r : Nat) : Nat := if r = 0 then 0 else if r % 2 = 1 then 1 else 2 * lowbit (r / 2)
termination_by r
decreasing_by omega

theorem lowbit_zero : lowbit 0 = 0 := by
  rw [lowbit, if_pos rfl]

theorem lowbit_spec (hr : r ≠ 0) : ∃ k m, lowbit r = 2 ^ k ∧ r = 2 ^ k * (2 * m + 1) := by
  induction r using Nat.strongRecOn with
  | ind r ih =>
    rw [lowbit, if_neg hr]
    split
    · exact ⟨0, r / 2, rfl, by omega⟩
    · obtain ⟨k, m, hk, hm⟩ := ih (r / 2) (by omega) (by omega)
      refine ⟨k + 1, m, by rw [hk, Nat.pow_succ'], ?_⟩
      rw [Nat.pow_succ', Nat.mul_assoc, ← hm]
      omega

theorem lowbit_mul (k m : Nat) : lowbit (2 ^ k * (2 * m + 1)) = 2 ^ k := by
  induction k with
  | zero => rw [lowbit, if_neg (by omega), if_pos (by omega), Nat.pow_zero]
  | succ k ih =>
    have hne : 2 ^ (k + 1) * (2 * m + 1) ≠ 0 := Nat.mul_ne_zero (by simp) (by omega)
    have heq : 2 ^ (k + 1) * (2 * m + 1) = 2 * (2 ^ k * (2 * m + 1)) := by ring
    rw [lowbit, if_neg hne, heq, if_neg (by omega), Nat.mul_div_cancel_left _ (by omega), ih,
      Nat.pow_succ']

theorem lowbit_le (r : Nat) : lowbit r ≤ r := by
  by_cases hr : r = 0
  · rw [hr, lowbit_zero]
  · obtain ⟨k, m, hk, hm⟩ := lowbit_spec hr
    rw [hk]
    exact hm ▸ Nat.le_mul_of_pos_right _ (by omega)

/-- A bit below the lowest one becomes the lowest one. -/
theorem lowbit_add (h : r = 0 ∨ 2 ^ k < lowbit r) : lowbit (r + 2 ^ k) = 2 ^ k := by
  by_cases hr : r = 0
  · have := lowbit_mul k 0
    simpa [hr] using this
  · obtain ⟨j, m, hj, hm⟩ := lowbit_spec hr
    rw [hj] at h
    have hlt : k < j := (Nat.pow_lt_pow_iff_right (by omega)).mp (h.resolve_left hr)
    have heq : r + 2 ^ k = 2 ^ k * (2 * (2 ^ (j - k - 1) * (2 * m + 1)) + 1) := by
      have hpow : 2 ^ j = 2 ^ k * (2 * 2 ^ (j - k - 1)) := by
        rw [← Nat.pow_succ', ← Nat.pow_add]
        congr 1
        omega
      rw [hm, hpow]
      ring
    rw [heq, lowbit_mul]

/-- The size of the subtree of a number. -/
def subsize (size r : Nat) : Nat :=
  if lowbit r = 0 ∨ size - r < lowbit r then size - r else lowbit r

/-- The children of a number are one for each bit, up to this many. -/
def children (size r : Nat) : Nat := (subsize size r - 1).size

theorem lowbit_eq_zero_iff : lowbit r = 0 ↔ r = 0 := by
  constructor
  · intro h
    by_contra hr
    obtain ⟨k, m, hk, -⟩ := lowbit_spec hr
    simp [hk] at h
  · rintro rfl
    exact lowbit_zero

theorem lt_children_iff : k < children size r ↔ 2 ^ k < subsize size r := by
  rw [children, Nat.lt_size]
  have := Nat.two_pow_pos k
  omega

theorem subsize_zero : subsize size 0 = size := by
  rw [subsize, if_pos (.inl lowbit_zero), Nat.sub_zero]

theorem subsize_le (size r : Nat) : subsize size r ≤ size - r := by
  unfold subsize
  split <;> omega

theorem subsize_pos (hr : r < size) : 0 < subsize size r := by
  unfold subsize
  split <;> omega

theorem lt_lowbit_of_lt_subsize (h : j < subsize size r) : r = 0 ∨ j < lowbit r := by
  unfold subsize at h
  split at h
  · rename_i h'
    rw [lowbit_eq_zero_iff] at h'
    omega
  · exact .inr h

/-- A child is in the tree, and its parent is the parent. -/
theorem lowbit_child (hk : k < children size r) :
    r + 2 ^ k < size ∧ lowbit (r + 2 ^ k) = 2 ^ k := by
  rw [lt_children_iff] at hk
  have hle := subsize_le size r
  have hpos := Nat.two_pow_pos k
  exact ⟨by omega, lowbit_add (lt_lowbit_of_lt_subsize hk)⟩

/-- Everybody but the root is a child of its parent. -/
theorem exists_child (hc : c ≠ 0) (hlt : c < size) :
    ∃ k < children size (c - lowbit c), c = c - lowbit c + 2 ^ k := by
  obtain ⟨k, m, hk, hm⟩ := lowbit_spec hc
  have hle := lowbit_le c
  rw [hk] at hle ⊢
  refine ⟨k, lt_children_iff.mpr ?_, by omega⟩
  have hpar : c - 2 ^ k = 2 ^ k * (2 * m) := by
    rw [hm, Nat.mul_add, Nat.mul_one, Nat.add_sub_cancel]
  unfold subsize
  split
  · omega
  · rename_i h
    rw [hpar] at h ⊢
    have hne : 2 ^ k * (2 * m) ≠ 0 := fun h0 => h (.inl (lowbit_eq_zero_iff.mpr h0))
    obtain ⟨j, m', hj, hm'⟩ := lowbit_spec hne
    rw [hj]
    refine Nat.pow_lt_pow_right (by omega) ?_
    by_contra hjk
    -- an odd multiple of the smaller power cannot be an even multiple of the larger one
    have hpow : 2 ^ k = 2 ^ j * 2 ^ (k - j) := by
      rw [← Nat.pow_add]
      congr 1
      omega
    rw [hpow, Nat.mul_assoc] at hm'
    have hodd := Nat.eq_of_mul_eq_mul_left (Nat.two_pow_pos j) hm'
    have heven : 2 ^ (k - j) * (2 * m) = 2 * (2 ^ (k - j) * m) := by ring
    omega

/-- The subtree of a child. -/
theorem child_end (hk : k < children size r) : r + 2 ^ k + subsize size (r + 2 ^ k) =
    r + min (2 ^ (k + 1)) (subsize size r) := by
  obtain ⟨hlt, hlow⟩ := lowbit_child hk
  rw [lt_children_iff] at hk
  have hpow : 2 ^ (k + 1) = 2 * 2 ^ k := Nat.pow_succ'
  have hdouble : r = 0 ∨ 2 ^ (k + 1) ≤ lowbit r := by
    refine (lt_lowbit_of_lt_subsize hk).imp id fun h => ?_
    by_cases hr : r = 0
    · rw [hr, lowbit_zero] at h
      omega
    · obtain ⟨j, m, hj, -⟩ := lowbit_spec hr
      rw [hj] at h ⊢
      exact Nat.pow_le_pow_right (by omega) ((Nat.pow_lt_pow_iff_right (by omega)).mp h)
  have hpos := Nat.two_pow_pos k
  rw [← lowbit_eq_zero_iff] at hdouble
  unfold subsize at hk ⊢
  rw [hlow]
  split at hk <;> split <;> omega

/-- A sum over a subtree is that over the subtrees of the children and one more. -/
theorem sum_subtree {α : Type*} [AddCommMonoid α] (f : Nat → α) (hr : r < size) :
    ∑ q ∈ Finset.Ico r (r + subsize size r), f q =
      f r + ∑ k ∈ Finset.range (children size r),
        ∑ q ∈ Finset.Ico (r + 2 ^ k) (r + 2 ^ k + subsize size (r + 2 ^ k)), f q := by
  have hpos := subsize_pos hr
  have hpart : ∀ n ≤ children size r, f r + ∑ k ∈ Finset.range n,
      ∑ q ∈ Finset.Ico (r + 2 ^ k) (r + 2 ^ k + subsize size (r + 2 ^ k)), f q =
      ∑ q ∈ Finset.Ico r (r + min (2 ^ n) (subsize size r)), f q := by
    intro n
    induction n with
    | zero =>
      intro _
      have hmin : min (2 ^ 0) (subsize size r) = 1 := by omega
      rw [hmin]
      simp
    | succ n ih =>
      intro hn
      have hlt := lt_children_iff.mp hn
      have hmin : min (2 ^ n) (subsize size r) = 2 ^ n := by omega
      have hle := Nat.pow_le_pow_right (n := 2) (by omega) (Nat.le_succ n)
      rw [Finset.sum_range_succ, ← add_assoc, ih (by omega), hmin, child_end hn,
        Finset.sum_Ico_consecutive]
      · omega
      · omega
  have hall : min (2 ^ children size r) (subsize size r) = subsize size r := by
    have := mt lt_children_iff.mpr (Nat.lt_irrefl (children size r))
    omega
  rw [hpart _ (Nat.le_refl _), hall]

end Gasnet.Binomial
