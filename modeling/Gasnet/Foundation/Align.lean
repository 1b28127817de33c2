import Mathlib.Data.List.Nodup
import Mathlib.Data.List.Range
import Mathlib.Tactic.Ring
import Mathlib.Algebra.Order.Group.Nat

/-! Rounding addresses to a granularity, and walking a range in steps of it. -/
namespace Gasnet

variable {g a b n : Nat}

def alignDown (g a : Nat) : Nat := a / g * g

def alignUp (g a : Nat) : Nat := alignDown g (a + g - 1)

theorem alignDown_dvd : g ∣ alignDown g a := Nat.dvd_mul_left g (a / g)

theorem alignUp_dvd : g ∣ alignUp g a := alignDown_dvd

theorem alignDown_le : alignDown g a ≤ a := Nat.div_mul_le_self a g

theorem lt_alignDown_add (hg : 0 < g) : a < alignDown g a + g := by
  have hdiv := Nat.div_add_mod a g
  have hmod := Nat.mod_lt a hg
  rw [Nat.mul_comm] at hdiv
  unfold alignDown
  omega

theorem le_alignUp (hg : 0 < g) : a ≤ alignUp g a := by
  have h := lt_alignDown_add (a := a + g - 1) hg
  unfold alignUp
  omega

theorem alignUp_lt (hg : 0 < g) : alignUp g a < a + g := by
  have h := alignDown_le (g := g) (a := a + g - 1)
  unfold alignUp
  omega

/-- A multiple of `g` at or below `a` is at or below `a` rounded down. -/
theorem le_alignDown (h : g ∣ b) (hb : b ≤ a) : b ≤ alignDown g a := by
  obtain ⟨k, rfl⟩ := h
  by_cases hg : g = 0
  · simp [hg]
  · unfold alignDown
    rw [Nat.mul_comm]
    exact Nat.mul_le_mul_right g ((Nat.le_div_iff_mul_le (Nat.pos_of_ne_zero hg)).2
      (by rwa [Nat.mul_comm]))

theorem alignDown_eq (h : g ∣ a) : alignDown g a = a :=
  le_antisymm alignDown_le (le_alignDown h le_rfl)

theorem alignUp_eq (hg : 0 < g) (h : g ∣ a) : alignUp g a = a := by
  have hle : alignUp g a ≤ a := by
    obtain ⟨i, rfl⟩ := h
    obtain ⟨j, hj⟩ := alignUp_dvd (g := g) (a := g * i)
    have hlt : g * j < g * (i + 1) := by
      rw [← hj, Nat.mul_add, Nat.mul_one]
      exact alignUp_lt hg
    rw [hj]
    exact Nat.mul_le_mul_left g (Nat.lt_succ_iff.1 (Nat.lt_of_mul_lt_mul_left hlt))
  exact le_antisymm hle (le_alignUp hg)

theorem alignUp_le (hg : 0 < g) (h : g ∣ b) (hb : a ≤ b) : alignUp g a ≤ b := by
  obtain ⟨k, hk⟩ := h
  obtain ⟨j, hj⟩ : g ∣ alignUp g a := alignUp_dvd
  have hlt : g * j < g * (k + 1) := by
    rw [← hj, Nat.mul_succ, ← hk]
    exact lt_of_lt_of_le (alignUp_lt hg) (by omega)
  have hjk : j ≤ k := Nat.lt_succ_iff.mp (Nat.lt_of_mul_lt_mul_left hlt)
  rw [hj, hk]
  exact Nat.mul_le_mul_left g hjk

/-- Multiples of `g` are `g` apart. -/
theorem add_le_of_dvd (ha : g ∣ a) (hb : g ∣ b) (h : a < b) : a + g ≤ b := by
  obtain ⟨k, rfl⟩ := ha
  obtain ⟨m, rfl⟩ := hb
  have hkm : k < m := Nat.lt_of_mul_lt_mul_left h
  calc g * k + g = g * (k + 1) := by ring
    _ ≤ g * m := Nat.mul_le_mul_left g hkm

/-- `start`, `start + g`, ... below `stop`. -/
def steps (g start stop : Nat) : List Nat :=
  (List.range ((stop - start + g - 1) / g)).map fun k => start + g * k

theorem mem_steps (hg : 0 < g) : n ∈ steps g a b ↔ ∃ k, n = a + g * k ∧ n < b := by
  have hlt : ∀ k, k < (b - a + g - 1) / g ↔ a + g * k < b := by
    intro k
    rw [Nat.lt_iff_add_one_le, Nat.le_div_iff_mul_le hg, Nat.add_mul, Nat.mul_comm k g]
    omega
  simp only [steps, List.mem_map, List.mem_range, hlt]
  constructor
  · rintro ⟨k, hk, rfl⟩
    exact ⟨k, rfl, hk⟩
  · rintro ⟨k, rfl, hk⟩
    exact ⟨k, hk, rfl⟩

theorem mem_steps_of_dvd (hg : 0 < g) (ha : g ∣ a) : n ∈ steps g a b ↔ g ∣ n ∧ a ≤ n ∧ n < b := by
  rw [mem_steps hg]
  constructor
  · rintro ⟨k, rfl, hk⟩
    exact ⟨Nat.dvd_add ha (Nat.dvd_mul_right g k), Nat.le_add_right _ _, hk⟩
  · rintro ⟨hn, han, hnb⟩
    obtain ⟨k, hk⟩ := (Nat.dvd_sub hn ha)
    exact ⟨k, by omega, hnb⟩

theorem nodup_steps (hg : 0 < g) : (steps g a b).Nodup := by
  refine List.Nodup.map (fun i j hij => ?_) List.nodup_range
  have h : g * i = g * j := Nat.add_left_cancel hij
  exact Nat.eq_of_mul_eq_mul_left hg h

end Gasnet
