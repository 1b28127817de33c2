import Mathlib.Logic.Function.Basic
import Mathlib.Order.Basic

/-! A region tiled by blocks, where the length of a block is found at its first place. -/
namespace Gasnet

variable {length : Nat → Nat} {count p q n : Nat}

/-- The places where blocks start, and the end of the region. -/
inductive Boundary (length : Nat → Nat) (count : Nat) : Nat → Prop
  | zero : Boundary length count 0
  | next {p : Nat} (hp : Boundary length count p) (hlt : p < count) :
      Boundary length count (p + length p)

/-- The blocks tile the places below `count`. -/
structure Tiles (length : Nat → Nat) (count : Nat) : Prop where
  le : ∀ p, Boundary length count p → p ≤ count
  pos : ∀ p, Boundary length count p → p < count → 0 < length p

namespace Tiles

/-- A block ends before the next boundary. -/
theorem add_le (h : Tiles length count) (hp : Boundary length count p)
    (hq : Boundary length count q) (hpq : p < q) : p + length p ≤ q := by
  induction q using Nat.strongRecOn generalizing p with
  | ind q ih =>
    cases hq with
    | zero => omega
    | @next r hr hlt =>
      have hpos := h.pos r hr hlt
      rcases Nat.lt_trichotomy p r with hpr | rfl | hpr
      · have := ih r (by omega) hp hr hpr
        omega
      · exact Nat.le_refl _
      · -- a boundary inside the block of `r` would have that block end before it
        have := ih p hpq hr hp hpr
        omega

theorem add_length_le (h : Tiles length count) (hp : Boundary length count p) (hlt : p < count) :
    p + length p ≤ count := h.le _ (hp.next hlt)

/-- Two blocks are the same or have no place in common. -/
theorem disjoint (h : Tiles length count) (hp : Boundary length count p)
    (hq : Boundary length count q) (hne : p ≠ q) : p + length p ≤ q ∨ q + length q ≤ p :=
  (Nat.lt_or_gt_of_ne hne).imp (h.add_le hp hq) (h.add_le hq hp)

/-- Every place is in a block. -/
theorem exists_block (h : Tiles length count) (hq : q < count) :
    ∃ p, Boundary length count p ∧ p ≤ q ∧ q < p + length p := by
  induction q with
  | zero => exact ⟨0, .zero, Nat.le_refl _, by have := h.pos 0 .zero hq; omega⟩
  | succ q ih =>
    obtain ⟨p, hp, hle, hlt⟩ := ih (by omega)
    by_cases hend : q + 1 < p + length p
    · exact ⟨p, hp, by omega, hend⟩
    · have hnext := hp.next (by omega : p < count)
      have := h.pos _ hnext (by omega)
      exact ⟨_, hnext, by omega, by omega⟩

/-- The blocks reach the end. -/
theorem boundary_count (h : Tiles length count) : Boundary length count count := by
  have hreach : ∀ d p, Boundary length count p → count - p ≤ d → Boundary length count count := by
    intro d
    induction d with
    | zero =>
      intro p hp hd
      obtain rfl : p = count := by have := h.le p hp; omega
      exact hp
    | succ d ih =>
      intro p hp hd
      by_cases hlt : p < count
      · have := h.pos p hp hlt
        exact ih _ (hp.next hlt) (by omega)
      · obtain rfl : p = count := by have := h.le p hp; omega
        exact hp
  exact hreach count 0 .zero (by omega)

/-- Blocks next to each other become one. -/
theorem boundary_merge (h : Tiles length count) (hp : Boundary length count p)
    (he : Boundary length count (p + n)) (hn : 0 < n) :
    Boundary (Function.update length p n) count q ↔
      Boundary length count q ∧ ¬(p < q ∧ q < p + n) := by
  have hpc : p < count := by have := h.le _ he; omega
  constructor
  · intro hq
    induction hq with
    | zero => exact ⟨.zero, by omega⟩
    | @next r _ hlt ih =>
      obtain ⟨hr, hout⟩ := ih
      by_cases hrp : r = p
      · rw [hrp, Function.update_self]
        exact ⟨he, by omega⟩
      · rw [Function.update_of_ne hrp]
        refine ⟨hr.next hlt, fun hin => ?_⟩
        by_cases hlow : r < p
        · have := h.add_le hr hp hlow
          omega
        · omega
  · -- boundaries up to the merged blocks first, then those after them
    have hlow : ∀ q, Boundary length count q → q ≤ p →
        Boundary (Function.update length p n) count q := by
      intro q hq
      induction hq with
      | zero => exact fun _ => .zero
      | @next r hr hlt ih =>
        intro hle
        have hpos := h.pos r hr hlt
        have hnew := Boundary.next (ih (by omega)) hlt
        rwa [Function.update_of_ne (by omega)] at hnew
    have hend : Boundary (Function.update length p n) count (p + n) := by
      have hnew := Boundary.next (hlow p hp (Nat.le_refl _)) hpc
      rwa [Function.update_self] at hnew
    rintro ⟨hq, hout⟩
    induction hq with
    | zero => exact .zero
    | @next r hr hlt ih =>
      have hpos := h.pos r hr hlt
      by_cases hin : p ≤ r ∧ r < p + n
      · have := h.add_le hr he hin.2
        obtain heq : r + length r = p + n := by omega
        rw [heq]
        exact hend
      · have hnew := Boundary.next (ih (by omega)) hlt
        rwa [Function.update_of_ne (by omega)] at hnew

theorem merge (h : Tiles length count) (hp : Boundary length count p)
    (he : Boundary length count (p + n)) (hn : 0 < n) :
    Tiles (Function.update length p n) count := by
  refine ⟨fun q hq => h.le q ((h.boundary_merge hp he hn).mp hq).1, fun q hq hlt => ?_⟩
  by_cases hqp : q = p
  · rw [hqp, Function.update_self]
    exact hn
  · rw [Function.update_of_ne hqp]
    exact h.pos q ((h.boundary_merge hp he hn).mp hq).1 hlt

/-- A block is cut in two. -/
theorem boundary_split (h : Tiles length count) (hp : Boundary length count p) (hpc : p < count)
    (hn : 0 < n) (hlt : n < length p) :
    Boundary (Function.update (Function.update length (p + n) (length p - n)) p n) count q ↔
      Boundary length count q ∨ q = p + n := by
  have hself : ∀ r, r = p → Function.update (Function.update length (p + n) (length p - n)) p n r
      = n := fun r hr => by rw [hr, Function.update_self]
  have hrest : Function.update (Function.update length (p + n) (length p - n)) p n (p + n) =
      length p - n := by rw [Function.update_of_ne (by omega), Function.update_self]
  have hother : ∀ r, r ≠ p → r ≠ p + n →
      Function.update (Function.update length (p + n) (length p - n)) p n r = length r :=
    fun r h₁ h₂ => by rw [Function.update_of_ne h₁, Function.update_of_ne h₂]
  have hinside : ∀ r, Boundary length count r → r ≠ p + n := by
    rintro r hr rfl
    have := h.add_le hp hr (by omega)
    omega
  have hle := h.add_length_le hp hpc
  constructor
  · intro hq
    induction hq with
    | zero => exact Or.inl .zero
    | @next r _ hlt ih =>
      by_cases hrp : r = p
      · rw [hself r hrp, hrp]
        exact Or.inr rfl
      · rcases ih with hr | rfl
        · rw [hother r hrp (hinside r hr)]
          exact Or.inl (hr.next hlt)
        · rw [hrest, show p + n + (length p - n) = p + length p by omega]
          exact Or.inl (hp.next hpc)
  · have hold : ∀ q, Boundary length count q →
        Boundary (Function.update (Function.update length (p + n) (length p - n)) p n) count q := by
      intro q hq
      induction hq with
      | zero => exact .zero
      | @next r hr hlt ih =>
        have hnew := ih.next hlt
        by_cases hrp : r = p
        · rw [hself r hrp, hrp] at hnew
          have hnew := hnew.next (by omega)
          rw [hrest] at hnew
          rwa [hrp, show p + length p = p + n + (length p - n) by omega]
        · rwa [hother r hrp (hinside r hr)] at hnew
    rintro (hq | rfl)
    · exact hold q hq
    · have hnew := (hold p hp).next hpc
      rwa [hself p rfl] at hnew

theorem split (h : Tiles length count) (hp : Boundary length count p) (hpc : p < count)
    (hn : 0 < n) (hlt : n < length p) :
    Tiles (Function.update (Function.update length (p + n) (length p - n)) p n) count := by
  have hle := h.add_length_le hp hpc
  refine ⟨fun q hq => ?_, fun q hq hq' => ?_⟩
  · rcases (h.boundary_split hp hpc hn hlt).mp hq with hq | rfl
    · exact h.le q hq
    · omega
  · by_cases hqp : q = p
    · rw [hqp, Function.update_self]
      exact hn
    · rw [Function.update_of_ne hqp]
      rcases (h.boundary_split hp hpc hn hlt).mp hq with hq | rfl
      · rw [Function.update_of_ne]
        · exact h.pos q hq hq'
        · rintro rfl
          have := h.add_le hp hq (by omega)
          omega
      · rw [Function.update_self]
        omega

end Tiles

/-- One block fills the region. -/
theorem tiles_single (h : 0 < count) (h0 : length 0 = count) : Tiles length count := by
  have hall : ∀ p, Boundary length count p → p = 0 ∨ p = count := by
    intro p hp
    induction hp with
    | zero => exact Or.inl rfl
    | @next r _ hlt ih =>
      rcases ih with rfl | rfl
      · exact Or.inr (by rw [h0, Nat.zero_add])
      · omega
  refine ⟨fun p hp => ?_, fun p hp hlt => ?_⟩
  · rcases hall p hp with rfl | rfl <;> omega
  · rcases hall p hp with rfl | rfl <;> omega

end Gasnet
