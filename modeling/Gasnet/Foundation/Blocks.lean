import Mathlib.Data.Nat.Count
import Mathlib.Tactic.TypeStar

/-! Copies inside a memory, and the blocks that a test selects moved together and apart again. -/
namespace Gasnet.Blocks

variable {β : Type*} {m s : ℕ → β} {dst src n x i k N : ℕ} {p : ℕ → Prop} [DecidablePred p]

/-- `n` cells of `s` from `src` on, written from `dst` on. -/
def copy (m : ℕ → β) (dst : ℕ) (s : ℕ → β) (src n : ℕ) : ℕ → β := fun x =>
  if dst ≤ x ∧ x < dst + n then s (src + (x - dst)) else m x

theorem copy_in (h : k < n) : copy m dst s src n (dst + k) = s (src + k) := by
  rw [copy, if_pos ⟨Nat.le_add_right .., Nat.add_lt_add_left h _⟩, Nat.add_sub_cancel_left]

theorem copy_out (h : x < dst ∨ dst + n ≤ x) : copy m dst s src n x = m x :=
  if_neg fun hx => by omega

/-- The selected ones of `N` blocks of `n` cells from `src` on, put together from `dst` on. -/
def gather (p : ℕ → Prop) [DecidablePred p] (n dst src N : ℕ) (m : ℕ → β) : (ℕ → β) × ℕ :=
  (List.range N).foldl (fun (m, c) i =>
    if p i then (copy m (dst + c * n) m (src + i * n) n, c + 1) else (m, c)) (m, 0)

/-- The blocks from `src` on, put where the selected ones of `N` blocks from `dst` on are. -/
def scatter (p : ℕ → Prop) [DecidablePred p] (n dst src N : ℕ) (m : ℕ → β) : (ℕ → β) × ℕ :=
  (List.range N).foldl (fun (m, c) i =>
    if p i then (copy m (dst + i * n) m (src + c * n) n, c + 1) else (m, c)) (m, 0)

theorem gather_succ : gather p n dst src (N + 1) m = (fun (m, c) i =>
    if p i then (copy m (dst + c * n) m (src + i * n) n, c + 1) else (m, c))
      (gather p n dst src N m) N := by
  rw [gather, List.range_succ, List.foldl_append]
  rfl

theorem scatter_succ : scatter p n dst src (N + 1) m = (fun (m, c) i =>
    if p i then (copy m (dst + i * n) m (src + c * n) n, c + 1) else (m, c))
      (scatter p n dst src N m) N := by
  rw [scatter, List.range_succ, List.foldl_append]
  rfl

theorem gather_count : (gather p n dst src N m).2 = Nat.count p N := by
  induction N with
  | zero => rfl
  | succ N ih =>
    rw [gather_succ, Nat.count_succ]
    dsimp only
    split <;> simp [ih]

theorem scatter_count : (scatter p n dst src N m).2 = Nat.count p N := by
  induction N with
  | zero => rfl
  | succ N ih =>
    rw [scatter_succ, Nat.count_succ]
    dsimp only
    split <;> simp [ih]

/-- Blocks lie one after another. -/
theorem block_end_le (h : i < k) : i * n + n ≤ k * n := by
  rw [← Nat.succ_mul]
  exact Nat.mul_le_mul_right _ h

theorem gather_out (h : x < dst ∨ dst + Nat.count p N * n ≤ x) :
    (gather p n dst src N m).1 x = m x := by
  induction N with
  | zero => rfl
  | succ N ih =>
    have hmono : Nat.count p N * n ≤ Nat.count p (N + 1) * n :=
      Nat.mul_le_mul_right _ (Nat.count_monotone p (Nat.le_succ N))
    have hrest := ih (h.imp_right fun h => by omega)
    rw [gather_succ]
    dsimp only
    split
    · rename_i hp
      rw [gather_count]
      rw [Nat.count_succ_eq_succ_count hp, Nat.succ_mul] at h
      exact (copy_out (h.imp (by omega) (by omega))).trans hrest
    · exact hrest

theorem scatter_out (h : x < dst ∨ dst + N * n ≤ x) : (scatter p n dst src N m).1 x = m x := by
  induction N with
  | zero => rfl
  | succ N ih =>
    rw [Nat.succ_mul] at h
    have hrest := ih (h.imp_right fun h => by omega)
    rw [scatter_succ]
    dsimp only
    split
    · exact (copy_out (h.imp (by omega) (by omega))).trans hrest
    · exact hrest

/-- Each selected block goes behind the selected ones before it. -/
theorem gather_in (hsep : dst + Nat.count p N * n ≤ src) (hi : i < N) (hp : p i) (hk : k < n) :
    (gather p n dst src N m).1 (dst + Nat.count p i * n + k) = m (src + i * n + k) := by
  induction N with
  | zero => omega
  | succ N ih =>
    have hmono : Nat.count p N * n ≤ Nat.count p (N + 1) * n :=
      Nat.mul_le_mul_right _ (Nat.count_monotone p (Nat.le_succ N))
    rw [gather_succ]
    dsimp only
    rcases Nat.lt_succ_iff_lt_or_eq.1 hi with hlt | rfl
    · have hrest := ih (by omega) hlt
      have hbefore := block_end_le (n := n) (Nat.count_strict_mono hp hlt)
      split
      · rw [gather_count]
        exact (copy_out (by omega)).trans hrest
      · exact hrest
    · rw [if_pos hp, gather_count]
      exact (copy_in hk).trans (gather_out (by omega))

theorem scatter_in (hsep : src + Nat.count p N * n ≤ dst) (hi : i < N) (hp : p i) (hk : k < n) :
    (scatter p n dst src N m).1 (dst + i * n + k) = m (src + Nat.count p i * n + k) := by
  induction N with
  | zero => omega
  | succ N ih =>
    have hmono : Nat.count p N * n ≤ Nat.count p (N + 1) * n :=
      Nat.mul_le_mul_right _ (Nat.count_monotone p (Nat.le_succ N))
    rw [scatter_succ]
    dsimp only
    rcases Nat.lt_succ_iff_lt_or_eq.1 hi with hlt | rfl
    · have hrest := ih (by omega) hlt
      have hbefore := block_end_le (n := n) hlt
      split
      · exact (copy_out (by omega)).trans hrest
      · exact hrest
    · rw [if_pos hp, scatter_count]
      rw [Nat.count_succ_eq_succ_count hp, Nat.succ_mul] at hsep
      exact (copy_in hk).trans (scatter_out (by omega))

/-- The other blocks stay. -/
theorem scatter_other (hi : i < N) (hp : ¬p i) (hk : k < n) :
    (scatter p n dst src N m).1 (dst + i * n + k) = m (dst + i * n + k) := by
  induction N with
  | zero => omega
  | succ N ih =>
    rw [scatter_succ]
    dsimp only
    rcases Nat.lt_succ_iff_lt_or_eq.1 hi with hlt | rfl
    · have hbefore := block_end_le (n := n) hlt
      split
      · exact (copy_out (by omega)).trans (ih hlt)
      · exact ih hlt
    · rw [if_neg hp]
      exact scatter_out (by omega)

end Gasnet.Blocks
