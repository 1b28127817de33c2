import Mathlib.Data.BitVec
import Mathlib.Data.List.Nodup
import Mathlib.Data.List.Perm.Basic
import Mathlib.Logic.Function.Basic

/-! The machine word: `size_t`, `uintptr_t` and `ptrdiff_t` of a 64-bit platform. -/
namespace Gasnet

/-- Signed readings are written out where the source makes them. -/
abbrev Word := BitVec 64

variable {a b : Word}

theorem toNat_mul_of_lt (h : a.toNat * b.toNat < 2 ^ 64) : (a * b).toNat = a.toNat * b.toNat := by
  rw [BitVec.toNat_mul, Nat.mod_eq_of_lt h]

theorem natCast_toNat (a : Word) : (a.toNat : Word) = a := by
  rw [BitVec.natCast_eq_ofNat, BitVec.ofNat_toNat, BitVec.setWidth_eq]

theorem toNat_nsmul (a s : Word) : a.toNat • s = a * s := by
  rw [nsmul_eq_mul, natCast_toNat]

theorem toNat_pos (h : a ≠ 0) : 0 < a.toNat := by
  rw [Nat.pos_iff_ne_zero]
  intro hz
  exact h (BitVec.eq_of_toNat_eq (by simpa using hz))

theorem toNat_sub_one (h : a ≠ 0) : (a - 1).toNat = a.toNat - 1 := by
  have hp := toNat_pos h
  have hlt := a.isLt
  rw [BitVec.toNat_sub]
  simp only [BitVec.ofNat_eq_ofNat, BitVec.toNat_ofNat]
  omega

end Gasnet

/-! Byte addresses and the stores of bytes to them. -/
namespace Gasnet

variable {β : Type*} {m n : ℕ} {a : Word}

/-- The addresses of `n` bytes from `a`. -/
def span (a : Word) : ℕ → List Word
  | 0 => []
  | n + 1 => a :: span (a + 1) n

@[simp] theorem length_span (a : Word) (n : ℕ) : (span a n).length = n := by
  induction n generalizing a with
  | zero => rfl
  | succ n ih => simp [span, ih]

theorem span_add (a : Word) (m n : ℕ) : span a (m + n) = span a m ++ span (a + m) n := by
  induction m generalizing a with
  | zero => simp [span]
  | succ m ih =>
    have ha : a + 1 + (m : Word) = a + ((m + 1 : ℕ) : Word) := by
      push_cast
      ac_rfl
    rw [Nat.add_right_comm, span, ih, ha, span, List.cons_append]

theorem mem_span {b : Word} : b ∈ span a n ↔ ∃ k < n, b = a + (k : Word) := by
  induction n generalizing a with
  | zero => simp [span]
  | succ n ih =>
    have ha (k : ℕ) : a + 1 + (k : Word) = a + ((k + 1 : ℕ) : Word) := by
      push_cast
      ac_rfl
    rw [span, List.mem_cons, ih]
    constructor
    · rintro (rfl | ⟨k, hk, rfl⟩)
      · exact ⟨0, by omega, by simp⟩
      · exact ⟨k + 1, by omega, ha k⟩
    · rintro ⟨k, hk, rfl⟩
      cases k with
      | zero => exact Or.inl (by simp)
      | succ k => exact Or.inr ⟨k, by omega, (ha k).symm⟩

/-- Consecutive blocks are one span. -/
theorem span_mul (a : Word) (c n : ℕ) :
    span a (n * c) = (List.range n).flatMap fun i => span (a + i • (c : Word)) c := by
  induction n with
  | zero => simp [span]
  | succ n ih =>
    rw [Nat.succ_mul, span_add, ih, List.range_succ, List.flatMap_append, List.flatMap_singleton,
      nsmul_eq_mul, Nat.cast_mul]

/-- Memory after a list of byte stores, the first one first. -/
def store (mem : Word → β) (ws : List (Word × β)) : Word → β :=
  ws.foldl (fun mem w => Function.update mem w.1 w.2) mem

theorem store_cons (mem : Word → β) (w : Word × β) (ws : List (Word × β)) :
    store mem (w :: ws) = store (Function.update mem w.1 w.2) ws := rfl

/-- What is not stored to keeps its value. -/
theorem store_of_notMem {ws : List (Word × β)} (h : a ∉ ws.map Prod.fst) (mem : Word → β) :
    store mem ws a = mem a := by
  induction ws generalizing mem with
  | nil => rfl
  | cons w ws ih =>
    simp only [List.map_cons, List.mem_cons, not_or] at h
    rw [store_cons, ih h.2, Function.update_of_ne h.1]

/-- What is stored to has a value that does not depend on the old one. -/
theorem store_value {ws : List (Word × β)} (h : a ∈ ws.map Prod.fst) :
    ∃ v, ∀ mem : Word → β, store mem ws a = v := by
  induction ws with
  | nil => simp at h
  | cons w ws ih =>
    by_cases hws : a ∈ ws.map Prod.fst
    · obtain ⟨v, hv⟩ := ih hws
      exact ⟨v, fun mem => hv _⟩
    · have ha : a = w.1 := by simpa [hws] using h
      refine ⟨w.2, fun mem => ?_⟩
      rw [store_cons, store_of_notMem hws, ha, Function.update_self]

/-- Stores to distinct addresses may be made in any order. -/
theorem store_perm {ws ws' : List (Word × β)} (h : ws.Perm ws') (hn : (ws.map Prod.fst).Nodup)
    (mem : Word → β) : store mem ws = store mem ws' := by
  unfold store
  apply h.foldl_eq'
  intro x hx y hy mem
  by_cases hxy : x.1 = y.1
  · rw [List.inj_on_of_nodup_map hn hx hy hxy]
  · exact Function.update_comm hxy _ _ _

/-- Each of them is there at the end. -/
theorem store_of_mem {ws : List (Word × β)} {w : Word × β} (hw : w ∈ ws)
    (hn : (ws.map Prod.fst).Nodup) (mem : Word → β) : store mem ws w.1 = w.2 := by
  rcases List.append_of_mem hw with ⟨l, r, rfl⟩
  have hperm : (l ++ w :: r).Perm (l ++ r ++ [w]) := by
    rw [List.append_assoc]
    exact List.Perm.append_left l (List.perm_append_singleton w r).symm
  rw [store_perm hperm hn, store, List.foldl_append]
  simp

end Gasnet
