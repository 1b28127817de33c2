import Mathlib.Data.Fintype.EquivFin
import Mathlib.Data.Nat.ModEq
import Mathlib.Algebra.BigOperators.Group.Finset.Basic
import Mathlib.Algebra.Order.BigOperators.Group.Finset
import Mathlib.Data.Fintype.BigOperators
import Mathlib.Algebra.BigOperators.Fin
import Mathlib.Data.List.Basic

/-! The power-of-two peer schedule on a ring of any size, and who has been heard of after
a number of its steps. -/
namespace Gasnet.Dissemination

variable {N d : Nat} {r p q j : Fin N}

/-- The peer that is `2 ^ d` places ahead. -/
def fwd (r : Fin N) (d : Nat) : Fin N := ⟨(r.val + 2 ^ d) % N, Nat.mod_lt _ r.pos⟩

/-- `j` is one of the `2 ^ d` ranks that end at `r`. -/
def Hears (d : Nat) (r j : Fin N) : Prop := ∃ o < 2 ^ d, (j.val + o) % N = r.val

theorem fwd_injective (d : Nat) : Function.Injective fun r : Fin N => fwd r d := by
  intro a b h
  have hv : a.val + 2 ^ d ≡ b.val + 2 ^ d [MOD N] := congrArg Fin.val h
  have ha := Nat.ModEq.add_right_cancel' _ hv
  exact Fin.ext (Nat.ModEq.eq_of_lt_of_lt ha a.isLt b.isLt)

theorem fwd_surjective (d : Nat) (r : Fin N) : ∃ p, fwd p d = r :=
  Finite.injective_iff_surjective.mp (fwd_injective d) r

theorem hears_zero : Hears 0 r j ↔ j = r := by
  constructor
  · rintro ⟨o, ho, h⟩
    have : o = 0 := by simpa using ho
    subst this
    exact Fin.ext (by simpa [Nat.mod_eq_of_lt j.isLt] using h)
  · rintro rfl
    exact ⟨0, by simp, by simp [Nat.mod_eq_of_lt j.isLt]⟩

theorem hears_mono {e : Nat} (hde : d ≤ e) (h : Hears d r j) : Hears e r j := by
  obtain ⟨o, ho, h⟩ := h
  exact ⟨o, lt_of_lt_of_le ho (Nat.pow_le_pow_right (by omega) hde), h⟩

/-- One more step adds what the peer behind had heard. -/
theorem hears_succ (hp : fwd p d = r) (h : Hears (d + 1) r j) : Hears d r j ∨ Hears d p j := by
  obtain ⟨o, ho, h⟩ := h
  by_cases hlt : o < 2 ^ d
  · exact Or.inl ⟨o, hlt, h⟩
  · right
    have hpow : 2 ^ (d + 1) = 2 ^ d + 2 ^ d := by omega
    refine ⟨o - 2 ^ d, by omega, ?_⟩
    let q : Fin N := ⟨(j.val + (o - 2 ^ d)) % N, Nat.mod_lt _ r.pos⟩
    have hq : fwd q d = r := by
      apply Fin.ext
      calc (fwd q d).val = ((j.val + (o - 2 ^ d)) + 2 ^ d) % N := by simp [fwd, q]
        _ = (j.val + o) % N := by congr 1; omega
        _ = r.val := h
    exact congrArg Fin.val (fwd_injective d (hq.trans hp.symm))

/-- The same seen from the other end. -/
theorem hears_succ_fwd (h : Hears (d + 1) j r) : Hears d j r ∨ Hears d j (fwd r d) := by
  obtain ⟨o, ho, h⟩ := h
  by_cases hlt : o < 2 ^ d
  · exact Or.inl ⟨o, hlt, h⟩
  · right
    have hpow : 2 ^ (d + 1) = 2 ^ d + 2 ^ d := by omega
    refine ⟨o - 2 ^ d, by omega, ?_⟩
    calc ((fwd r d).val + (o - 2 ^ d)) % N = (r.val + 2 ^ d + (o - 2 ^ d)) % N := by simp [fwd]
      _ = (r.val + o) % N := by congr 1; omega
      _ = j.val := h

/-- Enough doublings cover the ring. -/
theorem hears_all (hN : N ≤ 2 ^ d) (r j : Fin N) : Hears d r j := by
  have hj := j.isLt
  refine ⟨(r.val + N - j.val) % N, lt_of_lt_of_le (Nat.mod_lt _ r.pos) hN, ?_⟩
  rw [Nat.add_mod_mod, show j.val + (r.val + N - j.val) = r.val + N by omega]
  simp [Nat.mod_eq_of_lt r.isLt]

end Gasnet.Dissemination

/-! Contributions of the ranks of a ring, read from one of them onwards, and the pieces that a
length is cut into. -/
namespace Gasnet.Rotation

open Dissemination

variable {N : Nat} {β : Type} {c : Fin N → List β} {w : Fin N → Nat} {r : Fin N} {m n i j : Nat}

/-- The rank that is `j` places ahead. -/
def ahead (r : Fin N) (j : Nat) : Fin N := ⟨(r.val + j) % N, Nat.mod_lt _ r.pos⟩

@[simp] theorem ahead_zero (r : Fin N) : ahead r 0 = r := Fin.ext (Nat.mod_eq_of_lt r.isLt)

theorem ahead_ahead (r : Fin N) (i j : Nat) : ahead (ahead r i) j = ahead r (i + j) := by
  apply Fin.ext
  simp [ahead, Nat.add_assoc]

theorem fwd_eq_ahead (r : Fin N) (t : Nat) : fwd r t = ahead r (2 ^ t) := rfl

theorem ahead_sub (h : i ≤ N) : ahead (ahead r (N - i)) i = r := by
  rw [ahead_ahead, Nat.sub_add_cancel h]
  apply Fin.ext
  simp [ahead, Nat.mod_eq_of_lt r.isLt]

/-- What `n` ranks from `r` on contribute. -/
def gather (c : Fin N → List β) (r : Fin N) (n : Nat) : List β :=
  (List.range n).flatMap fun j => c (ahead r j)

/-- How much they contribute. -/
def extent (w : Fin N → Nat) (r : Fin N) (n : Nat) : Nat := ∑ j ∈ Finset.range n, w (ahead r j)

@[simp] theorem extent_zero (w : Fin N → Nat) (r : Fin N) : extent w r 0 = 0 := rfl

theorem extent_one (w : Fin N → Nat) (r : Fin N) : extent w r 1 = w r := by
  simp [extent]

theorem extent_succ (w : Fin N → Nat) (r : Fin N) (n : Nat) :
    extent w r (n + 1) = extent w r n + w (ahead r n) := Finset.sum_range_succ _ n

theorem extent_add (w : Fin N → Nat) (r : Fin N) (m n : Nat) :
    extent w r (m + n) = extent w r m + extent w (ahead r m) n := by
  simp only [extent, Finset.sum_range_add, ahead_ahead]

theorem extent_mono (h : m ≤ n) : extent w r m ≤ extent w r n := by
  obtain ⟨d, rfl⟩ := Nat.exists_eq_add_of_le h
  rw [extent_add]
  exact Nat.le_add_right _ _

/-- All ranks together contribute the same, whoever reads them. -/
theorem extent_all (w : Fin N → Nat) (r : Fin N) : extent w r N = ∑ q, w q := by
  have hbij : ∑ j : Fin N, w (ahead r j) = ∑ q, w q := by
    refine Function.Bijective.sum_comp (Finite.injective_iff_bijective.mp ?_) w
    intro a b h
    have hv : r.val + a.val ≡ r.val + b.val [MOD N] := congrArg Fin.val h
    exact Fin.ext (Nat.ModEq.eq_of_lt_of_lt (Nat.ModEq.add_left_cancel' _ hv) a.isLt b.isLt)
  rw [← hbij, extent, Finset.sum_range]

theorem extent_const (a : Nat) (r : Fin N) (n : Nat) : extent (fun _ => a) r n = n * a := by
  simp [extent]

theorem length_gather (c : Fin N → List β) (r : Fin N) (n : Nat) :
    (gather c r n).length = extent (fun q => (c q).length) r n := by
  induction n with
  | zero => rfl
  | succ n ih => simp [gather, extent_succ, List.range_succ, ← ih]

theorem gather_add (c : Fin N → List β) (r : Fin N) (m n : Nat) :
    gather c r (m + n) = gather c r m ++ gather c (ahead r m) n := by
  simp only [gather, List.range_add, List.flatMap_append, List.flatMap_map, ahead_ahead]

/-- What comes after the first `m` ranks is what a later one reads first. -/
theorem gather_getElem (h : m + n ≤ N) (hj : j < extent (fun q => (c q).length) (ahead r m) n) :
    (gather c r N)[extent (fun q => (c q).length) r m + j]? = (gather c (ahead r m) N)[j]? := by
  obtain ⟨d, hd⟩ := Nat.exists_eq_add_of_le h
  have h₁ : gather c r N = gather c r m ++ gather c (ahead r m) (n + d) := by
    rw [← gather_add]
    congr 1
    omega
  have h₂ : gather c (ahead r m) (n + d) =
      gather c (ahead r m) n ++ gather c (ahead (ahead r m) n) d := gather_add ..
  have h₃ : gather c (ahead r m) N =
      gather c (ahead r m) n ++ gather c (ahead (ahead r m) n) (m + d) := by
    rw [← gather_add]
    congr 1
    omega
  have hl := length_gather c (ahead r m) n
  rw [h₁, List.getElem?_append_right (by rw [length_gather]; omega), length_gather, h₂, h₃,
    Nat.add_sub_cancel_left, List.getElem?_append_left (by omega),
    List.getElem?_append_left (by omega)]

/-- What is known before step `t`. -/
def known (w : Fin N → Nat) (r : Fin N) (t : Nat) : Nat := extent w r (min (2 ^ t) N)

theorem known_zero (w : Fin N → Nat) (r : Fin N) : known w r 0 = w r := by
  have : min (2 ^ 0) N = 1 := Nat.min_eq_left r.pos
  rw [known, this, extent_one]

theorem known_mono (w : Fin N → Nat) (r : Fin N) (t : Nat) :
    known w r t ≤ known w r (t + 1) := by
  apply extent_mono
  have : 2 ^ t ≤ 2 ^ (t + 1) := Nat.pow_le_pow_right (by omega) (by omega)
  omega

theorem known_all {t : Nat} (h : N ≤ 2 ^ t) : known w r t = ∑ q, w q := by
  rw [known, Nat.min_eq_right h, extent_all]

/-- One step adds what the peer knows, or what is left of the ring. -/
theorem known_succ {t : Nat} (h : 2 ^ t < N) :
    known w r (t + 1) = known w r t + extent w (fwd r t) (min (2 ^ t) (N - 2 ^ t)) := by
  have hpow : 2 ^ (t + 1) = 2 ^ t + 2 ^ t := by omega
  have hmin : min (2 ^ (t + 1)) N = 2 ^ t + min (2 ^ t) (N - 2 ^ t) := by omega
  rw [known, known, hmin, extent_add, Nat.min_eq_left h.le, fwd_eq_ahead]

/-- The least power of two that is not below `N`, as a loop finds it. -/
def bits (tmp : Nat) : Nat := if h : tmp = 0 then 0 else 1 + bits (tmp / 2)
termination_by tmp
decreasing_by omega

theorem lt_two_pow_bits (n : Nat) : n < 2 ^ bits n := by
  induction n using Nat.strongRecOn with
  | ind n ih =>
    unfold bits
    split
    · omega
    · have := ih (n / 2) (by omega)
      rw [Nat.pow_add, Nat.pow_one]
      omega

theorem two_pow_le_of_lt_bits {t : Nat} (h : t < bits n) : 2 ^ t ≤ n := by
  induction n using Nat.strongRecOn generalizing t with
  | ind n ih =>
    unfold bits at h
    split at h
    · omega
    · cases t with
      | zero => simp; omega
      | succ t =>
        have := ih (n / 2) (by omega) (by omega : t < bits (n / 2))
        rw [Nat.pow_succ]
        omega

/-- The pieces of at most `limit` that a length is sent in, from `sent` on. There is always one,
also when nothing is to be sent. -/
def pieces (limit nbytes sent : Nat) : List (Nat × Nat) :=
  if sent + min (nbytes - sent) limit < nbytes ∧ 0 < limit then
    (sent, min (nbytes - sent) limit) :: pieces limit nbytes (sent + min (nbytes - sent) limit)
  else [(sent, min (nbytes - sent) limit)]
termination_by nbytes - sent
decreasing_by omega

variable {limit nbytes sent : Nat}

theorem pieces_ne_nil : pieces limit nbytes sent ≠ [] := by
  unfold pieces
  split <;> exact List.cons_ne_nil _ _

theorem mem_pieces {x : Nat × Nat} (hs : sent ≤ nbytes) (hx : x ∈ pieces limit nbytes sent) :
    sent ≤ x.1 ∧ x.1 + x.2 ≤ nbytes := by
  fun_induction pieces limit nbytes sent with
  | case1 sent h ih =>
    rcases List.mem_cons.mp hx with rfl | hx
    · exact ⟨Nat.le_refl _, by dsimp only; omega⟩
    · have := ih (by omega) hx
      omega
  | case2 sent h =>
    obtain rfl := List.mem_singleton.mp hx
    exact ⟨Nat.le_refl _, by dsimp only; omega⟩

/-- The pieces leave nothing out. -/
theorem pieces_cover (hl : 0 < limit) (hlo : sent ≤ i) (hhi : i < nbytes) :
    ∃ x ∈ pieces limit nbytes sent, x.1 ≤ i ∧ i < x.1 + x.2 := by
  fun_induction pieces limit nbytes sent with
  | case1 sent h ih =>
    by_cases hi : i < sent + min (nbytes - sent) limit
    · exact ⟨_, List.mem_cons_self, hlo, hi⟩
    · obtain ⟨x, hx, h₁, h₂⟩ := ih (by omega)
      exact ⟨x, List.mem_cons_of_mem _ hx, h₁, h₂⟩
  | case2 sent h =>
    exact ⟨_, List.mem_cons_self, hlo, by dsimp only; omega⟩

theorem pieces_sum (hl : 0 < limit) (hs : sent ≤ nbytes) :
    ((pieces limit nbytes sent).map Prod.snd).sum = nbytes - sent := by
  fun_induction pieces limit nbytes sent with
  | case1 sent h ih =>
    rw [List.map_cons, List.sum_cons, ih (by omega)]
    omega
  | case2 sent h =>
    simp only [List.map_cons, List.map_nil, List.sum_cons, List.sum_nil]
    omega

theorem pieces_pos {x : Nat × Nat} (hl : 0 < limit) (hs : sent < nbytes)
    (hx : x ∈ pieces limit nbytes sent) : 0 < x.2 := by
  fun_induction pieces limit nbytes sent with
  | case1 sent h ih =>
    rcases List.mem_cons.mp hx with rfl | hx
    · dsimp only
      omega
    · exact ih h.1 hx
  | case2 sent h =>
    obtain rfl := List.mem_singleton.mp hx
    dsimp only
    omega

end Gasnet.Rotation
