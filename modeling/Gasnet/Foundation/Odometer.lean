import Mathlib.Algebra.Group.Basic
import Mathlib.Algebra.BigOperators.Group.List.Basic
import Mathlib.Tactic.Abel
import Mathlib.Data.Multiset.Bind
import Mathlib.Data.Multiset.Range

/-! Mixed-radix counting: the digits of a position, the point they stand for in a group, and
the odometer that reaches the next position by local moves. -/
namespace Gasnet

variable {A B : Type*} {c k n : ℕ} {l : List (ℕ × A)}

/-- The coordinates of position `k`, the fastest first. -/
def digits : List ℕ → ℕ → List ℕ
  | [], _ => []
  | c :: l, k => k % c :: digits l (k / c)

/-- The position with the given coordinates. -/
def position : List ℕ → List ℕ → ℕ
  | c :: l, i :: is => i + c * position l is
  | _, _ => 0

/-- The number of positions. -/
abbrev extent (l : List (ℕ × A)) : ℕ := (l.map Prod.fst).prod

@[simp] theorem length_digits (l : List ℕ) (k : ℕ) : (digits l k).length = l.length := by
  induction l generalizing k with
  | nil => rfl
  | cons c l ih => simp [digits, ih]

theorem digits_zero (l : List ℕ) : digits l 0 = List.replicate l.length 0 := by
  induction l with
  | nil => rfl
  | cons c l ih => simp [digits, ih, List.replicate_succ]

theorem position_digits {l : List ℕ} (h : k < l.prod) : position l (digits l k) = k := by
  induction l generalizing k with
  | nil =>
    have : k = 0 := by simpa using h
    simp [position, this]
  | cons c l ih =>
    have hk : k / c < l.prod := Nat.div_lt_of_lt_mul (by simpa using h)
    rw [digits, position, ih hk, Nat.mod_add_div]

/-- Within the extent, a position is determined by its coordinates. -/
theorem digits_inj {l : List ℕ} {k k' : ℕ} (h : k < l.prod) (h' : k' < l.prod)
    (he : digits l k = digits l k') : k = k' := by
  rw [← position_digits h, ← position_digits h', he]

theorem extent_cons (c : ℕ) (s : A) (l : List (ℕ × A)) :
    extent ((c, s) :: l) = c * extent l := by simp [extent]

theorem extent_pos (hd : ∀ x ∈ l, x.1 ≠ 0) : 0 < extent l := by
  induction l with
  | nil => simp [extent]
  | cons x l ih =>
    rw [extent, List.map_cons, List.prod_cons]
    exact Nat.mul_pos (Nat.pos_of_ne_zero (hd x List.mem_cons_self))
      (ih fun y hy => hd y (List.mem_cons_of_mem _ hy))

section Group

variable [AddCommGroup A] [AddCommGroup B]

/-- The point of position `k`. -/
def offset : List (ℕ × A) → ℕ → A
  | [], _ => 0
  | (c, s) :: l, k => (k % c) • s + offset l (k / c)

@[simp] theorem offset_zero (l : List (ℕ × A)) : offset l 0 = 0 := by
  induction l with
  | nil => rfl
  | cons x l ih => simp [offset, ih]

theorem offset_map (f : A →+ B) (l : List (ℕ × A)) (k : ℕ) :
    offset (l.map fun x => (x.1, f x.2)) k = f (offset l k) := by
  induction l generalizing k with
  | nil => simp [offset]
  | cons x l ih => simp [offset, ih]

/-- The outer dimensions count the rounds of the inner ones. -/
theorem offset_cat (l l' : List (ℕ × A)) (k : ℕ) :
    offset (l ++ l') k = offset l k + offset l' (k / extent l) := by
  induction l generalizing k with
  | nil => simp [offset, extent]
  | cons x l ih =>
    obtain ⟨c, s⟩ := x
    rw [List.cons_append, offset, offset, ih, extent_cons, Nat.div_div_eq_div_mul, add_assoc]

/-- A full round changes nothing. -/
theorem offset_round (l : List (ℕ × A)) (k j : ℕ) : offset l (k + extent l * j) = offset l k := by
  induction l generalizing k with
  | nil => rfl
  | cons x l ih =>
    obtain ⟨c, s⟩ := x
    rw [extent_cons, mul_assoc, offset, offset, Nat.add_mul_mod_self_left]
    rcases Nat.eq_zero_or_pos c with rfl | hc
    · simp
    · rw [Nat.add_mul_div_left _ _ hc, ih]

/-- The odometer, its coordinates counted down from the counts. A wheel that comes to zero is
put back, its whole turn `back` is undone and the next wheel moves; the last component tells
that every wheel came round. -/
def tick : A → List (ℕ × A) → List ℕ → A × List ℕ × Bool
  | back, (c, s) :: l, i :: idx =>
    if i - 1 ≠ 0 then (s - back, (i - 1) :: idx, false)
    else
      let (d, idx', round) := tick (c • s) l idx
      (s - back + d, c :: idx', round)
  | _, _, _ => (0, [], true)

/-- The coordinates of `k` counted down. -/
def countdown : List ℕ → ℕ → List ℕ
  | [], _ => []
  | c :: l, k => (c - k % c) :: countdown l (k / c)

theorem countdown_eq_zipWith (l : List ℕ) (k : ℕ) :
    countdown l k = List.zipWith (· - ·) l (digits l k) := by
  induction l generalizing k with
  | nil => rfl
  | cons c l ih => simp [countdown, digits, ih]

theorem zipWith_countdown {l : List ℕ} (hl : ∀ c ∈ l, c ≠ 0) (k : ℕ) :
    List.zipWith (· - ·) l (countdown l k) = digits l k := by
  induction l generalizing k with
  | nil => rfl
  | cons c l ih =>
    have hc : k % c < c := Nat.mod_lt _ (Nat.pos_of_ne_zero (hl c List.mem_cons_self))
    simp only [countdown, digits, List.zipWith_cons_cons,
      ih (fun d hd => hl d (List.mem_cons_of_mem _ hd))]
    congr 1
    omega

@[simp] theorem countdown_zero (l : List ℕ) : countdown l 0 = l := by
  induction l with
  | nil => rfl
  | cons c l ih => simp [countdown, ih]

theorem succ_mod_div_of_lt (h : k % c + 1 < c) : (k + 1) % c = k % c + 1 ∧ (k + 1) / c = k / c := by
  have hdiv := Nat.mod_add_div k c
  have hk : k + 1 = k % c + 1 + c * (k / c) := by omega
  constructor
  · rw [hk, Nat.add_mul_mod_self_left, Nat.mod_eq_of_lt h]
  · rw [hk, Nat.add_mul_div_left _ _ (by omega), Nat.div_eq_of_lt h, Nat.zero_add]

theorem succ_mod_div_of_eq (hc : 0 < c) (h : k % c + 1 = c) :
    (k + 1) % c = 0 ∧ (k + 1) / c = k / c + 1 := by
  have hdiv := Nat.mod_add_div k c
  have hk : k + 1 = c * (k / c + 1) := by rw [Nat.mul_add, Nat.mul_one]; omega
  rw [hk]
  exact ⟨Nat.mul_mod_right _ _, Nat.mul_div_cancel_left _ hc⟩

/-- One move short of the end. -/
theorem tick_countdown (hl : ∀ x ∈ l, x.1 ≠ 0) (back : A) (h : k + 1 < extent l) :
    tick back l (countdown (l.map Prod.fst) k) =
      (offset l (k + 1) - offset l k - back, countdown (l.map Prod.fst) (k + 1), false) := by
  induction l generalizing k back with
  | nil => simp [extent] at h
  | cons x l ih =>
    rcases x with ⟨c, s⟩
    have hc : 0 < c := Nat.pos_of_ne_zero (hl (c, s) List.mem_cons_self)
    have hlt : k % c < c := Nat.mod_lt _ hc
    simp only [List.map_cons, countdown, tick, offset]
    by_cases hw : k % c + 1 < c
    · rcases succ_mod_div_of_lt hw with ⟨hm, hd⟩
      rw [if_pos (by omega), hm, hd, add_nsmul, one_nsmul]
      refine Prod.ext ?_ (Prod.ext ?_ rfl)
      · simp only
        abel
      · simp only
        congr 1
    · have hcarry : k % c + 1 = c := by omega
      rcases succ_mod_div_of_eq hc hcarry with ⟨hm, hd⟩
      have hk : k / c + 1 < extent l := by
        rw [extent_cons] at h
        rw [← hd]
        exact Nat.div_lt_of_lt_mul h
      rw [if_neg (by omega), ih (fun y hy => hl y (List.mem_cons_of_mem _ hy)) _ hk, hm, hd]
      refine Prod.ext ?_ (Prod.ext ?_ rfl)
      · have hcs : c • s = (k % c) • s + s := by rw [← succ_nsmul, hcarry]
        simp only [hcs, zero_nsmul]
        abel
      · simp

/-- The last move brings every wheel round. -/
theorem tick_last (hl : ∀ x ∈ l, x.1 ≠ 0) (back : A) (h : k + 1 = extent l) :
    (tick back l (countdown (l.map Prod.fst) k)).2.2 = true := by
  induction l generalizing k back with
  | nil => rfl
  | cons x l ih =>
    rcases x with ⟨c, s⟩
    have hc : 0 < c := Nat.pos_of_ne_zero (hl (c, s) List.mem_cons_self)
    have hlt : k % c < c := Nat.mod_lt _ hc
    rw [extent_cons] at h
    have hcarry : k % c + 1 = c := by
      have h0 : (k + 1) % c = 0 := by rw [h, Nat.mul_mod_right]
      by_contra hne
      rw [(succ_mod_div_of_lt (by omega)).1] at h0
      omega
    have hk : k / c + 1 = extent l := by
      rw [← (succ_mod_div_of_eq hc hcarry).2, h, Nat.mul_div_cancel_left _ hc]
    simp only [List.map_cons, countdown, tick]
    rw [if_neg (by omega)]
    exact ih (fun y hy => hl y (List.mem_cons_of_mem _ hy)) _ hk

end Group
end Gasnet

/-! The multiset of points `i₁ • s₁ + ... + iₙ • sₙ` of a strided box, with what may be done
to its list of (count, stride) pairs without changing it. -/
namespace Gasnet

variable {A B : Type*} {c c' : ℕ} {s : A} {l l' : List (ℕ × A)}

section Monoid

variable [AddCommMonoid A] [AddCommMonoid B]

def box : List (ℕ × A) → Multiset A
  | [] => {0}
  | (c, s) :: l => (Multiset.range c).bind fun i => (box l).map (i • s + ·)

theorem box_cons (c : ℕ) (s : A) (l : List (ℕ × A)) :
    box ((c, s) :: l) = (Multiset.range c).bind fun i => (box l).map (i • s + ·) := rfl

/-- A null dimension. -/
theorem box_one (s : A) (l : List (ℕ × A)) : box ((1, s) :: l) = box l := by
  simp [box_cons]

theorem box_swap (x y : ℕ × A) (l : List (ℕ × A)) : box (x :: y :: l) = box (y :: x :: l) := by
  obtain ⟨c, s⟩ := x
  obtain ⟨c', s'⟩ := y
  simp only [box_cons, Multiset.map_bind, Multiset.map_map, Function.comp_def]
  rw [Multiset.bind_bind]
  simp only [add_left_comm]

theorem box_congr_tail (x : ℕ × A) (h : box l = box l') : box (x :: l) = box (x :: l') := by
  obtain ⟨c, s⟩ := x
  rw [box_cons, box_cons, h]

theorem box_perm (h : l.Perm l') : box l = box l' := by
  induction h with
  | nil => rfl
  | cons x _ ih => exact box_congr_tail x ih
  | swap x y l => exact box_swap y x l
  | trans _ _ ih ih' => exact ih.trans ih'

/-- The numbers below `c * c'`, digit by digit. -/
theorem range_mul (c c' : ℕ) :
    Multiset.range (c * c') =
      (Multiset.range c').bind fun j => (Multiset.range c).map (c * j + ·) := by
  induction c' with
  | zero => simp
  | succ c' ih =>
    rw [Nat.mul_succ, Multiset.range_add, ih, Multiset.range_succ, Multiset.cons_bind, add_comm]

/-- Two dimensions are one when the outer stride is the extent of the inner. -/
theorem box_mul (c c' : ℕ) (s : A) (l : List (ℕ × A)) :
    box ((c, s) :: (c', c • s) :: l) = box ((c * c', s) :: l) := by
  rw [box_swap]
  simp only [box_cons, range_mul, Multiset.bind_assoc, Multiset.bind_map, Multiset.map_bind,
    Multiset.map_map, Function.comp_def]
  refine Multiset.bind_congr fun j _ => Multiset.bind_congr fun i _ => ?_
  refine Multiset.map_congr rfl fun x _ => ?_
  rw [add_nsmul, mul_nsmul, add_assoc, add_left_comm]

end Monoid

section Group

variable [AddCommGroup A]

theorem map_reflect_range (c : ℕ) :
    (Multiset.range (c + 1)).map (c - ·) = Multiset.range (c + 1) := by
  refine Multiset.Nodup.ext ?_ (Multiset.nodup_range _) |>.mpr ?_
  · refine Multiset.Nodup.map_on ?_ (Multiset.nodup_range _)
    intro i hi j hj h
    rw [Multiset.mem_range] at hi hj
    omega
  · intro i
    simp only [Multiset.mem_map, Multiset.mem_range]
    constructor
    · rintro ⟨j, _, rfl⟩
      omega
    · intro hi
      exact ⟨c - i, by omega, by omega⟩

/-- Walking a dimension from its other end. -/
theorem box_neg (c : ℕ) (s : A) (l : List (ℕ × A)) :
    box ((c + 1, s) :: l) = (box ((c + 1, -s) :: l)).map (c • s + ·) := by
  rw [box_cons, ← map_reflect_range, Multiset.bind_map]
  simp only [box_cons, Multiset.map_bind, Multiset.map_map, Function.comp_def]
  refine Multiset.bind_congr fun i hi => Multiset.map_congr rfl fun x _ => ?_
  rw [Multiset.mem_range] at hi
  have hc : c • s = (c - i) • s + i • s := by
    rw [← add_nsmul]
    congr 1
    omega
  rw [hc, neg_nsmul]
  abel

/-- The points of a box are those of its positions. -/
theorem box_eq_offset (l : List (ℕ × A)) :
    box l = (Multiset.range (extent l)).map (offset l) := by
  induction l with
  | nil => rfl
  | cons x l ih =>
    obtain ⟨c, s⟩ := x
    rw [extent_cons, box_cons, range_mul, Multiset.map_bind, ih]
    simp only [Multiset.map_map, Function.comp_def]
    rw [Multiset.bind_map_comm]
    refine Multiset.bind_congr fun j _ => Multiset.map_congr rfl fun i hi => ?_
    rw [Multiset.mem_range] at hi
    rw [offset, Nat.mul_comm c j, Nat.add_comm, Nat.add_mul_mod_self_right, Nat.mod_eq_of_lt hi,
      Nat.add_mul_div_right _ _ (by omega), Nat.div_eq_of_lt hi, Nat.zero_add]

end Group
end Gasnet
