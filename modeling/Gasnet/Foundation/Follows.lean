import Mathlib.Data.List.Nodup

/-! Neighbours in a list. -/
namespace Gasnet

variable {α : Type*} {l : List α} {x y z : α}

/-- `y` comes right after `x` in `l`. -/
def Follows (l : List α) (x y : α) : Prop := ∃ k, l[k]? = some x ∧ l[k + 1]? = some y

theorem not_follows_nil : ¬Follows [] x y := by
  rintro ⟨k, hk, _⟩
  simp at hk

theorem follows_cons : Follows (z :: l) x y ↔ z = x ∧ l.head? = some y ∨ Follows l x y := by
  constructor
  · rintro ⟨k, hx, hy⟩
    cases k with
    | zero => exact Or.inl ⟨by simpa using hx, by simpa [List.head?_eq_getElem?] using hy⟩
    | succ k => exact Or.inr ⟨k, by simpa using hx, by simpa using hy⟩
  · rintro (⟨rfl, hy⟩ | ⟨k, hx, hy⟩)
    · exact ⟨0, rfl, by simpa [List.head?_eq_getElem?] using hy⟩
    · exact ⟨k + 1, by simpa using hx, by simpa using hy⟩

theorem follows_concat :
    Follows (l ++ [z]) x y ↔ Follows l x y ∨ l.getLast? = some x ∧ y = z := by
  induction l with
  | nil => simp [follows_cons, not_follows_nil]
  | cons w l ih =>
    rw [List.cons_append, follows_cons, follows_cons, ih]
    cases l with
    | nil =>
      simp only [List.nil_append, List.head?_cons, Option.some.injEq, List.head?_nil,
        List.getLast?_nil, List.getLast?_singleton, not_follows_nil]
      simp [eq_comm]
    | cons v l => simp [List.getLast?_cons_cons, or_assoc]

theorem Follows.mem_left (h : Follows l x y) : x ∈ l := by
  obtain ⟨k, hk, _⟩ := h
  exact List.mem_of_getElem? hk

theorem Follows.mem_right (h : Follows l x y) : y ∈ l := by
  obtain ⟨k, _, hk⟩ := h
  exact List.mem_of_getElem? hk

theorem getElem?_inj_of_nodup {i j : Nat} (hl : l.Nodup) (hi : l[i]? = some x)
    (hj : l[j]? = some x) : i = j := by
  obtain ⟨hi', hi⟩ := List.getElem?_eq_some_iff.mp hi
  obtain ⟨hj', hj⟩ := List.getElem?_eq_some_iff.mp hj
  exact (List.Nodup.getElem_inj_iff hl).mp (hi.trans hj.symm)

theorem Follows.right_unique (hl : l.Nodup) (hy : Follows l x y) (hz : Follows l x z) :
    y = z := by
  obtain ⟨i, hi, hy⟩ := hy
  obtain ⟨k, hk, hz⟩ := hz
  obtain rfl := getElem?_inj_of_nodup hl hi hk
  exact Option.some.inj (hy.symm.trans hz)

theorem Follows.left_unique (hl : l.Nodup) (hx : Follows l x z) (hy : Follows l y z) :
    x = y := by
  obtain ⟨i, hx, hi⟩ := hx
  obtain ⟨k, hy, hk⟩ := hy
  obtain rfl : i = k := by
    have := getElem?_inj_of_nodup hl hi hk
    omega
  exact Option.some.inj (hx.symm.trans hy)

/-- Nothing comes before the first. -/
theorem Follows.ne_head (hl : l.Nodup) (h : Follows l x y) : l.head? ≠ some y := by
  intro hy
  obtain ⟨k, _, hk⟩ := h
  rw [List.head?_eq_getElem?] at hy
  have := getElem?_inj_of_nodup hl hy hk
  omega

/-- Nothing comes after the last. -/
theorem Follows.ne_getLast (hl : l.Nodup) (h : Follows l x y) : l.getLast? ≠ some x := by
  intro hx
  obtain ⟨k, hk, hy⟩ := h
  rw [List.getLast?_eq_getElem?] at hx
  have := getElem?_inj_of_nodup hl hk hx
  have := (List.getElem?_eq_some_iff.mp hy).1
  omega

end Gasnet
