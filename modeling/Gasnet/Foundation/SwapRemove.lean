import Mathlib.Data.List.Basic
import Mathlib.Data.List.Induction
import Mathlib.Data.List.Nodup
import Mathlib.Data.List.Perm.Basic

/-! Removal by putting the last element in the hole, and the upward loop that removes what it visits. -/
namespace Gasnet

variable {α : Type*}

section SwapRemove

variable [DecidableEq α] {x y : α} {l a : List α}

/-- The first `x` is removed, and the last element takes its place. -/
def swapRemove (x : α) : List α → List α
  | [] => []
  | y :: ys =>
    if y = x then
      match ys.getLast? with
      | none => []
      | some z => z :: ys.dropLast
    else y :: swapRemove x ys

theorem swapRemove_cons_of_ne (h : y ≠ x) (l : List α) : swapRemove x (y :: l) = y :: swapRemove x l := by
  rw [swapRemove, if_neg h]

theorem swapRemove_singleton (x : α) : swapRemove x [x] = [] := by
  rw [swapRemove, if_pos rfl]
  rfl

theorem swapRemove_ends (x z : α) (l : List α) : swapRemove x (x :: (l ++ [z])) = z :: l := by
  rw [swapRemove, if_pos rfl, List.getLast?_concat, List.dropLast_concat]

theorem swapRemove_append (h : x ∉ a) (l : List α) : swapRemove x (a ++ l) = a ++ swapRemove x l := by
  induction a with
  | nil => rfl
  | cons y a ih =>
    rw [List.mem_cons, not_or] at h
    rw [List.cons_append, swapRemove_cons_of_ne (Ne.symm h.1), ih h.2, List.cons_append]

theorem swapRemove_perm (h : x ∈ l) : (x :: swapRemove x l).Perm l := by
  induction l with
  | nil => cases h
  | cons y l ih =>
    by_cases hy : y = x
    · subst hy
      cases l using List.reverseRecOn with
      | nil => rw [swapRemove_singleton]
      | append_singleton l z =>
        rw [swapRemove_ends]
        exact (List.perm_append_singleton z l).symm.cons y
    · rw [swapRemove_cons_of_ne hy]
      rcases List.mem_cons.mp h with rfl | h
      · exact absurd rfl hy
      · exact (List.Perm.swap y x _).trans ((ih h).cons y)

theorem nodup_swapRemove (h : x ∈ l) (hl : l.Nodup) : x ∉ swapRemove x l ∧ (swapRemove x l).Nodup :=
  List.nodup_cons.mp ((swapRemove_perm h).nodup_iff.mpr hl)

theorem mem_swapRemove (h : x ∈ l) (hl : l.Nodup) : y ∈ swapRemove x l ↔ y ∈ l ∧ y ≠ x := by
  rw [← (swapRemove_perm h).mem_iff, List.mem_cons]
  constructor
  · intro hy
    refine ⟨.inr hy, ?_⟩
    rintro rfl
    exact (nodup_swapRemove h hl).1 hy
  · rintro ⟨rfl | hy, hne⟩
    · exact absurd rfl hne
    · exact hy

end SwapRemove

/-- What a loop with a rising index does to the part of the list that it has not passed: the element at the
index is removed, the last element takes its place and is passed. The loop stops at an element that is
refused. `Swept ok m a d left stopped`: the elements `d` are removed of `a ++ m`, and `left` stay. -/
inductive Swept [DecidableEq α] (ok : α → Bool) : List α → List α → List α → List α → Bool → Prop
  | nil {a : List α} : Swept ok [] a [] a false
  | refused {x : α} {m a : List α} (h : ok x = false) :
    Swept ok (x :: m) a [x] (a ++ swapRemove x (x :: m)) true
  | one {x : α} {a : List α} (h : ok x = true) : Swept ok [x] a [x] a false
  | more {x z : α} {m a d left : List α} {stopped : Bool} (h : ok x = true)
    (hrest : Swept ok m (a ++ [z]) d left stopped) : Swept ok (x :: (m ++ [z])) a (x :: d) left stopped

/-- The first half, the element in the middle included. -/
def firstHalf (l : List α) : List α := l.take ((l.length + 1) / 2)

theorem firstHalf_nil : firstHalf ([] : List α) = [] := List.take_nil

theorem firstHalf_singleton (x : α) : firstHalf [x] = [x] := by simp [firstHalf]

theorem firstHalf_ends (x z : α) (m : List α) : firstHalf (x :: (m ++ [z])) = x :: firstHalf m := by
  have hhalf : ((x :: (m ++ [z])).length + 1) / 2 = (m.length + 1) / 2 + 1 := by
    rw [List.length_cons, List.length_append, List.length_singleton]
    omega
  have hle : (m.length + 1) / 2 ≤ m.length ∨ m = [] := by
    cases m with
    | nil => exact .inr rfl
    | cons y m =>
      refine .inl ?_
      rw [List.length_cons]
      omega
  rw [firstHalf, hhalf, List.take_succ_cons, firstHalf]
  rcases hle with hle | rfl
  · rw [List.take_append_of_le_length hle]
  · simp

namespace Swept

variable [DecidableEq α] {ok : α → Bool} {m a d left : List α} {stopped : Bool}

theorem perm (h : Swept ok m a d left stopped) : (d ++ left).Perm (a ++ m) := by
  induction h with
  | nil => rw [List.nil_append, List.append_nil]
  | @refused x m a _ =>
    have hperm := swapRemove_perm (x := x) (l := x :: m) List.mem_cons_self
    have hmid : (x :: (a ++ swapRemove x (x :: m))).Perm (a ++ x :: swapRemove x (x :: m)) :=
      List.perm_middle.symm
    exact hmid.trans (hperm.append_left a)
  | @one x a _ => exact (List.perm_append_singleton x a).symm
  | @more x z m a d left stopped _ _ ih =>
    have hmid : (a ++ [z] ++ m).Perm (a ++ (m ++ [z])) := by
      rw [List.append_assoc]
      exact List.perm_append_comm.append_left a
    exact ((ih.trans hmid).cons x).trans List.perm_middle.symm

/-- A loop that is not stopped removes the first half, and the other elements stay. -/
theorem of_not_stopped (h : Swept ok m a d left false) :
    d = firstHalf m ∧ (∀ x ∈ firstHalf m, ok x = true) ∧ left.length = a.length + m.length / 2 := by
  generalize hs : false = s at h
  induction h with
  | nil =>
    rw [firstHalf_nil]
    exact ⟨rfl, fun x hx => absurd hx List.not_mem_nil, by simp⟩
  | refused => cases hs
  | @one x a hx =>
    refine ⟨(firstHalf_singleton x).symm, ?_, by simp⟩
    rintro y hy
    rw [firstHalf_singleton, List.mem_singleton] at hy
    rw [hy, hx]
  | @more x z m a d left stopped hx _ ih =>
    obtain ⟨hd, hok, hlen⟩ := ih hs
    rw [firstHalf_ends]
    refine ⟨congrArg (x :: ·) hd, ?_, ?_⟩
    · rintro y hy
      rcases List.mem_cons.mp hy with rfl | hy
      · exact hx
      · exact hok y hy
    · simp only [hlen, List.length_append, List.length_cons, List.length_nil]
      omega

/-- One that is stopped has come to an element of the first half that is refused. -/
theorem of_stopped (h : Swept ok m a d left true) : ∃ x ∈ firstHalf m, ok x = false := by
  generalize hs : true = s at h
  induction h with
  | nil => cases hs
  | @refused x m a hx =>
    refine ⟨x, ?_, hx⟩
    rw [firstHalf, List.length_cons, show (m.length + 1 + 1) / 2 = m.length / 2 + 1 by omega,
      List.take_succ_cons]
    exact List.mem_cons_self
  | one => cases hs
  | @more x z m a d left stopped _ _ ih =>
    obtain ⟨y, hy, hok⟩ := ih hs
    rw [firstHalf_ends]
    exact ⟨y, List.mem_cons_of_mem x hy, hok⟩

end Swept

end Gasnet
