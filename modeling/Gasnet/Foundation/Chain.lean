import Mathlib.Data.List.Nodup
import Mathlib.Logic.Function.Basic

/-! Singly linked lists through a `next` field, and queues that keep a pointer to their last
link. -/
namespace Gasnet

variable {α : Type*} {next : α → Option α} {h e v : Option α} {x y : α} {l m : List α}

/-- The links from `h` run through `l` and end in `e`. -/
def Chain (next : α → Option α) (h : Option α) : List α → Option α → Prop
  | [], e => h = e
  | x :: l, e => h = some x ∧ Chain next (next x) l e

theorem Chain.append (hl : Chain next h l e) (hm : Chain next e m v) :
    Chain next h (l ++ m) v := by
  induction l generalizing h with
  | nil =>
    obtain rfl : h = e := hl
    exact hm
  | cons x l ih => exact ⟨hl.1, ih hl.2⟩

/-- A chain sees the links of its cells. -/
theorem Chain.congr {next' : α → Option α} (hl : Chain next h l e)
    (hnext : ∀ x ∈ l, next' x = next x) : Chain next' h l e := by
  induction l generalizing h with
  | nil => exact hl
  | cons x l ih =>
    refine ⟨hl.1, ?_⟩
    rw [hnext x List.mem_cons_self]
    exact ih hl.2 fun y hy => hnext y (List.mem_cons_of_mem _ hy)

variable [DecidableEq α]

/-- A chain does not see writes to other cells. -/
theorem Chain.update (hl : Chain next h l e) (hy : y ∉ l) :
    Chain (Function.update next y v) h l e := by
  induction l generalizing h with
  | nil => exact hl
  | cons x l ih =>
    rw [List.mem_cons, not_or] at hy
    refine ⟨hl.1, ?_⟩
    rw [Function.update_of_ne (Ne.symm hy.1)]
    exact ih hl.2 hy.2

/-- Redirecting the last link redirects the chain. -/
theorem Chain.redirect (hl : Chain next h (l ++ [x]) e) (hx : x ∉ l) :
    Chain (Function.update next x v) h (l ++ [x]) v := by
  induction l generalizing h with
  | nil => exact ⟨hl.1, by simp [Chain]⟩
  | cons y l ih =>
    rw [List.mem_cons, not_or] at hx
    refine ⟨hl.1, ?_⟩
    rw [Function.update_of_ne (Ne.symm hx.1)]
    exact ih hl.2 hx.2

/-- A list under construction: its head, and the cell whose link `tail_p` points to, or none
when that is the head itself. -/
structure Queue (α : Type*) where
  head : Option α
  tail : Option α

namespace Queue

def empty : Queue α := ⟨none, none⟩

/-- `*tail_p = x; tail_p = &x->next; x->next = NULL`. -/
def push (q : Queue α) (next : α → Option α) (x : α) : Queue α × (α → Option α) :=
  match q.tail with
  | none => (⟨some x, some x⟩, Function.update next x none)
  | some y => (⟨q.head, some x⟩, Function.update (Function.update next y (some x)) x none)

/-- `*tail_p = v`, of a queue that is not empty. -/
def close (q : Queue α) (next : α → Option α) (v : Option α) : α → Option α :=
  match q.tail with
  | none => next
  | some y => Function.update next y v

omit [DecidableEq α] in
/-- The queue holds the cells of `l`. -/
structure Holds (q : Queue α) (next : α → Option α) (l : List α) : Prop where
  chain : Chain next q.head l none
  tail : q.tail = l.getLast?
  nodup : l.Nodup

variable {q : Queue α}

omit [DecidableEq α] in
theorem holds_empty (next : α → Option α) : (empty : Queue α).Holds next [] :=
  ⟨rfl, rfl, List.nodup_nil⟩

omit [DecidableEq α] in
theorem Holds.head_eq (hq : q.Holds next l) : q.head = l.head? := by
  cases l with
  | nil => exact hq.chain
  | cons x l => exact hq.chain.1

theorem Holds.push (hq : q.Holds next l) (hx : x ∉ l) :
    (q.push next x).1.Holds (q.push next x).2 (l ++ [x]) := by
  have htail := hq.tail
  have hnodup : (l ++ [x]).Nodup := by
    rw [List.nodup_append]
    refine ⟨hq.nodup, List.nodup_singleton x, ?_⟩
    rintro a ha b hb rfl
    exact hx (List.mem_singleton.mp hb ▸ ha)
  unfold Queue.push
  rcases List.eq_nil_or_concat' l with rfl | ⟨m, y, rfl⟩
  · rw [List.getLast?_nil] at htail
    rw [htail]
    exact ⟨⟨rfl, by simp [Chain]⟩, rfl, hnodup⟩
  · rw [List.getLast?_concat] at htail
    rw [htail]
    have hlast : y ∉ m := by
      have := hq.nodup
      rw [List.nodup_append] at this
      exact fun hy => this.2.2 y hy y (by simp) rfl
    refine ⟨?_, by simp, hnodup⟩
    have hchain := (hq.chain.redirect (v := some x) hlast).update (v := none) hx
    refine hchain.append ⟨rfl, ?_⟩
    simp [Chain]

/-- Closing a queue onto a chain puts its cells in front, wherever they ended before. -/
theorem close_front (hq : Chain next q.head l e) (htail : q.tail = l.getLast?)
    (hnodup : l.Nodup) (hne : l ≠ []) (hm : Chain next v m none) (hdis : ∀ a ∈ l, a ∉ m) :
    Chain (q.close next v) q.head (l ++ m) none := by
  unfold Queue.close
  rcases List.eq_nil_or_concat' l with rfl | ⟨k, y, rfl⟩
  · exact absurd rfl hne
  · rw [List.getLast?_concat] at htail
    rw [htail]
    have hlast : y ∉ k := by
      rw [List.nodup_append] at hnodup
      exact fun hy => hnodup.2.2 y hy y (by simp) rfl
    exact (hq.redirect hlast).append (hm.update (hdis y (by simp)))

/-- Closing a queue writes only to its own last cell. -/
theorem close_chain (htail : q.tail = l.getLast?) (hm : Chain next h m e)
    (hdis : ∀ a ∈ l, a ∉ m) : Chain (q.close next v) h m e := by
  unfold Queue.close
  cases ht : q.tail with
  | none => exact hm
  | some y => exact hm.update (hdis y (List.mem_of_getLast? (ht ▸ htail).symm))

/-- Pushing a cell writes to that cell and to the last one of the queue. -/
theorem push_chain (htail : q.tail = l.getLast?) (hm : Chain next h m e)
    (hdis : ∀ a ∈ l, a ∉ m) (hx : x ∉ m) : Chain (q.push next x).2 h m e := by
  unfold Queue.push
  cases ht : q.tail with
  | none => exact hm.update hx
  | some y => exact (hm.update (hdis y (List.mem_of_getLast? (ht ▸ htail).symm))).update hx

end Queue
end Gasnet
