import Mathlib.Data.List.Basic
import Mathlib.Data.List.Nodup

/-! Doubly linked lists with a head, a tail and null ends. -/
namespace Gasnet

variable {A : Type*} {next prev next' prev' : A → Option A} {head tail : Option A}
  {l p s : List A} {a b c : A}

/-- The cells of `l` in order: each points to its neighbours. -/
structure DList (next prev : A → Option A) (head tail : Option A) (l : List A) : Prop where
  nodup : l.Nodup
  head_eq : head = l.head?
  tail_eq : tail = l.getLast?
  links : ∀ p b s, l = p ++ b :: s → prev b = p.getLast? ∧ next b = s.head?

namespace DList

theorem empty (next prev : A → Option A) : DList next prev none none [] :=
  ⟨List.nodup_nil, rfl, rfl, fun p b s h => absurd h (by simp)⟩

variable [DecidableEq A]

/-- A new cell before the first one. -/
theorem push (h : DList next prev head tail l) (hb : b ∉ l)
    (hnext : ∀ x, next' x = if x = b then head else next x)
    (hprev : ∀ x, prev' x = if some x = head then some b else if x = b then none else prev x) :
    DList next' prev' (some b) (if l = [] then some b else tail) (b :: l) := by
  refine ⟨List.nodup_cons.2 ⟨hb, h.nodup⟩, rfl, ?_, fun p c s hl => ?_⟩
  · cases l with
    | nil => rfl
    | cons a l => rw [if_neg (List.cons_ne_nil a l), h.tail_eq, List.getLast?_cons_cons]
  · rcases List.cons_eq_append_iff.1 hl with ⟨rfl, hcs⟩ | ⟨p, rfl, hcs⟩
    · cases hcs
      have hne : some b ≠ head := by
        intro he
        rw [h.head_eq] at he
        exact hb (List.mem_of_mem_head? he.symm)
      rw [hnext, if_pos rfl, hprev, if_neg hne, if_pos rfl, h.head_eq]
      exact ⟨rfl, rfl⟩
    · have hc : c ∈ l := by
        rw [hcs]
        simp
      have hcb : c ≠ b := by
        rintro rfl
        exact hb hc
      obtain ⟨hp, hn⟩ := h.links p c s hcs
      rw [hnext, if_neg hcb, hprev, if_neg hcb, hn]
      refine ⟨?_, rfl⟩
      cases p with
      | nil =>
        rw [if_pos]
        · rfl
        · rw [h.head_eq, hcs]
          rfl
      | cons a p =>
        rw [if_neg, hp, List.getLast?_cons_cons]
        intro he
        rw [h.head_eq, hcs] at he
        have hnodup := h.nodup
        rw [hcs, List.cons_append, List.nodup_cons] at hnodup
        obtain rfl : c = a := Option.some.inj he
        exact hnodup.1 (by simp)

/-- A cell is taken out and its neighbours joined. -/
theorem remove (h : DList next prev head tail (p ++ b :: s))
    (hnext : ∀ x ≠ b, next' x = if some x = prev b then next b else next x)
    (hprev : ∀ x ≠ b, prev' x = if some x = next b then prev b else prev x) :
    DList next' prev' (p ++ s).head? (p ++ s).getLast? (p ++ s) := by
  obtain ⟨hpb, hnb⟩ := h.links p b s rfl
  obtain ⟨hbps, hps⟩ := List.nodup_cons.1 (List.nodup_middle.1 h.nodup)
  have hdis := List.disjoint_of_nodup_append hps
  rw [List.mem_append, not_or] at hbps
  have hfront : ∀ c ∈ s, some c ≠ prev b := by
    intro c hc he
    rw [hpb] at he
    exact hdis (List.mem_of_getLast? he.symm) hc
  have hback : ∀ c ∈ p, some c ≠ next b := by
    intro c hc he
    rw [hnb] at he
    exact hdis hc (List.mem_of_mem_head? he.symm)
  refine ⟨hps, rfl, rfl, fun q c r hl => ?_⟩
  rcases List.append_eq_append_iff.1 hl with ⟨u, rfl, hs⟩ | ⟨u, hp, hs⟩
  · have hc : c ∈ s := by
      rw [hs]
      simp
    have hcb : c ≠ b := by
      rintro rfl
      exact hbps.2 hc
    obtain ⟨hpc, hnc⟩ := h.links (p ++ b :: u) c r (by rw [hs]; simp)
    rw [hnext c hcb, if_neg (hfront c hc), hprev c hcb]
    refine ⟨?_, hnc⟩
    cases u with
    | nil =>
      have hfirst : some c = next b := by
        rw [hnb, hs]
        rfl
      rw [if_pos hfirst, hpb, List.append_nil]
    | cons d u =>
      have hdc : some c ≠ next b := by
        rw [hnb, hs]
        intro he
        obtain rfl : c = d := Option.some.inj he
        rw [hs] at hps
        have hd := (List.nodup_cons.1 hps.of_append_right).1
        exact hd (by simp)
      rw [if_neg hdc, hpc]
      simp [List.getLast?_append, List.getLast?_cons]
  · cases u with
    | nil =>
      obtain rfl : c :: r = s := hs
      rw [List.append_nil] at hp
      subst hp
      have hcb : c ≠ b := by
        rintro rfl
        exact hbps.2 List.mem_cons_self
      obtain ⟨-, hnc⟩ := h.links (p ++ [b]) c r (by simp)
      have hfirst : some c = next b := hnb.symm
      rw [hnext c hcb, if_neg (hfront c List.mem_cons_self), hprev c hcb, if_pos hfirst, hpb]
      exact ⟨rfl, hnc⟩
    | cons d u =>
      rw [List.cons_append, List.cons.injEq] at hs
      obtain ⟨rfl, rfl⟩ := hs
      have hc : c ∈ p := by
        rw [hp]
        simp
      have hcb : c ≠ b := by
        rintro rfl
        exact hbps.1 hc
      obtain ⟨hpc, hnc⟩ := h.links q c (u ++ b :: s) (by rw [hp]; simp)
      rw [hprev c hcb, if_neg (hback c hc), hnext c hcb]
      refine ⟨hpc, ?_⟩
      cases u with
      | nil =>
        have hlast : some c = prev b := by
          rw [hpb, hp, List.getLast?_append]
          rfl
        rw [if_pos hlast, hnb, List.nil_append]
      | cons d u =>
        have hdc : some c ≠ prev b := by
          rw [hpb, hp]
          intro he
          rw [List.getLast?_append, List.getLast?_cons_cons] at he
          have hmem : c ∈ d :: u := by
            rw [List.getLast?_cons] at he
            have hlast : (d :: u).getLast? = some c := by
              rw [List.getLast?_cons]
              simpa using he.symm
            exact List.mem_of_getLast? hlast
          rw [hp] at hps
          have hd := (List.nodup_cons.1 hps.of_append_left.of_append_right).1
          exact hd hmem
        rw [if_neg hdc, hnc]
        rfl

end DList

end Gasnet
