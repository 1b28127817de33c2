import Mathlib.Data.List.Nodup

/-! A completion counter: work is started and finished in any order, each finisher compares
the count it reached with the number started, and the one that finds them equal clears a bit.
A credit taken when the bit is armed keeps the two apart until all work has been started. -/
namespace Gasnet

/-- `flight` holds the counts of finishers that have not compared yet. How often the bit was
armed and cleared is history. -/
structure Credit where
  started : Nat
  finished : Nat
  flight : List Nat
  live : Bool
  armed : Nat
  cleared : Nat

namespace Credit

/-- What one step of the surrounding system may do to a counter. -/
inductive Move : Credit → Credit → Prop
  | stay {c : Credit} : Move c c
  | arm {c : Credit} (hlive : c.live = false) :
      Move c { c with started := c.started + 1, live := true, armed := c.armed + 1 }
  | start {c : Credit} {n : Nat} (hopen : c.finished < c.started) :
      Move c { c with started := c.started + n }
  | finish {c : Credit} {n : Nat} (hn : 0 < n) (hle : c.finished + n ≤ c.started) :
      Move c { c with finished := c.finished + n, flight := (c.finished + n) :: c.flight }
  | clear {c : Credit} {l : List Nat} (hm : c.flight.Perm (c.started :: l)) :
      Move c { c with flight := l, live := false, cleared := c.cleared + 1 }
  | pass {c : Credit} {m : Nat} {l : List Nat} (hm : c.flight.Perm (m :: l))
      (hne : m ≠ c.started) : Move c { c with flight := l }
  | reset {c : Credit} (hlive : c.live = false) :
      Move c { c with started := 0, finished := 0, flight := [] }

/-- The bit is set while work is outstanding, and then until the last finisher compares. -/
structure Inv (c : Credit) : Prop where
  le : c.finished ≤ c.started
  nodup : c.flight.Nodup
  bound : ∀ m ∈ c.flight, m ≤ c.finished
  live : c.live = true ↔ c.finished < c.started ∨ c.started ∈ c.flight
  once : c.armed = c.cleared + if c.live then 1 else 0

variable {c d : Credit}

theorem Inv.done (h : c.Inv) (hlive : c.live = false) :
    c.finished = c.started ∧ c.started ∉ c.flight := by
  have hnot : ¬ (c.finished < c.started ∨ c.started ∈ c.flight) := by
    intro hor
    rw [h.live.mpr hor] at hlive
    exact Bool.noConfusion hlive
  have hle := h.le
  exact ⟨by omega, fun hm => hnot (Or.inr hm)⟩

theorem inv_move (h : Move c d) (hc : c.Inv) : d.Inv := by
  have hle := hc.le
  cases h with
  | stay => exact hc
  | arm hlive =>
    obtain ⟨hdone, _⟩ := hc.done hlive
    have honce := hc.once
    rw [hlive] at honce
    refine ⟨by simp; omega, hc.nodup, hc.bound, ?_, ?_⟩
    · simp only [true_iff]
      exact Or.inl (by omega)
    · simpa using honce
  | start hopen =>
    have hlive := hc.live.mpr (Or.inl hopen)
    refine ⟨by simp; omega, hc.nodup, hc.bound, ?_, hc.once⟩
    simp only [hlive, true_iff]
    exact Or.inl (by omega)
  | @finish n hn hlen =>
    have hlive := hc.live.mpr (Or.inl (by omega))
    refine ⟨hlen, List.nodup_cons.mpr ⟨?_, hc.nodup⟩, ?_, ?_, hc.once⟩
    · intro hm
      have := hc.bound _ hm
      omega
    · intro m hm
      simp only [List.mem_cons] at hm
      rcases hm with rfl | hm
      · exact Nat.le_refl _
      · exact Nat.le_trans (hc.bound m hm) (Nat.le_add_right _ _)
    · simp only [hlive, true_iff, List.mem_cons]
      rcases Nat.lt_or_ge (c.finished + n) c.started with hlt | hge
      · exact Or.inl hlt
      · exact Or.inr (Or.inl (by omega))
  | @clear l hm =>
    have hin : c.started ∈ c.flight := hm.mem_iff.mpr List.mem_cons_self
    have hlive := hc.live.mpr (Or.inr hin)
    have hnodup := List.nodup_cons.mp (hm.nodup hc.nodup)
    have hall := hc.bound _ hin
    have honce := hc.once
    rw [hlive] at honce
    refine ⟨hle, hnodup.2, ?_, ?_, ?_⟩
    · intro m hm'
      exact hc.bound m (hm.mem_iff.mpr (List.mem_cons_of_mem _ hm'))
    · simp only [Bool.false_eq_true, false_iff, not_or]
      exact ⟨by omega, hnodup.1⟩
    · simpa using honce
  | @pass m l hm hne =>
    have hnodup := List.nodup_cons.mp (hm.nodup hc.nodup)
    refine ⟨hle, hnodup.2, ?_, ?_, hc.once⟩
    · intro x hx
      exact hc.bound x (hm.mem_iff.mpr (List.mem_cons_of_mem _ hx))
    · have hiff : c.started ∈ c.flight ↔ c.started ∈ l := by
        rw [hm.mem_iff, List.mem_cons]
        exact or_iff_right (Ne.symm hne)
      simpa only [hiff] using hc.live
  | reset hlive =>
    have honce := hc.once
    refine ⟨Nat.le_refl _, List.nodup_nil, by simp, ?_, honce⟩
    simp [hlive]

end Credit
end Gasnet
