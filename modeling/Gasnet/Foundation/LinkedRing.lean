import Mathlib.Data.List.Chain
import Mathlib.Data.List.Iterate
import Mathlib.Data.List.Nodup
import Mathlib.Logic.Function.Iterate

/-! Doubly linked rings: the links from a cell run through all the others and come back to it. -/
namespace Gasnet

open List (IsChain)

variable {A : Type*} {next prev next' prev' : A → A} {a b c x y z : A} {t l p s : List A}

/-- `y` comes after `x`. -/
def Linked (next prev : A → A) (x y : A) : Prop := next x = y ∧ prev y = x

/-- The ring that starts at `a` and goes on with `t`. -/
structure LinkedRing (next prev : A → A) (a : A) (t : List A) : Prop where
  nodup : (a :: t).Nodup
  chain : IsChain (Linked next prev) (a :: (t ++ [a]))

/-- A chain sees the forward links of all its cells but the last and the back links of all but the
first. -/
theorem chain_congr (h : IsChain (Linked next prev) l)
    (hnext : ∀ x y, x ∈ l → y ∈ l.tail → next x = y → next' x = next x)
    (hprev : ∀ y ∈ l.tail, prev' y = prev y) : IsChain (Linked next' prev') l :=
  h.imp_of_mem_tail_imp fun x y hx hy hxy =>
    ⟨(hnext x y hx hy hxy.1).trans hxy.1, (hprev y hy).trans hxy.2⟩

/-- Following the links of a chain visits its cells in order. -/
theorem chain_iterate (h : IsChain (Linked next prev) (a :: (t ++ [z]))) :
    List.iterate next a (t.length + 1) = a :: t ∧ next^[t.length + 1] a = z := by
  induction t generalizing a with
  | nil => exact ⟨rfl, (List.isChain_pair.1 h).1⟩
  | cons b t ih =>
    obtain ⟨⟨rfl, -⟩, hrest⟩ := List.isChain_cons_cons.1 h
    obtain ⟨hit, hend⟩ := ih hrest
    refine ⟨?_, ?_⟩
    · rw [List.length_cons, List.iterate, hit]
    · rw [List.length_cons, Function.iterate_succ_apply, hend]

namespace LinkedRing

/-- One step round the ring visits every cell once. -/
theorem visits (h : LinkedRing next prev a t) :
    List.iterate next a (t.length + 1) = a :: t ∧ next^[t.length + 1] a = a :=
  chain_iterate h.chain

theorem single (a : A) (hn : next a = a) (hp : prev a = a) : LinkedRing next prev a [] :=
  ⟨List.nodup_singleton a, List.isChain_pair.2 ⟨hn, hp⟩⟩

theorem congr (h : LinkedRing next prev a t) (hnext : ∀ x ∈ a :: t, next' x = next x)
    (hprev : ∀ x ∈ a :: t, prev' x = prev x) : LinkedRing next' prev' a t := by
  refine ⟨h.nodup, chain_congr h.chain (fun x y hx _ _ => hnext x ?_) fun y hy => hprev y ?_⟩
  · simpa [or_comm, or_assoc] using hx
  · simpa [or_comm] using hy

/-- A ring may be entered at any of its cells. -/
theorem rotate (h : LinkedRing next prev a (p ++ b :: s)) :
    LinkedRing next prev b (s ++ a :: p) := by
  refine ⟨?_, ?_⟩
  · have hperm : (a :: (p ++ b :: s)).Perm (b :: (s ++ a :: p)) :=
      @List.perm_append_comm _ (a :: p) (b :: s)
    exact hperm.nodup_iff.1 h.nodup
  · have hchain := h.chain
    rw [List.append_assoc, List.cons_append, List.isChain_cons_split] at hchain
    rw [List.append_assoc, List.cons_append, List.isChain_cons_split]
    exact ⟨hchain.2, hchain.1⟩

/-- From each cell a link goes on to another one, and one comes in. -/
theorem linked (h : LinkedRing next prev a t) (hx : x ∈ a :: t) :
    (∃ y ∈ a :: t, Linked next prev x y) ∧ ∃ z ∈ a :: t, Linked next prev z x := by
  have key : ∀ {x s}, LinkedRing next prev x s →
      (∃ y ∈ x :: s, Linked next prev x y) ∧ ∃ z ∈ x :: s, Linked next prev z x := by
    intro x s hs
    refine ⟨?_, ?_⟩
    · have hchain := hs.chain
      cases s with
      | nil => exact ⟨x, List.mem_singleton_self x, List.isChain_pair.1 hchain⟩
      | cons y s => exact ⟨y, by simp, (List.isChain_cons_cons.1 hchain).1⟩
    · have hchain := hs.chain
      obtain ⟨u, z, hu⟩ := (List.eq_nil_or_concat (x :: s)).resolve_left (List.cons_ne_nil x s)
      rw [← List.cons_append, hu, List.concat_eq_append, List.append_assoc, List.singleton_append,
        List.isChain_append_cons_cons] at hchain
      exact ⟨z, by rw [hu]; simp, hchain.2.1⟩
  rcases List.mem_cons.1 hx with rfl | hx
  · exact key h
  · obtain ⟨p, s, rfl⟩ := List.append_of_mem hx
    have hmem : ∀ y, y ∈ x :: (s ++ a :: p) → y ∈ a :: (p ++ x :: s) := by
      intro y hy
      simp only [List.mem_cons, List.mem_append] at hy ⊢
      tauto
    obtain ⟨⟨y, hy, hxy⟩, z, hz, hzx⟩ := key h.rotate
    exact ⟨⟨y, hmem y hy, hxy⟩, z, hmem z hz, hzx⟩

theorem next_mem (h : LinkedRing next prev a t) (hx : x ∈ a :: t) : next x ∈ a :: t := by
  obtain ⟨⟨y, hy, rfl, -⟩, -⟩ := h.linked hx
  exact hy

theorem prev_mem (h : LinkedRing next prev a t) (hx : x ∈ a :: t) : prev x ∈ a :: t := by
  obtain ⟨-, z, hz, -, rfl⟩ := h.linked hx
  exact hz

theorem prev_next (h : LinkedRing next prev a t) (hx : x ∈ a :: t) : prev (next x) = x := by
  obtain ⟨⟨y, -, rfl, hy⟩, -⟩ := h.linked hx
  exact hy

theorem next_prev (h : LinkedRing next prev a t) (hx : x ∈ a :: t) : next (prev x) = x := by
  obtain ⟨-, z, -, hz, rfl⟩ := h.linked hx
  exact hz

/-- The only cell of a ring is its own neighbour, and no other is. -/
theorem next_eq_self (h : LinkedRing next prev a t) : next a = a ↔ t = [] := by
  cases t with
  | nil => exact ⟨fun _ => rfl, fun _ => (List.isChain_pair.1 h.chain).1⟩
  | cons b t =>
    have hb : next a = b := (List.isChain_cons_cons.1 h.chain).1.1
    refine ⟨fun hself => ?_, nofun⟩
    rw [hb] at hself
    have hnot := (List.nodup_cons.1 h.nodup).1
    rw [hself] at hnot
    exact absurd List.mem_cons_self hnot

section Writes

variable [DecidableEq A]

/-- A new cell behind `a`, so that it is the last one. -/
theorem insert (h : LinkedRing next prev a t) (hb : b ∉ a :: t)
    (hnext : ∀ x, next' x = if x = prev a then b else if x = b then a else next x)
    (hprev : ∀ x, prev' x = if x = a then b else if x = b then prev a else prev x) :
    LinkedRing next' prev' a (t ++ [b]) := by
  have hba : b ≠ a := fun he => hb (he ▸ List.mem_cons_self)
  have hnot : a ∉ t := (List.nodup_cons.1 h.nodup).1
  refine ⟨?_, ?_⟩
  · have hperm : (a :: (t ++ [b])).Perm (b :: a :: t) := List.perm_append_singleton b (a :: t)
    exact hperm.nodup_iff.2 (List.nodup_cons.2 ⟨hb, h.nodup⟩)
  obtain ⟨u, z, hu⟩ := (List.eq_nil_or_concat (a :: t)).resolve_left (List.cons_ne_nil a t)
  rw [List.concat_eq_append] at hu
  have hchain := h.chain
  rw [← List.cons_append, hu, List.append_assoc, List.singleton_append,
    List.isChain_append_cons_cons] at hchain
  obtain ⟨hfront, ⟨hza, haz⟩, -⟩ := hchain
  have hzb : b ≠ z := by
    rintro rfl
    exact hb (by rw [hu]; simp)
  rw [List.append_assoc, ← List.cons_append, hu, List.append_assoc]
  simp only [List.singleton_append, List.isChain_append_cons_cons, List.isChain_pair]
  refine ⟨?_, ⟨?_, ?_⟩, ?_, ?_⟩
  · have htail : (u ++ [z]).tail = t := by rw [← hu, List.tail_cons]
    have hall : ∀ x ∈ u ++ [z], x ≠ b := by
      rintro x hx rfl
      exact hb (hu ▸ hx)
    refine chain_congr hfront (fun x y hx hy hxy => ?_) fun y hy => ?_
    · have hxz : x ≠ prev a := by
        rintro rfl
        rw [haz, hza] at hxy
        exact hnot (htail ▸ hxy ▸ hy)
      rw [hnext, if_neg hxz, if_neg (hall x hx)]
    · have hya : y ≠ a := by
        rintro rfl
        exact hnot (htail ▸ hy)
      rw [hprev, if_neg hya, if_neg (hall y (List.mem_of_mem_tail hy))]
  · rw [hnext, if_pos haz.symm]
  · rw [hprev, if_neg hba, if_pos rfl, haz]
  · rw [hnext, haz, if_neg hzb, if_pos rfl]
  · rw [hprev, if_pos rfl]

/-- Without its first cell the ring starts at the second one. -/
theorem remove_first (h : LinkedRing next prev b (c :: t))
    (hnext : ∀ x ∈ c :: t, next' x = if x = prev b then next b else next x)
    (hprev : ∀ x ∈ c :: t, prev' x = if x = next b then prev b else prev x) :
    LinkedRing next' prev' c t := by
  have hchain := h.chain
  have hnodup := List.nodup_cons.1 h.nodup
  rw [List.cons_append, List.isChain_cons_cons] at hchain
  obtain ⟨⟨hbc, -⟩, hchain⟩ := hchain
  obtain ⟨u, z, hu⟩ := (List.eq_nil_or_concat (c :: t)).resolve_left (List.cons_ne_nil c t)
  rw [List.concat_eq_append] at hu
  rw [← List.cons_append, hu, List.append_assoc, List.singleton_append,
    List.isChain_append_cons_cons] at hchain
  obtain ⟨hfront, ⟨hzb, hbz⟩, -⟩ := hchain
  refine ⟨hnodup.2, ?_⟩
  have hzmem : z ∈ c :: t := by
    rw [hu]
    simp
  rw [← List.cons_append, hu, List.append_assoc, List.singleton_append,
    List.isChain_append_cons_cons]
  have htail : (u ++ [z]).tail = t := by rw [← hu, List.tail_cons]
  refine ⟨chain_congr hfront (fun x y hx hy hxy => ?_) fun y hy => ?_, ⟨?_, ?_⟩,
    List.isChain_singleton c⟩
  · have hxz : x ≠ prev b := by
      rintro rfl
      rw [hbz, hzb] at hxy
      exact hnodup.1 (List.mem_cons_of_mem _ (htail ▸ hxy ▸ hy))
    rw [hnext x (hu ▸ hx), if_neg hxz]
  · have hyc : y ≠ next b := by
      rintro rfl
      rw [hbc] at hy
      exact (List.nodup_cons.1 hnodup.2).1 (htail ▸ hy)
    rw [hprev y (List.mem_cons_of_mem _ (htail ▸ hy)), if_neg hyc]
  · rw [hnext z hzmem, if_pos hbz.symm, hbc]
  · rw [hprev c List.mem_cons_self, if_pos hbc.symm, hbz]

/-- Without another cell it still starts where it did. -/
theorem remove (h : LinkedRing next prev a (p ++ b :: s))
    (hnext : ∀ x ≠ b, next' x = if x = prev b then next b else next x)
    (hprev : ∀ x ≠ b, prev' x = if x = next b then prev b else prev x) :
    LinkedRing next' prev' a (p ++ s) := by
  have hring := h.rotate
  have hne : ∀ x ∈ s ++ a :: p, x ≠ b := by
    rintro x hx rfl
    exact (List.nodup_cons.1 hring.nodup).1 hx
  cases s with
  | nil =>
    rw [List.append_nil]
    exact hring.remove_first (fun x hx => hnext x (hne x hx)) fun x hx => hprev x (hne x hx)
  | cons c s =>
    have hrest : LinkedRing next' prev' c (s ++ a :: p) :=
      hring.remove_first (fun x hx => hnext x (hne x hx)) fun x hx => hprev x (hne x hx)
    exact hrest.rotate

end Writes

end LinkedRing

end Gasnet
