import Gasnet.Event.TestQueues
import Mathlib.Data.List.Perm.Basic

/-! The bulk free at the end of `gasnete_test_array`: every queued op is pushed once, on the
list of its owner. -/
namespace Gasnet.Event

variable {O T : Type*} [DecidableEq O] [DecidableEq T] {ops : Ops O T} {l : Locals O T}
  {i j n fuel : Nat} {o : O} {R D xs ys : List O} {k : Kind} {t me : T} {b : Bool}
  {h h' : FreeLists O T} {F : Kind → T → Bool → List O} {q : Queue O} {cur e : Option O}

/-- One of the free lists of a thread: its own, or the one other threads push on. -/
def FreeLists.list (h : FreeLists O T) (k : Kind) (t : T) (foreign : Bool) : Option O :=
  if foreign then h.foreign k t else h.free k t

/-- Ops that thread `me` pushes on this list. -/
def pushedOn (ops : Ops O T) (me : T) (k : Kind) (t : T) (foreign : Bool) (D : List O) :
    List O :=
  D.filter fun o => ops.kind o = k ∧ ops.owner o = t ∧ foreign = decide (t ≠ me)

/-- The lists are what they were, with the ops of `D` in front. -/
def Freed (ops : Ops O T) (me : T) (F : Kind → T → Bool → List O) (h : FreeLists O T)
    (D : List O) : Prop :=
  ∀ k t b, ∃ p, Chain h.next (h.list k t b) (p ++ F k t b) none ∧
    p.Perm (pushedOn ops me k t b D)

omit [DecidableEq O] in
theorem mem_pushedOn (ho : o ∈ pushedOn ops me k t b D) : o ∈ D :=
  (List.mem_filter.mp ho).1

theorem bulkFree_list (me : T) (k : Kind) (t : T) (q : Queue O) (h : FreeLists O T) (k' : Kind)
    (t' : T) (b : Bool) :
    (h.bulkFree me k t q).list k' t' b =
      if k' = k ∧ t' = t ∧ b = decide (t ≠ me) then q.head else h.list k' t' b := by
  unfold FreeLists.bulkFree FreeLists.list
  by_cases hk : k' = k
  · subst hk
    by_cases ht : t' = t
    · subst ht
      by_cases hme : t' = me <;> cases b <;> simp [hme]
    · by_cases hme : t = me <;> cases b <;> simp [hme, ht]
      rw [hme] at ht
      rw [if_neg ht]
      exact Function.update_of_ne ht _ _
  · by_cases hme : t = me <;> cases b <;> simp [hme, hk]

theorem bulkFree_next (me : T) (k : Kind) (t : T) (q : Queue O) (h : FreeLists O T) :
    (h.bulkFree me k t q).next = q.close h.next (h.list k t (decide (t ≠ me))) := by
  unfold FreeLists.bulkFree FreeLists.list
  by_cases hme : t = me <;> simp [hme]

/-- A bulk free puts the ops of one owner in front of the right list. -/
theorem bulkFree_freed (hF : Freed ops me F h D) (hq : Chain h.next q.head xs e)
    (htail : q.tail = xs.getLast?) (hnodup : xs.Nodup) (hne : xs ≠ [])
    (hkind : ∀ o ∈ xs, ops.kind o = k ∧ ops.owner o = t) (hD : ∀ o ∈ xs, o ∉ D)
    (hdis : ∀ o ∈ xs, ∀ k t b, o ∉ F k t b) :
    Freed ops me F (h.bulkFree me k t q) (D ++ xs) := by
  intro k' t' b
  obtain ⟨p, hp, hperm⟩ := hF k' t' b
  have hout : ∀ o ∈ xs, o ∉ p ++ F k' t' b := by
    intro o ho hm
    rcases List.mem_append.mp hm with hm | hm
    · exact hD o ho (mem_pushedOn (hperm.mem_iff.mp hm))
    · exact hdis o ho k' t' b hm
  rw [bulkFree_next, bulkFree_list]
  by_cases hlist : k' = k ∧ t' = t ∧ b = decide (t ≠ me)
  · obtain ⟨rfl, rfl, rfl⟩ := hlist
    rw [if_pos ⟨rfl, rfl, rfl⟩]
    refine ⟨xs ++ p, ?_, ?_⟩
    · rw [List.append_assoc]
      exact Queue.close_front hq htail hnodup hne hp hout
    · have hall : pushedOn ops me k' t' (decide (t' ≠ me)) xs = xs := by
        refine List.filter_eq_self.mpr fun o ho => ?_
        simp [(hkind o ho).1, (hkind o ho).2]
      rw [pushedOn, List.filter_append]
      refine List.Perm.trans List.perm_append_comm (List.Perm.append hperm ?_)
      exact List.Perm.of_eq hall.symm
  · rw [if_neg hlist]
    refine ⟨p, Queue.close_chain htail hp hout, ?_⟩
    have hnone : pushedOn ops me k' t' b xs = [] := by
      refine List.filter_eq_nil_iff.mpr fun o ho => ?_
      simp only [decide_eq_true_eq]
      rintro ⟨hk, ht, hb⟩
      obtain ⟨rfl, rfl⟩ := hkind o ho
      exact hlist ⟨hk.symm, ht.symm, by rw [hb, ht]⟩
    rw [pushedOn, List.filter_append]
    exact hperm.trans (List.Perm.of_eq (by rw [show xs.filter _ = [] from hnone,
      List.append_nil, pushedOn]))

theorem bulkFree_keeps (htail : q.tail = xs.getLast?) :
    Keeps xs h.next (h.bulkFree me k t q).next := by
  intro g m v hm hdis
  rw [bulkFree_next]
  exact Queue.close_chain htail hm hdis

omit [DecidableEq O] [DecidableEq T] in
theorem walk_eq {next : O → Option O} (hc : Chain next cur xs none) (hfuel : xs.length ≤ fuel) :
    walk next fuel cur = xs := by
  induction xs generalizing cur fuel with
  | nil =>
    obtain rfl : cur = none := hc
    cases fuel <;> rfl
  | cons x xs ih =>
    obtain ⟨rfl, hc⟩ := hc
    cases fuel with
    | zero => simp at hfuel
    | succ fuel =>
      rw [walk, ih hc (by simpa using hfuel)]

/-- The one-by-one free follows the links it read before each push. -/
theorem freeEach_freed (hF : Freed ops me F h D) (hc : Chain h.next cur xs none)
    (hnodup : xs.Nodup) (hkind : ∀ o ∈ xs, ops.kind o = k) (hD : ∀ o ∈ xs, o ∉ D)
    (hdis : ∀ o ∈ xs, ∀ k t b, o ∉ F k t b) (hfuel : xs.length ≤ fuel) (done : List O) :
    ∃ h', h.freeEach ops me k fuel cur done = some (h', done ++ xs) ∧
      Freed ops me F h' (D ++ xs) ∧ Keeps xs h.next h'.next := by
  induction xs generalizing cur fuel h D done with
  | nil =>
    obtain rfl : cur = none := hc
    refine ⟨h, ?_, by rwa [List.append_nil], fun _ _ _ hm _ => hm⟩
    cases fuel <;> simp [FreeLists.freeEach]
  | cons x xs ih =>
    obtain ⟨rfl, hc⟩ := hc
    rw [List.nodup_cons] at hnodup
    cases fuel with
    | zero => simp at hfuel
    | succ fuel =>
      have hone : Freed ops me F (h.bulkFree me k (ops.owner x) ⟨some x, some x⟩) (D ++ [x]) := by
        refine bulkFree_freed hF (e := h.next x) ⟨rfl, rfl⟩ rfl (by simp) (by simp) ?_ ?_ ?_
        · intro o ho
          rw [List.mem_singleton.mp ho]
          exact ⟨hkind x List.mem_cons_self, rfl⟩
        · intro o ho
          rw [List.mem_singleton.mp ho]
          exact hD x List.mem_cons_self
        · intro o ho
          rw [List.mem_singleton.mp ho]
          exact hdis x List.mem_cons_self
      have hkeep : Keeps [x] h.next (h.bulkFree me k (ops.owner x) ⟨some x, some x⟩).next :=
        bulkFree_keeps rfl
      have hc' := hkeep _ _ _ hc fun a ha => List.mem_singleton.mp ha ▸ hnodup.1
      have hD' : ∀ o ∈ xs, o ∉ D ++ [x] := by
        intro o ho hm
        rcases List.mem_append.mp hm with hm | hm
        · exact hD o (List.mem_cons_of_mem _ ho) hm
        · exact hnodup.1 (List.mem_singleton.mp hm ▸ ho)
      obtain ⟨h', heq, hfreed, hkeep'⟩ := ih (D := D ++ [x]) hone hc' hnodup.2
        (fun o ho => hkind o (List.mem_cons_of_mem _ ho)) hD'
        (fun o ho => hdis o (List.mem_cons_of_mem _ ho)) (by simpa using hfuel) (done ++ [x])
      refine ⟨h', ?_, ?_, ?_⟩
      · rw [FreeLists.freeEach, heq, List.append_assoc]
        rfl
      · rwa [List.append_assoc] at hfreed
      · intro g m v hm hx
        refine hkeep' g m v (hkeep g m v hm ?_) fun a ha => hx a (List.mem_cons_of_mem _ ha)
        exact fun a ha => List.mem_singleton.mp ha ▸ hx x List.mem_cons_self

omit [DecidableEq O] in
theorem firstOwner_none (h : firstOwner ops R k = none) : queued ops R k b = [] := by
  refine List.filter_eq_nil_iff.mpr fun o ho => ?_
  have hf : R.find? (fun o => ops.kind o = k) = none := Option.map_eq_none_iff.mp h
  have := List.find?_eq_none.mp hf o ho
  simp only [decide_eq_true_eq] at this ⊢
  exact fun hk => this hk.1

theorem freeMain_freed (hq : Queued ops l R) (hF : Freed ops me F h D)
    (hhold : (l.queue k false).Holds h.next (queued ops R k false))
    (hD : ∀ o ∈ queued ops R k false, o ∉ D)
    (hdis : ∀ o ∈ R, ∀ k t b, o ∉ F k t b) (hfuel : (queued ops R k false).length ≤ fuel) :
    ∃ h', freeMain me k fuel l h = (h', queued ops R k false) ∧
      Freed ops me F h' (D ++ queued ops R k false) ∧
      Keeps (queued ops R k false) h.next h'.next := by
  have hhead := hhold.head_eq
  have hmem : ∀ o ∈ queued ops R k false, o ∈ R := fun o ho => (mem_queued.mp ho).1
  cases hxs : queued ops R k false with
  | nil =>
    rw [hxs] at hhead
    refine ⟨h, ?_, by rwa [List.append_nil], fun _ _ _ hm _ => hm⟩
    rw [List.head?_nil] at hhead
    simp [freeMain, hhead]
  | cons x xs =>
    rw [← hxs]
    rw [hxs, List.head?_cons] at hhead
    cases hfirst : firstOwner ops R k with
    | none =>
      rw [firstOwner_none hfirst] at hxs
      cases hxs
    | some t =>
      have hidx := (hq.threadidx k).trans hfirst
      have hown : ∀ o ∈ queued ops R k false, ops.kind o = k ∧ ops.owner o = t := by
        intro o ho
        obtain ⟨_, hk, hb⟩ := mem_queued.mp ho
        rw [hfirst] at hb
        refine ⟨hk, ?_⟩
        have hsome := of_decide_eq_false hb
        exact (Option.some.inj (not_not.mp hsome)).symm
      refine ⟨h.bulkFree me k t (l.queue k false), ?_, ?_, bulkFree_keeps hhold.tail⟩
      · have hwalk := walk_eq hhold.chain hfuel
        rw [hhead] at hwalk
        simp [freeMain, hhead, hidx, hwalk]
      · exact bulkFree_freed hF hhold.chain hhold.tail hhold.nodup (by simp [hxs]) hown hD
          fun o ho => hdis o (hmem o ho)

omit [DecidableEq O] in
/-- The four queues hold the ops of `R` between them. -/
theorem queued_perm (h : R.Nodup) :
    (queued ops R .eop false ++ queued ops R .iop false ++ queued ops R .eop true ++
      queued ops R .iop true).Perm R := by
  rw [List.perm_ext_iff_of_nodup _ h]
  · intro o
    simp only [List.mem_append, mem_queued]
    by_cases hfirst : firstOwner ops R (ops.kind o) = some (ops.owner o)
    · cases hk : ops.kind o <;> rw [hk] at hfirst <;> simp [hfirst]
    · cases hk : ops.kind o <;> rw [hk] at hfirst <;> simp [hfirst]
  · simp only [List.nodup_append, List.mem_append]
    have hn : ∀ k b, (queued ops R k b).Nodup := queued_nodup h
    refine ⟨⟨⟨hn _ _, hn _ _, ?_⟩, hn _ _, ?_⟩, hn _ _, ?_⟩
    · rintro a ha b hb rfl
      exact queued_disjoint (by simp) ha hb
    · rintro a (ha | ha) b hb rfl <;> exact queued_disjoint (by simp) ha hb
    · rintro a ((ha | ha) | ha) b hb rfl <;> exact queued_disjoint (by simp) ha hb

end Gasnet.Event
