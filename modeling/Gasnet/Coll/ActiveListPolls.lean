import Mathlib.Data.List.Infix
import Gasnet.Coll.ActiveListRuns

/-! What the polls do: the traversals, the events that are signalled and the records that are freed. -/
namespace Gasnet.ActiveList

variable {T A : Type*} [DecidableEq T] [DecidableEq A] {s s' : State T A} {t t' : T} {op : A}
  {next last : Option A} {rest : List A}

/-- The events that ops still have, and what is done for the flags that have been reported. -/
structure Signals (s : State T A) : Prop where
  eop_active : ∀ a ∈ s.active, s.eop a = if s.number a ∈ s.signalled then none else some (s.number a)
  eop_locked : ∀ t a, (s.sub t).Locks → (s.sub t).op = some a → s.eop a = some (s.number a)
  nodup : s.signalled.Nodup
  signalled : ∀ n, n ∈ s.signalled ↔ ∃ r, (n, r) ∈ s.reported ∧ r.complete = true
  destroyed : ∀ n, n ∈ s.destroyed ↔ ∃ r, (n, r) ∈ s.reported ∧ r.inactive = true
  submitted : ∀ n r, (n, r) ∈ s.reported → n ∈ s.submitted

omit [DecidableEq T] [DecidableEq A] in
theorem signals_initial (list : Links Unit A) (eop : A → Option Nat) :
    Signals (State.initial list eop : State T A) where
  eop_active _ := nofun
  eop_locked _ _ := nofun
  nodup := List.nodup_nil
  signalled _ := by simp [State.initial]
  destroyed _ := by simp [State.initial]
  submitted _ _ := nofun

theorem signals_step (h : Step s t s') (hp : Places s) (hn : Numbered s) (hs : Signals s)
    (hop : ∀ op next last r, s.pc = .polled op next last r → op ∈ s.active) : Signals s' := by
  cases h with
  | @create op others hmay hidle hfree =>
    obtain ⟨hnew, hheld⟩ := hp.taken hfree
    refine ⟨?_, ?_, hs.nodup, hs.signalled, hs.destroyed, hs.submitted⟩
    · intro a ha
      dsimp only at ha ⊢
      have hne : a ≠ op := by
        rintro rfl
        exact hnew ha
      simp only [ne_eq, hne, not_false_eq_true, Function.update_of_ne]
      exact hs.eop_active a ha
    · intro t' a hlocks ha
      dsimp only at hlocks ha ⊢
      by_cases ht : t' = t
      · rw [ht, Function.update_self] at hlocks
        exact hlocks.elim
      · rw [Function.update_of_ne ht] at hlocks ha
        have hne : a ≠ op := by
          rintro rfl
          exact hheld t' ha
        rw [Function.update_of_ne hne, Function.update_of_ne hne]
        exact hs.eop_locked t' a hlocks ha
  | @lock op hsub hlock =>
    have hplace : s.place op = .held t := (hp.held t op).1 (by rw [hsub]; rfl)
    refine ⟨?_, ?_, hs.nodup, hs.signalled, hs.destroyed, hs.submitted⟩
    · intro a ha
      dsimp only at ha ⊢
      have hne : a ≠ op := by
        rintro rfl
        rw [hp.active, hplace] at ha
        cases ha
      rw [Function.update_of_ne hne]
      exact hs.eop_active a ha
    · intro t' a hlocks ha
      dsimp only at hlocks ha ⊢
      by_cases ht : t' = t
      · rw [ht, Function.update_self] at ha
        rw [← Option.some.inj ha, Function.update_self]
      · rw [Function.update_of_ne ht, ← hp.lock, hlock] at hlocks
        cases hlocks
  | @link op hsub =>
    refine ⟨hs.eop_active, ?_, hs.nodup, hs.signalled, hs.destroyed, hs.submitted⟩
    intro t' a hlocks ha
    dsimp only at hlocks ha ⊢
    by_cases ht : t' = t
    · rw [ht, Function.update_self] at ha
      exact hs.eop_locked t a (by rw [hsub]; trivial) (by rw [hsub]; exact ha)
    · rw [Function.update_of_ne ht] at hlocks ha
      exact hs.eop_locked t' a hlocks ha
  | @join op hsub =>
    have hheld : (s.sub t).op = some op := by
      rw [hsub]
      rfl
    refine ⟨?_, ?_, hs.nodup, hs.signalled, hs.destroyed,
      fun n r hr => List.mem_append_left _ (hs.submitted n r hr)⟩
    · intro a ha
      rcases List.mem_append.1 ha with ha | ha
      · exact hs.eop_active a ha
      · rw [List.mem_singleton] at ha
        rw [ha, if_neg]
        · exact hs.eop_locked t op (by rw [hsub]; trivial) hheld
        · intro hsig
          obtain ⟨r, hr, -⟩ := (hs.signalled _).1 hsig
          exact (hn.held t op hheld).2 (hs.submitted _ r hr)
    · intro t' a hlocks ha
      dsimp only at hlocks ha ⊢
      by_cases ht : t' = t
      · rw [ht, Function.update_self] at hlocks
        exact hlocks.elim
      · rw [Function.update_of_ne ht] at hlocks ha
        exact hs.eop_locked t' a hlocks ha
  | enter | first | poll | result | pass | leave =>
    exact ⟨hs.eop_active, hs.eop_locked, hs.nodup, hs.signalled, hs.destroyed, hs.submitted⟩
  | @complete op next last r hpoll hpc hlock =>
    have hmem := hop op next last r hpc
    have heop := hs.eop_active op hmem
    have hsub := (hn.mem_live hmem).1
    have hsignalled : (if r.complete then s.signalled ++ (s.eop op).toList else s.signalled) =
        if r.complete = true ∧ s.number op ∉ s.signalled then s.signalled ++ [s.number op]
          else s.signalled := by
      rw [heop]
      by_cases hsig : s.number op ∈ s.signalled
      · simp [hsig]
      · simp [hsig]
    have hreported : ∀ (P : Result → Prop) n, (∃ q, (n, q) ∈ s.reported ++ [(s.number op, r)] ∧ P q) ↔
        (∃ q, (n, q) ∈ s.reported ∧ P q) ∨ n = s.number op ∧ P r := by
      intro P n
      constructor
      · rintro ⟨q, hq, hP⟩
        rcases List.mem_append.1 hq with hq | hq
        · exact Or.inl ⟨q, hq, hP⟩
        · cases List.mem_singleton.1 hq
          exact Or.inr ⟨rfl, hP⟩
      · rintro (⟨q, hq, hP⟩ | ⟨rfl, hP⟩)
        · exact ⟨q, List.mem_append_left _ hq, hP⟩
        · exact ⟨r, List.mem_append_right _ (List.mem_singleton_self _), hP⟩
    rw [State.complete, hsignalled]
    refine ⟨?_, ?_, ?_, ?_, ?_, ?_⟩
    · intro a ha
      dsimp only at ha ⊢
      have ha' : a ∈ s.active := by
        split at ha
        · exact List.mem_of_mem_erase ha
        · exact ha
      have hiff : s.number a ∈ (if r.complete = true ∧ s.number op ∉ s.signalled then
          s.signalled ++ [s.number op] else s.signalled) ↔
            s.number a ∈ s.signalled ∨ a = op ∧ r.complete = true := by
        split
        · rename_i hr
          rw [List.mem_append, List.mem_singleton]
          exact or_congr_right ⟨fun h => ⟨hn.number_inj ha' hmem h, hr.1⟩, fun h => by rw [h.1]⟩
        · rename_i hr
          refine ⟨Or.inl, ?_⟩
          rintro (h | ⟨rfl, h⟩)
          · exact h
          · by_contra hnot
            exact hr ⟨h, hnot⟩
      by_cases heq : a = op
      · subst heq
        cases hr : r.complete with
        | false =>
          rw [if_neg Bool.false_ne_true]
          simp only [reduceCtorEq, false_and, if_false]
          exact hs.eop_active a ha'
        | true =>
          rw [hr] at hiff
          rw [if_pos rfl, Function.update_self, if_pos (hiff.2 (Or.inr ⟨rfl, rfl⟩))]
      · have hkeep : (if r.complete then Function.update s.eop op none else s.eop) a = s.eop a := by
          split
          · exact Function.update_of_ne heq _ _
          · rfl
        rw [hkeep, hs.eop_active a ha']
        simp only [hiff, heq, false_and, or_false]
    · intro t' a hlocks ha
      dsimp only at hlocks ha ⊢
      have hne : a ≠ op := by
        rintro rfl
        rw [hp.active, (hp.held t' a).1 ha] at hmem
        cases hmem
      have hkeep : (if r.complete then Function.update s.eop op none else s.eop) a = s.eop a := by
        split
        · exact Function.update_of_ne hne _ _
        · rfl
      rw [hkeep]
      exact hs.eop_locked t' a hlocks ha
    · dsimp only
      split
      · rename_i hr
        rw [← List.concat_eq_append, List.nodup_concat]
        exact ⟨hr.2, hs.nodup⟩
      · exact hs.nodup
    · intro n
      dsimp only
      rw [hreported (fun q => q.complete = true), ← hs.signalled]
      split
      · rename_i hr
        rw [List.mem_append, List.mem_singleton]
        exact or_congr_right ⟨fun h => ⟨h, hr.1⟩, And.left⟩
      · rename_i hr
        refine ⟨Or.inl, ?_⟩
        rintro (h | ⟨rfl, h⟩)
        · exact h
        · by_contra hnot
          exact hr ⟨h, hnot⟩
    · intro n
      dsimp only
      rw [hreported (fun q => q.inactive = true), ← hs.destroyed]
      split
      · rename_i hr
        rw [List.mem_append, List.mem_singleton]
        exact or_congr_right ⟨fun h => ⟨h, hr⟩, And.left⟩
      · rename_i hr
        exact ⟨Or.inl, fun h => h.elim id fun h => absurd h.2 hr⟩
    · intro n q hq
      rcases List.mem_append.1 hq with hq | hq
      · exact hs.submitted n q hq
      · cases List.mem_singleton.1 hq
        exact hsub

/-- The records of `rest` stand together on the list, and hold what a traversal has still to poll. -/
def State.Left (s : State T A) (rest : List A) : Prop :=
  rest <:+: s.active ∧ s.present = s.visited ++ rest.map s.number

/-- After `op` the traversal goes on with `rest`, or ends there. -/
def Goes (rest : List A) (op : A) (next last : Option A) : Prop :=
  op ∉ rest ∧ (rest = [] → last = some op) ∧
    (rest ≠ [] → next = rest.head? ∧ last = rest.getLast?)

/-- Where the thread that polls is in its traversal. -/
def State.At (s : State T A) : Pc A → Prop
  | .out | .starting | .ending => s.visited = s.present
  | .turn next last => ∃ rest, s.Left rest ∧ rest ≠ [] ∧ next = rest.head? ∧ last = rest.getLast?
  | .polling op next last | .polled op next last _ =>
    op ∈ s.active ∧ ∃ rest, s.Left rest ∧ Goes rest op next last
  | .passed op next last => ∃ rest, s.Left rest ∧ Goes rest op next last

structure Traversing (s : State T A) : Prop where
  idle : s.poll_lock = none → s.pc = .out
  nodup : s.present.Nodup
  at_pc : s.At s.pc

omit [DecidableEq T] [DecidableEq A] in
theorem traversing_initial (list : Links Unit A) (eop : A → Option Nat) :
    Traversing (State.initial list eop : State T A) := ⟨fun _ => rfl, List.nodup_nil, rfl⟩

omit [DecidableEq T] [DecidableEq A] in
/-- What other threads do leaves a traversal where it is. -/
theorem State.At.mono {s s' : State T A} {pc : Pc A} (h : s.At pc)
    (hactive : s.active <+: s'.active) (hnumber : ∀ a ∈ s.active, s'.number a = s.number a)
    (hpresent : s'.present = s.present) (hvisited : s'.visited = s.visited) : s'.At pc := by
  have hleft : ∀ rest, s.Left rest → s'.Left rest := by
    rintro rest ⟨hwithin, hrest⟩
    refine ⟨hwithin.trans hactive.isInfix, ?_⟩
    rw [hpresent, hvisited, hrest]
    congr 1
    apply List.map_congr_left
    intro a ha
    exact (hnumber a (hwithin.subset ha)).symm
  cases pc with
  | out | starting | ending => exact hvisited.trans (h.trans hpresent.symm)
  | turn next last =>
    obtain ⟨rest, hl, hrest⟩ := h
    exact ⟨rest, hleft rest hl, hrest⟩
  | polling op next last | polled op next last r =>
    obtain ⟨hop, rest, hl, hgoes⟩ := h
    exact ⟨hactive.subset hop, rest, hleft rest hl, hgoes⟩
  | passed op next last =>
    obtain ⟨rest, hl, hgoes⟩ := h
    exact ⟨rest, hleft rest hl, hgoes⟩

omit [DecidableEq T] [DecidableEq A] in
/-- A record that is polled is on the list. -/
theorem Traversing.active {r : Result} (h : Traversing s) (hpc : s.pc = .polled op next last r) :
    op ∈ s.active := by
  have hat := h.at_pc
  rw [hpc] at hat
  exact hat.1

omit [DecidableEq T] [DecidableEq A] in
/-- The tail pointer of a list is in its last record. -/
theorem endOf_getLast (l : Link Unit A) (xs : List A) {a : A} (h : xs.getLast? = some a) :
    Links.endOf l xs = .next a := by
  induction xs generalizing l with
  | nil => cases h
  | cons x xs ih =>
    cases xs with
    | nil => exact congrArg Link.next (Option.some.inj h)
    | cons y ys => exact ih (.next x) (by rwa [List.getLast?_cons_cons] at h)

omit [DecidableEq T] [DecidableEq A] in
/-- Within the list the link of a record is to the next. -/
theorem Linked.next_eq (h : Linked s) {a b : A} {ys : List A} (hwithin : a :: b :: ys <:+: s.active) :
    s.list.next a = some b := by
  obtain ⟨before, after, hsplit⟩ := hwithin
  have hpath := h.path
  rw [← hsplit, List.append_assoc] at hpath
  exact hpath.split.2.2.2.1

omit [DecidableEq T] in
/-- What stands together stays together when another record is deleted. -/
theorem infix_erase {xs : List A} (h : rest <:+: xs) (hop : op ∉ rest) (hnodup : xs.Nodup) :
    rest <:+: xs.erase op := by
  obtain ⟨before, after, rfl⟩ := h
  by_cases hb : op ∈ before
  · rw [List.append_assoc, List.erase_append_left _ hb, ← List.append_assoc]
    exact List.infix_append _ _ _
  · rw [List.append_assoc, List.erase_append_right _ hb, List.erase_append_right _ hop, ← List.append_assoc]
    exact List.infix_append _ _ _

theorem traversing_step (h : Step s t s') (hp : Places s) (hl : Linked s) (hn : Numbered s)
    (ht : Traversing s) : Traversing s' := by
  have hat := ht.at_pc
  cases h with
  | @create op others hmay hidle hfree =>
    refine ⟨ht.idle, ht.nodup, hat.mono (List.prefix_refl _) ?_ rfl rfl⟩
    intro a ha
    exact Function.update_of_ne (by rintro rfl; exact (hp.taken hfree).1 ha) _ _
  | lock hsub hlock => exact ⟨ht.idle, ht.nodup, hat.mono (List.prefix_refl _) (fun _ _ => rfl) rfl rfl⟩
  | link hsub => exact ⟨ht.idle, ht.nodup, hat.mono (List.prefix_refl _) (fun _ _ => rfl) rfl rfl⟩
  | join hsub => exact ⟨ht.idle, ht.nodup, hat.mono (List.prefix_append _ _) (fun _ _ => rfl) rfl rfl⟩
  | enter hidle hin hpoll =>
    rw [ht.idle hpoll] at hat
    exact ⟨nofun, ht.nodup, hat⟩
  | first hpoll hpc hlock =>
    refine ⟨fun h => absurd (hpoll.symm.trans h) nofun, hn.submitted_nodup.filter _, ?_⟩
    have hpath := hl.path
    rw [hlock] at hpath
    dsimp only
    cases hactive : s.active with
    | nil =>
      have hhead : s.list.head () = none := by
        rw [hactive] at hpath
        exact hpath
      rw [if_pos hhead]
      show [] = s.live
      rw [← hn.live, hactive]
      rfl
    | cons a xs =>
      have hhead : s.list.head () = some a := by
        rw [hactive] at hpath
        exact hpath.1
      obtain ⟨z, hz⟩ : ∃ z, s.active.getLast? = some z := by
        rw [hactive]
        exact ⟨_, List.getLast?_eq_some_getLast (List.cons_ne_nil a xs)⟩
      have hlast : s.last = s.active.getLast? := by
        rw [State.last, hl.tail, endOf_getLast _ _ hz, hz]
      rw [if_neg (by rw [hhead]; exact nofun)]
      rw [hactive] at hlast
      refine ⟨a :: xs, ⟨List.infix_refl _, ?_⟩, List.cons_ne_nil a xs, hhead, hlast⟩
      show s.live = [] ++ (a :: xs).map s.number
      rw [← hn.live, hactive]
      rfl
  | @poll op last hpoll hpc =>
    refine ⟨fun h => absurd (hpoll.symm.trans h) nofun, ht.nodup, ?_⟩
    rw [hpc] at hat
    obtain ⟨rest, ⟨hwithin, hpresent⟩, hne, hhead, hlast⟩ := hat
    cases rest with
    | nil => exact absurd rfl hne
    | cons a xs =>
      obtain rfl : op = a := Option.some.inj hhead
      have hnodup := hp.active_nodup.sublist hwithin.sublist
      rw [List.nodup_cons] at hnodup
      refine ⟨hwithin.subset List.mem_cons_self, xs, ⟨?_, ?_⟩, hnodup.1, ?_, ?_⟩
      · exact (List.suffix_cons op xs).isInfix.trans hwithin
      · rw [hpresent, List.append_assoc]
        rfl
      · rintro rfl
        exact hlast
      · intro hxs
        cases xs with
        | nil => exact absurd rfl hxs
        | cons b ys => exact ⟨hl.next_eq hwithin, hlast.trans List.getLast?_cons_cons⟩
  | @result op next last r hpoll hpc hidle =>
    refine ⟨fun h => absurd (hpoll.symm.trans h) nofun, ht.nodup, ?_⟩
    rw [hpc] at hat
    dsimp only
    split
    · exact hat
    · exact hat.2
  | @complete op next last r hpoll hpc hlock =>
    refine ⟨fun h => absurd (hpoll.symm.trans h) nofun, ht.nodup, ?_⟩
    rw [hpc] at hat
    obtain ⟨hmem, rest, ⟨hwithin, hpresent⟩, hgoes⟩ := hat
    refine ⟨rest, ⟨?_, hpresent⟩, hgoes⟩
    show rest <:+: if r.inactive then s.active.erase op else s.active
    split
    · exact infix_erase hwithin hgoes.1 hp.active_nodup
    · exact hwithin
  | @pass op next last hpoll hpc =>
    refine ⟨fun h => absurd (hpoll.symm.trans h) nofun, ht.nodup, ?_⟩
    rw [hpc] at hat
    obtain ⟨rest, ⟨hwithin, hpresent⟩, hnot, hend, hon⟩ := hat
    dsimp only
    cases rest with
    | nil =>
      rw [if_pos (hend rfl).symm]
      show s.visited = s.present
      rw [hpresent, List.map_nil, List.append_nil]
    | cons a xs =>
      obtain ⟨hhead, hlast⟩ := hon (List.cons_ne_nil a xs)
      rw [if_neg]
      · exact ⟨a :: xs, ⟨hwithin, hpresent⟩, List.cons_ne_nil a xs, hhead, hlast⟩
      · intro heq
        rw [hlast] at heq
        exact hnot (List.mem_of_getLast? heq.symm)
  | leave hpoll hpc =>
    rw [hpc] at hat
    exact ⟨fun _ => rfl, ht.nodup, hat⟩

/-- What holds in every state. -/
structure Sound (s : State T A) : Prop where
  places : Places s
  linked : Linked s
  numbered : Numbered s
  signals : Signals s
  traversing : Traversing s

theorem sound_reached (h : Reached s) : Sound s := by
  obtain ⟨list, eop, hrun⟩ := h
  refine hrun.invariant (P := Sound) ?_ ⟨places_initial list eop, linked_initial list eop,
    numbered_initial list eop, signals_initial list eop, traversing_initial list eop⟩
  intro s t s' hstep ⟨hp, hl, hn, hs, ht⟩
  have hop : ∀ op next last r, s.pc = .polled op next last r → op ∈ s.active :=
    fun _ _ _ _ hpc => ht.active hpc
  exact ⟨places_step hstep hp hop, linked_step hstep hp hl hop, numbered_step hstep hp hn hop,
    signals_step hstep hp hn hs hop, traversing_step hstep hp hl hn ht⟩

namespace State

variable (s : State T A)

/-- The list is linked from head to tail pointer, holds the ops that are submitted and not inactive in
the order of their submission, and the progress function is enabled if it is not empty. -/
structure Consistent : Prop where
  path : s.list.Path (.head ()) s.active none
  tail : s.tail_p = Links.endOf (.head ()) s.active
  nodup : s.active.Nodup
  live : s.active.map s.number = s.live
  enabled : s.enabled = true ↔ s.active ≠ []

/-- A traversal has polled some of the ops that were present at its start, in their order and each once,
and all of them at its end. It does not follow a link that is NULL. -/
structure Traverses : Prop where
  nodup : s.present.Nodup
  visited : s.visited <+: s.present
  ends : s.pc = .ending ∨ s.pc = .out → s.visited = s.present
  next : ∀ next last, s.pc = .turn next last → next ≠ none

/-- An op's event is signalled once if a poll has reported that it is complete, and its record is freed
once if one has reported that it is inactive. Records are free once, and not those in use. -/
structure Settles : Prop where
  signalled : ∀ n, s.signalled.count n ≤ 1 ∧
    (s.signalled.count n = 1 ↔ ∃ r, (n, r) ∈ s.reported ∧ r.complete = true)
  destroyed : ∀ n, s.destroyed.count n ≤ 1 ∧
    (s.destroyed.count n = 1 ↔ ∃ r, (n, r) ∈ s.reported ∧ r.inactive = true)
  free : ∀ t, (s.op_freelist t).Nodup
  apart : ∀ t a, a ∈ s.op_freelist t → a ∉ s.active ∧
    ∀ t', (s.sub t').op ≠ some a ∧ (t' ≠ t → a ∉ s.op_freelist t')

end State

omit [DecidableEq T] [DecidableEq A] in
theorem Linked.consistent (h : Linked s) (hp : Places s) (hn : Numbered s) (hlock : s.active_lock = none) :
    s.Consistent := by
  have hpath := h.path
  rw [hlock] at hpath
  refine ⟨hpath, h.tail, hp.active_nodup, hn.live, h.enabled.trans (not_congr ?_)⟩
  cases hactive : s.active with
  | nil =>
    rw [hactive] at hpath
    exact ⟨fun _ => rfl, fun _ => hpath⟩
  | cons a xs =>
    rw [hactive] at hpath
    exact ⟨fun h => absurd (hpath.1.symm.trans h) nofun, nofun⟩

omit [DecidableEq T] [DecidableEq A] in
theorem Traversing.traverses (h : Traversing s) : s.Traverses := by
  have hat := h.at_pc
  have hleft : ∀ rest, s.Left rest → s.visited <+: s.present := by
    rintro rest ⟨-, hpresent⟩
    rw [hpresent]
    exact List.prefix_append _ _
  refine ⟨h.nodup, ?_, ?_, ?_⟩
  · cases hpc : s.pc with
    | out | starting | ending =>
      rw [hpc] at hat
      exact (show s.visited = s.present from hat) ▸ List.prefix_refl _
    | turn | passed =>
      rw [hpc] at hat
      obtain ⟨rest, hl, -⟩ := hat
      exact hleft rest hl
    | polling | polled =>
      rw [hpc] at hat
      obtain ⟨-, rest, hl, -⟩ := hat
      exact hleft rest hl
  · rintro (hpc | hpc)
    · rw [hpc] at hat
      exact hat
    · rw [hpc] at hat
      exact hat
  · intro next last hpc
    rw [hpc] at hat
    obtain ⟨rest, -, hne, hnext, -⟩ := hat
    rw [hnext]
    cases rest with
    | nil => exact absurd rfl hne
    | cons a xs => exact nofun

omit [DecidableEq T] [DecidableEq A] in
theorem Signals.settles (h : Signals s) (hp : Places s) (hn : Numbered s) : s.Settles := by
  have hcount : ∀ (xs : List Nat) n, xs.Nodup → xs.count n ≤ 1 ∧ (xs.count n = 1 ↔ n ∈ xs) := by
    intro xs n hxs
    refine ⟨List.nodup_iff_count_le_one.1 hxs n, fun hone => ?_, List.count_eq_one_of_mem hxs⟩
    exact List.count_pos_iff.1 (by omega)
  refine ⟨fun n => ?_, fun n => ?_, hp.free_nodup, ?_⟩
  · rw [← h.signalled]
    exact hcount _ n h.nodup
  · rw [← h.destroyed]
    exact hcount _ n hn.destroyed_nodup
  · intro t a ha
    rw [hp.free] at ha
    rw [hp.active, ha]
    refine ⟨nofun, fun t' => ⟨?_, ?_⟩⟩
    · rw [ne_eq, hp.held, ha]
      exact nofun
    · intro ht
      rw [hp.free, ha]
      exact fun h => ht (Place.free.inj h).symm

/-- The active list in every state, after whatever the threads have submitted, polled and deleted. -/
theorem active_list (h : Reached s) :
    (s.active_lock = none → s.Consistent) ∧ s.Traverses ∧ s.Settles := by
  obtain ⟨hp, hl, hn, hs, ht⟩ := sound_reached h
  exact ⟨hl.consistent hp hn, ht.traverses, hs.settles hp hn⟩

theorem Reached.snoc (h : Reached s) (hstep : Step s t s') : Reached s' := by
  obtain ⟨list, eop, hrun⟩ := h
  exact ⟨list, eop, hrun.snoc hstep⟩

/-- A thread submits an op, polls it, and finds it complete and inactive. -/
theorem active_list_one : ∃ s : State Unit Unit, s.pc = .ending ∧ s.signalled = [0] ∧ s.op_freelist () = [()] ∧
    (s.active_lock = none → s.Consistent) ∧ s.Traverses ∧ s.Settles := by
  have h₀ : Reached (State.initial ⟨fun _ => none, fun _ => none, fun a => .next a⟩ fun _ => none :
      State Unit Unit) := ⟨_, _, .refl⟩
  have h₁ := h₀.snoc (@Step.create _ _ _ _ _ () () [] nofun rfl (Or.inr ⟨rfl, rfl, rfl⟩))
  have h₂ := h₁.snoc (@Step.lock _ _ _ _ _ () () rfl rfl)
  have h₃ := h₂.snoc (@Step.link _ _ _ _ _ () () rfl)
  have h₄ := h₃.snoc (@Step.join _ _ _ _ _ () () rfl)
  have h₅ := h₄.snoc (@Step.enter _ _ _ _ _ () rfl rfl rfl)
  have h₆ := h₅.snoc (Step.first rfl rfl rfl)
  have h₇ := h₆.snoc (@Step.poll _ _ _ _ _ () () (some ()) rfl rfl)
  have h₈ := h₇.snoc (Step.result ⟨true, true⟩ rfl rfl rfl)
  have h₉ := h₈.snoc (Step.complete rfl rfl rfl)
  have h := h₉.snoc (Step.pass rfl rfl)
  exact ⟨_, rfl, rfl, rfl, active_list h⟩

end Gasnet.ActiveList
