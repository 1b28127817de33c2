import Gasnet.Coll.ActiveList

/-! What holds of the active list in every state: where the records are, how they are linked, which ops
they hold, and how far a traversal is. -/
namespace Gasnet.ActiveList

variable {T A : Type*} [DecidableEq T] [DecidableEq A] {s s' : State T A} {t t' : T} {op : A}

/-- Every record is in one place. -/
structure Places (s : State T A) : Prop where
  active : ∀ a, a ∈ s.active ↔ s.place a = .active
  active_nodup : s.active.Nodup
  free : ∀ t a, a ∈ s.op_freelist t ↔ s.place a = .free t
  free_nodup : ∀ t, (s.op_freelist t).Nodup
  held : ∀ t a, (s.sub t).op = some a ↔ s.place a = .held t
  lock : ∀ t, s.active_lock = some t ↔ (s.sub t).Locks

omit [DecidableEq T] [DecidableEq A] in
theorem places_initial (list : Links Unit A) (eop : A → Option Nat) :
    Places (State.initial list eop : State T A) where
  active _ := by simp [State.initial]
  active_nodup := List.nodup_nil
  free _ _ := by simp [State.initial]
  free_nodup _ := List.nodup_nil
  held _ _ := by simp [State.initial, Sub.op]
  lock _ := by simp [State.initial, Sub.Locks]

omit [DecidableEq A] in
/-- The thread of a submission has the lock for itself. -/
theorem Places.lock_update (h : Places s) {sub : Sub A} (hsub : (s.sub t).Locks ↔ sub.Locks) (t' : T) :
    s.active_lock = some t' ↔ (Function.update s.sub t sub t').Locks := by
  rw [h.lock]
  by_cases ht : t' = t
  · rw [ht, Function.update_self, hsub]
  · rw [Function.update_of_ne ht]

omit [DecidableEq A] in
theorem Places.held_update (h : Places s) {sub : Sub A} (hsub : (s.sub t).op = sub.op) (t' : T) (a : A) :
    (Function.update s.sub t sub t').op = some a ↔ s.place a = .held t' := by
  rw [← h.held]
  by_cases ht : t' = t
  · rw [ht, Function.update_self, hsub]
  · rw [Function.update_of_ne ht]

theorem places_step (h : Step s t s') (hp : Places s)
    (hop : ∀ op next last r, s.pc = .polled op next last r → op ∈ s.active) : Places s' := by
  cases h with
  | @create op others hmay hidle hfree =>
    have hplace : s.place op = .free t ∧ s.op_freelist t = op :: others ∨
        s.place op = .unallocated ∧ s.op_freelist t = others := by
      rcases hfree with hlist | ⟨hlist, rfl, hun⟩
      · exact Or.inl ⟨(hp.free t op).1 (hlist ▸ List.mem_cons_self), hlist⟩
      · exact Or.inr ⟨hun, hlist⟩
    have hother : s.place op ≠ .active ∧ (∀ t', s.place op ≠ .held t') ∧
        ∀ t', t' ≠ t → s.place op ≠ .free t' := by
      rcases hplace with ⟨h, -⟩ | ⟨h, -⟩ <;> rw [h]
      · refine ⟨nofun, fun _ => nofun, ?_⟩
        rintro t' ht ⟨⟩
        exact ht rfl
      · exact ⟨nofun, fun _ => nofun, fun _ _ => nofun⟩
    refine ⟨?_, hp.active_nodup, ?_, ?_, ?_, hp.lock_update (by rw [hidle]; rfl)⟩
    · intro a
      dsimp only
      by_cases ha : a = op
      · subst ha
        rw [Function.update_self]
        exact ⟨fun h => absurd ((hp.active a).1 h) hother.1, nofun⟩
      · rw [Function.update_of_ne ha]
        exact hp.active a
    · intro t' a
      dsimp only
      by_cases ha : a = op
      · subst ha
        rw [Function.update_self]
        refine ⟨fun h => ?_, nofun⟩
        exfalso
        by_cases ht : t' = t
        · rw [ht, Function.update_self] at h
          have hnodup := hp.free_nodup t
          rcases hplace with ⟨-, hlist⟩ | ⟨hun, hlist⟩
          · rw [hlist] at hnodup
            exact (List.nodup_cons.1 hnodup).1 h
          · rw [← hlist, hp.free, hun] at h
            cases h
        · rw [Function.update_of_ne ht] at h
          exact hother.2.2 t' ht ((hp.free t' a).1 h)
      · rw [Function.update_of_ne ha, ← hp.free]
        by_cases ht : t' = t
        · subst ht
          rw [Function.update_self]
          rcases hplace with ⟨-, hlist⟩ | ⟨-, hlist⟩
          · rw [hlist, List.mem_cons, or_iff_right ha]
          · rw [hlist]
        · rw [Function.update_of_ne ht]
    · intro t'
      dsimp only
      by_cases ht : t' = t
      · subst ht
        rw [Function.update_self]
        have hnodup := hp.free_nodup t'
        rcases hplace with ⟨-, hlist⟩ | ⟨-, hlist⟩
        · rw [hlist] at hnodup
          exact (List.nodup_cons.1 hnodup).2
        · rwa [hlist] at hnodup
      · rw [Function.update_of_ne ht]
        exact hp.free_nodup t'
    · intro t' a
      dsimp only
      by_cases ht : t' = t
      · subst ht
        rw [Function.update_self]
        by_cases ha : a = op
        · subst ha
          rw [Function.update_self]
          exact ⟨fun _ => rfl, fun _ => rfl⟩
        · rw [Function.update_of_ne ha, ← hp.held, hidle]
          exact ⟨fun h => absurd (Option.some.inj h).symm ha, nofun⟩
      · rw [Function.update_of_ne ht]
        by_cases ha : a = op
        · subst ha
          rw [Function.update_self, hp.held]
          exact ⟨fun h => absurd h (hother.2.1 t'), fun h => absurd (Place.held.inj h).symm ht⟩
        · rw [Function.update_of_ne ha]
          exact hp.held t' a
  | @lock op hsub hlock =>
    refine ⟨hp.active, hp.active_nodup, hp.free, hp.free_nodup, hp.held_update (by rw [hsub]; rfl), ?_⟩
    intro t'
    dsimp only
    by_cases ht : t' = t
    · rw [ht, Function.update_self]
      exact ⟨fun _ => trivial, fun _ => rfl⟩
    · rw [Function.update_of_ne ht, ← hp.lock, hlock]
      exact ⟨fun h => absurd (Option.some.inj h).symm ht, nofun⟩
  | @link op hsub =>
    exact ⟨hp.active, hp.active_nodup, hp.free, hp.free_nodup, hp.held_update (by rw [hsub]; rfl),
      hp.lock_update (by rw [hsub]; rfl)⟩
  | @join op hsub =>
    have hheld : s.place op = .held t := (hp.held t op).1 (by rw [hsub]; rfl)
    have hlock : s.active_lock = some t := (hp.lock t).2 (by rw [hsub]; trivial)
    refine ⟨?_, ?_, ?_, hp.free_nodup, ?_, ?_⟩
    · intro a
      dsimp only
      rw [List.mem_append, List.mem_singleton, hp.active]
      by_cases ha : a = op
      · subst ha
        rw [Function.update_self]
        exact ⟨fun _ => rfl, fun _ => Or.inr rfl⟩
      · rw [Function.update_of_ne ha, or_iff_left ha]
    · dsimp only
      rw [← List.concat_eq_append, List.nodup_concat]
      refine ⟨fun h => ?_, hp.active_nodup⟩
      rw [hp.active, hheld] at h
      cases h
    · intro t' a
      dsimp only
      rw [hp.free]
      by_cases ha : a = op
      · subst ha
        rw [Function.update_self, hheld]
        exact ⟨nofun, nofun⟩
      · rw [Function.update_of_ne ha]
    · intro t' a
      dsimp only
      by_cases ht : t' = t
      · subst ht
        rw [Function.update_self]
        refine ⟨nofun, fun h => ?_⟩
        by_cases ha : a = op
        · subst ha
          rw [Function.update_self] at h
          cases h
        · rw [Function.update_of_ne ha, ← hp.held, hsub] at h
          exact absurd (Option.some.inj h).symm ha
      · rw [Function.update_of_ne ht, hp.held]
        by_cases ha : a = op
        · subst ha
          rw [Function.update_self, hheld]
          exact ⟨fun h => absurd (Place.held.inj h).symm ht, nofun⟩
        · rw [Function.update_of_ne ha]
    · intro t'
      dsimp only
      by_cases ht : t' = t
      · rw [ht, Function.update_self]
        exact ⟨nofun, False.elim⟩
      · rw [Function.update_of_ne ht, ← hp.lock, hlock]
        exact ⟨nofun, fun h => absurd (Option.some.inj h).symm ht⟩
  | enter | first | poll | result | pass | leave =>
    exact ⟨hp.active, hp.active_nodup, hp.free, hp.free_nodup, hp.held, hp.lock⟩
  | @complete op next last r hpoll hpc hlock =>
    have hact : s.place op = .active := (hp.active op).1 (hop op next last r hpc)
    rw [State.complete]
    cases r.inactive with
    | false => exact ⟨hp.active, hp.active_nodup, hp.free, hp.free_nodup, hp.held, hp.lock⟩
    | true =>
      refine ⟨?_, hp.active_nodup.erase op, ?_, ?_, ?_, hp.lock⟩
      · intro a
        dsimp only
        rw [if_pos rfl, if_pos rfl, hp.active_nodup.mem_erase_iff]
        by_cases ha : a = op
        · subst ha
          rw [Function.update_self]
          exact ⟨fun h => absurd rfl h.1, nofun⟩
        · rw [Function.update_of_ne ha, hp.active]
          exact and_iff_right ha
      · intro t' a
        dsimp only
        rw [if_pos rfl, if_pos rfl]
        by_cases ha : a = op
        · subst ha
          rw [Function.update_self]
          by_cases ht : t' = t
          · rw [ht, Function.update_self]
            exact ⟨fun _ => rfl, fun _ => List.mem_cons_self⟩
          · rw [Function.update_of_ne ht, hp.free, hact]
            exact ⟨nofun, fun h => absurd (Place.free.inj h).symm ht⟩
        · rw [Function.update_of_ne ha, ← hp.free]
          by_cases ht : t' = t
          · rw [ht, Function.update_self, List.mem_cons, or_iff_right ha]
          · rw [Function.update_of_ne ht]
      · intro t'
        dsimp only
        rw [if_pos rfl]
        by_cases ht : t' = t
        · rw [ht, Function.update_self, List.nodup_cons, hp.free, hact]
          exact ⟨nofun, hp.free_nodup t⟩
        · rw [Function.update_of_ne ht]
          exact hp.free_nodup t'
      · intro t' a
        dsimp only
        rw [if_pos rfl, hp.held]
        by_cases ha : a = op
        · subst ha
          rw [Function.update_self, hact]
          exact ⟨nofun, nofun⟩
        · rw [Function.update_of_ne ha]

/-- What is linked by a submission. -/
def Sub.enters : Sub A → Option A
  | .linked op => some op
  | _ => none

/-- The record that is linked and not yet behind the tail pointer. -/
def entering (sub : T → Sub A) : Option T → Option A
  | none => none
  | some t => (sub t).enters

/-- The records of the active ops are linked in their order, and the tail pointer is to the last link. -/
structure Linked (s : State T A) : Prop where
  path : s.list.Path (.head ()) s.active (entering s.sub s.active_lock)
  tail : s.tail_p = Links.endOf (.head ()) s.active
  enabled : s.enabled = true ↔ s.list.head () ≠ none
  held_next : ∀ t op, (s.sub t).op = some op → s.list.next op = none

omit [DecidableEq T] [DecidableEq A] in
theorem linked_initial (list : Links Unit A) (eop : A → Option Nat) :
    Linked (State.initial list eop : State T A) where
  path := rfl
  tail := rfl
  enabled := by simp [State.initial]
  held_next _ _ := nofun

omit [DecidableEq T] [DecidableEq A] in
/-- The record that a thread takes is of no op, on the list or in a submission. -/
theorem Places.taken (hp : Places s) {others : List A}
    (hfree : s.op_freelist t = op :: others ∨
      s.op_freelist t = [] ∧ others = [] ∧ s.place op = .unallocated) :
    op ∉ s.active ∧ ∀ t', (s.sub t').op ≠ some op := by
  rw [hp.active]
  simp only [ne_eq, hp.held]
  rcases hfree with hlist | ⟨-, -, hun⟩
  · rw [(hp.free t op).1 (hlist ▸ List.mem_cons_self)]
    exact ⟨nofun, fun _ => nofun⟩
  · rw [hun]
    exact ⟨nofun, fun _ => nofun⟩

omit [DecidableEq A] in
/-- The last link is in no record that is not active. -/
theorem endOf_ne_next {xs : List A} (h : op ∉ xs) :
    Links.endOf (.head () : Link Unit A) xs ≠ .next op := by
  rcases Links.endOf_cases (.head () : Link Unit A) xs with ⟨heq, -⟩ | ⟨a, ha, heq⟩
  · rw [heq]
    exact nofun
  · rw [heq]
    rintro ⟨⟩
    exact h ha

theorem linked_step (h : Step s t s') (hp : Places s) (hl : Linked s)
    (hop : ∀ op next last r, s.pc = .polled op next last r → op ∈ s.active) : Linked s' := by
  cases h with
  | @create op others hmay hidle hfree =>
    have hnew := hp.taken hfree
    have hentering : entering (Function.update s.sub t (.created op)) s.active_lock =
        entering s.sub s.active_lock := by
      cases hlock : s.active_lock with
      | none => rfl
      | some t' =>
        have hlocks := (hp.lock t').1 hlock
        have ht : t' ≠ t := by
          rintro rfl
          rw [hidle] at hlocks
          exact hlocks
        rw [entering, entering, Function.update_of_ne ht]
    refine ⟨?_, hl.tail, hl.enabled, ?_⟩
    · refine (hentering ▸ hl.path).congr rfl ?_ ?_
      · intro a ha
        exact Function.update_of_ne (by rintro rfl; exact hnew.1 ha) _ _
      · intro a ha
        exact Function.update_of_ne (by rintro rfl; exact hnew.1 ha) _ _
    · intro t' a ha
      dsimp only [State.newLinks] at ha ⊢
      by_cases hop : a = op
      · rw [hop, Function.update_self]
      · rw [Function.update_of_ne hop]
        by_cases ht : t' = t
        · rw [ht, Function.update_self] at ha
          exact absurd (Option.some.inj ha).symm hop
        · rw [Function.update_of_ne ht] at ha
          exact hl.held_next t' a ha
  | @lock op hsub hlock =>
    have hpath := hl.path
    rw [hlock] at hpath
    refine ⟨?_, hl.tail, hl.enabled, ?_⟩
    · dsimp only
      rw [entering, Function.update_self]
      exact hpath
    · intro t' a ha
      dsimp only at ha ⊢
      by_cases ht : t' = t
      · rw [ht, Function.update_self] at ha
        exact hl.held_next t a (by rw [hsub]; exact ha)
      · rw [Function.update_of_ne ht] at ha
        exact hl.held_next t' a ha
  | @link op hsub =>
    have hheld : (s.sub t).op = some op := by
      rw [hsub]
      rfl
    have hlock : s.active_lock = some t := (hp.lock t).2 (by rw [hsub]; trivial)
    have hnew : op ∉ s.active := by
      rw [hp.active, (hp.held t op).1 hheld]
      exact nofun
    have hpath := hl.path
    rw [hlock, entering, hsub] at hpath
    have hkeep : ∀ a, s.tail_p ≠ .next a → (s.list.store s.tail_p (some op)).next a = s.list.next a := by
      intro a ha
      rw [Links.next_eq_deref, Links.deref_store, if_neg fun h => ha h.symm]
      rfl
    refine ⟨?_, hl.tail, ?_, ?_⟩
    · dsimp only
      rw [hlock, entering, Function.update_self]
      refine hpath.set_end hp.active_nodup (fun _ _ => nofun) ?_ (fun _ _ => by rw [Links.prev_store]) ?_
      · rw [← hl.tail, Links.deref_store, if_pos rfl]
        rfl
      · intro k hk _
        rw [← hl.tail] at hk
        rw [Links.deref_store, if_neg hk]
    · dsimp only
      have hhead : (s.list.store s.tail_p (some op)).head () ≠ none := by
        show (s.list.store s.tail_p (some op)).deref (.head ()) ≠ none
        rw [Links.deref_store]
        split
        · exact nofun
        · rename_i hne
          cases hactive : s.active with
          | nil =>
            rw [hl.tail, hactive] at hne
            exact absurd rfl hne
          | cons a others =>
            rw [hactive] at hpath
            rw [hpath.1]
            exact nofun
      refine ⟨fun _ => hhead, fun _ => ?_⟩
      split
      · rfl
      · rename_i hne
        exact hl.enabled.2 hne
    · intro t' a ha
      dsimp only at ha ⊢
      have hheld' : (s.sub t').op = some a := by
        by_cases ht : t' = t
        · rw [ht, Function.update_self] at ha
          rw [ht, hheld]
          exact ha
        · rwa [Function.update_of_ne ht] at ha
      have ha' : a ∉ s.active := by
        rw [hp.active, (hp.held t' a).1 hheld']
        exact nofun
      rw [hkeep a (by rw [hl.tail]; exact endOf_ne_next ha')]
      exact hl.held_next t' a hheld'
  | @join op hsub =>
    have hheld : (s.sub t).op = some op := by
      rw [hsub]
      rfl
    have hlock : s.active_lock = some t := (hp.lock t).2 (by rw [hsub]; trivial)
    have hnew : op ∉ s.active := by
      rw [hp.active, (hp.held t op).1 hheld]
      exact nofun
    have hpath := hl.path
    rw [hlock, entering, hsub] at hpath
    have hprev : ∀ a ∈ s.active, (s.list.setPrev (some op) s.tail_p).prev a = s.list.prev a := by
      intro a ha
      rw [Links.prev_setPrev, if_neg]
      rintro ⟨⟩
      exact hnew ha
    have hkeep : (s.list.setPrev (some op) s.tail_p).Path (.head ()) s.active (some op) :=
      hpath.congr rfl (fun _ _ => rfl) hprev
    refine ⟨?_, ?_, hl.enabled, ?_⟩
    · refine hkeep.append ⟨hkeep.deref_end, ?_, ?_⟩
      · rw [Links.prev_setPrev, if_pos rfl]
        exact hl.tail
      · exact hl.held_next t op hheld
    · dsimp only
      have happend : ∀ (l : Link Unit A) (xs : List A), Links.endOf l (xs ++ [op]) = .next op := by
        intro l xs
        induction xs generalizing l with
        | nil => rfl
        | cons a xs ih => exact ih (.next a)
      exact (happend _ _).symm
    · intro t' a ha
      dsimp only at ha ⊢
      by_cases ht : t' = t
      · rw [ht, Function.update_self] at ha
        cases ha
      · rw [Function.update_of_ne ht] at ha
        exact hl.held_next t' a ha
  | enter | first | poll | result | pass | leave => exact ⟨hl.path, hl.tail, hl.enabled, hl.held_next⟩
  | @complete op next last r hpoll hpc hlock =>
    have hmem := hop op next last r hpc
    have hpath := hl.path
    rw [hlock] at hpath
    rw [State.complete]
    cases r.inactive with
    | false => exact ⟨hl.path, hl.tail, hl.enabled, hl.held_next⟩
    | true =>
      obtain ⟨xs, ys, hsplit⟩ := List.append_of_mem hmem
      have hnodup := hp.active_nodup
      have hholds : s.list.Holds fun _ => s.active :=
        ⟨fun _ => hpath, fun _ => hnodup, fun _ _ _ _ _ => rfl⟩
      have hremoved := (hholds.remove (h := ()) hsplit).path ()
      rw [hsplit] at hpath hnodup
      have hmid := List.nodup_cons.1 (List.nodup_middle.1 hnodup)
      have hxs : op ∉ xs := fun h => hmid.1 (List.mem_append_left _ h)
      have herase : s.active.erase op = xs ++ ys := by
        rw [hsplit, List.erase_append_right _ hxs, List.erase_cons_head]
      obtain ⟨-, -, hprev, hrest⟩ := hpath.split
      rw [Function.update_self] at hremoved
      have hlist : ((s.list.remove op).store (.next op) (s.op_freelist t).head?).Path (.head ())
          (s.active.erase op) none := by
        rw [herase]
        refine hremoved.congr (by rw [Links.deref_store, if_neg nofun]) ?_ fun _ _ => by rw [Links.prev_store]
        intro a ha
        rw [Links.next_eq_deref, Links.deref_store, if_neg]
        · rfl
        · rintro ⟨⟩
          exact hmid.1 ha
      refine ⟨?_, ?_, ?_, ?_⟩
      · dsimp only
        rw [if_pos rfl, if_pos rfl, hlock]
        exact hlist
      · dsimp only
        rw [if_pos rfl, herase]
        cases ys with
        | nil =>
          rw [if_pos ⟨rfl, hrest⟩, hprev, List.append_nil]
        | cons y ys =>
          have hnext : s.list.next op = some y := hrest.1
          have hskip : ∀ (l : Link Unit A) (xs : List A),
              Links.endOf l (xs ++ op :: y :: ys) = Links.endOf l (xs ++ y :: ys) := by
            intro l xs
            induction xs generalizing l with
            | nil => rfl
            | cons a xs ih => exact ih (.next a)
          have hsome : ¬ (true = true ∧ s.list.next op = none) := by
            rw [hnext]
            exact nofun
          rw [if_neg hsome, hl.tail, hsplit, hskip]
      · dsimp only
        have hhead : ((s.list.remove op).store (.next op) (s.op_freelist t).head?).head () =
            (s.list.remove op).head () := by
          show ((s.list.remove op).store (.next op) (s.op_freelist t).head?).deref (.head ()) = _
          rw [Links.deref_store, if_neg nofun]
          rfl
        rw [if_pos rfl, hhead]
        have henabled : s.enabled = true := by
          rw [hl.enabled]
          intro hnone
          cases xs with
          | nil => exact absurd (hnone.symm.trans hpath.1) nofun
          | cons x xs => exact absurd (hnone.symm.trans hpath.1) nofun
        split
        · rename_i hnone
          exact ⟨nofun, fun h => absurd hnone.2 h⟩
        · rename_i hsome
          exact ⟨fun _ h => hsome ⟨rfl, h⟩, fun _ => henabled⟩
      · intro t' a ha
        dsimp only at ha ⊢
        have hnot : a ∉ s.active := by
          rw [hp.active, (hp.held t' a).1 ha]
          exact nofun
        have hkeep : ((s.list.remove op).store (.next op) (s.op_freelist t).head?).next a = s.list.next a := by
          rw [Links.next_eq_deref, Links.deref_store, if_neg, Links.deref_remove, if_neg]
          · rfl
          · rw [hprev]
            intro h
            exact endOf_ne_next (fun hx => hnot (by rw [hsplit]; exact List.mem_append_left _ hx)) h.symm
          · rintro ⟨⟩
            exact hnot hmem
        rw [if_pos rfl, hkeep]
        exact hl.held_next t' a ha

/-- The ops that records hold. -/
structure Numbered (s : State T A) : Prop where
  live : s.active.map s.number = s.live
  submitted_lt : ∀ n ∈ s.submitted, n < s.created
  submitted_nodup : s.submitted.Nodup
  destroyed_sub : ∀ n ∈ s.destroyed, n ∈ s.submitted
  destroyed_nodup : s.destroyed.Nodup
  held : ∀ t a, (s.sub t).op = some a → s.number a < s.created ∧ s.number a ∉ s.submitted
  held_apart : ∀ t t' a b, (s.sub t).op = some a → (s.sub t').op = some b → s.number a = s.number b → a = b

omit [DecidableEq T] [DecidableEq A] in
theorem numbered_initial (list : Links Unit A) (eop : A → Option Nat) :
    Numbered (State.initial list eop : State T A) where
  live := rfl
  submitted_lt _ := nofun
  submitted_nodup := List.nodup_nil
  destroyed_sub _ := nofun
  destroyed_nodup := List.nodup_nil
  held _ _ := nofun
  held_apart _ _ _ _ := nofun

omit [DecidableEq T] [DecidableEq A] in
theorem Numbered.mem_live (h : Numbered s) (hop : op ∈ s.active) :
    s.number op ∈ s.submitted ∧ s.number op ∉ s.destroyed := by
  have hmem : s.number op ∈ s.live := by
    rw [← h.live]
    exact List.mem_map_of_mem hop
  simpa [State.live] using hmem

omit [DecidableEq T] [DecidableEq A] in
theorem Numbered.number_inj (h : Numbered s) {a b : A} (ha : a ∈ s.active) (hb : b ∈ s.active)
    (heq : s.number a = s.number b) : a = b := by
  have hnodup : (s.active.map s.number).Nodup := by
    rw [h.live]
    exact h.submitted_nodup.filter _
  exact List.inj_on_of_nodup_map hnodup ha hb heq

omit [DecidableEq A] in
/-- A record in a submission after thread `t` has gone on with its own. -/
theorem op_update {sub : Sub A} (hsub : sub.op = some op → (s.sub t).op = some op) {t' : T}
    (h : (Function.update s.sub t sub t').op = some op) : (s.sub t').op = some op := by
  by_cases ht : t' = t
  · rw [ht, Function.update_self] at h
    rw [ht]
    exact hsub h
  · rwa [Function.update_of_ne ht] at h

theorem numbered_step (h : Step s t s') (hp : Places s) (hn : Numbered s)
    (hop : ∀ op next last r, s.pc = .polled op next last r → op ∈ s.active) : Numbered s' := by
  cases h with
  | @create op others hmay hidle hfree =>
    obtain ⟨hnew, hheld⟩ := hp.taken hfree
    have hcases : ∀ t' a, (Function.update s.sub t (.created op) t').op = some a →
        a = op ∨ a ≠ op ∧ (s.sub t').op = some a := by
      intro t' a ha
      by_cases ht : t' = t
      · rw [ht, Function.update_self] at ha
        exact Or.inl (Option.some.inj ha).symm
      · rw [Function.update_of_ne ht] at ha
        exact Or.inr ⟨by rintro rfl; exact hheld t' ha, ha⟩
    refine ⟨?_, ?_, hn.submitted_nodup, hn.destroyed_sub, hn.destroyed_nodup, ?_, ?_⟩
    · refine Eq.trans ?_ hn.live
      apply List.map_congr_left
      intro a ha
      exact Function.update_of_ne (by rintro rfl; exact hnew ha) _ _
    · intro n hmem
      exact (hn.submitted_lt n hmem).trans (Nat.lt_succ_self _)
    · intro t' a ha
      dsimp only at ha ⊢
      rcases hcases t' a ha with rfl | ⟨hne, ha⟩
      · rw [Function.update_self]
        exact ⟨Nat.lt_succ_self _, fun h => absurd (hn.submitted_lt _ h) (Nat.lt_irrefl _)⟩
      · rw [Function.update_of_ne hne]
        obtain ⟨hlt, hnot⟩ := hn.held t' a ha
        exact ⟨hlt.trans (Nat.lt_succ_self _), hnot⟩
    · intro t₁ t₂ a b ha hb heq
      dsimp only at ha hb heq
      rcases hcases t₁ a ha with rfl | ⟨hane, ha'⟩
      · rcases hcases t₂ b hb with rfl | ⟨hbne, hb'⟩
        · rfl
        · rw [Function.update_self, Function.update_of_ne hbne] at heq
          exact absurd (hn.held t₂ b hb').1 (by omega)
      · rcases hcases t₂ b hb with rfl | ⟨hbne, hb'⟩
        · rw [Function.update_self, Function.update_of_ne hane] at heq
          exact absurd (hn.held t₁ a ha').1 (by omega)
        · rw [Function.update_of_ne hane, Function.update_of_ne hbne] at heq
          exact hn.held_apart t₁ t₂ a b ha' hb' heq
  | @lock op hsub hlock =>
    have hback : ∀ {t' a}, (Function.update s.sub t (.locked op) t').op = some a → (s.sub t').op = some a :=
      fun h => op_update (fun h => by rw [hsub]; exact h) h
    exact ⟨hn.live, hn.submitted_lt, hn.submitted_nodup, hn.destroyed_sub, hn.destroyed_nodup,
      fun t' a ha => hn.held t' a (hback ha),
      fun t₁ t₂ a b ha hb => hn.held_apart t₁ t₂ a b (hback ha) (hback hb)⟩
  | @link op hsub =>
    have hback : ∀ {t' a}, (Function.update s.sub t (.linked op) t').op = some a → (s.sub t').op = some a :=
      fun h => op_update (fun h => by rw [hsub]; exact h) h
    exact ⟨hn.live, hn.submitted_lt, hn.submitted_nodup, hn.destroyed_sub, hn.destroyed_nodup,
      fun t' a ha => hn.held t' a (hback ha),
      fun t₁ t₂ a b ha hb => hn.held_apart t₁ t₂ a b (hback ha) (hback hb)⟩
  | @join op hsub =>
    have hheld : (s.sub t).op = some op := by
      rw [hsub]
      rfl
    obtain ⟨hlt, hfresh⟩ := hn.held t op hheld
    have hback : ∀ {t' a}, (Function.update s.sub t .idle t').op = some a → (s.sub t').op = some a ∧ a ≠ op := by
      intro t' a ha
      have hsub' := op_update (fun h => by cases h) ha
      refine ⟨hsub', ?_⟩
      rintro rfl
      have ht := Place.held.inj (((hp.held t' a).1 hsub').symm.trans ((hp.held t a).1 hheld))
      rw [ht, Function.update_self] at ha
      cases ha
    refine ⟨?_, ?_, ?_, ?_, hn.destroyed_nodup, ?_, ?_⟩
    · have hdes : s.number op ∉ s.destroyed := fun h => hfresh (hn.destroyed_sub _ h)
      dsimp only [State.live]
      rw [List.map_append, hn.live, List.filter_append, State.live, List.map_singleton]
      simp [hdes]
    · intro n hmem
      rcases List.mem_append.1 hmem with h | h
      · exact hn.submitted_lt n h
      · rw [List.mem_singleton.1 h]
        exact hlt
    · dsimp only
      rw [← List.concat_eq_append, List.nodup_concat]
      exact ⟨hfresh, hn.submitted_nodup⟩
    · intro n hmem
      exact List.mem_append_left _ (hn.destroyed_sub n hmem)
    · intro t' a ha
      obtain ⟨ha, hne⟩ := hback ha
      obtain ⟨hlt', hfresh'⟩ := hn.held t' a ha
      refine ⟨hlt', fun h => ?_⟩
      rcases List.mem_append.1 h with h | h
      · exact hfresh' h
      · exact hne (hn.held_apart t' t a op ha hheld (List.mem_singleton.1 h))
    · intro t₁ t₂ a b ha hb
      exact hn.held_apart t₁ t₂ a b (hback ha).1 (hback hb).1
  | enter | first | poll | result | pass | leave =>
    exact ⟨hn.live, hn.submitted_lt, hn.submitted_nodup, hn.destroyed_sub, hn.destroyed_nodup, hn.held,
      hn.held_apart⟩
  | @complete op next last r hpoll hpc hlock =>
    have hmem := hop op next last r hpc
    obtain ⟨hsub, hlive⟩ := hn.mem_live hmem
    rw [State.complete]
    cases r.inactive with
    | false =>
      exact ⟨hn.live, hn.submitted_lt, hn.submitted_nodup, hn.destroyed_sub, hn.destroyed_nodup, hn.held,
        hn.held_apart⟩
    | true =>
      refine ⟨?_, hn.submitted_lt, hn.submitted_nodup, ?_, ?_, hn.held, hn.held_apart⟩
      · have hfilter : (s.active.filter (· != op)).map s.number =
            (s.active.map s.number).filter (· != s.number op) := by
          rw [List.filter_map]
          congr 1
          apply List.filter_congr
          intro a ha
          rw [Function.comp_apply, Bool.eq_iff_iff, bne_iff_ne, bne_iff_ne]
          exact not_congr ⟨fun h => by rw [h], hn.number_inj ha hmem⟩
        dsimp only [State.live]
        rw [if_pos rfl, if_pos rfl, hp.active_nodup.erase_eq_filter]
        rw [hfilter, hn.live, State.live, List.filter_filter]
        apply List.filter_congr
        intro n _
        rw [Bool.eq_iff_iff]
        simp [not_or, and_comm]
      · intro n hdes
        dsimp only at hdes
        rw [if_pos rfl] at hdes
        rcases List.mem_append.1 hdes with h | h
        · exact hn.destroyed_sub n h
        · rw [List.mem_singleton.1 h]
          exact hsub
      · dsimp only
        rw [if_pos rfl, ← List.concat_eq_append, List.nodup_concat]
        exact ⟨hlive, hn.destroyed_nodup⟩

end Gasnet.ActiveList
