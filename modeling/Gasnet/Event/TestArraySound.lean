import Gasnet.Event.BulkFree
import Mathlib.Algebra.Ring.Nat

/-! `gasnete_test_array` is safe and complete. -/
namespace Gasnet.Event

variable {O T : Type*} {ops : Ops O T} {live : Nat → Live O}
  {pevent es : List (Option (Handle O))} {l : Locals O T} {i j n : Nat} {e : Handle O}
  {o : O} {x : Fin 6} {h : FreeLists O T} {F : Kind → T → Bool → List O} {me : T} {isAll : Bool}
  {r : Result O T}

/-- The ops whose roots the first pass syncs. -/
def syncedRoots (live : Nat → Live O) (pevent : List (Option (Handle O))) : List O :=
  roots (synced live 0 pevent)

/-- The array on exit. -/
def final (live : Nat → Live O) (pevent : List (Option (Handle O))) : List (Option (Handle O)) :=
  if syncedRoots live pevent = [] then tested live 0 pevent
  else retested live pevent.length (tested live 0 pevent)

theorem all_isNone (es : List (Option (Handle O))) :
    es.all Option.isNone = (!es.any isRoot && !es.any isLeaf) := by
  induction es with
  | nil => rfl
  | cons d es ih =>
    cases d with
    | none => simp [ih, isRoot, isLeaf]
    | some e => by_cases hroot : e.2 = 0 <;> simp [isRoot, isLeaf, hroot]

/-- The second pass leaves the roots alone. -/
theorem retested_any_isRoot (live : Nat → Live O) (i : Nat) (es : List (Option (Handle O))) :
    (retested live i es).any isRoot = es.any isRoot := by
  induction es generalizing i with
  | nil => rfl
  | cons d es ih =>
    cases d with
    | none => simp [ih]
    | some e =>
      by_cases hroot : e.2 = 0
      · simp [ih, hroot]
      · cases hc : complete (live i) e <;> simp [ih, hroot, hc, isRoot]

theorem final_length (live : Nat → Live O) (pevent : List (Option (Handle O))) :
    (final live pevent).length = pevent.length := by
  unfold final
  split
  · exact tested_length live 0 pevent
  · rw [retested_length, tested_length]

theorem final_none (h : pevent[j]? = some none) : (final live pevent)[j]? = some none := by
  unfold final
  split
  · simp [tested_getElem, h]
  · simp [retested_getElem, tested_getElem, h]

theorem final_some (h : pevent[j]? = some (some e)) :
    (final live pevent)[j]? =
      some (if complete (live j) e ∨ e.2 ≠ 0 ∧ syncedRoots live pevent ≠ [] ∧
        complete (live (pevent.length + j)) e then none else some e) := by
  unfold final
  split
  · rename_i hR
    cases hc : complete (live j) e <;> simp [tested_getElem, h, Option.filter, hc, hR]
  · rename_i hR
    by_cases hroot : e.2 = 0 <;> cases hc : complete (live j) e <;>
      cases hc' : complete (live (pevent.length + j)) e <;>
      simp [retested_getElem, tested_getElem, h, Option.filter, hc, hc', hR, hroot]

theorem mem_syncedRoots : o ∈ syncedRoots live pevent ↔
    ∃ j : Nat, pevent[j]? = some (some (o, 0)) ∧ (final live pevent)[j]? = some none := by
  rw [syncedRoots, mem_roots, mem_synced]
  refine exists_congr fun j => and_congr_right fun hj => ?_
  rw [final_some hj]
  simp

/-- A done op has no live leaves, then or later. -/
theorem complete_leaf (hlive : ∀ s t o x, s ≤ t → live t o x = true → live s o x = true)
    (hroot : complete (live i) (o, 0) = true) (hle : i ≤ j) (hx : x ≠ 0) :
    complete (live j) (o, x) = true := by
  have hdead : anyLive (live i) o = false := by simpa [complete] using hroot
  have hxi : live i o x = false := by
    simpa using List.any_eq_false.mp hdead x (List.mem_finRange x)
  cases hj : live j o x with
  | false => simp [complete, hx, hj]
  | true =>
    rw [hlive i j o x hle hj] at hxi
    cases hxi

theorem final_leaf (hlive : ∀ s t o x, s ≤ t → live t o x = true → live s o x = true)
    (ho : o ∈ syncedRoots live pevent) (hj : pevent[j]? = some (some (o, x))) (hx : x ≠ 0) :
    (final live pevent)[j]? = some none := by
  have hne : syncedRoots live pevent ≠ [] := List.ne_nil_of_mem ho
  rw [final_some hj, if_pos]
  refine Or.inr ⟨hx, hne, ?_⟩
  rw [syncedRoots, mem_roots, mem_synced] at ho
  obtain ⟨i, hi, hroot⟩ := ho
  obtain ⟨hlt, -⟩ := List.getElem?_eq_some_iff.mp hi
  exact complete_leaf hlive hroot (by omega) hx

theorem synced_ne_nil : synced live 0 pevent ≠ [] ↔
    ∃ (j : Nat) (e : Handle O), pevent[j]? = some (some e) ∧ (final live pevent)[j]? = some none := by
  constructor
  · intro hne
    obtain ⟨e, he⟩ := List.exists_mem_of_ne_nil _ hne
    obtain ⟨j, hj, hc⟩ := mem_synced.mp he
    rw [Nat.zero_add] at hc
    exact ⟨j, e, hj, by rw [final_some hj, if_pos (Or.inl hc)]⟩
  · rintro ⟨j, e, hj, hfinal⟩ hnil
    rw [final_some hj] at hfinal
    rcases Decidable.em (complete (live j) e = true) with hc | hc
    · have hm : e ∈ synced live 0 pevent := mem_synced.mpr ⟨j, hj, by rwa [Nat.zero_add]⟩
      rw [hnil] at hm
      cases hm
    · have hR : syncedRoots live pevent = [] := by rw [syncedRoots, hnil]; rfl
      simp [hc, hR] at hfinal

theorem syncedRoots_nodup (live : Nat → Live O) (hnodup : pevent.reduceOption.Nodup) :
    (syncedRoots live pevent).Nodup :=
  roots_nodup (hnodup.sublist (synced_sublist live 0 pevent))

variable [DecidableEq O] [DecidableEq T]

/-- What both passes leave behind. -/
structure Passes (ops : Ops O T) (live : Nat → Live O) (pevent : List (Option (Handle O)))
    (next : O → Option O) (l : Locals O T) : Prop where
  allSynced : l.allSynced = (final live pevent).all Option.isNone
  someSynced : l.someSynced = !(synced live 0 pevent).isEmpty
  empty : l.empty = pevent.all Option.isNone
  log : ∃ tests : List (Handle O), l.log = tests.map Touch.test
  queued : Queued ops l (syncedRoots live pevent)
  keeps : Keeps (syncedRoots live pevent) next l.next

omit [DecidableEq O] in
theorem start_queued (ops : Ops O T) (next : O → Option O) :
    Queued ops (Locals.start next : Locals O T) [] :=
  ⟨fun _ _ => Queue.holds_empty next, fun _ => rfl⟩

theorem passes_spec (ops : Ops O T) (live : Nat → Live O) (hnodup : pevent.reduceOption.Nodup)
    (next : O → Option O) :
    ∃ l, passes ops live pevent next = some (final live pevent, l) ∧
      Passes ops live pevent next l := by
  have hR := syncedRoots_nodup live hnodup
  obtain ⟨hes, hp⟩ := pass1_spec ops live 0 pevent (.start next)
  obtain ⟨hq, hkeep⟩ := pass1_queued ops live 0 pevent (start_queued ops next) (R := []) hR
  have hpair : pass1 ops live 0 pevent (.start next) =
      (tested live 0 pevent, (pass1 ops live 0 pevent (.start next)).2) := by rw [← hes]
  unfold passes
  rw [hpair]
  generalize (pass1 ops live 0 pevent (.start next)).2 = l at *
  have hroots : l.rootsSynced = !(syncedRoots live pevent).isEmpty := hp.rootsSynced
  have hcount : l.toRetest = (tested live 0 pevent).countP isLeaf := by
    rw [hp.toRetest]
    exact Nat.zero_add _
  have hlog : l.log = pevent.reduceOption.map Touch.test := hp.log
  have hall : l.allSynced = !(tested live 0 pevent).any isRoot := hp.allSynced
  have hsome : l.someSynced = !(synced live 0 pevent).isEmpty := hp.someSynced
  have hempty : l.empty = pevent.all Option.isNone := hp.empty
  by_cases hre : l.toRetest = 0
  · -- no leaf is left, so a second pass would change nothing
    have hleaf : ∀ d ∈ tested live 0 pevent, isLeaf d = false := by
      intro d hd
      rw [hcount] at hre
      simpa using List.countP_eq_zero.mp hre d hd
    obtain ⟨hsame, -, -, hany⟩ := retested_no_leaf live pevent.length hleaf
    have hfinal : final live pevent = tested live 0 pevent := by
      unfold final
      rw [hsame, ite_self]
    refine ⟨l, by simp [hre, hfinal], ?_, hsome, hempty, ⟨_, hlog⟩, hq, hkeep⟩
    rw [hall, hfinal, all_isNone, hany]
    simp
  · cases hr : (syncedRoots live pevent) with
    | nil =>
      have hfinal : final live pevent = tested live 0 pevent := by rw [final, if_pos hr]
      have hany : (tested live 0 pevent).any isLeaf = true := by
        rw [hcount, List.countP_eq_zero] at hre
        simpa using hre
      refine ⟨{ l with allSynced := false }, ?_, ?_, hsome, hempty, ⟨_, hlog⟩,
        ⟨hq.holds, hq.threadidx⟩, hkeep⟩
      · simp [hre, hroots, hr, hfinal]
      · rw [hfinal, all_isNone, hany]
        simp
    | cons o os =>
      have hne : syncedRoots live pevent ≠ [] := by simp [hr]
      have hfinal : final live pevent = retested live pevent.length (tested live 0 pevent) := by
        rw [final, if_neg hne]
      have hpass := pass2_spec live pevent.length (tested live 0 pevent) l
      rw [← hcount] at hpass
      refine ⟨{ l with
        allSynced := l.allSynced &&
          !(retested live pevent.length (tested live 0 pevent)).any isLeaf
        someSynced := l.someSynced ||
          !(resynced live pevent.length (tested live 0 pevent)).isEmpty
        log := l.log ++ ((tested live 0 pevent).filter isLeaf).reduceOption.map .test },
        ?_, ?_, ?_, hempty, ?_, ⟨hq.holds, hq.threadidx⟩, hkeep⟩
      · dsimp only
        rw [if_neg hre, if_pos (by simp [hroots, hr]), hpass, hfinal]
      · rw [hfinal, all_isNone, hall, retested_any_isRoot]
      · have hsynced : synced live 0 pevent ≠ [] := by
          intro hnil
          exact hne (by rw [syncedRoots, hnil]; rfl)
        simp [hsome, hsynced]
      · exact ⟨_, by rw [hlog, ← List.map_append]⟩

omit [DecidableEq O] in
theorem queued_length_le (ops : Ops O T) (live : Nat → Live O)
    (pevent : List (Option (Handle O))) (k : Kind) (b : Bool) :
    (queued ops (syncedRoots live pevent) k b).length ≤ pevent.length := by
  have h1 := List.length_filter_le (fun o => decide (ops.kind o = k ∧
    decide (firstOwner ops (syncedRoots live pevent) k ≠ some (ops.owner o)) = b))
    (syncedRoots live pevent)
  have h2 : (syncedRoots live pevent).length ≤ (synced live 0 pevent).length := by
    rw [syncedRoots, roots, List.length_map]
    exact List.length_filter_le _ _
  have h3 := (synced_sublist live 0 pevent).length_le
  have h4 := List.reduceOption_length_le pevent
  exact Nat.le_trans h1 (Nat.le_trans h2 (Nat.le_trans h3 h4))

/-- The order in which the synced ops are freed. -/
def freed (ops : Ops O T) (R : List O) : List O :=
  queued ops R .eop false ++ queued ops R .iop false ++ queued ops R .eop true ++
    queued ops R .iop true

/-- Each op on a list that was there before stays where it was, and the synced ops come in
front. -/
theorem freeAll (me : T) (hnodup : pevent.reduceOption.Nodup)
    (hF : ∀ k t b, Chain h.next (h.list k t b) (F k t b) none)
    (hdis : ∀ o ∈ syncedRoots live pevent, ∀ k t b, o ∉ F k t b)
    (hp : Passes ops live pevent h.next l) (hn : n = pevent.length) :
    ∃ h1 h2 h3 h4,
      freeMain me .eop n l { h with next := l.next } =
        (h1, queued ops (syncedRoots live pevent) .eop false) ∧
      freeMain me .iop n l h1 = (h2, queued ops (syncedRoots live pevent) .iop false) ∧
      h2.freeEach ops me .eop n (l.queue .eop true).head [] =
        some (h3, queued ops (syncedRoots live pevent) .eop true) ∧
      h3.freeEach ops me .iop n (l.queue .iop true).head [] =
        some (h4, queued ops (syncedRoots live pevent) .iop true) ∧
      Freed ops me F h4 (freed ops (syncedRoots live pevent)) := by
  have hR := syncedRoots_nodup live hnodup
  have hq := hp.queued
  have hkeeps := hp.keeps
  have hfuel : ∀ k b, (queued ops (syncedRoots live pevent) k b).length ≤ n := by
    rw [hn]
    exact queued_length_le ops live pevent
  have hsub : ∀ k b, ∀ o ∈ queued ops (syncedRoots live pevent) k b, ∀ k t b, o ∉ F k t b :=
    fun k b o ho => hdis o (mem_queued.mp ho).1
  have hnd : ∀ k b, (queued ops (syncedRoots live pevent) k b).Nodup := queued_nodup hR
  clear hp
  generalize syncedRoots live pevent = R at *
  have h0 : Freed ops me F { h with next := l.next } [] := by
    intro k t b
    exact ⟨[], hkeeps _ _ _ (hF k t b) fun a ha => hdis a ha k t b, List.Perm.refl _⟩
  obtain ⟨h1, e1, f1, k1⟩ := freeMain_freed (k := .eop) hq h0 (hq.holds _ _)
    (fun _ _ => List.not_mem_nil) hdis (hfuel _ _)
  have q2 : (l.queue .iop false).Holds h1.next (queued ops R .iop false) :=
    ⟨k1 _ _ _ (hq.holds _ _).chain fun _ => queued_disjoint (by simp), (hq.holds _ _).tail,
      hnd _ _⟩
  obtain ⟨h2, e2, f2, k2⟩ := freeMain_freed (k := .iop) hq f1 q2
    (fun o ho hm => queued_disjoint (by simp) ho hm) hdis (hfuel _ _)
  have c3 := k2 _ _ _ (k1 _ _ _ (hq.holds .eop true).chain fun _ => queued_disjoint (by simp))
    fun _ => queued_disjoint (by simp)
  obtain ⟨h3, e3, f3, k3⟩ := freeEach_freed f2 c3 (hnd _ _) (fun o ho => (mem_queued.mp ho).2.1)
    (by
      intro o ho hm
      rcases List.mem_append.mp hm with hm | hm <;> exact queued_disjoint (by simp) ho hm)
    (hsub _ _) (hfuel _ _) []
  have c4 := k3 _ _ _ (k2 _ _ _ (k1 _ _ _ (hq.holds .iop true).chain fun _ =>
    queued_disjoint (by simp)) fun _ => queued_disjoint (by simp)) fun _ =>
    queued_disjoint (by simp)
  obtain ⟨h4, e4, f4, -⟩ := freeEach_freed f3 c4 (hnd _ _) (fun o ho => (mem_queued.mp ho).2.1)
    (by
      intro o ho hm
      rcases List.mem_append.mp hm with hm | hm
      · rcases List.mem_append.mp hm with hm | hm <;> exact queued_disjoint (by simp) ho hm
      · exact queued_disjoint (by simp) ho hm)
    (hsub _ _) (hfuel _ _) []
  exact ⟨h1, h2, h3, h4, e1, e2, e3, e4, f4⟩

/-- What a call has done. `live` tells which events are live at each of its tests. -/
structure TestArraySpec (ops : Ops O T) (me : T) (isAll : Bool) (live : Nat → Live O)
    (pevent : List (Option (Handle O))) (F : Kind → T → Bool → List O) (r : Result O T)
    (frees : List O) : Prop where
  length : r.pevent.length = pevent.length
  invalid : ∀ j : Nat, pevent[j]? = some none → r.pevent[j]? = some none
  entry : ∀ (j : Nat) (e : Handle O), pevent[j]? = some (some e) → r.pevent[j]? =
    some (if complete (live j) e ∨ e.2 ≠ 0 ∧ frees ≠ [] ∧
      complete (live (pevent.length + j)) e then none else some e)
  log : ∃ tests : List (Handle O), r.log = tests.map .test ++ frees.map .free
  freed : ∀ o, o ∈ frees ↔ ∃ j : Nat, pevent[j]? = some (some (o, 0)) ∧ r.pevent[j]? = some none
  nodup : frees.Nodup
  leaf : ∀ o ∈ frees, ∀ (j : Nat) (x : Fin 6), x ≠ 0 → pevent[j]? = some (some (o, x)) →
    r.pevent[j]? = some none
  ok : r.ok = true ↔ if isAll then ∀ e ∈ r.pevent, e = none else
    (∃ (j : Nat) (e : Handle O), pevent[j]? = some (some e) ∧ r.pevent[j]? = some none) ∨
      ∀ e ∈ pevent, e = none
  lists : Freed ops me F r.lists frees

omit [DecidableEq O] in
theorem freed_perm {R : List O} (hR : R.Nodup) : (freed ops R).Perm R :=
  queued_perm hR

theorem test_array_spec (ops : Ops O T) (me : T) (isAll : Bool)
    (hlive : ∀ s t o x, s ≤ t → live t o x = true → live s o x = true)
    (hnodup : pevent.reduceOption.Nodup)
    (hF : ∀ k t b, Chain h.next (h.list k t b) (F k t b) none)
    (hdis : ∀ o, some (o, 0) ∈ pevent → ∀ k t b, o ∉ F k t b) :
    ∃ r frees, testArray ops me isAll live pevent h = some r ∧
      TestArraySpec ops me isAll live pevent F r frees := by
  have hR := syncedRoots_nodup live hnodup
  obtain ⟨l, hpasses, hp⟩ := passes_spec ops live hnodup h.next
  have hroots : ∀ o ∈ syncedRoots live pevent, ∀ k t b, o ∉ F k t b := by
    intro o ho
    obtain ⟨j, hj, -⟩ := mem_syncedRoots.mp ho
    exact hdis o (List.mem_of_getElem? hj)
  obtain ⟨h1, h2, h3, h4, e1, e2, e3, e4, hfreed⟩ := freeAll me hnodup hF hroots hp rfl
  obtain ⟨tests, hlog⟩ := hp.log
  have hperm : (freed ops (syncedRoots live pevent)).Perm (syncedRoots live pevent) :=
    freed_perm hR
  have hmem : ∀ o, o ∈ freed ops (syncedRoots live pevent) ↔ o ∈ syncedRoots live pevent :=
    fun o => hperm.mem_iff
  have hnil : freed ops (syncedRoots live pevent) ≠ [] ↔ syncedRoots live pevent ≠ [] :=
    by rw [← List.length_pos_iff, ← List.length_pos_iff, hperm.length_eq]
  have hall : ∀ es : List (Option (Handle O)), es.all Option.isNone = true ↔
      ∀ e ∈ es, e = none := by
    intro es
    simp
  refine ⟨⟨if isAll then l.allSynced else l.someSynced || l.empty, final live pevent, h4,
    l.log ++ (freed ops (syncedRoots live pevent)).map .free⟩,
    freed ops (syncedRoots live pevent), ?_, ?_⟩
  · simp [testArray, hpasses, e1, e2, e3, e4, freed]
  constructor
  case length => exact final_length live pevent
  case invalid => exact fun j hj => final_none hj
  case entry =>
    intro j e hj
    simp only [hnil]
    exact final_some hj
  case log => exact ⟨tests, by rw [hlog]⟩
  case freed => exact fun o => (hmem o).trans mem_syncedRoots
  case nodup => exact hperm.nodup_iff.mpr hR
  case leaf =>
    intro o ho j x hx hj
    exact final_leaf hlive ((hmem o).mp ho) hj hx
  case ok =>
    cases isAll with
    | true => simp [hp.allSynced]
    | false =>
      rw [← synced_ne_nil, ← hall]
      simp [hp.someSynced, hp.empty]
  case lists => exact hfreed

local instance six_neZero : NeZero 6 := ⟨by decide⟩

/-- Op 0 has a leaf that ends after its own test and before that of the root. -/
def lateLive : Nat → Live Nat := fun t o x => t = 0 ∧ o = 0 ∧ x = 1

/-- All ops are explicit and of thread 0, which has op 1 on its free list. -/
def oneFree : FreeLists Nat Nat :=
  ⟨fun _ => none, fun k t => if k = .eop ∧ t = 0 then some 1 else none, fun _ _ => none⟩

theorem test_array_spec_late :
    ((testArray ⟨fun _ => .eop, fun _ => 0⟩ 0 false lateLive
      [some (0, 1), some (0, 0)] oneFree).map fun r => (r.ok, r.pevent)) =
        some (true, [none, none]) ∧
    ∃ r frees, testArray ⟨fun _ => .eop, fun _ => 0⟩ 0 false lateLive
        [some (0, 1), some (0, 0)] oneFree = some r ∧
      TestArraySpec ⟨fun _ => .eop, fun _ => 0⟩ 0 false lateLive [some (0, 1), some (0, 0)]
        (fun k t b => if k = .eop ∧ t = 0 ∧ b = false then [1] else []) r frees := by
  refine ⟨by decide, test_array_spec _ 0 false ?_ (by decide) ?_ ?_⟩
  · intro s t o x hle ht
    simp only [lateLive, decide_eq_true_eq] at ht ⊢
    exact ⟨by omega, ht.2⟩
  · intro k t b
    by_cases hk : k = .eop ∧ t = 0 <;> cases b <;>
      simp [oneFree, FreeLists.list, hk, Chain]
  · intro o ho k t b
    simp at ho
    subst ho
    split <;> simp

end Gasnet.Event
