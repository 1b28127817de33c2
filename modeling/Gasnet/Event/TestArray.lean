import Gasnet.Foundation.Chain
import Mathlib.Data.List.ReduceOption

/-! `gasnete_test_array`: two passes over an array of root and leaf events, and the bulk free
of the ops whose roots were synced. -/
namespace Gasnet.Event

/-- `OPTYPE`: an eop is explicit, an iop implicit. -/
inductive Kind
  | eop
  | iop
  deriving DecidableEq

/-- An event: its op and its index there, 0 for the root. -/
abbrev Handle (O : Type*) := O × Fin 6

/-- The live bits of the events of all ops at one moment. -/
abbrev Live (O : Type*) := O → Fin 6 → Bool

/-- `EVENT_ANY_LIVE`. -/
def anyLive {O : Type*} (v : Live O) (o : O) : Bool := (List.finRange 6).any (v o)

/-- The thread that owns an op, `threadidx`, and its type do not change. -/
structure Ops (O T : Type*) where
  kind : O → Kind
  owner : O → T

/-- What the code does to ops, in order: test an event, or push an op on a free list. -/
inductive Touch (O : Type*)
  | test (e : Handle O)
  | free (o : O)

/-- The locals of `gasnete_test_array`, the `next` fields of the ops, and what was done. The
second of the two queues of a kind takes the ops of threads other than the first one seen. -/
structure Locals (O T : Type*) where
  next : O → Option O
  queue : Kind → Bool → Queue O
  threadidx : Kind → Option T
  allSynced : Bool
  someSynced : Bool
  rootsSynced : Bool
  empty : Bool
  toRetest : Nat
  log : List (Touch O)

/-- The free lists of each thread, its own and the one other threads push on. -/
structure FreeLists (O T : Type*) where
  next : O → Option O
  free : Kind → T → Option O
  foreign : Kind → T → Option O

variable {O T : Type*} [DecidableEq O] [DecidableEq T]

namespace Locals

@[simp] def note (l : Locals O T) (a : Touch O) : Locals O T := { l with log := l.log ++ [a] }

/-- Link an op whose root is done into the queue of its kind. -/
def syncRoot (ops : Ops O T) (o : O) (l : Locals O T) : Locals O T :=
  let k := ops.kind o
  let other := match l.threadidx k with
    | none => false
    | some t => decide (t ≠ ops.owner o)
  let (q, next) := (l.queue k other).push l.next o
  { l with
    next := next
    queue := Function.update l.queue k (Function.update (l.queue k) other q)
    threadidx := Function.update l.threadidx k (some ((l.threadidx k).getD (ops.owner o)))
    rootsSynced := true }

/-- The body of the first pass on a valid event. -/
def entry (ops : Ops O T) (v : Live O) (e : Handle O) (l : Locals O T) :
    Option (Handle O) × Locals O T :=
  let l := { l with empty := false }.note (.test e)
  if e.2 ≠ 0 then
    if v e.1 e.2 then (some e, { l with toRetest := l.toRetest + 1 })
    else (none, { l with someSynced := true })
  else if anyLive v e.1 then (some e, { l with allSynced := false })
  else (none, { l.syncRoot ops e.1 with someSynced := true })

end Locals

/-- The first pass. Entry `i` is tested at time `i`. -/
def pass1 (ops : Ops O T) (live : Nat → Live O) :
    Nat → List (Option (Handle O)) → Locals O T → List (Option (Handle O)) × Locals O T
  | _, [], l => ([], l)
  | i, none :: es, l =>
    let (es', l') := pass1 ops live (i + 1) es l
    (none :: es', l')
  | i, some e :: es, l =>
    let (e', l') := l.entry ops (live i) e
    let (es', l'') := pass1 ops live (i + 1) es l'
    (e' :: es', l'')

/-- The second pass, which retests `toTest` leaves. It must not run off the array. -/
def pass2 (live : Nat → Live O) :
    Nat → Nat → List (Option (Handle O)) → Locals O T →
      Option (List (Option (Handle O)) × Locals O T)
  | _, 0, es, l => some (es, l)
  | _, _ + 1, [], _ => none
  | i, n + 1, none :: es, l => (pass2 live (i + 1) (n + 1) es l).map fun r => (none :: r.1, r.2)
  | i, n + 1, some e :: es, l =>
    if e.2 = 0 then
      (pass2 live (i + 1) (n + 1) es l).map fun r => (some e :: r.1, r.2)
    else if live i e.1 e.2 then
      (pass2 live (i + 1) n es { l.note (.test e) with allSynced := false }).map
        fun r => (some e :: r.1, r.2)
    else
      (pass2 live (i + 1) n es { l.note (.test e) with someSynced := true }).map
        fun r => (none :: r.1, r.2)

namespace FreeLists

/-- `gasnete_bulk_free_eops` and `gasnete_bulk_free_iops`, by thread `me`. -/
def bulkFree (me : T) (k : Kind) (t : T) (q : Queue O) (h : FreeLists O T) : FreeLists O T :=
  if t ≠ me then
    { h with
      next := q.close h.next (h.foreign k t)
      foreign := Function.update h.foreign k (Function.update (h.foreign k) t q.head) }
  else
    { h with
      next := q.close h.next (h.free k t)
      free := Function.update h.free k (Function.update (h.free k) t q.head) }

/-- The ops of other threads, one by one. The links end within `fuel` steps. -/
def freeEach (ops : Ops O T) (me : T) (k : Kind) :
    (fuel : Nat) → Option O → FreeLists O T → List O → Option (FreeLists O T × List O)
  | _, none, h, done => some (h, done)
  | 0, some _, _, _ => none
  | fuel + 1, some o, h, done =>
    freeEach ops me k fuel (h.next o) (h.bulkFree me k (ops.owner o) ⟨some o, some o⟩)
      (done ++ [o])

end FreeLists

/-- The ops that a chain of links runs through. -/
def walk (next : O → Option O) : (fuel : Nat) → Option O → List O
  | _, none => []
  | 0, some _ => []
  | fuel + 1, some o => o :: walk next fuel (next o)

/-- The first queue of a kind in bulk, if it is not empty. -/
def freeMain (me : T) (k : Kind) (fuel : Nat) (l : Locals O T) (h : FreeLists O T) :
    FreeLists O T × List O :=
  match (l.queue k false).head, l.threadidx k with
  | some o, some t =>
    (h.bulkFree me k t (l.queue k false), walk h.next fuel (some o))
  | _, _ => (h, [])

structure Result (O T : Type*) where
  ok : Bool
  pevent : List (Option (Handle O))
  lists : FreeLists O T
  log : List (Touch O)

def Locals.start (next : O → Option O) : Locals O T :=
  ⟨next, fun _ _ => .empty, fun _ => none, true, false, false, true, 0, []⟩

/-- Both passes. The second one is made when the first one synced a root and left a leaf. -/
def passes (ops : Ops O T) (live : Nat → Live O) (pevent : List (Option (Handle O)))
    (next : O → Option O) : Option (List (Option (Handle O)) × Locals O T) :=
  let (es, l) := pass1 ops live 0 pevent (.start next)
  if l.toRetest = 0 then some (es, l)
  else if l.rootsSynced then pass2 live pevent.length l.toRetest es l
  else some (es, { l with allSynced := false })

/-- `gasnete_test_array`, by thread `me`. The live bits are read at times `0, 1, ..`. -/
def testArray (ops : Ops O T) (me : T) (isAll : Bool) (live : Nat → Live O)
    (pevent : List (Option (Handle O))) (h : FreeLists O T) : Option (Result O T) := do
  let n := pevent.length
  let (es, l) ← passes ops live pevent h.next
  let (h, done) := freeMain me .eop n l { h with next := l.next }
  let (h, done') := freeMain me .iop n l h
  let (h, others) ← h.freeEach ops me .eop n (l.queue .eop true).head []
  let (h, others') ← h.freeEach ops me .iop n (l.queue .iop true).head []
  pure ⟨if isAll then l.allSynced else l.someSynced || l.empty, es, h,
    l.log ++ (done ++ done' ++ others ++ others').map .free⟩

end Gasnet.Event

/-! What the two passes do to the array, the flags and the log, and which ops they queue. -/
namespace Gasnet.Event

variable {O T : Type*} {ops : Ops O T} {live : Nat → Live O} {es : List (Option (Handle O))}
  {l : Locals O T} {i j n : Nat} {e : Handle O} {o : O} {R : List O} {k : Kind} {t : T} {b : Bool}

/-- Is the event done? For a root this asks all events of its op. -/
def complete (v : Live O) (e : Handle O) : Bool :=
  if e.2 ≠ 0 then !v e.1 e.2 else !anyLive v e.1

/-- The array after the first pass. -/
def tested (live : Nat → Live O) : Nat → List (Option (Handle O)) → List (Option (Handle O))
  | _, [] => []
  | i, e :: es => e.filter (fun e => !complete (live i) e) :: tested live (i + 1) es

/-- The array after the second pass. -/
def retested (live : Nat → Live O) : Nat → List (Option (Handle O)) → List (Option (Handle O))
  | _, [] => []
  | i, e :: es =>
    e.filter (fun e => e.2 = 0 || !complete (live i) e) :: retested live (i + 1) es

/-- The events that the first pass syncs. -/
def synced (live : Nat → Live O) : Nat → List (Option (Handle O)) → List (Handle O)
  | _, [] => []
  | i, none :: es => synced live (i + 1) es
  | i, some e :: es =>
    if complete (live i) e then e :: synced live (i + 1) es else synced live (i + 1) es

/-- The leaves that the second pass syncs. -/
def resynced (live : Nat → Live O) : Nat → List (Option (Handle O)) → List (Handle O)
  | _, [] => []
  | i, none :: es => resynced live (i + 1) es
  | i, some e :: es =>
    if e.2 ≠ 0 ∧ complete (live i) e then e :: resynced live (i + 1) es
    else resynced live (i + 1) es

/-- The ops whose roots are among these events. -/
def roots (xs : List (Handle O)) : List O := (xs.filter fun e => e.2 = 0).map Prod.fst

def isLeaf : Option (Handle O) → Bool
  | some e => e.2 ≠ 0
  | none => false

def isRoot : Option (Handle O) → Bool
  | some e => e.2 = 0
  | none => false

@[simp] theorem tested_none (live : Nat → Live O) (i : Nat) (es : List (Option (Handle O))) :
    tested live i (none :: es) = none :: tested live (i + 1) es := rfl

@[simp] theorem tested_some (live : Nat → Live O) (i : Nat) (e : Handle O)
    (es : List (Option (Handle O))) :
    tested live i (some e :: es) =
      (if complete (live i) e then none else some e) :: tested live (i + 1) es := by
  cases hc : complete (live i) e <;> simp [tested, Option.filter, hc]

@[simp] theorem retested_none (live : Nat → Live O) (i : Nat) (es : List (Option (Handle O))) :
    retested live i (none :: es) = none :: retested live (i + 1) es := rfl

@[simp] theorem retested_some (live : Nat → Live O) (i : Nat) (e : Handle O)
    (es : List (Option (Handle O))) :
    retested live i (some e :: es) =
      (if e.2 ≠ 0 ∧ complete (live i) e then none else some e) :: retested live (i + 1) es := by
  by_cases hroot : e.2 = 0 <;> cases hc : complete (live i) e <;>
    simp [retested, Option.filter, hc, hroot]

theorem tested_length (live : Nat → Live O) (i : Nat) (es : List (Option (Handle O))) :
    (tested live i es).length = es.length := by
  induction es generalizing i with
  | nil => rfl
  | cons e es ih => simp [tested, ih]

theorem retested_length (live : Nat → Live O) (i : Nat) (es : List (Option (Handle O))) :
    (retested live i es).length = es.length := by
  induction es generalizing i with
  | nil => rfl
  | cons e es ih => simp [retested, ih]

theorem tested_getElem (live : Nat → Live O) (i j : Nat) (es : List (Option (Handle O))) :
    (tested live i es)[j]? =
      es[j]?.map fun e => e.filter fun e => !complete (live (i + j)) e := by
  induction es generalizing i j with
  | nil => rfl
  | cons e es ih =>
    cases j with
    | zero => rfl
    | succ j => simp [tested, ih, Nat.add_right_comm i 1 j, Nat.add_assoc]

theorem retested_getElem (live : Nat → Live O) (i j : Nat) (es : List (Option (Handle O))) :
    (retested live i es)[j]? =
      es[j]?.map fun e => e.filter fun e => e.2 = 0 || !complete (live (i + j)) e := by
  induction es generalizing i j with
  | nil => rfl
  | cons e es ih =>
    cases j with
    | zero => rfl
    | succ j => simp [retested, ih, Nat.add_right_comm i 1 j, Nat.add_assoc]

theorem mem_synced : e ∈ synced live i es ↔
    ∃ j, es[j]? = some (some e) ∧ complete (live (i + j)) e = true := by
  induction es generalizing i with
  | nil => simp [synced]
  | cons d es ih =>
    have hshift : ∀ j, i + 1 + j = i + (j + 1) := fun j => by omega
    have hcons : (∃ j, (d :: es)[j]? = some (some e) ∧ complete (live (i + j)) e = true) ↔
        (d = some e ∧ complete (live i) e = true) ∨
          ∃ j, es[j]? = some (some e) ∧ complete (live (i + 1 + j)) e = true := by
      constructor
      · rintro ⟨j, hj, hc⟩
        cases j with
        | zero => exact Or.inl ⟨by simpa using hj, hc⟩
        | succ j => exact Or.inr ⟨j, by simpa using hj, by rwa [hshift]⟩
      · rintro (⟨rfl, hc⟩ | ⟨j, hj, hc⟩)
        · exact ⟨0, rfl, hc⟩
        · exact ⟨j + 1, by simpa using hj, by rwa [← hshift]⟩
    rw [hcons, ← ih]
    cases d with
    | none => simp [synced]
    | some d =>
      simp only [synced]
      split
      · rename_i hc
        rw [List.mem_cons]
        constructor
        · rintro (rfl | hm)
          · exact Or.inl ⟨rfl, hc⟩
          · exact Or.inr hm
        · rintro (⟨hd, _⟩ | hm)
          · exact Or.inl (Option.some.inj hd).symm
          · exact Or.inr hm
      · rename_i hc
        constructor
        · exact Or.inr
        · rintro (⟨hd, hc'⟩ | hm)
          · rw [Option.some.inj hd] at hc
            exact absurd hc' hc
          · exact hm

theorem mem_roots {xs : List (Handle O)} : o ∈ roots xs ↔ (o, 0) ∈ xs := by
  simp only [roots, List.mem_map, List.mem_filter, decide_eq_true_eq]
  constructor
  · rintro ⟨e, ⟨hm, hroot⟩, rfl⟩
    rw [← hroot]
    exact hm
  · intro hm
    exact ⟨(o, 0), ⟨hm, rfl⟩, rfl⟩

theorem synced_sublist (live : Nat → Live O) (i : Nat) (es : List (Option (Handle O))) :
    (synced live i es).Sublist es.reduceOption := by
  induction es generalizing i with
  | nil => exact List.Sublist.refl _
  | cons d es ih =>
    cases d with
    | none => exact ih (i + 1)
    | some d =>
      simp only [synced]
      split
      · exact (ih (i + 1)).cons_cons d
      · exact (ih (i + 1)).cons d

theorem roots_nodup {xs : List (Handle O)} (h : xs.Nodup) : (roots xs).Nodup := by
  refine List.Nodup.map_on ?_ (h.filter _)
  intro x hx y hy he
  simp only [List.mem_filter, decide_eq_true_eq] at hx hy
  exact Prod.ext he (hx.2.trans hy.2.symm)

/-- Without leaves there is nothing to retest. -/
theorem retested_no_leaf (live : Nat → Live O) (i : Nat) (h : ∀ e ∈ es, isLeaf e = false) :
    retested live i es = es ∧ resynced live i es = [] ∧ es.filter isLeaf = [] ∧
      es.any isLeaf = false := by
  induction es generalizing i with
  | nil => exact ⟨rfl, rfl, rfl, rfl⟩
  | cons d es ih =>
    obtain ⟨h1, h2, h3, h4⟩ := ih (i + 1) fun e he => h e (List.mem_cons_of_mem _ he)
    have hd := h d List.mem_cons_self
    cases d with
    | none => simp [resynced, isLeaf, h1, h2, h3, h4]
    | some e =>
      have hroot : e.2 = 0 := by simpa [isLeaf] using hd
      simp [resynced, isLeaf, hroot, h1, h2, h3, h4]

variable [DecidableEq O] [DecidableEq T]

/-- The flags and the log after the first pass. -/
structure Pass1 (live : Nat → Live O) (i : Nat) (es : List (Option (Handle O)))
    (l l' : Locals O T) : Prop where
  allSynced : l'.allSynced = (l.allSynced && !(tested live i es).any isRoot)
  someSynced : l'.someSynced = (l.someSynced || !(synced live i es).isEmpty)
  rootsSynced : l'.rootsSynced = (l.rootsSynced || !(roots (synced live i es)).isEmpty)
  empty : l'.empty = (l.empty && es.all Option.isNone)
  toRetest : l'.toRetest = l.toRetest + (tested live i es).countP isLeaf
  log : l'.log = l.log ++ es.reduceOption.map Touch.test

/-- The same for one entry, and what becomes of it. -/
structure Entry (v : Live O) (e : Handle O) (l l' : Locals O T) (e' : Option (Handle O)) :
    Prop where
  event : e' = if complete v e then none else some e
  allSynced : l'.allSynced = (l.allSynced && !isRoot e')
  someSynced : l'.someSynced = (l.someSynced || complete v e)
  rootsSynced : l'.rootsSynced = (l.rootsSynced || complete v e && decide (e.2 = 0))
  empty : l'.empty = false
  toRetest : l'.toRetest = l.toRetest + (isLeaf e').toNat
  log : l'.log = l.log ++ [.test e]

theorem entry_spec (ops : Ops O T) (v : Live O) (e : Handle O) (l : Locals O T) :
    Entry v e l (l.entry ops v e).2 (l.entry ops v e).1 := by
  by_cases hroot : e.2 = 0
  · cases hv : anyLive v e.1 <;>
      constructor <;> simp [Locals.entry, Locals.syncRoot, complete, isRoot, isLeaf, hroot, hv]
  · cases hv : v e.1 e.2 <;>
      constructor <;> simp [Locals.entry, complete, isRoot, isLeaf, hroot, hv]

theorem pass1_spec (ops : Ops O T) (live : Nat → Live O) (i : Nat)
    (es : List (Option (Handle O))) (l : Locals O T) :
    (pass1 ops live i es l).1 = tested live i es ∧
      Pass1 live i es l (pass1 ops live i es l).2 := by
  induction es generalizing i l with
  | nil =>
    refine ⟨rfl, ?_⟩
    constructor <;> simp [pass1, tested, synced, roots, List.reduceOption]
  | cons e es ih =>
    cases e with
    | none =>
      obtain ⟨hes, hall, hsome, hroots, hempty, hre, hlog⟩ := ih (i + 1) l
      refine ⟨by simp [pass1, hes], ?_⟩
      constructor <;>
        simp [pass1, synced, isRoot, isLeaf, hall, hsome, hroots, hempty, hre, hlog,
          List.reduceOption]
    | some e =>
      obtain ⟨hevent, hall, hsome, hroots, hempty, hre, hlog⟩ := entry_spec ops (live i) e l
      obtain ⟨hes, hall', hsome', hroots', hempty', hre', hlog'⟩ :=
        ih (i + 1) (l.entry ops (live i) e).2
      rw [hall] at hall'
      rw [hsome] at hsome'
      rw [hroots] at hroots'
      rw [hempty] at hempty'
      rw [hre] at hre'
      rw [hlog] at hlog'
      simp only [pass1]
      generalize (pass1 ops live (i + 1) es (l.entry ops (live i) e).2) = r at *
      generalize (l.entry ops (live i) e).1 = e' at *
      cases hc : complete (live i) e with
      | true =>
        rw [hc, if_pos rfl] at hevent
        subst hevent
        refine ⟨by simp [hc, hes], ?_⟩
        by_cases hroot : e.2 = 0 <;> constructor <;>
          simp_all [synced, roots, isRoot, isLeaf, List.reduceOption]
      | false =>
        rw [hc, if_neg Bool.false_ne_true] at hevent
        subst hevent
        refine ⟨by simp [hc, hes], ?_⟩
        by_cases hroot : e.2 = 0 <;> constructor <;>
          simp_all [synced, roots, isRoot, isLeaf, List.reduceOption]
        omega

omit [DecidableEq O] [DecidableEq T] in
/-- The second pass retests all leaves and stops at the last one. -/
theorem pass2_spec (live : Nat → Live O) (i : Nat) (es : List (Option (Handle O)))
    (l : Locals O T) :
    pass2 live i (es.countP isLeaf) es l =
      some (retested live i es,
        { l with
          allSynced := l.allSynced && !(retested live i es).any isLeaf
          someSynced := l.someSynced || !(resynced live i es).isEmpty
          log := l.log ++ (es.filter isLeaf).reduceOption.map .test }) := by
  induction es generalizing i l with
  | nil => simp [pass2, retested, resynced, List.reduceOption]
  | cons d es ih =>
    cases hn : (d :: es).countP isLeaf with
    | zero =>
      have hnone : ∀ d' ∈ d :: es, isLeaf d' = false := by
        intro d' hd
        simpa using List.countP_eq_zero.mp hn d' hd
      obtain ⟨h1, h2, h3, h4⟩ := retested_no_leaf live i hnone
      simp [pass2, h1, h2, h3, h4, List.reduceOption]
    | succ n =>
      cases d with
      | none =>
        have hes := ih (i + 1) l
        have hcount : es.countP isLeaf = n + 1 := by simpa [isLeaf] using hn
        rw [hcount] at hes
        simp [pass2, hes, resynced, isLeaf, List.reduceOption]
      | some e =>
        by_cases hroot : e.2 = 0
        · have hes := ih (i + 1) l
          have hcount : es.countP isLeaf = n + 1 := by simpa [isLeaf, hroot] using hn
          rw [hcount] at hes
          simp [pass2, hes, resynced, isLeaf, hroot, List.reduceOption]
        · have hcount : es.countP isLeaf = n := by simpa [isLeaf, hroot] using hn
          cases hv : live i e.1 e.2 with
          | true =>
            have hes := ih (i + 1) { l.note (.test e) with allSynced := false }
            rw [hcount] at hes
            dsimp only [Locals.note] at hes
            simp [pass2, hes, resynced, isLeaf, complete, hroot, hv, List.reduceOption]
          | false =>
            have hes := ih (i + 1) { l.note (.test e) with someSynced := true }
            rw [hcount] at hes
            dsimp only [Locals.note] at hes
            simp [pass2, hes, resynced, isLeaf, complete, hroot, hv, List.reduceOption]

end Gasnet.Event
