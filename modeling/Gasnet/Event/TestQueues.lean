import Gasnet.Event.TestArray

/-! The queues that the first pass links the synced ops into, and the free lists they end on. -/
namespace Gasnet.Event

variable {O T : Type*} [DecidableEq O] [DecidableEq T] {ops : Ops O T} {live : Nat → Live O}
  {es : List (Option (Handle O))} {l l' : Locals O T} {i j n : Nat} {e : Handle O} {o : O}
  {R : List O} {k : Kind} {t me : T} {b : Bool}

/-- The owner of the first op of a kind. -/
def firstOwner (ops : Ops O T) (R : List O) (k : Kind) : Option T :=
  (R.find? fun o => ops.kind o = k).map ops.owner

/-- The ops in one queue of a kind. -/
def queued (ops : Ops O T) (R : List O) (k : Kind) (b : Bool) : List O :=
  R.filter fun o => ops.kind o = k ∧ decide (firstOwner ops R k ≠ some (ops.owner o)) = b

/-- The queues hold the ops of `R`. -/
structure Queued (ops : Ops O T) (l : Locals O T) (R : List O) : Prop where
  holds : ∀ k b, (l.queue k b).Holds l.next (queued ops R k b)
  threadidx : ∀ k, l.threadidx k = firstOwner ops R k

omit [DecidableEq O] in
theorem mem_queued : o ∈ queued ops R k b ↔
    o ∈ R ∧ ops.kind o = k ∧ decide (firstOwner ops R k ≠ some (ops.owner o)) = b := by
  simp [queued]

omit [DecidableEq O] in
theorem queued_disjoint {k' : Kind} {b' : Bool} (hne : ¬ (k = k' ∧ b = b'))
    (h : o ∈ queued ops R k b) : o ∉ queued ops R k' b' := by
  rw [mem_queued] at h ⊢
  rintro ⟨_, hk, hb⟩
  obtain ⟨_, rfl, rfl⟩ := h
  subst hk
  exact hne ⟨rfl, hb⟩

omit [DecidableEq O] [DecidableEq T] in
theorem firstOwner_push (ops : Ops O T) (R : List O) (o : O) (k : Kind) :
    firstOwner ops (R ++ [o]) k =
      if ops.kind o = k then some ((firstOwner ops R k).getD (ops.owner o))
      else firstOwner ops R k := by
  unfold firstOwner
  rw [List.find?_append]
  cases hf : R.find? fun o => ops.kind o = k with
  | some p => split <;> simp
  | none =>
    by_cases hk : ops.kind o = k
    · simp [hk]
    · simp [hk]

omit [DecidableEq O] in
/-- Which queue the next op goes to. -/
theorem queued_push (ops : Ops O T) (R : List O) (o : O) (k : Kind) (b : Bool) :
    queued ops (R ++ [o]) k b =
      if ops.kind o = k ∧
          decide (firstOwner ops (R ++ [o]) k ≠ some (ops.owner o)) = b then
        queued ops R k b ++ [o]
      else queued ops R k b := by
  have hold : (R.filter fun p => ops.kind p = k ∧
      decide (firstOwner ops (R ++ [o]) k ≠ some (ops.owner p)) = b) = queued ops R k b := by
    unfold queued
    refine List.filter_congr fun p hp => ?_
    by_cases hk : ops.kind p = k
    · have hsome : ∃ t, firstOwner ops R k = some t := by
        unfold firstOwner
        cases hf : R.find? fun o => ops.kind o = k with
        | some q => exact ⟨ops.owner q, rfl⟩
        | none =>
          have := List.find?_eq_none.mp hf p hp
          simp [hk] at this
      obtain ⟨t, ht⟩ := hsome
      have hsame : firstOwner ops (R ++ [o]) k = firstOwner ops R k := by
        rw [firstOwner_push, ht]
        split <;> rfl
      rw [hsame]
    · simp [hk]
  rw [queued, List.filter_append, hold, List.filter_cons]
  split
  · rename_i h
    rw [if_pos (by simpa using h)]
    rfl
  · rename_i h
    rw [if_neg (by simpa using h), List.filter_nil, List.append_nil]

omit [DecidableEq O] in
theorem queued_nodup (h : R.Nodup) (k : Kind) (b : Bool) : (queued ops R k b).Nodup :=
  h.filter _

/-- Chains that a step of the queues leaves alone. -/
def Keeps (R : List O) (next next' : O → Option O) : Prop :=
  ∀ h m e, Chain next h m e → (∀ a ∈ R, a ∉ m) → Chain next' h m e

/-- The second index of the queue that `syncRoot` links into. -/
def Locals.other (ops : Ops O T) (o : O) (l : Locals O T) : Bool :=
  match l.threadidx (ops.kind o) with
  | none => false
  | some t => decide (t ≠ ops.owner o)

theorem syncRoot_queued (hq : Queued ops l R) (ho : o ∉ R) :
    Queued ops (l.syncRoot ops o) (R ++ [o]) ∧
      Keeps (R ++ [o]) l.next (l.syncRoot ops o).next := by
  let other := l.other ops o
  have hidx := hq.threadidx (ops.kind o)
  have hother : decide (firstOwner ops (R ++ [o]) (ops.kind o) ≠ some (ops.owner o)) = other := by
    rw [firstOwner_push, if_pos rfl]
    simp only [other, Locals.other, hidx]
    cases firstOwner ops R (ops.kind o) <;> simp
  have hhold := hq.holds (ops.kind o) other
  have hnot : ∀ k b, o ∉ queued ops R k b := fun k b h => ho (mem_queued.mp h).1
  have hnext : (l.syncRoot ops o).next =
      ((l.queue (ops.kind o) other).push l.next o).2 := rfl
  refine ⟨⟨fun k b => ?_, fun k => ?_⟩, ?_⟩
  · rw [hnext, queued_push]
    by_cases hkb : ops.kind o = k ∧ other = b
    · obtain ⟨rfl, rfl⟩ := hkb
      rw [if_pos ⟨rfl, hother⟩]
      have hqueue : (l.syncRoot ops o).queue (ops.kind o) other =
          ((l.queue (ops.kind o) other).push l.next o).1 := by
        simp only [Locals.syncRoot, Function.update_self]
        exact Function.update_self other _ _
      rw [hqueue]
      exact hhold.push (hnot _ _)
    · have hif : ¬ (ops.kind o = k ∧
          decide (firstOwner ops (R ++ [o]) k ≠ some (ops.owner o)) = b) := by
        rintro ⟨rfl, hb⟩
        exact hkb ⟨rfl, hother.symm.trans hb⟩
      rw [if_neg hif]
      have hqueue : (l.syncRoot ops o).queue k b = l.queue k b := by
        by_cases hk : k = ops.kind o
        · subst hk
          have hb : b ≠ other := fun hb => hkb ⟨rfl, hb.symm⟩
          simp only [Locals.syncRoot, Function.update_self]
          exact Function.update_of_ne hb _ _
        · simp [Locals.syncRoot, hk]
      rw [hqueue]
      have hkeep := hq.holds k b
      refine ⟨Queue.push_chain hhold.tail hkeep.chain ?_ (hnot k b), hkeep.tail, hkeep.nodup⟩
      exact fun a ha => queued_disjoint hkb ha
  · rw [firstOwner_push]
    by_cases hk : ops.kind o = k
    · subst hk
      rw [if_pos rfl, ← hidx]
      simp [Locals.syncRoot]
    · rw [if_neg hk, ← hq.threadidx k]
      simp [Locals.syncRoot, Ne.symm hk]
  · intro h m e hm hdis
    rw [hnext]
    refine Queue.push_chain hhold.tail hm (fun a ha => ?_) (hdis o (by simp))
    exact hdis a (List.mem_append_left _ (mem_queued.mp ha).1)

/-- The entry step queues an op exactly when it syncs its root. -/
theorem entry_queued (v : Live O) (hq : Queued ops l R)
    (ho : complete v e = true → e.2 = 0 → e.1 ∉ R) :
    Queued ops (l.entry ops v e).2 (R ++ roots (if complete v e then [e] else [])) ∧
      Keeps (R ++ roots (if complete v e then [e] else [])) l.next (l.entry ops v e).2.next := by
  have hkeep : Queued ops l (R ++ []) ∧ Keeps (R ++ []) l.next l.next :=
    ⟨by rwa [List.append_nil], fun _ _ _ hm _ => hm⟩
  by_cases hroot : e.2 = 0
  · cases hc : complete v e with
    | true =>
      have hv : anyLive v e.1 = false := by simpa [complete, hroot] using hc
      have hsync := syncRoot_queued (o := e.1)
        (l := { l with empty := false }.note (.test e)) ⟨hq.holds, hq.threadidx⟩ (ho hc hroot)
      have hroots : roots (if true = true then [e] else []) = [e.1] := by simp [roots, hroot]
      rw [hroots]
      have hentry : l.entry ops v e = (none, { ({ l with empty := false }.note
          (.test e)).syncRoot ops e.1 with someSynced := true }) := by
        unfold Locals.entry
        simp [hroot, hv]
      rw [hentry]
      exact ⟨⟨hsync.1.holds, hsync.1.threadidx⟩, hsync.2⟩
    | false =>
      have hv : anyLive v e.1 = true := by simpa [complete, hroot] using hc
      have hentry : (l.entry ops v e).2 = { l with
          empty := false, allSynced := false, log := l.log ++ [Touch.test e] } := by
        unfold Locals.entry
        simp [hroot, hv]
      rw [hentry]
      exact ⟨⟨hkeep.1.holds, hkeep.1.threadidx⟩, hkeep.2⟩
  · have hroots : roots (if complete v e = true then [e] else []) = [] := by
      split <;> simp [roots, hroot]
    rw [hroots]
    have hlinks : (l.entry ops v e).2.next = l.next ∧ (l.entry ops v e).2.queue = l.queue ∧
        (l.entry ops v e).2.threadidx = l.threadidx := by
      unfold Locals.entry
      cases v e.1 e.2 <;> simp [hroot]
    obtain ⟨h1, h2, h3⟩ := hlinks
    refine ⟨⟨fun k b => ?_, fun k => ?_⟩, ?_⟩
    · rw [h1, h2]
      exact hkeep.1.holds k b
    · rw [h3]
      exact hkeep.1.threadidx k
    · rw [h1]
      exact hkeep.2

omit [DecidableEq O] [DecidableEq T] in
theorem roots_append (xs ys : List (Handle O)) : roots (xs ++ ys) = roots xs ++ roots ys := by
  simp [roots]

theorem pass1_queued (ops : Ops O T) (live : Nat → Live O) (i : Nat)
    (es : List (Option (Handle O))) (hq : Queued ops l R)
    (hnodup : (R ++ roots (synced live i es)).Nodup) :
    Queued ops (pass1 ops live i es l).2 (R ++ roots (synced live i es)) ∧
      Keeps (R ++ roots (synced live i es)) l.next (pass1 ops live i es l).2.next := by
  induction es generalizing i l R with
  | nil =>
    simp only [synced, roots, List.filter_nil, List.map_nil, List.append_nil, pass1]
    exact ⟨hq, fun _ _ _ hm _ => hm⟩
  | cons d es ih =>
    cases d with
    | none => exact ih (i + 1) hq hnodup
    | some e =>
      have hcons : synced live i (some e :: es) =
          (if complete (live i) e then [e] else []) ++ synced live (i + 1) es := by
        simp only [synced]
        split <;> rfl
      rw [hcons, roots_append, ← List.append_assoc] at hnodup ⊢
      have ho : complete (live i) e = true → e.2 = 0 → e.1 ∉ R := by
        intro hc hroot hm
        rw [hc, if_pos rfl] at hnodup
        have := (List.nodup_append.mp (List.nodup_append.mp hnodup).1).2.2 _ hm e.1
          (by simp [roots, hroot])
        exact this rfl
      obtain ⟨hq', hkeep⟩ := entry_queued (live i) hq ho
      obtain ⟨hq'', hkeep'⟩ := ih (i + 1) hq' hnodup
      refine ⟨hq'', fun h m v hm hdis => hkeep' h m v (hkeep h m v hm ?_) hdis⟩
      exact fun a ha => hdis a (List.mem_append_left _ ha)

end Gasnet.Event
