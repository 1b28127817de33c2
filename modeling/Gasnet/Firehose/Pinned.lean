import Gasnet.Firehose.Accounting
import Gasnet.Firehose.Sound

/-! In every reachable state the tables are sound, those about the node's own memory and those
about every peer. -/
namespace Gasnet.Firehose

variable {c : Params} {x : Priv} {p n : Nat} {r : Region}

namespace Table

variable {t : Table} {st : Status} {g : Nat} {rest : List Nat}

/-- No pin is in flight for any entry. -/
def Settled (t : Table) : Prop := ∀ e ∈ t.tags, ¬e.2.isPending

theorem Settled.setStatus (h : t.Settled) (hst : ¬st.isPending) : (t.setStatus p st).Settled := by
  intro e he
  rw [tags_setStatus] at he
  obtain ⟨d, hd, rfl⟩ := List.mem_map.1 he
  split
  · exact hst
  · exact h d hd

theorem Settled.setFifo (h : t.Settled) : { t with fifo := rest }.Settled := h

theorem Settled.createPriv (h : t.Settled) (hst : ¬st.isPending) :
    (t.createPriv g r st).Settled := by
  intro e he
  rw [tags_createPriv] at he
  obtain rfl | he := List.mem_cons.1 he
  · exact hst
  · exact h e he

theorem Settled.evict (h : t.Settled) : (t.evict p rest).Settled := by
  intro e he
  rw [Table.evict, tags_destroyPriv] at he
  exact h e (List.mem_filter.1 he).1

theorem Settled.freeVictim (h : t.Settled) : (t.freeVictim n).Settled := by
  induction n generalizing t with
  | zero => exact h
  | succ n ih =>
    unfold Table.freeVictim
    split
    · exact h
    · exact ih h.evict

theorem Settled.cleanCovered (h : t.Settled) : (t.cleanCovered n).1.Settled := by
  induction n generalizing t with
  | zero => exact h
  | succ n ih =>
    unfold Table.cleanCovered
    split
    · exact h
    · split
      · exact ih h.evict
      · exact h

end Table

def Task.Aligned (g : Nat) : Task → Prop
  | .make r | .retry r | .again r | .serve r => r.Aligned g
  | .settle _ => True

namespace Own

variable {s t : Own} {task : Task} {localRef : Bool}

/-- The tables are sound, and every thread off the lock works for whole buckets. -/
structure Good (c : Params) (s : Own) : Prop where
  sound : s.table.Sound c.bucketSize
  settled : s.table.Settled
  waiting : ∀ task ∈ s.waiting, task.Aligned c.bucketSize
  moving : ∀ task ∈ s.moving, task.Aligned c.bucketSize

theorem good_initial : Good c initial := 
  ⟨Table.sound_empty, by simp [initial, Table.Settled, Table.tags, Table.entries, Table.empty],
    by simp [initial], by simp [initial]⟩

theorem Good.privAcquireLocal (h : Good c s) : Good c (s.privAcquireLocal localRef x) := by
  unfold Own.privAcquireLocal
  split
  · exact ⟨h.sound.setStatus.setFifo, (h.settled.setStatus (by simp [Status.isPending])).setFifo, h.waiting, h.moving⟩
  · split
    · exact ⟨h.sound.setStatus, h.settled.setStatus (by simp [Status.isPending]), h.waiting, h.moving⟩
    · exact h

theorem Good.privReleaseLocal (h : Good c s) : Good c (s.privReleaseLocal localRef x) := by
  unfold Own.privReleaseLocal
  split
  · simp only
    split
    · exact ⟨h.sound.setStatus.setFifo, (h.settled.setStatus (by simp [Status.isPending])).setFifo, h.waiting, h.moving⟩
    · exact ⟨h.sound.setStatus, h.settled.setStatus (by simp [Status.isPending]), h.waiting, h.moving⟩
  · exact h

theorem Good.hold (h : Good c s) : Good c (s.hold localRef p) := by
  unfold Own.hold
  split
  · exact ⟨h.sound, h.settled, h.waiting, h.moving⟩
  · exact h

theorem Good.waitLocalFirehoses (h : Good c s) (hw : s.waitLocalFirehoses c = some (t, n)) :
    Good c t := by
  unfold Own.waitLocalFirehoses at hw
  split at hw
  · obtain ⟨rfl, rfl⟩ := Prod.mk.inj (Option.some.inj hw)
    exact ⟨h.sound, h.settled, h.waiting, h.moving⟩
  · split at hw
    · obtain ⟨rfl, rfl⟩ := Prod.mk.inj (Option.some.inj hw)
      exact ⟨h.sound.freeVictim, h.settled.freeVictim, h.waiting, h.moving⟩
    · cases hw

theorem Good.enter (h : Good c s) (ht : task.Aligned c.bucketSize) : Good c (s.enter c task) := by
  unfold Own.enter
  split
  · exact ⟨h.sound, h.settled, List.forall_mem_cons.2 ⟨ht, h.waiting⟩, h.moving⟩
  · rename_i hw
    have h' := h.waitLocalFirehoses hw
    exact ⟨h'.sound.cleanCovered, h'.settled.cleanCovered, h'.waiting, List.forall_mem_cons.2 ⟨ht, h'.moving⟩⟩

theorem dvd_successor (h : Good c s) (hr : c.bucketSize ∣ r.addr + r.len) :
    c.bucketSize ∣ s.successor c r := by
  unfold successor
  split
  · rename_i x hx
    obtain ⟨hx, _⟩ := h.sound.of_lookup hx
    have hlast : c.bucketSize ∣ x.region.last + 1 :=
      Table.last_add_one hx.1 ▸ Nat.dvd_add hx.1.1 hx.1.2.1
    simp only
    split
    · exact Nat.dvd_sub hlast hr
    · exact Nat.dvd_zero _
  · exact Nat.dvd_zero _

theorem dvd_predecessor (h : Good c s) (hr : c.bucketSize ∣ r.addr) :
    c.bucketSize ∣ s.predecessor c r := by
  unfold predecessor
  split
  · exact Nat.dvd_zero _
  · split
    · rename_i x hx
      obtain ⟨hx, _⟩ := h.sound.of_lookup hx
      simp only
      split
      · exact Nat.dvd_sub hr hx.1.1
      · exact Nat.dvd_zero _
    · exact Nat.dvd_zero _

theorem aligned_mergeRegions (h : Good c s) (hr : r.Aligned c.bucketSize) :
    (s.mergeRegions c r).Aligned c.bucketSize := by
  obtain ⟨haddr, hlen, hpos⟩ := hr
  have hforward := dvd_successor h (Nat.dvd_add haddr hlen)
  have hback := dvd_predecessor h (r := ⟨r.addr, r.len + s.successor c r⟩) haddr
  refine ⟨Nat.dvd_sub haddr hback, Nat.dvd_add (Nat.dvd_add hlen hforward) hback, ?_⟩
  simp only [mergeRegions]
  omega

theorem Good.acquireLocalRegion (h : Good c s) (hr : r.Aligned c.bucketSize) :
    Good c (s.acquireLocalRegion c r) := by
  unfold Own.acquireLocalRegion
  split
  · exact h.enter (aligned_mergeRegions h hr)
  · split
    · exact h.privAcquireLocal.hold
    · exact h.enter hr

theorem Good.initNew (h : Good c s) (hr : r.Aligned c.bucketSize) :
    Good c (s.initNew c localRef r) := by
  have hcreate : Good c { s with
      table := s.table.createPriv c.bucketSize r (.used localRef.toNat (!localRef).toNat) } :=
    ⟨h.sound.createPriv c.bucketSize_pos hr, h.settled.createPriv (by simp [Status.isPending]), h.waiting, h.moving⟩
  exact hcreate.hold

theorem Good.initDuplicate (h : Good c s) : Good c (s.initDuplicate localRef x) := by
  have h' : Good c ((s.privAcquireLocal localRef x).hold localRef x.ptr) := h.privAcquireLocal.hold
  exact ⟨h'.sound, h'.settled, h'.waiting, List.forall_mem_cons.2 ⟨trivial, h'.moving⟩⟩

theorem Good.initLocalRegion (h : Good c s) (hr : r.Aligned c.bucketSize) :
    Good c (s.initLocalRegion c localRef r) := by
  unfold Own.initLocalRegion
  split
  · exact h.initNew hr
  · split
    · exact h.enter hr
    · exact h.initDuplicate

theorem Good.proceed (h : Good c s) (ht : task.Aligned c.bucketSize) :
    Good c (s.proceed c task) := by
  have hdec {k : Int} : Good c { s with onlyPinned := k } := ⟨h.sound, h.settled, h.waiting, h.moving⟩
  cases task with
  | make r => exact h.initLocalRegion ht
  | serve r => exact h.initLocalRegion ht
  | retry r => exact hdec.acquireLocalRegion ht
  | again r =>
    unfold Own.proceed
    simp only
    split
    · exact hdec.initNew ht
    · exact hdec.initDuplicate
  | settle localRef => exact hdec

theorem Good.resume (h : Good c s) (ht : task.Aligned c.bucketSize) : Good c (s.resume c task) := by
  unfold Own.resume
  split
  · exact h
  · rename_i t n hw
    have h' := h.waitLocalFirehoses hw
    have herase : Good c { t with waiting := t.waiting.erase task } :=
      ⟨h'.sound, h'.settled, fun k hk => h'.waiting k (List.mem_of_mem_erase hk), h'.moving⟩
    simp only
    split
    · exact herase.proceed ht
    · exact ⟨h'.sound.cleanCovered, h'.settled.cleanCovered, herase.waiting, List.forall_mem_cons.2 ⟨ht, h'.moving⟩⟩

theorem Good.adjustLocalFifo (h : Good c s) : Good c (s.adjustLocalFifo c) :=
  ⟨h.sound.freeVictim, h.settled.freeVictim, h.waiting, h.moving⟩

theorem Good.releaseRegion (h : Good c s) : Good c (s.releaseRegion r) := by
  unfold Own.releaseRegion
  split
  · exact h
  · exact h.privReleaseLocal

theorem Good.releaseRegions {old : List Region} (h : Good c s) :
    Good c (old.foldl Own.releaseRegion s) := by
  induction old generalizing s with
  | nil => exact h
  | cons r old ih => exact ih h.releaseRegion

theorem Good.moveRequest {old : List Region} (h : Good c s) (hr : r.Aligned c.bucketSize) :
    Good c (s.moveRequest c r old) := by
  unfold Own.moveRequest
  split
  · have h' : Good c ((old.foldl Own.releaseRegion s).adjustLocalFifo c) :=
      h.releaseRegions.adjustLocalFifo
    exact ⟨h'.sound, h'.settled, h'.waiting,
      List.forall_mem_cons.2 ⟨aligned_mergeRegions h hr, h'.moving⟩⟩
  · exact h.privAcquireLocal.releaseRegions.adjustLocalFifo

theorem good_step {a : LocalAction} (hstep : LocalStep c s a t) (h : Good c s) : Good c t := by
  cases hstep with
  | pin ha _ => exact h.acquireLocalRegion ha
  | resume ht => exact h.resume (h.waiting _ ht)
  | @proceed task ht =>
    have h' : Good c { s with moving := s.moving.erase task } :=
      ⟨h.sound, h.settled, h.waiting, fun k hk => h.moving k (List.mem_of_mem_erase hk)⟩
    exact h'.proceed (h.moving _ ht)
  | acquire _ _ => exact h.privAcquireLocal.hold
  | @release x _ _ =>
    have h' : Good c (s.privReleaseLocal true x) := h.privReleaseLocal
    exact Good.adjustLocalFifo ⟨h'.sound, h'.settled, h'.waiting, h'.moving⟩
  | move ha _ _ => exact h.moveRequest ha

end Own

namespace Peer

variable {s t : Peer}

structure Good (c : Params) (s : Peer) : Prop where
  sound : s.table.Sound c.bucketSize
  stalled : ∀ r ∈ s.stalled, r.Aligned c.bucketSize

theorem good_initial : Good c initial := ⟨Table.sound_empty, by simp [initial]⟩

theorem Good.privAcquireRemote (h : Good c s) : Good c (s.privAcquireRemote x) := by
  unfold Peer.privAcquireRemote
  split
  · exact ⟨h.sound.setStatus.setFifo, h.stalled⟩
  · split
    · exact ⟨h.sound.setStatus, h.stalled⟩
    · exact h

theorem Good.waitRemoteFirehoses (h : Good c s) (hw : s.waitRemoteFirehoses = some t) :
    Good c t := by
  unfold Peer.waitRemoteFirehoses at hw
  split at hw
  · obtain rfl := Option.some.inj hw
    exact ⟨h.sound.freeVictim, h.stalled⟩
  · cases hw

theorem Good.miss (h : Good c s) (hr : r.Aligned c.bucketSize) : Good c (s.miss c r n) :=
  ⟨h.sound.cleanCovered.createPriv c.bucketSize_pos hr, h.stalled⟩

theorem good_step {a : RemoteAction} (hstep : RemoteStep c s a t) (h : Good c s) : Good c t := by
  cases hstep with
  | pin ha _ =>
    unfold acquireRemoteRegion
    split
    · split
      · rename_i s' n hslot
        unfold acquireSlot at hslot
        split at hslot
        · obtain ⟨rfl, rfl⟩ := Prod.mk.inj (Option.some.inj hslot)
          exact Good.miss ⟨h.sound, h.stalled⟩ ha
        · obtain ⟨u, hu, hus⟩ := Option.map_eq_some_iff.1 hslot
          obtain ⟨rfl, rfl⟩ := Prod.mk.inj hus
          exact (h.waitRemoteFirehoses hu).miss ha
      · exact ⟨h.sound, List.forall_mem_cons.2 ⟨ha, h.stalled⟩⟩
    · split
      · exact ⟨h.sound.setStatus, h.stalled⟩
      · exact h.privAcquireRemote
  | @resume req hmem =>
    unfold resume
    split
    · rename_i hw
      have h' := h.waitRemoteFirehoses hw
      exact Good.miss ⟨h'.sound, fun r hr => h'.stalled r (List.mem_of_mem_erase hr)⟩
        (h.stalled _ hmem)
    · exact h
  | reply hx _ ha hc =>
    unfold findPendingCallbacks
    split
    · exact ⟨(h.sound.updatePriv c.bucketSize_pos hx ha hc).setStatus, h.stalled⟩
    · exact h
  | acquire _ _ => exact h.privAcquireRemote
  | release _ _ =>
    unfold privReleaseRemote
    split
    · simp only
      split
      · exact ⟨h.sound.setStatus.setFifo, h.stalled⟩
      · exact ⟨h.sound.setStatus, h.stalled⟩
    · exact h

end Peer

variable {Node : Type} [DecidableEq Node] {me : Node} {s t : State Node} {a : Action Node}

def State.Good (c : Params) (s : State Node) : Prop := s.own.Good c ∧ ∀ q, (s.peer q).Good c

theorem good_step (h : Step c me s a t) (hs : s.Good c) : t.Good c := by
  obtain ⟨hown, hpeer⟩ := hs
  cases h with
  | own h => exact ⟨Own.good_step h hown, hpeer⟩
  | @peer p _ u _ h =>
    refine ⟨hown, fun q => ?_⟩
    by_cases hqp : q = p
    · subst hqp
      simpa using Peer.good_step h (hpeer q)
    · simpa [hqp] using hpeer q

theorem good_reachable (h : Reachable (Step c me) initial s) : s.Good c :=
  h.invariant good_step ⟨Own.good_initial, fun _ => Peer.good_initial⟩

end Gasnet.Firehose
