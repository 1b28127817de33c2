import Gasnet.Firehose.Accounting
import Gasnet.Firehose.References

/-! The two local counters over any run: what each operation leaves reserved, and the limit on
the entries that count as local only. -/
namespace Gasnet.Firehose

variable {c : Params} {s t : Own} {x : Priv} {n k : Nat} {r : Region} {b : Bool}
  {w : Task} {a : LocalAction}

/-- The slots a thread that polls has already reserved. -/
def Task.waitSlots : Task → Nat
  | .again _ => 1
  | _ => 0

/-- The slots reserved by a thread that moves regions: one for its own pin, and one more that
`fhi_wait_for_one` has got it. -/
def Task.slots : Task → Nat
  | .make _ | .retry _ => 1
  | .again _ => 2
  | .serve _ => 0
  | .settle localRef => localRef.toNat

namespace Own

/-- Slots reserved for pins in progress. -/
def reserved (s : Own) : Nat :=
  (s.waiting.map Task.waitSlots).sum + (s.moving.map Task.slots).sum

@[simp] theorem hold_onlyPinned {p : Nat} : (s.hold b p).onlyPinned = s.onlyPinned := by
  cases b <;> rfl

@[simp] theorem hold_waiting {p : Nat} : (s.hold b p).waiting = s.waiting := by
  cases b <;> rfl

@[simp] theorem hold_moving {p : Nat} : (s.hold b p).moving = s.moving := by
  cases b <;> rfl

/-- The running thread has `k` slots of its own in hand, and the limit is kept. Only threads in
want of a slot poll. -/
structure Kept (c : Params) (s : Own) (k : Nat) : Prop where
  counted : s.Counted (s.reserved + k)
  limit : s.onlyPinned ≤ c.maxVictimBuckets
  wanting : ∀ task ∈ s.waiting, task.slots = task.waitSlots + 1

theorem kept_initial : Kept c initial 0 :=
  ⟨counted_initial, Int.natCast_nonneg _, by simp [initial]⟩

/-- A slot in hand is left with a thread that goes on later. -/
theorem Kept.park (h : Kept c s (k + w.slots)) :
    Kept c { s with moving := w :: s.moving } k := by
  refine ⟨?_, h.limit, h.wanting⟩
  have hcounted := (h.counted).threads (w := s.waiting) (m := w :: s.moving)
  convert hcounted using 1
  simp only [reserved, List.map_cons, List.sum_cons]
  push_cast
  ring

theorem Kept.unpark (h : Kept c s k) (ht : w ∈ s.moving) :
    Kept c { s with moving := s.moving.erase w } (k + w.slots) := by
  refine ⟨?_, h.limit, h.wanting⟩
  have hcounted := h.counted.threads (w := s.waiting) (m := s.moving.erase w)
  have hsum := ((List.perm_cons_erase ht).map Task.slots).sum_nat
  rw [List.map_cons, List.sum_cons] at hsum
  convert hcounted using 1
  simp only [reserved, hsum]
  push_cast
  ring

/-- The slot in hand is given up. -/
theorem Kept.giveUp (h : Kept c s (k + n)) :
    Kept c { s with onlyPinned := s.onlyPinned - n } k := by
  have hcounted := h.counted.reserve (k := -n) (w := s.waiting) (m := s.moving)
  refine ⟨?_, ?_, h.wanting⟩
  · rw [sub_eq_add_neg]
    convert hcounted using 1
    change (s.reserved : Int) + k = _
    push_cast
    ring
  · have := h.limit
    simp only
    omega

theorem Kept.cleanCoveredLocal (h : Kept c s k) : Kept c (s.cleanCoveredLocal n) k := by
  refine ⟨h.counted.cleanCoveredLocal, ?_, h.wanting⟩
  have := h.limit
  simp only [Own.cleanCoveredLocal]
  omega

theorem Kept.waitLocalFirehoses (h : Kept c s k) (hw : s.waitLocalFirehoses c = some (t, n)) :
    Kept c t (k + 1) ∧ t.waiting = s.waiting ∧ t.moving = s.moving := by
  obtain ⟨hcounted, hle, hwait, hmove⟩ := waitLocalFirehoses_spec h.counted h.limit hw
  refine ⟨⟨?_, hle, hwait ▸ h.wanting⟩, hwait, hmove⟩
  rw [reserved, hwait, hmove, Nat.cast_add (m := k), ← add_assoc]
  exact hcounted

theorem Kept.enter (h : Kept c s w.waitSlots) (ht : w.slots = w.waitSlots + 1) :
    Kept c (s.enter c w) 0 := by
  unfold Own.enter
  split
  · refine ⟨?_, h.limit, List.forall_mem_cons.2 ⟨ht, h.wanting⟩⟩
    have hcounted := h.counted.threads (w := w :: s.waiting) (m := s.moving)
    convert hcounted using 1
    simp only [reserved, List.map_cons, List.sum_cons]
    push_cast
    ring
  · rename_i t n hw
    have hslot := (h.waitLocalFirehoses hw).1.cleanCoveredLocal (n := maxUnpinLoc - n)
    rw [← ht, ← Nat.zero_add w.slots] at hslot
    exact hslot.park

theorem Kept.acquire (h : Kept c s k) (hx : x ∈ s.table.privs)
    (hr : b = true → s.isReady c x = true) :
    Kept c ((s.privAcquireLocal b x).hold b x.ptr) k := by
  obtain ⟨hwait, hmove⟩ := threads_privAcquireLocal (s := s) (b := b) (x := x)
  refine ⟨?_, ?_, ?_⟩
  · rw [reserved, hold_waiting, hold_moving, hwait, hmove]
    exact h.counted.acquire hx
  · rw [hold_onlyPinned]
    exact privAcquireLocal_le h.counted hx hr h.limit
  · rw [hold_waiting, hwait]
    exact h.wanting

theorem Kept.acquireLocalRegion (h : Kept c s 0) : Kept c (s.acquireLocalRegion c r) 0 := by
  unfold Own.acquireLocalRegion
  split
  · exact Kept.enter (w := .make _) h rfl
  · rename_i x hx
    split
    · rename_i hready
      exact h.acquire (Table.mem_of_lookup (Table.findPriv_eq_some.1 hx).1).1 fun _ => hready
    · exact Kept.enter (w := .retry _) h rfl

theorem Kept.initNew (h : Kept c s (k + b.toNat)) (hr : s.regionToPriv r = none) :
    Kept c (s.initNew c b r) k := by
  have hcounted : Counted s ((s.reserved + k : Int) + b.toNat) := by
    have := h.counted
    push_cast at this
    rwa [add_assoc]
  unfold Own.initNew
  refine ⟨?_, by simpa using h.limit, by simpa using h.wanting⟩
  rw [reserved, hold_waiting, hold_moving]
  exact hcounted.create (not_mem_regions hr)

theorem Kept.initDuplicate (h : Kept c s (k + b.toNat)) (hx : x ∈ s.table.privs)
    (hr : b = true → s.isReady c x = true) : Kept c (s.initDuplicate b x) k :=
  (h.acquire hx hr).park (w := .settle b)

theorem Kept.initLocalRegion (h : Kept c s b.toNat) :
    Kept c (s.initLocalRegion c b r) 0 := by
  unfold Own.initLocalRegion
  split
  · rename_i hnone
    exact Kept.initNew (by simpa using h) hnone
  · rename_i x hx
    split
    · rename_i hwait
      obtain ⟨hloc, _⟩ := (Bool.and_eq_true _ _).mp hwait
      rw [hloc] at h
      exact Kept.enter (w := .again r) h rfl
    · rename_i hwait
      refine Kept.initDuplicate (by simpa using h) (mem_of_regionToPriv hx).1 fun hloc => ?_
      simpa [hloc] using hwait

/-- Giving up a slot makes room for a local reference. -/
theorem isReady_giveUp (h : s.onlyPinned ≤ c.maxVictimBuckets) :
    { s with onlyPinned := s.onlyPinned - 1 }.isReady c x = true := by
  have hav : ({ s with onlyPinned := s.onlyPinned - 1 } : Own).avail c ≠ 0 := by
    simp only [avail]
    omega
  simp [isReady, hav]

theorem Kept.proceed (h : Kept c s w.slots) : Kept c (s.proceed c w) 0 := by
  cases w with
  | make r => exact Kept.initLocalRegion (b := true) h
  | serve r => exact Kept.initLocalRegion (b := false) h
  | retry r =>
    have hgive : Kept c { s with onlyPinned := s.onlyPinned - 1 } 0 := Kept.giveUp (n := 1) h
    exact hgive.acquireLocalRegion
  | again r =>
    have hgive : Kept c { s with onlyPinned := s.onlyPinned - 1 } 1 := Kept.giveUp (n := 1) h
    unfold Own.proceed
    simp only
    split
    · rename_i hnone
      exact Kept.initNew (b := true) hgive hnone
    · rename_i x hx
      exact Kept.initDuplicate (b := true) hgive (mem_of_regionToPriv hx).1
        fun _ => isReady_giveUp h.limit
  | settle b =>
    rw [← Nat.zero_add (Task.slots _)] at h
    exact h.giveUp

theorem Kept.resume (h : Kept c s 0) (ht : w ∈ s.waiting) : Kept c (s.resume c w) 0 := by
  unfold Own.resume
  split
  · exact h
  · rename_i t n hw
    obtain ⟨hslot, hwait, hmove⟩ := h.waitLocalFirehoses hw
    have hwant := h.wanting w ht
    -- The slot just got is added to those the thread had while it polled.
    have herase : Kept c { t with waiting := t.waiting.erase w } w.slots := by
      refine ⟨?_, hslot.limit, fun k hk => hslot.wanting k (List.mem_of_mem_erase hk)⟩
      have hcounted := hslot.counted.threads (w := t.waiting.erase w) (m := t.moving)
      have hsum := ((List.perm_cons_erase (hwait ▸ ht)).map Task.waitSlots).sum_nat
      rw [List.map_cons, List.sum_cons] at hsum
      convert hcounted using 1
      simp only [reserved, hsum, hwant]
      push_cast
      ring
    simp only
    split
    · exact herase.proceed
    · have hclean := herase.cleanCoveredLocal (n := maxUnpinLoc - n)
      rw [← Nat.zero_add w.slots] at hclean
      exact hclean.park

/-- The states in which a step calls `fh_AdjustLocalFifoAndPin`. -/
inductive Adjusts (c : Params) (s : Own) : LocalAction → Own → Prop
  | release {x : Priv} (hx : x ∈ s.table.privs) (hh : x.ptr ∈ s.held) :
      Adjusts c s (.release x.ptr) { s.privReleaseLocal true x with held := s.held.erase x.ptr }
  | miss {new : Region} {old : List Region} (hold : ∀ r ∈ old, s.Refs r (old.count r))
      (hmiss : s.table.findPriv new = none) :
      Adjusts c s (.move new old) (old.foldl releaseRegion s)
  | hit {new : Region} {old : List Region} {x : Priv} (hold : ∀ r ∈ old, s.Refs r (old.count r))
      (hhit : s.table.findPriv new = some x) :
      Adjusts c s (.move new old) (old.foldl releaseRegion (s.privAcquireLocal false x))

/-- In every call the counters are right and the FIFO has the victims asked for. -/
theorem Kept.adjusts (h : Kept c s 0) (ha : Adjusts c s a t) :
    Counted t s.reserved ∧ t.CanAdjust c ∧ t.waiting = s.waiting ∧ t.moving = s.moving := by
  have hcounted : Counted s s.reserved := by simpa using h.counted
  have hlimit := h.limit
  cases ha with
  | @release x hx hh =>
    obtain ⟨hrel, _, hle⟩ := hcounted.release (b := true) hx (fun _ => hh)
      (fun h => by cases h)
    obtain ⟨hwait, hmove⟩ := threads_privReleaseLocal (s := s) (b := true) (x := x)
    have hle := hle rfl
    exact ⟨hrel, by simp only [CanAdjust]; omega, hwait, hmove⟩
  | miss hold _ => exact releaseRegions_spec hcounted (by omega) hold
  | @hit _ _ x hold hhit =>
    have hx := (Table.mem_of_lookup (Table.findPriv_eq_some.1 hhit).1).1
    obtain ⟨hwait, hmove⟩ := threads_privAcquireLocal (s := s) (b := false) (x := x)
    have hle := privAcquireLocal_le (b := false) hcounted hx (fun h => by cases h) hlimit
    have hacq : Counted (s.privAcquireLocal false x) s.reserved :=
      hcounted.acquire (b := false) hx
    rw [← hwait, ← hmove]
    exact releaseRegions_spec hacq (by omega) fun r hr => hcounted.refs_acquire hx (hold r hr)

theorem Kept.adjustLocalFifo (h : Kept c s 0) (ha : Adjusts c s a t) :
    Kept c (t.adjustLocalFifo c) 0 := by
  obtain ⟨hcounted, hfit, hwait, hmove⟩ := h.adjusts ha
  obtain ⟨hadj, hle⟩ := hcounted.adjustLocalFifo hfit
  refine ⟨?_, hle, hwait ▸ h.wanting⟩
  have hsame : (t.adjustLocalFifo c).reserved = s.reserved := by
    simp only [reserved, Own.adjustLocalFifo, Own.freeVictimLocal, hwait, hmove]
  rw [hsame]
  simpa using hadj

theorem kept_step (hstep : LocalStep c s a t) (h : Kept c s 0) : Kept c t 0 := by
  cases hstep with
  | pin _ _ => exact h.acquireLocalRegion
  | resume ht => exact h.resume ht
  | proceed ht =>
    have hunpark := h.unpark ht
    rw [Nat.zero_add] at hunpark
    exact hunpark.proceed
  | acquire hx hr => exact h.acquire hx fun _ => hr
  | release hx hh =>
    unfold releaseLocalRegion
    simp only [held_privReleaseLocal]
    exact h.adjustLocalFifo (.release hx hh)
  | @move new _ _ _ hold =>
    unfold moveRequest
    split
    · rename_i hmiss
      exact Kept.park (w := .serve _) (h.adjustLocalFifo (@Adjusts.miss c s new _ hold hmiss))
    · rename_i hhit
      exact h.adjustLocalFifo (.hit hold hhit)

/-- The counters of the node's own table say what they are meant to. -/
structure Accounted (c : Params) (s : Own) : Prop where
  victims : s.victimFifoBuckets = s.table.fifo.length
  nodup : s.table.fifo.Nodup
  fifo : ∀ p, p ∈ s.table.fifo ↔ ∃ x ∈ s.table.privs, x.ptr = p ∧ x.status = .used 0 0
  only : s.onlyPinned = s.table.fifo.length +
    (s.table.privs.countP fun x => x.status.isLocal) + s.reserved
  limit : s.onlyPinned ≤ c.maxVictimBuckets
  adjust : ∀ a t, Adjusts c s a t →
    (t.onlyPinned - c.maxVictimBuckets).toNat ≤ t.table.fifo.length

theorem Kept.accounted (h : Kept c s 0) : s.Accounted c where
  victims := h.counted.count
  nodup := h.counted.fifoNodup
  fifo p := by
    constructor
    · intro hp
      have hmem := h.counted.fifoMem p hp
      rw [Table.ptrs_eq] at hmem
      obtain ⟨x, hx, rfl⟩ := List.mem_map.1 hmem
      obtain ⟨k, hst, hfifo⟩ := h.counted.used_of hx
      obtain ⟨hl, rfl⟩ := hfifo.1 hp
      exact ⟨x, hx, rfl, by rw [hst, hl]⟩
    · rintro ⟨x, hx, rfl, hst⟩
      have hfits := h.counted.fits_of hx
      rw [hst] at hfits
      exact hfits.2.2 ⟨rfl, rfl⟩
  only := by
    have honly := h.counted.only
    have hrefs : s.table.localRefs = s.table.privs.countP fun x => x.status.isLocal := by
      rw [Table.localRefs, Table.tags, Table.entries, List.map_map, List.countP_map]
      rfl
    rw [hrefs] at honly
    push_cast at honly
    omega
  limit := h.limit
  adjust a t ha := (h.adjusts ha).2.1

/-- `fh_init_plugin` enters a region that the client has pinned. -/
def prepin (c : Params) (s : Own) (r : Region) : Own :=
  let s := s.initLocalRegion c true r
  { s with onlyPinned := s.onlyPinned + 1 }

/-- The table once `fh_init_plugin` has entered the regions that have a length. -/
def prepinned (c : Params) (rs : List Region) : Own :=
  (rs.filter fun r => r.len ≠ 0).foldl (prepin c) initial

theorem kept_prepin (h : Kept c s 0) (hroom : s.onlyPinned < c.maxVictimBuckets)
    (hr : r ∉ s.table.regions) :
    Kept c (prepin c s r) 0 ∧ (prepin c s r).onlyPinned = s.onlyPinned + 1 ∧
      (prepin c s r).table.regions = r :: s.table.regions := by
  have hnone : s.regionToPriv r = none := by
    refine List.find?_eq_none.2 fun x hx hxr => hr ?_
    simp only [decide_eq_true_eq] at hxr
    exact hxr ▸ Table.region_mem hx
  have hslot : Kept c { s with onlyPinned := s.onlyPinned + 1 } (0 + true.toNat) :=
    ⟨by simpa [reserved] using h.counted.reserve (w := s.waiting) (m := s.moving) (k := 1),
      Int.add_one_le_of_lt hroom, h.wanting⟩
  have hform : prepin c s r = { s with onlyPinned := s.onlyPinned + 1 }.initNew c true r := by
    rw [prepin, initLocalRegion, hnone]
    rfl
  rw [hform]
  exact ⟨hslot.initNew hnone, rfl, Table.regions_createPriv⟩

theorem kept_foldl_prepin {rs : List Region} (h : Kept c s 0)
    (hroom : s.onlyPinned + rs.length ≤ c.maxVictimBuckets) (hnodup : rs.Nodup)
    (hnew : ∀ r ∈ rs, r ∉ s.table.regions) : Kept c (rs.foldl (prepin c) s) 0 := by
  induction rs generalizing s with
  | nil => exact h
  | cons r rs ih =>
    rw [List.length_cons] at hroom
    obtain ⟨hr, hnodup⟩ := List.nodup_cons.1 hnodup
    obtain ⟨hkept, honly, hregions⟩ :=
      kept_prepin h (by push_cast at hroom; omega) (hnew r List.mem_cons_self)
    refine ih hkept (by push_cast at hroom; omega) hnodup fun q hq => ?_
    rw [hregions, List.mem_cons, not_or]
    exact ⟨fun hqr => hr (hqr ▸ hq), hnew q (List.mem_cons_of_mem _ hq)⟩

theorem kept_prepinned {rs : List Region} (hlen : rs.length ≤ c.maxVictimBuckets)
    (hnodup : rs.Nodup) : Kept c (prepinned c rs) 0 := by
  have hfilter := List.length_filter_le (fun r : Region => decide (r.len ≠ 0)) rs
  refine kept_foldl_prepin kept_initial ?_ (hnodup.filter _) fun r _ => List.not_mem_nil
  simp only [initial]
  omega

end Own

variable {Node : Type} [DecidableEq Node] {me : Node} {rs : List Region}

/-- A node whose client has pinned `rs`. -/
def prepinned (c : Params) (rs : List Region) : State Node :=
  ⟨.prepinned c rs, fun _ => .initial⟩

theorem kept_reachable {s : State Node} (hlen : rs.length ≤ c.maxVictimBuckets)
    (hnodup : rs.Nodup) (h : Reachable (Step c me) (prepinned c rs) s) : s.own.Kept c 0 := by
  refine h.invariant (P := fun s => s.own.Kept c 0) (fun hstep hs => ?_)
    (Own.kept_prepinned hlen hnodup)
  cases hstep with
  | own h => exact Own.kept_step h hs
  | peer _ _ => exact hs

/-- In every reachable state the local counters are right, whatever the threads and the peers have
done, and no more local entries than the limit are counted. The limit is above the number of
prepinned regions. -/
theorem local_accounting {s : State Node} (hlen : rs.length ≤ c.maxVictimBuckets)
    (hnodup : rs.Nodup) (h : Reachable (Step c me) (prepinned c rs) s) : s.own.Accounted c :=
  (kept_reachable hlen hnodup h).accounted

/-- What happens to the node's own table happens on the node. -/
theorem run_own {s : State Node} {o o' : Own} {as : List LocalAction}
    (h : Run (LocalStep c) o as o') (hs : s.own = o) :
    Run (Step c me) s (as.map .own) { s with own := o' } := by
  induction h generalizing s with
  | refl =>
    rw [← hs]
    exact .refl
  | stepL hstep _ ih =>
    subst hs
    exact .stepL (.own hstep) (ih (s := { s with own := _ }) rfl)

/-- A buffer that the client has pinned. -/
def buffer : Region := ⟨40960, 8192⟩

def missed : Own := (Own.prepinned threeSlots [buffer]).acquireLocalRegion threeSlots page

/-- The node pins its first page, a peer pins it too, and the node releases it. -/
def shared : Own :=
  let s := { missed with moving := [] }.proceed threeSlots (.make page)
  let s := s.moveRequest threeSlots page []
  s.releaseLocalRegion threeSlots ⟨1, page, [0], 1, .used 1 1⟩

theorem shared_run : Run (LocalStep threeSlots) (.prepinned threeSlots [buffer])
    [.pin page, .proceed (.make page), .move page [], .release 1] shared :=
  .stepL (.pin (by decide) (by decide)) <|
    .stepL (.proceed (by decide)) <|
    .stepL (.move (by decide) (by decide) (by simp)) <|
    .stepL (.release (x := ⟨1, page, [0], 1, .used 1 1⟩) (by decide) (by decide))
      .refl

theorem local_accounting_shared : shared.Accounted threeSlots := by
  have hrun : Run (Step threeSlots false) (prepinned threeSlots [buffer]) _
      ⟨shared, fun _ => .initial⟩ := run_own shared_run rfl
  exact local_accounting (by decide) (by decide) ⟨_, hrun⟩

end Gasnet.Firehose
