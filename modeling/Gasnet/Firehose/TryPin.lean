import Gasnet.Firehose.Pinned

/-! The try-pins and partial-pins. They round the address down before they round the length up,
and so may look one bucket short of the caller's range. -/
namespace Gasnet.Firehose

variable {c : Params} {t u : Table} {g addr len b : Nat} {x : Priv} {r : Region}
  {ready : Priv → Bool} {free : Bool}

/-- The buckets `firehose_local_pin` and `firehose_remote_pin` ask for. -/
def pinRequest (g addr len : Nat) : Region := ⟨addrAlign g addr, sizeAlign g addr len⟩

/-- The buckets the try-pins and the partial-pins look at. -/
def tryRequest (g addr len : Nat) : Region :=
  let addr := addrAlign g addr
  let len := sizeAlign g addr len
  ⟨addr, len⟩

namespace Table

/-- `fh_region_ispinned`, with the entry it leaves in `fhi_lookup_cache`. -/
def regionIspinned (t : Table) (ready : Priv → Bool) (r : Region) : Option Priv :=
  (t.lookup r.addr).filter fun x => ready x && decide (r.last ≤ x.region.last)

/-- `fh_region_partial`: the first bucket whose entry is ready. -/
def regionPartial (g : Nat) (t : Table) (ready : Priv → Bool) (r : Region) : Option Priv :=
  (steps g r.addr (r.last + 1)).findSome? fun b => (t.lookup b).filter ready

/-- An entry with this region is referenced, and its pin is not in flight. -/
def Pins (t : Table) (r : Region) : Prop :=
  ∃ x ∈ t.privs, x.region = r ∧ ∃ l k, x.status = .used l k ∧ 0 < l + k

end Table

namespace Own

/-- `fh_commit_try_local_region`, when `fh_request_new` has a request to give. -/
def commitTryLocalRegion (s : Own) (free : Bool) (x : Priv) : Option (Region × Own) :=
  if free then some (x.region, (s.privAcquireLocal true x).hold true x.ptr) else none

/-- `firehose_try_local_pin`. -/
def tryLocalPin (c : Params) (s : Own) (addr len : Nat) (free : Bool) : Option (Region × Own) :=
  (s.table.regionIspinned (s.isReady c) (tryRequest c.bucketSize addr len)).bind
    (s.commitTryLocalRegion free)

/-- `firehose_partial_local_pin`. -/
def partialLocalPin (c : Params) (s : Own) (addr len : Nat) (free : Bool) :
    Option (Region × Own) :=
  (s.table.regionPartial c.bucketSize (s.isReady c) (tryRequest c.bucketSize addr len)).bind
    (s.commitTryLocalRegion free)

end Own

namespace Peer

/-- `FH_IS_READY` of a remote entry. -/
def isReady (x : Priv) : Bool := !x.status.isPending

/-- `fh_commit_try_remote_region`, when `fh_request_new` has a request to give. -/
def commitTryRemoteRegion (s : Peer) (free : Bool) (x : Priv) : Option (Region × Peer) :=
  if free then some (x.region, s.privAcquireRemote x) else none

/-- `firehose_try_remote_pin`. -/
def tryRemotePin (c : Params) (s : Peer) (addr len : Nat) (free : Bool) : Option (Region × Peer) :=
  (s.table.regionIspinned isReady (tryRequest c.bucketSize addr len)).bind
    (s.commitTryRemoteRegion free)

/-- `firehose_partial_remote_pin`. -/
def partialRemotePin (c : Params) (s : Peer) (addr len : Nat) (free : Bool) :
    Option (Region × Peer) :=
  (s.table.regionPartial c.bucketSize isReady (tryRequest c.bucketSize addr len)).bind
    (s.commitTryRemoteRegion free)

end Peer

/-- What a caller expects of a try-pin and a partial-pin of `[addr, addr + len)` that start from
the table `t`; `free` says whether a request can be had. -/
structure PinGuarantee (g addr len : Nat) (t : Table) (ready : Priv → Bool)
    (tryPin partialPin : Bool → Option (Region × Table)) : Prop where
  tried : ∀ free r u, tryPin free = some (r, u) →
    r.Aligned g ∧ u.Pins r ∧ r.addr ≤ addr ∧ addr + len ≤ r.addr + r.len
  part : ∀ free r u, partialPin free = some (r, u) →
    r.Aligned g ∧ u.Pins r ∧ r.addr < addr + len ∧ addr < r.addr + r.len
  found : ∀ b x, g ∣ b → b < addr + len → addr < b + g → t.lookup b = some x → ready x →
    partialPin true ≠ none

def Own.Guarantee (c : Params) (addr len : Nat) (s : Own) : Prop :=
  PinGuarantee c.bucketSize addr len s.table (s.isReady c)
    (fun free => (s.tryLocalPin c addr len free).map fun p => (p.1, p.2.table))
    (fun free => (s.partialLocalPin c addr len free).map fun p => (p.1, p.2.table))

def Peer.Guarantee (c : Params) (addr len : Nat) (s : Peer) : Prop :=
  PinGuarantee c.bucketSize addr len s.table Peer.isReady
    (fun free => (s.tryRemotePin c addr len free).map fun p => (p.1, p.2.table))
    (fun free => (s.partialRemotePin c addr len free).map fun p => (p.1, p.2.table))

/-- The pins look at every bucket of the range, `end` is a bucket boundary at or after its end. -/
theorem pinRequest_spec (hg : 0 < g) :
    g ∣ (pinRequest g addr len).addr ∧ (pinRequest g addr len).addr ≤ addr ∧
      addr < (pinRequest g addr len).addr + g ∧
      (pinRequest g addr len).addr + (pinRequest g addr len).len = alignUp g (addr + len) := by
  have hle := alignDown_le (g := g) (a := addr)
  have hup := le_alignUp (g := g) (a := addr + len) hg
  refine ⟨alignDown_dvd, hle, lt_alignDown_add hg, ?_⟩
  simp only [pinRequest, addrAlign, sizeAlign]
  omega

theorem alignUp_add (hg : 0 < g) {a d : Nat} (ha : g ∣ a) : alignUp g (a + d) = a + alignUp g d := by
  obtain ⟨k, rfl⟩ := ha
  have hassoc : g * k + d + g - 1 = (d + g - 1) + g * k := by omega
  rw [alignUp, alignUp, alignDown, alignDown, hassoc, Nat.add_mul_div_left _ _ hg]
  ring

theorem tryRequest_eq (hg : 0 < g) : tryRequest g addr len = ⟨alignDown g addr, alignUp g len⟩ := by
  have hself : alignDown g (alignDown g addr) = alignDown g addr := alignDown_eq alignDown_dvd
  simp only [tryRequest, addrAlign, sizeAlign, hself, alignUp_add hg alignDown_dvd,
    Nat.add_sub_cancel_left]

theorem pinRequest_eq (hg : 0 < g) :
    pinRequest g addr len = ⟨alignDown g addr, alignUp g (addr % g + len)⟩ := by
  have hsplit : addr + len = alignDown g addr + (addr % g + len) := by
    have := Nat.div_add_mod addr g
    rw [Nat.mul_comm] at this
    unfold alignDown
    omega
  simp only [pinRequest, addrAlign, sizeAlign, hsplit, alignUp_add hg alignDown_dvd,
    Nat.add_sub_cancel_left]

theorem regionIspinned_spec (hs : t.Sound g) (h : t.regionIspinned ready r = some x) :
    x ∈ t.privs ∧ ready x ∧ x.region.Aligned g ∧ x.region.addr ≤ r.addr ∧
      r.last ≤ x.region.last := by
  obtain ⟨hlookup, hx⟩ := Option.filter_eq_some_iff.1 h
  obtain ⟨hproper, hcontains⟩ := hs.of_lookup hlookup
  simp only [Bool.and_eq_true, decide_eq_true_eq] at hx
  exact ⟨(Table.mem_of_lookup hlookup).1, hx.1, hproper.1, hcontains.2.1, hx.2⟩

theorem regionPartial_spec (hs : t.Sound g) (h : t.regionPartial g ready r = some x) :
    x ∈ t.privs ∧ ready x ∧ x.region.Aligned g ∧
      ∃ b ∈ steps g r.addr (r.last + 1), x.Contains g b := by
  obtain ⟨b, hb, hx⟩ := List.exists_of_findSome?_eq_some h
  obtain ⟨hlookup, hready⟩ := Option.filter_eq_some_iff.1 hx
  obtain ⟨hproper, hcontains⟩ := hs.of_lookup hlookup
  exact ⟨(Table.mem_of_lookup hlookup).1, hready, hproper.1, b, hb, hcontains⟩

theorem regionPartial_ne_none (hb : b ∈ steps g r.addr (r.last + 1)) (hx : t.lookup b = some x)
    (hready : ready x) : t.regionPartial g ready r ≠ none := by
  intro h
  have := List.findSome?_eq_none_iff.1 h b hb
  rw [hx, Option.filter_some, if_pos hready] at this
  cases this

/-- The guarantee, for any way to commit to an entry that pins the entry's region. -/
theorem guarantee_of (commit : Bool → Priv → Option (Region × Table)) (hg : 0 < g)
    (hs : t.Sound g) (hlen : 0 < len) (hround : tryRequest g addr len = pinRequest g addr len)
    (hcommit : ∀ x ∈ t.privs, ready x → ∀ free r u, commit free x = some (r, u) →
      r = x.region ∧ u.Pins r)
    (hfree : ∀ x, commit true x ≠ none) :
    PinGuarantee g addr len t ready
      (fun free => (t.regionIspinned ready (tryRequest g addr len)).bind (commit free))
      (fun free => (t.regionPartial g ready (tryRequest g addr len)).bind (commit free)) := by
  obtain ⟨hdvd, hle, hlt, hend⟩ := @pinRequest_spec g addr len hg
  have hup := le_alignUp (g := g) (a := addr + len) hg
  have hupdvd : g ∣ alignUp g (addr + len) := alignUp_dvd
  have huplt := alignUp_lt (g := g) (a := addr + len) hg
  rw [hround]
  generalize pinRequest g addr len = r at *
  have hlast : r.last + 1 = alignUp g (addr + len) := by unfold Region.last; omega
  refine ⟨fun free r' u h => ?_, fun free r' u h => ?_, fun b x hb hblt hbgt hx hready h => ?_⟩
  · obtain ⟨x, hx, hxu⟩ := Option.bind_eq_some_iff.1 h
    obtain ⟨hmem, hready, haligned, hlo, hhi⟩ := regionIspinned_spec hs hx
    obtain ⟨rfl, hpins⟩ := hcommit x hmem hready free r' u hxu
    have hxend := Table.last_add_one haligned
    exact ⟨haligned, hpins, by omega, by omega⟩
  · obtain ⟨x, hx, hxu⟩ := Option.bind_eq_some_iff.1 h
    obtain ⟨hmem, hready, haligned, b, hb, hcontains⟩ := regionPartial_spec hs hx
    obtain ⟨rfl, hpins⟩ := hcommit x hmem hready free r' u hxu
    obtain ⟨hbdvd, hblo, hbhi⟩ := (mem_steps_of_dvd hg hdvd).1 hb
    obtain ⟨_, hxlo, hxhi⟩ := hcontains
    have hblt := add_le_of_dvd hbdvd hupdvd (hlast ▸ hbhi)
    exact ⟨haligned, hpins, by omega, by omega⟩
  · have hbr : r.addr ≤ b := by
      by_contra hlt'
      have := add_le_of_dvd hb hdvd (by omega)
      omega
    have hpartial := regionPartial_ne_none ((mem_steps_of_dvd hg hdvd).2 ⟨hb, hbr, by omega⟩) hx hready
    obtain ⟨y, hy⟩ := Option.ne_none_iff_exists'.1 hpartial
    rw [hy] at h
    exact hfree y h

theorem pins_setStatus {l k : Nat} {rest : List Nat} (hx : x ∈ t.privs) (hpos : 0 < l + k) :
    Table.Pins { t.setStatus x.ptr (.used l k) with fifo := rest } x.region :=
  ⟨{ x with status := .used l k }, List.mem_map.2 ⟨x, hx, if_pos rfl⟩, rfl, l, k, rfl, hpos⟩

theorem Own.pins_privAcquireLocal {s : Own} (hx : x ∈ s.table.privs) (hp : ¬x.status.isPending) :
    (s.privAcquireLocal true x).table.Pins x.region := by
  unfold Own.privAcquireLocal
  split
  · exact pins_setStatus hx Nat.one_pos
  · cases hst : x.status with
    | used l k => exact pins_setStatus hx (by simp)
    | pending k ccbs => exact absurd rfl (hst ▸ hp)

theorem Peer.pins_privAcquireRemote {s : Peer} (hx : x ∈ s.table.privs)
    (hp : ¬x.status.isPending) : (s.privAcquireRemote x).table.Pins x.region := by
  unfold Peer.privAcquireRemote
  split
  · exact pins_setStatus hx Nat.one_pos
  · cases hst : x.status with
    | used l k => exact pins_setStatus hx (by omega)
    | pending k ccbs => exact absurd rfl (hst ▸ hp)

theorem Own.guarantee {s : Own} (h : s.Good c) (hlen : 0 < len)
    (hround : tryRequest c.bucketSize addr len = pinRequest c.bucketSize addr len) :
    s.Guarantee c addr len := by
  unfold Own.Guarantee Own.tryLocalPin Own.partialLocalPin
  simp only [Option.map_bind]
  refine guarantee_of (fun free => Option.map (fun p => (p.1, p.2.table)) ∘
    s.commitTryLocalRegion free) c.bucketSize_pos h.sound hlen hround ?_ ?_
  · intro x hx _ free r u hru
    obtain ⟨p, hp, rfl, rfl⟩ := by
      simpa only [Function.comp_apply, Option.map_eq_some_iff, Prod.mk.injEq] using hru
    unfold Own.commitTryLocalRegion at hp
    split at hp
    · obtain rfl := Option.some.inj hp
      exact ⟨rfl, pins_privAcquireLocal hx (h.settled _ (Table.tag_mem hx))⟩
    · cases hp
  · intro x
    simp [Own.commitTryLocalRegion]

theorem Peer.guarantee {s : Peer} (h : s.Good c) (hlen : 0 < len)
    (hround : tryRequest c.bucketSize addr len = pinRequest c.bucketSize addr len) :
    s.Guarantee c addr len := by
  unfold Peer.Guarantee Peer.tryRemotePin Peer.partialRemotePin
  simp only [Option.map_bind]
  refine guarantee_of (fun free => Option.map (fun p => (p.1, p.2.table)) ∘
    s.commitTryRemoteRegion free) c.bucketSize_pos h.sound hlen hround ?_ ?_
  · intro x hx hready free r u hru
    obtain ⟨p, hp, rfl, rfl⟩ := by
      simpa only [Function.comp_apply, Option.map_eq_some_iff, Prod.mk.injEq] using hru
    unfold Peer.commitTryRemoteRegion at hp
    split at hp
    · obtain rfl := Option.some.inj hp
      exact ⟨rfl, pins_privAcquireRemote hx (by simpa [Peer.isReady] using hready)⟩
    · cases hp
  · intro x
    simp [Peer.commitTryRemoteRegion]

def onlyEntry (c : Params) (b : Nat) : Priv := ⟨0, ⟨b, c.bucketSize⟩, [b], 1, .used 1 0⟩

/-- The node when it has pinned nothing but the bucket at `b`. -/
def onlyBucket (c : Params) (b : Nat) : Own :=
  { Own.initial with onlyPinned := 1 }.initNew c true ⟨b, c.bucketSize⟩

theorem enter_initial {task : Task} :
    Own.initial.enter c task = { Own.initial with onlyPinned := 1, moving := [task] } := by
  have hroom : 0 < Own.initial.avail c := by
    have := c.victim_pos
    simp only [Own.avail, Own.initial]
    omega
  rw [Own.enter, Own.waitLocalFirehoses, if_pos hroom]
  rfl

theorem onlyBucket_reachable {Node : Type} [DecidableEq Node] {me : Node}
    (hb : c.bucketSize ∣ b) :
    Reachable (Step c me) initial ({ initial with own := onlyBucket c b } : State Node) := by
  have hmerge : Own.initial.mergeRegions c ⟨b, c.bucketSize⟩ = ⟨b, c.bucketSize⟩ := by
    simp [Own.mergeRegions, Own.successor, Own.predecessor, Own.initial, Table.empty, Table.lookup]
  have hpin : LocalStep c Own.initial (.pin ⟨b, c.bucketSize⟩)
      { Own.initial with onlyPinned := 1, moving := [.make ⟨b, c.bucketSize⟩] } := by
    have hacquire : Own.initial.acquireLocalRegion c ⟨b, c.bucketSize⟩ =
        Own.initial.enter c (.make (Own.initial.mergeRegions c ⟨b, c.bucketSize⟩)) := rfl
    rw [← enter_initial, ← congrArg Task.make hmerge, ← hacquire]
    exact .pin ⟨hb, dvd_rfl, c.bucketSize_pos⟩ c.bucket_le
  have hmake : LocalStep c
      { Own.initial with onlyPinned := 1, moving := [.make ⟨b, c.bucketSize⟩] }
      (.proceed (.make ⟨b, c.bucketSize⟩)) (onlyBucket c b) := by
    have hstep := LocalStep.proceed (c := c)
      (s := { Own.initial with onlyPinned := 1, moving := [.make ⟨b, c.bucketSize⟩] })
      (List.mem_singleton_self _)
    rwa [List.erase_cons_head] at hstep
  exact ⟨_, .stepL (.own hpin) (.stepL (.own hmake) .refl)⟩

theorem buckets_one (hg : 0 < g) : Region.buckets g ⟨b, g⟩ = [b] := by
  have hcount : (b + (g - 1) + 1 - b + g - 1) / g = 1 := by
    rw [show b + (g - 1) + 1 - b + g - 1 = (g - 1) + g by omega, Nat.add_div_right _ hg,
      Nat.div_eq_of_lt (by omega)]
  simp [Region.buckets, Region.last, steps, hcount]

theorem onlyBucket_table : (onlyBucket c b).table =
    { privs := [onlyEntry c b]
      best := Function.update (fun _ => none) b (some 0)
      other := []
      fifo := []
      next := 1 } := by
  simp only [onlyBucket, Own.initNew, Own.hold, Table.createPriv, buckets_one c.bucketSize_pos]
  rfl

/-- The bucket is there to be had, and nothing else is. -/
theorem onlyBucket_lookup {d : Nat} : (onlyBucket c b).table.lookup d =
    if d = b then some (onlyEntry c b) else none := by
  rw [onlyBucket_table]
  by_cases hd : d = b
  · subst hd
    simp [Table.lookup, Table.priv?, onlyEntry]
  · simp [Table.lookup, hd]

/-- A partial-pin does not look at the bucket where its rounded length ends. -/
theorem partialLocalPin_onlyBucket (hlen : 0 < len)
    (hb : b = alignDown c.bucketSize addr + alignUp c.bucketSize len) :
    (onlyBucket c b).partialLocalPin c addr len free = none := by
  have hg := c.bucketSize_pos
  have hnone : (onlyBucket c b).table.regionPartial c.bucketSize ((onlyBucket c b).isReady c)
      (tryRequest c.bucketSize addr len) = none := by
    rw [tryRequest_eq hg, Table.regionPartial, List.findSome?_eq_none_iff]
    intro d hd
    obtain ⟨_, _, hlt⟩ := (mem_steps_of_dvd hg alignDown_dvd).1 hd
    rw [Table.last_add_one ⟨alignDown_dvd, alignUp_dvd, hlen.trans_le (le_alignUp hg)⟩] at hlt
    rw [onlyBucket_lookup, if_neg (hb ▸ hlt.ne)]
    rfl
  rw [Own.partialLocalPin, hnone]
  rfl

end Gasnet.Firehose
