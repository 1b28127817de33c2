import Gasnet.Firehose.Table
import Gasnet.Firehose.Local

/-! The invariant of the tables about one peer: every entry is pending, in use or in the FIFO, as
its reference count says, and the FIFO counter is the length of the FIFO. -/
namespace Gasnet.Firehose

variable {c : Params} {s t : Peer} {x : Priv} {p q n : Nat} {st : Status} {req r : Region}
  {fifo held rest : List Nat} {v : Int} {u : Table} {e e' : Nat × Status}

/-- The status of an entry, against the requests that hold it and the FIFO. -/
def Fits (held fifo : List Nat) (p : Nat) : Status → Prop
  | .used _ r => r = held.count p ∧ (p ∈ fifo ↔ r = 0)
  | .pending r ccbs => r = ccbs.length ∧ 0 < r ∧ p ∉ held ∧ p ∉ fifo

theorem Fits.congr {held' fifo' : List Nat} (h : Fits held fifo p st)
    (hheld : held'.count p = held.count p) (hfifo : p ∈ fifo' ↔ p ∈ fifo) :
    Fits held' fifo' p st := by
  cases st with
  | used l r =>
    unfold Fits at h ⊢
    rwa [hheld, hfifo]
  | pending r ccbs =>
    obtain ⟨hr, hpos, hh, hf⟩ := h
    refine ⟨hr, hpos, ?_, by rwa [hfifo]⟩
    rw [← List.count_eq_zero] at hh ⊢
    rw [hheld, hh]

def Table.ptrs (t : Table) : List Nat := t.tags.map Prod.fst

namespace Peer

structure Shape (s : Peer) : Prop where
  nodup : s.table.ptrs.Nodup
  fresh : ∀ p ∈ s.table.ptrs, p < s.table.next
  fifoNodup : s.table.fifo.Nodup
  fifoMem : ∀ p ∈ s.table.fifo, p ∈ s.table.ptrs
  heldMem : ∀ p ∈ s.held, p ∈ s.table.ptrs
  fits : ∀ e ∈ s.table.tags, Fits s.held s.table.fifo e.1 e.2
  count : s.victimFifoBuckets = s.table.fifo.length

theorem shape_initial : Shape initial := by
  constructor <;> simp [initial, Table.empty, Table.entries, Table.ptrs, Table.tags]

/-- Only the tags, the FIFO as a set and the next identity matter. -/
theorem Shape.congr (h : Shape s) (htags : u.tags = s.table.tags)
    (hfifo : u.fifo.Perm s.table.fifo) (hnext : u.next = s.table.next) :
    Shape { s with table := u } where
  nodup := by simpa [Table.ptrs, htags] using h.nodup
  fresh := by simpa [Table.ptrs, htags, hnext] using h.fresh
  fifoNodup := hfifo.nodup_iff.2 h.fifoNodup
  fifoMem p hp := by
    simpa [Table.ptrs, htags] using h.fifoMem p (hfifo.mem_iff.1 hp)
  heldMem := by simpa [Table.ptrs, htags] using h.heldMem
  fits e he := (h.fits e (htags ▸ he)).congr rfl hfifo.mem_iff
  count := by simpa [hfifo.length_eq] using h.count

theorem ptrs_setStatus : (u.setStatus p st).ptrs = u.ptrs := by
  simp only [Table.ptrs, Table.tags_setStatus, List.map_map, List.map_inj_left, Function.comp]
  intro e _
  split <;> rfl

/-- One entry changes status, together with the FIFO and the requests that hold that entry. -/
theorem Shape.setStatus (h : Shape s) (hx : x ∈ s.table.privs) (hself : Fits held fifo x.ptr st)
    (hheld : ∀ p ≠ x.ptr, held.count p = s.held.count p)
    (hfifo : ∀ p ≠ x.ptr, p ∈ fifo ↔ p ∈ s.table.fifo)
    (hnodup : fifo.Nodup) (hcount : v = fifo.length) :
    Shape { s with
      table := { s.table.setStatus x.ptr st with fifo := fifo }
      victimFifoBuckets := v
      held := held } := by
  have hptrs : (s.table.setStatus x.ptr st).ptrs = s.table.ptrs := ptrs_setStatus
  have hxmem : x.ptr ∈ s.table.ptrs := List.mem_map_of_mem (Table.tag_mem hx)
  constructor
  · exact hptrs ▸ h.nodup
  · exact hptrs ▸ h.fresh
  · exact hnodup
  · intro p hp
    by_cases hpx : p = x.ptr
    · exact hptrs ▸ hpx ▸ hxmem
    · exact hptrs ▸ h.fifoMem p ((hfifo p hpx).1 hp)
  · intro p hp
    by_cases hpx : p = x.ptr
    · exact hptrs ▸ hpx ▸ hxmem
    · refine hptrs ▸ h.heldMem p (List.count_pos_iff.1 ?_)
      rw [← hheld p hpx]
      exact List.count_pos_iff.2 hp
  · intro e he
    change e ∈ (s.table.setStatus x.ptr st).tags at he
    rw [Table.tags_setStatus, List.mem_map] at he
    obtain ⟨d, hd, rfl⟩ := he
    by_cases hdx : d.1 = x.ptr
    · rw [if_pos hdx, hdx]
      exact hself
    · rw [if_neg hdx]
      exact (h.fits d hd).congr (hheld _ hdx) (hfifo _ hdx)
  · exact hcount

theorem Shape.create (h : Shape s) :
    Shape { s with table := s.table.createPriv c.bucketSize req (.pending 1 [req]) } := by
  have hnew : s.table.next ∉ s.table.ptrs := fun hmem => (h.fresh _ hmem).ne rfl
  refine Shape.congr (s := { s with table := { s.table with
    privs := ⟨s.table.next, req, req.buckets c.bucketSize, 0, .pending 1 [req]⟩ :: s.table.privs
    next := s.table.next + 1 } }) ?_ Table.tags_createPriv Table.quiet_createPriv.fifo
    Table.quiet_createPriv.next
  constructor
  · exact List.nodup_cons.2 ⟨hnew, h.nodup⟩
  · intro p hp
    obtain rfl | hp := List.mem_cons.1 hp
    · exact Nat.lt_succ_self _
    · exact Nat.lt_succ_of_lt (h.fresh p hp)
  · exact h.fifoNodup
  · exact fun p hp => List.mem_cons_of_mem _ (h.fifoMem p hp)
  · exact fun p hp => List.mem_cons_of_mem _ (h.heldMem p hp)
  · intro e he
    obtain rfl | he := List.mem_cons.1 he
    · exact ⟨rfl, Nat.one_pos, fun hh => hnew (h.heldMem _ hh), fun hf => hnew (h.fifoMem _ hf)⟩
    · exact h.fits e he
  · exact h.count

theorem Shape.fits_of (h : Shape s) (hx : x ∈ s.table.privs) :
    Fits s.held s.table.fifo x.ptr x.status :=
  h.fits _ (Table.tag_mem hx)

/-- Nothing holds an entry of the FIFO. -/
theorem Shape.not_held (h : Shape s) (hp : p ∈ s.table.fifo) : p ∉ s.held := by
  obtain ⟨⟨_, st⟩, he, rfl⟩ := List.mem_map.1 (h.fifoMem p hp)
  have hfits := h.fits _ he
  cases st with
  | used l r =>
    obtain ⟨hr, hf⟩ := hfits
    rw [← List.count_eq_zero, ← hr]
    exact hf.1 hp
  | pending r ccbs => exact hfits.2.2.1

theorem mem_ptrs_filter (hq : q ∈ u.ptrs) (hqp : q ≠ p) :
    q ∈ (u.tags.filter fun e => e.1 ≠ p).map Prod.fst := by
  obtain ⟨e, he, rfl⟩ := List.mem_map.1 hq
  exact List.mem_map_of_mem (List.mem_filter.2 ⟨he, by simpa using hqp⟩)

/-- The head of the FIFO is destroyed. -/
theorem Shape.evict (h : Shape s) (hf : s.table.fifo = p :: rest) :
    Shape { s with
      table := s.table.evict p rest
      victimFifoBuckets := s.victimFifoBuckets - 1 } := by
  have hmem : p ∈ s.table.fifo := hf ▸ List.mem_cons_self
  obtain ⟨hp, hrest⟩ := List.nodup_cons.1 (hf ▸ h.fifoNodup)
  have htags : (s.table.evict p rest).tags = s.table.tags.filter fun e => e.1 ≠ p :=
    Table.tags_destroyPriv
  have hfifo : (s.table.evict p rest).fifo = rest := Table.fifo_destroyPriv
  have hnext : (s.table.evict p rest).next = s.table.next := Table.next_destroyPriv
  have hptrs : (s.table.evict p rest).ptrs =
      (s.table.tags.filter fun e => e.1 ≠ p).map Prod.fst := by rw [Table.ptrs, htags]
  have hsub : List.Sublist (s.table.evict p rest).ptrs s.table.ptrs :=
    hptrs ▸ List.Sublist.map _ List.filter_sublist
  constructor
  · exact h.nodup.sublist hsub
  · exact fun q hq => hnext ▸ h.fresh q (hsub.subset hq)
  · change (s.table.evict p rest).fifo.Nodup
    rwa [hfifo]
  · intro q hq
    rw [hfifo] at hq
    exact hptrs ▸ mem_ptrs_filter (h.fifoMem q (hf ▸ List.mem_cons_of_mem _ hq))
      fun hqp => hp (hqp ▸ hq)
  · intro q hq
    exact hptrs ▸ mem_ptrs_filter (h.heldMem q hq) fun hqp => h.not_held hmem (hqp ▸ hq)
  · intro e he
    rw [htags, List.mem_filter] at he
    have hep : e.1 ≠ p := by simpa using he.2
    refine (h.fits e he.1).congr rfl ?_
    rw [hfifo, hf, List.mem_cons]
    simp [hep]
  · change s.victimFifoBuckets - 1 = _
    rw [hfifo, h.count, hf]
    simp

theorem length_evict (h : Shape s) (hf : s.table.fifo = p :: rest) :
    (s.table.evict p rest).privs.length + 1 = s.table.privs.length := by
  rw [← Table.length_tags, ← Table.length_tags, Table.evict, Table.tags_destroyPriv]
  have hcount : s.table.ptrs.count p = 1 :=
    List.count_eq_one_of_mem h.nodup (h.fifoMem p (hf ▸ List.mem_cons_self))
  rw [Table.ptrs, List.count_eq_countP, List.countP_map] at hcount
  have hsplit := List.length_eq_countP_add_countP (fun e : Nat × Status => e.1 == p)
    (l := s.table.tags)
  rw [← List.countP_eq_length_filter]
  simp only [Function.comp_def, beq_iff_eq, ne_eq, Table.tags, Table.entries] at hsplit hcount ⊢
  omega

end Peer

end Gasnet.Firehose

/-! The slots of one peer over a run. Cleaning covered regions is the one operation that destroys
an entry and keeps its slot: `leaked` counts those slots, and grows in no other way. -/
namespace Gasnet.Firehose

variable {c : Params} {s t : Peer} {x : Priv} {p n : Nat} {req r : Region} {a : RemoteAction}

/-- The FIFO is empty or starts with an entry that some bucket still leads to. -/
def Table.HeadVisible (t : Table) : Prop := ∀ p ∈ t.fifo.head?, t.visible p ≠ 0

namespace Peer

/-- Slots counted as used that no entry uses. -/
def leaked (s : Peer) : Int := s.bucketsUsed - s.table.privs.length

/-- Nothing is left to clean once the step has the resources for its miss. -/
def Tidy (c : Params) (s : Peer) : RemoteAction → Prop
  | .pin req => s.table.findPriv req = none →
      ∀ s' n, s.acquireSlot c = some (s', n) → s'.table.HeadVisible
  | .resume _ => ∀ s', s.waitRemoteFirehoses = some s' → s'.table.HeadVisible
  | _ => True

theorem shape_cleanCovered (h : Shape s) :
    Shape (s.cleanCoveredRemote n) ∧
      ((s.table.cleanCovered n).1.privs.length + (s.table.cleanCovered n).2 : Int) =
        s.table.privs.length := by
  induction n generalizing s with
  | zero => exact ⟨by simpa [cleanCoveredRemote, Table.cleanCovered] using h,
      by simp [Table.cleanCovered]⟩
  | succ n ih =>
    by_cases hclean : ∃ p rest, s.table.fifo = p :: rest ∧ s.table.visible p = 0
    · obtain ⟨p, rest, hf, hv⟩ := hclean
      obtain ⟨hshape, hlen⟩ := ih (h.evict hf)
      have hstep := length_evict h hf
      simp only [cleanCoveredRemote, Table.cleanCovered, hf, hv, if_true] at hshape hlen ⊢
      refine ⟨?_, by push_cast; omega⟩
      convert hshape using 2
      push_cast
      ring
    · have hnone : s.table.cleanCovered (n + 1) = (s.table, 0) := by
        unfold Table.cleanCovered
        split
        · rfl
        · rename_i p rest hf
          exact if_neg fun hv => hclean ⟨p, rest, hf, hv⟩
      simp only [cleanCoveredRemote, hnone]
      exact ⟨by simpa using h, by simp⟩

theorem cleanCovered_eq_zero {u : Table} (hn : n ≠ 0) :
    (u.cleanCovered n).2 = 0 ↔ u.HeadVisible := by
  obtain ⟨n, rfl⟩ := Nat.exists_eq_succ_of_ne_zero hn
  unfold Table.cleanCovered Table.HeadVisible
  split
  · rename_i hf
    simp [hf]
  · rename_i p rest hf
    by_cases hv : u.visible p = 0 <;> simp [hf, hv]

theorem waitRemoteFirehoses_spec (h : Shape s) (hw : s.waitRemoteFirehoses = some t) :
    Shape t ∧ t.leaked = s.leaked + 1 ∧ t.stalled = s.stalled := by
  unfold waitRemoteFirehoses at hw
  split at hw
  · rename_i hpos
    obtain rfl := Option.some.inj hw
    rw [h.count] at hpos
    obtain ⟨p, rest, hf⟩ := List.exists_cons_of_length_pos (Int.natCast_pos.1 hpos)
    have hlen := length_evict h hf
    have hfree : s.table.freeVictim 1 = s.table.evict p rest := by simp [Table.freeVictim, hf]
    refine ⟨hfree ▸ h.evict hf, ?_, rfl⟩
    simp only [leaked, hfree]
    omega
  · cases hw

theorem acquireSlot_spec (h : Shape s) (hs : s.acquireSlot c = some (t, n)) :
    Shape t ∧ t.leaked = s.leaked + 1 ∧ n ≤ 1 := by
  unfold acquireSlot at hs
  split at hs
  · obtain ⟨rfl, rfl⟩ := Prod.mk.inj (Option.some.inj hs)
    refine ⟨⟨h.nodup, h.fresh, h.fifoNodup, h.fifoMem, h.heldMem, h.fits, h.count⟩, ?_, by simp⟩
    simp only [leaked]
    ring
  · obtain ⟨u, hu, hut⟩ := Option.map_eq_some_iff.1 hs
    obtain ⟨rfl, rfl⟩ := Prod.mk.inj hut
    obtain ⟨hshape, hleak, _⟩ := waitRemoteFirehoses_spec h hu
    exact ⟨hshape, hleak, le_rfl⟩

/-- A miss spends the slot it has got, and keeps those of what it cleans. -/
theorem miss_spec (h : Shape s) :
    Shape (s.miss c req n) ∧
      (s.miss c req n).leaked = s.leaked - 1 + (s.table.cleanCovered (maxUnpinRem - n)).2 := by
  obtain ⟨hshape, hlen⟩ := shape_cleanCovered (n := maxUnpinRem - n) h
  refine ⟨hshape.create, ?_⟩
  have hcreate : ((s.table.cleanCovered (maxUnpinRem - n)).1.createPriv c.bucketSize req
      (.pending 1 [req])).privs.length = (s.table.cleanCovered (maxUnpinRem - n)).1.privs.length + 1 := by
    rw [← Table.length_tags, Table.tags_createPriv, List.length_cons, Table.length_tags]
  simp only [leaked, miss, cleanCoveredRemote, hcreate]
  push_cast
  omega

/-- What a miss that starts from `s` with a slot in hand does to the ledger. -/
theorem miss_leaked (req : Region) (h : Shape s) (hn : n ≤ 1) :
    s.leaked ≤ (s.miss c req n).leaked + 1 ∧
      (s.leaked = (s.miss c req n).leaked + 1 ↔ s.table.HeadVisible) := by
  have hleak := (@miss_spec c s n req h).2
  have hzero := cleanCovered_eq_zero (u := s.table) (n := maxUnpinRem - n)
    (by unfold maxUnpinRem; omega)
  rw [← hzero]
  omega

end Peer

end Gasnet.Firehose
