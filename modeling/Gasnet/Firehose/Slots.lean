import Gasnet.Firehose.Local
import Gasnet.Firehose.Shape

/-! The slots of the node's own table: which entries the FIFO holds, and what the two counters
count. `reserved` is what threads off the lock have taken for the pins they are about to do. -/
namespace Gasnet.Firehose

variable {s t : Own} {u : Table} {x y : Priv} {p q n : Nat} {st : Status} {r : Region}
  {fifo held rest : List Nat} {res o v : Int} {b : Bool} {e : Nat × Status}

/-- The entry has a local reference. -/
def Status.isLocal : Status → Bool
  | .used l _ => l != 0
  | .pending _ _ => false

namespace Table

/-- The entries with a local reference. -/
def localRefs (t : Table) : Nat := t.tags.countP fun e => e.2.isLocal

def regions (t : Table) : List Region := t.entries.map Priv.region

theorem region_mem (hx : x ∈ u.privs) : x.region ∈ u.regions :=
  List.mem_map.2 ⟨x.core, core_mem_entries hx, rfl⟩

theorem regions_eq : u.regions = u.privs.map Priv.region := by
  rw [regions, entries, List.map_map]
  rfl

theorem ptrs_eq : u.ptrs = u.privs.map Priv.ptr := by
  rw [ptrs, tags, entries, List.map_map, List.map_map]
  rfl

theorem regions_setStatus : (u.setStatus p st).regions = u.regions := by
  simp only [regions, entries_setStatus, List.map_map, List.map_inj_left, Function.comp]
  intro y _
  split <;> rfl

theorem regions_createPriv {g : Nat} : (u.createPriv g r st).regions = r :: u.regions := by
  rw [regions, entries_createPriv]
  rfl

theorem regions_destroyPriv : List.Sublist (u.destroyPriv p).regions u.regions := by
  rw [regions, entries_destroyPriv]
  exact List.Sublist.map _ List.filter_sublist

end Table

/-- In a list with distinct keys, giving one key another value moves a count by the two values. -/
theorem countP_replace {α β : Type*} [DecidableEq α] {f : β → Bool} {l : List (α × β)} {k : α}
    {b d : β} (hn : (l.map Prod.fst).Nodup) (hmem : (k, b) ∈ l) :
    (l.map fun e => if e.1 = k then (e.1, d) else e).countP (fun e => f e.2) + (f b).toNat =
      l.countP (fun e => f e.2) + (f d).toNat := by
  induction l with
  | nil => cases hmem
  | cons a l ih =>
    obtain ⟨ha, hn⟩ := List.nodup_cons.1 hn
    rcases List.mem_cons.1 hmem with rfl | hmem
    · have hrest : (l.map fun e => if e.1 = k then (e.1, d) else e) = l := by
        refine (List.map_congr_left fun e he => if_neg fun hek => ha ?_).trans (List.map_id' l)
        exact List.mem_map.2 ⟨e, he, hek⟩
      rw [List.map_cons, if_pos rfl, hrest, List.countP_cons, List.countP_cons]
      cases f b <;> cases f d <;> simp
    · have hak : a.1 ≠ k := fun hak => ha (hak ▸ List.mem_map_of_mem (f := Prod.fst) hmem)
      have hcount := ih hn hmem
      rw [List.map_cons, if_neg hak, List.countP_cons, List.countP_cons]
      omega

/-- The status of an own entry, against the local requests that hold it and the FIFO. -/
def OwnFits (held fifo : List Nat) (p : Nat) : Status → Prop
  | .used l r => l = held.count p ∧ (p ∈ fifo ↔ l = 0 ∧ r = 0)
  | .pending _ _ => False

theorem OwnFits.congr {held' fifo' : List Nat} (h : OwnFits held fifo p st)
    (hheld : held'.count p = held.count p) (hfifo : p ∈ fifo' ↔ p ∈ fifo) :
    OwnFits held' fifo' p st := by
  cases st with
  | used l r =>
    unfold OwnFits at h ⊢
    rwa [hheld, hfifo]
  | pending r ccbs => exact h

namespace Own

/-- The tables and counters of a node with `res` slots reserved. -/
structure Counted (s : Own) (res : Int) : Prop where
  nodup : s.table.ptrs.Nodup
  fresh : ∀ p ∈ s.table.ptrs, p < s.table.next
  distinct : s.table.regions.Nodup
  fifoNodup : s.table.fifo.Nodup
  fifoMem : ∀ p ∈ s.table.fifo, p ∈ s.table.ptrs
  heldMem : ∀ p ∈ s.held, p ∈ s.table.ptrs
  fits : ∀ e ∈ s.table.tags, OwnFits s.held s.table.fifo e.1 e.2
  count : s.victimFifoBuckets = s.table.fifo.length
  only : s.onlyPinned = s.table.fifo.length + s.table.localRefs + res

theorem counted_initial : Counted initial 0 := by
  constructor <;> simp [initial, Table.empty, Table.entries, Table.ptrs, Table.tags, Table.regions,
    Table.localRefs]

/-- Neither the threads off the lock nor the slots they have reserved are part of the table. -/
theorem Counted.reserve (h : Counted s res) {w m : List Task} {k : Int} :
    Counted { s with onlyPinned := s.onlyPinned + k, waiting := w, moving := m }
      (res + k) :=
  ⟨h.nodup, h.fresh, h.distinct, h.fifoNodup, h.fifoMem, h.heldMem, h.fits, h.count, by
    have := h.only
    simp only
    omega⟩

theorem Counted.threads (h : Counted s res) {w m : List Task} :
    Counted { s with waiting := w, moving := m } res :=
  ⟨h.nodup, h.fresh, h.distinct, h.fifoNodup, h.fifoMem, h.heldMem, h.fits, h.count, h.only⟩

theorem Counted.fits_of (h : Counted s res) (hx : x ∈ s.table.privs) :
    OwnFits s.held s.table.fifo x.ptr x.status :=
  h.fits _ (Table.tag_mem hx)

/-- An entry of the node's own is never pending. -/
theorem Counted.used_of (h : Counted s res) (hx : x ∈ s.table.privs) :
    ∃ k, x.status = .used (s.held.count x.ptr) k ∧
      (x.ptr ∈ s.table.fifo ↔ s.held.count x.ptr = 0 ∧ k = 0) := by
  have hfits := h.fits_of hx
  cases hst : x.status with
  | used l k =>
    rw [hst] at hfits
    obtain ⟨rfl, hfifo⟩ := hfits
    exact ⟨k, rfl, hfifo⟩
  | pending k ccbs =>
    rw [hst] at hfits
    exact hfits.elim

theorem Counted.eq_of_ptr (h : Counted s res) (hx : x ∈ s.table.privs) (hy : y ∈ s.table.privs)
    (hp : x.ptr = y.ptr) : x = y :=
  List.inj_on_of_nodup_map (Table.ptrs_eq (u := s.table) ▸ h.nodup) hx hy hp

theorem Counted.eq_of_region (h : Counted s res) (hx : x ∈ s.table.privs)
    (hy : y ∈ s.table.privs) (hr : x.region = y.region) : x = y :=
  List.inj_on_of_nodup_map (Table.regions_eq (u := s.table) ▸ h.distinct) hx hy hr

/-- One entry changes status, together with the FIFO and the requests that hold that entry. -/
theorem Counted.setStatus (h : Counted s res) (hx : x ∈ s.table.privs)
    (hself : OwnFits held fifo x.ptr st)
    (hheld : ∀ p ≠ x.ptr, held.count p = s.held.count p)
    (hfifo : ∀ p ≠ x.ptr, p ∈ fifo ↔ p ∈ s.table.fifo) (hnodup : fifo.Nodup)
    (hcount : v = fifo.length)
    (honly : o - fifo.length - st.isLocal.toNat =
      s.onlyPinned - s.table.fifo.length - x.status.isLocal.toNat) :
    Counted { s with
      table := { s.table.setStatus x.ptr st with fifo := fifo }
      onlyPinned := o
      victimFifoBuckets := v
      held := held } res := by
  have hptrs : (s.table.setStatus x.ptr st).ptrs = s.table.ptrs := Peer.ptrs_setStatus
  have hxmem : x.ptr ∈ s.table.ptrs := List.mem_map_of_mem (Table.tag_mem hx)
  constructor
  · exact hptrs ▸ h.nodup
  · exact hptrs ▸ h.fresh
  · change (s.table.setStatus x.ptr st).regions.Nodup
    rw [Table.regions_setStatus]
    exact h.distinct
  · exact hnodup
  · intro p hp
    by_cases hpx : p = x.ptr
    · exact hptrs ▸ hpx ▸ hxmem
    · exact hptrs ▸ h.fifoMem p ((hfifo p hpx).1 hp)
  · intro p hp
    by_cases hpx : p = x.ptr
    · exact hptrs ▸ hpx ▸ hxmem
    · refine hptrs ▸ h.heldMem p (List.count_pos_iff.1 ?_)
      rw [← hheld p hpx]
      exact List.count_pos_iff.2 hp
  · intro e he
    change e ∈ (s.table.setStatus x.ptr st).tags at he
    rw [Table.tags_setStatus, List.mem_map] at he
    obtain ⟨d, hd, rfl⟩ := he
    by_cases hdx : d.1 = x.ptr
    · rw [if_pos hdx, hdx]
      exact hself
    · rw [if_neg hdx]
      exact (h.fits d hd).congr (hheld _ hdx) (hfifo _ hdx)
  · exact hcount
  · have hcount := countP_replace (f := Status.isLocal) (d := st) h.nodup (Table.tag_mem hx)
    have hrefs : (s.table.setStatus x.ptr st).localRefs + x.status.isLocal.toNat =
        s.table.localRefs + st.isLocal.toNat := by
      rw [Table.localRefs, Table.tags_setStatus]
      exact hcount
    have := h.only
    change o = (fifo.length : Int) + ((s.table.setStatus x.ptr st).localRefs : Nat) + res
    omega

/-- A new entry takes one of the slots reserved if a local request holds it. -/
theorem Counted.create (h : Counted s (res + b.toNat)) {g : Nat}
    (hr : r ∉ s.table.regions) :
    Counted ({ s with
      table := s.table.createPriv g r (.used b.toNat (!b).toNat) }.hold
        b s.table.next) res := by
  have hnew : s.table.next ∉ s.table.ptrs := fun hmem => (h.fresh _ hmem).ne rfl
  have hheld : s.held.count s.table.next = 0 :=
    List.count_eq_zero.2 fun hmem => hnew (h.heldMem _ hmem)
  have hnofifo : s.table.next ∉ s.table.fifo := fun hmem => hnew (h.fifoMem _ hmem)
  let new : Status := .used b.toNat (!b).toNat
  have hquiet : Table.Quiet _ (s.table.createPriv g r new) := Table.quiet_createPriv
  have htags : (s.table.createPriv g r new).tags = (s.table.next, new) :: s.table.tags :=
    Table.tags_createPriv
  have hptrs : (s.table.createPriv g r new).ptrs = s.table.next :: s.table.ptrs := by
    rw [Table.ptrs, htags]
    rfl
  have hcount : ∀ q, q ≠ s.table.next →
      (if b then s.table.next :: s.held else s.held).count q = s.held.count q := by
    intro q hq
    cases b
    · rfl
    · exact List.count_cons_of_ne hq.symm
  have hform : ({ s with table := s.table.createPriv g r new } : Own).hold b s.table.next =
      { s with
        table := s.table.createPriv g r new
        held := if b then s.table.next :: s.held else s.held } := by
    cases b <;> rfl
  rw [hform]
  constructor
  · exact hptrs ▸ List.nodup_cons.2 ⟨hnew, h.nodup⟩
  · intro p hp
    rw [hptrs] at hp
    rw [hquiet.next]
    rcases List.mem_cons.1 hp with rfl | hp
    · exact Nat.lt_succ_self _
    · exact Nat.lt_succ_of_lt (h.fresh p hp)
  · rw [Table.regions_createPriv]
    exact List.nodup_cons.2 ⟨hr, h.distinct⟩
  · exact hquiet.fifo.nodup_iff.2 h.fifoNodup
  · intro p hp
    exact hptrs ▸ List.mem_cons_of_mem _ (h.fifoMem p (hquiet.fifo.mem_iff.1 hp))
  · intro p hp
    rw [hptrs]
    by_cases hpn : p = s.table.next
    · exact hpn ▸ List.mem_cons_self
    · refine List.mem_cons_of_mem _ (h.heldMem p (List.count_pos_iff.1 ?_))
      rw [← hcount p hpn]
      exact List.count_pos_iff.2 hp
  · intro e he
    rw [htags] at he
    rcases List.mem_cons.1 he with rfl | he
    · refine ⟨?_, iff_of_false ?_ ?_⟩
      · cases b <;> simp [hheld]
      · exact fun hmem => hnofifo (hquiet.fifo.mem_iff.1 hmem)
      · cases b <;> simp
    · have hne : e.1 ≠ s.table.next := fun heq => hnew (heq ▸ List.mem_map_of_mem he)
      exact (h.fits e he).congr (hcount _ hne) hquiet.fifo.mem_iff
  · exact h.count.trans (congrArg Nat.cast hquiet.fifo.length_eq.symm)
  · have hrefs : (s.table.createPriv g r new).localRefs = s.table.localRefs + b.toNat := by
      rw [Table.localRefs, htags, List.countP_cons]
      cases b <;> rfl
    have hlen : (s.table.createPriv g r new).fifo.length = s.table.fifo.length :=
      hquiet.fifo.length_eq
    have := h.only
    simp only [hrefs, hlen]
    push_cast
    omega

/-- Nothing holds an entry of the FIFO. -/
theorem Counted.not_held (h : Counted s res) (hp : p ∈ s.table.fifo) : p ∉ s.held := by
  obtain ⟨⟨_, st⟩, he, rfl⟩ := List.mem_map.1 (h.fifoMem p hp)
  have hfits := h.fits _ he
  cases st with
  | used l k =>
    rw [← List.count_eq_zero, ← hfits.1]
    exact (hfits.2.1 hp).1
  | pending k ccbs => exact hfits.elim

/-- The head of the FIFO is destroyed, and its slot is left to the caller. -/
theorem Counted.evict (h : Counted s res) (hf : s.table.fifo = p :: rest) :
    Counted { s with
      table := s.table.evict p rest
      victimFifoBuckets := s.victimFifoBuckets - 1 } (res + 1) := by
  have hmem : p ∈ s.table.fifo := hf ▸ List.mem_cons_self
  obtain ⟨hp, hrest⟩ := List.nodup_cons.1 (hf ▸ h.fifoNodup)
  have htags : (s.table.evict p rest).tags = s.table.tags.filter fun e => e.1 ≠ p :=
    Table.tags_destroyPriv
  have hfifo : (s.table.evict p rest).fifo = rest := Table.fifo_destroyPriv
  have hnext : (s.table.evict p rest).next = s.table.next := Table.next_destroyPriv
  have hptrs : (s.table.evict p rest).ptrs =
      (s.table.tags.filter fun e => e.1 ≠ p).map Prod.fst := by rw [Table.ptrs, htags]
  have hsub : List.Sublist (s.table.evict p rest).ptrs s.table.ptrs :=
    hptrs ▸ List.Sublist.map _ List.filter_sublist
  have hlen : s.table.fifo.length = rest.length + 1 := by rw [hf, List.length_cons]
  constructor
  · exact h.nodup.sublist hsub
  · exact fun q hq => hnext ▸ h.fresh q (hsub.subset hq)
  · exact h.distinct.sublist Table.regions_destroyPriv
  · change (s.table.evict p rest).fifo.Nodup
    rwa [hfifo]
  · intro q hq
    rw [hfifo] at hq
    exact hptrs ▸ Peer.mem_ptrs_filter (h.fifoMem q (hf ▸ List.mem_cons_of_mem _ hq))
      fun hqp => hp (hqp ▸ hq)
  · intro q hq
    exact hptrs ▸ Peer.mem_ptrs_filter (h.heldMem q hq) fun hqp => h.not_held hmem (hqp ▸ hq)
  · intro e he
    rw [htags, List.mem_filter] at he
    have hep : e.1 ≠ p := by simpa using he.2
    refine (h.fits e he.1).congr rfl ?_
    rw [hfifo, hf, List.mem_cons]
    simp [hep]
  · change s.victimFifoBuckets - 1 = _
    rw [hfifo, h.count, hlen]
    simp
  · -- The victim has no local reference, so the count of those is the same without it.
    have hrefs : (s.table.evict p rest).localRefs = s.table.localRefs := by
      rw [Table.localRefs, htags, List.countP_filter, Table.localRefs]
      refine List.countP_congr fun e he => ?_
      have hfits := h.fits e he
      by_cases hep : e.1 = p
      · obtain ⟨_, st⟩ := e
        obtain rfl := hep
        cases st with
        | used l k =>
          have hl := (hfits.2.1 hmem).1
          simp [Status.isLocal, hl]
        | pending k ccbs => exact hfits.elim
      · simp [hep]
    have := h.only
    simp only [hrefs, hfifo]
    omega

end Own

end Gasnet.Firehose
