import Gasnet.Firehose.Pinned

/-! What an operation on a table leaves alone: an entry outside the FIFO keeps its region and its
status, unless the operation is about that entry. -/
namespace Gasnet.Firehose

variable {c : Params} {t u : Table} {x : Priv} {p q n g : Nat} {r req : Region} {st st' : Status}
  {rest : List Nat} {ccbs : List Region}

theorem Region.Covers.trans {a b d : Region} (h : a.Covers b) (k : b.Covers d) : a.Covers d :=
  ⟨h.1.trans k.1, k.2.trans h.2⟩

namespace Table

/-- The entry `p` stands for `r` and has the status `st`. -/
def Has (t : Table) (p : Nat) (r : Region) (st : Status) : Prop :=
  ∃ x ∈ t.entries, x.ptr = p ∧ x.region = r ∧ x.status = st

theorem has_of_mem (hx : x ∈ t.privs) : t.Has x.ptr x.region x.status :=
  ⟨x.core, core_mem_entries hx, rfl, rfl, rfl⟩

theorem Has.exists_mem (h : t.Has p r st) :
    ∃ x ∈ t.privs, x.ptr = p ∧ x.region = r ∧ x.status = st := by
  obtain ⟨_, hy, hp, hr, hst⟩ := h
  obtain ⟨x, hx, rfl⟩ := List.mem_map.1 hy
  exact ⟨x, hx, hp, hr, hst⟩

theorem Has.mem_ptrs (h : t.Has p r st) : p ∈ t.ptrs := by
  obtain ⟨x, hx, rfl, _⟩ := h
  exact List.mem_map.2 ⟨(x.ptr, x.status), List.mem_map_of_mem hx, rfl⟩

theorem Has.tag_mem (h : t.Has p r st) : (p, st) ∈ t.tags := by
  obtain ⟨x, hx, rfl, _, rfl⟩ := h
  exact List.mem_map_of_mem hx

theorem Has.unique {r' : Region} (h : t.Has p r st) (h' : t.Has p r' st')
    (hn : t.ptrs.Nodup) : r = r' ∧ st = st' := by
  obtain ⟨x, hx, hxp, rfl, rfl⟩ := h
  obtain ⟨y, hy, hyp, rfl, rfl⟩ := h'
  have hn' : (t.entries.map Priv.ptr).Nodup := by
    rw [ptrs, tags, List.map_map] at hn
    exact hn
  rw [List.inj_on_of_nodup_map hn' hx hy (hxp.trans hyp.symm)]
  exact ⟨rfl, rfl⟩

theorem has_setStatus : (t.setStatus p st').Has q r st ↔
    q = p ∧ st = st' ∧ (∃ st₀, t.Has p r st₀) ∨ q ≠ p ∧ t.Has q r st := by
  constructor
  · rintro ⟨y, hy, rfl, rfl, rfl⟩
    rw [entries_setStatus] at hy
    obtain ⟨x, hx, rfl⟩ := List.mem_map.1 hy
    split
    · rename_i hp
      exact Or.inl ⟨hp, rfl, x.status, x, hx, hp, rfl, rfl⟩
    · rename_i hp
      exact Or.inr ⟨hp, x, hx, rfl, rfl, rfl⟩
  · rintro (⟨rfl, rfl, st₀, x, hx, hp, hr, _⟩ | ⟨hq, x, hx, rfl, hr, hst⟩)
    · refine ⟨{ x with status := st }, ?_, hp, hr, rfl⟩
      rw [entries_setStatus]
      exact List.mem_map.2 ⟨x, hx, if_pos hp⟩
    · refine ⟨x, ?_, rfl, hr, hst⟩
      rw [entries_setStatus]
      exact List.mem_map.2 ⟨x, hx, if_neg hq⟩

theorem Has.setStatus (h : t.Has p r st) : (t.setStatus p st').Has p r st' :=
  has_setStatus.2 (Or.inl ⟨rfl, rfl, st, h⟩)

theorem Has.setStatus_of_ne (h : t.Has q r st) (hq : q ≠ p) : (t.setStatus p st').Has q r st :=
  has_setStatus.2 (Or.inr ⟨hq, h⟩)

theorem has_evict : (t.evict p rest).Has q r st ↔ q ≠ p ∧ t.Has q r st := by
  unfold Has
  rw [Table.evict, entries_destroyPriv]
  simp only [List.mem_filter, decide_eq_true_eq]
  constructor
  · rintro ⟨x, ⟨hx, hp⟩, rfl, hrest⟩
    exact ⟨hp, x, hx, rfl, hrest⟩
  · rintro ⟨hp, x, hx, rfl, hrest⟩
    exact ⟨x, ⟨hx, hp⟩, rfl, hrest⟩

theorem fifo_evict : (t.evict p rest).fifo = rest := fifo_destroyPriv

theorem has_freeVictim (h : (t.freeVictim n).Has p r st) : t.Has p r st := by
  induction n generalizing t with
  | zero => exact h
  | succ n ih =>
    unfold Table.freeVictim at h
    split at h
    · exact h
    · exact (has_evict.1 (ih h)).2

theorem Has.freeVictim (h : t.Has p r st) (hp : p ∉ t.fifo) : (t.freeVictim n).Has p r st := by
  induction n generalizing t with
  | zero => exact h
  | succ n ih =>
    unfold Table.freeVictim
    split
    · exact h
    · rename_i q rest hf
      obtain ⟨hpq, hrest⟩ := not_or.1 (mt List.mem_cons.2 (hf ▸ hp))
      exact ih (has_evict.2 ⟨hpq, h⟩) (fifo_evict ▸ hrest)

theorem has_cleanCovered (h : (t.cleanCovered n).1.Has p r st) : t.Has p r st := by
  induction n generalizing t with
  | zero => exact h
  | succ n ih =>
    unfold Table.cleanCovered at h
    split at h
    · exact h
    · split at h
      · exact (has_evict.1 (ih h)).2
      · exact h

theorem Has.cleanCovered (h : t.Has p r st) (hp : p ∉ t.fifo) :
    (t.cleanCovered n).1.Has p r st := by
  induction n generalizing t with
  | zero => exact h
  | succ n ih =>
    unfold Table.cleanCovered
    split
    · exact h
    · rename_i q rest hf
      obtain ⟨hpq, hrest⟩ := not_or.1 (mt List.mem_cons.2 (hf ▸ hp))
      split
      · exact ih (has_evict.2 ⟨hpq, h⟩) (fifo_evict ▸ hrest)
      · exact h

theorem has_createPriv : (t.createPriv g req st').Has p r st ↔
    p = t.next ∧ r = req ∧ st = st' ∨ t.Has p r st := by
  unfold Has
  rw [entries_createPriv]
  constructor
  · rintro ⟨x, hx, rfl, rfl, rfl⟩
    rcases List.mem_cons.1 hx with rfl | hx
    · exact Or.inl ⟨rfl, rfl, rfl⟩
    · exact Or.inr ⟨x, hx, rfl, rfl, rfl⟩
  · rintro (⟨rfl, rfl, rfl⟩ | ⟨x, hx, hrest⟩)
    · exact ⟨_, List.mem_cons_self, rfl, rfl, rfl⟩
    · exact ⟨x, List.mem_cons_of_mem _ hx, hrest⟩

theorem next_freeVictim : (t.freeVictim n).next = t.next := by
  induction n generalizing t with
  | zero => rfl
  | succ n ih =>
    unfold Table.freeVictim
    split
    · rfl
    · exact ih.trans next_destroyPriv

theorem next_cleanCovered : (t.cleanCovered n).1.next = t.next := by
  induction n generalizing t with
  | zero => rfl
  | succ n ih =>
    unfold Table.cleanCovered
    split
    · rfl
    · split
      · exact ih.trans next_destroyPriv
      · rfl

theorem entries_updatePriv (h : ¬(x.region.addr = req.addr ∧ x.region.last = req.last)) :
    (t.updatePriv g x req).entries =
      t.entries.map fun y => if y.ptr = x.ptr then y.extend g req else y :=
  (quiet_updatePriv h).entries.trans (entries_modify fun _ => rfl)

theorem has_updatePriv_of_ne (hq : q ≠ x.ptr) :
    (t.updatePriv g x req).Has q r st ↔ t.Has q r st := by
  by_cases hsame : x.region.addr = req.addr ∧ x.region.last = req.last
  · rw [updatePriv_same hsame]
  · unfold Has
    rw [entries_updatePriv hsame]
    constructor
    · rintro ⟨y, hy, rfl, hrest⟩
      obtain ⟨z, hz, rfl⟩ := List.mem_map.1 hy
      have hzx : z.ptr ≠ x.ptr := by
        intro hzx
        rw [if_pos hzx] at hq
        exact hq hzx
      rw [if_neg hzx] at hrest ⊢
      exact ⟨z, hz, rfl, hrest⟩
    · rintro ⟨y, hy, rfl, hrest⟩
      exact ⟨y, List.mem_map.2 ⟨y, hy, if_neg hq⟩, rfl, hrest⟩

/-- Whatever region the reply names, the entry now covers it. -/
theorem has_updatePriv (h : t.Has x.ptr x.region st) :
    ∃ r, r.Covers req ∧ (t.updatePriv g x req).Has x.ptr r st := by
  by_cases hsame : x.region.addr = req.addr ∧ x.region.last = req.last
  · rw [updatePriv_same hsame]
    exact ⟨x.region, ⟨hsame.1.le, hsame.2.ge⟩, h⟩
  · obtain ⟨y, hy, hp, _, hst⟩ := h
    refine ⟨req, ⟨le_rfl, le_rfl⟩, y.extend g req, ?_, hp, rfl, hst⟩
    rw [entries_updatePriv hsame]
    exact List.mem_map.2 ⟨y, hy, if_pos hp⟩

end Table

namespace Peer

variable {s s' : Peer}

theorem Shape.not_fifo_of_held (h : s.Shape) (hp : p ∈ s.held) : p ∉ s.table.fifo :=
  fun hf => h.not_held hf hp

theorem Shape.not_fifo_of_pending (h : s.Shape) (hp : s.table.Has p r (.pending n ccbs)) :
    p ∉ s.table.fifo :=
  (h.fits _ hp.tag_mem).2.2.2

/-- What a request holds is in use. -/
theorem Shape.used_of_held (h : s.Shape) (hp : p ∈ s.held) (hh : s.table.Has p r st) :
    ∃ l n, st = .used l n ∧ 0 < n := by
  have hfits := h.fits _ hh.tag_mem
  cases st with
  | used l n =>
    refine ⟨l, n, rfl, ?_⟩
    rw [hfits.1]
    exact List.count_pos_iff.2 hp
  | pending n ccbs => exact absurd hp hfits.2.2.1

/-- How an operation about the entry `p₀` treats the others. -/
structure Frame (s s' : Peer) (p₀ : Nat) : Prop where
  pending : ∀ p r n ccbs, p ≠ p₀ →
    (s'.table.Has p r (.pending n ccbs) ↔ s.table.Has p r (.pending n ccbs))
  kept : ∀ p r st, p ∈ s.held → s.table.Has p r st → ∃ st', s'.table.Has p r st'

theorem frame_of_table (h : s'.table = s.table) : Frame s s' p :=
  ⟨fun _ _ _ _ _ => by rw [h], fun _ _ st _ hh => ⟨st, h ▸ hh⟩⟩

theorem Frame.trans {u : Peer} (h : Frame s s' p) (k : Frame s' u p) (hheld : s'.held = s.held) :
    Frame s u p where
  pending q r n ccbs hq := (k.pending q r n ccbs hq).trans (h.pending q r n ccbs hq)
  kept q r st hq hh := by
    obtain ⟨st', hh'⟩ := h.kept q r st hq hh
    exact k.kept q r st' (hheld ▸ hq) hh'

theorem frame_setStatus {f d : List Nat} {v : Int} :
    Frame s { s with
      table := { s.table.setStatus p st with fifo := f }
      victimFifoBuckets := v
      held := d } p where
  pending q r n ccbs hq := by
    refine Table.has_setStatus.trans ⟨?_, fun h => Or.inr ⟨hq, h⟩⟩
    rintro (⟨rfl, _⟩ | ⟨_, h⟩)
    · exact absurd rfl hq
    · exact h
  kept q r st' _ h := by
    by_cases hq : q = p
    · subst hq
      exact ⟨st, h.setStatus⟩
    · exact ⟨st', h.setStatus_of_ne hq⟩

theorem frame_privAcquireRemote : Frame s (s.privAcquireRemote x) x.ptr := by
  unfold privAcquireRemote
  split
  · exact frame_setStatus
  · split
    · exact frame_setStatus (v := s.victimFifoBuckets)
    · exact frame_of_table rfl

theorem held_privAcquireRemote (h : ¬x.status.isPending) :
    (s.privAcquireRemote x).held = x.ptr :: s.held := by
  unfold privAcquireRemote
  split
  · rfl
  · split
    · rfl
    · rename_i hst
      rw [hst] at h
      exact absurd rfl h

/-- The entry acquired is the one found, and it is in use. -/
theorem has_privAcquireRemote (hx : x ∈ s.table.privs) (hp : ¬x.status.isPending) :
    ∃ l n, (s.privAcquireRemote x).table.Has x.ptr x.region (.used l n) := by
  have h := Table.has_of_mem hx
  unfold privAcquireRemote
  split
  · exact ⟨_, _, h.setStatus⟩
  · split
    · exact ⟨_, _, h.setStatus⟩
    · rename_i hst
      rw [hst] at hp
      exact absurd rfl hp

theorem frame_privReleaseRemote : Frame s (s.privReleaseRemote x) x.ptr := by
  unfold privReleaseRemote
  split
  · simp only
    split
    · exact frame_setStatus
    · exact frame_setStatus (v := s.victimFifoBuckets)
  · exact frame_of_table rfl

theorem held_privReleaseRemote {l : Nat} (h : x.status = .used l n) (hn : 0 < n) :
    (s.privReleaseRemote x).held = s.held.erase x.ptr := by
  obtain ⟨n, rfl⟩ := Nat.exists_eq_succ_of_ne_zero hn.ne'
  unfold privReleaseRemote
  rw [h]
  simp only
  split <;> rfl

/-- The entry released is not pending. -/
theorem has_privReleaseRemote {l : Nat} (hx : x ∈ s.table.privs) (hst : x.status = .used l n) :
    ∃ l m, (s.privReleaseRemote x).table.Has x.ptr x.region (.used l m) := by
  have h := Table.has_of_mem hx
  unfold privReleaseRemote
  split
  · simp only
    split <;> exact ⟨_, _, h.setStatus⟩
  · rw [hst] at h
    exact ⟨l, n, h⟩

theorem frame_miss (h : s.Shape) : Frame s (s.miss c req n) s.table.next where
  pending p r n ccbs hne := by
    refine Table.has_createPriv.trans ⟨?_, fun hh => ?_⟩
    · rintro (⟨rfl, _⟩ | hh)
      · exact absurd Table.next_cleanCovered hne
      · exact Table.has_cleanCovered hh
    · exact Or.inr (hh.cleanCovered (h.not_fifo_of_pending hh))
  kept _ _ st hp hh :=
    ⟨st, Table.has_createPriv.2 (Or.inr (hh.cleanCovered (h.not_fifo_of_held hp)))⟩

theorem has_miss : (s.miss c req n).table.Has s.table.next req (.pending 1 [req]) :=
  Table.has_createPriv.2 (Or.inl ⟨Table.next_cleanCovered.symm, rfl, rfl⟩)

theorem frame_waitRemoteFirehoses (h : s.Shape) (hw : s.waitRemoteFirehoses = some s') :
    s'.held = s.held ∧ s'.table.next = s.table.next ∧ Frame s s' p := by
  unfold waitRemoteFirehoses at hw
  split at hw
  · obtain rfl := Option.some.inj hw
    refine ⟨rfl, Table.next_freeVictim, ⟨fun q r n ccbs _ => ⟨Table.has_freeVictim, fun hh => ?_⟩,
      fun _ _ st hq hh => ⟨st, hh.freeVictim (h.not_fifo_of_held hq)⟩⟩⟩
    exact hh.freeVictim (h.not_fifo_of_pending hh)
  · cases hw

theorem frame_acquireSlot (h : s.Shape) (hs : s.acquireSlot c = some (s', n)) :
    s'.held = s.held ∧ s'.table.next = s.table.next ∧ Frame s s' p := by
  unfold acquireSlot at hs
  split at hs
  · obtain ⟨rfl, rfl⟩ := Prod.mk.inj (Option.some.inj hs)
    exact ⟨rfl, rfl, frame_of_table rfl⟩
  · obtain ⟨u, hu, hut⟩ := Option.map_eq_some_iff.1 hs
    obtain ⟨rfl, rfl⟩ := Prod.mk.inj hut
    exact frame_waitRemoteFirehoses h hu

/-- A miss that has its slot: the new entry waits for its pin. -/
structure Missed (s s' : Peer) (req : Region) : Prop where
  held : s'.held = s.held
  frame : Frame s s' s.table.next
  has : s'.table.Has s.table.next req (.pending 1 [req])

theorem missed_acquireRemoteRegion (h : s.Shape) (hf : s.table.findPriv req = none)
    (hs : (s.acquireSlot c).isSome) : Missed s (s.acquireRemoteRegion c req) req := by
  obtain ⟨⟨u, n⟩, hslot⟩ := Option.isSome_iff_exists.1 hs
  obtain ⟨hheld, hnext, hframe⟩ := frame_acquireSlot (p := s.table.next) h hslot
  obtain ⟨hshape, _⟩ := acquireSlot_spec h hslot
  have hmiss : Frame u (u.miss c req n) u.table.next := frame_miss hshape
  rw [hnext] at hmiss
  unfold acquireRemoteRegion
  rw [hf]
  simp only [hslot]
  exact ⟨hheld, hframe.trans hmiss hheld, hnext ▸ has_miss⟩

theorem missed_resume (h : s.Shape) (hw : s.waitRemoteFirehoses.isSome) :
    Missed s (s.resume c req) req := by
  obtain ⟨u, hu⟩ := Option.isSome_iff_exists.1 hw
  obtain ⟨hheld, hnext, hframe⟩ := frame_waitRemoteFirehoses (p := s.table.next) h hu
  have hshape := (waitRemoteFirehoses_spec h hu).1
  have hshape' : Shape { u with stalled := u.stalled.erase req } :=
    ⟨hshape.nodup, hshape.fresh, hshape.fifoNodup, hshape.fifoMem, hshape.heldMem, hshape.fits,
      hshape.count⟩
  have hsame : Frame u { u with stalled := u.stalled.erase req } u.table.next := frame_of_table rfl
  have hmiss : Frame { u with stalled := u.stalled.erase req }
      (miss c { u with stalled := u.stalled.erase req } req 1) u.table.next := frame_miss hshape'
  rw [hnext] at hsame hmiss
  unfold resume
  rw [hu]
  have hall := (hframe.trans hsame hheld).trans hmiss hheld
  exact ⟨hheld, hall, hnext ▸ has_miss⟩

/-- Whatever is found covers the request. -/
theorem covers_of_findPriv (h : s.Good c) (hf : s.table.findPriv req = some x) :
    x ∈ s.table.privs ∧ x.region.Covers req := by
  obtain ⟨hlookup, hlast⟩ := Table.findPriv_eq_some.1 hf
  obtain ⟨_, hcontains⟩ := h.sound.of_lookup hlookup
  exact ⟨(Table.mem_of_lookup hlookup).1, hcontains.2.1, hlast⟩

/-- A request that is hung on a pending entry. -/
structure Hangs (s s' : Peer) (x : Priv) (req : Region) : Prop where
  held : s'.held = s.held
  frame : Frame s s' x.ptr
  has : ∃ n ccbs, s.table.Has x.ptr x.region (.pending n ccbs) ∧
    s'.table.Has x.ptr x.region (.pending (n + 1) (req :: ccbs))

theorem hangs_acquireRemoteRegion (hx : x ∈ s.table.privs)
    (hf : s.table.findPriv req = some x) (hp : x.status.isPending) :
    Hangs s (s.acquireRemoteRegion c req) x req := by
  have hhas := Table.has_of_mem hx
  unfold acquireRemoteRegion
  rw [hf]
  cases hst : x.status with
  | used l n =>
    rw [hst] at hp
    exact absurd hp (by simp [Status.isPending])
  | pending n ccbs =>
    rw [hst] at hhas
    simp only [hst]
    exact ⟨rfl, frame_setStatus (f := s.table.fifo) (v := s.victimFifoBuckets), n, ccbs, hhas,
      hhas.setStatus⟩

/-- The reply to a pin: its callbacks now hold the entry. -/
structure Replied (s s' : Peer) (x : Priv) (req : Region) (n : Nat) : Prop where
  held : s'.held = List.replicate n x.ptr ++ s.held
  frame : Frame s s' x.ptr
  has : ∃ r l m, r.Covers req ∧ s'.table.Has x.ptr r (.used l m)

theorem replied_findPendingCallbacks (h : s.Shape) (hx : x ∈ s.table.privs)
    (hst : x.status = .pending n ccbs) :
    Replied s (s.findPendingCallbacks c x req) x req ccbs.length := by
  have hhas := Table.has_of_mem hx
  have hfits := h.fits_of hx
  rw [hst] at hfits
  unfold findPendingCallbacks
  rw [hst]
  refine ⟨rfl, ⟨fun q r m k hq => ?_, fun q r st hq hh => ?_⟩, ?_⟩
  · refine Table.has_setStatus.trans ⟨?_, fun hh => Or.inr ⟨hq, (Table.has_updatePriv_of_ne hq).2 hh⟩⟩
    rintro (⟨rfl, _⟩ | ⟨_, hh⟩)
    · exact absurd rfl hq
    · exact (Table.has_updatePriv_of_ne hq).1 hh
  · have hne : q ≠ x.ptr := fun he => hfits.2.2.1 (he ▸ hq)
    exact ⟨st, ((Table.has_updatePriv_of_ne hne).2 hh).setStatus_of_ne hne⟩
  · obtain ⟨r, hr, hup⟩ := @Table.has_updatePriv s.table x c.bucketSize req _ hhas
    exact ⟨r, 0, n, hr, hup.setStatus⟩

end Peer

end Gasnet.Firehose
