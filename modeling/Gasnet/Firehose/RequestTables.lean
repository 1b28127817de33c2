import Gasnet.Firehose.RequestOwners

/-! Requests against the tables: what a request holds is pinned and covers what its call wants, and
the callbacks on an entry are those its reference count waits for. -/
namespace Gasnet.Firehose.Pins

open Peer (Frame)

variable {Node : Type} [DecidableEq Node] {c : Params} {q : Node} {s t : Pins Node}
  {r i : Handle} {k p e n : Nat} {y : Peer} {x : Priv} {reg : Region}

/-- The request `r` holds an entry that covers what the call `k` wants. -/
def Ready (s : Pins Node) (k : Nat) (r : Handle) : Prop :=
  (s.request r).node = (s.call k).node ∧ ∃ p reg st, (s.request r).internal = some p ∧
    (s.peer (s.call k).node).table.Has p reg st ∧ reg.Covers (s.call k).region

/-- The request has a reference to its entry. -/
def Bound (s : Pins Node) (r : Handle) : Prop :=
  (∃ k, (s.call k).phase = .check r true) ∨ (∃ b ∈ s.callbacks, b.request = r) ∨ r ∈ s.given

/-- The requests behind the references to the entries of `q`. -/
structure Holders (s : Pins Node) (q : Node) (l : List (Handle × Nat)) : Prop where
  nodup : (l.map Prod.fst).Nodup
  perm : (l.map Prod.snd).Perm (s.peer q).held
  mem : ∀ r p, (r, p) ∈ l ↔ s.Bound r ∧ (s.request r).node = q ∧ (s.request r).internal = some p

/-- A callback on a pending entry. -/
structure Waits (s : Pins Node) (h : Hung Node) : Prop where
  call : (s.call h.ccb.call).node = h.node
  request : (s.request h.ccb.request).node = h.node
  unpinned : (s.request h.ccb.request).pinned = false
  pending : ∃ reg n regs, (s.peer h.node).table.Has h.entry reg (.pending n regs) ∧
    reg.Covers (s.call h.ccb.call).region

/-- A request of a call that has no slot yet. -/
structure Stalls (c : Params) (s : Pins Node) (k : Nat) (r : Handle) : Prop where
  aligned : (s.call k).region.Aligned c.bucketSize
  node : (s.request r).node = (s.call k).node
  unpinned : (s.request r).pinned = false

structure Backed (c : Params) (s : Pins Node) : Prop where
  shape : ∀ q, (s.peer q).Shape
  good : ∀ q, (s.peer q).Good c
  stalled : ∀ k r, (s.call k).phase = .stalled r → s.Stalls c k r
  hit : ∀ k r, (s.call k).phase = .check r true → (s.request r).pinned = true ∧ s.Ready k r
  hung : ∀ h ∈ s.hung, s.Waits h
  ready : ∀ b ∈ s.callbacks, (s.request b.request).pinned = false ∧ s.Ready b.call b.request
  pending : ∀ q p reg n regs, (s.peer q).table.Has p reg (.pending n regs) →
    regs.length = (s.hung.filter (Hung.on q p)).length
  holders : ∀ q, ∃ l, s.Holders q l

theorem backed_initial {me : Node} : Backed c (initial me) where
  shape _ := Peer.shape_initial
  good _ := Peer.good_initial
  stalled k r h := by simp [initial] at h
  hit k r h := by simp [initial] at h
  hung := by simp [initial]
  ready := by simp [initial]
  pending q p reg n regs h := by
    obtain ⟨x, hx, _⟩ := h.exists_mem
    simp [initial, Peer.initial, Table.empty] at hx
  holders q := ⟨[], by simp, by simp [initial, Peer.initial], by simp [initial, Bound]⟩

/-- What a request holds is held at its peer. -/
theorem Backed.held (h : Backed c s) (hb : s.Bound r) (hp : (s.request r).internal = some p) :
    p ∈ (s.peer (s.request r).node).held := by
  obtain ⟨l, hl⟩ := h.holders (s.request r).node
  have hmem := (hl.mem r p).2 ⟨hb, rfl, hp⟩
  exact hl.perm.mem_iff.1 (List.mem_map_of_mem hmem)

theorem Backed.ready_frame (h : Backed c s) (hready : s.Ready k r) (hb : s.Bound r)
    (hreq : t.request r = s.request r) (hcall : t.call k = s.call k)
    (hframe : ∀ q, ∃ e, Frame (s.peer q) (t.peer q) e) : t.Ready k r := by
  obtain ⟨hnode, p, reg, st, hp, hhas, hcov⟩ := hready
  obtain ⟨_, hf⟩ := hframe (s.call k).node
  have hheld := h.held hb hp
  rw [hnode] at hheld
  obtain ⟨st', hhas'⟩ := hf.kept p reg st hheld hhas
  unfold Ready
  rw [hreq, hcall]
  exact ⟨hnode, p, reg, st', hp, hhas', hcov⟩

theorem frame_update (hpeer : t.peer = Function.update s.peer q y) (hf : Frame (s.peer q) y p) :
    ∀ q', ∃ e, Frame (s.peer q') (t.peer q') e := by
  intro q'
  rw [hpeer]
  by_cases hq : q' = q
  · subst hq
    exact ⟨p, by rwa [Function.update_self]⟩
  · exact ⟨0, Peer.frame_of_table (by rw [Function.update_of_ne hq])⟩

theorem forall_peer {P : Peer → Prop} (hpeer : t.peer = Function.update s.peer q y)
    (hs : ∀ q', P (s.peer q')) (hy : P y) : ∀ q', P (t.peer q') := by
  intro q'
  rw [hpeer]
  by_cases hq : q' = q
  · subst hq
    rwa [Function.update_self]
  · rw [Function.update_of_ne hq]
    exact hs q'

/-- A step in which no table changes: requests only change hands. -/
theorem Backed.quiet (h : Backed c s) (hpeer : t.peer = s.peer)
    (hreq : ∀ i, (t.request i).node = (s.request i).node ∧
      (t.request i).internal = (s.request i).internal ∧
      (t.request i).pinned = (s.request i).pinned)
    (hcall : ∀ j, (t.call j).node = (s.call j).node ∧ (t.call j).region = (s.call j).region)
    (hphase : ∀ j i, (t.call j).phase = .check i true ∨ (t.call j).phase = .stalled i →
      (t.call j).phase = (s.call j).phase)
    (hhung : t.hung = s.hung) (hcbs : ∀ b ∈ t.callbacks, b ∈ s.callbacks)
    (hb : ∀ i, t.Bound i ↔ s.Bound i) : Backed c t where
  shape := hpeer ▸ h.shape
  good := hpeer ▸ h.good
  stalled k r hk := by
    obtain ⟨h₁, h₂, h₃⟩ := h.stalled k r ((hphase k r (Or.inr hk)).symm.trans hk)
    refine ⟨?_, (hreq r).1.trans (h₂.trans (hcall k).1.symm), (hreq r).2.2.trans h₃⟩
    rwa [(hcall k).2]
  hit k r hk := by
    have hhit := h.hit k r ((hphase k r (Or.inl hk)).symm.trans hk)
    unfold Ready
    rw [(hreq r).1, (hreq r).2.1, (hreq r).2.2, (hcall k).1, (hcall k).2, hpeer]
    exact hhit
  hung x hx := by
    obtain ⟨h₁, h₂, h₃, h₄⟩ := h.hung x (hhung ▸ hx)
    refine ⟨(hcall _).1.trans h₁, (hreq _).1.trans h₂, (hreq _).2.2.trans h₃, ?_⟩
    rwa [hpeer, (hcall _).2]
  ready b hbmem := by
    have hready := h.ready b (hcbs b hbmem)
    unfold Ready
    rw [(hreq _).1, (hreq _).2.1, (hreq _).2.2, (hcall _).1, (hcall _).2, hpeer]
    exact hready
  pending := by
    rw [hpeer, hhung]
    exact h.pending
  holders q := by
    obtain ⟨l, hl⟩ := h.holders q
    refine ⟨l, hl.nodup, hpeer ▸ hl.perm, fun r p => ?_⟩
    rw [hl.mem, hb, (hreq r).1, (hreq r).2.1]

/-- What a request that comes into use does to the references of its peer. -/
def Takes (s t : Pins Node) (q : Node) (y : Peer) (r : Handle) : Prop :=
  y.held = (s.peer q).held ∧ (¬t.Bound r ∨ (t.request r).internal = none) ∨
    t.Bound r ∧ ∃ p, (t.request r).internal = some p ∧ y.held = p :: (s.peer q).held

/-- A request that was in no use hangs on the entry `e` of `q`, or holds one, or waits. -/
theorem Backed.take (h : Backed c s) {w : List (Hung Node)}
    (hpeer : t.peer = Function.update s.peer q y) (hshape : y.Shape) (hgood : y.Good c)
    (hframe : Frame (s.peer q) y e)
    (hcall : ∀ j, t.call j = s.call j ∨ ∀ i, ⟨j, i⟩ ∉ s.ccbs)
    (hreq : ∀ i ≠ r, t.request i = s.request i) (hnode : (t.request r).node = q)
    (hr : ¬s.Bound r) (hccb : ∀ j, ⟨j, r⟩ ∉ s.ccbs) (hb : ∀ i ≠ r, t.Bound i ↔ s.Bound i)
    (hhit : ∀ j i, (t.call j).phase = .check i true → t.call j = s.call j ∨
      i = r ∧ (t.request r).pinned = true ∧ t.Ready j r)
    (hstalled : ∀ j i, (t.call j).phase = .stalled i → t.call j = s.call j ∧ i ≠ r ∨
      t.Stalls c j i)
    (hcbs : t.callbacks = s.callbacks) (hhung : t.hung = w ++ s.hung)
    (hnew : ∀ x ∈ w, t.Waits x) (hon : ∀ x ∈ w, x.node = q ∧ x.entry = e)
    (hpend : ∀ reg n regs, y.table.Has e reg (.pending n regs) →
      regs.length = (t.hung.filter (Hung.on q e)).length)
    (hstill : ∀ reg n regs, (s.peer q).table.Has e reg (.pending n regs) →
      ∃ n' regs', y.table.Has e reg (.pending n' regs'))
    (htakes : Takes s t q y r) : Backed c t := by
  have hframes := frame_update hpeer hframe
  constructor
  · exact forall_peer hpeer h.shape hshape
  · exact forall_peer hpeer h.good hgood
  · intro j i hj
    rcases hstalled j i hj with ⟨heq, hne⟩ | hal
    · rw [heq] at hj
      obtain ⟨h₁, h₂, h₃⟩ := h.stalled j i hj
      exact ⟨by rwa [heq], by rwa [heq, hreq i hne], by rwa [hreq i hne]⟩
    · exact hal
  · intro j i hj
    rcases hhit j i hj with heq | ⟨rfl, hall⟩
    · rw [heq] at hj
      have hne : i ≠ r := fun he => hr (Or.inl ⟨j, he ▸ hj⟩)
      obtain ⟨hpin, hready⟩ := h.hit j i hj
      exact ⟨by rwa [hreq i hne], h.ready_frame hready (Or.inl ⟨j, hj⟩) (hreq i hne) heq hframes⟩
    · exact hall
  · intro z hz
    rw [hhung] at hz
    rcases List.mem_append.1 hz with hz | hz
    · exact hnew z hz
    · obtain ⟨h₁, h₂, h₃, reg, n, regs, hhas, hcov⟩ := h.hung z hz
      have hmem : z.ccb ∈ s.ccbs := List.mem_append_left _ (List.mem_map_of_mem hz)
      have hne : z.ccb.request ≠ r := fun he => hccb z.ccb.call (he ▸ hmem)
      have hsame : t.call z.ccb.call = s.call z.ccb.call :=
        (hcall _).resolve_right fun hno => hno _ hmem
      refine ⟨by rwa [hsame], by rwa [hreq _ hne], by rwa [hreq _ hne], ?_⟩
      rw [hsame, hpeer]
      by_cases hq : z.node = q
      · subst hq
        rw [Function.update_self]
        by_cases hp : z.entry = e
        · rw [hp] at hhas ⊢
          obtain ⟨n', regs', hhas'⟩ := hstill reg n regs hhas
          exact ⟨reg, n', regs', hhas', hcov⟩
        · exact ⟨reg, n, regs, (hframe.pending _ reg n regs hp).2 hhas, hcov⟩
      · rw [Function.update_of_ne hq]
        exact ⟨reg, n, regs, hhas, hcov⟩
  · intro b hbmem
    rw [hcbs] at hbmem
    obtain ⟨hpin, hready⟩ := h.ready b hbmem
    have hmem : b ∈ s.ccbs := List.mem_append_right _ hbmem
    have hne : b.request ≠ r := fun he => hccb b.call (he ▸ hmem)
    have hsame : t.call b.call = s.call b.call := (hcall _).resolve_right fun hno => hno _ hmem
    exact ⟨by rwa [hreq _ hne],
      h.ready_frame hready (Or.inr (Or.inl ⟨b, hbmem, rfl⟩)) (hreq _ hne) hsame hframes⟩
  · intro q' p reg n regs hhas
    have hfilter : ¬(q' = q ∧ p = e) →
        t.hung.filter (Hung.on q' p) = s.hung.filter (Hung.on q' p) := by
      intro hne
      rw [hhung, List.filter_append, List.filter_eq_nil_iff.2, List.nil_append]
      intro z hz hzon
      obtain ⟨hzq, hzp⟩ := hon z hz
      simp only [Hung.on, Bool.and_eq_true, decide_eq_true_eq] at hzon
      exact hne ⟨hzon.1.symm.trans hzq, hzon.2.symm.trans hzp⟩
    rw [hpeer] at hhas
    by_cases hq : q' = q
    · subst hq
      rw [Function.update_self] at hhas
      by_cases hp : p = e
      · subst hp
        exact hpend reg n regs hhas
      · rw [hfilter fun he => hp he.2]
        exact h.pending q' p reg n regs ((hframe.pending p reg n regs hp).1 hhas)
    · rw [Function.update_of_ne hq] at hhas
      rw [hfilter fun he => hq he.1]
      exact h.pending q' p reg n regs hhas
  · intro q'
    obtain ⟨l, hl⟩ := h.holders q'
    have hrl : ∀ p, (r, p) ∉ l := fun p hmem => hr ((hl.mem r p).1 hmem).1
    have hsame : (∀ p, ¬(t.Bound r ∧ (t.request r).node = q' ∧ (t.request r).internal = some p)) →
        ∀ i p, (i, p) ∈ l ↔
          t.Bound i ∧ (t.request i).node = q' ∧ (t.request i).internal = some p := by
      intro hno i p
      by_cases hi : i = r
      · subst hi
        exact iff_of_false (hrl p) (hno p)
      · rw [hl.mem, hb i hi, hreq i hi]
    by_cases hq : q' = q
    · subst hq
      have hheld : (t.peer q').held = y.held := by rw [hpeer, Function.update_self]
      rcases htakes with ⟨hy, hno⟩ | ⟨hbr, p, hp, hy⟩
      · refine ⟨l, hl.nodup, ?_, hsame fun p hp => ?_⟩
        · rw [hheld, hy]
          exact hl.perm
        · rcases hno with hno | hno
          · exact hno hp.1
          · rw [hno] at hp
            exact nomatch hp.2.2
      · refine ⟨(r, p) :: l, ?_, ?_, fun i p' => ?_⟩
        · refine List.nodup_cons.2 ⟨fun hmem => ?_, hl.nodup⟩
          obtain ⟨⟨j, p'⟩, hjp, hj⟩ := List.mem_map.1 hmem
          simp only at hj
          exact hrl p' (hj ▸ hjp)
        · rw [hheld, hy]
          exact hl.perm.cons p
        · by_cases hi : i = r
          · subst hi
            rw [List.mem_cons, hp]
            simp only [Prod.mk.injEq, true_and, hrl p', or_false, hbr, hnode, Option.some.injEq]
            exact eq_comm
          · rw [List.mem_cons, hl.mem, hb i hi, hreq i hi]
            simp [hi]
    · refine ⟨l, hl.nodup, ?_, hsame fun p hp => hq (hp.2.1.symm.trans hnode)⟩
      rw [hpeer, Function.update_of_ne hq]
      exact hl.perm

/-- A request is released: it gives up its reference, if it has one. -/
theorem Backed.release (h : Backed c s) (hpeer : t.peer = Function.update s.peer q y)
    (hshape : y.Shape) (hgood : y.Good c) (hframe : Frame (s.peer q) y e)
    (hcall : t.call = s.call) (hreq : t.request = s.request) (hhung : t.hung = s.hung)
    (hcbs : t.callbacks = s.callbacks)
    (hb : ∀ i, t.Bound i ↔ i ≠ r ∧ s.Bound i) (hr : s.Bound r)
    (hnot : ∀ reg n regs, ¬(s.peer q).table.Has e reg (.pending n regs) ∧
      ¬y.table.Has e reg (.pending n regs))
    (hnode : (s.request r).node = q)
    (hheld : (s.request r).internal = none ∧ y.held = (s.peer q).held ∨
      (s.request r).internal = some e ∧ y.held = (s.peer q).held.erase e) : Backed c t := by
  have hframes := frame_update hpeer hframe
  -- The entry released is not pending, before or after.
  have hpending : ∀ q' p reg n regs, (t.peer q').table.Has p reg (.pending n regs) ↔
      (s.peer q').table.Has p reg (.pending n regs) := by
    intro q' p reg n regs
    rw [hpeer]
    by_cases hq : q' = q
    · subst hq
      rw [Function.update_self]
      by_cases hp : p = e
      · subst hp
        exact iff_of_false (hnot reg n regs).2 (hnot reg n regs).1
      · exact hframe.pending p reg n regs hp
    · rw [Function.update_of_ne hq]
  constructor
  · exact forall_peer hpeer h.shape hshape
  · exact forall_peer hpeer h.good hgood
  · intro k i hk
    rw [hcall] at hk
    obtain ⟨h₁, h₂, h₃⟩ := h.stalled k i hk
    exact ⟨by rwa [hcall], by rwa [hcall, hreq], by rwa [hreq]⟩
  · intro j i hj
    rw [hcall] at hj
    obtain ⟨hpin, hready⟩ := h.hit j i hj
    exact ⟨hreq ▸ hpin, h.ready_frame hready (Or.inl ⟨j, hj⟩) (by rw [hreq]) (by rw [hcall]) hframes⟩
  · intro z hz
    obtain ⟨h₁, h₂, h₃, reg, n, regs, hhas, hcov⟩ := h.hung z (hhung ▸ hz)
    refine ⟨hcall ▸ h₁, hreq ▸ h₂, hreq ▸ h₃, reg, n, regs, (hpending _ _ _ _ _).2 hhas, ?_⟩
    rwa [hcall]
  · intro b hbmem
    rw [hcbs] at hbmem
    obtain ⟨hpin, hready⟩ := h.ready b hbmem
    exact ⟨hreq ▸ hpin, h.ready_frame hready (Or.inr (Or.inl ⟨b, hbmem, rfl⟩)) (by rw [hreq])
      (by rw [hcall]) hframes⟩
  · intro q' p reg n regs hhas
    rw [hhung]
    exact h.pending q' p reg n regs ((hpending _ _ _ _ _).1 hhas)
  · intro q'
    obtain ⟨l, hl⟩ := h.holders q'
    have hnodup : l.Nodup := List.Nodup.of_map _ hl.nodup
    have hother : (∀ p, (r, p) ∉ l) → ∀ i p, (i, p) ∈ l ↔
        t.Bound i ∧ (t.request i).node = q' ∧ (t.request i).internal = some p := by
      intro hno i p
      rw [hb, hreq]
      by_cases hi : i = r
      · subst hi
        exact iff_of_false (hno p) fun hall => hall.1.1 rfl
      · rw [hl.mem]
        simp [hi]
    by_cases hq : q' = q
    · subst hq
      have hheld' : (t.peer q').held = y.held := by rw [hpeer, Function.update_self]
      rcases hheld with ⟨hnone, hy⟩ | ⟨hsome, hy⟩
      · refine ⟨l, hl.nodup, by rw [hheld', hy]; exact hl.perm, hother fun p hmem => ?_⟩
        have := ((hl.mem r p).1 hmem).2.2
        rw [hnone] at this
        cases this
      · have hmem : (r, e) ∈ l := (hl.mem r e).2 ⟨hr, hnode, hsome⟩
        refine ⟨l.erase (r, e), hl.nodup.sublist (List.erase_sublist.map _), ?_, fun i p => ?_⟩
        · rw [hheld', hy]
          have hperm := (List.perm_cons_erase hmem).map Prod.snd
          exact (List.cons_perm_iff_perm_erase.1 (hperm.symm.trans hl.perm)).2
        · rw [hnodup.mem_erase_iff, hl.mem, hb, hreq]
          by_cases hi : i = r
          · subst hi
            refine iff_of_false (fun hall => ?_) fun hall => hall.1.1 rfl
            have := hall.2.2.2
            rw [hsome] at this
            exact hall.1 (by rw [Option.some.inj this])
          · simp [hi]
    · refine ⟨l, hl.nodup, ?_, hother fun p hmem => hq ?_⟩
      · rw [hpeer, Function.update_of_ne hq]
        exact hl.perm
      · exact ((hl.mem r p).1 hmem).2.1.symm.trans hnode

theorem mem_hungOn {z : Hung Node} :
    z ∈ s.hung.filter (Hung.on q p) ↔ z ∈ s.hung ∧ z.node = q ∧ z.entry = p := by
  simp [List.mem_filter, Hung.on]

omit [DecidableEq Node] in
theorem call_eq (ho : Owned s) {a b : Ccb} (ha : a ∈ s.ccbs) (hb : b ∈ s.ccbs)
    (h : a.request = b.request) : a = b := by
  obtain ⟨k, r⟩ := a
  obtain ⟨j, i⟩ := b
  obtain rfl : r = i := h
  have hu := ho.unique (u := .ccb k) (v := .ccb j) ha hb
  rw [Use.ccb.inj hu]

/-- The reply to a pin: the requests hung on the entry now hold it, and their callbacks can run. -/
theorem Backed.reply (h : Backed c s) (ho : Owned s) (hn : s.ccbs.Nodup)
    (hx : x ∈ (s.peer q).table.privs) (hp : x.status.isPending) (ha : reg.Aligned c.bucketSize)
    (hc : reg.Covers x.region) : Backed c (s.reply c q x reg) := by
  obtain ⟨n, ccbs, hst⟩ : ∃ n ccbs, x.status = .pending n ccbs := by
    cases hst : x.status with
    | used l n =>
      rw [hst] at hp
      exact absurd hp (by simp [Status.isPending])
    | pending n ccbs => exact ⟨n, ccbs, rfl⟩
  have hhas := Table.has_of_mem hx
  rw [hst] at hhas
  let hung := s.hung.filter (Hung.on q x.ptr)
  let y := (s.peer q).findPendingCallbacks c x reg
  have hrep : Peer.Replied (s.peer q) y x reg ccbs.length :=
    Peer.replied_findPendingCallbacks (h.shape q) hx hst
  have hshape : y.Shape := (Peer.shape_findPendingCallbacks (h.shape q) hx).1
  have hgood : y.Good c := Peer.good_step (.reply hx hp ha hc) (h.good q)
  have hlen : ccbs.length = hung.length := h.pending q x.ptr _ _ _ hhas
  obtain ⟨reg', l', m', hcov', hhas'⟩ := hrep.has
  have hpeer : (s.reply c q x reg).peer = Function.update s.peer q y := rfl
  have hframes := frame_update hpeer hrep.frame
  have hmem : ∀ {z : Hung Node}, z ∈ s.hung → z.ccb ∈ s.ccbs := fun hz =>
    List.mem_append_left _ (List.mem_map_of_mem hz)
  have hmemcb : ∀ {b}, b ∈ s.callbacks → b ∈ s.ccbs := fun hb => List.mem_append_right _ hb
  obtain ⟨hnhung, _, hdisj⟩ := List.nodup_append.1 hn
  -- Which requests the reply changes.
  have hin : ∀ i, (hung.any fun z => z.ccb.request = i) = true ↔
      ∃ z ∈ s.hung, (z.node = q ∧ z.entry = x.ptr) ∧ z.ccb.request = i := by
    intro i
    simp only [hung, List.any_eq_true, mem_hungOn, decide_eq_true_eq]
    exact exists_congr fun z => and_assoc
  have hreq : ∀ i, (hung.any fun z => z.ccb.request = i) = false →
      (s.reply c q x reg).request i = s.request i := fun i hi => by
    simp only [Pins.reply, hung] at hi ⊢
    rw [hi]
    rfl
  have hsame : ∀ i, ((s.reply c q x reg).request i).node = (s.request i).node ∧
      ((s.reply c q x reg).request i).pinned = (s.request i).pinned := by
    intro i
    simp only [Pins.reply]
    split <;> exact ⟨rfl, rfl⟩
  have hnotBound : ∀ z ∈ s.hung, ¬s.Bound z.ccb.request := by
    rintro z hz (⟨k, hk⟩ | ⟨b, hb, hbz⟩ | hg)
    · cases ho.unique (u := .hit k) (v := .ccb z.ccb.call) hk (hmem hz)
    · have heq := call_eq ho (hmemcb hb) (hmem hz) hbz
      exact hdisj _ (List.mem_map_of_mem hz) _ hb heq.symm
    · cases ho.unique (u := .given) (v := .ccb z.ccb.call) hg (hmem hz)
  have hunchanged : ∀ {i}, s.Bound i → (s.reply c q x reg).request i = s.request i := by
    intro i hi
    refine hreq i (Bool.eq_false_iff.2 fun hany => ?_)
    obtain ⟨z, hz, _, rfl⟩ := (hin i).1 hany
    exact hnotBound z hz hi
  have hmoved : ∀ {z}, z ∈ hung →
      (s.reply c q x reg).request z.ccb.request = { s.request z.ccb.request with
        pending := false, region := reg, internal := some x.ptr } := by
    intro z hz
    have hany : (hung.any fun z' => z'.ccb.request = z.ccb.request) = true :=
      List.any_eq_true.2 ⟨z, hz, by simp⟩
    simp only [Pins.reply, hung] at hany ⊢
    rw [hany]
    rfl
  constructor
  · exact forall_peer hpeer h.shape hshape
  · exact forall_peer hpeer h.good hgood
  · intro k i hk
    obtain ⟨h₁, h₂, h₃⟩ := h.stalled k i hk
    exact ⟨h₁, (hsame i).1.trans h₂, (hsame i).2.trans h₃⟩
  · intro k i hk
    have hb : s.Bound i := Or.inl ⟨k, hk⟩
    obtain ⟨hpin, hready⟩ := h.hit k i hk
    exact ⟨by rwa [hunchanged hb], h.ready_frame hready hb (hunchanged hb) rfl hframes⟩
  · intro z hz
    obtain ⟨hz, hzon⟩ := List.mem_filter.1 hz
    obtain ⟨h₁, h₂, h₃, reg₀, m, regs, hzhas, hzcov⟩ := h.hung z hz
    refine ⟨h₁, (hsame _).1.trans h₂, (hsame _).2.trans h₃, reg₀, m, regs, ?_, hzcov⟩
    rw [hpeer]
    by_cases hq : z.node = q
    · have hzp : z.entry ≠ x.ptr := fun he => by simp [Hung.on, hq, he] at hzon
      rw [hq, Function.update_self]
      exact (hrep.frame.pending _ _ _ _ hzp).2 (hq ▸ hzhas)
    · rwa [Function.update_of_ne hq]
  · intro b hb
    rcases List.mem_append.1 hb with hb | hb
    · have hbound : s.Bound b.request := Or.inr (Or.inl ⟨b, hb, rfl⟩)
      obtain ⟨hpin, hready⟩ := h.ready b hb
      exact ⟨by rwa [hunchanged hbound],
        h.ready_frame hready hbound (hunchanged hbound) rfl hframes⟩
    · obtain ⟨z, hz, rfl⟩ := List.mem_map.1 hb
      obtain ⟨hzs, hzq, hzp⟩ := mem_hungOn.1 hz
      obtain ⟨h₁, h₂, h₃, reg₀, m, regs, hzhas, hzcov⟩ := h.hung z hzs
      rw [hzq, hzp] at hzhas
      obtain ⟨rfl, _⟩ := hzhas.unique hhas (h.shape q).nodup
      refine ⟨(hsame _).2.trans h₃, (hsame _).1.trans (h₂.trans h₁.symm), x.ptr, reg', .used l' m',
        by rw [hmoved hz], ?_, (hcov'.trans hc).trans hzcov⟩
      change ((s.reply c q x reg).peer (s.call z.ccb.call).node).table.Has _ _ _
      rw [hpeer, h₁, hzq, Function.update_self]
      exact hhas'
  · intro q' p reg₀ m regs hreg
    rw [hpeer] at hreg
    have hfilter : ¬(q' = q ∧ p = x.ptr) →
        ((s.hung.filter fun z => !Hung.on q x.ptr z).filter (Hung.on q' p)) =
          s.hung.filter (Hung.on q' p) := by
      intro hne
      rw [List.filter_filter]
      refine List.filter_congr fun z _ => ?_
      by_cases hz : Hung.on q' p z
      · have hz' := hz
        simp only [Hung.on, Bool.and_eq_true, decide_eq_true_eq] at hz'
        obtain ⟨rfl, rfl⟩ := hz'
        have : Hung.on q x.ptr z = false := by
          simpa [Hung.on] using fun h₁ h₂ => hne ⟨h₁, h₂⟩
        rw [hz, this]
        rfl
      · rw [Bool.eq_false_iff.2 hz]
        rfl
    by_cases hq : q' = q
    · subst hq
      rw [Function.update_self] at hreg
      by_cases hxp : p = x.ptr
      · subst hxp
        cases (hreg.unique hhas' hshape.nodup).2
      · refine (h.pending q' p reg₀ m regs ((hrep.frame.pending p _ _ _ hxp).1 hreg)).trans ?_
        exact congrArg List.length (hfilter fun he => hxp he.2).symm
    · rw [Function.update_of_ne hq] at hreg
      exact (h.pending q' p reg₀ m regs hreg).trans
        (congrArg List.length (hfilter fun he => hq he.1).symm)
  · intro q'
    obtain ⟨l, hl⟩ := h.holders q'
    have hboundt : ∀ i, (s.reply c q x reg).Bound i ↔
        s.Bound i ∨ ∃ z ∈ hung, z.ccb.request = i := by
      intro i
      simp only [Bound, Pins.reply, List.mem_append, List.mem_map]
      constructor
      · rintro (hk | ⟨b, hb | ⟨z, hz, rfl⟩, rfl⟩ | hg)
        · exact Or.inl (Or.inl hk)
        · exact Or.inl (Or.inr (Or.inl ⟨b, hb, rfl⟩))
        · exact Or.inr ⟨z, hz, rfl⟩
        · exact Or.inl (Or.inr (Or.inr hg))
      · rintro ((hk | ⟨b, hb, rfl⟩ | hg) | ⟨z, hz, rfl⟩)
        · exact Or.inl hk
        · exact Or.inr (Or.inl ⟨b, Or.inl hb, rfl⟩)
        · exact Or.inr (Or.inr hg)
        · exact Or.inr (Or.inl ⟨z.ccb, Or.inr ⟨z, hz, rfl⟩, rfl⟩)
    have hnotl : ∀ z ∈ hung, ∀ p, (z.ccb.request, p) ∉ l := fun z hz p hmem' =>
      hnotBound z (mem_hungOn.1 hz).1 ((hl.mem _ p).1 hmem').1
    have hold : ∀ i p, (∀ z ∈ hung, z.ccb.request ≠ i) → ((i, p) ∈ l ↔
        (s.reply c q x reg).Bound i ∧ ((s.reply c q x reg).request i).node = q' ∧
          ((s.reply c q x reg).request i).internal = some p) := by
      intro i p hno
      have hany : (hung.any fun z => z.ccb.request = i) = false := by
        simpa [List.any_eq_false] using hno
      rw [hl.mem, hboundt, hreq i hany]
      exact and_congr_left' ⟨Or.inl, fun hor => hor.resolve_right fun h =>
        h.elim fun z hz => hno z hz.1 hz.2⟩
    have hnodeq : ∀ z ∈ hung, ((s.reply c q x reg).request z.ccb.request).node = q := fun z hz => by
      obtain ⟨hzs, hzq, _⟩ := mem_hungOn.1 hz
      exact (hsame _).1.trans ((h.hung z hzs).request.trans hzq)
    by_cases hq : q' = q
    · subst hq
      refine ⟨hung.map (fun z => (z.ccb.request, x.ptr)) ++ l, ?_, ?_, fun i p => ?_⟩
      · rw [List.map_append, List.map_map]
        refine List.nodup_append.2 ⟨?_, hl.nodup, ?_⟩
        · -- Two callbacks with one request would be one callback.
          have hsub : (hung.map Hung.ccb).Nodup := hnhung.sublist (List.filter_sublist.map _)
          have hinj : ∀ a ∈ hung.map Hung.ccb, ∀ b ∈ hung.map Hung.ccb,
              a.request = b.request → a = b := by
            intro a ha b hb hab
            obtain ⟨z, hz, rfl⟩ := List.mem_map.1 ha
            obtain ⟨w, hw, rfl⟩ := List.mem_map.1 hb
            exact call_eq ho (hmem (mem_hungOn.1 hz).1) (hmem (mem_hungOn.1 hw).1) hab
          have hmap := hsub.map_on hinj
          rwa [List.map_map] at hmap
        · intro i hi j hj hij
          obtain ⟨z, hz, rfl⟩ := List.mem_map.1 hi
          obtain ⟨⟨_, p⟩, hjl, rfl⟩ := List.mem_map.1 hj
          simp only [Function.comp_apply] at hij
          exact hnotl z hz p (hij ▸ hjl)
      · rw [hpeer, Function.update_self, hrep.held, List.map_append, List.map_map, hlen]
        have hrepl : hung.map (Prod.snd ∘ fun z => (z.ccb.request, x.ptr)) =
            List.replicate hung.length x.ptr := List.map_const' ..
        rw [hrepl]
        exact hl.perm.append_left _
      · by_cases hi : ∃ z ∈ hung, z.ccb.request = i
        · obtain ⟨z, hz, rfl⟩ := hi
          rw [List.mem_append, or_iff_left (hnotl z hz p), List.mem_map]
          rw [hboundt, hnodeq z hz, hmoved hz]
          constructor
          · rintro ⟨w, _, he⟩
            exact ⟨Or.inr ⟨z, hz, rfl⟩, rfl, congrArg (some ∘ Prod.snd) he⟩
          · rintro ⟨_, _, he⟩
            exact ⟨z, hz, congrArg _ (Option.some.inj he)⟩
        · rw [← hold i p fun z hz he => hi ⟨z, hz, he⟩, List.mem_append, or_iff_right]
          intro hmap
          obtain ⟨z, hz, he⟩ := List.mem_map.1 hmap
          exact hi ⟨z, hz, congrArg Prod.fst he⟩
    · refine ⟨l, hl.nodup, ?_, fun i p => ?_⟩
      · rw [hpeer, Function.update_of_ne hq]
        exact hl.perm
      · by_cases hi : ∃ z ∈ hung, z.ccb.request = i
        · obtain ⟨z, hz, rfl⟩ := hi
          exact iff_of_false (hnotl z hz p) fun hall => hq (hall.2.1.symm.trans (hnodeq z hz))
        · exact hold i p fun z hz he => hi ⟨z, hz, he⟩

end Gasnet.Firehose.Pins
