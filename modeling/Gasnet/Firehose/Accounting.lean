import Gasnet.Firehose.Shape
import Gasnet.Firehose.Local
import Gasnet.Foundation.Run

/-! What one step does to the ledger of a peer. -/
namespace Gasnet.Firehose.Peer

variable {c : Params} {s t : Peer} {x : Priv} {p n : Nat} {req r : Region} {a : RemoteAction}

theorem length_setStatus {u : Table} {st : Status} :
    (u.setStatus p st).privs.length = u.privs.length := List.length_map _

theorem shape_privAcquireRemote (h : Shape s) (hx : x ∈ s.table.privs)
    (hp : ¬x.status.isPending) :
    Shape (s.privAcquireRemote x) ∧ (s.privAcquireRemote x).leaked = s.leaked := by
  have hfits := h.fits_of hx
  have hother : ∀ q ≠ x.ptr, (x.ptr :: s.held).count q = s.held.count q :=
    fun q hq => List.count_cons_of_ne (Ne.symm hq)
  unfold privAcquireRemote
  split
  · rename_i hmem
    have hlen := List.length_erase_of_mem hmem
    have hpos := List.length_pos_of_mem hmem
    refine ⟨h.setStatus hx ⟨?_, ?_⟩ hother (fun q hq => List.mem_erase_of_ne hq)
      (h.fifoNodup.erase _) ?_, by simp [leaked, length_setStatus]⟩
    · rw [List.count_cons_self, List.count_eq_zero.2 (h.not_held hmem)]
    · simp [h.fifoNodup.mem_erase_iff]
    · rw [h.count, hlen]
      omega
  · rename_i hmem
    cases hst : x.status with
    | used l k =>
      rw [hst] at hfits
      refine ⟨h.setStatus hx ⟨?_, by simp [hmem]⟩ hother (fun _ _ => Iff.rfl) h.fifoNodup h.count,
        by simp [leaked, length_setStatus]⟩
      rw [List.count_cons_self, hfits.1]
    | pending k ccbs => exact absurd rfl (hst ▸ hp)

theorem shape_privReleaseRemote (h : Shape s) (hx : x ∈ s.table.privs) (hh : x.ptr ∈ s.held) :
    Shape (s.privReleaseRemote x) ∧ (s.privReleaseRemote x).leaked = s.leaked := by
  have hfits := h.fits_of hx
  have hcount := List.count_pos_iff.2 hh
  have hself : (s.held.erase x.ptr).count x.ptr = s.held.count x.ptr - 1 := List.count_erase_self
  have hother : ∀ q ≠ x.ptr, (s.held.erase x.ptr).count q = s.held.count q :=
    fun q hq => List.count_erase_of_ne hq
  unfold privReleaseRemote
  split
  · rename_i l k hst
    rw [hst] at hfits
    obtain ⟨hk, hf⟩ := hfits
    have hnot : x.ptr ∉ s.table.fifo := by simpa using hf
    split
    · rename_i hzero
      refine ⟨h.setStatus hx ⟨by omega, iff_of_true ?_ hzero⟩ hother ?_ ?_ ?_,
        by simp [leaked, length_setStatus]⟩
      · split <;> simp
      · intro q hq
        split <;> simp [hq, Table.setStatus, Table.modify]
      · split
        · exact List.nodup_cons.2 ⟨hnot, h.fifoNodup⟩
        · exact List.Nodup.append h.fifoNodup (List.nodup_singleton _) 
            (by simpa [Table.setStatus, Table.modify] using hnot)
      · rw [h.count]
        split <;> simp [Table.setStatus, Table.modify]
    · rename_i hpos
      exact ⟨h.setStatus hx ⟨by omega, iff_of_false hnot hpos⟩ hother (fun _ _ => Iff.rfl)
        h.fifoNodup h.count, by simp [leaked, length_setStatus]⟩
  · exact ⟨h, rfl⟩

theorem shape_hang (h : Shape s) {ccbs : List Region} (hx : x ∈ s.table.privs)
    (hst : x.status = .pending n ccbs) :
    Shape { s with
      table := s.table.setStatus x.ptr (.pending (n + 1) (req :: ccbs)) } := by
  have hfits := h.fits_of hx
  rw [hst] at hfits
  obtain ⟨hlen, _, hheld, hfifo⟩ := hfits
  exact h.setStatus hx ⟨by simp [hlen], Nat.succ_pos n, hheld, hfifo⟩ (fun _ _ => rfl)
    (fun _ _ => Iff.rfl) h.fifoNodup h.count

/-- The requests hung on the entry now hold it. -/
theorem shape_findPendingCallbacks (h : Shape s) (hx : x ∈ s.table.privs) :
    Shape (s.findPendingCallbacks c x r) ∧
      (s.findPendingCallbacks c x r).leaked = s.leaked := by
  have hfits := h.fits_of hx
  unfold findPendingCallbacks
  split
  · rename_i k ccbs hst
    rw [hst] at hfits
    obtain ⟨hlen, hpos, hheld, hfifo⟩ := hfits
    obtain ⟨htags, hperm, hnext⟩ :=
      Table.updatePriv_spec (t := s.table) (x := x) (r := r) (g := c.bucketSize)
    have hu := h.congr htags hperm hnext
    obtain ⟨y, hy, hyx⟩ : ∃ y ∈ (s.table.updatePriv c.bucketSize x r).privs, y.ptr = x.ptr := by
      have hmem : x.ptr ∈ (s.table.updatePriv c.bucketSize x r).tags.map Prod.fst :=
        htags ▸ List.mem_map_of_mem (Table.tag_mem hx)
      simpa [Table.tags, Table.entries, Priv.core] using hmem
    rw [← hyx] at hheld hfifo ⊢
    refine ⟨hu.setStatus hy ⟨?_, ?_⟩ ?_ (fun _ _ => Iff.rfl) hu.fifoNodup hu.count, ?_⟩
    · rw [List.count_append, List.count_replicate_self, List.count_eq_zero.2 hheld, hlen]
      rfl
    · exact iff_of_false (fun hf => hfifo (hperm.mem_iff.1 hf)) (by omega)
    · intro q hq
      rw [List.count_append, List.count_replicate, if_neg (by simpa using Ne.symm hq)]
      exact Nat.zero_add _
    · simp only [leaked, length_setStatus]
      rw [← Table.length_tags, htags, Table.length_tags]
  · exact ⟨h, rfl⟩

/-- A step keeps the shape, and leaks exactly when it cleans. -/
theorem remoteStep_spec (h : Shape s) (hstep : RemoteStep c s a t) :
    Shape t ∧ s.leaked ≤ t.leaked ∧ (s.leaked = t.leaked ↔ s.Tidy c a) := by
  have hquiet {t : Peer} (ht : Shape t ∧ t.leaked = s.leaked) :
      Shape t ∧ s.leaked ≤ t.leaked ∧ (s.leaked = t.leaked ↔ True) :=
    ⟨ht.1, ht.2.ge, iff_of_true ht.2.symm trivial⟩
  cases hstep with
  | @pin req _ _ =>
    unfold acquireRemoteRegion
    cases hfind : s.table.findPriv req with
    | none =>
      cases hslot : s.acquireSlot c with
      | none =>
        refine ⟨⟨h.nodup, h.fresh, h.fifoNodup, h.fifoMem, h.heldMem, h.fits, h.count⟩, le_rfl, ?_⟩
        exact iff_of_true rfl fun _ _ _ hs => by simp [hslot] at hs
      | some sn =>
        obtain ⟨s', n⟩ := sn
        obtain ⟨hshape, hleak, hn⟩ := acquireSlot_spec h hslot
        obtain ⟨hle, hiff⟩ := miss_leaked (c := c) req hshape hn
        refine ⟨(miss_spec hshape).1, by simp only; omega, ?_⟩
        simp only [Tidy, hfind, hslot, true_implies, Option.some.injEq, Prod.mk.injEq]
        constructor
        · rintro heq _ _ ⟨rfl, rfl⟩
          exact hiff.1 (by omega)
        · intro htidy
          have := hiff.2 (htidy s' n ⟨rfl, rfl⟩)
          omega
    | some x =>
      obtain ⟨hx, _⟩ := Table.mem_of_lookup (Table.findPriv_eq_some.1 hfind).1
      have htrue : s.Tidy c (.pin req) ↔ True := by simp [Tidy, hfind]
      rw [htrue]
      cases hst : x.status with
      | pending k ccbs =>
        simp only [hst]
        exact hquiet ⟨shape_hang h hx hst, by simp [leaked, length_setStatus]⟩
      | used l k =>
        simp only [hst]
        exact hquiet (shape_privAcquireRemote h hx (by simp [hst, Status.isPending]))
  | @resume req _ =>
    unfold resume
    cases hwait : s.waitRemoteFirehoses with
    | none => exact ⟨h, le_rfl, iff_of_true rfl fun _ hs => by simp [hwait] at hs⟩
    | some s' =>
      obtain ⟨hshape, hleak, _⟩ := waitRemoteFirehoses_spec h hwait
      have hshape' : Shape { s' with stalled := s'.stalled.erase req } :=
        ⟨hshape.nodup, hshape.fresh, hshape.fifoNodup, hshape.fifoMem, hshape.heldMem,
          hshape.fits, hshape.count⟩
      obtain ⟨hle, hiff⟩ := miss_leaked (c := c) req hshape' (n := 1) le_rfl
      have hsame : Peer.leaked { s' with stalled := s'.stalled.erase req } = s'.leaked := rfl
      refine ⟨(miss_spec hshape').1, by simp only; omega, ?_⟩
      simp only [Tidy, hwait, Option.some.injEq, forall_eq']
      exact ⟨fun heq => hiff.1 (by omega), fun htidy => by have := hiff.2 htidy; omega⟩
  | reply hx _ _ _ => exact hquiet (shape_findPendingCallbacks h hx)
  | acquire hx hp => exact hquiet (shape_privAcquireRemote h hx hp)
  | release hx hh => exact hquiet (shape_privReleaseRemote h hx hh)

/-- A miss polls only when every slot is in use, and slots are never given back. -/
theorem remoteStep_full (hstep : RemoteStep c s a t)
    (hs : s.stalled ≠ [] → (c.remoteBucketsM : Int) ≤ s.bucketsUsed) :
    t.stalled ≠ [] → (c.remoteBucketsM : Int) ≤ t.bucketsUsed := by
  have hacquire : ∀ x, (s.privAcquireRemote x).stalled = s.stalled ∧
      (s.privAcquireRemote x).bucketsUsed = s.bucketsUsed := by
    intro x
    unfold privAcquireRemote
    split
    · exact ⟨rfl, rfl⟩
    · split <;> exact ⟨rfl, rfl⟩
  have hwait : ∀ {s'}, s.waitRemoteFirehoses = some s' →
      s'.stalled = s.stalled ∧ s'.bucketsUsed = s.bucketsUsed := by
    intro s' hs'
    unfold waitRemoteFirehoses at hs'
    split at hs'
    · obtain rfl := Option.some.inj hs'
      exact ⟨rfl, rfl⟩
    · cases hs'
  cases hstep with
  | @pin req _ _ =>
    unfold acquireRemoteRegion
    split
    · split
      · rename_i s' n hslot
        unfold acquireSlot at hslot
        split at hslot
        · obtain ⟨rfl, rfl⟩ := Prod.mk.inj (Option.some.inj hslot)
          intro hne
          have := hs hne
          simp only [miss, cleanCoveredRemote]
          omega
        · obtain ⟨u, hu, hus⟩ := Option.map_eq_some_iff.1 hslot
          obtain ⟨rfl, rfl⟩ := Prod.mk.inj hus
          obtain ⟨hst, hused⟩ := hwait hu
          simpa [miss, cleanCoveredRemote, hst, hused] using hs
      · rename_i hslot
        intro _
        unfold acquireSlot at hslot
        split at hslot
        · cases hslot
        · simp only
          omega
    · split
      · exact hs
      · rwa [(hacquire _).1, (hacquire _).2]
  | @resume req hmem =>
    unfold resume
    split
    · rename_i s' hs'
      obtain ⟨_, hused⟩ := hwait hs'
      intro _
      have := hs (List.ne_nil_of_mem hmem)
      simpa [miss, cleanCoveredRemote, hused] using this
    · exact hs
  | reply _ _ _ _ =>
    unfold findPendingCallbacks
    split <;> exact hs
  | acquire _ _ => rwa [(hacquire _).1, (hacquire _).2]
  | release _ _ =>
    unfold privReleaseRemote
    split
    · simp only
      split <;> exact hs
    · exact hs

/-- No pin in flight, and every request released. -/
def Quiescent (s : Peer) : Prop := s.held = [] ∧ ∀ x ∈ s.table.privs, ¬x.status.isPending

/-- When nothing is pending or held, all entries are victims. -/
theorem Shape.quiescent (h : Shape s) (hq : s.Quiescent) :
    s.table.fifo.length = s.table.privs.length := by
  obtain ⟨hheld, hpending⟩ := hq
  have hperm : s.table.fifo.Perm s.table.ptrs := by
    refine (List.perm_ext_iff_of_nodup h.fifoNodup h.nodup).2 fun p => ⟨h.fifoMem p, fun hp => ?_⟩
    obtain ⟨e, he, rfl⟩ := List.mem_map.1 hp
    obtain ⟨y, hy, rfl⟩ := List.mem_map.1 he
    obtain ⟨x, hx, rfl⟩ := List.mem_map.1 hy
    have hfits := h.fits_of hx
    cases hst : x.status with
    | used l r =>
      rw [hst] at hfits
      exact hfits.2.2 (by simp [hfits.1, hheld])
    | pending r ccbs => exact absurd rfl (hst ▸ hpending x hx)
  rw [hperm.length_eq, Table.ptrs, List.length_map, Table.length_tags]

/-- The counters of a peer agree with its tables, and no slot is lost for good: once nothing is
pending or held, free slots and victims make up all slots, and a miss need not poll. -/
def Accounted (c : Params) (s : Peer) : Prop :=
  s.bucketsUsed = s.table.privs.length ∧ s.victimFifoBuckets = s.table.fifo.length ∧
    (s.Quiescent →
      c.remoteBucketsM - s.bucketsUsed + s.table.fifo.length = c.remoteBucketsM ∧
        (c.remoteBucketsM ≤ s.bucketsUsed ∨ s.stalled ≠ [] → s.waitRemoteFirehoses ≠ none))

theorem Shape.accounted (h : Shape s) (hleak : s.leaked = 0)
    (hfull : s.stalled ≠ [] → (c.remoteBucketsM : Int) ≤ s.bucketsUsed) : s.Accounted c := by
  unfold leaked at hleak
  refine ⟨by omega, h.count, fun hq => ?_⟩
  have hlen := h.quiescent hq
  refine ⟨by omega, fun hor => ?_⟩
  have hused : (c.remoteBucketsM : Int) ≤ s.bucketsUsed := hor.elim id hfull
  have hM := c.remote_pos
  have hcount := h.count
  rw [waitRemoteFirehoses, if_pos (by omega)]
  exact Option.some_ne_none _

end Gasnet.Firehose.Peer

/-! One node: its own tables and those about every peer. Over any run, the slots of every peer are
accounted for if and only if no miss ever found a covered region at the head of the FIFO. -/
namespace Gasnet.Firehose

variable {Node : Type} [DecidableEq Node] {c : Params} {me : Node}

structure State (Node : Type) where
  own : Own
  peer : Node → Peer

inductive Action (Node : Type)
  | own (a : LocalAction)
  | peer (q : Node) (a : RemoteAction)

def initial : State Node := ⟨.initial, fun _ => .initial⟩

inductive Step (c : Params) (me : Node) (s : State Node) : Action Node → State Node → Prop
  | own {a : LocalAction} {t : Own} (h : LocalStep c s.own a t) :
      Step c me s (.own a) { s with own := t }
  | peer {q : Node} {a : RemoteAction} {t : Peer} (hq : q ≠ me) (h : RemoteStep c (s.peer q) a t) :
      Step c me s (.peer q a) { s with peer := Function.update s.peer q t }

/-- No miss of the step finds a covered region to clean. -/
def Tidy (c : Params) (s : State Node) : Action Node → Prop
  | .own _ => True
  | .peer q a => (s.peer q).Tidy c a

/-- A step in which nothing is cleaned from the FIFO of a peer. -/
def TidyStep (c : Params) (me : Node) (s : State Node) (a : Action Node) (t : State Node) : Prop :=
  Step c me s a t ∧ Tidy c s a

variable {s t : State Node} {a : Action Node} {xs : List (Action Node)} {q : Node}

def Shaped (c : Params) (s : State Node) : Prop :=
  ∀ q, (s.peer q).Shape ∧
    ((s.peer q).stalled ≠ [] → (c.remoteBucketsM : Int) ≤ (s.peer q).bucketsUsed)

omit [DecidableEq Node] in
theorem shaped_initial : Shaped c (initial : State Node) :=
  fun _ => ⟨Peer.shape_initial, fun h => absurd rfl h⟩

theorem shaped_step (h : Step c me s a t) (hs : Shaped c s) : Shaped c t := by
  cases h with
  | own _ => exact hs
  | @peer p _ u _ h =>
    intro q
    by_cases hqp : q = p
    · subst hqp
      simp only [Function.update_self]
      exact ⟨(Peer.remoteStep_spec (hs q).1 h).1, Peer.remoteStep_full h (hs q).2⟩
    · simp only [Function.update_of_ne hqp]
      exact hs q

/-- No slot is ever recovered, and one is lost exactly by a step that is not tidy. -/
theorem leaked_step (h : Step c me s a t) (hs : Shaped c s) :
    (∀ q, (s.peer q).leaked ≤ (t.peer q).leaked) ∧
      ((∀ q, (s.peer q).leaked = (t.peer q).leaked) ↔ Tidy c s a) := by
  cases h with
  | own _ => exact ⟨fun _ => le_rfl, iff_of_true (fun _ => rfl) trivial⟩
  | @peer p _ u _ h =>
    obtain ⟨_, hle, hiff⟩ := Peer.remoteStep_spec (hs p).1 h
    refine ⟨fun q => ?_, fun heq => hiff.1 ?_, fun htidy q => ?_⟩
    · by_cases hqp : q = p
      · subst hqp
        simpa using hle
      · simp [hqp]
    · simpa using heq p
    · by_cases hqp : q = p
      · subst hqp
        simpa using hiff.2 htidy
      · simp [hqp]

theorem leaked_run (h : Run (Step c me) s xs t) (hs : Shaped c s) :
    ∀ q, (s.peer q).leaked ≤ (t.peer q).leaked := by
  induction h with
  | refl => exact fun _ => le_rfl
  | stepL hstep _ ih =>
    exact fun q => ((leaked_step hstep hs).1 q).trans (ih (shaped_step hstep hs) q)

theorem leaked_tidyRun (h : Run (TidyStep c me) s xs t) (hs : Shaped c s) :
    Shaped c t ∧ ∀ q, (s.peer q).leaked = (t.peer q).leaked := by
  induction h with
  | refl => exact ⟨hs, fun _ => rfl⟩
  | stepL hstep _ ih =>
    obtain ⟨ht, heq⟩ := ih (shaped_step hstep.1 hs)
    exact ⟨ht, fun q => (((leaked_step hstep.1 hs).2.2 hstep.2) q).trans (heq q)⟩

/-- A run that has lost no slot never lost one on its way. -/
theorem tidy_of_leaked (h : Run (Step c me) s xs t) (hs : Shaped c s)
    (heq : ∀ q, (s.peer q).leaked = (t.peer q).leaked) : Run (TidyStep c me) s xs t := by
  induction h with
  | refl => exact .refl
  | @stepL s u t a xs hstep hrest ih =>
    have hu := shaped_step hstep hs
    obtain ⟨hle, hiff⟩ := leaked_step hstep hs
    have hlater := leaked_run hrest hu
    have hsu : ∀ q, (s.peer q).leaked = (u.peer q).leaked := fun q => by
      have h₁ := hle q
      have h₂ := hlater q
      have h₃ := heq q
      omega
    exact .stepL ⟨hstep, hiff.1 hsu⟩ (ih hu fun q => (hsu q).symm.trans (heq q))

/-- The counters of every peer are right after a run, and its slots all recoverable, if and only
if every step of the run was tidy. -/
theorem remote_accounting_iff (h : Run (Step c me) initial xs s) :
    (∀ q, (s.peer q).Accounted c) ↔ Run (TidyStep c me) initial xs s := by
  have hzero : ∀ q, ((initial : State Node).peer q).leaked = 0 := fun _ => rfl
  constructor
  · intro hacc
    refine tidy_of_leaked h shaped_initial fun q => ?_
    have hq := (hacc q).1
    rw [hzero q, Peer.leaked]
    omega
  · intro htidy q
    obtain ⟨hs, heq⟩ := leaked_tidyRun htidy shaped_initial
    exact (hs q).1.accounted ((heq q).symm.trans (hzero q)) (hs q).2

/-- What happens to the tables about one peer happens on the node. -/
theorem run_peer {q : Node} {p p' : Peer} {as : List RemoteAction} (hq : q ≠ me)
    (h : Run (RemoteStep c) p as p') (hp : s.peer q = p) :
    Run (Step c me) s (as.map (.peer q)) { s with peer := Function.update s.peer q p' } := by
  induction h generalizing s with
  | refl =>
    rw [← hp, Function.update_eq_self]
    exact .refl
  | @stepL p u p' a as hstep _ ih =>
    subst hp
    refine .stepL (.peer hq hstep) ?_
    simpa using ih (s := { s with peer := Function.update s.peer q u }) (by simp)

/-- Three slots for every peer, and pages of 4 KiB. -/
def threeSlots : Params := ⟨12, 3, by decide, 8, by decide, 2 ^ 20, by decide⟩

def page : Region := ⟨0, 4096⟩

/-- The first page of a peer is pinned and released. -/
def released : Peer :=
  let s := Peer.initial.acquireRemoteRegion threeSlots page
  let s := s.findPendingCallbacks threeSlots ⟨0, page, [0], 1, .pending 1 [page]⟩ page
  s.privReleaseRemote ⟨0, page, [0], 1, .used 0 1⟩

/-- Then its first two pages are pinned, which covers that region, and the next miss cleans it. -/
def cleaned : Peer :=
  (released.acquireRemoteRegion threeSlots ⟨0, 8192⟩).acquireRemoteRegion threeSlots ⟨40960, 4096⟩

theorem released_run :
    Run (RemoteStep threeSlots) .initial [.pin page, .reply 0 page, .release 0] released :=
  .stepL (.pin (by decide) (by decide)) <|
    .stepL (.reply (x := ⟨0, page, [0], 1, .pending 1 [page]⟩) (by decide) (by decide)
      (by decide) (by decide)) <|
    .stepL (.release (x := ⟨0, page, [0], 1, .used 0 1⟩) (by decide) (by decide))
      .refl

theorem cleaned_run :
    Run (RemoteStep threeSlots) released [.pin ⟨0, 8192⟩, .pin ⟨40960, 4096⟩] cleaned :=
  .stepL (.pin (by decide) (by decide)) <| .stepL (.pin (by decide) (by decide)) .refl

def onePeer (p : Peer) : State Bool := ⟨.initial, Function.update (fun _ => .initial) true p⟩

theorem remote_accounting_iff_released : ((onePeer released).peer true).Accounted threeSlots := by
  have hrun : Run (Step threeSlots false) initial _ (onePeer released) :=
    run_peer (q := true) (by decide) released_run rfl
  refine (remote_accounting_iff hrun).2 (tidy_of_leaked hrun shaped_initial fun q => ?_) true
  cases q <;> decide

/-- The slot of the region that was cleaned is still counted: three used, by two entries. -/
theorem remote_slot_leaked :
    Reachable (Step threeSlots false) initial (onePeer cleaned) ∧
      ((onePeer cleaned).peer true).bucketsUsed = 3 ∧
      ((onePeer cleaned).peer true).table.privs.length = 2 :=
  ⟨⟨_, run_peer (q := true) (by decide) (released_run.append cleaned_run) rfl⟩, by decide, by decide⟩

end Gasnet.Firehose
