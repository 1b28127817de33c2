import Gasnet.Firehose.RequestSteps

/-! Every call of `firehose_remote_pin` is answered once, as long as no call whose request was hung
finds that request marked as pinned. -/
namespace Gasnet.Firehose

variable {Node : Type} [DecidableEq Node] {c : Params} {me q : Node} {s s' t : Pins Node}
  {r : Handle} {k p : Nat} {req : Region} {ureq : Option Handle} {a : PinAction Node}
  {xs : List (PinAction Node)}

namespace Pins

theorem Inv.hungOn_next (h : Inv c s) :
    (s.hung.filter (Hung.on q (s.peer q).table.next)).length = 0 := by
  rw [List.length_eq_zero_iff, List.filter_eq_nil_iff]
  intro z hz hon
  simp only [Hung.on, Bool.and_eq_true, decide_eq_true_eq] at hon
  obtain ⟨hq, hp⟩ := hon
  obtain ⟨reg, n, regs, hhas, _⟩ := (h.backed.hung z hz).pending
  rw [hq] at hhas
  have hlt := (h.backed.shape q).fresh _ hhas.mem_ptrs
  exact absurd hp hlt.ne

/-- A miss that has its slot hangs its request on the new entry. -/
theorem Inv.missed (h : Inv c s) {y : Peer}
    (hk : (s.call k).phase = .idle ∨ (s.call k).phase = .stalled r) (htaken : Taken s r)
    (hr : ∀ v, s.Holds r v → v = .stalled k) (hnode : (s.request r).node = (s.call k).node)
    (hpin : (s.request r).pinned = false) (hshape : y.Shape) (hgood : y.Good c)
    (hmiss : Peer.Missed (s.peer (s.call k).node) y (s.call k).region) :
    Inv c ((s.setPeer (s.call k).node y).missed k r (s.peer (s.call k).node).table.next) := by
  refine h.hang hk htaken hr hnode hpin hshape hgood hmiss.held hmiss.frame hmiss.has
    ⟨le_rfl, le_rfl⟩ ?_ (fun reg' n' regs' hh => ?_) (Or.inl rfl)
  · rw [h.hungOn_next]
    rfl
  · exact absurd ((h.backed.shape _).fresh _ hh.mem_ptrs) (Nat.lt_irrefl _)

theorem Inv.acquire (h : Inv c s) (hk : (s.call k).phase = .idle) (htaken : Taken s r)
    (hr : ∀ v, ¬s.Holds r v) (hnode : (s.request r).node = (s.call k).node)
    (hpin : (s.request r).pinned = false) (ha : (s.call k).region.Aligned c.bucketSize)
    (hl : (s.call k).region.len ≤ c.maxRegionSize) : Inv c (s.acquireRemoteRegion c k r) := by
  have hstep : RemoteStep c (s.peer (s.call k).node) (.pin (s.call k).region)
      ((s.peer (s.call k).node).acquireRemoteRegion c (s.call k).region) := .pin ha hl
  have hshape := (Peer.remoteStep_spec (h.backed.shape _) hstep).1
  have hgood := Peer.good_step hstep (h.backed.good _)
  have hunused : ∀ v, s.Holds r v → v = .stalled k := fun v hv => absurd hv (hr v)
  unfold acquireRemoteRegion
  simp only
  cases hf : (s.peer (s.call k).node).table.findPriv (s.call k).region with
  | none =>
    by_cases hslot : ((s.peer (s.call k).node).acquireSlot c).isSome
    · rw [if_pos hslot]
      exact h.missed (Or.inl hk) htaken hunused hnode hpin hshape hgood
        (Peer.missed_acquireRemoteRegion (h.backed.shape _) hf hslot)
    · rw [if_neg hslot]
      have hnone : (s.peer (s.call k).node).acquireSlot c = none :=
        Option.not_isSome_iff_eq_none.1 hslot
      have hform : (s.peer (s.call k).node).acquireRemoteRegion c (s.call k).region =
          { s.peer (s.call k).node with
            stalled := (s.call k).region :: (s.peer (s.call k).node).stalled } := by
        rw [Peer.acquireRemoteRegion, hf]
        simp only [hnone]
      exact h.stall hk htaken hr hnode hpin ha hshape hgood (by rw [hform]) (by rw [hform])
  | some x =>
    obtain ⟨hx, hcov⟩ := Peer.covers_of_findPriv (h.backed.good _) hf
    by_cases hp : x.status.isPending
    · simp only [if_pos hp]
      obtain ⟨hheld, hframe, n, regs, hhas, hhas'⟩ :=
        Peer.hangs_acquireRemoteRegion (c := c) hx hf hp
      have hlen := h.backed.pending _ _ _ _ _ hhas
      refine h.hang (Or.inl hk) htaken hunused hnode hpin hshape hgood hheld hframe hhas' hcov
        (by rw [List.length_cons, hlen]) (fun reg' n' regs' hh => ?_) (Or.inr ⟨rfl, ?_⟩)
      · exact (hh.unique hhas (h.backed.shape _).nodup).1
      · -- Some other request hangs there already, and its pin has been asked for.
        have hfits := (h.backed.shape _).fits _ hhas.tag_mem
        have hpos : 0 < (s.hung.filter (Hung.on (s.call k).node x.ptr)).length := by
          rw [← hlen, ← hfits.1]
          exact hfits.2.1
        obtain ⟨z, hz⟩ := List.exists_mem_of_length_pos hpos
        obtain ⟨hz, hq, hzp⟩ := mem_hungOn.1 hz
        rw [← hq, ← hzp]
        exact h.asked z hz
    · simp only [if_neg hp]
      have hform : (s.peer (s.call k).node).acquireRemoteRegion c (s.call k).region =
          (s.peer (s.call k).node).privAcquireRemote x := by
        rw [Peer.acquireRemoteRegion, hf]
        cases hst : x.status with
        | used l n => simp only [hst]
        | pending n regs => exact absurd rfl (hst ▸ hp)
      rw [hform]
      exact h.hit hk htaken hr hnode rfl rfl rfl hx hp hcov

theorem Inv.start (h : Inv c s) {b : Bool} (hk : (s.call k).phase = .idle)
    (ha : req.Aligned c.bucketSize) (hl : req.len ≤ c.maxRegionSize) (hu : s.MayPass ureq)
    (hr : s.requestNew ureq = some (r, s')) : Inv c (s'.remotePin c k q req b r) := by
  obtain ⟨howned, hloose, honly⟩ := requestNew_spec h.owned hu hr
  let u := { s' with call := Function.update s'.call k ⟨q, req, b, .idle⟩ }.setRequest r
    { s'.request r with node := q, region := req }
  have hcall : ∀ j ≠ k, u.call j = s.call j := fun j hj =>
    (Function.update_of_ne hj _ _).trans (congrFun honly.call j)
  have hself : u.call k = ⟨q, req, b, .idle⟩ := Function.update_self ..
  have hreqr : u.request r = { s'.request r with node := q, region := req } :=
    Function.update_self ..
  have hholds : ∀ i v, u.Holds i v ↔ s.Holds i v := by
    intro i v
    have hu : u.Holds i v ↔ s'.Holds i v := by
      refine holds_congr (fun j => ?_) rfl rfl
      by_cases hj : j = k
      · subst hj
        rw [hself, honly.call]
        exact hk.symm
      · rw [hcall j hj, honly.call]
    exact hu.trans honly.holds
  have hfh : ∀ i, (u.request i).fhreq = (s'.request i).fhreq := by
    intro i
    by_cases hi : i = r
    · subst hi
      rw [hreqr]
    · rw [show u.request i = s'.request i from Function.update_of_ne hi _ _]
  have hunused : ∀ v, ¬s.Holds r v := fun v hv => hloose.unused v (honly.holds.2 hv)
  have hu : Inv c u := by
    refine h.loose ?_ hunused (fun j => ?_) honly.peer honly.hung honly.inFlight honly.callbacks
      honly.given honly.log fun i hi => (Function.update_of_ne hi _ _).trans (honly.request i hi)
    · exact howned.mono (fun i v hv => honly.holds.2 ((hholds i v).1 hv)) rfl rfl howned.givenNodup
        hfh
    · by_cases hj : j = k
      · subst hj
        exact Or.inr ⟨hk, by rw [hself]⟩
      · exact Or.inl (hcall j hj)
  refine hu.acquire (by rw [hself]) ⟨hloose.notFree, hloose.born, fun i hi => ?_⟩
    (fun v hv => hunused v ((hholds r v).1 hv)) (by rw [hreqr, hself]) ?_ (by rw [hself]; exact ha)
    (by rw [hself]; exact hl)
  · exact (hfh r).trans (hloose.user i hi)
  · rw [hreqr]
    exact hloose.unpinned

theorem Inv.resume (h : Inv c s) (hk : (s.call k).phase = .stalled r) : Inv c (s.resume c k r) := by
  unfold Pins.resume
  simp only
  split
  · rename_i hw
    obtain ⟨hal, hnode, hpin⟩ := h.backed.stalled k r hk
    obtain ⟨u, hu⟩ := Option.isSome_iff_exists.1 hw
    have hform : (s.peer (s.call k).node).resume c (s.call k).region =
        { u with stalled := u.stalled.erase (s.call k).region }.miss c (s.call k).region 1 := by
      rw [Peer.resume, hu]
    have hwait := (Peer.waitRemoteFirehoses_spec (h.backed.shape _) hu).1
    have hgood := (h.backed.good (s.call k).node).waitRemoteFirehoses hu
    refine h.missed (Or.inr hk) (h.owned.taken (u := .stalled k) hk)
      (fun v hv => h.owned.unique hv hk) hnode hpin ?_ ?_
      (Peer.missed_resume (h.backed.shape _) hw)
    · have hwait' : Peer.Shape { u with stalled := u.stalled.erase (s.call k).region } :=
        ⟨hwait.nodup, hwait.fresh, hwait.fifoNodup, hwait.fifoMem, hwait.heldMem, hwait.fits,
          hwait.count⟩
      rw [hform]
      exact (Peer.miss_spec hwait').1
    · rw [hform]
      exact Peer.Good.miss ⟨hgood.sound, fun r hr => hgood.stalled r (List.mem_of_mem_erase hr)⟩ hal
  · exact h

/-- A request just taken, before anything else has been done with it. -/
theorem Inv.new (h : Inv c s) (hu : s.MayPass ureq) (hr : s.requestNew ureq = some (r, s')) :
    Inv c s' ∧ Loose s' r := by
  obtain ⟨howned, hloose, honly⟩ := requestNew_spec h.owned hu hr
  exact ⟨h.loose howned (fun v hv => hloose.unused v (honly.holds.2 hv))
    (fun j => Or.inl (congrFun honly.call j)) honly.peer honly.hung honly.inFlight honly.callbacks
    honly.given honly.log honly.request, hloose⟩

theorem Inv.localPin (h : Inv c s) (hu : s.MayPass ureq)
    (hr : s.requestNew ureq = some (r, s')) : Inv c (s'.localPin me req r) := by
  obtain ⟨hinv, hloose⟩ := h.new hu hr
  have hgive := hinv.give (x := { s'.request r with node := me, region := req, pinned := true })
    (y := s'.peer me) (p := 0) hloose.toTaken hloose.unused rfl (hinv.backed.shape _)
    (hinv.backed.good _) (Peer.frame_of_table rfl) (fun _ _ _ => Iff.rfl)
    (Or.inl ⟨rfl, hloose.empty⟩)
  rw [show s'.setPeer me (s'.peer me) = s' by rw [setPeer, Function.update_eq_self]] at hgive
  exact hgive

theorem Inv.tryPin (h : Inv c s) {x : Priv} (hx : x ∈ (s.peer q).table.privs)
    (hp : ¬x.status.isPending) (hu : s.MayPass ureq)
    (hr : s.requestNew ureq = some (r, s')) : Inv c (s'.tryPin q x r) := by
  obtain ⟨hinv, hloose⟩ := h.new hu hr
  rw [← (requestNew_spec h.owned hu hr).2.2.peer] at hx
  obtain ⟨l, m, hhas⟩ := Peer.has_privAcquireRemote hx hp
  have hshape := (Peer.shape_privAcquireRemote (hinv.backed.shape q) hx hp).1
  refine hinv.give (x := { s'.request r with
      node := q, region := x.region, internal := some x.ptr }) hloose.toTaken hloose.unused rfl
    hshape (hinv.backed.good q).privAcquireRemote Peer.frame_privAcquireRemote
    (fun reg n regs => iff_of_false (fun hh => ?_) fun hh => ?_)
    (Or.inr ⟨x.ptr, rfl, Peer.held_privAcquireRemote hp⟩)
  · cases (hh.unique hhas hshape.nodup).2
  · have hst := (hh.unique (Table.has_of_mem hx) (hinv.backed.shape q).nodup).2
    exact hp (congrArg Status.isPending hst).symm

end Pins

open Pins

theorem inv_step (hstep : PinStep c me s a t) (hmark : Unmarked s a) (h : Inv c s) : Inv c t := by
  cases hstep with
  | start hk _ ha hl hu hr => exact h.start hk ha hl hu hr
  | resume hk => exact h.resume hk
  | inject hk => exact h.inject hk
  | reply _ hx hp ha hc => exact h.reply hx hp ha hc
  | run hb => exact h.run hb
  | check hk =>
    refine h.finish hk fun hb => ?_
    subst hb
    exact hmark _ hk
  | release hr => exact h.release hr
  | localPin hu hr => exact h.localPin hu hr
  | tryPin _ hx hp hu hr => exact h.tryPin hx hp hu hr

theorem inv_run (h : Run (UnmarkedStep c me) s xs t) (hs : Inv c s) : Inv c t :=
  h.invariant (fun hstep hs => inv_step hstep.1 hstep.2 hs) hs

namespace Pins

/-- The answers that the call has got or will get without doing anything more. -/
def answers (s : Pins Node) (k : Nat) : Nat := s.delivered k + s.outstanding k

omit [DecidableEq Node] in
theorem answers_mono (hlog : s.log = t.log) (hsub : List.Sublist s.ccbs t.ccbs) :
    s.answers k ≤ t.answers k := by
  have hle : s.outstanding k ≤ t.outstanding k := hsub.countP_le
  unfold answers delivered
  rw [hlog]
  exact Nat.add_le_add_left hle _

omit [DecidableEq Node] in
theorem requestNew_frame (hr : s.requestNew ureq = some (r, s')) :
    s'.log = s.log ∧ s'.ccbs = s.ccbs := by
  unfold requestNew at hr
  split at hr
  · obtain ⟨_, rfl⟩ := Prod.mk.inj (Option.some.inj hr)
    exact ⟨rfl, rfl⟩
  · split at hr
    · obtain ⟨_, rfl⟩ := Prod.mk.inj (Option.some.inj hr)
      exact ⟨rfl, rfl⟩
    · simp only at hr
      split at hr
      · cases hr
      · obtain ⟨_, rfl⟩ := Prod.mk.inj (Option.some.inj hr)
        exact ⟨rfl, rfl⟩

theorem answers_acquireRemoteRegion {j : Nat} :
    s.answers k ≤ (s.acquireRemoteRegion c j r).answers k := by
  unfold acquireRemoteRegion
  simp only
  split
  · split
    · exact answers_mono rfl (List.sublist_cons_self _ _)
    · exact answers_mono rfl (List.Sublist.refl _)
  · split
    · exact answers_mono rfl (List.sublist_cons_self _ _)
    · exact answers_mono rfl (List.Sublist.refl _)

end Pins

/-- No step takes an answer back. -/
theorem answers_step (h : PinStep c me s a t) : s.answers k ≤ t.answers k := by
  cases h with
  | @start _ _ _ _ _ r s' _ _ _ _ _ hr =>
    obtain ⟨hlog, hccbs⟩ := requestNew_frame hr
    have hle : s.answers k ≤ s'.answers k := answers_mono hlog.symm (by rw [hccbs])
    unfold Pins.remotePin
    refine hle.trans (Nat.le_trans ?_ answers_acquireRemoteRegion)
    exact answers_mono rfl (List.Sublist.refl _)
  | resume _ =>
    unfold Pins.resume
    simp only
    split
    · exact answers_mono rfl (List.sublist_cons_self _ _)
    · exact le_rfl
  | inject _ => exact answers_mono rfl (List.Sublist.refl _)
  | reply _ _ _ _ _ =>
    unfold answers outstanding
    rw [ccbs_reply.countP_eq]
    exact le_rfl
  | @run b hb =>
    have hperm : s.ccbs.Perm (b :: (s.run b).ccbs) :=
      (List.Perm.append_left _ (List.perm_cons_erase hb)).trans List.perm_middle
    unfold answers delivered outstanding
    rw [hperm.countP_eq, List.countP_cons]
    change _ ≤ (_ :: s.log).countP _ + _
    rw [List.countP_cons]
    simp only [decide_eq_true_eq]
    omega
  | check _ =>
    unfold Pins.check
    simp only
    split
    · change s.answers k ≤ (_ :: s.log).countP _ + s.outstanding k
      rw [List.countP_cons]
      simp only [answers, delivered]
      omega
    · exact le_rfl
  | release _ =>
    unfold Pins.release
    simp only
    split <;> exact answers_mono rfl (List.Sublist.refl _)
  | @localPin _ _ _ s' _ hr =>
    obtain ⟨hlog, hccbs⟩ := requestNew_frame hr
    exact answers_mono (t := s') hlog.symm (by rw [hccbs])
  | @tryPin _ _ _ _ s' _ _ _ _ hr =>
    obtain ⟨hlog, hccbs⟩ := requestNew_frame hr
    exact answers_mono (t := s') hlog.symm (by rw [hccbs])

theorem answers_run (h : Run (PinStep c me) s xs t) : s.answers k ≤ t.answers k := by
  induction h with
  | refl => exact le_rfl
  | stepL hstep _ ih => exact (answers_step hstep).trans ih

/-- A call that takes a mark on its request for its own is answered twice. -/
theorem answers_marked (h : PinStep c me s a t) (hs : Inv c s) (hmark : ¬Unmarked s a) :
    ∃ k, 2 ≤ t.answers k := by
  cases h with
  | @check k r b hk =>
    have hex : ∃ i, (s.call k).phase = .check i false ∧ (s.request i).pinned = true := by
      simpa [Unmarked] using hmark
    obtain ⟨i, hi, hpin⟩ := hex
    obtain ⟨rfl, rfl⟩ := Phase.check.inj (hk.symm.trans hi)
    refine ⟨k, ?_⟩
    have hcount := hs.count k
    rw [hk] at hcount
    unfold Pins.check
    simp only [hpin, if_true]
    change 2 ≤ (_ :: s.log).countP _ + s.outstanding k
    rw [List.countP_cons]
    simp only [delivered, outstanding, Phase.due, decide_true, if_true] at hcount ⊢
    omega
  | _ => exact absurd trivial hmark

namespace Pins

/-- Every call is answered once: it has got its request, or its callback is yet to run, on a region
whose pin has been asked for or in the queue; and whatever was given out was pinned. -/
structure Answered (s : Pins Node) : Prop where
  once : ∀ k, s.delivered k ≤ 1
  exact : ∀ k, s.delivered k + s.outstanding k = (s.call k).phase.due
  pinned : ∀ d ∈ s.log, d.pinned = true
  asked : ∀ h ∈ s.hung, s.Asked h.node h.entry

theorem Inv.answered (h : Inv c s) : s.Answered := by
  refine ⟨fun k => ?_, h.count, h.pinned, h.asked⟩
  have hdue := (s.call k).phase.due_le
  have := h.count k
  omega

end Pins

theorem unmarked_of_answered (h : Run (PinStep c me) s xs t) (hs : Inv c s) (ht : t.Answered) :
    Run (UnmarkedStep c me) s xs t := by
  induction h with
  | refl => exact .refl
  | @stepL s u t a xs hstep hrest ih =>
    by_cases hmark : Unmarked s a
    · exact .stepL ⟨hstep, hmark⟩ (ih (inv_step hstep hmark hs) ht)
    · obtain ⟨k, hk⟩ := answers_marked hstep hs hmark
      have hlater := answers_run (k := k) hrest
      have hdue := (t.call k).phase.due_le
      have hexact := ht.exact k
      unfold answers at hk hlater
      omega

/-- After a run every call is answered exactly once, by its return value or by its callback and with
its region pinned, if and only if no call took for its own the mark of a later pin that has got
the same request. -/
theorem answered_iff (h : Run (PinStep c me) (Pins.initial me) xs s) :
    s.Answered ↔ Run (UnmarkedStep c me) (Pins.initial me) xs s :=
  ⟨unmarked_of_answered h inv_initial, fun hrun => (inv_run hrun inv_initial).answered⟩

/-- A call pins the first page of a peer, and is still in `firehose_remote_pin`. -/
def pageAsked : Pins Bool :=
  let s := (((Pins.initial false).requestNew none).map Prod.snd).getD (Pins.initial false)
  (s.remotePin threeSlots 0 true page true (.lib 0)).inject 0 (.lib 0) 0

/-- The reply has come, and the callback has been run. -/
def pageGiven (s : Pins Bool) : Pins Bool :=
  (s.reply threeSlots true ⟨0, page, [0], 1, .pending 1 [page]⟩ page).run ⟨0, .lib 0⟩

/-- The client has released the request, and another call has got it and hit. -/
def pageShared : Pins Bool :=
  let s := (pageGiven pageAsked).release (.lib 0)
  let s := ((s.requestNew none).map Prod.snd).getD s
  s.remotePin threeSlots 1 true page true (.lib 0)

omit [DecidableEq Node] in
theorem mayPass_none : s.MayPass none := nofun

theorem pageGiven_run : Run (UnmarkedStep threeSlots false) (Pins.initial false)
    [.start 0, .inject 0, .reply true 0, .run ⟨0, .lib 0⟩] (pageGiven pageAsked) :=
  .stepL ⟨.start rfl (by decide) (by decide) (by decide) mayPass_none rfl, trivial⟩ <|
    .stepL ⟨.inject (by decide), trivial⟩ <|
    .stepL ⟨.reply (x := ⟨0, page, [0], 1, .pending 1 [page]⟩) (by decide)
      (by decide) (by decide) (by decide) (by decide), trivial⟩ <|
    .stepL ⟨.run (by decide), trivial⟩ .refl

theorem answered_iff_given : ((pageGiven pageAsked).check 0 (.lib 0)).Answered := by
  have hcheck : Run (UnmarkedStep threeSlots false) (pageGiven pageAsked) [.check 0]
      ((pageGiven pageAsked).check 0 (.lib 0)) := by
    have hphase : ((pageGiven pageAsked).call 0).phase = .check (.lib 0) false := by decide
    refine .single ⟨.check hphase, fun r hr => ?_⟩
    obtain ⟨rfl, _⟩ := Phase.check.inj (hphase.symm.trans hr)
    decide
  have hrun := pageGiven_run.append hcheck
  exact (answered_iff (hrun.mono fun h => h.1)).2 hrun

/-- The first call takes the mark of the second for its own. -/
theorem answered_twice : ∃ s, Reachable (PinStep threeSlots false) (Pins.initial false) s ∧
    s.delivered 0 = 2 := by
  have hphase : (pageShared.call 0).phase = .check (.lib 0) false := by decide
  have hrest : Run (PinStep threeSlots false) (pageGiven pageAsked)
      [.release (.lib 0), .start 1, .check 0] (pageShared.check 0 (.lib 0)) :=
    .stepL (.release (by decide)) <|
      .stepL (.start (by decide) (by decide) (by decide) (by decide) mayPass_none rfl) <|
      .stepL (.check hphase) .refl
  exact ⟨_, ⟨_, (pageGiven_run.mono fun h => h.1).append hrest⟩, by decide⟩

end Gasnet.Firehose
