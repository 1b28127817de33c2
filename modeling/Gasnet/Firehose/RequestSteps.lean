import Gasnet.Firehose.RequestTables

/-! The invariant of requests, callbacks and tables, and what each step does to it. -/
namespace Gasnet.Firehose

/-- How many answers a call has got or will get without doing anything more. -/
def Phase.due : Phase → Nat
  | .idle | .stalled _ | .check _ true => 0
  | .send _ _ | .check _ false | .done => 1

theorem Phase.due_le (phase : Phase) : phase.due ≤ 1 := by
  unfold Phase.due
  split <;> omega

variable {Node : Type} [DecidableEq Node] {c : Params} {me q : Node} {s t u : Pins Node}
  {r i : Handle} {k j p n : Nat} {y : Peer} {reg : Region} {regs : List Region} {ph : Phase}
  {x : Request Node} {a : PinAction Node} {xs : List (PinAction Node)}

namespace Pins

/-- How often the client has been given the request of the call. -/
def delivered (s : Pins Node) (k : Nat) : Nat := s.log.countP fun d => d.call = k

/-- The callbacks of the call that are yet to be run. -/
def outstanding (s : Pins Node) (k : Nat) : Nat := s.ccbs.countP fun b => b.call = k

/-- The request to pin the entry has been sent, or some thread is about to send it. -/
def Asked (s : Pins Node) (q : Node) (p : Nat) : Prop :=
  (q, p) ∈ s.inFlight ∨ ∃ k r, (s.call k).phase = .send r p ∧ (s.call k).node = q

structure Inv (c : Params) (s : Pins Node) : Prop where
  owned : s.Owned
  backed : s.Backed c
  count : ∀ k, s.delivered k + s.outstanding k = (s.call k).phase.due
  pinned : ∀ d ∈ s.log, d.pinned = true
  asked : ∀ h ∈ s.hung, s.Asked h.node h.entry

theorem inv_initial : Inv c (initial me) where
  owned := owned_initial
  backed := backed_initial
  count _ := rfl
  pinned := by simp [initial]
  asked := by simp [initial]

theorem Inv.nodup (h : Inv c s) : s.ccbs.Nodup := by
  refine List.nodup_iff_count_le_one.2 fun b => ?_
  have hle : s.ccbs.count b ≤ s.outstanding b.call :=
    List.countP_mono_left fun a _ hab => by simp [eq_of_beq hab]
  have hdue := Phase.due_le (s.call b.call).phase
  have := h.count b.call
  omega

theorem not_mem_ccbs (h : Inv c s) (hk : (s.call k).phase.due = 0) : ⟨k, i⟩ ∉ s.ccbs := by
  intro hmem
  have hpos : 0 < s.outstanding k := List.countP_pos_iff.2 ⟨_, hmem, by simp⟩
  have := h.count k
  omega

omit [DecidableEq Node] in
theorem not_bound (hr : ∀ v, s.Holds r v → v = .stalled k) : ¬s.Bound r := by
  rintro (⟨j, hj⟩ | ⟨b, hb, rfl⟩ | hg)
  · cases hr (.hit j) hj
  · cases hr (.ccb b.call) (List.mem_append_right _ hb)
  · cases hr .given hg

/-- Only a request that is in no use is written, and perhaps a call that has not begun. -/
theorem Inv.loose (h : Inv c s) (ho : t.Owned) (hr : ∀ v, ¬s.Holds r v)
    (hcall : ∀ j, t.call j = s.call j ∨ (s.call j).phase = .idle ∧ (t.call j).phase = .idle)
    (hpeer : t.peer = s.peer) (hhung : t.hung = s.hung) (hflight : t.inFlight = s.inFlight)
    (hcbs : t.callbacks = s.callbacks) (hgiven : t.given = s.given) (hlog : t.log = s.log)
    (hreq : ∀ i ≠ r, t.request i = s.request i) : Inv c t := by
  have hphase : ∀ j, (t.call j).phase = (s.call j).phase := fun j => by
    rcases hcall j with heq | ⟨hs, ht⟩
    · rw [heq]
    · rw [hs, ht]
  have hccbs : t.ccbs = s.ccbs := by rw [ccbs, ccbs, hhung, hcbs]
  have hbound : ∀ i, t.Bound i ↔ s.Bound i := fun i => by
    simp only [Bound, hphase, hcbs, hgiven]
  have hnot : ¬s.Bound r := @not_bound _ s r 0 fun v hv => absurd hv (hr v)
  have hmove : ∀ j, (s.call j).phase ≠ .idle → t.call j = s.call j :=
    fun j hj => (hcall j).resolve_right fun hi => hj hi.1
  refine ⟨ho, ?_, fun k => ?_, hlog ▸ h.pinned, fun z hz => ?_⟩
  · refine h.backed.take (q := (t.request r).node) (y := s.peer (t.request r).node) (e := 0)
      (r := r) (w := []) (by rw [hpeer, Function.update_eq_self]) (h.backed.shape _)
      (h.backed.good _) (Peer.frame_of_table rfl) (fun j => ?_) hreq rfl hnot
      (fun j => hr (.ccb j)) (fun i _ => hbound i) (fun j i hj => ?_) (fun j i hj => ?_) hcbs hhung
      (fun _ hz => by cases hz) (fun _ hz => by cases hz) (fun reg n regs hh => ?_)
      (fun reg n regs hh => ⟨n, regs, hh⟩) (Or.inl ⟨rfl, Or.inl fun hb => hnot ((hbound r).1 hb)⟩)
    · refine (hcall j).imp_right fun hi i => not_mem_ccbs h ?_
      rw [hi.1]
      rfl
    · refine Or.inl (hmove j fun hi => ?_)
      rw [hphase, hi] at hj
      cases hj
    · refine Or.inl ⟨hmove j fun hi => ?_, fun hi => ?_⟩
      · rw [hphase, hi] at hj
        cases hj
      · subst hi
        exact hr (.stalled j) ((hphase j).symm.trans hj)
    · rw [hhung]
      exact h.backed.pending _ 0 reg n regs hh
  · rw [delivered, outstanding, hlog, hccbs, hphase]
    exact h.count k
  · rw [hhung] at hz
    rcases h.asked z hz with hf | ⟨k, r', hk, hq⟩
    · exact Or.inl (hflight ▸ hf)
    · have hsame := hmove k fun hi => by rw [hi] at hk; cases hk
      exact Or.inr ⟨k, r', by rwa [hsame], by rwa [hsame]⟩

/-- The state after a call's request has been hung on the entry `p`. -/
def hanging (s : Pins Node) (y : Peer) (k : Nat) (r : Handle) (p : Nat) (ph : Phase) : Pins Node :=
  ((s.setPeer (s.call k).node y).hangCallback k r p).setPhase k ph

theorem Inv.hang (h : Inv c s) (hk : (s.call k).phase = .idle ∨ (s.call k).phase = .stalled r)
    (htaken : Taken s r) (hr : ∀ v, s.Holds r v → v = .stalled k)
    (hnode : (s.request r).node = (s.call k).node) (hpin : (s.request r).pinned = false)
    (hshape : y.Shape) (hgood : y.Good c) (hheld : y.held = (s.peer (s.call k).node).held)
    (hframe : Peer.Frame (s.peer (s.call k).node) y p)
    (hhas : y.table.Has p reg (.pending n regs)) (hcov : reg.Covers (s.call k).region)
    (hlen : regs.length = (s.hung.filter (Hung.on (s.call k).node p)).length + 1)
    (hstill : ∀ reg' n' regs', (s.peer (s.call k).node).table.Has p reg' (.pending n' regs') →
      reg' = reg)
    (hph : ph = .send r p ∨ ph = .check r false ∧ s.Asked (s.call k).node p) :
    Inv c (s.hanging y k r p ph) := by
  have hdue : ph.due = 1 := by rcases hph with rfl | ⟨rfl, _⟩ <;> rfl
  have hold : (s.call k).phase.due = 0 := by rcases hk with hk | hk <;> rw [hk] <;> rfl
  have hnot : ¬s.Bound r := not_bound hr
  have hquiet : ∀ i, ph ≠ .stalled i ∧ ph ≠ .check i true := fun i => by
    rcases hph with rfl | ⟨rfl, _⟩ <;> simp
  have hcall : ∀ j ≠ k, (s.hanging y k r p ph).call j = s.call j :=
    fun j hj => Function.update_of_ne hj _ _
  have hself : (s.hanging y k r p ph).call k = { s.call k with phase := ph } :=
    Function.update_self ..
  have hreq : ∀ i ≠ r, (s.hanging y k r p ph).request i = s.request i :=
    fun i hi => Function.update_of_ne hi _ _
  have hreqr : (s.hanging y k r p ph).request r = { s.request r with pending := true } :=
    Function.update_self ..
  have hcbs : (s.hanging y k r p ph).ccbs = ⟨k, r⟩ :: s.ccbs := rfl
  have hbound : ∀ i, (s.hanging y k r p ph).Bound i → s.Bound i := by
    rintro i (⟨j, hj⟩ | hb | hg)
    · by_cases hjk : j = k
      · subst hjk
        rw [hself] at hj
        exact absurd hj (hquiet i).2
      · exact Or.inl ⟨j, hcall j hjk ▸ hj⟩
    · exact Or.inr (Or.inl hb)
    · exact Or.inr (Or.inr hg)
  refine ⟨?_, ?_, fun j => ?_, h.pinned, fun z hz => ?_⟩
  · refine h.owned.change (u := .ccb k) htaken (fun i v hv => ?_) rfl rfl h.owned.givenNodup
      fun i => ?_
    · rcases holds_setPhase hv with ⟨_, hst⟩ | ⟨_, hst⟩ | ⟨hne, _, hv⟩
      · exact absurd hst (hquiet i).1
      · exact absurd hst (hquiet i).2
      · refine (holds_hangCallback hv).imp_right fun hv => ?_
        have hv := holds_setPeer.1 hv
        exact ⟨fun hir => hne (hr v (hir ▸ hv)), hv⟩
    · by_cases hi : i = r
      · subst hi
        rw [hreqr]
      · rw [hreq i hi]
  · refine h.backed.take (q := (s.call k).node) (y := y) (e := p) (r := r)
      (w := [⟨(s.call k).node, p, ⟨k, r⟩⟩]) rfl hshape hgood hframe (fun j => ?_) hreq
      (by rw [hreqr]; exact hnode) hnot (fun j hj => ?_)
      (fun i hi => ⟨hbound i, ?_⟩) (fun j i hj => Or.inl (hcall j ?_))
      (fun j i hj => Or.inl ?_) rfl rfl ?_ (by simp) (fun reg' n' regs' hh => ?_)
      (fun reg' n' regs' hh => ?_) (Or.inl ⟨hheld, Or.inl fun hb => hnot (hbound r hb)⟩)
    · by_cases hjk : j = k
      · subst hjk
        exact Or.inr fun i => not_mem_ccbs h hold
      · exact Or.inl (hcall j hjk)
    · cases hr (.ccb j) hj
    · rintro (⟨j, hj⟩ | hb | hg)
      · refine Or.inl ⟨j, ?_⟩
        by_cases hjk : j = k
        · subst hjk
          rcases hk with hk | hk <;> rw [hk] at hj <;> cases hj
        · rwa [hcall j hjk]
      · exact Or.inr (Or.inl hb)
      · exact Or.inr (Or.inr hg)
    · rintro rfl
      rw [hself] at hj
      exact (hquiet i).2 hj
    · have hjk : j ≠ k := by
        rintro rfl
        rw [hself] at hj
        exact (hquiet i).1 hj
      rw [hcall j hjk] at hj ⊢
      refine ⟨rfl, fun hi => hjk ?_⟩
      subst hi
      exact Use.stalled.inj (hr (.stalled j) hj)
    · intro z hz
      obtain rfl := List.mem_singleton.1 hz
      refine ⟨by rw [hself], by rw [hreqr]; exact hnode, by rw [hreqr]; exact hpin, reg, n, regs, ?_,
        by rw [hself]; exact hcov⟩
      change ((Function.update s.peer (s.call k).node y) (s.call k).node).table.Has _ _ _
      rwa [Function.update_self]
    · obtain ⟨rfl, hst⟩ := hh.unique hhas hshape.nodup
      cases hst
      rw [hlen]
      change _ = ((_ :: s.hung).filter _).length
      rw [List.filter_cons_of_pos (by simp [Hung.on, setPeer]), List.length_cons]
    · obtain rfl := hstill reg' n' regs' hh
      exact ⟨n, regs, hhas⟩
  · have hcount := h.count j
    rw [outstanding, hcbs, List.countP_cons]
    by_cases hjk : j = k
    · subst hjk
      rw [hold] at hcount
      rw [hself]
      simp only [outstanding] at hcount
      change s.delivered j + (s.ccbs.countP _ + if decide (j = j) then 1 else 0) = ph.due
      rw [hdue, decide_eq_true rfl, if_pos rfl]
      omega
    · rw [hcall j hjk]
      change s.delivered j + (s.ccbs.countP _ + if decide (k = j) then 1 else 0) = _
      rw [decide_eq_false fun he => hjk he.symm, if_neg Bool.false_ne_true]
      exact hcount
  · have hlater : ∀ {q p'}, s.Asked q p' → (s.hanging y k r p ph).Asked q p' := by
      rintro q p' (hf | ⟨j, i, hj, hq⟩)
      · exact Or.inl hf
      · have hjk : j ≠ k := by
          rintro rfl
          rcases hk with hk | hk <;> rw [hk] at hj <;> cases hj
        exact Or.inr ⟨j, i, by rwa [hcall j hjk], by rwa [hcall j hjk]⟩
    rcases List.mem_cons.1 hz with rfl | hz
    · rcases hph with rfl | ⟨rfl, hasked⟩
      · exact Or.inr ⟨k, r, by rw [hself], by rw [hself]; rfl⟩
      · exact hlater hasked
    · exact hlater (h.asked z hz)

/-- The state after a call has found no slot for its miss. -/
theorem Inv.stall (h : Inv c s) (hk : (s.call k).phase = .idle) (htaken : Taken s r)
    (hr : ∀ v, ¬s.Holds r v) (hnode : (s.request r).node = (s.call k).node)
    (hpin : (s.request r).pinned = false) (hal : (s.call k).region.Aligned c.bucketSize)
    (hshape : y.Shape) (hgood : y.Good c) (htable : y.table = (s.peer (s.call k).node).table)
    (hheld : y.held = (s.peer (s.call k).node).held) :
    Inv c ((s.setPeer (s.call k).node y).setPhase k (.stalled r)) := by
  let t := (s.setPeer (s.call k).node y).setPhase k (.stalled r)
  have hnot : ¬s.Bound r := @not_bound _ s r k fun v hv => absurd hv (hr v)
  have hcall : ∀ j ≠ k, t.call j = s.call j := fun j hj => Function.update_of_ne hj _ _
  have hself : t.call k = { s.call k with phase := .stalled r } := Function.update_self ..
  have hbound : ∀ i, t.Bound i ↔ s.Bound i := by
    intro i
    refine or_congr_left ⟨?_, ?_⟩
    · rintro ⟨j, hj⟩
      refine ⟨j, ?_⟩
      by_cases hjk : j = k
      · subst hjk
        rw [hself] at hj
        cases hj
      · rwa [← hcall j hjk]
    · rintro ⟨j, hj⟩
      refine ⟨j, ?_⟩
      rwa [hcall j fun he => by rw [he, hk] at hj; cases hj]
  refine ⟨?_, ?_, fun j => ?_, h.pinned, fun z hz => ?_⟩
  · refine h.owned.change (u := .stalled k) htaken (fun i v hv => ?_) rfl rfl h.owned.givenNodup
      fun _ => rfl
    rcases holds_setPhase hv with ⟨hvk, hst⟩ | ⟨_, hst⟩ | ⟨_, _, hv⟩
    · cases hst
      exact Or.inl ⟨rfl, hvk⟩
    · cases hst
    · exact Or.inr ⟨fun hi => hr v (hi ▸ holds_setPeer.1 hv), holds_setPeer.1 hv⟩
  · refine h.backed.take (t := t) (q := (s.call k).node) (y := y) (e := 0) (r := r) (w := []) rfl hshape
      hgood (Peer.frame_of_table htable) (fun j => ?_) (fun _ _ => rfl) hnode hnot
      (fun j => hr (.ccb j)) (fun i _ => hbound i) (fun j i hj => Or.inl (hcall j ?_))
      (fun j i hj => ?_) rfl rfl (fun _ hz => nomatch hz) (fun _ hz => nomatch hz)
      (fun reg n regs hh => ?_) (fun reg n regs hh => ⟨n, regs, htable ▸ hh⟩)
      (Or.inl ⟨hheld, Or.inl fun hb => hnot ((hbound r).1 hb)⟩)
    · by_cases hjk : j = k
      · subst hjk
        exact Or.inr fun i => not_mem_ccbs h (by rw [hk]; rfl)
      · exact Or.inl (hcall j hjk)
    · rintro rfl
      rw [hself] at hj
      cases hj
    · by_cases hjk : j = k
      · subst hjk
        have hj' := hj
        rw [hself] at hj'
        cases hj'
        exact Or.inr ⟨by rw [hself]; exact hal, by rw [hself]; exact hnode, hpin⟩
      · rw [hcall j hjk] at hj ⊢
        exact Or.inl ⟨rfl, fun hi => hr (.stalled j) (hi ▸ hj)⟩
    · rw [htable] at hh
      exact h.backed.pending _ 0 reg n regs hh
  · have hcount := h.count j
    by_cases hjk : j = k
    · subst hjk
      rw [hk] at hcount
      rw [hself]
      exact hcount
    · rw [hcall j hjk]
      exact hcount
  · rcases h.asked z hz with hf | ⟨j, i, hj, hq⟩
    · exact Or.inl hf
    · have hjk : j ≠ k := fun he => by rw [he, hk] at hj; cases hj
      exact Or.inr ⟨j, i, by rwa [hcall j hjk], by rwa [hcall j hjk]⟩

/-- The state after a call has found the entry `z` in use. -/
theorem Inv.hit (h : Inv c s) {z : Priv} {x : Request Node} (hk : (s.call k).phase = .idle)
    (htaken : Taken s r) (hr : ∀ v, ¬s.Holds r v) (hnode : x.node = (s.call k).node)
    (hpin : x.pinned = true) (hint : x.internal = some z.ptr)
    (hfh : x.fhreq = (s.request r).fhreq)
    (hz : z ∈ (s.peer (s.call k).node).table.privs) (hp : ¬z.status.isPending)
    (hcov : z.region.Covers (s.call k).region) :
    Inv c (((s.setPeer (s.call k).node ((s.peer (s.call k).node).privAcquireRemote z)).setRequest r
      x).setPhase k (.check r true)) := by
  let y := (s.peer (s.call k).node).privAcquireRemote z
  let t := ((s.setPeer (s.call k).node y).setRequest r x).setPhase k (.check r true)
  have hshape : y.Shape := (Peer.shape_privAcquireRemote (h.backed.shape _) hz hp).1
  have hgood : y.Good c := (h.backed.good _).privAcquireRemote
  have hheld := Peer.held_privAcquireRemote (s := s.peer (s.call k).node) hp
  obtain ⟨l, m, hhas⟩ := Peer.has_privAcquireRemote hz hp
  have hnot : ¬s.Bound r := @not_bound _ s r k fun v hv => absurd hv (hr v)
  have hcall : ∀ j ≠ k, t.call j = s.call j := fun j hj => Function.update_of_ne hj _ _
  have hself : t.call k = { s.call k with phase := .check r true } := Function.update_self ..
  have hreq : ∀ i ≠ r, t.request i = s.request i := fun i hi => Function.update_of_ne hi _ _
  have hreqr : t.request r = x := Function.update_self ..
  have hbr : t.Bound r := Or.inl ⟨k, by rw [hself]⟩
  refine ⟨?_, ?_, fun j => ?_, h.pinned, fun w hw => ?_⟩
  · refine h.owned.change (u := .hit k) htaken (fun i v hv => ?_) rfl rfl h.owned.givenNodup
      fun i => ?_
    · rcases holds_setPhase hv with ⟨_, hst⟩ | ⟨hvk, hst⟩ | ⟨_, _, hv⟩
      · cases hst
      · cases hst
        exact Or.inl ⟨rfl, hvk⟩
      · have hv := holds_setPeer.1 (holds_setRequest.1 hv)
        exact Or.inr ⟨fun hi => hr v (hi ▸ hv), hv⟩
    · by_cases hi : i = r
      · subst hi
        exact (congrArg Request.fhreq hreqr).trans hfh
      · exact congrArg Request.fhreq (hreq i hi)
  · refine h.backed.take (t := t) (q := (s.call k).node) (y := y) (e := z.ptr) (r := r) (w := [])
      rfl hshape hgood Peer.frame_privAcquireRemote (fun j => ?_) hreq (by rw [hreqr]; exact hnode)
      hnot (fun j => hr (.ccb j)) (fun i hi => or_congr_left ⟨?_, ?_⟩) (fun j i hj => ?_)
      (fun j i hj => Or.inl ⟨hcall j ?_, fun hi => ?_⟩) rfl rfl (fun _ hw => nomatch hw)
      (fun _ hw => nomatch hw) (fun reg n regs hh => ?_) (fun reg n regs hh => ?_)
      (Or.inr ⟨hbr, z.ptr, by rw [hreqr]; exact hint, hheld⟩)
    · by_cases hjk : j = k
      · subst hjk
        exact Or.inr fun i => not_mem_ccbs h (by rw [hk]; rfl)
      · exact Or.inl (hcall j hjk)
    · rintro ⟨j, hj⟩
      refine ⟨j, ?_⟩
      rwa [← hcall j fun he => hi (by rw [he, hself] at hj; cases hj; rfl)]
    · rintro ⟨j, hj⟩
      refine ⟨j, ?_⟩
      rwa [hcall j fun he => by rw [he, hk] at hj; cases hj]
    · by_cases hjk : j = k
      · subst hjk
        have hj' := hj
        rw [hself] at hj'
        cases hj'
        refine Or.inr ⟨rfl, by rw [hreqr]; exact hpin, ?_⟩
        unfold Ready
        rw [hreqr, hself]
        refine ⟨hnode, z.ptr, z.region, .used l m, hint, ?_, hcov⟩
        change ((Function.update s.peer (s.call j).node y) (s.call j).node).table.Has _ _ _
        rw [Function.update_self]
        exact hhas
      · exact Or.inl (hcall j hjk)
    · rintro rfl
      rw [hself] at hj
      cases hj
    · subst hi
      have hjk : j ≠ k := by
        rintro rfl
        rw [hself] at hj
        cases hj
      rw [hcall j hjk] at hj
      exact hr (.stalled j) hj
    · cases (hh.unique hhas hshape.nodup).2
    · have hold := (hh.unique (Table.has_of_mem hz) (h.backed.shape _).nodup).2
      exact absurd (congrArg Status.isPending hold).symm hp
  · have hcount := h.count j
    by_cases hjk : j = k
    · subst hjk
      rw [hk] at hcount
      rw [hself]
      exact hcount
    · rw [hcall j hjk]
      exact hcount
  · rcases h.asked w hw with hf | ⟨j, i, hj, hq⟩
    · exact Or.inl hf
    · have hjk : j ≠ k := fun he => by rw [he, hk] at hj; cases hj
      exact Or.inr ⟨j, i, by rwa [hcall j hjk], by rwa [hcall j hjk]⟩

/-- The state after another pin has given the client its request at once. -/
theorem Inv.give (h : Inv c s) {x : Request Node} (htaken : Taken s r) (hr : ∀ v, ¬s.Holds r v)
    (hfh : x.fhreq = (s.request r).fhreq) (hshape : y.Shape) (hgood : y.Good c)
    (hframe : Peer.Frame (s.peer x.node) y p)
    (hpend : ∀ reg n regs, y.table.Has p reg (.pending n regs) ↔
      (s.peer x.node).table.Has p reg (.pending n regs))
    (htakes : y.held = (s.peer x.node).held ∧ x.internal = none ∨
      ∃ p, x.internal = some p ∧ y.held = p :: (s.peer x.node).held) :
    Inv c ({ s.setPeer x.node y with given := r :: s.given }.setRequest r x) := by
  let t := { s.setPeer x.node y with given := r :: s.given }.setRequest r x
  have hnot : ¬s.Bound r := @not_bound _ s r 0 fun v hv => absurd hv (hr v)
  have hreq : ∀ i ≠ r, t.request i = s.request i := fun i hi => Function.update_of_ne hi _ _
  have hreqr : t.request r = x := Function.update_self ..
  have hgiven : ∀ i, i ∈ t.given ↔ i = r ∨ i ∈ s.given := fun i => List.mem_cons
  refine ⟨?_, ?_, h.count, h.pinned, h.asked⟩
  · refine h.owned.change (u := .given) htaken (fun i v hv => ?_) rfl rfl
      (List.nodup_cons.2 ⟨hr .given, h.owned.givenNodup⟩) fun i => ?_
    · have hv' : i = r ∧ v = .given ∨ s.Holds i v := by
        cases v with
        | given => exact ((hgiven i).1 hv).imp_left fun hi => ⟨hi, rfl⟩
        | _ => exact Or.inr hv
      exact hv'.imp_right fun hv => ⟨fun hi => hr v (hi ▸ hv), hv⟩
    · by_cases hi : i = r
      · subst hi
        exact (congrArg Request.fhreq hreqr).trans hfh
      · exact congrArg Request.fhreq (hreq i hi)
  · refine h.backed.take (t := t) (q := x.node) (y := y) (e := p) (r := r) (w := []) rfl hshape
      hgood hframe (fun _ => Or.inl rfl) hreq (by rw [hreqr]) hnot (fun j => hr (.ccb j))
      (fun i hi => or_congr_right (or_congr_right ?_)) (fun _ _ _ => Or.inl rfl)
      (fun j i hj => Or.inl ⟨rfl, ?_⟩) rfl rfl (fun _ hz => nomatch hz) (fun _ hz => nomatch hz)
      (fun reg n regs hh => h.backed.pending _ p reg n regs ((hpend _ _ _).1 hh))
      (fun reg n regs hh => ⟨n, regs, (hpend _ _ _).2 hh⟩) ?_
    · rw [hgiven, or_iff_right hi]
    · rintro rfl
      exact hr (.stalled j) hj
    · rcases htakes with ⟨hy, hnone⟩ | ⟨p', hsome, hy⟩
      · exact Or.inl ⟨hy, Or.inr (by rw [hreqr]; exact hnone)⟩
      · exact Or.inr ⟨Or.inr (Or.inr List.mem_cons_self), p', by rw [hreqr]; exact hsome, hy⟩

theorem Backed.isPinned (h : Backed c s) (hb : s.Bound r) (hready : s.Ready k r) :
    s.isPinned k r = true := by
  obtain ⟨hnode, p, reg, st, hint, hhas, hcov⟩ := hready
  have hheld := h.held hb hint
  rw [hnode] at hheld
  obtain ⟨l, m, rfl, hpos⟩ := (h.shape _).used_of_held hheld hhas
  obtain ⟨z, hz, rfl, rfl, hst⟩ := hhas.exists_mem
  have hpriv := Table.priv?_of_mem (h.good (s.call k).node).sound hz
  rw [Pins.isPinned, decide_eq_true hnode, hint, Option.bind_some, hpriv, Bool.true_and]
  simp only [hst]
  simpa [hcov] using hpos.ne'

theorem Inv.run (h : Inv c s) {b : Ccb} (hb : b ∈ s.callbacks) : Inv c (s.run b) := by
  have hmem : b ∈ s.ccbs := List.mem_append_right _ hb
  have hbound : s.Bound b.request := Or.inr (Or.inl ⟨b, hb, rfl⟩)
  obtain ⟨_, hready⟩ := h.backed.ready b hb
  have hnotGiven : b.request ∉ s.given := fun hg => by
    cases h.owned.unique (u := .given) (v := .ccb b.call) hg hmem
  have hperm : s.ccbs.Perm (b :: (s.run b).ccbs) := by
    refine (List.Perm.append_left _ (List.perm_cons_erase hb)).trans ?_
    exact List.perm_middle
  have hrest : (b :: (s.run b).ccbs).Nodup := hperm.nodup_iff.1 h.nodup
  refine ⟨?_, ?_, fun j => ?_, ?_, h.asked⟩
  · refine h.owned.change (u := .given) (h.owned.taken (u := .ccb b.call) hmem) (fun i v hv => ?_)
      rfl rfl (List.nodup_cons.2 ⟨hnotGiven, h.owned.givenNodup⟩) fun _ => rfl
    cases v with
    | given =>
      rcases List.mem_cons.1 hv with rfl | hg
      · exact Or.inl ⟨rfl, rfl⟩
      · exact Or.inr ⟨fun hi => hnotGiven (hi ▸ hg), hg⟩
    | ccb j =>
      have hj : (⟨j, i⟩ : Ccb) ∈ s.ccbs := hperm.mem_iff.2 (List.mem_cons_of_mem _ hv)
      refine Or.inr ⟨fun hi => ?_, hj⟩
      have heq : (⟨j, i⟩ : Ccb) = b := call_eq h.owned hj hmem hi
      exact (List.nodup_cons.1 hrest).1 (heq ▸ hv)
    | stalled j =>
      refine Or.inr ⟨fun hi => ?_, hv⟩
      cases h.owned.unique (u := .stalled j) (v := .ccb b.call) (hi ▸ hv) hmem
    | hit j =>
      refine Or.inr ⟨fun hi => ?_, hv⟩
      cases h.owned.unique (u := .hit j) (v := .ccb b.call) (hi ▸ hv) hmem
  · refine h.backed.quiet rfl (fun _ => ⟨rfl, rfl, rfl⟩) (fun _ => ⟨rfl, rfl⟩) (fun _ _ _ => rfl)
      rfl (fun _ => List.mem_of_mem_erase) fun i => ?_
    have hgiven : i ∈ (s.run b).given ↔ i = b.request ∨ i ∈ s.given := List.mem_cons
    constructor
    · rintro (hk | ⟨b', hb', rfl⟩ | hg)
      · exact Or.inl hk
      · exact Or.inr (Or.inl ⟨b', List.mem_of_mem_erase hb', rfl⟩)
      · rcases hgiven.1 hg with rfl | hg
        · exact hbound
        · exact Or.inr (Or.inr hg)
    · rintro (hk | ⟨b', hb', rfl⟩ | hg)
      · exact Or.inl hk
      · by_cases hbb : b' = b
        · exact Or.inr (Or.inr (hgiven.2 (Or.inl (hbb ▸ rfl))))
        · exact Or.inr (Or.inl ⟨b', (List.mem_erase_of_ne hbb).2 hb', rfl⟩)
      · exact Or.inr (Or.inr (hgiven.2 (Or.inr hg)))
  · have hcount := h.count j
    rw [outstanding, hperm.countP_eq, List.countP_cons] at hcount
    change (_ :: s.log).countP _ + (s.run b).outstanding j = (s.call j).phase.due
    rw [List.countP_cons]
    simp only [delivered, outstanding, decide_eq_true_eq] at hcount ⊢
    omega
  · intro d hd
    rcases List.mem_cons.1 hd with rfl | hd
    · exact h.backed.isPinned hbound hready
    · exact h.pinned d hd

/-- A call ends; one that has hit hands its request over. -/
theorem Inv.finish (h : Inv c s) {b : Bool} (hk : (s.call k).phase = .check r b)
    (hmark : b = false → (s.request r).pinned = false) : Inv c (s.check k r) := by
  let s' := s.setPhase k .done
  have hself : s'.call k = { s.call k with phase := .done } := Function.update_self ..
  have hcall : ∀ j ≠ k, s'.call j = s.call j := fun j hj => Function.update_of_ne hj _ _
  have hcalls : ∀ j, (s'.call j).node = (s.call j).node ∧ (s'.call j).region = (s.call j).region := by
    intro j
    by_cases hj : j = k
    · subst hj
      rw [hself]
      exact ⟨rfl, rfl⟩
    · rw [hcall j hj]
      exact ⟨rfl, rfl⟩
  have hphase : ∀ j i, (s'.call j).phase = .check i true ∨ (s'.call j).phase = .stalled i →
      (s'.call j).phase = (s.call j).phase := by
    intro j i hj
    by_cases hjk : j = k
    · subst hjk
      rw [hself] at hj
      rcases hj with hj | hj <;> cases hj
    · rw [hcall j hjk]
  have hasked : ∀ z ∈ s.hung, s'.Asked z.node z.entry := by
    intro z hz
    rcases h.asked z hz with hf | ⟨j, i, hj, hq⟩
    · exact Or.inl hf
    · have hjk : j ≠ k := fun he => by rw [he, hk] at hj; cases hj
      exact Or.inr ⟨j, i, by rwa [hcall j hjk], by rwa [hcall j hjk]⟩
  have hcounts : ∀ j ≠ k, s.delivered j + s.outstanding j = (s'.call j).phase.due := fun j hj => by
    rw [hcall j hj]
    exact h.count j
  have hcount := h.count k
  rw [hk] at hcount
  cases b with
  | false =>
    have hform : s.check k r = s' := by
      rw [check, hmark rfl]
      rfl
    rw [hform]
    refine ⟨?_, ?_, fun j => ?_, h.pinned, hasked⟩
    · refine h.owned.mono (fun i v hv => ?_) rfl rfl h.owned.givenNodup fun _ => rfl
      rcases holds_setPhase hv with ⟨_, hst⟩ | ⟨_, hst⟩ | ⟨_, _, hv⟩
      · cases hst
      · cases hst
      · exact hv
    · refine h.backed.quiet rfl (fun _ => ⟨rfl, rfl, rfl⟩) hcalls hphase rfl (fun _ => id)
        fun i => or_congr_left ⟨fun ⟨j, hj⟩ => ⟨j, (hphase j i (Or.inl hj)).symm.trans hj⟩, ?_⟩
      rintro ⟨j, hj⟩
      refine ⟨j, ?_⟩
      rwa [hcall j fun he => by rw [he, hk] at hj; cases hj]
    · by_cases hj : j = k
      · subst hj
        rw [hself]
        exact hcount
      · exact hcounts j hj
  | true =>
    obtain ⟨hpin, hready⟩ := h.backed.hit k r hk
    have hbound : s.Bound r := Or.inl ⟨k, hk⟩
    have hnotGiven : r ∉ s.given := fun hg => by
      cases h.owned.unique (u := .given) (v := .hit k) hg hk
    have hform : s.check k r = s'.deliver k r (s.call k).returnIfPinned := by
      rw [check, hpin]
      rfl
    rw [hform]
    refine ⟨?_, ?_, fun j => ?_, fun d hd => ?_, hasked⟩
    · refine h.owned.change (u := .given) (h.owned.taken (u := .hit k) hk) (fun i v hv => ?_)
        rfl rfl (List.nodup_cons.2 ⟨hnotGiven, h.owned.givenNodup⟩) fun _ => rfl
      rcases holds_deliver hv with hv | hv
      · exact Or.inl hv
      · rcases holds_setPhase hv with ⟨_, hst⟩ | ⟨_, hst⟩ | ⟨_, hne, hv⟩
        · cases hst
        · cases hst
        · exact Or.inr ⟨fun hi => hne (h.owned.unique (hi ▸ hv) hk), hv⟩
    · refine h.backed.quiet rfl (fun _ => ⟨rfl, rfl, rfl⟩) hcalls hphase rfl (fun _ => id)
        fun i => ⟨?_, ?_⟩
      · rintro (⟨j, hj⟩ | hb | hg)
        · exact Or.inl ⟨j, (hphase j i (Or.inl hj)).symm.trans hj⟩
        · exact Or.inr (Or.inl hb)
        · rcases List.mem_cons.1 hg with rfl | hg
          · exact hbound
          · exact Or.inr (Or.inr hg)
      · rintro (⟨j, hj⟩ | hb | hg)
        · by_cases hjk : j = k
          · subst hjk
            rw [hk] at hj
            cases hj
            exact Or.inr (Or.inr List.mem_cons_self)
          · refine Or.inl ⟨j, ?_⟩
            exact (congrArg Call.phase (hcall j hjk)).trans hj
        · exact Or.inr (Or.inl hb)
        · exact Or.inr (Or.inr (List.mem_cons_of_mem _ hg))
    · change (_ :: s.log).countP _ + s.outstanding j = (s'.call j).phase.due
      rw [List.countP_cons]
      by_cases hj : j = k
      · subst hj
        rw [hself]
        simp only [delivered, outstanding, Phase.due, decide_true, if_true] at hcount ⊢
        omega
      · have hj' := hcounts j hj
        simp only [delivered, decide_eq_true_eq] at hj' ⊢
        rw [if_neg (Ne.symm hj)]
        exact hj'
    · rcases List.mem_cons.1 hd with rfl | hd
      · have hp := h.backed.isPinned hbound hready
        simp only [isPinned] at hp ⊢
        rw [show ((s.setPhase k .done).call k).node = (s.call k).node from (hcalls k).1,
          show ((s.setPhase k .done).call k).region = (s.call k).region from (hcalls k).2]
        exact hp
      · exact h.pinned d hd

theorem Inv.inject (h : Inv c s) (hk : (s.call k).phase = .send r p) : Inv c (s.inject k r p) := by
  have hself : (s.inject k r p).call k = { s.call k with phase := .check r false } :=
    Function.update_self ..
  have hcall : ∀ j ≠ k, (s.inject k r p).call j = s.call j := fun j hj => Function.update_of_ne hj _ _
  have hreq : ∀ i, ((s.inject k r p).request i).node = (s.request i).node ∧
      ((s.inject k r p).request i).internal = (s.request i).internal ∧
      ((s.inject k r p).request i).pinned = (s.request i).pinned ∧
      ((s.inject k r p).request i).fhreq = (s.request i).fhreq := by
    intro i
    by_cases hi : i = r
    · subst hi
      have heq : (s.inject k i p).request i = { s.request i with inflight := true } :=
        Function.update_self ..
      rw [heq]
      exact ⟨rfl, rfl, rfl, rfl⟩
    · rw [show (s.inject k r p).request i = s.request i from Function.update_of_ne hi _ _]
      exact ⟨rfl, rfl, rfl, rfl⟩
  have hphase : ∀ j i, ((s.inject k r p).call j).phase = .check i true ∨
      ((s.inject k r p).call j).phase = .stalled i →
      ((s.inject k r p).call j).phase = (s.call j).phase := by
    intro j i hj
    by_cases hjk : j = k
    · subst hjk
      rw [hself] at hj
      rcases hj with hj | hj <;> cases hj
    · rw [hcall j hjk]
  refine ⟨?_, ?_, fun j => ?_, h.pinned, fun z hz => ?_⟩
  · refine h.owned.mono (fun i v hv => ?_) rfl rfl h.owned.givenNodup fun i => (hreq i).2.2.2
    rcases holds_setPhase hv with ⟨_, hst⟩ | ⟨_, hst⟩ | ⟨_, _, hv⟩
    · cases hst
    · cases hst
    · exact hv
  · refine h.backed.quiet rfl (fun i => ⟨(hreq i).1, (hreq i).2.1, (hreq i).2.2.1⟩) (fun j => ?_)
      hphase rfl (fun _ => id) fun i => or_congr_left ⟨?_, ?_⟩
    · by_cases hjk : j = k
      · subst hjk
        rw [hself]
        exact ⟨rfl, rfl⟩
      · rw [hcall j hjk]
        exact ⟨rfl, rfl⟩
    · exact fun ⟨j, hj⟩ => ⟨j, (hphase j i (Or.inl hj)).symm.trans hj⟩
    · rintro ⟨j, hj⟩
      refine ⟨j, ?_⟩
      rwa [hcall j fun he => by rw [he, hk] at hj; cases hj]
  · have hcount := h.count j
    by_cases hjk : j = k
    · subst hjk
      rw [hk] at hcount
      rw [hself]
      exact hcount
    · rw [hcall j hjk]
      exact hcount
  · rcases h.asked z hz with hf | ⟨j, i, hj, hq⟩
    · exact Or.inl (List.mem_cons_of_mem _ hf)
    · by_cases hjk : j = k
      · subst hjk
        rw [hk] at hj
        cases hj
        rw [← hq]
        exact Or.inl List.mem_cons_self
      · exact Or.inr ⟨j, i, by rwa [hcall j hjk], by rwa [hcall j hjk]⟩

theorem ccbs_reply {z : Priv} : (s.reply c q z reg).ccbs.Perm s.ccbs := by
  have hsplit := (List.filter_append_perm (Hung.on q z.ptr) s.hung).map Hung.ccb
  rw [List.map_append] at hsplit
  have hswap : (s.reply c q z reg).ccbs.Perm
      (((s.hung.filter (Hung.on q z.ptr)).map Hung.ccb ++
        (s.hung.filter fun w => !Hung.on q z.ptr w).map Hung.ccb) ++ s.callbacks) := by
    simp only [ccbs, reply, List.append_assoc]
    refine (List.Perm.append_left _ List.perm_append_comm).trans ?_
    exact List.perm_append_comm_assoc _ _ _
  exact hswap.trans (hsplit.append_right _)

theorem Inv.reply (h : Inv c s) {z : Priv} (hz : z ∈ (s.peer q).table.privs)
    (hp : z.status.isPending) (ha : reg.Aligned c.bucketSize) (hc : reg.Covers z.region) :
    Inv c (s.reply c q z reg) := by
  have hperm : (s.reply c q z reg).ccbs.Perm s.ccbs := ccbs_reply
  refine ⟨?_, h.backed.reply h.owned h.nodup hz hp ha hc, fun j => ?_, h.pinned, fun w hw => ?_⟩
  · refine h.owned.mono (fun i v hv => ?_) rfl rfl h.owned.givenNodup fun i => ?_
    · cases v with
      | ccb j => exact hperm.mem_iff.1 hv
      | _ => exact hv
    · simp only [Pins.reply]
      split <;> rfl
  · rw [outstanding, hperm.countP_eq]
    exact h.count j
  · obtain ⟨hw, hon⟩ := List.mem_filter.1 hw
    rcases h.asked w hw with hf | hsend
    · refine Or.inl ((List.mem_erase_of_ne fun he => ?_).2 hf)
      obtain ⟨hq, hp⟩ := Prod.mk.inj he
      simp [Hung.on, hq, hp] at hon
    · exact Or.inr hsend

theorem Inv.release (h : Inv c s) (hr : r ∈ s.given) : Inv c (s.release r) := by
  have hbound : s.Bound r := Or.inr (Or.inr hr)
  -- The peer's tables after the release, and the entry it was about.
  obtain ⟨y, p₀, hform, hshape, hgood, hframe, hnot, hheld⟩ : ∃ (y : Peer) (p₀ : Nat),
      s.release r = { s.setPeer (s.request r).node y with
        given := s.given.erase r
        freehead := if (s.request r).fhreq then r :: s.freehead else s.freehead } ∧
      y.Shape ∧ y.Good c ∧ Peer.Frame (s.peer (s.request r).node) y p₀ ∧
      (∀ reg n regs, ¬(s.peer (s.request r).node).table.Has p₀ reg (.pending n regs) ∧
        ¬y.table.Has p₀ reg (.pending n regs)) ∧
      ((s.request r).internal = none ∧ y.held = (s.peer (s.request r).node).held ∨
        (s.request r).internal = some p₀ ∧
          y.held = (s.peer (s.request r).node).held.erase p₀) := by
    have hsame : s.setPeer (s.request r).node (s.peer (s.request r).node) = s := by
      rw [setPeer, Function.update_eq_self]
    cases hint : (s.request r).internal with
    | none =>
      have hfree : ∀ reg n regs, ¬(s.peer (s.request r).node).table.Has
          (s.peer (s.request r).node).table.next reg (.pending n regs) := fun reg n regs hh =>
        absurd ((h.backed.shape _).fresh _ hh.mem_ptrs) (Nat.lt_irrefl _)
      refine ⟨s.peer (s.request r).node, (s.peer (s.request r).node).table.next, ?_,
        h.backed.shape _, h.backed.good _, Peer.frame_of_table rfl,
        fun reg n regs => ⟨hfree reg n regs, hfree reg n regs⟩, Or.inl ⟨rfl, rfl⟩⟩
      rw [hsame, Pins.release, hint, Option.bind_none]
    | some p =>
      have hmem := h.backed.held hbound hint
      obtain ⟨⟨p', st⟩, he, rfl⟩ := List.mem_map.1 ((h.backed.shape _).heldMem p hmem)
      obtain ⟨z₀, hz₀, hze⟩ := List.mem_map.1 he
      have hhas₀ : (s.peer (s.request r).node).table.Has p' z₀.region st := by
        obtain ⟨rfl, rfl⟩ := Prod.mk.inj hze
        exact ⟨z₀, hz₀, rfl, rfl, rfl⟩
      obtain ⟨l, m, rfl, hpos⟩ := (h.backed.shape _).used_of_held hmem hhas₀
      obtain ⟨z, hz, rfl, _, hst⟩ := hhas₀.exists_mem
      have hpriv := Table.priv?_of_mem (h.backed.good (s.request r).node).sound hz
      have hstep : RemoteStep c (s.peer (s.request r).node) (.release z.ptr)
          ((s.peer (s.request r).node).privReleaseRemote z) := .release hz hmem
      have hshape := (Peer.remoteStep_spec (h.backed.shape _) hstep).1
      refine ⟨(s.peer (s.request r).node).privReleaseRemote z, z.ptr, ?_, hshape,
        Peer.good_step hstep (h.backed.good _), Peer.frame_privReleaseRemote,
        fun reg n regs => ⟨fun hh => ?_, fun hh => ?_⟩,
        Or.inr ⟨rfl, Peer.held_privReleaseRemote hst hpos⟩⟩
      · rw [Pins.release, hint, Option.bind_some, hpriv]
      · cases (hh.unique hhas₀ (h.backed.shape _).nodup).2
      · obtain ⟨l', m', hh'⟩ := Peer.has_privReleaseRemote hz hst
        cases (hh.unique hh' hshape.nodup).2
  rw [hform]
  have huse : ∀ i v, ({ s.setPeer (s.request r).node y with
      given := s.given.erase r
      freehead := if (s.request r).fhreq then r :: s.freehead else s.freehead } :
        Pins Node).Holds i v → i ≠ r ∧ s.Holds i v := by
    intro i v hv
    cases v with
    | given =>
      obtain ⟨hne, hg⟩ := (h.owned.givenNodup.mem_erase_iff).1 hv
      exact ⟨hne, hg⟩
    | stalled j => exact ⟨fun hi => (nomatch h.owned.unique (u := .stalled j) (v := .given) (hi ▸ hv) hr), hv⟩
    | hit j => exact ⟨fun hi => (nomatch h.owned.unique (u := .hit j) (v := .given) (hi ▸ hv) hr), hv⟩
    | ccb j => exact ⟨fun hi => (nomatch h.owned.unique (u := .ccb j) (v := .given) (hi ▸ hv) hr), hv⟩
  have htaken := h.owned.taken (u := .given) hr
  refine ⟨?_, ?_, h.count, h.pinned, h.asked⟩
  · have hfree : ∀ i, i ∈ (if (s.request r).fhreq then r :: s.freehead else s.freehead) →
        i = r ∧ (s.request r).fhreq = true ∨ i ∈ s.freehead := by
      intro i hi
      split at hi
      · rename_i hfh
        exact (List.mem_cons.1 hi).imp_left fun he => ⟨he, hfh⟩
      · exact Or.inr hi
    refine ⟨fun hu hv => h.owned.unique (huse _ _ hu).2 (huse _ _ hv).2, fun i hi v hv => ?_, ?_,
      fun i hi => ⟨fun hf => ?_, fun v hv => (h.owned.unborn i hi).2 v (huse _ _ hv).2⟩,
      fun i hi => ?_, fun i v hv => h.owned.userUsed i v (huse _ _ hv).2,
      h.owned.givenNodup.erase _⟩
    · rcases hfree i hi with ⟨rfl, _⟩ | hi
      · exact (huse _ _ hv).1 rfl
      · exact h.owned.free i hi v (huse _ _ hv).2
    · change (if (s.request r).fhreq then r :: s.freehead else s.freehead).Nodup
      split
      · exact List.nodup_cons.2 ⟨htaken.notFree, h.owned.freeNodup⟩
      · exact h.owned.freeNodup
    · rcases hfree _ hf with ⟨he, _⟩ | hf
      · exact absurd (htaken.born i he.symm) (Nat.not_lt_of_le hi)
      · exact (h.owned.unborn i hi).1 hf
    · rcases hfree _ hi with ⟨he, hfh⟩ | hi
      · rw [htaken.user i he.symm] at hfh
        cases hfh
      · exact h.owned.userFree i hi
  · refine h.backed.release (r := r) (q := (s.request r).node) (y := y) (e := p₀) rfl hshape hgood
      hframe rfl rfl rfl rfl (fun i => ⟨?_, ?_⟩) hbound hnot rfl hheld
    · rintro (⟨j, hj⟩ | ⟨b, hb, rfl⟩ | hg)
      · obtain ⟨hne, hj⟩ := huse i (.hit j) hj
        exact ⟨hne, Or.inl ⟨j, hj⟩⟩
      · obtain ⟨hne, _⟩ := huse b.request (.ccb b.call) (List.mem_append_right _ hb)
        exact ⟨hne, Or.inr (Or.inl ⟨b, hb, rfl⟩)⟩
      · obtain ⟨hne, hg⟩ := huse i .given hg
        exact ⟨hne, Or.inr (Or.inr hg)⟩
    · rintro ⟨hne, hj | hb | hg⟩
      · exact Or.inl hj
      · exact Or.inr (Or.inl hb)
      · exact Or.inr (Or.inr ((List.mem_erase_of_ne hne).2 hg))

end Pins

end Gasnet.Firehose
