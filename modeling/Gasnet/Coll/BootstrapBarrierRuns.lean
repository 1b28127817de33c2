import Gasnet.Coll.BootstrapBarrierMemory
import Gasnet.Foundation.Run

/-! Nobody leaves a barrier of the bootstrap before all have entered it. -/
namespace Gasnet.Coll.BootstrapBarrier

open CentralBarrier (Proc)

variable {n N : Nat} {M : Type} {mem : Memory M} {lay : Layout n N} {s t : State n N M}
  {a : Action n N} {x : Rank M} {p q : Fin n} {r : Fin N} {i k d : Nat} {y : Proc}

/-- The messages of the state. -/
def State.rounds (lay : Layout n N) (s : State n N M) : Rounds.State N where
  place r := (s.rank (lay.node r)).place
  arrived r i d := (r, i, d) ∈ s.delivered

/-- What a message was sent for. -/
def Message.key (m : Message N) : Fin N × Nat × Nat := (m.dst, m.call, m.step)

/-- What holds of a message under way. -/
structure Sent (mem : Memory M) (lay : Layout n N) (s : State n N M) (m : Message N) : Prop where
  step : m.step < numPeers N
  arg : m.arg = mem.arg (phaseOf m.call) m.step
  sender : ∃ p, dissemPeer p m.step = m.dst ∧ ((s.rounds lay).place p).Sent m.call m.step

structure Inv (mem : Memory M) (lay : Layout n N) (s : State n N M) : Prop where
  fits : ∀ p, (s.rank p).Fits lay p
  locals : ∀ h, (lay.team h).Nonempty →
    CentralBarrier.Inv (lay.team h) (s.shared h) fun p => (s.rank p).proc
  rounds : Rounds.Inv (fun _ => schedule N) (s.rounds lay)
  flight : ∀ m ∈ s.flight, Sent mem lay s m ∧ m.key ∉ s.delivered
  nodup : (s.flight.map Message.key).Nodup
  memory : ∀ r, Holds mem (numPeers N) (fun i d => (r, i, d) ∈ s.delivered) (s.rank (lay.node r))

theorem schedule_full (N : Nat) : (schedule N).Full :=
  Rounds.full_bwd (le_two_pow_numPeers N) fun _ hd _ =>
    dissemPeer_fwd (two_pow_lt_of_lt_numPeers hd).le

theorem team_nonempty (lay : Layout n N) (p : Fin n) : (lay.team (lay.nbrhd p)).Nonempty :=
  ⟨p, by simp [Layout.team]⟩

theorem mem_team {h : Nat} : p ∈ lay.team h ↔ lay.nbrhd p = h := by
  simp [Layout.team]

@[simp] theorem setRank_shared (s : State n N M) (p : Fin n) (x : Rank M) :
    (s.setRank p x).shared = s.shared := rfl

@[simp] theorem setRank_flight (s : State n N M) (p : Fin n) (x : Rank M) :
    (s.setRank p x).flight = s.flight := rfl

@[simp] theorem setRank_delivered (s : State n N M) (p : Fin n) (x : Rank M) :
    (s.setRank p x).delivered = s.delivered := rfl

theorem rank_setRank (s : State n N M) (p q : Fin n) (x : Rank M) :
    (s.setRank p x).rank q = if q = p then x else s.rank q :=
  Function.update_apply ..

theorem proc_setRank (s : State n N M) (p : Fin n) (x : Rank M) :
    (fun q => ((s.setRank p x).rank q).proc) =
      Function.update (fun q => (s.rank q).proc) p x.proc := by
  funext q
  rw [rank_setRank, Function.update_apply]
  split <;> rfl

theorem rounds_setRank_node (s : State n N M) (r : Fin N) (x : Rank M) :
    (s.setRank (lay.node r) x).rounds lay =
      { s.rounds lay with place := Function.update (s.rounds lay).place r x.place } := by
  unfold State.rounds
  congr 1
  funext r'
  rw [rank_setRank, Function.update_apply]
  by_cases h : r' = r
  · rw [if_pos h, if_pos (congrArg lay.node h)]
  · rw [if_neg h, if_neg (mt (@lay.injective r' r) h)]

theorem rounds_setRank_other (s : State n N M) (hp : ∀ r, lay.node r ≠ p) (x : Rank M) :
    (s.setRank p x).rounds lay = s.rounds lay := by
  unfold State.rounds
  congr 1
  funext r
  rw [rank_setRank, if_neg (hp r)]

/-- The places of the processes that send messages, after one process has moved on. -/
theorem rounds_mono (hnext : ∀ r, lay.node r = p →
      (s.rank p).place.Next (numPeers N) x.place) {r : Fin N} {i k : Nat}
    (hr : ((s.rounds lay).place r).Reached i k) :
    (((s.setRank p x).rounds lay).place r).Reached i k := by
  show ((s.setRank p x).rank (lay.node r)).place.Reached i k
  rw [rank_setRank]
  split
  · rename_i he
    exact (hnext r he).mono (by rw [← he]; exact hr)
  · exact hr

theorem Sent.mono (hm : ∀ r i k, ((s.rounds lay).place r).Reached i k →
      ((t.rounds lay).place r).Reached i k) {m : Message N} (h : Sent mem lay s m) :
    Sent mem lay t m := by
  obtain ⟨q, hq, hs⟩ := h.sender
  exact ⟨h.step, h.arg, q, hq, hm q _ _ hs⟩

/-- One process moves on. -/
theorem Inv.setRank (h : Inv mem lay s) (hfits : x.Fits lay p)
    (hlocal : x.proc = (s.rank p).proc ∨
      (s.rank p).proc.Done (s.shared (lay.nbrhd p)) ∧ x.proc = (s.rank p).proc.exit)
    (hnext : ∀ r, lay.node r = p → (s.rank p).place.Next (numPeers N) x.place)
    (hwait : ∀ r d, lay.node r = p → (s.rank p).place.pos = 2 * d + 2 →
      x.place = (s.rank p).place ∨ (r, (s.rank p).place.left, d) ∈ s.delivered)
    (hmem : ∀ r, lay.node r = p →
      Holds mem (numPeers N) (fun i d => (r, i, d) ∈ s.delivered) x) :
    Inv mem lay (s.setRank p x) where
  fits q := by
    rw [rank_setRank]
    split
    · rename_i he
      exact he ▸ hfits
    · exact h.fits q
  locals k hk := by
    rw [proc_setRank, setRank_shared]
    obtain he | ⟨hdone, he⟩ := hlocal
    · rw [he, Function.update_eq_self]
      exact h.locals k hk
    · rw [he]
      by_cases hp : lay.nbrhd p = k
      · subst hp
        exact (h.locals _ hk).exit (mem_team.mpr rfl) hdone
      · exact (h.locals k hk).update_of_notMem (mt mem_team.mp hp)
  rounds := by
    by_cases hp : ∃ r, lay.node r = p
    · obtain ⟨r, rfl⟩ := hp
      rw [rounds_setRank_node]
      exact h.rounds.next (fun _ => schedule_full N) (hnext r rfl) fun d hd => hwait r d rfl hd
    · rw [rounds_setRank_other s (not_exists.mp hp)]
      exact h.rounds
  flight m hm := ⟨(h.flight m hm).1.mono fun _ _ _ => rounds_mono hnext, (h.flight m hm).2⟩
  nodup := h.nodup
  memory r := by
    rw [rank_setRank]
    split
    · rename_i he
      exact hmem r he
    · exact h.memory r

/-- A message of a call means that everybody is past the one before. -/
theorem Inv.sent_le (h : Inv mem lay s) {p : Fin N} (hs : ((s.rounds lay).place p).Sent i d)
    (q : Fin N) : i ≤ (s.rank (lay.node q)).calls + 1 := by
  cases i with
  | zero => exact Nat.zero_le _
  | succ i =>
    cases i with
    | zero => omega
    | succ i =>
      have := Rank.lt_calls_of_entered (h.rounds.entered_of_sent (fun _ => schedule_full N) hs q)
      omega

theorem Inv.delivered_le (h : Inv mem lay s) (hd : (r, i, d) ∈ s.delivered) (q : Fin N) :
    i ≤ (s.rank (lay.node q)).calls + 1 := by
  obtain ⟨-, p, -, hs⟩ := h.rounds.sent r i d hd
  exact h.sent_le hs q

theorem place_of_pc {x : Rank M} {sent : Bool} (hpc : x.pc = .ring d sent) :
    x.place = ⟨x.calls, 2 * d + 1 + sent.toNat⟩ := by
  simp [Rank.place, hpc]

/-- The beginning of a call, or of its messages. -/
theorem Inv.enter (h : Inv mem lay s) {y : Proc}
    (hplace : (s.rank p).place = ⟨(s.rank p).calls, 0⟩)
    (hfits : (((s.rank p).toProc y).afterPre mem lay p).Fits lay p)
    (hlocal : y = (s.rank p).proc ∨
      (s.rank p).proc.Done (s.shared (lay.nbrhd p)) ∧ y = (s.rank p).proc.exit) :
    Inv mem lay (s.setRank p (((s.rank p).toProc y).afterPre mem lay p)) := by
  have hpos : ∀ d, (s.rank p).place.pos ≠ 2 * d + 2 := fun d hd => by
    rw [hplace] at hd
    simp at hd
  have hnext : ∀ r, lay.node r = p →
      (s.rank p).place.Next (numPeers N) (((s.rank p).toProc y).afterPre mem lay p).place := by
    rintro r rfl
    rw [Rank.afterPre_node]
    exact .inr (.inl (by rw [hplace]; rfl))
  refine h.setRank hfits ?_ hnext (fun _ d _ hd => absurd hd (hpos d)) fun r hr => ?_
  · rwa [Rank.proc_afterPre]
  · have := hnext r hr
    subst hr
    rw [Rank.afterPre_node] at this ⊢
    exact (h.memory r).move rfl rfl this hpos

theorem Inv.call (h : Inv mem lay s)
    (hpc : (s.rank p).pc = .out) :
    Inv mem lay (s.setRank p
      (if lay.pre then (s.rank p).toPc .pre else (s.rank p).afterPre mem lay p)) := by
  have hfits : (if lay.pre then (s.rank p).toPc .pre else (s.rank p).afterPre mem lay p).Fits lay p :=
    (h.fits p).call hpc
  have hplace : (s.rank p).place = ⟨(s.rank p).calls, 0⟩ := by simp [Rank.place, hpc]
  split
  · rename_i hpre
    rw [if_pos hpre] at hfits
    have hnext : (s.rank p).place.Next (numPeers N) ((s.rank p).toPc .pre).place := .inl hplace.symm
    have hpos : ∀ d, (s.rank p).place.pos ≠ 2 * d + 2 := fun d hd => by
      rw [hplace] at hd
      simp at hd
    refine h.setRank hfits (.inl rfl) (fun _ _ => hnext) (fun _ d _ hd => absurd hd (hpos d)) ?_
    rintro r rfl
    exact (h.memory r).move rfl rfl hnext hpos
  · rename_i hpre
    rw [if_neg hpre] at hfits
    exact h.enter hplace hfits (.inl rfl)

theorem Inv.exitPre (h : Inv mem lay s)
    (hpc : (s.rank p).pc = .pre) (hdone : (s.rank p).proc.Done (s.shared (lay.nbrhd p))) :
    Inv mem lay (s.setRank p
      (((s.rank p).toProc (s.rank p).proc.exit).afterPre mem lay p)) := by
  have hat := (h.fits p).at_exit
  have hpre : lay.pre.toNat = 1 := by rw [(h.fits p).pre hpc]; rfl
  rw [hpc] at hat
  refine h.enter (by simp [Rank.place, hpc]) (Rank.At.afterPre ?_) (.inr ⟨hdone, rfl⟩)
  rwa [hpre]

theorem Inv.exitPost (h : Inv mem lay s) (hmem : mem.Lawful (numPeers N))
    (hpc : (s.rank p).pc = .post k) (hdone : (s.rank p).proc.Done (s.shared (lay.nbrhd p))) :
    Inv mem lay (s.setRank p
      (((s.rank p).toProc (s.rank p).proc.exit).afterPost mem lay k)) := by
  have hat := (h.fits p).at_exit
  rw [hpc] at hat
  have hplace : (s.rank p).place = ⟨(s.rank p).calls + 1, 0⟩ := by simp [Rank.place, hpc]
  refine h.setRank (hat.afterPost ((h.fits p).post k hpc)) (.inr ⟨hdone, Rank.proc_afterPost ..⟩)
    (fun _ _ => .inl ((Rank.place_afterPost ..).trans hplace.symm)) (fun _ d _ hd => ?_) ?_
  · rw [hplace] at hd
    simp at hd
  · rintro r rfl
    have hold : Holds mem (numPeers N) (fun i d => (r, i, d) ∈ s.delivered)
      ((s.rank (lay.node r)).toProc (s.rank (lay.node r)).proc.exit) := h.memory r
    exact hold.afterPost lay hmem (h.fits _).phase (fun i d hd => h.delivered_le hd r) hplace

theorem Inv.ringDone (h : Inv mem lay s) (hmem : mem.Lawful (numPeers N))
    (hpc : (s.rank (lay.node r)).pc = .ring d false) (hstep : ¬d < numPeers N) :
    Inv mem lay (s.setRank (lay.node r) ((s.rank (lay.node r)).afterRing mem lay)) := by
  have hplace := place_of_pc hpc
  have hpos : ∀ d, (s.rank (lay.node r)).place.pos ≠ 2 * d + 2 := fun d hd => by
    rw [hplace] at hd
    simp only [Bool.toNat_false] at hd
    omega
  have hnext : (s.rank (lay.node r)).place.Next (numPeers N)
      ⟨(s.rank (lay.node r)).calls + 1, 0⟩ := by
    refine .inr (.inr ⟨?_, by rw [hplace]⟩)
    have hle := ((h.fits _).ring d false hpc).2
    rw [hplace]
    simp only [Bool.toNat_false] at hle ⊢
    omega
  refine h.setRank ((h.fits _).at_ring hpc).afterRing (.inl (Rank.proc_afterRing ..))
    (fun _ _ => by rw [Rank.place_afterRing]; exact hnext) (fun _ d _ hd => absurd hd (hpos d)) ?_
  intro r' hr
  obtain rfl := lay.injective hr
  exact (h.memory _).afterRing lay hmem (h.fits _).phase
    (fun i d hd => h.delivered_le hd _) hnext hpos

/-- What is recorded of a step whose message has arrived. -/
theorem Inv.ready_iff (h : Inv mem lay s) (hmem : mem.Lawful (numPeers N))
    (hpc : (s.rank (lay.node r)).pc = .ring d true) :
    mem.ready (s.rank (lay.node r)).mem (s.rank (lay.node r)).phase d = true ↔
      (r, (s.rank (lay.node r)).calls, d) ∈ s.delivered := by
  have hd : d < numPeers N := by
    have := ((h.fits _).ring d true hpc).2
    simp only [Bool.toNat_true] at this
    omega
  have hplace := place_of_pc hpc
  obtain ⟨hone, hnone⟩ := h.memory r (s.rank (lay.node r)).phase d hd
  rw [hmem.ready]
  constructor
  · intro hne
    by_contra hnot
    refine hne (hnone fun i hi ha => Rank.cleared_of_lt ?_ _ _)
    have hle := h.delivered_le ha r
    have hcalls : i ≠ (s.rank (lay.node r)).calls := fun he => hnot (he ▸ ha)
    rw [(h.fits _).phase, phaseOf_eq_iff] at hi
    omega
  · intro ha hzero
    have hc : ¬(s.rank (lay.node r)).Cleared mem.early (s.rank (lay.node r)).calls d := by
      unfold Rank.Cleared
      split
      · rw [hplace]
        simp only [Rounds.Place.Passed, Rounds.Place.Reached, Bool.toNat_true]
        omega
      · exact Nat.lt_irrefl _
    have := hone _ (h.fits _).phase.symm ha hc
    omega

theorem Inv.pass (h : Inv mem lay s) (hmem : mem.Lawful (numPeers N))
    (hpc : (s.rank (lay.node r)).pc = .ring d true)
    (hready : mem.ready (s.rank (lay.node r)).mem (s.rank (lay.node r)).phase d = true) :
    Inv mem lay (s.setRank (lay.node r)
      (((s.rank (lay.node r)).toMem (mem.pass (s.rank (lay.node r)).mem
        (s.rank (lay.node r)).phase d)).toPc (.ring (d + 1) false))) := by
  have harrived := (h.ready_iff hmem hpc).mp hready
  have hplace := place_of_pc hpc
  obtain ⟨hnode, hle⟩ := (h.fits _).ring d true hpc
  refine h.setRank ?_ (.inl rfl) (fun _ _ => .inr (.inl ?_)) (fun r' d' hr hd => .inr ?_) ?_
  · refine Rank.At.toPc_ring (x := (s.rank (lay.node r)).toMem _) ?_ ⟨hnode, ?_⟩
    · exact ((h.fits _).toMem _).at_ring hpc
    · simp only [Bool.toNat_true, Bool.toNat_false] at hle ⊢
      omega
  · rw [hplace]
    simp only [Rank.place, Rank.toPc_pc, Rank.toPc_calls, Rank.toMem_calls, Bool.toNat_true,
      Bool.toNat_false]
    congr 1
  · obtain rfl := lay.injective hr
    rw [hplace] at hd ⊢
    simp only [Bool.toNat_true] at hd
    obtain rfl : d' = d := by omega
    exact harrived
  · intro r' hr
    obtain rfl := lay.injective hr
    exact (h.memory _).pass hmem (h.fits _).phase (fun i d hd => h.delivered_le hd _) hpc

/-- A process moves inside a barrier in shared memory. -/
theorem Inv.move (h : Inv mem lay s) {m' : CentralBarrier.Shared} (hpc : (s.rank p).AtLocal)
    (hmove : CentralBarrier.Move (lay.team (lay.nbrhd p)).card (s.shared (lay.nbrhd p))
      (s.rank p).proc m' y) :
    Inv mem lay { s.setRank p ((s.rank p).toProc y) with
      shared := Function.update s.shared (lay.nbrhd p) m' } where
  fits q := by
    show ((s.setRank p ((s.rank p).toProc y)).rank q).Fits lay q
    rw [rank_setRank]
    split
    · rename_i he
      exact he ▸ (h.fits p).toProc hpc (move_generation hmove)
    · exact h.fits q
  locals k hk := by
    show CentralBarrier.Inv (lay.team k) (Function.update s.shared (lay.nbrhd p) m' k)
      fun q => ((s.setRank p ((s.rank p).toProc y)).rank q).proc
    rw [proc_setRank, Rank.toProc_proc, Function.update_apply]
    split
    · rename_i he
      subst he
      exact (h.locals _ hk).move (mem_team.mpr rfl) hmove
    · rename_i he
      exact (h.locals k hk).update_of_notMem fun hp => he (mem_team.mp hp).symm
  rounds := by
    have hsame : ((s.setRank p ((s.rank p).toProc y)).rounds lay) = s.rounds lay := by
      unfold State.rounds
      congr 1
      funext r
      rw [rank_setRank]
      split
      · rename_i he
        rw [he]
        rfl
      · rfl
    have := h.rounds
    rw [← hsame] at this
    exact this
  flight m hm := by
    refine ⟨(h.flight m hm).1.mono fun r i k hr => ?_, (h.flight m hm).2⟩
    exact rounds_mono (x := (s.rank p).toProc y) (fun _ _ => .inl rfl) hr
  nodup := h.nodup
  memory r := by
    show Holds mem (numPeers N) (fun i d => (r, i, d) ∈ s.delivered)
      ((s.setRank p ((s.rank p).toProc y)).rank (lay.node r))
    rw [rank_setRank]
    split
    · rename_i he
      rw [← he]
      exact h.memory r
    · exact h.memory r

/-- A process sends the message of a step. -/
theorem Inv.send (h : Inv mem lay s) (hpc : (s.rank (lay.node r)).pc = .ring d false)
    (hstep : d < numPeers N) :
    Inv mem lay { s.setRank (lay.node r) ((s.rank (lay.node r)).toPc (.ring d true)) with
      flight := ⟨dissemPeer r d, mem.arg (s.rank (lay.node r)).phase d,
        (s.rank (lay.node r)).calls, d⟩ :: s.flight } := by
  have hplace := place_of_pc hpc
  simp only [Bool.toNat_false, Nat.add_zero] at hplace
  have hplace' : ((s.rank (lay.node r)).toPc (.ring d true)).place =
    ⟨(s.rank (lay.node r)).calls, 2 * d + 2⟩ := rfl
  have hnext : (s.rank (lay.node r)).place.Next (numPeers N)
      ((s.rank (lay.node r)).toPc (.ring d true)).place :=
    .inr (.inl (by rw [hplace, hplace']))
  have hpos : ∀ d, (s.rank (lay.node r)).place.pos ≠ 2 * d + 2 := fun d' hd => by
    rw [hplace] at hd
    simp only at hd
    omega
  -- the message is a new one, because the process has not sent in this step
  have hnot : ∀ p, dissemPeer p d = dissemPeer r d →
      ¬((s.rounds lay).place p).Sent (s.rank (lay.node r)).calls d := by
    intro p hp hs
    obtain rfl := (schedule_full N).injective d hstep hp
    have : ((s.rounds lay).place p) = _ := hplace
    rw [this] at hs
    simp only [Rounds.Place.Sent, Rounds.Place.Reached] at hs
    omega
  have hnew := h.setRank
    (((h.fits _).at_ring hpc).toPc_ring ⟨⟨r, rfl⟩, by simp only [Bool.toNat_true]; omega⟩) (.inl rfl)
    (fun _ _ => hnext) (fun _ d _ hd => absurd hd (hpos d))
    fun r' hr => by
      obtain rfl := lay.injective hr
      exact (h.memory _).move rfl rfl hnext hpos
  refine { hnew with flight := fun m hm => ?_, nodup := List.nodup_cons.mpr ⟨fun hm => ?_, hnew.nodup⟩ }
  · rcases List.mem_cons.mp hm with rfl | hm
    · refine ⟨⟨hstep, congrArg (mem.arg · d) (h.fits _).phase, r, rfl, ?_⟩, fun hd => ?_⟩
      · show Rounds.Place.Sent (Rank.place _) _ _
        rw [rank_setRank, if_pos rfl, hplace']
        exact .inr ⟨rfl, Nat.le_refl _⟩
      · obtain ⟨-, p, hp, hs⟩ := h.rounds.sent _ _ _ hd
        exact hnot p hp hs
    · obtain ⟨hs, hd⟩ := hnew.flight m hm
      exact ⟨⟨hs.step, hs.arg, hs.sender⟩, hd⟩
  · obtain ⟨m, hm, hkey⟩ := List.mem_map.mp hm
    obtain ⟨⟨-, -, p, hp, hs⟩, -⟩ := h.flight m hm
    simp only [Message.key, Prod.mk.injEq] at hkey
    obtain ⟨hdst, hcall, hd⟩ := hkey
    rw [hdst, hd] at hp
    rw [hcall, hd] at hs
    exact hnot p hp hs

/-- A message under way was not set back yet. -/
theorem Inv.not_cleared (h : Inv mem lay s) {m : Message N} (hm : m ∈ s.flight) :
    ¬(s.rank (lay.node m.dst)).Cleared mem.early m.call m.step := by
  obtain ⟨hsent, hnot⟩ := h.flight m hm
  have hpassed : ¬((s.rounds lay).place m.dst).Passed m.call m.step := fun hp =>
    hnot (h.rounds.arrived m.dst m.call m.step hsent.step hp)
  unfold Rank.Cleared
  split
  · exact hpassed
  · obtain ⟨hle, -⟩ := (s.rank (lay.node m.dst)).place_left_le
    intro hlt
    exact hpassed (.inl (Nat.lt_of_lt_of_le hlt hle))

/-- A message is delivered. -/
theorem Inv.deliver (h : Inv mem lay s) (hmem : mem.Lawful (numPeers N)) {m : Message N}
    (hm : m ∈ s.flight) :
    Inv mem lay { s.setRank (lay.node m.dst) ((s.rank (lay.node m.dst)).toMem
        (mem.handler (s.rank (lay.node m.dst)).mem m.arg)) with
      flight := s.flight.erase m
      delivered := (m.dst, m.call, m.step) :: s.delivered } := by
  obtain ⟨hsent, hnot⟩ := h.flight m hm
  obtain ⟨p, hp, hs⟩ := hsent.sender
  have hold : ∀ j, phaseOf j = phaseOf m.call → (m.dst, j, m.step) ∈ s.delivered →
      (s.rank (lay.node m.dst)).Cleared mem.early j m.step := by
    intro j hj hd
    have hle := h.sent_le hs m.dst
    rw [phaseOf_eq_iff] at hj
    rcases Nat.lt_trichotomy j m.call with hlt | rfl | hlt
    · exact Rank.cleared_of_lt (by omega) _ _
    · exact absurd hd hnot
    · have := h.delivered_le hd m.dst
      exact absurd (Rank.cleared_of_lt (by omega) _ _) (h.not_cleared hm)
  have hplace : ∀ q, ((s.setRank (lay.node m.dst) ((s.rank (lay.node m.dst)).toMem
      (mem.handler (s.rank (lay.node m.dst)).mem m.arg))).rank q).place = (s.rank q).place := by
    intro q
    rw [rank_setRank]
    split
    · rename_i he
      rw [he]
      rfl
    · rfl
  have hrank : ∀ q, lay.node q ≠ lay.node m.dst → q ≠ m.dst := fun q hq he => hq (he ▸ rfl)
  refine ⟨fun q => ?_, fun k hk => ?_, ?_, fun m' hm' => ?_, ?_, fun r => ?_⟩
  · show ((s.setRank _ _).rank q).Fits lay q
    rw [rank_setRank]
    split
    · rename_i he
      exact he ▸ (h.fits _).toMem _
    · exact h.fits q
  · show CentralBarrier.Inv (lay.team k) (s.shared k) fun q => ((s.setRank _ _).rank q).proc
    rw [proc_setRank, Rank.toMem_proc, Function.update_eq_self]
    exact h.locals k hk
  · have harrive := h.rounds.arrive (i := m.call) hsent.step hp hs
    have hiff : ∀ r i d, (r, i, d) ∈ (m.dst, m.call, m.step) :: s.delivered ↔
        (s.rounds lay).arrived r i d ∨ r = m.dst ∧ i = m.call ∧ d = m.step := by
      simp [State.rounds, or_comm]
    show Rounds.Inv _ ⟨fun r => ((s.setRank _ _).rank (lay.node r)).place,
      fun r i d => (r, i, d) ∈ _ :: s.delivered⟩
    simp only [hplace, hiff]
    exact harrive
  · have hmem' := List.mem_of_mem_erase hm'
    have hnodup : ((s.flight.erase m).map Message.key).Nodup ∧ m.key ∉ (s.flight.erase m).map _ :=
      List.nodup_cons.mp ((List.perm_cons_erase hm).map Message.key |>.nodup h.nodup) |>.symm
    refine ⟨(h.flight m' hmem').1.mono fun r i k hr => ?_, fun hd => ?_⟩
    · show ((s.setRank _ _).rank (lay.node r)).place.Reached i k
      rw [hplace]
      exact hr
    · rcases List.mem_cons.mp hd with he | hd
      · exact hnodup.2 (List.mem_map.mpr ⟨m', hm', he⟩)
      · exact (h.flight m' hmem').2 hd
  · exact h.nodup.sublist (List.erase_sublist.map _)
  · show Holds mem (numPeers N) (fun i d => (r, i, d) ∈ _ :: s.delivered)
      ((s.setRank _ _).rank (lay.node r))
    rw [rank_setRank]
    split
    · rename_i he
      obtain rfl := lay.injective he
      have := (h.memory _).deliver hmem hsent.step hold (h.not_cleared hm)
      rw [← hsent.arg] at this
      simpa [or_comm] using this
    · rename_i he
      have : ∀ i d, (r, i, d) ∈ (m.dst, m.call, m.step) :: s.delivered ↔ (r, i, d) ∈ s.delivered := by
        simp [hrank r he]
      simp only [this]
      exact h.memory r

theorem Inv.step (h : Inv mem lay s) (hmem : mem.Lawful (numPeers N))
    (hs : Step mem lay s a t) : Inv mem lay t := by
  cases hs with
  | call hpc => exact h.call hpc
  | move hpc hmove => exact h.move hpc hmove
  | exitPre hpc hdone => exact h.exitPre hpc hdone
  | exitPost hpc hdone => exact h.exitPost hmem hpc hdone
  | send hpc hstep => exact h.send hpc hstep
  | deliver hm => exact h.deliver hmem hm
  | pass hpc hready => exact h.pass hmem hpc hready
  | ringDone hpc hstep => exact h.ringDone hmem hpc hstep

theorem inv_initial (hmem : mem.Lawful (numPeers N)) : Inv mem lay (initial mem lay) where
  fits _ := Rank.fits_initial
  locals _ hk := CentralBarrier.inv_initial hk
  rounds := by
    have := @Rounds.inv_initial N fun _ => schedule N
    refine ⟨fun _ _ _ h => absurd h List.not_mem_nil, fun r i d hd hp => ?_, this.heard⟩
    exact (this.arrived r i d hd hp).elim
  flight _ hm := absurd hm List.not_mem_nil
  nodup := List.nodup_nil
  memory r phase d hd := ⟨fun _ _ h => absurd h List.not_mem_nil, fun _ => hmem.init phase d⟩

end Gasnet.Coll.BootstrapBarrier
