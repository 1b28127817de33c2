import Gasnet.Barrier.AmdPhases

/-! Requests in flight keep their invariant, and the ones a step sends have it. -/
namespace Gasnet.Barrier.Amd

open Dissemination

variable {N : Nat} {s t : State N} {r p q j : Fin N} {c i k n : Nat} {a : Tag} {m : Msg N}
  {act : Action N} {v w : Flat Arg} {d : Data} {ph : Bool}

theorem msg_epoch_le (hs : Inv s) (hm : MsgInv s m) : m.epoch ≤ s.notified m.dst + 1 :=
  le_trans hm.sent (le_trans (sent_le_notified hs.toControl _ _) (notified_le hs _ _))

theorem msg_inj (hs : Inv s) {m' : Msg N} (hm : m ∈ s.requests ++ s.merged)
    (hm' : m' ∈ s.requests ++ s.merged) (hk : m.key = m'.key) : m = m' :=
  List.inj_on_of_nodup_map hs.keys hm hm' hk

theorem msg_keep (h : Step s act t) (hs : Inv s) (hm : m ∈ s.requests ++ s.merged)
    (hact : act ≠ .markDone m) : MsgInv t m := by
  have hi := hs.msg m hm
  refine msgInv_mono (extends_step h hs) ?_ ?_ hi
  · obtain he | ⟨_, he, hle, hlt⟩ := consumed_step (q := m.dst) h hs hi.step
    · rw [he]
      exact hi.fresh
    · rw [he]
      by_contra hn
      have hfresh := hi.fresh
      rw [consumed_of_le hle] at hfresh
      have hc := notified_le_completed hs.toControl m.dst
      have hepoch : m.epoch = s.notified m.dst := by omega
      have hph : m.phase = (s.data m.dst).phase := by rw [hi.phase, hepoch, hs.phase]
      have hslot := hi.slot
      rw [hph, cursor_done hle hlt] at hslot
      exact Bool.noConfusion hslot
  · by_contra hd
    obtain hd | ⟨m', hm', he, hkey⟩ := stepDone_step h (eq_true_of_ne_false hd)
    · rw [hi.slot] at hd
      exact Bool.noConfusion hd
    · have : m' = m := msg_inj hs (List.mem_append_right _ hm') hm hkey
      exact hact (this ▸ he)

/-- A message for a step its sender had not yet sent for this barrier. -/
theorem msg_new (h : Step s act t) (hs : Inv s) (hdst : m.dst = fwd m.src m.step)
    (hi : m.step < size N) (hph : m.phase = m.epoch.bodd)
    (hold : s.sent m.src m.step + 1 = m.epoch) (hle : m.epoch ≤ s.completed m.src + 1)
    (hsent : m.epoch ≤ t.sent m.src m.step)
    (hcov : t.Covers m.epoch m.step m.src m.arg.consensus)
    (htot : m.arg.consensus ≤ t.total m.epoch) : MsgInv t m := by
  refine ⟨hdst, hi, hph, hsent, ?_, ?_, hcov, htot⟩
  · obtain he | ⟨_, he, hst, hlt⟩ := consumed_step (q := m.dst) h hs hi
    · have := hs.consumed_le m.src m.step hi
      rw [← hdst] at this
      omega
    · have := (cursor_slot hs hst hlt).sent m.src hdst.symm
      omega
  · by_contra hd
    obtain hd | ⟨m', hm', _, hkey⟩ := stepDone_step h (eq_true_of_ne_false hd)
    · rw [hph, new_slot_clear hs hdst.symm hold hle] at hd
      exact Bool.noConfusion hd
    · rw [hph] at hkey
      exact new_key_fresh hs hdst.symm hold hle (List.mem_append_right _ hm') hkey

theorem mem_kickSteps (hle : d.step ≤ n) (h : i ∈ d.kickSteps n) :
    ∃ c, i = c + 1 ∧ d.step ≤ c ∧ c < d.cursor n ∧ c + 1 < n := by
  have hcur := cursor_le hle
  rw [Data.kickSteps, List.mem_range'_1, Data.numSends] at h
  obtain ⟨hlo, hhi⟩ := h
  refine ⟨i - 1, by omega, by omega, ?_⟩
  split at hhi <;> omega

/-- What a kick may send it has not sent before. -/
theorem kick_new (hs : Inv s) (h : i ∈ (s.data r).kickSteps (size N)) :
    s.pc r = .inside ∧ i < size N ∧ s.sent r i + 1 = s.notified r ∧
      s.notified r = s.completed r + 1 := by
  obtain ⟨c, rfl, hle, hlt, hN⟩ := mem_kickSteps (hs.step_le r) h
  have hpc := (slot_epoch_eq hs (cursor_slot hs hle hlt)).2.1
  refine ⟨hpc, hN, ?_, hs.inside r hpc⟩
  rw [State.sent, consumed_of_le hle, hs.inside r hpc]

/-- The pair a kick leaves behind holds nothing that was not said in this barrier. -/
theorem kickRecv_le (hs : Inv s) (hpc : s.pc r = .inside) :
    (s.data r).kickRecv.consensus ≤ s.total (s.notified r) := by
  have hin := hs.inside r hpc
  have hrecv := hs.recv_le r (s.notified r) (by omega) (by omega)
  rw [← hs.phase r] at hrecv
  unfold Data.kickRecv
  split
  · rw [Tag.consensus_merge, hs.localArg r hpc]
    exact sup_le hrecv (said_le_total s r _)
  · exact hrecv

theorem msg_step (h : Step s act t) (hs : Inv s) (hm : m ∈ t.requests ++ t.merged) :
    MsgInv t m := by
  have hext := extends_step h hs
  cases h with
  | notify hpc hN =>
    exact msg_keep (.notify hpc hN) hs (by simpa using hm) (by simp)
  | singleton hpc hN =>
    exact msg_keep (.singleton hpc hN) hs (by simpa using hm) (by simp)
  | wait hpc hstep =>
    exact msg_keep (.wait (a := .anonymous) hpc hstep) hs (by simpa using hm) (by simp)
  | @handle m' hm' =>
    refine msg_keep (.handle hm') hs ?_ (by simp)
    simp only [State.handle, List.mem_append, List.mem_cons] at hm ⊢
    obtain hm | rfl | hm := hm
    · exact Or.inl (List.mem_of_mem_erase hm)
    · exact Or.inl hm'
    · exact Or.inr hm
  | @markDone m' hm' =>
    have hnd : (s.requests ++ s.merged).Nodup := hs.keys.of_map _
    simp only [State.markDone, State.setData, List.mem_append] at hm
    obtain hm | hm := hm
    · refine msg_keep (.markDone hm') hs (List.mem_append_left _ hm) ?_
      intro he
      obtain rfl : m' = m := by injection he
      exact (List.disjoint_of_nodup_append hnd) hm hm'
    · refine msg_keep (.markDone hm') hs
        (List.mem_append_right _ (List.mem_of_mem_erase hm)) ?_
      intro he
      obtain rfl : m' = m := by injection he
      exact ((List.nodup_append.mp hnd).2.1.not_mem_erase) hm
  | @send r hpc =>
    have hz := hs.notifying r hpc
    have hout := hs.outside r (by simp [hpc])
    simp only [State.send, List.cons_append, List.mem_cons] at hm
    obtain rfl | hm := hm
    · refine msg_new (.send hpc) hs rfl hz.2 ?_ ?_ ?_ ?_ ?_ ?_
      · simp [hs.phase r]
      · simp [State.sent]
      · simp [hout]
      · simp [State.sent]
      · intro j hj
        obtain rfl := hears_zero.mp hj
        simp [State.said]
      · have := said_le_total (s.send r) r (s.notified r + 1)
        simpa [State.said] using this
    · exact msg_keep (.send hpc) hs (by simpa using hm) (by simp)
  | @kick r =>
    simp only [State.kick, List.append_assoc, List.mem_append, List.mem_map] at hm
    obtain ⟨i, hi, rfl⟩ | hm := hm
    · obtain ⟨hpc, hN, hold, hin⟩ := kick_new hs hi
      obtain ⟨c, rfl, hle, hlt, _⟩ := mem_kickSteps (hs.step_le r) hi
      refine msg_new .kick hs rfl hN (hs.phase r) hold (le_of_eq hin) ?_ ?_ ?_
      · change s.notified r ≤ (s.kick r).consumed r c
        rw [consumed_of_lt (by simpa using hpc) (by simpa using hlt)]
        simp [hin]
      · exact covers_mono hext le_rfl (kick_covers (c := c + 1) hs (by omega) (by omega) (by omega))
      · exact le_trans (kickRecv_le hs hpc) (total_mono hext _)
    · exact msg_keep .kick hs (by simpa using hm) (by simp)

theorem keys_step (h : Step s act t) (hs : Inv s) :
    ((t.requests ++ t.merged).map Msg.key).Nodup := by
  have hk := hs.keys
  cases h with
  | notify | singleton | wait => simpa using hk
  | @handle m hm =>
    refine (List.Perm.map _ ?_).nodup_iff.mp hk
    calc s.requests ++ s.merged
        |>.Perm (m :: s.requests.erase m ++ s.merged) :=
          (List.perm_cons_erase hm).append_right _
      _ |>.Perm (s.requests.erase m ++ m :: s.merged) := List.perm_middle.symm
  | @markDone m hm =>
    exact hk.sublist ((List.Sublist.append_left List.erase_sublist _).map _)
  | @send r hpc =>
    have hout := hs.outside r (by simp [hpc])
    refine List.nodup_cons.mpr ⟨?_, hk⟩
    intro hmem
    obtain ⟨m, hm, he⟩ := List.mem_map.mp hmem
    refine new_key_fresh (p := r) (i := 0) hs rfl rfl (by simp [State.sent, hout]) hm
      (he.trans ?_)
    simp [Msg.key, hs.phase r, State.sent]
  | @kick r =>
    simp only [State.kick, List.append_assoc, List.map_append, List.map_map]
    refine List.nodup_append.mpr ⟨?_, by simpa using hk, ?_⟩
    · refine List.Nodup.map_on ?_ List.nodup_range'
      intro i _ j _ he
      exact congrArg (fun x => x.2.2) he
    · rintro x hx y hy rfl
      rw [← List.map_append] at hy
      obtain ⟨i, hi, rfl⟩ := List.mem_map.mp hx
      obtain ⟨m, hm, he⟩ := List.mem_map.mp hy
      obtain ⟨_, _, hold, hin⟩ := kick_new hs hi
      refine new_key_fresh hs rfl hold (le_of_eq hin) hm (he.trans ?_)
      simp [Msg.key, hs.phase r]

end Gasnet.Barrier.Amd
