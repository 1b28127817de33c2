import Gasnet.Coll.BootstrapBarrierRuns

/-! The barriers of the bootstrap are barriers, and lose no message and keep none for too long, with
up to 2^31 processes. -/
namespace Gasnet.Coll.BootstrapBarrier

variable {n N : Nat} {M : Type} {mem : Memory M} {lay : Layout n N} {s t : State n N M}
  {x : Rank M} {p q : Fin n} {r : Fin N} {i d : Nat}

/-- Everybody sends messages, or else every neighborhood has a process that does and it has barriers
in shared memory before and after. -/
def Layout.Covers (lay : Layout n N) : Prop :=
  (∀ p, ∃ r, lay.node r = p) ∨
    lay.pre = true ∧ 0 < lay.post ∧ ∀ p, ∃ r, lay.nbrhd (lay.node r) = lay.nbrhd p

theorem Rank.entered_of_place (h : x.place.Entered i) : x.Entered i := by
  simp only [Rounds.Place.Entered, Rounds.Place.Reached, place] at h
  unfold Entered
  split at h
  · exact .inl (by simp only at h; omega)
  · exact .inl (by simp only at h; omega)
  · rename_i hpc
    simp only [hpc, reduceCtorEq, ne_eq, not_false_eq_true, and_true] at h ⊢
    omega
  · rename_i hpc
    simp only [hpc, reduceCtorEq, ne_eq, not_false_eq_true, and_true] at h ⊢
    omega

namespace Rank.Fits

theorem generation_of_left (h : x.Fits lay p) (hi : i < x.calls) :
    (i + 1) * lay.locals ≤ x.proc.generation := by
  rw [h.generation]
  exact Nat.le_trans (Nat.mul_le_mul_right _ hi) (Nat.le_add_right _ _)

/-- The barriers in shared memory that a process has entered. -/
theorem entered_eq (h : x.Fits lay p) : x.proc.entered = x.calls * lay.locals + x.pc.offset lay ∨
    x.AtLocal ∧ x.proc.entered = x.calls * lay.locals + x.pc.offset lay + 1 := by
  rw [CentralBarrier.Proc.entered, ← h.generation]
  split
  · exact .inl rfl
  · rename_i hstage
    exact .inr ⟨by_contra fun hn => hstage (h.idle hn), rfl⟩

variable (hpre : lay.pre = true)
include hpre

theorem generation_of_entered (h : x.Fits lay p) (hi : x.place.Entered i) :
    i * lay.locals + 1 ≤ x.proc.generation := by
  have hlocals : lay.locals = 1 + lay.post := by rw [Layout.locals, hpre]; rfl
  by_cases hlt : i < x.calls
  · have := h.generation_of_left hlt
    rw [Nat.succ_mul] at this
    omega
  · rw [h.generation]
    simp only [Rounds.Place.Entered, Rounds.Place.Reached, place] at hi
    cases hpc : x.pc with
    | out =>
      simp only [hpc] at hi
      omega
    | pre =>
      simp only [hpc] at hi
      omega
    | ring step sent =>
      simp only [hpc] at hi
      obtain rfl : i = x.calls := by omega
      simp [PC.offset, hpre]
    | post k =>
      simp only [hpc] at hi
      obtain rfl : i = x.calls := by omega
      simp only [PC.offset, hpre, Bool.toNat_true]
      omega

theorem entered_le (h : x.Fits lay p) : x.proc.entered ≤ (x.calls + 1) * lay.locals := by
  have hlocals : lay.locals = 1 + lay.post := by rw [Layout.locals, hpre]; rfl
  rw [Nat.succ_mul]
  have hent := h.entered_eq
  unfold AtLocal at hent
  cases hpc : x.pc with
  | out =>
    simp only [hpc, PC.offset] at hent
    omega
  | pre =>
    simp only [hpc, PC.offset] at hent
    omega
  | ring step sent =>
    simp only [hpc, PC.offset, hpre, Bool.toNat_true, reduceCtorEq, exists_const, or_self, false_and,
      or_false] at hent
    omega
  | post k =>
    have := h.post k hpc
    simp only [hpc, PC.offset, hpre, Bool.toNat_true] at hent
    omega

/-- A process that has entered enough barriers in shared memory has entered the call. -/
theorem entered_of_entered (h : x.Fits lay p) (hi : i * lay.locals + 1 ≤ x.proc.entered) :
    x.Entered i := by
  by_contra hn
  have hent := h.entered_eq
  have hle := entered_le hpre h
  rcases Nat.lt_trichotomy x.calls i with hlt | rfl | hlt
  · have := Nat.mul_le_mul_right lay.locals (Nat.succ_le_of_lt hlt)
    rw [Nat.succ_eq_add_one] at this
    omega
  · have hout : x.pc = .out := by
      by_contra hpc
      exact hn (.inr ⟨rfl, hpc⟩)
    simp only [hout, PC.offset, AtLocal, reduceCtorEq, exists_const, or_self, false_and,
      or_false] at hent
    omega
  · exact hn (.inl hlt)

/-- A process that has entered the barriers of a call has left the messages. -/
theorem left_of_entered (h : x.Fits lay p) (hpost : 0 < lay.post)
    (hi : (i + 1) * lay.locals ≤ x.proc.entered) : i < x.place.left := by
  have hlocals : lay.locals = 1 + lay.post := by rw [Layout.locals, hpre]; rfl
  by_contra hn
  have hent := h.entered_eq
  have hle := entered_le hpre h
  have hcalls := x.place_left_le
  rw [Nat.succ_mul] at hi
  by_cases hlt : x.calls < i
  · have := Nat.mul_le_mul_right lay.locals (Nat.succ_le_of_lt hlt)
    rw [Nat.succ_eq_add_one] at this
    omega
  · obtain rfl : x.calls = i := by omega
    unfold place at hn
    unfold AtLocal at hent
    cases hpc : x.pc with
    | out =>
      simp only [hpc, PC.offset] at hent
      omega
    | pre =>
      simp only [hpc, PC.offset] at hent
      omega
    | ring step sent =>
      simp only [hpc, PC.offset, hpre, Bool.toNat_true, reduceCtorEq, exists_const, or_self,
        false_and, or_false] at hent
      omega
    | post k =>
      simp only [hpc] at hn
      omega

end Rank.Fits

/-- Nobody leaves a call before all have entered it. -/
theorem Inv.entered (h : Inv mem lay s) (hc : lay.Covers) (hi : i < (s.rank p).calls)
    (q : Fin n) : (s.rank q).Entered i := by
  obtain hall | ⟨hpre, hpost, hall⟩ := hc
  · obtain ⟨r, rfl⟩ := hall p
    obtain ⟨r', rfl⟩ := hall q
    have hleft : i < ((s.rounds lay).place r).left :=
      Nat.lt_of_lt_of_le hi (s.rank (lay.node r)).place_left_le.1
    exact Rank.entered_of_place (h.rounds.entered_of_left (fun _ => schedule_full N) hleft r')
  · obtain ⟨r, hr⟩ := hall p
    obtain ⟨r', hr'⟩ := hall q
    -- the process of one's own neighborhood that sends messages has left them
    have hgen := (h.fits p).generation_of_left hi
    have hlead := (h.locals _ (team_nonempty lay p)).le_entered (mem_team.mpr rfl) (mem_team.mpr hr)
    have hleft : i < ((s.rounds lay).place r).left :=
      Rank.Fits.left_of_entered hpre (h.fits _) hpost (Nat.le_trans hgen hlead)
    -- so all that send messages have begun, and all of their neighborhoods have entered
    have hbegun := h.rounds.entered_of_left (fun _ => schedule_full N) hleft r'
    have hgen' := Rank.Fits.generation_of_entered hpre (h.fits _) hbegun
    have hlead' := (h.locals _ (team_nonempty lay q)).le_entered (mem_team.mpr hr')
      (mem_team.mpr rfl)
    exact Rank.Fits.entered_of_entered hpre (h.fits q) (Nat.le_trans hgen' hlead')

theorem numPeers_le (hN : N ≤ 2 ^ 31) : numPeers N ≤ 31 := by
  by_contra hlt
  have := lt_numPeers_iff.mp (Nat.not_le.mp hlt)
  omega

theorem hostMemory_decode : ∀ (step : Fin 32) (phase : Bool),
    (hostMemory.arg phase step &&& 1#32 == 1#32) = phase ∧
      ((hostMemory.arg phase step >>> 1) &&& 0x1f#32).toNat = step.val := by
  decide

theorem Counters.set_apply (m : Counters) (phase phase' : Bool) (step step' count : Nat) :
    m.set phase step count phase' step' =
      if phase' = phase ∧ step' = step then count else m phase' step' := by
  unfold set
  rw [Function.update_apply]
  by_cases hp : phase' = phase
  · subst hp
    rw [if_pos rfl, Function.update_apply]
    simp
  · rw [if_neg hp, if_neg fun h => hp h.1]

theorem hostMemory_lawful (hN : N ≤ 2 ^ 31) : hostMemory.Lawful (numPeers N) where
  init _ _ := rfl
  handler m phase d phase' d' hd _ hz := by
    have hle := numPeers_le hN
    obtain ⟨hphase, hstep⟩ := hostMemory_decode ⟨d, by omega⟩ phase
    have hz : m phase d = 0 := hz
    show Counters.set _ _ _ _ _ _ = _
    rw [hphase, hstep, Counters.set_apply, hz]
    rfl
  ready m phase d := by simp [hostMemory]
  pass m phase d phase' d' := by
    show Counters.set _ _ _ _ _ _ = _
    rw [Counters.set_apply]
    simp [hostMemory]
  reset m phase phase' d' := by simp [hostMemory]

theorem jobMemory_decode : ∀ (i : Fin 31) (phase : Bool),
    (jobMemory.arg phase i &&& 1#32 == 1#32) = phase ∧
      jobMemory.arg phase i ^^^ (jobMemory.arg phase i &&& 1#32) = stepBit i := by
  decide

theorem stepBit_and : ∀ i j : Fin 31, stepBit i &&& stepBit j = if j = i then stepBit i else 0 := by
  decide

theorem stepBit_ne_zero : ∀ i : Fin 31, stepBit i ≠ 0 := by
  decide

theorem or_stepBit_and (w : BitVec 32) (i j : Fin 31) :
    (w ||| stepBit i) &&& stepBit j = 0 ↔ j ≠ i ∧ w &&& stepBit j = 0 := by
  have hdist : (w ||| stepBit i) &&& stepBit j = w &&& stepBit j ||| stepBit i &&& stepBit j := by
    ext k
    simp [Bool.and_or_distrib_right]
  have hor : ∀ a b : BitVec 32, a ||| b = 0 ↔ a = 0 ∧ b = 0 := fun _ _ => BitVec.or_eq_zero_iff
  rw [hdist, stepBit_and, hor]
  by_cases he : j = i
  · rw [if_pos he]
    exact ⟨fun h => absurd h.2 (stepBit_ne_zero i), fun h => absurd he h.1⟩
  · simp [he]

theorem jobMemory_lawful (hN : N ≤ 2 ^ 31) : jobMemory.Lawful (numPeers N) where
  init phase d := by simp [jobMemory]
  handler m phase d phase' d' hd hd' _ := by
    have hle := numPeers_le hN
    obtain ⟨hphase, hbit⟩ := jobMemory_decode ⟨d, by omega⟩ phase
    have hor := or_stepBit_and (m phase) ⟨d, by omega⟩ ⟨d', by omega⟩
    show (if Function.update m _ (m _ ||| _) phase' &&& _ = 0 then 0 else 1) = _
    rw [hphase, hbit, Function.update_apply]
    by_cases hp : phase' = phase
    · subst hp
      simp only [if_pos, true_and, jobMemory]
      simp only [hor, Fin.mk.injEq, ne_eq]
      by_cases he : d' = d <;> simp [he]
    · simp [hp, jobMemory]
  ready m phase d := by simp [jobMemory]
  pass m phase d phase' d' := by simp [jobMemory]
  reset m phase phase' d' := by
    simp only [jobMemory, true_and, Function.update_apply]
    split <;> simp

theorem hostLayout_covers (pshm : Bool) (nbrhd : Fin n → Nat) : (hostLayout pshm nbrhd).Covers :=
  .inl fun p => ⟨p, rfl⟩

theorem flatLayout_covers (n : Nat) : (flatLayout n).Covers := .inl fun p => ⟨p, rfl⟩

theorem jobLayout_covers {nodes size : Nat} (m : Nodemap nodes size) : (jobLayout m).Covers :=
  .inr ⟨rfl, Nat.one_pos, fun p => ⟨m.supernode p, congrArg Fin.val (supernode_leaderOf m _)⟩⟩

/-- What a barrier promises. -/
structure Correct (mem : Memory M) (lay : Layout n N) (s : State n N M) : Prop where
  /-- Nobody has left a call that somebody has not entered. -/
  entered : ∀ p i, i < (s.rank p).calls → ∀ q, (s.rank q).Entered i
  /-- No message is under way for what its call has already set back. -/
  pending : ∀ m ∈ s.flight, ¬(s.rank (lay.node m.dst)).Cleared mem.early m.call m.step
  /-- A message that was delivered is recorded until its call sets it back. -/
  kept : ∀ r i d, (r, i, d) ∈ s.delivered → ¬(s.rank (lay.node r)).Cleared mem.early i d →
    mem.count (s.rank (lay.node r)).mem (phaseOf i) d = 1

theorem correct_reachable (hmem : mem.Lawful (numPeers N)) (hc : lay.Covers)
    (hr : Reachable (Step mem lay) (initial mem lay) s) : Correct mem lay s := by
  have h : Inv mem lay s := hr.invariant (fun hs h => h.step hmem hs) (inv_initial hmem)
  exact ⟨fun p i hi q => h.entered hc hi q, fun m hm => h.not_cleared hm, fun r i d ha hn =>
    (h.memory r _ d (h.rounds.sent r i d ha).1).1 i rfl ha hn⟩

end Gasnet.Coll.BootstrapBarrier
