import Gasnet.Coll.BootstrapBarrier
import Gasnet.Coll.BootstrapRuns

/-! What a process of a bootstrap barrier knows of itself, how many barriers in shared memory it has
been through, and where it is among those that send messages. -/
namespace Gasnet.Coll.BootstrapBarrier

open CentralBarrier (Proc)

variable {n N : Nat} {M : Type} {mem : Memory M} {lay : Layout n N} {s : State n N M}
  {x : Rank M} {p q : Fin n} {r : Fin N} {i j k step : Nat} {y : Proc}

/-- The phase of a call. -/
def phaseOf (i : Nat) : Bool := decide (i % 2 = 1)

theorem phaseOf_eq_iff : phaseOf i = phaseOf j ↔ i % 2 = j % 2 := by
  unfold phaseOf
  rw [decide_eq_decide]
  omega

theorem phaseOf_succ (i : Nat) : phaseOf (i + 1) = !phaseOf i := by
  unfold phaseOf
  rw [← decide_not]
  exact decide_eq_decide.mpr (by omega)

/-- The barriers in shared memory of one call. -/
def Layout.locals (lay : Layout n N) : Nat := lay.pre.toNat + lay.post

/-- Those of the call that a process has been through. -/
def PC.offset (lay : Layout n N) : PC → Nat
  | .out => 0
  | .pre => 0
  | .ring _ _ => lay.pre.toNat
  | .post k => lay.pre.toNat + k

/-- The place of a process among those that send messages. -/
def Rank.place (x : Rank M) : Rounds.Place :=
  match x.pc with
  | .out => ⟨x.calls, 0⟩
  | .pre => ⟨x.calls, 0⟩
  | .ring step sent => ⟨x.calls, 2 * step + 1 + sent.toNat⟩
  | .post _ => ⟨x.calls + 1, 0⟩

/-- What holds of a process by itself. -/
structure Rank.Fits (lay : Layout n N) (p : Fin n) (x : Rank M) : Prop where
  phase : x.phase = phaseOf x.calls
  generation : x.proc.generation = x.calls * lay.locals + x.pc.offset lay
  idle : ¬x.AtLocal → x.proc.stage = .idle
  pre : x.pc = .pre → lay.pre = true
  post : ∀ k, x.pc = .post k → k < lay.post
  ring : ∀ step sent, x.pc = .ring step sent →
    (∃ r, lay.node r = p) ∧ 2 * step + sent.toNat ≤ 2 * numPeers N

/-- A process that has just been through some barriers of its call. -/
structure Rank.At (lay : Layout n N) (offset : Nat) (x : Rank M) : Prop where
  phase : x.phase = phaseOf x.calls
  generation : x.proc.generation = x.calls * lay.locals + offset
  idle : x.proc.stage = .idle

namespace Rank

@[simp] theorem toPc_pc (x : Rank M) (pc : PC) : (x.toPc pc).pc = pc := rfl
@[simp] theorem toPc_calls (x : Rank M) (pc : PC) : (x.toPc pc).calls = x.calls := rfl
@[simp] theorem toPc_mem (x : Rank M) (pc : PC) : (x.toPc pc).mem = x.mem := rfl
@[simp] theorem toPc_phase (x : Rank M) (pc : PC) : (x.toPc pc).phase = x.phase := rfl
@[simp] theorem toPc_proc (x : Rank M) (pc : PC) : (x.toPc pc).proc = x.proc := rfl
@[simp] theorem toMem_pc (x : Rank M) (m : M) : (x.toMem m).pc = x.pc := rfl
@[simp] theorem toMem_calls (x : Rank M) (m : M) : (x.toMem m).calls = x.calls := rfl
@[simp] theorem toMem_mem (x : Rank M) (m : M) : (x.toMem m).mem = m := rfl
@[simp] theorem toMem_phase (x : Rank M) (m : M) : (x.toMem m).phase = x.phase := rfl
@[simp] theorem toMem_proc (x : Rank M) (m : M) : (x.toMem m).proc = x.proc := rfl
@[simp] theorem toProc_pc (x : Rank M) (y : Proc) : (x.toProc y).pc = x.pc := rfl
@[simp] theorem toProc_calls (x : Rank M) (y : Proc) : (x.toProc y).calls = x.calls := rfl
@[simp] theorem toProc_mem (x : Rank M) (y : Proc) : (x.toProc y).mem = x.mem := rfl
@[simp] theorem toProc_phase (x : Rank M) (y : Proc) : (x.toProc y).phase = x.phase := rfl
@[simp] theorem toProc_proc (x : Rank M) (y : Proc) : (x.toProc y).proc = y := rfl

/-- A call ends, or not. -/
theorem finish_or_toPc_afterRing (mem : Memory M) (lay : Layout n N) (x : Rank M) :
    x.afterRing mem lay = x.finish mem ∨ 0 < lay.post ∧ x.afterRing mem lay = x.toPc (.post 0) := by
  unfold afterRing
  split
  · exact .inl rfl
  · exact .inr ⟨by omega, rfl⟩

theorem finish_or_toPc_afterPost (mem : Memory M) (lay : Layout n N) (k : Nat) (x : Rank M) :
    x.afterPost mem lay k = x.finish mem ∨
      k + 1 < lay.post ∧ x.afterPost mem lay k = x.toPc (.post (k + 1)) := by
  unfold afterPost
  split
  · rename_i h
    exact .inr ⟨h, rfl⟩
  · exact .inl rfl

theorem proc_afterRing (mem : Memory M) (lay : Layout n N) (x : Rank M) :
    (x.afterRing mem lay).proc = x.proc := by
  unfold afterRing
  split <;> rfl

theorem proc_afterPost (mem : Memory M) (lay : Layout n N) (k : Nat) (x : Rank M) :
    (x.afterPost mem lay k).proc = x.proc := by
  unfold afterPost
  split <;> rfl

theorem proc_afterPre (mem : Memory M) (lay : Layout n N) (p : Fin n) (x : Rank M) :
    (x.afterPre mem lay p).proc = x.proc := by
  unfold afterPre
  split
  · rfl
  · exact proc_afterRing mem lay x

theorem place_afterRing (mem : Memory M) (lay : Layout n N) (x : Rank M) :
    (x.afterRing mem lay).place = ⟨x.calls + 1, 0⟩ := by
  unfold afterRing
  split <;> rfl

theorem place_afterPost (mem : Memory M) (lay : Layout n N) (k : Nat) (x : Rank M) :
    (x.afterPost mem lay k).place = ⟨x.calls + 1, 0⟩ := by
  unfold afterPost
  split <;> rfl

theorem afterPre_node (mem : Memory M) (lay : Layout n N) (r : Fin N) (x : Rank M) :
    x.afterPre mem lay (lay.node r) = x.toPc (.ring 0 false) :=
  if_pos ⟨r, rfl⟩

theorem At.toPc_ring (h : x.At lay lay.pre.toNat) {sent : Bool}
    (hring : (∃ r, lay.node r = p) ∧ 2 * step + sent.toNat ≤ 2 * numPeers N) :
    (x.toPc (.ring step sent)).Fits lay p where
  phase := h.phase
  generation := h.generation
  idle _ := h.idle
  pre h := nomatch h
  post _ h := nomatch h
  ring _ _ h := by
    cases h
    exact hring

theorem At.toPc_post (h : x.At lay (lay.pre.toNat + k)) (hk : k < lay.post) :
    (x.toPc (.post k)).Fits lay p where
  phase := h.phase
  generation := h.generation
  idle _ := h.idle
  pre h := nomatch h
  post _ h := by
    cases h
    exact hk
  ring _ _ h := nomatch h

theorem At.finish (h : x.At lay lay.locals) : (x.finish mem).Fits lay p where
  phase := by
    show (!x.phase) = phaseOf (x.calls + 1)
    rw [h.phase, phaseOf_succ]
  generation := by
    show x.proc.generation = (x.calls + 1) * lay.locals + 0
    rw [h.generation, Nat.succ_mul, Nat.add_zero]
  idle _ := h.idle
  pre h := nomatch h
  post _ h := nomatch h
  ring _ _ h := nomatch h

theorem At.afterRing (h : x.At lay lay.pre.toNat) : (x.afterRing mem lay).Fits lay p := by
  by_cases hpost : lay.post = 0
  · have hlocals : lay.locals = lay.pre.toNat := by rw [Layout.locals, hpost, Nat.add_zero]
    rw [Rank.afterRing, if_pos hpost]
    exact At.finish (hlocals ▸ h)
  · rw [Rank.afterRing, if_neg hpost]
    exact At.toPc_post h (Nat.pos_of_ne_zero hpost)

theorem At.afterPre (h : x.At lay lay.pre.toNat) : (x.afterPre mem lay p).Fits lay p := by
  unfold Rank.afterPre
  split
  · rename_i hr
    exact h.toPc_ring ⟨hr, Nat.zero_le _⟩
  · exact h.afterRing

theorem At.afterPost (h : x.At lay (lay.pre.toNat + (k + 1))) (hk : k < lay.post) :
    (x.afterPost mem lay k).Fits lay p := by
  by_cases hlt : k + 1 < lay.post
  · rw [Rank.afterPost, if_pos hlt]
    exact h.toPc_post hlt
  · have hlocals : lay.locals = lay.pre.toNat + (k + 1) := by
      rw [Layout.locals]
      omega
    rw [Rank.afterPost, if_neg hlt]
    exact At.finish (hlocals ▸ h)

/-- A process inside the messages. -/
theorem Fits.at_ring (h : x.Fits lay p) {sent : Bool} (hpc : x.pc = .ring step sent) :
    x.At lay lay.pre.toNat where
  phase := h.phase
  generation := by
    have := h.generation
    rwa [hpc] at this
  idle := h.idle (by simp [AtLocal, hpc])

/-- A process that has waited for the others of its neighborhood. -/
theorem Fits.at_exit (h : x.Fits lay p) : (x.toProc x.proc.exit).At lay (x.pc.offset lay + 1) where
  phase := h.phase
  generation := by
    show x.proc.generation + 1 = _
    rw [h.generation]
    rfl
  idle := rfl

theorem Fits.toProc (h : x.Fits lay p) (hl : x.AtLocal)
    (hy : y.generation = x.proc.generation) : (x.toProc y).Fits lay p where
  phase := h.phase
  generation := hy.trans h.generation
  idle hn := absurd hl hn
  pre := h.pre
  post := h.post
  ring := h.ring

theorem Fits.toMem (h : x.Fits lay p) (m : M) : (x.toMem m).Fits lay p :=
  ⟨h.phase, h.generation, h.idle, h.pre, h.post, h.ring⟩

theorem fits_initial : (⟨0, false, .out, mem.init, ⟨0, .idle⟩⟩ : Rank M).Fits lay p where
  phase := rfl
  generation := by simp [PC.offset]
  idle _ := rfl
  pre h := nomatch h
  post _ h := nomatch h
  ring _ _ h := nomatch h

theorem Fits.call (h : x.Fits lay p) (hpc : x.pc = .out) :
    (if lay.pre then x.toPc .pre else x.afterPre mem lay p).Fits lay p := by
  have hgen := h.generation
  rw [hpc] at hgen
  have hidle := h.idle (by simp [AtLocal, hpc])
  split
  · rename_i hpre
    exact {
      phase := h.phase
      generation := hgen
      idle := fun _ => hidle
      pre := fun _ => hpre
      post := fun _ h => nomatch h
      ring := fun _ _ h => nomatch h }
  · rename_i hpre
    have hz : lay.pre.toNat = 0 := by simp [hpre]
    exact At.afterPre ⟨h.phase, by rw [hz]; exact hgen, hidle⟩

end Rank

theorem move_generation {size : Nat} {m m' : CentralBarrier.Shared} {x y : Proc}
    (h : CentralBarrier.Move size m x m' y) : y.generation = x.generation := by
  cases h <;> rfl

end Gasnet.Coll.BootstrapBarrier

/-! What records the messages of a bootstrap barrier holds every message of a call once, from its
arrival until it is set back. -/
namespace Gasnet.Coll.BootstrapBarrier

variable {M : Type} {mem : Memory M} {x x' : Rank M} {i d step : Nat}
  {arrived : Nat → Nat → Prop}

/-- A process is past the point where a call sets back what is recorded of a step. -/
def Rank.Cleared (early : Bool) (x : Rank M) (i d : Nat) : Prop :=
  if early then x.place.Passed i d else i < x.calls

/-- What a memory has to do with an argument of the first steps. -/
structure Memory.Lawful (mem : Memory M) (steps : Nat) : Prop where
  init : ∀ phase d, mem.count mem.init phase d = 0
  handler : ∀ m phase d phase' d', d < steps → d' < steps → mem.count m phase d = 0 →
    mem.count (mem.handler m (mem.arg phase d)) phase' d' =
      if phase' = phase ∧ d' = d then 1 else mem.count m phase' d'
  ready : ∀ m phase d, mem.ready m phase d = true ↔ mem.count m phase d ≠ 0
  pass : ∀ m phase d phase' d', mem.count (mem.pass m phase d) phase' d' =
    if mem.early = true ∧ phase' = phase ∧ d' = d then 0 else mem.count m phase' d'
  reset : ∀ m phase phase' d', mem.count (mem.reset m phase) phase' d' =
    if mem.early = false ∧ phase' = phase then 0 else mem.count m phase' d'

/-- What is recorded is one for a message that has arrived and was not set back, and else nothing. -/
def Holds (mem : Memory M) (steps : Nat) (arrived : Nat → Nat → Prop) (x : Rank M) : Prop :=
  ∀ phase d, d < steps →
    (∀ i, phaseOf i = phase → arrived i d → ¬x.Cleared mem.early i d →
      mem.count x.mem phase d = 1) ∧
    ((∀ i, phaseOf i = phase → arrived i d → x.Cleared mem.early i d) →
      mem.count x.mem phase d = 0)

theorem Rank.place_left_le (x : Rank M) : x.calls ≤ x.place.left ∧ x.place.left ≤ x.calls + 1 ∧
    (x.place.left = x.calls + 1 → x.place.pos = 0) := by
  unfold place
  split <;> simp

theorem Rank.lt_calls_of_entered (h : x.place.Entered (i + 1)) : i < x.calls := by
  obtain ⟨hle, hlt, hpos⟩ := x.place_left_le
  simp only [Rounds.Place.Entered, Rounds.Place.Reached] at h
  omega

/-- A message of a call that has been left was set back. -/
theorem Rank.cleared_of_lt (h : i < x.calls) (early : Bool) (d : Nat) : x.Cleared early i d := by
  obtain ⟨hle, -, -⟩ := x.place_left_le
  unfold Cleared
  split
  · exact .inl (by omega)
  · exact h

theorem Holds.congr (h : Holds mem step arrived x) (hmem : x'.mem = x.mem)
    (hc : ∀ i d, d < step → (x'.Cleared mem.early i d ↔ x.Cleared mem.early i d)) :
    Holds mem step arrived x' := by
  intro phase d hd
  obtain ⟨hone, hnone⟩ := h phase d hd
  rw [hmem]
  exact ⟨fun i hi ha hn => hone i hi ha (mt (hc i d hd).mpr hn),
    fun hall => hnone fun i hi ha => (hc i d hd).mp (hall i hi ha)⟩

/-- A move between the waits, within a call. -/
theorem Holds.move (h : Holds mem step arrived x) (hmem : x'.mem = x.mem)
    (hcalls : x'.calls = x.calls) (hnext : x.place.Next step x'.place)
    (hpos : ∀ d, x.place.pos ≠ 2 * d + 2) : Holds mem step arrived x' := by
  refine h.congr hmem fun i d hd => ?_
  unfold Rank.Cleared
  split
  · exact hnext.passed_iff hd hpos
  · rw [hcalls]

/-- The end of a call. -/
theorem Holds.finish (h : Holds mem step arrived x) (hmem : mem.Lawful step)
    (hphase : x.phase = phaseOf x.calls) (hle : ∀ i d, arrived i d → i ≤ x.calls + 1)
    (hnext : x.place.Next step (x.finish mem).place) (hpos : ∀ d, x.place.pos ≠ 2 * d + 2) :
    Holds mem step arrived (x.finish mem) := by
  intro phase d hd
  obtain ⟨hone, hnone⟩ := h phase d hd
  have hcount : mem.count (x.finish mem).mem phase d = _ := hmem.reset x.mem x.phase phase d
  by_cases hearly : mem.early = true
  · have hc : ∀ i, (x.finish mem).Cleared mem.early i d ↔ x.Cleared mem.early i d := fun i => by
      rw [Rank.Cleared, Rank.Cleared, if_pos hearly, if_pos hearly]
      exact hnext.passed_iff hd hpos
    rw [hcount, if_neg (by simp [hearly])]
    exact ⟨fun i hi ha hn => hone i hi ha (mt (hc i).mpr hn),
      fun hall => hnone fun i hi ha => (hc i).mp (hall i hi ha)⟩
  · have hc : ∀ (x : Rank M) i, x.Cleared mem.early i d ↔ i < x.calls := fun x i => by
      rw [Rank.Cleared, if_neg hearly]
    have hcalls : (x.finish mem).calls = x.calls + 1 := rfl
    simp only [hc, hcalls] at hone hnone ⊢
    rw [hcount]
    by_cases hp : phase = x.phase
    · -- all that has arrived in this phase is of this call or an earlier one
      rw [if_pos ⟨by simpa using hearly, hp⟩]
      refine ⟨fun i hi ha hn => ?_, fun _ => rfl⟩
      rw [hp, hphase, phaseOf_eq_iff] at hi
      have := hle i d ha
      omega
    · rw [if_neg fun h => hp h.2]
      refine ⟨fun i hi ha hn => hone i hi ha (by omega), fun hall => hnone fun i hi ha => ?_⟩
      have hne : i ≠ x.calls := fun he => hp (by rw [← hi, he, hphase])
      have := hall i hi ha
      omega

theorem Holds.afterRing {n N : Nat} (lay : Layout n N) (hmem : mem.Lawful step)
    (h : Holds mem step arrived x) (hphase : x.phase = phaseOf x.calls)
    (hle : ∀ i d, arrived i d → i ≤ x.calls + 1)
    (hnext : x.place.Next step ⟨x.calls + 1, 0⟩) (hpos : ∀ d, x.place.pos ≠ 2 * d + 2) :
    Holds mem step arrived (x.afterRing mem lay) := by
  obtain he | ⟨-, he⟩ := x.finish_or_toPc_afterRing mem lay
  · rw [he]
    exact h.finish hmem hphase hle hnext hpos
  · rw [he]
    exact h.move rfl rfl hnext hpos

theorem Holds.afterPost {n N : Nat} (lay : Layout n N) (hmem : mem.Lawful step)
    (h : Holds mem step arrived x) (hphase : x.phase = phaseOf x.calls)
    (hle : ∀ i d, arrived i d → i ≤ x.calls + 1) {k : Nat} (hplace : x.place = ⟨x.calls + 1, 0⟩) :
    Holds mem step arrived (x.afterPost mem lay k) := by
  have hpos : ∀ d, x.place.pos ≠ 2 * d + 2 := fun d hd => by
    rw [hplace] at hd
    simp at hd
  obtain he | ⟨-, he⟩ := x.finish_or_toPc_afterPost mem lay k
  · rw [he]
    exact h.finish hmem hphase hle (.inl hplace.symm) hpos
  · rw [he]
    exact h.move rfl rfl (.inl hplace.symm) hpos

/-- The end of a wait. -/
theorem Holds.pass (h : Holds mem step arrived x) (hmem : mem.Lawful step)
    (hphase : x.phase = phaseOf x.calls) (hle : ∀ i d, arrived i d → i ≤ x.calls + 1)
    (hpc : x.pc = .ring d true) :
    Holds mem step arrived ((x.toMem (mem.pass x.mem x.phase d)).toPc (.ring (d + 1) false)) := by
  intro phase d' hd
  obtain ⟨hone, hnone⟩ := h phase d' hd
  have hcount := hmem.pass x.mem x.phase d phase d'
  have hplace : x.place = ⟨x.calls, 2 * d + 2⟩ := by simp [Rank.place, hpc]
  simp only [Rank.toPc_mem, Rank.toMem_mem]
  rw [hcount]
  by_cases hearly : mem.early = true
  · have hnew : ∀ i, ((x.toMem (mem.pass x.mem x.phase d)).toPc (.ring (d + 1) false)).Cleared
        mem.early i d' ↔ x.Cleared mem.early i d' ∨ i = x.calls ∧ d' = d := fun i => by
      rw [Rank.Cleared, Rank.Cleared, if_pos hearly, if_pos hearly, hplace]
      simp only [Rank.place, Rank.toPc_pc, Rank.toPc_calls, Rank.toMem_calls,
        Rounds.Place.Passed, Rounds.Place.Reached, Bool.toNat_false]
      omega
    simp only [hnew]
    by_cases hp : phase = x.phase ∧ d' = d
    · rw [if_pos ⟨hearly, hp⟩]
      refine ⟨fun i hi ha hn => ?_, fun _ => rfl⟩
      have := hle i d' ha
      rw [hp.1, hphase, phaseOf_eq_iff] at hi
      have hlt : i ≠ x.calls := fun he => hn (.inr ⟨he, hp.2⟩)
      exact absurd (Rank.cleared_of_lt (by omega) _ _) fun hc => hn (.inl hc)
    · rw [if_neg fun h => hp h.2]
      refine ⟨fun i hi ha hn => hone i hi ha fun hc => hn (.inl hc),
        fun hall => hnone fun i hi ha => (hall i hi ha).resolve_right fun he => hp ?_⟩
      exact ⟨by rw [← hi, he.1, hphase], he.2⟩
  · rw [if_neg fun h => hearly h.1]
    have hsame : ∀ i, ((x.toMem (mem.pass x.mem x.phase d)).toPc (.ring (d + 1) false)).Cleared
        mem.early i d' ↔ x.Cleared mem.early i d' := fun i => by
      rw [Rank.Cleared, Rank.Cleared, if_neg hearly, if_neg hearly]
      rfl
    simp only [hsame]
    exact ⟨hone, hnone⟩

/-- A message arrives that has not arrived before. -/
theorem Holds.deliver (h : Holds mem step arrived x) (hmem : mem.Lawful step) (hd : d < step)
    (hold : ∀ j, phaseOf j = phaseOf i → arrived j d → x.Cleared mem.early j d)
    (hnew : ¬x.Cleared mem.early i d) :
    Holds mem step (fun i' d' => arrived i' d' ∨ i' = i ∧ d' = d)
      (x.toMem (mem.handler x.mem (mem.arg (phaseOf i) d))) := by
  have hzero : mem.count x.mem (phaseOf i) d = 0 := (h (phaseOf i) d hd).2 hold
  intro phase d' hd'
  obtain ⟨hone, hnone⟩ := h phase d' hd'
  have hcount := hmem.handler x.mem (phaseOf i) d phase d' hd hd' hzero
  have hc : ∀ i', (x.toMem (mem.handler x.mem (mem.arg (phaseOf i) d))).Cleared mem.early i' d' ↔
    x.Cleared mem.early i' d' := fun _ => Iff.rfl
  simp only [hc, Rank.toMem_mem]
  rw [hcount]
  by_cases hp : phase = phaseOf i ∧ d' = d
  · obtain ⟨rfl, rfl⟩ := hp
    rw [if_pos ⟨rfl, rfl⟩]
    exact ⟨fun _ _ _ _ => rfl, fun hall => absurd (hall i rfl (.inr ⟨rfl, rfl⟩)) hnew⟩
  · rw [if_neg hp]
    refine ⟨fun i' hi ha hn => hone i' hi (ha.resolve_right ?_) hn,
      fun hall => hnone fun i' hi ha => hall i' hi (.inl ha)⟩
    rintro ⟨rfl, rfl⟩
    exact hp ⟨hi.symm, rfl⟩

end Gasnet.Coll.BootstrapBarrier
