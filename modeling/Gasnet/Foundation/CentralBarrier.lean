import Mathlib.Data.Finset.Card
import Mathlib.Logic.Function.Basic

/-! A barrier with a counter and a generation in shared memory: the last to come sets the counter
back and starts a generation, for which the others wait. -/
namespace Gasnet.CentralBarrier

variable {ι : Type*} [DecidableEq ι]

structure Shared where
  cnt : Nat
  gen : Nat

/-- Where a process is. The last to come has two writes to do. -/
inductive Stage
  | idle | reset | bump | wait
deriving DecidableEq

/-- The generation that a process waits for the end of. -/
structure Proc where
  generation : Nat
  stage : Stage

/-- The barriers that a process has entered. -/
def Proc.entered (x : Proc) : Nat := x.generation + if x.stage = .idle then 0 else 1

def Proc.toStage (x : Proc) (stage : Stage) : Proc := ⟨x.generation, stage⟩

@[simp] theorem Proc.toStage_generation (x : Proc) (stage : Stage) :
    (x.toStage stage).generation = x.generation := rfl

@[simp] theorem Proc.toStage_stage (x : Proc) (stage : Stage) :
    (x.toStage stage).stage = stage := rfl

/-- A step of a process inside the barrier, with a team of `size`. -/
inductive Move (size : Nat) : Shared → Proc → Shared → Proc → Prop
  | decrement {m : Shared} {x : Proc} (hstage : x.stage = .idle) :
      Move size m x { m with cnt := m.cnt - 1 }
        (x.toStage (if m.cnt - 1 = 0 then .reset else .wait))
  | reset {m : Shared} {x : Proc} (hstage : x.stage = .reset) :
      Move size m x { m with cnt := size } (x.toStage .bump)
  | bump {m : Shared} {x : Proc} (hstage : x.stage = .bump) :
      Move size m x { m with gen := m.gen + 1 } (x.toStage .wait)

/-- The wait of a process is over. -/
def Proc.Done (x : Proc) (m : Shared) : Prop := x.stage = .wait ∧ m.gen ≠ x.generation

def Proc.exit (x : Proc) : Proc := ⟨x.generation + 1, .idle⟩

/-- Those that wait for the current generation to end. -/
def waiting (team : Finset ι) (m : Shared) (proc : ι → Proc) : Finset ι :=
  team.filter fun p => (proc p).stage = .wait ∧ (proc p).generation = m.gen

/-- All but `p` wait for the current generation to end. -/
def Alone (team : Finset ι) (m : Shared) (proc : ι → Proc) (p : ι) : Prop :=
  p ∈ team ∧ (proc p).generation = m.gen ∧
    ∀ q ∈ team, q ≠ p → (proc q).stage = .wait ∧ (proc q).generation = m.gen

structure Inv (team : Finset ι) (m : Shared) (proc : ι → Proc) : Prop where
  range : ∀ p ∈ team, (proc p).generation = m.gen ∨
    (proc p).generation + 1 = m.gen ∧ (proc p).stage = .wait
  count : (0 < m.cnt ∧ (∀ p ∈ team, (proc p).stage = .idle ∨ (proc p).stage = .wait) ∧
      m.cnt + (waiting team m proc).card = team.card) ∨
    (∃ p, Alone team m proc p ∧ (proc p).stage = .reset ∧ m.cnt = 0) ∨
    ∃ p, Alone team m proc p ∧ (proc p).stage = .bump ∧ m.cnt = team.card

variable {team : Finset ι} {m m' : Shared} {proc : ι → Proc} {p q : ι} {x : Proc}

omit [DecidableEq ι] in
theorem inv_initial (hne : team.Nonempty) : Inv team ⟨team.card, 0⟩ fun _ => ⟨0, .idle⟩ where
  range _ _ := .inl rfl
  count := by
    refine .inl ⟨hne.card_pos, fun _ _ => .inl rfl, ?_⟩
    simp [waiting]

omit [DecidableEq ι] in
/-- Whoever has been through `n` barriers has not overtaken anybody's entry. -/
theorem Inv.le_entered (h : Inv team m proc) (hp : p ∈ team) (hq : q ∈ team) :
    (proc p).generation ≤ (proc q).entered := by
  have hgen := h.range p hp
  have hgen' := h.range q hq
  unfold Proc.entered
  split
  · rename_i hidle
    simp only [hidle, reduceCtorEq, and_false, or_false] at hgen'
    omega
  · omega

/-- Processes of other teams do not matter. -/
theorem Inv.update_of_notMem (h : Inv team m proc) (hp : p ∉ team) :
    Inv team m (Function.update proc p x) := by
  have hq : ∀ q ∈ team, Function.update proc p x q = proc q := fun q hq =>
    Function.update_of_ne (ne_of_mem_of_not_mem hq hp) _ _
  have hw : waiting team m (Function.update proc p x) = waiting team m proc :=
    Finset.filter_congr fun q hmem => by rw [hq q hmem]
  have halone : ∀ q, Alone team m proc q → Alone team m (Function.update proc p x) q := by
    rintro q ⟨hmem, hgen, hall⟩
    exact ⟨hmem, by rw [hq q hmem]; exact hgen, fun r hr hne => by rw [hq r hr]; exact hall r hr hne⟩
  refine ⟨fun q hmem => by rw [hq q hmem]; exact h.range q hmem, ?_⟩
  obtain ⟨hpos, hstage, hcard⟩ | ⟨q, ha, hstage, hcnt⟩ | ⟨q, ha, hstage, hcnt⟩ := h.count
  · exact .inl ⟨hpos, fun q hmem => by rw [hq q hmem]; exact hstage q hmem, by rw [hw]; exact hcard⟩
  · exact .inr (.inl ⟨q, halone q ha, by rw [hq q ha.1]; exact hstage, hcnt⟩)
  · exact .inr (.inr ⟨q, halone q ha, by rw [hq q ha.1]; exact hstage, hcnt⟩)

omit [DecidableEq ι] in
/-- Only one process at a time is the last to come. -/
theorem Alone.eq_of_ne_wait (h : Alone team m proc q) (hp : p ∈ team)
    (hstage : (proc p).stage ≠ .wait) : p = q := by
  by_contra hne
  exact hstage (h.2.2 p hp hne).1

theorem inv_decrement (h : Inv team m proc) (hp : p ∈ team) (hidle : (proc p).stage = .idle) :
    Inv team { m with cnt := m.cnt - 1 } (Function.update proc p
      ((proc p).toStage (if m.cnt - 1 = 0 then .reset else .wait))) := by
  have hgen : (proc p).generation = m.gen := by
    have := h.range p hp
    simpa [hidle] using this
  obtain ⟨hpos, hstage, hcard⟩ | ⟨q, ha, hs, -⟩ | ⟨q, ha, hs, -⟩ := h.count
  · have hnot : p ∉ waiting team m proc := by simp [waiting, hidle]
    refine ⟨fun q hq => ?_, ?_⟩
    · rw [Function.update_apply]
      split
      · exact .inl hgen
      · exact h.range q hq
    · by_cases hz : m.cnt - 1 = 0
      · -- everybody else is waiting
        have hsub : waiting team m proc ⊆ team.erase p := fun q hq =>
          Finset.mem_erase.mpr ⟨ne_of_mem_of_not_mem hq hnot, (Finset.mem_filter.mp hq).1⟩
        have hall : waiting team m proc = team.erase p :=
          Finset.eq_of_subset_of_card_le hsub (by rw [Finset.card_erase_of_mem hp]; omega)
        refine .inr (.inl ⟨p, ⟨hp, ?_, fun q hq hne => ?_⟩, ?_, hz⟩)
        · rw [Function.update_self]
          exact hgen
        · rw [Function.update_of_ne hne]
          have hmem : q ∈ waiting team m proc := hall ▸ Finset.mem_erase.mpr ⟨hne, hq⟩
          exact (Finset.mem_filter.mp hmem).2
        · rw [Function.update_self, if_pos hz, Proc.toStage_stage]
      · refine .inl ⟨Nat.pos_of_ne_zero hz, fun q hq => ?_, ?_⟩
        · rw [Function.update_apply]
          split
          · exact .inr (by simp)
          · exact hstage q hq
        · have hins : waiting team { m with cnt := m.cnt - 1 } (Function.update proc p
              ((proc p).toStage (if m.cnt - 1 = 0 then .reset else .wait))) =
              insert p (waiting team m proc) := by
            ext q
            simp only [waiting, Finset.mem_filter, Finset.mem_insert, Function.update_apply]
            by_cases hne : q = p
            · subst hne
              simp [hp, hz, hgen]
            · simp [hne]
          rw [hins, Finset.card_insert_of_notMem hnot]
          simp only
          omega
  · rw [ha.eq_of_ne_wait hp (by simp [hidle])] at hidle
    exact absurd (hidle.symm.trans hs) (by decide)
  · rw [ha.eq_of_ne_wait hp (by simp [hidle])] at hidle
    exact absurd (hidle.symm.trans hs) (by decide)

theorem inv_reset (h : Inv team m proc) (hp : p ∈ team) (hreset : (proc p).stage = .reset) :
    Inv team { m with cnt := team.card }
      (Function.update proc p ((proc p).toStage .bump)) := by
  have halone : Alone team m proc p := by
    obtain ⟨-, hstage, -⟩ | ⟨q, ha, -, -⟩ | ⟨q, ha, -, -⟩ := h.count
    · have := hstage p hp
      simp [hreset] at this
    · obtain rfl := ha.eq_of_ne_wait hp (by simp [hreset])
      exact ha
    · obtain rfl := ha.eq_of_ne_wait hp (by simp [hreset])
      exact ha
  refine ⟨fun q hq => ?_, .inr (.inr ⟨p, ⟨hp, ?_, fun q hq hne => ?_⟩, ?_, rfl⟩)⟩
  · rw [Function.update_apply]
    split
    · exact .inl halone.2.1
    · exact h.range q hq
  · rw [Function.update_self]
    exact halone.2.1
  · rw [Function.update_of_ne hne]
    exact halone.2.2 q hq hne
  · rw [Function.update_self, Proc.toStage_stage]

theorem inv_bump (h : Inv team m proc) (hp : p ∈ team) (hbump : (proc p).stage = .bump) :
    Inv team { m with gen := m.gen + 1 }
      (Function.update proc p ((proc p).toStage .wait)) := by
  obtain ⟨-, hstage, -⟩ | ⟨q, ha, hs, -⟩ | ⟨q, ha, -, hcnt⟩ := h.count
  · have := hstage p hp
    simp [hbump] at this
  · obtain rfl := ha.eq_of_ne_wait hp (by simp [hbump])
    exact absurd (hbump.symm.trans hs) (by decide)
  · obtain rfl := ha.eq_of_ne_wait hp (by simp [hbump])
    have hall : ∀ q ∈ team, (Function.update proc p ((proc p).toStage .wait) q).stage =
        .wait ∧ (Function.update proc p ((proc p).toStage .wait) q).generation = m.gen := by
      intro q hq
      rw [Function.update_apply]
      split
      · exact ⟨rfl, ha.2.1⟩
      · rename_i hne
        exact ha.2.2 q hq hne
    refine ⟨fun q hq => .inr ⟨by rw [(hall q hq).2], (hall q hq).1⟩,
      .inl ⟨?_, fun q hq => .inr (hall q hq).1, ?_⟩⟩
    · simp only [hcnt]
      exact Finset.card_pos.mpr ⟨p, hp⟩
    · have hnone : waiting team { m with gen := m.gen + 1 }
          (Function.update proc p ((proc p).toStage .wait)) = ∅ := by
        refine Finset.filter_eq_empty_iff.mpr fun q hq hw => ?_
        have hsucc : _ = m.gen + 1 := hw.2
        rw [(hall q hq).2] at hsucc
        omega
      rw [hnone, Finset.card_empty]
      exact hcnt

/-- The moves inside the barrier keep the invariant. -/
theorem Inv.move (h : Inv team m proc) (hp : p ∈ team) (hm : Move team.card m (proc p) m' x) :
    Inv team m' (Function.update proc p x) := by
  cases hm with
  | decrement hstage => exact inv_decrement h hp hstage
  | reset hstage => exact inv_reset h hp hstage
  | bump hstage => exact inv_bump h hp hstage

theorem Inv.exit (h : Inv team m proc) (hp : p ∈ team) (hdone : (proc p).Done m) :
    Inv team m (Function.update proc p (proc p).exit) := by
  have hgen : (proc p).generation + 1 = m.gen := by
    obtain he | he := h.range p hp
    · exact absurd he.symm hdone.2
    · exact he.1
  obtain ⟨hpos, hstage, hcard⟩ | ⟨q, ha, hs, -⟩ | ⟨q, ha, hs, -⟩ := h.count
  · refine ⟨fun q hq => ?_, .inl ⟨hpos, fun q hq => ?_, ?_⟩⟩
    · rw [Function.update_apply]
      split
      · exact .inl hgen
      · exact h.range q hq
    · rw [Function.update_apply]
      split
      · exact .inl rfl
      · exact hstage q hq
    · have hsame : waiting team m (Function.update proc p (proc p).exit) = waiting team m proc := by
        refine Finset.filter_congr fun q hq => ?_
        by_cases hne : q = p
        · subst hne
          simp only [Function.update_self, Proc.exit, reduceCtorEq, false_and, false_iff]
          omega
        · rw [Function.update_of_ne hne]
      rw [hsame]
      exact hcard
  · by_cases hne : p = q
    · subst hne
      exact absurd (hdone.1.symm.trans hs) (by decide)
    · have := (ha.2.2 p hp hne).2
      omega
  · by_cases hne : p = q
    · subst hne
      exact absurd (hdone.1.symm.trans hs) (by decide)
    · have := (ha.2.2 p hp hne).2
      omega

end Gasnet.CentralBarrier
