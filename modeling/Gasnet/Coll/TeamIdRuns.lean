import Gasnet.Coll.TeamId
import Mathlib.Data.List.Nodup

/-! The map of a leader holds just the teams that are live, as long as ranks fit the bits above
it. -/
namespace Gasnet.Coll.TeamId

variable {N : Nat} {s u : State N} {p q : Fin N} {th : Nat} {t t' : Team N} {word w : Fin WORDS}
  {v : BitVec 32} {b i j low : Nat} {x : PC N} {a : Action N}

theorem ctzLoop_spec (fuel : Nat) (v : BitVec 32) (c : Nat) :
    ∃ k ≤ fuel, ctzLoop fuel v c = c + k ∧ (k < fuel → v.getLsbD k = true) ∧
      ∀ j < k, v.getLsbD j = false := by
  induction fuel generalizing v c with
  | zero => exact ⟨0, Nat.le_refl 0, rfl, fun h => absurd h (Nat.lt_irrefl 0), fun j hj => by omega⟩
  | succ fuel ih =>
    rw [ctzLoop]
    split
    · rename_i h
      exact ⟨0, Nat.zero_le _, rfl, fun _ => h, fun j hj => by omega⟩
    · rename_i h
      obtain ⟨k, hk, heq, hset, hlow⟩ := ih (v >>> 1) (c + 1)
      have hshift : ∀ j, (v >>> 1).getLsbD j = v.getLsbD (j + 1) := by
        intro j
        rw [BitVec.getLsbD_ushiftRight, Nat.add_comm]
      refine ⟨k + 1, by omega, by omega, fun hlt => ?_, fun j hj => ?_⟩
      · rw [← hshift]
        exact hset (by omega)
      · cases j with
        | zero => simpa using h
        | succ j =>
          rw [← hshift]
          exact hlow j (by omega)

/-- Without a zero bit the word is full. -/
theorem full_of_ctz (h : ctz (~~~v) = 32) (hb : b < 32) : v.getLsbD b = true := by
  have hbit : (~~~v).getLsbD b = false := by
    by_cases hz : ~~~v = 0
    · rw [hz]
      simp
    · rw [ctz, if_neg hz] at h
      obtain ⟨k, _, heq, _, hlow⟩ := ctzLoop_spec 32 (~~~v) 0
      exact hlow b (by omega)
  simpa [hb] using hbit

/-- Otherwise a bit is found that is not set. -/
theorem free_of_ctz (h : ctz (~~~v) ≠ 32) :
    ctz (~~~v) < 32 ∧ v.getLsbD (ctz (~~~v)) = false := by
  by_cases hz : ~~~v = 0
  · rw [ctz, if_pos hz] at h
    exact absurd rfl h
  · rw [ctz, if_neg hz] at h ⊢
    obtain ⟨k, hk, heq, hset, _⟩ := ctzLoop_spec 32 (~~~v) 0
    rw [heq, Nat.zero_add] at h ⊢
    have hlt : k < 32 := by omega
    have := hset hlt
    exact ⟨hlt, by simpa [hlt] using this⟩

theorem flip_getLsbD (hb : b < 32) (hj : j < 32) :
    (flip v b).getLsbD j = (v.getLsbD j ^^ decide (j = b)) := by
  have hone : (1#32 <<< b).getLsbD j = decide (j = b) := by
    rw [BitVec.getLsbD_shiftLeft, BitVec.getLsbD_one]
    by_cases h : j = b
    · simp [h, hb]
    · have : ¬(¬j < b ∧ j - b = 0) := by omega
      simp only [hj, h, decide_true, decide_false, Bool.true_and]
      by_cases hlt : j < b
      · simp [hlt]
      · have hne : ¬j - b = 0 := by omega
        simp [hlt, hne]
  rw [flip, BitVec.getLsbD_xor, hone]

/-- With at most `2 ^ 20` ranks the leader and the bit can be told from the identifier. -/
theorem toNat_id (hp : t.leader.val < 2 ^ 20) (hl : t.low < 2 ^ 12) :
    t.id.toNat = 2 ^ 12 * t.leader.val + t.low := by
  have hlow : (BitVec.ofNat 32 t.low).toNat = t.low := by
    rw [BitVec.toNat_ofNat, Nat.mod_eq_of_lt (by omega)]
  have hhigh : (BitVec.ofNat 32 t.leader.val <<< BITS).toNat = 2 ^ 12 * t.leader.val := by
    show (BitVec.ofNat 32 t.leader.val <<< 12).toNat = _
    rw [BitVec.toNat_shiftLeft, BitVec.toNat_ofNat, Nat.mod_eq_of_lt (by omega),
      Nat.shiftLeft_eq, Nat.mod_eq_of_lt (by omega), Nat.mul_comm]
  rw [Team.id, BitVec.toNat_or, hlow, hhigh, Nat.or_comm, ← Nat.two_pow_add_eq_or_of_lt hl]

theorem owner_id (hp : t.leader.val < 2 ^ 20) (hl : t.low < 2 ^ 12) : owner t.id = t.leader.val := by
  show (t.id >>> 12).toNat = _
  rw [BitVec.toNat_ushiftRight, toNat_id hp hl, Nat.shiftRight_eq_div_pow]
  omega

theorem lowBits_id (hp : t.leader.val < 2 ^ 20) (hl : t.low < 2 ^ 12) : lowBits t.id = t.low := by
  unfold lowBits
  rw [BitVec.toNat_and, toNat_id hp hl]
  show _ &&& (2 ^ 12 - 1) = _
  rw [Nat.and_two_pow_sub_one_eq_mod]
  omega

/-- The team of a bit. -/
def teamAt (p : Fin N) (w : Fin WORDS) (b : Nat) : Team N := ⟨p, b + w.val * 32⟩

theorem teamAt_inj {w' : Fin WORDS} {b' : Nat} (hb : b < 32) (hb' : b' < 32)
    (h : teamAt q w b = teamAt p w' b') : q = p ∧ w = w' ∧ b = b' := by
  obtain ⟨hq, hlow⟩ := Team.mk.injEq .. ▸ h
  exact ⟨hq, Fin.ext (by omega), by omega⟩

theorem teamAt_low (hl : t.low < COUNT) : teamAt t.leader (wordOf t.low) (bitOf t.low) = t := by
  have hdiv : t.low / 32 % WORDS = t.low / 32 := Nat.mod_eq_of_lt (by
    simp only [COUNT] at hl
    simp only [WORDS]
    omega)
  have hlow : bitOf t.low + (wordOf t.low).val * 32 = t.low := by
    show t.low % 32 + t.low / 32 % WORDS * 32 = t.low
    rw [hdiv]
    omega
  cases t
  exact congrArg (Team.mk _) hlow

structure Inv (s : State N) : Prop where
  bits : ∀ p w b, b < 32 → (((s.table p).map w).getLsbD b = true ↔
    (w.val = 0 ∧ b = 0) ∨ teamAt p w b ∈ s.live)
  nodup : s.live.Nodup
  low : ∀ t ∈ s.made, 0 < t.low ∧ t.low < COUNT
  made : ∀ t ∈ s.live, t ∈ s.made
  found : ∀ p th word v, s.pc p th = .cas word v → ctz (~~~v) ≠ 32
  clearing : ∀ p th t, Frees s p th t → t.leader = p ∧ t ∈ s.live
  once : ∀ p th th' t, Frees s p th t → Frees s p th' t → th = th'

theorem inv_initial (N : Nat) : Inv (initial N) where
  bits p w b hb := by
    have hlive : teamAt p w b ∉ (initial N).live := List.not_mem_nil
    have hmap : ((initial N).table p).map w = if w.val = 0 then 1 else 0 := rfl
    rw [hmap]
    by_cases hw : w.val = 0
    · rw [if_pos hw]
      have : (1 : BitVec 32).getLsbD b = decide (b = 0) := by
        show (1#32).getLsbD b = _
        rw [BitVec.getLsbD_one]
        simp
      rw [this]
      simp [hw, hlive]
    · rw [if_neg hw]
      simp [hw, hlive]
  nodup := List.nodup_nil
  low _ h := by cases h
  made _ h := by cases h
  found _ _ _ _ h := by cases h
  clearing _ _ _ h := by rcases h with h | ⟨_, h⟩ <;> cases h
  once _ _ _ _ h := by rcases h with h | ⟨_, h⟩ <;> cases h

theorem setPc_pc (s : State N) (p q : Fin N) (th th' : Nat) (x : PC N) :
    (s.setPc p th x).pc q th' = if q = p ∧ th' = th then x else s.pc q th' := by
  by_cases hq : q = p
  · subst hq
    simp only [State.setPc, Function.update_self, Function.update_apply, true_and]
  · simp only [State.setPc, Function.update_of_ne hq, hq, false_and, if_false]

/-- The thread that moves is in a place that fits, and the others stay. -/
structure PcOk (s : State N) (p : Fin N) (th : Nat) (x : PC N) : Prop where
  found : ∀ word v, x = .cas word v → ctz (~~~v) ≠ 32
  clearing : ∀ t, (x = .clear t ∨ ∃ v, x = .clearCas t v) → t.leader = p ∧ t ∈ s.live ∧
    ∀ th', th' ≠ th → ¬Frees s p th' t

theorem PcOk.of_other (hcas : ∀ word v, x ≠ .cas word v) (hclear : ∀ t, x ≠ .clear t)
    (hclearCas : ∀ t v, x ≠ .clearCas t v) : PcOk s p th x where
  found word v h := absurd h (hcas word v)
  clearing t h := by
    rcases h with h | ⟨v, h⟩
    · exact absurd h (hclear t)
    · exact absurd h (hclearCas t v)

theorem frees_setPc : Frees (s.setPc p th x) q i t ↔
    if q = p ∧ i = th then (x = .clear t ∨ ∃ v, x = .clearCas t v) else Frees s q i t := by
  unfold Frees
  simp only [setPc_pc]
  split <;> rfl

theorem inv_setPc (hs : Inv s) (hx : PcOk s p th x) : Inv (s.setPc p th x) where
  bits := hs.bits
  nodup := hs.nodup
  low := hs.low
  made := hs.made
  found q th' word v h := by
    rw [setPc_pc] at h
    split at h
    · exact hx.found word v h
    · exact hs.found q th' word v h
  clearing q th' t h := by
    rw [frees_setPc] at h
    split at h
    · rename_i heq
      obtain ⟨h₁, h₂, _⟩ := hx.clearing t h
      exact ⟨h₁.trans heq.1.symm, h₂⟩
    · exact hs.clearing q th' t h
  once q i j t h h' := by
    rw [frees_setPc] at h h'
    by_cases hi : q = p ∧ i = th
    · obtain ⟨rfl, rfl⟩ := hi
      rw [if_pos ⟨rfl, rfl⟩] at h
      by_contra hne
      rw [if_neg fun hj => hne hj.2.symm] at h'
      exact (hx.clearing t h).2.2 j (Ne.symm hne) h'
    · rw [if_neg hi] at h
      by_cases hj : q = p ∧ j = th
      · obtain ⟨rfl, rfl⟩ := hj
        rw [if_pos ⟨rfl, rfl⟩] at h'
        exact absurd h ((hx.clearing t h').2.2 i fun hij => hi ⟨rfl, hij⟩)
      · rw [if_neg hj] at h'
        exact hs.once q i j t h h'

theorem inv_setHint (hs : Inv s) (p : Fin N) (n : Nat) : Inv (s.setHint p n) where
  bits q w b hb := by
    by_cases hq : q = p
    · subst hq
      simpa [State.setHint] using hs.bits q w b hb
    · simpa [State.setHint, hq] using hs.bits q w b hb
  nodup := hs.nodup
  low := hs.low
  made := hs.made
  found := hs.found
  clearing := hs.clearing
  once := hs.once

theorem setWord_map : ((s.setWord p word v).table q).map w =
    if q = p ∧ w = word then v else (s.table q).map w := by
  by_cases hq : q = p
  · subst hq
    simp only [State.setWord, Function.update_self, Function.update_apply, true_and]
  · simp only [State.setWord, Function.update_of_ne hq, hq, false_and, if_false]

/-- To set a bit makes its team live. -/
theorem inv_allocate (hs : Inv s) (hpc : s.pc p th = .cas word v)
    (heq : (s.table p).map word = v) : Inv (s.allocate p th word v) := by
  obtain ⟨hlt, hzero⟩ := free_of_ctz (hs.found p th word v hpc)
  generalize hb : ctz (~~~v) = b at hlt hzero
  have hbit := hs.bits p word b hlt
  rw [heq, hzero] at hbit
  have hnew : ¬(word.val = 0 ∧ b = 0) ∧ teamAt p word b ∉ s.live := by
    constructor
    · exact fun h => absurd (hbit.mpr (Or.inl h)) (by decide)
    · exact fun h => absurd (hbit.mpr (Or.inr h)) (by decide)
  have hlive : (s.allocate p th word v).live = teamAt p word b :: s.live := by rw [← hb]; rfl
  have hmade : (s.allocate p th word v).made = teamAt p word b :: s.made := by rw [← hb]; rfl
  have hfrees : ∀ {q i t}, Frees (s.allocate p th word v) q i t → Frees s q i t := by
    intro q i t h
    change Frees (s.setPc p th _) q i t at h
    rw [frees_setPc] at h
    split at h
    · rcases h with h | ⟨_, h⟩ <;> cases h
    · exact h
  constructor
  case bits =>
    intro q w c hc
    have hmap : ((s.allocate p th word v).table q).map w =
        if q = p ∧ w = word then flip v b else (s.table q).map w := by
      rw [← hb]
      exact setWord_map
    rw [hlive, hmap, List.mem_cons]
    by_cases hqw : q = p ∧ w = word
    · obtain ⟨rfl, rfl⟩ := hqw
      rw [if_pos ⟨rfl, rfl⟩, flip_getLsbD hlt hc, ← heq]
      have hold := hs.bits q w c hc
      by_cases hcb : c = b
      · subst hcb
        rw [heq, hzero]
        simp
      · have hne : teamAt q w c ≠ teamAt q w b := fun h => hcb (teamAt_inj hc hlt h).2.2
        simp only [hcb, decide_false, Bool.xor_false, hold, hne, false_or]
    · rw [if_neg hqw, hs.bits q w c hc]
      have hne : teamAt q w c ≠ teamAt p word b := fun h =>
        hqw ⟨(teamAt_inj hc hlt h).1, (teamAt_inj hc hlt h).2.1⟩
      simp only [hne, false_or]
  case nodup =>
    rw [hlive]
    exact List.nodup_cons.mpr ⟨hnew.2, hs.nodup⟩
  case low =>
    intro t ht
    rw [hmade] at ht
    rcases List.mem_cons.mp ht with rfl | ht
    · have hw := word.isLt
      have := hnew.1
      simp only [teamAt, COUNT]
      simp only [WORDS] at hw
      omega
    · exact hs.low t ht
  case made =>
    intro t ht
    rw [hlive] at ht
    rw [hmade]
    rcases List.mem_cons.mp ht with rfl | ht
    · exact List.mem_cons_self
    · exact List.mem_cons_of_mem _ (hs.made t ht)
  case found =>
    intro q i word' v' h
    change (s.setPc p th _).pc q i = _ at h
    rw [setPc_pc] at h
    split at h
    · cases h
    · exact hs.found q i word' v' h
  case clearing =>
    intro q i t h
    obtain ⟨h₁, h₂⟩ := hs.clearing q i t (hfrees h)
    rw [hlive]
    exact ⟨h₁, List.mem_cons_of_mem _ h₂⟩
  case once => exact fun q i j t h h' => hs.once q i j t (hfrees h) (hfrees h')

/-- To clear the bit of a team is to take it out of the live ones, as its leader alone does. -/
theorem release_eq (hN : N ≤ 2 ^ 20) (hs : Inv s) (hpc : s.pc p th = .clearCas t v) :
    p = t.leader ∧ t ∈ s.live ∧ lowBits t.id = t.low ∧
      (s.release p th t v).live = s.live.erase t := by
  obtain ⟨hp, hlive⟩ := hs.clearing p th t (Or.inr ⟨v, hpc⟩)
  have hlt : t.leader.val < 2 ^ 20 := Nat.lt_of_lt_of_le t.leader.isLt hN
  refine ⟨hp.symm, hlive, lowBits_id hlt (hs.low t (hs.made t hlive)).2, ?_⟩
  show (if t.leader = p then s.live.erase t else s.live) = _
  rw [if_pos hp]

/-- The bit is cleared and no other. -/
theorem release_map (hN : N ≤ 2 ^ 20) (hs : Inv s) (hpc : s.pc p th = .clearCas t v)
    (heq : (s.table p).map (wordOf (lowBits t.id)) = v) (hb : b < 32) :
    (((s.release p th t v).table q).map w).getLsbD b =
      (((s.table q).map w).getLsbD b && decide (teamAt q w b ≠ t)) := by
  obtain ⟨hp, hlive, hlow, -⟩ := release_eq hN hs hpc
  have hcount := (hs.low t (hs.made t hlive)).2
  have hteam : teamAt p (wordOf t.low) (bitOf t.low) = t := by
    rw [hp]
    exact teamAt_low hcount
  have hbit : bitOf t.low < 32 := Nat.mod_lt _ (by decide)
  have hset : ((s.table p).map (wordOf t.low)).getLsbD (bitOf t.low) = true :=
    (hs.bits p _ _ hbit).mpr (Or.inr (hteam.symm ▸ hlive))
  have hmap : ((s.release p th t v).table q).map w =
      if q = p ∧ w = wordOf t.low then flip v (bitOf t.low) else (s.table q).map w := by
    rw [← hlow]
    exact setWord_map
  rw [hlow] at heq
  rw [hmap]
  by_cases hqw : q = p ∧ w = wordOf t.low
  · obtain ⟨rfl, rfl⟩ := hqw
    rw [if_pos ⟨rfl, rfl⟩, flip_getLsbD hbit hb, ← heq]
    by_cases hbb : b = bitOf t.low
    · subst hbb
      simp [hset, hteam]
    · have hne : teamAt q (wordOf t.low) b ≠ t := fun h =>
        hbb (teamAt_inj hb hbit (h.trans hteam.symm)).2.2
      simp [hbb, hne]
  · have hne : teamAt q w b ≠ t := by
      intro h
      obtain ⟨h₁, h₂, -⟩ := teamAt_inj hb hbit (h.trans hteam.symm)
      exact hqw ⟨h₁, h₂⟩
    rw [if_neg hqw]
    simp [hne]

theorem inv_release (hN : N ≤ 2 ^ 20) (hs : Inv s) (hpc : s.pc p th = .clearCas t v)
    (heq : (s.table p).map (wordOf (lowBits t.id)) = v) : Inv (s.release p th t v) := by
  obtain ⟨hp, hlive, -, hrest⟩ := release_eq hN hs hpc
  have hpos := (hs.low t (hs.made t hlive)).1
  have hmem : ∀ {t'}, t' ∈ (s.release p th t v).live ↔ t' ≠ t ∧ t' ∈ s.live := by
    intro t'
    rw [hrest]
    exact hs.nodup.mem_erase_iff
  -- the thread that clears is the only one that frees the team
  have hfrees : ∀ {q i t'}, Frees (s.release p th t v) q i t' → t' ≠ t ∧ Frees s q i t' := by
    intro q i t' h
    change Frees (s.setPc p th _) q i t' at h
    rw [frees_setPc] at h
    split at h
    · rcases h with h | ⟨_, h⟩ <;> cases h
    · rename_i hne
      refine ⟨?_, h⟩
      rintro rfl
      have hq : q = p := (hs.clearing q i t' h).1.symm.trans hp.symm
      subst hq
      exact hne ⟨rfl, hs.once q i th t' h (Or.inr ⟨v, hpc⟩)⟩
  constructor
  case bits =>
    intro q w b hb
    rw [release_map hN hs hpc heq hb, hmem, Bool.and_eq_true, hs.bits q w b hb, decide_eq_true_eq]
    have hzero : w.val = 0 ∧ b = 0 → teamAt q w b ≠ t := by
      rintro ⟨hw, rfl⟩ rfl
      simp only [teamAt, hw] at hpos
      omega
    constructor
    · rintro ⟨h | h, hne⟩
      · exact Or.inl h
      · exact Or.inr ⟨hne, h⟩
    · rintro (h | ⟨hne, h⟩)
      · exact ⟨Or.inl h, hzero h⟩
      · exact ⟨Or.inr h, hne⟩
  case nodup =>
    rw [hrest]
    exact hs.nodup.erase t
  case low => exact hs.low
  case made => exact fun t' h => hs.made t' (hmem.mp h).2
  case found =>
    intro q i word' v' h
    change (s.setPc p th _).pc q i = _ at h
    rw [setPc_pc] at h
    split at h
    · cases h
    · exact hs.found q i word' v' h
  case clearing =>
    intro q i t' h
    obtain ⟨hne, h⟩ := hfrees h
    obtain ⟨h₁, h₂⟩ := hs.clearing q i t' h
    exact ⟨h₁, hmem.mpr ⟨hne, h₂⟩⟩
  case once => exact fun q i j t' h h' => hs.once q i j t' (hfrees h).2 (hfrees h').2

theorem pcOk_of_frees (hs : Inv s) (h : Frees s p th t)
    (hx : x = .clear t ∨ ∃ v, x = .clearCas t v) : PcOk s p th x where
  found word v hc := by rcases hx with rfl | ⟨_, rfl⟩ <;> cases hc
  clearing t' ht' := by
    have heq : t' = t := by
      rcases hx with rfl | ⟨v, rfl⟩ <;> rcases ht' with ht' | ⟨_, ht'⟩ <;> cases ht' <;> rfl
    subst heq
    obtain ⟨h₁, h₂⟩ := hs.clearing p th t' h
    exact ⟨h₁, h₂, fun th' hne h' => hne (hs.once p th' th t' h' h)⟩

theorem inv_step (hN : N ≤ 2 ^ 20) (h : Step s a u) (hs : Inv s) : Inv u := by
  cases h with
  | alloc hpc => exact inv_setPc hs (.of_other nofun nofun nofun)
  | full hpc hi hbit => exact inv_setPc hs (.of_other nofun nofun nofun)
  | found hpc hi hbit =>
    refine inv_setPc hs ⟨?_, ?_⟩
    · rintro word v ⟨⟩
      exact hbit
    · rintro t (h | ⟨v, h⟩) <;> cases h
  | exhausted hpc => exact inv_setPc hs (.of_other nofun nofun nofun)
  | swap hpc heq => exact inv_allocate hs hpc heq
  | retry hpc => exact inv_setPc hs (.of_other nofun nofun nofun)
  | hint hpc => exact inv_setPc (inv_setHint hs _ _) (.of_other nofun nofun nofun)
  | freeOther hpc ht hp => exact hs
  | @free p th t hpc ht hlive hp =>
    have hleader : t.leader = p := by
      have hlt : t.leader.val < 2 ^ 20 := Nat.lt_of_lt_of_le t.leader.isLt hN
      exact Fin.ext (hp.trans (owner_id hlt (hs.low t ht).2)).symm
    obtain ⟨hmem, hnone⟩ := hlive hleader
    refine inv_setPc hs ⟨nofun, ?_⟩
    rintro t' (h | ⟨v, h⟩)
    · cases h
      exact ⟨hleader, hmem, fun th' _ => hnone th'⟩
    · cases h
  | clearRead hpc => exact inv_setPc hs (pcOk_of_frees hs (Or.inl hpc) (Or.inr ⟨_, rfl⟩))
  | clear hpc heq => exact inv_release hN hs hpc heq
  | clearRetry hpc => exact inv_setPc hs (pcOk_of_frees hs (Or.inr ⟨_, hpc⟩) (Or.inl rfl))
  | freeHint wrote hpc =>
    refine inv_setPc ?_ (.of_other nofun nofun nofun)
    cases wrote
    · exact hs
    · exact inv_setHint hs _ _

theorem inv_reachable (hN : N ≤ 2 ^ 20) (h : Reachable Step (initial N) s) : Inv s :=
  h.invariant (inv_step hN) (inv_initial N)

/-- The word `w` was read in a scan that has made `i` steps and is at `word`. -/
def Passed (word : Fin WORDS) (i : Nat) (w : Fin WORDS) : Prop :=
  ∃ k, 0 < k ∧ k ≤ i ∧ (w.val + k) % WORDS = word.val

/-- No bit is cleared in a word that a scan has passed. -/
def Calm (s : State N) : Action N → Prop
  | .clear p _ t => ∀ th word i, s.pc p th = .scan word i → ¬Passed word i (wordOf (lowBits t.id))
  | _ => True

def CalmStep (s : State N) (a : Action N) (u : State N) : Prop := Step s a u ∧ Calm s a

def Full (v : BitVec 32) : Prop := ∀ b < 32, v.getLsbD b = true

/-- What a scan has passed is full. -/
def Scanned (s : State N) : Prop :=
  ∀ p th word i, s.pc p th = .scan word i → ∀ w, Passed word i w → Full ((s.table p).map w)

theorem passed_zero (word w : Fin WORDS) : ¬Passed word 0 w := fun ⟨_, h, h', _⟩ => by omega

theorem passed_next (h : Passed (nextWord word) (i + 1) w) : w = word ∨ Passed word i w := by
  obtain ⟨k, hk, hki, heq⟩ := h
  have hw := w.isLt
  have hword := word.isLt
  simp only [nextWord, WORDS] at heq hw hword
  by_cases hone : k = 1
  · subst hone
    exact Or.inl (Fin.ext (by omega))
  · refine Or.inr ⟨k - 1, by omega, by omega, ?_⟩
    simp only [WORDS]
    omega

theorem passed_all (word w : Fin WORDS) : Passed word WORDS w := by
  have hw := w.isLt
  have hword := word.isLt
  simp only [WORDS] at hw hword
  by_cases h : w.val < word.val
  · refine ⟨word.val - w.val, by omega, ?_, ?_⟩ <;> simp only [WORDS] <;> omega
  · refine ⟨128 + word.val - w.val, by omega, ?_, ?_⟩ <;> simp only [WORDS] <;> omega

theorem scanned_initial (N : Nat) : Scanned (initial N) := fun _ _ _ _ h => by cases h

/-- A thread moves, and no word that a scan has passed loses a bit. -/
theorem scanned_setPc (hs : Scanned s)
    (hx : ∀ word i, x = .scan word i → ∀ w, Passed word i w → Full ((s.table p).map w)) :
    Scanned (s.setPc p th x) := by
  intro q th' word i h w hw
  rw [setPc_pc] at h
  split at h
  · rename_i heq
    obtain ⟨rfl, -⟩ := heq
    exact hx word i h w hw
  · exact hs q th' word i h w hw

theorem scanned_setHint (hs : Scanned s) (p : Fin N) (n : Nat) : Scanned (s.setHint p n) := by
  intro q th word i h w hw
  have := hs q th word i h w hw
  by_cases hq : q = p
  · subst hq
    simpa [State.setHint] using this
  · simpa [State.setHint, hq] using this

theorem scanned_setWord (hs : Scanned s)
    (hkeep : ∀ th w i, s.pc p th = .scan w i → Passed w i word → Full v) :
    Scanned (s.setWord p word v) := by
  intro q th word' i h w hw
  rw [setWord_map]
  split
  · rename_i heq
    obtain ⟨rfl, rfl⟩ := heq
    exact hkeep th word' i h hw
  · exact hs q th word' i h w hw

theorem scanned_step (h : CalmStep s a u) (hs : Inv s) (hscan : Scanned s) : Scanned u := by
  obtain ⟨h, hcalm⟩ := h
  cases h with
  | alloc hpc =>
    refine scanned_setPc hscan ?_
    rintro word i ⟨⟩ w hw
    exact absurd hw (passed_zero _ w)
  | @full p th word₀ i₀ hpc hi hbit =>
    refine scanned_setPc hscan ?_
    rintro word i ⟨⟩ w hw
    rcases passed_next hw with rfl | hw
    · exact fun b hb => full_of_ctz hbit hb
    · exact hscan p th word₀ i₀ hpc w hw
  | found hpc hi hbit => exact scanned_setPc hscan (fun _ _ h => by cases h)
  | exhausted hpc => exact scanned_setPc hscan (fun _ _ h => by cases h)
  | @swap p th word₀ v₀ hpc heq =>
    refine scanned_setPc (s := s.setWord p word₀ _) (scanned_setWord hscan ?_)
      (fun _ _ h => by cases h)
    -- a full word has no bit to give
    intro th' w i hpc' hw
    obtain ⟨hlt, hzero⟩ := free_of_ctz (hs.found p th word₀ v₀ hpc)
    have := hscan p th' w i hpc' word₀ hw _ hlt
    rw [heq, hzero] at this
    exact absurd this (by decide)
  | retry hpc =>
    refine scanned_setPc hscan ?_
    rintro word i ⟨⟩ w hw
    exact absurd hw (passed_zero _ w)
  | hint hpc => exact scanned_setPc (scanned_setHint hscan _ _) (fun _ _ h => by cases h)
  | freeOther hpc ht hp => exact hscan
  | free hpc ht hlive hp => exact scanned_setPc hscan (fun _ _ h => by cases h)
  | clearRead hpc => exact scanned_setPc hscan (fun _ _ h => by cases h)
  | @clear p th t v₀ hpc heq =>
    refine scanned_setPc (s := s.setWord p (wordOf (lowBits t.id)) _) (scanned_setWord hscan ?_)
      (fun _ _ h => by cases h)
    exact fun th' w i hpc' hw => absurd hw (hcalm th' w i hpc')
  | clearRetry hpc => exact scanned_setPc hscan (fun _ _ h => by cases h)
  | freeHint wrote hpc =>
    refine scanned_setPc ?_ (fun _ _ h => by cases h)
    cases wrote
    · exact hscan
    · exact scanned_setHint hscan _ _

/-- A scan without an end finds nothing when all identifiers of the leader are live. -/
theorem live_of_exhausted (hN : N ≤ 2 ^ 20) (h : Reachable CalmStep (initial N) s)
    (hpc : s.pc p th = .scan word WORDS) (hpos : 0 < low) (hlow : low < COUNT) :
    (⟨p, low⟩ : Team N) ∈ s.live := by
  obtain ⟨hs, hscan⟩ : Inv s ∧ Scanned s :=
    h.invariant (P := fun s => Inv s ∧ Scanned s)
      (fun h hs => ⟨inv_step hN h.1 hs.1, scanned_step h hs.1 hs.2⟩)
      ⟨inv_initial N, scanned_initial N⟩
  have hbit : bitOf low < 32 := Nat.mod_lt _ (by decide)
  have hfull := hscan p th word WORDS hpc (wordOf low) (passed_all word _) (bitOf low) hbit
  have hteam : teamAt p (wordOf low) (bitOf low) = ⟨p, low⟩ := teamAt_low (t := ⟨p, low⟩) hlow
  rcases (hs.bits p _ _ hbit).mp hfull with ⟨hw, hb⟩ | h
  · change low / 32 % 128 = 0 at hw
    change low % 32 = 0 at hb
    simp only [COUNT] at hlow
    omega
  · exact hteam ▸ h

/-- A process that has made no team can make its first, whatever the others do. -/
theorem exists_first (h : Reachable Step (initial N) s) (htable : s.table p = (initial N).table p)
    (hpc : s.pc p 0 = .idle) : ∃ u, Reachable Step (initial N) u ∧
      u.live = ⟨p, 1⟩ :: s.live ∧ (∀ q, q ≠ p → u.table q = s.table q) ∧
      ∀ q, q ≠ p → u.pc q = s.pc q := by
  have hctz : ctz (~~~(1 : BitVec 32)) = 1 := by decide
  let s₁ := s.setPc p 0 (.scan 0 0)
  let s₂ := s₁.setPc p 0 (.cas 0 1)
  have hpc₁ : s₁.pc p 0 = .scan 0 0 := by rw [setPc_pc, if_pos ⟨rfl, rfl⟩]
  have hpc₂ : s₂.pc p 0 = .cas 0 1 := by rw [setPc_pc, if_pos ⟨rfl, rfl⟩]
  have hword : (s.table p).map 0 = 1 := by rw [htable]; rfl
  have hstart : (s.table p).start = 0 := by rw [htable]; rfl
  have hstep₁ : Step s (.alloc p 0) s₁ := by
    have := Step.alloc hpc
    rwa [hstart] at this
  have hstep₂ : Step s₁ (.read p 0) s₂ := by
    have := Step.found hpc₁ (by decide) (show ctz (~~~(s.table p).map 0) ≠ 32 by
      rw [hword, hctz]
      decide)
    rwa [show (s₁.table p).map 0 = 1 from hword] at this
  have hstep₃ : Step s₂ (.swap p 0) (s₂.allocate p 0 0 1) := .swap hpc₂ hword
  refine ⟨_, ((h.snoc hstep₁).snoc hstep₂).snoc hstep₃, ?_, ?_, ?_⟩
  · show ⟨p, ctz (~~~(1 : BitVec 32)) + 0⟩ :: s.live = _
    rw [hctz]
  · exact fun q hq => Function.update_of_ne hq _ _
  · intro q hq
    show Function.update (Function.update (Function.update s.pc p _) p _) p _ q = _
    rw [Function.update_of_ne hq, Function.update_of_ne hq, Function.update_of_ne hq]

/-- From rank `2 ^ 20` on the upper bits of a leader are lost. -/
theorem exists_same_id (hN : 2 ^ 20 < N) : ∃ s, Reachable Step (initial N) s ∧
    ∃ t ∈ s.live, ∃ t' ∈ s.live, t ≠ t' ∧ t.id = t'.id := by
  let p : Fin N := ⟨0, by omega⟩
  let q : Fin N := ⟨2 ^ 20, hN⟩
  have hne : q ≠ p := fun h => absurd (show 2 ^ 20 = 0 from congrArg Fin.val h) (by decide)
  obtain ⟨s, hs, hlive, htable, hpc⟩ := exists_first (p := p) .refl rfl rfl
  obtain ⟨u, hu, hlive', -, -⟩ := exists_first (p := q) hs (htable q hne) (by rw [hpc q hne]; rfl)
  refine ⟨u, hu, ⟨p, 1⟩, ?_, ⟨q, 1⟩, ?_, ?_, ?_⟩
  · rw [hlive', hlive]
    exact List.mem_cons_of_mem _ List.mem_cons_self
  · rw [hlive']
    exact List.mem_cons_self
  · exact fun h => hne (congrArg Team.leader h).symm
  · show BitVec.ofNat 32 1 ||| (BitVec.ofNat 32 0 <<< BITS) =
      BitVec.ofNat 32 1 ||| (BitVec.ofNat 32 1048576 <<< BITS)
    decide

/-- No two live teams have one identifier, and none has 0. -/
def Unique (s : State N) : Prop :=
  s.live.Nodup ∧ (∀ t ∈ s.live, t.id ≠ 0) ∧ ∀ t ∈ s.live, ∀ t' ∈ s.live, t.id = t'.id → t = t'

/-- A step frees by the bit of a team at its leader, and changes nothing at another process. -/
def FreesExactly (s : State N) (a : Action N) (u : State N) : Prop :=
  (∀ p th t, a = .free p th t → p ≠ t.leader → u = s) ∧
  ∀ p th t, a = .clear p th t → p = t.leader ∧ t ∈ s.live ∧ t ∉ u.live ∧
    ∀ q w b, b < 32 → ((u.table q).map w).getLsbD b =
      (((s.table q).map w).getLsbD b && decide (teamAt q w b ≠ t))

/-- An allocation fails only when the leader has all its identifiers in use. -/
def FailsFull (s : State N) (a : Action N) : Prop :=
  ∀ p th, a = .exhausted p th → ∀ low, 0 < low → low < COUNT → (⟨p, low⟩ : Team N) ∈ s.live

theorem unique_of_inv (hN : N ≤ 2 ^ 20) (hs : Inv s) : Unique s := by
  have hid : ∀ t ∈ s.live, t.id.toNat = 2 ^ 12 * t.leader.val + t.low := fun t ht =>
    toNat_id (Nat.lt_of_lt_of_le t.leader.isLt hN) (hs.low t (hs.made t ht)).2
  refine ⟨hs.nodup, ?_, ?_⟩
  · intro t ht hzero
    have := hid t ht
    have hpos := (hs.low t (hs.made t ht)).1
    rw [hzero, show (0 : BitVec 32).toNat = 0 from rfl] at this
    omega
  · intro t ht t' ht' heq
    have hlow := (hs.low t (hs.made t ht)).2
    have hlow' := (hs.low t' (hs.made t' ht')).2
    have h := hid t ht
    rw [heq, hid t' ht'] at h
    simp only [COUNT] at hlow hlow'
    have h₁ : t.leader = t'.leader := Fin.ext (by omega)
    have h₂ : t.low = t'.low := by omega
    cases t
    cases t'
    exact congr (congrArg Team.mk h₁) h₂

theorem freesExactly_of_inv (hN : N ≤ 2 ^ 20) (hs : Inv s) (h : Step s a u) :
    FreesExactly s a u := by
  constructor
  · rintro p th t rfl hp
    cases h with
    | freeOther hpc ht hne => rfl
    | free hpc ht hlive heq =>
      have hlt : t.leader.val < 2 ^ 20 := Nat.lt_of_lt_of_le t.leader.isLt hN
      exact absurd (Fin.ext (heq.trans (owner_id hlt (hs.low t ht).2))) hp
  · rintro p th t rfl
    cases h with
    | clear hpc heq =>
      obtain ⟨hp, hlive, -, hrest⟩ := release_eq hN hs hpc
      refine ⟨hp, hlive, ?_, fun q w b hb => release_map hN hs hpc heq hb⟩
      rw [hrest, hs.nodup.mem_erase_iff]
      exact fun h => h.1 rfl

/-- As long as ranks fit 20 bits the identifiers of live teams differ in every run, and an
allocation fails only for want of one unless a bit was cleared behind its scan. With more ranks
two leaders can hand out one identifier. -/
theorem team_ids (N : Nat) :
    (N ≤ 2 ^ 20 → ∀ s, Reachable Step (initial N) s → Unique s ∧
      ∀ a u, Step s a u → FreesExactly s a u) ∧
    (N ≤ 2 ^ 20 → ∀ s, Reachable CalmStep (initial N) s → ∀ a u, CalmStep s a u →
      FailsFull s a) ∧
    (2 ^ 20 < N → ∃ s, Reachable Step (initial N) s ∧ ¬Unique s) := by
  refine ⟨fun hN s hs => ?_, fun hN s hs a u h => ?_, fun hN => ?_⟩
  · have hinv := inv_reachable hN hs
    exact ⟨unique_of_inv hN hinv, fun a u h => freesExactly_of_inv hN hinv h⟩
  · rintro p th rfl low hpos hlow
    cases h.1 with
    | exhausted hpc => exact live_of_exhausted hN hs hpc hpos hlow
  · obtain ⟨s, hs, t, ht, t', ht', hne, heq⟩ := exists_same_id hN
    exact ⟨s, hs, fun h => hne (h.2.2 t ht t' ht' heq)⟩

theorem team_ids_two : ∃ s : State 2, s.live = [⟨0, 1⟩] ∧
    (Unique s ∧ ∀ a u, Step s a u → FreesExactly s a u) ∧
    FailsFull (initial 2) (.alloc 0 0) ∧
    ∃ s, Reachable Step (initial (2 ^ 20 + 1)) s ∧ ¬Unique s := by
  obtain ⟨s, hs, hlive, -, -⟩ := exists_first (p := (0 : Fin 2)) .refl rfl rfl
  exact ⟨s, hlive, (team_ids 2).1 (by decide) s hs,
    (team_ids 2).2.1 (by decide) (initial 2) .refl (.alloc 0 0) _ ⟨.alloc rfl, trivial⟩,
    (team_ids (2 ^ 20 + 1)).2.2 (by decide)⟩

/-- Ranks 0 and `2 ^ 20` of a job hand out one identifier. -/
theorem not_unique : ∃ s, Reachable Step (initial (2 ^ 20 + 1)) s ∧ ¬Unique s := by
  obtain ⟨s, hs, t, ht, t', ht', hne, heq⟩ := exists_same_id (N := 2 ^ 20 + 1) (by decide)
  exact ⟨s, hs, fun h => hne (h.2.2 t ht t' ht' heq)⟩

end Gasnet.Coll.TeamId
