import Gasnet.Foundation.ExchangeSteps

/-! The steps of an exchange after its beginning. -/
namespace Gasnet.Exchange

open Dissemination

variable {N : Nat} {σ W β : Type} {p : Program N σ W β} {C : Course N σ W β} {K : Nat}
  {s u : System N σ W β} {x y : Rank σ β} {r q : Fin N} {k t n i : Nat} {b : Buffer β}
  {P : Plan W β}

theorem sum_fragGain (l : List (Fragment W)) :
    ∑ i ∈ Finset.range l.length, fragGain p l i = (l.map fun f => p.gain f.length).sum := by
  induction l with
  | nil => rfl
  | cons f l ih =>
    rw [List.length_cons, Finset.sum_range_succ', List.map_cons, List.sum_cons, ← ih, add_comm]
    rfl

theorem counted_le (hC : C.Sound p K) (hk : k < K) (ht : t < p.steps) :
    s.counted p C r k t ≤ (C.plan k r).expect t := by
  rw [hC.expect k r t hk ht, ← sum_fragGain]
  apply Finset.sum_le_sum
  intro i _
  split
  · exact Nat.le_refl _
  · exact Nat.zero_le _

/-- The counter is full only when each message has come. -/
theorem counted_eq (hC : C.Sound p K) (hk : k < K) (ht : t < p.steps) :
    s.counted p C r k t = (C.plan k r).expect t ↔
      ∀ i < ((C.plan k (fwd r t)).frags t).length, s.Delivered C r k t i := by
  rw [hC.expect k r t hk ht, ← sum_fragGain]
  constructor
  · intro h i hi
    by_contra hnot
    apply absurd h (Nat.ne_of_lt _)
    apply Finset.sum_lt_sum
    · intro i _
      split
      · exact Nat.le_refl _
      · exact Nat.zero_le _
    · refine ⟨i, Finset.mem_range.mpr hi, ?_⟩
      rw [if_neg hnot, fragGain, List.getElem?_eq_getElem hi]
      exact hC.gain _
  · intro h
    exact Finset.sum_congr rfl fun i hi => if_pos (h i (Finset.mem_range.mp hi))

/-- At the end of a wait the counter says what was sent, and nothing else has come. -/
theorem Inv.waited (hC : C.Sound p K) (hs : Inv p C K s) (hp : (s.rank r).place = some (t, n))
    (hP : p.plan r (s.rank r).control = some P) (ht : t < p.steps) :
    (s.rank r).rcvd (s.rank r).phase t = s.counted p C r (s.rank r).op t ∧
      (p.ready ((s.rank r).rcvd (s.rank r).phase t) (P.expect t) = true ↔
        ∀ i < ((C.plan (s.rank r).op (fwd r t)).frags t).length,
          s.Delivered C r (s.rank r).op t i) := by
  obtain ⟨hk, rfl⟩ := hs.lt_of_plan hC hP
  have hr := hs.onCourse r
  have hncons : ¬(s.rank r).Consumed (s.rank r).op t := by
    rintro (h | ⟨_, t', n', h, hlt⟩)
    · exact absurd h (Nat.lt_irrefl _)
    · rw [hp] at h
      obtain ⟨rfl, _⟩ := Prod.mk.inj (Option.some.inj h)
      exact absurd hlt (Nat.lt_irrefl _)
  have hcount := hs.counter r _ t ht hncons (Nat.le_succ _)
  rw [← hr.phase] at hcount
  refine ⟨hcount, ?_⟩
  rw [hcount, hC.ready _ _ (counted_le hC hk ht), counted_eq hC hk ht]

theorem inv_pass (hC : C.Sound p K) (hs : Inv p C K s) (hp : (s.rank r).place = some (t, n))
    (hP : p.plan r (s.rank r).control = some P) (ht : t < p.steps) (hn : n = (P.frags t).length)
    (hready : p.ready ((s.rank r).rcvd (s.rank r).phase t) (P.expect t) = true) :
    Inv p C K (s.set r
      { (s.rank r).setRcvd (s.rank r).phase t 0 with place := some (t + 1, 0) }) := by
  have hr := hs.onCourse r
  have hall := (hs.waited hC hp hP ht).2.mp hready
  obtain ⟨hk, rfl⟩ := hs.lt_of_plan hC hP
  have hcons : ∀ k t', Rank.Consumed
      { (s.rank r).setRcvd (s.rank r).phase t 0 with place := some (t + 1, 0) } k t' ↔
      (s.rank r).Consumed k t' ∨ k = (s.rank r).op ∧ t' = t := by
    intro k t'
    simp only [Rank.Consumed, hp, Rank.op, Rank.setRcvd, Option.some.injEq, Prod.mk.injEq]
    constructor
    · rintro (h | ⟨h, _, _, ⟨rfl, rfl⟩, hlt⟩)
      · exact Or.inl (Or.inl h)
      · by_cases heq : t' = t
        · exact Or.inr ⟨h, heq⟩
        · exact Or.inl (Or.inr ⟨h, t, n, ⟨rfl, rfl⟩, by omega⟩)
    · rintro ((h | ⟨h, _, _, ⟨rfl, rfl⟩, hlt⟩) | ⟨h, rfl⟩)
      · exact Or.inl h
      · exact Or.inr ⟨h, t + 1, 0, ⟨rfl, rfl⟩, by omega⟩
      · exact Or.inr ⟨h, t' + 1, 0, ⟨rfl, rfl⟩, by omega⟩
  apply inv_local hs
  case hy =>
    refine ⟨hr.op_le, hr.results, hr.control, hr.phase, fun t₁ n₁ h => ?_, fun t₁ n₁ t' h hlt => ?_⟩
    · obtain ⟨rfl, rfl⟩ := Prod.mk.inj (Option.some.inj h)
      exact ⟨hk, ht, Nat.zero_le _, fun _ => rfl⟩
    · obtain ⟨rfl, rfl⟩ := Prod.mk.inj (Option.some.inj h)
      show ((s.rank r).setRcvd (s.rank r).phase t 0).rcvd (s.rank r).phase t' = 0
      rw [Rank.setRcvd_rcvd]
      split
      · rfl
      · rename_i heq
        exact hr.reset t n t' hp (by
          have : t' ≠ t := fun h => heq ⟨rfl, h⟩
          omega)
  case hsent =>
    intro k t' _
    rw [Rank.sent_at hp, Rank.sent_at rfl]
    show (if k < (s.rank r).op then _ else if k = (s.rank r).op then _ else _) = _
    split_ifs <;> try omega
    subst_vars
    rfl
  case hent => exact fun k h => h.imp id fun h => ⟨h.1, by simp⟩
  case hpast => exact fun j k hk => hs.past r j k hk
  case hheard =>
    intro j t₁ n₁ h hh
    obtain ⟨rfl, rfl⟩ := Prod.mk.inj (Option.some.inj h)
    right
    rcases hears_succ_fwd hh with hh | hh
    · exact hs.heard r j t n hp hh
    · -- the sender of this step has told what it knew
      have hpos : 0 < ((C.plan (s.rank r).op (fwd r t)).frags t).length :=
        List.length_pos_iff.mpr (hC.nonempty _ _ _ hk ht)
      have hsent : 0 < s.sentTo C r (s.rank r).op t := lt_of_le_of_lt (Nat.zero_le _) (hall 0 hpos).1
      unfold System.sentTo Rank.sent at hsent
      split at hsent
      · exact hs.past _ j _ ‹_›
      · split at hsent
        · rename_i heq
          cases hpq : (s.rank (fwd r t)).place with
          | none =>
            rw [hpq] at hsent
            exact absurd hsent (Nat.lt_irrefl _)
          | some tn =>
            obtain ⟨t₂, n₂⟩ := tn
            rw [hpq] at hsent
            dsimp only at hsent
            have hle : t ≤ t₂ := by
              by_contra hgt
              rw [if_neg (by omega), if_neg (by omega)] at hsent
              exact absurd hsent (Nat.lt_irrefl _)
            have := hs.heard _ j t₂ n₂ hpq (hears_mono hle hh)
            rwa [← heq] at this
        · exact absurd hsent (Nat.lt_irrefl _)
  case hahead =>
    rintro m hm rfl
    rw [hcons]
    have hu := hs.underway m hm
    rintro (h | ⟨h₁, h₂⟩)
    · exact hu.ahead h
    · obtain ⟨f, hf, _⟩ := hu.frag
      have hlt : m.index < ((C.plan m.op (fwd m.target m.step)).frags m.step).length :=
        (List.getElem?_eq_some_iff.mp hf).1
      rw [h₁, h₂] at hlt
      exact (hall m.index hlt).2 (mem_tags.mpr ⟨m, hm, rfl, h₁, h₂, rfl⟩)
  case hcounter =>
    intro k t' ht' hc hle
    rw [hcons, not_or] at hc
    have hold := hs.counter r k t' ht' hc.1 hle
    rw [← hold]
    show ((s.rank r).setRcvd (s.rank r).phase t 0).rcvd (parity k) t' = _
    rw [Rank.setRcvd_rcvd, if_neg]
    rintro ⟨hph, rfl⟩
    have hkop : k = (s.rank r).op + 1 := by
      have : ¬k < (s.rank r).op := fun h => hc.1 (Or.inl h)
      have : k ≠ (s.rank r).op := fun h => hc.2 ⟨h, rfl⟩
      have : k ≤ (s.rank r).op + 1 := hle
      omega
    rw [hkop, hr.phase] at hph
    exact parity_succ_ne _ hph
  case hcomplete =>
    intro k t' ht' hc
    rw [hcons] at hc
    rcases hc with hc | ⟨rfl, rfl⟩
    · exact hs.complete r k t' ht' hc
    · apply Nat.le_antisymm (hs.onCourse _).sent_le
      by_contra hlt
      exact absurd (hall _ (Nat.not_le.mp hlt)).1 (Nat.lt_irrefl _)
  case hmemory =>
    intro k hk
    exact (hs.memory r k hk).congr rfl
      (or_congr Iff.rfl (and_congr Iff.rfl (by simp [hp]))) fun _ _ _ => Iff.rfl

theorem inv_finish (hC : C.Sound p K) (hs : Inv p C K s)
    (hp : (s.rank r).place = some (p.steps, n)) (hP : p.plan r (s.rank r).control = some P)
    (hb : (s.rank r).data (s.rank r).phase = some b) :
    b.read 0 P.size = C.full (s.rank r).op r ∧
    Inv p C K (s.set r
      { (s.rank r).setData (s.rank r).phase none with
        control := p.next r (s.rank r).control (b.read 0 P.size)
        phase := !(s.rank r).phase
        place := none
        results := (s.rank r).results ++ [b.read 0 P.size] }) := by
  have hr := hs.onCourse r
  obtain ⟨hk, rfl⟩ := hs.lt_of_plan hC hP
  obtain ⟨hsize, hknown⟩ := hs.known hC hp hb
  rw [hC.whole _ _ hk] at hknown
  have hread : b.read 0 (C.plan (s.rank r).op r).size = C.full (s.rank r).op r := by
    rw [hC.size _ _ hk, read_eq fun i hi => hknown i (by omega), List.drop_zero, List.take_length]
  refine ⟨hread, ?_⟩
  rw [hread]
  let y : Rank σ β :=
    { (s.rank r).setData (s.rank r).phase none with
      control := p.next r (s.rank r).control (C.full (s.rank r).op r)
      phase := !(s.rank r).phase
      place := none
      results := (s.rank r).results ++ [C.full (s.rank r).op r] }
  have hop : y.op = (s.rank r).op + 1 := by
    show ((s.rank r).results ++ _).length = _
    rw [List.length_append, List.length_singleton, Rank.op]
  have hcons : ∀ k t, t < p.steps → (y.Consumed k t ↔ (s.rank r).Consumed k t ∨ k < y.op) := by
    intro k t ht
    constructor
    · rintro (h | ⟨_, _, _, h, _⟩)
      · exact Or.inr h
      · cases h
    · rintro (h | h)
      · rcases h with h | ⟨h, _⟩
        · exact Or.inl (by omega)
        · exact Or.inl (by omega)
      · exact Or.inl h
  have hdone : ∀ k t, t < p.steps → k < y.op → (s.rank r).Consumed k t := by
    intro k t ht hlt
    by_cases h : k < (s.rank r).op
    · exact Or.inl h
    · exact Or.inr ⟨by omega, p.steps, n, hp, ht⟩
  show Inv p C K (s.set r y)
  apply inv_local hs
  case hy =>
    have hout : y.place = none := rfl
    refine ⟨by omega, ?_, ?_, ?_, fun t n h => ?_, fun t n t' h => ?_⟩
    · rw [hop, List.range_succ, List.map_append, ← hr.results]
      rfl
    · rw [hop, hC.next _ _ hk, ← hr.control]
    · rw [hop, parity_succ, ← hr.phase]
    · rw [hout] at h
      cases h
    · rw [hout] at h
      cases h
  case hsent =>
    intro k t ht
    rw [Rank.sent_out (x := y) rfl, Rank.sent_at hp, hop]
    split_ifs <;> omega
  case hent =>
    rintro k (h | ⟨h, _⟩)
    · exact Or.inl (by omega)
    · exact Or.inl (by omega)
  case hpast =>
    intro j k hlt
    by_cases h : k < (s.rank r).op
    · exact hs.past r j k h
    · obtain rfl : k = (s.rank r).op := by omega
      exact hs.heard r j _ _ hp (hears_all hC.steps j r)
  case hheard => exact fun j t n h => by cases h
  case hahead =>
    rintro m hm rfl hc
    have hu := hs.underway m hm
    rcases (hcons _ _ hu.step).mp hc with h | h
    · exact hu.ahead h
    · exact hu.ahead (hdone _ _ hu.step h)
  case hcounter =>
    intro k t ht hc hle
    rw [hcons k t ht, not_or] at hc
    show (s.rank r).rcvd (parity k) t = _
    by_cases hk' : k = (s.rank r).op + 1
    · exact hs.counter r k t ht hc.1 (by omega)
    · -- two exchanges ahead, where nobody is
      have hkop : k = (s.rank r).op + 2 := by have := hc.2; omega
      rw [hkop, parity_add_two, ← hr.phase, hr.reset _ _ t hp ht]
      symm
      apply Finset.sum_eq_zero
      intro i _
      apply if_neg
      rintro ⟨h, _⟩
      have := hs.sent_le_succ (lt_of_le_of_lt (Nat.zero_le _) h)
      omega
  case hcomplete =>
    intro k t ht hc
    rcases (hcons k t ht).mp hc with h | h
    · exact hs.complete r k t ht h
    · exact hs.complete r k t ht (hdone k t ht h)
  case hmemory =>
    have hdata : ∀ ph, y.data ph = if ph = (s.rank r).phase then none else (s.rank r).data ph :=
      fun ph => Rank.setData_data _ _ _ _
    have hnot : ∀ k, y.op ≤ k → ¬y.Entered k := by
      rintro k hle (h | ⟨_, h⟩)
      · omega
      · exact h rfl
    rintro k (rfl | rfl)
    · have hnot' : ¬(s.rank r).Entered y.op := by
        rintro (h | ⟨h, _⟩) <;> omega
      refine (hs.memory r (y.op) (Or.inr hop)).congr ?_
        (iff_of_false (hnot _ (Nat.le_refl _)) hnot') fun _ _ _ => Iff.rfl
      rw [hdata, if_neg]
      rw [hop, hr.phase]
      exact parity_succ_ne _
    · unfold Memory
      rw [hdata, hop, parity_add_two, ← hr.phase, if_pos rfl]
      rintro (he | ⟨t, i, _, hdel⟩)
      · exact hnot _ (by omega) he
      have := hs.sent_le_succ (lt_of_le_of_lt (Nat.zero_le _) hdel.1)
      omega

theorem fwd_peer (hC : C.Sound p K) (ht : t < p.steps) (q : Fin N) : fwd (p.peer q t) t = q := by
  obtain ⟨r, rfl⟩ := fwd_surjective t q
  rw [hC.peer r t ht]

theorem inv_send {f : Fragment W} (hC : C.Sound p K) (hs : Inv p C K s)
    (hp : (s.rank r).place = some (t, n)) (hP : p.plan r (s.rank r).control = some P)
    (ht : t < p.steps) (hf : (P.frags t)[n]? = some f)
    (hb : (s.rank r).data (s.rank r).phase = some b) :
    Inv p C K
      { s.set r { s.rank r with place := some (t, n + 1) } with
        net := ⟨p.peer r t, f.wire, b.read f.start f.length, (s.rank r).results.length, t, n⟩ ::
          s.net } := by
  have hr := hs.onCourse r
  obtain ⟨hk, rfl⟩ := hs.lt_of_plan hC hP
  obtain ⟨hsize, hknown⟩ := hs.known hC hp hb
  have hpeer := fwd_peer hC ht r
  obtain ⟨hn, hfn⟩ := List.getElem?_eq_some_iff.mp hf
  let m : Message N W β :=
    ⟨p.peer r t, f.wire, b.read f.start f.length, (s.rank r).op, t, n⟩
  let y : Rank σ β := { s.rank r with place := some (t, n + 1) }
  let u : System N σ W β := { s.set r y with net := m :: s.net }
  show Inv p C K u
  have hrank : ∀ q, u.rank q = (s.set r y).rank q := fun _ => rfl
  have hent : ∀ j k, (u.rank j).Entered k ↔ (s.rank j).Entered k := by
    intro j k
    rw [hrank]
    by_cases hj : j = r
    · rw [hj, set_self]
      simp [Rank.Entered, y, hp, Rank.op]
    · rw [set_of_ne y hj]
  have hcons : ∀ j k t', (u.rank j).Consumed k t' ↔ (s.rank j).Consumed k t' := by
    intro j k t'
    rw [hrank]
    by_cases hj : j = r
    · rw [hj, set_self]
      simp [Rank.Consumed, y, hp, Rank.op]
    · rw [set_of_ne y hj]
  have hop : ∀ j, (u.rank j).op = (s.rank j).op := by
    intro j
    rw [hrank]
    by_cases hj : j = r
    · rw [hj, set_self]
      rfl
    · rw [set_of_ne y hj]
  have hold : (s.rank r).sent C r (s.rank r).op t = n := by
    simp [Rank.sent, hp]
  have hnew : (u.rank r).sent C r (s.rank r).op t = n + 1 := by
    rw [hrank, set_self]
    simp [Rank.sent, y, Rank.op]
  have hsame : ∀ q k t', ¬(fwd q t' = r ∧ k = (s.rank r).op ∧ t' = t) →
      u.sentTo C q k t' = s.sentTo C q k t' := by
    intro q k t' hne
    unfold System.sentTo
    rw [hrank]
    by_cases hq : fwd q t' = r
    · rw [hq, set_self]
      rw [Rank.sent_at hp, Rank.sent_at rfl]
      show (if k < (s.rank r).op then _ else if k = (s.rank r).op then _ else _) = _
      have : ¬(k = (s.rank r).op ∧ t' = t) := fun h => hne ⟨hq, h⟩
      split_ifs <;> omega
    · rw [set_of_ne y hq]
  have htags : ∀ x, x ∈ u.tags ↔ x = (p.peer r t, (s.rank r).op, t, n) ∨ x ∈ s.tags := by
    intro x
    exact List.mem_cons
  have htarget : ∀ q, fwd q t = r ↔ q = p.peer r t :=
    fun q => ⟨fun h => fwd_injective t (h.trans hpeer.symm), fun h => h ▸ hpeer⟩
  have hdel : ∀ q k t' i, u.Delivered C q k t' i ↔ s.Delivered C q k t' i := by
    intro q k t' i
    unfold System.Delivered
    rw [htags, not_or]
    by_cases heq : fwd q t' = r ∧ k = (s.rank r).op ∧ t' = t
    · obtain ⟨hq, rfl, rfl⟩ := heq
      obtain rfl := (htarget q).mp hq
      unfold System.sentTo
      rw [hpeer, hnew, hold]
      simp only [Prod.mk.injEq, true_and]
      constructor
      · rintro ⟨h₁, h₂, h₃⟩
        exact ⟨by omega, h₃⟩
      · rintro ⟨h₁, h₂⟩
        exact ⟨by omega, by omega, h₂⟩
    · rw [hsame q k t' heq]
      refine and_congr Iff.rfl (and_iff_right ?_)
      intro h
      simp only [Prod.mk.injEq] at h
      obtain ⟨rfl, rfl, rfl, _⟩ := h
      exact heq ⟨hpeer, rfl, rfl⟩
  have hmono : ∀ q k t', s.sentTo C q k t' ≤ u.sentTo C q k t' := by
    intro q k t'
    by_cases heq : fwd q t' = r ∧ k = (s.rank r).op ∧ t' = t
    · obtain ⟨hq, rfl, rfl⟩ := heq
      unfold System.sentTo
      rw [hq, hnew, hold]
      exact Nat.le_succ n
    · exact (hsame q k t' heq).ge
  have hfresh : (p.peer r t, (s.rank r).op, t, n) ∉ s.tags := by
    intro hmem
    obtain ⟨m', hm', h₁, h₂, h₃, h₄⟩ := mem_tags.mp hmem
    have hlt := (hs.underway m' hm').sent
    unfold System.sentTo at hlt
    rw [h₁, h₂, h₃, h₄, hpeer, hold] at hlt
    exact Nat.lt_irrefl _ hlt
  have hread : b.read f.start f.length =
      ((C.full (s.rank r).op r).drop f.start).take f.length := by
    have hle := (hC.frag _ (p.peer r t) t f hk ht (hpeer.symm ▸ List.mem_of_getElem? hf)).1
    rw [hpeer] at hle
    exact read_eq fun i hi => hknown i (by omega)
  constructor
  case alive => exact hs.alive
  case onCourse =>
    intro q
    rw [hrank]
    by_cases hq : q = r
    · rw [hq, set_self]
      refine ⟨hr.op_le, hr.results, hr.control, hr.phase, fun t₁ n₁ h => ?_,
        fun t₁ n₁ t' h hlt => ?_⟩
      · obtain ⟨rfl, rfl⟩ := Prod.mk.inj (Option.some.inj h)
        exact ⟨hk, ht.le, hn, fun heq => absurd ht (by omega)⟩
      · obtain ⟨rfl, rfl⟩ := Prod.mk.inj (Option.some.inj h)
        exact hr.reset t n t' hp hlt
    · rw [set_of_ne y hq]
      exact hs.onCourse q
  case past =>
    intro q j k h
    rw [hop] at h
    exact (hent j k).mpr (hs.past q j k h)
  case heard =>
    intro q j t' n' h hh
    rw [hop, hent]
    rw [hrank] at h
    by_cases hq : q = r
    · rw [hq, set_self] at h
      obtain ⟨rfl, _⟩ := Prod.mk.inj (Option.some.inj h)
      rw [hq]
      exact hs.heard r j t n hp (hq ▸ hh)
    · rw [set_of_ne y hq] at h
      exact hs.heard q j t' n' h hh
  case underway =>
    intro m' hm'
    rcases List.mem_cons.mp hm' with rfl | hm'
    · refine ⟨ht, fun hc => ?_, ?_, f, ?_, rfl, ?_⟩
      · have hall := hs.complete _ _ t ht ((hcons (p.peer r t) (s.rank r).op t).mp hc)
        unfold System.sentTo at hall
        rw [hpeer, hold] at hall
        omega
      · show n < u.sentTo C (p.peer r t) (s.rank r).op t
        unfold System.sentTo
        rw [hpeer, hnew]
        exact Nat.lt_succ_self n
      · show ((C.plan (s.rank r).op (fwd (p.peer r t) t)).frags t)[n]? = some f
        rwa [hpeer]
      · show b.read f.start f.length =
          ((C.full (s.rank r).op (fwd (p.peer r t) t)).drop f.start).take f.length
        rw [hpeer, hread]
    · have hu := hs.underway m' hm'
      exact ⟨hu.step, fun hc => hu.ahead ((hcons _ _ _).mp hc),
        lt_of_lt_of_le hu.sent (hmono _ _ _), hu.frag⟩
  case nodup => exact List.nodup_cons.mpr ⟨hfresh, hs.nodup⟩
  case counter =>
    intro q k t' ht' hc hle
    rw [hcons] at hc
    rw [hop] at hle
    have hcount : u.counted p C q k t' = s.counted p C q k t' :=
      Finset.sum_congr rfl fun i _ => if_congr (hdel q k t' i) rfl rfl
    rw [hcount, ← hs.counter q k t' ht' hc hle, hrank]
    by_cases hq : q = r
    · rw [hq, set_self]
    · rw [set_of_ne y hq]
  case complete =>
    intro q k t' ht' hc
    have hold' := hs.complete q k t' ht' ((hcons q k t').mp hc)
    by_cases heq : fwd q t' = r ∧ k = (s.rank r).op ∧ t' = t
    · -- its target could not have gone on
      obtain ⟨hq, rfl, rfl⟩ := heq
      unfold System.sentTo at hold'
      rw [hq, hold] at hold'
      omega
    · rw [hsame q k t' heq, hold']
  case memory =>
    intro q k hk'
    rw [hop] at hk'
    refine (hs.memory q k hk').congr ?_ (hent q k) fun t' i _ => hdel q k t' i
    rw [hrank]
    by_cases hq : q = r
    · rw [hq, set_self]
    · rw [set_of_ne y hq]

end Gasnet.Exchange
