import Gasnet.Foundation.ExchangeMoves
import Mathlib.Algebra.Order.BigOperators.Group.Finset
import Mathlib.Data.Fintype.BigOperators

/-! Deliveries, and what holds of every run of a course: nothing fails, what each rank gets is
right, and the exchanges come to their end. -/
namespace Gasnet.Exchange

open Dissemination

variable {N : Nat} {σ W β : Type} {p : Program N σ W β} {C : Course N σ W β} {K : Nat}
  {s t u : System N σ W β} {x y : Rank σ β} {r q : Fin N} {k n i : Nat} {b : Buffer β}
  {P : Plan W β} {m : Message N W β} {junk : Nat → β} {a : Action N} {ls : List (Action N)}

/-- A message on its way lands where its target waits for it. -/
theorem Inv.landing (hC : C.Sound p K) (hs : Inv p C K s) (hm : m ∈ s.net) :
    (m.op = (s.rank m.target).op ∨ m.op = (s.rank m.target).op + 1) ∧ m.op < K ∧
    ∃ f, ((C.plan m.op (fwd m.target m.step)).frags m.step)[m.index]? = some f ∧
      m.wire = f.wire ∧ m.payload.length = f.length ∧
      ∃ offset, p.landing m.target m.wire =
          ⟨parity m.op, m.step, (C.full m.op m.target).length, offset⟩ ∧
        offset + m.payload.length ≤ (C.full m.op m.target).length ∧
        ∀ j < m.payload.length, (C.full m.op m.target)[offset + j]? = m.payload[j]? := by
  have hu := hs.underway m hm
  have hpos := lt_of_le_of_lt (Nat.zero_le _) hu.sent
  have hk := hs.lt_of_sent hpos
  have hle := hs.sent_le_succ hpos
  have hge : ¬m.op < (s.rank m.target).op := fun h => hu.ahead (Or.inl h)
  obtain ⟨f, hf, hw, hpay⟩ := hu.frag
  obtain ⟨hin, offset, hland, hend, hbytes⟩ :=
    hC.frag m.op m.target m.step f hk hu.step (List.mem_of_getElem? hf)
  have hknown := hC.known_le (r := fwd m.target m.step) hk hu.step.le
  have hlen : m.payload.length = f.length := by
    rw [hpay, List.length_take, List.length_drop]
    omega
  refine ⟨by omega, hk, f, hf, hw, hlen, offset, hw ▸ hland, ?_, fun j hj => ?_⟩
  · rw [hlen]
    exact hend.trans (hC.known_le hk hu.step)
  · rw [hlen] at hj
    rw [hbytes j hj, hpay, List.getElem?_take_of_lt hj, List.getElem?_drop]

/-- What fits the exchange fits its buffer. -/
theorem Memory.store_ne_none {size offset : Nat} {l : List β} (junk : Nat → β) (h : Memory p C s r x k)
    (hsize : size = (C.full k r).length) (halloc : p.alloc (C.full k r).length = true)
    (hfit : offset + l.length ≤ (C.full k r).length) :
    store p.alloc (x.data (parity k)) size junk offset l ≠ none := by
  unfold Memory at h
  cases hb : x.data (parity k) with
  | none =>
    simp only [store, allocated, hsize, if_pos halloc, Option.bind_some, Buffer.copy, if_pos hfit]
    simp
  | some b =>
    rw [hb] at h
    have hfit' : offset + l.length ≤ b.size := h.1.size ▸ hfit
    simp only [store, allocated, Option.bind_some, Buffer.copy, if_pos hfit']
    simp

/-- No message fails. -/
theorem Inv.receive_ne_none (hC : C.Sound p K) (hs : Inv p C K s) (hm : m ∈ s.net) :
    (s.rank m.target).receive p m junk ≠ none := by
  obtain ⟨hop, hk, _, _, _, _, offset, hland, hfit, _⟩ := hs.landing hC hm
  have hne := (hs.memory m.target m.op hop).store_ne_none junk rfl
    (hC.alloc m.op m.target hk) hfit
  simp only [Rank.receive, hland, Option.bind_eq_bind]
  intro h
  rcases Option.bind_eq_none_iff.mp h with h
  cases hb : store p.alloc ((s.rank m.target).data (parity m.op)) (C.full m.op m.target).length
      junk offset m.payload with
  | none => exact hne hb
  | some b => exact absurd (h b hb) (by simp)

theorem Inv.enter_ne_none (hC : C.Sound p K) (hs : Inv p C K s)
    (hP : p.plan r (s.rank r).control = some P) :
    store p.alloc ((s.rank r).data (s.rank r).phase) P.size junk 0 P.own ≠ none := by
  obtain ⟨hk, rfl⟩ := hs.lt_of_plan hC hP
  rw [(hs.onCourse r).phase]
  refine (hs.memory r _ (Or.inl rfl)).store_ne_none junk (hC.size _ _ hk) (hC.alloc _ _ hk) ?_
  rw [hC.own _ _ hk, Nat.zero_add]
  exact List.length_take_le' _ _

theorem inv_deliver {xs ys : List (Message N W β)} (hC : C.Sound p K) (hs : Inv p C K s)
    (hm : s.net = xs ++ m :: ys) (hy : (s.rank m.target).receive p m junk = some y) :
    Inv p C K { s.set m.target y with net := xs ++ ys } := by
  have hmem : m ∈ s.net := by simp [hm]
  obtain ⟨hop, hk, f, hf, hw, hlen, offset, hland, hfit, hbytes⟩ := hs.landing hC hmem
  have hu := hs.underway m hmem
  simp only [Rank.receive, hland, Option.bind_eq_bind] at hy
  cases hb : store p.alloc ((s.rank m.target).data (parity m.op)) (C.full m.op m.target).length junk offset
      m.payload with
  | none => simp [hb] at hy
  | some b =>
  rw [hb, Option.bind_some] at hy
  obtain rfl := Option.some.inj hy
  obtain ⟨hholds, hnew⟩ := (hs.memory m.target m.op hop).holds_store rfl hbytes hb
  let y : Rank σ β := ((s.rank m.target).setData (parity m.op) (some b)).setRcvd (parity m.op) m.step
    ((s.rank m.target).rcvd (parity m.op) m.step + p.gain m.payload.length)
  let u : System N σ W β := { s.set m.target y with net := xs ++ ys }
  show Inv p C K u
  have hrank : ∀ q, u.rank q = (s.set m.target y).rank q := fun _ => rfl
  -- nobody moves
  have hstay : ∀ q, (u.rank q).results = (s.rank q).results ∧
      (u.rank q).place = (s.rank q).place ∧ (u.rank q).phase = (s.rank q).phase ∧
      (u.rank q).control = (s.rank q).control := by
    intro q
    rw [hrank]
    by_cases hq : q = m.target
    · rw [hq, set_self]
      exact ⟨rfl, rfl, rfl, rfl⟩
    · rw [set_of_ne y hq]
      exact ⟨rfl, rfl, rfl, rfl⟩
  have hopq : ∀ q, (u.rank q).op = (s.rank q).op := fun q => by rw [Rank.op, (hstay q).1]; rfl
  have hent : ∀ q k, (u.rank q).Entered k ↔ (s.rank q).Entered k := by
    intro q k
    simp only [Rank.Entered, hopq, (hstay q).2.1]
  have hcons : ∀ q k t, (u.rank q).Consumed k t ↔ (s.rank q).Consumed k t := by
    intro q k t
    simp only [Rank.Consumed, hopq, (hstay q).2.1]
  have hto : ∀ q k t, u.sentTo C q k t = s.sentTo C q k t := by
    intro q k t
    simp only [System.sentTo, Rank.sent, hopq, (hstay _).2.1]
  have hperm : s.tags.Perm (m.tag :: u.tags) := by
    have : s.net.Perm (m :: (xs ++ ys)) := hm ▸ List.perm_middle
    exact this.map Message.tag
  have hnodup : (m.tag :: u.tags).Nodup := hperm.nodup_iff.mp hs.nodup
  have hdel : ∀ q k t i, u.Delivered C q k t i ↔ s.Delivered C q k t i ∨ (q, k, t, i) = m.tag := by
    intro q k t i
    unfold System.Delivered
    rw [hto, hperm.mem_iff, List.mem_cons, not_or]
    constructor
    · rintro ⟨h₁, h₂⟩
      by_cases heq : (q, k, t, i) = m.tag
      · exact Or.inr heq
      · exact Or.inl ⟨h₁, heq, h₂⟩
    · rintro (⟨h₁, _, h₂⟩ | heq)
      · exact ⟨h₁, h₂⟩
      · refine ⟨?_, heq ▸ (List.nodup_cons.mp hnodup).1⟩
        simp only [Message.tag, Prod.mk.injEq] at heq
        obtain ⟨rfl, rfl, rfl, rfl⟩ := heq
        exact hu.sent
  have hnotyet : ¬s.Delivered C m.target m.op m.step m.index :=
    fun h => h.2 (mem_tags.mpr ⟨m, hmem, rfl, rfl, rfl, rfl⟩)
  have hother : ∀ q k t i, ¬(q = m.target ∧ k = m.op ∧ t = m.step) →
      (u.Delivered C q k t i ↔ s.Delivered C q k t i) := by
    intro q k t i hne
    rw [hdel]
    refine or_iff_left fun h => hne ?_
    simp only [Message.tag, Prod.mk.injEq] at h
    exact ⟨h.1, h.2.1, h.2.2.1⟩
  have hne_parity : ∀ k, k = (s.rank m.target).op ∨ k = (s.rank m.target).op + 1 →
      k ≠ m.op → parity k ≠ parity m.op := by
    intro k hk' hne
    rcases hop with h | h <;> rcases hk' with h' | h' <;> rw [h, h'] <;>
      first | exact absurd (h'.trans h.symm) hne | exact parity_succ_ne _ |
        exact (parity_succ_ne _).symm
  have hrcvd : ∀ ph t, y.rcvd ph t = if ph = parity m.op ∧ t = m.step then
      (s.rank m.target).rcvd (parity m.op) m.step + p.gain m.payload.length
      else (s.rank m.target).rcvd ph t := fun ph t => Rank.setRcvd_rcvd _ _ _ _ _ _
  have hdata : ∀ ph, y.data ph = if ph = parity m.op then some b
      else (s.rank m.target).data ph := fun ph => Rank.setData_data _ _ _ _
  constructor
  case alive => exact hs.alive
  case onCourse =>
    intro q
    have hq := hs.onCourse q
    obtain ⟨h₁, h₂, h₃, h₄⟩ := hstay q
    refine ⟨by rw [hopq]; exact hq.op_le, by rw [hopq, h₁]; exact hq.results,
      by rw [hopq, h₄]; exact hq.control, by rw [hopq, h₃]; exact hq.phase,
      fun t n h => by rw [hopq]; exact hq.inside t n (h₂ ▸ h), fun t n t' h hlt => ?_⟩
    rw [h₂] at h
    have hold := hq.reset t n t' h hlt
    rw [h₃, hrank]
    by_cases hqm : q = m.target
    · subst hqm
      rw [set_self, hrcvd, if_neg, hold]
      rintro ⟨hph, rfl⟩
      rw [hq.phase] at hph
      rcases hop with hmo | hmo
      · exact hu.ahead (Or.inr ⟨hmo, t, n, h, hlt⟩)
      · rw [hmo] at hph
        exact parity_succ_ne _ hph.symm
    · rw [set_of_ne y hqm, hold]
  case past =>
    intro q j k h
    rw [hopq] at h
    exact (hent j k).mpr (hs.past q j k h)
  case heard =>
    intro q j t n h hh
    rw [(hstay q).2.1] at h
    rw [hopq, hent]
    exact hs.heard q j t n h hh
  case underway =>
    intro m' hm'
    have hmem' : m' ∈ s.net := by
      rw [hm]
      rcases List.mem_append.mp (show m' ∈ xs ++ ys from hm') with h | h
      · exact List.mem_append_left _ h
      · exact List.mem_append_right _ (List.mem_cons_of_mem _ h)
    have hold := hs.underway m' hmem'
    exact ⟨hold.step, fun hc => hold.ahead ((hcons _ _ _).mp hc), by rw [hto]; exact hold.sent,
      hold.frag⟩
  case nodup => exact (List.nodup_cons.mp hnodup).2
  case counter =>
    intro q k t ht hc hle
    rw [hcons] at hc
    rw [hopq] at hle
    have hold := hs.counter q k t ht hc hle
    rw [hrank]
    by_cases heq : q = m.target ∧ k = m.op ∧ t = m.step
    · obtain ⟨rfl, rfl, rfl⟩ := heq
      rw [set_self, hrcvd, if_pos ⟨rfl, rfl⟩, hold, hlen]
      have hi : m.index < ((C.plan m.op (fwd m.target m.step)).frags m.step).length :=
        (List.getElem?_eq_some_iff.mp hf).1
      unfold System.counted
      rw [← Finset.add_sum_erase _ _ (Finset.mem_range.mpr hi),
        ← Finset.add_sum_erase (Finset.range _) _ (Finset.mem_range.mpr hi),
        if_neg hnotyet, if_pos ((hdel _ _ _ _).mpr (Or.inr rfl)), fragGain, hf, zero_add, add_comm]
      refine congrArg _ (Finset.sum_congr rfl fun i hi' => if_congr ?_ rfl rfl)
      rw [hdel]
      refine (or_iff_left fun h => ?_).symm
      simp only [Message.tag, Prod.mk.injEq] at h
      exact (Finset.mem_erase.mp hi').1 h.2.2.2
    · have hcount : u.counted p C q k t = s.counted p C q k t :=
        Finset.sum_congr rfl fun i _ => if_congr (hother q k t i heq) rfl rfl
      rw [hcount, ← hold]
      by_cases hq : q = m.target
      · subst hq
        rw [set_self, hrcvd, if_neg]
        rintro ⟨hph, rfl⟩
        have hne : k ≠ m.op := fun h => heq ⟨rfl, h, rfl⟩
        have hge : ¬k < (s.rank m.target).op := fun h => hc (Or.inl h)
        exact hne_parity k (by omega) hne hph
      · rw [set_of_ne y hq]
  case complete =>
    intro q k t ht hc
    rw [hto]
    exact hs.complete q k t ht ((hcons q k t).mp hc)
  case memory =>
    intro q k hk'
    rw [hopq] at hk'
    by_cases hq : q = m.target
    · subst hq
      by_cases hkm : k = m.op
      · -- the buffer that was written
        subst hkm
        apply Memory.of_eq (b := b)
        · rw [hrank, set_self, hdata, if_pos rfl]
        · refine ⟨hholds.size, fun he => hholds.own ((hent _ _).mp he),
            fun t i f' ht hd hf' j hj => ?_⟩
          rcases (hdel _ _ _ _).mp hd with hd | heq
          · exact hholds.arrived t i f' ht hd hf' j hj
          · simp only [Message.tag, Prod.mk.injEq, true_and] at heq
            obtain ⟨rfl, rfl⟩ := heq
            rw [hf] at hf'
            obtain rfl := Option.some.inj hf'
            rw [← hw, hland]
            exact hnew j (hlen ▸ hj)
        · exact Or.inr ⟨m.step, m.index, hu.step, (hdel _ _ _ _).mpr (Or.inr rfl)⟩
      · refine (hs.memory m.target k hk').congr ?_ (hent _ k)
          fun t i _ => hother _ k t i fun h => hkm h.2.1
        rw [hrank, set_self, hdata, if_neg (hne_parity k hk' hkm)]
    · refine (hs.memory q k hk').congr ?_ (hent q k)
        fun t i _ => hother q k t i fun h => hq h.1
      rw [hrank, set_of_ne y hq]

theorem inv_initial (hC : C.Sound p K) : Inv p C K (initial p) := by
  have hent : ∀ r k, ¬((initial p).rank r).Entered k := by
    rintro r k (h | ⟨_, h⟩)
    · exact absurd h (Nat.not_lt_zero k)
    · exact h rfl
  have hto : ∀ r k t, (initial p).sentTo C r k t = 0 := by
    intro r k t
    by_contra h
    exact hent _ k (Rank.sent_entered (Nat.pos_of_ne_zero h))
  have hdel : ∀ r k t i, ¬(initial p).Delivered C r k t i := by
    intro r k t i h
    have := h.1
    rw [hto] at this
    exact absurd this (Nat.not_lt_zero i)
  constructor
  case alive => rfl
  case onCourse =>
    intro r
    exact ⟨Nat.zero_le _, rfl, (hC.start r).symm, rfl, fun t n h => (by cases h),
      fun t n t' h => (by cases h)⟩
  case past => exact fun r j k h => absurd h (Nat.not_lt_zero k)
  case heard => exact fun r j t n h => by cases h
  case underway => exact fun m hm => by cases hm
  case nodup => exact List.nodup_nil
  case counter =>
    intro r k t _ _ _
    symm
    exact Finset.sum_eq_zero fun i _ => if_neg (hdel r k t i)
  case complete =>
    rintro r k t _ (h | ⟨_, _, _, h, _⟩)
    · exact absurd h (Nat.not_lt_zero k)
    · cases h
  case memory => exact fun r k _ => fun h => h.elim (hent r k) fun ⟨t, i, _, hd⟩ => hdel r k t i hd

theorem inv_step (hC : C.Sound p K) (h : Step p s a u) (hs : Inv p C K s) : Inv p C K u := by
  cases h with
  | enter _ hx hp hP hb =>
    subst hx
    exact inv_enter hC hs hp hP hb
  | send _ hx hp hP ht hf hb =>
    subst hx
    exact inv_send hC hs hp hP ht hf hb
  | pass _ hx hp hP ht hn hr =>
    subst hx
    exact inv_pass hC hs hp hP ht hn hr
  | finish _ hx hp hP hb =>
    subst hx
    exact (inv_finish hC hs hp hP hb).2
  | deliver _ hm hy => exact inv_deliver hC hs hm hy
  | abort _ hm hy => exact absurd hy (hs.receive_ne_none hC hm)
  | abortEnter _ hx hp hP hb =>
    subst hx
    exact absurd hb (hs.enter_ne_none hC hP)

theorem inv_reachable (hC : C.Sound p K) (h : Reachable (Step p) (initial p) s) : Inv p C K s :=
  h.invariant (inv_step hC) (inv_initial hC)

/-- A rank has done its exchanges. -/
def Done (K : Nat) (s : System N σ W β) : Prop :=
  ∀ r, (s.rank r).results.length = K ∧ (s.rank r).place = none

/-- Until all is done, somebody can go on. -/
theorem Inv.enabled (hC : C.Sound p K) (hs : Inv p C K s) [Nonempty (Nat → β)]
    (hdone : ¬Done K s) : ∃ a u, Step p s a u := by
  obtain ⟨junk⟩ := ‹Nonempty (Nat → β)›
  by_contra hstuck
  have hstuck : ∀ a u, ¬Step p s a u := fun a u h => hstuck ⟨a, u, h⟩
  have hnet : s.net = [] := by
    cases hn : s.net with
    | nil => rfl
    | cons m l =>
      exfalso
      cases hy : (s.rank m.target).receive p m junk with
      | none => exact hs.receive_ne_none hC (by simp [hn]) hy
      | some y => exact hstuck _ _ (.deliver hs.alive (show s.net = [] ++ m :: l from hn) hy)
  -- a rank that is not done waits for a counter
  have hwait : ∀ r, ¬((s.rank r).op = K ∧ (s.rank r).place = none) → ∃ t,
      (s.rank r).op < K ∧ t < p.steps ∧
      (s.rank r).place = some (t, ((C.plan (s.rank r).op r).frags t).length) := by
    intro r hnot
    have hr := hs.onCourse r
    cases hp : (s.rank r).place with
    | none =>
      exfalso
      have hk : (s.rank r).op < K := lt_of_le_of_ne hr.op_le fun h => hnot ⟨h, hp⟩
      have hP : p.plan r (s.rank r).control = some (C.plan (s.rank r).op r) := by
        rw [hr.control, hC.plan _ _ hk]
      cases hb : store p.alloc ((s.rank r).data (s.rank r).phase) (C.plan (s.rank r).op r).size junk 0
          (C.plan (s.rank r).op r).own with
      | none => exact hs.enter_ne_none hC hP hb
      | some b => exact hstuck _ _ (.enter hs.alive rfl hp hP hb)
    | some tn =>
      obtain ⟨t, n⟩ := tn
      obtain ⟨hk, ht, hn, h0⟩ := hr.inside t n hp
      have hP : p.plan r (s.rank r).control = some (C.plan (s.rank r).op r) := by
        rw [hr.control, hC.plan _ _ hk]
      obtain ⟨b, hb⟩ : ∃ b, (s.rank r).data (s.rank r).phase = some b := by
        have hmem := hs.memory r _ (Or.inl rfl)
        unfold Memory at hmem
        rw [hr.phase]
        cases hb : (s.rank r).data (parity (s.rank r).op) with
        | none =>
          rw [hb] at hmem
          exact absurd (Or.inl (Or.inr ⟨rfl, by simp [hp]⟩)) hmem
        | some b => exact ⟨b, rfl⟩
      rcases Nat.lt_or_eq_of_le ht with ht | rfl
      · refine ⟨t, hk, ht, ?_⟩
        rcases Nat.lt_or_eq_of_le hn with hn | rfl
        · exact absurd (.send hs.alive rfl hp hP ht (List.getElem?_eq_getElem hn) hb) (hstuck _ _)
        · rfl
      · exact absurd (.finish hs.alive rfl hp hP hb) (hstuck _ _)
  -- the one that is the least far has nothing to wait for
  let stage : Fin N → Nat := fun r =>
    (s.rank r).op * (p.steps + 1) + ((s.rank r).place.map Prod.fst).getD 0
  obtain ⟨r₀, hr₀⟩ : ∃ r, ¬((s.rank r).op = K ∧ (s.rank r).place = none) := by
    by_contra h
    exact hdone fun r => by
      by_contra hr
      exact h ⟨r, hr⟩
  obtain ⟨r, hr, hmin⟩ : ∃ r, ¬((s.rank r).op = K ∧ (s.rank r).place = none) ∧
      ∀ q, ¬((s.rank q).op = K ∧ (s.rank q).place = none) → stage r ≤ stage q := by
    obtain ⟨r, hr, hmin⟩ := (measure stage).wf.has_min
      {r | ¬((s.rank r).op = K ∧ (s.rank r).place = none)} ⟨r₀, hr₀⟩
    exact ⟨r, hr, fun q hq => Nat.not_lt.mp (hmin q hq)⟩
  obtain ⟨t, hk, ht, hp⟩ := hwait r hr
  have hP : p.plan r (s.rank r).control = some (C.plan (s.rank r).op r) := by
    rw [(hs.onCourse r).control, hC.plan _ _ hk]
  have hall : s.sentTo C r (s.rank r).op t =
      ((C.plan (s.rank r).op (fwd r t)).frags t).length := by
    unfold System.sentTo
    by_cases hq : (s.rank (fwd r t)).op = K ∧ (s.rank (fwd r t)).place = none
    · rw [Rank.sent_out hq.2, if_pos (by omega)]
    · obtain ⟨t', hk', ht', hp'⟩ := hwait (fwd r t) hq
      have hle := hmin (fwd r t) hq
      simp only [stage, hp, hp', Option.map_some, Option.getD_some] at hle
      have hop : (s.rank r).op ≤ (s.rank (fwd r t)).op := by
        by_contra hlt
        have := Nat.mul_le_mul_right (p.steps + 1)
          (by omega : (s.rank (fwd r t)).op + 1 ≤ (s.rank r).op)
        rw [Nat.add_mul] at this
        omega
      rw [Rank.sent_at hp']
      rcases Nat.lt_or_eq_of_le hop with hlt | heq
      · rw [if_pos hlt]
      · rw [if_neg (by omega), if_pos heq]
        rw [← heq] at hle
        rcases Nat.lt_or_eq_of_le (by omega : t ≤ t') with h | h
        · rw [if_pos h]
        · rw [if_neg (by omega), if_pos h, ← h, ← heq]
  refine hstuck _ _ (.pass hs.alive rfl hp hP ht rfl ((hs.waited hC hp hP ht).2.mpr ?_))
  intro i hi
  exact ⟨hall.symm ▸ hi, by simp [System.tags, hnet]⟩

/-- The steps of its own that a rank has in one exchange. -/
def Course.cost (C : Course N σ W β) (S : Nat) (k : Nat) (r : Fin N) : Nat :=
  ∑ t ∈ Finset.range S, (((C.plan k r).frags t).length + 1) + 2

/-- The steps of its own that a rank has taken. -/
def Rank.taken (C : Course N σ W β) (S : Nat) (r : Fin N) (x : Rank σ β) : Nat :=
  ∑ k ∈ Finset.range x.op, C.cost S k r +
    match x.place with
    | none => 0
    | some (t, n) => ∑ t' ∈ Finset.range t, (((C.plan x.op r).frags t').length + 1) + n + 1

theorem OnCourse.taken_le (h : OnCourse p C K r x) :
    x.taken C p.steps r ≤ ∑ k ∈ Finset.range K, C.cost p.steps k r := by
  unfold Rank.taken
  cases hp : x.place with
  | none => exact Finset.sum_le_sum_of_subset (Finset.range_mono h.op_le)
  | some tn =>
    obtain ⟨t, n⟩ := tn
    obtain ⟨hk, ht, hn, h0⟩ := h.inside t n hp
    have hone : ∑ t' ∈ Finset.range t, (((C.plan x.op r).frags t').length + 1) + n + 1 ≤
        C.cost p.steps x.op r := by
      unfold Course.cost
      rcases Nat.lt_or_eq_of_le ht with hlt | rfl
      · have := Finset.sum_le_sum_of_subset (M := Nat)
          (f := fun t' => ((C.plan x.op r).frags t').length + 1) (Finset.range_mono hlt)
        rw [Finset.sum_range_succ] at this
        omega
      · have := h0 rfl
        omega
    calc _ ≤ ∑ k ∈ Finset.range x.op, C.cost p.steps k r + C.cost p.steps x.op r := by
          exact Nat.add_le_add_left hone _
      _ = ∑ k ∈ Finset.range (x.op + 1), C.cost p.steps k r := (Finset.sum_range_succ _ _).symm
      _ ≤ _ := Finset.sum_le_sum_of_subset (Finset.range_mono hk)

theorem sum_set (f : Fin N → Rank σ β → Nat) (s : System N σ W β) (r : Fin N) (y : Rank σ β) :
    ∑ q, f q ((s.set r y).rank q) + f r (s.rank r) = ∑ q, f q (s.rank q) + f r y := by
  rw [← Finset.add_sum_erase Finset.univ _ (Finset.mem_univ r),
    ← Finset.add_sum_erase Finset.univ (fun q => f q (s.rank q)) (Finset.mem_univ r), set_self]
  have : ∑ q ∈ Finset.univ.erase r, f q ((s.set r y).rank q) =
      ∑ q ∈ Finset.univ.erase r, f q (s.rank q) := by
    refine Finset.sum_congr rfl fun q hq => ?_
    rw [set_of_ne y (Finset.mem_erase.mp hq).1]
  omega

theorem Rank.taken_out {S : Nat} (hp : x.place = none) :
    x.taken C S r = ∑ k ∈ Finset.range x.op, C.cost S k r := by
  unfold taken
  rw [hp, Nat.add_zero]

theorem Rank.taken_at {S t : Nat} (hp : x.place = some (t, n)) :
    x.taken C S r = ∑ k ∈ Finset.range x.op, C.cost S k r +
      (∑ t' ∈ Finset.range t, (((C.plan x.op r).frags t').length + 1) + n + 1) := by
  unfold taken
  rw [hp]

/-- A handler moves nobody on. -/
theorem receive_stay (h : x.receive p m junk = some y) :
    y.results = x.results ∧ y.place = x.place := by
  obtain ⟨b, _, h⟩ := Option.bind_eq_some_iff.mp h
  obtain rfl := Option.some.inj h
  exact ⟨rfl, rfl⟩

/-- Every step is one of a rank's own or brings a message home. -/
theorem taken_step (hC : C.Sound p K) (h : Step p s a u) (hs : Inv p C K s) :
    u.net.length + 1 + 2 * ∑ q, (s.rank q).taken C p.steps q ≤
      s.net.length + 2 * ∑ q, (u.rank q).taken C p.steps q := by
  have hlocal : ∀ r y, y.taken C p.steps r = (s.rank r).taken C p.steps r + 1 →
      ∑ q, ((s.set r y).rank q).taken C p.steps q =
        ∑ q, (s.rank q).taken C p.steps q + 1 := by
    intro r y hy
    have := sum_set (fun q x => Rank.taken C p.steps q x) s r y
    omega
  cases h with
  | @enter r x P b _ _ hx hp hP hb =>
    subst hx
    have := hlocal r { (s.rank r).setData (s.rank r).phase (some b) with place := some (0, 0) } (by
      rw [Rank.taken_at rfl, Rank.taken_out hp, Finset.sum_range_zero]
      rfl)
    show s.net.length + 1 + _ ≤ s.net.length + _
    omega
  | @send r x P b t n f _ hx hp hP ht hf hb =>
    subst hx
    have := hlocal r { s.rank r with place := some (t, n + 1) } (by
      rw [Rank.taken_at rfl, Rank.taken_at hp]
      exact (Nat.add_assoc _ _ 1).symm)
    show s.net.length + 1 + 1 + _ ≤ s.net.length + _
    have heq : ∀ l : List (Message N W β), ∑ q, (({ s.set r { s.rank r with
        place := some (t, n + 1) } with net := l } : System N σ W β).rank q).taken C p.steps q =
        ∑ q, ((s.set r { s.rank r with place := some (t, n + 1) }).rank q).taken C p.steps q :=
      fun _ => rfl
    rw [heq]
    omega
  | @pass r x P t n _ hx hp hP ht hn hr =>
    subst hx
    obtain ⟨hk, rfl⟩ := hs.lt_of_plan hC hP
    have := hlocal r { (s.rank r).setRcvd (s.rank r).phase t 0 with place := some (t + 1, 0) } (by
      rw [Rank.taken_at rfl, Rank.taken_at hp, Finset.sum_range_succ, hn]
      rfl)
    show s.net.length + 1 + _ ≤ s.net.length + _
    omega
  | @finish r x P b n _ hx hp hP hb =>
    subst hx
    have hn : n = 0 := ((hs.onCourse r).inside _ _ hp).2.2.2 rfl
    have := hlocal r
      { (s.rank r).setData (s.rank r).phase none with
        control := p.next r (s.rank r).control (b.read 0 P.size)
        phase := !(s.rank r).phase
        place := none
        results := (s.rank r).results ++ [b.read 0 P.size] } (by
      rw [Rank.taken_out rfl, Rank.taken_at hp, hn]
      have hop : ∀ l : List β, ((s.rank r).results ++ [l]).length = (s.rank r).op + 1 :=
        fun l => List.length_append
      show ∑ k ∈ Finset.range ((s.rank r).results ++ _).length, _ = _
      rw [hop, Finset.sum_range_succ]
      rfl)
    show s.net.length + 1 + _ ≤ s.net.length + _
    omega
  | @deliver m xs ys y junk _ hm hy =>
    have hsame : ∀ q, (({ s.set m.target y with net := xs ++ ys } : System N σ W β).rank q).taken C
        p.steps q = (s.rank q).taken C p.steps q := by
      intro q
      by_cases hq : q = m.target
      · subst hq
        obtain ⟨h₁, h₂⟩ := receive_stay hy
        show ((s.set m.target y).rank m.target).taken C p.steps m.target = _
        rw [set_self]
        unfold Rank.taken Rank.op
        rw [h₁, h₂]
      · exact congrArg _ (set_of_ne y hq)
    rw [Finset.sum_congr rfl fun q _ => hsame q, hm]
    simp only [List.length_append, List.length_cons]
    omega
  | abort _ hm hy => exact absurd hy (hs.receive_ne_none hC hm)
  | abortEnter _ hx hp hP hb =>
    subst hx
    exact absurd hb (hs.enter_ne_none hC hP)

/-- Every run of a course comes to an end. -/
theorem run_length (hC : C.Sound p K) (h : Run (Step p) s ls u) (hs : Inv p C K s) :
    u.net.length + ls.length + 2 * ∑ q, (s.rank q).taken C p.steps q ≤
      s.net.length + 2 * ∑ q, (u.rank q).taken C p.steps q := by
  induction h with
  | refl => simp
  | stepL h _ ih =>
    have := taken_step hC h hs
    have := ih (inv_step hC h hs)
    rw [List.length_cons]
    omega

/-- The runs of a course: each rank has what it is to have, no run is longer than the course
allows, and one that cannot go on has done all exchanges. -/
theorem course_runs (hC : C.Sound p K) [Nonempty (Nat → β)]
    (h : Run (Step p) (initial p) ls s) :
    s.aborted = false ∧
    (∀ r, (s.rank r).results = (List.range (s.rank r).op).map fun k => C.full k r) ∧
    (∀ r, (s.rank r).op ≤ K ∧ (s.rank r).control = C.control (s.rank r).op r) ∧
    ls.length ≤ 2 * ∑ q, ∑ k ∈ Finset.range K, C.cost p.steps k q ∧
    (¬Done K s → ∃ a u, Step p s a u) := by
  have hs := inv_reachable hC ⟨ls, h⟩
  refine ⟨hs.alive, fun r => (hs.onCourse r).results,
    fun r => ⟨(hs.onCourse r).op_le, (hs.onCourse r).control⟩, ?_, hs.enabled hC⟩
  have hlen := run_length hC h (inv_initial hC)
  have htop : ∑ q, (s.rank q).taken C p.steps q ≤
      ∑ q, ∑ k ∈ Finset.range K, C.cost p.steps k q :=
    Finset.sum_le_sum fun q _ => (hs.onCourse q).taken_le
  have hnet : (initial p).net.length = 0 := rfl
  omega

/-- Every run can be brought to the end. -/
theorem exists_done (hC : C.Sound p K) [Nonempty (Nat → β)] :
    ∃ s, Reachable (Step p) (initial p) s ∧ Done K s := by
  by_contra hnot
  have hlong : ∀ n, ∃ ls s, Run (Step p) (initial p) ls s ∧ ls.length = n := by
    intro n
    induction n with
    | zero => exact ⟨[], _, .refl, rfl⟩
    | succ n ih =>
      obtain ⟨ls, s, hrun, hlen⟩ := ih
      obtain ⟨a, u, hstep⟩ := (course_runs hC hrun).2.2.2.2 fun hd => hnot ⟨s, ⟨ls, hrun⟩, hd⟩
      exact ⟨ls ++ [a], u, hrun.snoc hstep, by rw [List.length_append, hlen]; rfl⟩
  obtain ⟨ls, s, hrun, hlen⟩ := hlong (2 * ∑ q, ∑ k ∈ Finset.range K, C.cost p.steps k q + 1)
  have := (course_runs hC hrun).2.2.2.1
  omega

/-- At the end no buffer is left over. -/
theorem Inv.data_done (hs : Inv p C K s) (hd : Done K s) (r : Fin N) :
    (s.rank r).data (parity K) = none := by
  have hop : (s.rank r).op = K := (hd r).1
  have hmem := hs.memory r K (Or.inl hop.symm)
  unfold Memory at hmem
  cases hb : (s.rank r).data (parity K) with
  | none => rfl
  | some b =>
    rw [hb] at hmem
    rcases hmem.2 with (h | ⟨_, h⟩) | ⟨t, i, _, hdel⟩
    · exact absurd h (by omega)
    · exact absurd (hd r).2 h
    · exact absurd (hs.lt_of_sent (lt_of_le_of_lt (Nat.zero_le _) hdel.1)) (Nat.lt_irrefl K)

/-- When a rank goes on to the next step, its counter is at what the step waits for, and no
message of the step is on its way. -/
theorem pass_exact (hC : C.Sound p K) (h : Reachable (Step p) (initial p) s)
    (hstep : Step p s (.pass r) u) : ∃ P t n,
      p.plan r (s.rank r).control = some P ∧ (s.rank r).place = some (t, n) ∧
      (s.rank r).rcvd (s.rank r).phase t = P.expect t ∧
      ∀ m ∈ s.net, m.target = r → m.op = (s.rank r).results.length → m.step ≠ t := by
  have hs := inv_reachable hC h
  have hstep' := hstep
  cases hstep' with
  | @pass _ x P t n _ hx hp hP ht hn hr =>
    subst hx
    obtain ⟨hcount, hiff⟩ := hs.waited hC hp hP ht
    obtain ⟨hk, hPeq⟩ := hs.lt_of_plan hC hP
    have hall := hiff.mp hr
    refine ⟨P, t, n, hP, hp, ?_, fun m hm htarget hop hne => ?_⟩
    · rw [hcount, hPeq]
      exact (counted_eq hC hk ht).mpr hall
    · subst htarget
      obtain ⟨f, hf, _⟩ := (hs.underway m hm).frag
      have hlt := (List.getElem?_eq_some_iff.mp hf).1
      rw [hne, hop] at hlt
      exact (hall m.index hlt).2 (mem_tags.mpr ⟨m, hm, rfl, hop, hne, rfl⟩)

end Gasnet.Exchange
