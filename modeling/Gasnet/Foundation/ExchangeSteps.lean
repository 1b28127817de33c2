import Gasnet.Foundation.Exchange

/-! Every step keeps the invariant of the course. -/
namespace Gasnet.Exchange

open Dissemination

variable {N : Nat} {σ W β : Type} {p : Program N σ W β} {C : Course N σ W β} {K : Nat}
  {s u : System N σ W β} {x y : Rank σ β} {r q : Fin N} {k t n i : Nat} {b : Buffer β}

@[simp] theorem set_self (s : System N σ W β) (r : Fin N) (x : Rank σ β) :
    (s.set r x).rank r = x := Function.update_self ..

theorem set_of_ne (x : Rank σ β) (h : q ≠ r) : (s.set r x).rank q = s.rank q :=
  Function.update_of_ne h ..

theorem Memory.congr (h : Memory p C s r x k) (hdata : y.data (parity k) = x.data (parity k))
    (hent : y.Entered k ↔ x.Entered k)
    (hd : ∀ t i, t < p.steps → (u.Delivered C r k t i ↔ s.Delivered C r k t i)) :
    Memory p C u r y k := by
  have hbegun : Begun p C u r y k ↔ Begun p C s r x k :=
    or_congr hent (exists_congr fun t => exists_congr fun i => and_congr_right fun ht => hd t i ht)
  unfold Memory at h ⊢
  rw [hdata]
  cases hb : x.data (parity k) with
  | none =>
    rw [hb] at h
    exact fun hu => h (hbegun.mp hu)
  | some b =>
    rw [hb] at h
    obtain ⟨hh, hx⟩ := h
    exact ⟨⟨hh.size, fun he => hh.own (hent.mp he),
      fun t i f ht hdel => hh.arrived t i f ht ((hd t i ht).mp hdel)⟩, hbegun.mpr hx⟩

theorem mem_tags : (r, k, t, i) ∈ s.tags ↔
    ∃ m ∈ s.net, m.target = r ∧ m.op = k ∧ m.step = t ∧ m.index = i := by
  simp [System.tags, Message.tag]

/-- What a rank has waited for has come. -/
theorem Inv.delivered_of_consumed (hs : Inv p C K s) (ht : t < p.steps)
    (hc : (s.rank r).Consumed k t) (hi : i < ((C.plan k (fwd r t)).frags t).length) :
    s.Delivered C r k t i := by
  refine ⟨by rwa [hs.complete r k t ht hc], fun hmem => ?_⟩
  obtain ⟨m, hm, rfl, rfl, rfl, _⟩ := mem_tags.mp hmem
  exact (hs.underway m hm).ahead hc

/-- The bytes a rank has at step `t`. -/
theorem Inv.known (hC : C.Sound p K) (hs : Inv p C K s)
    (hp : (s.rank r).place = some (t, n))
    (hb : (s.rank r).data (s.rank r).phase = some b) :
    b.size = (C.full (s.rank r).op r).length ∧ ∀ i < C.known (s.rank r).op r t,
      (C.full (s.rank r).op r)[i]? = some (b.byte i) := by
  have hr := hs.onCourse r
  obtain ⟨hk, hts, _, _⟩ := hr.inside t n hp
  have hmem := hs.memory r _ (Or.inl rfl)
  unfold Memory at hmem
  rw [← hr.phase, hb] at hmem
  replace hmem := hmem.1
  refine ⟨hmem.size, ?_⟩
  have hent : (s.rank r).Entered (s.rank r).op := Or.inr ⟨rfl, by rw [hp]; simp⟩
  have hall : ∀ t' ≤ t, ∀ i < C.known (s.rank r).op r t',
      (C.full (s.rank r).op r)[i]? = some (b.byte i) := by
    intro t' ht'
    induction t' with
    | zero => exact hmem.own hent
    | succ t' ih =>
      intro i hi
      by_cases hlt : i < C.known (s.rank r).op r t'
      · exact ih (by omega) i hlt
      · -- the bytes that came in step `t'`
        have hcons : (s.rank r).Consumed (s.rank r).op t' := Or.inr ⟨rfl, t, n, hp, by omega⟩
        obtain ⟨f, hf, hlo, hhi⟩ :=
          hC.cover _ r t' i hk (by omega) (by omega) hi
        obtain ⟨j, hj, hfj⟩ := List.getElem_of_mem hf
        have hdel := hs.delivered_of_consumed (by omega) hcons hj
        have := hmem.arrived t' j f (by omega) hdel
          (by rw [List.getElem?_eq_getElem hj, hfj]) (i - (p.landing r f.wire).offset) (by omega)
        rwa [Nat.add_sub_cancel' hlo] at this
  exact hall t (Nat.le_refl t)

/-- What a rank reads from its buffer. -/
theorem read_eq {l : List β} {a n : Nat} (h : ∀ i < a + n, l[i]? = some (b.byte i)) :
    b.read a n = (l.drop a).take n := by
  apply List.ext_getElem?
  intro i
  by_cases hi : i < n
  · rw [List.getElem?_take_of_lt hi, List.getElem?_drop, h (a + i) (by omega)]
    simp [Buffer.read, hi]
  · rw [List.getElem?_eq_none (by simp [Buffer.read]; omega),
      List.getElem?_eq_none (by simp; omega)]

/-- A rank moves on and has sent what it had. -/
theorem inv_local (hs : Inv p C K s) (hy : OnCourse p C K r y)
    (hsent : ∀ k t, t < p.steps → y.sent C r k t = (s.rank r).sent C r k t)
    (hent : ∀ k, (s.rank r).Entered k → y.Entered k)
    (hpast : ∀ j k, k < y.op → (s.rank j).Entered k)
    (hheard : ∀ j t n, y.place = some (t, n) → Hears t j r → j = r ∨ (s.rank j).Entered y.op)
    (hahead : ∀ m ∈ s.net, m.target = r → ¬y.Consumed m.op m.step)
    (hcounter : ∀ k t, t < p.steps → ¬y.Consumed k t → k ≤ y.op + 1 →
      y.rcvd (parity k) t = s.counted p C r k t)
    (hcomplete : ∀ k t, t < p.steps → y.Consumed k t →
      s.sentTo C r k t = ((C.plan k (fwd r t)).frags t).length)
    (hmemory : ∀ k, k = y.op ∨ k = y.op + 1 → Memory p C s r y k) :
    Inv p C K (s.set r y) := by
  have hto : ∀ q k t, t < p.steps → (s.set r y).sentTo C q k t = s.sentTo C q k t := by
    intro q k t ht
    by_cases hq : fwd q t = r
    · simp only [System.sentTo, hq, set_self, hsent k t ht]
    · simp only [System.sentTo, set_of_ne y hq]
  have hdel : ∀ q k t i, t < p.steps →
      ((s.set r y).Delivered C q k t i ↔ s.Delivered C q k t i) := by
    intro q k t i ht
    unfold System.Delivered
    rw [hto q k t ht]
    exact Iff.rfl
  have hcount : ∀ q k t, t < p.steps → (s.set r y).counted p C q k t = s.counted p C q k t := by
    intro q k t ht
    unfold System.counted
    exact Finset.sum_congr rfl fun i _ => if_congr (hdel q k t i ht) rfl rfl
  have hent' : ∀ j k, (s.rank j).Entered k → ((s.set r y).rank j).Entered k := by
    intro j k h
    by_cases hj : j = r
    · rw [hj, set_self]
      exact hent k (hj ▸ h)
    · rwa [set_of_ne y hj]
  constructor
  case alive => exact hs.alive
  case onCourse =>
    intro q
    by_cases hq : q = r
    · rw [hq, set_self]
      exact hy
    · rw [set_of_ne y hq]
      exact hs.onCourse q
  case past =>
    intro q j k hk
    apply hent'
    by_cases hq : q = r
    · rw [hq, set_self] at hk
      exact hpast j k hk
    · rw [set_of_ne y hq] at hk
      exact hs.past q j k hk
  case heard =>
    intro q j t n hp hh
    by_cases hq : q = r
    · rw [hq, set_self] at hp ⊢
      rcases hheard j t n hp (hq ▸ hh) with rfl | hj
      · rw [set_self]
        exact Or.inr ⟨rfl, by rw [hp]; simp⟩
      · exact hent' j _ hj
    · rw [set_of_ne y hq] at hp ⊢
      exact hent' j _ (hs.heard q j t n hp hh)
  case underway =>
    intro m hm
    have hu := hs.underway m hm
    refine ⟨hu.step, ?_, by rw [hto _ _ _ hu.step]; exact hu.sent, hu.frag⟩
    by_cases hq : m.target = r
    · rw [hq, set_self]
      exact hahead m hm hq
    · rw [set_of_ne y hq]
      exact hu.ahead
  case nodup => exact hs.nodup
  case counter =>
    intro q k t ht hc hk
    rw [hcount q k t ht]
    by_cases hq : q = r
    · rw [hq, set_self] at hc hk ⊢
      exact hcounter k t ht hc hk
    · rw [set_of_ne y hq] at hc hk ⊢
      exact hs.counter q k t ht hc hk
  case complete =>
    intro q k t ht hc
    rw [hto q k t ht]
    by_cases hq : q = r
    · rw [hq, set_self] at hc
      rw [hq]
      exact hcomplete k t ht hc
    · rw [set_of_ne y hq] at hc
      exact hs.complete q k t ht hc
  case memory =>
    intro q k hk
    by_cases hq : q = r
    · rw [hq, set_self] at hk ⊢
      exact (hmemory k hk).congr rfl Iff.rfl fun t i ht => hdel r k t i ht
    · rw [set_of_ne y hq] at hk ⊢
      exact (hs.memory q k hk).congr rfl Iff.rfl fun t i ht => hdel q k t i ht

/-- A copy that fits changes only the bytes it is for. -/
theorem copy_some {b₀ : Buffer β} {offset : Nat} {l : List β} (h : b₀.copy offset l = some b) :
    b.size = b₀.size ∧ (∀ j < l.length, l[j]? = some (b.byte (offset + j))) ∧
      ∀ i, (i < offset ∨ offset + l.length ≤ i) → b.byte i = b₀.byte i := by
  unfold Buffer.copy at h
  split at h
  · obtain rfl := Option.some.inj h
    refine ⟨rfl, fun j hj => by simp [hj], fun i hi => ?_⟩
    dsimp only
    split
    · rw [List.getElem?_eq_none (by omega), Option.getD_none]
    · rfl
  · cases h

/-- To copy the right bytes to the buffer of an exchange keeps what it holds. -/
theorem Memory.holds_store {size offset : Nat} {junk : Nat → β} {l : List β}
    (h : Memory p C s r x k) (hsize : size = (C.full k r).length)
    (hl : ∀ j < l.length, (C.full k r)[offset + j]? = l[j]?)
    (hb : store p.alloc (x.data (parity k)) size junk offset l = some b) :
    Holds p C s r x k b ∧ ∀ j < l.length, (C.full k r)[offset + j]? = some (b.byte (offset + j)) := by
  obtain ⟨b₀, hb₀, hcopy⟩ := Option.bind_eq_some_iff.mp hb
  obtain ⟨hbs, hnew, hold⟩ := copy_some hcopy
  have hright : ∀ j < l.length, (C.full k r)[offset + j]? = some (b.byte (offset + j)) :=
    fun j hj => (hl j hj).trans (hnew j hj)
  refine ⟨?_, hright⟩
  unfold Memory at h
  cases hd : x.data (parity k) with
  | none =>
    rw [hd] at h hb₀
    simp only [allocated] at hb₀
    split at hb₀
    · obtain rfl := Option.some.inj hb₀
      exact ⟨hbs.trans hsize, fun he => absurd (Or.inl he) h,
        fun t i _ ht hdel => absurd (Or.inr ⟨t, i, ht, hdel⟩) h⟩
    · cases hb₀
  | some b' =>
    rw [hd] at h hb₀
    obtain rfl := Option.some.inj hb₀
    have hkeep : ∀ i, (C.full k r)[i]? = some (b'.byte i) → (C.full k r)[i]? = some (b.byte i) := by
      intro i hi
      by_cases hin : offset ≤ i ∧ i < offset + l.length
      · have := hright (i - offset) (by omega)
        rwa [show offset + (i - offset) = i by omega] at this
      · rw [hold i (by omega)]
        exact hi
    exact ⟨hbs.trans h.1.size, fun he i hi => hkeep i (h.1.own he i hi),
      fun t i f ht hdel hf j hj => hkeep _ (h.1.arrived t i f ht hdel hf j hj)⟩

theorem Course.Sound.known_le (hC : C.Sound p K) (hk : k < K) (ht : t ≤ p.steps) :
    C.known k r t ≤ (C.full k r).length := by
  have hmono : ∀ d, t + d ≤ p.steps → C.known k r t ≤ C.known k r (t + d) := by
    intro d
    induction d with
    | zero => exact fun _ => Nat.le_refl _
    | succ d ih => exact fun h => (ih (by omega)).trans (hC.mono k r (t + d) hk (by omega))
  have := hmono (p.steps - t) (by omega)
  rwa [show t + (p.steps - t) = p.steps by omega, hC.whole k r hk] at this

theorem Memory.of_eq {x : Rank σ β} (hdata : x.data (parity k) = some b)
    (h : Holds p C s r x k b) (hbegun : Begun p C s r x k) : Memory p C s r x k := by
  unfold Memory
  rw [hdata]
  exact ⟨h, hbegun⟩

theorem Inv.lt_of_plan {P : Plan W β} (hC : C.Sound p K) (hs : Inv p C K s)
    (hP : p.plan r (s.rank r).control = some P) :
    (s.rank r).op < K ∧ P = C.plan (s.rank r).op r := by
  have hr := hs.onCourse r
  have hk : (s.rank r).op < K := by
    rcases Nat.lt_or_eq_of_le hr.op_le with h | h
    · exact h
    · rw [hr.control, h, hC.last] at hP
      cases hP
  rw [hr.control, hC.plan _ _ hk] at hP
  exact ⟨hk, (Option.some.inj hP).symm⟩

theorem inv_enter {P : Plan W β} {junk : Nat → β} (hC : C.Sound p K) (hs : Inv p C K s)
    (hp : (s.rank r).place = none) (hP : p.plan r (s.rank r).control = some P)
    (hb : store p.alloc ((s.rank r).data (s.rank r).phase) P.size junk 0 P.own = some b) :
    Inv p C K (s.set r
      { (s.rank r).setData (s.rank r).phase (some b) with place := some (0, 0) }) := by
  have hr := hs.onCourse r
  obtain ⟨hk, rfl⟩ := hs.lt_of_plan hC hP
  have hcons : ∀ k t, Rank.Consumed
      { (s.rank r).setData (s.rank r).phase (some b) with place := some (0, 0) } k t ↔
      (s.rank r).Consumed k t := by
    intro k t
    simp only [Rank.Consumed, hp, Rank.op, Rank.setData]
    simp
  have hown : ∀ j < (C.plan (s.rank r).op r).own.length,
      (C.full (s.rank r).op r)[0 + j]? = (C.plan (s.rank r).op r).own[j]? := by
    intro j hj
    rw [hC.own _ _ hk] at hj ⊢
    rw [List.getElem?_take_of_lt (by simpa using (by simp at hj; omega : j < C.known _ r 0)), Nat.zero_add]
  rw [hr.phase] at hb
  obtain ⟨hholds, hnew⟩ := (hs.memory r _ (Or.inl rfl)).holds_store (hC.size _ _ hk) hown hb
  have hlen : (C.plan (s.rank r).op r).own.length = C.known (s.rank r).op r 0 := by
    rw [hC.own _ _ hk, List.length_take]
    exact Nat.min_eq_left (hC.known_le hk (Nat.zero_le _))
  apply inv_local hs
  case hy =>
    refine ⟨hr.op_le, hr.results, hr.control, hr.phase, fun t n h => ?_, fun t n t' h ht => ?_⟩
    · obtain ⟨rfl, rfl⟩ := Prod.mk.inj (Option.some.inj h)
      exact ⟨hk, Nat.zero_le _, Nat.zero_le _, fun _ => rfl⟩
    · obtain ⟨rfl, rfl⟩ := Prod.mk.inj (Option.some.inj h)
      omega
  case hsent =>
    intro k t _
    simp only [Rank.sent, hp, Rank.op, Rank.setData]
    simp
  case hent =>
    intro k h
    exact h.imp id fun h => ⟨h.1, by simp⟩
  case hpast => exact fun j k hk => hs.past r j k hk
  case hheard =>
    intro j t n h hh
    obtain ⟨rfl, rfl⟩ := Prod.mk.inj (Option.some.inj h)
    exact Or.inl (hears_zero.mp hh).symm
  case hahead =>
    rintro m hm rfl
    rw [hcons]
    exact (hs.underway m hm).ahead
  case hcounter =>
    intro k t ht hc hle
    rw [hcons] at hc
    exact hs.counter r k t ht hc hle
  case hcomplete =>
    intro k t ht hc
    rw [hcons] at hc
    exact hs.complete r k t ht hc
  case hmemory =>
    rintro k (rfl | rfl)
    · apply Memory.of_eq (b := b)
      · show Function.update _ _ _ (parity (s.rank r).op) = _
        rw [hr.phase, Function.update_self]
      · refine ⟨hholds.size, fun _ i hi => ?_, hholds.arrived⟩
        have := hnew i (hlen.symm ▸ hi)
        rwa [Nat.zero_add] at this
      · exact Or.inl (Or.inr ⟨rfl, by simp⟩)
    · refine (hs.memory r _ (Or.inr rfl)).congr ?_ ?_ fun _ _ _ => Iff.rfl
      · show Function.update _ _ _ _ = _
        rw [hr.phase, Function.update_of_ne (parity_succ_ne _)]
      · have hnot : ∀ x : Rank σ β, x.op = (s.rank r).op → ¬x.Entered ((s.rank r).op + 1) := by
          rintro x hx (h | ⟨h, _⟩) <;> omega
        exact iff_of_false (hnot _ rfl) (hnot _ rfl)

end Gasnet.Exchange
