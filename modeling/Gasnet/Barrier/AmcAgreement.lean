import Mathlib.Data.Nat.Bits
import Gasnet.Barrier.Amc
import Gasnet.Barrier.AmdAgreement
import Gasnet.Barrier.Spec

/-! One barrier at a time is counted, and one at a time is answered. -/
namespace Gasnet.Barrier.Amc

variable {N : Nat} {s t : State N} {r q j : Fin N} {k n : Nat} {a : Tag} {m : Notify N}
  {d : Done N} {act : Action N} {ph : Bool}

namespace State

def abs (s : State N) : Spec.State N := ⟨s.notified, s.completed, s.arg⟩

/-- What all ranks said in barrier `k`. -/
def total (s : State N) (k : Nat) : Flat Arg := s.abs.total k

/-- What the ranks said that the leader has counted. -/
def countedTotal (s : State N) (k : Nat) : Flat Arg :=
  (s.counted k).toFinset.sup fun j => (s.arg j k).consensus

end State

structure NotifyInv (s : State N) (m : Notify N) : Prop where
  epoch : m.epoch = s.ended + 1
  phase : m.phase = m.epoch.bodd
  notified : s.notified m.src = m.epoch
  arg : m.arg = s.arg m.src m.epoch
  fresh : m.src ∉ s.counted m.epoch

structure DoneInv (s : State N) (d : Done N) : Prop where
  epoch : d.epoch = s.ended
  phase : d.phase = d.epoch.bodd
  waiting : s.completed d.dst < s.ended
  unset : (s.data d.dst).responseDone d.phase = false
  total : d.arg.consensus = s.total s.ended

structure Inv (s : State N) : Prop where
  phase : ∀ r, (s.data r).phase = (s.notified r).bodd
  inside : ∀ r, s.inside r = true → s.notified r = s.completed r + 1
  outside : ∀ r, s.inside r = false → s.notified r = s.completed r
  completed_le : ∀ r, s.completed r ≤ s.ended
  ended_le : ∀ r, s.ended ≤ s.notified r
  notify : ∀ m ∈ s.notifies, NotifyInv s m
  senders : (s.notifies.map Notify.src).Nodup
  once : ∀ k, (s.counted k).Nodup
  counted_le : ∀ k, ∀ r ∈ s.counted k, k ≤ s.notified r
  counted_all : ∀ k, 0 < k → k ≤ s.ended → ∀ r, r ∈ s.counted k
  count : ∀ k, s.ended < k → k ≤ s.ended + 2 →
    s.leader.count k.bodd = (s.counted k).length
  consensus : ∀ k, s.ended < k → k ≤ s.ended + 2 →
    (s.leader.consensus k.bodd).consensus = s.countedTotal k
  done : ∀ d ∈ s.dones ++ s.responding, DoneInv s d
  targets : ((s.dones ++ s.responding).map Done.dst).Nodup
  responding : ∀ d ∈ s.responding, (s.data d.dst).response d.phase = d.arg
  set : ∀ r ph, (s.data r).responseDone ph = true → ph = s.ended.bodd ∧
    s.completed r < s.ended ∧ ((s.data r).response ph).consensus = s.total s.ended
  result : ∀ r k, 0 < k → k ≤ s.completed r → (s.result r k).consensus = s.total k

theorem total_congr (h : ∀ j, t.arg j k = s.arg j k) : t.total k = s.total k := by
  simp only [State.total, Spec.State.total, State.abs, h]

theorem countedTotal_congr (hc : t.counted k = s.counted k)
    (h : ∀ j ∈ s.counted k, t.arg j k = s.arg j k) : t.countedTotal k = s.countedTotal k := by
  simp only [State.countedTotal, hc]
  exact Finset.sup_congr rfl fun j hj => by rw [h j (List.mem_toFinset.mp hj)]

theorem bodd_add_two (k : Nat) : (k + 2).bodd = k.bodd := by simp

theorem bodd_succ_ne (k : Nat) : (k + 1).bodd ≠ k.bodd := by simp

namespace Inv

theorem notified_le (hs : Inv s) (r : Fin N) : s.notified r ≤ s.ended + 1 := by
  have := hs.completed_le r
  cases h : s.inside r with
  | true => have := hs.inside r h; omega
  | false => have := hs.outside r h; omega

/-- No barrier is counted before it has begun. -/
theorem counted_later (hs : Inv s) (hk : s.ended + 1 < k) : s.counted k = [] := by
  refine List.eq_nil_iff_forall_not_mem.mpr fun r hr => ?_
  have := hs.counted_le k r hr
  have := hs.notified_le r
  omega

/-- Who is outside has completed all barriers that have ended. -/
theorem outside_eq (hs : Inv s) (hr : s.inside r = false) :
    s.notified r = s.ended ∧ s.completed r = s.ended := by
  have := hs.outside r hr
  have := hs.completed_le r
  have := hs.ended_le r
  omega

/-- What a rank finds done is the barrier it is in. -/
theorem done_eq (hs : Inv s) (hin : s.inside r = true)
    (hdone : (s.data r).responseDone (s.data r).phase = true) :
    s.notified r = s.ended ∧ s.completed r + 1 = s.ended := by
  have := (hs.set r _ hdone).2.1
  have := hs.inside r hin
  have := hs.ended_le r
  omega

/-- When the count is full, it is that of the next barrier, and all are in it. -/
theorem kick_full (hs : Inv s) (hN : 0 < N) (hcount : s.leader.count ph = N) :
    ph = (s.ended + 1).bodd ∧ (∀ r, r ∈ s.counted (s.ended + 1)) ∧
      ∀ r, s.notified r = s.ended + 1 ∧ s.completed r = s.ended := by
  have hph : ph = (s.ended + 1).bodd := by
    by_contra hne
    have heq : ph = (s.ended + 2).bodd := by
      cases ph <;> cases h : s.ended.bodd <;> simp_all
    have := hs.count (s.ended + 2) (by omega) (by omega)
    rw [← heq, hcount, hs.counted_later (by omega)] at this
    simp at this
    omega
  have hlen : (s.counted (s.ended + 1)).length = N := by
    rw [← hs.count _ (by omega) (by omega), ← hph, hcount]
  have hall : ∀ r, r ∈ s.counted (s.ended + 1) := by
    have hcard : (s.counted (s.ended + 1)).toFinset.card = Fintype.card (Fin N) := by
      rw [List.toFinset_card_of_nodup (hs.once _), hlen, Fintype.card_fin]
    intro r
    have := Finset.mem_univ r
    rwa [← (Finset.card_eq_iff_eq_univ _).mp hcard, List.mem_toFinset] at this
  refine ⟨hph, hall, fun r => ?_⟩
  have hle := hs.counted_le _ r (hall r)
  have hge := hs.completed_le r
  cases h : s.inside r with
  | true => have := hs.inside r h; omega
  | false => have := hs.outside r h; omega

end Inv

theorem inv_initial (N : Nat) : Inv (initial N) where
  phase _ := by simp [initial]
  inside _ h := by simp [initial] at h
  outside _ _ := rfl
  completed_le _ := le_rfl
  ended_le _ := le_rfl
  notify _ h := by simp [initial] at h
  senders := List.nodup_nil
  once _ := List.nodup_nil
  counted_le _ _ h := by simp [initial] at h
  counted_all k hpos hle := by simp only [initial] at hle; omega
  count _ _ _ := rfl
  consensus k _ _ := Tag.consensus_anonymous
  done _ h := by simp [initial] at h
  targets := List.nodup_nil
  responding _ h := by simp [initial] at h
  set _ _ h := by simp [initial] at h
  result r k hpos hle := by simp only [initial] at hle; omega

/-- To begin a barrier changes no argument of one before. -/
theorem enter_arg (hs : Inv s) (hout : s.inside r = false) (hk : k ≤ s.ended) (j : Fin N) :
    (s.enter r a).arg j k = s.arg j k := by
  have := hs.outside_eq hout
  by_cases hj : j = r
  · rw [hj]
    simp [show k ≠ s.notified r + 1 by omega]
  · simp [hj]

theorem enter_arg_of_ne (hj : j ≠ r) : (s.enter r a).arg j k = s.arg j k := by simp [hj]

theorem inv_notify (hs : Inv s) (hout : s.inside r = false) : Inv (s.notify r a) := by
  obtain ⟨hn, hc⟩ := hs.outside_eq hout
  have htot : ∀ k ≤ s.ended, (s.notify r a).total k = s.total k :=
    fun k hk => total_congr fun j => enter_arg hs hout hk j
  have hfresh : ∀ k, s.ended < k → r ∉ s.counted k := by
    intro k hk hr
    have := hs.counted_le k r hr
    omega
  have hctot : ∀ k, s.ended < k → (s.notify r a).countedTotal k = s.countedTotal k :=
    fun k hk => countedTotal_congr rfl fun j hj =>
      enter_arg_of_ne fun h => hfresh k hk (h ▸ hj)
  constructor
  case phase =>
    intro q
    by_cases hq : q = r
    · simp [hq, hs.phase r]
    · simpa [hq] using hs.phase q
  case inside =>
    intro q hq
    by_cases h : q = r
    · simp [h, hn, hc]
    · simpa [h] using hs.inside q (by simpa [h] using hq)
  case outside =>
    intro q hq
    by_cases h : q = r
    · simp [h] at hq
    · simpa [h] using hs.outside q (by simpa [h] using hq)
  case completed_le => exact hs.completed_le
  case ended_le =>
    intro q
    by_cases h : q = r
    · simp [h, hn]
    · simpa [h] using hs.ended_le q
  case notify =>
    intro m hm
    rcases List.mem_cons.mp hm with rfl | hm
    · exact ⟨by simp [hn], by simp [hs.phase r], by simp, by simp, hfresh _ (by simp [hn])⟩
    · have hi := hs.notify m hm
      have hne : m.src ≠ r := by
        intro h
        have := hi.notified
        rw [h, hi.epoch] at this
        omega
      exact ⟨hi.epoch, hi.phase, by simpa [hne] using hi.notified, by simpa [hne] using hi.arg,
        hi.fresh⟩
  case senders =>
    refine List.nodup_cons.mpr ⟨fun h => ?_, hs.senders⟩
    obtain ⟨m, hm, hsrc⟩ := List.mem_map.mp h
    have hi := hs.notify m hm
    have := hi.notified
    rw [hsrc, hi.epoch] at this
    simp only at this
    omega
  case once => exact hs.once
  case counted_le =>
    intro k q hq
    by_cases h : q = r
    · have := hs.counted_le k q hq
      rw [h] at this ⊢
      simp
      omega
    · simpa [h] using hs.counted_le k q hq
  case counted_all => exact hs.counted_all
  case count => exact hs.count
  case consensus => exact fun k hlo hhi => (hs.consensus k hlo hhi).trans (hctot k hlo).symm
  case done =>
    intro d hd
    have hi := hs.done d hd
    refine ⟨hi.epoch, hi.phase, hi.waiting, ?_, hi.total.trans (htot _ le_rfl).symm⟩
    by_cases h : d.dst = r
    · rw [h]
      simpa [h] using hi.unset
    · simpa [h] using hi.unset
  case targets => exact hs.targets
  case responding =>
    intro d hd
    by_cases h : d.dst = r
    · rw [h]
      simpa [h] using hs.responding d hd
    · simpa [h] using hs.responding d hd
  case set =>
    intro q ph hset
    have hold : (s.data q).responseDone ph = true := by
      by_cases h : q = r
      · simpa [h] using hset
      · simpa [h] using hset
    obtain ⟨hph, hlt, heq⟩ := hs.set q ph hold
    refine ⟨hph, hlt, Eq.trans ?_ (heq.trans (htot _ le_rfl).symm)⟩
    by_cases h : q = r
    · simp [h]
    · simp [h]
  case result =>
    intro q k hpos hk
    exact (hs.result q k hpos hk).trans (htot k (hk.trans (hs.completed_le q))).symm

/-- Alone, a rank ends its barrier when it enters it. -/
theorem inv_singleton (hs : Inv s) (hout : s.inside r = false) (hN : N = 1) :
    Inv (s.singleton r a) := by
  subst hN
  have hr : ∀ q : Fin 1, q = r := fun q => Subsingleton.elim q r
  obtain ⟨hn, hc⟩ := hs.outside_eq hout
  have hcounted : ∀ k, s.ended < k → s.counted k = [] := by
    intro k hk
    refine List.eq_nil_iff_forall_not_mem.mpr fun q hq => ?_
    have := hs.counted_le k q hq
    rw [hr q] at this
    omega
  have htot : ∀ k ≤ s.ended, (s.singleton r a).total k = s.total k := by
    intro k hk
    refine total_congr fun j => ?_
    rw [hr j]
    simp [show k ≠ s.notified r + 1 by omega]
  have hnow : (s.singleton r a).total (s.ended + 1) = a.consensus := by
    have hone : (s.singleton r a).arg 0 (s.ended + 1) = a := by simp [hr 0, hn]
    simp only [State.total, Spec.State.total, State.abs, Finset.univ_unique, Finset.sup_singleton]
    exact congrArg Tag.consensus hone
  have hidle : s.dones ++ s.responding = [] := by
    refine List.eq_nil_iff_forall_not_mem.mpr fun d hd => ?_
    have := (hs.done d hd).waiting
    rw [hr d.dst] at this
    omega
  constructor
  case phase =>
    intro q
    simp [hr q, hs.phase r]
  case inside =>
    intro q _
    simp [hr q, hn, hc]
  case outside =>
    intro q hq
    simp [hr q] at hq
  case completed_le =>
    intro q
    simp [hr q, hc]
  case ended_le =>
    intro q
    simp [hr q, hn]
  case notify =>
    intro m hm
    have hi := hs.notify m hm
    have := hi.notified
    rw [hr m.src, hi.epoch] at this
    omega
  case senders => exact hs.senders
  case once =>
    intro k
    by_cases hk : k = s.ended + 1
    · simp [hk]
    · simpa [hk] using hs.once k
  case counted_le =>
    intro k q hq
    by_cases hk : k = s.ended + 1
    · simp [hr q, hk, hn]
    · have hold := hs.counted_le k q (by simpa [hk] using hq)
      rw [hr q] at hold ⊢
      simp
      omega
  case counted_all =>
    intro k hpos hle q
    by_cases hk : k = s.ended + 1
    · simp [hr q, hk]
    · simpa [hk] using hs.counted_all k hpos (by simp at hle; omega) q
  case count =>
    intro k hlo hhi
    simp only [State.singleton] at hlo hhi
    have hzero : ∀ k, s.ended < k → k ≤ s.ended + 2 → s.leader.count k.bodd = 0 := by
      intro k hlo hhi
      rw [hs.count k hlo hhi, hcounted k hlo, List.length_nil]
    have hnext : (s.singleton r a).counted k = s.counted k := by
      simp [show k ≠ s.ended + 1 by omega]
    rw [hnext, hcounted k (by omega), List.length_nil]
    by_cases hk : k = s.ended + 2
    · exact hzero k (by omega) (by omega)
    · obtain rfl : k = s.ended + 1 + 2 := by omega
      rw [bodd_add_two]
      exact hzero _ (by omega) (by omega)
  case consensus =>
    intro k hlo hhi
    simp only [State.singleton] at hlo hhi
    have hbot : ∀ k, s.ended < k → k ≤ s.ended + 2 →
        (s.leader.consensus k.bodd).consensus = .unknown := by
      intro k hlo hhi
      rw [hs.consensus k hlo hhi, State.countedTotal, hcounted k hlo]
      rfl
    have hnext : (s.singleton r a).counted k = s.counted k := by
      simp [show k ≠ s.ended + 1 by omega]
    have htop : (s.singleton r a).countedTotal k = .unknown := by
      rw [State.countedTotal, hnext, hcounted k (by omega)]
      rfl
    rw [htop]
    by_cases hk : k = s.ended + 2
    · exact hbot k (by omega) (by omega)
    · obtain rfl : k = s.ended + 1 + 2 := by omega
      rw [bodd_add_two]
      exact hbot _ (by omega) (by omega)
  case done =>
    intro d hd
    change d ∈ s.dones ++ s.responding at hd
    rw [hidle] at hd
    cases hd
  case targets => exact hs.targets
  case responding =>
    intro d hd
    have hmem : d ∈ s.dones ++ s.responding := List.mem_append_right s.dones hd
    rw [hidle] at hmem
    cases hmem
  case set =>
    intro q ph hset
    have hph : (!(s.data r).phase) = (s.ended + 1).bodd := by simp [hs.phase r, hn]
    by_cases h : ph = (s.ended + 1).bodd
    · refine ⟨h, by simp [hr q, hc], ?_⟩
      show _ = (s.singleton r a).total (s.ended + 1)
      rw [hnow, hr q, h, ← hph]
      simp
    · have hold : (s.data r).responseDone ph = true := by
        rw [hr q] at hset
        change ((Function.update s.data r _) r).responseDone ph = true at hset
        rw [Function.update_self] at hset
        change Function.update (s.data r).responseDone (!(s.data r).phase) true ph = true at hset
        rwa [hph, Function.update_of_ne h] at hset
      have := (hs.set r ph hold).2.1
      omega
  case result =>
    intro q k hpos hk
    exact (hs.result q k hpos hk).trans (htot k (hk.trans (hs.completed_le q))).symm

theorem inv_handle (hs : Inv s) (hm : m ∈ s.notifies) : Inv (s.handle m) := by
  have hi := hs.notify m hm
  have hep := hi.epoch
  have hmerged : ∀ k, s.ended < k → k ≤ s.ended + 2 → k ≠ m.epoch →
      k.bodd ≠ m.phase := by
    intro k hlo hhi hne
    obtain rfl : k = s.ended + 1 + 1 := by omega
    rw [hi.phase, hep]
    exact bodd_succ_ne _
  have hcount : s.leader.count m.phase = (s.counted m.epoch).length := by
    rw [hi.phase]
    exact hs.count _ (by omega) (by omega)
  have hcons : (s.leader.consensus m.phase).consensus = s.countedTotal m.epoch := by
    rw [hi.phase]
    exact hs.consensus _ (by omega) (by omega)
  constructor
  case phase => exact hs.phase
  case inside => exact hs.inside
  case outside => exact hs.outside
  case completed_le => exact hs.completed_le
  case ended_le => exact hs.ended_le
  case notify =>
    intro m' hm'
    have hold := List.mem_of_mem_erase hm'
    have hi' := hs.notify m' hold
    refine ⟨hi'.epoch, hi'.phase, hi'.notified, hi'.arg, ?_⟩
    have hsame : m'.epoch = m.epoch := hi'.epoch.trans hep.symm
    have hne : m'.src ≠ m.src := by
      intro heq
      have hnd : (m :: s.notifies.erase m).Pairwise (fun a b => a.src ≠ b.src) :=
        ((List.perm_cons_erase hm).map Notify.src).nodup_iff.mp hs.senders |> List.pairwise_map.mp
      exact (List.pairwise_cons.mp hnd).1 m' hm' heq.symm
    have hfresh := hi'.fresh
    rw [hsame] at hfresh ⊢
    simpa [hne] using hfresh
  case senders => exact hs.senders.sublist ((List.erase_sublist).map _)
  case once =>
    intro k
    by_cases hk : k = m.epoch
    · rw [hk]
      simpa using ⟨hi.fresh, hs.once m.epoch⟩
    · simpa [hk] using hs.once k
  case counted_le =>
    intro k r hr
    by_cases hk : k = m.epoch
    · rw [hk] at hr ⊢
      rcases List.mem_cons.mp (by simpa using hr) with rfl | hr
      · exact hi.notified.ge
      · exact hs.counted_le _ r hr
    · exact hs.counted_le k r (by simpa [hk] using hr)
  case counted_all =>
    intro k hpos hle r
    have hne : k ≠ m.epoch := by
      simp only [State.handle] at hle
      omega
    simpa [hne] using hs.counted_all k hpos hle r
  case count =>
    intro k hlo hhi
    by_cases hk : k = m.epoch
    · rw [hk, ← hi.phase]
      simp [hcount]
    · have := hmerged k hlo hhi hk
      simpa [hk, this] using hs.count k hlo hhi
  case consensus =>
    intro k hlo hhi
    by_cases hk : k = m.epoch
    · have htop : (s.handle m).countedTotal m.epoch = m.arg.consensus ⊔ s.countedTotal m.epoch := by
        simp [State.countedTotal, hi.arg]
      rw [hk, htop, ← hi.phase]
      simp [Tag.consensus_merge, hcons, sup_comm]
    · have := hmerged k hlo hhi hk
      have htop : (s.handle m).countedTotal k = s.countedTotal k :=
        countedTotal_congr (by simp [hk]) fun _ _ => rfl
      rw [htop]
      simpa [this] using hs.consensus k hlo hhi
  case done =>
    intro d hd
    have hd := hs.done d hd
    exact ⟨hd.epoch, hd.phase, hd.waiting, hd.unset, hd.total⟩
  case targets => exact hs.targets
  case responding => exact hs.responding
  case set => exact hs.set
  case result => exact hs.result

theorem inv_kick (hs : Inv s) (hN : 0 < N) (hcount : s.leader.count ph = N) :
    Inv (s.kick ph) := by
  obtain ⟨hph, hall, heq⟩ := hs.kick_full hN hcount
  have hquiet : s.dones ++ s.responding = [] := by
    refine List.eq_nil_iff_forall_not_mem.mpr fun d hd => ?_
    have := (hs.done d hd).waiting
    have := (heq d.dst).2
    omega
  have hdones : s.dones = [] := (List.append_eq_nil_iff.mp hquiet).1
  have hresp : s.responding = [] := (List.append_eq_nil_iff.mp hquiet).2
  have hunset : ∀ r ph, (s.data r).responseDone ph = false := by
    intro r ph
    by_contra hset
    have := (hs.set r ph (by simpa using hset)).2.1
    have := (heq r).2
    omega
  have htot : (s.leader.consensus ph).consensus = s.total (s.ended + 1) := by
    rw [hph, hs.consensus _ (by omega) (by omega)]
    have huniv : (s.counted (s.ended + 1)).toFinset = Finset.univ := by
      ext r
      simp [hall r]
    simp only [State.countedTotal, huniv]
    rfl
  have hlater : ∀ k, s.ended + 1 < k → k ≤ s.ended + 3 → s.counted k = [] ∧
      ((s.kick ph).leader.count k.bodd = 0) ∧
      ((s.kick ph).leader.consensus k.bodd).consensus = .unknown := by
    intro k hlo hhi
    refine ⟨hs.counted_later hlo, ?_⟩
    by_cases hk : k.bodd = ph
    · simp [hk]
    · obtain rfl : k = s.ended + 2 := by
        by_contra hne
        obtain rfl : k = s.ended + 1 + 2 := by omega
        exact hk (by rw [bodd_add_two, hph])
      have hc := hs.count (s.ended + 2) (by omega) (by omega)
      have ht := hs.consensus (s.ended + 2) (by omega) (by omega)
      rw [hs.counted_later hlo] at hc
      simp only [State.countedTotal, hs.counted_later hlo] at ht
      constructor
      · exact (Function.update_of_ne hk ..).trans hc
      · exact (congrArg Tag.consensus (Function.update_of_ne hk ..)).trans ht
  constructor
  case phase => exact hs.phase
  case inside => exact hs.inside
  case outside => exact hs.outside
  case completed_le => exact fun r => (hs.completed_le r).trans (Nat.le_succ _)
  case ended_le => exact fun r => (heq r).1.ge
  case notify =>
    intro m hm
    have hi := hs.notify m hm
    exact absurd (hi.epoch ▸ hall m.src) hi.fresh
  case senders => exact hs.senders
  case once => exact hs.once
  case counted_le => exact hs.counted_le
  case counted_all =>
    intro k hpos hle r
    simp only [State.kick] at hle
    by_cases hk : k = s.ended + 1
    · rw [hk]
      exact hall r
    · exact hs.counted_all k hpos (by omega) r
  case count =>
    intro k hlo hhi
    obtain ⟨hnil, hzero, _⟩ := hlater k hlo hhi
    rw [hzero]
    show 0 = (s.counted k).length
    rw [hnil, List.length_nil]
  case consensus =>
    intro k hlo hhi
    obtain ⟨hnil, _, hbot⟩ := hlater k hlo hhi
    rw [hbot]
    show _ = (s.counted k).toFinset.sup _
    rw [hnil]
    rfl
  case done =>
    intro d hd
    change d ∈ (_ ++ s.dones) ++ s.responding at hd
    rw [hdones, hresp, List.append_nil, List.append_nil] at hd
    obtain ⟨r, _, rfl⟩ := List.mem_map.mp hd
    exact ⟨rfl, hph, by simp [(heq r).2], hunset r _, htot⟩
  case targets =>
    show (((_ ++ s.dones) ++ s.responding).map Done.dst).Nodup
    rw [hdones, hresp, List.append_nil, List.append_nil, List.map_map]
    exact (List.map_id _).symm ▸ List.nodup_finRange N
  case responding =>
    intro d hd
    change d ∈ s.responding at hd
    rw [hresp] at hd
    cases hd
  case set =>
    intro r ph hset
    have := hunset r ph
    change (s.data r).responseDone ph = true at hset
    rw [this] at hset
    cases hset
  case result => exact hs.result

theorem inv_respond (hs : Inv s) (hd : d ∈ s.dones) : Inv (s.respond d) := by
  have hi := hs.done d (List.mem_append_left _ hd)
  have hperm : (s.dones.erase d ++ d :: s.responding).Perm (s.dones ++ s.responding) :=
    List.perm_middle.trans (((List.perm_cons_erase hd).symm).append_right s.responding)
  have hframe : ∀ q, ((s.respond d).data q).responseDone = (s.data q).responseDone ∧
      ((s.respond d).data q).phase = (s.data q).phase := by
    intro q
    by_cases hq : q = d.dst <;> simp [hq]
  have hother : ∀ e ∈ s.responding, e.dst ≠ d.dst := by
    intro e he heq
    have hnd : (d :: (s.dones.erase d ++ s.responding)).Pairwise (fun a b => a.dst ≠ b.dst) :=
      ((List.perm_middle.symm.trans hperm).map Done.dst).nodup_iff.mpr hs.targets |>
        List.pairwise_map.mp
    exact (List.pairwise_cons.mp hnd).1 e (List.mem_append_right _ he) heq.symm
  constructor
  case phase =>
    intro q
    rw [(hframe q).2]
    exact hs.phase q
  case inside => exact hs.inside
  case outside => exact hs.outside
  case completed_le => exact hs.completed_le
  case ended_le => exact hs.ended_le
  case notify =>
    intro m hm
    have hm := hs.notify m hm
    exact ⟨hm.epoch, hm.phase, hm.notified, hm.arg, hm.fresh⟩
  case senders => exact hs.senders
  case once => exact hs.once
  case counted_le => exact hs.counted_le
  case counted_all => exact hs.counted_all
  case count => exact hs.count
  case consensus => exact hs.consensus
  case done =>
    intro e he
    have he := hs.done e (hperm.mem_iff.mp he)
    exact ⟨he.epoch, he.phase, he.waiting, by rw [(hframe _).1]; exact he.unset, he.total⟩
  case targets => exact (hperm.map Done.dst).nodup_iff.mpr hs.targets
  case responding =>
    intro e he
    rcases List.mem_cons.mp he with rfl | he
    · simp
    · simpa [hother e he] using hs.responding e he
  case set =>
    intro q ph hset
    rw [(hframe q).1] at hset
    obtain ⟨hph, hlt, heq⟩ := hs.set q ph hset
    refine ⟨hph, hlt, Eq.trans ?_ heq⟩
    by_cases hq : q = d.dst
    · have hne : ph ≠ d.phase := by
        intro h
        have hunset := hi.unset
        rw [← hq, ← h, hset] at hunset
        cases hunset
      rw [hq]
      simp [hne]
    · simp [hq]
  case result => exact hs.result

theorem inv_markDone (hs : Inv s) (hd : d ∈ s.responding) : Inv (s.markDone d) := by
  have hi := hs.done d (List.mem_append_right _ hd)
  have hperm : (d :: (s.dones ++ s.responding.erase d)).Perm (s.dones ++ s.responding) :=
    List.perm_middle.symm.trans (((List.perm_cons_erase hd).symm).append_left s.dones)
  have hframe : ∀ q, ((s.markDone d).data q).response = (s.data q).response ∧
      ((s.markDone d).data q).phase = (s.data q).phase := by
    intro q
    by_cases hq : q = d.dst <;> simp [hq]
  have hother : ∀ e ∈ s.dones ++ s.responding.erase d, e.dst ≠ d.dst := by
    intro e he heq
    have hnd : (d :: (s.dones ++ s.responding.erase d)).Pairwise (fun a b => a.dst ≠ b.dst) :=
      (hperm.map Done.dst).nodup_iff.mpr hs.targets |> List.pairwise_map.mp
    exact (List.pairwise_cons.mp hnd).1 e he heq.symm
  constructor
  case phase =>
    intro q
    rw [(hframe q).2]
    exact hs.phase q
  case inside => exact hs.inside
  case outside => exact hs.outside
  case completed_le => exact hs.completed_le
  case ended_le => exact hs.ended_le
  case notify =>
    intro m hm
    have hm := hs.notify m hm
    exact ⟨hm.epoch, hm.phase, hm.notified, hm.arg, hm.fresh⟩
  case senders => exact hs.senders
  case once => exact hs.once
  case counted_le => exact hs.counted_le
  case counted_all => exact hs.counted_all
  case count => exact hs.count
  case consensus => exact hs.consensus
  case done =>
    intro e he
    have hne := hother e he
    have he := hs.done e (hperm.mem_iff.mp (List.mem_cons_of_mem _ he))
    exact ⟨he.epoch, he.phase, he.waiting, by simpa [hne] using he.unset, he.total⟩
  case targets =>
    have hnd := (hperm.map Done.dst).nodup_iff.mpr hs.targets
    exact (List.nodup_cons.mp hnd).2
  case responding =>
    intro e he
    rw [(hframe _).1]
    exact hs.responding e (List.mem_of_mem_erase he)
  case set =>
    intro q ph hset
    rw [(hframe q).1]
    by_cases hnew : q = d.dst ∧ ph = d.phase
    · obtain ⟨rfl, rfl⟩ := hnew
      refine ⟨by rw [hi.phase, hi.epoch]; rfl, hi.waiting, ?_⟩
      rw [hs.responding d hd]
      exact hi.total
    · refine hs.set q ph ?_
      by_cases hq : q = d.dst
      · have hne : ph ≠ d.phase := fun h => hnew ⟨hq, h⟩
        rw [hq] at hset ⊢
        simpa [hne] using hset
      · simpa [hq] using hset
  case result => exact hs.result

theorem inv_wait (hs : Inv s) (hin : s.inside r = true)
    (hdone : (s.data r).responseDone (s.data r).phase = true) : Inv (s.wait r) := by
  obtain ⟨hn, hc⟩ := hs.done_eq hin hdone
  obtain ⟨hph, _, hresult⟩ := hs.set r _ hdone
  have hframe : ∀ q, ((s.wait r).data q).response = (s.data q).response ∧
      ((s.wait r).data q).phase = (s.data q).phase := by
    intro q
    by_cases hq : q = r <;> simp [hq]
  have hclear : ∀ q ph, ((s.wait r).data q).responseDone ph = true →
      q ≠ r ∧ (s.data q).responseDone ph = true := by
    intro q ph hset
    by_cases hq : q = r
    · rw [hq] at hset
      change (Function.update s.data r _ r).responseDone ph = true at hset
      rw [Function.update_self] at hset
      change Function.update (s.data r).responseDone _ false ph = true at hset
      by_cases h : ph = (s.data r).phase
      · rw [h, Function.update_self] at hset
        cases hset
      · rw [Function.update_of_ne h] at hset
        exact absurd ((hs.set r ph hset).1.trans hph.symm) h
    · exact ⟨hq, by simpa [hq] using hset⟩
  constructor
  case phase =>
    intro q
    rw [(hframe q).2]
    exact hs.phase q
  case inside =>
    intro q hq
    have h : q ≠ r := fun h => by simp [h] at hq
    simpa [h] using hs.inside q (by simpa [h] using hq)
  case outside =>
    intro q hq
    by_cases h : q = r
    · simp [h, hn, hc]
    · simpa [h] using hs.outside q (by simpa [h] using hq)
  case completed_le =>
    intro q
    by_cases h : q = r
    · simp [h, hc]
    · simpa [h] using hs.completed_le q
  case ended_le => exact hs.ended_le
  case notify =>
    intro m hm
    have hm := hs.notify m hm
    exact ⟨hm.epoch, hm.phase, hm.notified, hm.arg, hm.fresh⟩
  case senders => exact hs.senders
  case once => exact hs.once
  case counted_le => exact hs.counted_le
  case counted_all => exact hs.counted_all
  case count => exact hs.count
  case consensus => exact hs.consensus
  case done =>
    intro e he
    have he := hs.done e he
    have hne : e.dst ≠ r := by
      intro heq
      have hunset := he.unset
      rw [heq, he.phase, he.epoch, ← hph, hdone] at hunset
      cases hunset
    exact ⟨he.epoch, he.phase, by simpa [hne] using he.waiting, by simpa [hne] using he.unset,
      he.total⟩
  case targets => exact hs.targets
  case responding =>
    intro e he
    rw [(hframe _).1]
    exact hs.responding e he
  case set =>
    intro q ph hset
    obtain ⟨hne, hold⟩ := hclear q ph hset
    obtain ⟨h₁, h₂, h₃⟩ := hs.set q ph hold
    rw [(hframe q).1]
    exact ⟨h₁, by simpa [hne] using h₂, h₃⟩
  case result =>
    intro q k hpos hk
    show _ = s.total k
    by_cases h : q = r ∧ k = s.ended
    · obtain ⟨rfl, rfl⟩ := h
      simpa [hc] using hresult
    · by_cases hq : q = r
      · subst hq
        have hne : k ≠ s.ended := fun hk => h ⟨rfl, hk⟩
        have hle : k ≤ s.completed q := by
          simp only [State.wait, Function.update_self] at hk
          omega
        simpa [hc, hne] using hs.result q k hpos hle
      · simpa [hq] using hs.result q k hpos (by simpa [hq] using hk)

theorem inv_step (h : Step s act t) (hs : Inv s) : Inv t := by
  cases h with
  | notify hout => exact inv_notify hs hout
  | singleton hout hN => exact inv_singleton hs hout hN
  | handle hm => exact inv_handle hs hm
  | kick hN hcount => exact inv_kick hs hN hcount
  | respond hd => exact inv_respond hs hd
  | markDone hd => exact inv_markDone hs hd
  | wait hin hdone => exact inv_wait hs hin hdone

theorem inv_reachable (h : Reachable Step (initial N) s) : Inv s :=
  h.invariant inv_step (inv_initial N)

end Gasnet.Barrier.Amc

/-! The dissemination barrier refines the specification of a barrier. -/
namespace Gasnet.Barrier.Amd

variable {N : Nat} {s t : State N} {r : Fin N} {a : Tag} {act : Action N}

def State.abs (s : State N) : Spec.State N := ⟨s.notified, s.completed, s.arg⟩

/-- A barrier is entered when the phase changes. -/
def Action.event (s : State N) : Action N → Option (Spec.Event N)
  | .send r => some (.notify r (s.data r).localArg)
  | .singleton r a => some (.notify r a)
  | .wait r a ok => some (.wait r a ok)
  | .notify _ _ | .handle _ | .markDone _ | .kick _ => none

theorem waitOk_eq_accepts (d : Data) (a : Tag) : d.waitOk a = accepts (d.recv d.phase) a := rfl

theorem refines_step (h : Step s act t) (hs : Inv s) :
    Spec.Simulates s.abs (act.event s) t.abs := by
  cases h with
  | notify | handle | markDone | kick => rfl
  | @send r hpc => exact Spec.Step.notify (hs.outside r (by simp [hpc]))
  | @singleton r a hpc => exact Spec.Step.notify (hs.outside r (by simp [hpc]))
  | @wait r a hpc hstep =>
    have hok : (s.data r).waitOk a = outcome (s.abs.total (s.abs.notified r)) a := by
      rw [waitOk_eq_accepts, accepts_eq_outcome, wait_total hs hpc hstep]
      rfl
    show Spec.Step s.abs (.wait r a _) _
    rw [hok]
    exact Spec.Step.wait (hs.inside r hpc) (wait_heard hs hpc hstep)

end Gasnet.Barrier.Amd

/-! The centralized barrier refines the specification of a barrier, and so agrees with the
dissemination barrier. -/
namespace Gasnet.Barrier.Amc

variable {N : Nat} {s t : State N} {r : Fin N} {k : Nat} {a : Tag} {act : Action N}

def Action.event : Action N → Option (Spec.Event N)
  | .notify r a | .singleton r a => some (.notify r a)
  | .wait r a ok => some (.wait r a ok)
  | .handle _ | .kick _ | .respond _ | .markDone _ => none

theorem waitOk_eq_accepts (d : Data) (a : Tag) :
    d.waitOk a = accepts (d.response d.phase) a := rfl

theorem refines_step (h : Step s act t) (hs : Inv s) :
    Spec.Simulates s.abs act.event t.abs := by
  cases h with
  | handle | kick | respond | markDone => rfl
  | notify hout => exact Spec.Step.notify (hs.outside _ hout)
  | singleton hout => exact Spec.Step.notify (hs.outside _ hout)
  | @wait r a hin hdone =>
    obtain ⟨hn, hc⟩ := hs.done_eq hin hdone
    have hok : (s.data r).waitOk a = outcome (s.abs.total (s.abs.notified r)) a := by
      rw [waitOk_eq_accepts, accepts_eq_outcome, (hs.set r _ hdone).2.2]
      show outcome (s.total s.ended) a = outcome (s.total (s.notified r)) a
      rw [hn]
    show Spec.Step s.abs (.wait r a _) _
    rw [hok]
    exact Spec.Step.wait (hs.inside r hin) fun j => hn.le.trans (hs.ended_le j)

/-- Every step is one of the specification, or internal. No rank completes a barrier before all
have notified it. The leader counts every rank once in each barrier, and ends it when all are
counted. What a rank finds is the fold of what all said. -/
theorem amcbarrier_refines (h : Reachable Step (initial N) s) :
    (∀ act t, Step s act t → Spec.Simulates s.abs act.event t.abs) ∧
    (∀ r j, s.completed r ≤ s.notified j) ∧
    (∀ k, (s.counted k).Nodup ∧ (0 < k → k ≤ s.ended → ∀ r, r ∈ s.counted k) ∧
      (s.ended < k → k ≤ s.ended + 2 → s.leader.count k.bodd = (s.counted k).length)) ∧
    (∀ r k, 0 < k → k ≤ s.completed r → (s.result r k).consensus = s.total k) ∧
    ∀ u, Reachable Amd.Step (Amd.initial N) u → ∀ k, (∀ j, u.arg j k = s.arg j k) →
      ∀ r q, 0 < k → k ≤ s.completed r → k ≤ u.completed q →
        (s.result r k).consensus = (u.result q k).consensus ∧
        ∀ a, accepts (s.result r k) a = accepts (u.result q k) a := by
  have hs := inv_reachable h
  refine ⟨fun act t hstep => refines_step hstep hs,
    fun r j => (hs.completed_le r).trans (hs.ended_le j),
    fun k => ⟨hs.once k, hs.counted_all k, hs.count k⟩, hs.result, ?_⟩
  intro u hu k harg r q hpos hr hq
  have heq : (s.result r k).consensus = (u.result q k).consensus := by
    rw [hs.result r k hpos hr, (Amd.inv_reachable hu).result q k hpos hq]
    simp only [State.total, Spec.State.total, State.abs, Amd.State.total, Amd.State.said, harg]
  refine ⟨heq, fun a => ?_⟩
  rw [accepts_eq_outcome, accepts_eq_outcome, heq]

local instance two_neZero : NeZero 2 := ⟨by decide⟩

/-- Two ranks, one barrier with the same name, and rank 0 already in the next. -/
def twoRanks : State 2 :=
  let m : Notify 2 := ⟨0, 1, true, ⟨5, 0⟩⟩
  let m' : Notify 2 := ⟨1, 1, true, ⟨5, 0⟩⟩
  let d : Done 2 := ⟨0, 1, true, ⟨5, 0⟩⟩
  let s := ((initial 2).notify 0 ⟨5, 0⟩).notify 1 ⟨5, 0⟩
  let s := ((((s.handle m').handle m).kick true).respond d).markDone d
  (s.wait 0).notify 0 ⟨7, 0⟩

theorem twoRanks_reachable : Reachable Step (initial 2) twoRanks :=
  ⟨_, .stepL (.notify (by decide) (by decide)) <|
    .stepL (.notify (by decide) (by decide)) <|
    .stepL (.handle (by decide)) <| .stepL (.handle (by decide)) <|
    .stepL (.kick (by decide) (by decide)) <| .stepL (.respond (by decide)) <|
    .stepL (.markDone (by decide)) <|
    .stepL (.wait (a := ⟨5, 0⟩) (by decide) (by decide)) <|
    .stepL (.notify (by decide) (by decide)) .refl⟩

theorem amcbarrier_refines_two : (twoRanks.result 0 1).consensus = twoRanks.total 1 :=
  (amcbarrier_refines twoRanks_reachable).2.2.2.1 0 1 (by decide) (by decide)

end Gasnet.Barrier.Amc
