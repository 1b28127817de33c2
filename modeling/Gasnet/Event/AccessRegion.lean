import Gasnet.Event.IopPlaces

/-! Every event bit of an access region is cleared once, when the region has ended and its
operations have completed. -/
namespace Gasnet.Event

variable {T : Type*} [DecidableEq T] {cfg : Config} {s s' : State T} {t u : T} {k l n : Nat}
  {c e : Cat} {d : Counter} {f : Finish T} {a : Action T}

theorem mod_valWidth (cfg : Config) (x : Nat) :
    x % 2 ^ cfg.valWidth % 2 ^ cfg.width = x % 2 ^ cfg.width :=
  Nat.mod_mod_of_dvd x (Nat.pow_dvd_pow 2 cfg.width_le)

/-- Numbers less than a turn apart are equal when they are so modulo a turn. -/
theorem eq_of_mod_eq {x y m : Nat} (h : x % m = y % m) (hle : x ≤ y) (hlt : y < x + m) :
    x = y := by
  have hsub : (y - x) % m = 0 := Nat.sub_mod_eq_zero_of_mod_eq h.symm
  rw [Nat.mod_eq_of_lt (by omega)] at hsub
  omega

/-- A finish in flight of the present counters. -/
theorem flight_mem (hf : f ∈ s.finishing) (hat : f.At t k c (s.counter t k c).resets) :
    f.count ∈ (s.credit t k c).flight :=
  List.mem_map_of_mem (List.mem_filter.mpr ⟨hf, by simpa using hat⟩)

theorem count_le (hs : Inv cfg s) (hf : f ∈ s.finishing)
    (hat : f.resets = (s.counter f.owner f.iop f.cat).resets) :
    f.count ≤ (s.counter f.owner f.iop f.cat).finished :=
  (hs.credit f.owner f.iop f.cat (hs.finishing f hf).iop).bound _ (flight_mem hf ⟨rfl, rfl, rfl, hat⟩)

/-- In range, the comparison of the code is the comparison of the counts. -/
theorem matches_iff (hs : Inv cfg s) (hf : f ∈ s.finishing)
    (hr : InRange cfg s (.check f)) :
    s.Matches cfg f ↔ f.count = (s.counter f.owner f.iop f.cat).started := by
  obtain ⟨hat, hlt⟩ := hr
  have hc := hs.counters f.owner f.iop f.cat
  have hle := count_le hs hf hat
  have hbal := hc.balance
  rw [State.Matches, (hs.finishing f hf).completed, hc.initiated, mod_valWidth]
  constructor
  · intro h
    exact eq_of_mod_eq h (by omega) hlt
  · intro h
    rw [h]

theorem flight_erase (hf : f ∈ s.finishing) (hat : f.At t k c (s.counter t k c).resets) :
    (s.credit t k c).flight.Perm
      (f.count :: ((s.finishing.erase f).filter fun g =>
        g.At t k c (s.counter t k c).resets).map Finish.count) := by
  have hperm := (List.perm_cons_erase hf).filter fun g => g.At t k c (s.counter t k c).resets
  rw [List.filter_cons_of_pos (by simpa using hat)] at hperm
  exact hperm.map Finish.count

omit [DecidableEq T] in
theorem filter_erase {α : Type*} [DecidableEq α] {p : α → Bool} {x : α} (h : p x = false)
    (xs : List α) : (xs.erase x).filter p = xs.filter p := by
  induction xs with
  | nil => rfl
  | cons y ys ih =>
    by_cases hy : y = x
    · subst hy
      rw [List.erase_cons_head, List.filter_cons_of_neg (by simp [h])]
    · rw [List.erase_cons_tail (by simpa using hy), List.filter_cons, List.filter_cons, ih]

theorem flight_erase_other (hat : ¬ f.At t k c (s.counter t k c).resets) :
    ((s.finishing.erase f).filter fun g => g.At t k c (s.counter t k c).resets) =
      s.finishing.filter fun g => g.At t k c (s.counter t k c).resets := by
  exact filter_erase (by simpa using hat) s.finishing

theorem credit_check (hs : Inv cfg s) (hf : f ∈ s.finishing) (hr : InRange cfg s (.check f))
    (hl : l ≠ 0) : Credit.Move (s.credit u l e) ((s.check cfg f).credit u l e) := by
  have hcount := counter_check cfg s f u l e
  have hfin := (check_lists cfg s f).2.2
  by_cases hkey : u = f.owner ∧ l = f.iop ∧ e = f.cat
  · obtain ⟨rfl, rfl, rfl⟩ := hkey
    have hat : f.At f.owner f.iop f.cat (s.counter f.owner f.iop f.cat).resets :=
      ⟨rfl, rfl, rfl, hr.1⟩
    have hperm := flight_erase hf hat
    by_cases hm : s.Matches cfg f
    · rw [if_pos ⟨hm, rfl, rfl, rfl⟩] at hcount
      rw [(matches_iff hs hf hr).mp hm] at hperm
      have hmove := Credit.Move.clear hperm
      simpa only [State.credit, hcount, hfin, Counter.setDone] using hmove
    · rw [if_neg fun h => hm h.1] at hcount
      have hmove := Credit.Move.pass hperm fun h => hm ((matches_iff hs hf hr).mpr h)
      simpa only [State.credit, hcount, hfin] using hmove
  · rw [if_neg fun h => hkey h.2] at hcount
    have hat : ¬ f.At u l e (s.counter u l e).resets :=
      fun h => hkey ⟨h.1.symm, h.2.1.symm, h.2.2.1.symm⟩
    have hnew : (s.check cfg f).credit u l e = s.credit u l e := by
      simp only [State.credit, hcount, hfin, flight_erase_other hat]
    rw [hnew]
    exact .stay

theorem flight_reset (hs : Inv cfg s) :
    (s.finishing.filter fun g => g.At t k c ((s.counter t k c).resets + 1)) = [] := by
  rw [List.filter_eq_nil_iff]
  intro g hg
  have hle := (hs.finishing g hg).resets
  simp only [decide_eq_true_eq]
  rintro ⟨rfl, rfl, rfl, hres⟩
  omega

/-- The iop of a new region: its counters are perhaps zeroed, and then armed. -/
theorem credit_armed (hs : Inv cfg s) (hcount : s'.counter t k c = s.armed cfg t k c)
    (hfin : s'.finishing = s.finishing) (hlive : (s.counter t k c).live = false)
    (hk : k ≠ 0) : (s'.credit t k c).Inv := by
  have hold := hs.credit t k c hk
  have hreset := Credit.inv_move (.reset (c := s.credit t k c) hlive) hold
  have harm := Credit.inv_move (.arm (c := s.credit t k c) hlive) hold
  have hboth := Credit.inv_move (.arm (by exact hlive)) hreset
  have hnil := flight_reset (t := t) (k := k) (c := c) hs
  unfold State.armed at hcount
  dsimp only at hcount
  cases hr : s.reuses t && cfg.resets c with
  | true =>
    rw [hr, if_pos rfl] at hcount
    cases hh : cfg.has c with
    | true =>
      rw [hh, if_pos rfl] at hcount
      simpa only [State.credit, hcount, hfin, Counter.arm, Counter.reset, hnil, List.map_nil] using hboth
    | false =>
      rw [hh, if_neg Bool.false_ne_true] at hcount
      simpa only [State.credit, hcount, hfin, Counter.reset, hnil, List.map_nil] using hreset
  | false =>
    rw [hr, if_neg Bool.false_ne_true] at hcount
    cases hh : cfg.has c with
    | true =>
      rw [hh, if_pos rfl] at hcount
      simpa only [State.credit, hcount, hfin, Counter.arm] using harm
    | false =>
      rw [hh, if_neg Bool.false_ne_true] at hcount
      rw [credit_congr hcount hfin]
      exact hold

/-- Work under way keeps the bit set. -/
theorem finished_lt (hs : Inv cfg s) (h : 0 < (s.counter t k c).pending ∨
    (s.counter t k c).credit = true) :
    (s.counter t k c).finished < (s.counter t k c).started := by
  have hbal := (hs.counters t k c).balance
  rcases h with h | h
  · omega
  · rw [h, Bool.toNat_true] at hbal
    omega

omit [DecidableEq T] in
theorem current_mem (s : State T) (t : T) (h : s.current t ≠ 0) : s.current t ∈ s.regions t := by
  unfold State.current at *
  cases hr : s.regions t with
  | nil => simp [hr] at h
  | cons k ks => simp

/-- Operations of any iop but an implicit one are counted against its event. -/
theorem next_of_pending (hs : Inv cfg s) (hk : k ≠ 0) (hp : 0 < (s.counter t k c).pending) :
    (s.iops t k).next ≠ none := by
  have hlive : (s.counter t k c).live = true :=
    (hs.credit t k c hk).live.mpr (Or.inl (finished_lt hs (Or.inl hp)))
  refine hs.used t k ?_
  by_contra hor
  rw [not_or] at hor
  rw [hs.idle t k c hor.1 hor.2] at hlive
  exact Bool.noConfusion hlive

theorem finish_eq {m : Nat} (hnext : (s.iops t k).next = some m) :
    s.finish cfg t k c n =
      s.finishReg cfg t k c n
        { s.counter t k c with pending := (s.counter t k c).pending - n } := by
  unfold State.finish
  rw [hnext]

theorem credit_step (h : Step cfg s a s') (hr : InRange cfg s a) (hs : Inv cfg s) (u : T)
    (l : Nat) (e : Cat) (hl : l ≠ 0) : (s'.credit u l e).Inv := by
  have hold := hs.credit u l e hl
  cases h with
  | @begin t =>
    have hcount := counter_begin cfg s t u l e
    have hfin := (begin_lists cfg s t u).2.2
    by_cases hk : u = t ∧ l = (s.takeIop t).1
    · obtain ⟨rfl, rfl⟩ := hk
      obtain ⟨_, hreg, hheld⟩ := takeIop_idle (t := u) hs.toLists
      rw [if_pos ⟨rfl, rfl⟩] at hcount
      exact credit_armed hs hcount hfin (hs.idle u _ e hreg hheld) hl
    · rw [if_neg hk] at hcount
      rw [credit_congr hcount hfin]
      exact hold
  | @start t c n hc =>
    have hcount := counter_setCounter s t (s.current t) c
      ((s.counter t (s.current t) c).start cfg n) u l e
    by_cases hk : u = t ∧ l = s.current t ∧ e = c
    · obtain ⟨rfl, rfl, rfl⟩ := hk
      rw [if_pos ⟨rfl, rfl, rfl⟩] at hcount
      have hcredit := hs.inside u _ (current_mem s u hl) e hc
      have hlt := finished_lt hs (Or.inr hcredit)
      have hmove := Credit.inv_move (.start (n := n) hlt) hold
      simp only [State.credit, hcount]
      exact hmove
    · rw [if_neg hk] at hcount
      rw [credit_congr hcount rfl]
      exact hold
  | pop =>
    rw [credit_congr (counter_pop ..) rfl]
    exact hold
  | sync =>
    rw [credit_congr (counter_sync ..) (sync_lists ..).2.2]
    exact hold
  | @balance t k c hk hcredit =>
    by_cases hkey : u = t ∧ l = k ∧ e = c
    · obtain ⟨rfl, rfl, rfl⟩ := hkey
      have hlt := finished_lt hs (Or.inr hcredit)
      have hnew : (s.balance cfg u l e).credit u l e = _ :=
        credit_finish 1 { s.counter u l e with credit := false } rfl rfl rfl rfl rfl
      rw [hnew]
      exact Credit.inv_move (.finish Nat.one_pos hlt) hold
    · rw [State.balance, credit_finish_other hkey]
      exact hold
  | @finish t k c n hn hle =>
    by_cases hkey : u = t ∧ l = k ∧ e = c
    · obtain ⟨rfl, rfl, rfl⟩ := hkey
      obtain ⟨m, hnext⟩ := Option.ne_none_iff_exists'.mp
        (next_of_pending hs hl (Nat.lt_of_lt_of_le hn hle))
      have hbal := (hs.counters u l e).balance
      have hfin : (s.counter u l e).finished + n ≤ (s.counter u l e).started := by omega
      rw [finish_eq hnext, credit_finish n
        { s.counter u l e with pending := (s.counter u l e).pending - n } rfl rfl rfl rfl rfl]
      exact Credit.inv_move (.finish hn hfin) hold
    · have hsame : (s.finish cfg t k c n).credit u l e = s.credit u l e := by
        unfold State.finish
        dsimp only
        split
        · exact credit_finish_other hkey
        · exact credit_congr ((counter_setCounter ..).trans (if_neg hkey)) rfl
      rw [hsame]
      exact hold
  | check hf => exact Credit.inv_move (credit_check hs hf hr hl) hold

/-- The value a finish carries is the count it reached, at the width of the counters. -/
theorem finishReg_inv (hc : CounterInv cfg (d.add cfg n)) (hk : k ≠ 0)
    (hf : f ∈ (s.finishReg cfg t k c n d).finishing) (hnot : f ∉ s.finishing) :
    FinishInv cfg (s.finishReg cfg t k c n d) f := by
  simp only [State.finishReg, List.mem_cons] at hf
  rcases hf with rfl | hf
  · refine ⟨hk, hc.completed, ?_⟩
    have hcount := counter_finishReg cfg s t k c n d t k c
    rw [if_pos ⟨rfl, rfl, rfl⟩] at hcount
    exact Nat.le_of_eq (congrArg Counter.resets hcount).symm
  · exact absurd hf hnot

theorem finishing_step (h : Step cfg s a s') (hs : Inv cfg s) (f : Finish T)
    (hf : f ∈ s'.finishing) : FinishInv cfg s' f := by
  by_cases hold : f ∈ s.finishing
  · have hi := hs.finishing f hold
    exact ⟨hi.iop, hi.completed, Nat.le_trans hi.resets (resets_step h _ _ _)⟩
  · have hc := counterInv_step h hs
    cases h with
    | @begin t =>
      rw [(begin_lists cfg s t t).2.2] at hf
      exact absurd hf hold
    | start | pop => exact absurd hf hold
    | @check g =>
      rw [(check_lists cfg s g).2.2] at hf
      exact absurd (List.mem_of_mem_erase hf) hold
    | sync =>
      rw [(sync_lists ..).2.2] at hf
      exact absurd hf hold
    | @balance t k c hk =>
      have hck := hc t k c
      rw [State.balance, counter_finishReg, if_pos ⟨rfl, rfl, rfl⟩] at hck
      exact finishReg_inv hck (lists_held hs.toLists hk).1 hf hold
    | @finish t k c n =>
      have hck := hc t k c
      rw [counter_finish, if_pos ⟨rfl, rfl, rfl⟩] at hck
      cases hnext : (s.iops t k).next with
      | some m =>
        rw [finish_eq hnext] at hf ⊢
        refine finishReg_inv hck ?_ hf hold
        rintro rfl
        rw [hs.implicit t] at hnext
        cases hnext
      | none =>
        simp only [State.finish, hnext] at hf
        exact absurd hf hold

theorem inv_initial (cfg : Config) : Inv cfg (initial T) where
  nodup _ := by simp [initial]
  alloc _ k hk := by
    simp [initial] at hk
    simp [initial, hk]
  used _ _ h := by simp [initial] at h
  implicit _ := rfl
  idle _ _ _ _ _ := rfl
  inside _ _ h := by simp [initial] at h
  counters _ _ _ := ⟨(Nat.zero_mod _).symm, (Nat.zero_mod _).symm, rfl⟩
  finishing _ h := by simp [initial] at h
  credit _ _ _ _ :=
    ⟨Nat.le_refl _, List.nodup_nil, by simp [State.credit, initial],
      by simp [State.credit, State.counter, initial, Counter.zero], rfl⟩

theorem inv_step (h : BoundedStep cfg s a s') (hs : Inv cfg s) : Inv cfg s' where
  toLists := lists_step h.1 hs.toLists
  used := used_step h.1 hs
  implicit := implicit_step h.1 hs
  idle := idle_step h.1 hs
  inside := inside_step h.1 hs
  counters := counterInv_step h.1 hs
  finishing := finishing_step h.1 hs
  credit := credit_step h.1 h.2 hs

theorem inv_reachable (h : Reachable (BoundedStep cfg) (initial T) s) : Inv cfg s :=
  h.invariant inv_step (inv_initial cfg)

/-- Each time a region arms an event bit, the bit is cleared once: not before the region has
ended and the operations started for that bit are finished, and no later than the comparison of
the last of them; and a comparison that holds finds the bit set. -/
theorem access_region_event (h : Reachable (BoundedStep cfg) (initial T) s) :
    (∀ t k c, k ∈ s.regions t ∨ k ∈ s.held t → cfg.has c = true →
      (s.counter t k c).armed = (s.counter t k c).cleared + (s.counter t k c).live.toNat ∧
      ((s.counter t k c).live = false →
        k ∈ s.held t ∧ (s.counter t k c).credit = false ∧ (s.counter t k c).pending = 0) ∧
      ((s.counter t k c).credit = false → (s.counter t k c).pending = 0 →
        (∀ f ∈ s.finishing, ¬ (f.owner = t ∧ f.iop = k ∧ f.cat = c)) →
        (s.counter t k c).live = false)) ∧
    ∀ f s', BoundedStep cfg s (.check f) s' → s.Matches cfg f →
      (s.counter f.owner f.iop f.cat).live = true := by
  have hs := inv_reachable h
  refine ⟨fun t k c hk hc => ?_, fun f s' hstep hm => ?_⟩
  · have hzero : k ≠ 0 := by
      rintro rfl
      exact hs.used t 0 hk (hs.implicit t)
    have hcredit := hs.credit t k c hzero
    have hbal := (hs.counters t k c).balance
    refine ⟨?_, fun hlive => ?_, fun hend hpend hnone => ?_⟩
    · have honce := hcredit.once
      simp only [State.credit] at honce
      cases hl : (s.counter t k c).live <;> simpa [hl] using honce
    · obtain ⟨_, hpend, hend⟩ := started_eq hs hlive hzero
      refine ⟨hk.resolve_left fun hreg => ?_, hend, hpend⟩
      rw [hs.inside t k hreg c hc] at hend
      exact Bool.noConfusion hend
    · by_contra hlive
      rcases hcredit.live.mp (eq_true_of_ne_false hlive) with hlt | hmem
      · simp only [State.credit, hend, hpend, Bool.toNat_false] at hlt hbal
        omega
      · obtain ⟨f, hf, _⟩ := List.mem_map.mp hmem
        obtain ⟨hfin, hat⟩ := List.mem_filter.mp hf
        obtain ⟨h1, h2, h3, _⟩ := of_decide_eq_true hat
        exact hnone f hfin ⟨h1, h2, h3⟩
  · obtain ⟨hstep, hr⟩ := hstep
    cases hstep with
    | check hf =>
      have hcredit := hs.credit f.owner f.iop f.cat (hs.finishing f hf).iop
      refine hcredit.live.mpr (Or.inr ?_)
      have hmem := flight_mem hf ⟨rfl, rfl, rfl, hr.1⟩
      rwa [(matches_iff hs hf hr).mp hm] at hmem

def config (stats : Bool) : Config := ⟨32, 32, Nat.le_refl _, true, stats⟩

/-- Start `n` puts in the innermost region of the only thread. -/
def State.puts (cfg : Config) (s : State Unit) (n : Nat) : State Unit :=
  s.setCounter () (s.current ()) .put ((s.counter () (s.current ()) .put).start cfg n)

/-- One put, from the start of its region to the last comparison. -/
def onePut : State Unit :=
  let s := (((initial Unit).begin (config false) ()).puts (config false) 1).finish
    (config false) () 1 .put 1
  let s := (s.pop () 1 []).check (config false) ⟨(), 1, .put, 1, 1, 0⟩
  (s.balance (config false) () 1 .put).check (config false) ⟨(), 1, .put, 2, 2, 0⟩

theorem onePut_reachable : Reachable (BoundedStep (config false)) (initial Unit) onePut :=
  ⟨_, .stepL ⟨.begin (t := ()), trivial⟩ <| .stepL ⟨.start (t := ()) (c := .put) (n := 1) rfl, trivial⟩ <|
    .stepL ⟨.finish (t := ()) (k := 1) (c := .put) (n := 1) (by decide) (by decide),
      trivial⟩ <|
    .stepL ⟨.pop (t := ()) (k := 1) rfl, trivial⟩ <|
    .stepL ⟨.check (f := ⟨(), 1, .put, 1, 1, 0⟩) (by decide), by decide, by decide⟩ <|
    .stepL ⟨.balance (t := ()) (k := 1) (c := .put) (by decide) (by decide), trivial⟩ <|
    .stepL ⟨.check (f := ⟨(), 1, .put, 2, 2, 0⟩) (by decide), by decide, by decide⟩ .refl⟩

theorem access_region_event_put :
    (onePut.counter () 1 .put).armed =
      (onePut.counter () 1 .put).cleared + (onePut.counter () 1 .put).live.toNat :=
  ((access_region_event onePut_reachable).1 () 1 .put (by decide) rfl).1

/-- A full turn of puts, of which one has completed. -/
def fullTurn : State Unit :=
  let s := ((initial Unit).begin (config false) ()).puts (config false) (2 ^ 31)
  ((s.puts (config false) (2 ^ 31)).finish (config false) () 1 .put 1).check (config false)
    ⟨(), 1, .put, 1, 1, 0⟩

theorem fullTurn_reachable : Reachable (Step (config false)) (initial Unit) fullTurn :=
  ⟨_, .stepL (.begin (t := ())) <| .stepL (.start (t := ()) (c := .put) (n := 2 ^ 31) rfl) <|
    .stepL (.start (t := ()) (c := .put) (n := 2 ^ 31) rfl) <|
    .stepL (.finish (t := ()) (k := 1) (c := .put) (n := 1) (by decide) (by decide)) <|
    .stepL (.check (f := ⟨(), 1, .put, 1, 1, 0⟩) (by decide)) .refl⟩

/-- The last credit of a category of an ended region. -/
def State.settle (s : State Unit) (c : Cat) : State Unit :=
  (s.balance (config true) () 1 c).check (config true) ⟨(), 1, c, 1, 1, 0⟩

/-- A finish of the first of two puts sleeps until its iop is recycled in a statistics build. -/
def recycled : State Unit :=
  let s := ((initial Unit).begin (config true) ()).puts (config true) 2
  let s := (s.finish (config true) () 1 .put 1).finish (config true) () 1 .put 1
  let s := ((s.pop () 1 []).balance (config true) () 1 .put).check (config true)
    ⟨(), 1, .put, 3, 3, 0⟩
  let s := (((s.settle .get).settle .rmw).settle .alc).sync () () 1
  (s.begin (config true) ()).check (config true) ⟨(), 1, .put, 1, 1, 0⟩

theorem recycled_reachable : Reachable (Step (config true)) (initial Unit) recycled :=
  ⟨_, .stepL (.begin (t := ())) <| .stepL (.start (t := ()) (c := .put) (n := 2) rfl) <|
    .stepL (.finish (t := ()) (k := 1) (c := .put) (n := 1) (by decide) (by decide)) <|
    .stepL (.finish (t := ()) (k := 1) (c := .put) (n := 1) (by decide) (by decide)) <|
    .stepL (.pop (t := ()) (k := 1) rfl) <|
    .stepL (.balance (t := ()) (k := 1) (c := .put) (by decide) (by decide)) <|
    .stepL (.check (f := ⟨(), 1, .put, 3, 3, 0⟩) (by decide)) <|
    .stepL (.balance (t := ()) (k := 1) (c := .get) (by decide) (by decide)) <|
    .stepL (.check (f := ⟨(), 1, .get, 1, 1, 0⟩) (by decide)) <|
    .stepL (.balance (t := ()) (k := 1) (c := .rmw) (by decide) (by decide)) <|
    .stepL (.check (f := ⟨(), 1, .rmw, 1, 1, 0⟩) (by decide)) <|
    .stepL (.balance (t := ()) (k := 1) (c := .alc) (by decide) (by decide)) <|
    .stepL (.check (f := ⟨(), 1, .alc, 1, 1, 0⟩) (by decide)) <|
    .stepL (.sync (u := ()) (t := ()) (k := 1) (by decide)
      (fun c => by cases c <;> decide)) <|
    .stepL (.begin (t := ())) <|
    .stepL (.check (f := ⟨(), 1, .put, 1, 1, 0⟩) (by decide)) .refl⟩

/-- With 2 ^ 32 puts under way the first completion clears the bit of an open region; so does,
in a statistics build, a completion of an earlier use of the iop. -/
theorem access_region_event_early :
    (∃ s, Reachable (Step (config false)) (initial Unit) s ∧ 1 ∈ s.regions () ∧
      (s.counter () 1 .put).live = false ∧ 0 < (s.counter () 1 .put).pending) ∧
    ∃ s, Reachable (Step (config true)) (initial Unit) s ∧ 1 ∈ s.regions () ∧
      (s.counter () 1 .put).live = false :=
  ⟨⟨fullTurn, fullTurn_reachable, by decide, by decide, by decide⟩,
    recycled, recycled_reachable, by decide, by decide⟩

end Gasnet.Event
