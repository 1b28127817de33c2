import Gasnet.Coll.P2pTableRuns

/-! A record that grows keeps what it has, and zeros follow, as long as an `int` can count its
counters. -/
namespace Gasnet.Coll.P2p

variable {α : Type} {cfg : Config} {t u : Table} {sequence : BitVec 32}
  {nstates ncounters ndata n h k want limit w : Nat} {finalize : Bool} {p a : Addr} {r : Record}
  {fresh : Fresh}

theorem limit_eq (cfg : Config) : cfg.limit = 2 * cfg.totalRanks :=
  Nat.mod_eq_of_lt (by
    have := cfg.totalRanks_lt
    omega)

theorem want_le_newSz (h : want ≤ limit) : want ≤ newSz n want limit :=
  Nat.le_min.mpr ⟨h, Nat.le_max_left _ _⟩

theorem newSz_le : newSz n want limit ≤ limit := Nat.min_le_left _ _

/-- An array with zeros after it, as long as is wanted. -/
def pad (zero : α) (a : List α) (want limit : Nat) : List α :=
  if a.length < want then a ++ List.replicate (newSz a.length want limit - a.length) zero else a

theorem le_length_pad {zero : α} {x : List α} (h : want ≤ limit) :
    want ≤ (pad zero x want limit).length := by
  unfold pad
  split
  · rename_i hlt
    have := want_le_newSz (n := x.length) h
    rw [List.length_append, List.length_replicate]
    omega
  · omega

theorem length_realloc (f : Nat → α) (x : List α) (n : Nat) : (realloc f x n).length = n := by
  simp [realloc]

theorem take_realloc (f : Nat → α) (x : List α) (hn : x.length ≤ n) :
    (realloc f x n).take x.length = x := by
  refine List.ext_getElem (by simp [realloc, hn]) fun i hi hi' => ?_
  simp [realloc, List.getD_eq_getElem?_getD, hi']

theorem zeroFrom_realloc (f : Nat → BitVec w) (x : List (BitVec w)) (hn : x.length ≤ n) :
    zeroFrom (realloc f x n) x.length = x ++ List.replicate (n - x.length) 0 := by
  rw [zeroFrom, take_realloc f x hn, length_realloc]

/-- The loop clears the rest when its counter does not overflow. -/
theorem clearLoop_eq (fuel : Nat) (x : List Nat) (hlen : x.length = n) (hn : n ≤ 2 ^ 31)
    (hk : k ≤ n) (hfuel : n - k ≤ fuel) :
    clearLoop fuel (BitVec.ofNat 32 k) n x = x.take k ++ List.replicate (n - k) 0 := by
  induction fuel generalizing k x with
  | zero =>
    obtain rfl : k = n := by omega
    simp [clearLoop, ← hlen]
  | succ fuel ih =>
    have htoNat : (BitVec.ofNat 32 k).toNat = k := Nat.mod_eq_of_lt (by omega)
    have hext : ((BitVec.ofNat 32 k).signExtend 64).toNat =
        if k < 2 ^ 31 then k else k + (2 ^ 64 - 2 ^ 32) := by
      rw [BitVec.toNat_signExtend, BitVec.toNat_setWidth, htoNat, BitVec.msb_eq_decide, htoNat]
      split <;> rename_i h <;> simp only [decide_eq_true_eq] at h <;> split <;> omega
    rw [clearLoop, hext]
    rcases Nat.lt_or_ge k n with hlt | hge
    · rw [if_pos (show k < 2 ^ 31 by omega), if_pos hlt, htoNat,
        show BitVec.ofNat 32 k + 1 = BitVec.ofNat 32 (k + 1) from (BitVec.ofNat_add k 1).symm,
        ih (x.set k 0) (by simpa using hlen) (by omega) (by omega)]
      rw [List.take_set, List.take_add_one, List.set_append_right _ _ (by simp)]
      have hkx : k < x.length := by omega
      rw [List.getElem?_eq_getElem hkx, show n - k = n - (k + 1) + 1 by omega, List.replicate_succ]
      have hlenk : (x.take k).length = k := by
        rw [List.length_take]
        omega
      simp [hlenk]
    · obtain rfl : k = n := by omega
      rw [if_neg (show ¬(if k < 2 ^ 31 then k else k + (2 ^ 64 - 2 ^ 32)) < k by split <;> omega)]
      simp [← hlen]

/-- What lies beyond the range of an `int` is never cleared. -/
theorem clearLoop_keep (fuel : Nat) (i : BitVec 32) (x : List Nat) (hn : n ≤ 2 ^ 63) :
    (clearLoop fuel i n x)[2 ^ 31]? = x[2 ^ 31]? := by
  induction fuel generalizing i x with
  | zero => rfl
  | succ fuel ih =>
    rw [clearLoop]
    split
    · rename_i hlt
      rw [ih]
      refine List.getElem?_set_ne fun heq => ?_
      rw [BitVec.toNat_signExtend, BitVec.toNat_setWidth, BitVec.msb_eq_decide, heq] at hlt
      simp at hlt
      omega
    · rfl

namespace Record

/-- What a lookup should make of a record. -/
def enlarge (cfg : Config) (r : Record) (nstates ncounters ndata : Nat) (finalize : Bool) :
    Record :=
  if r.finalized then r
  else
    { sequence := r.sequence
      state := pad 0 r.state nstates cfg.limit
      counter := pad 0 r.counter ncounters cfg.limit
      data := pad 0 r.data ndata cfg.eagerBuffersz
      finalized := finalize }

end Record

theorem growState_eq (h : nstates ≤ cfg.limit) : r.growState cfg fresh nstates =
    { r with state := pad 0 r.state nstates cfg.limit } := by
  unfold Record.growState pad
  split
  · rename_i hlt
    have := want_le_newSz (n := r.state.length) h
    show { r with state := zeroFrom _ _ } = _
    rw [zeroFrom_realloc _ _ (by omega)]
  · rfl

theorem growData_eq (h : ndata ≤ cfg.eagerBuffersz) : r.growData cfg fresh ndata =
    { r with data := pad 0 r.data ndata cfg.eagerBuffersz } := by
  unfold Record.growData pad
  split
  · rename_i hlt
    have := want_le_newSz (n := r.data.length) h
    show { r with data := zeroFrom _ _ } = _
    rw [zeroFrom_realloc _ _ (by omega)]
  · rfl

theorem growCounter_eq (hcfg : cfg.totalRanks ≤ 2 ^ 30) (h : ncounters ≤ cfg.limit) :
    r.growCounter cfg fresh ncounters =
      { r with counter := pad 0 r.counter ncounters cfg.limit } := by
  unfold Record.growCounter pad
  split
  · rename_i hlt
    have hle := want_le_newSz (n := r.counter.length) h
    have hle' : newSz r.counter.length ncounters cfg.limit ≤ cfg.limit := newSz_le
    rw [limit_eq] at hle'
    show { r with counter := clearLoop _ _ _ _ } = _
    rw [clearLoop_eq _ _ (length_realloc _ _ _) (by rw [limit_eq]; omega) (by omega)
      (Nat.sub_le _ _), take_realloc _ _ (by omega)]
  · rfl

theorem grow_eq (hcfg : cfg.totalRanks ≤ 2 ^ 30)
    (hA : Admits cfg t sequence nstates ncounters ndata finalize)
    (hfinal : r.finalized = true → finalize = false) :
    { r.grow cfg fresh nstates ncounters ndata with
      finalized := (r.grow cfg fresh nstates ncounters ndata).finalized || finalize } =
      r.enlarge cfg nstates ncounters ndata finalize := by
  unfold Record.grow Record.enlarge
  split
  · rename_i hf
    rw [hfinal hf, Bool.or_false]
  · rename_i hf
    have hfalse : r.finalized = false := Bool.eq_false_iff.mpr hf
    rw [growState_eq hA.state, growCounter_eq hcfg hA.counter, growData_eq hA.data]
    simp only [hfalse, Bool.false_or]

/-- A lookup gives the record of its number, as large as was asked for: with all that it had if
there was one, and else as if new; and no other record changes. -/
structure Serves (cfg : Config) (t u : Table) (sequence : BitVec 32)
    (nstates ncounters ndata : Nat) (finalize : Bool) (a : Addr) : Prop where
  live : u.Live a
  number : (u.record a).sequence = sequence
  state : nstates ≤ (u.record a).state.length
  counter : ncounters ≤ (u.record a).counter.length
  data : ndata ≤ (u.record a).data.length
  found : ∀ p, t.Live p → (t.record p).sequence = sequence → a = p
  others : ∀ p, t.Live p → u.Live p ∧ (p ≠ a → u.record p = t.record p)
  keeps : t.Live a → u.record a = (t.record a).enlarge cfg nstates ncounters ndata finalize
  makes : ¬t.Live a →
    u.record a = (Record.blank sequence).enlarge cfg nstates ncounters ndata finalize

/-- The lists of the slots are sorted, with consistent back pointers, and a number has at most one
record in them. -/
structure Ordered (t : Table) : Prop where
  lists : ∀ i, ∃ xs, t.links.Path (.head i) xs none ∧ Sorted t xs ∧
    ∀ a ∈ xs, slotOf (t.record a).sequence = i
  unique : ∀ a b, t.Live a → t.Live b → (t.record a).sequence = (t.record b).sequence → a = b

/-- The table is in order, and serves every lookup that it admits. -/
def Good (cfg : Config) (t : Table) : Prop :=
  Ordered t ∧ ∀ fresh sequence nstates ncounters ndata finalize,
    Admits cfg t sequence nstates ncounters ndata finalize →
      Serves cfg t (t.get cfg fresh sequence nstates ncounters ndata finalize).1 sequence nstates
        ncounters ndata finalize (t.get cfg fresh sequence nstates ncounters ndata finalize).2

theorem ordered_reachable (h : Reachable (Step cfg) initial t) : Ordered t := by
  obtain ⟨chain, free, hI⟩ := inv_reachable h
  exact ⟨fun i => ⟨chain i, hI.holds.path i, hI.sorted i, hI.slot i⟩,
    fun a b ha hb heq => unique_of_live hI ha hb heq⟩

theorem enough_enlarge (hA : Admits cfg t sequence nstates ncounters ndata finalize)
    (hf : r.finalized = true → nstates ≤ r.state.length ∧ ncounters ≤ r.counter.length ∧
      ndata ≤ r.data.length) :
    nstates ≤ (r.enlarge cfg nstates ncounters ndata finalize).state.length ∧
      ncounters ≤ (r.enlarge cfg nstates ncounters ndata finalize).counter.length ∧
      ndata ≤ (r.enlarge cfg nstates ncounters ndata finalize).data.length := by
  unfold Record.enlarge
  split
  · rename_i h
    exact hf h
  · exact ⟨le_length_pad hA.state, le_length_pad hA.counter, le_length_pad hA.data⟩

theorem serves (hcfg : cfg.totalRanks ≤ 2 ^ 30) (h : Reachable (Step cfg) initial t)
    (hA : Admits cfg t sequence nstates ncounters ndata finalize) :
    Serves cfg t (t.get cfg fresh sequence nstates ncounters ndata finalize).1 sequence nstates
      ncounters ndata finalize (t.get cfg fresh sequence nstates ncounters ndata finalize).2 := by
  obtain ⟨chain, free, hI⟩ := inv_reachable h
  obtain ⟨w, a, chain', free', heq, hI', ha, hlive, hseq, hold, hnew, hfound, hkeep⟩ :=
    locate_spec hI hA
  have hget : t.get cfg fresh sequence nstates ncounters ndata finalize =
      (w.setRecord a { (w.record a).grow cfg fresh nstates ncounters ndata with
        finalized := ((w.record a).grow cfg fresh nstates ncounters ndata).finalized ||
          finalize }, a) := by
    simp only [Table.get, heq]
  have hfinal : (w.record a).finalized = true → finalize = false ∧
      nstates ≤ (w.record a).state.length ∧ ncounters ≤ (w.record a).counter.length ∧
      ndata ≤ (w.record a).data.length := by
    intro hf
    by_cases hal : t.Live a
    · rw [hold hal] at hf hseq ⊢
      exact hA.final a hal hseq hf
    · rw [hnew hal] at hf
      exact absurd hf Bool.false_ne_true
  have hrecord : { (w.record a).grow cfg fresh nstates ncounters ndata with
      finalized := ((w.record a).grow cfg fresh nstates ncounters ndata).finalized || finalize } =
      (w.record a).enlarge cfg nstates ncounters ndata finalize :=
    grow_eq hcfg hA fun hf => (hfinal hf).1
  have hself : (w.setRecord a ((w.record a).enlarge cfg nstates ncounters ndata finalize)).record
      a = (w.record a).enlarge cfg nstates ncounters ndata finalize := Function.update_self ..
  have hsequence : ((w.record a).enlarge cfg nstates ncounters ndata finalize).sequence =
      (w.record a).sequence := by
    unfold Record.enlarge
    split <;> rfl
  have hInew := inv_setRecord hI' ha hsequence
  have hsame : ∀ p, w.Live p → (w.setRecord a
      ((w.record a).enlarge cfg nstates ncounters ndata finalize)).Live p := fun p hp => hp
  rw [hget, hrecord]
  obtain ⟨h₁, h₂, h₃⟩ := enough_enlarge hA fun hf => (hfinal hf).2
  exact {
    live := hsame a ha
    number := by rw [hself, hsequence, hseq]
    state := by rw [hself]; exact h₁
    counter := by rw [hself]; exact h₂
    data := by rw [hself]; exact h₃
    found := hfound
    others := fun p hp => ⟨hsame p (hlive p hp), fun hne =>
      (Function.update_of_ne hne _ _).trans (hkeep p hne)⟩
    keeps := fun hal => by rw [hself, hold hal]
    makes := fun hal => by rw [hself, hnew hal] }

theorem admits_initial (h : ncounters ≤ cfg.limit) :
    Admits cfg initial sequence 0 ncounters 0 false := by
  have hnone : ∀ p, ¬initial.Live p := fun p hp => by
    obtain ⟨i, hi⟩ := (live_iff inv_initial).mp hp
    exact List.not_mem_nil hi
  exact {
    window := ⟨sequence, by simp [ahead32], fun p hp => absurd hp (hnone p)⟩
    state := Nat.zero_le _
    counter := h
    data := Nat.zero_le _
    final := fun p hp => absurd hp (hnone p) }

/-- With more ranks a first lookup leaves counters as the allocator has them. -/
theorem not_good_initial (hcfg : 2 ^ 30 < cfg.totalRanks) : ¬Good cfg initial := by
  rintro ⟨-, hserves⟩
  let fresh : Fresh := ⟨fun _ => 0, fun _ => 0, fun _ => 1⟩
  have hA : Admits cfg initial 0 0 cfg.limit 0 false := admits_initial (Nat.le_refl _)
  have hS := hserves fresh 0 0 cfg.limit 0 false hA
  obtain ⟨w, a, -, -, heq, -, -, -, -, -, hnew, -⟩ := locate_spec inv_initial hA
  have hnone : ¬initial.Live a := fun hp => by
    obtain ⟨i, hi⟩ := (live_iff inv_initial).mp hp
    exact List.not_mem_nil hi
  have hlimit := limit_eq cfg
  have hlt := cfg.totalRanks_lt
  have hsz : newSz 0 cfg.limit cfg.limit = cfg.limit := by simp [newSz]
  have hmakes := hS.makes
  simp only [Table.get, heq] at hmakes
  have hcounter := congrArg (fun r : Record => r.counter[2 ^ 31]?) (hmakes hnone)
  have hself : ∀ r, (w.setRecord a r).record a = r := fun r => Function.update_self ..
  have hgrow : ((Record.blank 0).grow cfg fresh 0 cfg.limit 0).counter =
      clearLoop cfg.limit (BitVec.ofNat 32 0) cfg.limit (realloc fresh.counter [] cfg.limit) := by
    have hpos : 0 < cfg.limit := by omega
    simp [Record.grow, Record.growState, Record.growCounter, Record.growData, Record.blank, hpos,
      hsz]
  have hpad : ((Record.blank 0).enlarge cfg 0 cfg.limit 0 false).counter =
      List.replicate cfg.limit 0 := by
    have hpos : 0 < cfg.limit := by omega
    simp [Record.enlarge, Record.blank, pad, hpos, hsz]
  simp only [hself, hnew hnone, hgrow, hpad] at hcounter
  rw [clearLoop_keep _ _ _ (by omega), List.getElem?_replicate, if_pos (by omega)] at hcounter
  have hone : realloc fresh.counter [] cfg.limit = List.replicate cfg.limit 1 := by
    simp [realloc, fresh]
  rw [hone, List.getElem?_replicate, if_pos (by omega)] at hcounter
  exact absurd (Option.some.inj hcounter) (by decide)

/-- In every run the lists are in order. Every lookup is served just when twice the ranks of the
team are no more than an `int` counts. -/
theorem p2p_table (cfg : Config) :
    (∀ t, Reachable (Step cfg) initial t → Ordered t) ∧
    (cfg.totalRanks ≤ 2 ^ 30 ↔ ∀ t, Reachable (Step cfg) initial t → Good cfg t) := by
  refine ⟨fun t h => ordered_reachable h, fun hcfg t h => ?_, fun h => ?_⟩
  · exact ⟨ordered_reachable h, fun fresh _ _ _ _ _ hA => serves hcfg h hA⟩
  · by_contra hcfg
    exact not_good_initial (Nat.lt_of_not_le hcfg) (h initial .refl)

/-- In a team of `2 ^ 30 + 1` ranks. -/
theorem p2p_table_large : ¬Good ⟨2 ^ 30 + 1, 1, by decide⟩ initial :=
  not_good_initial (by decide)

end Gasnet.Coll.P2p
