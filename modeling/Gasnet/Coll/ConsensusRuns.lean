import Gasnet.Coll.Consensus
import Gasnet.Foundation.Run

/-! The counter of a rank is the number of barriers it has entered and left, and a rank enters a
barrier only in a try of its identifier. -/
namespace Gasnet.Coll.Consensus

open Gasnet.Barrier (Tag)

variable {N : Nat} {debug : Bool} {s t u : State N} {r : Fin N} {l : Local} {n c k : Nat}
  {id : BitVec 32} {ids : List (BitVec 32)} {tried : List Nat} {why : Why} {a : Action N} {ok b : Bool} {pc : PC}

theorem toNat_ofNat_sub (x y : Nat) : (BitVec.ofNat 32 x - BitVec.ofNat 32 y).toNat =
    (2 ^ 32 - y % 2 ^ 32 + x % 2 ^ 32) % 2 ^ 32 := by
  rw [BitVec.toNat_sub, BitVec.toNat_ofNat, BitVec.toNat_ofNat]

theorem ofNat_sub_eq_iff {x y d : Nat} (hd : d < 2 ^ 32) :
    BitVec.ofNat 32 x - BitVec.ofNat 32 y = BitVec.ofNat 32 d ↔
      (2 ^ 32 - y % 2 ^ 32 + x % 2 ^ 32) % 2 ^ 32 = d := by
  rw [← BitVec.toNat_inj, toNat_ofNat_sub, BitVec.toNat_ofNat, Nat.mod_eq_of_lt hd]

theorem ofNat_succ (x : Nat) : BitVec.ofNat 32 x + 1 = BitVec.ofNat 32 (x + 1) :=
  (BitVec.ofNat_add x 1).symm

theorem ofNat_add_two (x : Nat) : BitVec.ofNat 32 x + 2 = BitVec.ofNat 32 (x + 2) :=
  (BitVec.ofNat_add x 2).symm

theorem ofNat_and_one (x : Nat) : BitVec.ofNat 32 x &&& 1 = 0 ↔ x % 2 = 0 := by
  rw [← BitVec.toNat_inj, BitVec.toNat_and, BitVec.toNat_ofNat]
  show _ &&& 1 = 0 ↔ _
  rw [Nat.and_one_is_mod]
  omega

/-- The `k`-th identifier. -/
def idAt (k : Nat) : BitVec 32 := BitVec.ofNat 32 (BASE + 2 * k)

/-- The counter of a rank that has notified `n` barriers and completed `c`. -/
def counter (n c : Nat) : BitVec 32 := BitVec.ofNat 32 (BASE + c + n)

theorem counter_succ_left (n c : Nat) : counter n c + 1 = counter (n + 1) c := ofNat_succ _

theorem counter_succ_right (n c : Nat) : counter n c + 1 = counter n (c + 1) := by
  rw [counter, ofNat_succ]
  exact congrArg _ (by omega)

theorem window_le (debug : Bool) : 1 ≤ window debug ∧ window debug ≤ 2 ^ 30 ∧
    (debug = true → window debug = 2 ^ 29) := by
  cases debug <;> simp [window]

theorem checked_of {p : Prop} [Decidable p] (h : p) : checked debug p pc = pc :=
  if_neg fun hn => hn.2 h

/-- What is known of a rank in a call for its `k`-th identifier. -/
structure Active (ids : List (BitVec 32)) (tried : List Nat) (k : Nat) (id : BitVec 32) :
    Prop where
  lt : k < ids.length
  id_eq : id = idAt k
  mem : k ∈ tried

/-- The place of a rank fits its counters. -/
def Place (debug : Bool) (ids : List (BitVec 32)) (tried : List Nat) (n c : Nat) : PC → Prop
  | .idle => True
  | .trying .predecessor k id => Active ids tried k id ∧ n = c + 1 ∧ k = n
  | .trying .own k id => Active ids tried k id ∧ n = c + 1 ∧ k = c
  | .trying .other k id => Active ids tried k id ∧ n = c + 1 ∧ n ≤ k + window debug
  | .turn k id => Active ids tried k id ∧ n = c ∧ k = n
  | .done k id => Active ids tried k id ∧ c ≤ k + window debug
  | .fatal => False

/-- A rank that has notified `n` barriers and completed `c`. -/
structure Coherent (debug : Bool) (l : Local) (n c : Nat) : Prop where
  le : c ≤ n
  le_succ : n ≤ c + 1
  consensusId : l.consensusId = counter n c
  issuedId : l.issuedId = idAt l.ids.length
  ids : ∀ k id, l.ids[k]? = some id → id = idAt k
  notified_le : n ≤ l.ids.length
  outstanding : l.ids.length ≤ c + window debug
  tried : ∀ i < n, i ∈ l.tried
  place : Place debug l.ids l.tried n c l.pc

theorem Place.active (h : Place debug ids tried n c (.trying why k id)) :
    Active ids tried k id ∧ n = c + 1 := by
  cases why <;> exact ⟨h.1, h.2.1⟩

theorem Place.mono {ids' : List (BitVec 32)} {tried' : List Nat}
    (hids : ids.length ≤ ids'.length) (htried : ∀ k ∈ tried, k ∈ tried')
    (h : Place debug ids tried n c pc) : Place debug ids' tried' n c pc := by
  have hactive : ∀ {k id}, Active ids tried k id → Active ids' tried' k id := fun ha =>
    ⟨Nat.lt_of_lt_of_le ha.lt hids, ha.id_eq, htried _ ha.mem⟩
  cases pc with
  | idle | fatal => exact h
  | turn k id | done k id => exact ⟨hactive h.1, h.2⟩
  | trying why k id => cases why <;> exact ⟨hactive h.1, h.2⟩

theorem safe_issued (hl : Coherent debug l n c) (hroom : l.ids.length < c + window debug) :
    seq32Safe debug l.issuedId l.consensusId := by
  intro hdebug
  have hwindow := (window_le debug).2.2 hdebug
  have hle := hl.le
  have hle' := hl.le_succ
  have hn := hl.notified_le
  rw [hl.issuedId, hl.consensusId, idAt, counter, BitVec.toNat_add, toNat_ofNat_sub]
  show (_ + 1073741824) % 2 ^ 32 < 2147483648
  simp only [BASE]
  omega

theorem create_pc (hl : Coherent debug l n c) (hroom : l.ids.length < c + window debug) :
    (l.create debug).pc = l.pc :=
  if_pos (safe_issued hl hroom)

theorem coherent_create (hl : Coherent debug l n c) (hroom : l.ids.length < c + window debug) :
    Coherent debug (l.create debug) n c where
  le := hl.le
  le_succ := hl.le_succ
  consensusId := hl.consensusId
  issuedId := by
    show l.issuedId + 2 = idAt (l.ids ++ [_]).length
    rw [hl.issuedId, idAt, ofNat_add_two, List.length_append, List.length_singleton]
    exact congrArg _ (by omega)
  ids k id h := by
    change (l.ids ++ [l.issuedId])[k]? = some id at h
    rcases Nat.lt_or_ge k l.ids.length with hk | hk
    · rw [List.getElem?_append_left hk] at h
      exact hl.ids k id h
    · obtain rfl : k = l.ids.length := by
        have := (List.getElem?_eq_some_iff.mp h).1
        rw [List.length_append, List.length_singleton] at this
        omega
      rw [List.getElem?_concat_length] at h
      exact (Option.some.inj h).symm.trans hl.issuedId
  notified_le := by
    show n ≤ (l.ids ++ [_]).length
    rw [List.length_append]
    exact Nat.le_add_right_of_le hl.notified_le
  outstanding := by
    show (l.ids ++ [_]).length ≤ _
    rw [List.length_append]
    exact hroom
  tried := hl.tried
  place := by
    rw [create_pc hl hroom]
    refine hl.place.mono ?_ fun k hk => hk
    show _ ≤ (l.ids ++ [l.issuedId]).length
    rw [List.length_append]
    exact Nat.le_add_right _ _

/-- The cases of the `switch`. -/
theorem branch_eq (hl : Coherent debug l n c) (ha : Active l.ids l.tried k id)
    (hold : n ≤ k + window debug) : l.branch k id =
      if 2 * k = c + n + 1 then .trying .predecessor k id
      else if 2 * k = c + n then .turn k id
      else if (c + n) % 2 ≠ 0 then .trying .other k id
      else .done k id := by
  have hw := window_le debug
  have hle := hl.le
  have hle' := hl.le_succ
  have hout := hl.outstanding
  have hk := ha.lt
  have hsub : ∀ d < 2 ^ 32, id - l.consensusId = BitVec.ofNat 32 d ↔
      (2 ^ 32 - (BASE + c + n) % 2 ^ 32 + (BASE + 2 * k) % 2 ^ 32) % 2 ^ 32 = d := by
    intro d hd
    rw [ha.id_eq, hl.consensusId]
    exact ofNat_sub_eq_iff hd
  have hone : id - l.consensusId = 1 ↔ 2 * k = c + n + 1 := by
    refine (hsub 1 (by decide)).trans ?_
    simp only [BASE]
    omega
  have hzero : id - l.consensusId = 0 ↔ 2 * k = c + n := by
    refine (hsub 0 (by decide)).trans ?_
    simp only [BASE]
    omega
  have hodd : l.consensusId &&& 1 = 0 ↔ (c + n) % 2 = 0 := by
    rw [hl.consensusId, counter, ofNat_and_one]
    simp only [BASE]
    omega
  simp only [Local.branch, hone, hzero, ne_eq, hodd]

theorem place_branch (hl : Coherent debug l n c) (ha : Active l.ids l.tried k id)
    (hold : n ≤ k + window debug) : Place debug l.ids l.tried n c (l.branch k id) := by
  have hle := hl.le
  have hle' := hl.le_succ
  rw [branch_eq hl ha hold]
  split
  · exact ⟨ha, by omega, by omega⟩
  · split
    · exact ⟨ha, by omega, by omega⟩
    · split
      · exact ⟨ha, by omega, hold⟩
      · exact ⟨ha, by omega⟩

/-- The identifier that a rank calls with passes the check that it is even. -/
theorem call_pc (hl : Coherent debug l n c) (hid : l.ids[k]? = some id) :
    (l.call debug k id).pc = l.branch k id := by
  have heven : id &&& 1 = 0 := by
    rw [hl.ids k id hid, idAt, ofNat_and_one]
    simp only [BASE]
    omega
  exact checked_of heven

theorem call_consensusId (l : Local) (k : Nat) (id : BitVec 32) :
    (l.call debug k id).consensusId = l.consensusId := rfl

/-- A rank that calls is active in what it calls for. -/
theorem coherent_tried (hl : Coherent debug l n c) (hid : l.ids[k]? = some id) :
    Active l.ids (k :: l.tried) k id ∧ Coherent debug { l with tried := k :: l.tried } n c :=
  ⟨⟨(List.getElem?_eq_some_iff.mp hid).1, hl.ids k id hid, List.mem_cons_self⟩,
    { hl with
      tried := fun i hi => List.mem_cons_of_mem _ (hl.tried i hi)
      place := hl.place.mono (Nat.le_refl _) fun _ => List.mem_cons_of_mem _ }⟩

theorem coherent_call (hl : Coherent debug l n c) (hid : l.ids[k]? = some id)
    (hold : n ≤ k + window debug) : Coherent debug (l.call debug k id) n c := by
  obtain ⟨ha, hl'⟩ := coherent_tried hl hid
  have hplace := place_branch hl' ha hold
  refine { hl' with place := ?_ }
  rw [call_pc hl hid]
  exact hplace

theorem coherent_notify (hl : Coherent debug l n c) (hpc : l.pc = .turn k id) :
    n = c ∧ k = n ∧ Coherent debug (l.notify debug k id) (n + 1) c := by
  have hplace := hl.place
  rw [hpc] at hplace
  obtain ⟨ha, rfl, rfl⟩ := hplace
  have hnext : l.consensusId + 1 = counter (k + 1) k := by rw [hl.consensusId, counter_succ_left]
  have hone : l.consensusId + 1 - id = 1 := by
    rw [hnext, ha.id_eq]
    refine (ofNat_sub_eq_iff (d := 1) (by decide)).mpr ?_
    simp only [BASE]
    omega
  refine ⟨rfl, rfl, { hl with
    le := Nat.le_succ k
    le_succ := Nat.le_refl _
    consensusId := hnext
    notified_le := ha.lt
    tried := ?_
    place := ?_ }⟩
  · intro i hi
    rcases Nat.lt_succ_iff_lt_or_eq.mp hi with hi | rfl
    · exact hl.tried i hi
    · exact ha.mem
  · show Place debug _ _ _ _ (checked debug _ _)
    rw [checked_of hone]
    exact ⟨ha, rfl, rfl⟩

theorem coherent_stay (hl : Coherent debug l n c) (hpc : l.pc = .trying why k id) :
    Coherent debug (l.stay debug why k id) n c := by
  have hplace := hl.place
  have hw := window_le debug
  rw [hpc] at hplace
  refine { hl with place := ?_ }
  cases why with
  | predecessor =>
    obtain ⟨ha, rfl, rfl⟩ := hplace
    have hone : id - l.consensusId = 1 := by
      rw [hl.consensusId, ha.id_eq]
      refine (ofNat_sub_eq_iff (d := 1) (by decide)).mpr ?_
      simp only [BASE]
      omega
    show Place debug _ _ _ _ (checked debug _ _)
    rw [checked_of hone]
    exact ⟨ha, by omega⟩
  | own =>
    obtain ⟨ha, rfl, rfl⟩ := hplace
    have hone : l.consensusId - id = 1 := by
      rw [hl.consensusId, ha.id_eq]
      refine (ofNat_sub_eq_iff (d := 1) (by decide)).mpr ?_
      simp only [BASE]
      omega
    show Place debug _ _ _ _ (checked debug _ _)
    rw [checked_of (Or.inl hone)]
    exact ⟨ha, by omega⟩
  | other =>
    obtain ⟨ha, rfl, hold⟩ := hplace
    exact ⟨ha, by omega⟩

theorem coherent_advance (hl : Coherent debug l n c) (hpc : l.pc = .trying why k id) :
    Coherent debug (l.advance debug why k id) n (c + 1) := by
  have hplace := hl.place
  have hw := window_le debug
  have hout := hl.outstanding
  rw [hpc] at hplace
  have hn : n = c + 1 := hplace.active.2
  have hnext : l.consensusId + 1 = counter n (c + 1) := by rw [hl.consensusId, counter_succ_right]
  refine { hl with
    le := by omega
    le_succ := by omega
    consensusId := hnext
    outstanding := ?_
    place := ?_ }
  · show l.ids.length ≤ _
    omega
  cases why with
  | predecessor =>
    obtain ⟨ha, rfl, rfl⟩ := hplace
    have heq : id = l.consensusId + 1 := by
      rw [hnext, ha.id_eq, idAt, counter]
      exact congrArg _ (by omega)
    show Place debug _ _ _ _ (checked debug _ _)
    rw [checked_of heq]
    exact ⟨ha, rfl, rfl⟩
  | own =>
    obtain ⟨ha, rfl, rfl⟩ := hplace
    have htwo : l.consensusId + 1 - id = 2 := by
      rw [hnext, ha.id_eq]
      refine (ofNat_sub_eq_iff (d := 2) (by decide)).mpr ?_
      simp only [BASE]
      omega
    show Place debug _ _ _ _ (checked debug _ _)
    rw [checked_of (Or.inr htwo)]
    exact ⟨ha, by omega⟩
  | other =>
    obtain ⟨ha, rfl, hold⟩ := hplace
    exact ⟨ha, hold⟩

/-- How far the counter is from the successor of an identifier, modulo `2 ^ 32`. -/
theorem toNat_counter_sub (hl : Coherent debug l n c) (ha : Active l.ids l.tried k id)
    (hold : c ≤ k + window debug) : (l.consensusId - (id + 2)).toNat =
      if k < c then c + n - 2 * k - 2 else 2 ^ 32 + c + n - 2 * k - 2 := by
  have hw := window_le debug
  have hle := hl.le
  have hle' := hl.le_succ
  have hout := hl.outstanding
  have hk := ha.lt
  rw [ha.id_eq, hl.consensusId, idAt, counter, ofNat_add_two, toNat_ofNat_sub]
  simp only [BASE]
  split <;> omega

theorem result_eq (hl : Coherent debug l n c) (hpc : l.pc = .done k id) :
    l.result id = decide (k < c) := by
  have hplace := hl.place
  rw [hpc] at hplace
  obtain ⟨ha, hold⟩ := hplace
  have hw := window_le debug
  have hle := hl.le
  have hle' := hl.le_succ
  have hout := hl.outstanding
  have hk := ha.lt
  show decide ((l.consensusId - (id + 2)).toNat < 2147483648) = _
  rw [toNat_counter_sub hl ha hold]
  congr 1
  split <;> refine propext ?_ <;> omega

theorem coherent_leave (hl : Coherent debug l n c) (hpc : l.pc = .done k id) :
    Coherent debug (l.leave debug id) n c := by
  have hplace := hl.place
  rw [hpc] at hplace
  obtain ⟨ha, hold⟩ := hplace
  have hle := hl.le
  have hle' := hl.le_succ
  have hout := hl.outstanding
  have hk := ha.lt
  have hsafe : seq32Safe debug l.consensusId (id + 2) := by
    intro hdebug
    have hw := (window_le debug).2.2 hdebug
    rw [BitVec.toNat_add, toNat_counter_sub hl ha hold]
    show (_ + 1073741824) % 2 ^ 32 < 2147483648
    split <;> omega
  refine { hl with place := ?_ }
  show Place debug _ _ _ _ (if seq32Safe _ _ _ then PC.idle else PC.fatal)
  rw [if_pos hsafe]
  trivial

/-- Every rank is coherent, and in a debug build all have named a barrier alike. -/
structure Inv (debug : Bool) (s : State N) : Prop where
  coherent : ∀ r, Coherent debug (s.loc r) (s.barrier.notified r) (s.barrier.completed r)
  arg : ∀ r k, k < s.barrier.notified r → s.barrier.arg r (k + 1) = name debug (counter (k + 1) k)

theorem inv_initial (N : Nat) (debug : Bool) : Inv debug (initial N) where
  coherent _ := {
    le := Nat.le_refl 0
    le_succ := Nat.zero_le _
    consensusId := rfl
    issuedId := rfl
    ids := fun _ _ h => by cases h
    notified_le := Nat.le_refl 0
    outstanding := Nat.zero_le _
    tried := fun _ h => absurd h (Nat.not_lt_zero _)
    place := trivial }
  arg _ _ h := absurd h (Nat.not_lt_zero _)

theorem inv_set (hs : Inv debug s)
    (hl : Coherent debug l (s.barrier.notified r) (s.barrier.completed r)) :
    Inv debug (s.set r l) where
  coherent j := by
    by_cases hj : j = r
    · subst hj
      simpa only [State.set, Function.update_self] using hl
    · simpa only [State.set, Function.update_of_ne hj] using hs.coherent j
  arg := hs.arg

theorem consensus_name (debug : Bool) (x : BitVec 32) (a : Flat Barrier.Arg)
    (ha : a = (name debug x).consensus) : Barrier.outcome a (name debug x) = true := by
  subst ha
  cases debug with
  | false =>
    show Barrier.outcome (Tag.consensus ⟨0, UNNAMED⟩) ⟨0, UNNAMED⟩ = true
    decide
  | true =>
    have hm : ¬(Tag.mk x 0).hasMismatch := fun h => h (BitVec.zero_and)
    have ha : ¬(Tag.mk x 0).hasAnonymous := fun h => h (BitVec.zero_and)
    show Barrier.outcome (Tag.consensus ⟨x, 0⟩) ⟨x, 0⟩ = true
    rw [Tag.consensus_of_named hm ha]
    exact decide_eq_true (Or.inr rfl)

/-- A rank that gets an answer has notified, as all have, and there is no mismatch. -/
theorem promised (hs : Inv debug s) (hpc : (s.loc r).pc = .trying why k id)
    (hok : Promised s.barrier r (name debug (s.loc r).consensusId) ok) :
    s.barrier.notified r = s.barrier.completed r + 1 ∧
      (∀ j, s.barrier.notified r ≤ s.barrier.notified j) ∧
      ok = Barrier.outcome (s.barrier.total (s.barrier.notified r))
        (name debug (s.loc r).consensusId) ∧ ok = true := by
  have hr := hs.coherent r
  have hplace := hr.place
  rw [hpc] at hplace
  have hn := hplace.active.2
  obtain ⟨hall, hout⟩ := hok hn
  refine ⟨hn, hall, hout, hout.trans ?_⟩
  refine consensus_name debug _ _ ?_
  have harg : ∀ j, s.barrier.arg j (s.barrier.notified r) =
      name debug (s.loc r).consensusId := by
    intro j
    have hj := hall j
    rw [hn] at hj ⊢
    rw [hs.arg j _ hj, hr.consensusId, hn]
  have : Nonempty (Fin N) := ⟨r⟩
  simp only [Barrier.Spec.State.total, harg]
  exact Finset.sup_const Finset.univ_nonempty _

theorem inv_step (h : WindowStep debug s a t) (hs : Inv debug s) : Inv debug t := by
  obtain ⟨h, hw⟩ := h
  cases h with
  | @create r hpc => exact inv_set hs (coherent_create (hs.coherent r) hw)
  | @call r k id hpc hid => exact inv_set hs (coherent_call (hs.coherent r) hid hw)
  | @notify r k id hpc =>
    obtain ⟨hout, hk, hl⟩ := coherent_notify (hs.coherent r) hpc
    constructor
    case coherent =>
      intro j
      by_cases hj : j = r
      · subst hj
        simpa only [State.set, Barrier.Spec.State.notify, Function.update_self] using hl
      · simpa only [State.set, Barrier.Spec.State.notify, Function.update_of_ne hj] using
          hs.coherent j
    case arg =>
      intro j i hi
      by_cases hj : j = r
      · subst hj
        simp only [Barrier.Spec.State.notify, Function.update_self] at hi ⊢
        rcases Nat.lt_succ_iff_lt_or_eq.mp hi with hi | rfl
        · rw [Function.update_of_ne (by omega)]
          exact hs.arg j i hi
        · rw [Function.update_self, (hs.coherent j).consensusId, counter_succ_left, hout]
      · simp only [Barrier.Spec.State.notify, Function.update_of_ne hj] at hi ⊢
        exact hs.arg j i hi
  | @notReady r why k id hpc => exact inv_set hs (coherent_stay (hs.coherent r) hpc)
  | @ready r why k id ok hpc hok =>
    obtain ⟨-, -, -, rfl⟩ := promised hs hpc hok
    have hl := coherent_advance (hs.coherent r) hpc
    constructor
    case coherent =>
      intro j
      by_cases hj : j = r
      · subst hj
        simpa only [State.set, Barrier.Spec.State.wait, Local.answer, Function.update_self,
          if_true] using hl
      · simpa only [State.set, Barrier.Spec.State.wait, Function.update_of_ne hj] using
          hs.coherent j
    case arg => exact hs.arg
  | @ret r k id hpc => exact inv_set hs (coherent_leave (hs.coherent r) hpc)

theorem inv_reachable (h : Reachable (WindowStep debug) (initial N) s) : Inv debug s :=
  h.invariant inv_step (inv_initial N debug)

/-- Notify and successful try alternate, as a split-phase barrier wants them. -/
theorem simulates_step (hs : Inv debug s) (h : Step debug s a t) :
    Barrier.Spec.Simulates s.barrier (a.event debug s) t.barrier := by
  cases h with
  | create | call | notReady | ret => rfl
  | @notify r k id hpc =>
    obtain ⟨hout, -, -⟩ := coherent_notify (hs.coherent r) hpc
    exact .notify hout
  | @ready r why k id ok hpc hok =>
    obtain ⟨hn, hall, hout, -⟩ := promised hs hpc hok
    show Barrier.Spec.Step s.barrier (.wait r _ ok) _
    rw [hout]
    exact .wait hn hall

/-- A try returns OK for the barriers that the rank has completed. -/
theorem ret_eq (hs : Inv debug s) (h : Step debug s (.ret r k b) t) :
    b = decide (k < s.barrier.completed r) := by
  cases h with
  | ret hpc => exact result_eq (hs.coherent r) hpc

theorem completed_step (h : Step debug s a t) (r : Fin N) :
    s.barrier.completed r ≤ t.barrier.completed r := by
  cases h with
  | create | call | notReady | ret | notify => exact Nat.le_refl _
  | @ready j =>
    show _ ≤ Function.update s.barrier.completed j _ r
    rw [Function.update_apply]
    split
    · rename_i h
      subst h
      exact Nat.le_succ _
    · exact Nat.le_refl _

/-- What a rank has completed, all have notified, each in a try of its own. -/
theorem tried_of_completed (hs : Inv debug s)
    (hall : ∀ i j, s.barrier.completed i ≤ s.barrier.notified j)
    (hk : k < s.barrier.completed r) (j : Fin N) : k ∈ (s.loc j).tried :=
  (hs.coherent j).tried k (Nat.lt_of_lt_of_le hk (hall r j))

/-- Nobody completes a barrier that another has not notified. -/
theorem completed_le_notified (h : Reachable (WindowStep debug) (initial N) s) (i j : Fin N) :
    s.barrier.completed i ≤ s.barrier.notified j := by
  suffices hgoal : Inv debug s ∧ ∀ i j, s.barrier.completed i ≤ s.barrier.notified j from
    hgoal.2 i j
  refine h.invariant (P := fun s => Inv debug s ∧
    ∀ i j, s.barrier.completed i ≤ s.barrier.notified j) ?_
    ⟨inv_initial N debug, fun _ _ => Nat.le_refl 0⟩
  rintro s a t h ⟨hs, hall⟩
  refine ⟨inv_step h hs, fun i j => ?_⟩
  cases h.1 with
  | create | call | notReady | ret => exact hall i j
  | @notify r =>
    show _ ≤ Function.update s.barrier.notified r _ j
    rw [Function.update_apply]
    split
    · rename_i heq
      subst heq
      exact Nat.le_succ_of_le (hall i j)
    · exact hall i j
  | @ready r why k id ok hpc hok =>
    obtain ⟨hn, hnot, -, -⟩ := promised hs hpc hok
    show Function.update s.barrier.completed r _ i ≤ _
    rw [Function.update_apply]
    split
    · rw [← hn]
      exact hnot j
    · exact hall i j

end Gasnet.Coll.Consensus
