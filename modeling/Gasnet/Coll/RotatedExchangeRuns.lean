import Gasnet.Coll.RotatedExchange

/-! The runs of rotated exchanges: what every call returns, while the totals fit the signed
arguments that carry them. -/
namespace Gasnet.Coll

open Exchange Rotation Dissemination

variable {N : Nat} {r q : Fin N} {i n k c : Nat} {limit : Nat}

/-- The pieces of a stream advance a counter by what the target waits for. -/
theorem sum_increment (hl : 0 < limit) (n : Nat) :
    ((pieces limit n 0).map fun x => increment x.2).sum = increment n := by
  rcases Nat.eq_zero_or_pos n with rfl | hn
  · unfold pieces
    simp [increment]
  · have hpos : ∀ x ∈ pieces limit n 0, increment x.2 = x.2 := by
      intro x hx
      have := pieces_pos hl hn hx
      exact if_neg (by omega)
    have hsum := pieces_sum hl (Nat.zero_le n)
    rw [List.map_congr_left hpos, hsum, increment, if_neg (by omega), Nat.sub_zero]

theorem increment_pos (n : Nat) : 0 < increment n := by
  unfold increment zeroRecvd
  split <;> omega

/-- A number below `2 ^ 31` is still the same when its sign has been extended. -/
theorem toNat_signExtend (h : n < 2 ^ 31) : ((BitVec.ofNat 32 n).signExtend 64).toNat = n := by
  have hmsb : (BitVec.ofNat 32 n).msb = false := by
    rw [BitVec.msb_eq_decide, BitVec.toNat_ofNat]
    simp
    omega
  rw [BitVec.signExtend_eq_setWidth_of_msb_false hmsb, BitVec.toNat_setWidth, BitVec.toNat_ofNat]
  omega

namespace RexchgvTeam

variable (t : RexchgvTeam N)

/-- The data of call `c`. -/
def src (c : Nat) : Fin N → List UInt8 := (t.calls[c]?).getD fun _ => []

def total (c : Nat) : Nat := ∑ q, sizes (t.src c) q

/-- The exchanges of all calls: the call, and whether its lengths are known. -/
def sched : Nat → Nat × Bool
  | 0 => (0, false)
  | k + 1 =>
    if (sched k).2 = false ∧ t.total (sched k).1 ≠ 0 then ((sched k).1, true)
    else ((sched k).1 + 1, false)

/-- The lengths in the order of the rank. -/
def lensOf (c : Nat) (r : Fin N) : List Nat :=
  (List.range N).map fun i => (t.src c (ahead r i)).length

/-- What call `c` returns at rank `r`. -/
def expected (c : Nat) (r : Fin N) : RexchgvReturn :=
  if t.total c = 0 then ⟨0, none, none⟩
  else ⟨t.total c, some (gather (t.src c) r N), some (t.lensOf c r)⟩

def control (k : Nat) (r : Fin N) : RexchgvControl where
  phase := parity k
  call := (t.sched k).1
  lens := if (t.sched k).2 then some (t.lensOf (t.sched k).1 r) else none
  returned := (List.range (t.sched k).1).map fun c => t.expected c r
  fatal := false

def contribution (k : Nat) (r : Fin N) : List UInt8 :=
  if (t.sched k).2 then t.src (t.sched k).1 r else sizeBytes (t.src (t.sched k).1 r).length

def planAt (k : Nat) (r : Fin N) : Plan RexchgvArgs UInt8 :=
  if (t.sched k).2 then
    t.dataPlan r (parity k) (t.src (t.sched k).1 r) fun i => (t.lensOf (t.sched k).1 r).getD i 0
  else t.lensPlan r (parity k) (t.src (t.sched k).1 r).length

variable {t}

/-- The check of 4 GB that every call makes. -/
def Checked (t : RexchgvTeam N) : Prop := ∀ c, t.total c ≤ 2 ^ 32 - 1

theorem checked_of_calls (h : ∀ src ∈ t.calls, ∑ q, sizes src q ≤ 2 ^ 32 - 1) : t.Checked := by
  intro c
  unfold total src
  cases hc : t.calls[c]? with
  | none => simp [sizes]
  | some s => exact h s (List.mem_of_getElem? hc)

theorem total_lt_of_calls (h : ∀ src ∈ t.calls, ∑ q, sizes src q < 2 ^ 31) (c : Nat) :
    t.total c < 2 ^ 31 := by
  unfold total src
  cases hc : t.calls[c]? with
  | none => simp [sizes]
  | some s => exact h s (List.mem_of_getElem? hc)

/-- The calls are made one after the other. -/
theorem sched_end (Q : Nat) :
    ∃ K, t.sched K = (Q, false) ∧ ∀ k < K, (t.sched k).1 < Q := by
  induction Q with
  | zero => exact ⟨0, rfl, fun k hk => absurd hk (Nat.not_lt_zero k)⟩
  | succ Q ih =>
    obtain ⟨K, hK, hlt⟩ := ih
    have hnow : ∀ k ≤ K, (t.sched k).1 < Q + 1 := by
      intro k hk
      rcases Nat.lt_or_eq_of_le hk with hk | rfl
      · exact Nat.lt_succ_of_lt (hlt k hk)
      · rw [hK]
        exact Nat.lt_succ_self Q
    by_cases htot : t.total Q = 0
    · refine ⟨K + 1, ?_, fun k hk => hnow k (by omega)⟩
      rw [sched, hK, if_neg (by simp [htot])]
    · have hmid : t.sched (K + 1) = (Q, true) := by
        rw [sched, hK, if_pos ⟨rfl, htot⟩]
      refine ⟨K + 2, ?_, fun k hk => ?_⟩
      · rw [sched, hmid, if_neg (by simp)]
      · rcases Nat.lt_or_eq_of_le (Nat.le_of_lt_succ hk) with hk | rfl
        · exact hnow k (by omega)
        · rw [hmid]
          exact Nat.lt_succ_self Q

theorem total_ne_zero (h : (t.sched k).2 = true) : t.total (t.sched k).1 ≠ 0 := by
  cases k with
  | zero => cases h
  | succ k =>
    unfold sched at h ⊢
    split at h
    · rw [if_pos ‹_›]
      exact (‹_ ∧ _› : _ ∧ _).2
    · cases h

theorem lensOf_getD (c : Nat) (r : Fin N) : ∀ j < N,
    (t.lensOf c r).getD j 0 = sizes (t.src c) (ahead r j) := by
  intro j hj
  simp [lensOf, hj, sizes]

theorem dataPlan_frags {src : Fin N → List UInt8} {len : Nat → Nat} {phase : Bool}
    (hw : ∑ q, sizes src q < 2 ^ 32) (hlen : ∀ j < N, len j = sizes src (ahead q j))
    (hi : i < bits (N - 1)) :
    (t.dataPlan q phase (src q) len).frags i = stream phase i (∑ q, sizes src q)
      (known (sizes src) (destRank q i) i) (share (sizes src) q i) (t.limit q (destRank q i)) := by
  have hpow := two_pow_le_of_lt_bits hi
  have hw' : ∑ q, sizes src q < 2 ^ 64 := by omega
  have hknown : known (sizes src) (destRank q i) i ≤ ∑ q, sizes src q :=
    (extent_mono (Nat.min_le_right _ _)).trans (extent_all _ _).le
  have hshare : share (sizes src) q i ≤ ∑ q, sizes src q :=
    (extent_mono (by omega)).trans (extent_all _ q).le
  simp only [dataPlan]
  rw [totalLen_eq hlen hw', rSums_eq hlen hw' hi, lSums_eq hlen hw' hi.le,
    Nat.mod_eq_of_lt (lt_of_le_of_lt hknown hw), min_known _ q (by omega),
    Nat.mod_eq_of_lt (lt_of_le_of_lt hshare hw)]

theorem dataPlan_expect {src : Fin N → List UInt8} {len : Nat → Nat} {phase : Bool}
    (hw : ∑ q, sizes src q < 2 ^ 32) (hlen : ∀ j < N, len j = sizes src (ahead r j))
    (hi : i < bits (N - 1)) :
    (t.dataPlan r phase (src r) len).expect i = increment (share (sizes src) (fwd r i) i) := by
  have hpow := two_pow_le_of_lt_bits hi
  have hw' : ∑ q, sizes src q < 2 ^ 64 := by omega
  have hshare : share (sizes src) (fwd r i) i ≤ ∑ q, sizes src q :=
    (extent_mono (by omega)).trans (extent_all _ _).le
  have hpos := r.pos
  simp only [dataPlan]
  rw [lSums_eq hlen hw' hi, lSums_eq hlen hw' hi.le, known_add_share (by omega),
    Nat.add_sub_cancel_left, Nat.mod_eq_of_lt (lt_of_le_of_lt hshare hw)]

theorem lens_share (q : Fin N) (i : Nat) :
    share (fun _ => 8) q i = min (2 ^ i) (N - 2 ^ i) * 8 := extent_const 8 q _

theorem lens_known (hi : 2 ^ i ≤ N) : known (fun _ => 8) q i = 2 ^ i * 8 := by
  rw [known, extent_const, Nat.min_eq_left hi]

theorem lensPlan_frags {phase : Bool} (hN : N < 2 ^ 29) (hi : i < bits (N - 1)) :
    (t.lensPlan q phase n).frags i = stream phase i (N * 8)
      (known (fun _ => 8) (destRank q i) i) (share (fun _ => 8) q i)
      (t.limit q (destRank q i)) := by
  have hpow := two_pow_le_of_lt_bits hi
  simp only [lensPlan]
  rw [lens_known (by omega), lens_share, Nat.mod_eq_of_lt (by omega : 2 ^ i * 8 < 2 ^ 32),
    Nat.mod_eq_of_lt (by omega)]
  congr 1
  omega

theorem lensPlan_expect {phase : Bool} (hN : N < 2 ^ 29) (hi : i < bits (N - 1)) :
    (t.lensPlan r phase n).expect i = increment (share (fun _ => 8) (fwd r i) i) := by
  have hpow := two_pow_le_of_lt_bits hi
  have := Nat.two_pow_pos i
  simp only [lensPlan]
  rw [lens_share, increment, if_neg (by omega), Nat.mod_eq_of_lt (by omega : 2 ^ i * 8 < 2 ^ 32),
    Nat.mod_eq_of_lt (by omega)]
  omega

theorem sizes_contribution (k : Nat) : sizes (t.contribution k) =
    if (t.sched k).2 then sizes (t.src (t.sched k).1) else fun _ => 8 := by
  funext q
  unfold sizes contribution
  split
  · rfl
  · exact length_sizeBytes _

theorem sum_contribution (k : Nat) : ∑ q, sizes (t.contribution k) q =
    if (t.sched k).2 then t.total (t.sched k).1 else N * 8 := by
  rw [sizes_contribution]
  split
  · rfl
  · simp

theorem sum_lt (hN : N < 2 ^ 29) (h : t.Checked) (k : Nat) :
    ∑ q, sizes (t.contribution k) q < 2 ^ 32 := by
  rw [sum_contribution]
  have := h (t.sched k).1
  split <;> omega

theorem planAt_frags (hN : N < 2 ^ 29) (h : t.Checked) (hi : i < bits (N - 1)) :
    (t.planAt k q).frags i = stream (parity k) i (∑ q, sizes (t.contribution k) q)
      (known (sizes (t.contribution k)) (destRank q i) i) (share (sizes (t.contribution k)) q i)
      (t.limit q (destRank q i)) := by
  have hw := sum_lt hN h k
  rw [sizes_contribution] at hw ⊢
  unfold planAt
  split
  · rw [if_pos ‹_›] at hw
    exact dataPlan_frags hw (lensOf_getD _ _) hi
  · rw [lensPlan_frags hN hi]
    simp

theorem planAt_expect (hN : N < 2 ^ 29) (h : t.Checked) (hi : i < bits (N - 1)) :
    (t.planAt k r).expect i = increment (share (sizes (t.contribution k)) (fwd r i) i) := by
  have hw := sum_lt hN h k
  rw [sizes_contribution] at hw ⊢
  unfold planAt
  split
  · rw [if_pos ‹_›] at hw
    exact dataPlan_expect hw (lensOf_getD _ _) hi
  · exact lensPlan_expect hN hi

theorem planAt_size (hN : N < 2 ^ 29) (h : t.Checked) : (t.planAt k r).size = ∑ q, sizes (t.contribution k) q := by
  have hw := sum_lt hN h k
  rw [sizes_contribution] at hw ⊢
  unfold planAt
  split
  · rw [if_pos ‹_›] at hw
    exact totalLen_eq (lensOf_getD _ _) (by omega)
  · simp [lensPlan]

theorem next_control (h : t.Checked) (k : Nat) (r : Fin N) :
    t.control (k + 1) r = next r (t.control k r) (gather (t.contribution k) r N) := by
  have htot := totalLen_eq (t.lensOf_getD (t.sched k).1 r)
    (lt_of_le_of_lt (h (t.sched k).1) (by omega))
  change totalLen _ N (bits (N - 1)) = t.total (t.sched k).1 at htot
  cases hd : (t.sched k).2 with
  | true =>
    have hne := total_ne_zero hd
    have hsched : t.sched (k + 1) = ((t.sched k).1 + 1, false) := by
      rw [sched, if_neg (by simp [hd])]
    have hsrc : t.contribution k = t.src (t.sched k).1 := by
      funext q
      rw [contribution, if_pos hd]
    simp only [next, control, hd, if_true, hsched, parity_succ, hsrc, htot]
    rw [List.range_succ, List.map_append, List.map_singleton, expected, if_neg hne]
    rfl
  | false =>
    have hdata : (List.range N).map (readSize (gather (t.contribution k) r N)) =
        t.lensOf (t.sched k).1 r := by
      have hgather : gather (t.contribution k) r N = (t.lensOf (t.sched k).1 r).flatMap sizeBytes := by
        simp only [gather, contribution, hd, lensOf, List.flatMap_map]
        rfl
      apply List.ext_getElem (by simp [lensOf])
      intro i h₁ h₂
      have hlt : (t.lensOf (t.sched k).1 r)[i] < 2 ^ 64 := by
        have hle := h (t.sched k).1
        have hone : sizes (t.src (t.sched k).1) (ahead r i) ≤ t.total (t.sched k).1 :=
          Finset.single_le_sum (fun _ _ => Nat.zero_le _) (Finset.mem_univ _)
        simp only [lensOf, List.getElem_map, List.getElem_range]
        unfold sizes at hone
        omega
      rw [List.getElem_map, List.getElem_range, hgather, readSize_sizes _ h₂ hlt]
    have hle := h (t.sched k).1
    simp only [next, control, hd, Bool.false_eq_true, if_false, hdata, htot, if_neg (Nat.not_lt.mpr hle)]
    by_cases hzero : t.total (t.sched k).1 = 0
    · have hsched : t.sched (k + 1) = ((t.sched k).1 + 1, false) := by
        rw [sched, if_neg (by simp [hzero])]
      simp only [hsched, hzero, if_true, parity_succ, Bool.false_eq_true, if_false]
      rw [List.range_succ, List.map_append, List.map_singleton, expected, if_pos hzero]
    · have hsched : t.sched (k + 1) = ((t.sched k).1, true) := by
        rw [sched, if_pos ⟨hd, hzero⟩]
      simp only [hsched, hzero, if_true, if_false, parity_succ]

/-- As long as no exchange is larger than its arguments can say, the calls are a course in which
every rank is to have all contributions. -/
theorem rotates {K : Nat} (p : Fin N → RexchgvControl → Option (Plan RexchgvArgs UInt8))
    (hN : 0 < K → N < 2 ^ 29) (h : t.Checked)
    (hfit : N ≠ 1 → ∀ k < K, ∑ q, sizes (t.contribution k) q < 2 ^ 31)
    (hruns : ∀ k < K, ∀ r, p r (t.control k r) = some (t.planAt k r))
    (hlast : ∀ r, p r (t.control K r) = none) :
    Rotates { t.program with plan := p } t.control t.planAt t.contribution K := by
  have hpow : ∀ i, i < bits (N - 1) → 2 ^ i < N := by
    intro i hi
    have := two_pow_le_of_lt_bits hi
    have := Nat.two_pow_pos i
    omega
  constructor
  case steps =>
    have := lt_two_pow_bits (N - 1)
    show N ≤ 2 ^ bits (N - 1)
    omega
  case steps_lt => exact hpow
  case peer => exact fun r i hi => destRank_fwd (hpow i hi).le
  case gain => exact increment_pos
  case ready =>
    intro a e hle
    show decide (e ≤ a) = true ↔ a = e
    rw [decide_eq_true_iff]
    omega
  case start => exact fun r => rfl
  case runs => exact fun k r hk => hruns k hk r
  case last => exact hlast
  case next => exact fun k r _ => next_control h k r
  case size => exact fun k r hk => planAt_size (hN (by omega)) h
  case alloc =>
    intro k hk
    have := sum_lt (hN (by omega)) h k
    exact decide_eq_true (by omega)
  case own =>
    intro k r _
    unfold planAt contribution
    split <;> rfl
  case frags =>
    intro k r i hk hi
    have hN := hN (by omega)
    refine ⟨t.limit (fwd r i) (destRank (fwd r i) i), t.limit_pos _ _, ?_⟩
    rw [planAt_frags hN h hi, stream, List.map_map]
    exact List.map_id _
  case landing =>
    intro k r i f hk hi hf
    change i < bits (N - 1) at hi
    have hN := hN (by omega)
    rw [planAt_frags hN h hi, destRank_fwd (hpow i hi).le] at hf
    obtain ⟨x, hx, rfl⟩ := List.mem_map.mp hf
    have hle := (mem_pieces (Nat.zero_le _) hx).2
    have hN1 : N ≠ 1 := by
      have := hpow i hi
      have := Nat.two_pow_pos i
      omega
    have hsum := hfit hN1 k hk
    have hadd := known_add_share (w := sizes (t.contribution k)) (hpow i hi) r
    have hknown : known (sizes (t.contribution k)) r (i + 1) ≤
        ∑ q, sizes (t.contribution k) q :=
      (extent_mono (Nat.min_le_right _ _)).trans (extent_all _ _).le
    have hbits : bits (N - 1) ≤ 29 := bits_le (by omega)
    obtain ⟨hphase, hstep⟩ := stepArg_unpack (parity k) (by omega : i < 32)
    show rexchgvReqh _ = _
    simp only [rexchgvReqh, hphase, hstep, toNat_signExtend hsum, BitVec.toNat_ofNat]
    rw [Nat.mod_eq_of_lt (by omega)]
  case expect =>
    intro k r i hk hi
    have hN := hN (by omega)
    rw [planAt_expect hN h hi, planAt_frags hN h hi, stream, List.map_map]
    exact (sum_increment (t.limit_pos _ _) _).symm

/-- In the order of the calls every rank has a plan until the calls are over. -/
theorem plan_control {Q : Nat} (hQ : Q ≤ t.calls.length) (hlt : (t.sched k).1 < Q) (r : Fin N) :
    t.plan r (t.control k r) = some (t.planAt k r) := by
  obtain ⟨s, hs⟩ : ∃ s, t.calls[(t.sched k).1]? = some s :=
    ⟨_, List.getElem?_eq_getElem (by omega)⟩
  have hsrc : t.src (t.sched k).1 = s := by rw [src, hs, Option.getD_some]
  unfold plan planAt control
  rw [hsrc]
  dsimp only
  rw [if_neg (by simp), hs, Option.map_some]
  cases (t.sched k).2 <;> rfl

theorem sched_lt (hij : i < k) : (t.sched i).1 ≤ (t.sched k).1 ∧ t.sched i ≠ t.sched k := by
  have hmono : StrictMono fun k => 2 * (t.sched k).1 + (t.sched k).2.toNat := by
    refine strictMono_nat_of_lt_succ fun k => ?_
    simp only [sched]
    split
    · rename_i h
      simp [h.1]
    · have := Bool.toNat_le (t.sched k).2
      simp only [Bool.toNat_false]
      omega
  have hlt := hmono hij
  have h₁ := Bool.toNat_le (t.sched i).2
  have h₂ := Bool.toNat_le (t.sched k).2
  refine ⟨by dsimp only at hlt; omega, fun heq => ?_⟩
  dsimp only at hlt
  rw [heq] at hlt
  exact Nat.lt_irrefl _ hlt

/-- The calls return what they are to return, in every run and whatever order the messages come
in. Every run comes to an end, and it does so when all calls have returned. A step ends with its
counter at what it waits for, and no message of it on the way. -/
structure Correct (t : RexchgvTeam N) : Prop where
  ends : ∃ bound, ∀ ls s, Run (Step t.program) (initial t.program) ls s → ls.length ≤ bound
  alive : ∀ s, Reachable (Step t.program) (initial t.program) s → s.aborted = false
  returned : ∀ s, Reachable (Step t.program) (initial t.program) s → ∀ r,
    (s.rank r).control.fatal = false ∧ (s.rank r).control.returned =
      (List.range (s.rank r).control.call).map fun c => t.expected c r
  goesOn : ∀ s, Reachable (Step t.program) (initial t.program) s →
    (∃ r, (s.rank r).control.call ≠ t.calls.length) → ∃ a u, Step t.program s a u
  waits : ∀ s r u, Reachable (Step t.program) (initial t.program) s →
    Step t.program s (.pass r) u → ∃ P step n,
      t.plan r (s.rank r).control = some P ∧ (s.rank r).place = some (step, n) ∧
      (s.rank r).rcvd (s.rank r).phase step = P.expect step ∧
      ∀ m ∈ s.net, m.target = r → m.op = (s.rank r).results.length → m.step ≠ step

theorem correct (h : t.Checked)
    (hfit : N = 1 ∨ ∀ src ∈ t.calls, N < 2 ^ 28 ∧ ∑ q, sizes src q < 2 ^ 31) : t.Correct := by
  obtain ⟨K, hK, hlt⟩ := t.sched_end t.calls.length
  have hmem : 0 < K → ∃ src, src ∈ t.calls := by
    intro hpos
    have := hlt 0 hpos
    exact List.exists_mem_of_length_pos (by omega)
  have hN : 0 < K → N < 2 ^ 29 := by
    intro hpos
    obtain ⟨src, hsrc⟩ := hmem hpos
    rcases hfit with hone | hall
    · omega
    · have := (hall src hsrc).1
      omega
  have hrot : Rotates t.program t.control t.planAt t.contribution K := by
    refine rotates t.plan hN h (fun hne k hk => ?_)
      (fun k hk r => plan_control (Nat.le_refl _) (hlt k hk) r) fun r => ?_
    · have hall := hfit.resolve_left hne
      obtain ⟨src, hsrc⟩ := hmem (by omega)
      have hsmall := (hall src hsrc).1
      have htot := total_lt_of_calls (fun src hsrc => (hall src hsrc).2) (t.sched k).1
      rw [sum_contribution]
      split <;> omega
    · unfold plan control
      rw [hK]
      simp
  have hC := hrot.sound
  constructor
  case ends => exact ⟨_, fun ls s hrun => (course_runs hC hrun).2.2.2.1⟩
  case alive => exact fun s hs => (inv_reachable hC hs).alive
  case returned =>
    intro s hs r
    rw [((inv_reachable hC hs).onCourse r).control]
    exact ⟨rfl, rfl⟩
  case goesOn =>
    rintro s hs ⟨r, hr⟩
    refine (inv_reachable hC hs).enabled hC fun hdone => hr ?_
    have hop : (s.rank r).op = K := (hdone r).1
    rw [((inv_reachable hC hs).onCourse r).control, hop]
    show (t.sched K).1 = _
    rw [hK]
  case waits => exact fun s r u hs hstep => pass_exact hC hs hstep

/-- A size of 2 GiB or more is taken for a negative one, and there is no such memory. -/
theorem signExtend_ge (h : 2 ^ 31 ≤ n) (h' : n < 2 ^ 32) :
    mallocs ((BitVec.ofNat 32 n).signExtend 64).toNat = false := by
  have hmsb : (BitVec.ofNat 32 n).msb = true := by
    rw [BitVec.msb_eq_decide, BitVec.toNat_ofNat]
    simp
    omega
  have hval : ((BitVec.ofNat 32 n).signExtend 64).toNat = _ := BitVec.toNat_signExtend _
  rw [hmsb, if_pos rfl, BitVec.toNat_setWidth, BitVec.toNat_ofNat] at hval
  unfold mallocs
  rw [decide_eq_false_iff_not, hval]
  omega

/-- The calls as far as exchange `K`, of the lengths or of the data of a call. -/
def stopAt (t : RexchgvTeam N) (K : Nat) : Program N RexchgvControl RexchgvArgs UInt8 :=
  { t.program with
    plan := fun r x => if x.call = (t.sched K).1 ∧ x.lens.isSome = (t.sched K).2 then none
      else t.plan r x }

theorem stopAt_step {K : Nat} {s u : System N RexchgvControl RexchgvArgs UInt8} {a : Action N}
    (h : Step (t.stopAt K) s a u) : Step t.program s a u := by
  have hplan : ∀ {r x P}, (t.stopAt K).plan r x = some P → t.program.plan r x = some P := by
    intro r x P hP
    change (if _ then none else t.plan r x) = some P at hP
    split at hP
    · cases hP
    · exact hP
  cases h with
  | enter ha hx hp hP hb => exact .enter ha hx hp (hplan hP) hb
  | send ha hx hp hP ht hf hb => exact .send ha hx hp (hplan hP) ht hf hb
  | pass ha hx hp hP ht hn hr => exact .pass ha hx hp (hplan hP) ht hn hr
  | finish ha hx hp hP hb => exact .finish ha hx hp (hplan hP) hb
  | deliver ha hm hy => exact .deliver ha hm hy
  | abort ha hm hy => exact .abort ha hm hy
  | abortEnter ha hx hp hP hb => exact .abortEnter ha hx hp (hplan hP) hb

/-- The first exchange of 2 GiB or more fails when a message of it comes before its target has
begun it. -/
theorem aborts {K : Nat} (hN : N < 2 ^ 29) (h : t.Checked) (hne : N ≠ 1) (hpos : 0 < N)
    (hK : (t.sched K).1 < t.calls.length)
    (hfit : ∀ k < K, ∑ q, sizes (t.contribution k) q < 2 ^ 31)
    (hbig : 2 ^ 31 ≤ ∑ q, sizes (t.contribution K) q) :
    ∃ s, Reachable (Step t.program) (initial t.program) s ∧ s.aborted = true := by
  have hlens : ∀ k r, (t.control k r).lens.isSome = (t.sched k).2 := by
    intro k r
    unfold control
    cases (t.sched k).2 <;> rfl
  have hrot : Rotates (t.stopAt K) t.control t.planAt t.contribution K := by
    refine rotates _ (fun _ => hN) h (fun _ => hfit) (fun k hk r => ?_) fun r => ?_
    · obtain ⟨hle, hdiff⟩ := t.sched_lt hk
      rw [if_neg, plan_control (Nat.le_refl _) (by omega : (t.sched k).1 < t.calls.length)]
      rintro ⟨h₁, h₂⟩
      rw [hlens] at h₂
      exact hdiff (Prod.ext h₁ h₂)
    · exact if_pos ⟨rfl, hlens K r⟩
  have hC := hrot.sound
  obtain ⟨s, hreach, hdone⟩ := exists_done hC
  have hinv := inv_reachable hC hreach
  have hs : Reachable (Step t.program) (initial t.program) s := by
    obtain ⟨ls, hrun⟩ := hreach
    exact ⟨ls, hrun.mono stopAt_step⟩
  -- the rank ahead of `r` begins the exchange and sends to it
  let r : Fin N := ⟨0, hpos⟩
  let q : Fin N := fwd r 0
  have hsteps : 0 < bits (N - 1) := by
    by_contra h0
    have := lt_two_pow_bits (N - 1)
    rw [Nat.eq_zero_of_not_pos h0] at this
    omega
  have hqr : r ≠ q := by
    intro heq
    have hv := congrArg Fin.val heq
    change 0 = (0 + 2 ^ 0) % N at hv
    rw [Nat.mod_eq_of_lt (by omega)] at hv
    exact absurd hv (by decide)
  have hop : ∀ r, (s.rank r).op = K := fun r => (hdone r).1
  have hcontrol : ∀ r, (s.rank r).control = t.control K r := fun r => by
    rw [(hinv.onCourse r).control, hop]
    rfl
  have hdata : ∀ r, (s.rank r).data (parity K) = none := hinv.data_done hdone
  have hphase : ∀ r, (s.rank r).phase = parity K := fun r => by
    rw [(hinv.onCourse r).phase, hop]
  have hP : t.plan q (s.rank q).control = some (t.planAt K q) := by
    rw [hcontrol]
    exact plan_control (Nat.le_refl _) hK q
  have hsum := sum_lt hN h K
  obtain ⟨b, hb⟩ : ∃ b, Exchange.store mallocs ((s.rank q).data (s.rank q).phase) (t.planAt K q).size
      (fun _ => 0) 0 (t.planAt K q).own = some b := by
    have hown : (t.planAt K q).own.length ≤ ∑ q, sizes (t.contribution K) q := by
      have heq : (t.planAt K q).own = t.contribution K q := by
        unfold planAt contribution
        split <;> rfl
      rw [heq]
      exact Finset.single_le_sum (f := sizes (t.contribution K)) (fun _ _ => Nat.zero_le _)
        (Finset.mem_univ q)
    have halloc : mallocs (∑ q, sizes (t.contribution K) q) = true := decide_eq_true (by omega)
    rw [hphase, hdata, planAt_size hN h]
    simp only [Exchange.store, allocated, if_pos halloc, Option.bind_some, Buffer.copy, Nat.zero_add,
      if_pos hown]
    exact ⟨_, rfl⟩
  have h₁ := hs.snoc (.enter hinv.alive rfl (hdone q).2 hP hb)
  have hfrags := planAt_frags (t := t) (k := K) (q := q) hN h hsteps
  obtain ⟨f, hf, hwire⟩ : ∃ f, ((t.planAt K q).frags 0)[0]? = some f ∧
      f.wire.arg1 = stepArg (parity K) 0 ∧
      f.wire.totalLen = BitVec.ofNat 32 (∑ q, sizes (t.contribution K) q) := by
    rw [hfrags, stream]
    cases hpcs : pieces (t.limit q (destRank q 0)) (share (sizes (t.contribution K)) q 0) 0 with
    | nil => exact absurd hpcs pieces_ne_nil
    | cons x l => exact ⟨_, rfl, rfl, rfl⟩
  let x : Rank RexchgvControl UInt8 :=
    { (s.rank q).setData (s.rank q).phase (some b) with place := some (0, 0) }
  have hx : (s.set q x).rank q = x := set_self s q x
  have hxb : x.data x.phase = some b := by
    show ((s.rank q).setData (s.rank q).phase (some b)).data (s.rank q).phase = some b
    rw [Rank.setData_data, if_pos rfl]
  have h₂ := h₁.snoc (.send hinv.alive hx rfl hP hsteps hf hxb)
  have hpeer : t.program.peer q 0 = r := destRank_fwd (by simp; omega)
  obtain ⟨hph, _⟩ := stepArg_unpack (parity K) (by omega : 0 < 32)
  have hfail : Rank.receive t.program
      (((s.set q x).set q { x with place := some (0, 0 + 1) }).rank (t.program.peer q 0))
      ⟨t.program.peer q 0, f.wire, b.read f.start f.length, x.results.length, 0, 0⟩
      (fun _ => 0) = none := by
    have hrank : ((s.set q x).set q { x with place := some (0, 0 + 1) }).rank
        (t.program.peer q 0) = s.rank r := by
      rw [hpeer, set_of_ne _ hqr, set_of_ne _ hqr]
    have hland : t.program.landing (t.program.peer q 0) f.wire = rexchgvReqh f.wire := rfl
    have hnone : (s.rank r).data (rexchgvReqh f.wire).phase = none := by
      simp only [rexchgvReqh, hwire.1, hph, hdata]
    have hsize : mallocs (rexchgvReqh f.wire).size = false := by
      simp only [rexchgvReqh, hwire.2]
      exact signExtend_ge hbig hsum
    have halloc : t.program.alloc = mallocs := rfl
    rw [hrank]
    unfold Rank.receive
    simp only [hland, hnone, halloc, Exchange.store, allocated, hsize, Option.bind_eq_bind]
    rfl
  exact ⟨_, h₂.snoc (.abort hinv.alive List.mem_cons_self hfail), rfl⟩

/-- An exchange of 2 GiB or more is there, if there is a call that reaches them. -/
theorem exists_big (hbad : ¬∀ src ∈ t.calls, N < 2 ^ 28 ∧ ∑ q, sizes src q < 2 ^ 31) :
    ∃ k, (t.sched k).1 < t.calls.length ∧ 2 ^ 31 ≤ ∑ q, sizes (t.contribution k) q := by
  by_contra hno
  refine hbad fun src hsrc => ?_
  obtain ⟨c, hc, hget⟩ := List.getElem_of_mem hsrc
  constructor
  · by_contra hge
    refine hno ⟨0, by show 0 < _; omega, ?_⟩
    rw [sum_contribution]
    show 2 ^ 31 ≤ N * 8
    omega
  · by_contra hge
    have htot : t.total c = ∑ q, sizes src q := by
      unfold total RexchgvTeam.src
      rw [List.getElem?_eq_getElem hc, hget, Option.getD_some]
    obtain ⟨k, hk, _⟩ := t.sched_end c
    have hnext : t.sched (k + 1) = (c, true) := by
      rw [sched, hk, if_pos ⟨rfl, by dsimp only; omega⟩]
    refine hno ⟨k + 1, by rw [hnext]; exact hc, ?_⟩
    rw [sum_contribution, hnext, if_pos rfl]
    dsimp only
    omega

theorem exists_abort (hN : N < 2 ^ 29) (h : t.Checked) (hne : N ≠ 1) (hpos : 0 < N)
    (hbad : ¬∀ src ∈ t.calls, N < 2 ^ 28 ∧ ∑ q, sizes src q < 2 ^ 31) :
    ∃ s, Reachable (Step t.program) (initial t.program) s ∧ s.aborted = true := by
  classical
  have hex := exists_big hbad
  obtain ⟨hK, hbig⟩ := Nat.find_spec hex
  refine aborts hN h hne hpos hK (fun k hk => ?_) hbig
  have hmin := Nat.find_min hex hk
  have hle := (t.sched_lt hk).1
  by_contra hge
  exact hmin ⟨by omega, by omega⟩

/-- Calls whose totals pass the check are right in all runs just when no exchange reaches
`2 ^ 31` bytes, which is half of what the check lets pass. -/
theorem rotatedExchange (hcheck : ∀ src ∈ t.calls, ∑ q, sizes src q ≤ 2 ^ 32 - 1) :
    ((N = 1 ∨ ∀ src ∈ t.calls, N < 2 ^ 28 ∧ ∑ q, sizes src q < 2 ^ 31) → t.Correct) ∧
    (0 < N ∧ N < 2 ^ 29 → t.Correct →
      N = 1 ∨ ∀ src ∈ t.calls, N < 2 ^ 28 ∧ ∑ q, sizes src q < 2 ^ 31) := by
  have hC := checked_of_calls hcheck
  refine ⟨correct hC, fun ⟨hpos, hN⟩ hcorrect => ?_⟩
  by_contra hnot
  obtain ⟨hne, hbad⟩ := not_or.mp hnot
  obtain ⟨s, hs, habort⟩ := exists_abort hN hC hne hpos hbad
  rw [hcorrect.alive s hs] at habort
  cases habort

/-- Three ranks, of which the first has nothing to say. -/
def threeRanks : RexchgvTeam 3 where
  limit _ _ := 4096
  limit_pos _ _ := by decide
  calls := [fun r => List.replicate r.val 7, fun _ => [], fun _ => [1, 2]]

theorem rotatedExchange_three : threeRanks.Correct :=
  (rotatedExchange (by decide)).1 (Or.inr (by decide))

local instance two_neZero : NeZero 2 := ⟨by decide⟩

/-- Two ranks, of which the first has `n` bytes. -/
def twoRanks (n : Nat) : RexchgvTeam 2 where
  limit _ _ := 4096
  limit_pos _ _ := by decide
  calls := [fun r => if r = 0 then List.replicate n 0 else []]

theorem twoRanks_total (n : Nat) : ∀ src ∈ (twoRanks n).calls, ∑ q, sizes src q = n := by
  intro src hsrc
  obtain rfl := List.mem_singleton.mp hsrc
  rw [Fin.sum_univ_two]
  simp [sizes]

theorem twoRanks_abort_of (h : 2 ^ 31 ≤ n) (h' : n ≤ 2 ^ 32 - 1) :
    (∀ src ∈ (twoRanks n).calls, ∑ q, sizes src q ≤ 2 ^ 32 - 1) ∧
    ∃ s, Reachable (Step (twoRanks n).program) (initial (twoRanks n).program) s ∧
      s.aborted = true := by
  have hle : ∀ src ∈ (twoRanks n).calls, ∑ q, sizes src q ≤ 2 ^ 32 - 1 := by
    intro src hsrc
    rw [twoRanks_total n src hsrc]
    exact h'
  refine ⟨hle, exists_abort (by omega) (checked_of_calls hle) (by decide) (by decide) ?_⟩
  intro hall
  have := (hall _ List.mem_cons_self).2
  rw [twoRanks_total n _ List.mem_cons_self] at this
  omega

/-- With 2 GiB the check passes, and a message that comes early ends the process. -/
theorem twoRanks_abort :
    (∀ src ∈ (twoRanks (2 ^ 31)).calls, ∑ q, sizes src q ≤ 2 ^ 32 - 1) ∧
    ∃ s, Reachable (Step (twoRanks (2 ^ 31)).program) (initial (twoRanks (2 ^ 31)).program) s ∧
      s.aborted = true :=
  twoRanks_abort_of (Nat.le_refl _) (by omega)

end RexchgvTeam

end Gasnet.Coll
