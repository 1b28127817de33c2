import Gasnet.Coll.Autotune
import Mathlib.Algebra.Order.Group.Nat

/-! When the default choice meets the needs of what it chooses. -/
namespace Gasnet.Coll.Autotune

variable {team : Team} {op : Op} {nbytes n k s i limit unit piece : Nat} {flags : Flags}

theorem numSegs_le_iff (hs : 0 < s) : numSegs n s ≤ k ↔ n ≤ k * s := by
  have hdiv := Nat.div_add_mod n s
  have hlt := Nat.mod_lt n hs
  unfold numSegs
  split
  · rename_i hz
    rw [Nat.div_le_iff_le_mul_add_pred hs, Nat.mul_comm k s]
    constructor
    · intro h
      have hq : n / s ≤ k := (Nat.div_le_iff_le_mul_add_pred hs).mpr h
      have := Nat.mul_le_mul_left s hq
      omega
    · omega
  · rename_i hz
    rw [Nat.mul_comm k s]
    constructor
    · intro h
      have := Nat.mul_le_mul_left s h
      rw [Nat.mul_add] at this
      omega
    · intro h
      apply Nat.lt_of_mul_lt_mul_left (a := s)
      omega

/-- Half of the numbers at most have a given bit set. -/
theorem count_bit_le (i n : Nat) : Nat.count (fun j => j / 2 ^ i % 2 = 1) n ≤ n / 2 := by
  have hpow : 0 < 2 ^ i := Nat.two_pow_pos i
  have hlow : Nat.count (fun j => j / 2 ^ i % 2 = 1) (2 ^ i) = 0 := by
    rw [Nat.count_eq_card_filter_range, Finset.card_eq_zero, Finset.filter_eq_empty_iff]
    intro j hj
    rw [Nat.div_eq_of_lt (Finset.mem_range.mp hj)]
    decide
  -- below the second power only the upper half can have it
  have hcase : ∀ n ≤ 2 ^ i + 2 ^ i, Nat.count (fun j => j / 2 ^ i % 2 = 1) n ≤ n / 2 := by
    intro n hn
    rcases Nat.le_total n (2 ^ i) with hle | hge
    · have := Nat.count_monotone (fun j => j / 2 ^ i % 2 = 1) hle
      omega
    · obtain ⟨m, rfl⟩ := Nat.exists_eq_add_of_le hge
      have := Nat.count_le (p := fun k => (2 ^ i + k) / 2 ^ i % 2 = 1) (n := m)
      rw [Nat.count_add]
      omega
  induction n using Nat.strong_induction_on with
  | _ n ih =>
    rcases Nat.le_total n (2 ^ i + 2 ^ i) with hle | hge
    · exact hcase n hle
    · obtain ⟨m, rfl⟩ := Nat.exists_eq_add_of_le hge
      have hperiod : (fun k => (2 ^ i + 2 ^ i + k) / 2 ^ i % 2 = 1) =
          fun k => k / 2 ^ i % 2 = 1 := by
        funext k
        rw [show 2 ^ i + 2 ^ i + k = k + 2 * 2 ^ i by omega, Nat.add_mul_div_right _ _ hpow,
          Nat.add_mod_right]
      have hfirst := hcase (2 ^ i + 2 ^ i) (Nat.le_refl _)
      have hrest := ih m (by omega)
      rw [Nat.count_add]
      simp only [hperiod]
      omega

theorem maxDissemBlocks_eq (team : Team) : team.maxDissemBlocks = max 1 (team.totalRanks / 2) := by
  have hfold : ∀ l : List Nat, l.foldl
      (fun most i => max most (Nat.count (fun j => j / 2 ^ i % 2 = 1) team.totalRanks))
      (max 1 (team.totalRanks / 2)) = max 1 (team.totalRanks / 2) := by
    intro l
    induction l with
    | nil => rfl
    | cons i l ih =>
      have := count_bit_le i team.totalRanks
      rw [List.foldl_cons, Nat.max_eq_left (by omega), ih]
  exact hfold _

/-- A pipelined transfer of `unit` blocks at once finds the scratch space and the payloads that it
needs, and cuts its data into few enough segments. -/
structure PipelineFits (team : Team) (unit piece limit nbytes : Nat) : Prop where
  whole : nbytes ≤ team.pipeSegSize → unit * nbytes ≤ team.room
  segments : team.pipeSegSize < nbytes → nbytes ≤ limit →
    nbytes ≤ maxNumSegs * team.paramSegSize ∧ unit * piece ≤ team.room

/-- The condition for a broadcast. -/
def BcastFits (team : Team) (nbytes : Nat) (flags : Flags) : Prop :=
  min team.eagerMin team.lubRequestMedium < nbytes →
    (flags.dstInSegment = true →
      PipelineFits team 1 team.paramSegSize (bcastMaxNumBytes team) nbytes) ∧
    ((flags.dstInSegment = true → max team.pipeSegSize (bcastMaxNumBytes team) < nbytes) →
      (if flags.srcInSegment then if flags.dstInSegment then 8 else addressBytes team.totalRanks
        else 16 * binomChildren team.totalRanks) ≤ team.eagerBuffersz)

/-- The condition for a scatter. -/
def ScatterFits (team : Team) (root nbytes : Nat) (flags : Flags) : Prop :=
  if nbytes ≤ eagerLimit team then
    (if flags.dstInSegment && flags.srcInSegment then team.totalRanks * nbytes else nbytes) ≤
      team.eagerBuffersz
  else
    (flags.dstInSegment && flags.srcInSegment →
      PipelineFits team team.totalRanks team.pipeSegSize (segMaxNumBytes team) nbytes) ∧
    ((flags.dstInSegment && flags.srcInSegment →
        max team.pipeSegSize (segMaxNumBytes team) < nbytes) →
      (if flags.srcInSegment && !flags.dstInSegment then addressBytes team.totalRanks
        else rootRecordBytes team.totalRanks root) ≤ team.eagerBuffersz)

/-- The condition for a gather. -/
def GatherFits (team : Team) (nbytes : Nat) (flags : Flags) : Prop :=
  if nbytes ≤ eagerLimit team then team.totalRanks * nbytes ≤ team.eagerBuffersz
  else if flags.dstInSegment && flags.srcInSegment && !flags.nonrootSubordinate then
    PipelineFits team team.totalRanks team.pipeSegSize (segMaxNumBytes team) nbytes ∧
    (max team.pipeSegSize (segMaxNumBytes team) < nbytes →
      recordBytes team.totalRanks ≤ team.eagerBuffersz)
  else
    (if flags.dstInSegment then addressBytes team.totalRanks else recordBytes team.totalRanks) ≤
      team.eagerBuffersz

/-- The condition for an all-gather. -/
def GatherAllFits (team : Team) (nbytes : Nat) : Prop :=
  if nbytes ≤ team.gatherAllDissemLimit ∧ mulSize team.totalRanks nbytes ≤ team.room then
    team.totalRanks * nbytes < 2 ^ 64
  else 0 < team.eagerBuffersz

/-- The condition for an exchange. -/
def ExchangeAdmits (team : Team) (nbytes : Nat) (flags : Flags) : Prop :=
  if ExchangeFits team nbytes then
    team.totalRanks = 1 ∨
      nbytes * (team.totalRanks + 2 * (team.totalRanks / 2)) ≤ team.scratchSize ∧
        nbytes * (team.totalRanks / 2) ≤ team.lubRequestLong
  else if flags.dstInSegment then
    team.totalRanks * addressBytes team.totalRanks ≤ team.eagerBuffersz
  else flags.subordinate = false

/-- The condition for a call, on the flags that its check of the segment leaves. -/
def HoldsWhen (team : Team) (op : Op) (nbytes : Nat) (flags : Flags) : Prop :=
  let flags := team.segmentCheck flags
  match op with
  | .broadcast _ => BcastFits team nbytes flags
  | .scatter root => ScatterFits team root nbytes flags
  | .gather _ => GatherFits team nbytes flags
  | .gatherAll => GatherAllFits team nbytes
  | .exchange => ExchangeAdmits team nbytes flags

theorem le_room_iff : n ≤ team.room ↔ n ≤ team.scratchSize ∧ n ≤ team.lubRequestLong := Nat.le_min

theorem paramSegSize_le (team : Team) : team.paramSegSize ≤ team.pipeSegSize := Nat.mod_le _ _

theorem segments_iff (hn : 0 < nbytes) :
    (0 < team.paramSegSize ∧ numSegs nbytes team.paramSegSize ≤ maxNumSegs) ↔
      nbytes ≤ maxNumSegs * team.paramSegSize := by
  rcases Nat.eq_zero_or_pos team.paramSegSize with hz | hpos
  · rw [hz]
    omega
  · rw [numSegs_le_iff hpos]
    exact and_iff_right hpos

theorem eagerMin_le (h : nbytes ≤ team.eagerMin) : nbytes ≤ team.eagerBuffersz :=
  Nat.le_trans h (Nat.le_max_left _ _)

theorem mul_le_medium (h : nbytes ≤ eagerLimit team) :
    team.totalRanks * nbytes ≤ team.lubRequestMedium := by
  have := (Nat.le_div_iff_mul_le team.totalRanks_pos).mp (Nat.le_min.mp h).2
  rwa [Nat.mul_comm]

theorem le_mul_ranks (team : Team) (n : Nat) : n ≤ team.totalRanks * n :=
  Nat.le_mul_of_pos_left n team.totalRanks_pos

theorem met_eager (b : Nat) :
    ({ eager := b } : Needs).Met team nbytes flags ↔ b ≤ team.eagerBuffersz := by
  simp [Needs.met_iff]

/-- Three algorithms by size: whole, in segments, and the one for what is too long for these. -/
theorem pipeline_iff {whole segments rest : Alg} {root : Nat} {r : Prop}
    (hwhole : (needs team root nbytes whole).Met team nbytes flags ↔ unit * nbytes ≤ team.room)
    (hsegments : team.pipeSegSize < nbytes →
      ((needs team root nbytes segments).Met team nbytes flags ↔
        nbytes ≤ maxNumSegs * team.paramSegSize ∧ unit * piece ≤ team.room))
    (hrest : (needs team root nbytes rest).Met team nbytes flags ↔ r) :
    (needs team root nbytes (if nbytes ≤ team.pipeSegSize then whole
        else if nbytes ≤ limit then segments else rest)).Met team nbytes flags ↔
      PipelineFits team unit piece limit nbytes ∧
        (max team.pipeSegSize limit < nbytes → r) := by
  split
  · rename_i h
    rw [hwhole]
    constructor
    · intro hu
      exact ⟨⟨fun _ => hu, fun hlt => by omega⟩, fun hlt => by omega⟩
    · intro hu
      exact hu.1.whole h
  · rename_i h
    split
    · rename_i hl
      rw [hsegments (by omega)]
      constructor
      · intro hu
        exact ⟨⟨fun hle => by omega, fun _ _ => hu⟩, fun hlt => by omega⟩
      · intro hu
        exact hu.1.segments (by omega) hl
    · rename_i hl
      rw [hrest]
      constructor
      · intro hr
        exact ⟨⟨fun hle => by omega, fun _ hle => by omega⟩, fun _ => hr⟩
      · intro hu
        exact hu.2 (by omega)

theorem bcast_iff (root : Nat) (hn : 0 < nbytes) :
    (needs team root nbytes (getBcastAlgorithm team nbytes flags)).Met team nbytes flags ↔
      BcastFits team nbytes flags := by
  unfold getBcastAlgorithm BcastFits
  by_cases he : nbytes ≤ min team.eagerMin team.lubRequestMedium
  · have := eagerMin_le (Nat.le_min.mp he).1
    rw [if_pos he]
    constructor
    · omega
    · intro _
      simp [needs, Needs.met_iff, this, (Nat.le_min.mp he).2]
  · rw [if_neg he]
    have hlong : min team.eagerMin team.lubRequestMedium < nbytes := by omega
    rcases hd : flags.dstInSegment with _ | _
    · simp only [Bool.false_eq_true, if_false, hlong, forall_const, false_implies, true_and]
      rcases hs : flags.srcInSegment with _ | _
      · exact met_eager _
      · simp [needs, Needs.met_iff, hs]
    · simp only [if_true, hlong, forall_const]
      apply pipeline_iff
      · rw [Nat.one_mul, le_room_iff]
        simp [needs, Needs.met_iff, hd]
      · intro hlt
        have hmin : min nbytes team.paramSegSize = team.paramSegSize :=
          Nat.min_eq_right (Nat.le_trans (paramSegSize_le team) (Nat.le_of_lt hlt))
        rw [Nat.one_mul, le_room_iff, ← segments_iff hn]
        simp [needs, Needs.met_iff, hd, hmin]
        tauto
      · rcases hs : flags.srcInSegment with _ | _
        · exact met_eager _
        · simp [needs, Needs.met_iff, hs, hd]

/-- The transfers through the scratch space of a scatter and of a gather. -/
theorem tree_iff {rest : Alg} {root : Nat} {r : Prop} {whole segments : Alg} (hn : 0 < nbytes)
    (hd : flags.dstInSegment = true)
    (hwhole : needs team root nbytes whole = .ofTree team.totalRanks nbytes)
    (hsegments : needs team root nbytes segments =
      { Needs.ofTree team.totalRanks (min nbytes team.pipeSegSize) with
        segSize := some team.paramSegSize })
    (hrest : (needs team root nbytes rest).Met team nbytes flags ↔ r) :
    (needs team root nbytes (if nbytes ≤ team.pipeSegSize then whole
        else if nbytes ≤ limit then segments else rest)).Met team nbytes flags ↔
      PipelineFits team team.totalRanks team.pipeSegSize limit nbytes ∧
        (max team.pipeSegSize limit < nbytes → r) := by
  apply pipeline_iff _ _ hrest
  · rw [hwhole, le_room_iff]
    simp [Needs.ofTree, Needs.met_iff, hd]
  · intro hlt
    rw [hsegments, le_room_iff, ← segments_iff hn, Nat.min_eq_right (Nat.le_of_lt hlt)]
    simp [Needs.ofTree, Needs.met_iff, hd]
    tauto

theorem met_ofTreeEager (h : nbytes ≤ eagerLimit team) :
    (Needs.ofTreeEager team.totalRanks nbytes).Met team nbytes flags ↔
      team.totalRanks * nbytes ≤ team.eagerBuffersz := by
  simp [Needs.ofTreeEager, Needs.met_iff, mul_le_medium h]

theorem segmentCheck_segmentCheck (team : Team) (flags : Flags) :
    team.segmentCheck (team.segmentCheck flags) = team.segmentCheck flags := by
  unfold Team.segmentCheck
  split <;> rfl

theorem scatter_iff (root : Nat) (hn : 0 < nbytes) :
    (needs team root nbytes (getScatterAlgorithm team nbytes flags)).Met team nbytes
        (team.segmentCheck flags) ↔
      ScatterFits team root nbytes (team.segmentCheck flags) := by
  unfold getScatterAlgorithm ScatterFits
  generalize team.segmentCheck flags = flags
  by_cases he : nbytes ≤ eagerLimit team
  · have hm := Nat.le_trans (le_mul_ranks team nbytes) (mul_le_medium he)
    rcases hb : flags.dstInSegment && flags.srcInSegment with _ | _
    · simp [he, hb, needs, Needs.met_iff, hm]
    · simp only [hb, he, if_true]
      exact met_ofTreeEager he
  · rcases hb : flags.dstInSegment && flags.srcInSegment with _ | _
    · simp only [hb, he, Bool.false_eq_true, if_false, false_implies, true_and, forall_const]
      rcases hs : flags.srcInSegment with _ | _
      · exact met_eager _
      · rcases hd : flags.dstInSegment with _ | _
        · simp [needs, Needs.met_iff, hs]
        · simp [hs, hd] at hb
    · simp only [Bool.and_eq_true] at hb
      simp only [hb, he, if_false, Bool.and_self, if_true, forall_const, Bool.not_true,
        Bool.and_false, Bool.false_eq_true]
      exact tree_iff hn hb.1 rfl rfl (met_eager _)

theorem gather_iff (root : Nat) (hn : 0 < nbytes) :
    (needs team root nbytes (getGatherAlgorithm team nbytes flags)).Met team nbytes flags ↔
      GatherFits team nbytes flags := by
  unfold getGatherAlgorithm GatherFits
  by_cases he : nbytes ≤ eagerLimit team
  · simp only [he, if_true, ite_self]
    exact met_ofTreeEager he
  · simp only [he, if_false]
    rcases hb : flags.dstInSegment && flags.srcInSegment with _ | _
    · simp only [Bool.false_eq_true, if_false, Bool.false_and]
      rcases hd : flags.dstInSegment with _ | _
      · exact met_eager _
      · simp [needs, Needs.met_iff, hd]
    · simp only [Bool.and_eq_true] at hb
      rcases hr : flags.nonrootSubordinate with _ | _
      · simp only [Bool.not_false, Bool.and_true, if_true]
        exact tree_iff hn hb.1 rfl rfl (met_eager _)
      · simp [needs, Needs.met_iff, hb]

theorem gatherAll_iff (root : Nat) (hlt : nbytes < 2 ^ 64) :
    (needs team root nbytes (getGatherAllAlgorithm team nbytes)).Met team nbytes flags ↔
      GatherAllFits team nbytes := by
  unfold getGatherAllAlgorithm GatherAllFits
  split
  · rename_i h
    by_cases hone : team.totalRanks = 1
    · simp only [needs, hone, if_true, Nat.one_mul, hlt, iff_true]
      simp [Needs.met_iff]
    · have hfits : team.totalRanks * nbytes ≤ team.room ↔ team.totalRanks * nbytes < 2 ^ 64 := by
        constructor
        · intro hr
          have := (le_room_iff.mp hr).1
          have := team.scratchSize_lt
          omega
        · intro hw
          have hr := h.2
          rwa [mulSize, Nat.mod_eq_of_lt hw] at hr
      rw [← hfits, le_room_iff]
      simp [needs, hone, Needs.met_iff]
  · exact met_eager _

theorem exchange_iff (root : Nat) :
    (needs team root nbytes (getExchangeAlgorithm team nbytes flags)).Met team nbytes flags ↔
      ExchangeAdmits team nbytes flags := by
  unfold getExchangeAlgorithm ExchangeAdmits
  split
  · by_cases hone : team.totalRanks = 1
    · simp [needs, hone, Needs.met_iff]
    · have hpos := team.totalRanks_pos
      have hblocks : team.maxDissemBlocks = team.totalRanks / 2 := by
        rw [maxDissemBlocks_eq]
        omega
      have hsum : nbytes * team.totalRanks + nbytes * (team.totalRanks / 2) * 2 =
          nbytes * (team.totalRanks + 2 * (team.totalRanks / 2)) := by
        rw [Nat.mul_add, Nat.mul_assoc, Nat.mul_comm 2]
      simp [needs, hone, Needs.met_iff, hblocks, hsum]
  · rcases hd : flags.dstInSegment with _ | _
    · simp [needs, Needs.met_iff]
    · simp [needs, Needs.met_iff, hd]

/-- The default choice meets the needs of the chosen algorithm exactly when the call fits. -/
theorem default_selection (team : Team) (op : Op) (nbytes : Nat) (flags : Flags)
    (hn : 0 < nbytes) (hlt : nbytes < 2 ^ 64) :
    Admits team op nbytes flags ↔ HoldsWhen team op nbytes flags := by
  unfold Admits HoldsWhen select
  cases op with
  | broadcast root => exact bcast_iff root hn
  | scatter root =>
    have hscatter := @scatter_iff team nbytes (team.segmentCheck flags) root hn
    rw [segmentCheck_segmentCheck] at hscatter
    exact hscatter
  | gather root => exact gather_iff root hn
  | gatherAll => exact gatherAll_iff 0 hlt
  | exchange => exact exchange_iff 0

/-- Two ranks with a mebibyte of scratch space, the rest as it is by default. -/
def pair : Team where
  totalRanks := 2
  scratchSize := 1048576
  lubRequestLong := 1048576
  lubRequestMedium := 4096
  eagerMin := 16
  eagerScale := 16
  pipeSegSizeEnv := none
  gatherAllDissemLimit := 1024
  exchangeDissemLimit := 1024
  segmentEverything := false
  totalRanks_pos := by decide
  totalRanks_lt := by decide
  scratchSize_lt := by decide
  long_lt := by decide
  medium_lt := by decide
  medium_ge := by decide
  long_ge := by decide
  eagerMin_lt := by decide
  eagerScale_lt := by decide

def inSegment : Flags where
  srcInSegment := true
  dstInSegment := true
  subordinate := false
  nonrootSubordinate := false

/-- A scatter of a megabyte for each rank is cut into two segments. -/
theorem default_selection_pair : 0 < 1000000 ∧ 1000000 < 2 ^ 64 ∧
    Admits pair (.scatter 0) 1000000 inSegment := by
  refine ⟨by decide, by decide, (default_selection pair _ _ _ (by decide) (by decide)).mpr ?_⟩
  refine ⟨fun _ => ⟨fun h => ?_, fun _ _ => ?_⟩, fun h => ?_⟩
  · exact absurd h (by decide)
  · decide
  · exact absurd (h rfl) (by decide)

/-- The limit of the broadcast is for whole scratch spaces, its segments are shares of one: two
gibibytes make 4096 segments. -/
theorem too_many_segments : ¬ ∀ (team : Team) (op : Op) (nbytes : Nat) (flags : Flags),
    0 < nbytes → nbytes < 2 ^ 64 → Admits team op nbytes flags := by
  intro h
  have hmet := (h pair (.broadcast 0) 2147483648 inSegment (by decide) (by decide)).segSize 524288
    (by decide)
  exact absurd hmet.2 (by decide)

end Gasnet.Coll.Autotune
