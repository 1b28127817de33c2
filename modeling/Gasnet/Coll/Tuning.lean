import Mathlib.Data.List.Basic
import Mathlib.Data.List.Nodup
import Mathlib.Data.List.Forall2
import Mathlib.Algebra.Order.BigOperators.Group.List
import Mathlib.Algebra.Order.Ring.Nat
import Gasnet.Coll.Autotune
import Gasnet.Coll.Trees

/-! The sweep of an algorithm's tuning parameters: what is registered for each parameter, and the
loop nest that times every setting and keeps the fastest. -/
namespace Gasnet.Coll.Tuning
open Autotune (Team)

/-- `struct gasnet_coll_tuning_parameter_t`. -/
structure TuningParameter where
  start : BitVec 32
  end_ : BitVec 32
  stride : BitVec 32
  flags : BitVec 32

/-- `GASNET_COLL_TUNING_STRIDE_ADD`. -/
def strideAdd : BitVec 32 := 1

/-- `GASNET_COLL_TUNING_STRIDE_MULTIPLY`. -/
def strideMultiply : BitVec 32 := 2

/-- `GASNET_COLL_TUNING_SIZE_PARAM`. -/
def sizeParam : BitVec 32 := 4

/-- `GASNET_COLL_TUNING_TREE_SHAPE`. -/
def treeShape : BitVec 32 := 8

/-- A team, and whether its tuner may try the flat tree. -/
structure Info extends Team where
  allowFlatTree : Bool

namespace TuningParameter
variable (p : TuningParameter)

def has (flag : BitVec 32) : Bool := p.flags &&& flag != 0

/-- The change of `idx` at the end of a round; `idx` is an `int` and the stride a `uint32_t`. -/
def advance (idx : BitVec 32) : BitVec 32 :=
  if p.has strideAdd then idx + p.stride
  else if p.has strideMultiply then idx * p.stride
  else idx

/-- The test that skips a round; `idx` goes to `size_t` with its sign. -/
def tooLarge (nbytes : BitVec 64) (idx : BitVec 32) : Bool :=
  p.has sizeParam && nbytes < idx.signExtend 64

end TuningParameter

namespace Info
variable (info : Info)

/-- `log2_threads`. -/
def log2Threads : Nat := Nat.log 2 (min info.totalRanks 128)

/-- `gasnete_coll_autotune_get_num_tree_types`. -/
def getNumTreeTypes : Nat := (if info.allowFlatTree then 1 else 0) + info.log2Threads * 2

/-- What the registration adds for an algorithm on a tree. -/
def treeParameter : TuningParameter where
  start := 0
  end_ := BitVec.ofNat 32 info.getNumTreeTypes - 1
  stride := 1
  flags := treeShape ||| strideAdd

/-- The `parameter_list` that `gasnete_coll_autotune_register_algorithm` leaves. -/
def registerAlgorithm (params : List TuningParameter) (treeAlg : Bool) : List TuningParameter :=
  params ++ if treeAlg then [info.treeParameter] else []

/-- `GASNET_COLL_MIN_PIPE_SEG_SIZE`. -/
def minPipeSegSize : Nat := 8192

/-- The range registered with `BROADCAST_TREE_PUT_SEG`. -/
def broadcastSegs : TuningParameter where
  start := BitVec.ofNat 32 minPipeSegSize
  end_ := BitVec.ofNat 32 (min info.lubRequestLong info.scratchSize)
  stride := 2
  flags := strideMultiply ||| sizeParam

/-- The range registered with `SCATTER_TREE_PUT_SEG` and with `GATHER_TREE_PUT_SEG`. -/
def rootedSegs : TuningParameter where
  start := BitVec.ofNat 32 (min info.lubRequestLong minPipeSegSize / info.totalRanks)
  end_ := BitVec.ofNat 32
    (min info.lubRequestLong (min info.lubRequestLong info.scratchSize) / info.totalRanks)
  stride := 2
  flags := strideMultiply ||| sizeParam

end Info

/-- A run that did not return: its rounds ran out, or an assertion failed. -/
inductive Halt
  | fuel
  | abort
deriving DecidableEq

/-- A measurement: the setting, the tree and the time. -/
structure Run where
  point : List (BitVec 32)
  tree : Option TreeType
  time : Nat

/-- What the caller gets back, and the measurements so far. -/
structure St where
  bestTime : Nat
  bestParamList : List (BitVec 32)
  bestTree : String
  log : List Run

/-- The name of a class in `gasnete_coll_tree_type_to_str`. -/
def className : TreeClass → String
  | .flat => "FLAT_TREE"
  | .knomial => "KNOMIAL_TREE"
  | .nary => "NARY_TREE"
  | .recursive => "RECURSIVE_TREE"
  | .fork => "FORK_TREE"
  | .hierarchical => ""

/-- `gasnete_coll_tree_type_to_str`. -/
def treeTypeToStr (t : TreeType) : String :=
  t.params.foldl (fun s n => s ++ "," ++ toString n) (className t.tree_class)

/-- `gasnete_coll_autotune_get_tree_type_idx`. -/
def getTreeTypeIdx (info : Info) (idx : BitVec 32) : Except Halt TreeType :=
  if idx.toNat < info.getNumTreeTypes then
    if info.allowFlatTree && idx == 0 then .ok ⟨.flat, []⟩
    else
      let i := if info.allowFlatTree then idx.toNat - 1 else idx.toNat
      .ok ⟨if i / info.log2Threads = 0 then .knomial else .nary,
        [2 ^ (1 + i % info.log2Threads)]⟩
  else .error .abort

/-- How long a measurement takes, by those before it, its setting and its tree. -/
abbrev Bench := List Run → List (BitVec 32) → Option TreeType → Nat

variable (info : Info) (nbytes : BitVec 64) (bench : Bench) (fuel : Nat)

/-- A measurement that came in under the best time replaces the best setting. -/
def record (point : List (BitVec 32)) (tree : Option TreeType) (s : St) : St :=
  let currRun := bench s.log point tree
  let s := { s with log := s.log ++ [⟨point, tree, currRun⟩] }
  if currRun < s.bestTime then
    { s with
      bestTime := currRun
      bestParamList := point ++ s.bestParamList.drop point.length
      bestTree := (tree.map treeTypeToStr).getD "" }
  else s

/-- The innermost round. -/
def runCollective (p : TuningParameter) (point : List (BitVec 32)) (s : St) : Except Halt St := do
  if p.has treeShape then
    let tree ← getTreeTypeIdx info (point.getLast?.getD 0)
    return record bench point (some tree) s
  else return record bench point none s

/-- The rounds of one parameter, from `idx` on. -/
def sweep (p : TuningParameter) (body : BitVec 32 → St → Except Halt St) :
    Nat → BitVec 32 → St → Except Halt St
  | 0, _, _ => .error .fuel
  | n + 1, idx, s => do
    let s ← if p.tooLarge nbytes idx then pure s else body idx s
    if p.end_ < p.advance idx then return s else sweep p body n (p.advance idx) s

/-- `do_tuning_loop`, with the parameters still to be set and the values of those before them. -/
def doTuningLoop : List TuningParameter → List (BitVec 32) → St → Except Halt St
  | [], _, s =>
    let time := bench s.log [] none
    .ok { s with bestTime := time, log := s.log ++ [⟨[], none, time⟩] }
  | [p], curr, s =>
    if p.end_ < p.start then .error .abort
    else sweep nbytes p (fun idx => runCollective info bench p (curr ++ [idx])) fuel p.start s
  | p :: q :: ps, curr, s =>
    if p.end_ < p.start then .error .abort
    else sweep nbytes p (fun idx => doTuningLoop (q :: ps) (curr ++ [idx])) fuel p.start s

end Gasnet.Coll.Tuning

/-! A tuning sweep times every admissible setting once and returns the fastest. -/
namespace Gasnet.Coll.Tuning
open Autotune (Team)

variable {info : Info} {nbytes : BitVec 64} {bench : Bench} {p q : TuningParameter}
  {ps params : List TuningParameter} {treeAlg : Bool} {k n fuel : Nat} {s t : St}

namespace TuningParameter

/-- The `k`-th value of a range, in unbounded arithmetic. -/
def value (p : TuningParameter) (k : Nat) : Nat :=
  if p.has strideAdd then p.start.toNat + k * p.stride.toNat
  else if p.has strideMultiply then p.start.toNat * p.stride.toNat ^ k
  else p.start.toNat

/-- The values up to the end are reached by steps that go up and stay within 32 bits. A size is
a positive `int`. -/
structure Sweeps (p : TuningParameter) : Prop where
  start_le : p.start ≤ p.end_
  lt_next : ∀ k, p.value k ≤ p.end_.toNat → p.value k < p.value (k + 1)
  next_lt : ∀ k, p.value k ≤ p.end_.toNat → p.value (k + 1) < 2 ^ 32
  size : p.has sizeParam = true → p.end_.toNat < 2 ^ 31

/-- A value the sweep has to try for `nbytes`. -/
def Admits (p : TuningParameter) (nbytes : BitVec 64) (v : BitVec 32) : Prop :=
  p.start ≤ v ∧ v ≤ p.end_ ∧ (∃ k, v.toNat = p.value k) ∧
    (p.has sizeParam = true → v.toNat ≤ nbytes.toNat)

/-- How many values a range has. -/
def count (p : TuningParameter) : Nat :=
  if p.has strideAdd then (p.end_.toNat - p.start.toNat) / p.stride.toNat + 1
  else Nat.log p.stride.toNat (p.end_.toNat / p.start.toNat) + 1

/-- The rounds `k`, `k + 1`, .. of a range that are not skipped. -/
def values (p : TuningParameter) (nbytes : BitVec 64) (k n : Nat) : List (BitVec 32) :=
  ((List.range' k n).map fun j => BitVec.ofNat 32 (p.value j)).filter fun v =>
    !p.tooLarge nbytes v

theorem Sweeps.value_zero (_ : p.Sweeps) : p.value 0 = p.start.toNat := by
  simp [value]

theorem Sweeps.value_zero_le (hp : p.Sweeps) : p.value 0 ≤ p.end_.toNat := by
  rw [hp.value_zero]
  exact hp.start_le

theorem Sweeps.lt_count_iff (hp : p.Sweeps) : k < p.count ↔ p.value k ≤ p.end_.toNat := by
  have h₀ := hp.lt_next 0 hp.value_zero_le
  have hle : p.start.toNat ≤ p.end_.toNat := hp.start_le
  simp only [value] at h₀
  simp only [value, count]
  split_ifs at h₀ ⊢ with ha hm
  · have hs : 0 < p.stride.toNat := by omega
    rw [Nat.lt_succ_iff, Nat.le_div_iff_mul_le hs]
    omega
  · have hs : 0 < p.start.toNat := by
      apply Nat.pos_of_ne_zero
      intro hz
      simp [hz] at h₀
    have hr : 1 < p.stride.toNat := by
      apply Nat.lt_of_mul_lt_mul_left (a := p.start.toNat)
      simpa using h₀
    have hq : p.end_.toNat / p.start.toNat ≠ 0 := (Nat.div_pos hle hs).ne'
    rw [Nat.lt_succ_iff, Nat.le_log_iff_pow_le hr hq, Nat.le_div_iff_mul_le hs, Nat.mul_comm]
  · omega

theorem Sweeps.value_lt (hp : p.Sweeps) (hk : k < p.count) : p.value k < 2 ^ 32 :=
  lt_of_le_of_lt (hp.lt_count_iff.1 hk) p.end_.isLt

theorem Sweeps.count_pos (hp : p.Sweeps) : 0 < p.count := hp.lt_count_iff.2 hp.value_zero_le

/-- One round goes to the next value. -/
theorem Sweeps.advance_eq (hp : p.Sweeps) (hk : k < p.count) :
    p.advance (BitVec.ofNat 32 (p.value k)) = BitVec.ofNat 32 (p.value (k + 1)) := by
  have hv := hp.value_lt hk
  have hn := hp.next_lt k (hp.lt_count_iff.1 hk)
  apply BitVec.eq_of_toNat_eq
  simp only [advance, value] at *
  split_ifs at * with ha hm
  · have he : (k + 1) * p.stride.toNat = k * p.stride.toNat + p.stride.toNat := Nat.succ_mul ..
    simp only [BitVec.toNat_add, BitVec.toNat_ofNat, he]
    rw [Nat.mod_eq_of_lt hv, Nat.add_assoc]
  · have he : p.stride.toNat ^ (k + 1) = p.stride.toNat ^ k * p.stride.toNat := Nat.pow_succ ..
    simp only [BitVec.toNat_mul, BitVec.toNat_ofNat, he]
    rw [Nat.mod_eq_of_lt hv, Nat.mul_assoc]
  · rfl

theorem Sweeps.end_lt_iff (hp : p.Sweeps) (hk : k < p.count) :
    p.end_ < BitVec.ofNat 32 (p.value (k + 1)) ↔ p.count = k + 1 := by
  have hn := hp.next_lt k (hp.lt_count_iff.1 hk)
  have hc := @Sweeps.lt_count_iff p (k + 1) hp
  rw [BitVec.lt_def, BitVec.toNat_ofNat, Nat.mod_eq_of_lt hn]
  omega

theorem Sweeps.value_mono (hp : p.Sweeps) (hn : n < p.count) (hk : k < n) :
    p.value k < p.value n := by
  induction n with
  | zero => omega
  | succ n ih =>
    have hlt := hp.lt_next n (hp.lt_count_iff.1 (by omega))
    obtain h | rfl := Nat.lt_succ_iff_lt_or_eq.1 hk
    · exact (ih (by omega) h).trans hlt
    · exact hlt

theorem tooLarge_iff {v : BitVec 32} (h : p.has sizeParam = true → v.toNat < 2 ^ 31) :
    p.tooLarge nbytes v = true ↔ p.has sizeParam = true ∧ nbytes.toNat < v.toNat := by
  simp only [tooLarge, Bool.and_eq_true, decide_eq_true_eq]
  apply and_congr_right
  intro hs
  have hm : v.msb = false := by
    rw [BitVec.msb_eq_false_iff_two_mul_lt]
    have := h hs
    omega
  rw [BitVec.lt_def, BitVec.signExtend_eq_setWidth_of_msb_false hm, BitVec.toNat_setWidth,
    Nat.mod_eq_of_lt (by omega)]

theorem Sweeps.mem_values (hp : p.Sweeps) {v : BitVec 32} :
    v ∈ p.values nbytes 0 p.count ↔ p.Admits nbytes v := by
  have hsize : v ≤ p.end_ → p.has sizeParam = true → v.toNat < 2 ^ 31 := fun hv hs =>
    lt_of_le_of_lt hv (hp.size hs)
  simp only [values, List.mem_filter, List.mem_map, List.mem_range', Bool.not_eq_true', Nat.one_mul,
    Nat.zero_add]
  constructor
  · rintro ⟨⟨k, ⟨_, hk, rfl⟩, rfl⟩, hl⟩
    have hv : (BitVec.ofNat 32 (p.value k)).toNat = p.value k := by
      rw [BitVec.toNat_ofNat, Nat.mod_eq_of_lt (hp.value_lt hk)]
    have he : BitVec.ofNat 32 (p.value k) ≤ p.end_ := by
      rw [BitVec.le_def, hv]
      exact hp.lt_count_iff.1 hk
    refine ⟨?_, he, ⟨k, hv⟩, fun hs => ?_⟩
    · rw [BitVec.le_def, hv, ← hp.value_zero]
      obtain rfl | h := Nat.eq_zero_or_pos k
      · exact le_rfl
      · exact (hp.value_mono hk h).le
    · by_contra hlt
      have := (tooLarge_iff (hsize he)).2 ⟨hs, not_le.1 hlt⟩
      simp [hl] at this
  · rintro ⟨-, he, ⟨k, hk⟩, hs⟩
    refine ⟨⟨k, ⟨k, ?_, rfl⟩, ?_⟩, ?_⟩
    · rw [hp.lt_count_iff, ← hk]
      exact he
    · rw [← hk, BitVec.ofNat_toNat, BitVec.setWidth_eq]
    · by_contra hl
      obtain ⟨h₁, h₂⟩ := (tooLarge_iff (hsize he)).1 (by simpa using hl)
      have := hs h₁
      omega

theorem Sweeps.nodup_values (hp : p.Sweeps) : (p.values nbytes 0 p.count).Nodup := by
  apply List.Nodup.filter
  apply List.Nodup.map_on _ List.nodup_range'
  intro i hi j hj he
  simp only [List.mem_range', Nat.one_mul, Nat.zero_add] at hi hj
  obtain ⟨_, hi, rfl⟩ := hi
  obtain ⟨_, hj, rfl⟩ := hj
  have hv := congrArg BitVec.toNat he
  rw [BitVec.toNat_ofNat, BitVec.toNat_ofNat, Nat.mod_eq_of_lt (hp.value_lt hi),
    Nat.mod_eq_of_lt (hp.value_lt hj)] at hv
  rcases Nat.lt_trichotomy i j with h | h | h
  · exact absurd hv (hp.value_mono hj h).ne
  · exact h
  · exact absurd hv (hp.value_mono hi h).ne'

end TuningParameter

theorem values_succ (p : TuningParameter) (k n : Nat) :
    p.values nbytes k (n + 1) = (if p.tooLarge nbytes (BitVec.ofNat 32 (p.value k)) then []
      else [BitVec.ofNat 32 (p.value k)]) ++ p.values nbytes (k + 1) n := by
  simp only [TuningParameter.values, List.range'_succ, List.map_cons, List.filter_cons]
  split <;> simp_all

/-- The rounds of one parameter are a fold over its values. -/
theorem sweep_eq (hp : p.Sweeps) (body : BitVec 32 → St → Except Halt St)
    (hk : k + (n + 1) = p.count) (hf : n < fuel) :
    sweep nbytes p body fuel (BitVec.ofNat 32 (p.value k)) s =
      (p.values nbytes k (n + 1)).foldlM (fun s v => body v s) s := by
  induction n generalizing k fuel s with
  | zero =>
    obtain ⟨fuel, rfl⟩ := Nat.exists_eq_add_of_lt hf
    have hend := (hp.end_lt_iff (show k < p.count by omega)).2 hk.symm
    rw [values_succ, show p.values nbytes (k + 1) 0 = [] from rfl, List.append_nil, sweep,
      hp.advance_eq (by omega)]
    split <;> simp
  | succ n ih =>
    obtain ⟨fuel, rfl⟩ := Nat.exists_eq_add_of_lt hf
    have hend : ¬ p.end_ < BitVec.ofNat 32 (p.value (k + 1)) := by
      rw [hp.end_lt_iff (by omega)]
      omega
    rw [values_succ, List.foldlM_append, sweep, hp.advance_eq (by omega)]
    have hrest : (fun t => sweep nbytes p body (n + 1 + fuel) (BitVec.ofNat 32 (p.value (k + 1))) t)
        = fun t => (p.values nbytes (k + 1) (n + 1)).foldlM (fun s v => body v s) t := by
      funext t
      exact ih (by omega) (by omega)
    split <;> simp [hrest]

/-- The settings of a list of parameters, in the order of the loop nest. -/
def settings (nbytes : BitVec 64) : List TuningParameter → List (List (BitVec 32))
  | [] => [[]]
  | p :: ps => (p.values nbytes 0 p.count).flatMap fun v => (settings nbytes ps).map (v :: ·)

theorem foldlM_flatMap {α β σ : Type} (f : σ → β → Except Halt σ) (g : α → List β) (l : List α)
    (s : σ) : (l.flatMap g).foldlM f s = l.foldlM (fun s a => (g a).foldlM f s) s := by
  induction l generalizing s with
  | nil => rfl
  | cons a l ih =>
    rw [List.flatMap_cons, List.foldlM_append, List.foldlM_cons]
    congr 1
    funext t
    exact ih t

/-- The loop nest is a fold over the settings. -/
theorem doTuningLoop_eq (hne : ps ≠ []) (hs : ∀ p ∈ ps, p.Sweeps) (hf : ∀ p ∈ ps, p.count ≤ fuel)
    (curr : List (BitVec 32)) (s : St) :
    doTuningLoop info nbytes bench fuel ps curr s = (settings nbytes ps).foldlM
      (fun s pt => runCollective info bench (ps.getLast hne) (curr ++ pt) s) s := by
  induction ps generalizing curr s with
  | nil => exact absurd rfl hne
  | cons p ps ih =>
    have hp := hs p List.mem_cons_self
    have hfuel := hf p List.mem_cons_self
    have hpos := hp.count_pos
    have hstart : ¬ p.end_ < p.start := BitVec.not_lt.2 hp.start_le
    have hzero : p.start = BitVec.ofNat 32 (p.value 0) := by
      rw [hp.value_zero, BitVec.ofNat_toNat, BitVec.setWidth_eq]
    obtain ⟨n, hn⟩ : ∃ n, 0 + (n + 1) = p.count := ⟨p.count - 1, by omega⟩
    cases ps with
    | nil =>
      rw [doTuningLoop, if_neg hstart, hzero, sweep_eq hp _ hn (by omega), settings,
        foldlM_flatMap, ← hn, Nat.zero_add]
      simp [settings]
    | cons q ps =>
      rw [doTuningLoop, if_neg hstart, hzero, sweep_eq hp _ hn (by omega), settings,
        foldlM_flatMap, ← hn, Nat.zero_add]
      congr 1
      funext s v
      rw [ih (List.cons_ne_nil q ps) (fun r hr => hs r (List.mem_cons_of_mem p hr))
        (fun r hr => hf r (List.mem_cons_of_mem p hr)), List.foldlM_map]
      simp

theorem mem_settings (hs : ∀ p ∈ ps, p.Sweeps) {pt : List (BitVec 32)} :
    pt ∈ settings nbytes ps ↔ List.Forall₂ (fun p v => p.Admits nbytes v) ps pt := by
  induction ps generalizing pt with
  | nil => simp [settings]
  | cons p ps ih =>
    have hps := fun q hq => hs q (List.mem_cons_of_mem p hq)
    simp only [settings, List.mem_flatMap, List.mem_map, List.forall₂_cons_left_iff, ih hps,
      (hs p List.mem_cons_self).mem_values]
    constructor
    · rintro ⟨v, hv, pt, hpt, rfl⟩
      exact ⟨v, pt, hv, hpt, rfl⟩
    · rintro ⟨v, pt, hv, hpt, rfl⟩
      exact ⟨v, hv, pt, hpt, rfl⟩

theorem nodup_settings (hs : ∀ p ∈ ps, p.Sweeps) : (settings nbytes ps).Nodup := by
  induction ps with
  | nil => simp [settings]
  | cons p ps ih =>
    have hps := ih fun q hq => hs q (List.mem_cons_of_mem p hq)
    rw [settings, List.nodup_flatMap]
    constructor
    · intro v _
      exact hps.map fun _ _ h => (List.cons.inj h).2
    · apply (hs p List.mem_cons_self).nodup_values.imp
      rintro v w hvw x hx hy
      simp only [List.mem_map] at hx hy
      obtain ⟨a, -, rfl⟩ := hx
      obtain ⟨b, -, hb⟩ := hy
      exact hvw (List.cons.inj hb).1.symm

/-- The string kept with a measurement. -/
def Run.treeStr (r : Run) : String := (r.tree.map treeTypeToStr).getD ""

/-- `t` holds the fastest of `runs`, or still what `s` held when none was faster. -/
structure Fastest (runs : List Run) (s t : St) : Prop where
  log : t.log = s.log ++ runs
  le : t.bestTime ≤ s.bestTime
  least : ∀ r ∈ runs, t.bestTime ≤ r.time
  held : (t.bestTime = s.bestTime ∧ t.bestParamList = s.bestParamList ∧ t.bestTree = s.bestTree) ∨
    t.bestTime < s.bestTime ∧ ∃ r ∈ runs, r.time = t.bestTime ∧
      t.bestParamList.take r.point.length = r.point ∧ t.bestTree = r.treeStr

theorem Fastest.refl (s : St) : Fastest [] s s where
  log := (List.append_nil _).symm
  le := le_rfl
  least := by simp
  held := .inl ⟨rfl, rfl, rfl⟩

theorem Fastest.trans {a b : List Run} {s t u : St} (h : Fastest a s t) (h' : Fastest b t u) :
    Fastest (a ++ b) s u where
  log := by rw [h'.log, h.log, List.append_assoc]
  le := h'.le.trans h.le
  least := by
    intro r hr
    obtain hr | hr := List.mem_append.1 hr
    · exact h'.le.trans (h.least r hr)
    · exact h'.least r hr
  held := by
    obtain ⟨ht, hl, hs⟩ | ⟨hlt, r, hr, hrest⟩ := h'.held
    · rw [ht, hl, hs]
      obtain hk | ⟨hlt, r, hr, hrest⟩ := h.held
      · exact .inl hk
      · exact .inr ⟨hlt, r, List.mem_append_left _ hr, hrest⟩
    · exact .inr ⟨lt_of_lt_of_le hlt h.le, r, List.mem_append_right _ hr, hrest⟩

theorem record_fastest (bench : Bench) (pt : List (BitVec 32)) (tree : Option TreeType) (s : St) :
    Fastest [⟨pt, tree, bench s.log pt tree⟩] s (record bench pt tree s) := by
  simp only [record]
  split
  · rename_i hlt
    constructor
    · rfl
    · exact Nat.le_of_lt hlt
    · simp
    · refine .inr ⟨hlt, _, List.mem_singleton_self _, rfl, ?_, rfl⟩
      simp
  · rename_i hlt
    constructor
    · rfl
    · exact le_rfl
    · simpa using hlt
    · exact .inl ⟨rfl, rfl, rfl⟩

/-- A measurement of every setting of a list, when none of them fails. -/
theorem foldlM_fastest {pts : List (List (BitVec 32))}
    (h : ∀ pt ∈ pts, ∃ tree, ∀ s, runCollective info bench p pt s = .ok (record bench pt tree s))
    (s : St) : ∃ t runs, pts.foldlM (fun s pt => runCollective info bench p pt s) s = .ok t ∧
      runs.map Run.point = pts ∧ Fastest runs s t := by
  induction pts generalizing s with
  | nil => exact ⟨s, [], rfl, rfl, .refl s⟩
  | cons pt pts ih =>
    obtain ⟨tree, htree⟩ := h pt List.mem_cons_self
    obtain ⟨t, runs, hrun, hpts, hfast⟩ :=
      ih (fun q hq => h q (List.mem_cons_of_mem pt hq)) (record bench pt tree s)
    refine ⟨t, _ :: runs, ?_, ?_, (record_fastest bench pt tree s).trans hfast⟩
    · rw [List.foldlM_cons, htree]
      exact hrun
    · rw [List.map_cons, hpts]

theorem log2Threads_le (info : Info) : info.log2Threads ≤ 7 :=
  (Nat.log_mono_right (min_le_right _ _)).trans (by decide)

theorem getNumTreeTypes_lt (info : Info) : info.getNumTreeTypes < 16 := by
  have := log2Threads_le info
  simp only [Info.getNumTreeTypes]
  split <;> omega

theorem getNumTreeTypes_pos (h : 2 ≤ info.totalRanks ∨ info.allowFlatTree = true) :
    0 < info.getNumTreeTypes := by
  simp only [Info.getNumTreeTypes]
  obtain h | h := h
  · have : 0 < info.log2Threads := Nat.log_pos (by decide) (by omega)
    omega
  · rw [if_pos h]
    omega

theorem treeParameter_end (h : 2 ≤ info.totalRanks ∨ info.allowFlatTree = true) :
    info.treeParameter.end_.toNat = info.getNumTreeTypes - 1 := by
  have hpos := getNumTreeTypes_pos h
  have hlt := getNumTreeTypes_lt info
  simp only [Info.treeParameter]
  rw [BitVec.toNat_sub, BitVec.toNat_ofNat]
  simp
  omega

theorem treeParameter_sweeps (h : 2 ≤ info.totalRanks ∨ info.allowFlatTree = true) :
    info.treeParameter.Sweeps := by
  have hend := treeParameter_end h
  have hlt := getNumTreeTypes_lt info
  have hvalue : ∀ k, info.treeParameter.value k = k := by
    intro k
    simp [TuningParameter.value, Info.treeParameter, TuningParameter.has, strideAdd, treeShape]
  constructor
  · rw [BitVec.le_def]
    exact Nat.zero_le _
  · intro k _
    rw [hvalue, hvalue]
    exact k.lt_succ_self
  · intro k hk
    rw [hvalue] at hk ⊢
    omega
  · intro _
    omega

/-- A doubling range of sizes whose first value is not zero and whose last is below `2 ^ 31`. -/
theorem segs_sweeps (hm : p.flags = strideMultiply ||| sizeParam) (hs : p.stride = 2)
    (hpos : 0 < p.start.toNat) (hle : p.start ≤ p.end_) (hlt : p.end_.toNat < 2 ^ 31) :
    p.Sweeps := by
  have hvalue : ∀ k, p.value k = p.start.toNat * 2 ^ k := by
    intro k
    simp [TuningParameter.value, TuningParameter.has, hm, hs, strideAdd, strideMultiply, sizeParam]
  have hsucc : ∀ k, p.value (k + 1) = p.value k * 2 := by
    intro k
    rw [hvalue, hvalue, Nat.pow_succ, Nat.mul_assoc]
  constructor
  · exact hle
  · intro k _
    have : 0 < p.value k := by
      rw [hvalue]
      exact Nat.mul_pos hpos (Nat.two_pow_pos k)
    rw [hsucc]
    omega
  · intro k hk
    rw [hsucc]
    omega
  · exact fun _ => hlt

/-- The broadcast range, when a least segment fits in a message and in the scratch space. -/
theorem broadcastSegs_sweeps (hmin : 8192 ≤ min info.lubRequestLong info.scratchSize)
    (hlt : min info.lubRequestLong info.scratchSize < 2 ^ 31) : info.broadcastSegs.Sweeps := by
  have hstart : info.broadcastSegs.start.toNat = 8192 := rfl
  have hend : info.broadcastSegs.end_.toNat = min info.lubRequestLong info.scratchSize := by
    simp only [Info.broadcastSegs, BitVec.toNat_ofNat]
    exact Nat.mod_eq_of_lt (by omega)
  apply segs_sweeps rfl rfl
  · rw [hstart]
    exact Nat.succ_pos _
  · rw [BitVec.le_def, hstart, hend]
    exact hmin
  · rw [hend]
    exact hlt

/-- The range of a rooted collective, when every rank gets a byte of a least segment. -/
theorem rootedSegs_sweeps (hr : info.totalRanks ≤ min info.lubRequestLong 8192)
    (hs : min info.lubRequestLong 8192 ≤ info.scratchSize)
    (hlt : min info.lubRequestLong info.scratchSize / info.totalRanks < 2 ^ 31) :
    info.rootedSegs.Sweeps := by
  have hpos := info.totalRanks_pos
  have hle : min info.lubRequestLong 8192 / info.totalRanks ≤ 8192 :=
    (Nat.div_le_self _ _).trans (min_le_right _ _)
  have hstart : info.rootedSegs.start.toNat = min info.lubRequestLong 8192 / info.totalRanks := by
    simp only [Info.rootedSegs, Info.minPipeSegSize, BitVec.toNat_ofNat]
    exact Nat.mod_eq_of_lt (by omega)
  have hend : info.rootedSegs.end_.toNat =
      min info.lubRequestLong info.scratchSize / info.totalRanks := by
    have hmin : min info.lubRequestLong (min info.lubRequestLong info.scratchSize) =
        min info.lubRequestLong info.scratchSize := by omega
    simp only [Info.rootedSegs, BitVec.toNat_ofNat, hmin]
    exact Nat.mod_eq_of_lt (by omega)
  apply segs_sweeps rfl rfl
  · rw [hstart]
    exact Nat.div_pos hr hpos
  · rw [BitVec.le_def, hstart, hend]
    exact Nat.div_le_div_right (by omega)
  · rw [hend]
    exact hlt

theorem getTreeTypeIdx_of_admits (h : 2 ≤ info.totalRanks ∨ info.allowFlatTree = true)
    {v : BitVec 32} (hv : info.treeParameter.Admits nbytes v) :
    ∃ tree, getTreeTypeIdx info v = .ok tree := by
  have hend : v.toNat ≤ info.treeParameter.end_.toNat := hv.2.1
  have hpos := getNumTreeTypes_pos h
  rw [treeParameter_end h] at hend
  rw [getTreeTypeIdx, if_pos (by omega)]
  split
  · exact ⟨_, rfl⟩
  · exact ⟨_, rfl⟩

theorem treeParameter_shape (info : Info) : info.treeParameter.has treeShape = true := by
  simp [Info.treeParameter, TuningParameter.has, treeShape, strideAdd]

/-- No setting of a registered list makes the choice of a tree fail. -/
theorem runCollective_eq (ht : treeAlg = true → 2 ≤ info.totalRanks ∨ info.allowFlatTree = true)
    (hshape : ∀ p ∈ params, p.has treeShape = false)
    (hne : info.registerAlgorithm params treeAlg ≠ []) {pt : List (BitVec 32)}
    (hpt : List.Forall₂ (fun p v => p.Admits nbytes v) (info.registerAlgorithm params treeAlg) pt) :
    ∃ tree, ∀ s, runCollective info bench ((info.registerAlgorithm params treeAlg).getLast hne)
      pt s = .ok (record bench pt tree s) := by
  cases treeAlg with
  | false =>
    simp only [Info.registerAlgorithm, List.append_nil, Bool.false_eq_true, if_false] at hne ⊢
    refine ⟨none, fun s => ?_⟩
    rw [runCollective, hshape _ (List.getLast_mem hne)]
    rfl
  | true =>
    have hlast : (info.registerAlgorithm params true).getLast hne = info.treeParameter := by
      simp [Info.registerAlgorithm]
    have hdrop := List.forall₂_drop params.length hpt
    rw [Info.registerAlgorithm, List.drop_left] at hdrop
    obtain ⟨v, _, hv, hnil, hcons⟩ := List.forall₂_cons_left_iff.1 hdrop
    cases hnil
    have hgetLast : pt.getLast? = some v := by
      rw [← List.take_append_drop params.length pt, hcons]
      simp
    obtain ⟨tree, htree⟩ := getTreeTypeIdx_of_admits (ht rfl) hv
    refine ⟨some tree, fun s => ?_⟩
    simp [runCollective, hlast, treeParameter_shape, hgetLast, htree]

/-- What a sweep of `params` owes its caller: `runs` are its measurements. -/
structure Swept (params : List TuningParameter) (nbytes : BitVec 64) (runs : List Run)
    (s t : St) : Prop where
  log : t.log = s.log ++ runs
  once : (runs.map Run.point).Nodup
  every : ∀ pt, pt ∈ runs.map Run.point ↔ List.Forall₂ (fun p v => p.Admits nbytes v) params pt
  least : ∀ r ∈ runs, t.bestTime ≤ r.time
  best : (params = [] ∨ ∃ r ∈ runs, r.time < s.bestTime) → ∃ r ∈ runs, r.time = t.bestTime ∧
    t.bestParamList.take params.length = r.point ∧ (params ≠ [] → t.bestTree = r.treeStr)
  kept : params ≠ [] → (∀ r ∈ runs, s.bestTime ≤ r.time) →
    t.bestTime = s.bestTime ∧ t.bestParamList = s.bestParamList ∧ t.bestTree = s.bestTree

theorem swept_of_fastest (hne : ps ≠ []) (hs : ∀ p ∈ ps, p.Sweeps) {runs : List Run}
    (hpts : runs.map Run.point = settings nbytes ps) (h : Fastest runs s t) :
    Swept ps nbytes runs s t where
  log := h.log
  once := hpts ▸ nodup_settings hs
  every := by
    intro pt
    rw [hpts, mem_settings hs]
  least := h.least
  best := by
    rintro (hnil | ⟨r, hr, hlt⟩)
    · exact absurd hnil hne
    obtain ⟨hk, -⟩ | ⟨-, q, hq, hqt, hql, hqs⟩ := h.held
    · have := h.least r hr
      omega
    · have hlen : q.point.length = ps.length := by
        have hmem := List.mem_map_of_mem (f := Run.point) hq
        rw [hpts, mem_settings hs] at hmem
        exact hmem.length_eq.symm
      exact ⟨q, hq, hqt, hlen ▸ hql, fun _ => hqs⟩
  kept := by
    intro _ hall
    obtain hk | ⟨hlt, q, hq, hqt, -⟩ := h.held
    · exact hk
    · have := hall q hq
      omega

/-- A sweep of registered parameters returns, and has timed each admissible setting once. -/
theorem doTuningLoop_swept (info : Info) (params : List TuningParameter) (treeAlg : Bool)
    (ht : treeAlg = true → 2 ≤ info.totalRanks ∨ info.allowFlatTree = true)
    (hs : ∀ p ∈ params, p.Sweeps) (hshape : ∀ p ∈ params, p.has treeShape = false) :
    ∃ n, ∀ fuel, n ≤ fuel → ∀ nbytes bench s, ∃ t runs,
      doTuningLoop info nbytes bench fuel (info.registerAlgorithm params treeAlg) [] s = .ok t ∧
      Swept (info.registerAlgorithm params treeAlg) nbytes runs s t := by
  have hall : ∀ p ∈ info.registerAlgorithm params treeAlg, p.Sweeps := by
    intro p hp
    obtain hp | hp := List.mem_append.1 hp
    · exact hs p hp
    · cases treeAlg with
      | false => simp at hp
      | true =>
        obtain rfl := List.mem_singleton.1 hp
        exact treeParameter_sweeps (ht rfl)
  by_cases hne : info.registerAlgorithm params treeAlg = []
  · refine ⟨0, fun fuel _ nbytes bench s => ?_⟩
    rw [hne]
    refine ⟨_, _, rfl, rfl, ?_, ?_, ?_, ?_, ?_⟩
    · simp
    · simp
    · simp
    · simp
    · simp
  · refine ⟨((info.registerAlgorithm params treeAlg).map TuningParameter.count).sum,
      fun fuel hf nbytes bench s => ?_⟩
    have hcount : ∀ p ∈ info.registerAlgorithm params treeAlg, p.count ≤ fuel := fun p hp =>
      (List.le_sum_of_mem (List.mem_map_of_mem hp)).trans hf
    rw [doTuningLoop_eq hne hall hcount]
    simp only [List.nil_append]
    obtain ⟨t, runs, hrun, hpts, hfast⟩ := foldlM_fastest
      (fun pt hpt => runCollective_eq ht hshape hne ((mem_settings hall).1 hpt)) s
    exact ⟨t, runs, hrun, swept_of_fastest hne hall hpts hfast⟩

/-- The rounds of the trees alone return. -/
theorem treeParameter_returns (h : 2 ≤ info.totalRanks ∨ info.allowFlatTree = true)
    (hf : info.treeParameter.count ≤ fuel) (curr : List (BitVec 32)) (s : St) :
    ∃ t, doTuningLoop info nbytes bench fuel [info.treeParameter] curr s = .ok t := by
  have hs : ∀ p ∈ [info.treeParameter], p.Sweeps := by
    simpa using treeParameter_sweeps h
  rw [doTuningLoop_eq (List.cons_ne_nil _ _) hs (by simpa using hf)]
  simp only [List.getLast_singleton]
  rw [← List.foldlM_map (f := (curr ++ ·))
    (g := fun s pt => runCollective info bench info.treeParameter pt s)]
  have hpts : ∀ pt ∈ (settings nbytes [info.treeParameter]).map (curr ++ ·), ∃ tree, ∀ s,
      runCollective info bench info.treeParameter pt s = .ok (record bench pt tree s) := by
    intro _ hmem
    obtain ⟨pt, hpt, rfl⟩ := List.mem_map.1 hmem
    rw [mem_settings hs] at hpt
    obtain ⟨v, _, hv, hnil, rfl⟩ := List.forall₂_cons_left_iff.1 hpt
    cases hnil
    obtain ⟨tree, htree⟩ := getTreeTypeIdx_of_admits h hv
    refine ⟨some tree, fun s => ?_⟩
    simp [runCollective, treeParameter_shape, htree]
  obtain ⟨t, _, ht, -⟩ := foldlM_fastest hpts s
  exact ⟨t, ht⟩

/-- A range whose value does not change under its stride is swept for ever. -/
theorem sweep_stuck {v : BitVec 32} {body : BitVec 32 → St → Except Halt St}
    (hadv : p.advance v = v) (hend : v ≤ p.end_) (hbody : ∀ s, ∃ t, body v s = .ok t) :
    sweep nbytes p body fuel v s = .error .fuel := by
  induction fuel generalizing s with
  | zero => rfl
  | succ fuel ih =>
    have hlt : ¬ p.end_ < v := BitVec.not_lt.2 hend
    obtain ⟨t, ht⟩ := hbody s
    simp only [sweep, hadv, if_neg hlt]
    split
    · exact ih
    · rw [ht]
      exact ih

/-- With more ranks than bytes in a least segment the range of a rooted collective starts at zero,
which doubling does not leave. -/
theorem rootedSegs_stuck (h : 2 ≤ info.totalRanks ∨ info.allowFlatTree = true)
    (hr : min info.lubRequestLong 8192 < info.totalRanks)
    (hf : info.treeParameter.count ≤ fuel) (nbytes : BitVec 64) (bench : Bench) (s : St) :
    doTuningLoop info nbytes bench fuel (info.registerAlgorithm [info.rootedSegs] true) [] s =
      .error .fuel := by
  have hstart : info.rootedSegs.start = 0 := by
    simp only [Info.rootedSegs, Info.minPipeSegSize]
    rw [Nat.div_eq_of_lt hr]
    rfl
  have hadv : info.rootedSegs.advance 0 = 0 := by
    simp [TuningParameter.advance, TuningParameter.has, Info.rootedSegs, strideAdd, strideMultiply,
      sizeParam]
  have hend : (0 : BitVec 32) ≤ info.rootedSegs.end_ := by
    rw [BitVec.le_def]
    exact Nat.zero_le _
  simp only [Info.registerAlgorithm, if_true, List.singleton_append, doTuningLoop, hstart,
    if_neg (BitVec.not_lt.2 hend)]
  exact sweep_stuck hadv hend fun s => treeParameter_returns h hf _ s

/-- When the range registered with the segmented broadcast can be swept. -/
def Info.BroadcastFits (info : Info) : Prop :=
  8192 ≤ min info.lubRequestLong info.scratchSize ∧
    min info.lubRequestLong info.scratchSize < 2 ^ 31

/-- When the range registered with the segmented scatter and gather can be swept. -/
def Info.RootedFits (info : Info) : Prop :=
  info.totalRanks ≤ min info.lubRequestLong 8192 ∧
    min info.lubRequestLong 8192 ≤ info.scratchSize ∧
    min info.lubRequestLong info.scratchSize / info.totalRanks < 2 ^ 31

/-- A range to register: any that can be swept, or a segment range of a team it fits. -/
def Settable (info : Info) (p : TuningParameter) : Prop :=
  (p.Sweeps ∧ p.has treeShape = false) ∨ (p = info.broadcastSegs ∧ info.BroadcastFits) ∨
    (p = info.rootedSegs ∧ info.RootedFits)

theorem Settable.sweeps (h : Settable info p) : p.Sweeps ∧ p.has treeShape = false := by
  rcases h with h | ⟨rfl, h⟩ | ⟨rfl, h⟩
  · exact h
  · refine ⟨broadcastSegs_sweeps h.1 h.2, ?_⟩
    simp [TuningParameter.has, Info.broadcastSegs, strideMultiply, sizeParam, treeShape]
  · refine ⟨rootedSegs_sweeps h.1 h.2.1 h.2.2, ?_⟩
    simp [TuningParameter.has, Info.rootedSegs, strideMultiply, sizeParam, treeShape]

/-- The tuning loop of an algorithm registered with settable ranges returns, has timed each
setting with admissible values once and no other, and leaves the fastest. -/
theorem do_tuning_loop_correct (info : Info) (params : List TuningParameter) (treeAlg : Bool)
    (ht : treeAlg = true → 2 ≤ info.totalRanks ∨ info.allowFlatTree = true)
    (hs : ∀ p ∈ params, Settable info p) :
    ∃ n, ∀ fuel, n ≤ fuel → ∀ nbytes bench s, ∃ t runs,
      doTuningLoop info nbytes bench fuel (info.registerAlgorithm params treeAlg) [] s = .ok t ∧
      Swept (info.registerAlgorithm params treeAlg) nbytes runs s t :=
  doTuningLoop_swept info params treeAlg ht (fun p hp => (hs p hp).sweeps.1)
    fun p hp => (hs p hp).sweeps.2

theorem sixteen_lt : 16 < 2 ^ 64 := by decide

/-- A team of four ranks with a megabyte of scratch space. -/
def four : Info where
  totalRanks := 4
  scratchSize := 2 ^ 20
  lubRequestLong := 2 ^ 20
  lubRequestMedium := 512
  eagerMin := 16
  eagerScale := 16
  pipeSegSizeEnv := none
  gatherAllDissemLimit := 1024
  exchangeDissemLimit := 1024
  segmentEverything := false
  totalRanks_pos := by decide
  totalRanks_lt := by decide
  scratchSize_lt := by decide
  long_lt := by decide
  medium_lt := by decide
  medium_ge := by decide
  long_ge := by decide
  eagerMin_lt := sixteen_lt
  eagerScale_lt := sixteen_lt
  allowFlatTree := true

theorem do_tuning_loop_correct_four : ∃ n, ∀ fuel, n ≤ fuel → ∀ nbytes bench s, ∃ t runs,
    doTuningLoop four nbytes bench fuel (four.registerAlgorithm [four.rootedSegs] true) [] s =
      .ok t ∧
    Swept (four.registerAlgorithm [four.rootedSegs] true) nbytes runs s t :=
  do_tuning_loop_correct four [four.rootedSegs] true (fun _ => .inr rfl) fun p hp =>
    .inr (.inr ⟨List.mem_singleton.1 hp, by decide, by decide, by decide⟩)

/-- A team of more ranks than bytes in a least segment. -/
def wide : Info :=
  { four with
    totalRanks := 8193
    totalRanks_pos := by decide
    totalRanks_lt := by decide }

/-- The scatter of a wide team is tuned for ever, and a broadcast of 8192 bytes on four ranks never
tries the segments of 16384 bytes of its range. -/
theorem do_tuning_loop_misses :
    (∀ fuel, wide.treeParameter.count ≤ fuel → ∀ nbytes bench s,
      doTuningLoop wide nbytes bench fuel (wide.registerAlgorithm [wide.rootedSegs] true) [] s =
        .error .fuel) ∧
    four.broadcastSegs.start ≤ 16384 ∧ (16384 : BitVec 32) ≤ four.broadcastSegs.end_ ∧
    four.broadcastSegs.value 1 = 16384 ∧
    ∃ n, ∀ fuel, n ≤ fuel → ∀ bench s, ∃ t,
      doTuningLoop four 8192 bench fuel (four.registerAlgorithm [four.broadcastSegs] true) [] s =
        .ok t ∧
      ∀ r ∈ t.log, r ∈ s.log ∨ r.point.head? ≠ some 16384 := by
  refine ⟨fun fuel hf nbytes bench s => rootedSegs_stuck (.inl (by decide)) (by decide) hf _ _ _,
    by decide, by decide, by decide, ?_⟩
  have hsettable : ∀ p ∈ [four.broadcastSegs], p.Sweeps ∧ p.has treeShape = false := by
    intro p hp
    exact @Settable.sweeps four p (.inr (.inl ⟨List.mem_singleton.1 hp, by decide, by decide⟩))
  obtain ⟨n, hn⟩ := doTuningLoop_swept four [four.broadcastSegs] true (fun _ => .inr rfl)
    (fun p hp => (hsettable p hp).1) fun p hp => (hsettable p hp).2
  refine ⟨n, fun fuel hf bench s => ?_⟩
  obtain ⟨t, runs, ht, hswept⟩ := hn fuel hf 8192 bench s
  refine ⟨t, ht, fun r hr => ?_⟩
  rw [hswept.log, List.mem_append] at hr
  obtain hr | hr := hr
  · exact .inl hr
  · right
    intro hhead
    have hpt := (hswept.every r.point).1 (List.mem_map_of_mem hr)
    obtain ⟨v, _, hv, -, he⟩ := List.forall₂_cons_left_iff.1 hpt
    rw [he, List.head?_cons, Option.some_inj] at hhead
    subst hhead
    have := hv.2.2.2 (by decide)
    exact absurd this (by decide)

end Gasnet.Coll.Tuning
