import Mathlib.Data.BitVec
import Mathlib.Logic.Function.Basic
import Gasnet.Foundation.Binomial

/-! `gasneti_host_sumu64`: a sum up a binomial tree and down again. The messages of both ways, and of
one call and the next, go to one counter and one accumulator. -/
namespace Gasnet.Coll.BootstrapSum

variable {N : Nat}

/-- `gasnete_coll_log2_rank`. -/
def log2Rank (v : Nat) : Int := if v ≠ 0 then (v.log2 : Int) else -1

/-- `rank & (-rank)`. -/
def fullsize (rank : Nat) : Nat := (BitVec.ofNat 32 rank &&& -BitVec.ofNat 32 rank).toNat

def subsize (size rank : Nat) : Nat :=
  let remain := size - rank
  if fullsize rank = 0 ∨ remain < fullsize rank then remain else fullsize rank

def children (size rank : Nat) : Nat := (1 + log2Rank (subsize size rank - 1)).toNat

def parent (rank : Nat) : Nat := rank - fullsize rank

/-- `GASNETI_HIWORD`. -/
def hiword (value : BitVec 64) : BitVec 32 := value.extractLsb' 32 32

/-- `GASNETI_LOWORD`. -/
def loword (value : BitVec 64) : BitVec 32 := value.extractLsb' 0 32

/-- `GASNETI_MAKEWORD`. -/
def makeword (hi lo : BitVec 32) : BitVec 64 := hi ++ lo

/-- A message. As history it has the process that it is from or to on the side away from the root,
which of the two, and the call. -/
structure Message where
  dst : Nat
  arg0 : BitVec 32
  arg1 : BitVec 32
  child : Nat
  up : Bool
  call : Nat
deriving DecidableEq

def Message.operand (m : Message) : BitVec 64 := makeword m.arg0 m.arg1

/-- Where a process is in a call. -/
inductive PC
  | out
  /-- Waits for the children, -/
  | gather
  | addUp
  | clearUp
  /-- sends to the parent, -/
  | sendUp
  | await
  | readDown
  | clearDown
  | reset
  /-- and sends to the children that are left. -/
  | forward (idx : Nat)
deriving DecidableEq

/-- A process, with the number of calls that it has left and their results as history. -/
structure Rank where
  pc : PC
  result : BitVec 64
  rcvd : Nat
  sum : BitVec 64
  calls : Nat
  returned : List (BitVec 64)

/-- The processes, the messages under way, those whose handler has added but not yet counted, and as
history those whose handler is done. -/
structure State where
  rank : Nat → Rank
  flight : List Message
  added : List Message
  counted : List Message

namespace Rank

def toPc (x : Rank) (pc : PC) : Rank := { x with pc := pc }

def toResult (x : Rank) (result : BitVec 64) : Rank := { x with result := result }

def toSum (x : Rank) (sum : BitVec 64) : Rank := { x with sum := sum }

def toRcvd (x : Rank) (rcvd : Nat) : Rank := { x with rcvd := rcvd }

/-- What follows the children's part. -/
def afterUp (x : Rank) (rank : Nat) : Rank := x.toPc (if rank ≠ 0 then .sendUp else .reset)

def leave (x : Rank) : Rank :=
  { x with pc := .out, calls := x.calls + 1, returned := x.returned ++ [x.result] }

end Rank

def State.setRank (s : State) (r : Nat) (x : Rank) : State :=
  { s with rank := Function.update s.rank r x }

def initial : State where
  rank _ := ⟨.out, 0, 0, 0, 0, []⟩
  flight := []
  added := []
  counted := []

/-- The message with a partial sum. -/
def upMessage (r : Nat) (x : Rank) : Message :=
  ⟨parent r, hiword x.result, loword x.result, r, true, x.calls⟩

/-- The message with the sum. -/
def downMessage (r idx : Nat) (x : Rank) : Message :=
  ⟨r + 2 ^ idx, hiword x.result, loword x.result, r + 2 ^ idx, false, x.calls⟩

inductive Action
  | call (r : Nat)
  | run (r : Nat)
  | add (m : Message)
  | count (m : Message)

/-- A process takes the steps of its calls in its own time, one access to the counter or the
accumulator at a time. -/
inductive Step (size : Nat) (operand : Nat → Nat → BitVec 64) : State → Action → State → Prop
  | call {s : State} {r : Nat} (hr : r < size) (hpc : (s.rank r).pc = .out) :
      Step size operand s (.call r) (s.setRank r
        (let x := (s.rank r).toResult (operand r (s.rank r).calls)
         if children size r ≠ 0 then x.toPc .gather else x.afterUp r))
  | gather {s : State} {r : Nat} (hr : r < size) (hpc : (s.rank r).pc = .gather)
      (hready : (s.rank r).rcvd = children size r) :
      Step size operand s (.run r) (s.setRank r ((s.rank r).toPc .addUp))
  | addUp {s : State} {r : Nat} (hr : r < size) (hpc : (s.rank r).pc = .addUp) :
      Step size operand s (.run r) (s.setRank r
        (((s.rank r).toResult ((s.rank r).result + (s.rank r).sum)).toPc .clearUp))
  | clearUp {s : State} {r : Nat} (hr : r < size) (hpc : (s.rank r).pc = .clearUp) :
      Step size operand s (.run r) (s.setRank r (((s.rank r).toSum 0).afterUp r))
  | sendUp {s : State} {r : Nat} (hr : r < size) (hpc : (s.rank r).pc = .sendUp) :
      Step size operand s (.run r)
        { s.setRank r ((s.rank r).toPc .await) with
          flight := upMessage r (s.rank r) :: s.flight }
  | await {s : State} {r : Nat} (hr : r < size) (hpc : (s.rank r).pc = .await)
      (hready : (s.rank r).rcvd = children size r + 1) :
      Step size operand s (.run r) (s.setRank r ((s.rank r).toPc .readDown))
  | readDown {s : State} {r : Nat} (hr : r < size) (hpc : (s.rank r).pc = .readDown) :
      Step size operand s (.run r) (s.setRank r
        (((s.rank r).toResult (s.rank r).sum).toPc .clearDown))
  | clearDown {s : State} {r : Nat} (hr : r < size) (hpc : (s.rank r).pc = .clearDown) :
      Step size operand s (.run r) (s.setRank r (((s.rank r).toSum 0).toPc .reset))
  | reset {s : State} {r : Nat} (hr : r < size) (hpc : (s.rank r).pc = .reset) :
      Step size operand s (.run r) (s.setRank r
        (((s.rank r).toRcvd 0).toPc (.forward (children size r))))
  | forward {s : State} {r idx : Nat} (hr : r < size) (hpc : (s.rank r).pc = .forward (idx + 1)) :
      Step size operand s (.run r)
        { s.setRank r ((s.rank r).toPc (.forward idx)) with
          flight := downMessage r idx (s.rank r) :: s.flight }
  | leave {s : State} {r : Nat} (hr : r < size) (hpc : (s.rank r).pc = .forward 0) :
      Step size operand s (.run r) (s.setRank r (s.rank r).leave)
  | add {s : State} {m : Message} (hm : m ∈ s.flight) :
      Step size operand s (.add m)
        { s.setRank m.dst ((s.rank m.dst).toSum ((s.rank m.dst).sum + m.operand)) with
          flight := s.flight.erase m
          added := m :: s.added }
  | count {s : State} {m : Message} (hm : m ∈ s.added) :
      Step size operand s (.count m)
        { s.setRank m.dst ((s.rank m.dst).toRcvd ((s.rank m.dst).rcvd + 1)) with
          added := s.added.erase m
          counted := m :: s.counted }

end Gasnet.Coll.BootstrapSum

/-! Between a process and its parent there is at most one message at a time, up and down in turn. How
far the two are counts six stages a call; everything that a process has is a matter of how far it is
with its parent and with its children. -/
namespace Gasnet.Coll.BootstrapSum

open Binomial (lowbit)

variable {size r k : Nat} {operand : Nat → Nat → BitVec 64} {e : Nat → Nat} {x : Rank}

/-- The bits of a word and of its negative have just the lowest one in common. -/
theorem fullsize_eq (hr : r < 2 ^ 32) : fullsize r = lowbit r := by
  by_cases hz : r = 0
  · subst hz
    rw [Binomial.lowbit_zero]
    rfl
  · obtain ⟨k, m, hk, hm⟩ := Binomial.lowbit_spec hz
    have hneg : -BitVec.ofNat 32 r = ~~~(BitVec.ofNat 32 (r - 1)) := by
      rw [BitVec.neg_eq_not_add, ← BitVec.not_sub_one_eq_not_add_one]
      congr 1
      apply BitVec.eq_of_toNat_eq
      rw [BitVec.toNat_sub_of_le] <;> simp [BitVec.le_def] <;> omega
    have hpred : r - 1 = 2 ^ k * (2 * m) + (2 ^ k - 1) := by
      rw [Nat.mul_add, Nat.mul_one] at hm
      have := Nat.two_pow_pos k
      omega
    have hlt : k < 32 := by
      have hle := Binomial.lowbit_le r
      rw [hk] at hle
      by_contra hge
      have := Nat.pow_le_pow_right (n := 2) (by omega) (Nat.not_lt.mp hge)
      omega
    have hpos := Nat.two_pow_pos k
    rw [hk]
    apply Nat.eq_of_testBit_eq
    intro j
    rw [fullsize, hneg, BitVec.testBit_toNat, BitVec.getLsbD_and, BitVec.getLsbD_not,
      BitVec.getLsbD_ofNat, BitVec.getLsbD_ofNat, Nat.testBit_two_pow, hpred]
    have hx : r.testBit j = (2 ^ k * (2 * m + 1) + 0).testBit j := congrArg (·.testBit j) hm
    rw [hx, Nat.testBit_two_pow_mul_add _ hpos, Nat.testBit_two_pow_mul_add _ (by omega)]
    rcases Nat.lt_trichotomy j k with hjk | rfl | hjk
    · have hne : k ≠ j := by omega
      simp [hjk, hne]
    · simp [hlt]
    · have hne : k ≠ j := by omega
      obtain ⟨n, hn⟩ : ∃ n, j - k = n + 1 := ⟨j - k - 1, by omega⟩
      have hodd : (2 * m + 1) / 2 = m := by omega
      have heven : 2 * m / 2 = m := by omega
      rw [if_neg (by omega), if_neg (by omega), hn, Nat.testBit_succ, Nat.testBit_succ, hodd, heven]
      cases m.testBit n <;> simp [hne]

theorem log2Rank_succ (v : Nat) : (1 + log2Rank v).toNat = v.size := by
  unfold log2Rank
  split
  · rename_i hv
    apply le_antisymm
    · have : (1 + (v.log2 : Int)).toNat = v.log2 + 1 := by omega
      rw [this]
      exact Nat.lt_size.mpr (Nat.log2_self_le hv)
    · exact Nat.size_le.mpr (by
        have : (1 + (v.log2 : Int)).toNat = v.log2 + 1 := by omega
        rw [this]
        exact Nat.lt_log2_self)
  · rename_i hv
    obtain rfl : v = 0 := by omega
    rfl

theorem subsize_eq (hr : r < 2 ^ 32) : subsize size r = Binomial.subsize size r := by
  rw [subsize, Binomial.subsize, fullsize_eq hr]

theorem children_eq (hr : r < 2 ^ 32) : children size r = Binomial.children size r := by
  rw [children, log2Rank_succ, Binomial.children, subsize_eq hr]

/-- The parent of a child. -/
theorem parent_child (hsize : size < 2 ^ 31) (hk : k < children size r) (hr : r < size) :
    r + 2 ^ k < size ∧ parent (r + 2 ^ k) = r := by
  rw [children_eq (by omega)] at hk
  obtain ⟨hlt, hlow⟩ := Binomial.lowbit_child hk
  refine ⟨hlt, ?_⟩
  rw [parent, fullsize_eq (by omega), hlow, Nat.add_sub_cancel]

/-- Everybody but the root is a child. -/
theorem exists_child (hsize : size < 2 ^ 31) {c : Nat} (hc : c ≠ 0) (hlt : c < size) :
    ∃ k < children size (parent c), parent c + 2 ^ k = c := by
  obtain ⟨k, hk, heq⟩ := Binomial.exists_child hc hlt
  rw [parent, fullsize_eq (by omega)]
  refine ⟨k, ?_, heq.symm⟩
  rwa [children_eq (by omega)]

/-- The sum over the subtree of a process. -/
def subtotal (size : Nat) (operand : Nat → Nat → BitVec 64) (r i : Nat) : BitVec 64 :=
  ∑ q ∈ Finset.Ico r (r + Binomial.subsize size r), operand q i

def total (size : Nat) (operand : Nat → Nat → BitVec 64) (i : Nat) : BitVec 64 :=
  ∑ q ∈ Finset.range size, operand q i

theorem subtotal_zero (i : Nat) : subtotal size operand 0 i = total size operand i := by
  rw [subtotal, Binomial.subsize_zero, Nat.zero_add, total, Finset.range_eq_Ico]

theorem subtotal_eq (hsize : size < 2 ^ 31) (hr : r < size) (i : Nat) :
    subtotal size operand r i = operand r i +
      ∑ k ∈ Finset.range (children size r), subtotal size operand (r + 2 ^ k) i := by
  rw [children_eq (by omega)]
  exact Binomial.sum_subtree (fun q => operand q i) hr

namespace Rank

/-- The stages that a process can be in with its parent: the first one. -/
def ownLo (x : Rank) : Nat :=
  match x.pc with
  | .out | .gather | .addUp | .clearUp | .sendUp => 6 * x.calls
  | .await => 6 * x.calls + 1
  | .readDown | .clearDown | .reset | .forward _ => 6 * x.calls + 6

/-- The last one. -/
def ownHi (x : Rank) : Nat :=
  match x.pc with
  | .out | .gather | .addUp | .clearUp | .sendUp => 6 * x.calls
  | .await | .readDown | .clearDown | .reset | .forward _ => 6 * x.calls + 6

/-- The stages that it can be in with a child. -/
def kidLo (x : Rank) (k : Nat) : Nat :=
  match x.pc with
  | .out | .gather => 6 * x.calls - 2
  | .addUp | .clearUp | .sendUp | .await | .readDown | .clearDown | .reset => 6 * x.calls + 3
  | .forward idx => if k < idx then 6 * x.calls + 3 else 6 * x.calls + 4

def kidHi (x : Rank) (k : Nat) : Nat :=
  match x.pc with
  | .out | .gather => 6 * x.calls + 3
  | .addUp | .clearUp | .sendUp | .await | .readDown | .clearDown | .reset => 6 * x.calls + 3
  | .forward idx => if k < idx then 6 * x.calls + 3 else 6 * x.calls + 9

/-- The calls that have set the counter back. -/
def resets (x : Rank) : Nat :=
  match x.pc with
  | .forward _ => x.calls + 1
  | _ => x.calls

/-- The calls that have set the accumulator back for the way up. -/
def clearsUp (x : Rank) : Nat :=
  match x.pc with
  | .out | .gather | .addUp | .clearUp => x.calls
  | _ => x.calls + 1

/-- The calls that have set it back for the way down. -/
def clearsDown (x : Rank) : Nat :=
  match x.pc with
  | .reset | .forward _ => x.calls + 1
  | _ => x.calls

end Rank

/-- What the counter holds. -/
def rcvdOf (size : Nat) (e : Nat → Nat) (r resets : Nat) : Nat :=
  (∑ k ∈ Finset.range (children size r), if 6 * resets + 3 ≤ e (r + 2 ^ k) then 1 else 0) +
    if r ≠ 0 ∧ 6 * resets + 6 ≤ e r then 1 else 0

/-- What the accumulator holds. -/
def sumOf (size : Nat) (operand : Nat → Nat → BitVec 64) (e : Nat → Nat) (r up down : Nat) :
    BitVec 64 :=
  (∑ k ∈ Finset.range (children size r),
    if 6 * up + 2 ≤ e (r + 2 ^ k) then subtotal size operand (r + 2 ^ k) up else 0) +
    if r ≠ 0 ∧ 6 * down + 5 ≤ e r then total size operand down else 0

/-- One stage more between a process and its parent. -/
def advance (e : Nat → Nat) (c : Nat) : Nat → Nat := Function.update e c (e c + 1)

theorem advance_self (e : Nat → Nat) (c : Nat) : advance e c c = e c + 1 :=
  Function.update_self ..

theorem advance_of_ne (e : Nat → Nat) {c q : Nat} (h : q ≠ c) : advance e c q = e q :=
  Function.update_of_ne h ..

theorem child_ne (r k : Nat) : r + 2 ^ k ≠ r := by
  have := Nat.two_pow_pos k
  omega

theorem child_inj {k' : Nat} (h : r + 2 ^ k' = r + 2 ^ k) : k' = k :=
  Nat.pow_right_injective (Nat.le_refl 2) (Nat.add_left_cancel h)

/-- What a threshold lets through, after one stage more with one child. -/
theorem sum_advance {α : Type*} [AddCommMonoid α] (g : Nat → α) (bound n : Nat) (hk : k < n) :
    (∑ k' ∈ Finset.range n, if bound ≤ advance e (r + 2 ^ k) (r + 2 ^ k') then g k' else 0) =
      (∑ k' ∈ Finset.range n, if bound ≤ e (r + 2 ^ k') then g k' else 0) +
        if e (r + 2 ^ k) + 1 = bound then g k else 0 := by
  have hlast : (if e (r + 2 ^ k) + 1 = bound then g k else 0) = ∑ k' ∈ Finset.range n,
      if k' = k then if e (r + 2 ^ k) + 1 = bound then g k else 0 else 0 := by
    rw [Finset.sum_ite_eq', if_pos (Finset.mem_range.mpr hk)]
  rw [hlast, ← Finset.sum_add_distrib]
  refine Finset.sum_congr rfl fun k' _ => ?_
  by_cases he : k' = k
  · subst he
    rw [advance_self, if_pos rfl]
    by_cases hle : bound ≤ e (r + 2 ^ k')
    · rw [if_pos (by omega), if_pos hle, if_neg (by omega), add_zero]
    · rw [if_neg hle, zero_add]
      exact if_congr (by omega) rfl rfl
  · rw [advance_of_ne _ fun h => he (child_inj h), if_neg he, add_zero]

theorem rcvdOf_kid (hk : k < children size r) (resets : Nat) :
    rcvdOf size (advance e (r + 2 ^ k)) r resets =
      rcvdOf size e r resets + if e (r + 2 ^ k) + 1 = 6 * resets + 3 then 1 else 0 := by
  rw [rcvdOf, rcvdOf, sum_advance (fun _ => 1) _ _ hk, advance_of_ne _ (child_ne r k).symm,
    add_right_comm]

theorem sumOf_kid (hk : k < children size r) (up down : Nat) :
    sumOf size operand (advance e (r + 2 ^ k)) r up down = sumOf size operand e r up down +
      if e (r + 2 ^ k) + 1 = 6 * up + 2 then subtotal size operand (r + 2 ^ k) up else 0 := by
  rw [sumOf, sumOf, sum_advance (fun k' => subtotal size operand (r + 2 ^ k') up) _ _ hk,
    advance_of_ne _ (child_ne r k).symm, add_right_comm]

theorem rcvdOf_own (hr : r ≠ 0) (resets : Nat) : rcvdOf size (advance e r) r resets =
    rcvdOf size e r resets + if e r + 1 = 6 * resets + 6 then 1 else 0 := by
  simp only [rcvdOf, advance_of_ne e (child_ne r _), advance_self, hr, ne_eq, not_false_eq_true,
    true_and, Nat.add_assoc]
  congr 1
  split <;> split <;> split <;> omega

theorem sumOf_own (hr : r ≠ 0) (up down : Nat) : sumOf size operand (advance e r) r up down =
    sumOf size operand e r up down +
      if e r + 1 = 6 * down + 5 then total size operand down else 0 := by
  simp only [sumOf, advance_of_ne e (child_ne r _), advance_self, hr, ne_eq, not_false_eq_true,
    true_and, add_assoc]
  congr 1
  by_cases hle : 6 * down + 5 ≤ e r
  · rw [if_pos (by omega), if_pos hle, if_neg (by omega), add_zero]
  · rw [if_neg hle, zero_add]
    exact if_congr (by omega) rfl rfl

/-- Stages with others do not matter. -/
theorem rcvdOf_congr {e' : Nat → Nat} (hown : e' r = e r)
    (hkids : ∀ k < children size r, e' (r + 2 ^ k) = e (r + 2 ^ k)) (resets : Nat) :
    rcvdOf size e' r resets = rcvdOf size e r resets := by
  unfold rcvdOf
  rw [hown, Finset.sum_congr rfl fun k hk => by rw [hkids k (Finset.mem_range.mp hk)]]

theorem sumOf_congr {e' : Nat → Nat} (hown : e' r = e r)
    (hkids : ∀ k < children size r, e' (r + 2 ^ k) = e (r + 2 ^ k)) (up down : Nat) :
    sumOf size operand e' r up down = sumOf size operand e r up down := by
  unfold sumOf
  rw [hown, Finset.sum_congr rfl fun k hk => by rw [hkids k (Finset.mem_range.mp hk)]]

/-- The counter holds nothing yet of a call that no message has come for. -/
theorem rcvdOf_eq_zero {resets : Nat} (hown : r ≠ 0 → e r < 6 * resets + 6)
    (hkids : ∀ k < children size r, e (r + 2 ^ k) < 6 * resets + 3) :
    rcvdOf size e r resets = 0 := by
  unfold rcvdOf
  rw [Finset.sum_eq_zero fun k hk => if_neg (by have := hkids k (Finset.mem_range.mp hk); omega),
    if_neg fun h => by have := hown h.1; omega]

theorem sumOf_eq_zero {up down : Nat} (hown : r ≠ 0 → e r < 6 * down + 5)
    (hkids : ∀ k < children size r, e (r + 2 ^ k) < 6 * up + 2) :
    sumOf size operand e r up down = 0 := by
  unfold sumOf
  rw [Finset.sum_eq_zero fun k hk => if_neg (by have := hkids k (Finset.mem_range.mp hk); omega),
    if_neg fun h => by have := hown h.1; omega, add_zero]

/-- The counter says when all children have been counted. -/
theorem kids_of_rcvdOf {resets : Nat} (h : children size r ≤ rcvdOf size e r resets)
    (hown : r ≠ 0 → e r < 6 * resets + 6) :
    ∀ k < children size r, 6 * resets + 3 ≤ e (r + 2 ^ k) := by
  rw [rcvdOf, if_neg fun h => by have := hown h.1; omega, add_zero,
    ← Finset.card_filter] at h
  have hcard : ((Finset.range (children size r)).filter fun k =>
      6 * resets + 3 ≤ e (r + 2 ^ k)).card = (Finset.range (children size r)).card :=
    Nat.le_antisymm (Finset.card_filter_le _ _) (by rwa [Finset.card_range])
  exact fun k hk => Finset.card_filter_eq_iff.mp hcard k (Finset.mem_range.mpr hk)

/-- And when the parent has been. -/
theorem own_of_rcvdOf {resets : Nat} (h : children size r < rcvdOf size e r resets) :
    6 * resets + 6 ≤ e r := by
  by_contra hlt
  rw [rcvdOf, if_neg fun h => hlt h.2, add_zero, ← Finset.card_filter] at h
  have := Finset.card_filter_le (Finset.range (children size r))
    fun k => 6 * resets + 3 ≤ e (r + 2 ^ k)
  rw [Finset.card_range] at this
  omega

end Gasnet.Coll.BootstrapSum
