import Mathlib.Data.Nat.Count
import Mathlib.Data.Nat.Digits.Lemmas
import Mathlib.Data.Nat.Log
import Mathlib.Tactic.Linarith
import Mathlib.Tactic.Ring

/-! The dissemination order of `gasnete_coll_build_dissemination`. -/
namespace Gasnet.Coll.Dissem

/-- A product of two `int`s; above `INT_MAX` there is none. -/
def mulInt (a b : ℕ) : Option ℕ := if a * b < 2 ^ 31 then some (a * b) else none

def mylognLoop (num base : ℕ) : (fuel ret mult : ℕ) → Option ℕ
  | 0, _, _ => none
  | fuel + 1, ret, mult =>
    if num > mult then (mulInt mult base).bind (mylognLoop num base fuel (ret + 1))
    else some ret

/-- `gasnete_coll_build_tree_mylogn`; a power of 2 passes an `int` after 31 rounds. -/
def mylogn (num base : ℕ) : Option ℕ := mylognLoop num base 32 1 base

/-- `gasnete_coll_build_tree_mypow`. -/
def mypow (base : ℕ) : (pow : ℕ) → ℕ
  | 0 => 1
  | pow + 1 => mypow base pow * base % 2 ^ 32

/-- `h`, one more than the peers of phase `i`. -/
def height (totalRanks r w i distance : ℕ) : ℕ :=
  if i = w - 1 then
    if totalRanks % distance ≠ 0 then totalRanks / distance + 1 else totalRanks / distance
  else r

/-- The entries of `ptr_vec` after entry `i`, which is `last`; `left` is `w - i`. -/
def ptrVecLoop (totalRanks r w : ℕ) : (left i distance last : ℕ) → Option (List ℕ)
  | 0, _, _, _ => some []
  | left + 1, i, distance, last =>
    let next := last + (height totalRanks r w i distance - 1)
    (mulInt distance r).bind fun distance =>
      (ptrVecLoop totalRanks r w left (i + 1) distance next).map (next :: ·)

/-- The entries of an order from phase `i` on; `peer` makes a rank of `j*distance`. -/
def orderLoop (totalRanks r w : ℕ) (peer : ℕ → ℕ) : (left i distance : ℕ) → Option (List ℕ)
  | 0, _, _ => some []
  | left + 1, i, distance =>
    let entries := (List.range (height totalRanks r w i distance - 1)).map fun j =>
      peer ((j + 1) * distance)
    (mulInt distance r).bind fun distance =>
      (orderLoop totalRanks r w peer left (i + 1) distance).map (entries ++ ·)

def outPeer (totalRanks myrank step : ℕ) : ℕ := (myrank + step) % 2 ^ 32 % totalRanks

def inPeer (totalRanks myrank step : ℕ) : ℕ :=
  if myrank < step then (totalRanks + (myrank + 2 ^ 32 - step)) % 2 ^ 32 else myrank - step

/-- The blocks with this digit, as `gasnete_coll_pack_all_to_all_msg` packs them for one peer. -/
def packCount (totalRanks radix digit j : ℕ) : ℕ :=
  Nat.count (fun i => i / mypow radix digit % radix = j) totalRanks

/-- `gasnete_coll_dissem_info_t`. -/
structure Info where
  radix : ℕ
  phases : ℕ
  ptrVec : List ℕ
  exchangeOutOrder : List ℕ
  exchangeInOrder : List ℕ
  maxDissemBlocks : ℕ

def buildDissemination (r totalRanks myrank : ℕ) : Option Info :=
  (mylogn totalRanks r).bind fun w =>
  (ptrVecLoop totalRanks r w w 0 1 0).bind fun ptrs =>
  (orderLoop totalRanks r w (outPeer totalRanks myrank) w 0 1).bind fun outOrder =>
  (orderLoop totalRanks r w (inPeer totalRanks myrank) w 0 1).map fun inOrder =>
    { radix := r
      phases := if 1 < totalRanks then w else 0
      ptrVec := 0 :: ptrs
      exchangeOutOrder := outOrder
      exchangeInOrder := inOrder
      maxDissemBlocks := (List.range w).foldl (fun most i => max most (packCount totalRanks r i 1))
        (max 1 (totalRanks / r)) }

namespace Info

/-- `GASNETE_COLL_DISSEM_GET_PEER_COUNT_PHASE`. -/
def peerCount (d : Info) (phase : ℕ) : ℕ := d.ptrVec.getD (phase + 1) 0 - d.ptrVec.getD phase 0

/-- `GASNETE_COLL_DISSEM_GET_FRONT_PEERS_PHASE`. -/
def frontPeers (d : Info) (phase : ℕ) : List ℕ :=
  (d.exchangeOutOrder.drop (d.ptrVec.getD phase 0)).take (d.peerCount phase)

/-- `GASNETE_COLL_DISSEM_GET_BEHIND_PEERS_PHASE`. -/
def behindPeers (d : Info) (phase : ℕ) : List ℕ :=
  (d.exchangeInOrder.drop (d.ptrVec.getD phase 0)).take (d.peerCount phase)

/-- In each phase a block stays or goes to one of the out-peers. -/
def Takes (d : Info) (js : List ℕ) : Prop :=
  js.length = d.phases ∧ ∀ i, js.getD i 0 ≤ d.peerCount i

end Info

/-- Where the block of rank `a` gets from phase `i` on; 0 means that it stays. -/
def follow (info : ℕ → Info) : (i a : ℕ) → List ℕ → Option ℕ
  | _, a, [] => some a
  | i, a, 0 :: js => follow info (i + 1) a js
  | i, a, (j + 1) :: js => (((info a).frontPeers i)[j]?).bind fun b => follow info (i + 1) b js

/-- The orders of all ranks fit together, bring every block everywhere in one way, and say how
large the messages get. -/
structure Covers (r totalRanks : ℕ) (info : ℕ → Info) : Prop where
  phases : ∀ a < totalRanks, (info a).phases = Nat.clog r totalRanks
  inverse : ∀ a < totalRanks, ∀ b < totalRanks, ∀ i < Nat.clog r totalRanks, ∀ j : ℕ,
    ((info a).frontPeers i)[j]? = some b ↔ ((info b).behindPeers i)[j]? = some a
  reaches : ∀ a < totalRanks, ∀ b < totalRanks, a ≠ b →
    ∃ js, (info a).Takes js ∧ Nat.ofDigits r js = (b + totalRanks - a) % totalRanks ∧
      follow info 0 a js = some b ∧
      ∀ js', (info a).Takes js' → Nat.ofDigits r js' = (b + totalRanks - a) % totalRanks → js' = js
  blocks : ∀ a < totalRanks, ∀ i < Nat.clog r totalRanks, ∀ j < (info a).peerCount i,
    packCount totalRanks r i (j + 1) ≤ (info a).maxDissemBlocks

end Gasnet.Coll.Dissem

/-! The order covers every pair of ranks as long as the powers of the radix are `int`s. -/
namespace Gasnet.Coll.Dissem

variable {r N w a b i j k s t fuel ret left last : ℕ} {peer : ℕ → ℕ} {l : List ℕ}

/-- The phases that are built; a single rank has one without peers. -/
def rounds (r N : ℕ) : ℕ := max 1 (Nat.clog r N)

theorem mulInt_of_lt (h : a * b < 2 ^ 31) : mulInt a b = some (a * b) := if_pos h

theorem le_pow_rounds (hr : 2 ≤ r) (N : ℕ) : N ≤ r ^ rounds r N :=
  (Nat.le_pow_clog (by omega) N).trans (Nat.pow_le_pow_right (by omega) (Nat.le_max_right ..))

theorem pow_lt_of_lt_rounds (hr : 2 ≤ r) (hk : 1 ≤ k) (h : k < rounds r N) : r ^ k < N := by
  unfold rounds at h
  rw [← Nat.lt_clog_iff_pow_lt (by omega)]
  omega

theorem rounds_lt (hr : 2 ≤ r) (h : r ^ rounds r N < 2 ^ 31) : rounds r N < 31 := by
  have hpow : 2 ^ rounds r N ≤ r ^ rounds r N := Nat.pow_le_pow_left hr _
  exact (Nat.pow_lt_pow_iff_right (by decide)).1 (hpow.trans_lt h)

theorem mylognLoop_eq (hr : 2 ≤ r) (hsmall : r ^ rounds r N < 2 ^ 31) (hret : 1 ≤ ret)
    (hle : ret ≤ rounds r N) (hfuel : rounds r N - ret < fuel) :
    mylognLoop N r fuel ret (r ^ ret) = some (rounds r N) := by
  induction fuel generalizing ret with
  | zero => omega
  | succ fuel ih =>
    rw [mylognLoop]
    rcases Nat.lt_or_ge ret (rounds r N) with hlt | hge
    · have hnext : r ^ ret * r < 2 ^ 31 := by
        rw [← pow_succ]
        exact (Nat.pow_le_pow_right (by omega) hlt).trans_lt hsmall
      rw [if_pos (pow_lt_of_lt_rounds hr hret hlt), mulInt_of_lt hnext, Option.bind_some,
        ← pow_succ]
      exact ih (by omega) hlt (by omega)
    · obtain rfl : ret = rounds r N := Nat.le_antisymm hle hge
      rw [if_neg (Nat.not_lt.2 (le_pow_rounds hr N))]

theorem mylogn_eq (hr : 2 ≤ r) (hsmall : r ^ rounds r N < 2 ^ 31) :
    mylogn N r = some (rounds r N) := by
  have hlt := rounds_lt hr hsmall
  have h := @mylognLoop_eq r N 32 1 hr hsmall (Nat.le_refl 1) (Nat.le_max_left ..) (by omega)
  rwa [pow_one] at h

/-- A logarithm is only returned if its power is an `int`. -/
theorem mylognLoop_some (hret : r ^ ret < 2 ^ 31)
    (h : mylognLoop N r fuel ret (r ^ ret) = some w) : N ≤ r ^ w ∧ r ^ w < 2 ^ 31 := by
  induction fuel generalizing ret with
  | zero => cases h
  | succ fuel ih =>
    rw [mylognLoop] at h
    split at h
    · rw [mulInt] at h
      split at h
      · rename_i hlt
        rw [Option.bind_some, ← pow_succ] at h
        rw [← pow_succ] at hlt
        exact ih hlt h
      · cases h
    · rename_i hle
      cases h
      exact ⟨Nat.le_of_not_lt hle, hret⟩

/-- The peers of a phase, and the entries before it. -/
def degree (r N i : ℕ) : ℕ := height N r (rounds r N) i (r ^ i) - 1

def start (r N i : ℕ) : ℕ := ((List.range i).map (degree r N)).sum

theorem start_succ : start r N (i + 1) = start r N i + degree r N i := by
  rw [start, List.range_succ, List.map_append, List.sum_append]
  simp [start]

/-- The entries of one phase. -/
def entries (r N : ℕ) (peer : ℕ → ℕ) (i : ℕ) : List ℕ :=
  (List.range (degree r N i)).map fun j => peer ((j + 1) * r ^ i)

theorem length_entries : (entries r N peer i).length = degree r N i := by simp [entries]

theorem ptrVecLoop_eq (hr : 2 ≤ r) (hsmall : r ^ rounds r N < 2 ^ 31)
    (hleft : i + left = rounds r N) :
    ptrVecLoop N r (rounds r N) left i (r ^ i) (start r N i) =
      some ((List.range' (i + 1) left).map (start r N)) := by
  induction left generalizing i with
  | zero => rfl
  | succ left ih =>
    have hnext : r ^ i * r < 2 ^ 31 := by
      rw [← pow_succ]
      exact (Nat.pow_le_pow_right (by omega) (by omega)).trans_lt hsmall
    rw [ptrVecLoop]
    simp only [mulInt_of_lt hnext, Option.bind_some, ← pow_succ]
    have hlast : start r N i + (height N r (rounds r N) i (r ^ i) - 1) = start r N (i + 1) :=
      start_succ.symm
    rw [hlast, ih (by omega), Option.map_some, List.range'_succ, List.map_cons]

theorem orderLoop_eq (hr : 2 ≤ r) (hsmall : r ^ rounds r N < 2 ^ 31)
    (hleft : i + left = rounds r N) :
    orderLoop N r (rounds r N) peer left i (r ^ i) =
      some ((List.range' i left).flatMap (entries r N peer)) := by
  induction left generalizing i with
  | zero => rfl
  | succ left ih =>
    have hnext : r ^ i * r < 2 ^ 31 := by
      rw [← pow_succ]
      exact (Nat.pow_le_pow_right (by omega) (by omega)).trans_lt hsmall
    rw [orderLoop]
    simp only [mulInt_of_lt hnext, Option.bind_some, ← pow_succ]
    rw [ih (by omega), Option.map_some, List.range'_succ, List.flatMap_cons]
    rfl

/-- What is built. -/
def order (r N a : ℕ) : Info where
  radix := r
  phases := if 1 < N then rounds r N else 0
  ptrVec := (List.range (rounds r N + 1)).map (start r N)
  exchangeOutOrder := (List.range (rounds r N)).flatMap (entries r N (outPeer N a))
  exchangeInOrder := (List.range (rounds r N)).flatMap (entries r N (inPeer N a))
  maxDissemBlocks := (List.range (rounds r N)).foldl (fun most i => max most (packCount N r i 1))
    (max 1 (N / r))

theorem buildDissemination_eq (hr : 2 ≤ r) (hsmall : r ^ rounds r N < 2 ^ 31) (a : ℕ) :
    buildDissemination r N a = some (order r N a) := by
  have hptr := @ptrVecLoop_eq r N 0 (rounds r N) hr hsmall (Nat.zero_add _)
  have hout := @orderLoop_eq r N 0 (rounds r N) (outPeer N a) hr hsmall (Nat.zero_add _)
  have hin := @orderLoop_eq r N 0 (rounds r N) (inPeer N a) hr hsmall (Nat.zero_add _)
  rw [pow_zero] at hptr hout hin
  have hzero : start r N 0 = 0 := rfl
  rw [hzero] at hptr
  rw [buildDissemination, mylogn_eq hr hsmall, Option.bind_some, hptr, Option.bind_some, hout,
    Option.bind_some, hin, Option.map_some, order, List.range_eq_range', List.range_eq_range',
    List.range'_succ, List.map_cons, hzero]

theorem ptrVec_getD (hi : i ≤ rounds r N) : (order r N a).ptrVec.getD i 0 = start r N i := by
  rw [order, List.getD_eq_getElem?_getD, List.getElem?_map, List.getElem?_range (by omega)]
  rfl

theorem peerCount_eq (hi : i < rounds r N) : (order r N a).peerCount i = degree r N i := by
  rw [Info.peerCount, ptrVec_getD hi, ptrVec_getD hi.le, start_succ, Nat.add_sub_cancel_left]

/-- A phase's entries lie together. -/
theorem slice (hi : i < w) (f : ℕ → List ℕ) (hf : ∀ i, (f i).length = degree r N i) :
    (((List.range w).flatMap f).drop (start r N i)).take (degree r N i) = f i := by
  have hlen : ((List.range i).flatMap f).length = start r N i := by
    rw [List.length_flatMap, start]
    congr 1
    exact List.map_congr_left fun k _ => hf k
  have hsplit : List.range w = List.range i ++ i :: List.range' (i + 1) (w - i - 1) := by
    have happend := @List.range'_append_1 0 i (w - i - 1 + 1)
    rw [Nat.zero_add, List.range'_succ] at happend
    rw [List.range_eq_range', List.range_eq_range', happend]
    congr 1
    omega
  rw [hsplit, List.flatMap_append, List.flatMap_cons, List.drop_left' hlen,
    List.take_left' (hf i)]

theorem frontPeers_eq (hi : i < rounds r N) :
    (order r N a).frontPeers i = entries r N (outPeer N a) i := by
  rw [Info.frontPeers, ptrVec_getD hi.le, peerCount_eq hi]
  exact slice hi _ fun _ => length_entries

theorem behindPeers_eq (hi : i < rounds r N) :
    (order r N a).behindPeers i = entries r N (inPeer N a) i := by
  rw [Info.behindPeers, ptrVec_getD hi.le, peerCount_eq hi]
  exact slice hi _ fun _ => length_entries

theorem entries_getElem? : (entries r N peer i)[j]? = some b ↔
    j < degree r N i ∧ peer ((j + 1) * r ^ i) = b := by
  rw [entries, List.getElem?_map]
  rcases Nat.lt_or_ge j (degree r N i) with hj | hj
  · rw [List.getElem?_range hj, Option.map_some, Option.some_inj]
    exact ⟨fun h => ⟨hj, h⟩, fun h => h.2⟩
  · rw [List.getElem?_eq_none (by simpa using hj), Option.map_none]
    exact ⟨nofun, fun h => absurd h.1 (by omega)⟩

section Degrees

/-- The last phase has just enough peers. -/
theorem degree_last (hN : 0 < N) (hi : i = rounds r N - 1) (hd : 0 < r ^ i) :
    degree r N i * r ^ i < N ∧ N ≤ (degree r N i + 1) * r ^ i := by
  have hdiv := Nat.div_add_mod N (r ^ i)
  have hmod := Nat.mod_lt N hd
  rw [Nat.mul_comm] at hdiv
  unfold degree height
  rw [if_pos hi]
  by_cases hm : N % r ^ i = 0
  · rw [if_neg (not_not.2 hm)]
    have hpos : 0 < N / r ^ i := by
      rw [Nat.pos_iff_ne_zero]
      intro h0
      rw [h0, hm] at hdiv
      omega
    obtain ⟨q, hq⟩ := Nat.exists_eq_add_of_lt hpos
    rw [Nat.zero_add] at hq
    rw [hq, Nat.add_mul, Nat.one_mul] at hdiv
    rw [hq, Nat.add_sub_cancel, Nat.add_mul, Nat.one_mul]
    omega
  · have hpos := Nat.pos_of_ne_zero hm
    rw [if_pos hm, Nat.add_sub_cancel, Nat.add_mul, Nat.one_mul]
    constructor <;> linarith

theorem degree_inner (hi : i ≠ rounds r N - 1) : degree r N i = r - 1 := by
  rw [degree, height, if_neg hi]

/-- No step goes a whole round. -/
theorem step_lt (hr : 2 ≤ r) (hN : 0 < N) (hi : i < rounds r N) (hj : j < degree r N i) :
    (j + 1) * r ^ i < N := by
  have hd : 0 < r ^ i := Nat.pow_pos (by omega)
  have hle : (j + 1) * r ^ i ≤ degree r N i * r ^ i := Nat.mul_le_mul_right _ hj
  by_cases hlast : i = rounds r N - 1
  · exact hle.trans_lt (degree_last hN hlast hd).1
  · rw [degree_inner hlast] at hle
    calc (j + 1) * r ^ i ≤ (r - 1) * r ^ i := hle
      _ ≤ r * r ^ i := Nat.mul_le_mul_right _ (Nat.sub_le ..)
      _ = r ^ (i + 1) := by rw [pow_succ, Nat.mul_comm]
      _ < N := pow_lt_of_lt_rounds hr (by omega) (by omega)

theorem degree_lt (hr : 2 ≤ r) (hN : 0 < N) (hi : i < rounds r N) : degree r N i < r := by
  by_cases hlast : i = rounds r N - 1
  · have hd : 0 < r ^ i := Nat.pow_pos (by omega)
    have hpow : r ^ rounds r N = r * r ^ i := by
      rw [show rounds r N = i + 1 by omega, pow_succ, Nat.mul_comm]
    have hlt := (degree_last hN hlast hd).1.trans_le (le_pow_rounds hr N)
    rw [hpow] at hlt
    exact Nat.lt_of_mul_lt_mul_right hlt
  · rw [degree_inner hlast]
    omega

end Degrees

/-- Peers in both directions are computed modulo the size of the team. -/
theorem outPeer_inPeer (hN : N < 2 ^ 31) (ha : a < N) (hb : b < N) (hs : s < N) :
    outPeer N a s = b ↔ inPeer N b s = a := by
  unfold outPeer inPeer
  rw [Nat.mod_eq_of_lt (by omega : a + s < 2 ^ 32)]
  rcases Nat.lt_or_ge (a + s) N with hlt | hge
  · rw [Nat.mod_eq_of_lt hlt]
    split <;> omega
  · rw [Nat.mod_eq_sub_mod hge, Nat.mod_eq_of_lt (by omega)]
    split <;> omega

/-- A block that follows the digits of a distance goes that far. -/
theorem follow_eq (hr : 2 ≤ r) (hN : N < 2 ^ 31) {js : List ℕ} (ha : a < N)
    (hlen : i + js.length ≤ rounds r N) (hjs : ∀ m, js.getD m 0 ≤ degree r N (i + m)) :
    follow (order r N) i a js = some ((a + r ^ i * Nat.ofDigits r js) % N) := by
  induction js generalizing i a with
  | nil => rw [follow, Nat.ofDigits_nil, Nat.mul_zero, Nat.add_zero, Nat.mod_eq_of_lt ha]
  | cons j js ih =>
    rw [List.length_cons] at hlen
    have hrest : ∀ m, js.getD m 0 ≤ degree r N (i + 1 + m) := by
      intro m
      have h := hjs (m + 1)
      rw [List.getD_cons_succ] at h
      rwa [Nat.add_assoc, Nat.add_comm 1 m]
    have hvalue : r ^ i * Nat.ofDigits r (j :: js) =
        j * r ^ i + r ^ (i + 1) * Nat.ofDigits r js := by
      rw [Nat.ofDigits_cons, pow_succ]
      ring
    rw [hvalue]
    cases j with
    | zero =>
      rw [follow, ih ha (by omega) hrest, Nat.zero_mul, Nat.zero_add]
    | succ j =>
      have hj : j < degree r N i := hjs 0
      have hstep := step_lt hr (by omega) (by omega) hj
      have hpeer : ((order r N a).frontPeers i)[j]? = some ((a + (j + 1) * r ^ i) % N) := by
        rw [frontPeers_eq (by omega), entries_getElem?]
        refine ⟨hj, ?_⟩
        rw [outPeer, Nat.mod_eq_of_lt (by omega : a + (j + 1) * r ^ i < 2 ^ 32)]
      rw [follow, hpeer, Option.bind_some, ih (Nat.mod_lt _ (by omega)) (by omega) hrest,
        Nat.mod_add_mod, Nat.add_assoc]

/-- A digit with its weight is no more than the number. -/
theorem digit_le (js : List ℕ) (i : ℕ) : js.getD i 0 * r ^ i ≤ Nat.ofDigits r js := by
  induction js generalizing i with
  | nil => simp
  | cons j js ih =>
    rw [Nat.ofDigits_cons]
    cases i with
    | zero => simp
    | succ i =>
      have h := Nat.mul_le_mul_left r (ih i)
      rw [List.getD_cons_succ, pow_succ, ← Nat.mul_assoc, Nat.mul_comm _ r]
      exact h.trans (Nat.le_add_left ..)

/-- The digits of a distance are peers. -/
theorem digits_le_degree (hr : 2 ≤ r) {js : List ℕ} (hlen : js.length = rounds r N)
    (hjs : ∀ j ∈ js, j < r) (hvalue : Nat.ofDigits r js < N) (hi : i < rounds r N) :
    js.getD i 0 ≤ degree r N i := by
  by_cases hlast : i = rounds r N - 1
  · by_contra hgt
    have hd : 0 < r ^ i := Nat.pow_pos (by omega)
    have hle := (degree_last (by omega) hlast hd).2
    have hdigit := @digit_le r js i
    have hmul : (degree r N i + 1) * r ^ i ≤ js.getD i 0 * r ^ i :=
      Nat.mul_le_mul_right _ (by omega)
    omega
  · have hin : i < js.length := by omega
    have hlt := hjs _ (List.getElem_mem hin)
    rw [degree_inner hlast, List.getD_eq_getElem?_getD, List.getElem?_eq_getElem hin,
      Option.getD_some]
    omega

theorem mypow_eq (hr : 2 ≤ r) (h : r ^ k < 2 ^ 32) : mypow r k = r ^ k := by
  induction k with
  | zero => rfl
  | succ k ih =>
    have hlt : r ^ k < 2 ^ 32 := (Nat.pow_le_pow_right (by omega) (Nat.le_succ k)).trans_lt h
    rw [mypow, ih hlt, ← pow_succ, Nat.mod_eq_of_lt h]

/-- Of the non-zero digits 1 is the most frequent one. -/
theorem packCount_le (hj : j + 1 < r) (h : mypow r k = t) :
    packCount N r k (j + 1) ≤ packCount N r k 1 := by
  rw [packCount, packCount, h, Nat.count_eq_card_filter_range, Nat.count_eq_card_filter_range]
  have hback : ∀ x, x / t % r = j + 1 → j * t ≤ x ∧ (x - j * t) / t % r = 1 := by
    intro x hx
    have hq := Nat.div_add_mod (x / t) r
    rw [hx] at hq
    have hle : j * t ≤ x := by
      calc j * t ≤ x / t * t := Nat.mul_le_mul_right _ (by omega)
        _ ≤ x := Nat.div_mul_le_self ..
    refine ⟨hle, ?_⟩
    rw [Nat.mul_comm j t, Nat.sub_mul_div, ← hq]
    have hsub : r * (x / t / r) + (j + 1) - j = 1 + r * (x / t / r) := by omega
    rw [hsub, Nat.add_mul_mod_self_left, Nat.mod_eq_of_lt (by omega)]
  refine Finset.card_le_card_of_injOn (fun x => x - j * t) (fun x hx => ?_) fun x hx y hy he => ?_
  · simp only [Finset.coe_filter, Finset.mem_range, Set.mem_ofPred_eq] at hx ⊢
    exact ⟨by omega, (hback x hx.2).2⟩
  · simp only [Finset.coe_filter, Finset.mem_range, Set.mem_ofPred_eq] at hx hy
    have hx' := (hback x hx.2).1
    have hy' := (hback y hy.2).1
    simp only at he
    omega

theorem le_foldl_max (f : ℕ → ℕ) (hi : i ∈ l) (m : ℕ) :
    f i ≤ l.foldl (fun most i => max most (f i)) m := by
  have hmono : ∀ (l : List ℕ) m, m ≤ l.foldl (fun most i => max most (f i)) m := by
    intro l
    induction l with
    | nil => exact Nat.le_refl
    | cons k l ih => exact fun m => (Nat.le_max_left ..).trans (ih _)
  induction l generalizing m with
  | nil => cases hi
  | cons k l ih =>
    rw [List.foldl_cons]
    rcases List.mem_cons.1 hi with rfl | hi
    · exact (Nat.le_max_right ..).trans (hmono l _)
    · exact ih hi _

/-- With the powers in range the order covers every pair. -/
theorem covers (hr : 2 ≤ r) (hN : 0 < N) (hsmall : r ^ rounds r N < 2 ^ 31) :
    Covers r N (order r N) := by
  have hlt : N < 2 ^ 31 := (le_pow_rounds hr N).trans_lt hsmall
  have hphases : ∀ a, (order r N a).phases = Nat.clog r N := by
    intro a
    show (if 1 < N then rounds r N else 0) = _
    split
    · rename_i h1
      have hpos := Nat.clog_pos (by omega : 1 < r) h1
      unfold rounds
      omega
    · obtain rfl : N = 1 := by omega
      rw [Nat.clog_one_right]
  have hin : ∀ i < Nat.clog r N, i < rounds r N := fun i hi => hi.trans_le (Nat.le_max_right ..)
  refine ⟨fun a _ => hphases a, ?_, ?_, ?_⟩
  · intro a ha b hb i hi j
    rw [frontPeers_eq (hin i hi), behindPeers_eq (hin i hi), entries_getElem?, entries_getElem?]
    exact and_congr_right fun hj => outPeer_inPeer hlt ha hb (step_lt hr hN (hin i hi) hj)
  · intro a ha b hb hne
    have h1 : 1 < N := by omega
    have hrounds : Nat.clog r N = rounds r N := by
      have hpos := Nat.clog_pos (by omega : 1 < r) h1
      unfold rounds
      omega
    have hval : (b + N - a) % N < r ^ rounds r N :=
      (Nat.mod_lt _ hN).trans_le (le_pow_rounds hr N)
    -- a way round has no digit beyond the peers of its phase
    have htakes : ∀ js, (order r N a).Takes js →
        js.length = rounds r N ∧ ∀ j ∈ js, j < r := by
      rintro js ⟨hlen, hjs⟩
      rw [hphases, hrounds] at hlen
      refine ⟨hlen, fun j hj => ?_⟩
      obtain ⟨i, hi, rfl⟩ := List.mem_iff_getElem.1 hj
      have hle := hjs i
      rw [peerCount_eq (by omega), List.getD_eq_getElem?_getD, List.getElem?_eq_getElem hi,
        Option.getD_some] at hle
      exact hle.trans_lt (degree_lt hr hN (by omega))
    have hlen := Nat.length_digitsAppend (by omega : 1 < r) (rounds r N) hval
    have hdig : ∀ j ∈ Nat.digitsAppend r (rounds r N) ((b + N - a) % N), j < r :=
      fun j hj => Nat.lt_of_mem_digitsAppend (by omega) _ _ hj
    have hof : Nat.ofDigits r (Nat.digitsAppend r (rounds r N) ((b + N - a) % N)) =
        (b + N - a) % N := by
      rw [Nat.digitsAppend, Nat.ofDigits_append_replicate_zero, Nat.ofDigits_digits]
    have hle : ∀ i, (Nat.digitsAppend r (rounds r N) ((b + N - a) % N)).getD i 0 ≤
        degree r N i := by
      intro i
      rcases Nat.lt_or_ge i (rounds r N) with hi | hi
      · refine digits_le_degree hr hlen hdig ?_ hi
        rw [hof]
        exact Nat.mod_lt _ hN
      · rw [List.getD_eq_getElem?_getD, List.getElem?_eq_none (by omega)]
        exact Nat.zero_le _
    refine ⟨Nat.digitsAppend r (rounds r N) ((b + N - a) % N), ⟨?_, fun i => ?_⟩, hof, ?_, ?_⟩
    · rw [hlen, hphases, hrounds]
    · rcases Nat.lt_or_ge i (rounds r N) with hi | hi
      · rw [peerCount_eq hi]
        exact hle i
      · rw [List.getD_eq_getElem?_getD, List.getElem?_eq_none (by omega)]
        exact Nat.zero_le _
    · rw [follow_eq hr hlt ha (by omega) fun m => by rw [Nat.zero_add]; exact hle m, hof, pow_zero,
        Nat.one_mul, Nat.add_mod_mod]
      have hsum : a + (b + N - a) = b + N := by omega
      rw [hsum, Nat.add_mod_right, Nat.mod_eq_of_lt hb]
    · intro js htk hjs
      obtain ⟨hlen', hdig'⟩ := htakes js htk
      exact Nat.ofDigits_inj_of_len_eq (by omega) (hlen'.trans hlen.symm) hdig' hdig
        (hjs.trans hof.symm)
  · intro a _ i hi j hj
    rw [peerCount_eq (hin i hi)] at hj
    have hlow : r ^ i < 2 ^ 32 :=
      (Nat.pow_le_pow_right (by omega) (hin i hi).le).trans_lt (hsmall.trans (by decide))
    have hdeg := degree_lt hr hN (hin i hi)
    refine (packCount_le (by omega) (mypow_eq hr hlow)).trans ?_
    exact le_foldl_max (fun i => packCount N r i 1) (List.mem_range.2 (hin i hi)) _

end Gasnet.Coll.Dissem
