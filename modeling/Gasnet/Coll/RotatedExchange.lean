import Gasnet.Foundation.ExchangeRuns
import Gasnet.Foundation.ExchangeRotation

/-! `gasneti_blockingRotatedExchangeV`: an exchange of the lengths, partial sums over them, and an
exchange of the data. -/
namespace Gasnet.Coll

open Exchange Rotation

variable {N : Nat}

/-- The arguments of `gasnete_rexchgv_reqh` after the team, each a `gex_AM_Arg_t`. -/
structure RexchgvArgs where
  arg1 : BitVec 32
  totalLen : BitVec 32
  offset : BitVec 32
  deriving DecidableEq

/-- `gasnete_rexchgv_reqh`. The arguments are signed, and of these only the offset is made
unsigned again. -/
def rexchgvReqh (a : RexchgvArgs) : Landing where
  phase := a.arg1 &&& 1#32 == 1#32
  step := (a.arg1.sshiftRight 1).toNat
  size := (a.totalLen.signExtend 64).toNat
  offset := a.offset.toNat

/-- `gasnete_rexchgv_zero_recvd`. -/
def zeroRecvd : Nat := 42

/-- What `rcvd` is advanced by. -/
def increment (nbytes : Nat) : Nat := if nbytes = 0 then zeroRecvd else nbytes

/-- `malloc` gives no object larger than `PTRDIFF_MAX`, and without memory the process ends. -/
def mallocs (size : Nat) : Bool := decide (size < 2 ^ 63)

/-- The bytes of a `size_t`. -/
def sizeBytes (x : Nat) : List UInt8 := (List.range 8).map fun j => UInt8.ofNat (x / 256 ^ j)

/-- `len_array[i]`. -/
def readSize (data : List UInt8) (i : Nat) : Nat :=
  ((List.range 8).map fun j => (data.getD (8 * i + j) 0).toNat * 256 ^ j).sum

/-- The sums of step 2 with the indices from both ends. -/
structure Sums where
  total : Nat
  lSum : Nat
  rSum : Nat
  fwdIdx : Nat
  bwdIdx : Nat

namespace Sums

def init (N : Nat) : Sums := ⟨0, 0, 0, 0, N - 1⟩

/-- The body of the inner loop; sums are of type `size_t`. -/
def add (len : Nat → Nat) (s : Sums) : Sums where
  total := (s.total + len s.fwdIdx) % 2 ^ 64
  rSum := (s.rSum + len s.bwdIdx) % 2 ^ 64
  lSum := (s.lSum + len s.fwdIdx) % 2 ^ 64
  fwdIdx := s.fwdIdx + 1
  bwdIdx := s.bwdIdx - 1

/-- `for (int j = 0; j < step_sz && bwd_idx; ++j)`. -/
def inner (len : Nat → Nat) : Nat → Sums → Sums
  | 0, s => s
  | j + 1, s => if s.bwdIdx = 0 then s else inner len j (s.add len)

/-- After `i` rounds of the outer loop, of `1, 1, 2, 4, 8, ...` ranks each. -/
def after (len : Nat → Nat) (N : Nat) : Nat → Sums
  | 0 => init N
  | i + 1 => inner len (2 ^ (i - 1)) (after len N i)

/-- `while (fwd_idx < team_sz)`. -/
def rest (len : Nat → Nat) : Nat → Sums → Nat
  | 0, s => s.total
  | n + 1, s =>
    rest len n { s with total := (s.total + len s.fwdIdx) % 2 ^ 64, fwdIdx := s.fwdIdx + 1 }

end Sums

/-- `total_len`. -/
def totalLen (len : Nat → Nat) (N steps : Nat) : Nat :=
  Sums.rest len (N - (Sums.after len N steps).fwdIdx) (Sums.after len N steps)

/-- `l_sums[i]`. -/
def lSums (len : Nat → Nat) (N steps i : Nat) : Nat :=
  if i = steps then totalLen len N steps else (Sums.after len N (i + 1)).lSum

/-- `r_sums[i]`. -/
def rSums (len : Nat → Nat) (N i : Nat) : Nat := (Sums.after len N (i + 1)).rSum

/-- `phase | (step << 1)`. -/
def stepArg (phase : Bool) (step : Nat) : BitVec 32 :=
  (if phase then 1#32 else 0#32) ||| (BitVec.ofNat 32 step <<< 1)

/-- A stream of messages for `nbytes` from the start of the buffer to `offset`. -/
def stream (phase : Bool) (step total offset nbytes limit : Nat) : List (Fragment RexchgvArgs) :=
  (pieces limit nbytes 0).map fun x =>
    ⟨⟨stepArg phase step, BitVec.ofNat 32 total, BitVec.ofNat 32 (offset + x.1)⟩, x.1, x.2⟩

/-- A team: what fits a message from one rank to another, and the data of each call. -/
structure RexchgvTeam (N : Nat) where
  limit : Fin N → Fin N → Nat
  limit_pos : ∀ q r, 0 < limit q r
  calls : List (Fin N → List UInt8)

namespace RexchgvTeam

/-- `(self + team_sz - distance) % team_sz`. -/
def destRank (self : Fin N) (step : Nat) : Fin N :=
  ⟨(self.val + N - 2 ^ step) % N, Nat.mod_lt _ self.pos⟩

variable (t : RexchgvTeam N)

/-- Step 1: the lengths. -/
def lensPlan (self : Fin N) (phase : Bool) (len : Nat) : Plan RexchgvArgs UInt8 where
  size := N * 8
  own := sizeBytes len
  frags step :=
    let offset := 2 ^ step * 8 % 2 ^ 32
    stream phase step (N * 8) offset (min offset (N * 8 - offset) % 2 ^ 32)
      (t.limit self (destRank self step))
  expect step := min (2 ^ step * 8 % 2 ^ 32) (N * 8 - 2 ^ step * 8 % 2 ^ 32) % 2 ^ 32

/-- Step 3: the data. -/
def dataPlan (self : Fin N) (phase : Bool) (src : List UInt8) (len : Nat → Nat) :
    Plan RexchgvArgs UInt8 where
  size := totalLen len N (bits (N - 1))
  own := src
  frags step :=
    let offset := rSums len N step % 2 ^ 32
    stream phase step (totalLen len N (bits (N - 1))) offset
      (min (lSums len N (bits (N - 1)) step) (totalLen len N (bits (N - 1)) - offset) % 2 ^ 32)
      (t.limit self (destRank self step))
  expect step :=
    increment ((lSums len N (bits (N - 1)) (step + 1) - lSums len N (bits (N - 1)) step) % 2 ^ 32)

end RexchgvTeam

/-- What a call returns: the total, and `*dst_p` and `*len_p`. -/
structure RexchgvReturn where
  total : Nat
  dst : Option (List UInt8)
  len : Option (List Nat)
  deriving DecidableEq

/-- Where a rank is in its calls: before the lengths are known, or after. -/
structure RexchgvControl where
  phase : Bool
  call : Nat
  lens : Option (List Nat)
  returned : List RexchgvReturn
  fatal : Bool

namespace RexchgvTeam

variable (t : RexchgvTeam N)

/-- The exchange that a rank runs next. -/
def plan (self : Fin N) (x : RexchgvControl) : Option (Plan RexchgvArgs UInt8) :=
  if x.fatal then none
  else (t.calls[x.call]?).map fun src =>
    match x.lens with
    | none => t.lensPlan self x.phase (src self).length
    | some l => t.dataPlan self x.phase (src self) fun i => l.getD i 0

/-- What it does with the result. -/
def next (_ : Fin N) (x : RexchgvControl) (data : List UInt8) : RexchgvControl :=
  match x.lens with
  | none =>
    let l := (List.range N).map (readSize data)
    let total := totalLen (fun i => l.getD i 0) N (bits (N - 1))
    if 2 ^ 32 - 1 < total then { x with fatal := true }
    else if total = 0 then
      { x with phase := !x.phase, call := x.call + 1, returned := x.returned ++ [⟨0, none, none⟩] }
    else { x with phase := !x.phase, lens := some l }
  | some l =>
    { x with
      phase := !x.phase
      call := x.call + 1
      lens := none
      returned := x.returned ++
        [⟨totalLen (fun i => l.getD i 0) N (bits (N - 1)), some data, some l⟩] }

/-- The calls of all ranks. -/
def program : Program N RexchgvControl RexchgvArgs UInt8 where
  steps := bits (N - 1)
  start _ := ⟨false, 0, none, [], false⟩
  plan := t.plan
  next := next
  peer := destRank
  landing _ := rexchgvReqh
  alloc := mallocs
  gain := increment
  ready rcvd toRecv := decide (toRecv ≤ rcvd)

end RexchgvTeam

end Gasnet.Coll

/-! The partial sums of the rotated exchange are what is known before each step, here and at the
rank that the step sends to; and the arguments of its messages say what they are to say. -/
namespace Gasnet.Coll

open Exchange Rotation Dissemination

variable {N : Nat} {w : Fin N → Nat} {len : Nat → Nat} {r : Fin N} {i n k x : Nat} {s : Sums}

/-- The handler finds the phase and the step that were packed. -/
theorem stepArg_unpack (phase : Bool) {step : Nat} (h : step < 32) :
    (stepArg phase step &&& 1#32 == 1#32) = phase ∧
      ((stepArg phase step).sshiftRight 1).toNat = step := by
  have hall : ∀ step < 32, ∀ phase, (stepArg phase step &&& 1#32 == 1#32) = phase ∧
      ((stepArg phase step).sshiftRight 1).toNat = step := by decide
  exact hall step h phase

theorem bits_le {m : Nat} (h : n < 2 ^ m) : bits n ≤ m := by
  by_contra hlt
  have := two_pow_le_of_lt_bits (Nat.not_le.mp hlt)
  omega

theorem length_sizeBytes (x : Nat) : (sizeBytes x).length = 8 := by simp [sizeBytes]

/-- The digits of a number below `256 ^ n`. -/
theorem sum_digits (x n : Nat) :
    ((List.range n).map fun j => x / 256 ^ j % 256 * 256 ^ j).sum = x % 256 ^ n := by
  induction n with
  | zero => simp [Nat.mod_one]
  | succ n ih =>
    rw [List.range_succ, List.map_append, List.sum_append, ih, Nat.pow_succ, Nat.mod_mul]
    simp [Nat.mul_comm]

theorem getD_flatMap_sizeBytes (l : List Nat) {j : Nat} (hi : i < l.length) (hj : j < 8) :
    (l.flatMap sizeBytes).getD (8 * i + j) 0 = UInt8.ofNat (l[i] / 256 ^ j) := by
  induction l generalizing i with
  | nil => exact absurd hi (Nat.not_lt_zero i)
  | cons x l ih =>
    rw [List.flatMap_cons, List.getD_eq_getElem?_getD]
    cases i with
    | zero =>
      rw [List.getElem?_append_left (by rw [length_sizeBytes]; omega)]
      simp [sizeBytes, hj]
    | succ i =>
      rw [List.getElem?_append_right (by rw [length_sizeBytes]; omega), length_sizeBytes,
        show 8 * (i + 1) + j - 8 = 8 * i + j by omega, ← List.getD_eq_getElem?_getD]
      exact ih (by simpa using hi)

/-- The lengths are read as they were sent. -/
theorem readSize_sizes (l : List Nat) (hi : i < l.length) (h : l[i] < 2 ^ 64) :
    readSize (l.flatMap sizeBytes) i = l[i] := by
  have hdigits : ∀ j ∈ List.range 8,
      ((l.flatMap sizeBytes).getD (8 * i + j) 0).toNat * 256 ^ j = l[i] / 256 ^ j % 256 * 256 ^ j := by
    intro j hj
    rw [getD_flatMap_sizeBytes l hi (List.mem_range.mp hj), UInt8.toNat_ofNat']
  rw [readSize, List.map_congr_left hdigits, sum_digits]
  exact Nat.mod_eq_of_lt h

namespace Sums

theorem inner_eq (hlen : ∀ j < N, len j = w (ahead r j)) (hw : ∑ q, w q < 2 ^ 64) {c : Nat}
    (hc : c + n ≤ N - 1)
    (hs : s = ⟨Rotation.extent w r c, Rotation.extent w r c,
      Rotation.extent w (ahead r (N - c)) c, c, N - 1 - c⟩) :
    inner len n s = ⟨Rotation.extent w r (c + n), Rotation.extent w r (c + n),
      Rotation.extent w (ahead r (N - (c + n))) (c + n), c + n, N - 1 - (c + n)⟩ := by
  have hall : ∀ q m, m ≤ N → Rotation.extent w q m < 2 ^ 64 := fun q m hm =>
    lt_of_le_of_lt ((extent_mono hm).trans (extent_all w q).le) hw
  induction n generalizing c s with
  | zero => exact hs
  | succ n ih =>
    have hpos := r.pos
    have hback : Rotation.extent w (ahead r (N - (c + 1))) (c + 1) =
        Rotation.extent w (ahead r (N - c)) c + w (ahead r (N - 1 - c)) := by
      have hnext : ahead (ahead r (N - (c + 1))) 1 = ahead r (N - c) := by
        rw [ahead_ahead]
        congr 1
        omega
      rw [Nat.add_comm c 1, extent_add, extent_one, ← Nat.add_comm c 1, hnext, Nat.add_comm,
        show N - (c + 1) = N - 1 - c by omega]
    rw [inner, if_neg (by rw [hs]; dsimp only; omega), show c + (n + 1) = c + 1 + n by omega]
    refine ih (by omega) ?_
    have h₁ := hall r (c + 1) (by omega)
    have h₂ := hall (ahead r (N - (c + 1))) (c + 1) (by omega)
    rw [hs, add]
    dsimp only
    rw [hlen c (by omega), hlen (N - 1 - c) (by omega), ← extent_succ, ← hback,
      Nat.mod_eq_of_lt h₁, Nat.mod_eq_of_lt h₂, Nat.sub_sub]

/-- The ranks that the first `i` rounds have taken from each end. -/
def count (i : Nat) : Nat := if i = 0 then 0 else 2 ^ (i - 1)

theorem after_eq (hlen : ∀ j < N, len j = w (ahead r j)) (hw : ∑ q, w q < 2 ^ 64)
    (hi : i ≤ bits (N - 1)) :
    after len N i = ⟨Rotation.extent w r (count i), Rotation.extent w r (count i),
      Rotation.extent w (ahead r (N - count i)) (count i), count i, N - 1 - count i⟩ := by
  induction i with
  | zero => rfl
  | succ i ih =>
    have hcount : count i + 2 ^ (i - 1) = count (i + 1) := by
      cases i with
      | zero => rfl
      | succ i =>
        simp only [count, Nat.succ_ne_zero, if_false, Nat.add_sub_cancel]
        rw [Nat.pow_succ]
        omega
    have hlast : count (i + 1) ≤ N - 1 := two_pow_le_of_lt_bits (by omega : i < bits (N - 1))
    rw [after, ih (by omega), inner_eq hlen hw (by omega) rfl, hcount]

theorem rest_eq (hlen : ∀ j < N, len j = w (ahead r j)) (hw : ∑ q, w q < 2 ^ 64)
    (hs : s.total = Rotation.extent w r s.fwdIdx) (hn : s.fwdIdx + n ≤ N) :
    rest len n s = Rotation.extent w r (s.fwdIdx + n) := by
  induction n generalizing s with
  | zero => exact hs
  | succ n ih =>
    have hlt : Rotation.extent w r (s.fwdIdx + 1) < 2 ^ 64 :=
      lt_of_le_of_lt ((extent_mono (by omega)).trans (extent_all w r).le) hw
    rw [rest, ih]
    · show Rotation.extent w r (s.fwdIdx + 1 + n) = _
      congr 1
      omega
    · show (s.total + len s.fwdIdx) % 2 ^ 64 = Rotation.extent w r (s.fwdIdx + 1)
      rw [hs, hlen _ (by omega), ← extent_succ, Nat.mod_eq_of_lt hlt]
    · show s.fwdIdx + 1 + n ≤ N
      omega

end Sums

theorem totalLen_eq (hlen : ∀ j < N, len j = w (ahead r j)) (hw : ∑ q, w q < 2 ^ 64) :
    totalLen len N (bits (N - 1)) = ∑ q, w q := by
  have hafter := Sums.after_eq hlen hw (Nat.le_refl _)
  have hcount : Sums.count (bits (N - 1)) ≤ N := by
    unfold Sums.count
    split
    · exact Nat.zero_le _
    · have := @two_pow_le_of_lt_bits (N - 1) (bits (N - 1) - 1) (by omega)
      omega
  rw [totalLen, Sums.rest_eq hlen hw (by rw [hafter]) (by rw [hafter]; dsimp only; omega), hafter]
  dsimp only
  rw [Nat.add_sub_cancel' hcount, extent_all]

/-- `l_sums` is what the rank has before each step. -/
theorem lSums_eq (hlen : ∀ j < N, len j = w (ahead r j)) (hw : ∑ q, w q < 2 ^ 64)
    (hi : i ≤ bits (N - 1)) : lSums len N (bits (N - 1)) i = known w r i := by
  unfold lSums
  split
  · rename_i heq
    rw [totalLen_eq hlen hw, heq, known_all]
    have := lt_two_pow_bits (N - 1)
    omega
  · rw [Sums.after_eq hlen hw (by omega), known]
    have := @two_pow_le_of_lt_bits (N - 1) i (by omega)
    show Rotation.extent w r (2 ^ (i + 1 - 1)) = _
    rw [Nat.add_sub_cancel, Nat.min_eq_left (by omega)]

theorem destRank_eq (h : 2 ^ i ≤ N) : RexchgvTeam.destRank r i = ahead r (N - 2 ^ i) := by
  apply Fin.ext
  show (r.val + N - 2 ^ i) % N = (r.val + (N - 2 ^ i)) % N
  rw [Nat.add_sub_assoc h]

/-- `r_sums` is what the target of a step has before it. -/
theorem rSums_eq (hlen : ∀ j < N, len j = w (ahead r j)) (hw : ∑ q, w q < 2 ^ 64)
    (hi : i < bits (N - 1)) : rSums len N i = known w (RexchgvTeam.destRank r i) i := by
  have hpow := two_pow_le_of_lt_bits hi
  rw [rSums, Sums.after_eq hlen hw hi, known, destRank_eq (by omega)]
  show Rotation.extent w (ahead r (N - 2 ^ (i + 1 - 1))) (2 ^ (i + 1 - 1)) = _
  rw [Nat.add_sub_cancel, Nat.min_eq_left (by omega)]

theorem destRank_fwd (h : 2 ^ i ≤ N) : RexchgvTeam.destRank (fwd r i) i = r := by
  rw [destRank_eq h, fwd_eq_ahead, ahead_ahead, Nat.add_sub_cancel' h]
  apply Fin.ext
  simp [ahead, Nat.mod_eq_of_lt r.isLt]

/-- What is sent is what the target has not. -/
theorem min_known (w : Fin N → Nat) (q : Fin N) (h : 2 ^ i ≤ N) :
    min (known w q i) (∑ q, w q - known w (RexchgvTeam.destRank q i) i) = share w q i := by
  have hq : ahead (RexchgvTeam.destRank q i) (2 ^ i) = q := by
    rw [destRank_eq h]
    exact ahead_sub h
  have hleft : ∑ q, w q = known w (RexchgvTeam.destRank q i) i + Rotation.extent w q (N - 2 ^ i) := by
    have hadd := extent_add w (RexchgvTeam.destRank q i) (2 ^ i) (N - 2 ^ i)
    rw [hq, Nat.add_sub_cancel' h, extent_all] at hadd
    rw [known, Nat.min_eq_left h, hadd]
  rw [hleft, Nat.add_sub_cancel_left, known, Nat.min_eq_left h, share]
  rcases Nat.le_total (2 ^ i) (N - 2 ^ i) with hle | hle
  · rw [Nat.min_eq_left hle, Nat.min_eq_left (extent_mono hle)]
  · rw [Nat.min_eq_right hle, Nat.min_eq_right (extent_mono hle)]

end Gasnet.Coll
