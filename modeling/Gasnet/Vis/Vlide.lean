import Gasnet.Foundation.Memory
import Mathlib.Data.Int.Bitwise
import Mathlib.Data.Int.ModEq
import Mathlib.Tactic.IntervalCases
import Mathlib.Tactic.Ring

/-! VLIDE: the differences of successive values in chunks of seven bits. -/
namespace Gasnet.Vis

abbrev Byte := BitVec 8

variable {prev curr diff d v x : Word} {b : Byte} {bs rest w : List Byte} {n c : Nat} {more : Bool}

/-- How many chunks the shifted difference needs, in at most `n` rounds of the loop. -/
def chunkCount : Nat → Word → Nat
  | 0, _ => 1
  | n + 1, cdiff => if cdiff = 0 then 1 else chunkCount n (cdiff >>> 7) + 1

/-- What the count starts from: the bits toggled if negative, less the six that a last chunk holds
beside the sign. -/
def magnitude (diff : Word) : Word := (if diff.msb then ~~~diff else diff) >>> 6

/-- One byte: seven bits of the difference and the flag that more follow. -/
def chunk (diff : Word) (more : Bool) : Byte :=
  (diff &&& 0x7F).setWidth 8 ||| if more then 0x80 else 0

/-- The loop that writes `n` chunks from the last one back. -/
def emit : Nat → Word → Bool → List Byte
  | 0, _, _ => []
  | n + 1, diff, more => emit n (diff >>> 7) true ++ [chunk diff more]

/-- `GASNETI_VLIDE_ENCODE`. -/
def encode (prev curr : Word) : List Byte :=
  let diff := curr - prev
  if diff + 64 < 128 then [(diff &&& 0x7F).setWidth 8]
  else emit (chunkCount 9 (magnitude diff)) diff false

/-- The loop of the decoder. The byte it reads after the last one does not count. -/
def decodeMore (diff : Word) : List Byte → Option (Word × List Byte)
  | [] => none
  | b :: bs =>
    let diff := diff <<< 7 ||| (b &&& 0x7F).setWidth 64
    if b &&& 0x80 ≠ 0 then decodeMore diff bs else some (diff, bs)

/-- The difference that comes next, and the bytes after it. -/
def decodeDiff : List Byte → Option (Word × List Byte)
  | [] => none
  | b :: bs =>
    if b &&& 0xC0 = 0 then some (b.setWidth 64, bs)
    else if b &&& 0x80 = 0 then some ((-1) <<< 7 ||| b.setWidth 64, bs)
    else decodeMore (if b &&& 0x40 ≠ 0 then -1 else 0) (b :: bs)

/-- `GASNETI_VLIDE_DECODE`. -/
def decode (prev : Word) (bs : List Byte) : Option (Word × List Byte) :=
  (decodeDiff bs).map fun p => (p.1 + prev, p.2)

/-- Each value relative to the one before it. -/
def encodeAll (prev : Word) : List Word → List Byte
  | [] => []
  | curr :: vs => encode prev curr ++ encodeAll curr vs

def decodeAll (prev : Word) : Nat → List Byte → Option (List Word × List Byte)
  | 0, bs => some ([], bs)
  | n + 1, bs => (decode prev bs).bind fun p =>
    (decodeAll p.1 n p.2).map fun q => (p.1 :: q.1, q.2)

/-- The differences that `n + 1` chunks can hold. -/
def Fits (n : Nat) (d : Int) : Prop := -(64 * 128 ^ n) ≤ d ∧ d < 64 * 128 ^ n

/-- The decoder starts with the sign of the first chunk. -/
def sign (b : Byte) : Int := if b &&& 0x40 ≠ 0 then -1 else 0

theorem chunkCount_pos (n : Nat) (x : Word) : 0 < chunkCount n x := by
  cases n with
  | zero => exact Nat.one_pos
  | succ n =>
    rw [chunkCount]
    split
    · exact Nat.one_pos
    · exact Nat.succ_pos _

theorem toNat_shift (x : Word) : (x >>> 7).toNat = x.toNat / 128 := by
  rw [BitVec.toNat_ushiftRight, Nat.shiftRight_eq_div_pow]

theorem chunkCount_le_iff (h : x.toNat < 128 ^ n) :
    chunkCount n x ≤ c + 1 ↔ x.toNat < 128 ^ c := by
  induction n generalizing x c with
  | zero =>
    have hpos : 0 < 128 ^ c := Nat.pow_pos (by omega)
    simp only [chunkCount]
    omega
  | succ n ih =>
    have hpos : 0 < 128 ^ c := Nat.pow_pos (by omega)
    rw [chunkCount]
    split
    · rename_i hz
      simp [hz, hpos]
    · rename_i hz
      have hx := toNat_pos hz
      cases c with
      | zero =>
        have hc := chunkCount_pos n (x >>> 7)
        omega
      | succ c =>
        rw [Nat.succ_le_succ_iff, ih (by rw [toNat_shift]; omega), toNat_shift, Nat.pow_succ]
        omega

theorem magnitude_lt_iff : (magnitude d).toNat < 128 ^ n ↔ Fits n d.toInt := by
  have hlt := d.isLt
  have hcast : ((128 ^ n : Nat) : Int) = 128 ^ n := by push_cast; rfl
  rw [magnitude, BitVec.toNat_ushiftRight, Nat.shiftRight_eq_div_pow, Fits, ← hcast]
  by_cases h : d.msb = true
  · rw [if_pos h, BitVec.toInt_eq_msb_cond, if_pos h, BitVec.toNat_not]
    have hm := BitVec.msb_eq_true_iff_two_mul_ge.1 h
    omega
  · rw [if_neg h, BitVec.toInt_eq_msb_cond, if_neg h]
    have hm := BitVec.msb_eq_false_iff_two_mul_lt.1 (Bool.not_eq_true _ ▸ h)
    omega

/-- The single byte is the case of one chunk. -/
theorem encode_eq (prev curr : Word) :
    encode prev curr = emit (chunkCount 9 (magnitude (curr - prev))) (curr - prev) false := by
  simp only [encode]
  generalize curr - prev = d
  split
  · rename_i h
    have hz : magnitude d = 0 := by
      apply BitVec.eq_of_toNat_eq
      rw [BitVec.lt_def, BitVec.toNat_add] at h
      simp only [BitVec.ofNat_eq_ofNat, BitVec.toNat_ofNat] at h
      have hfit := (magnitude_lt_iff (n := 0) (d := d)).2
      simp only [Fits, BitVec.toInt] at hfit
      simp only [BitVec.ofNat_eq_ofNat, BitVec.toNat_ofNat]
      omega
    rw [hz]
    simp [chunkCount, emit, chunk]
  · rfl

@[simp] theorem length_emit (n : Nat) (d : Word) (more : Bool) : (emit n d more).length = n := by
  induction n generalizing d more with
  | zero => rfl
  | succ n ih => simp [emit, ih]

/-- The length of an encoding says how large the difference is. -/
theorem length_encode_le_iff :
    (encode prev curr).length ≤ n + 1 ↔ Fits n (curr - prev).toInt := by
  have hm : (magnitude (curr - prev)).toNat < 128 ^ 9 := by
    have hlt := BitVec.isLt (if (curr - prev).msb then ~~~(curr - prev) else curr - prev)
    rw [magnitude, BitVec.toNat_ushiftRight, Nat.shiftRight_eq_div_pow]
    omega
  rw [encode_eq, length_emit, chunkCount_le_iff hm, magnitude_lt_iff]

theorem length_encode_le (prev curr : Word) : (encode prev curr).length ≤ 10 := by
  have hlt := (curr - prev).isLt
  rw [length_encode_le_iff, Fits]
  simp only [BitVec.toInt]
  omega

theorem encode_pos (prev curr : Word) : 0 < (encode prev curr).length := by
  rw [encode_eq, length_emit]
  exact chunkCount_pos ..

/-- The decoder's step adds a chunk below what it has. -/
theorem shift_or (x : Word) (b : Byte) :
    x <<< 7 ||| (b &&& 0x7F).setWidth 64 = x * 128 + ((b.toNat % 128 : Nat) : Word) := by
  have hand : b.toNat &&& 127 = b.toNat % 128 := Nat.and_two_pow_sub_one_eq_mod b.toNat 7
  have hshift : x.toNat <<< 7 % 2 ^ 64 = 2 ^ 7 * (x.toNat % 2 ^ 57) := by
    rw [Nat.shiftLeft_eq]
    omega
  have hlow : (b.toNat &&& 127) % 2 ^ 64 = b.toNat % 128 := by omega
  have hor : 128 * (x.toNat % 2 ^ 57) + b.toNat % 128 = 128 * (x.toNat % 2 ^ 57) ||| b.toNat % 128 :=
    Nat.two_pow_add_eq_or_of_lt (i := 7) (Nat.mod_lt _ (by omega)) _
  apply BitVec.eq_of_toNat_eq
  simp only [BitVec.toNat_or, BitVec.toNat_shiftLeft, BitVec.toNat_setWidth, BitVec.toNat_and,
    BitVec.toNat_add, BitVec.toNat_mul, BitVec.natCast_eq_ofNat, BitVec.ofNat_eq_ofNat,
    BitVec.toNat_ofNat, Nat.reducePow, Nat.reduceMod] at hshift hlow hor ⊢
  rw [hshift, hlow, ← hor]
  omega

theorem and_more (b : Byte) : b &&& 0x80 = 0 ↔ b.toNat < 128 := by
  revert b
  decide

theorem and_sign (b : Byte) : b &&& 0x40 = 0 ↔ b.toNat % 128 < 64 := by
  revert b
  decide

theorem and_both (b : Byte) : b &&& 0xC0 = 0 ↔ b.toNat < 64 := by
  revert b
  decide

theorem toNat_chunk (d : Word) (more : Bool) :
    (chunk d more).toNat = d.toNat % 128 + if more then 128 else 0 := by
  have hand : d.toNat &&& 127 = d.toNat % 128 := Nat.and_two_pow_sub_one_eq_mod d.toNat 7
  have hlow : (d &&& 0x7F).toNat % 2 ^ 8 = d.toNat % 128 := by
    rw [BitVec.toNat_and]
    simp only [BitVec.ofNat_eq_ofNat, BitVec.toNat_ofNat, Nat.reducePow, Nat.reduceMod]
    omega
  have hor : 128 * 1 + d.toNat % 128 = 128 * 1 ||| d.toNat % 128 :=
    Nat.two_pow_add_eq_or_of_lt (i := 7) (Nat.mod_lt _ (by omega)) _
  rw [chunk, BitVec.toNat_or, BitVec.toNat_setWidth]
  cases more with
  | false => simpa using hlow
  | true =>
    have hflag : ((if true = true then 0x80 else 0 : Byte)).toNat = 128 * 1 := rfl
    rw [hflag, if_pos rfl, hlow, Nat.or_comm]
    omega

theorem decodeMore_cons (x : Word) (b : Byte) (bs : List Byte) :
    decodeMore x (b :: bs) =
      if b.toNat < 128 then some (x * 128 + ((b.toNat % 128 : Nat) : Word), bs)
      else decodeMore (x * 128 + ((b.toNat % 128 : Nat) : Word)) bs := by
  simp only [decodeMore, shift_or, ne_eq, and_more, ite_not]

theorem and_low (b : Byte) : b.toNat < 128 → b &&& 0x7F = b := by
  revert b
  decide

theorem sign_eq (b : Byte) : sign b = if b.toNat % 128 < 64 then 0 else -1 := by
  simp only [sign, ne_eq, and_sign, ite_not]

/-- The short cuts are cases of the loop. -/
theorem decodeDiff_cons (b : Byte) (bs : List Byte) :
    decodeDiff (b :: bs) = decodeMore (sign b : Word) (b :: bs) := by
  by_cases h128 : b.toNat < 128
  · have hlow := shift_or (sign b : Word) b
    rw [and_low b h128] at hlow
    rw [decodeMore_cons, if_pos h128, ← hlow, sign_eq, decodeDiff]
    by_cases h64 : b.toNat < 64
    · rw [if_pos ((and_both b).2 h64), if_pos (by omega)]
      simp
    · rw [if_neg (mt (and_both b).1 h64), if_pos ((and_more b).2 h128), if_neg (by omega)]
      rfl
  · rw [decodeDiff, if_neg (mt (and_both b).1 (by omega)), if_neg (mt (and_more b).1 h128), sign]
    split <;> rfl

theorem append_chunk (v : Word) (m n : Nat) :
    (v * 128 ^ n + ((m / 128 % 128 ^ n : Nat) : Word)) * 128 + ((m % 128 : Nat) : Word) =
      v * 128 ^ (n + 1) + ((m % 128 ^ (n + 1) : Nat) : Word) := by
  have hm : m % 128 ^ (n + 1) = m / 128 % 128 ^ n * 128 + m % 128 := by
    rw [Nat.pow_succ', Nat.mod_mul]
    ring
  rw [hm]
  push_cast
  ring

/-- What the chunks of an unfinished encoding add to what the decoder has. -/
theorem decodeMore_emit_true (n : Nat) (d v : Word) (bs : List Byte) :
    decodeMore v (emit n d true ++ bs) =
      decodeMore (v * 128 ^ n + ((d.toNat % 128 ^ n : Nat) : Word)) bs := by
  induction n generalizing d bs with
  | zero => simp [emit, Nat.mod_one]
  | succ n ih =>
    have hc := toNat_chunk d true
    rw [if_pos rfl] at hc
    rw [emit, List.append_assoc, List.singleton_append, ih, decodeMore_cons, if_neg (by omega), hc,
      Nat.add_mod_right, Nat.mod_mod, toNat_shift, append_chunk]

theorem decodeMore_emit (n : Nat) (d v : Word) (bs : List Byte) :
    decodeMore v (emit (n + 1) d false ++ bs) =
      some (v * 128 ^ (n + 1) + ((d.toNat % 128 ^ (n + 1) : Nat) : Word), bs) := by
  have hc := toNat_chunk d false
  rw [if_neg Bool.false_ne_true, Nat.add_zero] at hc
  rw [emit, List.append_assoc, List.singleton_append, decodeMore_emit_true, decodeMore_cons,
    if_pos (by omega), hc, Nat.mod_mod, toNat_shift, append_chunk]

/-- The first chunk holds the highest bits. -/
theorem emit_head (n : Nat) (d : Word) (more : Bool) :
    ∃ b l, emit (n + 1) d more = b :: l ∧ b.toNat % 128 = d.toNat / 128 ^ n % 128 := by
  induction n generalizing d more with
  | zero =>
    refine ⟨chunk d more, [], rfl, ?_⟩
    rw [toNat_chunk]
    split <;> simp
  | succ n ih =>
    obtain ⟨b, l, hl, hb⟩ := ih (d >>> 7) true
    refine ⟨b, l ++ [chunk d more], ?_, ?_⟩
    · rw [emit, hl, List.cons_append]
    · rw [hb, toNat_shift, Nat.div_div_eq_div_mul, Nat.pow_succ']

/-- The sign and the chunks are the difference again, if it fits them. -/
theorem extend_sign (hn : n < 10) (h : Fits n d.toInt)
    (hb : b.toNat % 128 = d.toNat / 128 ^ n % 128) :
    (sign b : Word) * 128 ^ (n + 1) + ((d.toNat % 128 ^ (n + 1) : Nat) : Word) = d := by
  have hlt := d.isLt
  have hint : sign b * 128 ^ (n + 1) + (d.toNat % 128 ^ (n + 1) : Nat) = d.toNat ∨
      sign b * 128 ^ (n + 1) + (d.toNat % 128 ^ (n + 1) : Nat) = d.toNat - 2 ^ 64 := by
    rw [Fits, BitVec.toInt] at h
    rw [sign_eq]
    interval_cases n <;> omega
  have hcast : ((sign b * 128 ^ (n + 1) + (d.toNat % 128 ^ (n + 1) : Nat) : Int) : Word) = d := by
    rcases hint with hint | hint
    · rw [hint, Int.cast_natCast, natCast_toNat]
    · rw [hint, Int.cast_sub, Int.cast_natCast, natCast_toNat]
      exact sub_zero d
  rw [Int.cast_add, Int.cast_mul, Int.cast_pow, Int.cast_natCast] at hcast
  exact hcast

theorem decodeDiff_encode (prev curr : Word) (rest : List Byte) :
    decodeDiff (encode prev curr ++ rest) = some (curr - prev, rest) := by
  obtain ⟨m, hm⟩ := Nat.exists_eq_add_one.2 (encode_pos prev curr)
  have hfit := length_encode_le_iff.1 (Nat.le_of_eq hm)
  have hle := length_encode_le prev curr
  rw [encode_eq, length_emit] at hm
  rw [encode_eq, hm]
  obtain ⟨b, l, hl, hb⟩ := emit_head m (curr - prev) false
  have hmore := decodeMore_emit m (curr - prev) (sign b : Word) rest
  rw [hl, List.cons_append] at hmore ⊢
  rw [decodeDiff_cons, hmore, extend_sign (by rw [encode_eq, length_emit] at hle; omega) hfit hb]

theorem decode_encode (prev curr : Word) (rest : List Byte) :
    decode prev (encode prev curr ++ rest) = some (curr, rest) := by
  rw [decode, decodeDiff_encode, Option.map_some, BitVec.sub_add_cancel]

/-- Each further chunk makes the range 128 times as large. -/
theorem fits_succ {v : Int} {c : Nat} (h : Fits n v) (hc : c < 128) : Fits (n + 1) (v * 128 + c) := by
  rw [Fits] at h ⊢
  rw [pow_succ]
  omega

theorem decodeMore_cast (v : Int) (b : Byte) (bs : List Byte) :
    decodeMore (v : Word) (b :: bs) =
      if b.toNat < 128 then some (((v * 128 + (b.toNat % 128 : Nat) : Int) : Word), bs)
      else decodeMore ((v * 128 + (b.toNat % 128 : Nat) : Int) : Word) bs := by
  rw [decodeMore_cons, Int.cast_add, Int.cast_mul, Int.cast_natCast]
  rfl

/-- What is decoded from `n` more bytes fits `n` more chunks. -/
theorem fits_of_decodeMore {v : Int} (hv : Fits n v) (h : decodeMore (v : Word) bs = some (d, [])) :
    ∃ u : Int, (u : Word) = d ∧ Fits (n + bs.length) u := by
  induction bs generalizing n v with
  | nil => simp [decodeMore] at h
  | cons b bs ih =>
    have hu := fits_succ hv (Nat.mod_lt b.toNat (by omega : 128 > 0))
    rw [decodeMore_cast] at h
    split at h
    · cases h
      exact ⟨_, rfl, hu⟩
    · obtain ⟨u, hd, hfit⟩ := ih hu h
      rw [List.length_cons, Nat.add_comm bs.length, ← Nat.add_assoc]
      exact ⟨u, hd, hfit⟩

theorem fits_of_decodeDiff (h : decodeDiff w = some (d, [])) :
    ∃ n u, w.length = n + 1 ∧ (u : Int) = d ∧ Fits n u := by
  cases w with
  | nil => simp [decodeDiff] at h
  | cons b bs =>
    have hu : Fits 0 (sign b * 128 + (b.toNat % 128 : Nat)) := by
      rw [Fits, sign_eq]
      split <;> omega
    rw [decodeDiff_cons, decodeMore_cast] at h
    split at h
    · cases h
      exact ⟨0, _, rfl, rfl, hu⟩
    · obtain ⟨u, hd, hfit⟩ := fits_of_decodeMore hu h
      exact ⟨bs.length, u, rfl, hd, by simpa using hfit⟩

/-- No codeword for a difference is shorter than its encoding. -/
theorem length_encode_le_of_decodeDiff (h : decodeDiff w = some (curr - prev, [])) :
    (encode prev curr).length ≤ w.length := by
  obtain ⟨n, u, hlen, hd, hfit⟩ := fits_of_decodeDiff h
  rw [hlen]
  by_cases hn : n < 9
  · rw [length_encode_le_iff, ← hd, BitVec.toInt_intCast, Int.bmod_eq_of_le]
    · exact hfit
    all_goals
      rw [Fits] at hfit
      interval_cases n <;> omega
  · exact Nat.le_trans (length_encode_le prev curr) (by omega)

/-- The whole list comes back, nothing of what follows it is read, and no other codeword for one of
the differences is shorter. -/
theorem vlide_lossless (prev : Word) (vs : List Word) (rest : List Byte) :
    decodeAll prev vs.length (encodeAll prev vs ++ rest) = some (vs, rest) ∧
    ∀ (p c : Word) (w : List Byte), decodeDiff w = some (c - p, []) →
      (encode p c).length ≤ w.length := by
  refine ⟨?_, fun p c w => length_encode_le_of_decodeDiff⟩
  induction vs generalizing prev with
  | nil => rfl
  | cons v vs ih =>
    rw [encodeAll, List.length_cons, List.append_assoc, decodeAll, decode_encode, Option.bind_some,
      ih, Option.map_some]

/-- The most negative difference, a difference that wraps, and a codeword with a chunk too many. -/
theorem vlide_lossless_two :
    decodeAll 5 2 (encodeAll 5 [0x8000000000000005, 4] ++ [7]) =
      some ([0x8000000000000005, 4], [7]) ∧
    (encode 0 63).length ≤ [(0x80 : Byte), 0x3F].length :=
  ⟨(vlide_lossless 5 [0x8000000000000005, 4] [7]).1,
    (vlide_lossless 0 [] []).2 0 63 [0x80, 0x3F] (by decide)⟩

end Gasnet.Vis
