import Mathlib.Data.BitVec
import Mathlib.Data.List.Basic

/-! The values of the PMI store: `do_encode` and `do_decode`, a variant of Ascii85. -/
namespace Gasnet.Pmi

abbrev Byte := BitVec 8

inductive Api
  | pmi1
  | pmi2
  | pmix
deriving DecidableEq

variable {api : Api} {d x n : Nat} {g bs : List Byte}

/-- The digit of a value from 0 to 84. With PMI2, `v`, `w` and `x` stand for `/`, `;` and `=`. -/
def a85Enc (api : Api) (d : Nat) : Nat :=
  let c := d + 33
  if api = .pmi2 then if c = 47 then 118 else if c = 59 then 119 else if c = 61 then 120 else c
  else c

def a85Dec (api : Api) (c : Nat) : Nat :=
  if api = .pmi2 then
    if c = 118 then 14 else if c = 119 then 26 else if c = 120 then 28 else c - 33
  else c - 33

/-- The characters `z`, `y` and `u`. -/
def charZ : Nat := 122
def charY : Nat := 121
def charU : Nat := 117

theorem a85Dec_a85Enc (h : d < 85) : a85Dec api (a85Enc api d) = d := by
  simp only [a85Dec, a85Enc]
  split_ifs <;> omega

theorem a85Enc_lt (h : d < 85) : a85Enc api d < charY := by
  simp only [a85Enc, charY]
  split_ifs <;> omega

theorem a85Dec_charU : a85Dec api charU = 84 := by
  cases api <;> rfl

/-- Up to four bytes as a number, the first one highest. -/
def word (g : List Byte) : Nat := g.foldl (fun x b => x * 256 + b.toNat) 0

/-- The lowest `n` bytes of a number. -/
def bytes : Nat → Nat → List Byte
  | 0, _ => []
  | n + 1, x => bytes n (x / 256) ++ [BitVec.ofNat 8 x]

theorem word_concat (g : List Byte) (b : Byte) : word (g ++ [b]) = word g * 256 + b.toNat := by
  simp [word]

theorem word_lt (g : List Byte) : word g < 256 ^ g.length := by
  induction g using List.reverseRecOn with
  | nil => simp [word]
  | append_singleton g b ih =>
    have hb := b.isLt
    rw [word_concat, List.length_append, List.length_singleton, Nat.pow_succ]
    omega

theorem bytes_word (g : List Byte) : bytes g.length (word g) = g := by
  induction g using List.reverseRecOn with
  | nil => rfl
  | append_singleton g b ih =>
    have hb := b.isLt
    have hdiv : (word g * 256 + b.toNat) / 256 = word g := by omega
    have hmod : BitVec.ofNat 8 (word g * 256 + b.toNat) = b := by
      apply BitVec.eq_of_toNat_eq
      rw [BitVec.toNat_ofNat]
      omega
    rw [List.length_append, List.length_singleton, bytes, word_concat, hdiv, hmod, ih]

/-- The five digits of a 32-bit number. -/
def digits (api : Api) (x : Nat) : List Nat :=
  [a85Enc api (x / 85 / 85 / 85 / 85), a85Enc api (x / 85 / 85 / 85 % 85),
    a85Enc api (x / 85 / 85 % 85), a85Enc api (x / 85 % 85), a85Enc api (x % 85)]

/-- One round of the loop of `do_encode`, for one to four bytes. -/
def encodeGroup (api : Api) (g : List Byte) : List Nat :=
  if word g = 0 then [charZ]
  else if word g = 0xFFFFFFFF then [charY]
  else (digits api (word g * 256 ^ (4 - g.length))).take (g.length + 1)

/-- How many characters that round writes: all five digits, though it may keep fewer. -/
def groupTouched (g : List Byte) : Nat :=
  if word g = 0 ∨ word g = 0xFFFFFFFF then 1 else 5

/-- `do_encode`, without the terminator. -/
def encode (api : Api) : List Byte → List Nat
  | [] => []
  | [a] => encodeGroup api [a]
  | [a, b] => encodeGroup api [a, b]
  | [a, b, c] => encodeGroup api [a, b, c]
  | a :: b :: c :: d :: bs => encodeGroup api [a, b, c, d] ++ encode api bs

/-- How far `do_encode` writes into its buffer, the terminator included. -/
def touched (api : Api) : List Byte → Nat
  | [] => 1
  | [a] => max (groupTouched [a]) ((encodeGroup api [a]).length + 1)
  | [a, b] => max (groupTouched [a, b]) ((encodeGroup api [a, b]).length + 1)
  | [a, b, c] => max (groupTouched [a, b, c]) ((encodeGroup api [a, b, c]).length + 1)
  | a :: b :: c :: d :: bs =>
    max (groupTouched [a, b, c, d]) ((encodeGroup api [a, b, c, d]).length + touched api bs)

/-- The value of `n + 1` kept digits, `u` in the place of the others. `uint32_t` is reduced at the
end. -/
def undigits (api : Api) (kept : List Nat) : Nat :=
  ((kept ++ List.replicate (5 - kept.length) charU).foldl (fun x c => x * 85 + a85Dec api c) 0) %
    2 ^ 32

/-- One round of the loop of `do_decode` for `n` bytes, and the characters it leaves. -/
def decodeGroup (api : Api) (n : Nat) : List Nat → Option (List Byte × List Nat)
  | [] => none
  | c :: cs =>
    if c = charZ then some (bytes n 0, cs)
    else if c = charY then some (bytes n 0xFFFFFFFF, cs)
    else if n = 4 ∧ 5 ≤ (c :: cs).length ∨ n ≠ 4 ∧ (c :: cs).length = n + 1 then
      some (bytes n (undigits api ((c :: cs).take (n + 1)) / 256 ^ (4 - n)), (c :: cs).drop (n + 1))
    else none

/-- `do_decode` to `len` bytes. Nothing may be left of the input. -/
def decode (api : Api) : Nat → List Nat → Option (List Byte)
  | 0, cs => if cs = [] then some [] else none
  | 1, cs => (decodeGroup api 1 cs).bind fun p => if p.2 = [] then some p.1 else none
  | 2, cs => (decodeGroup api 2 cs).bind fun p => if p.2 = [] then some p.1 else none
  | 3, cs => (decodeGroup api 3 cs).bind fun p => if p.2 = [] then some p.1 else none
  | len + 4, cs => (decodeGroup api 4 cs).bind fun p => (decode api len p.2).map (p.1 ++ ·)

/-- The five digits give the number back. -/
theorem undigits_digits (h : x < 2 ^ 32) : undigits api (digits api x) = x := by
  have hdec (d : Nat) (hd : d < 85) : a85Dec api (a85Enc api d) = d := a85Dec_a85Enc hd
  simp only [undigits, digits, List.length_cons, List.length_nil, Nat.reduceAdd, Nat.sub_self,
    List.replicate_zero, List.append_nil, List.foldl_cons, List.foldl_nil]
  rw [hdec _ (by omega), hdec _ (by omega), hdec _ (by omega), hdec _ (by omega),
    hdec _ (by omega)]
  omega

/-- What is added below the bytes that are cut off does not count. -/
theorem div_of_cut {v w b : Nat} (hle : w * b ≤ v) (hlt : v < (w + 1) * b) (h : v < 2 ^ 32) :
    v % 2 ^ 32 / b = w := by
  rw [Nat.mod_eq_of_lt h]
  exact Nat.div_eq_of_lt_le hle hlt

/-- A group of fewer bytes, its lowest digits replaced by `u`. The error stays below the bytes that
are cut off. -/
theorem undigits_take (api : Api) {w : Nat} (hn : n = 1 ∨ n = 2 ∨ n = 3) (hw : w < 256 ^ n) :
    undigits api ((digits api (w * 256 ^ (4 - n))).take (n + 1)) / 256 ^ (4 - n) = w := by
  have hdec (d : Nat) (hd : d < 85) : a85Dec api (a85Enc api d) = d := a85Dec_a85Enc hd
  have hu : a85Dec api charU = 84 := a85Dec_charU
  rcases hn with rfl | rfl | rfl <;>
  simp only [undigits, digits, List.take_succ_cons, List.take_zero, List.length_cons,
    List.length_nil, Nat.reduceAdd, Nat.reduceSub, List.replicate, List.cons_append,
    List.nil_append, List.foldl_cons, List.foldl_nil, hu, Nat.reducePow] at hw ⊢
  · rw [hdec _ (by omega), hdec _ (by omega)]
    apply div_of_cut <;> omega
  · rw [hdec _ (by omega), hdec _ (by omega), hdec _ (by omega)]
    apply div_of_cut <;> omega
  · rw [hdec _ (by omega), hdec _ (by omega), hdec _ (by omega), hdec _ (by omega)]
    apply div_of_cut <;> omega

theorem length_digits (x : Nat) : (digits api x).length = 5 := rfl

/-- The first character of five digits is no shorthand. -/
theorem digits_take (api : Api) (h : x < 2 ^ 32) (n : Nat) :
    ∃ c cs, (digits api x).take (n + 1) = c :: cs ∧ c < charY := by
  refine ⟨_, _, List.take_succ_cons, a85Enc_lt ?_⟩
  omega

theorem decodeGroup_full (api : Api) (hg : g.length = 4) (rest : List Nat) :
    decodeGroup api 4 (encodeGroup api g ++ rest) = some (g, rest) := by
  have hlt : word g < 256 ^ 4 := hg ▸ word_lt g
  have hbytes : bytes 4 (word g) = g := hg ▸ bytes_word g
  unfold encodeGroup
  split
  · rename_i hz
    rw [hz] at hbytes
    simp [decodeGroup, hbytes]
  split
  · rename_i hy
    rw [hy] at hbytes
    simp [decodeGroup, charY, charZ, hbytes]
  have hx : word g * 256 ^ (4 - g.length) = word g := by simp [hg]
  have htake : (digits api (word g)).take (g.length + 1) = digits api (word g) :=
    List.take_of_length_le (by simp [hg, length_digits])
  obtain ⟨c, cs, hcs, hc⟩ := digits_take api (by omega : word g < 2 ^ 32) 4
  rw [hx, htake]
  have hdig : digits api (word g) = c :: cs := by rw [← hcs]; rfl
  have hlen : (c :: cs).length = 5 := hdig ▸ length_digits _
  rw [hdig, List.cons_append, decodeGroup, if_neg (by unfold charZ charY at *; omega),
    if_neg (by omega), if_pos (Or.inl ⟨rfl, by simp at hlen ⊢; omega⟩)]
  rw [← List.cons_append, ← hdig, List.take_append_of_le_length (by simp [length_digits]),
    List.drop_append_of_le_length (by simp [length_digits])]
  rw [List.take_of_length_le (by simp [length_digits]),
    List.drop_of_length_le (by simp [length_digits]), undigits_digits (by omega)]
  simp [hbytes]

theorem decodeGroup_short (api : Api) (hg : g.length = 1 ∨ g.length = 2 ∨ g.length = 3) :
    decodeGroup api g.length (encodeGroup api g) = some (g, []) := by
  have hlt := word_lt g
  have hbytes := bytes_word g
  have hpow : word g * 256 ^ (4 - g.length) < 2 ^ 32 := by
    rcases hg with hg | hg | hg <;> rw [hg] at hlt ⊢ <;> omega
  unfold encodeGroup
  split
  · rename_i hz
    rw [hz] at hbytes
    simp [decodeGroup, hbytes]
  split
  · rename_i hy
    rcases hg with hg | hg | hg <;> rw [hg] at hlt <;> omega
  obtain ⟨c, cs, hcs, hc⟩ := digits_take api hpow g.length
  have hlen : (c :: cs).length = g.length + 1 := by
    rw [← hcs, List.length_take, length_digits]
    omega
  have hdec := undigits_take api hg hlt
  rw [hcs] at hdec ⊢
  rw [decodeGroup, if_neg (by unfold charZ charY at *; omega), if_neg (by omega),
    if_pos (Or.inr ⟨by omega, hlen⟩), List.take_of_length_le (by omega),
    List.drop_of_length_le (by omega), hdec, hbytes]

theorem length_encodeGroup_le (g : List Byte) : (encodeGroup api g).length ≤ 5 := by
  unfold encodeGroup
  split_ifs <;> simp [length_digits]

theorem groupTouched_le (g : List Byte) : groupTouched g ≤ 5 := by
  unfold groupTouched
  split <;> omega

/-- A buffer for five characters a group is short of the terminator at most. -/
theorem touched_le_iff {len : Nat} (h : 5 * ((bs.length + 3) / 4) ≤ len) :
    touched api bs ≤ len ↔ (encode api bs).length < len := by
  induction bs using encode.induct generalizing len with
  | case1 => simp [touched, encode]; omega
  | case2 a =>
    have := groupTouched_le [a]
    simp only [touched, encode, List.length_cons, List.length_nil] at h ⊢
    omega
  | case3 a b =>
    have := groupTouched_le [a, b]
    simp only [touched, encode, List.length_cons, List.length_nil] at h ⊢
    omega
  | case4 a b c =>
    have := groupTouched_le [a, b, c]
    simp only [touched, encode, List.length_cons, List.length_nil] at h ⊢
    omega
  | case5 a b c d bs ih =>
    have hg := groupTouched_le [a, b, c, d]
    have hl := @length_encodeGroup_le api [a, b, c, d]
    have hih := @ih (len - (encodeGroup api [a, b, c, d]).length) (by
      simp only [List.length_cons] at h
      omega)
    simp only [touched, encode, List.length_cons, List.length_append] at h ⊢
    omega

theorem length_encode_le (bs : List Byte) :
    (encode api bs).length ≤ 5 * ((bs.length + 3) / 4) := by
  induction bs using encode.induct with
  | case1 => simp [encode]
  | case2 a => simpa [encode] using @length_encodeGroup_le api [a]
  | case3 a b => simpa [encode] using @length_encodeGroup_le api [a, b]
  | case4 a b c => simpa [encode] using @length_encodeGroup_le api [a, b, c]
  | case5 a b c d bs ih =>
    have := @length_encodeGroup_le api [a, b, c, d]
    simp only [encode, List.length_cons, List.length_append]
    omega

/-- What was encoded is decoded. -/
theorem decode_encode (bs : List Byte) : decode api bs.length (encode api bs) = some bs := by
  induction bs using encode.induct with
  | case1 => rfl
  | case2 a =>
    have := decodeGroup_short api (g := [a]) (by simp)
    simp_all [decode, encode]
  | case3 a b =>
    have := decodeGroup_short api (g := [a, b]) (by simp)
    simp_all [decode, encode]
  | case4 a b c =>
    have := decodeGroup_short api (g := [a, b, c]) (by simp)
    simp_all [decode, encode]
  | case5 a b c d bs ih =>
    have := decodeGroup_full api (g := [a, b, c, d]) (by simp) (encode api bs)
    simp_all [decode, encode]

/-- `do_encode` as a whole. With the Cray header a value without bytes has one character. -/
def doEncode (cray : Bool) (api : Api) (bs : List Byte) : List Nat :=
  if cray ∧ bs = [] then [charZ] else encode api bs

/-- `do_decode` as a whole, of `cs.length` characters. -/
def doDecode (cray : Bool) (api : Api) (len : Nat) (cs : List Nat) : Option (List Byte) :=
  if cray ∧ len = 0 then if cs.length = 1 ∧ cs.head? = some charZ then some [] else none
  else decode api len cs

/-- NUL, `/`, `;` and `=`. -/
def Reserved (c : Nat) : Prop := c = 0 ∨ c = 47 ∨ c = 59 ∨ c = 61

theorem a85Enc_pos : a85Enc api d ≠ 0 := by
  simp only [a85Enc]
  split_ifs <;> omega

theorem a85Enc_pmi2 : ¬Reserved (a85Enc .pmi2 d) := by
  intro h
  rcases h with h | h | h | h
  · exact a85Enc_pos h
  all_goals
    unfold a85Enc at h
    dsimp only at h
    rw [if_pos rfl] at h
    split at h
    · omega
    split at h
    · omega
    split at h <;> omega

/-- Every character is a shorthand or a digit. -/
theorem mem_encodeGroup {c : Nat} (h : c ∈ encodeGroup api g) :
    c = charZ ∨ c = charY ∨ ∃ d, c = a85Enc api d ∧ (g.length ≤ 4 → d < 85) := by
  unfold encodeGroup at h
  split at h
  · exact Or.inl (List.mem_singleton.1 h)
  split at h
  · exact Or.inr (Or.inl (List.mem_singleton.1 h))
  have hmem := List.mem_of_mem_take h
  simp only [digits, List.mem_cons, List.not_mem_nil, or_false] at hmem
  refine Or.inr (Or.inr ?_)
  rcases hmem with rfl | rfl | rfl | rfl | rfl
  · refine ⟨_, rfl, fun hg => ?_⟩
    have hlt := word_lt g
    have hpow : word g * 256 ^ (4 - g.length) < 256 ^ g.length * 256 ^ (4 - g.length) :=
      Nat.mul_lt_mul_of_pos_right hlt (Nat.pow_pos (by omega))
    rw [← Nat.pow_add, Nat.add_sub_cancel' hg] at hpow
    omega
  all_goals exact ⟨_, rfl, fun _ => Nat.mod_lt _ (by omega)⟩

theorem mem_encode {c : Nat} (h : c ∈ encode api bs) :
    c = charZ ∨ c = charY ∨ ∃ d < 85, c = a85Enc api d := by
  have hgroup : ∀ {g : List Byte}, g.length ≤ 4 → c ∈ encodeGroup api g →
      c = charZ ∨ c = charY ∨ ∃ d < 85, c = a85Enc api d := by
    intro g hg hc
    rcases mem_encodeGroup hc with hz | hy | ⟨d, hd, hlt⟩
    · exact Or.inl hz
    · exact Or.inr (Or.inl hy)
    · exact Or.inr (Or.inr ⟨d, hlt hg, hd⟩)
  induction bs using encode.induct with
  | case1 => simp [encode] at h
  | case2 a => exact hgroup (by simp) h
  | case3 a b => exact hgroup (by simp) h
  | case4 a b c => exact hgroup (by simp) h
  | case5 a b c d bs ih =>
    rcases List.mem_append.1 h with h | h
    · exact hgroup (by simp) h
    · exact ih h

end Gasnet.Pmi
