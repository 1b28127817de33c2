import Mathlib.Algebra.Ring.Int.Defs
import Mathlib.Algebra.Ring.Nat
import Mathlib.Data.List.TakeWhile

/-! Integer settings: numbers as they are printed and read, and a default that goes through both. -/
namespace Gasnet.IntSettings

/-- The characters of a C string, without its NUL. -/
abbrev Str := List Char

def isspace (c : Char) : Bool := c.toNat = 32 || 9 ≤ c.toNat && c.toNat ≤ 13

def isdigit (c : Char) : Bool := 48 ≤ c.toNat && c.toNat ≤ 57

def isalpha (c : Char) : Bool := 65 ≤ c.toNat && c.toNat ≤ 90 || 97 ≤ c.toNat && c.toNat ≤ 122

/-- The code of the upper case letter. -/
def toupper (c : Char) : Nat := if 97 ≤ c.toNat && c.toNat ≤ 122 then c.toNat - 32 else c.toNat

def GASNETI_NUMBUF_SZ : Nat := 80

/-- What has been read of a number; `i` is the length of `numbuf`. -/
structure Number where
  val : BitVec 64
  isfrac : Bool
  numbuf : Str
  deriving DecidableEq, Repr

/-- The test of the loop on a character. -/
def belongs (base : Nat) (c : Char) : Bool :=
  isdigit c && c.toNat < 48 + base || isalpha c && toupper c < 65 + base - 10 || c = '.'

/-- The loop of `gasneti_parse_int`, and where it stops; without a result for a point in a hexadecimal
number. -/
def scan (base : Nat) : Str → Number → Option (Number × Str)
  | [], s => some (s, [])
  | c :: p, s =>
    if s.numbuf.length < GASNETI_NUMBUF_SZ ∧ belongs base c then
      if isdigit c then
        scan base p { s with
          val := s.val * BitVec.ofNat 64 base + BitVec.ofNat 64 (c.toNat - 48)
          numbuf := s.numbuf ++ [c] }
      else if isalpha c then
        scan base p { s with
          val := s.val * BitVec.ofNat 64 base + BitVec.ofNat 64 (10 + toupper c - 65)
          numbuf := s.numbuf ++ [c] }
      else if base ≠ 10 then none
      else scan base p { s with isfrac := true, numbuf := s.numbuf ++ [c] }
    else some (s, c :: p)

def unitOf (c : Option Char) (mem_size_multiplier : BitVec 64) : BitVec 64 :=
  if c = some 'T' ∨ c = some 't' then 1 <<< 40
  else if c = some 'G' ∨ c = some 'g' then 1 <<< 30
  else if c = some 'M' ∨ c = some 'm' then 1 <<< 20
  else if c = some 'K' ∨ c = some 'k' then 1 <<< 10
  else if c = some 'B' ∨ c = some 'b' then 1
  else mem_size_multiplier

/-- The sign, and what comes behind it. -/
def sign : Str → Bool × Str
  | [] => (false, [])
  | c :: p => if c = '+' then (false, p) else if c = '-' then (true, p) else (false, c :: p)

/-- The base, and where the digits start. -/
def baseOf : Str → Nat × Str
  | c :: x :: p => if c = '0' ∧ toupper x = 88 then (16, p) else (10, c :: x :: p)
  | p => (10, p)

/-- What `atof` and the arithmetic on `double` make of a fraction, for a multiplier. -/
abbrev Fraction := Str → BitVec 64 → BitVec 64

/-- `gasneti_parse_int`, which may end the job with a message. -/
def gasneti_parse_int (fraction : Fraction) (str : Option Str) (mem_size_multiplier : BitVec 64) :
    Except String (BitVec 64) :=
  match str with
  | none => .ok 0
  | some str =>
    let neg := (sign str).1
    let p := (sign str).2.dropWhile isspace
    if p = [] then .ok 0
    else
      match scan (baseOf p).1 (baseOf p).2 ⟨0, false, []⟩ with
      | none => .error ("Format error in numerical string: " ++ String.ofList str)
      | some (number, p) =>
        let mem_size_multiplier :=
          if mem_size_multiplier ≠ 0 then unitOf (p.dropWhile isspace).head? mem_size_multiplier else 1
        let val :=
          if number.isfrac then fraction number.numbuf mem_size_multiplier
          else number.val * mem_size_multiplier
        .ok (if neg then -val else val)

/-- `PRId64`. -/
def decimal (z : Int) : Str := if z < 0 then '-' :: Nat.toDigits 10 z.natAbs else Nat.toDigits 10 z.natAbs

/-- `PRIx64`. -/
def hexadecimal (x : BitVec 64) : Str := Nat.toDigits 16 x.toNat

/-- What `snprintf` leaves in a buffer. -/
def snprintf (bufsz : Nat) (text : Str) : Str := text.take (bufsz - 1)

/-- `GASNETI_USE_DIV` in turn: the divisor and the unit. -/
def useDiv (val : Int) : List (Int × Str) → Int × Str
  | [] => (1, [])
  | (div, unit_str) :: units =>
    if 10 * div ≤ val ∨ div ≤ val ∧ val.tmod div = 0 then (div, unit_str) else useDiv val units

def units : List (Int × Str) :=
  [(2 ^ 40, [' ', 'T', 'B']), (2 ^ 30, [' ', 'G', 'B']), (2 ^ 20, [' ', 'M', 'B']), (2 ^ 10, [' ', 'K', 'B']),
    (1, [' ', 'B'])]

/-- `gasneti_format_number`. The arithmetic wraps, also where the most negative number is negated. -/
def gasneti_format_number (val : BitVec 64) (bufsz : Nat) (is_mem_size : Bool) : Str :=
  let neg := decide (val.toInt < 0)
  let v := if neg then -val else val
  if 2 ^ 50 ≤ v.toInt then snprintf bufsz ('0' :: 'x' :: hexadecimal (if neg then -v else v))
  else
    let (divisor, unit) := if is_mem_size then useDiv v.toInt units else (1, [])
    snprintf bufsz ((if neg then ['-'] else []) ++ decimal (v.toInt.tdiv divisor) ++ unit)

/-- `_gasneti_getenv_withdefault` for an integer: `retval` is what the variable has, if it is set. -/
def _gasneti_getenv_withdefault (fraction : Fraction) (retval : Option Str) (defaultval : Str) (val : BitVec 64) :
    Except String (BitVec 64) :=
  gasneti_parse_int fraction (some (retval.getD defaultval)) val

/-- `gasneti_getenv_int_withdefault`, where `debug` tells that assertions are checked. The multiplier goes
through an `int` on its way to `gasneti_format_number`. -/
def gasneti_getenv_int_withdefault (debug : Bool) (fraction : Fraction) (retval : Option Str)
    (defaultval mem_size_multiplier : BitVec 64) : Except String (BitVec 64) :=
  let defstr := gasneti_format_number defaultval 80 (mem_size_multiplier.setWidth 32 ≠ 0#32)
  match gasneti_parse_int fraction (some defstr) mem_size_multiplier with
  | .error message => .error message
  | .ok val =>
    if val ≠ defaultval then
      if debug ∧ mem_size_multiplier = 0 then .error "Assertion failure"
      else
        _gasneti_getenv_withdefault fraction retval (snprintf 80 (decimal defaultval.toInt ++ [' ', 'B']))
          mem_size_multiplier
    else _gasneti_getenv_withdefault fraction retval defstr mem_size_multiplier

/-! ### Digits -/

variable {base d n : Nat} {p rest : Str} {s : Number} {fraction : Fraction} {m val : BitVec 64}

/-- The characters of the digits are read as what they stand for. -/
theorem digit_read : ∀ d : Fin 16,
    isdigit (Nat.digitChar d) = decide (d.val < 10) ∧ (d.val < 10 → (Nat.digitChar d).toNat - 48 = d.val) ∧
      (10 ≤ d.val → isalpha (Nat.digitChar d) = true ∧ 10 + toupper (Nat.digitChar d) - 65 = d.val) ∧
      (d.val < 10 → belongs 10 (Nat.digitChar d) = true) ∧ belongs 16 (Nat.digitChar d) = true ∧
      isspace (Nat.digitChar d) = false ∧ toupper (Nat.digitChar d) ≠ 88 ∧
      Nat.digitChar d ≠ '+' ∧ Nat.digitChar d ≠ '-' := by
  decide

theorem scan_digit (hbase : base = 10 ∨ base = 16) (hd : d < base)
    (hroom : s.numbuf.length < GASNETI_NUMBUF_SZ) :
    scan base (Nat.digitChar d :: p) s =
      scan base p { s with
        val := s.val * BitVec.ofNat 64 base + BitVec.ofNat 64 d
        numbuf := s.numbuf ++ [Nat.digitChar d] } := by
  have hd16 : d < 16 := by omega
  obtain ⟨hdigit, hval, halpha, h10, h16, -⟩ := digit_read ⟨d, hd16⟩
  have hbelongs : belongs base (Nat.digitChar d) = true := by
    rcases hbase with rfl | rfl
    · exact h10 hd
    · exact h16
  rw [scan, if_pos ⟨hroom, hbelongs⟩]
  by_cases hten : d < 10
  · have hisdigit : isdigit (Nat.digitChar d) = true := hdigit.trans (decide_eq_true hten)
    rw [if_pos hisdigit, hval hten]
  · have hisdigit : isdigit (Nat.digitChar d) = false := hdigit.trans (decide_eq_false hten)
    obtain ⟨hletter, hletterval⟩ := halpha (Nat.le_of_not_lt hten)
    rw [if_neg (by rw [hisdigit]; exact Bool.false_ne_true), if_pos hletter, hletterval]

/-- Digits are read as the number that they stand for, modulo `2^64`. -/
theorem scan_toDigits (hbase : base = 10 ∨ base = 16) (n : Nat) (f : Bool) (p : Str)
    (hroom : (Nat.toDigits base n).length ≤ GASNETI_NUMBUF_SZ) :
    scan base (Nat.toDigits base n ++ p) ⟨0, f, []⟩ = scan base p ⟨BitVec.ofNat 64 n, f, Nat.toDigits base n⟩ := by
  have hone : 1 < base := by omega
  induction n using Nat.base_induction base hone generalizing p with
  | single n hn =>
    rw [Nat.toDigits_of_lt_base hn, List.singleton_append, scan_digit (s := ⟨0, f, []⟩) hbase hn (Nat.zero_lt_succ 79)]
    simp
  | digit n k hk hn ih =>
    rw [← Nat.toDigits_append_toDigits hone hn hk, Nat.toDigits_of_lt_base hk, List.length_append,
      List.length_singleton] at hroom
    rw [← Nat.toDigits_append_toDigits hone hn hk, Nat.toDigits_of_lt_base hk, List.append_assoc, ih _ (by omega),
      List.singleton_append, scan_digit hbase hk (by change (Nat.toDigits base n).length < _; omega)]
    congr 2
    rw [← BitVec.ofNat_mul, ← BitVec.ofNat_add, Nat.mul_comm]

/-- What the loop stops at. -/
def Stops (base : Nat) (rest : Str) : Prop := ∀ c ∈ rest.head?, belongs base c = false

theorem scan_stops (h : Stops base rest) (s : Number) : scan base rest s = some (s, rest) := by
  cases rest with
  | nil => rfl
  | cons c rest =>
    rw [scan, if_neg]
    rw [h c rfl]
    exact fun hand => Bool.false_ne_true hand.2

/-- The first digit of a number. -/
theorem toDigits_head (hone : 1 < base) (hbase : base ≤ 16) (n : Nat) :
    ∃ d : Fin 16, ∃ ds, Nat.toDigits base n = Nat.digitChar d :: ds ∧
      ∀ c ∈ ds.head?, ∃ d : Fin 16, c = Nat.digitChar d := by
  induction n using Nat.base_induction base hone with
  | single n hn => exact ⟨⟨n, by omega⟩, [], Nat.toDigits_of_lt_base hn, nofun⟩
  | digit n k hk hn ih =>
    obtain ⟨d, ds, hds, hhead⟩ := ih
    rw [← Nat.toDigits_append_toDigits hone hn hk, Nat.toDigits_of_lt_base hk, hds]
    refine ⟨d, ds ++ [Nat.digitChar k], rfl, ?_⟩
    cases ds with
    | nil =>
      intro c hc
      cases hc
      exact ⟨⟨k, by omega⟩, rfl⟩
    | cons c ds => exact hhead

/-- What stands behind a decimal number. -/
def Unit (rest : Str) : Prop := rest = [] ∨ ∃ u, rest = ' ' :: u

theorem Unit.stops (h : Unit rest) (base : Nat) : Stops base rest := by
  rcases h with rfl | ⟨u, rfl⟩
  · exact nofun
  · intro c hc
    cases hc
    rfl

/-- The multiplier that is used. -/
def used (rest : Str) (m : BitVec 64) : BitVec 64 := if m ≠ 0 then unitOf (rest.dropWhile isspace).head? m else 1

theorem baseOf_toDigits (n : Nat) (h : Unit rest) :
    baseOf (Nat.toDigits 10 n ++ rest) = (10, Nat.toDigits 10 n ++ rest) := by
  obtain ⟨d, ds, hds, hhead⟩ := toDigits_head (by decide : 1 < 10) (by decide) n
  rw [hds, List.cons_append]
  -- The second character is a digit or a space.
  have hsecond : ∀ c ∈ (ds ++ rest).head?, toupper c ≠ 88 := by
    cases ds with
    | nil =>
      rcases h with rfl | ⟨u, rfl⟩
      · exact nofun
      · intro c hc
        cases hc
        decide
    | cons c ds =>
      intro c' hc
      cases hc
      obtain ⟨d', rfl⟩ := hhead c rfl
      exact (digit_read d').2.2.2.2.2.2.1
  cases hrest : ds ++ rest with
  | nil => rfl
  | cons x p =>
    rw [hrest] at hsecond
    rw [baseOf, if_neg fun hand => hsecond x rfl hand.2]

theorem sign_digit (d : Fin 16) (p : Str) : sign (Nat.digitChar d :: p) = (false, Nat.digitChar d :: p) := by
  obtain ⟨-, -, -, -, -, -, -, hplus, hminus⟩ := digit_read d
  rw [sign, if_neg hplus, if_neg hminus]

/-- What a text is read as, by the steps of the parser. -/
theorem parse_of {neg : Bool} {text q r numbuf : Str} {v : BitVec 64} (fraction : Fraction) (m : BitVec 64)
    (hsign : sign text = (neg, q)) (hspace : q.dropWhile isspace = q) (hne : q ≠ []) (hbase : baseOf q = (base, r))
    (hscan : scan base r ⟨0, false, []⟩ = some (⟨v, false, numbuf⟩, rest)) :
    gasneti_parse_int fraction (some text) m = .ok (if neg then -(v * used rest m) else v * used rest m) := by
  rw [gasneti_parse_int]
  simp only [hsign, hspace, hne, if_false, hbase, hscan, Bool.false_eq_true]
  rfl

theorem dropWhile_digit (d : Fin 16) (p : Str) :
    (Nat.digitChar d :: p).dropWhile isspace = Nat.digitChar d :: p := by
  refine List.dropWhile_cons_of_neg ?_
  rw [(digit_read d).2.2.2.2.2.1]
  exact Bool.false_ne_true

/-- How a decimal number with a unit is read. -/
theorem parse_decimal (fraction : Fraction) (neg : Bool) (m : BitVec 64)
    (hn : (Nat.toDigits 10 n).length ≤ GASNETI_NUMBUF_SZ) (h : Unit rest) :
    gasneti_parse_int fraction (some ((if neg then ['-'] else []) ++ (Nat.toDigits 10 n ++ rest))) m =
      .ok (if neg then -(BitVec.ofNat 64 n * used rest m) else BitVec.ofNat 64 n * used rest m) := by
  obtain ⟨d, ds, hds, -⟩ := toDigits_head (by decide : 1 < 10) (by decide) n
  have hsign : sign ((if neg then ['-'] else []) ++ (Nat.toDigits 10 n ++ rest)) =
      (neg, Nat.toDigits 10 n ++ rest) := by
    cases neg with
    | true => rfl
    | false =>
      rw [hds]
      exact sign_digit d _
  have hspace : (Nat.toDigits 10 n ++ rest).dropWhile isspace = Nat.toDigits 10 n ++ rest := by
    rw [hds]
    exact dropWhile_digit d _
  have hne : Nat.toDigits 10 n ++ rest ≠ [] := by
    rw [hds]
    exact nofun
  have hscan := scan_toDigits (.inl rfl) n false rest hn
  rw [scan_stops (h.stops 10)] at hscan
  exact parse_of fraction m hsign hspace hne (baseOf_toDigits n h) hscan

/-- How a hexadecimal number is read. -/
theorem parse_hexadecimal (fraction : Fraction) (m : BitVec 64)
    (hn : (Nat.toDigits 16 n).length ≤ GASNETI_NUMBUF_SZ) :
    gasneti_parse_int fraction (some ('0' :: 'x' :: Nat.toDigits 16 n)) m =
      .ok (BitVec.ofNat 64 n * used [] m) := by
  have hscan := scan_toDigits (.inr rfl) n false [] hn
  rw [List.append_nil, scan] at hscan
  have hsign : sign ('0' :: 'x' :: Nat.toDigits 16 n) = (false, '0' :: 'x' :: Nat.toDigits 16 n) := rfl
  exact parse_of fraction m hsign rfl nofun rfl hscan

theorem used_zero (rest : Str) : used rest 0 = 1 := if_neg fun h => h rfl

/-! ### Printing -/

theorem length_decimal {k : Nat} (hk : 0 < k) (hn : n < 10 ^ k) : (Nat.toDigits 10 n).length ≤ k :=
  (Nat.length_toDigits_le_iff (by decide) hk).mpr hn

theorem snprintf_of_fits {bufsz : Nat} {text : Str} (h : text.length < bufsz) : snprintf bufsz text = text :=
  List.take_of_length_le (by omega)

/-- The magnitude that is printed. -/
def magnitude (val : BitVec 64) : BitVec 64 := if val.toInt < 0 then -val else val

/-- The sign and the magnitude of a number that is not the most negative one. -/
theorem magnitude_toInt (hval : val ≠ BitVec.intMin 64) : (magnitude val).toInt = val.toInt.natAbs := by
  rw [magnitude]
  split_ifs with hneg
  · rw [BitVec.toInt_neg_of_ne_intMin hval]
    omega
  · omega

theorem signed_magnitude (val : BitVec 64) :
    (if val.toInt < 0 then -magnitude val else magnitude val) = val := by
  rw [magnitude]
  split_ifs with hneg
  · exact BitVec.neg_neg
  · rfl

theorem ofNat_magnitude (hval : val ≠ BitVec.intMin 64) : BitVec.ofNat 64 val.toInt.natAbs = magnitude val := by
  rw [← BitVec.ofInt_natCast, ← magnitude_toInt hval, BitVec.ofInt_toInt]

theorem natAbs_lt (hval : val ≠ BitVec.intMin 64) : val.toInt.natAbs < 2 ^ 63 := by
  have hlt : (magnitude val).toInt < 2 ^ 63 := BitVec.toInt_lt
  rw [magnitude_toInt hval] at hlt
  omega

theorem decimal_natCast (n : Nat) : decimal n = Nat.toDigits 10 n := by
  rw [decimal, if_neg (by omega), Int.natAbs_natCast]

/-- A huge number is printed as hexadecimal digits of its bits. -/
theorem format_hexadecimal (hval : val ≠ BitVec.intMin 64) (hhuge : 2 ^ 50 ≤ val.toInt.natAbs) (is_mem_size : Bool) :
    gasneti_format_number val 80 is_mem_size = '0' :: 'x' :: Nat.toDigits 16 val.toNat := by
  have hv : (2 : Int) ^ 50 ≤ (magnitude val).toInt := by
    rw [magnitude_toInt hval]
    exact_mod_cast hhuge
  have hlen : (Nat.toDigits 16 val.toNat).length ≤ 16 := (Nat.length_toDigits_le_iff (by decide) (by decide)).mpr val.isLt
  have hsign := signed_magnitude val
  rw [gasneti_format_number]
  simp only [decide_eq_true_eq]
  rw [← magnitude, if_pos hv, hsign, hexadecimal, snprintf_of_fits]
  rw [List.length_cons, List.length_cons]
  omega

/-- Other numbers are printed as a multiple of the divisor. -/
theorem format_decimal (hval : val ≠ BitVec.intMin 64) (hsmall : val.toInt.natAbs < 2 ^ 50) (bufsz : Nat)
    (is_mem_size : Bool) :
    gasneti_format_number val bufsz is_mem_size =
      let (divisor, unit) := if is_mem_size then useDiv val.toInt.natAbs units else (1, [])
      snprintf bufsz ((if decide (val.toInt < 0) then ['-'] else []) ++
        (decimal ((val.toInt.natAbs : Int).tdiv divisor) ++ unit)) := by
  have hv : ¬(2 : Int) ^ 50 ≤ (magnitude val).toInt := by
    rw [magnitude_toInt hval]
    exact_mod_cast Nat.not_le.mpr hsmall
  rw [gasneti_format_number]
  simp only [decide_eq_true_eq]
  rw [← magnitude, if_neg hv, magnitude_toInt hval]
  simp only [List.append_assoc]

theorem signed_mul (val u : BitVec 64) :
    (if decide (val.toInt < 0) then -(magnitude val * u) else magnitude val * u) = val * u := by
  have hsign := signed_magnitude val
  by_cases hneg : val.toInt < 0
  · rw [if_pos hneg] at hsign
    rw [if_pos (decide_eq_true hneg), ← BitVec.neg_mul, hsign]
  · rw [if_neg hneg] at hsign
    rw [if_neg (by rw [decide_eq_false hneg]; exact Bool.false_ne_true), hsign]

theorem length_sign (neg : Bool) : (if neg then ['-'] else []).length ≤ 1 := by
  cases neg <;> decide

/-- What is printed without a unit is read as the number, times the multiplier. -/
theorem parse_format_plain (fraction : Fraction) (hval : val ≠ BitVec.intMin 64) (m : BitVec 64) :
    gasneti_parse_int fraction (some (gasneti_format_number val 80 false)) m = .ok (val * used [] m) := by
  by_cases hhuge : 2 ^ 50 ≤ val.toInt.natAbs
  · have hlen : (Nat.toDigits 16 val.toNat).length ≤ 16 :=
      (Nat.length_toDigits_le_iff (by decide) (by decide)).mpr val.isLt
    rw [format_hexadecimal hval hhuge, parse_hexadecimal fraction m (hlen.trans (by decide)), BitVec.ofNat_toNat,
      BitVec.setWidth_eq]
  · have hlen : (Nat.toDigits 10 val.toInt.natAbs).length ≤ 19 :=
      length_decimal (by decide) ((natAbs_lt hval).trans (by decide))
    have hsign := length_sign (decide (val.toInt < 0))
    have hparse := parse_decimal fraction (decide (val.toInt < 0)) m
      (hlen.trans (by decide : 19 ≤ GASNETI_NUMBUF_SZ)) (.inl rfl)
    rw [format_decimal hval (Nat.lt_of_not_le hhuge)]
    dsimp only [if_false, Bool.false_eq_true]
    rw [if_neg Bool.false_ne_true]
    dsimp only
    rw [Int.tdiv_one, decimal_natCast, snprintf_of_fits, hparse, ofNat_magnitude hval, signed_mul]
    rw [List.length_append, List.length_append, List.length_nil]
    omega

/-- The unit that is chosen for a memory size. -/
theorem useDiv_units {n : Nat} (hn : n < 2 ^ 50) :
    ∃ (k : Nat) (u : Str), useDiv n units = ((k : Int), u) ∧ 0 < k ∧ Unit u ∧ u.length ≤ 3 ∧ n / k < 10 ^ 5 ∧
      (n = 0 ∨ ∀ m : BitVec 64, m ≠ 0 → used u m = BitVec.ofNat 64 k) := by
  have hused : ∀ (u : Str) (k : Nat), (∀ m, unitOf (u.dropWhile isspace).head? m = BitVec.ofNat 64 k) →
      ∀ m : BitVec 64, m ≠ 0 → used u m = BitVec.ofNat 64 k := by
    intro u k hunit m hm
    rw [used, if_pos hm, hunit]
  simp only [units, useDiv]
  split_ifs with hT hG hM hK hB
  · exact ⟨2 ^ 40, _, rfl, by decide, .inr ⟨_, rfl⟩, by decide, by omega, .inr (hused _ _ fun _ => rfl)⟩
  · exact ⟨2 ^ 30, _, rfl, by decide, .inr ⟨_, rfl⟩, by decide, by omega, .inr (hused _ _ fun _ => rfl)⟩
  · exact ⟨2 ^ 20, _, rfl, by decide, .inr ⟨_, rfl⟩, by decide, by omega, .inr (hused _ _ fun _ => rfl)⟩
  · exact ⟨2 ^ 10, _, rfl, by decide, .inr ⟨_, rfl⟩, by decide, by omega, .inr (hused _ _ fun _ => rfl)⟩
  · exact ⟨1, _, rfl, by decide, .inr ⟨_, rfl⟩, by decide, by omega, .inr (hused _ _ fun _ => rfl)⟩
  · -- Every positive number is a multiple of a byte.
    have hzero : n = 0 := by
      by_contra hne
      exact hB (.inr ⟨by omega, Int.tmod_one _⟩)
    exact ⟨1, [], rfl, by decide, .inl rfl, by decide, by omega, .inl hzero⟩

/-- Truncation toward zero, by sign and magnitude. -/
theorem tdiv_mul (z : Int) (k : Nat) :
    z.tdiv k * k = if z < 0 then -((z.natAbs / k * k : Nat) : Int) else ((z.natAbs / k * k : Nat) : Int) := by
  rw [Int.natCast_mul, Int.ofNat_tdiv]
  split_ifs with hneg
  · have hz : z = -(z.natAbs : Int) := by omega
    rw [← Int.neg_mul, ← Int.neg_tdiv, ← hz]
  · have hz : (z.natAbs : Int) = z := by omega
    rw [hz]

/-- What is printed as a memory size is read as the multiple of its unit, for every multiplier. -/
theorem parse_format_mem (fraction : Fraction) (hsmall : val.toInt.natAbs < 2 ^ 50) (hm : m ≠ 0) {bufsz : Nat}
    (hbufsz : 10 ≤ bufsz) :
    gasneti_parse_int fraction (some (gasneti_format_number val bufsz true)) m =
      .ok (BitVec.ofInt 64 (val.toInt.tdiv (useDiv val.toInt.natAbs units).1 *
        (useDiv val.toInt.natAbs units).1)) := by
  have hval : val ≠ BitVec.intMin 64 := by
    rintro rfl
    exact absurd hsmall (by decide)
  obtain ⟨k, u, huse, hk, hunit, hu, hdigits, hread⟩ := useDiv_units hsmall
  have hlen : (Nat.toDigits 10 (val.toInt.natAbs / k)).length ≤ 5 := length_decimal (by decide) hdigits
  have hsign := length_sign (decide (val.toInt < 0))
  have hparse := parse_decimal fraction (decide (val.toInt < 0)) m
    (hlen.trans (by decide : 5 ≤ GASNETI_NUMBUF_SZ)) hunit
  rw [format_decimal hval hsmall]
  simp only [if_true, huse]
  rw [← Int.ofNat_tdiv, decimal_natCast, snprintf_of_fits, hparse, tdiv_mul]
  · have hmul : BitVec.ofNat 64 (val.toInt.natAbs / k) * used u m = BitVec.ofNat 64 (val.toInt.natAbs / k * k) := by
      rcases hread with hzero | hread
      · rw [hzero, Nat.zero_div, Nat.zero_mul]
        exact BitVec.zero_mul
      · rw [hread m hm, BitVec.ofNat_mul]
    rw [hmul]
    by_cases hneg : val.toInt < 0
    · rw [if_pos (decide_eq_true hneg), if_pos hneg, BitVec.ofInt_neg, BitVec.ofInt_natCast]
    · rw [if_neg (by rw [decide_eq_false hneg]; exact Bool.false_ne_true), if_neg hneg, BitVec.ofInt_natCast]
  · rw [List.length_append, List.length_append]
    omega

/-! ### Defaults -/

/-- The default in bytes, as it is printed where the first text does not give it back. -/
theorem parse_bytes (fraction : Fraction) (val m : BitVec 64) :
    gasneti_parse_int fraction (some (snprintf 80 (decimal val.toInt ++ [' ', 'B']))) m = .ok val := by
  have hle : val.toInt.natAbs ≤ 2 ^ 63 := by
    have hlt : val.toInt < 2 ^ 63 := BitVec.toInt_lt
    have hge : -(2 : Int) ^ 63 ≤ val.toInt := BitVec.le_toInt val
    omega
  have hlen : (Nat.toDigits 10 val.toInt.natAbs).length ≤ 19 :=
    length_decimal (by decide) (Nat.lt_of_le_of_lt hle (by decide))
  have hsign := length_sign (decide (val.toInt < 0))
  have hdecimal : decimal val.toInt =
      (if decide (val.toInt < 0) then ['-'] else []) ++ Nat.toDigits 10 val.toInt.natAbs := by
    rw [decimal]
    by_cases hneg : val.toInt < 0
    · rw [if_pos hneg, if_pos (decide_eq_true hneg)]
      rfl
    · rw [if_neg hneg, if_neg (by rw [decide_eq_false hneg]; exact Bool.false_ne_true)]
      rfl
  have hparse := parse_decimal fraction (decide (val.toInt < 0)) m
    (hlen.trans (by decide : 19 ≤ GASNETI_NUMBUF_SZ)) (.inr ⟨['B'], rfl⟩)
  have hused : used [' ', 'B'] m = 1#64 := by
    rw [used]
    split_ifs
    · rfl
    · rfl
  have hsigned : (if decide (val.toInt < 0) then -BitVec.ofNat 64 val.toInt.natAbs
      else BitVec.ofNat 64 val.toInt.natAbs) = val := by
    by_cases hneg : val.toInt < 0
    · have hz : -(val.toInt.natAbs : Int) = val.toInt := by omega
      rw [if_pos (decide_eq_true hneg), ← BitVec.ofInt_natCast, ← BitVec.ofInt_neg, hz, BitVec.ofInt_toInt]
    · have hz : (val.toInt.natAbs : Int) = val.toInt := by omega
      rw [if_neg (by rw [decide_eq_false hneg]; exact Bool.false_ne_true), ← BitVec.ofInt_natCast, hz,
        BitVec.ofInt_toInt]
  rw [hdecimal, List.append_assoc, snprintf_of_fits, hparse, hused, BitVec.mul_one, hsigned]
  rw [List.length_append, List.length_append]
  change _ + (_ + 2) < 80
  omega

/-- The most negative number keeps a sign of its own behind the one that is printed, where no digit is. -/
theorem parse_format_intMin (fraction : Fraction) (m : BitVec 64) (is_mem_size : Bool) :
    gasneti_parse_int fraction (some (gasneti_format_number (BitVec.intMin 64) 80 is_mem_size)) m = .ok 0 := by
  have hprinted : ∃ p, gasneti_format_number (BitVec.intMin 64) 80 is_mem_size = '-' :: '-' :: p := by
    cases is_mem_size <;> exact ⟨_, rfl⟩
  obtain ⟨p, hp⟩ := hprinted
  have hbase : baseOf ('-' :: p) = (10, '-' :: p) := by
    cases p with
    | nil => rfl
    | cons x p =>
      rw [baseOf, if_neg]
      exact fun hand => absurd hand.1 (by decide)
  have hstops : Stops 10 ('-' :: p) := by
    intro c hc
    cases hc
    rfl
  have hsign : sign ('-' :: '-' :: p) = (true, '-' :: p) := rfl
  have hparse := parse_of fraction m hsign rfl nofun hbase (scan_stops hstops ⟨0, false, []⟩)
  rw [hp, hparse]
  simp

/-- What the formatter prints is read as a number; for a plain integer as the one that was printed. -/
theorem parse_format (fraction : Fraction) (val m : BitVec 64) {is_mem_size : Bool}
    (hmem : is_mem_size = true → m ≠ 0) :
    ∃ v, gasneti_parse_int fraction (some (gasneti_format_number val 80 is_mem_size)) m = .ok v ∧
      (m = 0 → val ≠ BitVec.intMin 64 → v = val) := by
  by_cases hval : val = BitVec.intMin 64
  · subst hval
    exact ⟨0, parse_format_intMin fraction m is_mem_size, fun _ hne => absurd rfl hne⟩
  cases is_mem_size with
  | false =>
    refine ⟨_, parse_format_plain fraction hval m, ?_⟩
    rintro rfl -
    rw [used_zero]
    exact BitVec.mul_one val
  | true =>
    have hm := hmem rfl
    by_cases hhuge : 2 ^ 50 ≤ val.toInt.natAbs
    · have hlen : (Nat.toDigits 16 val.toNat).length ≤ 16 :=
        (Nat.length_toDigits_le_iff (by decide) (by decide)).mpr val.isLt
      have hparse := parse_hexadecimal fraction m (hlen.trans (by decide : 16 ≤ GASNETI_NUMBUF_SZ))
      rw [← format_hexadecimal hval hhuge true] at hparse
      exact ⟨_, hparse, fun hzero => absurd hzero hm⟩
    · exact ⟨_, parse_format_mem fraction (Nat.lt_of_not_le hhuge) hm (by decide), fun hzero => absurd hzero hm⟩

/-- A setting that is not in the environment has its default. -/
theorem getenv_default (debug : Bool) (fraction : Fraction) {defaultval : BitVec 64}
    (h : ¬(m = 0 ∧ defaultval = BitVec.intMin 64)) :
    gasneti_getenv_int_withdefault debug fraction none defaultval m = .ok defaultval := by
  have hmem : decide (m.setWidth 32 ≠ 0#32) = true → m ≠ 0 := by
    rintro htrue rfl
    exact absurd htrue (by decide)
  obtain ⟨v, hv, hplain⟩ := parse_format fraction defaultval m hmem
  rw [gasneti_getenv_int_withdefault, hv]
  dsimp only
  by_cases heq : v = defaultval
  · rw [if_neg (not_not_intro heq), ← heq]
    rw [← heq] at hv
    exact hv
  · -- Only a memory size is printed again, in bytes.
    have hm : ¬(debug ∧ m = 0) := by
      rintro ⟨-, hzero⟩
      exact heq (hplain hzero fun hmin => h ⟨hzero, hmin⟩)
    rw [if_pos heq, if_neg hm]
    exact parse_bytes fraction defaultval m

/-- A setting that is not in the environment has its default, whatever the multiplier; the first spelling of a
plain integer already gives it back; and a memory size is read, for every multiplier but zero, as what was
printed, truncated to a multiple of its unit. Plain integers leave out the most negative one. -/
theorem int_settings (fraction : Fraction) :
    (∀ debug : Bool, ∀ defaultval m : BitVec 64, ¬(m = 0 ∧ defaultval = BitVec.intMin 64) →
      gasneti_getenv_int_withdefault debug fraction none defaultval m = .ok defaultval) ∧
    (∀ defaultval : BitVec 64, defaultval ≠ BitVec.intMin 64 →
      gasneti_parse_int fraction (some (gasneti_format_number defaultval 80 false)) 0 = .ok defaultval) ∧
    ∀ val m : BitVec 64, val.toInt.natAbs < 2 ^ 50 → m ≠ 0 → ∀ bufsz, 10 ≤ bufsz →
      gasneti_parse_int fraction (some (gasneti_format_number val bufsz true)) m =
        .ok (BitVec.ofInt 64 (val.toInt.tdiv (useDiv val.toInt.natAbs units).1 *
          (useDiv val.toInt.natAbs units).1)) := by
  refine ⟨fun debug defaultval m h => getenv_default debug fraction h, ?_, ?_⟩
  · intro defaultval hne
    rw [parse_format_plain fraction hne, used_zero]
    exact congrArg Except.ok (BitVec.mul_one defaultval)
  · exact fun val m hsmall hm bufsz hbufsz => parse_format_mem fraction hsmall hm hbufsz

/-- A buffer size of 1536 KB, and the default of an integer. -/
theorem int_settings_example :
    gasneti_getenv_int_withdefault true (fun _ _ => 0) none 1572864 1048576 = .ok 1572864 ∧
    gasneti_parse_int (fun _ _ => 0) (some (gasneti_format_number (-7) 80 false)) 0 = .ok (-7) ∧
    gasneti_parse_int (fun _ _ => 0) (some (gasneti_format_number 1572865 80 true)) 1048576 =
      .ok (BitVec.ofInt 64 ((1572865 : BitVec 64).toInt.tdiv (useDiv (1572865 : BitVec 64).toInt.natAbs units).1 *
        (useDiv (1572865 : BitVec 64).toInt.natAbs units).1)) :=
  ⟨(int_settings fun _ _ => 0).1 true 1572864 1048576 (by decide),
    (int_settings fun _ _ => 0).2.1 (-7) (by decide),
    (int_settings fun _ _ => 0).2.2 1572865 1048576 (by decide) (by decide) 80 (by decide)⟩

/-- Without a multiplier the unit behind a number is not read: one kilobyte becomes one. And the most negative
number is printed with two signs. -/
theorem unit_ignored :
    gasneti_parse_int (fun _ _ => 0) (some (gasneti_format_number 1024 80 true)) 0 = .ok 1 ∧
    useDiv (1024 : BitVec 64).toInt.natAbs units = (1024, [' ', 'K', 'B']) ∧
    gasneti_parse_int (fun _ _ => 0) (some (gasneti_format_number (BitVec.intMin 64) 80 false)) 0 = .ok 0 ∧
    gasneti_getenv_int_withdefault true (fun _ _ => 0) none (BitVec.intMin 64) 0 = .error "Assertion failure" := by
  refine ⟨?_, by decide, parse_format_intMin _ 0 false, ?_⟩
  · have hprinted : gasneti_format_number 1024 80 true = ['1', ' ', 'K', 'B'] := by decide
    rw [hprinted]
    rfl
  · have hparse := parse_format_intMin (fun _ _ => 0) 0 false
    have hmem : decide ((0 : BitVec 64).setWidth 32 ≠ 0#32) = false := by decide
    rw [gasneti_getenv_int_withdefault, hmem, hparse]
    rfl

end Gasnet.IntSettings
