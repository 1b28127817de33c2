import Mathlib.Data.List.TakeWhile
import Gasnet.Ibv.ConnTable

/-! What a node reads of a connection table that the nodes have written. -/
namespace Gasnet.ConnTable

variable {base n me nodes : Nat} {s : Bytes} {t : Nat × Nat} {ts : List (Nat × Nat)} {r : Reader}

/-- A character that may come after a numeral. -/
def Delimiter (c : UInt8) : Prop := c = space ∨ c = newline ∨ c = minus

theorem Delimiter.not_isDigit {c : UInt8} (h : Delimiter c) (base : Nat) : isDigit base c = false := by
  rcases h with rfl | rfl | rfl <;> rfl

/-- A digit is none of the characters that the reader looks for. -/
theorem ne_of_mem_numeral (hbase : 1 < base) (hmax : base ≤ 36) {c : UInt8} (h : c ∈ numeral base n) :
    isspace c = false ∧ c ≠ 43 ∧ c ≠ minus ∧ c ≠ colon ∧ (base ≤ 16 → c ≠ 120 ∧ c ≠ 88) := by
  have hall : ∀ d < 36, isspace (digit d) = false ∧ digit d ≠ 43 ∧ digit d ≠ minus ∧ digit d ≠ colon ∧
      (d < 16 → digit d ≠ 120 ∧ digit d ≠ 88) := by decide
  obtain ⟨d, hd, rfl⟩ := of_mem_numeral hbase h
  obtain ⟨hspace, hplus, hminus, hcolon, hx⟩ := hall d (by omega)
  exact ⟨hspace, hplus, hminus, hcolon, fun h => hx (by omega)⟩

theorem skipPrefix_eq {x : UInt8} {s' : Bytes} (hx : base ≤ 16 → x ≠ 120 ∧ x ≠ 88) (c : UInt8) :
    skipPrefix base (c :: x :: s') = c :: x :: s' := by
  cases s' with
  | nil => rw [skipPrefix]; simp
  | cons y s' =>
    by_cases hc : c = 48
    · rw [hc, skipPrefix]
      apply if_neg
      rintro ⟨h16, rfl | rfl, -⟩
      · exact (hx (by omega)).1 rfl
      · exact (hx (by omega)).2 rfl
    · rw [skipPrefix]
      intro _ _ _ h
      exact hc (List.cons.inj h).1

/-- A numeral is read back, with what comes after it. -/
theorem strtoRank_numeral (hbase : 1 < base) (hmax : base ≤ 36) (hn : n < 2 ^ 16) {c : UInt8}
    (hc : Delimiter c) (s : Bytes) : strtoRank base (numeral base n ++ c :: s) = some (n, c :: s) := by
  have hspace : (numeral base n ++ c :: s).dropWhile isspace = numeral base n ++ c :: s := by
    cases h : numeral base n with
    | nil => exact absurd h (numeral_ne_nil base n)
    | cons x xs =>
      have hx := ne_of_mem_numeral hbase hmax (h ▸ List.mem_cons_self : x ∈ numeral base n)
      rw [List.cons_append, List.dropWhile_cons_of_neg (by rw [hx.1]; decide)]
  have hsign : sign (numeral base n ++ c :: s) = (1, numeral base n ++ c :: s) := by
    cases h : numeral base n with
    | nil => exact absurd h (numeral_ne_nil base n)
    | cons x xs =>
      have hx := ne_of_mem_numeral hbase hmax (h ▸ List.mem_cons_self : x ∈ numeral base n)
      rw [List.cons_append, sign]
      · simpa using hx.2.1
      · simpa using hx.2.2.1
  have hskip : skipPrefix base (numeral base n ++ c :: s) = numeral base n ++ c :: s := by
    cases h : numeral base n with
    | nil => exact absurd h (numeral_ne_nil base n)
    | cons x xs =>
      cases xs with
      | nil =>
        apply skipPrefix_eq
        intro _
        rcases hc with rfl | rfl | rfl <;> decide
      | cons y ys =>
        have hmem : y ∈ numeral base n := by
          rw [h]
          exact List.mem_cons_of_mem _ List.mem_cons_self
        exact skipPrefix_eq (ne_of_mem_numeral hbase hmax hmem).2.2.2.2 x
  have htake : (numeral base n ++ c :: s).takeWhile (isDigit base) = numeral base n := by
    rw [List.takeWhile_append_of_pos fun x hx => isDigit_of_mem_numeral hbase hmax hx,
      List.takeWhile_cons_of_neg (by rw [hc.not_isDigit]; decide), List.append_nil]
  rw [strtoRank, strtol, hspace, hsign]
  dsimp only
  rw [hskip, htake, if_neg (numeral_ne_nil base n), List.drop_left, value_numeral hbase hmax,
    Option.map_some]
  congr 2
  omega

/-- The text of a token. -/
def tokText (base : Nat) (t : Nat × Nat) : Bytes :=
  numeral base t.1 ++ if t.2 = t.1 then [] else minus :: numeral base t.2

/-- The text after a token. -/
def after (base : Nat) (ts : List (Nat × Nat)) : Bytes :=
  (ts.flatMap fun t => space :: tokText base t) ++ [newline]

/-- The text of the tokens of a line. -/
def lineText (base : Nat) : List (Nat × Nat) → Bytes
  | [] => []
  | t :: ts => tokText base t ++ after base ts

/-- Ranges within the ranks. -/
def InRange (t : Nat × Nat) : Prop := t.1 ≤ t.2 ∧ t.2 < maxNodes

theorem after_eq (base : Nat) (ts : List (Nat × Nat)) :
    ∃ c s, (c = space ∨ c = newline) ∧ after base ts = c :: s := by
  cases ts with
  | nil => exact ⟨newline, [], Or.inr rfl, rfl⟩
  | cons t ts => exact ⟨space, _, Or.inl rfl, rfl⟩

theorem parseToken_tokText (hbase : 1 < base) (hmax : base ≤ 36) (ht : InRange t)
    (ts : List (Nat × Nat)) : parseToken base (tokText base t ++ after base ts) = some t := by
  obtain ⟨lo, hi⟩ := t
  obtain ⟨hle, hlt⟩ := ht
  rw [maxNodes] at hlt
  dsimp only at hle hlt
  obtain ⟨c, s, hc, hafter⟩ := after_eq base ts
  have hdelim : Delimiter c := hc.imp_right Or.inl
  rw [hafter, parseToken, tokText]
  dsimp only
  by_cases heq : hi = lo
  · rw [if_pos heq, List.append_nil, strtoRank_numeral hbase hmax (by omega) hdelim, heq]
    rcases hc with rfl | rfl <;> rfl
  · rw [if_neg heq, List.append_assoc, List.cons_append,
      strtoRank_numeral hbase hmax (by omega) (Or.inr (Or.inr rfl))]
    show (strtoRank base (numeral base hi ++ c :: s)).map (fun hi => (lo, hi.1)) = _
    rw [strtoRank_numeral hbase hmax (by omega) hdelim]
    rfl

theorem not_isspace_of_mem_tokText (hbase : 1 < base) (hmax : base ≤ 36) {c : UInt8}
    (h : c ∈ tokText base t) : isspace c = false := by
  rw [tokText] at h
  rcases List.mem_append.1 h with h | h
  · exact (ne_of_mem_numeral hbase hmax h).1
  · split at h
    · cases h
    · rcases List.mem_cons.1 h with rfl | h
      · rfl
      · exact (ne_of_mem_numeral hbase hmax h).1

theorem tokText_ne_nil (base : Nat) (t : Nat × Nat) : tokText base t ≠ [] :=
  fun h => numeral_ne_nil base t.1 (List.append_eq_nil_iff.1 h).1

theorem dropWhile_lineText (hbase : 1 < base) (hmax : base ≤ 36) (ts : List (Nat × Nat)) :
    (lineText base ts).dropWhile isspace = lineText base ts := by
  cases ts with
  | nil => rfl
  | cons t ts =>
    rw [lineText]
    cases h : tokText base t with
    | nil => exact absurd h (tokText_ne_nil base t)
    | cons c s =>
      have hc := not_isspace_of_mem_tokText hbase hmax (h ▸ List.mem_cons_self : c ∈ tokText base t)
      rw [List.cons_append, List.dropWhile_cons_of_neg (by rw [hc]; decide)]

/-- The step to the next token. -/
theorem next_lineText (hbase : 1 < base) (hmax : base ≤ 36) (t : Nat × Nat) (ts : List (Nat × Nat)) :
    ((tokText base t ++ after base ts).dropWhile fun c => !isspace c).dropWhile isspace =
      lineText base ts := by
  have hskip : (tokText base t ++ after base ts).dropWhile (fun c => !isspace c) = after base ts := by
    rw [List.dropWhile_append_of_pos fun c hc => by rw [not_isspace_of_mem_tokText hbase hmax hc]; rfl]
    obtain ⟨c, s, hc, hafter⟩ := after_eq base ts
    rw [hafter, List.dropWhile_cons_of_neg]
    rcases hc with rfl | rfl <;> decide
  rw [hskip]
  cases ts with
  | nil => rfl
  | cons t ts =>
    have hline := dropWhile_lineText hbase hmax (t :: ts)
    rw [after, List.flatMap_cons, List.cons_append, List.cons_append, List.dropWhile_cons_of_pos rfl,
      List.append_assoc]
    exact hline

/-! The peers in a line. -/

/-- The peers of a token. -/
def expand (t : Nat × Nat) : List Nat := List.range' t.1 (t.2 + 1 - t.1)

theorem Returns.congr {r r' : Reader} (h : getNextConn nodes me r = getNextConn nodes me r') {ns : List Nat}
    (hr : Returns nodes me r' ns) : Returns nodes me r ns := by
  cases ns with
  | nil => exact h.trans hr
  | cons n ns =>
    obtain ⟨hn, r'', hnext, hothers⟩ := hr
    exact ⟨hn, r'', h.trans hnext, hothers⟩

/-- The calls determine what they return. -/
theorem Returns.unique {ns ns' : List Nat} (h : Returns nodes me r ns) (h' : Returns nodes me r ns') :
    ns = ns' := by
  induction ns generalizing r ns' with
  | nil =>
    cases ns' with
    | nil => rfl
    | cons n' ns' =>
      obtain ⟨-, r', hnext, -⟩ := h'
      rw [h] at hnext
      cases hnext
  | cons n ns ih =>
    obtain ⟨-, r', hnext, hothers⟩ := h
    cases ns' with
    | nil =>
      rw [h'] at hnext
      cases hnext
    | cons n' ns' =>
      obtain ⟨-, r'', hnext', hothers'⟩ := h'
      rw [hnext] at hnext'
      cases hnext'
      rw [ih hothers hothers']

/-- What the reader returns after a range returns from within it too. -/
theorem returns_range {ns : List Nat} {hi : Nat} (hhi : hi < maxNodes) {r : Reader}
    (h : ∀ lo > hi, Returns nodes me { r with range_lo := lo, range_hi := hi } ns) (k : Nat) {lo : Nat}
    (hlo : lo + k = hi + 1) :
    Returns nodes me { r with range_lo := lo, range_hi := hi } (List.range' lo k ++ ns) := by
  induction k generalizing lo with
  | zero => exact h lo (by omega)
  | succ k ih =>
    rw [maxNodes] at hhi
    refine ⟨?_, _, ?_, ih (by omega)⟩
    · rw [maxNodes]
      omega
    · rw [getNextConn, if_neg (by dsimp only; omega)]
      dsimp only
      rw [Nat.mod_eq_of_lt (by omega)]

/-- The tokens that are left of a line return their peers. -/
theorem returns_tokens (hbase : 1 < r.in_base) (hmax : r.in_base ≤ 36) {ns : List Nat}
    (h : ∀ lo hi, lo > hi → Returns nodes me { r with tok := [], range_lo := lo, range_hi := hi } ns)
    {ts : List (Nat × Nat)} (hts : ∀ t ∈ ts, InRange t) {lo hi : Nat} (hlo : lo > hi) :
    Returns nodes me { r with tok := lineText r.in_base ts, range_lo := lo, range_hi := hi }
      (ts.flatMap expand ++ ns) := by
  induction ts generalizing lo hi with
  | nil => exact h lo hi hlo
  | cons t ts ih =>
    have ht := hts t List.mem_cons_self
    have hlt := ht.2
    rw [maxNodes] at hlt
    have hle := ht.1
    have hothers : ∀ lo > t.2, Returns nodes me
        { r with tok := lineText r.in_base ts, range_lo := lo, range_hi := t.2 } (ts.flatMap expand ++ ns) :=
      fun lo hlo => ih (fun t ht => hts t (List.mem_cons_of_mem _ ht)) hlo
    have hrange := @returns_range _ _ _ _ ht.2 { r with tok := lineText r.in_base ts } hothers (t.2 - t.1)
      (t.1 + 1) (by omega)
    have hexpand : expand t = t.1 :: List.range' (t.1 + 1) (t.2 - t.1) := by
      rw [expand, Nat.sub_add_comm hle, List.range'_succ]
    have htok : lineText r.in_base (t :: ts) ≠ [] :=
      fun h => tokText_ne_nil _ _ (List.append_eq_nil_iff.1 h).1
    rw [List.flatMap_cons, hexpand, List.append_assoc, List.cons_append]
    refine ⟨?_, _, ?_, hrange⟩
    · rw [maxNodes]
      omega
    · rw [getNextConn, if_pos hlo, nextToken, if_pos htok]
      dsimp only
      rw [lineText, parseToken_tokText hbase hmax ht, next_lineText hbase hmax]
      dsimp only
      rw [Nat.mod_eq_of_lt (by omega)]

/-! The lines of a file. -/

theorem takeWhile_numeral (hbase : 1 < base) (hmax : base ≤ 36) (n : Nat) (s : Bytes) :
    (numeral base n ++ colon :: s).takeWhile (· ≠ colon) = numeral base n := by
  rw [List.takeWhile_append_of_pos, List.takeWhile_cons_of_neg (by decide), List.append_nil]
  intro c hc
  exact decide_eq_true (ne_of_mem_numeral hbase hmax hc).2.2.2.1

/-- No line has the tag of another node. -/
theorem eq_of_tag_begins (hbase : 1 < base) (hmax : base ≤ 36) (h : tagOf base me <+: tagOf base n ++ s) :
    me = n := by
  obtain ⟨s', h⟩ := h
  rw [tagOf, tagOf, List.append_assoc, List.append_assoc] at h
  have hnum := congrArg (List.takeWhile (· ≠ colon)) h
  rw [List.singleton_append, List.singleton_append, takeWhile_numeral hbase hmax,
    takeWhile_numeral hbase hmax] at hnum
  rw [← value_numeral hbase hmax me, hnum, value_numeral hbase hmax]

/-- A numeral of four digits, the first of which is 11 or more, in a base above 28 is of no rank. -/
theorem value_four {a b c d : Nat} (ha : 11 ≤ a) (hbase : 29 ≤ base) :
    2 ^ 16 ≤ ((a * base + b) * base + c) * base + d := by
  have h2 : 11 * 29 ≤ a * base := Nat.mul_le_mul ha hbase
  have h3 : 11 * 29 * 29 ≤ (a * base + b) * base := Nat.mul_le_mul (by omega) hbase
  have h4 : 11 * 29 * 29 * 29 ≤ ((a * base + b) * base + c) * base := Nat.mul_le_mul (by omega) hbase
  omega

theorem lt_of_isDigit {c : UInt8} {v : Nat} (hc : digitVal c = some v) (h : isDigit base c = true) :
    v < base := by
  rw [isDigit, hc] at h
  exact of_decide_eq_true h

/-- No tag is a word of the header. -/
theorem not_header (hbase : 1 < base) (hmax : base ≤ 36) (hn : n < 2 ^ 16) (s : Bytes) :
    ¬ sizeKey <+: tagOf base n ++ s ∧ ¬ baseKey <+: tagOf base n ++ s := by
  have hword : ∀ w s', (∀ c ∈ w, c ≠ colon) → w ++ [colon] ++ s' = tagOf base n ++ s → w = numeral base n := by
    intro w s' hw h
    have hnum := congrArg (List.takeWhile (· ≠ colon)) h
    rw [tagOf, List.append_assoc, List.append_assoc, List.singleton_append, List.singleton_append,
      takeWhile_numeral hbase hmax, List.takeWhile_append_of_pos fun c hc => decide_eq_true (hw c hc),
      List.takeWhile_cons_of_neg (by decide), List.append_nil] at hnum
    exact hnum
  constructor
  · rintro ⟨s', h⟩
    have hnum := hword [115, 105, 122, 101] s' (by simp [colon]) h
    have hdigit := isDigit_of_mem_numeral hbase hmax (hnum ▸ List.mem_cons_self : (115 : UInt8) ∈ _)
    have hlt : 28 < base := lt_of_isDigit (v := 28) rfl hdigit
    have hvalue : value base [115, 105, 122, 101] = ((28 * base + 18) * base + 35) * base + 14 := by
      change (((0 * base + 28) * base + 18) * base + 35) * base + 14 = _
      rw [Nat.zero_mul, Nat.zero_add]
    have hbig := @value_four base 28 18 35 14 (by decide) hlt
    rw [hnum, value_numeral hbase hmax] at hvalue
    omega
  · rintro ⟨s', h⟩
    have hnum := hword [98, 97, 115, 101] s' (by simp [colon]) h
    have hmem : (115 : UInt8) ∈ numeral base n := by
      rw [← hnum]
      decide
    have hlt : 28 < base := lt_of_isDigit (v := 28) rfl (isDigit_of_mem_numeral hbase hmax hmem)
    have hvalue : value base [98, 97, 115, 101] = ((11 * base + 10) * base + 28) * base + 14 := by
      change (((0 * base + 11) * base + 10) * base + 28) * base + 14 = _
      rw [Nat.zero_mul, Nat.zero_add]
    have hbig := @value_four base 11 10 28 14 (by decide) hlt
    rw [hnum, value_numeral hbase hmax] at hvalue
    omega

/-- A line of a node. -/
def bodyLine (base : Nat) (e : Nat × List (Nat × Nat)) : Bytes := tagOf base e.1 ++ lineText base e.2

theorem headerLine_bodyLine (nodes me : Nat) (hbase : 1 < base) (hmax : base ≤ 36)
    {e : Nat × List (Nat × Nat)} (he : e.1 < 2 ^ 16) (is_header : Bool) (in_base : Nat) (tag : Bytes) :
    headerLine nodes me is_header in_base tag (bodyLine base e) =
      some (false, in_base, tag, bodyLine base e) := by
  obtain ⟨hsize, hkey⟩ := not_header hbase hmax he (lineText base e.2)
  rw [headerLine, bodyLine, if_neg fun h => hsize h.2, if_neg fun h => hkey h.2]

theorem lineText_ne_nil (base : Nat) {ts : List (Nat × Nat)} (h : ts ≠ []) : lineText base ts ≠ [] := by
  cases ts with
  | nil => exact absurd rfl h
  | cons t ts => exact fun h => tokText_ne_nil _ _ (List.append_eq_nil_iff.1 h).1

theorem findLine_own (nodes : Nat) (hbase : 1 < base) (hmax : base ≤ 36) {e : Nat × List (Nat × Nat)} (he : e.1 < 2 ^ 16)
    (hts : e.2 ≠ []) (hme : e.1 = me) (lines : List Bytes) (is_header : Bool) :
    findLine nodes me (bodyLine base e :: lines) is_header base (tagOf base me) =
      .found (lines, false, base, tagOf base me, lineText base e.2) := by
  have htext : (lineText base e.2).dropWhile isspace = lineText base e.2 := dropWhile_lineText hbase hmax e.2
  rw [findLine, headerLine_bodyLine nodes me hbase hmax he]
  dsimp only
  rw [bodyLine, hme, List.drop_left, htext,
    if_pos ⟨List.prefix_append _ _, lineText_ne_nil base hts⟩]

theorem findLine_other (hbase : 1 < base) (hmax : base ≤ 36) {e : Nat × List (Nat × Nat)} (he : e.1 < 2 ^ 16)
    (hme : e.1 ≠ me) (lines : List Bytes) (is_header : Bool) :
    findLine nodes me (bodyLine base e :: lines) is_header base (tagOf base me) =
      findLine nodes me lines false base (tagOf base me) := by
  rw [findLine, headerLine_bodyLine nodes me hbase hmax he]
  dsimp only
  rw [if_neg]
  rintro ⟨htag, -⟩
  exact hme (eq_of_tag_begins hbase hmax htag).symm

/-- Where there is no token, what is found in the lines decides. -/
theorem getNextConn_congr {lines lines' : List Bytes} {is_header is_header' : Bool} {in_base in_base' : Nat}
    {tag tag' : Bytes} {lo hi : Nat} (hlo : lo > hi)
    (h : findLine nodes me lines is_header in_base tag = findLine nodes me lines' is_header' in_base' tag') :
    getNextConn nodes me ⟨lines, is_header, in_base, tag, [], lo, hi⟩ =
      getNextConn nodes me ⟨lines', is_header', in_base', tag', [], lo, hi⟩ := by
  rw [getNextConn, getNextConn, if_pos hlo, if_pos hlo, nextToken, nextToken, if_neg (by simp),
    if_neg (by simp), h]

/-- A node reads the peers of its own lines, in their order. -/
theorem returns_body (nodes me : Nat) (hbase : 1 < base) (hmax : base ≤ 36) {body : List (Nat × List (Nat × Nat))}
    (hbody : ∀ e ∈ body, e.1 < 2 ^ 16 ∧ e.2 ≠ [] ∧ ∀ t ∈ e.2, InRange t) (is_header : Bool) {lo hi : Nat}
    (hlo : lo > hi) :
    Returns nodes me ⟨body.map (bodyLine base), is_header, base, tagOf base me, [], lo, hi⟩
      ((body.filter fun e => e.1 = me).flatMap fun e => e.2.flatMap expand) := by
  induction body generalizing is_header lo hi with
  | nil =>
    show getNextConn nodes me _ = .done
    rw [getNextConn, if_pos hlo]
    rfl
  | cons e body ih =>
    obtain ⟨hn, hne, hts⟩ := hbody e List.mem_cons_self
    have hothers : ∀ lo hi, lo > hi → Returns nodes me
        ⟨body.map (bodyLine base), false, base, tagOf base me, [], lo, hi⟩
        ((body.filter fun e => e.1 = me).flatMap fun e => e.2.flatMap expand) :=
      fun _ _ hlo => ih (fun e he => hbody e (List.mem_cons_of_mem _ he)) false hlo
    by_cases hme : e.1 = me
    · rw [List.filter_cons_of_pos (by simpa using hme), List.flatMap_cons]
      have htokens := returns_tokens (r := ⟨body.map (bodyLine base), false, base, tagOf base me, [],
        lo, hi⟩) hbase hmax hothers hts hlo
      refine Returns.congr ?_ htokens
      have hfind := findLine_own nodes hbase hmax hn hne hme (body.map (bodyLine base)) is_header
      rw [List.map_cons, getNextConn, getNextConn, if_pos hlo, if_pos hlo, nextToken, nextToken,
        if_neg (by simp), if_pos (lineText_ne_nil base hne), hfind]
    · rw [List.filter_cons_of_neg (by simpa using hme)]
      exact Returns.congr (getNextConn_congr hlo (findLine_other hbase hmax hn hme _ _)) (hothers lo hi hlo)

/-- The head of the file sets the base, and the tag in this base. -/
theorem findLine_header {j : Job} (hj : j.Valid) (hme : me < 2 ^ 16) (lines : List Bytes) :
    findLine j.nodes me (j.header ++ lines) true 10 (numeral 16 me ++ [colon]) =
      findLine j.nodes me lines true j.base (tagOf j.base me) := by
  have hmax := hj.nodes_le
  have hbase := hj.base_le
  rw [maxNodes] at hmax
  have hsize : headerLine j.nodes me true 10 (numeral 16 me ++ [colon])
      (sizeKey ++ numeral 10 j.nodes ++ [newline]) =
        some (true, 10, numeral 16 me ++ [colon], [newline]) := by
    rw [headerLine, List.append_assoc, if_pos ⟨rfl, List.prefix_append _ _⟩]
    have hdrop : (sizeKey ++ (numeral 10 j.nodes ++ [newline])).drop 5 =
        numeral 10 j.nodes ++ [newline] := rfl
    rw [hdrop, strtoRank_numeral (by decide) (by decide) (by omega) (Or.inr (Or.inl rfl))]
    exact if_pos rfl
  have hkey : headerLine j.nodes me true 10 (numeral 16 me ++ [colon])
      (baseKey ++ numeral 10 j.base ++ [newline]) = some (true, j.base, tagOf j.base me, [newline]) := by
    have hno : ¬ sizeKey <+: baseKey ++ (numeral 10 j.base ++ [newline]) := by
      rintro ⟨s, hs⟩
      cases hs
    rw [headerLine, List.append_assoc, if_neg fun h => hno h.2, if_pos ⟨rfl, List.prefix_append _ _⟩]
    have hdrop : (baseKey ++ (numeral 10 j.base ++ [newline])).drop 5 =
        numeral 10 j.base ++ [newline] := rfl
    rw [hdrop, strtoRank_numeral (by decide) (by decide) (by omega) (Or.inr (Or.inl rfl))]
    dsimp only
    rw [genTag_eq hj.lt_base (by decide) hme]
  have hskip : ∀ tag : Bytes, ¬ (tag ++ [colon] <+: [newline] ∧
      ((([newline] : Bytes).drop (tag ++ [colon]).length).dropWhile isspace ≠ [])) := by
    rintro tag ⟨-, h⟩
    apply h
    rw [List.length_append, List.drop_of_length_le (by simp)]
    rfl
  rw [Job.header, List.cons_append, List.cons_append, List.nil_append, findLine, hsize]
  dsimp only
  rw [if_neg (hskip _), findLine, hkey]
  dsimp only
  rw [tagOf, if_neg (hskip _)]

/-! A line as it is written. -/

/-- The tokens of a run. A run of two peers is written as two peers. -/
def tokensOf (r : Nat × Nat) : List (Nat × Nat) :=
  if r.2 = r.1 + 1 then [(r.1, r.1), (r.2, r.2)] else [r]

def tokens (ns : List Nat) : List (Nat × Nat) := (runs ns).flatMap tokensOf

theorem runText_eq (base : Nat) {r : Nat × Nat} (hr : r.1 ≤ r.2) :
    runText base r = (tokensOf r).flatMap fun t => space :: tokText base t := by
  obtain ⟨lo, hi⟩ := r
  dsimp only at hr
  rw [tokensOf, runText]
  dsimp only
  by_cases heq : hi = lo
  · rw [if_pos heq, if_neg (by omega), heq]
    simp [tokText]
  · rw [if_neg heq]
    by_cases htwo : hi = lo + 1
    · rw [if_pos htwo, if_neg (by omega)]
      simp [tokText]
    · rw [if_neg htwo, if_pos (by omega)]
      simp [tokText, heq]

/-- Runs are from the lower to the upper peer, and hold the peers. -/
theorem expand_runsFrom {ns : List Nat} {first prev : Nat} (h : first ≤ prev) :
    (∀ r ∈ runsFrom first prev ns, r.1 ≤ r.2) ∧
      (runsFrom first prev ns).flatMap expand = List.range' first (prev + 1 - first) ++ ns := by
  induction ns generalizing first prev with
  | nil =>
    rw [runsFrom, List.append_nil]
    constructor
    · intro r hr
      rw [List.mem_singleton.1 hr]
      exact h
    · rw [List.flatMap_singleton, expand]
  | cons n ns ih =>
    rw [runsFrom]
    split
    · rename_i hn
      obtain ⟨hle, hexpand⟩ := @ih first n (by omega)
      refine ⟨hle, hexpand.trans ?_⟩
      rw [hn, Nat.sub_add_comm (by omega), List.range'_concat, List.append_assoc, List.singleton_append]
      congr 2
      omega
    · obtain ⟨hle, hexpand⟩ := ih (Nat.le_refl n)
      refine ⟨List.forall_mem_cons.2 ⟨h, hle⟩, ?_⟩
      rw [List.flatMap_cons, hexpand, expand, Nat.add_sub_cancel_left]
      rfl

theorem expand_runs (ns : List Nat) :
    (∀ r ∈ runs ns, r.1 ≤ r.2) ∧ (runs ns).flatMap expand = ns := by
  cases ns with
  | nil => exact ⟨by simp [runs], rfl⟩
  | cons n ns =>
    obtain ⟨hle, hexpand⟩ := @expand_runsFrom ns n n (Nat.le_refl n)
    refine ⟨hle, hexpand.trans ?_⟩
    rw [Nat.add_sub_cancel_left]
    rfl

theorem expand_tokensOf {r : Nat × Nat} : (tokensOf r).flatMap expand = expand r := by
  obtain ⟨lo, hi⟩ := r
  rw [tokensOf]
  split
  · rename_i heq
    dsimp only at heq
    rw [heq]
    have htwo : lo + 1 + 1 - lo = 2 := by omega
    simp [expand, htwo, List.range'_succ]
  · exact List.flatMap_singleton ..

theorem expand_tokens (ns : List Nat) : (tokens ns).flatMap expand = ns := by
  rw [tokens, List.flatMap_assoc]
  simp only [expand_tokensOf]
  exact (expand_runs ns).2

theorem tokens_cons_ne_nil (n : Nat) (ns : List Nat) : tokens (n :: ns) ≠ [] := by
  intro h
  have hexpand := expand_tokens (n :: ns)
  rw [h] at hexpand
  cases hexpand

theorem inRange_of_mem_tokens {ns : List Nat} (h : ∀ n ∈ ns, n < maxNodes) : ∀ t ∈ tokens ns, InRange t := by
  intro t ht
  obtain ⟨r, hr, ht⟩ := List.mem_flatMap.1 ht
  obtain ⟨hlo, hhi⟩ := of_mem_runs h r hr
  have hle := (expand_runs ns).1 r hr
  rw [tokensOf] at ht
  split at ht
  · rcases List.mem_cons.1 ht with rfl | ht
    · exact ⟨Nat.le_refl _, hlo⟩
    · rw [List.mem_singleton.1 ht]
      exact ⟨Nat.le_refl _, hhi⟩
  · rw [List.mem_singleton.1 ht]
    exact ⟨hle, hhi⟩

theorem drop_text (base n : Nat) (ns : List Nat) :
    (text base (n :: ns)).drop 1 ++ [newline] = lineText base (tokens (n :: ns)) := by
  have htext : text base (n :: ns) = (tokens (n :: ns)).flatMap fun t => space :: tokText base t := by
    rw [text, tokens, List.flatMap_assoc]
    apply List.flatMap_congr
    intro r hr
    exact runText_eq base ((expand_runs (n :: ns)).1 r hr)
  rw [htext]
  cases h : tokens (n :: ns) with
  | nil => exact absurd h (tokens_cons_ne_nil n ns)
  | cons t ts =>
    rw [List.flatMap_cons, List.cons_append, List.drop_one, List.tail_cons, List.append_assoc]
    rfl

namespace Job

variable {j : Job}

/-- The tokens of the line of a node. -/
def ownTokens (j : Job) (me : Nat) : List (Nat × Nat) := tokens (j.peers me)

theorem written_tokens (hj : j.Valid) (hme : me < j.nodes) {lines : List Bytes}
    (h : j.written me = some lines) :
    lines = if j.peers me = [] then [] else [bodyLine j.base (me, j.ownTokens me)] := by
  rw [written_eq hj hme] at h
  split at h
  · rename_i hpeers
    rw [if_pos hpeers]
    exact (Option.some.inj h).symm
  · rename_i hpeers
    rw [if_neg hpeers]
    split at h
    · rw [← Option.some.inj h, ownTokens, bodyLine]
      cases hp : j.peers me with
      | nil => exact absurd hp hpeers
      | cons n ns => rw [← drop_text, List.append_assoc]
    · cases h

theorem mem_peers {n : Nat} : n ∈ j.peers me ↔ n < j.nodes ∧ j.scanned me n = true := by
  rw [peers, List.mem_filter, List.mem_range]

/-- Each node reads the peers that it has written. -/
theorem returns_peers (hj : j.Valid) {body : List (Nat × Bytes)} (hbody : j.Interleaved body)
    (hme : me < j.nodes) :
    Returns j.nodes me (.start me (j.header ++ body.map Prod.snd)) (j.peers me) := by
  have hmax := hj.nodes_le
  rw [maxNodes] at hmax
  have hline : ∀ e ∈ body, e.2 = bodyLine j.base (e.1, j.ownTokens e.1) ∧ j.peers e.1 ≠ [] := by
    intro e he
    have hlines := written_tokens hj (hbody.1 e he) (hbody.2 e.1 (hbody.1 e he))
    have hmem : e.2 ∈ (body.filter fun e' => e'.1 = e.1).map Prod.snd :=
      List.mem_map_of_mem (List.mem_filter.2 ⟨he, by simp⟩)
    rw [hlines] at hmem
    split at hmem
    · cases hmem
    · rename_i hpeers
      exact ⟨List.mem_singleton.1 hmem, hpeers⟩
  have hmap : body.map Prod.snd = (body.map fun e => (e.1, j.ownTokens e.1)).map (bodyLine j.base) := by
    rw [List.map_map]
    exact List.map_congr_left fun e he => (hline e he).1
  have hgood : ∀ e ∈ body.map fun e => (e.1, j.ownTokens e.1), e.1 < 2 ^ 16 ∧ e.2 ≠ [] ∧
      ∀ t ∈ e.2, InRange t := by
    intro e' he'
    obtain ⟨e, he, rfl⟩ := List.mem_map.1 he'
    have hlt := hbody.1 e he
    refine ⟨by dsimp only; omega, ?_, inRange_of_mem_tokens fun n hn => ?_⟩
    · rw [ownTokens]
      cases hp : j.peers e.1 with
      | nil => exact absurd hp (hline e he).2
      | cons n ns => exact tokens_cons_ne_nil n ns
    · have := lt_of_mem_peers hn
      rw [maxNodes]
      omega
  have hown : ((body.map fun e => (e.1, j.ownTokens e.1)).filter fun e => e.1 = me).flatMap
      (fun e => e.2.flatMap expand) = j.peers me := by
    have hlines := written_tokens hj hme (hbody.2 me hme)
    have hlen := congrArg List.length hlines
    rw [List.length_map] at hlen
    rw [List.filter_map]
    show ((body.filter fun e => e.1 = me).map fun e => (e.1, j.ownTokens e.1)).flatMap _ = _
    split at hlen
    · rename_i hpeers
      rw [List.length_eq_zero_iff.1 hlen, hpeers]
      rfl
    · obtain ⟨e, he⟩ := List.length_eq_one_iff.1 hlen
      have hfst : e.1 = me := by
        have hmem : e ∈ body.filter fun e => e.1 = me := by
          rw [he]
          exact List.mem_singleton_self e
        simpa using (List.mem_filter.1 hmem).2
      rw [he, List.map_singleton, List.flatMap_singleton, hfst]
      exact expand_tokens _
  have hreturns := returns_body j.nodes me hj.lt_base hj.base_le hgood true
    (show maxNodes > 0 by decide)
  rw [hown, ← hmap] at hreturns
  exact hreturns.congr (getNextConn_congr (by decide) (findLine_header hj (by omega) _))

/-- The lines of the nodes, one node after the other. -/
theorem interleaved_exists (h : ∀ me < j.nodes, j.written me ≠ none) : ∃ body, j.Interleaved body := by
  let lines me := (j.written me).getD []
  refine ⟨(List.range j.nodes).flatMap fun me => (lines me).map fun l => (me, l), ?_, ?_⟩
  · intro e he
    obtain ⟨me, hme, he⟩ := List.mem_flatMap.1 he
    obtain ⟨l, -, rfl⟩ := List.mem_map.1 he
    exact List.mem_range.1 hme
  · intro me hme
    have hfilter : ∀ N, (((List.range N).flatMap fun me => (lines me).map fun l => (me, l)).filter
        fun e => e.1 = me).map Prod.snd = if me < N then lines me else [] := by
      intro N
      induction N with
      | zero => rfl
      | succ N ih =>
        rw [List.range_succ, List.flatMap_append, List.filter_append, List.map_append, ih,
          List.flatMap_singleton, List.filter_map, List.map_map]
        by_cases hN : N = me
        · rw [hN, if_neg (Nat.lt_irrefl me), if_pos (Nat.lt_succ_self me), List.nil_append]
          simp [Function.comp_def]
        · have hnone : (lines N).filter ((fun e => decide (e.1 = me)) ∘ fun l => (N, l)) = [] := by
            simp [hN]
          rw [hnone, List.map_nil, List.append_nil]
          congr 1
          exact propext ⟨by omega, by omega⟩
    rw [hfilter, if_pos hme]
    cases hw : j.written me with
    | none => exact absurd hw (h me hme)
    | some l => simp [lines, hw]

/-- The queue pairs that are looked at tell of each peer whether it was used, and the used peers of a
node fit with its tag into the 96 characters of `fullline`. -/
structure Kept (j : Job) : Prop where
  seen : ∀ me < j.nodes, ∀ n < j.nodes, j.scanned me n = j.peerUsed me n
  fits : ∀ me < j.nodes,
    (tagOf j.base me).length + (text j.base ((List.range j.nodes).filter (j.peerUsed me))).length ≤ 96

theorem written_ne_none (hj : j.Valid) (hme : me < j.nodes) :
    j.written me ≠ none ↔ (tagOf j.base me).length + (text j.base (j.peers me)).length ≤ 96 := by
  rw [written_eq hj hme]
  split
  · rename_i hpeers
    have hmax := hj.nodes_le
    rw [maxNodes] at hmax
    have hlen := @length_numeral_le j.base me hj.lt_base (by omega)
    rw [hpeers, tagOf, List.length_append, text, runs]
    simp only [ne_eq, reduceCtorEq, not_false_eq_true, List.length_singleton, List.flatMap_nil,
      List.length_nil, true_iff]
    omega
  · split <;> simp [*]

theorem roundTrip_iff_kept (hj : j.Valid) : j.RoundTrip ↔ j.Kept := by
  have hsame : ∀ me, (∀ n < j.nodes, j.scanned me n = j.peerUsed me n) →
      j.peers me = (List.range j.nodes).filter (j.peerUsed me) := by
    intro me h
    exact List.filter_congr fun n hn => h n (List.mem_range.1 hn)
  constructor
  · rintro ⟨hwritten, hread⟩
    obtain ⟨body, hbody⟩ := interleaved_exists hwritten
    have hseen : ∀ me < j.nodes, ∀ n < j.nodes, j.scanned me n = j.peerUsed me n := by
      intro me hme n hn
      obtain ⟨out, hreturns, -, hout⟩ := hread body hbody me hme
      rw [hreturns.unique (returns_peers hj hbody hme)] at hout
      have hiff := hout n
      rw [mem_peers] at hiff
      rw [Bool.eq_iff_iff]
      exact ⟨fun h => (hiff.1 ⟨hn, h⟩).2, fun h => (hiff.2 ⟨hn, h⟩).2⟩
    refine ⟨hseen, fun me hme => ?_⟩
    rw [← hsame me (hseen me hme)]
    exact (written_ne_none hj hme).1 (hwritten me hme)
  · rintro ⟨hseen, hfits⟩
    refine ⟨fun me hme => ?_, fun body hbody me hme => ⟨j.peers me, returns_peers hj hbody hme, ?_, ?_⟩⟩
    · rw [written_ne_none hj hme, hsame me (hseen me hme)]
      exact hfits me hme
    · exact List.Nodup.filter _ List.nodup_range
    · intro n
      rw [mem_peers]
      exact and_congr_right fun hn => by rw [hseen me hme n hn]

/-- The jobs whose connection table tells each node the peers that it has used. -/
theorem connection_table (hj : j.Valid) : j.RoundTrip ↔ j.Kept := roundTrip_iff_kept hj

/-- Two nodes that have used their queue pairs. -/
def pair : Job := ⟨2, 36, 1, fun me n => if me = n then none else some 0, fun _ _ => true⟩

theorem connection_table_pair : pair.Valid ∧ pair.RoundTrip := by
  have hpair : pair.Valid := ⟨by decide, by decide, by decide⟩
  refine ⟨hpair, (connection_table hpair).2 ⟨by decide, ?_⟩⟩
  intro me hme
  have hcases : me = 0 ∨ me = 1 := by
    have : me < 2 := hme
    omega
  rcases hcases with rfl | rfl
  · have hpeers : (List.range pair.nodes).filter (pair.peerUsed 0) = [1] := by decide
    rw [hpeers]
    simp [text, runs, runsFrom, runText, tagOf, numeral, pair]
  · have hpeers : (List.range pair.nodes).filter (pair.peerUsed 1) = [0] := by decide
    rw [hpeers]
    simp [text, runs, runsFrom, runText, tagOf, numeral, pair]

/-- Two nodes with two queue pairs for each other, of which the second was used. -/
def second : Job := ⟨2, 36, 2, fun me n => if me = n then none else some 0, fun _ q => q = 1⟩

/-- A hundred nodes that use each peer of odd rank. -/
def odd : Job := ⟨100, 36, 1, fun _ n => if n % 2 = 1 then some 0 else none, fun _ _ => true⟩

theorem length_text (base : Nat) (ns : List Nat) : 2 * (runs ns).length ≤ (text base ns).length := by
  rw [text]
  induction runs ns with
  | nil => exact Nat.le_refl _
  | cons r rs ih =>
    have hpos := List.length_pos_iff.2 (numeral_ne_nil base r.1)
    rw [List.flatMap_cons, List.length_append, List.length_cons, runText, List.length_append,
      List.length_append, List.length_singleton]
    omega

set_option maxRecDepth 4000 in
/-- A peer that is not written, and a line that overruns `fullline`. -/
theorem connection_table_lost :
    (second.Valid ∧ ¬ second.RoundTrip) ∧ odd.Valid ∧ ¬ odd.RoundTrip := by
  have hsecond : second.Valid := ⟨by decide, by decide, by decide⟩
  have hodd : odd.Valid := ⟨by decide, by decide, by decide⟩
  refine ⟨⟨hsecond, ?_⟩, hodd, ?_⟩
  · rw [roundTrip_iff_kept hsecond]
    intro h
    exact absurd (h.seen 0 (by decide) 1 (by decide)) (by decide)
  · rw [roundTrip_iff_kept hodd]
    intro h
    have hruns : (runs ((List.range 100).filter (odd.peerUsed 0))).length = 50 := by decide
    have hlen := length_text 36 ((List.range 100).filter (odd.peerUsed 0))
    have hfits : _ ≤ 96 := h.fits 0 (by decide)
    have htext : (text 36 ((List.range 100).filter (odd.peerUsed 0))).length ≤ 96 :=
      (Nat.le_add_left _ _).trans hfits
    omega

end Job

end Gasnet.ConnTable
