import Mathlib.Data.Nat.Digits.Lemmas

/-! The connection table file of the ibv conduit: what a node writes of the peers it has used, and how a
node reads the peers in its lines. -/
namespace Gasnet.ConnTable

abbrev Bytes := List UInt8

abbrev space : UInt8 := 32
abbrev newline : UInt8 := 10
abbrev minus : UInt8 := 45
abbrev colon : UInt8 := 58

/-- `"size:"`. -/
def sizeKey : Bytes := [115, 105, 122, 101, 58]

/-- `"base:"`. -/
def baseKey : Bytes := [98, 97, 115, 101, 58]

/-- `GASNET_MAXNODES`. -/
def maxNodes : Nat := 65535

section Numerals

/-- `digits[d]`. -/
def digit (d : Nat) : UInt8 := UInt8.ofNat (if d < 10 then 48 + d else 87 + d)

/-- The loop of `ltostr`, with room for `room` digits before those in `acc`. -/
def ltostrLoop (base : Nat) : Nat → Nat → Bytes → Bytes
  | 0, _, _ => []
  | room + 1, val, acc =>
    if val / base = 0 then digit (val % base) :: acc
    else ltostrLoop base room (val / base) (digit (val % base) :: acc)

/-- `ltostr`: the digits in the buffer, none if there is no space for them. -/
def ltostr (buflen val base : Nat) : Bytes := ltostrLoop base (buflen - 1) val []

/-- `gen_tag`. -/
def genTag (taglen val base : Nat) : Bytes := ltostr (taglen - 1) val base ++ [colon]

/-- The numeral of `n`, as `%d` and `%x` have it. -/
def numeral (base n : Nat) : Bytes :=
  ((if n = 0 then [0] else Nat.digits base n).reverse).map digit

end Numerals

section Writer

/-- What is in a buffer of `size` characters, or nothing if it is overrun. -/
def within (size : Nat) (b : Bytes) : Option Bytes := if b.length ≤ size then some b else none

/-- `dump_conn_line`, `dump_conn_first` and `dump_conn_prev`, and the lines that have been written. -/
structure Dump where
  line : Bytes
  first : Nat
  prev : Nat
  file : List Bytes

variable (base mynode : Nat)

/-- `dump_conn_outln`. -/
def dumpConnOutln (d : Dump) : Option Dump :=
  (within 96 (genTag 96 mynode base ++ d.line.drop 1 ++ [newline])).map fun fullline =>
    { d with file := d.file ++ [fullline] }

/-- `elem`, for peers from `first` to `prev`. -/
def elem (first prev : Nat) : Bytes :=
  let lo := ltostr 34 first base
  [space] ++ lo ++
    if prev = first then []
    else [if prev - first > 1 then minus else space] ++ ltostr (35 - (lo.length + 2)) prev base

/-- `dump_conn_out`. -/
def dumpConnOut (d : Dump) : Option Dump :=
  (within 34 (elem base d.first d.prev)).bind fun elem =>
    if d.line.length + elem.length < 512 then some { d with line := d.line ++ elem }
    else (dumpConnOutln base mynode d).map fun d => { d with line := elem }

/-- `dump_conn_next`. -/
def dumpConnNext (d : Dump) (n : Nat) : Option Dump :=
  if d.first = maxNodes then some { d with first := n, prev := n }
  else if n = d.prev + 1 then some { d with prev := n }
  else (dumpConnOut base mynode d).map fun d => { d with first := n, prev := n }

/-- `dump_conn_done`. -/
def dumpConnDone (d : Dump) : Option Dump :=
  if d.first = maxNodes then some d else (dumpConnOut base mynode d).bind (dumpConnOutln base mynode)

end Writer

/-- A job at its end. In the memory of each node are the records of its queue pairs, `alloc_qps` for each
peer that it has some of, from the place in `cep_table`. -/
structure Job where
  nodes : Nat
  base : Nat
  alloc_qps : Nat
  cep_table : Nat → Nat → Option Nat
  used : Nat → Nat → Bool

namespace Job

variable (j : Job) (me : Nat)

/-- The loop over `qpi`, which moves `cep` and also indexes it. -/
def scanned (n : Nat) : Bool :=
  match j.cep_table me n with
  | none => false
  | some cep => (List.range j.alloc_qps).any fun qpi => j.used me (cep + qpi + qpi)

/-- The lines that `gasnetc_connect_fini` writes on a node. -/
def written : Option (List Bytes) :=
  ((((List.range j.nodes).filter (j.scanned me)).foldlM (dumpConnNext j.base me)
    ⟨[], maxNodes, 0, []⟩).bind (dumpConnDone j.base me)).map Dump.file

/-- The lines at the head of the file. -/
def header : List Bytes :=
  [sizeKey ++ numeral 10 j.nodes ++ [newline],
    baseKey ++ numeral 10 j.base ++ [newline]]

/-- Whether a queue pair of the peer was used. -/
def peerUsed (n : Nat) : Bool :=
  match j.cep_table me n with
  | none => false
  | some cep => (List.range j.alloc_qps).any fun qpi => j.used me (cep + qpi)

end Job

section Reader

/-- `isspace`. -/
def isspace (c : UInt8) : Bool := c = 32 ∨ 9 ≤ c ∧ c ≤ 13

/-- The value of a letter or a digit. -/
def digitVal (c : UInt8) : Option Nat :=
  if 48 ≤ c ∧ c ≤ 57 then some (c.toNat - 48)
  else if 97 ≤ c ∧ c ≤ 122 then some (c.toNat - 87)
  else if 65 ≤ c ∧ c ≤ 90 then some (c.toNat - 55)
  else none

def isDigit (base : Nat) (c : UInt8) : Bool := (digitVal c).any (· < base)

/-- The number with these digits. -/
def value (base : Nat) (ds : Bytes) : Nat := ds.foldl (fun v c => v * base + (digitVal c).getD 0) 0

/-- The sign before a number. -/
def sign : Bytes → Int × Bytes
  | 43 :: s => (1, s)
  | 45 :: s => (-1, s)
  | s => (1, s)

/-- The text after `0x`, which may come before the digits of a number in base 16. -/
def skipPrefix (base : Nat) : Bytes → Bytes
  | 48 :: x :: c :: s =>
    if base = 16 ∧ (x = 120 ∨ x = 88) ∧ isDigit 16 c then c :: s else 48 :: x :: c :: s
  | s => s

/-- `strtol`: the number, which stays within a `long`, and the text after it. -/
def strtol (base : Nat) (s : Bytes) : Option (Int × Bytes) :=
  let signed := sign (s.dropWhile isspace)
  let text := skipPrefix base signed.2
  let ds := text.takeWhile (isDigit base)
  if ds = [] then none
  else some (max (-2 ^ 63) (min (2 ^ 63 - 1) (signed.1 * value base ds)), text.drop ds.length)

/-- `my_strtol`, where the number becomes a `gex_Rank_t`. Without a digit the job ends. -/
def strtoRank (base : Nat) (s : Bytes) : Option (Nat × Bytes) :=
  (strtol base s).map fun r => ((r.1 % 2 ^ 32).toNat, r.2)

/-- What `get_next_conn` keeps between calls. There is no token where `tok` is empty. -/
structure Reader where
  lines : List Bytes
  is_header : Bool
  in_base : Nat
  tag : Bytes
  tok : Bytes
  range_lo : Nat
  range_hi : Nat

/-- What comes of a call. -/
inductive Next (α : Type)
  | fatal
  | done
  | found (a : α)

variable (nodes mynode : Nat)

/-- A line: `tok` before it is compared to the tag, with the base and the tag after it, or nothing if the
job ends. -/
def headerLine (is_header : Bool) (in_base : Nat) (tag buf : Bytes) :
    Option (Bool × Nat × Bytes × Bytes) :=
  if is_header ∧ sizeKey <+: buf then
    match strtoRank 10 (buf.drop 5) with
    | some (size, tok) => if size = nodes then some (true, in_base, tag, tok) else none
    | none => none
  else if is_header ∧ baseKey <+: buf then
    match strtoRank 10 (buf.drop 5) with
    | some (base, tok) => some (true, base, genTag 18 mynode base, tok)
    | none => none
  else some (false, in_base, tag, buf)

/-- The loops that find the next line with the tag that has a token. -/
def findLine : List Bytes → Bool → Nat → Bytes → Next (List Bytes × Bool × Nat × Bytes × Bytes)
  | [], _, _, _ => .done
  | buf :: lines, is_header, in_base, tag =>
    match headerLine nodes mynode is_header in_base tag buf with
    | none => .fatal
    | some (is_header, in_base, tag, tok) =>
      if tag <+: tok ∧ (tok.drop tag.length).dropWhile isspace ≠ [] then
        .found (lines, is_header, in_base, tag, (tok.drop tag.length).dropWhile isspace)
      else findLine lines is_header in_base tag

/-- The next token, which is what is left of a line or on a later one. -/
def nextToken (r : Reader) : Next Reader :=
  if r.tok ≠ [] then .found r
  else
    match findLine nodes mynode r.lines r.is_header r.in_base r.tag with
    | .fatal => .fatal
    | .done => .done
    | .found (lines, is_header, in_base, tag, tok) =>
      .found { r with lines := lines, is_header := is_header, in_base := in_base, tag := tag, tok := tok }

/-- The range in a token. -/
def parseToken (base : Nat) (tok : Bytes) : Option (Nat × Nat) :=
  match strtoRank base tok with
  | none => none
  | some (lo, 45 :: p) => (strtoRank base p).map fun hi => (lo, hi.1)
  | some (lo, _) => some (lo, lo)

/-- `get_next_conn`. -/
def getNextConn (r : Reader) : Next (Nat × Reader) :=
  if r.range_lo > r.range_hi then
    match nextToken nodes mynode r with
    | .fatal => .fatal
    | .done => .done
    | .found r =>
      match parseToken r.in_base r.tok with
      | none => .fatal
      | some (lo, hi) =>
        .found (lo, { r with
          range_lo := (lo + 1) % 2 ^ 32, range_hi := hi
          tok := (r.tok.dropWhile fun c => !isspace c).dropWhile isspace })
  else .found (r.range_lo, { r with range_lo := (r.range_lo + 1) % 2 ^ 32 })

/-- Successive calls return `ns`, and then `GASNET_MAXNODES`. -/
def Returns (r : Reader) : List Nat → Prop
  | [] => getNextConn nodes mynode r = .done
  | n :: ns => n ≠ maxNodes ∧ ∃ r', getNextConn nodes mynode r = .found (n, r') ∧ Returns r' ns

/-- Before the first call. -/
def Reader.start (file : List Bytes) : Reader :=
  ⟨file, true, 10, numeral 16 mynode ++ [colon], [], maxNodes, 0⟩

end Reader

namespace Job

variable (j : Job)

/-- Lines of the nodes as they come to stand in one file, each with its node. -/
def Interleaved (body : List (Nat × Bytes)) : Prop :=
  (∀ e ∈ body, e.1 < j.nodes) ∧
    ∀ me < j.nodes, j.written me = some ((body.filter fun e => e.1 = me).map Prod.snd)

/-- No node overruns a buffer, and each reads from its lines the peers that it has used. -/
def RoundTrip : Prop :=
  (∀ me < j.nodes, j.written me ≠ none) ∧
    ∀ body, j.Interleaved body → ∀ me < j.nodes,
      ∃ out, Returns j.nodes me (.start me (j.header ++ body.map Prod.snd)) out ∧ out.Nodup ∧
        ∀ n, n ∈ out ↔ n < j.nodes ∧ j.peerUsed me n = true

end Job

variable {base n d : Nat}

/-! Numerals. -/

theorem ltostrLoop_eq (hbase : 1 < base) {room : Nat} (hroom : 0 < room) (hn : n < base ^ room)
    (acc : Bytes) : ltostrLoop base room n acc = numeral base n ++ acc := by
  induction room generalizing n acc with
  | zero => exact absurd hroom (Nat.lt_irrefl 0)
  | succ room ih =>
    rw [ltostrLoop]
    split
    · rename_i hdiv
      have hlt : n < base := by
        rcases Nat.div_eq_zero_iff.1 hdiv with h | h
        · omega
        · exact h
      rw [Nat.mod_eq_of_lt hlt, numeral]
      split
      · rename_i hzero
        rw [hzero]
        rfl
      · rename_i hpos
        rw [Nat.digits_of_lt base n hpos hlt]
        rfl
    · rename_i hdiv
      have hpos : 0 < n := Nat.pos_of_ne_zero fun h => hdiv (by rw [h, Nat.zero_div])
      have hlt : n / base < base ^ room := by
        rw [Nat.div_lt_iff_lt_mul (by omega)]
        rwa [pow_succ] at hn
      have hroom : 0 < room := by
        rcases Nat.eq_zero_or_pos room with rfl | h
        · exact absurd (Nat.lt_one_iff.1 hlt) hdiv
        · exact h
      rw [ih hroom hlt, numeral, numeral, if_neg hdiv, if_neg hpos.ne', Nat.digits_def' hbase hpos,
        List.reverse_cons, List.map_append, List.append_assoc]
      rfl

theorem ltostr_eq (hbase : 1 < base) {buflen : Nat} (hbuf : 17 ≤ buflen) (hn : n < 2 ^ 16) :
    ltostr buflen n base = numeral base n := by
  have hpow : 2 ^ 16 ≤ base ^ (buflen - 1) :=
    (Nat.pow_le_pow_left hbase 16).trans (Nat.pow_le_pow_right (by omega) (by omega))
  rw [ltostr, ltostrLoop_eq hbase (by omega) (by omega), List.append_nil]

theorem length_numeral_le (hbase : 1 < base) (hn : n < 2 ^ 16) : (numeral base n).length ≤ 16 := by
  rw [numeral, List.length_map, List.length_reverse]
  split
  · decide
  · rw [Nat.digits_length_le_iff hbase]
    exact hn.trans_le (Nat.pow_le_pow_left hbase 16)

theorem numeral_ne_nil (base n : Nat) : numeral base n ≠ [] := by
  rw [numeral]
  split
  · decide
  · rename_i h
    simpa [Nat.digits_ne_nil_iff_ne_zero] using h

theorem digitVal_digit (hd : d < 36) : digitVal (digit d) = some d := by
  have hall : ∀ d < 36, digitVal (digit d) = some d := by decide
  exact hall d hd

/-- What the digits of a numeral are. -/
theorem of_mem_numeral (hbase : 1 < base) {c : UInt8} (h : c ∈ numeral base n) : ∃ d < base, digit d = c := by
  rw [numeral, List.mem_map] at h
  obtain ⟨d, hd, rfl⟩ := h
  rw [List.mem_reverse] at hd
  refine ⟨d, ?_, rfl⟩
  split at hd
  · rw [List.mem_singleton] at hd
    omega
  · exact Nat.digits_lt_base hbase hd

theorem value_digits (hbase : base ≤ 36) {ds : List Nat} (h : ∀ d ∈ ds, d < base) :
    value base (ds.reverse.map digit) = Nat.ofDigits base ds := by
  rw [value, List.foldl_map, List.foldl_reverse, Nat.ofDigits_eq_foldr]
  induction ds with
  | nil => rfl
  | cons d ds ih =>
    have hd := h d List.mem_cons_self
    rw [List.foldr_cons, List.foldr_cons, ih fun d hd => h d (List.mem_cons_of_mem _ hd),
      digitVal_digit (by omega), Option.getD_some]
    exact (Nat.add_comm _ _).trans (by rw [Nat.mul_comm]; rfl)

theorem value_numeral (hbase : 1 < base) (hmax : base ≤ 36) (n : Nat) : value base (numeral base n) = n := by
  rw [numeral]
  split
  · rename_i h
    rw [value_digits hmax (by simp; omega), h]
    simp
  · rw [value_digits hmax fun d hd => Nat.digits_lt_base hbase hd, Nat.ofDigits_digits]

theorem isDigit_of_mem_numeral (hbase : 1 < base) (hmax : base ≤ 36) {c : UInt8} (h : c ∈ numeral base n) :
    isDigit base c = true := by
  obtain ⟨d, hd, rfl⟩ := of_mem_numeral hbase h
  rw [isDigit, digitVal_digit (by omega)]
  simpa using hd

/-! What a node writes. -/

/-- The tag of a node. -/
def tagOf (base mynode : Nat) : Bytes := numeral base mynode ++ [colon]

theorem genTag_eq (hbase : 1 < base) {taglen : Nat} (hlen : 18 ≤ taglen) (hn : n < 2 ^ 16) :
    genTag taglen n base = tagOf base n := by
  rw [genTag, ltostr_eq hbase (by omega) hn, tagOf]

/-- The text of a run of peers. -/
def runText (base : Nat) (r : Nat × Nat) : Bytes :=
  [space] ++ numeral base r.1 ++
    if r.2 = r.1 then [] else [if r.2 - r.1 > 1 then minus else space] ++ numeral base r.2

theorem elem_eq (hbase : 1 < base) {r : Nat × Nat} (hlo : r.1 < 2 ^ 16) (hhi : r.2 < 2 ^ 16) :
    elem base r.1 r.2 = runText base r := by
  have hlen := length_numeral_le hbase hlo
  rw [elem, ltostr_eq hbase (by decide) hlo, ltostr_eq hbase (by omega) hhi, runText]

theorem length_runText_le (hbase : 1 < base) {r : Nat × Nat} (hlo : r.1 < 2 ^ 16) (hhi : r.2 < 2 ^ 16) :
    (runText base r).length ≤ 34 := by
  have hlen := length_numeral_le hbase hlo
  have hlen' := length_numeral_le hbase hhi
  rw [runText]
  split
  · simp only [List.length_append, List.length_cons, List.length_nil]
    omega
  · simp only [List.length_append, List.length_cons, List.length_nil]
    omega

/-- The runs that peers `ns` in ascending order make after a run from `first` to `prev`. -/
def runsFrom (first prev : Nat) : List Nat → List (Nat × Nat)
  | [] => [(first, prev)]
  | n :: ns => if n = prev + 1 then runsFrom first n ns else (first, prev) :: runsFrom n n ns

/-- The runs of peers. -/
def runs : List Nat → List (Nat × Nat)
  | [] => []
  | n :: ns => runsFrom n n ns

/-- `dump_conn_out` for each run, and `dump_conn_outln`. -/
def outRuns (base mynode : Nat) (line : Bytes) (file : List Bytes) :
    List (Nat × Nat) → Option (List Bytes)
  | [] => (dumpConnOutln base mynode ⟨line, 0, 0, file⟩).map Dump.file
  | r :: rs =>
    (dumpConnOut base mynode ⟨line, r.1, r.2, file⟩).bind fun d => outRuns base mynode d.line d.file rs

theorem dumpConnOutln_file (base mynode : Nat) (d : Dump) (a b : Nat) :
    (dumpConnOutln base mynode d).map Dump.file =
      (dumpConnOutln base mynode ⟨d.line, a, b, d.file⟩).map Dump.file := by
  rw [dumpConnOutln, dumpConnOutln, Option.map_map, Option.map_map]
  rfl

theorem foldlM_dumpConnNext (base mynode : Nat) {ns : List Nat} (hns : ∀ n ∈ ns, n ≠ maxNodes) {d : Dump}
    (hd : d.first ≠ maxNodes) :
    ((ns.foldlM (dumpConnNext base mynode) d).bind (dumpConnDone base mynode)).map Dump.file =
      outRuns base mynode d.line d.file (runsFrom d.first d.prev ns) := by
  induction ns generalizing d with
  | nil =>
    rw [runsFrom, outRuns]
    show (dumpConnDone base mynode d).map Dump.file = _
    rw [dumpConnDone, if_neg hd]
    cases hout : dumpConnOut base mynode d with
    | none => rfl
    | some d' => exact dumpConnOutln_file base mynode d' 0 0
  | cons n ns ih =>
    have hothers : ∀ n ∈ ns, n ≠ maxNodes := fun n hn => hns n (List.mem_cons_of_mem _ hn)
    rw [List.foldlM_cons, dumpConnNext, if_neg hd, runsFrom]
    split
    · exact ih hothers hd
    · rw [outRuns]
      cases hout : dumpConnOut base mynode d with
      | none => rfl
      | some d' => exact ih hothers (hns n List.mem_cons_self)

/-- A line is overrun that is too long for `fullline`. -/
theorem dumpConnOutln_eq (hbase : 1 < base) {mynode : Nat} (hme : mynode < 2 ^ 16) {line : Bytes}
    (hline : line ≠ []) (a b : Nat) (file : List Bytes) :
    (dumpConnOutln base mynode ⟨line, a, b, file⟩).map Dump.file =
      if (tagOf base mynode).length + line.length ≤ 96 then
        some (file ++ [tagOf base mynode ++ line.drop 1 ++ [newline]])
      else none := by
  have hpos := List.length_pos_iff.2 hline
  have hlen : (tagOf base mynode ++ line.drop 1 ++ [newline]).length =
      (tagOf base mynode).length + line.length := by
    simp only [List.length_append, List.length_drop, List.length_cons, List.length_nil]
    omega
  rw [dumpConnOutln, genTag_eq hbase (by decide) hme]
  dsimp only
  rw [within, hlen]
  split <;> rfl

theorem outRuns_eq (hbase : 1 < base) {mynode : Nat} (hme : mynode < 2 ^ 16) {rs : List (Nat × Nat)}
    (hrs : ∀ r ∈ rs, r.1 < 2 ^ 16 ∧ r.2 < 2 ^ 16) {line : Bytes} (hline : line ++ rs.flatMap (runText base) ≠ [])
    (file : List Bytes) :
    outRuns base mynode line file rs =
      if (tagOf base mynode).length + (line ++ rs.flatMap (runText base)).length ≤ 96 then
        some (file ++ [tagOf base mynode ++ (line ++ rs.flatMap (runText base)).drop 1 ++ [newline]])
      else none := by
  induction rs generalizing line file with
  | nil =>
    rw [List.flatMap_nil, List.append_nil] at hline ⊢
    exact dumpConnOutln_eq hbase hme hline 0 0 file
  | cons r rs ih =>
    obtain ⟨hlo, hhi⟩ := hrs r List.mem_cons_self
    have hlen := length_runText_le hbase hlo hhi
    rw [outRuns, dumpConnOut, elem_eq hbase hlo hhi, within, if_pos hlen, Option.bind_some]
    dsimp only
    split
    · rw [List.flatMap_cons, ← List.append_assoc] at hline ⊢
      exact ih (fun r hr => hrs r (List.mem_cons_of_mem _ hr)) hline file
    · rename_i hfull
      -- the cut comes only after 512 characters, where the line has no place in `fullline`
      have hpos : line ≠ [] := by
        rintro rfl
        exact hfull (by rw [List.length_nil]; omega)
      rw [if_neg (by rw [List.length_append]; omega)]
      have hover := dumpConnOutln_eq hbase hme hpos r.1 r.2 file
      rw [if_neg (by omega), Option.map_eq_none_iff] at hover
      rw [hover]
      rfl

theorem of_mem_runsFrom {ns : List Nat} {first prev : Nat} {P : Nat → Prop} (hfirst : P first)
    (hprev : P prev) (h : ∀ n ∈ ns, P n) : ∀ r ∈ runsFrom first prev ns, P r.1 ∧ P r.2 := by
  induction ns generalizing first prev with
  | nil =>
    intro r hr
    rw [runsFrom, List.mem_singleton] at hr
    rw [hr]
    exact ⟨hfirst, hprev⟩
  | cons n ns ih =>
    have hn := h n List.mem_cons_self
    have hothers : ∀ n ∈ ns, P n := fun n hn => h n (List.mem_cons_of_mem _ hn)
    rw [runsFrom]
    split
    · exact ih hfirst hn hothers
    · intro r hr
      rcases List.mem_cons.1 hr with rfl | hr
      · exact ⟨hfirst, hprev⟩
      · exact ih hn hn hothers r hr

theorem of_mem_runs {ns : List Nat} {P : Nat → Prop} (h : ∀ n ∈ ns, P n) : ∀ r ∈ runs ns, P r.1 ∧ P r.2 := by
  cases ns with
  | nil => simp [runs]
  | cons n ns =>
    have hn := h n List.mem_cons_self
    exact of_mem_runsFrom hn hn fun n hn => h n (List.mem_cons_of_mem _ hn)

theorem runsFrom_ne_nil (first prev : Nat) (ns : List Nat) : runsFrom first prev ns ≠ [] := by
  induction ns generalizing first prev with
  | nil => simp [runsFrom]
  | cons n ns ih =>
    rw [runsFrom]
    split
    · exact ih first n
    · simp

/-- The text of peers in a line. -/
def text (base : Nat) (ns : List Nat) : Bytes := (runs ns).flatMap (runText base)

theorem text_cons_ne_nil (base n : Nat) (ns : List Nat) : text base (n :: ns) ≠ [] := by
  have hruns : runs (n :: ns) ≠ [] := runsFrom_ne_nil n n ns
  cases h : runs (n :: ns) with
  | nil => exact absurd h hruns
  | cons r rs => simp [text, h, runText]

/-- A job that `GASNET_MAXNODES` allows, with a base that has digits. -/
structure Job.Valid (j : Job) : Prop where
  nodes_le : j.nodes ≤ maxNodes
  lt_base : 1 < j.base
  base_le : j.base ≤ 36

/-- The peers that are written. -/
def Job.peers (j : Job) (me : Nat) : List Nat := (List.range j.nodes).filter (j.scanned me)

namespace Job

variable {j : Job} {me : Nat}

theorem lt_of_mem_peers {n : Nat} (h : n ∈ j.peers me) : n < j.nodes :=
  List.mem_range.1 (List.mem_of_mem_filter h)

/-- A node writes one line at most, and overruns `fullline` if its peers do not fit. -/
theorem written_eq (hj : j.Valid) (hme : me < j.nodes) :
    j.written me =
      if j.peers me = [] then some []
      else if (tagOf j.base me).length + (text j.base (j.peers me)).length ≤ 96 then
        some [tagOf j.base me ++ (text j.base (j.peers me)).drop 1 ++ [newline]]
      else none := by
  have hmax := hj.nodes_le
  rw [maxNodes] at hmax
  have hpeers : ∀ n ∈ j.peers me, n < 65535 := by
    intro n hn
    have := lt_of_mem_peers hn
    omega
  rw [written, ← peers]
  cases h : j.peers me with
  | nil => rfl
  | cons n ns =>
    rw [h] at hpeers
    have hn := hpeers n List.mem_cons_self
    have hns : ∀ n ∈ ns, n ≠ maxNodes := by
      intro n hn
      have := hpeers n (List.mem_cons_of_mem _ hn)
      rw [maxNodes]
      omega
    have hruns : ∀ r ∈ runsFrom n n ns, r.1 < 2 ^ 16 ∧ r.2 < 2 ^ 16 :=
      @of_mem_runs (n :: ns) (fun n => n < 2 ^ 16) fun m hm => (hpeers m hm).trans (by decide)
    have hfirst : n ≠ maxNodes := by
      rw [maxNodes]
      omega
    have hrun := foldlM_dumpConnNext j.base me hns (d := ⟨[], n, n, []⟩) hfirst
    rw [List.foldlM_cons, dumpConnNext, if_pos rfl, if_neg (List.cons_ne_nil n ns)]
    refine hrun.trans ?_
    have hline := text_cons_ne_nil j.base n ns
    rw [outRuns_eq hj.lt_base (by omega) hruns hline]
    rfl

end Job

end Gasnet.ConnTable
