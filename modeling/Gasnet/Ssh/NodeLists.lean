import Mathlib.Data.List.TakeWhile
import Mathlib.Data.List.Infix
import Gasnet.Internal.Getline
import Gasnet.Ssh.Options

/-! The list of host names, from a node file or from a delimited string. -/
namespace Gasnet.NodeLists

open SshOptions (Str WHITESPACE)

/-- `SSH_SERVERS_DELIM_CHARS`: comma, slash, semicolon, colon and white space. -/
def delims : Str := [44, 47, 59, 58] ++ WHITESPACE

/-- The list, the number of nodes and the warning, if there is one. -/
structure Nodes where
  nodelist : List Str
  nnodes : Nat
  warning : Option String
  deriving DecidableEq, Repr

variable (keepdup nnodes_set : Bool) (nnodes : Nat)

def short_nodelist (nodelist : List Str) : Nodes where
  nodelist := nodelist
  nnodes := nodelist.length
  warning :=
    let count := nodelist.length
    let reason := if keepdup then "" else " after de-duplication"
    if nnodes_set then
      some s!"WARNING: Request for {nnodes} nodes ignored because only {count} nodes are available{reason}."
    else none

def keep_nodelist_elem (list : List Str) (elem : Str) : Bool :=
  match list.getLast? with
  | none => true
  | some last =>
    if keepdup then true
    else if elem = last then false
    else elem ∉ list.dropLast

/-- The loop of `parse_nodestream`, on the lines that `getline` still returns. -/
def parse_nodestream : List Str → List Str → Nodes
  | [], result =>
    if result.length < nnodes then short_nodelist keepdup nnodes_set nnodes result
    else ⟨result, nnodes, none⟩
  | buf :: lines, result =>
    if result.length < nnodes then
      let p := (buf.takeWhile (· ≠ 0)).dropWhile (· ∈ WHITESPACE)
      if p.head? = some 35 then parse_nodestream lines result
      else
        let p := p.takeWhile (· ∉ WHITESPACE)
        parse_nodestream lines (if keep_nodelist_elem keepdup result p then result ++ [p] else result)
    else ⟨result, nnodes, none⟩

/-- The loop of `parse_servers`. -/
def parse_servers (string : Str) (result : List Str) : Nodes :=
  if result.length < nnodes then
    if hend : string.dropWhile (· ∈ delims) = [] then short_nodelist keepdup nnodes_set nnodes result
    else
      let p := (string.dropWhile (· ∈ delims)).takeWhile (· ∉ delims)
      parse_servers (((string.dropWhile (· ∈ delims)).dropWhile (· ∉ delims)).drop 1)
        (if keep_nodelist_elem keepdup result p then result ++ [p] else result)
  else ⟨result, nnodes, none⟩
termination_by string.length
decreasing_by
  have hle := (List.dropWhile_suffix (· ∈ delims) (l := string)).length_le
  have hpos := List.length_pos_iff.mpr hend
  cases hdrop : string.dropWhile (· ∈ delims) with
  | nil => exact absurd hdrop hend
  | cons c rest =>
    have hhead := List.head?_dropWhile_not (· ∈ delims) string
    rw [hdrop] at hhead hle hpos
    rw [List.dropWhile_cons_of_pos (by simpa using hhead)]
    have hrest := (List.dropWhile_suffix (· ∉ delims) (l := rest)).length_le
    rw [List.length_drop]
    rw [List.length_cons] at hle
    omega

/-! ### Names that are taken in turn -/

/-- The first occurrences, or all. -/
def kept (names : List Str) : List Str := if keepdup then names else names.eraseDups

/-- Names are taken until there are enough. -/
def fill : List Str → List Str → Nodes
  | [], result =>
    if result.length < nnodes then short_nodelist keepdup nnodes_set nnodes result
    else ⟨result, nnodes, none⟩
  | name :: names, result =>
    if result.length < nnodes then
      fill names (if keep_nodelist_elem keepdup result name then result ++ [name] else result)
    else ⟨result, nnodes, none⟩

variable {keepdup nnodes_set nnodes} {names done result a b : List Str} {name string : Str}

theorem keep_nodelist_elem_iff (keepdup : Bool) (list : List Str) (elem : Str) :
    keep_nodelist_elem keepdup list elem = true ↔ keepdup = true ∨ elem ∉ list := by
  rw [keep_nodelist_elem]
  cases list using List.reverseRecOn with
  | nil => simp
  | append_singleton list last =>
    rw [List.getLast?_concat, List.dropLast_concat]
    cases keepdup with
    | true => simp
    | false =>
      by_cases h : elem = last
      · simp [h]
      · simp [h]

theorem kept_initial (keepdup : Bool) (a b : List Str) : kept keepdup a <+: kept keepdup (a ++ b) := by
  cases keepdup with
  | true => exact List.prefix_append a b
  | false => exact ⟨(b.removeAll a).eraseDups, List.eraseDups_append.symm⟩

theorem mem_kept : name ∈ kept keepdup names ↔ name ∈ names := by
  cases keepdup with
  | true => exact Iff.rfl
  | false => exact List.mem_eraseDups

theorem kept_concat (keepdup : Bool) (done : List Str) (name : Str) :
    kept keepdup (done ++ [name]) =
      if keep_nodelist_elem keepdup (kept keepdup done) name then kept keepdup done ++ [name]
      else kept keepdup done := by
  have hkeep := keep_nodelist_elem_iff keepdup (kept keepdup done) name
  rw [mem_kept] at hkeep
  cases keepdup with
  | true =>
    rw [if_pos (hkeep.mpr (.inl rfl))]
    rfl
  | false =>
    have hcons : kept false (done ++ [name]) = kept false done ++ ([name].removeAll done).eraseDups :=
      List.eraseDups_append
    by_cases h : name ∈ done
    · rw [if_neg fun hk => (hkeep.mp hk).elim nofun fun hout => hout h, hcons]
      simp [h, List.removeAll]
    · rw [if_pos (hkeep.mpr (.inr h)), hcons]
      simp [h, List.removeAll, List.eraseDups_cons]

/-- What is taken of `names` after `done`. -/
theorem fill_eq (nnodes_set : Bool) (names : List Str) (h : (kept keepdup done).length ≤ nnodes) :
    fill keepdup nnodes_set nnodes names (kept keepdup done) =
      if (kept keepdup (done ++ names)).length < nnodes then
        short_nodelist keepdup nnodes_set nnodes (kept keepdup (done ++ names))
      else ⟨(kept keepdup (done ++ names)).take nnodes, nnodes, none⟩ := by
  induction names generalizing done with
  | nil =>
    rw [fill, List.append_nil]
    by_cases hlt : (kept keepdup done).length < nnodes
    · rw [if_pos hlt, if_pos hlt]
    · rw [if_neg hlt, if_neg hlt, List.take_of_length_le h]
  | cons name names ih =>
    rw [fill]
    by_cases hlt : (kept keepdup done).length < nnodes
    · rw [if_pos hlt, ← kept_concat, ih, List.append_assoc, List.singleton_append]
      rw [kept_concat]
      split_ifs
      · rw [List.length_append, List.length_singleton]
        exact hlt
      · exact h
    · have hinitial := kept_initial keepdup done (name :: names)
      have hlen : (kept keepdup done).length = nnodes := by omega
      have hle := hinitial.length_le
      rw [if_neg hlt, if_neg (by omega), ← hlen, ← List.prefix_iff_eq_take.mp hinitial]

/-! ### The names of a source -/

/-- The first column of a line that is no comment; it is empty for a blank line. -/
def column (line : Str) : Option Str :=
  let p := (line.takeWhile (· ≠ 0)).dropWhile (· ∈ WHITESPACE)
  if p.head? = some 35 then none else some (p.takeWhile (· ∉ WHITESPACE))

/-- The host name of a line. -/
def hostName (line : Str) : Option Str := (column line).filter (· ≠ [])

def Blank (line : Str) : Prop := ∀ c ∈ line.takeWhile (· ≠ 0), c ∈ WHITESPACE

/-- The host names of a delimited string. -/
def serverNames (string : Str) : List Str := (string.splitOnP (· ∈ delims)).filter (· ≠ [])

theorem parse_nodestream_eq (lines result : List Str) :
    parse_nodestream keepdup nnodes_set nnodes lines result =
      fill keepdup nnodes_set nnodes (lines.filterMap column) result := by
  induction lines generalizing result with
  | nil => rfl
  | cons line lines ih =>
    rw [parse_nodestream]
    by_cases hlt : result.length < nnodes
    · rw [if_pos hlt]
      dsimp only
      by_cases hcomment : ((line.takeWhile (· ≠ 0)).dropWhile (· ∈ WHITESPACE)).head? = some 35
      · rw [if_pos hcomment, ih, List.filterMap_cons_none (by rw [column, if_pos hcomment])]
      · rw [if_neg hcomment, ih,
          List.filterMap_cons_some (by rw [column, if_neg hcomment]), fill, if_pos hlt]
    · have hfull : ∀ names, fill keepdup nnodes_set nnodes names result = ⟨result, nnodes, none⟩ := by
        intro names
        cases names with
        | nil => rw [fill, if_neg hlt]
        | cons name names => rw [fill, if_neg hlt]
      rw [if_neg hlt, hfull]

theorem serverNames_delim {c : UInt8} (hc : c ∈ delims) (string : Str) :
    serverNames (c :: string) = serverNames string := by
  rw [serverNames, List.splitOnP_cons_eq_if_modifyHead, if_pos (decide_eq_true hc), List.filter_cons_of_neg (by simp)]
  rfl

theorem serverNames_dropWhile (string : Str) :
    serverNames (string.dropWhile (· ∈ delims)) = serverNames string := by
  induction string with
  | nil => rfl
  | cons c string ih =>
    by_cases hc : c ∈ delims
    · rw [List.dropWhile_cons_of_pos (by simpa using hc), ih, serverNames_delim hc]
    · rw [List.dropWhile_cons_of_neg (by simpa using hc)]

/-- A rest that does not go on with the same word. -/
def Ends (rest : Str) : Prop := ∀ c ∈ rest.head?, c ∈ delims

theorem serverNames_word {rest : Str} (hne : name ≠ []) (hname : ∀ c ∈ name, c ∉ delims) (hrest : Ends rest) :
    serverNames (name ++ rest) = name :: serverNames (rest.drop 1) := by
  have hno : ∀ c ∈ name, decide (c ∈ delims) = false := fun c hc => decide_eq_false (hname c hc)
  cases rest with
  | nil =>
    rw [List.append_nil, serverNames, List.splitOnP_eq_singleton hno, List.filter_cons_of_pos (by simpa using hne)]
    rfl
  | cons c rest =>
    have hc : c ∈ delims := hrest c rfl
    rw [serverNames, List.splitOnP_append_cons_of_forall_mem hno c (decide_eq_true hc),
      List.filter_cons_of_pos (by simpa using hne)]
    rfl

theorem parse_servers_eq (string : Str) (result : List Str) :
    parse_servers keepdup nnodes_set nnodes string result =
      fill keepdup nnodes_set nnodes (serverNames string) result := by
  induction hn : string.length using Nat.strong_induction_on generalizing string result with
  | _ n ih =>
    subst hn
    rw [parse_servers, ← serverNames_dropWhile string]
    by_cases hlt : result.length < nnodes
    · rw [if_pos hlt]
      have hle := (List.dropWhile_suffix (· ∈ delims) (l := string)).length_le
      have hhead := List.head?_dropWhile_not (· ∈ delims) string
      generalize string.dropWhile (· ∈ delims) = s at hle hhead ⊢
      cases s with
      | nil =>
        rw [dif_pos rfl]
        change _ = fill keepdup nnodes_set nnodes [] result
        rw [fill, if_pos hlt]
      | cons c s =>
        have hc : c ∉ delims := by simpa using hhead
        have hne : (c :: s).takeWhile (· ∉ delims) ≠ [] := by
          rw [List.takeWhile_cons_of_pos (by simpa using hc)]
          exact nofun
        have hname : ∀ d ∈ (c :: s).takeWhile (· ∉ delims), d ∉ delims := by
          intro d hd
          simpa using List.mem_takeWhile_imp hd
        have hrest : Ends ((c :: s).dropWhile (· ∉ delims)) := by
          intro d hd
          have hnot := List.head?_dropWhile_not (· ∉ delims) (c :: s)
          rw [hd] at hnot
          simpa using hnot
        have hsplit := serverNames_word hne hname hrest
        rw [List.takeWhile_append_dropWhile] at hsplit
        have hshort : (((c :: s).dropWhile (· ∉ delims)).drop 1).length < string.length := by
          have hdrop := (List.dropWhile_suffix (· ∉ delims) (l := s)).length_le
          rw [List.dropWhile_cons_of_pos (by simpa using hc), List.length_drop]
          rw [List.length_cons] at hle
          omega
        rw [dif_neg nofun, ih _ hshort _ _ rfl, hsplit, fill, if_pos hlt]
    · rw [if_neg hlt]
      cases serverNames (string.dropWhile (· ∈ delims)) with
      | nil => rw [fill, if_neg hlt]
      | cons name names => rw [fill, if_neg hlt]

/-! ### What the lists are -/

/-- The first host names, in order, as many as are asked for and there are; none is empty. -/
structure FirstNames (keepdup : Bool) (nnodes : Nat) (names : List Str) (r : Nodes) : Prop where
  nodelist : r.nodelist = (kept keepdup names).take nnodes
  nonempty : [] ∉ r.nodelist
  nnodes : r.nnodes = min nnodes (kept keepdup names).length

/-- What the list is when all candidates count. -/
theorem fill_nodes (keepdup nnodes_set : Bool) (nnodes : Nat) (names : List Str) :
    (fill keepdup nnodes_set nnodes names []).nodelist = (kept keepdup names).take nnodes ∧
      (fill keepdup nnodes_set nnodes names []).nnodes = min nnodes (kept keepdup names).length := by
  have hnil : kept keepdup ([] : List Str) = [] := by cases keepdup <;> rfl
  have hroom : (kept keepdup ([] : List Str)).length ≤ nnodes := by
    rw [hnil]
    exact Nat.zero_le _
  have hfill := fill_eq nnodes_set names hroom
  rw [hnil, List.nil_append] at hfill
  rw [hfill]
  split_ifs with hlt
  · exact ⟨(List.take_of_length_le hlt.le).symm, (Nat.min_eq_right hlt.le).symm⟩
  · exact ⟨rfl, (Nat.min_eq_left (Nat.le_of_not_lt hlt)).symm⟩

theorem firstNames_of_nonempty (h : [] ∉ names) :
    FirstNames keepdup nnodes names (fill keepdup nnodes_set nnodes names []) := by
  obtain ⟨hlist, hnodes⟩ := fill_nodes keepdup nnodes_set nnodes names
  refine ⟨hlist, ?_, hnodes⟩
  rw [hlist]
  exact fun hmem => h (mem_kept.mp (List.mem_of_mem_take hmem))

theorem parse_servers_names (string : Str) :
    FirstNames keepdup nnodes (serverNames string) (parse_servers keepdup nnodes_set nnodes string []) := by
  rw [parse_servers_eq]
  apply firstNames_of_nonempty
  intro hmem
  simpa using (List.mem_filter.mp hmem).2

/-- A candidate that is empty is not reached. -/
def Unreached (keepdup : Bool) (nnodes : Nat) (names : List Str) : Prop :=
  ∀ a b, names = a ++ [] :: b → nnodes ≤ (kept keepdup (a.filter (· ≠ []))).length

theorem filter_nonempty (h : [] ∉ names) : names.filter (· ≠ []) = names := by
  rw [List.filter_eq_self]
  intro name hname
  refine decide_eq_true ?_
  rintro rfl
  exact h hname

/-- Empty candidates do no harm just where they are not reached. -/
theorem firstNames_iff (names : List Str) :
    FirstNames keepdup nnodes (names.filter (· ≠ [])) (fill keepdup nnodes_set nnodes names []) ↔
      Unreached keepdup nnodes names := by
  obtain ⟨hlist, hnodes⟩ := fill_nodes keepdup nnodes_set nnodes names
  constructor
  · rintro ⟨-, hnonempty, -⟩ a b rfl
    -- The first of the empty candidates.
    obtain ⟨a0, b0, hsplit, hfirst⟩ : ∃ a0 b0, a ++ [] :: b = a0 ++ [] :: b0 ∧ [] ∉ a0 ∧ a0 <+: a := by
      by_cases hmem : [] ∈ a
      · obtain ⟨a0, b0, rfl, hout⟩ := List.eq_append_cons_of_mem hmem
        exact ⟨a0, b0 ++ [] :: b, by simp, hout, List.prefix_append _ _⟩
      · exact ⟨a, b, rfl, hmem, List.prefix_refl a⟩
    obtain ⟨hout, a1, rfl⟩ := hfirst
    have hle := (kept_initial keepdup (a0.filter (· ≠ [])) (a1.filter (· ≠ []))).length_le
    rw [← List.filter_append, filter_nonempty hout] at hle
    refine Nat.le_trans ?_ hle
    by_contra hlt
    apply hnonempty
    have hnew : kept keepdup (a0 ++ [[]]) = kept keepdup a0 ++ [[]] := by
      rw [kept_concat, if_pos]
      rw [keep_nodelist_elem_iff, mem_kept]
      exact .inr hout
    have hinitial := kept_initial keepdup (a0 ++ [[]]) b0
    rw [hnew, ← List.append_cons, ← hsplit] at hinitial
    rw [hlist]
    have hget : (kept keepdup (a0 ++ a1 ++ [] :: b))[(kept keepdup a0).length]? = some [] := by
      obtain ⟨rest, hrest⟩ := hinitial
      rw [← hrest, List.append_assoc, List.getElem?_append_right (Nat.le_refl _)]
      simp
    apply List.mem_of_getElem? (i := (kept keepdup a0).length)
    rw [List.getElem?_take_of_lt (Nat.lt_of_not_le hlt), hget]
  · intro h
    by_cases hmem : [] ∈ names
    · obtain ⟨a, b, rfl, hout⟩ := List.eq_append_cons_of_mem hmem
      have henough := h a b rfl
      rw [filter_nonempty hout] at henough
      have hall := kept_initial keepdup a ([] :: b)
      have hnames := kept_initial keepdup a (([] :: b).filter (· ≠ []))
      have hfilter : (a ++ [] :: b).filter (· ≠ []) = a ++ ([] :: b).filter (· ≠ []) := by
        rw [List.filter_append, filter_nonempty hout]
      have htake : ∀ l : List Str, kept keepdup a <+: l → l.take nnodes = (kept keepdup a).take nnodes := by
        rintro l ⟨rest, rfl⟩
        exact List.take_append_of_le_length henough
      refine ⟨?_, ?_, ?_⟩
      · rw [hlist, hfilter, htake _ hall, htake _ hnames]
      · rw [hlist, htake _ hall]
        exact fun hin => hout (mem_kept.mp (List.mem_of_mem_take hin))
      · have hle := hall.length_le
        have hle' := hnames.length_le
        rw [hnodes, hfilter, Nat.min_eq_left (henough.trans hle), Nat.min_eq_left (henough.trans hle')]
    · rw [filter_nonempty hmem]
      exact firstNames_of_nonempty hmem

/-! ### Node files -/

theorem column_blank {line : Str} : column line = some [] ↔ Blank line := by
  rw [column]
  cases hdrop : (line.takeWhile (· ≠ 0)).dropWhile (· ∈ WHITESPACE) with
  | nil =>
    rw [List.dropWhile_eq_nil_iff] at hdrop
    exact ⟨fun _ c hc => of_decide_eq_true (hdrop c hc), fun _ => rfl⟩
  | cons c rest =>
    have hc := List.head?_dropWhile_not (· ∈ WHITESPACE) (line.takeWhile (· ≠ 0))
    rw [hdrop] at hc
    have hc : c ∉ WHITESPACE := by simpa using hc
    have hnot : ¬Blank line := by
      intro hblank
      rw [List.dropWhile_eq_nil_iff.mpr fun d hd => decide_eq_true (hblank d hd)] at hdrop
      cases hdrop
    refine ⟨fun h => ?_, fun h => absurd h hnot⟩
    split_ifs at h
    rw [List.takeWhile_cons_of_pos (by simpa using hc)] at h
    cases h

theorem filterMap_hostName (lines : List Str) :
    lines.filterMap hostName = (lines.filterMap column).filter (· ≠ []) := by
  rw [List.filter_filterMap]
  rfl

/-- No blank line before the line with the last host name that is asked for. -/
def NoBlankBefore (keepdup : Bool) (nnodes : Nat) (lines : List Str) : Prop :=
  ∀ a line b, lines = a ++ line :: b → Blank line → nnodes ≤ (kept keepdup (a.filterMap hostName)).length

theorem unreached_iff (lines : List Str) :
    Unreached keepdup nnodes (lines.filterMap column) ↔ NoBlankBefore keepdup nnodes lines := by
  constructor
  · rintro h a line b rfl hblank
    rw [filterMap_hostName]
    apply h _ (b.filterMap column)
    rw [List.filterMap_append, List.filterMap_cons_some (column_blank.mpr hblank)]
  · intro h a b hsplit
    obtain ⟨l1, l2, rfl, rfl, hl2⟩ := List.filterMap_eq_append_iff.mp hsplit
    obtain ⟨skipped, line, l3, rfl, hskipped, hline, -⟩ := List.filterMap_eq_cons_iff.mp hl2
    have henough := h (l1 ++ skipped) line l3 (by simp) (column_blank.mp hline)
    have hnone : skipped.filterMap column = [] := List.filterMap_eq_nil_iff.mpr hskipped
    rwa [filterMap_hostName, List.filterMap_append, hnone, List.append_nil] at henough

/-- A list from a node file is right if and only if no blank line is read. -/
theorem parse_nodestream_names (lines : List Str) :
    FirstNames keepdup nnodes (lines.filterMap hostName) (parse_nodestream keepdup nnodes_set nnodes lines []) ↔
      NoBlankBefore keepdup nnodes lines := by
  rw [parse_nodestream_eq, filterMap_hostName, firstNames_iff, unreached_iff]

/-! ### The same names in both -/

/-- A name that neither source takes apart, and that does not make its line a comment. -/
structure Plain (name : Str) : Prop where
  nonempty : name ≠ []
  delims : ∀ c ∈ name, c ∉ delims
  nul : 0 ∉ name
  comment : name.head? ≠ some 35

/-- The names with delimiters between them, and possibly before and after. -/
inductive Delimited : List Str → Str → Prop
  | nil : Delimited [] []
  | delim {names : List Str} {string : Str} {c : UInt8} (hc : c ∈ delims) (h : Delimited names string) :
    Delimited names (c :: string)
  | name {names : List Str} {name string : Str} (hrest : Ends string) (h : Delimited names string) :
    Delimited (name :: names) (name ++ string)

/-- A file with one name in each line. -/
def oneEach (names : List Str) : Str := names.flatMap fun name => name ++ [Getline.newline]

theorem serverNames_delimited (h : Delimited names string) (hplain : ∀ name ∈ names, Plain name) :
    serverNames string = names := by
  induction h with
  | nil => rfl
  | delim hc _ ih =>
    rw [serverNames_delim hc]
    exact ih hplain
  | @name names name string hrest _ ih =>
    have hname := hplain name List.mem_cons_self
    have htail : serverNames (string.drop 1) = serverNames string := by
      cases string with
      | nil => rfl
      | cons c string => exact (serverNames_delim (hrest c rfl) string).symm
    rw [serverNames_word hname.nonempty hname.delims hrest, htail,
      ih fun n hn => hplain n (List.mem_cons_of_mem name hn)]

theorem whitespace_delims {c : UInt8} (h : c ∈ WHITESPACE) : c ∈ delims := List.mem_append_right _ h

theorem Plain.newline (h : Plain name) : Getline.newline ∉ name :=
  fun hmem => h.delims _ hmem (by decide)

theorem lines_oneEach (hplain : ∀ name ∈ names, Plain name) :
    Getline.lines (oneEach names) = names.map fun name => name ++ [Getline.newline] := by
  have hline : ∀ (line rest : Str), Getline.newline ∉ line →
      Getline.lines (line ++ Getline.newline :: rest) = (line ++ [Getline.newline]) :: Getline.lines rest := by
    intro line rest hnew
    induction line with
    | nil => rw [List.nil_append, Getline.lines, if_pos rfl, List.nil_append]
    | cons c line ih =>
      rw [List.mem_cons, not_or] at hnew
      rw [List.cons_append, Getline.lines, if_neg (Ne.symm hnew.1), ih hnew.2]
      rfl
  induction names with
  | nil => rfl
  | cons name names ih =>
    have htail : oneEach (name :: names) = name ++ Getline.newline :: oneEach names := by
      rw [oneEach, List.flatMap_cons, List.append_assoc]
      rfl
    rw [htail, hline _ _ (hplain name List.mem_cons_self).newline,
      ih fun n hn => hplain n (List.mem_cons_of_mem name hn), List.map_cons]

theorem column_name (h : Plain name) : column (name ++ [Getline.newline]) = some name := by
  have hspace : ∀ c ∈ name, c ∉ WHITESPACE := fun c hc hw => h.delims c hc (whitespace_delims hw)
  have hcstr : (name ++ [Getline.newline]).takeWhile (· ≠ 0) = name ++ [Getline.newline] := by
    rw [List.takeWhile_eq_self_iff]
    intro c hc
    refine decide_eq_true ?_
    rintro rfl
    rcases List.mem_append.mp hc with hc | hc
    · exact h.nul hc
    · cases List.mem_singleton.mp hc
  have hdrop : (name ++ [Getline.newline]).dropWhile (· ∈ WHITESPACE) = name ++ [Getline.newline] := by
    cases name with
    | nil => exact absurd rfl h.nonempty
    | cons c name =>
      exact List.dropWhile_cons_of_neg (by simpa using hspace c List.mem_cons_self)
  have hhead : (name ++ [Getline.newline]).head? = name.head? := by
    cases name with
    | nil => exact absurd rfl h.nonempty
    | cons c name => rfl
  have hword : (name ++ [Getline.newline]).takeWhile (· ∉ WHITESPACE) = name := by
    rw [List.takeWhile_append_of_pos fun c hc => decide_eq_true (hspace c hc),
      List.takeWhile_cons_of_neg (by decide), List.append_nil]
  rw [column, hcstr, hdrop, hhead, if_neg h.comment, hword]

theorem same_names (hplain : ∀ name ∈ names, Plain name) (h : Delimited names string) :
    parse_nodestream keepdup nnodes_set nnodes (Getline.lines (oneEach names)) [] =
      parse_servers keepdup nnodes_set nnodes string [] := by
  have hcolumns : (Getline.lines (oneEach names)).filterMap column = names := by
    rw [lines_oneEach hplain]
    clear h
    induction names with
    | nil => rfl
    | cons name names ih =>
      rw [List.map_cons, List.filterMap_cons_some (column_name (hplain name List.mem_cons_self)),
        ih fun n hn => hplain n (List.mem_cons_of_mem name hn)]
  rw [parse_nodestream_eq, parse_servers_eq, hcolumns, serverNames_delimited h hplain]

theorem plain_single {c : UInt8} (hdelim : c ∉ delims) (hnul : c ≠ 0) (hcomment : c ≠ 35) : Plain [c] where
  nonempty := nofun
  delims d hd := by
    rw [List.mem_singleton.mp hd]
    exact hdelim
  nul h := hnul (List.mem_singleton.mp h).symm
  comment h := hcomment (Option.some.inj h)

end Gasnet.NodeLists
