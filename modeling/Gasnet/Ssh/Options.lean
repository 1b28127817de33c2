import Mathlib.Data.List.TakeWhile
import Mathlib.Tactic.Tauto

/-! `parse_options`: the words of an option string, with quotes and escapes. -/
namespace Gasnet.SshOptions

/-- The characters of a C string, without its NUL. -/
abbrev Str := List UInt8

/-- Space, tab, newline and carriage return. -/
def WHITESPACE : Str := [32, 9, 10, 13]

/-- `sizeof(tmp)`. -/
def sizeof_tmp : Nat := 1024

/-- Backslash and double quote, and outside of double quotes white space and single quote as well. -/
def special (in_quotes : Bool) : Str := if in_quotes then [92, 34] else WHITESPACE ++ [92, 34, 39]

/-- Why the process ends. -/
inductive Fatal
  | die (message : String)
  | assertion
  deriving DecidableEq, Repr

/-- Where a pass of the inner loop gets to, or why it ends the process; `overrun` tells that a byte has been
stored beyond `tmp` by then. -/
inductive Pass
  | go (string tmp : Str) (in_quotes : Bool)
  | stop (why : Fatal) (overrun : Bool)
  deriving DecidableEq, Repr

/-- The bytes are stored behind `tmp`, and only then the length is looked at. -/
def append (tmp bytes : Str) (next : Str → Pass) : Pass :=
  if (tmp ++ bytes).length < sizeof_tmp - 1 then next (tmp ++ bytes)
  else .stop .assertion (sizeof_tmp < (tmp ++ bytes).length)

/-- The `switch` on the next character. -/
def switch (where_ : String) : Str → Str → Bool → Pass
  | [], tmp, in_quotes => .go [] tmp in_quotes
  | c :: string, tmp, in_quotes =>
    if c = 92 then
      match string with
      | [] => .stop (.die s!"string ends with \\ {where_}") false
      | d :: string =>
        if d ∈ special in_quotes then append tmp [d] fun tmp => .go string tmp in_quotes
        else append tmp [c, d] fun tmp => .go string tmp in_quotes
    else if c = 39 then
      match string.dropWhile (· ≠ 39) with
      | [] => .stop (.die s!"unbalanced ' {where_}") false
      | _ :: rest => append tmp (string.takeWhile (· ≠ 39)) fun tmp => .go rest tmp in_quotes
    else if c = 34 then .go string tmp !in_quotes
    else .go (c :: string) tmp in_quotes

/-- The body of the inner loop. -/
def body (where_ : String) (string tmp : Str) (in_quotes : Bool) : Pass :=
  append tmp (string.takeWhile (· ∉ special in_quotes)) fun tmp =>
    switch where_ (string.dropWhile (· ∉ special in_quotes)) tmp in_quotes

/-- The test of the inner loop. -/
def more (in_quotes : Bool) : Str → Bool
  | [] => false
  | c :: _ => in_quotes || c ∉ WHITESPACE

theorem append_go {tmp bytes : Str} {next : Str → Pass} {string' tmp' : Str} {q : Bool}
    (h : append tmp bytes next = .go string' tmp' q) :
    (tmp ++ bytes).length < sizeof_tmp - 1 ∧ next (tmp ++ bytes) = .go string' tmp' q := by
  rw [append] at h
  split at h
  · exact ⟨by assumption, h⟩
  · cases h

/-- The switch goes on, or leaves a white space character outside of quotes. -/
theorem switch_le {w : String} {string tmp string' tmp' : Str} {q q' : Bool}
    (h : switch w string tmp q = .go string' tmp' q') :
    string'.length < string.length ∨ string' = string ∧ q' = q ∧ ∀ c ∈ string.head?, c ∉ [92, 39, 34] := by
  cases string with
  | nil =>
    cases h
    exact .inr ⟨rfl, rfl, nofun⟩
  | cons c string =>
    rw [switch.eq_def] at h
    dsimp only at h
    split_ifs at h with hslash hquote hdouble
    · cases string with
      | nil => cases h
      | cons d string =>
        dsimp only at h
        have hlt : string.length < (c :: d :: string).length := by
          rw [List.length_cons, List.length_cons]
          omega
        split_ifs at h
        · cases (append_go h).2
          exact .inl hlt
        · cases (append_go h).2
          exact .inl hlt
    · cases hdrop : string.dropWhile (· ≠ 39) with
      | nil =>
        rw [hdrop] at h
        cases h
      | cons d rest =>
        rw [hdrop] at h
        cases (append_go h).2
        refine .inl ?_
        have hle := (List.dropWhile_suffix (· ≠ (39 : UInt8)) (l := string)).length_le
        rw [hdrop, List.length_cons] at hle
        rw [List.length_cons]
        omega
    · cases h
      exact .inl (Nat.lt_succ_self _)
    · cases h
      refine .inr ⟨rfl, rfl, ?_⟩
      intro d hd
      cases hd
      simp [hslash, hquote, hdouble]

theorem mem_special {c : UInt8} {q : Bool} : c ∈ special q ↔ c = 92 ∨ c = 34 ∨ q = false ∧ (c = 39 ∨ c ∈ WHITESPACE) := by
  cases q with
  | true => simp [special]
  | false =>
    simp only [special, Bool.false_eq_true, if_false, List.mem_append, List.mem_cons, List.not_mem_nil]
    tauto

theorem body_le {w : String} {string tmp string' tmp' : Str} {q q' : Bool}
    (h : body w string tmp q = .go string' tmp' q') : string'.length ≤ string.length := by
  have hsuffix := (List.dropWhile_suffix (· ∉ special q) (l := string)).length_le
  rcases switch_le (append_go h).2 with hlt | ⟨rfl, -, -⟩
  · exact hlt.le.trans hsuffix
  · exact hsuffix

/-- A pass that goes on has consumed a character. -/
theorem body_shorter {w : String} {string tmp string' tmp' : Str} {q q' : Bool}
    (h : body w string tmp q = .go string' tmp' q') (hmore : more q string ∨ more q' string') :
    string'.length < string.length := by
  have hswitch := (append_go h).2
  have hsuffix := (List.dropWhile_suffix (· ∉ special q) (l := string)).length_le
  rcases switch_le hswitch with hlt | ⟨hsame, rfl, hhead⟩
  · exact hlt.trans_le hsuffix
  · cases hdrop : string.dropWhile (· ∉ special q') with
    | nil =>
      rw [hsame, hdrop] at hmore ⊢
      have hne : string ≠ [] := by
        rintro rfl
        simp [more] at hmore
      exact List.length_pos_iff.mpr hne
    | cons c rest =>
      -- What stops the run and the switch does not take is white space outside of quotes.
      rw [hdrop] at hhead hsame
      have hstop : c ∈ special q' := by
        have hnot := List.head?_dropWhile_not (· ∉ special q') string
        rw [hdrop] at hnot
        simpa using hnot
      have hc := hhead c rfl
      simp only [List.mem_cons, List.not_mem_nil, or_false, not_or] at hc
      obtain ⟨rfl, hspace⟩ : q' = false ∧ c ∈ WHITESPACE := by
        rcases mem_special.mp hstop with h92 | h34 | ⟨hq, h39 | hspace⟩
        · exact absurd h92 hc.1
        · exact absurd h34 hc.2.2
        · exact absurd h39 hc.2.1
        · exact ⟨hq, hspace⟩
      have hout : more false (c :: rest) = false := by simp [more, hspace]
      rw [hsame, hout] at hmore
      have hfirst : more false string = true := hmore.resolve_right Bool.false_ne_true
      rw [hsame, ← hdrop]
      cases string with
      | nil => cases hdrop
      | cons d string =>
        rw [List.dropWhile_cons] at hdrop ⊢
        split_ifs at hdrop ⊢
        · exact Nat.lt_succ_of_le (List.dropWhile_suffix _).length_le
        · cases hdrop
          rw [hout] at hfirst
          cases hfirst

/-- The inner loop, and the test for an open quote behind it. -/
def inner (where_ : String) (string tmp : Str) (in_quotes : Bool) : Pass :=
  match h : body where_ string tmp in_quotes with
  | .stop why overrun => .stop why overrun
  | .go string' tmp' in_quotes' =>
    if hmore : more in_quotes' string' then inner where_ string' tmp' in_quotes'
    else if in_quotes' then .stop (.die s!"unbalanced \" {where_}") false
    else .go string' tmp' false
termination_by string.length
decreasing_by exact body_shorter h (.inr hmore)

/-- What `options_helper` and `parse_options` come to. -/
inductive Result
  | returns (count : Nat) (list : List Str)
  | stop (why : Fatal) (overrun : Bool)
  deriving DecidableEq, Repr

/-- Where the inner loop ends. -/
def leave (where_ : String) (string tmp : Str) (in_quotes : Bool) : Pass :=
  if in_quotes then .stop (.die s!"unbalanced \" {where_}") false else .go string tmp false

theorem inner_unfold (w : String) (string tmp : Str) (q : Bool) :
    inner w string tmp q =
      match body w string tmp q with
      | .stop why overrun => .stop why overrun
      | .go string' tmp' q' =>
        if more q' string' then inner w string' tmp' q' else leave w string' tmp' q' := by
  rw [inner.eq_def]
  split
  · next hbody => rw [hbody]
  · next hbody =>
    rw [hbody]
    dsimp only
    split_ifs with hmore hq
    · rfl
    · rw [leave, if_pos hq]
    · rw [leave, if_neg hq]

theorem inner_le {w : String} {string tmp string' tmp' : Str} {q q' : Bool}
    (h : inner w string tmp q = .go string' tmp' q') :
    string'.length ≤ string.length ∧ (more q string → string'.length < string.length) := by
  induction hn : string.length using Nat.strong_induction_on generalizing string tmp q with
  | _ n ih =>
    subst hn
    rw [inner_unfold] at h
    cases hbody : body w string tmp q with
    | stop why overrun =>
      rw [hbody] at h
      cases h
    | go s1 tmp1 q1 =>
      rw [hbody] at h
      dsimp only at h
      by_cases hmore : more q1 s1 = true
      · have hlt := body_shorter hbody (.inr hmore)
        rw [if_pos hmore] at h
        have hle := (ih _ hlt h rfl).1
        exact ⟨by omega, fun _ => by omega⟩
      · rw [if_neg hmore, leave] at h
        split_ifs at h
        cases h
        exact ⟨body_le hbody, fun hmore' => body_shorter hbody (.inl hmore')⟩

/-- `options_helper`: the number of words, and the words where `list` is given. -/
def options_helper (list : Bool) (where_ : String) (string : Str) : Result :=
  if hend : string.dropWhile (· ∈ WHITESPACE) = [] then .returns 0 []
  else match h : inner where_ (string.dropWhile (· ∈ WHITESPACE)) [] false with
  | .stop why overrun => .stop why overrun
  | .go rest tmp _ =>
    if list ∧ ¬ tmp.length < sizeof_tmp then .stop .assertion false
    else match options_helper list where_ rest with
      | .returns count words => .returns (count + 1) (if list then tmp :: words else words)
      | .stop why overrun => .stop why overrun
termination_by string.length
decreasing_by
  have hfirst : more false (string.dropWhile (· ∈ WHITESPACE)) = true := by
    have hnot := List.head?_dropWhile_not (· ∈ WHITESPACE) string
    cases hdrop : string.dropWhile (· ∈ WHITESPACE) with
    | nil => exact absurd hdrop hend
    | cons c rest =>
      rw [hdrop] at hnot
      simpa [more] using hnot
  exact ((inner_le h).2 hfirst).trans_le (List.dropWhile_suffix _).length_le

/-- `parse_options`: a pass that counts, and one that fills the list. -/
def parse_options (where_ : String) (string : Str) : Result :=
  match options_helper false where_ string with
  | .stop why overrun => .stop why overrun
  | .returns count _ =>
    match options_helper true where_ string with
    | .stop why overrun => .stop why overrun
    | .returns _ list => .returns count list

end Gasnet.SshOptions
