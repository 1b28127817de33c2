import Gasnet.Ssh.Options

/-! The words of an option string, as a grammar, and that `parse_options` finds these. -/
namespace Gasnet.SshOptions

/-! ### The grammar -/

/-- What a stretch of a word stands for, from inside or outside of double quotes to inside or outside. -/
inductive Text : Bool → Bool → Str → Str → Prop
  | nil {q : Bool} : Text q q [] []
  | plain {q q' : Bool} {c : UInt8} {s v : Str} (h : c ∉ special q) (hs : Text q q' s v) :
    Text q q' (c :: s) (c :: v)
  | escape {q q' : Bool} {c : UInt8} {s v : Str} (h : c ∈ special q) (hs : Text q q' s v) :
    Text q q' (92 :: c :: s) (c :: v)
  | backslash {q q' : Bool} {c : UInt8} {s v : Str} (h : c ∉ special q) (hs : Text q q' s v) :
    Text q q' (92 :: c :: s) (92 :: c :: v)
  | single {q : Bool} {literal s v : Str} (h : 39 ∉ literal) (hs : Text false q s v) :
    Text false q (39 :: (literal ++ 39 :: s)) (literal ++ v)
  | opening {q : Bool} {s v : Str} (hs : Text true q s v) : Text false q (34 :: s) v
  | closing {q : Bool} {s v : Str} (hs : Text false q s v) : Text true q (34 :: s) v

/-- Words that are each followed by white space. -/
inductive Spaced : Str → List Str → Prop
  | nil : Spaced [] []
  | space {c : UInt8} {s : Str} {ws : List Str} (h : c ∈ WHITESPACE) (hs : Spaced s ws) : Spaced (c :: s) ws
  | word {c : UInt8} {w v s : Str} {ws : List Str} (hw : Text false false w v) (hne : w ≠ [])
    (hc : c ∈ WHITESPACE) (hs : Spaced s ws) : Spaced (w ++ c :: s) (v :: ws)

/-- The words of a string. -/
inductive Words : Str → List Str → Prop
  | spaced {s : Str} {ws : List Str} (h : Spaced s ws) : Words s ws
  | last {s w v : Str} {ws : List Str} (h : Spaced s ws) (hw : Text false false w v) (hne : w ≠ []) :
    Words (s ++ w) (ws ++ [v])

/-- A quote that is not closed, or a backslash at the end. -/
inductive Flaw : Bool → Str → Prop
  | double : Flaw true []
  | single {literal : Str} (h : 39 ∉ literal) : Flaw false (39 :: literal)
  | backslash {q : Bool} : Flaw q [92]

/-- A quote is unbalanced, or the string ends in a lone backslash. -/
inductive Malformed : Str → Prop
  | flaw {s w v rest : Str} {ws : List Str} {q : Bool} (h : Spaced s ws) (hw : Text false q w v)
    (hflaw : Flaw q rest) : Malformed (s ++ (w ++ rest))

/-- The longest word that fits. -/
def longest : Nat := sizeof_tmp - 2

/-- What is copied in one go: a run without special characters, or what is in single quotes. -/
inductive Copied : Bool → Str → Str → Prop
  | run {q : Bool} {rest : Str} : Copied q rest (rest.takeWhile (· ∉ special q))
  | single {literal rest : Str} (h : 39 ∉ literal) : Copied false (39 :: (literal ++ 39 :: rest)) literal

/-- In a string whose words so far fit, what is copied in one go takes a word that fits so far beyond the
buffer. -/
inductive Crosses : Str → Prop
  | intro {s w v rest bytes : Str} {ws : List Str} {q : Bool} (h : Spaced s ws)
    (hws : ∀ u ∈ ws, u.length ≤ longest) (hw : Text false q w v) (hv : v.length ≤ longest)
    (hcopied : Copied q rest bytes) (hlong : sizeof_tmp < v.length + bytes.length) : Crosses (s ++ (w ++ rest))

variable {w string s v rest tmp bytes : Str} {q q' q'' : Bool} {c : UInt8} {loc : String} {ws : List Str}

/-- A stretch of a word does not start with white space outside of quotes. -/
theorem Text.head (h : Text false q (c :: s) v) : c ∉ WHITESPACE := by
  cases h with
  | plain h _ => exact fun hc => h (mem_special.mpr (.inr (.inr ⟨rfl, .inr hc⟩)))
  | escape _ _ => decide
  | backslash _ _ => decide
  | single _ _ => decide
  | opening _ => decide

/-! ### The loop on a stretch of text -/

theorem more_eq_false : more q string = false ↔ string = [] ∨ q = false ∧ ∃ c ∈ string.head?, c ∈ WHITESPACE := by
  cases string with
  | nil => simp [more]
  | cons c string => simp [more]

/-- A pass that starts where the loop would end changes nothing. -/
theorem body_of_not_more (hmore : more q string = false) (htmp : tmp.length ≤ longest) :
    body loc string tmp q = .go string tmp q := by
  have hfits : tmp.length < sizeof_tmp - 1 := Nat.lt_of_le_of_lt htmp (by decide)
  rcases more_eq_false.mp hmore with rfl | ⟨rfl, c, hhead, hspace⟩
  · rw [body, append, List.takeWhile_nil, List.append_nil, if_pos hfits]
    rfl
  · obtain ⟨rest, rfl⟩ := List.head?_eq_some_iff.mp hhead
    have hspecial : c ∈ special false := mem_special.mpr (.inr (.inr ⟨rfl, .inr hspace⟩))
    have hne : c ≠ 92 ∧ c ≠ 39 ∧ c ≠ 34 := by
      refine ⟨?_, ?_, ?_⟩ <;> rintro rfl <;> exact absurd hspace (by decide)
    rw [body, append, List.takeWhile_cons_of_neg (by simpa using hspecial),
      List.dropWhile_cons_of_neg (by simpa using hspecial), List.append_nil, if_pos hfits, switch.eq_def]
    dsimp only
    rw [if_neg hne.1, if_neg hne.2.1, if_neg hne.2.2]

theorem inner_of_not_more (hmore : more q string = false) (htmp : tmp.length ≤ longest) :
    inner loc string tmp q = leave loc string tmp q := by
  rw [inner_unfold, body_of_not_more hmore htmp]
  dsimp only
  rw [if_neg (by rw [hmore]; exact Bool.false_ne_true)]

theorem append_fits {next : Str → Pass} {s' tmp' : Str} (h : append tmp bytes next = .go s' tmp' q')
    (hnext : ∀ tmp, tmp.length ≤ longest → next tmp = .go s' tmp' q' → tmp'.length ≤ longest) :
    tmp'.length ≤ longest :=
  hnext _ (Nat.le_pred_of_lt (append_go h).1) (append_go h).2

theorem switch_fits {s' tmp' : Str} (htmp : tmp.length ≤ longest) (h : switch loc string tmp q = .go s' tmp' q') :
    tmp'.length ≤ longest := by
  cases string with
  | nil =>
    cases h
    exact htmp
  | cons c string =>
    rw [switch.eq_def] at h
    dsimp only at h
    split_ifs at h
    · cases string with
      | nil => cases h
      | cons d string =>
        dsimp only at h
        split_ifs at h
        · exact append_fits h fun _ hfits heq => by cases heq; exact hfits
        · exact append_fits h fun _ hfits heq => by cases heq; exact hfits
    · cases hdrop : string.dropWhile (· ≠ 39) with
      | nil =>
        rw [hdrop] at h
        cases h
      | cons d rest =>
        rw [hdrop] at h
        exact append_fits h fun _ hfits heq => by cases heq; exact hfits
    · cases h
      exact htmp
    · cases h
      exact htmp

/-- The test of the loop is of no account. -/
theorem inner_eq (loc : String) (string tmp : Str) (q : Bool) :
    inner loc string tmp q =
      match body loc string tmp q with
      | .stop why overrun => .stop why overrun
      | .go string' tmp' q' => inner loc string' tmp' q' := by
  rw [inner_unfold]
  cases hbody : body loc string tmp q with
  | stop why overrun => rfl
  | go s1 tmp1 q1 =>
    dsimp only
    have hfits := append_fits hbody fun _ => switch_fits
    by_cases hmore : more q1 s1 = true
    · rw [if_pos hmore]
    · rw [if_neg hmore, inner_of_not_more (Bool.eq_false_iff.mpr hmore) hfits]

/-- A word that is too long already. -/
theorem inner_of_long (htmp : longest < tmp.length) :
    inner loc string tmp q =
      .stop .assertion (sizeof_tmp < tmp.length + (string.takeWhile (· ∉ special q)).length) := by
  have hlong : ¬(tmp ++ string.takeWhile (· ∉ special q)).length < sizeof_tmp - 1 := by
    rw [List.length_append]
    have hsize : sizeof_tmp - 1 = longest + 1 := rfl
    omega
  rw [inner_eq, body, append, if_neg hlong, List.length_append]

theorem inner_plain (h : c ∉ special q) : inner loc (c :: s) tmp q = inner loc s (tmp ++ [c]) q := by
  have hbody : body loc (c :: s) tmp q = body loc s (tmp ++ [c]) q := by
    rw [body, body, List.takeWhile_cons_of_pos (by simpa using h), List.dropWhile_cons_of_pos (by simpa using h),
      append, append, List.append_assoc, List.singleton_append]
  rw [inner_eq, inner_eq, hbody]

/-- At a special character the run is empty. -/
theorem inner_special (h : c ∈ special q) (htmp : tmp.length ≤ longest) :
    inner loc (c :: s) tmp q =
      match switch loc (c :: s) tmp q with
      | .stop why overrun => .stop why overrun
      | .go string' tmp' q' => inner loc string' tmp' q' := by
  have hfits : tmp.length < sizeof_tmp - 1 := Nat.lt_of_le_of_lt htmp (by decide)
  rw [inner_eq, body, append, List.takeWhile_cons_of_neg (by simpa using h),
    List.dropWhile_cons_of_neg (by simpa using h), List.append_nil, if_pos hfits]

/-- The loop behind a copy. -/
def copied (loc : String) (rest tmp bytes : Str) (q : Bool) : Pass :=
  if (tmp ++ bytes).length ≤ longest then inner loc rest (tmp ++ bytes) q
  else .stop .assertion (sizeof_tmp < (tmp ++ bytes).length)

theorem inner_append {next : Str → Pass} (hnext : ∀ tmp, next tmp = .go rest tmp q) :
    (match append tmp bytes next with
      | .stop why overrun => .stop why overrun
      | .go string' tmp' q' => inner loc string' tmp' q') = copied loc rest tmp bytes q := by
  rw [append, copied]
  by_cases hfits : (tmp ++ bytes).length ≤ longest
  · rw [if_pos hfits, if_pos (Nat.lt_of_le_of_lt hfits (by decide)), hnext]
  · have hlong : ¬(tmp ++ bytes).length < sizeof_tmp - 1 := by
      have hsize : sizeof_tmp - 1 = longest + 1 := rfl
      omega
    rw [if_neg hfits, if_neg hlong]

theorem slash_special : 92 ∈ special q := mem_special.mpr (.inl rfl)

theorem inner_escape (h : c ∈ special q) (htmp : tmp.length ≤ longest) :
    inner loc (92 :: c :: s) tmp q = copied loc s tmp [c] q := by
  rw [inner_special slash_special htmp, switch, if_pos rfl]
  rw [if_pos h]
  exact inner_append fun _ => rfl

theorem inner_backslash (h : c ∉ special q) (htmp : tmp.length ≤ longest) :
    inner loc (92 :: c :: s) tmp q = copied loc s tmp [92, c] q := by
  rw [inner_special slash_special htmp, switch, if_pos rfl]
  rw [if_neg h]
  exact inner_append fun _ => rfl

theorem takeWhile_literal (h : 39 ∉ bytes) :
    (bytes ++ 39 :: s).takeWhile (· ≠ 39) = bytes ∧ (bytes ++ 39 :: s).dropWhile (· ≠ 39) = 39 :: s := by
  have hall : ∀ d ∈ bytes, decide (d ≠ 39) = true := by
    intro d hd
    refine decide_eq_true ?_
    rintro rfl
    exact h hd
  constructor
  · rw [List.takeWhile_append_of_pos hall, List.takeWhile_cons_of_neg (by simp), List.append_nil]
  · rw [List.dropWhile_append_of_pos hall, List.dropWhile_cons_of_neg (by simp)]

theorem inner_single (h : 39 ∉ bytes) (htmp : tmp.length ≤ longest) :
    inner loc (39 :: (bytes ++ 39 :: s)) tmp false = copied loc s tmp bytes false := by
  obtain ⟨htake, hdrop⟩ := takeWhile_literal (s := s) h
  rw [inner_special (by decide) htmp, switch.eq_def]
  dsimp only
  rw [if_neg (by decide), if_pos rfl, hdrop, htake]
  exact inner_append fun _ => rfl

theorem inner_quote (htmp : tmp.length ≤ longest) : inner loc (34 :: s) tmp q = inner loc s tmp !q := by
  rw [inner_special (mem_special.mpr (.inr (.inl rfl))) htmp, switch.eq_def]
  dsimp only
  rw [if_neg (by decide), if_neg (by decide), if_pos rfl]

/-- The loop goes on as it should while the word fits, and stops where it does not. -/
def Reads (loc : String) (string tmp : Str) (q : Bool) (rest v : Str) (q' : Bool) : Prop :=
  (tmp.length + v.length ≤ longest → inner loc string tmp q = inner loc rest (tmp ++ v) q') ∧
    (longest < tmp.length + v.length → ∃ overrun, inner loc string tmp q = .stop .assertion overrun)

theorem Reads.copied {r : Str} (bytes : Str)
    (hcopy : tmp.length ≤ longest → inner loc string tmp q = copied loc r tmp bytes q)
    (h : Reads loc r (tmp ++ bytes) q rest v q') : Reads loc string tmp q rest (bytes ++ v) q' := by
  obtain ⟨hgo, hstop⟩ := h
  rw [List.length_append] at hgo hstop
  refine ⟨?_, ?_⟩
  · rw [List.length_append]
    intro hfits
    have hbytes : (tmp ++ bytes).length ≤ longest := by
      rw [List.length_append]
      omega
    rw [hcopy (by omega), SshOptions.copied, if_pos hbytes, hgo (by omega), List.append_assoc]
  · rw [List.length_append]
    intro hlong
    by_cases htmp : tmp.length ≤ longest
    · rw [hcopy htmp, SshOptions.copied]
      split_ifs
      · exact hstop (by omega)
      · exact ⟨_, rfl⟩
    · exact ⟨_, inner_of_long (Nat.lt_of_not_le htmp)⟩

theorem Reads.quote (h : Reads loc s tmp (!q) rest v q') : Reads loc (34 :: s) tmp q rest v q' := by
  obtain ⟨hgo, hstop⟩ := h
  refine ⟨fun hfits => ?_, fun hlong => ?_⟩
  · rw [inner_quote (by omega)]
    exact hgo hfits
  · by_cases htmp : tmp.length ≤ longest
    · rw [inner_quote htmp]
      exact hstop hlong
    · exact ⟨_, inner_of_long (Nat.lt_of_not_le htmp)⟩

/-- What the loop makes of a stretch of text. -/
theorem Text.reads (h : Text q q' s v) (loc : String) (rest tmp : Str) :
    Reads loc (s ++ rest) tmp q rest v q' := by
  induction h generalizing tmp with
  | nil =>
    refine ⟨fun _ => by rw [List.nil_append, List.append_nil], fun hlong => ⟨_, inner_of_long ?_⟩⟩
    rwa [List.length_nil, Nat.add_zero] at hlong
  | @plain q q' c s v hc _ ih =>
    obtain ⟨hgo, hstop⟩ := ih (tmp ++ [c])
    rw [List.length_append, List.length_singleton, List.append_assoc, List.singleton_append] at hgo
    rw [List.length_append, List.length_singleton] at hstop
    rw [List.cons_append]
    refine ⟨fun hfits => ?_, fun hlong => ?_⟩
    · rw [List.length_cons] at hfits
      rw [inner_plain hc, hgo (by omega)]
    · rw [List.length_cons] at hlong
      rw [inner_plain hc]
      exact hstop (by omega)
  | @escape q q' c s v hc _ ih => exact Reads.copied [c] (inner_escape hc) (ih _)
  | @backslash q q' c s v hc _ ih => exact Reads.copied [92, c] (inner_backslash hc) (ih _)
  | @single q literal s v hliteral _ ih =>
    rw [List.cons_append, List.append_assoc]
    exact Reads.copied literal (inner_single hliteral) (ih _)
  | @opening q s v _ ih => exact Reads.quote (q := false) (ih tmp)
  | @closing q s v _ ih => exact Reads.quote (q := true) (ih tmp)

/-- Where a word is broken off the loop ends the process. -/
theorem Flaw.dies (h : Flaw q rest) (loc : String) (htmp : tmp.length ≤ longest) :
    ∃ message, inner loc rest tmp q = .stop (.die message) false := by
  cases h with
  | double => exact ⟨_, inner_of_not_more rfl htmp⟩
  | @single literal hliteral =>
    have hdrop : literal.dropWhile (· ≠ 39) = [] := by
      rw [List.dropWhile_eq_nil_iff]
      intro c hc
      refine decide_eq_true ?_
      rintro rfl
      exact hliteral hc
    rw [inner_special (by decide) htmp, switch.eq_def]
    dsimp only
    rw [if_neg (by decide), if_pos rfl, hdrop]
    exact ⟨_, rfl⟩
  | backslash =>
    rw [inner_special slash_special htmp, switch, if_pos rfl]
    exact ⟨_, rfl⟩

/-- How a string starts. -/
inductive View : Bool → Str → Prop
  | nil {q : Bool} : View q []
  | plain {q : Bool} {c : UInt8} {s : Str} (h : c ∉ special q) : View q (c :: s)
  | space {c : UInt8} {s : Str} (h : c ∈ WHITESPACE) : View false (c :: s)
  | lone {q : Bool} : View q [92]
  | slash {q : Bool} {c : UInt8} {s : Str} : View q (92 :: c :: s)
  | unclosed {literal : Str} (h : 39 ∉ literal) : View false (39 :: literal)
  | closed {literal s : Str} (h : 39 ∉ literal) : View false (39 :: (literal ++ 39 :: s))
  | double {q : Bool} {s : Str} : View q (34 :: s)

theorem view (q : Bool) (string : Str) : View q string := by
  cases string with
  | nil => exact .nil
  | cons c s =>
    by_cases hc : c ∈ special q
    · rcases mem_special.mp hc with rfl | rfl | ⟨rfl, rfl | hspace⟩
      · cases s with
        | nil => exact .lone
        | cons d s => exact .slash
      · exact .double
      · by_cases hquote : 39 ∈ s
        · obtain ⟨literal, rest, rfl, hliteral⟩ := List.eq_append_cons_of_mem hquote
          exact .closed hliteral
        · exact .unclosed hquote
      · exact .space hspace
    · exact .plain hc

/-- A word ends before white space or at the end of the string, or is broken off. -/
theorem text_total (q : Bool) (string : Str) :
    ∃ q' w v r, string = w ++ r ∧ Text q q' w v ∧
      (q' = false ∧ (r = [] ∨ ∃ c s, r = c :: s ∧ c ∈ WHITESPACE) ∨ Flaw q' r) := by
  induction hn : string.length using Nat.strong_induction_on generalizing string q with
  | _ n ih =>
    subst hn
    cases view q string with
    | nil =>
      cases q with
      | false => exact ⟨false, [], [], [], rfl, .nil, .inl ⟨rfl, .inl rfl⟩⟩
      | true => exact ⟨true, [], [], [], rfl, .nil, .inr .double⟩
    | @plain q c s hc =>
      obtain ⟨q', w, v, r, rfl, htext, hend⟩ := ih _ (Nat.lt_succ_self _) q s rfl
      exact ⟨q', c :: w, c :: v, r, rfl, .plain hc htext, hend⟩
    | @space c s hc => exact ⟨false, [], [], c :: s, rfl, .nil, .inl ⟨rfl, .inr ⟨c, s, rfl, hc⟩⟩⟩
    | lone => exact ⟨q, [], [], [92], rfl, .nil, .inr .backslash⟩
    | @slash q c s =>
      obtain ⟨q', w, v, r, rfl, htext, hend⟩ := ih _ (Nat.lt_succ_of_lt (Nat.lt_succ_self _)) q s rfl
      by_cases hc : c ∈ special q
      · exact ⟨q', 92 :: c :: w, c :: v, r, rfl, .escape hc htext, hend⟩
      · exact ⟨q', 92 :: c :: w, 92 :: c :: v, r, rfl, .backslash hc htext, hend⟩
    | @unclosed literal h => exact ⟨false, [], [], 39 :: literal, rfl, .nil, .inr (.single h)⟩
    | @closed literal s h =>
      have hlt : s.length < (39 :: (literal ++ 39 :: s)).length := by
        rw [List.length_cons, List.length_append, List.length_cons]
        omega
      obtain ⟨q', w, v, r, rfl, htext, hend⟩ := ih _ hlt false s rfl
      exact ⟨q', 39 :: (literal ++ 39 :: w), literal ++ v, r, by simp, .single h htext, hend⟩
    | @double q s =>
      obtain ⟨q', w, v, r, rfl, htext, hend⟩ := ih _ (Nat.lt_succ_self _) (!q) s rfl
      cases q with
      | false => exact ⟨q', 34 :: w, v, r, rfl, .opening htext, hend⟩
      | true => exact ⟨q', 34 :: w, v, r, rfl, .closing htext, hend⟩

theorem Spaced.append {s' : Str} {ws' : List Str} (h : Spaced s ws) (h' : Spaced s' ws') :
    Spaced (s ++ s') (ws ++ ws') := by
  induction h with
  | nil => exact h'
  | space hc _ ih => exact .space hc ih
  | word hw hne hc _ ih =>
    rw [List.append_assoc]
    exact .word hw hne hc ih

theorem Words.after {s' : Str} {ws' : List Str} (h : Words s' ws') (hs : Spaced s ws) :
    Words (s ++ s') (ws ++ ws') := by
  cases h with
  | spaced h => exact .spaced (hs.append h)
  | last h hw hne =>
    rw [← List.append_assoc, ← List.append_assoc]
    exact .last (hs.append h) hw hne

theorem Malformed.after {s' : Str} (h : Malformed s') (hs : Spaced s ws) : Malformed (s ++ s') := by
  obtain ⟨h, hw, hflaw⟩ := h
  rw [← List.append_assoc]
  exact .flaw (hs.append h) hw hflaw

theorem Crosses.after {s' : Str} (h : Crosses s') (hs : Spaced s ws) (hws : ∀ u ∈ ws, u.length ≤ longest) :
    Crosses (s ++ s') := by
  obtain ⟨h, hws', hw, hv, hcopied, hlong⟩ := h
  rw [← List.append_assoc]
  refine .intro (hs.append h) ?_ hw hv hcopied hlong
  intro u hu
  rcases List.mem_append.mp hu with hu | hu
  · exact hws u hu
  · exact hws' u hu

theorem spaced_space (hc : c ∈ WHITESPACE) : Spaced [c] [] := .space hc .nil

theorem spaced_word (hw : Text false false w v) (hne : w ≠ []) (hc : c ∈ WHITESPACE) : Spaced (w ++ [c]) [v] :=
  .word hw hne hc .nil

/-- Every string has words or is malformed. -/
theorem words_or_malformed (string : Str) : (∃ ws, Words string ws) ∨ Malformed string := by
  induction hn : string.length using Nat.strong_induction_on generalizing string with
  | _ n ih =>
    subst hn
    by_cases hspace : ∃ c s, string = c :: s ∧ c ∈ WHITESPACE
    · obtain ⟨c, s, rfl, hc⟩ := hspace
      rcases ih _ (Nat.lt_succ_self _) s rfl with ⟨ws, hws⟩ | hbad
      · exact .inl ⟨_, hws.after (spaced_space hc)⟩
      · exact .inr (hbad.after (spaced_space hc))
    · obtain ⟨q, w, v, r, rfl, htext, ⟨rfl, hend⟩ | hflaw⟩ := text_total false string
      · rcases hend with rfl | ⟨c, s, rfl, hc⟩
        · by_cases hne : w = []
          · rw [hne]
            exact .inl ⟨[], .spaced .nil⟩
          · rw [List.append_nil]
            exact .inl ⟨_, .last .nil htext hne⟩
        · have hne : w ≠ [] := by
            rintro rfl
            exact hspace ⟨c, s, rfl, hc⟩
          have hlt : s.length < (w ++ c :: s).length := by
            rw [List.length_append, List.length_cons]
            omega
          rw [List.append_cons]
          rcases ih _ hlt s rfl with ⟨ws, hws⟩ | hbad
          · exact .inl ⟨_, hws.after (spaced_word htext hne hc)⟩
          · exact .inr (hbad.after (spaced_word htext hne hc))
      · exact .inr (.flaw .nil htext hflaw)

/-! ### The outer loop -/

/-- A word in front. -/
def Result.addWord (list : Bool) (v : Str) : Result → Result
  | .returns count words => .returns (count + 1) (if list then v :: words else words)
  | .stop why overrun => .stop why overrun

theorem options_helper_nil (list : Bool) (loc : String) : options_helper list loc [] = .returns 0 [] := by
  rw [options_helper]
  exact dif_pos rfl

theorem options_helper_space (list : Bool) (loc : String) (hc : c ∈ WHITESPACE) :
    options_helper list loc (c :: s) = options_helper list loc s := by
  have hdrop : (c :: s).dropWhile (· ∈ WHITESPACE) = s.dropWhile (· ∈ WHITESPACE) :=
    List.dropWhile_cons_of_pos (decide_eq_true hc)
  rw [options_helper.eq_def, options_helper.eq_def, hdrop]

/-- At the start of a word. -/
theorem options_helper_start (list : Bool) (loc : String) (hmore : more false string) :
    options_helper list loc string =
      match inner loc string [] false with
      | .stop why overrun => .stop why overrun
      | .go rest tmp _ =>
        if list ∧ ¬ tmp.length < sizeof_tmp then .stop .assertion false
        else (options_helper list loc rest).addWord list tmp := by
  have hdrop : string.dropWhile (· ∈ WHITESPACE) = string := by
    cases string with
    | nil => rfl
    | cons c s => exact List.dropWhile_cons_of_neg (by simpa [more] using hmore)
  have hne : string ≠ [] := by
    rintro rfl
    cases hmore
  rw [options_helper.eq_def, hdrop, dif_neg hne]
  cases inner loc string [] false with
  | stop why overrun => rfl
  | go rest tmp q =>
    dsimp only
    by_cases hlong : list = true ∧ ¬tmp.length < sizeof_tmp
    · rw [if_pos hlong, if_pos hlong]
    · rw [if_neg hlong, if_neg hlong]
      cases options_helper list loc rest <;> rfl

/-- The first word of a string. -/
theorem options_helper_word (list : Bool) (loc : String) (hw : Text false false w v) (hne : w ≠ [])
    (hend : rest = [] ∨ ∃ c s, rest = c :: s ∧ c ∈ WHITESPACE) :
    (v.length ≤ longest →
      options_helper list loc (w ++ rest) = (options_helper list loc rest).addWord list v) ∧
      (longest < v.length → ∃ overrun, options_helper list loc (w ++ rest) = .stop .assertion overrun) := by
  have hmore : more false (w ++ rest) = true := by
    cases w with
    | nil => exact absurd rfl hne
    | cons c w => simpa [more] using hw.head
  obtain ⟨hgo, hstop⟩ := hw.reads loc rest []
  rw [List.length_nil, Nat.zero_add, List.nil_append] at hgo
  rw [List.length_nil, Nat.zero_add] at hstop
  rw [options_helper_start list loc hmore]
  refine ⟨fun hfits => ?_, fun hlong => ?_⟩
  · have hout : more false rest = false := by
      rcases hend with rfl | ⟨c, s, rfl, hc⟩
      · rfl
      · simp [more, hc]
    have hroom : v.length < sizeof_tmp := Nat.lt_of_le_of_lt hfits (by decide)
    rw [hgo hfits, inner_of_not_more hout hfits, leave, if_neg Bool.false_ne_true]
    dsimp only
    rw [if_neg fun h => h.2 hroom]
  · obtain ⟨overrun, h⟩ := hstop hlong
    rw [h]
    exact ⟨overrun, rfl⟩

/-- Words in front. -/
def addWords (list : Bool) (ws : List Str) (r : Result) : Result := ws.foldr (Result.addWord list) r

theorem Spaced.options_helper (h : Spaced s ws) (list : Bool) (loc : String) (rest : Str) :
    ((∀ u ∈ ws, u.length ≤ longest) →
      options_helper list loc (s ++ rest) = addWords list ws (options_helper list loc rest)) ∧
      ((∃ u ∈ ws, longest < u.length) →
        ∃ overrun, options_helper list loc (s ++ rest) = .stop .assertion overrun) := by
  induction h with
  | nil => exact ⟨fun _ => rfl, nofun⟩
  | @space c s ws hc _ ih =>
    rw [List.cons_append, options_helper_space list loc hc]
    exact ih
  | @word c w v s ws hw hne hc _ ih =>
    obtain ⟨hgo, hstop⟩ := options_helper_word list loc hw hne (.inr ⟨c, s ++ rest, rfl, hc⟩)
    rw [List.append_assoc, List.cons_append]
    refine ⟨fun hfits => ?_, ?_⟩
    · rw [hgo (hfits v List.mem_cons_self), options_helper_space list loc hc,
        ih.1 fun u hu => hfits u (List.mem_cons_of_mem v hu)]
      rfl
    · rintro ⟨u, hu, hlong⟩
      by_cases hv : v.length ≤ longest
      · have hu' : u ∈ ws := by
          rcases List.mem_cons.mp hu with rfl | hu
          · exact absurd hv (Nat.not_le.mpr hlong)
          · exact hu
        obtain ⟨overrun, hrest⟩ := ih.2 ⟨u, hu', hlong⟩
        rw [hgo hv, options_helper_space list loc hc, hrest]
        exact ⟨overrun, rfl⟩
      · exact hstop (Nat.lt_of_not_le hv)

theorem addWords_returns (list : Bool) (ws : List Str) (count : Nat) (words : List Str) :
    addWords list ws (.returns count words) =
      .returns (ws.length + count) (if list then ws ++ words else words) := by
  induction ws with
  | nil => cases list <;> simp [addWords]
  | cons u ws ih =>
    rw [addWords, List.foldr_cons, ← addWords, ih, Result.addWord, List.length_cons]
    cases list <;> simp <;> omega

theorem addWords_stop (list : Bool) (ws : List Str) (why : Fatal) (overrun : Bool) :
    addWords list ws (.stop why overrun) = .stop why overrun := by
  induction ws with
  | nil => rfl
  | cons u ws ih =>
    rw [addWords, List.foldr_cons, ← addWords, ih]
    rfl

/-- What the outer loop makes of a string that has words. -/
theorem Words.options_helper (h : Words string ws) (list : Bool) (loc : String) :
    ((∀ u ∈ ws, u.length ≤ longest) →
      options_helper list loc string = .returns ws.length (if list then ws else [])) ∧
      ((∃ u ∈ ws, longest < u.length) →
        ∃ overrun, options_helper list loc string = .stop .assertion overrun) := by
  cases h with
  | spaced h =>
    have hhelper := h.options_helper list loc []
    rw [List.append_nil, options_helper_nil, addWords_returns, List.append_nil, Nat.add_zero] at hhelper
    exact hhelper
  | @last s w v ws h hw hne =>
    have hhelper := h.options_helper list loc w
    obtain ⟨hgo, hstop⟩ := options_helper_word list loc hw hne (.inl rfl)
    rw [List.append_nil, options_helper_nil] at hgo
    rw [List.append_nil] at hstop
    refine ⟨fun hfits => ?_, ?_⟩
    · have hv := hfits v (List.mem_append_right ws List.mem_cons_self)
      rw [hhelper.1 fun u hu => hfits u (List.mem_append_left [v] hu), hgo hv, Result.addWord, addWords_returns,
        List.length_append, List.length_singleton]
      cases list <;> simp
    · rintro ⟨u, hu, hlong⟩
      by_cases hall : ∀ u ∈ ws, u.length ≤ longest
      · have hv : longest < v.length := by
          rcases List.mem_append.mp hu with hu | hu
          · exact absurd (hall u hu) (Nat.not_le.mpr hlong)
          · rw [List.mem_singleton.mp hu] at hlong
            exact hlong
        obtain ⟨overrun, hrest⟩ := hstop hv
        rw [hhelper.1 hall, hrest, addWords_stop]
        exact ⟨overrun, rfl⟩
      · obtain ⟨u, hu⟩ := not_forall.mp hall
        obtain ⟨hu, hlong⟩ := Classical.not_imp.mp hu
        exact hhelper.2 ⟨u, hu, Nat.lt_of_not_le hlong⟩

theorem more_text (hw : Text false q w v) (hrest : w = [] → more q rest = true) : more false (w ++ rest) = true := by
  cases w with
  | nil =>
    cases hw
    exact hrest rfl
  | cons c w => simpa [more] using hw.head

/-- Where the string is broken off the process ends. -/
theorem Malformed.options_helper (h : Malformed string) (list : Bool) (loc : String) :
    ∃ why overrun, options_helper list loc string = .stop why overrun := by
  obtain @⟨s, w, v, rest, ws, q, h, hw, hflaw⟩ := h
  have hmore : more false (w ++ rest) = true := by
    refine more_text hw ?_
    rintro rfl
    cases hw
    cases hflaw with
    | single _ => rfl
    | backslash => rfl
  obtain ⟨why, overrun, hstop⟩ : ∃ why overrun, inner loc (w ++ rest) [] false = .stop why overrun := by
    obtain ⟨hgo, hstop⟩ := hw.reads loc rest []
    rw [List.length_nil, Nat.zero_add, List.nil_append] at hgo
    rw [List.length_nil, Nat.zero_add] at hstop
    by_cases hv : v.length ≤ longest
    · obtain ⟨message, hdies⟩ := hflaw.dies loc hv
      exact ⟨_, _, (hgo hv).trans hdies⟩
    · obtain ⟨overrun, hlong⟩ := hstop (Nat.lt_of_not_le hv)
      exact ⟨_, _, hlong⟩
  have hlast := options_helper_start list loc hmore
  rw [hstop] at hlast
  obtain ⟨hgo, hlong⟩ := h.options_helper list loc (w ++ rest)
  by_cases hall : ∀ u ∈ ws, u.length ≤ longest
  · rw [hgo hall, hlast, addWords_stop]
    exact ⟨_, _, rfl⟩
  · obtain ⟨u, hu⟩ := not_forall.mp hall
    obtain ⟨hu, hlen⟩ := Classical.not_imp.mp hu
    obtain ⟨overrun, hassert⟩ := hlong ⟨u, hu, Nat.lt_of_not_le hlen⟩
    exact ⟨_, _, hassert⟩

/-! ### Bytes beyond the buffer -/

/-- A copy that crosses the end of the buffer. -/
theorem Copied.crosses (h : Copied q rest bytes) (loc : String) (htmp : tmp.length ≤ longest)
    (hlong : sizeof_tmp < tmp.length + bytes.length) : inner loc rest tmp q = .stop .assertion true := by
  have hsize : sizeof_tmp = longest + 2 := rfl
  cases h with
  | run =>
    rw [inner_eq, body, append, if_neg (by rw [List.length_append]; omega), List.length_append,
      decide_eq_true hlong]
  | single hliteral =>
    rw [inner_single hliteral htmp, copied, if_neg (by rw [List.length_append]; omega), List.length_append,
      decide_eq_true hlong]

theorem copied_overrun {why : Fatal} (h : copied loc s tmp bytes q = .stop why true) :
    (tmp ++ bytes).length ≤ longest ∧ inner loc s (tmp ++ bytes) q = .stop why true ∨
      sizeof_tmp < tmp.length + bytes.length := by
  rw [copied] at h
  by_cases hfits : (tmp ++ bytes).length ≤ longest
  · rw [if_pos hfits] at h
    exact .inl ⟨hfits, h⟩
  · rw [if_neg hfits] at h
    have hover := of_decide_eq_true (Pass.stop.inj h).2
    rw [List.length_append] at hover
    exact .inr hover

/-- A loop that stores beyond the buffer does so in a copy of a word that fits so far. -/
theorem inner_crosses {why : Fatal} (htmp : tmp.length ≤ longest)
    (h : inner loc string tmp q = .stop why true) :
    ∃ q' w v rest bytes, string = w ++ rest ∧ Text q q' w v ∧ tmp.length + v.length ≤ longest ∧
      Copied q' rest bytes ∧ sizeof_tmp < tmp.length + v.length + bytes.length := by
  have hsize : sizeof_tmp = longest + 2 := rfl
  induction hn : string.length using Nat.strong_induction_on generalizing string tmp q with
  | _ n ih =>
    subst hn
    cases view q string with
    | nil =>
      rw [inner_of_not_more rfl htmp, leave] at h
      split_ifs at h
      cases h
    | @plain q c s hc =>
      rw [inner_plain hc] at h
      by_cases hfits : (tmp ++ [c]).length ≤ longest
      · obtain ⟨q', w, v, r, bytes, rfl, htext, hv, hcopied, hlong⟩ := ih _ (Nat.lt_succ_self _) hfits h rfl
        rw [List.length_append, List.length_singleton] at hv hlong
        exact ⟨q', c :: w, c :: v, r, bytes, rfl, .plain hc htext, by rw [List.length_cons]; omega, hcopied,
          by rw [List.length_cons]; omega⟩
      · rw [inner_of_long (Nat.lt_of_not_le hfits)] at h
        have hover := of_decide_eq_true (Pass.stop.inj h).2
        rw [List.length_append, List.length_singleton] at hover
        refine ⟨q, [], [], c :: s, _, rfl, .nil, by rw [List.length_nil]; exact htmp, .run, ?_⟩
        rw [List.takeWhile_cons_of_pos (by simpa using hc), List.length_nil, List.length_cons]
        omega
    | space hc =>
      rw [inner_of_not_more (by simp [more, hc]) htmp] at h
      cases h
    | lone =>
      obtain ⟨message, hdies⟩ := Flaw.backslash.dies loc htmp
      rw [hdies] at h
      cases h
    | @slash q c s =>
      have hlt : s.length < (92 :: c :: s).length := Nat.lt_succ_of_lt (Nat.lt_succ_self _)
      by_cases hc : c ∈ special q
      · rw [inner_escape hc htmp] at h
        rcases copied_overrun h with ⟨hfits, hrest⟩ | hover
        · obtain ⟨q', w, v, r, bytes, rfl, htext, hv, hcopied, hlong⟩ := ih _ hlt hfits hrest rfl
          rw [List.length_append, List.length_singleton] at hv hlong
          exact ⟨q', 92 :: c :: w, c :: v, r, bytes, rfl, .escape hc htext, by rw [List.length_cons]; omega,
            hcopied, by rw [List.length_cons]; omega⟩
        · rw [List.length_singleton] at hover
          omega
      · rw [inner_backslash hc htmp] at h
        rcases copied_overrun h with ⟨hfits, hrest⟩ | hover
        · obtain ⟨q', w, v, r, bytes, rfl, htext, hv, hcopied, hlong⟩ := ih _ hlt hfits hrest rfl
          rw [List.length_append, List.length_cons, List.length_singleton] at hv hlong
          exact ⟨q', 92 :: c :: w, 92 :: c :: v, r, bytes, rfl, .backslash hc htext,
            by rw [List.length_cons, List.length_cons]; omega, hcopied,
            by rw [List.length_cons, List.length_cons]; omega⟩
        · rw [List.length_cons, List.length_singleton] at hover
          omega
    | unclosed hliteral =>
      obtain ⟨message, hdies⟩ := (Flaw.single hliteral).dies loc htmp
      rw [hdies] at h
      cases h
    | @closed literal s hliteral =>
      have hlt : s.length < (39 :: (literal ++ 39 :: s)).length := by
        rw [List.length_cons, List.length_append, List.length_cons]
        omega
      rw [inner_single hliteral htmp] at h
      rcases copied_overrun h with ⟨hfits, hrest⟩ | hover
      · obtain ⟨q', w, v, r, bytes, rfl, htext, hv, hcopied, hlong⟩ := ih _ hlt hfits hrest rfl
        rw [List.length_append] at hv hlong
        exact ⟨q', 39 :: (literal ++ 39 :: w), literal ++ v, r, bytes, by simp, .single hliteral htext,
          by rw [List.length_append]; omega, hcopied, by rw [List.length_append]; omega⟩
      · exact ⟨false, [], [], _, literal, rfl, .nil, by rw [List.length_nil]; exact htmp, .single hliteral,
          by rw [List.length_nil]; exact hover⟩
    | @double q s =>
      rw [inner_quote htmp] at h
      obtain ⟨q', w, v, r, bytes, rfl, htext, hv, hcopied, hlong⟩ := ih _ (Nat.lt_succ_self _) htmp h rfl
      cases q with
      | false => exact ⟨q', 34 :: w, v, r, bytes, rfl, .opening htext, hv, hcopied, hlong⟩
      | true => exact ⟨q', 34 :: w, v, r, bytes, rfl, .closing htext, hv, hcopied, hlong⟩

/-- The word that the inner loop returns. -/
theorem inner_word {q1 : Bool} (h : inner loc string [] false = .go rest tmp q1) :
    ∃ w, string = w ++ rest ∧ Text false false w tmp ∧ tmp.length ≤ longest ∧
      (rest = [] ∨ ∃ c s, rest = c :: s ∧ c ∈ WHITESPACE) := by
  obtain ⟨q', w, v, r, rfl, htext, hend⟩ := text_total false string
  obtain ⟨hgo, hstop⟩ := htext.reads loc r []
  rw [List.length_nil, Nat.zero_add, List.nil_append] at hgo
  rw [List.length_nil, Nat.zero_add] at hstop
  by_cases hv : v.length ≤ longest
  · rw [hgo hv] at h
    rcases hend with ⟨rfl, hend⟩ | hflaw
    · have hout : more false r = false := by
        rcases hend with rfl | ⟨c, s, rfl, hc⟩
        · rfl
        · simp [more, hc]
      rw [inner_of_not_more hout hv, leave, if_neg Bool.false_ne_true] at h
      cases h
      exact ⟨w, rfl, htext, hv, hend⟩
    · obtain ⟨message, hdies⟩ := hflaw.dies loc hv
      rw [hdies] at h
      cases h
  · obtain ⟨overrun, hlong⟩ := hstop (Nat.lt_of_not_le hv)
    rw [hlong] at h
    cases h

theorem overrun_crosses {list : Bool} {why : Fatal} (h : options_helper list loc string = .stop why true) :
    Crosses string := by
  induction hn : string.length using Nat.strong_induction_on generalizing string with
  | _ n ih =>
    subst hn
    cases hview : more false string with
    | false =>
      rcases more_eq_false.mp hview with rfl | ⟨-, c, hc, hspace⟩
      · rw [options_helper_nil] at h
        cases h
      · obtain ⟨s, rfl⟩ := List.head?_eq_some_iff.mp hc
        rw [options_helper_space list loc hspace] at h
        exact (ih _ (Nat.lt_succ_self _) h rfl).after (spaced_space hspace) nofun
    | true =>
      rw [options_helper_start list loc hview] at h
      cases hinner : inner loc string [] false with
      | stop why' overrun =>
        rw [hinner] at h
        cases h
        obtain ⟨q, w, v, r, bytes, rfl, htext, hv, hcopied, hlong⟩ := inner_crosses (Nat.zero_le _) hinner
        rw [List.length_nil, Nat.zero_add] at hv hlong
        exact .intro .nil nofun htext hv hcopied hlong
      | go rest tmp q =>
        rw [hinner] at h
        dsimp only at h
        split_ifs at h
        · cases h
        obtain ⟨w, rfl, htext, hv, hend⟩ := inner_word hinner
        cases hrest : options_helper list loc rest with
        | returns count words =>
          rw [hrest] at h
          cases h
        | stop why' overrun =>
          rw [hrest] at h
          cases h
          rcases hend with rfl | ⟨c, s, rfl, hc⟩
          · rw [options_helper_nil] at hrest
            cases hrest
          · have hne : w ≠ [] := by
              rintro rfl
              simp [more, hc] at hview
            have hlt : s.length < (w ++ c :: s).length := by
              rw [List.length_append, List.length_cons]
              omega
            rw [options_helper_space list loc hc] at hrest
            rw [List.append_cons]
            refine (ih _ hlt hrest rfl).after (spaced_word htext hne hc) ?_
            intro u hu
            rw [List.mem_singleton.mp hu]
            exact hv

theorem Crosses.overruns (h : Crosses string) (list : Bool) (loc : String) :
    options_helper list loc string = .stop .assertion true := by
  obtain @⟨s, w, v, rest, bytes, ws, q, h, hws, hw, hv, hcopied, hlong⟩ := h
  have hbytes : bytes ≠ [] := by
    rintro rfl
    have hsize : sizeof_tmp = longest + 2 := rfl
    rw [List.length_nil] at hlong
    omega
  have hmore : more false (w ++ rest) = true := by
    refine more_text hw ?_
    rintro rfl
    cases hw
    cases hcopied with
    | single _ => rfl
    | run =>
      cases rest with
      | nil => exact absurd List.takeWhile_nil hbytes
      | cons c rest =>
        rw [List.takeWhile_cons] at hbytes
        split_ifs at hbytes with hc
        · simp only [decide_eq_true_eq, mem_special, not_or] at hc
          simpa [more] using fun hspace => hc.2.2 ⟨trivial, .inr hspace⟩
        · exact absurd rfl hbytes
  obtain ⟨hgo, -⟩ := hw.reads loc rest []
  rw [List.length_nil, Nat.zero_add, List.nil_append] at hgo
  rw [(h.options_helper list loc _).1 hws, options_helper_start list loc hmore, hgo hv,
    hcopied.crosses loc hv hlong, addWords_stop]

/-! ### Both passes -/

theorem parse_options_words (h : Words string ws) (hfits : ∀ u ∈ ws, u.length ≤ longest) (loc : String) :
    parse_options loc string = .returns ws.length ws := by
  rw [parse_options, (h.options_helper false loc).1 hfits, (h.options_helper true loc).1 hfits]
  rfl

theorem parse_options_long (h : Words string ws) (hlong : ∃ u ∈ ws, longest < u.length) (loc : String) :
    ∃ overrun, parse_options loc string = .stop .assertion overrun := by
  obtain ⟨overrun, hstop⟩ := (h.options_helper false loc).2 hlong
  rw [parse_options, hstop]
  exact ⟨overrun, rfl⟩

theorem parse_options_malformed (h : Malformed string) (loc : String) :
    ∃ why overrun, parse_options loc string = .stop why overrun := by
  obtain ⟨why, overrun, hstop⟩ := h.options_helper false loc
  rw [parse_options, hstop]
  exact ⟨why, overrun, rfl⟩

theorem parse_options_crosses {why : Fatal} (h : parse_options loc string = .stop why true) : Crosses string := by
  rw [parse_options] at h
  cases hcount : options_helper false loc string with
  | stop why' overrun =>
    rw [hcount] at h
    cases h
    exact overrun_crosses hcount
  | returns count words =>
    cases hfill : options_helper true loc string with
    | stop why' overrun =>
      rw [hcount, hfill] at h
      cases h
      exact overrun_crosses hfill
    | returns count' words' =>
      rw [hcount, hfill] at h
      cases h

/-- The process ends just where a quote is unbalanced, the string ends in a lone backslash or a word is too
long, and else the words of the string are returned; both passes find as many words, and no byte is stored
beyond the buffer. -/
structure AsDocumented (loc : String) (string : Str) : Prop where
  dies : (∃ why overrun, parse_options loc string = .stop why overrun) ↔
    Malformed string ∨ ∃ ws, Words string ws ∧ ∃ u ∈ ws, longest < u.length
  words : ∀ count list, parse_options loc string = .returns count list ↔
    Words string list ∧ count = list.length ∧ ∀ u ∈ list, u.length ≤ longest
  passes : ∀ count list, options_helper true loc string = .returns count list →
    options_helper false loc string = .returns count []
  room : ∀ why, parse_options loc string ≠ .stop why true

/-- All but the last holds of every string, and no byte is stored beyond the buffer unless a copy crosses its
end. -/
theorem parse_options_documented (loc : String) (string : Str) : AsDocumented loc string ↔ ¬Crosses string := by
  constructor
  · rintro ⟨-, -, -, hroom⟩ hcrosses
    refine hroom .assertion ?_
    rw [parse_options, hcrosses.overruns false loc]
  · intro hnot
    have htotal := words_or_malformed string
    -- Words that fit are returned, and one that does not ends the process.
    have hsplit : ∀ ws : List Str, (∀ u ∈ ws, u.length ≤ longest) ∨ ∃ u ∈ ws, longest < u.length := by
      intro ws
      by_cases hall : ∀ u ∈ ws, u.length ≤ longest
      · exact .inl hall
      · obtain ⟨u, hu⟩ := not_forall.mp hall
        obtain ⟨hu, hlen⟩ := Classical.not_imp.mp hu
        exact .inr ⟨u, hu, Nat.lt_of_not_le hlen⟩
    refine ⟨⟨?_, ?_⟩, ?_, ?_, ?_⟩
    · rintro ⟨why, overrun, hstop⟩
      rcases htotal with ⟨ws, hws⟩ | hbad
      · rcases hsplit ws with hfits | hlong
        · rw [parse_options_words hws hfits loc] at hstop
          cases hstop
        · exact .inr ⟨ws, hws, hlong⟩
      · exact .inl hbad
    · rintro (hbad | ⟨ws, hws, hlong⟩)
      · exact parse_options_malformed hbad loc
      · obtain ⟨overrun, hstop⟩ := parse_options_long hws hlong loc
        exact ⟨_, _, hstop⟩
    · intro count list
      constructor
      · intro hreturns
        rcases htotal with ⟨ws, hws⟩ | hbad
        · rcases hsplit ws with hfits | hlong
          · rw [parse_options_words hws hfits loc] at hreturns
            cases hreturns
            exact ⟨hws, rfl, hfits⟩
          · obtain ⟨overrun, hstop⟩ := parse_options_long hws hlong loc
            rw [hstop] at hreturns
            cases hreturns
        · obtain ⟨why, overrun, hstop⟩ := parse_options_malformed hbad loc
          rw [hstop] at hreturns
          cases hreturns
      · rintro ⟨hws, rfl, hfits⟩
        exact parse_options_words hws hfits loc
    · intro count list hreturns
      rcases htotal with ⟨ws, hws⟩ | hbad
      · rcases hsplit ws with hfits | hlong
        · rw [(hws.options_helper true loc).1 hfits] at hreturns
          cases hreturns
          exact (hws.options_helper false loc).1 hfits
        · obtain ⟨overrun, hstop⟩ := (hws.options_helper true loc).2 hlong
          rw [hstop] at hreturns
          cases hreturns
      · obtain ⟨why, overrun, hstop⟩ := hbad.options_helper true loc
        rw [hstop] at hreturns
        cases hreturns
    · intro why hstop
      exact hnot (parse_options_crosses hstop)

/-- A word of 1025 letters is copied before its length is looked at. -/
theorem long_word_overruns : ¬∀ loc string, AsDocumented loc string := by
  intro hall
  have hrun : (List.replicate 1025 (97 : UInt8)).takeWhile (· ∉ special false) = List.replicate 1025 97 := by
    rw [List.takeWhile_eq_self_iff]
    intro c hc
    rw [List.eq_of_mem_replicate hc]
    decide
  have hcopied : Copied false (List.replicate 1025 97) (List.replicate 1025 97) := by
    have h : Copied false (List.replicate 1025 97)
        ((List.replicate 1025 (97 : UInt8)).takeWhile (· ∉ special false)) := .run
    rwa [hrun] at h
  have hcrosses : Crosses ([] ++ ([] ++ List.replicate 1025 97)) := by
    refine .intro .nil nofun .nil (Nat.zero_le _) hcopied ?_
    rw [List.length_nil, List.length_replicate]
    decide
  refine (hall "" (List.replicate 1025 97)).room .assertion ?_
  have hstop := hcrosses.overruns false ""
  rw [List.nil_append, List.nil_append] at hstop
  rw [parse_options, hstop]

end Gasnet.SshOptions
