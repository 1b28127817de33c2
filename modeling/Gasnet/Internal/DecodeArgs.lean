import Mathlib.Data.List.Infix
import Mathlib.Data.List.TakeWhile
import Mathlib.Logic.Function.Basic

/-! `gasneti_decode_args`: arguments with `%0XX` escapes, one of which may become several. -/
namespace Gasnet.DecodeArgs

/-- The characters of a C string, without its NUL. -/
abbrev Str := List UInt8

/-- `isdigit`. -/
def isDigit (c : UInt8) : Bool := 48 ≤ c && c ≤ 57

/-- `isalpha`. -/
def isAlpha (c : UInt8) : Bool := 65 ≤ c && c ≤ 90 || 97 ≤ c && c ≤ 122

/-- `toupper`. -/
def toUpper (c : UInt8) : UInt8 := if 97 ≤ c && c ≤ 122 then c - 32 else c

/-- `IS_HEX_DIGIT`. -/
def isHexDigit (c : UInt8) : Bool := isDigit c || isAlpha c && toUpper c ≤ 70

/-- `VAL_HEX_DIGIT`. -/
def valHexDigit (c : UInt8) : UInt8 := if isDigit c then c - 48 else 10 + toUpper c - 65

/-- `gasneti_decodestr`: what it leaves before the last NUL, NULs from escapes included. -/
def decodestr : Str → List UInt8
  | 37 :: 48 :: a :: b :: rest =>
    if isHexDigit a && isHexDigit b then (valHexDigit a <<< 4 ||| valHexDigit b) :: decodestr rest
    else 37 :: decodestr (48 :: a :: b :: rest)
  | c :: rest => c :: decodestr rest
  | [] => []

/-- The C string at the start of `mem`. -/
def cstr (mem : List UInt8) : Str := mem.takeWhile (· ≠ 0)

/-- An entry of an argument vector. -/
inductive Entry
  | unwritten
  | null
  | str (s : Str)
  deriving DecidableEq

/-- `memcpy` of `len` entries of `src` from `off` to `at`. -/
def memcpy (dst : Nat → Entry) (pos : Nat) (src : Nat → Entry) (off len : Nat) : Nat → Entry :=
  fun i => if pos ≤ i ∧ i < pos + len then src (off + (i - pos)) else dst i

/-- `hook up new args`, behind `argidx`. -/
def hook (argv : Nat → Entry) (argidx : Nat) : List UInt8 → (Nat → Entry) × Nat
  | [] => (argv, argidx)
  | c :: tmp =>
    if c = 0 then hook (Function.update argv (1 + argidx) (.str (cstr tmp))) (argidx + 1) tmp
    else hook argv argidx tmp

/-- The vector, the count and the index after argument `argidx` has become several. -/
def growArgv (argv : Nat → Entry) (argc argidx : Nat) (tmp : List UInt8) :
    (Nat → Entry) × Nat × Nat :=
  let newcnt := tmp.count 0
  let newargv := memcpy (fun _ => .unwritten) 0 argv 0 argidx
  let newargv := Function.update newargv argidx (.str (cstr tmp))
  let newargv := memcpy newargv (argidx + newcnt) argv argidx (argc - argidx - 1)
  let hooked := hook newargv argidx tmp
  (Function.update hooked.1 (argc + newcnt) .null, argc + newcnt, hooked.2)

/-- What becomes of argument `s` at `argidx`. -/
def decodeArg (argv : Nat → Entry) (argc argidx : Nat) (s : Str) : (Nat → Entry) × Nat × Nat :=
  if [37, 48] <:+: s then
    let tmp := decodestr s
    if tmp.length = s.length then (argv, argc, argidx)
    else if tmp.count 0 = 0 then (Function.update argv argidx (.str tmp), argc, argidx)
    else growArgv argv argc argidx tmp
  else (argv, argc, argidx)

theorem hook_index (argv : Nat → Entry) (k : Nat) (tmp : List UInt8) :
    (hook argv k tmp).2 = k + tmp.count 0 := by
  induction tmp generalizing argv k with
  | nil => rfl
  | cons c tmp ih =>
    rw [hook]
    split
    · rename_i hc
      rw [ih, hc, List.count_cons_self]
      omega
    · rename_i hc
      rw [ih, List.count_cons_of_ne hc]

/-- The arguments behind the one that is decoded are as many as before. -/
theorem decodeArg_left (argv : Nat → Entry) (argc argidx : Nat) (s : Str) :
    (decodeArg argv argc argidx s).2.1 + argidx = argc + (decodeArg argv argc argidx s).2.2 := by
  unfold decodeArg
  dsimp only
  split
  · split
    · rfl
    · split
      · rfl
      · simp only [growArgv, hook_index]
        omega
  · rfl

/-- The loop of `gasneti_decode_args`: the vector and the count that it leaves, or `none` where it looks
for an escape in an entry that is not a string. -/
def decodeLoop (argv : Nat → Entry) (argc argidx : Nat) : Option ((Nat → Entry) × Nat) :=
  if argidx < argc then
    match argv argidx with
    | .str s =>
      let next := decodeArg argv argc argidx s
      decodeLoop next.1 next.2.1 (next.2.2 + 1)
    | _ => none
  else some (argv, argc)
  termination_by argc - argidx
  decreasing_by
    have := decodeArg_left argv argc argidx s
    omega

/-- `gasneti_decode_args`. -/
def decodeArgs (firsttime disabled : Bool) (argv : Nat → Entry) (argc : Nat) :
    Option ((Nat → Entry) × Nat) :=
  if firsttime && !disabled then decodeLoop argv argc 0 else some (argv, argc)

/-- The strings between the NULs of `tmp`. -/
def pieces (tmp : List UInt8) : List Str := tmp.splitOn 0

/-- `argv` has the arguments `l`, and NULL behind them. -/
structure Vector (argv : Nat → Entry) (l : List Str) : Prop where
  entry : ∀ i s, l[i]? = some s → argv i = .str s
  null : argv l.length = .null

/-- The pieces of the decoded arguments, in their order. -/
def decoded (args : List Str) : List Str := args.flatMap fun s => pieces (decodestr s)

/-- The vector that is left is that of the decoded arguments. -/
def Decodes (args : List Str) (out : Option ((Nat → Entry) × Nat)) : Prop :=
  ∃ argv, out = some (argv, (decoded args).length) ∧ Vector argv (decoded args)

theorem pieces_cons (c : UInt8) (tmp : List UInt8) : pieces (c :: tmp) =
    if c = 0 then [] :: pieces tmp else (pieces tmp).modifyHead (c :: ·) := by
  rw [pieces, List.splitOn, List.splitOnP_cons_eq_if_modifyHead]
  by_cases h : c = 0 <;> simp [h, pieces, List.splitOn]

theorem pieces_head (tmp : List UInt8) : ∃ ps, pieces tmp = cstr tmp :: ps := by
  induction tmp with
  | nil => exact ⟨[], rfl⟩
  | cons c tmp ih =>
    obtain ⟨ps, hps⟩ := ih
    rw [pieces_cons, hps]
    by_cases hc : c = 0
    · exact ⟨cstr tmp :: ps, by simp [hc, cstr]⟩
    · exact ⟨ps, by simp [hc, cstr]⟩

theorem length_pieces (tmp : List UInt8) : (pieces tmp).length = tmp.count 0 + 1 := by
  induction tmp with
  | nil => rfl
  | cons c tmp ih =>
    rw [pieces_cons]
    by_cases hc : c = 0 <;> simp [hc, ih]

theorem pieces_of_not_mem {tmp : List UInt8} (h : 0 ∉ tmp) : pieces tmp = [tmp] := by
  obtain ⟨ps, hps⟩ := pieces_head tmp
  have hlen := length_pieces tmp
  rw [hps, List.count_eq_zero_of_not_mem h] at hlen
  obtain rfl : ps = [] := List.length_eq_zero_iff.1 (by simpa using hlen)
  have hcstr : cstr tmp = tmp := by
    refine List.takeWhile_eq_self_iff.2 fun c hc => ?_
    simp only [ne_eq, decide_eq_true_eq]
    rintro rfl
    exact h hc
  rw [hps, hcstr]

/-- Without an escape nothing is decoded. -/
theorem decodestr_no_escape {s : Str} (h : ¬[37, 48] <:+: s) : decodestr s = s := by
  induction s using decodestr.induct with
  | case1 a b rest _ _ | case2 a b rest _ _ => exact absurd ⟨[], a :: b :: rest, rfl⟩ h
  | case3 c rest hne ih =>
    rw [decodestr.eq_2 _ _ hne, ih fun hin => h (hin.trans (List.suffix_cons _ _).isInfix)]
  | case4 => rfl

theorem decodestr_length (s : Str) :
    (decodestr s).length ≤ s.length ∧ ((decodestr s).length = s.length → decodestr s = s) := by
  induction s using decodestr.induct with
  | case1 a b rest hhex ih =>
    rw [decodestr, if_pos hhex]
    simp only [List.length_cons]
    exact ⟨by omega, fun h => by omega⟩
  | case2 a b rest hhex ih =>
    rw [decodestr, if_neg hhex]
    simp only [List.length_cons] at ih ⊢
    exact ⟨by omega, fun h => by rw [ih.2 (by omega)]⟩
  | case3 c rest hne ih =>
    rw [decodestr.eq_2 _ _ hne]
    simp only [List.length_cons]
    exact ⟨by omega, fun h => by rw [ih.2 (by omega)]⟩
  | case4 => exact ⟨Nat.le_refl _, fun _ => rfl⟩

variable {argv : Nat → Entry} {argc argidx : Nat} {s : Str} {tmp : List UInt8}

theorem decodeArg_eq (argc : Nat) (h : argv argidx = .str s) (hs : 0 ∉ s) : decodeArg argv argc argidx s =
    if 0 ∈ decodestr s then growArgv argv argc argidx (decodestr s)
    else (Function.update argv argidx (.str (decodestr s)), argc, argidx) := by
  have hsame : decodestr s = s → (argv, argc, argidx) =
      if 0 ∈ decodestr s then growArgv argv argc argidx (decodestr s)
      else (Function.update argv argidx (.str (decodestr s)), argc, argidx) := by
    intro heq
    rw [heq, if_neg hs, ← h, Function.update_eq_self]
  unfold decodeArg
  dsimp only
  split
  · split
    · rename_i hlen
      exact hsame ((decodestr_length s).2 hlen)
    · split
      · rename_i hcount
        rw [if_neg (List.count_eq_zero.1 hcount)]
      · rename_i hcount
        rw [if_pos (not_not.1 fun hnot => hcount (List.count_eq_zero.2 hnot))]
  · rename_i hin
    exact hsame (decodestr_no_escape hin)

/-- The entries behind `k` get the pieces but the first. -/
theorem hook_apply (argv : Nat → Entry) (k : Nat) (tmp : List UInt8) (i : Nat) :
    (hook argv k tmp).1 i =
      if k < i ∧ i ≤ k + tmp.count 0 then .str ((pieces tmp).getD (i - k) []) else argv i := by
  induction tmp generalizing argv k with
  | nil =>
    rw [hook, List.count_nil, if_neg (by omega)]
  | cons c tmp ih =>
    rw [hook, pieces_cons]
    obtain ⟨ps, hps⟩ := pieces_head tmp
    by_cases hc : c = 0
    · rw [if_pos hc, if_pos hc, ih, hc, List.count_cons_self]
      by_cases hi : k + 1 < i ∧ i ≤ k + 1 + tmp.count 0
      · have hsub : i - k = (i - (k + 1)) + 1 := by omega
        rw [if_pos hi, if_pos (by omega), hsub, List.getD_cons_succ]
      · rw [if_neg hi]
        by_cases hfirst : i = k + 1
        · have hsub : i - k = 0 + 1 := by omega
          rw [if_pos (by omega), hsub, List.getD_cons_succ, hps, hfirst, Nat.add_comm 1 k,
            Function.update_self]
          rfl
        · rw [if_neg (by omega), Function.update_of_ne (by omega)]
    · rw [if_neg hc, if_neg hc, ih, List.count_cons_of_ne hc, hps]
      by_cases hi : k < i ∧ i ≤ k + tmp.count 0
      · obtain ⟨d, hd⟩ := Nat.exists_eq_succ_of_ne_zero (by omega : i - k ≠ 0)
        rw [if_pos hi, if_pos hi, hd]
        rfl
      · rw [if_neg hi, if_neg hi]

/-- Unless the argument was the last one, the last entry of the larger vector is never written. -/
theorem growArgv_last (h : argidx + 1 < argc) (tmp : List UInt8) :
    (growArgv argv argc argidx tmp).1 (argc + tmp.count 0 - 1) = .unwritten := by
  unfold growArgv
  dsimp only
  rw [Function.update_of_ne (by omega), hook_apply, if_neg (by omega), memcpy, if_neg (by omega),
    Function.update_of_ne (by omega), memcpy, if_neg (by omega)]

/-- Where the last entry is never written, the loop comes to it. -/
theorem decodeLoop_unwritten (h : argidx < argc) (hlast : argv (argc - 1) = .unwritten) :
    decodeLoop argv argc argidx = none := by
  induction hd : argc - argidx using Nat.strong_induction_on generalizing argv argc argidx with
  | _ d ih =>
    rw [decodeLoop, if_pos h]
    split
    · rename_i s hs
      have hlt : argidx + 1 < argc := by
        by_contra hge
        obtain rfl : argidx = argc - 1 := by omega
        rw [hlast] at hs
        cases hs
      have hleft := decodeArg_left argv argc argidx s
      refine ih _ (by omega) (by omega) ?_ rfl
      unfold decodeArg
      dsimp only
      split
      · split
        · exact hlast
        · split
          · show Function.update argv argidx _ (argc - 1) = .unwritten
            rw [Function.update_of_ne (by omega)]
            exact hlast
          · exact growArgv_last hlt _
      · exact hlast
    · rfl

variable {done todo : List Str}

/-- An argument without a NUL is replaced. -/
theorem Vector.replace (h : Vector argv (done ++ s :: todo)) (s' : Str) :
    Vector (Function.update argv done.length (.str s')) (done ++ s' :: todo) := by
  refine ⟨fun i t hi => ?_, ?_⟩
  · by_cases hid : i = done.length
    · subst hid
      rw [List.getElem?_append_right (Nat.le_refl _), Nat.sub_self] at hi
      cases hi
      exact Function.update_self _ _ _
    · rw [Function.update_of_ne hid]
      refine h.entry i t ?_
      rw [← hi]
      rcases Nat.lt_or_gt_of_ne hid with hlt | hgt
      · rw [List.getElem?_append_left hlt, List.getElem?_append_left hlt]
      · rw [List.getElem?_append_right hgt.le, List.getElem?_append_right hgt.le]
        obtain ⟨d, hd⟩ := Nat.exists_eq_succ_of_ne_zero (by omega : i - done.length ≠ 0)
        rw [hd]
        rfl
  · have hnull := h.null
    simp only [List.length_append, List.length_cons] at hnull ⊢
    rw [Function.update_of_ne (by omega)]
    exact hnull

/-- The last argument becomes several. -/
theorem Vector.grow (h : Vector argv (done ++ [s])) (tmp : List UInt8) :
    Vector (growArgv argv (done.length + 1) done.length tmp).1 (done ++ pieces tmp) := by
  have hlen : (done ++ pieces tmp).length = done.length + 1 + tmp.count 0 := by
    rw [List.length_append, length_pieces]
    omega
  obtain ⟨ps, hps⟩ := pieces_head tmp
  unfold growArgv
  refine ⟨fun i t hi => ?_, ?_⟩
  · have hlt := (List.getElem?_eq_some_iff.1 hi).1
    dsimp only
    rw [Function.update_of_ne (by omega), hook_apply]
    by_cases hin : done.length < i ∧ i ≤ done.length + tmp.count 0
    · rw [List.getElem?_append_right hin.1.le] at hi
      rw [if_pos hin, List.getD_eq_getElem?_getD, hi]
      rfl
    · rw [if_neg hin, memcpy, if_neg (by omega)]
      by_cases hid : i = done.length
      · rw [hid, List.getElem?_append_right (Nat.le_refl _), Nat.sub_self, hps] at hi
        cases hi
        rw [hid, Function.update_self]
      · have hbefore : i < done.length := by omega
        rw [Function.update_of_ne hid, memcpy, if_pos (by omega), Nat.zero_add]
        refine h.entry i t ?_
        rw [List.getElem?_append_left hbefore] at hi ⊢
        exact hi
  · rw [hlen]
    exact Function.update_self _ _ _

theorem Vector.head (h : Vector argv (done ++ s :: todo)) : argv done.length = .str s := by
  refine h.entry _ _ ?_
  rw [List.getElem?_append_right (Nat.le_refl _), Nat.sub_self]
  rfl

/-- Where only the last argument becomes several, the loop leaves the pieces of all. -/
theorem decodeLoop_decoded (done : List Str) (h : Vector argv (done ++ todo)) (hnul : ∀ s ∈ todo, 0 ∉ s)
    (hone : ∀ s ∈ todo.dropLast, 0 ∉ decodestr s) :
    ∃ out, decodeLoop argv (done ++ todo).length done.length =
      some (out, (done ++ decoded todo).length) ∧ Vector out (done ++ decoded todo) := by
  induction todo generalizing argv done with
  | nil =>
    rw [List.append_nil] at h
    refine ⟨argv, ?_, ?_⟩
    · rw [decodeLoop]
      simp [decoded]
    · rwa [decoded, List.flatMap_nil, List.append_nil]
  | cons s todo ih =>
    have hargc : done.length < (done ++ s :: todo).length := by
      rw [List.length_append, List.length_cons]
      omega
    have harg := decodeArg_eq (done ++ s :: todo).length h.head
      (hnul s List.mem_cons_self)
    have hpieces : decoded (s :: todo) = pieces (decodestr s) ++ decoded todo := rfl
    rw [decodeLoop, if_pos hargc, h.head]
    dsimp only
    rw [harg]
    by_cases hs : 0 ∈ decodestr s
    · -- Only the last one becomes several.
      obtain rfl : todo = [] := by
        cases todo with
        | nil => rfl
        | cons s' todo => exact absurd hs (hone s List.mem_cons_self)
      rw [if_pos hs]
      have hgrow := h.grow (decodestr s)
      have hlen : (done ++ pieces (decodestr s)).length = done.length + 1 + (decodestr s).count 0 := by
        rw [List.length_append, length_pieces]
        omega
      rw [decodeLoop, if_neg, hpieces]
      · refine ⟨(growArgv argv (done.length + 1) done.length (decodestr s)).1, ?_, ?_⟩
        · simp only [growArgv, List.length_append, List.length_singleton, decoded, List.flatMap_nil,
            List.append_nil, length_pieces]
          rw [Nat.add_assoc, Nat.add_comm 1]
        · rw [decoded, List.flatMap_nil, List.append_nil]
          exact hgrow
      · simp only [growArgv, hook_index, List.length_append, List.length_singleton]
        omega
    · rw [if_neg hs, hpieces, pieces_of_not_mem hs]
      have hnext := h.replace (decodestr s)
      rw [List.append_cons] at hnext
      have hsub : ∀ s' ∈ todo.dropLast, 0 ∉ decodestr s' := by
        intro s' hs'
        refine hone s' ?_
        cases todo with
        | nil => cases hs'
        | cons _ _ => exact List.mem_cons_of_mem _ hs'
      obtain ⟨out, hout, hvec⟩ := ih (done ++ [decodestr s]) hnext (fun s' hs' => hnul s' (List.mem_cons_of_mem _ hs')) hsub
      refine ⟨out, ?_, ?_⟩
      · simpa [Nat.add_assoc, Nat.add_comm 1] using hout
      · simpa using hvec

/-- Where another one does, it comes to an entry that was never written. -/
theorem decodeLoop_none (done : List Str) (h : Vector argv (done ++ todo)) (hnul : ∀ s ∈ todo, 0 ∉ s)
    (hmany : ∃ s ∈ todo.dropLast, 0 ∈ decodestr s) :
    decodeLoop argv (done ++ todo).length done.length = none := by
  induction todo generalizing argv done with
  | nil =>
    obtain ⟨s, hs, -⟩ := hmany
    cases hs
  | cons s todo ih =>
    have hne : todo ≠ [] := by
      rintro rfl
      obtain ⟨s', hs', -⟩ := hmany
      cases hs'
    have hpos := List.length_pos_iff.2 hne
    have hargc : (done ++ s :: todo).length = done.length + 1 + todo.length := by
      rw [List.length_append, List.length_cons]
      omega
    have harg := decodeArg_eq (done ++ s :: todo).length h.head
      (hnul s List.mem_cons_self)
    rw [decodeLoop, if_pos (by omega), h.head]
    dsimp only
    rw [harg]
    by_cases hs : 0 ∈ decodestr s
    · rw [if_pos hs]
      refine decodeLoop_unwritten ?_ (growArgv_last (by omega) _)
      simp only [growArgv, hook_index]
      omega
    · rw [if_neg hs]
      have hnext := h.replace (decodestr s)
      rw [List.append_cons] at hnext
      have hout := ih (done ++ [decodestr s]) hnext (fun s' hs' => hnul s' (List.mem_cons_of_mem _ hs')) ?_
      · simpa [Nat.add_assoc, Nat.add_comm 1] using hout
      · obtain ⟨s', hs', hmem⟩ := hmany
        refine ⟨s', ?_, hmem⟩
        rw [List.dropLast_cons_of_ne_nil hne, List.mem_cons] at hs'
        rcases hs' with rfl | hs'
        · exact absurd hmem hs
        · exact hs'

/-- The first call decodes the vector exactly if no argument before the last one becomes several. -/
theorem decode_args_iff (args : List Str) (hnul : ∀ s ∈ args, 0 ∉ s) (argv : Nat → Entry)
    (h : Vector argv args) : Decodes args (decodeArgs true false argv args.length) ↔
      ∀ s ∈ args.dropLast, 0 ∉ decodestr s := by
  constructor
  · rintro ⟨out, hout, -⟩ s hs hmem
    have hnone := decodeLoop_none [] h hnul ⟨s, hs, hmem⟩
    exact absurd (hnone.symm.trans hout) nofun
  · exact fun hone => decodeLoop_decoded [] h hnul hone

/-- A vector in memory. -/
def vector (args : List Str) (i : Nat) : Entry := (args[i]?.map Entry.str).getD .null

theorem vector_vector (args : List Str) : Vector (vector args) args := by
  refine ⟨fun i s hi => ?_, ?_⟩
  · rw [vector, hi]
    rfl
  · rw [vector, List.getElem?_eq_none (Nat.le_refl _)]
    rfl

/-- `x%041` and `a%000b` become `xA`, `a` and `b`. -/
theorem decode_args_last : Decodes [[120, 37, 48, 52, 49], [97, 37, 48, 48, 48, 98]]
    (decodeArgs true false (vector [[120, 37, 48, 52, 49], [97, 37, 48, 48, 48, 98]]) 2) ∧
    decoded [[120, 37, 48, 52, 49], [97, 37, 48, 48, 48, 98]] = [[120, 65], [97], [98]] :=
  ⟨(decode_args_iff _ (by decide) _ (vector_vector _)).2 (by simp; decide), by decide⟩

/-- `a%000b` and `c`. -/
theorem decode_args_lost : Vector (vector [[97, 37, 48, 48, 48, 98], [99]])
    [[97, 37, 48, 48, 48, 98], [99]] ∧
    ¬Decodes [[97, 37, 48, 48, 48, 98], [99]]
      (decodeArgs true false (vector [[97, 37, 48, 48, 48, 98], [99]]) 2) := by
  refine ⟨vector_vector _, ?_⟩
  rintro ⟨out, hout, -⟩
  have hnone := decodeLoop_none [] (vector_vector [[97, 37, 48, 48, 48, 98], [99]])
    (by decide) ⟨[97, 37, 48, 48, 48, 98], by decide, by decide⟩
  exact absurd (hnone.symm.trans hout) nofun

end Gasnet.DecodeArgs
