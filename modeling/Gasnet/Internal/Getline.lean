import Mathlib.Algebra.Ring.Nat
import Mathlib.Data.List.TakeWhile

/-! `gasneti_getline`, where the C library has no `getline`: lines of a stream in a buffer that
doubles. -/
namespace Gasnet.Getline

abbrev newline : UInt8 := 10

/-- A stream: what of its content is not read yet, and its end-of-file indicator. -/
structure File where
  rest : List UInt8
  eof : Bool
  deriving DecidableEq

/-- The first line of `bs`, or as much of it as `k` characters hold. -/
def lineUpTo : Nat → List UInt8 → List UInt8
  | 0, _ | _, [] => []
  | k + 1, b :: bs => if b = newline then [b] else b :: lineUpTo k bs

/-- `fgets`, with room for `space` characters and NUL: `none` at the end of the file. -/
def fgets (space : Nat) (fp : File) : Option (List UInt8) × File :=
  let got := lineUpTo (space - 1) fp.rest
  let ended := got.length < space - 1 ∧ got.getLast? ≠ some newline
  (if got = [] then none else some got, ⟨fp.rest.drop got.length, fp.eof || ended⟩)

/-- What a call returns, what is in the buffer, its size, and the stream. -/
structure Result where
  len : Int
  buf : List UInt8
  n : Nat
  fp : File
  deriving DecidableEq

/-- `n += MAX(2, n)`. -/
def grow (n : Nat) : Nat := n + max 2 n

/-- The size of the buffer after the test of `space`. -/
def enough (n len : Nat) : Nat := if n - len < 2 then grow n else n

theorem lineUpTo_length_le (k : Nat) (bs : List UInt8) : (lineUpTo k bs).length ≤ bs.length := by
  induction bs generalizing k with
  | nil => cases k <;> exact Nat.le_refl _
  | cons b bs ih =>
    cases k with
    | zero => exact Nat.zero_le _
    | succ k =>
      rw [lineUpTo]
      split
      · exact Nat.succ_le_succ (Nat.zero_le _)
      · exact Nat.succ_le_succ (ih k)

theorem fgets_lt {space : Nat} {fp fp' : File} {got : List UInt8}
    (h : fgets space fp = (some got, fp')) : fp'.rest.length < fp.rest.length := by
  unfold fgets at h
  dsimp only at h
  split at h
  · cases h
  · rename_i hne
    cases h
    have hpos := List.length_pos_iff.2 hne
    have hle := lineUpTo_length_le (space - 1) fp.rest
    rw [List.length_drop]
    omega

/-- The loop of `gasneti_getline`, where `buf` is what comes before `p`. Without a result where the room
does not fit into the `int` that `fgets` takes. -/
def getlineLoop (n : Nat) (buf : List UInt8) (fp : File) : Option Result :=
  let n' := enough n buf.length
  let space := n' - buf.length
  if space < 2 ^ 31 then
    match h : fgets space fp with
    | (none, fp') => some ⟨-1, buf, n', fp'⟩
    | (some got, fp') =>
      let buf' := buf ++ got.takeWhile (· ≠ 0)
      if fp'.eof = false ∧ buf'.getLast? ≠ some newline then getlineLoop n' buf' fp'
      else some ⟨buf'.length, buf', n', fp'⟩
  else none
  termination_by fp.rest.length
  decreasing_by exact fgets_lt h

/-- `gasneti_getline`. Without a buffer `n` is 0. -/
def getline (n : Nat) (fp : File) : Option Result := getlineLoop n [] fp

/-- Successive calls return `ls`, and then -1. -/
def Returns (n : Nat) (fp : File) : List (List UInt8) → Prop
  | [] => ∃ r, getline n fp = some r ∧ r.len = -1
  | l :: ls => ∃ r, getline n fp = some r ∧ r.len = l.length ∧ r.buf = l ∧ Returns r.n r.fp ls

/-- The lines of a content, each with its newline. -/
def lines : List UInt8 → List (List UInt8)
  | [] => []
  | b :: bs =>
    if b = newline then [b] :: lines bs
    else match lines bs with
      | [] => [[b]]
      | l :: ls => (b :: l) :: ls

theorem flatten_lines (bs : List UInt8) : (lines bs).flatten = bs := by
  induction bs with
  | nil => rfl
  | cons b bs ih =>
    rw [lines]
    split
    · rw [List.flatten_cons, ih]
      rfl
    · cases hl : lines bs with
      | nil =>
        rw [hl] at ih
        rw [← ih]
        rfl
      | cons l ls =>
        rw [hl, List.flatten_cons] at ih
        rw [← ih]
        rfl

/-- One line, or what is left at the end of the file. -/
inductive Line : List UInt8 → List UInt8 → Prop
  | full {tail : List UInt8} : Line [newline] tail
  | last {b : UInt8} : b ≠ newline → Line [b] []
  | cons {b : UInt8} {l tail : List UInt8} : b ≠ newline → Line l tail → Line (b :: l) tail

theorem lines_cons {l ls bs} (h : lines bs = l :: ls) : ∃ tail, bs = l ++ tail ∧ Line l tail ∧
    lines tail = ls := by
  induction bs generalizing l with
  | nil => cases h
  | cons b bs ih =>
    rw [lines] at h
    split at h
    · rename_i hb
      cases h
      subst hb
      exact ⟨bs, rfl, .full, rfl⟩
    · rename_i hb
      cases hl : lines bs with
      | nil =>
        rw [hl] at h
        cases h
        have hbs := flatten_lines bs
        rw [hl] at hbs
        exact ⟨[], by rw [← hbs]; rfl, .last hb, rfl⟩
      | cons l' ls' =>
        rw [hl] at h
        cases h
        obtain ⟨tail, rfl, hline, hrest⟩ := ih hl
        exact ⟨tail, rfl, .cons hb hline, hrest⟩

namespace Line

variable {l tail : List UInt8}

theorem length_pos (h : Line l tail) : 0 < l.length := by
  cases h <;> exact Nat.succ_pos _

theorem lineUpTo (h : Line l tail) {k : Nat} (hk : l.length ≤ k) :
    Getline.lineUpTo k (l ++ tail) = l := by
  induction h generalizing k with
  | full =>
    obtain ⟨k, rfl⟩ := Nat.exists_eq_succ_of_ne_zero (Nat.ne_of_gt hk)
    simp [Getline.lineUpTo]
  | last hb =>
    obtain ⟨k, rfl⟩ := Nat.exists_eq_succ_of_ne_zero (Nat.ne_of_gt hk)
    cases k <;> simp [Getline.lineUpTo]
  | cons hb _ ih =>
    cases k with
    | zero => cases hk
    | succ k =>
      rw [List.cons_append, Getline.lineUpTo, if_neg hb, ih (Nat.le_of_succ_le_succ hk)]

/-- A part of a line that is not its whole. -/
theorem lineUpTo_lt (h : Line l tail) {k : Nat} (hk : k < l.length) :
    Getline.lineUpTo k (l ++ tail) = l.take k ∧ newline ∉ l.take k ∧ Line (l.drop k) tail := by
  induction h generalizing k with
  | full =>
    obtain rfl : k = 0 := Nat.lt_one_iff.1 hk
    exact ⟨rfl, nofun, .full⟩
  | last hb =>
    obtain rfl : k = 0 := Nat.lt_one_iff.1 hk
    exact ⟨rfl, nofun, .last hb⟩
  | cons hb hl ih =>
    cases k with
    | zero => exact ⟨rfl, nofun, .cons hb hl⟩
    | succ k =>
      obtain ⟨htake, hnot, hdrop⟩ := ih (Nat.lt_of_succ_lt_succ hk)
      refine ⟨?_, ?_, hdrop⟩
      · rw [List.cons_append, Getline.lineUpTo, if_neg hb, htake, List.take_succ_cons]
      · rw [List.take_succ_cons, List.mem_cons, not_or]
        exact ⟨Ne.symm hb, hnot⟩

/-- A line without a newline is at the end of the file. -/
theorem tail_eq_nil (h : Line l tail) (hl : l.getLast? ≠ some newline) : tail = [] := by
  induction h with
  | full => exact absurd rfl hl
  | last _ => rfl
  | @cons b l tail _ hline ih =>
    refine ih fun hlast => hl ?_
    rw [List.getLast?_cons, hlast]
    rfl

end Line

/-- The sizes that a buffer of size `n` can grow to. -/
inductive Size (n : Nat) : Nat → Prop
  | refl : Size n n
  | grow {s : Nat} : Size n s → Size n (grow s)

/-- The size of a buffer of size `n` after a line of `len` characters. -/
structure Fit (n len s : Nat) : Prop where
  size : Size n s
  two : 2 ≤ s
  lt : len < s
  least : ∀ t, Size n t → 2 ≤ t → len < t → s ≤ t

theorem lt_grow (n : Nat) : n < grow n := by
  unfold grow
  omega

namespace Size

variable {m n s t : Nat}

theorem le (h : Size n s) : n ≤ s := by
  induction h with
  | refl => exact Nat.le_refl _
  | grow _ ih => exact ih.trans (lt_grow _).le

theorem trans (h : Size m n) (k : Size n s) : Size m s := by
  induction k with
  | refl => exact h
  | grow _ ih => exact ih.grow

/-- A larger size comes from the next one. -/
theorem step (h : Size n s) (hlt : n < s) : Size (Getline.grow n) s := by
  induction h with
  | refl => exact absurd hlt (lt_irrefl _)
  | @grow s h ih =>
    rcases h.le.eq_or_lt with rfl | hlt
    · exact .refl
    · exact (ih hlt).grow

/-- Of two sizes the larger comes from the smaller. -/
theorem linear (h : Size n s) (k : Size n t) (hle : s ≤ t) : Size s t := by
  induction h with
  | refl => exact k
  | @grow s h ih => exact (ih ((lt_grow s).le.trans hle)).step ((lt_grow s).trans_le hle)

end Size

namespace Fit

variable {n len s t : Nat}

theorem here (hn : 2 ≤ n) (hlen : len < n) : Fit n len n := ⟨.refl, hn, hlen, fun _ h _ _ => h.le⟩

/-- A buffer that is too small grows. -/
theorem of_grow (h : Fit (grow n) len s) (hn : n < 2 ∨ n ≤ len) : Fit n len s := by
  refine ⟨Size.trans (.grow .refl) h.size, h.two, h.lt, fun t ht h2 hlt => ?_⟩
  refine h.least t (ht.step ?_) h2 hlt
  omega

end Fit

theorem exists_fit (n len : Nat) : ∃ s, Fit n len s := by
  induction hd : len + 2 - n using Nat.strong_induction_on generalizing n with
  | _ d ih =>
    by_cases hn : 2 ≤ n ∧ len < n
    · exact ⟨n, .here hn.1 hn.2⟩
    · have hlt := lt_grow n
      obtain ⟨s, hs⟩ := ih _ (by omega) (grow n) rfl
      exact ⟨s, hs.of_grow (by omega)⟩

variable {n s : Nat} {l tail buf : List UInt8}

theorem fgets_whole (h : Line l tail) {space : Nat} (hl : l.length ≤ space - 1) (e : Bool) :
    fgets space ⟨l ++ tail, e⟩ =
      (some l, ⟨tail, e || (l.length < space - 1 ∧ l.getLast? ≠ some newline)⟩) := by
  have hne : l ≠ [] := List.ne_nil_of_length_pos h.length_pos
  simp only [fgets, h.lineUpTo hl, if_neg hne, List.drop_left]

theorem fgets_part (h : Line l tail) {space : Nat} (hspace : 2 ≤ space) (hl : space - 1 < l.length)
    (e : Bool) : fgets space ⟨l ++ tail, e⟩ =
      (some (l.take (space - 1)), ⟨l.drop (space - 1) ++ tail, e⟩) := by
  have hlen : (l.take (space - 1)).length = space - 1 := by
    rw [List.length_take]
    omega
  have hne : l.take (space - 1) ≠ [] := List.ne_nil_of_length_pos (by omega)
  have hdrop : (l ++ tail).drop (space - 1) = l.drop (space - 1) ++ tail :=
    List.drop_append_of_le_length hl.le
  simp [fgets, (h.lineUpTo_lt hl).1, hne, hlen, hdrop]

theorem fgets_end (space : Nat) (e : Bool) :
    (fgets space ⟨[], e⟩).1 = none := by
  unfold fgets lineUpTo
  cases space - 1 <;> rfl

theorem getLast?_append (h : l ≠ []) : (buf ++ l).getLast? = l.getLast? := by
  rw [List.getLast?_append, List.getLast?_eq_some_getLast h]
  rfl

theorem takeWhile_nul {got : List UInt8} (h : 0 ∉ got) : got.takeWhile (· ≠ 0) = got := by
  rw [List.takeWhile_eq_self_iff]
  intro b hb
  simp only [decide_eq_true_eq]
  rintro rfl
  exact h hb

/-- A pass of the loop that reads something. -/
theorem loop_some {fp fp' : File} {got : List UInt8}
    (hint : enough n buf.length - buf.length < 2 ^ 31)
    (hget : fgets (enough n buf.length - buf.length) fp = (some got, fp')) (hnul : 0 ∉ got) :
    getlineLoop n buf fp =
      if fp'.eof = false ∧ (buf ++ got).getLast? ≠ some newline then
        getlineLoop (enough n buf.length) (buf ++ got) fp'
      else some ⟨(buf ++ got).length, buf ++ got, enough n buf.length, fp'⟩ := by
  rw [getlineLoop]
  dsimp only
  rw [if_pos hint]
  split
  · rename_i heq
    rw [hget] at heq
    cases heq
  · rename_i heq
    rw [hget] at heq
    cases heq
    rw [takeWhile_nul hnul]

/-- At the end of the file there is no line. -/
theorem loop_end {e : Bool} {r : Result} (h : getlineLoop n buf ⟨[], e⟩ = some r) : r.len = -1 := by
  rw [getlineLoop] at h
  dsimp only at h
  split at h
  · have hnone := fgets_end (enough n buf.length - buf.length) e
    split at h
    · cases h
      rfl
    · rename_i heq
      rw [heq] at hnone
      cases hnone
  · cases h

/-- What the calls do with one line: it is returned, unless it is the last one and fills the buffer without
a newline, or the buffer would be too large. -/
theorem loop_line (n : Nat) (buf : List UInt8) (h : Line l tail) (hnul : 0 ∉ l) (hbuf : buf.length ≤ n) :
    ∃ s, Fit n (buf.length + l.length) s ∧
      ((getlineLoop n buf ⟨l ++ tail, false⟩ =
          some ⟨(buf ++ l).length, buf ++ l, s, ⟨tail, decide (l.getLast? ≠ some newline)⟩⟩ ∧
          (l.getLast? = some newline ∨ buf.length + l.length + 1 < s)) ∨
        2 ^ 31 ≤ s ∧ getlineLoop n buf ⟨l ++ tail, false⟩ = none ∨
        l.getLast? ≠ some newline ∧ s = buf.length + l.length + 1 ∧
          ∀ r, getlineLoop n buf ⟨l ++ tail, false⟩ = some r → r.len = -1) := by
  induction hlen : l.length using Nat.strong_induction_on generalizing n buf l with
  | _ len ih =>
    subst hlen
    have hpos := h.length_pos
    set n' := enough n buf.length with hn'
    have hspace : 2 ≤ n' - buf.length := by
      rw [hn']
      unfold enough grow
      split <;> omega
    have hfit : ∀ {s}, Fit n' (buf.length + l.length) s → Fit n (buf.length + l.length) s := by
      intro s hs
      rw [hn', enough] at hs
      split at hs
      · exact hs.of_grow (by omega)
      · exact hs
    by_cases hint : n' - buf.length < 2 ^ 31
    · by_cases hl : l.length ≤ n' - buf.length - 1
      · -- The line is read to its end.
        have hget := fgets_whole h hl false
        have hlast : (buf ++ l).getLast? = l.getLast? := by
          exact getLast?_append (List.ne_nil_of_length_pos hpos)
        refine ⟨n', hfit (.here (by omega) (by omega)), ?_⟩
        have hloop := loop_some hint hget hnul
        rw [hlast, ← hn'] at hloop
        by_cases hend : l.getLast? = some newline
        · refine .inl ⟨?_, .inl hend⟩
          rw [hloop]
          simp [hend]
        · by_cases hroom : l.length < n' - buf.length - 1
          · refine .inl ⟨?_, .inr (by omega)⟩
            rw [hloop]
            simp [hroom, hend]
          · refine .inr (.inr ⟨hend, by omega, fun r hr => ?_⟩)
            rw [hloop, h.tail_eq_nil hend] at hr
            simp only [hroom, hend, false_and, decide_false, Bool.or_false, ne_eq, not_false_eq_true,
              and_self, if_true] at hr
            exact loop_end hr
      · -- It goes on behind what has filled the buffer.
        have hl := Nat.not_le.1 hl
        obtain ⟨-, hnot, hrest⟩ := h.lineUpTo_lt hl
        have hget := fgets_part h hspace hl false
        set k := n' - buf.length - 1 with hk
        have htake : (l.take k).length = k := by
          rw [List.length_take]
          omega
        have hloop := loop_some hint hget fun hz => hnul (List.mem_of_mem_take hz)
        have hlast : (buf ++ l.take k).getLast? ≠ some newline := by
          rw [getLast?_append (List.ne_nil_of_length_pos (by omega))]
          exact fun heq => hnot (List.mem_of_getLast? heq)
        rw [if_pos ⟨rfl, hlast⟩] at hloop
        have hsum : (buf ++ l.take k).length + (l.drop k).length = buf.length + l.length := by
          rw [List.length_append, htake, List.length_drop]
          omega
        obtain ⟨s, hs, hout⟩ := ih (l.drop k).length (by rw [List.length_drop]; omega) n'
          (buf ++ l.take k) hrest (fun hz => hnul (List.mem_of_mem_drop hz))
          (by rw [List.length_append, htake]; omega) rfl
        rw [hsum, ← hloop, List.append_assoc, List.take_append_drop, List.getLast?_drop,
          if_neg (Nat.not_le.2 hl)] at hout
        rw [hsum] at hs
        exact ⟨s, hfit hs, hout⟩
    · obtain ⟨s, hs⟩ := exists_fit n' (buf.length + l.length)
      refine ⟨s, hfit hs, .inr (.inl ⟨?_, ?_⟩)⟩
      · have := hs.size.le
        omega
      · rw [getlineLoop]
        exact if_neg hint

/-- The last line has no newline and fills the buffer, which no line before it has made larger. -/
def Lost (n : Nat) (ls : List (List UInt8)) : Prop :=
  ∃ front l, ls = front ++ [l] ∧ l.getLast? ≠ some newline ∧ Size n (l.length + 1) ∧
    ∀ x ∈ front, x.length ≤ l.length

/-- A size that the buffer can grow to, which an `int` holds, has room for every line. -/
def Room (n : Nat) (ls : List (List UInt8)) : Prop :=
  ∃ s, Size n s ∧ 2 ≤ s ∧ s < 2 ^ 31 ∧ ∀ l ∈ ls, l.length < s

theorem Fit.room_cons {ls : List (List UInt8)} (h : Fit n l.length s) :
    Room n (l :: ls) ↔ Room s ls := by
  constructor
  · rintro ⟨t, ht, h2, hlt, hall⟩
    have hle := h.least t ht h2 (hall l List.mem_cons_self)
    exact ⟨t, h.size.linear ht hle, h2, hlt, fun x hx => hall x (List.mem_cons_of_mem _ hx)⟩
  · rintro ⟨t, ht, h2, hlt, hall⟩
    refine ⟨t, h.size.trans ht, h2, hlt, fun x hx => ?_⟩
    rcases List.mem_cons.1 hx with rfl | hx
    · exact h.lt.trans_le ht.le
    · exact hall x hx

theorem Fit.lost_cons {l' : List UInt8} {ls : List (List UInt8)} (h : Fit n l.length s)
    (hne : ∀ x ∈ l' :: ls, x ≠ []) : Lost n (l :: l' :: ls) ↔ Lost s (l' :: ls) := by
  constructor
  · rintro ⟨front, x, heq, hx, hsize, hall⟩
    cases front with
    | nil => cases heq
    | cons y front =>
      rw [List.cons_append] at heq
      obtain ⟨rfl, hls⟩ := List.cons.inj heq
      have hpos : x ≠ [] := hne x (by rw [hls]; simp)
      have := List.length_pos_iff.2 hpos
      have hle := h.least _ hsize (by omega)
        (Nat.lt_succ_of_le (hall l List.mem_cons_self))
      exact ⟨front, x, hls, hx, h.size.linear hsize hle,
        fun z hz => hall z (List.mem_cons_of_mem _ hz)⟩
  · rintro ⟨front, x, heq, hx, hsize, hall⟩
    refine ⟨l :: front, x, ?_, hx, h.size.trans hsize, fun z hz => ?_⟩
    · rw [heq]
      rfl
    · rcases List.mem_cons.1 hz with rfl | hz
      · exact Nat.lt_succ_iff.1 (h.lt.trans_le hsize.le)
      · exact hall z hz

theorem lost_single (h : Fit n l.length s) (hl : l ≠ []) :
    Lost n [l] ↔ l.getLast? ≠ some newline ∧ s = l.length + 1 := by
  have hpos := List.length_pos_iff.2 hl
  constructor
  · rintro ⟨front, x, heq, hx, hsize, -⟩
    cases front with
    | nil =>
      cases heq
      have := h.least _ hsize (by omega) (Nat.lt_succ_self _)
      have := h.lt
      exact ⟨hx, by omega⟩
    | cons y front =>
      rw [List.cons_append] at heq
      exact absurd (List.cons.inj heq).2 (by simp)
  · rintro ⟨hx, rfl⟩
    exact ⟨[], l, rfl, hx, h.size, nofun⟩

theorem fit_enough (n : Nat) : Fit n 0 (enough n 0) := by
  unfold enough
  split
  · refine Fit.of_grow (.here ?_ ?_) (by omega)
    all_goals
      unfold grow
      omega
  · exact .here (by omega) (by omega)

theorem returns_nil (n : Nat) (e : Bool) : Returns n ⟨[], e⟩ [] ↔ Room n [] := by
  have hfit := fit_enough n
  constructor
  · rintro ⟨r, hr, -⟩
    refine ⟨enough n 0, hfit.size, hfit.two, ?_, nofun⟩
    by_contra hlarge
    rw [getline, getlineLoop] at hr
    dsimp only at hr
    rw [if_neg (show ¬ enough n [].length - [].length < 2 ^ 31 from hlarge)] at hr
    cases hr
  · rintro ⟨s, hs, h2, hlt, -⟩
    have hle := hfit.least s hs h2 (by omega)
    refine ⟨⟨-1, [], enough n 0, (fgets (enough n 0) ⟨[], e⟩).2⟩, ?_, rfl⟩
    rw [getline, getlineLoop]
    dsimp only
    rw [if_pos (show enough n [].length - [].length < 2 ^ 31 from hle.trans_lt hlt)]
    have hnone := fgets_end (enough n 0) e
    split
    · rename_i heq
      change fgets (enough n 0) _ = _ at heq
      rw [heq]
      rfl
    · rename_i heq
      change fgets (enough n 0) _ = _ at heq
      rw [heq] at hnone
      cases hnone

theorem lines_ne_nil {bs x : List UInt8} (h : x ∈ lines bs) : x ≠ [] := by
  induction hls : lines bs generalizing bs with
  | nil =>
    rw [hls] at h
    cases h
  | cons l ls ih =>
    obtain ⟨tail, -, hline, htail⟩ := lines_cons hls
    rw [hls] at h
    rcases List.mem_cons.1 h with rfl | h
    · exact List.ne_nil_of_length_pos hline.length_pos
    · exact ih (htail ▸ h) htail

/-- The calls return the lines of a content exactly if the buffer can hold them and the last one is not
lost. -/
theorem getline_lines_iff (n : Nat) (bs : List UInt8) (hnul : 0 ∉ bs) :
    (lines bs).flatten = bs ∧
      (Returns n ⟨bs, false⟩ (lines bs) ↔ Room n (lines bs) ∧ ¬Lost n (lines bs)) := by
  refine ⟨flatten_lines bs, ?_⟩
  induction hls : lines bs generalizing n bs with
  | nil =>
    have hbs := flatten_lines bs
    rw [hls] at hbs
    rw [← hbs]
    refine (returns_nil n false).trans ⟨fun hroom => ⟨hroom, ?_⟩, And.left⟩
    rintro ⟨front, x, heq, -⟩
    exact absurd heq (by simp)
  | cons l ls ih =>
    obtain ⟨tail, rfl, hline, htail⟩ := lines_cons hls
    have hne := List.ne_nil_of_length_pos hline.length_pos
    have hlast : l.getLast? ≠ some newline → tail = [] ∧ ls = [] := by
      intro hl
      obtain rfl := hline.tail_eq_nil hl
      exact ⟨rfl, htail.symm⟩
    rw [List.mem_append, not_or] at hnul
    obtain ⟨s, hfit, hout⟩ := loop_line n [] hline hnul.1 (Nat.zero_le n)
    rw [List.length_nil, Nat.zero_add] at hfit hout
    rcases hout with ⟨hloop, hroom⟩ | ⟨hlarge, hloop⟩ | ⟨hl, hs, hloop⟩
    · have hcall : Returns n ⟨l ++ tail, false⟩ (l :: ls) ↔
          Returns s ⟨tail, decide (l.getLast? ≠ some newline)⟩ ls := by
        constructor
        · rintro ⟨r, hr, -, -, hrest⟩
          cases hloop.symm.trans hr
          exact hrest
        · exact fun hrest => ⟨_, hloop, rfl, rfl, hrest⟩
      rw [hcall, hfit.room_cons]
      cases ls with
      | nil =>
        have hnil := flatten_lines tail
        rw [htail] at hnil
        obtain rfl : tail = [] := hnil.symm
        rw [returns_nil, lost_single hfit hne]
        refine ⟨fun h => ⟨h, ?_⟩, And.left⟩
        rintro ⟨hl, rfl⟩
        exact absurd (hroom.resolve_left hl) (lt_irrefl _)
      | cons l' ls =>
        have hfull : l.getLast? = some newline := by
          by_contra hl
          cases (hlast hl).2
        rw [hfit.lost_cons fun x hx => lines_ne_nil (htail ▸ hx), hfull]
        exact ih s tail hnul.2 htail
    · refine iff_of_false ?_ ?_
      · rintro ⟨r, hr, -⟩
        rw [getline, hloop] at hr
        cases hr
      · rintro ⟨⟨t, ht, h2, hlt, hall⟩, -⟩
        have := hfit.least t ht h2 (hall l List.mem_cons_self)
        omega
    · refine iff_of_false ?_ ?_
      · rintro ⟨r, hr, hlen, -⟩
        have := hloop r hr
        omega
      · rintro ⟨-, hkept⟩
        obtain ⟨-, rfl⟩ := hlast hl
        exact hkept ((lost_single hfit hne).2 ⟨hl, hs⟩)

/-- Two lines in a buffer of 16. -/
theorem getline_lines_two :
    Returns 16 ⟨[97, 98, newline, 99], false⟩ [[97, 98, newline], [99]] := by
  refine (getline_lines_iff 16 [97, 98, newline, 99] (by decide)).2.2 ⟨⟨16, .refl, ?_⟩, ?_⟩
  · decide
  · rintro ⟨front, l, heq, -, hsize, -⟩
    have hlines : lines [97, 98, newline, 99] = [[97, 98, newline], [99]] := by decide
    rw [hlines] at heq
    have hlast := congrArg List.getLast? heq
    obtain rfl : [99] = l := by simpa using hlast
    exact absurd hsize.le (by decide)

/-- A file of one character, read without a buffer. -/
theorem getline_lost_one : (0 : UInt8) ∉ [97] ∧ lines [97] = [[97]] ∧
    ¬Returns 0 ⟨[97], false⟩ (lines [97]) := by
  refine ⟨by decide, by decide, ?_⟩
  rintro ⟨r, hr, hlen, -⟩
  have hmore : getline 0 ⟨[97], false⟩ = getlineLoop 2 [97] ⟨[], false⟩ :=
    @loop_some 0 [] ⟨[97], false⟩ _ _ (by decide) rfl (by decide)
  rw [hmore] at hr
  rw [loop_end hr] at hlen
  cases hlen

end Gasnet.Getline
