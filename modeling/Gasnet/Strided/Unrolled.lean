import Gasnet.Strided.Traverse

/-! The unrolled cases of the traversal macros: nests of `for` loops that are entered in the middle
and left from the middle. -/
namespace Gasnet.Strided

variable {A : Type*} [AddCommGroup A] {dims : List (ℕ × A)} {base s : A} {c i j k n : ℕ}

/-- How a loop ends: by itself, with the chunks still to come, or by the jump to `DONE`, with the
loop variables, the innermost first. -/
inductive Exit (A : Type*)
  | ended (p : A) (n : ℕ)
  | broke (p : A) (idx : List ℕ)

/-- `for (; _i0; _i0--)`, from its body. Without `HAVEPARTIAL` the chunks do not count, as from
`n = 0`. -/
def innerLoop (bump : A) : ℕ → A → ℕ → List A × Exit A
  | 0, p, n => ([], .ended p n)
  | i + 1, p, n =>
    if n = 1 then ([p], .broke (p + bump) [i + 1])
    else
      let (visits, x) := innerLoop bump i (p + bump) (n - 1)
      (p :: visits, x)

/-- `_STRIDED_HELPER_LOOPHEAD` to `_STRIDED_HELPER_LOOPTAIL`, around the loops `full`. -/
def outerLoop (full : A → ℕ → List A × Exit A) (bump : A) : ℕ → A → ℕ → List A × Exit A
  | 0, p, n => ([], .ended p n)
  | i + 1, p, n =>
    match full p n with
    | (visits, .broke p idx) => (visits, .broke p (idx ++ [i + 1]))
    | (visits, .ended p n) =>
      let (visits', x) := outerLoop full bump i (p + bump) n
      (visits ++ visits', x)

/-- A nest of loops, entered in the middle or at its head. -/
structure Nest (A : Type*) where
  resume : A → ℕ → List A × Exit A
  full : A → ℕ → List A × Exit A

def Nest.inner (c : ℕ) (bump : A) (i : ℕ) : Nest A where
  resume := innerLoop bump i
  full := innerLoop bump c

/-- One loop more around a nest. -/
def Nest.outer (x : Nest A) (c : ℕ) (bump : A) (i : ℕ) : Nest A where
  resume := fun p n =>
    match x.resume p n with
    | (visits, .broke p idx) => (visits, .broke p (idx ++ [i]))
    | (visits, .ended p n) =>
      let (visits', y) := outerLoop x.full bump (i - 1) (p + bump) n
      (visits ++ visits', y)
  full := outerLoop x.full bump c

/-- The loops of further dimensions around a nest; `back` is what the dimension below has come. -/
def Nest.around (x : Nest A) (back : A) : List (ℕ × A) → List ℕ → Nest A
  | (c, s) :: dims, i :: idx => (x.outer c (s - back) i).around (c • s) dims idx
  | _, _ => x

/-- `_STRIDED_HELPER_CASE` up to `DONE`. -/
def loops : List (ℕ × A) → List ℕ → Nest A
  | (c, s) :: dims, i :: idx => (Nest.inner c s i).around (c • s) dims idx
  | _, _ => ⟨fun p n => ([], .ended p n), fun p n => ([], .ended p n)⟩

/-- `_STRIDED_HELPER_CLEANUPHEAD` to `_STRIDED_HELPER_CLEANUPTAIL`. -/
def cleanup (back : A) : List (ℕ × A) → List ℕ → A → A × List ℕ
  | (c, s) :: dims, i :: idx, p =>
    if i - 1 ≠ 0 then (p + (s - back), (i - 1) :: idx)
    else
      let (p, idx) := cleanup (c • s) dims idx (p + (s - back))
      (p, c :: idx)
  | _, idx, p => (p, idx)

/-- An unrolled case with `GASNETE_STRIDED_HELPER_DECLARE_PARTIAL`: the addresses visited, then
`p1base` and `init` on exit. -/
def unrolledPartial (dims : List (ℕ × A)) (p1base : A) (numchunks : ℕ) (init : List ℕ)
    (addrAlreadyOffset : Bool) (updateAddrInit : BitVec 32) : List A × A × List ℕ :=
  let count := dims.map Prod.fst
  let p := if addrAlreadyOffset then p1base else p1base + advance dims init
  let (visits, x) := (loops dims (List.zipWith (· - ·) count init)).resume p numchunks
  if updateAddrInit ≠ 0 then
    match dims, x with
    | (c, s) :: dims', .broke p (i :: idx) =>
      let (p, idx) :=
        if i - 1 ≠ 0 then (p, (i - 1) :: idx)
        else
          let (p, idx) := cleanup (c • s) dims' idx p
          (p, c :: idx)
      (visits, p, List.zipWith (· - ·) count idx)
    | _, .ended p _ => (visits, p, count)
    | _, _ => (visits, p1base, init)
  else (visits, p1base, init)

/-- An unrolled case without `DECLARE_PARTIAL`. -/
def unrolled (dims : List (ℕ × A)) (p1base : A) : List A :=
  ((loops dims (dims.map Prod.fst)).resume p1base 0).1

/-- What the loops over `dims` do from position `k`: `s` is the innermost stride, `back` the whole
turn of the outermost. -/
def block (dims : List (ℕ × A)) (s back base : A) (k n : ℕ) : List A × Exit A :=
  if n ≠ 0 ∧ n ≤ extent dims - k then
    ((List.range' k n).map fun x => base + offset dims x,
      .broke (base + offset dims (k + n - 1) + s) (countdown (dims.map Prod.fst) (k + n - 1)))
  else
    ((List.range' k (extent dims - k)).map fun x => base + offset dims x,
      .ended (base + back) (n - (extent dims - k)))

theorem block_of_le (s back base : A) (hn : n ≠ 0) (h : n ≤ extent dims - k) :
    block dims s back base k n =
      ((List.range' k n).map fun x => base + offset dims x,
        .broke (base + offset dims (k + n - 1) + s) (countdown (dims.map Prod.fst) (k + n - 1))) :=
  if_pos ⟨hn, h⟩

theorem block_of_lt (s back base : A) (h : ¬ (n ≠ 0 ∧ n ≤ extent dims - k)) :
    block dims s back base k n =
      ((List.range' k (extent dims - k)).map fun x => base + offset dims x,
        .ended (base + back) (n - (extent dims - k))) :=
  if_neg h

theorem innerLoop_eq (h : i + j = c) :
    innerLoop s i (base + j • s) n = block [(c, s)] s (c • s) base j n := by
  have hext : extent [(c, s)] = c := by simp [extent]
  have hoff {x : ℕ} (hx : x < c) : offset [(c, s)] x = x • s := by
    simp [offset, Nat.mod_eq_of_lt hx]
  induction i generalizing j n with
  | zero =>
    obtain rfl : j = c := by omega
    rw [block_of_lt _ _ _ (by omega), hext, Nat.sub_self]
    rfl
  | succ i ih =>
    rw [innerLoop]
    split
    · rename_i hn
      rw [hn, block_of_le _ _ _ (by omega) (by omega), Nat.add_sub_cancel, hoff (by omega)]
      have hi : c - j % c = i + 1 := by
        rw [Nat.mod_eq_of_lt (by omega)]
        omega
      simp [countdown, hi, hoff (by omega : j < c)]
    · rename_i hn
      have hp : base + j • s + s = base + (j + 1) • s := by rw [succ_nsmul, add_assoc]
      rw [hp, ih (by omega)]
      by_cases hle : n ≠ 0 ∧ n ≤ extent [(c, s)] - j
      · obtain ⟨m, rfl⟩ := Nat.exists_eq_add_one_of_ne_zero hle.1
        rw [block_of_le _ _ _ hle.1 hle.2, block_of_le _ _ _ (by omega) (by omega),
          Nat.add_sub_cancel, List.range'_succ, show j + 1 + m - 1 = j + (m + 1) - 1 by omega]
        simp only [List.map_cons, hoff (by omega : j < c)]
      · have hrest : extent [(c, s)] - j = extent [(c, s)] - (j + 1) + 1 := by omega
        rw [block_of_lt _ _ _ hle, block_of_lt _ _ _ (by omega), hrest, List.range'_succ,
          List.map_cons, hoff (by omega),
          show n - 1 - (extent [(c, s)] - (j + 1)) = n - (extent [(c, s)] - (j + 1) + 1) by omega]

section Outer

theorem offset_append (hd : ∀ x ∈ dims, x.1 ≠ 0) (c : ℕ) (s : A) (h : k < extent dims) (j : ℕ) :
    offset (dims ++ [(c, s)]) (extent dims * j + k) = offset dims k + (j % c) • s := by
  induction dims generalizing k with
  | nil =>
    obtain rfl : k = 0 := by simpa [extent] using h
    simp [offset, extent]
  | cons x dims ih =>
    obtain ⟨c₀, s₀⟩ := x
    have hc : 0 < c₀ := Nat.pos_of_ne_zero (hd (c₀, s₀) List.mem_cons_self)
    rw [extent_cons] at h
    have hk : k / c₀ < extent dims := Nat.div_lt_of_lt_mul h
    have hmod : (c₀ * extent dims * j + k) % c₀ = k % c₀ := by
      rw [Nat.mul_assoc, Nat.mul_add_mod]
    have hdiv : (c₀ * extent dims * j + k) / c₀ = extent dims * j + k / c₀ := by
      rw [Nat.mul_assoc, Nat.mul_add_div hc]
    rw [List.cons_append, extent_cons, offset, hmod, hdiv,
      ih (fun y hy => hd y (List.mem_cons_of_mem _ hy)) hk, offset, add_assoc]

theorem countdown_append (l : List ℕ) (c : ℕ) (hl : ∀ x ∈ l, x ≠ 0) (h : k < l.prod) (j : ℕ) :
    countdown (l ++ [c]) (l.prod * j + k) = countdown l k ++ [c - j % c] := by
  induction l generalizing k with
  | nil =>
    obtain rfl : k = 0 := by simpa using h
    simp [countdown]
  | cons c₀ l ih =>
    have hc : 0 < c₀ := Nat.pos_of_ne_zero (hl c₀ List.mem_cons_self)
    rw [List.prod_cons] at h
    have hk : k / c₀ < l.prod := Nat.div_lt_of_lt_mul h
    have hmod : (c₀ * l.prod * j + k) % c₀ = k % c₀ := by
      rw [Nat.mul_assoc, Nat.mul_add_mod]
    have hdiv : (c₀ * l.prod * j + k) / c₀ = l.prod * j + k / c₀ := by
      rw [Nat.mul_assoc, Nat.mul_add_div hc]
    rw [List.cons_append, List.prod_cons, countdown, hmod, hdiv,
      ih (fun y hy => hl y (List.mem_cons_of_mem _ hy)) hk, countdown, List.cons_append]

omit [AddCommGroup A] in
theorem extent_append (dims : List (ℕ × A)) (c : ℕ) (s : A) :
    extent (dims ++ [(c, s)]) = extent dims * c := by
  simp [extent]

variable {s₀ back : A}

/-- The visits inside one turn of the outer loop. -/
theorem visits_turn (hd : ∀ x ∈ dims, x.1 ≠ 0) (hj : j < c) (h : k + n ≤ extent dims) :
    ((List.range' k n).map fun x => base + j • s + offset dims x) =
      (List.range' (extent dims * j + k) n).map fun x => base + offset (dims ++ [(c, s)]) x := by
  induction n generalizing k with
  | zero => rfl
  | succ n ih =>
    rw [List.range'_succ, List.range'_succ, List.map_cons, List.map_cons, ih (by omega),
      offset_append hd c s (by omega), Nat.mod_eq_of_lt hj, Nat.add_assoc]
    congr 1
    abel

/-- A jump out of a turn is a jump out of the outer loop. -/
theorem block_inside (hd : ∀ x ∈ dims, x.1 ≠ 0) (hj : j < c) (hn : n ≠ 0)
    (h : n ≤ extent dims - k) :
    block (dims ++ [(c, s)]) s₀ (c • s) base (extent dims * j + k) n =
      ((List.range' k n).map fun x => base + j • s + offset dims x,
        .broke (base + j • s + offset dims (k + n - 1) + s₀)
          (countdown (dims.map Prod.fst) (k + n - 1) ++ [c - j])) := by
  have hc : ∀ x ∈ dims.map Prod.fst, x ≠ 0 := by
    intro x hx
    obtain ⟨y, hy, rfl⟩ := List.mem_map.1 hx
    exact hd y hy
  have hturn : extent dims * (j + 1) ≤ extent dims * c := Nat.mul_le_mul_left _ hj
  rw [Nat.mul_succ] at hturn
  have hin : k + n - 1 < extent dims := by omega
  have hlast : extent dims * j + k + n - 1 = extent dims * j + (k + n - 1) := by omega
  rw [block_of_le _ _ _ hn (by rw [extent_append]; omega), ← visits_turn hd hj (by omega), hlast,
    offset_append hd c s hin, List.map_append, List.map_singleton,
    countdown_append _ c hc hin, Nat.mod_eq_of_lt hj]
  congr 2
  abel

/-- A turn that ends by itself is followed by the next one. -/
theorem block_past (hd : ∀ x ∈ dims, x.1 ≠ 0) (hj : j < c) (hk : k ≤ extent dims)
    (h : ¬ (n ≠ 0 ∧ n ≤ extent dims - k)) :
    block (dims ++ [(c, s)]) s₀ (c • s) base (extent dims * j + k) n =
      (((List.range' k (extent dims - k)).map fun x => base + j • s + offset dims x) ++
        (block (dims ++ [(c, s)]) s₀ (c • s) base (extent dims * (j + 1))
          (n - (extent dims - k))).1,
        (block (dims ++ [(c, s)]) s₀ (c • s) base (extent dims * (j + 1))
          (n - (extent dims - k))).2) := by
  have hturn : extent dims * (j + 1) ≤ extent dims * c := Nat.mul_le_mul_left _ hj
  rw [Nat.mul_succ] at hturn
  have hext := extent_append dims c s
  have hnext : extent dims * j + extent dims = extent dims * j + k + (extent dims - k) := by omega
  rw [visits_turn hd hj (by omega), Nat.mul_succ, hnext]
  by_cases hle : n ≠ 0 ∧ n ≤ extent (dims ++ [(c, s)]) - (extent dims * j + k)
  · have hn : n = extent dims - k + (n - (extent dims - k)) := by omega
    have hlast : extent dims * j + k + (extent dims - k) + (n - (extent dims - k)) - 1 =
        extent dims * j + k + n - 1 := by omega
    rw [block_of_le _ _ _ hle.1 hle.2, block_of_le _ _ _ (by omega) (by omega), ← List.map_append,
      List.range'_append_1, ← hn, hlast]
  · have hn : extent (dims ++ [(c, s)]) - (extent dims * j + k) = extent dims - k +
        (extent (dims ++ [(c, s)]) - (extent dims * j + k + (extent dims - k))) := by omega
    rw [block_of_lt _ _ _ hle, block_of_lt _ _ _ (by omega), ← List.map_append,
      List.range'_append_1, ← hn]
    congr 2
    omega

theorem outerLoop_eq {full : A → ℕ → List A × Exit A} (hd : ∀ x ∈ dims, x.1 ≠ 0)
    (hfull : ∀ base n, full base n = block dims s₀ back base 0 n) (h : i + j = c) :
    outerLoop full (s - back) i (base + j • s) n =
      block (dims ++ [(c, s)]) s₀ (c • s) base (extent dims * j) n := by
  induction i generalizing j n with
  | zero =>
    obtain rfl : j = c := by omega
    rw [block_of_lt _ _ _ (by rw [extent_append]; omega), extent_append, Nat.sub_self]
    rfl
  | succ i ih =>
    have hj : j < c := by omega
    rw [outerLoop, hfull]
    by_cases hle : n ≠ 0 ∧ n ≤ extent dims - 0
    · have hinside := @block_inside A _ dims base s c j 0 n s₀ hd hj hle.1 hle.2
      rw [Nat.add_zero] at hinside
      rw [hinside, block_of_le _ _ _ hle.1 hle.2, show c - j = i + 1 by omega]
    · have hpast := @block_past A _ dims base s c j 0 n s₀ hd hj (Nat.zero_le _) hle
      rw [Nat.add_zero] at hpast
      have hp : base + j • s + back + (s - back) = base + (j + 1) • s := by
        rw [succ_nsmul]
        abel
      rw [hpast, block_of_lt _ _ _ hle]
      simp only [hp, ih (by omega : i + (j + 1) = c)]

/-- A nest that goes as the loops over `dims` do, resumed at position `k`. -/
structure IsBlock (x : Nest A) (dims : List (ℕ × A)) (s back : A) (k : ℕ) : Prop where
  resume : ∀ base n, x.resume (base + offset dims k) n = block dims s back base k n
  full : ∀ base n, x.full base n = block dims s back base 0 n

theorem isBlock_inner (hj : j < c) : IsBlock (Nest.inner c s (c - j)) [(c, s)] s (c • s) j where
  resume base n := by
    have hoff : offset [(c, s)] j = j • s := by simp [offset, Nat.mod_eq_of_lt hj]
    rw [hoff]
    exact innerLoop_eq (by omega)
  full base n := by
    have h := @innerLoop_eq A _ base s c c 0 n (by omega)
    rwa [zero_nsmul, add_zero] at h

/-- One loop more is one dimension more. -/
theorem isBlock_outer {x : Nest A} (hd : ∀ x ∈ dims, x.1 ≠ 0) (hx : IsBlock x dims s₀ back k)
    (hk : k < extent dims) (hj : j < c) :
    IsBlock (x.outer c (s - back) (c - j)) (dims ++ [(c, s)]) s₀ (c • s) (extent dims * j + k) where
  resume base n := by
    have hp : base + offset (dims ++ [(c, s)]) (extent dims * j + k) =
        base + j • s + offset dims k := by
      rw [offset_append hd c s hk, Nat.mod_eq_of_lt hj]
      abel
    rw [hp]
    simp only [Nest.outer, hx.resume]
    by_cases hle : n ≠ 0 ∧ n ≤ extent dims - k
    · rw [block_inside hd hj hle.1 hle.2, block_of_le _ _ _ hle.1 hle.2]
    · have hback : base + j • s + back + (s - back) = base + (j + 1) • s := by
        rw [succ_nsmul]
        abel
      rw [block_past hd hj (Nat.le_of_lt hk) hle, block_of_lt _ _ _ hle]
      simp only [hback, outerLoop_eq hd hx.full (by omega : c - j - 1 + (j + 1) = c)]
  full base n := by
    have h := @outerLoop_eq A _ dims base s c c 0 n s₀ back x.full hd hx.full (by omega)
    rwa [zero_nsmul, add_zero, Nat.mul_zero] at h

end Outer

variable {dims' : List (ℕ × A)} {back s₀ p : A} {idx : List ℕ}

theorem isBlock_around {x : Nest A} (hd : ∀ y ∈ dims, y.1 ≠ 0) (hd' : ∀ y ∈ dims', y.1 ≠ 0)
    (hx : IsBlock x dims s₀ back k) (hk : k < extent dims) (hj : j < extent dims') :
    ∃ back', IsBlock (x.around back dims' (countdown (dims'.map Prod.fst) j)) (dims ++ dims') s₀
      back' (extent dims * j + k) := by
  induction dims' generalizing x dims back k j with
  | nil =>
    obtain rfl : j = 0 := by simpa [extent] using hj
    rw [List.append_nil, Nat.mul_zero, Nat.zero_add]
    exact ⟨back, hx⟩
  | cons y dims' ih =>
    obtain ⟨c, s⟩ := y
    have hc : 0 < c := Nat.pos_of_ne_zero (hd' (c, s) List.mem_cons_self)
    have hjc : j % c < c := Nat.mod_lt _ hc
    have hturn : extent dims * (j % c + 1) ≤ extent dims * c := Nat.mul_le_mul_left _ hjc
    rw [Nat.mul_succ] at hturn
    rw [extent_cons] at hj
    have hext := extent_append dims c s
    have hall : ∀ y ∈ dims ++ [(c, s)], y.1 ≠ 0 := by
      intro y hy
      rcases List.mem_append.1 hy with hy | hy
      · exact hd y hy
      · rw [List.mem_singleton.1 hy]
        exact Nat.pos_iff_ne_zero.1 hc
    obtain ⟨back', h⟩ := ih hall (fun y hy => hd' y (List.mem_cons_of_mem _ hy))
      (isBlock_outer hd hx hk hjc) (by omega) (Nat.div_lt_of_lt_mul hj)
    have hpos : extent (dims ++ [(c, s)]) * (j / c) + (extent dims * (j % c) + k) =
        extent dims * j + k := by
      rw [hext, ← Nat.add_assoc, Nat.mul_assoc, ← Nat.mul_add, Nat.div_add_mod]
    rw [hpos, List.append_assoc] at h
    exact ⟨back', h⟩

/-- The unrolled loops of a case, resumed at position `k`. -/
theorem isBlock_loops (hd : ∀ y ∈ (c, s₀) :: dims, y.1 ≠ 0) (hk : k < extent ((c, s₀) :: dims)) :
    ∃ back, IsBlock (loops ((c, s₀) :: dims) (countdown (((c, s₀) :: dims).map Prod.fst) k))
      ((c, s₀) :: dims) s₀ back k := by
  have hc : 0 < c := Nat.pos_of_ne_zero (hd (c, s₀) List.mem_cons_self)
  have hkc : k % c < c := Nat.mod_lt _ hc
  have hext : extent [(c, s₀)] = c := by simp [extent]
  rw [extent_cons] at hk
  obtain ⟨back, h⟩ := isBlock_around (fun y hy => hd y (by simp [List.mem_singleton.1 hy]))
    (fun y hy => hd y (List.mem_cons_of_mem _ hy)) (@isBlock_inner A _ s₀ c (k % c) hkc)
    (by rw [hext]; exact hkc) (Nat.div_lt_of_lt_mul hk)
  rw [hext, Nat.div_add_mod] at h
  exact ⟨back, h⟩

/-- The nested tests of the cleanup are one move of the odometer. -/
theorem cleanup_eq (h : idx.length = dims.length) (back p : A) :
    cleanup back dims idx p = (p + (tick back dims idx).1, (tick back dims idx).2.1) := by
  induction dims generalizing idx back p with
  | nil =>
    obtain rfl := List.length_eq_zero_iff.1 h
    simp [cleanup, tick]
  | cons y dims ih =>
    obtain ⟨c, s⟩ := y
    cases idx with
    | nil => simp at h
    | cons i idx =>
      rw [cleanup, tick]
      split
      · rfl
      · rw [ih (by simpa using h)]
        simp only [add_assoc]

/-- Where the cleanup of the general case leaves the cursor, the end included. -/
theorem walk_exit (hd : ∀ x ∈ dims, x.1 ≠ 0) (h : k + n < extent dims) :
    (walk dims n (base + offset dims k) (countdown (dims.map Prod.fst) k)).2 =
      some (base + offset dims (k + n) + (tick 0 dims (countdown (dims.map Prod.fst) (k + n))).1,
        (tick 0 dims (countdown (dims.map Prod.fst) (k + n))).2.1) := by
  induction n generalizing k with
  | zero => rfl
  | succ n ih =>
    rw [walk, tick_countdown hd _ (by omega)]
    have hp : base + offset dims k + (offset dims (k + 1) - offset dims k - 0) =
        base + offset dims (k + 1) := by abel
    simp only [hp]
    rw [ih (by omega), show k + 1 + n = k + (n + 1) by omega]

/-- Where a traversal starts whose cursor is at position `k`, with either setting of
`addr_already_offset`. -/
def cursorOf (dims : List (ℕ × A)) (base : A) (k : ℕ) (off : Bool) : A :=
  if off then base + offset dims k else base

theorem start_eq (dims : List (ℕ × A)) (base : A) (k : ℕ) (off : Bool) :
    (if off then cursorOf dims base k off
      else cursorOf dims base k off + advance dims (digits (dims.map Prod.fst) k)) =
      base + offset dims k := by
  cases off
  · simp [cursorOf, advance_digits]
  · rfl

/-- An unrolled case does what the general case does. -/
theorem unrolledPartial_eq (hne : dims ≠ []) (hd : ∀ x ∈ dims, x.1 ≠ 0) (hn : 0 < n)
    (h : k + n ≤ extent dims) (base : A) (off : Bool) (update : BitVec 32) :
    unrolledPartial dims (cursorOf dims base k off) n (digits (dims.map Prod.fst) k) off update =
      ((stridedPartial dims (cursorOf dims base k off) n (digits (dims.map Prod.fst) k) off
          update).1.map Prod.fst,
        (stridedPartial dims (cursorOf dims base k off) n (digits (dims.map Prod.fst) k) off
          update).2) := by
  obtain ⟨⟨c, s₀⟩, l, rfl⟩ := List.exists_cons_of_ne_nil hne
  obtain ⟨back, hblock⟩ := isBlock_loops hd (k := k) (by omega)
  have hvisits := @walk_visits A _ ((c, s₀) :: l) base k (n - 1) hd (by omega)
  have hexit := @walk_exit A _ ((c, s₀) :: l) base k (n - 1) hd (by omega)
  rw [unrolledPartial, stridedPartial]
  simp only [start_eq, ← countdown_eq_zipWith, hblock.resume]
  rw [block_of_le _ _ _ (by omega) (by omega)]
  rcases hw : walk ((c, s₀) :: l) (n - 1) (base + offset ((c, s₀) :: l) k)
    (countdown (((c, s₀) :: l).map Prod.fst) k) with ⟨visits, cursor⟩
  rw [hw] at hvisits hexit
  obtain rfl : visits = _ := hvisits
  obtain rfl : cursor = _ := hexit
  have hlast : k + n - 1 = k + (n - 1) := by omega
  have hmap : ((List.range' k (n - 1 + 1)).map (visit ((c, s₀) :: l) base)).map Prod.fst =
      (List.range' k n).map fun x => base + offset ((c, s₀) :: l) x := by
    rw [List.map_map, Nat.sub_add_cancel hn]
    rfl
  have hlen : (countdown (l.map Prod.fst) ((k + (n - 1)) / c)).length = l.length := by
    rw [countdown_eq_zipWith]
    simp
  by_cases hu : update = 0
  · simp only [hu, ne_eq, not_true_eq_false, if_false, hmap]
  · simp only [hu, ne_eq, not_false_eq_true, if_true, hmap, hlast, List.map_cons, countdown, tick,
      cleanup_eq hlen]
    split
    · simp
    · simp [add_assoc]

theorem unrolled_eq (hne : dims ≠ []) (hd : ∀ x ∈ dims, x.1 ≠ 0) (base : A) :
    unrolled dims base = (strided dims base).map Prod.fst := by
  obtain ⟨⟨c, s₀⟩, l, rfl⟩ := List.exists_cons_of_ne_nil hne
  obtain ⟨back, hblock⟩ := isBlock_loops hd (extent_pos hd)
  have hresume := hblock.resume base 0
  rw [countdown_zero, offset_zero, add_zero] at hresume
  rw [unrolled, hresume, block_of_lt _ _ _ (by omega), strided_eq hd, List.map_map, Nat.sub_zero]
  rfl

end Gasnet.Strided
