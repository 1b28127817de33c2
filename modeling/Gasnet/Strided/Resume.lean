import Gasnet.Strided.Unrolled

/-! A traversal cut into partial ones, each resumed where the one before it left off. -/
namespace Gasnet.Strided

variable {A : Type*} [AddCommGroup A] {dims : List (ℕ × A)} {base p : A} {L k n : ℕ} {off : Bool}
  {update : BitVec 32}

/-- `GASNETE_2STRIDED_HELPER` with `DECLARE_PARTIAL`; `L` is `GASNETE_LOOPING_DIMS`. -/
def helperPartial (L : ℕ) (dims : List (ℕ × A)) (p1base : A) (numchunks : ℕ) (init : List ℕ)
    (addrAlreadyOffset : Bool) (updateAddrInit : BitVec 32) : List A × A × List ℕ :=
  if dims.length ≤ L then
    unrolledPartial dims p1base numchunks init addrAlreadyOffset updateAddrInit
  else
    let (visits, exit) := stridedPartial dims p1base numchunks init addrAlreadyOffset updateAddrInit
    (visits.map Prod.fst, exit)

/-- `GASNETE_2STRIDED_HELPER` without `DECLARE_PARTIAL`. -/
def helper (L : ℕ) (dims : List (ℕ × A)) (p1base : A) : List A :=
  if dims.length ≤ L then unrolled dims p1base else (strided dims p1base).map Prod.fst

/-- `GASNETE_STRIDED_VECTOR_INC` in `size_t`. -/
def vectorIncSize : (count init : List ℕ) → (incval : ℕ) → List ℕ
  | thismax :: count, i :: init, incval =>
    let thisinit := (i + incval) % 2 ^ 64
    if thisinit < thismax then thisinit :: init
    else thisinit % thismax :: vectorIncSize count init (thisinit / thismax)
  | _, init, _ => init

/-- One partial traversal: how many chunks, whether the address variable holds the first chunk's
address or else the base, and what the caller gives for `update_addr_init`. -/
structure Part where
  numchunks : ℕ
  offset : Bool
  update : Word

/-- The value in an `int`. -/
def Part.flag (q : Part) : BitVec 32 := q.update.setWidth 32

/-- What each partial traversal visits, and the address and `init` after it. -/
def partials (L : ℕ) (dims : List (ℕ × A)) (base : A) :
    A → List ℕ → List Part → List (List A × A × List ℕ)
  | _, _, [] => []
  | p, init, q :: parts =>
    let r := helperPartial L dims (if q.offset then p else base) q.numchunks init q.offset q.flag
    r :: partials L dims base r.2.1 r.2.2 parts

/-- The addresses and the index vectors that `GASNETE_STRIDED_VECTOR_INC` gives. -/
def advanced (dims : List (ℕ × A)) (base : A) : List ℕ → List Part → List (A × List ℕ)
  | _, [] => []
  | init, q :: parts =>
    let next := vectorIncSize (dims.map Prod.fst) init q.numchunks
    (base + advance dims next, next) :: advanced dims base next parts

/-- Together the parts visit what the full traversal visits, in its order, and after each but the
last the saved state is the advanced one. -/
structure Resumes (L : ℕ) (dims : List (ℕ × A)) (base : A) (parts : List Part) : Prop where
  visits : (partials L dims base base (List.replicate dims.length 0) parts).flatMap Prod.fst =
    helper L dims base
  saved : ((partials L dims base base (List.replicate dims.length 0) parts).map Prod.snd).dropLast =
    (advanced dims base (List.replicate dims.length 0) parts).dropLast

theorem vectorIncSize_digits (count : List ℕ) (h : k + n < 2 ^ 64) :
    vectorIncSize count (digits count k) n = digits count (k + n) := by
  have hsize : vectorIncSize count (digits count k) n = vectorInc count (digits count k) n := by
    induction count generalizing k n with
    | nil => rfl
    | cons c count ih =>
      have hle := Nat.mod_le k c
      rw [digits, vectorIncSize, vectorInc, Nat.mod_eq_of_lt (by omega : k % c + n < 2 ^ 64)]
      have hcarry : k / c + (k % c + n) / c ≤ k + n := by
        rcases Nat.eq_zero_or_pos c with rfl | hc
        · simp
        · have hsum : k / c + (k % c + n) / c = (k + n) / c := by
            rw [Nat.add_comm, ← Nat.add_mul_div_left _ _ hc]
            congr 1
            have := Nat.mod_add_div k c
            omega
          rw [hsum]
          exact Nat.div_le_self ..
      rw [ih (by omega)]
  rw [hsize, vectorInc_digits]

theorem stridedPartial_visits (hd : ∀ x ∈ dims, x.1 ≠ 0) (hn : 0 < n) (h : k + n ≤ extent dims) :
    (stridedPartial dims (cursorOf dims base k off) n (digits (dims.map Prod.fst) k) off
      update).1.map Prod.fst = (List.range' k n).map fun x => base + offset dims x := by
  have hvisits := @walk_visits A _ dims base k (n - 1) hd (by omega)
  rw [stridedPartial]
  simp only [start_eq, ← countdown_eq_zipWith]
  rcases hw : walk dims (n - 1) (base + offset dims k) (countdown (dims.map Prod.fst) k) with
    ⟨visits, cursor⟩
  rw [hw] at hvisits
  obtain rfl : visits = _ := hvisits
  have hmap : ((List.range' k (n - 1 + 1)).map (visit dims base)).map Prod.fst =
      (List.range' k n).map fun x => base + offset dims x := by
    rw [List.map_map, Nat.sub_add_cancel hn]
    rfl
  cases cursor with
  | none => exact hmap
  | some x =>
    simp only
    split <;> exact hmap

theorem helperPartial_visits (hne : dims ≠ []) (hd : ∀ x ∈ dims, x.1 ≠ 0) (hn : 0 < n)
    (h : k + n ≤ extent dims) :
    (helperPartial L dims (cursorOf dims base k off) n (digits (dims.map Prod.fst) k) off
      update).1 = (List.range' k n).map fun x => base + offset dims x := by
  rw [helperPartial]
  split
  · rw [unrolledPartial_eq hne hd hn h]
    exact stridedPartial_visits hd hn h
  · exact stridedPartial_visits hd hn h

/-- Short of the end the state is saved exactly if the flag is not zero. -/
theorem helperPartial_saved (hne : dims ≠ []) (hd : ∀ x ∈ dims, x.1 ≠ 0) (hn : 0 < n)
    (h : k + n < extent dims) :
    (helperPartial L dims (cursorOf dims base k off) n (digits (dims.map Prod.fst) k) off
      update).2 =
      if update ≠ 0 then (base + offset dims (k + n), digits (dims.map Prod.fst) (k + n))
      else (cursorOf dims base k off, digits (dims.map Prod.fst) k) := by
  have hgeneral := @stridedPartial_eq A _ dims base k n hd hn (Nat.le_of_lt h) off update (by omega)
  have hsplit : (helperPartial L dims (cursorOf dims base k off) n (digits (dims.map Prod.fst) k)
      off update).2 = (stridedPartial dims (cursorOf dims base k off) n
        (digits (dims.map Prod.fst) k) off update).2 := by
    rw [helperPartial]
    split
    · rw [unrolledPartial_eq hne hd hn (Nat.le_of_lt h)]
    · rfl
  rw [hsplit, cursorOf, hgeneral]
  split <;> rfl

section Runs

variable {parts : List Part} {q : Part}

/-- The chunks of all parts. -/
def total (parts : List Part) : ℕ := (parts.map Part.numchunks).sum

theorem total_cons (q : Part) (parts : List Part) :
    total (q :: parts) = q.numchunks + total parts := by
  simp [total]

theorem total_pos (hpos : ∀ q ∈ parts, 0 < q.numchunks) (hne : parts ≠ []) : 0 < total parts := by
  obtain ⟨q, l, rfl⟩ := List.exists_cons_of_ne_nil hne
  have hq := hpos q List.mem_cons_self
  rw [total_cons]
  omega

/-- The first of the parts, from a cursor at position `k`. -/
theorem partials_cons (q : Part) (hp : p = base + offset dims k) :
    partials L dims base p (digits (dims.map Prod.fst) k) (q :: parts) =
      let r := helperPartial L dims (cursorOf dims base k q.offset) q.numchunks
        (digits (dims.map Prod.fst) k) q.offset q.flag
      r :: partials L dims base r.2.1 r.2.2 parts := by
  rw [partials, hp]
  rfl

theorem advanced_cons (hsize : k + q.numchunks < 2 ^ 64) :
    advanced dims base (digits (dims.map Prod.fst) k) (q :: parts) =
      (base + offset dims (k + q.numchunks), digits (dims.map Prod.fst) (k + q.numchunks)) ::
        advanced dims base (digits (dims.map Prod.fst) (k + q.numchunks)) parts := by
  rw [advanced, vectorIncSize_digits _ hsize]
  simp only [advance_digits]

/-- With flags that are not zero all parts go on where the ones before them left off. -/
theorem partials_good (hne : dims ≠ []) (hd : ∀ x ∈ dims, x.1 ≠ 0) (hsize : extent dims < 2 ^ 64)
    (hpos : ∀ q ∈ parts, 0 < q.numchunks) (hp : p = base + offset dims k)
    (htotal : k + total parts = extent dims) (hflag : ∀ q ∈ parts.dropLast, q.flag ≠ 0) :
    (partials L dims base p (digits (dims.map Prod.fst) k) parts).flatMap Prod.fst =
        ((List.range' k (total parts)).map fun x => base + offset dims x) ∧
      ((partials L dims base p (digits (dims.map Prod.fst) k) parts).map Prod.snd).dropLast =
        (advanced dims base (digits (dims.map Prod.fst) k) parts).dropLast := by
  induction parts generalizing p k with
  | nil => exact ⟨rfl, rfl⟩
  | cons q parts ih =>
    have hn := hpos q List.mem_cons_self
    rw [total_cons] at htotal ⊢
    rw [partials_cons q hp, advanced_cons (by omega)]
    cases parts with
    | nil =>
      rw [total] at htotal ⊢
      refine ⟨?_, rfl⟩
      rw [List.flatMap_cons, helperPartial_visits hne hd hn (by simpa using htotal.le)]
      simp [partials]
    | cons q' parts =>
      have hpos' : ∀ x ∈ q' :: parts, 0 < x.numchunks := fun x hx =>
        hpos x (List.mem_cons_of_mem _ hx)
      have htail := total_pos hpos' (List.cons_ne_nil _ _)
      have hsaved := @helperPartial_saved A _ dims base L k q.numchunks q.offset q.flag hne hd hn
        (by omega)
      rw [if_pos (hflag q (by simp))] at hsaved
      obtain ⟨hv, hs⟩ := ih hpos' rfl (by omega : k + q.numchunks + total (q' :: parts) = _)
        fun x hx => hflag x (by
          rw [List.dropLast_cons_of_ne_nil (List.cons_ne_nil _ _)]
          exact List.mem_cons_of_mem _ hx)
      simp only [hsaved]
      constructor
      · rw [List.flatMap_cons, helperPartial_visits hne hd hn (by omega), hv, ← List.map_append,
          List.range'_append_1]
      · rw [List.map_cons, List.dropLast_cons_of_ne_nil (by simp [partials]), hs, hsaved,
          List.dropLast_cons_of_ne_nil (by simp [advanced])]

/-- A state that is the advanced one was saved. -/
theorem flags_of_saved (hne : dims ≠ []) (hd : ∀ x ∈ dims, x.1 ≠ 0) (hsize : extent dims < 2 ^ 64)
    (hpos : ∀ q ∈ parts, 0 < q.numchunks) (hp : p = base + offset dims k)
    (htotal : k + total parts = extent dims)
    (h : ((partials L dims base p (digits (dims.map Prod.fst) k) parts).map Prod.snd).dropLast =
      (advanced dims base (digits (dims.map Prod.fst) k) parts).dropLast) :
    ∀ q ∈ parts.dropLast, q.flag ≠ 0 := by
  induction parts generalizing p k with
  | nil => exact nofun
  | cons q parts ih =>
    cases parts with
    | nil => exact nofun
    | cons q' parts =>
      have hn := hpos q List.mem_cons_self
      have hpos' : ∀ x ∈ q' :: parts, 0 < x.numchunks := fun x hx =>
        hpos x (List.mem_cons_of_mem _ hx)
      have htail := total_pos hpos' (List.cons_ne_nil _ _)
      rw [total_cons] at htotal
      have hsaved := @helperPartial_saved A _ dims base L k q.numchunks q.offset q.flag hne hd hn
        (by omega)
      rw [partials_cons q hp, advanced_cons (by omega), List.map_cons,
        List.dropLast_cons_of_ne_nil (by simp [partials]),
        List.dropLast_cons_of_ne_nil (by simp [advanced]), List.cons.injEq] at h
      obtain ⟨hhead, hrest⟩ := h
      have hflag : q.flag ≠ 0 := by
        intro hz
        rw [hsaved, if_neg (not_not.2 hz)] at hhead
        have hinit := congrArg Prod.snd hhead
        have := digits_inj (by change k < extent dims; omega)
          (by change k + q.numchunks < extent dims; omega) hinit
        omega
      rw [if_pos hflag] at hsaved
      rw [hsaved] at hrest
      rw [List.dropLast_cons_of_ne_nil (List.cons_ne_nil _ _)]
      intro x hx
      rcases List.mem_cons.1 hx with rfl | hx
      · exact hflag
      · exact ih hpos' rfl (by omega) hrest x hx

theorem helper_eq (L : ℕ) (hne : dims ≠ []) (hd : ∀ x ∈ dims, x.1 ≠ 0) (base : A) :
    helper L dims base = (strided dims base).map Prod.fst := by
  rw [helper]
  split
  · exact unrolled_eq hne hd base
  · rfl

theorem resumes_iff (hne : dims ≠ []) (hd : ∀ x ∈ dims, x.1 ≠ 0) (hsize : extent dims < 2 ^ 64)
    (hpos : ∀ q ∈ parts, 0 < q.numchunks) (htotal : total parts = extent dims) :
    Resumes L dims base parts ↔ ∀ q ∈ parts.dropLast, q.flag ≠ 0 := by
  have hzero : List.replicate dims.length 0 = digits (dims.map Prod.fst) 0 := by
    rw [digits_zero, List.length_map]
  have hbase : base = base + offset dims 0 := by simp
  constructor
  · intro h
    have hsaved := h.saved
    rw [hzero] at hsaved
    exact flags_of_saved hne hd hsize hpos hbase (by omega) hsaved
  · intro h
    obtain ⟨hv, hs⟩ := @partials_good A _ dims base base L 0 parts hne hd hsize hpos hbase
      (by omega) h
    refine ⟨?_, by rw [hzero, hs]⟩
    rw [hzero, hv, helper_eq L hne hd, strided_eq hd, List.map_map, htotal]
    rfl

/-- A traversal in parts is the full one, with the advanced states between the parts, exactly if
every flag but the last is a nonzero `int`; and the unrolled cases do what the general case does. -/
theorem strided_resumes_iff (L : ℕ) (dims : List (ℕ × A)) (base : A) (parts : List Part)
    (hne : dims ≠ []) (hd : ∀ x ∈ dims, x.1 ≠ 0) (hsize : extent dims < 2 ^ 64)
    (hpos : ∀ q ∈ parts, 0 < q.numchunks) (htotal : total parts = extent dims) :
    (Resumes L dims base parts ↔ ∀ q ∈ parts.dropLast, q.update.setWidth 32 ≠ 0) ∧
      (∀ p, unrolled dims p = (strided dims p).map Prod.fst) ∧
      ∀ (k n : ℕ) (off : Bool) (update : BitVec 32), 0 < n → k + n ≤ extent dims →
        unrolledPartial dims (cursorOf dims base k off) n (digits (dims.map Prod.fst) k) off
            update =
          ((stridedPartial dims (cursorOf dims base k off) n (digits (dims.map Prod.fst) k) off
              update).1.map Prod.fst,
            (stridedPartial dims (cursorOf dims base k off) n (digits (dims.map Prod.fst) k) off
              update).2) :=
  ⟨resumes_iff hne hd hsize hpos htotal, unrolled_eq hne hd, fun _ _ off update hn h =>
    unrolledPartial_eq hne hd hn h base off update⟩

end Runs

theorem strided_resumes_pieces :
    Resumes 8 [(2, ((1 : ℤ), (8 : ℤ))), (3, (16, 32))] (0, 0) [⟨3, false, 3⟩, ⟨2, true, 1⟩, ⟨1, true, 0⟩] :=
  (strided_resumes_iff 8 [(2, ((1 : ℤ), (8 : ℤ))), (3, (16, 32))] (0, 0)
    [⟨3, false, 3⟩, ⟨2, true, 1⟩, ⟨1, true, 0⟩] (List.cons_ne_nil _ _) (by simp) (by decide)
    (by simp) (by decide)).1.2 (by decide)

/-- With `2 ^ 32` chunks left after the first the `int` that asks for the state is zero. -/
theorem strided_state_lost :
    ¬Resumes 8 [(2 ^ 32 + 1, ((1 : ℤ), (1 : ℤ)))] (0, 0) [⟨1, true, 2 ^ 32⟩, ⟨2 ^ 32, true, 0⟩] := by
  intro h
  have hflags := (resumes_iff (List.cons_ne_nil _ _) (by simp) (by decide) (by simp)
    (by decide)).1 h
  exact hflags ⟨1, true, 2 ^ 32⟩ List.mem_cons_self (by decide)

end Gasnet.Strided
