import Gasnet.Vis.Overrun

/-! The bytes that the pieces of the incremental vector transfer stand for, and the helper
`GASNETE_VECTOR_HELPER` that visits the matching chunks of two lists. -/
namespace Gasnet.Vis

variable {c : Config} {s : State} {v w : Memvec} {l l₁ l₂ next : List Memvec} {n m off₁ off₂ : Nat}

/-- The addresses of all bytes of a list, in order. -/
def flat (l : List Memvec) : List Word := l.flatMap Memvec.bytes

@[simp] theorem flat_nil : flat [] = [] := rfl

@[simp] theorem flat_cons (v : Memvec) (l : List Memvec) : flat (v :: l) = v.bytes ++ flat l := rfl

@[simp] theorem length_bytes (v : Memvec) : v.bytes.length = v.len := length_span ..

theorem bytes_of_len (h : v.len = 0) : v.bytes = [] := by
  rw [Memvec.bytes, h]
  rfl

theorem take_bytes (h : n ≤ v.len) : v.bytes.take n = span v.addr n := by
  have hsum : v.len = n + (v.len - n) := by omega
  rw [Memvec.bytes, hsum, span_add, List.take_left' (length_span ..)]

theorem bytes_advance (h : n ≤ v.len) : v.bytes = span v.addr n ++ (v.advance n).bytes := by
  have hsum : v.len = n + (v.len - n) := by omega
  rw [Memvec.bytes, hsum, span_add]
  rfl

/-- No empty piece is at the front. -/
def HeadFull (l : List Memvec) : Prop := ∀ v ∈ l.head?, v.len ≠ 0

theorem flat_dropWhile (l : List Memvec) : flat (l.dropWhile (·.len = 0)) = flat l := by
  induction l with
  | nil => rfl
  | cons v l ih =>
    by_cases h : v.len = 0
    · rw [List.dropWhile_cons_of_pos (by simpa using h), ih, flat_cons, bytes_of_len h]
      rfl
    · rw [List.dropWhile_cons_of_neg (by simpa using h)]

theorem headFull_dropWhile (l : List Memvec) : HeadFull (l.dropWhile (·.len = 0)) := by
  induction l with
  | nil => exact nofun
  | cons v l ih =>
    by_cases h : v.len = 0
    · rwa [List.dropWhile_cons_of_pos (by simpa using h)]
    · rw [List.dropWhile_cons_of_neg (by simpa using h)]
      intro w hw
      cases hw
      exact h

theorem flat_mergeUp (v : Memvec) (l : List Memvec) :
    (mergeUp v l).1.bytes ++ flat (mergeUp v l).2 = v.bytes ++ flat l := by
  induction l generalizing v with
  | nil => rfl
  | cons w l ih =>
    rw [mergeUp]
    split
    · rename_i h
      rw [ih, flat_cons, bytes_of_len h, List.nil_append]
    · split
      · rename_i h
        rw [ih, flat_cons, ← List.append_assoc]
        congr 1
        rw [Memvec.bytes, span_add, ← h]
        rfl
      · rfl

theorem headFull_mergeUp (v : Memvec) (l : List Memvec) : HeadFull (mergeUp v l).2 := by
  induction l generalizing v with
  | nil => exact nofun
  | cons w l ih =>
    rw [mergeUp]
    split
    · exact ih _
    · rename_i hw
      split
      · exact ih _
      · intro u hu
        cases hu
        exact hw

theorem le_len_mergeUp (v : Memvec) (l : List Memvec) : v.len ≤ (mergeUp v l).1.len := by
  induction l generalizing v with
  | nil => exact Nat.le_refl _
  | cons w l ih =>
    rw [mergeUp]
    split
    · exact ih v
    · split
      · exact Nat.le_trans (Nat.le_add_right v.len w.len) (ih ⟨v.addr, v.len + w.len⟩)
      · exact Nat.le_refl _

namespace State

/-- The remote bytes not yet dealt with. -/
def restR (s : State) : List Word := s.rvec.bytes ++ flat s.rnext

/-- The local bytes not yet dealt with. -/
def restL (s : State) : List Word := s.lvec.bytes ++ flat s.lnext

@[simp] theorem restR_pickUpR (s : State) : s.pickUpR.restR = s.restR := by
  rw [pickUpR]
  split
  · rename_i h
    split
    · rfl
    · rename_i v next hn
      rw [restR, restR, bytes_of_len h, hn, flat_cons, List.nil_append]
      exact flat_mergeUp v next
  · rfl

@[simp] theorem restR_pickUpL (s : State) : s.pickUpL.restR = s.restR := by
  rw [pickUpL]
  split
  · split <;> rfl
  · rfl

@[simp] theorem restL_pickUpR (s : State) : s.pickUpR.restL = s.restL := by
  rw [pickUpR]
  split
  · split <;> rfl
  · rfl

@[simp] theorem restL_pickUpL (s : State) : s.pickUpL.restL = s.restL := by
  rw [pickUpL]
  split
  · rename_i h
    split
    · rfl
    · rename_i v next hn
      rw [restL, restL, bytes_of_len h, hn, flat_cons, List.nil_append]
      exact flat_mergeUp v next
  · rfl

/-- Neither list has an empty piece next. -/
def Heads (s : State) : Prop := HeadFull s.rnext ∧ HeadFull s.lnext

theorem heads_pickUpR (h : s.Heads) : s.pickUpR.Heads := by
  rw [pickUpR]
  split
  · split
    · exact h
    · rename_i v next hn
      exact ⟨headFull_mergeUp v next, h.2⟩
  · exact h

theorem heads_pickUpL (h : s.Heads) : s.pickUpL.Heads := by
  rw [pickUpL]
  split
  · split
    · exact h
    · rename_i v next hn
      exact ⟨h.1, headFull_mergeUp v next⟩
  · exact h

/-- While bytes remain, the piece that is picked up has some. -/
theorem rvec_pickUpR_pos (h : s.Heads) (hr : s.restR ≠ []) : 0 < s.pickUpR.rvec.len := by
  rw [pickUpR]
  split
  · rename_i hz
    split
    · rename_i hn
      rw [restR, bytes_of_len hz, hn] at hr
      exact absurd rfl hr
    · rename_i v next hn
      have hv := h.1 v (by rw [hn]; rfl)
      exact Nat.lt_of_lt_of_le (Nat.pos_of_ne_zero hv) (le_len_mergeUp ..)
  · exact Nat.pos_of_ne_zero (by assumption)

theorem lvec_pickUpL_pos (h : s.Heads) (hr : s.restL ≠ []) : 0 < s.pickUpL.lvec.len := by
  rw [pickUpL]
  split
  · rename_i hz
    split
    · rename_i hn
      rw [restL, bytes_of_len hz, hn] at hr
      exact absurd rfl hr
    · rename_i v next hn
      have hv := h.2 v (by rw [hn]; rfl)
      exact Nat.lt_of_lt_of_le (Nat.pos_of_ne_zero hv) (le_len_mergeUp ..)
  · exact Nat.pos_of_ne_zero (by assumption)

@[simp] theorem rvec_pickUpL (s : State) : s.pickUpL.rvec = s.rvec := by
  rw [pickUpL]
  split
  · split <;> rfl
  · rfl

theorem contig_pickUp_pos (h : s.Heads) (hr : s.restR ≠ []) (hl : s.restL ≠ []) :
    0 < s.pickUpR.pickUpL.contig := by
  have hleft := lvec_pickUpL_pos (heads_pickUpR h) (by rwa [restL_pickUpR])
  have hright := rvec_pickUpR_pos h hr
  rw [contig, rvec_pickUpL]
  omega

/-- Both lists give up their first `n` bytes. -/
theorem rest_advance (hn : n ≤ s.contig) :
    s.restR = span s.rvec.addr n ++ (s.advance n).restR ∧
      s.restL = span s.lvec.addr n ++ (s.advance n).restL := by
  have hr : n ≤ s.rvec.len := Nat.le_trans hn (Nat.min_le_right ..)
  have hl : n ≤ s.lvec.len := Nat.le_trans hn (Nat.min_le_left ..)
  constructor
  · rw [restR, bytes_advance hr, List.append_assoc]
    rfl
  · rw [restL, bytes_advance hl, List.append_assoc]
    rfl

end State

/-- The arguments of an `action`. -/
structure Chunk where
  p1 : Word
  p2 : Word
  len : Nat

def Chunk.pairs (k : Chunk) : List (Word × Word) := (span k.p1 k.len).zip (span k.p2 k.len)

/-- The loop of the helper if the first list is one piece. -/
def contig1 (pp1 : Word) : List Memvec → List Chunk
  | [] => []
  | v :: l => if 0 < v.len then ⟨pp1, v.addr, v.len⟩ :: contig1 (pp1 + v.len) l else contig1 pp1 l

/-- The loop of the helper if the second list is one piece. -/
def contig2 (pp2 : Word) : List Memvec → List Chunk
  | [] => []
  | v :: l => if 0 < v.len then ⟨v.addr, pp2, v.len⟩ :: contig2 (pp2 + v.len) l else contig2 pp2 l

/-- `_VEC_SKIPEMPTY`. -/
def skipEmpty (l : List Memvec) : List Memvec := l.dropWhile (·.len = 0)

theorem length_skipEmpty_le (l : List Memvec) : (skipEmpty l).length ≤ l.length :=
  (List.dropWhile_suffix _).length_le

/-- The loop of the general case, at offsets into the first pieces. -/
def helperLoop : List Memvec → List Memvec → Nat → Nat → List Chunk
  | v :: l₁, w :: l₂, off₁, off₂ =>
    let rem₁ := v.len - off₁
    let rem₂ := w.len - off₂
    if rem₁ < rem₂ then
      ⟨v.addr + off₁, w.addr + off₂, rem₁⟩ :: helperLoop (skipEmpty l₁) (w :: l₂) 0 (off₂ + rem₁)
    else if rem₂ < rem₁ then
      ⟨v.addr + off₁, w.addr + off₂, rem₂⟩ :: helperLoop (v :: l₁) (skipEmpty l₂) (off₁ + rem₂) 0
    else ⟨v.addr + off₁, w.addr + off₂, rem₁⟩ :: helperLoop (skipEmpty l₁) (skipEmpty l₂) 0 0
  | _, _, _, _ => []
termination_by l₁ l₂ => l₁.length + l₂.length
decreasing_by
  all_goals
    have h₁ := length_skipEmpty_le l₁
    have h₂ := length_skipEmpty_le l₂
    simp only [List.length_cons]
    omega

/-- `GASNETE_VECTOR_HELPER`. -/
def vectorHelper : List Memvec → List Memvec → List Chunk
  | [v], l₂ => contig1 v.addr l₂
  | l₁, [w] => contig2 w.addr l₁
  | l₁, l₂ => helperLoop (skipEmpty l₁) (skipEmpty l₂) 0 0

theorem contig1_pairs (pp1 : Word) (l : List Memvec) :
    (contig1 pp1 l).flatMap Chunk.pairs = (span pp1 (flat l).length).zip (flat l) := by
  induction l generalizing pp1 with
  | nil => rfl
  | cons v l ih =>
    rw [contig1, flat_cons, List.length_append, length_bytes, span_add,
      List.zip_append (by rw [length_span, length_bytes])]
    split
    · rw [List.flatMap_cons, ih]
      rfl
    · rename_i h
      have hz : v.len = 0 := by omega
      rw [ih, hz, bytes_of_len hz]
      simp [span]

theorem contig2_pairs (pp2 : Word) (l : List Memvec) :
    (contig2 pp2 l).flatMap Chunk.pairs = (flat l).zip (span pp2 (flat l).length) := by
  induction l generalizing pp2 with
  | nil => rfl
  | cons v l ih =>
    rw [contig2, flat_cons, List.length_append, length_bytes, span_add,
      List.zip_append (by rw [length_span, length_bytes])]
    split
    · rw [List.flatMap_cons, ih]
      rfl
    · rename_i h
      have hz : v.len = 0 := by omega
      rw [ih, hz, bytes_of_len hz]
      simp [span]

/-- The offset is inside the first piece. -/
def Inside (l : List Memvec) (off : Nat) : Prop := ∀ v ∈ l.head?, off < v.len

theorem inside_skipEmpty (l : List Memvec) : Inside (skipEmpty l) 0 := fun v hv =>
  Nat.pos_of_ne_zero (headFull_dropWhile l v hv)

/-- The bytes of a list from an offset into its first piece. -/
theorem drop_flat (h : n ≤ v.len) : (flat (v :: l)).drop n = (v.advance n).bytes ++ flat l := by
  rw [flat_cons, bytes_advance h, List.append_assoc, List.drop_left' (length_span ..)]

theorem advance_advance (v : Memvec) (m n : Nat) : (v.advance m).advance n = v.advance (m + n) := by
  simp only [Memvec.advance, Nat.cast_add, BitVec.add_assoc, Nat.sub_sub]

/-- A chunk that ends with the first piece of one list. -/
theorem zip_chunk {a : Memvec} {r r' : List Word} (v : Memvec) (h : v.len ≤ a.len) :
    (v.bytes ++ r).zip (a.bytes ++ r') =
      (span v.addr v.len).zip (span a.addr v.len) ++ r.zip ((a.advance v.len).bytes ++ r') := by
  rw [bytes_advance h, List.append_assoc,
    List.zip_append (by rw [length_bytes, length_span]), Memvec.bytes]

theorem zip_chunk' {a : Memvec} {r r' : List Word} (v : Memvec) (h : v.len ≤ a.len) :
    (a.bytes ++ r).zip (v.bytes ++ r') =
      (span a.addr v.len).zip (span v.addr v.len) ++ ((a.advance v.len).bytes ++ r).zip r' := by
  rw [bytes_advance h, List.append_assoc,
    List.zip_append (by rw [length_bytes, length_span]), Memvec.bytes]

theorem helperLoop_pairs (h₁ : Inside l₁ off₁) (h₂ : Inside l₂ off₂) :
    (helperLoop l₁ l₂ off₁ off₂).flatMap Chunk.pairs =
      ((flat l₁).drop off₁).zip ((flat l₂).drop off₂) := by
  induction l₁, l₂, off₁, off₂ using helperLoop.induct with
  | case1 v l₁ w l₂ off₁ off₂ rem₁ rem₂ hlt ih =>
    have hv := h₁ v rfl
    have hw := h₂ w rfl
    rw [helperLoop, if_pos hlt, List.flatMap_cons, ih (inside_skipEmpty _) ?_]
    · rw [skipEmpty, flat_dropWhile, List.drop_zero, drop_flat (by omega), drop_flat (by omega),
        drop_flat (by omega), zip_chunk _ (Nat.le_of_lt hlt), advance_advance]
      rfl
    · rintro x ⟨⟩
      omega
  | case2 v l₁ w l₂ off₁ off₂ rem₁ rem₂ hge hlt ih =>
    have hv := h₁ v rfl
    have hw := h₂ w rfl
    rw [helperLoop, if_neg hge, if_pos hlt, List.flatMap_cons, ih ?_ (inside_skipEmpty _)]
    · rw [skipEmpty, flat_dropWhile, List.drop_zero, drop_flat (by omega), drop_flat (by omega),
        drop_flat (by omega), zip_chunk' _ (Nat.le_of_lt hlt), advance_advance]
      rfl
    · rintro x ⟨⟩
      omega
  | case3 v l₁ w l₂ off₁ off₂ rem₁ rem₂ hge hle ih =>
    have hv := h₁ v rfl
    have hw := h₂ w rfl
    have heq : (w.advance off₂).len = (v.advance off₁).len := by
      simp only [Memvec.advance]
      omega
    rw [helperLoop, if_neg hge, if_neg hle, List.flatMap_cons,
      ih (inside_skipEmpty _) (inside_skipEmpty _), skipEmpty, skipEmpty, flat_dropWhile,
      flat_dropWhile, List.drop_zero, List.drop_zero, drop_flat (by omega), drop_flat (by omega),
      zip_chunk _ (Nat.le_of_eq heq.symm), bytes_of_len (by simp [Memvec.advance] at heq ⊢; omega)]
    rfl
  | case4 l₁ l₂ off₁ off₂ hne =>
    cases l₁ with
    | nil => simp [helperLoop]
    | cons v l₁ =>
      cases l₂ with
      | nil => simp [helperLoop]
      | cons w l₂ => exact (hne v l₁ w l₂ rfl rfl).elim

/-- The helper pairs the bytes of the two lists in order. -/
theorem vectorHelper_pairs (h : (flat l₁).length = (flat l₂).length) :
    (vectorHelper l₁ l₂).flatMap Chunk.pairs = (flat l₁).zip (flat l₂) := by
  rw [vectorHelper.eq_def]
  split
  · rename_i v
    rw [contig1_pairs, ← h, flat_cons, flat_nil, List.append_nil, length_bytes]
    rfl
  · rename_i w _
    rw [contig2_pairs, h, flat_cons, flat_nil, List.append_nil, length_bytes]
    rfl
  · rw [helperLoop_pairs (inside_skipEmpty _) (inside_skipEmpty _), skipEmpty, skipEmpty,
      flat_dropWhile, flat_dropWhile, List.drop_zero, List.drop_zero]

end Gasnet.Vis
