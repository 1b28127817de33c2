import Gasnet.Vis.Packetize
import Gasnet.Vis.Pieces

/-! The helpers that visit the matching chunks of two lists: `GASNETE_INDEXED_HELPER`, and where
the chunks of both helpers lie. -/
namespace Gasnet.Vis

variable {v w : Memvec} {l l₁ l₂ l₁' l₂' : List Memvec} {list₁ list₂ : List Word}
  {k : Chunk} {pp : Word} {n off₁ off₂ len₁ len₂ : ℕ}

/-- The loop of the indexed helper if the first list is one element. -/
def elements1 (len₂ : ℕ) (pp1 : Word) : List Word → List Chunk
  | [] => []
  | p2 :: l => ⟨pp1, p2, len₂⟩ :: elements1 len₂ (pp1 + len₂) l

/-- The loop of the indexed helper if the second list is one element. -/
def elements2 (len₁ : ℕ) (pp2 : Word) : List Word → List Chunk
  | [] => []
  | p1 :: l => ⟨p1, pp2, len₁⟩ :: elements2 len₁ (pp2 + len₁) l

/-- The loop of the general case, at offsets into the first elements. -/
def elementsLoop (len₁ len₂ : ℕ) : List Word → List Word → ℕ → ℕ → List Chunk
  | a :: l₁, b :: l₂, off₁, off₂ =>
    let rem₁ := len₁ - off₁
    let rem₂ := len₂ - off₂
    if rem₁ < rem₂ then
      ⟨a + off₁, b + off₂, rem₁⟩ :: elementsLoop len₁ len₂ l₁ (b :: l₂) 0 (off₂ + rem₁)
    else if rem₂ < rem₁ then
      ⟨a + off₁, b + off₂, rem₂⟩ :: elementsLoop len₁ len₂ (a :: l₁) l₂ (off₁ + rem₂) 0
    else ⟨a + off₁, b + off₂, rem₁⟩ :: elementsLoop len₁ len₂ l₁ l₂ 0 0
  | _, _, _, _ => []
termination_by l₁ l₂ => l₁.length + l₂.length

/-- `GASNETE_INDEXED_HELPER`. -/
def indexedHelper (list₁ : List Word) (len₁ : ℕ) (list₂ : List Word) (len₂ : ℕ) : List Chunk :=
  if len₁ = len₂ then List.zipWith (fun p1 p2 => ⟨p1, p2, len₁⟩) list₁ list₂
  else
    match list₁, list₂ with
    | [a], list₂ => elements1 len₂ a list₂
    | list₁, [b] => elements2 len₁ b list₁
    | list₁, list₂ => elementsLoop len₁ len₂ list₁ list₂ 0 0

/-- The elements as pieces. -/
def pieces (len : ℕ) (list : List Word) : List Memvec := list.map fun a => ⟨a, len⟩

theorem flat_pieces (len : ℕ) (list : List Word) : flat (pieces len list) = flatAddrs len list := by
  rw [flat, pieces, List.flatMap_map]
  rfl

theorem length_flatAddrs (len : ℕ) (list : List Word) :
    (flatAddrs len list).length = list.length * len := by
  simp [flatAddrs]

/-- `len` bytes from `p` on lie in one piece of a list. -/
def Within (l : List Memvec) (p : Word) (len : ℕ) : Prop :=
  ∃ v ∈ l, ∃ off : ℕ, p = v.addr + (off : Word) ∧ off + len ≤ v.len

/-- A chunk that is not empty and lies in one piece of each list. -/
structure Chunk.Good (k : Chunk) (l₁ l₂ : List Memvec) : Prop where
  pos : 0 < k.len
  first : Within l₁ k.p1 k.len
  second : Within l₂ k.p2 k.len

theorem Chunk.Good.mono (h : k.Good l₁ l₂) (h₁ : l₁ ⊆ l₁') (h₂ : l₂ ⊆ l₂') : k.Good l₁' l₂' := by
  obtain ⟨hpos, ⟨v, hv, hfirst⟩, w, hw, hsecond⟩ := h
  exact ⟨hpos, ⟨v, h₁ hv, hfirst⟩, w, h₂ hw, hsecond⟩

theorem within_head (v : Memvec) (l : List Memvec) : Within (v :: l) v.addr v.len :=
  ⟨v, List.mem_cons_self, 0, by simp, by omega⟩

theorem contig1_good (hfit : n + (flat l).length ≤ v.len) :
    ∀ k ∈ contig1 (v.addr + (n : Word)) l, k.Good [v] l := by
  induction l generalizing n with
  | nil => exact nofun
  | cons w l ih =>
    rw [flat_cons, List.length_append, length_bytes] at hfit
    intro k hk
    rw [contig1] at hk
    split at hk
    · rename_i hpos
      rcases List.mem_cons.1 hk with rfl | hk
      · exact ⟨hpos, ⟨v, List.mem_cons_self, n, rfl, by simp only; omega⟩, within_head w l⟩
      · have hnext := @ih (n + w.len) (by omega) k
        rw [Nat.cast_add, ← add_assoc] at hnext
        exact (hnext hk).mono (List.Subset.refl _) (List.subset_cons_self _ _)
    · exact (ih (by omega) k hk).mono (List.Subset.refl _) (List.subset_cons_self _ _)

theorem contig2_good (hfit : n + (flat l).length ≤ w.len) :
    ∀ k ∈ contig2 (w.addr + (n : Word)) l, k.Good l [w] := by
  induction l generalizing n with
  | nil => exact nofun
  | cons v l ih =>
    rw [flat_cons, List.length_append, length_bytes] at hfit
    intro k hk
    rw [contig2] at hk
    split at hk
    · rename_i hpos
      rcases List.mem_cons.1 hk with rfl | hk
      · exact ⟨hpos, within_head v l, w, List.mem_cons_self, n, rfl, by simp only; omega⟩
      · have hnext := @ih (n + v.len) (by omega) k
        rw [Nat.cast_add, ← add_assoc] at hnext
        exact (hnext hk).mono (List.subset_cons_self _ _) (List.Subset.refl _)
    · exact (ih (by omega) k hk).mono (List.subset_cons_self _ _) (List.Subset.refl _)

theorem skipEmpty_subset (v : Memvec) (l : List Memvec) : skipEmpty l ⊆ v :: l := fun _ hx =>
  List.mem_cons_of_mem _ ((List.dropWhile_suffix _).subset hx)

theorem helperLoop_good (h₁ : Inside l₁ off₁) (h₂ : Inside l₂ off₂) :
    ∀ k ∈ helperLoop l₁ l₂ off₁ off₂, k.Good l₁ l₂ := by
  induction l₁, l₂, off₁, off₂ using helperLoop.induct with
  | case1 v l₁ w l₂ off₁ off₂ rem₁ rem₂ hlt ih =>
    have hv := h₁ v rfl
    intro k hk
    rw [helperLoop, if_pos hlt] at hk
    rcases List.mem_cons.1 hk with rfl | hk
    · exact ⟨by simp only; omega, ⟨v, List.mem_cons_self, off₁, rfl, by simp only; omega⟩,
        w, List.mem_cons_self, off₂, rfl, by simp only; omega⟩
    · have hw : Inside (w :: l₂) (off₂ + rem₁) := by
        rintro x ⟨⟩
        omega
      exact (ih (inside_skipEmpty _) hw k hk).mono (skipEmpty_subset _ _) (List.Subset.refl _)
  | case2 v l₁ w l₂ off₁ off₂ rem₁ rem₂ hge hlt ih =>
    have hw := h₂ w rfl
    intro k hk
    rw [helperLoop, if_neg hge, if_pos hlt] at hk
    rcases List.mem_cons.1 hk with rfl | hk
    · exact ⟨by simp only; omega, ⟨v, List.mem_cons_self, off₁, rfl, by simp only; omega⟩,
        w, List.mem_cons_self, off₂, rfl, by simp only; omega⟩
    · have hv : Inside (v :: l₁) (off₁ + rem₂) := by
        rintro x ⟨⟩
        omega
      exact (ih hv (inside_skipEmpty _) k hk).mono (List.Subset.refl _) (skipEmpty_subset _ _)
  | case3 v l₁ w l₂ off₁ off₂ rem₁ rem₂ hge hle ih =>
    have hv := h₁ v rfl
    have hw := h₂ w rfl
    intro k hk
    rw [helperLoop, if_neg hge, if_neg hle] at hk
    rcases List.mem_cons.1 hk with rfl | hk
    · exact ⟨by simp only; omega, ⟨v, List.mem_cons_self, off₁, rfl, by simp only; omega⟩,
        w, List.mem_cons_self, off₂, rfl, by simp only; omega⟩
    · exact (ih (inside_skipEmpty _) (inside_skipEmpty _) k hk).mono (skipEmpty_subset _ _)
        (skipEmpty_subset _ _)
  | case4 l₁ l₂ off₁ off₂ hne =>
    cases l₁ with
    | nil => simp [helperLoop]
    | cons v l₁ =>
      cases l₂ with
      | nil => simp [helperLoop]
      | cons w l₂ => exact (hne v l₁ w l₂ rfl rfl).elim

theorem vectorHelper_good (h : (flat l₁).length = (flat l₂).length) :
    ∀ k ∈ vectorHelper l₁ l₂, k.Good l₁ l₂ := by
  rw [vectorHelper.eq_def]
  split
  · rename_i v
    have hgood := @contig1_good v l₂ 0 (by simp [← h])
    rwa [Nat.cast_zero, add_zero] at hgood
  · rename_i w _
    have hgood := @contig2_good w l₁ 0 (by simp [h])
    rwa [Nat.cast_zero, add_zero] at hgood
  · have hsub (l : List Memvec) : skipEmpty l ⊆ l := (List.dropWhile_suffix _).subset
    exact fun k hk => (helperLoop_good (inside_skipEmpty _) (inside_skipEmpty _) k hk).mono
      (hsub _) (hsub _)

section Indexed

theorem skipEmpty_pieces (h : 0 < len₁) (list : List Word) :
    skipEmpty (pieces len₁ list) = pieces len₁ list := by
  cases list with
  | nil => rfl
  | cons a l =>
    rw [skipEmpty, pieces, List.map_cons, List.dropWhile_cons_of_neg (by simp; omega)]

/-- Over elements that are not empty the loops do what those of the vector helper do. -/
theorem elements1_eq (h : 0 < len₂) (pp : Word) (list : List Word) :
    elements1 len₂ pp list = contig1 pp (pieces len₂ list) := by
  induction list generalizing pp with
  | nil => rfl
  | cons a l ih =>
    rw [elements1, pieces, List.map_cons, contig1, if_pos h, ih]
    rfl

theorem elements2_eq (h : 0 < len₁) (pp : Word) (list : List Word) :
    elements2 len₁ pp list = contig2 pp (pieces len₁ list) := by
  induction list generalizing pp with
  | nil => rfl
  | cons a l ih =>
    rw [elements2, pieces, List.map_cons, contig2, if_pos h, ih]
    rfl

theorem elementsLoop_eq (h₁ : 0 < len₁) (h₂ : 0 < len₂) (list₁ list₂ : List Word) (off₁ off₂ : ℕ) :
    elementsLoop len₁ len₂ list₁ list₂ off₁ off₂ =
      helperLoop (pieces len₁ list₁) (pieces len₂ list₂) off₁ off₂ := by
  induction list₁, list₂, off₁, off₂ using elementsLoop.induct len₁ len₂ with
  | case1 a l₁ b l₂ off₁ off₂ rem₁ rem₂ hlt ih =>
    simp only [pieces, List.map_cons] at ih ⊢
    rw [elementsLoop, helperLoop, if_pos hlt, if_pos hlt, ih]
    congr 2
    exact (skipEmpty_pieces h₁ l₁).symm
  | case2 a l₁ b l₂ off₁ off₂ rem₁ rem₂ hge hlt ih =>
    simp only [pieces, List.map_cons] at ih ⊢
    rw [elementsLoop, helperLoop, if_neg hge, if_neg hge, if_pos hlt, if_pos hlt, ih]
    congr 2
    exact (skipEmpty_pieces h₂ l₂).symm
  | case3 a l₁ b l₂ off₁ off₂ rem₁ rem₂ hge hle ih =>
    have hs₁ := skipEmpty_pieces h₁ l₁
    have hs₂ := skipEmpty_pieces h₂ l₂
    simp only [pieces, List.map_cons] at ih hs₁ hs₂ ⊢
    rw [elementsLoop, helperLoop, if_neg hge, if_neg hge, if_neg hle, if_neg hle, ih, hs₁, hs₂]
  | case4 l₁ l₂ off₁ off₂ hne =>
    cases l₁ with
    | nil => simp [elementsLoop, helperLoop, pieces]
    | cons a l₁ =>
      cases l₂ with
      | nil => simp [elementsLoop, helperLoop, pieces]
      | cons b l₂ => exact (hne a l₁ b l₂ rfl rfl).elim

/-- Elements of one length are paired one to one. -/
theorem matched_pairs (h : list₁.length = list₂.length) (len : ℕ) :
    (List.zipWith (fun p1 p2 => (⟨p1, p2, len⟩ : Chunk)) list₁ list₂).flatMap Chunk.pairs =
      (flatAddrs len list₁).zip (flatAddrs len list₂) := by
  induction list₁ generalizing list₂ with
  | nil => rfl
  | cons a l₁ ih =>
    cases list₂ with
    | nil => exact absurd h (Nat.succ_ne_zero _)
    | cons b l₂ =>
      have hcons (c : Word) (l : List Word) :
          flatAddrs len (c :: l) = span c len ++ flatAddrs len l := rfl
      rw [List.zipWith_cons_cons, List.flatMap_cons, ih (Nat.succ.inj h), hcons, hcons,
        List.zip_append (by simp)]
      rfl

theorem matched_good {len : ℕ} (hlen : 0 < len) :
    ∀ k ∈ List.zipWith (fun p1 p2 => (⟨p1, p2, len⟩ : Chunk)) list₁ list₂,
      k.Good (pieces len list₁) (pieces len list₂) := by
  induction list₁ generalizing list₂ with
  | nil => exact nofun
  | cons a l₁ ih =>
    cases list₂ with
    | nil => exact nofun
    | cons b l₂ =>
      intro k hk
      rcases List.mem_cons.1 hk with rfl | hk
      · exact ⟨hlen, within_head ⟨a, len⟩ _, within_head ⟨b, len⟩ _⟩
      · exact (ih k hk).mono (List.subset_cons_self _ _) (List.subset_cons_self _ _)

/-- Lists whose elements differ in length: the helper is the one for vectors. -/
theorem indexedHelper_eq (h₁ : 0 < len₁) (h₂ : 0 < len₂) (hne : len₁ ≠ len₂) :
    indexedHelper list₁ len₁ list₂ len₂ = vectorHelper (pieces len₁ list₁) (pieces len₂ list₂) := by
  rw [indexedHelper.eq_def, if_neg hne]
  rcases list₁ with _ | ⟨a, _ | ⟨a', l₁⟩⟩
  · rcases list₂ with _ | ⟨b, _ | ⟨b', l₂⟩⟩
    · simp [elementsLoop, vectorHelper, pieces, helperLoop, skipEmpty]
    · simp [elements2, vectorHelper, pieces, contig2]
    · simp [elementsLoop, vectorHelper, pieces, helperLoop, skipEmpty]
  · exact elements1_eq h₂ a list₂
  · rcases list₂ with _ | ⟨b, _ | ⟨b', l₂⟩⟩
    · simp [elementsLoop, vectorHelper, pieces, helperLoop, skipEmpty]
    · exact elements2_eq h₁ b (a :: a' :: l₁)
    · have hloop := elementsLoop_eq h₁ h₂ (a :: a' :: l₁) (b :: b' :: l₂) 0 0
      rw [← skipEmpty_pieces h₁, ← skipEmpty_pieces h₂] at hloop
      exact hloop

theorem indexedHelper_exact (h₁ : 0 < len₁) (h₂ : 0 < len₂)
    (h : list₁.length * len₁ = list₂.length * len₂) :
    (indexedHelper list₁ len₁ list₂ len₂).flatMap Chunk.pairs =
        (flatAddrs len₁ list₁).zip (flatAddrs len₂ list₂) ∧
      ∀ k ∈ indexedHelper list₁ len₁ list₂ len₂, k.Good (pieces len₁ list₁) (pieces len₂ list₂) := by
  rcases eq_or_ne len₁ len₂ with rfl | hne
  · rw [indexedHelper.eq_def, if_pos rfl]
    exact ⟨matched_pairs (Nat.eq_of_mul_eq_mul_right h₁ h) len₁, matched_good h₁⟩
  · have hflat : (flat (pieces len₁ list₁)).length = (flat (pieces len₂ list₂)).length := by
      rw [flat_pieces, flat_pieces, length_flatAddrs, length_flatAddrs, h]
    rw [indexedHelper_eq h₁ h₂ hne, vectorHelper_pairs hflat, flat_pieces, flat_pieces]
    exact ⟨rfl, vectorHelper_good hflat⟩

end Indexed

/-- Over lists of equal totals both helpers pair the bytes of the lists in order, by chunks that
are not empty and lie in one piece or element of each list. -/
theorem helpers_exact :
    (∀ l₁ l₂ : List Memvec, (flat l₁).length = (flat l₂).length →
      (vectorHelper l₁ l₂).flatMap Chunk.pairs = (flat l₁).zip (flat l₂) ∧
        ∀ k ∈ vectorHelper l₁ l₂, k.Good l₁ l₂) ∧
      ∀ (list₁ list₂ : List Word) (len₁ len₂ : ℕ), 0 < len₁ → 0 < len₂ →
        list₁.length * len₁ = list₂.length * len₂ →
        (indexedHelper list₁ len₁ list₂ len₂).flatMap Chunk.pairs =
            (flatAddrs len₁ list₁).zip (flatAddrs len₂ list₂) ∧
          ∀ k ∈ indexedHelper list₁ len₁ list₂ len₂,
            k.Good (pieces len₁ list₁) (pieces len₂ list₂) :=
  ⟨fun _ _ h => ⟨vectorHelper_pairs h, vectorHelper_good h⟩, fun _ _ _ _ h₁ h₂ h =>
    indexedHelper_exact h₁ h₂ h⟩

theorem helpers_exact_two :
    (vectorHelper [⟨100, 0⟩, ⟨200, 3⟩, ⟨300, 2⟩] [⟨400, 1⟩, ⟨500, 0⟩, ⟨600, 4⟩]).flatMap Chunk.pairs =
        [(200, 400), (201, 600), (202, 601), (300, 602), (301, 603)] ∧
      (indexedHelper [100, 200, 300] 2 [400, 500] 3).flatMap Chunk.pairs =
        [(100, 400), (101, 401), (200, 402), (201, 500), (300, 501), (301, 502)] :=
  ⟨(helpers_exact.1 _ _ (by decide)).1.trans (by decide),
    (helpers_exact.2 _ _ _ _ (by decide) (by decide) (by decide)).1.trans (by decide)⟩

end Gasnet.Vis
