import Mathlib.Data.List.Nodup
import Mathlib.Logic.Function.Basic

/-! Doubly linked lists, each cell with a pointer back to the link that points to it: the head of
its list, or the next field of the cell before it. -/
namespace Gasnet

/-- A place that holds a pointer to a cell. -/
inductive Link (H A : Type*)
  | head (h : H)
  | next (a : A)
  deriving DecidableEq

structure Links (H A : Type*) where
  head : H → Option A
  next : A → Option A
  prev : A → Link H A

namespace Links

variable {H A : Type*} {L M : Links H A} {l k : Link H A} {xs ys zs : List A} {v w : Option A}
  {a b : A} {h : H} {lists : H → List A}

/-- `*l`. -/
def deref (L : Links H A) : Link H A → Option A
  | .head h => L.head h
  | .next a => L.next a

/-- The links from `l` run through `xs` and end in `v`, and each cell points back. -/
def Path (L : Links H A) : Link H A → List A → Option A → Prop
  | l, [], v => L.deref l = v
  | l, a :: xs, v => L.deref l = some a ∧ L.prev a = l ∧ Path L (.next a) xs v

/-- The last link on the way. -/
def endOf : Link H A → List A → Link H A
  | l, [] => l
  | _, a :: xs => endOf (.next a) xs

theorem endOf_cons : endOf l (a :: xs) = endOf (.next a) xs := rfl

/-- The last link is the first or that of a cell on the way. -/
theorem endOf_cases (l : Link H A) (xs : List A) :
    endOf l xs = l ∧ xs = [] ∨ ∃ a ∈ xs, endOf l xs = .next a := by
  induction xs generalizing l with
  | nil => exact Or.inl ⟨rfl, rfl⟩
  | cons a xs ih =>
    rcases ih (.next a) with ⟨h, -⟩ | ⟨b, hb, h⟩
    · exact Or.inr ⟨a, List.mem_cons_self, h⟩
    · exact Or.inr ⟨b, List.mem_cons_of_mem _ hb, h⟩

theorem Path.split (hp : L.Path l (xs ++ ys) v) :
    L.Path l xs (L.deref (endOf l xs)) ∧ L.Path (endOf l xs) ys v := by
  induction xs generalizing l with
  | nil => exact ⟨rfl, hp⟩
  | cons a xs ih =>
    obtain ⟨h₁, h₂, h₃⟩ := hp
    exact ⟨⟨h₁, h₂, (ih h₃).1⟩, (ih h₃).2⟩

theorem Path.append (hx : L.Path l xs w) (hy : L.Path (endOf l xs) ys v) :
    L.Path l (xs ++ ys) v := by
  induction xs generalizing l with
  | nil => exact hy
  | cons a xs ih => exact ⟨hx.1, hx.2.1, ih hx.2.2 hy⟩

theorem Path.deref_end (hp : L.Path l xs v) : L.deref (endOf l xs) = v := by
  induction xs generalizing l with
  | nil => exact hp
  | cons a xs ih => exact ih hp.2.2

/-- From a link there is one way to the end. -/
theorem Path.unique (hx : L.Path l xs none) (hy : L.Path l ys none) : xs = ys := by
  induction xs generalizing l ys with
  | nil =>
    cases ys with
    | nil => rfl
    | cons b ys => exact absurd (hx.symm.trans hy.1) nofun
  | cons a xs ih =>
    cases ys with
    | nil => exact absurd (hy.symm.trans hx.1) nofun
    | cons b ys =>
      obtain rfl := Option.some.inj (hx.1.symm.trans hy.1)
      rw [ih hx.2.2 hy.2.2]

/-- A path sees its first link, and the fields of its cells. -/
theorem Path.congr (hp : L.Path l xs v) (hl : M.deref l = L.deref l)
    (hnext : ∀ a ∈ xs, M.next a = L.next a) (hprev : ∀ a ∈ xs, M.prev a = L.prev a) :
    M.Path l xs v := by
  induction xs generalizing l with
  | nil => exact hl.trans hp
  | cons a xs ih =>
    refine ⟨hl.trans hp.1, (hprev a List.mem_cons_self).trans hp.2.1, ?_⟩
    exact ih hp.2.2 (hnext a List.mem_cons_self)
      (fun b hb => hnext b (List.mem_cons_of_mem _ hb))
      (fun b hb => hprev b (List.mem_cons_of_mem _ hb))

/-- The end of a path is its last link's. -/
theorem Path.set_end (hp : L.Path l xs v) (hnodup : xs.Nodup) (hl : ∀ b ∈ xs, l ≠ .next b)
    (hend : M.deref (endOf l xs) = w) (hprev : ∀ a ∈ xs, M.prev a = L.prev a)
    (hkeep : ∀ k, k ≠ endOf l xs → (k = l ∨ ∃ b ∈ xs, k = .next b) → M.deref k = L.deref k) :
    M.Path l xs w := by
  induction xs generalizing l with
  | nil => exact hend
  | cons a xs ih =>
    rw [List.nodup_cons] at hnodup
    have hne : l ≠ endOf l (a :: xs) := by
      rw [endOf_cons]
      rcases endOf_cases (.next a : Link H A) xs with ⟨h, -⟩ | ⟨b, hb, h⟩
      · rw [h]
        exact hl a List.mem_cons_self
      · rw [h]
        exact hl b (List.mem_cons_of_mem _ hb)
    refine ⟨(hkeep l hne (Or.inl rfl)).trans hp.1, (hprev a List.mem_cons_self).trans hp.2.1, ?_⟩
    refine ih hp.2.2 hnodup.2 ?_ hend (fun b hb => hprev b (List.mem_cons_of_mem _ hb)) ?_
    · rintro b hb ⟨⟩
      exact hnodup.1 hb
    · rintro k hk (rfl | ⟨b, hb, rfl⟩)
      · exact hkeep _ hk (Or.inr ⟨a, List.mem_cons_self, rfl⟩)
      · exact hkeep _ hk (Or.inr ⟨b, List.mem_cons_of_mem _ hb, rfl⟩)

/-- A path may begin at another link when its first cell points back there. -/
theorem Path.rebase (hp : L.Path l xs v) (hl : M.deref k = L.deref l)
    (hfirst : ∀ a, L.deref l = some a → M.prev a = k)
    (hnext : ∀ a ∈ xs, M.next a = L.next a)
    (hprev : ∀ a ∈ xs, L.deref l ≠ some a → M.prev a = L.prev a) (hnodup : xs.Nodup) :
    M.Path k xs v := by
  cases xs with
  | nil => exact hl.trans hp
  | cons a xs =>
    rw [List.nodup_cons] at hnodup
    refine ⟨hl.trans hp.1, hfirst a hp.1, hp.2.2.congr (hnext a List.mem_cons_self)
      (fun b hb => hnext b (List.mem_cons_of_mem _ hb)) (fun b hb => ?_)⟩
    refine hprev b (List.mem_cons_of_mem _ hb) fun heq => hnodup.1 ?_
    rw [hp.1] at heq
    exact Option.some.inj heq ▸ hb

/-- The lists of all heads, with no cell in two places. -/
structure Holds (L : Links H A) (lists : H → List A) : Prop where
  path : ∀ h, L.Path (.head h) (lists h) none
  nodup : ∀ h, (lists h).Nodup
  apart : ∀ h h' a, a ∈ lists h → a ∈ lists h' → h = h'

theorem holds_empty (next : A → Option A) (prev : A → Link H A) :
    (⟨fun _ => none, next, prev⟩ : Links H A).Holds fun _ => [] where
  path _ := rfl
  nodup _ := List.nodup_nil
  apart _ _ _ h := absurd h List.not_mem_nil

/-- No cell of another list is on the way of this one. -/
theorem Holds.not_link (hL : L.Holds lists) (hsplit : lists h = xs ++ ys) {h' : H} (hne : h' ≠ h) :
    (.head h' : Link H A) ≠ endOf (.head h) xs ∧
      ∀ b ∈ lists h', (.next b : Link H A) ≠ endOf (.head h) xs := by
  rcases endOf_cases (.head h : Link H A) xs with ⟨heq, -⟩ | ⟨c, hc, heq⟩
  · rw [heq]
    exact ⟨fun h => hne (Link.head.inj h), nofun⟩
  · rw [heq]
    refine ⟨nofun, ?_⟩
    rintro b hb ⟨⟩
    exact hne (hL.apart h' h c hb (hsplit ▸ List.mem_append_left _ hc))

theorem next_eq_deref (L : Links H A) (a : A) : L.next a = L.deref (.next a) := rfl

variable [DecidableEq H] [DecidableEq A]

/-- `*l = v`. -/
def store (L : Links H A) (l : Link H A) (v : Option A) : Links H A :=
  match l with
  | .head h => { L with head := Function.update L.head h v }
  | .next a => { L with next := Function.update L.next a v }

def setPrev (L : Links H A) (v : Option A) (l : Link H A) : Links H A :=
  match v with
  | some b => { L with prev := Function.update L.prev b l }
  | none => L

/-- Insert `a` before what `l` points to. -/
def insertAt (L : Links H A) (l : Link H A) (a : A) : Links H A :=
  (((L.store l (some a)).setPrev (some a) l).store (.next a) (L.deref l)).setPrev (L.deref l)
    (.next a)

def remove (L : Links H A) (a : A) : Links H A :=
  (L.store (L.prev a) (L.next a)).setPrev (L.next a) (L.prev a)

@[simp] theorem deref_store : (L.store l v).deref k = if k = l then v else L.deref k := by
  cases l <;> cases k <;> simp [store, deref, Function.update_apply]

@[simp] theorem prev_store : (L.store l v).prev = L.prev := by cases l <;> rfl

omit [DecidableEq H] in
@[simp] theorem deref_setPrev : (L.setPrev v l).deref k = L.deref k := by
  cases v <;> cases k <;> rfl

omit [DecidableEq H] in
@[simp] theorem prev_setPrev :
    (L.setPrev v l).prev b = if v = some b then l else L.prev b := by
  cases v with
  | none => rfl
  | some a => simp [setPrev, Function.update_apply, eq_comm]

theorem deref_insertAt : (L.insertAt l a).deref k =
    if k = .next a then L.deref l else if k = l then some a else L.deref k := by
  simp [insertAt]

theorem prev_insertAt : (L.insertAt l a).prev b =
    if L.deref l = some b then .next a else if b = a then l else L.prev b := by
  simp [insertAt, eq_comm]

theorem deref_remove :
    (L.remove a).deref k = if k = L.prev a then L.next a else L.deref k := by
  simp [remove]

theorem prev_remove :
    (L.remove a).prev b = if L.next a = some b then L.prev a else L.prev b := by
  simp [remove]

omit [DecidableEq A] in
theorem mem_update {h' : H} : b ∈ Function.update lists h zs h' ↔
    if h' = h then b ∈ zs else b ∈ lists h' := by
  by_cases heq : h' = h
  · subst heq
    simp
  · simp [heq]

theorem Holds.insert (hL : L.Holds lists) (hsplit : lists h = xs ++ ys)
    (hnew : ∀ h', a ∉ lists h') :
    (L.insertAt (endOf (.head h) xs) a).Holds (Function.update lists h (xs ++ a :: ys)) := by
  have hpath := hL.path h
  have hnodup := hL.nodup h
  have ha := hnew h
  rw [hsplit] at hpath hnodup ha
  rw [List.mem_append, not_or] at ha
  obtain ⟨hx, hy⟩ := hpath.split
  have hnx := hnodup.of_append_left
  have hny := hnodup.of_append_right
  have hdis := List.disjoint_of_nodup_append hnodup
  have hend : (endOf (.head h) xs : Link H A) ≠ .next a := by
    rcases endOf_cases (.head h : Link H A) xs with ⟨heq, -⟩ | ⟨c, hc, heq⟩
    · rw [heq]
      exact nofun
    · rw [heq]
      rintro ⟨⟩
      exact ha.1 hc
  -- what the last link of `xs` points to is the first of `ys`
  have hfirst : ∀ b, L.deref (endOf (.head h) xs) = some b → b ∈ ys := by
    intro b hb
    cases ys with
    | nil => exact absurd (hy.symm.trans hb) nofun
    | cons c ys => exact Option.some.inj (hy.1.symm.trans hb) ▸ List.mem_cons_self
  have hother : ∀ b, b ∉ ys → b ≠ a →
      (L.insertAt (endOf (.head h) xs) a).prev b = L.prev b := by
    intro b hb hne
    rw [prev_insertAt, if_neg fun h => hb (hfirst b h), if_neg hne]
  constructor
  case path =>
    intro h'
    by_cases hh : h' = h
    · subst hh
      rw [Function.update_self]
      have hxs : (L.insertAt (endOf (.head h') xs) a).Path (.head h') xs (some a) := by
        refine hx.set_end hnx (fun _ _ => nofun) ?_ ?_ ?_
        · rw [deref_insertAt, if_neg hend, if_pos rfl]
        · intro b hb
          exact hother b (hdis hb) (by rintro rfl; exact ha.1 hb)
        · rintro k hk (rfl | ⟨b, hb, rfl⟩)
          · rw [deref_insertAt, if_neg nofun, if_neg hk]
          · rw [deref_insertAt, if_neg (by rintro ⟨⟩; exact ha.1 hb), if_neg hk]
      refine hxs.append ⟨hxs.deref_end, ?_, ?_⟩
      · rw [prev_insertAt, if_neg fun h => ha.2 (hfirst a h), if_pos rfl]
      · refine hy.rebase ?_ (fun b hb => ?_) (fun b hb => ?_) (fun b hb hne => ?_) hny
        · rw [deref_insertAt, if_pos rfl]
        · rw [prev_insertAt, if_pos hb]
        · rw [next_eq_deref, deref_insertAt, if_neg (by rintro ⟨⟩; exact ha.2 hb), if_neg]
          · rfl
          · rcases endOf_cases (.head h' : Link H A) xs with ⟨heq, -⟩ | ⟨c, hc, heq⟩
            · rw [heq]
              exact nofun
            · rw [heq]
              rintro ⟨⟩
              exact hdis hc hb
        · rw [prev_insertAt, if_neg hne, if_neg (by rintro rfl; exact ha.2 hb)]
    · obtain ⟨hlink, hlinks⟩ := hL.not_link hsplit hh
      rw [Function.update_of_ne hh]
      refine (hL.path h').congr ?_ (fun b hb => ?_) (fun b hb => ?_)
      · rw [deref_insertAt, if_neg nofun, if_neg hlink]
      · rw [next_eq_deref, deref_insertAt, if_neg (by rintro ⟨⟩; exact hnew h' hb),
          if_neg (hlinks b hb)]
        rfl
      · refine hother b (fun hby => hh ?_) (by rintro rfl; exact hnew h' hb)
        exact hL.apart h' h b hb (hsplit ▸ List.mem_append_right _ hby)
  case nodup =>
    intro h'
    by_cases hh : h' = h
    · subst hh
      rw [Function.update_self, List.nodup_middle, List.nodup_cons, List.mem_append, not_or]
      exact ⟨ha, hnodup⟩
    · rw [Function.update_of_ne hh]
      exact hL.nodup h'
  case apart =>
    intro h₁ h₂ b hb₁ hb₂
    have hmem : ∀ h', b ∈ Function.update lists h (xs ++ a :: ys) h' →
        b ∈ lists h' ∨ b = a ∧ h' = h := by
      intro h' hb
      rw [mem_update] at hb
      split at hb
      · rename_i hh
        subst hh
        rw [List.mem_append, List.mem_cons] at hb
        rw [hsplit, List.mem_append]
        tauto
      · exact Or.inl hb
    rcases hmem h₁ hb₁ with h₁' | ⟨rfl, rfl⟩
    · rcases hmem h₂ hb₂ with h₂' | ⟨rfl, rfl⟩
      · exact hL.apart h₁ h₂ b h₁' h₂'
      · exact absurd h₁' (hnew h₁)
    · rcases hmem h₂ hb₂ with h₂' | ⟨-, rfl⟩
      · exact absurd h₂' (hnew h₂)
      · rfl

theorem Holds.remove (hL : L.Holds lists) (hsplit : lists h = xs ++ a :: ys) :
    (L.remove a).Holds (Function.update lists h (xs ++ ys)) := by
  have hpath := hL.path h
  have hnodup := hL.nodup h
  rw [hsplit] at hpath hnodup
  have hmid := List.nodup_cons.mp (List.nodup_middle.mp hnodup)
  rw [List.mem_append, not_or] at hmid
  obtain ⟨⟨hax, hay⟩, hrest⟩ := hmid
  obtain ⟨hx, -, hprev, hy⟩ := hpath.split
  have hnx := hrest.of_append_left
  have hny := hrest.of_append_right
  have hdis := List.disjoint_of_nodup_append hrest
  have hfirst : ∀ b, L.next a = some b → b ∈ ys := by
    intro b hb
    cases ys with
    | nil => exact absurd (hy.symm.trans hb) nofun
    | cons c ys => exact Option.some.inj (hy.1.symm.trans hb) ▸ List.mem_cons_self
  have hother : ∀ b, b ∉ ys → (L.remove a).prev b = L.prev b := by
    intro b hb
    rw [prev_remove, if_neg fun h => hb (hfirst b h)]
  constructor
  case path =>
    intro h'
    by_cases hh : h' = h
    · subst hh
      rw [Function.update_self]
      have hxs : (L.remove a).Path (.head h') xs (L.next a) := by
        refine hx.set_end hnx (fun _ _ => nofun) ?_ ?_ ?_
        · rw [deref_remove, hprev, if_pos rfl]
        · exact fun b hb => hother b (hdis hb)
        · intro k hk _
          rw [deref_remove, hprev, if_neg hk]
      refine hxs.append (hy.rebase ?_ (fun b hb => ?_) (fun b hb => ?_) (fun b hb hne => ?_) hny)
      · rw [deref_remove, hprev, if_pos rfl]
        rfl
      · rw [prev_remove, if_pos (show L.next a = some b from hb), hprev]
      · rw [next_eq_deref, deref_remove, hprev, if_neg]
        · rfl
        · rcases endOf_cases (.head h' : Link H A) xs with ⟨heq, -⟩ | ⟨c, hc, heq⟩
          · rw [heq]
            exact nofun
          · rw [heq]
            rintro ⟨⟩
            exact hdis hc hb
      · rw [prev_remove, if_neg (show L.next a ≠ some b from hne)]
    · obtain ⟨hlink, hlinks⟩ := hL.not_link hsplit hh
      rw [Function.update_of_ne hh]
      refine (hL.path h').congr ?_ (fun b hb => ?_) (fun b hb => ?_)
      · rw [deref_remove, hprev, if_neg hlink]
      · rw [next_eq_deref, deref_remove, hprev, if_neg (hlinks b hb)]
        rfl
      · refine hother b (fun hby => hh ?_)
        exact hL.apart h' h b hb (hsplit ▸ List.mem_append_right _ (List.mem_cons_of_mem _ hby))
  case nodup =>
    intro h'
    by_cases hh : h' = h
    · subst hh
      rw [Function.update_self]
      exact hrest
    · rw [Function.update_of_ne hh]
      exact hL.nodup h'
  case apart =>
    have hmem : ∀ h' b, b ∈ Function.update lists h (xs ++ ys) h' → b ∈ lists h' := by
      intro h' b hb
      rw [mem_update] at hb
      split at hb
      · rename_i hh
        subst hh
        rw [List.mem_append] at hb
        rw [hsplit, List.mem_append, List.mem_cons]
        tauto
      · exact hb
    exact fun h₁ h₂ b hb₁ hb₂ => hL.apart h₁ h₂ b (hmem h₁ b hb₁) (hmem h₂ b hb₂)

end Links
end Gasnet
