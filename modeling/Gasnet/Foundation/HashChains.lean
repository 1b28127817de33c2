import Mathlib.Data.List.Basic
import Mathlib.Data.List.Nodup
import Mathlib.Logic.Function.Basic
import Mathlib.Order.Lattice

/-! Hash tables with chains, where several entries may have one key. An entry is in one chain at
most, so a table is a list for each index, and a pointer into a chain is what follows from there. -/
namespace Gasnet

variable {κ ε : Type*} [DecidableEq κ] [DecidableEq ε]

abbrev HashTable (ε : Type*) := ℕ → List ε

namespace HashTable

variable {hash : κ → ℕ} {key : ε → κ} {k : κ} {t : HashTable ε} {e f : ε} {l : List ε} {i : ℕ}

def empty : HashTable ε := fun _ => []

omit [DecidableEq ε] in
/-- On to the first entry with the key `k`. -/
def seek (key : ε → κ) (k : κ) (l : List ε) : List ε := l.dropWhile fun e => key e ≠ k

omit [DecidableEq ε] in
/-- The chain from the first entry with the key on. -/
def find (hash : κ → ℕ) (key : ε → κ) (k : κ) (t : HashTable ε) : List ε := seek key k (t (hash k))

omit [DecidableEq κ] in
/-- A new entry comes first in its chain. -/
def insert (hash : κ → ℕ) (key : ε → κ) (e : ε) (t : HashTable ε) : HashTable ε :=
  Function.update t (hash (key e)) (e :: t (hash (key e)))

/-- The entry `e` itself is taken out, or another one put in its place. -/
def replace (hash : κ → ℕ) (key : ε → κ) (e : ε) (new : Option ε) (t : HashTable ε) : HashTable ε :=
  Function.update t (hash (key e)) <|
    match new with
    | none => (t (hash (key e))).erase e
    | some f => (t (hash (key e))).replace e f

/-- The entries with the key `k`, newest first. -/
def entries (hash : κ → ℕ) (key : ε → κ) (k : κ) (t : HashTable ε) : List ε :=
  (t (hash k)).filter fun e => key e = k

/-- Every entry is in the chain of its key. -/
def Placed (hash : κ → ℕ) (key : ε → κ) (t : HashTable ε) : Prop := ∀ i, ∀ e ∈ t i, hash (key e) = i

omit [DecidableEq ε] in
theorem mem_entries : e ∈ entries hash key k t ↔ e ∈ t (hash k) ∧ key e = k := by
  simp [entries]

omit [DecidableEq ε] in
theorem key_of_mem (h : e ∈ entries hash key k t) : key e = k := (mem_entries.1 h).2

omit [DecidableEq ε] in
theorem seek_cons_of_eq (h : key e = k) : seek key k (e :: l) = e :: l := by simp [seek, h]

omit [DecidableEq ε] in
theorem seek_cons_of_ne (h : key e ≠ k) : seek key k (e :: l) = seek key k l := by simp [seek, h]

omit [DecidableEq ε] in
theorem length_seek_le : (seek key k l).length ≤ l.length :=
  (List.dropWhile_sublist _).length_le

omit [DecidableEq ε] in
theorem head_seek : (seek key k l).head? = (l.filter fun e => key e = k).head? := by
  induction l with
  | nil => rfl
  | cons e l ih =>
    by_cases he : key e = k
    · simp [seek_cons_of_eq he, he]
    · simp [seek_cons_of_ne he, he, ih]

omit [DecidableEq ε] in
theorem head_find : (find hash key k t).head? = (entries hash key k t).head? := head_seek

omit [DecidableEq ε] in
theorem filter_seek : ((seek key k l).filter fun e => key e = k) = l.filter fun e => key e = k := by
  induction l with
  | nil => rfl
  | cons e l ih =>
    by_cases he : key e = k
    · rw [seek_cons_of_eq he]
    · rw [seek_cons_of_ne he, ih]
      simp [he]

omit [DecidableEq ε] in
theorem entries_of_find_nil (h : find hash key k t = []) : entries hash key k t = [] := by
  have hfilter := @filter_seek _ _ _ key k (t (hash k))
  rw [show seek key k (t (hash k)) = [] from h] at hfilter
  exact hfilter.symm

omit [DecidableEq ε] in
theorem entries_of_find_cons (h : find hash key k t = e :: l) :
    key e = k ∧ entries hash key k t = e :: l.filter fun f => key f = k := by
  have hhead := @head_seek _ _ _ key k (t (hash k))
  have hfilter := @filter_seek _ _ _ key k (t (hash k))
  rw [show seek key k (t (hash k)) = e :: l from h] at hhead hfilter
  have he : key e = k := by
    have hmem := List.mem_of_head? hhead.symm
    simpa using (List.mem_filter.1 hmem).2
  refine ⟨he, ?_⟩
  rw [List.filter_cons_of_pos (by simpa using he)] at hfilter
  exact hfilter.symm

omit [DecidableEq ε] in
/-- `best`, or an entry with its key from the pointer `other` on: `next` follows the pointer. -/
def bestFrom (key : ε → κ) (isBetter : ε → ε → Bool) (best : ε) (other : List ε) : ε :=
  match other with
  | [] => best
  | e :: l => bestFrom key isBetter (if isBetter e best then e else best) (seek key (key e) l)
termination_by other.length
decreasing_by exact Nat.lt_succ_of_le length_seek_le

omit [DecidableEq ε] in
theorem bestFrom_seek {isBetter : ε → ε → Bool} {best : ε} :
    bestFrom key isBetter best (seek key k l) = (l.filter fun e => key e = k).foldl
      (fun best e => if isBetter e best then e else best) best := by
  induction l generalizing best with
  | nil => rw [seek, List.dropWhile_nil, bestFrom]; rfl
  | cons e l ih =>
    by_cases he : key e = k
    · subst he
      rw [seek_cons_of_eq rfl, bestFrom, ih]
      simp
    · rw [seek_cons_of_ne he, ih]
      simp [he]

omit [DecidableEq ε] in
/-- A fold that keeps the better of two ends with one of the best. -/
theorem foldl_better {γ : Type*} [LinearOrder γ] {rank : ε → γ} {isBetter : ε → ε → Bool}
    (hbetter : ∀ e f, isBetter e f ↔ rank f < rank e) (best : ε) (l : List ε) :
    l.foldl (fun best e => if isBetter e best then e else best) best ∈ best :: l ∧
      ∀ f ∈ best :: l,
        rank f ≤ rank (l.foldl (fun best e => if isBetter e best then e else best) best) := by
  induction l generalizing best with
  | nil => simp
  | cons e l ih =>
    obtain ⟨hmem, hmax⟩ := ih (if isBetter e best then e else best)
    rw [List.foldl_cons]
    have hfirst : rank best ≤ rank (if isBetter e best then e else best) ∧
        rank e ≤ rank (if isBetter e best then e else best) := by
      by_cases he : isBetter e best
      · rw [if_pos he]
        exact ⟨((hbetter e best).1 he).le, le_rfl⟩
      · rw [if_neg he]
        exact ⟨le_rfl, not_lt.1 fun h => he ((hbetter e best).2 h)⟩
    have htop := hmax _ List.mem_cons_self
    refine ⟨?_, fun f hf => ?_⟩
    · rcases List.mem_cons.1 hmem with heq | hl
      · rw [heq]
        split
        · exact List.mem_cons_of_mem _ List.mem_cons_self
        · exact List.mem_cons_self
      · exact List.mem_cons_of_mem _ (List.mem_cons_of_mem _ hl)
    · rcases List.mem_cons.1 hf with rfl | hf
      · exact hfirst.1.trans htop
      · rcases List.mem_cons.1 hf with rfl | hf
        · exact hfirst.2.trans htop
        · exact hmax f (List.mem_cons_of_mem _ hf)

omit [DecidableEq ε] in
theorem entries_insert : entries hash key k (insert hash key e t) =
    if key e = k then e :: entries hash key k t else entries hash key k t := by
  by_cases he : key e = k
  · subst he
    simp [entries, insert]
  · rw [if_neg he, entries, insert]
    by_cases hh : hash k = hash (key e)
    · simp [hh, he, entries]
    · simp [hh, entries]

omit [DecidableEq κ] in
theorem filter_erase_of_neg {p : ε → Bool} (h : p e = false) : (l.erase e).filter p = l.filter p := by
  induction l with
  | nil => rfl
  | cons f l ih =>
    by_cases hf : f = e
    · subst hf
      simp [h]
    · rw [List.erase_cons_tail (by simpa using hf), List.filter_cons, List.filter_cons, ih]

omit [DecidableEq κ] in
theorem filter_erase_of_pos {p : ε → Bool} (h : p e = true) :
    (l.erase e).filter p = (l.filter p).erase e := by
  induction l with
  | nil => rfl
  | cons f l ih =>
    by_cases hf : f = e
    · subst hf
      simp [h]
    · rw [List.erase_cons_tail (by simpa using hf), List.filter_cons, List.filter_cons, ih]
      split
      · rw [List.erase_cons_tail (by simpa using hf)]
      · rfl

theorem entries_erase : entries hash key k (replace hash key e none t) =
    if key e = k then (entries hash key k t).erase e else entries hash key k t := by
  by_cases he : key e = k
  · subst he
    simp [entries, replace, filter_erase_of_pos]
  · rw [if_neg he, entries, replace]
    by_cases hh : hash k = hash (key e)
    · simp [hh, he, entries, filter_erase_of_neg]
    · simp [hh, entries]

omit [DecidableEq κ] in
theorem filter_replace {p : ε → Bool} (hp : p e = p f) :
    (l.replace e f).filter p = if p e then (l.filter p).replace e f else l.filter p := by
  induction l with
  | nil => simp
  | cons x l ih =>
    by_cases hx : e = x
    · subst hx
      by_cases he : p e
      · simp [he, ← hp]
      · simp [he, ← hp]
    · have hx' : (e == x) = false := by simpa using hx
      simp only [List.replace_cons, hx', List.filter_cons, ih]
      by_cases he : p e <;> by_cases hpx : p x <;> simp [he, hpx, List.replace_cons, hx']

theorem entries_replace (hkey : key f = key e) : entries hash key k (replace hash key e (some f) t) =
    if key e = k then (entries hash key k t).replace e f else entries hash key k t := by
  by_cases hh : hash k = hash (key e)
  · rw [entries, replace, ← hh, Function.update_self,
      filter_replace (p := fun e => decide (key e = k)) (by simp [hkey])]
    simp [entries]
  · have he : key e ≠ k := by
      rintro rfl
      exact hh rfl
    simp [entries, replace, hh, he]

omit [DecidableEq κ] in
theorem mem_or_eq_of_mem_replace {x : ε} (h : x ∈ l.replace e f) : x ∈ l ∨ x = f := by
  induction l with
  | nil => exact Or.inl h
  | cons y l ih =>
    rw [List.replace_cons] at h
    split at h
    · rcases List.mem_cons.1 h with rfl | h
      · exact Or.inr rfl
      · exact Or.inl (List.mem_cons_of_mem _ h)
    · rcases List.mem_cons.1 h with rfl | h
      · exact Or.inl List.mem_cons_self
      · exact (ih h).imp_left (List.mem_cons_of_mem _)

omit [DecidableEq κ] [DecidableEq ε] in
theorem placed_empty : Placed hash key (empty : HashTable ε) := by
  intro i e he
  simp [empty] at he

omit [DecidableEq κ] [DecidableEq ε] in
theorem Placed.update (h : Placed hash key t) (hl : ∀ e ∈ l, hash (key e) = i) :
    Placed hash key (Function.update t i l) := by
  intro j e he
  by_cases hj : j = i
  · subst hj
    rw [Function.update_self] at he
    exact hl e he
  · rw [Function.update_of_ne hj] at he
    exact h j e he

omit [DecidableEq κ] [DecidableEq ε] in
theorem Placed.insert (h : Placed hash key t) : Placed hash key (insert hash key e t) := by
  refine h.update fun f hf => ?_
  rcases List.mem_cons.1 hf with rfl | hf
  · rfl
  · exact h _ f hf

omit [DecidableEq κ] in
theorem Placed.replace {new : Option ε} (h : Placed hash key t) (hnew : ∀ f ∈ new, key f = key e) :
    Placed hash key (replace hash key e new t) := by
  refine h.update fun x hx => ?_
  cases new with
  | none => exact h _ x (List.mem_of_mem_erase hx)
  | some f =>
    rcases mem_or_eq_of_mem_replace hx with hx | rfl
    · exact h _ x hx
    · rw [hnew x rfl]

end HashTable

end Gasnet
