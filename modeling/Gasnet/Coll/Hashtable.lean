import Mathlib.Algebra.BigOperators.Group.Finset.Piecewise
import Mathlib.Data.List.Nodup
import Mathlib.Logic.Function.Basic

/-! `gasnete_hashtable_t`: buckets that are vectors of items. -/
namespace Gasnet.Coll.Hash

abbrev Key := BitVec 32

variable {α : Type*}

/-- `gasnete_table_t`, with the slots that are in use. -/
structure Table (α : Type*) where
  slots : List (Key × α)
  size : ℕ

namespace Table

def create (size : ℕ) : Table α := ⟨[], size⟩

/-- `num`. -/
def num (t : Table α) : ℕ := t.slots.length

def search (t : Table α) (key : Key) : Option (Key × α) := t.slots.find? fun x => key = x.1

def insert (t : Table α) (item : Key × α) : ℕ × Table α :=
  if t.size ≤ t.num then (1, t) else (0, { t with slots := t.slots ++ [item] })

/-- The last item goes where the removed one was. -/
def remove (t : Table α) (key : Key) : ℕ × Option α × Table α :=
  match t.slots.findIdx? fun x => key = x.1 with
  | none => (1, none, t)
  | some i => (0, t.slots[i]?.map Prod.snd, { t with
      slots := match t.slots.getLast? with
        | some last => (if i < t.num - 1 then t.slots.set i last else t.slots).dropLast
        | none => [] })

/-- The destination has to have room. -/
def copy (src dst : Table α) : Option (Table α) :=
  if src.num ≤ dst.size then some { dst with slots := src.slots } else none

end Table

/-- `gasnete_hashtable_t`. -/
structure Hashtable (α : Type*) where
  buckets : ℕ → Table α
  size : ℕ
  num : ℕ

/-- `TABLE_INIT_SIZE`. -/
def tableInitSize : ℕ := 10

def create (size : ℕ) : Hashtable α := ⟨fun _ => Table.create tableInitSize, size, 0⟩

/-- `gasnete_hashtable_hash`. -/
def hash (size : ℕ) (key : Key) : ℕ := key.toNat % size

/-- `gasnete_hashtable_search`: the result, and what `data` gets. -/
def search (ht : Hashtable α) (key : Key) : ℕ × Option α :=
  match (ht.buckets (hash ht.size key)).search key with
  | none => (1, none)
  | some item => (0, some item.2)

/-- The table that takes the item: a full one is first copied into one of twice the size, a `uint32_t`. -/
def room (t : Table α) : Option (Table α) :=
  if t.num = t.size then t.copy (Table.create (t.size * 2 % 2 ^ 32)) else some t

/-- `gasnete_hashtable_insert`. -/
def insert (ht : Hashtable α) (key : Key) (data : α) : Option (ℕ × Hashtable α) :=
  (room (ht.buckets (hash ht.size key))).map fun t =>
    let (rv, t) := t.insert (key, data)
    (rv, { ht with
      buckets := Function.update ht.buckets (hash ht.size key) t
      num := (ht.num + 1) % 2 ^ 32 })

/-- `gasnete_hashtable_remove`: the result, what `data` gets, and the table. -/
def remove (ht : Hashtable α) (key : Key) : ℕ × Option α × Hashtable α :=
  let (rv, data, t) := (ht.buckets (hash ht.size key)).remove key
  (rv, data, { ht with
    buckets := Function.update ht.buckets (hash ht.size key) t
    num := (ht.num + 2 ^ 32 - 1) % 2 ^ 32 })

inductive Op (α : Type*)
  | insert (key : Key) (data : α)
  | search (key : Key)
  | remove (key : Key)

/-- A call: what it returns and puts into `data`, and the table after it, if that is defined. -/
def exec (ht : Hashtable α) : Op α → Option ((ℕ × Option α) × Hashtable α)
  | .insert key data => (insert ht key data).map fun r => ((r.1, none), r.2)
  | .search key => some (search ht key, ht)
  | .remove key => let r := remove ht key; some ((r.1, r.2.1), r.2.2)

/-! The map that the table stands for, as the list of its items. -/

def lookup (l : List (Key × α)) (key : Key) : Option α := (l.find? fun x => key = x.1).map Prod.snd

/-- Found, or not found. -/
def found : Option α → ℕ × Option α
  | some d => (0, some d)
  | none => (1, none)

def spec (l : List (Key × α)) : Op α → (ℕ × Option α) × List (Key × α)
  | .insert key data => ((0, none), (key, data) :: l)
  | .search key => (found (lookup l key), l)
  | .remove key => (found (lookup l key), l.filter fun x => key ≠ x.1)

/-- Only keys that are not there are inserted. -/
def Legal (l : List (Key × α)) : List (Op α) → Prop
  | [] => True
  | op :: ops => (∀ key data, op = .insert key data → lookup l key = none) ∧ Legal (spec l op).2 ops

/-- The table finds what the map has, and counts it right. -/
structure Good (ht : Hashtable α) (l : List (Key × α)) : Prop where
  search : ∀ key, search ht key = found (lookup l key)
  buckets : ht.num = ∑ i ∈ Finset.range ht.size, (ht.buckets i).num
  live : ht.num = l.length

/-- In every state of the run the table is good, and every call returns what it should. -/
def AlwaysGood (ht : Hashtable α) (l : List (Key × α)) : List (Op α) → Prop
  | [] => Good ht l
  | op :: ops => Good ht l ∧ ∃ ht', exec ht op = some ((spec l op).1, ht') ∧
      AlwaysGood ht' (spec l op).2 ops

/-- The items of a bucket. -/
def inBucket (size i : ℕ) (l : List (Key × α)) : List (Key × α) := l.filter fun x => hash size x.1 = i

/-- No bucket that has been doubled 28 times gets one more item, not all keys are inserted, and what is
removed is there. -/
def Meets (size : ℕ) (l : List (Key × α)) : List (Op α) → Prop
  | [] => True
  | op :: ops => (match op with
      | .insert key _ => (inBucket size (hash size key) l).length ≠ tableInitSize * 2 ^ 28 ∧
          l.length + 1 < 2 ^ 32
      | .search _ => True
      | .remove key => lookup l key ≠ none) ∧ Meets size (spec l op).2 ops

variable {l l' : List (Key × α)} {ht ht' : Hashtable α} {t : Table α} {key : Key} {data d : α} {i n size : ℕ}

section Lists

/-- With every key once, what is found is what is there. -/
theorem find_some_iff (h : (l.map Prod.fst).Nodup) {x : Key × α} :
    (l.find? fun x => key = x.1) = some x ↔ x ∈ l ∧ key = x.1 := by
  induction l with
  | nil => simp
  | cons y l ih =>
    rw [List.map_cons, List.nodup_cons] at h
    rw [List.find?_cons]
    by_cases hy : key = y.1
    · simp only [hy, decide_true, Option.some.injEq, List.mem_cons]
      constructor
      · rintro rfl
        exact ⟨Or.inl rfl, rfl⟩
      · rintro ⟨rfl | hx, hk⟩
        · rfl
        · exact absurd (List.mem_map.2 ⟨x, hx, hk.symm⟩) h.1
    · simp only [hy, decide_false, ih h.2, List.mem_cons]
      constructor
      · rintro ⟨hx, hk⟩
        exact ⟨Or.inr hx, hk⟩
      · rintro ⟨rfl | hx, hk⟩
        · exact absurd hk hy
        · exact ⟨hx, hk⟩

theorem find_none_iff : (l.find? fun x => key = x.1) = none ↔ key ∉ l.map Prod.fst := by
  rw [List.find?_eq_none, List.mem_map]
  constructor
  · rintro h ⟨x, hx, rfl⟩
    exact h x hx (by simp)
  · intro h x hx hk
    exact h ⟨x, hx, (of_decide_eq_true hk).symm⟩

/-- The order does not matter. -/
theorem find_perm (h : (l.map Prod.fst).Nodup) (hp : l.Perm l') :
    (l.find? fun x => key = x.1) = l'.find? fun x => key = x.1 := by
  have h' : (l'.map Prod.fst).Nodup := (hp.map Prod.fst).nodup_iff.1 h
  ext x
  rw [find_some_iff h, find_some_iff h', hp.mem_iff]

/-- The last item in the place of another: one item is gone. -/
theorem set_dropLast_perm {x last : α} {xs : List α} (hi : xs[i]? = some x)
    (hlast : xs.getLast? = some last) :
    (x :: (if i < xs.length - 1 then xs.set i last else xs).dropLast).Perm xs := by
  obtain ⟨init, rfl⟩ : ∃ init, xs = init ++ [last] := List.getLast?_eq_some_iff.1 hlast
  rw [List.length_append, List.length_singleton, Nat.add_sub_cancel]
  split
  · rename_i hlt
    rw [List.getElem?_append_left hlt] at hi
    obtain ⟨-, rfl⟩ := List.getElem?_eq_some_iff.1 hi
    rw [List.set_append_left _ _ hlt, List.dropLast_concat]
    refine List.Perm.trans ?_ (List.perm_append_singleton last init).symm
    have hset := List.set_perm_cons_eraseIdx hlt last
    have hself := List.getElem_cons_eraseIdx_perm hlt
    exact ((hset.cons _).trans (List.Perm.swap ..)).trans (hself.cons _)
  · rename_i hge
    have hx : i = init.length := by
      have := (List.getElem?_eq_some_iff.1 hi).1
      rw [List.length_append, List.length_singleton] at this
      omega
    subst hx
    rw [List.getElem?_concat_length] at hi
    obtain rfl := Option.some.inj hi
    rw [List.dropLast_concat]
    exact (List.perm_append_singleton _ init).symm

end Lists

/-- A bucket has the items of the map that belong there, in some order, in a vector that has been doubled
some times. -/
structure Bucket (size i : ℕ) (l : List (Key × α)) (t : Table α) : Prop where
  items : t.slots.Perm (inBucket size i l)
  fits : t.num ≤ t.size
  doubled : ∃ k ≤ 28, t.size = tableInitSize * 2 ^ k

structure Refines (ht : Hashtable α) (l : List (Key × α)) : Prop where
  pos : 0 < ht.size
  nodup : (l.map Prod.fst).Nodup
  live : l.length < 2 ^ 32
  num : ht.num = l.length
  buckets : ∀ i < ht.size, Bucket ht.size i l (ht.buckets i)

theorem hash_lt (h : 0 < size) (key : Key) : hash size key < size := Nat.mod_lt _ h

theorem lookup_none_iff : lookup l key = none ↔ key ∉ l.map Prod.fst := by
  rw [lookup, Option.map_eq_none_iff, find_none_iff]

theorem refines_create (h : 0 < size) : Refines (create size : Hashtable α) [] := by
  refine ⟨h, List.nodup_nil, by simp, rfl, fun i _ => ⟨List.Perm.refl _, Nat.zero_le _, 0, by decide, rfl⟩⟩

theorem nodup_inBucket (h : (l.map Prod.fst).Nodup) : ((inBucket size i l).map Prod.fst).Nodup :=
  h.sublist (List.filter_sublist.map _)

/-- A key is looked for where it belongs. -/
theorem find_inBucket :
    ((inBucket size (hash size key) l).find? fun x => key = x.1) = l.find? fun x => key = x.1 := by
  rw [inBucket, List.find?_filter]
  congr 1
  funext x
  by_cases hk : key = x.1
  · simp [hk]
  · simp [hk]

theorem Refines.table_search (h : Refines ht l) (key : Key) :
    (ht.buckets (hash ht.size key)).search key = l.find? fun x => key = x.1 := by
  have hb := (h.buckets _ (hash_lt h.pos key)).items
  rw [Table.search, find_perm ((hb.map Prod.fst).nodup_iff.2 (nodup_inBucket h.nodup)) hb, find_inBucket]

theorem Refines.search (h : Refines ht l) : Hash.search ht key = found (lookup l key) := by
  rw [Hash.search, h.table_search, lookup]
  cases l.find? fun x => key = x.1 <;> rfl

/-- Every item is in one bucket. -/
theorem sum_inBucket (h : 0 < size) :
    ∑ i ∈ Finset.range size, (inBucket size i l).length = l.length := by
  induction l with
  | nil => simp [inBucket]
  | cons x l ih =>
    have hone : ∀ i, (inBucket size i (x :: l)).length =
        (if hash size x.1 = i then 1 else 0) + (inBucket size i l).length := by
      intro i
      by_cases hx : hash size x.1 = i
      · simp [inBucket, hx, Nat.add_comm]
      · simp [inBucket, hx]
    rw [Finset.sum_congr rfl fun i _ => hone i, Finset.sum_add_distrib, ih, Finset.sum_ite_eq,
      if_pos (Finset.mem_range.2 (hash_lt h x.1)), List.length_cons, Nat.add_comm]

theorem Refines.sum (h : Refines ht l) : ∑ i ∈ Finset.range ht.size, (ht.buckets i).num = l.length := by
  rw [← sum_inBucket h.pos (l := l)]
  exact Finset.sum_congr rfl fun i hi => (h.buckets i (Finset.mem_range.1 hi)).items.length_eq

theorem Refines.good (h : Refines ht l) : Good ht l :=
  ⟨fun _ => h.search, h.num.trans h.sum.symm, h.num⟩

/-- A full table is doubled, and then there is room. -/
theorem room_some (hb : Bucket size i l t) (hne : (inBucket size i l).length ≠ tableInitSize * 2 ^ 28) :
    ∃ t', room t = some t' ∧ t'.slots = t.slots ∧ t'.num < t'.size ∧
      ∃ k ≤ 28, t'.size = tableInitSize * 2 ^ k := by
  obtain ⟨k, hk, hsize⟩ := hb.doubled
  have hlen : t.num = (inBucket size i l).length := hb.items.length_eq
  have hfits := hb.fits
  rw [← hlen] at hne
  unfold room
  by_cases hfull : t.num = t.size
  · have hk' : k ≤ 27 := by
      rcases Nat.lt_or_eq_of_le hk with hlt | rfl
      · omega
      · exact absurd (hfull.trans hsize) hne
    have hhalf : 2 ^ k ≤ 2 ^ 27 := Nat.pow_le_pow_right (by omega) hk'
    have hpos : 0 < 2 ^ k := Nat.pow_pos (by omega)
    have hdouble : tableInitSize * 2 ^ k * 2 % 2 ^ 32 = tableInitSize * 2 ^ (k + 1) := by
      rw [Nat.pow_succ, Nat.mul_assoc]
      unfold tableInitSize
      omega
    have hlt : t.num < tableInitSize * 2 ^ (k + 1) := by
      rw [hfull, hsize, Nat.pow_succ]
      unfold tableInitSize
      omega
    rw [if_pos hfull, hsize, hdouble, Table.copy, Table.create, if_pos hlt.le]
    exact ⟨_, rfl, rfl, hlt, k + 1, by omega, rfl⟩
  · rw [if_neg hfull]
    exact ⟨t, rfl, rfl, by omega, k, hk, hsize⟩

/-- The 29th doubling overflows, and the items do not go into the new table. -/
theorem room_none (hb : Bucket size i l t) (heq : (inBucket size i l).length = tableInitSize * 2 ^ 28) :
    room t = none := by
  obtain ⟨k, hk, hsize⟩ := hb.doubled
  have hlen : t.num = (inBucket size i l).length := hb.items.length_eq
  have hfits := hb.fits
  have hpow : 2 ^ k ≤ 2 ^ 28 := Nat.pow_le_pow_right (by omega) hk
  have hsize' : t.size = tableInitSize * 2 ^ 28 := by
    unfold tableInitSize at *
    omega
  have hnum : t.num = tableInitSize * 2 ^ 28 := hlen.trans heq
  rw [room, if_pos (hnum.trans hsize'.symm), Table.copy, if_neg]
  rw [hnum, hsize']
  show ¬tableInitSize * 2 ^ 28 ≤ tableInitSize * 2 ^ 28 * 2 % 2 ^ 32
  decide

/-- The items of a bucket, when an item is added to the map. -/
theorem inBucket_cons : inBucket size i ((key, data) :: l) =
    if hash size key = i then (key, data) :: inBucket size i l else inBucket size i l := by
  unfold inBucket
  rw [List.filter_cons]
  simp only [decide_eq_true_eq]

/-- An insertion into a table with room. -/
theorem Refines.insert (h : Refines ht l) (data : α) (hkey : lookup l key = none) {t' : Table α}
    (hroom : room (ht.buckets (hash ht.size key)) = some t')
    (hslots : t'.slots = (ht.buckets (hash ht.size key)).slots) (hlt : t'.num < t'.size)
    (hsize : ∃ k ≤ 28, t'.size = tableInitSize * 2 ^ k) :
    ∃ ht', Hash.insert ht key data = some (0, ht') ∧ ht'.num = (l.length + 1) % 2 ^ 32 ∧
      (l.length + 1 < 2 ^ 32 → Refines ht' ((key, data) :: l)) := by
  refine ⟨{ ht with
    buckets := Function.update ht.buckets (hash ht.size key) { t' with slots := t'.slots ++ [(key, data)] }
    num := (ht.num + 1) % 2 ^ 32 }, ?_, by rw [h.num], fun hl => ?_⟩
  · rw [Hash.insert, hroom, Option.map_some, Table.insert, if_neg (by omega)]
  · refine ⟨h.pos, ?_, hl, ?_, fun i hi => ?_⟩
    · rw [List.map_cons, List.nodup_cons]
      exact ⟨lookup_none_iff.1 hkey, h.nodup⟩
    · show (ht.num + 1) % 2 ^ 32 = _
      rw [h.num, Nat.mod_eq_of_lt hl, List.length_cons]
    · show Bucket ht.size i _ (Function.update ht.buckets _ _ i)
      have hb := h.buckets i hi
      rw [Function.update_apply]
      by_cases hkeyi : i = hash ht.size key
      · subst hkeyi
        rw [if_pos rfl]
        refine ⟨?_, ?_, hsize⟩
        · rw [inBucket_cons, if_pos rfl, hslots]
          exact (List.perm_append_singleton _ _).trans (hb.items.cons _)
        · show (t'.slots ++ [(key, data)]).length ≤ t'.size
          rw [List.length_append]
          exact hlt
      · rw [if_neg hkeyi]
        refine ⟨?_, hb.fits, hb.doubled⟩
        rw [inBucket_cons, if_neg fun he => hkeyi he.symm]
        exact hb.items

/-- Without a key there is nothing to leave out. -/
theorem filter_absent (h : key ∉ l.map Prod.fst) : (l.filter fun x => key ≠ x.1) = l := by
  rw [List.filter_eq_self]
  intro x hx
  have hne : key ≠ x.1 := fun hk => h (List.mem_map.2 ⟨x, hx, hk.symm⟩)
  simpa using hne

/-- Leaving a key out leaves out its item. -/
theorem perm_filter (h : (l.map Prod.fst).Nodup) {x : Key × α} (hx : x ∈ l) (hk : key = x.1) :
    l.Perm (x :: l.filter fun x => key ≠ x.1) := by
  induction l with
  | nil => cases hx
  | cons y l ih =>
    rw [List.map_cons, List.nodup_cons] at h
    rcases List.mem_cons.1 hx with rfl | hx
    · subst hk
      rw [List.filter_cons, if_neg (by simp), filter_absent h.1]
    · have hne : key ≠ y.1 := fun hy => h.1 (List.mem_map.2 ⟨x, hx, hk.symm.trans hy⟩)
      rw [List.filter_cons, if_pos (by simpa using hne)]
      exact ((ih h.2 hx).cons y).trans (List.Perm.swap ..)

theorem inBucket_filter (p : Key × α → Bool) :
    inBucket size i (l.filter p) = (inBucket size i l).filter p := by
  rw [inBucket, inBucket, List.filter_filter, List.filter_filter]
  congr 1
  funext x
  exact Bool.and_comm ..

/-- The vector loses the item of the key, if it has one. -/
theorem table_remove (h : (t.slots.map Prod.fst).Nodup) :
    (∀ x, (t.slots.find? fun x => key = x.1) = some x → ∃ t', t.remove key = (0, some x.2, t') ∧
      t'.size = t.size ∧ (x :: t'.slots).Perm t.slots) ∧
    ((t.slots.find? fun x => key = x.1) = none → t.remove key = (1, none, t)) := by
  constructor
  · intro x hx
    obtain ⟨hmem, hk⟩ := (find_some_iff h).1 hx
    cases hidx : t.slots.findIdx? fun x => key = x.1 with
    | none =>
      rw [List.findIdx?_eq_none_iff] at hidx
      simpa [hk] using hidx x hmem
    | some i =>
      obtain ⟨hi, hki, -⟩ := List.findIdx?_eq_some_iff_getElem.1 hidx
      have hsame : t.slots[i] = x := by
        have hfind : (t.slots.find? fun x => key = x.1) = some t.slots[i] := (find_some_iff h).2
          ⟨List.getElem_mem hi, of_decide_eq_true hki⟩
        exact Option.some.inj (hfind.symm.trans hx)
      have hget : t.slots[i]? = some x := by rw [List.getElem?_eq_getElem hi, hsame]
      cases hlast : t.slots.getLast? with
      | none =>
        rw [List.getLast?_eq_none_iff] at hlast
        rw [hlast] at hmem
        cases hmem
      | some last =>
        refine ⟨⟨(if i < t.num - 1 then t.slots.set i last else t.slots).dropLast, t.size⟩, ?_, rfl,
          set_dropLast_perm hget hlast⟩
        rw [Table.remove, hidx]
        simp only [hget, hlast, Option.map_some]
  · intro hnone
    have hidx : (t.slots.findIdx? fun x => key = x.1) = none := by
      rw [List.findIdx?_eq_none_iff]
      rw [List.find?_eq_none] at hnone
      exact fun x hx => Bool.eq_false_iff.2 (hnone x hx)
    rw [Table.remove, hidx]

/-- A key that is there is removed. -/
theorem Refines.remove (h : Refines ht l) (hd : lookup l key = some d) :
    ∃ ht', Hash.remove ht key = (0, some d, ht') ∧ Refines ht' (l.filter fun x => key ≠ x.1) := by
  obtain ⟨x, hx, rfl⟩ := Option.map_eq_some_iff.1 hd
  obtain ⟨hmem, hk⟩ := (find_some_iff h.nodup).1 hx
  have hb := h.buckets _ (hash_lt h.pos key)
  have hnodup := (hb.items.map Prod.fst).nodup_iff.2 (nodup_inBucket h.nodup)
  have hfind := h.table_search key
  rw [Table.search, hx] at hfind
  obtain ⟨t', hremove, hsize, hperm⟩ := (table_remove hnodup).1 x hfind
  have hlen : l.length = (l.filter fun x => key ≠ x.1).length + 1 := (perm_filter h.nodup hmem hk).length_eq
  have hlive := h.live
  refine ⟨{ ht with
    buckets := Function.update ht.buckets (hash ht.size key) t'
    num := (ht.num + 2 ^ 32 - 1) % 2 ^ 32 }, by rw [Hash.remove, hremove], h.pos, ?_, by omega, ?_,
    fun i hi => ?_⟩
  · exact h.nodup.sublist (List.filter_sublist.map _)
  · show (ht.num + 2 ^ 32 - 1) % 2 ^ 32 = _
    rw [h.num]
    omega
  · show Bucket ht.size i _ (Function.update ht.buckets _ _ i)
    rw [Function.update_apply]
    by_cases hkeyi : i = hash ht.size key
    · subst hkeyi
      have hin : x ∈ inBucket ht.size (hash ht.size key) l := hb.items.mem_iff.1
        (hperm.mem_iff.1 List.mem_cons_self)
      have hrest := perm_filter (nodup_inBucket h.nodup) hin hk
      have hnum : t'.num + 1 = (ht.buckets (hash ht.size key)).num := hperm.length_eq
      have hfits := hb.fits
      rw [if_pos rfl]
      refine ⟨?_, by omega, hsize ▸ hb.doubled⟩
      rw [inBucket_filter]
      exact ((hperm.trans hb.items).trans hrest).cons_inv
    · have hbi := h.buckets i hi
      rw [if_neg hkeyi]
      refine ⟨?_, hbi.fits, hbi.doubled⟩
      rw [inBucket_filter, filter_absent]
      · exact hbi.items
      · rintro hin
        obtain ⟨y, hy, hyk⟩ := List.mem_map.1 hin
        have hhash := of_decide_eq_true (List.mem_filter.1 hy).2
        rw [hyk] at hhash
        exact hkeyi hhash.symm

/-- A removal counts an item less, also if it fails. -/
theorem Refines.remove_num (h : Refines ht l) :
    (Hash.remove ht key).2.2.num ≠ l.length := by
  have hlive := h.live
  show (ht.num + 2 ^ 32 - 1) % 2 ^ 32 ≠ _
  rw [h.num]
  omega

/-- The table is right in every state of a run, and every call returns what it should, exactly if every step
of the run meets the condition. -/
theorem run_iff (ops : List (Op α)) (h : Refines ht l) (hlegal : Legal l ops) :
    AlwaysGood ht l ops ↔ Meets ht.size l ops := by
  induction ops generalizing ht l with
  | nil => exact iff_of_true h.good trivial
  | cons op ops ih =>
    obtain ⟨hkey, hlegal⟩ := hlegal
    rw [AlwaysGood, and_iff_right h.good]
    cases op with
    | search key =>
      show _ ↔ True ∧ Meets ht.size l ops
      rw [true_and, ← ih h hlegal, exec, h.search]
      constructor
      · rintro ⟨ht', heq, hgood⟩
        obtain rfl := congrArg Prod.snd (Option.some.inj heq)
        exact hgood
      · exact fun hgood => ⟨ht, rfl, hgood⟩
    | remove key =>
      show _ ↔ lookup l key ≠ none ∧ Meets ht.size (l.filter fun x => key ≠ x.1) ops
      cases hd : lookup l key with
      | none =>
        refine iff_of_false ?_ fun hm => hm.1 rfl
        rintro ⟨ht', heq, hgood⟩
        obtain rfl := congrArg Prod.snd (Option.some.inj heq)
        have hlive : (Hash.remove ht key).2.2.num = (l.filter fun x => key ≠ x.1).length := by
          cases ops with
          | nil => exact hgood.live
          | cons _ _ => exact hgood.1.live
        rw [filter_absent (lookup_none_iff.1 hd)] at hlive
        exact h.remove_num hlive
      | some d =>
        obtain ⟨ht', hremove, href⟩ := h.remove hd
        have hsize : ht'.size = ht.size := by
          have := congrArg (fun r => r.2.2.size) hremove
          exact this.symm
        have hexec : exec ht (.remove key) = some ((0, some d), ht') := by
          rw [exec, hremove]
        rw [and_iff_right (by simp), ← hsize, ← ih href hlegal, hexec, spec, hd]
        constructor
        · rintro ⟨ht'', heq, hgood⟩
          obtain rfl := congrArg Prod.snd (Option.some.inj heq)
          exact hgood
        · exact fun hgood => ⟨ht', rfl, hgood⟩
    | insert key data =>
      show _ ↔ ((inBucket ht.size (hash ht.size key) l).length ≠ tableInitSize * 2 ^ 28 ∧
        l.length + 1 < 2 ^ 32) ∧ Meets ht.size ((key, data) :: l) ops
      have hnone := hkey key data rfl
      have hb := h.buckets _ (hash_lt h.pos key)
      by_cases hroom : (inBucket ht.size (hash ht.size key) l).length ≠ tableInitSize * 2 ^ 28
      · obtain ⟨t', ht', hslots, hlt, hdbl⟩ := room_some hb hroom
        obtain ⟨ht'', hins, hnum, href⟩ := h.insert data hnone ht' hslots hlt hdbl
        have hexec : exec ht (.insert key data) = some ((0, none), ht'') := by
          rw [exec, hins]
          rfl
        have hsize : ht''.size = ht.size := by
          rw [Hash.insert, ht'] at hins
          have := congrArg (fun r => r.2.size) (Option.some.inj hins)
          exact this.symm
        have hsplit : AlwaysGood ht'' ((key, data) :: l) ops ↔ ∃ ht', exec ht (.insert key data) =
            some ((spec l (.insert key data)).1, ht') ∧ AlwaysGood ht' (spec l (.insert key data)).2 ops := by
          rw [hexec]
          constructor
          · exact fun hgood => ⟨ht'', rfl, hgood⟩
          · rintro ⟨_, heq, hgood⟩
            obtain rfl := congrArg Prod.snd (Option.some.inj heq)
            exact hgood
        rw [← hsplit]
        by_cases hlive : l.length + 1 < 2 ^ 32
        · rw [and_iff_right ⟨hroom, hlive⟩, ← hsize]
          exact ih (href hlive) hlegal
        · refine iff_of_false (fun hgood => ?_) fun hm => hlive hm.1.2
          have hcount : ht''.num = l.length + 1 := by
            cases ops with
            | nil => exact hgood.live
            | cons _ _ => exact hgood.1.live
          have := h.live
          omega
      · refine iff_of_false ?_ fun hm => hroom hm.1.1
        rintro ⟨ht', heq, -⟩
        rw [exec, Hash.insert, room_none hb (not_not.1 hroom)] at heq
        cases heq

/-- In every run that inserts only absent keys into a new table: the table is right all the time exactly if
no removal fails, no bucket outgrows a `uint32_t` and not all keys are in it at once. -/
theorem hashtable_iff (size : ℕ) (ops : List (Op α)) (hsize : 0 < size) (hlegal : Legal [] ops) :
    AlwaysGood (create size) [] ops ↔ Meets size [] ops :=
  run_iff ops (refines_create hsize) hlegal

theorem hashtable_iff_four :
    AlwaysGood (create 3) [] [.insert 1 'a', .insert 4 'b', .remove 1, .search 4] ↔
      Meets 3 [] [.insert 1 'a', .insert 4 'b', .remove 1, .search 4] :=
  hashtable_iff 3 _ (by decide) ⟨by rintro _ _ ⟨⟩; rfl, by rintro _ _ ⟨⟩; rfl, by rintro _ _ ⟨⟩,
    by rintro _ _ ⟨⟩, trivial⟩

/-- Removing a key that is not there: no bucket has an item, and the count is 2^32 - 1. -/
theorem remove_absent_counts :
    ¬AlwaysGood (create 1) [] [(.remove 7 : Op Unit)] ∧ Legal [] [(.remove 7 : Op Unit)] := by
  refine ⟨?_, by rintro _ _ ⟨⟩, trivial⟩
  rintro ⟨-, ht', heq, hgood⟩
  obtain rfl := congrArg Prod.snd (Option.some.inj heq)
  have hlive : (remove (create 1 : Hashtable Unit) 7).2.2.num = 0 := hgood.live
  revert hlive
  decide

end Gasnet.Coll.Hash
