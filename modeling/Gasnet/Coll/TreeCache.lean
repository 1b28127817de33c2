import Mathlib.Data.List.Basic
import Gasnet.Coll.Trees
import Gasnet.Foundation.DoublyLinked
import Gasnet.Foundation.Run

/-! The cache of tree geometries of a team: `gasnete_coll_tree_geom_fetch_helper` and
`gasnete_coll_local_tree_geom_fetch`. -/
namespace Gasnet.Coll

deriving instance DecidableEq for TreeType

/-- `gasnete_coll_compare_tree_types` of two types. -/
def compareTreeTypes (a b : TreeType) : Bool :=
  if a.tree_class = b.tree_class then
    if a.params.length = b.params.length then
      (List.range a.params.length).all fun i => a.params.getD i 0 == b.params.getD i 0
    else false
  else false

/-- The geometries of a team by their addresses, and the list they are on. Addresses below
`allocated` have been handed out. -/
structure TreeCache where
  head : Option ℕ
  tail : Option ℕ
  next : ℕ → Option ℕ
  prev : ℕ → Option ℕ
  treeType : ℕ → TreeType
  localViews : ℕ → ℕ → Option Geom
  allocated : ℕ

namespace TreeCache

def initial : TreeCache := ⟨none, none, fun _ => none, fun _ => none, fun _ => ⟨.flat, []⟩,
  fun _ _ => none, 0⟩

/-- `p->next = v`; there is none through a null pointer. -/
def setNext (s : TreeCache) (p v : Option ℕ) : Option TreeCache :=
  p.map fun a => { s with next := Function.update s.next a v }

/-- `p->prev = v`. -/
def setPrev (s : TreeCache) (p v : Option ℕ) : Option TreeCache :=
  p.map fun a => { s with prev := Function.update s.prev a v }

/-- Take a geometry that is not the head out of the list. -/
def unlink (s : TreeCache) (curr : ℕ) : Option TreeCache :=
  if s.tail = some curr then
    let s := { s with tail := s.prev curr }
    s.setNext (s.prev curr) none
  else
    (s.setPrev (s.next curr) (s.prev curr)).bind fun s => s.setNext (s.prev curr) (s.next curr)

/-- Move the matched geometry to the head. -/
def moveToHead (s : TreeCache) (curr : ℕ) : Option TreeCache :=
  if s.head = some curr then some s
  else
    (s.unlink curr).bind fun s =>
    (s.setNext (some curr) s.head).bind fun s =>
    (s.setPrev (some curr) none).bind fun s =>
    (s.setPrev s.head (some curr)).map fun s => { s with head := some curr }

/-- `gasnete_coll_tree_geom_fetch_helper` from a geometry on. -/
def fetchHelper (s : TreeCache) (in_type : TreeType) :
    (fuel : ℕ) → Option ℕ → Option (TreeCache × Option ℕ)
  | 0, _ => none
  | _ + 1, none => some (s, none)
  | fuel + 1, some curr =>
    if compareTreeTypes in_type (s.treeType curr) then
      (s.moveToHead curr).map fun s => (s, some curr)
    else fetchHelper s in_type fuel (s.next curr)

/-- Allocate a geometry without views and link it in. -/
def link (s : TreeCache) (type : TreeType) : Option TreeCache :=
  let curr := s.allocated
  let s := { s with
    treeType := Function.update s.treeType curr type
    localViews := Function.update s.localViews curr fun _ => none
    allocated := curr + 1 }
  match s.head with
  | none =>
    some { s with
      prev := Function.update s.prev curr none
      next := Function.update s.next curr none
      head := some curr
      tail := some curr }
  | some head =>
    (s.setPrev (some curr) none).bind fun s =>
    (s.setNext (some curr) (some head)).bind fun s =>
    (s.setPrev (some head) (some curr)).map fun s => { s with head := some curr }

/-- `local_views[root]`, created if it is missing. -/
def view (N me : ℕ) (s : TreeCache) (curr : ℕ) (type : TreeType) (root : ℕ) :
    Option (TreeCache × Geom) :=
  match s.localViews curr root with
  | some g => some (s, g)
  | none =>
    (geomCreateLocal type root N me).map fun g =>
      ({ s with localViews :=
          Function.update s.localViews curr (Function.update (s.localViews curr) root (some g)) },
        g)

/-- `gasnete_coll_local_tree_geom_fetch`; there is no result where the creation of the geometry
ends the process. -/
def fetch (N me : ℕ) (s : TreeCache) (type : TreeType) (root : ℕ) : Option (TreeCache × Geom) :=
  match s.fetchHelper type (s.allocated + 1) s.head with
  | none => none
  | some (s, some curr) => s.view N me curr type root
  | some (s, none) => (s.link type).bind fun t => t.view N me s.allocated type root

/-- A fetch that returns. -/
def Step (N me : ℕ) (s : TreeCache) (key : TreeType × ℕ) (t : TreeCache) : Prop :=
  ∃ g, s.fetch N me key.1 key.2 = some (t, g)

/-- The types of the fetches, those fetched last first. -/
def recent (keys : List (TreeType × ℕ)) : List TreeType :=
  (keys.map Prod.fst).foldl (fun ts type => type :: ts.erase type) []

/-- The cache after these fetches: a consistent list with one geometry for each type, in the order
of their last fetches, each with a fresh view for each root that was asked for and no other. -/
structure Holds (N me : ℕ) (s : TreeCache) (keys : List (TreeType × ℕ)) (l : List ℕ) : Prop where
  list : DList s.next s.prev s.head s.tail l
  types : l.map s.treeType = recent keys
  allocated : ∀ a ∈ l, a < s.allocated
  views : ∀ a ∈ l, ∀ root, s.localViews a root =
    if (s.treeType a, root) ∈ keys then geomCreateLocal (s.treeType a) root N me else none

end TreeCache

end Gasnet.Coll

/-! Each fetch keeps the cache consistent and returns what a fresh creation would. -/
namespace Gasnet.Coll

variable {N me root fuel b : ℕ} {type : TreeType} {s t : TreeCache} {g : Geom}
  {keys xs : List (TreeType × ℕ)} {l p q r : List ℕ}

theorem compareTreeTypes_iff {a b : TreeType} : compareTreeTypes a b = true ↔ a = b := by
  obtain ⟨c, ps⟩ := a
  obtain ⟨d, qs⟩ := b
  rw [compareTreeTypes, TreeType.mk.injEq]
  constructor
  · intro h
    split at h
    · rename_i hclass
      split at h
      · rename_i hlen
        refine ⟨hclass, List.ext_getElem hlen fun i hi hi' => ?_⟩
        have heq := List.all_eq_true.1 h i (List.mem_range.2 hi)
        simpa [hi, hi'] using heq
      · cases h
    · cases h
  · rintro ⟨rfl, rfl⟩
    simp

namespace TreeCache

section Recent

theorem recent_snoc (keys : List (TreeType × ℕ)) (type : TreeType) (root : ℕ) :
    recent (keys ++ [(type, root)]) = type :: (recent keys).erase type := by
  rw [recent, List.map_append, List.foldl_append]
  rfl

theorem recent_nodup (keys : List (TreeType × ℕ)) : (recent keys).Nodup := by
  induction keys using List.reverseRecOn with
  | nil => exact List.nodup_nil
  | append_singleton keys k ih =>
    rw [recent_snoc]
    exact List.nodup_cons.2 ⟨ih.not_mem_erase, ih.erase _⟩

/-- No type is lost. -/
theorem mem_recent : type ∈ recent keys ↔ ∃ root, (type, root) ∈ keys := by
  induction keys using List.reverseRecOn with
  | nil => simp [recent]
  | append_singleton keys k ih =>
    obtain ⟨t, root⟩ := k
    rw [recent_snoc, List.mem_cons]
    by_cases ht : type = t
    · exact ⟨fun _ => ⟨root, by simp [ht]⟩, fun _ => .inl ht⟩
    · rw [List.mem_erase_of_ne ht, ih]
      simp [ht]

end Recent

/-- What a list operation leaves alone. -/
structure Same (s t : TreeCache) : Prop where
  treeType : t.treeType = s.treeType
  localViews : t.localViews = s.localViews
  allocated : t.allocated = s.allocated

theorem unlink_last {x : ℕ} (ht : s.tail = some b) (hx : s.prev b = some x) :
    s.unlink b =
      some { s with tail := some x, next := Function.update s.next x none } := by
  rw [unlink, if_pos ht]
  simp only [setNext, hx, Option.map_some]

theorem unlink_inner {x y : ℕ} (ht : s.tail ≠ some b) (hx : s.prev b = some x)
    (hy : s.next b = some y) (hyb : b ≠ y) :
    s.unlink b =
      some { s with prev := Function.update s.prev y (some x)
                    next := Function.update s.next x (some y) } := by
  rw [unlink, if_neg ht]
  simp only [setPrev, setNext, hx, hy, Option.map_some, Option.bind_some,
    Function.update_of_ne hyb]

theorem unlink_spec (h : DList s.next s.prev s.head s.tail (p ++ b :: r)) (hp : p ≠ []) :
    ∃ t, s.unlink b = some t ∧ DList t.next t.prev t.head t.tail (p ++ r) ∧ Same s t := by
  obtain ⟨hpb, hnb⟩ := h.links p b r rfl
  obtain ⟨x, hx⟩ : ∃ x, p.getLast? = some x := ⟨_, List.getLast?_eq_some_getLast hp⟩
  have hhead : s.head = (p ++ r).head? := by
    rw [h.head_eq]
    cases p with
    | nil => exact absurd rfl hp
    | cons a p => rfl
  rw [hx] at hpb
  have hbpr : b ∉ p ++ r := (List.nodup_cons.1 (List.nodup_middle.1 h.nodup)).1
  cases r with
  | nil =>
    have htail : s.tail = some b := by
      rw [h.tail_eq]
      simp
    refine ⟨_, unlink_last htail hpb, ?_, ⟨rfl, rfl, rfl⟩⟩
    have hout : DList (Function.update s.next x none) s.prev (p ++ []).head? (p ++ []).getLast?
        (p ++ []) := by
      refine h.remove (fun z _ => ?_) fun z _ => ?_
      · rw [Function.update_apply, hpb, hnb]
        simp
      · rw [hnb, if_neg (by simp)]
    have hlast : (p ++ []).getLast? = some x := by rw [List.append_nil, hx]
    rw [← hhead, hlast] at hout
    exact hout
  | cons y r =>
    have htail : s.tail ≠ some b := by
      rw [h.tail_eq]
      intro he
      have hlast : (y :: r).getLast? = some b := by
        rw [← he]
        simp [List.getLast?_append, List.getLast?_cons]
      exact hbpr (List.mem_append_right _ (List.mem_of_getLast? hlast))
    have hyb : b ≠ y := by
      rintro rfl
      exact hbpr (by simp)
    refine ⟨_, unlink_inner htail hpb hnb hyb, ?_, ⟨rfl, rfl, rfl⟩⟩
    have hout : DList (Function.update s.next x (some y)) (Function.update s.prev y (some x))
        (p ++ y :: r).head? (p ++ y :: r).getLast? (p ++ y :: r) := by
      refine h.remove (fun z _ => ?_) fun z _ => ?_
      · rw [Function.update_apply, hpb, hnb, List.head?_cons]
        simp
      · rw [Function.update_apply, hpb, hnb, List.head?_cons]
        simp
    have hlast : (p ++ y :: r).getLast? = s.tail := by
      rw [h.tail_eq]
      simp [List.getLast?_append, List.getLast?_cons]
    rw [← hhead, hlast] at hout
    exact hout

/-- A matched geometry comes to the front, and the others keep their order. -/
theorem moveToHead_spec (h : DList s.next s.prev s.head s.tail (p ++ b :: r)) :
    ∃ t, s.moveToHead b = some t ∧ DList t.next t.prev t.head t.tail (b :: (p ++ r)) ∧
      Same s t := by
  cases p with
  | nil =>
    have hhead : s.head = some b := h.head_eq
    exact ⟨s, by rw [moveToHead, if_pos hhead], h, ⟨rfl, rfl, rfl⟩⟩
  | cons a p =>
    obtain ⟨u, hunlink, hlist, hsame⟩ := unlink_spec h (List.cons_ne_nil a p)
    have hbpr : b ∉ a :: p ++ r := (List.nodup_cons.1 (List.nodup_middle.1 h.nodup)).1
    have hne : s.head ≠ some b := by
      rw [h.head_eq]
      intro he
      obtain rfl : a = b := Option.some.inj he
      exact hbpr List.mem_cons_self
    have hhead : u.head = some a := hlist.head_eq
    have hmove : s.moveToHead b =
        some { u with next := Function.update u.next b (some a)
                      prev := Function.update (Function.update u.prev b none) a (some b)
                      head := some b } := by
      rw [moveToHead, if_neg hne, hunlink]
      simp only [setNext, setPrev, hhead, Option.bind_some, Option.map_some]
    refine ⟨_, hmove, ?_, ⟨hsame.treeType, hsame.localViews, hsame.allocated⟩⟩
    have hpush : DList (Function.update u.next b (some a))
        (Function.update (Function.update u.prev b none) a (some b)) (some b)
        (if a :: p ++ r = [] then some b else u.tail) (b :: (a :: p ++ r)) := by
      refine hlist.push hbpr (fun z => ?_) fun z => ?_
      · rw [Function.update_apply, hhead]
      · rw [Function.update_apply, Function.update_apply, hhead]
        simp
    rw [if_neg (by simp)] at hpush
    exact hpush

/-- The search passes geometries of other types. -/
theorem fetchHelper_pass (h : DList s.next s.prev s.head s.tail (p ++ q ++ r))
    (hq : ∀ a ∈ q, s.treeType a ≠ type) :
    s.fetchHelper type (q.length + fuel) (q ++ r).head? = s.fetchHelper type fuel r.head? := by
  induction q generalizing p with
  | nil => rw [List.length_nil, Nat.zero_add, List.nil_append]
  | cons a q ih =>
    have hnext : s.next a = (q ++ r).head? := (h.links p a (q ++ r) (by simp)).2
    have hskip : ¬compareTreeTypes type (s.treeType a) = true := by
      rw [compareTreeTypes_iff]
      exact fun he => hq a List.mem_cons_self he.symm
    have hlen : (a :: q).length + fuel = q.length + fuel + 1 := by
      rw [List.length_cons]
      omega
    rw [hlen, List.cons_append, List.head?_cons, fetchHelper, if_neg hskip, hnext]
    exact @ih (p ++ [a]) (by simpa using h) fun b hb => hq b (List.mem_cons_of_mem _ hb)

theorem fetchHelper_miss (h : DList s.next s.prev s.head s.tail l)
    (hl : ∀ a ∈ l, s.treeType a ≠ type) (hfuel : l.length < fuel) :
    s.fetchHelper type fuel s.head = some (s, none) := by
  obtain ⟨k, rfl⟩ := Nat.exists_eq_add_of_lt hfuel
  have hpass := @fetchHelper_pass (k + 1) type s [] l [] (by simpa using h) hl
  rw [List.append_nil, ← h.head_eq] at hpass
  rw [Nat.add_assoc, hpass]
  rfl

theorem fetchHelper_hit (h : DList s.next s.prev s.head s.tail (p ++ b :: r))
    (hp : ∀ a ∈ p, s.treeType a ≠ s.treeType b) (hfuel : p.length < fuel) :
    s.fetchHelper (s.treeType b) fuel s.head = (s.moveToHead b).map fun t => (t, some b) := by
  obtain ⟨k, rfl⟩ := Nat.exists_eq_add_of_lt hfuel
  have hpass := @fetchHelper_pass (k + 1) (s.treeType b) s [] p (b :: r) h hp
  rw [← h.head_eq] at hpass
  rw [Nat.add_assoc, hpass, List.head?_cons, fetchHelper, if_pos (compareTreeTypes_iff.2 rfl)]

theorem link_spec (h : DList s.next s.prev s.head s.tail l) (hl : ∀ a ∈ l, a < s.allocated) :
    ∃ t, s.link type = some t ∧ DList t.next t.prev t.head t.tail (s.allocated :: l) ∧
      t.treeType = Function.update s.treeType s.allocated type ∧
      t.localViews = Function.update s.localViews s.allocated (fun _ => none) ∧
      t.allocated = s.allocated + 1 := by
  have hnew : s.allocated ∉ l := fun hmem => absurd (hl _ hmem) (Nat.lt_irrefl _)
  cases l with
  | nil =>
    have hhead : s.head = none := h.head_eq
    refine ⟨_, by simp only [link, hhead]; rfl, ?_, rfl, rfl, rfl⟩
    have hpush : DList (Function.update s.next s.allocated none)
        (Function.update s.prev s.allocated none) (some s.allocated)
        (if ([] : List ℕ) = [] then some s.allocated else s.tail) [s.allocated] := by
      refine h.push hnew (fun z => ?_) fun z => ?_
      · rw [Function.update_apply, hhead]
      · rw [Function.update_apply, hhead]
        simp
    rw [if_pos rfl] at hpush
    exact hpush
  | cons a l =>
    have hhead : s.head = some a := h.head_eq
    refine ⟨_, by simp only [link, hhead, setPrev, setNext, Option.map_some, Option.bind_some]; rfl,
      ?_, rfl, rfl, rfl⟩
    have hpush : DList (Function.update s.next s.allocated (some a))
        (Function.update (Function.update s.prev s.allocated none) a (some s.allocated))
        (some s.allocated) (if a :: l = [] then some s.allocated else s.tail)
        (s.allocated :: a :: l) := by
      refine h.push hnew (fun z => ?_) fun z => ?_
      · rw [Function.update_apply, hhead]
      · rw [Function.update_apply, Function.update_apply, hhead]
        simp
    rw [if_neg (List.cons_ne_nil a l)] at hpush
    exact hpush

/-- What the cache is after a fetch has brought `b` to the front and looked up its view. -/
theorem view_spec (hlist : DList s.next s.prev s.head s.tail (b :: l))
    (htypes : (b :: l).map s.treeType = recent (keys ++ [(s.treeType b, root)]))
    (halloc : ∀ a ∈ b :: l, a < s.allocated)
    (hviews : ∀ a ∈ b :: l, ∀ root, s.localViews a root =
      if (s.treeType a, root) ∈ keys then geomCreateLocal (s.treeType a) root N me else none) :
    (s.view N me b (s.treeType b) root).map Prod.snd =
        geomCreateLocal (s.treeType b) root N me ∧
      ∀ t g, s.view N me b (s.treeType b) root = some (t, g) →
        t.Holds N me (keys ++ [(s.treeType b, root)]) (b :: l) := by
  have hnodup : ((b :: l).map s.treeType).Nodup := by
    rw [htypes]
    exact recent_nodup _
  have hother : ∀ a ∈ b :: l, a ≠ b → s.treeType a ≠ s.treeType b := by
    intro a ha hab he
    exact hab (List.inj_on_of_nodup_map hnodup ha List.mem_cons_self he)
  have hview := hviews b List.mem_cons_self root
  rw [view]
  cases hcached : s.localViews b root with
  | some g =>
    rw [hcached] at hview
    split at hview
    · rename_i hmem
      refine ⟨hview, ?_⟩
      rintro t g ⟨⟩
      refine ⟨hlist, htypes, halloc, fun a ha root' => ?_⟩
      rw [hviews a ha root']
      congr 1
      rw [List.mem_append, List.mem_singleton, eq_iff_iff]
      refine ⟨Or.inl, ?_⟩
      rintro (h | h)
      · exact h
      · rw [h]
        exact hmem
    · cases hview
  | none =>
    refine ⟨by cases geomCreateLocal (s.treeType b) root N me <;> rfl, ?_⟩
    rintro t g ht
    cases hfresh : geomCreateLocal (s.treeType b) root N me with
    | none =>
      rw [hfresh] at ht
      cases ht
    | some g' =>
      rw [hfresh] at ht
      cases ht
      refine ⟨hlist, htypes, halloc, fun a ha root' => ?_⟩
      show Function.update s.localViews b _ a root' = _
      by_cases hab : a = b
      · subst hab
        rw [Function.update_self]
        by_cases hroot : root' = root
        · subst hroot
          rw [Function.update_self, if_pos (by simp), hfresh]
        · rw [Function.update_of_ne hroot, hviews a ha root']
          simp [hroot]
      · rw [Function.update_of_ne hab, hviews a ha root']
        have hne := hother a ha hab
        simp [hne]

/-- A fetch returns what a fresh creation would, whenever that returns, and the cache has it in
front. -/
theorem fetch_spec (h : s.Holds N me keys l) (type : TreeType) (root : ℕ) :
    (s.fetch N me type root).map Prod.snd = geomCreateLocal type root N me ∧
      ∀ t g, s.fetch N me type root = some (t, g) →
        ∃ l', t.Holds N me (keys ++ [(type, root)]) l' := by
  have hlen : l.length < s.allocated + 1 := by
    have hsub : l.Subperm (List.range s.allocated) :=
      List.subperm_of_subset h.list.nodup fun a ha => List.mem_range.2 (h.allocated a ha)
    have hle := hsub.length_le
    rw [List.length_range] at hle
    omega
  have hnodup : (l.map s.treeType).Nodup := by
    rw [h.types]
    exact recent_nodup _
  rw [fetch]
  by_cases hin : ∃ b ∈ l, s.treeType b = type
  · obtain ⟨b, hb, rfl⟩ := hin
    obtain ⟨p, r, rfl⟩ := List.append_of_mem hb
    have hp : ∀ a ∈ p, s.treeType a ≠ s.treeType b := by
      intro a ha he
      obtain rfl : a = b := List.inj_on_of_nodup_map hnodup (by simp [ha]) hb he
      exact (List.nodup_cons.1 (List.nodup_middle.1 h.list.nodup)).1 (by simp [ha])
    have hshort : p.length < s.allocated + 1 := by
      rw [List.length_append] at hlen
      omega
    obtain ⟨t, hmove, hlist, hsame⟩ := moveToHead_spec h.list
    rw [fetchHelper_hit h.list hp hshort, hmove, Option.map_some]
    have hmem : ∀ a ∈ b :: (p ++ r), a ∈ p ++ b :: r := by
      intro a ha
      simp only [List.mem_cons, List.mem_append] at ha ⊢
      tauto
    have htypes : (b :: (p ++ r)).map t.treeType = recent (keys ++ [(t.treeType b, root)]) := by
      have hrecent := h.types
      rw [List.map_append, List.map_cons] at hrecent
      have hnotin : s.treeType b ∉ p.map s.treeType := by
        intro hmem
        obtain ⟨a, ha, he⟩ := List.mem_map.1 hmem
        exact hp a ha he
      rw [hsame.treeType, recent_snoc, ← hrecent, List.erase_append_right _ hnotin,
        List.erase_cons_head, List.map_cons, List.map_append]
    have hspec := @view_spec N me root b t keys (p ++ r) hlist htypes
      (fun a ha => by rw [hsame.allocated]; exact h.allocated a (hmem a ha))
      (fun a ha root => by rw [hsame.localViews, hsame.treeType]; exact h.views a (hmem a ha) root)
    rw [hsame.treeType] at hspec
    exact ⟨hspec.1, fun t' g ht => ⟨_, hspec.2 t' g ht⟩⟩
  · have hmiss : ∀ a ∈ l, s.treeType a ≠ type := fun a ha he => hin ⟨a, ha, he⟩
    obtain ⟨t, hlink, hlist, htype, hviews, halloc⟩ := @link_spec type s l h.list h.allocated
    rw [fetchHelper_miss h.list hmiss hlen]
    simp only [hlink, Option.bind_some]
    have hnew : ∀ a ∈ l, a ≠ s.allocated := fun a ha => (h.allocated a ha).ne
    have hself : t.treeType s.allocated = type := by rw [htype, Function.update_self]
    have hold : ∀ a ∈ l, t.treeType a = s.treeType a := by
      intro a ha
      rw [htype, Function.update_of_ne (hnew a ha)]
    have hnotin : type ∉ recent keys := by
      rw [← h.types]
      intro hmem
      obtain ⟨a, ha, he⟩ := List.mem_map.1 hmem
      exact hmiss a ha he
    have htypes : (s.allocated :: l).map t.treeType =
        recent (keys ++ [(t.treeType s.allocated, root)]) := by
      rw [hself, recent_snoc, List.erase_of_not_mem hnotin, List.map_cons, hself, ← h.types]
      congr 1
      exact List.map_congr_left hold
    have hspec := @view_spec N me root s.allocated t keys l hlist htypes
      (fun a ha => by
        rw [halloc]
        rcases List.mem_cons.1 ha with rfl | ha
        · omega
        · exact Nat.lt_succ_of_lt (h.allocated a ha))
      (fun a ha root => by
        rcases List.mem_cons.1 ha with rfl | ha
        · rw [hviews, Function.update_self, hself, if_neg]
          intro hkey
          exact hnotin (mem_recent.2 ⟨root, hkey⟩)
        · rw [hviews, Function.update_of_ne (hnew a ha), hold a ha]
          exact h.views a ha root)
    rw [hself] at hspec
    exact ⟨hspec.1, fun t' g ht => ⟨_, hspec.2 t' g ht⟩⟩

theorem holds_initial : initial.Holds N me [] [] :=
  ⟨DList.empty _ _, rfl, nofun, nofun⟩

theorem holds_run (h : Run (Step N me) s xs t) (hs : s.Holds N me keys l) :
    ∃ l', t.Holds N me (keys ++ xs) l' := by
  induction h generalizing keys l with
  | refl => exact ⟨l, by rwa [List.append_nil]⟩
  | @stepL s u t key xs hk _ ih =>
    obtain ⟨g, hfetch⟩ := hk
    obtain ⟨l', hu⟩ := (fetch_spec hs key.1 key.2).2 u g hfetch
    obtain ⟨l'', ht⟩ := ih hu
    exact ⟨l'', by simpa using ht⟩

end TreeCache

/-- After any sequence of fetches the cache is a consistent list with one geometry for each type
that was asked for, the last one in front, and the next fetch returns what a fresh creation
would. -/
theorem tree_cache_correct (N me : ℕ) (keys : List (TreeType × ℕ)) (s : TreeCache)
    (h : Run (TreeCache.Step N me) TreeCache.initial keys s) :
    (∃ l, s.Holds N me keys l) ∧ (TreeCache.recent keys).Nodup ∧
      (∀ type, type ∈ TreeCache.recent keys ↔ ∃ root, (type, root) ∈ keys) ∧
      ∀ type root,
        (s.fetch N me type root).map Prod.snd = geomCreateLocal type root N me := by
  obtain ⟨l, hl⟩ := TreeCache.holds_run h TreeCache.holds_initial
  rw [List.nil_append] at hl
  exact ⟨⟨l, hl⟩, TreeCache.recent_nodup keys, fun _ => TreeCache.mem_recent,
    fun type root => (TreeCache.fetch_spec hl type root).1⟩

/-- A type, another one, and the first one again with another root. -/
theorem tree_cache_correct_three :
    ∃ s, Run (TreeCache.Step 3 1) TreeCache.initial
      [(⟨.flat, []⟩, 0), (⟨.fork, [3]⟩, 0), (⟨.flat, []⟩, 1)] s ∧
    TreeCache.recent [(⟨.flat, []⟩, 0), (⟨.fork, [3]⟩, 0), (⟨.flat, []⟩, 1)] =
      [⟨.flat, []⟩, ⟨.fork, [3]⟩] ∧
    (s.fetch 3 1 ⟨.flat, []⟩ 0).map Prod.snd = geomCreateLocal ⟨.flat, []⟩ 0 3 1 := by
  have hrun : ∃ s, Run (TreeCache.Step 3 1) TreeCache.initial
      [(⟨.flat, []⟩, 0), (⟨.fork, [3]⟩, 0), (⟨.flat, []⟩, 1)] s :=
    ⟨_, .stepL ⟨_, rfl⟩ (.stepL ⟨_, rfl⟩ (.stepL ⟨_, rfl⟩ .refl))⟩
  obtain ⟨s, hs⟩ := hrun
  exact ⟨s, hs, by decide, (tree_cache_correct 3 1 _ s hs).2.2.2 ⟨.flat, []⟩ 0⟩

end Gasnet.Coll
