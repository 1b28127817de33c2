import Gasnet.Coll.TreeBuild
import Mathlib.Logic.Relation

/-! The views of all ranks of a team fit together. -/
namespace Gasnet.Coll

open Tree

variable {t s u c : Tree} {q v : Option Tree} {root N m d p i j k : Nat} {view : Nat → Geom}
  {id : Nat → Nat} {x y : Option Tree × Tree}

theorem findNode_eq (id : Nat → Nat) (rank : Nat) (p : Option Tree) (t : Tree) :
    findNode id rank p t = (t.nodes p).find? fun x => id x.2.id = rank := by
  induction t using induct generalizing p with
  | h a r cs ih =>
    have hchild : ∀ t, findChild id rank t cs =
        (cs.flatMap (Tree.nodes (some t))).find? fun x => id x.2.id = rank := by
      intro t
      induction cs with
      | nil => rfl
      | cons c cs ihcs =>
        rw [findChild, List.flatMap_cons, List.find?_append, ih c List.mem_cons_self,
          ihcs fun d hd => ih d (List.mem_cons_of_mem _ hd)]
    rw [findNode, nodes_eq, hchild, List.find?_cons]
    by_cases hid : id a = rank <;> simp [hid]

/-- The place of a rank in the array, its rank relative to the root. -/
def place (root N m : Nat) : Nat := (m + N - root) % N

theorem nodeId_lt (hroot : root < N) (i : Nat) : nodeId root N i < N :=
  Nat.mod_lt _ (by omega)

theorem place_lt (hroot : root < N) (m : Nat) : place root N m < N := Nat.mod_lt _ (by omega)

theorem place_nodeId (hroot : root < N) (hi : i < N) : place root N (nodeId root N i) = i := by
  unfold place nodeId
  rcases Nat.lt_or_ge (i + root) N with hlt | hge
  · rw [Nat.mod_eq_of_lt hlt, show i + root + N - root = i + N by omega, Nat.add_mod_right,
      Nat.mod_eq_of_lt hi]
  · rw [Nat.mod_eq_sub_mod hge, Nat.mod_eq_of_lt (show i + root - N < N by omega),
      show i + root - N + N - root = i by omega, Nat.mod_eq_of_lt hi]

theorem nodeId_place (hroot : root < N) (hm : m < N) : nodeId root N (place root N m) = m := by
  unfold place nodeId
  rcases Nat.lt_or_ge m root with hlt | hge
  · rw [Nat.mod_eq_of_lt (show m + N - root < N by omega), Nat.sub_add_cancel (by omega),
      Nat.add_mod_right, Nat.mod_eq_of_lt hm]
  · rw [show m + N - root = m - root + N by omega, Nat.add_mod_right,
      Nat.mod_eq_of_lt (show m - root < N by omega), Nat.sub_add_cancel hge, Nat.mod_eq_of_lt hm]

/-- A chain of parents leads from one rank to the other. -/
def Descends (view : Nat → Geom) : Nat → Nat → Prop :=
  Relation.ReflTransGen fun d p => (view d).parent = some p

/-- The children of a view in the order of their blocks. -/
def Geom.visit {α : Type*} (g : Geom) (xs : List α) : List α :=
  if g.children_reversed then xs.reverse else xs

/-- The views of all ranks are those of one tree. -/
structure TreeSpec (root N : Nat) (view : Nat → Geom) : Prop where
  child_lt : ∀ p < N, ∀ c ∈ (view p).child_list, c < N
  agree : ∀ p < N, ∀ c < N, c ∈ (view p).child_list ↔ (view c).parent = some p
  nodup : ∀ p < N, (view p).child_list.Nodup
  root_parent : (view root).parent = none
  parent : ∀ m < N, m ≠ root → ∃ p < N, (view m).parent = some p
  reach : ∀ m < N, Descends view m root
  size : ∀ m < N, (view m).mysubtree_size =
    1 + ((view m).child_list.map fun c => (view c).mysubtree_size).sum
  subtree_sizes : ∀ m < N, (view m).subtree_sizes =
    (view m).child_list.map fun c => (view c).mysubtree_size
  root_size : (view root).mysubtree_size = N
  child_count : ∀ m < N, (view m).child_count = (view m).child_list.length
  block : ∀ m < N, ∀ d < N, Descends view d m ↔
    place root N m ≤ place root N d ∧
      place root N d < place root N m + (view m).mysubtree_size
  child_block : ∀ m < N, ∀ (k c : Nat), (view m).child_list[k]? = some c →
    ∃ offset, (view m).child_offset[k]? = some offset ∧
      place root N c = place root N m + 1 + offset
  contiguous : ∀ m < N, ∀ k < (view m).child_count,
    ((view m).visit (view m).child_offset)[k]? =
      some ((((view m).visit (view m).subtree_sizes).take k).sum)
  sibling : ∀ p < N, ∀ (k c : Nat), (view p).child_list[k]? = some c →
    (view c).num_siblings = (view p).child_count ∧ (view c).sibling_id = some k ∧
      (view p).child_offset[k]? = some (view c).sibling_offset ∧
      (view c).parent_subtree_size = (view p).mysubtree_size
  root_sibling : (view root).num_siblings = 0

theorem parent_step (hview : ∀ q s, (q, s) ∈ t.nodes none →
    view (nodeId root N s.id) = geomOfNode root N (nodeId root N s.id) t q s)
    (hs : (q, s) ∈ t.nodes none) (hc : c ∈ s.children) :
    (view (nodeId root N c.id)).parent = some (nodeId root N s.id) := by
  rw [hview _ _ (child_mem hs hc)]
  rfl

/-- A rank whose parent is known is a child of that rank. -/
theorem of_parent (hview : ∀ q s, (q, s) ∈ t.nodes none →
    view (nodeId root N s.id) = geomOfNode root N (nodeId root N s.id) t q s)
    (hu : (v, u) ∈ t.nodes none)
    (hp : (view (nodeId root N u.id)).parent = some p) :
    ∃ q s, (q, s) ∈ t.nodes none ∧ v = some s ∧ u ∈ s.children ∧ nodeId root N s.id = p := by
  rw [hview _ _ hu] at hp
  cases v with
  | none => cases hp
  | some w =>
    rcases parent_mem hu with ⟨hnone, -⟩ | ⟨s, q, hw, hc, hs⟩
    · cases hnone
    · obtain rfl := Option.some.inj hw
      exact ⟨q, w, hs, rfl, hc, Option.some.inj hp⟩

theorem descends_of_mem (hview : ∀ q s, (q, s) ∈ t.nodes none →
    view (nodeId root N s.id) = geomOfNode root N (nodeId root N s.id) t q s)
    (hs : (q, s) ∈ t.nodes none) (hx : x ∈ s.nodes q) :
    Descends view (nodeId root N x.2.id) (nodeId root N s.id) := by
  induction s using induct generalizing q with
  | h a r cs ih =>
    rcases mem_nodes.mp hx with ⟨-, h2⟩ | ⟨c, hc, hx⟩
    · rw [h2]
      exact Relation.ReflTransGen.refl
    · exact (ih c hc (child_mem hs hc) hx).tail (parent_step hview hs hc)

theorem offsets_getElem {ns : List Nat} (hk : k < ns.length) (a : Nat) :
    (offsets a ns)[k]? = some (a + (ns.take k).sum) := by
  induction ns generalizing k a with
  | nil => simp at hk
  | cons n ns ih =>
    cases k with
    | zero => rfl
    | succ k =>
      rw [offsets, List.getElem?_cons_succ, ih (by simpa using hk), List.take_succ_cons,
        List.sum_cons, Nat.add_assoc]

@[simp] theorem offsets_length (a : Nat) (ns : List Nat) : (offsets a ns).length = ns.length := by
  induction ns generalizing a with
  | nil => rfl
  | cons n ns ih => simp [offsets, ih]

/-- When the child at index `k` is visited. -/
def visitPos (t : Tree) (k : Nat) : Nat :=
  if t.reversed then t.children.length - 1 - k else k

theorem visit_visitPos (hk : t.children[k]? = some c) : t.visit[visitPos t k]? = some c := by
  have hlt := (List.getElem?_eq_some_iff.mp hk).1
  unfold Tree.visit visitPos
  split
  · rw [List.getElem?_reverse (by omega),
      show t.children.length - 1 - (t.children.length - 1 - k) = k by omega, hk]
  · exact hk

theorem child_offset_eq (hk : t.children[k]? = some c) :
    (inVisitOrder t.reversed (offsets 0) (t.children.map size))[k]? =
      some (sizes (t.visit.take (visitPos t k))) := by
  have hlt := (List.getElem?_eq_some_iff.mp hk).1
  unfold inVisitOrder Tree.visit visitPos
  split
  · rw [List.getElem?_reverse (by simpa using hlt), offsets_length, List.length_reverse,
      List.length_map, offsets_getElem (by simp; omega), sizes_eq, Nat.zero_add,
      List.map_take, List.map_reverse]
  · rw [offsets_getElem (by simpa using hlt), sizes_eq, Nat.zero_add, List.map_take]

theorem findSibling_eq {l : List (Nat × Tree)} {me : Nat} (hj : l[j]? = some (k, c))
    (hid : id c.id = me) (hne : ∀ i < j, ∀ x, l[i]? = some x → id x.2.id ≠ me) (offset : Nat) :
    findSibling id me l offset = (some k, offset + sizes ((l.take j).map Prod.snd)) := by
  induction l generalizing j offset with
  | nil => simp at hj
  | cons x l ih =>
    cases j with
    | zero =>
      obtain rfl : x = (k, c) := by simpa using hj
      rw [findSibling, if_pos hid]
      rfl
    | succ j =>
      rw [findSibling, if_neg (hne 0 (by omega) x rfl),
        ih (by simpa using hj) fun i hi y hy => hne (i + 1) (by omega) y (by simpa using hy)]
      simp [sizes, Nat.add_assoc]

theorem siblingInfo_eq (h : Numbered i s) (hk : s.children[k]? = some c)
    (hinj : ∀ d ∈ s.children, id d.id = id c.id → d = c) :
    siblingInfo id (id c.id) (some s) =
      (s.children.length, some k, sizes (s.visit.take (visitPos s k))) := by
  have hlt := (List.getElem?_eq_some_iff.mp hk).1
  let siblings := s.children.zipIdx.map Prod.swap
  let l := if s.reversed then siblings.reverse else siblings
  have hsnd : l.map Prod.snd = s.visit := by
    have hmap : siblings.map Prod.snd = s.children := by
      simp [siblings, List.zipIdx_map_fst, Function.comp_def]
    simp only [l, Tree.visit]
    split
    · rw [List.map_reverse, hmap]
    · exact hmap
  have hj : l[visitPos s k]? = some (k, c) := by
    have hsib : siblings[k]? = some (k, c) := by
      simp [siblings, hk]
    simp only [l, visitPos]
    split
    · rw [List.getElem?_reverse (by simp [siblings]; omega), show siblings.length - 1 -
        (s.children.length - 1 - k) = k by simp [siblings]; omega, hsib]
    · exact hsib
  have hne : ∀ i < visitPos s k, ∀ x, l[i]? = some x → id x.2.id ≠ id c.id := by
    intro i hi x hx heq
    have hxv : s.visit[i]? = some x.2 := by
      rw [← hsnd, List.getElem?_map, hx]
      rfl
    have hx2 := hinj x.2 (s.visit_perm.mem_iff.mp (List.mem_of_getElem? hxv)) heq
    have := h.visit_lt hxv (visit_visitPos hk) hi
    rw [hx2] at this
    exact Nat.lt_irrefl _ this
  have hfind := findSibling_eq hj rfl hne 0
  rw [List.map_take, hsnd, Nat.zero_add] at hfind
  simp only [siblingInfo]
  exact congrArg (Prod.mk _) hfind

section

variable (h : Numbered 0 t) (hsize : t.size = N) (hroot : root < N)
include h hsize

theorem node_lt (hx : x ∈ t.nodes none) : x.2.id < N := by
  have := h.mem_ids.mp ⟨x.1, x.2, hx, rfl⟩
  omega

include hroot

theorem node_unique (hx : x ∈ t.nodes none) (hy : y ∈ t.nodes none)
    (hid : nodeId root N x.2.id = nodeId root N y.2.id) : x = y := by
  refine h.eq_of_id hx hy ?_
  have := congrArg (place root N) hid
  rwa [place_nodeId hroot (node_lt h hsize hx), place_nodeId hroot (node_lt h hsize hy)] at this

theorem exists_node (hm : m < N) :
    ∃ q s, (q, s) ∈ t.nodes none ∧ s.id = place root N m ∧ nodeId root N s.id = m := by
  have hlt := place_lt hroot m
  obtain ⟨q, s, hs, hid⟩ := (h.mem_ids (p := none) (i := place root N m)).mpr
    ⟨Nat.zero_le _, by omega⟩
  exact ⟨q, s, hs, hid, by rw [hid, nodeId_place hroot hm]⟩

theorem findNode_of_mem (hs : (q, s) ∈ t.nodes none) :
    findNode (nodeId root N) (nodeId root N s.id) none t = some (q, s) := by
  rw [findNode_eq]
  have hsome : ((t.nodes none).find? fun x =>
      nodeId root N x.2.id = nodeId root N s.id).isSome = true := by
    rw [List.find?_isSome]
    exact ⟨_, hs, by simp⟩
  obtain ⟨x, hx⟩ := Option.isSome_iff_exists.mp hsome
  have hid := List.find?_some hx
  rw [hx, node_unique h hsize hroot (List.mem_of_find?_eq_some hx) hs (by simpa using hid)]

variable (hview : ∀ q s, (q, s) ∈ t.nodes none →
  view (nodeId root N s.id) = geomOfNode root N (nodeId root N s.id) t q s)
include hview

/-- The ranks below a rank are those of its subtree. -/
theorem mem_of_descends (hs : (q, s) ∈ t.nodes none) (hd : d < N)
    (hdesc : Descends view d (nodeId root N s.id)) :
    ∃ x ∈ s.nodes q, nodeId root N x.2.id = d := by
  revert hd
  refine Relation.ReflTransGen.head_induction_on hdesc ?_ ?_
  · exact fun _ => ⟨(q, s), self_mem q s, rfl⟩
  · intro a b hab _ ih ha
    obtain ⟨v, u, hu, -, rfl⟩ := exists_node h hsize hroot ha
    obtain ⟨q', w, hw, rfl, hc, rfl⟩ := of_parent hview hu hab
    obtain ⟨x, hx, hid⟩ := ih (nodeId_lt hroot _)
    have hxw := node_unique h hsize hroot (nodes_trans hs hx) hw hid
    subst hxw
    exact ⟨(some w, u), child_mem hx hc, rfl⟩

theorem descends_iff (hs : (q, s) ∈ t.nodes none) (hu : (v, u) ∈ t.nodes none) :
    Descends view (nodeId root N u.id) (nodeId root N s.id) ↔
      s.id ≤ u.id ∧ u.id < s.id + s.size := by
  have hnum := h.of_mem hs
  rw [← hnum.mem_ids (p := q)]
  constructor
  · intro hdesc
    obtain ⟨x, hx, hid⟩ := mem_of_descends h hsize hroot hview hs (nodeId_lt hroot _) hdesc
    exact ⟨x.1, x.2, hx, congrArg (fun y => y.2.id) (node_unique h hsize hroot
      (nodes_trans hs hx) hu hid)⟩
  · rintro ⟨v', u', hx, hid⟩
    rw [← hid]
    exact descends_of_mem hview hs hx

theorem views_sound : TreeSpec root N view := by
  have hnode := fun m (hm : m < N) => exists_node h hsize hroot hm
  have hplace : ∀ x ∈ t.nodes none, place root N (nodeId root N x.2.id) = x.2.id :=
    fun x hx => place_nodeId hroot (node_lt h hsize hx)
  have hzero : nodeId root N t.id = root := by
    rw [h.id_eq, nodeId, Nat.zero_add, Nat.mod_eq_of_lt hroot]
  have hrootview : view root = geomOfNode root N root t none t := by
    have := hview none t (self_mem none t)
    rwa [hzero] at this
  have hchild : ∀ q s, (q, s) ∈ t.nodes none → ∀ (k c : Nat),
      (view (nodeId root N s.id)).child_list[k]? = some c →
      ∃ d : Tree, s.children[k]? = some d ∧ nodeId root N d.id = c := by
    intro q s hs k c hc
    rw [hview q s hs] at hc
    simpa [geomOfNode] using hc
  have hchildsize : ∀ q s, (q, s) ∈ t.nodes none → ∀ c ∈ s.children,
      (view (nodeId root N c.id)).mysubtree_size = c.size := by
    intro q s hs c hc
    rw [hview _ _ (child_mem hs hc)]
    rfl
  have hsizes : ∀ q s, (q, s) ∈ t.nodes none →
      ((view (nodeId root N s.id)).child_list.map fun c => (view c).mysubtree_size) =
        s.children.map size := by
    intro q s hs
    rw [hview q s hs]
    simp only [geomOfNode, List.map_map]
    exact List.map_congr_left fun c hc => hchildsize q s hs c hc
  constructor
  case child_lt =>
    intro p hp c hc
    obtain ⟨q, s, hs, -, rfl⟩ := hnode p hp
    obtain ⟨k, hk⟩ := List.mem_iff_getElem?.mp hc
    obtain ⟨d, -, rfl⟩ := hchild q s hs k c hk
    exact nodeId_lt hroot _
  case agree =>
    intro p hp c hc
    obtain ⟨q, s, hs, -, rfl⟩ := hnode p hp
    obtain ⟨v, u, hu, -, rfl⟩ := hnode c hc
    constructor
    · intro hm
      obtain ⟨k, hk⟩ := List.mem_iff_getElem?.mp hm
      obtain ⟨d, hd, hid⟩ := hchild q s hs k _ hk
      rw [← hid]
      exact parent_step hview hs (List.mem_of_getElem? hd)
    · intro hpar
      obtain ⟨q', s', hs', -, hmem, hid⟩ := of_parent hview hu hpar
      obtain rfl : s' = s := congrArg Prod.snd (node_unique h hsize hroot hs' hs hid)
      rw [hview q s' hs]
      exact List.mem_map_of_mem hmem
  case nodup =>
    intro p hp
    obtain ⟨q, s, hs, -, rfl⟩ := hnode p hp
    rw [hview q s hs]
    have hnodup := (h.of_mem hs).children_ids_nodup
    have hmap : (s.children.map fun c => nodeId root N c.id) =
        (s.children.map Tree.id).map (nodeId root N) := by simp [Function.comp_def]
    simp only [geomOfNode, hmap]
    refine hnodup.map_on fun x hx y hy hxy => ?_
    obtain ⟨c, hc, rfl⟩ := List.mem_map.mp hx
    obtain ⟨d, hd, rfl⟩ := List.mem_map.mp hy
    have := node_unique h hsize hroot (child_mem hs hc) (child_mem hs hd) hxy
    exact congrArg (fun y => y.2.id) this
  case root_parent => rw [hrootview]; rfl
  case parent =>
    intro m hm hne
    obtain ⟨v, u, hu, -, rfl⟩ := hnode m hm
    rcases parent_mem hu with ⟨-, rfl⟩ | ⟨s, q, rfl, hc, hs⟩
    · exact absurd hzero hne
    · exact ⟨_, nodeId_lt hroot s.id, parent_step hview hs hc⟩
  case reach =>
    intro m hm
    obtain ⟨v, u, hu, -, rfl⟩ := hnode m hm
    have := descends_of_mem hview (self_mem none t) hu
    rwa [hzero] at this
  case size =>
    intro m hm
    obtain ⟨q, s, hs, -, rfl⟩ := hnode m hm
    rw [hsizes q s hs, hview q s hs, ← sizes_eq]
    exact s.size_eq
  case subtree_sizes =>
    intro m hm
    obtain ⟨q, s, hs, -, rfl⟩ := hnode m hm
    rw [hsizes q s hs, hview q s hs]
    rfl
  case root_size =>
    rw [hrootview]
    exact hsize
  case child_count =>
    intro m hm
    obtain ⟨q, s, hs, -, rfl⟩ := hnode m hm
    rw [hview q s hs]
    simp [geomOfNode]
  case block =>
    intro m hm d hd
    obtain ⟨q, s, hs, hsm, rfl⟩ := hnode m hm
    obtain ⟨v, u, hu, hud, rfl⟩ := hnode d hd
    rw [descends_iff h hsize hroot hview hs hu, ← hsm, ← hud, hview q s hs]
    rfl
  case child_block =>
    intro m hm k c hk
    obtain ⟨q, s, hs, hsm, rfl⟩ := hnode m hm
    obtain ⟨d, hd, rfl⟩ := hchild q s hs k c hk
    have hmem := child_mem hs (List.mem_of_getElem? hd)
    refine ⟨_, by rw [hview q s hs]; exact child_offset_eq hd, ?_⟩
    rw [hplace _ hmem, ← hsm]
    exact ((h.of_mem hs).child (visit_visitPos hd)).id_eq
  case contiguous =>
    intro m hm k hk
    obtain ⟨q, s, hs, -, rfl⟩ := hnode m hm
    rw [hview q s hs] at hk ⊢
    have hlen : k < s.children.length := hk
    simp only [geomOfNode, Geom.visit, inVisitOrder]
    by_cases hr : s.reversed = true
    case neg =>
      simp only [hr, Bool.false_eq_true, if_false]
      rw [offsets_getElem (by simpa using hlen), Nat.zero_add]
    case pos =>
      simp only [hr, if_true]
      rw [List.reverse_reverse, offsets_getElem (by simpa using hlen), Nat.zero_add]
  case sibling =>
    intro p hp k c hk
    obtain ⟨q, s, hs, -, rfl⟩ := hnode p hp
    obtain ⟨d, hd, rfl⟩ := hchild q s hs k c hk
    have hmem := child_mem hs (List.mem_of_getElem? hd)
    have hinfo : siblingInfo (nodeId root N) (nodeId root N d.id) (some s) = _ :=
      siblingInfo_eq (h.of_mem hs) hd fun d' hd' hid =>
      (Prod.ext_iff.mp (node_unique h hsize hroot (child_mem hs hd') hmem hid)).2
    rw [hview q s hs, hview _ d hmem]
    simp only [geomOfNode, hinfo]
    exact ⟨trivial, trivial, child_offset_eq hd, rfl⟩
  case root_sibling => rw [hrootview]; rfl

end

/-- Parameters that pass the assertions of the builders, are positive, and keep the products of
the k-nomial and recursive loops in range. -/
def Supported (in_type : TreeType) (N : Nat) : Prop :=
  match in_type.tree_class, in_type.params with
  | .nary, [radix] => 0 < radix
  | .knomial, [radix] => 1 < radix ∧ Fits radix.toNat N (2 ^ 31)
  | .recursive, [radix] => 1 < radix ∧ Fits radix.toNat N (2 ^ 32)
  | .flat, _ => True
  | .fork, dims => dims ≠ [] ∧ (∀ d ∈ dims, 0 < d) ∧ dims.prod = N
  | _, _ => False

theorem make_tree_built {in_type : TreeType} (hN : 0 < N) (h : Supported in_type N) :
    Built 0 N (makeTree in_type N) := by
  obtain ⟨tree_class, params⟩ := in_type
  cases tree_class with
  | flat => exact make_flat_built 0 hN
  | hierarchical => exact h.elim
  | fork =>
    obtain ⟨hne, hpos, hprod⟩ := h
    obtain ⟨t, ht, hbuilt, -⟩ := make_fork_built hne hpos hprod 0
    exact ⟨t, ht, hbuilt⟩
  | nary =>
    match params, h with
    | [radix], h => exact make_nary_built h hN (Nat.le_refl N) 0
  | knomial =>
    match params, h with
    | [radix], h => exact make_knomial_built h.1 h.2 hN (Nat.le_refl N) 0
  | recursive =>
    match params, h with
    | [radix], h => exact make_recursive_built h.1 h.2 hN (Nat.le_refl N) 0

theorem tree_views_agree (in_type : TreeType) (root N : Nat) (hroot : root < N)
    (h : Supported in_type N) :
    ∃ view, (∀ m < N, geomCreateLocal in_type root N m = some (view m)) ∧
      TreeSpec root N view := by
  obtain ⟨t, ht, hnum, hsize⟩ := make_tree_built (by omega) h
  have hgeom : ∀ q s, (q, s) ∈ t.nodes none →
      geomCreateLocal in_type root N (nodeId root N s.id) =
        some (geomOfNode root N (nodeId root N s.id) t q s) := by
    intro q s hs
    rw [geomCreateLocal, if_pos hroot, ht]
    simp [findNode_of_mem hnum hsize hroot hs]
  let view : Nat → Geom := fun m =>
    (geomCreateLocal in_type root N m).getD (geomOfNode root N m t none t)
  refine ⟨view, fun m hm => ?_, views_sound hnum hsize hroot fun q s hs => ?_⟩
  · obtain ⟨q, s, hs, -, rfl⟩ := exists_node hnum hsize hroot hm
    simp [view, hgeom q s hs]
  · simp [view, hgeom q s hs]

/-- A k-nomial tree over a team that is no power of the radix, with a root in the middle. -/
theorem tree_views_agree_knomial :
    ∃ view, (∀ m < 9, geomCreateLocal ⟨.knomial, [2]⟩ 3 9 m = some (view m)) ∧
      TreeSpec 3 9 view := by
  refine tree_views_agree ⟨.knomial, [2]⟩ 3 9 (by omega) ⟨by decide, fun k hk => ?_⟩
  have hk4 : k < 4 := (Nat.pow_lt_pow_iff_right (a := 2) (by omega)).mp
    (Nat.lt_trans hk (by decide))
  calc 2 ^ (k + 1) ≤ 2 ^ 4 := Nat.pow_le_pow_right (by omega) hk4
    _ < 2 ^ 31 := by decide

/-- The dimensions of a fork tree must multiply to the size of the team. -/
theorem tree_views_fork_mismatch :
    ¬ ∃ view, (∀ m < 3, geomCreateLocal ⟨.fork, [2]⟩ 0 3 m = some (view m)) ∧
      TreeSpec 0 3 view := by
  rintro ⟨view, hview, -⟩
  exact absurd (hview 0 (by omega)) (by simp [geomCreateLocal, makeTree, makeForkTree])

end Gasnet.Coll
