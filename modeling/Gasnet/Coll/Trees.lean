import Gasnet.Foundation.RoseTree
import Mathlib.Algebra.Ring.Int.Defs

/-! The collective trees of `gasnet_trees.c`. A node is named by its place in the array that
`allocate_nodes` fills, where place `i` is rank `(i + rootrank) % total_ranks`. -/
namespace Gasnet.Coll

/-- `gasnete_coll_tree_class_t`. -/
inductive TreeClass
  | flat
  | knomial
  | nary
  | recursive
  | fork
  | hierarchical
  deriving DecidableEq

/-- `gasnete_coll_tree_type_t`. The parser takes any C ints. -/
structure TreeType where
  tree_class : TreeClass
  params : List Int

/-- `MYCEIL`. -/
def myceil (a b : Nat) : Nat := if a % b ≠ 0 then a / b + 1 else a / b

/-- A node as `allocate_nodes` leaves it. -/
def leaf (i : Nat) : Tree := .node i false []

/-- `preappend_children`. -/
def preappendChildren : Tree → List Tree → Tree
  | .node i r cs, ds => .node i r (ds ++ cs)

/-- `children_reversed = 1`. -/
def setReversed : Tree → Tree
  | .node i _ cs => .node i true cs

/-- `make_chain_tree`. -/
def makeChainTree : Tree → List Tree → Tree
  | t, [] => t
  | t, u :: us => preappendChildren t [makeChainTree u us]

def makeFlatTree (nodes num_nodes : Nat) : Tree :=
  preappendChildren (leaf nodes) ((List.range (num_nodes - 1)).map fun i => leaf (nodes + 1 + i))

/-- A node gets the trees built on consecutive pieces, given by start and length, backwards. -/
def attach (nodes : Nat) (cs : List Tree) : Tree :=
  setReversed (preappendChildren (leaf nodes) cs.reverse)

/-- The inner and outer loops of `make_knomial_tree`, which yield the children from the last to
the first one. They do not end when the radix is 1, and the products are those of C ints. -/
def knomialPieces (num_nodes radix : Nat) :
    (fuel : Nat) → (stride r num_proc : Nat) → Option (List (Nat × Nat))
  | 0, _, _, _ => none
  | fuel + 1, stride, r, num_proc =>
    if num_nodes ≤ num_proc then some []
    else if 2 ^ 31 ≤ stride * radix then none
    else if r < stride * radix then
      let n := min stride (num_nodes - num_proc)
      (knomialPieces num_nodes radix fuel stride (r + stride) (num_proc + n)).map ((r, n) :: ·)
    else knomialPieces num_nodes radix fuel (stride * radix) (stride * radix) num_proc

/-- `make_knomial_tree`. -/
def makeKnomialTree (radix : Int) : (fuel : Nat) → (nodes num_nodes : Nat) → Option Tree
  | 0, _, _ => none
  | fuel + 1, nodes, num_nodes =>
    if radix ≤ 1 then none
    else if num_nodes > 1 then do
      let ps ← knomialPieces num_nodes radix.toNat (2 * num_nodes) 1 1 1
      let cs ← ps.mapM fun p => makeKnomialTree radix fuel (nodes + p.1) p.2
      pure (attach nodes cs)
    else some (leaf nodes)

/-- The loop of `make_recursive_tree`, in unsigned arithmetic. -/
def recursivePieces (num_nodes radix : Nat) : (fuel : Nat) → (i : Nat) → Option (List (Nat × Nat))
  | 0, _ => none
  | fuel + 1, i =>
    if i < num_nodes then
      let next := i * radix % 2 ^ 32
      (recursivePieces num_nodes radix fuel next).map ((i, min num_nodes next - i) :: ·)
    else some []

/-- `make_recursive_tree`. -/
def makeRecursiveTree (radix : Int) : (fuel : Nat) → (nodes num_nodes : Nat) → Option Tree
  | 0, _, _ => none
  | fuel + 1, nodes, num_nodes =>
    if num_nodes > 1 then
      if radix ≤ 1 then none
      else do
        let ps ← recursivePieces num_nodes radix.toNat num_nodes 1
        let cs ← ps.mapM fun p => makeRecursiveTree radix fuel (nodes + p.1) p.2
        pure (attach nodes cs)
    else some (leaf nodes)

/-- The loop of `make_nary_tree`. It skips empty pieces. -/
def naryPieces (num_nodes radix : Nat) : List (Nat × Nat) :=
  ((List.range radix).map fun j =>
    let start := if j = 0 then 1 else min num_nodes (j * myceil num_nodes radix)
    (start, min num_nodes ((j + 1) * myceil num_nodes radix) - start)).filter fun p => p.2 ≠ 0

/-- `make_nary_tree`. The products of the loop are below `num_nodes + radix`. -/
def makeNaryTree (radix : Int) : (fuel : Nat) → (nodes num_nodes : Nat) → Option Tree
  | 0, _, _ => none
  | fuel + 1, nodes, num_nodes =>
    if num_nodes > 1 then do
      let ps := naryPieces num_nodes radix.toNat
      let cs ← ps.mapM fun p => makeNaryTree radix fuel (nodes + p.1) p.2
      pure (if ps.isEmpty then leaf nodes else attach nodes cs)
    else some (leaf nodes)

/-- `make_fork_tree`, with its assertions. An array of negative size is not allocated. -/
def makeForkTree : List Int → (nodes num_nodes : Nat) → Option Tree
  | [], _, _ => none
  | [d], nodes, num_nodes =>
    if d = num_nodes then
      some (setReversed (makeChainTree (leaf nodes)
        ((List.range (d.toNat - 1)).map fun i => leaf (nodes + 1 + i))))
    else none
  | d :: dims, nodes, num_nodes =>
    if (d :: dims).prod = num_nodes ∧ 0 ≤ d then do
      let stride := dims.prod.toNat
      let ts ← (List.range d.toNat).mapM fun i => makeForkTree dims (nodes + stride * i) stride
      match ts with
      | [] => none
      | t :: ts => pure (setReversed (makeChainTree t ts))
    else none

/-- The switch of `gasnete_coll_tree_geom_create_local`. Hierarchical trees are refused. -/
def makeTree (in_type : TreeType) (total_ranks : Nat) : Option Tree :=
  match in_type.tree_class, in_type.params with
  | .nary, [radix] => makeNaryTree radix total_ranks 0 total_ranks
  | .knomial, [radix] => makeKnomialTree radix total_ranks 0 total_ranks
  | .recursive, [radix] => makeRecursiveTree radix total_ranks 0 total_ranks
  | .flat, _ => some (makeFlatTree 0 total_ranks)
  | .fork, dims => makeForkTree dims 0 total_ranks
  | _, _ => none

mutual
/-- `find_node`, after `setparents`: the node of a rank and its parent. -/
def findNode (id : Nat → Nat) (rank : Nat) (parent : Option Tree) :
    Tree → Option (Option Tree × Tree)
  | .node i r cs =>
    if id i = rank then some (parent, .node i r cs) else findChild id rank (.node i r cs) cs
def findChild (id : Nat → Nat) (rank : Nat) (t : Tree) :
    List Tree → Option (Option Tree × Tree)
  | [] => none
  | c :: cs => (findNode id rank (some t) c).or (findChild id rank t cs)
end

mutual
def maxradix : Tree → Nat
  | .node _ _ cs => maxradixes cs.length cs
def maxradixes (ret : Nat) : List Tree → Nat
  | [] => ret
  | c :: cs => maxradixes (max ret (maxradix c)) cs
end

/-- `gasnete_coll_local_tree_geom_t`. -/
structure Geom where
  root : Nat
  max_radix : Nat
  total_size : Nat
  parent : Option Nat
  child_count : Nat
  mysubtree_size : Nat
  parent_subtree_size : Nat
  children_reversed : Bool
  num_siblings : Nat
  sibling_id : Option Nat
  sibling_offset : Nat
  child_list : List Nat
  subtree_sizes : List Nat
  child_offset : List Nat
  num_non_leaf_children : Nat
  num_leaf_children : Nat

/-- The loop over the siblings, which are given with their indices. -/
def findSibling (id : Nat → Nat) (myrank : Nat) : List (Nat × Tree) → Nat → Option Nat × Nat
  | [], offset => (none, offset)
  | (tmp_id, c) :: cs, offset =>
    if id c.id = myrank then (some tmp_id, offset)
    else findSibling id myrank cs (offset + c.size)

/-- Running totals from `temp_offset` on. -/
def offsets : (temp_offset : Nat) → List Nat → List Nat
  | _, [] => []
  | temp_offset, n :: ns => temp_offset :: offsets (temp_offset + n) ns

/-- Go through a list forwards, or backwards if it is reversed, and keep its order. -/
def inVisitOrder (reversed : Bool) (f : List Nat → List Nat) (xs : List Nat) : List Nat :=
  if reversed then (f xs.reverse).reverse else f xs

/-- The rank at place `i`. -/
def nodeId (rootrank total_ranks i : Nat) : Nat := (i + rootrank) % total_ranks

/-- `num_siblings`, `sibling_id` and `sibling_offset`. -/
def siblingInfo (id : Nat → Nat) (myrank : Nat) : Option Tree → Nat × Option Nat × Nat
  | none => (0, some 0, 0)
  | some p =>
    let siblings := p.children.zipIdx.map Prod.swap
    (p.children.length,
      findSibling id myrank (if p.reversed then siblings.reverse else siblings) 0)

/-- What `gasnete_coll_tree_geom_create_local` reads off the tree. -/
def geomOfNode (rootrank total_ranks myrank : Nat) (rootnode : Tree) (parent : Option Tree)
    (mynode : Tree) : Geom where
  root := rootrank
  max_radix := maxradix rootnode
  total_size := total_ranks
  parent := parent.map fun p => nodeId rootrank total_ranks p.id
  child_count := mynode.children.length
  mysubtree_size := mynode.size
  parent_subtree_size := (parent.map Tree.size).getD 0
  children_reversed := mynode.reversed
  num_siblings := (siblingInfo (nodeId rootrank total_ranks) myrank parent).1
  sibling_id := (siblingInfo (nodeId rootrank total_ranks) myrank parent).2.1
  sibling_offset := (siblingInfo (nodeId rootrank total_ranks) myrank parent).2.2
  child_list := mynode.children.map fun c => nodeId rootrank total_ranks c.id
  subtree_sizes := mynode.children.map Tree.size
  child_offset := inVisitOrder mynode.reversed (offsets 0) (mynode.children.map Tree.size)
  num_non_leaf_children := (mynode.children.map Tree.size).countP (1 < ·)
  num_leaf_children := (mynode.children.map Tree.size).countP (· ≤ 1)

/-- `gasnete_coll_tree_geom_create_local` of the rank `myrank` in a team. -/
def geomCreateLocal (in_type : TreeType) (rootrank total_ranks myrank : Nat) : Option Geom :=
  if rootrank < total_ranks then do
    let rootnode ← makeTree in_type total_ranks
    let mynode ← findNode (nodeId rootrank total_ranks) myrank none rootnode
    pure (geomOfNode rootrank total_ranks myrank rootnode mynode.1 mynode.2)
  else none

end Gasnet.Coll
