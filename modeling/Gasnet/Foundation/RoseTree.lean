import Mathlib.Algebra.Ring.Nat
import Mathlib.Data.List.Range
import Mathlib.Data.List.Perm.Basic
import Mathlib.Data.List.Nodup

/-! Trees that are numbered from the root down, each subtree a block of numbers. The children of
a node may be listed backwards. -/
namespace Gasnet

inductive Tree where
  | node (id : Nat) (reversed : Bool) (children : List Tree)

namespace Tree

variable {t s c : Tree} {cs l : List Tree} {a b i k : Nat} {r : Bool} {p q : Option Tree}

def id : Tree → Nat
  | node a _ _ => a

def reversed : Tree → Bool
  | node _ r _ => r

def children : Tree → List Tree
  | node _ _ cs => cs

@[simp] theorem id_node (a : Nat) (r : Bool) (cs : List Tree) : (node a r cs).id = a := rfl
@[simp] theorem reversed_node (a : Nat) (r : Bool) (cs : List Tree) :
    (node a r cs).reversed = r := rfl
@[simp] theorem children_node (a : Nat) (r : Bool) (cs : List Tree) :
    (node a r cs).children = cs := rfl

mutual
/-- The number of nodes. -/
def size : Tree → Nat
  | node _ _ cs => 1 + sizes cs
def sizes : List Tree → Nat
  | [] => 0
  | t :: ts => t.size + sizes ts
end

mutual
/-- All nodes with their parents, a node before its children. -/
def nodes (p : Option Tree) : Tree → List (Option Tree × Tree)
  | node a r cs => (p, node a r cs) :: nodesBelow (node a r cs) cs
def nodesBelow (t : Tree) : List Tree → List (Option Tree × Tree)
  | [] => []
  | c :: cs => c.nodes (some t) ++ nodesBelow t cs
end

/-- The children in the order of their numbers. -/
def visit (t : Tree) : List Tree := if t.reversed then t.children.reverse else t.children

/-- The subtree is numbered from `a` on, child after child. -/
inductive Numbered : Nat → Tree → Prop
  | node (a : Nat) (r : Bool) (cs : List Tree)
      (h : ∀ k c, (node a r cs).visit[k]? = some c →
        Numbered (a + 1 + sizes ((node a r cs).visit.take k)) c) :
      Numbered a (node a r cs)

@[elab_as_elim]
theorem induct {P : Tree → Prop} (h : ∀ a r cs, (∀ c ∈ cs, P c) → P (node a r cs)) :
    ∀ t, P t
  | node a r cs => h a r cs fun c _ => induct h c

theorem sizes_eq (cs : List Tree) : sizes cs = (cs.map size).sum := by
  induction cs with
  | nil => rfl
  | cons c cs ih => simp [sizes, ih]

theorem nodesBelow_eq (t : Tree) (cs : List Tree) :
    nodesBelow t cs = cs.flatMap (nodes (some t)) := by
  induction cs with
  | nil => rfl
  | cons c cs ih => simp [nodesBelow, ih]

theorem size_eq (t : Tree) : t.size = 1 + sizes t.children := by
  cases t
  rw [size, children]

theorem size_pos (t : Tree) : 0 < t.size := by
  rw [size_eq]
  omega

theorem nodes_eq (p : Option Tree) (t : Tree) :
    t.nodes p = (p, t) :: t.children.flatMap (nodes (some t)) := by
  cases t
  rw [nodes, nodesBelow_eq, children]

theorem visit_perm (t : Tree) : t.visit.Perm t.children := by
  unfold visit
  split
  · exact List.reverse_perm _
  · exact List.Perm.refl _

theorem sizes_perm (h : cs.Perm l) : sizes cs = sizes l := by
  rw [sizes_eq, sizes_eq]
  exact (h.map size).sum_nat

theorem sizes_take_succ (h : l[k]? = some c) : sizes (l.take (k + 1)) = sizes (l.take k) + c.size := by
  induction l generalizing k with
  | nil => simp at h
  | cons d l ih =>
    cases k with
    | zero =>
      obtain rfl : d = c := by simpa using h
      simp [sizes]
    | succ k =>
      rw [List.getElem?_cons_succ] at h
      rw [List.take_succ_cons, List.take_succ_cons, sizes, sizes, ih h, Nat.add_assoc]

theorem self_mem (p : Option Tree) (t : Tree) : (p, t) ∈ t.nodes p := by
  rw [nodes_eq]
  exact List.mem_cons_self

theorem mem_nodes : (q, s) ∈ t.nodes p ↔
    q = p ∧ s = t ∨ ∃ c ∈ t.children, (q, s) ∈ c.nodes (some t) := by
  rw [nodes_eq, List.mem_cons, List.mem_flatMap, Prod.mk.injEq]

/-- The children of a node in the tree are in the tree, below it. -/
theorem child_mem (h : (q, s) ∈ t.nodes p) (hc : c ∈ s.children) : (some s, c) ∈ t.nodes p := by
  induction t using induct generalizing p with
  | h a r cs ih =>
    rcases mem_nodes.mp h with ⟨rfl, rfl⟩ | ⟨d, hd, hm⟩
    · exact mem_nodes.mpr (Or.inr ⟨c, hc, self_mem _ _⟩)
    · exact mem_nodes.mpr (Or.inr ⟨d, hd, ih d hd hm⟩)

/-- A node in the tree is its root or below another one. -/
theorem parent_mem (h : (q, s) ∈ t.nodes p) : q = p ∧ s = t ∨
    ∃ u v, q = some u ∧ s ∈ u.children ∧ (v, u) ∈ t.nodes p := by
  induction t using induct generalizing p with
  | h a r cs ih =>
    rcases mem_nodes.mp h with hroot | ⟨d, hd, hm⟩
    · exact Or.inl hroot
    · rcases ih d hd hm with ⟨rfl, rfl⟩ | ⟨u, v, hq, hs, hv⟩
      · exact Or.inr ⟨_, p, rfl, hd, self_mem _ _⟩
      · exact Or.inr ⟨u, v, hq, hs, mem_nodes.mpr (Or.inr ⟨d, hd, hv⟩)⟩

/-- What is below a node in the tree is in the tree. -/
theorem nodes_trans (h : (q, s) ∈ t.nodes p) {x : Option Tree × Tree} (hx : x ∈ s.nodes q) :
    x ∈ t.nodes p := by
  induction s using induct generalizing q with
  | h a r cs ih =>
    rcases mem_nodes.mp hx with ⟨h1, h2⟩ | ⟨d, hd, hm⟩
    · rw [show x = (q, node a r cs) from Prod.ext h1 h2]
      exact h
    · exact ih d hd (child_mem h hd) hm

namespace Numbered

theorem id_eq (h : Numbered a t) : t.id = a := by
  cases h
  rfl

theorem child (h : Numbered a t) (hk : t.visit[k]? = some c) :
    Numbered (a + 1 + sizes (t.visit.take k)) c := by
  cases h with
  | node _ r cs h => exact h k c hk

theorem child_of_mem (h : Numbered a t) (hc : c ∈ t.children) : Numbered c.id c := by
  have hm : c ∈ t.visit := t.visit_perm.mem_iff.mpr hc
  obtain ⟨k, hk⟩ := List.mem_iff_getElem?.mp hm
  have := h.child hk
  rwa [this.id_eq]

theorem of_mem (h : Numbered a t) (hm : (q, s) ∈ t.nodes p) : Numbered s.id s := by
  induction t using induct generalizing p a with
  | h b r cs ih =>
    rcases mem_nodes.mp hm with ⟨rfl, rfl⟩ | ⟨d, hd, hm⟩
    · rwa [h.id_eq]
    · exact ih d hd (h.child_of_mem hd) hm

theorem flatMap_perm {α : Type*} {f : Tree → List α} {g : α → Nat} (hl : ∀ k c, l[k]? = some c →
    ((f c).map g).Perm (List.range' (b + sizes (l.take k)) c.size)) :
    ((l.flatMap f).map g).Perm (List.range' b (sizes l)) := by
  induction l generalizing b with
  | nil => exact List.Perm.refl _
  | cons c l ih =>
    have hhead := hl 0 c rfl
    have htail : ((l.flatMap f).map g).Perm (List.range' (b + c.size) (sizes l)) := by
      refine ih fun k d hd => ?_
      have := hl (k + 1) d hd
      rwa [List.take_succ_cons, sizes, ← Nat.add_assoc] at this
    rw [List.flatMap_cons, List.map_append, sizes, ← List.range'_append_1]
    exact hhead.append htail

/-- The nodes of a numbered tree have all numbers of its block. -/
theorem ids_perm (h : Numbered a t) (p : Option Tree) :
    ((t.nodes p).map fun x => x.2.id).Perm (List.range' a t.size) := by
  induction h generalizing p with
  | node a r cs h ih =>
    have hvisit := (Tree.node a r cs).visit_perm
    have hsize : (Tree.node a r cs).size = sizes (Tree.node a r cs).visit + 1 := by
      rw [size_eq, sizes_perm hvisit, Nat.add_comm]
    rw [nodes_eq, hsize, List.map_cons, List.range'_succ]
    refine List.Perm.cons a (List.Perm.trans ?_
      (flatMap_perm fun k c hc => ih k c hc (some (Tree.node a r cs))))
    exact (List.Perm.flatMap_right _ hvisit.symm).map _

theorem ids_nodup (h : Numbered a t) (p : Option Tree) :
    ((t.nodes p).map fun x => x.2.id).Nodup :=
  (h.ids_perm p).nodup_iff.mpr List.nodup_range'

theorem mem_ids (h : Numbered a t) :
    (∃ q s, (q, s) ∈ t.nodes p ∧ s.id = i) ↔ a ≤ i ∧ i < a + t.size := by
  have hm := (h.ids_perm p).mem_iff (a := i)
  rw [List.mem_range'_1, List.mem_map] at hm
  rw [← hm]
  constructor
  · rintro ⟨q, s, hs, hi⟩
    exact ⟨(q, s), hs, hi⟩
  · rintro ⟨⟨q, s⟩, hs, hi⟩
    exact ⟨q, s, hs, hi⟩

/-- A number names one node. -/
theorem eq_of_id (h : Numbered a t) {x y : Option Tree × Tree} (hx : x ∈ t.nodes p)
    (hy : y ∈ t.nodes p) (hid : x.2.id = y.2.id) : x = y :=
  List.inj_on_of_nodup_map (h.ids_nodup p) hx hy hid

/-- Children that are visited later have greater numbers. -/
theorem visit_lt (h : Numbered a t) {j : Nat} (hk : t.visit[k]? = some c)
    (hj : t.visit[j]? = some s) (hlt : k < j) : c.id < s.id := by
  have hle : sizes (t.visit.take (k + 1)) ≤ sizes (t.visit.take j) := by
    have hsplit := List.take_append_drop (k + 1) (t.visit.take j)
    rw [List.take_take, Nat.min_eq_left hlt] at hsplit
    rw [← hsplit, sizes_eq, sizes_eq, List.map_append, List.sum_append]
    exact Nat.le_add_right _ _
  have hpos := c.size_pos
  rw [sizes_take_succ hk] at hle
  rw [(h.child hk).id_eq, (h.child hj).id_eq]
  omega

theorem children_ids_nodup (h : Numbered a t) : (t.children.map Tree.id).Nodup := by
  rw [← (t.visit_perm.map Tree.id).nodup_iff, List.nodup_iff_getElem?_ne_getElem?]
  intro i j hij hj heq
  rw [List.getElem?_map, List.getElem?_map] at heq
  rw [List.length_map] at hj
  rw [List.getElem?_eq_getElem hj, List.getElem?_eq_getElem (Nat.lt_trans hij hj)] at heq
  have := h.visit_lt (List.getElem?_eq_getElem (Nat.lt_trans hij hj))
    (List.getElem?_eq_getElem hj) hij
  rw [Option.some.inj heq] at this
  exact Nat.lt_irrefl _ this

theorem of_visit (hid : t.id = a)
    (h : ∀ k c, t.visit[k]? = some c → Numbered (a + 1 + sizes (t.visit.take k)) c) :
    Numbered a t := by
  cases t
  subst hid
  exact node _ _ _ h

/-- A new last child takes the next block. -/
theorem concat (h : Numbered a t) (hid : s.id = t.id) (hv : s.visit = t.visit ++ [c])
    (hc : Numbered (a + t.size) c) : Numbered a s ∧ s.size = t.size + c.size := by
  have hsize : t.size = 1 + sizes t.visit := by rw [size_eq, sizes_perm t.visit_perm]
  constructor
  · refine of_visit (hid.trans h.id_eq) fun k d hd => ?_
    rw [hv] at hd ⊢
    rcases Nat.lt_or_ge k t.visit.length with hk | hk
    · rw [List.getElem?_append_left hk] at hd
      rw [List.take_append_of_le_length (Nat.le_of_lt hk)]
      exact h.child hd
    · have hlast : k = t.visit.length := by
        have := (List.getElem?_eq_some_iff.mp hd).1
        simp at this
        omega
      subst hlast
      obtain rfl : c = d := by simpa using hd
      rw [List.take_left, Nat.add_assoc, ← hsize]
      exact hc
  · rw [size_eq, sizes_perm s.visit_perm.symm, hv, hsize, sizes_eq, sizes_eq]
    simp [Nat.add_assoc]

end Numbered

/-- The pieces, given by start and length, fill the block from `a` to `b` and are not empty. -/
def Adjacent : Nat → List (Nat × Nat) → Nat → Prop
  | a, [], b => a = b
  | a, p :: ps, b => p.1 = a ∧ 0 < p.2 ∧ Adjacent (a + p.2) ps b

variable {ps qs : List (Nat × Nat)}

theorem Adjacent.append {m : Nat} (h : Adjacent a ps m) (h' : Adjacent m qs b) :
    Adjacent a (ps ++ qs) b := by
  induction ps generalizing a with
  | nil =>
    obtain rfl : a = m := h
    exact h'
  | cons p ps ih => exact ⟨h.1, h.2.1, ih h.2.2⟩

theorem Adjacent.le (h : Adjacent a ps b) : a ≤ b := by
  induction ps generalizing a with
  | nil => exact Nat.le_of_eq h
  | cons p ps ih =>
    have := ih h.2.2
    omega

theorem Adjacent.mem (h : Adjacent a ps b) {x : Nat × Nat} (hx : x ∈ ps) :
    a ≤ x.1 ∧ 0 < x.2 ∧ x.1 + x.2 ≤ b := by
  induction ps generalizing a with
  | nil => cases hx
  | cons p ps ih =>
    obtain ⟨h1, h2, h3⟩ := h
    rcases List.mem_cons.mp hx with rfl | hx
    · exact ⟨Nat.le_of_eq h1.symm, h2, h1 ▸ h3.le⟩
    · have := ih h3 hx
      omega

/-- What is put together from the pieces is that of the block. -/
theorem Adjacent.flatMap {α : Type*} {F : Nat → Nat → List α} (hzero : ∀ a, F a 0 = [])
    (hadd : ∀ a m n, F a (m + n) = F a m ++ F (a + m) n) (h : Adjacent a ps b) :
    ps.flatMap (fun x => F x.1 x.2) = F a (b - a) := by
  induction ps generalizing a with
  | nil =>
    obtain rfl : a = b := h
    rw [Nat.sub_self, hzero, List.flatMap_nil]
  | cons p ps ih =>
    obtain ⟨h1, -, h3⟩ := h
    have hle := h3.le
    have hlen : b - a = p.2 + (b - (a + p.2)) := by omega
    rw [List.flatMap_cons, ih h3, h1, hlen, hadd]

/-- The tree is built on the piece of an array that starts at `i`. -/
def BuiltOn (i : Nat) (x : Nat × Nat) (t : Tree) : Prop := Numbered (i + x.1) t ∧ t.size = x.2

theorem Adjacent.built (h : Adjacent a ps b) (hl : List.Forall₂ (BuiltOn i) ps l) :
    a + sizes l = b ∧ ∀ k c, l[k]? = some c → Numbered (i + a + sizes (l.take k)) c := by
  induction hl generalizing a with
  | nil =>
    refine ⟨h, fun k c hc => ?_⟩
    simp at hc
  | @cons p c ps l hp hl ih =>
    obtain ⟨h1, -, h3⟩ := h
    obtain ⟨hsum, hnum⟩ := ih h3
    refine ⟨?_, fun k d hd => ?_⟩
    · rw [sizes, hp.2]
      omega
    · cases k with
      | zero =>
        obtain rfl : c = d := by simpa using hd
        rw [← h1]
        exact hp.1
      | succ k =>
        rw [List.take_succ_cons, sizes, hp.2, ← Nat.add_assoc, Nat.add_assoc i]
        exact hnum k d hd

end Tree
end Gasnet
