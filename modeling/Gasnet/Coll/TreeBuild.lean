import Gasnet.Coll.Trees
import Mathlib.Data.List.Forall2
import Mathlib.Tactic.NormNum

/-! Every construction numbers its nodes in the order of the array. -/
namespace Gasnet.Coll

open Tree

variable {t c : Tree} {ts cs : List Tree} {a b i k n fuel nodes num_nodes : Nat} {radix : Int}
  {ps : List (Nat × Nat)} {dims : List Int}

@[simp] theorem id_leaf (i : Nat) : (leaf i).id = i := rfl
@[simp] theorem children_leaf (i : Nat) : (leaf i).children = [] := rfl
@[simp] theorem visit_leaf (i : Nat) : (leaf i).visit = [] := rfl
@[simp] theorem size_leaf (i : Nat) : (leaf i).size = 1 := rfl

@[simp] theorem id_preappendChildren (t : Tree) (cs : List Tree) :
    (preappendChildren t cs).id = t.id := by cases t; rfl
@[simp] theorem reversed_preappendChildren (t : Tree) (cs : List Tree) :
    (preappendChildren t cs).reversed = t.reversed := by cases t; rfl
@[simp] theorem children_preappendChildren (t : Tree) (cs : List Tree) :
    (preappendChildren t cs).children = cs ++ t.children := by cases t; rfl

@[simp] theorem id_setReversed (t : Tree) : (setReversed t).id = t.id := by cases t; rfl
@[simp] theorem reversed_setReversed (t : Tree) : (setReversed t).reversed = true := by
  cases t; rfl
@[simp] theorem children_setReversed (t : Tree) : (setReversed t).children = t.children := by
  cases t; rfl

theorem numbered_leaf (i : Nat) : Numbered i (leaf i) :=
  Numbered.of_visit rfl fun k c hc => by simp at hc

/-- A builder made the block of `n` nodes from `i` on. -/
def Built (i n : Nat) (t : Option Tree) : Prop := ∃ u, t = some u ∧ Numbered i u ∧ u.size = n

theorem built_leaf (i : Nat) : Built i 1 (some (leaf i)) := ⟨_, rfl, numbered_leaf i, rfl⟩

/-- The builders on all pieces succeed if each one does. -/
theorem mapM_built {α : Type*} {f : α → Option Tree} {R : α → Tree → Prop} (xs : List α)
    (h : ∀ x ∈ xs, ∃ t, f x = some t ∧ R x t) :
    ∃ ts, xs.mapM f = some ts ∧ List.Forall₂ R xs ts := by
  induction xs with
  | nil => exact ⟨[], rfl, .nil⟩
  | cons x xs ih =>
    obtain ⟨t, ht, hR⟩ := h x List.mem_cons_self
    obtain ⟨ts, hts, hall⟩ := ih fun y hy => h y (List.mem_cons_of_mem _ hy)
    exact ⟨t :: ts, by simp [ht, hts], .cons hR hall⟩

theorem attach_built (h : Adjacent 1 ps n) (hcs : List.Forall₂ (BuiltOn nodes) ps cs) :
    Built nodes n (some (attach nodes cs)) := by
  obtain ⟨hsum, hnum⟩ := h.built hcs
  have hvisit : (attach nodes cs).visit = cs := by simp [visit, attach]
  refine ⟨_, rfl, Numbered.of_visit (by simp [attach]) ?_, ?_⟩
  · rw [hvisit]
    exact hnum
  · rw [size_eq, ← sizes_perm (attach nodes cs).visit_perm, hvisit, hsum]

/-- The recursive builders: take the pieces, build on each, attach the trees. -/
theorem pieces_built (f : Nat → Nat → Option Tree) (nodes : Nat) (h : Adjacent 1 ps n)
    (hf : ∀ p ∈ ps, Built (nodes + p.1) p.2 (f (nodes + p.1) p.2)) :
    ∃ cs, (ps.mapM fun p => f (nodes + p.1) p.2) = some cs ∧
      Built nodes n (some (attach nodes cs)) := by
  obtain ⟨cs, hcs, hall⟩ := mapM_built (R := BuiltOn nodes) ps hf
  exact ⟨cs, hcs, attach_built h hall⟩

theorem leaves_built (nodes m : Nat) : List.Forall₂ (BuiltOn nodes)
    ((List.range m).map fun i => (1 + i, 1)) ((List.range m).map fun i => leaf (nodes + 1 + i)) := by
  rw [List.forall₂_map_left_iff, List.forall₂_map_right_iff, List.forall₂_same]
  intro i _
  rw [Nat.add_assoc]
  exact ⟨numbered_leaf _, rfl⟩

theorem leaves_adjacent (m : Nat) :
    Adjacent 1 ((List.range m).map fun i => (1 + i, 1)) (1 + m) := by
  induction m with
  | zero => rfl
  | succ m ih =>
    rw [List.range_succ, List.map_append]
    exact ih.append ⟨rfl, Nat.one_pos, rfl⟩

theorem make_flat_built (nodes : Nat) (h : 0 < num_nodes) :
    Built nodes num_nodes (some (makeFlatTree nodes num_nodes)) := by
  obtain ⟨hsum, hnum⟩ := (leaves_adjacent (num_nodes - 1)).built (leaves_built nodes _)
  have hvisit : (makeFlatTree nodes num_nodes).visit =
      (List.range (num_nodes - 1)).map fun i => leaf (nodes + 1 + i) := by
    simp [visit, makeFlatTree]
    simp [leaf]
  refine ⟨_, rfl, Numbered.of_visit (by simp [makeFlatTree]) ?_, ?_⟩
  · rw [hvisit]
    exact hnum
  · rw [size_eq, ← sizes_perm (makeFlatTree nodes num_nodes).visit_perm, hvisit, hsum]
    omega

/-! The recursive constructions -/

/-- No product in the loops of the construction on `n` nodes reaches `w`. -/
def Fits (radix n w : Nat) : Prop := ∀ k, radix ^ k < n → radix ^ (k + 1) < w

theorem Fits.mono {radix w m : Nat} (h : Fits radix n w) (hle : m ≤ n) : Fits radix m w :=
  fun k hk => h k (Nat.lt_of_lt_of_le hk hle)

theorem knomialPieces_spec {radix stride r num_proc : Nat} (hradix : 1 < radix)
    (hfits : Fits radix num_nodes (2 ^ 31)) (hstride : stride = radix ^ k)
    (hle : stride ≤ r) (hr : r ≤ stride * radix) (hdvd : stride ∣ r)
    (hproc : num_proc = r ∨ num_proc = num_nodes) (hn : num_proc ≤ num_nodes)
    (hfuel : 2 * (num_nodes - num_proc) + (if r < stride * radix then 1 else 2) ≤ fuel) :
    ∃ ps, knomialPieces num_nodes radix fuel stride r num_proc = some ps ∧
      Adjacent num_proc ps num_nodes := by
  induction fuel generalizing k stride r num_proc with
  | zero => split at hfuel <;> omega
  | succ fuel ih =>
    rw [knomialPieces]
    by_cases hdone : num_nodes ≤ num_proc
    · rw [if_pos hdone]
      exact ⟨[], rfl, Nat.le_antisymm hn hdone⟩
    · rw [if_neg hdone]
      obtain rfl : num_proc = r := hproc.resolve_right (by omega)
      have hlt : stride * radix < 2 ^ 31 := by
        rw [hstride, ← Nat.pow_succ]
        exact hfits k (by omega)
      rw [if_neg (by omega)]
      have hpos : 0 < stride := by rw [hstride]; exact Nat.pow_pos (by omega)
      by_cases hin : num_proc < stride * radix
      · rw [if_pos hin]
        rw [if_pos hin] at hfuel
        have hnext : num_proc + stride ≤ stride * radix := by
          obtain ⟨j, rfl⟩ := hdvd
          have hj : j < radix := Nat.lt_of_mul_lt_mul_left hin
          rw [← Nat.mul_succ]
          exact Nat.mul_le_mul_left _ hj
        have hmin : 0 < min stride (num_nodes - num_proc) := by omega
        obtain ⟨ps, hps, hadj⟩ := @ih k stride (num_proc + stride)
          (num_proc + min stride (num_nodes - num_proc)) hstride (by omega) hnext
          (Nat.dvd_add hdvd (Nat.dvd_refl _)) (by omega) (by omega) (by split <;> omega)
        refine ⟨(num_proc, min stride (num_nodes - num_proc)) :: ps, ?_, rfl, hmin, hadj⟩
        simp only [hps, Option.map_some]
      · rw [if_neg hin]
        rw [if_neg hin] at hfuel
        obtain rfl : num_proc = stride * radix := by omega
        have hmore : stride * radix < stride * radix * radix :=
          Nat.lt_mul_iff_one_lt_right (by omega) |>.mpr hradix
        refine ih (k := k + 1) (by rw [hstride, Nat.pow_succ]) (Nat.le_refl _)
          (Nat.le_of_lt hmore) (Nat.dvd_refl _) hproc hn ?_
        rw [if_pos hmore]
        omega

theorem make_knomial_built (hradix : 1 < radix) (hfits : Fits radix.toNat num_nodes (2 ^ 31))
    (hpos : 0 < num_nodes) (hfuel : num_nodes ≤ fuel) (nodes : Nat) :
    Built nodes num_nodes (makeKnomialTree radix fuel nodes num_nodes) := by
  induction fuel generalizing nodes num_nodes with
  | zero => omega
  | succ fuel ih =>
    rw [makeKnomialTree, if_neg (by omega)]
    by_cases hone : num_nodes > 1
    · rw [if_pos hone]
      have h1 : 1 < radix.toNat := by omega
      obtain ⟨ps, hps, hadj⟩ := knomialPieces_spec (k := 0) h1 hfits (Nat.pow_zero _).symm
        (Nat.le_refl 1) (by omega) (Nat.dvd_refl 1) (Or.inl rfl) (by omega)
        (show 2 * (num_nodes - 1) + _ ≤ 2 * num_nodes by rw [if_pos (by omega)]; omega)
      obtain ⟨cs, hcs, hbuilt⟩ := pieces_built (makeKnomialTree radix fuel) nodes hadj
        fun p hp => by
          have := hadj.mem hp
          exact ih (hfits.mono (by omega)) this.2.1 (by omega) _
      simp only [hps, hcs, bind, Option.bind]
      exact hbuilt
    · rw [if_neg hone]
      obtain rfl : num_nodes = 1 := by omega
      exact built_leaf nodes

theorem recursivePieces_spec {radix i : Nat} (hradix : 1 < radix)
    (hfits : Fits radix num_nodes (2 ^ 32)) (hi : i = radix ^ k)
    (hfuel : num_nodes + 1 ≤ fuel + min num_nodes i) :
    ∃ ps, recursivePieces num_nodes radix fuel i = some ps ∧
      Adjacent (min num_nodes i) ps num_nodes := by
  induction fuel generalizing k i with
  | zero => omega
  | succ fuel ih =>
    rw [recursivePieces]
    by_cases hlt : i < num_nodes
    · rw [if_pos hlt]
      have hnext : i * radix < 2 ^ 32 := by
        rw [hi, ← Nat.pow_succ]
        exact hfits k (hi ▸ hlt)
      have hmore : i < i * radix := by
        refine Nat.lt_mul_iff_one_lt_right ?_ |>.mpr hradix
        rw [hi]
        exact Nat.pow_pos (by omega)
      obtain ⟨ps, hps, hadj⟩ := @ih (k + 1) (i * radix) (by rw [hi, Nat.pow_succ]) (by omega)
      simp only [Nat.mod_eq_of_lt hnext, hps, Option.map_some]
      refine ⟨_, rfl, by omega, by omega, ?_⟩
      rw [show min num_nodes i + (min num_nodes (i * radix) - i) = min num_nodes (i * radix) by
        omega]
      exact hadj
    · rw [if_neg hlt]
      exact ⟨[], rfl, Nat.min_eq_left (by omega)⟩

theorem make_recursive_built (hradix : 1 < radix)
    (hfits : Fits radix.toNat num_nodes (2 ^ 32)) (hpos : 0 < num_nodes)
    (hfuel : num_nodes ≤ fuel) (nodes : Nat) :
    Built nodes num_nodes (makeRecursiveTree radix fuel nodes num_nodes) := by
  induction fuel generalizing nodes num_nodes with
  | zero => omega
  | succ fuel ih =>
    rw [makeRecursiveTree]
    by_cases hone : num_nodes > 1
    · rw [if_pos hone, if_neg (by omega)]
      obtain ⟨ps, hps, hadj⟩ := recursivePieces_spec (k := 0) (by omega) hfits (Nat.pow_zero _).symm
        (show num_nodes + 1 ≤ num_nodes + min num_nodes 1 by omega)
      rw [show min num_nodes 1 = 1 by omega] at hadj
      obtain ⟨cs, hcs, hbuilt⟩ := pieces_built (makeRecursiveTree radix fuel) nodes hadj
        fun p hp => by
          have := hadj.mem hp
          exact ih (hfits.mono (by omega)) this.2.1 (by omega) _
      simp only [hps, hcs, bind, Option.bind]
      exact hbuilt
    · rw [if_neg hone]
      obtain rfl : num_nodes = 1 := by omega
      exact built_leaf nodes

theorem le_myceil_mul {a b : Nat} (hb : 0 < b) : a ≤ b * myceil a b := by
  have hdiv := Nat.div_add_mod a b
  have hmod := Nat.mod_lt a hb
  unfold myceil
  split
  · rw [Nat.mul_add]
    omega
  · omega

theorem naryPieces_spec (radix : Nat) (hradix : 0 < radix) (hn : 1 < num_nodes) :
    Adjacent 1 (naryPieces num_nodes radix) num_nodes := by
  have hceil : 0 < myceil num_nodes radix := by
    have := le_myceil_mul (a := num_nodes) hradix
    exact Nat.pos_of_ne_zero fun h0 => by rw [h0] at this; omega
  have hall : ∀ m, Adjacent 1 (((List.range (m + 1)).map fun j =>
      let start := if j = 0 then 1 else min num_nodes (j * myceil num_nodes radix)
      (start, min num_nodes ((j + 1) * myceil num_nodes radix) - start)).filter
        fun p => p.2 ≠ 0) (min num_nodes ((m + 1) * myceil num_nodes radix)) := by
    intro m
    induction m with
    | zero =>
      by_cases hskip : min num_nodes (myceil num_nodes radix) = 1
      · simp [hskip, Adjacent]
      · have h1 : min num_nodes (myceil num_nodes radix) - 1 ≠ 0 := by omega
        simp [h1, Adjacent]
        omega
    | succ m ih =>
      rw [List.range_succ, List.map_append, List.filter_append]
      refine ih.append ?_
      simp only [List.map_cons, List.map_nil, Nat.succ_ne_zero, if_false]
      have hmono : (m + 1) * myceil num_nodes radix ≤ (m + 1 + 1) * myceil num_nodes radix :=
        Nat.mul_le_mul_right _ (Nat.le_succ _)
      generalize (m + 1) * myceil num_nodes radix = x at *
      generalize (m + 1 + 1) * myceil num_nodes radix = y at *
      by_cases hskip : min num_nodes y = min num_nodes x
      · simp only [hskip, Nat.sub_self]
        rfl
      · have h1 : min num_nodes y - min num_nodes x ≠ 0 := by omega
        simp [h1, Adjacent]
        omega
  have := hall (radix - 1)
  rw [Nat.sub_add_cancel hradix, Nat.min_eq_left (le_myceil_mul hradix)] at this
  exact this

theorem make_nary_built (hradix : 0 < radix) (hpos : 0 < num_nodes) (hfuel : num_nodes ≤ fuel)
    (nodes : Nat) : Built nodes num_nodes (makeNaryTree radix fuel nodes num_nodes) := by
  induction fuel generalizing nodes num_nodes with
  | zero => omega
  | succ fuel ih =>
    rw [makeNaryTree]
    by_cases hone : num_nodes > 1
    · rw [if_pos hone]
      have hadj := naryPieces_spec radix.toNat (by omega) hone
      have hne : naryPieces num_nodes radix.toNat ≠ [] := by
        intro hnil
        rw [hnil] at hadj
        exact absurd hadj (by simp [Adjacent]; omega)
      obtain ⟨cs, hcs, hbuilt⟩ := pieces_built (makeNaryTree radix fuel) nodes hadj
        fun p hp => by
          have := hadj.mem hp
          exact ih this.2.1 (by omega) _
      simp only [hcs, bind, Option.bind, List.isEmpty_iff, hne, if_false]
      exact hbuilt
    · rw [if_neg hone]
      obtain rfl : num_nodes = 1 := by omega
      exact built_leaf nodes

/-! Chains and forks -/

/-- A child that is put in front of the others is visited last. -/
def Open (t : Tree) : Prop := t.reversed = true ∨ t.children = []

theorem visit_preappendChildren (h : Open t) (c : Tree) :
    (preappendChildren t [c]).visit = t.visit ++ [c] := by
  unfold visit
  rw [reversed_preappendChildren, children_preappendChildren]
  rcases h with h | h
  · simp [h]
  · simp [h]

theorem chain_numbered
    (h : ∀ k u, (t :: ts)[k]? = some u → Numbered (a + sizes ((t :: ts).take k)) u ∧ Open u) :
    Numbered a (makeChainTree t ts) ∧ (makeChainTree t ts).size = sizes (t :: ts) := by
  obtain ⟨ht, hopen⟩ := h 0 t rfl
  induction ts generalizing a t with
  | nil => exact ⟨ht, rfl⟩
  | cons u us ih =>
    have htail : ∀ k w, (u :: us)[k]? = some w →
        Numbered (a + t.size + sizes ((u :: us).take k)) w ∧ Open w := by
      intro k w hw
      have := h (k + 1) w hw
      rwa [List.take_succ_cons, sizes, ← Nat.add_assoc] at this
    obtain ⟨hu, hou⟩ := htail 0 u rfl
    obtain ⟨hchain, hsize⟩ := ih htail hu hou
    have hlast := ht.concat (s := makeChainTree t (u :: us)) (by simp [makeChainTree])
      (visit_preappendChildren hopen _) hchain
    rw [hsize] at hlast
    exact hlast

theorem setReversed_numbered (h : Numbered a t)
    (hv : t.reversed = true ∨ t.children.length ≤ 1) :
    Numbered a (setReversed t) ∧ (setReversed t).size = t.size := by
  have hvisit : (setReversed t).visit = t.visit := by
    unfold visit
    rw [reversed_setReversed, children_setReversed, if_pos rfl]
    rcases hv with hv | hv
    · rw [hv, if_pos rfl]
    · rcases hcs : t.children with - | ⟨c, cs⟩
      · simp
      · rw [hcs] at hv
        obtain rfl : cs = [] := List.eq_nil_of_length_eq_zero (by simpa using hv)
        simp
  refine ⟨Numbered.of_visit ((id_setReversed t).trans h.id_eq) fun k c hc => ?_, ?_⟩
  · rw [hvisit] at hc ⊢
    exact h.child hc
  · rw [size_eq, size_eq, children_setReversed]

@[simp] theorem reversed_makeChainTree (t : Tree) (ts : List Tree) :
    (makeChainTree t ts).reversed = t.reversed := by
  cases ts <;> simp [makeChainTree]

theorem chain_leaves (nodes m : Nat) : Built nodes (m + 1) (some (setReversed
    (makeChainTree (leaf nodes) ((List.range m).map fun i => leaf (nodes + 1 + i))))) := by
  have hadj : Adjacent 0 ((0, 1) :: (List.range m).map fun i => (1 + i, 1)) (1 + m) :=
    ⟨rfl, Nat.one_pos, leaves_adjacent m⟩
  obtain ⟨hsum, hnum⟩ := hadj.built (.cons ⟨numbered_leaf nodes, rfl⟩ (leaves_built nodes m))
  have hopen : ∀ u ∈ leaf nodes :: (List.range m).map fun i => leaf (nodes + 1 + i), Open u := by
    intro u hu
    rcases List.mem_cons.mp hu with rfl | hu
    · exact Or.inr rfl
    · obtain ⟨i, -, rfl⟩ := List.mem_map.mp hu
      exact Or.inr rfl
  obtain ⟨hchain, hsize⟩ := chain_numbered fun k u hu =>
    ⟨hnum k u hu, hopen u (List.mem_of_getElem? hu)⟩
  obtain ⟨hset, hsize'⟩ := setReversed_numbered hchain (by
    cases (List.range m).map fun i => leaf (nodes + 1 + i) <;> simp [makeChainTree])
  exact ⟨_, rfl, hset, by omega⟩

theorem rows_adjacent (stride m : Nat) (h : 0 < stride) :
    Adjacent 0 ((List.range m).map fun i => (stride * i, stride)) (stride * m) := by
  induction m with
  | zero => rfl
  | succ m ih =>
    rw [List.range_succ, List.map_append]
    exact ih.append ⟨rfl, h, rfl⟩

theorem multarr_pos (h : ∀ d ∈ dims, 0 < d) : 0 < dims.prod := by
  induction dims with
  | nil => simp
  | cons d dims ih =>
    rw [List.prod_cons]
    exact Int.mul_pos (h d List.mem_cons_self) (ih fun x hx => h x (List.mem_cons_of_mem _ hx))

theorem make_fork_built (hne : dims ≠ []) (hdims : ∀ d ∈ dims, 0 < d)
    (hprod : dims.prod = num_nodes) (nodes : Nat) :
    ∃ t, makeForkTree dims nodes num_nodes = some t ∧
      (Numbered nodes t ∧ t.size = num_nodes) ∧ t.reversed = true := by
  induction dims generalizing nodes num_nodes with
  | nil => exact absurd rfl hne
  | cons d dims ih =>
    have hd := hdims d List.mem_cons_self
    cases dims with
    | nil =>
      have hdn : d = num_nodes := by simpa using hprod
      have hm : num_nodes = d.toNat - 1 + 1 := by omega
      obtain ⟨t, ht, hbuilt⟩ := chain_leaves nodes (d.toNat - 1)
      refine ⟨t, by rw [makeForkTree, if_pos hdn, ht], hm ▸ hbuilt, ?_⟩
      rw [← Option.some.inj ht, reversed_setReversed]
    | cons d' dims =>
      have hrest : ∀ x ∈ d' :: dims, 0 < x := fun x hx => hdims x (List.mem_cons_of_mem _ hx)
      have hpos : 0 < (d' :: dims).prod := multarr_pos hrest
      obtain ⟨stride, hstride⟩ : ∃ n : Nat, (d' :: dims).prod = n := ⟨_, (Int.toNat_of_nonneg
        (Int.le_of_lt hpos)).symm⟩
      obtain ⟨m, rfl⟩ : ∃ m : Nat, d = m := ⟨_, (Int.toNat_of_nonneg (Int.le_of_lt hd)).symm⟩
      have hn : num_nodes = stride * m := by
        rw [List.prod_cons, hstride] at hprod
        exact_mod_cast hprod.symm.trans (Int.mul_comm _ _)
      obtain ⟨ts, hts, hall⟩ := mapM_built (List.range m)
        (f := fun i => makeForkTree (d' :: dims) (nodes + stride * i) stride)
        (R := fun i t => BuiltOn nodes (stride * i, stride) t ∧ t.reversed = true)
        fun i _ => ih (by simp) hrest hstride _
      have hbuilt : List.Forall₂ (BuiltOn nodes)
          ((List.range m).map fun i => (stride * i, stride)) ts := by
        rw [List.forall₂_map_left_iff]
        exact hall.imp fun _ _ h => h.1
      obtain ⟨hsum, hnum⟩ := (rows_adjacent stride m (by omega)).built hbuilt
      have hopen : ∀ u ∈ ts, u.reversed = true := by
        intro u hu
        obtain ⟨k, hk, rfl⟩ := List.mem_iff_getElem.mp hu
        obtain ⟨hlen, hget⟩ := List.forall₂_iff_get.mp hall
        exact (hget k (hlen ▸ hk) hk).2
      cases ts with
      | nil =>
        have := hall.length_eq
        simp at this
        omega
      | cons t ts =>
        obtain ⟨hchain, hsize⟩ := chain_numbered fun k u hu =>
          ⟨hnum k u hu, Or.inl (hopen u (List.mem_of_getElem? hu))⟩
        obtain ⟨hset, hsize'⟩ := setReversed_numbered hchain (Or.inl (by
          rw [reversed_makeChainTree]
          exact hopen t List.mem_cons_self))
        refine ⟨_, ?_, ⟨hset, by omega⟩, reversed_setReversed _⟩
        rw [makeForkTree, if_pos ⟨hprod, Int.le_of_lt hd⟩]
        · simp [hstride, hts]
        · simp

end Gasnet.Coll
