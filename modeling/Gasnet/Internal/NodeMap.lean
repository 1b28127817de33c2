import Mathlib.Order.Bounds.Basic
import Mathlib.Order.Compare
import Mathlib.Tactic.Set

/-! The node map from a vector of host ids: the linear helper, the one that sorts, and the layouts on which
they agree. -/
namespace Gasnet.NodeMap

variable {α : Type*} {ids : Nat → α} {nodes i j k : Nat}

/-- `prev` and `base`, which are also where `prev_p` and `base_p` point, and the map. -/
structure Cursors where
  map : Nat → Nat
  prev : Nat
  base : Nat

section Linear

variable [DecidableEq α]

/-- A pass of the loop of `gasneti_nodemap_helper_linear`. -/
def linearStep (ids : Nat → α) (s : Cursors) (i : Nat) : Cursors :=
  if ids i = ids s.prev then
    { s with map := Function.update s.map i (s.map s.prev), prev := s.prev + 1 }
  else
    let map := Function.update s.map i i
    let s :=
      if ids i = ids 0 then { s with prev := 0 }
      else if ids i = ids s.base then { s with prev := s.base }
      else if ids i = ids (s.prev + 1) then { s with prev := s.prev + 1 }
      else { s with prev := i, base := i }
    { s with map := Function.update map i (map s.prev) }

/-- The cursors and the map after the passes for 1 to `i`. -/
def linearPasses (ids : Nat → α) : Nat → Cursors
  | 0 => ⟨fun _ => 0, 0, 0⟩
  | i + 1 => linearStep ids (linearPasses ids i) (i + 1)

/-- `gasneti_nodemap_helper_linear`. -/
def linear (ids : Nat → α) (nodes : Nat) : Nat → Nat := (linearPasses ids (nodes - 1)).map

end Linear

section Qsort

variable [LinearOrder α]

/-- `_gasneti_nodemap_sort_fn`. -/
def sortFn (ids : Nat → α) (key1 key2 : Nat) : Int :=
  match cmp (ids key1) (ids key2) with
  | .lt => -1
  | .gt => 1
  | .eq => if key1 < key2 then -1 else 1

/-- The order of `qsort`. -/
def sortLe (ids : Nat → α) (a b : Nat) : Bool := ¬sortFn ids b a < 0

/-- The loop of `gasneti_nodemap_helper_qsort` over what is left of `work`. -/
def qsortPasses (ids : Nat → α) (map : Nat → Nat) (prev : Nat) (prevId : α) : List Nat → Nat → Nat
  | [] => map
  | node :: work =>
    let prev := if ids node ≠ prevId then node else prev
    qsortPasses ids (Function.update map node prev) prev (ids node) work

/-- `gasneti_nodemap_helper_qsort`. -/
def qsort (ids : Nat → α) (nodes : Nat) : Nat → Nat :=
  match (List.range nodes).mergeSort (sortLe ids) with
  | [] => fun _ => 0
  | prev :: work =>
    qsortPasses ids (Function.update (fun _ => 0) prev prev) prev (ids prev) work

end Qsort

/-- What a map needs to be safe: a process is mapped to one of its host, not above it, that is mapped to
itself. -/
structure Safe (ids : Nat → α) (map : Nat → Nat) (i : Nat) : Prop where
  le : map i ≤ i
  same : ids (map i) = ids i
  idem : map (map i) = map i

/-- The least rank on the host of `i`. -/
def Leads (ids : Nat → α) (m i : Nat) : Prop := IsLeast {j | ids j = ids i} m

/-- The ranks of a host follow each other. -/
def Block (ids : Nat → α) (nodes : Nat) : Prop :=
  ∀ i j k, i ≤ j → j ≤ k → k < nodes → ids i = ids k → ids j = ids i

/-- Blocks of `size` ranks go to `hosts` hosts in turn; `size = 1` is the cyclic layout. -/
structure BlockCyclic (ids : Nat → α) (nodes hosts size : Nat) : Prop where
  hosts_pos : 0 < hosts
  size_pos : 0 < size
  id : ∃ host : Nat → α, (∀ a < hosts, ∀ b < hosts, host a = host b → a = b) ∧
    ∀ i < nodes, ids i = host (i / size % hosts)

section Linear

variable [DecidableEq α]

/-- A pass takes the value of a rank on the same host, which is not above `i`. -/
theorem linearStep_cases (ids : Nat → α) {s : Cursors} (hprev : s.prev < i) (hbase : s.base < i) :
    ∃ p ≤ i, ids p = ids i ∧
      (linearStep ids s i).map = Function.update s.map i (if p = i then i else s.map p) ∧
      (linearStep ids s i).prev ≤ i ∧ (linearStep ids s i).base ≤ i := by
  have hmap : ∀ p, Function.update (Function.update s.map i i) i (Function.update s.map i i p) =
      Function.update s.map i (if p = i then i else s.map p) := by
    intro p
    rw [Function.update_idem, Function.update_apply]
  unfold linearStep
  by_cases h₁ : ids i = ids s.prev
  · refine ⟨s.prev, hprev.le, h₁.symm, ?_⟩
    rw [if_pos h₁, if_neg hprev.ne]
    exact ⟨rfl, hprev, hbase.le⟩
  · rw [if_neg h₁]
    by_cases h₂ : ids i = ids 0
    · rw [if_pos h₂]
      exact ⟨0, Nat.zero_le i, h₂.symm, hmap 0, Nat.zero_le i, hbase.le⟩
    · rw [if_neg h₂]
      by_cases h₃ : ids i = ids s.base
      · rw [if_pos h₃]
        exact ⟨s.base, hbase.le, h₃.symm, hmap s.base, hbase.le, hbase.le⟩
      · rw [if_neg h₃]
        by_cases h₄ : ids i = ids (s.prev + 1)
        · rw [if_pos h₄]
          exact ⟨s.prev + 1, hprev, h₄.symm, hmap (s.prev + 1), hprev, hbase.le⟩
        · rw [if_neg h₄]
          exact ⟨i, le_rfl, rfl, hmap i, le_rfl, le_rfl⟩

/-- For arbitrary ids the map is safe. -/
theorem linearPasses_safe (ids : Nat → α) (i : Nat) :
    (∀ j ≤ i, Safe ids (linearPasses ids i).map j) ∧
      (linearPasses ids i).prev ≤ i ∧ (linearPasses ids i).base ≤ i := by
  induction i with
  | zero =>
    refine ⟨fun j hj => ?_, le_rfl, le_rfl⟩
    obtain rfl := Nat.le_zero.1 hj
    exact ⟨le_rfl, rfl, rfl⟩
  | succ i ih =>
    obtain ⟨hsafe, hprev, hbase⟩ := ih
    obtain ⟨p, hp, hid, hmap, hprev', hbase'⟩ :=
      linearStep_cases ids (Nat.lt_succ_of_le hprev) (Nat.lt_succ_of_le hbase)
    refine ⟨fun j hj => ?_, hprev', hbase'⟩
    rw [linearPasses]
    set s := linearPasses ids i with hs
    have hold : ∀ m, m ≤ i → (linearStep ids s (i + 1)).map m = s.map m := by
      intro m hm
      rw [hmap, Function.update_of_ne (by omega)]
    rcases Nat.le_succ_iff.1 hj with hj | rfl
    · have h := hsafe j hj
      refine ⟨?_, ?_, ?_⟩
      · rw [hold j hj]
        exact h.le
      · rw [hold j hj]
        exact h.same
      · rw [hold j hj, hold _ (h.le.trans hj)]
        exact h.idem
    · have hself : (linearStep ids s (i + 1)).map (i + 1) =
          if p = i + 1 then i + 1 else s.map p := by
        rw [hmap, Function.update_self]
      by_cases hpi : p = i + 1
      · rw [if_pos hpi] at hself
        exact ⟨hself.le, by rw [hself], by rw [hself, hself]⟩
      · rw [if_neg hpi] at hself
        have h := hsafe p (by omega)
        have hle : s.map p ≤ i := h.le.trans (by omega)
        refine ⟨?_, ?_, ?_⟩
        · rw [hself]
          omega
        · rw [hself, h.same, hid]
        · rw [hself, hold _ hle, h.idem]

end Linear

section Leads

variable {m : Nat}

theorem Leads.unique {n : Nat} (h : Leads ids m i) (h' : Leads ids n i) : m = n := IsLeast.unique h h'

theorem Leads.of_same (h : Leads ids m i) (hij : ids i = ids j) : Leads ids m j := by
  unfold Leads at h ⊢
  rwa [← hij]

end Leads

section Layouts

section Block

variable [DecidableEq α]

/-- The state after the passes in a block layout. -/
theorem linearPasses_block (h : Block ids nodes) (hi : i < nodes) :
    (linearPasses ids i).prev = i ∧ (linearPasses ids i).base = 0 ∧
      ∀ j ≤ i, Leads ids ((linearPasses ids i).map j) j := by
  induction i with
  | zero =>
    refine ⟨rfl, rfl, fun j hj => ?_⟩
    obtain rfl := Nat.le_zero.1 hj
    exact ⟨rfl, fun k _ => Nat.zero_le k⟩
  | succ i ih =>
    obtain ⟨hprev, hbase, hmap⟩ := ih (Nat.lt_of_succ_lt hi)
    rw [linearPasses]
    set s := linearPasses ids i with hs
    by_cases hsame : ids (i + 1) = ids i
    · have hstep : linearStep ids s (i + 1) =
          { s with map := Function.update s.map (i + 1) (s.map i), prev := i + 1 } := by
        rw [linearStep, hprev, if_pos hsame]
      rw [hstep]
      refine ⟨rfl, hbase, fun j hj => ?_⟩
      rcases Nat.le_succ_iff.1 hj with hj | rfl
      · show Leads ids (Function.update s.map (i + 1) (s.map i) j) j
        rw [Function.update_of_ne (by omega)]
        exact hmap j hj
      · show Leads ids (Function.update s.map (i + 1) (s.map i) (i + 1)) (i + 1)
        rw [Function.update_self]
        exact (hmap i le_rfl).of_same hsame.symm
    · have hfirst : ∀ k ≤ i, ids (i + 1) ≠ ids k := by
        intro k hk heq
        exact hsame (heq.trans (h k i (i + 1) hk (Nat.le_succ i) hi heq.symm).symm)
      have hstep : linearStep ids s (i + 1) =
          { s with map := Function.update s.map (i + 1) (i + 1), prev := i + 1 } := by
        rw [linearStep, hprev, if_neg hsame, if_neg (hfirst 0 (Nat.zero_le i)), hbase,
          if_neg (hfirst 0 (Nat.zero_le i)), if_pos rfl]
        simp only [Function.update_self, Function.update_idem]
      rw [hstep]
      refine ⟨rfl, hbase, fun j hj => ?_⟩
      rcases Nat.le_succ_iff.1 hj with hj | rfl
      · show Leads ids (Function.update s.map (i + 1) (i + 1) j) j
        rw [Function.update_of_ne (by omega)]
        exact hmap j hj
      · show Leads ids (Function.update s.map (i + 1) (i + 1) (i + 1)) (i + 1)
        rw [Function.update_self]
        refine ⟨rfl, fun k hk => ?_⟩
        by_contra hlt
        exact hfirst k (by omega) (show ids k = ids (i + 1) from hk).symm

end Block

/-- The first rank of the block of `i` in the first round. -/
def firstOf (hosts size i : Nat) : Nat := i % (size * hosts) / size * size

namespace BlockCyclic

variable {hosts size : Nat}

theorem leads (h : BlockCyclic ids nodes hosts size) (hi : i < nodes) :
    Leads ids (firstOf hosts size i) i := by
  obtain ⟨host, hinj, hid⟩ := h.id
  have hdiv : i % (size * hosts) / size = i / size % hosts := Nat.mod_mul_right_div_self _ _ _
  have hle : i / size % hosts * size ≤ i :=
    (Nat.mul_le_mul_right size (Nat.mod_le _ _)).trans (Nat.div_mul_le_self i size)
  unfold firstOf
  rw [hdiv]
  refine ⟨?_, fun j hj => ?_⟩
  · show ids _ = ids i
    rw [hid _ (hle.trans_lt hi), hid i hi, Nat.mul_div_cancel _ h.size_pos, Nat.mod_mod]
  · by_contra hlt
    have hji : j < nodes := by omega
    have heq : ids j = ids i := hj
    rw [hid j hji, hid i hi] at heq
    have hmod := hinj _ (Nat.mod_lt _ h.hosts_pos) _ (Nat.mod_lt _ h.hosts_pos) heq
    have hjle : j / size % hosts * size ≤ j :=
      (Nat.mul_le_mul_right size (Nat.mod_le _ _)).trans (Nat.div_mul_le_self j size)
    rw [hmod] at hjle
    omega

/-- With one host there is one block. -/
theorem block (h : BlockCyclic ids nodes 1 size) : Block ids nodes := by
  obtain ⟨host, -, hid⟩ := h.id
  intro i j k hij hjk hk _
  rw [hid i (by omega), hid j (by omega), Nat.mod_one, Nat.mod_one]

/-- The state after the passes in a block-cyclic layout of several hosts. -/
theorem linearPasses [DecidableEq α] (h : BlockCyclic ids nodes hosts size) (hhosts : 2 ≤ hosts) (hi : i < nodes) :
    (linearPasses ids i).prev = i % (size * hosts) ∧ (linearPasses ids i).base = 0 ∧
      ∀ j ≤ i, (linearPasses ids i).map j = firstOf hosts size j := by
  obtain ⟨host, hinj, hid⟩ := h.id
  have hpos := h.size_pos
  have hround : size ≤ size * hosts := Nat.le_mul_of_pos_right size h.hosts_pos
  have hlt : ∀ k, k % (size * hosts) / size < hosts := fun k => by
    rw [Nat.mod_mul_right_div_self]
    exact Nat.mod_lt _ h.hosts_pos
  have hhost : ∀ k < nodes, ids k = host (k % (size * hosts) / size) := fun k hk => by
    rw [Nat.mod_mul_right_div_self]
    exact hid k hk
  have hsame : ∀ a < nodes, ∀ b < nodes, ids a = ids b ↔
      a % (size * hosts) / size = b % (size * hosts) / size := by
    intro a ha b hb
    rw [hhost a ha, hhost b hb]
    exact ⟨hinj _ (hlt a) _ (hlt b), fun heq => by rw [heq]⟩
  induction i with
  | zero =>
    refine ⟨(Nat.zero_mod _).symm, rfl, fun j hj => ?_⟩
    obtain rfl := Nat.le_zero.1 hj
    simp [firstOf, NodeMap.linearPasses]
  | succ i ih =>
    obtain ⟨hprev, hbase, hmap⟩ := ih (Nat.lt_of_succ_lt hi)
    rw [NodeMap.linearPasses]
    set s := NodeMap.linearPasses ids i with hs
    set P := size * hosts with hP
    have hple : i % P ≤ i := Nat.mod_le _ _
    have hprevP : i % P < P := Nat.mod_lt _ (by omega)
    have hfirst : ∀ {map : Nat → Nat} {v : Nat}, (∀ j ≤ i, map j = firstOf hosts size j) →
        v = firstOf hosts size (i + 1) →
        ∀ j ≤ i + 1, Function.update map (i + 1) v j = firstOf hosts size j := by
      intro map v hold hv j hj
      rcases Nat.le_succ_iff.1 hj with hj | rfl
      · rw [Function.update_of_ne (by omega)]
        exact hold j hj
      · rw [Function.update_self, hv]
    have hprevId := hsame (i + 1) hi (i % P) (by omega)
    have hzeroId := hsame (i + 1) hi 0 (by omega)
    rw [Nat.mod_mod] at hprevId
    rw [Nat.zero_mod, Nat.zero_div] at hzeroId
    unfold linearStep
    rw [hprev, hbase]
    rcases Nat.lt_or_ge (i % P + 1) P with hin | hend
    · have hmod : (i + 1) % P = i % P + 1 := by
        rw [← Nat.mod_add_mod, Nat.mod_eq_of_lt hin]
      rw [hmod] at hprevId hzeroId
      by_cases hrep : (i % P + 1) / size = i % P / size
      · -- The next rank of the block.
        rw [if_pos (hprevId.2 hrep)]
        refine ⟨hmod.symm, rfl, hfirst hmap ?_⟩
        rw [hmap _ hple, firstOf, firstOf, Nat.mod_mod, hmod, hrep]
      · -- The first rank of the next block, in this round or in the first one.
        have hsucc := @Nat.succ_div (i % P) size
        have hdvd : size ∣ i % P + 1 := by
          by_contra hnot
          rw [if_neg hnot, Nat.add_zero] at hsucc
          exact hrep hsucc
        rw [if_pos hdvd] at hsucc
        have hzero : ¬ids (i + 1) = ids 0 := by
          rw [hzeroId, hsucc]
          exact Nat.succ_ne_zero _
        have hnext : ids (i + 1) = ids (i % P + 1) := by
          rw [hsame _ hi _ (by omega), hmod, Nat.mod_eq_of_lt hin]
        rw [if_neg (mt hprevId.1 hrep), if_neg hzero, if_neg hzero, if_pos hnext]
        refine ⟨hmod.symm, rfl, ?_⟩
        show ∀ j ≤ i + 1, Function.update (Function.update s.map (i + 1) (i + 1)) (i + 1)
          (Function.update s.map (i + 1) (i + 1) (i % P + 1)) j = firstOf hosts size j
        rw [Function.update_idem]
        refine hfirst hmap ?_
        have hself : (i % P + 1) / size * size = i % P + 1 := Nat.div_mul_cancel hdvd
        by_cases hfst : i % P + 1 = i + 1
        · rw [hfst, Function.update_self, firstOf, hmod, hself, hfst]
        · rw [Function.update_of_ne hfst, hmap _ (by omega), firstOf, firstOf, hmod,
            Nat.mod_eq_of_lt hin]
    · -- A new round begins.
      have hmod : (i + 1) % P = 0 := by
        rw [← Nat.mod_add_mod, (by omega : i % P + 1 = P), Nat.mod_self]
      rw [hmod, Nat.zero_div] at hprevId hzeroId
      have hlast : ¬ids (i + 1) = ids (i % P) := by
        rw [hprevId]
        have htwo : size * 2 ≤ P := Nat.mul_le_mul_left size hhosts
        exact (Nat.div_pos (by omega) hpos).ne
      rw [if_neg hlast, if_pos (hzeroId.2 rfl)]
      refine ⟨hmod.symm, rfl, ?_⟩
      show ∀ j ≤ i + 1, Function.update (Function.update s.map (i + 1) (i + 1)) (i + 1)
        (Function.update s.map (i + 1) (i + 1) 0) j = firstOf hosts size j
      rw [Function.update_idem]
      refine hfirst hmap ?_
      rw [Function.update_of_ne (by omega), hmap 0 (Nat.zero_le i), firstOf, firstOf, hmod,
        Nat.zero_mod]

end BlockCyclic

end Layouts

section Sorted

variable [LinearOrder α]

theorem sortLe_iff {a b : Nat} : sortLe ids a b = true ↔
    ids a < ids b ∨ ids a = ids b ∧ a ≤ b := by
  unfold sortLe sortFn
  have hcmp := cmp_compares (ids b) (ids a)
  cases hc : cmp (ids b) (ids a) with
  | lt =>
    rw [hc] at hcmp
    have hlt : ids b < ids a := hcmp
    simp [hlt.not_gt, hlt.ne']
  | eq =>
    rw [hc] at hcmp
    have heq : ids b = ids a := hcmp
    by_cases hba : b < a <;> simp [heq, hba, Nat.not_le.2, Nat.not_lt.1]
  | gt =>
    rw [hc] at hcmp
    have hlt : ids a < ids b := hcmp
    simp [hlt]

theorem sortLe_trans (a b c : Nat) (hab : sortLe ids a b = true) (hbc : sortLe ids b c = true) :
    sortLe ids a c = true := by
  rw [sortLe_iff] at hab hbc ⊢
  rcases hab with hab | ⟨hab, hle⟩
  · rcases hbc with hbc | ⟨hbc, -⟩
    · exact .inl (hab.trans hbc)
    · exact .inl (hbc ▸ hab)
  · rcases hbc with hbc | ⟨hbc, hle'⟩
    · exact .inl (hab ▸ hbc)
    · exact .inr ⟨hab.trans hbc, hle.trans hle'⟩

theorem sortLe_total (a b : Nat) : (sortLe ids a b || sortLe ids b a) = true := by
  rw [Bool.or_eq_true, sortLe_iff, sortLe_iff]
  rcases lt_trichotomy (ids a) (ids b) with h | h | h
  · exact .inl (.inl h)
  · rcases Nat.le_total a b with hab | hab
    · exact .inl (.inr ⟨h, hab⟩)
    · exact .inr (.inr ⟨h.symm, hab⟩)
  · exact .inr (.inl h)

theorem qsortPasses_of_not_mem {map : Nat → Nat} {prev : Nat} {prevId : α} {work : List Nat}
    (hi : i ∉ work) : qsortPasses ids map prev prevId work i = map i := by
  induction work generalizing map prev prevId with
  | nil => rfl
  | cons node work ih =>
    rw [List.mem_cons, not_or] at hi
    rw [qsortPasses, ih hi.2, Function.update_of_ne hi.1]

/-- Over what is left of a sorted list each process gets the least rank on its host. -/
theorem qsortPasses_leads (front : List Nat) {work : List Nat} {last prev : Nat} {map : Nat → Nat}
    (hsorted : (front ++ last :: work).Pairwise fun a b => sortLe ids a b = true)
    (hnodup : (front ++ last :: work).Nodup) (hall : ∀ k < nodes, k ∈ front ++ last :: work)
    (hnodes : ∀ k ∈ work, k < nodes) (hprev : Leads ids prev last) (hi : i ∈ work) :
    Leads ids (qsortPasses ids map prev (ids last) work i) i := by
  induction work generalizing front last prev map with
  | nil => cases hi
  | cons node work ih =>
    have hnext : Leads ids (if ids node ≠ ids last then node else prev) node := by
      by_cases hsame : ids node = ids last
      · rw [if_neg (not_not.2 hsame)]
        exact hprev.of_same hsame.symm
      · rw [if_pos hsame]
        refine ⟨rfl, fun j hj => ?_⟩
        by_contra hlt
        have hj : ids j = ids node := hj
        have hmem := hall j (by have := hnodes node List.mem_cons_self; omega)
        rw [List.pairwise_append, List.pairwise_cons] at hsorted
        obtain ⟨-, ⟨hlast, hwork⟩, hfront⟩ := hsorted
        -- Before `last` all ids are at most its id, and behind it no lower rank has the id of `node`.
        have hle := (sortLe_iff.1 (hlast node List.mem_cons_self)).resolve_right fun h => hsame h.1.symm
        rcases List.mem_append.1 hmem with hmem | hmem
        · rcases sortLe_iff.1 (hfront j hmem last List.mem_cons_self) with h | ⟨h, -⟩
          · exact lt_asymm hle (hj ▸ h)
          · exact hsame (hj ▸ h)
        · rcases List.mem_cons.1 hmem with rfl | hmem
          · exact hsame hj.symm
          · rcases List.mem_cons.1 hmem with rfl | hmem
            · exact hlt le_rfl
            · rcases sortLe_iff.1 ((List.pairwise_cons.1 hwork).1 j hmem) with h | ⟨-, h⟩
              · exact h.ne hj.symm
              · exact hlt h
    rw [qsortPasses]
    by_cases hin : i ∈ work
    · rw [List.append_cons] at hsorted hnodup hall
      exact ih (front ++ [last]) hsorted hnodup hall (fun k hk => hnodes k (List.mem_cons_of_mem _ hk)) hnext hin
    · obtain rfl : i = node := (List.mem_cons.1 hi).resolve_right hin
      rw [qsortPasses_of_not_mem hin, Function.update_self]
      exact hnext

/-- The helper that sorts is exact. -/
theorem qsort_leads (hi : i < nodes) : Leads ids (qsort ids nodes i) i := by
  have hsorted := @List.pairwise_mergeSort Nat (sortLe ids) sortLe_trans sortLe_total
    (List.range nodes)
  have hperm := List.mergeSort_perm (List.range nodes) (sortLe ids)
  have hnodup := hperm.nodup_iff.2 List.nodup_range
  have hmem : ∀ k, k ∈ (List.range nodes).mergeSort (sortLe ids) ↔ k < nodes := fun k => by
    rw [hperm.mem_iff, List.mem_range]
  unfold qsort
  cases hw : (List.range nodes).mergeSort (sortLe ids) with
  | nil =>
    have := (hmem i).2 hi
    rw [hw] at this
    cases this
  | cons prev work =>
    rw [hw] at hsorted hnodup
    simp only [hw] at hmem
    have hfirst : Leads ids prev prev := by
      refine ⟨rfl, fun j hj => ?_⟩
      by_contra hlt
      have hprev := (hmem prev).1 List.mem_cons_self
      have hjw : j ∈ work := by
        rcases List.mem_cons.1 ((hmem j).2 (by omega)) with rfl | h
        · exact absurd le_rfl hlt
        · exact h
      rcases sortLe_iff.1 ((List.pairwise_cons.1 hsorted).1 j hjw) with h | ⟨-, h⟩
      · exact h.ne (show ids j = ids prev from hj).symm
      · exact hlt h
    dsimp only
    by_cases hin : i ∈ work
    · exact qsortPasses_leads [] hsorted hnodup (fun k hk => (hmem k).2 hk)
        (fun k hk => (hmem k).1 (List.mem_cons_of_mem _ hk)) hfirst hin
    · obtain rfl : i = prev := (List.mem_cons.1 ((hmem i).2 hi)).resolve_right hin
      rw [qsortPasses_of_not_mem hin, Function.update_self]
      exact hfirst

/-- The helper that sorts is exact for all ids, the linear one is safe for all ids, and they agree on the
layouts that the linear one is for. -/
theorem nodemap_helpers (ids : Nat → α) (nodes : Nat) :
    (∀ i < nodes, IsLeast {j | ids j = ids i} (qsort ids nodes i)) ∧
    (∀ i < nodes, Safe ids (linear ids nodes) i) ∧
    ((Block ids nodes ∨ ∃ hosts size, BlockCyclic ids nodes hosts size) →
      ∀ i < nodes, linear ids nodes i = qsort ids nodes i) := by
  refine ⟨fun i hi => qsort_leads hi, fun i hi => ?_, fun h i hi => ?_⟩
  · exact (linearPasses_safe ids (nodes - 1)).1 i (by omega)
  · refine Leads.unique ?_ (qsort_leads hi)
    have hblock : Block ids nodes → Leads ids (linear ids nodes i) i := fun hb =>
      (linearPasses_block hb (i := nodes - 1) (by omega)).2.2 i (by omega)
    rcases h with hb | ⟨hosts, size, hc⟩
    · exact hblock hb
    · by_cases hhosts : 2 ≤ hosts
      · have hmap := (hc.linearPasses hhosts (i := nodes - 1) (by omega)).2.2 i (by omega)
        unfold linear
        rw [hmap]
        exact hc.leads hi
      · obtain rfl : hosts = 1 := by
          have := hc.hosts_pos
          omega
        exact hblock hc.block

end Sorted

end Gasnet.NodeMap
