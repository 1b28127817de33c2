import Gasnet.Coll.BootstrapExchange
import Mathlib.Data.List.Sort

/-! The order in which a leader gets the data of the processes, and how it is put in rank order:
by a rotation when the neighborhoods are contiguous, else by the permutation. -/
namespace Gasnet.Coll.Nodemap

open Exchange Rotation Dissemination

variable {nodes size : Nat} {m : Nodemap nodes size} {r k : Fin size} {i n d len : Nat}
  {src : Fin nodes → List UInt8}

/-- The processes in the order of the buffer of `r`. -/
def order (m : Nodemap nodes size) (r : Fin size) : List (Fin nodes) :=
  (List.range size).flatMap fun d => m.members (ahead r d)

theorem mem_members {i : Fin nodes} : i ∈ m.members k ↔ m.supernode i = k := by
  simp [members]

theorem width_pos (m : Nodemap nodes size) (k : Fin size) : 0 < m.width k := by
  obtain ⟨i, hi⟩ := m.nonempty k
  exact List.length_pos_of_mem (mem_members.mpr hi)

/-- Every process is in one neighborhood. -/
theorem sum_width (m : Nodemap nodes size) : ∑ k, m.width k = nodes := by
  have hcount : ∀ l : List (Fin nodes),
      ∑ k, (l.filter fun i => m.supernode i = k).length = l.length := by
    intro l
    induction l with
    | nil => simp
    | cons i l ih =>
      have hone : ∀ k, ((i :: l).filter fun i => m.supernode i = k).length =
          (if m.supernode i = k then 1 else 0) + (l.filter fun i => m.supernode i = k).length := by
        intro k
        by_cases h : m.supernode i = k <;> simp [h, Nat.add_comm]
      rw [Finset.sum_congr rfl fun k _ => hone k, Finset.sum_add_distrib, ih]
      simp [Nat.add_comm]
  exact (hcount _).trans (List.length_finRange)

theorem length_order (m : Nodemap nodes size) (r : Fin size) : (m.order r).length = nodes := by
  have := length_gather (fun k => m.members k) r size
  rw [extent_all] at this
  exact this.trans m.sum_width

/-- The `n`-th process of the neighborhood that is `d` places ahead. -/
theorem order_getElem (hd : d < size) (hn : n < m.width (ahead r d)) :
    (m.order r)[Rotation.extent m.width r d + n]? = some ((m.members (ahead r d))[n]) := by
  have hsplit : m.order r = gather (fun k => m.members k) r d ++
      gather (fun k => m.members k) (ahead r d) (1 + (size - d - 1)) := by
    rw [← gather_add]
    show gather (fun k => m.members k) r size = _
    congr 1
    omega
  have hlen : (gather (fun k => m.members k) r d).length = Rotation.extent m.width r d :=
    length_gather ..
  have hone : gather (fun k => m.members k) (ahead r d) 1 = m.members (ahead r d) := by
    simp [gather, List.range_succ]
  rw [hsplit, List.getElem?_append_right (by omega), hlen, Nat.add_sub_cancel_left, gather_add, hone,
    List.getElem?_append_left hn, List.getElem?_eq_getElem hn]

/-- Every place of the buffer is one of these. -/
theorem exists_place (hn : n < nodes) :
    ∃ d < size, ∃ i < m.width (ahead r d), n = Rotation.extent m.width r d + i := by
  have hfind : ∀ e, n < Rotation.extent m.width r e → ∃ d < e, ∃ i < m.width (ahead r d),
      n = Rotation.extent m.width r d + i := by
    intro e
    induction e with
    | zero => exact fun h => absurd h (Nat.not_lt_zero n)
    | succ e ih =>
      intro h
      by_cases hlt : n < Rotation.extent m.width r e
      · obtain ⟨d, hd, i, hi, heq⟩ := ih hlt
        exact ⟨d, by omega, i, hi, heq⟩
      · rw [extent_succ] at h
        exact ⟨e, by omega, n - Rotation.extent m.width r e, by omega, by omega⟩
  exact hfind size (by rw [extent_all, m.sum_width]; exact hn)

theorem extent_lt (hd : d < size) (hi : i < m.width (ahead r d)) :
    Rotation.extent m.width r d + i < nodes := by
  have := extent_mono (w := m.width) (r := r) (m := d + 1) (n := size) (by omega)
  rw [extent_succ, extent_all, m.sum_width] at this
  omega

/-- Places of different neighborhoods are different. -/
theorem place_inj {e j : Nat} (hi : i < m.width (ahead r d)) (hj : j < m.width (ahead r e))
    (h : Rotation.extent m.width r d + i = Rotation.extent m.width r e + j) : d = e ∧ i = j := by
  rcases Nat.lt_trichotomy d e with hlt | rfl | hlt
  · have := extent_mono (w := m.width) (r := r) (m := d + 1) (n := e) (by omega)
    rw [extent_succ] at this
    omega
  · exact ⟨rfl, by omega⟩
  · have := extent_mono (w := m.width) (r := r) (m := e + 1) (n := d) (by omega)
    rw [extent_succ] at this
    omega

theorem ahead_inj {e : Nat} (hd : d < size) (he : e < size) (h : ahead r d = ahead r e) : d = e := by
  have hv : r.val + d ≡ r.val + e [MOD size] := congrArg Fin.val h
  exact Nat.ModEq.eq_of_lt_of_lt (Nat.ModEq.add_left_cancel' _ hv) hd he

theorem exists_ahead (r k : Fin size) : ∃ d < size, ahead r d = k := by
  refine ⟨(k.val + size - r.val) % size, Nat.mod_lt _ r.pos, Fin.ext ?_⟩
  show (r.val + (k.val + size - r.val) % size) % size = k.val
  rw [Nat.add_mod_mod, show r.val + (k.val + size - r.val) = k.val + size by omega,
    Nat.add_mod_right, Nat.mod_eq_of_lt k.isLt]

theorem offsets_eq (hi : i ≤ size) : (m.offsets r i).2 = Rotation.extent m.width r i ∧
    ∀ d < i, (m.offsets r i).1 (ahead r d) = Rotation.extent m.width r d := by
  induction i with
  | zero => exact ⟨rfl, fun d hd => absurd hd (Nat.not_lt_zero d)⟩
  | succ i ih =>
    obtain ⟨hsum, hoff⟩ := ih (by omega)
    refine ⟨?_, fun d hd => ?_⟩
    · show (m.offsets r i).2 + m.width (ahead r i) = _
      rw [hsum, extent_succ]
    · show Function.update (m.offsets r i).1 (ahead r i) (m.offsets r i).2 (ahead r d) = _
      by_cases heq : d = i
      · rw [heq, Function.update_self, hsum]
      · rw [Function.update_of_ne fun h => heq (ahead_inj (by omega) (by omega) h)]
        exact hoff d (by omega)

/-- The part of `l` in a neighborhood. -/
def part (m : Nodemap nodes size) (l : List (Fin nodes)) (k : Fin size) : List (Fin nodes) :=
  l.filter fun i => m.supernode i = k

theorem part_concat {l : List (Fin nodes)} {x : Fin nodes} :
    m.part (l ++ [x]) k = m.part l k ++ if m.supernode x = k then [x] else [] := by
  by_cases h : m.supernode x = k <;> simp [part, h]

theorem part_split {l l' : List (Fin nodes)} (h : l ++ l' = List.finRange nodes) :
    m.members k = m.part l k ++ m.part l' k := by
  rw [members, ← h, List.filter_append]
  rfl

/-- The scan puts the processes of a neighborhood one after the other. -/
theorem scan_eq {l l' : List (Fin nodes)} (h : l ++ l' = List.finRange nodes) :
    (∀ d < size, (m.scan r l).1 (ahead r d) =
      Rotation.extent m.width r d + (m.part l (ahead r d)).length) ∧
    ∀ d < size, ∀ i x, (m.part l (ahead r d))[i]? = some x →
      (m.scan r l).2 (Rotation.extent m.width r d + i) = x.val := by
  induction l using List.reverseRecOn generalizing l' with
  | nil =>
    refine ⟨fun d hd => (offsets_eq (m := m) (r := r) (le_refl size)).2 d hd, ?_⟩
    intro d hd i x hx
    simp [part] at hx
  | append_singleton l x ih =>
    rw [List.append_assoc] at h
    obtain ⟨hoff, hperm⟩ := ih h
    obtain ⟨e, he, hex⟩ := exists_ahead r (m.supernode x)
    have hscan : m.scan r (l ++ [x]) =
        (Function.update (m.scan r l).1 (m.supernode x) ((m.scan r l).1 (m.supernode x) + 1),
          Function.update (m.scan r l).2 ((m.scan r l).1 (m.supernode x)) x.val) :=
      List.foldl_append
    have hbound : (m.part l (ahead r e)).length < m.width (ahead r e) := by
      have hmem : m.part ([x] ++ l') (ahead r e) = x :: m.part l' (ahead r e) := by
        simp [part, hex]
      rw [width, part_split h, List.length_append, hmem, List.length_cons]
      omega
    have hinside : ∀ d i y, (m.part l (ahead r d))[i]? = some y → i < m.width (ahead r d) := by
      intro d i y hy
      have hlt := (List.getElem?_eq_some_iff.mp hy).1
      rw [width, part_split h, List.length_append]
      omega
    rw [hscan, ← hex, hoff e he]
    refine ⟨fun d hd => ?_, fun d hd i y hy => ?_⟩
    · rw [part_concat, ← hex]
      show Function.update (m.scan r l).1 _ _ _ = _
      by_cases hde : d = e
      · rw [hde, Function.update_self, if_pos rfl, List.length_append]
        rfl
      · have hne : ahead r d ≠ ahead r e := fun heq => hde (ahead_inj hd he heq)
        rw [Function.update_of_ne hne, hoff d hd, if_neg hne.symm, List.append_nil]
    · rw [part_concat, ← hex] at hy
      -- The place written is the next of the neighborhood of `x`, and no other has it.
      by_cases hin : ∃ z, (m.part l (ahead r d))[i]? = some z
      · obtain ⟨z, hz⟩ := hin
        have hlt := (List.getElem?_eq_some_iff.mp hz).1
        rw [List.getElem?_append_left hlt] at hy
        show Function.update (m.scan r l).2 _ _ _ = _
        rw [Function.update_of_ne]
        · exact hperm d hd i y hy
        · intro heq
          obtain ⟨rfl, rfl⟩ := place_inj (hinside d i z hz) hbound heq
          omega
      · have hge : (m.part l (ahead r d)).length ≤ i := by
          by_contra hlt
          exact hin ⟨_, List.getElem?_eq_getElem (by omega)⟩
        rw [List.getElem?_append_right hge] at hy
        by_cases heq : ahead r e = ahead r d
        · obtain rfl := ahead_inj he hd heq
          rw [if_pos rfl] at hy
          obtain ⟨hlt, hxy⟩ := List.getElem?_eq_some_iff.mp hy
          have hi : i = (m.part l (ahead r e)).length := by
            rw [List.length_singleton] at hlt
            omega
          subst hi
          show Function.update (m.scan r l).2 _ _ _ = _
          rw [Function.update_self, ← hxy]
          simp
        · rw [if_neg heq] at hy
          simp at hy

/-- The permutation gives the process whose block is at a place of the buffer. -/
theorem scan_order {x : Fin nodes} (hx : (m.order r)[n]? = some x) :
    (m.scan r (List.finRange nodes)).2 n = x.val := by
  have hn : n < nodes := by
    have := (List.getElem?_eq_some_iff.mp hx).1
    rwa [length_order] at this
  obtain ⟨d, hd, i, hi, rfl⟩ := exists_place (m := m) (r := r) hn
  rw [order_getElem hd hi] at hx
  refine (scan_eq (List.append_nil _)).2 d hd i x ?_
  rw [← Option.some_inj.mp hx]
  exact List.getElem?_eq_getElem hi

theorem mem_order (m : Nodemap nodes size) (r : Fin size) (x : Fin nodes) : x ∈ m.order r := by
  obtain ⟨d, hd, hx⟩ := exists_ahead r (m.supernode x)
  exact List.mem_flatMap.mpr ⟨d, List.mem_range.mpr hd, mem_members.mpr hx.symm⟩

theorem flatMap_length {l : List (Fin nodes)} (hlen : ∀ i, (src i).length = len) :
    (l.flatMap src).length = len * l.length := by
  induction l with
  | nil => rfl
  | cons x l ih =>
    rw [List.flatMap_cons, List.length_append, ih, hlen, List.length_cons, Nat.mul_succ, Nat.add_comm]

/-- A byte of blocks that are all of one length. -/
theorem flatMap_getElem {l : List (Fin nodes)} {o : Nat} {x : Fin nodes}
    (hlen : ∀ i, (src i).length = len) (ho : o < len) (hx : l[n]? = some x) :
    (l.flatMap src)[len * n + o]? = (src x)[o]? := by
  induction l generalizing n with
  | nil => simp at hx
  | cons y l ih =>
    cases n with
    | zero =>
      obtain rfl : y = x := by simpa using hx
      rw [List.flatMap_cons, Nat.mul_zero, Nat.zero_add, List.getElem?_append_left (by rw [hlen]; exact ho)]
    | succ n =>
      rw [List.getElem?_cons_succ] at hx
      rw [List.flatMap_cons, List.getElem?_append_right (by rw [hlen, Nat.mul_succ]; omega), hlen,
        Nat.mul_succ, Nat.add_right_comm, Nat.add_sub_cancel]
      exact ih hx

/-- A loop that writes the same value whenever it writes. -/
theorem foldl_same {β : Type} {cond : Nat → Prop} [DecidablePred cond] {value : Nat → β} {v z : β}
    (l : List Nat) (hsame : ∀ n ∈ l, cond n → value n = v) (hz : z = v ∨ ∃ n ∈ l, cond n) :
    l.foldl (fun y n => if cond n then value n else y) z = v := by
  induction l generalizing z with
  | nil =>
    rcases hz with rfl | ⟨n, hn, _⟩
    · rfl
    · cases hn
  | cons a l ih =>
    refine ih (fun n hn => hsame n (List.mem_cons_of_mem a hn)) ?_
    dsimp only
    by_cases ha : cond a
    · rw [if_pos ha]
      exact Or.inl (hsame a List.mem_cons_self ha)
    · rw [if_neg ha]
      rcases hz with rfl | ⟨n, hn, hc⟩
      · exact Or.inl rfl
      · rcases List.mem_cons.mp hn with rfl | hn
        · exact absurd hc ha
        · exact Or.inr ⟨n, hn, hc⟩

/-- The data of all processes, as a leader has it when the messages are in. -/
def temp (m : Nodemap nodes size) (r : Fin size) (src : Fin nodes → List UInt8) : List UInt8 :=
  (m.order r).flatMap src

/-- The copy of blocks puts them in rank order. -/
theorem arrange_permuted {p : Nat → Nat} (hlen : ∀ i, (src i).length = len)
    (hp : ∀ n x, (m.order r)[n]? = some x → p n = x.val) :
    ((List.range (len * nodes)).map fun x => (List.range nodes).foldl (fun byte n =>
      if x / len = p n then (m.temp r src).getD (len * n + x % len) 0 else byte) 0) =
    (List.finRange nodes).flatMap src := by
  have hbytes := flatMap_length (l := List.finRange nodes) hlen
  rw [List.length_finRange] at hbytes
  refine List.ext_getElem? fun x => ?_
  by_cases hx : x < len * nodes
  · have hpos : 0 < len := Nat.pos_of_ne_zero fun h => by simp [h] at hx
    have hq : x / len < nodes := Nat.div_lt_of_lt_mul hx
    have ho : x % len < len := Nat.mod_lt _ hpos
    have hright : ((List.finRange nodes).flatMap src)[x]? = (src ⟨x / len, hq⟩)[x % len]? := by
      have hget : (List.finRange nodes)[x / len]? = some ⟨x / len, hq⟩ := by
        rw [List.getElem?_eq_getElem (by rw [List.length_finRange]; exact hq)]
        simp
      have := flatMap_getElem hlen ho hget
      rwa [Nat.div_add_mod] at this
    rw [hright, List.getElem?_map, List.getElem?_range hx, Option.map_some,
      List.getElem?_eq_getElem (by rw [hlen]; exact ho)]
    refine congrArg some (foldl_same _ (fun n hn heq => ?_) (Or.inr ?_))
    · have hn' : n < (m.order r).length := by
        rw [length_order]
        exact List.mem_range.mp hn
      have hget := List.getElem?_eq_getElem hn'
      have hval : (⟨x / len, hq⟩ : Fin nodes) = (m.order r)[n] := Fin.ext (heq.trans (hp n _ hget))
      rw [temp, List.getD_eq_getElem?_getD, flatMap_getElem hlen ho hget, hval,
        List.getElem?_eq_getElem (by rw [hlen]; exact ho), Option.getD_some]
    · obtain ⟨n, hn, hget⟩ := List.getElem_of_mem (m.mem_order r ⟨x / len, hq⟩)
      refine ⟨n, List.mem_range.mpr (by rwa [length_order] at hn), ?_⟩
      exact (hp n _ (hget ▸ List.getElem?_eq_getElem hn)).symm
  · rw [List.getElem?_eq_none (by rw [List.length_map, List.length_range]; omega),
      List.getElem?_eq_none (by rw [hbytes]; omega)]

theorem sortedFrom_iff {l : List Nat} : sortedFrom n l = true ↔ (n :: l).IsChain (· ≤ ·) := by
  induction l generalizing n with
  | nil => simp [sortedFrom]
  | cons a l ih =>
    rw [List.isChain_cons_cons, sortedFrom, ← ih]
    by_cases h : a < n
    · rw [if_pos h]
      constructor
      · exact fun hf => absurd hf (by decide)
      · exact fun hf => absurd h (Nat.not_lt_of_le hf.1)
    · rw [if_neg h]
      exact ⟨fun hs => ⟨Nat.le_of_not_lt h, hs⟩, fun hs => hs.2⟩

/-- No process is in a neighborhood before that of one of lower rank. -/
def Contiguous (m : Nodemap nodes size) : Prop := ∀ i j, i ≤ j → m.supernode i ≤ m.supernode j

theorem contiguous_of_sorted (h : m.sorted = true) : m.Contiguous := by
  have hchain : ((List.finRange nodes).map fun i => (m.supernode i).val).IsChain (· ≤ ·) := by
    cases nodes with
    | zero => simp
    | succ nodes =>
      have hs := sortedFrom_iff.mp h
      have hzero := m.first 0 rfl
      rw [List.finRange_succ, List.map_cons, List.tail_cons] at hs
      rw [List.finRange_succ, List.map_cons, hzero]
      exact hs
  have hpair := List.pairwise_map.mp (List.isChain_iff_pairwise.mp hchain)
  intro i j hij
  rcases Nat.lt_or_eq_of_le hij with hlt | heq
  · have := List.pairwise_iff_getElem.mp hpair i.val j.val (by simp) (by simp) hlt
    simpa using this
  · rw [Fin.ext heq]

/-- Then the neighborhoods in their order are the processes in theirs. -/
theorem gather_contiguous (h : m.Contiguous) {z : Fin size} (hz : z.val = 0) :
    gather (fun k => m.members k) z size = List.finRange nodes := by
  have hval : ∀ d < size, (ahead z d).val = d := by
    intro d hd
    show (z.val + d) % size = d
    rw [hz, Nat.zero_add, Nat.mod_eq_of_lt hd]
  have hfin : (List.finRange nodes).Pairwise (· < ·) := List.pairwise_lt_finRange nodes
  refine List.Pairwise.eq_of_mem_iff (r := (· < ·)) ?_ hfin fun x => ?_
  · refine List.pairwise_flatMap.mpr ⟨fun d _ => hfin.filter _, ?_⟩
    refine List.pairwise_lt_range.imp_of_mem fun {d e} hd he hlt x hx y hy => ?_
    rw [mem_members] at hx hy
    rw [List.mem_range] at hd he
    by_contra hge
    have hle := h y x (not_lt.mp hge)
    rw [hx, hy, Fin.le_def, hval d hd, hval e he] at hle
    omega
  · exact ⟨fun _ => List.mem_finRange x, fun _ => m.mem_order z x⟩

/-- The processes before those of a neighborhood, and from there on. -/
theorem order_rotated (h : m.Contiguous) (r : Fin size) :
    ∃ before rest, List.finRange nodes = before ++ rest ∧ m.order r = rest ++ before ∧
      m.leader r = before.length := by
  let z : Fin size := ⟨0, r.pos⟩
  have hahead : ahead z r.val = r := Fin.ext (by simp [ahead, z, Nat.mod_eq_of_lt r.isLt])
  have hback : ahead r (size - r.val) = z := by
    apply Fin.ext
    show (r.val + (size - r.val)) % size = 0
    rw [Nat.add_sub_cancel' r.isLt.le, Nat.mod_self]
  have hfin : List.finRange nodes = gather (fun k => m.members k) z r.val ++
      gather (fun k => m.members k) r (size - r.val) := by
    rw [← gather_contiguous h (z := z) rfl]
    have := gather_add (fun k => m.members k) z r.val (size - r.val)
    rwa [Nat.add_sub_cancel' r.isLt.le, hahead] at this
  have horder : m.order r = gather (fun k => m.members k) r (size - r.val) ++
      gather (fun k => m.members k) z r.val := by
    have := gather_add (fun k => m.members k) r (size - r.val) r.val
    rwa [Nat.sub_add_cancel r.isLt.le, hback] at this
  refine ⟨_, _, hfin, horder, ?_⟩
  -- the first process of the rest is the leader, and its rank is its place
  obtain ⟨x, l, hx⟩ := List.exists_cons_of_length_pos (m.width_pos r)
  have hrest : gather (fun k => m.members k) r (size - r.val) =
      x :: (l ++ gather (fun k => m.members k) (ahead r 1) (size - r.val - 1)) := by
    have := gather_add (fun k => m.members k) r 1 (size - r.val - 1)
    rw [show 1 + (size - r.val - 1) = size - r.val by have := r.isLt; omega] at this
    rw [this, ← List.cons_append, ← hx]
    simp [gather, List.range_succ]
  have hget : (List.finRange nodes)[(gather (fun k => m.members k) z r.val).length]? = some x := by
    rw [hfin, List.getElem?_append_right (Nat.le_refl _), Nat.sub_self, hrest]
    rfl
  obtain ⟨hlt, hval⟩ := List.getElem?_eq_some_iff.mp hget
  rw [leader, hx, ← hval]
  simp

/-- What a leader copies to the destination is the data in rank order. -/
theorem arrange_temp (m : Nodemap nodes size) (r : Fin size) (hlen : ∀ i, (src i).length = len) :
    m.arrange r len (m.temp r src) = (List.finRange nodes).flatMap src := by
  unfold arrange permute
  by_cases h : size = 1 ∨ m.sorted
  · have hcont : m.Contiguous := by
      rcases h with rfl | h
      · exact fun i j _ => (Subsingleton.elim _ _).le
      · exact contiguous_of_sorted h
    obtain ⟨before, rest, hfin, horder, hleader⟩ := order_rotated hcont r
    have hcount := congrArg List.length hfin
    rw [List.length_finRange, List.length_append] at hcount
    have hb := flatMap_length (l := before) hlen
    have hr := flatMap_length (l := rest) hlen
    rw [if_pos h]
    dsimp only
    have hrest : nodes - before.length = rest.length := by omega
    rw [hleader, hrest, temp, horder, hfin, List.flatMap_append,
      List.flatMap_append, ← hr, ← hb, List.drop_left, List.take_length, List.take_left]
  · rw [if_neg h]
    exact arrange_permuted hlen fun n x hx => scan_order hx

end Gasnet.Coll.Nodemap
