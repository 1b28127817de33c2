import Mathlib.Data.Nat.Count
import Gasnet.Internal.NodeMap

/-! `gasneti_nodemapParse`: the hosts and supernodes of a node map, as each process finds them. -/
namespace Gasnet.NodeMap

/-- `gasneti_nodegrp_t`. -/
structure Nodegrp where
  nodes : List Nat
  node_count : Nat
  node_rank : Nat
  grp_count : Nat
  grp_rank : Nat

/-- An entry of the array `s`. -/
structure Slot where
  width : Nat
  h_lead : Nat
  sn_lead : Nat
  host : Nat
  supernode : Nat

/-- `gasnet_nodeinfo_t`. -/
structure Nodeinfo where
  host : Nat
  supernode : Nat
  deriving DecidableEq

/-- The state of the first pass. The ranks are those of the process that runs it. -/
structure Parse where
  s : Nat → Slot
  nodemap : Nat → Nat
  nodeinfo : Nat → Nodeinfo
  hosts : Nat
  supernodes : Nat
  host_rank : Nat
  supernode_rank : Nat

/-- A pass of the first loop. -/
def firstPass (limit mynode : Nat) (st : Parse) (i : Nat) : Parse :=
  let n := st.nodemap i
  let width := (st.s n).width
  let lrank := width % limit
  let slot : Slot :=
    { st.s n with
      width := width + 1
      host := if width = 0 then st.hosts else (st.s n).host
      sn_lead := if lrank = 0 then i else (st.s n).sn_lead
      supernode := if lrank = 0 then st.supernodes else (st.s n).supernode }
  let s := Function.update st.s n slot
  { s := Function.update s i { s i with h_lead := n }
    nodemap := Function.update st.nodemap i slot.sn_lead
    nodeinfo := Function.update st.nodeinfo i ⟨slot.host, slot.supernode⟩
    hosts := if width = 0 then st.hosts + 1 else st.hosts
    supernodes := if lrank = 0 then st.supernodes + 1 else st.supernodes
    host_rank := if i = mynode then width else st.host_rank
    supernode_rank := if i = mynode then lrank else st.supernode_rank }

/-- The passes for the ranks below `i`. -/
def firstPasses (limit mynode : Nat) (nodemap : Nat → Nat) : Nat → Parse
  | 0 => ⟨fun _ => ⟨0, 0, 0, 0, 0⟩, nodemap, fun _ => ⟨0, 0⟩, 0, 0, 0, 0⟩
  | i + 1 => firstPass limit mynode (firstPasses limit mynode nodemap i) i

/-- `gasneti_myhost.nodes`, and where in it `gasneti_mysupernode.nodes` begins. -/
structure Local where
  nodes : List Nat
  offset : Option Nat

/-- The second loop from `i`, with `left` ranks to come. -/
def secondPasses (h_lead : Nat → Nat) (initial final node_count : Nat) :
    Nat → Nat → Local → Local
  | 0, _, l => l
  | left + 1, i, l =>
    if l.nodes.length < node_count then
      secondPasses h_lead initial final node_count left (i + 1)
        (if h_lead i = initial then
          ⟨l.nodes ++ [i], if i = final then some l.nodes.length else l.offset⟩
        else l)
    else l

/-- What `gasneti_nodemapParse` leaves. -/
structure Parsed where
  nodemap : Nat → Nat
  nodeinfo : Nat → Nodeinfo
  myhost : Nodegrp
  mysupernode : Nodegrp

/-- `gasneti_nodemapParse`, or `none` where the assertion about the supernode's nodes fails. -/
def nodemapParse (nodes limit mynode : Nat) (nodemap : Nat → Nat) : Option Parsed :=
  let initial := nodemap mynode
  let st := firstPasses limit mynode nodemap nodes
  let final := st.nodemap mynode
  let host_count := (st.s initial).width
  let supernode_count :=
    if final = (st.s initial).sn_lead then ((st.s initial).width - 1) % limit + 1 else limit
  let l := secondPasses (fun i => (st.s i).h_lead) initial final host_count (nodes - initial) initial
    ⟨[], none⟩
  l.offset.map fun offset =>
    { nodemap := st.nodemap
      nodeinfo := st.nodeinfo
      myhost := ⟨l.nodes, host_count, st.host_rank, st.hosts, (st.nodeinfo mynode).host⟩
      mysupernode := ⟨(l.nodes.drop offset).take supernode_count, supernode_count,
        st.supernode_rank, st.supernodes, (st.nodeinfo mynode).supernode⟩ }

section Numbers

variable (m : Nat → Nat) (limit i : Nat)

/-- The rank of `i` on its host. -/
def hostRank : Nat := Nat.count (fun j => m j = m i) i

/-- `i` is the first of its supernode. -/
abbrev Leader : Prop := hostRank m i % limit = 0

/-- The last one below `i` that is the first of a supernode of host `n`. -/
def leadBefore (n : Nat) : Nat → Nat
  | 0 => 0
  | i + 1 => if m i = n ∧ Leader m limit i then i else leadBefore n i

/-- The first of the supernode of `i`. -/
def lead : Nat := leadBefore m limit (m i) (i + 1)

/-- Hosts are numbered by their first ranks. -/
def hostNumber : Nat := Nat.count (fun j => m j = j) (m i)

/-- Supernodes too. -/
def supernodeNumber : Nat := Nat.count (fun j => Leader m limit j) (lead m limit i)

end Numbers

variable {m : Nat → Nat} {nodes limit mynode i j n : Nat}

/-- Each process is mapped to the first of its host. -/
def Valid (m : Nat → Nat) (nodes : Nat) : Prop := ∀ i < nodes, m i ≤ i ∧ m (m i) = m i

theorem valid_of_leads {α : Type*} {ids : Nat → α} (h : ∀ i < nodes, IsLeast {j | ids j = ids i} (m i)) :
    Valid m nodes ∧ ∀ i < nodes, ∀ j < nodes, m i = m j ↔ ids i = ids j := by
  have hsame : ∀ i < nodes, ids (m i) = ids i := fun i hi => (h i hi).1
  have hiff : ∀ i < nodes, ∀ j < nodes, ids i = ids j → m i = m j := by
    intro i hi j hj heq
    have hj' := h j hj
    rw [← heq] at hj'
    exact (h i hi).unique hj'
  refine ⟨fun i hi => ?_, fun i hi j hj => ⟨fun heq => ?_, hiff i hi j hj⟩⟩
  · have hle : m i ≤ i := (h i hi).2 rfl
    exact ⟨hle, hiff _ (hle.trans_lt hi) i hi (hsame i hi)⟩
  · rw [← hsame i hi, ← hsame j hj, heq]

/-- The first pass has come to `i`. -/
structure First (limit mynode : Nat) (m : Nat → Nat) (i : Nat) (st : Parse) : Prop where
  width : ∀ n, (st.s n).width = Nat.count (fun j => m j = n) i
  host : ∀ n < i, m n = n → (st.s n).host = Nat.count (fun j => m j = j) n
  sn_lead : ∀ n, (st.s n).sn_lead = leadBefore m limit n i
  supernode : ∀ n, 0 < Nat.count (fun j => m j = n) i →
    (st.s n).supernode = Nat.count (fun j => Leader m limit j) (leadBefore m limit n i)
  h_lead : ∀ j < i, (st.s j).h_lead = m j
  done : ∀ j < i, st.nodemap j = lead m limit j
  left : ∀ j ≥ i, st.nodemap j = m j
  info : ∀ j < i, st.nodeinfo j = ⟨hostNumber m j, supernodeNumber m limit j⟩
  hosts : st.hosts = Nat.count (fun j => m j = j) i
  supernodes : st.supernodes = Nat.count (fun j => Leader m limit j) i
  ranks : mynode < i → st.host_rank = hostRank m mynode ∧
    st.supernode_rank = hostRank m mynode % limit

/-- What a pass does to the entry of the host of `i`. -/
theorem firstPass_slot (limit mynode : Nat) (st : Parse) (i k : Nat) :
    ((firstPass limit mynode st i).s k).width =
      (if k = st.nodemap i then (st.s k).width + 1 else (st.s k).width) ∧
    ((firstPass limit mynode st i).s k).host =
      (if k = st.nodemap i ∧ (st.s k).width = 0 then st.hosts else (st.s k).host) ∧
    ((firstPass limit mynode st i).s k).sn_lead =
      (if k = st.nodemap i ∧ (st.s k).width % limit = 0 then i else (st.s k).sn_lead) ∧
    ((firstPass limit mynode st i).s k).supernode =
      (if k = st.nodemap i ∧ (st.s k).width % limit = 0 then st.supernodes
        else (st.s k).supernode) ∧
    ((firstPass limit mynode st i).s k).h_lead =
      (if k = i then st.nodemap i else (st.s k).h_lead) := by
  by_cases hk : k = st.nodemap i
  · subst hk
    by_cases hi : st.nodemap i = i <;> simp [firstPass, hi, Function.update_apply]
  · by_cases hi : k = i
    · subst hi
      simp [firstPass, hk]
    · simp [firstPass, hi, hk, Function.update_apply]

/-- The ranks of `i` on its host and those below it are counted alike. -/
theorem hostRank_eq (h : m i = n) : Nat.count (fun j => m j = n) i = hostRank m i := by
  subst h
  rfl

/-- The first of a host has rank 0, and no other one. -/
theorem hostRank_eq_zero (hv : Valid m nodes) (hi : i < nodes) : hostRank m i = 0 ↔ m i = i := by
  obtain ⟨hle, hidem⟩ := hv i hi
  unfold hostRank
  rw [Nat.count_iff_forall_not]
  constructor
  · intro hnone
    by_contra hne
    exact hnone (m i) (by omega) hidem
  · intro heq j hj hsame
    have := (hv j (by omega)).1
    omega

theorem first_zero (limit mynode : Nat) (m : Nat → Nat) :
    First limit mynode m 0 (firstPasses limit mynode m 0) := by
  refine ⟨fun _ => ?_, nofun, fun _ => rfl, fun n hn => ?_, nofun, nofun, fun _ _ => rfl, nofun, ?_, ?_,
    nofun⟩
  · simp [firstPasses]
  · simp at hn
  · simp [firstPasses]
  · simp [firstPasses]

theorem first_step (hv : Valid m nodes) (hi : i < nodes) {st : Parse}
    (h : First limit mynode m i st) : First limit mynode m (i + 1) (firstPass limit mynode st i) := by
  have hn : st.nodemap i = m i := h.left i le_rfl
  have hslot := firstPass_slot limit mynode st i
  have hwidth : (st.s (m i)).width = hostRank m i := h.width (m i)
  simp only [hn] at hslot
  have hmap : (firstPass limit mynode st i).nodemap = Function.update st.nodemap i
      (if (st.s (m i)).width % limit = 0 then i else (st.s (m i)).sn_lead) := by
    rw [← hn]
    rfl
  have hinfo : (firstPass limit mynode st i).nodeinfo = Function.update st.nodeinfo i
      ⟨if (st.s (m i)).width = 0 then st.hosts else (st.s (m i)).host,
        if (st.s (m i)).width % limit = 0 then st.supernodes else (st.s (m i)).supernode⟩ := by
    rw [← hn]
    rfl
  have hzero := hostRank_eq_zero hv hi
  have hlead : ∀ n, ((firstPass limit mynode st i).s n).sn_lead = leadBefore m limit n (i + 1) := by
    intro n
    rw [(hslot n).2.2.1, leadBefore]
    by_cases hni : n = m i
    · subst hni
      rw [hwidth, h.sn_lead]
    · rw [if_neg fun hc => hni hc.1, if_neg fun hc => hni hc.1.symm, h.sn_lead]
  have hhost : ((firstPass limit mynode st i).s (m i)).host = hostNumber m i := by
    rw [(hslot (m i)).2.1, hwidth]
    by_cases hr : hostRank m i = 0
    · rw [if_pos ⟨rfl, hr⟩, h.hosts, hostNumber, hzero.1 hr]
    · rw [if_neg fun hc => hr hc.2]
      have hlt : m i < i := lt_of_le_of_ne (hv i hi).1 fun heq => hr (hzero.2 heq)
      exact h.host (m i) hlt (hv i hi).2
  have hsuper : ((firstPass limit mynode st i).s (m i)).supernode = supernodeNumber m limit i := by
    rw [(hslot (m i)).2.2.2.1, hwidth, supernodeNumber, lead, leadBefore]
    by_cases hr : hostRank m i % limit = 0
    · rw [if_pos ⟨rfl, hr⟩, if_pos ⟨rfl, hr⟩, h.supernodes]
    · rw [if_neg fun hc => hr hc.2, if_neg fun hc => hr hc.2]
      refine h.supernode (m i) (Nat.pos_of_ne_zero fun hc => hr ?_)
      rw [hostRank, hc, Nat.zero_mod]
  refine ⟨fun n => ?_, fun n hni hself => ?_, hlead, fun n hpos => ?_, fun j hj => ?_, fun j hj => ?_,
    fun j hj => ?_, fun j hj => ?_, ?_, ?_, fun hme => ?_⟩
  · rw [(hslot n).1, h.width, Nat.count_succ]
    by_cases hc : n = m i
    · rw [if_pos hc, if_pos hc.symm]
    · rw [if_neg hc, if_neg (Ne.symm hc), Nat.add_zero]
  · rcases Nat.lt_succ_iff_lt_or_eq.1 hni with hlt | rfl
    · rw [(hslot n).2.1]
      by_cases hc : n = m i
      · subst hc
        rw [hwidth, if_neg, h.host _ hlt hself]
        rintro ⟨-, hr⟩
        exact hlt.ne (hzero.1 hr)
      · rw [if_neg fun hc' => hc hc'.1, h.host n hlt hself]
    · have hhost' := hhost
      rw [hostNumber, hself] at hhost'
      exact hhost'
  · rw [(hslot n).2.2.2.1, leadBefore]
    rw [Nat.count_succ] at hpos
    by_cases hc : n = m i
    · subst hc
      have hsuper' := hsuper
      rw [(hslot (m i)).2.2.2.1, supernodeNumber, lead, leadBefore] at hsuper'
      exact hsuper'
    · rw [if_neg (Ne.symm hc), Nat.add_zero] at hpos
      rw [if_neg fun hc' => hc hc'.1, if_neg fun hc' => hc hc'.1.symm, h.supernode n hpos]
  · rw [(hslot j).2.2.2.2]
    rcases Nat.lt_succ_iff_lt_or_eq.1 hj with hlt | rfl
    · rw [if_neg hlt.ne, h.h_lead j hlt]
    · rw [if_pos rfl]
  · rcases Nat.lt_succ_iff_lt_or_eq.1 hj with hlt | rfl
    · exact (Function.update_of_ne hlt.ne _ _).trans (h.done j hlt)
    · have hlead' := hlead (m j)
      rw [(hslot (m j)).2.2.1] at hlead'
      rw [hmap, Function.update_self, lead, ← hlead']
      simp
  · exact (Function.update_of_ne (by omega) _ _).trans (h.left j (by omega))
  · rcases Nat.lt_succ_iff_lt_or_eq.1 hj with hlt | rfl
    · exact (Function.update_of_ne hlt.ne _ _).trans (h.info j hlt)
    · rw [(hslot (m j)).2.1] at hhost
      rw [(hslot (m j)).2.2.2.1] at hsuper
      rw [hinfo, Function.update_self, ← hhost, ← hsuper]
      simp
  · have hcount := h.hosts
    rw [Nat.count_succ, ← hcount]
    show (if (st.s (st.nodemap i)).width = 0 then st.hosts + 1 else st.hosts) = _
    rw [hn, hwidth]
    by_cases hr : m i = i
    · rw [if_pos (hzero.2 hr), if_pos hr]
    · rw [if_neg (mt hzero.1 hr), if_neg hr, Nat.add_zero]
  · have hcount := h.supernodes
    rw [Nat.count_succ, ← hcount]
    show (if (st.s (st.nodemap i)).width % limit = 0 then st.supernodes + 1 else st.supernodes) = _
    rw [hn, hwidth]
    by_cases hr : hostRank m i % limit = 0
    · rw [if_pos hr, if_pos hr]
    · rw [if_neg hr, if_neg hr, Nat.add_zero]
  · show (if i = mynode then (st.s (st.nodemap i)).width else st.host_rank) = _ ∧
      (if i = mynode then (st.s (st.nodemap i)).width % limit else st.supernode_rank) = _
    rw [hn, hwidth]
    rcases Nat.lt_succ_iff_lt_or_eq.1 hme with hlt | rfl
    · rw [if_neg hlt.ne', if_neg hlt.ne']
      exact h.ranks hlt
    · rw [if_pos rfl, if_pos rfl]
      exact ⟨rfl, rfl⟩

theorem first_passes (limit mynode : Nat) (hv : Valid m nodes) (hi : i ≤ nodes) :
    First limit mynode m i (firstPasses limit mynode m i) := by
  induction i with
  | zero => exact first_zero limit mynode m
  | succ i ih => exact first_step hv hi (ih (Nat.le_of_succ_le hi))

section Members

/-- The ranks of host `n`. -/
def members (m : Nat → Nat) (nodes n : Nat) : List Nat := (List.range nodes).filter (m · = n)

theorem length_members (m : Nat → Nat) (nodes n : Nat) :
    (members m nodes n).length = Nat.count (fun j => m j = n) nodes := by
  rw [members, Nat.count, List.countP_eq_length_filter]

theorem members_succ (m : Nat → Nat) (i n : Nat) :
    members m (i + 1) n = members m i n ++ if m i = n then [i] else [] := by
  rw [members, List.range_succ, List.filter_append]
  by_cases h : m i = n <;> simp [members, h]

theorem members_prefix (m : Nat → Nat) (n : Nat) (hi : i ≤ nodes) :
    members m i n <+: members m nodes n := by
  induction hi with
  | refl => exact List.prefix_rfl
  | step _ ih =>
    rw [members_succ]
    exact ih.trans (List.prefix_append _ _)

theorem mem_members : j ∈ members m nodes n ↔ j < nodes ∧ m j = n := by
  simp [members]

/-- A member stands at its rank. -/
theorem members_getElem? (hi : i < nodes) : (members m nodes (m i))[hostRank m i]? = some i := by
  have hlen := length_members m i (m i)
  have hpre : members m (i + 1) (m i) <+: members m nodes (m i) := members_prefix m (m i) hi
  rw [members_succ, if_pos rfl] at hpre
  obtain ⟨l, hl⟩ := hpre
  rw [← hl, List.append_assoc, List.getElem?_append_right (by rw [hlen]; exact le_rfl), hlen]
  simp [hostRank]

theorem hostRank_getElem {k : Nat} (hk : k < (members m nodes n).length) :
    hostRank m (members m nodes n)[k] = k := by
  have hmem := mem_members.1 (List.getElem_mem hk)
  have hget := members_getElem? (m := m) hmem.1
  rw [hmem.2] at hget
  obtain ⟨hlt, heq⟩ := List.getElem?_eq_some_iff.1 hget
  have hnodup : (members m nodes n).Nodup := List.nodup_range.filter _
  exact (List.Nodup.getElem_inj_iff hnodup).1 heq

/-- A part of a list, where `f` says the place of an element. -/
theorem filter_place {l : List Nat} {f : Nat → Nat} (h : ∀ k (hk : k < l.length), f l[k] = k) {a b : Nat}
    (hab : a ≤ b) : l.filter (fun x => a ≤ f x ∧ f x < b) = (l.drop a).take (b - a) := by
  induction l using List.reverseRecOn with
  | nil => simp
  | append_singleton l x ih =>
    have hold : ∀ k (hk : k < l.length), f l[k] = k := by
      intro k hk
      have := h k (by rw [List.length_append]; omega)
      rwa [List.getElem_append_left hk] at this
    have hx : f x = l.length := by
      have := h l.length (by rw [List.length_append, List.length_singleton]; omega)
      rwa [List.getElem_append_right le_rfl, List.getElem_singleton] at this
    rw [List.filter_append, ih hold]
    by_cases hin : a ≤ l.length ∧ l.length < b
    · have hsingle : [x].filter (fun x => decide (a ≤ f x ∧ f x < b)) = [x] := by simp [hx, hin]
      have hshort : (l.drop a).length ≤ b - a := by
        rw [List.length_drop]
        omega
      rw [hsingle, List.take_of_length_le hshort, List.drop_append_of_le_length hin.1,
        List.take_of_length_le]
      rw [List.length_append, List.length_drop, List.length_singleton]
      omega
    · have hsingle : [x].filter (fun x => decide (a ≤ f x ∧ f x < b)) = [] := by simp [hx, hin]
      rw [hsingle, List.append_nil]
      rcases Nat.lt_or_ge l.length a with hlt | hge
      · rw [List.drop_eq_nil_of_le hlt.le, List.drop_eq_nil_of_le]
        rw [List.length_append, List.length_singleton]
        omega
      · rw [List.drop_append_of_le_length hge, List.take_append_of_le_length]
        rw [List.length_drop]
        omega

end Members

section Leads

theorem leadBefore_spec (limit : Nat) (hpos : 0 < Nat.count (fun j => m j = n) i) :
    leadBefore m limit n i < i ∧ m (leadBefore m limit n i) = n ∧
      hostRank m (leadBefore m limit n i) =
        (Nat.count (fun j => m j = n) i - 1) / limit * limit := by
  induction i with
  | zero => simp at hpos
  | succ i ih =>
    rw [Nat.count_succ] at hpos ⊢
    rw [leadBefore]
    by_cases hn : m i = n
    · rw [if_pos hn, Nat.add_sub_cancel, hostRank_eq hn]
      by_cases hlead : hostRank m i % limit = 0
      · rw [if_pos ⟨hn, hlead⟩, Nat.div_mul_cancel (Nat.dvd_of_mod_eq_zero hlead)]
        exact ⟨Nat.lt_succ_self i, hn, rfl⟩
      · rw [if_neg fun h => hlead h.2]
        have hrank : 0 < hostRank m i := Nat.pos_of_ne_zero fun h => hlead (by rw [h, Nat.zero_mod])
        rw [hostRank_eq hn] at ih
        obtain ⟨hlt, hsame, heq⟩ := ih hrank
        refine ⟨hlt.trans (Nat.lt_succ_self i), hsame, ?_⟩
        have hsucc := @Nat.succ_div (hostRank m i - 1) limit
        rw [Nat.sub_add_cancel hrank, if_neg fun h => hlead (Nat.mod_eq_zero_of_dvd h)] at hsucc
        rw [heq, hsucc, Nat.add_zero]
    · rw [if_neg hn, Nat.add_zero] at hpos ⊢
      rw [if_neg fun h => hn h.1]
      obtain ⟨hlt, hsame, heq⟩ := ih hpos
      exact ⟨hlt.trans (Nat.lt_succ_self i), hsame, heq⟩

theorem count_succ_hostRank (m : Nat → Nat) (i : Nat) :
    Nat.count (fun j => m j = m i) (i + 1) = hostRank m i + 1 := by
  rw [Nat.count_succ, if_pos rfl]
  rfl

theorem lead_spec (limit : Nat) (m : Nat → Nat) (i : Nat) : lead m limit i ≤ i ∧
    m (lead m limit i) = m i ∧ hostRank m (lead m limit i) = hostRank m i / limit * limit := by
  have hcount := count_succ_hostRank m i
  obtain ⟨hlt, hsame, heq⟩ := leadBefore_spec (m := m) (n := m i) (i := i + 1) limit
    (by rw [hcount]; exact Nat.succ_pos _)
  rw [hcount, Nat.add_sub_cancel] at heq
  exact ⟨Nat.le_of_lt_succ hlt, hsame, heq⟩

theorem leader_lead (limit : Nat) (m : Nat → Nat) (i : Nat) :
    Leader m limit (lead m limit i) := by
  rw [Leader, (lead_spec limit m i).2.2, Nat.mul_mod_left]

/-- Two processes of a host with one rank are one. -/
theorem hostRank_inj (h : m i = m j) (hr : hostRank m i = hostRank m j) : i = j := by
  unfold hostRank at hr
  rw [← h] at hr
  exact Nat.count_injective (p := fun k => m k = m i) rfl h.symm hr

theorem lead_eq_iff (hlimit : 0 < limit) : lead m limit i = lead m limit j ↔
    m i = m j ∧ hostRank m i / limit = hostRank m j / limit := by
  obtain ⟨-, hi, hri⟩ := lead_spec limit m i
  obtain ⟨-, hj, hrj⟩ := lead_spec limit m j
  constructor
  · intro h
    rw [h] at hi hri
    refine ⟨hi.symm.trans hj, Nat.eq_of_mul_eq_mul_right hlimit ?_⟩
    rw [← hri, hrj]
  · rintro ⟨hm, hr⟩
    refine hostRank_inj (hi.trans (hm.trans hj.symm)) ?_
    rw [hri, hrj, hr]

theorem lead_of_leader (h : Leader m limit i) : lead m limit i = i := by
  obtain ⟨-, hi, hri⟩ := lead_spec limit m i
  refine hostRank_inj hi ?_
  rw [hri, Nat.div_mul_cancel (Nat.dvd_of_mod_eq_zero h)]

theorem supernodeNumber_eq_iff :
    supernodeNumber m limit i = supernodeNumber m limit j ↔ lead m limit i = lead m limit j := by
  unfold supernodeNumber
  constructor
  · exact Nat.count_injective (p := fun k => Leader m limit k) (leader_lead limit m i)
      (leader_lead limit m j)
  · exact fun h => by rw [h]

theorem hostNumber_eq_iff (hv : Valid m nodes) (hi : i < nodes) (hj : j < nodes) :
    hostNumber m i = hostNumber m j ↔ m i = m j := by
  unfold hostNumber
  constructor
  · exact Nat.count_injective (p := fun k => m k = k) (hv i hi).2 (hv j hj).2
  · exact fun h => by rw [h]

end Leads

section Second

theorem length_members_of_valid (hv : Valid m nodes) (hi : i < nodes) :
    members m (m i) (m i) = [] := by
  have hle := (hv i hi).1
  rw [List.eq_nil_iff_forall_not_mem]
  intro j hj
  obtain ⟨hlt, hm⟩ := mem_members.1 hj
  have := (hv j (by omega)).1
  omega

/-- The second loop finds the members of the host, and the place of `final` among them. -/
theorem secondPasses_eq {initial final left : Nat} {h_lead : Nat → Nat} {l : Local}
    (hlead : ∀ j < nodes, h_lead j = m j) (hfinal : final < nodes) (hm : m final = initial)
    (hnodes : l.nodes = members m i initial)
    (hoffset : l.offset = if final < i then some (hostRank m final) else none)
    (hi : i + left = nodes) :
    secondPasses h_lead initial final (members m nodes initial).length left i l =
      ⟨members m nodes initial, some (hostRank m final)⟩ := by
  induction left generalizing i l with
  | zero =>
    obtain rfl : i = nodes := hi
    rw [if_pos hfinal] at hoffset
    rw [secondPasses, ← hnodes, ← hoffset]
  | succ left ih =>
    have hpre := members_prefix m initial (show i ≤ nodes by omega)
    rw [secondPasses]
    by_cases hlt : l.nodes.length < (members m nodes initial).length
    · rw [if_pos hlt]
      refine ih ?_ ?_ (by omega)
      · rw [hlead i (by omega), members_succ]
        by_cases hi' : m i = initial
        · rw [if_pos hi', if_pos hi', ← hnodes]
        · rw [if_neg hi', if_neg hi', hnodes, List.append_nil]
      · rw [hlead i (by omega)]
        by_cases hi' : m i = initial
        · rw [if_pos hi']
          dsimp only
          by_cases hif : i = final
          · subst hif
            rw [if_pos rfl, if_pos (Nat.lt_succ_self i), hnodes, length_members, ← hm]
            rfl
          · rw [if_neg hif, hoffset]
            by_cases hf : final < i
            · rw [if_pos hf, if_pos (by omega)]
            · rw [if_neg hf, if_neg (by omega)]
        · have hif : final ≠ i := by
            rintro rfl
            exact hi' hm
          rw [if_neg hi', hoffset]
          by_cases hf : final < i
          · rw [if_pos hf, if_pos (by omega)]
          · rw [if_neg hf, if_neg (by omega)]
    · rw [if_neg hlt]
      rw [hnodes] at hlt
      have heq := hpre.eq_of_length_le (Nat.not_lt.1 hlt)
      have hmem : final ∈ members m i initial := heq ▸ mem_members.2 ⟨hfinal, hm⟩
      rw [if_pos (mem_members.1 hmem).1] at hoffset
      rw [← heq, ← hnodes, ← hoffset]

end Second

/-- A group as one of its members sees it. -/
structure Describes (g : Nodegrp) (ranks : List Nat) (groups number mynode : Nat) : Prop where
  nodes : g.nodes = ranks
  node_count : g.node_count = ranks.length
  node_rank : ranks[g.node_rank]? = some mynode
  grp_count : g.grp_count = groups
  grp_rank : g.grp_rank = number

/-- The ranks of a supernode follow each other on its host. -/
theorem members_supernode (hlimit : 0 < limit) (m : Nat → Nat) (nodes i : Nat) :
    (List.range nodes).filter (fun j => lead m limit j = lead m limit i) =
      ((members m nodes (m i)).drop (hostRank m i / limit * limit)).take limit := by
  have hplace := filter_place (l := members m nodes (m i)) (f := hostRank m)
    (fun k hk => hostRank_getElem hk) (Nat.le_add_right (hostRank m i / limit * limit) limit)
  rw [Nat.add_sub_cancel_left] at hplace
  rw [← hplace, members, List.filter_filter]
  refine List.filter_congr fun j _ => ?_
  have hdiv : hostRank m j / limit = hostRank m i / limit ↔
      hostRank m i / limit * limit ≤ hostRank m j ∧
        hostRank m j < hostRank m i / limit * limit + limit := by
    rw [Nat.div_eq_iff hlimit]
    omega
  simp only [lead_eq_iff hlimit, hdiv, Bool.decide_and]
  rw [Bool.and_comm, Bool.and_assoc]

/-- Every number below a count is that of some element. -/
theorem exists_count {p : Nat → Prop} [DecidablePred p] {v : Nat} (h : v < Nat.count p nodes) :
    ∃ i < nodes, p i ∧ Nat.count p i = v := by
  induction nodes with
  | zero => simp at h
  | succ k ih =>
    rw [Nat.count_succ] at h
    by_cases hlt : v < Nat.count p k
    · obtain ⟨i, hi, hp⟩ := ih hlt
      exact ⟨i, hi.trans (Nat.lt_succ_self k), hp⟩
    · by_cases hp : p k
      · rw [if_pos hp] at h
        exact ⟨k, Nat.lt_succ_self k, hp, by omega⟩
      · rw [if_neg hp] at h
        omega

/-- What one process finds. -/
theorem nodemapParse_eq (hv : Valid m nodes) (hlimit : 0 < limit) (hme : mynode < nodes) :
    ∃ r, nodemapParse nodes limit mynode m = some r ∧
      (∀ i < nodes, r.nodemap i = lead m limit i ∧
        r.nodeinfo i = ⟨hostNumber m i, supernodeNumber m limit i⟩) ∧
      Describes r.myhost ((List.range nodes).filter fun i => m i = m mynode)
        (Nat.count (fun j => m j = j) nodes) (hostNumber m mynode) mynode ∧
      Describes r.mysupernode
        ((List.range nodes).filter fun i => lead m limit i = lead m limit mynode)
        (Nat.count (fun j => Leader m limit j) nodes) (supernodeNumber m limit mynode) mynode := by
  have hfirst := first_passes limit mynode hv (Nat.le_refl nodes)
  set st := firstPasses limit mynode m nodes with hst
  obtain ⟨hlead, hsame, hrank⟩ := lead_spec limit m mynode
  have hle := (hv mynode hme).1
  have hwidth := hfirst.width (m mynode)
  rw [← length_members] at hwidth
  have hfinal := hfirst.done mynode hme
  have hget := members_getElem? (m := m) hme
  have hlt := (List.getElem?_eq_some_iff.1 hget).1
  have hsecond : secondPasses (fun i => (st.s i).h_lead) (m mynode) (lead m limit mynode)
      (members m nodes (m mynode)).length (nodes - m mynode) (m mynode) ⟨[], none⟩ =
      ⟨members m nodes (m mynode), some (hostRank m (lead m limit mynode))⟩ := by
    refine secondPasses_eq hfirst.h_lead (hlead.trans_lt hme) hsame
      (length_members_of_valid hv hme).symm ?_ (by omega)
    have hleads := (hv _ (hlead.trans_lt hme)).1
    rw [hsame] at hleads
    rw [if_neg (Nat.not_lt.2 hleads)]
  have hlast := leadBefore_spec (m := m) (n := m mynode) (i := nodes) limit
    (by rw [← length_members]; omega)
  rw [← length_members] at hlast
  set W := (members m nodes (m mynode)).length with hW
  set q := hostRank m mynode / limit with hq
  have hqle : q * limit ≤ hostRank m mynode := Nat.div_mul_le_self _ _
  have hcount : (if lead m limit mynode = leadBefore m limit (m mynode) nodes then
      (W - 1) % limit + 1 else limit) = min limit (W - q * limit) := by
    have hiff : lead m limit mynode = leadBefore m limit (m mynode) nodes ↔
        q = (W - 1) / limit := by
      constructor
      · intro h
        rw [h, hlast.2.2] at hrank
        exact (Nat.eq_of_mul_eq_mul_right hlimit hrank).symm
      · intro h
        refine hostRank_inj (hsame.trans hlast.2.1.symm) ?_
        rw [hrank, hlast.2.2, h]
    have hdiv := Nat.div_add_mod (W - 1) limit
    have hmod := Nat.mod_lt (W - 1) hlimit
    by_cases h : q = (W - 1) / limit
    · rw [if_pos (hiff.2 h), h, Nat.mul_comm]
      omega
    · rw [if_neg (mt hiff.1 h)]
      have hqlt : q < (W - 1) / limit :=
        lt_of_le_of_ne (Nat.div_le_div_right (by omega)) h
      have hmul := Nat.mul_le_mul_right limit hqlt
      rw [Nat.succ_mul, Nat.mul_comm ((W - 1) / limit)] at hmul
      omega
  have hslice : ((members m nodes (m mynode)).drop (q * limit)).take (min limit (W - q * limit)) =
      ((members m nodes (m mynode)).drop (q * limit)).take limit := by
    rw [← List.length_drop, ← List.take_eq_take_min]
  refine ⟨⟨st.nodemap, st.nodeinfo, ⟨members m nodes (m mynode), W, st.host_rank, st.hosts,
      (st.nodeinfo mynode).host⟩, ⟨((members m nodes (m mynode)).drop (q * limit)).take limit,
      min limit (W - q * limit), st.supernode_rank, st.supernodes,
      (st.nodeinfo mynode).supernode⟩⟩, ?_, fun i hi => ⟨hfirst.done i hi, hfirst.info i hi⟩, ?_, ?_⟩
  · unfold nodemapParse
    dsimp only
    rw [← hst, hwidth, hfinal, hsecond, hfirst.sn_lead, hcount, hrank, ← hslice]
    rfl
  · refine ⟨rfl, rfl, ?_, hfirst.hosts, ?_⟩
    · dsimp only
      rw [(hfirst.ranks hme).1]
      exact hget
    · dsimp only
      rw [hfirst.info mynode hme]
  · rw [members_supernode hlimit]
    refine ⟨rfl, ?_, ?_, hfirst.supernodes, ?_⟩
    · rw [List.length_take, List.length_drop]
    · dsimp only
      rw [(hfirst.ranks hme).2, List.getElem?_take, if_pos (Nat.mod_lt _ hlimit), List.getElem?_drop,
        Nat.mul_comm, Nat.div_add_mod]
      exact hget
    · dsimp only
      rw [hfirst.info mynode hme]

/-- Numbers that begin at 0 and leave none out. -/
def Contiguous (number : Nat → Nat) (nodes groups : Nat) : Prop :=
  (∀ i < nodes, number i < groups) ∧ ∀ v < groups, ∃ i < nodes, number i = v

theorem contiguous_hosts (hv : Valid m nodes) :
    Contiguous (hostNumber m) nodes (Nat.count (fun j => m j = j) nodes) := by
  refine ⟨fun i hi => ?_, fun v h => ?_⟩
  · exact Nat.count_strict_mono (p := fun j => m j = j) (hv i hi).2 ((hv i hi).1.trans_lt hi)
  · obtain ⟨i, hi, hm, hcount⟩ := exists_count h
    exact ⟨i, hi, by rw [hostNumber, hm, hcount]⟩

theorem contiguous_supernodes (limit nodes : Nat) (m : Nat → Nat) :
    Contiguous (supernodeNumber m limit) nodes (Nat.count (fun j => Leader m limit j) nodes) := by
  refine ⟨fun i hi => ?_, fun v h => ?_⟩
  · exact Nat.count_strict_mono (p := fun j => Leader m limit j) (leader_lead limit m i)
      ((lead_spec limit m i).1.trans_lt hi)
  · obtain ⟨i, hi, hm, hcount⟩ := exists_count h
    exact ⟨i, hi, by rw [supernodeNumber, lead_of_leader hm, hcount]⟩

/-- All processes agree on the hosts, supernodes and leaders, each one's groups are those of its host and
its supernode, and a supernode is `limit` ranks of a host in their order, or what is left of them. -/
theorem nodemap_parse {α : Type*} {ids : Nat → α} (h : ∀ i < nodes, IsLeast {j | ids j = ids i} (m i))
    (hlimit : 0 < limit) : ∃ (host supernode leader : Nat → Nat) (hosts supernodes : Nat),
    (∀ mynode < nodes, ∃ r, nodemapParse nodes limit mynode m = some r ∧
      (∀ i < nodes, r.nodemap i = leader i ∧ r.nodeinfo i = ⟨host i, supernode i⟩) ∧
      Describes r.myhost ((List.range nodes).filter fun i => host i = host mynode) hosts (host mynode)
        mynode ∧
      Describes r.mysupernode ((List.range nodes).filter fun i => supernode i = supernode mynode)
        supernodes (supernode mynode) mynode) ∧
    Contiguous host nodes hosts ∧ Contiguous supernode nodes supernodes ∧
    (∀ i < nodes, ∀ j < nodes, host i = host j ↔ ids i = ids j) ∧
    (∀ i < nodes, ∀ j < nodes, supernode i = supernode j → host i = host j) ∧
    (∀ i < nodes, ((List.range nodes).filter fun j => supernode j = supernode i).head? =
      some (leader i)) ∧
    ∀ i < nodes, ∃ k, ((List.range nodes).filter fun j => supernode j = supernode i) =
      (((List.range nodes).filter fun j => host j = host i).drop (k * limit)).take limit := by
  obtain ⟨hv, hids⟩ := valid_of_leads h
  have hhost : ∀ i < nodes, ((List.range nodes).filter fun j => hostNumber m j = hostNumber m i) =
      (List.range nodes).filter fun j => m j = m i := by
    intro i hi
    refine List.filter_congr fun j hj => ?_
    rw [decide_eq_decide]
    exact hostNumber_eq_iff hv (List.mem_range.1 hj) hi
  have hsuper : ∀ i, ((List.range nodes).filter fun j =>
      supernodeNumber m limit j = supernodeNumber m limit i) =
      (List.range nodes).filter fun j => lead m limit j = lead m limit i := by
    intro i
    refine List.filter_congr fun j _ => ?_
    rw [decide_eq_decide]
    exact supernodeNumber_eq_iff
  refine ⟨hostNumber m, supernodeNumber m limit, lead m limit, _, _, fun mynode hme => ?_,
    contiguous_hosts hv, contiguous_supernodes limit nodes m, fun i hi j hj => ?_, fun i hi j hj heq => ?_,
    fun i hi => ?_, fun i hi => ⟨hostRank m i / limit, ?_⟩⟩
  · obtain ⟨r, hr, hall, hmyhost, hmysuper⟩ := nodemapParse_eq hv hlimit hme
    refine ⟨r, hr, hall, ?_, ?_⟩
    · rwa [hhost mynode hme]
    · rwa [hsuper]
  · rw [hostNumber_eq_iff hv hi hj]
    exact hids i hi j hj
  · rw [hostNumber_eq_iff hv hi hj]
    exact ((lead_eq_iff hlimit).1 (supernodeNumber_eq_iff.1 heq)).1
  · obtain ⟨hlead, hsame, hrank⟩ := lead_spec limit m i
    have hget := members_getElem? (m := m) (hlead.trans_lt hi)
    rw [hsame, hrank] at hget
    rw [hsuper, members_supernode hlimit, List.head?_take, if_neg hlimit.ne', List.head?_drop, hget]
  · rw [hsuper, members_supernode hlimit, hhost i hi]
    rfl

/-- Processes 1 and 4 on one host, the others on another. -/
def exampleMap (i : Nat) : Nat := if i = 1 ∨ i = 4 then 1 else 0

theorem example_least (i : Nat) : IsLeast {j | exampleMap j = exampleMap i} (exampleMap i) := by
  by_cases h : i = 1 ∨ i = 4
  · have hi : exampleMap i = 1 := if_pos h
    rw [hi]
    refine ⟨rfl, fun j hj => ?_⟩
    by_contra hlt
    obtain rfl : j = 0 := by omega
    exact absurd (show exampleMap 0 = 1 from hj) (by decide)
  · have hi : exampleMap i = 0 := if_neg h
    rw [hi]
    exact ⟨rfl, fun j _ => Nat.zero_le j⟩

/-- Five processes on two hosts, with supernodes of two. -/
theorem nodemap_parse_five : ∃ (supernode : Nat → Nat) (supernodes : Nat),
    Contiguous supernode 5 supernodes ∧ ∀ mynode < 5, ∃ r,
      nodemapParse 5 2 mynode exampleMap = some r ∧
      Describes r.mysupernode ((List.range 5).filter fun i => supernode i = supernode mynode)
        supernodes (supernode mynode) mynode := by
  obtain ⟨host, supernode, leader, hosts, supernodes, hparse, -, hnumbers, -⟩ :=
    @nodemap_parse exampleMap 5 2 Nat exampleMap (fun i _ => example_least i) (by decide)
  refine ⟨supernode, supernodes, hnumbers, fun mynode hme => ?_⟩
  obtain ⟨r, hr, -, -, hsuper⟩ := hparse mynode hme
  exact ⟨r, hr, hsuper⟩

end Gasnet.NodeMap
