import Mathlib.Data.List.Forall2
import Mathlib.Data.List.Infix
import Gasnet.Foundation.RoseTree

/-! The control processes of a job, the hosts that they run on and the ranks that they start. -/
namespace Gasnet.SshLayout

structure nodediv_t where
  quot : Nat
  rem : Nat
  deriving DecidableEq, Repr

/-- `div`, which traps on zero. -/
def nodediv (numer denom : Nat) : Option nodediv_t :=
  if denom = 0 then none else some ⟨numer / denom, numer % denom⟩

/-- Allocates `n` from `x`, which is left with a smaller remainder. -/
def nodediv_alloc (x : nodediv_t) (n : Nat) : Nat × nodediv_t :=
  let rem := min x.rem n
  (n * x.quot + rem, { x with rem := x.rem - rem })

/-- `nodelist` is where the child's part of its parent's list starts. -/
structure Child where
  rank : Nat
  tree_ranks : Nat
  tree_nodes : Nat
  nodelist : Option Nat
  deriving DecidableEq, Repr

/-- The globals of a control process, with the host that it was started on. -/
structure Control (H : Type) where
  is_root : Bool
  host : Option H
  nranks : Nat
  myrank : Nat
  tree_ranks : Nat
  tree_nodes : Nat
  out_degree : Nat
  nodelist : List H
  deriving DecidableEq, Repr

/-- The loop over the rank processes, and the rank behind the last one. -/
def rank_loop : Nat → Nat → List Child × Nat
  | 0, rank => ([], rank)
  | j + 1, rank =>
    let (child, last) := rank_loop j (rank + 1)
    (⟨rank, 1, 1, none⟩ :: child, last)

/-- The loop over the control processes, and the rank behind the last one. -/
def ctrl_loop : Nat → nodediv_t → nodediv_t → Nat → Nat → List Child × Nat
  | 0, _, _, rank, _ => ([], rank)
  | j + 1, npc, ppn, rank, sublist =>
    let (nodes, npc) := nodediv_alloc npc 1
    let (procs, ppn) := nodediv_alloc ppn nodes
    let (child, last) := ctrl_loop j npc ppn (rank + procs) (sublist + nodes)
    (⟨rank, procs, nodes, some sublist⟩ :: child, last)

variable {H : Type}

/-- The layout of the children, control processes and rank processes, where the assertions hold. -/
def do_common (c : Control H) : Option (List Child × List Child) := do
  let ppn ← nodediv c.tree_ranks c.tree_nodes
  let (rank_children, ppn, ctrl_children, npc) ←
    if c.is_root then do
      let ctrl_children := min c.tree_nodes c.out_degree
      let npc ← nodediv c.tree_nodes ctrl_children
      pure (0, ppn, ctrl_children, npc)
    else do
      let (rank_children, ppn) := nodediv_alloc ppn 1
      let ctrl_children := min (c.tree_nodes - 1) c.out_degree
      let npc ← if ctrl_children ≠ 0 then nodediv (c.tree_nodes - 1) ctrl_children else some ⟨0, 0⟩
      pure (rank_children, ppn, ctrl_children, npc)
  let (ranks, rank) := rank_loop rank_children c.myrank
  if rank = c.myrank + rank_children then
    let (ctrls, rank) := ctrl_loop ctrl_children npc ppn rank 0
    if rank = c.myrank + c.tree_ranks then some (ctrls, ranks) else none
  else none

/-- Reads the entries from `list` on. -/
def send_nodelist (count : Nat) (nodelist : List H) (list : Nat) : Option (List H) :=
  (List.range' list (max count 1)).mapM fun i => nodelist[i]?

/-- What `post_spawn` sends is what the child receives; a leaf keeps its own default for the out-degree. -/
def post_spawn (GASNETI_DEFAULT_SSH_OUT_DEGREE : Nat) (c : Control H) (ch : Child) : Option (Control H) := do
  let host ← c.nodelist[ch.nodelist.getD 0]?
  if 0 < c.nranks ∧ ch.rank < c.nranks then
    let child : Control H :=
      { is_root := false, host := some host, nranks := c.nranks, myrank := ch.rank, tree_ranks := ch.tree_ranks,
        tree_nodes := ch.tree_nodes, out_degree := GASNETI_DEFAULT_SSH_OUT_DEGREE, nodelist := [] }
    if 1 < ch.tree_nodes then
      let sublist ← ch.nodelist
      let nodelist ← send_nodelist (ch.tree_nodes - 1) c.nodelist (sublist + 1)
      pure { child with out_degree := c.out_degree, nodelist := nodelist }
    else pure child
  else none

/-- A control process with its children. -/
structure Layout (H : Type) where
  control : Control H
  ctrl_child : List Child
  rank_child : List Child
  deriving DecidableEq, Repr

/-- The control processes from one on, each before those below it. -/
def spawn (GASNETI_DEFAULT_SSH_OUT_DEGREE : Nat) : Nat → Control H → Option (List (Layout H))
  | 0, _ => none
  | n + 1, c => do
    let (ctrl, rank) ← do_common c
    let below ← ctrl.mapM fun ch => do
      let child ← post_spawn GASNETI_DEFAULT_SSH_OUT_DEGREE c ch
      spawn GASNETI_DEFAULT_SSH_OUT_DEGREE n child
    pure (⟨c, ctrl, rank⟩ :: below.flatten)

/-- `do_master`, with one entry of the list for each node. -/
def do_master (nranks out_degree : Nat) (nodelist : List H) : Control H where
  is_root := true
  host := none
  nranks := nranks
  myrank := 0
  tree_ranks := nranks
  tree_nodes := nodelist.length
  out_degree := out_degree
  nodelist := nodelist

/-! ### Shares -/

variable {x npc ppn : nodediv_t} {f c n count rank sublist numer denom : Nat}

/-- Two allocations are one of the sum. -/
theorem alloc_add (x : nodediv_t) (m n : Nat) :
    (nodediv_alloc x (m + n)).1 = (nodediv_alloc x m).1 + (nodediv_alloc (nodediv_alloc x m).2 n).1 := by
  change (m + n) * x.quot + min x.rem (m + n) =
    m * x.quot + min x.rem m + (n * x.quot + min (x.rem - min x.rem m) n)
  rw [Nat.add_mul]
  omega

theorem alloc_all (hdenom : 0 < denom) : (nodediv_alloc ⟨numer / denom, numer % denom⟩ denom).1 = numer := by
  have hlt := Nat.mod_lt numer hdenom
  have hdiv := Nat.div_add_mod numer denom
  change denom * (numer / denom) + min (numer % denom) denom = numer
  omega

/-- Every node is given between `f` and `c`. -/
def Fair (f c : Nat) (x : nodediv_t) : Prop := f ≤ x.quot ∧ x.quot ≤ c ∧ (x.rem = 0 ∨ x.quot < c)

theorem Fair.alloc (h : Fair f c x) (n : Nat) :
    n * f ≤ (nodediv_alloc x n).1 ∧ (nodediv_alloc x n).1 ≤ n * c ∧ Fair f c (nodediv_alloc x n).2 := by
  obtain ⟨hlow, hhigh, hrem⟩ := h
  have hlower : n * f ≤ n * x.quot := Nat.mul_le_mul_left n hlow
  have hupper : n * x.quot ≤ n * c := Nat.mul_le_mul_left n hhigh
  change n * f ≤ n * x.quot + min x.rem n ∧ n * x.quot + min x.rem n ≤ n * c ∧
    f ≤ x.quot ∧ x.quot ≤ c ∧ (x.rem - min x.rem n = 0 ∨ x.quot < c)
  refine ⟨by omega, ?_, hlow, hhigh, by omega⟩
  rcases hrem with hzero | hlt
  · omega
  · have hsucc : n * (x.quot + 1) ≤ n * c := Nat.mul_le_mul_left n hlt
    rw [Nat.mul_succ] at hsucc
    omega

/-- An uneven share is divided into shares that are as even. -/
theorem fair_div (hdenom : 0 < denom) (hlow : denom * f ≤ numer) (hhigh : numer ≤ denom * c) :
    Fair f c ⟨numer / denom, numer % denom⟩ := by
  have hquot : f ≤ numer / denom := (Nat.le_div_iff_mul_le hdenom).mpr (Nat.mul_comm f denom ▸ hlow)
  have hle : numer / denom ≤ c := Nat.div_le_of_le_mul hhigh
  have hdiv := Nat.div_add_mod numer denom
  refine ⟨hquot, hle, ?_⟩
  change numer % denom = 0 ∨ numer / denom < c
  rcases Nat.lt_or_eq_of_le hle with hlt | heq
  · exact .inr hlt
  · rw [heq] at hdiv
    exact .inl (by omega)

/-! ### The children -/

/-- The ranks of a child. -/
def Child.ranks (ch : Child) : Nat × Nat := (ch.rank, ch.tree_ranks)

/-- The entries of the list that a child is given, that of its own host first. -/
def Child.hosts (ch : Child) : Nat × Nat := (ch.nodelist.getD 0, ch.tree_nodes)

theorem rank_loop_eq (count rank : Nat) :
    rank_loop count rank = ((List.range' rank count).map fun r => ⟨r, 1, 1, none⟩, rank + count) := by
  induction count generalizing rank with
  | zero => rfl
  | succ count ih =>
    rw [rank_loop, ih, List.range'_succ]
    simp only [List.map_cons, Nat.add_right_comm, Nat.add_assoc]

theorem rank_loop_adjacent (count rank : Nat) :
    Tree.Adjacent rank ((rank_loop count rank).1.map Child.ranks) (rank + count) := by
  induction count generalizing rank with
  | zero => rfl
  | succ count ih =>
    have hrest := ih (rank + 1)
    rw [Nat.add_right_comm] at hrest
    exact ⟨rfl, Nat.one_pos, hrest⟩

/-- A child that is given a fair part of the ranks, and its part of the list. -/
structure Child.Given (f c : Nat) (ch : Child) : Prop where
  list : ch.nodelist.isSome
  nodes : 0 < ch.tree_nodes
  low : ch.tree_nodes * f ≤ ch.tree_ranks
  high : ch.tree_ranks ≤ ch.tree_nodes * c

theorem ctrl_loop_succ (count rank sublist : Nat) (npc ppn : nodediv_t) :
    ctrl_loop (count + 1) npc ppn rank sublist =
      let nodes := (nodediv_alloc npc 1).1
      let procs := (nodediv_alloc ppn nodes).1
      let rest := ctrl_loop count (nodediv_alloc npc 1).2 (nodediv_alloc ppn nodes).2 (rank + procs) (sublist + nodes)
      (⟨rank, procs, nodes, some sublist⟩ :: rest.1, rest.2) := rfl

/-- The children are given adjacent ranks and adjacent parts of the list. -/
theorem ctrl_loop_given (hf : 0 < f) (count rank sublist : Nat) (hnpc : 0 < npc.quot) (hppn : Fair f c ppn) :
    (ctrl_loop count npc ppn rank sublist).2 = rank + (nodediv_alloc ppn (nodediv_alloc npc count).1).1 ∧
    Tree.Adjacent rank ((ctrl_loop count npc ppn rank sublist).1.map Child.ranks)
      (ctrl_loop count npc ppn rank sublist).2 ∧
    Tree.Adjacent sublist ((ctrl_loop count npc ppn rank sublist).1.map Child.hosts)
      (sublist + (nodediv_alloc npc count).1) ∧
    ∀ ch ∈ (ctrl_loop count npc ppn rank sublist).1, ch.Given f c := by
  induction count generalizing npc ppn rank sublist with
  | zero =>
    have hnone : ∀ x : nodediv_t, (nodediv_alloc x 0).1 = 0 := by
      intro x
      change 0 * x.quot + min x.rem 0 = 0
      omega
    rw [hnone, hnone]
    exact ⟨rfl, rfl, rfl, nofun⟩
  | succ count ih =>
    have hnodes : 0 < (nodediv_alloc npc 1).1 := by
      change 0 < 1 * npc.quot + min npc.rem 1
      omega
    obtain ⟨hlow, hhigh, hfair⟩ := hppn.alloc (nodediv_alloc npc 1).1
    have hprocs : 0 < (nodediv_alloc ppn (nodediv_alloc npc 1).1).1 :=
      Nat.lt_of_lt_of_le (Nat.mul_pos hnodes hf) hlow
    have hquot : 0 < (nodediv_alloc npc 1).2.quot := hnpc
    obtain ⟨hlast, hranks, hhosts, hgiven⟩ := ih (rank + (nodediv_alloc ppn (nodediv_alloc npc 1).1).1)
      (sublist + (nodediv_alloc npc 1).1) hquot hfair
    rw [ctrl_loop_succ, Nat.add_comm count 1, alloc_add npc 1 count, alloc_add ppn]
    refine ⟨?_, ⟨rfl, hprocs, hranks⟩, ⟨rfl, hnodes, ?_⟩, ?_⟩
    · exact hlast.trans (Nat.add_assoc _ _ _)
    · rw [← Nat.add_assoc]
      exact hhosts
    · intro ch hch
      rcases List.mem_cons.mp hch with rfl | hch
      · exact ⟨rfl, hnodes, hlow, hhigh⟩
      · exact hgiven ch hch

/-- All nodes are divided among the children, as many as the out-degree allows. -/
theorem children_given (hf : 0 < f) {nodes out_degree : Nat} (hdegree : 0 < nodes → 0 < out_degree)
    (hppn : Fair f c ppn) (rank : Nat) :
    ∃ npc ctrl last, (min nodes out_degree ≠ 0 → nodediv nodes (min nodes out_degree) = some npc) ∧
      (min nodes out_degree = 0 → npc = ⟨0, 0⟩) ∧
      ctrl_loop (min nodes out_degree) npc ppn rank 0 = (ctrl, last) ∧ last = rank + (nodediv_alloc ppn nodes).1 ∧
      Tree.Adjacent rank (ctrl.map Child.ranks) last ∧ Tree.Adjacent 0 (ctrl.map Child.hosts) nodes ∧
      ∀ ch ∈ ctrl, ch.Given f c := by
  rcases Nat.eq_zero_or_pos nodes with rfl | hnodes
  · have hnone : (nodediv_alloc ppn 0).1 = 0 := by
      change 0 * ppn.quot + min ppn.rem 0 = 0
      omega
    rw [Nat.zero_min, hnone]
    exact ⟨⟨0, 0⟩, [], rank, fun h => absurd rfl h, fun _ => rfl, rfl, rfl, rfl, rfl, nofun⟩
  · have hpos : 0 < min nodes out_degree := by
      have := hdegree hnodes
      omega
    have hquot : 0 < (⟨nodes / min nodes out_degree, nodes % min nodes out_degree⟩ : nodediv_t).quot :=
      Nat.div_pos (Nat.min_le_left _ _) hpos
    have hloop := ctrl_loop_given hf (min nodes out_degree) rank 0 hquot hppn
    rw [alloc_all hpos, Nat.zero_add] at hloop
    exact ⟨_, _, _, fun _ => if_neg (Nat.ne_of_gt hpos), fun h => absurd h (Nat.ne_of_gt hpos), rfl, hloop⟩

/-- What a control process is given. -/
structure Control.Given (f c : Nat) (p : Control H) : Prop where
  host : p.host.isSome = !p.is_root
  degree : 0 < p.nodelist.length → 0 < p.out_degree
  list : p.tree_nodes = if p.is_root then p.nodelist.length else p.nodelist.length + 1
  nodes : 0 < p.tree_nodes
  low : p.tree_nodes * f ≤ p.tree_ranks
  high : p.tree_ranks ≤ p.tree_nodes * c
  within : p.myrank + p.tree_ranks ≤ p.nranks

/-- The layout of the children of a process: its assertions hold. -/
theorem do_common_given {p : Control H} (hf : 0 < f) (h : p.Given f c) :
    ∃ ctrl k, do_common p = some (ctrl, (rank_loop k p.myrank).1) ∧ (p.is_root = true → k = 0) ∧
      (p.is_root = false → f ≤ k ∧ k ≤ c) ∧
      Tree.Adjacent (p.myrank + k) (ctrl.map Child.ranks) (p.myrank + p.tree_ranks) ∧
      Tree.Adjacent 0 (ctrl.map Child.hosts) p.nodelist.length ∧ ∀ ch ∈ ctrl, ch.Given f c := by
  have hppn := fair_div h.nodes h.low h.high
  have hall : (nodediv_alloc ⟨p.tree_ranks / p.tree_nodes, p.tree_ranks % p.tree_nodes⟩ p.tree_nodes).1 =
      p.tree_ranks := alloc_all h.nodes
  have hdiv : nodediv p.tree_ranks p.tree_nodes = some ⟨p.tree_ranks / p.tree_nodes, p.tree_ranks % p.tree_nodes⟩ :=
    if_neg (Nat.ne_of_gt h.nodes)
  have hlist := h.list
  cases hroot : p.is_root with
  | true =>
    rw [hroot, if_pos rfl] at hlist
    obtain ⟨npc, ctrl, last, hnpc, -, hloop, hlast, hranks, hhosts, hgiven⟩ :=
      children_given hf h.degree hppn p.myrank
    rw [← hlist] at hnpc hloop hlast hhosts ⊢
    have hdegree : 0 < p.out_degree := h.degree (hlist ▸ h.nodes)
    have hnodes := h.nodes
    rw [hall] at hlast
    refine ⟨ctrl, 0, ?_, fun _ => rfl, nofun, hlast ▸ hranks, hhosts, hgiven⟩
    simp only [do_common, hdiv, hroot, if_true, hnpc (by omega), rank_loop_eq, hloop, hlast, Nat.add_zero,
      Option.bind_eq_bind, Option.bind_some, Option.pure_def]
  | false =>
    rw [hroot, if_neg Bool.false_ne_true] at hlist
    obtain ⟨hk, hk', hrest⟩ := hppn.alloc 1
    rw [Nat.one_mul] at hk hk'
    obtain ⟨npc, ctrl, last, hnpc, hzero, hloop, hlast, hranks, hhosts, hgiven⟩ := children_given hf h.degree hrest
      (p.myrank + (nodediv_alloc ⟨p.tree_ranks / p.tree_nodes, p.tree_ranks % p.tree_nodes⟩ 1).1)
    have hlen : p.nodelist.length = p.tree_nodes - 1 := by omega
    have hsum := alloc_add ⟨p.tree_ranks / p.tree_nodes, p.tree_ranks % p.tree_nodes⟩ 1 p.nodelist.length
    rw [Nat.add_comm 1, ← hlist, hall] at hsum
    rw [Nat.add_assoc, ← hsum] at hlast
    rw [hlen] at hnpc hzero hloop
    refine ⟨ctrl, _, ?_, nofun, fun _ => ⟨hk, hk'⟩, hlast ▸ hranks, hhosts, hgiven⟩
    simp only [do_common, hdiv, hroot, if_false, rank_loop_eq, if_true, Bool.false_eq_true, Option.bind_eq_bind,
      Option.bind_some, Option.pure_def]
    -- Without children there is nothing to divide.
    by_cases hne : min (p.tree_nodes - 1) p.out_degree = 0
    · rw [hzero hne] at hloop
      rw [if_neg (not_not_intro hne), hloop]
      exact if_pos hlast
    · rw [if_pos hne, hnpc hne, Option.bind_some, hloop]
      exact if_pos hlast

/-! ### The node list -/

theorem read_entries (l : List H) {a n : Nat} (h : a + n ≤ l.length) :
    ((List.range' a n).mapM fun i => l[i]?) = some ((l.drop a).take n) := by
  induction n generalizing a with
  | zero => rfl
  | succ n ih =>
    have hlt : a < l.length := by omega
    rw [List.range'_succ, List.mapM_cons, ih (by omega), List.getElem?_eq_getElem hlt, List.drop_eq_getElem_cons hlt,
      List.take_succ_cons]
    rfl

/-- The host of a child, and the list that is sent to it, are its part of the list. -/
theorem post_spawn_given {p : Control H} {ch : Child} (dflt : Nat) (hf : 0 < f) (h : p.Given f c)
    (hch : ch.Given f c) (hlist : ch.hosts.1 + ch.hosts.2 ≤ p.nodelist.length) (hlow : p.myrank ≤ ch.rank)
    (hhigh : ch.rank + ch.tree_ranks ≤ p.myrank + p.tree_ranks) :
    ∃ q, post_spawn dflt p ch = some q ∧ q.Given f c ∧ q.is_root = false ∧ q.myrank = ch.rank ∧
      q.tree_ranks = ch.tree_ranks ∧ q.host.toList ++ q.nodelist = (p.nodelist.drop ch.hosts.1).take ch.hosts.2 := by
  obtain ⟨rank, tree_ranks, tree_nodes, nodelist⟩ := ch
  obtain ⟨hsome, hnodes, hfair, hfair'⟩ := hch
  obtain ⟨sublist, rfl⟩ := Option.isSome_iff_exists.mp hsome
  change sublist + tree_nodes ≤ p.nodelist.length at hlist
  change rank + tree_ranks ≤ p.myrank + p.tree_ranks at hhigh
  dsimp only at hnodes hfair hfair'
  have hlt : sublist < p.nodelist.length := by omega
  have hranks : 0 < tree_ranks := Nat.lt_of_lt_of_le (Nat.mul_pos hnodes hf) hfair
  have hwithin := h.within
  have hassert : 0 < p.nranks ∧ rank < p.nranks := by omega
  have hdrop := List.drop_eq_getElem_cons hlt
  rw [post_spawn]
  simp only [Option.getD_some, List.getElem?_eq_getElem hlt, Option.bind_eq_bind, Option.bind_some, if_pos hassert,
    Option.pure_def, Child.hosts, hdrop]
  by_cases hone : 1 < tree_nodes
  · -- The list behind the entry of the child's own host is sent.
    have hmax : max (tree_nodes - 1) 1 = tree_nodes - 1 := by omega
    have hsend : send_nodelist (tree_nodes - 1) p.nodelist (sublist + 1) =
        some ((p.nodelist.drop (sublist + 1)).take (tree_nodes - 1)) := by
      rw [send_nodelist, hmax]
      exact read_entries p.nodelist (by omega)
    have htake : tree_nodes = tree_nodes - 1 + 1 := by omega
    have hlen : ((p.nodelist.drop (sublist + 1)).take (tree_nodes - 1)).length = tree_nodes - 1 := by
      rw [List.length_take, List.length_drop]
      omega
    rw [if_pos hone, hsend]
    refine ⟨_, rfl, ⟨rfl, ?_, ?_, hnodes, hfair, hfair', ?_⟩, rfl, rfl, rfl, ?_⟩
    · intro _
      exact h.degree (by omega)
    · exact htake.trans (congrArg (· + 1) hlen.symm)
    · exact Nat.le_trans hhigh hwithin
    · rw [htake, List.take_succ_cons]
      rfl
  · have hleaf : tree_nodes = 1 := by omega
    subst hleaf
    rw [if_neg hone]
    exact ⟨_, rfl, ⟨rfl, nofun, rfl, hnodes, hfair, hfair', Nat.le_trans hhigh hwithin⟩, rfl, rfl, rfl, rfl⟩

/-! ### The tree of control processes -/

/-- The ranks that are started, in order. -/
def rankProcs (l : List (Layout H)) : List Nat := l.flatMap fun x => x.rank_child.map Child.rank

/-- The hosts of the control processes. -/
def hosts (l : List (Layout H)) : List H := l.filterMap fun x => x.control.host

/-- The children of a process have adjacent ranks, from its first one to its last. -/
def Layout.Divided (x : Layout H) : Prop :=
  Tree.Adjacent x.control.myrank ((x.rank_child ++ x.ctrl_child).map Child.ranks)
    (x.control.myrank + x.control.tree_ranks)

/-- Control processes that come out of `spawn` for one of them, whatever the fuel that suffices. -/
structure Subtree (dflt : Nat) (p : Control H) (l : List (Layout H)) : Prop where
  spawned : ∀ n, p.nodelist.length < n → spawn dflt n p = some l
  hosts : hosts l = p.host.toList ++ p.nodelist
  ranks : rankProcs l = List.range' p.myrank p.tree_ranks

/-- Control processes below the root. -/
structure Below (dflt f c : Nat) (l : List (Layout H)) : Prop where
  host : ∀ x ∈ l, x.control.is_root = false ∧ x.control.host.isSome
  shares : ∀ x ∈ l, f ≤ x.rank_child.length ∧ x.rank_child.length ≤ c
  divided : ∀ x ∈ l, x.Divided
  subtree : ∀ x ∈ l, ∃ m, Subtree dflt x.control m ∧ m <:+: l

variable {dflt : Nat} {l m : List (Layout H)} {ls : List (List (Layout H))} {p : Control H} {cs ctrl : List Child}

theorem hosts_flatten (ls : List (List (Layout H))) : hosts ls.flatten = ls.flatMap hosts := by
  induction ls with
  | nil => rfl
  | cons l ls ih =>
    rw [List.flatten_cons, List.flatMap_cons, ← ih]
    exact List.filterMap_append

theorem rankProcs_flatten (ls : List (List (Layout H))) : rankProcs ls.flatten = ls.flatMap rankProcs := by
  induction ls with
  | nil => rfl
  | cons l ls ih =>
    rw [List.flatten_cons, List.flatMap_cons, ← ih]
    exact List.flatMap_append

theorem Below.flatten (h : ∀ l ∈ ls, Below dflt f c l) : Below dflt f c ls.flatten := by
  constructor
  · exact List.forall_mem_flatten.mpr fun l hl => (h l hl).host
  · exact List.forall_mem_flatten.mpr fun l hl => (h l hl).shares
  · exact List.forall_mem_flatten.mpr fun l hl => (h l hl).divided
  · refine List.forall_mem_flatten.mpr fun l hl x hx => ?_
    obtain ⟨m, hm, hinfix⟩ := (h l hl).subtree x hx
    exact ⟨m, hm, hinfix.trans (List.infix_of_mem_flatten hl)⟩

theorem Below.cons {x : Layout H} (hroot : x.control.is_root = false) (hhost : x.control.host.isSome)
    (hshares : f ≤ x.rank_child.length ∧ x.rank_child.length ≤ c) (hdivided : x.Divided)
    (hsubtree : Subtree dflt x.control (x :: l)) (h : Below dflt f c l) : Below dflt f c (x :: l) := by
  constructor
  · exact List.forall_mem_cons.mpr ⟨⟨hroot, hhost⟩, h.host⟩
  · exact List.forall_mem_cons.mpr ⟨hshares, h.shares⟩
  · exact List.forall_mem_cons.mpr ⟨hdivided, h.divided⟩
  · refine List.forall_mem_cons.mpr ⟨⟨x :: l, hsubtree, List.infix_refl _⟩, fun y hy => ?_⟩
    obtain ⟨m, hm, hinfix⟩ := h.subtree y hy
    exact ⟨m, hm, hinfix.trans (List.suffix_cons x l).isInfix⟩

theorem mapM_all {α β : Type} {F : Nat → α → Option β} {P : α → β → Prop} {k : Nat} (as : List α)
    (h : ∀ a ∈ as, ∃ b, (∀ n, k ≤ n → F n a = some b) ∧ P a b) :
    ∃ bs, (∀ n, k ≤ n → as.mapM (F n) = some bs) ∧ List.Forall₂ P as bs := by
  induction as with
  | nil => exact ⟨[], fun _ _ => rfl, .nil⟩
  | cons a as ih =>
    obtain ⟨b, hb, hab⟩ := h a List.mem_cons_self
    obtain ⟨bs, hbs, hall⟩ := ih fun a ha => h a (List.mem_cons_of_mem _ ha)
    refine ⟨b :: bs, fun n hn => ?_, .cons hab hall⟩
    rw [List.mapM_cons, hb n hn, hbs n hn]
    rfl

theorem flatMap_all {α β γ : Type} {P : α → β → Prop} {F : α → List γ} {G : β → List γ} {as : List α} {bs : List β}
    (h : List.Forall₂ P as bs) (heq : ∀ a b, P a b → G b = F a) : bs.flatMap G = as.flatMap F := by
  induction h with
  | nil => rfl
  | cons hab _ ih => rw [List.flatMap_cons, List.flatMap_cons, ih, heq _ _ hab]

theorem forall_right {α β : Type} {P : α → β → Prop} {Q : β → Prop} {as : List α} {bs : List β}
    (h : List.Forall₂ P as bs) (hQ : ∀ a b, P a b → Q b) : ∀ b ∈ bs, Q b := by
  induction h with
  | nil => exact nofun
  | cons hab _ ih =>
    intro b hb
    rcases List.mem_cons.mp hb with rfl | hb
    · exact hQ _ _ hab
    · exact ih b hb

/-- Every control process spawns those below it: each is on its own entry of the list, and starts its own ranks. -/
theorem spawn_given (dflt : Nat) (hf : 0 < f) (p : Control H) (h : p.Given f c) :
    ∃ x rest, x.control = p ∧ (p.is_root = true → x.rank_child = []) ∧
      (p.is_root = false → f ≤ x.rank_child.length ∧ x.rank_child.length ≤ c) ∧ x.Divided ∧
      Subtree dflt p (x :: rest) ∧ Below dflt f c rest := by
  induction hk : p.nodelist.length using Nat.strongRecOn generalizing p with
  | ind k ih =>
    obtain ⟨ctrl, count, hcommon, hroot, hshare, hranks, hhosts, hgiven⟩ := do_common_given hf h
    -- What comes out for a child.
    have hchild : ∀ ch ∈ ctrl, ∃ m, (∀ n, k ≤ n → (post_spawn dflt p ch >>= spawn dflt n) = some m) ∧
        (hosts m = (p.nodelist.drop ch.hosts.1).take ch.hosts.2 ∧ rankProcs m = List.range' ch.ranks.1 ch.ranks.2 ∧
          Below dflt f c m) := by
      intro ch hch
      have hentry := hhosts.mem (List.mem_map_of_mem hch)
      have hrank := hranks.mem (List.mem_map_of_mem hch)
      change _ ≤ ch.rank ∧ 0 < ch.tree_ranks ∧ ch.rank + ch.tree_ranks ≤ _ at hrank
      obtain ⟨q, hq, hqgiven, hqroot, hqrank, hqranks, hqhosts⟩ :=
        post_spawn_given dflt hf h (hgiven ch hch) (by omega) (by omega) (by omega)
      have hsome : q.host.isSome := by rw [hqgiven.host, hqroot]; rfl
      obtain ⟨host, hhost⟩ := Option.isSome_iff_exists.mp hsome
      have hlen := congrArg List.length hqhosts
      rw [hhost, List.length_append, List.length_take, List.length_drop, Option.toList_some, List.length_singleton] at hlen
      have hlt : q.nodelist.length < k := by omega
      obtain ⟨x, rest, rfl, -, hqshare, hdivided, hsubtree, hbelow⟩ := ih _ hlt q hqgiven rfl
      refine ⟨x :: rest, fun n hn => ?_, hsubtree.hosts.trans hqhosts, ?_,
        hbelow.cons hqroot hsome (hqshare hqroot) hdivided hsubtree⟩
      · rw [hq]
        exact hsubtree.spawned n (by omega)
      · rw [hsubtree.ranks, hqrank, hqranks]
        rfl
    obtain ⟨ls, hls, hall⟩ := mapM_all ctrl hchild
    have hprocs : (rank_loop count p.myrank).1.map Child.rank = List.range' p.myrank count := by
      rw [rank_loop_eq, List.map_map]
      exact List.map_id _
    have hlength : (rank_loop count p.myrank).1.length = count := by
      rw [rank_loop_eq, List.length_map, List.length_range']
    refine ⟨⟨p, ctrl, (rank_loop count p.myrank).1⟩, ls.flatten, rfl, ?_, ?_, ?_, ⟨?_, ?_, ?_⟩,
      Below.flatten (forall_right hall fun _ _ hab => hab.2.2)⟩
    · intro htrue
      rw [hroot htrue]
      rfl
    · intro hfalse
      rw [hlength]
      exact hshare hfalse
    · rw [Layout.Divided, List.map_append]
      exact (rank_loop_adjacent count p.myrank).append hranks
    · intro n hn
      obtain ⟨n, rfl⟩ : ∃ n', n = n' + 1 := ⟨n - 1, by omega⟩
      rw [spawn, hcommon]
      exact congrArg (· >>= _) (hls n (by omega))
    · -- The parts of the list together are the list.
      have hparts := flatMap_all hall (F := fun ch => (p.nodelist.drop ch.hosts.1).take ch.hosts.2) (G := hosts)
        fun _ _ hab => hab.1
      have hwhole := hhosts.flatMap (F := fun a n => (p.nodelist.drop a).take n) (fun _ => List.take_zero)
        fun a m n => by rw [List.take_add, List.drop_drop]
      rw [List.flatMap_map] at hwhole
      have hrest : hosts ls.flatten = p.nodelist := by
        rw [hosts_flatten, hparts, hwhole]
        exact List.take_length
      cases hhost : p.host with
      | none =>
        refine Eq.trans (List.filterMap_cons_none hhost) ?_
        exact hrest
      | some host =>
        refine Eq.trans (List.filterMap_cons_some hhost) ?_
        exact congrArg (host :: ·) hrest
    · have hparts := flatMap_all hall (F := fun ch => List.range' ch.ranks.1 ch.ranks.2) (G := rankProcs)
        fun _ _ hab => hab.2.1
      have hwhole := hranks.flatMap (F := fun a n => List.range' a n) (fun _ => rfl) fun _ _ _ =>
        List.range'_append_1.symm
      have hle := hranks.le
      rw [List.flatMap_map] at hwhole
      change (rank_loop count p.myrank).1.map Child.rank ++ rankProcs ls.flatten = _
      rw [rankProcs_flatten, hparts, hwhole, hprocs, List.range'_append_1]
      congr 1
      omega

theorem map_of_filterMap {α β : Type} {g : α → Option β} {as : List α} {bs : List β} (h : as.filterMap g = bs)
    (hsome : ∀ a ∈ as, (g a).isSome) : as.map g = bs.map some := by
  induction as generalizing bs with
  | nil =>
    subst h
    rfl
  | cons a as ih =>
    obtain ⟨b, hb⟩ := Option.isSome_iff_exists.mp (hsome a List.mem_cons_self)
    rw [List.filterMap_cons_some hb] at h
    subst h
    rw [List.map_cons, List.map_cons, hb, ih rfl fun a ha => hsome a (List.mem_cons_of_mem _ ha)]

/-- The layout of a job with at least one rank for each node: the spawning ends without a failed assertion and
without a read beyond a list, every entry of the list has one control process, in the order of the list, every rank
is started once, in order, and hosts have fair shares. The children of every control process divide its ranks, and
what is below it has these ranks and the part of the list that it was sent. -/
theorem layout (dflt : Nat) (nodelist : List H) (nranks out_degree : Nat) (hnodes : 1 ≤ nodelist.length)
    (hranks : nodelist.length ≤ nranks) (hdegree : 1 ≤ out_degree) :
    ∃ root others, (∀ n, nodelist.length < n →
        spawn dflt n (do_master nranks out_degree nodelist) = some (root :: others)) ∧
      root.control = do_master nranks out_degree nodelist ∧ root.rank_child = [] ∧
      others.map (fun x => x.control.host) = nodelist.map some ∧
      rankProcs (root :: others) = List.range nranks ∧
      (∀ x ∈ others, x.control.is_root = false ∧ (x.rank_child.length = nranks / nodelist.length ∨
        x.rank_child.length = (nranks + nodelist.length - 1) / nodelist.length)) ∧
      ∀ x ∈ root :: others, x.Divided ∧ ∃ m, Subtree dflt x.control m ∧ m <:+: root :: others := by
  have hfloor : 0 < nranks / nodelist.length := Nat.div_pos hranks hnodes
  have hlow : nodelist.length * (nranks / nodelist.length) ≤ nranks := Nat.mul_div_le _ _
  have hdiv := Nat.div_add_mod (nranks + nodelist.length - 1) nodelist.length
  have hmod := Nat.mod_lt (nranks + nodelist.length - 1) hnodes
  have hhigh : nranks ≤ nodelist.length * ((nranks + nodelist.length - 1) / nodelist.length) := by omega
  -- The ceiling is at most one more than the floor.
  have hnext : (nranks + nodelist.length - 1) / nodelist.length ≤ nranks / nodelist.length + 1 := by
    rw [← Nat.add_div_right _ hnodes]
    exact Nat.div_le_div_right (Nat.sub_le _ _)
  have hmaster : (do_master nranks out_degree nodelist).Given (nranks / nodelist.length)
      ((nranks + nodelist.length - 1) / nodelist.length) :=
    ⟨rfl, fun _ => hdegree, rfl, hnodes, hlow, hhigh, Nat.le_of_eq (Nat.zero_add nranks)⟩
  obtain ⟨root, others, hroot, hnone, -, hdivided, hsubtree, hbelow⟩ := spawn_given dflt hfloor _ hmaster
  have hhosts : hosts others = nodelist := by
    have hnohost : root.control.host = none := congrArg Control.host hroot
    have hcons : hosts (root :: others) = hosts others := List.filterMap_cons_none hnohost
    exact hcons.symm.trans hsubtree.hosts
  refine ⟨root, others, hsubtree.spawned, hroot, hnone rfl, map_of_filterMap hhosts fun x hx => (hbelow.host x hx).2,
    ?_, ?_, ?_⟩
  · rw [hsubtree.ranks, List.range_eq_range']
    rfl
  · intro x hx
    have hshares := hbelow.shares x hx
    exact ⟨(hbelow.host x hx).1, by omega⟩
  · refine List.forall_mem_cons.mpr ⟨⟨hdivided, root :: others, hroot ▸ hsubtree, List.infix_refl _⟩, ?_⟩
    intro x hx
    obtain ⟨m, hm, hinfix⟩ := hbelow.subtree x hx
    exact ⟨hbelow.divided x hx, m, hm, hinfix.trans (List.suffix_cons root others).isInfix⟩

/-- Seven ranks on three hosts, with at most two children. -/
theorem layout_example :
    ∃ root others, (∀ n, 3 < n → spawn 32 n (do_master 7 2 ['a', 'b', 'c']) = some (root :: others)) ∧
      root.control = do_master 7 2 ['a', 'b', 'c'] ∧ root.rank_child = [] ∧
      others.map (fun x => x.control.host) = ['a', 'b', 'c'].map some ∧
      rankProcs (root :: others) = List.range 7 ∧
      (∀ x ∈ others, x.control.is_root = false ∧ (x.rank_child.length = 2 ∨ x.rank_child.length = 3)) ∧
      ∀ x ∈ root :: others, x.Divided ∧ ∃ m, Subtree 32 x.control m ∧ m <:+: root :: others :=
  layout 32 ['a', 'b', 'c'] 7 2 (by decide) (by decide) (by decide)

example : (spawn 32 9 (do_master 7 2 ['a', 'b', 'c'])).map (List.map fun l => (l.control.host, l.rank_child.map Child.rank)) =
    some [(none, []), (some 'a', [0, 1, 2]), (some 'b', [3, 4]), (some 'c', [5, 6])] := by
  decide

end Gasnet.SshLayout
