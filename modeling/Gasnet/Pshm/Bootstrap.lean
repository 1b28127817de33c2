import Mathlib.Data.Fintype.Card
import Mathlib.Data.List.FinRange
import Mathlib.Order.Interval.Finset.Fin
import Gasnet.Pshm.Allocator

/-! The bootstrap collectives of PSHMnet: payloads go in chunks, each through a block of its sender and
the queue of its receiver, with a barrier after every chunk. -/
namespace Gasnet.Pshm.Bootstrap

/-- A turn of `gasneti_pshmnet_coll_send`, to one peer, or `gasneti_pshmnet_coll_recv`. -/
inductive Op (n : Nat)
  | send (target : Fin n)
  | recv
  deriving DecidableEq

/-- What the processes of a collective do for each chunk, the distance in the destination between the data
of two ranks, and where a process puts its own data in the end. -/
structure Job (n : Nat) where
  ops : Fin n → List (Op n)
  stride : Nat
  own : Fin n → Option Nat

variable {n : Nat}

/-- All peers, without the process itself. -/
def peers (me : Fin n) : List (Fin n) := (List.finRange n).filter (· ≠ me)

/-- `gasneti_pshmnet_coll_send`. -/
def collSend (me : Fin n) : List (Op n) := (peers me).map .send

/-- `gasneti_pshmnet_bootstrapExchange`. -/
def exchange (n len : Nat) : Job n where
  ops me := (List.finRange n).flatMap fun i => if me = i then collSend me else [.recv]
  stride := len
  own me := some (me * len)

/-- `gasneti_pshmnet_bootstrapGather`. -/
def gather (len : Nat) (root : Fin n) : Job n where
  ops me := if me = root then List.replicate (n - 1) .recv else [.send root]
  stride := len
  own me := if me = root then some (me * len) else none

/-- `gasneti_pshmnet_bootstrapBroadcast`. -/
def broadcast (root : Fin n) : Job n where
  ops me := if me = root then collSend me else [.recv]
  stride := 0
  own me := if me = root then some 0 else none

/-- A block on a queue: the page where it begins in the region of its sender, and its length. -/
structure Message (n : Nat) where
  sender : Fin n
  page : Nat
  len : Nat

/-- Where a process is in the loop over the chunks. -/
inductive Phase
  | test | body | barrier | done
  deriving DecidableEq

/-- What a process is doing for the first of its turns, or, for `releasing`, has done for the one before. -/
inductive Act (n : Nat)
  | idle
  | searching
  | filling (page : Nat)
  | filled (page : Nat)
  | reading (m : Message n)
  | releasing (m : Message n)

/-- A process: how much of `len` is done, the turns that are left for this chunk, and its destination.
`got` is history: from whom it has the chunk. -/
structure Proc (n : Nat) (α : Type*) where
  phase : Phase
  off : Nat
  rest : List (Op n)
  act : Act n
  dst : Nat → α
  got : List (Fin n)

/-- `block j p` is the payload of the block of process `j` at page `p`. -/
structure State (n : Nat) (α : Type*) where
  proc : Fin n → Proc n α
  queue : Fin n → List (Message n)
  alloc : Fin n → Allocator
  block : Fin n → Nat → Nat → α

variable {α : Type*}

/-- `memcpy` and `memmove` of `len` elements to `at`. -/
def copyTo (mem : Nat → α) (dst len : Nat) (data : Nat → α) : Nat → α :=
  fun a => if dst ≤ a ∧ a < dst + len then data (a - dst) else mem a

namespace State

def setProc (s : State n α) (k : Fin n) (p : Proc n α) : State n α :=
  { s with proc := Function.update s.proc k p }

def setAct (s : State n α) (k : Fin n) (a : Act n) : State n α :=
  s.setProc k { s.proc k with act := a }

def setPhase (s : State n α) (k : Fin n) (f : Phase) : State n α :=
  s.setProc k { s.proc k with phase := f }

def setAlloc (s : State n α) (k : Fin n) (a : Allocator) : State n α :=
  { s with alloc := Function.update s.alloc k a }

def setQueue (s : State n α) (k : Fin n) (q : List (Message n)) : State n α :=
  { s with queue := Function.update s.queue k q }

def setBlock (s : State n α) (k : Fin n) (p : Nat) (data : Nat → α) : State n α :=
  { s with block := Function.update s.block k (Function.update (s.block k) p data) }

end State

end Gasnet.Pshm.Bootstrap

namespace Gasnet.Pshm

/-- `GASNETI_PSHMNET_MAX_PAYLOAD`. -/
def NetConfig.maxPayload (c : NetConfig) : Nat := c.allocMaxSz - c.header

namespace Bootstrap

variable {n : Nat} {α : Type*}

/-- `nbytes`, of a chunk that begins at `off`. -/
def nbytes (c : NetConfig) (len off : Nat) : Nat := min (len - off) c.maxPayload

/-- The process has copied its own data, where it does. -/
def Proc.finish (p : Proc n α) (own : Option Nat) (len : Nat) (data : Nat → α) : Proc n α :=
  { p with
    phase := .done
    dst := match own with
      | some d => copyTo p.dst d len data
      | none => p.dst }

/-- The chunk is done: `src_addr`, `dst_addr` and `remain` move on. -/
def Proc.arrive (p : Proc n α) (nbytes : Nat) (ops : List (Op n)) : Proc n α :=
  { p with phase := .barrier, off := p.off + nbytes, rest := ops, got := [] }

/-- The chunk of one sender is in place, and the block still to be released. -/
def Proc.receive (p : Proc n α) (m : Message n) (dst : Nat → α) (rest : List (Op n)) : Proc n α :=
  { p with act := .releasing m, dst := dst, rest := rest, got := m.sender :: p.got }

/-- The steps of process `k`, where process `j` has `len` elements `src j`. -/
inductive Step (c : NetConfig) (job : Job n) (len : Nat) (src : Fin n → Nat → α) (s : State n α) :
    Fin n → State n α → Prop
  /-- `while (remain)`. -/
  | enter {k : Fin n} : (s.proc k).phase = .test → (s.proc k).off < len →
      Step c job len src s k (s.setPhase k .body)
  | exit {k : Fin n} : (s.proc k).phase = .test → ¬(s.proc k).off < len →
      Step c job len src s k (s.setProc k ((s.proc k).finish (job.own k) len (src k)))
  | arrive {k : Fin n} : (s.proc k).phase = .body → (s.proc k).act = .idle → (s.proc k).rest = [] →
      Step c job len src s k
        (s.setProc k ((s.proc k).arrive (nbytes c len (s.proc k).off) (job.ops k)))
  /-- Every process has arrived. -/
  | leave {k : Fin n} : (s.proc k).phase = .barrier → (∀ j, (s.proc k).off ≤ (s.proc j).off) →
      Step c job len src s k (s.setPhase k .test)
  | request {k t : Fin n} {rest : List (Op n)} {a : Allocator} : (s.proc k).phase = .body →
      (s.proc k).act = .idle → (s.proc k).rest = .send t :: rest →
      AllocatorStep c (s.alloc k) (.alloc (nbytes c len (s.proc k).off)) a →
      Step c job len src s k ((s.setAlloc k a).setAct k .searching)
  | search {k : Fin n} {x : AllocatorAction} {a : Allocator} : (s.proc k).act = .searching →
      AllocatorStep c (s.alloc k) x a → x.searches = true → a.search ≠ .idle →
      Step c job len src s k (s.setAlloc k a)
  /-- `NULL`, and the loop of `gasneti_waitwhile` begins again. -/
  | refused {k : Fin n} {p l : Nat} {a : Allocator} : (s.proc k).act = .searching →
      AllocatorStep c (s.alloc k) (.leave p l) a → a.search = .idle →
      Step c job len src s k ((s.setAlloc k a).setAct k .idle)
  | granted {k : Fin n} {p : Nat} {a : Allocator} : (s.proc k).act = .searching →
      AllocatorStep c (s.alloc k) (.take p) a →
      Step c job len src s k ((s.setAlloc k a).setAct k (.filling p))
  /-- What the copy does to the places in the block where headers may have been. -/
  | scribble {k : Fin n} {p : Nat} {a : Allocator} : (s.proc k).act = .filling p →
      AllocatorStep c (s.alloc k) .write a → Step c job len src s k (s.setAlloc k a)
  | fill {k : Fin n} {p : Nat} : (s.proc k).act = .filling p →
      Step c job len src s k
        ((s.setBlock k p (copyTo (s.block k p) 0 (nbytes c len (s.proc k).off)
          fun a => src k ((s.proc k).off + a))).setAct k (.filled p))
  | deliver {k t : Fin n} {p : Nat} {rest : List (Op n)} : (s.proc k).act = .filled p →
      (s.proc k).rest = .send t :: rest →
      Step c job len src s k
        ((s.setQueue t (s.queue t ++ [⟨k, p, nbytes c len (s.proc k).off⟩])).setProc k
          { s.proc k with act := .idle, rest := rest })
  | receive {k : Fin n} {m : Message n} {q : List (Message n)} {rest : List (Op n)} :
      (s.proc k).phase = .body → (s.proc k).act = .idle → (s.proc k).rest = .recv :: rest →
      s.queue k = m :: q →
      Step c job len src s k ((s.setQueue k q).setAct k (.reading m))
  | copy {k : Fin n} {m : Message n} {rest : List (Op n)} : (s.proc k).act = .reading m →
      (s.proc k).rest = .recv :: rest →
      Step c job len src s k (s.setProc k ((s.proc k).receive m
        (copyTo (s.proc k).dst (job.stride * m.sender + (s.proc k).off) m.len
          (s.block m.sender m.page)) rest))
  | release {k : Fin n} {m : Message n} : (s.proc k).act = .releasing m →
      Step c job len src s k
        ((s.setAlloc m.sender ((s.alloc m.sender).free c m.page)).setAct k .idle)

/-- Before a call the queues are empty and the blocks free. -/
structure Start (c : NetConfig) (job : Job n) (s : State n α) : Prop where
  proc : ∀ k, (s.proc k).phase = .test ∧ (s.proc k).off = 0 ∧ (s.proc k).rest = job.ops k ∧
    (s.proc k).act = .idle ∧ (s.proc k).got = []
  queue : ∀ k, s.queue k = []
  alloc : ∀ k, Reachable (AllocatorStep c) (Allocator.initial c) (s.alloc k)
  search : ∀ k, (s.alloc k).search = .idle
  live : ∀ k, (s.alloc k).live = []

end Bootstrap
end Gasnet.Pshm

/-! The order of the turns in a bootstrap collective: a process that sends has first received from all
senders of lower rank. -/
namespace Gasnet.Pshm.Bootstrap

variable {n len : Nat}

/-- Who sends to whom, and how many turns a process receives before it sends and after. -/
structure Plan (job : Job n) (len : Nat) where
  targets : Fin n → List (Fin n)
  pre : Fin n → Nat
  post : Fin n → Nat
  ops : ∀ k, job.ops k =
    List.replicate (pre k) .recv ++ ((targets k).map .send ++ List.replicate (post k) .recv)
  nodup : ∀ k, (targets k).Nodup
  other : ∀ k, k ∉ targets k
  recvs : ∀ k, pre k + post k = (Finset.univ.filter fun j => k ∈ targets j).card
  early : ∀ k, targets k ≠ [] → pre k = (Finset.univ.filter fun j => j < k ∧ k ∈ targets j).card
  back : ∀ j k, targets k ≠ [] → k ∈ targets j → j ∈ targets k
  apart : ∀ i j k, k ∈ targets i → k ∈ targets j → i ≠ j → len ≤ job.stride
  own : ∀ k p, job.own k = some p → p = job.stride * k
  ownApart : ∀ j k p, job.own k = some p → k ∈ targets j → len ≤ job.stride

theorem mem_peers {j k : Fin n} : k ∈ peers j ↔ k ≠ j := by
  simp [peers]

theorem nodup_peers (k : Fin n) : (peers k).Nodup := (List.nodup_finRange n).filter _

theorem card_ne (k : Fin n) : (Finset.univ.filter fun j => k ≠ j).card = n - 1 := by
  rw [Finset.filter_ne, Finset.card_erase_of_mem (Finset.mem_univ k), Finset.card_univ,
    Fintype.card_fin]

theorem flatMap_recv (l : List (Fin n)) (k : Fin n) (h : k ∉ l) :
    (l.flatMap fun i => if k = i then collSend k else [.recv]) = List.replicate l.length .recv := by
  induction l with
  | nil => rfl
  | cons i l ih =>
    rw [List.mem_cons, not_or] at h
    rw [List.flatMap_cons, if_neg h.1, ih h.2]
    rfl

/-- The turns of a process before its own, its own and those after it. -/
theorem exchange_ops (k : Fin n) : (exchange n len).ops k =
    List.replicate k .recv ++ (collSend k ++ List.replicate (n - 1 - k) .recv) := by
  have hk : k.val < (List.finRange n).length := by simp
  have hget : (List.finRange n)[k.val] = k := by simp
  have hsplit : List.finRange n =
      (List.finRange n).take k ++ k :: (List.finRange n).drop (k + 1) := by
    have hdrop := List.drop_eq_getElem_cons hk
    rw [hget] at hdrop
    rw [← hdrop, List.take_append_drop]
  have hnodup := List.nodup_finRange n
  rw [hsplit, List.nodup_append, List.nodup_cons] at hnodup
  have hpre : k ∉ (List.finRange n).take k := fun h =>
    hnodup.2.2 k h k List.mem_cons_self rfl
  have hfirst : ((List.finRange n).take k).length = k := by
    rw [List.length_take, List.length_finRange]
    omega
  have hlast : ((List.finRange n).drop (k + 1)).length = n - 1 - k := by
    rw [List.length_drop, List.length_finRange]
    omega
  show (List.finRange n).flatMap _ = _
  rw [hsplit, List.flatMap_append, List.flatMap_cons, flatMap_recv _ _ hpre,
    flatMap_recv _ _ hnodup.2.1.1, if_pos rfl, hfirst, hlast]

def exchangePlan (n len : Nat) : Plan (exchange n len) len where
  targets := peers
  pre k := k
  post k := n - 1 - k
  ops := exchange_ops
  nodup := nodup_peers
  other k := by simp [mem_peers]
  recvs k := by
    simp only [mem_peers, card_ne]
    omega
  early k _ := by
    have hlt : (Finset.univ.filter fun j => j < k ∧ k ∈ peers j) = Finset.Iio k := by
      ext j
      simp only [mem_peers, Finset.mem_filter, Finset.mem_univ, true_and, Finset.mem_Iio]
      exact ⟨And.left, fun h => ⟨h, h.ne'⟩⟩
    rw [hlt, Fin.card_Iio]
  back j k _ h := by
    rw [mem_peers] at h ⊢
    exact h.symm
  apart _ _ _ _ _ _ := le_rfl
  own k p h := by
    cases h
    exact Nat.mul_comm _ _
  ownApart _ _ _ _ _ := le_rfl

def gatherPlan (len : Nat) (root : Fin n) : Plan (gather len root) len where
  targets k := if k = root then [] else [root]
  pre k := if k = root then n - 1 else 0
  post _ := 0
  ops k := by
    by_cases h : k = root <;> simp [gather, h]
  nodup k := by
    split <;> simp
  other k := by
    split
    · simp
    · rwa [List.mem_singleton]
  recvs k := by
    by_cases h : k = root
    · subst h
      rw [if_pos rfl, Nat.add_zero, ← card_ne k]
      refine congrArg Finset.card ?_
      ext j
      by_cases hj : j = k <;> simp [hj, Ne.symm]
    · rw [if_neg h]
      symm
      rw [Nat.add_zero, Finset.card_eq_zero, Finset.filter_eq_empty_iff]
      intro j _ hj
      split at hj
      · cases hj
      · exact h (List.mem_singleton.1 hj)
  early k hk := by
    by_cases h : k = root
    · rw [if_pos h] at hk
      exact absurd rfl hk
    · rw [if_neg h]
      symm
      rw [Finset.card_eq_zero, Finset.filter_eq_empty_iff]
      rintro j _ ⟨-, hj⟩
      split at hj
      · cases hj
      · exact h (List.mem_singleton.1 hj)
  back j k hk hj := by
    by_cases h : k = root
    · rw [if_pos h] at hk
      exact absurd rfl hk
    · split at hj
      · cases hj
      · exact absurd (List.mem_singleton.1 hj) h
  apart _ _ _ _ _ _ := le_rfl
  own k p h := by
    simp only [gather] at h
    split at h
    · cases h
      exact Nat.mul_comm _ _
    · cases h
  ownApart _ _ _ _ _ := le_rfl

def broadcastPlan (len : Nat) (root : Fin n) : Plan (broadcast root) len where
  targets k := if k = root then peers k else []
  pre k := if k = root then 0 else 1
  post _ := 0
  ops k := by
    by_cases h : k = root <;> simp [broadcast, collSend, h]
  nodup k := by
    split
    · exact nodup_peers k
    · exact List.nodup_nil
  other k := by
    split
    · simp [mem_peers]
    · exact List.not_mem_nil
  recvs k := by
    by_cases h : k = root
    · subst h
      rw [if_pos rfl]
      symm
      rw [Nat.add_zero, Finset.card_eq_zero, Finset.filter_eq_empty_iff]
      intro j _ hj
      split at hj
      · rename_i hjk
        exact mem_peers.1 hj hjk.symm
      · cases hj
    · rw [if_neg h]
      symm
      rw [Nat.add_zero, Finset.card_eq_one]
      refine ⟨root, ?_⟩
      ext j
      by_cases hj : j = root <;> simp [hj, mem_peers, h]
  early k hk := by
    by_cases h : k = root
    · subst h
      rw [if_pos rfl]
      symm
      rw [Finset.card_eq_zero, Finset.filter_eq_empty_iff]
      rintro j _ ⟨hlt, hj⟩
      split at hj
      · rename_i hjk
        exact hlt.ne hjk
      · cases hj
    · rw [if_neg h] at hk
      exact absurd rfl hk
  back j k hk hj := by
    by_cases h : k = root
    · split at hj
      · rename_i hjr
        exact absurd (h.trans hjr.symm) (mem_peers.1 hj)
      · cases hj
    · rw [if_neg h] at hk
      exact absurd rfl hk
  apart i j k hi hj hne := by
    split at hi
    · split at hj
      · rename_i hi' hj'
        exact absurd (hi'.trans hj'.symm) hne
      · cases hj
    · cases hi
  own k p h := by
    simp only [broadcast] at h
    split at h
    · cases h
      simp [broadcast]
    · cases h
  ownApart j k p h hj := by
    simp only [broadcast] at h
    split at h
    · rename_i hk
      split at hj
      · rename_i hjr
        exact absurd (hk.trans hjr.symm) (mem_peers.1 hj)
      · cases hj
    · cases h

end Gasnet.Pshm.Bootstrap
