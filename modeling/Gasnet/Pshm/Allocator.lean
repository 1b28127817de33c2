import Mathlib.Tactic.Ring
import Mathlib.Tactic.Linarith
import Gasnet.Foundation.Run
import Gasnet.Foundation.Tiling

/-! The payload allocator of PSHMnet: the search of `gasneti_pshmnet_alloc`, one step for each
access to a flag that other processes may clear, and `gasneti_pshmnet_free`. -/
namespace Gasnet.Pshm

/-- `round_up_to_pshmpage`. -/
def roundUp (pageShift x : Nat) : Nat :=
  (x + 2 ^ pageShift - 1) / 2 ^ pageShift * 2 ^ pageShift

/-- What the region of one process is sized by. `get_queue_mem` keeps the depth below
`GASNETI_ATOMIC_MAX / GASNETI_PSHMNET_ALLOC_MAXSZ`, where atomics have 32 bits. -/
structure NetConfig where
  pageShift : Nat
  /-- `offsetof(gasneti_pshmnet_allocator_block_t, payload.data)`. -/
  header : Nat
  header_pos : 0 < header
  /-- `GASNETI_SIZEOF_PSHMNET_ALLOCATOR_BLOCK_T`. -/
  blockSize : Nat
  blockSize_pos : 0 < blockSize
  depth : Nat
  depth_min : 4 ≤ depth
  depth_max : depth ≤ (2 ^ 32 - 1) / roundUp pageShift blockSize

namespace NetConfig

variable (c : NetConfig)

def pageSize : Nat := 2 ^ c.pageShift

/-- `GASNETI_PSHMNET_ALLOC_MAXSZ`. -/
def allocMaxSz : Nat := roundUp c.pageShift c.blockSize

/-- `a->count`. -/
def count : Nat := roundUp c.pageShift (c.allocMaxSz * c.depth) / 2 ^ c.pageShift

/-- `p << GASNETI_PSHMNET_PAGESHIFT`, of an `unsigned int`. -/
def shift (p : Nat) : Nat := p * 2 ^ c.pageShift % 2 ^ 32

/-- The pages that hold a block with `nbytes` of payload. -/
def needed (nbytes : Nat) : Nat := (nbytes + c.header + c.pageSize - 1) / c.pageSize

end NetConfig

/-- Where `gasneti_pshmnet_alloc` is: before the flag of `curr` is read, or in the loop that
joins free blocks. -/
inductive Search
  | idle
  | visit (nbytes curr : Nat) (remain : Int)
  | scan (nbytes curr : Nat) (remain : Int) (length : Nat)

/-- `gasneti_pshmnet_allocator_t` and the flags of the blocks by their offsets. The blocks given
out with their payload sizes, and the places visited by this call with the lengths found there,
are history. -/
structure Allocator where
  length : Nat → Nat
  next : Nat
  inUse : Nat → Bool
  search : Search
  live : List (Nat × Nat)
  visited : List (Nat × Nat)

namespace Allocator

variable (c : NetConfig)

/-- `gasneti_pshmnet_init_allocator`. -/
def initial : Allocator where
  length _ := c.count
  next := 0
  inUse _ := false
  search := .idle
  live := []
  visited := []

/-- `a->length[curr] = length` aside, the end of one round of the search. -/
def leave (s : Allocator) (nbytes curr : Nat) (remain : Int) (length : Nat) : Allocator :=
  let next := if curr + length = c.count then 0 else curr + length
  let s := { s with visited := (curr, length) :: s.visited }
  if 0 < remain - length then { s with search := .visit nbytes next (remain - length) }
  else { s with search := .idle, next := next }

/-- Split the block, mark it and return it. -/
def take (s : Allocator) (nbytes curr length : Nat) : Allocator :=
  let needed := c.needed nbytes
  let split : Allocator :=
    if needed < length then
      { s with
        length := Function.update s.length (curr + needed) (length - needed)
        inUse := Function.update s.inUse (c.shift curr + c.shift needed) false }
    else s
  { split with
    length := Function.update split.length curr needed
    inUse := Function.update split.inUse (c.shift curr) true
    next := if curr + needed = c.count then 0 else curr + needed
    search := .idle
    live := (curr, nbytes) :: s.live }

/-- `gasneti_pshmnet_free`. -/
def free (s : Allocator) (p : Nat) : Allocator :=
  { s with
    inUse := Function.update s.inUse (c.shift p) false
    live := s.live.filter fun b => b.1 ≠ p }

end Allocator

inductive AllocatorAction
  | alloc (nbytes : Nat)
  | found
  | grow
  | leave (page length : Nat)
  | take (page : Nat)
  | free (page : Nat)
  | write
  deriving DecidableEq

/-- The steps of the search. -/
def AllocatorAction.searches : AllocatorAction → Bool
  | .found | .grow | .leave .. | .take _ => true
  | _ => false

open Allocator in
/-- A step of the allocator, of a process that frees a block, or of the owner of a block who
writes where a header may have been. -/
inductive AllocatorStep (c : NetConfig) : Allocator → AllocatorAction → Allocator → Prop
  | alloc {s nbytes} (hs : s.search = .idle) (hn : nbytes + c.header ≤ c.allocMaxSz) :
      AllocatorStep c s (.alloc nbytes)
        { s with search := .visit nbytes s.next c.count, visited := [] }
  | busy {s nbytes curr remain} (hs : s.search = .visit nbytes curr remain)
      (hf : s.inUse (c.shift curr) = true) :
      AllocatorStep c s (.leave curr (s.length curr))
        (s.leave c nbytes curr remain (s.length curr))
  | found {s nbytes curr remain} (hs : s.search = .visit nbytes curr remain)
      (hf : s.inUse (c.shift curr) = false) :
      AllocatorStep c s .found { s with search := .scan nbytes curr remain (s.length curr) }
  | grow {s nbytes curr remain length} (hs : s.search = .scan nbytes curr remain length)
      (hl : length < c.needed nbytes) (he : curr + length ≠ c.count)
      (hf : s.inUse (c.shift curr + c.shift length) = false) :
      AllocatorStep c s .grow
        { s with search := .scan nbytes curr remain (length + s.length (curr + length)) }
  | stop {s nbytes curr remain length} (hs : s.search = .scan nbytes curr remain length)
      (hl : length < c.needed nbytes)
      (hf : curr + length = c.count ∨ s.inUse (c.shift curr + c.shift length) = true) :
      AllocatorStep c s (.leave curr length)
        (leave c { s with length := Function.update s.length curr length }
          nbytes curr remain length)
  | take {s nbytes curr remain length} (hs : s.search = .scan nbytes curr remain length)
      (hl : c.needed nbytes ≤ length) :
      AllocatorStep c s (.take curr) (s.take c nbytes curr length)
  | free {s p n} (hp : (p, n) ∈ s.live) : AllocatorStep c s (.free p) (s.free c p)
  | write {s p n x v} (hp : (p, n) ∈ s.live) (hx : p * c.pageSize < x)
      (hx' : x < (p + c.needed n) * c.pageSize) :
      AllocatorStep c s .write { s with inUse := Function.update s.inUse x v }

end Gasnet.Pshm

/-! The invariant of the payload allocator. -/
namespace Gasnet.Pshm

variable {c : NetConfig} {s t : Allocator} {p q n curr length nbytes : Nat} {remain : Int}
  {a : AllocatorAction}

namespace NetConfig

theorem pageSize_pos : 0 < c.pageSize := Nat.two_pow_pos _

theorem dvd_roundUp (k x : Nat) : 2 ^ k ∣ roundUp k x := ⟨_, Nat.mul_comm _ _⟩

theorem le_roundUp (k x : Nat) : x ≤ roundUp k x := by
  have hpos := Nat.two_pow_pos k
  have hdiv := Nat.div_add_mod (x + 2 ^ k - 1) (2 ^ k)
  have hmod := Nat.mod_lt (x + 2 ^ k - 1) hpos
  rw [Nat.mul_comm] at hdiv
  unfold roundUp
  omega

theorem roundUp_of_dvd {k x : Nat} (h : 2 ^ k ∣ x) : roundUp k x = x := by
  obtain ⟨y, rfl⟩ := h
  have hpos := Nat.two_pow_pos k
  have hdiv : (2 ^ k * y + 2 ^ k - 1) / 2 ^ k = y := by
    rw [Nat.add_sub_assoc hpos, Nat.mul_add_div hpos, Nat.div_eq_of_lt (by omega), Nat.add_zero]
  rw [roundUp, hdiv, Nat.mul_comm]

theorem count_mul : c.count * c.pageSize = c.allocMaxSz * c.depth := by
  have hdvd : 2 ^ c.pageShift ∣ c.allocMaxSz * c.depth := (dvd_roundUp _ _).mul_right _
  rw [count, roundUp_of_dvd hdvd]
  exact Nat.div_mul_cancel hdvd

/-- The region is smaller than 4 GiB, so no offset overflows. -/
theorem count_mul_lt : c.count * c.pageSize < 2 ^ 32 := by
  rw [count_mul]
  have hle := Nat.mul_le_mul_left c.allocMaxSz c.depth_max
  have hdiv := Nat.mul_div_le (2 ^ 32 - 1) c.allocMaxSz
  have : (0 : Nat) < 2 ^ 32 := by norm_num
  unfold allocMaxSz at *
  omega

theorem count_pos : 0 < c.count := by
  by_contra h
  have hzero : c.count = 0 := by omega
  have hmul := c.count_mul
  rw [hzero, Nat.zero_mul] at hmul
  have hmax : 0 < c.allocMaxSz := lt_of_lt_of_le c.blockSize_pos (le_roundUp _ _)
  have hdepth := c.depth_min
  have := Nat.mul_pos hmax (by omega : 0 < c.depth)
  omega

theorem shift_eq (hp : p ≤ c.count) : c.shift p = p * c.pageSize := by
  have hle := Nat.mul_le_mul_right c.pageSize hp
  exact Nat.mod_eq_of_lt (lt_of_le_of_lt hle c.count_mul_lt)

theorem shift_add (h : p + n ≤ c.count) : c.shift p + c.shift n = (p + n) * c.pageSize := by
  rw [shift_eq (by omega), shift_eq (by omega), Nat.add_mul]

theorem needed_pos : 0 < c.needed nbytes := by
  have hpos := c.pageSize_pos
  have := c.header_pos
  exact Nat.div_pos (by omega) hpos

/-- A block has room for its header and its payload. -/
theorem le_needed (c : NetConfig) (nbytes : Nat) :
    nbytes + c.header ≤ c.needed nbytes * c.pageSize := le_roundUp _ _

end NetConfig

namespace Allocator

/-- The flag of the block at page `p`. -/
def busy (c : NetConfig) (s : Allocator) (p : Nat) : Bool := s.inUse (p * c.pageSize)

/-- Page `q` is in a block that the search has visited. -/
def Covered (s : Allocator) (q : Nat) : Prop := ∃ b ∈ s.visited, b.1 ≤ q ∧ q < b.1 + b.2

/-- The search has come from `next` to `curr`, before or after the end of the region. -/
def Passed (c : NetConfig) (s : Allocator) (curr : Nat) (remain : Int) : Prop :=
  0 < remain ∧ s.next < c.count ∧
    (curr + remain = s.next + c.count ∧ (∀ q, s.next ≤ q → q < curr → s.Covered q) ∨
      curr + remain = s.next ∧ (∀ q, s.next ≤ q → q < c.count → s.Covered q) ∧
        ∀ q < curr, s.Covered q)

/-- Where the search stands. -/
def SearchInv (c : NetConfig) (s : Allocator) : Prop :=
  match s.search with
  | .idle => Boundary s.length c.count s.next ∧ s.next < c.count
  | .visit nbytes curr remain => nbytes + c.header ≤ c.allocMaxSz ∧
      Boundary s.length c.count curr ∧ curr < c.count ∧ s.Passed c curr remain
  | .scan nbytes curr remain length => nbytes + c.header ≤ c.allocMaxSz ∧
      Boundary s.length c.count curr ∧ curr < c.count ∧ s.Passed c curr remain ∧
      0 < length ∧ Boundary s.length c.count (curr + length) ∧
      ∀ q, Boundary s.length c.count q → curr ≤ q → q < curr + length → s.busy c q = false

/-- A block that was given out and not freed. -/
structure LiveInv (c : NetConfig) (s : Allocator) (p n : Nat) : Prop where
  boundary : Boundary s.length c.count p
  lt : p < c.count
  length : s.length p = c.needed n
  busy : s.busy c p = true

structure Inv (c : NetConfig) (s : Allocator) : Prop where
  tiles : Tiles s.length c.count
  live : ∀ p n, (p, n) ∈ s.live → s.LiveInv c p n
  nodup : (s.live.map Prod.fst).Nodup
  owned : ∀ p, Boundary s.length c.count p → p < c.count → s.busy c p = true →
    ∃ n, (p, n) ∈ s.live
  search : s.SearchInv c

theorem inv_initial (c : NetConfig) : (initial c).Inv c where
  tiles := tiles_single c.count_pos rfl
  live := by simp [initial]
  nodup := by simp [initial]
  owned p _ _ h := by simp [busy, initial] at h
  search := ⟨.zero, c.count_pos⟩

theorem Inv.le_count (hs : s.Inv c) (hp : Boundary s.length c.count p) : p ≤ c.count :=
  hs.tiles.le p hp

/-- Only live blocks are busy, and a live block lies outside a run of free ones. -/
theorem Inv.live_out (hs : s.Inv c) (hlive : (p, n) ∈ s.live)
    (hfree : ∀ q, Boundary s.length c.count q → curr ≤ q → q < curr + length →
      s.busy c q = false) : ¬(curr ≤ p ∧ p < curr + length) := by
  rintro ⟨h₁, h₂⟩
  have hl := hs.live p n hlive
  have := hfree p hl.boundary h₁ h₂
  rw [hl.busy] at this
  cases this

end Allocator
end Gasnet.Pshm
