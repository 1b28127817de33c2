import Gasnet.Foundation.Odometer
import Gasnet.Foundation.Memory

/-! Strided metadata and its normalization, `gasnete_build_smd`. -/
namespace Gasnet.Strided

/-- `gasneti_vis_smd_dim_t`. -/
structure Dim where
  count : Word
  self : Word
  peer : Word
  deriving DecidableEq, Repr

/-- The normative part of `gasneti_vis_smd_t`; `stridelevels` is the length of `dim`. -/
structure Smd where
  elemsz : Word
  self : Word
  peer : Word
  dim : List Dim
  deriving DecidableEq, Repr

/-- The loop state of pass 1. -/
structure Scan where
  self : Word
  peer : Word
  dim : List Dim
  lastPeer : Word
  sorted : Bool
  deriving DecidableEq, Repr

/-- `*outdim++ = d`. -/
def Scan.push (a : Scan) (d : Dim) : Scan :=
  { a with
    dim := a.dim ++ [d]
    lastPeer := d.peer
    sorted := a.sorted && a.lastPeer.sle d.peer }

/-- Start from the other end of the dimension. -/
def Scan.invert (a : Scan) (d : Dim) : Scan :=
  { a with
    self := a.self + d.self * (d.count - 1)
    peer := a.peer + d.peer * (d.count - 1) }

def Dim.invert (d : Dim) : Dim := { d with self := -d.self, peer := -d.peer }

/-- The body of pass 1. -/
def Scan.step (a : Scan) (d : Dim) : Option Scan :=
  if d.count = 0 then none
  else if d.count = 1 then some a
  else if d.peer.slt 0 then some ((a.invert d).push d.invert)
  else some (a.push d)

/-- The inner loop of pass 2: the index of the first smallest peer stride. -/
def minDim : List Dim → (j : Nat) → (minstride : Word) → (mindim : Nat) → Nat
  | [], _, _, mindim => mindim
  | d :: l, j, minstride, mindim =>
    if d.peer.slt minstride then minDim l (j + 1) d.peer j else minDim l (j + 1) minstride mindim

/-- The body of the outer loop of pass 2. -/
def swapMin (dim : List Dim) (i : Nat) : List Dim :=
  match dim[i]? with
  | none => dim
  | some tmp =>
    let mindim := minDim (dim.drop (i + 1)) (i + 1) tmp.peer i
    match dim[mindim]? with
    | none => dim
    | some d => if mindim = i then dim else (dim.set i d).set mindim tmp

/-- Pass 2. -/
def sortDims (dim : List Dim) : List Dim := (List.range (dim.length - 1)).foldl swapMin dim

/-- Pass 3. -/
def foldContig (elemsz : Word) : List Dim → Word × List Dim
  | [] => (elemsz, [])
  | d :: l =>
    if d.self = elemsz ∧ d.peer = elemsz then foldContig (elemsz * d.count) l
    else (elemsz, d :: l)

/-- The loop of pass 4, with `lodim` and what is left for `hidim`. -/
def foldInner (lo : Dim) : List Dim → List Dim
  | [] => [lo]
  | hi :: l =>
    if hi.self = lo.self * lo.count ∧ hi.peer = lo.peer * lo.count then
      foldInner { lo with count := lo.count * hi.count } l
    else lo :: foldInner hi l

/-- Pass 4. -/
def foldDims : List Dim → List Dim
  | [] => []
  | lo :: l => foldInner lo l

/-- The dimensions as the caller gave them. -/
def callerDims {n : Nat} (selfstrides peerstrides count : Fin n → Word) : List Dim :=
  List.ofFn fun d => ⟨count d, selfstrides d, peerstrides d⟩

def buildSmd {n : Nat} (selfaddr : Word) (selfstrides : Fin n → Word) (peeraddr : Word)
    (peerstrides : Fin n → Word) (elemsz : Word) (count : Fin n → Word) : Option Smd :=
  match (callerDims selfstrides peerstrides count).foldlM Scan.step
      ⟨selfaddr, peeraddr, [], -1, true⟩ with
  | none => none
  | some a =>
    let dim := if a.sorted then a.dim else sortDims a.dim
    let (elemsz, dim) := foldContig elemsz dim
    some ⟨elemsz, a.self, a.peer, foldDims dim⟩

/-- The extent and the step of a dimension. -/
def Dim.step (d : Dim) : ℕ × (Word × Word) := (d.count.toNat, d.self, d.peer)

/-- The (self, peer) addresses of the bytes of a transfer. -/
def bytes (elemsz self peer : Word) (dim : List Dim) : Multiset (Word × Word) :=
  (box ((elemsz.toNat, 1, 1) :: dim.map Dim.step)).map ((self, peer) + ·)

def Smd.bytes (smd : Smd) : Multiset (Word × Word) :=
  Strided.bytes smd.elemsz smd.self smd.peer smd.dim

/-- `gasnete_strided_datasize`, without wrapping. -/
def datasize (elemsz : Word) (dim : List Dim) : ℕ :=
  elemsz.toNat * (dim.map fun d => d.count.toNat).prod

end Gasnet.Strided

/-! The traversal macros `GASNETE_1STRIDED_HELPER`, `GASNETE_2STRIDED_HELPER` and
`GASNETE_STRIDED_VECTOR_INC`. -/
namespace Gasnet.Strided

variable {A : Type*} [AddCommGroup A] {dims : List (ℕ × A)} {base : A} {k n : ℕ}

/-- `GASNETE_STRIDED_VECTOR_INC`. -/
def vectorInc : (count init : List ℕ) → (incval : ℕ) → List ℕ
  | thismax :: count, i :: init, incval =>
    let thisinit := i + incval
    if thisinit < thismax then thisinit :: init
    else thisinit % thismax :: vectorInc count init (thisinit / thismax)
  | _, init, _ => init

theorem vectorInc_digits (count : List ℕ) (k n : ℕ) :
    vectorInc count (digits count k) n = digits count (k + n) := by
  induction count generalizing k n with
  | nil => rfl
  | cons c count ih =>
    simp only [digits, vectorInc]
    split
    · rename_i h
      have hk : k + n = k % c + n + c * (k / c) := by
        have := Nat.mod_add_div k c
        omega
      rw [hk, Nat.add_mul_mod_self_left, Nat.mod_eq_of_lt h,
        Nat.add_mul_div_left _ _ (by omega), Nat.div_eq_of_lt h, Nat.zero_add]
    · rw [ih, Nat.mod_add_mod]
      congr 2
      rcases Nat.eq_zero_or_pos c with rfl | hc
      · simp
      · have hk : k + n = k % c + n + c * (k / c) := by
          have := Nat.mod_add_div k c
          omega
        rw [hk, Nat.add_mul_div_left _ _ hc, add_comm]

/-- A chunk the loop body is run for: its address, and its coordinates counted down as in
`_idx`. -/
abbrev Visit (A : Type*) := A × List ℕ

/-- The loop under `HAVEPARTIAL`, from its body with `_strided_chunkcnt = n + 1`, and where the
cleanup leaves the cursor unless the loop nest terminated. -/
def walk (dims : List (ℕ × A)) : ℕ → A → List ℕ → List (Visit A) × Option (Visit A)
  | 0, p, idx =>
    let (bump, idx', _) := tick 0 dims idx
    ([(p, idx)], some (p + bump, idx'))
  | n + 1, p, idx =>
    match tick 0 dims idx with
    | (bump, idx', false) =>
      let (visits, cursor) := walk dims n (p + bump) idx'
      ((p, idx) :: visits, cursor)
    | (_, _, true) => ([(p, idx)], none)

/-- `stride1iter(0) * init[0] + ...` -/
def advance : List (ℕ × A) → (init : List ℕ) → A
  | (_, s) :: dims, i :: init => i • s + advance dims init
  | _, _ => 0

/-- The helper with `GASNETE_STRIDED_HELPER_DECLARE_PARTIAL`: the chunks visited, then `p1base`
and `init` on exit. The last parameter is an `int`. -/
def stridedPartial (dims : List (ℕ × A)) (p1base : A) (numchunks : ℕ) (init : List ℕ)
    (addrAlreadyOffset : Bool) (updateAddrInit : BitVec 32) : List (Visit A) × A × List ℕ :=
  let count := dims.map Prod.fst
  let p := if addrAlreadyOffset then p1base else p1base + advance dims init
  let (visits, cursor) := walk dims (numchunks - 1) p (List.zipWith (· - ·) count init)
  match cursor with
  | some (p, idx) =>
    if updateAddrInit ≠ 0 then (visits, p, List.zipWith (· - ·) count idx)
    else (visits, p1base, init)
  | none => (visits, p1base, init)

/-- The loop without `HAVEPARTIAL`. -/
def sweep (dims : List (ℕ × A)) : (fuel : ℕ) → A → List ℕ → List (Visit A)
  | 0, _, _ => []
  | fuel + 1, p, idx =>
    match tick 0 dims idx with
    | (bump, idx', false) => (p, idx) :: sweep dims fuel (p + bump) idx'
    | (_, _, true) => [(p, idx)]

/-- The helper without `DECLARE_PARTIAL`, with more fuel than there are chunks. -/
def strided (dims : List (ℕ × A)) (p1base : A) : List (Visit A) :=
  sweep dims (extent dims + 1) p1base (dims.map Prod.fst)

/-- The visit of the chunk at position `k`. -/
def visit (dims : List (ℕ × A)) (base : A) (k : ℕ) : Visit A :=
  (base + offset dims k, countdown (dims.map Prod.fst) k)

theorem advance_digits (dims : List (ℕ × A)) (k : ℕ) :
    advance dims (digits (dims.map Prod.fst) k) = offset dims k := by
  induction dims generalizing k with
  | nil => rfl
  | cons x dims ih => simp [digits, advance, offset, ih]

theorem walk_visits (hd : ∀ x ∈ dims, x.1 ≠ 0) (h : k + n < extent dims) :
    (walk dims n (base + offset dims k) (countdown (dims.map Prod.fst) k)).1 =
      (List.range' k (n + 1)).map (visit dims base) := by
  induction n generalizing k with
  | zero => rfl
  | succ n ih =>
    rw [walk, tick_countdown hd _ (by omega), List.range'_succ, List.map_cons]
    have hp : base + offset dims k + (offset dims (k + 1) - offset dims k - 0) =
        base + offset dims (k + 1) := by abel
    simp only [hp]
    rw [ih (by omega)]
    rfl

/-- Short of the end, the cleanup leaves the cursor on the next chunk. -/
theorem walk_cursor (hd : ∀ x ∈ dims, x.1 ≠ 0) (h : k + n + 1 < extent dims) :
    (walk dims n (base + offset dims k) (countdown (dims.map Prod.fst) k)).2 =
      some (visit dims base (k + n + 1)) := by
  induction n generalizing k with
  | zero =>
    rw [walk, tick_countdown hd _ h]
    simp only [visit, Nat.add_zero, Option.some.injEq, Prod.mk.injEq, and_true]
    abel
  | succ n ih =>
    rw [walk, tick_countdown hd _ (by omega)]
    have hp : base + offset dims k + (offset dims (k + 1) - offset dims k - 0) =
        base + offset dims (k + 1) := by abel
    simp only [hp]
    rw [ih (by omega), show k + 1 + n + 1 = k + (n + 1) + 1 by omega]

theorem sweep_visits (hd : ∀ x ∈ dims, x.1 ≠ 0) (h : k + n + 1 = extent dims) :
    sweep dims (n + 2) (base + offset dims k) (countdown (dims.map Prod.fst) k) =
      (List.range' k (n + 1)).map (visit dims base) := by
  induction n generalizing k with
  | zero =>
    have hlast := tick_last hd (0 : A) h
    rcases ht : tick 0 dims (countdown (dims.map Prod.fst) k) with ⟨bump, idx, round⟩
    rw [ht] at hlast
    obtain rfl : round = true := hlast
    rw [sweep, ht]
    rfl
  | succ n ih =>
    rw [sweep, tick_countdown hd _ (by omega), List.range'_succ, List.map_cons]
    have hp : base + offset dims k + (offset dims (k + 1) - offset dims k - 0) =
        base + offset dims (k + 1) := by abel
    simp only [hp]
    rw [ih (by omega)]
    rfl

/-- The full traversal visits every position once, in order. -/
theorem strided_eq (hd : ∀ x ∈ dims, x.1 ≠ 0) (base : A) :
    strided dims base = (List.range' 0 (extent dims)).map (visit dims base) := by
  have hpos := extent_pos hd
  have h := @sweep_visits A _ dims base 0 (extent dims - 1) hd (by omega)
  rw [offset_zero, add_zero, countdown_zero] at h
  rw [strided, show extent dims + 1 = extent dims - 1 + 2 by omega, h]
  congr 2
  omega

/-- A partial traversal resumed at position `k`. -/
theorem stridedPartial_eq (hd : ∀ x ∈ dims, x.1 ≠ 0) (hn : 0 < n) (h : k + n ≤ extent dims)
    (off : Bool) (update : BitVec 32) (hu : k + n = extent dims → update = 0) :
    stridedPartial dims (if off then base + offset dims k else base) n
        (digits (dims.map Prod.fst) k) off update =
      ((List.range' k n).map (visit dims base),
        if update ≠ 0 then base + offset dims (k + n)
          else if off then base + offset dims k else base,
        digits (dims.map Prod.fst) (if update ≠ 0 then k + n else k)) := by
  have hc : ∀ c ∈ dims.map Prod.fst, c ≠ 0 := by
    intro c hc
    rcases List.mem_map.mp hc with ⟨x, hx, rfl⟩
    exact hd x hx
  have hp : (if off then (if off then base + offset dims k else base)
      else (if off then base + offset dims k else base) + offset dims k) =
      base + offset dims k := by
    cases off <;> simp
  have hv := @walk_visits A _ dims base k (n - 1) hd (by omega)
  rw [Nat.sub_add_cancel hn] at hv
  unfold stridedPartial
  simp only [advance_digits, hp, ← countdown_eq_zipWith]
  rcases hw : walk dims (n - 1) (base + offset dims k) (countdown (dims.map Prod.fst) k) with
    ⟨visits, cursor⟩
  rw [hw] at hv
  obtain rfl : visits = _ := hv
  by_cases hz : update = 0
  · cases cursor <;> simp [hz]
  · have hlt : k + (n - 1) + 1 < extent dims := by
      by_contra hge
      exact hz (hu (by omega))
    have hcur := @walk_cursor A _ dims base k (n - 1) hd hlt
    rw [hw] at hcur
    obtain rfl : cursor = _ := hcur
    simp only [ne_eq, hz, not_false_eq_true, if_true, visit, zipWith_countdown hc]
    rw [show k + (n - 1) + 1 = k + n by omega]

end Gasnet.Strided
