import Mathlib.Data.List.Flatten
import Mathlib.Data.List.Nodup
import Mathlib.Logic.Function.Basic
import Gasnet.Foundation.Memory

/-! The region lists of firehose-page: the pools that gather buckets to pin, and the list of regions
that the oldest victims are unpinned from. `FH_BUCKET_SIZE` is `B`. -/
namespace Gasnet.Firehose.Page

/-- `firehose_region_t`, without the node and the client. -/
structure Region where
  addr : Word
  len : Word
  deriving DecidableEq

/-- The buckets of a region, in order. -/
def Region.buckets (B : Word) (r : Region) : List Word :=
  (List.range (r.len.toNat / B.toNat)).map fun i => r.addr + BitVec.ofNat 64 i * B

/-- `fhi_RegionPool_t`. Its memory is as `gasneti_malloc` or the last user left it. -/
structure Pool where
  regions : Nat → Region
  regionsNum : Nat
  bucketsNum : Int

/-- A pool as `fhi_AllocRegionPool` returns it. -/
def allocated (memory : Nat → Region) : Pool := ⟨memory, 0, 0⟩

/-- `fh_bucket_AddtoPool`. -/
def addtoPool (B : Word) (p : Pool) (bucketAddr : Word) : Pool :=
  if p.regionsNum = 0 then
    { regions := Function.update p.regions 0 ⟨bucketAddr, B⟩, regionsNum := 1
      bucketsNum := p.bucketsNum + 1 }
  else
    let lastR := p.regionsNum - 1
    if (p.regions lastR).addr + (p.regions lastR).len = bucketAddr then
      { p with
        regions := Function.update p.regions lastR
          { p.regions lastR with len := (p.regions lastR).len + B }
        bucketsNum := p.bucketsNum + 1 }
    else
      { regions := Function.update p.regions (lastR + 1) ⟨bucketAddr, B⟩
        regionsNum := p.regionsNum + 1
        bucketsNum := p.bucketsNum + 1 }

/-- `fh_bucket_PopfromPool`. The last region is at `regions_num - 1`; this one looks behind it. -/
def popfromPool (B : Word) (p : Pool) : Word × Pool :=
  let lastReg := p.regions p.regionsNum
  if lastReg.len = B then
    (lastReg.addr,
      { regions := Function.update p.regions p.regionsNum ⟨0, 0⟩
        regionsNum := p.regionsNum - 1
        bucketsNum := p.bucketsNum - 1 })
  else
    let len := lastReg.len - B
    (lastReg.addr + len - B,
      { p with
        regions := Function.update p.regions p.regionsNum { lastReg with len := len }
        bucketsNum := p.bucketsNum - 1 })

/-- A pool after a sequence of additions. -/
def filled (B : Word) (memory : Nat → Region) (xs : List Word) : Pool :=
  xs.foldl (addtoPool B) (allocated memory)

/-- The two pools hold the same list. -/
def Pool.Same (p q : Pool) : Prop :=
  q.regionsNum = p.regionsNum ∧ q.bucketsNum = p.bucketsNum ∧
    ∀ i < p.regionsNum, q.regions i = p.regions i

/-- Taking back the bucket that was just added returns it, and undoes the addition. -/
def PopInverts (B : Word) (p : Pool) (x : Word) : Prop :=
  (popfromPool B (addtoPool B p x)).1 = x ∧ p.Same (popfromPool B (addtoPool B p x)).2

/-- An added bucket becomes a region of its own. -/
def Pool.StartsRegion (p : Pool) (x : Word) : Prop :=
  p.regionsNum = 0 ∨
    (p.regions (p.regionsNum - 1)).addr + (p.regions (p.regionsNum - 1)).len ≠ x

/-- `fh_key_t`. -/
structure Key where
  addr : Word
  node : Word
  deriving DecidableEq

/-- A bucket descriptor: its key, and its link in the free list. -/
structure Bucket where
  key : Key
  next : Option Nat

/-- The descriptors, `fh_BucketTable` and `fh_buckets_freehead`. -/
structure Buckets where
  bucket : Nat → Bucket
  table : Key → Option Nat
  freehead : Option Nat

/-- `FH_BADDR`. -/
def Buckets.baddr (t : Buckets) (bd : Nat) : Word := (t.bucket bd).key.addr

/-- `fh_bucket_remove`: the descriptor is cleared as it goes back to the free list. -/
def bucketRemove (t : Buckets) (bd : Nat) : Buckets where
  table := Function.update t.table (t.bucket bd).key none
  bucket := Function.update t.bucket bd ⟨⟨0, 0⟩, t.freehead⟩
  freehead := some bd

/-- `reg[j].len += FH_BUCKET_SIZE`. -/
def extendLast (B : Word) (reg : List Region) : List Region :=
  reg.modify (reg.length - 1) fun r => { r with len := r.len + B }

/-- The loop of `fh_FreeVictim` with `buckets` rounds to go, in round `i`. -/
def freeVictimLoop (B : Word) : (buckets i : Nat) → (nextAddr : Word) → List Region → Buckets →
    List Nat → Option (List Region × Buckets × List Nat)
  | 0, _, _, reg, t, fifo => some (reg, t, fifo)
  | _ + 1, _, _, _, _, [] => none
  | n + 1, i, nextAddr, reg, t, bd :: fifo =>
    let reg' := if 0 < i ∧ t.baddr bd = nextAddr then extendLast B reg
      else reg ++ [⟨t.baddr bd, B⟩]
    let t' := bucketRemove t bd
    -- the descriptor is read again here
    freeVictimLoop B n (i + 1) (t'.baddr bd + B) reg' t' fifo

/-- `fh_FreeVictim`: the regions it writes, and the tables and the FIFO it leaves. -/
def freeVictim (B : Word) (buckets : Nat) (t : Buckets) (fifo : List Nat) :
    Option (List Region × Buckets × List Nat) :=
  freeVictimLoop B buckets 0 0 [] t fifo

/-- `FH_MIN_REGIONS_FOR_BUCKETS`. -/
def minRegionsForBuckets (buckets : Nat) : Nat := (buckets + 1) / 2

/-- The regions that the pool of `fhi_AllocRegionPool` has room for. -/
def allocRegionPool (count : Nat) : Nat := if 32768 < count then count else 32768

/-- A victim FIFO: no descriptor is in it twice, and the table finds each by its key, which has the
node of the FIFO and an address other than NULL. -/
structure VictimFifo (t : Buckets) (node : Word) (fifo : List Nat) : Prop where
  nodup : fifo.Nodup
  node_eq : ∀ bd ∈ fifo, (t.bucket bd).key.node = node
  hashed : ∀ bd ∈ fifo, t.table (t.bucket bd).key = some bd
  ne_null : ∀ bd ∈ fifo, t.baddr bd ≠ 0

/-- The addresses of the first `count` buckets of a FIFO. -/
def victims (t : Buckets) (count : Nat) (fifo : List Nat) : List Word :=
  (fifo.take count).map t.baddr

/-- What the two kinds of lists are for: an addition to a pool can be taken back, and the victims are
listed as they are, in the room that `fh_acquire_local_region` has for `bNum` buckets. -/
structure ListsRight (B : Word) (p : Pool) (x : Word) (t : Buckets) (fifo : List Nat)
    (count bNum : Nat) : Prop where
  inverts : PopInverts B p x
  freed : ∃ reg t' rest, freeVictim B count t fifo = some (reg, t', rest) ∧
    reg.flatMap (Region.buckets B) = victims t count fifo ∧
    reg.length ≤ allocRegionPool (minRegionsForBuckets bNum)

section Pools

variable {B x : Word} {p : Pool}

theorem addtoPool_starts (h : p.StartsRegion x) : addtoPool B p x =
    ⟨Function.update p.regions p.regionsNum ⟨x, B⟩, p.regionsNum + 1, p.bucketsNum + 1⟩ := by
  rcases Nat.eq_zero_or_pos p.regionsNum with hzero | hpos
  · simp [addtoPool, hzero]
  · have hne := h.resolve_left hpos.ne'
    simp only [addtoPool, if_neg hpos.ne', if_neg hne, Nat.sub_add_cancel hpos]

/-- The region behind the last one counts one bucket. -/
theorem popfromPool_single (h : (p.regions p.regionsNum).len = B) : popfromPool B p =
    ((p.regions p.regionsNum).addr,
      ⟨Function.update p.regions p.regionsNum ⟨0, 0⟩, p.regionsNum - 1, p.bucketsNum - 1⟩) :=
  if_pos h

/-- The number of regions stays, and so do the regions. -/
theorem popfromPool_multi (h : (p.regions p.regionsNum).len ≠ B) {i : Nat} (hi : i < p.regionsNum) :
    (popfromPool B p).2.regionsNum = p.regionsNum ∧
      (popfromPool B p).2.regions i = p.regions i := by
  rw [popfromPool, if_neg h]
  exact ⟨rfl, Function.update_of_ne hi.ne _ _⟩

/-- The slot behind the last region decides. -/
theorem popInverts_iff (hB : B ≠ 0) :
    PopInverts B p x ↔ p.StartsRegion x ∧ p.regions (p.regionsNum + 1) = ⟨x, B⟩ := by
  by_cases h : p.StartsRegion x
  · have hadd := addtoPool_starts (B := B) h
    have hslot : (addtoPool B p x).regions (addtoPool B p x).regionsNum
        = p.regions (p.regionsNum + 1) := by
      rw [hadd]
      exact Function.update_of_ne (by simp) _ _
    have hnum : (addtoPool B p x).regionsNum = p.regionsNum + 1 := by rw [hadd]
    by_cases hlen : (p.regions (p.regionsNum + 1)).len = B
    · have hpop := popfromPool_single (p := addtoPool B p x) (hslot ▸ hlen)
      rw [hslot] at hpop
      constructor
      · rintro ⟨hx, -⟩
        rw [hpop] at hx
        refine ⟨h, ?_⟩
        calc p.regions (p.regionsNum + 1)
            = ⟨(p.regions (p.regionsNum + 1)).addr, (p.regions (p.regionsNum + 1)).len⟩ := rfl
          _ = ⟨x, B⟩ := by rw [← hx, hlen]
      · rintro ⟨-, hmem⟩
        rw [PopInverts, hpop, hadd]
        refine ⟨by rw [hmem], by simp, by simp, fun i hi => ?_⟩
        have hi' : i ≠ p.regionsNum + 1 := by omega
        simp [hi', hi.ne]
    · refine ⟨fun hp => ?_, fun hp => absurd (congrArg Region.len hp.2) hlen⟩
      have hkept := popfromPool_multi (p := addtoPool B p x) (i := 0) (hslot ▸ hlen) (by omega)
      have hsame := hp.2.1
      omega
  · refine ⟨fun hp => ?_, fun hp => absurd hp.1 h⟩
    simp only [Pool.StartsRegion, not_or, not_not] at h
    obtain ⟨hnum, hend⟩ := h
    -- the addition lengthened the last region, which taking back leaves as it is
    obtain ⟨-, hsame, -, hregs⟩ := hp
    have hadd : (addtoPool B p x).regionsNum = p.regionsNum ∧
        ((addtoPool B p x).regions (p.regionsNum - 1)).len =
          (p.regions (p.regionsNum - 1)).len + B := by
      simp [addtoPool, hnum, hend]
    have hlast := hregs (p.regionsNum - 1) (by omega)
    by_cases hlen : ((addtoPool B p x).regions (addtoPool B p x).regionsNum).len = B
    · rw [popfromPool_single hlen] at hsame
      simp only [hadd.1] at hsame
      omega
    · rw [(popfromPool_multi hlen (i := p.regionsNum - 1) (by omega)).2] at hlast
      have hlens := hadd.2.symm.trans (congrArg Region.len hlast)
      exact absurd (by simpa using hlens) hB

end Pools

section Victims

variable {B a nextAddr node : Word} {t t' : Buckets} {as bs : List Word} {reg : List Region}
  {fifo : List Nat} {n i bd bd' count : Nat}

theorem baddr_bucketRemove : (bucketRemove t bd).baddr bd = 0 := by
  simp [Buckets.baddr, bucketRemove]

theorem baddr_bucketRemove_of_ne (h : bd' ≠ bd) : (bucketRemove t bd).baddr bd' = t.baddr bd' := by
  simp [Buckets.baddr, bucketRemove, h]

/-- What the loop does to the list with the next victim, from the second one on: it looks for a bucket
behind the address NULL. -/
def appendVictim (B : Word) (reg : List Region) (a : Word) : List Region :=
  if a = B then extendLast B reg else reg ++ [⟨a, B⟩]

/-- A round that is not the first expects the bucket at `FH_BUCKET_SIZE`. -/
theorem freeVictimLoop_spec (hnodup : fifo.Nodup) (hn : n ≤ fifo.length) (hi : 0 < i) :
    ∃ t', freeVictimLoop B n i (0 + B) reg t fifo =
      some (((fifo.take n).map t.baddr).foldl (appendVictim B) reg, t', fifo.drop n) := by
  induction n generalizing i reg t fifo with
  | zero => exact ⟨t, by simp [freeVictimLoop]⟩
  | succ n ih =>
    cases fifo with
    | nil => simp at hn
    | cons bd fifo =>
      obtain ⟨hbd, hrest⟩ := List.nodup_cons.1 hnodup
      obtain ⟨t', ht'⟩ := @ih (bucketRemove t bd) (appendVictim B reg (t.baddr bd)) fifo (i + 1)
        hrest (by simpa using hn) (by omega)
      refine ⟨t', ?_⟩
      have hkept : (fifo.take n).map (bucketRemove t bd).baddr = (fifo.take n).map t.baddr := by
        refine List.map_congr_left fun b hb => baddr_bucketRemove_of_ne ?_
        rintro rfl
        exact hbd (List.mem_of_mem_take hb)
      rw [hkept] at ht'
      simpa [freeVictimLoop, hi, baddr_bucketRemove, appendVictim] using ht'

/-- The list of `fh_FreeVictim`. -/
def listed (B : Word) : List Word → List Region
  | [] => []
  | a :: as => as.foldl (appendVictim B) [⟨a, B⟩]

theorem freeVictim_spec (hnodup : fifo.Nodup) (hcount : count ≤ fifo.length) :
    ∃ t', freeVictim B count t fifo = some (listed B (victims t count fifo), t', fifo.drop count) := by
  cases count with
  | zero => exact ⟨t, by simp [freeVictim, freeVictimLoop, victims, listed]⟩
  | succ n =>
    cases fifo with
    | nil => simp at hcount
    | cons bd fifo =>
      obtain ⟨hbd, hrest⟩ := List.nodup_cons.1 hnodup
      obtain ⟨t', ht'⟩ := @freeVictimLoop_spec B (bucketRemove t bd) [⟨t.baddr bd, B⟩] fifo n 1 hrest
        (by simpa using hcount) Nat.one_pos
      refine ⟨t', ?_⟩
      have hkept : (fifo.take n).map (bucketRemove t bd).baddr = (fifo.take n).map t.baddr := by
        refine List.map_congr_left fun b hb => baddr_bucketRemove_of_ne ?_
        rintro rfl
        exact hbd (List.mem_of_mem_take hb)
      rw [hkept] at ht'
      simpa [freeVictim, freeVictimLoop, baddr_bucketRemove, victims, listed] using ht'

theorem foldl_appendVictim (h : B ∉ as) :
    as.foldl (appendVictim B) reg = reg ++ as.map fun a => ⟨a, B⟩ := by
  induction as generalizing reg with
  | nil => simp
  | cons a as ih =>
    obtain ⟨hne, hrest⟩ := not_or.1 (mt List.mem_cons.2 h)
    simp [appendVictim, Ne.symm hne, ih hrest]

theorem listed_of_not_mem (h : B ∉ as.tail) : listed B as = as.map fun a => ⟨a, B⟩ := by
  cases as with
  | nil => rfl
  | cons a as => exact foldl_appendVictim h

theorem buckets_single (hB : B ≠ 0) : (⟨a, B⟩ : Region).buckets B = [a] := by
  simp [Region.buckets, Nat.div_self (toNat_pos hB)]

theorem flatMap_single (hB : B ≠ 0) :
    (as.map fun a => (⟨a, B⟩ : Region)).flatMap (Region.buckets B) = as := by
  simp [List.flatMap_map, buckets_single hB]

/-- A region of at most two buckets. -/
theorem mem_buckets_double (hB : B ≠ 0) {x : Word} (h : x ∈ (⟨a, B + B⟩ : Region).buckets B) :
    x = a ∨ x = a + B := by
  obtain ⟨i, hi, rfl⟩ := List.mem_map.1 h
  have hpos := toNat_pos hB
  have hle : (B + B).toNat ≤ 2 * B.toNat := by
    rw [BitVec.toNat_add]
    exact le_trans (Nat.mod_le _ _) (by omega)
  have hlt : i < 2 := by
    refine lt_of_lt_of_le (List.mem_range.1 hi) ?_
    refine Nat.lt_succ_iff.1 ((Nat.div_lt_iff_lt_mul hpos).2 ?_)
    show (B + B).toNat < 3 * B.toNat
    omega
  rcases Nat.lt_or_ge i 1 with h0 | h1
  · left
    simp [Nat.lt_one_iff.1 h0]
  · right
    simp [show i = 1 by omega]

theorem extendLast_concat {r : Region} :
    extendLast B (reg ++ [r]) = reg ++ [{ r with len := r.len + B }] := by
  rw [extendLast, List.length_append, List.length_singleton, Nat.add_sub_cancel]
  induction reg with
  | nil => rfl
  | cons s reg ih => exact congrArg (s :: ·) ih

/-- A victim at `FH_BUCKET_SIZE` behind another is lost. -/
theorem not_mem_listed (hB : B ≠ 0) (hnodup : as.Nodup) (hnull : 0 ∉ as) (h : B ∈ as.tail) :
    B ∉ (listed B as).flatMap (Region.buckets B) := by
  cases as with
  | nil => simp at h
  | cons a as =>
    obtain ⟨l, m, rfl⟩ := List.append_of_mem h
    have hdis : B ∉ a :: l ∧ B ∉ m := by
      have hmiddle : (B :: (a :: l ++ m)).Nodup := List.nodup_middle.1 hnodup
      simpa [not_or, and_assoc] using (List.nodup_cons.1 hmiddle).1
    obtain ⟨init, z, hz⟩ : ∃ init z, a :: l = init ++ [z] :=
      ⟨_, _, (List.dropLast_append_getLast (List.cons_ne_nil a l)).symm⟩
    have hlisted : listed B (a :: (l ++ B :: m)) =
        (init.map fun a => ⟨a, B⟩) ++ ⟨z, B + B⟩ :: m.map fun a => ⟨a, B⟩ := by
      have hl : ([⟨a, B⟩] : List Region) ++ l.map (fun a => ⟨a, B⟩) =
          init.map (fun a => ⟨a, B⟩) ++ [⟨z, B⟩] := by
        simpa using congrArg (List.map fun a => (⟨a, B⟩ : Region)) hz
      have hfst : B ∉ l := fun hm => hdis.1 (List.mem_cons_of_mem _ hm)
      simp only [listed, List.foldl_append, List.foldl_cons, foldl_appendVictim hfst, hl]
      rw [foldl_appendVictim hdis.2, appendVictim, if_pos rfl, extendLast_concat]
      simp
    intro hmem
    rw [hlisted, List.flatMap_append, List.flatMap_cons, flatMap_single hB, flatMap_single hB] at hmem
    rw [hz] at hdis
    rcases List.mem_append.1 hmem with hinit | hrest
    · exact hdis.1 (List.mem_append_left _ hinit)
    · rcases List.mem_append.1 hrest with hdouble | hm
      · have hzmem : z ∈ a :: (l ++ B :: m) := by
          have hzl : z ∈ a :: l := by simp [hz]
          exact (List.mem_cons.1 hzl).elim (fun h => h ▸ List.mem_cons_self)
            fun h => List.mem_cons_of_mem _ (List.mem_append_left _ h)
        rcases mem_buckets_double hB hdouble with rfl | hsum
        · exact hdis.1 (by simp)
        · have hz0 : z = 0 := by simpa using hsum
          exact hnull (hz0 ▸ hzmem)
      · exact hdis.2 hm

theorem victims_nodup (h : VictimFifo t node fifo) : (victims t count fifo).Nodup := by
  refine (h.nodup.sublist (List.take_sublist _ _)).map_on ?_
  intro b hb c hc hbc
  have hb' := List.mem_of_mem_take hb
  have hc' := List.mem_of_mem_take hc
  have hkey : (t.bucket b).key = (t.bucket c).key := by
    calc (t.bucket b).key = ⟨(t.bucket b).key.addr, (t.bucket b).key.node⟩ := rfl
      _ = ⟨(t.bucket c).key.addr, (t.bucket c).key.node⟩ := by
        rw [h.node_eq b hb', h.node_eq c hc']
        exact congrArg (Key.mk · node) hbc
  exact Option.some.inj ((h.hashed b hb').symm.trans (hkey ▸ h.hashed c hc'))

theorem ne_null_victims (h : VictimFifo t node fifo) : 0 ∉ victims t count fifo := by
  intro hmem
  obtain ⟨b, hb, hzero⟩ := List.mem_map.1 hmem
  exact h.ne_null b (List.mem_of_mem_take hb) hzero

end Victims

variable {B x node : Word} {memory : Nat → Region} {xs : List Word} {t : Buckets} {fifo : List Nat}
  {count bNum : Nat}

/-- The slot behind the pool's regions has to hold the added bucket already, no victim but the first
may be at `FH_BUCKET_SIZE`, and every victim takes a slot. -/
theorem region_lists_iff (hB : B ≠ 0) (hfifo : VictimFifo t node fifo) (hcount : count ≤ fifo.length) :
    ListsRight B (filled B memory xs) x t fifo count bNum ↔
      ((filled B memory xs).StartsRegion x ∧
        (filled B memory xs).regions ((filled B memory xs).regionsNum + 1) = ⟨x, B⟩) ∧
      B ∉ (victims t count fifo).tail ∧
      count ≤ allocRegionPool (minRegionsForBuckets bNum) := by
  obtain ⟨t', ht'⟩ := @freeVictim_spec B t fifo count hfifo.nodup hcount
  have hlen : (victims t count fifo).length = count := by simp [victims, hcount]
  constructor
  · intro h
    obtain ⟨reg, t₁, rest, hfree, hdescribes, hfits⟩ := h.freed
    obtain ⟨rfl, -, -⟩ : listed B (victims t count fifo) = reg ∧ t' = t₁ ∧ fifo.drop count = rest := by
      simpa using ht'.symm.trans hfree
    have htail : B ∉ (victims t count fifo).tail := by
      intro hmem
      refine not_mem_listed hB (victims_nodup hfifo) (ne_null_victims hfifo) hmem ?_
      rw [hdescribes]
      exact List.mem_of_mem_tail hmem
    refine ⟨(popInverts_iff hB).1 h.inverts, htail, ?_⟩
    simpa [listed_of_not_mem htail, hlen] using hfits
  · rintro ⟨hpop, htail, hfits⟩
    refine ⟨(popInverts_iff hB).2 hpop, _, t', _, ht', ?_, ?_⟩
    · rw [listed_of_not_mem htail, flatMap_single hB]
    · simpa [listed_of_not_mem htail, hlen] using hfits

/-- A pool whose second slot holds the bucket by chance, and one victim. -/
theorem region_lists_iff_one :
    ListsRight 4096 (filled 4096 (fun _ => ⟨65536, 4096⟩) []) 65536
      ⟨fun _ => ⟨⟨8192, 0⟩, none⟩, fun _ => some 0, none⟩ [0] 1 1 := by
  have hfifo : VictimFifo ⟨fun _ => ⟨⟨8192, 0⟩, none⟩, fun _ => some 0, none⟩ 0 [0] :=
    ⟨by simp, by simp, by simp, by simp [Buckets.baddr]⟩
  exact (region_lists_iff (by decide) hfifo (by simp)).2
    ⟨⟨Or.inl rfl, rfl⟩, by simp [victims], by decide⟩

/-- Pages of 4096 bytes. The pool was never used before; of two victims the second is at 4096. -/
theorem region_lists_wrong :
    ¬ListsRight 4096 (filled 4096 (fun _ => ⟨0, 0⟩) []) 65536
      ⟨fun bd => ⟨⟨if bd = 0 then 8192 else 4096, 0⟩, none⟩,
        fun k => if k = ⟨8192, 0⟩ then some 0 else if k = ⟨4096, 0⟩ then some 1 else none, none⟩
      [0, 1] 2 2 := by
  intro h
  have hpop := (popInverts_iff (by decide)).1 h.inverts
  exact absurd (congrArg Region.len hpop.2) (by decide)

end Gasnet.Firehose.Page
