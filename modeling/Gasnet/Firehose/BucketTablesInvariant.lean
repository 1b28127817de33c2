import Mathlib.Data.List.Count
import Mathlib.Data.Prod.Lex
import Gasnet.Firehose.BucketTables

/-! What one operation on the chained tables does to the entries with one key, and the invariant that
every operation keeps. -/
namespace Gasnet.Firehose

/-- The order of `fh_bucket_is_better`. -/
def Region.rank (r : Region) : ℕ ×ₗ ℕ := toLex (r.last, r.len)

theorem Region.better_iff {r s : Region} : r.better s ↔ s.rank < r.rank := by
  rw [Region.better, Region.rank, Region.rank, Prod.Lex.toLex_lt_toLex]
  by_cases h : r.last = s.last
  · simp [h]
  · simp only [h, ne_eq, not_false_eq_true, if_true, decide_eq_true_eq]
    omega

namespace Chained

variable {c : Config} {s s' : State} {b o e f : Bucket} {k : Key} {l m bs : List Bucket} {p q : Nat}
  {x : Priv} {H H' : Bucket → Prop} {K : List Key}

/-- The buckets in table 1 with the key `k`. -/
def at1 (c : Config) (s : State) (k : Key) : List Bucket :=
  s.table1.entries c.keyhash1 Bucket.key k

def at2 (c : Config) (s : State) (k : Key) : List Bucket :=
  s.table2.entries c.keyhash2 Bucket.key k

/-- How many buckets of the list are of the region `p`. -/
def weight (l : List Bucket) (p : Nat) : Int := (l.countP fun b => b.priv = p : Nat)

@[simp] theorem weight_nil : weight [] p = 0 := rfl

@[simp] theorem weight_single : weight [b] p = if b.priv = p then 1 else 0 := by
  by_cases h : b.priv = p <;> simp [weight, h]

theorem find1_eq : find1 c s k = (at1 c s k).head? := HashTable.head_find

/-- Both tables have every bucket in the chain of its key. -/
def Placed (c : Config) (s : State) : Prop :=
  s.table1.Placed c.keyhash1 Bucket.key ∧ s.table2.Placed c.keyhash2 Bucket.key

/-- The operation has put `l` and `m` into the tables under the key `k`, and changed nothing else
there. -/
structure Moved (c : Config) (k : Key) (s s' : State) (l m : List Bucket) : Prop where
  first : at1 c s' k = l
  rest : at2 c s' k = m
  frame : ∀ j ≠ k, at1 c s' j = at1 c s j ∧ at2 c s' j = at2 c s j
  placed : Placed c s → Placed c s'
  privs : ∀ p, s'.privs p = (s.privs p).map fun x =>
    { x with visible := x.visible + weight l p - weight (at1 c s k) p }

section Fields

/-- Only the number of visible buckets changes. -/
theorem uncover_privs (p : Nat) : (s.uncover b).privs p =
    (s.privs p).map fun x => { x with visible := x.visible + weight [b] p } := by
  by_cases h : p = b.priv
  · subst h
    simp [State.uncover, State.modify]
  · cases hp : s.privs p <;> simp [State.uncover, State.modify, h, Ne.symm h, hp]

theorem cover_privs (p : Nat) : (s.cover b).privs p =
    (s.privs p).map fun x => { x with visible := x.visible - weight [b] p } := by
  by_cases h : p = b.priv
  · subst h
    simp [State.cover, State.modify]
  · cases hp : s.privs p <;> simp [State.cover, State.modify, h, Ne.symm h, hp]

theorem coverAndCheck_privs : (s.coverAndCheck b).privs = (s.cover b).privs := by
  unfold State.coverAndCheck
  simp only
  split <;> rfl

theorem coverAndCheck_tables :
    (s.coverAndCheck b).table1 = s.table1 ∧ (s.coverAndCheck b).table2 = s.table2 := by
  unfold State.coverAndCheck
  simp only
  split <;> exact ⟨rfl, rfl⟩

end Fields

/-- One bucket under `k` takes the place of another in the visibility counts. -/
theorem swap_privs (p : Nat) : ((s.uncover b).cover o).privs p = (s.privs p).map fun x =>
    { x with visible := x.visible + weight [b] p - weight [o] p } := by
  rw [cover_privs, uncover_privs, Option.map_map]
  rfl

theorem key_of_at1 (h : e ∈ at1 c s k) : e.key = k := HashTable.key_of_mem h

theorem key_of_at2 (h : e ∈ at2 c s k) : e.key = k := HashTable.key_of_mem h

/-- `fh_bucket_hash`: the bucket is alone under its key, displaces the best, or joins the others. -/
theorem bucketHash_moved (h : (at1 c s b.key).length ≤ 1) :
    (at1 c s b.key = [] ∧ Moved c b.key s (bucketHash c s b) [b] (at2 c s b.key)) ∨
    (∃ o, at1 c s b.key = [o] ∧ s.isBetter b o ∧
      Moved c b.key s (bucketHash c s b) [b] (o :: at2 c s b.key)) ∨
    (∃ o, at1 c s b.key = [o] ∧ ¬s.isBetter b o ∧
      Moved c b.key s (bucketHash c s b) [o] (b :: at2 c s b.key)) := by
  cases hl : at1 c s b.key with
  | nil =>
    refine Or.inl ⟨rfl, ?_⟩
    have hop : bucketHash c s b = insert1 c b (s.uncover b) := by
      rw [bucketHash, find1_eq, hl]
      rfl
    have h1 : ∀ k, at1 c (bucketHash c s b) k = if b.key = k then b :: at1 c s k else at1 c s k := by
      intro k
      rw [hop]
      exact HashTable.entries_insert
    have h2 : ∀ k, at2 c (bucketHash c s b) k = at2 c s k := fun k => by rw [hop]; rfl
    refine ⟨by rw [h1, if_pos rfl, hl], h2 _, fun j hj => ⟨?_, h2 j⟩, fun hp => ?_, fun p => ?_⟩
    · rw [h1, if_neg (Ne.symm hj)]
    · rw [hop]
      exact ⟨hp.1.insert, hp.2⟩
    · rw [hop, hl]
      show (s.uncover b).privs p = _
      simpa using uncover_privs p
  | cons o rest =>
    obtain rfl : rest = [] := by simpa [hl] using h
    have hokey : o.key = b.key := key_of_at1 (hl ▸ List.mem_singleton_self o)
    right
    by_cases hbetter : s.isBetter b o
    · refine Or.inl ⟨o, rfl, hbetter, ?_⟩
      have hop : bucketHash c s b =
          insert2 c o (((replace1 c o (some b) s).uncover b).coverAndCheck o) := by
        rw [bucketHash, find1_eq, hl]
        exact if_pos hbetter
      have h1 : ∀ k, at1 c (bucketHash c s b) k =
          if o.key = k then (at1 c s k).replace o b else at1 c s k := by
        intro k
        rw [hop, at1, insert2, coverAndCheck_tables.1]
        exact HashTable.entries_replace hokey.symm
      have h2 : ∀ k, at2 c (bucketHash c s b) k = if o.key = k then o :: at2 c s k else at2 c s k := by
        intro k
        rw [hop, at2, insert2, coverAndCheck_tables.2]
        exact HashTable.entries_insert
      refine ⟨?_, by rw [h2, if_pos hokey], fun j hj => ⟨?_, ?_⟩, fun hp => ?_, fun p => ?_⟩
      · rw [h1, if_pos hokey, hl]
        simp
      · rw [h1, if_neg (hokey.trans_ne (Ne.symm hj))]
      · rw [h2, if_neg (hokey.trans_ne (Ne.symm hj))]
      · rw [hop]
        refine ⟨?_, ?_⟩
        · simp only [insert2, coverAndCheck_tables.1]
          exact hp.1.replace (show ∀ f ∈ some b, f.key = o.key by simp [hokey])
        · simp only [insert2, coverAndCheck_tables.2]
          exact hp.2.insert
      · rw [hop, hl, insert2, coverAndCheck_privs]
        exact swap_privs p
    · refine Or.inr ⟨o, rfl, hbetter, ?_⟩
      have hop : bucketHash c s b = insert2 c b s := by
        rw [bucketHash, find1_eq, hl]
        exact if_neg hbetter
      have h1 : ∀ k, at1 c (bucketHash c s b) k = at1 c s k := fun k => by rw [hop]; rfl
      have h2 : ∀ k, at2 c (bucketHash c s b) k = if b.key = k then b :: at2 c s k else at2 c s k := by
        intro k
        rw [hop]
        exact HashTable.entries_insert
      refine ⟨by rw [h1, hl], by rw [h2, if_pos rfl], fun j hj => ⟨h1 j, ?_⟩, fun hp => ?_, fun p => ?_⟩
      · rw [h2, if_neg (Ne.symm hj)]
      · rw [hop]
        exact ⟨hp.1, hp.2.insert⟩
      · rw [hop, hl]
        simp [insert2]

/-- What the loop of `fh_bucket_unhash` finds. -/
def bestOther (s : State) (best : Bucket) (rest : List Bucket) : Bucket :=
  rest.foldl (fun best e => if s.isBetter e best then e else best) best

theorem bestOther_spec (best : Bucket) (rest : List Bucket) :
    bestOther s best rest ∈ best :: rest ∧ ∀ f ∈ best :: rest,
      (s.regionOf f.priv).rank ≤ (s.regionOf (bestOther s best rest).priv).rank :=
  @HashTable.foldl_better Bucket (ℕ ×ₗ ℕ) _ (fun f => (s.regionOf f.priv).rank) s.isBetter
    (fun _ _ => Region.better_iff) best rest

theorem at1_replace1 (h : o.key = b.key) :
    at1 c (replace1 c o (some b) s) k = if o.key = k then (at1 c s k).replace o b else at1 c s k :=
  HashTable.entries_replace h.symm

theorem at1_delete1 :
    at1 c (replace1 c b none s) k = if b.key = k then (at1 c s k).erase b else at1 c s k :=
  HashTable.entries_erase

theorem at2_delete2 :
    at2 c (replace2 c b none s) k = if b.key = k then (at2 c s k).erase b else at2 c s k :=
  HashTable.entries_erase

theorem at1_of_find1 (h : (at1 c s k).length ≤ 1) (hfind : find1 c s k = some b) :
    at1 c s k = [b] := by
  rw [find1_eq] at hfind
  cases hl : at1 c s k with
  | nil => simp [hl] at hfind
  | cons o rest =>
    rw [hl] at h hfind
    obtain rfl : rest = [] := by simpa using h
    simpa using hfind

/-- `fh_bucket_unhash`: the best bucket goes and the best of the others, if any, takes its place; or one
of the others goes. -/
theorem bucketUnhash_moved (h : (at1 c s b.key).length ≤ 1) :
    (at1 c s b.key = [b] ∧ at2 c s b.key = [] ∧ Moved c b.key s (bucketUnhash c s b) [] []) ∨
    (∃ best rest, at1 c s b.key = [b] ∧ at2 c s b.key = best :: rest ∧
      Moved c b.key s (bucketUnhash c s b) [bestOther s best rest]
        ((best :: rest).erase (bestOther s best rest))) ∨
    (at1 c s b.key ≠ [b] ∧
      Moved c b.key s (bucketUnhash c s b) (at1 c s b.key) ((at2 c s b.key).erase b)) := by
  by_cases hfind : find1 c s b.key = some b
  · have hl := at1_of_find1 h hfind
    cases hchain : s.table2.find c.keyhash2 Bucket.key b.key with
    | nil =>
      have hm : at2 c s b.key = [] := HashTable.entries_of_find_nil hchain
      refine Or.inl ⟨hl, hm, ?_⟩
      have hop : bucketUnhash c s b = (replace1 c b none s).cover b := by
        rw [bucketUnhash, if_pos hfind, hchain]
      have h1 : ∀ k, at1 c (bucketUnhash c s b) k =
          if b.key = k then (at1 c s k).erase b else at1 c s k := by
        intro k
        rw [hop]
        exact at1_delete1
      have h2 : ∀ k, at2 c (bucketUnhash c s b) k = at2 c s k := fun k => by rw [hop]; rfl
      refine ⟨?_, by rw [h2, hm], fun j hj => ⟨?_, h2 j⟩, fun hp => ?_, fun p => ?_⟩
      · rw [h1, if_pos rfl, hl, List.erase_cons_head]
      · rw [h1, if_neg (Ne.symm hj)]
      · rw [hop]
        exact ⟨hp.1.replace (show ∀ f ∈ none, Bucket.key f = b.key by simp), hp.2⟩
      · rw [hop, hl]
        show ((replace1 c b none s).cover b).privs p = _
        rw [cover_privs]
        simp [replace1]
    | cons best chain =>
      obtain ⟨hkey, hm⟩ := HashTable.entries_of_find_cons hchain
      right
      left
      refine ⟨best, _, hl, hm, ?_⟩
      generalize hrest : (chain.filter fun f => f.key = b.key) = rest at hm ⊢
      have hloop : HashTable.bestFrom Bucket.key s.isBetter best
          (HashTable.seek Bucket.key best.key chain) = bestOther s best rest := by
        rw [HashTable.bestFrom_seek, hkey, hrest, bestOther]
      generalize hw : bestOther s best rest = w at hloop ⊢
      have hwmem : w ∈ best :: rest := hw ▸ (bestOther_spec best rest).1
      have hwkey : w.key = b.key := key_of_at2 (c := c) (s := s) (by rw [at2, hm]; exact hwmem)
      have hop : bucketUnhash c s b =
          ((replace1 c b (some w) (replace2 c w none s)).uncover w).cover b := by
        rw [bucketUnhash, if_pos hfind, hchain]
        simp only [hloop]
      have h1 : ∀ k, at1 c (bucketUnhash c s b) k =
          if b.key = k then (at1 c s k).replace b w else at1 c s k := by
        intro k
        rw [hop]
        exact at1_replace1 hwkey.symm
      have h2 : ∀ k, at2 c (bucketUnhash c s b) k =
          if w.key = k then (at2 c s k).erase w else at2 c s k := by
        intro k
        rw [hop]
        exact at2_delete2
      refine ⟨?_, ?_, fun j hj => ⟨?_, ?_⟩, fun hp => ?_, fun p => ?_⟩
      · rw [h1, if_pos rfl, hl]
        simp
      · rw [h2, if_pos hwkey, show at2 c s b.key = best :: rest from hm]
      · rw [h1, if_neg (Ne.symm hj)]
      · rw [h2, if_neg (hwkey.trans_ne (Ne.symm hj))]
      · rw [hop]
        exact ⟨hp.1.replace (show ∀ f ∈ some w, Bucket.key f = b.key by simp [hwkey]),
          hp.2.replace (show ∀ f ∈ none, Bucket.key f = w.key by simp)⟩
      · rw [hop, hl]
        exact swap_privs p
  · have hop : bucketUnhash c s b = replace2 c b none s := if_neg hfind
    have hne : at1 c s b.key ≠ [b] := by
      intro hl
      rw [find1_eq, hl] at hfind
      exact hfind rfl
    have h2 : ∀ k, at2 c (bucketUnhash c s b) k =
        if b.key = k then (at2 c s k).erase b else at2 c s k := by
      intro k
      rw [hop]
      exact at2_delete2
    refine Or.inr (Or.inr ⟨hne, by rw [hop]; rfl, by rw [h2, if_pos rfl], fun j hj => ⟨by rw [hop]; rfl, ?_⟩,
      fun hp => ?_, fun p => ?_⟩)
    · rw [h2, if_neg (Ne.symm hj)]
    · rw [hop]
      exact ⟨hp.1, hp.2.replace (show ∀ f ∈ none, Bucket.key f = b.key by simp)⟩
    · rw [hop]
      simp [replace2]

/-- `fh_bucket_rehash`, of a bucket that is in one of the tables: it displaces the best, or all stays. -/
theorem bucketRehash_moved (h : (at1 c s b.key).length ≤ 1) (hne : at1 c s b.key ≠ []) :
    (∃ o, at1 c s b.key = [o] ∧ o ≠ b ∧ s.isBetter b o ∧
      Moved c b.key s (bucketRehash c s b) [b] (o :: (at2 c s b.key).erase b)) ∨
    ((∀ o, at1 c s b.key = [o] → o = b ∨ ¬s.isBetter b o) ∧ bucketRehash c s b = s) := by
  cases hl : at1 c s b.key with
  | nil => exact absurd hl hne
  | cons o rest =>
    obtain rfl : rest = [] := by simpa [hl] using h
    have hokey : o.key = b.key := key_of_at1 (hl ▸ List.mem_singleton_self o)
    have hfind : find1 c s b.key = some o := by
      rw [find1_eq, hl]
      rfl
    by_cases hmove : o ≠ b ∧ s.isBetter b o
    · refine Or.inl ⟨o, rfl, hmove.1, hmove.2, ?_⟩
      have hop : bucketRehash c s b = ((insert2 c o (replace1 c o (some b)
          (replace2 c b none s))).uncover b).coverAndCheck o := by
        rw [bucketRehash, hfind]
        exact if_pos hmove
      have h1 : ∀ k, at1 c (bucketRehash c s b) k =
          if o.key = k then (at1 c s k).replace o b else at1 c s k := by
        intro k
        rw [hop, at1, coverAndCheck_tables.1]
        exact at1_replace1 hokey
      have h2 : ∀ k, at2 c (bucketRehash c s b) k =
          if o.key = k then o :: (at2 c (replace2 c b none s) k) else at2 c (replace2 c b none s) k := by
        intro k
        rw [hop, at2, coverAndCheck_tables.2]
        exact HashTable.entries_insert
      refine ⟨?_, ?_, fun j hj => ⟨?_, ?_⟩, fun hp => ?_, fun p => ?_⟩
      · rw [h1, if_pos hokey, hl]
        simp
      · rw [h2, if_pos hokey, at2_delete2, if_pos rfl]
      · rw [h1, if_neg (hokey.trans_ne (Ne.symm hj))]
      · rw [h2, if_neg (hokey.trans_ne (Ne.symm hj)), at2_delete2, if_neg (Ne.symm hj)]
      · rw [hop]
        refine ⟨?_, ?_⟩
        · rw [coverAndCheck_tables.1]
          exact hp.1.replace (show ∀ f ∈ some b, f.key = o.key by simp [hokey])
        · rw [coverAndCheck_tables.2]
          exact (hp.2.replace (show ∀ f ∈ none, Bucket.key f = b.key by simp)).insert
      · rw [hop, hl, coverAndCheck_privs]
        exact swap_privs p
    · refine Or.inr ⟨fun o' ho' => ?_, ?_⟩
      · obtain rfl : o = o' := by simpa using ho'
        by_contra hcon
        exact hmove (not_or.1 hcon |>.imp id not_not.1)
      · rw [bucketRehash, hfind]
        exact if_neg hmove

/-- The bucket belongs to a live region. -/
def Live (s : State) (b : Bucket) : Prop := b ∈ s.bucketsOf b.priv

/-- A region has one bucket for each address it covers, on its node. -/
structure Priv.Shaped (c : Config) (p : Nat) (x : Priv) : Prop where
  admissible : Admissible c x.region
  nodup : x.buckets.Nodup
  mem : ∀ b, b ∈ x.buckets ↔
    b.priv = p ∧ b.key.node = x.node ∧ b.key.addr ∈ x.region.buckets c.bucketSize

def Shaped (c : Config) (s : State) : Prop := ∀ p x, s.privs p = some x → x.Shaped c p

/-- The buckets of `H`, which are buckets of live regions, are in the tables: under each key one in
table 1, the others in table 2. The regions count those in table 1. -/
structure Hashed (c : Config) (H : Bucket → Prop) (s : State) : Prop where
  placed : Placed c s
  nodup : ∀ k, (at1 c s k ++ at2 c s k).Nodup
  mem : ∀ b, b ∈ at1 c s b.key ++ at2 c s b.key ↔ H b
  single : ∀ k, (at1 c s k).length ≤ 1
  first : ∀ k, at1 c s k = [] → at2 c s k = []
  live : ∀ b, H b → Live s b
  visible : ∀ p x, s.privs p = some x →
    x.visible = (x.buckets.countP fun b => b ∈ at1 c s b.key : Nat)

/-- The bucket in table 1 is the best, but under the keys of `K` that of `p` may be better. -/
def RankedBut (c : Config) (s : State) (p : Nat) (K : List Key) : Prop :=
  ∀ k, ∀ e ∈ at1 c s k, ∀ f ∈ at2 c s k, ¬(f.priv = p ∧ k ∈ K) →
    (s.regionOf f.priv).rank ≤ (s.regionOf e.priv).rank

theorem Hashed.mem_at (h : Hashed c H s) : e ∈ at1 c s k ∨ e ∈ at2 c s k ↔ H e ∧ e.key = k := by
  constructor
  · intro he
    obtain rfl : e.key = k := he.elim key_of_at1 key_of_at2
    exact ⟨(h.mem e).1 (List.mem_append.2 he), rfl⟩
  · rintro ⟨he, rfl⟩
    exact List.mem_append.1 ((h.mem e).2 he)

theorem Moved.regionOf (h : Moved c k s s' l m) (q : Nat) : s'.regionOf q = s.regionOf q := by
  rw [State.regionOf, State.regionOf, h.privs, Option.map_map]
  rfl

theorem Moved.bucketsOf (h : Moved c k s s' l m) (q : Nat) : s'.bucketsOf q = s.bucketsOf q := by
  rw [State.bucketsOf, State.bucketsOf, h.privs, Option.map_map]
  rfl

theorem Moved.live (h : Moved c k s s' l m) : Live s' b ↔ Live s b := by
  rw [Live, Live, h.bucketsOf]

theorem Moved.shaped (h : Moved c k s s' l m) (hs : Shaped c s) : Shaped c s' := by
  intro q y hy
  rw [h.privs] at hy
  obtain ⟨x, hx, rfl⟩ := Option.map_eq_some_iff.1 hy
  obtain ⟨hadm, hnodup, hmem⟩ := hs q x hx
  exact ⟨hadm, hnodup, hmem⟩

/-- Of the buckets of a region, those in table 1 under one key are counted by the entry there. -/
theorem countP_at1 (hnodup : bs.Nodup) (hkeys : ∀ e ∈ l, e.key = k) (hl : l.length ≤ 1)
    (hown : ∀ e ∈ l, e ∈ bs ↔ e.priv = p) {F : Key → List Bucket} (hF : F k = l) :
    ((bs.countP fun b => b ∈ F b.key : Nat) : Int) =
      (bs.countP fun b => b ∈ F b.key ∧ b.key ≠ k : Nat) + weight l p := by
  have hsplit := List.countP_eq_countP_filter_add bs (fun b => b ∈ F b.key) (fun b => b.key ≠ k)
  have hother : (bs.filter fun b => b.key ≠ k).countP (fun b => b ∈ F b.key) =
      bs.countP fun b => b ∈ F b.key ∧ b.key ≠ k := by
    rw [List.countP_filter]
    refine List.countP_congr fun b _ => ?_
    simp
  have hhere : (bs.filter fun b => !decide (b.key ≠ k)).countP (fun b => b ∈ F b.key) =
      bs.countP fun b => b ∈ l := by
    rw [List.countP_filter]
    refine List.countP_congr fun b _ => ?_
    constructor
    · intro hb
      simp only [ne_eq, decide_not, Bool.not_not, Bool.and_eq_true, decide_eq_true_eq] at hb
      obtain ⟨hb, rfl⟩ := hb
      simpa [hF] using hb
    · intro hb
      have hb' : b ∈ l := by simpa using hb
      obtain rfl := hkeys b hb'
      simp [hF, hb']
  have hcount : (bs.countP fun b => b ∈ l : Nat) = l.countP fun b => b.priv = p := by
    rcases l with _ | ⟨e, rest⟩
    · simp
    · obtain rfl : rest = [] := by simpa using hl
      have he := hown e List.mem_cons_self
      have hone : (bs.countP fun b => b ∈ [e]) = bs.count e := by
        rw [List.count]
        refine List.countP_congr fun b _ => ?_
        simp
      rw [hone]
      by_cases hep : e.priv = p
      · rw [List.count_eq_one_of_mem hnodup (he.2 hep)]
        simp [hep]
      · rw [List.count_eq_zero_of_not_mem fun hm => hep (he.1 hm)]
        simp [hep]
  rw [weight, ← hcount, ← hhere, ← hother, hsplit]
  simp

/-- What keeps the buckets hashed: the lists under one key hold what they should. -/
theorem Hashed.move (h : Hashed c H s) (hshape : Shaped c s) (hm : Moved c k s s' l m)
    (hnodup : (l ++ m).Nodup) (hl : l.length ≤ 1) (hnil : l = [] → m = [])
    (hmem : ∀ b, b.key = k → (b ∈ l ++ m ↔ H' b)) (hother : ∀ b, b.key ≠ k → (H' b ↔ H b))
    (hlive : ∀ b, H' b → Live s b) : Hashed c H' s' := by
  have hat : ∀ j, at1 c s' j ++ at2 c s' j = if j = k then l ++ m else at1 c s j ++ at2 c s j := by
    intro j
    by_cases hj : j = k
    · rw [if_pos hj, hj, hm.first, hm.rest]
    · rw [if_neg hj, (hm.frame j hj).1, (hm.frame j hj).2]
  refine ⟨hm.placed h.placed, fun j => ?_, fun b => ?_, fun j => ?_, fun j hj => ?_,
    fun b hb => hm.live.2 (hlive b hb), fun p y hy => ?_⟩
  · rw [hat]
    split
    · exact hnodup
    · exact h.nodup j
  · rw [hat]
    split
    · rename_i hb
      exact hmem b hb
    · rename_i hb
      rw [hother b hb]
      exact h.mem b
  · by_cases hj : j = k
    · rw [hj, hm.first]
      exact hl
    · rw [(hm.frame j hj).1]
      exact h.single j
  · by_cases hjk : j = k
    · rw [hjk, hm.first] at hj
      rw [hjk, hm.rest]
      exact hnil hj
    · rw [(hm.frame j hjk).1] at hj
      rw [(hm.frame j hjk).2]
      exact h.first j hj
  · rw [hm.privs] at hy
    obtain ⟨x, hx, rfl⟩ := Option.map_eq_some_iff.1 hy
    have hx' := hshape p x hx
    have hbuckets : s.bucketsOf p = x.buckets := by rw [State.bucketsOf, hx]; rfl
    have hown : ∀ e, Live s e → (e ∈ x.buckets ↔ e.priv = p) := by
      intro e he
      refine ⟨fun hmem => ((hx'.mem e).1 hmem).1, fun hp => ?_⟩
      rw [Live, hp, hbuckets] at he
      exact he
    have hold := countP_at1 (F := at1 c s) hx'.nodup (fun e he => key_of_at1 he) (h.single k)
      (fun e he => hown e (h.live e (h.mem_at.1 (Or.inl he)).1)) rfl
    have hkeys : ∀ e ∈ l, e.key = k := fun e he => key_of_at1 (hm.first.symm ▸ he)
    have hnew := countP_at1 (F := at1 c s') hx'.nodup hkeys hl
      (fun e he => hown e (hlive e ((hmem e (hkeys e he)).1 (List.mem_append_left _ he)))) hm.first
    have hsame : (x.buckets.countP fun b => b ∈ at1 c s' b.key ∧ b.key ≠ k) =
        x.buckets.countP fun b => b ∈ at1 c s b.key ∧ b.key ≠ k := by
      refine List.countP_congr fun b _ => ?_
      by_cases hb : b.key = k
      · simp [hb]
      · simp [hb, (hm.frame b.key hb).1]
    have hvis := h.visible p x hx
    rw [hsame] at hnew
    show x.visible + weight l p - weight (at1 c s k) p = _
    rw [hvis, hold, hnew]
    omega

/-- What keeps the best in table 1: it is the best under the key that changed. -/
theorem RankedBut.move (h : RankedBut c s p (k :: K)) (hm : Moved c k s s' l m)
    (hbest : ∀ e ∈ l, ∀ f ∈ m, (s.regionOf f.priv).rank ≤ (s.regionOf e.priv).rank) :
    RankedBut c s' p K := by
  intro j e he f hf hne
  rw [hm.regionOf, hm.regionOf]
  by_cases hj : j = k
  · rw [hj, hm.first] at he
    rw [hj, hm.rest] at hf
    exact hbest e he f hf
  · rw [(hm.frame j hj).1] at he
    rw [(hm.frame j hj).2] at hf
    refine h j e he f hf fun hpk => hne ⟨hpk.1, ?_⟩
    exact (List.mem_cons.1 hpk.2).resolve_left hj

theorem RankedBut.mono (h : RankedBut c s p K) {K' : List Key} (hK : ∀ k ∈ K, k ∈ K') :
    RankedBut c s p K' :=
  fun k e he f hf hne => h k e he f hf fun hpk => hne ⟨hpk.1, hK k hpk.2⟩

end Chained

end Gasnet.Firehose
