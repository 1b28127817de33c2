import Gasnet.Firehose.Table
import Gasnet.Firehose.Local

/-! The hash tables lead from a bucket to entries that contain it, and to nothing else. The
invariant counts: the references to an entry under a bucket are the buckets the entry has there. -/
namespace Gasnet.Firehose

variable {t u : Table} {p q o b d n g : Nat} {x : Priv} {r : Region} {st : Status}
  {k rest : List Nat} {f : Nat → Option Nat} {m : List (Nat × Nat)} {v : Option Nat}

/-- Whether `q` under the bucket `d` is the reference `v` under `b`. -/
def hits (b : Nat) (v : Option Nat) (d q : Nat) : Nat := if d = b ∧ v = some q then 1 else 0

/-- The references to `q` under the bucket `d`, in both tables. -/
def refsIn (f : Nat → Option Nat) (m : List (Nat × Nat)) (d q : Nat) : Nat :=
  hits d (f d) d q + m.count (d, q)

theorem hits_none : hits b none d q = 0 := by simp [hits]

theorem refsIn_update : refsIn (Function.update f b v) m d q + hits b (f b) d q =
    refsIn f m d q + hits b v d q := by
  unfold refsIn hits
  by_cases hd : d = b
  · subst hd
    simp only [Function.update_self, true_and]
    omega
  · simp [hd]

theorem refsIn_cons : refsIn f ((b, o) :: m) d q = refsIn f m d q + hits b o d q := by
  unfold refsIn hits
  rw [List.count_cons]
  simp only [beq_iff_eq, Prod.mk.injEq, Option.some.injEq, eq_comm (a := b)]
  omega

theorem refsIn_erase (h : (b, o) ∈ m) :
    refsIn f (m.erase (b, o)) d q + hits b o d q = refsIn f m d q := by
  have hpos := List.count_pos_iff.2 h
  unfold refsIn hits
  by_cases hdo : d = b ∧ o = q
  · obtain ⟨rfl, rfl⟩ := hdo
    rw [List.count_erase_self, if_pos (⟨rfl, rfl⟩ : d = d ∧ some o = some o)]
    omega
  · have hne : (d, q) ≠ (b, o) := fun he => hdo ⟨congrArg Prod.fst he, (congrArg Prod.snd he).symm⟩
    have hz : ¬(d = b ∧ some o = some q) := fun he => hdo ⟨he.1, Option.some.inj he.2⟩
    rw [List.count_erase_of_ne hne, if_neg hz, Nat.add_zero]

namespace Table

def refs (t : Table) (d q : Nat) : Nat := refsIn t.best t.other d q

theorem refs_bucketHash : (t.bucketHash p b).refs d q = t.refs d q + hits b p d q := by
  unfold bucketHash
  cases hbest : t.best b with
  | none =>
    have h := refsIn_update (f := t.best) (b := b) (v := p) (m := t.other) (d := d) (q := q)
    rwa [hbest, hits_none, Nat.add_zero] at h
  | some o =>
    by_cases hbetter : t.isBetter p o
    · have h := refsIn_update (f := t.best) (b := b) (v := p) (m := (b, o) :: t.other)
        (d := d) (q := q)
      rw [hbest, refsIn_cons (f := t.best)] at h
      simp only [hbetter, if_true, refs]
      omega
    · simp only [hbetter, Bool.false_eq_true, if_false, refs]
      exact refsIn_cons

theorem mem_others : q ∈ t.others b ↔ (b, q) ∈ t.other := by
  simp [others]

theorem bestOf_mem {qs : List Nat} : t.bestOf q qs ∈ q :: qs := by
  unfold bestOf
  induction qs generalizing q with
  | nil => simp
  | cons o qs ih =>
    rw [List.foldl_cons]
    by_cases hb : t.isBetter o q
    · rw [if_pos hb]
      exact List.mem_cons_of_mem _ ih
    · rw [if_neg hb]
      exact (List.mem_cons.1 ih).elim (fun h => h ▸ List.mem_cons_self)
        fun h => List.mem_cons_of_mem _ (List.mem_cons_of_mem _ h)

/-- Unhashing a bucket of `p` removes one reference to `p`, whichever table held it. -/
theorem refs_bucketUnhash (h : 0 < t.refs b p) :
    (t.bucketUnhash p b).refs d q + hits b p d q = t.refs d q := by
  unfold bucketUnhash
  by_cases hbest : t.best b = some p
  · rw [if_pos hbest]
    split
    · have hu := refsIn_update (f := t.best) (b := b) (v := none) (m := t.other)
        (d := d) (q := q)
      rwa [hbest, hits_none, Nat.add_zero] at hu
    · rename_i o qs hos
      have hmem : (b, t.bestOf o qs) ∈ t.other := mem_others.1 (hos ▸ bestOf_mem)
      have hu := refsIn_update (f := t.best) (b := b) (v := t.bestOf o qs)
        (m := t.other.erase (b, t.bestOf o qs)) (d := d) (q := q)
      have he := refsIn_erase (f := t.best) (d := d) (q := q) hmem
      rw [hbest] at hu
      simp only [refs]
      omega
  · rw [if_neg hbest]
    refine refsIn_erase (List.count_pos_iff.1 ?_)
    simpa [refs, refsIn, hits, hbest] using h

theorem refs_bucketRehash (h : 0 < t.refs b p) : (t.bucketRehash p b).refs d q = t.refs d q := by
  unfold bucketRehash
  cases hbest : t.best b with
  | none => rfl
  | some o =>
    simp only
    by_cases hmove : o ≠ p ∧ t.isBetter p o
    · rw [if_pos hmove]
      have hmem : (b, p) ∈ t.other := by
        refine List.count_pos_iff.1 ?_
        simpa [refs, refsIn, hits, hbest, hmove.1] using h
      have hu := refsIn_update (f := t.best) (b := b) (v := p)
        (m := (b, o) :: t.other.erase (b, p)) (d := d) (q := q)
      have he := refsIn_erase (f := t.best) (d := d) (q := q) hmem
      rw [hbest, refsIn_cons (f := t.best)] at hu
      simp only [refs]
      omega
    · rw [if_neg hmove]

/-- The references under `d` made by hashing the buckets `bs` of `p`. -/
theorem refs_foldl_bucketHash :
    (k.foldl (bucketHash p) t).refs d q = t.refs d q + if q = p then k.count d else 0 := by
  induction k generalizing t with
  | nil => simp
  | cons b k ih =>
    rw [List.foldl_cons, ih, refs_bucketHash, List.count_cons]
    simp only [hits, Option.some.injEq, beq_iff_eq, eq_comm (a := b), eq_comm (a := p)]
    by_cases hq : q = p <;> by_cases hd : d = b <;> simp [hq, hd]
    omega

theorem refs_foldl_bucketUnhash (h : ∀ b, k.count b ≤ t.refs b p) :
    (k.foldl (bucketUnhash p) t).refs d q + (if q = p then k.count d else 0) = t.refs d q := by
  induction k generalizing t with
  | nil => simp
  | cons b k ih =>
    have hb : 0 < t.refs b p := by
      have := h b
      rw [List.count_cons_self] at this
      omega
    have hstep := fun d => refs_bucketUnhash (d := d) (q := q) hb
    have hle : ∀ b', k.count b' ≤ (t.bucketUnhash p b).refs b' p := by
      intro b'
      have h₁ := refs_bucketUnhash (d := b') (q := p) hb
      have h₂ := h b'
      rw [List.count_cons] at h₂
      simp only [hits, and_true, beq_iff_eq, eq_comm (a := b)] at h₁ h₂
      omega
    have hrest := ih hle
    have hd := hstep d
    rw [List.foldl_cons, List.count_cons]
    simp only [hits, Option.some.injEq, beq_iff_eq, eq_comm (a := b), eq_comm (a := p)] at hd ⊢
    by_cases hq : q = p <;> by_cases hdb : d = b <;> simp [hq, hdb] at hd hrest ⊢ <;> omega

theorem refs_foldl_bucketRehash (h : ∀ b ∈ k, 0 < t.refs b p) :
    (k.foldl (bucketRehash p) t).refs d q = t.refs d q := by
  induction k generalizing t with
  | nil => rfl
  | cons b k ih =>
    have hb := h b List.mem_cons_self
    rw [List.foldl_cons, ih fun b' hb' => ?_, refs_bucketRehash hb]
    rw [refs_bucketRehash hb]
    exact h b' (List.mem_cons_of_mem _ hb')

end Table

/-- A bucket inside the entry's region. -/
def Priv.Contains (g : Nat) (x : Priv) (b : Nat) : Prop :=
  g ∣ b ∧ x.region.addr ≤ b ∧ b + g ≤ x.region.addr + x.region.len

/-- An entry stands for whole buckets, and has none outside its region. -/
def Priv.Proper (g : Nat) (x : Priv) : Prop :=
  x.region.Aligned g ∧ ∀ b ∈ x.buckets, x.Contains g b

namespace Table

structure Sound (g : Nat) (t : Table) : Prop where
  refs : ∀ d q, t.refs d q = (t.bucketsOf q).count d
  nodup : (t.entries.map Priv.ptr).Nodup
  fresh : ∀ x ∈ t.entries, x.ptr < t.next
  proper : ∀ x ∈ t.entries, x.Proper g

theorem sound_empty : Sound g empty := by
  constructor <;> simp [empty, Table.refs, refsIn, hits, bucketsOf, priv?, entries]

theorem bucketsOf_eq : t.bucketsOf q = ((t.entries.find? fun x => x.ptr = q).map Priv.buckets).getD [] := by
  rw [entries, List.find?_map, Option.map_map]
  rfl

theorem Sound.of_lookup (h : Sound g t) (hb : t.lookup b = some x) : x.Proper g ∧ x.Contains g b := by
  have hproper : x.Proper g := h.proper x.core (core_mem_entries (mem_of_lookup hb).1)
  refine ⟨hproper, hproper.2 b (List.count_pos_iff.1 ?_)⟩
  obtain ⟨p, hp, hpriv⟩ := Option.bind_eq_some_iff.1 hb
  have hrefs := h.refs b p
  rw [bucketsOf, hpriv] at hrefs
  have hpos : 0 < t.refs b p := by simp [Table.refs, refsIn, hits, hp]
  rw [hrefs] at hpos
  exact hpos

theorem bucketsOf_map {f : Priv → Priv} (hf : ∀ x, (f x).ptr = x.ptr)
    (hu : u.entries = t.entries.map f) :
    u.bucketsOf q = ((t.entries.find? fun x => x.ptr = q).map fun x => (f x).buckets).getD [] := by
  rw [bucketsOf_eq, hu, List.find?_map, Option.map_map]
  simp only [Function.comp_def, hf]

theorem Sound.setStatus (h : Sound g t) : Sound g (t.setStatus p st) := by
  have hentries := @entries_setStatus t p st
  have hptr : ∀ x : Priv, (if x.ptr = p then { x with status := st } else x).ptr = x.ptr := by
    intro x
    split <;> rfl
  constructor
  · intro d q
    have hb : (t.setStatus p st).bucketsOf q = t.bucketsOf q := by
      rw [bucketsOf_map hptr hentries, bucketsOf_eq]
      congr 2
      funext x
      split <;> rfl
    rw [hb]
    exact h.refs d q
  · rw [hentries, List.map_map]
    simpa only [Function.comp_def, hptr] using h.nodup
  · intro x hx
    rw [hentries] at hx
    obtain ⟨y, hy, rfl⟩ := List.mem_map.1 hx
    rw [hptr]
    exact h.fresh y hy
  · intro x hx
    rw [hentries] at hx
    obtain ⟨y, hy, rfl⟩ := List.mem_map.1 hx
    have hy' := h.proper y hy
    split <;> exact hy'

theorem bucketsOf_filter (hqp : q ≠ p) (hu : u.entries = t.entries.filter fun x => x.ptr ≠ p) :
    u.bucketsOf q = t.bucketsOf q := by
  rw [bucketsOf_eq, bucketsOf_eq, hu, List.find?_filter]
  congr 3
  funext x
  by_cases hx : x.ptr = q
  · simp [hx, hqp]
  · simp [hx]

theorem bucketsOf_filter_self (hu : u.entries = t.entries.filter fun x => x.ptr ≠ p) :
    u.bucketsOf p = [] := by
  rw [bucketsOf_eq, hu, List.find?_eq_none.2]
  · rfl
  · intro x hx
    simpa using (List.mem_filter.1 hx).2

theorem Sound.destroyPriv (h : Sound g t) : Sound g (t.destroyPriv p) := by
  have hentries : (t.destroyPriv p).entries = t.entries.filter fun x => x.ptr ≠ p :=
    entries_destroyPriv
  constructor
  · intro d q
    have hfold := refs_foldl_bucketUnhash (t := t) (p := p) (d := d) (q := q)
      (k := t.bucketsOf p) fun b => (h.refs b p).ge
    have hrefs : (t.destroyPriv p).refs d q =
        ((t.bucketsOf p).foldl (bucketUnhash p) t).refs d q := rfl
    have hq := h.refs d q
    by_cases hqp : q = p
    · subst hqp
      rw [if_pos rfl] at hfold
      rw [bucketsOf_filter_self hentries, List.count_nil]
      omega
    · rw [if_neg hqp] at hfold
      rw [bucketsOf_filter hqp hentries]
      omega
  · rw [hentries]
    exact h.nodup.sublist (List.Sublist.map _ List.filter_sublist)
  · intro x hx
    rw [hentries] at hx
    rw [next_destroyPriv]
    exact h.fresh x (List.mem_filter.1 hx).1
  · intro x hx
    rw [hentries] at hx
    exact h.proper x (List.mem_filter.1 hx).1

theorem Sound.setFifo (h : Sound g t) : Sound g { t with fifo := rest } :=
  ⟨h.refs, h.nodup, h.fresh, h.proper⟩

theorem Sound.evict (h : Sound g t) : Sound g (t.evict p rest) := h.setFifo.destroyPriv

theorem Sound.freeVictim (h : Sound g t) : Sound g (t.freeVictim n) := by
  induction n generalizing t with
  | zero => exact h
  | succ n ih =>
    unfold Table.freeVictim
    split
    · exact h
    · exact ih h.evict

theorem Sound.cleanCovered (h : Sound g t) : Sound g (t.cleanCovered n).1 := by
  induction n generalizing t with
  | zero => exact h
  | succ n ih =>
    unfold Table.cleanCovered
    split
    · exact h
    · split
      · exact ih h.evict
      · exact h

theorem last_add_one (hr : r.Aligned g) : r.last + 1 = r.addr + r.len := by
  have hpos := hr.2.2
  unfold Region.last
  omega

theorem mem_buckets (hg : 0 < g) (hr : r.Aligned g) (hb : b ∈ r.buckets g) :
    g ∣ b ∧ r.addr ≤ b ∧ b + g ≤ r.addr + r.len := by
  obtain ⟨hdvd, hle, hlt⟩ := (mem_steps_of_dvd hg hr.1).1 hb
  rw [last_add_one hr] at hlt
  exact ⟨hdvd, hle, add_le_of_dvd hdvd (Nat.dvd_add hr.1 hr.2.1) hlt⟩

/-- A new entry for whole buckets. -/
theorem Sound.createPriv (hg : 0 < g) (h : Sound g t) (hr : r.Aligned g) :
    Sound g (t.createPriv g r st) := by
  have hentries := @entries_createPriv t g r st
  have hnew : ∀ x ∈ t.entries, x.ptr ≠ t.next := fun x hx => (h.fresh x hx).ne
  constructor
  · intro d q
    have hfold := refs_foldl_bucketHash (p := t.next) (d := d) (q := q) (k := r.buckets g)
      (t := { t with
        privs := ⟨t.next, r, r.buckets g, 0, st⟩ :: t.privs
        next := t.next + 1 })
    have hrefs : (t.createPriv g r st).refs d q = _ := hfold
    have hq := h.refs d q
    rw [hrefs, bucketsOf_eq, hentries, List.find?_cons]
    change t.refs d q + _ = _
    rw [hq]
    by_cases hqn : q = t.next
    · subst hqn
      have hnone : t.bucketsOf t.next = [] := by
        rw [bucketsOf_eq, List.find?_eq_none.2 (by simpa using hnew)]
        rfl
      simp [hnone]
    · simp [hqn, Ne.symm hqn, bucketsOf_eq]
  · rw [hentries]
    refine List.nodup_cons.2 ⟨fun hmem => ?_, h.nodup⟩
    obtain ⟨x, hx, hp⟩ := List.mem_map.1 hmem
    exact hnew x hx hp
  · intro x hx
    have hnext : (t.createPriv g r st).next = t.next + 1 := quiet_createPriv.next
    rw [hentries] at hx
    rw [hnext]
    obtain rfl | hx := List.mem_cons.1 hx
    · exact Nat.lt_succ_self _
    · exact Nat.lt_succ_of_lt (h.fresh x hx)
  · intro x hx
    rw [hentries] at hx
    obtain rfl | hx := List.mem_cons.1 hx
    · exact ⟨hr, fun b hb => mem_buckets hg hr hb⟩
    · exact h.proper x hx

/-- The buckets of an entry that has grown over `r` lie in `r`. -/
theorem proper_extend (hg : 0 < g) (hx : x.Proper g) (hr : r.Aligned g) (hc : r.Covers x.region) :
    (x.extend g r).Proper g := by
  obtain ⟨hlo, hhi⟩ := hc
  have hxend := last_add_one hx.1
  have hrend := last_add_one hr
  have hsum := Nat.dvd_add hr.1 hr.2.1
  refine ⟨hr, fun b hb => ?_⟩
  change g ∣ b ∧ r.addr ≤ b ∧ b + g ≤ r.addr + r.len
  obtain hb | hb := List.mem_append.1 hb
  · obtain hb | hb := List.mem_append.1 hb
    · obtain ⟨hdvd, hle, hlt⟩ := (mem_steps_of_dvd hg hr.1).1 hb
      exact ⟨hdvd, hle, add_le_of_dvd hdvd hsum (by omega)⟩
    · obtain ⟨hdvd, hle, hend⟩ := hx.2 b hb
      exact ⟨hdvd, by omega, by omega⟩
  · have hstart : g ∣ x.region.last + 1 := hxend ▸ Nat.dvd_add hx.1.1 hx.1.2.1
    obtain ⟨hdvd, hle, hlt⟩ := (mem_steps_of_dvd hg hstart).1 hb
    exact ⟨hdvd, by omega, add_le_of_dvd hdvd hsum (by omega)⟩

theorem priv?_of_mem (h : Sound g t) (hx : x ∈ t.privs) : t.priv? x.ptr = some x := by
  cases hp : t.priv? x.ptr with
  | none => simpa using List.find?_eq_none.1 hp x hx
  | some y =>
    obtain ⟨hy, hyx⟩ := mem_of_priv? hp
    have hnodup : (t.privs.map Priv.ptr).Nodup := by
      have hcore := h.nodup
      rwa [entries, List.map_map] at hcore
    rw [List.inj_on_of_nodup_map hnodup hy hx hyx]

/-- A reply that covers the entry's region. -/
theorem Sound.updatePriv (hg : 0 < g) (h : Sound g t) (hx : x ∈ t.privs) (hr : r.Aligned g)
    (hc : r.Covers x.region) : Sound g (t.updatePriv g x r) := by
  by_cases hsame : x.region.addr = r.addr ∧ x.region.last = r.last
  · rwa [updatePriv_same hsame]
  have hq := quiet_updatePriv (t := t) (g := g) hsame
  have hpriv := priv?_of_mem h hx
  have hentries : (t.updatePriv g x r).entries =
      t.entries.map fun y => if y.ptr = x.ptr then y.extend g r else y :=
    hq.entries.trans (entries_modify fun _ => rfl)
  have hptr : ∀ y : Priv, (if y.ptr = x.ptr then y.extend g r else y).ptr = y.ptr := by
    intro y
    split <;> rfl
  have hfind : t.entries.find? (fun y => y.ptr = x.ptr) = some x.core := by
    rw [entries, List.find?_map]
    exact congrArg (Option.map Priv.core) hpriv
  constructor
  · intro d q
    have hrefs : (t.updatePriv g x r).refs d q = t.refs d q +
        (if q = x.ptr then (x.region.front g r).count d else 0) +
        (if q = x.ptr then (x.region.suffix g r).count d else 0) := by
      rw [Table.updatePriv, if_neg hsame, refs_foldl_bucketHash, refs_foldl_bucketRehash,
        refs_foldl_bucketHash]
      · rfl
      · intro b hb
        have hpos : 0 < t.refs b x.ptr := by
          rw [h.refs, bucketsOf, hpriv]
          exact List.count_pos_iff.2 hb
        rw [refs_foldl_bucketHash]
        exact Nat.lt_of_lt_of_le hpos (Nat.le_add_right _ _)
    rw [hrefs, h.refs, bucketsOf_map hptr hentries, bucketsOf_eq]
    by_cases hqx : q = x.ptr
    · subst hqx
      rw [hfind]
      simp only [if_true, Option.map_some, Option.getD_some, Priv.core, Priv.extend,
        List.count_append]
      omega
    · simp only [hqx, if_false, Nat.add_zero]
      congr 1
      cases hf : t.entries.find? (fun y => y.ptr = q) with
      | none => rfl
      | some y =>
        have hy : y.ptr ≠ x.ptr := by
          have := List.find?_some hf
          simp only [decide_eq_true_eq] at this
          exact this ▸ hqx
        simp [hy]
  · rw [hentries, List.map_map]
    simpa only [Function.comp_def, hptr] using h.nodup
  · intro y hy
    rw [hentries] at hy
    obtain ⟨z, hz, rfl⟩ := List.mem_map.1 hy
    rw [hptr, hq.next]
    exact h.fresh z hz
  · intro y hy
    rw [hentries] at hy
    obtain ⟨z, hz, rfl⟩ := List.mem_map.1 hy
    split
    · rename_i hzx
      have hzx' : z = x.core := List.inj_on_of_nodup_map h.nodup hz (core_mem_entries hx) hzx
      subst hzx'
      exact proper_extend hg (h.proper _ hz) hr hc
    · exact h.proper z hz

end Table

end Gasnet.Firehose
