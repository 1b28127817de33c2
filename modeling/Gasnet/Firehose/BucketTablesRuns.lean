import Mathlib.Data.List.Perm.Basic
import Gasnet.Firehose.BucketTablesInvariant

/-! Creating, destroying and enlarging regions keeps the two tables in order, so a request inside a live
region is found. -/
namespace Gasnet.Firehose.Chained

variable {c : Config} {s s' : State} {b e f : Bucket} {k : Key} {l m bs : List Bucket}
  {p q node client : Nat} {x y : Priv} {r : Region} {H H' : Bucket → Prop} {K : List Key} {a : Action}

/-- The buckets of `H` are hashed, and table 1 has the best but for the keys in `K`. -/
structure Good (c : Config) (H : Bucket → Prop) (p : Nat) (K : List Key) (s : State) : Prop where
  hashed : Hashed c H s
  shaped : Shaped c s
  ranked : RankedBut c s p K

theorem Good.congr (h : Good c H p K s) (hH : ∀ b, H' b ↔ H b) : Good c H' p K s := by
  obtain rfl : H' = H := funext fun b => propext (hH b)
  exact h

theorem Good.move (h : Good c H p K s) {K' : List Key} (hm : Moved c k s s' l m)
    (hranked : RankedBut c s p (k :: K')) (hnodup : (l ++ m).Nodup) (hl : l.length ≤ 1)
    (hnil : l = [] → m = []) (hmem : ∀ b, b.key = k → (b ∈ l ++ m ↔ H' b))
    (hother : ∀ b, b.key ≠ k → (H' b ↔ H b)) (hlive : ∀ b, H' b → Live s b)
    (hbest : ∀ e ∈ l, ∀ f ∈ m, (s.regionOf f.priv).rank ≤ (s.regionOf e.priv).rank) :
    Good c H' p K' s' ∧ ∀ b, Live s' b ↔ Live s b :=
  ⟨⟨h.hashed.move h.shaped hm hnodup hl hnil hmem hother hlive, hm.shaped h.shaped,
    hranked.move hm hbest⟩, fun _ => hm.live⟩

theorem Bucket.eq_of (hp : e.priv = b.priv) (hk : e.key = b.key) : e = b := by
  cases e
  cases b
  cases hp
  cases hk
  rfl

theorem rank_le_of_not_better (h : ¬s.isBetter b e) :
    (s.regionOf b.priv).rank ≤ (s.regionOf e.priv).rank :=
  not_lt.1 fun hlt => h (Region.better_iff.2 hlt)

theorem rank_le_of_better (h : s.isBetter b e) :
    (s.regionOf e.priv).rank ≤ (s.regionOf b.priv).rank :=
  (Region.better_iff.1 h).le

theorem hash_step (h : Good c H p K s) (hnew : ¬H b) (hb : Live s b) (hK : b.key ∉ K) :
    Good c (fun e => H e ∨ e = b) p K (bucketHash c s b) ∧ ∀ e, Live (bucketHash c s b) e ↔ Live s e := by
  have hlive : ∀ e, H e ∨ e = b → Live s e := by
    rintro e (he | rfl)
    · exact h.hashed.live e he
    · exact hb
  have hother : ∀ e : Bucket, e.key ≠ b.key → ((H e ∨ e = b) ↔ H e) := by
    intro e he
    refine or_iff_left ?_
    rintro rfl
    exact he rfl
  have hranked : RankedBut c s p (b.key :: K) := h.ranked.mono fun k hk => List.mem_cons_of_mem _ hk
  have hmem : ∀ e : Bucket, e.key = b.key → (e ∈ at1 c s b.key ++ at2 c s b.key ↔ H e) := by
    intro e he
    rw [← he]
    exact h.hashed.mem e
  have hout : b ∉ at1 c s b.key ++ at2 c s b.key := fun hm => hnew ((hmem b rfl).1 hm)
  have hnodup := h.hashed.nodup b.key
  have hbest : ∀ e ∈ at1 c s b.key, ∀ f ∈ at2 c s b.key,
      (s.regionOf f.priv).rank ≤ (s.regionOf e.priv).rank :=
    fun e he f hf => h.ranked b.key e he f hf fun hpk => hK hpk.2
  rcases bucketHash_moved (h.hashed.single b.key) with ⟨hl, hm⟩ | ⟨o, hl, hbetter, hm⟩ |
    ⟨o, hl, hbetter, hm⟩
  · have hrest := h.hashed.first b.key hl
    rw [hrest] at hm
    rw [hl, hrest] at hmem
    refine h.move hm hranked (by simp) (by simp) (by simp) (fun e he => ?_) hother hlive (by simp)
    have hno : ¬H e := fun hH => by simpa using (hmem e he).2 hH
    simp [hno]
  · rw [hl] at hnodup hmem hout hbest
    refine h.move hm hranked (List.nodup_cons.2 ⟨hout, hnodup⟩) (by simp) (by simp)
      (fun e he => ?_) hother hlive ?_
    · rw [← hmem e he]
      exact List.mem_cons.trans or_comm
    · rintro e he f hf
      obtain rfl := List.mem_singleton.1 he
      have hob := rank_le_of_better hbetter
      rcases List.mem_cons.1 hf with rfl | hf
      · exact hob
      · exact (hbest o (List.mem_singleton_self o) f hf).trans hob
  · rw [hl] at hnodup hmem hout hbest
    have hperm : (b :: ([o] ++ at2 c s b.key)).Perm ([o] ++ b :: at2 c s b.key) :=
      List.perm_middle.symm
    refine h.move hm hranked (hperm.nodup_iff.1 (List.nodup_cons.2 ⟨hout, hnodup⟩)) (by simp) (by simp)
      (fun e he => ?_) hother hlive ?_
    · rw [← hmem e he, ← hperm.mem_iff]
      exact List.mem_cons.trans or_comm
    · rintro e he f hf
      obtain rfl := List.mem_singleton.1 he
      rcases List.mem_cons.1 hf with rfl | hf
      · exact rank_le_of_not_better hbetter
      · exact hbest e he f hf

theorem unhash_step (h : Good c H p K s) (hb : H b) (hK : b.key ∉ K) :
    Good c (fun e => H e ∧ e ≠ b) p K (bucketUnhash c s b) ∧
      ∀ e, Live (bucketUnhash c s b) e ↔ Live s e := by
  have hlive : ∀ e, H e ∧ e ≠ b → Live s e := fun e he => h.hashed.live e he.1
  have hother : ∀ e : Bucket, e.key ≠ b.key → (H e ∧ e ≠ b ↔ H e) := by
    intro e he
    refine and_iff_left ?_
    rintro rfl
    exact he rfl
  have hranked : RankedBut c s p (b.key :: K) := h.ranked.mono fun k hk => List.mem_cons_of_mem _ hk
  have hmem : ∀ e : Bucket, e.key = b.key → (e ∈ at1 c s b.key ++ at2 c s b.key ↔ H e) := by
    intro e he
    rw [← he]
    exact h.hashed.mem e
  have hnodup := h.hashed.nodup b.key
  rcases bucketUnhash_moved (h.hashed.single b.key) with ⟨hl, hrest, hm⟩ | ⟨best, rest, hl, hrest, hm⟩ |
    ⟨hl, hm⟩
  · rw [hl, hrest] at hmem
    refine h.move hm hranked (by simp) (by simp) (by simp) (fun e he => ?_) hother hlive (by simp)
    rw [← hmem e he]
    simp
  · rw [hl, hrest] at hmem hnodup
    obtain ⟨hw, hmax⟩ := bestOther_spec (s := s) best rest
    have hperm := List.perm_cons_erase hw
    obtain ⟨hnot, hnodup'⟩ := List.nodup_cons.1 hnodup
    refine h.move hm hranked (hperm.nodup_iff.1 hnodup') (by simp) (by simp)
      (fun e he => ?_) hother hlive ?_
    · rw [← hmem e he]
      refine hperm.symm.mem_iff.trans ?_
      refine ⟨fun hin => ⟨List.mem_cons_of_mem _ hin, ?_⟩, fun hin => ?_⟩
      · rintro rfl
        exact hnot hin
      · exact (List.mem_cons.1 hin.1).resolve_left hin.2
    · rintro e he f hf
      obtain rfl := List.mem_singleton.1 he
      exact hmax f (List.mem_of_mem_erase hf)
  · have hne : b ∉ at1 c s b.key := by
      intro hin
      obtain ⟨o, ho⟩ := List.length_eq_one_iff.1
        (le_antisymm (h.hashed.single b.key) (List.length_pos_of_mem hin))
      rw [ho] at hin
      exact hl (by rw [ho, List.mem_singleton.1 hin])
    obtain ⟨hn1, hn2, hdis⟩ := List.nodup_append.1 hnodup
    refine h.move hm hranked ?_ (h.hashed.single b.key) (fun hnil => ?_) (fun e he => ?_) hother hlive
      fun e he f hf => ?_
    · exact hnodup.sublist (List.Sublist.append_left List.erase_sublist _)
    · rw [h.hashed.first b.key hnil]
      rfl
    · rw [← hmem e he, List.mem_append, List.mem_append, hn2.mem_erase_iff]
      constructor
      · rintro (h1 | ⟨hneq, h2⟩)
        · exact ⟨Or.inl h1, fun heq => hne (heq ▸ h1)⟩
        · exact ⟨Or.inr h2, hneq⟩
      · rintro ⟨h1 | h2, hneq⟩
        · exact Or.inl h1
        · exact Or.inr ⟨hneq, h2⟩
    · exact h.ranked b.key e he f (List.mem_of_mem_erase hf) fun hpk => hK hpk.2

theorem rehash_step (h : Good c H p (b.key :: K) s) (hb : H b) (hp : b.priv = p) :
    Good c H p K (bucketRehash c s b) ∧ ∀ e, Live (bucketRehash c s b) e ↔ Live s e := by
  have hmem : ∀ e : Bucket, e.key = b.key → (e ∈ at1 c s b.key ++ at2 c s b.key ↔ H e) := by
    intro e he
    rw [← he]
    exact h.hashed.mem e
  have hin := (hmem b rfl).2 hb
  have hnodup := h.hashed.nodup b.key
  have hne : at1 c s b.key ≠ [] := by
    intro hnil
    rw [hnil, h.hashed.first b.key hnil] at hin
    simp at hin
  rcases bucketRehash_moved (h.hashed.single b.key) hne with ⟨o, hl, hob, hbetter, hm⟩ | ⟨hstay, hsame⟩
  · rw [hl] at hnodup hmem hin
    have hb2 : b ∈ at2 c s b.key := (List.mem_cons.1 hin).resolve_left (Ne.symm hob)
    have hperm : (b :: o :: (at2 c s b.key).erase b).Perm (o :: at2 c s b.key) :=
      (List.Perm.swap _ _ _).trans ((List.perm_cons_erase hb2).symm.cons o)
    refine h.move hm h.ranked (hperm.nodup_iff.2 hnodup) (by simp) (by simp) (fun e he => ?_)
      (fun _ _ => Iff.rfl) h.hashed.live ?_
    · rw [← hmem e he]
      exact hperm.mem_iff
    · rintro e he f hf
      obtain rfl := List.mem_singleton.1 he
      have hoe := rank_le_of_better hbetter
      rcases List.mem_cons.1 hf with rfl | hf
      · exact hoe
      · have hn2 : (at2 c s e.key).Nodup := (List.nodup_cons.1 hnodup).2
        obtain ⟨hfe, hf2⟩ := hn2.mem_erase_iff.1 hf
        refine (h.ranked e.key o (by simp [hl]) f hf2 fun hpk => ?_).trans hoe
        exact hfe (Bucket.eq_of (hpk.1.trans hp.symm) (key_of_at2 hf2))
  · rw [hsame]
    refine ⟨⟨h.hashed, h.shaped, fun j e he f hf hK => ?_⟩, fun _ => Iff.rfl⟩
    by_cases hpk : f.priv = p ∧ j = b.key
    · obtain ⟨hfp, rfl⟩ := hpk
      obtain rfl : f = b := Bucket.eq_of (hfp.trans hp.symm) (key_of_at2 hf)
      have hl : at1 c s f.key = [e] := by
        obtain ⟨o, ho⟩ := List.length_eq_one_iff.1
          (le_antisymm (h.hashed.single f.key) (List.length_pos_of_mem he))
        rw [ho] at he ⊢
        rw [List.mem_singleton.1 he]
      rcases hstay e hl with rfl | hnot
      · exact le_rfl
      · exact rank_le_of_not_better hnot
    · refine h.ranked j e he f hf fun hcon => hK ⟨hcon.1, ?_⟩
      exact (List.mem_cons.1 hcon.2).resolve_left fun hj => hpk ⟨hcon.1, hj⟩

theorem hash_fold (h : Good c H p K s) (hnodup : bs.Nodup) (hnew : ∀ b ∈ bs, ¬H b)
    (hlive : ∀ b ∈ bs, Live s b) (hK : ∀ b ∈ bs, b.key ∉ K) :
    Good c (fun e => H e ∨ e ∈ bs) p K (bs.foldl (bucketHash c) s) ∧
      ∀ e, Live (bs.foldl (bucketHash c) s) e ↔ Live s e := by
  induction bs generalizing s H with
  | nil => exact ⟨h.congr fun e => by simp, fun _ => Iff.rfl⟩
  | cons b bs ih =>
    obtain ⟨hb, hrest⟩ := List.nodup_cons.1 hnodup
    obtain ⟨hgood, hsame⟩ := hash_step h (hnew b List.mem_cons_self) (hlive b List.mem_cons_self)
      (hK b List.mem_cons_self)
    obtain ⟨hall, hsame'⟩ := ih hgood hrest
      (fun e he => not_or.2 ⟨hnew e (List.mem_cons_of_mem _ he), fun heq => hb (heq ▸ he)⟩)
      (fun e he => (hsame e).2 (hlive e (List.mem_cons_of_mem _ he)))
      fun e he => hK e (List.mem_cons_of_mem _ he)
    refine ⟨hall.congr fun e => ?_, fun e => (hsame' e).trans (hsame e)⟩
    rw [List.mem_cons, or_assoc]

theorem unhash_fold (h : Good c H p [] s) (hnodup : bs.Nodup) (hH : ∀ b ∈ bs, H b) :
    Good c (fun e => H e ∧ e ∉ bs) p [] (bs.foldl (bucketUnhash c) s) ∧
      ∀ e, Live (bs.foldl (bucketUnhash c) s) e ↔ Live s e := by
  induction bs generalizing s H with
  | nil => exact ⟨h.congr fun e => by simp, fun _ => Iff.rfl⟩
  | cons b bs ih =>
    obtain ⟨hb, hrest⟩ := List.nodup_cons.1 hnodup
    obtain ⟨hgood, hsame⟩ := unhash_step h (hH b List.mem_cons_self) List.not_mem_nil
    obtain ⟨hall, hsame'⟩ := ih hgood hrest
      fun e he => ⟨hH e (List.mem_cons_of_mem _ he), fun heq => hb (heq ▸ he)⟩
    refine ⟨hall.congr fun e => ?_, fun e => (hsame' e).trans (hsame e)⟩
    rw [List.mem_cons, not_or, and_assoc]

/-- Rehashing the buckets of the region settles their keys one by one. -/
theorem rehash_fold (h : Good c H p (bs.map Bucket.key) s) (hH : ∀ b ∈ bs, H b ∧ b.priv = p) :
    Good c H p [] (bs.foldl (bucketRehash c) s) ∧
      ∀ e, Live (bs.foldl (bucketRehash c) s) e ↔ Live s e := by
  induction bs generalizing s with
  | nil => exact ⟨h, fun _ => Iff.rfl⟩
  | cons b bs ih =>
    obtain ⟨hb, hp⟩ := hH b List.mem_cons_self
    obtain ⟨hgood, hsame⟩ := rehash_step h hb hp
    obtain ⟨hall, hsame'⟩ := ih hgood fun e he => hH e (List.mem_cons_of_mem _ he)
    exact ⟨hall, fun e => (hsame' e).trans (hsame e)⟩

theorem bucketsOf_eq (h : s.privs p = some x) : s.bucketsOf p = x.buckets := by
  rw [State.bucketsOf, h]
  rfl

theorem regionOf_eq (h : s.privs p = some x) : s.regionOf p = x.region := by
  rw [State.regionOf, h]
  rfl

theorem live_iff : Live s b ↔ ∃ x, s.privs b.priv = some x ∧ b ∈ x.buckets := by
  rw [Live, State.bucketsOf]
  cases h : s.privs b.priv <;> simp

/-- Regions of which nothing is hashed come and go as they like. -/
theorem Good.update_privs (h : Good c H q K s) {v : Option Priv} (hq : ∀ b, H b → b.priv ≠ p)
    (hv : ∀ x, v = some x → x.Shaped c p ∧ x.visible = 0) :
    Good c H q K { s with privs := Function.update s.privs p v } := by
  have hne : ∀ q, q ≠ p → Function.update s.privs p v q = s.privs q :=
    fun q hq => Function.update_of_ne hq _ _
  have hregion : ∀ k, ∀ e, e ∈ at1 c s k ∨ e ∈ at2 c s k →
      (State.regionOf { s with privs := Function.update s.privs p v } e.priv) = s.regionOf e.priv := by
    intro k e he
    simp only [State.regionOf, hne _ (hq e (h.hashed.mem_at.1 he).1)]
  refine ⟨⟨h.hashed.placed, h.hashed.nodup, h.hashed.mem, h.hashed.single, h.hashed.first,
    fun b hb => ?_, fun q y hy => ?_⟩, fun q y hy => ?_, fun k e he f hf hK => ?_⟩
  · have hlive := h.hashed.live b hb
    simpa only [Live, State.bucketsOf, hne _ (hq b hb)] using hlive
  · by_cases hqp : q = p
    · subst hqp
      obtain ⟨hshape, hzero⟩ := hv y (by simpa using hy)
      have hnone : (y.buckets.countP fun b => b ∈ at1 c s b.key) = 0 := by
        rw [List.countP_eq_zero]
        intro b hb hcon
        have hin : b ∈ at1 c s b.key := by simpa using hcon
        exact hq b (h.hashed.mem_at.1 (Or.inl hin)).1 ((hshape.mem b).1 hb).1
      rw [hzero]
      exact_mod_cast hnone.symm
    · exact h.hashed.visible q y ((hne q hqp).symm.trans hy)
  · by_cases hqp : q = p
    · subst hqp
      exact (hv y (by simpa using hy)).1
    · exact h.shaped q y ((hne q hqp).symm.trans hy)
  · rw [hregion k e (Or.inl he), hregion k f (Or.inr hf)]
    exact h.ranked k e he f hf hK

/-- The tables are in order: all buckets of the live regions are hashed, the best of each key in
table 1. -/
def Valid (c : Config) (s : State) : Prop := Good c (Live s) 0 [] s

theorem RankedBut.anew (h : RankedBut c s p []) : RankedBut c s q K :=
  fun k e he f hf _ => h k e he f hf (by simp)

theorem mem_bucketsAt {as : List Nat} :
    b ∈ bucketsAt p node as ↔ b.priv = p ∧ b.key.node = node ∧ b.key.addr ∈ as := by
  rw [bucketsAt, List.mem_map]
  constructor
  · rintro ⟨a, ha, rfl⟩
    exact ⟨rfl, rfl, ha⟩
  · rintro ⟨rfl, rfl, ha⟩
    exact ⟨_, ha, rfl⟩

theorem nodup_bucketsAt {as : List Nat} (h : as.Nodup) : (bucketsAt p node as).Nodup := by
  refine h.map fun a a' heq => ?_
  exact congrArg (fun b : Bucket => b.key.addr) heq

theorem shaped_bucketsAt (hr : Admissible c r) :
    Priv.Shaped c p ⟨node, r, client, bucketsAt p node (r.buckets c.bucketSize), 0⟩ :=
  ⟨hr, nodup_bucketsAt (nodup_steps c.bucketSize_pos), fun _ => mem_bucketsAt⟩

theorem valid_initial : Valid c initial := by
  have h1 : ∀ k, at1 c initial k = [] := fun _ => rfl
  have h2 : ∀ k, at2 c initial k = [] := fun _ => rfl
  refine ⟨⟨⟨HashTable.placed_empty, HashTable.placed_empty⟩, fun k => ?_, fun b => ?_, fun k => ?_,
    fun k _ => h2 k, fun b hb => hb, fun p x hx => ?_⟩, fun p x hx => ?_, fun k e he => ?_⟩
  · simp [h1, h2]
  · rw [h1, h2]
    simp [Live, State.bucketsOf, initial]
  · simp [h1]
  · simp [initial] at hx
  · simp [initial] at hx
  · simp [h1] at he

theorem valid_create (h : Valid c s) (hp : s.privs p = none) (hr : Admissible c r) :
    Valid c (createPriv c p node r client s) := by
  have hout : ∀ b, Live s b → b.priv ≠ p := by
    intro b hb hbp
    obtain ⟨x, hx, -⟩ := live_iff.1 hb
    rw [hbp, hp] at hx
    simp at hx
  have hshape : Priv.Shaped c p
      ⟨node, r, client, bucketsAt p node (r.buckets c.bucketSize), 0⟩ := shaped_bucketsAt hr
  generalize hbs : bucketsAt p node (r.buckets c.bucketSize) = bs at hshape
  have hgood := Good.update_privs (p := p) (v := some ⟨node, r, client, bs, 0⟩) h hout
    fun x hx => by
      obtain rfl := Option.some.inj hx
      exact ⟨hshape, rfl⟩
  generalize hs₀ : ({ s with
    privs := Function.update s.privs p (some ⟨node, r, client, bs, 0⟩) } : State) = s₀ at hgood
  have hlive₀ : ∀ b, Live s₀ b ↔ Live s b ∨ b ∈ bs := by
    intro b
    rw [← hs₀]
    by_cases hb : b.priv = p
    · have hno : ¬Live s b := fun hl => hout b hl hb
      simp [hno, live_iff, hb]
    · have hno : b ∉ bs := fun hin => hb ((hshape.mem b).1 hin).1
      simp [hno, live_iff, hb]
  obtain ⟨hall, hsame⟩ := hash_fold hgood hshape.nodup
    (fun b hb hlive => hout b hlive ((hshape.mem b).1 hb).1)
    (fun b hb => (hlive₀ b).2 (Or.inr hb)) fun _ _ => List.not_mem_nil
  have hcreate : createPriv c p node r client s = bs.foldl (bucketHash c) s₀ := by
    rw [createPriv, hbs, ← hs₀]
  rw [Valid, hcreate]
  exact hall.congr fun b => (hsame b).trans (hlive₀ b)

theorem valid_destroy (h : Valid c s) (hp : s.privs p = some x) : Valid c (destroyPriv c p s) := by
  have hshape := h.shaped p x hp
  have hmem : ∀ b, Live s b ∧ b ∉ x.buckets ↔ Live s b ∧ b.priv ≠ p := by
    intro b
    refine and_congr_right fun hb => not_congr ⟨fun hin => ((hshape.mem b).1 hin).1, fun hbp => ?_⟩
    rwa [Live, hbp, bucketsOf_eq hp] at hb
  obtain ⟨hall, hsame⟩ := unhash_fold h hshape.nodup fun b hb => by
    rw [Live, ((hshape.mem b).1 hb).1, bucketsOf_eq hp]
    exact hb
  have hdrop := Good.update_privs (p := p) (v := none) (hall.congr fun b => (hmem b).symm)
    (fun b hb => hb.2) (by simp)
  rw [Valid, destroyPriv, bucketsOf_eq hp]
  refine hdrop.congr fun b => ?_
  rw [← hsame b]
  by_cases hb : b.priv = p <;> simp [live_iff, hb]

/-- A region may change as long as it keeps its buckets and becomes no worse: only the keys of its own
buckets have to be looked at again. -/
theorem Good.modify (h : Valid c s) (hp : s.privs p = some x) {f : Priv → Priv}
    (hshape : (f x).Shaped c p) (hvis : (f x).visible = x.visible)
    (hsub : ∀ b ∈ x.buckets, b ∈ (f x).buckets) (hrank : x.region.rank ≤ (f x).region.rank)
    (hK : ∀ b ∈ x.buckets, b.key ∈ K ∨ (f x).region = x.region) :
    Good c (Live s) p K (s.modify p f) := by
  have hself : (s.modify p f).privs p = some (f x) := by simp [State.modify, hp]
  have hne : ∀ q, q ≠ p → (s.modify p f).privs q = s.privs q := fun q hq => by
    simp [State.modify, hq]
  have hown : ∀ b, Live s b → b.priv = p → b ∈ x.buckets := by
    intro b hb hbp
    rwa [Live, hbp, bucketsOf_eq hp] at hb
  refine ⟨⟨h.hashed.placed, h.hashed.nodup, h.hashed.mem, h.hashed.single, h.hashed.first,
    fun b hb => ?_, fun q y hy => ?_⟩, fun q y hy => ?_, fun k e he g hg hkey => ?_⟩
  · by_cases hbp : b.priv = p
    · rw [Live, hbp, bucketsOf_eq hself]
      exact hsub b (hown b hb hbp)
    · rw [live_iff, hne _ hbp, ← live_iff]
      exact hb
  · by_cases hqp : q = p
    · rw [hqp, hself] at hy
      obtain rfl := Option.some.inj hy
      have hcount : ((f x).buckets.countP fun b => b ∈ at1 c s b.key) =
          x.buckets.countP fun b => b ∈ at1 c s b.key := by
        rw [List.countP_eq_length_filter, List.countP_eq_length_filter]
        refine List.Perm.length_eq ?_
        refine (List.perm_ext_iff_of_nodup (hshape.nodup.filter _) ((h.shaped p x hp).nodup.filter _)).2
          fun b => ?_
        simp only [List.mem_filter, decide_eq_true_eq]
        refine and_congr_left fun hb => ⟨fun hin => ?_, hsub b⟩
        exact hown b (h.hashed.mem_at.1 (Or.inl hb)).1 ((hshape.mem b).1 hin).1
      rw [hvis, h.hashed.visible p x hp]
      exact_mod_cast hcount.symm
    · exact h.hashed.visible q y ((hne q hqp).symm.trans hy)
  · by_cases hqp : q = p
    · rw [hqp, hself] at hy
      obtain rfl := Option.some.inj hy
      rw [hqp]
      exact hshape
    · exact h.shaped q y ((hne q hqp).symm.trans hy)
  · have hle : (s.regionOf e.priv).rank ≤ ((s.modify p f).regionOf e.priv).rank := by
      by_cases hep : e.priv = p
      · rw [hep, regionOf_eq hself, regionOf_eq hp]
        exact hrank
      · rw [State.regionOf, State.regionOf, hne _ hep]
    have hsame : (s.modify p f).regionOf g.priv = s.regionOf g.priv := by
      by_cases hgp : g.priv = p
      · have hg' := h.hashed.mem_at.1 (Or.inr hg)
        rcases hK g (hown g hg'.1 hgp) with hin | heq
        · exact absurd ⟨hgp, hg'.2 ▸ hin⟩ hkey
        · rw [hgp, regionOf_eq hself, regionOf_eq hp, heq]
      · rw [State.regionOf, State.regionOf, hne _ hgp]
    rw [hsame]
    exact (h.ranked k e he g hg (by simp)).trans hle

theorem last_add_one (hr : Admissible c r) : r.last + 1 = r.addr + r.len := by
  have hpos := hr.1.2.2
  unfold Region.last
  omega

theorem mem_buckets (hr : Admissible c r) {n : Nat} : n ∈ r.buckets c.bucketSize ↔
    c.bucketSize ∣ n ∧ r.addr ≤ n ∧ n < r.addr + r.len := by
  rw [Region.buckets, mem_steps_of_dvd c.bucketSize_pos hr.1.1, last_add_one hr]

/-- The buckets of the larger region. -/
theorem shaped_enlarged (hx : x.Shaped c p) (hr : Admissible c r) (haddr : r.addr ≤ x.region.addr)
    (hlast : x.region.last ≤ r.last) : Priv.Shaped c p
      { x with
        region := r
        client := client
        buckets := bucketsAt p x.node (x.region.front c.bucketSize r) ++ x.buckets ++
          bucketsAt p x.node (x.region.suffix c.bucketSize r) } := by
  have hxl := last_add_one hx.admissible
  have hrl := last_add_one hr
  have hdvd : c.bucketSize ∣ x.region.addr + x.region.len :=
    Nat.dvd_add hx.admissible.1.1 hx.admissible.1.2.1
  have hfront : ∀ n, n ∈ x.region.front c.bucketSize r ↔
      c.bucketSize ∣ n ∧ r.addr ≤ n ∧ n < x.region.addr := fun n => by
    rw [Region.front, mem_steps_of_dvd c.bucketSize_pos hr.1.1]
  have hsuffix : ∀ n, n ∈ x.region.suffix c.bucketSize r ↔
      c.bucketSize ∣ n ∧ x.region.addr + x.region.len ≤ n ∧ n < r.addr + r.len := fun n => by
    rw [Region.suffix, hxl, hrl, mem_steps_of_dvd c.bucketSize_pos hdvd]
  have hbuckets := fun n => mem_buckets hx.admissible (n := n)
  refine ⟨hr, ?_, fun b => ?_⟩
  · rw [List.nodup_append, List.nodup_append]
    refine ⟨⟨nodup_bucketsAt (nodup_steps c.bucketSize_pos), hx.nodup, ?_⟩,
      nodup_bucketsAt (nodup_steps c.bucketSize_pos), ?_⟩
    · rintro b hb _ hb' rfl
      have h1 := (hfront _).1 (mem_bucketsAt.1 hb).2.2
      have h2 := (hbuckets _).1 ((hx.mem b).1 hb').2.2
      omega
    · rintro b hb _ hb' rfl
      have h2 := (hsuffix _).1 (mem_bucketsAt.1 hb').2.2
      rcases List.mem_append.1 hb with hb | hb
      · have h1 := (hfront _).1 (mem_bucketsAt.1 hb).2.2
        omega
      · have h1 := (hbuckets _).1 ((hx.mem b).1 hb).2.2
        omega
  · simp only [List.mem_append, mem_bucketsAt, hx.mem, hfront, hsuffix, hbuckets, mem_buckets hr]
    constructor
    · rintro ((⟨h1, h2, h3, h4⟩ | ⟨h1, h2, h3, h4⟩) | ⟨h1, h2, h3, h4⟩) <;>
        exact ⟨h1, h2, h3, by omega⟩
    · rintro ⟨h1, h2, h3, h4⟩
      rcases Nat.lt_or_ge b.key.addr x.region.addr with hlt | hge
      · exact Or.inl (Or.inl ⟨h1, h2, h3, h4.1, hlt⟩)
      · rcases Nat.lt_or_ge b.key.addr (x.region.addr + x.region.len) with hlt' | hge'
        · exact Or.inl (Or.inr ⟨h1, h2, h3, hge, hlt'⟩)
        · exact Or.inr ⟨h1, h2, h3, hge', h4.2⟩

theorem rank_le_of_covers (hx : Admissible c x.region) (hr : Admissible c r)
    (haddr : r.addr ≤ x.region.addr) (hlast : x.region.last ≤ r.last) : x.region.rank ≤ r.rank := by
  have hxl := last_add_one hx
  have hrl := last_add_one hr
  rw [Region.rank, Region.rank, Prod.Lex.toLex_le_toLex]
  omega

theorem valid_update (h : Valid c s) (hp : s.privs p = some x) (hr : Admissible c r)
    (haddr : r.addr ≤ x.region.addr) (hlast : x.region.last ≤ r.last) :
    Valid c (updatePriv c p x r client s) := by
  have hx := h.shaped p x hp
  rw [updatePriv]
  split
  · have hgood := Good.modify (K := []) (f := fun x => { x with client := client }) h hp
      ⟨hx.admissible, hx.nodup, hx.mem⟩ rfl (fun _ hb => hb) le_rfl fun _ _ => Or.inr rfl
    refine ⟨?_, hgood.shaped, hgood.ranked.anew⟩
    refine (hgood.congr fun b => ?_).hashed
    by_cases hb : b.priv = p <;> simp [live_iff, State.modify, hb, hp]
  · have hshape := @shaped_enlarged c p client x r hx hr haddr hlast
    simp only
    generalize hfront : bucketsAt p x.node (x.region.front c.bucketSize r) = front at hshape ⊢
    generalize hsuffix : bucketsAt p x.node (x.region.suffix c.bucketSize r) = suffix at hshape ⊢
    have hgood := Good.modify (K := x.buckets.map Bucket.key)
      (f := fun x => { x with region := r, client := client, buckets := front ++ x.buckets ++ suffix })
      h hp hshape rfl
      (fun b hb => List.mem_append_left _ (List.mem_append_right _ hb))
      (rank_le_of_covers hx.admissible hr haddr hlast)
      (fun b hb => Or.inl (List.mem_map_of_mem hb))
    have hprivs : (s.modify p fun x =>
        { x with region := r, client := client, buckets := front ++ x.buckets ++ suffix }).privs p =
        some { x with region := r, client := client, buckets := front ++ x.buckets ++ suffix } := by
      simp [State.modify, hp]
    have hlive₁ : ∀ b, Live (s.modify p fun x =>
        { x with region := r, client := client, buckets := front ++ x.buckets ++ suffix }) b ↔
        (Live s b ∨ b ∈ front) ∨ b ∈ suffix := by
      intro b
      have hin : b ∈ front ∨ b ∈ suffix → b.priv = p := fun hb => ((hshape.mem b).1 (by
        simp only [List.mem_append]
        tauto)).1
      by_cases hb : b.priv = p
      · simp only [live_iff, hb, hprivs, hp, Option.some.injEq, exists_eq_left', List.mem_append]
        tauto
      · have hno : b ∉ front ∧ b ∉ suffix := ⟨fun hf => hb (hin (Or.inl hf)), fun hs => hb (hin (Or.inr hs))⟩
        simp [live_iff, State.modify, hb, hno]
    generalize (s.modify p fun x =>
      { x with region := r, client := client, buckets := front ++ x.buckets ++ suffix }) = s₁
      at hgood hlive₁ ⊢
    obtain ⟨hn, hnsuffix, hdis2⟩ := List.nodup_append.1 hshape.nodup
    obtain ⟨hnfront, -, hdis1⟩ := List.nodup_append.1 hn
    have hpriv : ∀ b ∈ front ++ x.buckets ++ suffix, b.priv = p := fun b hb => ((hshape.mem b).1 hb).1
    have hout : ∀ b, b.priv = p → Live s b → b ∈ x.buckets := by
      intro b hbp hb
      rwa [Live, hbp, bucketsOf_eq hp] at hb
    obtain ⟨hgood₂, hsame₂⟩ := hash_fold hgood hnfront
      (fun b hb hl => hdis1 b hb b (hout b (hpriv b (by simp [hb])) hl) rfl)
      (fun b hb => (hlive₁ b).2 (Or.inl (Or.inr hb)))
      (fun b hb hk => by
        obtain ⟨b', hb', hkey⟩ := List.mem_map.1 hk
        have hbb : b' = b := Bucket.eq_of
          ((hpriv b' (by simp [hb'])).trans (hpriv b (by simp [hb])).symm) hkey
        exact hdis1 b hb b' hb' hbb.symm)
    obtain ⟨hgood₃, hsame₃⟩ := rehash_fold hgood₂ fun b hb =>
      ⟨Or.inl (by
        have hbp := hpriv b (by simp [hb])
        rw [Live, hbp, bucketsOf_eq hp]
        exact hb), hpriv b (by simp [hb])⟩
    obtain ⟨hgood₄, hsame₄⟩ := hash_fold hgood₃ hnsuffix
      (fun b hb hl => by
        have hbp := hpriv b (by simp [hb])
        have hmem : b ∈ front ++ x.buckets := hl.elim
          (fun hl => List.mem_append_right _ (hout b hbp hl)) (List.mem_append_left _)
        exact hdis2 b hmem b hb rfl)
      (fun b hb => (hsame₃ b).2 ((hsame₂ b).2 ((hlive₁ b).2 (Or.inr hb))))
      (fun _ _ => List.not_mem_nil)
    refine ⟨?_, hgood₄.shaped, hgood₄.ranked.anew⟩
    refine (hgood₄.congr fun b => ?_).hashed
    exact (hsame₄ b).trans ((hsame₃ b).trans ((hsame₂ b).trans (hlive₁ b)))

theorem valid_step (h : Step c s a s') (hs : Valid c s) : Valid c s' := by
  cases h with
  | create hp hr => exact valid_create hs hp hr
  | destroy hp => exact valid_destroy hs hp
  | update hp hnode hr haddr hlast => exact valid_update hs hp hr haddr hlast
  | queue f =>
    exact ⟨⟨hs.hashed.placed, hs.hashed.nodup, hs.hashed.mem, hs.hashed.single, hs.hashed.first,
      hs.hashed.live, hs.hashed.visible⟩, hs.shaped, hs.ranked⟩

theorem valid_reachable (h : Reachable (Step c) initial s) : Valid c s :=
  h.invariant valid_step valid_initial

/-- The region covers the bucket. -/
def Priv.Covers (c : Config) (x : Priv) (k : Key) : Prop :=
  k.node = x.node ∧ c.bucketSize ∣ k.addr ∧ x.region.addr ≤ k.addr ∧ k.addr ≤ x.region.last

/-- What the tables are for. `Region.rank` is the end of a region and its length, in that order. -/
structure InOrder (c : Config) (s : State) : Prop where
  placed : Placed c s
  buckets : ∀ p x, s.privs p = some x → x.buckets.Nodup ∧
    ∀ b, b ∈ x.buckets ↔ b.priv = p ∧ x.Covers c b.key
  best : ∀ k, (∃ p x, s.privs p = some x ∧ x.Covers c k) →
    ∃ b y, at1 c s k = [b] ∧ s.privs b.priv = some y ∧ y.Covers c k ∧
      ∀ p x, s.privs p = some x → x.Covers c k → x.region.rank ≤ y.region.rank ∧
        (p ≠ b.priv → (at2 c s k).count ⟨p, k⟩ = 1)
  live : ∀ k, ∀ b ∈ at1 c s k ++ at2 c s k, ∃ x, s.privs b.priv = some x ∧ x.Covers c k
  visible : ∀ p x, s.privs p = some x →
    x.visible = (x.buckets.countP fun b => b ∈ at1 c s b.key : Nat)
  finds : ∀ node r, c.bucketSize ∣ r.addr → 0 < r.len →
    (∃ p x, s.privs p = some x ∧ x.node = node ∧ x.region.Covers r) →
    ∃ p x, findPriv c s node r = some p ∧ s.privs p = some x ∧ x.node = node ∧ x.region.Covers r

theorem covers_iff (hx : x.Shaped c p) : b ∈ x.buckets ↔ b.priv = p ∧ x.Covers c b.key := by
  have hlast := last_add_one hx.admissible
  rw [hx.mem, mem_buckets hx.admissible, Priv.Covers]
  refine and_congr_right fun _ => and_congr_right fun _ => and_congr_right fun _ =>
    and_congr_right fun _ => ?_
  omega

theorem Valid.covers (h : Valid c s) (hb : e ∈ at1 c s k ∨ e ∈ at2 c s k) :
    ∃ x, s.privs e.priv = some x ∧ x.Covers c k := by
  obtain ⟨hlive, rfl⟩ := h.hashed.mem_at.1 hb
  obtain ⟨x, hx, hmem⟩ := live_iff.1 hlive
  exact ⟨x, hx, ((covers_iff (h.shaped _ x hx)).1 hmem).2⟩

/-- The best bucket is there as soon as one region covers the address, and no other region is better. -/
theorem Valid.best (h : Valid c s) (hp : s.privs p = some x) (hk : x.Covers c k) :
    ∃ b y, at1 c s k = [b] ∧ s.privs b.priv = some y ∧ y.Covers c k ∧
      ∀ p x, s.privs p = some x → x.Covers c k → x.region.rank ≤ y.region.rank ∧
        (p ≠ b.priv → (at2 c s k).count ⟨p, k⟩ = 1) := by
  have hin : ∀ p x, s.privs p = some x → x.Covers c k →
      (⟨p, k⟩ : Bucket) ∈ at1 c s k ∨ (⟨p, k⟩ : Bucket) ∈ at2 c s k := by
    intro p x hp hk
    refine h.hashed.mem_at.2 ⟨live_iff.2 ⟨x, hp, ?_⟩, rfl⟩
    exact (covers_iff (h.shaped p x hp)).2 ⟨rfl, hk⟩
  have hne : at1 c s k ≠ [] := by
    intro hnil
    have hmem := hin p x hp hk
    rw [hnil, h.hashed.first k hnil] at hmem
    simp at hmem
  obtain ⟨b, hb⟩ := List.length_eq_one_iff.1
    (le_antisymm (h.hashed.single k) (List.length_pos_iff.2 hne))
  obtain ⟨y, hy, hyk⟩ := h.covers (e := b) (k := k) (Or.inl (by simp [hb]))
  refine ⟨b, y, hb, hy, hyk, fun q z hq hz => ?_⟩
  have hmem := hin q z hq hz
  rw [hb, List.mem_singleton] at hmem
  have hnodup := h.hashed.nodup k
  rw [hb] at hnodup
  rcases hmem with rfl | hmem
  · rw [show z = y from Option.some.inj (hq.symm.trans hy)]
    exact ⟨le_rfl, fun hne => absurd rfl hne⟩
  · have hrank := h.ranked k b (by simp [hb]) _ hmem (by simp)
    rw [regionOf_eq hy, regionOf_eq hq] at hrank
    exact ⟨hrank, fun _ => List.count_eq_one_of_mem (List.nodup_cons.1 hnodup).2 hmem⟩

theorem Valid.finds (h : Valid c s) (hr : c.bucketSize ∣ r.addr) (hp : s.privs p = some x)
    (hx : x.region.Covers r) : ∃ q y, findPriv c s x.node r = some q ∧ s.privs q = some y ∧
      y.node = x.node ∧ y.region.Covers r := by
  have hfirst : r.addr ≤ r.last := Nat.le_add_right _ _
  have hk : x.Covers c ⟨x.node, r.addr⟩ := ⟨rfl, hr, hx.1, hfirst.trans hx.2⟩
  obtain ⟨b, y, hb, hy, hyk, hbest⟩ := h.best hp hk
  have hrank := (hbest p x hp hk).1
  have hlast : x.region.last ≤ y.region.last := by
    rw [Region.rank, Region.rank, Prod.Lex.toLex_le_toLex] at hrank
    rcases hrank with hlt | ⟨heq, -⟩
    · exact hlt.le
    · exact heq.le
  have hlookup : bucketLookup c s x.node r.addr = some b := by
    rw [bucketLookup, find1_eq, hb]
    rfl
  refine ⟨b.priv, y, ?_, hy, hyk.1.symm, hyk.2.2.1, hx.2.trans hlast⟩
  rw [findPriv, hlookup]
  exact if_pos (by rw [regionOf_eq hy]; exact hx.2.trans hlast)

/-- The tables are in order after any sequence of creations, destructions and enlargements. -/
theorem bucket_tables_in_order (h : Reachable (Step c) initial s) : InOrder c s := by
  have hs := valid_reachable h
  refine ⟨hs.hashed.placed, fun p x hp => ⟨(hs.shaped p x hp).nodup, fun _ =>
    covers_iff (hs.shaped p x hp)⟩, fun k => ?_, fun k b hb => ?_, hs.hashed.visible, ?_⟩
  · rintro ⟨p, x, hp, hk⟩
    exact hs.best hp hk
  · exact hs.covers (List.mem_append.1 hb)
  · rintro node r hr - ⟨p, x, hp, rfl, hx⟩
    exact hs.finds hr hp hx

/-- Pages of 4096 bytes, and all keys in one chain. Of two regions on one node, the longer one, which was
created last, is found. -/
theorem bucket_tables_in_order_two : ∃ (c : Config) (s : State),
    Reachable (Step c) initial s ∧ InOrder c s ∧ findPriv c s 1 ⟨4096, 4096⟩ = some 8 := by
  let c : Config :=
    { bucketShift := 12, remoteBucketsM := 1, remote_pos := Nat.one_pos, maxVictimBuckets := 1
      victim_pos := Nat.one_pos, maxRegionSize := 2 ^ 20, bucket_le := by decide
      keyhash1 := fun _ => 0, keyhash2 := fun _ => 0, mynode := 0, mayMerge := fun _ => true }
  have h₁ : Step c initial (.create 7) (createPriv c 7 1 ⟨4096, 4096⟩ 0 initial) :=
    .create rfl (by decide)
  have h₂ : Step c (createPriv c 7 1 ⟨4096, 4096⟩ 0 initial) (.create 8)
      (createPriv c 8 1 ⟨4096, 8192⟩ 0 (createPriv c 7 1 ⟨4096, 4096⟩ 0 initial)) :=
    .create (Option.isNone_iff_eq_none.1 (by decide)) (by decide)
  have hrun : Reachable (Step c) initial _ := ⟨_, .stepL h₁ (.stepL h₂ .refl)⟩
  exact ⟨c, _, hrun, bucket_tables_in_order hrun, by decide⟩

end Gasnet.Firehose.Chained
