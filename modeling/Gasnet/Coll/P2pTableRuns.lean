import Gasnet.Coll.P2pTable
import Gasnet.Foundation.Chain
import Gasnet.Foundation.Run
import Mathlib.Data.List.Perm.Subperm
import Mathlib.Data.List.TakeWhile

/-! The lists of the table stay sorted, and a lookup finds or makes the record of its number. -/
namespace Gasnet.Coll.P2p

open Links

variable {cfg : Config} {t u : Table} {chain : Fin TABLE_SIZE → List Addr} {free : List Addr}
  {sequence : BitVec 32} {nstates ncounters ndata n h k : Nat} {finalize : Bool} {p a b : Addr}
  {i : Fin TABLE_SIZE} {xs ys zs : List Addr} {l : Link (Fin TABLE_SIZE) Addr} {r : Record}
  {fresh : Fresh} {act : Action}

/-- The records of a slot, in order. -/
def Sorted (t : Table) (zs : List Addr) : Prop :=
  zs.Pairwise fun a b => seq32Lt (t.record a).sequence (t.record b).sequence = true

structure Inv (t : Table) (chain : Fin TABLE_SIZE → List Addr) (free : List Addr) : Prop where
  holds : t.links.Holds chain
  free_chain : Chain t.links.next t.freelist free none
  free_nodup : free.Nodup
  free_apart : ∀ a ∈ free, ∀ i, a ∉ chain i
  chain_lt : ∀ i, ∀ a ∈ chain i, a < t.brk
  free_lt : ∀ a ∈ free, a < t.brk
  sorted : ∀ i, Sorted t (chain i)
  slot : ∀ i, ∀ a ∈ chain i, slotOf (t.record a).sequence = i
  blank : ∀ a ∈ free, t.record a = .blank (t.record a).sequence

theorem inv_initial : Inv initial (fun _ => []) [] where
  holds := holds_empty _ _
  free_chain := rfl
  free_nodup := List.nodup_nil
  free_apart _ h := absurd h List.not_mem_nil
  chain_lt _ _ h := absurd h List.not_mem_nil
  free_lt _ h := absurd h List.not_mem_nil
  sorted _ := List.Pairwise.nil
  slot _ _ h := absurd h List.not_mem_nil
  blank _ h := absurd h List.not_mem_nil

theorem live_iff (hI : Inv t chain free) : t.Live p ↔ ∃ i, p ∈ chain i := by
  constructor
  · rintro ⟨i, xs, hp, hx⟩
    exact ⟨i, (hI.holds.path i).unique hp ▸ hx⟩
  · rintro ⟨i, hp⟩
    exact ⟨i, chain i, hI.holds.path i, hp⟩

theorem seq32Lt_irrefl (x : BitVec 32) : seq32Lt x x = false := by
  have hx : ahead32 x x < 2 ^ 31 := by simp [ahead32]
  by_contra h
  exact absurd ((seq32Lt_iff hx hx).mp (Bool.eq_true_of_not_eq_false h)) (Nat.lt_irrefl _)

theorem Sorted.lt_or_lt (hs : Sorted t zs) (ha : a ∈ zs) (hb : b ∈ zs) (hne : a ≠ b) :
    seq32Lt (t.record a).sequence (t.record b).sequence = true ∨
      seq32Lt (t.record b).sequence (t.record a).sequence = true := by
  obtain ⟨j, hj, rfl⟩ := List.getElem_of_mem ha
  obtain ⟨k, hk, rfl⟩ := List.getElem_of_mem hb
  rcases Nat.lt_trichotomy j k with hlt | rfl | hlt
  · exact Or.inl (List.pairwise_iff_getElem.mp hs j k hj hk hlt)
  · exact absurd rfl hne
  · exact Or.inr (List.pairwise_iff_getElem.mp hs k j hk hj hlt)

/-- There is one live record of a number. -/
theorem unique_of_live (hI : Inv t chain free) (ha : t.Live a) (hb : t.Live b)
    (heq : (t.record a).sequence = (t.record b).sequence) : a = b := by
  obtain ⟨i, ha⟩ := (live_iff hI).mp ha
  obtain ⟨j, hb⟩ := (live_iff hI).mp hb
  obtain rfl : i = j := by rw [← hI.slot i a ha, heq, hI.slot j b hb]
  by_contra hne
  have hlt := (hI.sorted i).lt_or_lt ha hb hne
  rw [heq, seq32Lt_irrefl] at hlt
  exact hlt.elim nofun nofun

section Locate

theorem search_eq (hp : t.links.Path l zs none) (hn : zs.length < n) :
    t.search sequence n l =
      endOf l (zs.takeWhile fun a => seq32Lt (t.record a).sequence sequence) := by
  induction zs generalizing l n with
  | nil =>
    obtain ⟨n, rfl⟩ := Nat.exists_eq_add_of_lt hn
    have hend : t.links.deref l = none := hp
    simp [Table.search, hend, endOf]
  | cons a zs ih =>
    obtain ⟨m, rfl⟩ : ∃ m, n = m + 1 := ⟨n - 1, by simp only [List.length_cons] at hn; omega⟩
    obtain ⟨hl, -, hrest⟩ := hp
    have hlen : zs.length < m := by simpa using hn
    simp only [Table.search, hl]
    by_cases hlt : seq32Lt (t.record a).sequence sequence = true
    · simp only [List.takeWhile_cons, hlt, if_true, endOf_cons]
      exact ih hrest hlen
    · simp only [List.takeWhile_cons, hlt, if_false, Bool.false_eq_true]
      rfl

/-- A list of addresses below the break is no longer than that. -/
theorem length_le (hI : Inv t chain free) (i : Fin TABLE_SIZE) : (chain i).length ≤ t.brk := by
  have hsub : chain i ⊆ List.range t.brk := fun a ha => List.mem_range.mpr (hI.chain_lt i a ha)
  simpa using (List.subperm_of_subset (hI.holds.nodup i) hsub).length_le

/-- Where a number belongs: after the lesser ones, and at its record or before the greater ones. -/
structure Place (t : Table) (chain : Fin TABLE_SIZE → List Addr) (sequence : BitVec 32)
    (xs ys : List Addr) : Prop where
  split : chain (slotOf sequence) = xs ++ ys
  before : ∀ a ∈ xs, seq32Lt (t.record a).sequence sequence = true
  after : ∀ a ∈ ys, (t.record a).sequence = sequence ∧ ys.head? = some a ∨
    seq32Lt sequence (t.record a).sequence = true

theorem exists_place (hI : Inv t chain free)
    (hA : Admits cfg t sequence nstates ncounters ndata finalize) :
    ∃ xs ys, Place t chain sequence xs ys ∧
      t.search sequence (t.brk + 1) (.head (slotOf sequence)) =
        endOf (.head (slotOf sequence)) xs ∧
      t.links.deref (endOf (.head (slotOf sequence)) xs) = ys.head? := by
  obtain ⟨base, hseq, hwin⟩ := hA.window
  let zs := chain (slotOf sequence)
  let f := fun a => seq32Lt (t.record a).sequence sequence
  have hzs : zs = zs.takeWhile f ++ zs.dropWhile f := (List.takeWhile_append_dropWhile).symm
  have hpath := hI.holds.path (slotOf sequence)
  have hsearch : t.search sequence _ _ = _ := search_eq hpath (Nat.lt_succ_of_le (length_le hI (slotOf sequence)))
  have hmem : ∀ a ∈ zs, ahead32 base (t.record a).sequence < 2 ^ 31 := fun a ha =>
    hwin a ((live_iff hI).mpr ⟨_, ha⟩)
  refine ⟨zs.takeWhile f, zs.dropWhile f, ⟨hzs, fun a ha => ?_, ?_⟩,
    hsearch, ?_⟩
  · have : f a = true := List.mem_takeWhile_imp ha
    exact this
  · have hsorted := hI.sorted (slotOf sequence)
    change Sorted t zs at hsorted
    rw [hzs] at hsorted
    have hdrop := (List.pairwise_append.mp hsorted).2.1
    generalize hys : zs.dropWhile f = ys at hdrop
    intro a ha
    have hin : ∀ c ∈ ys, c ∈ zs := fun c hc =>
      (List.dropWhile_sublist f).subset (hys ▸ hc)
    cases ys with
    | nil => exact absurd ha List.not_mem_nil
    | cons b ys =>
      -- the first one left is not less
      have hb : ¬f b = true := by
        have hne : zs.dropWhile f ≠ [] := by rw [hys]; exact List.cons_ne_nil _ _
        have := List.head_dropWhile_not f hne
        simp only [hys, List.head_cons] at this
        rw [this]
        exact Bool.false_ne_true
      have hble := mt (seq32Lt_iff (hmem b (hin b List.mem_cons_self)) hseq).mpr hb
      have hfirst : b = a ∨ ahead32 base (t.record b).sequence <
          ahead32 base (t.record a).sequence := by
        rcases List.mem_cons.mp ha with rfl | hays
        · exact Or.inl rfl
        · have := (List.pairwise_cons.mp hdrop).1 a hays
          exact Or.inr ((seq32Lt_iff (hmem b (hin b List.mem_cons_self))
            (hmem a (hin a ha))).mp this)
      rw [seq32Lt_iff hseq (hmem a (hin a ha))]
      rcases hfirst with rfl | hlt
      · by_cases heq : ahead32 base (t.record b).sequence = ahead32 base sequence
        · exact Or.inl ⟨ahead32_inj heq, rfl⟩
        · exact Or.inr (by omega)
      · exact Or.inr (by omega)
  · change t.links.Path _ zs none at hpath
    rw [hzs] at hpath
    have hend := hpath.split.2
    cases hys : zs.dropWhile f with
    | nil =>
      rw [hys] at hend
      exact hend
    | cons b ys =>
      rw [hys] at hend
      exact hend.1

theorem take_spec (hI : Inv t chain free) : ∃ free', (t.take.2 ∉ free') ∧
    (∀ i, t.take.2 ∉ chain i) ∧ Inv t.take.1 chain free' ∧ t.take.1.links = t.links ∧
    (∀ b, b ≠ t.take.2 → t.take.1.record b = t.record b) ∧ t.take.2 < t.take.1.brk ∧
    t.take.1.record t.take.2 = .blank (t.take.1.record t.take.2).sequence := by
  have hchain := hI.free_chain
  cases free with
  | nil =>
    have hnone : t.freelist = none := hchain
    have htake : t.take = ({ (t.setRecord t.brk (.blank 0)) with brk := t.brk + 1 }, t.brk) := by
      simp only [Table.take, hnone]
    rw [htake]
    have hkeep : ∀ b, b ≠ t.brk → Function.update t.record t.brk (.blank 0) b = t.record b :=
      fun b hb => Function.update_of_ne hb _ _
    have hne : ∀ i, ∀ a ∈ chain i, a ≠ t.brk := fun i a ha => Nat.ne_of_lt (hI.chain_lt i a ha)
    refine ⟨[], List.not_mem_nil, fun i hi => hne i _ hi rfl, ?_, rfl, hkeep,
      Nat.lt_succ_self _, ?_⟩
    · refine { hI with
        chain_lt := fun i a ha => Nat.lt_succ_of_lt (hI.chain_lt i a ha)
        free_lt := fun a ha => absurd ha List.not_mem_nil
        sorted := fun i => ?_
        slot := fun i a ha => ?_
        blank := fun a ha => absurd ha List.not_mem_nil }
      · refine (hI.sorted i).imp_of_mem fun {a b} ha hb h => ?_
        show seq32Lt (Function.update t.record t.brk _ a).sequence
          (Function.update t.record t.brk _ b).sequence = true
        rw [hkeep a (hne i a ha), hkeep b (hne i b hb)]
        exact h
      · show slotOf (Function.update t.record t.brk _ a).sequence = i
        rw [hkeep a (hne i a ha)]
        exact hI.slot i a ha
    · show Function.update t.record t.brk _ t.brk =
        .blank (Function.update t.record t.brk _ t.brk).sequence
      rw [Function.update_self]
      rfl
  | cons p free =>
    have hsome : t.freelist = some p := hchain.1
    have htake : t.take = ({ t with freelist := t.links.next p }, p) := by
      simp only [Table.take, hsome]
    rw [htake]
    have hnodup := List.nodup_cons.mp hI.free_nodup
    exact ⟨free, hnodup.1, hI.free_apart p List.mem_cons_self,
      { hI with
        free_chain := hchain.2
        free_nodup := hnodup.2
        free_apart := fun a ha => hI.free_apart a (List.mem_cons_of_mem _ ha)
        free_lt := fun a ha => hI.free_lt a (List.mem_cons_of_mem _ ha)
        blank := fun a ha => hI.blank a (List.mem_cons_of_mem _ ha) }, rfl, fun _ _ => rfl,
      hI.free_lt p List.mem_cons_self, hI.blank p List.mem_cons_self⟩

/-- A new record is blank, wherever it comes from. -/
theorem create_spec (hI : Inv t chain free) (hP : Place t chain sequence xs ys)
    (hnot : ∀ a, t.Live a → (t.record a).sequence ≠ sequence) :
    ∃ u a free', t.create (endOf (.head (slotOf sequence)) xs) sequence = (u, a) ∧
      Inv u (Function.update chain (slotOf sequence) (xs ++ a :: ys)) free' ∧ ¬t.Live a ∧
      u.record a = .blank sequence ∧ ∀ b, b ≠ a → u.record b = t.record b := by
  obtain ⟨free', hfree, hnew, hI', hlinks, hkeep, hlt, hblank⟩ := take_spec hI
  generalize htake : t.take = x at hfree hnew hI' hlinks hkeep hlt hblank
  obtain ⟨w, p⟩ := x
  let w' : Table := { (w.setRecord p { w.record p with sequence := sequence }) with
    links := w.links.insertAt (endOf (.head (slotOf sequence)) xs) p }
  have hself : w'.record p = .blank sequence := by
    show Function.update w.record p _ p = _
    rw [Function.update_self, hblank]
    rfl
  have hother : ∀ b, b ≠ p → w'.record b = w.record b := fun b hb => Function.update_of_ne hb _ _
  have hin : ∀ {i b}, b ∈ chain i → b ≠ p := fun hb h => hnew _ (h ▸ hb)
  have hxy : ∀ b, b ∈ xs ∨ b ∈ ys → b ∈ chain (slotOf sequence) := fun b hb => by
    rw [hP.split]
    exact List.mem_append.mpr hb
  have hlive : ∀ b, b ∈ chain (slotOf sequence) → (t.record b).sequence ≠ sequence := fun b hb =>
    hnot b ((live_iff hI).mpr ⟨_, hb⟩)
  refine ⟨w', p, free', ?_, ?_, fun h => ?_, hself, fun b hb => (hother b hb).trans (hkeep b hb)⟩
  · simp only [Table.create, htake]
    rfl
  · constructor
    case holds => exact hI'.holds.insert hP.split hnew
    case free_chain =>
      have hnext : ∀ b ∈ free', w'.links.next b = w.links.next b := by
        intro b hb
        rw [next_eq_deref, next_eq_deref, deref_insertAt, if_neg (by rintro ⟨⟩; exact hfree hb),
          if_neg]
        rcases endOf_cases (.head (slotOf sequence) : Link (Fin TABLE_SIZE) Addr) xs with
          ⟨heq, -⟩ | ⟨c, hc, heq⟩
        · rw [heq]
          exact nofun
        · rw [heq]
          rintro ⟨⟩
          exact hI'.free_apart b hb _ (hxy b (Or.inl hc))
      exact hI'.free_chain.congr hnext
    case free_nodup => exact hI'.free_nodup
    case free_apart =>
      intro b hb i hmem
      rw [mem_update] at hmem
      split at hmem
      · rw [List.mem_append, List.mem_cons] at hmem
        rcases hmem with hmem | rfl | hmem
        · exact hI'.free_apart b hb _ (hxy b (Or.inl hmem))
        · exact hfree hb
        · exact hI'.free_apart b hb _ (hxy b (Or.inr hmem))
      · exact hI'.free_apart b hb i hmem
    case chain_lt =>
      intro i b hmem
      rw [mem_update] at hmem
      split at hmem
      · rw [List.mem_append, List.mem_cons] at hmem
        rcases hmem with hmem | rfl | hmem
        · exact hI'.chain_lt _ b (hxy b (Or.inl hmem))
        · exact hlt
        · exact hI'.chain_lt _ b (hxy b (Or.inr hmem))
      · exact hI'.chain_lt i b hmem
    case free_lt => exact hI'.free_lt
    case sorted =>
      intro i
      have hsame : ∀ zs : List Addr, (∀ b ∈ zs, b ≠ p) → Sorted w zs → Sorted w' zs := by
        intro zs hzs hs
        refine hs.imp_of_mem fun {c d} hc hd h => ?_
        rw [hother c (hzs c hc), hother d (hzs d hd)]
        exact h
      by_cases hi : i = slotOf sequence
      · subst hi
        have hs := hI'.sorted (slotOf sequence)
        rw [hP.split] at hs
        have hs' := hsame _ (fun b hb => hin (hxy b (List.mem_append.mp hb))) hs
        obtain ⟨hsx, hsy, hsxy⟩ := List.pairwise_append.mp hs'
        rw [Function.update_self]
        refine List.pairwise_append.mpr ⟨hsx, List.pairwise_cons.mpr ⟨fun b hb => ?_, hsy⟩, ?_⟩
        · have hbp := hin (hxy b (Or.inr hb))
          rw [hself, hother b hbp, hkeep b hbp]
          rcases hP.after b hb with ⟨heq, -⟩ | h
          · exact absurd heq (hlive b (hxy b (Or.inr hb)))
          · exact h
        · intro b hb c hc
          rcases List.mem_cons.mp hc with rfl | hc
          · have hbp := hin (hxy b (Or.inl hb))
            rw [hself, hother b hbp, hkeep b hbp]
            exact hP.before b hb
          · exact hsxy b hb c hc
      · rw [Function.update_of_ne hi]
        exact hsame _ (fun b hb => hin hb) (hI'.sorted i)
    case slot =>
      intro i b hmem
      have hold : ∀ {j}, b ∈ chain j → slotOf (w'.record b).sequence = j := fun hb => by
        rw [hother b (hin hb)]
        exact hI'.slot _ b hb
      rw [mem_update] at hmem
      split at hmem
      · rename_i hi
        subst hi
        rw [List.mem_append, List.mem_cons] at hmem
        rcases hmem with hmem | rfl | hmem
        · exact hold (hxy b (Or.inl hmem))
        · rw [hself]
          rfl
        · exact hold (hxy b (Or.inr hmem))
      · exact hold hmem
    case blank =>
      intro b hb
      rw [hother b (by rintro rfl; exact hfree hb)]
      exact hI'.blank b hb
  · obtain ⟨i, hi⟩ := (live_iff hI).mp h
    exact hnew i hi

/-- A lookup finds the record of its number, or makes a blank one. -/
theorem locate_spec (hI : Inv t chain free)
    (hA : Admits cfg t sequence nstates ncounters ndata finalize) :
    ∃ u a chain' free', t.locate sequence = (u, a) ∧ Inv u chain' free' ∧ u.Live a ∧
      (∀ p, t.Live p → u.Live p) ∧ (u.record a).sequence = sequence ∧
      (t.Live a → u.record a = t.record a) ∧ (¬t.Live a → u.record a = .blank sequence) ∧
      (∀ p, t.Live p → (t.record p).sequence = sequence → a = p) ∧
      ∀ p, p ≠ a → u.record p = t.record p := by
  obtain ⟨xs, ys, hP, hsearch, hend⟩ := exists_place hI hA
  by_cases hfound : ∃ a, t.Live a ∧ (t.record a).sequence = sequence
  · obtain ⟨a, ha, haseq⟩ := hfound
    have hhead : ys.head? = some a := by
      obtain ⟨i, hi⟩ := (live_iff hI).mp ha
      obtain rfl : slotOf sequence = i := haseq ▸ hI.slot i a hi
      rw [hP.split, List.mem_append] at hi
      rcases hi with hi | hi
      · have := hP.before a hi
        rw [haseq, seq32Lt_irrefl] at this
        exact absurd this nofun
      · rcases hP.after a hi with ⟨-, h⟩ | h
        · exact h
        · rw [haseq, seq32Lt_irrefl] at h
          exact absurd h nofun
    have heq : t.locate sequence = (t, a) := by
      simp only [Table.locate, hsearch, hend, hhead, haseq, if_true]
    exact ⟨t, a, chain, free, heq, hI, ha, fun _ h => h, haseq, fun _ => rfl,
      fun h => absurd ha h, fun p hp hpseq => unique_of_live hI ha hp (haseq.trans hpseq.symm),
      fun _ _ => rfl⟩
  · have hnot : ∀ a, t.Live a → (t.record a).sequence ≠ sequence := fun a ha h =>
      hfound ⟨a, ha, h⟩
    obtain ⟨u, a, free', hcreate, hI', hnew, hblank, hkeep⟩ := create_spec hI hP hnot
    have heq : t.locate sequence = (u, a) := by
      simp only [Table.locate, hsearch, hend]
      cases hys : ys.head? with
      | none => exact hcreate
      | some b =>
        have hb : b ∈ chain (slotOf sequence) := by
          rw [hP.split]
          exact List.mem_append_right _ (List.mem_of_mem_head? hys)
        simp only [hnot b ((live_iff hI).mpr ⟨_, hb⟩), if_false]
        exact hcreate
    refine ⟨u, a, _, free', heq, hI', (live_iff hI').mpr ⟨slotOf sequence, ?_⟩, fun p hp => ?_,
      by rw [hblank]; rfl, fun h => absurd h hnew, fun _ => hblank,
      fun p hp h => absurd h (hnot p hp), hkeep⟩
    · rw [Function.update_self]
      exact List.mem_append_right _ List.mem_cons_self
    · obtain ⟨i, hi⟩ := (live_iff hI).mp hp
      refine (live_iff hI').mpr ⟨i, ?_⟩
      rw [mem_update]
      split
      · rename_i h
        subst h
        rw [hP.split, List.mem_append] at hi
        rw [List.mem_append, List.mem_cons]
        tauto
      · exact hi

end Locate

/-- The contents of a record are changed, not its number. -/
theorem inv_setRecord (hI : Inv t chain free) (ha : t.Live a)
    (hseq : r.sequence = (t.record a).sequence) : Inv (t.setRecord a r) chain free := by
  have hsame : ∀ b, ((t.setRecord a r).record b).sequence = (t.record b).sequence := by
    intro b
    by_cases hb : b = a
    · subst hb
      exact (congrArg Record.sequence (Function.update_self ..)).trans hseq
    · exact congrArg Record.sequence (Function.update_of_ne hb _ _)
  obtain ⟨i, hi⟩ := (live_iff hI).mp ha
  exact { hI with
    sorted := fun i => (hI.sorted i).imp fun {b c} h => by
      rw [hsame, hsame]
      exact h
    slot := fun i b hb => by
      rw [hsame]
      exact hI.slot i b hb
    blank := fun b hb => by
      have hne : b ≠ a := by
        rintro rfl
        exact hI.free_apart b hb i hi
      rw [hsame]
      exact (Function.update_of_ne hne _ _).trans (hI.blank b hb) }

theorem grow_sequence (r : Record) : (r.grow cfg fresh nstates ncounters ndata).sequence =
    r.sequence := by
  unfold Record.grow
  split
  · rfl
  · have h₁ : ∀ r : Record, (r.growState cfg fresh nstates).sequence = r.sequence := fun r => by
      unfold Record.growState
      split <;> rfl
    have h₂ : ∀ r : Record, (r.growCounter cfg fresh ncounters).sequence = r.sequence := fun r => by
      unfold Record.growCounter
      split <;> rfl
    have h₃ : ∀ r : Record, (r.growData cfg fresh ndata).sequence = r.sequence := fun r => by
      unfold Record.growData
      split <;> rfl
    rw [h₃, h₂, h₁]

theorem inv_free (hI : Inv t chain free) (hp : t.Live p) :
    ∃ chain', Inv (t.free p) chain' (p :: free) := by
  obtain ⟨i, hi⟩ := (live_iff hI).mp hp
  obtain ⟨xs, ys, hsplit⟩ := List.append_of_mem hi
  have hrem := hI.holds.remove hsplit
  have hsub : ∀ j b, b ∈ Function.update chain i (xs ++ ys) j → b ∈ chain j ∧ b ≠ p := by
    intro j b hb
    have hnodup := hI.holds.nodup i
    rw [hsplit] at hnodup
    have hmid := (List.nodup_cons.mp (List.nodup_middle.mp hnodup)).1
    rw [mem_update] at hb
    split at hb
    · rename_i hj
      subst hj
      refine ⟨?_, by rintro rfl; exact hmid hb⟩
      rw [hsplit, List.mem_append, List.mem_cons]
      rw [List.mem_append] at hb
      tauto
    · rename_i hj
      refine ⟨hb, ?_⟩
      rintro rfl
      exact hj (hI.holds.apart j i b hb hi)
  have hself : (t.free p).record p = (t.record p).release := Function.update_self ..
  have hseq : ∀ b, ((t.free p).record b).sequence = (t.record b).sequence := by
    intro b
    by_cases hb : b = p
    · subst hb
      rw [hself]
      rfl
    · exact congrArg Record.sequence (Function.update_of_ne hb _ _)
  have hderef : ∀ k, (t.free p).links.deref k =
      if k = .next p then t.freelist else (t.links.remove p).deref k := fun k => by
    show ((t.links.remove p).store (.next p) t.freelist).deref k = _
    exact deref_store
  have hpfree : p ∉ free := fun h => hI.free_apart p h i hi
  have hnext : ∀ b, b ≠ p → b ∈ free → (t.free p).links.next b = t.links.next b := by
    intro b hb hbf
    rw [next_eq_deref, hderef, if_neg (by rintro ⟨⟩; exact hb rfl), deref_remove, if_neg]
    · rfl
    · -- the record before is live
      have hprev : t.links.prev p = endOf (.head i) xs := by
        have hpath := hI.holds.path i
        rw [hsplit] at hpath
        exact hpath.split.2.2.1
      rw [hprev]
      rcases endOf_cases (.head i : Link (Fin TABLE_SIZE) Addr) xs with ⟨heq, -⟩ | ⟨c, hc, heq⟩
      · rw [heq]
        exact nofun
      · rw [heq]
        rintro ⟨⟩
        exact hI.free_apart b hbf i (hsplit ▸ List.mem_append_left _ hc)
  refine ⟨Function.update chain i (xs ++ ys), ?_⟩
  constructor
  case holds =>
    refine ⟨fun j => (hrem.path j).congr ?_ ?_ ?_, hrem.nodup, hrem.apart⟩
    · rw [hderef, if_neg nofun]
    · intro b hb
      rw [next_eq_deref, hderef, if_neg fun h => (hsub j b hb).2 (Link.next.inj h)]
      rfl
    · intro b hb
      show ((t.links.remove p).store (.next p) t.freelist).prev b = _
      rw [prev_store]
  case free_chain =>
    refine ⟨rfl, ?_⟩
    have hfirst : (t.free p).links.next p = t.freelist := by
      rw [next_eq_deref, hderef, if_pos rfl]
    rw [hfirst]
    exact hI.free_chain.congr fun b hb => hnext b (by rintro rfl; exact hpfree hb) hb
  case free_nodup => exact List.nodup_cons.mpr ⟨hpfree, hI.free_nodup⟩
  case free_apart =>
    intro b hb j hmem
    obtain ⟨hin, hne⟩ := hsub j b hmem
    rcases List.mem_cons.mp hb with rfl | hb
    · exact hne rfl
    · exact hI.free_apart b hb j hin
  case chain_lt => exact fun j b hb => hI.chain_lt j b (hsub j b hb).1
  case free_lt =>
    intro b hb
    rcases List.mem_cons.mp hb with rfl | hb
    · exact hI.chain_lt i b hi
    · exact hI.free_lt b hb
  case sorted =>
    intro j
    have hs : Sorted t (Function.update chain i (xs ++ ys) j) := by
      by_cases hj : j = i
      · subst hj
        have hold := hI.sorted j
        rw [hsplit] at hold
        rw [Function.update_self]
        exact List.Pairwise.sublist ((List.sublist_cons_self p ys).append_left xs) hold
      · rw [Function.update_of_ne hj]
        exact hI.sorted j
    exact hs.imp fun {b c} h => by
      rw [hseq, hseq]
      exact h
  case slot =>
    intro j b hb
    rw [hseq]
    exact hI.slot j b (hsub j b hb).1
  case blank =>
    intro b hb
    rw [hseq]
    by_cases hbp : b = p
    · rw [hbp]
      exact hself
    · have hbf := (List.mem_cons.mp hb).resolve_left hbp
      exact (Function.update_of_ne hbp _ _).trans (hI.blank b hbf)

theorem inv_step (h : Step cfg t act u) (hI : ∃ chain free, Inv t chain free) :
    ∃ chain free, Inv u chain free := by
  obtain ⟨chain, free, hI⟩ := hI
  cases h with
  | @get sequence nstates ncounters ndata finalize fresh hA =>
    obtain ⟨w, a, chain', free', heq, hI', ha, -⟩ := locate_spec hI hA
    refine ⟨chain', free', ?_⟩
    simp only [Table.get, heq]
    exact inv_setRecord hI' ha (grow_sequence _)
  | write hp hseq => exact ⟨chain, free, inv_setRecord hI hp hseq⟩
  | free hp =>
    obtain ⟨chain', h⟩ := inv_free hI hp
    exact ⟨chain', _, h⟩
  | purge =>
    exact ⟨chain, [], { hI with
      free_chain := rfl
      free_nodup := List.nodup_nil
      free_apart := fun _ h => absurd h List.not_mem_nil
      free_lt := fun _ h => absurd h List.not_mem_nil
      blank := fun _ h => absurd h List.not_mem_nil }⟩

theorem inv_reachable (h : Reachable (Step cfg) initial t) : ∃ chain free, Inv t chain free :=
  h.invariant (P := fun t => ∃ chain free, Inv t chain free) inv_step ⟨_, _, inv_initial⟩

end Gasnet.Coll.P2p
