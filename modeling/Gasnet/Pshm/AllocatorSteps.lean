import Gasnet.Pshm.Allocator

/-! Every step of the search and of the processes that free blocks keeps the invariant. -/
namespace Gasnet.Pshm

variable {c : NetConfig} {s t : Allocator} {p q n curr length nbytes x : Nat} {remain : Int}
  {a : AllocatorAction} {v : Bool}

namespace Allocator

theorem page_inj (h : p * c.pageSize = q * c.pageSize) : p = q :=
  Nat.eq_of_mul_eq_mul_right c.pageSize_pos h

/-- A visit moves the search on, or ends it when the whole region was visited. -/
theorem leave_search (hn : nbytes + c.header ≤ c.allocMaxSz)
    (he : Boundary s.length c.count (curr + length)) (hle : curr + length ≤ c.count)
    (hpass : s.Passed c curr remain) :
    (s.leave c nbytes curr remain length).SearchInv c ∧
      ((s.leave c nbytes curr remain length).search = .idle →
        ∀ q < c.count, (s.leave c nbytes curr remain length).Covered q) := by
  have hcount := c.count_pos
  obtain ⟨hrem, hnext, hplace⟩ := hpass
  let u : Allocator := { s with visited := (curr, length) :: s.visited }
  have hold : ∀ q, s.Covered q → u.Covered q := by
    rintro q ⟨b, hb, hq⟩
    exact ⟨b, List.mem_cons_of_mem _ hb, hq⟩
  have hnew : ∀ q, curr ≤ q → q < curr + length → u.Covered q := fun q h₁ h₂ =>
    ⟨(curr, length), List.mem_cons_self, h₁, h₂⟩
  have hin : ∀ q lo, (∀ q, lo ≤ q → q < curr → s.Covered q) → lo ≤ q → q < curr + length →
      u.Covered q := fun q lo hall h₁ h₂ => by
    by_cases hq : q < curr
    · exact hold q (hall q h₁ hq)
    · exact hnew q (by omega) h₂
  set next := if curr + length = c.count then 0 else curr + length with hdef
  have hbound : Boundary s.length c.count next ∧ next < c.count := by
    rw [hdef]
    split
    · exact ⟨.zero, hcount⟩
    · exact ⟨he, by omega⟩
  by_cases hmore : 0 < remain - length
  · have hleave : s.leave c nbytes curr remain length =
        { u with search := .visit nbytes next (remain - length) } := by
      simp only [leave, if_pos hmore, u, hdef]
    rw [hleave]
    refine ⟨⟨hn, hbound.1, hbound.2, hmore, hnext, ?_⟩, fun h => by simp at h⟩
    show (next : Int) + (remain - length) = s.next + c.count ∧ _ ∨
      (next : Int) + (remain - length) = s.next ∧ _ ∧ _
    rcases hplace with ⟨hsum, hall⟩ | ⟨hsum, hall, hlow⟩
    · by_cases hend : curr + length = c.count
      · rw [if_pos hend] at hdef
        exact Or.inr ⟨by omega, fun q h₁ h₂ => hin q s.next hall h₁ (by omega),
          fun q hq => absurd hq (by omega)⟩
      · rw [if_neg hend] at hdef
        exact Or.inl ⟨by omega, fun q h₁ h₂ => hin q s.next hall h₁ (by omega)⟩
    · have hend : curr + length ≠ c.count := by omega
      rw [if_neg hend] at hdef
      exact Or.inr ⟨by omega, fun q h₁ h₂ => hold q (hall q h₁ h₂),
        fun q hq => hin q 0 (fun q _ hq => hlow q hq) (Nat.zero_le _) (by omega)⟩
  · have hleave : s.leave c nbytes curr remain length =
        { u with search := .idle, next := next } := by
      simp only [leave, if_neg hmore, u, hdef]
    rw [hleave]
    refine ⟨⟨hbound.1, hbound.2⟩, fun _ q hq => ?_⟩
    show u.Covered q
    rcases hplace with ⟨hsum, hall⟩ | ⟨hsum, hall, hlow⟩
    · exact hin q s.next hall (by omega) (by omega)
    · by_cases hlast : q < s.next
      · exact hin q 0 (fun q _ hq => hlow q hq) (Nat.zero_le _) (by omega)
      · exact hold q (hall q (by omega) hq)

theorem leave_fields (s : Allocator) (nbytes curr : Nat) (remain : Int) (length : Nat) :
    (s.leave c nbytes curr remain length).length = s.length ∧
      (s.leave c nbytes curr remain length).inUse = s.inUse ∧
      (s.leave c nbytes curr remain length).live = s.live := by
  unfold leave
  dsimp only
  split <;> exact ⟨rfl, rfl, rfl⟩

/-- Flags change only where no block starts, or of a block that is given back. -/
theorem inv_flags {f : Nat → Bool} {l : List (Nat × Nat)} (hs : s.Inv c)
    (hsub : l.Sublist s.live)
    (hkeep : ∀ p n, (p, n) ∈ l → f (p * c.pageSize) = s.busy c p)
    (hflag : ∀ p, Boundary s.length c.count p → p < c.count → f (p * c.pageSize) = true →
      s.busy c p = true ∧ ∀ n, (p, n) ∈ s.live → (p, n) ∈ l) :
    ({ s with inUse := f, live := l } : Allocator).Inv c where
  tiles := hs.tiles
  live p n hp := by
    have hl := hs.live p n (hsub.subset hp)
    exact ⟨hl.boundary, hl.lt, hl.length, (hkeep p n hp).trans hl.busy⟩
  nodup := hs.nodup.sublist (hsub.map _)
  owned p hp hlt hb := by
    obtain ⟨hbusy, hmem⟩ := hflag p hp hlt hb
    exact (hs.owned p hp hlt hbusy).imp fun n hn => hmem n hn
  search := by
    have hsearch := hs.search
    unfold SearchInv at hsearch ⊢
    cases hc : s.search with
    | idle => rw [hc] at hsearch; exact hsearch
    | visit => rw [hc] at hsearch; exact hsearch
    | scan nbytes curr remain length =>
      rw [hc] at hsearch
      obtain ⟨h₁, h₂, h₃, h₄, h₅, h₆, h₇⟩ := hsearch
      refine ⟨h₁, h₂, h₃, h₄, h₅, h₆, fun q hq hlo hhi => ?_⟩
      have hqc : q < c.count := by have := hs.le_count h₆; omega
      by_contra hb
      have := (hflag q hq hqc (by simpa [busy] using hb)).1
      rw [h₇ q hq hlo hhi] at this
      cases this

theorem inv_free (hs : s.Inv c) (hp : (p, n) ∈ s.live) : (s.free c p).Inv c := by
  have hlive := hs.live p n hp
  have hshift := c.shift_eq hlive.lt.le
  refine inv_flags hs List.filter_sublist (fun q m hq => ?_) fun q hq hlt hf => ?_
  · have hne : q ≠ p := by simpa using (List.mem_filter.mp hq).2
    rw [hshift]
    exact Function.update_of_ne (fun h => hne (page_inj h)) _ _
  · have hne : q ≠ p := by
      rintro rfl
      rw [hshift, Function.update_self] at hf
      cases hf
    rw [hshift, Function.update_of_ne fun h => hne (page_inj h)] at hf
    exact ⟨hf, fun m hm => List.mem_filter.mpr ⟨hm, by simpa using hne⟩⟩

/-- No block starts inside another, so its owner writes no flag. -/
theorem inv_write (hs : s.Inv c) (hp : (p, n) ∈ s.live) (hx : p * c.pageSize < x)
    (hx' : x < (p + c.needed n) * c.pageSize) :
    ({ s with inUse := Function.update s.inUse x v } : Allocator).Inv c := by
  have hlive := hs.live p n hp
  have hne : ∀ q, Boundary s.length c.count q → q * c.pageSize ≠ x := by
    rintro q hq rfl
    have hlo := Nat.lt_of_mul_lt_mul_right hx
    have hhi := Nat.lt_of_mul_lt_mul_right hx'
    have := hs.tiles.add_le hlive.boundary hq hlo
    rw [hlive.length] at this
    omega
  refine inv_flags hs (List.Sublist.refl _) (fun q m hq => ?_) fun q hq _ hf => ?_
  · exact Function.update_of_ne (hne q (hs.live q m hq).boundary) _ _
  · rw [Function.update_of_ne (hne q hq)] at hf
    exact ⟨hf, fun _ h => h⟩

/-- The search joins the free blocks it has passed. -/
theorem inv_merge (hs : s.Inv c) (hc : s.search = .scan nbytes curr remain length) :
    Tiles (Function.update s.length curr length) c.count ∧
    (∀ p n, (p, n) ∈ s.live → p ≠ curr ∧ ¬(curr < p ∧ p < curr + length) ∧
      Boundary (Function.update s.length curr length) c.count p) ∧
    ∀ q, Boundary (Function.update s.length curr length) c.count q ↔
      Boundary s.length c.count q ∧ ¬(curr < q ∧ q < curr + length) := by
  have hsearch := hs.search
  simp only [SearchInv, hc] at hsearch
  obtain ⟨_, hb, _, _, hpos, he, hfree⟩ := hsearch
  have hmerge := fun q => hs.tiles.boundary_merge (q := q) hb he hpos
  refine ⟨hs.tiles.merge hb he hpos, fun p n hp => ?_, hmerge⟩
  have hout := hs.live_out hp hfree
  have hlive := hs.live p n hp
  have hnin : ¬(curr < p ∧ p < curr + length) := fun h => hout ⟨h.1.le, h.2⟩
  refine ⟨fun h => hout ⟨h.ge, by omega⟩, hnin, (hmerge p).mpr ⟨hlive.boundary, hnin⟩⟩

theorem inv_leave (hs : s.Inv c) (htiles : Tiles t.length c.count)
    (hlive : ∀ p n, (p, n) ∈ s.live → t.length p = s.length p ∧ Boundary t.length c.count p)
    (hback : ∀ q, Boundary t.length c.count q → Boundary s.length c.count q)
    (huse : t.inUse = s.inUse) (hl : t.live = s.live) (hsearch : t.SearchInv c) : t.Inv c where
  tiles := htiles
  live p n hp := by
    rw [hl] at hp
    obtain ⟨hlen, hb⟩ := hlive p n hp
    have hold := hs.live p n hp
    exact ⟨hb, hold.lt, hlen.trans hold.length, by rw [busy, huse]; exact hold.busy⟩
  nodup := by rw [hl]; exact hs.nodup
  owned p hp hlt hb := by
    rw [hl]
    rw [busy, huse] at hb
    exact hs.owned p (hback p hp) hlt hb
  search := hsearch

theorem inv_busy (hs : s.Inv c) (hc : s.search = .visit nbytes curr remain) :
    (s.leave c nbytes curr remain (s.length curr)).Inv c := by
  have hsearch := hs.search
  simp only [SearchInv, hc] at hsearch
  obtain ⟨hn, hb, hlt, hpass⟩ := hsearch
  obtain ⟨hlen, huse, hl⟩ := leave_fields (c := c) s nbytes curr remain (s.length curr)
  have hgo := leave_search hn (hb.next hlt) (hs.tiles.add_length_le hb hlt) hpass
  refine inv_leave hs (by rw [hlen]; exact hs.tiles) (fun p n hp => ?_) (fun q hq => ?_) huse hl
    hgo.1
  · rw [hlen]
    exact ⟨rfl, (hs.live p n hp).boundary⟩
  · rwa [hlen] at hq

theorem inv_stop (hs : s.Inv c) (hc : s.search = .scan nbytes curr remain length) :
    (leave c { s with length := Function.update s.length curr length }
      nbytes curr remain length).Inv c := by
  have hsearch := hs.search
  simp only [SearchInv, hc] at hsearch
  obtain ⟨hn, hb, hlt, hpass, hpos, he, _⟩ := hsearch
  obtain ⟨htiles, hlive, hback⟩ := inv_merge hs hc
  obtain ⟨hlen, huse, hl⟩ := leave_fields (c := c)
    { s with length := Function.update s.length curr length } nbytes curr remain length
  have hend : Boundary (Function.update s.length curr length) c.count (curr + length) :=
    (hback _).mpr ⟨he, by omega⟩
  have hgo := @leave_search c { s with length := Function.update s.length curr length } curr length
    nbytes remain hn hend (hs.le_count he) hpass
  refine inv_leave hs (hlen ▸ htiles) (fun p n hp => ?_) (fun q hq => ?_) huse hl hgo.1
  · obtain ⟨hne, _, hbp⟩ := hlive p n hp
    rw [hlen]
    exact ⟨Function.update_of_ne hne _ _, hbp⟩
  · rw [hlen] at hq
    exact ((hback q).mp hq).1

theorem inv_take (hs : s.Inv c) (hc : s.search = .scan nbytes curr remain length)
    (hle : c.needed nbytes ≤ length) : (s.take c nbytes curr length).Inv c := by
  have hsearch := hs.search
  simp only [SearchInv, hc] at hsearch
  obtain ⟨hn, hb, hlt, _, hpos, he, hfree⟩ := hsearch
  obtain ⟨htiles, hlive, hmerge⟩ := inv_merge hs hc
  have hnpos : 0 < c.needed nbytes := c.needed_pos
  have hend := hs.le_count he
  have hbm : Boundary (Function.update s.length curr length) c.count curr :=
    (hmerge curr).mpr ⟨hb, by omega⟩
  -- the blocks after the split
  obtain ⟨ht, hbound, hlen⟩ : Tiles (s.take c nbytes curr length).length c.count ∧
      (∀ q, Boundary (s.take c nbytes curr length).length c.count q ↔
        Boundary s.length c.count q ∧ ¬(curr < q ∧ q < curr + length) ∨ q = curr + c.needed nbytes) ∧
      ∀ q, q ≠ curr → ¬(curr < q ∧ q < curr + length) →
        (s.take c nbytes curr length).length q = s.length q := by
    by_cases hsplit : c.needed nbytes < length
    · have hmlen : c.needed nbytes < Function.update s.length curr length curr := by
        rwa [Function.update_self]
      have heq : (s.take c nbytes curr length).length =
          Function.update (Function.update (Function.update s.length curr length)
            (curr + c.needed nbytes)
            (Function.update s.length curr length curr - c.needed nbytes)) curr (c.needed nbytes) := by
        simp only [take, if_pos hsplit, Function.update_self]
        rw [Function.update_comm (by omega : curr ≠ curr + c.needed nbytes), Function.update_idem]
      rw [heq]
      refine ⟨htiles.split hbm hlt hnpos hmlen, fun q => ?_, fun q hq hout => ?_⟩
      · rw [htiles.boundary_split hbm hlt hnpos hmlen, hmerge]
      · rw [Function.update_of_ne hq, Function.update_of_ne (by omega), Function.update_of_ne hq]
    · obtain hsame : c.needed nbytes = length := by omega
      have heq : (s.take c nbytes curr length).length = Function.update s.length curr length := by
        rw [take, if_neg hsplit, hsame]
      rw [heq]
      refine ⟨htiles, fun q => ?_, fun q hq _ => Function.update_of_ne hq _ _⟩
      rw [hmerge, hsame]
      refine ⟨Or.inl, fun h => h.elim id ?_⟩
      rintro rfl
      exact ⟨he, by omega⟩
  have hself : (s.take c nbytes curr length).length curr = c.needed nbytes := by
    simp [take]
  -- and their flags
  have hbusy : ∀ q, (s.take c nbytes curr length).busy c q = if q = curr then true
      else if c.needed nbytes < length ∧ q = curr + c.needed nbytes then false else s.busy c q := by
    intro q
    have hc₁ : c.shift curr = curr * c.pageSize := c.shift_eq hlt.le
    have hc₂ : c.shift curr + c.shift (c.needed nbytes) =
        (curr + c.needed nbytes) * c.pageSize := c.shift_add (by omega)
    by_cases hq : q = curr
    · rw [if_pos hq, hq]
      simp [take, busy, hc₁]
    · have hq₁ : q * c.pageSize ≠ curr * c.pageSize := fun h => hq (page_inj h)
      rw [if_neg hq]
      by_cases hsplit : c.needed nbytes < length
      · by_cases hq₂ : q = curr + c.needed nbytes
        · rw [if_pos ⟨hsplit, hq₂⟩]
          simp only [take, busy, if_pos hsplit, hc₂]
          rw [hc₁, Function.update_of_ne hq₁, hq₂, Function.update_self]
        · rw [if_neg fun h => hq₂ h.2]
          simp only [take, busy, if_pos hsplit, hc₂]
          rw [hc₁, Function.update_of_ne hq₁, Function.update_of_ne fun h => hq₂ (page_inj h)]
      · rw [if_neg fun h => hsplit h.1]
        simp only [take, busy, if_neg hsplit, hc₁]
        rw [Function.update_of_ne hq₁]
  have hold : ∀ p n, (p, n) ∈ s.live → (s.take c nbytes curr length).LiveInv c p n := by
    intro p n hp
    obtain ⟨hne, hout, _⟩ := hlive p n hp
    have hl := hs.live p n hp
    refine ⟨(hbound p).mpr (Or.inl ⟨hl.boundary, hout⟩), hl.lt,
      (hlen p hne hout).trans hl.length, ?_⟩
    rw [hbusy, if_neg hne, if_neg]
    · exact hl.busy
    · rintro ⟨hsplit, rfl⟩
      exact hout ⟨by omega, by omega⟩
  have hnew : (s.take c nbytes curr length).LiveInv c curr nbytes :=
    ⟨(hbound curr).mpr (Or.inl ⟨hb, by omega⟩), hlt, hself, by rw [hbusy, if_pos rfl]⟩
  refine ⟨ht, fun p n hp => ?_, ?_, fun p hp hpc hbp => ?_, ?_⟩
  · obtain hp | hp := List.mem_cons.mp (show (p, n) ∈ (curr, nbytes) :: s.live from hp)
    · obtain ⟨rfl, rfl⟩ := Prod.mk.inj hp
      exact hnew
    · exact hold p n hp
  · show (((curr, nbytes) :: s.live).map Prod.fst).Nodup
    rw [List.map_cons, List.nodup_cons]
    refine ⟨fun hmem => ?_, hs.nodup⟩
    obtain ⟨⟨p, n⟩, hp, rfl⟩ := List.mem_map.mp hmem
    exact (hlive p n hp).1 rfl
  · show ∃ n, (p, n) ∈ (curr, nbytes) :: s.live
    rw [hbusy] at hbp
    by_cases hpcurr : p = curr
    · exact ⟨nbytes, by simp [hpcurr]⟩
    · rw [if_neg hpcurr] at hbp
      by_cases hrest : c.needed nbytes < length ∧ p = curr + c.needed nbytes
      · rw [if_pos hrest] at hbp
        cases hbp
      · rw [if_neg hrest] at hbp
        have hbold : Boundary s.length c.count p := by
          rcases (hbound p).mp hp with h | h
          · exact h.1
          · obtain heq : c.needed nbytes = length := by
              by_contra hne
              exact hrest ⟨by omega, h⟩
            rw [h, heq]
            exact he
        obtain ⟨n, hn⟩ := hs.owned p hbold hpc hbp
        exact ⟨n, List.mem_cons_of_mem _ hn⟩
  · show Boundary _ _ (if curr + c.needed nbytes = c.count then 0 else curr + c.needed nbytes) ∧
      (if curr + c.needed nbytes = c.count then 0 else curr + c.needed nbytes) < c.count
    split
    · exact ⟨.zero, c.count_pos⟩
    · exact ⟨(hbound _).mpr (Or.inr rfl), by omega⟩

/-- The search alone moves on. -/
theorem inv_move {x : Search} {l : List (Nat × Nat)} (hs : s.Inv c)
    (hsearch : ({ s with search := x, visited := l } : Allocator).SearchInv c) :
    ({ s with search := x, visited := l } : Allocator).Inv c :=
  inv_leave hs hs.tiles (fun p n hp => ⟨rfl, (hs.live p n hp).boundary⟩) (fun _ hq => hq) rfl rfl
    hsearch

theorem inv_step (h : AllocatorStep c s a t) (hs : s.Inv c) : t.Inv c := by
  have hsearch := hs.search
  cases h with
  | alloc hc hn =>
    simp only [SearchInv, hc] at hsearch
    have hcount := c.count_pos
    exact inv_move hs ⟨hn, hsearch.1, hsearch.2, by exact_mod_cast hcount, hsearch.2,
      Or.inl ⟨rfl, fun q h₁ h₂ => absurd h₂ (Nat.not_lt.mpr h₁)⟩⟩
  | busy hc _ => exact inv_busy hs hc
  | @found nbytes curr remain hc hf =>
    simp only [SearchInv, hc] at hsearch
    obtain ⟨hn, hb, hlt, hpass⟩ := hsearch
    refine inv_move hs ⟨hn, hb, hlt, hpass, hs.tiles.pos _ hb hlt, hb.next hlt, ?_⟩
    intro q hq hlo hhi
    obtain rfl : q = curr := by
      by_contra hne
      have := hs.tiles.add_le hb hq (by omega)
      omega
    rwa [busy, ← c.shift_eq hlt.le]
  | @grow nbytes curr remain length hc hl he hf =>
    simp only [SearchInv, hc] at hsearch
    obtain ⟨hn, hb, hlt, hpass, hpos, hend, hfree⟩ := hsearch
    have hle := hs.le_count hend
    have hlt' : curr + length < c.count := by omega
    have hnew : Boundary s.length c.count (curr + (length + s.length (curr + length))) := by
      rw [← Nat.add_assoc]
      exact hend.next hlt'
    refine inv_move hs ⟨hn, hb, hlt, hpass, by omega, hnew, fun q hq hlo hhi => ?_⟩
    by_cases hq' : q < curr + length
    · exact hfree q hq hlo hq'
    · obtain rfl : q = curr + length := by
        by_contra hne
        have := hs.tiles.add_le hend hq (by omega)
        omega
      rwa [busy, ← c.shift_add hle]
  | stop hc _ _ => exact inv_stop hs hc
  | take hc hl => exact inv_take hs hc hl
  | free hp => exact inv_free hs hp
  | write hp hx hx' => exact inv_write hs hp hx hx'

theorem inv_reachable (h : Reachable (AllocatorStep c) (initial c) s) : s.Inv c :=
  h.invariant inv_step (inv_initial c)

end Allocator
end Gasnet.Pshm
