import Gasnet.Firehose.Slots

/-! References to the node's own entries: what an acquire, a release and the release of a list of
regions do to the counters, and what the FIFO gives up. -/
namespace Gasnet.Firehose.Own

variable {c : Params} {s t : Own} {x : Priv} {n k : Nat} {r : Region} {rs : List Region}
  {res : Int} {b : Bool}

/-- A reference is added: a local one is held by a request. -/
theorem Counted.acquire (h : Counted s res) (hx : x ∈ s.table.privs) :
    Counted ((s.privAcquireLocal b x).hold b x.ptr) res := by
  obtain ⟨k, hst, hfifo⟩ := h.used_of hx
  have hother : ∀ q ≠ x.ptr, (if b then x.ptr :: s.held else s.held).count q =
      s.held.count q := by
    intro q hq
    cases b
    · rfl
    · exact List.count_cons_of_ne hq.symm
  have hself : (if b then x.ptr :: s.held else s.held).count x.ptr =
      s.held.count x.ptr + b.toNat := by
    cases b <;> simp
  unfold privAcquireLocal
  split
  · rename_i hmem
    obtain ⟨hzero, rfl⟩ := hfifo.1 hmem
    have hlen := List.length_erase_of_mem hmem
    have hpos := List.length_pos_of_mem hmem
    have hfits : OwnFits (if b then x.ptr :: s.held else s.held) (s.table.fifo.erase x.ptr)
        x.ptr (.used b.toNat (!b).toNat) := by
      refine ⟨by rw [hself, hzero, Nat.zero_add], iff_of_false ?_ ?_⟩
      · simp [h.fifoNodup.mem_erase_iff]
      · cases b <;> simp
    have hset := h.setStatus (o := s.onlyPinned - (!b).toNat)
      (v := s.victimFifoBuckets - 1) hx hfits hother (fun q hq => List.mem_erase_of_ne hq)
      (h.fifoNodup.erase _) (by rw [h.count]; omega) (by
        rw [hst, hzero]
        cases b <;> simp [Status.isLocal] <;> omega)
    cases b <;> exact hset
  · rename_i hmem
    rw [hst]
    have hfits : OwnFits (if b then x.ptr :: s.held else s.held) s.table.fifo x.ptr
        (.used (s.held.count x.ptr + b.toNat) (k + (!b).toNat)) := by
      refine ⟨hself.symm, iff_of_false hmem ?_⟩
      cases b <;> simp
    have hset := h.setStatus
      (o := s.onlyPinned + (b && s.held.count x.ptr == 0).toNat) hx hfits hother
      (fun _ _ => Iff.rfl) h.fifoNodup h.count (by
        rw [hst]
        cases b
        · simp [Status.isLocal]
        · by_cases hz : s.held.count x.ptr = 0
          · simp [Status.isLocal, hz]
            omega
          · simp [Status.isLocal, beq_false_of_ne hz, bne_iff_ne.2 hz])
    cases b <;> exact hset

/-- A local reference to an entry that is ready keeps to the limit, and so does any other. -/
theorem privAcquireLocal_le (h : Counted s res) (hx : x ∈ s.table.privs)
    (hr : b = true → s.isReady c x = true) (hle : s.onlyPinned ≤ c.maxVictimBuckets) :
    (s.privAcquireLocal b x).onlyPinned ≤ c.maxVictimBuckets := by
  obtain ⟨k, hst, hfifo⟩ := h.used_of hx
  unfold privAcquireLocal
  split
  · simp only
    omega
  · rename_i hmem
    rw [hst]
    cases b
    · simpa using hle
    · have hready := hr rfl
      rw [isReady, hst] at hready
      by_cases hz : s.held.count x.ptr = 0
      · have hav : s.avail c ≠ 0 := by simpa [hmem, hz] using hready
        unfold avail at hav
        simp [hz]
        omega
      · simpa [beq_false_of_ne hz] using hle

/-- A reference is dropped: a local one that a request held, or one of a peer. -/
theorem Counted.release (h : Counted s res) (hx : x ∈ s.table.privs)
    (hl : b = true → x.ptr ∈ s.held)
    (hr : b = false → ∃ l k, x.status = .used l k ∧ 0 < k) :
    Counted { s.privReleaseLocal b x with
      held := if b then s.held.erase x.ptr else s.held } res ∧
    (s.privReleaseLocal b x).onlyPinned - (s.privReleaseLocal b x).table.fifo.length ≤
      s.onlyPinned - s.table.fifo.length ∧
    (b = true → (s.privReleaseLocal b x).onlyPinned ≤ s.onlyPinned) := by
  obtain ⟨k, hst, hfifo⟩ := h.used_of hx
  have hother : ∀ q ≠ x.ptr, (if b then s.held.erase x.ptr else s.held).count q =
      s.held.count q := by
    intro q hq
    cases b
    · rfl
    · exact List.count_erase_of_ne hq
  have hself : (if b then s.held.erase x.ptr else s.held).count x.ptr =
      s.held.count x.ptr - b.toNat := by
    cases b
    · rfl
    · exact List.count_erase_self
  have hsome : b.toNat ≤ s.held.count x.ptr ∧ (!b).toNat ≤ k := by
    cases b
    · obtain ⟨l, m, hm, hpos⟩ := hr rfl
      rw [hst] at hm
      cases hm
      exact ⟨Nat.zero_le _, hpos⟩
    · exact ⟨List.count_pos_iff.2 (hl rfl), Nat.zero_le _⟩
  have hnot : x.ptr ∉ s.table.fifo := by
    intro hmem
    obtain ⟨hzero, rfl⟩ := hfifo.1 hmem
    rw [hzero] at hsome
    cases b
    · exact absurd hsome.2 (by decide)
    · exact absurd hsome.1 (by decide)
  unfold privReleaseLocal
  rw [hst]
  simp only
  split
  · rename_i hzero
    have hlen : (if x.visible = 0 then x.ptr :: s.table.fifo else s.table.fifo ++ [x.ptr]).length =
        s.table.fifo.length + 1 := by split <;> simp
    refine ⟨h.setStatus hx ⟨?_, iff_of_true ?_ hzero⟩ hother ?_ ?_ ?_ ?_, ?_, ?_⟩
    · rw [hself]
    · split <;> simp
    · intro q hq
      change q ∈ (if x.visible = 0 then x.ptr :: s.table.fifo else s.table.fifo ++ [x.ptr]) ↔ _
      split <;> simp [hq]
    · change (if x.visible = 0 then x.ptr :: s.table.fifo else s.table.fifo ++ [x.ptr]).Nodup
      split
      · exact List.nodup_cons.2 ⟨hnot, h.fifoNodup⟩
      · exact List.Nodup.append h.fifoNodup (List.nodup_singleton _) (by simpa using hnot)
    · rw [h.count]
      change _ = ((if x.visible = 0 then x.ptr :: s.table.fifo
        else s.table.fifo ++ [x.ptr]).length : Int)
      rw [hlen]
      push_cast
      rfl
    · change _ - ((if x.visible = 0 then x.ptr :: s.table.fifo
        else s.table.fifo ++ [x.ptr]).length : Int) - _ = _
      rw [hlen, hst]
      cases b
      · have hl : s.held.count x.ptr = 0 := by simpa using hzero.1
        simp [Status.isLocal, hl]
      · have hl : s.held.count x.ptr = 1 := by
          have := hzero.1
          have := hsome.1
          simp only [Bool.toNat_true] at *
          omega
        simp [Status.isLocal, hl]
        omega
    · change _ - ((if x.visible = 0 then x.ptr :: s.table.fifo
        else s.table.fifo ++ [x.ptr]).length : Int) ≤ _
      rw [hlen]
      cases b
      · simp
      · simp
        omega
    · intro hloc
      simp [hloc]
  · rename_i hpos
    refine ⟨h.setStatus hx ⟨by rw [hself], iff_of_false hnot hpos⟩ hother (fun _ _ => Iff.rfl)
      h.fifoNodup h.count ?_, ?_, ?_⟩
    · rw [hst]
      cases b
      · simp [Status.isLocal]
      · by_cases hl : s.held.count x.ptr = 1
        · simp [Status.isLocal, hl]
          omega
        · have hl' : s.held.count x.ptr - 1 ≠ 0 := by
            have := hsome.1
            simp only [Bool.toNat_true] at this
            omega
          have hl'' : s.held.count x.ptr ≠ 0 := by omega
          simp [Status.isLocal, beq_false_of_ne hl', bne_iff_ne.2 hl', bne_iff_ne.2 hl'']
    · change _ - (s.table.fifo.length : Int) ≤ _
      simp only
      omega
    · intro _
      simp only
      omega

theorem Counted.freeVictimLocal (h : Counted s res) (hn : n ≤ s.table.fifo.length) :
    Counted (s.freeVictimLocal n) (res + n) := by
  induction n generalizing s res with
  | zero => simpa [Own.freeVictimLocal, Table.freeVictim] using h
  | succ n ih =>
    obtain ⟨p, rest, hf⟩ := List.exists_cons_of_length_pos (Nat.lt_of_lt_of_le n.succ_pos hn)
    have hevict := h.evict hf
    have hrest : (s.table.evict p rest).fifo = rest := Table.fifo_destroyPriv
    have hlen : n ≤ (s.table.evict p rest).fifo.length := by
      rw [hrest]
      rw [hf, List.length_cons] at hn
      omega
    have hfree := ih hevict hlen
    simp only [Own.freeVictimLocal, Table.freeVictim, hf] at hfree ⊢
    convert hfree using 1
    · congr 1
      push_cast
      ring
    · push_cast
      ring

theorem Counted.cleanCoveredLocal (h : Counted s res) :
    Counted (s.cleanCoveredLocal n) res := by
  induction n generalizing s with
  | zero => simpa [Own.cleanCoveredLocal, Table.cleanCovered] using h
  | succ n ih =>
    by_cases hclean : ∃ p rest, s.table.fifo = p :: rest ∧ s.table.visible p = 0
    · obtain ⟨p, rest, hf, hv⟩ := hclean
      have hevict := (h.evict hf).reserve (k := -1) (w := s.waiting) (m := s.moving)
      rw [add_neg_cancel_right] at hevict
      have hnext := ih hevict
      simp only [Own.cleanCoveredLocal, Table.cleanCovered, hf, hv, if_true] at hnext ⊢
      convert hnext using 1
      congr 1 <;> push_cast <;> ring
    · have hnone : s.table.cleanCovered (n + 1) = (s.table, 0) := by
        unfold Table.cleanCovered
        split
        · rfl
        · rename_i p rest hf
          exact if_neg fun hv => hclean ⟨p, rest, hf, hv⟩
      simpa [Own.cleanCoveredLocal, hnone] using h

/-- A slot is taken from below the limit or from the FIFO. -/
theorem waitLocalFirehoses_spec (h : Counted s res) (hle : s.onlyPinned ≤ c.maxVictimBuckets)
    (hw : s.waitLocalFirehoses c = some (t, n)) :
    Counted t (res + 1) ∧ t.onlyPinned ≤ c.maxVictimBuckets ∧ t.waiting = s.waiting ∧
      t.moving = s.moving := by
  unfold waitLocalFirehoses at hw
  split at hw
  · rename_i hroom
    obtain ⟨rfl, rfl⟩ := Prod.mk.inj (Option.some.inj hw)
    unfold avail at hroom
    exact ⟨h.reserve, by simp only; omega, rfl, rfl⟩
  · split at hw
    · rename_i hvictim
      obtain ⟨rfl, rfl⟩ := Prod.mk.inj (Option.some.inj hw)
      rw [h.count] at hvictim
      exact ⟨h.freeVictimLocal (by omega), hle, rfl, rfl⟩
    · cases hw

/-- `fh_AdjustLocalFifoAndPin` is asked for no more victims than the FIFO has. -/
def CanAdjust (c : Params) (s : Own) : Prop :=
  (s.onlyPinned - c.maxVictimBuckets).toNat ≤ s.table.fifo.length

theorem Counted.adjustLocalFifo (h : Counted s res) (hfit : s.CanAdjust c) :
    Counted (s.adjustLocalFifo c) res ∧ (s.adjustLocalFifo c).onlyPinned ≤ c.maxVictimBuckets := by
  let n := (s.onlyPinned - c.maxVictimBuckets).toNat
  have hfree := (h.freeVictimLocal (n := n) hfit).reserve (k := -n) (w := s.waiting)
    (m := s.moving)
  rw [add_neg_cancel_right] at hfree
  refine ⟨hfree, ?_⟩
  simp only [Own.adjustLocalFifo, Own.freeVictimLocal]
  omega

theorem threads_privAcquireLocal : (s.privAcquireLocal b x).waiting = s.waiting ∧
    (s.privAcquireLocal b x).moving = s.moving := by
  unfold privAcquireLocal
  split
  · exact ⟨rfl, rfl⟩
  · split <;> exact ⟨rfl, rfl⟩

theorem threads_privReleaseLocal : (s.privReleaseLocal b x).waiting = s.waiting ∧
    (s.privReleaseLocal b x).moving = s.moving := by
  unfold privReleaseLocal
  split
  · simp only
    split <;> exact ⟨rfl, rfl⟩
  · exact ⟨rfl, rfl⟩

theorem mem_of_regionToPriv (h : s.regionToPriv r = some x) :
    x ∈ s.table.privs ∧ x.region = r :=
  ⟨List.mem_of_find?_eq_some h, by simpa using List.find?_some h⟩

theorem not_mem_regions (h : s.regionToPriv r = none) : r ∉ s.table.regions := by
  rw [Table.regions_eq, List.mem_map]
  rintro ⟨y, hy, hr⟩
  have := List.find?_eq_none.1 h y hy
  simp [hr] at this

theorem held_privReleaseLocal : (s.privReleaseLocal b x).held = s.held := by
  unfold privReleaseLocal
  split
  · simp only
    split <;> rfl
  · rfl

/-- Peers have pinned the region `r` at least `k` times. -/
def Refs (s : Own) (r : Region) (k : Nat) : Prop :=
  ∃ x ∈ s.table.privs, x.region = r ∧ ∃ l m, x.status = .used l m ∧ k ≤ m

theorem Counted.refs_setStatus {st : Status} {m : Nat} (h : Counted s res)
    (hx : x ∈ s.table.privs) (hrefs : s.Refs r k)
    (hself : x.region = r → ∃ l n, st = .used l n ∧ m ≤ n) (hother : x.region ≠ r → m ≤ k)
    (ht : t.table.privs = (s.table.setStatus x.ptr st).privs) : t.Refs r m := by
  obtain ⟨y, hy, hr, l, n, hst, hk⟩ := hrefs
  have hmem : (if y.ptr = x.ptr then { y with status := st } else y) ∈ t.table.privs := by
    rw [ht]
    exact List.mem_map_of_mem hy
  by_cases hyx : y.ptr = x.ptr
  · rw [if_pos hyx] at hmem
    have heq := h.eq_of_ptr hy hx hyx
    obtain ⟨l', n', hst', hm⟩ := hself (heq ▸ hr)
    exact ⟨_, hmem, hr, l', n', hst', hm⟩
  · rw [if_neg hyx] at hmem
    have hne : x.region ≠ r := fun hxr =>
      hyx (congrArg Priv.ptr (h.eq_of_region hy hx (hr.trans hxr.symm)))
    exact ⟨y, hmem, hr, l, n, hst, (hother hne).trans hk⟩

theorem Counted.refs_acquire (h : Counted s res) (hx : x ∈ s.table.privs) (hrefs : s.Refs r k) :
    (s.privAcquireLocal false x).Refs r k := by
  obtain ⟨m, hst, hfifo⟩ := h.used_of hx
  have hown : x.region = r → k ≤ m := by
    intro hr
    obtain ⟨y, hy, hyr, l, n, hyst, hk⟩ := hrefs
    rw [h.eq_of_region hy hx (hyr.trans hr.symm), hst] at hyst
    cases hyst
    exact hk
  unfold privAcquireLocal
  split
  · rename_i hmem
    obtain ⟨_, rfl⟩ := hfifo.1 hmem
    exact h.refs_setStatus hx hrefs (fun hr => ⟨_, _, rfl, (hown hr).trans (Nat.zero_le _)⟩)
      (fun _ => le_rfl) rfl
  · rw [hst]
    exact h.refs_setStatus hx hrefs (fun hr => ⟨_, _, rfl, (hown hr).trans (Nat.le_add_right _ _)⟩)
      (fun _ => le_rfl) rfl

/-- A peer's release of one region takes one reference of that region. -/
theorem Counted.refs_release (h : Counted s res) (hx : x ∈ s.table.privs)
    (hrefs : s.Refs r (k + if x.region = r then 1 else 0)) :
    (s.privReleaseLocal false x).Refs r k := by
  obtain ⟨m, hst, _⟩ := h.used_of hx
  have hown : x.region = r → k ≤ m - 1 := by
    intro hr
    obtain ⟨y, hy, hyr, l, n, hyst, hk⟩ := hrefs
    rw [h.eq_of_region hy hx (hyr.trans hr.symm), hst] at hyst
    cases hyst
    rw [if_pos hr] at hk
    omega
  have hless : x.region ≠ r → k ≤ k + if x.region = r then 1 else 0 := fun _ => Nat.le_add_right _ _
  unfold privReleaseLocal
  rw [hst]
  simp only
  split <;> exact h.refs_setStatus hx hrefs (fun hr => ⟨_, _, rfl, hown hr⟩) hless rfl

/-- What a peer's move leaves of the limit: each entry above it is in the FIFO. -/
theorem releaseRegions_spec (h : Counted s res)
    (hle : s.onlyPinned - s.table.fifo.length ≤ c.maxVictimBuckets)
    (hrefs : ∀ r ∈ rs, s.Refs r (rs.count r)) :
    Counted (rs.foldl releaseRegion s) res ∧ (rs.foldl releaseRegion s).CanAdjust c ∧
      (rs.foldl releaseRegion s).waiting = s.waiting ∧
      (rs.foldl releaseRegion s).moving = s.moving := by
  induction rs generalizing s with
  | nil => exact ⟨h, by simp only [List.foldl_nil, CanAdjust]; omega, rfl, rfl⟩
  | cons r rs ih =>
    have hfirst := hrefs r List.mem_cons_self
    rw [List.count_cons_self] at hfirst
    obtain ⟨y, hy, hyr, hypos⟩ := hfirst
    cases hfind : s.regionToPriv r with
    | none => exact absurd (hyr ▸ Table.region_mem hy) (not_mem_regions hfind)
    | some x =>
      obtain ⟨hx, hxr⟩ := mem_of_regionToPriv hfind
      obtain rfl := h.eq_of_region hy hx (hyr.trans hxr.symm)
      obtain ⟨l, m, hst, hm⟩ := hypos
      obtain ⟨hcounted, hexcess, _⟩ := h.release (b := false) hx (fun h => nomatch h)
        fun _ => ⟨l, m, hst, Nat.lt_of_lt_of_le (Nat.succ_pos _) hm⟩
      have hsame : releaseRegion s r = s.privReleaseLocal false y := by
        rw [releaseRegion, hfind]
      have hnext : Counted (s.privReleaseLocal false y) res := by
        rw [if_neg (by decide), ← held_privReleaseLocal (b := false) (x := y)] at hcounted
        exact hcounted
      obtain ⟨hwait, hmove⟩ := threads_privReleaseLocal (s := s) (b := false) (x := y)
      rw [List.foldl_cons, hsame, ← hwait, ← hmove]
      refine ih hnext (by omega) fun r' hr' => h.refs_release hx ?_
      have hr := hrefs r' (List.mem_cons_of_mem _ hr')
      rw [List.count_cons] at hr
      simpa [hyr] using hr

end Gasnet.Firehose.Own
