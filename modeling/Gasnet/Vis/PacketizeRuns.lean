import Gasnet.Vis.Packetize

/-! What each packet of `gasnete_packetize_addrlist` covers, and the run over both lists. -/
namespace Gasnet.Vis

variable {p : Remote} {r l : Cursor} {k pr pd rd ridx n P len count : ℕ}

/-- The position of a cursor in the bytes of its list. -/
def Cursor.pos (c : Cursor) (len : ℕ) : ℕ := c.idx * len + c.offset

/-- A cursor inside the list. -/
def Cursor.Inside (c : Cursor) (count len : ℕ) : Prop := c.idx < count ∧ c.offset < len

namespace Remote

/-- The metadata of so many entries and so much data fit into `n` bytes. -/
def Fits (p : Remote) (entries datasz n : ℕ) : Prop :=
  if p.sharedpacket then metadatasz * entries + datasz ≤ n else
    max (metadatasz * entries) datasz ≤ n

/-- Between two entries: the packet from `r` holds `pd` bytes, `rd` of them of the last entry, and
has room for `pr` more. -/
structure Partway (p : Remote) (r : Cursor) (ridx pr pd rd : ℕ) : Prop where
  before : r.idx ≤ ridx
  inside : ridx ≤ p.count
  room : pr ≤ p.maxpayload
  fits : p.Fits (ridx - r.idx) pd (p.maxpayload - pr)
  pos : r.pos p.len + pd = ridx * p.len
  last : r.idx < ridx → 0 < pd ∧ max (r.pos p.len) ((ridx - 1) * p.len) + rd = r.pos p.len + pd
  fresh : ridx = r.idx → pr = p.maxpayload ∧ r.offset = 0
  units : p.runit ≤ p.maxpayload → r.idx + p.maxpayload / p.runit ≤ ridx + pr / p.runit
  data : p.maxpayload < p.runit → p.maxpayload ≤ pd + pr + metadatasz

/-- What is to be known of a packet: what it covers, that it fits, where the next one starts; and
unless it is the last one, how much it took at least. -/
structure Packed (p : Remote) (r : Cursor) (d : PacketDesc) (e : Rend) : Prop where
  covers : d.Covers p.len (r.pos p.len) e.packetdata
  inside : d.lastidx < p.count
  pos : 0 < e.packetdata
  fits : p.Fits d.entries e.packetdata p.maxpayload
  stop : (Cursor.mk e.ridx e.roffset).pos p.len = r.pos p.len + e.packetdata
  final : e.done = true → e.ridx = p.count ∧ e.roffset = 0
  next : e.done = false → (Cursor.mk e.ridx e.roffset).Inside p.count p.len
  units : e.done = false → p.runit ≤ p.maxpayload → r.idx + p.maxpayload / p.runit ≤ e.ridx
  data : e.done = false → p.maxpayload < p.runit → p.maxpayload ≤ e.packetdata + 2 * metadatasz

/-- The descriptor for the variables at `rend`. -/
def descAt (r : Cursor) (e : Rend) : PacketDesc :=
  ⟨r.idx, if e.roffset = 0 then e.ridx - 1 else e.ridx, r.offset, e.rdatasz⟩

theorem fits_cost (p : Remote) (n : ℕ) : p.Fits 1 n (p.cost n) := by
  unfold Fits cost
  split <;> simp [metadatasz]

theorem cost_mono (p : Remote) {m n : ℕ} (h : m ≤ n) : p.cost m ≤ p.cost n := by
  unfold cost
  split <;> omega

theorem fits_mono {a m c c' : ℕ} (h : p.Fits a m c) (hc : c ≤ c') : p.Fits a m c' := by
  unfold Fits at h ⊢
  split at h
  · rename_i hs
    rw [if_pos hs]
    exact h.trans hc
  · rename_i hs
    rw [if_neg hs]
    exact h.trans hc

/-- `b` whole entries take `runit * b`. -/
theorem fits_units {a b m c : ℕ} (h : p.Fits a m c) :
    p.Fits (a + b) (m + p.len * b) (c + p.runit * b) := by
  unfold Fits runit cost at *
  cases hs : p.sharedpacket with
  | true =>
    simp only [hs, if_true, Nat.mul_add, Nat.add_mul] at h ⊢
    omega
  | false =>
    simp only [hs, Bool.false_eq_true, if_false, Nat.mul_add] at h ⊢
    have hmeta := Nat.mul_le_mul_right b (Nat.le_max_left metadatasz p.len)
    have hlen := Nat.mul_le_mul_right b (Nat.le_max_right metadatasz p.len)
    omega

/-- More whole entries. -/
theorem partway_add (h : p.Partway r ridx pr pd rd) (hk : 0 < k) (hlen : 0 < p.len)
    (hroom : p.runit * k ≤ pr) (hcount : ridx + k ≤ p.count) (hunit : 0 < p.runit) :
    p.Partway r (ridx + k) (pr - p.runit * k) (pd + p.len * k) p.len := by
  obtain ⟨hbefore, hinside, hle, hfits, hpos, hlast, hfresh, hunits, hdata⟩ := h
  have hsum : (ridx + k) * p.len = ridx * p.len + p.len * k := by
    rw [Nat.add_mul, Nat.mul_comm k]
  have hone : p.len ≤ p.len * k := Nat.le_mul_of_pos_right _ hk
  have hprev : (ridx + k - 1) * p.len + p.len = (ridx + k) * p.len := by
    rw [← Nat.succ_mul]
    congr 1
    omega
  have hone' : p.runit ≤ p.runit * k := Nat.le_mul_of_pos_right _ hk
  refine ⟨by omega, hcount, by omega, ?_, by omega, ?_, by omega, ?_, by omega⟩
  · have hmore := @fits_units p (ridx - r.idx) k pd (p.maxpayload - pr) hfits
    have h1 : ridx + k - r.idx = ridx - r.idx + k := by omega
    have h2 : p.maxpayload - (pr - p.runit * k) = p.maxpayload - pr + p.runit * k := by omega
    rwa [h1, h2]
  · intro
    refine ⟨by omega, ?_⟩
    have hmul : ridx * p.len ≤ (ridx + k - 1) * p.len := Nat.mul_le_mul_right _ (by omega)
    omega
  · intro hr
    have hdiv : (pr - p.runit * k) / p.runit + k = pr / p.runit := by
      rw [Nat.sub_mul_div]
      have := Nat.div_le_div_right (c := p.runit) hroom
      rw [Nat.mul_div_cancel_left _ hunit] at this
      omega
    have := hunits hr
    omega

theorem runit_pos (p : Remote) : 0 < p.runit := by
  unfold runit cost metadatasz
  split <;> omega

/-- A packet that ends between two entries. -/
theorem packed_end (h : p.Partway r ridx pr pd rd) (hr : r.Inside p.count p.len)
    (hsome : r.idx < ridx) (done : Bool) (hdone : done = true ↔ ridx = p.count)
    (hstop : done = false → pr ≤ metadatasz ∧ pr < p.runit) :
    p.Packed r (descAt r ⟨ridx, 0, rd, pd, done⟩) ⟨ridx, 0, rd, pd, done⟩ := by
  obtain ⟨hpd, hlast⟩ := h.last hsome
  have hpos := h.pos
  have hfits := h.fits
  have hinside := h.inside
  have hprev : (ridx - 1) * p.len + p.len = ridx * p.len := by
    rw [← Nat.succ_mul]
    congr 1
    omega
  have hle : metadatasz * (ridx - 1 - r.idx + 1) = metadatasz * (ridx - r.idx) := by
    congr 1
    omega
  refine ⟨⟨rfl, hr.2, ?_, hlast, ?_⟩, ?_, hpd, ?_, ?_, ?_, ?_, ?_, ?_⟩
  · simp only [descAt, if_pos]
    omega
  · simp only [descAt, if_pos, Nat.add_mul, Nat.one_mul]
    omega
  · simp only [descAt, if_pos]
    omega
  · have hmono := fits_mono hfits (Nat.sub_le _ _)
    simp only [descAt, PacketDesc.entries, if_pos, Fits] at hmono ⊢
    rwa [hle]
  · simp only [Cursor.pos, Nat.add_zero]
    exact hpos.symm
  · intro hd
    exact ⟨hdone.1 hd, rfl⟩
  · intro hd
    have hne : ridx ≠ p.count := fun he => by
      rw [hdone.2 he] at hd
      cases hd
    exact ⟨by simp only; omega, by have := hr.2; simp only; omega⟩
  · intro hd hu
    have hunits := h.units hu
    rwa [Nat.div_eq_of_lt (hstop hd).2, Nat.add_zero] at hunits
  · intro hd hu
    have hdata := h.data hu
    have := (hstop hd).1
    simp only
    omega

/-- The trailing partial entry, if there is room for one. -/
theorem trailing_packed (h : p.Partway r ridx pr pd rd) (hr : r.Inside p.count p.len)
    (hinside : ridx < p.count) (hroom : pr < p.runit) (hlimit : 2 * metadatasz ≤ p.maxpayload) :
    p.Packed r (descAt r (p.trailing ridx pr pd rd)) (p.trailing ridx pr pd rd) := by
  rw [trailing]
  split
  · rename_i hgt
    have hpos := h.pos
    have hfits := h.fits
    have hbefore := h.before
    have hpr := h.room
    generalize hn : (if p.sharedpacket then pr - metadatasz else pr) = n
    have hn0 : 0 < n := by
      rw [← hn]
      unfold metadatasz at hgt ⊢
      split <;> omega
    have hnlen : n < p.len := by
      unfold runit cost metadatasz at hroom
      unfold metadatasz at hgt hn
      rw [← hn]
      split at hroom <;> simp_all only [if_true, if_false, Bool.false_eq_true] <;> omega
    have hlastidx : descAt r ⟨ridx, n, n, pd + n, false⟩ = ⟨r.idx, ridx, r.offset, n⟩ := by
      rw [descAt, if_neg (by simp only; omega)]
    rw [hlastidx]
    refine ⟨⟨rfl, hr.2, hbefore, ?_, ?_⟩, hinside, by simp only; omega, ?_, ?_, nofun, ?_, ?_, ?_⟩
    · simp only
      omega
    · simp only [Nat.add_mul, Nat.one_mul]
      omega
    · have hentries : ridx - r.idx + 1 = ridx - r.idx + 1 := rfl
      simp only [PacketDesc.entries, Fits] at hfits ⊢
      unfold metadatasz at hfits hgt hn ⊢
      split at hfits <;> simp_all only [if_true, if_false, Bool.false_eq_true] <;> omega
    · simp only [Cursor.pos]
      simp only [Cursor.pos] at hpos
      omega
    · intro
      exact ⟨hinside, hnlen⟩
    · intro _ hu
      have hunits := h.units hu
      rwa [Nat.div_eq_of_lt hroom, Nat.add_zero] at hunits
    · intro _ hu
      have hdata := h.data hu
      have hle : pr ≤ n + metadatasz := by
        rw [← hn]
        split <;> omega
      simp only
      omega
  · rename_i hle
    have hsome : r.idx < ridx := by
      rcases Nat.lt_or_ge r.idx ridx with hlt | hge
      · exact hlt
      · have hfresh := (h.fresh (by have := h.before; omega)).1
        unfold metadatasz at hle hlimit
        omega
    exact packed_end h hr hsome false (by simp; omega) fun _ => ⟨by omega, hroom⟩

theorem whole_packed (h : p.Partway r ridx pr pd rd) (hr : r.Inside p.count p.len)
    (hinside : ridx < p.count) (hlimit : 2 * metadatasz ≤ p.maxpayload) :
    p.Packed r (descAt r (p.whole ridx pr pd rd)) (p.whole ridx pr pd rd) := by
  have hunit := p.runit_pos
  have hlen : 0 < p.len := by
    have := hr.2
    omega
  rw [whole]
  split
  · rename_i hge
    simp only
    have hdiv : 0 < pr / p.runit := Nat.div_pos hge hunit
    generalize hk : (if ridx + pr / p.runit > p.count then p.count - ridx else pr / p.runit) = k
    have hk0 : 0 < k := by
      rw [← hk]
      split <;> omega
    have hkdiv : k ≤ pr / p.runit := by
      rw [← hk]
      split <;> omega
    have hcount : ridx + k ≤ p.count := by
      rw [← hk]
      split <;> omega
    have hroom : p.runit * k ≤ pr :=
      (Nat.mul_le_mul_left _ hkdiv).trans (Nat.mul_div_le pr p.runit)
    have hnext := partway_add h hk0 hlen hroom hcount hunit
    have hbefore := h.before
    split
    · rename_i hdone
      exact packed_end hnext hr (by omega) true (by simp [hdone]) nofun
    · rename_i hdone
      have hk' : k = pr / p.runit := by
        rw [← hk]
        rw [← hk] at hdone
        split
        · rename_i hgt
          rw [if_pos hgt] at hdone
          omega
        · rfl
      have hless : pr - p.runit * k < p.runit := by
        have := Nat.mod_lt pr hunit
        have hmod := Nat.mod_add_div pr p.runit
        rw [hk']
        omega
      exact trailing_packed hnext hr (by omega) hless hlimit
  · rename_i hlt
    exact trailing_packed h hr hinside (by omega) hlimit

theorem fill_packed (hr : r.Inside p.count p.len) (hlimit : 2 * metadatasz ≤ p.maxpayload) :
    p.Packed r (p.desc r) (p.fill r) := by
  have hdesc : p.desc r = descAt r (p.fill r) := rfl
  rw [hdesc, fill]
  obtain ⟨hidx, hoff⟩ := hr
  split
  · rename_i hpos
    simp only
    have hmono := @cost_mono p (p.len - r.offset) p.len (by omega)
    have hbase : (r.idx + 1) * p.len = r.idx * p.len + p.len := Nat.succ_mul ..
    split
    · rename_i hover
      -- the rest of the entry alone overflows the packet
      have hcost := p.fits_cost (p.len - r.offset)
      generalize hn : p.len - r.offset - (p.cost (p.len - r.offset) - p.maxpayload) = n
      have hnpos : 0 < n ∧ n < p.len - r.offset ∧ p.Fits 1 n p.maxpayload ∧
          p.maxpayload ≤ n + metadatasz := by
        rw [← hn]
        unfold cost at hover ⊢
        unfold Fits
        unfold metadatasz at hlimit hover ⊢
        split <;> simp_all only [if_true, if_false, Bool.false_eq_true] <;> omega
      obtain ⟨hn0, hnlen, hfits, hdata⟩ := hnpos
      have hlastidx : descAt r ⟨r.idx, r.offset + n, n, n, false⟩ = ⟨r.idx, r.idx, r.offset, n⟩ := by
        rw [descAt, if_neg (by simp only; omega)]
      rw [hlastidx]
      refine ⟨⟨rfl, hoff, le_refl _, ?_, ?_⟩, hidx, hn0, ?_, ?_, by simp, ?_, ?_, ?_⟩
      · simp only [Cursor.pos]
        omega
      · simp only [Cursor.pos]
        omega
      · simpa [PacketDesc.entries] using hfits
      · simp only [Cursor.pos]
        omega
      · intro
        exact ⟨hidx, by simp only; omega⟩
      · intro _ hu
        unfold runit at hu
        omega
      · intro _ _
        simp only
        omega
    · rename_i hfit
      have hfits := p.fits_cost (p.len - r.offset)
      have hstart : p.Partway r (r.idx + 1) (p.maxpayload - p.cost (p.len - r.offset))
          (p.len - r.offset) (p.len - r.offset) := by
        refine ⟨by omega, hidx, by omega, ?_, ?_, ?_, by omega, ?_, ?_⟩
        · have h1 : r.idx + 1 - r.idx = 1 := by omega
          have h2 : p.maxpayload - (p.maxpayload - p.cost (p.len - r.offset)) =
              p.cost (p.len - r.offset) := by omega
          rwa [h1, h2]
        · simp only [Cursor.pos]
          omega
        · intro
          refine ⟨by omega, ?_⟩
          simp only [Cursor.pos, Nat.add_sub_cancel]
          omega
        · intro hu
          have hle : p.cost (p.len - r.offset) ≤ p.runit := hmono
          have hsub := Nat.sub_mul_div_of_le p.maxpayload 1 (n := p.runit) (by omega)
          have hdiv := Nat.div_le_div_right (c := p.runit)
            (by omega : p.maxpayload - p.runit * 1 ≤ p.maxpayload - p.cost (p.len - r.offset))
          rw [Nat.mul_one] at hsub hdiv
          omega
        · intro _
          have : p.cost (p.len - r.offset) ≤ p.len - r.offset + metadatasz := by
            unfold cost
            split <;> omega
          omega
      split
      · rename_i hdone
        exact packed_end hstart ⟨hidx, hoff⟩ (by omega) true (by simp [hdone]) (by simp)
      · exact whole_packed hstart ⟨hidx, hoff⟩ (by omega) hlimit
  · rename_i hzero
    have hzero : r.offset = 0 := by omega
    have hstart : p.Partway r r.idx p.maxpayload 0 0 := by
      refine ⟨le_refl _, hidx.le, le_refl _, ?_, ?_, by omega, fun _ => ⟨rfl, hzero⟩, ?_, by omega⟩
      · simp [Fits]
      · simp [Cursor.pos, hzero]
      · intro
        exact le_refl _
    exact whole_packed hstart ⟨hidx, hoff⟩ hidx hlimit

end Remote

section Local

variable {e : Lend}

/-- Where the local half stands on its way through a packet of `n` bytes. -/
structure Lend.Partway (e : Lend) (l : Cursor) (n len : ℕ) : Prop where
  before : l.idx ≤ e.lidx
  pos : e.lidx * len + e.loffset + e.packetdata = l.pos len + n
  offset : e.loffset < len
  cut : 0 < e.loffset → e.packetdata = 0 ∧ e.lidx = l.idx ∧ e.ldatasz = n
  last : e.loffset = 0 → l.idx < e.lidx →
    max (l.pos len) ((e.lidx - 1) * len) + e.ldatasz = e.lidx * len
  fresh : e.loffset = 0 → e.lidx = l.idx → l.offset = 0

theorem lfirst_partway (hl : l.offset < len) : (l.lfirst len n).Partway l n len := by
  have hsucc : (l.idx + 1) * len = l.idx * len + len := Nat.succ_mul ..
  unfold Cursor.lfirst
  split
  · simp only
    split
    · refine ⟨le_refl _, ?_, ?_, fun _ => ⟨rfl, rfl, rfl⟩, ?_, ?_⟩ <;>
        simp only [Cursor.pos] <;> omega
    · refine ⟨Nat.le_succ _, ?_, Nat.zero_lt_of_lt hl, nofun, fun _ _ => ?_, ?_⟩ <;>
        simp only [Cursor.pos, Nat.add_sub_cancel] <;> omega
  · refine ⟨le_refl _, ?_, hl, ?_, ?_, ?_⟩ <;> simp only [Cursor.pos] <;> omega

theorem lwhole_partway (h : e.Partway l n len) (hpos : 0 < len)
    (hroom : l.pos len + n ≤ count * len) :
    (e.whole count len).Partway l n len ∧ (e.whole count len).packetdata < len := by
  rw [Lend.whole]
  split
  · rename_i hge
    have hzero : e.loffset = 0 := by
      rcases Nat.eq_zero_or_pos e.loffset with hz | hz
      · exact hz
      · have := (h.cut hz).1
        omega
    have hp := h.pos
    have hbefore := h.before
    have hk0 : 0 < e.packetdata / len := Nat.div_pos hge hpos
    have hmod := Nat.mod_add_div e.packetdata len
    have hlt := Nat.mod_lt e.packetdata hpos
    generalize e.packetdata / len = k at hk0 hmod ⊢
    have hsum : (e.lidx + k) * len = e.lidx * len + len * k := by
      rw [Nat.add_mul, Nat.mul_comm k]
    have hcap : ¬e.lidx + k > count := by
      intro hgt
      have := Nat.mul_le_mul_right len (Nat.succ_le_of_lt hgt)
      rw [Nat.succ_mul] at this
      omega
    have hprev : (e.lidx + k - 1) * len + len = (e.lidx + k) * len := by
      rw [← Nat.succ_mul]
      congr 1
      omega
    have hstart : l.pos len ≤ (e.lidx + k - 1) * len := by
      have hle : e.lidx * len ≤ (e.lidx + k - 1) * len := Nat.mul_le_mul_right _ (by omega)
      rcases Nat.lt_or_ge l.idx e.lidx with hlt' | hge'
      · have := h.last hzero hlt'
        omega
      · have hsame : e.lidx = l.idx := by omega
        have hoff := h.fresh hzero hsame
        rw [Cursor.pos, hoff, ← hsame]
        exact hle
    simp only
    rw [if_neg hcap]
    refine ⟨⟨?_, ?_, h.offset, fun hcut => absurd hzero (Nat.pos_iff_ne_zero.1 hcut),
      fun _ _ => ?_, ?_⟩, ?_⟩
    · simp only
      omega
    · simp only
      omega
    · simp only
      omega
    · intro _ hsame
      simp only at hsame
      omega
    · omega
  · exact ⟨h, by omega⟩

/-- The local packet covers the same number of bytes. -/
theorem lfill_packed (hl : l.Inside count len) (hn : 0 < n) (hroom : l.pos len + n ≤ count * len) :
    (l.ldesc count len n).Covers len (l.pos len) n ∧ (l.ldesc count len n).lastidx < count ∧
      (Cursor.mk (l.lfill count len n).lidx (l.lfill count len n).loffset).pos len =
        l.pos len + n ∧
      (l.pos len + n < count * len →
        (Cursor.mk (l.lfill count len n).lidx (l.lfill count len n).loffset).Inside count len) := by
  obtain ⟨hidx, hoff⟩ := hl
  have hpos : 0 < len := by omega
  obtain ⟨h, hless⟩ := @lwhole_partway l n len count _ (@lfirst_partway l n len hoff) hpos hroom
  have hfirst : (if l.idx = count then l.idx - 1 else l.idx) = l.idx := if_neg (by omega)
  rw [Cursor.ldesc, hfirst, Cursor.lfill]
  generalize (l.lfirst len n).whole count len = e at h hless ⊢
  obtain ⟨hbefore, hp, hoffset, hcut, hlast, hfresh⟩ := h
  have hl : l.pos len = l.idx * len + l.offset := rfl
  have hmul : ∀ a b : ℕ, a < b → a * len + len ≤ b * len := by
    intro a b hab
    have := Nat.mul_le_mul_right len (Nat.succ_le_of_lt hab)
    rwa [Nat.succ_mul] at this
  have hinside : ∀ a b : ℕ, a * len + b < count * len → a < count := by
    intro a b hab
    by_contra hge
    have := Nat.mul_le_mul_right len (Nat.not_lt.1 hge)
    omega
  have hsucc : (e.lidx + 1) * len = e.lidx * len + len := Nat.succ_mul ..
  have hsucc' : (l.idx + 1) * len = l.idx * len + len := Nat.succ_mul ..
  rw [Lend.trailing]
  split
  · rename_i hrest
    have hzero : e.loffset = 0 := by
      rcases Nat.eq_zero_or_pos e.loffset with hz | hz
      · exact hz
      · have := (hcut hz).1
        omega
    have hin := hinside e.lidx (e.packetdata - 1) (by omega)
    have hstart : l.pos len ≤ e.lidx * len := by
      rcases Nat.lt_or_ge l.idx e.lidx with hlt | hge
      · have := hmul _ _ hlt
        omega
      · have hsame : e.lidx = l.idx := by omega
        have := hfresh hzero hsame
        rw [hsame]
        omega
    rw [if_neg (by simp only; omega)]
    refine ⟨⟨rfl, hoff, hbefore, ?_, ?_⟩, hin, ?_, fun _ => ⟨hin, hless⟩⟩
    · simp only
      omega
    · simp only
      omega
    · simp only [Cursor.pos] at hp ⊢
      omega
  · rename_i hrest
    rcases Nat.eq_zero_or_pos e.loffset with hzero | hzero
    · have hlt : l.idx < e.lidx := by
        rcases Nat.lt_or_ge l.idx e.lidx with hlt | hge
        · exact hlt
        · have hsame : e.lidx = l.idx := by omega
          rw [hsame] at hp
          have := hfresh hzero hsame
          omega
      have hend := hlast hzero hlt
      have hprev : e.lidx - 1 + 1 = e.lidx := by omega
      have hin : e.lidx ≤ count := by
        by_contra hge
        have := hmul _ _ (Nat.not_le.1 hge)
        omega
      rw [if_pos hzero]
      refine ⟨⟨rfl, hoff, ?_, ?_, ?_⟩, ?_, ?_, fun hmore => ⟨?_, hoffset⟩⟩
      · simp only
        omega
      · simp only
        omega
      · simp only
        rw [hprev]
        omega
      · simp only
        omega
      · simp only [Cursor.pos] at hp ⊢
        omega
      · exact hinside e.lidx e.loffset (by omega)
    · obtain ⟨-, hsame, hdata⟩ := hcut hzero
      rw [if_neg (by omega)]
      refine ⟨⟨rfl, hoff, hbefore, ?_, ?_⟩, ?_, ?_, fun _ => ⟨?_, hoffset⟩⟩
      · simp only [hsame]
        omega
      · simp only
        omega
      · simp only
        omega
      · simp only [Cursor.pos] at hp ⊢
        omega
      · simp only
        omega

end Local

/-- The sizes of the two lists agree, and the limit holds the metadata of two entries. -/
structure Remote.Wf (p : Remote) (localcount locallen : ℕ) : Prop where
  len : 0 < p.len
  count : 0 < p.count
  llen : 0 < locallen
  total : p.count * p.len = localcount * locallen
  limit : 2 * metadatasz ≤ p.maxpayload
  size : p.maxpayload < 2 ^ 64

/-- What the two tables are for: no packet is empty or too big, none names an entry that does not
exist, packet by packet they describe as many bytes, all packets together are each list in order,
and there is room for them. -/
structure Packets.Exact (t : Packets) (p : Remote) (localcount locallen : ℕ) : Prop where
  room : t.remotept.length ≤ t.ptsz
  same : t.remotept.map (·.datasz p.len) = t.localpt.map (·.datasz locallen)
  pos : ∀ d ∈ t.remotept, 0 < d.datasz p.len
  fits : ∀ d ∈ t.remotept, p.Fits d.entries (d.datasz p.len) p.maxpayload
  remote : ∀ d ∈ t.remotept, d.lastidx < p.count
  inside : ∀ d ∈ t.localpt, d.lastidx < localcount
  bytes : ∀ list : List Word, list.length = p.count →
    t.remotept.flatMap (·.bytes list p.len) = flatAddrs p.len list
  localBytes : ∀ list : List Word, list.length = localcount →
    t.localpt.flatMap (·.bytes list locallen) = flatAddrs locallen list

section Run

variable {localcount locallen fuel w : ℕ} {μ : Cursor → ℕ} {pt : List (PacketDesc × PacketDesc)}

/-- The packets from byte `P` on. -/
structure Cuts (p : Remote) (localcount locallen P : ℕ) (pt : List (PacketDesc × PacketDesc)) :
    Prop where
  same : ∀ d ∈ pt, d.1.datasz p.len = d.2.datasz locallen
  pos : ∀ d ∈ pt, 0 < d.1.datasz p.len
  fits : ∀ d ∈ pt, p.Fits d.1.entries (d.1.datasz p.len) p.maxpayload
  remote : ∀ d ∈ pt, d.1.lastidx < p.count
  inside : ∀ d ∈ pt, d.2.lastidx < localcount
  bytes : ∀ list : List Word, pt.flatMap (fun d => d.1.bytes list p.len) =
    (List.range' P (p.count * p.len - P)).map (byteAt list p.len)
  localBytes : ∀ list : List Word, pt.flatMap (fun d => d.2.bytes list locallen) =
    (List.range' P (p.count * p.len - P)).map (byteAt list locallen)

/-- Each packet that is not the last one brings the measure down by `w`. -/
def Drops (p : Remote) (μ : Cursor → ℕ) (w : ℕ) : Prop :=
  ∀ r : Cursor, r.Inside p.count p.len → (p.fill r).done = false →
    μ ⟨(p.fill r).ridx, (p.fill r).roffset⟩ + w ≤ μ r

/-- The loop ends, and its packets are the rest of both lists. -/
theorem packetizeLoop_cuts (h : p.Wf localcount locallen) (hw : 0 < w) (hdrop : Drops p μ w)
    (hr : r.Inside p.count p.len) (hl : l.Inside localcount locallen)
    (hpos : r.pos p.len = l.pos locallen) (hfuel : p.count * p.len - r.pos p.len ≤ fuel) :
    ∃ pt, packetizeLoop p localcount locallen fuel r l = some pt ∧
      Cuts p localcount locallen (r.pos p.len) pt ∧ pt.length ≤ μ r / w + 1 := by
  induction fuel generalizing r l with
  | zero =>
    have hmul := Nat.mul_le_mul_right p.len (Nat.succ_le_of_lt hr.1)
    have hoff := hr.2
    rw [Nat.succ_mul] at hmul
    rw [Cursor.pos] at hfuel
    omega
  | succ fuel ih =>
    have hremote := p.fill_packed hr h.limit
    have hbelow : r.pos p.len + (p.fill r).packetdata ≤ p.count * p.len := by
      rw [← hremote.stop]
      simp only [Cursor.pos]
      cases hd : (p.fill r).done with
      | true =>
        obtain ⟨hidx, hoff⟩ := hremote.final hd
        rw [hidx, hoff]
        omega
      | false =>
        obtain ⟨hidx, hoff⟩ := hremote.next hd
        have hmul := Nat.mul_le_mul_right p.len (Nat.succ_le_of_lt hidx)
        simp only [Nat.succ_mul] at hmul hoff
        omega
    obtain ⟨hlcovers, hlinside, hlstop, hlnext⟩ := lfill_packed hl hremote.pos
      (by rw [← hpos, ← h.total]; exact hbelow)
    rw [← hpos] at hlcovers hlstop hlnext
    have hsize := hremote.covers.datasz_eq
    have hlsize := hlcovers.datasz_eq
    have hone : ∀ d ∈ [(p.desc r, l.ldesc localcount locallen (p.fill r).packetdata)],
        d.1.datasz p.len = d.2.datasz locallen ∧ 0 < d.1.datasz p.len ∧
          p.Fits d.1.entries (d.1.datasz p.len) p.maxpayload ∧ d.1.lastidx < p.count ∧
          d.2.lastidx < localcount := by
      intro d hd
      obtain rfl := List.mem_singleton.1 hd
      rw [hsize, hlsize]
      exact ⟨rfl, hremote.pos, hremote.fits, hremote.inside, hlinside⟩
    rw [packetizeLoop]
    cases hd : (p.fill r).done with
    | true =>
      obtain ⟨hidx, hoff⟩ := hremote.final hd
      have hend : p.count * p.len - r.pos p.len = (p.fill r).packetdata := by
        have hstop := hremote.stop
        simp only [Cursor.pos, hidx, hoff] at hstop ⊢
        omega
      refine ⟨_, rfl, ⟨fun d h => (hone d h).1, fun d h => (hone d h).2.1,
        fun d h => (hone d h).2.2.1, fun d h => (hone d h).2.2.2.1, fun d h => (hone d h).2.2.2.2,
        fun list => ?_, fun list => ?_⟩, by simp⟩
      · rw [List.flatMap_singleton, hremote.covers.bytes_eq, hend]
      · rw [List.flatMap_singleton, hlcovers.bytes_eq, hend]
    | false =>
      have hinside := hremote.next hd
      have hstop := hremote.stop
      have hmore : r.pos p.len + (p.fill r).packetdata < p.count * p.len := by
        have hmul := Nat.mul_le_mul_right p.len (Nat.succ_le_of_lt hinside.1)
        have hoff := hinside.2
        rw [← hstop]
        simp only [Nat.succ_mul, Cursor.pos] at hmul hoff ⊢
        omega
      have hdone := hremote.pos
      obtain ⟨pt, hpt, hcuts, hlen⟩ := @ih ⟨(p.fill r).ridx, (p.fill r).roffset⟩ _ hinside
        (hlnext (by rw [← h.total]; exact hmore)) (by rw [hstop, hlstop]) (by rw [hstop]; omega)
      rw [hpt]
      have hall : ∀ d ∈ (p.desc r, l.ldesc localcount locallen (p.fill r).packetdata) :: pt,
          d.1.datasz p.len = d.2.datasz locallen ∧ 0 < d.1.datasz p.len ∧
            p.Fits d.1.entries (d.1.datasz p.len) p.maxpayload ∧ d.1.lastidx < p.count ∧
            d.2.lastidx < localcount := by
        intro d hd
        rcases List.mem_cons.1 hd with rfl | hd
        · exact hone _ (List.mem_singleton_self _)
        · exact ⟨hcuts.same d hd, hcuts.pos d hd, hcuts.fits d hd, hcuts.remote d hd,
            hcuts.inside d hd⟩
      have hsum : p.count * p.len - r.pos p.len = (p.fill r).packetdata +
          (p.count * p.len - (r.pos p.len + (p.fill r).packetdata)) := by omega
      refine ⟨_, rfl, ⟨fun d h => (hall d h).1, fun d h => (hall d h).2.1,
        fun d h => (hall d h).2.2.1, fun d h => (hall d h).2.2.2.1, fun d h => (hall d h).2.2.2.2,
        fun list => ?_, fun list => ?_⟩, ?_⟩
      · rw [List.flatMap_cons, hremote.covers.bytes_eq, hcuts.bytes, hstop, hsum,
          ← List.range'_append_1, List.map_append]
      · rw [List.flatMap_cons, hlcovers.bytes_eq, hcuts.localBytes, hstop, hsum,
          ← List.range'_append_1, List.map_append]
      · have hmu := hdrop r hr hd
        have hdiv := Nat.div_le_div_right (c := w) hmu
        rw [Nat.add_div_right _ hw] at hdiv
        rw [List.length_cons]
        omega

/-- Where a unit fits into a packet, each packet finishes as many entries as units fit into it. -/
theorem drops_units (h : p.Wf localcount locallen) (hu : p.runit ≤ p.maxpayload) :
    Drops p (fun r => p.count - 1 - r.idx) (p.maxpayload / p.runit) := by
  intro r hr hd
  have hpacked := p.fill_packed hr h.limit
  have hunits := hpacked.units hd hu
  have hinside := (hpacked.next hd).1
  simp only at hinside ⊢
  omega

/-- Where it does not, each packet leaves room for the metadata of two entries at most. -/
theorem drops_bytes (h : p.Wf localcount locallen) (hu : p.maxpayload < p.runit) :
    Drops p (fun r => p.count * p.len - 1 - r.pos p.len) (p.maxpayload - 2 * metadatasz) := by
  intro r hr hd
  have hpacked := p.fill_packed hr h.limit
  have hdata := hpacked.data hd hu
  obtain ⟨hidx, hoff⟩ := hpacked.next hd
  have hmul := Nat.mul_le_mul_right p.len (Nat.succ_le_of_lt hidx)
  have hstop := hpacked.stop
  simp only [Nat.succ_mul, Cursor.pos] at hmul hoff hstop ⊢
  omega

theorem packetize_exact (h : p.Wf localcount locallen) {ptsz : ℕ} (hsz : p.ptsz = some ptsz)
    (hw : 0 < w) (hdrop : Drops p μ w) (hroom : μ ⟨0, 0⟩ / w + 1 ≤ ptsz) :
    ∃ fuel t, packetizeAddrlist fuel p localcount locallen = some t ∧
      t.Exact p localcount locallen := by
  have hcount : 0 < localcount := by
    rcases Nat.eq_zero_or_pos localcount with hz | hz
    · have htotal := h.total
      have := Nat.mul_pos h.count h.len
      rw [hz, Nat.zero_mul] at htotal
      omega
    · exact hz
  have hstart (len : ℕ) : (Cursor.mk 0 0).pos len = 0 := by simp [Cursor.pos]
  obtain ⟨pt, hpt, hcuts, hlen⟩ := @packetizeLoop_cuts p ⟨0, 0⟩ ⟨0, 0⟩ localcount locallen
    (p.count * p.len) w μ h hw hdrop ⟨h.count, h.len⟩ ⟨hcount, h.llen⟩ (by simp [hstart])
    (by omega)
  rw [hstart] at hcuts
  refine ⟨p.count * p.len, ⟨ptsz, pt.map Prod.fst, pt.map Prod.snd⟩, ?_, ?_⟩
  · simp [packetizeAddrlist, hsz, hpt]
  · refine ⟨?_, ?_, ?_, ?_, ?_, ?_, fun list hl => ?_, fun list hl => ?_⟩
    · rw [List.length_map]
      exact hlen.trans hroom
    · rw [List.map_map, List.map_map]
      exact List.map_congr_left hcuts.same
    · exact List.forall_mem_map.2 hcuts.pos
    · exact List.forall_mem_map.2 hcuts.fits
    · exact List.forall_mem_map.2 hcuts.remote
    · exact List.forall_mem_map.2 hcuts.inside
    · rw [List.flatMap_map, flatAddrs_eq, hl]
      exact hcuts.bytes list
    · rw [List.flatMap_map, flatAddrs_eq, hl, ← h.total]
      exact hcuts.localBytes list

end Run

/-- Both lists are packetized exactly, into the tables allocated for it, unless the size of the
tables cannot be computed: a unit does not fit and the limit is the metadata of two entries. -/
theorem packetize_exact_iff (p : Remote) (localcount locallen : ℕ) (h : p.Wf localcount locallen) :
    (∃ fuel t, packetizeAddrlist fuel p localcount locallen = some t ∧
        t.Exact p localcount locallen) ↔
      ¬(p.maxpayload = 2 * metadatasz ∧ p.maxpayload < p.runit) := by
  have hlimit := h.limit
  have hsize := h.size
  have hdivisor : (p.maxpayload + 2 ^ 64 - 2 * metadatasz) % 2 ^ 64 =
      p.maxpayload - 2 * metadatasz := by omega
  constructor
  · rintro ⟨fuel, t, ht, -⟩ ⟨heq, hu⟩
    have hnone : p.ptsz = none := by
      rw [Remote.ptsz, if_neg (Nat.not_le.2 hu)]
      simp only [hdivisor]
      rw [if_pos (by omega)]
    rw [packetizeAddrlist, hnone] at ht
    cases ht
  · intro hne
    rcases Nat.lt_or_ge p.maxpayload p.runit with hu | hu
    · have hsz : p.ptsz = some (p.len * p.count / (p.maxpayload - 2 * metadatasz) + 1) := by
        rw [Remote.ptsz, if_neg (Nat.not_le.2 hu)]
        simp only [hdivisor]
        rw [if_neg (by omega)]
      refine packetize_exact h hsz (by omega) (drops_bytes h hu) (Nat.succ_le_succ ?_)
      refine Nat.div_le_div_right ?_
      rw [Nat.mul_comm p.len]
      omega
    · have hsz : p.ptsz = some (p.count / (p.maxpayload / p.runit) + 1) := if_pos hu
      refine packetize_exact h hsz (Nat.div_pos hu p.runit_pos) (drops_units h hu)
        (Nat.succ_le_succ (Nat.div_le_div_right ?_))
      simp only
      omega

theorem packetize_exact_seven :
    ∃ fuel t, packetizeAddrlist fuel ⟨7, 13, 17, true⟩ 13 7 = some t ∧
      t.Exact ⟨7, 13, 17, true⟩ 13 7 :=
  (packetize_exact_iff ⟨7, 13, 17, true⟩ 13 7
    ⟨by decide, by decide, by decide, by decide, by decide, by decide⟩).2 (by decide)

/-- One element of 16 bytes: the division traps. -/
theorem packetize_trap :
    ¬∃ fuel t, packetizeAddrlist fuel ⟨1, 16, 16, true⟩ 1 16 = some t ∧
      t.Exact ⟨1, 16, 16, true⟩ 1 16 := by
  rintro ⟨fuel, t, ht, -⟩
  have hnone : (Remote.mk 1 16 16 true).ptsz = none := by decide
  rw [packetizeAddrlist, hnone] at ht
  cases ht

end Gasnet.Vis
