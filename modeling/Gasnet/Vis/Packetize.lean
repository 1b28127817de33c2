import Gasnet.Foundation.Memory

/-! Address lists, and the packets that parts of them make. -/
namespace Gasnet.Vis

variable {list : List Word} {len P n i : ℕ}

/-- The bytes of a list of elements of equal length. -/
def flatAddrs (len : ℕ) (list : List Word) : List Word := list.flatMap fun a => span a len

/-- `gasnete_packetdesc_t`: from the first byte in it to the end of the data in the last entry. -/
structure PacketDesc where
  firstidx : ℕ
  lastidx : ℕ
  firstoffset : ℕ
  lastlen : ℕ
  deriving DecidableEq, Repr

/-- How many entries of the list a packet names. -/
def PacketDesc.entries (d : PacketDesc) : ℕ := d.lastidx - d.firstidx + 1

/-- The data of one entry: in the last entry `lastlen` counts it, also if that is the first one. -/
def PacketDesc.piece (d : PacketDesc) (list : List Word) (len i : ℕ) : List Word :=
  span (list.getD i 0 + ((if i = d.firstidx then d.firstoffset else 0 : ℕ) : Word))
    (if i = d.lastidx then d.lastlen else if i = d.firstidx then len - d.firstoffset else len)

/-- The data of a packet. -/
def PacketDesc.bytes (d : PacketDesc) (list : List Word) (len : ℕ) : List Word :=
  (List.range' d.firstidx d.entries).flatMap (d.piece list len)

/-- How many bytes these are, counted as `datachk`. -/
def PacketDesc.datasz (d : PacketDesc) (len : ℕ) : ℕ :=
  ((List.range' d.firstidx d.entries).map fun i =>
    if i = d.lastidx then d.lastlen else if i = d.firstidx then len - d.firstoffset else len).sum

/-- Byte `n` of a list. -/
def byteAt (list : List Word) (len n : ℕ) : Word := list.getD (n / len) 0 + ((n % len : ℕ) : Word)

/-- The packet is the `n` bytes from byte `P` on. -/
structure PacketDesc.Covers (d : PacketDesc) (len P n : ℕ) : Prop where
  start : d.firstidx * len + d.firstoffset = P
  offset : d.firstoffset < len
  order : d.firstidx ≤ d.lastidx
  stop : max P (d.lastidx * len) + d.lastlen = P + n
  room : P + n ≤ (d.lastidx + 1) * len

theorem map_byteAt (list : List Word) {s k : ℕ} (h : s + k ≤ len) :
    (List.range' (i * len + s) k).map (byteAt list len) = span (list.getD i 0 + (s : Word)) k := by
  induction k with
  | zero => rfl
  | succ k ih =>
    have hlt : s + k < len := by omega
    have hdiv : (i * len + (s + k)) / len = i := by
      rw [Nat.mul_comm, Nat.mul_add_div (by omega), Nat.div_eq_of_lt hlt, Nat.add_zero]
    have hmod : (i * len + (s + k)) % len = s + k := by
      rw [Nat.mul_comm, Nat.mul_add_mod, Nat.mod_eq_of_lt hlt]
    rw [List.range'_concat, List.map_append, ih (by omega), span_add, Nat.one_mul, Nat.add_assoc,
      List.map_singleton, byteAt, hdiv, hmod]
    simp [span, add_assoc]

theorem flatAddrs_eq (list : List Word) (len : ℕ) :
    flatAddrs len list = (List.range' 0 (list.length * len)).map (byteAt list len) := by
  have hprefix : ∀ m ≤ list.length,
      flatAddrs len (list.take m) = (List.range' 0 (m * len)).map (byteAt list len) := by
    intro m
    induction m with
    | zero =>
      intro
      simp [flatAddrs]
    | succ m ih =>
      intro hm
      have hget : list[m]? = some (list.getD m 0) := by
        rw [List.getD_eq_getElem?_getD, List.getElem?_eq_getElem (by omega)]
        rfl
      have hlast := @map_byteAt len m list 0 len (by omega)
      have hcat := @List.range'_append_1 0 (m * len) len
      rw [Nat.zero_add] at hcat
      rw [Nat.add_zero] at hlast
      rw [List.take_add_one, hget, Nat.succ_mul, ← hcat, List.map_append, ← ih (by omega), hlast]
      simp [flatAddrs]
  have hall := hprefix list.length (le_refl _)
  rwa [List.take_length] at hall

/-- Ranges that follow each other. -/
theorem flatMap_range' (s : ℕ → ℕ) (hs : ∀ i, s i ≤ s (i + 1)) (f m : ℕ) :
    (List.range' f m).flatMap (fun i => List.range' (s i) (s (i + 1) - s i)) =
      List.range' (s f) (s (f + m) - s f) := by
  have hle : ∀ f m, s f ≤ s (f + m) := by
    intro f m
    induction m with
    | zero => exact le_refl _
    | succ m ih => exact ih.trans (hs _)
  induction m generalizing f with
  | zero => simp
  | succ m ih =>
    have h1 := hs f
    have h2 := hle (f + 1) m
    rw [List.range'_succ, List.flatMap_cons, ih, ← Nat.add_assoc, Nat.add_right_comm f m 1]
    have hsum : s f + (s (f + 1) - s f) = s (f + 1) := by omega
    have hlen : s (f + 1 + m) - s f = s (f + 1) - s f + (s (f + 1 + m) - s (f + 1)) := by omega
    rw [hlen, ← List.range'_append_1, hsum]

/-- The data of a packet is the bytes it covers. -/
theorem PacketDesc.Covers.bytes_eq {d : PacketDesc} (h : d.Covers len P n) (list : List Word) :
    d.bytes list len = (List.range' P n).map (byteAt list len) := by
  obtain ⟨hstart, hoffset, horder, hstop, hroom⟩ := h
  -- where the data of entry `i` starts
  let s (i : ℕ) : ℕ := if i ≤ d.firstidx then P else if i ≤ d.lastidx then i * len else P + n
  have hlast : d.lastidx * len ≤ (d.lastidx + 1) * len := Nat.mul_le_mul_right _ (Nat.le_succ _)
  have hfirst (i : ℕ) (hi : d.firstidx < i) : P ≤ i * len := by
    have := Nat.mul_le_mul_right len (Nat.succ_le_of_lt hi)
    rw [Nat.succ_mul] at this
    omega
  have hs : ∀ i, s i ≤ s (i + 1) := by
    intro i
    have hi := hfirst (i + 1)
    have hmul : i * len ≤ (i + 1) * len := Nat.mul_le_mul_right _ (Nat.le_succ _)
    have hend : i ≤ d.lastidx → i * len ≤ d.lastidx * len := Nat.mul_le_mul_right _
    simp only [s]
    split <;> split <;> (try split) <;> (try split) <;> omega
  have hchain := flatMap_range' s hs d.firstidx d.entries
  have hfinal : s (d.firstidx + d.entries) = P + n := by
    simp only [s, PacketDesc.entries]
    rw [if_neg (by omega), if_neg (by omega)]
  have hbegin : s d.firstidx = P := by simp [s]
  rw [hbegin, hfinal, Nat.add_sub_cancel_left] at hchain
  rw [← hchain, PacketDesc.bytes, List.map_flatMap]
  refine List.flatMap_congr fun i hi => ?_
  rw [List.mem_range'_1] at hi
  have hile : i ≤ d.lastidx := by
    have := hi.2
    rw [PacketDesc.entries] at this
    omega
  have hsucc : (i + 1) * len = i * len + len := Nat.succ_mul i len
  have hafter := hfirst i
  rw [PacketDesc.piece]
  by_cases hf : i = d.firstidx
  · subst hf
    rw [hbegin, if_pos rfl, if_pos rfl, ← hstart]
    by_cases hl : d.firstidx = d.lastidx
    · rw [← hl] at hstop hroom
      have hnext : s (d.firstidx + 1) = P + n := by
        simp only [s]
        rw [if_neg (by omega), if_neg (by omega)]
      rw [if_pos hl, hnext,
        ← @map_byteAt len d.firstidx list d.firstoffset d.lastlen (by omega)]
      congr 2
      omega
    · have hnext : s (d.firstidx + 1) = (d.firstidx + 1) * len := by
        simp only [s]
        rw [if_neg (by omega), if_pos (by omega)]
      rw [if_neg hl, hnext,
        ← @map_byteAt len d.firstidx list d.firstoffset (len - d.firstoffset) (by omega)]
      congr 2
      omega
  · have hhere : s i = i * len + 0 := by
      simp only [s]
      rw [if_neg (by omega), if_pos hile]
      omega
    rw [hhere, if_neg hf, if_neg hf]
    by_cases hl : i = d.lastidx
    · have hnext : s (i + 1) = P + n := by
        simp only [s]
        rw [if_neg (by omega), if_neg (by omega)]
      rw [← hl] at hstop hroom
      rw [if_pos hl, hnext, ← @map_byteAt len i list 0 d.lastlen (by omega)]
      congr 2
      omega
    · have hnext : s (i + 1) = (i + 1) * len := by
        simp only [s]
        rw [if_neg (by omega), if_pos (by omega)]
      rw [if_neg hl, hnext, ← @map_byteAt len i list 0 len (by omega)]
      congr 2
      omega

theorem PacketDesc.length_bytes (d : PacketDesc) (list : List Word) (len : ℕ) :
    (d.bytes list len).length = d.datasz len := by
  rw [PacketDesc.bytes, List.length_flatMap, PacketDesc.datasz]
  simp only [PacketDesc.piece, length_span]

theorem PacketDesc.Covers.datasz_eq {d : PacketDesc} (h : d.Covers len P n) : d.datasz len = n := by
  rw [← d.length_bytes [], h.bytes_eq]
  simp

end Gasnet.Vis

/-! `gasnete_packetize_addrlist`: both lists of an indexed transfer cut into packets. -/
namespace Gasnet.Vis

/-- `sizeof(void *)`. -/
def metadatasz : ℕ := 8

/-- The remote list and the limit, in bytes; with `sharedpacket` data and metadata travel
together. -/
structure Remote where
  count : ℕ
  len : ℕ
  maxpayload : ℕ
  sharedpacket : Bool
  deriving DecidableEq, Repr

/-- Where the next packet starts. -/
structure Cursor where
  idx : ℕ
  offset : ℕ
  deriving DecidableEq, Repr

/-- The variables at the label `rend`. -/
structure Rend where
  ridx : ℕ
  roffset : ℕ
  rdatasz : ℕ
  packetdata : ℕ
  done : Bool
  deriving DecidableEq, Repr

namespace Remote

variable (p : Remote)

/-- What an entry with so much data takes off `packetremain`. -/
def cost (rdatasz : ℕ) : ℕ :=
  if p.sharedpacket then metadatasz + rdatasz else max metadatasz rdatasz

/-- `runit`. -/
def runit : ℕ := p.cost p.len

/-- The trailing partial entry. -/
def trailing (ridx packetremain packetdata rdatasz : ℕ) : Rend :=
  if packetremain > metadatasz then
    let rdatasz := if p.sharedpacket then packetremain - metadatasz else packetremain
    ⟨ridx, rdatasz, rdatasz, packetdata + rdatasz, false⟩
  else ⟨ridx, 0, rdatasz, packetdata, false⟩

/-- The whole entries, and what comes after them. -/
def whole (ridx packetremain packetdata rdatasz : ℕ) : Rend :=
  if packetremain ≥ p.runit then
    let numunits := packetremain / p.runit
    let numunits := if ridx + numunits > p.count then p.count - ridx else numunits
    if ridx + numunits = p.count then
      ⟨ridx + numunits, 0, p.len, packetdata + p.len * numunits, true⟩
    else
      p.trailing (ridx + numunits) (packetremain - p.runit * numunits)
        (packetdata + p.len * numunits) p.len
  else p.trailing ridx packetremain packetdata rdatasz

/-- From the initial partial entry to `rend`. -/
def fill (r : Cursor) : Rend :=
  if r.offset > 0 then
    let rdatasz := p.len - r.offset
    -- `packetremain < 0`
    if p.maxpayload < p.cost rdatasz then
      let rdatasz := rdatasz - (p.cost rdatasz - p.maxpayload)
      ⟨r.idx, r.offset + rdatasz, rdatasz, rdatasz, false⟩
    else if r.idx + 1 = p.count then ⟨r.idx + 1, 0, rdatasz, rdatasz, true⟩
    else p.whole (r.idx + 1) (p.maxpayload - p.cost rdatasz) rdatasz rdatasz
  else p.whole r.idx p.maxpayload 0 0

/-- The entry of the remote table. -/
def desc (r : Cursor) : PacketDesc :=
  let e := p.fill r
  ⟨r.idx, if e.roffset = 0 then e.ridx - 1 else e.ridx, r.offset, e.rdatasz⟩

/-- `ptsz`; nothing where the division traps. Unsigned, as the code computes it. -/
def ptsz : Option ℕ :=
  if p.runit ≤ p.maxpayload then some (p.count / (p.maxpayload / p.runit) + 1)
  else
    let divisor := (p.maxpayload + 2 ^ 64 - 2 * metadatasz) % 2 ^ 64
    if divisor = 0 then none else some (p.len * p.count / divisor + 1)

end Remote

/-- The variables of the local half. -/
structure Lend where
  lidx : ℕ
  loffset : ℕ
  ldatasz : ℕ
  packetdata : ℕ
  deriving DecidableEq, Repr

section Local

variable (localcount locallen : ℕ)

/-- The initial partial entry. -/
def Cursor.lfirst (l : Cursor) (packetdata : ℕ) : Lend :=
  if l.offset > 0 then
    let ldatasz := locallen - l.offset
    -- `packetdata < 0`: of the entry what is left of the packet
    if packetdata < ldatasz then ⟨l.idx, l.offset + packetdata, packetdata, 0⟩
    else ⟨l.idx + 1, 0, ldatasz, packetdata - ldatasz⟩
  else ⟨l.idx, l.offset, 0, packetdata⟩

/-- The whole entries. -/
def Lend.whole (e : Lend) : Lend :=
  if e.packetdata ≥ locallen then
    let numunits := e.packetdata / locallen
    let numunits := if e.lidx + numunits > localcount then localcount - e.lidx else numunits
    ⟨e.lidx + numunits, e.loffset, locallen, e.packetdata - locallen * numunits⟩
  else e

/-- The trailing partial entry. -/
def Lend.trailing (e : Lend) : Lend :=
  if e.packetdata > 0 then ⟨e.lidx, e.packetdata, e.packetdata, e.packetdata⟩ else e

/-- The variables after a packet with so much data. -/
def Cursor.lfill (l : Cursor) (packetdata : ℕ) : Lend :=
  ((l.lfirst locallen packetdata).whole localcount locallen).trailing

/-- The entry of the local table. -/
def Cursor.ldesc (l : Cursor) (packetdata : ℕ) : PacketDesc :=
  let e := l.lfill localcount locallen packetdata
  ⟨if l.idx = localcount then l.idx - 1 else l.idx,
    if e.loffset = 0 then e.lidx - 1 else e.lidx, l.offset, e.ldatasz⟩

end Local

/-- The loop: the two tables, unless the fuel runs out. -/
def packetizeLoop (p : Remote) (localcount locallen : ℕ) :
    (fuel : ℕ) → (r l : Cursor) → Option (List (PacketDesc × PacketDesc))
  | 0, _, _ => none
  | fuel + 1, r, l =>
    let e := p.fill r
    let e' := l.lfill localcount locallen e.packetdata
    let pt := (p.desc r, l.ldesc localcount locallen e.packetdata)
    if e.done then some [pt]
    else
      (packetizeLoop p localcount locallen fuel ⟨e.ridx, e.roffset⟩ ⟨e'.lidx, e'.loffset⟩).map
        (pt :: ·)

/-- The tables as allocated and what is written to them. -/
structure Packets where
  ptsz : ℕ
  remotept : List PacketDesc
  localpt : List PacketDesc
  deriving DecidableEq, Repr

/-- `gasnete_packetize_addrlist`. -/
def packetizeAddrlist (fuel : ℕ) (p : Remote) (localcount locallen : ℕ) : Option Packets := do
  let ptsz ← p.ptsz
  let pt ← packetizeLoop p localcount locallen fuel ⟨0, 0⟩ ⟨0, 0⟩
  return ⟨ptsz, pt.map Prod.fst, pt.map Prod.snd⟩

end Gasnet.Vis
