import Gasnet.Vis.Helpers

/-! Packing a window of a list into a buffer and unpacking it: `gasnete_memvec_pack`,
`gasnete_addrlist_pack` and their counterparts. -/
namespace Gasnet.Vis

variable {β : Type*} {mem mem' : Word → β} {l : List Memvec} {v : Memvec} {cs cs' : List Copy}
  {buf : Word} {n : ℕ}

/-- The arguments of `copy` in the macros: of the packed and of the unpacked side. -/
structure Copy where
  packed : Word
  unpacked : Word
  sz : ℕ
  deriving DecidableEq, Repr

/-- `(size_t)-1`. -/
def sizeMax : ℕ := 2 ^ 64 - 1

/-- The middle entries of `_GASNETE_MEMVEC_PACK`; the end of the packed data comes with them. -/
def memvecMiddle (noempty : Bool) (ploc : Word) : List Memvec → List Copy × Word
  | [] => ([], ploc)
  | v :: l =>
    if noempty ∨ v.len ≠ 0 then
      let (cs, ploc') := memvecMiddle noempty (ploc + v.len) l
      (⟨ploc, v.addr, v.len⟩ :: cs, ploc')
    else memvecMiddle noempty ploc l

/-- `_GASNETE_MEMVEC_PACK`: the copies and the pointer returned. -/
def memvecPack (noempty : Bool) (list : List Memvec) (buf : Word) (firstOffset lastLen : ℕ) :
    List Copy × Word :=
  match list with
  | [] => ([], buf)
  | v :: l =>
    let last := l.getLastD v
    let lastLen := if lastLen = sizeMax then last.len else lastLen
    if l = [] then ([⟨buf, v.addr + firstOffset, lastLen⟩], buf + lastLen)
    else
      let firstlen := v.len - firstOffset
      let (first, ploc) :=
        if noempty ∨ firstlen ≠ 0 then ([⟨buf, v.addr + firstOffset, firstlen⟩], buf + firstlen)
        else ([], buf)
      let (middle, ploc) := memvecMiddle noempty ploc l.dropLast
      if noempty ∨ lastLen ≠ 0 then
        (first ++ middle ++ [⟨ploc, last.addr, lastLen⟩], ploc + lastLen)
      else (first ++ middle, ploc)

/-- The middle entries of `_GASNETE_ADDRLIST_PACK`. -/
def addrlistMiddle (len : ℕ) (ploc : Word) : List Word → List Copy × Word
  | [] => ([], ploc)
  | a :: l =>
    let (cs, ploc') := addrlistMiddle len (ploc + len) l
    (⟨ploc, a, len⟩ :: cs, ploc')

/-- `_GASNETE_ADDRLIST_PACK`. -/
def addrlistPack (list : List Word) (len : ℕ) (buf : Word) (firstOffset lastLen : ℕ) :
    List Copy × Word :=
  match list with
  | [] => ([], buf)
  | a :: l =>
    let lastLen := if lastLen = sizeMax then len else lastLen
    if l = [] then ([⟨buf, a + firstOffset, lastLen⟩], buf + lastLen)
    else
      let firstlen := len - firstOffset
      let (middle, ploc) := addrlistMiddle len (buf + firstlen) l.dropLast
      (⟨buf, a + firstOffset, firstlen⟩ :: middle ++ [⟨ploc, l.getLastD a, lastLen⟩],
        ploc + lastLen)

/-- `memcpy`. -/
def memcpy (mem : Word → β) (dst src : Word) (n : ℕ) : Word → β :=
  store mem ((span dst n).zip ((span src n).map mem))

/-- The copies with `_GASNETE_PACK_HELPER`. -/
def pack (mem : Word → β) (cs : List Copy) : Word → β :=
  cs.foldl (fun mem c => memcpy mem c.packed c.unpacked c.sz) mem

/-- The copies with `_GASNETE_UNPACK_HELPER`. -/
def unpack (mem : Word → β) (cs : List Copy) : Word → β :=
  cs.foldl (fun mem c => memcpy mem c.unpacked c.packed c.sz) mem

/-- The length of the last entry that a call stands for. -/
def lastOf (list : List Memvec) (lastLen : ℕ) : ℕ :=
  if lastLen = sizeMax then (list.getLastD ⟨0, 0⟩).len else lastLen

/-- The offset is inside the first entry and the length inside the last one; where they are one
entry, it holds both. -/
def InRange : List Memvec → (firstOffset lastLen : ℕ) → Prop
  | [], _, _ => False
  | [v], firstOffset, lastLen => firstOffset + lastLen ≤ v.len
  | v :: l, firstOffset, lastLen => firstOffset ≤ v.len ∧ lastLen ≤ (l.getLastD v).len

instance : ∀ list firstOffset lastLen, Decidable (InRange list firstOffset lastLen)
  | [], _, _ => inferInstanceAs (Decidable False)
  | [v], firstOffset, lastLen => inferInstanceAs (Decidable (firstOffset + lastLen ≤ v.len))
  | _ :: _ :: _, _, _ => inferInstanceAs (Decidable (_ ∧ _))

/-- How many bytes the window has. -/
def windowLen (list : List Memvec) (firstOffset lastLen : ℕ) : ℕ :=
  if list.length = 1 then lastLen else (flat list.dropLast).length - firstOffset + lastLen

/-- The window: so many bytes of the list, from the offset on. -/
def window (list : List Memvec) (firstOffset lastLen : ℕ) : List Word :=
  ((flat list).drop firstOffset).take (windowLen list firstOffset lastLen)

/-- The addresses of the copies in the buffer and in the list. -/
def packedSide (cs : List Copy) : List Word := cs.flatMap fun c => span c.packed c.sz

def unpackedSide (cs : List Copy) : List Word := cs.flatMap fun c => span c.unpacked c.sz

/-- The copies are between a window and the buffer, and the pointer returned is the end. -/
structure Carries (c : List Copy × Word) (buf : Word) (W : List Word) : Prop where
  stop : c.2 = buf + (W.length : Word)
  packed : packedSide c.1 = span buf W.length
  unpacked : unpackedSide c.1 = W

/-- What packing a window and unpacking it do. -/
structure Exact (β : Type*) (c : List Copy × Word) (buf : Word) (W : List Word) : Prop where
  stop : c.2 = buf + (W.length : Word)
  packFrame : ∀ (mem : Word → β) a, a ∉ span buf W.length → pack mem c.1 a = mem a
  packReads : ∀ mem mem' : Word → β, (∀ a ∈ W, mem a = mem' a) →
    ∀ b ∈ span buf W.length, pack mem c.1 b = pack mem' c.1 b
  unpackFrame : ∀ (mem : Word → β) a, a ∉ W → unpack mem c.1 a = mem a
  unpackReads : ∀ mem mem' : Word → β, (∀ b ∈ span buf W.length, mem b = mem' b) →
    ∀ a ∈ W, unpack mem c.1 a = unpack mem' c.1 a
  restores : ∀ mem mem' : Word → β, (∀ b ∈ span buf W.length, mem' b = pack mem c.1 b) →
    ∀ a ∈ W, unpack mem' c.1 a = mem a

section Copies

theorem memvecMiddle_carries (noempty : Bool) (ploc : Word) (l : List Memvec) :
    Carries (memvecMiddle noempty ploc l) ploc (flat l) := by
  induction l generalizing ploc with
  | nil => exact ⟨by simp [memvecMiddle], rfl, rfl⟩
  | cons v l ih =>
    rw [memvecMiddle]
    split
    · obtain ⟨hstop, hpacked, hunpacked⟩ := ih (ploc + v.len)
      rcases hm : memvecMiddle noempty (ploc + v.len) l with ⟨cs, ploc'⟩
      rw [hm] at hstop hpacked hunpacked
      refine ⟨?_, ?_, ?_⟩
      · simp only at hstop ⊢
        rw [hstop, flat_cons, List.length_append, length_bytes, Nat.cast_add, add_assoc]
      · rw [flat_cons, List.length_append, length_bytes, span_add, ← hpacked]
        rfl
      · rw [flat_cons, ← hunpacked]
        rfl
    · rename_i h
      have hz : v.len = 0 := by
        rw [not_or, not_not] at h
        exact h.2
      rw [flat_cons, bytes_of_len hz]
      exact ih ploc

theorem packedSide_append (cs cs' : List Copy) :
    packedSide (cs ++ cs') = packedSide cs ++ packedSide cs' := List.flatMap_append

theorem unpackedSide_append (cs cs' : List Copy) :
    unpackedSide (cs ++ cs') = unpackedSide cs ++ unpackedSide cs' := List.flatMap_append

/-- One copy, left out if it is empty and that is allowed. -/
theorem single_carries (noempty : Bool) (ploc a : Word) (n : ℕ) :
    Carries (if noempty ∨ n ≠ 0 then ([⟨ploc, a, n⟩], ploc + n) else ([], ploc)) ploc (span a n) := by
  split
  · exact ⟨by rw [length_span], by simp [packedSide], by simp [unpackedSide]⟩
  · rename_i h
    have hz : n = 0 := by
      rw [not_or, not_not] at h
      exact h.2
    rw [hz]
    exact ⟨by simp [span], rfl, rfl⟩

/-- Copies one after the other. -/
theorem carries_append {c c' : List Copy × Word} {W W' : List Word} (h : Carries c buf W)
    (h' : Carries c' c.2 W') : Carries (c.1 ++ c'.1, c'.2) buf (W ++ W') := by
  refine ⟨?_, ?_, ?_⟩
  · simp only
    rw [h'.stop, h.stop, List.length_append, Nat.cast_add, add_assoc]
  · rw [packedSide_append, h.packed, h'.packed, h.stop, List.length_append, span_add]
  · rw [unpackedSide_append, h.unpacked, h'.unpacked]

/-- The window of two entries or more. -/
theorem window_eq {off last : ℕ} (v w : Memvec) (m : List Memvec) (hoff : off ≤ v.len)
    (hlast : last ≤ w.len) :
    window (v :: (m ++ [w])) off last =
      span (v.addr + off) (v.len - off) ++ flat m ++ span w.addr last := by
  have hdrop : (v :: (m ++ [w])).dropLast = v :: m := by
    rw [← List.cons_append, List.dropLast_concat]
  have hlen : windowLen (v :: (m ++ [w])) off last =
      (span (v.addr + (off : Word)) (v.len - off) ++ flat m).length + last := by
    rw [windowLen, if_neg (by simp), hdrop]
    simp only [flat_cons, List.length_append, length_bytes, length_span]
    omega
  have hflat : (flat (v :: (m ++ [w]))).drop off =
      span (v.addr + off) (v.len - off) ++ flat m ++ w.bytes := by
    rw [drop_flat hoff, flat, List.flatMap_append, List.append_assoc]
    congr 1
    simp [flat]
  rw [window, hlen, hflat, List.take_length_add_append, take_bytes hlast]

theorem memvecPack_carries (noempty : Bool) (list : List Memvec) (buf : Word) (off lastLen : ℕ)
    (h : InRange list off (lastOf list lastLen)) :
    Carries (memvecPack noempty list buf off lastLen) buf
      (window list off (lastOf list lastLen)) := by
  rcases list with _ | ⟨v, l⟩
  · exact h.elim
  · have hlast : (if lastLen = sizeMax then (l.getLastD v).len else lastLen) =
        lastOf (v :: l) lastLen := by rw [lastOf, List.getLastD_cons]
    rw [memvecPack]
    simp only [hlast]
    generalize lastOf (v :: l) lastLen = last at h ⊢
    rcases List.eq_nil_or_concat l with rfl | ⟨m, w, rfl⟩
    · have hfit : off + last ≤ v.len := h
      have hwin : window [v] off last = span (v.addr + off) last := by
        rw [window, windowLen, if_pos List.length_singleton, drop_flat (by omega), flat_nil, List.append_nil]
        exact take_bytes (by simp only [Memvec.advance]; omega)
      rw [if_pos rfl, hwin]
      exact ⟨by rw [length_span], by simp [packedSide], by simp [unpackedSide]⟩
    · rw [List.concat_eq_append] at h ⊢
      have hrange : off ≤ v.len ∧ last ≤ w.len := by
        cases m with
        | nil => exact h
        | cons x m =>
          have hlast : ((x :: m ++ [w]).getLastD v) = w := List.getLastD_concat
          have hlast' := h.2
          rw [hlast] at hlast'
          exact ⟨h.1, hlast'⟩
      have hmiddle := fun ploc => memvecMiddle_carries noempty ploc m
      rw [if_neg (by simp), List.getLastD_concat, List.dropLast_concat,
        window_eq v w m hrange.1 hrange.2]
      have hfirst := single_carries noempty buf (v.addr + off) (v.len - off)
      rcases hf : (if noempty ∨ v.len - off ≠ 0 then
        ([⟨buf, v.addr + off, v.len - off⟩], buf + ((v.len - off : ℕ) : Word)) else
        (([], buf) : List Copy × Word)) with ⟨first, ploc⟩
      rw [hf] at hfirst
      have hboth := carries_append hfirst (hmiddle ploc)
      rcases hm : memvecMiddle noempty ploc m with ⟨middle, ploc'⟩
      rw [hm] at hboth
      have hall := carries_append hboth (single_carries noempty ploc' w.addr last)
      simp only [hf, hm]
      split
      · rename_i hs
        rwa [if_pos hs] at hall
      · rename_i hs
        rwa [if_neg hs, List.append_nil] at hall

end Copies

section Effects

variable {W : List Word} {c : List Copy × Word}

theorem store_append (mem : Word → β) (ws ws' : List (Word × β)) :
    store mem (ws ++ ws') = store (store mem ws) ws' := List.foldl_append

/-- The copies as stores of what the other side held at first. -/
theorem pack_eq (hdisj : ∀ a ∈ unpackedSide cs, a ∉ packedSide cs) (mem : Word → β) :
    pack mem cs = store mem ((packedSide cs).zip ((unpackedSide cs).map mem)) := by
  induction cs generalizing mem with
  | nil => rfl
  | cons c cs ih =>
    have hp : packedSide (c :: cs) = span c.packed c.sz ++ packedSide cs := rfl
    have hu : unpackedSide (c :: cs) = span c.unpacked c.sz ++ unpackedSide cs := rfl
    rw [hp, hu] at hdisj ⊢
    have hkeep : (unpackedSide cs).map (memcpy mem c.packed c.unpacked c.sz) =
        (unpackedSide cs).map mem := by
      refine List.map_congr_left fun a ha => store_of_notMem ?_ mem
      intro hin
      rw [List.map_fst_zip (by simp)] at hin
      exact hdisj a (List.mem_append_right _ ha) (List.mem_append_left _ hin)
    have hrest := ih (fun a ha hin => hdisj a (List.mem_append_right _ ha)
      (List.mem_append_right _ hin)) (memcpy mem c.packed c.unpacked c.sz)
    rw [List.map_append, List.zip_append (by simp), store_append]
    rw [hkeep] at hrest
    exact hrest

def Copy.swap (c : Copy) : Copy := ⟨c.unpacked, c.packed, c.sz⟩

theorem unpack_swap (mem : Word → β) (cs : List Copy) :
    unpack mem cs = pack mem (cs.map Copy.swap) := by
  rw [pack, List.foldl_map]
  rfl

theorem unpack_eq (hdisj : ∀ a ∈ packedSide cs, a ∉ unpackedSide cs) (mem : Word → β) :
    unpack mem cs = store mem ((unpackedSide cs).zip ((packedSide cs).map mem)) := by
  have hp : packedSide (cs.map Copy.swap) = unpackedSide cs := List.flatMap_map ..
  have hu : unpackedSide (cs.map Copy.swap) = packedSide cs := List.flatMap_map ..
  rw [unpack_swap, pack_eq (by rwa [hp, hu]), hp, hu]

/-- Stores of the values a memory has. -/
theorem store_map (f mem : Word → β) {a : Word} (ha : a ∈ W) :
    store mem (W.zip (W.map f)) a = f a := by
  induction W generalizing mem with
  | nil => cases ha
  | cons b W ih =>
    rw [List.map_cons, List.zip_cons_cons, store_cons]
    by_cases hW : a ∈ W
    · exact ih _ hW
    · have hab : a = b := by simpa [hW] using ha
      rw [store_of_notMem (by rwa [List.map_fst_zip (by simp)]), hab]
      exact Function.update_self ..

theorem span_nodup (h : n ≤ 2 ^ 64) (a : Word) : (span a n).Nodup := by
  induction n generalizing a with
  | zero => exact .nil
  | succ n ih =>
    rw [span, List.nodup_cons]
    refine ⟨fun hin => ?_, ih (by omega) _⟩
    obtain ⟨k, hk, heq⟩ := mem_span.1 hin
    have hz : (1 : Word) + (k : Word) = 0 := by
      rw [add_assoc] at heq
      exact add_left_cancel (a := a) (by rw [← heq, add_zero])
    have hnat := congrArg BitVec.toNat hz
    rw [BitVec.toNat_add, BitVec.natCast_eq_ofNat, BitVec.toNat_ofNat] at hnat
    simp at hnat
    omega

theorem carries_exact (h : Carries c buf W) (hdisj : ∀ a ∈ W, a ∉ span buf W.length)
    (hsize : W.length ≤ 2 ^ 64) : Exact β c buf W := by
  obtain ⟨hstop, hpacked, hunpacked⟩ := h
  have hpack (mem : Word → β) : pack mem c.1 = store mem ((span buf W.length).zip (W.map mem)) := by
    rw [pack_eq (by rwa [hpacked, hunpacked]), hpacked, hunpacked]
  have hunpack (mem : Word → β) :
      unpack mem c.1 = store mem (W.zip ((span buf W.length).map mem)) := by
    rw [unpack_eq (by rw [hpacked, hunpacked]; exact fun a ha hW => hdisj a hW ha), hpacked,
      hunpacked]
  have hfst (mem : Word → β) : ((span buf W.length).zip (W.map mem)).map Prod.fst =
      span buf W.length := List.map_fst_zip (by simp)
  have hfst' (mem : Word → β) : (W.zip ((span buf W.length).map mem)).map Prod.fst = W :=
    List.map_fst_zip (by simp)
  refine ⟨hstop, ?_, ?_, ?_, ?_, ?_⟩
  · intro mem a ha
    rw [hpack, store_of_notMem (by rwa [hfst])]
  · intro mem mem' hagree b hb
    have hmap : W.map mem = W.map mem' := List.map_congr_left hagree
    have hb' : b ∈ ((span buf W.length).zip (W.map mem')).map Prod.fst := by rwa [hfst]
    obtain ⟨v, hv⟩ := store_value hb'
    rw [hpack, hpack, hmap, hv, hv]
  · intro mem a ha
    rw [hunpack, store_of_notMem (by rwa [hfst'])]
  · intro mem mem' hagree a ha
    have hmap : (span buf W.length).map mem = (span buf W.length).map mem' :=
      List.map_congr_left hagree
    have ha' : a ∈ (W.zip ((span buf W.length).map mem')).map Prod.fst := by rwa [hfst']
    obtain ⟨v, hv⟩ := store_value ha'
    rw [hunpack, hunpack, hmap, hv, hv]
  · intro mem mem' hbuf a ha
    have hpacked : (span buf W.length).map mem' = W.map mem := by
      refine List.ext_getElem (by simp) fun i hi hi' => ?_
      rw [List.length_map] at hi hi'
      have hmem : ((span buf W.length).get ⟨i, hi⟩, mem (W.get ⟨i, hi'⟩)) ∈
          (span buf W.length).zip (W.map mem) := by
        refine List.mem_iff_getElem.2 ⟨i, by simp [hi'], by simp⟩
      have hstored := store_of_mem hmem (by rw [hfst]; exact span_nodup hsize buf) mem
      rw [List.getElem_map, List.getElem_map, hbuf _ (List.getElem_mem _), hpack]
      exact hstored
    rw [hunpack, hpacked, store_map mem mem' ha]

end Effects

/-- The copies of an address list are those of its elements as pieces. -/
theorem addrlistMiddle_eq (len : ℕ) (ploc : Word) (l : List Word) :
    addrlistMiddle len ploc l = memvecMiddle true ploc (pieces len l) := by
  induction l generalizing ploc with
  | nil => rfl
  | cons a l ih =>
    have hcons : pieces len (a :: l) = ⟨a, len⟩ :: pieces len l := rfl
    rw [addrlistMiddle, ih, hcons, memvecMiddle, if_pos (.inl rfl)]

theorem addrlistPack_eq (list : List Word) (len : ℕ) (buf : Word) (off lastLen : ℕ) :
    addrlistPack list len buf off lastLen =
      memvecPack true (pieces len list) buf off lastLen := by
  rcases list with _ | ⟨a, l⟩
  · rfl
  · rcases List.eq_nil_or_concat l with rfl | ⟨m, b, rfl⟩
    · rfl
    · rw [List.concat_eq_append, pieces, List.map_cons, List.map_append, List.map_singleton,
        addrlistPack, memvecPack]
      simp only [List.getLastD_concat, List.dropLast_concat, addrlistMiddle_eq, pieces, true_or,
        if_true]
      have hne {A : Type} (m : List A) (b : A) : m ++ [b] ≠ [] := by simp
      rw [if_neg (hne _ _), if_neg (hne _ _)]
      rfl

/-- Packing a window and unpacking it again: for a list of pieces, also if empty ones are not
allowed, and for an address list. -/
theorem pack_unpack {β : Type*} :
    (∀ (noempty : Bool) (list : List Memvec) (buf : Word) (off lastLen : ℕ),
      InRange list off (lastOf list lastLen) →
      (∀ a ∈ window list off (lastOf list lastLen),
        a ∉ span buf (window list off (lastOf list lastLen)).length) →
      (window list off (lastOf list lastLen)).length ≤ 2 ^ 64 →
      Exact β (memvecPack noempty list buf off lastLen) buf
        (window list off (lastOf list lastLen))) ∧
      ∀ (list : List Word) (len : ℕ) (buf : Word) (off lastLen : ℕ),
        InRange (pieces len list) off (lastOf (pieces len list) lastLen) →
        (∀ a ∈ window (pieces len list) off (lastOf (pieces len list) lastLen),
          a ∉ span buf (window (pieces len list) off (lastOf (pieces len list) lastLen)).length) →
        (window (pieces len list) off (lastOf (pieces len list) lastLen)).length ≤ 2 ^ 64 →
        Exact β (addrlistPack list len buf off lastLen) buf
          (window (pieces len list) off (lastOf (pieces len list) lastLen)) := by
  refine ⟨fun noempty list buf off lastLen h hdisj hsize => ?_,
    fun list len buf off lastLen h hdisj hsize => ?_⟩
  · exact carries_exact (memvecPack_carries noempty list buf off lastLen h) hdisj hsize
  · rw [addrlistPack_eq]
    exact carries_exact (memvecPack_carries true _ buf off lastLen h) hdisj hsize

theorem pack_unpack_two :
    Exact ℕ (memvecPack false [⟨100, 4⟩, ⟨200, 0⟩, ⟨300, 4⟩] 1000 1 2) 1000
        [101, 102, 103, 300, 301] ∧
      Exact ℕ (addrlistPack [100] 8 1000 2 3) 1000 [102, 103, 104] := by
  have hmany : ∀ a ∈ ([101, 102, 103, 300, 301] : List Word), a ∉ span 1000 5 := by simp [span]
  have hone : ∀ a ∈ ([102, 103, 104] : List Word), a ∉ span 1000 3 := by simp [span]
  exact ⟨pack_unpack.1 false [⟨100, 4⟩, ⟨200, 0⟩, ⟨300, 4⟩] 1000 1 2 (by decide) hmany
      (show 5 ≤ 2 ^ 64 by decide),
    pack_unpack.2 [100] 8 1000 2 3 (by decide) hone (show 3 ≤ 2 ^ 64 by decide)⟩

end Gasnet.Vis
