import Gasnet.Pmi.Schedule

/-! The collectives of the PMI spawner are right exactly if their keys and values, each with its
terminator, fit the buffers. -/
namespace Gasnet.Pmi
open FencedStore

variable {size : Nat} {conf : Conf} {calls : List (Call size)} {r : Fin size} {n j k a : Nat}
  {p : Piece size} {c : Call size} {v : Byte} {ws : List (Nat × Block)}

/-- All rounds of a call are among the first `n`. -/
def Finished (conf : Conf) (calls : List (Call size)) (j n : Nat) : Prop :=
  ∀ t p k, (schedule conf calls)[t]? = some (p, k) → p.idx = j → t < n

/-- The loops end, nothing aborts or writes outside its buffer, each get finds what was put for it,
each rank can come to the end, and a call that is over has left the right data. -/
structure Correct (conf : Conf) (calls : List (Call size)) : Prop where
  ends : ∀ c ∈ calls, 0 < c.len → 0 < conf.maxValBytes
  keys : ∀ y ∈ schedule conf calls, ∀ r,
    (∀ x ∈ y.1.call.pattern.puts r, keyFault conf y.1.stem y.2 x.1 = none) ∧
      ∀ g ∈ y.1.call.pattern.gets r, keyFault conf y.1.stem y.2 g.xs = none
  values : ∀ y ∈ schedule conf calls, ∀ r, ∀ x ∈ y.1.call.pattern.puts r,
    valueFault conf (y.1.cut x.2) = none
  fresh : ∀ s, Reachable (Step (prog conf calls) (schedule conf calls).length)
    (initial (prog conf calls)) s → ∀ r n K Ks log, s.party r = ⟨n, .getting (K :: Ks), log⟩ →
    ∃ q v, (K, v) ∈ (prog conf calls q n).puts ∧ s.visible K = some v
  progress : ∀ s, Reachable (Step (prog conf calls) (schedule conf calls).length)
    (initial (prog conf calls)) s → Done (schedule conf calls).length s ∨
    ∃ a t, Step (prog conf calls) (schedule conf calls).length s a t
  result : ∀ s, Reachable (Step (prog conf calls) (schedule conf calls).length)
    (initial (prog conf calls)) s → ∀ r n puts log, s.party r = ⟨n, .putting puts, log⟩ →
    ∀ j c, calls[j]? = some c → Finished conf calls j n → ∀ mem,
    ∃ mem', destination conf calls j c r n log mem = some mem' ∧
      ∀ b < c.blocks, ∀ i < c.len, mem' (b * c.len + i) = (c.want r b).getD i 0

/-- Every key and every value leaves room for its terminator, and a value for four bytes. -/
structure Fits (conf : Conf) (calls : List (Call size)) : Prop where
  group : ∀ c ∈ calls, 0 < c.len → 5 ≤ conf.maxValLen
  keys : ∀ y ∈ schedule conf calls, ∀ r, ∀ x ∈ y.1.call.pattern.puts r,
    (key conf.dupKeys y.1.stem y.2 x.1).length < conf.maxKeyLen
  values : conf.api ≠ .pmix → ∀ y ∈ schedule conf calls, ∀ r, ∀ x ∈ y.1.call.pattern.puts r,
    (encode conf.api (y.1.cut x.2)).length < conf.maxValLen

theorem splice_of_covers {mem : Nat → Byte} {w : Nat × Block} (h : w.1 ≤ a ∧ a < w.1 + w.2.length) :
    splice mem w.1 w.2 a = w.2.getD (a - w.1) 0 := if_pos h

theorem splice_of_not {mem : Nat → Byte} {w : Nat × Block}
    (h : ¬ (w.1 ≤ a ∧ a < w.1 + w.2.length)) : splice mem w.1 w.2 a = mem a := if_neg h

/-- Copies that agree on a byte keep it. -/
theorem splices_keep
    (hall : ∀ w ∈ ws, w.1 ≤ a ∧ a < w.1 + w.2.length → w.2.getD (a - w.1) 0 = v)
    {mem : Nat → Byte} (hm : mem a = v) :
    ws.foldl (fun mem w => splice mem w.1 w.2) mem a = v := by
  induction ws generalizing mem with
  | nil => exact hm
  | cons w ws ih =>
    refine ih (fun w' hw' => hall w' (List.mem_cons_of_mem _ hw')) ?_
    by_cases hc : w.1 ≤ a ∧ a < w.1 + w.2.length
    · exact (splice_of_covers hc).trans (hall w List.mem_cons_self hc)
    · exact (splice_of_not hc).trans hm

/-- If one of them copies it, it is there. -/
theorem splices
    (hall : ∀ w ∈ ws, w.1 ≤ a ∧ a < w.1 + w.2.length → w.2.getD (a - w.1) 0 = v)
    (hone : ∃ w ∈ ws, w.1 ≤ a ∧ a < w.1 + w.2.length) (mem : Nat → Byte) :
    ws.foldl (fun mem w => splice mem w.1 w.2) mem a = v := by
  induction ws generalizing mem with
  | nil => simp at hone
  | cons w ws ih =>
    have htail := fun w' hw' => hall w' (List.mem_cons_of_mem _ hw')
    obtain ⟨w', hw', hc⟩ := hone
    rcases List.mem_cons.1 hw' with rfl | hw'
    · refine splices_keep htail ?_
      exact (splice_of_covers hc).trans (hall w' List.mem_cons_self hc)
    · exact ih htail ⟨w', hw', hc⟩ _

theorem mapM_map {α β γ : Type} {l : List α} {f : β → Option γ} {h : α → β} {g : α → γ}
    (hf : ∀ y ∈ l, f (h y) = some (g y)) : (l.map h).mapM f = some (l.map g) := by
  induction l with
  | nil => rfl
  | cons y l ih =>
    rw [List.map_cons, List.mapM_cons, hf y List.mem_cons_self,
      ih fun z hz => hf z (List.mem_cons_of_mem _ hz)]
    rfl

/-- The size of a chunk, and where it ends. -/
theorem piece_bounds (hb : 0 < conf.maxValBytes) (h : p ∈ pieces conf calls) :
    0 < p.n ∧ p.n ≤ conf.maxValBytes ∧ p.off + p.n ≤ p.call.len := by
  have := mem_chunks hb (mem_pieces.1 h).2
  omega

/-- A call that is cut has bytes. -/
theorem len_pos (h : p ∈ pieces conf calls) : 0 < p.call.len := by
  have hm := (mem_pieces.1 h).2
  rw [Nat.pos_iff_ne_zero]
  intro hz
  rw [hz] at hm
  simp [chunks] at hm

theorem bytes_pos (hends : ∀ c ∈ calls, 0 < c.len → 0 < conf.maxValBytes)
    (h : p ∈ pieces conf calls) : 0 < conf.maxValBytes :=
  hends _ (List.mem_of_getElem? (mem_pieces.1 h).1) (len_pos h)

theorem length_cut_le (p : Piece size) (x : Block) : (p.cut x).length ≤ p.n := by
  unfold Piece.cut
  rw [List.length_take]
  exact Nat.min_le_left ..

theorem length_cut {x : Block} (h : p.off + p.n ≤ x.length) : (p.cut x).length = p.n := by
  unfold Piece.cut
  rw [List.length_take, List.length_drop]
  omega

theorem getD_cut {x : Block} {i : Nat} (h : p.off ≤ i) (hi : i < p.off + p.n) :
    (p.cut x).getD (i - p.off) 0 = x.getD i 0 := by
  unfold Piece.cut
  rw [List.getD_eq_getElem?_getD, List.getD_eq_getElem?_getD, List.getElem?_take_of_lt (by omega),
    List.getElem?_drop, show p.off + (i - p.off) = i by omega]

/-- A value that fits comes back. -/
theorem getValue_putValue {x : Block}
    (h : conf.api ≠ .pmix → (encode conf.api x).length < conf.maxValLen) :
    getValue conf x.length (putValue conf x) = some x := by
  unfold getValue putValue
  by_cases hp : conf.api = .pmix
  · have hid : BitVec.ofNat 8 ∘ BitVec.toNat = id := by
      funext b
      exact BitVec.eq_of_toNat_eq (by simp)
    simp [hp, hid]
  · simp only [if_neg hp, if_pos (h hp)]
    exact decode_encode x

/-- A value that fits is put without a fault, and only such a one. -/
theorem valueFault_eq_none {x : Block} (hx : x.length ≤ conf.maxValBytes) :
    valueFault conf x = none ↔
      (conf.api ≠ .pmix → (encode conf.api x).length < conf.maxValLen) := by
  unfold valueFault
  by_cases hp : conf.api = .pmix
  · simp [hp]
  have hroom : 5 * ((x.length + 3) / 4) ≤ conf.maxValLen := by
    unfold Conf.maxValBytes at hx
    omega
  rw [if_neg hp, if_neg (by omega), ← touched_le_iff hroom]
  split
  · simp [hp]
    omega
  · simp
    omega

theorem keyFault_eq_none {stem : Stem} {xs : List Nat} :
    keyFault conf stem k xs = none ↔ (key conf.dupKeys stem k xs).length < conf.maxKeyLen := by
  unfold keyFault
  split
  · rename_i h
    have hlen : (key conf.dupKeys stem k xs).length = 1 := by simp [key, h, dotted]
    rw [hlen]
    split <;> simp <;> omega
  · split <;> simp <;> omega

/-- What the gets of a call store is known when its keys have been put as wanted. -/
theorem received_eq (hfit : Fits conf calls) (j : Nat) (r : Fin size) (n : Nat) :
    received conf calls j r n
      (expected (prog conf calls) (theValue (prog conf calls)) r n) =
      some (((reads conf calls r n).filter fun y => y.2.1.1.idx = j).map fun y =>
        (y.2.2.block * y.2.1.1.call.len + y.2.1.1.off,
          y.2.1.1.cut (y.2.1.1.call.want r y.2.2.block))) := by
  rw [received, expected_eq]
  conv_lhs => rw [← List.map_id (reads conf calls r n), List.map_map, List.zip_map']
  rw [List.filter_map]
  refine mapM_map fun y hy => ?_
  obtain ⟨-, hs, hg⟩ := mem_reads.1 (List.mem_filter.1 hy).1
  have hmem := List.mem_of_getElem? hs
  have hpiece := mem_pieces_of_schedule hmem
  have hb := bytes_pos (fun c hc hl => ?_) hpiece
  · obtain ⟨-, -, hle⟩ := piece_bounds hb hpiece
    have hserve := y.2.1.1.call.serves
    have hlen := hserve.length r _ ((hserve.inside r).1 _ hg)
    have hval := getValue_putValue fun hapi =>
      hfit.values hapi _ hmem _ _ (hserve.put r _ hg)
    rw [length_cut (hlen ▸ hle)] at hval
    simp [hval]
  · have := hfit.group c hc hl
    unfold Conf.maxValBytes
    omega

theorem block_eq {b b' len x i : Nat} (hx : x < len) (hi : i < len)
    (h : b * len + i = b' * len + x) : b = b' ∧ i = x := by
  have hlen : 0 < len := by omega
  have hb : b = b' := by
    have h1 : (b * len + i) / len = b := by
      rw [Nat.mul_comm, Nat.mul_add_div hlen, Nat.div_eq_of_lt hi, Nat.add_zero]
    have h2 : (b' * len + x) / len = b' := by
      rw [Nat.mul_comm, Nat.mul_add_div hlen, Nat.div_eq_of_lt hx, Nat.add_zero]
    rw [← h1, ← h2, h]
  subst hb
  exact ⟨rfl, by omega⟩

/-- All bytes of the destination are as wanted when the call is over. -/
theorem destination_eq (hfit : Fits conf calls) (hc : calls[j]? = some c)
    (hfin : Finished conf calls j n) (mem : Nat → Byte) :
    ∃ mem', destination conf calls j c r n
        (expected (prog conf calls) (theValue (prog conf calls)) r n) mem = some mem' ∧
      ∀ b < c.blocks, ∀ i < c.len, mem' (b * c.len + i) = (c.want r b).getD i 0 := by
  rw [destination, received_eq hfit]
  refine ⟨_, rfl, fun b hb i hi => ?_⟩
  have hserve := c.serves
  have hbytes : 0 < conf.maxValBytes := by
    have := hfit.group c (List.mem_of_getElem? hc) (by omega)
    unfold Conf.maxValBytes
    omega
  apply splices
  · intro w hw hcov
    rcases List.mem_append.1 hw with hw | hw
    · obtain ⟨⟨t, ⟨p, k⟩, g⟩, hy, rfl⟩ := List.mem_map.1 hw
      obtain ⟨hy, hidx⟩ := List.mem_filter.1 hy
      obtain ⟨-, hs, hg⟩ := mem_reads.1 hy
      have hpiece := mem_pieces_of_schedule (List.mem_of_getElem? hs)
      have hcall : p.call = c := by
        have := (mem_pieces.1 hpiece).1
        rw [of_decide_eq_true hidx, hc] at this
        exact (Option.some.inj this).symm
      obtain ⟨-, -, hle⟩ := piece_bounds hbytes hpiece
      subst hcall
      have hlen := hserve.length r _ ((hserve.inside r).1 _ hg)
      dsimp only at hcov hle ⊢
      rw [length_cut (hlen ▸ hle)] at hcov
      have hoff : b * p.call.len + i - (g.block * p.call.len + p.off) =
          b * p.call.len + i - g.block * p.call.len - p.off := by omega
      obtain ⟨hbb, hii⟩ := @block_eq b g.block p.call.len
        (b * p.call.len + i - g.block * p.call.len) i (by omega) hi (by omega)
      rw [hoff, ← hii, hbb]
      exact getD_cut (by omega) (by omega)
    · obtain ⟨x, hx, rfl⟩ := List.mem_map.1 hw
      have hlen := hserve.length r _ ((hserve.inside r).2 _ hx)
      have hlenc : c.pattern.len = c.len := rfl
      rw [hserve.own r x hx] at hcov ⊢
      dsimp only at hcov ⊢
      obtain ⟨hbb, hii⟩ := @block_eq b x.1 c.len (b * c.len + i - x.1 * c.len) i
        (by omega) hi (by omega)
      rw [← hii, hbb]
  · rcases hserve.all r b hb with ⟨x, hx, hxb⟩ | ⟨g, hg, hgb⟩
    · have hlen := hserve.length r b hb
      have hlenc : c.pattern.len = c.len := rfl
      refine ⟨(x.1 * c.len, x.2), List.mem_append_right _ (List.mem_map_of_mem hx), ?_⟩
      rw [hserve.own r x hx, hxb]
      dsimp only
      omega
    · -- the chunk that has the byte has been got
      obtain ⟨y, hy, hle, hlt⟩ := exists_chunk hbytes (Nat.le_refl c.len) (Nat.zero_le i)
        (by omega : i < 0 + c.len)
      have hpiece : (⟨j, c, y.1, y.2⟩ : Piece size) ∈ pieces conf calls := mem_pieces.2 ⟨hc, hy⟩
      obtain ⟨-, -, hle'⟩ := piece_bounds hbytes hpiece
      rw [← map_fst_number (fun _ => 0) (pieces conf calls)] at hpiece
      obtain ⟨z, hz, hzp⟩ := List.mem_map.1 hpiece
      obtain ⟨t, ht⟩ := List.getElem?_of_mem hz
      have hread : (t, z, g) ∈ reads conf calls r n :=
        mem_reads.2 ⟨hfin t z.1 z.2 ht (by rw [hzp]), ht, by rw [hzp]; exact hg⟩
      refine ⟨_, List.mem_append_left _ (List.mem_map.2 ⟨(t, z, g),
        List.mem_filter.2 ⟨hread, by simp [hzp]⟩, rfl⟩), ?_⟩
      have hlen := hserve.length r b hb
      have hlenc : c.pattern.len = c.len := rfl
      rw [hzp, hgb]
      dsimp only at hle' ⊢
      rw [length_cut (by dsimp only; omega)]
      dsimp only
      omega

/-- A key that is got is one that is put. -/
theorem Fits.get_key (hfit : Fits conf calls) {y : Piece size × Nat}
    (hy : y ∈ schedule conf calls) {g : Get size} (hg : g ∈ y.1.call.pattern.gets r) :
    (key conf.dupKeys y.1.stem y.2 g.xs).length < conf.maxKeyLen :=
  hfit.keys y hy g.src _ (y.1.call.serves.put r g hg)

theorem correct_of_fits (hfit : Fits conf calls) : Correct conf calls where
  ends c hc hl := by
    have := hfit.group c hc hl
    unfold Conf.maxValBytes
    omega
  keys y hy r := ⟨fun x hx => keyFault_eq_none.2 (hfit.keys y hy r x hx),
    fun g hg => keyFault_eq_none.2 (hfit.get_key hy hg)⟩
  values y hy r x hx := by
    have hpiece := mem_pieces_of_schedule hy
    have hb := bytes_pos (fun c hc hl => ?_) hpiece
    · obtain ⟨-, hle, -⟩ := piece_bounds hb hpiece
      rw [valueFault_eq_none ((length_cut_le _ _).trans hle)]
      exact fun hapi => hfit.values hapi y hy r x hx
    · have := hfit.group c hc hl
      unfold Conf.maxValBytes
      omega
  fresh s hs r n K Ks log hr := by
    have hd := disciplined conf calls
    have hinv := inv_reachable hd hs
    have hpl := hinv.placed r
    simp only [hr, Placed] at hpl
    obtain ⟨q, hq⟩ := hd.put (hpl.2.1 List.mem_cons_self)
    exact ⟨q, _, hq, get_value hd hs hr⟩
  progress s hs := progress (disciplined conf calls) hs
  result s hs r n puts log hr j c hc hfin mem := by
    rw [log_of_done (disciplined conf calls) hs hr]
    exact destination_eq hfit hc hfin mem

theorem fits_of_correct (h : Correct conf calls) : Fits conf calls where
  group c hc hl := by
    have := h.ends c hc hl
    unfold Conf.maxValBytes at this
    omega
  keys y hy r x hx := keyFault_eq_none.1 ((h.keys y hy r).1 x hx)
  values hapi y hy r x hx := by
    have hpiece := mem_pieces_of_schedule hy
    obtain ⟨-, hle, -⟩ := piece_bounds (bytes_pos h.ends hpiece) hpiece
    exact (valueFault_eq_none ((length_cut_le _ _).trans hle)).1 (h.values y hy r x hx) hapi

theorem correct_iff_fits (conf : Conf) (calls : List (Call size)) :
    Correct conf calls ↔ Fits conf calls :=
  ⟨fits_of_correct, correct_of_fits⟩

local instance two_neZero : NeZero 2 := ⟨by decide⟩

/-- Four bytes from rank 0 of two. -/
def fourBytes : Call 2 := .broadcast 4 0 [1, 2, 3, 4] rfl

/-- When values may have five characters, those of four bytes leave no room for the terminator. -/
theorem not_correct_five : ¬ Correct ⟨.pmi1, true, 64, 5⟩ [fourBytes] := by
  intro h
  have hmem : ((⟨0, fourBytes, 0, 4⟩ : Piece 2), 0) ∈
      schedule ⟨.pmi1, true, 64, 5⟩ [fourBytes] := List.mem_of_getElem? (i := 0) rfl
  have hlt := (fits_of_correct h).values (by decide) _ hmem 0 ([], [1, 2, 3, 4]) List.mem_cons_self
  exact absurd hlt (by decide)

end Gasnet.Pmi

/-! The collectives of the spawner where PMI has an all-gather of its own, which returns the data
of the ranks in an order of its choice. -/
namespace Gasnet.Pmi

variable {size : Nat} {order : List (Fin size)} {len i : Nat} {src : Fin size → Block}
  {r root : Fin size}

/-- `PMI_Allgather`. The order is found by an all-gather of the ranks themselves. -/
def allgather (order : List (Fin size)) (src : Fin size → Block) : Block := order.flatMap src

/-- Record `i` of what an all-gather returned. -/
def record (order : List (Fin size)) (len : Nat) (src : Fin size → Block) (i : Nat) : Block :=
  ((allgather order src).drop (i * len)).take len

/-- `bootstrapExchange` with `PMI_Allgather`. -/
def exchangeAllgather (order : List (Fin size)) (len : Nat) (src : Fin size → Block)
    (mem : Nat → Byte) : Nat → Byte :=
  (order.zipIdx.map fun x => (x.1.val * len, record order len src x.2)).foldl
    (fun mem w => splice mem w.1 w.2) mem

/-- `bootstrapSubsetBroadcast` with `PMI_Allgather` or `PMI_Allgather_on_smp`, whose order has the
ranks of one host only. -/
def subsetAllgather (order : List (Fin size)) (len : Nat) (src : Fin size → Block)
    (root : Fin size) : Option Block :=
  (order.idxOf? root).map (record order len src)

theorem record_eq (h : ∀ r, (src r).length = len) (hi : order[i]? = some r) :
    record order len src i = src r := by
  unfold record allgather
  induction order generalizing i with
  | nil => simp at hi
  | cons q order ih =>
    rw [List.flatMap_cons]
    cases i with
    | zero =>
      obtain rfl : q = r := by simpa using hi
      rw [Nat.zero_mul, List.drop_zero, ← h q, List.take_left]
    | succ i =>
      rw [← ih hi, List.drop_append, h q, Nat.succ_mul, Nat.add_sub_cancel,
        List.drop_of_length_le (by rw [h q]; omega), List.nil_append]

/-- The records are put in rank order. -/
theorem exchangeAllgather_eq (h : ∀ r, (src r).length = len) (hall : ∀ r, r ∈ order)
    (mem : Nat → Byte) (r : Fin size) (hi : i < len) :
    exchangeAllgather order len src mem (r * len + i) = (src r).getD i 0 := by
  unfold exchangeAllgather
  apply splices
  · intro w hw hcov
    obtain ⟨x, hx, rfl⟩ := List.mem_map.1 hw
    rw [record_eq h (List.mem_zipIdx_iff_getElem?.1 hx)] at hcov ⊢
    dsimp only at hcov ⊢
    rw [h] at hcov
    obtain ⟨hb, hii⟩ := @block_eq r.val x.1.val len (r.val * len + i - x.1.val * len) i
      (by omega) hi (by omega)
    rw [← hii, Fin.ext hb]
  · obtain ⟨k, hk⟩ := List.getElem?_of_mem (hall r)
    refine ⟨_, List.mem_map.2 ⟨(r, k), List.mem_zipIdx_iff_getElem?.2 hk, rfl⟩, ?_⟩
    dsimp only
    rw [record_eq h hk, h]
    omega

theorem subsetAllgather_eq (h : ∀ r, (src r).length = len) (hroot : root ∈ order) :
    subsetAllgather order len src root = some (src root) := by
  unfold subsetAllgather
  cases hk : order.idxOf? root with
  | none => exact absurd (List.idxOf?_eq_none_iff.1 hk) (not_not_intro hroot)
  | some k =>
    have hget : order[k]? = some root := by
      rw [List.idxOf?, List.findIdx?_eq_some_iff_getElem] at hk
      obtain ⟨hlt, heq, -⟩ := hk
      rw [List.getElem?_eq_getElem hlt, beq_iff_eq.1 heq]
    rw [Option.map_some, record_eq h hget]

/-- Over the key-value store the collectives are right exactly if what they put fits the buffers;
with an all-gather they are right whatever its order. -/
theorem collectives_correct (size : Nat) (conf : Conf) (calls : List (Call size)) :
    (Correct conf calls ↔ Fits conf calls) ∧
    ∀ (len : Nat) (order : List (Fin size)) (src : Fin size → Block),
      (∀ r, (src r).length = len) →
      ((∀ r, r ∈ order) → ∀ (mem : Nat → Byte) (r : Fin size), ∀ i < len,
        exchangeAllgather order len src mem (r * len + i) = (src r).getD i 0) ∧
      ∀ root ∈ order, subsetAllgather order len src root = some (src root) :=
  ⟨correct_iff_fits conf calls, fun _ _ _ h =>
    ⟨fun hall mem r _ hi => exchangeAllgather_eq h hall mem r hi, fun _ => subsetAllgather_eq h⟩⟩

/-- Two ranks that are gathered in the other order. -/
theorem collectives_correct_two :
    (Correct ⟨.pmi1, true, 64, 6⟩ [fourBytes] ↔ Fits ⟨.pmi1, true, 64, 6⟩ [fourBytes]) ∧
    subsetAllgather [1, 0] 1 (fun r : Fin 2 => if r = 0 then [7] else [8]) 0 = some [7] :=
  ⟨(collectives_correct 2 _ _).1,
    ((collectives_correct 2 ⟨.pmi1, true, 64, 6⟩ [fourBytes]).2 1 [1, 0]
      (fun r => if r = 0 then [7] else [8]) (by decide)).2 0 (by decide)⟩

end Gasnet.Pmi
