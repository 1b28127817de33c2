import Gasnet.Coll.BootstrapOrder

/-! The exchanges of `gasneti_bootstrapExchange_am` are right while the step fits the four bits
that it has in a message, which takes 2^16 neighborhoods. -/
namespace Gasnet.Coll

open Exchange Rotation Dissemination

variable {nodes size : Nat} {m : Nodemap nodes size} {j : BootstrapJob nodes size}
  {r : Fin size} {k t step seq : Nat} {phase : Bool}

/-- The arguments that are packed do not overlap. -/
theorem toNat_packArg (hstep : step < 16) (hseq : seq < 2 ^ 27) :
    (packArg phase step seq).toNat = 2 ^ 5 * seq + (2 ^ 1 * step + phase.toNat) := by
  have hphase : phase.toNat < 2 ^ 1 := Bool.toNat_lt phase
  have hbit : (if phase then 1#32 else 0#32).toNat = phase.toNat := by cases phase <;> rfl
  have hstep' : (BitVec.ofNat 32 step <<< 1).toNat = 2 ^ 1 * step := by
    rw [BitVec.toNat_shiftLeft, BitVec.toNat_ofNat, Nat.mod_eq_of_lt (by omega),
      Nat.shiftLeft_eq, Nat.mod_eq_of_lt (by omega), Nat.mul_comm]
  have hseq' : (BitVec.ofNat 32 seq <<< 5).toNat = 2 ^ 5 * seq := by
    rw [BitVec.toNat_shiftLeft, BitVec.toNat_ofNat, Nat.mod_eq_of_lt (by omega),
      Nat.shiftLeft_eq, Nat.mod_eq_of_lt (by omega), Nat.mul_comm]
  rw [packArg, BitVec.toNat_or, BitVec.toNat_or, hbit, hstep', hseq', Nat.or_comm phase.toNat,
    ← Nat.two_pow_add_eq_or_of_lt hphase, Nat.or_comm, ← Nat.two_pow_add_eq_or_of_lt (by omega)]

/-- The handler finds what was packed, if it has room. -/
theorem unpackArg_packArg (hstep : step < 16) (hseq : seq < 2 ^ 27) :
    unpackArg (packArg phase step seq) = (phase, step, seq) := by
  have hval := @toNat_packArg step seq phase hstep hseq
  have hphase := Bool.toNat_lt phase
  have hbit : (packArg phase step seq &&& 1#32 == 1#32) = phase := by
    have hone : (packArg phase step seq &&& 1#32).toNat = phase.toNat := by
      rw [BitVec.toNat_and, hval]
      show _ &&& 1 = _
      rw [Nat.and_one_is_mod]
      omega
    have heq : packArg phase step seq &&& 1#32 = if phase then 1#32 else 0#32 := by
      apply BitVec.eq_of_toNat_eq
      rw [hone]
      cases phase <;> rfl
    rw [heq]
    cases phase <;> rfl
  have hmid : ((packArg phase step seq >>> 1) &&& 0x0f#32).toNat = step := by
    rw [BitVec.toNat_and, BitVec.toNat_ushiftRight, hval, Nat.shiftRight_eq_div_pow]
    show _ &&& (2 ^ 4 - 1) = _
    rw [Nat.and_two_pow_sub_one_eq_mod]
    omega
  have htop : (packArg phase step seq >>> 5).toNat = seq := by
    rw [BitVec.toNat_ushiftRight, hval, Nat.shiftRight_eq_div_pow]
    omega
  rw [unpackArg, hbit, hmid, htop]

/-- There is no more room than that. -/
theorem unpackArg_lt (a : BitVec 32) : (unpackArg a).2.1 < 16 ∧ (unpackArg a).2.2 < 2 ^ 27 := by
  constructor
  · show (_ &&& 0x0f#32).toNat < 16
    rw [BitVec.toNat_and]
    exact lt_of_le_of_lt Nat.and_le_right (by decide)
  · show (a >>> 5).toNat < 2 ^ 27
    rw [BitVec.toNat_ushiftRight, Nat.shiftRight_eq_div_pow]
    have := a.isLt
    omega

theorem resultLen_spec {i : Nat} (hi : 0 < i) : size ≤ i * 2 ^ resultLen size i ∧
    ∀ t < resultLen size i, i * 2 ^ t < size := by
  fun_induction resultLen size i with
  | case1 i h ih =>
    obtain ⟨hle, hlt⟩ := ih (by omega)
    refine ⟨by rw [Nat.add_comm, Nat.pow_succ']; rwa [Nat.mul_assoc] at hle, fun t ht => ?_⟩
    cases t with
    | zero => simpa using h.2
    | succ t =>
      have := hlt t (by omega)
      rwa [Nat.pow_succ', ← Nat.mul_assoc]
  | case2 i h => exact ⟨by simp; omega, fun t ht => absurd ht (Nat.not_lt_zero t)⟩

theorem le_two_pow_numPeers (size : Nat) : size ≤ 2 ^ numPeers size := by
  have := (@resultLen_spec size 1 Nat.one_pos).1
  rwa [Nat.one_mul] at this

theorem two_pow_lt_of_lt_numPeers (ht : t < numPeers size) : 2 ^ t < size := by
  simpa using (@resultLen_spec size 1 Nat.one_pos).2 t ht

/-- There are more steps just when one is left that does not reach around. -/
theorem lt_numPeers_iff : t < numPeers size ↔ 2 ^ t < size := by
  refine ⟨two_pow_lt_of_lt_numPeers, fun h => ?_⟩
  by_contra hge
  have hpow := Nat.pow_le_pow_right (n := 2) (by omega) (Nat.not_lt.mp hge)
  have := le_two_pow_numPeers size
  omega

theorem dissemPeer_eq (ht : 2 ^ t ≤ size) (r : Fin size) :
    dissemPeer r t = ahead r (size - 2 ^ t) := by
  apply Fin.ext
  show (if 2 ^ t ≤ r.val then r.val - 2 ^ t else r.val + (size - 2 ^ t)) % size =
    (r.val + (size - 2 ^ t)) % size
  split
  · have : r.val + (size - 2 ^ t) = (r.val - 2 ^ t) + size := by omega
    rw [this, Nat.add_mod_right]
  · rfl

theorem dissemPeer_fwd (ht : 2 ^ t ≤ size) : dissemPeer (fwd r t) t = r := by
  rw [dissemPeer_eq ht, fwd_eq_ahead, ahead_ahead, Nat.add_comm, ← ahead_ahead]
  exact ahead_sub ht

/-- The number of messages, and where each of them starts. -/
theorem length_pieces {limit nbytes sent : Nat} (hl : 0 < limit) (hs : sent < nbytes) :
    (pieces limit nbytes sent).length = (nbytes - sent + limit - 1) / limit := by
  fun_induction pieces limit nbytes sent with
  | case1 sent h ih =>
    have hmin : min (nbytes - sent) limit = limit := by omega
    have hsplit : nbytes - sent + limit - 1 = (nbytes - (sent + limit) + limit - 1) + limit := by
      omega
    rw [List.length_cons, ih h.1, hmin, hsplit, Nat.add_div_right _ hl]
  | case2 sent h =>
    have hone : nbytes - sent + limit - 1 = (nbytes - sent - 1) + limit := by omega
    rw [hone, Nat.add_div_right _ hl, Nat.div_eq_of_lt (by omega)]
    rfl

theorem pieces_start {limit nbytes sent i : Nat} {x : Nat × Nat}
    (hx : (pieces limit nbytes sent)[i]? = some x) : x.1 = sent + i * limit := by
  fun_induction pieces limit nbytes sent generalizing i with
  | case1 sent h ih =>
    cases i with
    | zero =>
      obtain rfl := Option.some.inj hx
      simp
    | succ i =>
      rw [List.getElem?_cons_succ] at hx
      rw [ih hx, Nat.succ_mul]
      omega
  | case2 sent h =>
    cases i with
    | zero =>
      obtain rfl := Option.some.inj hx
      simp
    | succ i => simp at hx

theorem extent_mul (w : Fin size → Nat) (r : Fin size) (len n : Nat) :
    Rotation.extent (fun q => len * w q) r n = len * Rotation.extent w r n := by
  simp only [Rotation.extent, Finset.mul_sum]

namespace Nodemap

/-- `gasneti_am_exchange_rcvd` is what a leader knows before a step. -/
theorem rcvd_eq (m : Nodemap nodes size) (r : Fin size) (ht : t ≤ numPeers size) :
    m.rcvd r t = known m.width r t := by
  unfold rcvd
  split
  · rename_i h
    rw [h, known_all (le_two_pow_numPeers size), m.sum_width]
  · have := two_pow_lt_of_lt_numPeers (by omega : t < numPeers size)
    rw [known, Nat.min_eq_left this.le]

/-- `gasneti_am_exchange_send` is what is sent in a step. -/
theorem send_eq (m : Nodemap nodes size) (r : Fin size) (ht : t < numPeers size) :
    m.send r t = share m.width r t := by
  have hlt := two_pow_lt_of_lt_numPeers ht
  unfold send share
  split
  · rename_i h
    have hle := le_two_pow_numPeers size
    rw [← h, Nat.pow_succ] at hle
    have hall := extent_add m.width r (size - 2 ^ t) (2 ^ t)
    rw [Nat.sub_add_cancel hlt.le, extent_all, m.sum_width] at hall
    rw [← h, Nat.add_sub_cancel, dissemPeer_eq hlt.le, Nat.min_eq_right (by omega)]
    omega
  · have hnext := two_pow_lt_of_lt_numPeers (by omega : t + 1 < numPeers size)
    rw [Nat.pow_succ] at hnext
    rw [Nat.min_eq_left (by omega)]

/-- Something is sent in every step. -/
theorem send_pos (m : Nodemap nodes size) (r : Fin size) (ht : t < numPeers size) :
    0 < m.send r t := by
  have hlt := two_pow_lt_of_lt_numPeers ht
  have hpow := Nat.two_pow_pos t
  have hone : Rotation.extent m.width r 1 ≤ share m.width r t := extent_mono (by omega)
  rw [extent_one] at hone
  rw [send_eq m r ht]
  exact lt_of_lt_of_le (m.width_pos r) hone

/-- A leader waits for what its last peer sends. -/
theorem rcvd_succ (m : Nodemap nodes size) (r : Fin size) (ht : t < numPeers size) :
    m.rcvd r (t + 1) = m.rcvd r t + m.send (fwd r t) t := by
  rw [rcvd_eq m r ht, rcvd_eq m r ht.le, send_eq m _ ht,
    known_add_share (two_pow_lt_of_lt_numPeers ht)]

end Nodemap

namespace BootstrapJob

/-- The data of an exchange, and how long it is for a process. -/
def src (j : BootstrapJob nodes size) (k : Nat) : Fin nodes → List UInt8 :=
  ((j.exchanges[k]?).map Prod.snd).getD fun _ => []

def len (j : BootstrapJob nodes size) (k : Nat) : Nat :=
  ((j.exchanges[k]?).map Prod.fst).getD 0

/-- What all processes are to get. -/
def expected (e : Nat × (Fin nodes → List UInt8)) : List UInt8 := (List.finRange nodes).flatMap e.2

def control (j : BootstrapJob nodes size) (k : Nat) (_ : Fin size) : Control where
  phase := parity k
  dests := (j.exchanges.take k).map expected

def planAt (j : BootstrapJob nodes size) (k : Nat) (r : Fin size) : Plan ExchangeArgs UInt8 :=
  j.amPlan r (parity k) (j.len k) (j.src k)

/-- What a leader puts in. -/
def contribution (j : BootstrapJob nodes size) (k : Nat) (r : Fin size) : List UInt8 :=
  (j.map.members r).flatMap (j.src k)

theorem exchange_eq (hk : k < j.exchanges.length) :
    j.exchanges[k]? = some (j.len k, j.src k) ∧ (j.len k, j.src k) ∈ j.exchanges := by
  have hget := List.getElem?_eq_getElem hk
  have heq : (j.len k, j.src k) = j.exchanges[k] := by
    rw [len, src, hget]
    rfl
  rw [heq]
  exact ⟨hget, List.getElem_mem hk⟩

theorem src_length (hk : k < j.exchanges.length) (i : Fin nodes) :
    (j.src k i).length = j.len k := (j.length_src _ (exchange_eq hk).2).2 i

theorem sizes_contribution (hk : k < j.exchanges.length) :
    sizes (j.contribution k) = fun r => j.len k * j.map.width r := by
  funext r
  exact Nodemap.flatMap_length (src_length hk)

theorem sum_contribution (hk : k < j.exchanges.length) :
    ∑ r, sizes (j.contribution k) r = j.len k * nodes := by
  rw [sizes_contribution hk, ← Finset.mul_sum, j.map.sum_width]

theorem known_contribution (hk : k < j.exchanges.length) (ht : t ≤ numPeers size) :
    known (sizes (j.contribution k)) r t = j.len k * j.map.rcvd r t := by
  rw [sizes_contribution hk, known, extent_mul, j.map.rcvd_eq r ht]
  rfl

theorem share_contribution (hk : k < j.exchanges.length) (ht : t < numPeers size) :
    share (sizes (j.contribution k)) r t = j.len k * j.map.send r t := by
  rw [sizes_contribution hk, share, extent_mul, j.map.send_eq r ht]
  rfl

/-- All in a leader's buffer, when the messages of an exchange are there. -/
theorem gather_contribution (j : BootstrapJob nodes size) (k : Nat) (r : Fin size) :
    gather (j.contribution k) r size = j.map.temp r (j.src k) := by
  rw [Nodemap.temp, Nodemap.order, List.flatMap_assoc]
  rfl

theorem next_control (hk : k < j.exchanges.length) :
    j.control (k + 1) r = j.next r (j.control k r) (gather (j.contribution k) r size) := by
  have hlen : ((j.exchanges.take k).map expected).length = k := by
    rw [List.length_map, List.length_take, Nat.min_eq_left hk.le]
  have htake : j.exchanges.take (k + 1) = j.exchanges.take k ++ [(j.len k, j.src k)] := by
    rw [List.take_add_one, (exchange_eq hk).1, Option.toList_some]
  simp only [control, next, hlen]
  rw [(exchange_eq hk).1, Option.map_some, Option.getD_some, gather_contribution,
    j.map.arrange_temp r (src_length hk), parity_succ, htake, List.map_append]
  rfl

/-- The room that the buffers and the arguments of the messages have. -/
structure Fits (j : BootstrapJob nodes size) : Prop where
  allocated : ∀ e ∈ j.exchanges, e.1 * nodes < 2 ^ 63
  neighborhoods : size ≤ 2 ^ 16
  offset : ∀ e ∈ j.exchanges, ∀ r step, step < numPeers size →
    e.1 * j.map.rcvd r step < 2 ^ 32
  seq : ∀ e ∈ j.exchanges, ∀ r step, step < numPeers size →
    e.1 * j.map.send r step ≤ j.chunk * 2 ^ 27

theorem Fits.step_lt (h : j.Fits) (ht : t < numPeers size) : t < 16 := by
  have := two_pow_lt_of_lt_numPeers ht
  by_contra hge
  have := Nat.pow_le_pow_right (n := 2) (by omega) (Nat.not_lt.mp hge)
  have := h.neighborhoods
  omega

/-- The number of messages of a step. -/
theorem count_frags (hk : k < j.exchanges.length) (ht : t < numPeers size) (r : Fin size) :
    ((j.planAt k r).frags t).length =
      (j.len k * j.map.send r t + j.chunk - 1) / j.chunk := by
  have hpos : 0 < j.len k * j.map.send r t :=
    Nat.mul_pos (j.length_src _ (exchange_eq hk).2).1 (j.map.send_pos r ht)
  show (((pieces _ _ 0).zipIdx).map _).length = _
  rw [List.length_map, List.length_zipIdx, length_pieces j.chunk_pos hpos, Nat.sub_zero]

theorem Fits.count_le (h : j.Fits) (hk : k < j.exchanges.length) (ht : t < numPeers size)
    (r : Fin size) : ((j.planAt k r).frags t).length ≤ 2 ^ 27 := by
  have := h.seq _ (exchange_eq hk).2 r t ht
  rw [count_frags hk ht]
  apply Nat.le_of_lt_succ
  apply Nat.div_lt_of_lt_mul
  have := j.chunk_pos
  dsimp only at *
  omega

theorem rotates (h : j.Fits) :
    Rotates j.program j.control j.planAt j.contribution j.exchanges.length := by
  constructor
  case steps => exact le_two_pow_numPeers size
  case steps_lt => exact fun t => two_pow_lt_of_lt_numPeers
  case peer => exact fun r t ht => dissemPeer_fwd (two_pow_lt_of_lt_numPeers ht).le
  case gain => exact fun _ => Nat.one_pos
  case ready => exact fun a e _ => decide_eq_true_iff
  case start => exact fun r => rfl
  case runs =>
    intro k r hk
    have hlen : (j.control k r).dests.length = k := by
      show ((j.exchanges.take k).map expected).length = k
      rw [List.length_map, List.length_take, Nat.min_eq_left hk.le]
    show (j.exchanges[(j.control k r).dests.length]?).map _ = _
    rw [hlen, (exchange_eq hk).1]
    rfl
  case last =>
    intro r
    show (j.exchanges[((j.exchanges.take _).map expected).length]?).map _ = _
    rw [List.length_map, List.take_length, List.getElem?_eq_none (Nat.le_refl _)]
    rfl
  case next => exact fun k r hk => next_control hk
  case size => exact fun k r hk => (sum_contribution hk).symm
  case alloc =>
    intro k hk
    rw [sum_contribution hk]
    exact decide_eq_true (h.allocated _ (exchange_eq hk).2)
  case own => exact fun k r _ => rfl
  case frags =>
    intro k r t hk ht
    refine ⟨j.chunk, j.chunk_pos, ?_⟩
    show (((pieces _ _ 0).zipIdx).map _).map _ = _
    rw [share_contribution hk ht, List.map_map]
    exact List.zipIdx_map_fst 0 _
  case landing =>
    intro k r t f hk ht hf
    have hlen := List.length_pos_of_mem hf
    obtain ⟨⟨x, i⟩, hx, rfl⟩ := List.mem_map.mp hf
    have hget := List.mk_mem_zipIdx_iff_getElem?.mp hx
    have hcount := h.count_le hk ht (fwd r t)
    have hi : i < ((j.planAt k (fwd r t)).frags t).length := by
      show i < (((pieces _ _ 0).zipIdx).map _).length
      rw [List.length_map, List.length_zipIdx]
      exact (List.getElem?_eq_some_iff.mp hget).1
    have hoff := h.offset _ (exchange_eq hk).2 r t ht
    have hpos := Nat.mul_le_mul_left (j.len k) (show 1 ≤ j.map.rcvd r t by
      rw [j.map.rcvd_eq r ht.le]
      have hmono : Rotation.extent j.map.width r 1 ≤ known j.map.width r t := extent_mono (by
        have := Nat.two_pow_pos t
        have := two_pow_lt_of_lt_numPeers ht
        omega)
      rw [extent_one] at hmono
      exact (j.map.width_pos r).trans_le hmono)
    dsimp only at hoff
    rw [sum_contribution hk, known_contribution hk ht.le]
    show j.amExchangeReqh r _ = _
    simp only [amExchangeReqh, unpackArg_packArg (h.step_lt ht) (lt_of_lt_of_le hi hcount)]
    rw [BitVec.toNat_ofNat, Nat.mod_eq_of_lt (by omega : j.len k < 2 ^ 32), Nat.mod_eq_of_lt hoff,
      pieces_start hget, Nat.zero_add]
  case expect =>
    intro k r t hk ht
    have hcount := h.count_le hk ht (fwd r t)
    have hsum : (((j.planAt k (fwd r t)).frags t).map fun f => j.program.gain f.length).sum =
        ((j.planAt k (fwd r t)).frags t).length := by
      show (((j.planAt k (fwd r t)).frags t).map fun _ => 1).sum = _
      simp
    rw [hsum]
    show (j.len k * (j.map.rcvd r (t + 1) - j.map.rcvd r t) + j.chunk - 1) / j.chunk % 2 ^ 32 = _
    rw [j.map.rcvd_succ r ht, Nat.add_sub_cancel_left, ← count_frags hk ht,
      Nat.mod_eq_of_lt (by omega)]

/-- The processes get the data of all in rank order, in every run and whatever order the messages
come in. Every run comes to an end, and it does so when all exchanges are done. A step ends with
its counter at what it waits for, and no message of it on the way. What is packed in a message is
found again. -/
structure Correct (j : BootstrapJob nodes size) : Prop where
  ends : ∃ bound, ∀ ls s, Run (Step j.program) (initial j.program) ls s → ls.length ≤ bound
  alive : ∀ s, Reachable (Step j.program) (initial j.program) s → s.aborted = false
  received : ∀ s, Reachable (Step j.program) (initial j.program) s → ∀ i,
    j.dests s i = (j.exchanges.take (j.dests s i).length).map expected
  goesOn : ∀ s, Reachable (Step j.program) (initial j.program) s →
    (∃ i, (j.dests s i).length ≠ j.exchanges.length) → ∃ a u, Step j.program s a u
  waits : ∀ s r u, Reachable (Step j.program) (initial j.program) s →
    Step j.program s (.pass r) u → ∃ P step n,
      j.plan r (s.rank r).control = some P ∧ (s.rank r).place = some (step, n) ∧
      (s.rank r).rcvd (s.rank r).phase step = P.expect step ∧
      ∀ m ∈ s.net, m.target = r → m.op = (s.rank r).results.length → m.step ≠ step
  recovered : ∀ e ∈ j.exchanges, ∀ r phase step seq, step < numPeers size →
    seq * j.chunk < e.1 * j.map.send r step →
    unpackArg (packArg phase step seq) = (phase, step, seq)

theorem correct (h : j.Fits) : j.Correct := by
  have hC := (rotates h).sound
  have hdests : ∀ s, Reachable (Step j.program) (initial j.program) s → ∀ r,
      (s.rank r).control.dests = (j.exchanges.take (s.rank r).op).map expected := by
    intro s hs r
    rw [((inv_reachable hC hs).onCourse r).control]
    rfl
  constructor
  case ends => exact ⟨_, fun ls s hrun => (course_runs hC hrun).2.2.2.1⟩
  case alive => exact fun s hs => (inv_reachable hC hs).alive
  case received =>
    intro s hs i
    have heq := hdests s hs (j.map.supernode i)
    have hlen := congrArg List.length heq
    rw [List.length_map, List.length_take] at hlen
    unfold dests
    rw [hlen, List.take_eq_take_min]
    rw [heq]
    simp
  case goesOn =>
    rintro s hs ⟨i, hi⟩
    refine (inv_reachable hC hs).enabled hC fun hdone => hi ?_
    have hop : (s.rank (j.map.supernode i)).op = j.exchanges.length := (hdone _).1
    rw [dests, hdests s hs, hop, List.take_length, List.length_map]
  case waits => exact fun s r u hs hstep => pass_exact hC hs hstep
  case recovered =>
    intro e he r phase step seq hstep hseq
    apply unpackArg_packArg (h.step_lt hstep)
    have := h.seq e he r step hstep
    by_contra hge
    have := Nat.mul_le_mul_right j.chunk (Nat.not_lt.mp hge)
    rw [Nat.mul_comm] at this
    omega

/-- More neighborhoods have a step that does not fit. -/
theorem size_le (h : j.Correct) (hne : j.exchanges ≠ []) : size ≤ 2 ^ 16 := by
  by_contra hbig
  obtain ⟨e, he⟩ := List.exists_mem_of_ne_nil _ hne
  have hstep : 16 < numPeers size := lt_numPeers_iff.mpr (Nat.not_le.mp hbig)
  let r : Fin size := ⟨0, by omega⟩
  have hsent : 0 * j.chunk < e.1 * j.map.send r 16 := by
    rw [Nat.zero_mul]
    exact Nat.mul_pos (j.length_src e he).1 (j.map.send_pos r hstep)
  have heq := h.recovered e he r false 16 0 hstep hsent
  have hlt := (unpackArg_lt (packArg false 16 0)).1
  rw [heq] at hlt
  exact absurd hlt (by decide)

/-- The same for a message that has more of them before it than it can number. -/
theorem send_le (h : j.Correct) {e : Nat × (Fin nodes → List UInt8)} (he : e ∈ j.exchanges)
    (r : Fin size) (ht : t < numPeers size) : e.1 * j.map.send r t ≤ j.chunk * 2 ^ 27 := by
  by_contra hbig
  rw [Nat.mul_comm j.chunk] at hbig
  have heq := h.recovered e he r false t (2 ^ 27) ht (Nat.not_le.mp hbig)
  have hlt := (unpackArg_lt (packArg false t (2 ^ 27))).2
  rw [heq] at hlt
  exact Nat.lt_irrefl _ hlt

/-- The exchanges are right in all runs when what they send fits the messages, and a job with more
than `2 ^ 16` neighborhoods has no exchange that is. -/
theorem bootstrapExchange : (j.Fits → j.Correct) ∧ (j.Correct → j.exchanges ≠ [] →
    size ≤ 2 ^ 16 ∧ ∀ e ∈ j.exchanges, ∀ r t, t < numPeers size →
      e.1 * j.map.send r t ≤ j.chunk * 2 ^ 27) :=
  ⟨correct, fun h hne => ⟨size_le h hne, fun _ he r _ ht => send_le h he r ht⟩⟩

local instance two_neZero : NeZero 2 := ⟨by decide⟩

/-- Three processes, of which the first and the last are neighbors. -/
def twoNeighborhoods : BootstrapJob 3 2 where
  map :=
    { supernode := fun i => if i.val = 1 then 1 else 0
      nonempty := by decide
      first := by decide }
  chunk := 4096
  chunk_pos := by decide
  exchanges := [(2, fun i => [UInt8.ofNat i.val, 7]), (1, fun _ => [1])]
  length_src := by decide

/-- As many processes as neighborhoods. -/
def oneEach (n : Nat) : BootstrapJob n n where
  map :=
    { supernode := id
      nonempty := fun k => ⟨k, rfl⟩
      first := fun _ h => h }
  chunk := 4096
  chunk_pos := by decide
  exchanges := [(1, fun _ => [0])]
  length_src := by
    intro e he
    obtain rfl := List.mem_singleton.mp he
    exact ⟨Nat.one_pos, fun _ => rfl⟩

theorem numPeers_two : numPeers 2 = 1 := by
  have h₁ : 0 < numPeers 2 := lt_numPeers_iff.mpr (by decide)
  have h₂ : ¬1 < numPeers 2 := fun h => absurd (lt_numPeers_iff.mp h) (by decide)
  omega

theorem twoNeighborhoods_fits : twoNeighborhoods.Fits where
  allocated := by decide
  neighborhoods := by decide
  offset e he r step hstep := by
    rw [numPeers_two] at hstep
    obtain rfl : step = 0 := by omega
    have hle : twoNeighborhoods.map.rcvd r 0 ≤ 3 := by
      have hknown := twoNeighborhoods.map.rcvd_eq r (Nat.zero_le (numPeers 2))
      rw [hknown, known_zero]
      exact (List.length_filter_le _ _).trans (List.length_finRange).le
    have hlen : ∀ e ∈ twoNeighborhoods.exchanges, e.1 ≤ 2 := by decide
    have := Nat.mul_le_mul (hlen e he) hle
    omega
  seq e he r step hstep := by
    rw [numPeers_two] at hstep
    obtain rfl : step = 0 := by omega
    have hle : twoNeighborhoods.map.send r 0 ≤ 3 := by
      rw [twoNeighborhoods.map.send_eq r (by rw [numPeers_two]; decide)]
      show Rotation.extent _ _ 1 ≤ 3
      rw [extent_one]
      exact (List.length_filter_le _ _).trans (List.length_finRange).le
    have hlen : ∀ e ∈ twoNeighborhoods.exchanges, e.1 ≤ 2 := by decide
    have := Nat.mul_le_mul (hlen e he) hle
    show _ ≤ 4096 * 2 ^ 27
    omega

theorem bootstrapExchange_two : twoNeighborhoods.Correct :=
  bootstrapExchange.1 twoNeighborhoods_fits

/-- One neighborhood more than `2 ^ 16`, and the last step of the exchange is taken for the
first, with a message before it. -/
theorem oneEach_lost : 16 < numPeers 65537 ∧ unpackArg (packArg false 16 0) = (false, 0, 1) ∧
    ¬(oneEach 65537).Correct := by
  refine ⟨lt_numPeers_iff.mpr (by decide), by decide, fun h => ?_⟩
  exact absurd (size_le h (List.cons_ne_nil _ _)) (by decide)

end BootstrapJob

end Gasnet.Coll
