import Gasnet.Coll.BootstrapSumRanks
import Gasnet.Foundation.Run

/-! Every message of a sum is of the stage that its sender and its receiver are in, in every order of
messages. -/
namespace Gasnet.Coll.BootstrapSum

variable {size r k c : Nat} {operand : Nat → Nat → BitVec 64} {e : Nat → Nat} {x : Rank}
  {s t : State} {a : Action} {m : Message}

/-- The first stage of a message. -/
def Message.start (m : Message) : Nat := 6 * m.call + if m.up then 1 else 4

/-- A message is where and what it should be. -/
structure Message.Wired (size : Nat) (operand : Nat → Nat → BitVec 64) (m : Message) : Prop where
  ne_zero : m.child ≠ 0
  lt : m.child < size
  dst : m.dst = if m.up then parent m.child else m.child
  operand : m.operand =
    if m.up then subtotal size operand m.child m.call else total size operand m.call

/-- The processes and their messages. -/
structure Inv (size : Nat) (operand : Nat → Nat → BitVec 64) (e : Nat → Nat) (s : State) :
    Prop where
  fits : ∀ r < size, (s.rank r).Fits size operand e r
  flight : ∀ m ∈ s.flight, m.Wired size operand ∧ e m.child = m.start
  added : ∀ m ∈ s.added, m.Wired size operand ∧ e m.child = m.start + 1
  counted : ∀ m ∈ s.counted, m.Wired size operand ∧ m.start + 2 ≤ e m.child
  flight_nodup : (s.flight.map Message.child).Nodup
  added_nodup : (s.added.map Message.child).Nodup
  flight_of : ∀ c < size, c ≠ 0 → e c % 3 = 1 → ∃ m ∈ s.flight, m.child = c
  added_of : ∀ c < size, c ≠ 0 → e c % 3 = 2 → ∃ m ∈ s.added, m.child = c

theorem rank_setRank (s : State) (r q : Nat) (x : Rank) :
    (s.setRank r x).rank q = if q = r then x else s.rank q :=
  Function.update_apply ..

/-- A stage more between a process and its parent is the business of these two. -/
theorem fits_advance (hsize : size < 2 ^ 31) (h : ∀ q < size, (s.rank q).Fits size operand e q)
    {rank' : Nat → Rank}
    (hparent : (rank' (parent c)).Fits size operand (advance e c) (parent c))
    (hself : (rank' c).Fits size operand (advance e c) c)
    (hother : ∀ q, q ≠ parent c → q ≠ c → rank' q = s.rank q) :
    ∀ q < size, (rank' q).Fits size operand (advance e c) q := by
  intro q hq
  by_cases hqp : q = parent c
  · exact hqp ▸ hparent
  by_cases hqc : q = c
  · exact hqc ▸ hself
  rw [hother q hqp hqc]
  refine (h q hq).congr (advance_of_ne _ hqc) fun k hk => advance_of_ne _ fun he => hqp ?_
  rw [← he, (parent_child hsize hk hq).2]

/-- A process takes a step without a message. -/
theorem Inv.setRank (h : Inv size operand e s) (hx : x.Fits size operand e r) :
    Inv size operand e (s.setRank r x) := by
  refine { h with fits := fun q hq => ?_ }
  rw [rank_setRank]
  split
  · rename_i he
    exact he ▸ hx
  · exact h.fits q hq

/-- A message of one more stage is sent. -/
theorem Inv.post (h : Inv size operand e s) (hw : m.Wired size operand)
    (hstart : e m.child + 1 = m.start) {rank' : Nat → Rank}
    (hfits : ∀ q < size, (rank' q).Fits size operand (advance e m.child) q) :
    Inv size operand (advance e m.child) { s with rank := rank', flight := m :: s.flight } := by
  have hmod : e m.child % 3 = 0 := by
    unfold Message.start at hstart
    split at hstart <;> omega
  have hne : ∀ m' : Message, e m'.child % 3 ≠ 0 → m'.child ≠ m.child := fun m' hm' he =>
    hm' (he ▸ hmod)
  have hstart' : ∀ m' : Message, m'.start % 3 = 1 := fun m' => by
    unfold Message.start
    split <;> omega
  have hflight : ∀ m' ∈ s.flight, m'.child ≠ m.child := fun m' hm' => hne m' <| by
    have := (h.flight m' hm').2
    have := hstart' m'
    omega
  refine ⟨hfits, fun m' hm' => ?_, fun m' hm' => ?_, fun m' hm' => ?_, ?_, h.added_nodup,
    fun c hc hz he => ?_, fun c hc hz he => ?_⟩
  · rcases List.mem_cons.mp hm' with rfl | hm'
    · exact ⟨hw, by rw [advance_self, hstart]⟩
    · rw [advance_of_ne _ (hflight m' hm')]
      exact h.flight m' hm'
  · have hold := h.added m' hm'
    have := hstart' m'
    rw [advance_of_ne _ (hne m' (by omega))]
    exact hold
  · obtain ⟨hw', hle⟩ := h.counted m' hm'
    refine ⟨hw', ?_⟩
    by_cases he : m'.child = m.child
    · rw [he, advance_self]
      rw [he] at hle
      omega
    · rwa [advance_of_ne _ he]
  · refine List.nodup_cons.mpr ⟨fun hm' => ?_, h.flight_nodup⟩
    obtain ⟨m', hm', he⟩ := List.mem_map.mp hm'
    exact hflight m' hm' he
  · by_cases hcm : c = m.child
    · exact ⟨m, List.mem_cons_self, hcm.symm⟩
    · rw [advance_of_ne _ hcm] at he
      obtain ⟨m', hm', hc'⟩ := h.flight_of c hc hz he
      exact ⟨m', List.mem_cons_of_mem _ hm', hc'⟩
  · by_cases hcm : c = m.child
    · subst hcm
      rw [advance_self] at he
      omega
    · rw [advance_of_ne _ hcm] at he
      exact h.added_of c hc hz he

/-- What is left after a message is of other processes. -/
theorem child_ne_of_mem_erase {l : List Message} (hn : (l.map Message.child).Nodup) (hm : m ∈ l)
    {m' : Message} (hm' : m' ∈ l.erase m) : m'.child ≠ m.child := by
  have hperm := (List.perm_cons_erase hm).map Message.child
  have hnot := (List.nodup_cons.mp (hperm.nodup_iff.mp hn)).1
  exact fun he => hnot (List.mem_map.mpr ⟨m', hm', he⟩)

/-- A message is added to the accumulator. -/
theorem Inv.add (h : Inv size operand e s) (hm : m ∈ s.flight) {rank' : Nat → Rank}
    (hfits : ∀ q < size, (rank' q).Fits size operand (advance e m.child) q) :
    Inv size operand (advance e m.child)
      { s with rank := rank', flight := s.flight.erase m, added := m :: s.added } := by
  obtain ⟨hw, hstage⟩ := h.flight m hm
  have hstart' : ∀ m' : Message, m'.start % 3 = 1 := fun m' => by
    unfold Message.start
    split <;> omega
  have hmod := hstart' m
  have hadded : ∀ m' ∈ s.added, m'.child ≠ m.child := fun m' hm' he => by
    have hold := (h.added m' hm').2
    have := hstart' m'
    rw [he] at hold
    omega
  refine ⟨hfits, fun m' hm' => ?_, fun m' hm' => ?_, fun m' hm' => ?_, ?_, ?_,
    fun c hc hz he => ?_, fun c hc hz he => ?_⟩
  · rw [advance_of_ne _ (child_ne_of_mem_erase h.flight_nodup hm hm')]
    exact h.flight m' (List.mem_of_mem_erase hm')
  · rcases List.mem_cons.mp hm' with rfl | hm'
    · exact ⟨hw, by rw [advance_self, hstage]⟩
    · rw [advance_of_ne _ (hadded m' hm')]
      exact h.added m' hm'
  · obtain ⟨hw', hle⟩ := h.counted m' hm'
    refine ⟨hw', ?_⟩
    by_cases he : m'.child = m.child
    · rw [he, advance_self]
      rw [he] at hle
      omega
    · rwa [advance_of_ne _ he]
  · exact h.flight_nodup.sublist (List.erase_sublist.map _)
  · refine List.nodup_cons.mpr ⟨fun hm' => ?_, h.added_nodup⟩
    obtain ⟨m', hm', he⟩ := List.mem_map.mp hm'
    exact hadded m' hm' he
  · by_cases hcm : c = m.child
    · subst hcm
      rw [advance_self] at he
      omega
    · rw [advance_of_ne _ hcm] at he
      obtain ⟨m', hm', hc'⟩ := h.flight_of c hc hz he
      have hne : m' ≠ m := fun heq => hcm (by rw [← hc', heq])
      exact ⟨m', (List.mem_erase_of_ne hne).mpr hm', hc'⟩
  · by_cases hcm : c = m.child
    · exact ⟨m, List.mem_cons_self, hcm.symm⟩
    · rw [advance_of_ne _ hcm] at he
      obtain ⟨m', hm', hc'⟩ := h.added_of c hc hz he
      exact ⟨m', List.mem_cons_of_mem _ hm', hc'⟩

/-- A message is counted. -/
theorem Inv.count (h : Inv size operand e s) (hm : m ∈ s.added) {rank' : Nat → Rank}
    (hfits : ∀ q < size, (rank' q).Fits size operand (advance e m.child) q) :
    Inv size operand (advance e m.child)
      { s with rank := rank', added := s.added.erase m, counted := m :: s.counted } := by
  obtain ⟨hw, hstage⟩ := h.added m hm
  have hstart' : ∀ m' : Message, m'.start % 3 = 1 := fun m' => by
    unfold Message.start
    split <;> omega
  have hmod := hstart' m
  have hflight : ∀ m' ∈ s.flight, m'.child ≠ m.child := fun m' hm' he => by
    have hold := (h.flight m' hm').2
    have := hstart' m'
    rw [he] at hold
    omega
  refine ⟨hfits, fun m' hm' => ?_, fun m' hm' => ?_, fun m' hm' => ?_, h.flight_nodup, ?_,
    fun c hc hz he => ?_, fun c hc hz he => ?_⟩
  · rw [advance_of_ne _ (hflight m' hm')]
    exact h.flight m' hm'
  · rw [advance_of_ne _ (child_ne_of_mem_erase h.added_nodup hm hm')]
    exact h.added m' (List.mem_of_mem_erase hm')
  · rcases List.mem_cons.mp hm' with rfl | hm'
    · exact ⟨hw, by rw [advance_self, hstage]⟩
    · obtain ⟨hw', hle⟩ := h.counted m' hm'
      refine ⟨hw', ?_⟩
      by_cases he : m'.child = m.child
      · rw [he, advance_self]
        rw [he] at hle
        omega
      · rwa [advance_of_ne _ he]
  · exact h.added_nodup.sublist (List.erase_sublist.map _)
  · by_cases hcm : c = m.child
    · subst hcm
      rw [advance_self] at he
      omega
    · rw [advance_of_ne _ hcm] at he
      exact h.flight_of c hc hz he
  · by_cases hcm : c = m.child
    · subst hcm
      rw [advance_self] at he
      omega
    · rw [advance_of_ne _ hcm] at he
      obtain ⟨m', hm', hc'⟩ := h.added_of c hc hz he
      have hne : m' ≠ m := fun heq => hcm (by rw [← hc', heq])
      exact ⟨m', (List.mem_erase_of_ne hne).mpr hm', hc'⟩

theorem makeword_words (value : BitVec 64) : makeword (hiword value) (loword value) = value := by
  apply BitVec.eq_of_getLsbD_eq
  intro i hi
  rw [makeword, BitVec.getLsbD_append, hiword, loword, BitVec.getLsbD_extractLsb',
    BitVec.getLsbD_extractLsb']
  by_cases h : i < 32
  · simp [h]
  · have hadd : 32 + (i - 32) = i := by omega
    simp [h, hadd]
    omega

theorem parent_lt (hsize : size < 2 ^ 31) (hc : c ≠ 0) (hlt : c < size) :
    parent c < c ∧ parent c < size := by
  obtain ⟨k, -, hk⟩ := exists_child hsize hc hlt
  have := Nat.two_pow_pos k
  omega

/-- The sender of a partial sum, and the parent to be. -/
theorem Inv.sendUp (hsize : size < 2 ^ 31) (h : Inv size operand e s) (hr : r < size)
    (hpc : (s.rank r).pc = .sendUp) :
    Inv size operand (advance e r) { s.setRank r ((s.rank r).toPc .await) with
      flight := upMessage r (s.rank r) :: s.flight } := by
  have hfits := h.fits r hr
  have hne : r ≠ 0 := by
    have := hfits.pcOk
    rwa [Rank.PcOk, hpc] at this
  have hresult : (s.rank r).result = subtotal size operand r (s.rank r).calls := by
    have := hfits.result
    rwa [Rank.ResultOk, hpc] at this
  have hstage : e r = 6 * (s.rank r).calls := by
    have := hfits.own hne
    simp only [Rank.ownLo, Rank.ownHi, hpc] at this
    omega
  obtain ⟨hparent, hlt⟩ := parent_lt hsize hne hr
  obtain ⟨k, hk, hkid⟩ := exists_child hsize hne hr
  refine h.post (m := upMessage r (s.rank r)) ⟨hne, hr, rfl, ?_⟩ (congrArg (· + 1) hstage)
    (fits_advance hsize h.fits ?_ ?_ ?_)
  · show makeword (hiword (s.rank r).result) (loword (s.rank r).result) = _
    rw [makeword_words, hresult]
    rfl
  · show ((s.setRank r _).rank (parent r)).Fits _ _ (advance e r) (parent r)
    rw [rank_setRank, if_neg (Nat.ne_of_lt hparent)]
    have hp := (h.fits (parent r) hlt).kid_same hk (by rw [hkid]; omega)
    rwa [hkid] at hp
  · show ((s.setRank r _).rank r).Fits _ _ (advance e r) r
    rw [rank_setRank, if_pos rfl]
    exact hfits.sendUp hpc hne
  · intro q _ hq
    exact (rank_setRank ..).trans (if_neg hq)

/-- The sender of the sum, and the child. -/
theorem Inv.forward (hsize : size < 2 ^ 31) (h : Inv size operand e s) (hr : r < size) {idx : Nat}
    (hpc : (s.rank r).pc = .forward (idx + 1)) :
    Inv size operand (advance e (r + 2 ^ idx)) { s.setRank r ((s.rank r).toPc (.forward idx)) with
      flight := downMessage r idx (s.rank r) :: s.flight } := by
  have hfits := h.fits r hr
  have hidx : idx < children size r := by
    have := hfits.pcOk
    rwa [Rank.PcOk, hpc] at this
  have hresult : (s.rank r).result = total size operand (s.rank r).calls := by
    have := hfits.result
    rwa [Rank.ResultOk, hpc] at this
  have hstage : e (r + 2 ^ idx) = 6 * (s.rank r).calls + 3 := by
    have := hfits.kids idx hidx
    simp only [Rank.kidLo, Rank.kidHi, hpc, if_pos (Nat.lt_succ_self idx)] at this
    omega
  obtain ⟨hlt, hparent⟩ := parent_child hsize hidx hr
  have hpos := Nat.two_pow_pos idx
  refine h.post (m := downMessage r idx (s.rank r)) ⟨?_, hlt, rfl, ?_⟩
    (congrArg (· + 1) hstage) (fits_advance hsize h.fits ?_ ?_ ?_)
  · show r + 2 ^ idx ≠ 0
    omega
  · show makeword (hiword (s.rank r).result) (loword (s.rank r).result) = _
    rw [makeword_words, hresult]
    rfl
  · show ((s.setRank r _).rank (parent (r + 2 ^ idx))).Fits _ _ _ (parent (r + 2 ^ idx))
    rw [hparent, rank_setRank, if_pos rfl]
    exact hfits.forward hpc
  · show ((s.setRank r _).rank (r + 2 ^ idx)).Fits _ _ _ _
    rw [rank_setRank, if_neg (child_ne r idx)]
    exact (h.fits _ hlt).parent_same (by omega) (by omega)
  · intro q hq _
    exact (rank_setRank ..).trans (if_neg fun he => hq (he.trans hparent.symm))

/-- A message is delivered to the parent of its process, or else to the process. -/
theorem fits_deliver (hsize : size < 2 ^ 31) (h : ∀ q < size, (s.rank q).Fits size operand e q)
    (hw : m.Wired size operand)
    (hstage : e m.child = m.start ∨ e m.child = m.start + 1)
    (hup : m.up = true → ∀ k < children size (parent m.child), parent m.child + 2 ^ k = m.child →
      x.Fits size operand (advance e (parent m.child + 2 ^ k)) (parent m.child))
    (hdown : m.up = false → x.Fits size operand (advance e m.child) m.child) :
    ∀ q < size, ((s.setRank m.dst x).rank q).Fits size operand (advance e m.child) q := by
  obtain ⟨hne, hlt, hdst, -⟩ := hw
  obtain ⟨hparent, hplt⟩ := parent_lt hsize hne hlt
  obtain ⟨k, hk, hkid⟩ := exists_child hsize hne hlt
  unfold Message.start at hstage
  have hkeep := (h (parent m.child) hplt).kid_same hk
  have hself := (h m.child hlt).parent_same hne
  have hgive := fun he => hup he k hk hkid
  rw [hkid] at hkeep hgive
  cases hm : m.up with
  | true =>
    rw [hm, if_pos rfl] at hstage hdst
    refine fits_advance hsize h ?_ ?_ fun q hqp _ => ?_
    · rw [rank_setRank, if_pos hdst.symm]
      exact hgive hm
    · rw [rank_setRank, if_neg (by omega)]
      exact hself (by omega)
    · exact (rank_setRank ..).trans (if_neg (hdst.symm ▸ hqp))
  | false =>
    rw [hm, if_neg Bool.false_ne_true] at hstage hdst
    refine fits_advance hsize h ?_ ?_ fun q _ hqc => ?_
    · rw [rank_setRank, if_neg (by omega)]
      exact hkeep (by omega)
    · rw [rank_setRank, if_pos hdst.symm]
      exact hdown hm
    · exact (rank_setRank ..).trans (if_neg (hdst.symm ▸ hqc))

theorem Inv.deliver_add (hsize : size < 2 ^ 31) (h : Inv size operand e s) (hm : m ∈ s.flight) :
    Inv size operand (advance e m.child)
      { s.setRank m.dst ((s.rank m.dst).toSum ((s.rank m.dst).sum + m.operand)) with
        flight := s.flight.erase m
        added := m :: s.added } := by
  obtain ⟨hw, hstage⟩ := h.flight m hm
  have hlt := (parent_lt hsize hw.ne_zero hw.lt).2
  have hdst := hw.dst
  have hop := hw.operand
  unfold Message.start at hstage
  refine h.add hm (fits_deliver hsize h.fits hw (.inl (h.flight m hm).2) (fun hup k hk hkid => ?_)
    fun hup => ?_)
  · rw [hup, if_pos rfl] at hdst hop hstage
    rw [hop, hdst]
    have hp := (h.fits _ hlt).add_kid hk (by rw [hkid]; exact hstage)
    rwa [hkid] at hp ⊢
  · rw [hup, if_neg Bool.false_ne_true] at hdst hop hstage
    rw [hop, hdst]
    exact (h.fits _ hw.lt).add_parent hw.ne_zero hstage

theorem Inv.deliver_count (hsize : size < 2 ^ 31) (h : Inv size operand e s) (hm : m ∈ s.added) :
    Inv size operand (advance e m.child)
      { s.setRank m.dst ((s.rank m.dst).toRcvd ((s.rank m.dst).rcvd + 1)) with
        added := s.added.erase m
        counted := m :: s.counted } := by
  obtain ⟨hw, hstage⟩ := h.added m hm
  have hlt := (parent_lt hsize hw.ne_zero hw.lt).2
  have hdst := hw.dst
  unfold Message.start at hstage
  refine h.count hm (fits_deliver hsize h.fits hw (.inr (h.added m hm).2) (fun hup k hk hkid => ?_)
    fun hup => ?_)
  · rw [hup, if_pos rfl] at hdst hstage
    rw [hdst]
    exact (h.fits _ hlt).count_kid hk (by rw [hkid]; exact hstage)
  · rw [hup, if_neg Bool.false_ne_true] at hdst hstage
    rw [hdst]
    exact (h.fits _ hw.lt).count_parent hw.ne_zero hstage

/-- No stage is taken back, and a message that is handled is a stage more. -/
structure Ahead (e e' : Nat → Nat) (a : Action) : Prop where
  le : ∀ c, e c ≤ e' c
  lt : ∀ m, a = .add m ∨ a = .count m → e m.child < e' m.child

theorem le_advance (e : Nat → Nat) (c q : Nat) : e q ≤ advance e c q := by
  by_cases h : q = c
  · rw [h, advance_self]
    omega
  · rw [advance_of_ne _ h]

theorem Inv.step (hsize : size < 2 ^ 31) (h : Inv size operand e s)
    (hs : Step size operand s a t) : ∃ e', Inv size operand e' t ∧ Ahead e e' a := by
  have hrefl : ∀ r, Ahead e e (.call r) ∧ Ahead e e (.run r) := fun r =>
    ⟨⟨fun _ => Nat.le_refl _, by simp⟩, ⟨fun _ => Nat.le_refl _, by simp⟩⟩
  have hsend : ∀ r c, Ahead e (advance e c) (.run r) := fun r c => ⟨le_advance e c, by simp⟩
  have hadd : ∀ m, Ahead e (advance e m.child) (.add m) := fun m => by
    refine ⟨le_advance e _, fun m' he => ?_⟩
    obtain rfl : m = m' := by simpa using he
    rw [advance_self]
    exact Nat.lt_succ_self _
  have hcount : ∀ m, Ahead e (advance e m.child) (.count m) := fun m => by
    refine ⟨le_advance e _, fun m' he => ?_⟩
    obtain rfl : m = m' := by simpa using he
    rw [advance_self]
    exact Nat.lt_succ_self _
  cases hs with
  | call hr hpc => exact ⟨e, h.setRank ((h.fits _ hr).call hsize hr hpc), (hrefl _).1⟩
  | gather hr hpc hready => exact ⟨e, h.setRank ((h.fits _ hr).gather hpc hready), (hrefl _).2⟩
  | addUp hr hpc => exact ⟨e, h.setRank ((h.fits _ hr).addUp hsize hr hpc), (hrefl _).2⟩
  | clearUp hr hpc => exact ⟨e, h.setRank ((h.fits _ hr).clearUp hpc), (hrefl _).2⟩
  | sendUp hr hpc => exact ⟨_, h.sendUp hsize hr hpc, hsend _ _⟩
  | await hr hpc hready => exact ⟨e, h.setRank ((h.fits _ hr).await hpc hready), (hrefl _).2⟩
  | readDown hr hpc => exact ⟨e, h.setRank ((h.fits _ hr).readDown hpc), (hrefl _).2⟩
  | clearDown hr hpc => exact ⟨e, h.setRank ((h.fits _ hr).clearDown hpc), (hrefl _).2⟩
  | reset hr hpc => exact ⟨e, h.setRank ((h.fits _ hr).reset hpc), (hrefl _).2⟩
  | forward hr hpc => exact ⟨_, h.forward hsize hr hpc, hsend _ _⟩
  | leave hr hpc => exact ⟨e, h.setRank ((h.fits _ hr).leave hpc), (hrefl _).2⟩
  | add hm => exact ⟨_, h.deliver_add hsize hm, hadd _⟩
  | count hm => exact ⟨_, h.deliver_count hsize hm, hcount _⟩

theorem fits_initial : (initial.rank r).Fits size operand (fun _ => 0) r where
  own _ := ⟨Nat.le_refl _, Nat.le_refl _⟩
  kids _ _ := ⟨Nat.le_refl _, Nat.zero_le _⟩
  rcvd := (rcvdOf_eq_zero (fun _ => Nat.succ_pos _) fun _ _ => Nat.succ_pos _).symm
  sum := (sumOf_eq_zero (fun _ => Nat.succ_pos _) fun _ _ => Nat.succ_pos _).symm
  result := trivial
  pcOk := trivial
  returned := rfl

theorem inv_initial : Inv size operand (fun _ => 0) initial where
  fits _ _ := fits_initial
  flight _ hm := absurd hm List.not_mem_nil
  added _ hm := absurd hm List.not_mem_nil
  counted _ hm := absurd hm List.not_mem_nil
  flight_nodup := List.nodup_nil
  added_nodup := List.nodup_nil
  flight_of _ _ _ he := absurd he (by decide)
  added_of _ _ _ he := absurd he (by decide)

end Gasnet.Coll.BootstrapSum
