import Gasnet.Vis.Incremental

/-! When the packets of the incremental vector put and get stay inside their buffers. -/
namespace Gasnet.Vis

variable {c : Config} {mem : Word → Byte} {s : State} {prev : Word} {e : Entry} {es fs : List Entry}
  {n : Nat}

@[simp] theorem length_shortlen (n : Nat) : (shortlen n).length = 2 := rfl

theorem wire_append (prev : Word) (es fs : List Entry) :
    wire prev (es ++ fs) = wire prev es ++ wire ((es.getLast?.map Entry.rptr).getD prev) fs := by
  induction es generalizing prev with
  | nil => rfl
  | cons e es ih =>
    rw [List.cons_append, wire, wire, ih]
    cases es <;> simp [List.getLast?_cons]

namespace State

@[simp] theorem entries_settle (s : State) : s.settle.entries = s.entries := by
  simp [settle, entries]

@[simp] theorem cursor_settle (c : Config) (s : State) : s.settle.cursor c = s.cursor c := by
  rw [cursor, entries_settle, cursor]

@[simp] theorem entries_pickUpR (s : State) : s.pickUpR.entries = s.entries := by
  rw [pickUpR]
  split
  · split
    · rfl
    · exact entries_settle s
  · rfl

@[simp] theorem entries_pickUpL (s : State) : s.pickUpL.entries = s.entries := by
  rw [pickUpL]
  split
  · split <;> rfl
  · rfl

@[simp] theorem started_pickUpR (s : State) : s.pickUpR.started = s.started := by
  rw [pickUpR]
  split
  · split <;> rfl
  · rfl

@[simp] theorem started_pickUpL (s : State) : s.pickUpL.started = s.started := by
  rw [pickUpL]
  split
  · split <;> rfl
  · rfl

/-- An entry is added rather than resumed. -/
def Adds (s : State) : Prop := ∀ e, s.cur = some e → e.len = shortlenMax

theorem entry_of_adds (h : s.Adds) :
    s.entry = { s.settle with cur := some ⟨s.rvec.addr, 0, []⟩ } := by
  rw [entry]
  split
  · rename_i e he
    rw [if_pos (h e he)]
  · rfl

theorem entry_of_not_adds (h : ¬ s.Adds) : s.entry = s ∧ ∃ e, s.cur = some e := by
  simp only [Adds, not_forall] at h
  obtain ⟨e, he, hlen⟩ := h
  rw [entry, he]
  exact ⟨if_neg hlen, e, rfl⟩

theorem cursor_of_adds (c : Config) (h : s.Adds) :
    s.entry.cursor c = s.cursor c + (encode (s.prevRptr c) s.rvec.addr).length + 2 := by
  rw [entry_of_adds h, cursor, entries]
  change (wire c.segbase (s.entries ++ [⟨s.rvec.addr, 0, []⟩])).length = _
  rw [wire_append, List.length_append, cursor, prevRptr, Nat.add_assoc]
  simp [wire]

/-- The data of a put come behind all that is there. -/
theorem cursor_grow (c : Config) (mem : Word → Byte) (h : s.cur = some e) (n : Nat) :
    (s.grow c mem n).cursor c = s.cursor c + if c.isget then 0 else n := by
  simp only [cursor, entries, grow, h, Option.map_some, Option.toList_some, wire_append]
  cases c.isget
  · simp [wire]
    omega
  · simp [wire]

/-- A portion fits what is left, if the cursor is inside. -/
theorem cursor_grow_portion (h : s.cur = some e) (hs : s.cursor c ≤ c.maxrequest) :
    (s.grow c mem (s.portion c)).cursor c ≤ c.maxrequest := by
  have hlt := c.maxrequest_lt
  rw [cursor_grow c mem h]
  cases hg : c.isget with
  | true => simpa using hs
  | false =>
    have hrem : s.remaining c = c.maxrequest - s.cursor c := by
      simp only [remaining, hg, Bool.false_eq_true, if_false]
      omega
    simp only [Bool.false_eq_true, if_false, portion, hrem]
    omega

/-- Without an open packet there are no entries. -/
def Fresh (s : State) : Prop := s.started = false → s.entries = []

/-- The state in which the check for a full buffer is made, if the chunk is packed. -/
def Packs (c : Config) (s : State) : Prop :=
  s.done = false ∧ (c.useRma && decide (c.maxchunk < s.pickUpR.pickUpL.contig)) = false

/-- An entry that comes into a packet with 10 or 11 bytes left is not too far from the one before
it. -/
def Near (c : Config) (s : State) : Prop :=
  let t := s.pickUpR.pickUpL
  s.Packs c → t.started = true → t.full c = false → t.Adds →
    (c.maxrequest - t.cursor c = 10 → Fits 7 (t.rvec.addr - t.prevRptr c).toInt) ∧
      (c.maxrequest - t.cursor c = 11 → Fits 8 (t.rvec.addr - t.prevRptr c).toInt)

theorem cursor_pickUp (c : Config) (s : State) : s.pickUpR.pickUpL.cursor c = s.cursor c := by
  rw [cursor, entries_pickUpL, entries_pickUpR, cursor]

@[simp] theorem entries_save (c : Config) (s : State) : (s.save c).entries = s.entries := by
  rw [save]
  split <;> rfl

@[simp] theorem started_save (c : Config) (s : State) : (s.save c).started = s.started := by
  rw [save]
  split <;> rfl

@[simp] theorem cur_save (c : Config) (s : State) : (s.save c).cur = s.cur := by
  rw [save]
  split <;> rfl

@[simp] theorem rvec_save (c : Config) (s : State) : (s.save c).rvec = s.rvec := by
  rw [save]
  split <;> rfl

theorem ready_open (hs : s.started = true) (hfull : s.full c = false) : s.ready c = s.save c := by
  rw [ready, if_neg (by simp [hfull]), start, if_pos (by simp [hs])]

/-- A new packet is empty. -/
theorem ready_new (hf : s.Fresh) (h : s.started = false ∨ s.full c = true) :
    (s.ready c).entries = [] ∧ (s.ready c).cur = none ∧ (s.ready c).rvec = s.rvec := by
  have hnew {t : State} (ht : t.started = false) (he : t.entries = []) (hr : t.rvec = s.rvec) :
      ((t.save c).start c).entries = [] ∧ ((t.save c).start c).cur = none ∧
        ((t.save c).start c).rvec = s.rvec := by
    rw [start, if_neg (by simp [ht])]
    refine ⟨?_, rfl, (rvec_save c t).trans hr⟩
    exact (entries_settle _).trans ((entries_save c t).trans he)
  rw [ready]
  split
  · exact hnew rfl rfl rfl
  · rename_i hfull
    have hs : s.started = false := by simpa [hfull] using h
    exact hnew hs (hf hs) rfl

theorem exists_cur_entry (s : State) : ∃ e, s.entry.cur = some e := by
  by_cases h : s.Adds
  · rw [entry_of_adds h]
    exact ⟨_, rfl⟩
  · rw [(entry_of_not_adds h).1]
    exact (entry_of_not_adds h).2

/-- What is packed stays inside exactly if the address and the length do. -/
theorem cursor_pack_le_iff :
    (s.pack c mem).cursor c ≤ c.maxrequest ↔ (s.ready c).entry.cursor c ≤ c.maxrequest := by
  obtain ⟨e, he⟩ := exists_cur_entry (s.ready c)
  constructor
  · intro h
    have hg : (s.pack c mem).cursor c = _ := cursor_grow c mem he _
    omega
  · exact cursor_grow_portion he

/-- A new packet has room for its first entry. -/
theorem cursor_pack_new (hf : s.Fresh) (h : s.started = false ∨ s.full c = true) :
    (s.pack c mem).cursor c ≤ c.maxrequest := by
  obtain ⟨hentries, hcur, hr⟩ := ready_new hf h
  have hadds : (s.ready c).Adds := by
    intro e he
    rw [hcur] at he
    simp at he
  have henc := length_encode_le ((s.ready c).prevRptr c) (s.ready c).rvec.addr
  have hmax := c.maxrequest_ge
  rw [cursor_pack_le_iff, cursor_of_adds c hadds, cursor, hentries]
  simp only [wire, List.length_nil]
  omega

/-- In an open packet all depends on the distance. -/
theorem cursor_pack_open (hs : s.started = true) (hfull : s.full c = false) :
    (s.pack c mem).cursor c ≤ c.maxrequest ↔
      (s.Adds → (c.maxrequest - s.cursor c = 10 → Fits 7 (s.rvec.addr - s.prevRptr c).toInt) ∧
        (c.maxrequest - s.cursor c = 11 → Fits 8 (s.rvec.addr - s.prevRptr c).toInt)) := by
  have hroom : s.cursor c + 10 ≤ c.maxrequest := by
    simp [full, hs] at hfull
    omega
  have hcursor : (s.save c).cursor c = s.cursor c := by rw [cursor, entries_save, cursor]
  have hprev : (s.save c).prevRptr c = s.prevRptr c := by rw [prevRptr, entries_save, prevRptr]
  have hadds : (s.save c).Adds ↔ s.Adds := by rw [Adds, cur_save, Adds]
  rw [cursor_pack_le_iff, ready_open hs hfull]
  by_cases h : s.Adds
  · have henc := length_encode_le (s.prevRptr c) s.rvec.addr
    rw [cursor_of_adds c (hadds.2 h), hcursor, hprev, rvec_save, ← length_encode_le_iff,
      ← length_encode_le_iff]
    simp only [h, true_imp_iff]
    omega
  · rw [(entry_of_not_adds (mt hadds.1 h)).1, hcursor]
    exact iff_of_true (by omega) fun ha => absurd ha h

@[simp] theorem cursor_advance (c : Config) (s : State) (n : Nat) :
    (s.advance n).cursor c = s.cursor c := rfl

theorem cursor_direct (c : Config) (s : State) : (s.direct c).cursor c = s.cursor c :=
  cursor_settle c s

theorem fresh_pickUp (hf : s.Fresh) : s.pickUpR.pickUpL.Fresh := by
  intro h
  rw [started_pickUpL, started_pickUpR] at h
  rw [entries_pickUpL, entries_pickUpR, hf h]

theorem started_start (c : Config) (s : State) : (s.start c).started = true := by
  rw [start]
  split
  · assumption
  · rfl

theorem started_pack (c : Config) (mem : Word → Byte) (s : State) :
    (s.pack c mem).started = true := by
  have hready : (s.ready c).started = true := started_start ..
  change (s.ready c).entry.started = true
  rw [entry]
  split
  · split
    · exact hready
    · exact hready
  · exact hready

theorem fresh_iterate (hf : s.Fresh) : (s.iterate c mem).Fresh := by
  rw [iterate]
  split
  · intro h
    exact (entries_settle _).trans (fresh_pickUp hf h)
  · intro h
    rw [started_pack] at h
    exact absurd h Bool.false_ne_true.symm

/-- One iteration stays inside exactly if the entry it adds, if any, is near enough. -/
theorem cursor_iterate_le_iff (hd : s.done = false) (hf : s.Fresh) (hs : s.cursor c ≤ c.maxrequest) :
    (s.iterate c mem).cursor c ≤ c.maxrequest ↔ s.Near c := by
  have hfresh := fresh_pickUp hf
  rw [iterate, Near]
  by_cases hrma : (c.useRma && decide (c.maxchunk < s.pickUpR.pickUpL.contig)) = true
  · rw [if_pos hrma, cursor_advance, cursor_direct, cursor_pickUp]
    exact iff_of_true hs fun hp => absurd hp.2 (by simp [hrma])
  · have hp : s.Packs c := ⟨hd, by simpa using hrma⟩
    rw [if_neg hrma]
    simp only [hp, true_imp_iff]
    by_cases hopen : s.pickUpR.pickUpL.started = true ∧ s.pickUpR.pickUpL.full c = false
    · rw [cursor_pack_open hopen.1 hopen.2]
      simp only [hopen.1, hopen.2, true_imp_iff]
    · refine iff_of_true (cursor_pack_new hfresh ?_) fun h1 h2 => absurd ⟨h1, h2⟩ hopen
      by_cases h1 : s.pickUpR.pickUpL.started = true
      · exact Or.inr ((Bool.eq_false_or_eq_true _).resolve_right fun h2 => hopen ⟨h1, h2⟩)
      · exact Or.inl (by simpa using h1)

end State

open State

theorem loop_of_done (h : s.done = true) (n : Nat) : loop c mem n s = s := by
  cases n with
  | zero => rfl
  | succ n => rw [loop, if_pos h]

theorem loop_of_not_done (h : s.done = false) (n : Nat) :
    loop c mem (n + 1) s = loop c mem n (s.iterate c mem) := by
  rw [loop, if_neg (by simp [h])]

/-- From a state inside, all iterations stay inside exactly if each entry is near enough. -/
theorem loop_inside_iff (hf : s.Fresh) (hs : s.cursor c ≤ c.maxrequest) :
    (∀ n, (loop c mem n s).cursor c ≤ c.maxrequest) ↔ ∀ n, (loop c mem n s).Near c := by
  constructor
  · intro h n
    induction n generalizing s with
    | zero =>
      intro hp
      have hnear := (cursor_iterate_le_iff hp.1 hf hs).1 (loop_of_not_done hp.1 0 ▸ h 1)
      exact hnear hp
    | succ n ih =>
      cases hd : s.done with
      | true =>
        rw [loop_of_done hd]
        exact fun hp => absurd (hd.symm.trans hp.1) Bool.false_ne_true.symm
      | false =>
        rw [loop_of_not_done hd]
        have hnext m := loop_of_not_done hd m ▸ h (m + 1)
        exact ih (fresh_iterate hf) (hnext 0) hnext
  · intro h n
    induction n generalizing s with
    | zero => exact hs
    | succ n ih =>
      cases hd : s.done with
      | true =>
        rw [loop_of_done hd]
        exact hs
      | false =>
        rw [loop_of_not_done hd]
        exact ih (fresh_iterate hf) ((cursor_iterate_le_iff hd hf hs).2 (h 0)) fun m =>
          loop_of_not_done hd m ▸ h (m + 1)

/-- No packet is overrun exactly if no entry that comes into a packet with little room left is too
far from the entry before it. -/
theorem packets_inside_iff (c : Config) (mem : Word → Byte) (rlist llist : List Memvec) :
    (∀ n, (loop c mem n (initial rlist llist)).cursor c ≤ c.maxrequest) ↔
      ∀ n, (loop c mem n (initial rlist llist)).Near c :=
  loop_inside_iff (fun _ => rfl) (Nat.zero_le _)

theorem least_lt : 512 < 2 ^ 64 := by decide

/-- A put without RMA in packets of the least size. -/
def leastPut : Config where
  isget := false
  useRma := false
  npam := false
  maxchunk := 0
  maxrequest := 512
  maxreply := 512
  segbase := 0
  maxrequest_ge := le_rfl
  maxrequest_lt := least_lt
  maxreply_ge := le_rfl

/-- The second piece is farther from the first than the reserved bytes can say. -/
theorem packet_overrun :
    ¬ ∀ n, (loop leastPut (fun _ => 0) n
      (initial [⟨0, 498⟩, ⟨0x8000000000000000, 1⟩] [⟨0x1000, 499⟩])).cursor leastPut ≤
        leastPut.maxrequest := by
  intro h
  exact absurd (h 2) (by decide +kernel)

end Gasnet.Vis
