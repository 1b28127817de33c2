import Gasnet.Vis.Puts

/-! The incremental vector put over whole runs. -/
namespace Gasnet.Vis

variable {c : Config} {mem : Word → Byte} {s : State} {e : Entry} {n : Nat}

namespace State

/-- The address of an entry that is added fits the bytes reserved for a pointer. -/
def Reserved (c : Config) (s : State) : Prop :=
  let t := s.pickUpR.pickUpL.ready c
  s.Packs c → t.Adds → (encode (t.prevRptr c) t.rvec.addr).length ≤ 8

/-- The loop is over when no bytes are left. -/
theorem done_iff (hh : s.Heads) (he : s.restR.length = s.restL.length) :
    s.done = true ↔ s.restR = [] := by
  constructor
  · intro h
    simp only [done, Bool.and_eq_true, decide_eq_true_eq, List.isEmpty_iff] at h
    rw [restR, bytes_of_len (by omega), h.2]
    rfl
  · intro h
    have hl : s.restL.length = 0 := by rw [← he, h]; rfl
    obtain ⟨hr, hn⟩ := List.append_eq_nil_iff.1 h
    have hrlen : s.rvec.len = 0 := by rw [← length_bytes, hr]; rfl
    have hllen : s.lvec.len = 0 := by
      rw [restL, List.length_append, length_bytes] at hl
      omega
    have hnext : s.rnext = [] := by
      cases hc : s.rnext with
      | nil => rfl
      | cons v l =>
        have hv := hh.1 v (by rw [hc]; rfl)
        rw [hc, flat_cons] at hn
        rw [← length_bytes, (List.append_eq_nil_iff.1 hn).1] at hv
        exact absurd rfl hv
    simp [done, hrlen, hllen, hnext]

@[simp] theorem entries_start (c : Config) (s : State) : (s.start c).entries = s.entries := by
  rw [start]
  split
  · rfl
  · exact entries_settle s

@[simp] theorem contig_start (c : Config) (s : State) : (s.start c).contig = s.contig := by
  rw [start]
  split <;> rfl

theorem stores_start (c : Config) (mem : Word → Byte) (s : State) :
    (s.start c).stores mem = s.stores mem := by
  have hrest : (s.start c).rest mem = s.rest mem := by
    rw [start]
    split <;> rfl
  rw [stores, moved_start, hrest, stores]

/-- The room that was checked for, or a new buffer. -/
theorem flush_put (hg : c.isget = false) (h : s.PutInv c) (ho : s.Open) :
    (if s.full c then s.send else s).PutInv c ∧
      (if s.full c then s.send else s).cursor c + 11 ≤ c.maxrequest := by
  have hmax := c.maxrequest_ge
  split
  · rename_i hfull
    have hs : s.started = true := by
      rw [full, Bool.and_eq_true] at hfull
      exact hfull.1
    refine ⟨putInv_send h (ho hs), ?_⟩
    change 0 + 11 ≤ c.maxrequest
    omega
  · rename_i hfull
    refine ⟨h, ?_⟩
    cases hs : s.started with
    | true =>
      simp only [full, hs, hg, Bool.true_and, Bool.false_and, Bool.or_false, Bool.false_eq_true,
        if_false, decide_eq_true_eq] at hfull
      omega
    | false =>
      rw [cursor, h.fresh hs]
      change 0 + 11 ≤ c.maxrequest
      omega

/-- A put's packet that is ready has the room that was checked for. -/
theorem ready_put (hg : c.isget = false) (h : s.PutInv c) (ho : s.Open) :
    (s.ready c).PutInv c ∧ (s.ready c).started = true ∧
      (s.ready c).cursor c + 11 ≤ c.maxrequest ∧ (s.ready c).contig = s.contig ∧
      (s.ready c).stores mem = s.stores mem := by
  obtain ⟨hinv, hroom⟩ := flush_put hg h ho
  rw [ready, save_of_put hg]
  refine ⟨putInv_start hinv, started_start .., ?_, ?_, ?_⟩
  · rwa [cursor, entries_start]
  · rw [contig_start]
    split <;> rfl
  · rw [stores_start]
    split
    · rw [stores, moved_send]
      rfl
    · rfl

theorem contig_entry (s : State) : s.entry.contig = s.contig := by
  rw [entry]
  split
  · split <;> rfl
  · rfl

theorem restR_entry (s : State) : s.entry.restR = s.restR := by
  rw [entry]
  split
  · split <;> rfl
  · rfl

theorem stores_entry (mem : Word → Byte) (s : State) : s.entry.stores mem = s.stores mem := by
  have hrest : s.entry.rest mem = s.rest mem := by
    rw [entry]
    split
    · split <;> rfl
    · rfl
  rw [stores, moved_entry, hrest, stores]

theorem restR_ready (c : Config) (s : State) : (s.ready c).restR = s.restR := by
  have hstart (t : State) : (t.start c).restR = t.restR := by
    rw [start]
    split <;> rfl
  have hsave (t : State) : (t.save c).restR = t.restR := by
    rw [save]
    split <;> rfl
  rw [ready, hstart, hsave]
  split <;> rfl

/-- The entry that is filled is not full. -/
theorem len_cur_entry (hshort : ∀ e ∈ s.entries, e.len ≤ shortlenMax) (he : s.entry.cur = some e) :
    e.len < shortlenMax := by
  by_cases ha : s.Adds
  · rw [entry_of_adds ha] at he
    cases he
    exact Nat.succ_pos _
  · rw [(entry_of_not_adds ha).1] at he
    refine Nat.lt_of_le_of_ne (hshort e (by simp [entries_of_cur he])) fun hmax => ha ?_
    intro x hx
    rw [he] at hx
    cases hx
    exact hmax

/-- What is packed of a chunk. -/
theorem pack_put (hg : c.isget = false) (h : s.PutInv c) (ho : s.Open) (hpos : 0 < s.contig)
    (hres : (s.ready c).Adds →
      (encode ((s.ready c).prevRptr c) (s.ready c).rvec.addr).length ≤ 8) :
    (s.pack c mem).PutInv c ∧ (s.pack c mem).Open ∧ (s.pack c mem).stores mem = s.stores mem ∧
      (s.pack c mem).restR.length < s.restR.length := by
  obtain ⟨hu, hstarted, hroom, hcontig, hstores⟩ := @ready_put c mem s hg h ho
  have hcursor : (s.ready c).entry.cursor c < c.maxrequest := by
    by_cases ha : (s.ready c).Adds
    · have henc := hres ha
      rw [cursor_of_adds c ha]
      omega
    · rw [(entry_of_not_adds ha).1]
      omega
  have hv := putInv_entry hu hstarted (Nat.le_of_lt hcursor)
  obtain ⟨e, he⟩ := exists_cur_entry (s.ready c)
  have hlen := len_cur_entry (fun e he => (hu.good e he).short) he
  have halready : (s.ready c).entry.already = e.len := by rw [already, he]; rfl
  have hremaining : 0 < (s.ready c).entry.remaining c := by
    have hlt := c.maxrequest_lt
    simp only [remaining, hg, Bool.false_eq_true, if_false]
    omega
  have hn : (s.ready c).entry.portion c ≤ (s.ready c).entry.contig := by
    rw [portion]
    omega
  have hnpos : 0 < (s.ready c).entry.portion c := by
    rw [portion, contig_entry, hcontig, halready]
    omega
  have hshort : e.len + (s.ready c).entry.portion c ≤ shortlenMax := by
    rw [portion, halready]
    omega
  refine ⟨putInv_grow hg hv he hn hshort (cursor_grow_portion he (Nat.le_of_lt hcursor)), ?_, ?_, ?_⟩
  · intro _
    have hcur : (s.pack c mem).cur = _ := cur_grow hg he _
    rw [entries_of_cur hcur]
    simp
  · exact (stores_grow hg hv he hn).trans ((stores_entry mem _).trans hstores)
  · have hrest := congrArg List.length (rest_advance hn).1
    rw [restR_entry, restR_ready, List.length_append, length_span] at hrest
    change ((s.ready c).entry.advance _).restR.length < _
    omega

/-- One iteration of a put. -/
theorem iterate_put (hg : c.isget = false) (h : s.PutInv c) (ho : s.Open) (hd : s.done = false)
    (hres : s.Reserved c) :
    (s.iterate c mem).PutInv c ∧ (s.iterate c mem).Open ∧
      ((s.iterate c mem).stores mem).Perm (s.stores mem) ∧
      (s.iterate c mem).restR.length < s.restR.length := by
  have ht := putInv_pickUpL (putInv_pickUpR h)
  have hto : s.pickUpR.pickUpL.Open := by
    intro hs
    rw [started_pickUpL, started_pickUpR] at hs
    rw [entries_pickUpL, entries_pickUpR]
    exact ho hs
  have hr : s.restR ≠ [] := fun hz => by simp [(done_iff h.heads h.even).2 hz] at hd
  have hl : s.restL ≠ [] := by
    intro hz
    have heven := h.even
    rw [hz] at heven
    exact hr (List.length_eq_zero_iff.1 heven)
  have hpos := contig_pickUp_pos h.heads hr hl
  have hrest : s.pickUpR.pickUpL.restR = s.restR := by rw [restR_pickUpL, restR_pickUpR]
  rw [iterate, ← hrest, ← stores_pickUp mem s]
  split
  · refine ⟨putInv_direct ht, fun hs => ?_, stores_direct mem _, ?_⟩
    · exact entries_settle s.pickUpR.pickUpL ▸ hto hs
    · have hlen := congrArg List.length (rest_advance (Nat.le_refl s.pickUpR.pickUpL.contig)).1
      rw [List.length_append, length_span] at hlen
      change (s.pickUpR.pickUpL.advance _).restR.length < _
      omega
  · rename_i hrma
    obtain ⟨h1, h2, h3, h4⟩ := @pack_put c mem _ hg ht hto hpos (hres ⟨hd, by simpa using hrma⟩)
    exact ⟨h1, h2, h3 ▸ List.Perm.refl _, h4⟩

/-- The last packet. -/
def finish (s : State) : State := if s.started then s.send else s

end State

open State

theorem restR_initial (rlist llist : List Memvec) :
    (initial rlist llist).restR = flat rlist := flat_dropWhile rlist

theorem restL_initial (rlist llist : List Memvec) :
    (initial rlist llist).restL = flat llist := flat_dropWhile llist

theorem putInv_initial (c : Config) {rlist llist : List Memvec}
    (hlen : (flat rlist).length = (flat llist).length) : (initial rlist llist).PutInv c where
  heads := ⟨headFull_dropWhile rlist, headFull_dropWhile llist⟩
  even := by rw [restR_initial, restL_initial, hlen]
  fresh := fun _ => rfl
  late := fun _ => rfl
  good := nofun
  sent := nofun
  resume := nofun
  inside := Nat.zero_le _

theorem stores_initial (mem : Word → Byte) (rlist llist : List Memvec) :
    (initial rlist llist).stores mem = (flat rlist).zip ((flat llist).map mem) := by
  rw [stores, rest, restR_initial, restL_initial]
  rfl

/-- The loop of a put comes to its end. -/
theorem loop_put (hg : c.isget = false) (h : s.PutInv c) (ho : s.Open)
    (hres : ∀ n, (loop c mem n s).Reserved c) :
    ∃ n, (loop c mem n s).done = true ∧ (loop c mem n s).PutInv c ∧ (loop c mem n s).Open ∧
      ((loop c mem n s).stores mem).Perm (s.stores mem) := by
  induction hk : s.restR.length using Nat.strongRecOn generalizing s with
  | ind k ih =>
    cases hd : s.done with
    | true => exact ⟨0, hd, h, ho, List.Perm.refl _⟩
    | false =>
      obtain ⟨hinv, hopen, hperm, hlt⟩ := @iterate_put c mem s hg h ho hd (hres 0)
      obtain ⟨n, hdone, hn, hno, hnperm⟩ := ih _ (hk ▸ hlt) hinv hopen
        (fun n => loop_of_not_done hd n ▸ hres (n + 1)) rfl
      refine ⟨n + 1, ?_⟩
      rw [loop_of_not_done hd]
      exact ⟨hdone, hn, hno, hnperm.trans hperm⟩

theorem length_le_wire (prev : Word) (es : List Entry) : es.length ≤ (wire prev es).length := by
  induction es generalizing prev with
  | nil => exact Nat.le_refl _
  | cons e es ih =>
    have htail := ih e.rptr
    have hhead := encode_pos prev e.rptr
    simp only [wire, List.length_append, List.length_cons]
    omega

/-- The stores that the handler makes for a packet. -/
def Packet.handled (c : Config) (p : Packet) : Option (List (Word × Byte)) :=
  putvReqh (wire c.segbase p.entries).length c.segbase (wire c.segbase p.entries)

namespace State

theorem putInv_finish (h : s.PutInv c) (ho : s.Open) : s.finish.PutInv c := by
  rw [finish]
  split
  · exact putInv_send h (ho (by assumption))
  · exact h

theorem finish_over (h : s.PutInv c) : s.finish.entries = [] ∧ s.finish.deferred = [] := by
  rw [finish]
  split
  · exact ⟨rfl, rfl⟩
  · rename_i hs
    exact ⟨h.fresh (by simpa using hs), h.late (by simpa using hs)⟩

theorem moved_finish (mem : Word → Byte) (s : State) : s.finish.moved mem = s.moved mem := by
  rw [finish]
  split
  · exact moved_send mem s
  · rfl

end State

theorem handled_eq {p : Packet} (h : s.PutInv c) (hp : p ∈ s.sent) :
    p.handled c = some (p.entries.flatMap Entry.writes) := by
  obtain ⟨hne, hgood, _⟩ := h.sent p hp
  exact putvReqh_wire c.segbase p.entries hne hgood (length_le_wire ..)

/-- The stores of the reference copy. -/
def copied (mem : Word → Byte) (rlist llist : List Memvec) : List (Word × Byte) :=
  (vectorHelper rlist llist).flatMap fun k => k.pairs.map (Prod.map id mem)

theorem copied_eq (mem : Word → Byte) {rlist llist : List Memvec}
    (hlen : (flat rlist).length = (flat llist).length) :
    copied mem rlist llist = (flat rlist).zip ((flat llist).map mem) := by
  rw [List.zip_map_right, ← vectorHelper_pairs hlen, List.map_flatMap]
  rfl

/-- Every byte of an incremental put is stored once: the loop ends, each packet fits and is
understood, and together the RMAs and the packets make exactly the stores of the flattened lists.
If these overlap nowhere, the order in which they take effect does not matter. -/
theorem incremental_put (c : Config) (hg : c.isget = false) (mem : Word → Byte)
    (rlist llist : List Memvec) (hlen : (flat rlist).length = (flat llist).length)
    (hres : ∀ n, (loop c mem n (initial rlist llist)).Reserved c) :
    ∃ n s, loop c mem n (initial rlist llist) = s ∧ s.done = true ∧ s.finish.started = false ∧
      s.finish.deferred = [] ∧
      (∀ p ∈ s.finish.sent, (wire c.segbase p.entries).length ≤ c.maxrequest) ∧
      ∃ wss, s.finish.sent.map (Packet.handled c) = wss.map some ∧
        (s.finish.rma.map (Rma.writes mem) ++ wss).flatten.Perm
          ((flat rlist).zip ((flat llist).map mem)) ∧
        ((flat rlist).Nodup → ∀ ws, ws.Perm (s.finish.rma.map (Rma.writes mem) ++ wss).flatten →
          ∀ dst : Word → Byte, store dst ws = store dst (copied mem rlist llist)) := by
  obtain ⟨n, hd, hinv, hopen, hperm⟩ :=
    loop_put hg (putInv_initial c hlen) (fun h => absurd h Bool.false_ne_true) hres
  have hfin := putInv_finish hinv hopen
  obtain ⟨hentries, hdefer⟩ := finish_over hinv
  have hmoved := moved_finish mem (loop c mem n (initial rlist llist))
  rw [moved, hentries, hdefer, List.append_nil, List.flatMap_nil, List.append_nil] at hmoved
  rw [stores_initial, stores, rest, (done_iff hinv.heads hinv.even).1 hd, List.zip_nil_left,
    List.append_nil, ← hmoved, List.flatMap_def, List.flatMap_def, ← List.flatten_append] at hperm
  refine ⟨n, _, rfl, hd, ?_, hdefer, fun p hp => (hfin.sent p hp).2.2, _, ?_, hperm, ?_⟩
  · rw [finish]
    split
    · rfl
    · rename_i hs
      simpa using hs
  · rw [List.map_map]
    exact List.map_congr_left fun p hp => handled_eq hfin hp
  · intro hnodup ws hws dst
    have hall := hws.trans hperm
    rw [copied_eq mem hlen]
    refine (store_perm hall.symm ?_ dst).symm
    rw [List.map_fst_zip (by rw [List.length_map, hlen])]
    exact hnodup

/-- Two pieces to one in a single packet. -/
theorem incremental_put_two :
    ∃ n s, loop leastPut (fun _ => 7) n (initial [⟨5, 2⟩, ⟨9, 1⟩] [⟨20, 3⟩]) = s ∧
      s.done = true ∧ ∃ wss, s.finish.sent.map (Packet.handled leastPut) = wss.map some ∧
        (s.finish.rma.map (Rma.writes fun _ => 7) ++ wss).flatten.Perm
          [((5 : Word), (7 : Byte)), (6, 7), (9, 7)] := by
  have hres (n : Nat) : (loop leastPut (fun _ => 7) n
      (initial [⟨5, 2⟩, ⟨9, 1⟩] [⟨20, 3⟩])).Reserved leastPut := by
    rcases n with _ | _ | n
    · exact fun _ _ => by decide
    · exact fun _ _ => by decide
    · rw [loop_of_not_done rfl, loop_of_not_done (by decide), loop_of_done (by decide)]
      exact fun hp => absurd hp.1 (by decide)
  obtain ⟨n, s, h1, h2, _, _, _, wss, h3, h4, _⟩ :=
    incremental_put leastPut rfl (fun _ => 7) [⟨5, 2⟩, ⟨9, 1⟩] [⟨20, 3⟩] (by decide) hres
  exact ⟨n, s, h1, h2, wss, h3, h4⟩

end Gasnet.Vis
