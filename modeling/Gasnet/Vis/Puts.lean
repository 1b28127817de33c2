import Gasnet.Vis.Pieces

/-! The incremental vector put: the handler of its packets, and what the loop keeps. -/
namespace Gasnet.Vis

variable {c : Config} {mem : Word → Byte} {s : State} {e : Entry} {n : Nat}

/-- The loop of `gasnete_putv_AMPipeline_reqh`, at most `n` entries; nothing if it would read past
the end. -/
def putvReqh : Nat → Word → List Byte → Option (List (Word × Byte))
  | 0, _, _ => none
  | n + 1, rptr, pbuf =>
    (decode rptr pbuf).bind fun p =>
      match p.2 with
      | b₀ :: b₁ :: pbuf =>
        let len := b₀.toNat + 256 * b₁.toNat
        if pbuf.length < len then none
        else
          let ws := (span p.1 len).zip (pbuf.take len)
          if pbuf.drop len = [] then some ws
          else (putvReqh n p.1 (pbuf.drop len)).map (ws ++ ·)
      | _ => none

/-- The stores of an entry. -/
def Entry.writes (e : Entry) : List (Word × Byte) := (span e.rptr e.len).zip e.data

/-- The stores of an RMA put. -/
def Rma.writes (mem : Word → Byte) (x : Rma) : List (Word × Byte) :=
  (span x.rptr x.sz).zip ((span x.lptr x.sz).map mem)

/-- The length is that of the data and can be sent. -/
structure Entry.Good (e : Entry) : Prop where
  data : e.data.length = e.len
  short : e.len ≤ shortlenMax

/-- The handler makes the stores of all entries. -/
theorem putvReqh_wire (prev : Word) (es : List Entry) (hes : es ≠ []) (hgood : ∀ e ∈ es, e.Good)
    (hn : es.length ≤ n) : putvReqh n prev (wire prev es) = some (es.flatMap Entry.writes) := by
  induction es generalizing n prev with
  | nil => exact absurd rfl hes
  | cons e es ih =>
    obtain ⟨n, rfl⟩ := Nat.exists_eq_add_one.2 (Nat.lt_of_lt_of_le (Nat.succ_pos _) hn)
    have he := hgood e List.mem_cons_self
    have hdata := he.data
    have hshort := he.short
    have hlen : (BitVec.ofNat 8 e.len).toNat + 256 * (BitVec.ofNat 8 (e.len / 256)).toNat = e.len := by
      rw [BitVec.toNat_ofNat, BitVec.toNat_ofNat]
      rw [shortlenMax] at hshort
      omega
    rw [putvReqh, wire, List.append_assoc, List.append_assoc, decode_encode, Option.bind_some]
    simp only [shortlen, List.cons_append, List.nil_append, hlen]
    rw [if_neg (by rw [List.length_append]; omega), List.take_left' hdata, List.drop_left' hdata,
      List.flatMap_cons]
    cases es with
    | nil =>
      rw [if_pos (by rfl : wire e.rptr [] = [])]
      exact congrArg some (List.append_nil _).symm
    | cons e' es =>
      have hne : wire e.rptr (e' :: es) ≠ [] := by
        intro h
        have hz := congrArg List.length h
        simp [wire] at hz
      rw [if_neg hne, ih e.rptr (List.cons_ne_nil _ _) (fun x hx => hgood x (List.mem_cons_of_mem _ hx))
        (by simpa using hn)]
      rfl

namespace State

/-- The stores of all that was given to the conduit or packed. -/
def moved (mem : Word → Byte) (s : State) : List (Word × Byte) :=
  (s.rma ++ s.deferred).flatMap (Rma.writes mem) ++
    (s.sent.flatMap fun p => p.entries.flatMap Entry.writes) ++ s.entries.flatMap Entry.writes

/-- The stores still to come. -/
def rest (mem : Word → Byte) (s : State) : List (Word × Byte) := s.restR.zip (s.restL.map mem)

/-- What the loop of a put keeps, between the parts of an iteration too. -/
structure PutInv (c : Config) (s : State) : Prop where
  heads : s.Heads
  even : s.restR.length = s.restL.length
  fresh : s.Fresh
  late : s.started = false → s.deferred = []
  good : ∀ e ∈ s.entries, e.Good
  sent : ∀ p ∈ s.sent, p.entries ≠ [] ∧ (∀ e ∈ p.entries, e.Good) ∧
    (wire c.segbase p.entries).length ≤ c.maxrequest
  resume : ∀ e, s.cur = some e → e.rptr + e.len = s.rvec.addr
  inside : s.cursor c ≤ c.maxrequest

/-- An open packet has entries. -/
def Open (s : State) : Prop := s.started = true → s.entries ≠ []

theorem putInv_settle (h : s.PutInv c) : s.settle.PutInv c := by
  refine { h with fresh := ?_, good := ?_, resume := nofun, inside := ?_ }
  · intro hs
    rw [entries_settle, h.fresh hs]
  · rw [entries_settle]
    exact h.good
  · rw [cursor_settle]
    exact h.inside

theorem putInv_pickUpR (h : s.PutInv c) : s.pickUpR.PutInv c := by
  have hheads := heads_pickUpR h.heads
  have heven : s.pickUpR.restR.length = s.pickUpR.restL.length := by
    rw [restR_pickUpR, restL_pickUpR, h.even]
  revert hheads heven
  rw [pickUpR]
  split
  · split
    · exact fun _ _ => h
    · intro hheads heven
      exact { putInv_settle h with heads := hheads, even := heven, resume := fun _ h => by cases h }
  · exact fun _ _ => h

theorem putInv_pickUpL (h : s.PutInv c) : s.pickUpL.PutInv c := by
  have hheads := heads_pickUpL h.heads
  have heven : s.pickUpL.restR.length = s.pickUpL.restL.length := by
    rw [restR_pickUpL, restL_pickUpL, h.even]
  revert hheads heven
  rw [pickUpL]
  split
  · split
    · exact fun _ _ => h
    · intro hheads heven
      exact { h with heads := hheads, even := heven }
  · exact fun _ _ => h

theorem putInv_send (h : s.PutInv c) (hne : s.entries ≠ []) : s.send.PutInv c := by
  refine { h with fresh := fun _ => rfl, late := fun _ => rfl, good := nofun, sent := ?_,
                  resume := nofun, inside := Nat.zero_le _ }
  intro p hp
  rcases List.mem_append.1 hp with hp | hp
  · exact h.sent p hp
  · rw [List.mem_singleton.1 hp]
    exact ⟨hne, h.good, h.inside⟩

theorem save_of_put (hg : c.isget = false) (s : State) : s.save c = s := by
  rw [save, hg]
  rfl

theorem putInv_start (h : s.PutInv c) : (s.start c).PutInv c := by
  rw [start]
  split
  · exact h
  · exact { putInv_settle h with fresh := fun h => (by cases h), late := fun h => (by cases h) }

theorem putInv_entry (h : s.PutInv c) (hs : s.started = true)
    (hroom : s.entry.cursor c ≤ c.maxrequest) : s.entry.PutInv c := by
  by_cases ha : s.Adds
  · rw [entry_of_adds ha] at hroom ⊢
    refine { putInv_settle h with fresh := ?_, good := ?_, resume := ?_, inside := hroom }
    · exact fun hf => absurd (hs.symm.trans hf) Bool.false_ne_true.symm
    · intro x hx
      rcases List.mem_append.1 hx with hx | hx
      · exact h.good x hx
      · rw [List.mem_singleton.1 hx]
        exact ⟨rfl, Nat.zero_le _⟩
    · rintro x ⟨⟩
      exact BitVec.add_zero _
  · rw [(entry_of_not_adds ha).1]
    exact h

theorem entries_of_cur (h : s.cur = some e) : s.entries = s.closed ++ [e] := by
  rw [entries, h]
  rfl

/-- The entry after the data of a put. -/
theorem cur_grow (hg : c.isget = false) (h : s.cur = some e) (n : Nat) :
    (s.grow c mem n).cur =
      some ⟨e.rptr, e.len + n, e.data ++ (span s.lvec.addr n).map mem⟩ := by
  simp [grow, h, hg]

theorem putInv_grow (hg : c.isget = false) (h : s.PutInv c) (he : s.cur = some e)
    (hn : n ≤ s.contig) (hshort : e.len + n ≤ shortlenMax)
    (hroom : (s.grow c mem n).cursor c ≤ c.maxrequest) :
    ((s.grow c mem n).advance n).PutInv c := by
  have hcur : ((s.grow c mem n).advance n).cur = _ := cur_grow hg he n
  have hgood : ∀ x ∈ s.closed ++ [e], x.Good := entries_of_cur he ▸ h.good
  obtain ⟨hr, hl⟩ := rest_advance hn
  have heven := h.even
  rw [hr, hl, List.length_append, List.length_append, length_span, length_span] at heven
  refine { heads := h.heads, even := Nat.add_left_cancel heven, fresh := ?_, late := h.late,
           good := ?_, sent := h.sent, resume := ?_, inside := hroom }
  · intro hs
    have hnil := h.fresh hs
    rw [entries_of_cur he] at hnil
    exact absurd hnil (by simp)
  · rw [entries_of_cur hcur]
    intro x hx
    rcases List.mem_append.1 hx with hx | hx
    · exact hgood x (List.mem_append_left _ hx)
    · have hdata := (hgood e (by simp)).data
      rw [List.mem_singleton.1 hx]
      exact ⟨by simp [hdata], hshort⟩
  · intro x hx
    rw [hcur] at hx
    cases hx
    change e.rptr + ((e.len + n : Nat) : Word) = s.rvec.addr + n
    rw [← h.resume e he, Nat.cast_add, BitVec.add_assoc]

theorem putInv_direct (h : s.PutInv c) :
    ((s.direct c).advance s.contig).PutInv c := by
  obtain ⟨hr, hl⟩ := rest_advance (Nat.le_refl s.contig)
  have heven := h.even
  rw [hr, hl, List.length_append, List.length_append, length_span, length_span] at heven
  refine { putInv_settle h with even := Nat.add_left_cancel heven, late := ?_, resume := nofun }
  intro hs
  have hs' : s.started = false := hs
  simp [direct, advance, hs', h.late hs']

/-- All stores, those made and those to come. -/
def stores (mem : Word → Byte) (s : State) : List (Word × Byte) := s.moved mem ++ s.rest mem

theorem moved_settle (mem : Word → Byte) (s : State) : s.settle.moved mem = s.moved mem := by
  rw [moved, entries_settle]
  rfl

theorem moved_pickUpR (mem : Word → Byte) (s : State) : s.pickUpR.moved mem = s.moved mem := by
  rw [pickUpR]
  split
  · split
    · rfl
    · exact moved_settle mem s
  · rfl

theorem moved_pickUpL (mem : Word → Byte) (s : State) : s.pickUpL.moved mem = s.moved mem := by
  rw [pickUpL]
  split
  · split <;> rfl
  · rfl

theorem stores_pickUp (mem : Word → Byte) (s : State) :
    s.pickUpR.pickUpL.stores mem = s.stores mem := by
  rw [stores, moved_pickUpL, moved_pickUpR, rest, restR_pickUpL, restR_pickUpR, restL_pickUpL,
    restL_pickUpR]
  rfl

/-- A chunk that both lists give up is the next of the stores to come. -/
theorem rest_chunk (hn : n ≤ s.contig) :
    s.rest mem = (span s.rvec.addr n).zip ((span s.lvec.addr n).map mem) ++
      (s.advance n).rest mem := by
  obtain ⟨hr, hl⟩ := rest_advance hn
  rw [rest, hr, hl, List.map_append, List.zip_append (by simp)]
  rfl

theorem moved_send (mem : Word → Byte) (s : State) : s.send.moved mem = s.moved mem := by
  simp [moved, send, entries]

theorem moved_start (mem : Word → Byte) (s : State) : (s.start c).moved mem = s.moved mem := by
  rw [start]
  split
  · rfl
  · exact moved_settle mem s

theorem moved_entry (mem : Word → Byte) (s : State) : s.entry.moved mem = s.moved mem := by
  by_cases ha : s.Adds
  · rw [entry_of_adds ha, moved, entries]
    change _ ++ (s.entries ++ [(⟨s.rvec.addr, 0, []⟩ : Entry)]).flatMap Entry.writes = _
    simp [moved, Entry.writes, span, settle]
  · rw [(entry_of_not_adds ha).1]

theorem stores_grow (hg : c.isget = false) (h : s.PutInv c) (he : s.cur = some e)
    (hn : n ≤ s.contig) : ((s.grow c mem n).advance n).stores mem = s.stores mem := by
  have hcur : ((s.grow c mem n).advance n).cur = _ := cur_grow hg he n
  have hdata := (h.good e (by simp [entries_of_cur he])).data
  have hwrites : Entry.writes ⟨e.rptr, e.len + n, e.data ++ (span s.lvec.addr n).map mem⟩ =
      e.writes ++ (span s.rvec.addr n).zip ((span s.lvec.addr n).map mem) := by
    rw [Entry.writes, span_add, List.zip_append (by simp [hdata]), h.resume e he]
    rfl
  rw [stores, stores, rest_chunk hn, moved, moved, entries_of_cur hcur, entries_of_cur he]
  simp only [List.flatMap_append, List.flatMap_singleton, hwrites, List.append_assoc]
  rfl

/-- A direct put joins the RMAs, whether at once or deferred. -/
theorem stores_direct (mem : Word → Byte) (s : State) :
    (((s.direct c).advance s.contig).stores mem).Perm (s.stores mem) := by
  let x : Rma := ⟨s.lvec.addr, s.rvec.addr, s.contig⟩
  have hrma : ((s.direct c).rma ++ (s.direct c).deferred).Perm (x :: (s.rma ++ s.deferred)) := by
    simp only [direct]
    split
    · simp [x]
    · exact List.perm_middle
  have hmoved : (((s.direct c).advance s.contig).moved mem).Perm (x.writes mem ++ s.moved mem) := by
    have hentries : ((s.direct c).advance s.contig).entries = s.entries := entries_settle s
    rw [moved, hentries, moved, ← List.append_assoc, ← List.append_assoc, ← List.flatMap_cons]
    exact ((hrma.flatMap_right _).append_right _).append_right _
  have hrest : s.rest mem = x.writes mem ++ ((s.direct c).advance s.contig).rest mem :=
    rest_chunk (Nat.le_refl s.contig)
  rw [stores, stores, hrest, ← List.append_assoc]
  exact (hmoved.trans List.perm_append_comm).append_right _

end State

end Gasnet.Vis
