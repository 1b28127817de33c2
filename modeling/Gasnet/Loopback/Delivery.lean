import Gasnet.Foundation.Memory
import Mathlib.Data.Set.Lattice.Image
import Mathlib.Order.CompletePartialOrder

/-! Delivery of a message to an endpoint: what its handlers are given and what becomes of its
segment, by the shortcut of a message to oneself and by the network. -/
namespace Gasnet.Loopback

variable {N : Type} {seg : Set Word} {checked inside : Prop} {mem : Word → BitVec 8}

/-- What a request or a reply is called with. Only the long ones name an offset. -/
inductive Payload
  | short
  | medium (data : List (BitVec 8))
  | long (data : List (BitVec 8)) (destOffset : Word)

structure Call where
  handler : Nat
  args : List (BitVec 32)
  payload : Payload

namespace Call

def data (c : Call) : List (BitVec 8) :=
  match c.payload with
  | .short => []
  | .medium data => data
  | .long data _ => data

def destOffset (c : Call) : Word :=
  match c.payload with
  | .long _ off => off
  | _ => 0

def IsLong (c : Call) : Prop :=
  match c.payload with
  | .long _ _ => True
  | _ => False

instance (c : Call) : Decidable c.IsLong := by
  unfold IsLong
  cases c.payload <;> infer_instance

/-- Both libraries have the limit 65000 for medium and for long payloads. -/
def BadArg (c : Call) : Prop := 65000 < c.data.length

instance (c : Call) : Decidable c.BadArg := inferInstanceAs (Decidable (_ < _))

/-- The exact sum stays below `2 ^ 64`. -/
def NoWrap (c : Call) : Prop := c.destOffset.toNat + c.data.length < 2 ^ 64

/-- `[offset, offset + length)` lies inside a segment of that length. -/
def Inside (c : Call) (segLength : Word) : Prop :=
  c.destOffset.toNat + c.data.length ≤ segLength.toNat

instance (c : Call) : Decidable c.NoWrap := inferInstanceAs (Decidable (_ < _))

instance (c : Call) (segLength : Word) : Decidable (c.Inside segLength) :=
  inferInstanceAs (Decidable (_ ≤ _))

end Call

def BAD_ARG : Nat := 2

/-- A valid translation: the name it leads to and the tag its messages are given. -/
structure Entry (N : Type) where
  name : N
  tag : Nat

/-- The translation table, with its holes. -/
abbrev Table (N : Type) := List (Option (Entry N))

/-- `perProcInfo`: the table without its holes. -/
def Table.perProc (t : Table N) : List (Entry N) := t.filterMap id

/-- The memory after a copy to consecutive addresses. -/
def copy (mem : Word → BitVec 8) (a : Word) (data : List (BitVec 8)) : Word → BitVec 8 :=
  store mem ((span a data.length).zip data)

def segment (segAddr segLength : Word) : Set Word := {a | a ∈ span segAddr segLength.toNat}

/-- The bytes a long message is for. -/
def target (segAddr : Word) (c : Call) : Set Word :=
  {a | a ∈ span (segAddr + c.destOffset) c.data.length}

theorem Table.mem_perProc {t : Table N} {i : Nat} {e : Entry N} (h : t[i]? = some (some e)) :
    e ∈ t.perProc :=
  List.mem_filterMap.2 ⟨some e, List.mem_of_getElem? h, rfl⟩

namespace Table

/-- An entry keeps its place among those in use. -/
theorem perProc_take {t : Table N} {i : Nat} {e : Entry N} (h : t[i]? = some (some e)) :
    t.perProc[(perProc (t.take i)).length]? = some e := by
  obtain ⟨hi, hget⟩ := List.getElem?_eq_some_iff.1 h
  have hsplit : t = t.take i ++ some e :: t.drop (i + 1) := by
    rw [← hget, ← List.drop_eq_getElem_cons hi, List.take_append_drop]
  have hproc : t.perProc = perProc (t.take i) ++ e :: perProc (t.drop (i + 1)) := by
    conv_lhs => rw [hsplit]
    simp [perProc]
  rw [hproc, List.getElem?_append_right le_rfl, Nat.sub_self, List.getElem?_cons_zero]

theorem length_perProc {t : Table N} (h : ∀ x ∈ t, x.isSome) : t.perProc.length = t.length := by
  induction t with
  | nil => rfl
  | cons x t ih =>
    cases x with
    | none => simp at h
    | some e =>
      have := ih fun y hy => h y (List.mem_cons_of_mem _ hy)
      simpa [perProc] using this

/-- If the entries in use are the first ones, they have no others before them. -/
theorem length_perProc_take {t : Table N} {i : Nat} {e : Entry N} (h : t[i]? = some (some e))
    (hd : (t.take t.perProc.length).all Option.isSome) : (perProc (t.take i)).length = i := by
  have hi := (List.getElem?_eq_some_iff.1 h).1
  have hlt := (List.getElem?_eq_some_iff.1 (perProc_take h)).1
  rw [List.all_eq_true] at hd
  rcases Nat.lt_or_ge t.perProc.length i with hp | hp
  · -- the first ones alone are as many as all
    have hfirst := length_perProc hd
    have hsub : (t.take t.perProc.length).Sublist (t.take i) :=
      (List.take_prefix_take_left (by omega)).sublist
    have hle := (hsub.filterMap id).length_le
    rw [List.length_take] at hfirst
    unfold perProc at hfirst hlt hle hp ⊢
    omega
  · rw [length_perProc, List.length_take]
    · omega
    · intro x hx
      exact hd x ((List.take_prefix_take_left hp).sublist.subset hx)

end Table

/-- What a handler finds in its token and in its arguments. -/
structure View (N : Type) where
  handler : Nat
  args : List (BitVec 32)
  payload : List (BitVec 8)
  sourceId : Nat
  source : N
deriving DecidableEq

/-- A returned message comes with a reason and with the id of the one who refused it. -/
inductive Verdict (N : Type)
  | accepted (v : View N)
  | returned (reason : Nat) (sourceId : Option Nat)
  | rejected (error : Nat)
  | dropped
  | undefined
deriving DecidableEq

def Verdict.Accepted : Verdict N → Prop
  | .accepted _ => True
  | _ => False

instance (v : Verdict N) : Decidable v.Accepted := by
  unfold Verdict.Accepted
  cases v <;> infer_instance

structure Outcome (N : Type) where
  verdict : Verdict N
  mem : Word → BitVec 8

/-- What the user handler of an accepted message is given. -/
def view (segAddr : Word) (c : Call) (id : Nat) (source : N) (mem : Word → BitVec 8) : View N where
  handler := c.handler
  args := c.args
  payload :=
    if c.IsLong then (span (segAddr + c.destOffset) c.data.length).map mem else c.data
  sourceId := id
  source := source

/-- The one-copy of a long payload. -/
def copyLong (segAddr : Word) (c : Call) (mem : Word → BitVec 8) : Word → BitVec 8 :=
  if c.IsLong then copy mem (segAddr + c.destOffset) c.data else mem

/-- An accepted message: from the network a long payload is copied now. -/
def deliverTo (isloopback : Bool) (segAddr : Word) (c : Call) (id : Nat) (source : N)
    (mem : Word → BitVec 8) : Outcome N :=
  let mem := if isloopback then mem else copyLong segAddr c mem
  ⟨.accepted (view segAddr c id source mem), mem⟩

/-- The shortcut agrees with the network: the same verdict, hence the same view, the same segment,
one that is as before if the message was not accepted, and exact bounds. -/
structure Agrees (seg : Set Word) (checked inside : Prop) (mem : Word → BitVec 8)
    (loop net : Outcome N) : Prop where
  verdict : loop.verdict = net.verdict
  segment : seg.EqOn loop.mem net.mem
  refused : ¬ loop.verdict.Accepted → seg.EqOn loop.mem mem
  exact : checked → (loop.verdict.Accepted ↔ inside)

/-- A call that both ways reject before anything is done. -/
theorem Agrees.rejected (error : Nat) (h : ¬ checked) :
    Agrees (N := N) seg checked inside mem ⟨.rejected error, mem⟩ ⟨.rejected error, mem⟩ :=
  ⟨rfl, fun _ _ => rfl, fun _ _ _ => rfl, fun hc => absurd hc h⟩

/-- A message accepted both ways. -/
theorem agrees_deliverTo {segAddr : Word} {c : Call} {id id' : Nat} {source source' : N} :
    Agrees seg checked inside mem (deliverTo true segAddr c id source (copyLong segAddr c mem))
      (deliverTo false segAddr c id' source' mem) ↔
      (id', source') = (id, source) ∧ (checked → inside) := by
  constructor
  · intro h
    have hv := h.verdict
    simp only [deliverTo, view, Verdict.accepted.injEq, View.mk.injEq] at hv
    exact ⟨by simp [hv], fun hc => (h.exact hc).1 trivial⟩
  · rintro ⟨hid, hin⟩
    obtain ⟨rfl, rfl⟩ := Prod.mk.injEq .. ▸ hid
    exact ⟨rfl, fun _ _ => rfl, fun hn => absurd trivial hn, fun hc => iff_of_true trivial (hin hc)⟩

theorem copyLong_eqOn {segAddr : Word} {c : Call} (h : c.IsLong → Disjoint seg (target segAddr c))
    (mem : Word → BitVec 8) : seg.EqOn (copyLong segAddr c mem) mem := by
  intro a ha
  unfold copyLong
  split
  · rename_i hl
    apply store_of_notMem
    rw [List.map_fst_zip (by simp)]
    exact fun hat => Set.disjoint_left.1 (h hl) ha hat
  · rfl

/-- A nonempty range inside the segment meets it. -/
theorem not_disjoint_of_inside {segAddr segLength : Word} {c : Call} (h : c.Inside segLength)
    (hn : 0 < c.data.length) : ¬ Disjoint (segment segAddr segLength) (target segAddr c) := by
  intro hd
  unfold Call.Inside at h
  have hseg : segAddr + c.destOffset ∈ segment segAddr segLength :=
    mem_span.2 ⟨c.destOffset.toNat, by omega, by rw [natCast_toNat]⟩
  exact Set.disjoint_left.1 hd hseg (mem_span.2 ⟨0, hn, by simp⟩)

/-- Some contents of the segment show the copy, unless it misses the segment. -/
theorem disjoint_of_copyLong {segAddr : Word} {c : Call}
    (h : ∀ mem, seg.EqOn (copyLong segAddr c mem) mem) (hl : c.IsLong) :
    Disjoint seg (target segAddr c) := by
  rw [Set.disjoint_left]
  intro a ha hat
  have hmem : a ∈ ((span (segAddr + c.destOffset) c.data.length).zip c.data).map Prod.fst := by
    rwa [List.map_fst_zip (by simp)]
  obtain ⟨v, hv⟩ := store_value (β := BitVec 8) hmem
  have heq := h (fun _ => v + 1) ha
  simp only [copyLong, if_pos hl, copy, hv] at heq
  bv_omega

/-- A message refused both ways after the shortcut has copied it. -/
theorem agrees_returned {segAddr : Word} {c : Call} {reason : Nat} {id id' : Option Nat}
    (hout : checked → inside → c.IsLong → ¬ Disjoint seg (target segAddr c))
    (hlong : checked → c.IsLong) :
    (∀ mem, Agrees (N := N) seg checked inside mem ⟨.returned reason id, copyLong segAddr c mem⟩
      ⟨.returned reason id', mem⟩) ↔
      id' = id ∧ (c.IsLong → Disjoint seg (target segAddr c)) := by
  constructor
  · intro h
    have hv := (h fun _ => 0).verdict
    simp only [Verdict.returned.injEq, true_and] at hv
    exact ⟨hv.symm, disjoint_of_copyLong fun mem => (h mem).segment⟩
  · rintro ⟨rfl, hd⟩ mem
    refine ⟨rfl, copyLong_eqOn hd mem, fun _ => copyLong_eqOn hd mem, fun hc => ?_⟩
    exact iff_of_false id fun hin => hout hc hin (hlong hc) (hd (hlong hc))

end Gasnet.Loopback
