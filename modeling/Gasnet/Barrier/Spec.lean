import Mathlib.Data.BitVec
import Gasnet.Foundation.Flat
import Gasnet.Foundation.Run

/-! The (value, flags) pair of an anonymous, named or mismatched barrier, and the in-place
merge that handlers and kicks both perform. -/
namespace Gasnet.Barrier

/-- `gex_AM_Arg_t`. -/
abbrev Arg := BitVec 32

def ANONYMOUS : Arg := 1
def MISMATCH : Arg := 2

structure Tag where
  value : Arg
  flags : Arg
  deriving DecidableEq, Repr

namespace Tag

/-- A calloc'ed record whose flags were set to ANONYMOUS. -/
def anonymous : Tag := ⟨0, ANONYMOUS⟩

def hasMismatch (a : Tag) : Prop := a.flags &&& MISMATCH ≠ 0
def hasAnonymous (a : Tag) : Prop := a.flags &&& ANONYMOUS ≠ 0

instance (a : Tag) : Decidable a.hasMismatch := inferInstanceAs (Decidable (_ ≠ _))
instance (a : Tag) : Decidable a.hasAnonymous := inferInstanceAs (Decidable (_ ≠ _))

/-- Merge `arg` into the running pair `recv`. -/
def merge (recv arg : Tag) : Tag :=
  if (recv.flags ||| arg.flags) &&& MISMATCH ≠ 0 then { recv with flags := MISMATCH }
  else if recv.hasAnonymous then arg
  else if ¬ arg.hasAnonymous ∧ arg.value ≠ recv.value then { recv with flags := MISMATCH }
  else recv

/-- What the pair says: the value counts only when neither flag is set. -/
def consensus (a : Tag) : Flat Arg :=
  if a.hasMismatch then .conflict else if a.hasAnonymous then .unknown else .known a.value

@[simp] theorem consensus_reset (v : Arg) : consensus ⟨v, ANONYMOUS⟩ = .unknown := by
  simp [consensus, hasMismatch, hasAnonymous, MISMATCH, ANONYMOUS]

@[simp] theorem consensus_anonymous : anonymous.consensus = .unknown := consensus_reset 0

theorem consensus_of_mismatch {a : Tag} (h : a.hasMismatch) : a.consensus = .conflict := by
  simp [consensus, h]

theorem consensus_of_anonymous {a : Tag} (hm : ¬ a.hasMismatch) (h : a.hasAnonymous) :
    a.consensus = .unknown := by
  simp [consensus, hm, h]

theorem consensus_of_named {a : Tag} (hm : ¬ a.hasMismatch) (h : ¬ a.hasAnonymous) :
    a.consensus = .known a.value := by
  simp [consensus, hm, h]

theorem hasMismatch_mark (v : Arg) : hasMismatch ⟨v, MISMATCH⟩ := by
  simp [hasMismatch, MISMATCH]

theorem or_and_ne_zero {x y m : Arg} : (x ||| y) &&& m ≠ 0 ↔ x &&& m ≠ 0 ∨ y &&& m ≠ 0 := by
  have h := BitVec.or_eq_zero_iff (x := x &&& m) (y := y &&& m)
  rw [BitVec.and_or_distrib_right]
  tauto

/-- The merge is the join: ANONYMOUS is its identity, MISMATCH absorbs, and two different
names conflict. -/
theorem consensus_merge (recv arg : Tag) :
    (recv.merge arg).consensus = recv.consensus ⊔ arg.consensus := by
  by_cases hor : (recv.flags ||| arg.flags) &&& MISMATCH ≠ 0
  · rw [merge, if_pos hor, consensus_of_mismatch (hasMismatch_mark _)]
    obtain h | h := or_and_ne_zero.mp hor
    · rw [consensus_of_mismatch h, Flat.conflict_sup]
    · rw [consensus_of_mismatch h, Flat.sup_conflict]
  · have hr : ¬ recv.hasMismatch := fun h => hor (or_and_ne_zero.mpr (Or.inl h))
    have ha : ¬ arg.hasMismatch := fun h => hor (or_and_ne_zero.mpr (Or.inr h))
    rw [merge, if_neg hor]
    by_cases hra : recv.hasAnonymous
    · rw [if_pos hra, consensus_of_anonymous hr hra, Flat.unknown_sup]
    · rw [if_neg hra, consensus_of_named hr hra]
      by_cases haa : arg.hasAnonymous
      · rw [if_neg (by tauto), consensus_of_anonymous ha haa, consensus_of_named hr hra,
          Flat.sup_unknown]
      · rw [consensus_of_named ha haa]
        by_cases hv : arg.value = recv.value
        · rw [if_neg (by tauto), consensus_of_named hr hra, Flat.known_sup_known, if_pos hv.symm]
        · rw [if_pos ⟨haa, hv⟩, consensus_of_mismatch (hasMismatch_mark _),
            Flat.known_sup_of_ne (Ne.symm hv)]

end Tag
end Gasnet.Barrier

/-! What a barrier is for: nobody leaves it before all have entered, and what its wait returns
depends on what all have said and on the arguments of this wait only. -/
namespace Gasnet.Barrier

variable {N : Nat}

/-- What a wait with argument `a` returns when all have said `v`: true for GASNET_OK, false for
GASNET_ERR_BARRIER_MISMATCH. -/
def outcome (v : Flat Arg) (a : Tag) : Bool :=
  match v with
  | .unknown => true
  | .known x => decide (a.hasAnonymous ∨ a.value = x)
  | .conflict => false

/-- The check that every wait makes of the pair it finds and of its own arguments. -/
def accepts (recv a : Tag) : Bool :=
  if recv.hasMismatch then false
  else if (a.flags ||| recv.flags) &&& ANONYMOUS = 0 ∧ a.value ≠ recv.value then false
  else true

/-- The check reads of the pair only what it says. -/
theorem accepts_eq_outcome (recv a : Tag) : accepts recv a = outcome recv.consensus a := by
  by_cases hm : recv.hasMismatch
  · rw [Tag.consensus_of_mismatch hm, accepts, if_pos hm]
    rfl
  · rw [accepts, if_neg hm]
    have hor : (a.flags ||| recv.flags) &&& ANONYMOUS = 0 ↔
        ¬a.hasAnonymous ∧ ¬recv.hasAnonymous := by
      rw [← not_or, ← not_ne_iff, Tag.or_and_ne_zero]
      rfl
    by_cases ha : recv.hasAnonymous
    · rw [Tag.consensus_of_anonymous hm ha, if_neg (by tauto)]
      rfl
    · rw [Tag.consensus_of_named hm ha, outcome]
      by_cases hv : a.hasAnonymous ∨ a.value = recv.value
      · rw [if_neg (by tauto), decide_eq_true hv]
      · rw [if_pos (by tauto), decide_eq_false hv]

namespace Spec

/-- How many barriers each rank has notified and completed, and what it said. -/
structure State (N : Nat) where
  notified : Fin N → Nat
  completed : Fin N → Nat
  arg : Fin N → Nat → Tag

inductive Event (N : Nat)
  | notify (r : Fin N) (a : Tag)
  | wait (r : Fin N) (a : Tag) (ok : Bool)

def initial (N : Nat) : State N := ⟨fun _ => 0, fun _ => 0, fun _ _ => .anonymous⟩

namespace State

/-- What all ranks said in barrier `k`. -/
def total (s : State N) (k : Nat) : Flat Arg := Finset.univ.sup fun j => (s.arg j k).consensus

def notify (s : State N) (r : Fin N) (a : Tag) : State N :=
  { s with
    notified := Function.update s.notified r (s.notified r + 1)
    arg := Function.update s.arg r (Function.update (s.arg r) (s.notified r + 1) a) }

def wait (s : State N) (r : Fin N) : State N :=
  { s with completed := Function.update s.completed r (s.completed r + 1) }

end State

/-- Each rank alternates `notify` and `wait`. -/
inductive Step : State N → Event N → State N → Prop
  | notify {s : State N} {r : Fin N} {a : Tag} (hout : s.notified r = s.completed r) :
      Step s (.notify r a) (s.notify r a)
  | wait {s : State N} {r : Fin N} {a : Tag} (hin : s.notified r = s.completed r + 1)
      (hall : ∀ j, s.notified r ≤ s.notified j) :
      Step s (.wait r a (outcome (s.total (s.notified r)) a)) (s.wait r)

/-- A step of a program is one of the specification, or changes nothing that it sees. -/
def Simulates (s : State N) (e : Option (Event N)) (t : State N) : Prop :=
  match e with
  | some e => Step s e t
  | none => t = s

end Spec

end Gasnet.Barrier
