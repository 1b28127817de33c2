import Gasnet.Foundation.Run
import Mathlib.Data.BitVec
import Mathlib.Logic.Function.Basic

/-! The identifiers of teams: a bit in a map of the leader, and the leader's rank above it. Any
number of threads of a process allocate and free at the same time. -/
namespace Gasnet.Coll.TeamId

variable {N : Nat}

/-- `GASNETE_COLL_TEAM_ID_BITS`. -/
def BITS : Nat := 12

/-- `GASNETE_COLL_TEAM_ID_COUNT`. -/
def COUNT : Nat := 4096

/-- The number of words of the map. -/
abbrev WORDS : Nat := 128

/-- `for (c=0; !(v&1); ++c) v >>= 1`, as far as `fuel`. -/
def ctzLoop : (fuel : Nat) → BitVec 32 → Nat → Nat
  | 0, _, c => c
  | fuel + 1, v, c => if v.getLsbD 0 then c else ctzLoop fuel (v >>> 1) (c + 1)

/-- `gasnete_coll_ctz_u32`. -/
def ctz (v : BitVec 32) : Nat := if v = 0 then 32 else ctzLoop 32 v 0

/-- A team, by its leader and what `team_id_alloc` has returned there. -/
structure Team (N : Nat) where
  leader : Fin N
  low : Nat
  deriving DecidableEq

/-- `low_bits | (gasneti_mynode << GASNETE_COLL_TEAM_ID_BITS)`. -/
def Team.id (t : Team N) : BitVec 32 :=
  BitVec.ofNat 32 t.low ||| (BitVec.ofNat 32 t.leader.val <<< BITS)

/-- `id >> GASNETE_COLL_TEAM_ID_BITS`. -/
def owner (id : BitVec 32) : Nat := (id >>> BITS).toNat

/-- `id & GASNETE_COLL_TEAM_ID_MASK`. -/
def lowBits (id : BitVec 32) : Nat := (id &&& BitVec.ofNat 32 (COUNT - 1)).toNat

/-- The word of the map that an identifier has a bit in. -/
def wordOf (low : Nat) : Fin WORDS := ⟨low / 32 % WORDS, Nat.mod_lt _ (by decide)⟩

def bitOf (low : Nat) : Nat := low % 32

/-- `team_id`. -/
structure Table where
  map : Fin WORDS → BitVec 32
  hint : Nat

/-- Where a thread is in `team_id_alloc` or `team_id_free`. -/
inductive PC (N : Nat)
  | idle
  | scan (word : Fin WORDS) (i : Nat)
  | cas (word : Fin WORDS) (readval : BitVec 32)
  | hint (word : Fin WORDS) (bit : Nat)
  | failed
  | clear (t : Team N)
  | clearCas (t : Team N) (readval : BitVec 32)
  | freeHint (t : Team N)

/-- The tables and the threads of the processes, and the history: the teams that are live and all
that were made. -/
structure State (N : Nat) where
  table : Fin N → Table
  pc : Fin N → Nat → PC N
  live : List (Team N)
  made : List (Team N)

/-- Bit 0 stands for the team of all processes. -/
def initial (N : Nat) : State N where
  table _ := ⟨fun w => if w.val = 0 then 1 else 0, 0⟩
  pc _ _ := .idle
  live := []
  made := []

/-- `team_id.hint % count`. -/
def Table.start (x : Table) : Fin WORDS := ⟨x.hint % WORDS, Nat.mod_lt _ (by decide)⟩

/-- `(word+1) % count`. -/
def nextWord (word : Fin WORDS) : Fin WORDS := ⟨(word.val + 1) % WORDS, Nat.mod_lt _ (by decide)⟩

/-- `readval ^ (1 << bit)`. -/
def flip (readval : BitVec 32) (bit : Nat) : BitVec 32 := readval ^^^ (1#32 <<< bit)

namespace State

def setPc (s : State N) (p : Fin N) (th : Nat) (x : PC N) : State N :=
  { s with pc := Function.update s.pc p (Function.update (s.pc p) th x) }

def setWord (s : State N) (p : Fin N) (word : Fin WORDS) (v : BitVec 32) : State N :=
  { s with
    table := Function.update s.table p
      { s.table p with map := Function.update (s.table p).map word v } }

def setHint (s : State N) (p : Fin N) (n : Nat) : State N :=
  { s with table := Function.update s.table p { s.table p with hint := n } }

/-- A compare-and-swap of an allocation that succeeds. -/
def allocate (s : State N) (p : Fin N) (th : Nat) (word : Fin WORDS) (readval : BitVec 32) :
    State N :=
  let bit := ctz (~~~readval)
  { (s.setWord p word (flip readval bit)).setPc p th (.hint word bit) with
    live := ⟨p, bit + word.val * 32⟩ :: s.live
    made := ⟨p, bit + word.val * 32⟩ :: s.made }

/-- A compare-and-swap of `team_id_free` that succeeds. The team is gone when its leader has
freed it. -/
def release (s : State N) (p : Fin N) (th : Nat) (t : Team N) (readval : BitVec 32) : State N :=
  { (s.setWord p (wordOf (lowBits t.id)) (flip readval (bitOf (lowBits t.id)))).setPc p th
      (.freeHint t) with
    live := if t.leader = p then s.live.erase t else s.live }

end State

inductive Action (N : Nat)
  | alloc (p : Fin N) (th : Nat)
  | read (p : Fin N) (th : Nat)
  | exhausted (p : Fin N) (th : Nat)
  | swap (p : Fin N) (th : Nat)
  | retry (p : Fin N) (th : Nat)
  | hint (p : Fin N) (th : Nat)
  | free (p : Fin N) (th : Nat) (t : Team N)
  | clear (p : Fin N) (th : Nat) (t : Team N)

/-- A thread of the process frees the team. -/
def Frees (s : State N) (p : Fin N) (th : Nat) (t : Team N) : Prop :=
  s.pc p th = .clear t ∨ ∃ readval, s.pc p th = .clearCas t readval

/-- Every process frees a team that it has, the leader a live one and once. A compare-and-swap may
fail for no reason, and a hint may be overwritten by one from an older reading. -/
inductive Step : State N → Action N → State N → Prop
  | alloc {s p th} (hpc : s.pc p th = .idle) :
      Step s (.alloc p th) (s.setPc p th (.scan (s.table p).start 0))
  | full {s p th word i} (hpc : s.pc p th = .scan word i) (hi : i < WORDS)
      (hbit : ctz (~~~(s.table p).map word) = 32) :
      Step s (.read p th) (s.setPc p th (.scan (nextWord word) (i + 1)))
  | found {s p th word i} (hpc : s.pc p th = .scan word i) (hi : i < WORDS)
      (hbit : ctz (~~~(s.table p).map word) ≠ 32) :
      Step s (.read p th) (s.setPc p th (.cas word ((s.table p).map word)))
  | exhausted {s p th word} (hpc : s.pc p th = .scan word WORDS) :
      Step s (.exhausted p th) (s.setPc p th .failed)
  | swap {s p th word readval} (hpc : s.pc p th = .cas word readval)
      (heq : (s.table p).map word = readval) :
      Step s (.swap p th) (s.allocate p th word readval)
  | retry {s p th word readval} (hpc : s.pc p th = .cas word readval) :
      Step s (.retry p th) (s.setPc p th (.scan (s.table p).start 0))
  | hint {s p th word bit} (hpc : s.pc p th = .hint word bit) :
      Step s (.hint p th)
        ((s.setHint p (word.val + if bit = 31 then 1 else 0)).setPc p th .idle)
  | freeOther {s p th t} (hpc : s.pc p th = .idle) (ht : t ∈ s.made) (hp : p.val ≠ owner t.id) :
      Step s (.free p th t) s
  | free {s p th t} (hpc : s.pc p th = .idle) (ht : t ∈ s.made)
      (hlive : t.leader = p → t ∈ s.live ∧ ∀ th', ¬Frees s p th' t) (hp : p.val = owner t.id) :
      Step s (.free p th t) (s.setPc p th (.clear t))
  | clearRead {s p th t} (hpc : s.pc p th = .clear t) :
      Step s (.read p th)
        (s.setPc p th (.clearCas t ((s.table p).map (wordOf (lowBits t.id)))))
  | clear {s p th t readval} (hpc : s.pc p th = .clearCas t readval)
      (heq : (s.table p).map (wordOf (lowBits t.id)) = readval) :
      Step s (.clear p th t) (s.release p th t readval)
  | clearRetry {s p th t readval} (hpc : s.pc p th = .clearCas t readval) :
      Step s (.retry p th) (s.setPc p th (.clear t))
  | freeHint {s p th t} (wrote : Bool) (hpc : s.pc p th = .freeHint t) :
      Step s (.hint p th)
        ((if wrote then s.setHint p ((wordOf (lowBits t.id)).val + 1) else s).setPc p th .idle)

end Gasnet.Coll.TeamId
