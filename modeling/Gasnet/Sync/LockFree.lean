import Gasnet.Foundation.Total
import Gasnet.Sync.LifoRuns
import Gasnet.Sync.SemaphoreRuns

/-! The calls of the lock-free LIFO do not hold each other up. -/
namespace Gasnet.Lifo

variable {E : Type*} [DecidableEq E] {impl : Impl} {calls : Nat → Call E} {s t : State E} {i j : Nat}
  {a : Action E} {xs : List (Action E)} {link : E → Option E}

/-- The steps that a call has before it at most while the head stays as it is: some more if it has read
another one. -/
def Stage.ahead (head : Option E) (tag : BitVec 64) : Stage E → Nat
  | idle => 7
  | begun => 6
  | pushHead h | popHead h => if head = h then 5 else 9
  | pushTag h v | popTag h v _ => if head = h ∧ tag = v then 4 else 8
  | pushLinked h v => if head = h ∧ tag = v then 3 else 7
  | popNext x v _ _ => if head = some x ∧ tag = v then 3 else 7
  | locked => 5
  | pushWritten | popElem _ => 4
  | popFetched _ _ => 3
  | unlocking _ => 1
  | done _ => 0

theorem ahead_le (head : Option E) (tag : BitVec 64) (g : Stage E) : g.ahead head tag ≤ 9 := by
  cases g <;> simp only [Stage.ahead] <;> first | omega | (split <;> omega)

def State.ahead (s : State E) (i : Nat) : Nat := (s.stage i).ahead s.head s.tag

/-- A step that does not set the head leaves one step less. -/
theorem ahead_step (h : Step impl calls s (.call i) t) (hu : t.updates = s.updates) :
    t.ahead i < s.ahead i ∧ ∀ j, t.ahead j ≤ s.ahead j := by
  have key : ∀ {u : State E} {g : Stage E}, u.head = s.head → u.tag = s.tag → u.stage = s.stage →
      g.ahead s.head s.tag < (s.stage i).ahead s.head s.tag →
      (u.setStage i g).ahead i < s.ahead i ∧ ∀ j, (u.setStage i g).ahead j ≤ s.ahead j := by
    intro u g hhead htag hstage hlt
    simp only [State.ahead, State.setStage, Function.update_apply, hhead, htag, hstage]
    refine ⟨by simpa using hlt, fun j => ?_⟩
    split
    · rename_i hj
      exact hj ▸ hlt.le
    · exact le_rfl
  cases h with
  | pushSwap | popSwap | pushSet | popSet => exact absurd hu (Nat.succ_ne_self _)
  | push hs | pop hs | popBreak hs | lock _ hs | pushWrite hs | popElem hs
  | popNull hs | popFetch hs | unlock hs =>
    refine key rfl rfl rfl ?_
    rw [hs]
    simp only [Stage.ahead]
    first | omega | (split <;> omega)
  | pushHead _ hs =>
    refine key rfl rfl rfl ?_
    rw [hs]
    simp [Stage.ahead]
  | popHead _ hs _ hh | popHeadNull _ hs _ hh =>
    refine key rfl rfl rfl ?_
    rw [hs, hh]
    simp [Stage.ahead]
  | pushTag hs | popTag hs | pushLink hs | popNext hs =>
    refine key rfl rfl rfl ?_
    rw [hs]
    simp only [Stage.ahead, and_true]
    split <;> omega
  | pushRetry hs hne | popRetry hs hne =>
    refine key rfl rfl rfl ?_
    rw [hs]
    simp only [Stage.ahead, if_neg hne]
    omega

/-- Only pushes are where pushes are. -/
def Fits (calls : Nat → Call E) (s : State E) (i : Nat) : Prop :=
  match s.stage i with
  | .pushHead _ | .pushTag _ _ | .pushLinked _ _ => calls i ≠ .pop
  | _ => True

theorem fits_step (h : Step impl calls s a t) (hs : ∀ i, Fits calls s i) (j : Nat) :
    Fits calls t j := by
  have hj := hs j
  have key : ∀ {i : Nat} {u : State E} {g : Stage E}, u.stage = s.stage →
      (∀ v : State E, v.stage i = g → Fits calls v i) → Fits calls (u.setStage i g) j := by
    intro i u g hu hg
    by_cases h : j = i
    · subst h
      exact hg _ (Function.update_self ..)
    · simpa only [Fits, State.setStage, Function.update_of_ne h, hu] using hj
  cases h with
  | write => exact hj
  | @pushHead i _ _ _ _ hc => exact key rfl fun v hv => by simp [Fits, hv, hc]
  | @pushTag i _ hs' =>
    have := hs i
    exact key rfl fun v hv => by simpa [Fits, hv, hs'] using this
  | pushLink _ hc => exact key rfl fun v hv => by simp [Fits, hv, hc]
  | _ => exact key rfl fun v hv => by simp [Fits, hv]

/-- A step of one of the calls `I` that leaves the head as it is, or a write to an element that is not in
use. -/
def IdleStep (calls : Nat → Call E) (I : Finset Nat) (s : State E) (a : Action E) (t : State E) : Prop :=
  Step .cas calls s a t ∧ t.updates = s.updates ∧ ∀ i, a = .call i → i ∈ I

def Action.isCall : Action E → Bool
  | .call _ => true
  | .write _ _ => false

end Gasnet.Lifo

/-! Nor do the calls on a compare-and-swap semaphore. -/
namespace Gasnet.Semaphore.Cas

variable {T : Type*} [DecidableEq T] {w : Nat} {s u : System T (PC w) w} {b : Bool} {t v : T}
  {a : Action T w} {xs : List (Action T w)} {I : Finset T}

/-- The steps that a thread takes at most while the count stays as it is and no call returns. -/
def PC.ahead (count : BitVec w) : PC w → Nat
  | idle => 3
  | read _ _ => 2
  | swap _ old _ => if count = old then 1 else 3

def Action.thread : Action T w → T
  | .begin t _ | .read t | .swap t => t

/-- A read or a swap. -/
def Action.tries : Action T w → Bool
  | .begin _ _ => false
  | _ => true

/-- A step of one of the threads `I` that leaves the count as it is and returns from no call. -/
def IdleStep (b : Bool) (I : Finset T) (s : System T (PC w) w) (a : Action T w)
    (u : System T (PC w) w) : Prop :=
  Step b s a u ∧ a.thread ∈ I ∧ u.count = s.count ∧ ∀ t, u.pc t = .idle → s.pc t = .idle

theorem idleStep_ahead (h : IdleStep b I s a u) :
    (∀ v, (u.pc v).ahead u.count ≤ (s.pc v).ahead s.count) ∧
      (a.tries = true → ∃ v ∈ I, (u.pc v).ahead u.count < (s.pc v).ahead s.count) := by
  obtain ⟨h, hI, hcount, hidle⟩ := h
  have key : ∀ {t : T} {pc : PC w}, t ∈ I → pc.ahead s.count < (s.pc t).ahead s.count →
      (∀ v, ((s.setPc t pc).pc v).ahead s.count ≤ (s.pc v).ahead s.count) ∧
        (a.tries = true → ∃ v ∈ I, ((s.setPc t pc).pc v).ahead s.count < (s.pc v).ahead s.count) := by
    intro t pc ht hlt
    refine ⟨fun v => ?_, fun _ => ⟨t, ht, by simpa using hlt⟩⟩
    rw [System.setPc_pc, Function.update_apply]
    split
    · rename_i hv
      exact hv ▸ hlt.le
    · exact le_rfl
  cases h with
  | add =>
    rw [hcount]
    exact ⟨fun _ => le_rfl, nofun⟩
  | @giveUp t _ _ hpc | @swapUp t _ _ _ hpc | @swapDown t _ _ _ hpc =>
    have hnot := hidle t (Function.update_self ..)
    rw [hpc] at hnot
    cases hnot
  | begin hpc _ | read hpc _ => exact key hI (by simp [hpc, PC.ahead])
  | retry hpc hother => exact key hI (by simp [hpc, PC.ahead, hother])

/-- A thread that is inside a call can always take a step, whatever the others do; and `n` threads together
read and swap at most `3 * n` times before the count changes or a call returns. -/
theorem semaphore_lock_free (b : Bool) (s : System T (PC w) w) :
    (∀ t, s.pc t ≠ .idle → ∃ a u, Action.thread a = t ∧ Step b s a u) ∧
    ∀ I xs u, Run (IdleStep b I) s xs u → xs.countP Action.tries ≤ 3 * I.card := by
  refine ⟨fun t ht => ?_, fun I xs u hrun => ?_⟩
  · cases hpc : s.pc t with
    | idle => exact absurd hpc ht
    | read op retval =>
      cases hg : giveUp s.count op with
      | true => exact ⟨_, _, rfl, .giveUp hpc hg⟩
      | false => exact ⟨_, _, rfl, .read hpc hg⟩
    | swap op old retval =>
      by_cases hsame : s.count = old
      · cases hup : isUp op with
        | true => exact ⟨_, _, rfl, .swapUp hpc hup hsame⟩
        | false => exact ⟨_, _, rfl, .swapDown hpc hup hsame⟩
      · exact ⟨_, _, rfl, .retry hpc hsame⟩
  · refine hrun.countP_le (V := fun s t => (s.pc t).ahead s.count) (fun h => idleStep_ahead h)
      fun s t => ?_
    cases s.pc t <;> simp only [PC.ahead] <;> first | omega | (split <;> omega)

end Gasnet.Semaphore.Cas
