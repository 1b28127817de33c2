import Mathlib.Logic.Function.Basic
import Gasnet.Foundation.Run
import Gasnet.Foundation.Credit

/-! Implicit ops: access regions, their aggregate events, and the counters that clear the event
bits. Any number of threads complete operations at any time. -/
namespace Gasnet.Event

/-- The events of an iop, `gasnete_iop_event_*`. -/
inductive Cat
  | put
  | alc
  | get
  | rmw
  deriving DecidableEq

/-- `GASNETI_ATOMIC_MAX` is `2 ^ width - 1`, the initiated counters have `valWidth` bits;
`lc` and `stats` are `GASNETE_HAVE_LC` and `GASNETI_STATS_OR_TRACE`. -/
structure Config where
  width : Nat
  valWidth : Nat
  width_le : width ≤ valWidth
  lc : Bool
  stats : Bool

/-- The categories with counters and an event of their own. -/
def Config.has (cfg : Config) : Cat → Bool
  | .alc => cfg.lc
  | .put | .get | .rmw => true

/-- The counters that `gasnete_iop_new` zeroes when an iop is reused. -/
def Config.resets (cfg : Config) : Cat → Bool
  | .put | .get => cfg.stats
  | .alc | .rmw => false

/-- One category of an iop: its two counters and the live bit of its event. The rest is history:
what was started and finished since the counters were last zeroed, how often that was, the
operations under way, whether the credit of an open region is outstanding, and how often the
bit was armed and cleared. -/
structure Counter where
  initiated : Nat
  completed : Nat
  live : Bool
  started : Nat
  finished : Nat
  resets : Nat
  pending : Nat
  credit : Bool
  armed : Nat
  cleared : Nat

/-- `next` is null in the implicit iop of a thread, the enclosing iop inside a region, and the
iop itself once returned from its region. -/
structure Iop where
  counter : Cat → Counter
  next : Option Nat

/-- A `GASNETE_IOP_CNT_FINISH_REG` between its atomic add and its comparison. Only `completed`,
the value the add returned, is known to the code; the count it stands for is a ghost. -/
structure Finish (T : Type*) where
  owner : T
  iop : Nat
  cat : Cat
  completed : Nat
  count : Nat
  resets : Nat
  deriving DecidableEq

/-- Iops are numbered by the thread that allocated them; iop 0 is the implicit one. `regions`
are the open access regions, innermost first, and `held` the events returned by ended ones and
not yet synced. -/
structure State (T : Type*) where
  iops : T → Nat → Iop
  num : T → Nat
  regions : T → List Nat
  held : T → List Nat
  free : T → List Nat
  foreign : T → List Nat
  finishing : List (Finish T)

variable {T : Type*} [DecidableEq T]

namespace Counter

def zero : Counter := ⟨0, 0, false, 0, 0, 0, 0, false, 0, 0⟩

/-- `GASNETE_IOP_CNT_START`. -/
@[simp] def start (cfg : Config) (n : Nat) (d : Counter) : Counter :=
  { d with
    initiated := (d.initiated + n) % 2 ^ cfg.valWidth
    started := d.started + n
    pending := d.pending + n }

/-- `gasnete_aop_create`: offset the counter and mark the event live. -/
@[simp] def arm (cfg : Config) (d : Counter) : Counter :=
  { d with
    initiated := (d.initiated + 1) % 2 ^ cfg.valWidth
    live := true
    started := d.started + 1
    credit := true
    armed := d.armed + 1 }

/-- The atomic add of a finish. -/
@[simp] def add (cfg : Config) (n : Nat) (d : Counter) : Counter :=
  { d with
    completed := (d.completed + n) % 2 ^ cfg.width
    finished := d.finished + n }

/-- `SET_EVENT_DONE`. -/
@[simp] def setDone (d : Counter) : Counter :=
  { d with live := false, cleared := d.cleared + 1 }

/-- The zeroing in `gasnete_iop_new`. -/
@[simp] def reset (d : Counter) : Counter :=
  { d with initiated := 0, completed := 0, started := 0, finished := 0, resets := d.resets + 1 }

end Counter

inductive Action (T : Type*)
  | begin (t : T)
  | start (t : T) (c : Cat) (n : Nat)
  | pop (t : T)
  | balance (t : T) (k : Nat) (c : Cat)
  | finish (t : T) (k : Nat) (c : Cat) (n : Nat)
  | check (f : Finish T)
  | sync (u t : T) (k : Nat)

namespace State

def counter (s : State T) (t : T) (k : Nat) (c : Cat) : Counter := (s.iops t k).counter c

/-- `thread->current_iop`. -/
def current (s : State T) (t : T) : Nat := (s.regions t).head?.getD 0

@[simp] def setIop (s : State T) (t : T) (k : Nat) (iop : Iop) : State T :=
  { s with iops := Function.update s.iops t (Function.update (s.iops t) k iop) }

@[simp] def setCounter (s : State T) (t : T) (k : Nat) (c : Cat) (d : Counter) : State T :=
  s.setIop t k { s.iops t k with counter := Function.update (s.iops t k).counter c d }

/-- The iop that `gasnete_iop_new` takes: from the free list, else from the list of those freed
by other threads, which becomes the free list, else a new one. -/
def takeIop (s : State T) (t : T) : Nat × State T :=
  match s.free t, s.foreign t with
  | k :: ks, _ => (k, { s with free := Function.update s.free t ks })
  | [], k :: ks =>
    (k, { s with
      free := Function.update s.free t ks
      foreign := Function.update s.foreign t [] })
  | [], [] => (s.num t, { s with num := Function.update s.num t (s.num t + 1) })

/-- Is the iop that `takeIop` takes a used one? -/
def reuses (s : State T) (t : T) : Bool := !(s.free t ++ s.foreign t).isEmpty

/-- The counters of the iop that `gasnete_aop_create` returns. -/
def armed (cfg : Config) (s : State T) (t : T) (k : Nat) (c : Cat) : Counter :=
  let d := s.counter t k c
  let d := if s.reuses t && cfg.resets c then d.reset else d
  if cfg.has c then d.arm cfg else d

/-- `gasnete_begin_nbi_accessregion`. -/
def begin (cfg : Config) (s : State T) (t : T) : State T :=
  let k := (s.takeIop t).1
  let s' := (s.takeIop t).2.setIop t k ⟨s.armed cfg t k, some (s.current t)⟩
  { s' with regions := Function.update s.regions t (k :: s.regions t) }

/-- `gasnete_aop_pop`. -/
def pop (s : State T) (t : T) (k : Nat) (ks : List Nat) : State T :=
  let s' := s.setIop t k { s.iops t k with next := some k }
  { s' with
    regions := Function.update s.regions t ks
    held := Function.update s.held t (k :: s.held t) }

/-- The atomic add of a `GASNETE_IOP_CNT_FINISH_REG`. -/
def finishReg (cfg : Config) (s : State T) (t : T) (k : Nat) (c : Cat) (n : Nat) (d : Counter) :
    State T :=
  let d' := d.add cfg n
  { s.setCounter t k c d' with
    finishing := ⟨t, k, c, d'.completed, d'.finished, d'.resets⟩ :: s.finishing }

/-- One `GASNETE_IOP_CNT_FINISH_REG` of `gasnete_aop_to_event`. -/
def balance (cfg : Config) (s : State T) (t : T) (k : Nat) (c : Cat) : State T :=
  s.finishReg cfg t k c 1 { s.counter t k c with credit := false }

/-- `GASNETE_IOP_CNT_FINISH` for `n` operations. -/
def finish (cfg : Config) (s : State T) (t : T) (k : Nat) (c : Cat) (n : Nat) : State T :=
  let d := s.counter t k c
  let d := { d with pending := d.pending - n }
  match (s.iops t k).next with
  | some _ => s.finishReg cfg t k c n d
  | none => s.setCounter t k c (d.add cfg n)

/-- Does the comparison of a finish hold? -/
def Matches (cfg : Config) (s : State T) (f : Finish T) : Prop :=
  f.completed = (s.counter f.owner f.iop f.cat).initiated % 2 ^ cfg.width

instance (cfg : Config) (s : State T) (f : Finish T) : Decidable (s.Matches cfg f) :=
  inferInstanceAs (Decidable (_ = _))

/-- The comparison of a `GASNETE_IOP_CNT_FINISH_REG`, and what follows it. -/
def check (cfg : Config) (s : State T) (f : Finish T) : State T :=
  let s' := { s with finishing := s.finishing.erase f }
  if s.Matches cfg f then
    s'.setCounter f.owner f.iop f.cat (s.counter f.owner f.iop f.cat).setDone
  else s'

/-- `gasnete_iop_free`, by thread `u`. -/
def sync (s : State T) (u t : T) (k : Nat) : State T :=
  let s' := { s with held := Function.update s.held t ((s.held t).erase k) }
  if u = t then
    { s'.setIop t k { s.iops t k with next := (s.free t).head? } with
      free := Function.update s.free t (k :: s.free t) }
  else
    { s'.setIop t k { s.iops t k with next := (s.foreign t).head? } with
      foreign := Function.update s.foreign t (k :: s.foreign t) }

end State

/-- Before the first region every thread has its implicit iop only. -/
def initial (T : Type*) : State T :=
  ⟨fun _ _ => ⟨fun _ => .zero, none⟩, fun _ => 1, fun _ => [], fun _ => [], fun _ => [],
    fun _ => [], []⟩

/-- Each operation completes at most once; an event is synced once, when its bits are clear. -/
inductive Step (cfg : Config) : State T → Action T → State T → Prop
  | begin {s : State T} {t : T} : Step cfg s (.begin t) (s.begin cfg t)
  | start {s : State T} {t : T} {c : Cat} {n : Nat} (hc : cfg.has c = true) :
      Step cfg s (.start t c n)
        (s.setCounter t (s.current t) c ((s.counter t (s.current t) c).start cfg n))
  | pop {s : State T} {t : T} {k : Nat} {ks : List Nat} (hr : s.regions t = k :: ks) :
      Step cfg s (.pop t) (s.pop t k ks)
  | balance {s : State T} {t : T} {k : Nat} {c : Cat} (hk : k ∈ s.held t)
      (hcredit : (s.counter t k c).credit = true) :
      Step cfg s (.balance t k c) (s.balance cfg t k c)
  | finish {s : State T} {t : T} {k : Nat} {c : Cat} {n : Nat} (hn : 0 < n)
      (hle : n ≤ (s.counter t k c).pending) :
      Step cfg s (.finish t k c n) (s.finish cfg t k c n)
  | check {s : State T} {f : Finish T} (hf : f ∈ s.finishing) :
      Step cfg s (.check f) (s.check cfg f)
  | sync {s : State T} {u t : T} {k : Nat} (hk : k ∈ s.held t)
      (hdone : ∀ c, (s.counter t k c).live = false) : Step cfg s (.sync u t k) (s.sync u t k)

end Gasnet.Event

/-! Each category of an iop is a completion counter. What a reachable state satisfies follows
from that and from where each iop is. -/
namespace Gasnet.Event

variable {T : Type*} [DecidableEq T] {cfg : Config} {s s' : State T} {t u : T} {k l n : Nat}
  {c e : Cat} {d : Counter} {f : Finish T} {a : Action T}

/-- A finish of this category since its counters were last zeroed. -/
def Finish.At (f : Finish T) (t : T) (k : Nat) (c : Cat) (resets : Nat) : Prop :=
  f.owner = t ∧ f.iop = k ∧ f.cat = c ∧ f.resets = resets

instance (f : Finish T) (t : T) (k : Nat) (c : Cat) (resets : Nat) :
    Decidable (f.At t k c resets) :=
  inferInstanceAs (Decidable (_ ∧ _))

/-- The completion counter behind a category of an iop. -/
def State.credit (s : State T) (t : T) (k : Nat) (c : Cat) : Credit :=
  let d := s.counter t k c
  { started := d.started
    finished := d.finished
    flight := (s.finishing.filter fun f => f.At t k c d.resets).map Finish.count
    live := d.live
    armed := d.armed
    cleared := d.cleared }

/-- The counters of the code are those of the completion counter, up to their widths. -/
structure CounterInv (cfg : Config) (d : Counter) : Prop where
  initiated : d.initiated = d.started % 2 ^ cfg.valWidth
  completed : d.completed = d.finished % 2 ^ cfg.width
  balance : d.started = d.finished + d.pending + d.credit.toNat

structure FinishInv (cfg : Config) (s : State T) (f : Finish T) : Prop where
  iop : f.iop ≠ 0
  completed : f.completed = f.count % 2 ^ cfg.width
  resets : f.resets ≤ (s.counter f.owner f.iop f.cat).resets

/-- Where each iop is. -/
structure Lists (s : State T) : Prop where
  nodup : ∀ t, (0 :: (s.regions t ++ s.held t ++ s.free t ++ s.foreign t)).Nodup
  alloc : ∀ t, ∀ k ∈ 0 :: (s.regions t ++ s.held t ++ s.free t ++ s.foreign t), k < s.num t

structure Inv (cfg : Config) (s : State T) : Prop extends Lists s where
  used : ∀ t k, k ∈ s.regions t ∨ k ∈ s.held t → (s.iops t k).next ≠ none
  implicit : ∀ t, (s.iops t 0).next = none
  idle : ∀ t k c, k ∉ s.regions t → k ∉ s.held t → (s.counter t k c).live = false
  inside : ∀ t, ∀ k ∈ s.regions t, ∀ c, cfg.has c = true → (s.counter t k c).credit = true
  counters : ∀ t k c, CounterInv cfg (s.counter t k c)
  finishing : ∀ f ∈ s.finishing, FinishInv cfg s f
  credit : ∀ t k c, k ≠ 0 → (s.credit t k c).Inv

/-- Counters are compared while they are less than a full turn apart and have not been zeroed
since. -/
def InRange (cfg : Config) (s : State T) : Action T → Prop
  | .check f =>
    f.resets = (s.counter f.owner f.iop f.cat).resets ∧
      (s.counter f.owner f.iop f.cat).started < f.count + 2 ^ cfg.width
  | _ => True

/-- A step whose comparison, if it makes one, is in range. -/
def BoundedStep (cfg : Config) (s : State T) (a : Action T) (s' : State T) : Prop :=
  Step cfg s a s' ∧ InRange cfg s a

theorem counter_setCounter (s : State T) (t : T) (k : Nat) (c : Cat) (d : Counter) (u : T)
    (l : Nat) (e : Cat) :
    (s.setCounter t k c d).counter u l e =
      if u = t ∧ l = k ∧ e = c then d else s.counter u l e := by
  by_cases hu : u = t
  · subst hu
    by_cases hl : l = k
    · subst hl
      by_cases he : e = c
      · subst he
        simp [State.counter]
      · simp [State.counter, he]
    · simp [State.counter, hl]
  · simp [State.counter, hu]

theorem next_setCounter (s : State T) (t : T) (k : Nat) (c : Cat) (d : Counter) (u : T) (l : Nat) :
    ((s.setCounter t k c d).iops u l).next = (s.iops u l).next := by
  by_cases hu : u = t
  · subst hu
    by_cases hl : l = k
    · subst hl
      simp
    · simp [hl]
  · simp [hu]

theorem counter_finishReg (cfg : Config) (s : State T) (t : T) (k : Nat) (c : Cat) (n : Nat)
    (d : Counter) (u : T) (l : Nat) (e : Cat) :
    (s.finishReg cfg t k c n d).counter u l e =
      if u = t ∧ l = k ∧ e = c then d.add cfg n else s.counter u l e :=
  counter_setCounter s t k c (d.add cfg n) u l e

theorem counter_pop (s : State T) (t : T) (k : Nat) (ks : List Nat) (u : T) (l : Nat) (e : Cat) :
    (s.pop t k ks).counter u l e = s.counter u l e := by
  by_cases hu : u = t
  · subst hu
    by_cases hl : l = k
    · subst hl
      simp [State.counter, State.pop]
    · simp [State.counter, State.pop, hl]
  · simp [State.counter, State.pop, hu]

theorem counter_sync (s : State T) (u t : T) (k : Nat) (v : T) (l : Nat) (e : Cat) :
    (s.sync u t k).counter v l e = s.counter v l e := by
  unfold State.sync
  split
  all_goals
    by_cases hv : v = t
    · subst hv
      by_cases hl : l = k
      · subst hl
        simp [State.counter]
      · simp [State.counter, hl]
    · simp [State.counter, hv]

theorem takeIop_iops (s : State T) (t : T) : (s.takeIop t).2.iops = s.iops := by
  unfold State.takeIop
  split <;> rfl

theorem takeIop_finishing (s : State T) (t : T) : (s.takeIop t).2.finishing = s.finishing := by
  unfold State.takeIop
  split <;> rfl

theorem counter_begin (cfg : Config) (s : State T) (t u : T) (l : Nat) (e : Cat) :
    (s.begin cfg t).counter u l e =
      if u = t ∧ l = (s.takeIop t).1 then s.armed cfg t l e else s.counter u l e := by
  have htake := takeIop_iops s t
  by_cases hu : u = t
  · subst hu
    by_cases hl : l = (s.takeIop u).1
    · subst hl
      simp only [State.counter, State.begin, State.setIop, Function.update_self, and_self, if_true]
    · simp only [State.counter, State.begin, State.setIop, Function.update_self,
        Function.update_of_ne hl, hl, and_false, if_false, htake]
  · simp only [State.counter, State.begin, State.setIop, Function.update_of_ne hu, hu, false_and,
      if_false, htake]

theorem credit_congr (hd : s'.counter t k c = s.counter t k c)
    (hf : s'.finishing = s.finishing) : s'.credit t k c = s.credit t k c := by
  simp only [State.credit, hd, hf]

/-- What the counter of a category shows to a step of the system. -/
theorem started_eq (hs : Inv cfg s) (hlive : (s.counter t k c).live = false) (hk : k ≠ 0) :
    (s.counter t k c).finished = (s.counter t k c).started ∧
      (s.counter t k c).pending = 0 ∧ (s.counter t k c).credit = false := by
  have hdone : (s.counter t k c).finished = (s.counter t k c).started :=
    ((hs.credit t k c hk).done hlive).1
  have hbal := (hs.counters t k c).balance
  refine ⟨hdone, by omega, ?_⟩
  by_contra hne
  rw [eq_true_of_ne_false hne, Bool.toNat_true] at hbal
  omega

/-- Adding a finish to the list in flight. -/
theorem credit_finish (n : Nat) (d : Counter) (hd : (s.counter t k c).resets = d.resets)
    (hst : (s.counter t k c).started = d.started) (hlive : (s.counter t k c).live = d.live)
    (harm : (s.counter t k c).armed = d.armed) (hclr : (s.counter t k c).cleared = d.cleared) :
    (s.finishReg cfg t k c n d).credit t k c =
      { s.credit t k c with
        finished := d.finished + n
        flight := (d.finished + n) :: (s.credit t k c).flight } := by
  have hc := counter_finishReg cfg s t k c n d t k c
  rw [if_pos ⟨rfl, rfl, rfl⟩] at hc
  simp only [State.credit, hc, Counter.add, hd, hst, hlive, harm, hclr]
  congr 1
  simp [State.finishReg, Finish.At]

theorem credit_finish_other (hne : ¬ (u = t ∧ l = k ∧ e = c)) :
    (s.finishReg cfg t k c n d).credit u l e = s.credit u l e := by
  have hc := counter_finishReg cfg s t k c n d u l e
  rw [if_neg hne] at hc
  have hnot : ¬ (t = u ∧ k = l ∧ c = e ∧ d.resets = (s.counter u l e).resets) :=
    fun h => hne ⟨h.1.symm, h.2.1.symm, h.2.2.1.symm⟩
  simp only [State.credit, hc]
  congr 1
  simp [State.finishReg, Finish.At, hnot]

end Gasnet.Event
