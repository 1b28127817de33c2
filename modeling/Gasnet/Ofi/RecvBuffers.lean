import Mathlib.Logic.Function.Basic
import Gasnet.Foundation.Run
import Gasnet.Foundation.Total

/-! The multi-receive buffers of ofi-conduit: `gasnetc_ofi_am_recv_poll` by any number of threads,
for the buffers of one endpoint. -/
namespace Gasnet.Ofi

/-- A `gasnetc_ofi_recv_ctxt_t`, and how often its buffer is posted at the provider. The last six
are history: completions of this posting, completions read, handlers counted, completions read at
the last release, releases and reposts. -/
structure RecvCtxt where
  eventCntr : Nat
  finalCntr : Nat
  consumedCntr : Nat
  posted : Nat
  inPosting : Nat
  read : Nat
  consumed : Nat
  final : Nat
  releases : Nat
  reposts : Nat

namespace RecvCtxt

def initial : RecvCtxt := ⟨0, 0, 0, 1, 0, 0, 0, 0, 0, 0⟩

/-- A completion is read under the lock. With `FI_MULTI_RECV` the provider releases the buffer. -/
def complete (x : RecvCtxt) (multiRecv : Bool) : RecvCtxt where
  eventCntr := (x.eventCntr + 1) % 2 ^ 64
  finalCntr := if multiRecv then (x.eventCntr + 1) % 2 ^ 64 else x.finalCntr
  consumedCntr := x.consumedCntr
  posted := if multiRecv then x.posted - 1 else x.posted
  inPosting := x.inPosting + 1
  read := x.read + 1
  consumed := x.consumed
  final := if multiRecv then x.read + 1 else x.final
  releases := if multiRecv then x.releases + 1 else x.releases
  reposts := x.reposts

/-- `gasnetc_paratomic_add`. -/
def add (x : RecvCtxt) : RecvCtxt :=
  { x with consumedCntr := (x.consumedCntr + 1) % 2 ^ 32, consumed := x.consumed + 1 }

/-- `fi_recvmsg` succeeds. -/
def post (x : RecvCtxt) : RecvCtxt :=
  { x with posted := x.posted + 1, inPosting := 0, reposts := x.reposts + 1 }

end RecvCtxt

/-- Where a thread is: in the handler of a message in `b`, after it, after it was counted as the
`nth` (history) with the value `consumed`, about to repost `b`, refused with `FI_EAGAIN`, or walking
the list of buffers to retry, `kept` of which were refused again. -/
inductive PC (B : Type*)
  | idle
  | handling (b : B)
  | finished (b : B)
  | added (b : B) (consumed nth : Nat)
  | repost (b : B)
  | refused (b : B)
  | retrying (kept rest : List B)

variable {T B : Type*} [DecidableEq T] [DecidableEq B]

structure State (T B : Type*) where
  pc : T → PC B
  ctxt : B → RecvCtxt
  buffsToRetry : List B
  lock : Option T

def initial : State T B := ⟨fun _ => .idle, fun _ => .initial, [], none⟩

/-- The counts match: `(GASNETI_ATOMIC_MAX & final_cntr) == consumed`. -/
def countersMatch (x : RecvCtxt) (consumed : Nat) : Bool := x.finalCntr % 2 ^ 32 == consumed

/-- A step of a thread. The provider reports a completion of a buffer only while that is posted,
fewer than `2 ^ 32` in a posting, and nothing of it after `FI_MULTI_RECV`. -/
inductive Step : State T B → T → State T B → Prop
  | read {s : State T B} {t : T} {b : B} {recv multiRecv : Bool} (hpc : s.pc t = .idle)
      (hlock : s.lock = none) (hposted : 0 < (s.ctxt b).posted)
      (hfew : (s.ctxt b).inPosting + 1 < 2 ^ 32) (hflag : recv = true ∨ multiRecv = true) :
      Step s t ⟨Function.update s.pc t (if recv then .handling b else .finished b),
        Function.update s.ctxt b ((s.ctxt b).complete multiRecv), s.buffsToRetry, s.lock⟩
  | handled {s : State T B} {t : T} {b : B} (hpc : s.pc t = .handling b) :
      Step s t ⟨Function.update s.pc t (.finished b), s.ctxt, s.buffsToRetry, s.lock⟩
  | add {s : State T B} {t : T} {b : B} (hpc : s.pc t = .finished b) :
      Step s t ⟨Function.update s.pc t
          (.added b (((s.ctxt b).consumedCntr + 1) % 2 ^ 32) ((s.ctxt b).consumed + 1)),
        Function.update s.ctxt b (s.ctxt b).add, s.buffsToRetry, s.lock⟩
  | check {s : State T B} {t : T} {b : B} {consumed nth : Nat}
      (hpc : s.pc t = .added b consumed nth) :
      Step s t ⟨Function.update s.pc t
          (if countersMatch (s.ctxt b) consumed then .repost b else .idle),
        s.ctxt, s.buffsToRetry, s.lock⟩
  | post {s : State T B} {t : T} {b : B} (hpc : s.pc t = .repost b) :
      Step s t ⟨Function.update s.pc t .idle, Function.update s.ctxt b (s.ctxt b).post,
        s.buffsToRetry, s.lock⟩
  | refuse {s : State T B} {t : T} {b : B} (hpc : s.pc t = .repost b) :
      Step s t ⟨Function.update s.pc t (.refused b), s.ctxt, s.buffsToRetry, s.lock⟩
  | keep {s : State T B} {t : T} {b : B} (hpc : s.pc t = .refused b) (hlock : s.lock = none) :
      Step s t ⟨Function.update s.pc t .idle, s.ctxt, b :: s.buffsToRetry, s.lock⟩
  | retry {s : State T B} {t : T} (hpc : s.pc t = .idle) (hlock : s.lock = none) :
      Step s t ⟨Function.update s.pc t (.retrying [] s.buffsToRetry), s.ctxt, s.buffsToRetry,
        some t⟩
  | retryPost {s : State T B} {t : T} {b : B} {kept rest : List B}
      (hpc : s.pc t = .retrying kept (b :: rest)) :
      Step s t ⟨Function.update s.pc t (.retrying kept rest),
        Function.update s.ctxt b (s.ctxt b).post, kept ++ rest, s.lock⟩
  | retryRefuse {s : State T B} {t : T} {b : B} {kept rest : List B}
      (hpc : s.pc t = .retrying kept (b :: rest)) :
      Step s t ⟨Function.update s.pc t (.retrying (kept ++ [b]) rest), s.ctxt, s.buffsToRetry,
        s.lock⟩
  | retryEnd {s : State T B} {t : T} {kept : List B} (hpc : s.pc t = .retrying kept []) :
      Step s t ⟨Function.update s.pc t .idle, s.ctxt, s.buffsToRetry, none⟩

/-- A thread reads `final_cntr` before it is `2 ^ 32` completions past the thread's own. -/
def Timely (s : State T B) (t : T) : Prop :=
  ∀ b consumed nth, s.pc t = .added b consumed nth → (s.ctxt b).final < nth + 2 ^ 32

def SafeStep (s : State T B) (t : T) (u : State T B) : Prop := Step s t u ∧ Timely s t

end Gasnet.Ofi

/-! What the counters of a buffer say about its threads. While it is posted all that was counted at
its last release has been counted since; once it is released, the thread that is counted last finds
its count. -/
namespace Gasnet.Ofi

variable {T B : Type*} [Fintype T] [DecidableEq T] [DecidableEq B] {s u : State T B} {t : T}
  {b c : B} {p : PC B} {pc : T → PC B} {n v w : Nat} {x : RecvCtxt}

/-- A completion of `b` that is not counted yet. -/
def PC.holds (b : B) : PC B → Int
  | .handling c | .finished c => if c = b then 1 else 0
  | _ => 0

/-- Counted as the `nth` and not compared yet. -/
def PC.waits (b : B) (nth : Nat) : PC B → Int
  | .added c _ v => if c = b ∧ v = nth then 1 else 0
  | _ => 0

/-- About to repost `b`, or to keep it for a retry. -/
def PC.reposts (b : B) : PC B → Int
  | .repost c | .refused c => if c = b then 1 else 0
  | _ => 0

/-- The thread is at work for `b`. -/
def PC.Concerns (b : B) : PC B → Prop
  | .handling c | .finished c | .added c _ _ | .repost c | .refused c => c = b
  | .idle | .retrying _ _ => False

omit [DecidableEq T] [Fintype T] in
theorem weights_of_not_concerns (h : ¬p.Concerns b) :
    p.holds b = 0 ∧ p.reposts b = 0 ∧ ∀ v, p.waits b v = 0 := by
  cases p with
  | idle | retrying => exact ⟨rfl, rfl, fun _ => rfl⟩
  | handling c | finished c => exact ⟨if_neg h, rfl, fun _ => rfl⟩
  | added c k v => exact ⟨rfl, rfl, fun w => if_neg fun hc => h hc.1⟩
  | repost c | refused c => exact ⟨rfl, if_neg h, fun _ => rfl⟩

/-- Reposts that are due: by threads, and in the list of buffers to retry. -/
def due (pc : T → PC B) (n : Nat) (b : B) : Int := total (PC.reposts b) pc + n

/-- The state of one buffer, `n` times in the list. -/
structure CtxtInv (pc : T → PC B) (n : Nat) (x : RecvCtxt) (b : B) : Prop where
  event : x.eventCntr = x.read % 2 ^ 64
  finalCntr : x.finalCntr = x.final % 2 ^ 64
  consumedCntr : x.consumedCntr = x.consumed % 2 ^ 32
  balance : x.posted + x.releases = x.reposts + 1
  once : x.posted + due pc n b ≤ 1
  released : x.posted = 0 → x.read = x.final
  posting : x.posted ≠ 0 → x.read = x.final + x.inPosting ∧ x.inPosting < 2 ^ 32
  le : x.final ≤ x.read
  holding : total (PC.holds b) pc + x.consumed = x.read
  caught : x.posted + due pc n b = 1 → x.final ≤ x.consumed
  nth : ∀ t consumed nth, pc t = .added b consumed nth →
    nth ≤ x.consumed ∧ consumed = nth % 2 ^ 32
  last : total (PC.waits b x.final) pc =
    if x.posted + due pc n b = 0 ∧ x.consumed = x.final then 1 else 0

omit [DecidableEq B] [Fintype T] in
theorem added_of_update {t v : T} {k nth : Nat} (hp : p ≠ .added b k nth)
    (h : Function.update pc t p v = .added b k nth) : pc v = .added b k nth := by
  by_cases hv : v = t
  · subst hv
    rw [Function.update_self] at h
    exact absurd h hp
  · rwa [Function.update_of_ne hv] at h

theorem due_update : due (Function.update pc t p) n b =
    due pc n b - (pc t).reposts b + p.reposts b := by
  simp only [due, total_update]
  omega

omit [DecidableEq T] [Fintype T] in
theorem weights_nonneg (b : B) (p : PC B) : 0 ≤ p.holds b ∧ 0 ≤ p.reposts b := by
  cases p with
  | idle | retrying | added => exact ⟨Int.le_refl _, Int.le_refl _⟩
  | handling c | finished c | repost c | refused c =>
    simp only [PC.holds, PC.reposts]
    constructor <;> first | exact Int.le_refl _ | (split <;> decide)

omit [DecidableEq T] [Fintype T] in
theorem waits_nonneg (b : B) (v : Nat) (p : PC B) : 0 ≤ p.waits b v := by
  cases p with
  | added c k nth =>
    simp only [PC.waits]
    split <;> decide
  | _ => exact Int.le_refl _

omit [DecidableEq T] in
theorem due_nonneg (pc : T → PC B) (n : Nat) (b : B) : 0 ≤ due pc n b := by
  have hnonneg : 0 ≤ total (PC.reposts b) pc := total_nonneg fun t => (weights_nonneg b (pc t)).2
  unfold due
  omega

omit [DecidableEq T] in
/-- Completions that are not counted are no more than those read. -/
theorem CtxtInv.consumed_le (h : CtxtInv pc n x b) : x.consumed ≤ x.read := by
  have hnonneg : 0 ≤ total (PC.holds b) pc := total_nonneg fun t => (weights_nonneg b (pc t)).1
  have := h.holding
  omega

omit [DecidableEq T] in
/-- No thread waits with a count that was not reached. -/
theorem CtxtInv.waits_eq_zero (h : CtxtInv pc n x b) (hv : x.consumed < v) :
    total (PC.waits b v) pc = 0 := by
  refine total_eq_zero fun t => ?_
  cases hpc : pc t with
  | added c k nth =>
    refine if_neg fun hc => ?_
    obtain ⟨rfl, rfl⟩ := hc
    have := (h.nth t k nth hpc).1
    omega
  | _ => rfl

omit [DecidableEq T] in
/-- The counters stay, and so does what is due of them. -/
theorem CtxtInv.congr {m : Nat} {pc' : T → PC B} (h : CtxtInv pc n x b)
    (hdue : due pc' m b = due pc n b)
    (hhold : total (PC.holds b) pc' = total (PC.holds b) pc)
    (hwait : total (PC.waits b x.final) pc' = total (PC.waits b x.final) pc)
    (hnth : ∀ t k nth, pc' t = .added b k nth → pc t = .added b k nth) : CtxtInv pc' m x b := by
  refine ⟨h.event, h.finalCntr, h.consumedCntr, h.balance, ?_, h.released, h.posting, h.le, ?_, ?_,
    fun t k nth ht => h.nth t k nth (hnth t k nth ht), ?_⟩
  · rw [hdue]
    exact h.once
  · rw [hhold]
    exact h.holding
  · rw [hdue]
    exact h.caught
  · rw [hdue, hwait]
    exact h.last

/-- A step that has nothing to do with a buffer. -/
theorem CtxtInv.other (h : CtxtInv pc n x b) (hold : ¬(pc t).Concerns b) (hnew : ¬p.Concerns b) :
    CtxtInv (Function.update pc t p) n x b := by
  obtain ⟨hh, hr, hw⟩ := weights_of_not_concerns hold
  obtain ⟨hh', hr', hw'⟩ := weights_of_not_concerns hnew
  refine h.congr ?_ ?_ ?_
    fun v k nth hv => added_of_update (fun he => hnew (by rw [he]; rfl)) hv
  · rw [due_update, hr, hr']
    omega
  · rw [total_update, hh, hh']
    omega
  · rw [total_update, hw, hw']
    omega

/-- A thread goes on with the same weights: its handler is over, or it is refused. -/
theorem CtxtInv.same (h : CtxtInv pc n x b) (hhold : p.holds b = (pc t).holds b)
    (hrep : p.reposts b = (pc t).reposts b) (hwait : ∀ v, p.waits b v = (pc t).waits b v)
    (hne : ∀ k nth, p ≠ .added b k nth) : CtxtInv (Function.update pc t p) n x b := by
  refine h.congr ?_ ?_ ?_ fun v k nth hv => added_of_update (hne k nth) hv
  · rw [due_update, hrep]
    omega
  · rw [total_update, hhold]
    omega
  · rw [total_update, hwait]
    omega

/-- A completion is read. -/
theorem CtxtInv.read (h : CtxtInv pc n x b) {multiRecv : Bool} (hpc : pc t = .idle)
    (hp : p = .handling b ∨ p = .finished b) (hposted : 0 < x.posted)
    (hfew : x.inPosting + 1 < 2 ^ 32) :
    CtxtInv (Function.update pc t p) n (x.complete multiRecv) b := by
  have hhold : p.holds b = 1 := by obtain rfl | rfl := hp <;> exact if_pos rfl
  have hrep : p.reposts b = 0 := by obtain rfl | rfl := hp <;> rfl
  have hwait : ∀ v, p.waits b v = 0 := by obtain rfl | rfl := hp <;> exact fun _ => rfl
  have hne : ∀ k nth, p ≠ .added b k nth := by obtain rfl | rfl := hp <;> exact fun _ _ => nofun
  have hdue : due (Function.update pc t p) n b = due pc n b := by
    rw [due_update, hpc, hrep]
    exact Int.sub_zero _ |>.symm ▸ Int.add_zero _
  have hnonneg := due_nonneg pc n b
  have hconsumed := h.consumed_le
  have hevent : (x.eventCntr + 1) % 2 ^ 64 = (x.read + 1) % 2 ^ 64 := by
    rw [h.event]
    omega
  have hholding : total (PC.holds b) (Function.update pc t p) + x.consumed = (x.read + 1 : Nat) := by
    rw [total_update, hpc, hhold]
    have := h.holding
    simp only [PC.holds]
    omega
  have hnth : ∀ v k nth, Function.update pc t p v = .added b k nth →
      nth ≤ x.consumed ∧ k = nth % 2 ^ 32 :=
    fun v k nth hv => h.nth v k nth (added_of_update (hne k nth) hv)
  have honce := h.once
  have hbal := h.balance
  have hle := h.le
  cases multiRecv with
  | true =>
    refine ⟨hevent, hevent, h.consumedCntr, ?_, ?_, fun _ => rfl, fun hne => ?_, Nat.le_refl _,
      hholding, fun hone => ?_, hnth, ?_⟩
    · show x.posted - 1 + (x.releases + 1) = x.reposts + 1
      omega
    · rw [hdue]
      show ((x.posted - 1 : Nat) : Int) + _ ≤ 1
      omega
    · have hzero : x.posted - 1 = 0 := by omega
      exact absurd hzero hne
    · rw [hdue] at hone
      have hone : ((x.posted - 1 : Nat) : Int) + due pc n b = 1 := hone
      omega
    · rw [if_neg]
      · show total (PC.waits b (x.read + 1)) _ = 0
        rw [total_update, hpc, hwait, h.waits_eq_zero (by omega)]
        rfl
      · rintro ⟨-, heq⟩
        have heq : x.consumed = x.read + 1 := heq
        omega
  | false =>
    have hposting := h.posting (by omega)
    refine ⟨hevent, h.finalCntr, h.consumedCntr, hbal, ?_, fun hzero => ?_, fun _ => ⟨?_, hfew⟩, ?_,
      hholding, ?_, hnth, ?_⟩
    · rw [hdue]
      exact honce
    · have hzero : x.posted = 0 := hzero
      omega
    · show x.read + 1 = x.final + (x.inPosting + 1)
      omega
    · show x.final ≤ x.read + 1
      omega
    · rw [hdue]
      exact h.caught
    · rw [hdue, total_update, hpc, hwait]
      have hlast := h.last
      show total (PC.waits b x.final) pc - 0 + 0 = _
      rw [Int.sub_zero, Int.add_zero]
      exact hlast

/-- A completion is counted. The last one of a released buffer waits with its final count. -/
theorem CtxtInv.add (h : CtxtInv pc n x b) (hpc : pc t = .finished b) :
    CtxtInv (Function.update pc t
      (.added b ((x.consumedCntr + 1) % 2 ^ 32) (x.consumed + 1))) n x.add b := by
  have hdue : due (Function.update pc t
      (.added b ((x.consumedCntr + 1) % 2 ^ 32) (x.consumed + 1))) n b = due pc n b := by
    rw [due_update, hpc]
    simp [PC.reposts]
  have hcount : (x.consumedCntr + 1) % 2 ^ 32 = (x.consumed + 1) % 2 ^ 32 := by
    rw [h.consumedCntr]
    omega
  have hholding := h.holding
  have hlast := h.last
  have honce := h.once
  have hle := h.le
  have hheld : (1 : Int) ≤ total (PC.holds b) pc := by
    have hle := le_total (w := PC.holds b) (f := pc) (fun v => (weights_nonneg b (pc v)).1) t
    rw [hpc] at hle
    simpa [PC.holds] using hle
  refine ⟨h.event, h.finalCntr, hcount, h.balance, ?_, h.released, h.posting, h.le, ?_, ?_,
    fun v k nth hv => ?_, ?_⟩
  · rw [hdue]
    exact h.once
  · rw [total_update, hpc]
    show total (PC.holds b) pc - PC.holds b (.finished b) + 0 + (x.consumed + 1 : Nat) = x.read
    simp only [PC.holds, if_true]
    omega
  · rw [hdue]
    intro hone
    have := h.caught hone
    show x.final ≤ x.consumed + 1
    omega
  · by_cases hvt : v = t
    · subst hvt
      rw [Function.update_self] at hv
      cases hv
      exact ⟨Nat.le_refl _, hcount⟩
    · rw [Function.update_of_ne hvt] at hv
      have := h.nth v k nth hv
      exact ⟨Nat.le_succ_of_le this.1, this.2⟩
  · rw [hdue, total_update, hpc]
    show total (PC.waits b x.final) pc - 0 + (if b = b ∧ x.consumed + 1 = x.final then 1 else 0) =
      if x.posted + due pc n b = 0 ∧ x.consumed + 1 = x.final then 1 else 0
    have hnonneg := due_nonneg pc n b
    by_cases hopen : x.posted + due pc n b = 0
    · have hzero : x.posted = 0 := by omega
      have hread := h.released hzero
      have hnot : x.consumed ≠ x.final := by omega
      rw [if_neg (fun hc => hnot hc.2)] at hlast
      simp only [hlast, hopen, true_and]
      omega
    · have hcaught := h.caught (by omega)
      rw [if_neg (fun hc => hopen hc.1)] at hlast
      rw [if_neg (by omega), if_neg (fun hc => hopen hc.1)]
      omega

omit [DecidableEq T] in
/-- The counts match for the thread that was counted last, and for no other. -/
theorem CtxtInv.matches_iff (h : CtxtInv pc n x b) {k nth : Nat} (hpc : pc t = .added b k nth)
    (htimely : x.final < nth + 2 ^ 32) : countersMatch x k = true ↔ nth = x.final := by
  obtain ⟨hle, hk⟩ := h.nth t k nth hpc
  have hconsumed := h.consumed_le
  have hread := h.le
  rw [countersMatch, beq_iff_eq, h.finalCntr, hk]
  constructor
  · intro heq
    by_cases hposted : x.posted = 0
    · have := h.released hposted
      omega
    · have := h.posting hposted
      omega
  · rintro rfl
    omega

/-- The thread that was counted last is to repost the buffer. -/
theorem CtxtInv.claim (h : CtxtInv pc n x b) {k : Nat} (hpc : pc t = .added b k x.final) :
    CtxtInv (Function.update pc t (.repost b)) n x b := by
  have hwaits : (1 : Int) ≤ total (PC.waits b x.final) pc := by
    have hle := le_total (w := PC.waits b x.final) (f := pc)
      (fun v => waits_nonneg b x.final (pc v)) t
    rw [hpc] at hle
    simpa [PC.waits] using hle
  have hlast := h.last
  have hopen : x.posted + due pc n b = 0 ∧ x.consumed = x.final := by
    by_contra hnot
    rw [if_neg hnot] at hlast
    omega
  rw [if_pos hopen] at hlast
  have hdue : due (Function.update pc t (.repost b)) n b = due pc n b + 1 := by
    rw [due_update, hpc]
    simp [PC.reposts]
  have hholding := h.holding
  have hnonneg := due_nonneg pc n b
  refine ⟨h.event, h.finalCntr, h.consumedCntr, h.balance, ?_, h.released, h.posting, h.le, ?_,
    fun _ => hopen.2.ge,
    fun v k nth hv => h.nth v k nth (added_of_update (p := .repost b) nofun hv), ?_⟩
  · rw [hdue]
    omega
  · rw [total_update, hpc]
    simp only [PC.holds]
    omega
  · rw [hdue, total_update, hpc, if_neg (by omega)]
    simp only [PC.waits, and_self, if_true]
    omega

/-- A thread that was not counted last has nothing more to do. -/
theorem CtxtInv.pass (h : CtxtInv pc n x b) {k nth : Nat} (hpc : pc t = .added b k nth)
    (hne : nth ≠ x.final) : CtxtInv (Function.update pc t .idle) n x b := by
  refine h.congr ?_ ?_ ?_ fun v k nth hv => added_of_update (p := .idle) nofun hv
  · rw [due_update, hpc]
    simp [PC.reposts]
  · rw [total_update, hpc]
    simp only [PC.holds]
    omega
  · rw [total_update, hpc]
    simp only [PC.waits]
    omega

omit [DecidableEq T] in
/-- One of the reposts that are due goes out. -/
theorem CtxtInv.post {m : Nat} {pc' : T → PC B} (h : CtxtInv pc n x b)
    (hdue : due pc' m b + 1 = due pc n b)
    (hhold : total (PC.holds b) pc' = total (PC.holds b) pc)
    (hwait : total (PC.waits b x.final) pc' = total (PC.waits b x.final) pc)
    (hnth : ∀ t k nth, pc' t = .added b k nth → pc t = .added b k nth) :
    CtxtInv pc' m x.post b := by
  have hnonneg := due_nonneg pc' m b
  have honce := h.once
  have hzero : x.posted = 0 := by omega
  have hcaught := h.caught (by omega)
  have hread := h.released hzero
  have hbal := h.balance
  have hlast := h.last
  refine ⟨h.event, h.finalCntr, h.consumedCntr, ?_, ?_, nofun, fun _ => ⟨hread, Nat.two_pow_pos 32⟩,
    h.le, ?_,
    fun _ => hcaught, fun t k nth ht => h.nth t k nth (hnth t k nth ht), ?_⟩
  · show x.posted + 1 + x.releases = x.reposts + 1 + 1
    omega
  · show ((x.posted + 1 : Nat) : Int) + _ ≤ 1
    omega
  · rw [hhold]
    exact h.holding
  · rw [if_neg (by omega)] at hlast
    show total (PC.waits b x.final) pc' = _
    rw [hwait, hlast, if_neg]
    rintro ⟨hopen, -⟩
    have hopen : ((x.posted + 1 : Nat) : Int) + due pc' m b = 0 := hopen
    omega

end Gasnet.Ofi
