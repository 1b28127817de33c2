import Gasnet.Sync.Semaphore

/-! The semaphores that use compare-and-swap. A down reads the count, and lowers it if it has not
changed since, or else begins again. -/
namespace Gasnet.Semaphore.Cas

variable {T : Type*} [DecidableEq T] {w : Nat}

/-- Where a thread is. `retval` is what the local variable has. -/
inductive PC (w : Nat)
  | idle
  | read (op : Op w) (retval : BitVec w)
  | swap (op : Op w) (old retval : BitVec w)
deriving DecidableEq

/-- The count that was read is not enough. -/
def giveUp (old : BitVec w) : Op w → Bool
  | .trydown => old == 0
  | .trydownPartial _ => old == 0
  | .trydownN n => old < n
  | .up | .upN _ => false

/-- What is returned then; `trydownPartial` returns what its variable has. -/
def giveUpReturns (retval : BitVec w) : Op w → Int
  | .trydownPartial _ => retval.toNat
  | _ => 0

/-- By how much the count that was read is to change. -/
def amount (old : BitVec w) : Op w → BitVec w
  | .up => 1
  | .upN n => n
  | .trydown => 1
  | .trydownPartial n => if old < n then old else n
  | .trydownN n => n

/-- The calls that are one atomic operation: increments, and additions where there are some. -/
def direct (hasAddSub : Bool) : Op w → Bool
  | .up => true
  | .upN _ => hasAddSub
  | _ => false

def isUp : Op w → Bool
  | .up | .upN _ => true
  | _ => false

inductive Action (T : Type*) (w : Nat)
  | begin (t : T) (op : Op w)
  | read (t : T)
  | swap (t : T)

inductive Step (hasAddSub : Bool) :
    System T (PC w) w → Action T w → System T (PC w) w → Prop
  | add {s : System T (PC w) w} {t : T} {op : Op w} (hpc : s.pc t = .idle)
      (hop : direct hasAddSub op = true) :
      Step hasAddSub s (.begin t op) ((s.setCount (s.count + amount s.count op)).addUps op.ups)
  | begin {s : System T (PC w) w} {t : T} {op : Op w} (hpc : s.pc t = .idle)
      (hop : direct hasAddSub op = false) :
      Step hasAddSub s (.begin t op) (s.setPc t (.read op 0))
  | read {s : System T (PC w) w} {t : T} {op : Op w} {retval : BitVec w}
      (hpc : s.pc t = .read op retval) (henough : giveUp s.count op = false) :
      Step hasAddSub s (.read t) (s.setPc t (.swap op s.count (amount s.count op)))
  | giveUp {s : System T (PC w) w} {t : T} {op : Op w} {retval : BitVec w}
      (hpc : s.pc t = .read op retval) (hgive : giveUp s.count op = true) :
      Step hasAddSub s (.read t)
        ((s.setPc t .idle).finish ⟨op, giveUpReturns retval op, 0⟩)
  | swapUp {s : System T (PC w) w} {t : T} {op : Op w} {old retval : BitVec w}
      (hpc : s.pc t = .swap op old retval) (hup : isUp op = true) (hsame : s.count = old) :
      Step hasAddSub s (.swap t) (((s.setPc t .idle).setCount (old + retval)).addUps op.ups)
  | swapDown {s : System T (PC w) w} {t : T} {op : Op w} {old retval : BitVec w}
      (hpc : s.pc t = .swap op old retval) (hup : isUp op = false) (hsame : s.count = old) :
      Step hasAddSub s (.swap t)
        (((s.setPc t .idle).setCount (old - retval)).finish ⟨op, retval.toNat, retval.toNat⟩)
  | retry {s : System T (PC w) w} {t : T} {op : Op w} {old retval : BitVec w}
      (hpc : s.pc t = .swap op old retval) (hother : s.count ≠ old) :
      Step hasAddSub s (.swap t) (s.setPc t (.read op retval))

/-- The value has room for an up, and no `trydownPartial` that has tried before finds nothing. -/
def Safe (init : Nat) (s : System T (PC w) w) : Action T w → Prop
  | .begin _ op => s.Room (2 ^ w - 1) init op
  | .read t => ∀ n retval, s.pc t = .read (.trydownPartial n) retval → s.count = 0 → retval = 0
  | .swap t => ∀ op old retval, s.pc t = .swap op old retval → isUp op = true →
      s.Room (2 ^ w - 1) init op

/-- What holds of a thread by itself. -/
def PC.Ok : PC w → Prop
  | .swap op old retval => retval = amount old op ∧ giveUp old op = false
  | _ => True

structure Inv (init : Nat) (s : System T (PC w) w) : Prop where
  value : (s.count.toNat : Int) + returned s.done = init + s.ups
  pcs : ∀ t, (s.pc t).Ok
  calls : ∀ c ∈ s.done, c.Ok

variable {s u : System T (PC w) w} {a : Action T w} {init : Nat} {b : Bool} {t : T} {pc : PC w}

theorem pcs_setPc (h : ∀ t, (s.pc t).Ok) (hpc : pc.Ok) : ∀ v, ((s.setPc t pc).pc v).Ok := by
  intro v
  rw [System.setPc_pc, Function.update_apply]
  split
  · exact hpc
  · exact h v

omit [DecidableEq T] in
theorem toNat_add (h : Inv init s) {op : Op w} (hroom : s.Room (2 ^ w - 1) init op)
    (hup : isUp op = true) (hw : 0 < w) :
    ((s.count + amount s.count op).toNat : Int) = s.count.toNat + op.ups := by
  have hv := h.value
  unfold System.Room at hroom
  have hpow := Nat.two_pow_pos w
  have hamount : (amount s.count op).toNat = op.ups := by
    cases op with
    | up =>
      have : 1 < 2 ^ w := Nat.one_lt_two_pow (by omega)
      simp [amount, Op.ups, Nat.mod_eq_of_lt this]
    | upN n => rfl
    | trydown | trydownPartial _ | trydownN _ => simp [isUp] at hup
  rw [BitVec.toNat_add, hamount, Nat.mod_eq_of_lt (by omega)]
  omega

theorem amount_le {old : BitVec w} {op : Op w} (hup : isUp op = false)
    (hgive : giveUp old op = false) (hw : 0 < w) : (amount old op).toNat ≤ old.toNat := by
  cases op with
  | up | upN _ => simp [isUp] at hup
  | trydown =>
    have : 1 < 2 ^ w := Nat.one_lt_two_pow (by omega)
    have hne : old.toNat ≠ 0 := fun h0 => by
      have : old = 0 := BitVec.eq_of_toNat_eq (by simpa using h0)
      simp [giveUp, this] at hgive
    simp only [amount]
    rw [show (1 : BitVec w).toNat = 1 by simp [Nat.mod_eq_of_lt this]]
    omega
  | trydownPartial n =>
    simp only [amount, BitVec.lt_def]
    split <;> omega
  | trydownN n =>
    simp only [giveUp, decide_eq_false_iff_not, BitVec.lt_def] at hgive
    simp only [amount]
    omega

theorem call_ok {old : BitVec w} {op : Op w} (hw : 0 < w) :
    (⟨op, (amount old op).toNat, (amount old op).toNat⟩ : Call w).Ok := by
  cases op with
  | up | upN _ => trivial
  | trydown =>
    have : 1 < 2 ^ w := Nat.one_lt_two_pow (by omega)
    exact .inr (by simp [amount, Nat.mod_eq_of_lt this])
  | trydownPartial n =>
    refine ⟨Int.natCast_nonneg _, ?_, Int.le_refl _⟩
    simp only [amount, BitVec.lt_def]
    split <;> omega
  | trydownN n => exact .inr ⟨rfl, rfl⟩

theorem inv_step (hw : 0 < w) (hs : Step b s a u) (hsafe : Safe init s a) (h : Inv init s) :
    Inv init u := by
  have hv := h.value
  cases hs with
  | @add t op hpc hop =>
    have hup : isUp op = true := by cases op <;> simp [direct, isUp] at hop ⊢
    refine ⟨?_, h.pcs, h.calls⟩
    have := toNat_add h hsafe hup hw
    simp only [System.addUps_count, System.setCount_count, System.addUps_done,
      System.setCount_done, System.addUps_ups, System.setCount_ups]
    omega
  | begin hpc hop => exact ⟨hv, pcs_setPc h.pcs trivial, h.calls⟩
  | read hpc henough => exact ⟨hv, pcs_setPc h.pcs ⟨rfl, henough⟩, h.calls⟩
  | @giveUp t op retval hpc hgive =>
    have hzero : giveUpReturns retval op = 0 := by
      cases op with
      | trydownPartial n =>
        have hnone : s.count = 0 := by simpa [giveUp] using hgive
        simp [giveUpReturns, hsafe n retval hpc hnone]
      | up | upN _ | trydown | trydownN _ => rfl
    refine ⟨?_, pcs_setPc h.pcs trivial, ?_⟩
    · simp only [System.finish_done, returned_cons, hzero]
      simpa using hv
    · intro c hc
      rcases List.mem_cons.mp hc with rfl | hc
      · rw [hzero]
        cases op with
        | up | upN _ => trivial
        | trydown => exact .inl ⟨rfl, rfl⟩
        | trydownPartial n => exact ⟨Int.le_refl _, Int.natCast_nonneg _, Int.le_refl _⟩
        | trydownN n => exact .inl ⟨rfl, rfl⟩
      · exact h.calls c hc
  | @swapUp t op old retval hpc hup hsame =>
    obtain ⟨rfl, -⟩ : retval = amount old op ∧ giveUp old op = false := by
      have := h.pcs t
      rwa [hpc] at this
    subst hsame
    refine ⟨?_, pcs_setPc h.pcs trivial, h.calls⟩
    have := toNat_add h (hsafe _ _ _ hpc hup) hup hw
    simp only [System.addUps_count, System.setCount_count, System.addUps_done,
      System.setCount_done, System.setPc_done, System.addUps_ups, System.setCount_ups,
      System.setPc_ups]
    omega
  | @swapDown t op old retval hpc hup hsame =>
    obtain ⟨rfl, hgive⟩ : retval = amount old op ∧ giveUp old op = false := by
      have := h.pcs t
      rwa [hpc] at this
    subst hsame
    have hle := amount_le hup hgive hw
    refine ⟨?_, pcs_setPc h.pcs trivial, ?_⟩
    · have hsub := BitVec.toNat_sub_of_le (BitVec.le_def.mpr hle)
      simp only [System.finish_count, System.setCount_count, System.finish_done, returned_cons,
        System.setCount_done, System.setPc_done, System.finish_ups, System.setCount_ups,
        System.setPc_ups, hsub]
      omega
    · intro c hc
      rcases List.mem_cons.mp hc with rfl | hc
      · exact call_ok hw
      · exact h.calls c hc
  | retry hpc hother => exact ⟨hv, pcs_setPc h.pcs trivial, h.calls⟩

omit [DecidableEq T] in
theorem inv_initial (hinit : init < 2 ^ w) : Inv init (System.initial .idle init : System T _ w) where
  value := by simp [System.initial, returned, Nat.mod_eq_of_lt hinit]
  pcs _ := trivial
  calls _ hc := absurd hc List.not_mem_nil

omit [DecidableEq T] in
theorem Inv.correct (h : Inv init s) : s.Correct init .idle :=
  ⟨by have := h.value; omega, fun _ => h.value, h.calls⟩

end Gasnet.Semaphore.Cas

/-! The semaphores that use a mutex. Their `trydown` returns what the count was. -/
namespace Gasnet.Semaphore.Mutex

variable {T : Type*} {w : Nat}

/-- Where a thread is. What a down will return is known when the count is written. -/
inductive PC (w : Nat)
  | idle
  | locked (op : Op w)
  | loaded (op : Op w) (old : BitVec w)
  | stored (c : Option (Call w))

structure State (T : Type*) (w : Nat) where
  sys : System T (PC w) w
  lock : Option T

/-- The count in a variable of type `int`. -/
def toInt32 (old : BitVec w) : Int := (old.setWidth 32).toInt

def newCount (old : BitVec w) : Op w → BitVec w
  | .up => old + 1
  | .upN n => old + n
  | .trydown => if toInt32 old ≠ 0 then old - 1 else old
  | .trydownPartial n => old - if old < n then old else n
  | .trydownN n => if n ≤ old then old - n else old

def result (old : BitVec w) : Op w → Option (Call w)
  | .up | .upN _ => none
  | .trydown => some ⟨.trydown, toInt32 old, if toInt32 old ≠ 0 then 1 else 0⟩
  | .trydownPartial n =>
    some ⟨.trydownPartial n, (if old < n then old else n).toNat, (if old < n then old else n).toNat⟩
  | .trydownN n =>
    some ⟨.trydownN n, (if n ≤ old then n else 0).toNat, (if n ≤ old then n else 0).toNat⟩

inductive Action (T : Type*) (w : Nat)
  | lock (t : T) (op : Op w)
  | load (t : T)
  | store (t : T)
  | unlock (t : T)

variable [DecidableEq T]

def initial (init : Nat) : State T w := ⟨System.initial .idle init, none⟩

inductive Step : State T w → Action T w → State T w → Prop
  | lock {s : State T w} {t : T} {op : Op w} (hpc : s.sys.pc t = .idle) (hfree : s.lock = none) :
      Step s (.lock t op) ⟨s.sys.setPc t (.locked op), some t⟩
  | load {s : State T w} {t : T} {op : Op w} (hpc : s.sys.pc t = .locked op) :
      Step s (.load t) ⟨s.sys.setPc t (.loaded op s.sys.count), s.lock⟩
  | store {s : State T w} {t : T} {op : Op w} {old : BitVec w} (hpc : s.sys.pc t = .loaded op old) :
      Step s (.store t) ⟨((s.sys.setPc t (.stored (result old op))).setCount
        (newCount old op)).addUps op.ups, s.lock⟩
  | unlockUp {s : State T w} {t : T} (hpc : s.sys.pc t = .stored none) :
      Step s (.unlock t) ⟨s.sys.setPc t .idle, none⟩
  | unlockDown {s : State T w} {t : T} {c : Call w} (hpc : s.sys.pc t = .stored (some c)) :
      Step s (.unlock t) ⟨(s.sys.setPc t .idle).finish c, none⟩

/-- The value has room for an up, and `trydown` finds no more than it takes. -/
def Safe (init : Nat) (s : State T w) : Action T w → Prop
  | .load t => ∀ op, s.sys.pc t = .locked op → s.sys.Room (2 ^ w - 1) init op ∧
      (op = .trydown → s.sys.count.toNat ≤ 1)
  | _ => True

/-- What a down will return. -/
def debt : PC w → Int
  | .stored (some c) => c.returned
  | _ => 0

/-- What holds of a thread while the count and what the ups and downs have done are these. -/
def PC.Ok (init : Nat) (s : System T (PC w) w) : PC w → Prop
  | .loaded op old => old = s.count ∧ s.Room (2 ^ w - 1) init op ∧ (op = .trydown → old.toNat ≤ 1)
  | .stored (some c) => c.Ok ∧ 0 ≤ c.returned
  | .stored none | .idle | .locked _ => True

variable {s u : State T w} {a : Action T w} {init : Nat} {t : T} {old : BitVec w} {op : Op w}

/-- What the count becomes and what is returned are the same. -/
theorem newCount_eq (hw : 32 ≤ w) (hroom : old.toNat + op.ups < 2 ^ w)
    (htry : op = .trydown → old.toNat ≤ 1) :
    ((newCount old op).toNat : Int) + debt (.stored (result old op)) = old.toNat + op.ups ∧
      ∀ c, result old op = some c → c.Ok ∧ 0 ≤ c.returned := by
  have hpow : 1 < 2 ^ w := Nat.one_lt_two_pow (by omega)
  have hone : (1 : BitVec w).toNat = 1 := by simp [Nat.mod_eq_of_lt hpow]
  cases op with
  | up =>
    simp only [newCount, result, debt, Op.ups, BitVec.toNat_add, hone] at hroom ⊢
    rw [Nat.mod_eq_of_lt hroom]
    simp
  | upN n =>
    simp only [newCount, result, debt, Op.ups, BitVec.toNat_add] at hroom ⊢
    rw [Nat.mod_eq_of_lt hroom]
    simp
  | trydown =>
    have hle := htry rfl
    have hset : (old.setWidth 32).toNat = old.toNat := by
      rw [BitVec.toNat_setWidth, Nat.mod_eq_of_lt (by omega)]
    have hint : toInt32 old = old.toNat := by
      rw [toInt32, BitVec.toInt_eq_toNat_of_lt (by omega), hset]
    simp only [newCount, result, debt, Op.ups, hint]
    by_cases hz : old.toNat = 0
    · simp [hz, Call.Ok]
    · have h1 : old.toNat = 1 := by omega
      have hsub := BitVec.toNat_sub_of_le (x := old) (y := 1) (BitVec.le_def.mpr (by omega))
      rw [if_pos (by omega), hsub, hone, h1]
      refine ⟨by simp, fun c hc => ?_⟩
      obtain rfl := Option.some.inj hc
      exact ⟨.inr ⟨rfl, by simp⟩, Int.one_nonneg⟩
  | trydownPartial n =>
    have hle : (if old < n then old else n).toNat ≤ old.toNat := by
      simp only [BitVec.lt_def]
      split <;> omega
    have hle' : (if old < n then old else n).toNat ≤ n.toNat := by
      simp only [BitVec.lt_def]
      split <;> omega
    have hsub := BitVec.toNat_sub_of_le (BitVec.le_def.mpr hle)
    simp only [newCount, result, debt, Op.ups, hsub]
    refine ⟨by omega, fun c hc => ?_⟩
    obtain rfl := Option.some.inj hc
    exact ⟨⟨Int.natCast_nonneg _, Int.ofNat_le.mpr hle', Int.le_refl _⟩, Int.natCast_nonneg _⟩
  | trydownN n =>
    simp only [newCount, result, debt, Op.ups]
    by_cases hle : n ≤ old
    · have hsub := BitVec.toNat_sub_of_le hle
      have := BitVec.le_def.mp hle
      simp only [if_pos hle, hsub]
      refine ⟨by omega, fun c hc => ?_⟩
      obtain rfl := Option.some.inj hc
      exact ⟨.inr ⟨rfl, rfl⟩, Int.natCast_nonneg _⟩
    · simp only [if_neg hle]
      refine ⟨by simp, fun c hc => ?_⟩
      obtain rfl := Option.some.inj hc
      exact ⟨.inl ⟨by simp, by simp⟩, Int.natCast_nonneg _⟩

omit [DecidableEq T] in
theorem debt_nonneg {s : System T (PC w) w} {pc : PC w} (h : pc.Ok init s) : 0 ≤ debt pc := by
  cases pc with
  | idle | locked _ | loaded _ _ => exact Int.le_refl _
  | stored c =>
    cases c with
    | none => exact Int.le_refl _
    | some c => exact h.2

variable [Fintype T]

structure Inv (init : Nat) (s : State T w) : Prop where
  value : (s.sys.count.toNat : Int) + returned s.sys.done + total debt s.sys.pc =
    init + s.sys.ups
  owner : ∀ t, s.sys.pc t = .idle ∨ s.lock = some t
  pcs : ∀ t, (s.sys.pc t).Ok init s.sys
  calls : ∀ c ∈ s.sys.done, c.Ok

omit [DecidableEq T] in
/-- One thread at a time is inside. -/
theorem Inv.idle_of_ne (h : Inv init s) (ht : s.sys.pc t ≠ .idle) {v : T} (hv : v ≠ t) :
    s.sys.pc v = .idle := by
  refine (h.owner v).resolve_right fun hl => hv ?_
  rw [(h.owner t).resolve_left ht] at hl
  exact (Option.some.inj hl).symm

/-- What it does is nothing to the others. -/
theorem Inv.pcs_update (h : Inv init s) (ht : s.sys.pc t ≠ .idle) {pc : PC w}
    {sys : System T (PC w) w} (hupd : sys.pc = Function.update s.sys.pc t pc)
    (hok : pc.Ok init sys) : ∀ v, (sys.pc v).Ok init sys := by
  intro v
  rw [hupd, Function.update_apply]
  split
  · exact hok
  · rename_i hv
    rw [h.idle_of_ne ht hv]
    trivial

theorem Inv.owner_update (h : Inv init s) (ht : s.sys.pc t ≠ .idle) (pc : PC w) (v : T) :
    Function.update s.sys.pc t pc v = .idle ∨ s.lock = some v := by
  rw [Function.update_apply]
  split
  · rename_i hv
    exact .inr (hv ▸ (h.owner t).resolve_left ht)
  · rename_i hv
    exact .inl (h.idle_of_ne ht hv)

/-- And then all are outside. -/
theorem Inv.owner_idle (h : Inv init s) (ht : s.sys.pc t ≠ .idle) (v : T) :
    Function.update s.sys.pc t .idle v = .idle := by
  rw [Function.update_apply]
  split
  · rfl
  · rename_i hv
    exact h.idle_of_ne ht hv

theorem inv_step (hw : 32 ≤ w) (hs : Step s a u) (hsafe : Safe init s a) (h : Inv init s) :
    Inv init u := by
  have hv := h.value
  cases hs with
  | @lock t op hpc hfree =>
    have hidle : ∀ v, s.sys.pc v = .idle := fun v => (h.owner v).resolve_right (by simp [hfree])
    refine ⟨by simpa [total_update, hpc, debt] using hv, fun v => ?_, fun v => ?_, h.calls⟩
    · rw [System.setPc_pc, Function.update_apply]
      split
      · rename_i he
        exact .inr (by rw [he])
      · exact .inl (hidle v)
    · rw [System.setPc_pc, Function.update_apply]
      split
      · trivial
      · rw [hidle v]
        trivial
  | @load t op hpc =>
    have hne : s.sys.pc t ≠ .idle := by simp [hpc]
    have hok : (PC.loaded op s.sys.count).Ok init (s.sys.setPc t (.loaded op s.sys.count)) :=
      ⟨rfl, hsafe op hpc⟩
    exact ⟨by simpa [total_update, hpc, debt] using hv, h.owner_update hne _,
      h.pcs_update hne rfl hok, h.calls⟩
  | @store t op old hpc =>
    obtain ⟨rfl, hroom, htry⟩ : old = s.sys.count ∧ s.sys.Room (2 ^ w - 1) init op ∧
        (op = .trydown → old.toNat ≤ 1) := by
      have := h.pcs t
      rwa [hpc] at this
    have hne : s.sys.pc t ≠ .idle := by simp [hpc]
    have hdebt : 0 ≤ total debt s.sys.pc := total_nonneg fun v => debt_nonneg (h.pcs v)
    unfold System.Room at hroom
    have hpow := Nat.two_pow_pos w
    obtain ⟨hcount, hcall⟩ := newCount_eq hw (by omega) htry
    have hok : (PC.stored (result s.sys.count op)).Ok init (((s.sys.setPc t
        (.stored (result s.sys.count op))).setCount (newCount s.sys.count op)).addUps op.ups) := by
      cases hr : result s.sys.count op with
      | none => trivial
      | some c => exact hcall c hr
    refine ⟨?_, h.owner_update hne _, h.pcs_update hne rfl hok, h.calls⟩
    have hzero : debt (PC.loaded op s.sys.count) = 0 := rfl
    simp only [System.addUps_count, System.setCount_count, System.addUps_done,
      System.setCount_done, System.setPc_done, System.addUps_pc, System.setCount_pc,
      System.setPc_pc, total_update, hpc, System.addUps_ups, System.setCount_ups,
      System.setPc_ups]
    omega
  | @unlockUp t hpc =>
    have hne : s.sys.pc t ≠ .idle := by simp [hpc]
    have hok : (PC.idle : PC w).Ok init (s.sys.setPc t .idle) := trivial
    exact ⟨by simpa [total_update, hpc, debt] using hv, fun v => .inl (h.owner_idle hne v),
      h.pcs_update hne rfl hok, h.calls⟩
  | @unlockDown t c hpc =>
    have hne : s.sys.pc t ≠ .idle := by simp [hpc]
    have hcall : c.Ok ∧ 0 ≤ c.returned := by
      have := h.pcs t
      rwa [hpc] at this
    have hok : (PC.idle : PC w).Ok init ((s.sys.setPc t .idle).finish c) := trivial
    refine ⟨?_, fun v => .inl (h.owner_idle hne v), h.pcs_update hne rfl hok, fun c' hc => ?_⟩
    · simp only [System.finish_count, System.setPc_count, System.finish_done, returned_cons,
        System.setPc_done, System.finish_pc, System.setPc_pc, total_update, hpc, debt,
        System.finish_ups, System.setPc_ups]
      omega
    · rcases List.mem_cons.mp hc with rfl | hc
      · exact hcall.1
      · exact h.calls c' hc

omit [DecidableEq T] in
theorem inv_initial (hinit : init < 2 ^ w) : Inv init (initial init : State T w) where
  value := by
    simp [initial, System.initial, returned, Nat.mod_eq_of_lt hinit, total, debt]
  owner _ := .inl rfl
  pcs _ := trivial
  calls _ hc := absurd hc List.not_mem_nil

omit [DecidableEq T] in
theorem Inv.correct (h : Inv init s) : s.sys.Correct init .idle := by
  have hv := h.value
  have hdebt : 0 ≤ total debt s.sys.pc := total_nonneg fun v => debt_nonneg (h.pcs v)
  refine ⟨by omega, fun hidle => ?_, h.calls⟩
  have hzero : total debt s.sys.pc = 0 := total_eq_zero fun t => by rw [hidle t]; rfl
  omega

end Gasnet.Semaphore.Mutex

/-! What is lost and found by the semaphores, and that nothing is while no thread runs into it. -/
namespace Gasnet.Semaphore

variable {T : Type*} [Fintype T] [DecidableEq T] {w init : Nat}

/-- In runs of safe steps the semaphores are what they are said to be. -/
theorem correct_of_safe (hw : 32 ≤ w) :
    (init < 2 ^ w → ∀ s : Mutex.State T w,
      Reachable (fun s a t => Mutex.Step s a t ∧ Mutex.Safe init s a) (Mutex.initial init) s →
      s.sys.Correct init .idle) ∧
    (init < 2 ^ w → ∀ (b : Bool) (s : System T (Cas.PC w) w),
      Reachable (fun s a t => Cas.Step b s a t ∧ Cas.Safe init s a) (System.initial .idle init) s →
      s.Correct init .idle) ∧
    (init < 2 ^ (w - 1) → ∀ s : System T (AddSub.PC w) w,
      Reachable (fun s a t => AddSub.Step s a t ∧ AddSub.Safe init s a)
        (System.initial .idle init) s →
      s.Correct init .idle) := by
  refine ⟨fun hinit s hr => ?_, fun hinit b s hr => ?_, fun hinit s hr => ?_⟩
  · have h : Mutex.Inv init s :=
      hr.invariant (fun hs h => Mutex.inv_step hw hs.1 hs.2 h) (Mutex.inv_initial hinit)
    exact h.correct
  · have h : Cas.Inv init s :=
      hr.invariant (fun hs h => Cas.inv_step (by omega) hs.1 hs.2 h) (Cas.inv_initial hinit)
    exact h.correct
  · have h : AddSub.Inv init s :=
      hr.invariant (fun hs h => AddSub.inv_step hw hs.1 hs.2 h) (AddSub.inv_initial hw hinit)
    exact h.correct

/-- A thread takes the one unit there is. -/
theorem correct_of_safe_one : ∃ s : System Bool (Cas.PC 32) 32,
    returned s.done = 1 ∧ s.Correct 1 .idle := by
  have hroom : (System.initial .idle 1 : System Bool (Cas.PC 32) 32).Room (2 ^ 32 - 1) 1
      .trydown := by
    simp [System.Room, System.initial, Op.ups, returned]
  have hrun : Run (fun s a t => Cas.Step true s a t ∧ Cas.Safe 1 s a)
      (System.initial .idle 1) [.begin true .trydown, .read true, .swap true] _ :=
    .stepL ⟨.begin rfl rfl, hroom⟩
      (.stepL ⟨.read rfl rfl, fun _ _ h => by cases h⟩
        (.stepL ⟨.swapDown rfl rfl rfl, fun op old retval h hup => by cases h; cases hup⟩ .refl))
  exact ⟨_, rfl, (correct_of_safe (by decide)).2.1 (by decide) true _ ⟨_, hrun⟩⟩

/-- Two threads that want the one unit there is get it both, with compare-and-swap: the second one
finds the count changed, then 0, and returns what it would have taken at first. With additions and
subtractions, two that want two each leave a count that is two short: the second one gives nothing
back. With a mutex, the two downs of one thread return 3 of the 2 units there are. -/
theorem correct_fails :
    (∃ s : System Bool (Cas.PC 32) 32,
      Reachable (Cas.Step true) (System.initial .idle 1) s ∧ ¬s.Correct 1 .idle) ∧
    (∃ s : System Bool (AddSub.PC 32) 32,
      Reachable AddSub.Step (System.initial .idle 1) s ∧ ¬s.Correct 1 .idle) ∧
    ∃ s : Mutex.State Bool 32, Reachable Mutex.Step (Mutex.initial 2) s ∧ ¬s.sys.Correct 2 .idle := by
  refine ⟨?_, ?_, ?_⟩
  · have hrun : Run (Cas.Step true) (System.initial .idle 1 : System Bool (Cas.PC 32) 32)
        [.begin false (.trydownPartial 1), .read false, .begin true .trydown, .read true,
          .swap true, .swap false, .read false] _ :=
      .stepL (.begin rfl rfl) (.stepL (.read rfl rfl) (.stepL (.begin rfl rfl)
        (.stepL (.read rfl rfl) (.stepL (.swapDown rfl rfl rfl)
          (.stepL (.retry rfl (by decide)) (.stepL (.giveUp rfl rfl) .refl))))))
    refine ⟨_, ⟨_, hrun⟩, fun h => ?_⟩
    have hle := h.le
    exact absurd hle (by decide)
  · have hrun : Run AddSub.Step (System.initial .idle 1 : System Bool (AddSub.PC 32) 32)
        [.begin false (.trydownPartial 2), .begin true (.trydownPartial 2), .read false, .read true,
          .subtract false, .subtract true, .restore false] _ :=
      .stepL (.begin rfl rfl) (.stepL (.begin rfl rfl) (.stepL (.read rfl rfl)
        (.stepL (.read rfl rfl) (.stepL (.overdraw rfl rfl)
          (.stepL (.subtract rfl rfl) (.stepL (.restore rfl) .refl))))))
    refine ⟨_, ⟨_, hrun⟩, fun h => ?_⟩
    have hq := h.quiescent fun t => by cases t <;> rfl
    exact absurd hq (by decide)
  · have hrun : Run Mutex.Step (Mutex.initial 2 : Mutex.State Bool 32)
        [.lock true .trydown, .load true, .store true, .unlock true,
          .lock true .trydown, .load true, .store true, .unlock true] _ :=
      .stepL (.lock rfl rfl) (.stepL (.load rfl) (.stepL (.store rfl) (.stepL (.unlockDown rfl)
        (.stepL (.lock rfl rfl) (.stepL (.load rfl) (.stepL (.store rfl)
          (.stepL (.unlockDown rfl) .refl)))))))
    refine ⟨_, ⟨_, hrun⟩, fun h => ?_⟩
    have hle := h.le
    exact absurd hle (by decide)

end Gasnet.Semaphore
