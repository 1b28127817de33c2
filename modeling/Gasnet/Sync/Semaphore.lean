import Gasnet.Foundation.Run
import Gasnet.Foundation.Total

/-! The semaphores of `gasnet_syncops.h`: the calls, what they promise, and what the three ways to
make them share. -/
namespace Gasnet.Semaphore

variable {T P : Type*} {w : Nat}

/-- The calls that change the value of a semaphore. -/
inductive Op (w : Nat)
  | up
  | upN (n : BitVec w)
  | trydown
  | trydownPartial (n : BitVec w)
  | trydownN (n : BitVec w)
deriving DecidableEq

/-- What an up adds. -/
def Op.ups : Op w → Nat
  | .up => 1
  | .upN n => n.toNat
  | _ => 0

/-- A down that is over: what it has returned, and by how much it has lowered the count. -/
structure Call (w : Nat) where
  op : Op w
  returned : Int
  taken : Int

/-- The count, where every thread is, and as history what the ups have added and the downs that are
over. -/
structure System (T P : Type*) (w : Nat) where
  count : BitVec w
  pc : T → P
  ups : Nat
  done : List (Call w)

/-- `gasneti_semaphore_trydown` and the others, as described. -/
def Call.Ok (c : Call w) : Prop :=
  match c.op with
  | .trydown => c.returned = 0 ∧ c.taken = 0 ∨ c.returned = 1 ∧ c.taken = 1
  | .trydownPartial n => 0 ≤ c.returned ∧ c.returned ≤ n.toNat ∧ c.returned ≤ c.taken
  | .trydownN n => c.returned = 0 ∧ c.taken = 0 ∨ c.returned = n.toNat ∧ c.taken = n.toNat
  | .up | .upN _ => True

/-- What the downs have returned. -/
def returned (l : List (Call w)) : Int := (l.map Call.returned).sum

@[simp] theorem returned_cons (c : Call w) (l : List (Call w)) :
    returned (c :: l) = c.returned + returned l := by
  simp [returned]

namespace System

/-- What a semaphore promises. -/
structure Correct (init : Nat) (idle : P) (s : System T P w) : Prop where
  le : returned s.done ≤ init + s.ups
  quiescent : (∀ t, s.pc t = idle) → (s.count.toNat : Int) + returned s.done = init + s.ups
  calls : ∀ c ∈ s.done, c.Ok

/-- The value may go up without going past a maximum. -/
def Room (max init : Nat) (s : System T P w) (op : Op w) : Prop :=
  (init : Int) + s.ups + op.ups ≤ max + returned s.done

variable [DecidableEq T]

def initial (idle : P) (init : Nat) : System T P w := ⟨BitVec.ofNat w init, fun _ => idle, 0, []⟩

def setPc (s : System T P w) (t : T) (pc : P) : System T P w :=
  { s with pc := Function.update s.pc t pc }

def setCount (s : System T P w) (count : BitVec w) : System T P w := { s with count := count }

def addUps (s : System T P w) (n : Nat) : System T P w := { s with ups := s.ups + n }

/-- A down is over. -/
def finish (s : System T P w) (c : Call w) : System T P w := { s with done := c :: s.done }

@[simp] theorem setPc_pc (s : System T P w) (t : T) (pc : P) :
    (s.setPc t pc).pc = Function.update s.pc t pc := rfl
@[simp] theorem setPc_count (s : System T P w) (t : T) (pc : P) :
    (s.setPc t pc).count = s.count := rfl
@[simp] theorem setPc_ups (s : System T P w) (t : T) (pc : P) : (s.setPc t pc).ups = s.ups := rfl
@[simp] theorem setPc_done (s : System T P w) (t : T) (pc : P) :
    (s.setPc t pc).done = s.done := rfl

omit [DecidableEq T]

@[simp] theorem setCount_pc (s : System T P w) (n : BitVec w) : (s.setCount n).pc = s.pc := rfl
@[simp] theorem setCount_count (s : System T P w) (n : BitVec w) : (s.setCount n).count = n := rfl
@[simp] theorem setCount_ups (s : System T P w) (n : BitVec w) : (s.setCount n).ups = s.ups := rfl
@[simp] theorem setCount_done (s : System T P w) (n : BitVec w) :
    (s.setCount n).done = s.done := rfl
@[simp] theorem addUps_pc (s : System T P w) (n : Nat) : (s.addUps n).pc = s.pc := rfl
@[simp] theorem addUps_count (s : System T P w) (n : Nat) : (s.addUps n).count = s.count := rfl
@[simp] theorem addUps_ups (s : System T P w) (n : Nat) : (s.addUps n).ups = s.ups + n := rfl
@[simp] theorem addUps_done (s : System T P w) (n : Nat) : (s.addUps n).done = s.done := rfl
@[simp] theorem finish_pc (s : System T P w) (c : Call w) : (s.finish c).pc = s.pc := rfl
@[simp] theorem finish_count (s : System T P w) (c : Call w) : (s.finish c).count = s.count := rfl
@[simp] theorem finish_ups (s : System T P w) (c : Call w) : (s.finish c).ups = s.ups := rfl
@[simp] theorem finish_done (s : System T P w) (c : Call w) :
    (s.finish c).done = c :: s.done := rfl

end System

end Gasnet.Semaphore

/-! The semaphores that use addition and subtraction. A down that finds enough subtracts, and gives
back what it should not have taken. -/
namespace Gasnet.Semaphore.AddSub

variable {T : Type*} [Fintype T] [DecidableEq T] {w : Nat}

/-- Where a thread is. What a down will have returned and have taken is known when it gives back. -/
inductive PC (w : Nat)
  | idle
  | read (op : Op w)
  | subtract (op : Op w)
  | restore (op : Op w) (back : BitVec w) (returned taken : Int)
deriving DecidableEq

/-- How much a call adds or subtracts. -/
def amount : Op w → BitVec w
  | .up | .trydown => 1
  | .upN n | .trydownPartial n | .trydownN n => n

def isUp : Op w → Bool
  | .up | .upN _ => true
  | _ => false

/-- What a down looks at first. `trydownN` compares a signed number with an unsigned one, which makes
both of them unsigned. -/
def enough (count : BitVec w) : Op w → Bool
  | .trydownN n => n ≤ count
  | _ => 0 < count.toInt

/-- A number in a variable of type `int` and back. -/
def throughInt (n : BitVec w) : Int := (BitVec.ofInt w (n.setWidth 32).toInt).toNat

/-- What follows the subtraction that has left `tmp`. `trydownPartial` gives nothing back when more is
missing than it has taken. -/
def afterSubtract (tmp : BitVec w) : Op w → Call w ⊕ PC w
  | .trydown =>
    if 0 ≤ tmp.toInt then .inl ⟨.trydown, 1, 1⟩ else .inr (.restore .trydown 1 0 0)
  | .trydownPartial n =>
    if 0 ≤ tmp.toInt then .inl ⟨.trydownPartial n, throughInt n, n.toNat⟩
    else if (-n).toInt ≤ tmp.toInt then
      .inr (.restore (.trydownPartial n) (-tmp) (throughInt (n + tmp)) (n.toNat - (-tmp).toNat))
    else .inl ⟨.trydownPartial n, 0, n.toNat⟩
  | .trydownN n =>
    if 0 ≤ tmp.toInt then .inl ⟨.trydownN n, throughInt n, n.toNat⟩
    else .inr (.restore (.trydownN n) n 0 0)
  | op => .inl ⟨op, 0, 0⟩

inductive Action (T : Type*) (w : Nat)
  | begin (t : T) (op : Op w)
  | read (t : T)
  | subtract (t : T)
  | restore (t : T)

inductive Step : System T (PC w) w → Action T w → System T (PC w) w → Prop
  | add {s : System T (PC w) w} {t : T} {op : Op w} (hpc : s.pc t = .idle)
      (hup : isUp op = true) :
      Step s (.begin t op) ((s.setCount (s.count + amount op)).addUps op.ups)
  | begin {s : System T (PC w) w} {t : T} {op : Op w} (hpc : s.pc t = .idle)
      (hdown : isUp op = false) : Step s (.begin t op) (s.setPc t (.read op))
  | read {s : System T (PC w) w} {t : T} {op : Op w} (hpc : s.pc t = .read op)
      (henough : enough s.count op = true) : Step s (.read t) (s.setPc t (.subtract op))
  | giveUp {s : System T (PC w) w} {t : T} {op : Op w} (hpc : s.pc t = .read op)
      (hgive : enough s.count op = false) :
      Step s (.read t) ((s.setPc t .idle).finish ⟨op, 0, 0⟩)
  | subtract {s : System T (PC w) w} {t : T} {op : Op w} {c : Call w}
      (hpc : s.pc t = .subtract op)
      (hafter : afterSubtract (s.count - amount op) op = .inl c) :
      Step s (.subtract t) (((s.setPc t .idle).setCount (s.count - amount op)).finish c)
  | overdraw {s : System T (PC w) w} {t : T} {op : Op w} {pc : PC w}
      (hpc : s.pc t = .subtract op)
      (hafter : afterSubtract (s.count - amount op) op = .inr pc) :
      Step s (.subtract t) ((s.setPc t pc).setCount (s.count - amount op))
  | restore {s : System T (PC w) w} {t : T} {op : Op w} {back : BitVec w} {r taken : Int}
      (hpc : s.pc t = .restore op back r taken) :
      Step s (.restore t)
        (((s.setPc t .idle).setCount (s.count + back)).finish ⟨op, r, taken⟩)

/-- The value has room for an up; a number fits an `int`; the count does not wrap around; and
`trydownPartial` does not subtract from a negative count. -/
def Safe (init : Nat) (s : System T (PC w) w) : Action T w → Prop
  | .begin _ op => s.Room (2 ^ (w - 1) - 1) init op ∧ (amount op).toNat < 2 ^ 31
  | .subtract t => ∀ op, s.pc t = .subtract op →
      -2 ^ (w - 1) ≤ s.count.toInt - (amount op).toNat ∧
        ∀ n, op = .trydownPartial n → 0 ≤ s.count.toInt
  | _ => True

/-- What a thread has taken and not given back yet, -/
def back : PC w → Int
  | .restore _ back _ _ => back.toNat
  | _ => 0

/-- and that with what it will return. -/
def debt : PC w → Int
  | .restore _ back r _ => back.toNat + r
  | _ => 0

/-- What holds of a thread by itself. -/
def PC.Ok : PC w → Prop
  | .idle => True
  | .read op | .subtract op => isUp op = false ∧ (amount op).toNat < 2 ^ 31
  | .restore op back r taken =>
    back.toNat < 2 ^ 31 ∧ 0 ≤ r ∧ (⟨op, r, taken⟩ : Call w).Ok

structure Inv (init : Nat) (s : System T (PC w) w) : Prop where
  value : s.count.toInt + returned s.done + total debt s.pc = init + s.ups
  covered : 0 ≤ s.count.toInt + total back s.pc
  room : (init : Int) + s.ups ≤ 2 ^ (w - 1) - 1 + returned s.done
  pcs : ∀ t, (s.pc t).Ok
  calls : ∀ c ∈ s.done, c.Ok

variable {s u : System T (PC w) w} {a : Action T w} {init : Nat} {t : T} {pc : PC w} {op : Op w}
  {n m : BitVec w}

omit [Fintype T] in
theorem pcs_setPc (h : ∀ t, (s.pc t).Ok) (hpc : pc.Ok) : ∀ v, ((s.setPc t pc).pc v).Ok := by
  intro v
  rw [System.setPc_pc, Function.update_apply]
  split
  · exact hpc
  · exact h v

/-- A number that fits an `int` comes through it. -/
theorem throughInt_eq (hw : 32 ≤ w) (hn : n.toNat < 2 ^ 31) : throughInt n = n.toNat := by
  have hlt : 2 ^ 31 < 2 ^ w := Nat.pow_lt_pow_right (by omega) (by omega)
  have hset : (n.setWidth 32).toNat = n.toNat := by
    rw [BitVec.toNat_setWidth, Nat.mod_eq_of_lt (by omega)]
  have hint : (n.setWidth 32).toInt = n.toNat := by
    rw [BitVec.toInt_eq_toNat_of_lt (by omega), hset]
  have hself : BitVec.ofInt w (n.toNat : Int) = n := by
    rw [BitVec.ofInt_natCast, BitVec.ofNat_toNat, BitVec.setWidth_eq]
  rw [throughInt, hint, hself]

/-- Sums that stay in the signed range are exact. -/
theorem toInt_add_eq (hw : 0 < w) (hlo : -2 ^ (w - 1) ≤ n.toInt + m.toInt)
    (hhi : n.toInt + m.toInt < 2 ^ (w - 1)) : (n + m).toInt = n.toInt + m.toInt := by
  have hsum : n + m = BitVec.ofInt w (n.toInt + m.toInt) := by
    rw [BitVec.ofInt_add, BitVec.ofInt_toInt, BitVec.ofInt_toInt]
  rw [hsum]
  exact BitVec.toInt_ofInt_eq_self hw hlo hhi

theorem toInt_sub_eq (hw : 0 < w) (hlo : -2 ^ (w - 1) ≤ n.toInt - m.toInt)
    (hhi : n.toInt - m.toInt < 2 ^ (w - 1)) : (n - m).toInt = n.toInt - m.toInt := by
  rw [BitVec.toInt_sub, ← BitVec.toInt_ofInt]
  exact BitVec.toInt_ofInt_eq_self hw hlo hhi

theorem toInt_eq_toNat (hw : 0 < w) (h : n.toNat < 2 ^ (w - 1)) : n.toInt = n.toNat := by
  have hpow : 2 ^ w = 2 * 2 ^ (w - 1) := by rw [← Nat.pow_succ']; congr 1; omega
  exact BitVec.toInt_eq_toNat_of_lt (by omega)

/-- The number with the other sign of a negative one. -/
theorem toNat_neg_eq (h : n.toInt < 0) : ((-n).toNat : Int) = -n.toInt := by
  have hpos := n.isLt
  have hne : n.toNat ≠ 0 := fun h0 => by
    rw [BitVec.toInt_eq_toNat_of_lt (by rw [h0]; exact Nat.two_pow_pos w)] at h
    omega
  rw [BitVec.toNat_neg, Nat.mod_eq_of_lt (by omega), BitVec.toInt_eq_toNat_cond] at *
  split at h
  · omega
  · rw [if_neg (by assumption)]
    omega

theorem toInt_small (hw : 32 ≤ w) (hn : n.toNat < 2 ^ 31) : n.toInt = n.toNat :=
  toInt_eq_toNat (by omega) (Nat.lt_of_lt_of_le hn (Nat.pow_le_pow_right (by omega) (by omega)))

theorem toInt_neg_small (hw : 32 ≤ w) (hn : n.toNat < 2 ^ 31) : (-n).toInt = -n.toNat := by
  have hle : (2 ^ 31 : Int) ≤ 2 ^ (w - 1) := by
    exact_mod_cast Nat.pow_le_pow_right (n := 2) (by omega) (by omega : 31 ≤ w - 1)
  have hint := toInt_small hw hn
  rw [← BitVec.zero_sub, toInt_sub_eq (by omega)] <;> simp only [BitVec.toInt_zero, hint] <;> omega

/-- A down that has left enough is over, with all that it wants. -/
theorem afterSubtract_inl (hw : 32 ≤ w) {count tmp : BitVec w} {c : Call w}
    (hdown : isUp op = false) (hn : (amount op).toNat < 2 ^ 31)
    (htmp : tmp.toInt = count.toInt - (amount op).toNat)
    (hcut : ∀ n, op = .trydownPartial n → 0 ≤ count.toInt)
    (h : afterSubtract tmp op = .inl c) :
    0 ≤ tmp.toInt ∧ c.returned = (amount op).toNat ∧ c.Ok := by
  have hone : (1 : BitVec w).toNat = 1 := by
    have : 1 < 2 ^ w := Nat.one_lt_two_pow (by omega)
    simp [Nat.mod_eq_of_lt this]
  cases op with
  | up | upN _ => simp [isUp] at hdown
  | trydown =>
    simp only [afterSubtract] at h
    split at h
    · rename_i hle
      cases h
      refine ⟨hle, ?_, .inr ⟨rfl, rfl⟩⟩
      show (1 : Int) = ((1 : BitVec w).toNat : Int)
      rw [hone]
      rfl
    · cases h
  | trydownPartial n =>
    have hcount := hcut n rfl
    simp only [amount] at hn htmp ⊢
    simp only [afterSubtract] at h
    split at h
    · rename_i hle
      cases h
      rw [throughInt_eq hw hn]
      exact ⟨hle, rfl, Int.natCast_nonneg _, Int.le_refl _, Int.le_refl _⟩
    · split at h
      · cases h
      · rename_i hmore
        rw [toInt_neg_small hw hn] at hmore
        omega
  | trydownN n =>
    simp only [amount] at hn ⊢
    simp only [afterSubtract] at h
    split at h
    · rename_i hle
      cases h
      rw [throughInt_eq hw hn]
      exact ⟨hle, rfl, .inr ⟨rfl, rfl⟩⟩
    · cases h

/-- A down that has not gives back all, or all that was not there. -/
theorem afterSubtract_inr (hw : 32 ≤ w) {count tmp : BitVec w}
    (hdown : isUp op = false) (hn : (amount op).toNat < 2 ^ 31)
    (htmp : tmp.toInt = count.toInt - (amount op).toNat)
    (h : afterSubtract tmp op = .inr pc) :
    pc.Ok ∧ debt pc = (amount op).toNat ∧ (back pc = (amount op).toNat ∨ back pc = -tmp.toInt) := by
  cases op with
  | up | upN _ => simp [isUp] at hdown
  | trydown =>
    simp only [amount] at hn ⊢
    simp only [afterSubtract] at h
    split at h
    · cases h
    · cases h
      exact ⟨⟨hn, Int.le_refl _, .inl ⟨rfl, rfl⟩⟩, by simp [debt], .inl (by simp [back])⟩
  | trydownPartial n =>
    simp only [amount] at hn htmp ⊢
    simp only [afterSubtract] at h
    split at h
    · cases h
    · rename_i hneg
      split at h
      · rename_i hmore
        cases h
        rw [toInt_neg_small hw hn] at hmore
        have hback := toNat_neg_eq (n := tmp) (by omega)
        have hint := toInt_small hw hn
        have hlt : (2 ^ 31 : Int) ≤ 2 ^ (w - 1) := by
          exact_mod_cast Nat.pow_le_pow_right (n := 2) (by omega) (by omega : 31 ≤ w - 1)
        have hrest : (n + tmp).toInt = n.toNat + tmp.toInt := by
          rw [toInt_add_eq (by omega)] <;> rw [hint] <;> omega
        have hrest' : ((n + tmp).toNat : Int) = n.toNat + tmp.toInt := by
          rw [← hrest]
          refine (BitVec.toInt_eq_toNat_of_lt (BitVec.toInt_pos_iff.mp ?_)).symm
          omega
        have hret : throughInt (n + tmp) = n.toNat + tmp.toInt := by
          rw [throughInt_eq hw (by omega), hrest']
        rw [hret]
        refine ⟨⟨by omega, by omega, ?_⟩, ?_, .inr hback⟩
        · simp only [Call.Ok]
          omega
        · simp only [debt]
          omega
      · cases h
  | trydownN n =>
    simp only [amount] at hn ⊢
    simp only [afterSubtract] at h
    split at h
    · cases h
    · cases h
      exact ⟨⟨hn, Int.le_refl _, .inl ⟨rfl, rfl⟩⟩, by simp [debt], .inl (by simp [back])⟩

theorem back_nonneg (h : pc.Ok) : 0 ≤ back pc ∧ back pc ≤ debt pc := by
  cases pc with
  | idle | read _ | subtract _ => exact ⟨Int.le_refl _, Int.le_refl _⟩
  | restore op b r taken =>
    have := h.2.1
    simp only [back, debt]
    omega

theorem inv_step (hw : 32 ≤ w) (hs : Step s a u) (hsafe : Safe init s a) (h : Inv init s) :
    Inv init u := by
  have hv := h.value
  have hc := h.covered
  have hroom := h.room
  have hback : 0 ≤ total back s.pc := total_nonneg fun t => (back_nonneg (h.pcs t)).1
  have hdebt : ∀ t, 0 ≤ debt (s.pc t) := fun t =>
    (back_nonneg (h.pcs t)).1.trans (back_nonneg (h.pcs t)).2
  have hdebts : 0 ≤ total debt s.pc := total_nonneg hdebt
  have hlo := BitVec.le_toInt s.count
  have hhi : s.count.toInt < 2 ^ (w - 1) := BitVec.toInt_lt
  cases hs with
  | @add t op hpc hup =>
    obtain ⟨hr, hn⟩ := hsafe
    have hups : (amount op).toNat = op.ups := by
      have : 1 < 2 ^ w := Nat.one_lt_two_pow (by omega)
      cases op with
      | up => simp [amount, Op.ups, Nat.mod_eq_of_lt this]
      | upN n => rfl
      | trydown | trydownPartial _ | trydownN _ => simp [isUp] at hup
    have hint := toInt_small hw hn
    have hpow : ((2 ^ (w - 1) - 1 : Nat) : Int) = 2 ^ (w - 1) - 1 := by
      rw [Int.natCast_sub Nat.one_le_two_pow]
      simp
    unfold System.Room at hr
    rw [hpow] at hr
    have hadd : (s.count + amount op).toInt = s.count.toInt + op.ups := by
      rw [toInt_add_eq (by omega)] <;> rw [hint, hups] <;> omega
    refine ⟨?_, ?_, ?_, h.pcs, h.calls⟩
    · simp only [System.addUps_count, System.setCount_count, System.addUps_done,
        System.setCount_done, System.addUps_ups, System.setCount_ups, System.addUps_pc,
        System.setCount_pc, hadd]
      omega
    · simp only [System.addUps_count, System.setCount_count, System.addUps_pc,
        System.setCount_pc, hadd]
      omega
    · simp only [System.addUps_ups, System.setCount_ups, System.addUps_done, System.setCount_done]
      omega
  | begin hpc hdown =>
    refine ⟨?_, ?_, hroom, pcs_setPc h.pcs ⟨hdown, hsafe.2⟩, h.calls⟩
    · simpa [total_update, hpc, debt] using hv
    · simpa [total_update, hpc, back] using hc
  | @read t op hpc henough =>
    have hok : (PC.read op).Ok := by
      have := h.pcs t
      rwa [hpc] at this
    refine ⟨?_, ?_, hroom, pcs_setPc h.pcs hok, h.calls⟩
    · simpa [total_update, hpc, debt] using hv
    · simpa [total_update, hpc, back] using hc
  | @giveUp t op hpc hgive =>
    have hdown : isUp op = false := by
      have := h.pcs t
      rw [hpc] at this
      exact this.1
    refine ⟨?_, ?_, ?_, pcs_setPc h.pcs trivial, ?_⟩
    · simpa [total_update, hpc, debt] using hv
    · simpa [total_update, hpc, back] using hc
    · simpa using hroom
    · intro c hcall
      rcases List.mem_cons.mp hcall with rfl | hcall
      · cases op with
        | up | upN _ => trivial
        | trydown => exact .inl ⟨rfl, rfl⟩
        | trydownPartial n => exact ⟨Int.le_refl _, Int.natCast_nonneg _, Int.le_refl _⟩
        | trydownN n => exact .inl ⟨rfl, rfl⟩
      · exact h.calls c hcall
  | @subtract t op c hpc hafter =>
    obtain ⟨hdown, hn⟩ : isUp op = false ∧ (amount op).toNat < 2 ^ 31 := by
      have := h.pcs t
      rwa [hpc] at this
    obtain ⟨hwrap, hcut⟩ := hsafe op hpc
    have hint := toInt_small hw hn
    have htmp : (s.count - amount op).toInt = s.count.toInt - (amount op).toNat := by
      rw [toInt_sub_eq (by omega)] <;> rw [hint] <;> omega
    obtain ⟨hle, hret, hok⟩ := afterSubtract_inl hw hdown hn htmp hcut hafter
    refine ⟨?_, ?_, ?_, pcs_setPc h.pcs trivial, ?_⟩
    · simp only [System.finish_count, System.setCount_count, System.finish_done, returned_cons,
        System.setCount_done, System.setPc_done, System.finish_pc, System.setCount_pc,
        System.setPc_pc, total_update, hpc, debt, htmp, hret, System.finish_ups,
        System.setCount_ups, System.setPc_ups]
      omega
    · simp only [System.finish_count, System.setCount_count, System.finish_pc, System.setCount_pc,
        System.setPc_pc, total_update, hpc, back]
      omega
    · simp only [System.finish_ups, System.setCount_ups, System.setPc_ups, System.finish_done,
        returned_cons, System.setCount_done, System.setPc_done, hret]
      omega
    · intro c' hcall
      rcases List.mem_cons.mp hcall with rfl | hcall
      · exact hok
      · exact h.calls c' hcall
  | @overdraw t op pc hpc hafter =>
    obtain ⟨hdown, hn⟩ : isUp op = false ∧ (amount op).toNat < 2 ^ 31 := by
      have := h.pcs t
      rwa [hpc] at this
    obtain ⟨hwrap, -⟩ := hsafe op hpc
    have hint := toInt_small hw hn
    have htmp : (s.count - amount op).toInt = s.count.toInt - (amount op).toNat := by
      rw [toInt_sub_eq (by omega)] <;> rw [hint] <;> omega
    obtain ⟨hok, hall, hpart⟩ := afterSubtract_inr hw hdown hn htmp hafter
    refine ⟨?_, ?_, hroom, pcs_setPc h.pcs hok, h.calls⟩
    · simp only [System.setCount_count, System.setCount_done, System.setPc_done,
        System.setCount_pc, System.setPc_pc, total_update, hpc, htmp, hall, System.setCount_ups,
        System.setPc_ups]
      simp only [debt]
      omega
    · simp only [System.setCount_count, System.setCount_pc, System.setPc_pc, total_update, hpc,
        htmp]
      have hzero : back (PC.subtract op) = 0 := rfl
      omega
  | @restore t op b r taken hpc =>
    obtain ⟨hlt, hr, hok⟩ : b.toNat < 2 ^ 31 ∧ 0 ≤ r ∧ (⟨op, r, taken⟩ : Call w).Ok := by
      have := h.pcs t
      rwa [hpc] at this
    have hint := toInt_small hw hlt
    have hown := le_total hdebt t
    rw [hpc] at hown
    simp only [debt] at hown
    have hadd : (s.count + b).toInt = s.count.toInt + b.toNat := by
      rw [toInt_add_eq (by omega)] <;> rw [hint] <;> omega
    refine ⟨?_, ?_, ?_, pcs_setPc h.pcs trivial, ?_⟩
    · simp only [System.finish_count, System.setCount_count, System.finish_done, returned_cons,
        System.setCount_done, System.setPc_done, System.finish_pc, System.setCount_pc,
        System.setPc_pc, total_update, hpc, debt, hadd, System.finish_ups,
        System.setCount_ups, System.setPc_ups]
      omega
    · simp only [System.finish_count, System.setCount_count, System.finish_pc, System.setCount_pc,
        System.setPc_pc, total_update, hpc, back, hadd]
      omega
    · simp only [System.finish_ups, System.setCount_ups, System.setPc_ups, System.finish_done,
        returned_cons, System.setCount_done, System.setPc_done]
      omega
    · intro c' hcall
      rcases List.mem_cons.mp hcall with rfl | hcall
      · exact hok
      · exact h.calls c' hcall

omit [DecidableEq T] in
theorem inv_initial (hw : 32 ≤ w) (hinit : init < 2 ^ (w - 1)) :
    Inv init (System.initial .idle init : System T _ w) := by
  have hlt : init < 2 ^ w := hinit.trans_le (Nat.pow_le_pow_right (by omega) (by omega))
  have hnat : (BitVec.ofNat w init).toNat = init := by
    rw [BitVec.toNat_ofNat, Nat.mod_eq_of_lt hlt]
  have hint : (BitVec.ofNat w init).toInt = init := by
    rw [toInt_eq_toNat (by omega) (by omega), hnat]
  have hpow : (init : Int) < 2 ^ (w - 1) := by exact_mod_cast hinit
  refine ⟨?_, ?_, ?_, fun _ => trivial, fun _ hc => absurd hc List.not_mem_nil⟩
  · simp [System.initial, hint, returned, total, debt]
  · simp [System.initial, hint, total, back]
  · simp only [System.initial, returned, List.map_nil, List.sum_nil]
    omega

omit [DecidableEq T] in
theorem Inv.correct (h : Inv init s) : s.Correct init .idle := by
  have hv := h.value
  refine ⟨?_, fun hidle => ?_, h.calls⟩
  · have hle : total back s.pc ≤ total debt s.pc :=
      Finset.sum_le_sum fun t _ => (back_nonneg (h.pcs t)).2
    have := h.covered
    omega
  · have hdebt : total debt s.pc = 0 := total_eq_zero fun t => by rw [hidle t]; rfl
    have hback : total back s.pc = 0 := total_eq_zero fun t => by rw [hidle t]; rfl
    have hc := h.covered
    rw [hback] at hc
    have hnat := BitVec.toInt_eq_toNat_of_lt (BitVec.toInt_pos_iff.mp (by omega : 0 ≤ s.count.toInt))
    omega

end Gasnet.Semaphore.AddSub
