import Mathlib.Algebra.Order.Ring.Nat
import Mathlib.Tactic.Ring

/-! Retransmission timeouts: the table of `AMUDP_InitRetryCache`, `REQUEST_TIMEOUT_TICKS`, and the
retry counter of `AMUDP_HandleRequestTimeouts`. -/
namespace Gasnet.Amudp

/-- `AMUDP_TIMEOUT_INFINITE`. -/
def timeoutInfinite : ℕ := 2 ^ 32 - 1

/-- The settings, in microseconds, and the ticks that a microsecond takes. -/
structure Timeouts where
  initialRequestTimeout : ℕ
  maxRequestTimeout : ℕ
  requestTimeoutBackoff : ℕ
  ticksPerUs : ℕ

variable {t : Timeouts} {count : BitVec 8} {n r k fuel temp retries : ℕ}

namespace Timeouts

/-- What reading the environment leaves: `uint32_t` values, zero read as infinite, a factor
above one, and a maximum raised to the initial timeout. -/
structure Admissible (t : Timeouts) : Prop where
  initial_pos : 0 < t.initialRequestTimeout
  initial_le : t.initialRequestTimeout ≤ t.maxRequestTimeout
  max_lt : t.maxRequestTimeout < 2 ^ 32
  backoff_gt : 1 < t.requestTimeoutBackoff
  backoff_lt : t.requestTimeoutBackoff < 2 ^ 32
  ticks_pos : 0 < t.ticksPerUs
  ticks_lt : t.ticksPerUs < 2 ^ 32

/-- `AMX_us2ticks`. -/
def us2ticks (t : Timeouts) (us : ℕ) : ℕ := us * t.ticksPerUs % 2 ^ 64

def maxticks (t : Timeouts) : ℕ := t.us2ticks t.maxRequestTimeout

/-- `retryToticks`; the array stops at `staticRetries`. -/
def retryToticks (t : Timeouts) : ℕ → ℕ
  | 0 => t.us2ticks t.initialRequestTimeout
  | n + 1 => min (retryToticks t n * t.requestTimeoutBackoff % 2 ^ 64) t.maxticks

/-- `STATIC_RETRIES`. -/
def staticRetries : ℕ := 30

def intpow (val : ℕ) : (exp : ℕ) → ℕ
  | 0 => 1
  | exp + 1 => intpow val exp * val % 2 ^ 64

/-- `REQUEST_TIMEOUT_TICKS`. -/
def requestTimeoutTicks (t : Timeouts) (retrycnt : ℕ) : ℕ :=
  if retrycnt < staticRetries then t.retryToticks retrycnt
  else t.retryToticks 0 * intpow t.requestTimeoutBackoff retrycnt % 2 ^ 64

/-- The loop that computes `max_retryCount`. -/
def maxRetryLoop (t : Timeouts) : (fuel temp retries : ℕ) → Option ℕ
  | 0, _, _ => none
  | fuel + 1, temp, retries =>
    if temp ≤ t.maxRequestTimeout then
      maxRetryLoop t fuel (temp * t.requestTimeoutBackoff % 2 ^ 64) ((retries + 1) % 2 ^ 32)
    else some retries

/-- `max_retryCount`; the loop is over after 32 rounds at most. -/
def maxRetryCount (t : Timeouts) : Option ℕ :=
  if t.maxRequestTimeout = timeoutInfinite then some (2 ^ 32 - 1)
  else t.maxRetryLoop 33 t.initialRequestTimeout 0

/-- An expired request with this counter is sent again. -/
def Retransmits (t : Timeouts) (count : BitVec 8) : Prop :=
  t.initialRequestTimeout ≠ timeoutInfinite ∧ ∃ k, t.maxRetryCount = some k ∧ count.toNat < k

/-- `retry`, the count of the retransmission; a `uint32_t`. -/
def retry (count : BitVec 8) : ℕ := count.toNat + 1

/-- `retryCount = retry`. -/
def storeRetry (count : BitVec 8) : BitVec 8 := BitVec.ofNat 8 (retry count)

/-- No product on the way to the timeout of this retry exceeds a tick count. -/
def NoWrap (t : Timeouts) (r : ℕ) : Prop :=
  if r < staticRetries then ∀ n < r, t.retryToticks n * t.requestTimeoutBackoff < 2 ^ 64
  else t.retryToticks 0 * t.requestTimeoutBackoff ^ r < 2 ^ 64

/-- The timeout computed for a retransmission is what it should be. -/
structure Sane (t : Timeouts) (count : BitVec 8) : Prop where
  pos : 0 < t.requestTimeoutTicks (retry count)
  mono : t.requestTimeoutTicks count.toNat ≤ t.requestTimeoutTicks (retry count)
  capped : t.maxRequestTimeout ≠ timeoutInfinite →
    t.requestTimeoutTicks (retry count) ≤ t.maxticks
  noWrap : t.NoWrap (retry count)
  counted : (storeRetry count).toNat = count.toNat + 1

/-- In the table the last product still fits, and beyond it so does the power, or the power stays
below a finite maximum. -/
def Fits (t : Timeouts) (r : ℕ) : Prop :=
  if r < staticRetries then
    min (t.initialRequestTimeout * t.requestTimeoutBackoff ^ (r - 1)) t.maxRequestTimeout *
      t.ticksPerUs * t.requestTimeoutBackoff < 2 ^ 64
  else if t.maxRequestTimeout = timeoutInfinite then
    t.initialRequestTimeout * t.ticksPerUs * t.requestTimeoutBackoff ^ r < 2 ^ 64
  else t.initialRequestTimeout * t.requestTimeoutBackoff ^ r ≤ t.maxRequestTimeout

/-- Requests never time out, or this one is given up, or the next timeout fits. -/
def Tame (t : Timeouts) (count : BitVec 8) : Prop :=
  t.initialRequestTimeout = timeoutInfinite ∨
    (t.maxRequestTimeout ≠ timeoutInfinite ∧
      t.maxRequestTimeout < t.initialRequestTimeout * t.requestTimeoutBackoff ^ count.toNat) ∨
    t.Fits (retry count)

theorem Admissible.pow_le (h : t.Admissible) (n : ℕ) :
    2 ^ n ≤ t.initialRequestTimeout * t.requestTimeoutBackoff ^ n := by
  have hpow : 2 ^ n ≤ t.requestTimeoutBackoff ^ n := Nat.pow_le_pow_left h.backoff_gt n
  exact hpow.trans (Nat.le_mul_of_pos_left _ h.initial_pos)

theorem Admissible.pow_mono (h : t.Admissible) (hle : n ≤ r) :
    t.initialRequestTimeout * t.requestTimeoutBackoff ^ n ≤
      t.initialRequestTimeout * t.requestTimeoutBackoff ^ r :=
  Nat.mul_le_mul_left _ (Nat.pow_le_pow_right (by have := h.backoff_gt; omega) hle)

theorem Admissible.us2ticks_eq (h : t.Admissible) {us : ℕ} (hus : us < 2 ^ 32) :
    t.us2ticks us = us * t.ticksPerUs := by
  apply Nat.mod_eq_of_lt
  calc us * t.ticksPerUs ≤ us * 2 ^ 32 := Nat.mul_le_mul_left _ h.ticks_lt.le
    _ < 2 ^ 32 * 2 ^ 32 := Nat.mul_lt_mul_of_pos_right hus (by decide)

theorem Admissible.maxticks_eq (h : t.Admissible) :
    t.maxticks = t.maxRequestTimeout * t.ticksPerUs := h.us2ticks_eq h.max_lt

theorem Admissible.retryToticks_zero (h : t.Admissible) :
    t.retryToticks 0 = t.initialRequestTimeout * t.ticksPerUs :=
  h.us2ticks_eq (h.initial_le.trans_lt h.max_lt)

/-- The loop counts the powers up to the maximum. -/
theorem Admissible.maxRetryLoop_eq (h : t.Admissible) (hfuel : fuel + n = 33)
    (hbelow : ∀ j < n, t.initialRequestTimeout * t.requestTimeoutBackoff ^ j ≤
      t.maxRequestTimeout) :
    ∃ k, t.maxRetryLoop fuel (t.initialRequestTimeout * t.requestTimeoutBackoff ^ n) n = some k ∧
      ∀ j, j < k ↔
        t.initialRequestTimeout * t.requestTimeoutBackoff ^ j ≤ t.maxRequestTimeout := by
  have hmax := h.max_lt
  induction fuel generalizing n with
  | zero =>
    have hlast := (h.pow_le 32).trans (hbelow 32 (by omega))
    omega
  | succ fuel ih =>
    rw [maxRetryLoop]
    split
    · rename_i hle
      have hmul : t.initialRequestTimeout * t.requestTimeoutBackoff ^ n *
          t.requestTimeoutBackoff < 2 ^ 64 := by
        calc _ ≤ t.maxRequestTimeout * 2 ^ 32 := Nat.mul_le_mul hle h.backoff_lt.le
          _ < 2 ^ 32 * 2 ^ 32 := Nat.mul_lt_mul_of_pos_right hmax (by decide)
      rw [Nat.mod_eq_of_lt hmul, Nat.mul_assoc, ← pow_succ, Nat.mod_eq_of_lt (by omega)]
      refine ih (by omega) fun j hj => ?_
      rcases Nat.lt_succ_iff_lt_or_eq.1 hj with hj | rfl
      · exact hbelow j hj
      · exact hle
    · rename_i hgt
      refine ⟨n, rfl, fun j => ⟨hbelow j, fun hle => ?_⟩⟩
      by_contra hge
      exact hgt ((h.pow_mono (by omega)).trans hle)

/-- A request is given up once its timeout would have passed a finite maximum. -/
theorem Admissible.retransmits_iff (h : t.Admissible) (count : BitVec 8) :
    t.Retransmits count ↔ t.initialRequestTimeout ≠ timeoutInfinite ∧
      (t.maxRequestTimeout = timeoutInfinite ∨
        t.initialRequestTimeout * t.requestTimeoutBackoff ^ count.toNat ≤
          t.maxRequestTimeout) := by
  have hcount := count.isLt
  apply and_congr_right
  intro _
  unfold maxRetryCount
  split
  · rename_i hinf
    exact ⟨fun _ => .inl hinf, fun _ => ⟨_, rfl, by omega⟩⟩
  · rename_i hfin
    obtain ⟨k, hloop, hk⟩ := @maxRetryLoop_eq t 0 33 h rfl nofun
    rw [pow_zero, Nat.mul_one] at hloop
    rw [hloop]
    constructor
    · rintro ⟨j, hj, hlt⟩
      cases hj
      exact .inr ((hk _).1 hlt)
    · rintro (hinf | hle)
      · exact absurd hinf hfin
      · exact ⟨k, rfl, (hk _).2 hle⟩

theorem retryToticks_le_max (h : t.Admissible) (n : ℕ) : t.retryToticks n ≤ t.maxticks := by
  cases n with
  | zero =>
    rw [h.retryToticks_zero, h.maxticks_eq]
    exact Nat.mul_le_mul_right _ h.initial_le
  | succ n => exact Nat.min_le_right ..

/-- With or without wrapping the table never exceeds the exact power. -/
theorem retryToticks_le (h : t.Admissible) (n : ℕ) : t.retryToticks n ≤
    t.initialRequestTimeout * t.ticksPerUs * t.requestTimeoutBackoff ^ n := by
  induction n with
  | zero => rw [h.retryToticks_zero, pow_zero, Nat.mul_one]
  | succ n ih =>
    calc t.retryToticks (n + 1) ≤ t.retryToticks n * t.requestTimeoutBackoff % 2 ^ 64 :=
          Nat.min_le_left ..
      _ ≤ t.retryToticks n * t.requestTimeoutBackoff := Nat.mod_le ..
      _ ≤ t.initialRequestTimeout * t.ticksPerUs * t.requestTimeoutBackoff ^ n *
          t.requestTimeoutBackoff := Nat.mul_le_mul_right _ ih
      _ = _ := by rw [pow_succ, Nat.mul_assoc]

/-- As long as no product wraps the table holds the capped powers. -/
theorem retryToticks_eq (h : t.Admissible)
    (hfit : ∀ k < n, t.retryToticks k * t.requestTimeoutBackoff < 2 ^ 64) :
    t.retryToticks n =
      min (t.initialRequestTimeout * t.requestTimeoutBackoff ^ n) t.maxRequestTimeout *
        t.ticksPerUs := by
  induction n with
  | zero =>
    rw [h.retryToticks_zero, pow_zero, Nat.mul_one, Nat.min_eq_left h.initial_le]
  | succ n ih =>
    have hback := h.backoff_gt
    have hcap : t.maxRequestTimeout ≤ t.maxRequestTimeout * t.requestTimeoutBackoff :=
      Nat.le_mul_of_pos_right _ (by omega)
    rw [retryToticks, Nat.mod_eq_of_lt (hfit n n.lt_succ_self),
      ih fun k hk => hfit k (Nat.lt_succ_of_lt hk), h.maxticks_eq,
      Nat.mul_right_comm _ t.ticksPerUs t.requestTimeoutBackoff, Nat.mul_min_mul_right,
      ← Nat.mul_min_mul_right _ _ t.requestTimeoutBackoff, Nat.mul_assoc, ← pow_succ, min_assoc,
      Nat.min_eq_right hcap]

theorem intpow_modEq (b n : ℕ) : intpow b n = b ^ n % 2 ^ 64 := by
  induction n with
  | zero => rfl
  | succ n ih => rw [intpow, ih, pow_succ b n, Nat.mod_mul_mod]

theorem requestTimeoutTicks_table (hr : r < staticRetries) :
    t.requestTimeoutTicks r = t.retryToticks r := if_pos hr

theorem requestTimeoutTicks_power (h : t.Admissible) (hr : staticRetries ≤ r)
    (hfit : t.initialRequestTimeout * t.ticksPerUs * t.requestTimeoutBackoff ^ r < 2 ^ 64) :
    t.requestTimeoutTicks r =
      t.initialRequestTimeout * t.ticksPerUs * t.requestTimeoutBackoff ^ r := by
  rw [requestTimeoutTicks, if_neg (by omega), intpow_modEq, Nat.mul_mod_mod, h.retryToticks_zero,
    Nat.mod_eq_of_lt hfit]

/-- The table has not wrapped up to here if the last product fits. -/
theorem table_noWrap (h : t.Admissible)
    (hfit : min (t.initialRequestTimeout * t.requestTimeoutBackoff ^ n) t.maxRequestTimeout *
      t.ticksPerUs * t.requestTimeoutBackoff < 2 ^ 64) (k : ℕ) (hk : k ≤ n) :
    t.retryToticks k * t.requestTimeoutBackoff < 2 ^ 64 := by
  induction k using Nat.strong_induction_on with
  | _ k ih =>
    rw [retryToticks_eq h fun j hj => ih j hj (by omega)]
    refine lt_of_le_of_lt ?_ hfit
    exact Nat.mul_le_mul_right _ (Nat.mul_le_mul_right _
      (min_le_min_right _ (h.pow_mono hk)))

/-- Within the table. -/
theorem sane_table (h : t.Admissible) (hr : retry count < staticRetries)
    (hfit : t.Fits (retry count)) : t.Sane count := by
  have hcount : count.toNat < 29 := by
    unfold retry staticRetries at hr
    omega
  rw [Fits, if_pos hr] at hfit
  have hwrap := table_noWrap h hfit
  have hnext := @retryToticks_eq t (retry count) h fun k hk => hwrap k (by unfold retry at *; omega)
  have hthis := @retryToticks_eq t count.toNat h fun k hk => hwrap k (by unfold retry at *; omega)
  have hmin : 0 < min (t.initialRequestTimeout * t.requestTimeoutBackoff ^ retry count)
      t.maxRequestTimeout := by
    have := (Nat.two_pow_pos (retry count)).trans_le (h.pow_le _)
    have := h.initial_pos.trans_le h.initial_le
    omega
  constructor
  case pos =>
    rw [requestTimeoutTicks_table hr, hnext]
    exact Nat.mul_pos hmin h.ticks_pos
  case mono =>
    rw [requestTimeoutTicks_table hr,
      requestTimeoutTicks_table (by unfold staticRetries; omega), hnext, hthis]
    exact Nat.mul_le_mul_right _ (min_le_min_right _ (h.pow_mono (by unfold retry; omega)))
  case capped =>
    intro _
    rw [requestTimeoutTicks_table hr]
    exact retryToticks_le_max h _
  case noWrap =>
    rw [NoWrap, if_pos hr]
    exact fun k hk => hwrap k (by unfold retry at *; omega)
  case counted =>
    rw [storeRetry, BitVec.toNat_ofNat]
    unfold retry
    omega

/-- Beyond the table the power fits. -/
theorem Fits.power (h : t.Admissible) (hr : ¬r < staticRetries) (hfit : t.Fits r) :
    t.initialRequestTimeout * t.ticksPerUs * t.requestTimeoutBackoff ^ r < 2 ^ 64 := by
  rw [Fits, if_neg hr] at hfit
  split at hfit
  · exact hfit
  · rw [Nat.mul_right_comm]
    calc _ ≤ t.maxRequestTimeout * t.ticksPerUs := Nat.mul_le_mul_right _ hfit
      _ ≤ t.maxRequestTimeout * 2 ^ 32 := Nat.mul_le_mul_left _ h.ticks_lt.le
      _ < 2 ^ 32 * 2 ^ 32 := Nat.mul_lt_mul_of_pos_right h.max_lt (by decide)

theorem sane_power (h : t.Admissible) (hr : ¬retry count < staticRetries)
    (hfit : t.Fits (retry count)) : t.Sane count := by
  have hpower := hfit.power h hr
  have hnext := requestTimeoutTicks_power h (Nat.le_of_not_lt hr) hpower
  have hlow : 2 ^ retry count ≤ t.initialRequestTimeout * t.ticksPerUs *
      t.requestTimeoutBackoff ^ retry count := by
    rw [Nat.mul_right_comm]
    exact (h.pow_le _).trans (Nat.le_mul_of_pos_right _ h.ticks_pos)
  have hstep : t.initialRequestTimeout * t.ticksPerUs * t.requestTimeoutBackoff ^ count.toNat ≤
      t.initialRequestTimeout * t.ticksPerUs * t.requestTimeoutBackoff ^ retry count := by
    have hback := h.backoff_gt
    exact Nat.mul_le_mul_left _ (Nat.pow_le_pow_right (by omega) (Nat.le_succ _))
  constructor
  case pos =>
    rw [hnext]
    exact (Nat.two_pow_pos _).trans_le hlow
  case mono =>
    rw [hnext]
    refine le_trans ?_ hstep
    -- the last entry of the table may itself be capped
    rcases Nat.lt_or_ge count.toNat staticRetries with hin | hout
    · rw [requestTimeoutTicks_table hin]
      exact retryToticks_le h _
    · rw [requestTimeoutTicks_power h hout (hstep.trans_lt hpower)]
  case capped =>
    intro hfin
    rw [Fits, if_neg hr, if_neg hfin] at hfit
    rw [hnext, h.maxticks_eq, Nat.mul_right_comm]
    exact Nat.mul_le_mul_right _ hfit
  case noWrap =>
    rw [NoWrap, if_neg hr, h.retryToticks_zero]
    exact hpower
  case counted =>
    have hlt : retry count < 64 := (Nat.pow_lt_pow_iff_right (by decide)).1 (hlow.trans_lt hpower)
    rw [storeRetry, BitVec.toNat_ofNat]
    unfold retry at *
    omega

/-- What is sane fits. -/
theorem Sane.fits (h : t.Admissible) (hs : t.Sane count) : t.Fits (retry count) := by
  have hwrap := hs.noWrap
  unfold NoWrap at hwrap
  unfold Fits
  split
  · rename_i hr
    rw [if_pos hr] at hwrap
    have hlast := @retryToticks_eq t (retry count - 1) h fun k hk => hwrap k (by omega)
    rw [← hlast]
    exact hwrap _ (by unfold retry; omega)
  · rename_i hr
    rw [if_neg hr, h.retryToticks_zero] at hwrap
    split
    · exact hwrap
    · rename_i hfin
      have hcap := hs.capped hfin
      rw [requestTimeoutTicks_power h (Nat.le_of_not_lt hr) hwrap, h.maxticks_eq,
        Nat.mul_right_comm] at hcap
      exact Nat.le_of_mul_le_mul_right hcap h.ticks_pos

end Timeouts

open Timeouts

/-- The timeout of a retransmission is positive, no shorter than the one before, within a finite
maximum and computed without wrapping exactly if it fits. -/
theorem retransmission_sane_iff (t : Timeouts) (h : t.Admissible) (count : BitVec 8) :
    (t.Retransmits count → t.Sane count) ↔ t.Tame count := by
  have hsane : t.Sane count ↔ t.Fits (retry count) := by
    refine ⟨Sane.fits h, fun hfit => ?_⟩
    by_cases hr : retry count < staticRetries
    · exact sane_table h hr hfit
    · exact sane_power h hr hfit
  rw [h.retransmits_iff, hsane]
  unfold Tame
  constructor
  · intro himp
    by_cases hnever : t.initialRequestTimeout = timeoutInfinite
    · exact .inl hnever
    by_cases hfit : t.Fits (retry count)
    · exact .inr (.inr hfit)
    refine .inr (.inl ⟨fun hinf => hfit (himp ⟨hnever, .inl hinf⟩), ?_⟩)
    by_contra hle
    exact hfit (himp ⟨hnever, .inr (Nat.le_of_not_lt hle)⟩)
  · rintro (hnever | ⟨hfin, hgt⟩ | hfit) ⟨hsends, hlive⟩
    · exact absurd hnever hsends
    · rcases hlive with hinf | hle
      · exact absurd hinf hfin
      · omega
    · exact hfit

/-- The defaults: a tenth of a second, doubled up to half a minute. -/
def defaultTimeouts : Timeouts := ⟨100000, 30000000, 2, 1⟩

theorem default_timeouts_sane : defaultTimeouts.Retransmits 8 ∧ defaultTimeouts.Sane 8 := by
  have hsends : defaultTimeouts.Retransmits 8 := ⟨by decide, 9, by decide, by decide⟩
  refine ⟨hsends, (retransmission_sane_iff defaultTimeouts ?_ 8).2 ?_ hsends⟩
  · constructor <;> decide
  · refine .inr (.inr ?_)
    rw [Fits, if_pos (by decide)]
    decide

/-- A microsecond, doubled up to a maximum of 2^30 microseconds: the timeout after the 31st
retransmission is twice the maximum. -/
theorem timeout_exceeds_maximum :
    ¬((Timeouts.mk 1 (2 ^ 30) 2 1).Retransmits 30 → (Timeouts.mk 1 (2 ^ 30) 2 1).Sane 30) := by
  intro h
  have hsends : (Timeouts.mk 1 (2 ^ 30) 2 1).Retransmits 30 := ⟨by decide, 31, by decide, by decide⟩
  have hcap := (h hsends).capped (by decide)
  revert hcap
  decide

end Gasnet.Amudp
