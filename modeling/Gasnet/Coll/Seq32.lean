import Mathlib.Data.BitVec

/-! Sequence numbers of 32 bits that wrap around. -/
namespace Gasnet.Coll

/-- What `GASNETE_COLL_SEQ32_SAFE` asserts in a debug build. -/
def seq32Safe (debug : Bool) (u v : BitVec 32) : Prop :=
  debug = true → (u - v + 0x40000000#32).toNat < 0x80000000

instance (debug : Bool) (u v : BitVec 32) : Decidable (seq32Safe debug u v) :=
  inferInstanceAs (Decidable (_ → _))

/-- `gasnete_coll_seq32_ge`. -/
def seq32Ge (u v : BitVec 32) : Bool := decide ((u - v).toNat < 0x80000000)

/-- `GASNETE_COLL_SEQ32_LT`. -/
def seq32Lt (u v : BitVec 32) : Bool := seq32Ge v (u + 1)

/-- How far a number is after the beginning of a window. -/
def ahead32 (base x : BitVec 32) : Nat := (x - base).toNat

theorem ahead32_inj {base x y : BitVec 32} (h : ahead32 base x = ahead32 base y) : x = y := by
  have := BitVec.toNat_inj.mp h
  simpa using congrArg (· + base) this

/-- In a window of `2 ^ 31` numbers the order is theirs. -/
theorem seq32Lt_iff {base x y : BitVec 32} (hx : ahead32 base x < 2 ^ 31)
    (hy : ahead32 base y < 2 ^ 31) : seq32Lt x y = true ↔ ahead32 base x < ahead32 base y := by
  have hsub : (y - (x + 1)).toNat =
      (2 ^ 32 - (ahead32 base x + 1) + ahead32 base y) % 2 ^ 32 := by
    have hx' : x = base + BitVec.ofNat 32 (ahead32 base x) := by
      rw [ahead32, BitVec.ofNat_toNat, BitVec.setWidth_eq]
      simp
    have hy' : y = base + BitVec.ofNat 32 (ahead32 base y) := by
      rw [ahead32, BitVec.ofNat_toNat, BitVec.setWidth_eq]
      simp
    generalize ahead32 base x = i at hx hx'
    generalize ahead32 base y = j at hy hy'
    subst hx' hy'
    rw [BitVec.toNat_sub, BitVec.toNat_add, BitVec.toNat_add, BitVec.toNat_add,
      BitVec.toNat_ofNat, BitVec.toNat_ofNat, show (1 : BitVec 32).toNat = 1 from rfl]
    omega
  rw [seq32Lt, seq32Ge, decide_eq_true_eq, hsub]
  omega

end Gasnet.Coll
