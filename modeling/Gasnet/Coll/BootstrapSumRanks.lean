import Gasnet.Coll.BootstrapSum

/-! The stages of a process with its parent and with its children go with where it is in its call, in
every order of messages. -/
namespace Gasnet.Coll.BootstrapSum

variable {size r k : Nat} {operand : Nat → Nat → BitVec 64} {e : Nat → Nat} {x : Rank}

/-- What the result of a process is at some places of a call. -/
def Rank.ResultOk (size : Nat) (operand : Nat → Nat → BitVec 64) (r : Nat) (x : Rank) : Prop :=
  match x.pc with
  | .gather | .addUp => x.result = operand r x.calls
  | .clearUp | .sendUp => x.result = subtotal size operand r x.calls
  | .clearDown | .reset | .forward _ => x.result = total size operand x.calls
  | .out | .await | .readDown => True

/-- Only the others have a parent, and only children are sent to. -/
def Rank.PcOk (size r : Nat) (x : Rank) : Prop :=
  match x.pc with
  | .sendUp | .await | .readDown | .clearDown => r ≠ 0
  | .gather => children size r ≠ 0
  | .forward idx => idx ≤ children size r
  | _ => True

/-- A process, by its stages. -/
structure Rank.Fits (size : Nat) (operand : Nat → Nat → BitVec 64) (e : Nat → Nat) (r : Nat)
    (x : Rank) : Prop where
  own : r ≠ 0 → x.ownLo ≤ e r ∧ e r ≤ x.ownHi
  kids : ∀ k < children size r, x.kidLo k ≤ e (r + 2 ^ k) ∧ e (r + 2 ^ k) ≤ x.kidHi k
  rcvd : x.rcvd = rcvdOf size e r x.resets
  sum : x.sum = sumOf size operand e r x.clearsUp x.clearsDown
  result : x.ResultOk size operand r
  pcOk : x.PcOk size r
  returned : x.returned = (List.range x.calls).map (total size operand)

/-- With a child, either all is at rest or the stages are those of the call not counted yet. -/
theorem Rank.kid_range (x : Rank) (k : Nat) : x.kidLo k = x.kidHi k ∧ x.kidHi k % 6 = 3 ∨
    x.clearsUp = x.resets ∧ 6 * x.resets ≤ x.kidLo k + 2 ∧ x.kidHi k = 6 * x.resets + 3 := by
  unfold kidLo kidHi clearsUp resets
  cases x.pc with
  | out | gather => exact .inr ⟨rfl, by simp only; omega, rfl⟩
  | addUp | clearUp | sendUp | await | readDown | clearDown | reset =>
    exact .inl ⟨rfl, by simp only; omega⟩
  | forward idx =>
    simp only
    split
    · exact .inl ⟨rfl, by omega⟩
    · exact .inr ⟨trivial, by omega, by omega⟩

theorem Rank.own_range (x : Rank) : x.ownLo = x.ownHi ∧ x.ownHi % 6 = 0 ∨
    x.clearsDown = x.resets ∧ x.ownLo = 6 * x.resets + 1 ∧ x.ownHi = 6 * x.resets + 6 := by
  unfold ownLo ownHi clearsDown resets
  cases x.pc with
  | await => exact .inr ⟨rfl, rfl, rfl⟩
  | out | gather | addUp | clearUp | sendUp | readDown | clearDown | reset | forward _ =>
    exact .inl ⟨rfl, by simp only; omega⟩

namespace Rank.Fits

theorem congr {e' : Nat → Nat} (h : x.Fits size operand e r) (hown : e' r = e r)
    (hkids : ∀ k < children size r, e' (r + 2 ^ k) = e (r + 2 ^ k)) :
    x.Fits size operand e' r where
  own hr := by
    rw [hown]
    exact h.own hr
  kids k hk := by
    rw [hkids k hk]
    exact h.kids k hk
  rcvd := by rw [rcvdOf_congr hown hkids]; exact h.rcvd
  sum := by rw [sumOf_congr hown hkids]; exact h.sum
  result := h.result
  pcOk := h.pcOk
  returned := h.returned

/-- A stage more with a child, when it is not the process that makes the step. -/
theorem kid (h : x.Fits size operand e r) (hk : k < children size r)
    (hmod : e (r + 2 ^ k) % 6 ≠ 3) : ((x.toRcvd (x.rcvd +
      if e (r + 2 ^ k) + 1 = 6 * x.resets + 3 then 1 else 0)).toSum (x.sum +
      if e (r + 2 ^ k) + 1 = 6 * x.clearsUp + 2 then
        subtotal size operand (r + 2 ^ k) x.clearsUp else 0)).Fits size operand
      (advance e (r + 2 ^ k)) r where
  own hr := by
    rw [advance_of_ne _ (child_ne r k).symm]
    exact h.own hr
  kids k' hk' := by
    by_cases he : k' = k
    · subst he
      rw [advance_self]
      obtain ⟨hlo, hhi⟩ := h.kids k' hk'
      have hlast := x.kid_range k'
      refine ⟨Nat.le_succ_of_le hlo, ?_⟩
      show e (r + 2 ^ k') + 1 ≤ x.kidHi k'
      omega
    · rw [advance_of_ne _ fun h => he (child_inj h)]
      exact h.kids k' hk'
  rcvd := by
    rw [rcvdOf_kid hk]
    exact congrArg (· + _) h.rcvd
  sum := by
    rw [sumOf_kid hk]
    exact congrArg (· + _) h.sum
  result := h.result
  pcOk := h.pcOk
  returned := h.returned

/-- A stage more with the parent. -/
theorem parent (h : x.Fits size operand e r) (hr : r ≠ 0) (hmod : e r % 6 ≠ 0) :
    ((x.toRcvd (x.rcvd + if e r + 1 = 6 * x.resets + 6 then 1 else 0)).toSum (x.sum +
      if e r + 1 = 6 * x.clearsDown + 5 then total size operand x.clearsDown else 0)).Fits size
      operand (advance e r) r where
  own _ := by
    rw [advance_self]
    obtain ⟨hlo, hhi⟩ := h.own hr
    have hlast := x.own_range
    refine ⟨Nat.le_succ_of_le hlo, ?_⟩
    show e r + 1 ≤ x.ownHi
    omega
  kids k hk := by
    rw [advance_of_ne _ (child_ne r k)]
    exact h.kids k hk
  rcvd := by
    rw [rcvdOf_own hr]
    exact congrArg (· + _) h.rcvd
  sum := by
    rw [sumOf_own hr]
    exact congrArg (· + _) h.sum
  result := h.result
  pcOk := h.pcOk
  returned := h.returned

/-- With a message from a child under way, the call is the one that the process has not counted. -/
theorem call_of_kid (h : x.Fits size operand e r) (hk : k < children size r) {j : Nat}
    (he : e (r + 2 ^ k) = 6 * j + 1 ∨ e (r + 2 ^ k) = 6 * j + 2) :
    x.resets = j ∧ x.clearsUp = j := by
  obtain ⟨hlo, hhi⟩ := h.kids k hk
  have hlast := x.kid_range k
  omega

/-- And so it is with one from the parent. -/
theorem call_of_parent (h : x.Fits size operand e r) (hr : r ≠ 0) {j : Nat}
    (he : e r = 6 * j + 4 ∨ e r = 6 * j + 5) : x.resets = j ∧ x.clearsDown = j := by
  obtain ⟨hlo, hhi⟩ := h.own hr
  have hlast := x.own_range
  omega

/-- Of messages of the parent the process counts only the last stage, and adds up only the one
before. -/
theorem kid_same (h : x.Fits size operand e r) (hk : k < children size r)
    (hmod : e (r + 2 ^ k) % 6 = 0 ∨ e (r + 2 ^ k) % 6 = 4 ∨ e (r + 2 ^ k) % 6 = 5) :
    x.Fits size operand (advance e (r + 2 ^ k)) r := by
  have hnew := h.kid hk (by omega)
  rw [if_neg (by omega), if_neg (by omega), add_zero, add_zero] at hnew
  exact hnew

theorem parent_same (h : x.Fits size operand e r) (hr : r ≠ 0)
    (hmod : e r % 6 = 1 ∨ e r % 6 = 2 ∨ e r % 6 = 3) :
    x.Fits size operand (advance e r) r := by
  have hnew := h.parent hr (by omega)
  rw [if_neg (by omega), if_neg (by omega), add_zero, add_zero] at hnew
  exact hnew

/-- The part of a child is added up, -/
theorem add_kid (h : x.Fits size operand e r) (hk : k < children size r) {j : Nat}
    (he : e (r + 2 ^ k) = 6 * j + 1) :
    (x.toSum (x.sum + subtotal size operand (r + 2 ^ k) j)).Fits size operand
      (advance e (r + 2 ^ k)) r := by
  obtain ⟨-, hup⟩ := h.call_of_kid hk (.inl he)
  have hnew := h.kid hk (by omega)
  rwa [if_neg (by omega), if_pos (by omega), Nat.add_zero, hup] at hnew

/-- and counted. -/
theorem count_kid (h : x.Fits size operand e r) (hk : k < children size r) {j : Nat}
    (he : e (r + 2 ^ k) = 6 * j + 2) :
    (x.toRcvd (x.rcvd + 1)).Fits size operand (advance e (r + 2 ^ k)) r := by
  obtain ⟨hresets, -⟩ := h.call_of_kid hk (.inr he)
  have hnew := h.kid hk (by omega)
  rwa [if_pos (by omega), if_neg (by omega), add_zero] at hnew

/-- The sum from the parent is added, -/
theorem add_parent (h : x.Fits size operand e r) (hr : r ≠ 0) {j : Nat} (he : e r = 6 * j + 4) :
    (x.toSum (x.sum + total size operand j)).Fits size operand (advance e r) r := by
  obtain ⟨-, hdown⟩ := h.call_of_parent hr (.inl he)
  have hnew := h.parent hr (by omega)
  rwa [if_neg (by omega), if_pos (by omega), Nat.add_zero, hdown] at hnew

/-- and counted. -/
theorem count_parent (h : x.Fits size operand e r) (hr : r ≠ 0) {j : Nat} (he : e r = 6 * j + 5) :
    (x.toRcvd (x.rcvd + 1)).Fits size operand (advance e r) r := by
  obtain ⟨hresets, -⟩ := h.call_of_parent hr (.inr he)
  have hnew := h.parent hr (by omega)
  rwa [if_pos (by omega), if_neg (by omega), add_zero] at hnew

/-- A call begins. -/
theorem call (hsize : size < 2 ^ 31) (h : x.Fits size operand e r) (hr : r < size)
    (hpc : x.pc = .out) :
    (let y := x.toResult (operand r x.calls)
     if children size r ≠ 0 then y.toPc .gather else y.afterUp r).Fits size operand e r := by
  obtain ⟨hown, hkids, hrcvd, hsum, -, -, hreturned⟩ := h
  simp only [Rank.ownLo, Rank.ownHi, Rank.kidLo, Rank.kidHi, Rank.resets, Rank.clearsUp,
    Rank.clearsDown, hpc] at hown hkids hrcvd hsum
  simp only
  split
  · rename_i hne
    exact ⟨hown, hkids, hrcvd, hsum, rfl, hne, hreturned⟩
  · -- a process without children goes on at once
    rename_i hz
    have hz : children size r = 0 := by simpa using hz
    have hnone : ∀ k < children size r, e (r + 2 ^ k) < 6 * (x.calls + 1) + 2 := by simp [hz]
    have hsub : subtotal size operand r x.calls = operand r x.calls := by
      rw [subtotal_eq hsize hr, hz, Finset.sum_range_zero, add_zero]
    have hsum' : x.sum = 0 := by
      rw [hsum]
      refine sumOf_eq_zero (fun h0 => ?_) (by simp [hz])
      have := hown h0
      omega
    by_cases h0 : r = 0
    · have hpc' : x.afterUp r = x.toPc .reset := by simp [Rank.afterUp, h0]
      have hgoal : ((x.toResult (operand r x.calls)).toPc .reset).Fits size operand e r := by
        refine ⟨fun hr => absurd h0 hr, by simp [hz], hrcvd, ?_, ?_, trivial, hreturned⟩
        · exact hsum'.trans (sumOf_eq_zero (fun hr => absurd h0 hr) hnone).symm
        · show operand r x.calls = total size operand x.calls
          rw [← hsub, h0, subtotal_zero]
      simpa [Rank.afterUp, h0] using hgoal
    · have hgoal : ((x.toResult (operand r x.calls)).toPc .sendUp).Fits size operand e r := by
        refine ⟨hown, by simp [hz], hrcvd, ?_, hsub.symm, h0, hreturned⟩
        refine hsum'.trans (sumOf_eq_zero (fun h0 => ?_) hnone).symm
        have := hown h0
        simp only [Rank.clearsDown, Rank.toPc, Rank.toResult]
        omega
      simpa [Rank.afterUp, h0] using hgoal

/-- The children have been counted. -/
theorem gather (h : x.Fits size operand e r) (hpc : x.pc = .gather)
    (hready : x.rcvd = children size r) : (x.toPc .addUp).Fits size operand e r := by
  obtain ⟨hown, hkids, hrcvd, hsum, hresult, -, hreturned⟩ := h
  simp only [Rank.ownLo, Rank.ownHi, Rank.kidHi, Rank.resets, Rank.clearsUp,
    Rank.clearsDown, Rank.ResultOk, hpc] at hown hkids hrcvd hsum hresult
  have hall := kids_of_rcvdOf (by rw [← hrcvd, hready]) fun h0 => by
    have := hown h0
    omega
  refine ⟨hown, fun k hk => ?_, hrcvd, hsum, hresult, trivial, hreturned⟩
  have := hall k hk
  have := (hkids k hk).2
  simp only [Rank.kidLo, Rank.kidHi, Rank.toPc]
  omega

/-- Their parts are in the accumulator. -/
theorem addUp (hsize : size < 2 ^ 31) (h : x.Fits size operand e r) (hr : r < size)
    (hpc : x.pc = .addUp) :
    ((x.toResult (x.result + x.sum)).toPc .clearUp).Fits size operand e r := by
  obtain ⟨hown, hkids, hrcvd, hsum, hresult, -, hreturned⟩ := h
  simp only [Rank.ownLo, Rank.ownHi, Rank.kidLo, Rank.kidHi, Rank.resets, Rank.clearsUp,
    Rank.clearsDown, Rank.ResultOk, hpc] at hown hkids hrcvd hsum hresult
  refine ⟨hown, hkids, hrcvd, hsum, ?_, trivial, hreturned⟩
  show x.result + x.sum = subtotal size operand r x.calls
  rw [subtotal_eq hsize hr, hresult, hsum, sumOf, if_neg fun h0 => by
    have := hown h0.1
    omega, add_zero]
  congr 1
  refine Finset.sum_congr rfl fun k hk => if_pos ?_
  have := (hkids k (Finset.mem_range.mp hk)).1
  omega

theorem clearUp (h : x.Fits size operand e r) (hpc : x.pc = .clearUp) :
    ((x.toSum 0).afterUp r).Fits size operand e r := by
  obtain ⟨hown, hkids, hrcvd, hsum, hresult, -, hreturned⟩ := h
  simp only [Rank.ownLo, Rank.ownHi, Rank.kidLo, Rank.kidHi, Rank.resets,
    Rank.ResultOk, hpc] at hown hkids hrcvd hresult
  have hnone : ∀ k < children size r, e (r + 2 ^ k) < 6 * (x.calls + 1) + 2 := fun k hk => by
    have := (hkids k hk).2
    omega
  by_cases h0 : r = 0
  · have hgoal : ((x.toSum 0).toPc .reset).Fits size operand e r := by
      refine ⟨fun hr => absurd h0 hr, hkids, hrcvd, ?_, ?_, trivial, hreturned⟩
      · exact (sumOf_eq_zero (fun hr => absurd h0 hr) hnone).symm
      · show x.result = total size operand x.calls
        rw [hresult, h0, subtotal_zero]
    simpa [Rank.afterUp, h0] using hgoal
  · have hgoal : ((x.toSum 0).toPc .sendUp).Fits size operand e r := by
      refine ⟨hown, hkids, hrcvd, ?_, hresult, h0, hreturned⟩
      refine (sumOf_eq_zero (fun h0 => ?_) hnone).symm
      have := hown h0
      simp only [Rank.clearsDown, Rank.toPc, Rank.toSum]
      omega
    simpa [Rank.afterUp, h0] using hgoal

/-- The partial sum is sent. -/
theorem sendUp (h : x.Fits size operand e r) (hpc : x.pc = .sendUp) (hr : r ≠ 0) :
    (x.toPc .await).Fits size operand (advance e r) r := by
  obtain ⟨hown, hkids, hrcvd, hsum, -, -, hreturned⟩ := h
  simp only [Rank.ownLo, Rank.ownHi, Rank.kidLo, Rank.kidHi, Rank.resets, Rank.clearsUp,
    Rank.clearsDown, hpc] at hown hkids hrcvd hsum
  have hstage := hown hr
  refine ⟨fun _ => ?_, fun k hk => ?_, ?_, ?_, trivial, hr, hreturned⟩
  · rw [advance_self]
    simp only [Rank.ownLo, Rank.ownHi, Rank.toPc]
    omega
  · rw [advance_of_ne _ (child_ne r k)]
    exact hkids k hk
  · rw [rcvdOf_own hr, if_neg, add_zero]
    · exact hrcvd
    · simp only [Rank.resets, Rank.toPc]
      omega
  · rw [sumOf_own hr, if_neg, add_zero]
    · exact hsum
    · simp only [Rank.clearsDown, Rank.toPc]
      omega

/-- The parent has been counted. -/
theorem await (h : x.Fits size operand e r) (hpc : x.pc = .await)
    (hready : x.rcvd = children size r + 1) : (x.toPc .readDown).Fits size operand e r := by
  obtain ⟨hown, hkids, hrcvd, hsum, -, hroot, hreturned⟩ := h
  simp only [Rank.ownLo, Rank.ownHi, Rank.kidLo, Rank.kidHi, Rank.resets, Rank.clearsUp,
    Rank.clearsDown, Rank.PcOk, hpc] at hown hkids hrcvd hsum hroot
  have hle := own_of_rcvdOf (by rw [← hrcvd, hready]; exact Nat.lt_succ_self _)
  refine ⟨fun h0 => ?_, hkids, hrcvd, hsum, trivial, hroot, hreturned⟩
  have := (hown h0).2
  simp only [Rank.ownLo, Rank.ownHi, Rank.toPc]
  omega

/-- The sum is in the accumulator. -/
theorem readDown (h : x.Fits size operand e r) (hpc : x.pc = .readDown) :
    ((x.toResult x.sum).toPc .clearDown).Fits size operand e r := by
  obtain ⟨hown, hkids, hrcvd, hsum, -, hroot, hreturned⟩ := h
  simp only [Rank.ownLo, Rank.ownHi, Rank.kidLo, Rank.kidHi, Rank.resets, Rank.clearsUp,
    Rank.clearsDown, Rank.PcOk, hpc] at hown hkids hrcvd hsum hroot
  refine ⟨hown, hkids, hrcvd, hsum, ?_, hroot, hreturned⟩
  have := hown hroot
  show x.sum = total size operand x.calls
  rw [hsum, sumOf, if_pos ⟨hroot, by omega⟩, Finset.sum_eq_zero, zero_add]
  intro k hk
  have := (hkids k (Finset.mem_range.mp hk)).2
  exact if_neg (by omega)

theorem clearDown (h : x.Fits size operand e r) (hpc : x.pc = .clearDown) :
    ((x.toSum 0).toPc .reset).Fits size operand e r := by
  obtain ⟨hown, hkids, hrcvd, -, hresult, -, hreturned⟩ := h
  simp only [Rank.ownLo, Rank.ownHi, Rank.kidLo, Rank.kidHi, Rank.resets,
    Rank.ResultOk, hpc] at hown hkids hrcvd hresult
  refine ⟨hown, hkids, hrcvd, ?_, hresult, trivial, hreturned⟩
  refine (sumOf_eq_zero (fun h0 => ?_) fun k hk => ?_).symm
  · have := hown h0
    simp only [Rank.clearsDown, Rank.toPc, Rank.toSum]
    omega
  · have := (hkids k hk).2
    simp only [Rank.clearsUp, Rank.toPc, Rank.toSum]
    omega

theorem reset (h : x.Fits size operand e r) (hpc : x.pc = .reset) :
    ((x.toRcvd 0).toPc (.forward (children size r))).Fits size operand e r := by
  obtain ⟨hown, hkids, -, hsum, hresult, -, hreturned⟩ := h
  simp only [Rank.ownLo, Rank.ownHi, Rank.kidLo, Rank.kidHi, Rank.clearsUp, Rank.clearsDown,
    Rank.ResultOk, hpc] at hown hkids hsum hresult
  refine ⟨hown, fun k hk => ?_, ?_, hsum, hresult, Nat.le_refl _, hreturned⟩
  · simp only [Rank.kidLo, Rank.kidHi, Rank.toPc, Rank.toRcvd, if_pos hk]
    exact hkids k hk
  · refine (rcvdOf_eq_zero (fun h0 => ?_) fun k hk => ?_).symm
    · have := (hown h0).2
      simp only [Rank.resets, Rank.toPc, Rank.toRcvd]
      omega
    · have := (hkids k hk).2
      simp only [Rank.resets, Rank.toPc, Rank.toRcvd]
      omega

/-- The sum is sent to a child. -/
theorem forward (h : x.Fits size operand e r) {idx : Nat} (hpc : x.pc = .forward (idx + 1)) :
    (x.toPc (.forward idx)).Fits size operand (advance e (r + 2 ^ idx)) r := by
  obtain ⟨hown, hkids, hrcvd, hsum, hresult, hle, hreturned⟩ := h
  simp only [Rank.ownLo, Rank.ownHi, Rank.kidLo, Rank.kidHi, Rank.resets, Rank.clearsUp,
    Rank.clearsDown, Rank.ResultOk, Rank.PcOk, hpc] at hown hkids hrcvd hsum hresult hle
  have hstage := hkids idx hle
  rw [if_pos (Nat.lt_succ_self idx), if_pos (Nat.lt_succ_self idx)] at hstage
  refine ⟨fun h0 => ?_, fun k hk => ?_, ?_, ?_, hresult, Nat.le_of_succ_le hle, hreturned⟩
  · rw [advance_of_ne _ (child_ne r idx).symm]
    exact hown h0
  · simp only [Rank.kidLo, Rank.kidHi, Rank.toPc]
    by_cases he : k = idx
    · subst he
      rw [advance_self, if_neg (Nat.lt_irrefl k), if_neg (Nat.lt_irrefl k)]
      omega
    · rw [advance_of_ne _ fun h => he (child_inj h)]
      have hiff : k < idx + 1 ↔ k < idx := by omega
      have := hkids k hk
      simpa only [hiff] using this
  · rw [rcvdOf_kid hle, if_neg, add_zero]
    · exact hrcvd
    · simp only [Rank.resets, Rank.toPc]
      omega
  · rw [sumOf_kid hle, if_neg, add_zero]
    · exact hsum
    · simp only [Rank.clearsUp, Rank.toPc]
      omega

theorem leave (h : x.Fits size operand e r) (hpc : x.pc = .forward 0) :
    x.leave.Fits size operand e r := by
  obtain ⟨hown, hkids, hrcvd, hsum, hresult, -, hreturned⟩ := h
  simp only [Rank.ownLo, Rank.ownHi, Rank.kidLo, Rank.kidHi, Rank.resets, Rank.clearsUp,
    Rank.clearsDown, Rank.ResultOk, hpc] at hown hkids hrcvd hsum hresult
  refine ⟨fun h0 => ?_, fun k hk => ?_, hrcvd, hsum, trivial, trivial, ?_⟩
  · have := hown h0
    simp only [Rank.ownLo, Rank.ownHi, Rank.leave]
    omega
  · have := hkids k hk
    rw [if_neg (Nat.not_lt_zero k), if_neg (Nat.not_lt_zero k)] at this
    simp only [Rank.kidLo, Rank.kidHi, Rank.leave]
    omega
  · show x.returned ++ [x.result] = (List.range (x.calls + 1)).map _
    rw [List.range_succ, List.map_append, hreturned, hresult]
    rfl

end Rank.Fits

end Gasnet.Coll.BootstrapSum
