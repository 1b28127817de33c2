import Mathlib.Data.List.Flatten
import Mathlib.Data.List.Nodup
import Mathlib.Data.List.Range

/-! Cutting a range of chunks into packets: the sizes come from what remains, and a sender that
does not advance after some packet never reaches the end. -/
namespace Gasnet

variable {f : ℕ → ℕ} {advance : ℕ → Bool} {fuel r k e : ℕ}

/-- What remains after each packet but the last. -/
def leftovers (f : ℕ → ℕ) : (fuel remaining : ℕ) → List ℕ
  | 0, _ => []
  | fuel + 1, r => if r - f r = 0 then [] else (r - f r) :: leftovers f fuel (r - f r)

/-- The first chunk and the size of each packet. -/
def cuts (f : ℕ → ℕ) (advance : ℕ → Bool) : (fuel remaining start : ℕ) → List (ℕ × ℕ)
  | 0, _, _ => []
  | fuel + 1, r, k =>
    (k, f r) ::
      if r - f r = 0 then []
      else cuts f advance fuel (r - f r) (if advance (r - f r) then k + f r else k)

/-- Each packet takes something, and no more than there is. -/
def Cutting (f : ℕ → ℕ) : Prop := ∀ r, r ≠ 0 → f r ≠ 0 ∧ f r ≤ r

theorem cuts_size (hf : Cutting f) (hr : r ≠ 0) {c : ℕ × ℕ}
    (h : c ∈ cuts f advance fuel r k) : c.2 ≠ 0 ∧ ∃ r', r' ≠ 0 ∧ c.2 = f r' := by
  induction fuel generalizing r k with
  | zero => simp [cuts] at h
  | succ fuel ih =>
    rw [cuts, List.mem_cons] at h
    rcases h with rfl | h
    · exact ⟨(hf r hr).1, r, hr, rfl⟩
    · split at h
      · simp at h
      · exact ih (by assumption) h

/-- More fuel than remains changes nothing. -/
theorem cuts_fuel (hf : Cutting f) {fuel' : ℕ} (hr : r ≠ 0) (h : r ≤ fuel) (h' : r ≤ fuel') :
    cuts f advance fuel r k = cuts f advance fuel' r k := by
  induction fuel generalizing fuel' r k with
  | zero => omega
  | succ fuel ih =>
    rcases hf r hr with ⟨h0, hle⟩
    cases fuel' with
    | zero => omega
    | succ fuel' =>
      rw [cuts, cuts]
      by_cases hz : r - f r = 0
      · rw [if_pos hz, if_pos hz]
      · rw [if_neg hz, if_neg hz, @ih (r - f r) _ fuel' hz (by omega) (by omega)]

theorem cutting_min {c : ℕ} (hc : 0 < c) : Cutting (min c) := by
  intro r hr
  omega

/-- How many packets of one size there are. -/
theorem length_cuts_min {c : ℕ} (hc : 0 < c) (hr : r ≠ 0) (h : r ≤ fuel) :
    (cuts (min c) advance fuel r k).length = (r + c - 1) / c := by
  induction fuel generalizing r k with
  | zero => omega
  | succ fuel ih =>
    rw [cuts, List.length_cons]
    by_cases hz : r ≤ c
    · rw [Nat.min_eq_right hz, Nat.sub_self, if_pos rfl, List.length_nil]
      rw [show r + c - 1 = r - 1 + c by omega, Nat.add_div_right _ hc,
        Nat.div_eq_of_lt (by omega)]
    · rw [Nat.min_eq_left (by omega), if_neg (by omega), ih (by omega) (by omega),
        show r + c - 1 = r - c + c - 1 + c by omega, Nat.add_div_right _ hc]

/-- A sender that always advances cuts the whole range. -/
theorem cuts_flatMap (hf : Cutting f) (hr : r ≠ 0) (hfuel : r ≤ fuel)
    (h : ∀ l ∈ leftovers f fuel r, advance l = true) :
    (cuts f advance fuel r k).flatMap (fun c => List.range' c.1 c.2) = List.range' k r := by
  induction fuel generalizing r k with
  | zero => omega
  | succ fuel ih =>
    rcases hf r hr with ⟨h0, hle⟩
    rw [leftovers] at h
    rw [cuts, List.flatMap_cons]
    by_cases hz : r - f r = 0
    · rw [if_pos hz, List.flatMap_nil, List.append_nil, show f r = r by omega]
    · rw [if_neg hz] at h ⊢
      rw [if_pos (h _ List.mem_cons_self),
        ih hz (by omega) fun l hl => h l (List.mem_cons_of_mem _ hl), List.range'_append_1]
      congr 1
      omega

/-- How often a number is dealt out is in how many cuts it lies. -/
theorem count_cuts (x : ℕ) (l : List (ℕ × ℕ)) :
    (l.flatMap fun c => List.range' c.1 c.2).count x =
      l.countP fun c => c.1 ≤ x ∧ x < c.1 + c.2 := by
  induction l with
  | nil => rfl
  | cons c l ih =>
    rw [List.flatMap_cons, List.count_append, ih, List.countP_cons, Nat.add_comm]
    congr 1
    by_cases hx : c.1 ≤ x ∧ x < c.1 + c.2
    · rw [List.count_eq_one_of_mem List.nodup_range' (List.mem_range'_1.mpr hx)]
      simp [hx]
    · rw [List.count_eq_zero.mpr fun h => hx (List.mem_range'_1.mp h)]
      simp [hx]

/-- No packet goes past what it may take. -/
theorem cuts_le (hf : Cutting f) (hr : r ≠ 0) (h : k + r ≤ e) :
    ∀ c ∈ cuts f advance fuel r k, c.1 + c.2 ≤ e := by
  induction fuel generalizing r k with
  | zero => simp [cuts]
  | succ fuel ih =>
    rcases hf r hr with ⟨h0, hle⟩
    rw [cuts]
    rintro c hc
    rcases List.mem_cons.mp hc with rfl | hc
    · simp only
      omega
    · split at hc
      · simp at hc
      · rename_i hz
        apply ih hz _ c hc
        split <;> omega

/-- A packet after which the sender did not advance leaves the last chunk to nobody. -/
theorem cuts_lag (hf : Cutting f) (hr : r ≠ 0) (he : k + r = e)
    (h : ∃ l ∈ leftovers f fuel r, advance l = false) :
    ∀ c ∈ cuts f advance fuel r k, c.1 + c.2 < e := by
  induction fuel generalizing r k with
  | zero => simp [cuts]
  | succ fuel ih =>
    rcases hf r hr with ⟨h0, hle⟩
    rcases h with ⟨l, hl, hadv⟩
    rw [leftovers] at hl
    by_cases hz : r - f r = 0
    · simp [hz] at hl
    · rw [if_neg hz] at hl
      rw [cuts, if_neg hz]
      rintro c hc
      rcases List.mem_cons.mp hc with rfl | hc
      · simp only
        omega
      · by_cases ha : advance (r - f r) = true
        · rw [if_pos ha] at hc
          rcases List.mem_cons.mp hl with rfl | hl
          · simp [ha] at hadv
          · exact ih hz (by omega) ⟨l, hl, hadv⟩ c hc
        · rw [if_neg ha] at hc
          have := @cuts_le f advance fuel (r - f r) k (e - 1) hf hz (by omega) c hc
          omega

end Gasnet
