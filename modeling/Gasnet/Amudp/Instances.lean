import Gasnet.Amudp.Network

/-! The search for a free request instance, in `AMUDP_RequestGeneric` and in the pre-check of
`AMUDP_RequestXferAsync`. -/
namespace Gasnet.Amudp

variable {Node : Type} {ep : Endpoint Node} {q : Node}
  {depth hint i n fuel sendDepth : ℕ}

/-- What becomes of an asynchronous request; one that goes on has its instance, its descriptor and
the new hint. -/
inductive Asked
  | inUse
  | waits
  | takes (a : ℕ × ℕ × ℕ)
  deriving DecidableEq

namespace Endpoint

/-- The loop of the pre-check, which does look at every descriptor on its way. -/
def precheckLoop (ep : Endpoint Node) (depth : ℕ) (q : Node) : (fuel i : ℕ) → Option Bool
  | 0, _ => none
  | fuel + 1, i =>
    if (ep.req q i).buffer.isNone then some true
    else
      let i := nextInst depth i
      if i = ep.hint q then some false else precheckLoop ep depth q fuel i

/-- `AMUDP_RequestXferAsync` to a peer that is not the caller itself. -/
def requestXferAsync (ep : Endpoint Node) (sendDepth depth : ℕ) (q : Node) : Option Asked :=
  if ep.outstanding ≥ sendDepth then some .inUse
  else
    match ep.precheckLoop depth q depth (ep.hint q) with
    | none => none
    | some false => some .inUse
    | some true =>
      match ep.acquire depth q with
      | none => some .waits
      | some a => some (.takes a)

/-- Some descriptor of the peer is free. -/
def Available (ep : Endpoint Node) (depth : ℕ) (q : Node) : Prop :=
  ∃ i < depth, (ep.req q i).buffer = none

/-- The instance is that of a free descriptor. -/
def Chooses (ep : Endpoint Node) (depth : ℕ) (q : Node) (a : ℕ × ℕ × ℕ) : Prop :=
  a.1 < depth ∧ a.2.1 = a.1 ∧ (ep.req q a.1).buffer = none

/-- A blocking request takes a free instance if there is one, and waits only if there is none; an
asynchronous one never waits, and fails only if there is none or the send depth is used up. -/
structure FindsFree (ep : Endpoint Node) (sendDepth depth : ℕ) (q : Node) : Prop where
  takes : ep.Available depth q → ∃ a, ep.acquire depth q = some a ∧ ep.Chooses depth q a
  waits : ¬ep.Available depth q → ep.acquire depth q = none
  async : ep.Available depth q → ep.outstanding < sendDepth →
    ∃ a, ep.requestXferAsync sendDepth depth q = some (.takes a) ∧ ep.Chooses depth q a
  inUse : (¬ep.Available depth q ∨ sendDepth ≤ ep.outstanding) →
    ep.requestXferAsync sendDepth depth q = some .inUse

end Endpoint

open Endpoint

/-- The instance so many steps after the hint. -/
def after (depth hint n : ℕ) : ℕ := (hint + n) % depth

theorem nextInst_after (h : 0 < depth) (n : ℕ) :
    nextInst depth (after depth hint n) = after depth hint (n + 1) := by
  unfold nextInst after
  rw [← Nat.add_assoc, ← Nat.mod_add_mod (hint + n) depth 1]
  have hlt := Nat.mod_lt (hint + n) h
  generalize (hint + n) % depth = x at hlt ⊢
  split
  · rename_i heq
    rw [heq, Nat.mod_self]
  · rw [Nat.mod_eq_of_lt (by omega)]

/-- The first step back at the hint is step `depth`. -/
theorem after_eq_hint (hh : hint < depth) (hn : 0 < n) (hle : n ≤ depth) :
    after depth hint n = hint ↔ n = depth := by
  unfold after
  constructor
  · intro h
    by_contra hne
    rcases Nat.lt_or_ge (hint + n) depth with hlt | hge
    · rw [Nat.mod_eq_of_lt hlt] at h
      omega
    · rw [Nat.mod_eq_sub_mod hge, Nat.mod_eq_of_lt (by omega)] at h
      omega
  · rintro rfl
    rw [Nat.add_mod_right, Nat.mod_eq_of_lt hh]

theorem after_zero (hh : hint < depth) : after depth hint 0 = hint := Nat.mod_eq_of_lt hh

/-- Every instance is reached. -/
theorem exists_after (hh : hint < depth) (hi : i < depth) : ∃ n < depth, after depth hint n = i := by
  rcases Nat.lt_or_ge i hint with hlt | hge
  · refine ⟨i + depth - hint, by omega, ?_⟩
    have hsum : hint + (i + depth - hint) = i + depth := by omega
    rw [after, hsum, Nat.add_mod_right, Nat.mod_eq_of_lt hi]
  · refine ⟨i - hint, by omega, ?_⟩
    have hsum : hint + (i - hint) = i := by omega
    rw [after, hsum, Nat.mod_eq_of_lt hi]

/-- The pre-check looks at every descriptor. -/
theorem precheckLoop_eq (hh : ep.hint q < depth) (hn : n < depth) (hfuel : depth - n ≤ fuel)
    (hseen : ∀ m < n, (ep.req q (after depth (ep.hint q) m)).buffer ≠ none) :
    ∃ b, ep.precheckLoop depth q fuel (after depth (ep.hint q) n) = some b ∧
      (b = true ↔ ep.Available depth q) := by
  induction fuel generalizing n with
  | zero => omega
  | succ fuel ih =>
    rw [Endpoint.precheckLoop, nextInst_after (by omega)]
    by_cases hb : (ep.req q (after depth (ep.hint q) n)).buffer = none
    · have hav : ep.Available depth q := ⟨_, Nat.mod_lt _ (by omega), hb⟩
      exact ⟨true, if_pos (Option.isNone_iff_eq_none.2 hb), fun _ => hav, fun _ => rfl⟩
    · have hnow : ∀ m < n + 1, (ep.req q (after depth (ep.hint q) m)).buffer ≠ none := by
        intro m hm
        rcases Nat.lt_succ_iff_lt_or_eq.1 hm with hm | rfl
        · exact hseen m hm
        · exact hb
      rw [if_neg (by simpa using hb)]
      by_cases heq : after depth (ep.hint q) (n + 1) = ep.hint q
      · rw [if_pos heq]
        rw [after_eq_hint hh (by omega) (by omega)] at heq
        refine ⟨false, rfl, nofun, ?_⟩
        rintro ⟨i, hi, hfree⟩
        obtain ⟨m, hm, rfl⟩ := exists_after hh hi
        exact absurd hfree (hnow m (by omega))
      · rw [if_neg heq]
        rw [after_eq_hint hh (by omega) (by omega)] at heq
        exact ih (by omega) (by omega) hnow

/-- Whatever the search does, only the hinted descriptor is ever taken. -/
theorem acquire_of_free (h : (ep.req q (ep.hint q)).buffer = none) :
    ep.acquire depth q = some (ep.hint q, ep.hint q, nextInst depth (ep.hint q)) := by
  rw [Endpoint.acquire, if_pos (by rw [h]; rfl)]

theorem acquire_of_busy (h : (ep.req q (ep.hint q)).buffer ≠ none) : ep.acquire depth q = none := by
  rw [Endpoint.acquire, if_neg (by simpa using h), search_eq_none h, Option.map_none]

/-- The search finds a free instance whenever there is one exactly if it is the one of the hint or
there is none. -/
theorem finds_free_iff (ep : Endpoint Node) (sendDepth depth : ℕ) (q : Node)
    (hh : ep.hint q < depth) :
    ep.FindsFree sendDepth depth q ↔
      ((ep.req q (ep.hint q)).buffer ≠ none → ∀ i < depth, (ep.req q i).buffer ≠ none) := by
  obtain ⟨b, hcheck, hb⟩ := @precheckLoop_eq Node ep q depth 0 depth hh (by omega) (by omega) nofun
  rw [after_zero hh] at hcheck
  constructor
  · intro h hbusy i hi hfree
    obtain ⟨a, htakes, -⟩ := h.takes ⟨i, hi, hfree⟩
    rw [acquire_of_busy hbusy] at htakes
    cases htakes
  · intro h
    have hhint : ep.Available depth q → (ep.req q (ep.hint q)).buffer = none := by
      rintro ⟨i, hi, hfree⟩
      by_contra hbusy
      exact h hbusy i hi hfree
    refine ⟨fun ha => ⟨_, acquire_of_free (hhint ha), hh, rfl, hhint ha⟩, fun hn => ?_,
      fun ha ho => ⟨(ep.hint q, ep.hint q, nextInst depth (ep.hint q)), ?_, hh, rfl, hhint ha⟩,
      fun hn => ?_⟩
    · exact acquire_of_busy fun hfree => hn ⟨_, hh, hfree⟩
    · rw [requestXferAsync, if_neg (by omega), hcheck, hb.2 ha, acquire_of_free (hhint ha)]
    · rw [requestXferAsync]
      split
      · rfl
      · rename_i ho
        have hnone : ¬ep.Available depth q := hn.resolve_right ho
        have hfalse : b = false := by
          by_contra hne
          exact hnone (hb.1 (by simpa using hne))
        rw [hcheck, hfalse]

/-- Requests to the one peer on these instances are outstanding. -/
def outstandingOn (busy : List ℕ) (hint : ℕ) : Endpoint Unit :=
  { Endpoint.initial with
    req := fun _ i =>
      ⟨if i ∈ busy then some ⟨(), (), ⟨0, 0, true, .user, 0, Body.empty⟩, 0, 0⟩ else none, 0, 0⟩
    hint := fun _ => hint
    outstanding := busy.length }

theorem finds_free_hinted : (outstandingOn [0, 1] 2).FindsFree 4 3 () :=
  (finds_free_iff (outstandingOn [0, 1] 2) 4 3 () (by decide)).2 fun hbusy => absurd rfl hbusy

/-- Two requests are sent, the first one is answered and its instance taken again: the hint is the
second one, which is busy, and the third one is free. -/
theorem free_instance_missed : ¬(outstandingOn [0, 1] 1).FindsFree 4 3 () := by
  intro h
  obtain ⟨a, htakes, -⟩ := h.takes ⟨2, by decide, rfl⟩
  rw [acquire_of_busy (by decide)] at htakes
  cases htakes

end Gasnet.Amudp
