import Gasnet.Coll.ConsensusRuns
import Gasnet.Foundation.Run

/-! An identifier that all ranks try again and again completes, once those before it have. -/
namespace Gasnet.Coll.Consensus

variable {N : Nat} {debug : Bool} {s t u : State N} {r : Fin N} {n m c k : Nat}
  {id : BitVec 32} {a : Action N} {b : Bool} {x : PC} {E : Nat → State N}
  {A : Nat → Option (Action N)}

/-- The rank goes on in its call. -/
def Action.Moves (r : Fin N) : Action N → Prop
  | .notify j | .notReady j | .ready j _ | .ret j _ _ => j = r
  | .create _ | .call _ _ => False

/-- Where a rank is, and how far. -/
def At (r : Fin N) (x : PC) (n c : Nat) (s : State N) : Prop :=
  (s.loc r).pc = x ∧ s.barrier.notified r = n ∧ s.barrier.completed r = c

theorem set_loc_self (s : State N) (r : Fin N) (l : Local) : (s.set r l).loc r = l :=
  Function.update_self ..

theorem set_loc_of_ne {j : Fin N} {l : Local} (hj : r ≠ j) : (s.set j l).loc r = s.loc r :=
  Function.update_of_ne hj _ _

/-- A call waits for its own rank only. -/
theorem at_step (hs : Inv debug s) (h : WindowStep debug s a t) (hx : x ≠ .idle)
    (ha : ¬a.Moves r) (hat : At r x n c s) : At r x n c t := by
  obtain ⟨hpc, hn, hc⟩ := hat
  obtain ⟨h, hw⟩ := h
  cases h with
  | @create j hj =>
    refine ⟨?_, hn, hc⟩
    by_cases hr : r = j
    · subst hr
      rw [set_loc_self]
      exact (create_pc (hs.coherent r) hw).trans hpc
    · rw [set_loc_of_ne hr]
      exact hpc
  | @call j k id hj hid =>
    have hr : r ≠ j := by
      rintro rfl
      exact hx (hpc.symm.trans hj)
    exact ⟨(congrArg Local.pc (set_loc_of_ne hr)).trans hpc, hn, hc⟩
  | @notify j k id hj =>
    have hr : r ≠ j := fun h => ha h.symm
    exact ⟨(congrArg Local.pc (set_loc_of_ne hr)).trans hpc,
      (Function.update_of_ne hr _ _).trans hn, hc⟩
  | @notReady j why k id hj =>
    have hr : r ≠ j := fun h => ha h.symm
    exact ⟨(congrArg Local.pc (set_loc_of_ne hr)).trans hpc, hn, hc⟩
  | @ready j why k id ok hj hok =>
    have hr : r ≠ j := fun h => ha h.symm
    exact ⟨(congrArg Local.pc (set_loc_of_ne hr)).trans hpc, hn,
      (Function.update_of_ne hr _ _).trans hc⟩
  | @ret j k id hj =>
    have hr : r ≠ j := fun h => ha h.symm
    exact ⟨(congrArg Local.pc (set_loc_of_ne hr)).trans hpc, hn, hc⟩

theorem notified_step (h : Step debug s a t) (r : Fin N) :
    s.barrier.notified r ≤ t.barrier.notified r := by
  cases h with
  | create | call | notReady | ret | ready => exact Nat.le_refl _
  | @notify j =>
    show _ ≤ Function.update s.barrier.notified j _ r
    rw [Function.update_apply]
    split
    · rename_i h
      subst h
      exact Nat.le_succ _
    · exact Nat.le_refl _

/-- Every rank tries `k` until it is complete, and goes on in a call it has begun; and a rank
whose barrier all have notified is not put off for ever. -/
structure Retries (E : Nat → State N) (A : Nat → Option (Action N)) (k : Nat) : Prop where
  calls : ∀ n r, ∃ m ≥ n, A m = some (.call r k) ∨ k < (E m).barrier.completed r
  moves : ∀ n r, ((E n).loc r).pc ≠ .idle → ∃ m ≥ n, ∃ a, A m = some a ∧ a.Moves r
  answers : ∀ n r, (E n).barrier.notified r = (E n).barrier.completed r + 1 →
    (∀ j, (E n).barrier.notified r ≤ (E n).barrier.notified j) →
    (∀ m ≥ n, ∃ m' ≥ m, A m' = some (.notReady r)) → ∃ m ≥ n, ∃ ok, A m = some (.ready r ok)

section Runs

variable (hE : Execution (WindowStep debug) E A) (h0 : Reachable (WindowStep debug) (initial N) (E 0))
  (hR : Retries E A k)

include hE h0

theorem reachable_at (n : Nat) : Reachable (WindowStep debug) (initial N) (E n) := by
  obtain ⟨xs, hx⟩ := h0
  obtain ⟨ys, hy⟩ := hE.reachable n
  exact ⟨xs ++ ys, hx.append hy⟩

theorem inv_at (n : Nat) : Inv debug (E n) := inv_reachable (reachable_at hE h0 n)

omit h0 in
theorem completed_mono (r : Fin N) (hmn : n ≤ m) :
    (E n).barrier.completed r ≤ (E m).barrier.completed r :=
  hE.keeps (P := fun s => (E n).barrier.completed r ≤ s.barrier.completed r)
    (fun _ _ _ _ hP hs => Nat.le_trans hP (completed_step hs.1 r)) (Nat.le_refl _) m hmn

omit h0 in
theorem notified_mono (r : Fin N) (hmn : n ≤ m) :
    (E n).barrier.notified r ≤ (E m).barrier.notified r :=
  hE.keeps (P := fun s => (E n).barrier.notified r ≤ s.barrier.notified r)
    (fun _ _ _ _ hP hs => Nat.le_trans hP (notified_step hs.1 r)) (Nat.le_refl _) m hmn

include hR

/-- A rank in a call makes its next move from where it is. -/
theorem next_move (hx : x ≠ .idle) (hat : At r x n c (E m)) :
    ∃ i ≥ m, ∃ a, A i = some a ∧ a.Moves r ∧ At r x n c (E i) ∧
      WindowStep debug (E i) a (E (i + 1)) := by
  refine hE.first (P := At r x n c) (Q := Action.Moves r) ?_ hat ?_
  · exact fun i _ a hP hs hQ => at_step (inv_at hE h0 i) hs hx hQ hP
  · exact hR.moves m r (hat.1 ▸ hx)

/-- A call for `k` by a rank that has not completed it. -/
theorem exists_call (hk : k ≤ (E m).barrier.completed r)
    (hle : ∀ i, (E i).barrier.completed r ≤ k) :
    ∃ i ≥ m, ∃ id, (E i).barrier.notified r = (E (i + 1)).barrier.notified r ∧
      At r (if (E i).barrier.notified r = k then .turn k id else .trying .other k id)
        ((E i).barrier.notified r) k (E (i + 1)) := by
  obtain ⟨i, hi, ha | hlt⟩ := hR.calls m r
  case inr => exact absurd hlt (Nat.not_lt.mpr (hle i))
  have hs := hE.step i _ ha
  have hc : (E i).barrier.completed r = k :=
    Nat.le_antisymm (hle i) (Nat.le_trans hk (completed_mono hE r hi))
  have hr := (inv_at hE h0 i).coherent r
  have hle := hr.le
  have hle' := hr.le_succ
  have hw := (window_le debug).1
  refine ⟨i, hi, ?_⟩
  generalize E (i + 1) = t at hs ⊢
  obtain ⟨hs, hwin⟩ := hs
  cases hs with
  | @call _ _ id hpc hid =>
    obtain ⟨hact, hr'⟩ := coherent_tried hr hid
    have hbranch := branch_eq hr' hact (by omega)
    refine ⟨id, rfl, ?_, rfl, hc⟩
    rw [set_loc_self, call_pc hr hid]
    refine hbranch.trans ?_
    rw [if_neg (by omega)]
    by_cases hn : (E i).barrier.notified r = k
    · rw [if_pos (by omega), if_pos hn]
    · rw [if_neg (by omega), if_pos (by omega), if_neg hn]

theorem exists_notified (hk : k ≤ (E 0).barrier.completed r) :
    ∃ n, ∀ m ≥ n, k < (E m).barrier.notified r := by
  suffices hgoal : ∃ n, k < (E n).barrier.notified r by
    obtain ⟨n, hn⟩ := hgoal
    exact ⟨n, fun m hm => Nat.lt_of_lt_of_le hn (notified_mono hE r hm)⟩
  by_contra hnever
  have hle : ∀ i, (E i).barrier.notified r ≤ k := fun i => by
    by_contra hlt
    exact hnever ⟨i, by omega⟩
  have hcle : ∀ i, (E i).barrier.completed r ≤ k := fun i =>
    Nat.le_trans ((inv_at hE h0 i).coherent r).le (hle i)
  obtain ⟨i, -, id, -, hat⟩ := exists_call hE h0 hR hk hcle
  have hn : (E i).barrier.notified r = k :=
    Nat.le_antisymm (hle i) (Nat.le_trans hk (Nat.le_trans (completed_mono hE r (Nat.zero_le i))
      ((inv_at hE h0 i).coherent r).le))
  rw [if_pos hn, hn] at hat
  obtain ⟨j, -, a, -, hmoves, hat, hs⟩ := next_move hE h0 hR (x := .turn k id) nofun hat
  have hlast := hle (j + 1)
  obtain ⟨hpc, hn, -⟩ := hat
  generalize E (j + 1) = t at hs hlast
  cases hs.1 with
  | create | call => exact hmoves
  | notify hj =>
    cases hmoves
    change Function.update (E j).barrier.notified r _ r ≤ k at hlast
    rw [Function.update_self] at hlast
    omega
  | notReady hj | ready ok hj hok | ret hj =>
    cases hmoves
    rw [hpc] at hj
    cases hj

/-- When all have notified, a rank that keeps trying gets through. -/
theorem exists_completed (hk : ∀ r, k ≤ (E 0).barrier.completed r) (r : Fin N) :
    ∃ n, ∀ m ≥ n, k < (E m).barrier.completed r := by
  suffices hgoal : ∃ n, k < (E n).barrier.completed r by
    obtain ⟨n, hn⟩ := hgoal
    exact ⟨n, fun m hm => Nat.lt_of_lt_of_le hn (completed_mono hE r hm)⟩
  by_contra hnever
  have hle : ∀ i, (E i).barrier.completed r ≤ k := fun i => by
    by_contra hlt
    exact hnever ⟨i, by omega⟩
  have hge : ∀ i, k ≤ (E i).barrier.completed r := fun i =>
    Nat.le_trans (hk r) (completed_mono hE r (Nat.zero_le i))
  obtain ⟨n₀, hall⟩ := exists_forall_ge fun j => exists_notified hE h0 hR (hk j)
  have hcount : ∀ i ≥ n₀, (E i).barrier.notified r = k + 1 ∧ (E i).barrier.completed r = k := by
    intro i hi
    have hlt := hall i hi r
    have hle' := ((inv_at hE h0 i).coherent r).le_succ
    have := hle i
    have := hge i
    omega
  have hno : ∀ i ok, A i ≠ some (.ready r ok) := by
    intro i ok ha
    have hs := hE.step i _ ha
    have hlast := hle (i + 1)
    have := hge i
    generalize E (i + 1) = t at hs hlast
    cases hs.1 with
    | ready ok hj hok =>
      change Function.update (E i).barrier.completed r _ r ≤ k at hlast
      rw [Function.update_self] at hlast
      omega
  have hput : ∀ m ≥ n₀, ∃ m' ≥ m, A m' = some (.notReady r) := by
    intro m hm
    obtain ⟨i, hi, id, -, hat⟩ := exists_call hE h0 hR (hge m) hle
    have hn := (hcount i (by omega)).1
    rw [if_neg (by omega)] at hat
    obtain ⟨j, hj, a, ha, hmoves, hat, hs⟩ := next_move hE h0 hR (x := .trying .other k id) nofun hat
    obtain ⟨hpc, -, -⟩ := hat
    refine ⟨j, by omega, ?_⟩
    generalize E (j + 1) = t at hs
    cases hs.1 with
    | create | call => exact hmoves.elim
    | notReady h =>
      cases hmoves
      exact ha
    | ready ok h hok =>
      cases hmoves
      exact absurd ha (hno j ok)
    | notify h | ret h =>
      cases hmoves
      rw [hpc] at h
      cases h
  obtain ⟨hn, hc⟩ := hcount n₀ (Nat.le_refl _)
  obtain ⟨m, -, ok, ha⟩ := hR.answers n₀ r (by omega) (fun j => by
    have := hall n₀ (Nat.le_refl _) j
    omega) hput
  exact hno m ok ha

end Runs

/-- As long as they are within the window of the counters, identifiers are used as a split-phase
barrier wants it: `notify` and a successful try alternate, the `k`-th notify belongs to a try of
the `k`-th identifier, and OK means that all have tried the same, for good. -/
def Sound (debug : Bool) (s : State N) : Prop :=
  (∀ r, (s.loc r).pc ≠ .fatal) ∧
  ∀ a t, WindowStep debug s a t →
    Barrier.Spec.Simulates s.barrier (a.event debug s) t.barrier ∧
    (∀ r, a = .notify r → ∃ id, (s.loc r).ids[s.barrier.notified r]? = some id ∧
      (s.loc r).pc = .turn (s.barrier.notified r) id) ∧
    ∀ r k, a = .ret r k true → (∀ j, k ∈ (s.loc j).tried) ∧
      ∀ u, Reachable (WindowStep debug) t u → ∀ b v, WindowStep debug u (.ret r k b) v → b = true

/-- When all have completed what comes before `k` and keep trying it, it completes. -/
def Completes (debug : Bool) (s : State N) : Prop :=
  ∀ k, (∀ r, k ≤ s.barrier.completed r) → ∀ E A, Execution (WindowStep debug) E A → E 0 = s →
    Retries E A k → ∃ n, ∀ m ≥ n, ∀ r, k < (E m).barrier.completed r ∧
      ∀ b, A m = some (.ret r k b) → b = true

theorem sound (h : Reachable (WindowStep debug) (initial N) s) : Sound debug s := by
  have hs := inv_reachable h
  refine ⟨fun r hr => ?_, fun a t hstep => ⟨simulates_step hs hstep.1, ?_, ?_⟩⟩
  · have hplace := (hs.coherent r).place
    rw [hr] at hplace
    exact hplace
  · rintro r rfl
    cases hstep.1 with
    | @notify _ k id hpc =>
      have hr := hs.coherent r
      have hplace := hr.place
      rw [hpc] at hplace
      obtain ⟨ha, -, hk⟩ := hplace
      refine ⟨id, ?_, hk ▸ hpc⟩
      obtain ⟨id', hid'⟩ : ∃ id', (s.loc r).ids[k]? = some id' :=
        ⟨_, List.getElem?_eq_getElem ha.lt⟩
      rw [← hk, hid', hr.ids k id' hid', ha.id_eq]
  · rintro r k rfl
    have hk : k < s.barrier.completed r := of_decide_eq_true (ret_eq hs hstep.1).symm
    refine ⟨tried_of_completed hs (completed_le_notified h) hk, fun u hu b v hv => ?_⟩
    obtain ⟨xs, hx⟩ := h.snoc hstep
    obtain ⟨ys, hy⟩ := hu
    have hmono : s.barrier.completed r ≤ u.barrier.completed r :=
      hy.invariant (P := fun u => s.barrier.completed r ≤ u.barrier.completed r)
        (fun h hP => Nat.le_trans hP (completed_step h.1 r)) (completed_step hstep.1 r)
    rw [ret_eq (inv_reachable ⟨_, hx.append hy⟩) hv.1]
    exact decide_eq_true (Nat.lt_of_lt_of_le hk hmono)

theorem completes (h : Reachable (WindowStep debug) (initial N) s) : Completes debug s := by
  rintro k hk E A hE rfl hR
  obtain ⟨n, hn⟩ := exists_forall_ge (exists_completed hE h hR hk)
  refine ⟨n, fun m hm r => ⟨hn m hm r, fun b hb => ?_⟩⟩
  rw [ret_eq (inv_at hE h m) (hE.step m _ hb).1]
  exact decide_eq_true (hn m hm r)

section Alone

/-- A rank alone creates an identifier, -/
def alone₁ : State 1 := (initial 1).set 0 (((initial 1).loc 0).create false)

/-- begins a try of it, -/
def alone₂ : State 1 := alone₁.set 0 ((alone₁.loc 0).call false 0 (idAt 0))

/-- enters the barrier, -/
def alone₃ : State 1 :=
  { alone₂.set 0 ((alone₂.loc 0).notify false 0 (idAt 0)) with
    barrier := alone₂.barrier.notify 0 (name false ((alone₂.loc 0).consensusId + 1)) }

/-- finds it complete, -/
def alone₄ : State 1 :=
  { alone₃.set 0 ((alone₃.loc 0).answer false .own 0 (idAt 0) true) with
    barrier := alone₃.barrier.wait 0 }

/-- and returns. -/
def alone₅ : State 1 := alone₄.set 0 ((alone₄.loc 0).leave false (idAt 0))

def alone : Nat → State 1
  | 0 => initial 1
  | 1 => alone₁
  | 2 => alone₂
  | 3 => alone₃
  | 4 => alone₄
  | _ + 5 => alone₅

def aloneActions : Nat → Option (Action 1)
  | 0 => some (.create 0)
  | 1 => some (.call 0 0)
  | 2 => some (.notify 0)
  | 3 => some (.ready 0 true)
  | 4 => some (.ret 0 0 true)
  | _ + 5 => none

theorem alone_execution : Execution (WindowStep false) alone aloneActions where
  idle n h := by
    match n, h with
    | n + 5, _ => rfl
  step n a h := by
    match n, a, h with
    | 0, _, rfl =>
      have hpc : ((initial 1).loc 0).pc ≠ .fatal := show PC.idle ≠ .fatal from nofun
      exact ⟨.create hpc, show 0 < 0 + 2 ^ 30 by decide⟩
    | 1, _, rfl =>
      have hid : (alone₁.loc 0).ids[0]? = some (idAt 0) := rfl
      exact ⟨.call rfl hid, show 0 ≤ 0 + 2 ^ 30 by decide⟩
    | 2, _, rfl =>
      have hpc : (alone₂.loc 0).pc = .turn 0 (idAt 0) := rfl
      exact ⟨.notify hpc, trivial⟩
    | 3, _, rfl =>
      have hall : ∀ j, alone₃.barrier.notified 0 ≤ alone₃.barrier.notified j := fun j => by
        rw [Fin.fin_one_eq_zero j]
      have hpc : (alone₃.loc 0).pc = .trying .own 0 (idAt 0) := rfl
      exact ⟨.ready true hpc fun _ =>
        ⟨hall, by decide⟩, trivial⟩
    | 4, _, rfl =>
      have hpc : (alone₄.loc 0).pc = .done 0 (idAt 0) := rfl
      have hres : (alone₄.loc 0).result (idAt 0) = true := by decide
      have hstep : Step false alone₄ (.ret 0 0 ((alone₄.loc 0).result (idAt 0))) alone₅ := .ret hpc
      rw [hres] at hstep
      exact ⟨hstep, trivial⟩

theorem alone_retries : Retries alone aloneActions 0 where
  calls n r := by
    obtain rfl := Fin.fin_one_eq_zero r
    exact ⟨n + 5, by omega, Or.inr (show 0 < alone₅.barrier.completed 0 by decide)⟩
  moves n r h := by
    obtain rfl := Fin.fin_one_eq_zero r
    match n, h with
    | 0, h => exact absurd (show ((initial 1).loc 0).pc = .idle from rfl) h
    | 1, h => exact absurd (show (alone₁.loc 0).pc = .idle from rfl) h
    | 2, _ => exact ⟨2, Nat.le_refl _, _, rfl, rfl⟩
    | 3, _ => exact ⟨3, Nat.le_refl _, _, rfl, rfl⟩
    | 4, _ => exact ⟨4, Nat.le_refl _, _, rfl, rfl⟩
    | n + 5, h => exact absurd (show (alone₅.loc 0).pc = .idle from rfl) h
  answers n r _ _ h := by
    obtain ⟨m, hm, ha⟩ := h (n + 5) (by omega)
    match m, ha with
    | m + 5, ha => cases ha

end Alone

section Beyond

/-- A step that both descriptions allow. -/
def BothStep (debug : Bool) (s : State N) (a : Action N) (t : State N) : Prop :=
  WindowStep debug s a t ∧ FewStep debug s a t

/-- A rank alone, with so many identifiers, in no call, that has entered and left `n` barriers. -/
structure Rests (debug : Bool) (s : State 1) (len n : Nat) : Prop where
  reachable : Reachable (BothStep debug) (initial 1) s
  pc : (s.loc 0).pc = .idle
  length : (s.loc 0).ids.length = len
  notified : s.barrier.notified 0 = n
  completed : s.barrier.completed 0 = n

theorem reachable_mono {step step' : State N → Action N → State N → Prop}
    (hsub : ∀ {s a t}, step s a t → step' s a t) (h : Reachable step s t) : Reachable step' s t := by
  obtain ⟨xs, hx⟩ := h
  exact ⟨xs, hx.mono hsub⟩

theorem Rests.coherent {s : State 1} {len : Nat} (h : Rests debug s len n) :
    Coherent debug (s.loc 0) n n := by
  have := (inv_reachable (reachable_mono (fun h => h.1) h.reachable)).coherent 0
  rwa [h.notified, h.completed] at this

theorem rests_initial (debug : Bool) : Rests debug (initial 1) 0 0 :=
  ⟨.refl, rfl, rfl, rfl, rfl⟩

/-- The window of a debug build is well within `2 ^ 30`. -/
theorem few_of_lt {x : Nat} (h : x < window true + 1) : x + 1 < 0 + FEW :=
  Nat.lt_of_lt_of_le (Nat.succ_lt_succ h) (by decide)

/-- Identifiers can be created until the window is full. -/
theorem exists_created (n : Nat) (hn : n ≤ window true) : ∃ s, Rests true s n 0 := by
  induction n with
  | zero => exact ⟨_, rests_initial true⟩
  | succ n ih =>
    obtain ⟨s, hs⟩ := ih (by omega)
    have hroom : (s.loc 0).ids.length < 0 + window true := by
      rw [hs.length]
      omega
    have hstep : Step true s (.create 0) _ := .create (by rw [hs.pc]; exact nofun)
    refine ⟨_, hs.reachable.snoc ⟨⟨hstep, ?_⟩, hstep, ?_⟩, ?_, ?_, hs.notified, hs.completed⟩
    · show _ < s.barrier.completed 0 + _
      rwa [hs.completed]
    · rintro r ⟨⟩
      rw [hs.length, hs.completed]
      exact few_of_lt (by omega)
    · rw [set_loc_self]
      exact (create_pc hs.coherent hroom).trans hs.pc
    · show ((s.loc 0).ids ++ [_]).length = _
      rw [List.length_append, hs.length]
      rfl

/-- A barrier is created, tried once and complete. -/
theorem exists_barrier {s : State 1} (hs : Rests false s n n) : ∃ t u, Rests false u (n + 1) (n + 1) ∧
    Reachable (BothStep false) s t ∧ BothStep false t (.ret 0 n true) u ∧
    ∀ (k : Nat) (id : BitVec 32), (s.loc 0).ids[k]? = some id → (u.loc 0).ids[k]? = some id := by
  let l := s.loc 0
  let l₁ := l.create false
  let l₂ := l₁.call false n l.issuedId
  let l₃ := l₂.notify false n l.issuedId
  let l₄ := l₃.answer false .own n l.issuedId true
  let s₁ := s.set 0 l₁
  let s₂ := s₁.set 0 l₂
  let b₃ := s.barrier.notify 0 (name false (l₂.consensusId + 1))
  let s₃ : State 1 := { s₂.set 0 l₃ with barrier := b₃ }
  let s₄ : State 1 := { s₃.set 0 l₄ with barrier := b₃.wait 0 }
  have hl := hs.coherent
  have hroom : l.ids.length < n + window false := by
    rw [show l.ids.length = n from hs.length]
    exact Nat.lt_add_of_pos_right (by decide)
  have hl₁ := coherent_create hl hroom
  have hid : l₁.ids[n]? = some l.issuedId := by
    have : n = l.ids.length := hs.length.symm
    show (l.ids ++ [l.issuedId])[n]? = _
    rw [this, List.getElem?_concat_length]
  obtain ⟨hact, hl'⟩ := coherent_tried hl₁ hid
  have hturn : l₂.pc = .turn n l.issuedId := by
    rw [show l₂.pc = l₁.branch n l.issuedId from call_pc hl₁ hid]
    refine (branch_eq hl' hact (Nat.le_add_right _ _)).trans ?_
    rw [if_neg (by omega), if_pos (by omega)]
  have h₁ : BothStep false s (.create 0) s₁ := by
    have hstep : Step false s (.create 0) s₁ := .create (by rw [hs.pc]; exact nofun)
    refine ⟨⟨hstep, ?_⟩, hstep, ?_⟩
    · show _ < s.barrier.completed 0 + _
      rwa [hs.completed]
    · rintro r ⟨⟩
      rw [hs.length, hs.completed]
      exact Nat.add_lt_add_left (by decide) n
  have h₂ : BothStep false s₁ (.call 0 n) s₂ := by
    have hstep : Step false s₁ (.call 0 n) s₂ := .call (s := s₁) hs.pc hid
    refine ⟨⟨hstep, ?_⟩, hstep, nofun⟩
    show s.barrier.notified 0 ≤ _
    rw [hs.notified]
    exact Nat.le_add_right _ _
  have h₃ : BothStep false s₂ (.notify 0) s₃ :=
    have hstep : Step false s₂ (.notify 0) s₃ := .notify (s := s₂) hturn
    ⟨⟨hstep, trivial⟩, hstep, nofun⟩
  have hinv₃ : Inv false s₃ := inv_reachable (reachable_mono (fun h => h.1)
    (((hs.reachable.snoc h₁).snoc h₂).snoc h₃))
  have hn₃ : s₃.barrier.notified 0 = n + 1 := congrArg Nat.succ hs.notified
  have hc₃ : s₃.barrier.completed 0 = n := hs.completed
  have hl₃ : Coherent false l₃ (n + 1) n := by
    have := hinv₃.coherent 0
    rwa [hn₃, hc₃] at this
  have h₄ : BothStep false s₃ (.ready 0 true) s₄ := by
    have hok : Promised s₃.barrier 0 (name false (s₃.loc 0).consensusId)
        (Barrier.outcome (s₃.barrier.total (s₃.barrier.notified 0))
          (name false (s₃.loc 0).consensusId)) :=
      fun _ => ⟨fun j => by rw [Fin.fin_one_eq_zero j], rfl⟩
    have hpc : (s₃.loc 0).pc = .trying .own n l.issuedId := rfl
    have htrue := (promised hinv₃ hpc hok).2.2.2
    rw [htrue] at hok
    have hstep : Step false s₃ (.ready 0 true) s₄ := .ready (s := s₃) true rfl hok
    exact ⟨⟨hstep, trivial⟩, hstep, nofun⟩
  have hl₄ : Coherent false l₄ (n + 1) (n + 1) := coherent_advance hl₃ rfl
  have h₅ : BothStep false s₄ (.ret 0 n true) (s₄.set 0 (l₄.leave false l.issuedId)) := by
    have hstep : Step false s₄ (.ret 0 n (l₄.result l.issuedId))
        (s₄.set 0 (l₄.leave false l.issuedId)) := .ret (s := s₄) rfl
    have hres : l₄.result l.issuedId = true :=
      (result_eq hl₄ rfl).trans (decide_eq_true (Nat.lt_succ_self n))
    rw [hres] at hstep
    exact ⟨⟨hstep, trivial⟩, hstep, nofun⟩
  refine ⟨s₄, _, ⟨((((hs.reachable.snoc h₁).snoc h₂).snoc h₃).snoc h₄).snoc h₅, ?_, ?_, hn₃, ?_⟩,
    (((Reachable.refl.snoc h₁).snoc h₂).snoc h₃).snoc h₄, h₅, ?_⟩
  · have hsafe : seq32Safe false l₄.consensusId (l.issuedId + 2) := fun h => by cases h
    show (if seq32Safe false l₄.consensusId (l.issuedId + 2) then PC.idle else .fatal) = _
    exact if_pos hsafe
  · show (l.ids ++ [_]).length = _
    rw [List.length_append, show l.ids.length = n from hs.length]
    rfl
  · exact congrArg Nat.succ hc₃
  · intro k id h
    show (l.ids ++ [_])[k]? = _
    rw [List.getElem?_append_left (List.getElem?_eq_some_iff.mp h).1]
    exact h

end Beyond

end Gasnet.Coll.Consensus
