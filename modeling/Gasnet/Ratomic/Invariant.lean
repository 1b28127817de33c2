import Mathlib.Data.List.Nodup
import Mathlib.Data.List.Count
import Gasnet.Ratomic.System

/-! What holds of the operations of a domain at every moment: where they are, what they have in use, and
the order in which they have taken effect. -/
namespace Gasnet.Ratomic

variable {d : DT} {calls : Nat → Call d} {mem₀ : Nat → Val d} {s t : State d} {i j r e : Nat}
  {x v : Val d} {f f' : Frame d} {c : Completion} {l : List Nat}

/-- Operation `i`, done at one go. -/
def effect (calls : Nat → Call d) (mem : Nat → Val d) (i : Nat) : Nat → Val d :=
  Function.update mem (calls i).target
    ((calls i).op.apply (calls i).operand1 (calls i).operand2 (mem (calls i).target))

/-- The operations of the list, one after the other. -/
def runAll (calls : Nat → Call d) (mem : Nat → Val d) (l : List Nat) : Nat → Val d :=
  l.foldl (effect calls) mem

theorem runAll_append : runAll calls mem₀ (l ++ [i]) = effect calls (runAll calls mem₀ l) i := by
  simp [runAll]

/-- `i` has taken effect, and a result of `x` is what it found then. -/
def Fetched (calls : Nat → Call d) (mem₀ : Nat → Val d) (order : List Nat) (i : Nat) (x : Val d) : Prop :=
  ∃ l₁ l₂, order = l₁ ++ i :: l₂ ∧
    ((calls i).op.fetch → x = runAll calls mem₀ l₁ (calls i).target)

theorem Fetched.mem (h : Fetched calls mem₀ l i x) : i ∈ l := by
  obtain ⟨l₁, l₂, rfl, -⟩ := h
  simp

theorem Fetched.append (h : Fetched calls mem₀ l i x) : Fetched calls mem₀ (l ++ [j]) i x := by
  obtain ⟨l₁, l₂, rfl, hx⟩ := h
  exact ⟨l₁, l₂ ++ [j], by simp, hx⟩

/-- A call of `gasnete_ratomicfn` takes effect with the access that ends it. -/
def Exec (calls : Nat → Call d) (mem₀ : Nat → Val d) (order : List Nat) (i : Nat) : Frame d → Prop
  | .returned x => Fetched calls mem₀ order i x
  | _ => i ∉ order

/-- `i` has begun and not completed: its event is not done, and its record is in use. -/
structure Held (calls : Nat → Call d) (s : State d) (i : Nat) (r : Option Nat) (c : Completion) :
    Prop where
  pending : i ∈ s.pending
  handle : s.handle i = some c
  rop : ∀ k, r = some k → s.rops k = some ⟨if (calls i).op.fetch then some i else none, c⟩
  event : ∀ e, c = .eop e → s.eops e = some false

def Result (calls : Nat → Call d) (mem₀ : Nat → Val d) (s : State d) (i : Nat) : Prop :=
  ∃ x, Fetched calls mem₀ s.order i x ∧ ((calls i).op.fetch → s.results i = some x)

/-- What holds of operation `i` where it is. -/
def Ok (calls : Nat → Call d) (mem₀ : Nat → Val d) (s : State d) (i : Nat) : Prop :=
  match s.stage i with
  | .idle => i ∉ s.order ∧ i ∉ s.pending ∧ s.handle i = none
  | .direct f => Exec calls mem₀ s.order i f ∧ i ∉ s.pending ∧ s.handle i = none
  | .starting r => i ∉ s.order ∧ ∃ c, Held calls s i r c
  | .requested m => i ∉ s.order ∧ m = (calls i).request m.rop ∧ ∃ c, Held calls s i (some m.rop) c
  | .handling f op m => Exec calls mem₀ s.order i f ∧ op = (calls i).op ∧ m = (calls i).request m.rop ∧
      ∃ c, Held calls s i (some m.rop) c
  | .replied r p => (∃ x, Fetched calls mem₀ s.order i x ∧ p = if (calls i).op.fetch then [x] else []) ∧
      ∃ c, Held calls s i (some r) c
  | .moving => i ∉ s.order ∧ ∃ c, Held calls s i none c
  | .stored r => Result calls mem₀ s i ∧ ∃ c, Held calls s i r c
  | .done => Result calls mem₀ s i ∧ i ∉ s.pending ∧ ∀ e, s.handle i = some (.eop e) → s.eops e = some true
  | .refused => i ∉ s.order ∧ i ∉ s.pending ∧ s.handle i = none

/-- The record an operation has in use. -/
def Stage.rop : Stage d → Option Nat
  | starting r | stored r => r
  | requested m | handling _ _ m => some m.rop
  | replied r _ => some r
  | idle | direct _ | moving | done | refused => none

structure Inv (calls : Nat → Call d) (mem₀ : Nat → Val d) (s : State d) : Prop where
  ok : ∀ i, Ok calls mem₀ s i
  mem : s.mem = runAll calls mem₀ s.order
  order_nodup : s.order.Nodup
  pending_nodup : s.pending.Nodup
  rop_inj : ∀ i j r, (s.stage i).rop = some r → (s.stage j).rop = some r → i = j
  event_inj : ∀ i j e, s.handle i = some (.eop e) → s.handle j = some (.eop e) → i = j
  counts : ∀ k u, s.initiated k u =
    s.completed k u + s.pending.countP fun i => s.handle i = some (.iop k u)

/-- A step of `i` leaves what the other operations have in use alone. -/
structure Apart (s t : State d) (i : Nat) : Prop where
  stage : ∀ j ≠ i, t.stage j = s.stage j
  handle : ∀ j ≠ i, t.handle j = s.handle j
  results : ∀ j ≠ i, t.results j = s.results j
  order : t.order = s.order ∨ t.order = s.order ++ [i]
  pending : ∀ j ≠ i, j ∈ t.pending ↔ j ∈ s.pending
  rops : ∀ j ≠ i, ∀ r, (s.stage j).rop = some r → t.rops r = s.rops r
  eops : ∀ j ≠ i, ∀ e, s.handle j = some (.eop e) → t.eops e = s.eops e

theorem Apart.mem_order (h : Apart s t i) (hj : j ≠ i) : j ∈ t.order ↔ j ∈ s.order := by
  rcases h.order with heq | heq
  · rw [heq]
  · simp [heq, hj]

theorem Apart.fetched (h : Apart s t i) (hx : Fetched calls mem₀ s.order j x) :
    Fetched calls mem₀ t.order j x := by
  rcases h.order with heq | heq
  · rwa [heq]
  · rw [heq]
    exact hx.append

theorem Apart.exec (h : Apart s t i) (hj : j ≠ i) (hf : Exec calls mem₀ s.order j f) :
    Exec calls mem₀ t.order j f := by
  cases f with
  | returned x => exact h.fetched hf
  | start => exact mt (h.mem_order hj).1 hf
  | loaded _ => exact mt (h.mem_order hj).1 hf
  | failed => exact mt (h.mem_order hj).1 hf

theorem Apart.held (h : Apart s t i) (hj : j ≠ i) {k : Option Nat} (hk : ∀ r, k = some r →
    (s.stage j).rop = some r) (hc : Held calls s j k c) : Held calls t j k c := by
  refine ⟨(h.pending j hj).2 hc.pending, (h.handle j hj).trans hc.handle, fun r hr => ?_, fun e he => ?_⟩
  · rw [h.rops j hj r (hk r hr)]
    exact hc.rop r hr
  · rw [h.eops j hj e (he ▸ hc.handle)]
    exact hc.event e he

theorem Apart.result (h : Apart s t i) (hj : j ≠ i) (hr : Result calls mem₀ s j) :
    Result calls mem₀ t j := by
  obtain ⟨x, hx, hres⟩ := hr
  exact ⟨x, h.fetched hx, fun hf => (h.results j hj).trans (hres hf)⟩

theorem Ok.apart (h : Ok calls mem₀ s j) (ha : Apart s t i) (hj : j ≠ i) : Ok calls mem₀ t j := by
  have hstage := ha.stage j hj
  have hout := mt (ha.mem_order hj).1
  have hpend := mt (ha.pending j hj).1
  have hhandle := ha.handle j hj
  unfold Ok at h ⊢
  rw [hstage]
  cases hs : s.stage j with
  | idle =>
    simp only [hs] at h
    exact ⟨hout h.1, hpend h.2.1, hhandle.trans h.2.2⟩
  | direct f =>
    simp only [hs] at h
    exact ⟨ha.exec hj h.1, hpend h.2.1, hhandle.trans h.2.2⟩
  | starting k =>
    simp only [hs] at h
    obtain ⟨h1, c, hc⟩ := h
    exact ⟨hout h1, c, ha.held hj (fun r hr => by rw [hs]; exact hr) hc⟩
  | requested m =>
    simp only [hs] at h
    obtain ⟨h1, h2, c, hc⟩ := h
    exact ⟨hout h1, h2, c, ha.held hj (fun r hr => by rw [hs]; exact hr) hc⟩
  | handling f op m =>
    simp only [hs] at h
    obtain ⟨h1, h2, h3, c, hc⟩ := h
    exact ⟨ha.exec hj h1, h2, h3, c, ha.held hj (fun r hr => by rw [hs]; exact hr) hc⟩
  | replied k p =>
    simp only [hs] at h
    obtain ⟨⟨x, hx, hp⟩, c, hc⟩ := h
    exact ⟨⟨x, ha.fetched hx, hp⟩, c, ha.held hj (fun r hr => by rw [hs]; exact hr) hc⟩
  | moving =>
    simp only [hs] at h
    obtain ⟨h1, c, hc⟩ := h
    exact ⟨hout h1, c, ha.held hj (fun r hr => by simp at hr) hc⟩
  | stored k =>
    simp only [hs] at h
    obtain ⟨h1, c, hc⟩ := h
    exact ⟨ha.result hj h1, c, ha.held hj (fun r hr => by rw [hs]; exact hr) hc⟩
  | done =>
    simp only [hs] at h
    refine ⟨ha.result hj h.1, hpend h.2.1, fun e he => ?_⟩
    rw [hhandle] at he
    rw [ha.eops j hj e he]
    exact h.2.2 e he
  | refused =>
    simp only [hs] at h
    exact ⟨hout h.1, hpend h.2.1, hhandle.trans h.2.2⟩

/-- The record an operation has is in use. -/
theorem Ok.rop_used (h : Ok calls mem₀ s j) (hr : (s.stage j).rop = some r) : s.rops r ≠ none := by
  have hused : ∀ {k c}, Held calls s j k c → k = some r → s.rops r ≠ none := fun hc hk => by
    rw [hc.rop r hk]
    simp
  unfold Ok at h
  cases hs : s.stage j <;> simp only [hs, Stage.rop] at h hr
  case starting | stored =>
    obtain ⟨-, c, hc⟩ := h
    exact hused hc hr
  case requested =>
    obtain ⟨-, -, c, hc⟩ := h
    exact hused hc hr
  case handling =>
    obtain ⟨-, -, -, c, hc⟩ := h
    exact hused hc hr
  case replied =>
    obtain ⟨-, c, hc⟩ := h
    exact hused hc hr
  all_goals simp at hr

/-- The event an operation has is in use. -/
theorem Ok.event_used (h : Ok calls mem₀ s j) (he : s.handle j = some (.eop e)) : s.eops e ≠ none := by
  have hused : ∀ {k c}, Held calls s j k c → s.eops e ≠ none := fun hc => by
    rw [hc.event e (Option.some.inj (hc.handle.symm.trans he))]
    simp
  unfold Ok at h
  cases hs : s.stage j <;> simp only [hs] at h
  case starting | moving | stored | replied =>
    obtain ⟨-, c, hc⟩ := h
    exact hused hc
  case requested =>
    obtain ⟨-, -, c, hc⟩ := h
    exact hused hc
  case handling =>
    obtain ⟨-, -, -, c, hc⟩ := h
    exact hused hc
  case done =>
    rw [h.2.2 e he]
    simp
  all_goals
    rw [h.2.2] at he
    simp at he

/-- What is left to show of a step that leaves the other operations alone. -/
theorem Inv.of_apart (h : Inv calls mem₀ s) (ha : Apart s t i) (hok : Ok calls mem₀ t i)
    (hmem : t.mem = runAll calls mem₀ t.order) (horder : t.order.Nodup) (hpending : t.pending.Nodup)
    (hrop : ∀ r, (t.stage i).rop = some r → (s.stage i).rop = some r ∨ s.rops r = none)
    (hevent : ∀ e, t.handle i = some (.eop e) → s.handle i = some (.eop e) ∨ s.eops e = none)
    (hcounts : ∀ k u, t.initiated k u =
      t.completed k u + t.pending.countP fun i => t.handle i = some (.iop k u)) :
    Inv calls mem₀ t := by
  have hrop' : ∀ j r, j ≠ i → (t.stage i).rop = some r → (t.stage j).rop ≠ some r := by
    intro j r hj hi hr
    rw [ha.stage j hj] at hr
    rcases hrop r hi with hold | hfree
    · exact hj (h.rop_inj j i r hr hold)
    · exact (h.ok j).rop_used hr hfree
  have hevent' : ∀ j e, j ≠ i → t.handle i = some (.eop e) → t.handle j ≠ some (.eop e) := by
    intro j e hj hi he
    rw [ha.handle j hj] at he
    rcases hevent e hi with hold | hfree
    · exact hj (h.event_inj j i e he hold)
    · exact (h.ok j).event_used he hfree
  refine ⟨fun j => ?_, hmem, horder, hpending, fun j k r hj hk => ?_, fun j k e hj hk => ?_, hcounts⟩
  · by_cases hj : j = i
    · exact hj ▸ hok
    · exact (h.ok j).apart ha hj
  · by_cases hji : j = i <;> by_cases hki : k = i
    · exact hji.trans hki.symm
    · exact absurd hk (hrop' k r hki (hji ▸ hj))
    · exact absurd hj (hrop' j r hji (hki ▸ hk))
    · rw [ha.stage j hji] at hj
      rw [ha.stage k hki] at hk
      exact h.rop_inj j k r hj hk
  · by_cases hji : j = i <;> by_cases hki : k = i
    · exact hji.trans hki.symm
    · exact absurd hk (hevent' k e hki (hji ▸ hj))
    · exact absurd hj (hevent' j e hji (hki ▸ hk))
    · rw [ha.handle j hji] at hj
      rw [ha.handle k hki] at hk
      exact h.event_inj j k e hj hk

/-- A step that changes where `i` is, and maybe its result, and may make it take effect. -/
structure Quiet (calls : Nat → Call d) (s t : State d) (i : Nat) : Prop where
  stage : ∀ j ≠ i, t.stage j = s.stage j
  results : ∀ j ≠ i, t.results j = s.results j
  pending : t.pending = s.pending
  handle : t.handle = s.handle
  rops : t.rops = s.rops
  eops : t.eops = s.eops
  initiated : t.initiated = s.initiated
  completed : t.completed = s.completed
  effect : t.order = s.order ∧ t.mem = s.mem ∨
    i ∉ s.order ∧ t.order = s.order ++ [i] ∧ t.mem = effect calls s.mem i

theorem Quiet.held (h : Quiet calls s t i) {k : Option Nat} (hc : Held calls s i k c) :
    Held calls t i k c :=
  ⟨h.pending ▸ hc.pending, h.handle ▸ hc.handle, h.rops ▸ hc.rop, h.eops ▸ hc.event⟩

theorem Inv.quiet (h : Inv calls mem₀ s) (hq : Quiet calls s t i) (hok : Ok calls mem₀ t i)
    (hrop : ∀ r, (t.stage i).rop = some r → (s.stage i).rop = some r) : Inv calls mem₀ t := by
  have ha : Apart s t i := by
    refine ⟨hq.stage, fun j _ => by rw [hq.handle], hq.results, ?_, fun j _ => by rw [hq.pending],
      fun j _ r _ => by rw [hq.rops], fun j _ e _ => by rw [hq.eops]⟩
    exact hq.effect.imp And.left fun he => he.2.1
  refine h.of_apart ha hok ?_ ?_ (hq.pending ▸ h.pending_nodup) (fun r hr => Or.inl (hrop r hr))
    (fun e he => Or.inl (hq.handle ▸ he)) fun k u => ?_
  · rcases hq.effect with ⟨ho, hm⟩ | ⟨-, ho, hm⟩
    · rw [ho, hm, h.mem]
    · rw [ho, hm, runAll_append, h.mem]
  · rcases hq.effect with ⟨ho, -⟩ | ⟨hi, ho, -⟩
    · exact ho ▸ h.order_nodup
    · rw [ho]
      exact List.nodup_append.2 ⟨h.order_nodup, List.nodup_singleton i, by
        rintro a ha b hb rfl
        exact hi (List.mem_singleton.1 hb ▸ ha)⟩
  · rw [hq.initiated, hq.completed, hq.pending, hq.handle]
    exact h.counts k u

theorem Exec.not_mem (h : Exec calls mem₀ l i f) (hf : ∀ r, f ≠ .returned r) : i ∉ l := by
  cases f with
  | returned x => exact absurd rfl (hf x)
  | start => exact h
  | loaded _ => exact h
  | failed => exact h

/-- The access that ends a call of `gasnete_ratomicfn` makes the operation take effect. -/
theorem access_exec (h : Inv calls mem₀ s) (hi : i ∉ s.order) (hf : ∀ r, f ≠ .returned r)
    (ha : ((calls i).op.method (calls i).operand1 (calls i).operand2).access f
      (s.mem (calls i).target) = (f', v)) :
    Exec calls mem₀ (s.access i (calls i).target f' v).order i f' ∧
      ((s.access i (calls i).target f' v).order = s.order ∧
          (s.access i (calls i).target f' v).mem = s.mem ∨
        i ∉ s.order ∧ (s.access i (calls i).target f' v).order = s.order ++ [i] ∧
          (s.access i (calls i).target f' v).mem = effect calls s.mem i) := by
  rcases access_spec ha hf with ⟨x, rfl, rfl, hx⟩ | ⟨hf', rfl⟩
  · refine ⟨⟨s.order, [], rfl, fun hfetch => ?_⟩, Or.inr ⟨hi, rfl, rfl⟩⟩
    rw [hx hfetch, h.mem]
  · have horder : (s.access i (calls i).target f' (s.mem (calls i).target)).order = s.order := by
      cases f' with
      | returned x => exact absurd rfl (hf' x)
      | start => rfl
      | loaded _ => rfl
      | failed => rfl
    refine ⟨?_, Or.inl ⟨horder, Function.update_eq_self _ _⟩⟩
    rw [horder]
    cases f' with
    | returned x => exact absurd rfl (hf' x)
    | start => exact hi
    | loaded _ => exact hi
    | failed => exact hi

/-- A request names its operation. -/
theorem decode_request : decode d ((calls i).request r).ctrl = some (calls i).op := decode_ctrl

theorem method_request {m : Request d} (h : m = (calls i).request r) :
    (calls i).op.method (unpack m.payload).1 (unpack m.payload).2 =
      (calls i).op.method (calls i).operand1 (calls i).operand2 := by
  rw [h]
  exact method_unpack

theorem inv_initial : Inv calls mem₀ (initial mem₀) := by
  refine ⟨fun i => ?_, rfl, List.nodup_nil, List.nodup_nil, fun i j r hr => ?_, fun i j e he => ?_,
    fun k u => rfl⟩
  · simp [Ok, initial]
  · simp [initial, Stage.rop] at hr
  · simp [initial] at he

section Steps

/-- Only where `i` is changes. -/
theorem quiet_setStage {g : Stage d} : Quiet calls s (s.setStage i g) i :=
  ⟨fun _ hj => Function.update_of_ne hj _ _, fun _ _ => rfl, rfl, rfl, rfl, rfl, rfl, rfl,
    Or.inl ⟨rfl, rfl⟩⟩

theorem quiet_access {g : Stage d} {n : Nat} (hn : n = (calls i).target)
    (he : (s.access i (calls i).target f' v).order = s.order ∧
          (s.access i (calls i).target f' v).mem = s.mem ∨
        i ∉ s.order ∧ (s.access i (calls i).target f' v).order = s.order ++ [i] ∧
          (s.access i (calls i).target f' v).mem = effect calls s.mem i) :
    Quiet calls s ((s.access i n f' v).setStage i g) i := by
  subst hn
  exact ⟨fun j hj => Function.update_of_ne hj _ _, fun _ _ => rfl, rfl, rfl, rfl, rfl, rfl, rfl, he⟩

/-- A result may be stored by the way. -/
theorem Quiet.store {g : Stage d} {k : Option Nat} {o : Option (Val d)} (hk : ∀ j, k = some j → j = i)
    (hq : Quiet calls s (t.setStage i g) i) : Quiet calls s ((t.store k o).setStage i g) i := by
  cases k with
  | none => exact hq
  | some j =>
    obtain rfl := hk j rfl
    cases o with
    | none => exact hq
    | some x =>
      exact ⟨hq.stage, fun k hk => (Function.update_of_ne hk _ _).trans (hq.results k hk), hq.pending,
        hq.handle, hq.rops, hq.eops, hq.initiated, hq.completed, hq.effect⟩

/-- What an operation fetches goes where its caller looks. -/
theorem result_store {g : Stage d} {k : Option Nat} {o : Option (Val d)}
    (hq : Quiet calls s ((t.store k o).setStage i g) i) (hx : Fetched calls mem₀ t.order i x)
    (hk : (calls i).op.fetch → k = some i ∧ o = some x) :
    Result calls mem₀ ((t.store k o).setStage i g) i := by
  have horder : ((t.store k o).setStage i g).order = t.order := by
    cases k <;> cases o <;> rfl
  refine ⟨x, horder ▸ hx, fun hfetch => ?_⟩
  obtain ⟨rfl, rfl⟩ := hk hfetch
  exact Function.update_self _ _ _

theorem stage_setStage {g : Stage d} : (s.setStage i g).stage i = g := Function.update_self _ _ _

/-- Operations other than `i` are counted where they were. -/
theorem countP_handle (hl : ∀ j ∈ l, t.handle j = s.handle j) {k : Nat} {u : EC} :
    (l.countP fun j => t.handle j = some (.iop k u)) = l.countP fun j => s.handle j = some (.iop k u) := by
  refine List.countP_congr fun j hj => ?_
  rw [hl j hj]

theorem inv_begin (hs : Inv calls mem₀ s) (hidle : s.stage i = .idle) (hfresh : Fresh s (calls i) c)
    {k : Option Nat} {rops : Nat → Option Rop}
    (hk : ∀ r, k = some r → s.rops r = none ∧
      rops r = some ⟨if (calls i).op.fetch then some i else none, c⟩)
    (hrops : ∀ r, s.rops r ≠ none → rops r = s.rops r) :
    Inv calls mem₀ { (s.register i c).setStage i (.starting k) with rops := rops } := by
  have hok := hs.ok i
  simp only [Ok, hidle] at hok
  obtain ⟨hout, hpend, hnone⟩ := hok
  generalize ht : ({ (s.register i c).setStage i (.starting k) with rops := rops } : State d) = t
  have hstage : t.stage = Function.update s.stage i (.starting k) := by
    rw [← ht]
    cases c <;> rfl
  have hhandle : t.handle = Function.update s.handle i (some c) := by
    rw [← ht]
    cases c <;> rfl
  have hpending : t.pending = i :: s.pending := by
    rw [← ht]
    cases c <;> rfl
  have horder : t.order = s.order ∧ t.mem = s.mem ∧ t.results = s.results ∧ t.completed = s.completed ∧
      t.rops = rops := by
    rw [← ht]
    cases c <;> exact ⟨rfl, rfl, rfl, rfl, rfl⟩
  have heops : ∀ e, (c = .eop e → t.eops e = some false) ∧ (s.eops e ≠ none → t.eops e = s.eops e) := by
    intro e
    rw [← ht]
    cases c with
    | eop e' =>
      refine ⟨fun he => ?_, fun he => Function.update_of_ne ?_ _ _⟩
      · obtain rfl : e' = e := by simpa using he
        exact Function.update_self _ _ _
      · rintro rfl
        exact he hfresh
    | iop _ _ => exact ⟨fun he => by simp at he, fun _ => rfl⟩
  obtain ⟨ho, hm, hres, hcomp, hr⟩ := horder
  have hothers : ∀ j ≠ i, t.handle j = s.handle j := fun j hj => by
    rw [hhandle, Function.update_of_ne hj]
  refine hs.of_apart (i := i) ⟨fun j hj => ?_, hothers, fun j _ => by rw [hres], Or.inl ho, fun j hj => ?_,
    fun j _ r hjr => ?_, fun j _ e he => ?_⟩ ?_ ?_ (ho ▸ hs.order_nodup) ?_ (fun r h => ?_) (fun e h => ?_)
    fun n u => ?_
  · rw [hstage, Function.update_of_ne hj]
  · simp [hpending, hj]
  · rw [hr, hrops r ((hs.ok j).rop_used hjr)]
  · exact (heops e).2 ((hs.ok j).event_used he)
  · simp only [Ok, hstage, Function.update_self]
    refine ⟨ho ▸ hout, c, by simp [hpending], by rw [hhandle, Function.update_self], fun r h => ?_,
      fun e h => (heops e).1 h⟩
    rw [hr]
    exact (hk r h).2
  · rw [hm, ho, hs.mem]
  · rw [hpending]
    exact List.nodup_cons.2 ⟨hpend, hs.pending_nodup⟩
  · rw [hstage, Function.update_self] at h
    exact Or.inr (hk r h).1
  · rw [hhandle, Function.update_self] at h
    obtain rfl := Option.some.inj h
    exact Or.inr hfresh
  · have hold := hs.counts n u
    have hsame := countP_handle (s := s) (t := t) (l := s.pending) (k := n) (u := u) fun j hj =>
      hothers j fun hji => hpend (hji ▸ hj)
    have hself : t.handle i = some c := by rw [hhandle, Function.update_self]
    rw [hpending, List.countP_cons, hsame, hcomp, hself, ← ht]
    cases c with
    | eop e =>
      show s.initiated n u = _
      simpa using hold
    | iop j v =>
      show (if n = j ∧ u = v then s.initiated n u + 1 else s.initiated n u) = _
      by_cases hju : n = j ∧ u = v
      · obtain ⟨rfl, rfl⟩ := hju
        simp [hold]
        omega
      · have hne : ¬(j = n ∧ v = u) := fun h => hju ⟨h.1.symm, h.2.symm⟩
        simp [hju, hne, hold]

/-- `i` gives back what it has in use. -/
structure Released (s t : State d) (i : Nat) (k : Option Nat) (c : Completion) (g : Stage d) : Prop where
  stage : t.stage = Function.update s.stage i g
  rop : g.rop = none
  pending : t.pending = s.pending.erase i
  handle : ∀ j ≠ i, t.handle j = s.handle j
  own : ∀ a, t.handle i = some a → s.handle i = some a
  effect : t.order = s.order ∧ t.mem = s.mem
  results : t.results = s.results
  initiated : t.initiated = s.initiated
  completed : ∀ n u, t.completed n u = s.completed n u + if c = .iop n u then 1 else 0
  eops : ∀ e, c ≠ .eop e → t.eops e = s.eops e
  rops : ∀ r, k ≠ some r → t.rops r = s.rops r

theorem Inv.released (hs : Inv calls mem₀ s) {k : Option Nat} {g : Stage d}
    (hk : (s.stage i).rop = k) (hheld : Held calls s i k c) (hr : Released s t i k c g)
    (hok : Ok calls mem₀ t i) : Inv calls mem₀ t := by
  have hstage : t.stage i = g := by rw [hr.stage, Function.update_self]
  refine hs.of_apart (i := i) ⟨fun j hj => ?_, hr.handle, fun j _ => by rw [hr.results],
    Or.inl hr.effect.1, fun j hj => ?_, fun j hj r hjr => ?_, fun j hj e he => ?_⟩ hok ?_
    (hr.effect.1 ▸ hs.order_nodup) ?_ (fun r h => ?_) (fun e h => Or.inl (hr.own _ h)) fun n u => ?_
  · rw [hr.stage, Function.update_of_ne hj]
  · rw [hr.pending, List.mem_erase_of_ne hj]
  · refine hr.rops r fun hkr => hj (hs.rop_inj j i r hjr (hk.trans hkr))
  · refine hr.eops e fun hc => hj (hs.event_inj j i e he ?_)
    rw [hheld.handle, hc]
  · rw [hr.effect.2, hr.effect.1, hs.mem]
  · rw [hr.pending]
    exact hs.pending_nodup.erase i
  · rw [hstage, hr.rop] at h
    simp at h
  · have hold := hs.counts n u
    have hsame := countP_handle (s := s) (t := t) (l := s.pending.erase i) (k := n) (u := u)
      fun j hj => hr.handle j fun hji => by
        rw [hji] at hj
        exact hs.pending_nodup.not_mem_erase hj
    have herase := List.countP_erase (fun j => s.handle j = some (.iop n u)) s.pending i
    have hpos : s.handle i = some (.iop n u) →
        0 < s.pending.countP fun j => s.handle j = some (.iop n u) := fun h =>
      List.countP_pos_iff.2 ⟨i, hheld.pending, by simpa using h⟩
    rw [hheld.handle] at hpos
    rw [hr.initiated, hold, hr.completed, hr.pending, hsame, herase]
    simp only [hheld.pending, hheld.handle, true_and, decide_eq_true_eq, Option.some.injEq] at hpos ⊢
    split
    · rename_i hc
      have := hpos hc
      omega
    · omega

theorem released_markdone {k : Option Nat} {rops : Nat → Option Rop}
    (hrops : ∀ r, k ≠ some r → rops r = s.rops r) :
    Released s { (s.markdone i c).setStage i .done with rops := rops } i k c .done := by
  cases c with
  | eop e =>
    refine ⟨rfl, rfl, rfl, fun _ _ => rfl, fun _ h => h, ⟨rfl, rfl⟩, rfl, rfl, fun n u => by rw [if_neg (by simp)]; rfl,
      fun e' he => Function.update_of_ne (fun h => he (by rw [h])) _ _, hrops⟩
  | iop j v =>
    refine ⟨rfl, rfl, rfl, fun _ _ => rfl, fun _ h => h, ⟨rfl, rfl⟩, rfl, rfl, fun n u => ?_,
      fun e' he => rfl, hrops⟩
    show (if n = j ∧ u = v then s.completed n u + 1 else s.completed n u) = _
    by_cases h : n = j ∧ u = v
    · obtain ⟨rfl, rfl⟩ := h
      simp
    · have hne : ¬(j = n ∧ v = u) := fun h' => h ⟨h'.1.symm, h'.2.symm⟩
      simp [h, hne]

theorem released_unregister {k : Option Nat} {rops : Nat → Option Rop}
    (hrops : ∀ r, k ≠ some r → rops r = s.rops r) :
    Released s { (s.unregister i c).setStage i .refused with rops := rops } i k c .refused := by
  have hd := @released_markdone d s i c k rops hrops
  cases c with
  | eop e =>
    refine ⟨rfl, rfl, rfl, fun j hj => Function.update_of_ne hj _ _, fun a h => ?_, ⟨rfl, rfl⟩, rfl, rfl,
      hd.completed, fun e' he => ?_, hrops⟩
    · simp [State.unregister, State.dropHandle, State.setEop, State.setStage] at h
    · have hne : e' ≠ e := fun h => he (by rw [h])
      simp [State.unregister, State.dropHandle, State.markdone, State.setEop, State.setStage, hne]
  | iop j v =>
    refine ⟨rfl, rfl, rfl, fun j hj => Function.update_of_ne hj _ _, fun a h => ?_, ⟨rfl, rfl⟩, rfl, rfl,
      hd.completed, fun e' he => rfl, hrops⟩
    simp [State.unregister, State.dropHandle, State.setStage] at h

/-- What is held under a record is what the record says. -/
theorem Held.completion_eq (h : Held calls s i (some r) c) {rop : Rop} (hr : s.rops r = some rop) :
    rop.completion = c ∧ rop.resultP = if (calls i).op.fetch then some i else none := by
  obtain rfl := Option.some.inj (hr.symm.trans (h.rop r rfl))
  exact ⟨rfl, rfl⟩

theorem register_rops : (s.register i c).rops = s.rops := by
  cases c <;> rfl

theorem markdone_rops : (s.markdone i c).rops = s.rops := by
  cases c <;> rfl

theorem unregister_rops : (s.unregister i c).rops = s.rops := by
  cases c <;> rfl

/-- `i` gives its record back. -/
theorem inv_free {k : Option Nat} {rops : Nat → Option Rop} (hs : Inv calls mem₀ s)
    (hstage : s.stage i = .stored k) (hheld : Held calls s i k c)
    (hrops : ∀ r, k ≠ some r → rops r = s.rops r) :
    Inv calls mem₀ { (s.markdone i c).setStage i .done with rops := rops } := by
  have hok := hs.ok i
  simp only [Ok, hstage] at hok
  obtain ⟨⟨x, hx, hres⟩, -⟩ := hok
  have hrel := released_markdone (s := s) (i := i) (c := c) hrops
  refine hs.released (by rw [hstage]; rfl) hheld hrel ?_
  have hdone : ∀ e, c = .eop e →
      ({ (s.markdone i c).setStage i .done with rops := rops } : State d).eops e = some true := by
    rintro e rfl
    exact Function.update_self _ _ _
  generalize ({ (s.markdone i c).setStage i .done with rops := rops } : State d) = t at hrel hdone
  simp only [Ok, hrel.stage, Function.update_self]
  refine ⟨⟨x, by rw [hrel.effect.1]; exact hx, by rw [hrel.results]; exact hres⟩, ?_, fun e he => ?_⟩
  · rw [hrel.pending]
    exact hs.pending_nodup.not_mem_erase
  · exact hdone e (Option.some.inj (hheld.handle.symm.trans (hrel.own _ he)))

theorem inv_refuse {k : Option Nat} {rops : Nat → Option Rop} (hs : Inv calls mem₀ s)
    (hstage : s.stage i = .starting k) (hheld : Held calls s i k c)
    (hrops : ∀ r, k ≠ some r → rops r = s.rops r) :
    Inv calls mem₀ { (s.unregister i c).setStage i .refused with rops := rops } := by
  have hok := hs.ok i
  simp only [Ok, hstage] at hok
  have hrel := released_unregister (s := s) (i := i) (c := c) hrops
  refine hs.released (by rw [hstage]; rfl) hheld hrel ?_
  have hnone : ({ (s.unregister i c).setStage i .refused with rops := rops } : State d).handle i = none := by
    cases c <;> exact Function.update_self _ _ _
  generalize ({ (s.unregister i c).setStage i .refused with rops := rops } : State d) = t at hrel hnone
  simp only [Ok, hrel.stage, Function.update_self]
  refine ⟨by rw [hrel.effect.1]; exact hok.1, ?_, hnone⟩
  rw [hrel.pending]
  exact hs.pending_nodup.not_mem_erase

theorem inv_sync (hs : Inv calls mem₀ s) (hhandle : s.handle i = some (.eop e))
    (hstage : s.stage i = .done) : Inv calls mem₀ ((s.setEop e none).dropHandle i) := by
  have hok := hs.ok i
  simp only [Ok, hstage] at hok
  obtain ⟨⟨x, hx, hres⟩, hpend, -⟩ := hok
  have hothers : ∀ j ≠ i, ((s.setEop e none).dropHandle i).handle j = s.handle j := fun j hj =>
    Function.update_of_ne hj _ _
  have hself : ((s.setEop e none).dropHandle i).handle i = none := Function.update_self _ _ _
  refine hs.of_apart (i := i) ⟨fun _ _ => rfl, hothers, fun _ _ => rfl, Or.inl rfl, fun _ _ => Iff.rfl,
    fun _ _ _ _ => rfl, fun j hj e' he => Function.update_of_ne ?_ _ _⟩ ?_ hs.mem hs.order_nodup
    hs.pending_nodup (fun r h => Or.inl h) (fun e' h => ?_) fun n u => ?_
  · rintro rfl
    exact hj (hs.event_inj j i e' he hhandle)
  · have hdone : ((s.setEop e none).dropHandle i).stage i = .done := hstage
    simp only [Ok, hdone]
    refine ⟨⟨x, hx, hres⟩, hpend, fun e' he => ?_⟩
    rw [hself] at he
    simp at he
  · rw [hself] at h
    simp at h
  · have hsame := @countP_handle d s ((s.setEop e none).dropHandle i) s.pending (k := n) (u := u)
      fun j hj => hothers j fun hji => hpend (hji ▸ hj)
    exact (hs.counts n u).trans (congrArg (s.completed n u + ·) hsame.symm)

/-- Every step keeps the books and the order. -/
theorem inv_step (h : Step calls s i t) (hs : Inv calls mem₀ s) : Inv calls mem₀ t := by
  have hok := hs.ok i
  unfold Ok at hok
  cases h with
  | direct hi hp =>
    rw [hi] at hok
    refine hs.quiet quiet_setStage ?_ fun r hr => ?_
    · simp only [Ok, stage_setStage]
      exact hok
    · rw [stage_setStage] at hr
      simp [Stage.rop] at hr
  | directAccess hi hf ha =>
    rw [hi] at hok
    obtain ⟨hexec, heff⟩ := access_exec hs (hok.1.not_mem hf) hf ha
    refine hs.quiet (quiet_access rfl heff) ?_ fun r hr => ?_
    · simp only [Ok, stage_setStage]
      exact ⟨hexec, hok.2⟩
    · rw [stage_setStage] at hr
      simp [Stage.rop] at hr
  | @directReturn x hi =>
    rw [hi] at hok
    obtain ⟨hx, hpend, hnone⟩ := hok
    have hq := (@quiet_setStage d calls s i .done).store (k := some i)
      (o := if (calls i).op.fetch then some x else none) fun j hj => (Option.some.inj hj).symm
    have hres := result_store hq hx fun hfetch => ⟨rfl, if_pos hfetch⟩
    refine hs.quiet hq ?_ fun r hr => ?_
    · simp only [Ok, stage_setStage]
      refine ⟨hres, hq.pending ▸ hpend, fun e he => ?_⟩
      rw [hq.handle, hnone] at he
      simp at he
    · rw [stage_setStage] at hr
      simp [Stage.rop] at hr
  | beginAM hi hp hr hc =>
    refine inv_begin (k := some _) hs hi hc (fun r' hr' => ?_) fun r' hr' => ?_
    · obtain rfl := Option.some.inj hr'
      exact ⟨hr, Function.update_self _ _ _⟩
    · refine (Function.update_of_ne ?_ _ _).trans (congrFun register_rops r')
      rintro rfl
      exact hr' hr
  | beginRMA hi hp hop hc =>
    exact inv_begin (k := none) hs hi hc (fun r' hr' => by simp at hr') fun r' _ =>
      congrFun register_rops r'
  | refuseAM hi hr =>
    rw [hi] at hok
    obtain ⟨-, c, hheld⟩ := hok
    obtain ⟨rfl, -⟩ := hheld.completion_eq hr
    refine inv_refuse hs hi hheld fun r' hr' => ?_
    refine (Function.update_of_ne ?_ _ _).trans (congrFun unregister_rops r')
    rintro rfl
    exact hr' rfl
  | refuseRMA hi hc =>
    rw [hi] at hok
    obtain ⟨-, c, hheld⟩ := hok
    obtain rfl := Option.some.inj (hc.symm.trans hheld.handle)
    exact inv_refuse hs hi hheld fun r' _ => congrFun unregister_rops r'
  | send hi =>
    rw [hi] at hok
    obtain ⟨hout, c, hheld⟩ := hok
    refine hs.quiet quiet_setStage ?_ fun r hr => ?_
    · simp only [Ok, stage_setStage]
      exact ⟨hout, rfl, c, quiet_setStage.held hheld⟩
    · rw [stage_setStage] at hr
      rw [hi]
      exact hr
  | move hi =>
    rw [hi] at hok
    obtain ⟨hout, c, hheld⟩ := hok
    refine hs.quiet quiet_setStage ?_ fun r hr => ?_
    · simp only [Ok, stage_setStage]
      exact ⟨hout, c, quiet_setStage.held hheld⟩
    · rw [stage_setStage] at hr
      simp [Stage.rop] at hr
  | @handle m op hi hd =>
    rw [hi] at hok
    obtain ⟨hout, hm, c, hheld⟩ := hok
    have hop : op = (calls i).op := by
      rw [hm] at hd
      exact Option.some.inj (hd.symm.trans decode_request)
    refine hs.quiet quiet_setStage ?_ fun r hr => ?_
    · simp only [Ok, stage_setStage]
      exact ⟨hout, hop, hm, c, quiet_setStage.held hheld⟩
    · rw [stage_setStage] at hr
      rw [hi]
      exact hr
  | @handlerAccess f f' op m v hi hf ha =>
    rw [hi] at hok
    obtain ⟨hexec, rfl, hm, c, hheld⟩ := hok
    have htarget : m.target = (calls i).target := by rw [hm]; rfl
    rw [method_request hm, htarget] at ha
    obtain ⟨hexec', heff⟩ := access_exec hs (hexec.not_mem hf) hf ha
    have hq := quiet_access (g := .handling f' (calls i).op m) htarget heff
    refine hs.quiet hq ?_ fun r hr => ?_
    · simp only [Ok, stage_setStage]
      refine ⟨?_, trivial, hm, c, hq.held hheld⟩
      rw [htarget]
      exact hexec'
    · rw [stage_setStage] at hr
      rw [hi]
      exact hr
  | @reply op m x hi =>
    rw [hi] at hok
    obtain ⟨hx, rfl, -, c, hheld⟩ := hok
    refine hs.quiet quiet_setStage ?_ fun r hr => ?_
    · simp only [Ok, stage_setStage]
      exact ⟨⟨x, hx, rfl⟩, c, quiet_setStage.held hheld⟩
    · rw [stage_setStage] at hr
      rw [hi]
      exact hr
  | @storeReply r p rop hi hr =>
    rw [hi] at hok
    obtain ⟨⟨x, hx, rfl⟩, c, hheld⟩ := hok
    obtain ⟨-, hresultP⟩ := hheld.completion_eq hr
    have hq := (@quiet_setStage d calls s i (.stored (some r))).store (k := rop.resultP)
      (o := (if (calls i).op.fetch then [x] else []).head?) fun j hj => by
        rw [hresultP] at hj
        split at hj
        · exact (Option.some.inj hj).symm
        · simp at hj
    have hres := result_store hq hx fun hfetch => ⟨hresultP.trans (if_pos hfetch), by rw [if_pos hfetch]; rfl⟩
    refine hs.quiet hq ?_ fun r' hr' => ?_
    · simp only [Ok, stage_setStage]
      exact ⟨hres, c, hq.held hheld⟩
    · rw [stage_setStage] at hr'
      rw [hi]
      exact hr'
  | finishAM hi hr =>
    rw [hi] at hok
    obtain ⟨-, c, hheld⟩ := hok
    obtain ⟨rfl, -⟩ := hheld.completion_eq hr
    refine inv_free hs hi hheld fun r' hr' => ?_
    refine (Function.update_of_ne ?_ _ _).trans (congrFun markdone_rops r')
    rintro rfl
    exact hr' rfl
  | @rmaAccess f' v x hi ha hf =>
    rw [hi] at hok
    obtain ⟨hout, c, hheld⟩ := hok
    obtain ⟨hexec, heff⟩ := access_exec hs hout (by simp) ha
    subst hf
    have hq := (quiet_access (g := .stored none) rfl heff).store (k := some i)
      (o := if (calls i).op.fetch then some x else none) fun j hj => (Option.some.inj hj).symm
    have hres := result_store hq hexec fun hfetch => ⟨rfl, if_pos hfetch⟩
    refine hs.quiet hq ?_ fun r hr => ?_
    · simp only [Ok, stage_setStage]
      exact ⟨hres, c, hq.held hheld⟩
    · rw [stage_setStage] at hr
      simp [Stage.rop] at hr
  | finishRMA hi hc =>
    rw [hi] at hok
    obtain ⟨-, c, hheld⟩ := hok
    obtain rfl := Option.some.inj (hc.symm.trans hheld.handle)
    exact inv_free hs hi hheld fun r' _ => congrFun markdone_rops r'
  | sync hc hi he => exact inv_sync hs hc hi

end Steps

end Gasnet.Ratomic
