import Gasnet.Ratomic.Invariant

/-! The operations of a domain behave as if done one after the other, in the order in which they take
effect. -/
namespace Gasnet.Ratomic

variable {d : DT} {calls : Nat → Call d} {mem₀ : Nat → Val d} {s t : State d} {i : Nat}
  {v : Val d} {f : Frame d} {c : Completion}

/-- Only `SET` and `GET` go by RMA. -/
def Moved (calls : Nat → Call d) (s : State d) : Prop :=
  ∀ i, s.stage i = .starting none ∨ s.stage i = .moving → (calls i).op = .set ∨ (calls i).op = .get

theorem moved_update {g : Stage d} (h : Moved calls s) (hstage : t.stage = Function.update s.stage i g)
    (hg : g = .starting none ∨ g = .moving → (calls i).op = .set ∨ (calls i).op = .get) :
    Moved calls t := by
  intro j hj
  rw [hstage] at hj
  by_cases hji : j = i
  · subst hji
    rw [Function.update_self] at hj
    exact hg hj
  · rw [Function.update_of_ne hji] at hj
    exact h j hj

theorem register_stage : (s.register i c).stage = s.stage := by
  cases c <;> rfl

theorem markdone_stage : (s.markdone i c).stage = s.stage := by
  cases c <;> rfl

theorem unregister_stage : (s.unregister i c).stage = s.stage := by
  cases c <;> rfl

theorem store_stage {k : Option Nat} {o : Option (Val d)} : (s.store k o).stage = s.stage := by
  cases k <;> cases o <;> rfl

theorem moved_step (h : Step calls s i t) (hs : Moved calls s) : Moved calls t := by
  have hset : ∀ (u : State d) (g : Stage d), u.stage = s.stage →
      (u.setStage i g).stage = Function.update s.stage i g := fun u g hu => by
    rw [← hu]
    rfl
  cases h with
  | beginAM => exact moved_update hs (hset _ _ register_stage) (by simp)
  | beginRMA _ _ hop => exact moved_update hs (hset _ _ register_stage) fun _ => hop
  | refuseAM => exact moved_update hs (hset _ _ unregister_stage) (by simp)
  | refuseRMA => exact moved_update hs (hset _ _ unregister_stage) (by simp)
  | finishAM => exact moved_update hs (hset _ _ markdone_stage) (by simp)
  | finishRMA => exact moved_update hs (hset _ _ markdone_stage) (by simp)
  | directReturn | storeReply | rmaAccess => exact moved_update hs (hset _ _ store_stage) (by simp)
  | move hi => exact moved_update hs (hset _ _ rfl) fun _ => hs i (.inl hi)
  | sync => exact hs
  | direct | directAccess | send | handle | handlerAccess | reply =>
    exact moved_update hs (hset _ _ rfl) (by simp)

/-- Issued, and its event or counter not yet marked. -/
def Stage.outstanding : Stage d → Bool
  | starting _ | requested _ | handling _ _ _ | replied _ _ | moving | stored _ => true
  | idle | direct _ | done | refused => false

/-- Issued, and not over. -/
def Stage.active : Stage d → Bool
  | direct _ => true
  | g => g.outstanding

/-- What a caller waits for. -/
def Complete (s : State d) : Completion → Prop
  | .eop e => s.eops e = some true
  | .iop k u => s.initiated k u = s.completed k u

theorem Ok.held (h : Ok calls mem₀ s i) (ho : (s.stage i).outstanding) : ∃ k c, Held calls s i k c := by
  unfold Ok at h
  cases hs : s.stage i <;> simp only [hs] at h ho
  case starting | moving | stored | replied =>
    obtain ⟨-, c, hc⟩ := h
    exact ⟨_, c, hc⟩
  case requested =>
    obtain ⟨-, -, c, hc⟩ := h
    exact ⟨_, c, hc⟩
  case handling =>
    obtain ⟨-, -, -, c, hc⟩ := h
    exact ⟨_, c, hc⟩
  all_goals simp [Stage.outstanding] at ho

theorem Ok.mem_pending (h : Ok calls mem₀ s i) : i ∈ s.pending ↔ (s.stage i).outstanding := by
  refine ⟨fun hi => ?_, fun ho => ?_⟩
  · unfold Ok at h
    cases hs : s.stage i <;> simp only [hs] at h
    case idle | direct | done | refused => exact absurd hi h.2.1
    all_goals rfl
  · obtain ⟨k, c, hc⟩ := h.held ho
    exact hc.pending

/-- An operation whose event or counter is complete is done. -/
theorem Inv.done_of_complete (h : Inv calls mem₀ s) (hc : s.handle i = some c) (hcomp : Complete s c) :
    s.stage i = .done := by
  have hok := h.ok i
  have hout : (s.stage i).outstanding = false := by
    rw [← Bool.not_eq_true]
    intro ho
    obtain ⟨k, c', hheld⟩ := hok.held ho
    obtain rfl := Option.some.inj (hc.symm.trans hheld.handle)
    cases c with
    | eop e => exact absurd (hcomp.symm.trans (hheld.event e rfl)) (by simp)
    | iop n u =>
      have hpos : 0 < s.pending.countP fun j => s.handle j = some (.iop n u) :=
        List.countP_pos_iff.2 ⟨i, hheld.pending, by simpa using hc⟩
      have hcount := h.counts n u
      have heq : s.initiated n u = s.completed n u := hcomp
      omega
  unfold Ok at hok
  cases hs : s.stage i <;> simp only [hs] at hok hout
  case idle | direct | refused =>
    rw [hok.2.2] at hc
    simp at hc
  case done => trivial
  all_goals simp [Stage.outstanding] at hout

/-- An operation that is not over can always go on. -/
theorem Inv.can_step (h : Inv calls mem₀ s) (hmoved : Moved calls s) (ha : (s.stage i).active) :
    ∃ t, Step calls s i t := by
  have hok := h.ok i
  unfold Ok at hok
  cases hs : s.stage i with
  | idle | done | refused => simp [hs, Stage.active, Stage.outstanding] at ha
  | direct f =>
    by_cases hf : ∃ r, f = .returned r
    · obtain ⟨r, rfl⟩ := hf
      exact ⟨_, .directReturn hs⟩
    · exact ⟨_, .directAccess hs (fun r hr => hf ⟨r, hr⟩) rfl⟩
  | starting k =>
    cases k with
    | none => exact ⟨_, .move hs⟩
    | some r => exact ⟨_, .send hs⟩
  | requested m =>
    simp only [hs] at hok
    refine ⟨_, @Step.handle _ _ _ _ _ (calls i).op hs ?_⟩
    rw [hok.2.1]
    exact decode_request
  | handling f op m =>
    by_cases hf : ∃ r, f = .returned r
    · obtain ⟨r, rfl⟩ := hf
      exact ⟨_, .reply hs⟩
    · exact ⟨_, .handlerAccess hs (fun r hr => hf ⟨r, hr⟩) rfl⟩
  | replied r p =>
    simp only [hs] at hok
    obtain ⟨-, c, hc⟩ := hok
    exact ⟨_, .storeReply hs (hc.rop r rfl)⟩
  | moving =>
    rcases hmoved i (.inr hs) with hop | hop
    · exact ⟨_, .rmaAccess hs (r := 0) rfl (by rw [hop]; rfl)⟩
    · exact ⟨_, .rmaAccess hs (r := s.mem (calls i).target) rfl (by rw [hop]; rfl)⟩
  | stored k =>
    simp only [hs] at hok
    obtain ⟨-, c, hc⟩ := hok
    cases k with
    | none => exact ⟨_, .finishRMA hs hc.handle⟩
    | some r => exact ⟨_, .finishAM hs (hc.rop r rfl)⟩

theorem store_order {k : Option Nat} {o : Option (Val d)} : (s.store k o).order = s.order := by
  cases k <;> cases o <;> rfl

theorem register_order : (s.register i c).order = s.order := by
  cases c <;> rfl

theorem markdone_order : (s.markdone i c).order = s.order := by
  cases c <;> rfl

theorem unregister_order : (s.unregister i c).order = s.order := by
  cases c <;> rfl

theorem access_order {n : Nat} : s.order <+: (s.access i n f v).order := by
  cases f with
  | returned x => exact List.prefix_append _ _
  | start => exact List.prefix_rfl
  | loaded _ => exact List.prefix_rfl
  | failed => exact List.prefix_rfl

/-- What has taken effect stays where it is in the order. -/
theorem order_step (h : Step calls s i t) : s.order <+: t.order := by
  have heq : ∀ {l : List Nat}, l = s.order → s.order <+: l := fun h => h ▸ List.prefix_rfl
  cases h with
  | @directAccess _ _ v => exact access_order (n := (calls i).target) (v := v)
  | @handlerAccess _ _ _ m v => exact access_order (n := m.target) (v := v)
  | @rmaAccess _ v => exact (access_order (n := (calls i).target) (v := v)).trans (by rw [← store_order]; rfl)
  | directReturn | storeReply => exact heq store_order
  | beginAM | beginRMA => exact heq register_order
  | refuseAM | refuseRMA => exact heq unregister_order
  | finishAM | finishRMA => exact heq markdone_order
  | direct | send | move | handle | reply | sync => exact List.prefix_rfl

/-- A refusal leaves nothing behind: the event is free again. -/
structure Unchanged (s t : State d) (i : Nat) : Prop where
  mem : t.mem = s.mem
  order : t.order = s.order
  results : t.results = s.results
  handle : t.handle i = none
  event : ∀ e, s.handle i = some (.eop e) → t.eops e = none

theorem unchanged_unregister {rops : Nat → Option Rop} (h : s.handle i = some c) :
    Unchanged s { (s.unregister i c).setStage i .refused with rops := rops } i := by
  cases c with
  | eop e =>
    refine ⟨rfl, rfl, rfl, Function.update_self _ _ _, fun e' he => ?_⟩
    obtain rfl : e = e' := by simpa [h] using he
    exact Function.update_self _ _ _
  | iop k u =>
    refine ⟨rfl, rfl, rfl, Function.update_self _ _ _, fun e' he => ?_⟩
    simp [h] at he

theorem Inv.refused (hs : Inv calls mem₀ s) (h : Step calls s i t) (ht : t.stage i = .refused) :
    Unchanged s t i := by
  cases h with
  | @refuseAM r rop hi hr =>
    have hok := hs.ok i
    simp only [Ok, hi] at hok
    obtain ⟨-, c, hheld⟩ := hok
    obtain ⟨rfl, -⟩ := hheld.completion_eq hr
    exact unchanged_unregister hheld.handle
  | refuseRMA hi hc => exact unchanged_unregister hc
  | sync _ hi _ =>
    have hst : s.stage i = .refused := ht
    rw [hi] at hst
    simp at hst
  | direct | directAccess | directReturn | beginAM | beginRMA | send | move | handle | handlerAccess
  | reply | storeReply | finishAM | rmaAccess | finishRMA =>
    rw [stage_setStage] at ht
    simp at ht

theorem inv_run (h : Reachable (Step calls) s t) (hs : Inv calls mem₀ s ∧ Moved calls s) :
    Inv calls mem₀ t ∧ Moved calls t :=
  h.invariant (P := fun s => Inv calls mem₀ s ∧ Moved calls s)
    (fun hstep hs => ⟨inv_step hstep hs.1, moved_step hstep hs.2⟩) hs

theorem moved_initial : Moved calls (initial mem₀) := by
  intro i hi
  simp [initial] at hi

theorem order_reachable (h : Reachable (Step calls) s t) : s.order <+: t.order :=
  h.invariant (P := fun t => s.order <+: t.order) (fun hstep hs => hs.trans (order_step hstep))
    List.prefix_rfl

theorem Ok.effected (h : Ok calls mem₀ s i) (hi : s.stage i = .done) : Result calls mem₀ s i := by
  simp only [Ok, hi] at h
  exact h.1

theorem Ok.not_effected (h : Ok calls mem₀ s i) (hi : s.stage i = .idle ∨ s.stage i = .refused) :
    i ∉ s.order := by
  rcases hi with hi | hi <;> simp only [Ok, hi] at h <;> exact h.1

/-- In every run, `order` is a sequential order of the operations that have taken effect: each is in it at
most once, and if it is done exactly once; memory and the fetched values are what the operations make of
it one by one; and an operation that was done before another was issued comes before it. What was fetched
is stored by the time a caller can see an event or a counter complete, which takes every operation to
finish; no operation gets stuck; and a refused one has left memory, order and counters as they were. -/
theorem ratomics_linearizable (hs : Reachable (Step calls) (initial mem₀) s)
    (ht : Reachable (Step calls) s t) :
    t.order.Nodup ∧ t.mem = runAll calls mem₀ t.order ∧
      (∀ i, t.stage i = .done → i ∈ t.order ∧
        ((calls i).op.fetch → ∃ x, t.results i = some x ∧ Fetched calls mem₀ t.order i x)) ∧
      (∀ i, t.stage i = .idle ∨ t.stage i = .refused → i ∉ t.order) ∧
      (∀ i j, s.stage i = .done → s.stage j = .idle → j ∈ t.order →
        ∃ l₁ l₂ l₃, t.order = l₁ ++ i :: l₂ ++ j :: l₃) ∧
      (∀ i c, t.handle i = some c → Complete t c → t.stage i = .done) ∧
      (∀ i, i ∈ t.pending ↔ (t.stage i).outstanding) ∧
      (∀ k u, t.initiated k u =
        t.completed k u + t.pending.countP fun i => t.handle i = some (.iop k u)) ∧
      (∀ i, (t.stage i).active → ∃ t', Step calls t i t') ∧
      ∀ i t', Step calls t i t' → t'.stage i = .refused → Unchanged t t' i := by
  have hboth := inv_run hs ⟨inv_initial, moved_initial⟩
  obtain ⟨hinv', hmoved⟩ := inv_run ht hboth
  have hinv := hboth.1
  refine ⟨hinv'.order_nodup, hinv'.mem, fun i hi => ?_, fun i hi => (hinv'.ok i).not_effected hi,
    fun i j hi hj hmem => ?_, fun i c hc => hinv'.done_of_complete hc, fun i => (hinv'.ok i).mem_pending,
    hinv'.counts, fun i => hinv'.can_step hmoved, fun i t' h => hinv'.refused h⟩
  · obtain ⟨x, hx, hres⟩ := (hinv'.ok i).effected hi
    exact ⟨hx.mem, fun hfetch => ⟨x, hres hfetch, hx⟩⟩
  · obtain ⟨x, ⟨l₁, l₂, hl, -⟩, -⟩ := (hinv.ok i).effected hi
    have hnot := (hinv.ok j).not_effected (.inl hj)
    obtain ⟨l, hl'⟩ := order_reachable ht
    rw [← hl', List.mem_append] at hmem
    obtain ⟨l₃, l₄, rfl⟩ := List.append_of_mem (hmem.resolve_left hnot)
    exact ⟨l₁, l₂ ++ l₃, l₄, by rw [← hl', hl]; simp⟩

def addAndMax : Nat → Call .u32
  | 0 => ⟨.fAdd, 0, 3, 0, .tools⟩
  | _ => ⟨.fMax, 0, 9, 0, .am⟩

/-- The neighbour's add comes between the read and the compare-and-swap of the request handler. -/
theorem ratomics_linearizable_two : ∃ t : State .u32, Reachable (Step addAndMax) (initial fun _ => 5) t ∧
    t.stage 0 = .done ∧ t.stage 1 = .done ∧ t.results 0 = some 5 ∧ t.results 1 = some 8 ∧
    t.mem 0 = 9 ∧ t.order = [0, 1] ∧ t.order.Nodup := by
  have hrun : Reachable (Step addAndMax) (initial fun _ => 5) _ := ⟨_,
    .stepL (.direct (i := 0) rfl rfl) <|
    .stepL (.beginAM (i := 1) (r := 0) (c := .eop 7) rfl rfl rfl rfl) <|
    .stepL (.send (i := 1) (r := 0) rfl) <|
    .stepL (.handle (i := 1) rfl decode_ctrl) <|
    .stepL (.handlerAccess (i := 1) (f := .start) rfl nofun rfl) <|
    .stepL (.directAccess (i := 0) (f := .start) rfl nofun rfl) <|
    .stepL (.handlerAccess (i := 1) (f := .loaded 5) rfl nofun rfl) <|
    .stepL (.handlerAccess (i := 1) (f := .start) rfl nofun rfl) <|
    .stepL (.directReturn (i := 0) (r := 5) rfl) <|
    .stepL (.handlerAccess (i := 1) (f := .loaded 8) rfl nofun rfl) <|
    .stepL (.reply (i := 1) (r := 8) rfl) <|
    .stepL (.storeReply (i := 1) (r := 0) rfl rfl) <|
    .stepL (.finishAM (i := 1) (r := 0) rfl rfl) .refl⟩
  exact ⟨_, hrun, rfl, rfl, rfl, rfl, rfl, rfl, (ratomics_linearizable .refl hrun).1⟩

end Gasnet.Ratomic
