import Mathlib.Logic.Function.Basic
import Mathlib.Data.List.Basic
import Mathlib.Algebra.BigOperators.Intervals
import Gasnet.Foundation.Run
import Gasnet.Foundation.Total

/-! A key-value store with a fence. Parties put and get in rounds with a fence in the middle: a put
is seen at some time before the fence is over, and the fence is over when all have come to it. -/
namespace Gasnet.FencedStore

/-- What one party does between two fences: gets after the first, puts before the second. -/
structure Round (K V : Type*) where
  puts : List (K × V)
  gets : List K

inductive Phase (K V : Type*)
  | putting (rest : List (K × V))
  | waiting
  | getting (rest : List K)

/-- How far a party is, and what it has got so far. -/
structure Party (K V : Type*) where
  round : Nat
  phase : Phase K V
  log : List (Option V)

/-- The puts that are not seen yet, what is seen, and the number of fences that are over. -/
structure State (R K V : Type*) where
  party : R → Party K V
  pending : List (K × V)
  visible : K → Option V
  epoch : Nat

variable {R K V : Type*} [DecidableEq R] [DecidableEq K]

inductive Label (R : Type*)
  | put (r : R)
  | flush
  | enter (r : R)
  | release
  | leave (r : R)
  | get (r : R)
  | next (r : R)

def State.set (s : State R K V) (r : R) (p : Party K V) : State R K V :=
  { s with party := Function.update s.party r p }

/-- All parties run `T` rounds. -/
inductive Step (prog : R → Nat → Round K V) (T : Nat) :
    State R K V → Label R → State R K V → Prop
  | put {s : State R K V} {r : R} {n : Nat} {k : K} {v : V} {puts : List (K × V)}
      {log : List (Option V)} (h : s.party r = ⟨n, .putting ((k, v) :: puts), log⟩) :
      Step prog T s (.put r)
        { s.set r ⟨n, .putting puts, log⟩ with pending := s.pending ++ [(k, v)] }
  | flush {s : State R K V} {k : K} {v : V} {l l' : List (K × V)}
      (h : s.pending = l ++ (k, v) :: l') :
      Step prog T s .flush
        { s with pending := l ++ l', visible := Function.update s.visible k (some v) }
  | enter {s : State R K V} {r : R} {n : Nat} {log : List (Option V)}
      (h : s.party r = ⟨n, .putting [], log⟩) (hn : n < T) :
      Step prog T s (.enter r) (s.set r ⟨n, .waiting, log⟩)
  | release {s : State R K V} (h : ∀ r, ∃ log, s.party r = ⟨s.epoch, .waiting, log⟩)
      (hp : s.pending = []) : Step prog T s .release { s with epoch := s.epoch + 1 }
  | leave {s : State R K V} {r : R} {n : Nat} {log : List (Option V)}
      (h : s.party r = ⟨n, .waiting, log⟩) (hn : n < s.epoch) :
      Step prog T s (.leave r) (s.set r ⟨n, .getting (prog r n).gets, log⟩)
  | get {s : State R K V} {r : R} {n : Nat} {k : K} {gets : List K} {log : List (Option V)}
      (h : s.party r = ⟨n, .getting (k :: gets), log⟩) :
      Step prog T s (.get r) (s.set r ⟨n, .getting gets, log ++ [s.visible k]⟩)
  | next {s : State R K V} {r : R} {n : Nat} {log : List (Option V)}
      (h : s.party r = ⟨n, .getting [], log⟩) :
      Step prog T s (.next r) (s.set r ⟨n + 1, .putting (prog r (n + 1)).puts, log⟩)

variable {prog : R → Nat → Round K V} {T : Nat} {s t : State R K V} {a : Label R} {r q : R}
  {k : K} {v : V} {n : Nat} {puts : List (K × V)} {gets : List K} {log : List (Option V)}

def initial (prog : R → Nat → Round K V) : State R K V where
  party r := ⟨0, .putting (prog r 0).puts, []⟩
  pending := []
  visible := fun _ => none
  epoch := 0

/-- What is got in a round is put in it, with the value of the round, and is not put in the next
one. -/
structure Disciplined (prog : R → Nat → Round K V) (val : Nat → K → V) : Prop where
  put : ∀ {r n k}, k ∈ (prog r n).gets → ∃ q, (k, val n k) ∈ (prog q n).puts
  unique : ∀ {r n k}, k ∈ (prog r n).gets → ∀ q v, (k, v) ∈ (prog q n).puts → v = val n k
  spaced : ∀ {r n k}, k ∈ (prog r n).gets → ∀ q v, (k, v) ∉ (prog q (n + 1)).puts

open Classical in
/-- The value put under a key in a round, by whichever party. -/
noncomputable def theValue [Inhabited V] (prog : R → Nat → Round K V) (n : Nat) (k : K) : V :=
  if h : ∃ v q, (k, v) ∈ (prog q n).puts then h.choose else default

omit [DecidableEq R] [DecidableEq K] in
theorem theValue_eq [Inhabited V] (hput : (k, v) ∈ (prog q n).puts)
    (hone : ∀ q w, (k, w) ∈ (prog q n).puts → w = v) : theValue prog n k = v := by
  have h : ∃ v q, (k, v) ∈ (prog q n).puts := ⟨v, q, hput⟩
  obtain ⟨p, hp⟩ := h.choose_spec
  rw [theValue, dif_pos h, hone p _ hp]

/-- What a party gets in its first `n` rounds. -/
def expected (prog : R → Nat → Round K V) (val : Nat → K → V) (r : R) (n : Nat) :
    List (Option V) :=
  (List.range n).flatMap fun m => (prog r m).gets.map fun k => some (val m k)

omit [DecidableEq R] [DecidableEq K] in
theorem expected_succ (val : Nat → K → V) (r : R) (n : Nat) :
    expected prog val r (n + 1) =
      expected prog val r n ++ (prog r n).gets.map fun k => some (val n k) := by
  simp [expected, List.range_succ]

/-- The puts of the round of the open fence that a party has still to make. -/
def State.todo (prog : R → Nat → Round K V) (s : State R K V) (r : R) : List (K × V) :=
  if (s.party r).round = s.epoch then
    match (s.party r).phase with
    | .putting rest => rest
    | _ => []
  else (prog r s.epoch).puts

/-- A party is at the open fence or has its gets of the last one to make. -/
def Placed (prog : R → Nat → Round K V) (val : Nat → K → V) (e : Nat) (r : R) (p : Party K V) :
    Prop :=
  match p.phase with
  | .putting rest => p.round = e ∧ rest ⊆ (prog r e).puts ∧ p.log = expected prog val r e
  | .waiting => (p.round = e ∨ p.round + 1 = e) ∧ p.log = expected prog val r p.round
  | .getting rest => p.round + 1 = e ∧ rest ⊆ (prog r p.round).gets ∧
      p.log ++ rest.map (fun k => some (val p.round k)) = expected prog val r e

structure Inv (prog : R → Nat → Round K V) (val : Nat → K → V) (s : State R K V) : Prop where
  placed : ∀ r, Placed prog val s.epoch r (s.party r)
  pending : ∀ k v, (k, v) ∈ s.pending → ∃ q, (k, v) ∈ (prog q s.epoch).puts
  made : ∀ r k v, (k, v) ∈ (prog r s.epoch).puts → (∃ v', (k, v') ∈ s.todo prog r) ∨
    (∃ v', (k, v') ∈ s.pending) ∨ ∃ q v', s.visible k = some v' ∧ (k, v') ∈ (prog q s.epoch).puts
  settled : ∀ r n k, n + 1 = s.epoch → k ∈ (prog r n).gets → s.visible k = some (val n k)

section Invariant
variable {val : Nat → K → V}

omit [DecidableEq K] in
@[simp] theorem State.set_party_self (s : State R K V) (r : R) (p : Party K V) :
    (s.set r p).party r = p := Function.update_self ..

omit [DecidableEq K] in
theorem State.set_party_ne (s : State R K V) (p : Party K V) (h : q ≠ r) :
    (s.set r p).party q = s.party q := Function.update_of_ne h ..

omit [DecidableEq K] in
theorem placed_set {p : Party K V} (h : ∀ q, Placed prog val s.epoch q (s.party q))
    (hr : Placed prog val s.epoch r p) (q : R) :
    Placed prog val s.epoch q ((s.set r p).party q) := by
  by_cases hq : q = r
  · subst hq
    rwa [State.set_party_self]
  · rw [State.set_party_ne s p hq]
    exact h q

omit [DecidableEq K] in
theorem todo_set_ne {p : Party K V} (h : q ≠ r) : (s.set r p).todo prog q = s.todo prog q := by
  unfold State.todo
  rw [State.set_party_ne s p h]
  rfl

omit [DecidableEq K] in
/-- A move of one party that makes no put. -/
theorem inv_set {p : Party K V} (h : Inv prog val s) (hp : Placed prog val s.epoch r p)
    (ht : (s.set r p).todo prog r = s.todo prog r) : Inv prog val (s.set r p) where
  placed := placed_set h.placed hp
  pending := h.pending
  made q k v hk := by
    have hq : (s.set r p).todo prog q = s.todo prog q := by
      by_cases hq : q = r
      · exact hq ▸ ht
      · exact todo_set_ne hq
    rw [hq]
    exact h.made q k v hk
  settled := h.settled

omit [DecidableEq K] in
theorem inv_put (h : Inv prog val s) (hr : s.party r = ⟨n, .putting ((k, v) :: puts), log⟩) :
    Inv prog val { s.set r ⟨n, .putting puts, log⟩ with pending := s.pending ++ [(k, v)] } := by
  have hpl := h.placed r
  simp only [hr, Placed] at hpl
  obtain ⟨hn, hsub, hlog⟩ := hpl
  have hkv := hsub List.mem_cons_self
  refine ⟨?_, ?_, ?_, h.settled⟩
  · exact placed_set h.placed ⟨hn, fun x hx => hsub (List.mem_cons_of_mem _ hx), hlog⟩
  · intro k' v' hmem
    rcases List.mem_append.1 hmem with hmem | hmem
    · exact h.pending k' v' hmem
    · rw [List.mem_singleton.1 hmem]
      exact ⟨r, hkv⟩
  · intro q k' v' hmem
    rcases h.made q k' v' hmem with ⟨w, hw⟩ | ⟨w, hw⟩ | hvis
    · by_cases hq : q = r
      · subst hq
        have htodo : s.todo prog q = (k, v) :: puts := by simp [State.todo, hr, hn]
        rw [htodo] at hw
        rcases List.mem_cons.1 hw with hw | hw
        · exact .inr (.inl ⟨w, List.mem_append_right _ (List.mem_singleton.2 hw)⟩)
        · refine .inl ⟨w, ?_⟩
          simpa [State.todo, State.set, hn] using hw
      · exact .inl ⟨w, (todo_set_ne hq).symm ▸ hw⟩
    · exact .inr (.inl ⟨w, List.mem_append_left _ hw⟩)
    · exact .inr (.inr hvis)

omit [DecidableEq R] in
theorem inv_flush {l l' : List (K × V)} (hd : Disciplined prog val) (h : Inv prog val s)
    (hl : s.pending = l ++ (k, v) :: l') :
    Inv prog val
      { s with pending := l ++ l', visible := Function.update s.visible k (some v) } := by
  obtain ⟨p, hp⟩ := h.pending k v (by simp [hl])
  refine ⟨h.placed, fun k' v' hmem => h.pending k' v' ?_, fun q k' v' hmem => ?_, ?_⟩
  · rw [hl]
    rcases List.mem_append.1 hmem with hmem | hmem
    · exact List.mem_append_left _ hmem
    · exact List.mem_append_right _ (List.mem_cons_of_mem _ hmem)
  · by_cases hk : k' = k
    · subst hk
      exact .inr (.inr ⟨p, v, Function.update_self .., hp⟩)
    · rcases h.made q k' v' hmem with hw | ⟨w, hw⟩ | ⟨q', w, hvis, hw⟩
      · exact .inl hw
      · refine .inr (.inl ⟨w, ?_⟩)
        rw [hl] at hw
        rcases List.mem_append.1 hw with hw | hw
        · exact List.mem_append_left _ hw
        · rcases List.mem_cons.1 hw with hw | hw
          · exact absurd (congrArg Prod.fst hw) hk
          · exact List.mem_append_right _ hw
      · exact .inr (.inr ⟨q', w, (Function.update_of_ne hk ..).trans hvis, hw⟩)
  · intro r m k' hm hmem
    have hk : k' ≠ k := by
      rintro rfl
      exact hd.spaced hmem p v (by rw [hm]; exact hp)
    exact (Function.update_of_ne hk ..).trans (h.settled r m k' hm hmem)

omit [DecidableEq R] [DecidableEq K] in
/-- When the fence is over, what was put before it is seen. -/
theorem inv_release (hd : Disciplined prog val) (h : Inv prog val s)
    (hall : ∀ r, ∃ log, s.party r = ⟨s.epoch, .waiting, log⟩) (hp : s.pending = []) :
    Inv prog val { s with epoch := s.epoch + 1 } := by
  refine ⟨fun r => ?_, fun k v hmem => ?_, fun r k v hmem => .inl ⟨v, ?_⟩, ?_⟩
  · obtain ⟨log, hr⟩ := hall r
    have hpl := h.placed r
    simp only [hr, Placed] at hpl ⊢
    exact ⟨.inr trivial, hpl.2⟩
  · rw [hp] at hmem
    simp at hmem
  · obtain ⟨log, hr⟩ := hall r
    simpa [State.todo, hr] using hmem
  · intro r m k hm hmem
    obtain rfl : m = s.epoch := Nat.succ.inj hm
    obtain ⟨q, hq⟩ := hd.put hmem
    obtain ⟨log, hr⟩ := hall q
    rcases h.made q k _ hq with ⟨w, hw⟩ | ⟨w, hw⟩ | ⟨q', w, hvis, hw⟩
    · simp [State.todo, hr] at hw
    · simp [hp] at hw
    · rw [hd.unique hmem q' w hw] at hvis
      exact hvis

theorem inv_step (hd : Disciplined prog val) (hs : Step prog T s a t) (h : Inv prog val s) :
    Inv prog val t := by
  cases hs with
  | put hr => exact inv_put h hr
  | flush hl => exact inv_flush hd h hl
  | @enter r n log hr hn =>
    have hpl := h.placed r
    simp only [hr, Placed] at hpl
    obtain ⟨rfl, -, hlog⟩ := hpl
    exact inv_set h ⟨.inl rfl, hlog⟩ (by simp [State.todo, hr, State.set])
  | release hall hp => exact inv_release hd h hall hp
  | @leave r n log hr hn =>
    have hpl := h.placed r
    simp only [hr, Placed] at hpl
    have hne : n ≠ s.epoch := by omega
    have he : n + 1 = s.epoch := by omega
    refine inv_set h ⟨he, List.Subset.refl _, ?_⟩ ?_
    · rw [← he, expected_succ, hpl.2]
    · simp [State.todo, hr, State.set, hne]
  | @get r n k gets log hr =>
    have hpl := h.placed r
    simp only [hr, Placed] at hpl
    obtain ⟨hn, hsub, hlog⟩ := hpl
    have hne : n ≠ s.epoch := by omega
    refine inv_set h ⟨hn, fun x hx => hsub (List.mem_cons_of_mem _ hx), ?_⟩ ?_
    · rw [h.settled r n k hn (hsub List.mem_cons_self), ← hlog]
      simp
    · simp [State.todo, hr, State.set, hne]
  | @next r n log hr =>
    have hpl := h.placed r
    simp only [hr, Placed] at hpl
    obtain ⟨hn, -, hlog⟩ := hpl
    have hne : n ≠ s.epoch := by omega
    refine inv_set h ⟨hn, hn ▸ List.Subset.refl _, by simpa using hlog⟩ ?_
    simp [State.todo, hr, State.set, hn, hne]

omit [DecidableEq R] [DecidableEq K] in
theorem inv_initial : Inv prog val (initial prog) where
  placed r := ⟨rfl, List.Subset.refl _, rfl⟩
  pending k v h := by simp [initial] at h
  made r k v h := .inl ⟨v, h⟩
  settled r n k h := by simp [initial] at h

theorem inv_reachable (hd : Disciplined prog val)
    (h : Reachable (Step prog T) (initial prog) s) : Inv prog val s :=
  h.invariant (P := fun s => Inv prog val s) (fun hs => inv_step hd hs) inv_initial

/-- A party that has done its rounds has got what was put for each of them. -/
theorem log_of_done (hd : Disciplined prog val) (h : Reachable (Step prog T) (initial prog) s)
    (hr : s.party r = ⟨n, .putting puts, log⟩) : log = expected prog val r n := by
  have hpl := (inv_reachable hd h).placed r
  simp only [hr, Placed] at hpl
  exact hpl.1 ▸ hpl.2.2

/-- Whatever a party gets, it is what was put for that round. -/
theorem get_value (hd : Disciplined prog val) (h : Reachable (Step prog T) (initial prog) s)
    (hr : s.party r = ⟨n, .getting (k :: gets), log⟩) : s.visible k = some (val n k) := by
  have hinv := inv_reachable hd h
  have hpl := hinv.placed r
  simp only [hr, Placed] at hpl
  exact hinv.settled r n k hpl.1 (hpl.2.1 List.mem_cons_self)

end Invariant

end Gasnet.FencedStore

/-! The parties of a store with a fence come to their ends: no state before is stuck, and each step
leaves less to do. -/
namespace Gasnet.FencedStore

variable {R K V : Type*} [DecidableEq R] [DecidableEq K] {prog : R → Nat → Round K V} {T : Nat}
  {s t : State R K V} {a : Label R} {r : R} {val : Nat → K → V}

/-- A party is past its last fence only at its end. -/
def InTime (T : Nat) (p : Party K V) : Prop :=
  match p.phase with
  | .putting _ => p.round ≤ T
  | _ => p.round < T

omit [DecidableEq K] in
theorem inTime_set {p : Party K V} (h : ∀ q, InTime T (s.party q)) (hp : InTime T p) (q : R) :
    InTime T ((s.set r p).party q) := by
  by_cases hq : q = r
  · subst hq
    rwa [State.set_party_self]
  · rw [State.set_party_ne s p hq]
    exact h q

theorem inTime_step (hs : Step prog T s a t) (h : ∀ r, InTime T (s.party r)) (r : R) :
    InTime T (t.party r) := by
  cases hs with
  | @put q n k v puts log hr =>
    have hq : n ≤ T := by simpa only [hr, InTime] using h q
    exact inTime_set (p := ⟨n, .putting puts, log⟩) h hq r
  | flush _ => exact h r
  | @enter q n log _ hn => exact inTime_set (p := ⟨n, .waiting, log⟩) h hn r
  | release _ _ => exact h r
  | @leave q n log hr _ =>
    have hq : n < T := by simpa only [hr, InTime] using h q
    exact inTime_set (p := ⟨n, .getting _, log⟩) h hq r
  | @get q n k gets log hr =>
    have hq : n < T := by simpa only [hr, InTime] using h q
    exact inTime_set (p := ⟨n, .getting gets, _⟩) h hq r
  | @next q n log hr =>
    have hq : n < T := by simpa only [hr, InTime] using h q
    exact inTime_set (p := ⟨n + 1, .putting _, log⟩) h hq r

theorem inTime_reachable (h : Reachable (Step prog T) (initial prog) s) (r : R) :
    InTime T (s.party r) :=
  have hinit : ∀ r, InTime T ((initial prog).party r) := fun _ => Nat.zero_le T
  h.invariant (P := fun s => ∀ r, InTime T (s.party r)) inTime_step hinit r

def Done (T : Nat) (s : State R K V) : Prop := ∀ r, ∃ log, s.party r = ⟨T, .putting [], log⟩

/-- Whoever is not at an open fence can go on. -/
theorem party_progress (h : InTime T (s.party r)) :
    (∃ a t, Step prog T s a t) ∨ (∃ log, s.party r = ⟨T, .putting [], log⟩) ∨
      ∃ n log, s.party r = ⟨n, .waiting, log⟩ ∧ s.epoch ≤ n := by
  rcases hr : s.party r with ⟨n, _ | _ | _, log⟩
  case putting rest =>
    cases rest with
    | nil =>
      by_cases hn : n < T
      · exact .inl ⟨_, _, .enter hr hn⟩
      · simp only [hr, InTime] at h
        obtain rfl : n = T := by omega
        exact .inr (.inl ⟨log, rfl⟩)
    | cons kv puts => exact .inl ⟨_, _, .put hr⟩
  case waiting =>
    by_cases hn : n < s.epoch
    · exact .inl ⟨_, _, .leave hr hn⟩
    · exact .inr (.inr ⟨n, log, rfl, by omega⟩)
  case getting rest =>
    cases rest with
    | nil => exact .inl ⟨_, _, .next hr⟩
    | cons k gets => exact .inl ⟨_, _, .get hr⟩

/-- No state is stuck before all are done. -/
theorem progress (hd : Disciplined prog val) (h : Reachable (Step prog T) (initial prog) s) :
    Done T s ∨ ∃ a t, Step prog T s a t := by
  by_cases hstep : ∃ a t, Step prog T s a t
  · exact .inr hstep
  have hinv := inv_reachable hd h
  have hcase : ∀ r, (∃ log, s.party r = ⟨T, .putting [], log⟩) ∨
      ∃ n log, s.party r = ⟨n, .waiting, log⟩ ∧ s.epoch ≤ n := fun r =>
    (party_progress (inTime_reachable h r)).resolve_left hstep
  by_cases hdone : Done T s
  · exact .inl hdone
  refine absurd ?_ hstep
  -- somebody waits at the open fence, so nobody has come to the end
  obtain ⟨p, hp⟩ := not_forall.1 hdone
  obtain ⟨n, log, hpn, hn⟩ := (hcase p).resolve_left hp
  have hpl := hinv.placed p
  have hlt := inTime_reachable h p
  simp only [hpn, Placed, InTime] at hpl hlt
  have hall : ∀ r, ∃ log, s.party r = ⟨s.epoch, .waiting, log⟩ := by
    intro r
    have hplr := hinv.placed r
    rcases hcase r with ⟨log, hr⟩ | ⟨m, log, hr, hm⟩
    · simp only [hr, Placed] at hplr
      omega
    · simp only [hr, Placed] at hplr
      obtain rfl : m = s.epoch := by omega
      exact ⟨log, hr⟩
  cases hpend : s.pending with
  | nil => exact ⟨_, _, .release hall hpend⟩
  | cons kv l =>
    have hl : s.pending = [] ++ (kv.1, kv.2) :: l := hpend
    exact ⟨_, _, .flush hl⟩

/-- The steps that a round takes at most. -/
def cost (prog : R → Nat → Round K V) (r : R) (n : Nat) : Nat :=
  2 * (prog r n).puts.length + (prog r n).gets.length + 3

def later (prog : R → Nat → Round K V) (T : Nat) (r : R) (n : Nat) : Nat :=
  ∑ m ∈ Finset.Ico n T, cost prog r m

omit [DecidableEq R] [DecidableEq K] in
theorem later_eq {n : Nat} (hn : n < T) :
    later prog T r n = cost prog r n + later prog T r (n + 1) :=
  Finset.sum_eq_sum_Ico_succ_bot hn _

/-- What a party has still to do. -/
def work (prog : R → Nat → Round K V) (T : Nat) (r : R) (p : Party K V) : Nat :=
  match p.phase with
  | .putting rest =>
    2 * rest.length + (if p.round < T then (prog r p.round).gets.length + 3 else 0) +
      later prog T r (p.round + 1)
  | .waiting => (prog r p.round).gets.length + 2 + later prog T r (p.round + 1)
  | .getting rest => rest.length + 1 + later prog T r (p.round + 1)

def measure [Fintype R] (prog : R → Nat → Round K V) (T : Nat) (s : State R K V) : Int :=
  totalBy (fun r p => (work prog T r p : Int)) s.party + s.pending.length + (T - s.epoch)

omit [DecidableEq K] in
theorem measure_set [Fintype R] {p : Party K V} {l : List (K × V)}
    (h : work prog T r p + l.length < work prog T r (s.party r) + s.pending.length) :
    measure prog T { s.set r p with pending := l } < measure prog T s := by
  simp only [measure, State.set, totalBy_update]
  omega

/-- Each step leaves less to do, if the parties put nothing after their last round. -/
theorem measure_step [Fintype R] [Nonempty R] (hend : ∀ r, (prog r T).puts = [])
    (ht : ∀ r, InTime T (s.party r)) (hs : Step prog T s a t) :
    measure prog T t < measure prog T s := by
  cases hs with
  | put hr =>
    apply measure_set
    simp only [hr, work, List.length_cons, List.length_append, List.length_nil]
    omega
  | flush hl =>
    simp only [measure, hl, List.length_append, List.length_cons]
    omega
  | enter hr hn =>
    apply measure_set (l := s.pending)
    simp only [hr, work, if_pos hn, List.length_nil]
    omega
  | release hall hp =>
    simp only [measure]
    omega
  | leave hr hn =>
    apply measure_set (l := s.pending)
    simp only [hr, work]
    omega
  | get hr =>
    apply measure_set (l := s.pending)
    simp only [hr, work, List.length_cons]
    omega
  | @next r n log hr =>
    apply measure_set (l := s.pending)
    have hn : n < T := by simpa only [hr, InTime] using ht r
    simp only [hr, work]
    by_cases hlast : n + 1 < T
    · rw [if_pos hlast, later_eq hlast, cost, List.length_nil]
      omega
    · obtain rfl : T = n + 1 := by omega
      simp [hend, later]

/-- All runs end. -/
theorem length_run_le [Fintype R] [Nonempty R] {xs : List (Label R)}
    (hend : ∀ r, (prog r T).puts = []) (h : Run (Step prog T) s xs t)
    (hs : Reachable (Step prog T) (initial prog) s) :
    xs.length + measure prog T t ≤ measure prog T s := by
  induction h with
  | refl => simp
  | stepL h _ ih =>
    have hlt := measure_step hend (inTime_reachable hs) h
    have := ih (hs.snoc h)
    simp only [List.length_cons]
    omega

theorem length_run_le_initial [Fintype R] [Nonempty R] {xs : List (Label R)}
    (hd : Disciplined prog val) (hend : ∀ r, (prog r T).puts = [])
    (h : Run (Step prog T) (initial prog) xs s) : xs.length ≤ measure prog T (initial prog) := by
  obtain ⟨r⟩ := ‹Nonempty R›
  have hle := length_run_le hend h .refl
  have hepoch : s.epoch ≤ T := by
    have hpl := (inv_reachable hd ⟨xs, h⟩).placed r
    have htime := inTime_reachable ⟨xs, h⟩ r
    unfold Placed at hpl
    unfold InTime at htime
    split at hpl <;> rename_i hphase <;> simp only [hphase] at htime <;> omega
  have hwork : 0 ≤ totalBy (fun r p => (work prog T r p : Int)) s.party :=
    Finset.sum_nonneg fun r _ => Int.natCast_nonneg _
  simp only [measure] at hle ⊢
  omega

end Gasnet.FencedStore
