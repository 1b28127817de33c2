import Gasnet.Pshm.Bootstrap
import Gasnet.Pshm.AllocatorRuns

/-! Who has sent to whom: the turns of a bootstrap collective in every run. -/
namespace Gasnet.Pshm.Bootstrap

variable {n len : Nat} {α : Type*} {c : NetConfig} {job : Job n} {src : Fin n → Nat → α}
  {s t : State n α} {i j k : Fin n} {m : Message n}

/-- A block that is off the queue and not copied yet. -/
def Act.hand : Act n → List (Message n)
  | .reading m => [m]
  | _ => []

/-- What is to be received for this chunk, in the order of its delivery. -/
def State.pending (s : State n α) (k : Fin n) : List (Message n) := (s.proc k).act.hand ++ s.queue k

/-- From whom `k` has this chunk, or is going to. -/
def State.senders (s : State n α) (k : Fin n) : List (Fin n) :=
  (s.pending k).map Message.sender ++ (s.proc k).got

/-- A process acts on the first turn that is left. -/
def Proc.Turn (p : Proc n α) : Prop :=
  match p.act with
  | .idle => True
  | .searching | .filling _ | .filled _ => p.phase = .body ∧ ∃ t rest, p.rest = .send t :: rest
  | .reading _ => p.phase = .body ∧ ∃ rest, p.rest = .recv :: rest
  | .releasing m => p.phase = .body ∧ m.sender ∈ p.got

namespace Plan

variable (P : Plan job len)

local instance fin_lawfulBEq : LawfulBEq (Fin n) := inferInstance

/-- The processes that send to `k`. -/
def sources (k : Fin n) : Finset (Fin n) := Finset.univ.filter fun j => k ∈ P.targets j

/-- The turns of `k` from the first that sends. -/
def tail (k : Fin n) : List (Op n) := (P.targets k).map .send ++ List.replicate (P.post k) .recv

/-- `k` has come to the turns that send. -/
def Started (p : Proc n α) (k : Fin n) : Prop := p.rest.length ≤ (P.tail k).length

/-- `j` has delivered the chunk that `k` is at. -/
def Sent (s : State n α) (j k : Fin n) : Prop :=
  k ∈ P.targets j ∧ ((s.proc k).off < (s.proc j).off ∨
    (s.proc j).off = (s.proc k).off ∧ .send k ∉ (s.proc j).rest)

end Plan

variable {P : Plan job len}

theorem Plan.ops_eq (k : Fin n) :
    job.ops k = List.replicate (P.pre k) .recv ++ P.tail k := P.ops k

theorem Plan.mem_ops : .send i ∈ job.ops k ↔ i ∈ P.targets k := by
  simp [P.ops k]

theorem Plan.send_mem_tail : .send i ∈ P.tail k ↔ i ∈ P.targets k := by
  simp [tail]

theorem Plan.count_tail : (P.tail k).count .recv = P.post k := by
  rw [tail, List.count_append, List.count_replicate_self]
  have hnot : (Op.recv : Op n) ∉ (P.targets k).map .send := by simp
  rw [List.count_eq_zero_of_not_mem hnot, Nat.zero_add]

/-- Each peer is sent to once for a chunk. -/
theorem Plan.send_once (P : Plan job len) {r : List (Op n)} (h : .send i :: r <:+ job.ops k) : .send i ∉ r := by
  intro hmem
  have hle := h.sublist.count_le (.send i)
  have hone : (job.ops k).count (.send i) ≤ 1 := by
    rw [P.ops k, List.count_append, List.count_append, List.count_replicate, List.count_replicate]
    have hmap := (P.nodup k).map (f := (Op.send : Fin n → Op n)) fun a b hab => by cases hab; rfl
    have := List.nodup_iff_count_le_one.1 hmap (.send i)
    simpa using this
  have hpos := List.count_pos_iff.2 hmem
  rw [List.count_cons_self] at hle
  omega

/-- Before it has come to the turns that send, they are all left. -/
theorem Plan.rest_of_not_started {p : Proc n α} (h : p.rest <:+ job.ops k) (hs : ¬P.Started p k) :
    ∃ r, 0 < r ∧ p.rest = List.replicate r .recv ++ P.tail k := by
  have htail : P.tail k <:+ job.ops k := by
    rw [P.ops_eq]
    exact List.suffix_append _ _
  obtain ⟨l, hl⟩ := List.suffix_of_suffix_length_le htail h (Nat.le_of_not_le hs)
  have hlong : 0 < l.length := by
    have hlen := congrArg List.length hl
    rw [List.length_append] at hlen
    unfold Started at hs
    omega
  rw [← hl, P.ops_eq] at h
  obtain ⟨q, hq⟩ := h
  rw [← List.append_assoc] at hq
  have hsub : l <:+ List.replicate (P.pre k) .recv := ⟨q, List.append_cancel_right hq⟩
  obtain ⟨a, ha⟩ := List.sublist_replicate_iff.1 hsub.sublist
  refine ⟨l.length, hlong, ?_⟩
  rw [← hl, ha.2, List.length_replicate]

/-- A process that has come to them has no other turns left. -/
theorem Plan.rest_of_started {p : Proc n α} (h : p.rest <:+ job.ops k) (hs : P.Started p k) :
    p.rest <:+ P.tail k := by
  have htail : P.tail k <:+ job.ops k := by
    rw [P.ops_eq]
    exact List.suffix_append _ _
  exact List.suffix_of_suffix_length_le h htail hs

/-- What a process receives for a chunk. -/
theorem Plan.count_ops (P : Plan job len) (k : Fin n) :
    (job.ops k).count .recv = (P.sources k).card := by
  rw [P.ops_eq, List.count_append, List.count_replicate_self, P.count_tail]
  exact P.recvs k

/-- A process that begins with its turns that send has nothing to receive before. -/
theorem Plan.first_of_started {p : Proc n α} (hrest : p.rest = job.ops k) (hk : P.targets k ≠ [])
    (hs : P.Started p k) (hj : k ∈ P.targets j) : ¬j < k := by
  intro hjk
  rw [Started, hrest, P.ops_eq, List.length_append, List.length_replicate] at hs
  have hcard := P.early k hk
  have hzero : P.pre k = 0 := by omega
  rw [hzero] at hcard
  have hmem : j ∈ Finset.univ.filter fun x => x < k ∧ k ∈ P.targets x :=
    Finset.mem_filter.2 ⟨Finset.mem_univ j, hjk, hj⟩
  rw [Finset.card_eq_zero.1 hcard.symm] at hmem
  cases hmem

/-- What holds of the turns at every moment. -/
structure Turns (c : NetConfig) (P : Plan job len) (s : State n α) : Prop where
  suffix : ∀ k, (s.proc k).rest <:+ job.ops k
  full : ∀ k, (s.proc k).phase ≠ .body →
    (s.proc k).rest = job.ops k ∧ (s.proc k).act = .idle ∧ (s.proc k).got = []
  bound : ∀ k, (s.proc k).off ≤ len
  more : ∀ k, (s.proc k).phase = .body → (s.proc k).off < len
  ended : ∀ k, (s.proc k).phase = .done → (s.proc k).off = len
  turn : ∀ k, (s.proc k).Turn
  left : ∀ j k, (s.proc j).phase ≠ .barrier → (s.proc j).off ≤ (s.proc k).off
  near : ∀ j k, (s.proc k).off < (s.proc j).off →
    (s.proc j).off = (s.proc k).off + nbytes c len (s.proc k).off
  past : ∀ j k, (s.proc j).off < (s.proc k).off → k ∈ P.targets j → .send k ∉ (s.proc j).rest
  nodup : ∀ k, (s.senders k).Nodup
  sent : ∀ j k, j ∈ s.senders k ↔ P.Sent s j k
  count : ∀ k, (s.proc k).got.length + (s.proc k).rest.count .recv = (P.sources k).card
  early : ∀ j k, P.targets k ≠ [] → P.Started (s.proc k) k → j < k → k ∈ P.targets j →
    j ∈ (s.proc k).got

/-- The turns do not see what else a step changes. -/
theorem Turns.congr (h : Turns c P s) (hoff : ∀ j, (t.proc j).off = (s.proc j).off)
    (hrest : ∀ j, (t.proc j).rest = (s.proc j).rest) (hgot : ∀ j, (t.proc j).got = (s.proc j).got)
    (hpend : ∀ j, t.pending j = s.pending j)
    (hfull : ∀ j, (t.proc j).phase ≠ .body → (t.proc j).rest = job.ops j ∧ (t.proc j).act = .idle ∧
      (t.proc j).got = [])
    (hmore : ∀ j, (t.proc j).phase = .body → (t.proc j).off < len)
    (hended : ∀ j, (t.proc j).phase = .done → (t.proc j).off = len) (hturn : ∀ j, (t.proc j).Turn)
    (hleft : ∀ j k, (t.proc j).phase ≠ .barrier → (t.proc j).off ≤ (t.proc k).off) :
    Turns c P t := by
  have hsenders : ∀ j, t.senders j = s.senders j := fun j => by
    rw [State.senders, State.senders, hpend, hgot]
  refine ⟨fun j => ?_, hfull, fun j => ?_, hmore, hended, hturn, hleft, fun j k => ?_, fun j k => ?_,
    fun j => ?_, fun j k => ?_, fun j => ?_, fun j k => ?_⟩
  · rw [hrest]
    exact h.suffix j
  · rw [hoff]
    exact h.bound j
  · rw [hoff, hoff]
    exact h.near j k
  · rw [hoff, hoff, hrest]
    exact h.past j k
  · rw [hsenders]
    exact h.nodup j
  · rw [hsenders, h.sent, Plan.Sent, Plan.Sent, hoff, hoff, hrest]
  · rw [hgot, hrest]
    exact h.count j
  · rw [hgot, Plan.Started, hrest]
    exact h.early j k

theorem setProc_proc {p : Proc n α} : (s.setProc k p).proc k = p := Function.update_self _ _ _

theorem setProc_other {p : Proc n α} (h : j ≠ k) : (s.setProc k p).proc j = s.proc j :=
  Function.update_of_ne h _ _

/-- A step that changes only the phase of `k`. -/
theorem Turns.setPhase (h : Turns c P s) (f : Phase) (dst : Nat → α) (hact : (s.proc k).act = .idle)
    (hfull : (s.proc k).rest = job.ops k ∧ (s.proc k).got = [])
    (hmore : f = .body → (s.proc k).off < len) (hended : f = .done → (s.proc k).off = len)
    (hleft : f ≠ .barrier → ∀ j, (s.proc k).off ≤ (s.proc j).off) :
    Turns c P (s.setProc k { s.proc k with phase := f, dst := dst }) := by
  have hcase : ∀ j, (j = k ∧ (s.setProc k { s.proc k with phase := f, dst := dst }).proc j =
      { s.proc k with phase := f, dst := dst }) ∨
      (s.setProc k { s.proc k with phase := f, dst := dst }).proc j = s.proc j := by
    intro j
    by_cases hj : j = k
    · subst hj
      exact .inl ⟨rfl, setProc_proc⟩
    · exact .inr (setProc_other hj)
  have hoff : ∀ j, ((s.setProc k { s.proc k with phase := f, dst := dst }).proc j).off =
      (s.proc j).off := by
    intro j
    rcases hcase j with ⟨rfl, heq⟩ | heq <;> rw [heq]
  refine h.congr hoff (fun j => ?_) (fun j => ?_) (fun j => ?_) (fun j hj => ?_) (fun j hj => ?_)
    (fun j hj => ?_) (fun j => ?_) fun i j hi => ?_
  · rcases hcase j with ⟨rfl, heq⟩ | heq <;> rw [heq]
  · rcases hcase j with ⟨rfl, heq⟩ | heq <;> rw [heq]
  · unfold State.pending
    rcases hcase j with ⟨rfl, heq⟩ | heq <;> rw [heq] <;> rfl
  · rcases hcase j with ⟨rfl, heq⟩ | heq
    · rw [heq]
      exact ⟨hfull.1, hact, hfull.2⟩
    · rw [heq] at hj ⊢
      exact h.full j hj
  · rcases hcase j with ⟨rfl, heq⟩ | heq
    · rw [heq] at hj ⊢
      exact hmore hj
    · rw [heq] at hj ⊢
      exact h.more j hj
  · rcases hcase j with ⟨rfl, heq⟩ | heq
    · rw [heq] at hj ⊢
      exact hended hj
    · rw [heq] at hj ⊢
      exact h.ended j hj
  · rcases hcase j with ⟨rfl, heq⟩ | heq
    · rw [heq]
      simp only [Proc.Turn, hact]
    · rw [heq]
      exact h.turn j
  · rw [hoff, hoff]
    rcases hcase i with ⟨rfl, heq⟩ | heq
    · rw [heq] at hi
      exact hleft hi j
    · rw [heq] at hi
      exact h.left i j hi

/-- A step that changes only what `k` is doing, and not what it has in its hand. -/
theorem Turns.setAct (h : Turns c P s) (a : Act n) (hbody : (s.proc k).phase = .body)
    (hhand : a.hand = (s.proc k).act.hand)
    (hturn : Proc.Turn { s.proc k with act := a }) (hproc : t.proc = (s.setAct k a).proc)
    (hqueue : t.queue = s.queue) : Turns c P t := by
  have hcase : ∀ j, (j = k ∧ t.proc j = { s.proc k with act := a }) ∨ t.proc j = s.proc j := by
    intro j
    rw [hproc]
    by_cases hj : j = k
    · subst hj
      exact .inl ⟨rfl, setProc_proc⟩
    · exact .inr (setProc_other hj)
  have hoff : ∀ j, (t.proc j).off = (s.proc j).off := by
    intro j
    rcases hcase j with ⟨rfl, heq⟩ | heq <;> rw [heq]
  have hphase : ∀ j, (t.proc j).phase = (s.proc j).phase := by
    intro j
    rcases hcase j with ⟨rfl, heq⟩ | heq <;> rw [heq]
  refine h.congr hoff (fun j => ?_) (fun j => ?_) (fun j => ?_) (fun j hj => ?_) (fun j hj => ?_)
    (fun j hj => ?_) (fun j => ?_) fun i j hi => ?_
  · rcases hcase j with ⟨rfl, heq⟩ | heq <;> rw [heq]
  · rcases hcase j with ⟨rfl, heq⟩ | heq <;> rw [heq]
  · unfold State.pending
    rw [hqueue]
    rcases hcase j with ⟨rfl, heq⟩ | heq <;> rw [heq]
    exact congrArg (· ++ s.queue j) hhand
  · rcases hcase j with ⟨rfl, heq⟩ | heq
    · rw [hphase] at hj
      exact absurd hbody hj
    · rw [heq] at hj ⊢
      exact h.full j hj
  · rw [hphase] at hj
    rw [hoff]
    exact h.more j hj
  · rw [hphase] at hj
    rw [hoff]
    exact h.ended j hj
  · rcases hcase j with ⟨rfl, heq⟩ | heq
    · rw [heq]
      exact hturn
    · rw [heq]
      exact h.turn j
  · rw [hphase] at hi
    rw [hoff, hoff]
    exact h.left i j hi

/-- The same when the block in the hand comes from the queue. -/
theorem Turns.receive (h : Turns c P s) {q : List (Message n)} {rest : List (Op n)}
    (hbody : (s.proc k).phase = .body) (hidle : (s.proc k).act = .idle)
    (hrest : (s.proc k).rest = .recv :: rest) (hq : s.queue k = m :: q) :
    Turns c P ((s.setQueue k q).setAct k (.reading m)) := by
  set t := (s.setQueue k q).setAct k (.reading m) with ht
  have hcase : ∀ j, (j = k ∧ t.proc j = { s.proc k with act := .reading m }) ∨
      t.proc j = s.proc j := by
    intro j
    by_cases hj : j = k
    · subst hj
      exact .inl ⟨rfl, setProc_proc⟩
    · exact .inr (setProc_other hj)
  have hoff : ∀ j, (t.proc j).off = (s.proc j).off := by
    intro j
    rcases hcase j with ⟨rfl, heq⟩ | heq <;> rw [heq]
  have hphase : ∀ j, (t.proc j).phase = (s.proc j).phase := by
    intro j
    rcases hcase j with ⟨rfl, heq⟩ | heq <;> rw [heq]
  refine h.congr hoff (fun j => ?_) (fun j => ?_) (fun j => ?_) (fun j hj => ?_) (fun j hj => ?_)
    (fun j hj => ?_) (fun j => ?_) fun i j hi => ?_
  · rcases hcase j with ⟨rfl, heq⟩ | heq <;> rw [heq]
  · rcases hcase j with ⟨rfl, heq⟩ | heq <;> rw [heq]
  · unfold State.pending
    by_cases hj : j = k
    · subst hj
      have hqueue : t.queue j = q := Function.update_self _ _ _
      have hact : (t.proc j).act = .reading m := congrArg Proc.act setProc_proc
      rw [hqueue, hact, hidle, hq]
      rfl
    · have hqueue : t.queue j = s.queue j := Function.update_of_ne hj _ _
      have hproc : t.proc j = s.proc j := setProc_other hj
      rw [hqueue, hproc]
  · rcases hcase j with ⟨rfl, heq⟩ | heq
    · rw [hphase] at hj
      exact absurd hbody hj
    · rw [heq] at hj ⊢
      exact h.full j hj
  · rw [hphase] at hj
    rw [hoff]
    exact h.more j hj
  · rw [hphase] at hj
    rw [hoff]
    exact h.ended j hj
  · rcases hcase j with ⟨rfl, heq⟩ | heq
    · rw [heq]
      exact ⟨hbody, rest, hrest⟩
    · rw [heq]
      exact h.turn j
  · rw [hphase] at hi
    rw [hoff, hoff]
    exact h.left i j hi

/-- A process that has come to its turns that send has not yet done the first of them if another process
waits for it. -/
theorem Turns.not_sent (h : Turns c P s) (hs : ¬P.Started (s.proc k) k) (hk : i ∈ P.targets k) :
    .send i ∈ (s.proc k).rest := by
  obtain ⟨r, -, hrest⟩ := P.rest_of_not_started (h.suffix k) hs
  rw [hrest, List.mem_append]
  exact .inr (Plan.send_mem_tail.2 hk)

/-- Who has sent in this round has come to the turns that send. -/
theorem Turns.started (h : Turns c P s) (hk : i ∈ P.targets k) (hsent : .send i ∉ (s.proc k).rest) :
    P.Started (s.proc k) k := by
  by_contra hs
  exact hsent (h.not_sent hs hk)

theorem Turns.started_of_send (h : Turns c P s) {rest : List (Op n)}
    (hrest : (s.proc k).rest = .send i :: rest) : P.Started (s.proc k) k := by
  by_contra hs
  obtain ⟨r, hr, hfull⟩ := P.rest_of_not_started (h.suffix k) hs
  obtain ⟨r, rfl⟩ := Nat.exists_eq_succ_of_ne_zero hr.ne'
  rw [hrest, List.replicate_succ, List.cons_append] at hfull
  cases hfull

/-- A process that has not come to its turns that send has the chunk only from lower ranks, if it is to
send itself. -/
theorem Turns.lower (h : Turns c P s) (hk : P.targets k ≠ []) (hs : ¬P.Started (s.proc k) k)
    (hj : j ∈ s.senders k) : j < k := by
  obtain ⟨htarget, hsent⟩ := (h.sent j k).1 hj
  have hback : j ∈ P.targets k := P.back j k hk htarget
  have hne : P.targets j ≠ [] := List.ne_nil_of_mem htarget
  by_contra hlt
  have hkj : k < j := by
    refine lt_of_le_of_ne (not_lt.1 hlt) ?_
    rintro rfl
    exact P.other k htarget
  rcases hsent with hoff | ⟨hoff, hdone⟩
  · exact h.past k j hoff hback (h.not_sent hs hback)
  · have hearly := h.early k j hne (h.started htarget hdone) hkj hback
    have hmem : k ∈ s.senders j := by
      unfold State.senders
      exact List.mem_append_right _ hearly
    obtain ⟨-, hless | ⟨-, hnot⟩⟩ := (h.sent k j).1 hmem
    · omega
    · exact hnot (h.not_sent hs hback)

/-- The chunk of a sender is copied. -/
theorem Turns.copy (h : Turns c P s) {dst : Nat → α} {rest : List (Op n)}
    (hact : (s.proc k).act = .reading m) (hrest : (s.proc k).rest = .recv :: rest) :
    Turns c P (s.setProc k ((s.proc k).receive m dst rest)) := by
  set t := s.setProc k ((s.proc k).receive m dst rest) with ht
  have hself : t.proc k = (s.proc k).receive m dst rest := setProc_proc
  have hother : ∀ j, j ≠ k → t.proc j = s.proc j := fun j hj => setProc_other hj
  have hbody : (s.proc k).phase = .body := by
    have hturn := h.turn k
    simp only [Proc.Turn, hact] at hturn
    exact hturn.1
  have hoff : ∀ j, (t.proc j).off = (s.proc j).off := by
    intro j
    by_cases hj : j = k
    · rw [hj, hself]
      rfl
    · rw [hother j hj]
  have hphase : ∀ j, (t.proc j).phase = (s.proc j).phase := by
    intro j
    by_cases hj : j = k
    · rw [hj, hself]
      rfl
    · rw [hother j hj]
  have hsend : ∀ j x, .send x ∉ (t.proc j).rest ↔ .send x ∉ (s.proc j).rest := by
    intro j x
    by_cases hj : j = k
    · rw [hj, hself, hrest]
      simp [Proc.receive]
    · rw [hother j hj]
  have hsame : ∀ j, j ≠ k → t.senders j = s.senders j := by
    intro j hj
    unfold State.senders State.pending
    rw [hother j hj]
    rfl
  have hperm : (t.senders k).Perm (s.senders k) := by
    unfold State.senders State.pending
    rw [hself, hact]
    exact List.perm_middle
  have hsenders : ∀ j x, x ∈ t.senders j ↔ x ∈ s.senders j := by
    intro j x
    by_cases hj : j = k
    · rw [hj]
      exact hperm.mem_iff
    · rw [hsame j hj]
  have hcount : (t.proc k).got.length + (t.proc k).rest.count .recv = (P.sources k).card := by
    have hc := h.count k
    rw [hrest, List.count_cons_self] at hc
    rw [hself]
    show (m.sender :: (s.proc k).got).length + rest.count .recv = _
    rw [List.length_cons]
    omega
  refine ⟨fun j => ?_, fun j hj => ?_, fun j => ?_, fun j hj => ?_, fun j hj => ?_, fun j => ?_,
    fun i j hi => ?_, fun i j => ?_, fun i j => ?_, fun j => ?_, fun i j => ?_, fun j => ?_, fun i j hne hs hij hi => ?_⟩
  · by_cases hj : j = k
    · subst hj
      have hsuffix := h.suffix j
      rw [hrest] at hsuffix
      rw [hself]
      exact (List.suffix_cons _ _).trans hsuffix
    · rw [hother j hj]
      exact h.suffix j
  · rw [hphase] at hj
    by_cases hjk : j = k
    · exact absurd (hjk ▸ hbody) hj
    · rw [hother j hjk]
      exact h.full j hj
  · rw [hoff]
    exact h.bound j
  · rw [hphase] at hj
    rw [hoff]
    exact h.more j hj
  · rw [hphase] at hj
    rw [hoff]
    exact h.ended j hj
  · by_cases hj : j = k
    · rw [hj, hself]
      exact ⟨hbody, List.mem_cons_self⟩
    · rw [hother j hj]
      exact h.turn j
  · rw [hphase] at hi
    rw [hoff, hoff]
    exact h.left i j hi
  · rw [hoff, hoff]
    exact h.near i j
  · rw [hoff, hoff, hsend]
    exact h.past i j
  · by_cases hj : j = k
    · rw [hj]
      exact hperm.nodup_iff.2 (h.nodup k)
    · rw [hsame j hj]
      exact h.nodup j
  · rw [hsenders, h.sent, Plan.Sent, Plan.Sent, hoff, hoff, hsend]
  · by_cases hj : j = k
    · rw [hj]
      exact hcount
    · rw [hother j hj]
      exact h.count j
  · by_cases hj : j = k
    · subst hj
      by_cases hold : P.Started (s.proc j) j
      · rw [hself]
        exact List.mem_cons_of_mem _ (h.early i j hne hold hij hi)
      · -- Now it has a chunk from as many lower ranks as there are that send to it.
        obtain ⟨r, hr, hfull⟩ := P.rest_of_not_started (h.suffix j) hold
        have hnow : rest = P.tail j := by
          rw [Plan.Started, hself] at hs
          have hs' : rest.length ≤ (P.tail j).length := hs
          rw [hrest] at hfull
          have hlen := congrArg List.length hfull
          rw [List.length_cons, List.length_append, List.length_replicate] at hlen
          obtain rfl : r = 1 := by omega
          exact (List.cons.inj hfull).2
        have hgot : (t.proc j).got.length = P.pre j := by
          have hrecvs := P.recvs j
          rw [hself] at hcount
          change (m.sender :: (s.proc j).got).length + rest.count .recv = _ at hcount
          rw [hnow, P.count_tail, Plan.sources, ← hrecvs] at hcount
          rw [hself]
          show (m.sender :: (s.proc j).got).length = _
          omega
        have hsub : (t.proc j).got ⊆ t.senders j := by
          unfold State.senders
          exact List.subset_append_right _ _
        have hlower : (t.proc j).got.toFinset ⊆
            Finset.univ.filter fun x => x < j ∧ j ∈ P.targets x := by
          intro x hx
          rw [List.mem_toFinset] at hx
          have hmem := (hsenders j x).1 (hsub hx)
          rw [Finset.mem_filter]
          exact ⟨Finset.mem_univ x, h.lower hne hold hmem, ((h.sent x j).1 hmem).1⟩
        have hnodup : (t.proc j).got.Nodup := by
          have hall := hperm.nodup_iff.2 (h.nodup j)
          unfold State.senders at hall
          exact (List.nodup_append.1 hall).2.1
        have heq := Finset.eq_of_subset_of_card_le hlower (by
          rw [List.toFinset_card_of_nodup hnodup, hgot, P.early j hne])
        have hmem : i ∈ (t.proc j).got.toFinset := by
          rw [heq, Finset.mem_filter]
          exact ⟨Finset.mem_univ i, hij, hi⟩
        exact List.mem_toFinset.1 hmem
    · rw [hother j hj] at hs ⊢
      exact h.early i j hne hs hij hi

/-- The process that `k` is about to send to is at the same chunk. -/
theorem Turns.level (h : Turns c P s) {rest : List (Op n)} (hbody : (s.proc k).phase = .body)
    (hrest : (s.proc k).rest = .send i :: rest) : (s.proc k).off = (s.proc i).off := by
  have hle := h.left k i (by rw [hbody]; nofun)
  have hmem : .send i ∈ (s.proc k).rest := hrest ▸ List.mem_cons_self
  have htarget : i ∈ P.targets k := Plan.mem_ops.1 ((h.suffix k).subset hmem)
  by_contra hne
  exact h.past k i (lt_of_le_of_ne hle hne) htarget hmem

/-- A chunk is delivered to `i`, which is at the same chunk. -/
theorem Turns.deliver (h : Turns c P s) {rest : List (Op n)}
    (hact : (s.proc k).act.hand = []) (hbody : (s.proc k).phase = .body)
    (hrest : (s.proc k).rest = .send i :: rest) (hm : m.sender = k) :
    Turns c P ((s.setQueue i (s.queue i ++ [m])).setProc k
      { s.proc k with act := .idle, rest := rest }) := by
  set t := (s.setQueue i (s.queue i ++ [m])).setProc k
    { s.proc k with act := .idle, rest := rest } with ht
  have hself : t.proc k = { s.proc k with act := .idle, rest := rest } := setProc_proc
  have hother : ∀ j, j ≠ k → t.proc j = s.proc j := fun j hj => setProc_other hj
  have hsuffix : .send i :: rest <:+ job.ops k := hrest ▸ h.suffix k
  have honce := P.send_once hsuffix
  have htarget : i ∈ P.targets k := Plan.mem_ops.1 (hsuffix.subset List.mem_cons_self)
  have hik : i ≠ k := by
    rintro rfl
    exact P.other i htarget
  have hoff : ∀ j, (t.proc j).off = (s.proc j).off := by
    intro j
    by_cases hj : j = k
    · rw [hj, hself]
    · rw [hother j hj]
  have hphase : ∀ j, (t.proc j).phase = (s.proc j).phase := by
    intro j
    by_cases hj : j = k
    · rw [hj, hself]
    · rw [hother j hj]
  have hgot : ∀ j, (t.proc j).got = (s.proc j).got := by
    intro j
    by_cases hj : j = k
    · rw [hj, hself]
    · rw [hother j hj]
  have hsub : ∀ j, (t.proc j).rest <:+ (s.proc j).rest := by
    intro j
    by_cases hj : j = k
    · rw [hj, hself, hrest]
      exact List.suffix_cons _ _
    · rw [hother j hj]
  have hhand : ∀ j, (t.proc j).act.hand = (s.proc j).act.hand := by
    intro j
    by_cases hj : j = k
    · rw [hj, hself, hact]
      rfl
    · rw [hother j hj]
  have hsame : ∀ j, j ≠ i → t.senders j = s.senders j := by
    intro j hj
    have hqueue : t.queue j = s.queue j := Function.update_of_ne hj _ _
    rw [State.senders, State.senders, State.pending, State.pending, hhand, hgot, hqueue]
  have hperm : (t.senders i).Perm (k :: s.senders i) := by
    have hqueue : t.queue i = s.queue i ++ [m] := Function.update_self _ _ _
    rw [State.senders, State.senders, State.pending, State.pending, hhand, hgot, hqueue,
      ← List.append_assoc, List.map_append, List.append_assoc]
    rw [List.map_cons, List.map_nil, hm]
    exact List.perm_middle
  have hlevel := h.level hbody hrest
  have hnot : k ∉ s.senders i := by
    intro hmem
    obtain ⟨-, hlt | ⟨-, hdone⟩⟩ := (h.sent k i).1 hmem
    · omega
    · rw [hrest] at hdone
      exact hdone List.mem_cons_self
  have hsent : ∀ x j, P.Sent t x j ↔ P.Sent s x j ∨ x = k ∧ j = i := by
    intro x j
    rw [Plan.Sent, Plan.Sent, hoff, hoff]
    by_cases hx : x = k
    · subst hx
      rw [hself, hrest]
      constructor
      · rintro ⟨hj, hlt | ⟨heq, hmem⟩⟩
        · exact .inl ⟨hj, .inl hlt⟩
        · by_cases hji : j = i
          · exact .inr ⟨rfl, hji⟩
          · refine .inl ⟨hj, .inr ⟨heq, ?_⟩⟩
            rw [List.mem_cons, not_or]
            exact ⟨fun he => hji (by cases he; rfl), hmem⟩
      · rintro (⟨hj, hlt | ⟨heq, hmem⟩⟩ | ⟨-, rfl⟩)
        · exact ⟨hj, .inl hlt⟩
        · rw [List.mem_cons, not_or] at hmem
          exact ⟨hj, .inr ⟨heq, hmem.2⟩⟩
        · exact ⟨htarget, .inr ⟨hlevel, honce⟩⟩
    · rw [hother x hx]
      simp [hx]
  refine ⟨fun j => (hsub j).trans (h.suffix j), fun j hj => ?_, fun j => ?_, fun j hj => ?_,
    fun j hj => ?_, fun j => ?_, fun x j hx => ?_, fun x j => ?_, fun x j hx hj => ?_, fun j => ?_, fun x j => ?_,
    fun j => ?_, fun x j hne hs hxj hx => ?_⟩
  · rw [hphase] at hj
    by_cases hjk : j = k
    · exact absurd (hjk ▸ hbody) hj
    · rw [hother j hjk]
      exact h.full j hj
  · rw [hoff]
    exact h.bound j
  · rw [hphase] at hj
    rw [hoff]
    exact h.more j hj
  · rw [hphase] at hj
    rw [hoff]
    exact h.ended j hj
  · by_cases hj : j = k
    · rw [hj, hself]
      trivial
    · rw [hother j hj]
      exact h.turn j
  · rw [hphase] at hx
    rw [hoff, hoff]
    exact h.left x j hx
  · rw [hoff, hoff]
    exact h.near x j
  · rw [hoff, hoff] at hx
    exact fun hmem => h.past x j hx hj ((hsub x).subset hmem)
  · by_cases hj : j = i
    · rw [hj, hperm.nodup_iff, List.nodup_cons]
      exact ⟨hnot, h.nodup i⟩
    · rw [hsame j hj]
      exact h.nodup j
  · rw [hsent, ← h.sent]
    by_cases hj : j = i
    · rw [hj, hperm.mem_iff, List.mem_cons]
      simp only [and_true]
      exact or_comm
    · rw [hsame j hj]
      simp [hj]
  · rw [hgot]
    by_cases hj : j = k
    · have hc := h.count k
      rw [hrest, List.count_cons_of_ne (by nofun)] at hc
      rw [hj, hself]
      exact hc
    · rw [hother j hj]
      exact h.count j
  · rw [hgot]
    refine h.early x j hne ?_ hxj hx
    by_cases hj : j = k
    · rw [hj]
      exact h.started_of_send hrest
    · rw [hother j hj] at hs
      exact hs

/-- Without a turn left, `k` has the chunk from every process that sends to it. -/
theorem Turns.complete (h : Turns c P s)
    (hrest : (s.proc k).rest = []) :
    s.queue k = [] ∧ ∀ j, k ∈ P.targets j → j ∈ (s.proc k).got ∧ P.Sent s j k := by
  have hcount := h.count k
  rw [hrest, List.count_nil, Nat.add_zero] at hcount
  have hnodup := h.nodup k
  unfold State.senders at hnodup
  rw [List.nodup_append] at hnodup
  have hsub : (s.proc k).got.toFinset ⊆ P.sources k := by
    intro j hj
    rw [List.mem_toFinset] at hj
    have hmem : j ∈ s.senders k := List.mem_append_right _ hj
    exact Finset.mem_filter.2 ⟨Finset.mem_univ j, ((h.sent j k).1 hmem).1⟩
  have heq := Finset.eq_of_subset_of_card_le hsub (by
    rw [List.toFinset_card_of_nodup hnodup.2.1, hcount])
  have hall : ∀ j, k ∈ P.targets j → j ∈ (s.proc k).got := by
    intro j hj
    rw [← List.mem_toFinset, heq]
    exact Finset.mem_filter.2 ⟨Finset.mem_univ j, hj⟩
  refine ⟨?_, fun j hj => ⟨hall j hj, (h.sent j k).1 (List.mem_append_right _ (hall j hj))⟩⟩
  rw [List.eq_nil_iff_forall_not_mem]
  intro m hm
  have hpend : m.sender ∈ (s.pending k).map Message.sender :=
    List.mem_map_of_mem (List.mem_append_right _ hm)
  have hmem : m.sender ∈ s.senders k := List.mem_append_left _ hpend
  exact hnodup.2.2 _ hpend _ (hall _ ((h.sent _ k).1 hmem).1) rfl

theorem nbytes_pos (hmax : 0 < c.maxPayload) {off : Nat} (h : off < len) : 0 < nbytes c len off := by
  unfold nbytes
  omega

/-- The last turn for a chunk is done, and `k` arrives at the barrier. -/
theorem Turns.arrive (h : Turns c P s) (hmax : 0 < c.maxPayload) (hbody : (s.proc k).phase = .body)
    (hidle : (s.proc k).act = .idle) (hrest : (s.proc k).rest = []) :
    Turns c P (s.setProc k ((s.proc k).arrive (nbytes c len (s.proc k).off) (job.ops k))) := by
  set t := s.setProc k ((s.proc k).arrive (nbytes c len (s.proc k).off) (job.ops k)) with ht
  have hself : t.proc k = (s.proc k).arrive (nbytes c len (s.proc k).off) (job.ops k) := setProc_proc
  have hother : ∀ j, j ≠ k → t.proc j = s.proc j := fun j hj => setProc_other hj
  have hoffk : (t.proc k).off = (s.proc k).off + nbytes c len (s.proc k).off := by
    rw [hself]
    rfl
  have hrestk : (t.proc k).rest = job.ops k := by
    rw [hself]
    rfl
  have hpos := nbytes_pos hmax (h.more k hbody)
  have hle : ∀ j, (s.proc k).off ≤ (s.proc j).off := fun j => h.left k j (by rw [hbody]; nofun)
  obtain ⟨hempty, hall⟩ := h.complete hrest
  -- The others are at the chunk that `k` has done, or at the next one and have not begun it.
  have hlevel : ∀ j, j ≠ k → (s.proc j).off = (s.proc k).off ∨
      (s.proc j).off = (t.proc k).off ∧ (s.proc j).rest = job.ops j := by
    intro j hj
    rcases (hle j).eq_or_lt with heq | hlt
    · exact .inl heq.symm
    · refine .inr ⟨(h.near j k hlt).trans hoffk.symm, ?_⟩
      refine (h.full j fun hb => ?_).1
      have := h.left j k (by rw [hb]; nofun)
      omega
  have hnone : t.senders k = [] := by
    unfold State.senders State.pending
    rw [hself]
    show ((s.proc k).act.hand ++ s.queue k).map Message.sender ++ [] = []
    rw [hidle, hempty]
    rfl
  have hsame : ∀ j, j ≠ k → t.senders j = s.senders j := by
    intro j hj
    unfold State.senders State.pending
    rw [hother j hj]
    rfl
  have hsent : ∀ i j, P.Sent t i j ↔ j ≠ k ∧ P.Sent s i j := by
    intro i j
    unfold Plan.Sent
    by_cases hj : j = k
    · subst hj
      simp only [ne_eq, not_true_eq_false, false_and, iff_false]
      rintro ⟨hi, hsent⟩
      by_cases hij : i = j
      · exact P.other i (hij ▸ hi)
      · rw [hother i hij] at hsent
        rcases hlevel i hij with heq | ⟨heq, hfull⟩
        · omega
        · rcases hsent with hlt | ⟨-, hnot⟩
          · omega
          · rw [hfull] at hnot
            exact hnot (Plan.mem_ops.2 hi)
    · simp only [ne_eq, hj, not_false_eq_true, true_and]
      by_cases hi : i = k
      · subst hi
        rw [hother j hj, hoffk, hrestk, hrest]
        have hlj := hle j
        constructor
        · rintro ⟨hi, hlt | ⟨heq, hnot⟩⟩
          · refine ⟨hi, .inr ⟨?_, List.not_mem_nil⟩⟩
            rcases hlevel j hj with heq | ⟨heq, -⟩ <;> omega
          · exact absurd (Plan.mem_ops.2 hi) hnot
        · rintro ⟨hi, hlt | ⟨heq, -⟩⟩
          · omega
          · exact ⟨hi, .inl (by omega)⟩
      · rw [hother i hi, hother j hj]
  refine ⟨fun j => ?_, fun j hj => ?_, fun j => ?_, fun j hj => ?_, fun j hj => ?_, fun j => ?_,
    fun i j hi => ?_, fun i j hij => ?_, fun i j hij hi => ?_, fun j => ?_, fun i j => ?_, fun j => ?_,
    fun i j hne hs hij hi => ?_⟩
  · by_cases hj : j = k
    · rw [hj, hrestk]
    · rw [hother j hj]
      exact h.suffix j
  · by_cases hjk : j = k
    · rw [hjk, hself]
      exact ⟨rfl, hidle, rfl⟩
    · rw [hother j hjk] at hj ⊢
      exact h.full j hj
  · by_cases hj : j = k
    · have := h.more k hbody
      rw [hj, hoffk]
      unfold nbytes
      omega
    · rw [hother j hj]
      exact h.bound j
  · by_cases hjk : j = k
    · rw [hjk, hself] at hj
      cases hj
    · rw [hother j hjk] at hj ⊢
      exact h.more j hj
  · by_cases hjk : j = k
    · rw [hjk, hself] at hj
      cases hj
    · rw [hother j hjk] at hj ⊢
      exact h.ended j hj
  · by_cases hj : j = k
    · rw [hj, hself]
      simp only [Proc.Turn, Proc.arrive, hidle]
    · rw [hother j hj]
      exact h.turn j
  · by_cases hik : i = k
    · rw [hik, hself] at hi
      exact absurd rfl hi
    · rw [hother i hik] at hi ⊢
      by_cases hj : j = k
      · have := h.left i k hi
        rw [hj, hoffk]
        omega
      · rw [hother j hj]
        exact h.left i j hi
  · by_cases hi : i = k
    · subst hi
      by_cases hj : j = i
      · rw [hj] at hij
        exact absurd hij (lt_irrefl _)
      · rw [hother j hj] at hij ⊢
        rcases hlevel j hj with heq | ⟨heq, -⟩
        · rw [heq]
          exact hoffk
        · omega
    · rw [hother i hi] at hij ⊢
      by_cases hj : j = k
      · rw [hj] at hij
        rcases hlevel i hi with heq | ⟨heq, -⟩ <;> omega
      · rw [hother j hj] at hij ⊢
        exact h.near i j hij
  · by_cases hik : i = k
    · subst hik
      by_cases hj : j = i
      · rw [hj] at hij
        exact absurd hij (lt_irrefl _)
      · rw [hother j hj] at hij
        rcases hlevel j hj with heq | ⟨heq, -⟩ <;> omega
    · rw [hother i hik] at hij ⊢
      by_cases hj : j = k
      · subst hj
        rcases hlevel i hik with heq | ⟨heq, -⟩
        · obtain ⟨-, hlt | ⟨-, hnot⟩⟩ := (hall i hi).2
          · omega
          · exact hnot
        · omega
      · rw [hother j hj] at hij
        exact h.past i j hij hi
  · by_cases hj : j = k
    · rw [hj, hnone]
      exact List.nodup_nil
    · rw [hsame j hj]
      exact h.nodup j
  · rw [hsent]
    by_cases hj : j = k
    · rw [hj, hnone]
      simp
    · rw [hsame j hj, h.sent]
      simp [hj]
  · by_cases hj : j = k
    · subst hj
      rw [hself]
      show 0 + (job.ops j).count .recv = _
      rw [Nat.zero_add]
      exact P.count_ops j
    · rw [hother j hj]
      exact h.count j
  · by_cases hj : j = k
    · subst hj
      exact absurd hij (Plan.first_of_started hrestk hne hs hi)
    · rw [hother j hj] at hs ⊢
      exact h.early i j hne hs hij hi

theorem Turns.same (h : Turns c P s) (hproc : t.proc = s.proc) (hqueue : t.queue = s.queue) :
    Turns c P t := by
  refine h.congr (fun j => by rw [hproc]) (fun j => by rw [hproc]) (fun j => by rw [hproc])
    (fun j => ?_) (fun j hj => ?_) (fun j hj => ?_) (fun j hj => ?_) (fun j => ?_) fun i j hi => ?_
  · unfold State.pending
    rw [hproc, hqueue]
  · rw [hproc] at hj ⊢
    exact h.full j hj
  · rw [hproc] at hj ⊢
    exact h.more j hj
  · rw [hproc] at hj ⊢
    exact h.ended j hj
  · rw [hproc]
    exact h.turn j
  · rw [hproc] at hi ⊢
    exact h.left i j hi

theorem Turns.idle_of_phase (h : Turns c P s) (hf : (s.proc k).phase ≠ .body) :
    (s.proc k).rest = job.ops k ∧ (s.proc k).got = [] :=
  ⟨(h.full k hf).1, (h.full k hf).2.2⟩

theorem turns_step (hmax : 0 < c.maxPayload) (hstep : Step c job len src s k t)
    (h : Turns c P s) : Turns c P t := by
  have hturn := h.turn k
  unfold Proc.Turn at hturn
  cases hstep with
  | enter hphase hoff =>
    have hne : (s.proc k).phase ≠ .body := by rw [hphase]; nofun
    exact h.setPhase .body _ (h.full k hne).2.1 (h.idle_of_phase hne) (fun _ => hoff) nofun
      fun _ j => h.left k j (by rw [hphase]; nofun)
  | exit hphase hoff =>
    have hne : (s.proc k).phase ≠ .body := by rw [hphase]; nofun
    exact h.setPhase .done _ (h.full k hne).2.1 (h.idle_of_phase hne) nofun
      (fun _ => Nat.le_antisymm (h.bound k) (Nat.le_of_not_lt hoff))
      fun _ j => h.left k j (by rw [hphase]; nofun)
  | arrive hbody hidle hrest => exact h.arrive hmax hbody hidle hrest
  | leave hphase hall =>
    have hne : (s.proc k).phase ≠ .body := by rw [hphase]; nofun
    exact h.setPhase .test _ (h.full k hne).2.1 (h.idle_of_phase hne) nofun nofun fun _ => hall
  | request hbody hidle hrest _ =>
    refine h.setAct .searching hbody ?_ ⟨hbody, _, _, hrest⟩ rfl rfl
    rw [hidle]
    rfl
  | search _ _ _ _ => exact h.same rfl rfl
  | refused hact _ _ =>
    rw [hact] at hturn
    refine h.setAct .idle hturn.1 ?_ trivial rfl rfl
    rw [hact]
    rfl
  | @granted p _ hact _ =>
    rw [hact] at hturn
    refine h.setAct (.filling p) hturn.1 ?_ hturn rfl rfl
    rw [hact]
    rfl
  | scribble _ _ => exact h.same rfl rfl
  | @fill p hact =>
    rw [hact] at hturn
    refine h.setAct (.filled p) hturn.1 ?_ hturn rfl rfl
    rw [hact]
    rfl
  | deliver hact hrest =>
    rw [hact] at hturn
    refine h.deliver ?_ hturn.1 hrest rfl
    rw [hact]
    rfl
  | receive hbody hidle hrest hq => exact h.receive hbody hidle hrest hq
  | copy hact hrest => exact h.copy hact hrest
  | release hact =>
    rw [hact] at hturn
    refine h.setAct .idle hturn.1 ?_ trivial rfl rfl
    rw [hact]
    rfl

end Gasnet.Pshm.Bootstrap
