import Gasnet.Ofi.RecvBuffers

/-! Every release of a buffer is followed by one repost, after the last handler. -/
namespace Gasnet.Ofi

variable {T B : Type*} [Fintype T] [DecidableEq T] [DecidableEq B] {s u : State T B} {t : T}
  {b : B}

/-- The counters of every buffer are right, and only the thread that has the lock changes the list
of buffers to retry. -/
structure Inv (s : State T B) : Prop where
  ctxt : ∀ b, CtxtInv s.pc (s.buffsToRetry.count b) (s.ctxt b) b
  walk : ∀ t kept rest, s.pc t = .retrying kept rest →
    s.lock = some t ∧ s.buffsToRetry = kept ++ rest

omit [DecidableEq T] in
theorem inv_initial : Inv (initial : State T B) := by
  refine ⟨fun b => ?_, fun t kept rest h => by cases h⟩
  have hreposts : total (PC.reposts b) (initial : State T B).pc = 0 := total_eq_zero fun _ => rfl
  have hhold : total (PC.holds b) (initial : State T B).pc = 0 := total_eq_zero fun _ => rfl
  have hwait : total (PC.waits b 0) (initial : State T B).pc = 0 := total_eq_zero fun _ => rfl
  have hdue : due (initial : State T B).pc ((initial : State T B).buffsToRetry.count b) b = 0 := by
    rw [due, hreposts]
    rfl
  refine ⟨rfl, rfl, rfl, rfl, ?_, fun h => absurd h Nat.one_ne_zero,
    fun _ => ⟨rfl, Nat.two_pow_pos 32⟩, Nat.le_refl _, ?_, fun _ => Nat.le_refl _,
    fun t k n h => (by cases h), ?_⟩
  · rw [hdue]
    exact Int.le_refl 1
  · rw [hhold]
    rfl
  · rw [hdue]
    exact hwait

/-- The other buffers when the acting thread works on `b`. -/
theorem CtxtInv.elsewhere {pc : T → PC B} {p : PC B} {f : B → RecvCtxt} {c : B} {n : Nat}
    {x : RecvCtxt} (hne : c ≠ b) (h : CtxtInv pc n (f c) c) (hold : ¬(pc t).Concerns c)
    (hnew : ¬p.Concerns c) : CtxtInv (Function.update pc t p) n (Function.update f b x c) c := by
  rw [Function.update_of_ne hne]
  exact h.other hold hnew

omit [Fintype T] [DecidableEq B] in
theorem walk_update {pc : T → PC B} {p : PC B} {lock : Option T} {list : List B}
    (hself : ∀ kept rest, p = .retrying kept rest → lock = some t ∧ list = kept ++ rest)
    (hother : ∀ v kept rest, v ≠ t → pc v = .retrying kept rest →
      lock = some v ∧ list = kept ++ rest) :
    ∀ v kept rest, Function.update pc t p v = .retrying kept rest →
      lock = some v ∧ list = kept ++ rest := by
  intro v kept rest hv
  by_cases hvt : v = t
  · subst hvt
    rw [Function.update_self] at hv
    exact hself kept rest hv
  · rw [Function.update_of_ne hvt] at hv
    exact hother v kept rest hvt hv

omit [DecidableEq T] in
/-- Nobody walks the list while the lock is free, and one thread while it is not. -/
theorem Inv.alone (hs : Inv s) {v : T} (hlock : s.lock = none ∨ s.lock = some t)
    (hne : v ≠ t) (kept rest : List B) : s.pc v ≠ .retrying kept rest := by
  intro hv
  have hmine := (hs.walk v kept rest hv).1
  obtain hlock | hlock := hlock <;> rw [hlock] at hmine
  · cases hmine
  · exact hne (Option.some.inj hmine).symm

theorem inv_step (hstep : SafeStep s t u) (hs : Inv s) : Inv u := by
  obtain ⟨hstep, htimely⟩ := hstep
  cases hstep with
  | @read b recv multiRecv hpc hlock hposted hfew hflag =>
    have hp : (if recv then PC.handling b else .finished b) = .handling b ∨
        (if recv then PC.handling b else .finished b) = .finished b := by
      cases recv
      · exact .inr rfl
      · exact .inl rfl
    refine ⟨fun c => ?_, walk_update (fun kept rest h => by cases recv <;> cases h)
      fun v kept rest _ => hs.walk v kept rest⟩
    by_cases hc : c = b
    · subst hc
      simp only [Function.update_self]
      exact (hs.ctxt c).read hpc hp hposted hfew
    · refine (hs.ctxt c).elsewhere hc (by rw [hpc]; exact id) ?_
      obtain he | he := hp <;> rw [he] <;> exact fun h => hc h.symm
  | @handled b hpc =>
    refine ⟨fun c => ?_, walk_update (fun kept rest h => by cases h)
      fun v kept rest _ => hs.walk v kept rest⟩
    exact (hs.ctxt c).same (by rw [hpc]; rfl) (by rw [hpc]; rfl) (fun v => by rw [hpc]; rfl)
      (fun k nth h => by cases h)
  | @add b hpc =>
    refine ⟨fun c => ?_, walk_update (fun kept rest h => by cases h)
      fun v kept rest _ => hs.walk v kept rest⟩
    by_cases hc : c = b
    · subst hc
      simp only [Function.update_self]
      exact (hs.ctxt c).add hpc
    · exact (hs.ctxt c).elsewhere hc (by rw [hpc]; exact fun h => hc h.symm)
        (fun h => hc h.symm)
  | @check b k nth hpc =>
    have hiff := (hs.ctxt b).matches_iff hpc (htimely b k nth hpc)
    by_cases hm : countersMatch (s.ctxt b) k = true
    · rw [if_pos hm]
      refine ⟨fun c => ?_, walk_update (fun kept rest h => by cases h)
      fun v kept rest _ => hs.walk v kept rest⟩
      by_cases hc : c = b
      · subst hc
        have hnth := hiff.mp hm
        subst hnth
        exact (hs.ctxt c).claim hpc
      · exact (hs.ctxt c).other (by rw [hpc]; exact fun h => hc h.symm) (fun h => hc h.symm)
    · rw [if_neg hm]
      refine ⟨fun c => ?_, walk_update (fun kept rest h => by cases h)
      fun v kept rest _ => hs.walk v kept rest⟩
      by_cases hc : c = b
      · subst hc
        exact (hs.ctxt c).pass hpc fun he => hm (hiff.mpr he)
      · exact (hs.ctxt c).other (by rw [hpc]; exact fun h => hc h.symm) id
  | @post b hpc =>
    refine ⟨fun c => ?_, walk_update (fun kept rest h => by cases h)
      fun v kept rest _ => hs.walk v kept rest⟩
    by_cases hc : c = b
    · subst hc
      simp only [Function.update_self]
      refine (hs.ctxt c).post ?_ ?_ ?_ fun v k nth hv => added_of_update (p := .idle) (by simp) hv
      · rw [due_update, hpc]
        simp only [PC.reposts, if_true]
        omega
      · rw [total_update, hpc]
        simp [PC.holds]
      · rw [total_update, hpc]
        simp [PC.waits]
    · exact (hs.ctxt c).elsewhere hc (by rw [hpc]; exact fun h => hc h.symm) id
  | @refuse b hpc =>
    refine ⟨fun c => ?_, walk_update (fun kept rest h => by cases h)
      fun v kept rest _ => hs.walk v kept rest⟩
    exact (hs.ctxt c).same (by rw [hpc]; rfl) (by rw [hpc]; rfl) (fun v => by rw [hpc]; rfl)
      (fun k nth h => by cases h)
  | @keep b hpc hlock =>
    refine ⟨fun c => ?_, walk_update (fun kept rest h => by cases h) fun v kept rest hne hv =>
      absurd hv (hs.alone (.inl hlock) hne kept rest)⟩
    · refine (hs.ctxt c).congr ?_ ?_ ?_ fun v k nth hv => added_of_update (p := .idle) (by simp) hv
      · have hcount : ((b :: s.buffsToRetry).count c : Int) =
            s.buffsToRetry.count c + if b = c then 1 else 0 := by
          rw [List.count_cons]
          by_cases hbc : b = c <;> simp [hbc]
        show due (Function.update s.pc t .idle) ((b :: s.buffsToRetry).count c) c = _
        rw [due_update, hpc]
        simp only [due, hcount, PC.reposts]
        omega
      · rw [total_update, hpc]
        simp [PC.holds]
      · rw [total_update, hpc]
        simp [PC.waits]
  | retry hpc hlock =>
    refine ⟨fun c => (hs.ctxt c).other (by rw [hpc]; exact id) id, walk_update
      (fun kept rest heq => ?_) fun v kept rest hne hv =>
        absurd hv (hs.alone (.inl hlock) hne kept rest)⟩
    cases heq
    exact ⟨rfl, rfl⟩
  | @retryPost b kept rest hpc =>
    obtain ⟨hlock, hlist⟩ := hs.walk t kept (b :: rest) hpc
    have hcount : ∀ c, (s.buffsToRetry.count c : Int) =
        (kept ++ rest).count c + if b = c then 1 else 0 := fun c => by
      rw [hlist]
      by_cases hbc : b = c
      · simp [hbc]
        omega
      · simp [hbc]
    refine ⟨fun c => ?_, walk_update (fun kept' rest' heq => ?_) fun v kept' rest' hne hv =>
      absurd hv (hs.alone (.inr hlock) hne kept' rest')⟩
    · by_cases hc : c = b
      · subst hc
        simp only [Function.update_self]
        refine (hs.ctxt c).post ?_ ?_ ?_
          fun v k nth hv => added_of_update (p := .retrying kept rest) (by simp) hv
        · have := hcount c
          rw [due_update, hpc]
          simp only [due, PC.reposts, if_true] at this ⊢
          omega
        · rw [total_update, hpc]
          simp [PC.holds]
        · rw [total_update, hpc]
          simp [PC.waits]
      · simp only [Function.update_of_ne hc]
        refine (hs.ctxt c).congr ?_ ?_ ?_
          fun v k nth hv => added_of_update (p := .retrying kept rest) (by simp) hv
        · have := hcount c
          rw [if_neg fun h => hc h.symm] at this
          rw [due_update, hpc]
          simp only [due, PC.reposts]
          omega
        · rw [total_update, hpc]
          simp [PC.holds]
        · rw [total_update, hpc]
          simp [PC.waits]
    · cases heq
      exact ⟨hlock, rfl⟩
  | @retryRefuse b kept rest hpc =>
    obtain ⟨hlock, hlist⟩ := hs.walk t kept (b :: rest) hpc
    refine ⟨fun c => (hs.ctxt c).other (by rw [hpc]; exact id) id, walk_update
      (fun kept' rest' heq => ?_) fun v kept' rest' _ => hs.walk v kept' rest'⟩
    cases heq
    exact ⟨hlock, by rw [hlist, List.append_assoc]; rfl⟩
  | @retryEnd kept hpc =>
    obtain ⟨hlock, hlist⟩ := hs.walk t kept [] hpc
    refine ⟨fun c => (hs.ctxt c).other (by rw [hpc]; exact id) id, walk_update
      (fun kept' rest' h => by cases h) fun v kept' rest' hne hv =>
        absurd hv (hs.alone (.inr hlock) hne kept' rest')⟩

/-- What is wanted of a buffer. As often as it was released, it was reposted, but for the last time
while that is under way: then a thread still has to finish with it, or it is due exactly once and
no thread has a completion of it. -/
structure Reposted (s : State T B) (b : B) : Prop where
  once : (s.ctxt b).posted ≤ 1 ∧
    (s.ctxt b).reposts + (1 - (s.ctxt b).posted) = (s.ctxt b).releases
  due_le : (s.ctxt b).posted + due s.pc (s.buffsToRetry.count b) b ≤ 1
  notEarly : 0 < due s.pc (s.buffsToRetry.count b) b →
    (s.ctxt b).posted = 0 ∧ ∀ t, s.pc t ≠ .handling b ∧ s.pc t ≠ .finished b
  notLost : (s.ctxt b).posted = 0 → due s.pc (s.buffsToRetry.count b) b = 0 →
    ∃ t, s.pc t = .handling b ∨ s.pc t = .finished b ∨
      ∃ k nth, s.pc t = .added b k nth ∧ countersMatch (s.ctxt b) k = true

omit [DecidableEq T] in
theorem Inv.reposted (hs : Inv s) (b : B) : Reposted s b := by
  have h := hs.ctxt b
  have hnonneg := due_nonneg s.pc (s.buffsToRetry.count b) b
  have honce := h.once
  have hbal := h.balance
  have hholding := h.holding
  refine ⟨⟨by omega, by omega⟩, honce, fun hdue => ?_, fun hposted hdue => ?_⟩
  · have hzero : (s.ctxt b).posted = 0 := by omega
    have hread := h.released hzero
    have hcaught := h.caught (by omega)
    refine ⟨hzero, fun t => ?_⟩
    have hle := le_total (w := PC.holds b) (f := s.pc) (fun v => (weights_nonneg b (s.pc v)).1) t
    have hhold : (s.pc t).holds b ≤ 0 := by omega
    constructor <;> intro hpc <;> rw [hpc] at hhold <;> simp [PC.holds] at hhold
  · have hread := h.released hposted
    by_cases hcount : (s.ctxt b).consumed = (s.ctxt b).final
    · have hlast := h.last
      rw [if_pos ⟨by omega, hcount⟩] at hlast
      obtain ⟨t, ht⟩ : ∃ t, (s.pc t).waits b (s.ctxt b).final ≠ 0 := by
        by_contra hnone
        have hzero : total (PC.waits b (s.ctxt b).final) s.pc = 0 :=
          total_eq_zero fun t => by_contra fun h => hnone ⟨t, h⟩
        omega
      refine ⟨t, .inr (.inr ?_)⟩
      cases hpc : s.pc t with
      | added c k nth =>
        rw [hpc] at ht
        by_cases hc : c = b ∧ nth = (s.ctxt b).final
        · obtain ⟨rfl, rfl⟩ := hc
          exact ⟨k, _, rfl, (h.matches_iff hpc (Nat.lt_add_of_pos_right (Nat.two_pow_pos 32))).mpr
            rfl⟩
        · exact absurd (if_neg hc) ht
      | _ =>
        rw [hpc] at ht
        exact absurd rfl ht
    · obtain ⟨t, ht⟩ : ∃ t, (s.pc t).holds b ≠ 0 := by
        by_contra hnone
        have hzero : total (PC.holds b) s.pc = 0 :=
          total_eq_zero fun t => by_contra fun h => hnone ⟨t, h⟩
        omega
      refine ⟨t, ?_⟩
      cases hpc : s.pc t with
      | handling c | finished c =>
        rw [hpc] at ht
        by_cases hc : c = b
        · subst hc
          simp
        · exact absurd (if_neg hc) ht
      | _ =>
        rw [hpc] at ht
        exact absurd rfl ht

/-- Any number of threads, of buffers and of reuse cycles: a buffer is reposted once for each
release, when its handlers are over, and a repost that is due is neither lost nor made twice. -/
theorem reposted_of_timely (h : Reachable SafeStep initial s) (b : B) : Reposted s b := by
  have hinv : Inv s := h.invariant inv_step inv_initial
  exact hinv.reposted b

/-- One buffer and two threads, `t` at `p` and the other one at `q`. -/
def pair (t : Bool) (p q : PC Unit) (x : RecvCtxt) : State Bool Unit :=
  ⟨fun v => if v = t then p else q, fun _ => x, [], none⟩

theorem pair_comm (p q : PC Unit) (x : RecvCtxt) : pair true p q x = pair false q p x := by
  simp only [pair, State.mk.injEq, and_true]
  exact funext fun v => by cases v <;> rfl

/-- What one thread does, seen for itself. -/
inductive Local : PC Unit → RecvCtxt → PC Unit → RecvCtxt → Prop
  | read {x : RecvCtxt} {multiRecv : Bool} (hposted : 0 < x.posted)
      (hfew : x.inPosting + 1 < 2 ^ 32) : Local .idle x (.handling ()) (x.complete multiRecv)
  | handled {x : RecvCtxt} : Local (.handling ()) x (.finished ()) x
  | add {x : RecvCtxt} : Local (.finished ()) x
      (.added () ((x.consumedCntr + 1) % 2 ^ 32) (x.consumed + 1)) x.add
  | claim {x : RecvCtxt} {k nth : Nat} (h : countersMatch x k = true) :
      Local (.added () k nth) x (.repost ()) x
  | pass {x : RecvCtxt} {k nth : Nat} (h : countersMatch x k = false) :
      Local (.added () k nth) x .idle x
  | post {x : RecvCtxt} : Local (.repost ()) x .idle x.post

theorem Local.step {t : Bool} {p q p' : PC Unit} {x x' : RecvCtxt} (h : Local p x p' x') :
    Step (pair t p q x) t (pair t p' q x') := by
  have hself : (pair t p q x).pc t = p := if_pos rfl
  have hpc : ∀ r : PC Unit, (pair t r q x').pc = Function.update (pair t p q x).pc t r := fun r => by
    funext v
    by_cases hv : v = t
    · subst hv
      rw [Function.update_self]
      exact if_pos rfl
    · rw [Function.update_of_ne hv]
      exact (if_neg hv).trans (if_neg hv).symm
  have hctxt : (pair t p' q x').ctxt = Function.update (pair t p q x).ctxt () x' :=
    funext fun _ => rfl
  have heq : pair t p' q x' = ⟨Function.update (pair t p q x).pc t p',
      Function.update (pair t p q x).ctxt () x', [], none⟩ := by
    rw [← hpc, ← hctxt]
    rfl
  have hkeep : x' = x → pair t p' q x' = ⟨Function.update (pair t p q x).pc t p',
      (pair t p q x).ctxt, [], none⟩ := fun hx => by
    rw [← hpc, hx]
    rfl
  cases h with
  | @read _ multiRecv hposted hfew =>
    rw [heq]
    exact @Step.read Bool Unit _ _ _ t () true multiRecv hself rfl hposted hfew (.inl rfl)
  | handled =>
    rw [hkeep rfl]
    exact .handled hself
  | add =>
    rw [heq]
    exact .add hself
  | @claim _ k nth h =>
    have hm : countersMatch ((pair t (.added () k nth) q x).ctxt ()) k = true := h
    have hstep := Step.check hself
    rw [if_pos hm] at hstep
    rw [hkeep rfl]
    exact hstep
  | @pass _ k nth h =>
    have hm : ¬countersMatch ((pair t (.added () k nth) q x).ctxt ()) k = true := by
      rw [show (pair t (.added () k nth) q x).ctxt () = x from rfl, h]
      exact Bool.false_ne_true
    have hstep := Step.check hself
    rw [if_neg hm] at hstep
    rw [hkeep rfl]
    exact hstep
  | post =>
    rw [heq]
    exact .post hself

theorem pair_initial (t : Bool) : pair t .idle .idle .initial = initial := by
  simp only [pair, initial, ite_self]

/-- A buffer that held one message is reposted. -/
theorem reposted_of_timely_once : ∃ s : State Bool Unit, (s.ctxt ()).releases = 1 ∧
    (s.ctxt ()).reposts = 1 ∧ Reposted s () := by
  have hrun : Run SafeStep (pair true .idle .idle .initial) [true, true, true, true, true] _ :=
    .stepL ⟨(@Local.read _ true (by decide) (by decide)).step, fun _ _ _ h => by cases h⟩
      (.stepL ⟨Local.handled.step, fun _ _ _ h => by cases h⟩
      (.stepL ⟨Local.add.step, fun _ _ _ h => by cases h⟩
      (.stepL ⟨(Local.claim (by decide)).step, fun _ _ _ h => by cases h; decide⟩
      (.stepL ⟨Local.post.step, fun _ _ _ h => by cases h⟩ .refl))))
  rw [pair_initial] at hrun
  exact ⟨_, rfl, rfl, reposted_of_timely ⟨_, hrun⟩ ()⟩

/-- A completion that is not the last one of its posting is read and counted. -/
theorem count_one {q : PC Unit} {x : RecvCtxt} {s : State Bool Unit}
    (h : Reachable Step s (pair false .idle q x)) (hposted : 0 < x.posted)
    (hfew : x.inPosting + 1 < 2 ^ 32)
    (hm : countersMatch (x.complete false).add ((x.consumedCntr + 1) % 2 ^ 32) = false) :
    Reachable Step s (pair false .idle q (x.complete false).add) :=
  (((h.snoc (Local.read hposted hfew).step).snoc Local.handled.step).snoc Local.add.step).snoc
    (Local.pass hm).step

/-- In its second posting, after `n` completions. -/
def cycled (n : Nat) : RecvCtxt :=
  ⟨(n + 2) % 2 ^ 64, 2, (n + 2) % 2 ^ 32, 1, n, n + 2, n + 2, 2, 1, 1⟩

theorem cycled_succ (n : Nat) : ((cycled n).complete false).add = cycled (n + 1) := by
  have h64 : ((n + 2) % 2 ^ 64 + 1) % 2 ^ 64 = (n + 1 + 2) % 2 ^ 64 := by omega
  have h32 : ((n + 2) % 2 ^ 32 + 1) % 2 ^ 32 = (n + 1 + 2) % 2 ^ 32 := by omega
  simp only [cycled, RecvCtxt.complete, RecvCtxt.add, h64, h32]
  rfl

/-- One thread is counted first and does not go on, and the other one counts the rest of this posting
and `n` completions of the next. -/
theorem reachable_cycled {n : Nat} (hn : n < 2 ^ 32 - 1) :
    Reachable Step initial (pair false .idle (.added () 1 1) (cycled n)) := by
  induction n with
  | zero =>
    have hfirst : Reachable Step initial
        (pair true (.handling ()) .idle (RecvCtxt.initial.complete false)) := by
      rw [← pair_initial true]
      exact Reachable.refl.snoc (Local.read (by decide) (by decide)).step
    rw [pair_comm] at hfirst
    have hsecond := hfirst.snoc
      (@Local.read _ true (by decide) (by decide)).step
    rw [← pair_comm] at hsecond
    have hadded := (hsecond.snoc Local.handled.step).snoc Local.add.step
    rw [pair_comm] at hadded
    exact (((hadded.snoc Local.handled.step).snoc Local.add.step).snoc
      (Local.claim (by decide)).step).snoc Local.post.step
  | succ n ih =>
    rw [← cycled_succ]
    refine count_one (ih (by omega)) Nat.one_pos (by simp only [cycled]; omega) ?_
    rw [cycled_succ]
    simp only [countersMatch, cycled, beq_eq_false_iff_ne]
    omega

/-- The thread that was counted first reads `final_cntr` at the end of the second posting, when it
is `2 ^ 32` completions on, and is about to repost a buffer whose last message is being handled. -/
theorem reposted_fails : ∃ s : State Bool Unit, Reachable Step initial s ∧ ¬Reposted s () := by
  have hlast := (reachable_cycled (n := 2 ^ 32 - 2) (by decide)).snoc
    (@Local.read _ true Nat.one_pos (by decide)).step
  rw [← pair_comm] at hlast
  have hclaim := hlast.snoc (Local.claim (by decide)).step
  refine ⟨_, hclaim, fun h => ?_⟩
  have hdue := h.notEarly (by decide)
  exact (hdue.2 false).1 rfl

end Gasnet.Ofi
