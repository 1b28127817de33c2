import Gasnet.Ibv.CreditsBalance

/-! The credits of every queue pair over whole runs. -/
namespace Gasnet.Ibv

variable {N Q H : Type*} {g : Config N Q H} {s s' : State N Q H} {k : Key N Q} {h : N × H}

/-- The credits of the queue pair `k` are all there, a sender without one has one coming, and with
receive queues of its own what is in flight to it finds a buffer, unless replies are being
handled. -/
structure Credited (g : Config N Q H) (s : State N Q H) (k : Key N Q) : Prop where
  conserved : (s.cep k).amRem + requests (s.cep k) (s.cep k.opp) +
    onTheWay (s.cep k) (s.cep k.opp) + (s.cep k.opp).credit = g.lim.oustPp
  owed : (s.cep k).amRem = 0 →
    0 < requests (s.cep k) (s.cep k.opp) + onTheWay (s.cep k) (s.cep k.opp)
  buffers : g.useSrq = false →
    (s.cep k.opp).flight.length ≤ (s.cep k).posted + weight Task.handlesReply (s.cep k).tasks

variable [DecidableEq N] [DecidableEq Q] [DecidableEq H]

/-- A step in which no thread picks up more than 255 banked credits. -/
def SafeStep (g : Config N Q H) (s : State N Q H) (a : Key N Q × Act) (s' : State N Q H) : Prop :=
  Step g s a s' ∧ Fits (s.cep a.1) a.2

/-- What holds of every queue pair by itself. -/
structure Inv (g : Config N Q H) (s : State N Q H) : Prop where
  balance : ∀ k, k.node ≠ k.peer → near (s.cep k) + far (s.cep k.opp) = g.lim.oustPp
  banked : ∀ k, Banked g.lim.slack (s.cep k)
  posted : g.useSrq = false → ∀ k, (s.cep k).posted + weight Task.unposted (s.cep k).tasks =
    2 * g.lim.oustPp

omit [DecidableEq N] [DecidableEq Q] [DecidableEq H] in
theorem inv_initial (g : Config N Q H) : Inv g (initial g) := by
  refine ⟨fun k _ => rfl, fun k => ⟨Nat.zero_le _, fun old hmem => nomatch hmem⟩, fun hsrq k => ?_⟩
  simp [initial, hsrq]

omit [DecidableEq H] in
/-- The two ends of a queue pair after a message of one was delivered to the other. -/
theorem deliver_ends {f : Key N Q → Cep} {c d : Cep} (hne : k.node ≠ k.peer) (v : Key N Q) :
    let u := Function.update (Function.update f k c) k.opp d
    (v = k ∧ u v = c ∧ u v.opp = d) ∨ (v = k.opp ∧ u v = d ∧ u v.opp = c) ∨
      (u v = f v ∧ u v.opp = f v.opp) := by
  have hopp := Key.opp_ne hne
  by_cases hv : v = k
  · subst hv
    exact .inl ⟨rfl, by rw [Function.update_of_ne hopp.symm, Function.update_self],
      Function.update_self ..⟩
  · by_cases ho : v = k.opp
    · subst ho
      exact .inr (.inl ⟨rfl, Function.update_self .., by
        rw [Key.opp_opp, Function.update_of_ne hopp.symm, Function.update_self]⟩)
    · have hvk : v.opp ≠ k := fun he => ho (by rw [← he, Key.opp_opp])
      have hvo : v.opp ≠ k.opp := fun he => hv (by rw [← Key.opp_opp v, he, Key.opp_opp])
      exact .inr (.inr ⟨by rw [Function.update_of_ne ho, Function.update_of_ne hv],
        by rw [Function.update_of_ne hvo, Function.update_of_ne hvk]⟩)

theorem Deliver.banked {slack : Nat} {useSrq : Bool} {p p' : Pool} {c c' d d' : Cep}
    (h : Deliver useSrq p c d p' c' d') (hc : Banked slack c) (hd : Banked slack d) :
    Banked slack c' ∧ Banked slack d' := by
  cases h with
  | own _ _ _ | shared _ _ _ =>
    refine ⟨⟨hc.credit, fun old hmem => ?_⟩, hd.credit, hd.compare⟩
    obtain heq | hmem := List.mem_cons.mp hmem
    · cases heq
    · exact hc.compare old hmem

theorem inv_step {a : Key N Q × Act} (hstep : SafeStep g s a s') (hs : Inv g s) : Inv g s' := by
  obtain ⟨hstep, hfits⟩ := hstep
  cases hstep with
  | @work k act p c hne hwork =>
    have hnear : ∀ v, near (Function.update s.cep k c v) = near (s.cep v) := fun v => by
      by_cases hv : v = k
      · subst hv
        rw [Function.update_self, hwork.near]
      · rw [Function.update_of_ne hv]
    have hfar : ∀ v, far (Function.update s.cep k c v) = far (s.cep v) := fun v => by
      by_cases hv : v = k
      · subst hv
        rw [Function.update_self, hwork.far hfits]
      · rw [Function.update_of_ne hv]
    refine ⟨fun v hv => ?_, fun v => ?_, fun hsrq v => ?_⟩
    · show near (Function.update s.cep k c v) + far (Function.update s.cep k c v.opp) = _
      rw [hnear, hfar]
      exact hs.balance v hv
    · show Banked _ (Function.update s.cep k c v)
      by_cases hv : v = k
      · subst hv
        rw [Function.update_self]
        exact hwork.banked (hs.banked v)
      · rw [Function.update_of_ne hv]
        exact hs.banked v
    · show (Function.update s.cep k c v).posted +
        weight Task.unposted (Function.update s.cep k c v).tasks = _
      by_cases hv : v = k
      · subst hv
        rw [hsrq] at hwork
        rw [Function.update_self, hwork.posted]
        exact hs.posted hsrq v
      · rw [Function.update_of_ne hv]
        exact hs.posted hsrq v
  | @deliver k p c d hne hdel =>
    obtain ⟨hmine, htheirs⟩ := hdel.near_far
    obtain ⟨hbc, hbd⟩ := hdel.banked (hs.banked k) (hs.banked k.opp)
    have hends := deliver_ends (f := s.cep) (c := c) (d := d) hne
    refine ⟨fun v hv => ?_, fun v => ?_, fun hsrq v => ?_⟩
    · show near (Function.update (Function.update s.cep k c) k.opp d v) +
        far (Function.update (Function.update s.cep k c) k.opp d v.opp) = _
      have hbal := hs.balance k hne
      have hopp := hs.balance k.opp hne.symm
      rw [Key.opp_opp] at hopp
      obtain ⟨-, h1, h2⟩ | ⟨-, h1, h2⟩ | ⟨h1, h2⟩ := hends v
      · rw [h1, h2]
        omega
      · rw [h1, h2]
        omega
      · rw [h1, h2]
        exact hs.balance v hv
    · show Banked _ (Function.update (Function.update s.cep k c) k.opp d v)
      obtain ⟨-, h1, -⟩ | ⟨-, h1, -⟩ | ⟨h1, -⟩ := hends v
      · rwa [h1]
      · rwa [h1]
      · rw [h1]
        exact hs.banked v
    · show (Function.update (Function.update s.cep k c) k.opp d v).posted +
        weight Task.unposted (Function.update (Function.update s.cep k c) k.opp d v).tasks = _
      rw [hsrq] at hdel
      obtain ⟨hpc, hpd⟩ := hdel.posted
      obtain ⟨-, h1, -⟩ | ⟨-, h1, -⟩ | ⟨h1, -⟩ := hends v
      · rw [h1, hpc]
        exact hs.posted hsrq k
      · rw [h1, hpd]
        exact hs.posted hsrq k.opp
      · rw [h1]
        exact hs.posted hsrq v

omit [DecidableEq N] [DecidableEq Q] [DecidableEq H] in
theorem Inv.credited (hs : Inv g s) (hne : k.node ≠ k.peer) : Credited g s k := by
  have hbal := hs.balance k hne
  have hopp := hs.balance k.opp hne.symm
  have hslack := (hs.banked k.opp).credit
  have hlt := g.lim.slack_lt
  rw [Key.opp_opp] at hopp
  have hsum := near_add_far (s.cep k) (s.cep k.opp)
  exact ⟨by omega, fun hzero => by omega,
    fun hsrq => flight_le hbal hopp (hs.posted hsrq k)⟩

variable [Fintype N] [Fintype Q]

/-- In runs in which no thread picks up more than 255 banked credits: they are conserved, for every
queue pair; and with shared receive queues so is what `am_sema` counts, and every reply in flight
finds a buffer. -/
theorem credits_conserved (h : Reachable (SafeStep g) (initial g) s) :
    (∀ k, k.node ≠ k.peer → Credited g s k) ∧
    (g.useSrq = true → ∀ h : N × H,
      (s.pool h).amSema + outstanding g s h = g.rbufCount h ∧ replies g s h ≤ (s.pool h).repl) := by
  have hinv : Inv g s := h.invariant inv_step (inv_initial g)
  refine ⟨fun k hne => hinv.credited hne, fun hsrq h' => ?_⟩
  have hshared : Shared g s h' :=
    h.invariant (P := fun s => Shared g s h') (fun hstep hs => shared_step hsrq hstep.1 hs)
      (shared_initial g h')
  exact ⟨hshared.sema, hshared.replies_le⟩

/-- Two nodes with one queue pair. -/
def two (lim : Limits) (useSrq : Bool) : Config Bool Unit Unit :=
  ⟨lim, useSrq, fun _ _ => (), fun _ => 1⟩

def here : Key Bool Unit := ⟨true, false, ()⟩

def there : Key Bool Unit := ⟨false, true, ()⟩

/-- Their state: the two HCAs and the two ends. -/
def ends (s : State Bool Unit Unit) (p q : Pool) (c d : Cep) : State Bool Unit Unit :=
  ⟨Function.update (Function.update s.cep here c) there d,
    Function.update (Function.update s.pool (true, ()) p) (false, ()) q⟩

section

variable {lim : Limits} {useSrq : Bool} {t : State Bool Unit Unit} {p q p' : Pool}
  {c d c' d' : Cep} {act : Act}

theorem update_here {α β : Type*} [DecidableEq α] {f : α → β} {a b : α} (hne : a ≠ b) (x y z : β) :
    Function.update (Function.update (Function.update f a x) b y) a z =
      Function.update (Function.update f a z) b y := by
  rw [Function.update_comm hne.symm, Function.update_idem]

theorem ends_work_here (h : Work lim.slack useSrq p c act p' c') :
    Step (two lim useSrq) (ends t p q c d) (here, act) (ends t p' q c' d) := by
  have hstep := Step.work (g := two lim useSrq) (s := ends t p q c d) (k := here)
    (by decide) h
  simp only [ends, Config.home, here] at hstep ⊢
  rw [update_here (by decide), update_here (by decide)] at hstep
  exact hstep

theorem ends_work_there (h : Work lim.slack useSrq q d act p' d') :
    Step (two lim useSrq) (ends t p q c d) (there, act) (ends t p p' c d') := by
  have hstep := Step.work (g := two lim useSrq) (s := ends t p q c d) (k := there)
    (by decide) h
  simp only [ends, Config.home, there, Function.update_idem] at hstep ⊢
  exact hstep

theorem ends_deliver_here (h : Deliver useSrq p c d p' c' d') :
    Step (two lim useSrq) (ends t p q c d) (here, .deliver) (ends t p' q c' d') := by
  have hstep := Step.deliver (g := two lim useSrq) (s := ends t p q c d) (k := here)
    (by decide) h
  simp only [ends, Config.home, Key.opp, here, there] at hstep ⊢
  rw [update_here (by decide), update_here (by decide), update_here (by decide)] at hstep
  exact hstep

theorem ends_deliver_there (h : Deliver useSrq q d c p' d' c') :
    Step (two lim useSrq) (ends t p q c d) (there, .deliver) (ends t p p' c' d') := by
  have hstep := Step.deliver (g := two lim useSrq) (s := ends t p q c d) (k := there)
    (by decide) h
  simp only [ends, Config.home, Key.opp, here, there, Function.update_idem] at hstep ⊢
  rw [update_here (by decide)] at hstep
  exact hstep

end

def oneCredit : Limits := ⟨1, 0, Nat.one_pos, by decide⟩

/-- A queue pair before its first message. -/
def fresh (lim : Limits) (useSrq : Bool) : Cep :=
  ⟨lim.oustPp, 0, if useSrq then 0 else 2 * lim.oustPp, [], []⟩

/-- The state they start from. -/
def start (lim : Limits) (useSrq : Bool) : State Bool Unit Unit :=
  ends (initial (two lim useSrq)) ⟨1, 1, 1⟩ ⟨1, 1, 1⟩ (fresh lim useSrq) (fresh lim useSrq)

theorem start_eq (lim : Limits) (useSrq : Bool) :
    start lim useSrq = initial (two lim useSrq) := by
  simp only [start, ends, initial, fresh, two, State.mk.injEq]
  exact ⟨by rw [Function.update_eq_self_iff.mpr, Function.update_eq_self_iff.mpr] <;> rfl,
    by rw [Function.update_eq_self_iff.mpr, Function.update_eq_self_iff.mpr] <;> rfl⟩

/-- A request takes the credit there is, and its answer is on its way with it. -/
theorem credits_conserved_one : ∃ s, (s.cep here).amRem = 0 ∧
    onTheWay (s.cep here) (s.cep there) = 1 ∧ Credited (two oneCredit false) s here := by
  have hrun : Run (SafeStep (two oneCredit false)) (start oneCredit false)
      [(here, .takeCredit), (here, .loadRequest false 0), (here, .postRequest),
        (there, .deliver), (there, .replace), (there, .process), (there, .loadReply false 0),
        (there, .postReply)] _ :=
    .stepL ⟨ends_work_here (.takeCredit (by decide)), trivial⟩
      (.stepL ⟨ends_work_here (@Work.loadRequest _ _ _ _ [] [] _ _ rfl), nofun⟩
      (.stepL ⟨ends_work_here (@Work.postRequest _ _ _ _ [] [] _ rfl), trivial⟩
      (.stepL ⟨ends_deliver_there (@Deliver.own _ _ _ _ [] [] _ rfl (by decide) rfl), trivial⟩
      (.stepL ⟨ends_work_there (@Work.replace _ _ _ _ [] [] _ rfl rfl rfl), trivial⟩
      (.stepL ⟨ends_work_there (@Work.processRequest _ _ _ _ [] [] _ rfl rfl), trivial⟩
      (.stepL ⟨ends_work_there (@Work.loadReply _ _ _ _ [] [] _ _ _ (.inl rfl) rfl), nofun⟩
      (.stepL ⟨ends_work_there (@Work.postReply _ _ _ _ [] [] _ rfl), trivial⟩ .refl)))))))
  rw [start_eq] at hrun
  exact ⟨_, rfl, by decide, (credits_conserved ⟨_, hrun⟩).1 here (by decide)⟩

/-- More credits than the slack by one, and a slack of 256. -/
def slack256 : Limits := ⟨257, 256, by decide, by decide⟩

/-- The state with `n` credits banked at `there`. -/
def bankedState (n : Nat) : State Bool Unit Unit :=
  ends (initial (two slack256 false)) ⟨1, 1, 1⟩ ⟨1, 1, 1⟩
    ⟨257 - n, 0, 514, [], []⟩ ⟨257, n, 514, [], []⟩

/-- A request that is not answered has its credit banked. -/
theorem reachable_banked {n : Nat} (hn : n ≤ 256) :
    Reachable (SafeStep (two slack256 false)) (initial (two slack256 false)) (bankedState n) := by
  induction n with
  | zero =>
    rw [← start_eq]
    exact .refl
  | succ n ih =>
    have hrem : 257 - n ≠ 0 := by omega
    have hread : afterRead 256 n = .compare n := if_neg (by omega)
    have hrun : Run (SafeStep (two slack256 false)) (bankedState n)
        [(here, .takeCredit), (here, .loadRequest false 0), (here, .postRequest),
          (there, .deliver), (there, .replace), (there, .process), (there, .finish),
          (there, .readBank)] _ :=
      .stepL ⟨ends_work_here (.takeCredit hrem), trivial⟩
        (.stepL ⟨ends_work_here (@Work.loadRequest _ _ _ _ [] [] _ _ rfl), nofun⟩
        (.stepL ⟨ends_work_here (@Work.postRequest _ _ _ _ [] [] _ rfl), trivial⟩
        (.stepL ⟨ends_deliver_there (@Deliver.own _ _ _ _ [] [] _ rfl (Nat.succ_ne_zero 513) rfl),
          trivial⟩
        (.stepL ⟨ends_work_there (@Work.replace _ _ _ _ [] [] _ rfl rfl rfl), trivial⟩
        (.stepL ⟨ends_work_there (@Work.processRequest _ _ _ _ [] [] _ rfl rfl), trivial⟩
        (.stepL ⟨ends_work_there (@Work.finish _ _ _ _ [] [] rfl), trivial⟩
        (.stepL ⟨ends_work_there (@Work.readBank _ _ _ _ [] [] rfl rfl), trivial⟩ .refl)))))))
    have hbank : SafeStep (two slack256 false) _ (there, .compareAndSwap) (bankedState (n + 1)) :=
      ⟨ends_work_there (@Work.bank 256 _ _ ⟨257, n, 514, [.compare n], []⟩ [] [] rfl rfl), trivial⟩
    rw [← hread] at hbank
    obtain ⟨xs, hxs⟩ := ih (by omega)
    exact Reachable.snoc ⟨_, hxs.append hrun⟩ hbank

/-- The state with `n` replies being handled at `here`. -/
def handlingState (n : Nat) : State Bool Unit Unit :=
  ends (initial (two oneCredit false)) ⟨1, 1, 1⟩ ⟨1, 1, 1⟩
    ⟨1, 0, 2 - n, List.replicate n .handlingReply, []⟩ ⟨1, 0, 2, [], []⟩

/-- A reply that is being handled has brought its credit, and keeps its buffer. -/
theorem reachable_handling {n : Nat} (hn : n ≤ 2) :
    Reachable (SafeStep (two oneCredit false)) (initial (two oneCredit false))
      (handlingState n) := by
  induction n with
  | zero =>
    rw [← start_eq]
    exact .refl
  | succ n ih =>
    have hposted : 2 - n ≠ 0 := by omega
    have hrun : Run (SafeStep (two oneCredit false)) (handlingState n)
        [(here, .takeCredit), (here, .loadRequest false 0), (here, .postRequest),
          (there, .deliver), (there, .replace), (there, .process), (there, .loadReply false 0),
          (there, .postReply), (there, .done), (here, .deliver), (here, .process)]
        (handlingState (n + 1)) :=
      .stepL ⟨ends_work_here (.takeCredit Nat.one_ne_zero), trivial⟩
        (.stepL ⟨ends_work_here (@Work.loadRequest _ _ _ _ [] _ _ _ rfl), nofun⟩
        (.stepL ⟨ends_work_here (@Work.postRequest _ _ _ _ [] _ _ rfl), trivial⟩
        (.stepL ⟨ends_deliver_there (@Deliver.own _ _ _ _ [] [] _ rfl (Nat.succ_ne_zero 1) rfl),
          trivial⟩
        (.stepL ⟨ends_work_there (@Work.replace _ _ _ _ [] [] _ rfl rfl rfl), trivial⟩
        (.stepL ⟨ends_work_there (@Work.processRequest _ _ _ _ [] [] _ rfl rfl), trivial⟩
        (.stepL ⟨ends_work_there (@Work.loadReply _ _ _ _ [] [] _ _ _ (.inl rfl) rfl), nofun⟩
        (.stepL ⟨ends_work_there (@Work.postReply _ _ _ _ [] [] _ rfl), trivial⟩
        (.stepL ⟨ends_work_there (@Work.done _ _ _ _ [] [] rfl rfl), trivial⟩
        (.stepL ⟨ends_deliver_here (@Deliver.own _ _ _ _ [] [] _ rfl hposted rfl), trivial⟩
        (.stepL ⟨ends_work_here (@Work.processReply _ _ _ _ [] _ _ rfl rfl), trivial⟩
          .refl))))))))))
    obtain ⟨xs, hxs⟩ := ih (by omega)
    exact ⟨_, hxs.append hrun⟩

/-- With shared receive queues a request is in flight when no buffer is posted for it: its
receiver has answered an earlier one and not posted that one's buffer yet. Without, so is one when
two replies have their handlers running. And 256 banked credits are lost when they are sent. -/
theorem credits_fail :
    (∃ s, Reachable (SafeStep (two oneCredit true)) (initial (two oneCredit true)) s ∧
      weight Msg.request (s.cep here).flight = 1 ∧ (s.pool (false, ())).rqst = 0) ∧
    (∃ s, Reachable (SafeStep (two oneCredit false)) (initial (two oneCredit false)) s ∧
      weight Msg.request (s.cep there).flight = 1 ∧ (s.cep here).posted = 0) ∧
    ∃ s, Reachable (Step (two slack256 false)) (initial (two slack256 false)) s ∧
      (s.cep here).amRem + requests (s.cep here) (s.cep there) +
        onTheWay (s.cep here) (s.cep there) + (s.cep there).credit = 1 := by
  refine ⟨?_, ?_, ?_⟩
  · have hrun : Run (SafeStep (two oneCredit true)) (start oneCredit true)
        [(here, .takeCredit), (here, .takeSema), (here, .loadRequest false 0),
          (here, .postRequest), (there, .deliver), (there, .process),
          (there, .loadReply false 0), (there, .postReply), (here, .deliver), (here, .process),
          (here, .repost), (here, .upSema), (here, .takeCredit), (here, .takeSema),
          (here, .loadRequest false 0), (here, .postRequest)]
        (ends (initial (two oneCredit true)) ⟨0, 1, 1⟩ ⟨1, 0, 1⟩ ⟨0, 0, 0, [], [⟨true, none⟩]⟩
          ⟨1, 0, 0, [.replied], []⟩) :=
      .stepL ⟨ends_work_here (.takeCredit (by decide)), trivial⟩
        (.stepL ⟨ends_work_here (@Work.takeSema _ _ _ _ [] [] rfl (by decide) rfl), trivial⟩
        (.stepL ⟨ends_work_here (@Work.loadRequest _ _ _ _ [] [] _ _ rfl), nofun⟩
        (.stepL ⟨ends_work_here (@Work.postRequest _ _ _ _ [] [] _ rfl), trivial⟩
        (.stepL ⟨ends_deliver_there (@Deliver.shared _ _ _ _ [] [] _ rfl (by decide) rfl), trivial⟩
        (.stepL ⟨ends_work_there (@Work.processRequest _ _ _ _ [] [] _ rfl rfl), trivial⟩
        (.stepL ⟨ends_work_there (@Work.loadReply _ _ _ _ [] [] _ _ _ (.inl rfl) rfl), nofun⟩
        (.stepL ⟨ends_work_there (@Work.postReply _ _ _ _ [] [] _ rfl), trivial⟩
        (.stepL ⟨ends_deliver_here (@Deliver.shared _ _ _ _ [] [] _ rfl (by decide) rfl), trivial⟩
        (.stepL ⟨ends_work_here (@Work.processReply _ _ _ _ [] [] _ rfl rfl), trivial⟩
        (.stepL ⟨ends_work_here (@Work.repostShared _ _ _ _ [] [] rfl rfl), trivial⟩
        (.stepL ⟨ends_work_here (@Work.upSema _ _ _ _ [] [] rfl), trivial⟩
        (.stepL ⟨ends_work_here (.takeCredit (by decide)), trivial⟩
        (.stepL ⟨ends_work_here (@Work.takeSema _ _ _ _ [] [] rfl (by decide) rfl), trivial⟩
        (.stepL ⟨ends_work_here (@Work.loadRequest _ _ _ _ [] [] _ _ rfl), nofun⟩
        (.stepL ⟨ends_work_here (@Work.postRequest _ _ _ _ [] [] _ rfl), trivial⟩
          .refl)))))))))))))))
    rw [start_eq] at hrun
    exact ⟨_, ⟨_, hrun⟩, rfl, rfl⟩
  · obtain ⟨xs, hxs⟩ := reachable_handling (Nat.le_refl 2)
    have hrun : Run (SafeStep (two oneCredit false)) (handlingState 2)
        [(there, .takeCredit), (there, .loadRequest false 0), (there, .postRequest)]
        (ends (initial (two oneCredit false)) ⟨1, 1, 1⟩ ⟨1, 1, 1⟩
          ⟨1, 0, 0, [.handlingReply, .handlingReply], []⟩ ⟨0, 0, 2, [], [⟨true, none⟩]⟩) :=
      .stepL ⟨ends_work_there (.takeCredit Nat.one_ne_zero), trivial⟩
        (.stepL ⟨ends_work_there (@Work.loadRequest _ _ _ _ [] [] _ _ rfl), nofun⟩
        (.stepL ⟨ends_work_there (@Work.postRequest _ _ _ _ [] [] _ rfl), trivial⟩ .refl))
    exact ⟨_, ⟨_, hxs.append hrun⟩, rfl, rfl⟩
  · obtain ⟨xs, hxs⟩ := reachable_banked (Nat.le_refl 256)
    have hrun : Run (Step (two slack256 false)) (bankedState 256)
        [(there, .takeCredit), (there, .loadRequest true 0)]
        (ends (initial (two slack256 false)) ⟨1, 1, 1⟩ ⟨1, 1, 1⟩ ⟨1, 0, 514, [], []⟩
          ⟨256, 0, 514, [.request (some (genHiddenArg 256 0))], []⟩) :=
      .stepL (ends_work_there (.takeCredit (Nat.succ_ne_zero 256)))
        (.stepL (ends_work_there (@Work.loadRequest _ _ _ _ [] [] _ _ rfl)) .refl)
    exact ⟨_, ⟨_, (hxs.mono fun h => h.1).append hrun⟩, by decide⟩

end Gasnet.Ibv
