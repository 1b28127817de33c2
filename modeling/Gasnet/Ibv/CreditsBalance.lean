import Mathlib.Data.Fintype.Prod
import Gasnet.Foundation.Total
import Gasnet.Ibv.Credits

/-! The account of the credits of a queue pair has a part at each end. What a thread does leaves
both parts of its end as they are, and a message takes what it brings from one to the other. -/
namespace Gasnet.Ibv

variable {slack : Nat} {useSrq b : Bool} {p p' : Pool} {c c' d d' : Cep} {act : Act}
  {hidden : Option Nat} {m : Msg} {n credit : Nat}

/-- Own requests that are about to be sent. -/
def Task.requests : Task → Nat
  | .credited | .reserved | .request _ => 1
  | _ => 0

/-- Requests of the peer that have no answer on its way yet. -/
def Task.unanswered : Task → Nat
  | .arrived m | .ready m => if m.isReq then 1 else 0
  | .handling | .acking | .compare _ | .mustAck | .reply _ => 1
  | _ => 0

/-- Credits of this end that have arrived. -/
def Task.arriving : Task → Nat
  | .arrived m | .ready m => m.credits
  | _ => 0

/-- Credits of the peer that are about to be sent. -/
def Task.leaving : Task → Nat
  | .request hidden | .reply hidden => carried hidden
  | _ => 0

/-- A buffer of this end that holds a message and has no replacement. -/
def Task.unposted : Task → Nat
  | .arrived _ | .handlingReply => 1
  | _ => 0

def Msg.request (m : Msg) : Nat := if m.isReq then 1 else 0

/-- Requests of the end `c` that are not answered. -/
def requests (c d : Cep) : Nat :=
  weight Task.requests c.tasks + weight Msg.request c.flight + weight Task.unanswered d.tasks

/-- Credits on their way to the end `c`, at either end or between them. -/
def onTheWay (c d : Cep) : Nat :=
  weight Task.arriving c.tasks + weight Task.leaving d.tasks + weight Msg.credits d.flight

/-- The part of the account that is at the end it belongs to. -/
def near (c : Cep) : Nat :=
  c.amRem + weight Task.requests c.tasks + weight Msg.request c.flight +
    weight Task.arriving c.tasks

/-- The part that is at the other end. -/
def far (d : Cep) : Nat :=
  d.credit + weight Task.unanswered d.tasks + weight Task.leaving d.tasks +
    weight Msg.credits d.flight

theorem near_add_far (c d : Cep) :
    near c + far d = c.amRem + requests c d + onTheWay c d + d.credit := by
  simp only [near, far, requests, onTheWay]
  omega

/-- No thread picks up more banked credits than the hidden argument holds. -/
def Fits (c : Cep) : Act → Prop
  | .loadRequest haveFlow _ | .loadReply haveFlow _ => haveFlow = true → c.credit ≤ 255
  | _ => True

theorem carried_hiddenArg (numargs : Nat) (h : b = true → credit ≤ 255) :
    bankAfter b credit + carried (hiddenArg b credit numargs) = credit := by
  cases b with
  | false => rfl
  | true =>
    show 0 + hiddenArgCredits (genHiddenArg credit numargs) = credit
    rw [hiddenArgCredits_gen (h rfl), Nat.zero_add]

/-- The weights of a task in one. -/
structure Task.Weighs (t : Task) (requests unanswered arriving leaving unposted : Nat) : Prop where
  requests : t.requests = requests
  unanswered : t.unanswered = unanswered
  arriving : t.arriving = arriving
  leaving : t.leaving = leaving
  unposted : t.unposted = unposted

theorem afterCredit_weighs (useSrq : Bool) : (afterCredit useSrq).Weighs 1 0 0 0 0 := by
  cases useSrq <;> exact ⟨rfl, rfl, rfl, rfl, rfl⟩

theorem afterHandler_weighs (useSrq : Bool) : (afterHandler useSrq).Weighs 0 1 0 0 0 := by
  cases useSrq <;> exact ⟨rfl, rfl, rfl, rfl, rfl⟩

theorem afterRead_weighs (slack old : Nat) : (afterRead slack old).Weighs 0 1 0 0 0 := by
  unfold afterRead
  split <;> exact ⟨rfl, rfl, rfl, rfl, rfl⟩

theorem requestAt_weighs (useSrq : Bool) (hreq : m.isReq = true) :
    (requestAt useSrq m).Weighs 0 1 m.credits 0 (if useSrq then 1 else 0) := by
  cases useSrq <;> exact ⟨rfl, if_pos hreq, rfl, rfl, rfl⟩

theorem open_weighs {t : Task} (h : t = .handling ∨ t = .mustAck) : t.Weighs 0 1 0 0 0 := by
  obtain rfl | rfl := h <;> exact ⟨rfl, rfl, rfl, rfl, rfl⟩

theorem Work.near (h : Work slack useSrq p c act p' c') : near c' = near c := by
  cases h with
  | takeCredit hrem =>
    have hw := afterCredit_weighs useSrq
    simp only [Ibv.near, weight_cons, hw.requests, hw.arriving]
    omega
  | undoCredit ht =>
    have hw := afterCredit_weighs useSrq
    simp only [Ibv.near, ht, weight_append, weight_cons, hw.requests, hw.arriving]
    omega
  | processRequest hreq ht =>
    have hw := requestAt_weighs useSrq hreq
    simp only [Ibv.near, ht, weight_append, weight_cons, hw.requests, hw.arriving]
    simp only [Task.requests, Task.arriving]
    omega
  | finish ht =>
    have hw := afterHandler_weighs useSrq
    simp only [Ibv.near, ht, weight_append, weight_cons, hw.requests, hw.arriving]
    simp only [Task.requests, Task.arriving]
  | readBank hsrq ht =>
    have hw := afterRead_weighs slack c.credit
    simp only [Ibv.near, ht, weight_append, weight_cons, hw.requests, hw.arriving]
    simp only [Task.requests, Task.arriving]
  | loadReply hopen ht =>
    have hw := open_weighs hopen
    simp only [Ibv.near, ht, weight_append, weight_cons, hw.requests, hw.arriving]
    simp only [Task.requests, Task.arriving]
  | _ =>
    rename_i ht
    simp only [Ibv.near, ht, weight_append, weight_cons, weight_nil, Task.requests, Task.arriving,
      Msg.request]
    all_goals simp +arith

theorem Work.far (h : Work slack useSrq p c act p' c') (hfits : Fits c act) : far c' = far c := by
  cases h with
  | takeCredit hrem =>
    have hw := afterCredit_weighs useSrq
    simp only [Ibv.far, weight_cons, hw.unanswered, hw.leaving]
    omega
  | undoCredit ht =>
    have hw := afterCredit_weighs useSrq
    simp only [Ibv.far, ht, weight_append, weight_cons, hw.unanswered, hw.leaving]
    omega
  | processRequest hreq ht =>
    have hw := requestAt_weighs useSrq hreq
    simp only [Ibv.far, ht, weight_append, weight_cons, hw.unanswered, hw.leaving]
    simp only [Task.unanswered, Task.leaving]
  | finish ht =>
    have hw := afterHandler_weighs useSrq
    simp only [Ibv.far, ht, weight_append, weight_cons, hw.unanswered, hw.leaving]
    simp only [Task.unanswered, Task.leaving]
  | readBank hsrq ht =>
    have hw := afterRead_weighs slack c.credit
    simp only [Ibv.far, ht, weight_append, weight_cons, hw.unanswered, hw.leaving]
    simp only [Task.unanswered, Task.leaving]
  | @loadRequest l r b numargs ht =>
    have hcarried := carried_hiddenArg numargs hfits
    simp only [Ibv.far, ht, weight_append, weight_cons, Task.unanswered, Task.leaving]
    omega
  | @loadReply l r t b numargs hopen ht =>
    have hw := open_weighs hopen
    have hcarried := carried_hiddenArg numargs hfits
    simp only [Ibv.far, ht, weight_append, weight_cons, hw.unanswered, hw.leaving]
    simp only [Task.unanswered, Task.leaving]
    omega
  | processReply hrep ht =>
    simp only [Ibv.far, ht, weight_append, weight_cons, Task.unanswered, Task.leaving, hrep]
    simp
  | _ =>
    rename_i ht
    simp only [Ibv.far, ht, weight_append, weight_cons, weight_nil, Task.unanswered, Task.leaving,
      Msg.credits]
    all_goals simp +arith

/-- A message that is delivered takes its credits to the near part of the receiver's account, and a
request stays in the far part of its sender's. -/
theorem Deliver.near_far (h : Deliver useSrq p c d p' c' d') :
    near c' + far d' = near c + far d ∧ near d' + far c' = near d + far c := by
  cases h with
  | own hsrq hposted hfl | shared hsrq hposted hfl =>
    simp only [near, far, hfl, weight_append, weight_cons, Task.requests, Task.arriving,
      Task.unanswered, Task.leaving, Msg.request]
    omega

/-- What the peers bank is never more than the slack. -/
structure Banked (slack : Nat) (c : Cep) : Prop where
  credit : c.credit ≤ slack
  compare : ∀ old, .compare old ∈ c.tasks → old < slack

theorem compare_not_mem {t t' : Task} {l r : List Task} (ht : c.tasks = l ++ t :: r)
    (hnot : ∀ old, t' ≠ .compare old) (h : ∀ old, .compare old ∈ c.tasks → old < slack) :
    ∀ old, .compare old ∈ l ++ t' :: r → old < slack := by
  intro old hmem
  refine h old ?_
  rw [ht]
  simp only [List.mem_append, List.mem_cons] at hmem ⊢
  obtain hl | heq | hr := hmem
  · exact .inl hl
  · exact absurd heq.symm (hnot old)
  · exact .inr (.inr hr)

theorem compare_mem_drop {t : Task} {l r : List Task} (ht : c.tasks = l ++ t :: r)
    (h : ∀ old, .compare old ∈ c.tasks → old < slack) :
    ∀ old, .compare old ∈ l ++ r → old < slack := by
  intro old hmem
  refine h old ?_
  rw [ht]
  simp only [List.mem_append, List.mem_cons] at hmem ⊢
  exact hmem.imp_right .inr

theorem bankAfter_le (b : Bool) (credit : Nat) : bankAfter b credit ≤ credit := by
  cases b with
  | false => exact Nat.le_refl _
  | true => exact Nat.zero_le _

theorem Work.banked (h : Work slack useSrq p c act p' c') (hb : Banked slack c) :
    Banked slack c' := by
  have hcredit := hb.credit
  cases h with
  | takeCredit hrem =>
    refine ⟨hcredit, fun old hmem => ?_⟩
    obtain heq | hmem := List.mem_cons.mp hmem
    · cases useSrq <;> cases heq
    · exact hb.compare old hmem
  | undoCredit ht | done _ ht | doneShared _ ht | repost _ ht | upSema ht | postRequest ht =>
    exact ⟨hcredit, compare_mem_drop ht hb.compare⟩
  | @loadRequest l r b numargs ht =>
    exact ⟨Nat.le_trans (bankAfter_le b _) hcredit, compare_not_mem ht (by simp) hb.compare⟩
  | @loadReply l r t b numargs hopen ht =>
    exact ⟨Nat.le_trans (bankAfter_le b _) hcredit, compare_not_mem ht (by simp) hb.compare⟩
  | finish ht =>
    exact ⟨hcredit, compare_not_mem ht (by cases useSrq <;> simp [afterHandler]) hb.compare⟩
  | @readBank l r hsrq ht =>
    by_cases hle : slack ≤ c.credit
    · simp only [afterRead, if_pos hle]
      exact ⟨hcredit, compare_not_mem ht (by simp) hb.compare⟩
    · simp only [afterRead, if_neg hle]
      refine ⟨hcredit, fun old hmem => ?_⟩
      simp only [List.mem_append, List.mem_cons] at hmem
      obtain hl | heq | hr := hmem
      · exact hb.compare old (by rw [ht]; exact List.mem_append_left _ hl)
      · cases heq
        omega
      · exact hb.compare old
          (by rw [ht]; exact List.mem_append_right _ (List.mem_cons_of_mem _ hr))
  | bank hsrq ht =>
    have hlt := hb.compare c.credit (by rw [ht]; simp)
    exact ⟨hlt, compare_mem_drop ht hb.compare⟩
  | takeSema _ _ ht | undoSema _ ht | replace _ _ ht | processRequest _ ht | processReply _ ht
  | retry _ _ ht | postReply ht | repostShared _ ht =>
    exact ⟨hcredit, compare_not_mem ht (by simp) hb.compare⟩

/-- A queue pair with buffers of its own has one for every message. -/
theorem Work.posted (h : Work slack false p c act p' c') :
    c'.posted + weight Task.unposted c'.tasks = c.posted + weight Task.unposted c.tasks := by
  cases h with
  | takeCredit hrem =>
    have hw := afterCredit_weighs false
    simp only [weight_cons, hw.unposted, Nat.zero_add]
  | undoCredit ht =>
    have hw := afterCredit_weighs false
    simp only [ht, weight_append, weight_cons, hw.unposted, Nat.zero_add]
  | processRequest hreq ht =>
    have hw := requestAt_weighs false hreq
    simp only [ht, weight_append, weight_cons, hw.unposted]
    simp only [Task.unposted]
    rfl
  | finish ht =>
    have hw := afterHandler_weighs false
    simp only [ht, weight_append, weight_cons, hw.unposted]
    simp only [Task.unposted]
  | readBank hsrq ht =>
    have hw := afterRead_weighs slack c.credit
    simp only [ht, weight_append, weight_cons, hw.unposted]
    simp only [Task.unposted]
  | loadReply hopen ht =>
    have hw := open_weighs hopen
    simp only [ht, weight_append, weight_cons, hw.unposted]
    simp only [Task.unposted]
  | takeSema hsrq | undoSema hsrq | doneShared hsrq | repostShared hsrq => cases hsrq
  | _ =>
    rename_i ht
    simp only [ht, weight_append, weight_cons, Task.unposted]
    all_goals simp +arith

theorem Deliver.posted (h : Deliver false p c d p' c' d') :
    c'.posted + weight Task.unposted c'.tasks = c.posted + weight Task.unposted c.tasks ∧
      d'.posted + weight Task.unposted d'.tasks = d.posted + weight Task.unposted d.tasks := by
  cases h with
  | own hsrq hposted hfl =>
    refine ⟨?_, rfl⟩
    simp only [weight_cons, Task.unposted]
    omega
  | shared hsrq => cases hsrq

/-- The threads that run the handler of a reply, with the reply's buffer. -/
def Task.handlesReply : Task → Nat
  | .handlingReply => 1
  | _ => 0

/-- In each direction as many messages are in flight as there are buffers, or more by as many as
replies have their handlers running. -/
theorem flight_le (hmine : near c + far d = n) (htheirs : near d + far c = n)
    (hposted : c.posted + weight Task.unposted c.tasks = 2 * n) :
    d.flight.length ≤ c.posted + weight Task.handlesReply c.tasks := by
  have hflight : d.flight.length ≤ weight Msg.request d.flight + weight Msg.credits d.flight := by
    rw [← weight_one, ← weight_add]
    refine weight_le (fun m => ?_) _
    simp only [Msg.request, Msg.credits]
    split <;> omega
  have htasks : weight Task.unposted c.tasks ≤ weight Task.arriving c.tasks +
      weight Task.unanswered c.tasks + weight Task.handlesReply c.tasks := by
    rw [← weight_add, ← weight_add]
    refine weight_le (fun t => ?_) _
    cases t with
    | arrived m | ready m =>
      simp only [Task.unposted, Task.arriving, Task.unanswered, Task.handlesReply, Msg.credits]
      split <;> omega
    | _ => simp [Task.unposted, Task.arriving, Task.unanswered, Task.handlesReply]
  simp only [near, far] at hmine htheirs
  omega

end Gasnet.Ibv

/-! With shared receive queues a request also reserves a buffer for its reply: `am_sema` and the
replies that are outstanding at all queue pairs of an HCA are as many as its buffers. -/
namespace Gasnet.Ibv

variable {N Q H : Type*} {g : Config N Q H} {s s' : State N Q H} {k : Key N Q} {h : N × H}
  {slack : Nat} {p p' : Pool} {c c' d d' : Cep} {act : Act}

/-- Own requests that hold a buffer, and replies to them that have arrived. -/
def Task.awaits : Task → Nat
  | .reserved | .request _ => 1
  | .arrived m | .ready m => if m.isReq then 0 else 1
  | .handlingReply | .reposted => 1
  | _ => 0

def Msg.reply (m : Msg) : Nat := if m.isReq then 0 else 1

/-- Replies of the peer that are outstanding, in what this end holds. -/
def awaited (c : Cep) : Nat := weight Task.awaits c.tasks + weight Msg.request c.flight

/-- Replies to the peer that are outstanding, in what this end holds. -/
def owing (c : Cep) : Nat := weight Task.unanswered c.tasks + weight Msg.reply c.flight

/-- A reply that has arrived in a buffer not posted again yet. -/
def Task.holdsReply : Task → Nat
  | .arrived m => if m.isReq then 0 else 1
  | .handlingReply => 1
  | _ => 0

theorem Work.awaited (h : Work slack true p c act p' c') :
    p'.amSema + awaited c' = p.amSema + awaited c := by
  cases h with
  | loadReply hopen ht =>
    obtain rfl | rfl := hopen <;>
      simp only [Ibv.awaited, ht, weight_append, weight_cons, Task.awaits]
  | takeCredit hrem => simp only [Ibv.awaited, afterCredit, if_true, weight_cons, Task.awaits]; omega
  | undoCredit ht =>
    simp only [Ibv.awaited, ht, afterCredit, if_true, weight_append, weight_cons, Task.awaits]
    omega
  | processRequest hreq ht =>
    simp only [Ibv.awaited, ht, requestAt, if_true, hreq, weight_append, weight_cons, Task.awaits]
  | processReply hrep ht =>
    simp only [Ibv.awaited, ht, hrep, weight_append, weight_cons, Task.awaits]
    rfl
  | finish ht =>
    simp only [Ibv.awaited, ht, afterHandler, if_true, weight_append, weight_cons, Task.awaits]
  | replace hsrq | readBank hsrq | bank hsrq | retry hsrq | done hsrq | repost hsrq => cases hsrq
  | takeSema hsrq hsema ht =>
    simp only [Ibv.awaited, ht, weight_append, weight_cons, Task.awaits]
    omega
  | _ =>
    rename_i ht
    simp only [Ibv.awaited, ht, weight_append, weight_cons, weight_nil, Task.awaits, Msg.request]
    all_goals simp +arith

theorem Work.owing (h : Work slack true p c act p' c') : owing c' = owing c := by
  cases h with
  | loadReply hopen ht =>
    obtain rfl | rfl := hopen <;>
      simp only [Ibv.owing, ht, weight_append, weight_cons, Task.unanswered]
  | takeCredit hrem => simp only [Ibv.owing, afterCredit, if_true, weight_cons, Task.unanswered]; omega
  | undoCredit ht =>
    simp only [Ibv.owing, ht, afterCredit, if_true, weight_append, weight_cons, Task.unanswered]
    omega
  | processRequest hreq ht =>
    simp only [Ibv.owing, ht, requestAt, if_true, hreq, weight_append, weight_cons, Task.unanswered]
  | processReply hrep ht =>
    simp only [Ibv.owing, ht, hrep, weight_append, weight_cons, Task.unanswered]
    rfl
  | finish ht =>
    simp only [Ibv.owing, ht, afterHandler, if_true, weight_append, weight_cons, Task.unanswered]
  | replace hsrq | readBank hsrq | bank hsrq | retry hsrq | done hsrq | repost hsrq => cases hsrq
  | _ =>
    rename_i ht
    simp only [Ibv.owing, ht, weight_append, weight_cons, weight_nil, Task.unanswered, Msg.reply]
    all_goals simp +arith

theorem Work.holdsReply (h : Work slack true p c act p' c') :
    p'.repl + weight Task.holdsReply c'.tasks = p.repl + weight Task.holdsReply c.tasks := by
  cases h with
  | loadReply hopen ht =>
    obtain rfl | rfl := hopen <;>
      simp only [ht, weight_append, weight_cons, Task.holdsReply]
  | takeCredit hrem => simp only [afterCredit, if_true, weight_cons, Task.holdsReply]; omega
  | undoCredit ht =>
    simp only [ht, afterCredit, if_true, weight_append, weight_cons, Task.holdsReply]
    omega
  | processRequest hreq ht =>
    simp only [ht, requestAt, if_true, hreq, weight_append, weight_cons, Task.holdsReply]
  | processReply hrep ht =>
    simp only [ht, hrep, weight_append, weight_cons, Task.holdsReply]
    rfl
  | finish ht =>
    simp only [ht, afterHandler, if_true, weight_append, weight_cons, Task.holdsReply]
  | replace hsrq | readBank hsrq | bank hsrq | retry hsrq | done hsrq | repost hsrq => cases hsrq
  | _ =>
    rename_i ht
    simp only [ht, weight_append, weight_cons, Task.holdsReply]
    all_goals simp +arith

theorem Pool.take_amSema (p : Pool) (b : Bool) : (p.take b).amSema = p.amSema := by
  cases b <;> rfl

theorem Pool.take_repl {m : Msg} (h : p.buffers m.isReq ≠ 0) :
    (p.take m.isReq).repl + m.reply = p.repl := by
  unfold Msg.reply
  cases hreq : m.isReq with
  | false =>
    simp only [hreq, Pool.buffers] at h
    exact Nat.sub_add_cancel (Nat.one_le_iff_ne_zero.mpr h)
  | true => rfl

theorem awaits_arrived (m : Msg) : (Task.arrived m).awaits = m.reply := rfl

theorem unanswered_arrived (m : Msg) : (Task.arrived m).unanswered = m.request := rfl

theorem holdsReply_arrived (m : Msg) : (Task.arrived m).holdsReply = m.reply := rfl

/-- A message that arrives is outstanding as before, now at its receiver. -/
theorem Deliver.awaited (h : Deliver true p c d p' c' d') :
    awaited c' + owing d' = awaited c + owing d ∧ awaited d' + owing c' = awaited d + owing c := by
  cases h with
  | own hsrq => cases hsrq
  | shared hsrq hposted hfl =>
    simp only [Ibv.awaited, owing, hfl, weight_append, weight_cons, awaits_arrived,
      unanswered_arrived]
    omega

theorem Deliver.holdsReply (h : Deliver true p c d p' c' d') :
    p'.amSema = p.amSema ∧ d'.tasks = d.tasks ∧
      p'.repl + weight Task.holdsReply c'.tasks = p.repl + weight Task.holdsReply c.tasks := by
  cases h with
  | own hsrq => cases hsrq
  | shared hsrq hposted hfl =>
    have hrepl := Pool.take_repl hposted
    refine ⟨Pool.take_amSema _ _, rfl, ?_⟩
    simp only [weight_cons, holdsReply_arrived]
    omega

variable [DecidableEq N] [DecidableEq Q] [DecidableEq H] [Fintype N] [Fintype Q]

instance : Fintype (Key N Q) :=
  Fintype.ofEquiv (N × N × Q)
    ⟨fun k => ⟨k.1, k.2.1, k.2.2⟩, fun k => (k.node, k.peer, k.qpi), fun _ => rfl, fun _ => rfl⟩

/-- What a queue pair has to do with the replies outstanding at the HCA `h`. -/
def share (g : Config N Q H) (h : N × H) (k : Key N Q) (c : Cep) : Int :=
  (if g.home k = h then (awaited c : Int) else 0) + if g.home k.opp = h then (owing c : Int) else 0

/-- The replies that one HCA awaits. -/
def outstanding (g : Config N Q H) (s : State N Q H) (h : N × H) : Int :=
  totalBy (share g h) s.cep

/-- The replies in buffers of one HCA. -/
def held (g : Config N Q H) (s : State N Q H) (h : N × H) : Int :=
  totalBy (fun k c => if g.home k = h then (weight Task.holdsReply c.tasks : Int) else 0) s.cep

/-- The replies in flight to one HCA. -/
def replies (g : Config N Q H) (s : State N Q H) (h : N × H) : Int :=
  totalBy (fun k c => if g.home k.opp = h then (weight Msg.reply c.flight : Int) else 0) s.cep

/-- The two accounts of an HCA that shares its receive queues. -/
structure Shared (g : Config N Q H) (s : State N Q H) (h : N × H) : Prop where
  sema : (s.pool h).amSema + outstanding g s h = g.rbufCount h
  repl : (s.pool h).repl + held g s h = g.rbufCount h

omit [DecidableEq Q] in
theorem shared_initial (g : Config N Q H) (h : N × H) : Shared g (initial g) h := by
  have hout : outstanding g (initial g) h = 0 := by
    refine totalBy_eq_zero fun k => ?_
    simp [share, initial, awaited, owing]
  have hheld : held g (initial g) h = 0 := by
    refine totalBy_eq_zero fun k => ?_
    simp [initial]
  refine ⟨?_, ?_⟩
  · rw [hout]
    exact Int.add_zero _
  · rw [hheld]
    exact Int.add_zero _

theorem shared_step {a : Key N Q × Act} (hsrq : g.useSrq = true) (hstep : Step g s a s')
    (hs : Shared g s h) : Shared g s' h := by
  have hsema := hs.sema
  have hrepl := hs.repl
  cases hstep with
  | @work k act p c hne hwork =>
    rw [hsrq] at hwork
    have haw := hwork.awaited
    have how := hwork.owing
    have hheld := hwork.holdsReply
    simp only [outstanding, held] at hsema hrepl
    refine ⟨?_, ?_⟩
    · simp only [outstanding, totalBy_update, share, how]
      by_cases hk : g.home k = h
      · subst hk
        simp only [Function.update_self, if_true]
        omega
      · simp only [Function.update_of_ne (Ne.symm hk), if_neg hk]
        omega
    · simp only [held, totalBy_update]
      by_cases hk : g.home k = h
      · subst hk
        simp only [Function.update_self, if_true]
        omega
      · simp only [Function.update_of_ne (Ne.symm hk), if_neg hk]
        omega
  | @deliver k p c d hne hdel =>
    rw [hsrq] at hdel
    obtain ⟨haw, hopp⟩ := hdel.awaited
    obtain ⟨hsame, htasks, hheld⟩ := hdel.holdsReply
    have hpool : (Function.update s.pool (g.home k) p h).amSema = (s.pool h).amSema := by
      by_cases hk : g.home k = h
      · subst hk
        rw [Function.update_self, hsame]
      · rw [Function.update_of_ne (Ne.symm hk)]
    have hshare : share g h k c + share g h k.opp d =
        share g h k (s.cep k) + share g h k.opp (s.cep k.opp) := by
      simp only [share, Key.opp_opp]
      by_cases hk : g.home k = h <;> by_cases ho : g.home k.opp = h <;> simp only [hk, ho] <;>
        simp <;> omega
    simp only [outstanding, held] at hsema hrepl
    refine ⟨?_, ?_⟩
    · simp only [outstanding, totalBy_update, Function.update_of_ne (Key.opp_ne hne)]
      show ((Function.update s.pool (g.home k) p h).amSema : Int) + _ = _
      rw [hpool]
      omega
    · simp only [held, totalBy_update, Function.update_of_ne (Key.opp_ne hne), htasks]
      by_cases hk : g.home k = h
      · subst hk
        simp only [Function.update_self, if_true]
        omega
      · simp only [Function.update_of_ne (Ne.symm hk), if_neg hk]
        omega

omit [DecidableEq Q] in
/-- With shared receive queues every reply in flight finds a buffer. -/
theorem Shared.replies_le (hs : Shared g s h) : replies g s h ≤ (s.pool h).repl := by
  have hsema := hs.sema
  have hrepl := hs.repl
  have hle : held g s h + replies g s h ≤ outstanding g s h := by
    rw [held, replies, ← totalBy_add]
    refine totalBy_mono fun k => ?_
    have htasks : weight Task.holdsReply (s.cep k).tasks ≤ weight Task.awaits (s.cep k).tasks :=
      weight_le (fun t => by cases t <;> simp [Task.holdsReply, Task.awaits]) _
    simp only [share, awaited, owing]
    split <;> split <;> omega
  omega

end Gasnet.Ibv
