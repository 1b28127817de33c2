import Gasnet.Ammpi.Tokens

/-! No token is lost or made while no message is refused, and a sender without tokens is owed
one. -/
namespace Gasnet.Ammpi

variable {E : Type*} [DecidableEq E] {lim : E → Limits} {s t : State E} {a b : E} {c : Action E}
  {x y x' y' : PerProc} {act : Act} {m : Msg} {fl l r : List Msg} {P n : Nat}

/-- A request that takes a token. -/
def Msg.isUserRequest (m : Msg) : Bool := m.isRequest && m.systemMessageType == .user

/-- Tokens that a message brings back. -/
def Msg.tokens (m : Msg) : Nat :=
  match m.systemMessageType with
  | .user | .autoreply => m.systemMessageArg
  | .returnedMessage | .controlMessage => 0

def requests (fl : List Msg) : Nat := fl.countP Msg.isUserRequest

def carried (fl : List Msg) : Nat := (fl.map Msg.tokens).sum

@[simp] theorem requests_append : requests (l ++ r) = requests l + requests r :=
  List.countP_append

@[simp] theorem requests_nil : requests [] = 0 := rfl

@[simp] theorem requests_cons :
    requests (m :: fl) = (if m.isUserRequest then 1 else 0) + requests fl := by
  simp [requests, List.countP_cons, Nat.add_comm]

@[simp] theorem carried_append : carried (l ++ r) = carried l + carried r := by
  simp [carried]

@[simp] theorem carried_nil : carried [] = 0 := rfl

@[simp] theorem carried_cons : carried (m :: fl) = m.tokens + carried fl := by
  simp [carried]

/-- The account of the tokens that `a` has for `b`. -/
def account (s : State E) (a b : E) : Nat :=
  (s a b).tokensOut + requests (s a b).flight + (s b a).tokensIn + carried (s b a).flight

/-- A message is on its way that brings a token, or a request has not been answered. -/
def Owed (s : State E) (a b : E) : Prop :=
  (∃ m ∈ (s b a).flight, 0 < m.tokens) ∨ (∃ m ∈ (s a b).flight, m.isUserRequest = true) ∨
    false ∈ (s b a).handling

structure Live (lim : E → Limits) (s : State E) (a b : E) : Prop where
  conserved : account s a b = (lim a).tokensPerhost
  outstanding : requests (s a b).flight ≤ (lim a).tokensPerhost
  owed : (lim b).tokensSlack < (lim a).tokensPerhost → (s a b).tokensOut = 0 → Owed s a b

/-- The account of one side, `x`, and its peer. When all tokens are at the peer, one of its
handlers has not replied. -/
structure Balanced (P n : Nat) (x y : PerProc) : Prop where
  sum : x.tokensOut + requests x.flight + y.tokensIn + carried y.flight = P
  full : n < P → y.tokensIn = P → false ∈ y.handling

/-- The message an endpoint receives is not refused. -/
def Act.Accepted : Act → Prop
  | .receive g m => m.systemMessageType = .returnedMessage ∨ refusal g m = none
  | _ => True

/-- What a message that is not refused does to the endpoint that receives it. -/
structure Received (x : PerProc) (m : Msg) (x' : PerProc) : Prop where
  flight : x'.flight = x.flight
  tokensOut : x.tokensOut + m.tokens < 2 ^ 32 → x'.tokensOut = x.tokensOut + m.tokens
  start : m.isUserRequest = true →
    x'.tokensIn = (x.tokensIn + 1) % 2 ^ 32 ∧ x'.handling = false :: x.handling
  other : m.isUserRequest = false → x'.tokensIn = x.tokensIn ∧ x'.handling = x.handling

theorem processPacket_received {g : Gate} (x : PerProc) (hacc : (Act.receive g m).Accepted) :
    Received x m (processPacket g x m) := by
  unfold processPacket
  split
  · rename_i hret
    exact ⟨rfl, fun _ => by simp [Msg.tokens, hret], fun hreq => by simp [Msg.isUserRequest, hret] at hreq,
      fun _ => ⟨rfl, rfl⟩⟩
  · rename_i hret
    rw [hacc.resolve_left hret]
    show Received x m (accept x m)
    unfold accept
    cases htype : m.systemMessageType with
    | user =>
      have htok : m.tokens = m.systemMessageArg := by simp [Msg.tokens, htype]
      cases hreq : m.isRequest with
      | false =>
        exact ⟨rfl, fun hlt => by rw [htok] at hlt ⊢; exact Nat.mod_eq_of_lt hlt,
          fun h => by simp [Msg.isUserRequest, hreq] at h, fun _ => ⟨rfl, rfl⟩⟩
      | true =>
        exact ⟨rfl, fun hlt => by rw [htok] at hlt ⊢; exact Nat.mod_eq_of_lt hlt,
          fun _ => ⟨rfl, rfl⟩, fun h => by simp [Msg.isUserRequest, hreq, htype] at h⟩
    | autoreply =>
      have htok : m.tokens = m.systemMessageArg := by simp [Msg.tokens, htype]
      exact ⟨rfl, fun hlt => by rw [htok] at hlt ⊢; exact Nat.mod_eq_of_lt hlt,
        fun h => by simp [Msg.isUserRequest, htype] at h, fun _ => ⟨rfl, rfl⟩⟩
    | controlMessage =>
      exact ⟨rfl, fun _ => by simp [Msg.tokens, htype],
        fun h => by simp [Msg.isUserRequest, htype] at h, fun _ => ⟨rfl, rfl⟩⟩
    | returnedMessage => exact absurd htype hret

theorem tokens_arg (h : m.systemMessageType = .user ∨ m.systemMessageType = .autoreply) :
    ({ m with systemMessageArg := n } : Msg).tokens = n := by
  obtain h | h := h <;> simp [Msg.tokens, h]

/-- What a side does with its tokens when it sends, seen from the peer that they belong to. -/
theorem Balanced.sendTokens (h : Balanced P n x y)
    (hm : m.systemMessageType = .user ∨ m.systemMessageType = .autoreply) :
    Balanced P n x (y.sendTokens m) := by
  have hle := y.carry_le
  have hsum := h.sum
  refine ⟨?_, fun hn hfull => ?_⟩
  · simp only [PerProc.sendTokens_tokensIn, PerProc.sendTokens_flight, carried_append,
      carried_cons, carried_nil, tokens_arg hm]
    omega
  · have hpos : 0 < y.tokensIn := by
      simp only [PerProc.sendTokens_tokensIn] at hfull
      omega
    have := PerProc.carry_pos y hpos
    simp only [PerProc.sendTokens_tokensIn] at hfull
    omega

/-- All tokens are not at the peer after it has sent some. -/
theorem Balanced.sent (h : Balanced P n x y) (hn : n < P) :
    (y.sendTokens m).tokensIn < P := by
  have hsum := h.sum
  by_cases hpos : 0 < y.tokensIn
  · have := PerProc.carry_pos y hpos
    simp only [PerProc.sendTokens_tokensIn]
    omega
  · simp only [PerProc.sendTokens_tokensIn]
    omega

theorem Balanced.lt (h : Balanced P n x y) (hP : P < 2 ^ 32) (hfl : y.flight = l ++ m :: r) :
    x.tokensOut + m.tokens < 2 ^ 32 := by
  have hsum := h.sum
  rw [hfl] at hsum
  simp only [carried_append, carried_cons] at hsum
  omega

/-- The sender of the requests acts. -/
theorem Balanced.sender {lim : Limits} (hP : P < 2 ^ 32) (h : Balanced P n x y)
    (hmove : Move lim x y act x' y') (hacc : act.Accepted) : Balanced P n x' y' := by
  have hsum := h.sum
  cases hmove with
  | request hout hreq huser =>
    refine ⟨?_, h.full⟩
    simp only [PerProc.request_tokensOut, PerProc.request_flight, requests_append, requests_cons,
      requests_nil, Msg.isUserRequest, hreq, huser]
    simp only [Bool.true_and, beq_self_eq_true, if_true]
    omega
  | reply hrun hrep huser =>
    refine ⟨?_, h.full⟩
    simpa [Msg.isUserRequest, hrep] using hsum
  | finish hrun =>
    refine ⟨?_, h.full⟩
    simp only [afterHandler]
    split
    · simpa [Msg.isUserRequest, autoreply] using hsum
    · exact hsum
  | control hrep hcontrol harg =>
    refine ⟨?_, h.full⟩
    simpa [Msg.isUserRequest, hrep] using hsum
  | @receive g m l r hfl =>
    have hlt := h.lt hP hfl
    have hrec := processPacket_received x hacc
    refine ⟨?_, h.full⟩
    rw [hfl] at hsum
    simp only [carried_append, carried_cons] at hsum
    rw [hrec.tokensOut hlt, hrec.flight]
    simp only [carried_append]
    omega

/-- The receiver of the requests acts. -/
theorem Balanced.receiver {lim : Limits} (hP : P < 2 ^ 32) (h : Balanced P lim.tokensSlack x y)
    (hmove : Move lim y x act y' x') (hacc : act.Accepted) :
    Balanced P lim.tokensSlack x' y' := by
  have hsum := h.sum
  cases hmove with
  | @request m hout hreq huser =>
    have hsent : Balanced P lim.tokensSlack x (y.sendTokens m) := h.sendTokens (.inl huser)
    exact ⟨hsent.sum, hsent.full⟩
  | @reply m fs hrun hrep huser =>
    refine ⟨(h.sendTokens (.inl huser)).sum, fun hn hfull => ?_⟩
    have := h.sent (m := m) hn
    simp only [PerProc.setHandling_tokensIn, PerProc.sendTokens_tokensIn] at this hfull
    omega
  | @finish tag r fs hrun =>
    unfold afterHandler
    split
    · have hauto := h.sendTokens (m := { autoreply with tag := tag }) (.inr rfl)
      refine ⟨hauto.sum, fun hn hfull => ?_⟩
      have := h.sent (m := { autoreply with tag := tag }) hn
      simp only [PerProc.setHandling_tokensIn, PerProc.sendTokens_tokensIn] at this hfull
      omega
    · rename_i hnot
      refine ⟨hsum, fun hn hfull => ?_⟩
      have hmem := h.full hn hfull
      simp only [PerProc.setHandling_tokensIn] at hfull
      rw [hrun] at hmem
      -- the handler that ends here has replied, so another one has not
      cases r with
      | false => exact absurd ⟨rfl, by omega⟩ hnot
      | true => simpa using hmem
  | control hrep hcontrol harg =>
    refine ⟨?_, h.full⟩
    simpa [Msg.tokens, hcontrol] using hsum
  | @receive g m l r hfl =>
    have hrec := processPacket_received y hacc
    rw [hfl] at hsum
    simp only [requests_append, requests_cons] at hsum
    cases hreq : m.isUserRequest with
    | false =>
      obtain ⟨hin, hrun⟩ := hrec.other hreq
      refine ⟨?_, fun hn hfull => ?_⟩
      · simp only [hreq] at hsum
        simp only [requests_append, hin, hrec.flight]
        simpa using hsum
      · rw [hin] at hfull
        rw [hrun]
        exact h.full hn hfull
    | true =>
      obtain ⟨hin, hrun⟩ := hrec.start hreq
      refine ⟨?_, fun _ _ => by simp [hrun]⟩
      simp only [hreq, if_true] at hsum
      simp only [requests_append, hrec.flight]
      rw [hin, Nat.mod_eq_of_lt (by omega)]
      omega

theorem balanced_initial {lim lim' : Limits} :
    Balanced lim.tokensPerhost n (.initial lim) (.initial lim') := by
  refine ⟨rfl, fun _ hfull => ?_⟩
  have := lim.slack_lt
  simp only [PerProc.initial] at hfull
  omega

/-- Runs of steps in which no message is refused. -/
def Safe (lim : E → Limits) (s : State E) (a : Action E) (t : State E) : Prop :=
  Step lim s a t ∧ a.act.Accepted

theorem balanced_step (h : Safe lim s c t) (hab : a ≠ b)
    (hs : Balanced (lim a).tokensPerhost (lim b).tokensSlack (s a b) (s b a)) :
    Balanced (lim a).tokensPerhost (lim b).tokensSlack (t a b) (t b a) :=
  h.1.pair hab
    (fun _ _ hmove => hs.sender (lim a).lt hmove h.2)
    (fun _ _ hmove => hs.receiver (lim a).lt hmove h.2) hs

omit [DecidableEq E] in
/-- A sender without tokens whose tokens are neither on their way nor at an open request has them
all at its peer. -/
theorem Balanced.owed (h : Balanced P n (s a b) (s b a)) (hn : n < P)
    (hout : (s a b).tokensOut = 0) : Owed s a b := by
  by_contra hnot
  simp only [Owed, not_or, not_exists, not_and] at hnot
  obtain ⟨hback, hreq, hrun⟩ := hnot
  have hcarried : carried (s b a).flight = 0 := by
    refine List.sum_eq_zero fun k hk => ?_
    obtain ⟨m, hm, rfl⟩ := List.mem_map.mp hk
    exact Nat.eq_zero_of_not_pos (hback m hm)
  have hrequests : requests (s a b).flight = 0 := List.countP_eq_zero.mpr hreq
  have hsum := h.sum
  exact hrun (h.full hn (by omega))

/-- In runs in which no message is refused, the tokens of every pair of endpoints are conserved,
and a sender that has none is owed one by a peer whose slack is below the sender's tokens. -/
theorem tokens_live (h : Reachable (Safe lim) (initial lim) s) (hab : a ≠ b) : Live lim s a b := by
  have hbal : Balanced (lim a).tokensPerhost (lim b).tokensSlack (s a b) (s b a) :=
    h.invariant (P := fun s => Balanced (lim a).tokensPerhost (lim b).tokensSlack (s a b) (s b a))
      (fun hstep hs => balanced_step hstep hab hs) balanced_initial
  have hsum := hbal.sum
  exact ⟨hsum, by omega, fun hn hout => hbal.owed hn hout⟩

/-- One token for each host. -/
def one : Bool → Limits := fun _ => ⟨1, 0, by decide, by decide⟩

def openGate (handler : Nat → Bool) : Gate := ⟨false, AM_ALL, handler, 0, 0⟩

def ping : Msg := ⟨true, .short, 5, 0, 0, 0, .user, 0⟩

/-- A request that is not answered, and the automatic reply to it. -/
theorem tokens_live_one : ∃ s, (s true false).tokensOut = 0 ∧ Live one s true false := by
  have hrun : Run (Safe one) (initial one)
      [⟨true, false, .request ping⟩, ⟨false, true, .receive (openGate fun _ => true) ping⟩,
        ⟨false, true, .finish 0⟩] _ :=
    .stepL ⟨.act (by decide) (.request (by decide) rfl rfl), trivial⟩
      (.stepL ⟨.act (by decide) (@Move.receive _ _ _ _ _ [] [] rfl), .inr rfl⟩
        (.stepL ⟨.act (by decide) (.finish rfl), trivial⟩ .refl))
  exact ⟨_, rfl, tokens_live ⟨_, hrun⟩ (by decide)⟩

/-- Twice its depth of one for `false`. -/
def oneOrTwo : Bool → Limits := fun a =>
  if a then ⟨1, 0, by decide, by decide⟩ else ⟨2, 1, by decide, by decide⟩

/-- A request that is refused takes its token with it. And a peer whose slack is the sender's
only token keeps that. -/
theorem tokens_lost :
    (∃ s, Reachable (Step one) (initial one) s ∧ account s true false = 0 ∧
      (one true).tokensPerhost = 1 ∧ (s true false).tokensOut = 0 ∧ ¬Owed s true false) ∧
    setExpectedResources 1 (some 1) none = some (oneOrTwo true) ∧
      setExpectedResources 1 none none = some (oneOrTwo false) ∧
      ∃ s, Reachable (Safe oneOrTwo) (initial oneOrTwo) s ∧ (s true false).tokensOut = 0 ∧
        ¬Owed s true false := by
  refine ⟨?_, ?_⟩
  · have hrun : Run (Step one) (initial one)
        [⟨true, false, .request ping⟩, ⟨false, true, .receive (openGate fun _ => false) ping⟩,
          ⟨true, false, .receive (openGate fun _ => false) (ping.returned EBADHANDLER)⟩] _ :=
      .stepL (.act (by decide) (.request (by decide) rfl rfl))
        (.stepL (.act (by decide) (@Move.receive _ _ _ _ _ [] [] rfl))
          (.stepL (.act (by decide) (@Move.receive _ _ _ _ _ [] [] rfl)) .refl))
    refine ⟨_, ⟨_, hrun⟩, rfl, rfl, rfl, ?_⟩
    rintro (⟨m, hm, _⟩ | ⟨m, hm, _⟩ | hrun)
    · exact absurd hm (List.not_mem_nil)
    · exact absurd hm (List.not_mem_nil)
    · exact absurd hrun (List.not_mem_nil)
  · have hrun : Run (Safe oneOrTwo) (initial oneOrTwo)
        [⟨true, false, .request ping⟩, ⟨false, true, .receive (openGate fun _ => true) ping⟩,
          ⟨false, true, .finish 0⟩] _ :=
      .stepL ⟨.act (by decide) (.request (by decide) rfl rfl), trivial⟩
        (.stepL ⟨.act (by decide) (@Move.receive _ _ _ _ _ [] [] rfl), .inr rfl⟩
          (.stepL ⟨.act (by decide) (.finish rfl), trivial⟩ .refl))
    refine ⟨rfl, rfl, _, ⟨_, hrun⟩, rfl, ?_⟩
    rintro (⟨m, hm, _⟩ | ⟨m, hm, _⟩ | hrun)
    · exact absurd hm (List.not_mem_nil)
    · exact absurd hm (List.not_mem_nil)
    · exact absurd hrun (List.not_mem_nil)

end Gasnet.Ammpi
