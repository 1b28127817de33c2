import Gasnet.Pshm.MailboxRuns
import Mathlib.Logic.Function.Iterate

/-! Progress: when producers finish their links and the consumer polls, every message arrives. -/
namespace Gasnet.Pshm

variable {Thread Data : Type} [DecidableEq Thread] {s t : Mailbox Thread Data}
  {i : Thread} {a b x h n m k : Nat} {e : Bool} {act : MailboxAction Thread Data}
  {E : Nat → Mailbox Thread Data} {L : Nat → Option (MailboxAction Thread Data)}

/-- The accesses of a call before it looks for the next element. -/
def Consumer.rank : Consumer → Nat
  | .idle => 7
  | .peekHead => 6
  | .readShead => 5
  | .testHead => 4
  | .takeHead => 3
  | .storeShead _ => 2
  | .clearHead _ => 1
  | _ => 0

namespace Mailbox

/-- From instant `n` on the consumer returns nothing, although an element is in the queue. -/
structure Stuck (E : Nat → Mailbox Thread Data) (n a : Nat) : Prop where
  never : ∀ m ≥ n, ∀ h x, (E m).consumer ≠ .storeNext h x
  first : ∀ m ≥ n, (E m).queue.head? = some a

/-- If nothing is received any more, the consumer never has a message in its hand. -/
theorem Execution.never_taking (hE : Execution E L) (hF : Fair E L)
    (hstop : ∀ m ≥ n, (E m).received.length = k) :
    ∀ m ≥ n, ∀ h x, (E m).consumer ≠ .storeNext h x := by
  intro m hm h x hc
  obtain ⟨m', hm', e, hc', hr⟩ := hE.next_recv hF m
  rw [hc] at hc'
  have hlen := hstop m' (by omega)
  have hlen' := hstop (m' + 1) (by omega)
  generalize E (m' + 1) = t at hr hlen'
  cases hr with
  | take =>
    simp only [take, List.length_append, List.length_singleton] at hlen'
    omega
  | _ => simp_all

theorem Execution.queue_prefix (hE : Execution E L)
    (hnever : ∀ m ≥ n, ∀ h x, (E m).consumer ≠ .storeNext h x) :
    ∀ m ≥ n, (E n).queue <+: (E m).queue := by
  refine hE.keeps (P := fun s => (E n).queue <+: s.queue) (fun m hm act hP hs => ?_)
    List.prefix_rfl
  exact hP.trans (queue_step hs (hnever (m + 1) (by omega)))

/-- An element that stays in the queue gets its link. -/
theorem Execution.linked (hE : Execution E L) (hF : Fair E L)
    (ha : ∀ m ≥ n, a ∈ (E m).queue) : ∃ n' ≥ n, ∀ m ≥ n', ¬(E m).Mid a := by
  have hstay : ∀ n' ≥ n, ¬(E n').Mid a → ∀ m ≥ n', ¬(E m).Mid a := fun n' hn' h0 =>
    hE.keeps (P := fun s => ¬s.Mid a)
      (fun m hm act hP hs => mid_step (hE.inv m) hs (ha m (by omega)) hP) h0
  by_cases hmid : (E n).Mid a
  · obtain ⟨i, p, hi⟩ := hmid
    obtain ⟨m₀, hm₀, hL⟩ := hF.link n i a p hi
    obtain ⟨m, hm, act, rfl, hP, hs⟩ := hE.until (P := fun s => s.producer i = .linking a p)
      (Q := fun act => act = .link i) (fun m _ act hP hs hQ => linking_step hs hP hQ) hi
      ⟨m₀, hm₀, _, hL, rfl⟩
    refine ⟨m + 1, by omega, hstay (m + 1) (by omega) ?_⟩
    generalize E (m + 1) = t at hs
    cases hs with
    | link hi' =>
      rw [hP] at hi'
      cases hi'
      exact fun h => ((mid_link (hE.inv m) hP).mp h).1 rfl
  · exact ⟨n, Nat.le_refl _, hstay n (Nat.le_refl _) hmid⟩

/-- With a first element that is linked, each access brings the consumer nearer to it. -/
theorem rank_recv (hs : s.Inv) (hr : Recv s e t) (ha : s.queue.head? = some a) (hmid : ¬s.Mid a)
    (hpos : s.consumer.rank ≠ 0) : t.consumer.rank < s.consumer.rank := by
  have hsees := hs.sees
  have hentry := hs.entry_eq ha hmid
  have h0 : a ≠ 0 := (hs.mem_live (List.mem_of_mem_head? ha)).2
  cases hr with
  | peek hc =>
    rw [hc]
    change (if s.shead ≠ 0 then Consumer.readShead else .peekHead).rank < 7
    split <;> decide
  | readShead hc =>
    rw [hc]
    change (if s.shead ≠ 0 then Consumer.readNext s.shead else .testHead).rank < 5
    split <;> simp [Consumer.rank]
  | peekEmpty hc hh | testEmpty hc hh =>
    rw [hc] at hsees
    have hsees0 : s.shead = 0 := hsees
    simp only [entry, hc, Consumer.entry, hsees0, hh] at hentry
    exact absurd hentry.symm (by simpa using h0)
  | start hc | peekHead hc | testHead hc | takeHead hc | storeShead hc | clearHead hc =>
    rw [hc]
    simp [Consumer.rank, setConsumer]
  | nextSome hc | nextNone hc | casDone hc | casFail hc | take hc =>
    rw [hc] at hpos
    simp [Consumer.rank] at hpos

/-- The consumer comes to look for the element after the first. -/
theorem Execution.arrives (hE : Execution E L) (hF : Fair E L) (hst : Stuck E n a)
    (hmid : ∀ m ≥ n, ¬(E m).Mid a) : ∀ d, ∀ n' ≥ n, (E n').consumer.rank ≤ d →
      ∃ m ≥ n', (E m).consumer.rank = 0 := by
  intro d
  induction d with
  | zero => exact fun n' _ h0 => ⟨n', Nat.le_refl _, by omega⟩
  | succ d ih =>
    intro n' hn' hle
    by_cases h0 : (E n').consumer.rank = 0
    · exact ⟨n', Nat.le_refl _, h0⟩
    · obtain ⟨m, hm, e, hc, hr⟩ := hE.next_recv hF n'
      have hlt := rank_recv (hE.inv m) hr (hst.first m (by omega)) (hmid m (by omega))
        (by rw [hc]; exact h0)
      rw [hc] at hlt
      obtain ⟨m', hm', hzero⟩ := ih (m + 1) (by omega) (by omega)
      exact ⟨m', by omega, hzero⟩

/-- What an access does once the first element is in hand. -/
theorem rank_zero (hr : Recv s e t) (h0 : s.consumer.rank = 0)
    (hs : ∀ h x, s.consumer ≠ .storeNext h x) (ht : ∀ h x, t.consumer ≠ .storeNext h x) :
    (∃ h, s.consumer = .readNext h ∧ s.next h = 0 ∧ t.consumer = .casTail h) ∨
      ∃ h, s.consumer = .casTail h ∧ s.tail ≠ h ∧ t.consumer = .readNext h := by
  cases hr with
  | nextNone hc hn => exact Or.inl ⟨_, hc, hn, rfl⟩
  | casFail hc htl => exact Or.inr ⟨_, hc, htl, rfl⟩
  | nextSome | casDone => exact absurd rfl (ht _ _)
  | take hc => exact absurd hc (hs _ _)
  | start hc | peek hc | peekHead hc | peekEmpty hc | readShead hc | testHead hc | testEmpty hc
    | takeHead hc | storeShead hc | clearHead hc =>
    rw [hc] at h0
    simp [Consumer.rank] at h0

theorem Execution.rank_stays (hE : Execution E L)
    (hnever : ∀ m ≥ n, ∀ h x, (E m).consumer ≠ .storeNext h x) (h0 : (E n).consumer.rank = 0) :
    ∀ m ≥ n, (E m).consumer.rank = 0 := by
  refine hE.keeps (P := fun s => s.consumer.rank = 0) (fun m hm act hP hs => ?_) h0
  by_cases hact : ∃ e, act = .recv e
  · obtain ⟨e, rfl⟩ := hact
    have hn := hnever (m + 1) (by omega)
    generalize E (m + 1) = t at hs hn
    cases hs with
    | recv hr =>
      rcases rank_zero hr hP (hnever m hm) hn with ⟨h, _, _, hc⟩ | ⟨h, _, _, hc⟩ <;>
      · rw [hc]
        rfl
  · rw [consumer_eq hs hact]
    exact hP

/-- The consumer tries the tail again and again. -/
theorem Execution.tries (hE : Execution E L) (hF : Fair E L)
    (hnever : ∀ m ≥ n, ∀ h x, (E m).consumer ≠ .storeNext h x) (h0 : (E n).consumer.rank = 0) :
    ∃ m ≥ n, ∃ h, (E m).consumer = .readNext h ∧ (E m).next h = 0 := by
  obtain ⟨m, hm, e, hc, hr⟩ := hE.next_recv hF n
  have hstays := hE.rank_stays hnever h0
  rcases rank_zero hr (hstays m hm) (hnever m hm) (hnever (m + 1) (by omega)) with
    ⟨h, hc, hn, _⟩ | ⟨h, _, _, hc⟩
  · exact ⟨m, hm, h, hc, hn⟩
  · obtain ⟨m', hm', e, hc', hr⟩ := hE.next_recv hF (m + 1)
    rcases rank_zero hr (hstays m' (by omega)) (hnever m' (by omega))
      (hnever (m' + 1) (by omega)) with ⟨h, hc, hn, _⟩ | ⟨h, hcas, _, _⟩
    · exact ⟨m', by omega, h, hc, hn⟩
    · rw [hc', hc] at hcas
      cases hcas

/-- The compare-and-swap fails only where a second element has come. -/
theorem Execution.second (hE : Execution E L) (hF : Fair E L) (hst : Stuck E n a)
    (h0 : (E n).consumer.rank = 0) (hmid : ∀ m ≥ n, ¬(E m).Mid a) :
    ∃ m ≥ n, ∃ b l, (E m).queue = a :: b :: l := by
  obtain ⟨m₁, hm₁, h, hc, _⟩ := hE.tries hF hst.never h0
  have hstays := hE.rank_stays hst.never h0
  obtain ⟨m₂, hm₂, e, hc₂, hr⟩ := hE.next_recv hF m₁
  rcases rank_zero hr (hstays m₂ (by omega)) (hst.never m₂ (by omega))
    (hst.never (m₂ + 1) (by omega)) with ⟨h', hc', _, hcas⟩ | ⟨h', hc', _, _⟩
  · obtain ⟨m₃, hm₃, e, hc₃, hr⟩ := hE.next_recv hF (m₂ + 1)
    rcases rank_zero hr (hstays m₃ (by omega)) (hst.never m₃ (by omega))
      (hst.never (m₃ + 1) (by omega)) with ⟨h'', hread, _, _⟩ | ⟨h'', hcas', htail, _⟩
    · rw [hc₃, hcas] at hread
      cases hread
    · have hs := hE.inv m₃
      have hfirst := hst.first m₃ (by omega)
      have hsees := hs.sees
      rw [hcas'] at hsees
      obtain ⟨hsh, _, hne⟩ := hsees
      have hentry : (E m₃).entry = h'' := by simp [entry, hcas', Consumer.entry, hsh, hne]
      obtain rfl := hentry.symm.trans (hs.entry_eq hfirst (hmid m₃ (by omega)))
      refine ⟨m₃, by omega, ?_⟩
      cases hq : (E m₃).queue with
      | nil => simp [hq] at hfirst
      | cons x l =>
        rw [hq] at hfirst
        obtain rfl := Option.some.inj hfirst
        cases l with
        | nil =>
          have := hs.tail
          rw [hq] at this
          exact absurd this htail
        | cons b l => exact ⟨b, l, rfl⟩
  · rw [hc₂, hc] at hc'
    cases hc'

theorem Execution.not_stuck (hE : Execution E L) (hF : Fair E L) (hst : Stuck E n a) : False := by
  have shift : ∀ m ≥ n, Stuck E m a := fun m hm =>
    ⟨fun m' hm' => hst.never m' (by omega), fun m' hm' => hst.first m' (by omega)⟩
  obtain ⟨n₁, hn₁, hmid⟩ := hE.linked hF fun m hm => List.mem_of_mem_head? (hst.first m hm)
  obtain ⟨n₂, hn₂, hrank⟩ := hE.arrives hF (shift n₁ hn₁) hmid _ n₁ (Nat.le_refl _) (Nat.le_refl _)
  obtain ⟨n₃, hn₃, b, l, hq⟩ := hE.second hF (shift n₂ (by omega)) hrank
    fun m hm => hmid m (by omega)
  have hprefix := hE.queue_prefix (shift n₃ (by omega)).never
  have hqueue : ∀ m ≥ n₃, ∃ r, (E m).queue = a :: b :: r := by
    intro m hm
    obtain ⟨r, hr⟩ := hprefix m hm
    exact ⟨l ++ r, by rw [← hr, hq]; rfl⟩
  obtain ⟨n₄, hn₄, hb⟩ := hE.linked hF (n := n₃) (a := b) fun m hm => by
    obtain ⟨r, hr⟩ := hqueue m hm
    simp [hr]
  have hrank₄ := hE.rank_stays (shift n₂ (by omega)).never hrank n₄ (by omega)
  obtain ⟨m, hm, h, hc, hnone⟩ := hE.tries hF (shift n₄ (by omega)).never hrank₄
  have hs := hE.inv m
  have hsees := hs.sees
  rw [hc] at hsees
  obtain ⟨hsh, _, hne⟩ := hsees
  have hentry : (E m).entry = h := by simp [entry, hc, Consumer.entry, hsh, hne]
  obtain rfl := hentry.symm.trans (hs.entry_eq (hst.first m (by omega)) (hmid m (by omega)))
  obtain ⟨r, hr⟩ := hqueue m (by omega)
  have hfol : Follows (E m).queue h b := by
    rw [hr]
    exact follows_cons.mpr (Or.inl ⟨rfl, rfl⟩)
  rcases hs.links h b hfol with ⟨hnext, _⟩ | ⟨_, hlate⟩
  · exact (hs.mem_live hfol.mem_right).2 (hnext.symm.trans hnone)
  · exact hb m (by omega) hlate

theorem Execution.received_prefix (hE : Execution E L) :
    ∀ m ≥ n, (E n).received <+: (E m).received :=
  hE.keeps (P := fun s => (E n).received <+: s.received)
    (fun _ _ _ hP hs => hP.trans (received_step hs)) List.prefix_rfl

theorem sent_step (h : MailboxStep s act t) : s.sent <+: t.sent := by
  cases h with
  | recv h => cases h <;> exact List.prefix_rfl
  | @link i a p _ =>
    unfold link
    dsimp only
    split <;> exact List.prefix_rfl
  | swap => exact List.prefix_append _ _
  | prepare | release => exact List.prefix_rfl

/-- However many messages were received, one more is, as long as more were sent. -/
theorem Execution.next_received (hE : Execution E L) (hF : Fair E L)
    (hlt : (E n).received.length < (E n).sent.length) :
    ∃ m ≥ n, (E n).received.length < (E m).received.length := by
  by_contra hno
  have hstop : ∀ m ≥ n, (E m).received.length = (E n).received.length := fun m hm => by
    have hle := (hE.received_prefix m hm).length_le
    have hge : ¬(E n).received.length < (E m).received.length := fun h => hno ⟨m, hm, h⟩
    omega
  have hnever := hE.never_taking hF hstop
  have hq : (E n).queue ≠ [] := by
    intro hq
    have hlog := congrArg List.length (hE.inv n).log
    have hhand : (E n).hand = [] := by
      unfold hand Consumer.hand
      split
      · rename_i h x hc
        exact absurd hc (hnever n (Nat.le_refl _) h x)
      · rfl
    rw [hq, hhand] at hlog
    simp at hlog
    omega
  cases hq' : (E n).queue with
  | nil => exact hq hq'
  | cons a l =>
    refine hE.not_stuck hF (n := n) (a := a) ⟨hnever, fun m hm => ?_⟩
    obtain ⟨r, hr⟩ := hE.queue_prefix hnever m hm
    rw [← hr, hq']
    rfl

/-- Every message sent is received. -/
theorem Execution.all_received (hE : Execution E L) (hF : Fair E L) (n : Nat) :
    ∃ m ≥ n, (E n).sent.map some <+: (E m).received := by
  have hsent : ∀ m ≥ n, (E n).sent <+: (E m).sent :=
    hE.keeps (P := fun s => (E n).sent <+: s.sent)
      (fun _ _ _ hP hs => hP.trans (sent_step hs)) List.prefix_rfl
  have hreach : ∀ j ≤ (E n).sent.length, ∃ m ≥ n, j ≤ (E m).received.length := by
    intro j hj
    induction j with
    | zero => exact ⟨n, Nat.le_refl _, Nat.zero_le _⟩
    | succ j ih =>
      obtain ⟨m, hm, hle⟩ := ih (by omega)
      have hlen := (hsent m hm).length_le
      by_cases hlt : j < (E m).received.length
      · exact ⟨m, hm, hlt⟩
      · obtain ⟨m', hm', hmore⟩ := hE.next_received hF (n := m) (by omega)
        exact ⟨m', by omega, by omega⟩
  obtain ⟨m, hm, hle⟩ := hreach _ (Nat.le_refl _)
  exact ⟨m, hm, List.prefix_of_prefix_length_le ((hsent m hm).map some) (hE.inv m).received
    (by simpa using hle)⟩

/-- What holds of the messages at every instant. -/
structure Delivers (s : Mailbox Thread Data) : Prop where
  inOrder : s.received <+: s.sent.map some
  eachThread : ∀ i, s.received.filter (fun x => x.map Prod.fst = some i) <+:
    (s.sent.filter fun x => x.1 = i).map some
  found : ∀ (k a : Nat), s.queue[k]? = some a →
    (∀ j ≤ k, ∀ b : Nat, s.queue[j]? = some b → ¬s.Mid b) →
    ∃ r, (r = s.head ∨ r = s.shead) ∧ r ≠ 0 ∧ s.Reaches r a
  empty : ∀ t, Recv s true t → ∀ a, s.queue.head? = some a → s.Mid a

/-- The messages received are those sent first, in order; an element of the queue is found from
one of the heads as soon as the links up to it are stored; and if producers store their links and
the consumer polls, every message sent is received. -/
theorem mailbox_delivers :
    (∀ s : Mailbox Thread Data, Reachable MailboxStep initial s → s.Delivers) ∧
    ∀ (E : Nat → Mailbox Thread Data) L, Execution E L → Fair E L →
      ∀ n, ∃ m ≥ n, (E n).sent.map some <+: (E m).received := by
  refine ⟨fun s h => ?_, fun E L hE hF n => hE.all_received hF n⟩
  have hs := inv_reachable h
  refine ⟨hs.received, fun i => ?_, fun k a hk hmid => hs.found hk hmid,
    fun t ht => (hs.empty ht).2.2⟩
  have hfilter := hs.received.filter fun x => decide (x.map Prod.fst = some i)
  rwa [List.filter_map, show (fun x : Option (Thread × Data) =>
    decide (x.map Prod.fst = some i)) ∘ some = fun x => decide (x.1 = i) by
      funext x
      simp] at hfilter

/-- The consumer's next access, without the test of `gasneti_pshmnet_queue_peek`. -/
def poll (s : Mailbox Thread Data) : Mailbox Thread Data :=
  match s.consumer with
  | .idle => s.setConsumer .readShead
  | .peekHead => s.setConsumer (if s.head ≠ 0 then .readShead else .idle)
  | .readShead => s.setConsumer (if s.shead ≠ 0 then .readNext s.shead else .testHead)
  | .testHead => s.setConsumer (if s.head ≠ 0 then .takeHead else .idle)
  | .takeHead => s.setConsumer (.storeShead s.head)
  | .storeShead h => { s with consumer := .clearHead h, shead := h }
  | .clearHead h => { s with consumer := .readNext h, head := 0 }
  | .readNext h =>
    if s.next h ≠ 0 then { s with consumer := .storeNext h (s.next h), queue := s.queue.tail }
    else s.setConsumer (.casTail h)
  | .casTail h =>
    if s.tail = h then { s with consumer := .storeNext h 0, tail := 0, queue := s.queue.tail }
    else s.setConsumer (.readNext h)
  | .storeNext h n => s.take h n

theorem recv_poll (s : Mailbox Thread Data) : ∃ e, Recv s e s.poll := by
  unfold poll
  split
  · exact ⟨_, .start ‹_›⟩
  · by_cases h : s.head = 0
    · rw [if_neg (by simpa using h)]
      exact ⟨_, .peekEmpty ‹_› h⟩
    · rw [if_pos h]
      exact ⟨_, .peekHead ‹_› h⟩
  · exact ⟨_, .readShead ‹_›⟩
  · by_cases h : s.head = 0
    · rw [if_neg (by simpa using h)]
      exact ⟨_, .testEmpty ‹_› h⟩
    · rw [if_pos h]
      exact ⟨_, .testHead ‹_› h⟩
  · exact ⟨_, .takeHead ‹_›⟩
  · exact ⟨_, .storeShead ‹_›⟩
  · exact ⟨_, .clearHead ‹_›⟩
  · split
    · exact ⟨_, .nextSome ‹_› ‹_›⟩
    · rename_i h
      exact ⟨_, .nextNone ‹_› (by simpa using h)⟩
  · split
    · exact ⟨_, .casDone ‹_› ‹_›⟩
    · exact ⟨_, .casFail ‹_› ‹_›⟩
  · exact ⟨_, .take ‹_›⟩

theorem producer_poll (s : Mailbox Thread Data) : s.poll.producer = s.producer := by
  obtain ⟨e, h⟩ := s.recv_poll
  generalize s.poll = t at h
  cases h <;> rfl

/-- One message, which the consumer polls for. -/
def polled : Nat → Mailbox Bool Nat
  | 0 => initial
  | 1 => initial.prepare true 1 7
  | 2 => (initial.prepare true 1 7).swap true 1 7
  | n + 3 => poll^[n] (((initial.prepare true 1 7).swap true 1 7).link true 1 0)

theorem polled_fair : ∃ L, Execution polled L ∧ Fair polled L := by
  choose e he using @recv_poll Bool Nat _
  let L : Nat → Option (MailboxAction Bool Nat)
    | 0 => some (.prepare true 1 7)
    | 1 => some (.swap true)
    | 2 => some (.link true)
    | n + 3 => some (.recv (e (polled (n + 3))))
  have hpoll : ∀ n, polled (n + 3 + 1) = (polled (n + 3)).poll := fun n =>
    Function.iterate_succ_apply' poll n _
  have hidle : ∀ n i, (polled (n + 3)).producer i = .idle := by
    intro n i
    induction n with
    | zero => cases i <;> rfl
    | succ n ih => rw [show n + 1 + 3 = n + 3 + 1 from rfl, hpoll, producer_poll]; exact ih
  refine ⟨L, ⟨rfl, ?_, ?_⟩, ?_, ?_⟩
  · rintro (_ | _ | _ | n) h <;> cases h
  · rintro (_ | _ | _ | n) act h <;> cases h
    · exact .prepare rfl (by decide) rfl
    · exact .swap rfl
    · exact @MailboxStep.link _ _ _ ((initial.prepare true 1 7).swap true 1 7) true 1 0 rfl
    · rw [hpoll]
      exact .recv (he _)
  · rintro (_ | _ | _ | n) i a p h
    · cases h
    · cases i <;> cases h
    · cases i
      · cases h
      · exact ⟨2, Nat.le_refl _, rfl⟩
    · rw [show n + 1 + 1 + 1 = n + 3 from rfl, hidle] at h
      cases h
  · exact fun n => ⟨n + 3, by omega, _, rfl⟩

theorem mailbox_delivers_polled : ∃ m ≥ 3, [some (true, 7)] <+: (polled m).received := by
  obtain ⟨L, hE, hF⟩ := polled_fair
  exact mailbox_delivers.2 polled L hE hF 3

/-- The producer `false` has stored its link while `true`, which came first, has not; and the
consumer looks. -/
def overtaken : Mailbox Bool Nat :=
  (((((initial.prepare true 1 7).prepare false 2 8).swap true 1 7).swap false 2 8).link
    false 2 1).setConsumer .peekHead

/-- The message 8 is enqueued and its link stored, and no head leads to it: the consumer finds
nothing. -/
theorem linked_unreachable :
    Reachable MailboxStep initial overtaken ∧ overtaken.producer false = .idle ∧
      (false, 8) ∈ overtaken.sent ∧ overtaken.received = [] ∧
      overtaken.head = 0 ∧ overtaken.shead = 0 ∧
      Recv overtaken true (overtaken.setConsumer .idle) :=
  ⟨⟨_, .stepL (.prepare rfl (by decide) rfl) <| .stepL (.prepare rfl (by decide) rfl) <|
    .stepL (.swap rfl) <| .stepL (.swap rfl) <| .stepL (.link rfl) <|
    .stepL (.recv (.peek rfl)) .refl⟩, rfl, by decide, rfl, rfl, rfl, .peekEmpty rfl rfl⟩

end Mailbox
end Gasnet.Pshm
