import Mathlib.Logic.Relation
import Mathlib.Data.Nat.Init
import Gasnet.Pshm.MailboxSteps

/-! The consumer's steps keep the invariant, and what it says about what is sent and received. -/
namespace Gasnet.Pshm

variable {Thread Data : Type} [DecidableEq Thread] {s t : Mailbox Thread Data}
  {i : Thread} {a x h n sh hd : Nat} {c : Consumer} {e : Bool}
  {act : MailboxAction Thread Data}

namespace Mailbox

omit [DecidableEq Thread] in
/-- Steps of the consumer that only move its own state and the two heads. -/
theorem inv_heads (hs : s.Inv) (hhand : s.hand = []) (hc : c.hand = [])
    (hsees : c.Sees sh hd s.next) (hentry : c.entry sh hd = s.entry) :
    ({ s with consumer := c, head := hd, shead := sh } : Mailbox Thread Data).Inv := by
  have hlive := hs.live
  have hused := hs.used
  have hprep := hs.prepared
  have hlog := hs.log
  rw [hhand] at hlive hused hlog
  simp only [hhand] at hprep
  refine
    { hs with
      sees := hsees
      live := by simpa only [hand, hc] using hlive
      used := by simpa only [hand, hc] using hused
      prepared := by simpa only [hand, hc] using hprep
      front := ?_
      log := by simpa only [hand, hc] using hlog }
  have hfront := hs.front
  unfold Front at hfront ⊢
  rw [← hentry] at hfront
  exact hfront

omit [DecidableEq Thread] in
/-- The element the consumer works on is the first one, and it is linked. -/
theorem Inv.first (hs : s.Inv) (he : s.entry = h) (h0 : h ≠ 0) :
    ¬s.Mid h ∧ ∃ l, s.queue = h :: l := by
  rcases hs.front with ⟨h₁, _, h₃⟩ | ⟨h₁, _⟩
  · rw [he] at h₁ h₃
    cases hq : s.queue with
    | nil => simp [hq] at h₁
    | cons y l =>
      rw [hq] at h₁
      obtain rfl := Option.some.inj h₁
      exact ⟨h₃, l, rfl⟩
  · exact absurd (he.symm.trans h₁) h0

omit [DecidableEq Thread] in
/-- The first element leaves the queue: the second one is where the consumer looks next. -/
theorem inv_dequeue {l : List Nat} (tl : Nat) (hs : s.Inv) (hhand : s.hand = [])
    (hq : s.queue = h :: l) (hmid : ¬s.Mid h) (hsees : (Consumer.storeNext h n).Sees s.shead s.head s.next)
    (htl : tl = l.getLast?.getD 0)
    (hsecond : ∀ y, l.head? = some y → ¬s.Mid y)
    (hentry : l.head? = some (if n ≠ 0 then n else s.head) ∧ (if n ≠ 0 then n else s.head) ≠ 0 ∨
      l = [] ∧ (if n ≠ 0 then n else s.head) = 0) :
    ({ s with consumer := .storeNext h n, tail := tl, queue := l } : Mailbox Thread Data).Inv := by
  have hnodup : (h :: l).Nodup := hq ▸ hs.nodup
  have hall : ∀ y, y ∈ s.hand ++ s.queue ++ s.held ↔ y ∈ [h] ++ l ++ s.held := fun y => by
    rw [hhand, hq]
    rfl
  refine
    { hs with
      sees := hsees
      live := ?_
      used := fun y hy => hs.used y ((hall y).mpr hy)
      prepared := fun k b m hk => ?_
      tail := htl
      linking := fun k b p hk => ?_
      links := fun x y hxy => hs.links x y ?_
      last := fun x hx => hs.last x ?_
      front := ?_
      log := ?_ }
  · have hlive := hs.live
    rw [hhand, hq] at hlive
    exact hlive
  · obtain ⟨h₁, hrest⟩ := hs.prepared k b m hk
    exact ⟨fun hb => h₁ ((hall b).mpr hb), hrest⟩
  · obtain ⟨h₁, h₂, h₃⟩ := hs.linking k b p hk
    have hb : b ≠ h := fun he => hmid (he ▸ ⟨k, p, hk⟩)
    rw [hq] at h₁ h₂ h₃
    have hp : p ≠ 0 := fun hp => hb (Option.some.inj (h₂ hp)).symm
    refine ⟨(List.mem_cons.mp h₁).resolve_left hb, fun hp' => absurd hp' hp, fun _ => ?_⟩
    rcases follows_cons.mp (h₃ hp) with ⟨_, hy⟩ | hfol
    · exact absurd ⟨k, p, hk⟩ (hsecond b hy)
    · exact hfol
  · rw [hq]
    exact follows_cons.mpr (Or.inr hxy)
  · rw [hq]
    cases l with
    | nil => simp at hx
    | cons y l => rwa [List.getLast?_cons_cons]
  · rcases hentry with ⟨h₁, h₂⟩ | ⟨rfl, h₁⟩
    · exact Or.inl ⟨h₁, h₂, hsecond _ h₁⟩
    · exact Or.inr ⟨h₁, fun a ha => by simp at ha⟩
  · have hlog := hs.log
    rw [hhand, hq] at hlog
    exact hlog

omit [DecidableEq Thread] in
theorem inv_nextSome (hs : s.Inv) (hc : s.consumer = .readNext h) (hn : s.next h ≠ 0) :
    ({ s with consumer := .storeNext h (s.next h), queue := s.queue.tail } :
      Mailbox Thread Data).Inv := by
  have hsees := hs.sees
  rw [hc] at hsees
  obtain ⟨h₁, h₂, h₃⟩ := hsees
  have hentry : s.entry = h := by simp [entry, hc, Consumer.entry, h₁, h₃]
  obtain ⟨hmid, l, hq⟩ := hs.first hentry h₃
  cases l with
  | nil => exact absurd (hs.last h (by simp [hq])) hn
  | cons y l =>
    rcases hs.links h y (by rw [hq]; exact follows_cons.mpr (Or.inl ⟨rfl, rfl⟩)) with hy | ⟨h0, _⟩
    · rw [hq]
      refine inv_dequeue s.tail hs (by rw [hand, hc]; rfl) hq hmid
        ⟨h₁, rfl, h₃, fun _ => h₂⟩ ?_ ?_ ?_
      · rw [hs.tail, hq, List.getLast?_cons_cons, List.tail_cons]
      · rintro z hz
        obtain rfl : y = z := by simpa using hz
        exact hy.2
      · rw [if_pos hn]
        exact Or.inl ⟨by simp [hy.1], hn⟩
    · exact absurd h0 hn

omit [DecidableEq Thread] in
theorem inv_casDone (hs : s.Inv) (hc : s.consumer = .casTail h) (ht : s.tail = h) :
    ({ s with consumer := .storeNext h 0, tail := 0, queue := s.queue.tail } :
      Mailbox Thread Data).Inv := by
  have hsees := hs.sees
  rw [hc] at hsees
  obtain ⟨h₁, h₂, h₃⟩ := hsees
  have hentry : s.entry = h := by simp [entry, hc, Consumer.entry, h₁, h₃]
  obtain ⟨hmid, l, hq⟩ := hs.first hentry h₃
  have hlast : s.queue.getLast? = some h := by
    have htail := hs.tail
    rw [ht, hq] at htail
    rw [hq]
    rw [List.getLast?_cons] at htail ⊢
    exact congrArg some htail.symm
  obtain rfl : l = [] := by
    cases l with
    | nil => rfl
    | cons y l =>
      refine absurd hlast (Follows.ne_getLast (y := y) hs.nodup ?_)
      rw [hq]
      exact follows_cons.mpr (Or.inl ⟨rfl, rfl⟩)
  rw [hq]
  refine inv_dequeue 0 hs (by rw [hand, hc]; rfl) hq hmid
    ⟨h₁, hs.last h hlast, h₃, fun h0 => absurd rfl h0⟩ rfl (by simp) (Or.inr ⟨rfl, ?_⟩)
  simpa using h₂

omit [DecidableEq Thread] in
theorem inv_take (hs : s.Inv) (hc : s.consumer = .storeNext h n) : (s.take h n).Inv := by
  have hsees := hs.sees
  rw [hc] at hsees
  obtain ⟨_, _, _, h₄⟩ := hsees
  have hperm : ([h] ++ s.queue ++ s.held).Perm ([] ++ s.queue ++ h :: s.held) := by
    simpa using (@List.perm_middle _ h s.queue s.held).symm
  have hlive := hs.live
  have hused := hs.used
  have hlog := hs.log
  have hprep := hs.prepared
  simp only [hand, hc, Consumer.hand] at hlive hused hlog hprep
  refine
    { hs with
      sees := h₄
      live := hperm.nodup hlive
      used := fun x hx => hused x (hperm.mem_iff.mpr hx)
      prepared := fun k b m hk => ?_
      front := ?_
      log := ?_ }
  · obtain ⟨h₁, hrest⟩ := hprep k b m hk
    exact ⟨fun hb => h₁ (hperm.mem_iff.mpr hb), hrest⟩
  · have hfront := hs.front
    unfold Front entry at hfront ⊢
    rw [hc] at hfront
    exact hfront
  · change s.sent.map some = s.received ++ [s.data h] ++ ([] ++ s.queue).map s.data
    simpa using hlog

omit [DecidableEq Thread] in
theorem inv_release (hs : s.Inv) (ha : a ∈ s.held) : (s.release a).Inv := by
  have hsub : ∀ x, x ∈ s.hand ++ s.queue ++ s.held.erase a → x ∈ s.hand ++ s.queue ++ s.held := by
    intro x hx
    rw [List.mem_append] at hx ⊢
    exact hx.imp_right List.mem_of_mem_erase
  have hne : ∀ x ∈ s.hand ++ s.queue ++ s.held.erase a, x ≠ a := by
    rintro x hx rfl
    have hlive := List.nodup_append.mp hs.live
    rcases List.mem_append.mp hx with hx | hx
    · exact hlive.2.2 x hx x ha rfl
    · exact hlive.2.1.not_mem_erase hx
  refine
    { hs with
      live := ?_
      used := fun x hx => ?_
      prepared := fun k b m hk => ?_ }
  · exact hs.live.sublist (List.erase_sublist.append_left _)
  · obtain ⟨h₁, h₂⟩ := hs.used x (hsub x hx)
    exact ⟨(Function.update_of_ne (hne x hx) _ _).trans h₁, h₂⟩
  · obtain ⟨h₁, h₂, hrest⟩ := hs.prepared k b m hk
    refine ⟨fun hb => h₁ (hsub b hb), (Function.update_of_ne ?_ _ _).trans h₂, hrest⟩
    rintro rfl
    exact h₁ (by simp [ha])

/-- What the consumer holds of the queue once it has seen the first element. -/
theorem inv_recv (h : Recv s e t) (hs : s.Inv) : t.Inv := by
  have hsees := hs.sees
  cases h with
  | start hc =>
    rw [hc] at hsees
    exact inv_heads hs (by rw [hand, hc]; rfl) rfl hsees (by rw [entry, hc]; rfl)
  | peek hc =>
    rw [hc] at hsees
    by_cases h0 : s.shead = 0
    · rw [if_neg (by simpa using h0)]
      exact inv_heads hs (by rw [hand, hc]; rfl) rfl h0 (by rw [entry, hc]; rfl)
    · rw [if_pos h0]
      exact inv_heads hs (by rw [hand, hc]; rfl) rfl hsees (by rw [entry, hc]; rfl)
  | peekHead hc _ =>
    rw [hc] at hsees
    exact inv_heads hs (by rw [hand, hc]; rfl) rfl (fun h => absurd hsees h)
      (by rw [entry, hc]; rfl)
  | peekEmpty hc _ =>
    rw [hc] at hsees
    exact inv_heads hs (by rw [hand, hc]; rfl) rfl (fun h => absurd hsees h)
      (by rw [entry, hc]; rfl)
  | readShead hc =>
    rw [hc] at hsees
    by_cases h0 : s.shead = 0
    · rw [if_neg (by simpa using h0)]
      exact inv_heads hs (by rw [hand, hc]; rfl) rfl h0 (by rw [entry, hc]; rfl)
    · rw [if_pos h0]
      exact inv_heads hs (by rw [hand, hc]; rfl) rfl ⟨rfl, hsees h0, h0⟩ (by rw [entry, hc]; rfl)
  | testHead hc h =>
    rw [hc] at hsees
    exact inv_heads hs (by rw [hand, hc]; rfl) rfl ⟨hsees, h⟩ (by rw [entry, hc]; rfl)
  | testEmpty hc _ =>
    rw [hc] at hsees
    exact inv_heads hs (by rw [hand, hc]; rfl) rfl (fun h => absurd hsees h)
      (by rw [entry, hc]; rfl)
  | takeHead hc =>
    rw [hc] at hsees
    exact inv_heads hs (by rw [hand, hc]; rfl) rfl ⟨hsees.1, rfl, hsees.2⟩ (by rw [entry, hc]; rfl)
  | storeShead hc =>
    rw [hc] at hsees
    obtain ⟨h₁, h₂, h₃⟩ := hsees
    refine inv_heads (s := s) hs (by rw [hand, hc]; rfl) rfl ⟨rfl, h₂, h₃⟩ ?_
    simp [entry, hc, Consumer.entry, h₁, h₂]
  | clearHead hc =>
    rw [hc] at hsees
    obtain ⟨h₁, _, h₃⟩ := hsees
    refine inv_heads (s := s) hs (by rw [hand, hc]; rfl) rfl ⟨h₁, rfl, h₃⟩ ?_
    simp [entry, hc, Consumer.entry, h₁, h₃]
  | nextSome hc hn => exact inv_nextSome hs hc hn
  | nextNone hc _ =>
    rw [hc] at hsees
    exact inv_heads hs (by rw [hand, hc]; rfl) rfl hsees (by rw [entry, hc]; rfl)
  | casDone hc ht => exact inv_casDone hs hc ht
  | casFail hc _ =>
    rw [hc] at hsees
    exact inv_heads hs (by rw [hand, hc]; rfl) rfl hsees (by rw [entry, hc]; rfl)
  | take hc => exact inv_take hs hc

theorem inv_step (h : MailboxStep s act t) (hs : s.Inv) : t.Inv := by
  cases h with
  | prepare hi ha hfree => exact inv_prepare hs hi ha hfree
  | swap hi => exact inv_swap hs hi
  | link hi => exact inv_link hs hi
  | recv h => exact inv_recv h hs
  | release ha => exact inv_release hs ha

theorem inv_reachable (h : Reachable MailboxStep initial s) : s.Inv :=
  h.invariant inv_step inv_initial

end Mailbox
end Gasnet.Pshm

/-! Every message is received once and in order, and none is kept from the consumer for ever. -/
namespace Gasnet.Pshm

variable {Thread Data : Type} [DecidableEq Thread] {s t : Mailbox Thread Data}
  {i : Thread} {a b x h n m k : Nat} {e : Bool} {act : MailboxAction Thread Data}
  {E : Nat → Mailbox Thread Data} {L : Nat → Option (MailboxAction Thread Data)}

namespace Mailbox

/-- `a` is found from `r` through the `next` fields. -/
def Reaches (s : Mailbox Thread Data) (r a : Nat) : Prop :=
  Relation.ReflTransGen (fun x y => s.next x = y ∧ y ≠ 0) r a

omit [DecidableEq Thread] in
theorem Inv.reaches_entry (hs : s.Inv) (h0 : s.entry ≠ 0) :
    ∃ r, (r = s.head ∨ r = s.shead) ∧ r ≠ 0 ∧ s.Reaches r s.entry := by
  have hsees := hs.sees
  cases hc : s.consumer with
  | storeNext h n =>
    rw [hc] at hsees
    obtain ⟨h₁, h₂, h₃, _⟩ := hsees
    by_cases hn : n = 0
    · have he : s.entry = s.head := by simp [entry, hc, Consumer.entry, hn]
      exact ⟨s.head, Or.inl rfl, he ▸ h0, he ▸ .refl⟩
    · have he : s.entry = n := by simp [entry, hc, Consumer.entry, hn]
      exact ⟨s.shead, Or.inr rfl, h₁ ▸ h₃, he ▸ h₁ ▸ .single ⟨h₂, hn⟩⟩
  | _ =>
    have he : s.entry = if s.shead ≠ 0 then s.shead else s.head := by rw [entry, hc]; rfl
    by_cases hsh : s.shead = 0
    · rw [if_neg (by simpa using hsh)] at he
      exact ⟨s.head, Or.inl rfl, he ▸ h0, he ▸ .refl⟩
    · rw [if_pos hsh] at he
      exact ⟨s.shead, Or.inr rfl, hsh, he ▸ .refl⟩

omit [DecidableEq Thread] in
/-- An element is found from one of the heads once its link and those before it are stored. -/
theorem Inv.found (hs : s.Inv) (hk : s.queue[k]? = some a)
    (hmid : ∀ j ≤ k, ∀ b, s.queue[j]? = some b → ¬s.Mid b) :
    ∃ r, (r = s.head ∨ r = s.shead) ∧ r ≠ 0 ∧ s.Reaches r a := by
  induction k generalizing a with
  | zero =>
    have hentry := hs.entry_eq (List.head?_eq_getElem? ▸ hk) (hmid 0 (Nat.le_refl _) a hk)
    have h0 := (hs.mem_live (List.mem_of_getElem? hk)).2
    rw [← hentry]
    exact hs.reaches_entry (hentry ▸ h0)
  | succ k ih =>
    have hlt : k < s.queue.length := by
      have := (List.getElem?_eq_some_iff.mp hk).1
      omega
    have hprev := List.getElem?_eq_getElem hlt
    obtain ⟨r, hr, hr0, hreach⟩ := ih hprev fun j hj => hmid j (by omega)
    refine ⟨r, hr, hr0, hreach.tail ⟨?_, (hs.mem_live (List.mem_of_getElem? hk)).2⟩⟩
    rcases hs.links _ a ⟨k, hprev, hk⟩ with hjoined | ⟨_, hlate⟩
    · exact hjoined.1
    · exact absurd hlate (hmid _ (Nat.le_refl _) a hk)

omit [DecidableEq Thread] in
/-- What was received is what was sent first, in the same order. -/
theorem Inv.received (hs : s.Inv) : s.received <+: s.sent.map some := by
  rw [hs.log]
  exact List.prefix_append _ _

/-- A call that finds nothing: the queue is empty, or its first element is not linked yet. -/
theorem Inv.empty (hs : s.Inv) (h : Recv s true t) :
    s.head = 0 ∧ s.shead = 0 ∧ ∀ a, s.queue.head? = some a → s.Mid a := by
  have hsees := hs.sees
  cases h with
  | peekEmpty hc h0 | testEmpty hc h0 =>
    rw [hc] at hsees
    have hsees0 : s.shead = 0 := hsees
    have hentry : s.entry = 0 := by
      simpa [entry, hc, Consumer.entry, h0] using hsees0
    refine ⟨h0, hsees, fun a ha => ?_⟩
    by_contra hmid
    exact (hs.mem_live (List.mem_of_mem_head? ha)).2 ((hs.entry_eq ha hmid).symm.trans hentry)

/-- An execution: each instant is a step of a thread, or nothing happens. -/
structure Execution (E : Nat → Mailbox Thread Data) (L : Nat → Option (MailboxAction Thread Data)) :
    Prop where
  start : E 0 = initial
  idle : ∀ n, L n = none → E (n + 1) = E n
  step : ∀ n act, L n = some act → MailboxStep (E n) act (E (n + 1))

/-- A producer that has exchanged the tail stores its link, and the consumer keeps polling. -/
structure Fair (E : Nat → Mailbox Thread Data) (L : Nat → Option (MailboxAction Thread Data)) :
    Prop where
  link : ∀ n i a p, (E n).producer i = .linking a p → ∃ m ≥ n, L m = some (.link i)
  recv : ∀ n, ∃ m ≥ n, ∃ e, L m = some (.recv e)

theorem Execution.inv (hE : Execution E L) (n : Nat) : (E n).Inv := by
  induction n with
  | zero => rw [hE.start]; exact inv_initial
  | succ n ih =>
    cases hL : L n with
    | none => rw [hE.idle n hL]; exact ih
    | some act => exact inv_step (hE.step n act hL) ih

/-- What each instant keeps is kept. -/
theorem Execution.keeps {P : Mailbox Thread Data → Prop} (hE : Execution E L)
    (hstep : ∀ m ≥ n, ∀ act, P (E m) → MailboxStep (E m) act (E (m + 1)) → P (E (m + 1)))
    (hP : P (E n)) : ∀ m ≥ n, P (E m) := by
  intro m hm
  induction m, hm using Nat.le_induction with
  | base => exact hP
  | succ m hm ih =>
    cases hL : L m with
    | none => rw [hE.idle m hL]; exact ih
    | some act => exact hstep m hm act ih (hE.step m act hL)

/-- What holds until a step of some kind holds when the first one is taken. -/
theorem Execution.until {P : Mailbox Thread Data → Prop} {Q : MailboxAction Thread Data → Prop}
    (hE : Execution E L)
    (hstep : ∀ m ≥ n, ∀ act, P (E m) → MailboxStep (E m) act (E (m + 1)) → ¬Q act → P (E (m + 1)))
    (hP : P (E n)) (hev : ∃ m ≥ n, ∃ act, L m = some act ∧ Q act) :
    ∃ m ≥ n, ∃ act, Q act ∧ P (E m) ∧ MailboxStep (E m) act (E (m + 1)) := by
  obtain ⟨m, hm, act, hL, hQ⟩ := hev
  obtain ⟨d, rfl⟩ := Nat.exists_eq_add_of_le hm
  clear hm
  induction d generalizing n with
  | zero => exact ⟨n, (Nat.le_refl _), act, hQ, hP, hE.step n act hL⟩
  | succ d ih =>
    have hstep' := fun m (hm : m ≥ n + 1) => hstep m (by omega)
    rw [show n + (d + 1) = n + 1 + d by omega] at hL
    have next : P (E (n + 1)) → ∃ m ≥ n, ∃ act, Q act ∧ P (E m) ∧
        MailboxStep (E m) act (E (m + 1)) := fun h => by
      obtain ⟨m, hm, hrest⟩ := ih hstep' h hL
      exact ⟨m, by omega, hrest⟩
    cases hn : L n with
    | none => exact next (hE.idle n hn ▸ hP)
    | some act' =>
      have hs := hE.step n act' hn
      by_cases hQ' : Q act'
      · exact ⟨n, (Nat.le_refl _), act', hQ', hP, hs⟩
      · exact next (hstep n (Nat.le_refl _) act' hP hs hQ')

theorem consumer_eq (h : MailboxStep s act t) (hact : ¬∃ e, act = .recv e) :
    t.consumer = s.consumer := by
  cases h with
  | recv _ => exact absurd ⟨_, rfl⟩ hact
  | @link i a p _ =>
    unfold link
    dsimp only
    split <;> rfl
  | prepare | swap | release => rfl

/-- The consumer's next step finds its own state as it was. -/
theorem Execution.next_recv (hE : Execution E L) (hF : Fair E L) (n : Nat) :
    ∃ m ≥ n, ∃ e, (E m).consumer = (E n).consumer ∧ Recv (E m) e (E (m + 1)) := by
  obtain ⟨m, hm, e, hL⟩ := hF.recv n
  obtain ⟨m, hm, act, ⟨e, rfl⟩, hc, hs⟩ := hE.until (P := fun s => s.consumer = (E n).consumer)
    (Q := fun act => ∃ e, act = .recv e)
    (fun m _ act hP hs hQ => (consumer_eq hs hQ).trans hP) rfl ⟨m, hm, _, hL, e, rfl⟩
  cases hs with
  | recv h => exact ⟨m, hm, e, hc, h⟩

/-- Only the step that returns a message changes what was received. -/
theorem received_step (h : MailboxStep s act t) : s.received <+: t.received := by
  cases h with
  | recv h =>
    cases h with
    | take => exact List.prefix_append _ _
    | _ => exact List.prefix_rfl
  | @link i a p _ =>
    unfold link
    dsimp only
    split <;> exact List.prefix_rfl
  | prepare | swap | release => exact List.prefix_rfl

/-- The queue only grows while no element is taken from it. -/
theorem queue_step (h : MailboxStep s act t) (hc : ∀ h n, t.consumer ≠ .storeNext h n) :
    s.queue <+: t.queue := by
  cases h with
  | recv h =>
    cases h with
    | nextSome | casDone => exact absurd rfl (hc _ _)
    | _ => exact List.prefix_rfl
  | @link i a p _ =>
    unfold link
    dsimp only
    split <;> exact List.prefix_rfl
  | swap => exact List.prefix_append _ _
  | prepare | release => exact List.prefix_rfl

/-- An element that is linked stays linked while it is in the queue. -/
theorem mid_step (hs : s.Inv) (h : MailboxStep s act t) (ha : a ∈ s.queue) (hmid : ¬s.Mid a) :
    ¬t.Mid a := by
  rintro ⟨j, p, hj⟩
  cases h with
  | @prepare i b m hi _ _ =>
    rw [show (s.prepare i b m).producer j = if j = i then _ else _ from
      producer_setProducer s i j _] at hj
    split at hj
    · simp at hj
    · exact hmid ⟨j, p, hj⟩
  | @swap i b m hi =>
    rw [show (s.swap i b m).producer j = if j = i then _ else _ from
      producer_setProducer s i j _] at hj
    split at hj
    · cases hj
      exact (hs.prepared i a m hi).1 (by simp [ha])
    · exact hmid ⟨j, p, hj⟩
  | link hi => exact hmid ((mid_link hs hi).mp ⟨j, p, hj⟩).2
  | recv h => cases h <;> exact hmid ⟨j, p, hj⟩
  | release => exact hmid ⟨j, p, hj⟩

/-- A producer that is about to store its link stays so until it does. -/
theorem linking_step {p : Nat} (h : MailboxStep s act t) (hi : s.producer i = .linking a p)
    (hact : act ≠ .link i) : t.producer i = .linking a p := by
  cases h with
  | @prepare j b m hj _ _ | @swap j b m hj =>
    have hne : i ≠ j := by
      rintro rfl
      simp [hi] at hj
    exact (producer_setProducer s j i _).trans (by rw [if_neg hne, hi])
  | @link j b q hj =>
    have hne : i ≠ j := fun he => hact (by rw [he])
    have hkeep : (s.link j b q).producer i = (s.setProducer j .idle).producer i := by
      unfold link
      dsimp only
      split <;> rfl
    rw [hkeep, producer_setProducer, if_neg hne, hi]
  | recv h => cases h <;> exact hi
  | release => exact hi

end Mailbox
end Gasnet.Pshm
