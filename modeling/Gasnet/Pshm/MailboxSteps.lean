import Gasnet.Pshm.Mailbox

/-! Every step of the producers and of the consumer keeps the invariant of the message queue. -/
namespace Gasnet.Pshm

variable {Thread Data : Type} [DecidableEq Thread] {s t : Mailbox Thread Data}
  {i j : Thread} {a b p x y h n : Nat} {m : Data} {c : Consumer} {e : Bool}
  {act : MailboxAction Thread Data}

namespace Mailbox

theorem producer_setProducer (s : Mailbox Thread Data) (i j : Thread) (c : Producer Data) :
    (s.setProducer i c).producer j = if j = i then c else s.producer j := by
  simp [setProducer, Function.update_apply]

theorem inv_prepare (hs : s.Inv) (hi : s.producer i = .idle) (ha : a ≠ 0)
    (hfree : s.inUse a = false) : (s.prepare i a m).Inv := by
  have hnot : a ∉ s.hand ++ s.queue ++ s.held := fun h => by simp [(hs.used a h).1] at hfree
  have hne : ∀ x ∈ s.hand ++ s.queue ++ s.held, x ≠ a := fun x hx he => hnot (he ▸ hx)
  have hprod : ∀ k, (s.prepare i a m).producer k = if k = i then .prepared a m else s.producer k :=
    fun k => producer_setProducer s i k _
  have hnext : ∀ x, x ≠ a → (s.prepare i a m).next x = s.next x := fun x hx =>
    Function.update_of_ne hx _ _
  have hdata : ∀ x, x ≠ a → (s.prepare i a m).data x = s.data x := fun x hx =>
    Function.update_of_ne hx _ _
  have hlink : ∀ k b p, (s.prepare i a m).producer k = .linking b p ↔ s.producer k = .linking b p := by
    intro k b p
    rw [hprod]
    split
    · rename_i hk
      simp [hk, hi]
    · rfl
  have hmid : ∀ y, (s.prepare i a m).Mid y ↔ s.Mid y := fun y => by simp only [Mid, hlink]
  constructor
  case sees =>
    exact hs.sees.congr fun x hx => hnext x (hne x (by simp [hand, hx]))
  case live => exact hs.live
  case used =>
    intro x hx
    refine ⟨?_, (hs.used x hx).2⟩
    rw [show (s.prepare i a m).inUse x = s.inUse x from Function.update_of_ne (hne x hx) _ _]
    exact (hs.used x hx).1
  case prepared =>
    intro k b m' hk
    rw [hprod] at hk
    split at hk
    · rename_i hki
      subst hki
      cases hk
      exact ⟨hnot, Function.update_self .., ha, Function.update_self .., Function.update_self ..⟩
    · obtain ⟨h₁, h₂, h₃, h₄, h₅⟩ := hs.prepared k b m' hk
      have hba : b ≠ a := by
        rintro rfl
        simp [h₂] at hfree
      refine ⟨h₁, ?_, h₃, (hnext b hba).trans h₄, (hdata b hba).trans h₅⟩
      exact (Function.update_of_ne hba _ _).trans h₂
  case tail => exact hs.tail
  case linking =>
    intro k b p hk
    exact hs.linking k b p ((hlink k b p).1 hk)
  case linkOnce =>
    intro k k' b p p' hk hk'
    exact hs.linkOnce k k' b p p' ((hlink k b p).1 hk) ((hlink k' b p').1 hk')
  case links =>
    intro x y hxy
    have hxy : Follows s.queue x y := hxy
    rw [hnext x (hne x (by simp [hxy.mem_left])), hmid]
    exact hs.links x y hxy
  case last =>
    intro x hx
    have hx : s.queue.getLast? = some x := hx
    rw [hnext x (hne x (by simp [List.mem_of_getLast? hx]))]
    exact hs.last x hx
  case front =>
    have hfront := hs.front
    unfold Front at hfront ⊢
    simp only [hmid]
    exact hfront
  case log =>
    refine hs.log.trans (congrArg (s.received ++ ·) (List.map_congr_left fun x hx => ?_))
    exact (hdata x (hne x (List.mem_append_left _ hx))).symm

theorem inv_swap (hs : s.Inv) (hi : s.producer i = .prepared a m) : (s.swap i a m).Inv := by
  obtain ⟨hnot, huse, hne, hzero, hd⟩ := hs.prepared i a m hi
  have hprod : ∀ k, (s.swap i a m).producer k = if k = i then .linking a s.tail else s.producer k :=
    fun k => producer_setProducer s i k _
  have hmid : ∀ y, (s.swap i a m).Mid y ↔ y = a ∨ s.Mid y := by
    intro y
    constructor
    · rintro ⟨k, p, hk⟩
      rw [hprod] at hk
      split at hk
      · cases hk
        exact Or.inl rfl
      · exact Or.inr ⟨k, p, hk⟩
    · rintro (rfl | ⟨k, p, hk⟩)
      · exact ⟨i, s.tail, by rw [hprod, if_pos rfl]⟩
      · refine ⟨k, p, ?_⟩
        rw [hprod, if_neg]
        · exact hk
        · rintro rfl
          simp [hi] at hk
  have hqueue : a ∉ s.queue := fun h => hnot (by simp [h])
  have htail : s.queue.getLast? = none ∧ s.tail = 0 ∨
      ∃ x, s.queue.getLast? = some x ∧ s.tail = x ∧ x ≠ 0 := by
    rw [hs.tail]
    cases hl : s.queue.getLast? with
    | none => exact Or.inl ⟨rfl, rfl⟩
    | some x => exact Or.inr ⟨x, rfl, rfl, (hs.mem_live (List.mem_of_getLast? hl)).2⟩
  constructor
  case sees => exact hs.sees
  case live =>
    refine List.Perm.nodup (?_ : (a :: (s.hand ++ s.queue ++ s.held)).Perm _)
      (List.nodup_cons.mpr ⟨hnot, hs.live⟩)
    change (a :: (s.hand ++ s.queue ++ s.held)).Perm (s.hand ++ (s.queue ++ [a]) ++ s.held)
    rw [← List.append_assoc, List.append_assoc _ [a], List.singleton_append]
    exact List.perm_middle.symm
  case used =>
    intro x hx
    change x ∈ s.hand ++ (s.queue ++ [a]) ++ s.held at hx
    by_cases hxa : x = a
    · subst hxa
      exact ⟨huse, hne⟩
    · exact hs.used x (by simpa [hxa] using hx)
  case prepared =>
    intro k b m' hk
    rw [hprod] at hk
    split at hk
    · simp at hk
    · rename_i hki
      obtain ⟨h₁, hrest⟩ := hs.prepared k b m' hk
      refine ⟨?_, hrest⟩
      have hba : b ≠ a := by
        rintro rfl
        exact hki (hs.prepared_ne hk hi)
      change b ∉ s.hand ++ (s.queue ++ [a]) ++ s.held
      simpa [hba] using h₁
  case tail => simp [swap]
  case linking =>
    intro k b p hk
    change b ∈ s.queue ++ [a] ∧ (p = 0 → (s.queue ++ [a]).head? = some b) ∧
      (p ≠ 0 → Follows (s.queue ++ [a]) p b)
    rw [hprod] at hk
    split at hk
    · cases hk
      refine ⟨by simp, fun hp => ?_, fun hp => ?_⟩
      · rcases htail with ⟨hl, _⟩ | ⟨x, _, hx, hx0⟩
        · rw [List.getLast?_eq_none_iff] at hl
          simp [hl]
        · exact absurd (hx.symm.trans hp) hx0
      · rcases htail with ⟨_, h0⟩ | ⟨x, hl, hx, _⟩
        · exact absurd h0 hp
        · exact follows_concat.mpr (Or.inr ⟨hx ▸ hl, rfl⟩)
    · obtain ⟨h₁, h₂, h₃⟩ := hs.linking k b p hk
      refine ⟨by simp [h₁], fun hp => ?_, fun hp => follows_concat.mpr (Or.inl (h₃ hp))⟩
      rw [List.head?_append, h₂ hp]
      rfl
  case linkOnce =>
    intro k k' b p p' hk hk'
    rw [hprod] at hk hk'
    split at hk <;> split at hk'
    · rename_i h₁ h₂
      rw [h₁, h₂]
    · cases hk
      exact absurd (hs.linking k' a p' hk').1 hqueue
    · cases hk'
      exact absurd (hs.linking k a p hk).1 hqueue
    · exact hs.linkOnce k k' b p p' hk hk'
  case links =>
    intro x y hxy
    rw [hmid]
    rcases follows_concat.mp hxy with hxy | ⟨hx, rfl⟩
    · have hya : y ≠ a := fun he => hqueue (he ▸ hxy.mem_right)
      simp only [hya, false_or]
      exact hs.links x y hxy
    · exact Or.inr ⟨hs.last x hx, Or.inl rfl⟩
  case last =>
    intro x hx
    obtain rfl : a = x := by simpa [swap] using hx
    exact hzero
  case front =>
    unfold Front
    simp only [hmid, not_or]
    change (s.queue ++ [a]).head? = some s.entry ∧ s.entry ≠ 0 ∧ s.entry ≠ a ∧ ¬s.Mid s.entry ∨
      s.entry = 0 ∧ ∀ x, (s.queue ++ [a]).head? = some x → x = a ∨ s.Mid x
    rcases hs.front with ⟨h₁, h₂, h₃⟩ | ⟨h₁, h₂⟩
    · left
      refine ⟨by rw [List.head?_append, h₁]; rfl, h₂, ?_, h₃⟩
      rintro he
      exact hqueue (he ▸ List.mem_of_mem_head? h₁)
    · refine Or.inr ⟨h₁, fun x hx => ?_⟩
      rw [List.head?_append] at hx
      cases hq : s.queue.head? with
      | none =>
        rw [hq] at hx
        exact Or.inl (by simpa using hx.symm)
      | some z =>
        rw [hq] at hx
        exact Or.inr (h₂ x (hq.trans hx))
  case log =>
    change (s.sent ++ [(i, m)]).map some = s.received ++ (s.hand ++ (s.queue ++ [a])).map s.data
    simp [hs.log, hd]

/-- What the link of a producer does to the elements that wait for one. -/
theorem mid_link (hs : s.Inv) (hi : s.producer i = .linking a p) :
    (s.link i a p).Mid y ↔ y ≠ a ∧ s.Mid y := by
  have hprod : ∀ k, (s.link i a p).producer k = if k = i then .idle else s.producer k := by
    intro k
    unfold link
    dsimp only
    split <;> exact producer_setProducer s i k .idle
  constructor
  · rintro ⟨k, p', hk⟩
    rw [hprod] at hk
    split at hk
    · simp at hk
    · rename_i hki
      refine ⟨?_, k, p', hk⟩
      rintro rfl
      exact hki (hs.linkOnce k i y p' p hk hi)
  · rintro ⟨hya, k, p', hk⟩
    refine ⟨k, p', ?_⟩
    rw [hprod, if_neg, hk]
    rintro rfl
    rw [hi] at hk
    cases hk
    exact hya rfl

theorem inv_link (hs : s.Inv) (hi : s.producer i = .linking a p) : (s.link i a p).Inv := by
  obtain ⟨hmem, hfirst, hfol⟩ := hs.linking i a p hi
  have hma : s.Mid a := ⟨i, p, hi⟩
  have hmid : ∀ y, (s.link i a p).Mid y ↔ y ≠ a ∧ s.Mid y := fun _ => mid_link hs hi
  have hprod : ∀ k c, c ≠ .idle → (s.link i a p).producer k = c → s.producer k = c := by
    intro k c hc hk
    have : (s.link i a p).producer k = if k = i then .idle else s.producer k := by
      unfold link
      dsimp only
      split <;> exact producer_setProducer s i k .idle
    rw [this] at hk
    split at hk
    · exact absurd hk.symm hc
    · exact hk
  have hkeep : (s.link i a p).queue = s.queue ∧ (s.link i a p).consumer = s.consumer ∧
      (s.link i a p).shead = s.shead ∧ (s.link i a p).tail = s.tail ∧
      (s.link i a p).held = s.held ∧ (s.link i a p).inUse = s.inUse ∧
      (s.link i a p).data = s.data ∧ (s.link i a p).sent = s.sent ∧
      (s.link i a p).received = s.received := by
    unfold link
    dsimp only
    split <;> exact ⟨rfl, rfl, rfl, rfl, rfl, rfl, rfl, rfl, rfl⟩
  obtain ⟨hq, hc, hsh, htl, hhd, huse, hdata, hsent, hrecv⟩ := hkeep
  have hhand : (s.link i a p).hand = s.hand := by rw [hand, hc, hand]
  have hnext : ∀ x, x ≠ p ∨ p = 0 → (s.link i a p).next x = s.next x := by
    intro x hx
    unfold link
    dsimp only
    split
    · rename_i hp
      exact Function.update_of_ne (hx.resolve_right hp) _ _
    · rfl
  have hother : ∀ x, x ∉ s.queue → (s.link i a p).next x = s.next x := by
    intro x hx
    refine hnext x ?_
    by_cases hp : p = 0
    · exact Or.inr hp
    · exact Or.inl fun he => hx (he ▸ (hfol hp).mem_left)
  have hhandq : ∀ x ∈ s.hand, x ∉ s.queue := fun x hx hx' =>
    (List.nodup_append.mp (List.nodup_append.mp hs.live).1).2.2 x hx x hx' rfl
  -- the entry was 0 if the head is stored now
  have hentry : (p ≠ 0 ∧ (s.link i a p).head = s.head) ∨
      p = 0 ∧ s.entry = 0 ∧ (s.link i a p).head = a := by
    by_cases hp : p = 0
    · refine Or.inr ⟨hp, ?_, by simp [link, hp]⟩
      rcases hs.front with ⟨h₁, _, h₃⟩ | ⟨h₁, _⟩
      · rw [hfirst hp] at h₁
        exact absurd (Option.some.inj h₁ ▸ hma) h₃
      · exact h₁
    · exact Or.inl ⟨hp, by simp [link, hp, setProducer]⟩
  have hane := (hs.mem_live hmem).2
  constructor
  case sees =>
    rw [hc, hsh]
    refine Consumer.Sees.congr ?_ fun x hx => hother x (hhandq x hx)
    rcases hentry with ⟨_, he⟩ | ⟨_, h0, he⟩
    · exact he ▸ hs.sees
    · exact he ▸ (hs.sees.store h0).1
  case live => rw [hhand, hq, hhd]; exact hs.live
  case used => rw [hhand, hq, hhd, huse]; exact hs.used
  case prepared =>
    intro k b m' hk
    obtain ⟨h₁, h₂, h₃, h₄, h₅⟩ := hs.prepared k b m' (hprod k _ (by simp) hk)
    rw [hhand, hq, hhd, huse, hdata, hother b fun hb => h₁ (by simp [hb])]
    exact ⟨h₁, h₂, h₃, h₄, h₅⟩
  case tail => rw [htl, hq]; exact hs.tail
  case linking =>
    intro k b p' hk
    rw [hq]
    exact hs.linking k b p' (hprod k _ (by simp) hk)
  case linkOnce =>
    intro k k' b p₁ p₂ hk hk'
    exact hs.linkOnce k k' b p₁ p₂ (hprod k _ (by simp) hk) (hprod k' _ (by simp) hk')
  case links =>
    intro x y hxy
    rw [hq] at hxy
    rw [hmid]
    by_cases hya : y = a
    · subst hya
      by_cases hp : p = 0
      · exact absurd (hfirst hp) (hxy.ne_head hs.nodup)
      · obtain rfl := hxy.left_unique hs.nodup (hfol hp)
        exact Or.inl ⟨by simp [link, hp], fun h => h.1 rfl⟩
    · have hxp : x ≠ p ∨ p = 0 := by
        by_cases hp : p = 0
        · exact Or.inr hp
        · refine Or.inl fun he => hya ?_
          subst he
          exact hxy.right_unique hs.nodup (hfol hp)
      rw [hnext x hxp]
      simpa [hya] using hs.links x y hxy
  case last =>
    intro x hx
    rw [hq] at hx
    rw [hnext x]
    · exact hs.last x hx
    · by_cases hp : p = 0
      · exact Or.inr hp
      · exact Or.inl fun he => (hfol hp).ne_getLast hs.nodup (he ▸ hx)
  case front =>
    unfold Front
    rw [hq]
    simp only [hmid, not_and]
    rcases hentry with ⟨hp, he⟩ | ⟨hp, h0, he⟩
    · have hsame : (s.link i a p).entry = s.entry := by simp only [entry, hc, he, hsh]
      rw [hsame]
      rcases hs.front with ⟨h₁, h₂, h₃⟩ | ⟨h₁, h₂⟩
      · exact Or.inl ⟨h₁, h₂, fun _ => h₃⟩
      · refine Or.inr ⟨h₁, fun x hx => ⟨?_, h₂ x hx⟩⟩
        rintro rfl
        exact (hfol hp).ne_head hs.nodup hx
    · have hnew : (s.link i a p).entry = a := by
        rw [entry, hc, hsh, he]
        exact (hs.sees.store h0).2
      rw [hnew]
      exact Or.inl ⟨hfirst hp, hane, fun h => absurd rfl h⟩
  case log => rw [hsent, hrecv, hhand, hq, hdata]; exact hs.log

end Mailbox
end Gasnet.Pshm
