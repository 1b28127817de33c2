import Gasnet.Sync.Lifo

/-! Every call on a LIFO takes effect at one moment between its begin and its return. -/
namespace Gasnet.Lifo

variable {E : Type*} {impl : Impl} {calls : Nat → Call E} {s t : State E} {i j : Nat} {x : E}
  {r e : Option E} {l order : List Nat} {l' : List E}

theorem stackAfter_append : stackAfter calls (l ++ [i]) = (calls i).effect (stackAfter calls l) := by
  simp [stackAfter]

/-- `i` has taken effect, on a stack that made it return `r`. -/
def Took (calls : Nat → Call E) (order : List Nat) (i : Nat) (r : Option E) : Prop :=
  ∃ l₁ l₂, order = l₁ ++ i :: l₂ ∧ r = (calls i).result (stackAfter calls l₁)

theorem Took.mem (h : Took calls l i r) : i ∈ l := by
  obtain ⟨l₁, l₂, rfl, -⟩ := h
  simp

theorem Took.append (h : Took calls l i r) : Took calls (l ++ [j]) i r := by
  obtain ⟨l₁, l₂, rfl, hr⟩ := h
  exact ⟨l₁, l₂ ++ [j], by simp, hr⟩

theorem took_last : Took calls (l ++ [i]) i ((calls i).result (stackAfter calls l)) :=
  ⟨l, [], rfl, rfl⟩

/-- The chain that call `i` brings is linked in its order, and its tail to `e`. -/
def Linked (calls : Nat → Call E) (s : State E) (i : Nat) (e : Option E) : Prop :=
  Chain s.link (calls i).chain.head? (calls i).chain e

/-- What holds of call `i` where it is. -/
def Ok (impl : Impl) (calls : Nat → Call E) (s : State E) (i : Nat) : Prop :=
  match s.stage i with
  | .idle => i ∉ s.order
  | .begun => i ∉ s.order ∧ ∃ e, Linked calls s i e
  | .pushHead _ => impl = .cas ∧ i ∉ s.order ∧ ∃ e, Linked calls s i e
  | .pushTag _ _ => impl = .cas ∧ i ∉ s.order ∧ ∃ e, Linked calls s i e
  | .pushLinked oldhead _ => impl = .cas ∧ i ∉ s.order ∧ Linked calls s i oldhead
  | .popHead none => Took calls s.order i none
  | .popHead (some _) => impl = .cas ∧ calls i = .pop ∧ i ∉ s.order
  | .popTag none _ _ => Took calls s.order i none
  | .popTag (some _) tag since => impl = .cas ∧ calls i = .pop ∧ i ∉ s.order ∧
      since ≤ s.updates ∧ tag = BitVec.ofNat 64 since
  | .popNext oldhead tag since newhead => impl = .cas ∧ calls i = .pop ∧ i ∉ s.order ∧
      since ≤ s.updates ∧ tag = BitVec.ofNat 64 since ∧
      (s.updates = since → s.head = some oldhead → s.link oldhead = newhead)
  | .locked => impl = .mutex ∧ s.lock = some i ∧ i ∉ s.order ∧ ∃ e, Linked calls s i e
  | .pushWritten => impl = .mutex ∧ s.lock = some i ∧ i ∉ s.order ∧ Linked calls s i s.head
  | .popElem elem => impl = .mutex ∧ s.lock = some i ∧ i ∉ s.order ∧ calls i = .pop ∧ s.head = elem
  | .popFetched elem next => impl = .mutex ∧ s.lock = some i ∧ i ∉ s.order ∧ calls i = .pop ∧
      s.head = some elem ∧ s.link elem = next
  | .unlocking elem => impl = .mutex ∧ s.lock = some i ∧ Took calls s.order i elem
  | .done elem => Took calls s.order i elem

structure Inv (impl : Impl) (calls : Nat → Call E) (s : State E) : Prop where
  ok : ∀ i, Ok impl calls s i
  chain : Chain s.link s.head (stackAfter calls s.order) none
  nodup : (stackAfter calls s.order).Nodup
  order_nodup : s.order.Nodup
  tag : impl = .cas → s.tag = BitVec.ofNat 64 s.updates
  apart : ∀ i x, Holds calls s i x → x ∉ stackAfter calls s.order
  exclusive : ∀ i j x, Holds calls s i x → Holds calls s j x → i = j
  chain_nodup : ∀ i, (s.stage i).pending → (calls i).chain.Nodup

theorem Inv.head_mem (h : Inv impl calls s) (hx : s.head = some x) :
    x ∈ stackAfter calls s.order := by
  have hchain := h.chain
  cases hl : stackAfter calls s.order with
  | nil =>
    rw [hl, hx] at hchain
    cases hchain
  | cons y l =>
    rw [hl, hx] at hchain
    cases hchain.1
    exact List.mem_cons_self

theorem Inv.empty (h : Inv impl calls s) (hs : s.head = none) : stackAfter calls s.order = [] := by
  have hchain := h.chain
  cases hl : stackAfter calls s.order with
  | nil => rfl
  | cons y l =>
    rw [hl, hs] at hchain
    cases hchain.1

theorem Inv.popped (h : Inv impl calls s) (hs : s.head = some x) :
    ∃ l, stackAfter calls s.order = x :: l ∧ Chain s.link (s.link x) l none := by
  have hchain := h.chain
  cases hl : stackAfter calls s.order with
  | nil =>
    rw [hl, hs] at hchain
    cases hchain
  | cons y l =>
    rw [hl, hs] at hchain
    obtain ⟨hy, hl⟩ := hchain
    cases hy
    exact ⟨l, rfl, hl⟩

/-- A step of `i` leaves what the other calls rely on alone. -/
structure Apart (impl : Impl) (calls : Nat → Call E) (s t : State E) (i : Nat) : Prop where
  stage : ∀ j ≠ i, t.stage j = s.stage j
  order : t.order = s.order ∨ t.order = s.order ++ [i]
  held : ∀ j ≠ i, ∀ x, Holds calls s j x → t.link x = s.link x
  stack : ∀ x ∈ stackAfter calls s.order, t.link x = s.link x
  updates : s.updates ≤ t.updates
  head : t.updates = s.updates → t.head = s.head
  lock : ∀ j ≠ i, s.lock = some j → t.lock = some j
  owner : impl = .mutex → ∀ j ≠ i, s.lock = some j → t.updates = s.updates

theorem Apart.not_mem (h : Apart impl calls s t i) (hj : j ≠ i) (hs : j ∉ s.order) : j ∉ t.order := by
  rcases h.order with heq | heq
  · rwa [heq]
  · simp [heq, hs, hj]

theorem Apart.took (h : Apart impl calls s t i) (hs : Took calls s.order j r) :
    Took calls t.order j r := by
  rcases h.order with heq | heq
  · rwa [heq]
  · rw [heq]
    exact hs.append

theorem Apart.linked (h : Apart impl calls s t i) (hj : j ≠ i) (hp : (s.stage j).pending)
    (hs : Linked calls s j e) : Linked calls t j e :=
  Chain.congr hs fun x hx => h.held j hj x ⟨hp, hx⟩

theorem Ok.apart (h : Ok impl calls s j) (hs : Inv impl calls s) (ha : Apart impl calls s t i)
    (hj : j ≠ i) : Ok impl calls t j := by
  have hstage := ha.stage j hj
  have hhead : impl = .mutex → s.lock = some j → t.head = s.head := fun hm hl =>
    ha.head (ha.owner hm j hj hl)
  unfold Ok at h ⊢
  rw [hstage]
  cases hg : s.stage j with
  | idle =>
    simp only [hg] at h
    exact ha.not_mem hj h
  | begun =>
    simp only [hg] at h
    obtain ⟨hnot, e, he⟩ := h
    exact ⟨ha.not_mem hj hnot, e, ha.linked hj (by rw [hg]; trivial) he⟩
  | pushHead oldhead | pushTag oldhead tag =>
    simp only [hg] at h
    obtain ⟨hcas, hnot, e, he⟩ := h
    exact ⟨hcas, ha.not_mem hj hnot, e, ha.linked hj (by rw [hg]; trivial) he⟩
  | pushLinked oldhead tag =>
    simp only [hg] at h
    exact ⟨h.1, ha.not_mem hj h.2.1, ha.linked hj (by rw [hg]; trivial) h.2.2⟩
  | popHead oldhead =>
    cases oldhead with
    | none =>
      simp only [hg] at h
      exact ha.took h
    | some x =>
      simp only [hg] at h
      exact ⟨h.1, h.2.1, ha.not_mem hj h.2.2⟩
  | popTag oldhead tag since =>
    cases oldhead with
    | none =>
      simp only [hg] at h
      exact ha.took h
    | some x =>
      simp only [hg] at h
      exact ⟨h.1, h.2.1, ha.not_mem hj h.2.2.1, h.2.2.2.1.trans ha.updates, h.2.2.2.2⟩
  | popNext oldhead tag since newhead =>
    simp only [hg] at h
    obtain ⟨hcas, hpop, hnot, hle, htag, hnext⟩ := h
    refine ⟨hcas, hpop, ha.not_mem hj hnot, hle.trans ha.updates, htag, fun hu hx => ?_⟩
    have hsame : s.updates = since := le_antisymm (hu ▸ ha.updates) hle
    rw [ha.head (hu.trans hsame.symm)] at hx
    rw [ha.stack oldhead (hs.head_mem hx)]
    exact hnext hsame hx
  | locked =>
    simp only [hg] at h
    obtain ⟨hm, hl, hnot, e, he⟩ := h
    exact ⟨hm, ha.lock j hj hl, ha.not_mem hj hnot, e, ha.linked hj (by rw [hg]; trivial) he⟩
  | pushWritten =>
    simp only [hg] at h
    obtain ⟨hm, hl, hnot, he⟩ := h
    refine ⟨hm, ha.lock j hj hl, ha.not_mem hj hnot, ?_⟩
    rw [hhead hm hl]
    exact ha.linked hj (by rw [hg]; trivial) he
  | popElem elem =>
    simp only [hg] at h
    obtain ⟨hm, hl, hnot, hpop, hx⟩ := h
    exact ⟨hm, ha.lock j hj hl, ha.not_mem hj hnot, hpop, (hhead hm hl).trans hx⟩
  | popFetched elem next =>
    simp only [hg] at h
    obtain ⟨hm, hl, hnot, hpop, hx, hn⟩ := h
    exact ⟨hm, ha.lock j hj hl, ha.not_mem hj hnot, hpop, (hhead hm hl).trans hx,
      (ha.stack elem (hs.head_mem hx)).trans hn⟩
  | unlocking elem =>
    simp only [hg] at h
    exact ⟨h.1, ha.lock j hj h.2.1, ha.took h.2.2⟩
  | done elem =>
    simp only [hg] at h
    exact ha.took h

/-- What is left to show of a step that leaves the other calls alone. -/
theorem Inv.of_apart (h : Inv impl calls s) (ha : Apart impl calls s t i) (hok : Ok impl calls t i)
    (hchain : Chain t.link t.head (stackAfter calls t.order) none)
    (hnodup : (stackAfter calls t.order).Nodup) (horder : t.order.Nodup)
    (htag : impl = .cas → t.tag = BitVec.ofNat 64 t.updates)
    (hstack : ∀ x ∈ stackAfter calls t.order, x ∈ stackAfter calls s.order ∨
      Holds calls s i x ∧ ¬(t.stage i).pending)
    (hpend : (t.stage i).pending → (s.stage i).pending ∨
      (calls i).chain.Nodup ∧ ∀ x ∈ (calls i).chain, Out calls s x) : Inv impl calls t := by
  have hother : ∀ j x, j ≠ i → Holds calls t j x → Holds calls s j x := by
    intro j x hj hx
    unfold Holds at hx ⊢
    rwa [ha.stage j hj] at hx
  have hself : ∀ x, Holds calls t i x → Holds calls s i x ∨ Out calls s x := by
    intro x hx
    rcases hpend hx.1 with hp | ⟨-, hout⟩
    · exact .inl ⟨hp, hx.2⟩
    · exact .inr (hout x hx.2)
  refine ⟨fun j => ?_, hchain, hnodup, horder, htag, fun j x hx hmem => ?_, fun j k x hx hy => ?_,
    fun j hj => ?_⟩
  · by_cases hj : j = i
    · exact hj ▸ hok
    · exact (h.ok j).apart h ha hj
  · by_cases hj : j = i
    · subst hj
      rcases hstack x hmem with hold | hnew
      · rcases hself x hx with hs | hout
        · exact h.apart j x hs hold
        · exact hout.1 hold
      · exact hnew.2 hx.1
    · rcases hstack x hmem with hold | hnew
      · exact h.apart j x (hother j x hj hx) hold
      · exact hj (h.exclusive j i x (hother j x hj hx) hnew.1)
  · by_cases hj : j = i <;> by_cases hk : k = i
    · exact hj.trans hk.symm
    · subst hj
      rcases hself x hx with hs | hout
      · exact h.exclusive j k x hs (hother k x hk hy)
      · exact absurd (hother k x hk hy) (hout.2 k)
    · subst hk
      rcases hself x hy with hs | hout
      · exact h.exclusive j k x (hother j x hj hx) hs
      · exact absurd (hother j x hj hx) (hout.2 j)
    · exact h.exclusive j k x (hother j x hj hx) (hother k x hk hy)
  · by_cases hji : j = i
    · subst hji
      rcases hpend hj with hp | hnew
      · exact h.chain_nodup j hp
      · exact hnew.1
    · rw [ha.stage j hji] at hj
      exact h.chain_nodup j hj

/-- A step without effect on the stack writes only to what `i` brings. -/
theorem Inv.silent (h : Inv impl calls s) (hstage : ∀ j ≠ i, t.stage j = s.stage j)
    (horder : t.order = s.order) (hhead : t.head = s.head) (hupdates : t.updates = s.updates)
    (htag : t.tag = s.tag) (hlink : ∀ x, ¬Holds calls s i x → t.link x = s.link x)
    (hlock : ∀ j ≠ i, s.lock = some j → t.lock = some j) (hok : Ok impl calls t i)
    (hpend : (t.stage i).pending → (s.stage i).pending ∨
      (calls i).chain.Nodup ∧ ∀ x ∈ (calls i).chain, Out calls s x) : Inv impl calls t := by
  have hstack : ∀ x ∈ stackAfter calls s.order, t.link x = s.link x := fun x hx =>
    hlink x fun hi => h.apart i x hi hx
  have ha : Apart impl calls s t i := by
    refine ⟨hstage, .inl horder, fun j hj x hx => hlink x fun hi => ?_, hstack, hupdates.ge,
      fun _ => hhead, hlock, fun _ _ _ _ => hupdates⟩
    exact hj (h.exclusive j i x hx hi)
  refine h.of_apart ha hok ?_ ?_ ?_ (fun hcas => ?_) (fun x hx => .inl ?_) hpend
  · rw [horder, hhead]
    exact h.chain.congr hstack
  · exact horder ▸ h.nodup
  · exact horder ▸ h.order_nodup
  · rw [htag, hupdates]
    exact h.tag hcas
  · exact horder ▸ hx

theorem Inv.move {g : Stage E} (h : Inv impl calls s) (hok : Ok impl calls (s.setStage i g) i)
    (hpend : g.pending → (s.stage i).pending) : Inv impl calls (s.setStage i g) := by
  refine h.silent (fun j hj => Function.update_of_ne hj _ _) rfl rfl rfl rfl (fun _ _ => rfl)
    (fun _ _ => id) hok fun hp => .inl (hpend ?_)
  have hg : (s.setStage i g).stage i = g := Function.update_self _ _ _
  rwa [hg] at hp

/-- The step at which `i` takes effect. -/
theorem Inv.effect (h : Inv impl calls s) (hi : i ∉ s.order)
    (hstage : ∀ j ≠ i, t.stage j = s.stage j) (horder : t.order = s.order ++ [i])
    (hlink : t.link = s.link) (hlock : t.lock = s.lock)
    (hupdates : t.updates = s.updates + 1 ∧ (impl = .mutex → s.lock = some i) ∨
      t.updates = s.updates ∧ t.head = s.head)
    (htag : impl = .cas → t.tag = BitVec.ofNat 64 t.updates)
    (hchain : Chain s.link t.head ((calls i).effect (stackAfter calls s.order)) none)
    (hnodup : ((calls i).effect (stackAfter calls s.order)).Nodup)
    (hmem : ∀ x ∈ (calls i).effect (stackAfter calls s.order),
      x ∈ stackAfter calls s.order ∨ Holds calls s i x ∧ ¬(t.stage i).pending)
    (hok : Ok impl calls t i) (hpend : (t.stage i).pending → (s.stage i).pending) :
    Inv impl calls t := by
  have hle : s.updates ≤ t.updates := by omega
  have ha : Apart impl calls s t i := by
    refine ⟨hstage, .inr horder, fun _ _ _ _ => by rw [hlink], fun _ _ => by rw [hlink], hle,
      fun hu => ?_, fun _ _ => hlock.trans, fun hm j hj hl => ?_⟩
    · rcases hupdates with ⟨hup, -⟩ | ⟨-, hh⟩
      · omega
      · exact hh
    · rcases hupdates with ⟨-, hown⟩ | ⟨hup, -⟩
      · rw [hown hm] at hl
        exact absurd (Option.some.inj hl).symm hj
      · exact hup
  have hafter : stackAfter calls t.order = (calls i).effect (stackAfter calls s.order) := by
    rw [horder, stackAfter_append]
  refine h.of_apart ha hok ?_ ?_ ?_ htag ?_ fun hp => .inl (hpend hp)
  · rwa [hafter, hlink]
  · rwa [hafter]
  · rw [horder]
    exact List.nodup_append.2 ⟨h.order_nodup, List.nodup_singleton i, by
      rintro a ha b hb rfl
      exact hi (List.mem_singleton.1 hb ▸ ha)⟩
  · rwa [hafter]

/-- What a push makes of the stack, if its tail is linked to the head. -/
theorem Inv.pushed {front : List E} {tail : E} (h : Inv impl calls s)
    (hc : calls i = .push front tail) (hp : (s.stage i).pending) (hl : Linked calls s i s.head) :
    Chain s.link (front ++ [tail]).head? ((calls i).effect (stackAfter calls s.order)) none ∧
      ((calls i).effect (stackAfter calls s.order)).Nodup := by
  have heq : (calls i).effect (stackAfter calls s.order) =
      (calls i).chain ++ stackAfter calls s.order := by
    rw [hc]
    simp [Call.effect, Call.chain]
  rw [heq]
  refine ⟨?_, List.nodup_append.2 ⟨h.chain_nodup i hp, h.nodup, ?_⟩⟩
  · have happ := Chain.append hl h.chain
    rw [hc] at happ ⊢
    exact happ
  · rintro a ha b hb rfl
    exact h.apart i a ⟨hp, ha⟩ hb

theorem effect_mem (hx : x ∈ (calls i).effect l') : x ∈ l' ∨ x ∈ (calls i).chain := by
  cases hc : calls i with
  | push front tail =>
    rw [hc] at hx
    simp only [Call.effect, Call.chain, List.mem_append, List.mem_cons, List.not_mem_nil] at hx ⊢
    tauto
  | pop =>
    rw [hc] at hx
    exact .inl (List.mem_of_mem_tail hx)

@[simp] theorem setStage_stage {g : Stage E} : (s.setStage i g).stage i = g := Function.update_self _ _ _

theorem swing_tag {u : Nat} {v tag : BitVec 64} (hs : v = BitVec.ofNat 64 u) (hv : v = tag) :
    tag + 1 = BitVec.ofNat 64 (u + 1) := by
  rw [← hv, hs, BitVec.ofNat_add]
  rfl

/-- A tag that has not changed in time was not changed. -/
theorem tag_inj {a b : Nat} (h : BitVec.ofNat 64 a = BitVec.ofNat 64 b) (hle : a ≤ b)
    (hlt : b < a + 2 ^ 64) : b = a := by
  have hmod := congrArg BitVec.toNat h
  rw [BitVec.toNat_ofNat, BitVec.toNat_ofNat] at hmod
  omega

theorem inv_push (hi : Inv impl calls s) (hs : s.stage i = .idle) {front : List E} {tail : E}
    (hc : calls i = .push front tail) (hnodup : (front ++ [tail]).Nodup)
    (hlink : Chain s.link (front ++ [tail]).head? (front ++ [tail]) e)
    (hout : ∀ x ∈ front ++ [tail], Out calls s x) : Inv impl calls (s.setStage i .begun) := by
  have hok := hi.ok i
  simp only [Ok, hs] at hok
  refine hi.silent (fun j hj => Function.update_of_ne hj _ _) rfl rfl rfl rfl (fun _ _ => rfl)
    (fun _ _ => id) ?_ fun _ => .inr ?_
  · simp only [Ok, setStage_stage]
    refine ⟨hok, e, ?_⟩
    unfold Linked
    rw [hc]
    exact hlink
  · rw [hc]
    exact ⟨hnodup, hout⟩

/-- A pop brings nothing. -/
theorem linked_pop (hc : calls i = .pop) : Linked calls s i none := by
  unfold Linked
  rw [hc]
  rfl

/-- Writing the link of the tail. -/
theorem inv_link [DecidableEq E] {front : List E} {tail : E} {g : Stage E} {v : Option E}
    (hi : Inv impl calls s) (hc : calls i = .push front tail) (hp : (s.stage i).pending)
    (hl : Linked calls s i e)
    (hok : Linked calls ((s.write tail v).setStage i g) i v →
      Ok impl calls ((s.write tail v).setStage i g) i) :
    Inv impl calls ((s.write tail v).setStage i g) := by
  have hnodup := hi.chain_nodup i hp
  rw [hc] at hnodup
  refine hi.silent (fun j hj => Function.update_of_ne hj _ _) rfl rfl rfl rfl (fun x hx => ?_)
    (fun _ _ => id) (hok ?_) fun _ => .inl hp
  · refine Function.update_of_ne ?_ _ _
    rintro rfl
    exact hx ⟨hp, by rw [hc]; simp [Call.chain]⟩
  · unfold Linked at hl ⊢
    rw [hc] at hl ⊢
    refine Chain.redirect hl fun hmem => ?_
    simp only [Call.chain, List.nodup_append] at hnodup
    exact hnodup.2.2 tail hmem tail (by simp) rfl

theorem inv_pushEffect {front : List E} {tail : E} {tag : BitVec 64} {g : Stage E}
    (hi : Inv impl calls s) (hc : calls i = .push front tail) (hp : (s.stage i).pending)
    (hnot : i ∉ s.order) (hl : Linked calls s i s.head) (hlock : impl = .mutex → s.lock = some i)
    (htag : impl = .cas → tag = BitVec.ofNat 64 (s.updates + 1)) (hg : ¬g.pending)
    (hok : ∀ t : State E, t.lock = s.lock → t.stage i = g → Took calls t.order i none →
      Ok impl calls t i) :
    Inv impl calls ((s.swing i (front ++ [tail]).head? tag).setStage i g) := by
  obtain ⟨hchain, hnodup⟩ := hi.pushed hc hp hl
  refine hi.effect hnot (fun j hj => Function.update_of_ne hj _ _) rfl rfl rfl (.inl ⟨rfl, hlock⟩)
    htag hchain hnodup (fun x hx => ?_) (hok _ rfl setStage_stage ?_) fun h => ?_
  · rcases effect_mem hx with hold | hnew
    · exact .inl hold
    · refine .inr ⟨⟨hp, hnew⟩, ?_⟩
      rwa [setStage_stage]
  · have htook := @took_last _ calls i s.order
    rw [hc] at htook
    exact htook
  · rw [setStage_stage] at h
    exact absurd h hg

theorem inv_popEffect {tag : BitVec 64} {g : Stage E} {newhead : Option E}
    (hi : Inv impl calls s) (hc : calls i = .pop)
    (hnot : i ∉ s.order) (hx : s.head = some x) (hl : s.link x = newhead)
    (hlock : impl = .mutex → s.lock = some i)
    (htag : impl = .cas → tag = BitVec.ofNat 64 (s.updates + 1)) (hg : ¬g.pending)
    (hok : ∀ t : State E, t.lock = s.lock → t.stage i = g → Took calls t.order i (some x) →
      Ok impl calls t i) :
    Inv impl calls ((s.swing i newhead tag).setStage i g) := by
  obtain ⟨l, hstack, hchain⟩ := hi.popped hx
  have heffect : (calls i).effect (stackAfter calls s.order) = l := by
    rw [hc, hstack]
    rfl
  have hnodup := hi.nodup
  rw [hstack, List.nodup_cons] at hnodup
  refine hi.effect hnot (fun j hj => Function.update_of_ne hj _ _) rfl rfl rfl (.inl ⟨rfl, hlock⟩)
    htag ?_ ?_ (fun y hy => .inl ?_) (hok _ rfl setStage_stage ?_) fun h => ?_
  · rw [heffect, ← hl]
    exact hchain
  · exact heffect ▸ hnodup.2
  · rw [hstack]
    rw [heffect] at hy
    exact List.mem_cons_of_mem _ hy
  · have htook := @took_last _ calls i s.order
    rw [hc, hstack] at htook
    exact htook
  · rw [setStage_stage] at h
    exact absurd h hg

theorem inv_note {g : Stage E} (hi : Inv impl calls s) (hc : calls i = .pop) (hnot : i ∉ s.order)
    (hs : s.head = none) (hg : g.pending → (s.stage i).pending)
    (hok : ∀ t : State E, t.lock = s.lock → t.stage i = g → Took calls t.order i none →
      Ok impl calls t i) :
    Inv impl calls ((s.note i).setStage i g) := by
  have hempty := hi.empty hs
  have heffect : (calls i).effect (stackAfter calls s.order) = [] := by
    rw [hc, hempty]
    rfl
  refine hi.effect hnot (fun j hj => Function.update_of_ne hj _ _) rfl rfl rfl (.inr ⟨rfl, rfl⟩)
    (fun hcas => hi.tag hcas) ?_ ?_ (fun y hy => ?_) (hok _ rfl setStage_stage ?_) fun h => ?_
  · rw [heffect]
    exact hs
  · rw [heffect]
    exact List.nodup_nil
  · rw [heffect] at hy
    cases hy
  · have htook := @took_last _ calls i s.order
    rw [hc, hempty] at htook
    exact htook
  · rw [setStage_stage] at h
    exact hg h

theorem inv_unlock (hi : Inv impl calls s) (hs : s.stage i = .unlocking e) :
    Inv impl calls ((s.setLock none).setStage i (.done e)) := by
  have hok := hi.ok i
  simp only [Ok, hs] at hok
  refine hi.silent (fun j hj => Function.update_of_ne hj _ _) rfl rfl rfl rfl (fun _ _ => rfl)
    (fun j hj hl => ?_) ?_ fun h => ?_
  · rw [hok.2.1] at hl
    exact absurd (Option.some.inj hl).symm hj
  · simp only [Ok, setStage_stage]
    exact hok.2.2
  · rw [setStage_stage] at h
    exact h.elim

theorem inv_lock (hi : Inv impl calls s) (hm : impl = .mutex) (hs : s.stage i = .begun)
    (hfree : s.lock = none) : Inv impl calls ((s.setLock (some i)).setStage i .locked) := by
  have hok := hi.ok i
  simp only [Ok, hs] at hok
  refine hi.silent (fun j hj => Function.update_of_ne hj _ _) rfl rfl rfl rfl (fun _ _ => rfl)
    (fun j hj hl => ?_) ?_ fun _ => .inl ?_
  · rw [hfree] at hl
    cases hl
  · simp only [Ok, setStage_stage]
    exact ⟨hm, rfl, hok.1, hok.2⟩
  · rw [hs]
    trivial

/-- A write to an element that is not in use changes nothing for anyone. -/
theorem inv_write [DecidableEq E] (hi : Inv impl calls s) {v : Option E} (hx : Out calls s x) :
    Inv impl calls (s.write x v) := by
  have hstack : ∀ y ∈ stackAfter calls s.order, (s.write x v).link y = s.link y := by
    intro y hy
    refine Function.update_of_ne ?_ _ _
    rintro rfl
    exact hx.1 hy
  have ha : ∀ i, Apart impl calls s (s.write x v) i := by
    intro i
    refine ⟨fun _ _ => rfl, .inl rfl, fun j _ y hy => ?_, hstack, le_rfl, fun _ => rfl,
      fun _ _ => id, fun _ _ _ _ => rfl⟩
    refine Function.update_of_ne ?_ _ _
    rintro rfl
    exact hx.2 j hy
  exact ⟨fun j => (hi.ok j).apart hi (ha (j + 1)) (Nat.succ_ne_self j).symm,
    hi.chain.congr hstack, hi.nodup, hi.order_nodup, hi.tag, hi.apart, hi.exclusive, hi.chain_nodup⟩

theorem inv_step [DecidableEq E] {a : Action E} (h : TimelyStep impl calls s a t)
    (hi : Inv impl calls s) : Inv impl calls t := by
  obtain ⟨htimely, h⟩ := h
  cases h with
  | push hs hc hnodup hlink hout => exact inv_push hi hs hc hnodup hlink hout
  | @pop i hs hc =>
    have hok := hi.ok i
    simp only [Ok, hs] at hok
    refine hi.silent (fun j hj => Function.update_of_ne hj _ _) rfl rfl rfl rfl (fun _ _ => rfl)
      (fun _ _ => id) ?_ fun _ => .inr ?_
    · simp only [Ok, setStage_stage]
      exact ⟨hok, none, linked_pop hc⟩
    · rw [hc]
      exact ⟨List.nodup_nil, nofun⟩
  | @pushHead i front tail hcas hs hc =>
    have hok := hi.ok i
    simp only [Ok, hs] at hok
    refine hi.move ?_ fun _ => hs ▸ trivial
    simp only [Ok, setStage_stage]
    exact ⟨hcas, hok⟩
  | @pushTag i oldhead hs =>
    have hok := hi.ok i
    simp only [Ok, hs] at hok
    refine hi.move ?_ fun _ => hs ▸ trivial
    simp only [Ok, setStage_stage]
    exact hok
  | @pushLink i oldhead tag front tail hs hc =>
    have hok := hi.ok i
    simp only [Ok, hs] at hok
    obtain ⟨hcas, hnot, e, he⟩ := hok
    refine inv_link hi hc (hs ▸ trivial) he fun hl => ?_
    simp only [Ok, setStage_stage]
    exact ⟨hcas, hnot, hl⟩
  | @pushSwap i oldhead tag front tail hs hc hhead htag =>
    have hok := hi.ok i
    simp only [Ok, hs] at hok
    obtain ⟨hcas, hnot, he⟩ := hok
    refine inv_pushEffect hi hc (hs ▸ trivial) hnot (hhead ▸ he) (fun hm => ?_)
      (fun _ => swing_tag (hi.tag hcas) htag) id fun u _ hu htook => ?_
    · rw [hcas] at hm
      cases hm
    · simp only [Ok, hu]
      exact htook
  | @pushRetry i oldhead tag hs hne =>
    have hok := hi.ok i
    simp only [Ok, hs] at hok
    refine hi.move ?_ fun _ => hs ▸ trivial
    simp only [Ok, setStage_stage]
    exact ⟨hok.2.1, _, hok.2.2⟩
  | @popHead i x hcas hs hc hhead =>
    have hok := hi.ok i
    simp only [Ok, hs] at hok
    refine hi.move ?_ fun _ => hs ▸ trivial
    simp only [Ok, setStage_stage]
    exact ⟨hcas, hc, hok.1⟩
  | @popHeadNull i hcas hs hc hhead =>
    have hok := hi.ok i
    simp only [Ok, hs] at hok
    refine inv_note hi hc hok.1 hhead (fun _ => hs ▸ trivial) fun u _ hu htook => ?_
    simp only [Ok, hu]
    exact htook
  | @popTag i oldhead hs =>
    have hok := hi.ok i
    simp only [Ok, hs] at hok
    refine hi.move ?_ fun _ => hs ▸ trivial
    simp only [Ok, setStage_stage]
    cases oldhead with
    | none => exact hok
    | some x => exact ⟨hok.1, hok.2.1, hok.2.2, le_rfl, hi.tag hok.1⟩
  | @popBreak i tag since hs =>
    have hok := hi.ok i
    simp only [Ok, hs] at hok
    refine hi.move ?_ fun hd => hd.elim
    simp only [Ok, setStage_stage]
    exact hok
  | @popNext i oldhead tag since hs =>
    have hok := hi.ok i
    simp only [Ok, hs] at hok
    refine hi.move ?_ fun _ => hs ▸ trivial
    simp only [Ok, setStage_stage]
    exact ⟨hok.1, hok.2.1, hok.2.2.1, hok.2.2.2.1, hok.2.2.2.2, fun _ _ => rfl⟩
  | @popSwap i oldhead tag since newhead hs hhead htag =>
    have hok := hi.ok i
    simp only [Ok, hs] at hok
    obtain ⟨hcas, hc, hnot, hle, hold, hnext⟩ := hok
    -- The tag did not come round, so the head has not been set since the tag was read.
    have hsame : s.updates = since := by
      apply tag_inj _ hle (htimely i oldhead tag since newhead hs)
      rw [← hold, ← htag, hi.tag hcas]
    refine inv_popEffect hi hc hnot hhead (hnext hsame hhead) (fun hm => ?_)
      (fun _ => swing_tag (hi.tag hcas) htag) id fun u _ hu htook => ?_
    · rw [hcas] at hm
      cases hm
    · simp only [Ok, hu]
      exact htook
  | @popRetry i oldhead tag since newhead hs hne =>
    have hok := hi.ok i
    simp only [Ok, hs] at hok
    refine hi.move ?_ fun _ => hs ▸ trivial
    simp only [Ok, setStage_stage]
    exact ⟨hok.2.2.1, none, linked_pop hok.2.1⟩
  | lock hm hs hfree => exact inv_lock hi hm hs hfree
  | @pushWrite i front tail hs hc =>
    have hok := hi.ok i
    simp only [Ok, hs] at hok
    obtain ⟨hm, hlock, hnot, e, he⟩ := hok
    refine inv_link hi hc (hs ▸ trivial) he fun hl => ?_
    simp only [Ok, setStage_stage]
    exact ⟨hm, hlock, hnot, hl⟩
  | @pushSet i front tail hs hc =>
    have hok := hi.ok i
    simp only [Ok, hs] at hok
    obtain ⟨hm, hlock, hnot, he⟩ := hok
    refine inv_pushEffect hi hc (hs ▸ trivial) hnot he (fun _ => hlock)
      (fun hcas => ?_) id fun u hu hg htook => ?_
    · rw [hcas] at hm
      cases hm
    · simp only [Ok, hg]
      exact ⟨hm, hu.trans hlock, htook⟩
  | @popElem i hs hc =>
    have hok := hi.ok i
    simp only [Ok, hs] at hok
    refine hi.move ?_ fun _ => hs ▸ trivial
    simp only [Ok, setStage_stage]
    exact ⟨hok.1, hok.2.1, hok.2.2.1, hc, rfl⟩
  | @popNull i hs =>
    have hok := hi.ok i
    simp only [Ok, hs] at hok
    obtain ⟨hm, hlock, hnot, hc, hhead⟩ := hok
    refine inv_note hi hc hnot hhead (fun hd => hd.elim) fun u hu hg htook => ?_
    simp only [Ok, hg]
    exact ⟨hm, hu.trans hlock, htook⟩
  | @popFetch i elem hs =>
    have hok := hi.ok i
    simp only [Ok, hs] at hok
    refine hi.move ?_ fun _ => hs ▸ trivial
    simp only [Ok, setStage_stage]
    exact ⟨hok.1, hok.2.1, hok.2.2.1, hok.2.2.2.1, hok.2.2.2.2, rfl⟩
  | @popSet i elem next hs =>
    have hok := hi.ok i
    simp only [Ok, hs] at hok
    obtain ⟨hm, hlock, hnot, hc, hhead, hnext⟩ := hok
    refine inv_popEffect hi hc hnot hhead hnext (fun _ => hlock)
      (fun hcas => ?_) id fun u hu hg htook => ?_
    · rw [hcas] at hm
      cases hm
    · simp only [Ok, hg]
      exact ⟨hm, hu.trans hlock, htook⟩
  | unlock hs => exact inv_unlock hi hs
  | write hx => exact inv_write hi hx

theorem inv_initial {link : E → Option E} : Inv impl calls (initial link) := by
  have hnone : ∀ i x, ¬Holds calls (initial link) i x := fun i x h => h.1
  exact ⟨fun i => List.not_mem_nil, rfl, List.nodup_nil, List.nodup_nil, fun _ => rfl,
    fun i x h => absurd h (hnone i x), fun i _ x h => absurd h (hnone i x), fun i h => h.elim⟩

/-- A call takes effect while it is under way. -/
theorem order_step [DecidableEq E] {a : Action E} (h : Step impl calls s a t) :
    t.order = s.order ∨ ∃ i, (s.stage i).pending ∧ t.order = s.order ++ [i] := by
  cases h with
  | pushSwap hs => exact .inr ⟨_, hs ▸ trivial, rfl⟩
  | popHeadNull _ hs => exact .inr ⟨_, hs ▸ trivial, rfl⟩
  | popSwap hs => exact .inr ⟨_, hs ▸ trivial, rfl⟩
  | pushSet hs => exact .inr ⟨_, hs ▸ trivial, rfl⟩
  | popNull hs => exact .inr ⟨_, hs ▸ trivial, rfl⟩
  | popSet hs => exact .inr ⟨_, hs ▸ trivial, rfl⟩
  | _ => exact .inl rfl

/-- What was pushed was returned or is there, each as often. -/
theorem count_returned [DecidableEq E] (l' : List E) (order : List Nat) :
    (order.flatMap fun i => (calls i).chain).count x + l'.count x =
      (returned calls l' order).count x + (order.foldl (fun l i => (calls i).effect l) l').count x := by
  induction order generalizing l' with
  | nil => simp [returned]
  | cons i order ih =>
    have hcall : (calls i).chain.count x + l'.count x =
        ((calls i).result l').toList.count x + ((calls i).effect l').count x := by
      cases calls i with
      | push front tail =>
        simp only [Call.chain, Call.result, Call.effect, List.count_append, List.count_cons,
          List.count_nil, Option.toList]
        omega
      | pop =>
        cases l' with
        | nil => rfl
        | cons y l' =>
          simp only [Call.chain, Call.result, Call.effect, List.head?_cons, List.tail_cons,
            Option.toList, List.count_cons, List.count_nil]
          omega
    have hrest := ih ((calls i).effect l')
    simp only [List.flatMap_cons, returned, List.count_append, List.foldl_cons]
    omega

/-- What a call returns it has found when it took effect. -/
theorem Took.at_prefix {l l₃ : List Nat} (h : Took calls order i r) (hi : i ∉ l)
    (heq : l ++ i :: l₃ = order) (hnodup : order.Nodup) : r = (calls i).result (stackAfter calls l) := by
  obtain ⟨l₁, l₂, rfl, hr⟩ := h
  rw [← heq, List.nodup_append, List.nodup_cons] at hnodup
  have hsplit := (List.append_cons_inj_of_notMem hi hnodup.2.1.1).1 heq
  rw [hsplit.1]
  exact hr

section Runs
variable [DecidableEq E] {link : E → Option E} {X : Nat → State E} {A : Nat → Option (Action E)}
  {m n : Nat}

theorem inv_at (hX : Execution (TimelyStep impl calls) X A) (h0 : X 0 = initial link) (n : Nat) :
    Inv impl calls (X n) :=
  (hX.reachable n).invariant inv_step (h0 ▸ inv_initial)

theorem order_succ (hX : Execution (TimelyStep impl calls) X A) (n : Nat) :
    (X (n + 1)).order = (X n).order ∨
      ∃ i, ((X n).stage i).pending ∧ (X (n + 1)).order = (X n).order ++ [i] := by
  cases ha : A n with
  | none =>
    rw [hX.idle n ha]
    exact .inl rfl
  | some a => exact order_step (hX.step n a ha).2

theorem order_le (hX : Execution (TimelyStep impl calls) X A) (hmn : m ≤ n) :
    (X m).order <+: (X n).order := by
  induction n, hmn using Nat.le_induction with
  | base => exact List.prefix_rfl
  | succ n hmn ih =>
    rcases order_succ hX n with heq | ⟨i, -, heq⟩
    · rwa [heq]
    · rw [heq]
      exact ih.trans (List.prefix_append _ _)

/-- A call that was not among the effects and is now has joined them in between. -/
theorem effect_between (hX : Execution (TimelyStep impl calls) X A) (hmn : m ≤ n)
    (hm : i ∉ (X m).order) (hn : i ∈ (X n).order) :
    ∃ k, m ≤ k ∧ k < n ∧ i ∉ (X k).order ∧ ((X k).stage i).pending ∧
      (X (k + 1)).order = (X k).order ++ [i] := by
  induction n, hmn using Nat.le_induction with
  | base => exact absurd hn hm
  | succ n hmn ih =>
    by_cases hold : i ∈ (X n).order
    · obtain ⟨k, hk, hkn, hrest⟩ := ih hold
      exact ⟨k, hk, hkn.trans (Nat.lt_succ_self n), hrest⟩
    · refine ⟨n, hmn, Nat.lt_succ_self n, hold, ?_⟩
      rcases order_succ hX n with heq | ⟨j, hj, heq⟩
      · exact absurd (heq ▸ hn) hold
      · rw [heq, List.mem_append] at hn
        rcases hn with hn | hn
        · exact absurd hn hold
        · obtain rfl := List.mem_singleton.1 hn
          exact ⟨hj, heq⟩

/-- At each moment the LIFO holds, linked from its head, the stack that the calls that have taken effect
make one after the other, and what they pushed is either there or was returned, each element as often as
it was pushed. Every call takes effect at one moment between its begin and its return and returns what it
finds then; if it is a pop that returns `NULL`, the LIFO is empty at that moment. -/
theorem lifo_linearizable (hX : Execution (TimelyStep impl calls) X A) (h0 : X 0 = initial link) :
    (∀ n, Chain (X n).link (X n).head (stackAfter calls (X n).order) none ∧
      (stackAfter calls (X n).order).Nodup ∧ (X n).order.Nodup ∧
      ∀ x, ((X n).order.flatMap fun i => (calls i).chain).count x =
        (returned calls [] (X n).order).count x + (stackAfter calls (X n).order).count x) ∧
    (∀ m n, m ≤ n → (X m).order <+: (X n).order) ∧
    ∀ i m n r, m ≤ n → (X m).stage i = .idle → (X n).stage i = .done r →
      ∃ k, m ≤ k ∧ k < n ∧ ((X k).stage i).pending ∧ (X (k + 1)).order = (X k).order ++ [i] ∧
        r = (calls i).result (stackAfter calls (X k).order) ∧
        (calls i = .pop → r = none → (X k).head = none) := by
  have hinv := inv_at hX h0
  refine ⟨fun n => ⟨(hinv n).chain, (hinv n).nodup, (hinv n).order_nodup, fun x => ?_⟩,
    fun m n => order_le hX, fun i m n r hmn hm hn => ?_⟩
  · exact count_returned [] (X n).order
  · have hidle := (hinv m).ok i
    have hdone := (hinv n).ok i
    simp only [Ok, hm] at hidle
    simp only [Ok, hn] at hdone
    obtain ⟨k, hmk, hkn, hnot, hpend, hnext⟩ := effect_between hX hmn hidle hdone.mem
    obtain ⟨l₃, hl⟩ := order_le hX (Nat.succ_le_of_lt hkn)
    rw [hnext, List.append_assoc] at hl
    have hr := hdone.at_prefix hnot hl (hinv n).order_nodup
    refine ⟨k, hmk, hkn, hpend, hnext, hr, fun hpop hnull => ?_⟩
    rw [hpop, hnull] at hr
    have hempty := List.head?_eq_none_iff.1 hr.symm
    have hchain := (hinv k).chain
    rw [hempty] at hchain
    exact hchain

end Runs

/-- An element is pushed, and popped while another call has read the head and the link. -/
def contended : Nat → Call Nat
  | 1 => .push [1] 2
  | _ => .pop

theorem timely_of_lt (h : s.updates < 2 ^ 64) : Timely s :=
  fun _ _ _ _ _ _ => h.trans_le (Nat.le_add_left _ _)

theorem run_cons [DecidableEq E] {n : Nat} {a : Action E} {P : State E → Prop}
    (h : TimelyStep impl calls s a t)
    (hrest : ∃ xs u, Run (TimelyStep impl calls) t xs u ∧ xs.length = n ∧ P u) :
    ∃ xs u, Run (TimelyStep impl calls) s xs u ∧ xs.length = n + 1 ∧ P u := by
  obtain ⟨xs, u, hrun, hlen, hu⟩ := hrest
  exact ⟨a :: xs, u, .stepL h hrun, congrArg (· + 1) hlen, hu⟩

/-- The swap of the first call fails, and it begins again. -/
theorem lifo_linearizable_contended : ∃ X A, Execution (TimelyStep .cas contended) X A ∧
    X 0 = initial (fun x => if x = 1 then some 2 else none) ∧ (X 15).stage 0 = .begun ∧
    ∃ k, 0 ≤ k ∧ k < 15 ∧ ((X k).stage 2).pending ∧ (X (k + 1)).order = (X k).order ++ [2] ∧
      some 1 = (contended 2).result (stackAfter contended (X k).order) ∧
      (contended 2 = .pop → some 1 = none → (X k).head = none) := by
  have hrun : ∃ xs t, Run (TimelyStep .cas contended)
      (initial fun x => if x = 1 then some 2 else none) xs t ∧ xs.length = 15 ∧
      t.stage 0 = .begun ∧ t.stage 2 = .done (some 1) := by
    refine run_cons ⟨timely_of_lt (by decide), .push (i := 1) rfl rfl (by decide) ⟨rfl, rfl, rfl⟩
      fun x _ => ⟨nofun, fun _ h => h.1⟩⟩ ?_
    refine run_cons ⟨timely_of_lt (by decide), .pushHead (i := 1) rfl rfl rfl⟩ ?_
    refine run_cons ⟨timely_of_lt (by decide), .pushTag (i := 1) rfl⟩ ?_
    refine run_cons ⟨timely_of_lt (by decide), .pushLink (i := 1) rfl rfl⟩ ?_
    refine run_cons ⟨timely_of_lt (by decide), .pushSwap (i := 1) rfl rfl rfl rfl⟩ ?_
    refine run_cons ⟨timely_of_lt (by decide), .pop (i := 0) rfl rfl⟩ ?_
    refine run_cons ⟨timely_of_lt (by decide), .popHead (i := 0) rfl rfl rfl rfl⟩ ?_
    refine run_cons ⟨timely_of_lt (by decide), .popTag (i := 0) rfl⟩ ?_
    refine run_cons ⟨timely_of_lt (by decide), .popNext (i := 0) rfl⟩ ?_
    refine run_cons ⟨timely_of_lt (by decide), .pop (i := 2) rfl rfl⟩ ?_
    refine run_cons ⟨timely_of_lt (by decide), .popHead (i := 2) rfl rfl rfl rfl⟩ ?_
    refine run_cons ⟨timely_of_lt (by decide), .popTag (i := 2) rfl⟩ ?_
    refine run_cons ⟨timely_of_lt (by decide), .popNext (i := 2) rfl⟩ ?_
    refine run_cons ⟨timely_of_lt (by decide), .popSwap (i := 2) rfl rfl rfl⟩ ?_
    refine run_cons ⟨timely_of_lt (by decide), .popRetry (i := 0) rfl (by decide)⟩ ?_
    exact ⟨_, _, .refl, rfl, rfl, rfl⟩
  obtain ⟨xs, t, hrun, hlen, hbegun, hdone⟩ := hrun
  obtain ⟨X, A, hX, h0, hend⟩ := hrun.execution
  have h15 := hend 15 hlen.le
  refine ⟨X, A, hX, h0, h15 ▸ hbegun, ?_⟩
  exact (lifo_linearizable hX h0).2.2 2 0 15 (some 1) (Nat.zero_le _) (by rw [h0]; rfl)
    (h15 ▸ hdone)

end Gasnet.Lifo
