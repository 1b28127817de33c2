import Gasnet.Amudp.Network

/-! What each step changes, said once, and what every step keeps. -/
namespace Gasnet.Amudp

variable {Node : Type} {j : Job Node} {s t : State Node} {p q : Node} {i u : Nat} {b : Option Body}
  {m r : Packet Node} {o : Choice} {ws : List (Packet Node)} {es : List Event}

/-- A step that keeps every number: a descriptor is only freed where its request is returned. -/
structure Releasing (j : Job Node) (ws : List (Packet Node)) (es : List Event)
    (s t : State Node) : Prop where
  gen : ∀ p q i, (t.reqDesc p q i).gen = (s.reqDesc p q i).gen
  seqNum : ∀ p q i, (t.reqDesc p q i).seqNum = (s.reqDesc p q i).seqNum
  buffer : ∀ p q i, (t.reqDesc p q i).buffer = (s.reqDesc p q i).buffer ∨
    (t.reqDesc p q i).buffer = none ∧
      ∀ m, (s.reqDesc p q i).buffer = some m → Event.returned m.uid ∈ es
  rep : ∀ q p i, t.repDesc q p i = s.repDesc q p i
  issued : t.issued = s.issued
  fresh : s.fresh ≤ t.fresh
  wire : t.wire = ws ++ s.wire
  log : t.log = s.log ++ es
  events : ∀ e ∈ es, ∃ u, e = .returned u
  pending : ∀ p r, (t.ep p).pending = some r →
    r.desc = r.inst ∧ r.inst < (j.config p).depth ∧ (s.reqDesc p r.dst r.inst).buffer = none
  hint : ∀ p q, (t.ep p).hint q < (j.config p).depth

/-- A step that resends, returns or moves hints, and changes no descriptor. -/
def Quiet (j : Job Node) (ws : List (Packet Node)) (es : List Event) (s t : State Node) : Prop :=
  Releasing j ws es s t ∧ ∀ p q i, t.reqDesc p q i = s.reqDesc p q i

/-- A new request takes a free descriptor and its next number. -/
structure Issue (s t : State Node) (m : Packet Node) : Prop where
  new : m.uid = s.fresh
  isRequest : m.msg.isRequest = true
  system : m.msg.system = .user
  seqnum : m.msg.seqnum = m.gen % 64
  gen : m.gen = (s.reqDesc m.src m.dst m.msg.inst).gen
  free : (s.reqDesc m.src m.dst m.msg.inst).buffer = none
  self : t.reqDesc m.src m.dst m.msg.inst =
    { s.reqDesc m.src m.dst m.msg.inst with buffer := some m }
  other : ∀ p q i, (p, q, i) ≠ (m.src, m.dst, m.msg.inst) → t.reqDesc p q i = s.reqDesc p q i
  rep : ∀ q p i, t.repDesc q p i = s.repDesc q p i
  issued : t.issued = m :: s.issued
  fresh : t.fresh = s.fresh + 1
  wire : t.wire = m :: s.wire
  log : t.log = s.log
  pending : ∀ p, (t.ep p).pending = none ∨ p ≠ m.src ∧ (t.ep p).pending = (s.ep p).pending
  hint : ∀ p, (t.ep p).hint = (s.ep p).hint

/-- A request is executed and its reply is kept. -/
structure Accept (s t : State Node) (m r : Packet Node) (ws : List (Packet Node)) (o : Choice) :
    Prop where
  req : ∀ p q i, t.reqDesc p q i = s.reqDesc p q i
  self : t.repDesc m.dst m.src m.msg.inst =
    { (s.repDesc m.dst m.src m.msg.inst).advance with buffer := some r }
  other : ∀ q p i, (q, p, i) ≠ (m.dst, m.src, m.msg.inst) → t.repDesc q p i = s.repDesc q p i
  issued : t.issued = s.issued
  fresh : t.fresh = s.fresh
  wire : t.wire = ws ++ s.wire
  sent : ∀ x ∈ ws, x = r
  log : t.log = s.log ++ [.request m.uid o.reply]
  pending : ∀ p, (t.ep p).pending = (s.ep p).pending
  hint : ∀ p, (t.ep p).hint = (s.ep p).hint

/-- A request descriptor is freed and its number moves on. -/
structure Retire (s t : State Node) (p q : Node) (i : Nat) (es : List Event) : Prop where
  self : t.reqDesc p q i = { (s.reqDesc p q i).advance with buffer := none }
  other : ∀ p' q' i', (p', q', i') ≠ (p, q, i) → t.reqDesc p' q' i' = s.reqDesc p' q' i'
  rep : ∀ q p i, t.repDesc q p i = s.repDesc q p i
  issued : t.issued = s.issued
  fresh : t.fresh = s.fresh
  wire : t.wire = s.wire
  log : t.log = s.log ++ es
  pending : ∀ p, (t.ep p).pending = (s.ep p).pending
  hint : ∀ p' q', (t.ep p').hint q' = (s.ep p').hint q' ∨ p' = p ∧ (t.ep p').hint q' = i

/-- A request that was sent is not ahead of its instance. -/
structure SentInv (s : State Node) (m : Packet Node) : Prop where
  isRequest : m.msg.isRequest = true
  system : m.msg.system = .user
  seqnum : m.msg.seqnum = m.gen % 64
  uid : m.uid < s.fresh
  le : m.gen ≤ (s.reqDesc m.src m.dst m.msg.inst).gen

/-- What holds whether requests are refused, given up or neither. -/
structure Core (j : Job Node) (s : State Node) : Prop where
  reqSeq : ∀ p q i, (s.reqDesc p q i).seqNum = (s.reqDesc p q i).gen % 64
  repSeq : ∀ q p i, (s.repDesc q p i).seqNum = (s.repDesc q p i).gen % 64
  buffer : ∀ p q i m, (s.reqDesc p q i).buffer = some m →
    m ∈ s.issued ∧ m.src = p ∧ m.dst = q ∧ m.msg.inst = i ∧ m.gen = (s.reqDesc p q i).gen
  issued : ∀ m ∈ s.issued, SentInv s m
  uid : ∀ m ∈ s.issued, ∀ m' ∈ s.issued, m.uid = m'.uid → m = m'
  ran : ∀ u b, Event.request u b ∈ s.log → u < s.fresh ∧
    ∀ m ∈ s.issued, m.uid = u → m.gen < (s.repDesc m.dst m.src m.msg.inst).gen
  replied : ∀ u o b, Event.reply u o b ∈ s.log →
    o = u ∧ Event.request u (some b) ∈ s.log ∧ u < s.fresh ∧
      ∀ m ∈ s.issued, m.uid = u → m.gen < (s.reqDesc m.src m.dst m.msg.inst).gen
  ranOnce : ∀ u, s.log.countP (Event.isRequest u) ≤ 1
  repliedOnce : ∀ u, s.log.countP (Event.isReply u) ≤ 1
  pending : ∀ p r, (s.ep p).pending = some r →
    r.desc = r.inst ∧ r.inst < (j.config p).depth ∧ (s.reqDesc p r.dst r.inst).buffer = none
  hint : ∀ p q, (s.ep p).hint q < (j.config p).depth

theorem countP_snoc_le {f : Event → Bool} {l : List Event} {e : Event} (hl : l.countP f ≤ 1)
    (he : f e = true → ∀ x ∈ l, f x = false) : (l ++ [e]).countP f ≤ 1 := by
  rw [List.countP_append]
  by_cases hf : f e = true
  · have hz : l.countP f = 0 := List.countP_eq_zero.mpr fun x hx => by simp [he hf x hx]
    simp [hz, hf]
  · simpa [List.countP_cons, hf] using hl

theorem ranOnce_snoc {l : List Event} (hl : l.countP (Event.isRequest u) ≤ 1) {n : Nat}
    {reply : Option Body} (hn : ∀ b, Event.request n b ∉ l) :
    (l ++ [Event.request n reply]).countP (Event.isRequest u) ≤ 1 := by
  refine countP_snoc_le hl fun hu e he => ?_
  obtain rfl : n = u := by simpa [Event.isRequest] using hu
  cases e with
  | request v b =>
    simp only [Event.isRequest, decide_eq_false_iff_not]
    rintro rfl
    exact hn b he
  | reply | returned => rfl

theorem repliedOnce_snoc {l : List Event} (hl : l.countP (Event.isReply u) ≤ 1) {n v : Nat}
    {c : Body} (hn : ∀ v b, Event.reply n v b ∉ l) :
    (l ++ [Event.reply n v c]).countP (Event.isReply u) ≤ 1 := by
  refine countP_snoc_le hl fun hu e he => ?_
  obtain rfl : n = u := by simpa [Event.isReply] using hu
  cases e with
  | reply w v b =>
    simp only [Event.isReply, decide_eq_false_iff_not]
    rintro rfl
    exact hn v b he
  | request | returned => rfl

/-- Returns are no handlers. -/
theorem countP_returned {f : Event → Bool} {l : List Event} (hf : ∀ u, f (.returned u) = false)
    (hes : ∀ e ∈ es, ∃ u, e = .returned u) : (l ++ es).countP f = l.countP f := by
  have hz : es.countP f = 0 := by
    rw [List.countP_eq_zero]
    intro e he
    obtain ⟨u, rfl⟩ := hes e he
    simp [hf]
  rw [List.countP_append, hz, Nat.add_zero]

theorem mem_of_returned {l : List Event} {e : Event} (hes : ∀ e ∈ es, ∃ u, e = .returned u)
    (he : e ∈ l ++ es) (hne : ∀ u, e ≠ .returned u) : e ∈ l := by
  obtain he | he := List.mem_append.mp he
  · exact he
  · obtain ⟨u, rfl⟩ := hes e he
    exact absurd rfl (hne u)

theorem Releasing.grows (h : Releasing j ws es s t) : Grows s t :=
  ⟨fun m hm => h.issued ▸ hm, fun q p i => by rw [h.rep], fun e he => by simp [h.log, he]⟩

theorem Releasing.mem (h : Releasing j ws es s t) {e : Event} (he : e ∈ t.log)
    (hne : ∀ u, e ≠ .returned u) : e ∈ s.log :=
  mem_of_returned h.events (h.log ▸ he) hne

theorem Releasing.some (h : Releasing j ws es s t) (hm : (t.reqDesc p q i).buffer = some m) :
    (s.reqDesc p q i).buffer = some m := by
  obtain he | ⟨he, _⟩ := h.buffer p q i
  · rw [← he, hm]
  · simp [he] at hm

theorem Issue.grows (h : Issue s t m) : Grows s t :=
  ⟨fun x hx => by simp [h.issued, hx], fun q p i => by rw [h.rep], fun e he => h.log ▸ he⟩

theorem Issue.same (h : Issue s t m) : ∀ p q i, (t.reqDesc p q i).gen = (s.reqDesc p q i).gen ∧
    (t.reqDesc p q i).seqNum = (s.reqDesc p q i).seqNum := by
  refine cases_at m.src m.dst m.msg.inst ?_ fun p q i he => ?_
  · rw [h.self]
    exact ⟨rfl, rfl⟩
  · rw [h.other p q i he]
    exact ⟨rfl, rfl⟩

theorem Accept.rep (h : Accept s t m r ws o) :
    ∀ q p i, (s.repDesc q p i).gen ≤ (t.repDesc q p i).gen := by
  refine cases_at m.dst m.src m.msg.inst ?_ fun q p i he => ?_
  · rw [h.self]
    exact Nat.le_succ _
  · rw [h.other q p i he]

theorem Accept.grows (h : Accept s t m r ws o) : Grows s t :=
  ⟨fun x hx => h.issued ▸ hx, h.rep, fun e he => by simp [h.log, he]⟩

theorem Accept.lt (h : Accept s t m r ws o) (hgen : m.gen = (s.repDesc m.dst m.src m.msg.inst).gen) :
    m.gen < (t.repDesc m.dst m.src m.msg.inst).gen := by
  rw [h.self, hgen]
  exact Nat.lt_succ_self _

theorem Retire.grows (h : Retire s t p q i es) : Grows s t :=
  ⟨fun x hx => h.issued ▸ hx, fun q p i => by rw [h.rep], fun e he => by simp [h.log, he]⟩

theorem Retire.gen (h : Retire s t p q i es) :
    ∀ p' q' i', (s.reqDesc p' q' i').gen ≤ (t.reqDesc p' q' i').gen := by
  refine cases_at p q i ?_ fun p' q' i' he => ?_
  · rw [h.self]
    exact Nat.le_succ _
  · rw [h.other p' q' i' he]

/-- Only the number of the freed descriptor moves. -/
theorem Retire.eq_or (h : Retire s t p q i es) (p' q' : Node) (i' : Nat) :
    t.reqDesc p' q' i' = s.reqDesc p' q' i' ∨ (p' = p ∧ q' = q ∧ i' = i) ∧
      (t.reqDesc p' q' i').buffer = none ∧
      (t.reqDesc p' q' i').gen = (s.reqDesc p' q' i').gen + 1 := by
  by_cases he : (p', q', i') = (p, q, i)
  · obtain ⟨rfl, rfl, rfl⟩ : p' = p ∧ q' = q ∧ i' = i := by simpa using he
    right
    rw [h.self]
    exact ⟨⟨rfl, rfl, rfl⟩, rfl, rfl⟩
  · exact Or.inl (h.other p' q' i' he)

theorem core_releasing (hc : Core j s) (h : Releasing j ws es s t) : Core j t where
  reqSeq p q i := by rw [h.gen, h.seqNum]; exact hc.reqSeq p q i
  repSeq q p i := by rw [h.rep]; exact hc.repSeq q p i
  buffer p q i m hm := by
    rw [h.gen, h.issued]
    exact hc.buffer p q i m (h.some hm)
  issued m hm := by
    rw [h.issued] at hm
    have hi := hc.issued m hm
    exact ⟨hi.isRequest, hi.system, hi.seqnum, lt_of_lt_of_le hi.uid h.fresh, by
      rw [h.gen]; exact hi.le⟩
  uid := by simpa only [h.issued] using hc.uid
  ran u b hb := by
    obtain ⟨hu, hold⟩ := hc.ran u b (h.mem hb (by simp))
    refine ⟨lt_of_lt_of_le hu h.fresh, fun m hm hmu => ?_⟩
    rw [h.rep]
    exact hold m (h.issued ▸ hm) hmu
  replied u o b hb := by
    obtain ⟨ho, hran, hu, hold⟩ := hc.replied u o b (h.mem hb (by simp))
    refine ⟨ho, h.grows.log _ hran, lt_of_lt_of_le hu h.fresh, fun m hm hmu => ?_⟩
    rw [h.gen]
    exact hold m (h.issued ▸ hm) hmu
  ranOnce u := by rw [h.log, countP_returned (fun _ => rfl) h.events]; exact hc.ranOnce u
  repliedOnce u := by rw [h.log, countP_returned (fun _ => rfl) h.events]; exact hc.repliedOnce u
  pending p r hr := by
    obtain ⟨hd, hlt, hnone⟩ := h.pending p r hr
    refine ⟨hd, hlt, ?_⟩
    obtain he | ⟨he, _⟩ := h.buffer p r.dst r.inst
    · rw [he, hnone]
    · exact he
  hint := h.hint

theorem Issue.ne_uid (h : Issue s t m) (hc : Core j s) {x : Packet Node} (hx : x ∈ s.issued) :
    x.uid ≠ m.uid := by
  have hlt := (hc.issued x hx).uid
  have hnew := h.new
  omega

theorem core_issue (hc : Core j s) (h : Issue s t m) : Core j t where
  reqSeq p q i := by rw [(h.same p q i).1, (h.same p q i).2]; exact hc.reqSeq p q i
  repSeq q p i := by rw [h.rep]; exact hc.repSeq q p i
  buffer p q i x hx := by
    rw [(h.same p q i).1, h.issued]
    by_cases he : (p, q, i) = (m.src, m.dst, m.msg.inst)
    · obtain ⟨rfl, rfl, rfl⟩ : p = m.src ∧ q = m.dst ∧ i = m.msg.inst := by simpa using he
      rw [h.self] at hx
      obtain rfl := Option.some.inj hx
      exact ⟨List.mem_cons_self, rfl, rfl, rfl, h.gen⟩
    · rw [h.other p q i he] at hx
      obtain ⟨hx, hrest⟩ := hc.buffer p q i x hx
      exact ⟨List.mem_cons_of_mem _ hx, hrest⟩
  issued x hx := by
    rw [h.issued] at hx
    obtain rfl | hx := List.mem_cons.mp hx
    · have hnew := h.new
      have hfresh := h.fresh
      exact ⟨h.isRequest, h.system, h.seqnum, by omega, by rw [(h.same _ _ _).1]; exact h.gen.le⟩
    · have hi := hc.issued x hx
      exact ⟨hi.isRequest, hi.system, hi.seqnum, h.fresh ▸ Nat.lt_succ_of_lt hi.uid,
        by rw [(h.same _ _ _).1]; exact hi.le⟩
  uid x hx y hy he := by
    rw [h.issued] at hx hy
    obtain rfl | hx' := List.mem_cons.mp hx <;> obtain rfl | hy' := List.mem_cons.mp hy
    · rfl
    · exact absurd he.symm (h.ne_uid hc hy')
    · exact absurd he (h.ne_uid hc hx')
    · exact hc.uid x hx' y hy' he
  ran u b hu := by
    rw [h.log] at hu
    obtain ⟨hlt, hold⟩ := hc.ran u b hu
    refine ⟨h.fresh ▸ Nat.lt_succ_of_lt hlt, fun x hx hxu => ?_⟩
    rw [h.issued] at hx
    rw [h.rep]
    obtain rfl | hx := List.mem_cons.mp hx
    · have hnew := h.new
      omega
    · exact hold x hx hxu
  replied u v b hu := by
    rw [h.log] at hu ⊢
    obtain ⟨hv, hran, hlt, hold⟩ := hc.replied u v b hu
    refine ⟨hv, hran, h.fresh ▸ Nat.lt_succ_of_lt hlt, fun x hx hxu => ?_⟩
    rw [h.issued] at hx
    rw [(h.same _ _ _).1]
    obtain rfl | hx := List.mem_cons.mp hx
    · have hnew := h.new
      omega
    · exact hold x hx hxu
  ranOnce := by simpa only [h.log] using hc.ranOnce
  repliedOnce := by simpa only [h.log] using hc.repliedOnce
  pending p x hx := by
    obtain he | ⟨hne, he⟩ := h.pending p
    · simp [he] at hx
    · rw [he] at hx
      rw [h.other _ _ _ (by simp [hne])]
      exact hc.pending p x hx
  hint := by simpa only [h.hint] using hc.hint

theorem core_accept (hc : Core j s) (h : Accept s t m r ws o) (hm : m ∈ s.issued)
    (hgen : m.gen = (s.repDesc m.dst m.src m.msg.inst).gen) : Core j t where
  reqSeq := by simpa only [h.req] using hc.reqSeq
  repSeq := by
    refine cases_at m.dst m.src m.msg.inst ?_ fun q p i he => ?_
    · rw [h.self]
      simp only [Desc.advance, hc.repSeq, seqInc_mod]
    · rw [h.other q p i he]
      exact hc.repSeq q p i
  buffer := by simpa only [h.req, h.issued] using hc.buffer
  issued x hx := by
    rw [h.issued] at hx
    have hi := hc.issued x hx
    exact ⟨hi.isRequest, hi.system, hi.seqnum, h.fresh ▸ hi.uid, by rw [h.req]; exact hi.le⟩
  uid := by simpa only [h.issued] using hc.uid
  ran u b hu := by
    rw [h.log] at hu
    rw [h.issued, h.fresh]
    obtain hu | hu := List.mem_append.mp hu
    · obtain ⟨hlt, hold⟩ := hc.ran u b hu
      exact ⟨hlt, fun x hx hxu => lt_of_lt_of_le (hold x hx hxu) (h.rep _ _ _)⟩
    · obtain ⟨rfl, rfl⟩ : u = m.uid ∧ b = o.reply := by simpa using hu
      refine ⟨(hc.issued m hm).uid, fun x hx hxu => ?_⟩
      rw [hc.uid x hx m hm hxu]
      exact h.lt hgen
  replied u v b hu := by
    rw [h.log] at hu
    obtain hu | hu := List.mem_append.mp hu
    · obtain ⟨hv, hran, hlt, hold⟩ := hc.replied u v b hu
      refine ⟨hv, h.grows.log _ hran, h.fresh ▸ hlt, ?_⟩
      simpa only [h.req, h.issued] using hold
    · simp at hu
  ranOnce u := by
    rw [h.log]
    refine ranOnce_snoc (hc.ranOnce u) fun b hb => ?_
    have hlt := (hc.ran _ b hb).2 m hm rfl
    omega
  repliedOnce u := by
    rw [h.log]
    exact countP_snoc_le (hc.repliedOnce u) fun hu => by simp [Event.isReply] at hu
  pending := by simpa only [h.req, h.pending] using hc.pending
  hint := by simpa only [h.hint] using hc.hint

/-- The events of a descriptor that is freed: returns, or the handler of a reply to the request
of its number. -/
def Owed (s : State Node) (p q : Node) (i : Nat) (es : List Event) : Prop :=
  (∀ e ∈ es, ∃ u, e = .returned u) ∨ ∃ m r, ReplyTo s m r ∧ (p, q, i) = (m.src, m.dst, m.msg.inst) ∧
    m.gen = (s.reqDesc p q i).gen ∧ r.msg.system = .user ∧ es = [.reply m.uid r.uid r.msg.body]

theorem Owed.mem (ho : Owed s p q i es) (h : Retire s t p q i es) (hu : Event.request u b ∈ t.log) :
    Event.request u b ∈ s.log := by
  rw [h.log] at hu
  obtain hes | ⟨m, r, _, _, _, _, rfl⟩ := ho
  · exact mem_of_returned hes hu (by simp)
  · simpa using hu

theorem core_retire (hc : Core j s) (h : Retire s t p q i es) (hi : i < (j.config p).depth)
    (ho : Owed s p q i es) : Core j t where
  reqSeq := by
    refine cases_at p q i ?_ fun p q i he => ?_
    · rw [h.self]
      simp only [Desc.advance, hc.reqSeq, seqInc_mod]
    · rw [h.other p q i he]
      exact hc.reqSeq p q i
  repSeq := by simpa only [h.rep] using hc.repSeq
  buffer := by
    refine cases_at p q i (fun x hx => ?_) fun p q i he x hx => ?_
    · simp [h.self] at hx
    · rw [h.other p q i he] at hx ⊢
      rw [h.issued]
      exact hc.buffer p q i x hx
  issued x hx := by
    rw [h.issued] at hx
    have hi := hc.issued x hx
    exact ⟨hi.isRequest, hi.system, hi.seqnum, h.fresh ▸ hi.uid, hi.le.trans (h.gen _ _ _)⟩
  uid := by simpa only [h.issued] using hc.uid
  ran u b hu := by simpa only [h.rep, h.issued, h.fresh] using hc.ran u b (ho.mem h hu)
  replied u v b hu := by
    have hold : Event.reply u v b ∈ s.log → v = u ∧ Event.request u (some b) ∈ t.log ∧
        u < t.fresh ∧ ∀ m ∈ t.issued, m.uid = u → m.gen < (t.reqDesc m.src m.dst m.msg.inst).gen := by
      intro hu
      obtain ⟨hv, hran, hlt, hold⟩ := hc.replied u v b hu
      rw [h.issued, h.fresh]
      exact ⟨hv, h.grows.log _ hran, hlt, fun x hx hxu =>
        lt_of_lt_of_le (hold x hx hxu) (h.gen _ _ _)⟩
    rw [h.log] at hu
    obtain hes | ⟨m, r, hr, he, hgen, hsys, rfl⟩ := ho
    · exact hold (mem_of_returned hes hu (by simp))
    · obtain hu | hu := List.mem_append.mp hu
      · exact hold hu
      · obtain ⟨rfl, rfl, rfl⟩ : u = m.uid ∧ v = r.uid ∧ b = r.msg.body := by simpa using hu
        obtain ⟨rfl, rfl, rfl⟩ : p = m.src ∧ q = m.dst ∧ i = m.msg.inst := by simpa using he
        rw [h.issued, h.fresh]
        refine ⟨hr.uid, ?_, (hc.issued m hr.issued).uid, fun x hx hxu => ?_⟩
        · rw [← hr.uid]
          exact h.grows.log _ (hr.log hsys)
        · rw [hc.uid x hx m hr.issued hxu, h.self, hgen]
          exact Nat.lt_succ_self _
  ranOnce u := by
    rw [h.log]
    obtain hes | ⟨m, r, _, _, _, _, rfl⟩ := ho
    · rw [countP_returned (fun _ => rfl) hes]
      exact hc.ranOnce u
    · exact countP_snoc_le (hc.ranOnce u) fun hu => by simp [Event.isRequest] at hu
  repliedOnce u := by
    rw [h.log]
    obtain hes | ⟨m, r, hr, he, hgen, _, rfl⟩ := ho
    · rw [countP_returned (fun _ => rfl) hes]
      exact hc.repliedOnce u
    · refine repliedOnce_snoc (hc.repliedOnce u) fun v b hb => ?_
      obtain ⟨rfl, rfl, rfl⟩ : p = m.src ∧ q = m.dst ∧ i = m.msg.inst := by simpa using he
      exact absurd hgen ((hc.replied _ v b hb).2.2.2 m hr.issued rfl).ne
  pending p' x hx := by
    rw [h.pending] at hx
    obtain ⟨hd, hlt, hnone⟩ := hc.pending p' x hx
    refine ⟨hd, hlt, ?_⟩
    obtain he | ⟨_, he, _⟩ := h.eq_or p' x.dst x.inst
    · rw [he]
      exact hnone
    · exact he
  hint p' q' := by
    obtain he | ⟨rfl, he⟩ := h.hint p' q'
    · rw [he]
      exact hc.hint p' q'
    · rw [he]
      exact hi

theorem ranOnce_loopback {l : List Event} {n : Nat} (hl : l.countP (Event.isRequest u) ≤ 1)
    (hfresh : ∀ v b, Event.request v b ∈ l → v < n) (reply : Option Body) :
    (l ++ [Event.request n reply] ++ (reply.map (Event.reply n n)).toList).countP (Event.isRequest u) ≤ 1 := by
  have hone : (l ++ [Event.request n reply]).countP (Event.isRequest u) ≤ 1 :=
    ranOnce_snoc hl fun b hb => (hfresh n b hb).false
  cases reply with
  | none => simpa using hone
  | some b =>
    simpa using countP_snoc_le (e := .reply n n b) hone fun h => by simp [Event.isRequest] at h

theorem repliedOnce_loopback {l : List Event} {n : Nat} (hl : l.countP (Event.isReply u) ≤ 1)
    (hfresh : ∀ v o b, Event.reply v o b ∈ l → v < n) (reply : Option Body) :
    (l ++ [Event.request n reply] ++ (reply.map (Event.reply n n)).toList).countP (Event.isReply u) ≤ 1 := by
  have hone : (l ++ [Event.request n reply]).countP (Event.isReply u) ≤ 1 :=
    countP_snoc_le hl fun h => by simp [Event.isReply] at h
  cases reply with
  | none => simpa using hone
  | some b =>
    refine repliedOnce_snoc hone fun v c hc => ?_
    simp only [List.mem_append, List.mem_singleton, reduceCtorEq, or_false] at hc
    exact (hfresh n v c hc).false

theorem grows_loopback (s : State Node) (reply : Option Body) : Grows s (s.loopback reply) :=
  ⟨fun _ h => h, fun _ _ _ => le_rfl, fun e he => by simp [State.loopback, he]⟩

/-- Loopback handlers run under an identity of their own. -/
theorem core_loopback (hc : Core j s) (reply : Option Body) : Core j (s.loopback reply) := by
  have hmono := (grows_loopback s reply).log
  have hnone : ∀ m ∈ s.issued, m.uid ≠ s.fresh := fun m hm => ne_of_lt (hc.issued m hm).uid
  refine
    { hc with
      issued := fun m hm => ?_
      ran := fun u b hu => ?_
      replied := fun u v b hu => ?_
      ranOnce := fun u => ranOnce_loopback (hc.ranOnce u) (fun v b h => (hc.ran v b h).1) reply
      repliedOnce := fun u =>
        repliedOnce_loopback (hc.repliedOnce u) (fun v o b h => (hc.replied v o b h).2.2.1) reply }
  · have hi := hc.issued m hm
    exact ⟨hi.isRequest, hi.system, hi.seqnum, Nat.lt_succ_of_lt hi.uid, hi.le⟩
  · simp only [State.loopback, List.mem_append, List.mem_singleton] at hu
    obtain (hu | hu) | hu := hu
    · obtain ⟨hlt, hgen⟩ := hc.ran u b hu
      exact ⟨Nat.lt_succ_of_lt hlt, hgen⟩
    · obtain ⟨rfl, rfl⟩ : u = s.fresh ∧ b = reply := by simpa using hu
      exact ⟨Nat.lt_succ_self _, fun m hm he => absurd he (hnone m hm)⟩
    · cases reply <;> simp at hu
  · simp only [State.loopback, List.mem_append, List.mem_singleton] at hu
    obtain (hu | hu) | hu := hu
    · obtain ⟨hv, hran, hlt, hgen⟩ := hc.replied u v b hu
      exact ⟨hv, hmono _ hran, Nat.lt_succ_of_lt hlt, hgen⟩
    · simp at hu
    · cases reply with
      | none => simp at hu
      | some b' =>
        obtain ⟨rfl, rfl, rfl⟩ : u = s.fresh ∧ v = s.fresh ∧ b = b' := by simpa using hu
        exact ⟨rfl, by simp [State.loopback], Nat.lt_succ_self _,
          fun m hm he => absurd he (hnone m hm)⟩

/-! The effects of the steps. -/
variable [DecidableEq Node]

theorem ep_setEp (s : State Node) (p p' : Node) (ep : Endpoint Node) :
    (s.setEp p ep).ep p' = if p' = p then ep else s.ep p' := by
  simp [State.setEp, Function.update_apply]

theorem req_setReq (ep : Endpoint Node) (q : Node) (i : Nat) (d : Desc Node) (q' : Node)
    (i' : Nat) : (ep.setReq q i d).req q' i' = if q' = q ∧ i' = i then d else ep.req q' i' := by
  by_cases hq : q' = q
  · subst hq
    simp [Endpoint.setReq, Function.update_apply]
  · simp [Endpoint.setReq, hq]

theorem rep_setRep (ep : Endpoint Node) (q : Node) (i : Nat) (d : Desc Node) (q' : Node)
    (i' : Nat) : (ep.setRep q i d).rep q' i' = if q' = q ∧ i' = i then d else ep.rep q' i' := by
  by_cases hq : q' = q
  · subst hq
    simp [Endpoint.setRep, Function.update_apply]
  · simp [Endpoint.setRep, hq]

theorem hint_setHint (ep : Endpoint Node) (q : Node) (i : Nat) (q' : Node) :
    (ep.setHint q i).hint q' = if q' = q then i else ep.hint q' := by
  simp [Endpoint.setHint, Function.update_apply]

/-- A step of one endpoint that keeps its descriptors. -/
theorem quiet_local (p : Node) (hc : Core j s) (hep : ∀ p', p' ≠ p → t.ep p' = s.ep p')
    (hreq : ∀ q i, (t.ep p).req q i = (s.ep p).req q i)
    (hrep : ∀ q i, (t.ep p).rep q i = (s.ep p).rep q i)
    (hissued : t.issued = s.issued) (hfresh : s.fresh ≤ t.fresh)
    (hwire : t.wire = ws ++ s.wire) (hlog : t.log = s.log ++ es)
    (hes : ∀ e ∈ es, ∃ u, e = .returned u)
    (hpend : ∀ r, (t.ep p).pending = some r → (s.ep p).pending = some r ∨ r.desc = r.inst ∧
      r.inst < (j.config p).depth ∧ (s.reqDesc p r.dst r.inst).buffer = none)
    (hhint : ∀ q, (t.ep p).hint q < (j.config p).depth) : Quiet j ws es s t := by
  have hsame : ∀ p' q i, t.reqDesc p' q i = s.reqDesc p' q i := by
    intro p' q i
    by_cases hp : p' = p
    · subst hp
      exact hreq q i
    · rw [State.reqDesc, hep p' hp, State.reqDesc]
  refine ⟨⟨fun p' q i => by rw [hsame], fun p' q i => by rw [hsame],
    fun p' q i => Or.inl (by rw [hsame]), ?_, hissued, hfresh, hwire, hlog, hes, ?_, ?_⟩, hsame⟩
  · intro q p' i
    by_cases hp : q = p
    · subst hp
      exact hrep p' i
    · rw [State.repDesc, hep q hp, State.repDesc]
  · intro p' r hr
    by_cases hp : p' = p
    · subst hp
      exact (hpend r hr).elim (hc.pending p' r) id
    · rw [hep p' hp] at hr
      exact hc.pending p' r hr
  · intro p' q
    by_cases hp : p' = p
    · subst hp
      exact hhint q
    · rw [hep p' hp]
      exact hc.hint p' q

theorem quiet_acquire {a : Nat × Nat × Nat} {b : Body} (hc : Core j s)
    (ha : (s.ep p).acquire (j.config p).depth q = some a) :
    Quiet j [] [] s (s.acquire p q b a) := by
  obtain ⟨rfl, hnone⟩ := acquire_eq ha
  have hlt := hc.hint p q
  refine quiet_local p hc (fun p' hp => ?_) ?_ ?_ rfl le_rfl rfl
    (List.append_nil _).symm (by simp) ?_ ?_
  · simp [State.acquire, ep_setEp, hp]
  · simp [State.acquire, ep_setEp, Endpoint.setHint]
  · simp [State.acquire, ep_setEp, Endpoint.setHint]
  · intro r hr
    right
    simp only [State.acquire, ep_setEp, if_true] at hr
    obtain rfl := Option.some.inj hr
    exact ⟨rfl, hlt, hnone⟩
  · intro q'
    simp only [State.acquire, ep_setEp, if_true, hint_setHint]
    split
    · exact nextInst_lt hlt
    · exact hc.hint p q'

theorem quiet_sendFail {x : Pending Node} (hc : Core j s) (hx : (s.ep p).pending = some x) :
    Quiet j [] [] s (s.sendFail p x) := by
  obtain ⟨hdesc, hlt, hnone⟩ := hc.pending p x hx
  refine quiet_local p hc (fun p' hp => ?_) ?_ ?_ rfl le_rfl rfl
    (List.append_nil _).symm (by simp) ?_ ?_
  · simp [State.sendFail, ep_setEp, hp]
  · intro q i
    simp only [State.sendFail, ep_setEp, if_true, Endpoint.setHint, req_setReq]
    split
    · rename_i he
      obtain ⟨rfl, rfl⟩ := he
      rw [hdesc]
      exact (congrArg (fun b => { (s.ep p).req x.dst x.inst with buffer := b }) hnone).symm
    · rfl
  · simp [State.sendFail, ep_setEp, Endpoint.setHint, Endpoint.setReq]
  · simp [State.sendFail, ep_setEp]
  · intro q
    simp only [State.sendFail, ep_setEp, if_true, hint_setHint]
    split
    · exact hlt
    · exact hc.hint p q

theorem quiet_abandon (hc : Core j s) : Quiet j [] [] s (s.abandon p) := by
  refine quiet_local p hc (fun p' hp => ?_) ?_ ?_ rfl le_rfl rfl
    (List.append_nil _).symm (by simp) ?_ ?_
  · simp [State.abandon, ep_setEp, hp]
  · simp [State.abandon, ep_setEp]
  · simp [State.abandon, ep_setEp]
  · simp [State.abandon, ep_setEp]
  · simpa [State.abandon, ep_setEp] using hc.hint p

theorem quiet_retransmit (p : Node) (hc : Core j s) : Quiet j [m] [] s (s.retransmit m) :=
  quiet_local p hc (fun _ _ => rfl) (fun _ _ => rfl) (fun _ _ => rfl) rfl le_rfl rfl
    (List.append_nil _).symm (by simp) (fun _ => Or.inl) (hc.hint p)

theorem quiet_loopbackRefused (p : Node) (hc : Core j s) :
    Quiet j [] [.returned s.fresh] s s.loopbackRefused :=
  quiet_local p hc (fun _ _ => rfl) (fun _ _ => rfl) (fun _ _ => rfl) rfl
    (Nat.le_succ _) rfl rfl (by simp) (fun _ => Or.inl) (hc.hint p)

/-- The cases of a delivery in which no descriptor changes. -/
theorem quiet_deliver (hc : Core j s)
    (h : processPacket (j.config m.dst) (j.remoteTag m.dst m.src) (j.idHint m.dst)
      (s.ep m.dst) m o = (s.ep m.dst, ws, es))
    (hes : ∀ e ∈ es, ∃ u, e = .returned u) : Quiet j ws es s (s.deliver j m o) := by
  refine quiet_local m.dst hc (fun p' hp => ?_) ?_ ?_ rfl le_rfl ?_ ?_ hes ?_ ?_
  · simp [State.deliver, ep_setEp, hp]
  · simp [State.deliver, ep_setEp, h]
  · simp [State.deliver, ep_setEp, h]
  · simp [State.deliver, h]
  · simp [State.deliver, h]
  · intro r hr
    left
    simpa [State.deliver, ep_setEp, h] using hr
  · simpa [State.deliver, ep_setEp, h] using hc.hint m.dst

/-- A message that is refused goes back. -/
theorem quiet_refused {err : Nat} (hc : Core j s) (hsys : m.msg.system ≠ .returned)
    (hacc : (j.config m.dst).refuse m.msg = some err) :
    Quiet j [m.refused err] [] s (s.deliver j m o) :=
  quiet_deliver hc (by simp [processPacket, hsys, hacc]) (by simp)

/-- A returned reply is only reported. -/
theorem quiet_returned (hc : Core j s) (hsys : m.msg.system = .returned)
    (hreq : ¬m.msg.isRequest = true) : Quiet j [] [.returned m.uid] s (s.deliver j m o) :=
  quiet_deliver hc (by simp [processPacket, hsys, processReturned, hreq]) (by simp)

/-- Giving up frees the descriptor and logs the return. -/
theorem releasing_undeliverable (hc : Core j s) (hm : (s.reqDesc p q i).buffer = some m) :
    Releasing j [] [.returned m.uid] s (s.undeliverable p q i m) := by
  have hreq : ∀ p' q' i', (s.undeliverable p q i m).reqDesc p' q' i' =
      if p' = p ∧ q' = q ∧ i' = i then { s.reqDesc p q i with buffer := none }
      else s.reqDesc p' q' i' := by
    intro p' q' i'
    by_cases hp : p' = p
    · subst hp
      simp [State.undeliverable, State.reqDesc, ep_setEp, req_setReq]
    · simp [State.undeliverable, State.reqDesc, ep_setEp, hp]
  have hep : ∀ p', ((s.undeliverable p q i m).ep p').pending = (s.ep p').pending ∧
      ((s.undeliverable p q i m).ep p').hint = (s.ep p').hint := by
    intro p'
    by_cases hp : p' = p
    · subst hp
      simp [State.undeliverable, ep_setEp, Endpoint.setReq]
    · simp [State.undeliverable, ep_setEp, hp]
  have hnum : ∀ p' q' i', ((s.undeliverable p q i m).reqDesc p' q' i').gen =
      (s.reqDesc p' q' i').gen ∧ ((s.undeliverable p q i m).reqDesc p' q' i').seqNum =
      (s.reqDesc p' q' i').seqNum := by
    intro p' q' i'
    rw [hreq]
    split
    · rename_i he
      obtain ⟨rfl, rfl, rfl⟩ := he
      exact ⟨rfl, rfl⟩
    · exact ⟨rfl, rfl⟩
  refine ⟨fun p' q' i' => (hnum p' q' i').1, fun p' q' i' => (hnum p' q' i').2, ?_, ?_, rfl, le_rfl,
    rfl, rfl, by simp, fun p' r hr => ?_, fun p' q' => ?_⟩
  · intro p' q' i'
    rw [hreq]
    split
    · rename_i he
      obtain ⟨rfl, rfl, rfl⟩ := he
      refine Or.inr ⟨rfl, fun m' hm' => ?_⟩
      rw [hm] at hm'
      obtain rfl := Option.some.inj hm'
      exact List.mem_singleton_self _
    · exact Or.inl rfl
  · intro q' p' i'
    by_cases hp : q' = p
    · subst hp
      simp [State.undeliverable, State.repDesc, ep_setEp, Endpoint.setReq]
    · simp [State.undeliverable, State.repDesc, ep_setEp, hp]
  · rw [(hep p').1] at hr
    exact hc.pending p' r hr
  · rw [(hep p').2]
    exact hc.hint p' q'

omit [DecidableEq Node] in
theorem request_inst {x : Pending Node} (hc : Core j s) (hx : (s.ep p).pending = some x) :
    (s.request j p x).msg.inst = x.inst := by
  have hlt := (hc.pending p x hx).2.1
  have hdepth := (j.config p).depth_le
  exact packWord_div _ (by omega)

theorem issue_send {x : Pending Node} (hc : Core j s) (hx : (s.ep p).pending = some x) :
    Issue s (s.send j p x) (s.request j p x) := by
  obtain ⟨hdesc, hlt, hnone⟩ := hc.pending p x hx
  have hinst := request_inst hc hx
  have hseq := hc.reqSeq p x.dst x.inst
  refine ⟨rfl, rfl, rfl, ?_, ?_, ?_, ?_, ?_, ?_, rfl, rfl, rfl, rfl, ?_, ?_⟩
  · simp only [State.request, Msg.seqnum, packWord_mod, hdesc, State.reqDesc] at hseq ⊢
    omega
  · rw [hinst]
    simp [State.request, State.reqDesc, hdesc]
  · rw [hinst]
    exact hnone
  · rw [hinst]
    simp [State.send, State.reqDesc, State.request, ep_setEp, req_setReq, hdesc]
  · intro p' q i he
    rw [hinst] at he
    by_cases hp : p' = p
    · subst hp
      have hne : ¬ (q = x.dst ∧ i = x.inst) := by
        rintro ⟨rfl, rfl⟩
        exact he rfl
      simp [State.send, State.reqDesc, ep_setEp, req_setReq, hdesc, hne]
    · simp [State.send, State.reqDesc, ep_setEp, hp]
  · intro q p' i
    by_cases hp : q = p
    · subst hp
      simp [State.send, State.repDesc, ep_setEp, Endpoint.setReq]
    · simp [State.send, State.repDesc, ep_setEp, hp]
  · intro p'
    by_cases hp : p' = p
    · subst hp
      simp [State.send, ep_setEp]
    · simp [State.send, ep_setEp, State.request, hp]
  · intro p'
    by_cases hp : p' = p
    · subst hp
      simp [State.send, ep_setEp, Endpoint.setReq]
    · simp [State.send, ep_setEp, hp]

/-- An acceptable request with the expected number is executed; with another it is not. -/
theorem deliver_request (hc : Core j s) (hm : m ∈ s.issued)
    (haccept : (j.config m.dst).refuse m.msg = none) :
    if m.msg.seqnum = (s.repDesc m.dst m.src m.msg.inst).seqNum then
      ∃ ws, Accept s (s.deliver j m o) m
        (m.replyTo (j.remoteTag m.dst m.src) (j.idHint m.dst) o) ws o
    else ∃ ws, Quiet j ws [] s (s.deliver j m o) ∧
      ∀ r ∈ ws, (s.repDesc m.dst m.src m.msg.inst).buffer = some r := by
  have hi := hc.issued m hm
  have hproc : processPacket (j.config m.dst) (j.remoteTag m.dst m.src) (j.idHint m.dst)
      (s.ep m.dst) m o =
      processRequest (j.remoteTag m.dst m.src) (j.idHint m.dst) (s.ep m.dst) m o := by
    simp [processPacket, hi.system, haccept, hi.isRequest]
  unfold processRequest at hproc
  dsimp only at hproc
  split
  · rename_i hseq
    rw [if_neg (by simpa [State.repDesc] using hseq)] at hproc
    refine ⟨_, ?_, ?_, ?_, rfl, rfl, rfl, ?_, ?_, ?_, ?_⟩
    · intro p q i
      by_cases hp : p = m.dst
      · subst hp
        simp [State.deliver, State.reqDesc, ep_setEp, hproc, Endpoint.setRep]
      · simp [State.deliver, State.reqDesc, ep_setEp, hp]
    · simp only [State.deliver, State.repDesc, ep_setEp, if_true, hproc, rep_setRep, and_self]
    · intro q p i he
      by_cases hq : q = m.dst
      · subst hq
        have hne : ¬ (p = m.src ∧ i = m.msg.inst) := by
          rintro ⟨rfl, rfl⟩
          exact he rfl
        simp [State.deliver, State.repDesc, ep_setEp, hproc, rep_setRep, hne]
      · simp [State.deliver, State.repDesc, ep_setEp, hq]
    · rw [hproc]
      dsimp only
      split
      · simp
      · simp
    · simp [State.deliver, hproc]
    · intro p
      by_cases hp : p = m.dst
      · subst hp
        simp [State.deliver, ep_setEp, hproc, Endpoint.setRep]
      · simp [State.deliver, ep_setEp, hp]
    · intro p
      by_cases hp : p = m.dst
      · subst hp
        simp [State.deliver, ep_setEp, hproc, Endpoint.setRep]
      · simp [State.deliver, ep_setEp, hp]
  · rename_i hseq
    rw [if_pos (by simpa [State.repDesc] using hseq)] at hproc
    split at hproc
    · exact ⟨[], quiet_deliver hc hproc (by simp), by simp⟩
    · refine ⟨_, quiet_deliver hc hproc (by simp), fun r hr => ?_⟩
      split at hr
      · simpa [State.repDesc] using hr
      · simp at hr

/-- A delivery that completes a request descriptor. -/
theorem retire_deliver {e : Endpoint Node}
    (hproc : processPacket (j.config m.dst) (j.remoteTag m.dst m.src) (j.idHint m.dst)
      (s.ep m.dst) m o = (e, [], es))
    (hreq : e.req m.src m.msg.inst =
      { (s.reqDesc m.dst m.src m.msg.inst).advance with buffer := none })
    (hother : ∀ q i, ¬(q = m.src ∧ i = m.msg.inst) → e.req q i = (s.ep m.dst).req q i)
    (hrep : e.rep = (s.ep m.dst).rep) (hpend : e.pending = (s.ep m.dst).pending)
    (hhint : ∀ q, e.hint q = (s.ep m.dst).hint q ∨ e.hint q = m.msg.inst) :
    Retire s (s.deliver j m o) m.dst m.src m.msg.inst es := by
  refine ⟨?_, fun p q i he => ?_, fun q p i => ?_, rfl, rfl, ?_, ?_, fun p => ?_, fun p q => ?_⟩
  · simpa [State.deliver, State.reqDesc, ep_setEp, hproc] using hreq
  · by_cases hp : p = m.dst
    · subst hp
      have hne : ¬ (q = m.src ∧ i = m.msg.inst) := by
        rintro ⟨rfl, rfl⟩
        exact he rfl
      simpa [State.deliver, State.reqDesc, ep_setEp, hproc] using hother q i hne
    · simp [State.deliver, State.reqDesc, ep_setEp, hp]
  · by_cases hq : q = m.dst
    · subst hq
      simp [State.deliver, State.repDesc, ep_setEp, hproc, hrep]
    · simp [State.deliver, State.repDesc, ep_setEp, hq]
  · simp [State.deliver, hproc]
  · simp [State.deliver, hproc]
  · by_cases hp : p = m.dst
    · subst hp
      simp [State.deliver, ep_setEp, hproc, hpend]
    · simp [State.deliver, ep_setEp, hp]
  · by_cases hp : p = m.dst
    · subst hp
      simpa [State.deliver, ep_setEp, hproc] using hhint q
    · exact Or.inl (by simp [State.deliver, ep_setEp, hp])

theorem hint_complete (ep : Endpoint Node) (q q' : Node) (i : Nat) :
    (ep.complete q i).hint q' = ep.hint q' ∨ (ep.complete q i).hint q' = i := by
  simp only [Endpoint.complete, hint_setHint]
  split
  · exact Or.inr rfl
  · exact Or.inl rfl

theorem retire_complete
    (hproc : processPacket (j.config m.dst) (j.remoteTag m.dst m.src) (j.idHint m.dst)
      (s.ep m.dst) m o = ((s.ep m.dst).complete m.src m.msg.inst, [], es)) :
    Retire s (s.deliver j m o) m.dst m.src m.msg.inst es := by
  refine retire_deliver hproc ?_ (fun q i he => ?_) rfl rfl (hint_complete _ _ · _)
  · simp [Endpoint.complete, Endpoint.setHint, req_setReq, State.reqDesc]
  · simp [Endpoint.complete, Endpoint.setHint, req_setReq, he]

/-- An acceptable reply with the expected number ends the request that waits for it, if there is
one; with another number it is dropped. -/
theorem deliver_reply (hc : Core j s) (hreq : r.msg.isRequest = false)
    (hsys : r.msg.system ≠ .returned) (haccept : (j.config r.dst).refuse r.msg = none) :
    if r.msg.seqnum = (s.reqDesc r.dst r.src r.msg.inst).seqNum then
      ∃ es, Retire s (s.deliver j r o) r.dst r.src r.msg.inst es ∧
        (es = [] ∨ ∃ x, (s.reqDesc r.dst r.src r.msg.inst).buffer = some x ∧
          r.msg.system = .user ∧ es = [.reply x.uid r.uid r.msg.body])
    else Quiet j [] [] s (s.deliver j r o) := by
  have hproc : processPacket (j.config r.dst) (j.remoteTag r.dst r.src) (j.idHint r.dst)
      (s.ep r.dst) r o = processReply (s.ep r.dst) r := by
    simp [processPacket, hsys, haccept, hreq]
  unfold processReply at hproc
  dsimp only at hproc
  split
  · rename_i hseq
    rw [if_neg (by simpa [State.reqDesc] using hseq)] at hproc
    cases hbuf : ((s.ep r.dst).req r.src r.msg.inst).buffer with
    | none =>
      rw [hbuf] at hproc
      refine ⟨_, retire_deliver hproc ?_ (fun q i he => ?_) rfl rfl (fun _ => Or.inl rfl),
        Or.inl rfl⟩
      · simp [req_setReq, Desc.advance, State.reqDesc, hbuf]
      · simp [req_setReq, he]
    | some x =>
      rw [hbuf] at hproc
      refine ⟨_, retire_complete hproc, ?_⟩
      by_cases husr : r.msg.system = .user
      · exact Or.inr ⟨x, hbuf, husr, by simp [husr]⟩
      · exact Or.inl (by simp [husr])
  · rename_i hseq
    rw [if_pos (by simpa [State.reqDesc] using hseq)] at hproc
    exact quiet_deliver hc hproc (by simp)

end Gasnet.Amudp
