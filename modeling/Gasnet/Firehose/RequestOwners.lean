import Gasnet.Firehose.Request

/-! Every request has one use at a time: a call that stalls or has hit, a callback that has not been
run, or the client. What is free is in no use. -/
namespace Gasnet.Firehose.Pins

variable {Node : Type} {c : Params} {me q : Node} {s s' t : Pins Node}
  {r i : Handle} {u v : Use} {k p : Nat} {ph : Phase} {x : Request Node} {ureq : Option Handle}

structure Owned (s : Pins Node) : Prop where
  unique : ∀ {r u v}, s.Holds r u → s.Holds r v → u = v
  free : ∀ r ∈ s.freehead, ∀ u, ¬s.Holds r u
  freeNodup : s.freehead.Nodup
  unborn : ∀ i, requestAllocPeridx * s.bufidx ≤ i → .lib i ∉ s.freehead ∧ ∀ u, ¬s.Holds (.lib i) u
  userFree : ∀ i, .user i ∉ s.freehead
  userUsed : ∀ i u, s.Holds (.user i) u → (s.request (.user i)).fhreq = false
  givenNodup : s.given.Nodup

/-- The request is neither free nor yet to be allocated. -/
structure Taken (s : Pins Node) (r : Handle) : Prop where
  notFree : r ∉ s.freehead
  born : ∀ i, r = .lib i → i < requestAllocPeridx * s.bufidx
  user : ∀ i, r = .user i → (s.request r).fhreq = false

theorem owned_initial : Owned (initial me) := by
  constructor
  · intro r u v hu
    cases u <;> simp [initial, Holds, ccbs] at hu
  · simp [initial]
  · simp [initial]
  · refine fun i _ => ⟨by simp [initial], fun u hu => ?_⟩
    cases u <;> simp [initial, Holds, ccbs] at hu
  · simp [initial]
  · intro i u hu
    rfl
  · simp [initial]

theorem Owned.taken (h : Owned s) (hr : s.Holds r u) : Taken s r where
  notFree hf := h.free r hf u hr
  born i hi := by
    subst hi
    exact Nat.lt_of_not_le fun hle => (h.unborn i hle).2 u hr
  user i hi := by
    subst hi
    exact h.userUsed i u hr

/-- Nothing comes into use. -/
theorem Owned.mono (h : Owned s) (hm : ∀ i v, t.Holds i v → s.Holds i v)
    (hfree : t.freehead = s.freehead) (hidx : t.bufidx = s.bufidx) (hgiven : t.given.Nodup)
    (hfh : ∀ i, (t.request i).fhreq = (s.request i).fhreq) : Owned t where
  unique hu hv := h.unique (hm _ _ hu) (hm _ _ hv)
  free i hi v hv := h.free i (hfree ▸ hi) v (hm _ _ hv)
  freeNodup := hfree ▸ h.freeNodup
  unborn i hi := by
    obtain ⟨hnot, huse⟩ := h.unborn i (hidx ▸ hi)
    exact ⟨hfree ▸ hnot, fun v hv => huse v (hm _ _ hv)⟩
  userFree := hfree ▸ h.userFree
  userUsed i v hv := (hfh _).trans (h.userUsed i v (hm _ _ hv))
  givenNodup := hgiven

/-- One request comes into another use. -/
theorem Owned.change (h : Owned s) (hr : Taken s r)
    (hm : ∀ i v, t.Holds i v → i = r ∧ v = u ∨ i ≠ r ∧ s.Holds i v)
    (hfree : t.freehead = s.freehead) (hidx : t.bufidx = s.bufidx) (hgiven : t.given.Nodup)
    (hfh : ∀ i, (t.request i).fhreq = (s.request i).fhreq) : Owned t where
  unique {i _ _} hu hv := by
    rcases hm _ _ hu with ⟨rfl, rfl⟩ | ⟨hne, hu⟩
    · rcases hm _ _ hv with ⟨_, rfl⟩ | ⟨hne, _⟩
      · rfl
      · exact absurd rfl hne
    · rcases hm _ _ hv with ⟨heq, _⟩ | ⟨_, hv⟩
      · exact absurd heq hne
      · exact h.unique hu hv
  free i hi v hv := by
    rw [hfree] at hi
    rcases hm _ _ hv with ⟨rfl, _⟩ | ⟨_, hv⟩
    · exact hr.notFree hi
    · exact h.free i hi v hv
  freeNodup := hfree ▸ h.freeNodup
  unborn i hi := by
    rw [hidx] at hi
    obtain ⟨hnot, huse⟩ := h.unborn i hi
    refine ⟨hfree ▸ hnot, fun v hv => ?_⟩
    rcases hm _ _ hv with ⟨heq, _⟩ | ⟨_, hv⟩
    · exact absurd (hr.born i heq.symm) (by omega)
    · exact huse v hv
  userFree := hfree ▸ h.userFree
  userUsed i v hv := by
    rw [hfh]
    rcases hm _ _ hv with ⟨heq, _⟩ | ⟨_, hv⟩
    · exact heq ▸ hr.user i heq.symm
    · exact h.userUsed i v hv
  givenNodup := hgiven

theorem holds_congr (hphase : ∀ k, (t.call k).phase = (s.call k).phase) (hccbs : t.ccbs = s.ccbs)
    (hgiven : t.given = s.given) : t.Holds i v ↔ s.Holds i v := by
  cases v <;> simp only [Holds, hphase, hccbs, hgiven]

theorem holds_setPeer [DecidableEq Node] {y : Peer} : (s.setPeer q y).Holds i v ↔ s.Holds i v :=
  holds_congr (fun _ => rfl) rfl rfl

theorem holds_setRequest : (s.setRequest r x).Holds i v ↔ s.Holds i v :=
  holds_congr (fun _ => rfl) rfl rfl

theorem phase_setPhase {j : Nat} :
    ((s.setPhase k ph).call j).phase = if j = k then ph else (s.call j).phase := by
  by_cases hj : j = k
  · subst hj
    simp [setPhase]
  · simp [setPhase, hj]

/-- What the thread of `k` does is all that a new phase changes. -/
theorem holds_setPhase (h : (s.setPhase k ph).Holds i v) :
    v = .stalled k ∧ ph = .stalled i ∨ v = .hit k ∧ ph = .check i true ∨
      v ≠ .stalled k ∧ v ≠ .hit k ∧ s.Holds i v := by
  cases v with
  | stalled j =>
    simp only [Holds, phase_setPhase] at h
    split at h
    · rename_i hj
      exact Or.inl ⟨congrArg _ hj, h⟩
    · rename_i hj
      exact Or.inr (Or.inr ⟨fun he => hj (Use.stalled.inj he), nofun, h⟩)
  | hit j =>
    simp only [Holds, phase_setPhase] at h
    split at h
    · rename_i hj
      exact Or.inr (Or.inl ⟨congrArg _ hj, h⟩)
    · rename_i hj
      exact Or.inr (Or.inr ⟨nofun, fun he => hj (Use.hit.inj he), h⟩)
  | ccb j => exact Or.inr (Or.inr ⟨nofun, nofun, h⟩)
  | given => exact Or.inr (Or.inr ⟨nofun, nofun, h⟩)

theorem holds_hangCallback (h : (s.hangCallback k r p).Holds i v) :
    i = r ∧ v = .ccb k ∨ s.Holds i v := by
  cases v with
  | ccb j =>
    have hmem : (⟨j, i⟩ : Ccb) ∈ (⟨k, r⟩ : Ccb) :: s.ccbs := h
    rcases List.mem_cons.1 hmem with heq | hmem
    · cases heq
      exact Or.inl ⟨rfl, rfl⟩
    · exact Or.inr hmem
  | stalled j => exact Or.inr h
  | hit j => exact Or.inr h
  | given => exact Or.inr h

theorem holds_deliver [DecidableEq Node] {b : Bool} (h : (s.deliver k r b).Holds i v) :
    i = r ∧ v = .given ∨ s.Holds i v := by
  cases v with
  | given =>
    rcases List.mem_cons.1 h with rfl | hmem
    · exact Or.inl ⟨rfl, rfl⟩
    · exact Or.inr hmem
  | stalled j => exact Or.inr h
  | hit j => exact Or.inr h
  | ccb j => exact Or.inr h

/-- A request just taken is in no use, and its flags are cleared. -/
structure Loose (s : Pins Node) (r : Handle) : Prop extends Taken s r where
  unused : ∀ u, ¬s.Holds r u
  unpinned : (s.request r).pinned = false
  empty : (s.request r).internal = none

/-- What `fh_request_new` leaves alone. -/
structure OnlyRequest (s s' : Pins Node) (r : Handle) : Prop where
  peer : s'.peer = s.peer
  call : s'.call = s.call
  hung : s'.hung = s.hung
  inFlight : s'.inFlight = s.inFlight
  callbacks : s'.callbacks = s.callbacks
  given : s'.given = s.given
  log : s'.log = s.log
  request : ∀ i ≠ r, s'.request i = s.request i

theorem OnlyRequest.holds (h : OnlyRequest s s' r) : s'.Holds i v ↔ s.Holds i v :=
  holds_congr (fun k => by rw [h.call]) (by rw [ccbs, ccbs, h.hung, h.callbacks]) h.given

/-- Memory that is in no use may be written. -/
theorem Owned.setRequest (h : Owned s) (hr : ∀ u, ¬s.Holds r u) : Owned (s.setRequest r x) where
  unique hu hv := h.unique (holds_setRequest.1 hu) (holds_setRequest.1 hv)
  free i hi u hu := h.free i hi u (holds_setRequest.1 hu)
  freeNodup := h.freeNodup
  unborn i hi := ⟨(h.unborn i hi).1, fun u hu => (h.unborn i hi).2 u (holds_setRequest.1 hu)⟩
  userFree := h.userFree
  userUsed i u hu := by
    have hne : Handle.user i ≠ r := fun he => hr u (he ▸ holds_setRequest.1 hu)
    rw [show (s.setRequest r x).request (.user i) = s.request (.user i) from
      Function.update_of_ne hne _ _]
    exact h.userUsed i u (holds_setRequest.1 hu)
  givenNodup := h.givenNodup

/-- What the freelist holds may change. -/
theorem Owned.setFree (h : Owned s) {f : List Handle} {n : Nat} (hf : f.Nodup)
    (hfree : ∀ i ∈ f, ∀ u, ¬s.Holds i u)
    (hborn : ∀ i, requestAllocPeridx * n ≤ i → .lib i ∉ f ∧ ∀ u, ¬s.Holds (.lib i) u)
    (huser : ∀ i, .user i ∉ f) : Owned { s with freehead := f, bufidx := n } :=
  ⟨h.unique, hfree, hf, hborn, huser, h.userUsed, h.givenNodup⟩

theorem loose_setRequest {b : Bool} (hfree : r ∉ s.freehead)
    (hborn : ∀ i, r = .lib i → i < requestAllocPeridx * s.bufidx)
    (huser : ∀ i, r = .user i → b = false) (hr : ∀ u, ¬s.Holds r u) :
    Loose (s.setRequest r (clear b x)) r := by
  have hself : (s.setRequest r (clear b x)).request r = clear b x := Function.update_self ..
  refine ⟨⟨hfree, hborn, fun i hi => ?_⟩, fun u hu => hr u (holds_setRequest.1 hu), ?_, ?_⟩
  · rw [hself]
    exact huser i hi
  · rw [hself]
    rfl
  · rw [hself]
    rfl

theorem onlyRequest_setRequest {f : List Handle} {n : Nat} :
    OnlyRequest s ({ s with freehead := f, bufidx := n }.setRequest r x) r :=
  ⟨rfl, rfl, rfl, rfl, rfl, rfl, rfl, fun _ hi => Function.update_of_ne hi _ _⟩

theorem requestNew_spec (h : Owned s) (hu : s.MayPass ureq)
    (hr : s.requestNew ureq = some (r, s')) : Owned s' ∧ Loose s' r ∧ OnlyRequest s s' r := by
  unfold requestNew at hr
  cases ureq with
  | some j =>
    obtain ⟨rfl, rfl⟩ := Prod.mk.inj (Option.some.inj hr)
    obtain ⟨⟨i, rfl⟩, hunused⟩ := hu j rfl
    exact ⟨h.setRequest hunused, loose_setRequest (h.userFree i) nofun (fun _ _ => rfl) hunused,
      onlyRequest_setRequest⟩
  | none =>
    simp only at hr
    cases hfree : s.freehead with
    | cons j rest =>
      rw [hfree] at hr
      obtain ⟨rfl, rfl⟩ := Prod.mk.inj (Option.some.inj hr)
      have hmem : j ∈ s.freehead := hfree ▸ List.mem_cons_self
      have hsub : ∀ i ∈ rest, i ∈ s.freehead := fun i hi => hfree ▸ List.mem_cons_of_mem _ hi
      obtain ⟨hj, hrest⟩ := List.nodup_cons.1 (hfree ▸ h.freeNodup)
      have hset : Owned { s with freehead := rest, bufidx := s.bufidx } :=
        h.setFree hrest (fun i hi => h.free i (hsub i hi))
          (fun i hi => ⟨fun hm => (h.unborn i hi).1 (hsub _ hm), (h.unborn i hi).2⟩)
          fun i hi => h.userFree i (hsub _ hi)
      have hunused : ∀ u, ¬s.Holds j u := h.free j hmem
      refine ⟨hset.setRequest hunused, loose_setRequest hj (fun i hi => ?_) (fun i hi => ?_) hunused,
        onlyRequest_setRequest⟩
      · subst hi
        exact Nat.lt_of_not_le fun hle => (h.unborn i hle).1 hmem
      · subst hi
        exact absurd hmem (h.userFree i)
    | nil =>
      rw [hfree] at hr
      simp only at hr
      split at hr
      · cases hr
      · obtain ⟨rfl, rfl⟩ := Prod.mk.inj (Option.some.inj hr)
        have hmem : ∀ {i : Nat}, Handle.lib i ∈ (List.range (requestAllocPeridx - 1)).map
            (fun j => Handle.lib (requestAllocPeridx * s.bufidx + (j + 1))) →
            requestAllocPeridx * s.bufidx < i ∧ i < requestAllocPeridx * (s.bufidx + 1) := by
          intro i hi
          obtain ⟨j, hj, he⟩ := List.mem_map.1 hi
          have hj := List.mem_range.1 hj
          cases he
          rw [Nat.mul_add]
          omega
        have hnew : ∀ i, requestAllocPeridx * s.bufidx ≤ i → ∀ u, ¬s.Holds (.lib i) u :=
          fun i hi => (h.unborn i hi).2
        have hset := h.setFree (n := s.bufidx + 1)
          (f := (List.range (requestAllocPeridx - 1)).map
            fun j => Handle.lib (requestAllocPeridx * s.bufidx + (j + 1))) ?_ ?_ ?_ ?_
        · refine ⟨hset.setRequest (hnew _ le_rfl), loose_setRequest ?_ ?_ nofun (hnew _ le_rfl),
            onlyRequest_setRequest⟩
          · exact fun hm => absurd (hmem hm).1 (Nat.lt_irrefl _)
          · intro i hi
            cases hi
            simp only [requestAllocPeridx]
            omega
        · refine List.nodup_range.map fun a b hab => ?_
          have := Handle.lib.inj hab
          omega
        · intro i hi
          obtain ⟨j, _, rfl⟩ := List.mem_map.1 hi
          exact hnew _ (Nat.le_add_right _ _)
        · refine fun i hi => ⟨fun hm => ?_, hnew i ?_⟩
          · have := (hmem hm).2
            omega
          · rw [Nat.mul_add] at hi
            omega
        · intro i hi
          obtain ⟨j, _, he⟩ := List.mem_map.1 hi
          cases he

end Gasnet.Firehose.Pins
