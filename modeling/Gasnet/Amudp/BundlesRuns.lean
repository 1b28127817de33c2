import Gasnet.Amudp.Bundles

/-! Where endpoints and bundles are kept over a run, and what the freeing loops leave. -/
namespace Gasnet.Bundles

variable {s s' : State} {b b' : Eb} {e : Ep} {debug : Bool} {release : Ep → Bool}

/-! ### What holds between calls -/

/-- The lists of the bundles. -/
structure Lists (s : State) : Prop where
  nodup : ∀ b, (s.endpoints b).Nodup
  names : ∀ b e, e ∈ s.endpoints b → s.ep e = some ⟨some b⟩
  room : ∀ b bundle, s.eb b = some bundle →
    0 < bundle.cursize ∧ bundle.endpoints.length ≤ bundle.cursize

/-- The list of all bundles. -/
structure Listed (s : State) : Prop where
  nodup : s.bundles.Nodup
  live : ∀ b, b ∈ s.bundles ↔ s.eb b ≠ none
  bound : s.bundles.length ≤ MAX_BUNDLES - 1
  idle : s.amx_Initialized = 0 → s.bundles = []
  running : s.aborted = false

def Homed (s : State) (e : Ep) : Prop := ∀ p, s.ep e = some p → ∃ b, p.eb = some b ∧ e ∈ s.endpoints b

structure Inv (s : State) : Prop where
  lists : Lists s
  listed : Listed s
  homed : ∀ e, Homed s e

theorem endpoints_none (h : s.eb b = none) : s.endpoints b = [] := by rw [State.endpoints, h]

theorem endpoints_some {bundle : Bundle} (h : s.eb b = some bundle) : s.endpoints b = bundle.endpoints := by
  rw [State.endpoints, h]

theorem endpoints_congr (h : s'.eb b = s.eb b) : s'.endpoints b = s.endpoints b := by
  rw [State.endpoints, State.endpoints, h]

theorem live_of_mem (h : e ∈ s.endpoints b) : s.eb b ≠ none := by
  intro hb
  rw [endpoints_none hb] at h
  cases h

theorem Lists.unique (h : Lists s) (he : e ∈ s.endpoints b) (he' : e ∈ s.endpoints b') : b' = b := by
  have hname := h.names b e he
  rw [h.names b' e he'] at hname
  cases hname
  rfl

theorem Listed.congr (h : Listed s) (hbundles : s'.bundles = s.bundles)
    (hlive : ∀ b, s'.eb b = none ↔ s.eb b = none) (hinit : s'.amx_Initialized = s.amx_Initialized)
    (haborted : s'.aborted = s.aborted) : Listed s' where
  nodup := hbundles ▸ h.nodup
  live b := by
    rw [hbundles, h.live b]
    exact (not_congr (hlive b)).symm
  bound := hbundles ▸ h.bound
  idle h0 := by
    rw [hbundles]
    exact h.idle (hinit ▸ h0)
  running := haborted ▸ h.running

theorem inv_initial : Inv initial where
  lists := ⟨fun _ => List.nodup_nil, nofun, nofun⟩
  listed := ⟨List.nodup_nil, fun _ => ⟨nofun, fun h => absurd rfl h⟩, Nat.zero_le _, fun _ => rfl, rfl⟩
  homed _ _ := nofun

/-- A live bundle is there only between the first call and the last. -/
theorem Inv.initialized (h : Inv s) (hb : s.eb b ≠ none) : s.amx_Initialized ≠ 0 := by
  intro h0
  have hmem := (h.listed.live b).mpr hb
  rw [h.listed.idle h0] at hmem
  cases hmem

/-! ### Endpoints that a loop frees -/

/-- The endpoints `d` of a bundle are freed, and `left` stay in its list. -/
def State.without (s : State) (b : Eb) (left d : List Ep) : State :=
  { s with
    eb := Function.update s.eb b ((s.eb b).map fun bundle => { bundle with endpoints := left })
    ep := fun e => if e ∈ d then none else s.ep e
    freed := s.freed ++ d.map .endpoint }

theorem without_nil (s : State) (b : Eb) : s.without b (s.endpoints b) [] = s := by
  have heb : (s.eb b).map (fun bundle => { bundle with endpoints := s.endpoints b }) = s.eb b := by
    cases hb : s.eb b with
    | none => rfl
    | some bundle => rw [Option.map_some, endpoints_some hb]
  rw [State.without, heb, Function.update_eq_self]
  simp

theorem without_without (s : State) (b : Eb) (l l' d d' : List Ep) :
    (s.without b l d).without b l' d' = s.without b l' (d ++ d') := by
  have hep : (fun e => if e ∈ d' then none else if e ∈ d then none else s.ep e) =
      fun e => if e ∈ d ++ d' then none else s.ep e := by
    funext e
    by_cases hd : e ∈ d <;> by_cases hd' : e ∈ d' <;> simp [hd, hd']
  rw [State.without, State.without, State.without]
  simp only [Function.update_self, Function.update_idem, Option.map_map, List.map_append, List.append_assoc]
  rw [hep]
  rfl

theorem without_eb_self (s : State) (b : Eb) (l d : List Ep) :
    (s.without b l d).eb b = (s.eb b).map fun bundle => { bundle with endpoints := l } :=
  Function.update_self ..

theorem without_eb_of_ne (h : b' ≠ b) (l d : List Ep) : (s.without b l d).eb b' = s.eb b' :=
  Function.update_of_ne h ..

theorem without_live (s : State) (b b' : Eb) (l d : List Ep) :
    (s.without b l d).eb b' = none ↔ s.eb b' = none := by
  by_cases h : b' = b
  · subst h
    rw [without_eb_self, Option.map_eq_none_iff]
  · rw [without_eb_of_ne h]

theorem without_endpoints_self (hb : s.eb b ≠ none) (l d : List Ep) : (s.without b l d).endpoints b = l := by
  obtain ⟨bundle, hbundle⟩ := Option.ne_none_iff_exists'.mp hb
  have heb := without_eb_self s b l d
  rw [hbundle] at heb
  exact endpoints_some heb

theorem without_endpoints_of_ne (h : b' ≠ b) (l d : List Ep) :
    (s.without b l d).endpoints b' = s.endpoints b' :=
  endpoints_congr (without_eb_of_ne h l d)

section Without

variable {l d : List Ep} (hb : s.eb b ≠ none) (hperm : (d ++ l).Perm (s.endpoints b))
include hb hperm

theorem Lists.without (h : Lists s) : Lists (s.without b l d) := by
  have hnodup : (d ++ l).Nodup := hperm.nodup_iff.mpr (h.nodup b)
  refine ⟨?_, ?_, ?_⟩
  · intro b'
    by_cases hb' : b' = b
    · subst hb'
      rw [without_endpoints_self hb]
      exact (List.nodup_append.mp hnodup).2.1
    · rw [without_endpoints_of_ne hb']
      exact h.nodup b'
  · intro b' e he
    have hstays : e ∉ d ∧ e ∈ s.endpoints b' := by
      by_cases hb' : b' = b
      · subst hb'
        rw [without_endpoints_self hb] at he
        have hout : e ∉ d := fun hd => (List.nodup_append.mp hnodup).2.2 e hd e he rfl
        exact ⟨hout, hperm.subset (List.mem_append_right d he)⟩
      · rw [without_endpoints_of_ne hb'] at he
        have hout : e ∉ d := fun hd => hb' (h.unique (hperm.subset (List.mem_append_left l hd)) he)
        exact ⟨hout, he⟩
    change (if e ∈ d then none else s.ep e) = _
    rw [if_neg hstays.1]
    exact h.names b' e hstays.2
  · intro b' bundle hbundle
    by_cases hb' : b' = b
    · subst hb'
      rw [without_eb_self, Option.map_eq_some_iff] at hbundle
      obtain ⟨old, hold, rfl⟩ := hbundle
      obtain ⟨hpos, hlen⟩ := h.room b' old hold
      have hle := hperm.length_eq
      rw [endpoints_some hold, List.length_append] at hle
      exact ⟨hpos, by change l.length ≤ old.cursize; omega⟩
    · rw [without_eb_of_ne hb'] at hbundle
      exact h.room b' bundle hbundle

theorem Inv.without (h : Inv s) : Inv (s.without b l d) where
  lists := h.lists.without hb hperm
  listed := h.listed.congr rfl (fun b' => without_live s b b' l d) rfl rfl
  homed e p hp := by
    change (if e ∈ d then none else s.ep e) = some p at hp
    by_cases hd : e ∈ d
    · rw [if_pos hd] at hp
      cases hp
    · rw [if_neg hd] at hp
      obtain ⟨b', hname, he⟩ := h.homed e p hp
      refine ⟨b', hname, ?_⟩
      by_cases hb' : b' = b
      · subst hb'
        rw [without_endpoints_self hb]
        exact (List.mem_append.mp (hperm.symm.subset he)).resolve_left hd
      · rw [without_endpoints_of_ne hb']
        exact he

end Without

theorem freeEndpoint_eq (release : Ep → Bool) (hinit : s.amx_Initialized ≠ 0) (h : Lists s) (he : e ∈ s.endpoints b) :
    AM_FreeEndpoint release (some e) s =
      (if release e then .ok else .err .RESOURCE, s.without b (swapRemove e (s.endpoints b)) [e]) := by
  have hname := h.names b e he
  obtain ⟨bundle, hbundle⟩ := Option.ne_none_iff_exists'.mp (live_of_mem he)
  have hbind : (s.ep e).bind Endpoint.eb = some b := by rw [hname]; rfl
  have hep : Function.update (setEb s.ep e none) e none = fun e' => if e' ∈ [e] then none else s.ep e' := by
    funext e'
    by_cases he' : e' = e
    · rw [he', Function.update_self, if_pos List.mem_cons_self]
    · rw [Function.update_of_ne he', setEb, Function.update_of_ne he', if_neg (by simpa using he')]
  rw [AM_FreeEndpoint, if_neg hinit, hbind]
  dsimp only
  rw [if_neg (not_not.mpr he)]
  simp only [RemoveEndpoint, hbundle, State.freeEp, hep, State.without, Option.map_some, endpoints_some hbundle,
    List.map_cons, List.map_nil]

theorem freeEndpoints_end {i : Nat} (h : (s.endpoints b).length ≤ i) (fuel : Nat) :
    freeEndpoints release b fuel i s = (.ok, s) := by
  cases fuel with
  | zero => rfl
  | succ fuel => rw [freeEndpoints, List.getElem?_eq_none h]

/-- The loop, from the index where `m` is left to pass. -/
theorem freeEndpoints_swept (release : Ep → Bool) (hinit : s.amx_Initialized ≠ 0) (hb : s.eb b ≠ none) (h : Lists s) (fuel : Nat)
    (m a : List Ep) (hfuel : m.length ≤ fuel) (hlist : s.endpoints b = a ++ m) :
    ∃ d left stopped, Swept release m a d left stopped ∧
      freeEndpoints release b fuel a.length s =
        (if stopped then .err .RESOURCE else .ok, s.without b left d) := by
  induction fuel generalizing s m a with
  | zero =>
    obtain rfl := List.length_eq_zero_iff.mp (Nat.le_zero.mp hfuel)
    rw [List.append_nil] at hlist
    refine ⟨[], a, false, .nil, ?_⟩
    rw [← hlist, without_nil]
    rfl
  | succ fuel ih =>
    cases m with
    | nil =>
      rw [List.append_nil] at hlist
      refine ⟨[], a, false, .nil, ?_⟩
      rw [freeEndpoints_end (congrArg List.length hlist).le, ← hlist, without_nil]
      rfl
    | cons x m =>
      have hx : x ∈ s.endpoints b := hlist ▸ List.mem_append_right a List.mem_cons_self
      have hget : (s.endpoints b)[a.length]? = some x := by simp [hlist]
      have hout : x ∉ a := by
        have hnodup := h.nodup b
        rw [hlist] at hnodup
        exact fun ha => (List.nodup_append.mp hnodup).2.2 x ha x List.mem_cons_self rfl
      have hswap := swapRemove_append hout (x :: m)
      have hfree := freeEndpoint_eq release hinit h hx
      rw [freeEndpoints, hget]
      dsimp only
      by_cases hok : release x = true
      · have hperm : ([x] ++ swapRemove x (s.endpoints b)).Perm (s.endpoints b) := swapRemove_perm hx
        have hlists := h.without hb hperm
        have hb' : (s.without b (swapRemove x (s.endpoints b)) [x]).eb b ≠ none :=
          (without_live s b b _ _).not.mpr hb
        have hself := without_endpoints_self hb (swapRemove x (s.endpoints b)) [x]
        rw [hlist, hswap] at hlists hb' hself hfree
        rw [if_pos hok] at hfree
        rw [hfree]
        cases m using List.reverseRecOn with
        | nil =>
          rw [swapRemove_singleton, List.append_nil] at hlists hb' hself ⊢
          refine ⟨[x], a, false, .one hok, ?_⟩
          dsimp only
          rw [freeEndpoints_end (by rw [hself]; exact Nat.le_succ _)]
          rfl
        | append_singleton m z =>
          rw [swapRemove_ends] at hlists hb' hself ⊢
          have hlen : m.length ≤ fuel := by
            rw [List.length_cons, List.length_append] at hfuel
            omega
          obtain ⟨d, left, stopped, hswept, hrest⟩ :=
            ih (s := s.without b (a ++ z :: m) [x]) hinit hb' hlists m (a ++ [z]) hlen (by rw [hself]; simp)
          refine ⟨x :: d, left, stopped, .more hok hswept, ?_⟩
          rw [List.length_append, List.length_singleton] at hrest
          dsimp only
          rw [hrest, without_without]
          rfl
      · rw [if_neg hok, hlist, hswap] at hfree
        rw [hfree]
        exact ⟨[x], _, true, .refused (Bool.eq_false_iff.mpr hok), rfl⟩

/-! ### Freeing a bundle -/

/-- What `AM_FreeBundle` comes to. -/
theorem freeBundle_swept (debug : Bool) (release : Ep → Bool) (hinit : s.amx_Initialized ≠ 0)
    (hb : s.eb b ≠ none) (h : Lists s) :
    ∃ d left stopped, Swept release (s.endpoints b) [] d left stopped ∧
      AM_FreeBundle debug release (some b) s =
        if stopped then (.err .RESOURCE, s.without b left d)
        else if debug ∧ left ≠ [] then (.fatal, { s.without b left d with aborted := true })
        else if debug ∧ b ∉ s.bundles then (.fatal, { s.without b left d with aborted := true })
        else (.ok, { s.without b left d with bundles := removeBundle b s.bundles }.freeEb b) := by
  obtain ⟨d, left, stopped, hswept, hloop⟩ :=
    freeEndpoints_swept release hinit hb h _ (s.endpoints b) [] le_rfl rfl
  refine ⟨d, left, stopped, hswept, ?_⟩
  rw [AM_FreeBundle]
  dsimp only
  rw [show (0 : Nat) = ([] : List Ep).length from rfl, hloop]
  cases stopped with
  | true => rfl
  | false =>
    have hself := without_endpoints_self hb left d
    simp only [Bool.false_eq_true, if_false, hself]
    rfl

/-- A bundle without endpoints is taken off the list and freed. -/
theorem Inv.freeEb (h : Inv s) (hb : s.eb b ≠ none) (hempty : s.endpoints b = []) :
    Inv ({ s with bundles := removeBundle b s.bundles }.freeEb b) := by
  have hmem := (h.listed.live b).mpr hb
  have hbundles : removeBundle b s.bundles = swapRemove b s.bundles := if_pos hmem
  have heb : ∀ b', b' ≠ b → ({ s with bundles := removeBundle b s.bundles }.freeEb b).eb b' = s.eb b' :=
    fun b' hne => Function.update_of_ne hne ..
  have hself : ({ s with bundles := removeBundle b s.bundles }.freeEb b).eb b = none := Function.update_self ..
  have hend : ∀ b', ({ s with bundles := removeBundle b s.bundles }.freeEb b).endpoints b' = s.endpoints b' := by
    intro b'
    by_cases hb' : b' = b
    · rw [hb', hempty, endpoints_none hself]
    · exact endpoints_congr (heb b' hb')
  refine ⟨⟨?_, ?_, ?_⟩, ⟨?_, ?_, ?_, ?_, h.listed.running⟩, ?_⟩
  · intro b'
    rw [hend]
    exact h.lists.nodup b'
  · intro b' e he
    rw [hend] at he
    exact h.lists.names b' e he
  · intro b' bundle hbundle
    by_cases hb' : b' = b
    · rw [hb', hself] at hbundle
      cases hbundle
    · rw [heb b' hb'] at hbundle
      exact h.lists.room b' bundle hbundle
  · change (removeBundle b s.bundles).Nodup
    rw [hbundles]
    exact (nodup_swapRemove hmem h.listed.nodup).2
  · intro b'
    have hlist : b' ∈ removeBundle b s.bundles ↔ s.eb b' ≠ none ∧ b' ≠ b := by
      rw [hbundles, mem_swapRemove hmem h.listed.nodup, h.listed.live b']
    refine hlist.trans ?_
    by_cases hb' : b' = b
    · rw [hb', hself]
      exact ⟨fun hne => absurd rfl hne.2, fun hne => absurd rfl hne⟩
    · rw [heb b' hb']
      exact ⟨fun hne => hne.1, fun hne => ⟨hne, hb'⟩⟩
  · change (removeBundle b s.bundles).length ≤ _
    have hlen := (swapRemove_perm hmem).length_eq
    have hbound := h.listed.bound
    rw [hbundles]
    rw [List.length_cons] at hlen
    omega
  · intro h0
    exact absurd h0 (h.initialized hb)
  · intro e p hp
    obtain ⟨b', hname, he⟩ := h.homed e p hp
    exact ⟨b', hname, by rw [hend]; exact he⟩

/-! ### Allocating and moving -/

/-- All is in place but for `e`, which is in no list. -/
structure Loose (s : State) (e : Ep) : Prop where
  lists : Lists s
  listed : Listed s
  homed : ∀ e', e' ≠ e → Homed s e'
  out : ∀ b, e ∉ s.endpoints b
  live : s.ep e ≠ none

theorem Inv.removeEndpoint (h : Inv s) (he : e ∈ s.endpoints b) : Loose (RemoveEndpoint b e s) e := by
  have hb := live_of_mem he
  obtain ⟨bundle, hbundle⟩ := Option.ne_none_iff_exists'.mp hb
  have hswap := nodup_swapRemove he (h.lists.nodup b)
  rw [endpoints_some hbundle] at hswap he
  have heq : RemoveEndpoint b e s =
      { s with
        eb := Function.update s.eb b (some { bundle with endpoints := swapRemove e bundle.endpoints })
        ep := setEb s.ep e none } := by
    rw [RemoveEndpoint, hbundle]
  have hself : (RemoveEndpoint b e s).eb b = some { bundle with endpoints := swapRemove e bundle.endpoints } := by
    rw [heq]
    exact Function.update_self ..
  have heb : ∀ b', b' ≠ b → (RemoveEndpoint b e s).eb b' = s.eb b' := by
    intro b' hb'
    rw [heq]
    exact Function.update_of_ne hb' ..
  have hep : ∀ e', e' ≠ e → (RemoveEndpoint b e s).ep e' = s.ep e' := by
    intro e' he'
    rw [heq]
    exact Function.update_of_ne he' ..
  have hend : ∀ b' e', e' ∈ (RemoveEndpoint b e s).endpoints b' ↔ e' ∈ s.endpoints b' ∧ e' ≠ e := by
    intro b' e'
    by_cases hb' : b' = b
    · rw [hb', endpoints_some hself, endpoints_some hbundle]
      have hnodup := h.lists.nodup b
      rw [endpoints_some hbundle] at hnodup
      exact mem_swapRemove he hnodup
    · rw [endpoints_congr (heb b' hb')]
      refine ⟨fun hmem => ⟨hmem, ?_⟩, fun hmem => hmem.1⟩
      rintro rfl
      exact hb' (h.lists.unique (by rw [endpoints_some hbundle]; exact he) hmem)
  refine ⟨⟨?_, ?_, ?_⟩, ?_, ?_, ?_, ?_⟩
  · intro b'
    by_cases hb' : b' = b
    · rw [hb', endpoints_some hself]
      exact hswap.2
    · rw [endpoints_congr (heb b' hb')]
      exact h.lists.nodup b'
  · intro b' e' he'
    obtain ⟨hmem, hne⟩ := (hend b' e').mp he'
    rw [hep e' hne]
    exact h.lists.names b' e' hmem
  · intro b' bundle' hbundle'
    by_cases hb' : b' = b
    · rw [hb', hself] at hbundle'
      cases hbundle'
      obtain ⟨hpos, hlen⟩ := h.lists.room b bundle hbundle
      have hle := (swapRemove_perm he).length_eq
      rw [List.length_cons] at hle
      exact ⟨hpos, by change (swapRemove e bundle.endpoints).length ≤ bundle.cursize; omega⟩
    · rw [heb b' hb'] at hbundle'
      exact h.lists.room b' bundle' hbundle'
  · refine h.listed.congr ?_ ?_ ?_ ?_
    · rw [heq]
    · intro b'
      by_cases hb' : b' = b
      · rw [hb', hself, hbundle]
        exact ⟨nofun, nofun⟩
      · rw [heb b' hb']
    · rw [heq]
    · rw [heq]
  · intro e' he' p hp
    rw [hep e' he'] at hp
    obtain ⟨b', hname, hmem⟩ := h.homed e' p hp
    exact ⟨b', hname, (hend b' e').mpr ⟨hmem, he'⟩⟩
  · intro b' hmem
    exact ((hend b' e).mp hmem).2 rfl
  · rw [heq]
    change setEb s.ep e none e ≠ none
    rw [setEb, Function.update_self, h.lists.names b e (by rw [endpoints_some hbundle]; exact he)]
    exact nofun

theorem Loose.insertEndpoint (h : Loose s e) (hb : s.eb b ≠ none) : Inv (InsertEndpoint b e s) := by
  obtain ⟨bundle, hbundle⟩ := Option.ne_none_iff_exists'.mp hb
  obtain ⟨p, hp⟩ := Option.ne_none_iff_exists'.mp h.live
  obtain ⟨hpos, hlen⟩ := h.lists.room b bundle hbundle
  have hout := h.out b
  rw [endpoints_some hbundle] at hout
  -- The array has room for one more.
  have hroom : ∃ cursize, 0 < cursize ∧ bundle.endpoints.length + 1 ≤ cursize ∧ InsertEndpoint b e s =
      { s with
        eb := Function.update s.eb b (some ⟨bundle.endpoints ++ [e], cursize⟩)
        ep := setEb s.ep e (some b) } := by
    rw [InsertEndpoint, hbundle]
    by_cases hfull : bundle.endpoints.length = bundle.cursize
    · exact ⟨bundle.cursize * 2, by omega, by omega, by simp only [if_pos hfull]⟩
    · exact ⟨bundle.cursize, hpos, by omega, by simp only [if_neg hfull]⟩
  obtain ⟨cursize, hpos', hlen', heq⟩ := hroom
  have hself : (InsertEndpoint b e s).eb b = some ⟨bundle.endpoints ++ [e], cursize⟩ := by
    rw [heq]
    exact Function.update_self ..
  have heb : ∀ b', b' ≠ b → (InsertEndpoint b e s).eb b' = s.eb b' := by
    intro b' hb'
    rw [heq]
    exact Function.update_of_ne hb' ..
  have hep : ∀ e', e' ≠ e → (InsertEndpoint b e s).ep e' = s.ep e' := by
    intro e' he'
    rw [heq]
    exact Function.update_of_ne he' ..
  have hepself : (InsertEndpoint b e s).ep e = some ⟨some b⟩ := by
    rw [heq]
    change setEb s.ep e (some b) e = _
    rw [setEb, Function.update_self, hp]
    rfl
  have hend : ∀ b' e', e' ∈ (InsertEndpoint b e s).endpoints b' ↔ e' ∈ s.endpoints b' ∨ b' = b ∧ e' = e := by
    intro b' e'
    by_cases hb' : b' = b
    · rw [hb', endpoints_some hself, endpoints_some hbundle, List.mem_append, List.mem_singleton]
      exact or_congr Iff.rfl ⟨fun he => ⟨rfl, he⟩, fun he => he.2⟩
    · rw [endpoints_congr (heb b' hb')]
      exact ⟨Or.inl, fun hor => hor.resolve_right fun hand => hb' hand.1⟩
  refine ⟨⟨?_, ?_, ?_⟩, ?_, ?_⟩
  · intro b'
    by_cases hb' : b' = b
    · have hnodup := h.lists.nodup b
      rw [endpoints_some hbundle] at hnodup
      rw [hb', endpoints_some hself]
      rw [← List.concat_eq_append]
      exact hnodup.concat hout
    · rw [endpoints_congr (heb b' hb')]
      exact h.lists.nodup b'
  · intro b' e' he'
    rcases (hend b' e').mp he' with hmem | ⟨rfl, rfl⟩
    · have hne : e' ≠ e := by
        rintro rfl
        exact h.out b' hmem
      rw [hep e' hne]
      exact h.lists.names b' e' hmem
    · exact hepself
  · intro b' bundle' hbundle'
    by_cases hb' : b' = b
    · rw [hb', hself] at hbundle'
      cases hbundle'
      exact ⟨hpos', by rw [List.length_append]; exact hlen'⟩
    · rw [heb b' hb'] at hbundle'
      exact h.lists.room b' bundle' hbundle'
  · refine h.listed.congr ?_ ?_ ?_ ?_
    · rw [heq]
    · intro b'
      by_cases hb' : b' = b
      · rw [hb', hself, hbundle]
        exact ⟨nofun, nofun⟩
      · rw [heb b' hb']
    · rw [heq]
    · rw [heq]
  · intro e' p' hp'
    by_cases he' : e' = e
    · subst he'
      rw [hepself] at hp'
      cases hp'
      exact ⟨b, rfl, (hend b e').mpr (.inr ⟨rfl, rfl⟩)⟩
    · rw [hep e' he'] at hp'
      obtain ⟨b', hname, hmem⟩ := h.homed e' he' p' hp'
      exact ⟨b', hname, (hend b' e').mpr (.inl hmem)⟩

theorem Inv.allocate (h : Inv s) (he : s.ep e = none) :
    Loose { s with ep := Function.update s.ep e (some ⟨none⟩) } e := by
  have hout : ∀ b, e ∉ s.endpoints b := by
    intro b hmem
    have hname := h.lists.names b e hmem
    rw [he] at hname
    cases hname
  have hep : ∀ e', e' ≠ e → Function.update s.ep e (some ⟨none⟩) e' = s.ep e' :=
    fun e' he' => Function.update_of_ne he' ..
  refine ⟨⟨h.lists.nodup, ?_, h.lists.room⟩, h.listed.congr rfl (fun _ => Iff.rfl) rfl rfl, ?_, hout, ?_⟩
  · intro b e' he'
    have hne : e' ≠ e := by
      rintro rfl
      exact hout b he'
    exact (hep e' hne).trans (h.lists.names b e' he')
  · intro e' he' p hp
    exact h.homed e' p ((hep e' he').symm.trans hp)
  · change Function.update s.ep e (some ⟨none⟩) e ≠ none
    rw [Function.update_self]
    exact nofun

theorem Inv.allocateBundle (h : Inv s) (hinit : s.amx_Initialized ≠ 0) (hb : s.eb b = none)
    (hlen : s.bundles.length ≠ MAX_BUNDLES - 1) :
    Inv { s with
      eb := Function.update s.eb b (some ⟨[], INITIAL_NUMENDPOINTS⟩)
      bundles := s.bundles ++ [b] } := by
  have hout : b ∉ s.bundles := fun hmem => (h.listed.live b).mp hmem hb
  have hself : Function.update s.eb b (some ⟨[], INITIAL_NUMENDPOINTS⟩) b = some ⟨[], INITIAL_NUMENDPOINTS⟩ :=
    Function.update_self ..
  have heb : ∀ b', b' ≠ b → Function.update s.eb b (some ⟨[], INITIAL_NUMENDPOINTS⟩) b' = s.eb b' :=
    fun b' hb' => Function.update_of_ne hb' ..
  have hend : ∀ b', State.endpoints { s with
      eb := Function.update s.eb b (some ⟨[], INITIAL_NUMENDPOINTS⟩)
      bundles := s.bundles ++ [b] } b' = s.endpoints b' := by
    intro b'
    by_cases hb' : b' = b
    · rw [hb', endpoints_none hb, State.endpoints]
      dsimp only
      rw [hself]
    · exact endpoints_congr (heb b' hb')
  have hnodup : (s.bundles ++ [b]).Nodup := List.concat_eq_append ▸ h.listed.nodup.concat hout
  refine ⟨⟨?_, ?_, ?_⟩, ⟨hnodup, ?_, ?_, fun h0 => absurd h0 hinit, h.listed.running⟩, ?_⟩
  · intro b'
    rw [hend]
    exact h.lists.nodup b'
  · intro b' e he
    rw [hend] at he
    exact h.lists.names b' e he
  · intro b' bundle hbundle
    by_cases hb' : b' = b
    · subst hb'
      cases hself.symm.trans hbundle
      exact ⟨Nat.zero_lt_one, Nat.zero_le _⟩
    · exact h.lists.room b' bundle ((heb b' hb').symm.trans hbundle)
  · intro b'
    change b' ∈ s.bundles ++ [b] ↔ Function.update s.eb b _ b' ≠ none
    rw [List.mem_append, List.mem_singleton, h.listed.live]
    by_cases hb' : b' = b
    · rw [hb', hself]
      exact ⟨fun _ => nofun, fun _ => .inr rfl⟩
    · rw [heb b' hb']
      exact ⟨fun hor => hor.resolve_right hb', Or.inl⟩
  · have hbound := h.listed.bound
    change (s.bundles ++ [b]).length ≤ _
    rw [List.length_append, List.length_singleton]
    omega
  · intro e p hp
    obtain ⟨b', hname, he⟩ := h.homed e p hp
    exact ⟨b', hname, by rw [hend]; exact he⟩

end Gasnet.Bundles
