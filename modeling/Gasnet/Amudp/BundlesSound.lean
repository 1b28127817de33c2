import Gasnet.Amudp.BundlesRuns

/-! Which calls keep the bookkeeping of endpoints and bundles. -/
namespace Gasnet.Bundles

variable {s s' : State} {b b' : Eb} {e : Ep} {debug : Bool} {release : Ep → Bool}

/-! ### What the loops never do -/

theorem freeEndpoint_frame (release : Ep → Bool) (ea : Option Ep) (s : State) :
    let r := AM_FreeEndpoint release ea s
    r.1 ≠ .fatal ∧ r.2.bundles = s.bundles ∧ ∀ b, r.2.eb b = none ↔ s.eb b = none := by
  have hsame : ∀ error, (Rc.err error, s).1 ≠ .fatal ∧ (Rc.err error, s).2.bundles = s.bundles ∧
      ∀ b, (Rc.err error, s).2.eb b = none ↔ s.eb b = none := fun _ => ⟨by simp, rfl, fun _ => Iff.rfl⟩
  dsimp only
  rw [AM_FreeEndpoint.eq_def]
  by_cases hinit : s.amx_Initialized = 0
  · rw [if_pos hinit]
    exact hsame _
  · rw [if_neg hinit]
    cases ea with
    | none => exact hsame _
    | some e =>
      cases hb : (s.ep e).bind Endpoint.eb with
      | none =>
        dsimp only
        rw [hb]
        exact hsame _
      | some b =>
        dsimp only
        rw [hb]
        dsimp only
        by_cases he : e ∉ s.endpoints b
        · rw [if_pos he]
          exact hsame _
        · rw [if_neg he]
          obtain ⟨bundle, hbundle⟩ := Option.ne_none_iff_exists'.mp (live_of_mem (not_not.mp he))
          refine ⟨by cases release e <;> simp, ?_, ?_⟩
          · rw [RemoveEndpoint, hbundle]
            rfl
          · intro b'
            rw [RemoveEndpoint, hbundle]
            change Function.update s.eb b _ b' = none ↔ _
            by_cases hb' : b' = b
            · rw [hb', Function.update_self, hbundle]
              simp
            · rw [Function.update_of_ne hb']

theorem freeEndpoints_frame (release : Ep → Bool) (b : Eb) (fuel i : Nat) (s : State) :
    let r := freeEndpoints release b fuel i s
    r.1 ≠ .fatal ∧ r.2.bundles = s.bundles ∧ ∀ b', r.2.eb b' = none ↔ s.eb b' = none := by
  induction fuel generalizing i s with
  | zero => exact ⟨by simp [freeEndpoints], rfl, fun _ => Iff.rfl⟩
  | succ fuel ih =>
    rw [freeEndpoints]
    cases (s.endpoints b)[i]? with
    | none => exact ⟨by simp, rfl, fun _ => Iff.rfl⟩
    | some e =>
      have hframe := freeEndpoint_frame release (some e) s
      dsimp only at hframe ⊢
      rcases hr : AM_FreeEndpoint release (some e) s with ⟨rc, s1⟩
      rw [hr] at hframe
      cases rc with
      | ok =>
        obtain ⟨hfatal, hbundles, hlive⟩ := ih (i + 1) s1
        exact ⟨hfatal, hbundles.trans hframe.2.1, fun b' => (hlive b').trans (hframe.2.2 b')⟩
      | err error => exact hframe
      | fatal => exact absurd rfl hframe.1

/-- A call of `AM_FreeBundle` succeeds, or the list of the bundles stays and all of them live on. -/
theorem freeBundle_frame (debug : Bool) (release : Ep → Bool) (b : Eb) (s : State) :
    let r := AM_FreeBundle debug release (some b) s
    (∀ b', b' ≠ b → (r.2.eb b' = none ↔ s.eb b' = none)) ∧
      (r.1 = .ok ∧ r.2.bundles = removeBundle b s.bundles ∧ r.2.eb b = none ∨
        r.1 = .fatal ∧ r.2.aborted = true ∧ (r.2.eb b = none ↔ s.eb b = none) ∨
        (∃ error, r.1 = .err error) ∧ r.2.bundles = s.bundles ∧ (r.2.eb b = none ↔ s.eb b = none)) := by
  obtain ⟨hfatal, hbundles, hlive⟩ := freeEndpoints_frame release b (s.endpoints b).length 0 s
  rw [AM_FreeBundle]
  dsimp only
  rcases hr : freeEndpoints release b (s.endpoints b).length 0 s with ⟨rc, s1⟩
  rw [hr] at hfatal hbundles hlive
  cases rc with
  | fatal => exact absurd rfl hfatal
  | err error => exact ⟨fun b' _ => hlive b', .inr (.inr ⟨⟨error, rfl⟩, hbundles, hlive b⟩)⟩
  | ok =>
    dsimp only at hbundles hlive ⊢
    by_cases hleft : debug ∧ s1.endpoints b ≠ []
    · rw [if_pos hleft]
      exact ⟨fun b' _ => hlive b', .inr (.inl ⟨rfl, rfl, hlive b⟩)⟩
    · rw [if_neg hleft]
      by_cases hmem : debug ∧ b ∉ s1.bundles
      · rw [if_pos hmem]
        exact ⟨fun b' _ => hlive b', .inr (.inl ⟨rfl, rfl, hlive b⟩)⟩
      · rw [if_neg hmem]
        refine ⟨?_, .inl ⟨rfl, congrArg (removeBundle b) hbundles, Function.update_self ..⟩⟩
        intro b' hb'
        change Function.update s1.eb b none b' = none ↔ _
        rw [Function.update_of_ne hb']
        exact hlive b'

/-- From its second turn on, the loop of `AM_Terminate` does not reach the first bundle of the list. -/
theorem freeBundles_keeps {x : Eb} {l : List Eb} (fuel i : Nat) (retval : Rc)
    (hbundles : s.bundles = x :: l) (hnodup : (x :: l).Nodup) (hx : s.eb x ≠ none) :
    (freeBundles debug release fuel (i + 1) retval s).2.eb x ≠ none := by
  induction fuel generalizing s l i retval with
  | zero => exact hx
  | succ fuel ih =>
    rw [freeBundles, hbundles, List.getElem?_cons_succ]
    cases hget : l[i]? with
    | none => exact hx
    | some b =>
      have hmem : b ∈ l := List.mem_of_getElem? hget
      have hne : x ≠ b := by
        rintro rfl
        exact (List.nodup_cons.mp hnodup).1 hmem
      have hframe := freeBundle_frame debug release b s
      dsimp only at hframe ⊢
      rcases hr : AM_FreeBundle debug release (some b) s with ⟨rc, s1⟩
      rw [hr] at hframe
      obtain ⟨hothers, hcases⟩ := hframe
      have hx1 : s1.eb x ≠ none := (hothers x hne).not.mpr hx
      rcases hcases with ⟨rfl, hlist, -⟩ | ⟨rfl, -, -⟩ | ⟨⟨error, rfl⟩, hlist, -⟩
      · have hmem' : b ∈ x :: l := List.mem_cons_of_mem x hmem
        have hnodup' := (nodup_swapRemove hmem' hnodup).2
        rw [swapRemove_cons_of_ne hne] at hnodup'
        dsimp only at hlist
        rw [hbundles, removeBundle, if_pos hmem', swapRemove_cons_of_ne hne] at hlist
        exact ih (i + 1) retval hlist hnodup' hx1
      · exact hx1
      · exact ih (i + 1) (.err .RESOURCE) (hlist.trans hbundles) hnodup hx1

theorem freeBundles_fatal (fuel i : Nat) (retval : Rc) (hretval : retval ≠ .fatal)
    (h : (freeBundles debug release fuel i retval s).1 = .fatal) :
    (freeBundles debug release fuel i retval s).2.aborted = true := by
  induction fuel generalizing s i retval with
  | zero => exact absurd h hretval
  | succ fuel ih =>
    rw [freeBundles] at h ⊢
    cases hget : s.bundles[i]? with
    | none =>
      rw [hget] at h
      exact absurd h hretval
    | some b =>
      rw [hget] at h
      have hframe := (freeBundle_frame debug release b s).2
      dsimp only at h hframe ⊢
      rcases hr : AM_FreeBundle debug release (some b) s with ⟨rc, s1⟩
      rw [hr] at h hframe
      rcases hframe with ⟨rfl, -, -⟩ | ⟨rfl, haborted, -⟩ | ⟨⟨error, rfl⟩, -, -⟩
      · exact ih (i + 1) retval hretval h
      · exact haborted
      · exact ih (i + 1) _ nofun h

/-! ### What a call is for -/

/-- Each live endpoint is once in the list of one bundle, which it names, and the list of bundles holds the
live ones, each once. -/
structure Consistent (s : State) : Prop where
  running : s.aborted = false
  place : ∀ e p, s.ep e = some p →
    ∃ b, p.eb = some b ∧ ∀ b', (s.endpoints b').count e = if b' = b then 1 else 0
  nodup : s.bundles.Nodup
  live : ∀ b, b ∈ s.bundles ↔ s.eb b ≠ none

/-- The bundle is freed, and before it each of its endpoints once. -/
def FreesBundle (s s' : State) (b : Eb) : Prop :=
  ∃ d : List Ep, d.Perm (s.endpoints b) ∧ s'.freed = s.freed ++ (d.map .endpoint ++ [.bundle b])

/-- All that is live is freed, each once. -/
def FreesAll (s s' : State) : Prop :=
  ∃ d, s'.freed = s.freed ++ d ∧ d.Nodup ∧ (∀ b, .bundle b ∈ d ↔ s.eb b ≠ none) ∧
    ∀ e, .endpoint e ∈ d ↔ s.ep e ≠ none

/-- The call keeps the bookkeeping, a bundle is not freed before its endpoints, and the last `AM_Terminate`
frees everything. -/
structure Sound (debug : Bool) (s : State) (a : Call) : Prop where
  consistent : Consistent (run debug s a).2
  bundle : ∀ release b, a = .freeBundle release (some b) → (run debug s a).2.eb b = none →
    FreesBundle s (run debug s a).2 b
  all : ∀ release detached, a = .terminate release detached → s.amx_Initialized = 1 →
    FreesAll s (run debug s a).2

/-- A bundle that is freed has at most one endpoint, or the release of one in the first half of its list
fails, which ends the call. In the last `AM_Terminate` there is at most one bundle, with at most one endpoint,
whose release does not fail. -/
def Sweepable (s : State) : Call → Prop
  | .freeBundle release (some b) =>
    (s.endpoints b).length ≤ 1 ∨ ∃ e ∈ firstHalf (s.endpoints b), release e = false
  | .terminate release _ => s.amx_Initialized = 1 →
    s.bundles.length ≤ 1 ∧
      ∀ b ∈ s.bundles, (s.endpoints b).length ≤ 1 ∧ ∀ e ∈ s.endpoints b, release e = true
  | _ => True

theorem Inv.consistent (h : Inv s) : Consistent s where
  running := h.listed.running
  nodup := h.listed.nodup
  live := h.listed.live
  place e p hp := by
    obtain ⟨b, hname, he⟩ := h.homed e p hp
    refine ⟨b, hname, fun b' => ?_⟩
    by_cases hb' : b' = b
    · rw [if_pos hb', hb']
      exact List.count_eq_one_of_mem (h.lists.nodup b) he
    · rw [if_neg hb']
      exact List.count_eq_zero.mpr fun he' => hb' (h.lists.unique he he')

/-- An endpoint whose bundle has been freed. -/
theorem not_consistent_dangling (he : s.ep e = some ⟨some b⟩) (hb : s.eb b = none) : ¬Consistent s := by
  intro h
  obtain ⟨b', hname, hcount⟩ := h.place e _ he
  cases hname
  have hone := hcount b
  rw [endpoints_none hb, if_pos rfl] at hone
  cases hone

theorem not_consistent_unlisted (hb : s.eb b ≠ none) (hmem : b ∉ s.bundles) : ¬Consistent s :=
  fun h => hmem ((h.live b).mpr hb)

theorem not_consistent_aborted (h : s.aborted = true) : ¬Consistent s := by
  intro hc
  rw [hc.running] at h
  cases h

theorem firstHalf_subset (l : List Ep) : firstHalf l ⊆ l := List.take_subset _ l

theorem firstHalf_of_short {l : List Ep} (h : l.length ≤ 1) : firstHalf l = l := by
  cases l with
  | nil => exact firstHalf_nil
  | cons x l =>
    obtain rfl := List.length_eq_zero_iff.mp (Nat.le_zero.mp (Nat.le_of_succ_le_succ h))
    exact firstHalf_singleton x

/-- How a call that frees a bundle ends. -/
theorem Inv.freeBundle (h : Inv s) (hb : s.eb b ≠ none) (debug : Bool) (release : Ep → Bool) :
    let r := AM_FreeBundle debug release (some b) s
    (∃ e ∈ firstHalf (s.endpoints b), release e = false) ∧ (∃ error, r.1 = .err error) ∧ Inv r.2 ∧
        r.2.eb b ≠ none ∨
      (∀ e ∈ firstHalf (s.endpoints b), release e = true) ∧
        ((s.endpoints b).length ≤ 1 ∧ r.1 = .ok ∧ Inv r.2 ∧ FreesBundle s r.2 b ∨
          2 ≤ (s.endpoints b).length ∧
            (r.1 = .fatal ∧ r.2.aborted = true ∨
              r.1 = .ok ∧ ∃ e, r.2.ep e = some ⟨some b⟩ ∧ r.2.eb b = none)) := by
  obtain ⟨d, left, stopped, hswept, hr⟩ := freeBundle_swept debug release (h.initialized hb) hb h.lists
  have hperm : (d ++ left).Perm (s.endpoints b) := hswept.perm
  have hinv := h.without hb hperm
  have hlive := (without_live s b b left d).not.mpr hb
  have hself := without_endpoints_self hb left d
  dsimp only
  rw [hr]
  cases stopped with
  | true => exact .inl ⟨hswept.of_stopped, ⟨_, rfl⟩, hinv, hlive⟩
  | false =>
    obtain ⟨-, hok, hlen⟩ := hswept.of_not_stopped
    refine .inr ⟨hok, ?_⟩
    rw [if_neg Bool.false_ne_true]
    have hmem : ¬(debug = true ∧ b ∉ s.bundles) := fun hout => hout.2 ((h.listed.live b).mpr hb)
    by_cases hshort : (s.endpoints b).length ≤ 1
    · have hleft : left = [] := by
        apply List.length_eq_zero_iff.mp
        rw [hlen, List.length_nil]
        omega
      rw [if_neg fun hne => hne.2 hleft, if_neg hmem]
      rw [hleft] at hinv hlive hself hperm ⊢
      rw [List.append_nil] at hperm
      refine .inl ⟨hshort, rfl, hinv.freeEb hlive hself, d, hperm, ?_⟩
      exact List.append_assoc ..
    · refine .inr ⟨by omega, ?_⟩
      obtain ⟨e, he⟩ : ∃ e, e ∈ left := by
        apply List.exists_mem_of_length_pos
        rw [hlen, List.length_nil]
        omega
      by_cases hassert : debug = true ∧ left ≠ []
      · rw [if_pos hassert]
        exact .inl ⟨rfl, rfl⟩
      · rw [if_neg hassert, if_neg hmem]
        refine .inr ⟨rfl, e, ?_, Function.update_self ..⟩
        exact hinv.lists.names b e (by rw [hself]; exact he)

/-! ### The last termination -/

theorem removeBundle_singleton (b : Eb) : removeBundle b [b] = [] := by
  rw [removeBundle, if_pos List.mem_cons_self, swapRemove_singleton]

/-- Termination of what is left when no bundle is. -/
theorem Inv.terminated (h : Inv s) (hbundles : s.bundles = []) :
    Inv { s with bundles := [], amx_Initialized := 0 } where
  lists := ⟨h.lists.nodup, h.lists.names, h.lists.room⟩
  listed := by
    refine ⟨List.nodup_nil, ?_, Nat.zero_le _, fun _ => rfl, h.listed.running⟩
    intro b
    have hlive := h.listed.live b
    rwa [hbundles] at hlive
  homed := h.homed

theorem freeBundles_end {i : Nat} (h : s.bundles.length ≤ i) (fuel : Nat) (retval : Rc) :
    freeBundles debug release fuel i retval s = (retval, s) := by
  cases fuel with
  | zero => rfl
  | succ fuel => rw [freeBundles, List.getElem?_eq_none h]

theorem Inv.terminate_last (h : Inv s) (debug : Bool) (hinit : s.amx_Initialized = 1) (detached : Bool)
    (hcond : Sweepable s (.terminate release detached)) :
    Inv (AM_Terminate debug release detached s).2 ∧ FreesAll s (AM_Terminate debug release detached s).2 := by
  obtain ⟨hlen, hshort⟩ := hcond hinit
  rw [AM_Terminate, if_pos hinit]
  cases hbundles : s.bundles with
  | nil =>
    refine ⟨h.terminated hbundles, [], (List.append_nil _).symm, List.nodup_nil, ?_, ?_⟩
    · intro b
      have hlive := h.listed.live b
      rw [hbundles] at hlive
      exact ⟨nofun, fun hb => absurd (hlive.mpr hb) List.not_mem_nil⟩
    · intro e
      refine ⟨nofun, fun he => ?_⟩
      obtain ⟨p, hp⟩ := Option.ne_none_iff_exists'.mp he
      obtain ⟨b, -, hmem⟩ := h.homed e p hp
      have hb := (h.listed.live b).mpr (live_of_mem hmem)
      rw [hbundles] at hb
      cases hb
  | cons b l =>
    rw [hbundles] at hlen
    obtain rfl := List.length_eq_zero_iff.mp (Nat.le_zero.mp (Nat.le_of_succ_le_succ hlen))
    have hmem : b ∈ s.bundles := hbundles ▸ List.mem_cons_self
    obtain ⟨hone, hok⟩ := hshort b hmem
    have hframe := (freeBundle_frame debug release b s).2
    have hcases := h.freeBundle ((h.listed.live b).mp hmem) debug release
    rw [List.length_singleton, freeBundles, hbundles]
    dsimp only [List.getElem?_cons_zero] at hframe hcases ⊢
    rcases hr : AM_FreeBundle debug release (some b) s with ⟨rc, s1⟩
    rw [hr] at hframe hcases
    rcases hcases with ⟨⟨e, he, hrefused⟩, -⟩ | ⟨-, ⟨-, hrc, hinv, d, hperm, hfreed⟩ | ⟨htwo, -⟩⟩
    · rw [hok e (firstHalf_subset _ he)] at hrefused
      cases hrefused
    · dsimp only at hrc
      subst hrc
      have hempty : s1.bundles = [] := by
        rcases hframe with ⟨-, hlist, -⟩ | ⟨hfatal, -⟩ | ⟨⟨error, herr⟩, -⟩
        · rw [hlist, hbundles, removeBundle_singleton]
        · cases hfatal
        · cases herr
      have honly : ∀ b', s.eb b' ≠ none ↔ b' = b := by
        intro b'
        rw [← h.listed.live b', hbundles, List.mem_singleton]
      change Inv { s1 with bundles := [], amx_Initialized := 0 } ∧
        FreesAll s { s1 with bundles := [], amx_Initialized := 0 }
      refine ⟨hinv.terminated hempty, d.map .endpoint ++ [.bundle b], hfreed, ?_, ?_, ?_⟩
      · refine List.nodup_append.mpr ⟨?_, List.nodup_singleton _, ?_⟩
        · exact (hperm.nodup_iff.mpr (h.lists.nodup b)).map fun _ _ heq => by cases heq; rfl
        · rintro x hx y hy rfl
          obtain ⟨e, -, rfl⟩ := List.mem_map.mp hx
          cases List.mem_singleton.mp hy
      · intro b'
        rw [honly b', List.mem_append, List.mem_singleton]
        constructor
        · rintro (hmap | heq)
          · obtain ⟨e, -, heq⟩ := List.mem_map.mp hmap
            cases heq
          · cases heq
            rfl
        · rintro rfl
          exact .inr rfl
      · intro e
        have hmap : Freed.endpoint e ∈ d.map .endpoint ++ [.bundle b] ↔ e ∈ s.endpoints b := by
          rw [List.mem_append, List.mem_singleton, List.mem_map, ← hperm.mem_iff]
          constructor
          · rintro (⟨e', he', heq⟩ | heq)
            · cases heq
              exact he'
            · cases heq
          · exact fun he => .inl ⟨e, he, rfl⟩
        rw [hmap]
        constructor
        · intro he hnone
          rw [h.lists.names b e he] at hnone
          cases hnone
        · intro he
          obtain ⟨p, hp⟩ := Option.ne_none_iff_exists'.mp he
          obtain ⟨b', -, hmem'⟩ := h.homed e p hp
          rwa [(honly b').mp (live_of_mem hmem')] at hmem'
    · omega

/-- What a state is after the last `AM_Terminate`, by what its loop left. -/
theorem terminate_not_consistent (hinit : s.amx_Initialized = 1) (detached : Bool)
    (hfatal : (freeBundles debug release s.bundles.length 0 .ok s).1 = .fatal →
      (freeBundles debug release s.bundles.length 0 .ok s).2.aborted = true)
    (hbad : (freeBundles debug release s.bundles.length 0 .ok s).1 ≠ .fatal →
      ¬Consistent { (freeBundles debug release s.bundles.length 0 .ok s).2 with
        bundles := [], amx_Initialized := 0 }) :
    ¬Consistent (AM_Terminate debug release detached s).2 := by
  rw [AM_Terminate, if_pos hinit]
  rcases hr : freeBundles debug release s.bundles.length 0 .ok s with ⟨rc, s1⟩
  rw [hr] at hfatal hbad
  cases rc with
  | fatal => exact not_consistent_aborted (hfatal rfl)
  | ok => exact hbad nofun
  | err error => exact hbad nofun

theorem Inv.terminate_bad (h : Inv s) (hinit : s.amx_Initialized = 1) (detached : Bool)
    (hcond : ¬Sweepable s (.terminate release detached)) :
    ¬Consistent (AM_Terminate debug release detached s).2 := by
  refine terminate_not_consistent hinit detached (freeBundles_fatal _ _ _ nofun) ?_
  intro hnot
  cases hbundles : s.bundles with
  | nil =>
    refine absurd (fun _ => ?_) hcond
    rw [hbundles]
    exact ⟨Nat.zero_le _, nofun⟩
  | cons b l =>
    have hmem : b ∈ s.bundles := hbundles ▸ List.mem_cons_self
    have hb := (h.listed.live b).mp hmem
    have hnodup := h.listed.nodup
    have hframe := freeBundle_frame debug release b s
    have hcases := h.freeBundle hb debug release
    rw [hbundles] at hnot hnodup
    rw [List.length_cons, freeBundles, hbundles] at hnot ⊢
    dsimp only [List.getElem?_cons_zero] at hframe hcases hnot ⊢
    rcases hr : AM_FreeBundle debug release (some b) s with ⟨rc, s1⟩
    rw [hr] at hframe hcases hnot
    obtain ⟨hothers, hends⟩ := hframe
    rcases hends with ⟨hrc, hlist, -⟩ | ⟨hrc, -, -⟩ | ⟨⟨error, hrc⟩, hlist, hlive⟩
    · dsimp only at hrc hlist
      subst hrc
      rw [hbundles, removeBundle, if_pos List.mem_cons_self] at hlist
      cases l using List.reverseRecOn with
      | nil =>
        rw [swapRemove_singleton] at hlist
        dsimp only at hnot ⊢
        rw [freeBundles_end (by rw [hlist]; exact Nat.zero_le _)]
        rcases hcases with ⟨-, ⟨error, herr⟩, -⟩ | ⟨hok, ⟨hshort, -⟩ | ⟨-, ⟨hfatal, -⟩ | ⟨-, e, he, hfreed⟩⟩⟩
        · cases herr
        · refine absurd (fun _ => ?_) hcond
          rw [hbundles]
          refine ⟨le_rfl, ?_⟩
          intro b' hb'
          obtain rfl := List.mem_singleton.mp hb'
          rw [firstHalf_of_short hshort] at hok
          exact ⟨hshort, hok⟩
        · cases hfatal
        · exact not_consistent_dangling he hfreed
      | append_singleton l z =>
        rw [swapRemove_ends] at hlist
        have hne : z ≠ b := by
          rintro rfl
          exact (List.nodup_cons.mp hnodup).1 (List.mem_append_right l List.mem_cons_self)
        have hz : s.eb z ≠ none := by
          apply (h.listed.live z).mp
          rw [hbundles]
          exact List.mem_cons_of_mem b (List.mem_append_right l List.mem_cons_self)
        have hnodup' : (z :: l).Nodup :=
          (List.perm_append_singleton z l).nodup_iff.mp (List.nodup_cons.mp hnodup).2
        exact not_consistent_unlisted (freeBundles_keeps _ 0 .ok hlist hnodup' ((hothers z hne).not.mpr hz))
          List.not_mem_nil
    · dsimp only at hrc
      subst hrc
      exact absurd rfl hnot
    · dsimp only at hrc
      subst hrc
      exact not_consistent_unlisted
        (freeBundles_keeps _ 0 _ (hlist.trans hbundles) hnodup (hlive.not.mpr hb)) List.not_mem_nil

/-! ### Runs -/

theorem Inv.freeEndpoint (h : Inv s) (release : Ep → Bool) (ea : Option Ep) :
    Inv (AM_FreeEndpoint release ea s).2 := by
  by_cases hinit : s.amx_Initialized = 0
  · rw [AM_FreeEndpoint.eq_def, if_pos hinit]
    exact h
  · cases ea with
    | none =>
      rw [AM_FreeEndpoint, if_neg hinit]
      exact h
    | some e =>
      by_cases he : ∃ b, e ∈ s.endpoints b
      · obtain ⟨b, he⟩ := he
        rw [freeEndpoint_eq release hinit h.lists he]
        exact h.without (live_of_mem he) (swapRemove_perm he)
      · rw [AM_FreeEndpoint, if_neg hinit]
        cases (s.ep e).bind Endpoint.eb with
        | none => exact h
        | some b =>
          dsimp only
          rw [if_pos fun hmem => he ⟨b, hmem⟩]
          exact h

theorem Inv.moveEndpoint (h : Inv s) {ea : Option Ep} {from_bundle to_bundle : Option Eb}
    (hproper : Proper s (.moveEndpoint ea from_bundle to_bundle)) :
    Inv (AM_MoveEndpoint ea from_bundle to_bundle s).2 := by
  obtain ⟨-, -, hto⟩ := hproper
  by_cases hinit : s.amx_Initialized = 0
  · rw [AM_MoveEndpoint.eq_def, if_pos hinit]
    exact h
  · rw [AM_MoveEndpoint.eq_def, if_neg hinit]
    rcases ea with _ | e
    · exact h
    · rcases from_bundle with _ | b
      · exact h
      · rcases to_bundle with _ | b'
        · exact h
        · dsimp only
          by_cases he : e ∉ s.endpoints b
          · rw [if_pos he]
            exact h
          · rw [if_neg he]
            have hloose := h.removeEndpoint (not_not.mp he)
            apply hloose.insertEndpoint
            obtain ⟨bundle, hbundle⟩ := Option.ne_none_iff_exists'.mp (live_of_mem (not_not.mp he))
            rw [RemoveEndpoint, hbundle]
            change Function.update s.eb b _ b' ≠ none
            by_cases hb' : b' = b
            · rw [hb', Function.update_self]
              exact Option.some_ne_none _
            · rw [Function.update_of_ne hb']
              exact hto b' rfl

theorem Inv.allocateEndpoint (h : Inv s) {resource endp : Bool} {bundle : Option Eb}
    (hproper : Proper s (.allocateEndpoint resource bundle endp e)) :
    Inv (AM_AllocateEndpoint resource bundle endp e s).2 := by
  obtain ⟨hlive, hfresh⟩ := hproper
  by_cases hinit : s.amx_Initialized = 0
  · rw [AM_AllocateEndpoint.eq_def, if_pos hinit]
    exact h
  · rw [AM_AllocateEndpoint.eq_def, if_neg hinit]
    cases bundle with
    | none => exact h
    | some b =>
      dsimp only
      split_ifs
      · exact (h.allocate hfresh).insertEndpoint (hlive b rfl)
      · exact h
      · exact h

theorem Inv.callAllocateBundle (h : Inv s) {type : Int} {endb : Bool} (hfresh : s.eb b = none) :
    Inv (AM_AllocateBundle type endb b s).2 := by
  rw [AM_AllocateBundle]
  split_ifs with hinit hmode hseq hfull hnull
  · exact h
  · exact h
  · exact h
  · exact h
  · exact h.allocateBundle hinit hfresh hfull
  · exact h

/-- One more, or one less that is not the last. -/
theorem Inv.counted (h : Inv s) {n : Nat} (hn : n = 0 → s.amx_Initialized = 0) :
    Inv { s with amx_Initialized := n } where
  lists := ⟨h.lists.nodup, h.lists.names, h.lists.room⟩
  listed := ⟨h.listed.nodup, h.listed.live, h.listed.bound, fun h0 => h.listed.idle (hn h0), h.listed.running⟩
  homed := h.homed

/-- A call that is neither the freeing of a bundle nor the last termination keeps the invariant. -/
theorem Inv.other (h : Inv s) (debug : Bool) {a : Call} (hproper : Proper s a)
    (hbundle : ∀ release b, a ≠ .freeBundle release (some b))
    (hlast : ∀ release detached, a = .terminate release detached → s.amx_Initialized ≠ 1) :
    Inv (run debug s a).2 := by
  cases a with
  | init => exact h.counted (by omega)
  | terminate release detached =>
    have hinit := hlast release detached rfl
    rw [run, AM_Terminate, if_neg hinit]
    exact h.counted (by omega)
  | allocateBundle type endb b => exact h.callAllocateBundle hproper
  | freeBundle release bundle =>
    cases bundle with
    | none => exact h
    | some b => exact absurd rfl (hbundle release b)
  | allocateEndpoint resource bundle endp e => exact h.allocateEndpoint hproper
  | freeEndpoint release ea => exact h.freeEndpoint release ea
  | moveEndpoint ea from_bundle to_bundle => exact h.moveEndpoint hproper

theorem sound_other (h : Inv s) (debug : Bool) {a : Call} (hproper : Proper s a)
    (hbundle : ∀ release b, a ≠ .freeBundle release (some b))
    (hlast : ∀ release detached, a = .terminate release detached → s.amx_Initialized ≠ 1) :
    Sound debug s a ∧ Inv (run debug s a).2 := by
  have hinv := h.other debug hproper hbundle hlast
  refine ⟨⟨hinv.consistent, ?_, ?_⟩, hinv⟩
  · intro release b ha
    exact absurd ha (hbundle release b)
  · intro release detached ha hinit
    exact absurd hinit (hlast release detached ha)

theorem sound_freeBundle (h : Inv s) (debug : Bool) (release : Ep → Bool) (hb : s.eb b ≠ none) :
    (Sound debug s (.freeBundle release (some b)) ↔ Sweepable s (.freeBundle release (some b))) ∧
      (Sweepable s (.freeBundle release (some b)) → Inv (run debug s (.freeBundle release (some b))).2) := by
  have hcases := h.freeBundle hb debug release
  have hall : ∀ release' detached, Call.freeBundle release (some b) = .terminate release' detached →
      s.amx_Initialized = 1 → FreesAll s (run debug s (.freeBundle release (some b))).2 := nofun
  rcases hcases with ⟨hrefused, -, hinv, hlive⟩ | ⟨hok, ⟨hshort, -, hinv, hfrees⟩ | ⟨htwo, hends⟩⟩
  · refine ⟨⟨fun _ => .inr hrefused, fun _ => ⟨hinv.consistent, ?_, hall⟩⟩, fun _ => hinv⟩
    rintro release' b' heq hfreed
    cases heq
    exact absurd hfreed hlive
  · refine ⟨⟨fun _ => .inl hshort, fun _ => ⟨hinv.consistent, ?_, hall⟩⟩, fun _ => hinv⟩
    rintro release' b' heq -
    cases heq
    exact hfrees
  · have hnot : ¬Sweepable s (.freeBundle release (some b)) := by
      rintro (hshort | ⟨e, he, hrefused⟩)
      · omega
      · rw [hok e he] at hrefused
        cases hrefused
    refine ⟨⟨fun hsound => ?_, fun hc => absurd hc hnot⟩, fun hc => absurd hc hnot⟩
    rcases hends with ⟨-, haborted⟩ | ⟨-, e, he, hfreed⟩
    · exact absurd hsound.consistent (not_consistent_aborted haborted)
    · exact absurd hsound.consistent (not_consistent_dangling he hfreed)

theorem sound_terminate (h : Inv s) (debug : Bool) (release : Ep → Bool) (detached : Bool)
    (hinit : s.amx_Initialized = 1) :
    (Sound debug s (.terminate release detached) ↔ Sweepable s (.terminate release detached)) ∧
      (Sweepable s (.terminate release detached) → Inv (run debug s (.terminate release detached)).2) := by
  refine ⟨⟨fun hsound => ?_, fun hcond => ?_⟩, fun hcond => (h.terminate_last debug hinit detached hcond).1⟩
  · by_contra hcond
    exact h.terminate_bad hinit detached hcond hsound.consistent
  · obtain ⟨hinv, hall⟩ := h.terminate_last debug hinit detached hcond
    exact ⟨hinv.consistent, nofun, fun _ _ heq _ => by cases heq; exact hall⟩

theorem sound_call (h : Inv s) (debug : Bool) {a : Call} (hproper : Proper s a) :
    (Sound debug s a ↔ Sweepable s a) ∧ (Sweepable s a → Inv (run debug s a).2) := by
  by_cases hbundle : ∃ release b, a = .freeBundle release (some b)
  · obtain ⟨release, b, rfl⟩ := hbundle
    exact sound_freeBundle h debug release (hproper b rfl)
  · by_cases hlast : ∃ release detached, a = .terminate release detached ∧ s.amx_Initialized = 1
    · obtain ⟨release, detached, rfl, hinit⟩ := hlast
      exact sound_terminate h debug release detached hinit
    · obtain ⟨hsound, hinv⟩ := sound_other h debug hproper
        (fun release b heq => hbundle ⟨release, b, heq⟩)
        fun release detached heq hinit => hlast ⟨release, detached, heq, hinit⟩
      have hcond : Sweepable s a := by
        cases a with
        | terminate release detached =>
          intro hinit
          exact absurd ⟨release, detached, rfl, hinit⟩ hlast
        | freeBundle release bundle =>
          cases bundle with
          | none => trivial
          | some b => exact absurd ⟨release, b, rfl⟩ hbundle
        | _ => trivial
      exact ⟨⟨fun _ => hcond, fun _ => hsound⟩, fun _ => hinv⟩

section Examples

def always : Ep → Bool := fun _ => true

/-- One bundle with one endpoint. -/
def one : State :=
  (run false (run false (run false initial .init).2 (.allocateBundle AM_SEQ true 1)).2
    (.allocateEndpoint true (some 1) true 1)).2

theorem reachable_one : Reachable (fun s a s' => Step false s a s' ∧ Sweepable s a) initial one := by
  have hinit : Reachable (fun s a s' => Step false s a s' ∧ Sweepable s a) initial (run false initial .init).2 :=
    Reachable.refl.snoc (a := Call.init) ⟨⟨rfl, trivial, rfl⟩, trivial⟩
  have hbundle := hinit.snoc
    (u := (run false (run false initial .init).2 (.allocateBundle AM_SEQ true 1)).2)
    (a := Call.allocateBundle AM_SEQ true 1) ⟨⟨rfl, rfl, rfl⟩, trivial⟩
  refine hbundle.snoc (a := Call.allocateEndpoint true (some 1) true 1) ⟨⟨rfl, ⟨?_, rfl⟩, rfl⟩, trivial⟩
  rintro b hb
  cases hb
  exact nofun

end Examples

end Gasnet.Bundles
