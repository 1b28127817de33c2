import Mathlib.Algebra.Order.BigOperators.Group.Finset
import Gasnet.Coll.ExchgDissemBlocks

/-! The exchange over the dissemination order that is built: it stays inside the scratch space, comes to
its end and is the flat all-to-all. -/
namespace Gasnet.Coll.ExchgDissem

open Dissem Blocks

variable {β : Type*} {X : Exchg β} {s t : State β} {r M o w a b c p q i j k l N n : ℕ} {h : ℕ → ℕ}
  {peerOut peerIn : ℕ → ℕ → ℕ → ℕ} {g g' : Stage} {msg : PutMsg β} {xs : List ℕ}

section Order

variable {nbytes : ℕ} {src : ℕ → ℕ → β} {insync outsync : Bool}

theorem inPeer_eq (hN : N < 2 ^ 31) (ha : a < N) (hl : l < N) : inPeer N a l = back N a l := by
  unfold inPeer back
  split <;> omega

theorem lt_rounds (hp : p < Nat.clog r N) : p < rounds r N := hp.trans_le (Nat.le_max_right ..)

theorem phases_order : (order r N a).phases = if 1 < N then rounds r N else 0 := rfl

theorem phases_eq (hr : 2 ≤ r) (hN : 0 < N) : (order r N a).phases = Nat.clog r N := by
  rw [phases_order]
  split
  · rename_i h1
    have hpos := Nat.clog_pos (by omega : 1 < r) h1
    unfold rounds
    omega
  · obtain rfl : N = 1 := by omega
    rw [Nat.clog_one_right]

theorem wired (hr : 2 ≤ r) (hN : 0 < N) (hsmall : r ^ rounds r N < 2 ^ 31) :
    Wired (⟨N, nbytes, order r N, src, insync, outsync⟩ : Exchg β) (Nat.clog r N) (degree r N)
      (fun p j a => outPeer N a ((j + 1) * r ^ p)) fun p j a => inPeer N a ((j + 1) * r ^ p) := by
  have hlt : N < 2 ^ 31 := (le_pow_rounds hr N).trans_lt hsmall
  have hstep : ∀ p < Nat.clog r N, ∀ j < degree r N p, (j + 1) * r ^ p < N := fun p hp j hj =>
    step_lt hr hN (lt_rounds hp) hj
  have hin : ∀ a < N, ∀ p < Nat.clog r N, ∀ j < degree r N p, inPeer N a ((j + 1) * r ^ p) < N := by
    intro a ha p hp j hj
    rw [inPeer_eq hlt ha (hstep p hp j hj)]
    exact back_lt ha
  have hout : ∀ a < N, ∀ p < Nat.clog r N, ∀ j < degree r N p, outPeer N a ((j + 1) * r ^ p) < N :=
    fun a _ p _ j _ => Nat.mod_lt _ hN
  refine ⟨fun a _ => phases_eq hr hN, fun h1 => ?_, fun a _ p hp => peerCount_eq (lt_rounds hp),
    fun a ha p hp j hj => ?_, fun a ha p hp j hj => ?_, hout, hin, fun a ha p hp j hj => ?_,
    fun a ha p hp j hj => ?_⟩
  · have hN1 : N = 1 := h1
    rw [hN1, Nat.clog_one_right]
  · show ((order r N a).frontPeers p)[j]? = _
    rw [frontPeers_eq (lt_rounds hp)]
    exact entries_getElem?.2 ⟨hj, rfl⟩
  · show ((order r N a).behindPeers p)[j]? = _
    rw [behindPeers_eq (lt_rounds hp)]
    exact entries_getElem?.2 ⟨hj, rfl⟩
  · exact (outPeer_inPeer hlt ha (hout a ha p hp j hj) (hstep p hp j hj)).1 rfl
  · exact (outPeer_inPeer hlt (hin a ha p hp j hj) ha (hstep p hp j hj)).2 rfl

/-- No digit of a rank is more than the peers of its phase. -/
theorem digit_le_degree (hr : 2 ≤ r) (hi : i < N) :
    i / r ^ p % r ≤ degree r N p := by
  have hpos : 0 < r ^ p := Nat.pow_pos (by omega)
  by_cases hlast : p = rounds r N - 1
  · have hle := (degree_last (by omega) hlast hpos).2
    have hdiv : i / r ^ p < degree r N p + 1 := (Nat.div_lt_iff_lt_mul hpos).2 (hi.trans_le hle)
    exact (Nat.mod_le _ _).trans (by omega)
  · rw [degree_inner hlast]
    have := Nat.mod_lt (i / r ^ p) (by omega : 0 < r)
    omega

theorem laid (hr : 2 ≤ r) (hr' : 2 * (r - 1) < 2 ^ 31) (hN : 0 < N) (hsmall : r ^ rounds r N < 2 ^ 31)
    (hM : M = (order r N 0).maxDissemBlocks)
    (hfit : nbytes * N + nbytes * M * 2 * (r - 1) < 2 ^ 64) :
    Laid (⟨N, nbytes, order r N, src, insync, outsync⟩ : Exchg β) r M (2 * (r - 1) * (M * nbytes))
      (Nat.clog r N) (degree r N) fun p j a => inPeer N a ((j + 1) * r ^ p) := by
  have hlt : N < 2 ^ 31 := (le_pow_rounds hr N).trans_lt hsmall
  have hmax : ∀ a, (order r N a).maxDissemBlocks = M := fun a => hM.symm
  have hsize : nbytes * M * 2 * (r - 1) = 2 * (r - 1) * (M * nbytes) := by ring
  have hmypow : ∀ p < Nat.clog r N, mypow r p = r ^ p := fun p hp => mypow_eq hr
    ((Nat.pow_le_pow_right (by omega) (lt_rounds hp).le).trans_lt (hsmall.trans (by decide)))
  refine ⟨fun a _ => ?_, fun a _ => rfl, fun a _ p j hj => ?_, rfl, fun p hp => ?_, fun p hp j hj => ?_,
    fun p hp j i => ?_, fun p _ i hi => digit_le_degree hr hi,
    Nat.le_pow_clog (by omega) N, fun a ha p hp j hj => ?_, fun a _ => ?_⟩
  · show (mulInt 2 (r - 1)).map (fun k => nbytes * (order r N a).maxDissemBlocks * k % 2 ^ 64) = _
    rw [mulInt_of_lt hr', Option.map_some, hmax, ← Nat.mul_assoc (nbytes * M), hsize,
      Nat.mod_eq_of_lt (by omega)]
  · show (p % 2 * (r - 1) + j) * ((order r N a).maxDissemBlocks * nbytes) % 2 ^ 64 = _
    have hidx : p % 2 * (r - 1) + j ≤ 2 * (r - 1) := by
      have hmod := Nat.mod_lt p (y := 2) (by omega)
      have hmul : p % 2 * (r - 1) ≤ 1 * (r - 1) := Nat.mul_le_mul_right _ (by omega)
      omega
    have hle := Nat.mul_le_mul_right (M * nbytes) hidx
    rw [hmax, Nat.mod_eq_of_lt (by omega)]
  · have := degree_lt hr hN (lt_rounds hp)
    omega
  · exact (covers hr hN hsmall).blocks 0 hN p hp j (by rw [peerCount_eq (lt_rounds hp)]; exact hj) |>.trans
      hM.ge
  · show i / mypow r p % r = j ↔ _
    rw [hmypow p hp]
  · exact inPeer_eq hlt ha (step_lt hr hN (lt_rounds hp) hj)
  · show (nbytes * N + nbytes * (order r N a).maxDissemBlocks * 2 * (r - 1)) % 2 ^ 64 = _
    rw [hmax, Nat.mod_eq_of_lt hfit, hsize, Nat.mul_comm nbytes, Nat.add_comm]

end Order

section Progress

/-- The receiver of a counted message waits for nothing but the senders. -/
theorem Control.can_step (hw : Wired X w h peerOut peerIn)
    (hscratch : ∀ a < X.totalRanks, X.scratch2 a = some o) (hc : Control X w h peerOut peerIn s)
    (hb : b < X.totalRanks) (hbd : s.stage b ≠ .done) : ∃ a t, Step X s a t := by
  by_cases hadv : ∃ a p j d idx, s.advances a p j = .sent d idx
  · obtain ⟨a, p, j, d, idx, hm⟩ := hadv
    exact ⟨a, _, .handleAdvance hm⟩
  by_cases hsent : ∃ a p j m, s.puts a p j = .sent m
  · obtain ⟨a, p, j, m, hm⟩ := hsent
    exact ⟨a, _, .land hm⟩
  by_cases hlanded : ∃ a p j m, s.puts a p j = .landed m
  · obtain ⟨a, p, j, m, hm⟩ := hlanded
    exact ⟨a, _, .handlePut hm⟩
  have hadv' : ∀ a p j, s.advances a p j ≠ .unsent → s.advances a p j = .handled := by
    intro a p j hne
    cases hm : s.advances a p j with
    | unsent => exact absurd hm hne
    | sent d idx => exact absurd ⟨a, p, j, d, idx, hm⟩ hadv
    | handled => rfl
  have hput' : ∀ a p j, (s.puts a p j).msg ≠ none → (s.puts a p j).isHandled := by
    intro a p j hne
    cases hm : s.puts a p j with
    | unsent =>
      rw [hm] at hne
      exact absurd rfl hne
    | sent m => exact absurd ⟨a, p, j, m, hm⟩ hsent
    | landed m => exact absurd ⟨a, p, j, m, hm⟩ hlanded
    | handled m => rfl
  by_cases hstart : ∃ a < X.totalRanks, s.stage a = .scratch
  · obtain ⟨a, ha, hg⟩ := hstart
    exact ⟨a, _, .alloc ha hg⟩
  have hgate : X.insync → ∀ b < X.totalRanks, s.stage b ≠ .scratch := fun _ b hb hg =>
    hstart ⟨b, hb, hg⟩
  -- the rank that is behind all others is not held up
  obtain ⟨a, ha, hmin⟩ := Finset.exists_min_image (Finset.range X.totalRanks)
    (fun a => (s.stage a).num w) ⟨b, Finset.mem_range.2 hb⟩
  rw [Finset.mem_range] at ha
  have hmin' : ∀ c < X.totalRanks, (s.stage a).num w ≤ (s.stage c).num w := fun c hc =>
    hmin c (Finset.mem_range.2 hc)
  have hvalid := hc.valid a
  have ho := hscratch a ha
  cases hg : s.stage a with
  | scratch => exact ⟨a, _, .alloc ha hg⟩
  | insync =>
    by_cases h1 : X.totalRanks = 1
    · exact ⟨a, _, .single ha hg hgate h1⟩
    · exact ⟨a, _, .rotate ha hg hgate h1 ho⟩
  | advance p j =>
    rw [hg] at hvalid
    by_cases hj : j < h p
    · exact ⟨a, _, .advance ha hg (by rwa [hw.peerCount a ha p hvalid.1])
        (hw.behind a ha p hvalid.1 j hj)⟩
    · exact ⟨a, _, .advanced ha hg (by rwa [hw.peerCount a ha p hvalid.1])⟩
  | clear p =>
    rw [hg] at hvalid hmin'
    refine ⟨a, _, .clear ha hg ?_⟩
    rw [hw.peerCount a ha p hvalid, hc.counter_advance a ha p hvalid, Nat.count_iff_forall]
    intro j hj
    refine hadv' _ p j ((hc.advances _ p j).2 ⟨hvalid, hj, .inl ?_⟩)
    have hle : 5 * p + 3 ≤ (s.stage (peerOut p j a)).num w := hmin' _ (hw.out_lt a ha p hvalid j hj)
    omega
  | send p j =>
    rw [hg] at hvalid
    by_cases hj : j < h p
    · exact ⟨a, _, .send ha hg (by rwa [hw.peerCount a ha p hvalid.1])
        (hw.front a ha p hvalid.1 j hj) ho rfl⟩
    · exact ⟨a, _, .sent ha hg (by rwa [hw.peerCount a ha p hvalid.1])⟩
  | await p =>
    rw [hg] at hvalid hmin'
    refine ⟨a, _, .await ha hg ?_⟩
    rw [hw.peerCount a ha p hvalid, hc.counter_put a ha p hvalid, Nat.count_iff_forall]
    intro j hj
    refine hput' _ p j ((hc.puts _ p j).2 ⟨hvalid, hj, .inl ?_⟩)
    have hle : 5 * p + 5 ≤ (s.stage (peerIn p j a)).num w := hmin' _ (hw.in_lt a ha p hvalid j hj)
    omega
  | unpack p j =>
    rw [hg] at hvalid
    by_cases hj : j < h p
    · exact ⟨a, _, .unpack ha hg (by rwa [hw.peerCount a ha p hvalid.1]) ho⟩
    · exact ⟨a, _, .unpacked ha hg (by rwa [hw.peerCount a ha p hvalid.1])⟩
  | copy => exact ⟨a, _, .copy ha hg ho⟩
  | outsync | done =>
    rw [hg] at hmin'
    have hend : ∀ c < X.totalRanks, s.stage c = .outsync ∨ s.stage c = .done := by
      intro c hc'
      have hle := hmin' c hc'
      have hv := hc.valid c
      cases hgc : s.stage c <;> rw [hgc] at hle hv <;> simp only [Stage.num, Stage.Valid] at hle hv <;>
        first | exact .inl rfl | exact .inr rfl | omega
    exact ⟨b, _, .finish hb ((hend b hb).resolve_right hbd) fun _ => hend⟩

end Progress

section Termination

/-- What a rank has left to do, and what its messages have. -/
def Stage.left (w r : ℕ) (g : Stage) : ℕ := (5 * w + 4 - g.num w) * (r + 2) + (r + 1 - g.sub)

def Advance.left : Advance → ℕ
  | unsent => 2
  | sent _ _ => 1
  | handled => 0

def Put.left : Put β → ℕ
  | unsent => 3
  | sent _ => 2
  | landed _ => 1
  | handled _ => 0

def own (w r : ℕ) (s : State β) (a : ℕ) : ℕ := (s.stage a).left w r +
  ∑ x ∈ Finset.range w ×ˢ Finset.range r, ((s.advances a x.1 x.2).left + (s.puts a x.1 x.2).left)

/-- A rank goes to a later place, or on in its loop. -/
def Forward (w r : ℕ) (g g' : Stage) : Prop :=
  g.num w < g'.num w ∧ g'.num w ≤ 5 * w + 4 ∧ g.sub ≤ r ∨
    g'.num w = g.num w ∧ g'.sub = g.sub + 1 ∧ g.sub < r

theorem left_lt (hf : Forward w r g g') : g'.left w r < g.left w r := by
  unfold Stage.left
  rcases hf with ⟨hlt, hle, hsub⟩ | ⟨hnum, hsub, hlt⟩
  · have hmul : (5 * w + 4 - g'.num w + 1) * (r + 2) ≤ (5 * w + 4 - g.num w) * (r + 2) :=
      Nat.mul_le_mul_right _ (by omega)
    rw [Nat.add_mul, Nat.one_mul] at hmul
    omega
  · rw [hnum, hsub]
    omega

theorem own_lt_of_stage (hf : Forward w r (s.stage a) (t.stage a))
    (hadv : ∀ p j, (t.advances a p j).left ≤ (s.advances a p j).left)
    (hput : ∀ p j, (t.puts a p j).left ≤ (s.puts a p j).left) : own w r t a < own w r s a :=
  Nat.add_lt_add_of_lt_of_le (left_lt hf)
    (Finset.sum_le_sum fun x _ => Nat.add_le_add (hadv x.1 x.2) (hput x.1 x.2))

theorem own_lt_of_message (hstage : t.stage a = s.stage a) (hp : p < w) (hj : j < r)
    (hadv : ∀ p j, (t.advances a p j).left ≤ (s.advances a p j).left)
    (hput : ∀ p j, (t.puts a p j).left ≤ (s.puts a p j).left)
    (hlt : (t.advances a p j).left + (t.puts a p j).left <
      (s.advances a p j).left + (s.puts a p j).left) : own w r t a < own w r s a := by
  unfold own
  rw [hstage]
  have hmem : (p, j) ∈ Finset.range w ×ˢ Finset.range r := by simp [hp, hj]
  have hsum : ∑ x ∈ Finset.range w ×ˢ Finset.range r,
      ((t.advances a x.1 x.2).left + (t.puts a x.1 x.2).left) <
      ∑ x ∈ Finset.range w ×ˢ Finset.range r,
        ((s.advances a x.1 x.2).left + (s.puts a x.1 x.2).left) :=
    Finset.sum_lt_sum (fun x _ => Nat.add_le_add (hadv x.1 x.2) (hput x.1 x.2)) ⟨(p, j), hmem, hlt⟩
  exact Nat.add_lt_add_left hsum _

theorem left_update3 {γ : Type*} {f : ℕ → ℕ → ℕ → γ} {v : γ} (left : γ → ℕ)
    (hle : left v ≤ left (f a p j)) (b q k : ℕ) : left (update3 f a p j v b q k) ≤ left (f b q k) := by
  by_cases heq : b = a ∧ q = p ∧ k = j
  · obtain ⟨rfl, rfl, rfl⟩ := heq
    rwa [update3_self]
  · rw [update3_of_ne heq]

theorem own_congr (hstage : t.stage b = s.stage b) (hadv : t.advances b = s.advances b)
    (hput : t.puts b = s.puts b) : own w r t b = own w r s b := by
  unfold own
  rw [hstage, hadv, hput]

theorem update3_other {γ : Type*} {f : ℕ → ℕ → ℕ → γ} {v : γ} (hb : b ≠ a) :
    update3 f a p j v b = f b := by
  funext q k
  exact update3_of_ne fun heq => hb heq.1

/-- What is left to do does not change for the others. -/
theorem own_other (hstep : Step X s a t) (hb : b ≠ a) : own w r t b = own w r s b := by
  cases hstep with
  | alloc | single | rotate | advanced | clear | sent | await | unpack | unpacked | copy | finish =>
    exact own_congr (Function.update_of_ne hb _ _) rfl rfl
  | advance => exact own_congr (Function.update_of_ne hb _ _) (update3_other hb) rfl
  | send => exact own_congr (Function.update_of_ne hb _ _) rfl (update3_other hb)
  | handleAdvance => exact own_congr rfl (update3_other hb) rfl
  | land | handlePut => exact own_congr rfl rfl (update3_other hb)

/-- Every step leaves less to do. -/
theorem own_lt (hw : Wired X w h peerOut peerIn) (hh : ∀ p < w, h p < r)
    (hc : Control X w h peerOut peerIn s) (hstep : Step X s a t) : own w r t a < own w r s a := by
  have hvalid := hc.valid a
  have hself : ∀ g, Function.update s.stage a g a = g := fun g => Function.update_self _ _ _
  cases hstep with
  | @handleAdvance p j b idx hm =>
    have hsent : s.advances a p j ≠ .unsent := by
      rw [hm]
      simp
    obtain ⟨-, hp, hj, -⟩ := hc.advance_sender hsent
    refine own_lt_of_message rfl hp (hj.trans (hh p hp))
      (left_update3 Advance.left (Nat.zero_le _) _) (fun q k => Nat.le_refl _) ?_
    show (update3 s.advances a p j _ a p j).left + _ < _
    rw [update3_self, hm]
    exact Nat.add_lt_add_right Nat.zero_lt_one _
  | @land p j m hm =>
    have hsent : (s.puts a p j).msg ≠ none := by simp [hm, Put.msg]
    obtain ⟨-, hp, hj, -⟩ := hc.put_sender hsent
    refine own_lt_of_message rfl hp (hj.trans (hh p hp)) (fun q k => Nat.le_refl _)
      (left_update3 Put.left (by show 1 ≤ (s.puts a p j).left; rw [hm]; exact Nat.le_succ 1) _) ?_
    show _ + (update3 s.puts a p j _ a p j).left < _
    rw [update3_self, hm]
    exact Nat.add_lt_add_left (Nat.lt_succ_self 1) _
  | @handlePut p j m hm =>
    have hsent : (s.puts a p j).msg ≠ none := by simp [hm, Put.msg]
    obtain ⟨-, hp, hj, -⟩ := hc.put_sender hsent
    refine own_lt_of_message rfl hp (hj.trans (hh p hp)) (fun q k => Nat.le_refl _)
      (left_update3 Put.left (Nat.zero_le _) _) ?_
    show _ + (update3 s.puts a p j _ a p j).left < _
    rw [update3_self, hm]
    exact Nat.add_lt_add_left (Nat.lt_succ_self 0) _
  | alloc ha hg | single ha hg | copy ha hg | finish ha hg =>
    refine own_lt_of_stage ?_ (fun _ _ => Nat.le_refl _) fun _ _ => Nat.le_refl _
    refine .inl ?_
    show _ < (Function.update s.stage a _ a).num w ∧ (Function.update s.stage a _ a).num w ≤ _ ∧ _
    rw [hself, hg]
    simp only [Stage.num, Stage.sub]
    omega
  | rotate ha hg =>
    refine own_lt_of_stage ?_ (fun _ _ => Nat.le_refl _) fun _ _ => Nat.le_refl _
    refine .inl ?_
    show _ < (Function.update s.stage a _ a).num w ∧ (Function.update s.stage a _ a).num w ≤ _ ∧ _
    have hpast := past_enter (X := X) (q := 0) (k := 0) (p := 0) (hw.phases a ha)
    rw [hself, hg, hpast.2.2]
    simp only [Stage.num, Stage.sub]
    omega
  | unpacked ha hg =>
    rw [hg] at hvalid
    refine own_lt_of_stage ?_ (fun _ _ => Nat.le_refl _) fun _ _ => Nat.le_refl _
    refine .inl ?_
    show _ < (Function.update s.stage a _ a).num w ∧ (Function.update s.stage a _ a).num w ≤ _ ∧ _
    have hlt := hh _ hvalid.1
    have hle := hvalid.2
    have hp := hvalid.1
    rw [hself, hg, (past_enter (X := X) (q := 0) (k := 0) (hw.phases a ha)).2.2]
    simp only [Stage.num, Stage.sub]
    omega
  | advanced ha hg | clear ha hg | sent ha hg | await ha hg =>
    rw [hg] at hvalid
    refine own_lt_of_stage ?_ (fun _ _ => Nat.le_refl _) fun _ _ => Nat.le_refl _
    refine .inl ?_
    show _ < (Function.update s.stage a _ a).num w ∧ (Function.update s.stage a _ a).num w ≤ _ ∧ _
    rw [hself, hg]
    simp only [Stage.num, Stage.sub, Stage.Valid] at hvalid ⊢
    first
    | omega
    | (have hlt := hh _ hvalid.1
       omega)
  | @unpack p j o ha hg hj =>
    rw [hg] at hvalid
    rw [hw.peerCount a ha p hvalid.1] at hj
    refine own_lt_of_stage ?_ (fun _ _ => Nat.le_refl _) fun _ _ => Nat.le_refl _
    refine .inr ?_
    show (Function.update s.stage a _ a).num w = _ ∧ (Function.update s.stage a _ a).sub = _ ∧ _
    rw [hself, hg]
    exact ⟨rfl, rfl, hj.trans (hh p hvalid.1)⟩
  | @advance p j b ha hg hj =>
    rw [hg] at hvalid
    rw [hw.peerCount a ha p hvalid.1] at hj
    have hunsent := hc.advance_unsent hg
    refine own_lt_of_stage (.inr ?_) (left_update3 Advance.left ?_ _) fun _ _ => Nat.le_refl _
    · show (Function.update s.stage a _ a).num w = _ ∧ (Function.update s.stage a _ a).sub = _ ∧ _
      rw [hself, hg]
      exact ⟨rfl, rfl, hj.trans (hh p hvalid.1)⟩
    · rw [hunsent]
      exact Nat.le_succ 1
  | @send p j b o nblocks m ha hg hj =>
    rw [hg] at hvalid
    rw [hw.peerCount a ha p hvalid.1] at hj
    have hunsent := hc.put_unsent hg
    refine own_lt_of_stage (.inr ?_) (fun _ _ => Nat.le_refl _) (left_update3 Put.left ?_ _)
    · show (Function.update s.stage a _ a).num w = _ ∧ (Function.update s.stage a _ a).sub = _ ∧ _
      rw [hself, hg]
      exact ⟨rfl, rfl, hj.trans (hh p hvalid.1)⟩
    · show 2 ≤ (s.puts a p j).left
      rw [hunsent]
      exact Nat.le_succ 2

/-- Steps are those of ranks of the team. -/
theorem actor_lt (hc : Control X w h peerOut peerIn s) (hstep : Step X s a t) : a < X.totalRanks := by
  cases hstep with
  | @handleAdvance p j _ _ hm =>
    have hsent : s.advances a p j ≠ .unsent := by simp [hm]
    exact (hc.advance_sender hsent).1
  | @land p j m hm | @handlePut p j m hm =>
    have hsent : (s.puts a p j).msg ≠ none := by simp [hm, Put.msg]
    exact (hc.put_sender hsent).1
  | alloc ha | single ha | rotate ha | advance ha | advanced ha | clear ha | send ha | sent ha
  | await ha | unpack ha | unpacked ha | copy ha | finish ha => exact ha

/-- No run is longer than what there is to do in the beginning. -/
theorem run_length_le (hw : Wired X w h peerOut peerIn) (hh : ∀ p < w, h p < r)
    (hrun : Run (Step X) s xs t) (hc : Control X w h peerOut peerIn s) :
    xs.length ≤ ∑ a ∈ Finset.range X.totalRanks, own w r s a := by
  induction hrun with
  | refl => exact Nat.zero_le _
  | @stepL s u t a xs hstep hrun ih =>
    have hc' := control_step hw hstep hc
    have hlt := own_lt hw hh hc hstep
    have ha : a < X.totalRanks := actor_lt hc hstep
    have hsum : ∑ b ∈ Finset.range X.totalRanks, own w r u b <
        ∑ b ∈ Finset.range X.totalRanks, own w r s b := by
      refine Finset.sum_lt_sum (fun b _ => ?_) ⟨a, Finset.mem_range.2 ha, hlt⟩
      by_cases hb : b = a
      · exact hb ▸ hlt.le
      · exact (own_other hstep hb).le
    have hrest := ih hc'
    rw [List.length_cons]
    omega

end Termination

/-- Past the round of the loop that reads buffer `j` of phase `p`. -/
def Stage.Unpacked (p j : ℕ) : Stage → Prop
  | advance q _ | clear q | send q _ | await q => p < q
  | unpack q i => p < q ∨ p = q ∧ j < i
  | copy | outsync | done => True
  | scratch | insync => False

theorem unpacked_of_past (hpast : g.Past w (5 * p + 6) j) : g.Unpacked p j := by
  cases g <;> simp only [Stage.Past, Stage.num, Stage.sub, Stage.Unpacked] at * <;> omega

/-- What holds in every state. A rank that is through has got its block from every rank, and no access
goes beyond what was asked for. A rank unpacks as many blocks as its peer has packed, which are those the
peer had, and until then what has landed stays. Somebody can go on until all are through. -/
structure Correct (X : Exchg β) (s : State β) : Prop where
  exchanged : ∀ d < X.totalRanks, s.stage d = .outsync ∨ s.stage d = .done →
    ∀ i < X.totalRanks, ∀ k < X.nbytes, s.dst d (i * X.nbytes + k) = X.src i (d * X.nbytes + k)
  inside : ∀ a < X.totalRanks, ∀ o, X.scratch2 a = some o → ∀ x ∈ accesses X a o (s.stage a),
    x.1 + x.2 ≤ X.incomingSize a
  lands : ∀ a p j msg, s.puts a p j = .sent msg → msg.dest < X.totalRanks ∧
    msg.addr + msg.nbytes ≤ X.incomingSize msg.dest
  unpacks : ∀ a < X.totalRanks, ∀ p j, s.stage a = .unpack p j → j < (X.info a).peerCount p →
    ∃ b msg, ((X.info a).behindPeers p)[j]? = some b ∧ s.puts b p j = .handled msg ∧ msg.dest = a ∧
      msg.addr = X.idxExpr a (p + 1) j ∧
      msg.nbytes = Nat.count (Selected p (X.info a).radix (j + 1)) X.totalRanks * X.nbytes ∧
      (∀ i < X.totalRanks, Selected p (X.info a).radix (j + 1) i → ∀ k < X.nbytes,
        msg.payload (Nat.count (Selected p (X.info a).radix (j + 1)) i * X.nbytes + k) =
          held X (X.info a).radix p b i k) ∧
      ∀ k < msg.nbytes, s.scratch a (msg.addr + k) = msg.payload k
  kept : ∀ a p j msg, s.puts a p j = .landed msg ∨ s.puts a p j = .handled msg →
    ¬(s.stage msg.dest).Unpacked p j → ∀ k < msg.nbytes, s.scratch msg.dest (msg.addr + k) = msg.payload k
  goes_on : (∃ a < X.totalRanks, s.stage a ≠ .done) → ∃ a t, Step X s a t

/-- A buffer and the blocks of the scratch space are inside it. -/
theorem buffer_inside (hl : Laid X r M o w h peerIn) (hp : p < w) (hj : j < h p) (q : ℕ) :
    buf X r M q j + Nat.count (Selected p r (j + 1)) X.totalRanks * X.nbytes ≤
      o + X.totalRanks * X.nbytes :=
  (buf_end_le hl (hj.trans_le (hl.peers p hp)) (Nat.mul_le_mul_right _ (hl.blocks p hp j hj))).trans
    (Nat.le_add_right ..)

theorem block_inside (hi : i < N) : o + i * n + n ≤ o + N * n := by
  have hend := block_end_le (n := n) hi
  omega

/-- The next step of a rank stays inside its scratch space. -/
theorem accesses_inside (hw : Wired X w h peerOut peerIn) (hl : Laid X r M o w h peerIn)
    (hc : Control X w h peerOut peerIn s) (ha : a < X.totalRanks) (x : ℕ × ℕ)
    (hx : x ∈ accesses X a o (s.stage a)) : x.1 + x.2 ≤ X.incomingSize a := by
  have hvalid := hc.valid a
  rw [hl.size a ha]
  cases hg : s.stage a with
  | insync =>
    rw [hg, accesses] at hx
    split at hx
    · cases hx
    · have hsum : (X.totalRanks - a) * X.nbytes + (X.totalRanks - (X.totalRanks - a)) * X.nbytes =
          X.totalRanks * X.nbytes := by
        rw [← Nat.add_mul]
        congr 1
        omega
      rcases List.mem_pair.1 hx with rfl | rfl <;> dsimp only <;> omega
  | send p j | unpack p j =>
    rw [hg] at hvalid
    rw [hg, accesses] at hx
    split at hx
    · cases hx
    · rename_i hj
      rw [not_not, hw.peerCount a ha p hvalid.1] at hj
      rw [hl.radix a ha, hl.idxExpr a ha _ j (hj.trans_le (hl.peers p hvalid.1))] at hx
      rcases List.mem_append.1 hx with hx | hx
      · obtain ⟨i, hi, rfl⟩ := List.mem_map.1 hx
        exact block_inside (List.mem_range.1 (List.mem_filter.1 hi).1)
      · obtain rfl := List.mem_singleton.1 hx
        exact buffer_inside hl hvalid.1 hj _
  | copy =>
    rw [hg, accesses] at hx
    obtain ⟨i, hi, rfl⟩ := List.mem_map.1 hx
    exact block_inside (back_lt ha)
  | scratch | advance _ _ | clear _ | await _ | outsync | done =>
    simp [hg, accesses] at hx

theorem correct_of (hw : Wired X w h peerOut peerIn) (hl : Laid X r M o w h peerIn)
    (hc : Control X w h peerOut peerIn s) (hd : Data X r M o w s) : Correct X s := by
  refine ⟨fun d hdlt hg => hd.exchanged d hdlt ?_, fun a ha o' ho x hx => ?_, fun a p j msg hm => ?_,
    fun a ha p j hg hj => ?_, fun a p j msg hm hnot => hd.buffer a p j msg hm (mt unpacked_of_past hnot),
    fun ⟨b, hb, hbd⟩ => hc.can_step hw hl.scratch2 hb hbd⟩
  · rcases hg with hg | hg <;> rw [hg] <;> simp only [Stage.num] <;> omega
  · obtain rfl := Option.some.inj (ho.symm.trans (hl.scratch2 a ha))
    exact accesses_inside hw hl hc ha x hx
  · have hmsg : (s.puts a p j).msg = some msg := by
      rw [hm]
      rfl
    obtain ⟨hlt, -, hp, hj, -⟩ := same_phase hw hc hmsg
    obtain ⟨haddr, hn, -⟩ := hd.payload a p j msg hmsg
    refine ⟨hlt, ?_⟩
    rw [haddr, hn, hl.size _ hlt]
    exact buffer_inside hl hp hj _
  · have hvalid := hc.valid a
    rw [hg] at hvalid
    rw [hw.peerCount a ha p hvalid.1] at hj
    obtain ⟨msg, hput, hdest, haddr, hn, hread⟩ := received hw hc hd ha hg hvalid.1 hj
    have hmsg : (s.puts (peerIn p j a) p j).msg = some msg := by
      rw [hput]
      rfl
    rw [hl.radix a ha, hl.idxExpr a ha _ j (hj.trans_le (hl.peers p hvalid.1))]
    exact ⟨_, msg, hw.behind a ha p hvalid.1 j hj, hput, hdest, haddr, hn,
      (hd.payload _ p j msg hmsg).2.2, hread⟩

/-- The exchange does what it is for with every content of the memories, in every run, and no run goes on
for ever. -/
def Exchanges (r N nbytes : ℕ) (src : ℕ → ℕ → β) (insync outsync : Bool) : Prop :=
  ∃ info : ℕ → Info, (∀ a < N, buildDissemination r N a = some (info a)) ∧
    ∀ scratch dst : ℕ → ℕ → β,
      (∀ s, Reachable (Step (⟨N, nbytes, info, src, insync, outsync⟩ : Exchg β)) (initial scratch dst) s →
        Correct (⟨N, nbytes, info, src, insync, outsync⟩ : Exchg β) s) ∧
      ∃ bound, ∀ xs s, Run (Step (⟨N, nbytes, info, src, insync, outsync⟩ : Exchg β))
        (initial scratch dst) xs s → xs.length ≤ bound

/-- The size of the scratch space is a `size_t`. -/
def Fits (r N nbytes : ℕ) : Prop := ∀ info, buildDissemination r N 0 = some info →
  nbytes * N + nbytes * info.maxDissemBlocks * 2 * (r - 1) < 2 ^ 64

/-- With the powers of the radix and twice the radix in range of an `int`, and a scratch space of a size
that there is, the exchange is the flat all-to-all. -/
theorem exchange_correct (r N nbytes : ℕ) (src : ℕ → ℕ → β) (insync outsync : Bool) (hr : 2 ≤ r)
    (hN : 1 ≤ N) (hpow : r ^ Nat.clog r N < 2 ^ 31) (hr' : 2 * (r - 1) < 2 ^ 31)
    (hfit : Fits r N nbytes) : Exchanges r N nbytes src insync outsync := by
  have hsmall : r ^ rounds r N < 2 ^ 31 := by
    unfold rounds
    rcases Nat.le_total 1 (Nat.clog r N) with h | h
    · rwa [Nat.max_eq_right h]
    · rw [Nat.max_eq_left h, pow_one]
      omega
  have hbuild := buildDissemination_eq (N := N) hr hsmall
  have hw := @wired β r N nbytes src insync outsync hr hN hsmall
  have hl := @laid β r _ N nbytes src insync outsync hr hr' hN hsmall rfl (hfit _ (hbuild 0))
  refine ⟨order r N, fun a _ => hbuild a, fun scratch dst => ⟨fun s hs => ?_, _, fun xs s hrun =>
    run_length_le hw (fun p hp => degree_lt hr hN (lt_rounds hp)) hrun control_initial⟩⟩
  have hboth := hs.invariant (P := fun s => Control _ _ _ _ _ s ∧ Data _ _ _ _ _ s)
    (fun hstep hs => ⟨control_step hw hstep hs.1, data_step hw hl hstep hs.1 hs.2⟩)
    ⟨control_initial, data_initial⟩
  exact correct_of hw hl hboth.1 hboth.2

theorem exchange_correct_five :
    Exchanges 3 5 2 (fun a k => UInt8.ofNat (10 * a + k)) true true := by
  refine exchange_correct 3 5 2 _ true true (by decide) (by decide) (by decide) (by decide) fun info h => ?_
  rw [buildDissemination_eq (by decide) (by decide)] at h
  obtain rfl := Option.some.inj h
  decide

/-- With radix 4 and one rank more than 2^30 there is no order to exchange by. -/
theorem exchange_overflows : ¬Exchanges 4 (2 ^ 30 + 1) 1 (fun _ _ => (0 : UInt8)) true true := by
  rintro ⟨info, hinfo, -⟩
  have hlog : mylogn (2 ^ 30 + 1) 4 = none := by decide
  have hbuild := hinfo 0 (by decide)
  rw [buildDissemination, hlog] at hbuild
  cases hbuild

end Gasnet.Coll.ExchgDissem
