import Gasnet.Coll.ExchgDissem

/-! How far the ranks and their messages are, whatever the blocks hold. -/
namespace Gasnet.Coll.ExchgDissem

variable {β : Type*} {X : Exchg β} {s t : State β} {w a b p q j k idx : ℕ} {h : ℕ → ℕ}
  {peerOut peerIn : ℕ → ℕ → ℕ → ℕ} {g g' : Stage} {m : PutMsg β}

/-- The orders of all ranks have the same phases, and in- and out-peers that fit together. -/
structure Wired (X : Exchg β) (w : ℕ) (h : ℕ → ℕ) (peerOut peerIn : ℕ → ℕ → ℕ → ℕ) : Prop where
  phases : ∀ a < X.totalRanks, (X.info a).phases = w
  single : X.totalRanks = 1 → w = 0
  peerCount : ∀ a < X.totalRanks, ∀ p < w, (X.info a).peerCount p = h p
  front : ∀ a < X.totalRanks, ∀ p < w, ∀ j < h p, ((X.info a).frontPeers p)[j]? = some (peerOut p j a)
  behind : ∀ a < X.totalRanks, ∀ p < w, ∀ j < h p, ((X.info a).behindPeers p)[j]? = some (peerIn p j a)
  out_lt : ∀ a < X.totalRanks, ∀ p < w, ∀ j < h p, peerOut p j a < X.totalRanks
  in_lt : ∀ a < X.totalRanks, ∀ p < w, ∀ j < h p, peerIn p j a < X.totalRanks
  in_out : ∀ a < X.totalRanks, ∀ p < w, ∀ j < h p, peerIn p j (peerOut p j a) = a
  out_in : ∀ a < X.totalRanks, ∀ p < w, ∀ j < h p, peerOut p j (peerIn p j a) = a

namespace Stage

/-- The places of the stages on the way through `w` phases. -/
def num (w : ℕ) : Stage → ℕ
  | scratch => 0
  | insync => 1
  | advance p _ => 5 * p + 2
  | clear p => 5 * p + 3
  | send p _ => 5 * p + 4
  | await p => 5 * p + 5
  | unpack p _ => 5 * p + 6
  | copy => 5 * w + 2
  | outsync => 5 * w + 3
  | done => 5 * w + 4

/-- The index of the loop. -/
def sub : Stage → ℕ
  | advance _ j | send _ j | unpack _ j => j
  | _ => 0

/-- Behind round `j` of the loop at place `k`. -/
def Past (w : ℕ) (g : Stage) (k j : ℕ) : Prop := k < g.num w ∨ g.num w = k ∧ j < g.sub

def Valid (w : ℕ) (h : ℕ → ℕ) : Stage → Prop
  | advance p j | send p j | unpack p j => p < w ∧ j ≤ h p
  | clear p | await p => p < w
  | _ => True

end Stage

namespace Put

def msg : Put β → Option (PutMsg β)
  | unsent => none
  | sent m | landed m | handled m => some m

def isHandled : Put β → Bool
  | handled _ => true
  | _ => false

end Put

/-- A message has been sent if its sender is past the round that sends it, and a counter has counted the
messages that are handled. -/
structure Control (X : Exchg β) (w : ℕ) (h : ℕ → ℕ) (peerOut peerIn : ℕ → ℕ → ℕ → ℕ) (s : State β) :
    Prop where
  valid : ∀ a, (s.stage a).Valid w h
  outside : ∀ a, X.totalRanks ≤ a → s.stage a = .scratch
  advances : ∀ a p j, s.advances a p j ≠ .unsent ↔ p < w ∧ j < h p ∧ (s.stage a).Past w (5 * p + 2) j
  puts : ∀ a p j, (s.puts a p j).msg ≠ none ↔ p < w ∧ j < h p ∧ (s.stage a).Past w (5 * p + 4) j
  advance_msg : ∀ a p j b idx, s.advances a p j = .sent b idx → b = peerIn p j a ∧ idx = p * 2
  put_msg : ∀ a p j m, (s.puts a p j).msg = some m → m.dest = peerOut p j a ∧ m.idx = p * 2 + 1
  counter_advance : ∀ b < X.totalRanks, ∀ p < w, s.counter b (p * 2) =
    Nat.count (fun j => s.advances (peerOut p j b) p j = .handled) (h p)
  counter_put : ∀ b < X.totalRanks, ∀ p < w, s.counter b (p * 2 + 1) =
    Nat.count (fun j => (s.puts (peerIn p j b) p j).isHandled) (h p)
  cleared : ∀ b < X.totalRanks, ∀ p < w, 5 * p + 4 ≤ (s.stage b).num w →
    ∀ j < h p, s.advances (peerOut p j b) p j = .handled
  filled : ∀ b < X.totalRanks, ∀ p < w, 5 * p + 6 ≤ (s.stage b).num w →
    ∀ j < h p, (s.puts (peerIn p j b) p j).isHandled

theorem control_initial {scratch dst : ℕ → ℕ → β} :
    Control X w h peerOut peerIn (initial scratch dst) := by
  constructor <;> simp [initial, Stage.Valid, Stage.Past, Stage.num, Stage.sub, Put.msg, Put.isHandled,
    Nat.count_false]

theorem update3_self {γ : Type*} {f : ℕ → ℕ → ℕ → γ} {v : γ} : update3 f a p j v a p j = v := by
  simp [update3]

theorem update3_of_ne {γ : Type*} {f : ℕ → ℕ → ℕ → γ} {v : γ} (hne : ¬(b = a ∧ q = p ∧ k = j)) :
    update3 f a p j v b q k = f b q k := if_neg hne

/-- One more of them holds. -/
theorem count_add_one {P Q : ℕ → Prop} [DecidablePred P] [DecidablePred Q] {n : ℕ} (hj : j < n)
    (hnot : ¬P j) (hyes : Q j) (hrest : ∀ k < n, k ≠ j → (Q k ↔ P k)) :
    Nat.count Q n = Nat.count P n + 1 := by
  rw [Nat.count_eq_card_filter_range, Nat.count_eq_card_filter_range]
  have hinsert : (Finset.range n).filter Q = insert j ((Finset.range n).filter P) := by
    ext k
    simp only [Finset.mem_filter, Finset.mem_range, Finset.mem_insert]
    by_cases hk : k = j
    · subst hk
      simp [hj, hyes]
    · simp only [hk, false_or]
      exact and_congr_right fun hkn => hrest k hkn hk
  rw [hinsert, Finset.card_insert_of_notMem (by simp [hnot])]

theorem count_congr {P Q : ℕ → Prop} [DecidablePred P] [DecidablePred Q] {n : ℕ}
    (heq : ∀ k < n, (Q k ↔ P k)) : Nat.count Q n = Nat.count P n :=
  Nat.le_antisymm (Nat.count_mono_left fun k hk => (heq k hk).1)
    (Nat.count_mono_left fun k hk => (heq k hk).2)

/-- A rank goes from one place to another, and may send messages by the way. -/
theorem Control.move (hs : Control X w h peerOut peerIn s) (ha : a < X.totalRanks)
    (hstage : t.stage = Function.update s.stage a g) (hcount : t.counter = s.counter)
    (hvalid : g.Valid w h)
    (hadv : ∀ b q k, t.advances b q k = s.advances b q k ∨
      s.advances b q k = .unsent ∧ t.advances b q k = .sent (peerIn q k b) (q * 2))
    (hadvOut : ∀ b ≠ a, ∀ q k, t.advances b q k = s.advances b q k)
    (hadvPast : ∀ q k, t.advances a q k ≠ .unsent ↔ q < w ∧ k < h q ∧ g.Past w (5 * q + 2) k)
    (hput : ∀ b q k, t.puts b q k = s.puts b q k ∨ s.puts b q k = .unsent ∧
      ∃ m, t.puts b q k = .sent m ∧ m.dest = peerOut q k b ∧ m.idx = q * 2 + 1)
    (hputOut : ∀ b ≠ a, ∀ q k, t.puts b q k = s.puts b q k)
    (hputPast : ∀ q k, (t.puts a q k).msg ≠ none ↔ q < w ∧ k < h q ∧ g.Past w (5 * q + 4) k)
    (hclear : ∀ q < w, 5 * q + 4 ≤ g.num w →
      5 * q + 4 ≤ (s.stage a).num w ∨ s.counter a (q * 2) = h q)
    (hfill : ∀ q < w, 5 * q + 6 ≤ g.num w →
      5 * q + 6 ≤ (s.stage a).num w ∨ s.counter a (q * 2 + 1) = h q) :
    Control X w h peerOut peerIn t := by
  have hself : t.stage a = g := by rw [hstage, Function.update_self]
  have hother : ∀ b ≠ a, t.stage b = s.stage b := fun b hb => by rw [hstage, Function.update_of_ne hb]
  have hhandled : ∀ b q k, t.advances b q k = .handled ↔ s.advances b q k = .handled := by
    intro b q k
    rcases hadv b q k with heq | ⟨hold, hnew⟩
    · rw [heq]
    · rw [hold, hnew]
      simp
  have hhandled' : ∀ b q k, (t.puts b q k).isHandled = (s.puts b q k).isHandled := by
    intro b q k
    rcases hput b q k with heq | ⟨hold, m, hnew, -⟩
    · rw [heq]
    · rw [hold, hnew]
      rfl
  constructor
  · intro b
    by_cases hb : b = a
    · rw [hb, hself]
      exact hvalid
    · rw [hother b hb]
      exact hs.valid b
  · intro b hb
    rw [hother b (by omega)]
    exact hs.outside b hb
  · intro b q k
    by_cases hb : b = a
    · rw [hb, hself]
      exact hadvPast q k
    · rw [hother b hb, hadvOut b hb]
      exact hs.advances b q k
  · intro b q k
    by_cases hb : b = a
    · rw [hb, hself]
      exact hputPast q k
    · rw [hother b hb, hputOut b hb]
      exact hs.puts b q k
  · intro b q k c i hm
    rcases hadv b q k with heq | ⟨-, hnew⟩
    · exact hs.advance_msg b q k c i (heq ▸ hm)
    · rw [hnew] at hm
      injection hm with hc hi
      exact ⟨hc.symm, hi.symm⟩
  · intro b q k m hm
    rcases hput b q k with heq | ⟨-, m', hnew, hd, hi⟩
    · exact hs.put_msg b q k m (heq ▸ hm)
    · rw [hnew] at hm
      obtain rfl := Option.some.inj hm
      exact ⟨hd, hi⟩
  · intro b hb q hq
    rw [hcount, hs.counter_advance b hb q hq]
    exact count_congr fun k _ => (hhandled _ q k).symm
  · intro b hb q hq
    rw [hcount, hs.counter_put b hb q hq]
    exact count_congr fun k _ => by rw [hhandled']
  · intro b hb q hq hnum k hk
    rw [hhandled]
    by_cases hba : b = a
    · subst hba
      rw [hself] at hnum
      rcases hclear q hq hnum with hold | hall
      · exact hs.cleared b hb q hq hold k hk
      · rw [hs.counter_advance b hb q hq] at hall
        exact Nat.count_iff_forall.1 hall k hk
    · rw [hother b hba] at hnum
      exact hs.cleared b hb q hq hnum k hk
  · intro b hb q hq hnum k hk
    rw [hhandled']
    by_cases hba : b = a
    · subst hba
      rw [hself] at hnum
      rcases hfill q hq hnum with hold | hall
      · exact hs.filled b hb q hq hold k hk
      · rw [hs.counter_put b hb q hq] at hall
        exact Nat.count_iff_forall.1 hall k hk
    · rw [hother b hba] at hnum
      exact hs.filled b hb q hq hnum k hk

/-- A rank goes on without a message. -/
theorem Control.walk (hs : Control X w h peerOut peerIn s) (ha : a < X.totalRanks)
    (hstage : t.stage = Function.update s.stage a g) (hcount : t.counter = s.counter)
    (hadv : t.advances = s.advances) (hput : t.puts = s.puts) (hvalid : g.Valid w h)
    (hpast : ∀ q < w, ∀ k < h q, (g.Past w (5 * q + 2) k ↔ (s.stage a).Past w (5 * q + 2) k) ∧
      (g.Past w (5 * q + 4) k ↔ (s.stage a).Past w (5 * q + 4) k))
    (hclear : ∀ q < w, 5 * q + 4 ≤ g.num w →
      5 * q + 4 ≤ (s.stage a).num w ∨ s.counter a (q * 2) = h q)
    (hfill : ∀ q < w, 5 * q + 6 ≤ g.num w →
      5 * q + 6 ≤ (s.stage a).num w ∨ s.counter a (q * 2 + 1) = h q) :
    Control X w h peerOut peerIn t := by
  refine hs.move ha hstage hcount hvalid (fun b q k => .inl (by rw [hadv])) (fun b _ q k => by rw [hadv])
    (fun q k => ?_) (fun b q k => .inl (by rw [hput])) (fun b _ q k => by rw [hput]) (fun q k => ?_)
    hclear hfill
  · rw [hadv, hs.advances]
    exact and_congr_right fun hq => and_congr_right fun hk => (hpast q hq k hk).1.symm
  · rw [hput, hs.puts]
    exact and_congr_right fun hq => and_congr_right fun hk => (hpast q hq k hk).2.symm

/-- Only ranks of the team send. -/
theorem Control.sender_lt (hs : Control X w h peerOut peerIn s) (hpast : (s.stage a).Past w (k + 1) j) :
    a < X.totalRanks := by
  by_contra hge
  rw [hs.outside a (by omega)] at hpast
  rcases hpast with hlt | ⟨heq, -⟩
  · exact absurd hlt (Nat.not_lt_zero _)
  · exact absurd heq (Nat.succ_ne_zero _).symm

theorem Control.advance_sender (hs : Control X w h peerOut peerIn s)
    (hm : s.advances a p j ≠ .unsent) : a < X.totalRanks ∧ p < w ∧ j < h p ∧
      (s.stage a).Past w (5 * p + 2) j := by
  have hsent := (hs.advances a p j).1 hm
  exact ⟨hs.sender_lt hsent.2.2, hsent⟩

theorem Control.put_sender (hs : Control X w h peerOut peerIn s)
    (hm : (s.puts a p j).msg ≠ none) : a < X.totalRanks ∧ p < w ∧ j < h p ∧
      (s.stage a).Past w (5 * p + 4) j := by
  have hsent := (hs.puts a p j).1 hm
  exact ⟨hs.sender_lt hsent.2.2, hsent⟩

theorem control_handleAdvance (hw : Wired X w h peerOut peerIn) (hs : Control X w h peerOut peerIn s)
    (hm : s.advances a p j = .sent b idx) :
    Control X w h peerOut peerIn ((s.count b idx).setAdvance a p j .handled) := by
  have hsent : s.advances a p j ≠ .unsent := by simp [hm]
  obtain ⟨ha, hp, hj, -⟩ := hs.advance_sender hsent
  obtain ⟨rfl, rfl⟩ := hs.advance_msg a p j b idx hm
  have hold : ∀ c q k, s.advances c q k = .handled →
      update3 s.advances a p j .handled c q k = .handled := by
    intro c q k hc
    by_cases heq : c = a ∧ q = p ∧ k = j
    · obtain ⟨rfl, rfl, rfl⟩ := heq
      exact update3_self
    · rw [update3_of_ne heq, hc]
  refine ⟨hs.valid, hs.outside, fun c q k => ?_, hs.puts, fun c q k d i hc => ?_, hs.put_msg,
    fun c hc q hq => ?_, fun c hc q hq => ?_, fun c hc q hq hnum k hk => hold _ _ _
    (hs.cleared c hc q hq hnum k hk), hs.filled⟩
  · refine Iff.trans ?_ (hs.advances c q k)
    show update3 s.advances a p j .handled c q k ≠ _ ↔ _
    by_cases heq : c = a ∧ q = p ∧ k = j
    · obtain ⟨rfl, rfl, rfl⟩ := heq
      simp [update3_self, hm]
    · rw [update3_of_ne heq]
  · replace hc : update3 s.advances a p j .handled c q k = .sent d i := hc
    by_cases heq : c = a ∧ q = p ∧ k = j
    · obtain ⟨rfl, rfl, rfl⟩ := heq
      simp [update3_self] at hc
    · rw [update3_of_ne heq] at hc
      exact hs.advance_msg c q k d i hc
  · show (if c = peerIn p j a ∧ q * 2 = p * 2 then s.counter c (q * 2) + 1 else s.counter c (q * 2)) =
      Nat.count (fun k => update3 s.advances a p j .handled (peerOut q k c) q k = .handled) (h q)
    rw [hs.counter_advance c hc q hq]
    by_cases hcq : c = peerIn p j a ∧ q * 2 = p * 2
    · obtain ⟨rfl, hqp⟩ := hcq
      obtain rfl : q = p := by omega
      have hback := hw.out_in a ha q hp j hj
      rw [if_pos ⟨rfl, rfl⟩]
      refine (count_add_one hj ?_ ?_ fun k hk hkj => ?_).symm
      · simp [hback, hm]
      · simp [hback, update3_self]
      · rw [update3_of_ne (by omega)]
    · rw [if_neg hcq]
      refine (count_congr fun k hk => ?_).symm
      rw [update3_of_ne]
      rintro ⟨hcb, rfl, rfl⟩
      have hback := hw.in_out c hc q hq k hk
      exact hcq ⟨by rw [← hcb, hback], rfl⟩
  · show (if c = peerIn p j a ∧ q * 2 + 1 = p * 2 then s.counter c (q * 2 + 1) + 1
      else s.counter c (q * 2 + 1)) = _
    rw [if_neg (by omega)]
    exact hs.counter_put c hc q hq

/-- A put that lands stays the message it is. -/
theorem control_land (hs : Control X w h peerOut peerIn s) (hm : s.puts a p j = .sent m)
    (hstage : t.stage = s.stage) (hadv : t.advances = s.advances) (hcount : t.counter = s.counter)
    (hput : t.puts = update3 s.puts a p j (.landed m)) : Control X w h peerOut peerIn t := by
  have hmsg : ∀ c q k, (t.puts c q k).msg = (s.puts c q k).msg := by
    intro c q k
    rw [hput]
    by_cases heq : c = a ∧ q = p ∧ k = j
    · obtain ⟨rfl, rfl, rfl⟩ := heq
      rw [update3_self, hm]
      rfl
    · rw [update3_of_ne heq]
  have hhandled : ∀ c q k, (t.puts c q k).isHandled = (s.puts c q k).isHandled := by
    intro c q k
    rw [hput]
    by_cases heq : c = a ∧ q = p ∧ k = j
    · obtain ⟨rfl, rfl, rfl⟩ := heq
      rw [update3_self, hm]
      rfl
    · rw [update3_of_ne heq]
  refine ⟨fun c => hstage ▸ hs.valid c, fun c => hstage ▸ hs.outside c, fun c q k => ?_, fun c q k => ?_,
    fun c q k d i hc => ?_, fun c q k m' hc => ?_, fun c hc q hq => ?_, fun c hc q hq => ?_,
    fun c hc q hq hnum k hk => ?_, fun c hc q hq hnum k hk => ?_⟩
  · rw [hadv, hstage]
    exact hs.advances c q k
  · rw [hmsg, hstage]
    exact hs.puts c q k
  · rw [hadv] at hc
    exact hs.advance_msg c q k d i hc
  · rw [hmsg] at hc
    exact hs.put_msg c q k m' hc
  · rw [hcount, hadv]
    exact hs.counter_advance c hc q hq
  · rw [hcount, hs.counter_put c hc q hq]
    exact count_congr fun k _ => by rw [hhandled]
  · rw [hstage] at hnum
    rw [hadv]
    exact hs.cleared c hc q hq hnum k hk
  · rw [hstage] at hnum
    rw [hhandled]
    exact hs.filled c hc q hq hnum k hk

theorem control_handlePut (hw : Wired X w h peerOut peerIn) (hs : Control X w h peerOut peerIn s)
    (hm : s.puts a p j = .landed m) :
    Control X w h peerOut peerIn ((s.count m.dest m.idx).setPut a p j (.handled m)) := by
  have hmsg : (s.puts a p j).msg = some m := by
    rw [hm]
    rfl
  have hsent : (s.puts a p j).msg ≠ none := by simp [hmsg]
  obtain ⟨ha, hp, hj, -⟩ := hs.put_sender hsent
  obtain ⟨hdest, hidx⟩ := hs.put_msg a p j m hmsg
  have hkeep : ∀ c q k, (update3 s.puts a p j (.handled m) c q k).msg = (s.puts c q k).msg := by
    intro c q k
    by_cases heq : c = a ∧ q = p ∧ k = j
    · obtain ⟨rfl, rfl, rfl⟩ := heq
      rw [update3_self, hmsg]
      rfl
    · rw [update3_of_ne heq]
  have hold : ∀ c q k, (s.puts c q k).isHandled →
      (update3 s.puts a p j (.handled m) c q k).isHandled := by
    intro c q k hc
    by_cases heq : c = a ∧ q = p ∧ k = j
    · obtain ⟨rfl, rfl, rfl⟩ := heq
      rw [update3_self]
      rfl
    · rwa [update3_of_ne heq]
  refine ⟨hs.valid, hs.outside, hs.advances, fun c q k => ?_, hs.advance_msg, fun c q k m' hc => ?_,
    fun c hc q hq => ?_, fun c hc q hq => ?_, hs.cleared, fun c hc q hq hnum k hk => hold _ _ _
    (hs.filled c hc q hq hnum k hk)⟩
  · show (update3 s.puts a p j (.handled m) c q k).msg ≠ none ↔ _
    rw [hkeep]
    exact hs.puts c q k
  · replace hc : (update3 s.puts a p j (.handled m) c q k).msg = some m' := hc
    rw [hkeep] at hc
    exact hs.put_msg c q k m' hc
  · show (if c = m.dest ∧ q * 2 = m.idx then s.counter c (q * 2) + 1 else s.counter c (q * 2)) = _
    rw [if_neg (by omega)]
    exact hs.counter_advance c hc q hq
  · show (if c = m.dest ∧ q * 2 + 1 = m.idx then s.counter c (q * 2 + 1) + 1
      else s.counter c (q * 2 + 1)) =
      Nat.count (fun k => (update3 s.puts a p j (.handled m) (peerIn q k c) q k).isHandled) (h q)
    rw [hs.counter_put c hc q hq, hdest, hidx]
    by_cases hcq : c = peerOut p j a ∧ q * 2 + 1 = p * 2 + 1
    · obtain ⟨rfl, hqp⟩ := hcq
      obtain rfl : q = p := by omega
      have hback := hw.in_out a ha q hp j hj
      rw [if_pos ⟨rfl, rfl⟩]
      refine (count_add_one hj ?_ ?_ fun k hk hkj => ?_).symm
      · simp [hback, hm, Put.isHandled]
      · simp [hback, update3_self, Put.isHandled]
      · rw [update3_of_ne (by omega)]
    · rw [if_neg hcq]
      refine (count_congr fun k hk => ?_).symm
      rw [update3_of_ne]
      rintro ⟨hcb, rfl, rfl⟩
      have hback := hw.out_in c hc q hq k hk
      exact hcq ⟨by rw [← hcb, hback], rfl⟩

/-- A message is sent once. -/
theorem Control.advance_unsent (hs : Control X w h peerOut peerIn s) (hg : s.stage a = .advance p j) :
    s.advances a p j = .unsent := by
  by_contra hsent
  have hpast := ((hs.advances a p j).1 hsent).2.2
  simp [hg, Stage.Past, Stage.num, Stage.sub] at hpast

theorem Control.put_unsent (hs : Control X w h peerOut peerIn s) (hg : s.stage a = .send p j) :
    s.puts a p j = .unsent := by
  cases hm : s.puts a p j with
  | unsent => rfl
  | sent m | landed m | handled m =>
    have hpast := ((hs.puts a p j).1 (by simp [hm, Put.msg])).2.2
    simp [hg, Stage.Past, Stage.num, Stage.sub] at hpast

theorem peer_eq {l : List ℕ} {x y : ℕ} (hx : l[j]? = some x) (hy : l[j]? = some y) : x = y :=
  Option.some.inj (hx.symm.trans hy)

/-- Between the loops over the peers nothing is sent. -/
theorem past_enter {q k p : ℕ} (hphases : (X.info a).phases = w) :
    ((enter X a p).Past w (5 * q + 2) k ↔ 5 * q + 2 < 5 * min p w + 2) ∧
      ((enter X a p).Past w (5 * q + 4) k ↔ 5 * q + 4 < 5 * min p w + 2) ∧
      (enter X a p).num w = 5 * min p w + 2 := by
  unfold enter
  rw [hphases]
  split <;> simp [Stage.Past, Stage.num, Stage.sub] <;> omega

theorem control_step (hw : Wired X w h peerOut peerIn) (hstep : Step X s a t)
    (hs : Control X w h peerOut peerIn s) : Control X w h peerOut peerIn t := by
  have hvalid := hs.valid a
  cases hstep with
  | alloc ha hg =>
    refine hs.walk ha rfl rfl rfl rfl trivial (fun q hq k hk => ?_) (fun q hq hn => ?_) fun q hq hn => ?_
    · simp [hg, Stage.Past, Stage.num, Stage.sub]
    · simp [Stage.num] at hn
    · simp [Stage.num] at hn
  | single ha hg hin h1 =>
    have hw0 := hw.single h1
    exact hs.walk ha rfl rfl rfl rfl trivial (fun q hq => by omega) (fun q hq => by omega)
      fun q hq => by omega
  | rotate ha hg hin h1 ho =>
    obtain hph := hw.phases a ha
    refine hs.walk ha rfl rfl rfl rfl ?_ (fun q hq k hk => ?_) (fun q hq hn => ?_) fun q hq hn => ?_
    · unfold enter
      rw [hph]
      split
      · exact ⟨‹_›, Nat.zero_le _⟩
      · trivial
    · have hpast := past_enter (X := X) (q := q) (k := k) (p := 0) hph
      rw [hpast.1, hpast.2.1, hg]
      simp [Stage.Past, Stage.num, Stage.sub]
    · have hpast := past_enter (X := X) (q := q) (k := 0) (p := 0) hph
      omega
    · have hpast := past_enter (X := X) (q := q) (k := 0) (p := 0) hph
      omega
  | @advance p j b ha hg hj hb =>
    rw [hg] at hvalid
    obtain ⟨hp, -⟩ := hvalid
    rw [hw.peerCount a ha p hp] at hj
    obtain rfl := peer_eq hb (hw.behind a ha p hp j hj)
    have hunsent := hs.advance_unsent hg
    refine hs.move ha rfl rfl ⟨hp, hj⟩ (fun b q k => ?_) (fun b hb q k => ?_) (fun q k => ?_)
      (fun b q k => .inl rfl) (fun b _ q k => rfl) (fun q k => ?_) (fun q hq hn => ?_) fun q hq hn => ?_
    · by_cases heq : b = a ∧ q = p ∧ k = j
      · obtain ⟨rfl, rfl, rfl⟩ := heq
        exact .inr ⟨hunsent, update3_self⟩
      · exact .inl (update3_of_ne heq)
    · exact update3_of_ne fun heq => hb heq.1
    · show update3 s.advances a p j _ a q k ≠ _ ↔ _
      by_cases heq : a = a ∧ q = p ∧ k = j
      · obtain ⟨-, rfl, rfl⟩ := heq
        simp [update3_self, Stage.Past, Stage.num, Stage.sub, hp, hj]
      · rw [update3_of_ne heq, hs.advances a q k, hg]
        simp only [Stage.Past, Stage.num, Stage.sub]
        omega
    · refine (hs.puts a q k).trans ?_
      rw [hg]
      simp only [Stage.Past, Stage.num, Stage.sub]
      omega
    · rw [hg]
      exact .inl hn
    · rw [hg]
      exact .inl hn
  | @advanced p j ha hg hj =>
    rw [hg] at hvalid
    rw [hw.peerCount a ha p hvalid.1] at hj
    refine hs.walk ha rfl rfl rfl rfl hvalid.1 (fun q hq k hk => ?_) (fun q hq hn => ?_) fun q hq hn => ?_
    · rw [hg]
      simp only [Stage.Past, Stage.num, Stage.sub]
      by_cases hqp : q = p
      · subst hqp
        omega
      · omega
    all_goals
      simp only [Stage.num] at hn
      rw [hg]
      simp only [Stage.num]
      omega
  | @clear p ha hg hc =>
    rw [hg] at hvalid
    rw [hw.peerCount a ha p hvalid] at hc
    refine hs.walk ha rfl rfl rfl rfl ⟨hvalid, Nat.zero_le _⟩ (fun q hq k hk => ?_) (fun q hq hn => ?_)
      fun q hq hn => ?_
    · rw [hg]
      simp only [Stage.Past, Stage.num, Stage.sub]
      omega
    · by_cases hqp : q = p
      · exact .inr (hqp ▸ hc)
      · rw [hg]
        simp only [Stage.num] at hn ⊢
        omega
    · rw [hg]
      simp only [Stage.num] at hn ⊢
      omega
  | @send p j b o nblocks m ha hg hj hb ho hpack =>
    rw [hg] at hvalid
    obtain ⟨hp, -⟩ := hvalid
    rw [hw.peerCount a ha p hp] at hj
    obtain rfl := peer_eq hb (hw.front a ha p hp j hj)
    have hunsent := hs.put_unsent hg
    refine hs.move ha rfl rfl ⟨hp, hj⟩ (fun b q k => .inl rfl) (fun b _ q k => rfl) (fun q k => ?_)
      (fun b q k => ?_) (fun b hb q k => ?_) (fun q k => ?_) (fun q hq hn => ?_) fun q hq hn => ?_
    · refine (hs.advances a q k).trans ?_
      rw [hg]
      simp only [Stage.Past, Stage.num, Stage.sub]
      omega
    · by_cases heq : b = a ∧ q = p ∧ k = j
      · obtain ⟨rfl, rfl, rfl⟩ := heq
        exact .inr ⟨hunsent, _, update3_self, rfl, rfl⟩
      · exact .inl (update3_of_ne heq)
    · exact update3_of_ne fun heq => hb heq.1
    · show (update3 s.puts a p j _ a q k).msg ≠ _ ↔ _
      by_cases heq : a = a ∧ q = p ∧ k = j
      · obtain ⟨-, rfl, rfl⟩ := heq
        simp [update3_self, Stage.Past, Stage.num, Stage.sub, hp, hj, Put.msg]
      · rw [update3_of_ne heq, hs.puts a q k, hg]
        simp only [Stage.Past, Stage.num, Stage.sub]
        omega
    · rw [hg]
      exact .inl hn
    · rw [hg]
      exact .inl hn
  | @sent p j ha hg hj =>
    rw [hg] at hvalid
    rw [hw.peerCount a ha p hvalid.1] at hj
    refine hs.walk ha rfl rfl rfl rfl hvalid.1 (fun q hq k hk => ?_) (fun q hq hn => ?_) fun q hq hn => ?_
    · rw [hg]
      simp only [Stage.Past, Stage.num, Stage.sub]
      by_cases hqp : q = p
      · subst hqp
        omega
      · omega
    all_goals
      simp only [Stage.num] at hn
      rw [hg]
      simp only [Stage.num]
      omega
  | @await p ha hg hc =>
    rw [hg] at hvalid
    rw [hw.peerCount a ha p hvalid] at hc
    refine hs.walk ha rfl rfl rfl rfl ⟨hvalid, Nat.zero_le _⟩ (fun q hq k hk => ?_) (fun q hq hn => ?_)
      fun q hq hn => ?_
    · rw [hg]
      simp only [Stage.Past, Stage.num, Stage.sub]
      omega
    · rw [hg]
      simp only [Stage.num] at hn ⊢
      omega
    · by_cases hqp : q = p
      · exact .inr (hqp ▸ hc)
      · rw [hg]
        simp only [Stage.num] at hn ⊢
        omega
  | @unpack p j o ha hg hj ho =>
    rw [hg] at hvalid
    rw [hw.peerCount a ha p hvalid.1] at hj
    refine hs.walk ha rfl rfl rfl rfl ⟨hvalid.1, hj⟩ (fun q hq k hk => ?_) (fun q hq hn => ?_)
      fun q hq hn => ?_
    · rw [hg]
      simp only [Stage.Past, Stage.num, Stage.sub]
      omega
    · rw [hg]
      exact .inl hn
    · rw [hg]
      exact .inl hn
  | @unpacked p j ha hg hj =>
    rw [hg] at hvalid
    have hph := hw.phases a ha
    refine hs.walk ha rfl rfl rfl rfl ?_ (fun q hq k hk => ?_) (fun q hq hn => ?_) fun q hq hn => ?_
    · unfold enter
      rw [hph]
      split
      · exact ⟨‹_›, Nat.zero_le _⟩
      · trivial
    · have hpast := past_enter (X := X) (q := q) (k := k) (p := p + 1) hph
      rw [hpast.1, hpast.2.1, hg]
      simp only [Stage.Past, Stage.num, Stage.sub]
      omega
    all_goals
      have hpast := past_enter (X := X) (q := q) (k := 0) (p := p + 1) hph
      rw [hg]
      simp only [Stage.num]
      omega
  | copy ha hg ho =>
    refine hs.walk ha rfl rfl rfl rfl trivial (fun q hq k hk => ?_) (fun q hq hn => ?_) fun q hq hn => ?_
    all_goals
      rw [hg]
      simp only [Stage.Past, Stage.num, Stage.sub]
      omega
  | finish ha hg hout =>
    refine hs.walk ha rfl rfl rfl rfl trivial (fun q hq k hk => ?_) (fun q hq hn => ?_) fun q hq hn => ?_
    all_goals
      rw [hg]
      simp only [Stage.Past, Stage.num, Stage.sub]
      omega
  | handleAdvance hm => exact control_handleAdvance hw hs hm
  | land hm => exact control_land hs hm rfl rfl rfl rfl
  | handlePut hm => exact control_handlePut hw hs hm

end Gasnet.Coll.ExchgDissem
