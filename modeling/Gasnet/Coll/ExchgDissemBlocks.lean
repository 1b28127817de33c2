import Gasnet.Coll.ExchgDissemControl

/-! What the blocks hold: in each phase the blocks with a digit come from the in-peer of that digit, and
no buffer is written before it has been read. -/
namespace Gasnet.Coll.ExchgDissem

open Dissem Blocks

variable {β : Type*} {X : Exchg β} {s t : State β} {r M o w a b c p q i j k l N n : ℕ} {h : ℕ → ℕ}
  {peerOut peerIn : ℕ → ℕ → ℕ → ℕ} {m : ℕ → β} {msg : PutMsg β}

/-- The rank `d` before `a`. -/
def back (N a d : ℕ) : ℕ := if a < d then N + a - d else a - d

theorem back_lt (ha : a < N) : back N a l < N := by
  unfold back
  split <;> omega

theorem back_add (ha : a < N) (hl : k + l ≤ N) : back N a (k + l) = back N (back N a l) k := by
  unfold back
  split <;> split <;> split <;> omega

theorem back_back (ha : a < N) (hi : i < N) : back N a (back N a i) = i := by
  unfold back
  split <;> split <;> omega

theorem back_zero : back N a 0 = a := by simp [back]

theorem add_back (ha : a < N) (hi : i < N) : (back N a i + i) % N = a := by
  unfold back
  split
  · have hsum : N + a - i + i = N + a := by omega
    rw [hsum, Nat.add_mod_left, Nat.mod_eq_of_lt ha]
  · rw [Nat.sub_add_cancel (by omega), Nat.mod_eq_of_lt ha]

/-- What block `i` of rank `a` holds when it has gone the first `p` digits of its way. -/
def held (X : Exchg β) (r p a i k : ℕ) : β :=
  X.src (back X.totalRanks a (i % r ^ p))
    ((back X.totalRanks a (i % r ^ p) + i) % X.totalRanks * X.nbytes + k)

/-- The buffers and the blocks lie apart in the scratch spaces, and the digits of a block number are
those of the phases. -/
structure Laid (X : Exchg β) (r M o w : ℕ) (h : ℕ → ℕ) (peerIn : ℕ → ℕ → ℕ → ℕ) : Prop where
  scratch2 : ∀ a < X.totalRanks, X.scratch2 a = some o
  radix : ∀ a < X.totalRanks, (X.info a).radix = r
  idxExpr : ∀ a < X.totalRanks, ∀ p, ∀ j < r - 1,
    X.idxExpr a p j = (p % 2 * (r - 1) + j) * (M * X.nbytes)
  before : o = 2 * (r - 1) * (M * X.nbytes)
  peers : ∀ p < w, h p ≤ r - 1
  blocks : ∀ p < w, ∀ j < h p, Nat.count (Selected p r (j + 1)) X.totalRanks ≤ M
  selected : ∀ p < w, ∀ j i, Selected p r j i ↔ i / r ^ p % r = j
  digits : ∀ p < w, ∀ i < X.totalRanks, i / r ^ p % r ≤ h p
  reach : X.totalRanks ≤ r ^ w
  back : ∀ a < X.totalRanks, ∀ p < w, ∀ j < h p,
    peerIn p j a = ExchgDissem.back X.totalRanks a ((j + 1) * r ^ p)
  size : ∀ a < X.totalRanks, X.incomingSize a = o + X.totalRanks * X.nbytes

theorem held_zero_digit (hd : i / r ^ p % r = 0) : held X r (p + 1) a i k = held X r p a i k := by
  have hmod : i % r ^ (p + 1) = i % r ^ p := by
    rw [Nat.mod_pow_succ, hd, Nat.mul_zero, Nat.add_zero]
  rw [held, hmod, held]

/-- A block with this digit comes from the in-peer. -/
theorem held_peer (hl : Laid X r M o w h peerIn) (ha : a < X.totalRanks) (hp : p < w) (hj : j < h p)
    (hi : i < X.totalRanks) (hd : i / r ^ p % r = j + 1) :
    held X r (p + 1) a i k = held X r p (peerIn p j a) i k := by
  have hmod : i % r ^ (p + 1) = i % r ^ p + (j + 1) * r ^ p := by
    rw [Nat.mod_pow_succ, hd, Nat.mul_comm]
  have hle : i % r ^ p + (j + 1) * r ^ p ≤ X.totalRanks := by
    rw [← hmod]
    exact (Nat.mod_le _ _).trans hi.le
  have hback : back X.totalRanks a (i % r ^ (p + 1)) =
      back X.totalRanks (peerIn p j a) (i % r ^ p) := by
    rw [hmod, back_add ha hle, hl.back a ha p hp j hj]
  rw [held, hback, held]

/-- The buffer for digit `j + 1`, sent from in even phases and received in in odd ones or the other way
round. -/
def buf (X : Exchg β) (r M p j : ℕ) : ℕ := (p % 2 * (r - 1) + j) * (M * X.nbytes)

/-- Buffers are below the blocks. -/
theorem buf_end_le (hl : Laid X r M o w h peerIn) (hj : j < r - 1) (hn : n ≤ M * X.nbytes) :
    buf X r M p j + n ≤ o := by
  have hidx : p % 2 * (r - 1) + j < 2 * (r - 1) := by
    have hmod := Nat.mod_lt p (y := 2) (by omega)
    have hmul : p % 2 * (r - 1) ≤ 1 * (r - 1) := Nat.mul_le_mul_right _ (by omega)
    omega
  rw [hl.before]
  exact (Nat.add_le_add_left hn _).trans (block_end_le hidx)

/-- Different buffers lie apart. -/
theorem buf_disjoint (hj : j < r - 1) (hk : k < r - 1) (hne : p % 2 ≠ q % 2 ∨ j ≠ k) (hn : n ≤ M * X.nbytes) :
    buf X r M p j + n ≤ buf X r M q k ∨ buf X r M q k + M * X.nbytes ≤ buf X r M p j := by
  have hidx : p % 2 * (r - 1) + j ≠ q % 2 * (r - 1) + k := by
    have hp := Nat.mod_lt p (y := 2) (by omega)
    have hq := Nat.mod_lt q (y := 2) (by omega)
    rcases (by omega : p % 2 = 0 ∨ p % 2 = 1) with h0 | h0 <;>
      rcases (by omega : q % 2 = 0 ∨ q % 2 = 1) with h1 | h1 <;>
      simp only [h0, h1, Nat.zero_mul, Nat.one_mul] at hne ⊢ <;> omega
  rcases Nat.lt_or_gt_of_ne hidx with hlt | hgt
  · exact .inl ((Nat.add_le_add_left hn _).trans (block_end_le hlt))
  · exact .inr (block_end_le hgt)

/-- What the messages, the buffers, the blocks and the destinations hold. -/
structure Data (X : Exchg β) (r M o w : ℕ) (s : State β) : Prop where
  payload : ∀ a p j msg, (s.puts a p j).msg = some msg → msg.addr = buf X r M (p + 1) j ∧
    msg.nbytes = Nat.count (Selected p r (j + 1)) X.totalRanks * X.nbytes ∧
    ∀ i < X.totalRanks, Selected p r (j + 1) i → ∀ k < X.nbytes,
      msg.payload (Nat.count (Selected p r (j + 1)) i * X.nbytes + k) = held X r p a i k
  buffer : ∀ a p j msg, s.puts a p j = .landed msg ∨ s.puts a p j = .handled msg →
    ¬(s.stage msg.dest).Past w (5 * p + 6) j →
    ∀ k < msg.nbytes, s.scratch msg.dest (msg.addr + k) = msg.payload k
  fresh : ∀ a < X.totalRanks, ∀ q ≤ w, 5 * q + 2 ≤ (s.stage a).num w → (s.stage a).num w ≤ 5 * q + 6 →
    ∀ i < X.totalRanks, ∀ j, i / r ^ q % r = j + 1 → (s.stage a).Past w (5 * q + 6) j →
    ∀ k < X.nbytes, s.scratch a (o + i * X.nbytes + k) = held X r (q + 1) a i k
  stale : ∀ a < X.totalRanks, ∀ q ≤ w, 5 * q + 2 ≤ (s.stage a).num w → (s.stage a).num w ≤ 5 * q + 6 →
    (s.stage a).num w ≤ 5 * w + 2 → ∀ i < X.totalRanks, (∀ j, i / r ^ q % r = j + 1 → ¬(s.stage a).Past w (5 * q + 6) j) →
    ∀ k < X.nbytes, s.scratch a (o + i * X.nbytes + k) = held X r q a i k
  exchanged : ∀ a < X.totalRanks, 5 * w + 3 ≤ (s.stage a).num w →
    ∀ i < X.totalRanks, ∀ k < X.nbytes, s.dst a (i * X.nbytes + k) = X.src i (a * X.nbytes + k)

theorem data_initial {scratch dst : ℕ → ℕ → β} : Data X r M o w (initial scratch dst) := by
  constructor <;> simp [initial, Stage.num, Put.msg]

/-- The rotated blocks of the source. -/
theorem rotate_in (ha : a < X.totalRanks) (hi : i < X.totalRanks) (hk : k < X.nbytes) :
    localRotateRight m o (X.src a) X.nbytes X.totalRanks (X.totalRanks - a) (o + i * X.nbytes + k) =
      held X r 0 a i k := by
  have hsub : X.totalRanks - (X.totalRanks - a) = a := by omega
  have hheld : held X r 0 a i k = X.src a ((a + i) % X.totalRanks * X.nbytes + k) := by
    rw [held, Nat.pow_zero, Nat.mod_one, back_zero]
  rw [hheld, localRotateRight, hsub]
  rcases Nat.lt_or_ge i (X.totalRanks - a) with hlt | hge
  · have hend := block_end_le (n := X.nbytes) hlt
    rw [Nat.mod_eq_of_lt (by omega), Nat.add_assoc, copy_in (by omega), ← Nat.add_assoc, Nat.add_mul]
  · obtain ⟨d, rfl⟩ := Nat.exists_eq_add_of_le hge
    have hend := block_end_le (n := X.nbytes) (by omega : d < a)
    have hmod : (a + (X.totalRanks - a + d)) % X.totalRanks = d := by
      rw [show a + (X.totalRanks - a + d) = X.totalRanks + d by omega, Nat.add_mod_left,
        Nat.mod_eq_of_lt (by omega)]
    rw [hmod, Nat.add_mul, copy_out (by omega)]
    have haddr : o + ((X.totalRanks - a) * X.nbytes + d * X.nbytes) + k =
        o + (X.totalRanks - a) * X.nbytes + (d * X.nbytes + k) := by omega
    rw [haddr, copy_in (by omega), Nat.zero_add]

theorem rotate_out {x : ℕ} (hx : x < o) :
    localRotateRight m o (X.src a) X.nbytes X.totalRanks (X.totalRanks - a) x = m x := by
  rw [localRotateRight, copy_out (.inl hx), copy_out (.inl (by omega))]

theorem srcRank_eq : srcRank a N i = back N a i := rfl

theorem copyOut_in (hi : i < N) (hk : k < n) {m' : ℕ → β} :
    copyOut m m' o n a N (i * n + k) = m' (o + back N a i * n + k) := by
  unfold copyOut
  suffices hloop : ∀ K, i < K → (List.range K).foldl (fun m i =>
      Blocks.copy m (i * n) m' (o + srcRank a N i * n) n) m (i * n + k) = m' (o + back N a i * n + k) from
    hloop N hi
  intro K hK
  induction K with
  | zero => omega
  | succ K ih =>
    rw [List.range_succ, List.foldl_append, List.foldl_cons, List.foldl_nil]
    rcases Nat.lt_succ_iff_lt_or_eq.1 hK with hlt | rfl
    · have hend := block_end_le (n := n) hlt
      rw [copy_out (by omega)]
      exact ih hlt
    · rw [copy_in hk, srcRank_eq]

/-- After the last phase every block has gone its whole way. -/
theorem held_last (hl : Laid X r M o w h peerIn) (ha : a < X.totalRanks) (hi : i < X.totalRanks) :
    held X r w a (back X.totalRanks a i) k = X.src i (a * X.nbytes + k) := by
  have hlt := back_lt (l := i) ha
  rw [held, Nat.mod_eq_of_lt (hlt.trans_le hl.reach), back_back ha hi, Nat.add_comm i, add_back ha hi]

section Steps

variable {g : Stage}

/-- A rank goes on: what the other ranks have does not change. -/
theorem Data.rank (hd : Data X r M o w s) (hstage : t.stage = Function.update s.stage a g)
    (hscr : ∀ b ≠ a, t.scratch b = s.scratch b) (hdst : ∀ b ≠ a, t.dst b = s.dst b)
    (hpay : ∀ a p j msg, (t.puts a p j).msg = some msg → msg.addr = buf X r M (p + 1) j ∧
      msg.nbytes = Nat.count (Selected p r (j + 1)) X.totalRanks * X.nbytes ∧
      ∀ i < X.totalRanks, Selected p r (j + 1) i → ∀ k < X.nbytes,
        msg.payload (Nat.count (Selected p r (j + 1)) i * X.nbytes + k) = held X r p a i k)
    (hbuf : ∀ a p j msg, t.puts a p j = .landed msg ∨ t.puts a p j = .handled msg →
      ¬(t.stage msg.dest).Past w (5 * p + 6) j →
      ∀ k < msg.nbytes, t.scratch msg.dest (msg.addr + k) = msg.payload k)
    (hfresh : ∀ q ≤ w, 5 * q + 2 ≤ g.num w → g.num w ≤ 5 * q + 6 →
      ∀ i < X.totalRanks, ∀ j, i / r ^ q % r = j + 1 → g.Past w (5 * q + 6) j →
      ∀ k < X.nbytes, t.scratch a (o + i * X.nbytes + k) = held X r (q + 1) a i k)
    (hstale : ∀ q ≤ w, 5 * q + 2 ≤ g.num w → g.num w ≤ 5 * q + 6 → g.num w ≤ 5 * w + 2 →
      ∀ i < X.totalRanks, (∀ j, i / r ^ q % r = j + 1 → ¬g.Past w (5 * q + 6) j) →
      ∀ k < X.nbytes, t.scratch a (o + i * X.nbytes + k) = held X r q a i k)
    (hex : 5 * w + 3 ≤ g.num w →
      ∀ i < X.totalRanks, ∀ k < X.nbytes, t.dst a (i * X.nbytes + k) = X.src i (a * X.nbytes + k)) :
    Data X r M o w t := by
  have hself : t.stage a = g := by rw [hstage, Function.update_self]
  have hother : ∀ b ≠ a, t.stage b = s.stage b := fun b hb => by rw [hstage, Function.update_of_ne hb]
  refine ⟨hpay, hbuf, fun b hb => ?_, fun b hb => ?_, fun b hb => ?_⟩ <;> by_cases hba : b = a
  · rw [hba, hself]
    exact hfresh
  · rw [hother b hba, hscr b hba]
    exact hd.fresh b hb
  · rw [hba, hself]
    exact hstale
  · rw [hother b hba, hscr b hba]
    exact hd.stale b hb
  · rw [hba, hself]
    exact hex
  · rw [hother b hba, hdst b hba]
    exact hd.exchanged b hb

/-- What a message of the phases writes is no more than a buffer. -/
theorem msg_bounds (hl : Laid X r M o w h peerIn) (hc : Control X w h peerOut peerIn s)
    (hd : Data X r M o w s) (hm : (s.puts a p j).msg = some msg) :
    j < r - 1 ∧ msg.addr = buf X r M (p + 1) j ∧ msg.nbytes ≤ M * X.nbytes := by
  have hsent : (s.puts a p j).msg ≠ none := by simp [hm]
  obtain ⟨-, hp, hj, -⟩ := hc.put_sender hsent
  obtain ⟨haddr, hn, -⟩ := hd.payload a p j msg hm
  exact ⟨hj.trans_le (hl.peers p hp), haddr, hn ▸ Nat.mul_le_mul_right _ (hl.blocks p hp j hj)⟩

/-- Buffers stay as long as nothing is written below the blocks. -/
theorem buffer_kept (hl : Laid X r M o w h peerIn) (hc : Control X w h peerOut peerIn s)
    (hd : Data X r M o w s) (hputs : t.puts = s.puts)
    (hmono : ∀ b q k, (s.stage b).Past w (5 * q + 6) k → (t.stage b).Past w (5 * q + 6) k)
    (hlow : ∀ b x, x < o → t.scratch b x = s.scratch b x) (a p j : ℕ) (msg : PutMsg β)
    (hm : t.puts a p j = .landed msg ∨ t.puts a p j = .handled msg)
    (hpast : ¬(t.stage msg.dest).Past w (5 * p + 6) j) (k : ℕ) (hk : k < msg.nbytes) :
    t.scratch msg.dest (msg.addr + k) = msg.payload k := by
  rw [hputs] at hm
  have hmsg : (s.puts a p j).msg = some msg := by
    rcases hm with hm | hm <;> rw [hm] <;> rfl
  obtain ⟨hj, haddr, hn⟩ := msg_bounds hl hc hd hmsg
  have hend := buf_end_le hl hj hn (p := p + 1)
  rw [hlow _ _ (by omega)]
  exact hd.buffer a p j msg hm (mt (hmono _ _ _) hpast) k hk

/-- A rank goes on within a phase, and neither writes nor sends. -/
theorem Data.walk (hl : Laid X r M o w h peerIn) (hc : Control X w h peerOut peerIn s)
    (hd : Data X r M o w s) (ha : a < X.totalRanks) (hstage : t.stage = Function.update s.stage a g)
    (hscr : t.scratch = s.scratch) (hdst : t.dst = s.dst) (hputs : t.puts = s.puts)
    (hmono : ∀ q k, (s.stage a).Past w (5 * q + 6) k → g.Past w (5 * q + 6) k)
    (hlevel : ∀ q ≤ w, 5 * q + 2 ≤ g.num w → g.num w ≤ 5 * q + 6 →
      (5 * q + 2 ≤ (s.stage a).num w ∧ (s.stage a).num w ≤ 5 * q + 6) ∧
        ∀ i < X.totalRanks, ∀ j, i / r ^ q % r = j + 1 →
          (g.Past w (5 * q + 6) j ↔ (s.stage a).Past w (5 * q + 6) j))
    (hend : g.num w ≤ 5 * w + 2 → (s.stage a).num w ≤ 5 * w + 2)
    (hex : 5 * w + 3 ≤ g.num w → 5 * w + 3 ≤ (s.stage a).num w) : Data X r M o w t := by
  have hmono' : ∀ b q k, (s.stage b).Past w (5 * q + 6) k → (t.stage b).Past w (5 * q + 6) k := by
    intro b q k hp
    by_cases hba : b = a
    · rw [hstage, hba, Function.update_self]
      exact hmono q k (hba ▸ hp)
    · rwa [hstage, Function.update_of_ne hba]
  refine hd.rank hstage (fun b _ => by rw [hscr]) (fun b _ => by rw [hdst]) (hputs ▸ hd.payload)
    (buffer_kept hl hc hd hputs hmono' fun b x _ => by rw [hscr]) (fun q hq h1 h2 i hi j hij hp => ?_)
    (fun q hq h1 h2 h5 i hi hnot => ?_) fun hn => ?_
  · obtain ⟨⟨h3, h4⟩, heq⟩ := hlevel q hq h1 h2
    rw [hscr]
    exact hd.fresh a ha q hq h3 h4 i hi j hij ((heq i hi j hij).1 hp)
  · obtain ⟨⟨h3, h4⟩, heq⟩ := hlevel q hq h1 h2
    rw [hscr]
    exact hd.stale a ha q hq h3 h4 (hend h5) i hi fun j hij => mt (heq i hi j hij).2 (hnot j hij)
  · rw [hdst]
    exact hd.exchanged a ha (hex hn)

/-- The rotation puts the own blocks where the first phase takes them from. -/
theorem data_rotate (hl : Laid X r M o w h peerIn) (hc : Control X w h peerOut peerIn s)
    (hd : Data X r M o w s) (ha : a < X.totalRanks) (hg : s.stage a = .insync)
    (hph : (X.info a).phases = w) :
    Data X r M o w ((s.setScratch a (localRotateRight (s.scratch a) o (X.src a) X.nbytes X.totalRanks
      (X.totalRanks - a))).setStage a (enter X a 0)) := by
  have hnum : (enter X a 0).num w = 2 := by
    have hpast := past_enter (X := X) (q := 0) (k := 0) (p := 0) hph
    omega
  have hnot : ∀ q k, ¬(enter X a 0).Past w (5 * q + 6) k := by
    intro q k hp
    unfold Stage.Past at hp
    omega
  have hscr : ∀ b ≠ a, ((s.setScratch a (localRotateRight (s.scratch a) o (X.src a) X.nbytes X.totalRanks
      (X.totalRanks - a))).setStage a (enter X a 0)).scratch b = s.scratch b := fun b hb =>
    Function.update_of_ne hb _ _
  refine hd.rank rfl hscr (fun _ _ => rfl) hd.payload
    (buffer_kept hl hc hd rfl (fun b q k hp => ?_) fun b x hx => ?_)
    (fun q _ _ _ i _ j _ hp => absurd hp (hnot q j)) (fun q hq h1 h2 _ i hi _ k hk => ?_) fun hn => by omega
  · by_cases hba : b = a
    · subst hba
      rw [hg] at hp
      simp only [Stage.Past, Stage.num, Stage.sub] at hp
      omega
    · show (Function.update s.stage a _ b).Past w _ _
      rwa [Function.update_of_ne hba]
  · by_cases hba : b = a
    · subst hba
      refine (congrFun (Function.update_self _ _ _) x).trans ?_
      exact rotate_out hx
    · rw [hscr b hba]
  · obtain rfl : q = 0 := by omega
    refine (congrFun (Function.update_self _ _ _) _).trans ?_
    exact rotate_in ha hi hk

/-- Behind the last unpacked buffer of a phase, all blocks have gone this phase. -/
theorem data_unpacked (hl : Laid X r M o w h peerIn) (hc : Control X w h peerOut peerIn s)
    (hd : Data X r M o w s) (ha : a < X.totalRanks) (hg : s.stage a = .unpack p j) (hp : p < w)
    (hj : ¬j < h p) (hph : (X.info a).phases = w) :
    Data X r M o w (s.setStage a (enter X a (p + 1))) := by
  have hnum : (enter X a (p + 1)).num w = 5 * (p + 1) + 2 := by
    have hpast := past_enter (X := X) (q := 0) (k := 0) (p := p + 1) hph
    omega
  refine hd.rank rfl (fun _ _ => rfl) (fun _ _ => rfl) hd.payload
    (buffer_kept hl hc hd rfl (fun b q k hb => ?_) fun _ _ _ => rfl)
    (fun q hq h1 h2 i hi j' hij hnew => ?_) (fun q hq h1 h2 _ i hi _ k hk => ?_) fun hn => by omega
  · by_cases hba : b = a
    · subst hba
      show (Function.update s.stage b _ b).Past w _ _
      rw [Function.update_self]
      rw [hg] at hb
      simp only [Stage.Past, Stage.num, Stage.sub] at hb
      unfold Stage.Past
      omega
    · show (Function.update s.stage a _ b).Past w _ _
      rwa [Function.update_of_ne hba]
  · simp only [Stage.Past] at hnew
    omega
  · obtain rfl : q = p + 1 := by omega
    have h3 : 5 * p + 2 ≤ (s.stage a).num w ∧ (s.stage a).num w ≤ 5 * p + 6 := by
      rw [hg]
      simp only [Stage.num]
      omega
    show s.scratch a _ = _
    cases hdig : i / r ^ p % r with
    | zero =>
      rw [held_zero_digit hdig]
      exact hd.stale a ha p (by omega) h3.1 h3.2 (by omega) i hi (fun j' hj' => by omega) k hk
    | succ j' =>
      refine hd.fresh a ha p (by omega) h3.1 h3.2 i hi j' hdig ?_ k hk
      have hdigit := hl.digits p hp i hi
      rw [hdig] at hdigit
      rw [hg]
      exact .inr ⟨rfl, by simp only [Stage.sub]; omega⟩

/-- What lands at rank `b` while it is not past the phase of the message is of that phase. -/
theorem same_phase (hw : Wired X w h peerOut peerIn) (hc : Control X w h peerOut peerIn s)
    (hm : (s.puts a p j).msg = some msg) : msg.dest < X.totalRanks ∧ msg.dest = peerOut p j a ∧ p < w ∧
      j < h p ∧ a < X.totalRanks ∧ (s.stage msg.dest).Past w (5 * p + 2) j := by
  have hsent : (s.puts a p j).msg ≠ none := by simp [hm]
  obtain ⟨ha, hp, hj, hpast⟩ := hc.put_sender hsent
  obtain ⟨hdest, -⟩ := hc.put_msg a p j msg hm
  have hclear : s.advances (peerOut p j a) p j = .handled := by
    refine hc.cleared a ha p hp ?_ j hj
    unfold Stage.Past at hpast
    omega
  have hadv : s.advances (peerOut p j a) p j ≠ .unsent := by simp [hclear]
  refine ⟨hdest ▸ hw.out_lt a ha p hp j hj, hdest, hp, hj, ha, ?_⟩
  rw [hdest]
  exact ((hc.advances _ p j).1 hadv).2.2

/-- Packing touches the sender's buffer of the phase before, and what is packed is what the blocks hold. -/
theorem data_send (hw : Wired X w h peerOut peerIn) (hl : Laid X r M o w h peerIn)
    (hc : Control X w h peerOut peerIn s) (hd : Data X r M o w s) (ha : a < X.totalRanks)
    (hg : s.stage a = .send p j) (hp : p < w) (hj : j < h p) {nblocks : ℕ}
    (hpack : packAllToAllMsg (s.scratch a) o (X.idxExpr a p j) X.nbytes p (X.info a).radix (j + 1)
      X.totalRanks = (m, nblocks)) :
    Data X r M o w (((s.setScratch a m).setPut a p j (.sent
      { dest := b
        addr := X.idxExpr a (p + 1) j
        nbytes := nblocks * X.nbytes
        payload := fun k => m (X.idxExpr a p j + k)
        idx := p * 2 + 1 })).setStage a (.send p (j + 1))) := by
  have hjr : j < r - 1 := hj.trans_le (hl.peers p hp)
  rw [hl.radix a ha, hl.idxExpr a ha p j hjr] at hpack
  rw [hl.idxExpr a ha p j hjr, hl.idxExpr a ha (p + 1) j hjr]
  have hm : m = (gather (Selected p r (j + 1)) X.nbytes (buf X r M p j) o X.totalRanks (s.scratch a)).1 :=
    (congrArg Prod.fst hpack).symm
  have hn : nblocks = Nat.count (Selected p r (j + 1)) X.totalRanks :=
    (congrArg Prod.snd hpack).symm.trans gather_count
  have hle : Nat.count (Selected p r (j + 1)) X.totalRanks * X.nbytes ≤ M * X.nbytes :=
    Nat.mul_le_mul_right _ (hl.blocks p hp j hj)
  have hend := buf_end_le hl hjr hle (p := p)
  have hsame : ∀ x, x < buf X r M p j ∨ buf X r M p j + M * X.nbytes ≤ x → m x = s.scratch a x := by
    intro x hx
    rw [hm]
    exact gather_out (hx.imp_right fun hx => by omega)
  generalize ht : ((s.setScratch a m).setPut a p j (.sent
      { dest := b
        addr := (((p + 1) % 2) * (r - 1) + j) * (M * X.nbytes)
        nbytes := nblocks * X.nbytes
        payload := fun k => m ((p % 2 * (r - 1) + j) * (M * X.nbytes) + k)
        idx := p * 2 + 1 })).setStage a (.send p (j + 1)) = t
  have hstage : t.stage = Function.update s.stage a (.send p (j + 1)) := by
    rw [← ht]
    rfl
  have hscr : t.scratch = Function.update s.scratch a m := by
    rw [← ht]
    rfl
  have hdst : t.dst = s.dst := by
    rw [← ht]
    rfl
  have hputs : t.puts = update3 s.puts a p j (.sent ⟨b, buf X r M (p + 1) j, nblocks * X.nbytes,
      fun k => m (buf X r M p j + k), p * 2 + 1⟩) := by
    rw [← ht]
    rfl
  have hblocks : ∀ i < X.totalRanks, ∀ k, m (o + i * X.nbytes + k) = s.scratch a (o + i * X.nbytes + k) :=
    fun i _ k => hsame _ (.inr (by
      have := buf_end_le hl hjr (Nat.le_refl (M * X.nbytes)) (p := p)
      omega))
  have hlevel : 5 * p + 2 ≤ (s.stage a).num w ∧ (s.stage a).num w ≤ 5 * p + 6 := by
    rw [hg]
    simp only [Stage.num]
    omega
  refine hd.rank hstage (fun c hb => by rw [hscr, Function.update_of_ne hb]) (fun _ _ => by rw [hdst])
    (fun c q l msg hmsg => ?_) (fun c q l msg hmsg hpast k hk => ?_)
    (fun q hq h1 h2 i hi j' hij hpast k hk => ?_) (fun q hq h1 h2 _ i hi hnot k hk => ?_) fun hn' => ?_
  · rw [hputs] at hmsg
    by_cases heq : c = a ∧ q = p ∧ l = j
    · obtain ⟨rfl, rfl, rfl⟩ := heq
      rw [update3_self] at hmsg
      obtain rfl := Option.some.inj hmsg
      refine ⟨rfl, by rw [hn], fun i hi hsel k hk => ?_⟩
      dsimp only
      rw [← Nat.add_assoc, hm, gather_in (hend.trans (Nat.le_refl _)) hi hsel hk]
      refine hd.stale c ha q (by omega) hlevel.1 hlevel.2 (by omega) i hi (fun j' _ hpast => ?_) k hk
      rw [hg] at hpast
      simp only [Stage.Past, Stage.num, Stage.sub] at hpast
      omega
    · rw [update3_of_ne heq] at hmsg
      exact hd.payload c q l msg hmsg
  · have hold : s.puts c q l = .landed msg ∨ s.puts c q l = .handled msg := by
      rw [hputs] at hmsg
      by_cases heq : c = a ∧ q = p ∧ l = j
      · obtain ⟨rfl, rfl, rfl⟩ := heq
        rw [update3_self] at hmsg
        simp at hmsg
      · rwa [update3_of_ne heq] at hmsg
    have hmsg' : (s.puts c q l).msg = some msg := by
      rcases hold with hold | hold <;> rw [hold] <;> rfl
    obtain ⟨hl1, haddr, hn1⟩ := msg_bounds hl hc hd hmsg'
    obtain ⟨-, -, -, -, -, hrecv⟩ := same_phase hw hc hmsg'
    rw [hscr]
    by_cases hda : msg.dest = a
    · rw [hda, Function.update_self]
      rw [hstage, hda, Function.update_self] at hpast
      rw [hda, hg] at hrecv
      simp only [Stage.Past, Stage.num, Stage.sub] at hpast hrecv
      have hparity : (q + 1) % 2 ≠ p % 2 := by omega
      have hdisj := buf_disjoint (X := X) (M := M) hl1 hjr (Or.inl hparity) hn1
      rw [hsame _ (by omega), ← hda]
      refine hd.buffer c q l msg hold (fun hp' => ?_) k hk
      rw [hda, hg] at hp'
      simp only [Stage.Past, Stage.num, Stage.sub] at hp'
      omega
    · rw [Function.update_of_ne hda]
      refine hd.buffer c q l msg hold ?_ k hk
      rwa [hstage, Function.update_of_ne hda] at hpast
  · simp only [Stage.Past, Stage.num, Stage.sub] at hpast h1 h2
    omega
  · obtain rfl : q = p := by
      simp only [Stage.num] at h1 h2
      omega
    rw [hscr, Function.update_self, hblocks i hi]
    refine hd.stale a ha q hq hlevel.1 hlevel.2 (by omega) i hi (fun j' _ hpast => ?_) k hk
    rw [hg] at hpast
    simp only [Stage.Past, Stage.num, Stage.sub] at hpast
    omega
  · simp only [Stage.num] at hn'
    omega

/-- A message lands in a buffer that its phase has for itself. -/
theorem data_land (hw : Wired X w h peerOut peerIn) (hl : Laid X r M o w h peerIn)
    (hc : Control X w h peerOut peerIn s) (hd : Data X r M o w s) (hm : s.puts a p j = .sent msg) :
    Data X r M o w ((s.setScratch msg.dest (Blocks.copy (s.scratch msg.dest) msg.addr msg.payload 0
      msg.nbytes)).setPut a p j (.landed msg)) := by
  have hmsg : (s.puts a p j).msg = some msg := by
    rw [hm]
    rfl
  obtain ⟨hjr, haddr, hn⟩ := msg_bounds hl hc hd hmsg
  obtain ⟨hdlt, hdest, hp, hj, ha, hrecv⟩ := same_phase hw hc hmsg
  have hend := buf_end_le hl hjr hn (p := p + 1)
  generalize ht : (s.setScratch msg.dest (Blocks.copy (s.scratch msg.dest) msg.addr msg.payload 0
      msg.nbytes)).setPut a p j (.landed msg) = t
  have hstage : t.stage = s.stage := by
    rw [← ht]
    rfl
  have hscr : t.scratch = Function.update s.scratch msg.dest
      (Blocks.copy (s.scratch msg.dest) msg.addr msg.payload 0 msg.nbytes) := by
    rw [← ht]
    rfl
  have hdst : t.dst = s.dst := by
    rw [← ht]
    rfl
  have hputs : t.puts = update3 s.puts a p j (.landed msg) := by
    rw [← ht]
    rfl
  have hhigh : ∀ b x, o ≤ x → t.scratch b x = s.scratch b x := by
    intro b x hx
    rw [hscr]
    by_cases hb : b = msg.dest
    · rw [hb, Function.update_self, copy_out (by omega)]
    · rw [Function.update_of_ne hb]
  have hnot : (s.puts a p j).isHandled = false := by
    rw [hm]
    rfl
  -- the receiver waits for this message
  have hwait : (s.stage msg.dest).num w < 5 * p + 6 := by
    by_contra hge
    have hfilled := hc.filled msg.dest hdlt p hp (by omega) j hj
    rw [hdest, hw.in_out a ha p hp j hj, hnot] at hfilled
    simp at hfilled
  refine ⟨fun b q l msg' hmsg' => ?_, fun b q l msg' hmsg' hpast k hk => ?_,
    fun b hb q hq h1 h2 i hi j' hij hpast k hk => ?_, fun b hb q hq h1 h2 h5 i hi hpast k hk => ?_,
    fun b hb hn => ?_⟩
  · refine hd.payload b q l msg' ?_
    rw [hputs] at hmsg'
    by_cases heq : b = a ∧ q = p ∧ l = j
    · obtain ⟨rfl, rfl, rfl⟩ := heq
      rw [update3_self] at hmsg'
      rw [hmsg]
      exact hmsg'
    · rwa [update3_of_ne heq] at hmsg'
  · rw [hputs] at hmsg'
    by_cases heq : b = a ∧ q = p ∧ l = j
    · obtain ⟨rfl, rfl, rfl⟩ := heq
      rw [update3_self] at hmsg'
      obtain rfl : msg = msg' := by simpa using hmsg'
      rw [hscr, Function.update_self, copy_in hk, Nat.zero_add]
    · rw [update3_of_ne heq] at hmsg'
      rw [hstage] at hpast
      have hold := hd.buffer b q l msg' hmsg' hpast k hk
      have hmsg'' : (s.puts b q l).msg = some msg' := by
        rcases hmsg' with hmsg' | hmsg' <;> rw [hmsg'] <;> rfl
      obtain ⟨hlr, haddr', hn'⟩ := msg_bounds hl hc hd hmsg''
      obtain ⟨-, hdest', hq, hl', hb, hrecv'⟩ := same_phase hw hc hmsg''
      rw [hscr]
      by_cases hd' : msg'.dest = msg.dest
      · rw [hd', Function.update_self, ← hold, hd']
        refine copy_out ?_
        rw [hd'] at hpast hrecv'
        unfold Stage.Past at hpast hrecv' hrecv
        obtain rfl : q = p := by omega
        have hlj : l ≠ j := by
          rintro rfl
          have hsame := congrArg (peerIn q l) ((hdest'.symm.trans hd').trans hdest)
          rw [hw.in_out b hb q hq l hl', hw.in_out a ha q hq l hl'] at hsame
          exact heq ⟨hsame, rfl, rfl⟩
        have hdisj := buf_disjoint (X := X) (M := M) (p := q + 1) (q := q + 1) hlr hjr (Or.inr hlj) hn'
        omega
      · rw [Function.update_of_ne hd']
        exact hold
  · rw [hstage] at h1 h2 hpast
    rw [hhigh b _ (by omega)]
    exact hd.fresh b hb q hq h1 h2 i hi j' hij hpast k hk
  · rw [hstage] at h1 h2 h5 hpast
    rw [hhigh b _ (by omega)]
    exact hd.stale b hb q hq h1 h2 h5 i hi hpast k hk
  · rw [hstage] at hn
    rw [hdst]
    exact hd.exchanged b hb hn

theorem data_handlePut (hd : Data X r M o w s) (hm : s.puts a p j = .landed msg) :
    Data X r M o w ((s.count msg.dest msg.idx).setPut a p j (.handled msg)) := by
  refine ⟨fun b q l msg' hmsg' => ?_, fun b q l msg' hmsg' => ?_, hd.fresh, hd.stale, hd.exchanged⟩
  · refine hd.payload b q l msg' ?_
    replace hmsg' : (update3 s.puts a p j (.handled msg) b q l).msg = some msg' := hmsg'
    by_cases heq : b = a ∧ q = p ∧ l = j
    · obtain ⟨rfl, rfl, rfl⟩ := heq
      rw [update3_self] at hmsg'
      rw [hm]
      exact hmsg'
    · rwa [update3_of_ne heq] at hmsg'
  · refine hd.buffer b q l msg' ?_
    replace hmsg' : update3 s.puts a p j (.handled msg) b q l = .landed msg' ∨
      update3 s.puts a p j (.handled msg) b q l = .handled msg' := hmsg'
    by_cases heq : b = a ∧ q = p ∧ l = j
    · obtain ⟨rfl, rfl, rfl⟩ := heq
      rw [update3_self] at hmsg'
      rw [hm]
      exact .inl (congrArg _ (by simpa using hmsg'))
    · rwa [update3_of_ne heq] at hmsg'

theorem past_unpack : (Stage.unpack p j).Past w (5 * p + 6) k ↔ k < j := by
  simp [Stage.Past, Stage.num, Stage.sub]

/-- What a rank finds in a buffer that it unpacks. -/
theorem received (hw : Wired X w h peerOut peerIn) (hc : Control X w h peerOut peerIn s)
    (hd : Data X r M o w s) (ha : a < X.totalRanks) (hg : s.stage a = .unpack p j) (hp : p < w)
    (hj : j < h p) : ∃ msg, s.puts (peerIn p j a) p j = .handled msg ∧ msg.dest = a ∧
      msg.addr = buf X r M (p + 1) j ∧
      msg.nbytes = Nat.count (Selected p r (j + 1)) X.totalRanks * X.nbytes ∧
      ∀ k < msg.nbytes, s.scratch a (msg.addr + k) = msg.payload k := by
  have hhandled := hc.filled a ha p hp (by rw [hg]; exact Nat.le_refl _) j hj
  cases hput : s.puts (peerIn p j a) p j with
  | unsent | sent _ | landed _ =>
    rw [hput] at hhandled
    simp [Put.isHandled] at hhandled
  | handled msg =>
    have hmsg : (s.puts (peerIn p j a) p j).msg = some msg := by
      rw [hput]
      rfl
    obtain ⟨haddr, hn, -⟩ := hd.payload _ p j msg hmsg
    have hdest := (hc.put_msg _ p j msg hmsg).1
    rw [hw.out_in a ha p hp j hj] at hdest
    refine ⟨msg, rfl, hdest, haddr, hn, fun k hk => ?_⟩
    have hbuf := hd.buffer _ p j msg (.inr hput) ?_ k hk
    · rwa [hdest] at hbuf
    · rw [hdest, hg]
      simp only [Stage.Past, Stage.num, Stage.sub]
      omega

/-- Unpacking puts the blocks of the in-peer with this digit where the own ones were. -/
theorem data_unpack (hw : Wired X w h peerOut peerIn) (hl : Laid X r M o w h peerIn)
    (hc : Control X w h peerOut peerIn s) (hd : Data X r M o w s) (ha : a < X.totalRanks)
    (hg : s.stage a = .unpack p j) (hp : p < w) (hj : j < h p) :
    Data X r M o w ((s.setScratch a (unpackAllToAllMsg (s.scratch a) (X.idxExpr a (p + 1) j) o X.nbytes p
      (X.info a).radix (j + 1) X.totalRanks)).setStage a (.unpack p (j + 1))) := by
  have hjr : j < r - 1 := hj.trans_le (hl.peers p hp)
  rw [hl.radix a ha, hl.idxExpr a ha (p + 1) j hjr]
  obtain ⟨msg, hput, hdest, haddr, hn, hread⟩ := received hw hc hd ha hg hp hj
  have hend := buf_end_le hl hjr
    (Nat.mul_le_mul_right X.nbytes (hl.blocks p hp j hj)) (p := p + 1)
  have hlevel : 5 * p + 2 ≤ (s.stage a).num w ∧ (s.stage a).num w ≤ 5 * p + 6 := by
    rw [hg]
    simp only [Stage.num]
    omega
  refine hd.rank rfl (fun b hb => Function.update_of_ne hb _ _) (fun _ _ => rfl) hd.payload
    (buffer_kept hl hc hd rfl (fun b q k hb => ?_) fun b x hx => ?_)
    (fun q hq h1 h2 i hi j' hij hpast k hk => ?_) (fun q hq h1 h2 _ i hi hnot k hk => ?_) fun hn' => ?_
  · by_cases hba : b = a
    · subst hba
      show (Function.update s.stage b _ b).Past w _ _
      rw [Function.update_self]
      rw [hg] at hb
      simp only [Stage.Past, Stage.num, Stage.sub] at hb ⊢
      omega
    · show (Function.update s.stage a _ b).Past w _ _
      rwa [Function.update_of_ne hba]
  · show Function.update s.scratch a _ b x = _
    by_cases hba : b = a
    · subst hba
      rw [Function.update_self]
      exact scatter_out (.inl hx)
    · rw [Function.update_of_ne hba]
  · obtain rfl : q = p := by
      simp only [Stage.num] at h1 h2
      omega
    refine (congrFun (Function.update_self _ _ _) _).trans ?_
    by_cases hjj : j' = j
    · subst hjj
      have hsel := (hl.selected q hp (j' + 1) i).2 hij
      have hcount := Nat.count_strict_mono hsel hi
      have hle := block_end_le (n := X.nbytes) hcount
      refine (scatter_in hend hi hsel hk).trans ?_
      have hmsg : (s.puts (peerIn q j' a) q j').msg = some msg := by
        rw [hput]
        rfl
      rw [held_peer hl ha hp hj hi hij, ← (hd.payload _ q j' msg hmsg).2.2 i hi hsel k hk,
        ← hread _ (by omega), haddr, Nat.add_assoc]
    · have hnsel : ¬Selected q r (j + 1) i := fun hsel => by
        rw [hl.selected q hp] at hsel
        omega
      refine (scatter_other hi hnsel hk).trans ?_
      refine hd.fresh a ha q hq hlevel.1 hlevel.2 i hi j' hij ?_ k hk
      rw [past_unpack] at hpast
      rw [hg, past_unpack]
      omega
  · obtain rfl : q = p := by
      simp only [Stage.num] at h1 h2
      omega
    refine (congrFun (Function.update_self _ _ _) _).trans ?_
    have hnsel : ¬Selected q r (j + 1) i := fun hsel => by
      rw [hl.selected q hp] at hsel
      exact hnot j hsel (.inr ⟨rfl, Nat.lt_succ_self j⟩)
    refine (scatter_other hi hnsel hk).trans ?_
    refine hd.stale a ha q hq hlevel.1 hlevel.2 (by omega) i hi (fun j' hij hpast => hnot j' hij ?_) k hk
    rw [hg, past_unpack] at hpast
    rw [past_unpack]
    omega
  · simp only [Stage.num] at hn'
    omega

theorem data_copy (hl : Laid X r M o w h peerIn) (hc : Control X w h peerOut peerIn s)
    (hd : Data X r M o w s) (ha : a < X.totalRanks) (hg : s.stage a = .copy) :
    Data X r M o w ((s.setDst a (copyOut (s.dst a) (s.scratch a) o X.nbytes a X.totalRanks)).setStage a
      .outsync) := by
  refine hd.rank rfl (fun _ _ => rfl) (fun b hb => Function.update_of_ne hb _ _) hd.payload
    (buffer_kept hl hc hd rfl (fun b q k hb => ?_) fun _ _ _ => rfl)
    (fun q hq h1 h2 i hi j' hij hpast => ?_) (fun q hq h1 h2 h5 => ?_)
    fun _ i hi k hk => ?_
  · by_cases hba : b = a
    · subst hba
      show (Function.update s.stage b _ b).Past w _ _
      rw [Function.update_self]
      rw [hg] at hb
      simp only [Stage.Past, Stage.num, Stage.sub] at hb ⊢
      omega
    · show (Function.update s.stage a _ b).Past w _ _
      rwa [Function.update_of_ne hba]
  · simp only [Stage.Past, Stage.num, Stage.sub] at h1 h2 hpast
    omega
  · simp only [Stage.num] at h5
    omega
  · refine (congrFun (Function.update_self _ _ _) _).trans ?_
    have hlt := back_lt (l := i) ha
    rw [copyOut_in hi hk, ← held_last hl ha hi]
    refine hd.stale a ha w (Nat.le_refl w) ?_ ?_ ?_ _ hlt (fun j' _ hpast => ?_) k hk
    · rw [hg]
      exact Nat.le_refl _
    · rw [hg]
      simp only [Stage.num]
      omega
    · rw [hg]
      simp only [Stage.num]
      omega
    · rw [hg] at hpast
      simp only [Stage.Past, Stage.num, Stage.sub] at hpast
      omega

theorem data_single (hl : Laid X r M o w h peerIn) (hc : Control X w h peerOut peerIn s)
    (hd : Data X r M o w s) (ha : a < X.totalRanks) (hg : s.stage a = .insync) (h1 : X.totalRanks = 1) :
    Data X r M o w ((s.setDst a (Blocks.copy (s.dst a) 0 (X.src a) 0 X.nbytes)).setStage a .outsync) := by
  refine hd.rank rfl (fun _ _ => rfl) (fun b hb => Function.update_of_ne hb _ _) hd.payload
    (buffer_kept hl hc hd rfl (fun b q k hb => ?_) fun _ _ _ => rfl)
    (fun q hq h2 h3 i hi j' hij hpast => ?_) (fun q hq h2 h3 h4 => ?_) fun _ i hi k hk => ?_
  · by_cases hba : b = a
    · subst hba
      rw [hg] at hb
      simp only [Stage.Past, Stage.num, Stage.sub] at hb
      omega
    · show (Function.update s.stage a _ b).Past w _ _
      rwa [Function.update_of_ne hba]
  · simp only [Stage.Past, Stage.num, Stage.sub] at h2 h3 hpast
    omega
  · simp only [Stage.num] at h4
    omega
  · obtain rfl : i = 0 := by omega
    refine (congrFun (Function.update_self _ _ _) _).trans ?_
    obtain rfl : a = 0 := by omega
    rw [Nat.zero_mul, copy_in hk]

theorem data_step (hw : Wired X w h peerOut peerIn) (hl : Laid X r M o w h peerIn)
    (hstep : Step X s a t) (hc : Control X w h peerOut peerIn s) (hd : Data X r M o w s) :
    Data X r M o w t := by
  have hvalid := hc.valid a
  cases hstep with
  | single ha hg hin h1 => exact data_single hl hc hd ha hg h1
  | rotate ha hg hin h1 ho =>
    obtain rfl := Option.some.inj (ho.symm.trans (hl.scratch2 a ha))
    exact data_rotate hl hc hd ha hg (hw.phases a ha)
  | @send p j b o' nblocks m ha hg hj hb ho hpack =>
    rw [hg] at hvalid
    rw [hw.peerCount a ha p hvalid.1] at hj
    obtain rfl := Option.some.inj (ho.symm.trans (hl.scratch2 a ha))
    exact data_send hw hl hc hd ha hg hvalid.1 hj hpack
  | @unpack p j o' ha hg hj ho =>
    rw [hg] at hvalid
    rw [hw.peerCount a ha p hvalid.1] at hj
    obtain rfl := Option.some.inj (ho.symm.trans (hl.scratch2 a ha))
    exact data_unpack hw hl hc hd ha hg hvalid.1 hj
  | @unpacked p j ha hg hj =>
    rw [hg] at hvalid
    rw [hw.peerCount a ha p hvalid.1] at hj
    exact data_unpacked hl hc hd ha hg hvalid.1 hj (hw.phases a ha)
  | copy ha hg ho =>
    obtain rfl := Option.some.inj (ho.symm.trans (hl.scratch2 a ha))
    exact data_copy hl hc hd ha hg
  | handleAdvance hm => exact ⟨hd.payload, hd.buffer, hd.fresh, hd.stale, hd.exchanged⟩
  | land hm => exact data_land hw hl hc hd hm
  | handlePut hm => exact data_handlePut hd hm
  | alloc ha hg | advance ha hg _ _ | advanced ha hg _ | clear ha hg _ | sent ha hg _ | await ha hg _
  | finish ha hg _ =>
    rw [hg] at hvalid
    refine hd.walk hl hc ha rfl rfl rfl rfl (fun q k hp => ?_) (fun q hq h1 h2 => ⟨?_, fun i hi j' hij => ?_⟩)
      (fun hn => ?_) fun hn => ?_
    all_goals
      rw [hg] at *
      simp only [Stage.Past, Stage.num, Stage.sub, Stage.Valid] at *
      omega

end Steps

end Gasnet.Coll.ExchgDissem
