import Gasnet.Foundation.Exchange
import Gasnet.Foundation.Dissemination

/-! A course in which every rank is to have all contributions, its own first: before step `t` it
has those of `2 ^ t` ranks, and in the step it sends them, or what is left of the ring, to the
rank that is as many places behind. -/
namespace Gasnet.Exchange

open Dissemination Rotation

variable {N : Nat} {σ W β : Type} {p : Program N σ W β} {K : Nat}

/-- The sizes of the contributions. -/
def sizes (c : Fin N → List β) (q : Fin N) : Nat := (c q).length

/-- How much a rank sends in step `t`. -/
def share (w : Fin N → Nat) (q : Fin N) (t : Nat) : Nat :=
  Rotation.extent w q (min (2 ^ t) (N - 2 ^ t))

theorem share_le_known (w : Fin N → Nat) (q : Fin N) (t : Nat) : share w q t ≤ known w q t :=
  extent_mono (by omega)

theorem known_add_share {w : Fin N → Nat} {t : Nat} (h : 2 ^ t < N) (r : Fin N) :
    known w r (t + 1) = known w r t + share w (fwd r t) t := known_succ h

/-- The course in which the exchanges have the contributions `c`. -/
def rotation (control : Nat → Fin N → σ) (plan : Nat → Fin N → Plan W β)
    (c : Nat → Fin N → List β) : Course N σ W β where
  control := control
  plan := plan
  full k r := gather (c k) r N
  known k r t := Rotation.known (sizes (c k)) r t

theorem length_full (c : Fin N → List β) (r : Fin N) :
    (gather c r N).length = ∑ q, sizes c q := (length_gather c r N).trans (extent_all _ r)

/-- What the plans and the handler have to be like. -/
structure Rotates (p : Program N σ W β) (control : Nat → Fin N → σ)
    (plan : Nat → Fin N → Plan W β) (c : Nat → Fin N → List β) (K : Nat) : Prop where
  steps : N ≤ 2 ^ p.steps
  steps_lt : ∀ t, t < p.steps → 2 ^ t < N
  peer : ∀ r t, t < p.steps → p.peer (fwd r t) t = r
  gain : ∀ n, 0 < p.gain n
  ready : ∀ a e, a ≤ e → (p.ready a e = true ↔ a = e)
  start : ∀ r, control 0 r = p.start r
  runs : ∀ k r, k < K → p.plan r (control k r) = some (plan k r)
  last : ∀ r, p.plan r (control K r) = none
  next : ∀ k r, k < K → control (k + 1) r = p.next r (control k r) (gather (c k) r N)
  size : ∀ k r, k < K → (plan k r).size = ∑ q, sizes (c k) q
  alloc : ∀ k, k < K → p.alloc (∑ q, sizes (c k) q) = true
  own : ∀ k r, k < K → (plan k r).own = c k r
  frags : ∀ k r t, k < K → t < p.steps → ∃ limit, 0 < limit ∧
    ((plan k (fwd r t)).frags t).map (fun f => (f.start, f.length)) =
      pieces limit (share (sizes (c k)) (fwd r t) t) 0
  landing : ∀ k r t f, k < K → t < p.steps → f ∈ (plan k (fwd r t)).frags t →
    p.landing r f.wire =
      ⟨parity k, t, ∑ q, sizes (c k) q, Rotation.known (sizes (c k)) r t + f.start⟩
  expect : ∀ k r t, k < K → t < p.steps → (plan k r).expect t =
    (((plan k (fwd r t)).frags t).map fun f => p.gain f.length).sum

theorem Rotates.sound {control : Nat → Fin N → σ} {plan : Nat → Fin N → Plan W β}
    {c : Nat → Fin N → List β} (h : Rotates p control plan c K) :
    (rotation control plan c).Sound p K where
  steps := h.steps
  peer := h.peer
  gain := h.gain
  ready := h.ready
  start := h.start
  plan := h.runs
  last := h.last
  next := h.next
  size k r hk := (h.size k r hk).trans (length_full _ r).symm
  alloc k r hk := by
    show p.alloc (gather (c k) r N).length = true
    rw [length_full]
    exact h.alloc k hk
  own k r hk := by
    show (plan k r).own = (gather (c k) r N).take (Rotation.known (sizes (c k)) r 0)
    have hsplit : gather (c k) r N = gather (c k) r 1 ++ gather (c k) (ahead r 1) (N - 1) := by
      rw [← gather_add]
      congr 1
      have := r.pos
      omega
    have hone : gather (c k) r 1 = c k r := by simp [gather, List.range_succ]
    rw [h.own k r hk, known_zero, hsplit, hone, sizes, List.take_left']
    rfl
  mono k r t hk ht := known_mono _ r t
  whole k r hk := (known_all h.steps).trans (length_full _ r).symm
  frag k r t f hk ht hf := by
    obtain ⟨limit, hl, hp⟩ := h.frags k r t hk ht
    have hmem : (f.start, f.length) ∈ pieces limit (share (sizes (c k)) (fwd r t) t) 0 :=
      hp ▸ List.mem_map_of_mem hf
    obtain ⟨_, hle⟩ := mem_pieces (Nat.zero_le _) hmem
    dsimp only at hle
    refine ⟨hle.trans (share_le_known _ _ _), Rotation.known (sizes (c k)) r t + f.start, ?_, ?_,
      fun j hj => ?_⟩
    · rw [h.landing k r t f hk ht hf, ← length_full (c k) r]
      rfl
    · show _ ≤ Rotation.known (sizes (c k)) r (t + 1)
      rw [known_add_share (h.steps_lt t ht)]
      omega
    · have hlt := h.steps_lt t ht
      have hknown : Rotation.known (sizes (c k)) r t =
          Rotation.extent (fun q => (c k q).length) r (2 ^ t) := by
        rw [Rotation.known, Nat.min_eq_left hlt.le]
        rfl
      show (gather (c k) r N)[_]? = (gather (c k) (fwd r t) N)[_]?
      rw [hknown, Nat.add_assoc, fwd_eq_ahead]
      exact gather_getElem (n := min (2 ^ t) (N - 2 ^ t)) (by omega)
        (lt_of_lt_of_le (Nat.add_lt_add_left hj _) hle)
  cover k r t x hk ht hlo hhi := by
    obtain ⟨limit, hl, hp⟩ := h.frags k r t hk ht
    change Rotation.known (sizes (c k)) r t ≤ x at hlo
    change x < Rotation.known (sizes (c k)) r (t + 1) at hhi
    rw [known_add_share (h.steps_lt t ht)] at hhi
    obtain ⟨y, hy, h₁, h₂⟩ := @pieces_cover (x - Rotation.known (sizes (c k)) r t) limit
      (share (sizes (c k)) (fwd r t) t) 0 hl (Nat.zero_le _) (by omega)
    rw [← hp] at hy
    obtain ⟨f, hf, rfl⟩ := List.mem_map.mp hy
    refine ⟨f, hf, ?_, ?_⟩ <;> rw [h.landing k r t f hk ht hf] <;> dsimp only at h₁ h₂ ⊢ <;> omega
  nonempty k r t hk ht := by
    obtain ⟨q, rfl⟩ := fwd_surjective t r
    obtain ⟨limit, _, hp⟩ := h.frags k q t hk ht
    intro hnil
    change (plan k (fwd q t)).frags t = [] at hnil
    rw [hnil] at hp
    exact pieces_ne_nil hp.symm
  expect := h.expect

end Gasnet.Exchange
