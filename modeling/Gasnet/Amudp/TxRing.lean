import Mathlib.Data.List.Perm.Basic
import Gasnet.Amudp.Retry
import Gasnet.Foundation.LinkedRing
import Gasnet.Foundation.Run
import Gasnet.Foundation.Memory

/-! The ring of outstanding requests: `AMUDP_EnqueueTxBuffer`, `AMUDP_DequeueTxBuffer` and the walk
of `AMUDP_HandleRequestTimeouts`. -/
namespace Gasnet.Amudp

/-- `amudp_bufstatus_t`, a union of the sending and the receiving fields, by its words. -/
structure BufStatus where
  w0 : Word
  w1 : Word
  w2 : Word
  w3 : Word
  w4 : Word
  deriving DecidableEq

namespace BufStatus

/-- `tx.next`. -/
def next (b : BufStatus) : Word := b.w0

/-- `tx.prev`. -/
def prev (b : BufStatus) : Word := b.w1

def timestamp (b : BufStatus) : Word := b.w2

def destId (b : BufStatus) : BitVec 32 := b.w3.setWidth 32

def retryCount (b : BufStatus) : BitVec 8 := (b.w3 >>> 32).setWidth 8

def setTimes (b : BufStatus) (timestamp : Word) (destId : BitVec 32) (retryCount : BitVec 8) :
    BufStatus :=
  { b with w2 := timestamp, w3 := destId.setWidth 64 ||| (retryCount.setWidth 64 <<< 32) }

/-- The receiving fields of a bounced request: `rx.sourceAddr` takes two words, `rx.dest` is the
fourth one and `rx.sourceId` the low half of the last, below `handlerRunning` and `replyIssued`. -/
def bounced (b : BufStatus) (sourceAddr : Word × Word) (dest : Word) (sourceId : BitVec 32) :
    BufStatus :=
  { b with w0 := sourceAddr.1, w1 := sourceAddr.2, w3 := dest,
           w4 := sourceId.setWidth 64 ||| (1 <<< 40) }

end BufStatus

/-- `AMUDP_HandleRequestTimeouts` on its way: the buffer it is at and how many are left. -/
structure Scan where
  buf : Word
  left : ℕ
  now : Word
  deriving DecidableEq

/-- The endpoint's ring; buffers are known by their addresses. The last two fields are observers:
the requests that await a reply, and whether a scan has followed a link of any other buffer. -/
structure TxRing where
  status : Word → BufStatus
  timeoutCheckPosn : Word
  outstandingRequests : ℕ
  scan : Option Scan
  outstanding : List Word
  stale : Bool

/-- What the scan consults: the settings, the addresses of the peers, the endpoint's own. -/
structure Setup where
  timeouts : Timeouts
  remoteName : BitVec 32 → Word × Word
  ep : Word

variable {g : Setup} {s t : TxRing} {buf b posn : Word} {rest : List Word}

namespace TxRing

def next (s : TxRing) (b : Word) : Word := (s.status b).next

def prev (s : TxRing) (b : Word) : Word := (s.status b).prev

def setStatus (s : TxRing) (b : Word) (st : BufStatus) : TxRing :=
  { s with status := Function.update s.status b st }

/-- `b->status.tx.next = v`. -/
def setNext (s : TxRing) (b v : Word) : TxRing := s.setStatus b { s.status b with w0 := v }

/-- `b->status.tx.prev = v`. -/
def setPrev (s : TxRing) (b v : Word) : TxRing := s.setStatus b { s.status b with w1 := v }

def enqueueTxBuffer (s : TxRing) (buf : Word) : TxRing :=
  if s.timeoutCheckPosn = 0 then
    { (s.setNext buf buf).setPrev buf buf with timeoutCheckPosn := buf, outstandingRequests := 1 }
  else
    let s := s.setNext buf s.timeoutCheckPosn
    let s := s.setPrev buf (s.prev s.timeoutCheckPosn)
    let s := s.setPrev s.timeoutCheckPosn buf
    let s := s.setNext (s.prev buf) buf
    { s with outstandingRequests := s.outstandingRequests + 1 }

def dequeueTxBuffer (s : TxRing) (buf : Word) : TxRing :=
  if s.next buf = buf then { s with timeoutCheckPosn := 0, outstandingRequests := 0 }
  else
    let s := { s with
      timeoutCheckPosn := if s.timeoutCheckPosn = buf then s.next buf else s.timeoutCheckPosn }
    let s := s.setNext (s.prev buf) (s.next buf)
    let s := s.setPrev (s.next buf) (s.prev buf)
    { s with outstandingRequests := s.outstandingRequests - 1 }

/-- A dequeued buffer goes back to its pool. -/
def release (s : TxRing) (buf : Word) : TxRing :=
  { s.dequeueTxBuffer buf with outstanding := s.outstanding.erase buf }

/-- `max_retryCount` is reached. -/
def undeliverable (g : Setup) (retryCount : BitVec 8) : Bool :=
  match g.timeouts.maxRetryCount with
  | none => false
  | some k => decide (k ≤ retryCount.toNat)

/-- The bounce of an expired request; the handler returned. -/
def expire (g : Setup) (s : TxRing) (buf : Word) : TxRing :=
  let destP := (s.status buf).destId
  let s := s.release buf
  s.setStatus buf ((s.status buf).bounced (g.remoteName destP) g.ep destP)

def retransmit (g : Setup) (s : TxRing) (buf now : Word) : TxRing :=
  let st := s.status buf
  s.setStatus buf <| st.setTimes
    (now + BitVec.ofNat 64 (g.timeouts.requestTimeoutTicks (Timeouts.retry st.retryCount)))
    st.destId (Timeouts.storeRetry st.retryCount)

/-- `buf = buf->status.tx.next`. -/
def advance (s : TxRing) (buf : Word) (left : ℕ) (now : Word) : TxRing :=
  { s with
    scan := some ⟨s.next buf, left, now⟩
    stale := s.stale || decide (buf ∉ s.outstanding) }

/-- `-1` stands for all of them. -/
def checks (numtocheck : ℤ) (outstandingRequests : ℕ) : ℕ :=
  if numtocheck = -1 then outstandingRequests
  else (min numtocheck outstandingRequests).toNat

inductive Action
  /-- A request has been sent from this buffer. -/
  | request (buf : Word) (destId : BitVec 32) (timestamp : Word)
  /-- A reply to it, or its refusal, has arrived. -/
  | answered (buf : Word)
  /-- Another buffer is in use for something else. -/
  | reuse (buf : Word) (st : BufStatus)
  | poll (numtocheck : ℤ) (now : Word)
  /-- One round: whether a packet could be sent, the clock after it, whether the handler of
  returned messages came back. -/
  | check (sent : Bool) (now : Word) (returns : Bool)
  | finish

def step (g : Setup) (s : TxRing) : Action → Option TxRing
  | .request buf destId timestamp =>
    if s.scan = none ∧ buf ≠ 0 ∧ buf ∉ s.outstanding then
      let s := s.setStatus buf ((s.status buf).setTimes timestamp destId 0)
      some { s.enqueueTxBuffer buf with outstanding := buf :: s.outstanding }
    else none
  | .answered buf => if s.scan = none ∧ buf ∈ s.outstanding then some (s.release buf) else none
  | .reuse buf st =>
    if s.scan = none ∧ buf ∉ s.outstanding then some (s.setStatus buf st) else none
  | .poll numtocheck now =>
    if s.scan = none then
      if s.timeoutCheckPosn = 0 then some s
      else some { s with
        scan := some ⟨s.timeoutCheckPosn, checks numtocheck s.outstandingRequests, now⟩ }
    else none
  | .check sent now' returns =>
    match s.scan with
    | some ⟨buf, left + 1, now⟩ =>
      if (s.status buf).timestamp ≤ now then
        if undeliverable g (s.status buf).retryCount then
          if returns then some ((s.expire g buf).advance buf left now) else none
        else if sent then some ((s.retransmit g buf now').advance buf left now')
        else some { s with scan := none }
      else some (s.advance buf left now)
    | _ => none
  | .finish =>
    match s.scan with
    | some ⟨buf, 0, _⟩ => some { s with timeoutCheckPosn := buf, scan := none }
    | _ => none

def initial : TxRing := ⟨fun _ => ⟨0, 0, 0, 0, 0⟩, 0, 0, none, [], false⟩

/-- A round that finds a request undeliverable. -/
def Expires (g : Setup) (s : TxRing) : Action → Prop
  | .check .. => ∃ buf left now, s.scan = some ⟨buf, left + 1, now⟩ ∧
      (s.status buf).timestamp ≤ now ∧ undeliverable g (s.status buf).retryCount = true
  | _ => False

def Step (g : Setup) (s : TxRing) (a : Action) (t : TxRing) : Prop := s.step g a = some t

def GoodStep (g : Setup) (s : TxRing) (a : Action) (t : TxRing) : Prop :=
  Step g s a t ∧ ¬Expires g s a

/-- The ring is sound, and no scan has followed a link of a buffer that was not on it. -/
structure Intact (s : TxRing) : Prop where
  empty : s.timeoutCheckPosn = 0 ↔ s.outstandingRequests = 0
  none : s.timeoutCheckPosn = 0 → s.outstanding = []
  member : s.timeoutCheckPosn ≠ 0 → s.timeoutCheckPosn ∈ s.outstanding
  once : s.outstanding.Nodup
  visits : s.timeoutCheckPosn ≠ 0 →
    (List.iterate s.next s.timeoutCheckPosn s.outstandingRequests).Perm s.outstanding ∧
      s.next^[s.outstandingRequests] s.timeoutCheckPosn = s.timeoutCheckPosn
  inverse : ∀ b ∈ s.outstanding, s.prev (s.next b) = b ∧ s.next (s.prev b) = b
  fresh : s.stale = false

end TxRing

end Gasnet.Amudp

/-! The ring stays a ring as long as no scan finds a request undeliverable. -/
namespace Gasnet.Amudp

variable {g : Setup} {s t u : TxRing} {buf b x v posn : Word} {st : BufStatus} {l : List Word}
  {a : TxRing.Action} {xs : List TxRing.Action}

namespace TxRing

section Frame

@[simp] theorem setStatus_status_self : (s.setStatus b st).status b = st := Function.update_self ..

theorem next_setStatus : (s.setStatus b st).next x = if x = b then st.next else s.next x := by
  show (Function.update s.status b st x).next = _
  rw [Function.update_apply]
  split <;> rfl

theorem prev_setStatus : (s.setStatus b st).prev x = if x = b then st.prev else s.prev x := by
  show (Function.update s.status b st x).prev = _
  rw [Function.update_apply]
  split <;> rfl

@[simp] theorem next_setNext : (s.setNext b v).next x = if x = b then v else s.next x :=
  next_setStatus

@[simp] theorem prev_setPrev : (s.setPrev b v).prev x = if x = b then v else s.prev x :=
  prev_setStatus

@[simp] theorem prev_setNext : (s.setNext b v).prev x = s.prev x := by
  rw [setNext, prev_setStatus]
  split
  · rename_i h
    rw [h]
    rfl
  · rfl

@[simp] theorem next_setPrev : (s.setPrev b v).next x = s.next x := by
  rw [setPrev, next_setStatus]
  split
  · rename_i h
    rw [h]
    rfl
  · rfl

@[simp] theorem setNext_posn : (s.setNext b v).timeoutCheckPosn = s.timeoutCheckPosn := rfl
@[simp] theorem setPrev_posn : (s.setPrev b v).timeoutCheckPosn = s.timeoutCheckPosn := rfl
@[simp] theorem setNext_count : (s.setNext b v).outstandingRequests = s.outstandingRequests := rfl
@[simp] theorem setPrev_count : (s.setPrev b v).outstandingRequests = s.outstandingRequests := rfl

/-- Setting the times of a buffer leaves its links alone. -/
theorem links_setTimes {d : BitVec 32} {r : BitVec 8} :
    (s.setStatus b ((s.status b).setTimes v d r)).next = s.next ∧
      (s.setStatus b ((s.status b).setTimes v d r)).prev = s.prev := by
  constructor
  · funext x
    rw [next_setStatus]
    split
    · rename_i h
      rw [h]
      rfl
    · rfl
  · funext x
    rw [prev_setStatus]
    split
    · rename_i h
      rw [h]
      rfl
    · rfl

end Frame

/-- Either nothing is outstanding, or the links from the check position run round the requests. -/
def Shape (s : TxRing) : Prop :=
  s.timeoutCheckPosn = 0 ∧ s.outstandingRequests = 0 ∧ s.outstanding = [] ∨
    ∃ l, LinkedRing s.next s.prev s.timeoutCheckPosn l ∧ s.outstandingRequests = l.length + 1 ∧
      (s.timeoutCheckPosn :: l).Perm s.outstanding

structure RingInv (s : TxRing) : Prop where
  shape : s.Shape
  nonzero : 0 ∉ s.outstanding
  fresh : s.stale = false
  scanning : ∀ c, s.scan = some c → c.buf ∈ s.outstanding

/-- The links of the requests, the position and the count decide the shape. -/
theorem Shape.congr (h : s.Shape) (hnext : ∀ b ∈ s.outstanding, t.next b = s.next b)
    (hprev : ∀ b ∈ s.outstanding, t.prev b = s.prev b)
    (hposn : t.timeoutCheckPosn = s.timeoutCheckPosn)
    (hcount : t.outstandingRequests = s.outstandingRequests)
    (hout : t.outstanding = s.outstanding) : t.Shape := by
  rcases h with ⟨h₁, h₂, h₃⟩ | ⟨l, hring, hlen, hperm⟩
  · exact .inl ⟨hposn.trans h₁, hcount.trans h₂, hout.trans h₃⟩
  · refine .inr ⟨l, ?_, hcount.trans hlen, ?_⟩
    · rw [hposn]
      exact hring.congr (fun b hb => hnext b (hperm.subset hb)) fun b hb =>
        hprev b (hperm.subset hb)
    · rw [hposn, hout]
      exact hperm

theorem RingInv.intact (h : s.RingInv) : s.Intact := by
  rcases h.shape with ⟨h₁, h₂, h₃⟩ | ⟨l, hring, hlen, hperm⟩
  · refine ⟨by simp [h₁, h₂], fun _ => h₃, fun hne => absurd h₁ hne, by simp [h₃],
      fun hne => absurd h₁ hne, ?_, h.fresh⟩
    rw [h₃]
    nofun
  · have hmem : s.timeoutCheckPosn ∈ s.outstanding := hperm.subset List.mem_cons_self
    have hne : s.timeoutCheckPosn ≠ 0 := by
      intro hz
      exact h.nonzero (hz ▸ hmem)
    obtain ⟨hvisits, hback⟩ := hring.visits
    refine ⟨⟨fun hz => absurd hz hne, fun hz => ?_⟩, fun hz => absurd hz hne, fun _ => hmem,
      hperm.nodup_iff.1 hring.nodup, fun _ => ?_, fun b hb => ?_, h.fresh⟩
    · omega
    · rw [hlen, hvisits]
      exact ⟨hperm, hback⟩
    · have hb' := hperm.symm.subset hb
      exact ⟨hring.prev_next hb', hring.next_prev hb'⟩

theorem ringInv_initial : RingInv initial := ⟨.inl ⟨rfl, rfl, rfl⟩, nofun, rfl, nofun⟩

/-- An entry goes in behind the check position. -/
theorem shape_enqueue (h : s.Shape) (hz : 0 ∉ s.outstanding) (hb : buf ∉ s.outstanding) :
    Shape { s.enqueueTxBuffer buf with outstanding := buf :: s.outstanding } := by
  right
  rcases h with ⟨h₁, h₂, h₃⟩ | ⟨l, hring, hlen, hperm⟩
  · refine ⟨[], ?_⟩
    rw [enqueueTxBuffer, if_pos h₁, h₃]
    refine ⟨LinkedRing.single buf ?_ ?_, rfl, List.Perm.refl _⟩
    · show ((s.setNext buf buf).setPrev buf buf).next buf = buf
      rw [next_setPrev, next_setNext, if_pos rfl]
    · show ((s.setNext buf buf).setPrev buf buf).prev buf = buf
      rw [prev_setPrev, if_pos rfl]
  · have hne : s.timeoutCheckPosn ≠ 0 := by
      intro h0
      exact hz (h0 ▸ hperm.subset List.mem_cons_self)
    have hbring : buf ∉ s.timeoutCheckPosn :: l := fun hmem => hb (hperm.subset hmem)
    have hbposn : s.timeoutCheckPosn ≠ buf := by
      rintro rfl
      exact hbring List.mem_cons_self
    have hbprev : s.prev s.timeoutCheckPosn ≠ buf := by
      rintro rfl
      exact hbring (hring.prev_mem List.mem_cons_self)
    refine ⟨l ++ [buf], ?_⟩
    rw [enqueueTxBuffer, if_neg hne]
    refine ⟨hring.insert hbring (fun x => ?_) fun x => ?_, ?_, ?_⟩
    · show ((((s.setNext buf _).setPrev buf _).setPrev _ buf).setNext _ buf).next x = _
      simp [Ne.symm hbposn]
    · show ((((s.setNext buf _).setPrev buf _).setPrev _ buf).setNext _ buf).prev x = _
      simp
    · show s.outstandingRequests + 1 = _
      rw [hlen, List.length_append, List.length_singleton]
    · exact (List.perm_append_singleton buf (s.timeoutCheckPosn :: l)).trans (hperm.cons buf)

/-- What is left when one of the requests is gone. -/
theorem perm_release (hperm : (buf :: l).Perm s.outstanding) :
    l.Perm (s.outstanding.erase buf) :=
  (hperm.trans (List.perm_cons_erase (hperm.subset List.mem_cons_self))).cons_inv

/-- Links as `dequeueTxBuffer` leaves them. -/
theorem links_dequeue (hself : s.next buf ≠ buf) :
    (s.dequeueTxBuffer buf).next x = (if x = s.prev buf then s.next buf else s.next x) ∧
      (s.dequeueTxBuffer buf).prev x = if x = s.next buf then s.prev buf else s.prev x := by
  rw [dequeueTxBuffer, if_neg hself]
  constructor
  · show ((setNext _ (s.prev buf) (s.next buf)).setPrev _ _).next x = _
    rw [next_setPrev, next_setNext]
    rfl
  · show ((setNext _ (s.prev buf) (s.next buf)).setPrev _ _).prev x = _
    rw [prev_setPrev, next_setNext, ite_self, prev_setNext, prev_setNext]
    rfl

/-- An entry may go from any place. -/
theorem shape_release (h : s.Shape) (hb : buf ∈ s.outstanding) : (s.release buf).Shape := by
  rcases h with ⟨-, -, h₃⟩ | ⟨l, hring, hlen, hperm⟩
  · rw [h₃] at hb
    cases hb
  rcases List.mem_cons.1 (hperm.symm.subset hb) with rfl | hmem
  · cases l with
    | nil =>
      left
      have hself : s.next s.timeoutCheckPosn = s.timeoutCheckPosn := hring.next_eq_self.2 rfl
      have herase := (perm_release hperm).symm.eq_nil
      refine ⟨?_, ?_, herase⟩
      · rw [release, dequeueTxBuffer, if_pos hself]
      · rw [release, dequeueTxBuffer, if_pos hself]
    | cons c l =>
      right
      have hself : s.next s.timeoutCheckPosn ≠ s.timeoutCheckPosn := by
        intro he
        exact absurd (hring.next_eq_self.1 he) nofun
      have hc : s.next s.timeoutCheckPosn = c := (List.isChain_cons_cons.1 hring.chain).1.1
      have hposn : (s.release s.timeoutCheckPosn).timeoutCheckPosn = c := by
        rw [release, dequeueTxBuffer, if_neg hself]
        exact (if_pos rfl).trans hc
      have hcount : (s.release s.timeoutCheckPosn).outstandingRequests =
          s.outstandingRequests - 1 := by
        rw [release, dequeueTxBuffer, if_neg hself]
        rfl
      refine ⟨l, ?_, ?_, ?_⟩
      · rw [hposn]
        exact hring.remove_first (fun _ _ => (links_dequeue hself).1)
          fun _ _ => (links_dequeue hself).2
      · rw [hcount, hlen, List.length_cons]
        rfl
      · rw [hposn]
        exact perm_release hperm
  · right
    obtain ⟨p, q, rfl⟩ := List.append_of_mem hmem
    have hrot := hring.rotate
    have hbp : s.timeoutCheckPosn ≠ buf := by
      rintro rfl
      exact (List.nodup_cons.1 hring.nodup).1 (by simp)
    have hself : s.next buf ≠ buf := by
      intro he
      have hnil := hrot.next_eq_self.1 he
      simp at hnil
    have hposn : (s.release buf).timeoutCheckPosn = s.timeoutCheckPosn := by
      rw [release, dequeueTxBuffer, if_neg hself]
      exact if_neg hbp
    have hcount : (s.release buf).outstandingRequests = s.outstandingRequests - 1 := by
      rw [release, dequeueTxBuffer, if_neg hself]
      rfl
    have hperm' : (buf :: s.timeoutCheckPosn :: (p ++ q)).Perm s.outstanding :=
      (@List.perm_middle _ buf (s.timeoutCheckPosn :: p) q).symm.trans hperm
    refine ⟨p ++ q, ?_, ?_, ?_⟩
    · rw [hposn]
      exact hring.remove (fun _ _ => (links_dequeue hself).1)
        fun _ _ => (links_dequeue hself).2
    · rw [hcount, hlen]
      simp only [List.length_append, List.length_cons]
      omega
    · rw [hposn]
      exact perm_release hperm'

/-- The scan goes on to the next request. -/
theorem inv_advance {k : ℕ} {now : Word} (h : s.Shape) (hz : 0 ∉ s.outstanding)
    (hs : s.stale = false) (hb : buf ∈ s.outstanding) : RingInv (s.advance buf k now) := by
  refine ⟨h, hz, ?_, ?_⟩
  · show (s.stale || decide (buf ∉ s.outstanding)) = false
    simp [hs, hb]
  · rintro c ⟨⟩
    rcases h with ⟨-, -, h₃⟩ | ⟨l, hring, -, hperm⟩
    · rw [h₃] at hb
      cases hb
    · exact hperm.subset (hring.next_mem (hperm.symm.subset hb))

theorem inv_request {d : BitVec 32} (h : s.RingInv) (hk : s.step g (.request buf d v) = some t) :
    t.RingInv := by
  simp only [step] at hk
  split at hk
  · rename_i hguard
    obtain ⟨hscan, hne, hmem⟩ := hguard
    cases hk
    obtain ⟨hnext, hprev⟩ := @links_setTimes s buf v d 0
    have hshape : (s.setStatus buf ((s.status buf).setTimes v d 0)).Shape :=
      h.shape.congr (fun b _ => congrFun hnext b) (fun b _ => congrFun hprev b) rfl rfl rfl
    refine ⟨shape_enqueue hshape h.nonzero hmem, ?_, ?_, ?_⟩
    · rw [List.mem_cons, not_or]
      exact ⟨Ne.symm hne, h.nonzero⟩
    · show (enqueueTxBuffer _ buf).stale = false
      unfold enqueueTxBuffer
      split <;> exact h.fresh
    · intro c hc
      have hnone : (enqueueTxBuffer (s.setStatus buf ((s.status buf).setTimes v d 0)) buf).scan =
          none := by
        unfold enqueueTxBuffer
        split <;> exact hscan
      exact absurd (hnone.symm.trans hc) nofun
  · cases hk

theorem inv_answered (h : s.RingInv) (hk : s.step g (.answered buf) = some t) : t.RingInv := by
  simp only [step] at hk
  split at hk
  · rename_i hguard
    cases hk
    refine ⟨shape_release h.shape hguard.2, fun h0 => h.nonzero (List.mem_of_mem_erase h0), ?_, ?_⟩
    · show (dequeueTxBuffer s buf).stale = false
      unfold dequeueTxBuffer
      split <;> exact h.fresh
    · intro c hc
      have hnone : (dequeueTxBuffer s buf).scan = none := by
        unfold dequeueTxBuffer
        split <;> exact hguard.1
      exact absurd (hnone.symm.trans hc) nofun
  · cases hk

theorem inv_reuse (h : s.RingInv) (hk : s.step g (.reuse buf st) = some t) : t.RingInv := by
  simp only [step] at hk
  split at hk
  · rename_i hguard
    cases hk
    have hne : ∀ b ∈ s.outstanding, b ≠ buf := by
      rintro b hb rfl
      exact hguard.2 hb
    refine ⟨h.shape.congr (fun b hb => ?_) (fun b hb => ?_) rfl rfl rfl, h.nonzero, h.fresh,
      h.scanning⟩
    · rw [next_setStatus, if_neg (hne b hb)]
    · rw [prev_setStatus, if_neg (hne b hb)]
  · cases hk

theorem inv_poll {k : ℤ} (h : s.RingInv) (hk : s.step g (.poll k v) = some t) : t.RingInv := by
  simp only [step] at hk
  split at hk
  · split at hk
    · cases hk
      exact h
    · rename_i hne
      cases hk
      refine ⟨h.shape, h.nonzero, h.fresh, ?_⟩
      rintro c ⟨⟩
      exact h.intact.member hne
  · cases hk

theorem inv_finish (h : s.RingInv) (hk : s.step g .finish = some t) : t.RingInv := by
  simp only [step] at hk
  split at hk
  · rename_i buf c hscan
    cases hk
    have hmem : buf ∈ s.outstanding := h.scanning _ hscan
    refine ⟨?_, h.nonzero, h.fresh, nofun⟩
    rcases h.shape with ⟨-, -, h₃⟩ | ⟨l, hring, hlen, hperm⟩
    · rw [h₃] at hmem
      cases hmem
    -- the ring may be entered anywhere
    · right
      rcases List.mem_cons.1 (hperm.symm.subset hmem) with rfl | hin
      · exact ⟨l, hring, hlen, hperm⟩
      · obtain ⟨p, q, rfl⟩ := List.append_of_mem hin
        refine ⟨q ++ s.timeoutCheckPosn :: p, hring.rotate, ?_, ?_⟩
        · rw [hlen]
          simp only [List.length_append, List.length_cons]
          omega
        · exact (@List.perm_append_comm _ (_ :: q) (s.timeoutCheckPosn :: p)).trans hperm
  · cases hk

theorem inv_check {sent returns : Bool} (h : s.RingInv)
    (hk : s.step g (.check sent v returns) = some t)
    (hquiet : ¬s.Expires g (.check sent v returns)) : t.RingInv := by
  simp only [step] at hk
  split at hk
  · rename_i buf left now hscan
    have hmem := h.scanning _ hscan
    split at hk
    · rename_i hdue
      split at hk
      · rename_i hdead
        exact absurd ⟨buf, left, now, hscan, hdue, hdead⟩ hquiet
      · split at hk
        · cases hk
          obtain ⟨hnext, hprev⟩ := @links_setTimes s buf
            (v + BitVec.ofNat 64 (g.timeouts.requestTimeoutTicks
              (Timeouts.retry (s.status buf).retryCount)))
            (s.status buf).destId (Timeouts.storeRetry (s.status buf).retryCount)
          have hshape : (s.retransmit g buf v).Shape :=
            h.shape.congr (fun b _ => congrFun hnext b) (fun b _ => congrFun hprev b) rfl rfl rfl
          exact inv_advance hshape h.nonzero h.fresh hmem
        · cases hk
          exact ⟨h.shape, h.nonzero, h.fresh, nofun⟩
    · cases hk
      exact inv_advance h.shape h.nonzero h.fresh hmem
  · cases hk

theorem inv_step (h : s.RingInv) (hk : GoodStep g s a t) : t.RingInv := by
  obtain ⟨hstep, hquiet⟩ := hk
  cases a with
  | request buf d v => exact inv_request h hstep
  | answered buf => exact inv_answered h hstep
  | reuse buf st => exact inv_reuse h hstep
  | poll k v => exact inv_poll h hstep
  | check sent v returns => exact inv_check h hstep hquiet
  | finish => exact inv_finish h hstep

/-- A round that bounces a request goes on through a buffer that is off the ring. -/
theorem expires_stale (h : s.RingInv) (hk : Step g s a t) (hexp : s.Expires g a) :
    t.stale = true := by
  cases a with
  | check sent v returns =>
    obtain ⟨buf, left, now, hscan, hdue, hdead⟩ := hexp
    simp only [Step, step, hscan, if_pos hdue, hdead, if_true] at hk
    split at hk
    · cases hk
      have hgone : buf ∉ s.outstanding.erase buf := h.intact.once.not_mem_erase
      have hdecide : decide (buf ∉ (s.expire g buf).outstanding) = true := decide_eq_true hgone
      show (_ || decide (buf ∉ (s.expire g buf).outstanding)) = true
      rw [hdecide, Bool.or_true]
    · cases hk
  | _ => exact absurd hexp id

end TxRing

/-- In every run whose scans find no request undeliverable, the ring is intact in every state; the
first round that finds one, and has its handler return, breaks it. -/
theorem tx_ring_intact (g : Setup) (xs : List TxRing.Action) (s : TxRing)
    (h : Run (TxRing.GoodStep g) TxRing.initial xs s) :
    s.Intact ∧ ∀ a t, TxRing.Step g s a t → (t.Intact ↔ ¬s.Expires g a) := by
  have hinv := h.invariant (fun hk hs => TxRing.inv_step hs hk) TxRing.ringInv_initial
  refine ⟨hinv.intact, fun a t hk => ⟨fun ht hexp => ?_, fun hquiet => ?_⟩⟩
  · exact absurd ((TxRing.expires_stale hinv hk hexp).symm.trans ht.fresh) nofun
  · exact (TxRing.inv_step hinv ⟨hk, hquiet⟩).intact

/-- One retransmission after a microsecond, and a peer at this address. -/
def hastySetup : Setup := ⟨⟨1, 1, 2, 1⟩, fun _ => (0x100007f35820002, 0), 64⟩

/-- Two requests, of which the second one is answered first and the first one is retransmitted. -/
theorem tx_ring_intact_two : ∃ s,
    Run (TxRing.GoodStep hastySetup) TxRing.initial
      [.request 8 0 5, .request 16 0 6, .answered 16, .poll 1 5, .check true 6 true, .finish] s ∧
    s.Intact := by
  have hrun : ∃ s, Run (TxRing.GoodStep hastySetup) TxRing.initial
      [.request 8 0 5, .request 16 0 6, .answered 16, .poll 1 5, .check true 6 true, .finish] s := by
    refine ⟨_, .stepL ⟨rfl, id⟩ (.stepL ⟨rfl, id⟩ (.stepL ⟨rfl, id⟩ (.stepL ⟨rfl, id⟩
      (.stepL ⟨rfl, ?_⟩ (.stepL ⟨rfl, id⟩ .refl)))))⟩
    rintro ⟨buf, left, now, hscan, -, hdead⟩
    cases hscan
    revert hdead
    decide
  obtain ⟨s, hs⟩ := hrun
  exact ⟨s, hs, (tx_ring_intact hastySetup _ s hs).1⟩

/-- The only request is retransmitted once and then given up: the check position becomes the first
word of the peer's address, while nothing is outstanding. -/
theorem tx_ring_broken : ∃ xs s, Run (TxRing.Step hastySetup) TxRing.initial xs s ∧ ¬s.Intact := by
  refine ⟨[.request 8 0 5, .poll 1 5, .check true 6 true, .finish, .poll 1 9, .check true 9 true,
    .finish], _, .stepL rfl (.stepL rfl (.stepL rfl (.stepL rfl (.stepL rfl (.stepL rfl
    (.stepL rfl .refl)))))), fun h => ?_⟩
  exact absurd (h.empty.2 rfl) (by decide)

end Gasnet.Amudp
