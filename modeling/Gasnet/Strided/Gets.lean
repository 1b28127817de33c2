import Gasnet.Foundation.Cut
import Gasnet.Foundation.Run
import Gasnet.Strided.Chunks

/-! The get pipeline `gasnete_gets_AMPipeline`: its loop, the handlers of its requests and
replies, and the record they share, as a step relation. -/
namespace Gasnet.Strided

variable {β : Type*}

/-- `gasneti_vis_op_t` with the tables behind it. The count of outstanding packets is an atomic
of 32 bits. -/
structure Visop where
  count : ℕ
  len : Word
  addr : Word
  selfStrides : List Word
  counts : List Word
  peerStrides : List Word
  packetcnt : BitVec 32
  deriving DecidableEq, Repr

/-- `GASNETI_ATOMIC_MAX`. -/
def atomicMax : ℕ := 2 ^ 32 - 1

/-- `GASNETE_GETS_AMPIPELINE_REPLYOVERHEAD`. -/
def replyOverhead (stridelevels : ℕ) : ℕ := stridelevels * 8

structure GetRequest where
  srcaddr : Word
  initchunk : Word
  stridelevels : BitVec 32
  chunksz : BitVec 32
  packetchunks : BitVec 32
  header : List Word
  deriving DecidableEq, Repr

/-- `packet_init` and the packed data. -/
structure GetReply (β : Type*) where
  packetchunks : BitVec 32
  init : List Word
  payload : List β
  deriving DecidableEq, Repr

/-- `gasnete_gets_AMPipeline_reqh`, over the memory of the target. -/
def getsAMPipelineReqh (mem : Word → β) (q : GetRequest) : GetReply β :=
  let stridelevels := q.stridelevels.toNat
  let packetcount := (q.header.take stridelevels).map BitVec.toNat
  let packetstrides := (q.header.drop stridelevels).take stridelevels
  let packetinit := vectorInc packetcount (List.replicate stridelevels 0) q.initchunk.toNat
  { packetchunks := q.packetchunks
    init := packetinit.map (BitVec.ofNat 64)
    payload :=
      gather mem (stridedPartial (packetcount.zip packetstrides) q.srcaddr q.packetchunks.toNat
        packetinit false 0).1 q.chunksz.toNat }

/-- The unpacking of `gasnete_gets_AMPipeline_reph`. -/
def Visop.unpack (v : Visop) (p : GetReply β) : List (Landing β) :=
  unpackLoop v.len.toNat
    (stridedPartial ((v.counts.map BitVec.toNat).zip v.selfStrides) v.addr p.packetchunks.toNat
      (p.init.map BitVec.toNat) false 0).1 p.payload

section Initiator

-- `maxreply` is what a medium reply holds.
variable (maxreply : ℕ) (smd : Smd)

/-- `maxpayload`. -/
def getMaxpayload : ℕ := maxreply - replyOverhead smd.dim.length

/-- The chunks of a packet; the single-packet case is a loop of one iteration. -/
def chunksperpacket : ℕ :=
  if smd.totalsz ≤ getMaxpayload maxreply smd then smd.elemcnt
  else getMaxpayload maxreply smd / smd.elemsz.toNat

/-- `packetcnt`, in `size_t`. -/
def packetcnt : ℕ :=
  if smd.totalsz ≤ getMaxpayload maxreply smd then 1
  else (smd.elemcnt + chunksperpacket maxreply smd - 1) % 2 ^ 64 / chunksperpacket maxreply smd

/-- The record as the initiator sets it up. -/
def visopSetup : Visop :=
  { count := smd.dim.length
    len := smd.elemsz
    addr := smd.self
    selfStrides := smd.dim.map (Dim.stride · .self)
    counts := smd.dim.map Dim.count
    peerStrides := smd.dim.map (Dim.stride · .peer)
    packetcnt := BitVec.ofNat 32 (packetcnt maxreply smd) }

/-- The request of one iteration; its header is read from the record. -/
def getRequest (v : Visop) (initchunk : ℕ) : GetRequest :=
  { srcaddr := smd.peer
    initchunk := BitVec.ofNat 64 initchunk
    stridelevels := BitVec.ofNat 32 smd.dim.length
    chunksz := BitVec.ofNat 32 smd.elemsz.toNat
    packetchunks :=
      BitVec.ofNat 32 (min (chunksperpacket maxreply smd) (smd.elemcnt - initchunk))
    header := v.counts ++ v.peerStrides }

end Initiator

/-- The transfer: the loop variable, the record with whether it was freed, whether it was
accessed after that, how often completion was signalled, what is in flight, and the chunks
unpacked so far. -/
structure GetState (β : Type*) where
  initchunk : ℕ
  visop : Visop
  freed : Bool
  fault : Bool
  signals : ℕ
  requests : List GetRequest
  replies : List (GetReply β)
  landed : List (Landing β)

def GetState.start (maxreply : ℕ) (smd : Smd) : GetState β :=
  { initchunk := 0
    visop := visopSetup maxreply smd
    freed := false
    fault := false
    signals := 0
    requests := []
    replies := []
    landed := [] }

/-- An access to the record. -/
def GetState.touch (s : GetState β) : GetState β := { s with fault := s.fault || s.freed }

/-- One iteration of the issuing loop. -/
def GetState.issue (maxreply : ℕ) (smd : Smd) (s : GetState β) : GetState β :=
  { s.touch with
    requests := getRequest maxreply smd s.visop s.initchunk :: s.requests
    initchunk := (s.initchunk + chunksperpacket maxreply smd) % 2 ^ 64 }

/-- A request reaches its handler. The payload may be read from the record until then. -/
def GetState.handleRequest (mem : Word → β) (s : GetState β) (q : GetRequest)
    (rest : List GetRequest) : GetState β :=
  { s.touch with
    requests := rest
    replies := getsAMPipelineReqh mem q :: s.replies }

/-- `gasnete_gets_AMPipeline_reph`: unpack, count down, and the last one signals and frees. -/
def GetState.handleReply (s : GetState β) (p : GetReply β) (rest : List (GetReply β)) :
    GetState β :=
  let left := s.visop.packetcnt - 1
  { s.touch with
    visop := { s.visop with packetcnt := left }
    freed := s.freed || left == 0
    signals := if left = 0 then s.signals + 1 else s.signals
    replies := rest
    landed := s.landed ++ s.visop.unpack p }

inductive GetLabel
  | issue
  | request
  | reply

/-- The initiator issues, and any message in flight may be the next to arrive. -/
inductive GetStep (maxreply : ℕ) (smd : Smd) (mem : Word → β) :
    GetState β → GetLabel → GetState β → Prop
  | issue {s : GetState β} (h : s.initchunk < smd.elemcnt) :
      GetStep maxreply smd mem s .issue (s.issue maxreply smd)
  | request {s : GetState β} {q : GetRequest} {rest : List GetRequest}
      (h : s.requests.Perm (q :: rest)) :
      GetStep maxreply smd mem s .request (s.handleRequest mem q rest)
  | reply {s : GetState β} {p : GetReply β} {rest : List (GetReply β)}
      (h : s.replies.Perm (p :: rest)) :
      GetStep maxreply smd mem s .reply (s.handleReply p rest)

end Gasnet.Strided

/-! What each packet of the get pipeline carries, and the invariant of a transfer: its packets
are still to be issued, asked for, answered or landed. -/
namespace Gasnet.Strided

variable {β : Type*} {maxreply : ℕ} {smd : Smd} {mem : Word → β} {s t : GetState β}
  {a : GetLabel} {c : ℕ × ℕ} {R P L : List (ℕ × ℕ)} {i : ℕ}

/-- What the selector asks of the limits, and what the code asserts of its AM arguments. -/
structure GetAdmits (maxreply : ℕ) (smd : Smd) : Prop where
  fits : replyOverhead smd.dim.length + smd.elemsz.toNat ≤ maxreply
  arg : maxreply < 2 ^ 32

theorem GetAdmits.levels (hm : GetAdmits maxreply smd) : smd.dim.length < 2 ^ 32 := by
  have h := hm.fits
  have harg := hm.arg
  unfold replyOverhead at h
  omega

theorem GetAdmits.elemsz (hm : GetAdmits maxreply smd) : smd.elemsz.toNat < 2 ^ 32 := by
  have h := hm.fits
  have harg := hm.arg
  omega

theorem chunksperpacket_pos (h : smd.Wf) (hm : GetAdmits maxreply smd) :
    0 < chunksperpacket maxreply smd := by
  unfold chunksperpacket getMaxpayload
  split
  · exact h.elemcnt_pos
  · have := hm.fits
    exact Nat.div_pos (by omega) h.elemsz_pos

theorem chunksperpacket_lt (h : smd.Wf) (hm : GetAdmits maxreply smd) :
    chunksperpacket maxreply smd < 2 ^ 32 := by
  have harg := hm.arg
  unfold chunksperpacket
  split
  · rename_i hone
    have hle : smd.elemcnt ≤ smd.totalsz := Nat.le_mul_of_pos_left _ h.elemsz_pos
    unfold getMaxpayload at hone
    omega
  · have := Nat.div_le_self (getMaxpayload maxreply smd) smd.elemsz.toNat
    unfold getMaxpayload at this ⊢
    omega

/-- The packets not issued yet when the loop variable is `i`. -/
def todo (maxreply : ℕ) (smd : Smd) (i : ℕ) : List (ℕ × ℕ) :=
  if i < smd.elemcnt then
    cuts (min (chunksperpacket maxreply smd)) (fun _ => true) (smd.elemcnt - i) (smd.elemcnt - i) i
  else []

theorem todo_issue (h : smd.Wf) (hm : GetAdmits maxreply smd) (hi : i < smd.elemcnt) :
    todo maxreply smd i =
      (i, min (chunksperpacket maxreply smd) (smd.elemcnt - i)) ::
        todo maxreply smd (i + chunksperpacket maxreply smd) := by
  have hpos := chunksperpacket_pos h hm
  rw [todo, if_pos hi, show smd.elemcnt - i = smd.elemcnt - i - 1 + 1 by omega, cuts,
    show smd.elemcnt - i - 1 + 1 = smd.elemcnt - i by omega]
  congr 1
  rw [todo]
  by_cases hlast : i + chunksperpacket maxreply smd < smd.elemcnt
  · rw [Nat.min_eq_left (by omega), if_neg (by omega), if_pos hlast, if_pos rfl,
      show smd.elemcnt - i - chunksperpacket maxreply smd =
        smd.elemcnt - (i + chunksperpacket maxreply smd) by omega]
    exact cuts_fuel (cutting_min hpos) (by omega) (by omega) (by omega)
  · rw [Nat.min_eq_right (by omega), if_pos (by omega), if_neg hlast]

theorem mem_todo (h : smd.Wf) (hm : GetAdmits maxreply smd) (hc : c ∈ todo maxreply smd 0) :
    0 < c.2 ∧ c.2 < 2 ^ 32 ∧ c.1 + c.2 ≤ smd.elemcnt := by
  have hpos := chunksperpacket_pos h hm
  have hlt := chunksperpacket_lt h hm
  have hcnt := h.elemcnt_pos
  rw [todo, if_pos hcnt] at hc
  rcases cuts_size (cutting_min hpos) (by omega) hc with ⟨h0, r, _, he⟩
  have hle := @cuts_le _ _ _ _ _ smd.elemcnt (cutting_min hpos) (by omega) (by omega) c hc
  exact ⟨by omega, by omega, hle⟩

theorem todo_flatMap (h : smd.Wf) (hm : GetAdmits maxreply smd) :
    (todo maxreply smd 0).flatMap (fun c => List.range' c.1 c.2) =
      List.range' 0 smd.elemcnt := by
  have hcnt := h.elemcnt_pos
  rw [todo, if_pos hcnt]
  exact cuts_flatMap (cutting_min (chunksperpacket_pos h hm)) (by omega) le_rfl fun _ _ => rfl

/-- The request for a packet. -/
def requestAt (smd : Smd) (c : ℕ × ℕ) : GetRequest :=
  { srcaddr := smd.peer
    initchunk := BitVec.ofNat 64 c.1
    stridelevels := BitVec.ofNat 32 smd.dim.length
    chunksz := BitVec.ofNat 32 smd.elemsz.toNat
    packetchunks := BitVec.ofNat 32 c.2
    header := smd.dim.map Dim.count ++ smd.dim.map (Dim.stride · .peer) }

/-- The reply to it. -/
def replyAt (smd : Smd) (mem : Word → β) (c : ℕ × ℕ) : GetReply β :=
  { packetchunks := BitVec.ofNat 32 c.2
    init := (digits smd.counts c.1).map (BitVec.ofNat 64)
    payload := (List.range' c.1 c.2).flatMap (chunkBytes smd mem .peer) }

theorem elemcnt_le_totalsz (h : smd.Wf) : smd.elemcnt ≤ smd.totalsz :=
  Nat.le_mul_of_pos_left _ h.elemsz_pos

/-- The handler recomputes the packet's coordinates and gathers its chunks. -/
theorem reqh_requestAt (h : smd.Wf) (hm : GetAdmits maxreply smd) (hpos : 0 < c.2)
    (hlt : c.2 < 2 ^ 32) (hle : c.1 + c.2 ≤ smd.elemcnt) :
    getsAMPipelineReqh mem (requestAt smd c) = replyAt smd mem c := by
  have hlen : (smd.dim.map Dim.count).length = smd.dim.length := List.length_map _
  have hlen' : (smd.dim.map (Dim.stride · .peer)).length = smd.dim.length := List.length_map _
  have hinit : (BitVec.ofNat 64 c.1).toNat = c.1 := by
    have hsz := elemcnt_le_totalsz h
    have := h.size
    rw [BitVec.toNat_ofNat, Nat.mod_eq_of_lt (by omega)]
  have hcount : (smd.dim.map Dim.count).map BitVec.toNat = smd.counts := List.map_map
  have hzero : List.replicate smd.dim.length 0 = digits smd.counts 0 := by
    rw [digits_zero, List.length_map]
  simp only [getsAMPipelineReqh, requestAt, replyAt, toNat_arg hm.levels, toNat_arg hm.elemsz,
    toNat_arg hlt, hinit, List.take_left' hlen, List.drop_left' hlen]
  rw [List.take_of_length_le (Nat.le_of_eq hlen'), zip_axes, hcount, hzero, vectorInc_digits,
    Nat.zero_add, ← gather_eq]
  change GetReply.mk _ _ (gather mem (stridedPartial _ (smd.addr .peer) _ _ _ _).1 _) = _
  rw [partial_visits h .peer hpos hle]

/-- The reply handler lands what the request was for. -/
theorem unpack_replyAt (h : smd.Wf) (n : BitVec 32) (hpos : 0 < c.2) (hlt : c.2 < 2 ^ 32)
    (hle : c.1 + c.2 ≤ smd.elemcnt) :
    Visop.unpack { visopSetup maxreply smd with packetcnt := n } (replyAt smd mem c) =
      (List.range' c.1 c.2).map (landing smd mem .peer .self) := by
  simp only [Visop.unpack, visopSetup, replyAt, toNat_arg hlt, header_init h, zip_axes]
  change unpackLoop _ (stridedPartial _ (smd.addr .self) _ _ _ _).1 _ = _
  rw [partial_visits h .self hpos hle, scatter_eq]

/-- `R` is asked for, `P` is answered, `L` has landed. -/
structure GetInv (maxreply : ℕ) (smd : Smd) (mem : Word → β) (R P L : List (ℕ × ℕ))
    (s : GetState β) : Prop where
  visop : s.visop = { visopSetup maxreply smd with packetcnt := s.visop.packetcnt }
  requests : s.requests.Perm (R.map (requestAt smd))
  replies : s.replies.Perm (P.map (replyAt smd mem))
  landed : s.landed.Perm
    (L.flatMap fun c => (List.range' c.1 c.2).map (landing smd mem .peer .self))
  all : (R ++ P ++ L ++ todo maxreply smd s.initchunk).Perm (todo maxreply smd 0)
  cnt : s.visop.packetcnt.toNat =
    R.length + P.length + (todo maxreply smd s.initchunk).length
  freed : s.freed = true ↔ s.visop.packetcnt = 0
  signals : s.signals = if s.freed then 1 else 0
  fault : s.fault = false

/-- Moves left: three for a packet not issued, two for one asked for, one for one answered. -/
def moves (maxreply : ℕ) (smd : Smd) (R P : List (ℕ × ℕ)) (s : GetState β) : ℕ :=
  3 * (todo maxreply smd s.initchunk).length + 2 * R.length + P.length

/-- As many packets as the count can hold, so that setting it loses nothing. -/
def CountHolds (maxreply : ℕ) (smd : Smd) : Prop :=
  (smd.elemcnt + chunksperpacket maxreply smd - 1) / chunksperpacket maxreply smd ≤ atomicMax

instance (maxreply : ℕ) (smd : Smd) : Decidable (CountHolds maxreply smd) :=
  inferInstanceAs (Decidable (_ ≤ _))

theorem CountHolds.elemcnt_le (h : smd.Wf) (hm : GetAdmits maxreply smd)
    (hc : CountHolds maxreply smd) :
    smd.elemcnt ≤ atomicMax * chunksperpacket maxreply smd := by
  have hpos := chunksperpacket_pos h hm
  have := (Nat.div_le_iff_le_mul_add_pred hpos).mp hc
  rw [mul_comm] at this
  omega

theorem CountHolds.no_wrap (h : smd.Wf) (hm : GetAdmits maxreply smd)
    (hc : CountHolds maxreply smd) : smd.elemcnt + chunksperpacket maxreply smd < 2 ^ 64 := by
  have hle := hc.elemcnt_le h hm
  have hlt := chunksperpacket_lt h hm
  have : atomicMax * chunksperpacket maxreply smd ≤ atomicMax * (2 ^ 32 - 1) :=
    Nat.mul_le_mul_left _ (by omega)
  unfold atomicMax at *
  omega

theorem packetcnt_eq (h : smd.Wf) (hm : GetAdmits maxreply smd) (hc : CountHolds maxreply smd) :
    packetcnt maxreply smd =
      (smd.elemcnt + chunksperpacket maxreply smd - 1) / chunksperpacket maxreply smd := by
  have hpos := h.elemcnt_pos
  have hwrap := hc.no_wrap h hm
  rw [packetcnt]
  split
  · rename_i hone
    rw [chunksperpacket, if_pos hone,
      show smd.elemcnt + smd.elemcnt - 1 = smd.elemcnt - 1 + smd.elemcnt by omega,
      Nat.add_div_right _ hpos, Nat.div_eq_of_lt (by omega)]
  · rw [Nat.mod_eq_of_lt (by omega)]

theorem length_todo (h : smd.Wf) (hm : GetAdmits maxreply smd) (hc : CountHolds maxreply smd) :
    (todo maxreply smd 0).length = packetcnt maxreply smd := by
  have hpos := h.elemcnt_pos
  rw [packetcnt_eq h hm hc, todo, if_pos hpos,
    length_cuts_min (chunksperpacket_pos h hm) (by omega) le_rfl, Nat.sub_zero]

theorem packetcnt_toNat (h : smd.Wf) (hm : GetAdmits maxreply smd)
    (hc : CountHolds maxreply smd) :
    (BitVec.ofNat 32 (packetcnt maxreply smd)).toNat = packetcnt maxreply smd := by
  apply toNat_arg
  rw [packetcnt_eq h hm hc]
  exact Nat.lt_of_le_of_lt hc (by decide)

theorem getInv_start (h : smd.Wf) (hm : GetAdmits maxreply smd) (hc : CountHolds maxreply smd) :
    GetInv maxreply smd mem [] [] [] (GetState.start maxreply smd : GetState β) where
  visop := rfl
  requests := .nil
  replies := .nil
  landed := .nil
  all := .refl _
  cnt := by
    simp only [GetState.start, visopSetup, List.length_nil, Nat.zero_add]
    rw [packetcnt_toNat h hm hc, length_todo h hm hc]
  freed := by
    have hlen := length_todo h hm hc
    have hpos := h.elemcnt_pos
    rw [todo_issue h hm hpos, List.length_cons] at hlen
    simp only [GetState.start, visopSetup, Bool.false_eq_true, false_iff]
    intro hz
    have := packetcnt_toNat h hm hc
    rw [hz] at this
    simp at this
    omega
  signals := rfl
  fault := rfl

/-- While a packet is outstanding the record is there. -/
theorem GetInv.live (hI : GetInv maxreply smd mem R P L s)
    (h : R.length + P.length + (todo maxreply smd s.initchunk).length ≠ 0) : s.freed = false := by
  rw [← Bool.not_eq_true, hI.freed]
  intro hz
  have := hI.cnt
  rw [hz] at this
  simp at this
  omega

theorem perm_map_cons {α γ : Type*} [DecidableEq α] {f : α → γ} {l : List γ} {q : γ}
    {rest : List γ} {R : List α} (hl : l.Perm (R.map f)) (h : l.Perm (q :: rest)) :
    ∃ c R', R.Perm (c :: R') ∧ f c = q ∧ rest.Perm (R'.map f) := by
  have hq : q ∈ R.map f := (h.symm.trans hl).subset List.mem_cons_self
  rcases List.mem_map.mp hq with ⟨c, hc, rfl⟩
  have hR := List.perm_cons_erase hc
  refine ⟨c, R.erase c, hR, rfl, ?_⟩
  have := (h.symm.trans hl).trans (hR.map f)
  rw [List.map_cons] at this
  exact this.cons_inv

theorem getInv_issue (h : smd.Wf) (hm : GetAdmits maxreply smd) (hc : CountHolds maxreply smd)
    (hI : GetInv maxreply smd mem R P L s) (hi : s.initchunk < smd.elemcnt) :
    let n := min (chunksperpacket maxreply smd) (smd.elemcnt - s.initchunk)
    GetInv maxreply smd mem ((s.initchunk, n) :: R) P L (s.issue maxreply smd) ∧
      moves maxreply smd ((s.initchunk, n) :: R) P (s.issue maxreply smd) + 1 =
        moves maxreply smd R P s := by
  have htodo := todo_issue h hm hi
  have hwrap : (s.initchunk + chunksperpacket maxreply smd) % 2 ^ 64 =
      s.initchunk + chunksperpacket maxreply smd := by
    have := hc.no_wrap h hm
    exact Nat.mod_eq_of_lt (by omega)
  have hlive := hI.live (by rw [htodo, List.length_cons]; omega)
  have hlen := congrArg List.length htodo
  rw [List.length_cons] at hlen
  refine ⟨⟨hI.visop, ?_, hI.replies, hI.landed, ?_, ?_, hI.freed, hI.signals, ?_⟩, ?_⟩
  · have hreq : getRequest maxreply smd s.visop s.initchunk = requestAt smd
        (s.initchunk, min (chunksperpacket maxreply smd) (smd.elemcnt - s.initchunk)) := by
      rw [hI.visop]
      rfl
    simp only [GetState.issue, GetState.touch, hreq, List.map_cons]
    exact hI.requests.cons _
  · simp only [GetState.issue, GetState.touch, hwrap]
    refine List.Perm.trans ?_ hI.all
    rw [htodo]
    exact List.perm_middle.symm
  · simp only [GetState.issue, GetState.touch, hwrap, List.length_cons]
    have := hI.cnt
    omega
  · simp [GetState.issue, GetState.touch, hI.fault, hlive]
  · simp only [moves, GetState.issue, GetState.touch, hwrap, List.length_cons]
    omega

theorem getInv_request (h : smd.Wf) (hm : GetAdmits maxreply smd)
    (hI : GetInv maxreply smd mem R P L s) {q : GetRequest} {rest : List GetRequest}
    (hq : s.requests.Perm (q :: rest)) :
    ∃ R' P', GetInv maxreply smd mem R' P' L (s.handleRequest mem q rest) ∧
      moves maxreply smd R' P' (s.handleRequest mem q rest) + 1 = moves maxreply smd R P s := by
  rcases perm_map_cons hI.requests hq with ⟨c, R', hR, rfl, hrest⟩
  have hlen := hR.length_eq
  rw [List.length_cons] at hlen
  have hlive := hI.live (by omega)
  have hmem : c ∈ todo maxreply smd 0 := by
    apply hI.all.subset
    simp [hR.mem_iff]
  rcases mem_todo h hm hmem with ⟨hpos, hlt, hle⟩
  refine ⟨R', c :: P, ⟨hI.visop, hrest, ?_, hI.landed, ?_, ?_, hI.freed, hI.signals, ?_⟩, ?_⟩
  · simp only [GetState.handleRequest, GetState.touch, reqh_requestAt h hm hpos hlt hle,
      List.map_cons]
    exact hI.replies.cons _
  · refine List.Perm.trans ?_ hI.all
    simp only [GetState.handleRequest, GetState.touch, List.append_assoc, List.cons_append]
    exact List.perm_middle.trans (hR.symm.append_right _)
  · simp only [GetState.handleRequest, GetState.touch, List.length_cons]
    have := hI.cnt
    omega
  · simp [GetState.handleRequest, GetState.touch, hI.fault, hlive]
  · simp only [moves, GetState.handleRequest, GetState.touch, List.length_cons]
    omega

theorem getInv_reply (h : smd.Wf) (hm : GetAdmits maxreply smd)
    (hI : GetInv maxreply smd mem R P L s) {p : GetReply β} {rest : List (GetReply β)}
    (hp : s.replies.Perm (p :: rest)) :
    ∃ P' L', GetInv maxreply smd mem R P' L' (s.handleReply p rest) ∧
      moves maxreply smd R P' (s.handleReply p rest) + 1 = moves maxreply smd R P s := by
  rcases perm_map_cons hI.replies hp with ⟨c, P', hP, rfl, hrest⟩
  have hlen := hP.length_eq
  rw [List.length_cons] at hlen
  have hlive := hI.live (by omega)
  have hmem : c ∈ todo maxreply smd 0 := by
    apply hI.all.subset
    simp [hP.mem_iff]
  rcases mem_todo h hm hmem with ⟨hpos, hlt, hle⟩
  have hcnt := hI.cnt
  have hleft : (s.visop.packetcnt - 1).toNat = s.visop.packetcnt.toNat - 1 := by
    have := s.visop.packetcnt.isLt
    rw [BitVec.toNat_sub]
    simp only [BitVec.ofNat_eq_ofNat, BitVec.toNat_ofNat]
    omega
  refine ⟨P', L ++ [c], ⟨?_, hI.requests, hrest, ?_, ?_, ?_, ?_, ?_, ?_⟩, ?_⟩
  · simp only [GetState.handleReply, GetState.touch]
    rw [hI.visop]
  · simp only [GetState.handleReply, GetState.touch, List.flatMap_append, List.flatMap_singleton]
    rw [hI.visop, unpack_replyAt h _ hpos hlt hle]
    exact hI.landed.append_right _
  · refine List.Perm.trans ?_ hI.all
    simp only [GetState.handleReply, GetState.touch, List.append_assoc, List.singleton_append]
    apply List.Perm.append_left
    refine List.Perm.trans ?_ (hP.symm.append_right _)
    rw [← List.append_assoc, List.cons_append, ← List.append_assoc]
    exact List.perm_middle
  · simp only [GetState.handleReply, GetState.touch, hleft]
    omega
  · simp only [GetState.handleReply, GetState.touch, hlive, Bool.false_or, beq_iff_eq]
  · simp only [GetState.handleReply, GetState.touch, hI.signals, hlive, Bool.false_or, beq_iff_eq,
      Bool.false_eq_true, if_false, Nat.zero_add]
  · simp [GetState.handleReply, GetState.touch, hI.fault, hlive]
  · simp only [moves, GetState.handleReply, GetState.touch]
    omega

theorem getInv_step (h : smd.Wf) (hm : GetAdmits maxreply smd) (hc : CountHolds maxreply smd)
    (hI : GetInv maxreply smd mem R P L s) (hs : GetStep maxreply smd mem s a t) :
    ∃ R' P' L', GetInv maxreply smd mem R' P' L' t ∧
      moves maxreply smd R' P' t + 1 = moves maxreply smd R P s := by
  cases hs with
  | issue hi => exact ⟨_, P, L, getInv_issue h hm hc hI hi⟩
  | request hq =>
    rcases getInv_request h hm hI hq with ⟨R', P', hres⟩
    exact ⟨R', P', L, hres⟩
  | reply hp =>
    rcases getInv_reply h hm hI hp with ⟨P', L', hres⟩
    exact ⟨R, P', L', hres⟩

end Gasnet.Strided

/-! The get pipeline copies every chunk once, signals once, and does not touch the record after
freeing it, while its packets can be counted. -/
namespace Gasnet.Strided

variable {β : Type*} {maxreply : ℕ} {smd : Smd} {mem : Word → β} {s t : GetState β}
  {xs : List GetLabel} {R P L : List (ℕ × ℕ)}

theorem getInv_run (h : smd.Wf) (hm : GetAdmits maxreply smd) (hc : CountHolds maxreply smd)
    (hr : Run (GetStep maxreply smd mem) s xs t) (hI : GetInv maxreply smd mem R P L s) :
    ∃ R' P' L', GetInv maxreply smd mem R' P' L' t ∧
      moves maxreply smd R' P' t + xs.length = moves maxreply smd R P s := by
  induction hr generalizing R P L with
  | refl => exact ⟨R, P, L, hI, rfl⟩
  | stepL hs _ ih =>
    rcases getInv_step h hm hc hI hs with ⟨R₁, P₁, L₁, hI₁, hm₁⟩
    rcases ih hI₁ with ⟨R₂, P₂, L₂, hI₂, hm₂⟩
    refine ⟨R₂, P₂, L₂, hI₂, ?_⟩
    rw [List.length_cons]
    omega

/-- What holds after the moves `xs` of a get. -/
structure GetSound (maxreply : ℕ) (smd : Smd) (mem : Word → β) (xs : List GetLabel)
    (s : GetState β) : Prop where
  /-- The record is never accessed after it was freed. -/
  nofault : s.fault = false
  /-- No chunk lands twice, and none that is not of the transfer. -/
  once : s.landed.Subperm (smd.copy mem .peer .self)
  /-- Completion is signalled at most once, when the record is freed. -/
  signals : s.signals = if s.freed then 1 else 0
  /-- Then every packet was issued, answered and unpacked. -/
  complete : s.freed = true → smd.elemcnt ≤ s.initchunk ∧ s.requests = [] ∧ s.replies = [] ∧
    s.landed.Perm (smd.copy mem .peer .self)
  /-- A transfer that can go no further has signalled, and it gets there. -/
  progress : (∀ a t, ¬ GetStep maxreply smd mem s a t) → s.freed = true
  bounded : xs.length ≤ 3 * packetcnt maxreply smd

/-- Every run of a get is sound, and leaves the source's bytes in distinct destinations. -/
def GetsRefine (maxreply : ℕ) (smd : Smd) (mem : Word → β) : Prop :=
  ∀ xs s, Run (GetStep maxreply smd mem) (GetState.start maxreply smd) xs s →
    GetSound maxreply smd mem xs s ∧
    (s.freed = true → (((smd.copy mem .peer .self).flatMap Landing.stores).map Prod.fst).Nodup →
      ∀ dst, ∀ w ∈ (smd.copy mem .peer .self).flatMap Landing.stores,
        store dst (s.landed.flatMap Landing.stores) w.1 = w.2)

theorem landed_copy (h : smd.Wf) (hm : GetAdmits maxreply smd) :
    ((todo maxreply smd 0).flatMap fun c =>
      (List.range' c.1 c.2).map (landing smd mem .peer .self)) = smd.copy mem .peer .self := by
  rw [copy_eq h, ← todo_flatMap h hm, List.map_flatMap]

theorem GetInv.landed_subperm (h : smd.Wf) (hm : GetAdmits maxreply smd)
    (hI : GetInv maxreply smd mem R P L s) : s.landed.Subperm (smd.copy mem .peer .self) := by
  rw [← landed_copy h hm]
  refine hI.landed.subperm.trans ?_
  refine List.Subperm.trans ?_ (hI.all.flatMap_right _).subperm
  apply List.Sublist.subperm
  rw [List.flatMap_append, List.flatMap_append]
  exact (List.sublist_append_right _ _).trans (List.sublist_append_left _ _)

theorem GetInv.done (hI : GetInv maxreply smd mem R P L s) (hf : s.freed = true) :
    R = [] ∧ P = [] ∧ todo maxreply smd s.initchunk = [] := by
  have hz := hI.freed.mp hf
  have hcnt := hI.cnt
  rw [hz] at hcnt
  simp only [BitVec.ofNat_eq_ofNat, BitVec.toNat_ofNat, Nat.zero_mod] at hcnt
  exact ⟨List.eq_nil_of_length_eq_zero (by omega), List.eq_nil_of_length_eq_zero (by omega),
    List.eq_nil_of_length_eq_zero (by omega)⟩

theorem GetInv.complete (h : smd.Wf) (hm : GetAdmits maxreply smd)
    (hI : GetInv maxreply smd mem R P L s) (hf : s.freed = true) :
    smd.elemcnt ≤ s.initchunk ∧ s.requests = [] ∧ s.replies = [] ∧
      s.landed.Perm (smd.copy mem .peer .self) := by
  rcases hI.done hf with ⟨rfl, rfl, htodo⟩
  refine ⟨?_, hI.requests.eq_nil, hI.replies.eq_nil, ?_⟩
  · by_contra hlt
    rw [todo_issue h hm (by omega)] at htodo
    cases htodo
  · have hall := hI.all
    rw [htodo, List.append_nil] at hall
    rw [← landed_copy h hm]
    exact hI.landed.trans (hall.flatMap_right _)

theorem GetInv.progress (hI : GetInv maxreply smd mem R P L s)
    (hstuck : ∀ a t, ¬ GetStep maxreply smd mem s a t) : s.freed = true := by
  have hi : ¬ s.initchunk < smd.elemcnt := fun hi => hstuck _ _ (.issue hi)
  have hreq : s.requests = [] := by
    rcases hq : s.requests with _ | ⟨q, rest⟩
    · rfl
    · exact absurd (GetStep.request (List.Perm.of_eq hq)) (hstuck _ _)
  have hrep : s.replies = [] := by
    rcases hp : s.replies with _ | ⟨p, rest⟩
    · rfl
    · exact absurd (GetStep.reply (List.Perm.of_eq hp)) (hstuck _ _)
  have hR := hI.requests.length_eq
  have hP := hI.replies.length_eq
  rw [hreq, List.length_nil, List.length_map] at hR
  rw [hrep, List.length_nil, List.length_map] at hP
  have hcnt := hI.cnt
  rw [todo, if_neg hi, List.length_nil, ← hR, ← hP] at hcnt
  rw [hI.freed]
  exact BitVec.eq_of_toNat_eq (by simpa using hcnt)

theorem GetInv.sound (h : smd.Wf) (hm : GetAdmits maxreply smd)
    (hI : GetInv maxreply smd mem R P L s) (hb : xs.length ≤ 3 * packetcnt maxreply smd) :
    GetSound maxreply smd mem xs s where
  nofault := hI.fault
  once := hI.landed_subperm h hm
  signals := hI.signals
  complete := hI.complete h hm
  progress := hI.progress
  bounded := hb

theorem gets_refine (h : smd.Wf) (hm : GetAdmits maxreply smd) (hc : CountHolds maxreply smd)
    (mem : Word → β) : GetsRefine maxreply smd mem := by
  intro xs s hrun
  rcases getInv_run h hm hc hrun (getInv_start h hm hc) with ⟨R, P, L, hI, hmoves⟩
  have hb : xs.length ≤ 3 * packetcnt maxreply smd := by
    have hlen := length_todo h hm hc
    simp only [moves, GetState.start, List.length_nil] at hmoves
    omega
  refine ⟨hI.sound h hm hb, fun hf hn dst w hw => ?_⟩
  rcases hI.complete h hm hf with ⟨_, _, _, hperm⟩
  rw [store_perm (hperm.flatMap_right _) ((hperm.flatMap_right _).map _ |>.nodup_iff.mpr hn)]
  exact store_of_mem hw hn dst

/-- Three chunks of two bytes, one to a reply. -/
def smallGet : Smd := ⟨2, 0x1000, 0x2000, [⟨3, 4, 2⟩]⟩

theorem gets_refine_small : GetsRefine 10 smallGet (BitVec.setWidth 8) :=
  gets_refine ⟨by decide, by decide, by decide⟩ ⟨by decide, by decide⟩ (by decide) _

/-- `2 ^ 32 + 1` chunks of 512 bytes, one to a reply. -/
def longGet : Smd := ⟨512, 0x10000000000, 0x100000000000, [⟨4294967297, 512, 1024⟩]⟩

/-- The count of packets wraps to one: the first reply signals and frees with the others to
come. -/
theorem gets_early : longGet.Wf ∧ GetAdmits 520 longGet ∧
    ¬ GetsRefine 520 longGet (BitVec.setWidth 8) := by
  refine ⟨⟨by decide, by decide, by decide⟩, ⟨by decide, by decide⟩, fun hall => ?_⟩
  let s₀ : GetState (BitVec 8) := GetState.start 520 longGet
  let s₁ := s₀.issue 520 longGet
  let q := getRequest 520 longGet s₀.visop 0
  let s₂ := s₁.handleRequest (BitVec.setWidth 8) q []
  let s₃ := s₂.handleReply (getsAMPipelineReqh (BitVec.setWidth 8) q) []
  have hcnt : longGet.elemcnt = 4294967297 := by decide
  have hcpp : chunksperpacket 520 longGet = 1 := by decide
  have hrun : Run (GetStep 520 longGet (BitVec.setWidth 8)) s₀ [.issue, .request, .reply] s₃ :=
    .stepL (.issue (by rw [hcnt]; decide)) (.stepL (.request (.refl _))
      (.stepL (.reply (.refl _)) .refl))
  have hfree : s₃.freed = true := by
    have hone : (visopSetup 520 longGet).packetcnt - 1 = 0 := by decide
    simp only [s₃, GetState.handleReply, s₂, GetState.handleRequest, s₁, GetState.issue,
      GetState.touch, s₀, GetState.start, hone]
    rfl
  have hdone := ((hall _ _ hrun).1.complete hfree).1
  have hinit : s₃.initchunk = 1 := by
    change (0 + chunksperpacket 520 longGet) % 2 ^ 64 = 1
    rw [hcpp]
    rfl
  rw [hinit, hcnt] at hdone
  omega

end Gasnet.Strided
