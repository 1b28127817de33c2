import Mathlib.Data.Nat.Count
import Mathlib.Data.Nat.Log
import Mathlib.Tactic.MkIffOfInductiveProp

/-! The default choice of an algorithm for a collective: the segment size of a team, the limits
registered with the algorithms and the tests of the five selections. -/
namespace Gasnet.Coll.Autotune

/-- A product in `size_t`. -/
def mulSize (a b : Nat) : Nat := a * b % 2 ^ 64

/-- What the selections read of a team, of the conduit and of the environment. -/
structure Team where
  totalRanks : Nat
  scratchSize : Nat
  lubRequestLong : Nat
  lubRequestMedium : Nat
  /-- `gasnete_coll_p2p_eager_min`. -/
  eagerMin : Nat
  /-- `gasnete_coll_p2p_eager_scale`. -/
  eagerScale : Nat
  /-- `GASNET_COLL_PIPE_SEG_SIZE`, when the environment has it. -/
  pipeSegSizeEnv : Option Nat
  gatherAllDissemLimit : Nat
  exchangeDissemLimit : Nat
  /-- `GASNET_SEGMENT_EVERYTHING`. -/
  segmentEverything : Bool
  totalRanks_pos : 0 < totalRanks
  /-- `GASNET_MAXNODES` is `0x7FFFFFFF`. -/
  totalRanks_lt : totalRanks < 2 ^ 31
  scratchSize_lt : scratchSize < 2 ^ 64
  long_lt : lubRequestLong < 2 ^ 64
  medium_lt : lubRequestMedium < 2 ^ 64
  /-- No conduit has less, nor a smaller long message. -/
  medium_ge : 512 ≤ lubRequestMedium
  long_ge : 512 ≤ lubRequestLong
  eagerMin_lt : eagerMin < 2 ^ 64
  eagerScale_lt : eagerScale < 2 ^ 64

structure Flags where
  srcInSegment : Bool
  dstInSegment : Bool
  /-- `GASNETE_COLL_SUBORDINATE`. -/
  subordinate : Bool
  /-- `GASNETE_COLL_NONROOT_SUBORDINATE`. -/
  nonrootSubordinate : Bool
deriving DecidableEq

namespace Team
variable (team : Team)

/-- `MIN(scratch_size, gex_AM_LUBRequestLong())`. -/
def room : Nat := min team.scratchSize team.lubRequestLong

/-- `pipe_seg_size` as `gasnete_coll_autotune_init` leaves it. -/
def pipeSegSize : Nat :=
  let asked := team.pipeSegSizeEnv.getD (team.room / team.totalRanks)
  let inScratch :=
    if team.scratchSize < mulSize asked team.totalRanks then team.scratchSize / team.totalRanks
    else asked
  if team.lubRequestLong < mulSize inScratch team.totalRanks then
    team.lubRequestLong / team.totalRanks
  else inScratch

/-- `param_list[0]`: the segment size as a `uint32_t`. -/
def paramSegSize : Nat := team.pipeSegSize % 2 ^ 32

/-- `team->p2p_eager_buffersz`. -/
def eagerBuffersz : Nat := max team.eagerMin (mulSize team.totalRanks team.eagerScale)

/-- `gasnete_coll_segment_check`. -/
def segmentCheck (flags : Flags) : Flags :=
  if team.segmentEverything then { flags with srcInSegment := true, dstInSegment := true }
  else flags

/-- `largest_seg_size` as it is registered with the segmented broadcast. -/
def largestSegSize : Nat := min team.lubRequestLong (min team.lubRequestLong team.scratchSize)

/-- `dissem->max_dissem_blocks` of radix 2: the most blocks with one bit set in their number. -/
def maxDissemBlocks : Nat :=
  (List.range (max 1 (Nat.clog 2 team.totalRanks))).foldl
    (fun most i => max most (Nat.count (fun j => j / 2 ^ i % 2 = 1) team.totalRanks))
    (max 1 (team.totalRanks / 2))

end Team

/-- `GASNETE_COLL_MAX_NUM_SEGS`. -/
def maxNumSegs : Nat := 2048

/-- The algorithms that the default selections choose from. -/
inductive Alg
  | broadcastTreePutScratch | broadcastTreePutSeg | broadcastTreeEager | broadcastRVous
  | broadcastRVGet | broadcastTreeRVGet
  | scatterTreePutNoCopy | scatterTreePutSeg | scatterTreeEager | scatterEager | scatterRVGet
  | scatterRVous
  | gatherTreePutNoCopy | gatherTreePutSeg | gatherTreeEager | gatherRVPut | gatherRVous
  | gatherAllDissem | gatherAllGathBcast
  | exchangeDissem2 | exchangeRVPut | exchangeGath
deriving DecidableEq

/-- The collectives, with the root of those that have one. -/
inductive Op
  | broadcast (root : Nat) | scatter (root : Nat) | gather (root : Nat) | gatherAll | exchange
deriving DecidableEq

/-- `max_num_bytes` of the segmented broadcast. -/
def bcastMaxNumBytes (team : Team) : Nat := mulSize team.largestSegSize maxNumSegs

/-- `max_num_bytes` of the segmented scatter and of the segmented gather. -/
def segMaxNumBytes (team : Team) : Nat :=
  mulSize (team.largestSegSize / team.totalRanks) maxNumSegs

/-- `gasnete_coll_autotune_get_bcast_algorithm`. -/
def getBcastAlgorithm (team : Team) (nbytes : Nat) (flags : Flags) : Alg :=
  if nbytes ≤ min team.eagerMin team.lubRequestMedium then .broadcastTreeEager
  else if flags.dstInSegment then
    -- the scatter-allgather branch in front is switched off with `&& 0`
    if nbytes ≤ team.pipeSegSize then .broadcastTreePutScratch
    else if nbytes ≤ bcastMaxNumBytes team then .broadcastTreePutSeg
    else if flags.srcInSegment then .broadcastTreeRVGet
    else .broadcastRVous
  else if flags.srcInSegment then .broadcastRVGet
  else .broadcastRVous

/-- The eager limit of a scatter and of a gather. -/
def eagerLimit (team : Team) : Nat :=
  min team.eagerScale (team.lubRequestMedium / team.totalRanks)

/-- `gasnete_coll_autotune_get_scatter_algorithm`. -/
def getScatterAlgorithm (team : Team) (nbytes : Nat) (flags : Flags) : Alg :=
  let flags := team.segmentCheck flags
  if flags.dstInSegment && flags.srcInSegment then
    if nbytes ≤ eagerLimit team then .scatterTreeEager
    else if nbytes ≤ team.pipeSegSize then .scatterTreePutNoCopy
    else if nbytes ≤ segMaxNumBytes team then .scatterTreePutSeg
    else .scatterRVous
  else if nbytes ≤ eagerLimit team then .scatterEager
  else if flags.srcInSegment then .scatterRVGet
  else .scatterRVous

/-- `gasnete_coll_autotune_get_gather_algorithm`. -/
def getGatherAlgorithm (team : Team) (nbytes : Nat) (flags : Flags) : Alg :=
  if flags.dstInSegment && flags.srcInSegment then
    if nbytes ≤ eagerLimit team then .gatherTreeEager
    else if !flags.nonrootSubordinate then
      if nbytes ≤ team.pipeSegSize then .gatherTreePutNoCopy
      else if nbytes ≤ segMaxNumBytes team then .gatherTreePutSeg
      else .gatherRVous
    else if nbytes ≤ eagerLimit team then .gatherTreeEager
    else .gatherRVPut
  else if nbytes ≤ eagerLimit team then .gatherTreeEager
  else if flags.dstInSegment then .gatherRVPut
  else .gatherRVous

/-- `gasnete_coll_autotune_get_gather_all_algorithm`. -/
def getGatherAllAlgorithm (team : Team) (nbytes : Nat) : Alg :=
  if nbytes ≤ team.gatherAllDissemLimit ∧ mulSize team.totalRanks nbytes ≤ team.room then
    .gatherAllDissem
  else .gatherAllGathBcast

/-- `max_dissem_msg_size` of an exchange. -/
def maxDissemMsgSize (team : Team) (nbytes : Nat) : Nat :=
  mulSize nbytes (team.totalRanks / 2 + team.totalRanks % 2)

/-- The test that lets an exchange go through the scratch space. -/
def ExchangeFits (team : Team) (nbytes : Nat) : Prop :=
  nbytes ≤ team.exchangeDissemLimit ∧
    (mulSize nbytes team.totalRanks + mulSize (maxDissemMsgSize team nbytes) 2) % 2 ^ 64 ≤
      team.scratchSize ∧
    maxDissemMsgSize team nbytes ≤ team.lubRequestLong

instance (team : Team) (nbytes : Nat) : Decidable (ExchangeFits team nbytes) :=
  inferInstanceAs (Decidable (_ ∧ _))

/-- `gasnete_coll_autotune_get_exchange_algorithm`. -/
def getExchangeAlgorithm (team : Team) (nbytes : Nat) (flags : Flags) : Alg :=
  if ExchangeFits team nbytes then .exchangeDissem2
  else if flags.dstInSegment then .exchangeRVPut
  else .exchangeGath

/-- The choice that the `gasnete_coll_*_nb_default` functions make for a call. They hand the flags
that they checked to the implementation. -/
def select (team : Team) (op : Op) (nbytes : Nat) (flags : Flags) : Alg :=
  let flags := team.segmentCheck flags
  match op with
  | .broadcast _ => getBcastAlgorithm team nbytes flags
  | .scatter _ => getScatterAlgorithm team nbytes flags
  | .gather _ => getGatherAlgorithm team nbytes flags
  | .gatherAll => getGatherAllAlgorithm team nbytes
  | .exchange => getExchangeAlgorithm team nbytes flags

end Gasnet.Coll.Autotune

/-! What the algorithms need of a call, and when the default choice finds it. -/
namespace Gasnet.Coll.Autotune

/-- The segments of a segmented algorithm. -/
def numSegs (nbytes segSize : Nat) : Nat :=
  if nbytes % segSize = 0 then nbytes / segSize else nbytes / segSize + 1

/-- What one algorithm needs: flags, bytes of scratch space, the longest payloads that it sends,
bytes of a rank's eager buffer and the size of its segments. -/
structure Needs where
  srcInSegment : Bool := false
  dstInSegment : Bool := false
  notSubordinate : Bool := false
  scratch : Nat := 0
  long : Nat := 0
  medium : Nat := 0
  eager : Nat := 0
  segSize : Option Nat := none

/-- The needs that a call meets. -/
@[mk_iff]
structure Needs.Met (n : Needs) (team : Team) (nbytes : Nat) (flags : Flags) : Prop where
  srcInSegment : n.srcInSegment = true → flags.srcInSegment = true
  dstInSegment : n.dstInSegment = true → flags.dstInSegment = true
  notSubordinate : n.notSubordinate = true → flags.subordinate = false
  scratch : n.scratch ≤ team.scratchSize
  long : n.long ≤ team.lubRequestLong
  medium : n.medium ≤ team.lubRequestMedium
  eager : n.eager ≤ team.eagerBuffersz
  segSize : ∀ s ∈ n.segSize, 0 < s ∧ numSegs nbytes s ≤ maxNumSegs

/-- `gasnete_tm_binom_children` at the root. -/
def binomChildren (ranks : Nat) : Nat := if ranks = 1 then 0 else 1 + Nat.log 2 (ranks - 1)

/-- `sizeof(void*)`, when somebody sends an address. -/
def addressBytes (ranks : Nat) : Nat := if ranks = 1 then 0 else 8

/-- One `struct gasnete_tm_p2p_send_struct`, when there is a rank other than the root. -/
def recordBytes (ranks : Nat) : Nat := if ranks = 1 then 0 else 16

/-- The records at the root, indexed by rank up to the last one that is not the root. -/
def rootRecordBytes (ranks root : Nat) : Nat :=
  16 * if root + 1 = ranks then ranks - 1 else ranks

/-- The needs of an algorithm that sends the data of every rank through the scratch space. -/
def Needs.ofTree (ranks nbytes : Nat) : Needs where
  dstInSegment := true
  scratch := ranks * nbytes
  long := ranks * nbytes

/-- The needs of an algorithm that sends the data of every rank through the eager buffer. -/
def Needs.ofTreeEager (ranks nbytes : Nat) : Needs where
  medium := ranks * nbytes
  eager := ranks * nbytes

/-- What the source asserts of an algorithm, asks for when it starts it, and registers it with. -/
def needs (team : Team) (root nbytes : Nat) : Alg → Needs
  | .broadcastTreePutScratch => { dstInSegment := true, scratch := nbytes, long := nbytes }
  | .broadcastTreePutSeg =>
    { dstInSegment := true, scratch := min nbytes team.paramSegSize,
      long := min nbytes team.paramSegSize, segSize := some team.paramSegSize }
  | .broadcastTreeEager => { medium := nbytes, eager := nbytes }
  | .broadcastRVous => { eager := 16 * binomChildren team.totalRanks }
  | .broadcastRVGet => { srcInSegment := true, eager := addressBytes team.totalRanks }
  | .broadcastTreeRVGet => { srcInSegment := true, dstInSegment := true, eager := 8 }
  | .scatterTreePutNoCopy | .gatherTreePutNoCopy => .ofTree team.totalRanks nbytes
  -- the segments are of `pipe_seg_size`, not of the parameter that the assertions look at
  | .scatterTreePutSeg | .gatherTreePutSeg =>
    { Needs.ofTree team.totalRanks (min nbytes team.pipeSegSize) with
      segSize := some team.paramSegSize }
  | .scatterTreeEager | .gatherTreeEager => .ofTreeEager team.totalRanks nbytes
  | .scatterEager => { medium := nbytes, eager := nbytes }
  | .scatterRVGet => { srcInSegment := true, eager := addressBytes team.totalRanks }
  | .scatterRVous => { eager := rootRecordBytes team.totalRanks root }
  | .gatherRVPut => { dstInSegment := true, eager := addressBytes team.totalRanks }
  | .gatherRVous => { eager := recordBytes team.totalRanks }
  | .gatherAllDissem =>
    if team.totalRanks = 1 then {}
    else { scratch := team.totalRanks * nbytes, long := team.totalRanks * nbytes }
  -- the broadcast of the result goes through the eager buffer in pieces that fill it
  | .gatherAllGathBcast => { eager := 1 }
  | .exchangeDissem2 =>
    if team.totalRanks = 1 then {}
    else
      { scratch := nbytes * team.totalRanks + nbytes * team.maxDissemBlocks * 2
        long := nbytes * team.maxDissemBlocks }
  | .exchangeRVPut =>
    { dstInSegment := true, eager := team.totalRanks * addressBytes team.totalRanks }
  | .exchangeGath => { notSubordinate := true }

def Op.root : Op → Nat
  | .broadcast root | .scatter root | .gather root => root
  | .gatherAll | .exchange => 0

/-- The default choice for a call meets the needs of the algorithm that it returns. -/
def Admits (team : Team) (op : Op) (nbytes : Nat) (flags : Flags) : Prop :=
  (needs team op.root nbytes (select team op nbytes flags)).Met team nbytes
    (team.segmentCheck flags)

end Gasnet.Coll.Autotune
