import DefcoinCore.Lib.Containers
import DefcoinCore.Chain.BlockIndex

/-!
# The block-download table

The part of `net_processing.cpp` that keeps track of blocks in flight: `CNodeState` with the queue
of each peer, the global `mapBlocksInFlight` that finds the queue entry of a block, and
`nPeersWithValidatedDownloads`. A `std::list` iterator is the identity of its list node; a node
gets a new identity when it is inserted, and dereferencing the identity of a node that is gone is
an error, not a default value. Functions that assert or dereference return in `Except Abort`.

Every function runs under `cs_main`. A step reads the clock once, in microseconds.
-/

namespace DefcoinCore.NetProcessing

/-- The identifier of a peer. -/
abbrev NodeId := Int

/-- The identity of a `std::list` node, which is what an iterator into the list holds. -/
abbrev Iter := Nat

/-! ## Constants -/

/-- `MAX_BLOCKS_IN_TRANSIT_PER_PEER`. -/
def maxBlocksInTransitPerPeer : Int := 16

/-- `MAX_FAST_SYNC_EXTRA_BLOCKS_IN_TRANSIT_PER_PEER`. -/
def maxFastSyncExtraBlocksInTransitPerPeer : Int := 4

/-- `FAST_SYNC_UDP_CLAIM_WINDOW_US`. -/
def fastSyncUdpClaimWindowUs : Nat := 4 * 1000000

/-- `FAST_SYNC_UDP_TRANSFER_TIMEOUT_US`. -/
def fastSyncUdpTransferTimeoutUs : Nat := 30 * 1000000

/-- `FAST_SYNC_UDP_UNCLAIMED_BACKOFF_US`. -/
def fastSyncUdpUnclaimedBackoffUs : Nat := 30 * 1000000

/-- `BLOCK_DOWNLOAD_WINDOW`. -/
def blockDownloadWindow : Nat := 1024

/-! ## State -/

/-- Why a step stops the program: the dereferences and assertions that the code relies on. -/
inductive Abort where
  /-- `State(nodeid)` is null where the caller vouches for the peer. -/
  | noSuchPeer
  /-- `assert(state != nullptr)` of `MarkBlockAsReceived`, for the owner of an entry. -/
  | ownerGone
  /-- An iterator of `mapBlocksInFlight` whose list node was erased. -/
  | danglingIterator
  /-- One of the assertions of `FinalizeNode` about the counts and the map of the table. -/
  | finalizeAssert
  /-- A block pointer is null: an empty active chain, or chains without a common ancestor. -/
  | nullBlock
deriving DecidableEq

/-- A block in flight from a peer. Of `partialBlock` only its presence matters here. -/
structure QueuedBlock where
  hash : Uint256
  pindex : Option Uint256
  fValidatedHeaders : Bool
  /-- Whether a `PartiallyDownloadedBlock` is attached, for compact block downloads. -/
  partialBlock : Bool
deriving DecidableEq

/-- `CNodeState`, the fields that block download reads or writes. -/
structure CNodeState where
  pindexBestKnownBlock : Option Uint256 := none
  hashLastUnknownBlock : Uint256 := 0
  /-- The last full block we both have. -/
  pindexLastCommonBlock : Option Uint256 := none
  pindexBestHeaderSent : Option Uint256 := none
  nStartingHeight : Int := -1
  /-- Core-selected block temporarily reserved for the UDP Fast Sync transport. -/
  hashFastSyncPendingBlock : Uint256 := 0
  nFastSyncPendingBlockHeight : Int := -1
  /-- Microsecond deadline for claiming or delivering `hashFastSyncPendingBlock`. -/
  nFastSyncPendingUntil : Nat := 0
  /-- Whether the UDP helper has claimed the pending reservation. -/
  fFastSyncPendingClaimed : Bool := false
  /-- Whether this peer's UDP Fast Sync return path was verified. -/
  fFastSyncUdpTransportVerified : Bool := false
  /-- Microsecond backoff before another UDP transport window is offered. -/
  nFastSyncDeferBackoffUntil : Nat := 0
  /-- Since when we are stalling block download progress, or 0. -/
  nStallingSince : Nat := 0
  /-- The queue of blocks in flight, each list node with its identity. -/
  vBlocksInFlight : List (Iter × QueuedBlock) := []
  /-- When the first entry of the queue started downloading. -/
  nDownloadingSince : Nat := 0
  nBlocksInFlight : Int := 0
  nBlocksInFlightValidHeaders : Int := 0
  fHaveWitness : Bool := false
  fHaveMWEB : Bool := false
  fWantsCmpctWitness : Bool := false
  fWantsCmpctMWEB : Bool := false
  /-- Whether this peer sends the compact block version that we want. -/
  fSupportsDesiredCmpctVersion : Bool := false
deriving DecidableEq

/-- The tables of block download. -/
structure NetState where
  mapNodeState : StdMap NodeId CNodeState := ∅
  /-- The owner and the queue entry of every block in flight. -/
  mapBlocksInFlight : StdMap Uint256 (NodeId × Iter) := ∅
  nPeersWithValidatedDownloads : Int := 0
  /-- The identity that the next list node gets. -/
  nextIter : Iter := 0

/-- What a step reads of the rest of the node: the block index, the active chain, the clock and
the settings. -/
structure Ctx where
  tree : BlockTree
  /-- Whether `LookupBlockIndex` finds an entry for a hash. -/
  known : Uint256 → Bool
  chainActive : CChain
  pindexBestHeader : Option Uint256
  nMinimumChainWork : Nat
  segwitHeight : Int
  /-- Whether the MWEB deployment is active after a block, as `IsMWEBEnabled` computes it. -/
  isMWEBEnabled : Option Uint256 → Bool
  disableCoreTcpBlockRequests : Bool
  /-- The setting `-defcoinfastsync`. -/
  argFastSync : Bool
  isInitialBlockDownload : Bool
  /-- `CanDirectFetch`: the tip's time is recent. -/
  canDirectFetch : Bool
  /-- The clock, in microseconds. -/
  now : Nat

namespace Ctx

variable (ctx : Ctx)

/-- `LookupBlockIndex`. -/
def lookupBlockIndex (hash : Uint256) : Option Uint256 := if ctx.known hash then some hash else none

/-- `IsWitnessEnabled(pindexPrev)`. -/
def isWitnessEnabled (pindexPrev : Option Uint256) : Bool :=
  let height : Int := match pindexPrev with
    | none => 0
    | some p => (ctx.tree.node p).nHeight + 1
  ctx.segwitHeight ≤ height

/-- The work of `::ChainActive().Tip()`; null when the chain is empty. -/
def tipChainWork : Option Nat := ctx.chainActive.tip.map fun b => (ctx.tree.node b).nChainWork

end Ctx

/-! ## Queues -/

namespace CNodeState

variable (state : CNodeState)

/-- The queue entry behind an iterator. -/
def entry? (it : Iter) : Option QueuedBlock := state.vBlocksInFlight.lookup it

/-- `ClearFastSyncPendingBlock`. -/
def clearFastSyncPendingBlock : CNodeState :=
  { state with
    hashFastSyncPendingBlock := 0
    nFastSyncPendingBlockHeight := -1
    nFastSyncPendingUntil := 0
    fFastSyncPendingClaimed := false }

/-- `state->vBlocksInFlight.begin() == it`. -/
def isFirst (it : Iter) : Bool :=
  state.vBlocksInFlight.head?.map Prod.fst = some it

/-- The peer's part of `MarkBlockAsReceived`, for its queue entry `q` behind `it`. -/
def dropEntry (now : Nat) (hash : Uint256) (it : Iter) (q : QueuedBlock) : CNodeState :=
  let state := { state with
    nBlocksInFlightValidHeaders := state.nBlocksInFlightValidHeaders - q.fValidatedHeaders.toNat }
  -- The first block on the queue was received: the next one starts downloading now.
  let state := if state.isFirst it then
    { state with nDownloadingSince := max state.nDownloadingSince now } else state
  let state := if state.hashFastSyncPendingBlock = hash then state.clearFastSyncPendingBlock
    else state
  { state with
    vBlocksInFlight := StdList.erase state.vBlocksInFlight it
    nBlocksInFlight := state.nBlocksInFlight - 1
    nStallingSince := 0 }

/-- The peer's part of `MarkBlockAsInFlight`: the new queue entry `q` behind `it`. -/
def addEntry (now : Nat) (it : Iter) (q : QueuedBlock) : CNodeState :=
  { state with
    vBlocksInFlight := state.vBlocksInFlight ++ [(it, q)]
    nBlocksInFlight := state.nBlocksInFlight + 1
    nBlocksInFlightValidHeaders := state.nBlocksInFlightValidHeaders + q.fValidatedHeaders.toNat
    -- We are starting a block download (batch) from this peer.
    nDownloadingSince := if state.nBlocksInFlight + 1 = 1 then now else state.nDownloadingSince }

end CNodeState

/-! ## Marking blocks -/

namespace NetState

variable (s : NetState) (nodeid : NodeId)

/-- `State(nodeid)`. -/
def state? : Option CNodeState := s.mapNodeState[nodeid]?

/-- `State(nodeid)` where the caller vouches for the peer. -/
def state (s : NetState) (nodeid : NodeId) : Except Abort CNodeState :=
  match s.state? nodeid with
  | none => .error .noSuchPeer
  | some state => .ok state

/-- Writes through the pointer that `State(nodeid)` returned. -/
def setState (state : CNodeState) : NetState :=
  { s with mapNodeState := s.mapNodeState.insert nodeid state }

/-- The removal in `MarkBlockAsReceived` of the entry `q` of `hash`, owned by `nodeid`. -/
def dropInFlight (now : Nat) (hash : Uint256) (nodeid : NodeId) (it : Iter)
    (state : CNodeState) (q : QueuedBlock) : NetState :=
  let state' := state.dropEntry now hash it q
  { s with
    mapNodeState := s.mapNodeState.insert nodeid state'
    mapBlocksInFlight := s.mapBlocksInFlight.erase hash
    -- The last validated block on the queue was received.
    nPeersWithValidatedDownloads :=
      if state'.nBlocksInFlightValidHeaders = 0 ∧ q.fValidatedHeaders then
        s.nPeersWithValidatedDownloads - 1 else s.nPeersWithValidatedDownloads }

/-- The insertion in `MarkBlockAsInFlight` of a new entry `q` for the peer `nodeid`. -/
def addInFlight (now : Nat) (nodeid : NodeId) (state : CNodeState) (q : QueuedBlock) : NetState :=
  let state' := state.addEntry now s.nextIter q
  { s with
    mapNodeState := s.mapNodeState.insert nodeid state'
    mapBlocksInFlight := s.mapBlocksInFlight.insert q.hash (nodeid, s.nextIter)
    nPeersWithValidatedDownloads :=
      if state'.nBlocksInFlightValidHeaders = 1 ∧ q.pindex.isSome then
        s.nPeersWithValidatedDownloads + 1 else s.nPeersWithValidatedDownloads
    nextIter := s.nextIter + 1 }

/-- `MarkBlockAsReceived(hash, from_peer)`: whether we requested this block. -/
def markBlockAsReceived (now : Nat) (hash : Uint256) (fromPeer : Option NodeId) :
    Except Abort (Bool × NetState) :=
  match s.mapBlocksInFlight[hash]? with
  | none => .ok (false, s)
  | some (nodeid, it) =>
    -- The block was requested by another peer.
    if fromPeer.isSome ∧ fromPeer ≠ some nodeid then .ok (true, s)
    else
      match s.state? nodeid with
      | none => .error .ownerGone
      | some state =>
        match state.entry? it with
        | none => .error .danglingIterator
        | some q => .ok (true, s.dropInFlight now hash nodeid it state q)

/-- `ExpireFastSyncPendingBlock(nodeid, now_us)`: whether a reservation was released. -/
def expireFastSyncPendingBlock (now : Nat) : Except Abort (Bool × NetState) := do
  let state ← s.state nodeid
  if state.hashFastSyncPendingBlock = 0 ∨ state.nFastSyncPendingUntil = 0 ∨
      now ≤ state.nFastSyncPendingUntil then
    return (false, s)
  let (_, s) ← s.markBlockAsReceived now state.hashFastSyncPendingBlock (some nodeid)
  let state ← s.state nodeid
  return (true, s.setState nodeid
    { state with nFastSyncDeferBackoffUntil := now + fastSyncUdpUnclaimedBackoffUs })

/-- `MarkBlockAsInFlight(nodeid, hash, pindex, pit)`: false when the block was already in flight
from this peer. With `pit` the entry gets an empty `PartiallyDownloadedBlock`. -/
def markBlockAsInFlight (now : Nat) (nodeid : NodeId) (hash : Uint256)
    (pindex : Option Uint256) (pit : Bool) : Except Abort (Bool × NetState) := do
  let _ ← s.state nodeid
  if (s.mapBlocksInFlight[hash]?).map Prod.fst = some nodeid then
    return (false, s)
  -- Make sure it's not listed somewhere already.
  let (_, s) ← s.markBlockAsReceived now hash none
  let state ← s.state nodeid
  return (true, s.addInFlight now nodeid state
    { hash, pindex, fValidatedHeaders := pindex.isSome, partialBlock := pit })

/-! ## Peers -/

/-- `InitializeNode`: a new peer starts with an empty state. -/
def initializeNode : NetState :=
  { s with mapNodeState := s.mapNodeState.insertIfNew nodeid {} }

/-- The updates of `FinalizeNode`: the blocks of the peer's queue and its state go. -/
def finalized (state : CNodeState) : NetState :=
  { s with
    mapBlocksInFlight :=
      state.vBlocksInFlight.foldl (fun m e => m.erase e.2.hash) s.mapBlocksInFlight
    nPeersWithValidatedDownloads :=
      s.nPeersWithValidatedDownloads - (decide (state.nBlocksInFlightValidHeaders ≠ 0)).toNat
    mapNodeState := s.mapNodeState.erase nodeid }

/-- `FinalizeNode` on the block-download table, with the assertions about the table: the peer has a
state, the count of downloading peers is not negative, and after the last peer nothing is in flight
and nobody is counted. What it does elsewhere is not modelled, with the assertions there: the peer
map, the orphans, the transaction requests, and the counts of preferred, protected and
wtxid-relaying peers. -/
def finalizeNode : Except Abort NetState := do
  let state ← s.state nodeid
  let s' := s.finalized nodeid state
  if s'.nPeersWithValidatedDownloads < 0 then throw .finalizeAssert
  if s'.mapNodeState.isEmpty ∧
      ¬ (s'.mapBlocksInFlight.isEmpty ∧ s'.nPeersWithValidatedDownloads = 0) then
    throw .finalizeAssert
  return s'

end NetState

end DefcoinCore.NetProcessing
