import DefcoinCore.NetProcessing.Download

/-!
# Reserving blocks for UDP Fast Sync

`ReserveFastSyncBlockInFlight`, `ReserveNextFastSyncBlockInFlight`, `ReleaseFastSyncBlockInFlight`
and `SetFastSyncPeerTransportVerified`. A reservation puts a block in flight from a peer without
sending anything; the helper process then fetches it over UDP. The arguments `hash_out` and `reason`
that the C++ functions take by reference are parameters and part of the result.

What the two reserve functions share (the last gates and the marking) is `reserveBlock`. The choice
of the next block is `nextCandidate`: it asks `FindNextBlocksToDownload`, or walks our own header
chain when the peer's best block is unknown or has too little work.
-/

namespace DefcoinCore.NetProcessing

/-- The outputs of `ReserveFastSyncBlockInFlight`. -/
structure Reservation where
  /-- The returned value. -/
  reserved : Bool
  hashOut : Uint256
  reason : String
deriving DecidableEq

/-- The outputs of `ReserveNextFastSyncBlockInFlight`. -/
structure NextReservation extends Reservation where
  heightOut : Int
deriving DecidableEq

/-- The number of blocks in flight from one peer at which Fast Sync reserves no more. -/
def fastSyncInFlightLimit : Int :=
  maxBlocksInTransitPerPeer + maxFastSyncExtraBlocksInTransitPerPeer

/-- `FastSyncHeaderFallbackIndex`: the block of the best header chain at `height`, or the reason why
there is none. -/
def fastSyncHeaderFallbackIndex (ctx : Ctx) (state : CNodeState) (height : Int) :
    Except String Uint256 :=
  if height ≤ 0 then .error "invalid-height"
  else if state.nStartingHeight < height then .error "peer-best-block-unknown"
  else match ctx.pindexBestHeader with
    | none => .error "local-header-unavailable"
    | some bestHeader =>
      if (ctx.tree.node bestHeader).nHeight < height then .error "local-header-unavailable"
      else match ctx.tree.getAncestor bestHeader height with
        | none => .error "height-not-in-local-header-chain"
        | some pindex =>
          if ¬ (ctx.tree.node pindex).isValid blockValidTree then .error "block-header-not-valid"
          else .ok pindex

/-- The block at `height` of the peer's chain, or of the best header chain when the peer's best
block is unknown. -/
def fastSyncIndexAt (ctx : Ctx) (state : CNodeState) (height : Int) (reason : String) :
    Except String Uint256 :=
  match state.pindexBestKnownBlock with
  | none => fastSyncHeaderFallbackIndex ctx state height
  | some best =>
    if height > (ctx.tree.node best).nHeight then .error "peer-does-not-have-height"
    else match ctx.tree.getAncestor best height with
      | none => .error (if reason = "" then "height-not-in-peer-chain" else reason)
      | some pindex =>
        if ¬ state.peerHasHeader ctx pindex then .error "peer-header-not-linked" else .ok pindex

/-- The block that `ReserveFastSyncBlockInFlight` is to reserve at `height`, after the gates on its
header and on what the peer can serve. -/
def fastSyncBlockAt (ctx : Ctx) (state : CNodeState) (height : Int) (reason : String) :
    Except String Uint256 :=
  match fastSyncIndexAt ctx state height reason with
  | .error reason => .error reason
  | .ok pindex =>
    let b := ctx.tree.node pindex
    if ¬ b.isValid blockValidTree then .error "block-header-not-valid"
    else if ¬ state.fHaveWitness ∧ ctx.isWitnessEnabled b.pprev then .error "peer-lacks-witness"
    else if ¬ state.fHaveMWEB ∧ ctx.isMWEBEnabled b.pprev then .error "peer-lacks-mweb"
    else .ok pindex

namespace NetState

variable (s : NetState) (ctx : Ctx)

/-- A block that is not on disk, not in the active chain and not in flight. -/
def isMissing (pindex : Uint256) : Bool :=
  ¬ ((ctx.tree.node pindex).haveData ∨ ctx.chainActive.contains ctx.tree pindex ∨
    (s.mapBlocksInFlight[pindex]?).isSome)

variable (nodeid : NodeId)

/-- The last gates of both functions, and the marking: whether the block was reserved, and the
reason. -/
def reserveBlock (pindex : Uint256) : Except Abort ((Bool × String) × NetState) := do
  if (ctx.tree.node pindex).haveData ∨ ctx.chainActive.contains ctx.tree pindex then
    return ((false, "block-already-have-data"), s)
  if (s.mapBlocksInFlight[pindex]?).isSome then
    return ((false, "block-already-in-flight"), s)
  let (marked, s) ← s.markBlockAsInFlight ctx.now nodeid pindex (some pindex) false
  if ¬ marked then return ((false, "block-already-in-flight-from-peer"), s)
  return ((true, "reserved"), s)

/-- `ReserveFastSyncBlockInFlight`. -/
def reserveFastSyncBlockInFlight (height : Int)
    (hashOut : Uint256) (reason : String) : Except Abort (Reservation × NetState) :=
  match s.state? nodeid with
  | none => .ok (⟨false, hashOut, "peer-not-connected"⟩, s)
  | some state =>
    if height ≤ 0 then .ok (⟨false, hashOut, "invalid-height"⟩, s)
    else if ¬ state.fFastSyncUdpTransportVerified then
      .ok (⟨false, hashOut, "fast-sync-udp-transport-unverified"⟩, s)
    else if state.nBlocksInFlight ≥ fastSyncInFlightLimit then
      .ok (⟨false, hashOut, "peer-in-flight-full"⟩, s)
    else
      let state := state.processBlockAvailability ctx
      let s := s.setState nodeid state
      match fastSyncBlockAt ctx state height reason with
      | .error reason => .ok (⟨false, hashOut, reason⟩, s)
      | .ok pindex => do
        let ((reserved, reason), s) ← s.reserveBlock ctx nodeid pindex
        return (⟨reserved, pindex, reason⟩, s)

/-- The loop of the starting-height fallback, over `n` heights from `height` on: the first missing
block of the header chain, and the reason. At the end of the loop `fallback_reason` is empty. -/
def fallbackLoop (s : NetState) (ctx : Ctx) (state : CNodeState) (reason : String) :
    Nat → Int → Option Uint256 × String
  | 0, _ => (none, if reason = "" then "no-downloadable-block-in-window" else reason)
  | n + 1, height =>
    match fastSyncHeaderFallbackIndex ctx state height with
    | .error fallbackReason => (none, if reason = "" then fallbackReason else reason)
    | .ok candidate =>
      if s.isMissing ctx candidate then (some candidate, reason)
      else fallbackLoop s ctx state reason n (height + 1)

/-- The first height above the active chain. -/
def nextHeight : Int := ctx.chainActive.height + 1

/-- The number of blocks that Fast Sync looks ahead. -/
def fastSyncWindow : Nat := (fastSyncInFlightLimit + 32).toNat

/-- The last height that the fallback looks at. -/
def fallbackMaxHeight (state : CNodeState) : Int :=
  let headerTip : Int := match ctx.pindexBestHeader with
    | none => -1
    | some bestHeader => (ctx.tree.node bestHeader).nHeight
  min (min state.nStartingHeight headerTip) (nextHeight ctx + fastSyncWindow)

/-- The starting-height fallback. -/
def fallbackCandidate (state : CNodeState) (reason : String) : Option Uint256 × String :=
  s.fallbackLoop ctx state reason (fallbackMaxHeight ctx state - nextHeight ctx + 1).toNat
    (nextHeight ctx)

/-- The block that `ReserveNextFastSyncBlockInFlight` chooses for the peer, and the reason. -/
def nextCandidate (state : CNodeState)
    (reason : String) : Except Abort ((Option Uint256 × String) × NetState) := do
  match state.pindexBestKnownBlock with
  | none => return (s.fallbackCandidate ctx state reason, s)
  | some best =>
    let some tipWork := ctx.tipChainWork | throw .nullBlock
    if (ctx.tree.node best).nChainWork < tipWork then
      return ((none, "peer-chain-not-ahead"), s)
    -- During a clean bootstrap the peer's best-known block may lag behind the local best header.
    if (ctx.tree.node best).nChainWork < ctx.nMinimumChainWork then
      return (s.fallbackCandidate ctx state reason, s)
    let (blocksToDownload, staller, s) ← s.findNextBlocksToDownload ctx nodeid fastSyncWindow
    match blocksToDownload.find? (s.isMissing ctx) with
    | some candidate => return ((some candidate, reason), s)
    | none =>
      return ((none, if staller ≠ -1 then "waiting-for-block-window"
        else "no-downloadable-block-in-window"), s)

/-- `ReserveNextFastSyncBlockInFlight`: claim the block that `SendMessages` offered, or reserve the
next one. -/
def reserveNextFastSyncBlockInFlight (hashOut : Uint256) (reason : String) :
    Except Abort (NextReservation × NetState) := do
  let fail (hashOut : Uint256) (heightOut : Int) (reason : String) : NextReservation :=
    { reserved := false, hashOut, reason, heightOut }
  match s.state? nodeid with
  | none => return (fail hashOut (-1) "peer-not-connected", s)
  | some state =>
    if ¬ state.fFastSyncUdpTransportVerified then
      return (fail hashOut (-1) "fast-sync-udp-transport-unverified", s)
    let (_, s) ← s.expireFastSyncPendingBlock nodeid ctx.now
    let state ← s.state nodeid
    if state.hashFastSyncPendingBlock ≠ 0 then
      let hashOut := state.hashFastSyncPendingBlock
      let heightOut := state.nFastSyncPendingBlockHeight
      if state.fFastSyncPendingClaimed then
        return (fail hashOut heightOut "fast-sync-reservation-already-claimed", s)
      return ({ reserved := true, hashOut, reason := "reserved", heightOut },
        s.setState nodeid { state with
          fFastSyncPendingClaimed := true
          nFastSyncPendingUntil := ctx.now + fastSyncUdpTransferTimeoutUs })
    if state.nBlocksInFlight ≥ fastSyncInFlightLimit then
      return (fail hashOut (-1) "peer-in-flight-full", s)
    let state := state.processBlockAvailability ctx
    let s := s.setState nodeid state
    let ((candidate, reason), s) ← s.nextCandidate ctx nodeid state reason
    match candidate with
    | none => return (fail hashOut (-1) reason, s)
    | some pindex =>
      if ¬ (ctx.tree.node pindex).isValid blockValidTree then
        return (fail hashOut (-1) "block-header-not-valid", s)
      let ((reserved, reason), s) ← s.reserveBlock ctx nodeid pindex
      return ({ reserved, hashOut := pindex, reason, heightOut := (ctx.tree.node pindex).nHeight },
        s)

/-- `ReleaseFastSyncBlockInFlight`. -/
def releaseFastSyncBlockInFlight (now : Nat) (nodeid : NodeId) (hash : Uint256) :
    Except Abort (Bool × NetState) :=
  s.markBlockAsReceived now hash (some nodeid)

/-- `SetFastSyncPeerTransportVerified`: whether the peer is connected, and the reason. -/
def setFastSyncPeerTransportVerified (now : Nat) (nodeid : NodeId)
    (verified : Bool) : Except Abort ((Bool × String) × NetState) :=
  match s.state? nodeid with
  | none => .ok ((false, "peer-not-connected"), s)
  | some state => do
    let s := s.setState nodeid { state with fFastSyncUdpTransportVerified := verified }
    if verified then return ((true, "transport-verified"), s)
    let s ← if state.hashFastSyncPendingBlock ≠ 0 then do
        let (_, s) ← s.markBlockAsReceived now state.hashFastSyncPendingBlock (some nodeid)
        pure s
      else pure s
    let state ← s.state nodeid
    return ((true, "transport-unverified"), s.setState nodeid
      { state with nFastSyncDeferBackoffUntil := now + fastSyncUdpUnclaimedBackoffUs })

end NetState

end DefcoinCore.NetProcessing
