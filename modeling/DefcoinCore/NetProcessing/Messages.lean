import DefcoinCore.NetProcessing.Reservations

/-!
# The handlers that request blocks

The four places of `net_processing.cpp` that send a `GETDATA` or `GETBLOCKTXN` for a block: the
block part of `SendMessages`, the direct fetch of `ProcessHeadersMessage`, and the handlers of
`CMPCTBLOCK` and `BLOCKTXN`. Each is modelled from the point where it takes `cs_main` to the point
where it releases it; its messages are what it hands to `PushMessage` before that. What a handler
learns from outside the table (the outcome of decoding a compact block, the flags of the connection)
is a parameter. Work that a handler leaves for after the lock (processing a block, a plain headers
message) is part of its result, and is another step.
-/

namespace DefcoinCore.NetProcessing

/-- The requests for a block. -/
inductive BlockRequest where
  /-- `GETDATA` with `MSG_BLOCK`. -/
  | getData
  /-- `GETDATA` with `MSG_CMPCT_BLOCK`. -/
  | getDataCmpct
  | getBlockTxn
deriving DecidableEq

/-- A request for the block `hash` that is sent to `peer`. -/
structure Sent where
  peer : NodeId
  kind : BlockRequest
  hash : Uint256
deriving DecidableEq

/-- `ReadStatus`: the outcome of `InitData` and `FillBlock`. -/
inductive ReadStatus where
  | ok
  | invalid
  | failed
  | checkBlockFailed
deriving DecidableEq

/-! ## `SendMessages` -/

/-- The flags of the connection that the block part of `SendMessages` reads. -/
structure SendFlags where
  /-- `nServices & NODE_DEFCOIN_FASTSYNC`. -/
  fastSyncService : Bool
  fClient : Bool
  fFetch : Bool
  limitedNode : Bool

namespace CNodeState

variable (state : CNodeState)

/-- The block `pindex` is offered to the UDP helper until the claim window closes. -/
def offerFastSync (ctx : Ctx) (pindex : Uint256) : CNodeState :=
  { state with
    hashFastSyncPendingBlock := pindex
    nFastSyncPendingBlockHeight := (ctx.tree.node pindex).nHeight
    nFastSyncPendingUntil := ctx.now + fastSyncUdpClaimWindowUs
    fFastSyncPendingClaimed := false }

/-- Whether a UDP window may be offered to this peer at all. -/
def canOfferBase (ctx : Ctx) (flags : SendFlags) : Bool :=
  ctx.argFastSync && flags.fastSyncService && state.fFastSyncUdpTransportVerified

/-- Whether a UDP window is offered now: no backoff, and no other offer pending. -/
def canOffer (ctx : Ctx) (flags : SendFlags) : Bool :=
  state.canOfferBase ctx flags && state.nFastSyncDeferBackoffUntil ≤ ctx.now &&
    state.hashFastSyncPendingBlock = 0

/-- Whether blocks are requested from this peer at all. -/
def wantsBlocks (ctx : Ctx) (flags : SendFlags) : Bool :=
  ¬ flags.fClient ∧ (¬ ctx.disableCoreTcpBlockRequests ∨ state.canOfferBase ctx flags) ∧
    ((flags.fFetch ∧ ¬ flags.limitedNode) ∨ ¬ ctx.isInitialBlockDownload) ∧
    state.nBlocksInFlight < maxBlocksInTransitPerPeer

end CNodeState

namespace NetState

/-- The loop over `vToDownload`: the first block is offered to UDP if a window can be offered, the
others are requested. Returns the offered block and `vGetData`. -/
def sendLoop (ctx : Ctx) (nodeid : NodeId) (canOffer : Bool) :
    List Uint256 → NetState → Option Uint256 → List Uint256 →
      Except Abort ((Option Uint256 × List Uint256) × NetState)
  | [], s, offered, vGetData => .ok ((offered, vGetData), s)
  | pindex :: rest, s, offered, vGetData => do
    let (marked, s) ← if canOffer ∧ offered = none then
        s.markBlockAsInFlight ctx.now nodeid pindex (some pindex) false
      else .ok (false, s)
    if marked then
      let state ← s.state nodeid
      sendLoop ctx nodeid canOffer rest (s.setState nodeid (state.offerFastSync ctx pindex))
        (some pindex) vGetData
    else if ctx.disableCoreTcpBlockRequests then .ok ((offered, vGetData), s)
    else
      let (_, s) ← s.markBlockAsInFlight ctx.now nodeid pindex (some pindex) false
      sendLoop ctx nodeid canOffer rest s offered (vGetData ++ [pindex])

variable (s : NetState)

variable (ctx : Ctx)

/-- The mark of a peer that stalls the download window. -/
def markStaller (nodeid staller : NodeId) : Except Abort NetState := do
  let state ← s.state nodeid
  if state.nBlocksInFlight = 0 ∧ staller ≠ -1 then
    let stalling ← s.state staller
    if stalling.nStallingSince = 0 then
      return s.setState staller { stalling with nStallingSince := ctx.now }
    return s
  return s

variable (nodeid : NodeId)

/-- The block part of `SendMessages`: the block offered to UDP, and the requests. -/
def sendMessagesBlocks (flags : SendFlags) :
    Except Abort ((Option Uint256 × List Sent) × NetState) := do
  let (_, s) ← s.expireFastSyncPendingBlock nodeid ctx.now
  let state ← s.state nodeid
  if ¬ state.wantsBlocks ctx flags then return ((none, []), s)
  let (vToDownload, staller, s) ← s.findNextBlocksToDownload ctx nodeid
    (maxBlocksInTransitPerPeer - state.nBlocksInFlight).toNat
  let state ← s.state nodeid
  let canOffer := state.canOffer ctx flags
  let vToDownload :=
    if ctx.disableCoreTcpBlockRequests ∧ ¬ canOffer then [] else vToDownload
  let ((offered, vGetData), s) ← sendLoop ctx nodeid canOffer vToDownload s none []
  let s ← s.markStaller ctx nodeid staller
  return ((offered, vGetData.map fun hash => ⟨nodeid, .getData, hash⟩), s)

/-! ## Direct fetch of headers -/

/-- The walk back from `pindexLast` that collects the blocks we would need; the fuel is the number
of blocks down to the genesis block. -/
def directFetchWalk (s : NetState) (ctx : Ctx) (state : CNodeState) :
    Nat → Option Uint256 → List Uint256 → List Uint256 × Option Uint256
  | fuel + 1, some walk, vToFetch =>
    if ¬ ctx.chainActive.contains ctx.tree walk ∧
        (vToFetch.length : Int) ≤ maxBlocksInTransitPerPeer then
      let b := ctx.tree.node walk
      directFetchWalk s ctx state fuel b.pprev
        (if ¬ b.haveData ∧ s.mapBlocksInFlight[walk]? = none ∧
            (¬ ctx.isWitnessEnabled b.pprev ∨ state.fHaveWitness) ∧
            (¬ ctx.isMWEBEnabled b.pprev ∨ state.fHaveMWEB) then vToFetch ++ [walk] else vToFetch)
    else (vToFetch, some walk)
  | _, walk, vToFetch => (vToFetch, walk)

/-- Request the blocks in this order while the peer has room. -/
def directFetchLoop (ctx : Ctx) (nodeid : NodeId) :
    List Uint256 → NetState → List Uint256 → Except Abort (List Uint256 × NetState)
  | [], s, vGetData => .ok (vGetData, s)
  | pindex :: rest, s, vGetData => do
    let state ← s.state nodeid
    if state.nBlocksInFlight ≥ maxBlocksInTransitPerPeer then return (vGetData, s)
    let (_, s) ← s.markBlockAsInFlight ctx.now nodeid pindex (some pindex) false
    directFetchLoop ctx nodeid rest s (vGetData ++ [pindex])

/-- Whether a single block is requested as a compact block. -/
def directFetchCompact (pindexLast : Uint256)
    (vGetData : List Uint256) : Except Abort Bool := do
  let state ← s.state nodeid
  if state.fSupportsDesiredCmpctVersion ∧ vGetData.length = 1 ∧ s.mapBlocksInFlight.size = 1 then
    match (ctx.tree.node pindexLast).pprev with
    | none => throw .nullBlock
    | some prev => return (ctx.tree.node prev).isValid blockValidChain
  return false

/-- The end of `ProcessHeadersMessage`, after the headers up to `pindexLast` were accepted. -/
def processHeaders (pindexLast : Uint256) : Except Abort (List Sent × NetState) := do
  let state ← s.state nodeid
  let state := state.updateBlockAvailability ctx pindexLast
  let s := s.setState nodeid state
  let some tipWork := ctx.tipChainWork | throw .nullBlock
  let last := ctx.tree.node pindexLast
  if ¬ (ctx.canDirectFetch ∧ ¬ ctx.disableCoreTcpBlockRequests ∧ last.isValid blockValidTree ∧
      tipWork ≤ last.nChainWork) then
    return ([], s)
  let (vToFetch, walk) := s.directFetchWalk ctx state (last.nHeight + 1) (some pindexLast) []
  let some walk := walk | throw .nullBlock
  -- A large reorg: bail out and rely on parallel download instead.
  if ¬ ctx.chainActive.contains ctx.tree walk then return ([], s)
  let (vGetData, s) ← directFetchLoop ctx nodeid vToFetch.reverse s []
  let compact ← s.directFetchCompact ctx nodeid pindexLast vGetData
  return (vGetData.map fun hash =>
    ⟨nodeid, if compact then .getDataCmpct else .getData, hash⟩, s)

/-! ## Compact blocks -/

/-- What the handler of `CMPCTBLOCK` goes on with after the lock. -/
inductive CmpctNext where
  | done
  /-- All transactions are there: process as a `BLOCKTXN`. -/
  | blockTxn
  /-- Treat as a plain headers message. -/
  | headers
  /-- Try to reconstruct the block without a place in the queue. -/
  | optimistic
deriving DecidableEq

/-- `partialBlock.reset(new PartiallyDownloadedBlock(..))` on a queue entry. -/
def attachPartial (state : CNodeState) (it : Iter) : NetState :=
  s.setState nodeid { state with
    vBlocksInFlight := state.vBlocksInFlight.map fun e =>
      if e.1 = it then (e.1, { e.2 with partialBlock := true }) else e }

/-- The queue entry behind the iterator that `mapBlocksInFlight` holds for an owner. -/
def derefEntry (owner : NodeId) (it : Iter) : Except Abort (CNodeState × QueuedBlock) :=
  match s.state? owner with
  | none => .error .ownerGone
  | some state =>
    match state.entry? it with
    | none => .error .danglingIterator
    | some q => .ok (state, q)

/-- Marks the block of a compact block as in flight with a partial block: none when the peer is
already syncing it by compact blocks. -/
def startPartial (pindex : Uint256) : Except Abort (Option NetState) := do
  let (marked, s) ← s.markBlockAsInFlight ctx.now nodeid pindex (some pindex) true
  if marked then return some s
  -- In flight from this peer before: `pit` points to the entry that there is.
  match s.mapBlocksInFlight[pindex]? with
  | none => throw .danglingIterator
  | some (owner, it) =>
    let (state, q) ← s.derefEntry owner it
    if q.partialBlock then return none
    return some (s.attachPartial owner state it)

/-- The part of the handler of `CMPCTBLOCK` for a block close to the tip that is in flight from the
sender or gets a place in its queue. `status` is the outcome of `InitData`, and `missing` says that
some transaction is not available. -/
def syncCmpctBlock (pindex : Uint256)
    (status : ReadStatus) (missing : Bool) : Except Abort ((List Sent × CmpctNext) × NetState) := do
  let some s' := ← s.startPartial ctx nodeid pindex | return (([], .done), s)
  match status with
  | .invalid =>
    let (_, s') ← s'.markBlockAsReceived ctx.now pindex (some nodeid)
    return (([], .done), s')
  -- Duplicate txindexes, the block is now in-flight, so just request it.
  | .failed => return (([⟨nodeid, .getData, pindex⟩], .done), s')
  | _ =>
    if missing then return (([⟨nodeid, .getBlockTxn, pindex⟩], .done), s')
    return (([], .blockTxn), s')

/-- The handler of `CMPCTBLOCK`, after the header was accepted as `pindex`. -/
def processCmpctBlock (pindex : Uint256)
    (status : ReadStatus) (missing : Bool) : Except Abort ((List Sent × CmpctNext) × NetState) := do
  let state ← s.state nodeid
  let state := state.updateBlockAvailability ctx pindex
  let s := s.setState nodeid state
  let some tipWork := ctx.tipChainWork | throw .nullBlock
  let b := ctx.tree.node pindex
  let inFlight := s.mapBlocksInFlight[pindex]?
  let getData : List Sent := [⟨nodeid, .getData, pindex⟩]
  if b.haveData then return (([], .done), s)
  else if ctx.disableCoreTcpBlockRequests then return (([], .done), s)
  else if b.nChainWork ≤ tipWork ∨ b.nTx ≠ 0 then
    -- We requested this block for some reason: grab it via normal getdata.
    return ((if inFlight.isSome then getData else [], .done), s)
  -- If we're not close to tip yet, give up and let parallel block fetch work its magic.
  else if inFlight.isNone ∧ ¬ ctx.canDirectFetch then return (([], .done), s)
  else if ctx.isWitnessEnabled b.pprev ∧ ¬ state.fWantsCmpctWitness then return (([], .done), s)
  else if ctx.isMWEBEnabled b.pprev ∧ ¬ state.fWantsCmpctMWEB then return (([], .done), s)
  else if (b.nHeight : Int) ≤ ctx.chainActive.height + 2 then
    if (inFlight.isNone ∧ state.nBlocksInFlight < maxBlocksInTransitPerPeer) ∨
        inFlight.map Prod.fst = some nodeid then
      s.syncCmpctBlock ctx nodeid pindex status missing
    else return (([], .optimistic), s)
  -- Far into the future: request the block normally.
  else if inFlight.isSome then return ((getData, .done), s)
  else return (([], .headers), s)

/-- The handler of `BLOCKTXN`, until it releases the lock: the requests, and whether the block was
read. `status` is the outcome of `FillBlock`. -/
def processBlockTxn (hash : Uint256)
    (status : ReadStatus) : Except Abort ((List Sent × Bool) × NetState) := do
  match s.mapBlocksInFlight[hash]? with
  | none => return (([], false), s)
  | some (owner, it) =>
    let (_, q) ← s.derefEntry owner it
    if ¬ q.partialBlock ∨ owner ≠ nodeid then return (([], false), s)
    match status with
    | .invalid =>
      let (_, s) ← s.markBlockAsReceived ctx.now hash (some nodeid)
      return (([], false), s)
    | .failed =>
      -- Might have collided, fall back to getdata now.
      if ctx.disableCoreTcpBlockRequests then return (([], false), s)
      return (([⟨nodeid, .getData, hash⟩], false), s)
    | _ =>
      let (_, s) ← s.markBlockAsReceived ctx.now hash (some nodeid)
      return (([], true), s)

end NetState

end DefcoinCore.NetProcessing
