import DefcoinCore.Lib.Machine
import DefcoinCore.NetProcessing.Requests

/-!
# Runs of the block-download table

The peer state machine: every function and handler that touches the block-download table is a step,
taken by any peer with any arguments, at any time and with any state of the rest of the node. Beside
the table a run keeps the list of the queue entries that were made for UDP Fast Sync.

These results hold of every run.

* `blockDownload_consistent`: the table and the queues are inverse to each other, the counters
  count, and no assertion about them fails.
* `releaseFastSyncBlockInFlight_iff`: when the answer of a release is right.
* `step_respects_udp_iff`: which steps request over TCP a block that is assigned to the UDP
  transport of the same peer.
* `reservation_bounded_iff`: which reservations are released by their deadline.
-/

namespace DefcoinCore.NetProcessing

open Option NetState List

/-- What a peer negotiates, and the last header we sent it. -/
structure Negotiated where
  pindexBestHeaderSent : Option Uint256
  nStartingHeight : Int
  fHaveWitness : Bool
  fHaveMWEB : Bool
  fWantsCmpctWitness : Bool
  fWantsCmpctMWEB : Bool
  fSupportsDesiredCmpctVersion : Bool

/-- The steps. -/
inductive Op where
  | initializeNode (p : NodeId)
  | finalizeNode (p : NodeId)
  | markBlockAsInFlight (p : NodeId) (hash : Uint256) (pindex : Option Uint256) (pit : Bool)
  | markBlockAsReceived (hash : Uint256) (fromPeer : Option NodeId)
  | expireFastSyncPendingBlock (p : NodeId)
  | reserveFastSyncBlockInFlight (p : NodeId) (height : Int) (hashOut : Uint256) (reason : String)
  | reserveNextFastSyncBlockInFlight (p : NodeId) (hashOut : Uint256) (reason : String)
  | releaseFastSyncBlockInFlight (p : NodeId) (hash : Uint256)
  | setFastSyncPeerTransportVerified (p : NodeId) (verified : Bool)
  | sendMessages (p : NodeId) (flags : SendFlags)
  | headers (p : NodeId) (pindexLast : Uint256)
  | cmpctBlock (p : NodeId) (pindex : Uint256) (status : ReadStatus) (missing : Bool)
  | blockTxn (p : NodeId) (hash : Uint256) (status : ReadStatus)
  | updateBlockAvailability (p : NodeId) (hash : Uint256)
  | negotiate (p : NodeId) (n : Negotiated)

/-- The peer that the caller of a step vouches for. -/
def Op.vouchedPeer : Op → Option NodeId
  | .finalizeNode p | .markBlockAsInFlight p _ _ _ | .expireFastSyncPendingBlock p
  | .sendMessages p _ | .headers p _ | .cmpctBlock p _ _ _ | .updateBlockAvailability p _
  | .negotiate p _ => some p
  | _ => none

/-- The table, and the queue entries that were made for UDP Fast Sync. -/
structure Sys where
  net : NetState := {}
  udp : List Iter := []

/-- What a step shows: the requests it sends and the blocks it assigns to UDP. -/
structure StepOut where
  sent : List Sent := []
  reserved : List Uint256 := []

/-- The state after a step, with the entries of the blocks that it assigned to UDP. -/
def Sys.next (σ : Sys) (s : NetState) (reserved : List Uint256) : Sys :=
  { net := s
    udp := σ.udp ++ reserved.filterMap fun hash => (s.mapBlocksInFlight[hash]?).map Prod.snd }

/-- Writes what a peer negotiated. -/
def CNodeState.negotiate (state : CNodeState) (n : Negotiated) : CNodeState :=
  { state with
    pindexBestHeaderSent := n.pindexBestHeaderSent
    nStartingHeight := n.nStartingHeight
    fHaveWitness := n.fHaveWitness
    fHaveMWEB := n.fHaveMWEB
    fWantsCmpctWitness := n.fWantsCmpctWitness
    fWantsCmpctMWEB := n.fWantsCmpctMWEB
    fSupportsDesiredCmpctVersion := n.fSupportsDesiredCmpctVersion }

/-- What a step does to the table. -/
def NetState.perform (s : NetState) (ctx : Ctx) : Op → Except Abort (StepOut × NetState)
  | .initializeNode p => .ok ({}, s.initializeNode p)
  | .finalizeNode p => do
    let s ← s.finalizeNode p
    return ({}, s)
  | .markBlockAsInFlight p hash pindex pit => do
    let (_, s) ← s.markBlockAsInFlight ctx.now p hash pindex pit
    return ({}, s)
  | .markBlockAsReceived hash fromPeer => do
    let (_, s) ← s.markBlockAsReceived ctx.now hash fromPeer
    return ({}, s)
  | .expireFastSyncPendingBlock p => do
    let (_, s) ← s.expireFastSyncPendingBlock p ctx.now
    return ({}, s)
  | .reserveFastSyncBlockInFlight p height hashOut reason => do
    let (r, s) ← s.reserveFastSyncBlockInFlight ctx p height hashOut reason
    return ({ reserved := if r.reserved then [r.hashOut] else [] }, s)
  | .reserveNextFastSyncBlockInFlight p hashOut reason => do
    let (r, s) ← s.reserveNextFastSyncBlockInFlight ctx p hashOut reason
    return ({ reserved := if r.reserved then [r.hashOut] else [] }, s)
  | .releaseFastSyncBlockInFlight p hash => do
    let (_, s) ← s.releaseFastSyncBlockInFlight ctx.now p hash
    return ({}, s)
  | .setFastSyncPeerTransportVerified p verified => do
    let (_, s) ← s.setFastSyncPeerTransportVerified ctx.now p verified
    return ({}, s)
  | .sendMessages p flags => do
    let ((offered, sent), s) ← s.sendMessagesBlocks ctx p flags
    return ({ sent, reserved := offered.toList }, s)
  | .headers p pindexLast => do
    let (sent, s) ← s.processHeaders ctx p pindexLast
    return ({ sent }, s)
  | .cmpctBlock p pindex status missing => do
    let ((sent, _), s) ← s.processCmpctBlock ctx p pindex status missing
    return ({ sent }, s)
  | .blockTxn p hash status => do
    let ((sent, _), s) ← s.processBlockTxn ctx p hash status
    return ({ sent }, s)
  | .updateBlockAvailability p hash => do
    let state ← s.state p
    return ({}, s.setState p (state.updateBlockAvailability ctx hash))
  | .negotiate p n => do
    let state ← s.state p
    return ({}, s.setState p (state.negotiate n))

/-- One step of the machine. -/
def step (σ : Sys) (i : Ctx × Op) : Except Abort (Sys × StepOut) := do
  let (out, s) ← σ.net.perform i.1 i.2
  return (σ.next s out.reserved, out)

/-- The states that runs from `σ0` reach. -/
abbrev Reaches (σ0 σ : Sys) : Prop := Machine.Reachable (fun _ _ => True) step σ0 σ

/-! ## What every step keeps -/

namespace NetState

variable {s : NetState} {ctx : Ctx} {p : NodeId}

/-- `State(nodeid)` of a peer that is not connected. -/
theorem state_eq_error (hp : s.state? p = none) : s.state p = .error .noSuchPeer := by
  rw [state, hp]

/-- A step whose caller names a peer that is not connected stops. -/
theorem perform_of_not_connected (ctx : Ctx) {op : Op} (hop : op.vouchedPeer = some p)
    (hp : s.state? p = none) :
    s.perform ctx op = .error .noSuchPeer := by
  have herr := state_eq_error hp
  cases op
  all_goals
    simp only [Op.vouchedPeer, some.injEq, reduceCtorEq] at hop
  all_goals
    subst hop
    simp only [perform, finalizeNode, markBlockAsInFlight, expireFastSyncPendingBlock,
      sendMessagesBlocks, processHeaders, processCmpctBlock, herr]
    rfl

/-- Every step keeps the invariant and lets reservations evolve. For a connected peer it stops only
at a null block. -/
theorem perform_keeps_of_connected (hs : Inv s) (ctx : Ctx) (op : Op)
    (hconn : ∀ p, op.vouchedPeer = some p → ∃ state, s.state? p = some state) :
    Ensures (s.perform ctx op) (fun r => Inv r.2 ∧ Evolves s r.2) (· = .nullBlock) := by
  have hkept : ∀ {s' : NetState}, Follows s s' → Inv s' ∧ Evolves s s' :=
    fun hf => ⟨hf.inv, hf.evolves⟩
  rcases op with p | p | ⟨p, hash, pindex, pit⟩ | ⟨hash, fromPeer⟩ | p | ⟨p, height, hashOut,
    reason⟩ | ⟨p, hashOut, reason⟩ | ⟨p, hash⟩ | ⟨p, verified⟩ | ⟨p, flags⟩ | ⟨p, pindexLast⟩ |
    ⟨p, pindex, status, missing⟩ | ⟨p, hash, status⟩ | ⟨p, hash⟩ | ⟨p, n⟩
  · exact initializeNode_spec hs p
  · obtain ⟨state, hp⟩ := hconn p rfl
    obtain ⟨hok, hinv, hev⟩ := finalizeNode_spec hs hp
    simp only [perform, hok]
    exact ⟨hinv, hev⟩
  · obtain ⟨state, hp⟩ := hconn p rfl
    refine (markBlockAsInFlight_spec hs hp ctx.now hash pindex pit).or_error.bind ?_
    exact fun r hr => hkept hr.1
  · refine (markBlockAsReceived_spec hs ctx.now hash fromPeer).or_error.bind ?_
    exact fun r hr => hkept hr.1
  · obtain ⟨state, hp⟩ := hconn p rfl
    exact (expireFastSyncPendingBlock_spec hs hp ctx.now).or_error.bind fun r hr => hkept hr.1
  · refine ((reserveFastSyncBlockInFlight_follows hs height hashOut reason).bind ?_).or_error
    exact fun r hr => hkept hr.1
  · exact (reserveNextFastSyncBlockInFlight_follows hs hashOut reason).bind fun r hr => hkept hr
  · refine (markBlockAsReceived_spec hs ctx.now hash (some p)).or_error.bind ?_
    exact fun r hr => hkept hr.1
  · refine ((setFastSyncPeerTransportVerified_follows hs ctx.now verified).bind ?_).or_error
    exact fun r hr => hkept hr.1
  · obtain ⟨state, hp⟩ := hconn p rfl
    exact (sendMessagesBlocks_spec hs hp flags).bind fun r hr => hkept hr.1
  · obtain ⟨state, hp⟩ := hconn p rfl
    exact (processHeaders_spec hs hp pindexLast).bind fun r hr => hkept hr.1
  · obtain ⟨state, hp⟩ := hconn p rfl
    exact (processCmpctBlock_spec hs hp pindex status missing).bind fun r hr => hkept hr.1.follows
  · refine ((processBlockTxn_spec hs hash status).bind ?_).or_error
    exact fun r hr => hkept hr.1.follows
  · obtain ⟨state, hp⟩ := hconn p rfl
    simp only [perform, state_eq_ok_iff.mpr hp]
    exact hkept (setState_refreshed_follows hs hp
      (updateBlockAvailability_refreshed ctx state hash))
  · obtain ⟨state, hp⟩ := hconn p rfl
    simp only [perform, state_eq_ok_iff.mpr hp]
    exact hkept (setState_unread hs hp ⟨rfl, rfl, rfl⟩ rfl rfl rfl)

/-- Either the peer that the caller vouches for is connected, or the step stops for that. -/
theorem connected_or_error (s : NetState) (ctx : Ctx) (op : Op) :
    (∀ p, op.vouchedPeer = some p → ∃ state, s.state? p = some state) ∨
      (s.perform ctx op = .error .noSuchPeer ∧
        ∃ p, op.vouchedPeer = some p ∧ s.state? p = none) := by
  rcases hop : op.vouchedPeer with _ | p
  · exact .inl fun p hp => absurd hp (by simp)
  rcases hp : s.state? p with _ | state
  · exact .inr ⟨perform_of_not_connected ctx hop hp, p, rfl, hp⟩
  · refine .inl fun q hq => ⟨state, ?_⟩
    rw [← some.inj hq]
    exact hp

/-- Every step keeps the invariant and lets reservations evolve. It stops only at a null block, or
when the caller names a peer that is not connected. -/
theorem perform_keeps (hs : Inv s) (ctx : Ctx) (op : Op) :
    Ensures (s.perform ctx op) (fun r => Inv r.2 ∧ Evolves s r.2)
      fun e => e = .nullBlock ∨
        (e = .noSuchPeer ∧ ∃ p, op.vouchedPeer = some p ∧ s.state? p = none) := by
  rcases connected_or_error s ctx op with hconn | ⟨herr, hp⟩
  · exact (perform_keeps_of_connected hs ctx op hconn).mono (fun _ h => h) fun _ he => .inl he
  · rw [herr]
    exact .inr ⟨rfl, hp⟩

end NetState

/-- What holds of every state that a run reaches: the invariant of the table, and the entries made
for UDP are old. -/
structure Sys.Wf (σ : Sys) : Prop where
  inv : Inv σ.net
  udp : ∀ it ∈ σ.udp, it < σ.net.nextIter

variable {σ σ1 : Sys} {o : StepOut} {s s' : NetState} {it : Iter} {hash : Uint256} {p : NodeId}
  {ctx : Ctx} {state : CNodeState} {reason : String}

variable {σ' σ0 : Sys} {i : Ctx × Op} {b hashOut : Uint256} {sent : List Sent}

/-- A step is what it does to the table, and the entries it made for UDP. -/
theorem step_eq_ok (h : step σ i = .ok (σ', o)) :
    σ.net.perform i.1 i.2 = .ok (o, σ'.net) ∧ σ' = σ.next σ'.net o.reserved := by
  obtain ⟨⟨out, s⟩, hperf, h⟩ := bind_eq_ok_iff.mp h
  cases h
  exact ⟨hperf, rfl⟩

/-- The entries made for UDP after a step. -/
theorem mem_udp_next {reserved : List Uint256} :
    it ∈ (σ.next s reserved).udp ↔ it ∈ σ.udp ∨ ∃ hash ∈ reserved, ∃ p, s.InFlight hash p it := by
  simp only [Sys.next, mem_append, mem_filterMap, map_eq_some_iff, Prod.exists,
    NetState.InFlight, exists_eq_right]

/-- Every step keeps what holds of the reached states. -/
theorem step_wf (hσ : σ.Wf) (h : step σ i = .ok (σ', o)) : σ'.Wf ∧ Evolves σ.net σ'.net := by
  obtain ⟨hperf, hnext⟩ := step_eq_ok h
  obtain ⟨hinv, hev⟩ := (perform_keeps hσ.inv i.1 i.2).of_ok hperf
  refine ⟨⟨hinv, ?_⟩, hev⟩
  intro it hit
  rw [hnext, mem_udp_next] at hit
  rcases hit with hit | ⟨hash, -, p, hin⟩
  · exact (hσ.udp it hit).trans_le hev.iters
  · exact hinv.iter_lt hin

/-- The empty table is well formed. -/
theorem wf_empty : ({} : Sys).Wf := by
  have hnone : ∀ p, ({} : NetState).state? p = none := fun p => Std.ExtTreeMap.getElem?_empty
  refine ⟨⟨?_, ?_, ?_, ?_⟩, by simp⟩
  · simp [hnone]
  · simp [NetState.InFlight, NetState.Queued, hnone]
  · rw [StdMap.countP_empty]
    rfl
  · simp [hnone]

/-- A run keeps what holds of the reached states. -/
theorem Reaches.wf (h : Reaches σ0 σ) (h0 : σ0.Wf) : σ.Wf :=
  h.invariant h0 fun _ _ _ _ hσ _ hstep => (step_wf hσ hstep).1

/-- A run lets the reservations of its first state evolve. -/
theorem Reaches.evolves (h : Reaches σ0 σ) (h0 : σ0.Wf) : Evolves σ0.net σ.net := by
  have hboth : σ.Wf ∧ Evolves σ0.net σ.net := by
    refine h.invariant (P := fun σ => σ.Wf ∧ Evolves σ0.net σ.net) ⟨h0, .refl _⟩ ?_
    intro σ1 i σ2 o ⟨hwf, hev⟩ _ hstep
    obtain ⟨hwf', hev'⟩ := step_wf hwf hstep
    exact ⟨hwf', hev.trans hev'⟩
  exact hboth.2

/-! ## Consistency of the table -/

/-- In every state that a run from the empty table reaches: the map and the queues are inverse to
each other and no queue has a block or an entry twice; every counter counts; a pending Fast Sync
block is in flight from its peer. No assertion or iterator of the table can fail: a step stops only
at a null block, or when its caller names a peer that is not connected. -/
theorem blockDownload_consistent (σ : Sys) (h : Reaches {} σ) :
    (∀ hash p it, σ.net.mapBlocksInFlight[hash]? = some (p, it) ↔
      ∃ state q, σ.net.state? p = some state ∧ (it, q) ∈ state.vBlocksInFlight ∧ q.hash = hash) ∧
    (∀ p state, σ.net.state? p = some state →
      (state.vBlocksInFlight.map Prod.fst).Nodup ∧
      (state.vBlocksInFlight.map (·.2.hash)).Nodup ∧
      state.nBlocksInFlight = state.vBlocksInFlight.length ∧
      state.nBlocksInFlightValidHeaders = state.vBlocksInFlight.countP (·.2.fValidatedHeaders)) ∧
    σ.net.nPeersWithValidatedDownloads =
      σ.net.mapNodeState.countP (fun state => state.nBlocksInFlightValidHeaders ≠ 0) ∧
    (∀ p state, σ.net.state? p = some state → state.hashFastSyncPendingBlock ≠ 0 →
      ∃ it, σ.net.mapBlocksInFlight[state.hashFastSyncPendingBlock]? = some (p, it)) ∧
    (∀ i e, step σ i = .error e → e = .nullBlock ∨
      (e = .noSuchPeer ∧ ∃ p, i.2.vouchedPeer = some p ∧ σ.net.state? p = none)) := by
  have hwf := h.wf wf_empty
  refine ⟨hwf.inv.link, ?_, hwf.inv.peers, hwf.inv.pending, ?_⟩
  · intro p state hp
    have hq := hwf.inv.queues p state hp
    exact ⟨hq.iters, hq.hashes, hq.count, hq.valid⟩
  · intro i e hstep
    have hends : Ensures (step σ i) (fun _ => True) fun e => e = .nullBlock ∨
        (e = .noSuchPeer ∧ ∃ p, i.2.vouchedPeer = some p ∧ σ.net.state? p = none) :=
      (perform_keeps hwf.inv i.1 i.2).bind fun _ _ => trivial
    exact hends.of_error hstep

/-- A peer that negotiated witnesses and compact blocks, at height 1. -/
def linePeer : Negotiated where
  pindexBestHeaderSent := none
  nStartingHeight := 1
  fHaveWitness := true
  fHaveMWEB := true
  fWantsCmpctWitness := true
  fWantsCmpctMWEB := true
  fSupportsDesiredCmpctVersion := true

/-- The state of that peer with its UDP transport verified, after it announced the block at height
1. -/
def verifiedLinePeer : CNodeState :=
  { CNodeState.negotiate {} linePeer with
    fFastSyncUdpTransportVerified := true
    pindexBestKnownBlock := some 2 }

/-- The table with that peer alone. -/
def lineSys : Sys := { net := ({} : NetState).setState 0 verifiedLinePeer }

/-- A run that connects the peer, verifies it and hears its announcement. -/
theorem lineSys_reached : Reaches {} lineSys := by
  have h1 : Reaches {} { net := ({} : NetState).initializeNode 0 } :=
    .step (i := (lineCtx 1 0, .initializeNode 0)) (o := {}) .init trivial rfl
  have h2 : Reaches {} { net := ({} : NetState).setState 0 (CNodeState.negotiate {} linePeer) } :=
    .step (i := (lineCtx 1 0, .negotiate 0 linePeer)) (o := {}) h1 trivial rfl
  have h3 : Reaches {} { net := ({} : NetState).setState 0 { CNodeState.negotiate {} linePeer with
      fFastSyncUdpTransportVerified := true } } :=
    .step (i := (lineCtx 1 0, .setFastSyncPeerTransportVerified 0 true)) (o := {}) h2 trivial rfl
  exact .step (i := (lineCtx 1 0, .updateBlockAvailability 0 2)) (o := {}) h3 trivial rfl

/-- The state after the block at height 1 was reserved from the peer. -/
def lineReserved : Sys :=
  { net := lineSys.net.addInFlight 0 0 { verifiedLinePeer with pindexLastCommonBlock := some 1 }
      ⟨2, some 2, true, false⟩
    udp := [0] }

theorem lineReserved_step :
    step lineSys (lineCtx 1 0, .reserveNextFastSyncBlockInFlight 0 0 "") =
      .ok (lineReserved, { reserved := [2] }) := rfl

theorem lineReserved_reached : Reaches {} lineReserved :=
  .step lineSys_reached trivial lineReserved_step

/-- In every reached state, connected peers can be disconnected in any order: no assertion of
`FinalizeNode` about the table fails, and exactly these peers and the blocks in flight from them are
gone. -/
theorem finalizeNodes_returns (σ : Sys) (h : Reaches {} σ) (peers : List NodeId)
    (hnodup : peers.Nodup) (hconn : ∀ p ∈ peers, σ.net.state? p ≠ none) :
    Returns (peers.foldlM finalizeNode σ.net) fun s =>
      (∀ p, s.state? p = if p ∈ peers then none else σ.net.state? p) ∧
      ∀ hash p it, s.InFlight hash p it ↔ p ∉ peers ∧ σ.net.InFlight hash p it := by
  have hinv := (h.wf wf_empty).inv
  generalize σ.net = s at hinv hconn
  induction peers generalizing s with
  | nil => simp [Returns, Ensures, pure, Except.pure]
  | cons p peers ih =>
    rw [nodup_cons] at hnodup
    obtain ⟨state, hp⟩ := ne_none_iff_exists'.mp (hconn p mem_cons_self)
    obtain ⟨hok, hinv', -⟩ := finalizeNode_spec hinv hp
    rw [foldlM_cons, hok, ok_bind]
    refine (ih hnodup.2 _ hinv' fun p' hp' => ?_).imp fun s' hs' =>
      ⟨fun p' => ?_, fun hash p' it => ?_⟩
    · rw [state?_finalized, if_neg fun heq : p = p' => hnodup.1 (heq ▸ hp')]
      exact hconn p' (mem_cons_of_mem _ hp')
    · rw [hs'.1, state?_finalized]
      by_cases heq : p = p' <;> simp [heq, eq_comm]
    · rw [hs'.2, inFlight_finalized hinv hp, mem_cons, not_or, and_assoc, ne_comm]
      tauto

/-- The peer with the reservation is disconnected. -/
theorem finalizeNodes_returns_lineReserved :
    Returns ([0].foldlM finalizeNode lineReserved.net) fun s => ∀ hash it, ¬s.InFlight hash 0 it :=
  (finalizeNodes_returns lineReserved lineReserved_reached [0] (nodup_singleton _) (by decide)).imp
    fun s hs hash it hin => ((hs.2 hash 0 it).mp hin).1 (mem_singleton_self _)

/-- After the reservation the table has one block in flight, and is consistent. -/
theorem blockDownload_consistent_lineReserved :
    lineReserved.net.mapBlocksInFlight[(2 : Uint256)]? = some (0, 0) ∧
      lineReserved.net.nPeersWithValidatedDownloads =
        lineReserved.net.mapNodeState.countP fun state => state.nBlocksInFlightValidHeaders ≠ 0 :=
  ⟨rfl, (blockDownload_consistent lineReserved lineReserved_reached).2.2.1⟩

/-! ## Releasing a block -/

/-- What a release of `hash` for the peer `p` tells and leaves: it says whether the block was in
flight from that peer; then that entry is gone and nothing else, and otherwise nothing is. -/
structure Releases (s : NetState) (p : NodeId) (hash : Uint256) (released : Bool) (s' : NetState) :
    Prop where
  told : released ↔ ∃ it, s.InFlight hash p it
  gone : released → ∀ p' it, ¬ s'.InFlight hash p' it
  /-- The counters drop by exactly the entry of the block. -/
  counters : released → ∃ it q state state', s.InFlight hash p it ∧
    s.state? p = some state ∧ state.entry? it = some q ∧ s'.state? p = some state' ∧
    state'.vBlocksInFlight = StdList.erase state.vBlocksInFlight it ∧
    state'.nBlocksInFlight = state.nBlocksInFlight - 1 ∧
    state'.nBlocksInFlightValidHeaders =
      state.nBlocksInFlightValidHeaders - q.fValidatedHeaders.toNat
  others : released → ∀ p', p' ≠ p → s'.state? p' = s.state? p'
  kept : released = false → s' = s

/-- `ReleaseFastSyncBlockInFlight` tells and leaves what it should unless the block is in flight
from another peer: `MarkBlockAsReceived` returns true for such a block, and nothing is released. -/
theorem releaseFastSyncBlockInFlight_iff {s : NetState} (hs : Inv s) (now : Nat) (p : NodeId)
    (hash : Uint256) :
    Returns (s.releaseFastSyncBlockInFlight now p hash) fun r =>
      Releases s p hash r.1 r.2 ↔ ∀ p' it, s.InFlight hash p' it → p' = p := by
  unfold releaseFastSyncBlockInFlight
  rcases hin : s.mapBlocksInFlight[hash]? with _ | ⟨owner, it⟩
  · rw [markBlockAsReceived, hin]
    have hnone : ∀ p' it, ¬ s.InFlight hash p' it := fun p' it h => by cases hin.symm.trans h
    refine iff_of_true ⟨?_, ?_, ?_, ?_, fun _ => rfl⟩ fun p' it h => absurd h (hnone p' it)
    · exact ⟨fun h => absurd h (by simp), fun h => absurd h.choose_spec (hnone p _)⟩
    all_goals exact fun h => absurd h (by simp)
  by_cases hother : p = owner
  swap
  · -- The block is in flight from its owner only, yet the answer is true.
    simp only [markBlockAsReceived, hin, isSome_some, ne_eq, some.injEq, hother,
      not_false_eq_true, and_self, if_true]
    refine iff_of_false (fun h => ?_) fun h => hother (h owner it hin).symm
    obtain ⟨it', hit⟩ := h.told.mp rfl
    exact hother (InFlight.unique hit hin).1
  subst hother
  obtain ⟨state, q, hp, hentry, -⟩ := hs.entry hin
  obtain ⟨hv, hn, hnv, -⟩ := dropEntry_fields state now hash it q
  rw [markBlockAsReceived_own now hin hp hentry]
  refine iff_of_true ⟨⟨fun _ => ⟨it, hin⟩, fun _ => rfl⟩, ?_, ?_, ?_, fun h => absurd h (by simp)⟩
    fun p' it' h => (InFlight.unique h hin).1
  · exact fun _ p' it' h => ((inFlight_dropInFlight ..).mp h).1 rfl
  · refine fun _ => ⟨it, q, state, _, hin, hp, hentry, ?_, hv, hn, hnv⟩
    rw [state?_dropInFlight, if_pos rfl]
  · intro _ p' hne
    rw [state?_dropInFlight, if_neg hne.symm]

/-- The block that the peer 0 has reserved is released for it. -/
theorem releaseFastSyncBlockInFlight_lineReserved :
    Returns (lineReserved.net.releaseFastSyncBlockInFlight 0 0 2) fun r =>
      Releases lineReserved.net 0 2 r.1 r.2 :=
  (releaseFastSyncBlockInFlight_iff (lineReserved_reached.wf wf_empty).inv 0 0 2).imp fun _ h =>
    h.mpr fun _ _ hin => (InFlight.unique hin (rfl : lineReserved.net.InFlight 2 0 0)).1

/-- A release of that block for the peer 1 says true, and the block stays in flight from the peer 0.
-/
theorem lineReserved_told_released :
    Reaches {} lineReserved ∧
      lineReserved.net.releaseFastSyncBlockInFlight 0 1 2 = .ok (true, lineReserved.net) ∧
      ¬ Releases lineReserved.net 1 2 true lineReserved.net ∧ lineReserved.net.InFlight 2 0 0 := by
  refine ⟨lineReserved_reached, rfl, fun h => ?_, rfl⟩
  obtain ⟨it, hit⟩ := h.told.mp rfl
  exact absurd (InFlight.unique hit (rfl : lineReserved.net.InFlight 2 0 0)).1 (by decide)

/-! ## One transport for a block -/

/-- `hash` is in flight from `p` under an entry made for UDP Fast Sync. -/
def Sys.UdpReserved (σ : Sys) (p : NodeId) (hash : Uint256) : Prop :=
  ∃ it ∈ σ.udp, σ.net.InFlight hash p it

/-- No request of the step is for a block that is assigned to the UDP transport of the peer it is
sent to. A handler sends its requests at its end, so that the state after the step counts. -/
def RespectsUdp (σ' : Sys) (o : StepOut) : Prop :=
  ∀ m ∈ o.sent, ¬ σ'.UdpReserved m.peer m.hash

/-- The steps that send nothing for a block assigned to the UDP transport of their peer. Only a
compact block, or the transactions of one, can make a handler request such a block. -/
def UdpQuiet (σ : Sys) (i : Ctx × Op) : Prop :=
  match i.2 with
  | .cmpctBlock p b status missing =>
    σ.UdpReserved p b → σ.net.CmpctQuiet i.1 p b status missing
  | .blockTxn p hash status => σ.UdpReserved p hash → σ.net.BlockTxnQuiet i.1 p hash status
  | _ => True

/-- Two blocks in flight from one peer under one entry are the same block. -/
theorem Inv.hash_eq (hs : Inv s) {hash' : Uint256} (h : s.InFlight hash p it)
    (h' : s.InFlight hash' p it) :
    hash = hash' := by
  obtain ⟨state, q, hp, -, hq, rfl⟩ := hs.entry h
  obtain ⟨q', hq', rfl⟩ := (hs.own hp hash' it).mp h'
  rw [StdList.eq_of_mem_of_mem (hs.queues p state hp).iters hq hq']

/-- The steps that can send a request for a block. -/
def Op.requests : Op → Bool
  | .sendMessages _ _ | .headers _ _ | .cmpctBlock _ _ _ _ | .blockTxn _ _ _ => true
  | _ => false

/-- The other steps send none. -/
theorem perform_sent_eq_nil {op : Op} (hop : op.requests = false)
    (h : s.perform ctx op = .ok (o, s')) :
    o.sent = [] := by
  cases op
  case initializeNode =>
    cases h
    rfl
  case sendMessages | headers | cmpctBlock | blockTxn => exact absurd hop (by simp [Op.requests])
  all_goals
    obtain ⟨r, -, hr⟩ := bind_eq_ok_iff.mp h
    cases hr
    rfl

/-- A handler that answers an announcement: its requests respect UDP exactly when it sends nothing
for a block that is assigned to the UDP transport of the peer. -/
theorem respectsUdp_of_answers {quiet : Prop} (hσ : σ.Wf) (hans : σ.net.Answers p b sent s')
    (hquiet : ∀ it, σ.net.InFlight b p it → (sent = [] ↔ quiet)) :
    RespectsUdp (σ.next s' []) { sent } ↔ (σ.UdpReserved p b → quiet) := by
  have hudp : (σ.next s' []).udp = σ.udp := by simp [Sys.next]
  by_cases hsent : sent = []
  · subst hsent
    refine ⟨fun _ => ?_, fun _ m hm => absurd hm (by simp)⟩
    rintro ⟨it, -, hin⟩
    exact (hquiet it hin).mp rfl
  -- Something was sent, so the old entries for the block are as before.
  have hsame : (σ.next s' []).UdpReserved p b ↔ σ.UdpReserved p b := by
    unfold Sys.UdpReserved
    rw [hudp]
    exact exists_congr fun it => and_congr_right fun hit =>
      hans.entries hsent it (hσ.udp it hit)
  constructor
  · rintro hres hreserved
    obtain ⟨m, hm⟩ := exists_mem_of_ne_nil sent hsent
    obtain ⟨hpeer, hhash⟩ := hans.only m hm
    have hno := hres m hm
    rw [hpeer, hhash, hsame] at hno
    exact absurd hreserved hno
  · intro hall m hm
    obtain ⟨hpeer, hhash⟩ := hans.only m hm
    rw [hpeer, hhash, hsame]
    rintro ⟨it, hit, hin⟩
    exact hsent ((hquiet it hin).mpr (hall ⟨it, hit, hin⟩))

/-- Requests under entries that are new, for other blocks than the one assigned to UDP. -/
theorem respectsUdp_of_requested (offered : Option Uint256) (hσ : σ.Wf) (hinv : Inv s')
    (hsent : ∀ m ∈ sent, m.peer = p ∧ offered ≠ some m.hash ∧ ∃ it, σ.net.nextIter ≤ it ∧
      s'.InFlight m.hash p it)
    (hoff : ∀ hash, offered = some hash → ∃ it, s'.InFlight hash p it) :
    RespectsUdp (σ.next s' offered.toList) { sent, reserved := offered.toList } := by
  intro m hm hres
  obtain ⟨hpeer, hne, it, hle, hin⟩ := hsent m hm
  obtain ⟨it', hit', hin'⟩ := hres
  obtain ⟨-, rfl⟩ := hin.unique hin'
  rcases mem_udp_next.mp hit' with hold | ⟨hash, hmem, p', hin0⟩
  · -- An entry made before the step is old.
    exact absurd (hσ.udp it hold) (Nat.not_lt.mpr hle)
  · -- The entry of the offered block is the entry of that block only.
    rw [mem_toList] at hmem
    have hmem' : offered = some hash := hmem
    obtain ⟨it0, hin1⟩ := hoff hash hmem'
    obtain ⟨rfl, -⟩ := hin1.unique hin0
    exact hne (by rw [hmem', hinv.hash_eq hin0 hin])

/-- In every reached state, a step respects the UDP transport of its peer exactly when it is quiet:
`SendMessages`, the direct fetch of headers and all other steps always do; the handlers of
`CMPCTBLOCK` and `BLOCKTXN` do not when they read a UDP reservation as a TCP request in flight. -/
theorem step_respects_udp_iff (σ σ' : Sys) (i : Ctx × Op) (o : StepOut) (h : Reaches {} σ)
    (hstep : step σ i = .ok (σ', o)) : RespectsUdp σ' o ↔ UdpQuiet σ i := by
  have hwf := h.wf wf_empty
  obtain ⟨hwf', -⟩ := step_wf hwf hstep
  obtain ⟨hperf, hnext⟩ := step_eq_ok hstep
  obtain ⟨ctx, op⟩ := i
  generalize hs' : σ'.net = s' at hperf hnext
  have hinv' : Inv s' := hs' ▸ hwf'.inv
  rw [hnext]
  rcases connected_or_error σ.net ctx op with hconn | ⟨herr, -⟩
  swap
  · cases hperf.symm.trans herr
  by_cases hop : op.requests = false
  · -- A step that sends nothing respects everything.
    have hquiet : UdpQuiet σ (ctx, op) := by
      rcases op <;> trivial
    refine ⟨fun _ => hquiet, fun _ m hm => ?_⟩
    simp [perform_sent_eq_nil hop hperf] at hm
  cases op
  case sendMessages p flags =>
    obtain ⟨state, hp⟩ := hconn p rfl
    obtain ⟨⟨⟨offered, sent⟩, s1⟩, hrun, hout⟩ := bind_eq_ok_iff.mp hperf
    cases hout
    obtain ⟨-, hsent, hoff⟩ := (sendMessagesBlocks_spec hwf.inv hp flags).of_ok hrun
    exact ⟨fun _ => trivial, fun _ => respectsUdp_of_requested offered hwf hinv' hsent hoff⟩
  case headers p pindexLast =>
    obtain ⟨state, hp⟩ := hconn p rfl
    obtain ⟨⟨sent, s1⟩, hrun, hout⟩ := bind_eq_ok_iff.mp hperf
    cases hout
    obtain ⟨-, hsent⟩ := (processHeaders_spec hwf.inv hp pindexLast).of_ok hrun
    refine ⟨fun _ => trivial, fun _ => ?_⟩
    exact respectsUdp_of_requested none hwf hinv'
      (fun m hm => ⟨(hsent m hm).1, by simp, (hsent m hm).2⟩) (by simp)
  case cmpctBlock p pindex status missing =>
    obtain ⟨state, hp⟩ := hconn p rfl
    obtain ⟨⟨⟨sent, next⟩, s1⟩, hrun, hout⟩ := bind_eq_ok_iff.mp hperf
    cases hout
    obtain ⟨hans, hquiet⟩ :=
      (processCmpctBlock_spec hwf.inv hp pindex status missing).of_ok hrun
    exact respectsUdp_of_answers hwf hans hquiet
  case blockTxn p hash status =>
    obtain ⟨⟨⟨sent, read⟩, s1⟩, hrun, hout⟩ := bind_eq_ok_iff.mp hperf
    cases hout
    obtain ⟨hans, hquiet⟩ := (processBlockTxn_spec hwf.inv hash status).of_ok hrun
    exact respectsUdp_of_answers hwf hans hquiet
  all_goals exact absurd rfl hop

/-- A compact block announcement makes us ask the peer over TCP for the transactions of a block that
its UDP transport is about to deliver. -/
theorem cmpctBlock_requests_udp_block :
    ∃ σ σ' : Sys, ∃ i : Ctx × Op, ∃ o : StepOut,
      Reaches {} σ ∧ step σ i = .ok (σ', o) ∧ ¬ RespectsUdp σ' o := by
  refine ⟨lineReserved, _, (lineCtx 1 0, .cmpctBlock 0 2 .ok true), _,
    lineReserved_reached, rfl, ?_⟩
  intro h
  exact h ⟨0, .getBlockTxn, 2⟩ (mem_singleton_self _) ⟨0, mem_singleton_self _, rfl⟩

/-- An invalid compact block for the same reservation is quiet. -/
theorem step_respects_udp_lineReserved :
    ∃ (σ' : Sys) (o : StepOut),
      step lineReserved (lineCtx 1 0, .cmpctBlock 0 2 .invalid true) = .ok (σ', o) ∧
      RespectsUdp σ' o := by
  refine ⟨_, _, rfl, ?_⟩
  refine (step_respects_udp_iff lineReserved _ (lineCtx 1 0, .cmpctBlock 0 2 .invalid true) _
    lineReserved_reached rfl).mpr fun _ => .inr (.inr ⟨?_, by decide, ?_⟩)
  · intro tipWork h
    have hwork : tipWork = 1 := (some.inj h).symm
    rw [hwork]
    decide
  · exact fun state _ => .inr (.inr ⟨by decide, .inr (.inl rfl)⟩)

/-! ## Deadlines of reservations -/

/-- The functions that reserve a block for UDP, and their peer. -/
def Op.reserver : Op → Option NodeId
  | .reserveFastSyncBlockInFlight p _ _ _ | .reserveNextFastSyncBlockInFlight p _ _ => some p
  | _ => none

/-- The steps by which a reservation from `p` made at the time `t` has to be over: the expiry of the
peer's pending block after the transfer timeout, or the withdrawal of the peer's verification. -/
def Closes (t : Nat) (p : NodeId) (i : Ctx × Op) : Prop :=
  (i.2 = .expireFastSyncPendingBlock p ∧ t + fastSyncUdpTransferTimeoutUs < i.1.now) ∨
    i.2 = .setFastSyncPeerTransportVerified p false

/-- The reservation of `hash` from `p`, made at the time `t` and standing in the state `σ1`, is
bounded: after any run and a closing step, its queue entry is gone for good. -/
def Bounded (t : Nat) (p : NodeId) (hash : Uint256) (σ1 : Sys) : Prop :=
  ∀ it, σ1.net.InFlight hash p it → ∀ σ2, Reaches σ1 σ2 →
    ∀ i σ3 o, Closes t p i → step σ2 i = .ok (σ3, o) →
      ∀ σ4, Reaches σ3 σ4 → ¬ σ4.net.InFlight hash p it

/-- The step claims a block that `SendMessages` offered: it asks for the next block, and the peer
has a pending offer whose deadline has not passed. -/
def ClaimsOffer (s : NetState) (i : Ctx × Op) : Prop :=
  ∃ p hashOut reason state, i.2 = .reserveNextFastSyncBlockInFlight p hashOut reason ∧
    s.state? p = some state ∧ state.hashFastSyncPendingBlock ≠ 0 ∧
    (state.nFastSyncPendingUntil = 0 ∨ i.1.now ≤ state.nFastSyncPendingUntil)

/-- A claimed reservation is bounded. -/
theorem bounded_of_claimed (h1 : σ1.Wf) {t : Nat} (hp : σ1.net.state? p = some state)
    (hhash : state.hashFastSyncPendingBlock = hash) (hne : hash ≠ 0)
    (hclaimed : state.fFastSyncPendingClaimed)
    (huntil : state.nFastSyncPendingUntil = t + fastSyncUdpTransferTimeoutUs) :
    Bounded t p hash σ1 := by
  intro it hin σ2 hrun2 i σ3 o hcloses hstep σ4 hrun4 hin4
  have h2 := hrun2.wf h1
  obtain ⟨h3, hev3⟩ := step_wf h2 hstep
  have hev2 := hrun2.evolves h1
  have hev4 := hrun4.evolves h3
  have hlt := h1.inv.iter_lt hin
  -- The entry is old throughout, so it was in flight all the time.
  have hin3 := hev4.old hash p it (hlt.trans_le (hev2.iters.trans hev3.iters)) hin4
  have hin2 := hev3.old hash p it (hlt.trans_le hev2.iters) hin3
  subst hhash
  obtain ⟨state2, hp2, hhash2, -, huntil2⟩ := hev2.claimed p state it hp hne hclaimed hlt hin2
  obtain ⟨hperf, -⟩ := step_eq_ok hstep
  rcases hcloses with ⟨hop, hlate⟩ | hop
  · obtain ⟨ctx, op⟩ := i
    subst hop
    obtain ⟨⟨b, s'⟩, hexp, hout⟩ := bind_eq_ok_iff.mp hperf
    cases hout
    rw [((expireFastSyncPendingBlock_spec h2.inv hp2 ctx.now).of_ok hexp).2.2.1] at hin3
    refine hin3.2 ⟨rfl, hhash2.symm, hne, ?_, ?_⟩
    · rw [huntil2, huntil]
      exact Nat.ne_of_gt (Nat.add_pos_right t (by decide))
    · rw [huntil2, huntil]
      exact hlate
  · obtain ⟨ctx, op⟩ := i
    subst hop
    obtain ⟨⟨r, s'⟩, hset, hout⟩ := bind_eq_ok_iff.mp hperf
    cases hout
    obtain ⟨-, hiff⟩ :=
      (setFastSyncPeerTransportVerified_follows h2.inv ctx.now false).of_ok hset
    rw [hiff] at hin3
    refine hin3.2 ⟨rfl, rfl, hne, ?_⟩
    rw [hp2, map_some, hhash2]

/-- A block that is in flight from the peer but is not its pending offer is not bounded: the expiry
of the pending offer does not release it. -/
theorem not_bounded_of_not_pending (h1 : σ1.Wf) (ctx : Ctx) (hp : σ1.net.state? p = some state)
    (hin : σ1.net.InFlight hash p it) (hne : state.hashFastSyncPendingBlock = hash → hash = 0) :
    ¬ Bounded ctx.now p hash σ1 := by
  intro hbounded
  obtain ⟨⟨b, s'⟩, hexp, -, -, hiff, -⟩ := (expireFastSyncPendingBlock_spec h1.inv hp
    (ctx.now + fastSyncUdpTransferTimeoutUs + 1)).exists_ok
  have hstep : step σ1 ({ ctx with now := ctx.now + fastSyncUdpTransferTimeoutUs + 1 },
      .expireFastSyncPendingBlock p) = .ok (σ1.next s' [], {}) := by
    simp only [step, perform, hexp, ok_bind]
    rfl
  have hin' : s'.InFlight hash p it := by
    rw [hiff]
    refine ⟨hin, ?_⟩
    rintro ⟨-, heq, hne0, -⟩
    exact hne0 (hne heq.symm)
  exact hbounded it hin σ1 .init _ _ _ (.inl ⟨rfl, Nat.lt_succ_self _⟩) hstep _ .init hin'

/-- A block added to the queue of a peer without a pending offer is not bounded. -/
theorem not_bounded_of_added (h1 : σ1.Wf) (ctx : Ctx) {q : QueuedBlock}
    (hadd : σ1.net = s.addInFlight ctx.now p state q) (hpend : state.hashFastSyncPendingBlock = 0) :
    ¬ Bounded ctx.now p q.hash σ1 := by
  have hp : σ1.net.state? p = some (state.addEntry ctx.now s.nextIter q) := by
    rw [hadd, state?_addInFlight, if_pos rfl]
  have hin : σ1.net.InFlight q.hash p s.nextIter := by
    rw [hadd]
    exact (inFlight_addInFlight ..).mpr (.inl ⟨rfl, rfl, rfl⟩)
  exact not_bounded_of_not_pending h1 ctx hp hin fun heq => heq.symm.trans hpend

/-- The candidate for the next block is chosen without touching the pending offer. -/
theorem NetState.nextCandidate_pending {reason' : String} (hp : s.state? p = some state)
    (h : s.nextCandidate ctx p state reason = .ok ((some b, reason'), s')) :
    ∃ state', s'.state? p = some state' ∧
      state'.hashFastSyncPendingBlock = state.hashFastSyncPendingBlock := by
  rcases nextCandidate_spec hp h with ⟨-, rfl, -⟩ | ⟨-, -, -, state', hr, rfl⟩
  · exact ⟨state, hp, rfl⟩
  · exact ⟨state', state?_setState_self .., hr.pending_eq⟩

/-- A success of `ReserveFastSyncBlockInFlight` is not bounded. -/
theorem reserveFastSyncBlockInFlight_not_bounded (hσ : σ.Wf) (hσ1 : σ1.Wf) {height : Int}
    {r : Reservation}
    (h : σ.net.reserveFastSyncBlockInFlight ctx p height hashOut reason = .ok (r, σ1.net))
    (hr : r.reserved) : ¬ Bounded ctx.now p r.hashOut σ1 := by
  obtain ⟨-, hnew⟩ :=
    (reserveFastSyncBlockInFlight_follows hσ.inv height hashOut reason).of_ok h
  obtain ⟨hnone, hin, hpend⟩ := hnew hr
  obtain ⟨state1, q, hp1, -⟩ := hσ1.inv.entry hin
  refine not_bounded_of_not_pending hσ1 ctx hp1 hin ?_
  intro heq
  by_contra hne
  -- The pending offer was in flight before; the reserved block was not.
  rw [hp1, map_some, heq, eq_comm, map_eq_some_iff] at hpend
  obtain ⟨state, hp, heq'⟩ := hpend
  obtain ⟨it, hit⟩ := hσ.inv.pending p state hp (heq' ▸ hne)
  rw [NetState.InFlight, heq', hnone] at hit
  cases hit

/-- A success of `ReserveNextFastSyncBlockInFlight` is bounded exactly when it claims an offer. -/
theorem reserveNextFastSyncBlockInFlight_bounded_iff (hσ : σ.Wf) (hσ1 : σ1.Wf) {r : NextReservation}
    (h : σ.net.reserveNextFastSyncBlockInFlight ctx p hashOut reason = .ok (r, σ1.net))
    (hr : r.reserved) :
    Bounded ctx.now p r.hashOut σ1 ↔
      ClaimsOffer σ.net (ctx, .reserveNextFastSyncBlockInFlight p hashOut reason) := by
  obtain ⟨b, s1, state1, hexp, hp1, hcase⟩ := reserveNextFastSyncBlockInFlight_reserved h hr
  -- An offer is claimed exactly when one is pending after the expiry of an old one.
  have hclaims : ClaimsOffer σ.net (ctx, .reserveNextFastSyncBlockInFlight p hashOut reason) ↔
      state1.hashFastSyncPendingBlock ≠ 0 := by
    rcases hp : σ.net.state? p with _ | state
    · rw [expireFastSyncPendingBlock, state_eq_error hp] at hexp
      exact absurd hexp (by simp [bind, Except.bind])
    obtain ⟨-, -, -, state', hp', hiff⟩ :=
      (expireFastSyncPendingBlock_spec hσ.inv hp ctx.now).of_ok hexp
    rw [← some.inj (hp'.symm.trans hp1), hiff]
    constructor
    · rintro ⟨p', hashOut', reason', state', hop, hp', hpend⟩
      cases hop
      exact some.inj (hp.symm.trans hp') ▸ hpend
    · exact fun hpend => ⟨p, hashOut, reason, state, rfl, hp, hpend⟩
  rcases hcase with ⟨hpend, hhash, hs1⟩ | ⟨reason', s2, -, hpend, -, hcand, -, hres⟩
  · -- The claim sets the deadline of the transfer.
    refine ⟨fun _ => hclaims.mpr hpend, fun _ => ?_⟩
    have hp' := (congrArg (state? · p) hs1).trans (state?_setState_self ..)
    rw [hhash]
    exact bounded_of_claimed hσ1 hp' rfl hpend rfl rfl
  · -- A new reservation leaves the peer without a pending offer.
    refine ⟨fun hb => absurd hb ?_, fun hc => absurd hpend (hclaims.mp hc)⟩
    obtain ⟨state2, hp2, hpend2⟩ := nextCandidate_pending (state?_setState_self ..) hcand
    rw [(processBlockAvailability_refreshed ctx _).pending_eq, hpend] at hpend2
    exact not_bounded_of_added hσ1 ctx (reserveBlock_eq_addInFlight hp2 hres) hpend2

/-- In every reached state, a reservation is bounded exactly when it claims a block that
`SendMessages` offered. A block reserved by `ReserveFastSyncBlockInFlight`, or newly by
`ReserveNextFastSyncBlockInFlight`, gets no deadline: neither the expiry nor the withdrawal of the
verification releases it. -/
theorem reservation_bounded_iff (σ σ1 : Sys) (i : Ctx × Op) (o : StepOut) (p : NodeId)
    (hash : Uint256) (h : Reaches {} σ) (hop : i.2.reserver = some p)
    (hstep : step σ i = .ok (σ1, o)) (hres : hash ∈ o.reserved) :
    Bounded i.1.now p hash σ1 ↔ ClaimsOffer σ.net i := by
  have hwf := h.wf wf_empty
  obtain ⟨hwf1, -⟩ := step_wf hwf hstep
  obtain ⟨hperf, -⟩ := step_eq_ok hstep
  obtain ⟨ctx, op⟩ := i
  cases op
  case reserveFastSyncBlockInFlight q height hashOut reason =>
    cases hop
    obtain ⟨⟨r, s'⟩, hrun, hout⟩ := bind_eq_ok_iff.mp hperf
    cases hout
    simp only [mem_ite_nil_right, mem_singleton] at hres
    obtain ⟨hr, rfl⟩ := hres
    refine ⟨fun hb => absurd hb (reserveFastSyncBlockInFlight_not_bounded hwf hwf1 hrun hr), ?_⟩
    rintro ⟨p', hashOut', reason', state', hop, -⟩
    exact absurd hop (by simp)
  case reserveNextFastSyncBlockInFlight q hashOut reason =>
    cases hop
    obtain ⟨⟨r, s'⟩, hrun, hout⟩ := bind_eq_ok_iff.mp hperf
    cases hout
    simp only [mem_ite_nil_right, mem_singleton] at hres
    obtain ⟨hr, rfl⟩ := hres
    exact reserveNextFastSyncBlockInFlight_bounded_iff hwf hwf1 hrun hr
  all_goals exact absurd hop (by simp [Op.reserver])

/-- A block that the peer 0 newly reserved is still in flight from it after the transfer timeout has
passed and the expiry has run, and after the verification of the peer was withdrawn. -/
theorem lineReserved_not_released :
    step lineSys (lineCtx 1 0, .reserveNextFastSyncBlockInFlight 0 0 "") =
        .ok (lineReserved, { reserved := [2] }) ∧
      Reaches {} lineSys ∧ ¬ Bounded 0 0 2 lineReserved ∧
      ∃ σ2 σ3 : Sys,
        step lineReserved (lineCtx 1 30000001, .expireFastSyncPendingBlock 0) = .ok (σ2, {}) ∧
        step σ2 (lineCtx 1 30000001, .setFastSyncPeerTransportVerified 0 false) = .ok (σ3, {}) ∧
        σ3.net.InFlight 2 0 0 := by
  refine ⟨lineReserved_step, lineSys_reached, fun hbounded => ?_, _, _, rfl, rfl, rfl⟩
  exact hbounded 0 rfl lineReserved .init (lineCtx 1 30000001, .expireFastSyncPendingBlock 0) _ _
    (.inl ⟨rfl, by decide⟩) rfl _ .init rfl

/-- That reservation claimed no offer, so it is not bounded. -/
theorem reservation_bounded_lineReserved :
    Bounded 0 0 2 lineReserved ↔
      ClaimsOffer lineSys.net (lineCtx 1 0, .reserveNextFastSyncBlockInFlight 0 0 "") :=
  reservation_bounded_iff lineSys lineReserved
    (lineCtx 1 0, .reserveNextFastSyncBlockInFlight 0 0 "") { reserved := [2] } 0 2 lineSys_reached
    rfl lineReserved_step (mem_singleton_self _)

end DefcoinCore.NetProcessing
