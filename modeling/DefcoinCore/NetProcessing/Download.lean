import DefcoinCore.NetProcessing.Marking

/-!
# Choosing blocks to download

`ProcessBlockAvailability`, `UpdateBlockAvailability`, `PeerHasHeader` and
`FindNextBlocksToDownload`. The last one walks from the last block we have in common with the peer
towards its best known block, in stretches of at least 128 blocks, and collects the missing ones;
`fetchOne` is the body of its inner loop, `fetchList` that loop and `fetchLoop` the outer one.

The blocks it returns are eligible (`Eligible`: valid headers, no data, not in the active chain, not
in flight), the peer can serve them (`CanServe`), and their heights rise, so no block is returned
twice. It writes nothing but what it knows of the peer's chain (`Refreshed`).
-/

namespace DefcoinCore.NetProcessing

open List CNodeState

/-! ## What a peer has -/

namespace CNodeState

/-- A block the peer has was found in the index: it becomes the best known one unless the present
one has more work. -/
def noteAvailable (state : CNodeState) (ctx : Ctx) (pindex : Uint256) : CNodeState :=
  match state.pindexBestKnownBlock with
  | none => { state with pindexBestKnownBlock := some pindex }
  | some best =>
    if (ctx.tree.node pindex).nChainWork ≥ (ctx.tree.node best).nChainWork then
      { state with pindexBestKnownBlock := some pindex }
    else state

/-- `LookupBlockIndex(hash)`, where it finds an entry with positive work. -/
def lookupWithWork (ctx : Ctx) (hash : Uint256) : Option Uint256 :=
  (ctx.lookupBlockIndex hash).filter fun pindex => (ctx.tree.node pindex).nChainWork > 0

/-- `ProcessBlockAvailability`: check whether the last unknown block of the peer is known now. -/
def processBlockAvailability (state : CNodeState) (ctx : Ctx) : CNodeState :=
  if state.hashLastUnknownBlock = 0 then state
  else match lookupWithWork ctx state.hashLastUnknownBlock with
    | none => state
    | some pindex => { state.noteAvailable ctx pindex with hashLastUnknownBlock := 0 }

/-- `UpdateBlockAvailability`: the peer announced the block `hash`. -/
def updateBlockAvailability (state : CNodeState) (ctx : Ctx) (hash : Uint256) : CNodeState :=
  let state := state.processBlockAvailability ctx
  match lookupWithWork ctx hash with
  | some pindex => state.noteAvailable ctx pindex
  -- An unknown block was announced; just assume that the latest one is the best one.
  | none => { state with hashLastUnknownBlock := hash }

/-- `PeerHasHeader`. -/
def peerHasHeader (state : CNodeState) (ctx : Ctx) (pindex : Uint256) : Bool :=
  let hasAncestor (from? : Option Uint256) : Bool :=
    match from? with
    | none => false
    | some b => ctx.tree.getAncestor b (ctx.tree.node pindex).nHeight = some pindex
  hasAncestor state.pindexBestKnownBlock || hasAncestor state.pindexBestHeaderSent

/-- Writes `pindexLastCommonBlock`. -/
def setLastCommonBlock (state : CNodeState) (common : Uint256) : CNodeState :=
  { state with pindexLastCommonBlock := some common }

/-- The last common block, or bootstrap quickly by guessing that a parent of our best tip is the
forking point. -/
def guessLastCommonBlock (state : CNodeState) (ctx : Ctx) (best : Uint256) : Option Uint256 :=
  match state.pindexLastCommonBlock with
  | none => ctx.chainActive.get (min ((ctx.tree.node best).nHeight : Int) ctx.chainActive.height)
  | some common => some common

end CNodeState

/-! ## `FindNextBlocksToDownload` -/

/-- The variables of the loops of `FindNextBlocksToDownload`. -/
structure FetchState where
  vBlocks : List Uint256 := []
  pindexLastCommonBlock : Uint256
  /-- The owner of the first block seen that is in flight, or `-1`. -/
  waitingfor : NodeId := -1
  /-- The peer that stalls the window, or `-1`. -/
  nodeStaller : NodeId := -1

section Fetch

variable (ctx : Ctx) (s : NetState) (nodeid : NodeId) (state : CNodeState) (count : Nat)

/-- The body of the inner loop: whether the function returns here, and the variables. -/
def fetchOne (nWindowEnd : Nat) (acc : FetchState) (pindex : Uint256) : Bool × FetchState :=
  let b := ctx.tree.node pindex
  -- We consider the chain that this peer is on invalid.
  if ¬ b.isValid blockValidTree then (true, acc)
  -- We wouldn't download this block or its descendants from this peer.
  else if ¬ state.fHaveWitness ∧ ctx.isWitnessEnabled b.pprev then (true, acc)
  else if ¬ state.fHaveMWEB ∧ ctx.isMWEBEnabled b.pprev then (true, acc)
  else if b.haveData ∨ ctx.chainActive.contains ctx.tree pindex then
    (false, if b.haveTxsDownloaded then { acc with pindexLastCommonBlock := pindex } else acc)
  else match s.mapBlocksInFlight[pindex]? with
    | none =>
      if b.nHeight > nWindowEnd then
        -- We reached the end of the window. With a window one larger we could fetch.
        (true, if acc.vBlocks.length = 0 ∧ acc.waitingfor ≠ nodeid then
          { acc with nodeStaller := acc.waitingfor } else acc)
      else
        let acc := { acc with vBlocks := acc.vBlocks ++ [pindex] }
        (acc.vBlocks.length = count, acc)
    | some (owner, _) =>
      -- This is the first already-in-flight block.
      (false, if acc.waitingfor = -1 then { acc with waitingfor := owner } else acc)

/-- The inner loop, over the blocks of `vToFetch`. -/
def fetchList (nWindowEnd : Nat) : FetchState → List Uint256 → Bool × FetchState
  | acc, [] => (false, acc)
  | acc, pindex :: rest =>
    match fetchOne ctx s nodeid state count nWindowEnd acc pindex with
    | (true, acc) => (true, acc)
    | (false, acc) => fetchList nWindowEnd acc rest

/-- The outer loop. Each round moves `pindexWalk` up by at least one block, so that as many rounds
as there are blocks up to `nMaxHeight` are enough. -/
def fetchLoop (best : Uint256) (nWindowEnd nMaxHeight : Nat) :
    Nat → Uint256 → FetchState → Except Abort FetchState
  | 0, _, acc => .ok acc
  | fuel + 1, pindexWalk, acc =>
    let height := (ctx.tree.node pindexWalk).nHeight
    if height < nMaxHeight then
      let nToFetch := min (nMaxHeight - height) (max (count - acc.vBlocks.length) 128)
      match ctx.tree.getAncestor best (height + nToFetch : Nat) with
      | none => .error .nullBlock
      | some pindexWalk =>
        match fetchList ctx s nodeid state count nWindowEnd acc
            (ctx.tree.pathTo nToFetch pindexWalk) with
        | (true, acc) => .ok acc
        | (false, acc) => fetchLoop best nWindowEnd nMaxHeight fuel pindexWalk acc
    else .ok acc

/-- The part of `FindNextBlocksToDownload` after its gates: fix the last common block and walk
towards the best known block `best` of the peer. -/
def fetchToward (best : Uint256) : Except Abort (List Uint256 × NodeId × CNodeState) := do
  let some guess := state.guessLastCommonBlock ctx best | throw .nullBlock
  let some common := ctx.tree.lastCommonAncestor guess best | throw .nullBlock
  let state := state.setLastCommonBlock common
  if common = best then return ([], -1, state)
  let nWindowEnd := (ctx.tree.node common).nHeight + blockDownloadWindow
  let nMaxHeight := min (ctx.tree.node best).nHeight (nWindowEnd + 1)
  let acc ← fetchLoop ctx s nodeid state count best nWindowEnd nMaxHeight
    (nMaxHeight - (ctx.tree.node common).nHeight) common { pindexLastCommonBlock := common }
  return (acc.vBlocks, acc.nodeStaller, state.setLastCommonBlock acc.pindexLastCommonBlock)

end Fetch

namespace NetState

/-- `FindNextBlocksToDownload`: the blocks to download, at most `count` of them, and the peer that
stalls the window. The callers pass an empty vector and `-1`. -/
def findNextBlocksToDownload (s : NetState) (ctx : Ctx) (nodeid : NodeId) (count : Nat) :
    Except Abort (List Uint256 × NodeId × NetState) := do
  if count = 0 then return ([], -1, s)
  let state ← s.state nodeid
  let state := state.processBlockAvailability ctx
  let s := s.setState nodeid state
  match state.pindexBestKnownBlock with
  | none => return ([], -1, s)
  | some best =>
    let some tipWork := ctx.tipChainWork | throw .nullBlock
    -- This peer has nothing interesting.
    if (ctx.tree.node best).nChainWork < tipWork ∨
        (ctx.tree.node best).nChainWork < ctx.nMinimumChainWork then
      return ([], -1, s)
    let (vBlocks, nodeStaller, state) ← fetchToward ctx s nodeid state count best
    return (vBlocks, nodeStaller, s.setState nodeid state)

end NetState

/-! ## Eligible blocks -/

/-- A block that may be requested at all: a valid header without data, outside the active chain and
not in flight. -/
structure Eligible (ctx : Ctx) (s : NetState) (pindex : Uint256) : Prop where
  valid : (ctx.tree.node pindex).isValid blockValidTree
  noData : (ctx.tree.node pindex).haveData = false
  notActive : ctx.chainActive.contains ctx.tree pindex = false
  notInFlight : s.mapBlocksInFlight[pindex]? = none

/-- The peer can serve the block: it has witnesses and MWEB data where they are enabled. -/
structure CanServe (ctx : Ctx) (state : CNodeState) (pindex : Uint256) : Prop where
  /-- With witnesses enabled after the parent, the peer has them. -/
  witness : ctx.isWitnessEnabled (ctx.tree.node pindex).pprev → state.fHaveWitness
  /-- With MWEB enabled after the parent, the peer has it. -/
  mweb : ctx.isMWEBEnabled (ctx.tree.node pindex).pprev → state.fHaveMWEB

/-- `state'` is `state` with other knowledge of the peer's chain. -/
def Refreshed (state state' : CNodeState) : Prop :=
  ∃ best unknown common, state' = { state with
    pindexBestKnownBlock := best, hashLastUnknownBlock := unknown, pindexLastCommonBlock := common }

variable {state state' : CNodeState} (ctx : Ctx)

theorem noteAvailable_refreshed (state : CNodeState) (pindex : Uint256) :
    Refreshed state (state.noteAvailable ctx pindex) := by
  unfold noteAvailable
  rcases state.pindexBestKnownBlock with _ | best
  · exact ⟨_, _, _, rfl⟩
  · simp only
    split_ifs
    · exact ⟨_, _, _, rfl⟩
    · exact ⟨_, _, _, rfl⟩

theorem Refreshed.refl (state : CNodeState) : Refreshed state state :=
  ⟨_, _, _, rfl⟩

theorem Refreshed.trans {state'' : CNodeState} (h : Refreshed state state')
    (h' : Refreshed state' state'') :
    Refreshed state state'' := by
  obtain ⟨best, unknown, common, rfl⟩ := h
  obtain ⟨best', unknown', common', rfl⟩ := h'
  exact ⟨_, _, _, rfl⟩

theorem setLastCommonBlock_refreshed (state : CNodeState) (common : Uint256) :
    Refreshed state (state.setLastCommonBlock common) :=
  ⟨_, _, _, rfl⟩

/-- Setting the unknown hash refreshes the peer's state. -/
theorem Refreshed.setUnknown (state : CNodeState) (unknown : Uint256) :
    Refreshed state { state with hashLastUnknownBlock := unknown } :=
  ⟨_, _, _, rfl⟩

theorem processBlockAvailability_refreshed (state : CNodeState) :
    Refreshed state (state.processBlockAvailability ctx) := by
  unfold processBlockAvailability
  split_ifs
  · exact .refl state
  · rcases lookupWithWork ctx state.hashLastUnknownBlock with _ | pindex
    · exact .refl state
    · exact (noteAvailable_refreshed ctx state pindex).trans (.setUnknown _ 0)

theorem updateBlockAvailability_refreshed (state : CNodeState) (hash : Uint256) :
    Refreshed state (state.updateBlockAvailability ctx hash) := by
  unfold updateBlockAvailability
  have h := processBlockAvailability_refreshed ctx state
  rcases lookupWithWork ctx hash with _ | pindex
  · exact h.trans (.setUnknown _ hash)
  · exact h.trans (noteAvailable_refreshed ctx _ pindex)

/-- The pending offer is not part of the chain knowledge. -/
theorem Refreshed.pending_eq (h : Refreshed state state') :
    state'.hashFastSyncPendingBlock = state.hashFastSyncPendingBlock := by
  obtain ⟨best, unknown, common, rfl⟩ := h
  rfl

/-- A peer whose chain knowledge is refreshed serves the same blocks. -/
theorem Refreshed.canServe (h : Refreshed state state') (ctx : Ctx) (pindex : Uint256) :
    CanServe ctx state' pindex ↔ CanServe ctx state pindex := by
  obtain ⟨best, unknown, common, rfl⟩ := h
  exact ⟨fun h => ⟨h.witness, h.mweb⟩, fun h => ⟨h.witness, h.mweb⟩⟩

/-! ## What `FindNextBlocksToDownload` returns -/

/-- The collected blocks are eligible, the peer can serve them and their heights rise; a peer that
is waited for has a block in flight. -/
structure Collected (ctx : Ctx) (s : NetState) (state : CNodeState) (acc : FetchState) : Prop where
  eligible : ∀ b ∈ acc.vBlocks, Eligible ctx s b ∧ CanServe ctx state b
  rising : acc.vBlocks.Pairwise fun a b => (ctx.tree.node a).nHeight < (ctx.tree.node b).nHeight
  waiting : acc.waitingfor ≠ -1 → ∃ hash it, s.InFlight hash acc.waitingfor it
  staller : acc.nodeStaller ≠ -1 → ∃ hash it, s.InFlight hash acc.nodeStaller it

/-- All collected blocks are below `pindex`. -/
def FetchState.Below (acc : FetchState) (pindex : Uint256) : Prop :=
  ∀ b ∈ acc.vBlocks, (ctx.tree.node b).nHeight < (ctx.tree.node pindex).nHeight

section Fetch

variable {ctx : Ctx} {s : NetState} {state : CNodeState} {acc : FetchState}
variable (nodeid : NodeId) (count nWindowEnd : Nat)

/-- What one round of the inner loop can do to the variables: nothing to the collected blocks, or
collect a block that passed every gate. -/
theorem fetchOne_cases (ctx : Ctx) (s : NetState) (state : CNodeState) (acc : FetchState)
    (pindex : Uint256) :
    let acc' := (fetchOne ctx s nodeid state count nWindowEnd acc pindex).2
    acc' = acc ∨ acc' = { acc with pindexLastCommonBlock := pindex } ∨
      acc' = { acc with nodeStaller := acc.waitingfor } ∨
      (∃ owner it, s.InFlight pindex owner it ∧ acc' = { acc with waitingfor := owner }) ∨
      (Eligible ctx s pindex ∧ CanServe ctx state pindex ∧
        acc' = { acc with vBlocks := acc.vBlocks ++ [pindex] }) := by
  unfold fetchOne
  by_cases hvalid : (ctx.tree.node pindex).isValid blockValidTree
  swap
  · exact .inl (by simp only [hvalid, Bool.false_eq_true, not_false_eq_true, if_true])
  by_cases hwit : ¬ state.fHaveWitness ∧
      ctx.isWitnessEnabled (ctx.tree.node pindex).pprev
  · exact .inl (by simp only [hvalid, not_true_eq_false, if_false, if_pos hwit])
  by_cases hmweb : ¬ state.fHaveMWEB ∧ ctx.isMWEBEnabled (ctx.tree.node pindex).pprev
  · exact .inl (by simp only [hvalid, not_true_eq_false, if_false, if_neg hwit, if_pos hmweb])
  simp only [hvalid, not_true_eq_false, if_false, if_neg hwit, if_neg hmweb]
  by_cases hdata : (ctx.tree.node pindex).haveData ∨
      ctx.chainActive.contains ctx.tree pindex
  · rw [if_pos hdata]
    by_cases htxs : (ctx.tree.node pindex).haveTxsDownloaded
    · exact .inr (.inl (by rw [if_pos htxs]))
    · exact .inl (by rw [if_neg htxs])
  · rw [if_neg hdata]
    rw [not_or, Bool.not_eq_true, Bool.not_eq_true] at hdata
    rcases hin : s.mapBlocksInFlight[pindex]? with _ | ⟨owner, it⟩
    · by_cases hwin : (ctx.tree.node pindex).nHeight > nWindowEnd
      · simp only [if_pos hwin]
        split_ifs
        · exact .inr (.inr (.inl rfl))
        · exact .inl rfl
      · simp only [if_neg hwin]
        refine .inr (.inr (.inr (.inr ⟨⟨hvalid, hdata.1, hdata.2, hin⟩, ⟨?_, ?_⟩, trivial⟩)))
        · intro hw
          by_contra hno
          exact hwit ⟨hno, hw⟩
        · intro hm
          by_contra hno
          exact hmweb ⟨hno, hm⟩
    · simp only
      split_ifs
      · exact .inr (.inr (.inr (.inl ⟨owner, it, hin, rfl⟩)))
      · exact .inl rfl

/-- One round of the inner loop keeps what is known of the collected blocks, and collects at most
the block of this round. -/
theorem fetchOne_collected (h : Collected ctx s state acc) {pindex : Uint256}
    (hbelow : acc.Below ctx pindex) :
    let acc' := (fetchOne ctx s nodeid state count nWindowEnd acc pindex).2
    Collected ctx s state acc' ∧ acc'.vBlocks ⊆ acc.vBlocks ++ [pindex] := by
  have hcases := fetchOne_cases nodeid count nWindowEnd ctx s state acc pindex
  have hsub := acc.vBlocks.subset_append_left [pindex]
  generalize (fetchOne ctx s nodeid state count nWindowEnd acc pindex).2 = acc' at hcases ⊢
  rcases hcases with rfl | rfl | rfl | ⟨owner, it, hin, rfl⟩ | ⟨helig, hserve, rfl⟩
  · exact ⟨h, hsub⟩
  · exact ⟨⟨h.eligible, h.rising, h.waiting, h.staller⟩, hsub⟩
  · exact ⟨⟨h.eligible, h.rising, h.waiting, h.waiting⟩, hsub⟩
  · exact ⟨⟨h.eligible, h.rising, fun _ => ⟨pindex, it, hin⟩, h.staller⟩, hsub⟩
  · refine ⟨⟨?_, ?_, h.waiting, h.staller⟩, Subset.refl _⟩
    · rw [forall_mem_append, forall_mem_singleton]
      exact ⟨h.eligible, helig, hserve⟩
    · refine pairwise_append.mpr ⟨h.rising, pairwise_singleton _ _, fun a ha => ?_⟩
      exact forall_mem_singleton.mpr (hbelow a ha)

/-- The inner loop over blocks of rising heights, all above those collected before. -/
theorem fetchList_collected (l : List Uint256)
    (hl : l.Pairwise fun a b => (ctx.tree.node a).nHeight < (ctx.tree.node b).nHeight)
    (acc : FetchState) (h : Collected ctx s state acc) (hbelow : ∀ x ∈ l, acc.Below ctx x) :
    let acc' := (fetchList ctx s nodeid state count nWindowEnd acc l).2
    Collected ctx s state acc' ∧ acc'.vBlocks ⊆ acc.vBlocks ++ l := by
  induction l generalizing acc with
  | nil => exact ⟨h, subset_append_left ..⟩
  | cons x l ih =>
    rw [pairwise_cons] at hl
    obtain ⟨h1, hmem1⟩ := fetchOne_collected nodeid count nWindowEnd h (hbelow x mem_cons_self)
    unfold fetchList
    rcases hone : fetchOne ctx s nodeid state count nWindowEnd acc x with ⟨stop, acc1⟩
    rw [hone] at h1 hmem1
    rw [append_cons]
    have hmem := subset_append_of_subset_left l hmem1
    rcases stop
    · -- The loop goes on: the new block is below the rest of the list.
      have hbelow1 : ∀ y ∈ l, acc1.Below ctx y := by
        intro y hy b hb
        rcases mem_append.mp (hmem1 hb) with hb | hb
        · exact hbelow y (mem_cons_of_mem x hy) b hb
        · exact mem_singleton.mp hb ▸ hl.1 y hy
      obtain ⟨h2, hmem2⟩ := ih hl.2 acc1 h1 hbelow1
      exact ⟨h2, Subset.trans hmem2 (append_subset.mpr ⟨hmem, subset_append_right ..⟩)⟩
    · exact ⟨h1, hmem⟩

/-- The outer loop: each stretch starts above the blocks collected so far, and ends at an ancestor
of `best`, which there is up to the height of `best`. -/
theorem fetchLoop_collected {best : Uint256} {nMaxHeight : Nat}
    (hmax : nMaxHeight ≤ (ctx.tree.node best).nHeight) (fuel : Nat) (walk : Uint256)
    (acc : FetchState) (h : Collected ctx s state acc)
    (hlow : ∀ b ∈ acc.vBlocks, (ctx.tree.node b).nHeight ≤ (ctx.tree.node walk).nHeight) :
    Returns (fetchLoop ctx s nodeid state count best nWindowEnd nMaxHeight fuel walk acc)
      (Collected ctx s state) := by
  induction fuel generalizing walk acc with
  | zero => exact h
  | succ fuel ih =>
    unfold fetchLoop
    simp only
    split_ifs with hheight
    · generalize hn : min (nMaxHeight - (ctx.tree.node walk).nHeight)
        (max (count - acc.vBlocks.length) 128) = nToFetch
      have hsome : (ctx.tree.getAncestor best
          ((ctx.tree.node walk).nHeight + nToFetch : Nat)).isSome :=
        ctx.tree.getAncestor_isSome (Int.natCast_nonneg _) (by omega)
      obtain ⟨walk', hanc⟩ := Option.isSome_iff_exists.mp hsome
      have hwalk := ctx.tree.height_getAncestor hanc
      obtain ⟨hsorted, hrange⟩ := ctx.tree.pathTo_sorted nToFetch walk'
      have hbelow : ∀ x ∈ ctx.tree.pathTo nToFetch walk', acc.Below ctx x := by
        intro x hx b hb
        have := hlow b hb
        have := (hrange x hx).2
        omega
      obtain ⟨h1, hmem⟩ := fetchList_collected nodeid count nWindowEnd _ hsorted acc h hbelow
      rw [hanc]
      dsimp only
      rcases hfetch : fetchList ctx s nodeid state count nWindowEnd acc
        (ctx.tree.pathTo nToFetch walk') with ⟨stop, acc1⟩
      rw [hfetch] at h1 hmem
      rcases stop
      · refine ih walk' acc1 h1 fun b hb => ?_
        rcases mem_append.mp (hmem hb) with hb | hb
        · have := hlow b hb
          omega
        · exact (hrange b hb).1
      · exact h1
    · exact h

end Fetch

/-- Blocks to download from a peer: they are eligible, the peer can serve them and their heights
rise; the peer that stalls the window has a block in flight. -/
structure Downloadable (ctx : Ctx) (s : NetState) (state : CNodeState) (v : List Uint256)
    (staller : NodeId) : Prop where
  eligible : ∀ b ∈ v, Eligible ctx s b ∧ CanServe ctx state b
  rising : v.Pairwise fun a b => (ctx.tree.node a).nHeight < (ctx.tree.node b).nHeight
  staller : staller ≠ -1 → ∃ hash it, s.InFlight hash staller it

theorem downloadable_nil (s : NetState) (state : CNodeState) : Downloadable ctx s state [] (-1) :=
  ⟨fun _ hb => absurd hb not_mem_nil, .nil, fun hne => absurd rfl hne⟩

/-- What the walk towards the peer's best block returns. It stops only where there is no last common
block. -/
theorem fetchToward_spec (s : NetState) (p : NodeId) (count : Nat) (state : CNodeState)
    (best : Uint256) :
    Ensures (fetchToward ctx s p state count best)
      (fun r => Downloadable ctx s state r.1 r.2.1 ∧ Refreshed state r.2.2) (· = .nullBlock) := by
  unfold fetchToward
  rcases state.guessLastCommonBlock ctx best with _ | guess
  · exact rfl
  dsimp only
  rcases ctx.tree.lastCommonAncestor guess best with _ | common
  · exact rfl
  dsimp only
  have hset := setLastCommonBlock_refreshed state common
  split_ifs with heq
  · exact ⟨downloadable_nil ctx s state, hset⟩
  generalize state.setLastCommonBlock common = state1 at hset ⊢
  -- The loop starts with nothing collected.
  have hstart : Collected ctx s state1 { pindexLastCommonBlock := common } :=
    ⟨by simp, Pairwise.nil, fun hne => absurd rfl hne, fun hne => absurd rfl hne⟩
  refine (fetchLoop_collected p count _ (min_le_left _ _) _ common _ hstart (by simp)).or_error.bind
    fun acc hcol => ?_
  refine ⟨⟨fun b hb => ?_, hcol.rising, hcol.staller⟩,
    hset.trans (setLastCommonBlock_refreshed _ _)⟩
  obtain ⟨helig, hserve⟩ := hcol.eligible b hb
  exact ⟨helig, (hset.canServe ctx b).mp hserve⟩

namespace NetState

variable {s : NetState} {p : NodeId} {state : CNodeState}

/-- What `FindNextBlocksToDownload` returns and writes for a connected peer. It stops only at a null
block. -/
theorem findNextBlocksToDownload_spec (ctx : Ctx) (count : Nat) (hp : s.state? p = some state) :
    Ensures (s.findNextBlocksToDownload ctx p count)
      (fun r => Downloadable ctx s state r.1 r.2.1 ∧
        ∃ state', Refreshed state state' ∧ r.2.2 = s.setState p state') (· = .nullBlock) := by
  have hrefresh := processBlockAvailability_refreshed ctx state
  unfold findNextBlocksToDownload
  rw [state_eq_ok_iff.mpr hp, ok_bind]
  generalize state.processBlockAvailability ctx = state1 at hrefresh ⊢
  split_ifs with hcount
  · exact ⟨downloadable_nil ctx s state, state, .refl state, (setState_self hp).symm⟩
  dsimp only
  rcases state1.pindexBestKnownBlock with _ | best
  · exact ⟨downloadable_nil ctx s state, state1, hrefresh, rfl⟩
  rcases ctx.tipChainWork with _ | tipWork
  · exact rfl
  dsimp only
  split_ifs with hwork
  · exact ⟨downloadable_nil ctx s state, state1, hrefresh, rfl⟩
  refine (fetchToward_spec ctx (s.setState p state1) p count state1 best).bind ?_
  rintro ⟨v, staller, state2⟩ ⟨hdown, hr⟩
  refine ⟨⟨fun b hb => ?_, hdown.rising, hdown.staller⟩, state2, hrefresh.trans hr,
    setState_setState ..⟩
  obtain ⟨he, hserve⟩ := hdown.eligible b hb
  exact ⟨⟨he.valid, he.noData, he.notActive, he.notInFlight⟩, (hrefresh.canServe ctx b).mp hserve⟩

/-- Refreshing what is known of a peer's chain keeps the invariant. -/
theorem setState_refreshed_follows (hs : Inv s) {state' : CNodeState} (hp : s.state? p = some state)
    (hr : Refreshed state state') :
    Follows s (s.setState p state') := by
  obtain ⟨best, unknown, common, rfl⟩ := hr
  exact setState_unread hs hp ⟨rfl, rfl, rfl⟩ rfl rfl rfl

/-- For a connected peer `FindNextBlocksToDownload` keeps the invariant, or stops at a null block.
-/
theorem findNextBlocksToDownload_follows (hs : Inv s) {ctx : Ctx} {count : Nat}
    (hp : s.state? p = some state) :
    Ensures (s.findNextBlocksToDownload ctx p count) (fun r => Follows s r.2.2)
      (· = .nullBlock) := by
  refine (findNextBlocksToDownload_spec ctx count hp).imp ?_
  rintro r ⟨-, state', hr, heq⟩
  rw [heq]
  exact setState_refreshed_follows hs hp hr

end NetState

end DefcoinCore.NetProcessing
