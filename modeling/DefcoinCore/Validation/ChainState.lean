import DefcoinCore.Consensus.Validation
import DefcoinCore.Lib.Forest
import DefcoinCore.Lib.OrderedSet

/-!
# The chain state

`CChainState` and its `BlockManager`: the entries of the block index, the active chain, the
candidates for its tip, the blocks that wait for the data of an ancestor, and the blocks that
failed. The functions of `validation.cpp` that change them are here, each under its name.

A `CBlockIndex*` is named by a number. Two pointers are compared as their names are; which block has
which name is arbitrary, as addresses are. `nStatus` is a record with a field for each flag. The
candidates are listed in the order in which their `std::set` is iterated over. Its comparison reads
the entries, so a change of an entry may leave the set out of order; what `insert` and `erase` do is
then open (`SetContract`). Verdicts of checks that read block data are inputs. An assertion of the
source that fails is an error.
-/

namespace DefcoinCore

/-! ## Entries -/

/-- `nStatus`. -/
structure BlockStatus where
  /-- The level under `BLOCK_VALID_MASK`: 2 for `BLOCK_VALID_TREE`, 3 for
  `BLOCK_VALID_TRANSACTIONS`, 4 for `BLOCK_VALID_CHAIN` and 5 for `BLOCK_VALID_SCRIPTS`. -/
  valid : Nat
  haveData : Bool
  haveUndo : Bool
  failedValid : Bool
  failedChild : Bool
  optWitness : Bool
  deriving DecidableEq

/-- `nStatus & BLOCK_FAILED_MASK`. -/
def BlockStatus.failed (status : BlockStatus) : Bool := status.failedValid || status.failedChild

/-- `CBlockIndex::RaiseValidity`. -/
def BlockStatus.raiseValidity (status : BlockStatus) (nUpTo : Nat) : BlockStatus :=
  if status.failed then status else { status with valid := max status.valid nUpTo }

/-- A `CBlockIndex`, with the fields that the functions below read. -/
structure BlockEntry where
  pprev : Option Uint256
  nHeight : Nat
  nChainWork : Nat
  nTx : Nat
  nChainTx : Nat
  status : BlockStatus
  nSequenceId : Int
  deriving DecidableEq

/-- `CBlockIndex::HaveTxsDownloaded`. -/
def BlockEntry.haveTxsDownloaded (entry : BlockEntry) : Bool := entry.nChainTx ≠ 0

/-- `CBlockIndex::IsValid`. -/
def BlockEntry.isValid (entry : BlockEntry) (nUpTo : Nat) : Bool :=
  !entry.status.failed && nUpTo ≤ entry.status.valid

structure CChainState where
  m_block_index : List Uint256
  /-- The entry behind a pointer. -/
  node : Uint256 → BlockEntry
  /-- The pairs of `m_blocks_unlinked`: a parent, and a block that waits for it. -/
  m_blocks_unlinked : List (Uint256 × Uint256)
  m_failed_blocks : List Uint256
  /-- The active chain, from the genesis block. -/
  vChain : List Uint256
  /-- In the order of iteration. -/
  setBlockIndexCandidates : List Uint256
  nBlockSequenceId : Int

namespace CChainState

variable (s : CChainState) (b : Uint256)

/-- The predecessor of a block. -/
def parent : Option Uint256 := (s.node b).pprev

/-- An entry is changed. -/
def modify (f : BlockEntry → BlockEntry) : CChainState :=
  { s with node := Function.update s.node b (f (s.node b)) }

/-- `m_chain.Tip()`. -/
def tip : Option Uint256 := s.vChain.getLast?

/-- `m_chain.Contains`. -/
def contains : Bool := s.vChain[(s.node b).nHeight]? = some b

/-- `CBlockIndexWorkComparator`: `a` is worse than `b`. -/
def worse (a b : Uint256) : Bool :=
  let pa := s.node a
  let pb := s.node b
  if pa.nChainWork > pb.nChainWork then false
  else if pa.nChainWork < pb.nChainWork then true
  else if pa.nSequenceId < pb.nSequenceId then false
  else if pa.nSequenceId > pb.nSequenceId then true
  else decide (b < a)

/-- The first entry of `setBlockIndexCandidates` in reverse order. -/
def bestCandidate : Option Uint256 := s.setBlockIndexCandidates.getLast?

variable (std : SetContract Uint256)

/-- `setBlockIndexCandidates.insert`. -/
def insertCandidate : CChainState :=
  { s with setBlockIndexCandidates := std.insert s.worse s.setBlockIndexCandidates b }

/-- `setBlockIndexCandidates.erase`. -/
def eraseCandidate : CChainState :=
  { s with setBlockIndexCandidates := std.erase s.worse s.setBlockIndexCandidates b }

/-- The blocks from the genesis block to a block, by at most `k` steps of `pprev`. -/
abbrev pathTo (k : Nat) (b : Uint256) : List Uint256 := Forest.pathTo s.parent k b

/-- `m_chain.SetTip`. The source stops as soon as a block is in its place already: what is below it
is then the same path. -/
def setTip (pindex : Option Uint256) : CChainState :=
  { s with vChain := match pindex with
      | some b => s.pathTo ((s.node b).nHeight + 1) b
      | none => [] }

end CChainState

/-- An assertion of the source. -/
def assertThat (cond : Bool) (what : String) : Except String Unit := reject (!cond) what

namespace CChainState

/-! ## Block data is taken away -/

variable (s : CChainState) (std : SetContract Uint256)

/-- The entry that is left of an erased block. -/
def erasedEntry (entry : BlockEntry) : BlockEntry :=
  { entry with
    status := { entry.status with
      valid := min entry.status.valid 2, haveData := false, haveUndo := false }
    nTx := 0
    nChainTx := 0
    nSequenceId := 0 }

/-- The loop of `EraseBlockData` over `m_blocks_unlinked`. -/
def eraseUnlinked (index : Uint256) : CChainState :=
  { s with m_blocks_unlinked := s.m_blocks_unlinked.filter fun pair =>
    !(some pair.1 = s.parent index && pair.2 = index) }

/-- The parent is eligible for the active chain again. -/
def restoreParent (index : Uint256) : CChainState :=
  match s.parent index with
  | some p => if (s.node p).isValid 3 && (s.node p).haveTxsDownloaded then s.insertCandidate p
    std else s
  | none => s

/-- `EraseBlockData`, after its assertion. The sequence id, which the candidates are ordered by, is
reset before the block is looked up among them. -/
def eraseData (index : Uint256) : CChainState :=
  (((s.modify index erasedEntry).eraseCandidate index std).eraseUnlinked index).restoreParent
    std index

/-- `EraseBlockData`. -/
def eraseBlockData (index : Uint256) : Except String CChainState := do
  assertThat (!s.contains index) "!m_chain.Contains(index)"
  pure (s.eraseData std index)

/-! ## The choice of the best chain -/

/-- The inner loop of `FindMostWorkChain`, with `k` rounds left: the first block on the way down to
the active chain that failed or has no data. -/
def badOnPath (s : CChainState) : Nat → Option Uint256 → Except String (Option Uint256)
  | 0, _ => .ok none
  | _ + 1, none => .ok none
  | k + 1, some pindexTest =>
    if s.contains pindexTest then .ok none
    else do
      assertThat ((s.node pindexTest).haveTxsDownloaded || (s.node pindexTest).nHeight = 0)
        "pindexTest->HaveTxsDownloaded() || pindexTest->nHeight == 0"
      if (s.node pindexTest).status.failed || !(s.node pindexTest).status.haveData then
        .ok (some pindexTest)
      else badOnPath s k (s.parent pindexTest)

/-- A block above a bad one is marked as failed, or put back among those that wait for data. -/
def dropBlock (fFailedChain : Bool) (pindexFailed : Uint256) : CChainState :=
  let s :=
    if fFailedChain then
      s.modify pindexFailed fun entry =>
        { entry with status := { entry.status with failedChild := true } }
    else
      match s.parent pindexFailed with
      | some p => { s with m_blocks_unlinked := s.m_blocks_unlinked ++ [(p, pindexFailed)] }
      | none => s
  s.eraseCandidate pindexFailed std

/-- The loop that takes a bad chain off the candidates, with `k` rounds left. -/
def dropChain (std : SetContract Uint256) (fFailedChain : Bool) (pindexTest : Uint256) : Nat →
    Uint256 → CChainState → CChainState
  | 0, _, s => s
  | k + 1, pindexFailed, s =>
    if pindexFailed = pindexTest then s
    else
      let s' := s.dropBlock std fFailedChain pindexFailed
      match s'.parent pindexFailed with
      | some p => dropChain std fFailedChain pindexTest k p s'
      | none => s'

/-- `FindMostWorkChain`, with `k` rounds left. -/
def findMostWorkLoop (std : SetContract Uint256) : Nat → CChainState →
    Except String (Option Uint256 × CChainState)
  | 0, s => .ok (none, s)
  | k + 1, s =>
    match s.bestCandidate with
    | none => .ok (none, s)
    | some pindexNew => do
      match ← s.badOnPath ((s.node pindexNew).nHeight + 1) (some pindexNew) with
      | none => .ok (some pindexNew, s)
      | some pindexTest =>
        let s' := dropChain std (s.node pindexTest).status.failed pindexTest
          ((s.node pindexNew).nHeight + 1) pindexNew s
        findMostWorkLoop std k (s'.eraseCandidate pindexTest std)

/-- `FindMostWorkChain`. Each round takes a candidate away. -/
def findMostWorkChain : Except String (Option Uint256 × CChainState) :=
  findMostWorkLoop std (s.setBlockIndexCandidates.length + 1) s

/-- What `ConnectBlock` says about a block. -/
inductive ConnectResult where
  | connected
  /-- The block breaks the consensus rules. -/
  | invalid
  /-- `BLOCK_MUTATED`. -/
  | mutated
  deriving DecidableEq

/-- `InvalidBlockFound`, for a result other than `BLOCK_MUTATED`. -/
def invalidBlockFound (pindex : Uint256) : CChainState :=
  let s := s.modify pindex fun entry =>
    { entry with status := { entry.status with failedValid := true } }
  let s := { s with m_failed_blocks := s.m_failed_blocks.insert pindex }
  s.eraseCandidate pindex std

/-- What `ConnectBlock` writes to the entry of a block that it connects; the genesis block is left
as it is. -/
def connectEntry (entry : BlockEntry) : BlockEntry :=
  match entry.pprev with
  | some _ => { entry with status := ({ entry.status with haveUndo := true }).raiseValidity 5 }
  | none => entry

/-- `ConnectTip`: whether the block was connected. -/
def connectTip (pindexNew : Uint256) (result : ConnectResult) :
    Except String (Bool × CChainState) := do
  assertThat (s.parent pindexNew = s.tip) "pindexNew->pprev == m_chain.Tip()"
  match result with
  | .connected => pure (true, (s.modify pindexNew connectEntry).setTip (some pindexNew))
  | .invalid => pure (false, s.invalidBlockFound std pindexNew)
  | .mutated => do
    let s' ← s.eraseBlockData std pindexNew
    pure (false, s')

/-- `DisconnectTip`, when the block and its undo data can be read and applied. -/
def disconnectTip : Except String CChainState :=
  match s.tip with
  | some pindexDelete => .ok (s.setTip (s.parent pindexDelete))
  | none => .error "pindexDelete"

/-! ## Rewinding -/

/-- `IsWitnessEnabled`: for a block with a given predecessor. -/
def isWitnessEnabled (segwitHeight : Int) (pindexPrev : Option Uint256) : Bool :=
  let height : Int := match pindexPrev with
    | some p => (s.node p).nHeight + 1
    | none => 0
  height ≥ segwitHeight

end CChainState

end DefcoinCore
