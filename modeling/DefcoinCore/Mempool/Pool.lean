import DefcoinCore.Lib.Reach
import DefcoinCore.Primitives.Block
import Mathlib.Algebra.Group.TransferInstance
import Mathlib.Algebra.Group.Prod
import Mathlib.Algebra.Group.Int.Defs

/-!
# The memory pool

`CTxMemPool` of `txmempool.cpp`: transactions that wait for a block, linked to those they spend from
and to those that spend from them, with running totals over all ancestors and all descendants of
each.

An iterator or a reference to an entry is the id of its transaction; following one whose entry is
gone is a fault, and so is an assertion that fails. The order of `std::set` and `std::map` is that
of the ids; the order of `mapTx`, which depends on a random salt, is an argument where a function
runs through it.
-/

namespace DefcoinCore

open Std

/-! ## Inputs and outputs -/

/-- `OutputIndex`: an output of a transaction, or one of the extension block. -/
inductive OutputIndex where
  | canonical (outpoint : COutPoint)
  | mweb (output_id : Mweb.Hash)
  deriving DecidableEq

namespace OutputIndex

/-- Which alternative of the variant it is. -/
def which : OutputIndex → Nat
  | .canonical _ => 0
  | .mweb _ => 1

/-- What is compared between two values of the same alternative. -/
def point : OutputIndex → COutPoint
  | .canonical outpoint => outpoint
  | .mweb output_id => ⟨output_id, 0⟩

/-- `operator<` of a variant: by the alternative, then by the value. -/
instance : Ord OutputIndex := ⟨compareLex (compareOn which) (compareOn point)⟩

instance : TransOrd OutputIndex :=
  inferInstanceAs (TransCmp (compareLex (compareOn which) (compareOn point)))

instance : LawfulEqOrd OutputIndex where
  eq_of_compare {a b} h := by
    have hlex : (compare a.which b.which).then (compare a.point b.point) = .eq := h
    rw [Ordering.then_eq_eq, Std.compare_eq_iff_eq, Std.compare_eq_iff_eq] at hlex
    cases a with
    | canonical p =>
      cases b with
      | canonical q => exact congrArg _ hlex.2
      | mweb q => exact absurd hlex.1 Nat.zero_ne_one
    | mweb p =>
      cases b with
      | canonical q => exact absurd hlex.1 Nat.one_ne_zero
      | mweb q => exact congrArg (fun o : COutPoint => OutputIndex.mweb o.hash) hlex.2

end OutputIndex

/-- A `std::set` of ids, as the list of its elements. -/
def idSet (ids : List Mweb.Hash) : List Mweb.Hash :=
  (ids.foldl (fun s id => s.insert id) (∅ : StdSet Mweb.Hash)).toList

theorem mem_idSet {ids : List Mweb.Hash} {id : Mweb.Hash} : id ∈ idSet ids ↔ id ∈ ids := by
  rw [idSet, ExtTreeSet.mem_toList, StdSet.mem_foldl_insert]
  exact or_iff_left ExtTreeSet.not_mem_empty

namespace CTransaction

variable (tx : CTransaction)

/-- `MWEB::Tx::GetSpentIDs`. -/
def getSpentIDs : List Mweb.Hash :=
  idSet (tx.mweb_tx.elim [] fun mweb_tx => mweb_tx.body.inputs.map (·.outputID))

/-- `MWEB::Tx::GetOutputIDs`. -/
def getOutputIDs : List Mweb.Hash :=
  idSet (tx.mweb_tx.elim [] fun mweb_tx => mweb_tx.body.outputs.map (·.hash))

/-- `MWEB::Tx::GetKernelIDs`. -/
def getKernelIDs : List Mweb.Hash :=
  idSet (tx.mweb_tx.elim [] fun mweb_tx => mweb_tx.body.kernels.map (·.hash))

/-- `CTransaction::GetInputs`, by what they spend. -/
def getInputs : List OutputIndex :=
  (tx.vin.map fun txin => .canonical txin.prevout) ++ tx.getSpentIDs.map .mweb

/-- `CTransaction::GetOutputs`, by their indexes. -/
def getOutputs : List OutputIndex :=
  ((List.range tx.vout.length).map fun n => .canonical (tx.outPoint n)) ++ tx.getOutputIDs.map .mweb

theorem canonical_mem_getOutputs {outpoint : COutPoint} :
    .canonical outpoint ∈ tx.getOutputs ↔ outpoint.hash = tx.hash ∧
      outpoint.n.toNat < tx.vout.length := by
  rw [getOutputs, List.mem_append, List.mem_map, List.mem_map]
  constructor
  · rintro (⟨n, hn, heq⟩ | ⟨_, -, heq⟩)
    · rw [List.mem_range] at hn
      obtain rfl := OutputIndex.canonical.inj heq
      refine ⟨rfl, Nat.lt_of_le_of_lt ?_ hn⟩
      exact Nat.mod_le _ _
    · cases heq
  · rintro ⟨hhash, hn⟩
    refine .inl ⟨outpoint.n.toNat, List.mem_range.mpr hn, ?_⟩
    rw [outPoint, ← hhash, UInt32.ofNat_toNat]

theorem mweb_mem_getOutputs {output_id : Mweb.Hash} :
    .mweb output_id ∈ tx.getOutputs ↔ output_id ∈ tx.getOutputIDs := by
  simp [getOutputs]

end CTransaction

/-! ## Entries -/

namespace Mempool

/-- Numbers over a package of transactions. -/
structure PackageState where
  count : Int
  size : Int
  modFees : Int
  mwebWeight : Int
  deriving DecidableEq

namespace PackageState

/-- The four numbers. -/
def equiv : PackageState ≃ Int × Int × Int × Int where
  toFun s := (s.count, s.size, s.modFees, s.mwebWeight)
  invFun t := ⟨t.1, t.2.1, t.2.2.1, t.2.2.2⟩
  left_inv _ := rfl
  right_inv _ := rfl

instance : AddCommGroup PackageState := equiv.addCommGroup

variable (s t : PackageState)

/-- What the updates of a package assert. -/
def valid : Bool := 0 ≤ s.size ∧ 0 < s.count ∧ 0 ≤ s.mwebWeight

end PackageState

/-- How the pool can fail. -/
inductive Fault where
  | assertion
  /-- An iterator or a reference whose entry is gone. -/
  | dangling
  deriving DecidableEq

/-- What is fixed about an entry when it is made. -/
structure EntryInfo where
  tx : CTransaction
  nFee : Int
  nTxWeight : Nat
  mweb_weight : Nat
  nUsageSize : Nat
  nTime : Int
  sigOpCost : Nat
  /-- `GetTxSize`: the virtual size, from the weight and the cost of the signature operations. -/
  txSize : Nat
  weight_le : nTxWeight ≤ 4 * txSize

/-- `CTxMemPoolEntry`. -/
structure CTxMemPoolEntry extends EntryInfo where
  feeDelta : Int
  withDescendants : PackageState
  withAncestors : PackageState
  nSigOpCostWithAncestors : Int
  m_parents : StdSet Uint256
  m_children : StdSet Uint256
  vTxHashesIdx : Nat

namespace CTxMemPoolEntry

/-- The constructor. -/
def new (info : EntryInfo) : CTxMemPoolEntry where
  toEntryInfo := info
  feeDelta := 0
  withDescendants := ⟨1, info.txSize, info.nFee, info.mweb_weight⟩
  withAncestors := ⟨1, info.txSize, info.nFee, info.mweb_weight⟩
  nSigOpCostWithAncestors := info.sigOpCost
  m_parents := ∅
  m_children := ∅
  vTxHashesIdx := 0

variable (entry : CTxMemPoolEntry)

/-- `GetModifiedFee`. -/
def getModifiedFee : Int := entry.nFee + entry.feeDelta

/-- The entry alone, as a package. -/
def own : PackageState := ⟨1, entry.txSize, entry.getModifiedFee, entry.mweb_weight⟩

/-- `UpdateFeeDelta`. -/
def updateFeeDelta (newFeeDelta : Int) : CTxMemPoolEntry :=
  { entry with
    withDescendants := entry.withDescendants + ⟨0, 0, newFeeDelta - entry.feeDelta, 0⟩
    withAncestors := entry.withAncestors + ⟨0, 0, newFeeDelta - entry.feeDelta, 0⟩
    feeDelta := newFeeDelta }

/-- `UpdateDescendantState`. -/
def updateDescendantState (modify : PackageState) : Except Fault CTxMemPoolEntry := do
  let withDescendants := entry.withDescendants + modify
  reject (!withDescendants.valid) .assertion
  pure { entry with withDescendants := withDescendants }

/-- `UpdateAncestorState`. -/
def updateAncestorState (modify : PackageState) (modifySigOps : Int) :
    Except Fault CTxMemPoolEntry := do
  let withAncestors := entry.withAncestors + modify
  let nSigOpCostWithAncestors := entry.nSigOpCostWithAncestors + modifySigOps
  reject (!withAncestors.valid || nSigOpCostWithAncestors < 0) .assertion
  pure { entry with
    withAncestors := withAncestors
    nSigOpCostWithAncestors := nSigOpCostWithAncestors }

end CTxMemPoolEntry

/-- `FIFOCache`: the newest item first. -/
abbrev FIFOCache (K V : Type) := List (K × V)

namespace FIFOCache

variable {K V : Type} [DecidableEq K]

/-- `Put`: an item that is there gets the value, a new one displaces the oldest if the cache is
full. -/
def put (max_cache_size : Nat) (cache : FIFOCache K V) (key : K) (value : V) : FIFOCache K V :=
  if cache.any fun item => item.1 = key then
    cache.map fun item => if item.1 = key then (key, value) else item
  else (key, value) :: if cache.length + 1 > max_cache_size then cache.dropLast else cache

/-- `Cached` and `Get`. -/
def get? (cache : FIFOCache K V) (key : K) : Option V :=
  (cache.find? fun item => item.1 = key).map Prod.snd

end FIFOCache

/-- `DEFAULT_MEMPOOL_MWEB_CACHE_SIZE`. -/
def defaultMempoolMwebCacheSize : Nat := 1000

/-- `CTxMemPool`. A pointer to a transaction of the pool is its id. -/
structure CTxMemPool where
  mapTx : StdMap Uint256 CTxMemPoolEntry
  mapNextTx : StdMap OutputIndex Uint256
  mapTxOutputs_MWEB : StdMap Mweb.Hash Uint256
  mapDeltas : StdMap Uint256 Int
  /-- The witness hash and the iterator of each entry. -/
  vTxHashes : List (Uint256 × Uint256)
  totalTxSize : Int
  cachedInnerUsage : Int
  recentTxsByKernel : FIFOCache Mweb.Hash CTransaction

/-- The memory of a node of a set of entries: `IncrementalDynamicUsage`. -/
def setNodeUsage : Int := 64

/-- `MemPoolRemovalReason`. -/
inductive MemPoolRemovalReason where
  | expiry
  | sizeLimit
  | reorg
  | block
  | conflict
  | replaced
  deriving DecidableEq

/-- The limits of `CalculateMemPoolAncestors`. -/
structure Limits where
  ancestorCount : Nat
  ancestorSize : Int
  descendantCount : Int
  descendantSize : Int

/-- The errors of `CalculateMemPoolAncestors`: the limit, and the transaction if one is named. -/
inductive LimitError where
  /-- "too many unconfirmed parents" -/
  | parents (limit : Nat)
  /-- "exceeds descendant size limit for tx" -/
  | descendantSize (hash : Uint256) (limit : Int)
  /-- "too many descendants for tx" -/
  | descendants (hash : Uint256) (limit : Int)
  /-- "exceeds ancestor size limit" -/
  | ancestorSize (limit : Int)
  /-- "too many unconfirmed ancestors" -/
  | ancestors (limit : Nat)
  deriving DecidableEq

namespace CTxMemPool

/-- A new pool. -/
def empty : CTxMemPool := ⟨∅, ∅, ∅, ∅, [], 0, 0, []⟩

variable (pool : CTxMemPool)

/-- `mapTx.modify`. -/
def modify (id : Uint256) (f : CTxMemPoolEntry → Except Fault CTxMemPoolEntry) :
    Except Fault CTxMemPool :=
  match pool.mapTx[id]? with
  | none => .error .dangling
  | some entry => do
    let entry ← f entry
    pure { pool with mapTx := pool.mapTx.insert id entry }

/-- The children of an entry. -/
def childrenOf (id : Uint256) : StdSet Uint256 := (pool.mapTx[id]?).elim ∅ (·.m_children)

/-- The parents of an entry. -/
def parentsOf (id : Uint256) : StdSet Uint256 := (pool.mapTx[id]?).elim ∅ (·.m_parents)

/-- One element of a set of links is added or taken off, and the memory is counted. -/
def updateSet (s : StdSet Uint256) (id : Uint256) (add : Bool) : StdSet Uint256 × Int :=
  if add then if id ∈ s then (s, 0) else (s.insert id, setNodeUsage)
  else if id ∈ s then (s.erase id, -setNodeUsage) else (s, 0)

/-- `UpdateChild`. -/
def updateChild (id child : Uint256) (add : Bool) : Except Fault CTxMemPool :=
  match pool.mapTx[id]? with
  | none => .error .dangling
  | some entry =>
    let updated := updateSet entry.m_children child add
    .ok { pool with
      mapTx := pool.mapTx.insert id { entry with m_children := updated.1 }
      cachedInnerUsage := pool.cachedInnerUsage + updated.2 }

/-- `UpdateParent`. -/
def updateParent (id parent : Uint256) (add : Bool) : Except Fault CTxMemPool :=
  match pool.mapTx[id]? with
  | none => .error .dangling
  | some entry =>
    let updated := updateSet entry.m_parents parent add
    .ok { pool with
      mapTx := pool.mapTx.insert id { entry with m_parents := updated.1 }
      cachedInnerUsage := pool.cachedInnerUsage + updated.2 }

/-- `GetIter` of an input. -/
def getIter : OutputIndex → Option Uint256
  | .mweb output_id => pool.mapTxOutputs_MWEB[output_id]?.filter fun hash =>
    pool.mapTx.contains hash
  | .canonical prevout => if pool.mapTx.contains prevout.hash then some prevout.hash else none

/-! ## Ancestors and descendants -/

/-- `CalculateDescendants`. -/
def calculateDescendants (entryit : Uint256) (setDescendants : StdSet Uint256) : StdSet Uint256 :=
  Reach.closure pool.childrenOf (pool.mapTx.size + 1)
    (if entryit ∈ setDescendants then ∅ else (∅ : StdSet Uint256).insert entryit) setDescendants

/-- The parents of a transaction that need not be in the pool. -/
def stagedParents (limits : Option Limits) :
    List OutputIndex → StdSet Uint256 → Except LimitError (StdSet Uint256)
  | [], staged => .ok staged
  | txin :: inputs, staged =>
    match pool.getIter txin with
    | none => stagedParents limits inputs staged
    | some parent => do
      let staged := staged.insert parent
      limits.elim (.ok ()) fun l =>
        reject (staged.size + 1 > l.ancestorCount) (.parents l.ancestorCount)
      stagedParents limits inputs staged

/-- The checks of an ancestor of an entry of the given size. -/
def checkAncestor (l : Limits) (entrySize total : Int) (id : Uint256) (stage : CTxMemPoolEntry) :
    Except LimitError Unit := do
  reject (stage.withDescendants.size + entrySize > l.descendantSize)
    (.descendantSize id l.descendantSize)
  reject (stage.withDescendants.count + 1 > l.descendantCount) (.descendants id l.descendantCount)
  reject (total > l.ancestorSize) (.ancestorSize l.ancestorSize)

/-- The loop over the parents of an ancestor. -/
def stageParents (limits : Option Limits) (setAncestors : StdSet Uint256) :
    List Uint256 → StdSet Uint256 → Except LimitError (StdSet Uint256)
  | [], staged => .ok staged
  | parent :: parents, staged => do
    let staged := if parent ∈ setAncestors then staged else staged.insert parent
    limits.elim (.ok ()) fun l =>
      reject (staged.size + setAncestors.size + 1 > l.ancestorCount) (.ancestors l.ancestorCount)
    stageParents limits setAncestors parents staged

/-- The loop of `CalculateMemPoolAncestors`. -/
def ancestorLoop (limits : Option Limits) (entrySize : Int) :
    Nat → StdSet Uint256 → StdSet Uint256 → Int → Except LimitError (StdSet Uint256)
  | 0, _, setAncestors, _ => .ok setAncestors
  | fuel + 1, staged, setAncestors, total =>
    match StdSet.first? staged with
    | none => .ok setAncestors
    | some id => do
      let setAncestors := setAncestors.insert id
      let total := total + (pool.mapTx[id]?).elim 0 fun stage => (stage.txSize : Int)
      limits.elim (.ok ()) fun l =>
        (pool.mapTx[id]?).elim (.ok ()) fun stage => checkAncestor l entrySize total id stage
      let staged ← stageParents limits setAncestors (pool.parentsOf id).toList (staged.erase id)
      ancestorLoop limits entrySize fuel staged setAncestors total

/-- `CalculateMemPoolAncestors` for a transaction that is not in the pool. Without limits, no
comparison with the greatest number fails. -/
def calculateMemPoolAncestors (limits : Option Limits) (entry : EntryInfo) :
    Except LimitError (StdSet Uint256) := do
  let staged ← pool.stagedParents limits entry.tx.getInputs ∅
  pool.ancestorLoop limits entry.txSize (pool.mapTx.size + 1) staged ∅ entry.txSize

/-- `CalculateMemPoolAncestors` for an entry, by its links and without limits. -/
def ancestorsOf (id : Uint256) : StdSet Uint256 :=
  Reach.closure pool.parentsOf (pool.mapTx.size + 1) (pool.parentsOf id) ∅

/-! ## Links and totals -/

/-- `UpdateAncestorsOf`. -/
def updateAncestorsOf (add : Bool) (it : Uint256) (setAncestors : StdSet Uint256) :
    Except Fault CTxMemPool := do
  match pool.mapTx[it]? with
  | none => .error .dangling
  | some entry =>
    let pool ← entry.m_parents.toList.foldlM
      (fun pool parent => pool.updateChild parent it add) pool
    let modify := if add then entry.own else -entry.own
    setAncestors.toList.foldlM (fun pool ancestor =>
      pool.modify ancestor fun e => e.updateDescendantState modify) pool

/-- `UpdateEntryForAncestors`. -/
def updateEntryForAncestors (it : Uint256) (setAncestors : StdSet Uint256) :
    Except Fault CTxMemPool := do
  let entries := setAncestors.toList.filterMap fun id => pool.mapTx[id]?
  let update := (entries.map (·.own)).sum
  let updateSigOpsCost := (entries.map fun e => (e.sigOpCost : Int)).sum
  pool.modify it fun e => e.updateAncestorState update updateSigOpsCost

/-- `UpdateChildrenForRemoval`. -/
def updateChildrenForRemoval (it : Uint256) : Except Fault CTxMemPool :=
  (pool.childrenOf it).toList.foldlM (fun pool child => pool.updateParent child it false) pool

/-- A round of the first loop of `UpdateForRemoveFromMempool`. -/
def updateDescendantsForRemoval (removeIt : Uint256) : Except Fault CTxMemPool :=
  match pool.mapTx[removeIt]? with
  | none => .error .dangling
  | some entry =>
    ((pool.calculateDescendants removeIt ∅).erase removeIt).toList.foldlM (fun pool dit =>
      pool.modify dit fun e => e.updateAncestorState (-entry.own) (-entry.sigOpCost)) pool

/-- The first loop of `UpdateForRemoveFromMempool`. -/
def updateAllDescendants (entriesToRemove : StdSet Uint256) (updateDescendants : Bool) :
    Except Fault CTxMemPool :=
  if updateDescendants then
    entriesToRemove.toList.foldlM (fun pool removeIt =>
      pool.updateDescendantsForRemoval removeIt) pool
  else .ok pool

/-- `UpdateForRemoveFromMempool`. -/
def updateForRemoveFromMempool (entriesToRemove : StdSet Uint256) (updateDescendants : Bool) :
    Except Fault CTxMemPool := do
  let pool ← pool.updateAllDescendants entriesToRemove updateDescendants
  let pool ← entriesToRemove.toList.foldlM (fun pool removeIt =>
    pool.updateAncestorsOf false removeIt (pool.ancestorsOf removeIt)) pool
  entriesToRemove.toList.foldlM (fun pool removeIt => pool.updateChildrenForRemoval removeIt) pool

/-! ## Adding and removing -/

variable (hash : Uint256)

/-- The loop of `addUnchecked` over the inputs: the outputs are noted as spent, and the parents
found. -/
def noteInputs (inputs : List OutputIndex) : CTxMemPool × StdSet Uint256 :=
  inputs.foldl (fun r input =>
    ({ r.1 with mapNextTx := r.1.mapNextTx.insertIfNew input hash },
      match input with
      | .mweb output_id => (r.1.mapTxOutputs_MWEB[output_id]?).elim r.2 fun parent =>
        r.2.insert parent
      | .canonical prevout => r.2.insert prevout.hash)) (pool, ∅)

/-- The outputs in the extension block are noted as created. -/
def noteOutputs (output_ids : List Mweb.Hash) : CTxMemPool :=
  { pool with mapTxOutputs_MWEB :=
      output_ids.foldl (fun m output_id => m.insertIfNew output_id hash) pool.mapTxOutputs_MWEB }

/-- The fee of an entry is changed by what was asked for before. -/
def applyDelta (entry : CTxMemPoolEntry) : CTxMemPoolEntry :=
  let delta := (pool.mapDeltas[hash]?).getD 0
  if delta ≠ 0 then entry.updateFeeDelta delta else entry

/-- The part of `addUnchecked` after the new entry is in `mapTx`. -/
def linkEntry (entry : EntryInfo) (tx : CTransaction) (setAncestors : StdSet Uint256) :
    Except Fault CTxMemPool := do
  let hash := entry.tx.hash
  let (pool, setParentTransactions) := pool.noteInputs hash tx.getInputs
  let pool := pool.noteOutputs hash tx.getOutputIDs
  let parents := setParentTransactions.toList.filter fun id => pool.mapTx.contains id
  let pool ← parents.foldlM (fun pool parent => pool.updateParent hash parent true) pool
  let pool ← pool.updateAncestorsOf true hash setAncestors
  let pool ← pool.updateEntryForAncestors hash setAncestors
  let pool ← pool.modify hash fun e => pure { e with vTxHashesIdx := pool.vTxHashes.length }
  pure { pool with
    totalTxSize := pool.totalTxSize + entry.txSize
    vTxHashes := pool.vTxHashes ++ [(tx.m_witness_hash, hash)] }

/-- `addUnchecked`, with the ancestors of the entry. An entry with the same id is not replaced. -/
def addUnchecked (entry : EntryInfo) (setAncestors : StdSet Uint256) : Except Fault CTxMemPool := do
  let hash := entry.tx.hash
  let newit := pool.applyDelta hash ((pool.mapTx[hash]?).getD (.new entry))
  let pool := { pool with
    mapTx := pool.mapTx.insert hash newit
    cachedInnerUsage := pool.cachedInnerUsage + entry.nUsageSize }
  pool.linkEntry entry newit.tx setAncestors

/-- An entry is taken out of `vTxHashes`: the last one takes its place. -/
def eraseHash (idx : Nat) : Except Fault CTxMemPool :=
  match pool.vTxHashes.getLast? with
  | none => .ok pool
  | some back =>
    if 1 < pool.vTxHashes.length then do
      let pool ← pool.modify back.2 fun e => pure { e with vTxHashesIdx := idx }
      pure { pool with vTxHashes := (pool.vTxHashes.set idx back).dropLast }
    else .ok { pool with vTxHashes := [] }

variable (tx : CTransaction)

/-- The transaction is kept for a reorganisation, under each of its kernels. -/
def cacheKernels : CTxMemPool :=
  { pool with recentTxsByKernel :=
      tx.getKernelIDs.foldl (fun cache kernel_id =>
        FIFOCache.put defaultMempoolMwebCacheSize cache kernel_id tx) pool.recentTxsByKernel }

/-- `removeUnchecked`. -/
def removeUnchecked (it : Uint256) (reason : MemPoolRemovalReason) : Except Fault CTxMemPool :=
  match pool.mapTx[it]? with
  | none => .error .dangling
  | some entry => do
    let tx := entry.tx
    let pool := { pool with
      mapNextTx := tx.getInputs.foldl (fun m input => m.erase input) pool.mapNextTx
      mapTxOutputs_MWEB := tx.getOutputIDs.foldl (fun m output_id => m.erase output_id)
        pool.mapTxOutputs_MWEB }
    let pool := if reason = .block ∨ reason = .reorg then pool.cacheKernels tx else pool
    let pool ← pool.eraseHash entry.vTxHashesIdx
    pure { pool with
      totalTxSize := pool.totalTxSize - entry.txSize
      cachedInnerUsage := pool.cachedInnerUsage - entry.nUsageSize -
        setNodeUsage * (entry.m_parents.size + entry.m_children.size)
      mapTx := pool.mapTx.erase it }

/-- `RemoveStaged`. -/
def removeStaged (stage : StdSet Uint256) (updateDescendants : Bool)
    (reason : MemPoolRemovalReason) :
    Except Fault CTxMemPool := do
  let pool ← pool.updateForRemoveFromMempool stage updateDescendants
  stage.toList.foldlM (fun pool it => pool.removeUnchecked it reason) pool

/-- Entries with all their descendants. -/
def allDescendants (txToRemove : StdSet Uint256) : StdSet Uint256 :=
  txToRemove.toList.foldl (fun setAllRemoves it => pool.calculateDescendants it setAllRemoves) ∅

/-- The spenders of the outputs of a transaction that is not in the pool. -/
def spendersOf (outputs : List OutputIndex) : Except Fault (StdSet Uint256) :=
  outputs.foldlM (fun txToRemove output =>
    match pool.mapNextTx[output]? with
    | none => .ok txToRemove
    | some nextit => do
      reject (!pool.mapTx.contains nextit) .assertion
      pure (txToRemove.insert nextit)) ∅

/-- What `removeRecursive` starts from: the entry of the transaction, or those that spend its
outputs. -/
def rootsOf (origTx : CTransaction) : Except Fault (StdSet Uint256) :=
  if pool.mapTx.contains origTx.hash then .ok ((∅ : StdSet Uint256).insert origTx.hash)
  else pool.spendersOf origTx.getOutputs

/-- `removeRecursive`. -/
def removeRecursive (origTx : CTransaction) (reason : MemPoolRemovalReason) :
    Except Fault CTxMemPool := do
  let txToRemove ← pool.rootsOf origTx
  pool.removeStaged (pool.allDescendants txToRemove) false reason

/-- `ClearPrioritisation`. -/
def clearPrioritisation : CTxMemPool :=
  { pool with mapDeltas := pool.mapDeltas.erase hash }

/-- One round of `removeConflicts`. -/
def removeConflict (input : OutputIndex) : Except Fault CTxMemPool :=
  match pool.mapNextTx[input]? with
  | none => .ok pool
  | some conflict =>
    match pool.mapTx[conflict]? with
    | none => .error .dangling
    | some entry =>
      if entry.tx.hash ≠ hash then (pool.clearPrioritisation conflict).removeRecursive entry.tx
        .conflict
      else .ok pool

/-- `removeConflicts`. -/
def removeConflicts : Except Fault CTxMemPool :=
  tx.getInputs.foldlM (fun pool input => pool.removeConflict tx.hash input) pool

/-- The transactions of the pool that share a kernel with a block, in the order of `mapTx`. -/
def sharingKernels (order : List Uint256) (block : CBlock) : List CTransaction :=
  match block.mweb_block with
  | none => []
  | some mweb_block =>
    ((order.filterMap fun id => pool.mapTx[id]?).map (·.tx)).filter fun tx =>
      tx.hasMWEBTx && tx.getKernelIDs.any fun kernel_id =>
        kernel_id ∈ mweb_block.body.kernels.map (·.hash)

/-- The entry of a transaction of a block is removed. -/
def removeIncluded : Except Fault CTxMemPool :=
  if pool.mapTx.contains tx.hash then
    pool.removeStaged ((∅ : StdSet Uint256).insert tx.hash) true .block
  else .ok pool

/-- One round of `removeForBlock`. -/
def removeConfirmed : Except Fault CTxMemPool := do
  let pool ← pool.removeIncluded tx
  let pool ← pool.removeConflicts tx
  pure (pool.clearPrioritisation tx.hash)

/-- The transactions that `removeForBlock` goes through. -/
def confirmedBy (order : List Uint256) (block : CBlock) : List CTransaction :=
  block.vtx ++ pool.sharingKernels order block

/-- `removeForBlock`, with the order of `mapTx`. -/
def removeForBlock (order : List Uint256) (block : CBlock) : Except Fault CTxMemPool :=
  (pool.confirmedBy order block).foldlM (fun pool tx => pool.removeConfirmed tx) pool

/-! ## After a reorganisation -/

/-- The loop of `UpdateTransactionsFromBlock` over the outputs of a transaction: children that were
in the pool before it are linked to it. -/
def linkChildren (it : Uint256) (setAlreadyIncluded : StdSet Uint256) (outputs : List OutputIndex) :
    Except Fault CTxMemPool := do
  let r ← outputs.foldlM (fun (r : CTxMemPool × StdSet Uint256) output =>
    match r.1.mapNextTx[output]? with
    | none => .ok r
    | some child => do
      reject (!r.1.mapTx.contains child) .assertion
      if child ∉ r.2 ∧ child ∉ setAlreadyIncluded then do
        let pool ← r.1.updateChild it child true
        let pool ← pool.updateParent child it true
        pure (pool, r.2.insert child)
      else pure (r.1, r.2.insert child)) (pool, ∅)
  pure r.1

/-- The loop of `UpdateForDescendants` over the children of a descendant. -/
def stageChildren (cachedDescendants : StdMap Uint256 (StdSet Uint256)) :
    List Uint256 → StdSet Uint256 → StdSet Uint256 → StdSet Uint256 × StdSet Uint256
  | [], stageEntries, descendants => (stageEntries, descendants)
  | child :: children, stageEntries, descendants =>
    match cachedDescendants[child]? with
    | some cached =>
      stageChildren cachedDescendants children stageEntries
        (cached.toList.foldl (fun s id => s.insert id) descendants)
    | none =>
      stageChildren cachedDescendants children
        (if child ∈ descendants then stageEntries else stageEntries.insert child) descendants

/-- The first loop of `UpdateForDescendants`. -/
def descendantLoop (cachedDescendants : StdMap Uint256 (StdSet Uint256)) :
    Nat → StdSet Uint256 → StdSet Uint256 → StdSet Uint256
  | 0, _, descendants => descendants
  | fuel + 1, stageEntries, descendants =>
    match StdSet.first? stageEntries with
    | none => descendants
    | some id =>
      let (stageEntries, descendants) := stageChildren cachedDescendants (pool.childrenOf id).toList
        (stageEntries.erase id) (descendants.insert id)
      descendantLoop cachedDescendants fuel stageEntries descendants

/-- `UpdateForDescendants`. -/
def updateForDescendants (updateIt : Uint256) (cachedDescendants : StdMap Uint256 (StdSet Uint256))
    (setExclude : StdSet Uint256) :
      Except Fault (CTxMemPool × StdMap Uint256 (StdSet Uint256)) := do
  match pool.mapTx[updateIt]? with
  | none => .error .dangling
  | some entry =>
    let descendants := pool.descendantLoop cachedDescendants (pool.mapTx.size + 1)
      entry.m_children ∅
    let counted := descendants.toList.filter fun id => id ∉ setExclude
    let pool' ← counted.foldlM (fun pool id =>
      pool.modify id fun e => e.updateAncestorState entry.own entry.sigOpCost) pool
    let modify := ((counted.filterMap fun id => pool.mapTx[id]?).map (·.own)).sum
    let pool' ← pool'.modify updateIt fun e => e.updateDescendantState modify
    let cached := counted.foldl (fun s id => s.insert id) ((cachedDescendants[updateIt]?).getD ∅)
    pure (pool', if counted.isEmpty then cachedDescendants else cachedDescendants.insert
      updateIt cached)

/-- `UpdateTransactionsFromBlock`. -/
def updateTransactionsFromBlock (vHashesToUpdate : List Uint256) : Except Fault CTxMemPool := do
  let setAlreadyIncluded := vHashesToUpdate.foldl (fun s id => s.insert id) (∅ : StdSet Uint256)
  let r ← vHashesToUpdate.reverse.foldlM
    (fun (r : CTxMemPool × StdMap Uint256 (StdSet Uint256)) hash =>
    match r.1.mapTx[hash]? with
    | none => .ok r
    | some entry => do
      let pool ← r.1.linkChildren hash setAlreadyIncluded entry.tx.getOutputs
      pool.updateForDescendants hash r.2 setAlreadyIncluded) (pool, ∅)
  pure r.1

end CTxMemPool

end Mempool

end DefcoinCore
