import DefcoinCore.Mempool.Frame
import DefcoinCore.Mweb.Miner

/-!
# Acceptance to the pool, and the creators of outputs

The parts of `MemPoolAccept` that look at the pool: `PreChecks` refuses a transaction that is in the
pool, that spends what a transaction of the pool spends unless it may replace it, or whose inputs
are neither unspent in the chain nor created in the pool; `Finalize` takes out what is replaced and
adds the transaction.

`mapTxOutputs_MWEB` has room for one creator of each output of the extension block. `PreChecks`
looks at inputs only, so two transactions of the pool can create the same output, and when one of
them is removed the other is no longer found. Where no transaction is accepted beside one that
creates the same output, the map has exactly the outputs of the pool, each with its creator
(`mapTxOutputs_complete`).
-/

namespace DefcoinCore.Mempool

open Std Option CTxMemPool

/-! ## The code -/

/-- What acceptance reads besides the pool. -/
structure AcceptEnv where
  crypto : Mweb.NodeCrypto
  /-- The coins of the chain. -/
  haveCoin : OutputIndex → Bool
  /-- The outputs that are in the cache of the coins of the chain. -/
  haveCoinInCache : OutputIndex → Bool
  /-- The option `-mempoolreplacement`. -/
  mempoolReplacement : Bool
  /-- The checks of activation, standard form, size and lock time, which read the transaction and
  the chain. -/
  standardChecks : EntryInfo → Except TxInvalid Unit
  /-- The checks of sequence locks, amounts, scripts, signature operations and fees. -/
  feeChecks : EntryInfo → Except TxInvalid Unit
  limits : Limits
  /-- The rules for replacements, from the transactions in conflict. -/
  replacementChecks : EntryInfo → StdSet Uint256 → Except TxInvalid Unit

namespace CTxMemPool

variable (pool : CTxMemPool) (env : AcceptEnv)

/-- `CCoinsViewMemPool`, as `PreChecks` reads it through a cache that is empty. -/
def haveCoin : OutputIndex → Bool
  | .mweb output_id =>
    !pool.mapNextTx.contains (.mweb output_id) &&
      (pool.mapTxOutputs_MWEB.contains output_id || env.haveCoin (.mweb output_id))
  | .canonical outpoint =>
    match pool.mapTx[outpoint.hash]? with
    | some entry => outpoint.n.toNat < entry.tx.vout.length
    | none => env.haveCoin (.canonical outpoint)

/-- `MAX_BIP125_RBF_SEQUENCE`. -/
def maxBip125RbfSequence : UInt32 := 0xfffffffd

/-- The loop of `PreChecks` over the conflicts. -/
def conflictsOf (inputs : List OutputIndex) : Except TxInvalid (StdSet Uint256) :=
  inputs.foldlM (fun setConflicts txin =>
    match pool.mapNextTx[txin]? with
    | none => .ok setConflicts
    | some conflicting =>
      if conflicting ∈ setConflicts then .ok setConflicts
      else do
        let fReplacementOptOut := !env.mempoolReplacement ||
          ((pool.mapTx[conflicting]?).elim [] (·.tx.vin)).all fun txin =>
            txin.nSequence > maxBip125RbfSequence
        reject fReplacementOptOut ⟨.mempoolPolicy, "txn-mempool-conflict", ""⟩
        pure (setConflicts.insert conflicting)) ∅

/-- The loop of `PreChecks` over the inputs that should exist. -/
def checkInputsExist (tx : CTransaction) : Except TxInvalid Unit :=
  tx.getInputs.forM fun txin =>
    if pool.haveCoin env txin then .ok ()
    else do
      reject (tx.getOutputs.any env.haveCoinInCache) ⟨.conflict, "txn-already-known", ""⟩
      .error ⟨.missingInputs, "bad-txns-inputs-missingorspent", ""⟩

/-- `EXTRA_DESCENDANT_TX_SIZE_LIMIT`. -/
def extraDescendantTxSizeLimit : Nat := 10000

/-- The limits, with room for a transaction that is replaced. -/
def limitsFor (setConflicts : StdSet Uint256) : Limits :=
  match setConflicts.toList with
  | [conflict] =>
    { env.limits with
      descendantCount := env.limits.descendantCount + 1
      descendantSize := env.limits.descendantSize +
        (pool.mapTx[conflict]?).elim 0 fun entry => entry.withDescendants.size }
  | _ => env.limits

/-- The ancestors within the limits, or within those for one more descendant of a parent. -/
def ancestorsFor (limits : Limits) (entry : EntryInfo) : Except TxInvalid (StdSet Uint256) :=
  let tooLong : TxInvalid := ⟨.mempoolPolicy, "too-long-mempool-chain", ""⟩
  match pool.calculateMemPoolAncestors (some limits) entry with
  | .ok setAncestors => .ok setAncestors
  | .error _ => do
    reject (entry.txSize > extraDescendantTxSizeLimit) tooLong
    (pool.calculateMemPoolAncestors (some
      { limits with
        ancestorCount := 2
        descendantCount := limits.descendantCount + 1
        descendantSize := limits.descendantSize + extraDescendantTxSizeLimit }) entry).mapError
      fun _ => tooLong

/-- What `PreChecks` finds: the transactions to replace, and the ancestors. -/
structure Workspace where
  m_all_conflicting : StdSet Uint256
  m_ancestors : StdSet Uint256

/-- `MemPoolAccept::PreChecks`. -/
def preChecks (entry : EntryInfo) : Except TxInvalid Workspace := do
  let tx := entry.tx
  checkTransaction tx
  Mweb.Node.checkTransaction env.crypto tx
  reject tx.isCoinBase (txConsensus "coinbase")
  reject tx.m_hogEx (txConsensus "hogex")
  env.standardChecks entry
  reject (pool.mapTx.contains tx.hash) ⟨.conflict, "txn-already-in-mempool", ""⟩
  let setConflicts ← pool.conflictsOf env tx.getInputs
  pool.checkInputsExist env tx
  env.feeChecks entry
  let setAncestors ← pool.ancestorsFor (pool.limitsFor env setConflicts) entry
  reject (setAncestors.toList.any fun ancestor => ancestor ∈ setConflicts)
    (txConsensus "bad-txns-spends-conflicting-tx")
  env.replacementChecks entry setConflicts
  pure ⟨pool.allDescendants setConflicts, setAncestors⟩

/-- `AcceptSingleTransaction`: a transaction that is refused leaves the pool as it is. -/
def accept (entry : EntryInfo) : Except Fault (CTxMemPool × Option TxInvalid) :=
  match pool.preChecks env entry with
  | .error e => .ok (pool, some e)
  | .ok ws => do
    let pool ← pool.removeStaged ws.m_all_conflicting false .replaced
    let pool ← pool.addUnchecked entry ws.m_ancestors
    pure (pool, none)

end CTxMemPool

/-- What happens to a pool. -/
inductive PoolOp where
  | accept (env : AcceptEnv) (entry : EntryInfo)
  | remove (it : Uint256) (reason : MemPoolRemovalReason)

/-- One operation on a pool. -/
def poolStep (pool : CTxMemPool) : PoolOp → Except Fault (CTxMemPool × Option TxInvalid)
  | .accept env entry => pool.accept env entry
  | .remove it reason => do
    let pool ← pool.removeUnchecked it reason
    pure (pool, none)

/-! ## The creators of outputs -/

/-- `mapTxOutputs_MWEB` has exactly the outputs that transactions of the pool create, each with a
transaction of the pool that creates it. -/
structure OutputsComplete (pool : CTxMemPool) : Prop where
  creator : ∀ (output_id : Mweb.Hash) (hash : Uint256),
    pool.mapTxOutputs_MWEB[output_id]? = some hash →
    Creates pool hash output_id
  created : ∀ (hash : Uint256) (output_id : Mweb.Hash), Creates pool hash output_id →
    ∃ creator, pool.mapTxOutputs_MWEB[output_id]? = some creator

/-- No output of a transaction that passes the checks is created by one that stays in the pool
beside it. -/
def FreshOutputs (pool : CTxMemPool) : PoolOp → Prop
  | .accept env entry => ∀ ws pool1, pool.preChecks env entry = .ok ws →
      pool.removeStaged ws.m_all_conflicting false .replaced = .ok pool1 →
      ∀ output_id ∈ entry.tx.getOutputIDs, ∀ hash, ¬ Creates pool1 hash output_id
  | .remove _ _ => True

/-- What every step keeps: entries are under their ids, and `mapTxOutputs_MWEB` names the one
creator of each output. -/
structure OutputsExact (pool : CTxMemPool) : Prop where
  keyed : ∀ (hash : Uint256) (entry : EntryInfo), pool.infoOf hash = some entry →
    entry.tx.hash = hash
  exact_iff : ∀ (output_id : Mweb.Hash) (hash : Uint256),
    pool.mapTxOutputs_MWEB[output_id]? = some hash ↔ Creates pool hash output_id

namespace OutputsExact

variable {pool pool' : CTxMemPool}

theorem complete (h : OutputsExact pool) : OutputsComplete pool where
  creator output_id hash := (h.exact_iff output_id hash).mp
  created hash output_id hcreates := ⟨hash, (h.exact_iff output_id hash).mpr hcreates⟩

theorem of_keeps (h : OutputsExact pool) (hkeeps : CTxMemPool.Keeps pool pool') :
    OutputsExact pool' where
  keyed hash entry hentry := h.keyed hash entry (by rw [← hentry]; exact (hkeeps.info_eq hash).symm)
  exact_iff output_id hash := by
    rw [hkeeps.mapTxOutputs, h.exact_iff]
    unfold Creates
    rw [show pool'.infoOf hash = pool.infoOf hash from hkeeps.info_eq hash]

theorem of_added (h : OutputsExact pool) {entry : EntryInfo}
    (hadded : CTxMemPool.Added pool pool' entry) (hnew : pool.infoOf entry.tx.hash = none)
    (hfresh : ∀ output_id ∈ entry.tx.getOutputIDs, pool.mapTxOutputs_MWEB[output_id]? = none) :
    OutputsExact pool' where
  keyed hash e he := by
    rw [hadded.infoOf] at he
    split_ifs at he with hhash
    · rw [← some.inj he]
      exact hhash
    · exact h.keyed hash e he
  exact_iff output_id hash := by
    have hcreates : Creates pool' hash output_id ↔
        (entry.tx.hash = hash ∧ output_id ∈ entry.tx.getOutputIDs) ∨
          Creates pool hash output_id := by
      unfold Creates
      rw [hadded.infoOf]
      split_ifs with hhash
      · subst hhash
        simp [hnew]
      · simp [hhash]
    rw [hadded.mapTxOutputs, getElem?_foldl_insertIfNew, hcreates, ← h.exact_iff]
    by_cases hmem : output_id ∈ entry.tx.getOutputIDs
    · -- only the new transaction creates the output
      simp [hfresh output_id hmem, hmem]
    · simp [hmem]

theorem of_removed (h : OutputsExact pool) {it : Uint256} {entry : EntryInfo}
    (hit : pool.infoOf it = some entry) (hremoved : CTxMemPool.Removed pool pool' it entry.tx) :
    OutputsExact pool' where
  keyed hash e he := by
    rw [hremoved.infoOf] at he
    split_ifs at he
    exact h.keyed hash e he
  exact_iff output_id hash := by
    have hcreates : Creates pool' hash output_id ↔ it ≠ hash ∧ Creates pool hash output_id := by
      unfold Creates
      rw [hremoved.infoOf]
      split_ifs with hhash
      · simp [hhash]
      · simp [hhash]
    -- a transaction is the creator of the outputs that it creates, and of no other
    have hcreator : pool.mapTxOutputs_MWEB[output_id]? = some it ↔
        output_id ∈ entry.tx.getOutputIDs := by
      rw [h.exact_iff, Creates, hit]
      simp
    rw [hremoved.mapTxOutputs, hcreates, ← h.exact_iff]
    split_ifs with hmem
    · simp [hcreator.mpr hmem]
    · refine (and_iff_right_of_imp ?_).symm
      rintro hfound rfl
      exact hmem (hcreator.mp hfound)

end OutputsExact

variable {pool : CTxMemPool}

/-- `RemoveStaged` keeps the creators of outputs exact, and adds no entry. -/
theorem removeStaged_exact (h : OutputsExact pool) (stage : StdSet Uint256)
    (updateDescendants : Bool) (reason : MemPoolRemovalReason) :
    IfReturns (pool.removeStaged stage updateDescendants reason) fun pool' => OutputsExact pool' ∧
      ∀ hash entry, pool'.infoOf hash = some entry → pool.infoOf hash = some entry := by
  refine pool.removeStaged_induction stage updateDescendants reason (fun pool1 hkeeps => ?_)
    fun pool2 pool3 it entry _ ⟨hexact, hinfo⟩ hit hremoved => ?_
  · exact ⟨h.of_keeps hkeeps, fun hash entry => (hkeeps.info_eq hash).symm.trans⟩
  · refine ⟨hexact.of_removed hit hremoved, fun hash e he => hinfo hash e ?_⟩
    rw [hremoved.infoOf] at he
    split_ifs at he
    exact he

/-- A transaction that passes `PreChecks` is not in the pool. -/
theorem infoOf_eq_none_of_preChecks {env : AcceptEnv} {entry : EntryInfo}
    {ws : CTxMemPool.Workspace} (h : pool.preChecks env entry = .ok ws) :
    pool.infoOf entry.tx.hash = none := by
  unfold preChecks at h
  simp only [bind_eq_ok_iff, reject_eq_ok_iff] at h
  obtain ⟨-, -, -, -, -, -, -, -, -, -, -, hcontains, -⟩ := h
  rw [ExtTreeMap.contains_eq_isSome_getElem?, isSome_eq_false_iff, isNone_iff_eq_none] at hcontains
  rw [infoOf, hcontains]
  rfl

/-- A step that adds only outputs which no other transaction creates keeps the creators exact. -/
theorem poolStep_exact {pool' : CTxMemPool} {op : PoolOp} {refused : Option TxInvalid}
    (h : OutputsExact pool) (hfresh : FreshOutputs pool op)
    (hstep : poolStep pool op = .ok (pool', refused)) :
    OutputsExact pool' := by
  cases op with
  | accept env entry =>
    replace hstep : pool.accept env entry = .ok (pool', refused) := hstep
    unfold accept at hstep
    cases hchecks : pool.preChecks env entry with
    | error e =>
      rw [hchecks] at hstep
      obtain ⟨rfl, -⟩ := Prod.mk.inj (Except.ok.inj hstep)
      exact h
    | ok ws =>
      rw [hchecks] at hstep
      obtain ⟨pool1, hremove, hstep⟩ := bind_eq_ok_iff.mp hstep
      obtain ⟨pool2, hadd, hstep⟩ := bind_eq_ok_iff.mp hstep
      obtain ⟨rfl, -⟩ := Prod.mk.inj (Except.ok.inj hstep)
      obtain ⟨hexact, hinfo⟩ :=
        (removeStaged_exact h ws.m_all_conflicting false .replaced).of_ok hremove
      have hnew : pool1.infoOf entry.tx.hash = none :=
        eq_none_iff_forall_ne_some.mpr fun e he =>
          nomatch (infoOf_eq_none_of_preChecks hchecks).symm.trans (hinfo _ e he)
      have hnone : pool1.mapTx[entry.tx.hash]? = none := map_eq_none_iff.mp hnew
      refine hexact.of_added ((pool1.addUnchecked_added hnone ws.m_ancestors).of_ok hadd) hnew
        fun output_id hmem => eq_none_iff_forall_ne_some.mpr fun hash hfound => ?_
      exact hfresh ws pool1 hchecks hremove output_id hmem hash
        ((hexact.exact_iff output_id hash).mp hfound)
  | remove it reason =>
    obtain ⟨pool1, hremove, hstep⟩ := bind_eq_ok_iff.mp hstep
    obtain ⟨rfl, -⟩ := Prod.mk.inj (Except.ok.inj hstep)
    obtain ⟨entry, hit, hremoved⟩ := (pool.removeUnchecked_removed it reason).of_ok hremove
    exact h.of_removed hit hremoved

theorem outputsExact_empty : OutputsExact .empty where
  keyed hash entry h := by
    rw [infoOf, empty] at h
    simp at h
  exact_iff output_id hash := by
    constructor
    · intro h
      rw [empty] at h
      simp at h
    · rintro ⟨entry, h, -⟩
      rw [infoOf, empty] at h
      simp at h

/-- In every run in which no transaction is accepted beside one that creates the same output,
`mapTxOutputs_MWEB` has exactly the outputs of the pool, and the parent of a spender is found. -/
theorem mapTxOutputs_complete {pool : CTxMemPool}
    (h : Machine.Reachable FreshOutputs poolStep .empty pool) :
    OutputsComplete pool ∧ ∀ (hash : Uint256) (output_id : Mweb.Hash), Creates pool hash output_id →
      ∃ parent, pool.getIter (.mweb output_id) = some parent ∧ Creates pool parent output_id := by
  have hexact : OutputsExact pool := h.invariant outputsExact_empty
    fun _ _ _ _ hexact hfresh hstep => poolStep_exact hexact hfresh hstep
  refine ⟨hexact.complete, fun hash output_id hcreates => ⟨hash, ?_, hcreates⟩⟩
  rw [getIter, (hexact.exact_iff output_id hash).mpr hcreates]
  obtain ⟨entry, hentry, -⟩ := hcreates
  obtain ⟨e, he, -⟩ := map_eq_some_iff.mp hentry
  rw [filter_some, if_pos]
  rw [ExtTreeMap.contains_eq_isSome_getElem?, he]
  rfl

/-! ## An output that is created twice -/

/-- Acceptance that passes all checks besides those of the pool, with two coins in the extension
block. -/
def permissiveEnv : AcceptEnv where
  crypto := Mweb.plainCrypto
  haveCoin o := o = .mweb 1 ∨ o = .mweb 2
  haveCoinInCache _ := false
  mempoolReplacement := false
  standardChecks _ := .ok ()
  feeChecks _ := .ok ()
  limits := ⟨25, 101000, 25, 101000⟩
  replacementChecks _ _ := .ok ()

/-- A kernel with nothing but its id. -/
def plainKernel (kernel_id : Mweb.Hash) : Mweb.Kernel :=
  ⟨0, none, none, [], none, none, [], .zero, Bytes.zero 64, kernel_id⟩

/-- A transaction that is in the extension block only: it spends one output and creates another, and
has the id of its kernel. -/
def mwebTx (spent created kernel_id : Mweb.Hash) : CTransaction where
  vin := []
  vout := []
  nVersion := 2
  nLockTime := 0
  mweb_tx := some ⟨.zero, .zero,
    [Mweb.plainInput spent], [Mweb.plainOutput created], [plainKernel kernel_id]⟩
  m_hogEx := false
  hash := kernel_id
  m_witness_hash := kernel_id

/-- An entry for a transaction that costs nothing. -/
def plainEntry (tx : CTransaction) : EntryInfo := ⟨tx, 0, 0, 20, 100, 0, 0, 0, le_rfl⟩

/-- Outputs that are not in `mapTxOutputs_MWEB` are created by no transaction of the pool. -/
theorem freshOutputs_of_none (h : OutputsExact pool) (env : AcceptEnv) (entry : EntryInfo)
    (hnone : ∀ output_id ∈ entry.tx.getOutputIDs, pool.mapTxOutputs_MWEB[output_id]? = none) :
    FreshOutputs pool (.accept env entry) := by
  rintro ws pool1 - hremove output_id hmem hash ⟨e, he, hcreated⟩
  have hinfo := ((removeStaged_exact h ws.m_all_conflicting false .replaced).of_ok hremove).2
  have hfound := (h.exact_iff output_id hash).mpr ⟨e, hinfo hash e he, hcreated⟩
  rw [hnone output_id hmem] at hfound
  cases hfound

/-- Two accepted transactions create different outputs, and one of them is removed. -/
theorem mapTxOutputs_complete_removed :
    ∃ pool, Machine.Reachable FreshOutputs poolStep .empty pool ∧ OutputsComplete pool ∧
      Creates pool 9 6 ∧ pool.mapTxOutputs_MWEB[(5 : Mweb.Hash)]? = none := by
  have hrun : Returns (poolStep .empty (.accept permissiveEnv (plainEntry (mwebTx 1 5 8)))) fun r =>
      r.1.mapTxOutputs_MWEB[(6 : Mweb.Hash)]? = none ∧
      Returns (poolStep r.1 (.accept permissiveEnv (plainEntry (mwebTx 2 6 9)))) fun r =>
      Returns (poolStep r.1 (.remove 8 .expiry)) fun r =>
      r.1.mapTxOutputs_MWEB[(6 : Mweb.Hash)]? = some 9 ∧
      r.1.mapTxOutputs_MWEB[(5 : Mweb.Hash)]? = none := by
    decide +kernel
  obtain ⟨⟨pool1, _⟩, hstep1, hnone, hrun⟩ := hrun.exists_ok
  obtain ⟨⟨pool2, _⟩, hstep2, hrun⟩ := hrun.exists_ok
  obtain ⟨⟨pool, _⟩, hstep, hsix, hfive⟩ := hrun.exists_ok
  have hfresh1 := freshOutputs_of_none outputsExact_empty permissiveEnv
    (plainEntry (mwebTx 1 5 8)) fun _ _ => by rw [empty]; simp
  have hfresh2 := freshOutputs_of_none (poolStep_exact outputsExact_empty hfresh1 hstep1)
    permissiveEnv (plainEntry (mwebTx 2 6 9)) (List.forall_mem_singleton.mpr hnone)
  have hreach : Machine.Reachable FreshOutputs poolStep .empty pool :=
    .step (.step (.step .init hfresh1 hstep1) hfresh2 hstep2) (i := .remove 8 .expiry) trivial hstep
  have hcomplete := (mapTxOutputs_complete hreach).1
  exact ⟨pool, hreach, hcomplete, hcomplete.creator 6 9 hsix, hfive⟩

/-- Two accepted transactions create the same output, and after one of them is removed the other is
not found. -/
theorem mapTxOutputs_forgets :
    Returns (Machine.run poolStep .empty [.accept permissiveEnv (plainEntry (mwebTx 1 5 8)),
      .accept permissiveEnv (plainEntry (mwebTx 2 5 9)), .remove 8 .expiry]) fun pool =>
        (pool.infoOf 9).any (fun entry => 5 ∈ entry.tx.getOutputIDs) ∧
        pool.mapTxOutputs_MWEB[(5 : Mweb.Hash)]? = none ∧ pool.getIter (.mweb 5) = none := by
  decide +kernel

end DefcoinCore.Mempool
