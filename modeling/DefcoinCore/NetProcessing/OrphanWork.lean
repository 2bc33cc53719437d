import DefcoinCore.Mempool.Reorg
import DefcoinCore.NetProcessing.State
import DefcoinCore.NetProcessing.TxRelay

/-!
# Orphans that can be accepted

When a transaction is accepted, from a `TX` message or from the orphans, the orphans that spend its
outputs are put in the work set of the peer, and `ProcessOrphanTx` submits them again. They are
looked up by the outputs of the transaction, and not by its outputs in the extension block, though
these can be missing as well: an orphan that waits for one of them alone is not woken. Where there
is no such orphan, every orphan that becomes ready is in a work set, and when these are empty none
is left (`orphans_woken_iff`).
-/

namespace DefcoinCore.NetProcessing

open List Mempool TxState

variable {Pool : Type}

/-- The orphans and what else `TX` messages change, with `m_orphan_work_set` of each peer. -/
structure OrphanState (Pool : Type) where
  tx : TxState Pool
  work : NodeId → List Uint256

namespace OrphanState

variable (ops : PoolOps Pool) (s : OrphanState Pool) (peer : NodeId)

/-- The handler of a `TX` message, up to `ProcessOrphanTx`. -/
def receive (m : TxMessage) : OrphanState Pool :=
  let tx := s.tx.refresh
  if tx.alreadyHaveTx ops m.tx.m_witness_hash then { s with tx }
  else
    let (refusal, mempool) := ops.acceptToMemoryPool tx.mempool m.tx
    let tx := { tx with mempool }
    match refusal with
    | none => ⟨tx, Function.update s.work peer (idSet (tx.orphansOf m.tx ++ s.work peer))⟩
    | some result => { s with tx := tx.afterRefusal ops m result }

/-- `ProcessOrphanTx`, with the work set of a peer. -/
def reconsider : OrphanState Pool :=
  let (tx, workSet) := s.tx.processOrphanTx ops (s.work peer)
  ⟨tx, Function.update s.work peer workSet⟩

end OrphanState

/-- A `TX` message, or a call of `ProcessOrphanTx`. -/
inductive OrphanOp where
  | receive (peer : NodeId) (m : TxMessage)
  | reconsider (peer : NodeId)

def orphanStep (ops : PoolOps Pool) (s : OrphanState Pool) : OrphanOp →
    Except Empty (OrphanState Pool × Unit)
  | .receive peer m => .ok (s.receive ops peer m, ())
  | .reconsider peer => .ok (s.reconsider ops peer, ())

-- `available`: in the chain state or the pool; `spent`: by a transaction of the pool
variable (available : Pool → OutputIndex → Prop) (spent : Pool → Mweb.Hash → Prop)

/-- All inputs are available. -/
def Ready (pool : Pool) (tx : CTransaction) : Prop := ∀ i ∈ tx.getInputs, available pool i

/-- What `AcceptToMemoryPool` does to the outputs that are available. -/
structure Lawful (ops : PoolOps Pool) : Prop where
  /-- Missing inputs are found before the pool is touched. -/
  missing : ∀ {pool tx pool'}, ops.acceptToMemoryPool pool tx = (some .missingInputs, pool') →
    pool' = pool ∧ ¬ Ready available pool tx
  /-- The outputs of the transaction become available, and those in the extension block that were
  spent by transactions which leave the pool. -/
  grows : ∀ {pool tx r pool' i}, ops.acceptToMemoryPool pool tx = (r, pool') → available pool' i →
    available pool i ∨ (r = none ∧ i ∈ tx.getOutputs) ∨ ∃ id, i = .mweb id ∧ spent pool id

/-- An orphan spends an output of a transaction that is not in the extension block. -/
def SpendsCanonical (orphan tx : CTransaction) : Prop :=
  ∃ p, .canonical p ∈ orphan.getInputs ∧ .canonical p ∈ tx.getOutputs

/-- The orphans that spend from a transaction in the extension block spend another output of it as
well, or are at work. -/
def Found (s : TxState Pool) (tx : CTransaction) (workSet : List Uint256) : Prop :=
  ∀ orphan ∈ s.mapOrphanTransactions, ∀ id, .mweb id ∈ orphan.getInputs → .mweb id ∈ tx.getOutputs →
    SpendsCanonical orphan tx ∨ orphan.hash ∈ workSet

/-- No orphan waits for an output in the extension block, be it one of a transaction, or one that
the pool spends. -/
def Covered (s : TxState Pool) (tx : CTransaction) : Prop :=
  Found s tx [] ∧
    ∀ orphan ∈ s.mapOrphanTransactions, ∀ id, .mweb id ∈ orphan.getInputs → ¬ spent s.mempool id

/-- The transactions that a step may accept are covered. -/
def CoveredStep (s : OrphanState Pool) : OrphanOp → Prop
  | .receive _ m => Covered spent s.tx m.tx
  | .reconsider _ => ∀ tx ∈ s.tx.mapOrphanTransactions, Covered spent s.tx tx

/-- The ids of the orphans differ, and an orphan that is ready is at work, or was ready before. -/
def Settled (old : CTransaction → Prop) (work : Uint256 → Prop) (pool : Pool)
    (orphans : List CTransaction) : Prop :=
  (orphans.map (·.hash)).Nodup ∧
    ∀ orphan ∈ orphans, Ready available pool orphan → work orphan.hash ∨ old orphan

variable {available spent} {ops : PoolOps Pool} {s : TxState Pool} {tx : CTransaction}
  {pool pool' : Pool}
  {orphans orphans' : List CTransaction} {old : CTransaction → Prop} {work work' : Uint256 → Prop}

theorem mem_orphansOf {hash : Uint256} : hash ∈ s.orphansOf tx ↔
    ∃ orphan ∈ s.mapOrphanTransactions, SpendsCanonical orphan tx ∧ orphan.hash = hash := by
  simp [orphansOf, SpendsCanonical, CTransaction.getInputs, tx.canonical_mem_getOutputs, and_assoc]

/-- Fewer orphans, and those at work that are ready. -/
theorem Settled.mono (h : Settled available old work pool orphans) (hsub : orphans'.Sublist orphans)
    (hwork : ∀ orphan ∈ orphans', Ready available pool orphan → work orphan.hash →
      work' orphan.hash) :
    Settled available old work' pool orphans' :=
  ⟨h.1.sublist (hsub.map _), fun orphan hmem hready =>
    (h.2 orphan (hsub.subset hmem) hready).imp_left (hwork orphan hmem hready)⟩

/-- One submission: what becomes ready by it spends from the transaction, and is found. -/
theorem Settled.submit (h : Settled available old work s.mempool s.mapOrphanTransactions)
    (hops : Lawful available spent ops) (hcovered : Covered spent s tx)
    {r : Option TxValidationResult} (hr : ops.acceptToMemoryPool s.mempool tx = (r, pool)) :
    Settled available old (fun hash => work hash ∨ r = none ∧ hash ∈ s.orphansOf tx) pool
      s.mapOrphanTransactions := by
  refine ⟨h.1, fun orphan hmem hready => ?_⟩
  by_cases hbefore : Ready available s.mempool orphan
  · exact (h.2 orphan hmem hbefore).imp_left .inl
  · obtain ⟨i, hi, hnot⟩ : ∃ i ∈ orphan.getInputs,
      ¬ available s.mempool i := by simpa [Ready] using hbefore
    have hspends : r = none ∧ SpendsCanonical orphan tx := by
      rcases (hops.grows hr (hready i hi)).resolve_left hnot with ⟨hnone, hout⟩ | ⟨id, rfl, hspent⟩
      · cases i with
        | canonical p => exact ⟨hnone, p, hi, hout⟩
        | mweb id => exact ⟨hnone, (hcovered.1 orphan hmem id hi hout).resolve_right not_mem_nil⟩
      · exact absurd hspent (hcovered.2 orphan hmem id hi)
    exact .inl (.inr ⟨hspends.1, mem_orphansOf.mpr ⟨orphan, hmem, hspends.2, rfl⟩⟩)

theorem TxState.noteRefusal_fields (s : TxState Pool) (tx : CTransaction)
    (result : TxValidationResult) :
    (s.noteRefusal tx result).mempool = s.mempool ∧
      (s.noteRefusal tx result).mapOrphanTransactions = s.mapOrphanTransactions := by
  unfold noteRefusal
  split_ifs <;> exact ⟨rfl, rfl⟩

theorem Settled.processOrphanTx (hops : Lawful available spent ops) {workSet : List Uint256}
    (hcovered : ∀ tx ∈ s.mapOrphanTransactions, Covered spent s tx)
    (h : Settled available old (fun hash => hash ∈ workSet ∨ work hash) s.mempool
      s.mapOrphanTransactions) :
    Settled available old (fun hash => hash ∈ (s.processOrphanTx ops workSet).2 ∨ work hash)
      (s.processOrphanTx ops workSet).1.mempool
      (s.processOrphanTx ops workSet).1.mapOrphanTransactions := by
  induction workSet with
  | nil => exact h
  | cons orphanHash workSet ih =>
    -- An orphan with another id that was at work still is.
    have hrest : ∀ orphan : CTransaction, orphan.hash ≠ orphanHash →
        orphan.hash ∈ orphanHash :: workSet ∨ work orphan.hash → orphan.hash ∈ workSet ∨
          work orphan.hash :=
      fun orphan hne hwork => hwork.imp_left fun hmem => (mem_cons.mp hmem).resolve_left hne
    unfold TxState.processOrphanTx
    cases hfind : s.mapOrphanTransactions.find? fun tx => tx.hash = orphanHash with
    | none =>
      refine ih (h.mono (.refl _) fun orphan hmem _ => hrest orphan ?_)
      simpa using find?_eq_none.mp hfind orphan hmem
    | some tx =>
      have htx := mem_of_find?_eq_some hfind
      have hhash : tx.hash = orphanHash := by simpa using find?_some hfind
      rcases haccept : ops.acceptToMemoryPool s.mempool tx with ⟨refusal, pool⟩
      have hsubmit := h.submit hops (hcovered tx htx) haccept
      have herased : ∀ orphan ∈ s.mapOrphanTransactions.filter fun tx => tx.hash ≠ orphanHash,
          orphan.hash ≠ orphanHash := fun orphan hmem => by simpa using (mem_filter.mp hmem).2
      simp only [haccept]
      rcases refusal with _ | result
      · refine hsubmit.mono filter_sublist fun orphan hmem _ hwork => ?_
        have hnext := hwork.imp_left (hrest orphan (herased orphan hmem))
        simp only [mem_idSet, mem_append]
        tauto
      · dsimp only
        split_ifs with hmissing
        · subst hmissing
          obtain ⟨rfl, hnot⟩ := hops.missing haccept
          refine ih (h.mono (.refl _) fun orphan hmem hready => hrest orphan fun heq => hnot ?_)
          -- The transaction is the only orphan with its id.
          rwa [← inj_on_of_nodup_map h.1 hmem htx (heq.trans hhash.symm)]
        · obtain ⟨hpool, horphans⟩ := noteRefusal_fields { s with mempool := pool } tx result
          rw [TxState.eraseOrphanTx, hpool, horphans]
          exact hsubmit.mono filter_sublist fun orphan hmem _ hwork =>
            hrest orphan (herased orphan hmem) (hwork.resolve_right fun h => by cases h.1)

theorem Settled.keepOrphan (h : Settled available old work s.mempool s.mapOrphanTransactions)
    {m : TxMessage} (hnot : ¬ Ready available s.mempool m.tx) :
    Settled available old work (s.keepOrphan ops m).mempool
      (s.keepOrphan ops m).mapOrphanTransactions := by
  unfold TxState.keepOrphan
  split_ifs
  · exact h
  · unfold TxState.addOrphanTx
    split_ifs with hkept
    · exact h.mono filter_sublist fun _ _ _ => id
    · have hnew : ∀ orphan ∈ s.mapOrphanTransactions, orphan.hash ≠ m.tx.hash := by simp_all
      have hadd : Settled available old work s.mempool (s.mapOrphanTransactions ++ [m.tx]) :=
        ⟨by simpa [nodup_append, h.1] using hnew,
          forall_mem_append.mpr ⟨h.2, forall_mem_singleton.mpr fun hready => absurd hready hnot⟩⟩
      exact hadd.mono filter_sublist fun _ _ _ => id

/-- What is settled, for all peers. -/
def OrphanState.Settled (available : Pool → OutputIndex → Prop) (old : CTransaction → Prop)
    (s : OrphanState Pool) : Prop :=
  NetProcessing.Settled available old (fun hash => ∃ peer, hash ∈ s.work peer) s.tx.mempool
    s.tx.mapOrphanTransactions

namespace OrphanState

variable {s : OrphanState Pool} {peer : NodeId}

theorem Settled.receive (hops : Lawful available spent ops) (h : s.Settled available old)
    {m : TxMessage}
    (hcovered : Covered spent s.tx m.tx) : (s.receive ops peer m).Settled available old := by
  obtain ⟨hpool, horphans⟩ := refresh_fields s.tx
  unfold Settled at h
  unfold Covered Found at hcovered
  rw [← hpool, ← horphans] at h hcovered
  rcases haccept : ops.acceptToMemoryPool s.tx.refresh.mempool m.tx with ⟨refusal, pool⟩
  simp only [OrphanState.receive, haccept]
  split_ifs
  · exact h
  · have hsubmit := h.submit hops hcovered haccept
    rcases refusal with _ | result
    · refine hsubmit.mono (.refl _) fun orphan _ _ hwork => ?_
      rcases hwork with ⟨p, hp⟩ | ⟨-, hwoken⟩
      · refine ⟨p, ?_⟩
        rcases eq_or_ne p peer with rfl | hne
        · simp [mem_idSet, hp]
        · simpa [hne] using hp
      · exact ⟨peer, by simpa [mem_idSet] using .inl hwoken⟩
    · replace hsubmit : NetProcessing.Settled available old (fun hash => ∃ peer, hash ∈ s.work peer)
        pool _ :=
        hsubmit.mono (.refl _) fun _ _ _ hwork => hwork.resolve_right nofun
      unfold Settled afterRefusal
      dsimp only
      split_ifs with hmissing
      · subst hmissing
        obtain ⟨rfl, hnot⟩ := hops.missing haccept
        exact hsubmit.keepOrphan hnot
      · obtain ⟨hpool, horphans⟩ := noteRefusal_fields { s.tx.refresh with mempool := pool }
          m.tx result
        rwa [hpool, horphans]

theorem Settled.reconsider (hops : Lawful available spent ops) (h : s.Settled available old)
    (hcovered : ∀ tx ∈ s.tx.mapOrphanTransactions, Covered spent s.tx tx) :
    (s.reconsider ops peer).Settled available old := by
  have hsplit : NetProcessing.Settled available old
      (fun hash => hash ∈ s.work peer ∨ ∃ p ≠ peer, hash ∈ s.work p) s.tx.mempool
        s.tx.mapOrphanTransactions := by
    refine h.mono (.refl _) fun orphan _ _ ⟨p, hp⟩ => ?_
    rcases eq_or_ne p peer with rfl | hne
    · exact .inl hp
    · exact .inr ⟨p, hne, hp⟩
  refine (hsplit.processOrphanTx hops hcovered).mono (.refl _) fun orphan _ _ hwork => ?_
  rcases hwork with hleft | ⟨p, hne, hp⟩
  · exact ⟨peer, by simpa [OrphanState.reconsider] using hleft⟩
  · exact ⟨p, by simpa [OrphanState.reconsider, hne] using hp⟩

end OrphanState

/-- The orphans that spend from a transaction are at work afterwards if and only if they are found.
-/
theorem woken_iff (hnodup : (s.mapOrphanTransactions.map (·.hash)).Nodup) {workSet : List Uint256} :
    (∀ orphan ∈ s.mapOrphanTransactions, SpendsFrom orphan tx →
      orphan.hash ∈ idSet (s.orphansOf tx ++ workSet)) ↔ Found s tx workSet := by
  have hmem : ∀ orphan ∈ s.mapOrphanTransactions, orphan.hash ∈ idSet (s.orphansOf tx ++ workSet) ↔
      SpendsCanonical orphan tx ∨ orphan.hash ∈ workSet := by
    intro orphan horphan
    rw [mem_idSet, mem_append, mem_orphansOf]
    refine or_congr_left ⟨?_, fun h => ⟨orphan, horphan, h, rfl⟩⟩
    rintro ⟨other, hother, hspends, heq⟩
    rwa [← inj_on_of_nodup_map hnodup hother horphan heq]
  constructor
  · intro h orphan horphan id hin hout
    exact (hmem orphan horphan).mp (h orphan horphan ⟨_, hin, hout⟩)
  · rintro h orphan horphan ⟨i, hin, hout⟩
    refine (hmem orphan horphan).mpr ?_
    cases i with
    | canonical p => exact .inl ⟨p, hin, hout⟩
    | mweb id => exact h orphan horphan id hin hout

/-- When a transaction is accepted, the orphans that spend from it are at work if and only if those
are found that spend from it in the extension block; and in a run of covered steps, when all work
sets are empty, an orphan that is ready was so from the start. -/
theorem orphans_woken_iff (hops : Lawful available spent ops) {s0 : OrphanState Pool}
    (hnodup : (s0.tx.mapOrphanTransactions.map (·.hash)).Nodup) :
    (∀ peer m, (s0.tx.processTx ops m).1 →
      ((∀ orphan ∈ s0.tx.mapOrphanTransactions, SpendsFrom orphan m.tx →
        orphan.hash ∈ (s0.receive ops peer m).work peer) ↔ Found s0.tx m.tx (s0.work peer))) ∧
    (∀ hash workSet tx, s0.tx.mapOrphanTransactions.find? (fun tx => tx.hash = hash) = some tx →
      (ops.acceptToMemoryPool s0.tx.mempool tx).1 = none →
      ((∀ orphan ∈ s0.tx.mapOrphanTransactions, SpendsFrom orphan tx →
        orphan.hash ∈ (s0.tx.processOrphanTx ops (hash :: workSet)).2) ↔ Found s0.tx tx workSet)) ∧
    ∀ s, Machine.Reachable (CoveredStep spent) (orphanStep ops) s0 s → (∀ peer, s.work peer = []) →
      ∀ orphan ∈ s.tx.mapOrphanTransactions, Ready available s.tx.mempool orphan →
        orphan ∈ s0.tx.mapOrphanTransactions ∧ Ready available s0.tx.mempool orphan := by
  refine ⟨fun peer m haccept => ?_, fun hash workSet tx hfind haccept => ?_, fun s hrun hdone => ?_⟩
  · obtain ⟨hnew, haccept⟩ := accepted_iff.mp haccept
    obtain ⟨hpool, horphans⟩ := refresh_fields s0.tx
    have hwork : (s0.receive ops peer m).work peer =
        idSet (s0.tx.orphansOf m.tx ++ s0.work peer) := by
      simp [OrphanState.receive, hnew, hpool, haccept, orphansOf, horphans]
    rw [hwork, woken_iff hnodup]
  · have hleft : (s0.tx.processOrphanTx ops (hash :: workSet)).2 =
        idSet (s0.tx.orphansOf tx ++ workSet) := by
      simp [processOrphanTx, hfind, haccept, orphansOf]
    rw [hleft, woken_iff hnodup]
  · have hsettled : s.Settled available fun orphan => orphan ∈ s0.tx.mapOrphanTransactions ∧
        Ready available s0.tx.mempool orphan := by
      refine hrun.invariant ⟨hnodup, fun orphan hmem hready => .inr ⟨hmem, hready⟩⟩ ?_
      rintro s (⟨peer, m⟩ | peer) s' o h hcovered hstep <;> cases hstep
      · exact h.receive hops hcovered
      · exact h.reconsider hops hcovered
    refine fun orphan hmem hready => (hsettled.2 orphan hmem hready).resolve_left ?_
    simp [hdone]

/-- A pool that takes what spends outputs of its transactions. -/
def listPool : PoolOps (List CTransaction) where
  exists? pool hash := pool.any fun tx => tx.m_witness_hash = hash
  acceptToMemoryPool pool tx := if ∀ i ∈ tx.getInputs, ∃ t ∈ pool,
    i ∈ t.getOutputs then (none, tx :: pool) else (some .missingInputs, pool)
  getTransactionWeight _ := 0

/-- The pool has a transaction, and an orphan waits for another that spends from it. -/
def waiting : OrphanState (List CTransaction) :=
  ⟨⟨[mwebTx 0 1 2], 0, 0, [], [], [mwebTx 5 6 4]⟩, fun _ => []⟩

/-- The other transaction is accepted, and the orphan, which spends from it, is left and not at
work. -/
theorem orphan_not_woken :
    (waiting.tx.processTx listPool ⟨mwebTx 1 5 3, [], []⟩).1 ∧
    SpendsFrom (mwebTx 5 6 4) (mwebTx 1 5 3) ∧
    (waiting.receive listPool 0 ⟨mwebTx 1 5 3, [], []⟩).work 0 = [] ∧
    (waiting.receive listPool 0 ⟨mwebTx 1 5 3, [], []⟩).tx.mapOrphanTransactions = [mwebTx 5 6 4] ∧
    Ready (fun pool i => ∃ t ∈ pool, i ∈ t.getOutputs)
      (waiting.receive listPool 0 ⟨mwebTx 1 5 3, [], []⟩).tx.mempool (mwebTx 5 6 4) := by
  unfold Ready SpendsFrom
  decide +kernel

/-- The orphan is not found, and after a transaction it does not wait for it is not ready. -/
theorem waiting_not_found : ¬ Found waiting.tx (mwebTx 1 5 3) [] ∧
    ∀ orphan ∈ (waiting.receive listPool 0 ⟨mwebTx 1 9 3, [], []⟩).tx.mapOrphanTransactions,
      ¬ Ready (fun pool i => ∃ t ∈ pool, i ∈ t.getOutputs)
        (waiting.receive listPool 0 ⟨mwebTx 1 9 3, [], []⟩).tx.mempool orphan := by
  have hops : Lawful (fun pool i => ∃ t ∈ pool, i ∈ t.getOutputs) (fun _ _ => False) listPool := by
    refine ⟨fun {pool tx pool'} h => ?_, fun {pool tx r pool' i} h hi => ?_⟩ <;>
      simp only [listPool] at h <;> split_ifs at h with hready <;> cases h
    · exact ⟨rfl, hready⟩
    · simpa [or_comm] using hi
    · exact .inl hi
  have hnodup : (waiting.tx.mapOrphanTransactions.map (·.hash)).Nodup := by decide +kernel
  obtain ⟨hwoken, -, hleft⟩ := orphans_woken_iff hops hnodup
  refine ⟨(not_congr (hwoken 0 ⟨mwebTx 1 5 3, [], []⟩ (by decide +kernel))).mp
    (by unfold SpendsFrom; decide +kernel), fun orphan hmem hready => ?_⟩
  have hcovered : Covered (fun _ _ => False) waiting.tx (mwebTx 1 9 3) := by
    refine ⟨fun orphan horphan id hin hout => ?_, fun _ _ _ _ => id⟩
    cases mem_singleton.mp horphan
    cases mem_singleton.mp hin
    cases mem_singleton.mp hout
  obtain ⟨hold, hready⟩ := hleft _
    (.step (i := .receive 0 ⟨mwebTx 1 9 3, [], []⟩) .init hcovered rfl)
    (congrFun (Function.update_eq_self 0 waiting.work)) orphan hmem hready
  cases mem_singleton.mp hold
  revert hready
  unfold Ready
  decide +kernel

end DefcoinCore.NetProcessing
