import DefcoinCore.Mempool.Pool
import DefcoinCore.Mweb.Miner

/-!
# Transactions that were refused

The handler of `TX` messages, with the filter of refused transactions and the orphans.
`AlreadyHaveTx` looks a transaction up by the hash with witnesses, which does not cover the
Mimblewimble data; whether the memory pool takes it depends on these. `accepted_after_iff` says
which refusals of variants of a transaction leave the way open for it.
-/

namespace DefcoinCore.NetProcessing

open List Mempool

/-- The memory pool and `AcceptToMemoryPool`, which returns why it refuses, or nothing. -/
structure PoolOps (Pool : Type) where
  exists? : Pool → Uint256 → Bool
  acceptToMemoryPool : Pool → CTransaction → Option TxValidationResult × Pool
  getTransactionWeight : CTransaction → Nat

structure TxState (Pool : Type) where
  mempool : Pool
  tip : Uint256
  hashRecentRejectsChainTip : Uint256
  recentRejects : List Uint256
  recentConfirmed : List Uint256
  mapOrphanTransactions : List CTransaction

/-- A `TX` message, with the orphans that `m_orphan_work_set` of the peer has, and those that
`LimitOrphanTxSize` takes out, be it by time or at random. -/
structure TxMessage where
  tx : CTransaction
  workSet : List Uint256
  evicted : List Uint256

variable {Pool : Type} (ops : PoolOps Pool)

namespace TxState

/-- The first part of `AlreadyHaveTx`: a new tip resets the filter. -/
def refresh (s : TxState Pool) : TxState Pool :=
  if s.tip ≠ s.hashRecentRejectsChainTip then
    { s with hashRecentRejectsChainTip := s.tip, recentRejects := [] }
  else s

/-- The rest of `AlreadyHaveTx`, for a hash with witnesses. -/
def alreadyHaveTx (s : TxState Pool) (hash : Uint256) : Bool :=
  s.mapOrphanTransactions.any (fun tx => tx.m_witness_hash = hash) ||
    s.recentConfirmed.contains hash || s.recentRejects.contains hash || ops.exists? s.mempool hash

/-- `EraseOrphanTx`. -/
def eraseOrphanTx (s : TxState Pool) (hash : Uint256) : TxState Pool :=
  { s with mapOrphanTransactions := s.mapOrphanTransactions.filter fun tx => tx.hash ≠ hash }

/-- `AddOrphanTx`; `MAX_STANDARD_TX_WEIGHT` is 400000. -/
def addOrphanTx (s : TxState Pool) (tx : CTransaction) : TxState Pool :=
  if s.mapOrphanTransactions.any (fun orphan => orphan.hash = tx.hash) ∨
      ops.getTransactionWeight tx > 400000 then s
  else { s with mapOrphanTransactions := s.mapOrphanTransactions ++ [tx] }

/-- `LimitOrphanTxSize`, by the orphans that it takes out. -/
def limitOrphanTxSize (s : TxState Pool) (evicted : List Uint256) : TxState Pool :=
  { s with mapOrphanTransactions := s.mapOrphanTransactions.filter fun tx => tx.hash ∉ evicted }

/-- What the filter notes of a transaction that is refused, other than for missing inputs. -/
def noteRefusal (s : TxState Pool) (tx : CTransaction) (result : TxValidationResult) :
    TxState Pool :=
  if result = .witnessStripped then s
  else { s with recentRejects := s.recentRejects ++ tx.m_witness_hash ::
    if result = .inputsNotStandard ∧ tx.m_witness_hash ≠ tx.hash then [tx.hash] else [] }

/-- The orphans that spend an output of a transaction. -/
def orphansOf (s : TxState Pool) (tx : CTransaction) : List Uint256 :=
  (s.mapOrphanTransactions.filter fun orphan =>
    orphan.vin.any fun txin => txin.prevout.hash = tx.hash ∧
      txin.prevout.n.toNat < tx.vout.length).map (·.hash)

/-- `ProcessOrphanTx`: the state and the work set that is left. The least hash is at its front. -/
def processOrphanTx (s : TxState Pool) : List Uint256 → TxState Pool × List Uint256
  | [] => (s, [])
  | orphanHash :: workSet =>
    match s.mapOrphanTransactions.find? fun tx => tx.hash = orphanHash with
    | none => processOrphanTx s workSet
    | some tx =>
      let (refusal, mempool) := ops.acceptToMemoryPool s.mempool tx
      let s := { s with mempool }
      match refusal with
      | none => (s.eraseOrphanTx orphanHash, idSet (s.orphansOf tx ++ workSet))
      | some result =>
        if result = .missingInputs then processOrphanTx s workSet
        else ((s.noteRefusal tx result).eraseOrphanTx orphanHash, workSet)

/-- The handler for a transaction with missing inputs. -/
def keepOrphan (s : TxState Pool) (m : TxMessage) : TxState Pool :=
  if m.tx.vin.any fun txin => s.recentRejects.contains txin.prevout.hash then
    { s with recentRejects := s.recentRejects ++ [m.tx.hash, m.tx.m_witness_hash] }
  else (s.addOrphanTx ops m.tx).limitOrphanTxSize m.evicted

/-- The handler for a transaction that is refused. -/
def afterRefusal (s : TxState Pool) (m : TxMessage) (result : TxValidationResult) : TxState Pool :=
  if result = .missingInputs then s.keepOrphan ops m else s.noteRefusal m.tx result

/-- The handler of a `TX` message: whether the transaction was accepted, and the state. -/
def processTx (s : TxState Pool) (m : TxMessage) : Bool × TxState Pool :=
  let s := s.refresh
  if s.alreadyHaveTx ops m.tx.m_witness_hash then (false, s)
  else
    let (refusal, mempool) := ops.acceptToMemoryPool s.mempool m.tx
    let s := { s with mempool }
    match refusal with
    | none => (true, (s.processOrphanTx ops (idSet (s.orphansOf m.tx ++ m.workSet))).1)
    | some result => (false, s.afterRefusal ops m result)

/-- Messages in a row. -/
def processTxs (s : TxState Pool) (ms : List TxMessage) : TxState Pool :=
  ms.foldl (fun s m => (s.processTx ops m).2) s

/-! ## What a refusal leaves behind -/

/-- The refusal of a message leaves nothing behind by which its transaction is taken for known: a
witness is missing, or inputs are and the transaction is not kept among the orphans. -/
def Harmless (s : TxState Pool) (m : TxMessage) : Prop :=
  (ops.acceptToMemoryPool s.mempool m.tx).1 = some .witnessStripped ∨
    (ops.acceptToMemoryPool s.mempool m.tx).1 = some .missingInputs ∧
      (∀ txin ∈ m.tx.vin, txin.prevout.hash ∉ s.refresh.recentRejects) ∧
      ((∃ orphan ∈ s.mapOrphanTransactions, orphan.hash = m.tx.hash) ∨
        ops.getTransactionWeight m.tx > 400000 ∨ m.tx.hash ∈ m.evicted)

/-- The refusals of all messages are harmless. -/
def HarmlessRun (s : TxState Pool) : List TxMessage → Prop
  | [] => True
  | m :: ms => s.Harmless ops m ∧ (s.processTx ops m).2.HarmlessRun ms

/-- No message is accepted. -/
def Refused (s : TxState Pool) : List TxMessage → Prop
  | [] => True
  | m :: ms => (s.processTx ops m).1 = false ∧ (s.processTx ops m).2.Refused ms

variable {ops} {s : TxState Pool} {m t : TxMessage}

theorem refresh_eq_self (h : s.tip = s.hashRecentRejectsChainTip) : s.refresh = s :=
    if_neg (not_not.mpr h)

theorem tip_refresh (s : TxState Pool) : s.refresh.tip = s.refresh.hashRecentRejectsChainTip := by
  unfold refresh
  split_ifs with h
  · rfl
  · exact not_not.mp h

theorem refresh_fields (s : TxState Pool) : s.refresh.mempool = s.mempool ∧
    s.refresh.mapOrphanTransactions = s.mapOrphanTransactions := by
  unfold refresh
  split_ifs <;> exact ⟨rfl, rfl⟩

theorem accepted_iff : (s.processTx ops m).1 ↔
    s.refresh.alreadyHaveTx ops m.tx.m_witness_hash = false ∧
      (ops.acceptToMemoryPool s.mempool m.tx).1 = none := by
  unfold processTx
  dsimp only
  rw [(refresh_fields s).1]
  split_ifs with hhave
  · simp [hhave]
  · rw [Bool.not_eq_true] at hhave
    rw [and_iff_right hhave]
    split <;> simp [*]

/-- The refusals that are found before the pool is touched. -/
def KeepsPool (ops : PoolOps Pool) : Prop := ∀ pool tx,
  (ops.acceptToMemoryPool pool tx).1 = some .witnessStripped ∨
    (ops.acceptToMemoryPool pool tx).1 = some .missingInputs →
    (ops.acceptToMemoryPool pool tx).2 = pool

/-- After a refusal the transaction is taken for known unless the refusal is harmless, and then the
pool is as it was. -/
theorem refusal_spec (hops : KeepsPool ops)
    (hnew : s.refresh.alreadyHaveTx ops m.tx.m_witness_hash = false)
    (hrefused : (s.processTx ops m).1 = false) :
    (s.processTx ops m).2.tip = (s.processTx ops m).2.hashRecentRejectsChainTip ∧
      ((s.processTx ops m).2.alreadyHaveTx ops m.tx.m_witness_hash = false ↔ s.Harmless ops m) ∧
      (s.Harmless ops m → (s.processTx ops m).2.mempool = s.mempool) := by
  have htip := tip_refresh s
  have hkeeps := hops s.mempool m.tx
  rcases haccept : ops.acceptToMemoryPool s.mempool m.tx with ⟨_ | result, pool⟩
  · rw [← Bool.not_eq_true, accepted_iff, haccept] at hrefused
    exact absurd ⟨hnew, rfl⟩ hrefused
  have hnext : (s.processTx ops m).2 = { s.refresh with mempool := pool }.afterRefusal ops m
      result := by
    simp only [processTx, hnew, (refresh_fields s).1, haccept, Bool.false_eq_true, if_false]
  rw [hnext, Harmless, haccept, ← (refresh_fields s).2]
  rw [haccept] at hkeeps
  have hmempool := (refresh_fields s).1
  generalize s.refresh = s' at *
  simp only [alreadyHaveTx, Bool.or_eq_false_iff, any_eq_false, contains_eq_mem,
    decide_eq_false_iff_not, decide_eq_true_eq] at hnew ⊢
  obtain ⟨⟨⟨horphans, hconfirmed⟩, hrejects⟩, hpool⟩ := hnew
  unfold afterRefusal
  split_ifs with hmissing
  · subst hmissing
    obtain rfl : pool = s.mempool := hkeeps (.inr rfl)
    rw [hmempool] at hpool
    unfold keepOrphan
    split_ifs with hparent
    · simp only [any_eq_true, contains_eq_mem, decide_eq_true_eq] at hparent
      obtain ⟨txin, hmem, hrejected⟩ := hparent
      refine ⟨htip, iff_of_false (fun h => h.1.2 (by simp)) ?_, fun _ => rfl⟩
      rintro (h | ⟨-, h, -⟩)
      · cases h
      · exact h txin hmem hrejected
    · have hparents : ∀ txin ∈ m.tx.vin,
        txin.prevout.hash ∉ s'.recentRejects := by simpa using hparent
      unfold limitOrphanTxSize addOrphanTx
      split_ifs with hkept
      · refine ⟨htip,
          iff_of_true ⟨⟨⟨fun x hx => horphans x (mem_filter.mp hx).1, hconfirmed⟩, hrejects⟩,
          hpool⟩ (.inr ⟨rfl, hparents, ?_⟩), fun _ => rfl⟩
        simpa [or_assoc] using hkept.imp_right Or.inl
      · refine ⟨htip, ?_, fun _ => rfl⟩
        simp only [any_eq_true, decide_eq_true_eq, not_or] at hkept
        constructor
        · intro h
          refine .inr ⟨rfl, hparents, .inr (.inr ?_)⟩
          by_contra hstays
          exact h.1.1.1 m.tx (mem_filter.mpr ⟨by simp, by simpa using hstays⟩) rfl
        · rintro (h | ⟨-, -, h⟩)
          · cases h
          · have hevicted := (h.resolve_left hkept.1).resolve_left hkept.2
            refine ⟨⟨⟨fun x hx => ?_, hconfirmed⟩, hrejects⟩, hpool⟩
            obtain ⟨hx, hstays⟩ := mem_filter.mp hx
            rcases mem_append.mp hx with hx | hx
            · exact horphans x hx
            · rw [mem_singleton.mp hx] at hstays
              exact absurd hevicted (by simpa using hstays)
  · unfold noteRefusal
    by_cases hstripped : result = .witnessStripped
    · subst hstripped
      obtain rfl : pool = s.mempool := hkeeps (.inl rfl)
      rw [hmempool] at hpool
      exact ⟨htip, iff_of_true ⟨⟨⟨horphans, hconfirmed⟩, hrejects⟩, hpool⟩ (.inl rfl), fun _ => rfl⟩
    · rw [if_neg hstripped]
      refine ⟨htip, iff_of_false (fun h => h.1.2 (by simp)) ?_, ?_⟩ <;> simp [hstripped, hmissing]

/-- A known transaction stays known, and what carries it is dropped. -/
theorem processTxs_of_known {ms : List TxMessage}
    (hknown : s.refresh.alreadyHaveTx ops t.tx.m_witness_hash)
    (hms : ∀ m ∈ ms, m.tx.m_witness_hash = t.tx.m_witness_hash) :
    ((s.processTxs ops ms).processTx ops t).1 = false := by
  induction ms generalizing s with
  | nil =>
    rw [← Bool.not_eq_true, processTxs, foldl_nil, accepted_iff, hknown]
    exact fun h => Bool.noConfusion h.1
  | cons m ms ih =>
    rw [forall_mem_cons] at hms
    have hnext : (s.processTx ops m).2 = s.refresh := by
      unfold processTx
      rw [hms.1, if_pos hknown]
    rw [processTxs, foldl_cons, hnext]
    exact ih (by rwa [refresh_eq_self (tip_refresh s)]) hms.2

/-- After any number of refused messages with one hash, a transaction with this hash that would have
been accepted before is accepted if and only if all refusals were harmless. -/
theorem accepted_after_iff (hops : KeepsPool ops) {ms : List TxMessage}
    (ht : (s.processTx ops t).1) (hms : ∀ m ∈ ms, m.tx.m_witness_hash = t.tx.m_witness_hash)
    (hrefused : s.Refused ops ms) :
    ((s.processTxs ops ms).processTx ops t).1 ↔ s.HarmlessRun ops ms := by
  induction ms generalizing s with
  | nil => exact iff_of_true ht trivial
  | cons m ms ih =>
    rw [forall_mem_cons] at hms
    obtain ⟨hnew, haccept⟩ := accepted_iff.mp ht
    rw [← hms.1] at hnew
    obtain ⟨htip, hknown, hpool⟩ := refusal_spec hops hnew hrefused.1
    rw [processTxs, foldl_cons, HarmlessRun]
    by_cases hharmless : s.Harmless ops m
    · rw [and_iff_right hharmless]
      refine ih (accepted_iff.mpr ⟨?_, ?_⟩) hms.2 hrefused.2
      · rw [refresh_eq_self htip, ← hms.1]
        exact hknown.mpr hharmless
      · rw [hpool hharmless]
        exact haccept
    · refine iff_of_false ?_ fun h => hharmless h.1
      rw [← hknown, Bool.not_eq_false, hms.1, ← refresh_eq_self htip] at hharmless
      rw [Bool.not_eq_true]
      exact processTxs_of_known hharmless hms.2

end TxState

/-- A pool that takes what `MWEB::Node::CheckTransaction` lets through. -/
def checkingPool : PoolOps (List Uint256) where
  exists? pool hash := pool.contains hash
  acceptToMemoryPool pool tx := match Mweb.Node.checkTransaction Mweb.plainCrypto tx with
    | .ok () => (none, pool ++ [tx.m_witness_hash])
    | .error e => (some e.result, pool)
  getTransactionWeight _ := 0

/-- A transaction with Mimblewimble data alone. -/
def genuineTx : CTransaction := Mweb.pegoutTx [0x51]

/-- The same with its input twice: the id, which is that of the first kernel, is the same. -/
def variantTx : CTransaction := { genuineTx with
  mweb_tx := genuineTx.mweb_tx.map fun tx =>
    { tx with body := { tx.body with inputs := tx.body.inputs ++ tx.body.inputs } } }

open TxState in
/-- The variant is refused, and after that the transaction is dropped. -/
theorem variant_censors :
    (processTx checkingPool ⟨[], 0, 0, [], [], []⟩ ⟨genuineTx, [], []⟩).1 ∧
    (processTx checkingPool ⟨[], 0, 0, [], [], []⟩ ⟨variantTx, [], []⟩).1 = false ∧
    (processTx checkingPool (processTxs checkingPool ⟨[], 0, 0, [], [], []⟩ [⟨variantTx, [], []⟩])
      ⟨genuineTx, [], []⟩).1 = false := by
  decide +kernel

open TxState in
/-- The refusal of the variant is not a harmless one. -/
theorem variant_not_harmless :
    ¬ HarmlessRun checkingPool ⟨[], 0, 0, [], [], []⟩ [⟨variantTx, [], []⟩] := by
  have hkeeps : KeepsPool checkingPool := by
    intro pool tx h
    revert h
    simp only [checkingPool]
    split <;> simp
  have hrefused : Refused checkingPool ⟨[], 0, 0, [], [], []⟩ [⟨variantTx, [], []⟩] :=
    ⟨by decide +kernel, trivial⟩
  refine (not_congr (accepted_after_iff (t := ⟨genuineTx, [], []⟩) hkeeps (by decide +kernel) ?_
    hrefused)).mp (by decide +kernel)
  exact forall_mem_singleton.mpr (by decide +kernel)

end DefcoinCore.NetProcessing
