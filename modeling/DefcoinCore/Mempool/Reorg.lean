import DefcoinCore.Mempool.Accept

/-!
# Transactions of disconnected blocks

While the chain is reorganised, the transactions of disconnected blocks are queued. `DisconnectTip`
queues what the cache has for the kernels of the extension block, in the order of the kernels' ids,
and then the transactions of the block from the last to the first; `ConnectTip` takes those that are
confirmed again off the queue; at the end `UpdateMempoolForReorg` goes through the queue backwards
and submits each one to the pool again.

A transaction of the block comes before what it spends from in the queue, and so is submitted after
it. The cache breaks this: a transaction that spends from a cached one of the same block is
submitted before it, and so is a cached transaction whose kernel has a greater id than that of the
one it spends from. Where the cache brings back nothing of the kind, everything is submitted after
what it spends from (`resubmission_in_order`).
-/

namespace DefcoinCore.Mempool

open Std List

/-! ## The code -/

/-- `DisconnectedBlockTransactions`, in the order of insertion. -/
structure DisconnectedBlockTransactions where
  queuedTx : List CTransaction
  cachedInnerUsage : Int

namespace DisconnectedBlockTransactions

-- `usage` is `RecursiveDynamicUsage` of a transaction
variable (usage : CTransaction → Nat) (disconnectpool : DisconnectedBlockTransactions)

/-- `addTransaction`. -/
def addTransaction (tx : CTransaction) : DisconnectedBlockTransactions :=
  if tx.hash ∈ disconnectpool.queuedTx.map (·.hash) then disconnectpool
  else ⟨disconnectpool.queuedTx ++ [tx], disconnectpool.cachedInnerUsage + usage tx⟩

/-- An entry is found by its id and erased. -/
def eraseTx (tx : CTransaction) : DisconnectedBlockTransactions :=
  match disconnectpool.queuedTx.find? fun q => q.hash = tx.hash with
  | none => disconnectpool
  | some q =>
    ⟨disconnectpool.queuedTx.filter fun q =>
      q.hash ≠ tx.hash, disconnectpool.cachedInnerUsage - usage q⟩

/-- `removeForBlock`. -/
def removeForBlock (vtx : List CTransaction) : DisconnectedBlockTransactions :=
  vtx.foldl (eraseTx usage) disconnectpool

/-- `MAX_DISCONNECTED_TX_POOL_SIZE * 1000`. -/
def maxDisconnectedTxPoolSize : Int := 20000 * 1000

/-- The loop of `DisconnectTip` that drops the oldest entries while they take too much memory: 80
bytes each on top of the transactions. -/
def dropOldest (pool : CTxMemPool) : List CTransaction → Int →
    Except Fault (CTxMemPool × DisconnectedBlockTransactions)
  | [], cachedInnerUsage => .ok (pool, ⟨[], cachedInnerUsage⟩)
  | tx :: queuedTx, cachedInnerUsage =>
    if 80 * (queuedTx.length + 1) + cachedInnerUsage > maxDisconnectedTxPoolSize then do
      let pool ← pool.removeRecursive tx .reorg
      dropOldest pool queuedTx (cachedInnerUsage - usage tx)
    else .ok (pool, ⟨tx :: queuedTx, cachedInnerUsage⟩)

end DisconnectedBlockTransactions

open DisconnectedBlockTransactions

/-- `GetKernelIDs` of the extension block. -/
def kernelIDs (block : CBlock) : List Mweb.Hash :=
  idSet (block.mweb_block.elim [] fun mweb_block => mweb_block.body.kernels.map (·.hash))

/-- What the cache has for the kernels of a block. -/
def cachedTxs (pool : CTxMemPool) (block : CBlock) : List CTransaction :=
  (kernelIDs block).filterMap pool.recentTxsByKernel.get?

/-- The active chain from the tip on, the memory pool and the queue. -/
structure ReorgState where
  chain : List CBlock
  mempool : CTxMemPool
  disconnectpool : DisconnectedBlockTransactions

namespace ReorgState

variable (usage : CTransaction → Nat) (s : ReorgState)

/-- `DisconnectTip`, once the coins of the block are undone. -/
def disconnectTip : Except Fault ReorgState :=
  match s.chain with
  | [] => .error .assertion
  | block :: chain => do
    let disconnectpool :=
      (cachedTxs s.mempool block).foldl (addTransaction usage) s.disconnectpool
    let disconnectpool := block.vtx.reverse.foldl (addTransaction usage) disconnectpool
    let r ← dropOldest usage s.mempool disconnectpool.queuedTx disconnectpool.cachedInnerUsage
    pure ⟨chain, r.1, r.2⟩

/-- `ConnectTip`, once the coins of the block are spent and created. -/
def connectTip (order : List Uint256) (block : CBlock) : Except Fault ReorgState := do
  let mempool ← s.mempool.removeForBlock order block
  pure ⟨block :: s.chain, mempool,
    s.disconnectpool.removeForBlock usage (s.mempool.confirmedBy order block)⟩

end ReorgState

/-- The calls that share one queue, with the order of `mapTx`. -/
inductive ReorgOp where
  | disconnect
  | connect (order : List Uint256) (block : CBlock)

def reorgStep (usage : CTransaction → Nat) (s : ReorgState) : ReorgOp →
    Except Fault (ReorgState × Unit)
  | .disconnect => (s.disconnectTip usage).map fun s => (s, ())
  | .connect order block => (s.connectTip usage order block).map fun s => (s, ())

/-- What `AcceptToMemoryPool` reads besides the pool, for each transaction. -/
structure Submission where
  env : AcceptEnv
  entryFor : CTransaction → EntryInfo
  tx_entryFor : ∀ tx, (entryFor tx).tx = tx

/-- Coinbases and HogExes are not submitted again. -/
def submitted (tx : CTransaction) : Bool := !tx.isCoinBase && !tx.m_hogEx

variable (submission : Submission)

/-- A transaction is submitted to the pool, which tells whether it is accepted. -/
def submit (fAddToMempool : Bool) (pool : CTxMemPool) (tx : CTransaction) :
    Except Fault (CTxMemPool × Bool) :=
  if fAddToMempool && submitted tx then
    (pool.accept submission.env (submission.entryFor tx)).map fun r => (r.1, r.2.isNone)
  else .ok (pool, false)

/-- One round of `UpdateMempoolForReorg`. -/
def resubmit (fAddToMempool : Bool) (r : CTxMemPool × List Uint256)
    (tx : CTransaction) : Except Fault (CTxMemPool × List Uint256) := do
  let a ← submit submission fAddToMempool r.1 tx
  if a.2 then pure (a.1, if a.1.mapTx.contains tx.hash then r.2 ++ [tx.hash] else r.2)
  else (a.1.removeRecursive tx .reorg).map fun pool => (pool, r.2)

/-- `UpdateMempoolForReorg`, up to the limits on time locks and memory. -/
def updateMempoolForReorg (fAddToMempool : Bool) (s : ReorgState) : Except Fault CTxMemPool := do
  let r ← s.disconnectpool.queuedTx.reverse.foldlM (resubmit submission fAddToMempool)
    (s.mempool, [])
  r.1.updateTransactionsFromBlock r.2

/-! ## The queue -/

/-- The transactions of a list whose ids were not seen before. -/
def unseen (seen : List Uint256) : List CTransaction → List CTransaction
  | [] => []
  | tx :: l => if tx.hash ∈ seen then unseen seen l else tx :: unseen (seen ++ [tx.hash]) l

variable {usage : CTransaction → Nat} {s s' : ReorgState}

theorem mem_of_mem_unseen {seen : List Uint256} {l : List CTransaction} {tx : CTransaction}
    (h : tx ∈ unseen seen l) : tx ∈ l ∧ tx.hash ∉ seen := by
  induction l generalizing seen with
  | nil => cases h
  | cons a l ih =>
    rw [unseen] at h
    split_ifs at h with hseen
    · exact (ih h).imp_left (mem_cons_of_mem a)
    · rcases mem_cons.mp h with rfl | h
      · exact ⟨mem_cons_self, hseen⟩
      · obtain ⟨hmem, hnot⟩ := ih h
        exact ⟨mem_cons_of_mem a hmem, fun hs => hnot (mem_append_left _ hs)⟩

theorem unseen_sublist (seen : List Uint256) (l : List CTransaction) :
    (unseen seen l).Sublist l := by
  induction l generalizing seen with
  | nil => exact .refl _
  | cons a l ih =>
    rw [unseen]
    split_ifs
    · exact (ih seen).cons a
    · exact (ih _).cons_cons a

theorem queuedTx_foldl_addTransaction (usage : CTransaction → Nat) (l : List CTransaction)
    (d : DisconnectedBlockTransactions) :
    (l.foldl (addTransaction usage) d).queuedTx =
      d.queuedTx ++ unseen (d.queuedTx.map (·.hash)) l := by
  induction l generalizing d with
  | nil => exact (append_nil _).symm
  | cons tx l ih =>
    rw [foldl_cons, ih, unseen, addTransaction]
    split_ifs with hseen
    · rfl
    · rw [map_append, map_singleton, append_assoc, singleton_append]

theorem queuedTx_removeForBlock (usage : CTransaction → Nat) (vtx : List CTransaction)
    (d : DisconnectedBlockTransactions) :
    (d.removeForBlock usage vtx).queuedTx =
      d.queuedTx.filter fun q => decide (q.hash ∉ vtx.map (·.hash)) := by
  unfold removeForBlock
  induction vtx generalizing d with
  | nil => simp
  | cons tx vtx ih =>
    have herase : (d.eraseTx usage tx).queuedTx = d.queuedTx.filter fun q =>
        decide (q.hash ≠ tx.hash) := by
      unfold eraseTx
      cases hfind : d.queuedTx.find? fun q => decide (q.hash = tx.hash) with
      | none =>
        refine (filter_eq_self.mpr fun q hq => ?_).symm
        simpa using find?_eq_none.mp hfind q hq
      | some q => rfl
    rw [foldl_cons, ih, herase, filter_filter]
    congr 1
    funext q
    simp [Bool.and_comm]

/-- What is dropped is at the front. -/
theorem dropOldest_sublist (usage : CTransaction → Nat) (pool : CTxMemPool)
    (queuedTx : List CTransaction) (cachedInnerUsage : Int) :
    IfReturns (dropOldest usage pool queuedTx cachedInnerUsage)
      fun r => r.2.queuedTx.Sublist queuedTx := by
  induction queuedTx generalizing pool cachedInnerUsage with
  | nil => exact .refl _
  | cons tx queuedTx ih =>
    rw [dropOldest]
    split_ifs
    · cases pool.removeRecursive tx .reorg with
      | error e => trivial
      | ok pool => exact (ih pool _).imp fun _ h => h.cons tx
    · exact .refl _

/-- What the cache brings back for a block: one transaction for each id that is not in the queue, in
the order of the kernels. -/
def ReorgState.brought (s : ReorgState) (block : CBlock) : List CTransaction :=
  unseen (s.disconnectpool.queuedTx.map (·.hash)) (cachedTxs s.mempool block)

/-- `DisconnectTip` puts what the cache brings back and then the other transactions of the block on
the queue, and may drop some. -/
theorem disconnectTip_spec (h : s.disconnectTip usage = .ok s') :
    ∃ block chain rest, s.chain = block :: chain ∧ s'.chain = chain ∧
      s'.disconnectpool.queuedTx.Sublist ((s.disconnectpool.queuedTx ++ s.brought block) ++ rest) ∧
      rest.Sublist block.vtx.reverse ∧ ∀ tx ∈ rest, ∀ c ∈ s.brought block, c.hash ≠ tx.hash := by
  unfold ReorgState.disconnectTip at h
  cases hchain : s.chain with
  | nil =>
    rw [hchain] at h
    cases h
  | cons block chain =>
    rw [hchain] at h
    obtain ⟨r, hdrop, h⟩ := bind_eq_ok_iff.mp h
    obtain rfl := Except.ok.inj h
    have hsub := (dropOldest_sublist usage _ _ _).of_ok hdrop
    rw [queuedTx_foldl_addTransaction, queuedTx_foldl_addTransaction] at hsub
    refine ⟨block, chain, _, rfl, rfl, hsub, unseen_sublist _ _, fun tx htx c hc heq => ?_⟩
    refine (mem_of_mem_unseen htx).2 ?_
    rw [← heq, map_append]
    exact mem_append_right _ (mem_map_of_mem hc)

/-- `ConnectTip` takes what it confirms off the queue. -/
theorem connectTip_spec {order : List Uint256} {block : CBlock}
    (h : s.connectTip usage order block = .ok s') :
    s'.chain = block :: s.chain ∧ s'.disconnectpool.queuedTx =
      s.disconnectpool.queuedTx.filter fun q =>
      decide (q.hash ∉ (s.mempool.confirmedBy order block).map (·.hash)) := by
  obtain ⟨mempool, -, h⟩ := bind_eq_ok_iff.mp h
  obtain rfl := Except.ok.inj h
  exact ⟨rfl, queuedTx_removeForBlock usage _ _⟩

/-- What both kinds of calls keep holds in every run that starts with an empty queue. -/
theorem invariant_of_reachable {guard : ReorgState → ReorgOp → Prop} {P : ReorgState → Prop}
    {s0 : ReorgState} (h : Machine.Reachable guard (reorgStep usage) s0 s) (hinit : P s0)
    (hdisconnect : ∀ s s', P s → guard s .disconnect → s.disconnectTip usage = .ok s' → P s')
    (hconnect : ∀ s s' order block, P s → guard s (.connect order block) →
      s.connectTip usage order block = .ok s' → P s') :
    P s := by
  have hmap : ∀ {x : Except Fault ReorgState} {s' : ReorgState},
      (x.map fun s => (s, ())) = .ok (s', ()) → x = .ok s' := by
    intro x s' hx
    cases x with
    | error e => cases hx
    | ok s1 => exact congrArg Except.ok (Prod.mk.inj (Except.ok.inj hx)).1
  refine h.invariant hinit fun s op s' _ hs hop hstep => ?_
  cases op with
  | disconnect => exact hdisconnect s s' hs hop (hmap hstep)
  | connect order block => exact hconnect s s' order block hs hop (hmap hstep)

/-! ## The order -/

/-- A list is related pairwise if every element is related to those before it. -/
theorem pairwise_of_split {α : Type} {R : α → α → Prop} {l : List α}
    (h : ∀ before a after, l = before ++ a :: after → ∀ b ∈ before, R b a) : l.Pairwise R := by
  rw [pairwise_iff_getElem]
  intro i j hi hj hij
  refine h (l.take j) l[j] (l.drop (j + 1)) (by simp) _ ?_
  exact mem_take_iff_getElem.mpr ⟨i, by omega, rfl⟩

/-- A transaction spends an output of another one. -/
def SpendsFrom (tx parent : CTransaction) : Prop := ∃ o ∈ tx.getInputs, o ∈ parent.getOutputs

/-- The transactions of a chain, from the newest on. -/
def chainTxs (chain : List CBlock) : List CTransaction := chain.flatMap (·.vtx.reverse)

/-- What connected blocks have: no two transactions with one id, nothing attached, and every input
is of an earlier transaction. -/
structure ValidChain (chain : List CBlock) : Prop where
  nodup : ((chainTxs chain).map (·.hash)).Nodup
  stripped : ∀ tx ∈ chainTxs chain, tx.mweb_tx = none
  inputs : ∀ newer tx older, chainTxs chain = newer ++ tx :: older → submitted tx →
    ∀ txin ∈ tx.vin, ∃ parent ∈ older, parent.hash = txin.prevout.hash

/-- No transaction of the queue is submitted before one that it spends from. -/
def InOrder (queuedTx : List CTransaction) : Prop :=
  queuedTx.Pairwise fun a b => submitted b → ¬ SpendsFrom b a

/-- A transaction with nothing attached spends from the transaction that an input names. -/
theorem exists_txin_of_spendsFrom {tx parent : CTransaction} (hstripped : tx.mweb_tx = none)
    (h : SpendsFrom tx parent) : ∃ txin ∈ tx.vin, parent.hash = txin.prevout.hash := by
  obtain ⟨o, ho, hparent⟩ := h
  rw [CTransaction.getInputs, CTransaction.getSpentIDs, hstripped, mem_append] at ho
  rcases ho with ho | ho
  · obtain ⟨txin, htxin, rfl⟩ := mem_map.mp ho
    exact ⟨txin, htxin, (parent.canonical_mem_getOutputs.mp hparent).1.symm⟩
  · obtain ⟨id, hid, -⟩ := mem_map.mp ho
    exact absurd (mem_idSet.mp hid) not_mem_nil

namespace ValidChain

variable {block : CBlock} {chain : List CBlock}

section

variable (h : ValidChain (block :: chain))

include h

theorem tail : ValidChain chain where
  nodup := by
    have hnodup := h.nodup
    rw [chainTxs, flatMap_cons, map_append] at hnodup
    exact hnodup.of_append_right
  stripped tx htx := h.stripped tx (mem_append_right _ htx)
  inputs newer tx older hsplit := h.inputs (block.vtx.reverse ++ newer) tx older (by
    rw [append_assoc, ← hsplit]
    rfl)

/-- No transaction of the tip has the id of an earlier one. -/
theorem hash_ne {q tx : CTransaction} (hq : q ∈ block.vtx.reverse) (htx : tx ∈ chainTxs chain) :
    q.hash ≠ tx.hash := by
  have hnodup := h.nodup
  rw [chainTxs, flatMap_cons, map_append, nodup_append] at hnodup
  exact hnodup.2.2 q.hash (mem_map_of_mem hq) tx.hash (mem_map_of_mem htx)

/-- What a transaction of the tip spends from is not newer than it, and is in the chain. -/
theorem spendsFrom {newer older : List CTransaction} {tx parent : CTransaction}
    (hsplit : block.vtx.reverse = newer ++ tx :: older) (hsubmitted : submitted tx)
    (hspends : SpendsFrom tx parent) :
    ∃ p ∈ older ++ chainTxs chain, p.hash = parent.hash := by
  have hall : chainTxs (block :: chain) = newer ++ tx :: (older ++ chainTxs chain) := by
    rw [chainTxs, flatMap_cons, hsplit, append_assoc, cons_append]
    rfl
  have htx : tx ∈ chainTxs (block :: chain) := by rw [hall]; simp
  obtain ⟨txin, htxin, hhash⟩ := exists_txin_of_spendsFrom (h.stripped tx htx) hspends
  obtain ⟨p, hp, hphash⟩ := h.inputs newer tx _ hall hsubmitted txin htxin
  exact ⟨p, hp, hphash.trans hhash.symm⟩

/-- The transactions of the tip, from the last to the first, are in order. -/
theorem inOrder : InOrder block.vtx.reverse := by
  refine pairwise_of_split fun newer tx older hsplit a ha hsubmitted hspends => ?_
  obtain ⟨p, hp, hhash⟩ := h.spendsFrom hsplit hsubmitted hspends
  have hnodup := h.nodup
  rw [chainTxs, flatMap_cons, hsplit, append_assoc, map_append, nodup_append] at hnodup
  refine hnodup.2.2 a.hash (mem_map_of_mem ha) a.hash (hhash ▸ mem_map_of_mem ?_) rfl
  exact mem_cons_of_mem tx hp

end

end ValidChain

/-- Where the cache brings back nothing that would be submitted in the wrong order. -/
structure CacheInOrder (s : ReorgState) (block : CBlock) (chain : List CBlock)
    (brought : List CTransaction) : Prop where
  /-- What comes from the cache spends from nothing that was queued with a later block. -/
  newer : ∀ tx ∈ brought, submitted tx → ∀ q ∈ s.disconnectpool.queuedTx, ¬ SpendsFrom tx q
  /-- Of two cached transactions the one that spends from the other has the kernel with the lesser
  id. -/
  kernels : InOrder brought
  /-- No other transaction of the block spends from a cached one. -/
  block : ∀ tx ∈ block.vtx, submitted tx → (∀ c ∈ brought, c.hash ≠ tx.hash) →
    ∀ c ∈ brought, ¬ SpendsFrom tx c
  /-- What comes from the cache is not confirmed by an earlier block. -/
  unconfirmed : ∀ c ∈ brought, ∀ tx ∈ chainTxs chain, c.hash ≠ tx.hash

/-- The blocks that are connected are valid, and the cache brings things back in order. -/
def OrderedStep (s : ReorgState) : ReorgOp → Prop
  | .disconnect => ∀ block chain, s.chain = block :: chain →
    CacheInOrder s block chain (s.brought block)
  | .connect _ block => ValidChain (block :: s.chain)

/-- What every step keeps: the queue is in order, and apart from the chain. -/
structure QueueInOrder (s : ReorgState) : Prop where
  valid : ValidChain s.chain
  inOrder : InOrder s.disconnectpool.queuedTx
  apart : ∀ q ∈ s.disconnectpool.queuedTx, ∀ tx ∈ chainTxs s.chain, q.hash ≠ tx.hash

theorem QueueInOrder.disconnect (h : QueueInOrder s) (hstep : OrderedStep s .disconnect)
    (hs' : s.disconnectTip usage = .ok s') : QueueInOrder s' := by
  obtain ⟨block, chain, rest, hchain, hchain', hsub, hrest, hother⟩ := disconnectTip_spec hs'
  have hcache := hstep block chain hchain
  have hvalid : ValidChain (block :: chain) := hchain ▸ h.valid
  have hapart : ∀ q ∈ s.disconnectpool.queuedTx, ∀ tx ∈ chainTxs (block :: chain),
    q.hash ≠ tx.hash :=
    hchain ▸ h.apart
  -- a transaction of the block spends from what is in the chain, and so from nothing that was
  -- queued
  have hold : ∀ tx ∈ rest, submitted tx → ∀ q ∈ s.disconnectpool.queuedTx, ¬ SpendsFrom tx q := by
    intro tx htx hsubmitted q hq hspends
    obtain ⟨newer, older, hsplit⟩ := append_of_mem (hrest.subset htx)
    obtain ⟨p, hp, hhash⟩ := hvalid.spendsFrom hsplit hsubmitted hspends
    refine hapart q hq p ?_ hhash.symm
    rw [chainTxs, flatMap_cons, hsplit, append_assoc]
    exact mem_append_right _ (mem_cons_of_mem tx hp)
  refine ⟨hchain' ▸ hvalid.tail, List.Pairwise.sublist hsub ?_, fun q hq tx htx => ?_⟩
  · rw [pairwise_append, pairwise_append]
    refine ⟨⟨h.inOrder, hcache.kernels, fun q hq c hc hsubmitted =>
      hcache.newer c hc hsubmitted q hq⟩,
      hvalid.inOrder.sublist hrest, fun a ha tx htx hsubmitted => ?_⟩
    rcases mem_append.mp ha with ha | ha
    · exact hold tx htx hsubmitted a ha
    · exact hcache.block tx (mem_reverse.mp (hrest.subset htx)) hsubmitted (hother tx htx) a ha
  · rw [hchain'] at htx
    rcases mem_append.mp (hsub.subset hq) with hq | hq
    · rcases mem_append.mp hq with hq | hq
      · exact hapart q hq tx (mem_append_right _ htx)
      · exact hcache.unconfirmed q hq tx htx
    · exact hvalid.hash_ne (hrest.subset hq) htx

theorem QueueInOrder.connect {order : List Uint256} {block : CBlock} (h : QueueInOrder s)
    (hvalid : ValidChain (block :: s.chain)) (hs' : s.connectTip usage order block = .ok s') :
    QueueInOrder s' := by
  obtain ⟨hchain, hqueue⟩ := connectTip_spec hs'
  refine ⟨hchain ▸ hvalid, ?_, fun q hq tx htx => ?_⟩
  · rw [hqueue]
    exact h.inOrder.sublist filter_sublist
  · rw [hqueue, mem_filter, decide_eq_true_eq] at hq
    rw [hchain] at htx
    rcases mem_append.mp (show tx ∈ block.vtx.reverse ++ chainTxs s.chain from htx) with htx | htx
    · -- what is confirmed again is taken off the queue
      intro heq
      exact hq.2 (heq ▸ mem_map_of_mem (mem_append_left _ (mem_reverse.mp htx)))
    · exact h.apart q hq.1 tx htx

theorem queueInOrder_of_reachable {s0 : ReorgState} (hvalid : ValidChain s0.chain)
    (hempty : s0.disconnectpool.queuedTx = [])
    (h : Machine.Reachable OrderedStep (reorgStep usage) s0 s) :
    QueueInOrder s := by
  refine invariant_of_reachable h ⟨hvalid, hempty ▸ .nil, ?_⟩
    (fun s s' hs hop hs' => hs.disconnect hop hs') fun s s' order block hs hop hs' =>
      hs.connect hop hs'
  rw [hempty]
  exact fun q hq => absurd hq not_mem_nil

/-! ## Submitting again -/

/-- An output of a transaction of the pool is found, unless a transaction of the pool spends it. -/
theorem haveCoin_of_created {pool : CTxMemPool} (hcomplete : OutputsComplete pool) (env : AcceptEnv)
    {parent : CTransaction} {info : EntryInfo} (hinfo : pool.infoOf parent.hash = some info)
    (htx : info.tx = parent) {o : OutputIndex} (ho : o ∈ parent.getOutputs)
    (hunspent : pool.mapNextTx[o]? = none) : pool.haveCoin env o := by
  cases o with
  | canonical outpoint =>
    obtain ⟨hhash, hn⟩ := parent.canonical_mem_getOutputs.mp ho
    obtain ⟨entry, hentry, hentryInfo⟩ := Option.map_eq_some_iff.mp hinfo
    rw [CTxMemPool.haveCoin, hhash, hentry]
    rw [← htx, ← hentryInfo] at hn
    exact decide_eq_true hn
  | mweb output_id =>
    obtain ⟨creator, hcreator⟩ := hcomplete.created parent.hash output_id
      ⟨info, hinfo, by rw [htx]; exact parent.mweb_mem_getOutputs.mp ho⟩
    rw [CTxMemPool.haveCoin, ExtTreeMap.contains_eq_isSome_getElem?, hunspent,
      ExtTreeMap.contains_eq_isSome_getElem?, hcreator]
    rfl

/-- In every run of `DisconnectTip` and `ConnectTip` where the cache brings back nothing in the
wrong order, each transaction is submitted after all queued ones that it spends from; and once these
are in the pool, an input that is missing is created by no queued transaction or spent in the pool.
-/
theorem resubmission_in_order {usage : CTransaction → Nat} {s0 s : ReorgState}
    (hvalid : ValidChain s0.chain) (hempty : s0.disconnectpool.queuedTx = [])
    (h : Machine.Reachable OrderedStep (reorgStep usage) s0 s) {before after : List CTransaction}
    {tx : CTransaction} (hsplit : s.disconnectpool.queuedTx.reverse = before ++ tx :: after)
    (hsubmitted : submitted tx) :
    (∀ parent ∈ s.disconnectpool.queuedTx, parent ≠ tx → SpendsFrom tx parent → parent ∈ before) ∧
    ∀ (pool : CTxMemPool) (env : AcceptEnv), OutputsComplete pool →
      (∀ parent ∈ s.disconnectpool.queuedTx, parent ≠ tx → SpendsFrom tx parent →
        ∃ info, pool.infoOf parent.hash = some info ∧ info.tx = parent) →
      ∀ o ∈ tx.getInputs, pool.haveCoin env o = false → pool.mapNextTx[o]? = none →
        ∀ parent ∈ s.disconnectpool.queuedTx, parent ≠ tx → o ∉ parent.getOutputs := by
  have hinOrder := (queueInOrder_of_reachable hvalid hempty h).inOrder
  rw [InOrder, ← reverse_reverse s.disconnectpool.queuedTx, hsplit, pairwise_reverse,
    pairwise_append] at hinOrder
  refine ⟨fun parent hparent hne hspends => ?_, ?_⟩
  · rw [← mem_reverse, hsplit, mem_append, mem_cons] at hparent
    rcases hparent with hparent | rfl | hparent
    · exact hparent
    · exact absurd rfl hne
    · exact absurd hspends ((pairwise_cons.mp hinOrder.2.1).1 parent hparent hsubmitted)
  · intro pool env hcomplete hparents o ho hmissing hunspent parent hparent hne hcreated
    obtain ⟨info, hinfo, htx⟩ := hparents parent hparent hne ⟨o, ho, hcreated⟩
    rw [haveCoin_of_created hcomplete env hinfo htx hcreated hunspent] at hmissing
    cases hmissing

/-! ## Two transactions of one block -/

/-- A block with two kernels in its extension block. -/
def twoKernels : CBlock :=
  { coinbaseBlock none with
    vtx := (coinbaseBlock none).vtx ++ [{ mwebTx 0 0 10 with mweb_tx := none, m_hogEx := true }]
    mweb_block := some ⟨Mweb.plainHeader 1 [] [], [], [], [plainKernel 3, plainKernel 4]⟩ }

/-- The block is the tip, and the cache has two transactions for its kernels. -/
def twoCached (first second : CTransaction) : ReorgState :=
  ⟨[twoKernels], { CTxMemPool.empty with recentTxsByKernel := [(4, second), (3, first)] }, ⟨[], 0⟩⟩

/-- The transaction with the lesser kernel spends from the other one. -/
def childFirst : ReorgState := twoCached (mwebTx 5 6 3) (mwebTx 1 5 4)

theorem validChain_twoKernels : ValidChain [twoKernels] where
  nodup := by decide
  stripped := by decide
  inputs newer tx older hsplit h := by
    have hnone : ∀ tx ∈ chainTxs [twoKernels], submitted tx = false := by decide
    rw [hnone tx (by rw [hsplit]; simp)] at h
    cases h

/-- The transaction that spends from the other one is submitted after it. -/
theorem resubmission_in_order_twoKernels :
    ∃ s, Machine.Reachable OrderedStep (reorgStep fun _ => 0) childFirst s ∧
      ∃ before after, s.disconnectpool.queuedTx.reverse = before ++ mwebTx 5 6 3 :: after ∧
        mwebTx 1 5 4 ∈ before := by
  have hbrought : childFirst.brought twoKernels = [mwebTx 5 6 3, mwebTx 1 5 4] := by
    decide +kernel
  have hguard : OrderedStep childFirst .disconnect := by
    rintro block chain hchain
    obtain ⟨rfl, rfl⟩ := cons.inj hchain
    rw [hbrought]
    refine ⟨fun _ _ _ q hq => absurd hq not_mem_nil, ?_, fun tx htx h => ?_,
      fun _ _ tx htx => absurd htx not_mem_nil⟩
    · unfold InOrder SpendsFrom
      decide +kernel
    · have hnone : ∀ tx ∈ twoKernels.vtx, submitted tx = false := by decide
      rw [hnone tx htx] at h
      cases h
  have hrun : Returns (childFirst.disconnectTip fun _ => 0) fun s =>
      s.disconnectpool.queuedTx.reverse = twoKernels.vtx ++ [mwebTx 1 5 4, mwebTx 5 6 3] := by
    decide +kernel
  obtain ⟨s, hs, hqueue⟩ := hrun.exists_ok
  have hreach : Machine.Reachable OrderedStep (reorgStep fun _ => 0) childFirst s :=
    .step .init hguard (show reorgStep _ _ .disconnect = .ok (s, ()) by rw [reorgStep, hs]; rfl)
  have hsplit : s.disconnectpool.queuedTx.reverse =
      (twoKernels.vtx ++ [mwebTx 1 5 4]) ++ mwebTx 5 6 3 :: [] := by rw [hqueue]; rfl
  have horder := (resubmission_in_order validChain_twoKernels rfl hreach hsplit (by decide)).1
  refine ⟨s, hreach, _, _, hsplit, horder _ ?_ (by decide) ?_⟩
  · rw [← mem_reverse, hqueue]
    exact mem_append_right _ mem_cons_self
  · unfold SpendsFrom
    decide +kernel

/-- The transaction with the greater kernel spends from the other one. It is submitted first and
refused, although the other one is accepted. -/
theorem resubmission_out_of_order :
    SpendsFrom (mwebTx 5 6 4) (mwebTx 1 5 3) ∧
    Returns (do
      let s ← (twoCached (mwebTx 1 5 3) (mwebTx 5 6 4)).disconnectTip fun _ => 0
      let pool ← updateMempoolForReorg ⟨permissiveEnv, plainEntry, fun _ => rfl⟩ true s
      pure (s.disconnectpool.queuedTx.reverse, pool)) fun r =>
        r.1 = twoKernels.vtx ++ [mwebTx 5 6 4, mwebTx 1 5 3] ∧
        r.2.mapTx.contains 3 ∧ r.2.mapTx.contains 4 = false := by
  unfold SpendsFrom
  decide +kernel

end DefcoinCore.Mempool
