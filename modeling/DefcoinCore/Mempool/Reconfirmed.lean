import DefcoinCore.Mempool.Reorg

/-!
# Queued transactions that are confirmed again

A transaction that is queued for the pool may be in a block that is connected afterwards.
`removeForBlock` takes it off the queue by its id, which it finds in the block or in the pool. A
transaction that is in the extension block only shows there by its kernels, and if the pool does not
have it, it stays on the queue although it is confirmed. When it is refused then, `removeRecursive`
evicts what spends its outputs, which are there.

Where every queued transaction that a block confirms by a kernel is found by its id, and the cache
brings back nothing that an earlier block confirms, no queued transaction is confirmed; and what is
evicted for one of them has an input that is not available (`queue_unconfirmed`).
-/

namespace DefcoinCore.Mempool

open Std List ExtTreeSet Option

/-! ## The queue and the chain -/

/-- A transaction is in a chain by its id, or by one of its kernels. -/
def ConfirmedIn (chain : List CBlock) (tx : CTransaction) : Prop :=
  (∃ t ∈ chainTxs chain, t.hash = tx.hash) ∨
    ∃ block ∈ chain, ∃ kernel_id ∈ tx.getKernelIDs, kernel_id ∈ kernelIDs block

theorem confirmedIn_cons {block : CBlock} {chain : List CBlock} {tx : CTransaction} :
    ConfirmedIn (block :: chain) tx ↔ (∃ t ∈ block.vtx, t.hash = tx.hash) ∨
      (∃ kernel_id ∈ tx.getKernelIDs, kernel_id ∈ kernelIDs block) ∨ ConfirmedIn chain tx := by
  have htxs : ∀ t, t ∈ chainTxs (block :: chain) ↔ t ∈ block.vtx ∨ t ∈ chainTxs chain := fun t => by
    rw [chainTxs, flatMap_cons, mem_append, mem_reverse]
    rfl
  unfold ConfirmedIn
  simp only [htxs, mem_cons, or_and_right, exists_or, exists_eq_left]
  exact or_assoc.trans (or_congr Iff.rfl or_left_comm)

/-- Blocks that are connected are valid, what they confirm by a kernel is found by its id, and the
cache brings back nothing that is confirmed. -/
def UnconfirmedStep (s : ReorgState) : ReorgOp → Prop
  | .disconnect => ∀ block chain, s.chain = block :: chain →
    ∀ c ∈ s.brought block, ¬ ConfirmedIn chain c
  | .connect order block => ValidChain (block :: s.chain) ∧ ∀ q ∈ s.disconnectpool.queuedTx,
    (∃ kernel_id ∈ q.getKernelIDs, kernel_id ∈ kernelIDs block) →
      q.hash ∈ (s.mempool.confirmedBy order block).map (·.hash)

/-- What every step keeps. -/
structure QueueUnconfirmed (s : ReorgState) : Prop where
  valid : ValidChain s.chain
  unconfirmed : ∀ q ∈ s.disconnectpool.queuedTx, ¬ ConfirmedIn s.chain q

theorem QueueUnconfirmed.disconnect {usage : CTransaction → Nat} {s s' : ReorgState}
    (h : QueueUnconfirmed s) (hstep : UnconfirmedStep s .disconnect)
    (hs' : s.disconnectTip usage = .ok s') : QueueUnconfirmed s' := by
  obtain ⟨block, chain, rest, hchain, hchain', hsub, hrest, -⟩ := disconnectTip_spec hs'
  have hvalid : ValidChain (block :: chain) := hchain ▸ h.valid
  refine ⟨hchain' ▸ hvalid.tail, fun q hq => ?_⟩
  rw [hchain']
  rcases mem_append.mp (hsub.subset hq) with hq | hq
  · rcases mem_append.mp hq with hq | hq
    · have hold := h.unconfirmed q hq
      rw [hchain, confirmedIn_cons] at hold
      exact fun hconfirmed => hold (.inr (.inr hconfirmed))
    · exact hstep block chain hchain q hq
  · -- a transaction of the block has nothing attached, and an id of its own
    rintro (⟨t, ht, heq⟩ | ⟨_, -, kernel_id, hkernel, -⟩)
    · exact hvalid.hash_ne (hrest.subset hq) ht heq.symm
    · rw [CTransaction.getKernelIDs,
        hvalid.stripped q (mem_append_left _ (hrest.subset hq))] at hkernel
      exact absurd (mem_idSet.mp hkernel) not_mem_nil

theorem QueueUnconfirmed.connect {usage : CTransaction → Nat} {s s' : ReorgState}
    {order : List Uint256}
    {block : CBlock} (h : QueueUnconfirmed s) (hstep : UnconfirmedStep s (.connect order block))
    (hs' : s.connectTip usage order block = .ok s') : QueueUnconfirmed s' := by
  obtain ⟨hchain, hqueue⟩ := connectTip_spec hs'
  refine ⟨hchain ▸ hstep.1, fun q hq => ?_⟩
  rw [hqueue, mem_filter, decide_eq_true_eq] at hq
  rw [hchain, confirmedIn_cons]
  rintro (⟨t, ht, heq⟩ | hkernel | hold)
  · exact hq.2 (heq ▸ mem_map_of_mem (mem_append_left _ ht))
  · exact hq.2 (hstep.2 q hq.1 hkernel)
  · exact h.unconfirmed q hq.1 hold

/-! ## What is evicted -/

/-- An output is unspent in the chain, or created by a transaction of the pool whose inputs are
available. -/
inductive Available (pool : CTxMemPool) (unspent : OutputIndex → Prop) : OutputIndex → Prop
  | unspent {o : OutputIndex} : unspent o → Available pool unspent o
  | created {o : OutputIndex} {id : Uint256} {entry : EntryInfo} : pool.infoOf id = some entry →
      o ∈ entry.tx.getOutputs → (∀ i ∈ entry.tx.getInputs, Available pool unspent i) →
      Available pool unspent o

/-- A pool whose links are right, over the coins of a chain, and a transaction that is not in it. -/
structure Beside (pool : CTxMemPool) (unspent : OutputIndex → Prop) (chain : List CBlock)
    (tx : CTransaction) : Prop where
  absent : pool.infoOf tx.hash = none
  children : ∀ p c, c ∈ pool.childrenOf p → ∃ parent child, pool.infoOf p = some parent ∧
    pool.infoOf c = some child ∧ SpendsFrom child.tx parent.tx
  spender : ∀ (o : OutputIndex) (id : Uint256), pool.mapNextTx[o]? = some id → Spends pool id o
  /-- A coin of the chain that a transaction of the pool, or this one, creates is there because the
  transaction is confirmed. -/
  coins : ∀ o, unspent o → ∀ t, (t = tx ∨ ∃ id entry, pool.infoOf id = some entry ∧ t = entry.tx) →
    o ∈ t.getOutputs → ConfirmedIn chain t
  unconfirmed : ∀ id entry, pool.infoOf id = some entry → ¬ ConfirmedIn chain entry.tx
  creator : ∀ id entry, pool.infoOf id = some entry → ∀ o ∈ entry.tx.getOutputs, o ∉ tx.getOutputs ∧
    ∀ id' entry', pool.infoOf id' = some entry' → o ∈ entry'.tx.getOutputs → id' = id

/-- A transaction of the pool with an input that is not available. -/
def Lacking (pool : CTxMemPool) (unspent : OutputIndex → Prop) (id : Uint256) : Prop :=
  ∃ entry, pool.infoOf id = some entry ∧ ∃ i ∈ entry.tx.getInputs, ¬ Available pool unspent i

namespace Beside

variable {pool : CTxMemPool} {unspent : OutputIndex → Prop} {chain : List CBlock}
  {tx : CTransaction} (h : Beside pool unspent chain tx)
include h

/-- The children of a transaction that lacks an input lack one too. -/
theorem lacking_child {p c : Uint256} (hp : Lacking pool unspent p) (hc : c ∈ pool.childrenOf p) :
    Lacking pool unspent c := by
  obtain ⟨entry, hentry, i, hi, hlacks⟩ := hp
  obtain ⟨parent, child, hparent, hchild, o, ho, hcreated⟩ := h.children p c hc
  obtain rfl := some.inj (hentry.symm.trans hparent)
  refine ⟨child, hchild, o, ho, fun havailable => ?_⟩
  cases havailable with
  | unspent hunspent =>
    exact h.unconfirmed p entry hentry
      (h.coins o hunspent entry.tx (.inr ⟨p, entry, hentry, rfl⟩) hcreated)
  | created hother hcreated' hinputs =>
    obtain rfl := (h.creator p entry hentry o hcreated).2 _ _ hother hcreated'
    obtain rfl := some.inj (hentry.symm.trans hother)
    exact hlacks (hinputs i hi)

/-- The spenders of the outputs of an unconfirmed transaction lack an input. -/
theorem lacking_spender (hunconfirmed : ¬ ConfirmedIn chain tx) {o : OutputIndex}
    (ho : o ∈ tx.getOutputs)
    {id : Uint256} (hid : pool.mapNextTx[o]? = some id) : Lacking pool unspent id := by
  obtain ⟨entry, hentry, hinput⟩ := h.spender o id hid
  refine ⟨entry, hentry, o, hinput, fun havailable => ?_⟩
  cases havailable with
  | unspent hunspent => exact hunconfirmed (h.coins o hunspent tx (.inl rfl) ho)
  | created hother hcreated _ => exact (h.creator _ _ hother o hcreated).1 ho

/-- `removeRecursive` starts from transactions that lack an input. -/
theorem rootsOf_spec (hunconfirmed : ¬ ConfirmedIn chain tx) :
    IfReturns (pool.rootsOf tx) fun roots => ∀ id ∈ roots, Lacking pool unspent id := by
  have habsent : pool.mapTx.contains tx.hash = false := by
    rw [ExtTreeMap.contains_eq_isSome_getElem?, map_eq_none_iff.mp h.absent]
    rfl
  unfold CTxMemPool.rootsOf CTxMemPool.spendersOf
  rw [habsent, if_neg Bool.false_ne_true]
  refine Ensures.foldlM (P := fun _ roots => ∀ id ∈ roots, Lacking pool unspent id) _
    (fun _ roots o ho hroots => ?_) fun id hid => absurd hid not_mem_empty
  cases hnext : pool.mapNextTx[o]? with
  | none => exact hroots
  | some id =>
    refine (Ensures.reject fun _ => trivial).bind fun _ _ id' hid' => ?_
    rcases (StdSet.mem_insert_iff ..).mp hid' with rfl | hid'
    · exact h.lacking_spender hunconfirmed ho hnext
    · exact hroots id' hid'

/-- The descendants of transactions that lack an input lack one too. -/
theorem lacking_allDescendants {roots : StdSet Uint256}
    (hroots : ∀ id ∈ roots, Lacking pool unspent id)
    {id : Uint256} (hid : id ∈ pool.allDescendants roots) : Lacking pool unspent id := by
  -- Each round adds the descendants of one of the transactions.
  refine foldlRecOn (motive := fun s => ∀ id ∈ s, Lacking pool unspent id) roots.toList _
    (fun id hid => absurd hid not_mem_empty) (fun s hs it hit id hid => ?_) id hid
  refine Reach.closure_induction (fun p hp c hc => h.lacking_child hp hc) (fun a ha => ?_) hs hid
  split_ifs at ha
  · exact absurd ha not_mem_empty
  · rcases (StdSet.mem_insert_iff ..).mp ha with rfl | ha
    · exact hroots a (mem_toList.mp hit)
    · exact absurd ha not_mem_empty

end Beside

/-- `RemoveStaged` takes nothing out but what is staged. -/
theorem removeStaged_infoOf (pool : CTxMemPool) (stage : StdSet Uint256) (updateDescendants : Bool)
    (reason : MemPoolRemovalReason) :
    IfReturns (pool.removeStaged stage updateDescendants reason) fun pool' =>
      ∀ id, id ∉ stage → pool'.infoOf id = pool.infoOf id := by
  refine pool.removeStaged_induction stage updateDescendants reason
    (fun pool1 hkeeps id _ => hkeeps.info_eq id)
    fun pool2 pool3 it entry hit h _ hremoved id hid => ?_
  have hne : it ≠ id := ne_of_mem_of_not_mem hit hid
  rw [hremoved.infoOf, if_neg hne]
  exact h id hid

/-- In every run where what a block confirms by a kernel is found by its id and the cache brings
back nothing that is confirmed, no queued transaction is confirmed; and `removeRecursive` of one of
them, from a pool that it is not in, evicts only transactions with an input that is not available.
-/
theorem queue_unconfirmed {usage : CTransaction → Nat} {s0 s : ReorgState}
    (hvalid : ValidChain s0.chain) (hempty : s0.disconnectpool.queuedTx = [])
    (h : Machine.Reachable UnconfirmedStep (reorgStep usage) s0 s) :
    ∀ q ∈ s.disconnectpool.queuedTx, ¬ ConfirmedIn s.chain q ∧
      ∀ (pool : CTxMemPool) (unspent : OutputIndex → Prop), Beside pool unspent s.chain q →
        IfReturns (pool.removeRecursive q .reorg) fun pool' =>
          ∀ id entry, pool.infoOf id = some entry → pool'.infoOf id = none →
            ∃ i ∈ entry.tx.getInputs, ¬ Available pool unspent i := by
  have hqueue : QueueUnconfirmed s := by
    refine invariant_of_reachable h ⟨hvalid, ?_⟩ (fun s s' hs hop hs' => hs.disconnect hop hs')
      fun s s' order block hs hop hs' => hs.connect hop hs'
    rw [hempty]
    exact fun q hq => absurd hq not_mem_nil
  intro q hq
  have hunconfirmed := hqueue.unconfirmed q hq
  refine ⟨hunconfirmed, fun pool unspent hbeside => ?_⟩
  refine (hbeside.rootsOf_spec hunconfirmed).bind fun roots hroots => ?_
  refine (removeStaged_infoOf pool _ false .reorg).imp
    fun pool' hkept id entry hentry hgone => ?_
  have hmem : id ∈ pool.allDescendants roots := by
    by_contra hnot
    rw [hkept id hnot, hentry] at hgone
    cases hgone
  obtain ⟨entry', hentry', hlacks⟩ := hbeside.lacking_allDescendants hroots hmem
  obtain rfl := some.inj (hentry.symm.trans hentry')
  exact hlacks

/-! ## A kernel that is confirmed again -/

/-- A pool with a spender of the output 6. -/
def spenderPool : CTxMemPool :=
  { CTxMemPool.empty with
    mapTx := (∅ : StdMap Uint256 CTxMemPoolEntry).insert 8 (.new (plainEntry (mwebTx 6 7 8)))
    mapNextTx := (∅ : StdMap OutputIndex Uint256).insert (.mweb 6) 8
    vTxHashes := [(8, 8)] }

theorem not_confirmedIn_nil (tx : CTransaction) : ¬ ConfirmedIn [] tx := by
  rintro (⟨t, ht, -⟩ | ⟨b, hb, -⟩)
  · exact absurd ht not_mem_nil
  · exact absurd hb not_mem_nil

/-- The transaction that creates the output 6 is not in the pool, and of the coins only 1 is
unspent. -/
theorem beside_spenderPool : Beside spenderPool (· = .mweb 1) [] (mwebTx 5 6 3) := by
  have hmapTx : ∀ (id : Uint256) (entry : CTxMemPoolEntry), spenderPool.mapTx[id]? = some entry →
      id = 8 ∧ entry = .new (plainEntry (mwebTx 6 7 8)) := by
    intro id entry h
    rw [spenderPool, StdMap.getElem?_insert] at h
    split_ifs at h with hid
    · exact ⟨hid.symm, (some.inj h).symm⟩
    · cases h
  have hinfo : ∀ id entry, spenderPool.infoOf id = some entry → id = 8 ∧
      entry.tx = mwebTx 6 7 8 := by
    intro id entry h
    obtain ⟨e, he, rfl⟩ := map_eq_some_iff.mp h
    obtain ⟨hid, rfl⟩ := hmapTx id e he
    exact ⟨hid, rfl⟩
  have hspender : (mwebTx 6 7 8).getOutputs = [.mweb 7] := by decide +kernel
  have hqueued : (mwebTx 5 6 3).getOutputs = [.mweb 6] := by decide +kernel
  refine ⟨?_, fun p c hc => ?_, fun o id h => ?_, ?_, fun _ _ _ => not_confirmedIn_nil _, ?_⟩
  · exact isNone_iff_eq_none.mp (by decide +kernel)
  · rw [CTxMemPool.childrenOf] at hc
    rcases hp : spenderPool.mapTx[p]? with _ | entry <;> rw [hp] at hc
    · exact absurd hc not_mem_empty
    · rw [(hmapTx p entry hp).2] at hc
      exact absurd hc not_mem_empty
  · rw [spenderPool, StdMap.getElem?_insert] at h
    split_ifs at h with ho
    · rw [← ho, ← some.inj h]
      exact ⟨plainEntry (mwebTx 6 7 8), rfl, by decide +kernel⟩
    · cases h
  · rintro o rfl t ht ho
    rcases ht with rfl | ⟨id, entry, hentry, rfl⟩
    · rw [hqueued] at ho
      exact absurd ho (by decide)
    · rw [(hinfo id entry hentry).2, hspender] at ho
      exact absurd ho (by decide)
  · intro id entry hentry o ho
    obtain ⟨rfl, htx⟩ := hinfo id entry hentry
    rw [htx, hspender, mem_singleton] at ho
    rw [ho, hqueued]
    exact ⟨by decide, fun id' entry' hentry' _ => (hinfo id' entry' hentry').1⟩

/-- A transaction of the extension block is queued when its block is disconnected. It is not
confirmed, and what is evicted for it from a pool with a spender of its output is the spender, whose
input is gone. -/
theorem queue_unconfirmed_twoKernels :
    ∃ s, Machine.Reachable UnconfirmedStep (reorgStep fun _ => 0) childFirst s ∧
      mwebTx 5 6 3 ∈ s.disconnectpool.queuedTx ∧ ¬ ConfirmedIn s.chain (mwebTx 5 6 3) ∧
      Returns (spenderPool.removeRecursive (mwebTx 5 6 3) .reorg)
        fun pool' => pool'.infoOf 8 = none ∧
        ∃ i ∈ (mwebTx 6 7 8).getInputs, ¬ Available spenderPool (· = .mweb 1) i := by
  have hrun : Returns (childFirst.disconnectTip fun _ => 0) fun s =>
      s.chain = [] ∧ mwebTx 5 6 3 ∈ s.disconnectpool.queuedTx := by decide +kernel
  obtain ⟨s, hs, hchain, hqueued⟩ := hrun.exists_ok
  have hreach : Machine.Reachable UnconfirmedStep (reorgStep fun _ => 0) childFirst s := by
    refine .step .init ?_ (show reorgStep _ _ .disconnect = .ok (s, ()) by rw [reorgStep, hs]; rfl)
    rintro block chain hchain c -
    obtain ⟨-, rfl⟩ := cons.inj hchain
    exact not_confirmedIn_nil c
  obtain ⟨hunconfirmed, hevicts⟩ := queue_unconfirmed validChain_twoKernels rfl hreach _ hqueued
  have hremoved : Returns (spenderPool.removeRecursive (mwebTx 5 6 3) .reorg)
      fun pool' => (pool'.infoOf 8).isNone := by decide +kernel
  obtain ⟨pool', hpool', hgone⟩ := hremoved.exists_ok
  have hevicted := (hevicts spenderPool _ (hchain ▸ beside_spenderPool)).of_ok hpool'
  rw [isNone_iff_eq_none] at hgone
  refine ⟨s, hreach, hqueued, hunconfirmed, ?_⟩
  rw [hpool']
  exact ⟨hgone, hevicted 8 (plainEntry (mwebTx 6 7 8)) rfl hgone⟩

/-- The coins after the block with the two kernels: the output 5 is unspent. -/
def confirmedEnv : AcceptEnv := { permissiveEnv with haveCoin := fun o => o = .mweb 5 }

/-- The pool has a spender of the output 5. The block is disconnected, which queues the transaction
that creates the output, and a block with the same kernels is connected: the transaction is still
queued, and when it is refused the spender is evicted. -/
theorem queue_keeps_reconfirmed : Returns (do
      let s0 := twoCached (mwebTx 1 5 3) (mwebTx 2 7 4)
      let r ← s0.mempool.accept confirmedEnv (plainEntry (mwebTx 5 6 8))
      let s ← Machine.run (reorgStep fun _ => 0) { s0 with mempool := r.1 }
        [.disconnect, .connect [8] { twoKernels with nNonce := 1 }]
      let pool ← updateMempoolForReorg ⟨confirmedEnv, plainEntry, fun _ => rfl⟩ true s
      pure (s, pool)) fun r =>
        mwebTx 1 5 3 ∈ r.1.disconnectpool.queuedTx ∧ 3 ∈ (mwebTx 1 5 3).getKernelIDs ∧
        (∃ block ∈ r.1.chain, 3 ∈ kernelIDs block) ∧ r.1.mempool.mapTx.contains 8 ∧
        confirmedEnv.haveCoin (.mweb 5) ∧ r.2.mapTx.contains 8 = false := by
  decide +kernel

end DefcoinCore.Mempool
