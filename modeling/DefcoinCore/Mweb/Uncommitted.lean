import DefcoinCore.Mweb.Accounting

/-!
# Extension blocks that the block hash does not commit to

Two blocks with the same hash that passed `CheckBlock` and `ContextualCheckBlock` are connected with
the same result, or the second is reported as mutated and leaves no trace
(`connectBlock_uncommitted`).

An accepted body is determined by the header and the view, as far as it changes the view: the
outputs by the root of their range, and the spent outputs by the leaf set, since they are in the
order of their ids (`applyBlock_eq_of_header_eq`). The kernels are not. The header has the root of
the bytes that are written for them, and kernels that differ in their pegouts can be written alike.
Their fees are the same, though, and the pegins and pegouts of the whole block are matched with its
transactions, so the checks of the amounts come to the same result (`checkHogEx_of_serialize_eq`).
-/

namespace DefcoinCore.Mweb

open List Kernel

/-! ## What a header determines -/

/-- No hash that a header has of the body collides for two blocks: the nodes of the ranges of the
bytes of kernels and of outputs, the leaf sets that they lead to, and the ids of outputs. -/
structure BodiesCommit (crypto : NodeCrypto) (allow : Bool) (view : CoinsView) (m1 m2 : Block) :
    Prop where
  kernels : Mmr.CollisionFree crypto.hashKernelNode 0 (m1.body.kernels.map serialize)
    (m2.body.kernels.map serialize)
  outputs : Mmr.CollisionFree crypto.hashOutputNode 0
    (view.outputPMMR ++ m1.body.outputs.map (·.hash))
    (view.outputPMMR ++ m2.body.outputs.map (·.hash))
  outputIds : ∀ output ∈ m1.body.outputs, ∀ output' ∈ m2.body.outputs,
    output.hash = output'.hash → output = output'
  leafSets : ∀ undo1 view1 undo2 view2, view.applyBlock crypto allow m1 = .ok (undo1, view1) →
    view.applyBlock crypto allow m2 = .ok (undo2, view2) →
    crypto.hashBytes view1.leafSet.rootBytes = crypto.hashBytes view2.leafSet.rootBytes →
    view1.leafSet.rootBytes = view2.leafSet.rootBytes

namespace CoinsView

variable {view view1 view2 : CoinsView} {ids : List Hash}

/-- The coins that a body spends are the ones whose leaves are not set afterwards. -/
theorem Spent.mem_iff {view' : CoinsView} {coinsSpent : List UTXO}
    (h : Spent view ids coinsSpent view') {output_id : Hash} :
    output_id ∈ ids ↔ ∃ utxo, view.utxos output_id = some utxo ∧
      view'.leafSet.contains utxo.leafIdx = false := by
  constructor
  · intro hmem
    rw [h.coins] at hmem
    obtain ⟨utxo, hutxo, rfl⟩ := mem_map.mp hmem
    refine ⟨utxo, h.found utxo hutxo, ?_⟩
    rw [h.leafSet, LeafSet.contains_foldl_remove, Bool.and_eq_false_iff]
    exact .inr (decide_eq_false (not_not.mpr (mem_map_of_mem hutxo)))
  · rintro ⟨utxo, hfound, hclear⟩
    by_contra hnot
    -- Then it is still there, and its bit with it.
    have hstill : view'.utxos output_id = some utxo := by
      rw [h.utxos, if_neg hnot, hfound]
    rw [h.bijective.bit hstill] at hclear
    cases hclear

/-- The spent coins are determined by their ids. -/
theorem Spent.coins_eq {coins1 coins2 : List UTXO} (h1 : Spent view ids coins1 view1)
    (h2 : Spent view ids coins2 view2) : coins1 = coins2 := by
  have hsome : ∀ {coins view'}, Spent view ids coins view' →
      coins.map some = ids.map view.utxos := by
    intro coins view' h
    rw [h.coins, map_map]
    exact map_congr_left fun utxo hmem => (h.found utxo hmem).symm
  exact map_injective_iff.mpr (Option.some_injective UTXO) ((hsome h1).trans (hsome h2).symm)

/-- What is left after the same coins were spent is the same. -/
theorem Spent.eq {coins1 coins2 : List UTXO} (h1 : Spent view ids coins1 view1)
    (h2 : Spent view ids coins2 view2) : view1 = view2 := by
  have hcoins := h1.coins_eq h2
  apply CoinsView.ext
  · rw [h1.bestHeader, h2.bestHeader]
  · funext output_id
    rw [h1.utxos, h2.utxos]
  · rw [h1.leafSet, h2.leafSet, hcoins]
  · rw [h1.outputPMMR, h2.outputPMMR]

/-- Bodies with the same header, in order, that were applied to a view do the same to it. -/
theorem applyBlock_eq_of_header_eq {crypto : NodeCrypto} {allow : Bool} {m1 m2 : Block}
    {undo1 undo2 : BlockUndo} (hview : Bijective view)
    (hfree : BodiesCommit crypto allow view m1 m2)
    (hheader : m1.header = m2.header)
    (hsorted1 : (m1.body.inputs.map (·.outputID)).Pairwise (· < ·))
    (hsorted2 : (m2.body.inputs.map (·.outputID)).Pairwise (· < ·))
    (hok1 : view.applyBlock crypto allow m1 = .ok (undo1, view1))
    (hok2 : view.applyBlock crypto allow m2 = .ok (undo2, view2)) :
    undo1 = undo2 ∧ view1 = view2 ∧ (m1.body.inputs.map (·.outputID)) =
      m2.body.inputs.map (·.outputID) := by
  obtain ⟨added1, h1⟩ := applied_of_applyBlock hview hok1
  obtain ⟨added2, h2⟩ := applied_of_applyBlock hview hok2
  obtain ⟨hroot1, hsize1, hleaf1⟩ := matchesHeader_iff.mp h1.header
  obtain ⟨hroot2, hsize2, hleaf2⟩ := matchesHeader_iff.mp h2.header
  -- The outputs, from the size and the root of their range.
  have hleaves : view1.outputPMMR = view2.outputPMMR := by
    rw [h1.outputPMMR, h2.outputPMMR]
    apply Mmr.root_injective crypto.hashOutputNode 0 hfree.outputs
    · rw [← h1.outputPMMR, ← h2.outputPMMR, ← hsize1, ← hsize2, hheader]
    · rw [hheader, hroot2, h1.outputPMMR, h2.outputPMMR] at hroot1
      exact hroot1.symm
  have hids : (m1.body.outputs.map (·.hash)) = m2.body.outputs.map (·.hash) := by
    rw [h1.outputPMMR, h2.outputPMMR] at hleaves
    exact append_cancel_left hleaves
  have houtputs : m1.body.outputs = m2.body.outputs := by
    have hid := map_eq_of_map_eq (g := fun output => output) hfree.outputIds hids
    rwa [map_id', map_id'] at hid
  have hadded : added1 = added2 := by
    rw [h1.added.eq, h2.added.eq, hheader, houtputs]
  subst hadded
  -- The spent ids, from the leaf set.
  have hnext : view1.leafSet.nextLeafIdx = view2.leafSet.nextLeafIdx := by
    rw [h1.spent.bijective.next, h2.spent.bijective.next, hleaves]
  have hbytes : view1.leafSet.rootBytes = view2.leafSet.rootBytes := by
    apply hfree.leafSets undo1 view1 undo2 view2 hok1 hok2
    rw [hheader, hleaf2] at hleaf1
    exact hleaf1.symm
  have hspent : (m1.body.inputs.map (·.outputID)) = m2.body.inputs.map (·.outputID) := by
    refine hsorted1.eq_of_mem_iff hsorted2 fun output_id => ?_
    rw [h1.spent.mem_iff, h2.spent.mem_iff]
    refine exists_congr fun utxo => and_congr_right fun hfound => ?_
    have hlt : utxo.leafIdx < view1.leafSet.nextLeafIdx := by
      rw [h1.spent.bijective.next, h1.spent.outputPMMR]
      exact h1.added.bijective.bit_lt (h1.added.bijective.bit hfound)
    rw [LeafSet.contains_eq_of_rootBytes hnext hbytes hlt]
  have hspent2 := h2.spent
  rw [← hspent] at hspent2
  refine ⟨?_, h1.spent.eq hspent2, hspent⟩
  show BlockUndo.mk undo1.prevHeader undo1.coinsSpent undo1.coinsAdded = undo2
  rw [h1.prevHeader, h1.spent.coins_eq hspent2, h1.coinsAdded, hids, ← h2.prevHeader,
    ← h2.coinsAdded]

end CoinsView

/-! ## Blocks with the same hash -/

namespace Node

variable {prev : PrevIndex} {crypto : Crypto} {block : CBlock}

/-- The kernels of the extension block, if there is one, were read from bytes. -/
def KernelsRead (hashBytes : List UInt8 → Hash) (block : CBlock) : Prop :=
  ∀ mweb_block, block.mweb_block = some mweb_block →
    ∀ kernel ∈ mweb_block.body.kernels, ∃ bytes rest,
    unserialize hashBytes bytes = .ok (kernel, rest)

theorem KernelsRead.readable {hashBytes : List UInt8 → Hash} {mweb_block : Block}
    (h : KernelsRead hashBytes block) (hmweb : block.mweb_block = some mweb_block) :
    ∀ kernel ∈ mweb_block.body.kernels, kernel.Readable hashBytes := by
  intro kernel hmem
  obtain ⟨bytes, rest, hread⟩ := h mweb_block hmweb kernel hmem
  exact (unserialize_eq_ok_iff.mp hread).2

/-- The checks before the view is touched pass for a block if they do for one with the same
transactions, and the same bytes are written for the kernels of both. -/
theorem checkHogEx_of_serialize_eq {hashBytes : List UInt8 → Hash} {b1 b2 : CBlock} {m1 m2 : Block}
    (hstrip : b1.vtx.map CTransaction.strip = b2.vtx.map CTransaction.strip)
    (hread1 : ∀ kernel ∈ m1.body.kernels, kernel.Readable hashBytes)
    (hread2 : ∀ kernel ∈ m2.body.kernels, kernel.Readable hashBytes)
    (hkernels : m1.body.kernels.map serialize = m2.body.kernels.map serialize)
    (hprev : moneyRange prev.mweb_amount) (h1 : Active crypto prev b1 m1)
    (h2 : Active crypto prev b2 m2) (hok : checkHogEx prev b1 m1.body = .ok ()) :
    checkHogEx prev b2 m2.body = .ok () := by
  obtain ⟨hinput, hamounts⟩ := seq_eq_ok_iff.mp hok
  rw [moneyRange_iff] at hprev
  -- The transactions determine what is compared with the amounts of the kernels.
  have hpegins : blockPegins b1 = blockPegins b2 := flatMap_middleTxs_eq hstrip fun _ => rfl
  have hvout := vout_lastTx_eq hstrip
  have hpegouts : hogexPegouts b1 = hogexPegouts b2 := by rw [hogexPegouts, hvout, hogexPegouts]
  have hfirst : hogexAmount b1 = hogexAmount b2 := by rw [hogexAmount, hvout, hogexAmount]
  have hne : b1.lastTx.vout ≠ [] := by
    intro hnil
    have haddr := h1.hogAddr
    rw [hnil] at haddr
    cases haddr
  obtain ⟨-, -, hpegins1, hpegouts1⟩ := validateBlock_iff.mp h1.valid
  obtain ⟨-, -, hpegins2, hpegouts2⟩ := validateBlock_iff.mp h2.valid
  have hfees : m1.body.fees = m2.body.fees := congrArg sum
    (map_eq_of_map_eq (fun k hk k' hk' => getFee_eq_of_serialize_eq (hread1 k hk) (hread2 k' hk'))
      hkernels)
  have hchange : m1.body.supplyChange = m2.body.supplyChange := by
    unfold TxBody.supplyChange
    rw [hfees, ← (hpegins1.map (·.amount)).sum_eq, ← (hpegouts1.map (·.amount)).sum_eq,
      ← (hpegins2.map (·.amount)).sum_eq, ← (hpegouts2.map (·.amount)).sum_eq]
    exact congrArg₂ (fun pegins pegouts => (map _ pegins).sum - (map _ pegouts).sum - _)
      hpegins hpegouts
  obtain ⟨hrange, hamount⟩ := hogexAmount_eq hamounts
  have hle :=
    (checkAmounts_eq_ok_iff hprev hne (fun k hk => (hread1 k hk).nonneg.1) hpegins1 hpegouts1
    hrange.1 hamount).mp hamounts
  refine seq_eq_ok_iff.mpr ⟨?_, ?_⟩
  · unfold checkHogExInput at hinput ⊢
    rwa [← prevouts_lastTx_eq hstrip]
  · rw [hfirst] at hrange hamount
    rw [hchange] at hamount
    rw [hvout] at hne
    rw [hpegins] at hle
    exact (checkAmounts_eq_ok_iff hprev hne (fun k hk => (hread2 k hk).nonneg.1) hpegins2 hpegouts2
      hrange.1 hamount).mpr hle

/-- Whether a frozen output is spent is seen from the spent ids. -/
theorem checkFrozen_eq_ok_iff {params : MwebParams} {body : TxBody} :
    checkFrozen params body = .ok () ↔
      ∀ output_id ∈ body.inputs.map (·.outputID),
        output_id ∉ params.frozen_mweb_output_ids := by
  have hfrozen : ∀ input, spendsFrozen params input ↔
      input.outputID ∈ params.frozen_mweb_output_ids := by
    intro input
    unfold spendsFrozen
    simp
  unfold checkFrozen
  rcases hfind : body.inputs.find? (spendsFrozen params) with _ | input
  · rw [find?_eq_none] at hfind
    refine ⟨fun _ output_id hmem => ?_, fun _ => rfl⟩
    obtain ⟨input, hinput, rfl⟩ := mem_map.mp hmem
    rw [← hfrozen]
    exact hfind input hinput
  · refine ⟨nofun, fun h => ?_⟩
    exact absurd ((hfrozen input).mp (find?_some hfind))
      (h _ (mem_map_of_mem (mem_of_find?_eq_some hfind)))

/-- No hash over data of two blocks collides, from the block hash down to the bodies of the
extension blocks. -/
structure ConnectHashesCommit (hash64 : Uint256 → Uint256 → Uint256)
    (getHash : CBlockHeader → Uint256) (crypto : NodeCrypto) (params : MwebParams)
    (view : CoinsView) (b1 b2 : CBlock) : Prop where
  header : getHash b1.toCBlockHeader = getHash b2.toCBlockHeader →
    b1.toCBlockHeader = b2.toCBlockHeader
  /-- In the trees of transactions, and no transaction id is the hash of a pair. -/
  txTree : HashTree.CollisionFree hash64 b1.vtx.length b2.vtx.length
    (b1.vtx.map (·.hash)) (b2.vtx.map (·.hash))
  txs : HashesCommit hash64 b1 b2
  bodies : ∀ m1 m2, b1.mweb_block = some m1 → b2.mweb_block = some m2 →
    BodiesCommit crypto (allowMismatch params (getHash b1.toCBlockHeader)) view m1 m2

/-- Blocks with the same header that passed `CheckBlock` have the same transaction ids. -/
theorem ids_eq_of_checkBlock {params : ConsensusParams} {fCheckPOW : Bool} {b1 b2 b1' b2' : CBlock}
    (hheader : b1.toCBlockHeader = b2.toCBlockHeader)
    (hfree : HashTree.CollisionFree params.hash64 b1.vtx.length b2.vtx.length
      (b1.vtx.map (·.hash)) (b2.vtx.map (·.hash)))
    (hfresh1 : b1.fChecked = false) (hfresh2 : b2.fChecked = false)
    (hcheck1 : DefcoinCore.checkBlock params fCheckPOW true b1 = .ok b1')
    (hcheck2 : DefcoinCore.checkBlock params fCheckPOW true b2 = .ok b2') :
    (b1.vtx.map (·.hash)) = b2.vtx.map (·.hash) := by
  -- What the check of the merkle root says of a block that passed.
  have hroot : ∀ {b b' : CBlock}, b.fChecked = false →
      DefcoinCore.checkBlock params fCheckPOW true b = .ok b' →
      b.hashMerkleRoot = (computeMerkleRoot params.hash64 (b.vtx.map (·.hash))).1 ∧
      (computeMerkleRoot params.hash64 (b.vtx.map (·.hash))).2 = false ∧
      (b.vtx.map (·.hash)) ≠ [] := by
    intro b b' hfresh hcheck
    obtain ⟨tx, vtx, txin, hvtx, -⟩ := hasCoinbaseIn_of_checkBlock hfresh hcheck
    obtain ⟨hcommitted, -, -⟩ := checkBlock_eq_ok hfresh hcheck
    have hmerkle := ((checkCommitted_eq_ok_iff ..).mp hcommitted).1.2.2.1
    unfold checkMerkleRoot at hmerkle
    simp only [seq_eq_ok_iff, reject_eq_ok_iff, Bool.true_and, decide_eq_false_iff_not, ne_eq,
      not_not] at hmerkle
    refine ⟨hmerkle.1, hmerkle.2, ?_⟩
    rw [hvtx]
    exact cons_ne_nil _ _
  obtain ⟨hroot1, hmutated1, hne1⟩ := hroot hfresh1 hcheck1
  obtain ⟨hroot2, hmutated2, hne2⟩ := hroot hfresh2 hcheck2
  refine computeMerkleRoot_injective_of_unmutated params.hash64 hne1 hne2 ?_ hmutated1 hmutated2 ?_
  · rw [length_map, length_map]
    exact hfree
  · rw [← hroot1, ← hroot2]
    exact congrArg CBlockHeader.hashMerkleRoot hheader

/-- `ContextualCheckBlock` ends with the checks of the extension block. -/
theorem nodeCheck_of_contextualCheckBlock {params : ConsensusParams}
    (h : DefcoinCore.contextualCheckBlock params crypto prev block = .ok ()) :
    Node.contextualCheckBlock crypto prev block = .ok () := by
  unfold DefcoinCore.contextualCheckBlock at h
  simp only [seq_eq_ok_iff] at h
  exact h.2.2.2.2

/-- A block with the hash of one that was connected is connected with the same result, or it is
reported as mutated and leaves no trace. The kernels of both were read, and the amount that the
parent recorded is in range. -/
theorem connectBlock_uncommitted {cparams : ConsensusParams} {getHash : CBlockHeader → Uint256}
    {hashBytes : List UInt8 → Hash} {params : MwebParams} {crypto : NodeCrypto} {prev : PrevIndex}
    {fCheckPOW : Bool} {b1 b2 b1' b2' : CBlock} {view view1 : CoinsView} {undo : Option BlockUndo}
    (hhash : getHash b1.toCBlockHeader = getHash b2.toCBlockHeader)
    (hfree : ConnectHashesCommit cparams.hash64 getHash crypto params view b1 b2)
    (hread1 : KernelsRead hashBytes b1) (hread2 : KernelsRead hashBytes b2)
    (hprev : moneyRange prev.mweb_amount)
    (hview : view.Bijective) (hfresh1 : b1.fChecked = false) (hfresh2 : b2.fChecked = false)
    (hcheck1 : DefcoinCore.checkBlock cparams fCheckPOW true b1 = .ok b1')
    (hcheck2 : DefcoinCore.checkBlock cparams fCheckPOW true b2 = .ok b2')
    (hctx1 : DefcoinCore.contextualCheckBlock cparams crypto.toCrypto prev b1 = .ok ())
    (hctx2 : DefcoinCore.contextualCheckBlock cparams crypto.toCrypto prev b2 = .ok ())
    (hok : connectBlock params crypto (getHash b1.toCBlockHeader) prev b1 view =
      (.ok undo, view1)) :
    connectBlock params crypto (getHash b2.toCBlockHeader) prev b2 view = (.ok undo, view1) ∨
      ∃ e : BlockInvalid, e.result = .mutated ∧
        connectBlock params crypto (getHash b2.toCBlockHeader) prev b2 view =
          (.error (.invalid e), view) := by
  have hheader := hfree.header hhash
  have hstrip := strip_eq_of_ids
    (ids_eq_of_checkBlock hheader hfree.txTree hfresh1 hfresh2 hcheck1 hcheck2) hfree.txs.txid
  have hnode1 := nodeCheck_of_contextualCheckBlock hctx1
  have hnode2 := nodeCheck_of_contextualCheckBlock hctx2
  have hsome : b1.mweb_block.isSome = b2.mweb_block.isSome := by
    rw [isSome_mweb_block_eq hnode1, isSome_mweb_block_eq hnode2]
  rw [← hhash]
  unfold connectBlock at hok ⊢
  rcases hm1 : b1.mweb_block with _ | m1 <;> rcases hm2 : b2.mweb_block with _ | m2 <;>
    rw [hm1, hm2] at hsome <;> rw [hm1] at hok
  · exact .inl hok
  · cases hsome
  · cases hsome
  have hactive1 := active_of_nodeCheck hnode1 hm1
  have hactive2 := active_of_nodeCheck hnode2 hm2
  have hbodies := hfree.bodies m1 m2 hm1 hm2
  -- The HogEx has the hash of the header of the extension block, and that the bytes of the kernels.
  have hmheader : m1.header = m2.header := by
    apply hfree.txs.mwebHeader m1 m2 hm1 hm2
    have haddr := hactive1.hogAddr
    rw [vout_lastTx_eq hstrip, hactive2.hogAddr] at haddr
    exact (Option.some.inj haddr).symm
  have hvalid1 := validBody_of_validate (validate_of_validateBlock hactive1.valid)
  have hvalid2 := validBody_of_validate (validate_of_validateBlock hactive2.valid)
  have hkernels := serialize_kernels_eq hvalid1 hvalid2 hmheader hbodies.kernels
  obtain ⟨hhogex, hfrozen, undo1, rfl, happly1⟩ := connectExtension_eq_ok hok
  dsimp only
  unfold connectExtension
  rw [checkHogEx_of_serialize_eq hstrip (hread1.readable hm1) (hread2.readable hm2) hkernels hprev
    hactive1 hactive2 hhogex]
  rcases happly2 : view.applyBlock crypto (allowMismatch params (getHash b1.toCBlockHeader)) m2
    with what | ⟨undo2, view2⟩
  · exact .inr ⟨_, rfl, rfl⟩
  · obtain ⟨rfl, rfl, hids⟩ := CoinsView.applyBlock_eq_of_header_eq hview hbodies hmheader
      hvalid1.inputs hvalid2.inputs happly1 happly2
    have hfrozen2 : checkFrozen params m2.body = .ok () := by
      rw [checkFrozen_eq_ok_iff, ← hids]
      exact checkFrozen_eq_ok_iff.mp hfrozen
    left
    dsimp only
    rw [hfrozen2]
    rfl

/-- The block with a pegin, with another output in the extension block. -/
def mutatedBody : CBlock :=
  { peginBlock false false with
    mweb_block := some { peginMwebBlock with
      body := { peginMwebBlock.body with outputs := [plainOutput 5] } } }

theorem connectHashesCommit_mutatedBody :
    ConnectHashesCommit peginParams.hash64 (fun _ => 0) peginCrypto openParams .empty
      (peginBlock false false) mutatedBody where
  header _ := rfl
  txTree := by decide +kernel
  txs := by
    have h := hashesCommit_peginBlock false false
    refine ⟨h.txid, h.wtxid, h.witnessTree, fun m1 m2 h1 h2 _ => ?_⟩
    rw [← Option.some.inj h1, ← Option.some.inj h2]
  bodies m1 m2 h1 h2 := by
    rw [← Option.some.inj h1, ← Option.some.inj h2]
    refine ⟨by decide +kernel, by decide +kernel, ?_, ?_⟩
    · exact fun output hmem => absurd hmem not_mem_nil
    · intro undo1 view1 undo2 view2 _ hok2
      have hfail : Ensures (CoinsView.applyBlock peginCrypto (allowMismatch openParams 0) .empty
          { peginMwebBlock with body := { peginMwebBlock.body with outputs := [plainOutput 5] } })
          (fun _ => False) fun _ => True := by decide +kernel
      exact absurd (hfail.of_ok hok2) not_false

/-- Connecting a block as the first one with an extension block. -/
abbrev connectFirst (block : CBlock) : Except BlockFault (Option BlockUndo) × CoinsView :=
  connectBlock openParams peginCrypto 0 activationIndex block .empty

/-- The block with a pegin is connected, and the one with the other output is reported as mutated.
-/
theorem connectBlock_uncommitted_mutatedBody : ∃ undo view1,
    connectFirst (peginBlock false false) = (.ok undo, view1) ∧
    (connectFirst mutatedBody = (.ok undo, view1) ∨ ∃ e : BlockInvalid, e.result = .mutated ∧
      connectFirst mutatedBody = (.error (.invalid e), .empty)) := by
  have hrun : Returns (connectFirst (peginBlock false false)).1 fun _ => True := by decide +kernel
  obtain ⟨undo, hundo, -⟩ := hrun.exists_ok
  rcases hok : connectFirst (peginBlock false false) with ⟨r, view1⟩
  rw [hok] at hundo
  subst hundo
  have hcheck : DefcoinCore.checkBlock peginParams true true mutatedBody =
      .ok { mutatedBody with fChecked := true } := by decide +kernel
  have hread : ∀ kernel ∈ peginMwebBlock.body.kernels, ∃ bytes rest,
      unserialize (fun _ => 5) bytes = .ok (kernel, rest) := by
    intro kernel hmem
    rw [mem_singleton.mp hmem]
    exact ⟨2 :: 10 :: List.replicate 97 0, [], by decide +kernel⟩
  exact ⟨undo, view1, rfl, connectBlock_uncommitted (by rfl) connectHashesCommit_mutatedBody
    (fun _ h => Option.some.inj h ▸ hread)
    (fun _ h => Option.some.inj h ▸ hread) rfl CoinsView.bijective_empty rfl rfl
    (checkBlock_peginBlock false false)
    hcheck contextualCheckBlock_peginBlock (by decide +kernel) hok⟩

end Node

end DefcoinCore.Mweb
