import DefcoinCore.Mweb.Node

/-!
# Checks of a block against its parent

`ContextualCheckBlock`: lock times, the height in the coinbase, the commitment to witnesses, the
weight and the extension block. As for `CheckBlock`, a block that fails for another reason than
mutated data is marked as failed for good. The commitment to witnesses is checked before anything
else reads them, so that a block passes it if and only if it has the witnesses that were committed
to (`checkWitness_eq_ok_iff`). Markers of HogEx transactions are committed to by nothing. A marker
put on a transaction with a pegin is the one change that gets a block condemned
(`contextualCheckBlock_uncommitted_iff`).
-/

namespace DefcoinCore

open List CTransaction

/-! ## The code -/

/-- The lock height of the attached Mimblewimble transaction. -/
def CTransaction.mwebLockHeight (tx : CTransaction) : Int :=
  match tx.mweb_tx with
  | some mweb_tx => mweb_tx.body.getLockHeight
  | none => 0

/-- `LOCKTIME_THRESHOLD`. -/
def lockTimeThreshold : Int := 500000000

/-- `CTxIn::SEQUENCE_FINAL`. -/
def sequenceFinal : UInt32 := 0xffffffff

/-- `IsFinalTx`. -/
def isFinalTx (tx : CTransaction) (nBlockHeight nBlockTime : Int) : Bool :=
  if tx.mwebLockHeight > nBlockHeight then false
  else if tx.nLockTime = 0 then true
  else if (tx.nLockTime.toNat : Int) <
      (if (tx.nLockTime.toNat : Int) < lockTimeThreshold then nBlockHeight
        else nBlockTime) then true
  else tx.vin.all fun txin => txin.nSequence = sequenceFinal

/-- The bytes of a number, the lowest first, without leading zeros; eight are enough for an
`int64_t`. -/
def scriptNumBytes : Nat → Nat → List UInt8
  | 0, _ => []
  | k + 1, absvalue =>
    if absvalue = 0 then [] else UInt8.ofNat absvalue :: scriptNumBytes k (absvalue / 256)

/-- `CScriptNum::serialize`. -/
def scriptNumSerialize (value : Int) : List UInt8 :=
  let result := scriptNumBytes 8 value.natAbs
  let last := result.getLastD 0
  if last &&& 0x80 ≠ 0 then result ++ [if value < 0 then 0x80 else 0]
  else if value < 0 then result.dropLast ++ [last ||| 0x80]
  else result

/-- `CScript() << n`. The number takes less bytes than `OP_PUSHDATA1` stands for. -/
def pushInt64 (n : Int) : CScript :=
  if n = -1 ∨ (1 ≤ n ∧ n ≤ 16) then [UInt8.ofInt (n + (op1.toNat - 1))]
  else if n = 0 then [0]
  else UInt8.ofNat (scriptNumSerialize n).length :: scriptNumSerialize n

/-- The first input of the coinbase. -/
def CBlock.coinbaseIn (block : CBlock) : CTxIn := (block.vtx.headD default).vin.headD default

/-- The check that all transactions are final. -/
def checkFinal (params : ConsensusParams) (prev : PrevIndex) (block : CBlock) :
    Except BlockInvalid Unit :=
  let nHeight := prev.nHeight + 1
  let nLockTimeCutoff : Int :=
    if nHeight ≥ params.CSVHeight then prev.getMedianTimePast else block.nTime.toNat
  reject (block.vtx.any fun tx => !isFinalTx tx nHeight nLockTimeCutoff)
    (blockConsensus "bad-txns-nonfinal" "non-final transaction")

/-- The check that the coinbase starts with the height. -/
def checkCoinbaseHeight (params : ConsensusParams) (prev : PrevIndex) (block : CBlock) :
    Except BlockInvalid Unit :=
  let nHeight := prev.nHeight + 1
  reject (nHeight ≥ params.BIP34Height && !(pushInt64 nHeight).isPrefixOf
    block.coinbaseIn.scriptSig) (blockConsensus "bad-cb-height" "block height mismatch in coinbase")

/-- The number that is written as a string of bytes. -/
def uint256OfBytes (bytes : List UInt8) : Uint256 := BitVec.ofNat 256 (ofLE bytes)

/-- The check of the commitment to witnesses, given its script. -/
def checkWitnessCommitment (params : ConsensusParams) (block : CBlock) (commitment : CScript) :
    Except BlockInvalid Unit :=
  let (hashWitness, _) := blockWitnessMerkleRoot params.hash64 block.vtx
  let nonce := block.coinbaseIn.scriptWitness.headD []
  if block.coinbaseIn.scriptWitness.length ≠ 1 ∨ nonce.length ≠ 32 then
    .error (blockMutated "bad-witness-nonce-size"
      "ContextualCheckBlock : invalid witness reserved value size")
  else
    reject (writeUint256 (params.hash64 hashWitness (uint256OfBytes nonce)) ≠
      (commitment.drop 6).take 32) (blockMutated "bad-witness-merkle-match"
        "ContextualCheckBlock : witness merkle commitment mismatch")

/-- The check of witnesses. -/
def checkWitness (params : ConsensusParams) (prev : PrevIndex) (block : CBlock) :
    Except BlockInvalid Unit :=
  match if prev.nHeight + 1 ≥ params.SegwitHeight then getWitnessCommitment block.vtx else none with
  | some commitment => checkWitnessCommitment params block commitment
  | none =>
    reject (block.vtx.any (·.hasWitness))
      (blockMutated "unexpected-witness" "ContextualCheckBlock : unexpected witness data found")

/-- The check of the weight. -/
def checkWeight (block : CBlock) : Except BlockInvalid Unit :=
  reject (getBlockWeight block > maxBlockWeight)
    (blockConsensus "bad-blk-weight" "ContextualCheckBlock : weight limit failed")

/-- `ContextualCheckBlock`. -/
def contextualCheckBlock (params : ConsensusParams) (crypto : Mweb.Crypto) (prev : PrevIndex)
    (block : CBlock) : Except BlockInvalid Unit := do
  checkFinal params prev block
  checkCoinbaseHeight params prev block
  checkWitness params prev block
  checkWeight block
  Mweb.Node.contextualCheckBlock crypto prev block

/-! ## What the checks read -/

/-- What the witnesses of a block are committed to by: the pairs that are hashed in the tree of
witnesses, and the root with the reserved value of the coinbase. -/
def witnessPairs (hash64 : Uint256 → Uint256 → Uint256) (block : CBlock) :
    List (Uint256 × Uint256) :=
  ((blockWitnessMerkleRoot hash64 block.vtx).1,
      uint256OfBytes (block.coinbaseIn.scriptWitness.headD [])) ::
    HashTree.hashedPairs hash64 (witnessLeaves block.vtx).length (witnessLeaves block.vtx)

/-- No hash over data of two blocks collides: a transaction id stands for what is committed to, a
witness hash for the witnesses as well, the hash of the header of an extension block for the header,
and no two pairs hashed for the commitments to witnesses collide. -/
structure HashesCommit (hash64 : Uint256 → Uint256 → Uint256) (b1 b2 : CBlock) : Prop where
  txid : ∀ tx ∈ b1.vtx, ∀ tx' ∈ b2.vtx, tx.hash = tx'.hash → tx.strip = tx'.strip
  wtxid : ∀ tx ∈ b1.vtx, ∀ tx' ∈ b2.vtx, tx.strip = tx'.strip →
    (tx.m_witness_hash = tx'.m_witness_hash ↔ tx.witnesses = tx'.witnesses)
  witnessTree : Set.InjOn (fun p : Uint256 × Uint256 => hash64 p.1 p.2)
    {p | p ∈ witnessPairs hash64 b1 ∨ p ∈ witnessPairs hash64 b2}
  mwebHeader : ∀ m1 m2, b1.mweb_block = some m1 → b2.mweb_block = some m2 →
    m1.header.hash = m2.header.hash → m1.header = m2.header

variable {params : ConsensusParams} {block : CBlock}

theorem isFinalTx_strip {tx : CTransaction} (hmweb : tx.hasMWEBTx = false)
    (nBlockHeight nBlockTime : Int) :
    isFinalTx tx.strip nBlockHeight nBlockTime = isFinalTx tx nBlockHeight nBlockTime := by
  have hnone : tx.mweb_tx = none := by simpa [hasMWEBTx] using hmweb
  unfold isFinalTx mwebLockHeight strip
  rw [hnone, all_map]
  rfl

/-- The number of 32 bytes stands for them. -/
theorem uint256OfBytes_injective {b b' : List UInt8} (hb : b.length = 32) (hb' : b'.length = 32)
    (h : uint256OfBytes b = uint256OfBytes b') : b = b' := by
  have hlt := ofLE_lt b
  have hlt' := ofLE_lt b'
  have hnat := congrArg BitVec.toNat h
  unfold uint256OfBytes at hnat
  rw [BitVec.toNat_ofNat, BitVec.toNat_ofNat, Nat.mod_eq_of_lt (by rw [hb] at hlt; omega),
    Nat.mod_eq_of_lt (by rw [hb'] at hlt'; omega)] at hnat
  rw [← writeLE_ofLE b, ← writeLE_ofLE b', hb, hb', hnat]

theorem writeUint256_injective {a b : Uint256} (h : writeUint256 a = writeUint256 b) : a = b := by
  have hnat := congrArg ofLE h
  unfold writeUint256 at hnat
  rw [ofLE_writeLE, ofLE_writeLE, Nat.mod_eq_of_lt (by have := a.isLt; omega),
    Nat.mod_eq_of_lt (by have := b.isLt; omega)] at hnat
  exact BitVec.eq_of_toNat_eq hnat

section SameCommitted

variable {params : ConsensusParams} {prev : PrevIndex} {b1 b2 : CBlock}
  (hstrip : b1.vtx.map CTransaction.strip = b2.vtx.map CTransaction.strip)

include hstrip

theorem checkFinal_eq (hheader : b1.toCBlockHeader = b2.toCBlockHeader)
    (hmweb1 : ∀ tx ∈ b1.vtx, tx.hasMWEBTx = false) (hmweb2 : ∀ tx ∈ b2.vtx, tx.hasMWEBTx = false) :
    checkFinal params prev b1 = checkFinal params prev b2 := by
  have hany : ∀ (b : CBlock), (∀ tx ∈ b.vtx, tx.hasMWEBTx = false) → ∀ h t : Int,
      (b.vtx.any fun tx => !isFinalTx tx h t) =
        (b.vtx.map strip).any fun tx => !isFinalTx tx h t := by
    intro b hmweb h t
    rw [any_map, Bool.eq_iff_iff, any_eq_true, any_eq_true]
    refine exists_congr fun tx => and_congr_right fun htx => ?_
    rw [Function.comp_apply, isFinalTx_strip (hmweb tx htx)]
  have htime : b1.nTime = b2.nTime := congrArg CBlockHeader.nTime hheader
  unfold checkFinal
  dsimp only
  rw [hany b1 hmweb1, hany b2 hmweb2, hstrip, htime]

theorem strip_coinbaseIn_eq : b1.coinbaseIn.strip = b2.coinbaseIn.strip := by
  have hmap : ∀ b : CBlock, ((b.vtx.map strip).headD (default : CTransaction).strip).vin.headD
      (default : CTxIn).strip = b.coinbaseIn.strip := by
    intro b
    unfold CBlock.coinbaseIn
    rcases b.vtx with _ | ⟨tx, vtx⟩
    · rfl
    · rw [map_cons, headD_cons, headD_cons, strip]
      cases tx.vin <;> rfl
  rw [← hmap, ← hmap, hstrip]

theorem checkCoinbaseHeight_eq : checkCoinbaseHeight params prev b1 = checkCoinbaseHeight params
    prev b2 := by
  have hsig : b1.coinbaseIn.strip.scriptSig = b2.coinbaseIn.strip.scriptSig := by
    rw [strip_coinbaseIn_eq hstrip]
  change b1.coinbaseIn.scriptSig = b2.coinbaseIn.scriptSig at hsig
  unfold checkCoinbaseHeight
  rw [hsig]

theorem getWitnessCommitment_eq : getWitnessCommitment b1.vtx = getWitnessCommitment b2.vtx := by
  have hmap : ∀ vtx : List CTransaction, getWitnessCommitment (vtx.map strip) =
      getWitnessCommitment vtx := by
    intro vtx
    cases vtx <;> rfl
  rw [← hmap, hstrip, hmap]

/-- The leaves of the trees of witnesses are equal if and only if the witnesses behind the coinbase
are. -/
theorem witnessLeaves_eq_iff
    (hwtxid : ∀ tx ∈ b1.vtx, ∀ tx' ∈ b2.vtx, tx.strip = tx'.strip →
      (tx.m_witness_hash = tx'.m_witness_hash ↔ tx.witnesses = tx'.witnesses)) :
    witnessLeaves b1.vtx = witnessLeaves b2.vtx ↔
      b1.vtx.tail.map witnesses = b2.vtx.tail.map witnesses := by
  revert hstrip hwtxid
  generalize b1.vtx = vtx
  generalize b2.vtx = vtx'
  intro hstrip hwtxid
  match vtx, vtx' with
  | [], [] => exact ⟨fun _ => rfl, fun _ => rfl⟩
  | [], _ :: _ => exact absurd hstrip (by simp)
  | _ :: _, [] => exact absurd hstrip (by simp)
  | tx :: vtx, tx' :: vtx' =>
    rw [map_cons, map_cons, cons.injEq] at hstrip
    rw [witnessLeaves, witnessLeaves, cons.injEq, tail_cons, tail_cons]
    have hiff : ∀ t ∈ vtx, ∀ t' ∈ vtx', t.strip = t'.strip →
        (t.m_witness_hash = t'.m_witness_hash ↔ t.witnesses = t'.witnesses) := fun t ht t' ht' =>
      hwtxid t (mem_cons_of_mem _ ht) t' (mem_cons_of_mem _ ht')
    constructor
    · rintro ⟨-, hhashes⟩
      refine map_eq_of_map_eq (fun t ht t' ht' h => ?_) (map_prodMk_eq hstrip.2 hhashes)
      rw [Prod.mk.injEq] at h
      exact (hiff t ht t' ht' h.1).mp h.2
    · intro hwit
      refine ⟨rfl, map_eq_of_map_eq (fun t ht t' ht' h => ?_) (map_prodMk_eq hstrip.2 hwit)⟩
      rw [Prod.mk.injEq] at h
      exact (hiff t ht t' ht' h.1).mpr h.2

/-- Blocks without witnesses have the same. -/
theorem witnesses_eq_of_none (h1 : ∀ tx ∈ b1.vtx, tx.hasWitness = false)
    (h2 : ∀ tx ∈ b2.vtx, tx.hasWitness = false) :
    b1.vtx.map witnesses = b2.vtx.map witnesses := by
  have hreplicate : ∀ tx : CTransaction, tx.hasWitness = false →
      tx.witnesses = replicate tx.strip.vin.length [] := by
    intro tx htx
    unfold witnesses strip
    rw [length_map, eq_replicate_iff]
    refine ⟨by rw [length_map], forall_mem_map.mpr fun txin htxin => ?_⟩
    simpa using any_eq_false.mp htx txin htxin
  refine map_eq_of_map_eq (fun tx htx tx' htx' h => ?_) hstrip
  rw [hreplicate tx (h1 tx htx), hreplicate tx' (h2 tx' htx'), h]

end SameCommitted

/-- The block starts with a transaction of one input. -/
def CBlock.HasCoinbaseIn (block : CBlock) : Prop :=
  ∃ tx vtx txin, block.vtx = tx :: vtx ∧ tx.vin = [txin]

theorem hasCoinbaseIn_of_checkBlock {fCheckPOW fCheckMerkleRoot : Bool} {block' : CBlock}
    (hfresh : block.fChecked = false)
    (h : checkBlock params fCheckPOW fCheckMerkleRoot block = .ok block') :
    block.HasCoinbaseIn := by
  obtain ⟨hcommitted, -, -⟩ := checkBlock_eq_ok hfresh h
  have hcoinbase := ((checkCommitted_eq_ok_iff ..).mp hcommitted).1.2.2.2.2
  unfold checkCoinbase at hcoinbase
  rw [seq_eq_ok_iff, reject_eq_ok_iff] at hcoinbase
  have hfirst := hcoinbase.1
  rcases hvtx : block.vtx with _ | ⟨tx, vtx⟩
  · rw [hvtx] at hfirst
    exact absurd hfirst (by decide)
  · rw [hvtx, head?_cons, Option.any_some, Bool.not_eq_false', isCoinBase] at hfirst
    rcases hvin : tx.vin with _ | ⟨txin, _ | ⟨txin', vin⟩⟩
    · rw [hvin] at hfirst
      exact absurd hfirst (by decide)
    · exact ⟨tx, vtx, txin, hvtx, hvin⟩
    · rw [hvin] at hfirst
      exact absurd hfirst Bool.false_ne_true

theorem map_witnesses_eq (h : block.HasCoinbaseIn) :
    block.vtx.map witnesses = [block.coinbaseIn.scriptWitness] :: block.vtx.tail.map witnesses := by
  obtain ⟨tx, vtx, txin, hvtx, hvin⟩ := h
  unfold CBlock.coinbaseIn
  rw [hvtx, map_cons, tail_cons, headD_cons, witnesses, hvin]
  rfl

theorem checkWitnessCommitment_eq_ok_iff {commitment : CScript} :
    checkWitnessCommitment params block commitment = .ok () ↔
      ∃ nonce, block.coinbaseIn.scriptWitness = [nonce] ∧ nonce.length = 32 ∧
        writeUint256 (params.hash64 (blockWitnessMerkleRoot params.hash64 block.vtx).1
          (uint256OfBytes nonce)) = (commitment.drop 6).take 32 := by
  unfold checkWitnessCommitment
  dsimp only
  rcases block.coinbaseIn.scriptWitness with _ | ⟨nonce, _ | ⟨nonce', stack⟩⟩
  · rw [if_pos (.inl (by simp))]
    exact ⟨nofun, nofun⟩
  · rw [headD_cons]
    split_ifs with hsize
    · refine ⟨nofun, fun ⟨_, h, hlen, _⟩ => ?_⟩
      rw [cons.injEq] at h
      rw [h.1] at hsize
      simp [hlen] at hsize
    · rw [reject_eq_ok_iff, decide_eq_false_iff_not, not_not]
      refine ⟨fun h => ⟨nonce, rfl, by simpa using hsize, h⟩, fun ⟨_, h, _, hhash⟩ => ?_⟩
      rw [cons.injEq] at h
      rw [h.1]
      exact hhash
  · rw [if_pos (.inl (by simp))]
    exact ⟨nofun, nofun⟩

/-- Wrong witnesses are mutated data. -/
theorem checkWitness_mutated (params : ConsensusParams) (prev : PrevIndex) (block : CBlock) :
    MutatedOnly (checkWitness params prev block) := by
  unfold checkWitness
  split
  · unfold checkWitnessCommitment
    dsimp only
    split_ifs
    · exact rfl
    · exact (Mweb.Node.reject_mutated ..).forget
  · exact (Mweb.Node.reject_mutated ..).forget

/-- A block that commits to the same data as an accepted one passes the check of witnesses if and
only if it has the same witnesses. -/
theorem checkWitness_eq_ok_iff {prev : PrevIndex} {b1 b2 : CBlock}
    (hstrip : b1.vtx.map strip = b2.vtx.map strip) (hfree : HashesCommit params.hash64 b1 b2)
    (hcb1 : b1.HasCoinbaseIn) (hcb2 : b2.HasCoinbaseIn)
    (hok : checkWitness params prev b1 = .ok ()) :
    checkWitness params prev b2 = .ok () ↔ b1.vtx.map witnesses = b2.vtx.map witnesses := by
  unfold checkWitness at hok ⊢
  rw [← getWitnessCommitment_eq hstrip]
  generalize (if prev.nHeight + 1 ≥ params.SegwitHeight then getWitnessCommitment b1.vtx
    else none) = found at hok ⊢
  rcases found with _ | commitment
  rotate_left
  · rw [map_witnesses_eq hcb1, map_witnesses_eq hcb2, cons.injEq]
    obtain ⟨nonce1, hnonce1, hlen1, hhash1⟩ := checkWitnessCommitment_eq_ok_iff.mp hok
    rw [checkWitnessCommitment_eq_ok_iff, ← witnessLeaves_eq_iff hstrip hfree.wtxid, hnonce1]
    constructor
    · rintro ⟨nonce2, hnonce2, hlen2, hhash2⟩
      -- The same hash of root and reserved value, so the same root and the same reserved value.
      have hpair := hfree.witnessTree (.inl mem_cons_self) (.inr mem_cons_self)
        (by rw [hnonce1, hnonce2]; exact writeUint256_injective (hhash1.trans hhash2.symm))
      rw [hnonce1, hnonce2, Prod.mk.injEq] at hpair
      rw [hnonce2, uint256OfBytes_injective hlen1 hlen2 hpair.2]
      refine ⟨rfl, ?_⟩
      have hlen : (witnessLeaves b1.vtx).length = (witnessLeaves b2.vtx).length := by
        have h := congrArg length hstrip
        rw [length_map, length_map] at h
        have hleaves : ∀ vtx, (witnessLeaves vtx).length = vtx.length := by
          intro vtx
          cases vtx <;> simp [witnessLeaves]
        rw [hleaves, hleaves, h]
      refine computeMerkleRoot_injective params.hash64 hlen (hfree.witnessTree.mono ?_) hpair.1
      rintro p (hp | hp)
      · exact .inl (mem_cons_of_mem _ hp)
      · exact .inr (mem_cons_of_mem _ (hlen ▸ hp))
    · rintro ⟨hnonce, hleaves⟩
      rw [cons.injEq] at hnonce
      refine ⟨nonce1, hnonce.1.symm, hlen1, ?_⟩
      unfold blockWitnessMerkleRoot at hhash1 ⊢
      rw [← hleaves]
      exact hhash1
  · rw [reject_eq_ok_iff, any_eq_false] at hok ⊢
    have hnone1 : ∀ tx ∈ b1.vtx, tx.hasWitness = false := fun tx htx => by simpa using hok tx htx
    constructor
    · intro h
      exact witnesses_eq_of_none hstrip hnone1 fun tx htx => by simpa using h tx htx
    · intro hwit
      -- Whether a transaction has witnesses is seen from the witnesses.
      have hhas := map_eq_of_map_eq (g := hasWitness) (fun tx _ tx' _ h => ?_) hwit
      · intro tx htx h
        have hmem : tx.hasWitness ∈ b2.vtx.map hasWitness := mem_map_of_mem htx
        rw [← hhas, h] at hmem
        obtain ⟨tx1, htx1, heq⟩ := mem_map.mp hmem
        rw [hnone1 tx1 htx1] at heq
        exact absurd heq (by decide)
      · have hany : ∀ t : CTransaction, t.hasWitness = t.witnesses.any fun w => !w.isEmpty := by
          intro t
          rw [witnesses, any_map]
          rfl
        rw [hany, hany, h]

/-! ## The result -/

/-- No marked transaction of the block has a pegin output. -/
def NoMarkedPegin (block : CBlock) : Prop :=
  ∀ tx ∈ block.vtx, tx.m_hogEx → tx.hasPegin = false

/-- The part of the extension block, for a block with the right witnesses. -/
theorem nodeCheck_uncommitted_iff {hash64 : Uint256 → Uint256 → Uint256} {crypto : Mweb.Crypto}
    {prev : PrevIndex} {b1 b2 : CBlock}
    (hstrip : b1.vtx.map strip = b2.vtx.map strip)
    (hfree : HashesCommit hash64 b1 b2)
    (hok : Mweb.Node.contextualCheckBlock crypto prev b1 = .ok ()) :
    MutatedOnly (Mweb.Node.contextualCheckBlock crypto prev b2) ↔
      prev.isMWEBEnabled = false ∨ b2.mweb_block = none ∨ NoMarkedPegin b2 := by
  unfold Mweb.Node.contextualCheckBlock at hok ⊢
  cases henabled : prev.isMWEBEnabled with
  | false =>
    rw [Bool.not_false, if_pos rfl]
    have hinactive : MutatedOnly (Mweb.Node.checkInactive b2) :=
      (Mweb.Node.reject_mutated ..).bind fun _ _ => (Mweb.Node.reject_mutated ..).forget
    exact ⟨fun _ => .inl rfl, fun _ => hinactive⟩
  | true =>
    rw [henabled] at hok
    rcases hm2 : b2.mweb_block with _ | m2
    · exact ⟨fun _ => .inr (.inl rfl), fun _ => rfl⟩
    · rcases hm1 : b1.mweb_block with _ | m1
      · rw [hm1] at hok
        cases hok
      · rw [hm1] at hok
        have hactive := Mweb.Node.active_of_checkActive hok
        refine ⟨fun h => .inr (.inr ?_), fun h => ?_⟩
        · -- A marked pegin is reported first, and as a consensus error.
          intro tx htx hmark
          by_contra hpegin
          have hreject : Mweb.Node.checkUnexpectedPegins b2 = .error
              (blockConsensus "bad-tx-unexpected-pegin" "Pegin found in coinbase or HogEx") := by
            unfold Mweb.Node.checkUnexpectedPegins
            rw [any_eq_true.mpr ⟨tx, htx, by simp [hmark, Bool.not_eq_false _ ▸ hpegin]⟩]
            rfl
          unfold Mweb.Node.checkActive at h
          rw [hreject] at h
          have hresult : BlockValidationResult.consensus = .mutated := h
          cases hresult
        · rcases h with h | h | hmarked
          · cases h
          · cases h
          · exact Mweb.Node.checkActive_mutated hactive hstrip
              (hfree.mwebHeader m1 m2 hm1 hm2) hmarked

/-- Data that is not committed to by the block hash makes `ContextualCheckBlock` condemn a block
whose committed data is fine if and only if a marker stands on a transaction with a pegin, in a
block with the right witnesses and with an extension block where these are active. -/
theorem contextualCheckBlock_uncommitted_iff {params : ConsensusParams} {crypto : Mweb.Crypto}
    {prev : PrevIndex} {fCheckPOW fCheckMerkleRoot : Bool} {b1 b2 b1' b2' : CBlock}
    (hheader : b1.toCBlockHeader = b2.toCBlockHeader)
    (hids : (b1.vtx.map (·.hash)) = b2.vtx.map (·.hash))
    (hfree : HashesCommit params.hash64 b1 b2)
    (hfresh1 : b1.fChecked = false) (hfresh2 : b2.fChecked = false)
    (hcheck1 : checkBlock params fCheckPOW fCheckMerkleRoot b1 = .ok b1')
    (hcheck2 : checkBlock params fCheckPOW fCheckMerkleRoot b2 = .ok b2')
    (hok : contextualCheckBlock params crypto prev b1 = .ok ()) :
    MutatedOnly (contextualCheckBlock params crypto prev b2) ↔
      b1.vtx.map CTransaction.witnesses ≠ b2.vtx.map CTransaction.witnesses ∨
        prev.isMWEBEnabled = false ∨ b2.mweb_block = none ∨ NoMarkedPegin b2 := by
  have hstrip := strip_eq_of_ids hids hfree.txid
  obtain ⟨-, -, hmweb1⟩ := checkBlock_eq_ok hfresh1 hcheck1
  obtain ⟨-, -, hmweb2⟩ := checkBlock_eq_ok hfresh2 hcheck2
  unfold contextualCheckBlock at hok ⊢
  rw [seq_eq_ok_iff, seq_eq_ok_iff, seq_eq_ok_iff, seq_eq_ok_iff] at hok
  obtain ⟨hfinal, hheight, hwitness, hweight, hnode⟩ := hok
  rw [checkFinal_eq hstrip hheader hmweb1 hmweb2] at hfinal
  rw [checkCoinbaseHeight_eq hstrip] at hheight
  rw [hfinal, ok_bind, hheight, ok_bind]
  have hiff := checkWitness_eq_ok_iff hstrip hfree (hasCoinbaseIn_of_checkBlock hfresh1 hcheck1)
    (hasCoinbaseIn_of_checkBlock hfresh2 hcheck2) hwitness
  have hmutated := checkWitness_mutated params prev b2
  rcases hw2 : checkWitness params prev b2 with e | u
  · -- Other witnesses: the block is reported as mutated.
    rw [hw2] at hiff hmutated
    refine ⟨fun _ => .inl fun h => ?_, fun _ => hmutated⟩
    exact absurd (hiff.mpr h) (by simp)
  · have hwit := hiff.mp hw2
    have hweight2 : checkWeight b2 = .ok () := by
      unfold checkWeight getBlockWeight at hweight ⊢
      rw [serializeBlock_congr hheader hstrip hwit,
        serializeBlock_congr hheader hstrip hwit] at hweight
      exact hweight
    rw [ok_bind, hweight2, ok_bind, or_iff_right (not_not.mpr hwit)]
    exact nodeCheck_uncommitted_iff hstrip hfree hnode

/-! ## A block with a pegin -/

/-- Parameters with a hash that tells apart the pairs of the block below. -/
def peginParams : ConsensusParams := { sampleParams with hash64 := fun a b => 1000 * a + b }

/-- A curve whose checks all pass. -/
def sampleCrypto : Mweb.Crypto where
  hashKernelNode
    | .leaf pos bytes => BitVec.ofNat 256 (pos + bytes.length)
    | .parent pos left right => BitVec.ofNat 256 pos + left + right
  batchVerify _ := true
  verifyRangeProofs _ := true
  validateStealthSums _ _ := true

/-- The first block with an extension block is the next one. -/
def activationIndex : PrevIndex where
  nHeight := 0
  getMedianTimePast := 0
  isMWEBEnabled := true
  isMWEBEnabledBefore := false
  hogex_hash := 0
  mweb_amount := 0

/-- An extension block with one kernel, which takes in ten coins. -/
def peginMwebBlock : Mweb.Block where
  header :=
    { height := 1
      outputRoot := 0
      kernelRoot := 99
      leafsetRoot := 0
      kernelOffset := Bytes.zero 32
      stealthOffset := Bytes.zero 32
      outputMMRSize := 0
      kernelMMRSize := 1
      hash := 7 }
  body := ⟨[], [], [sampleKernel 2 (some 10) [] 5]⟩

/-- A coinbase, a pegin and the HogEx, with markers on the first two as given. -/
def peginBlock (markCoinbase markPegin : Bool) : CBlock where
  nVersion := 1
  hashPrevBlock := 0
  hashMerkleRoot := 1005003
  nTime := 0
  nBits := 0
  nNonce := 0
  vtx :=
    [⟨[⟨⟨0, nullIndex⟩, [0x51, 0], 0, []⟩], [⟨50, []⟩], 1, 0, none, markCoinbase, 1, 1⟩,
      ⟨[⟨⟨9, 0⟩, [], 0, []⟩], [⟨10, 0x59 :: 32 :: (List.replicate 31 0 ++ [5])⟩], 1, 0, none,
        markPegin, 2, 2⟩,
      ⟨[⟨⟨2, 0⟩, [], 0, []⟩], [⟨10, 0x58 :: 32 :: (List.replicate 31 0 ++ [7])⟩], 1, 0, none,
        true, 3, 3⟩]
  fChecked := false
  mweb_block := some peginMwebBlock

theorem checkBlock_peginBlock (markCoinbase markPegin : Bool) :
    checkBlock peginParams true true (peginBlock markCoinbase markPegin) =
      .ok { peginBlock markCoinbase markPegin with fChecked := true } := by
  revert markCoinbase markPegin
  decide +kernel

theorem contextualCheckBlock_peginBlock :
    contextualCheckBlock peginParams sampleCrypto activationIndex (peginBlock false false) =
      .ok () := by
  decide +kernel

theorem hashesCommit_peginBlock (markCoinbase markPegin : Bool) :
    HashesCommit peginParams.hash64 (peginBlock false false)
      (peginBlock markCoinbase markPegin) where
  txid := by
    revert markCoinbase markPegin
    decide +kernel
  wtxid := by
    revert markCoinbase markPegin
    decide +kernel
  witnessTree := by
    revert markCoinbase markPegin
    decide +kernel
  mwebHeader m1 m2 h1 h2 _ := by
    rw [← Option.some.inj h1, ← Option.some.inj h2]

/-- A marker stands on the coinbase of a block with a pegin. -/
theorem contextualCheckBlock_uncommitted_iff_peginBlock : MutatedOnly
    (contextualCheckBlock peginParams sampleCrypto activationIndex (peginBlock true false)) := by
  have hheader : (peginBlock false false).toCBlockHeader = (peginBlock true false).toCBlockHeader :=
    rfl
  rw [contextualCheckBlock_uncommitted_iff hheader rfl (hashesCommit_peginBlock true false) rfl
    rfl (checkBlock_peginBlock false false) (checkBlock_peginBlock true false)
    contextualCheckBlock_peginBlock]
  refine .inr (.inr (.inr ?_))
  unfold NoMarkedPegin
  decide +kernel

/-- A marker on the pegin gets the block condemned. -/
theorem contextualCheckBlock_condemns_marked :
    (peginBlock false false).toCBlockHeader = (peginBlock false true).toCBlockHeader ∧
    ((peginBlock false false).vtx.map (·.hash)) = ((peginBlock false true).vtx.map (·.hash)) ∧
    checkBlock peginParams true true (peginBlock false false) =
      .ok { peginBlock false false with fChecked := true } ∧
    checkBlock peginParams true true (peginBlock false true) =
      .ok { peginBlock false true with fChecked := true } ∧
    contextualCheckBlock peginParams sampleCrypto activationIndex
      (peginBlock false false) = .ok () ∧
    contextualCheckBlock peginParams sampleCrypto activationIndex (peginBlock false true) =
      .error ⟨.consensus, "bad-tx-unexpected-pegin", "Pegin found in coinbase or HogEx"⟩ := by
  decide +kernel

end DefcoinCore
