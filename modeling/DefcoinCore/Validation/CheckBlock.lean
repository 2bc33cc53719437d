import DefcoinCore.Consensus.Merkle
import DefcoinCore.Consensus.TxCheck
import DefcoinCore.Script.Script

/-!
# Checks of a block alone

`CheckBlock`: the checks that need nothing but the block. A block that fails them for another reason
than mutated data is marked as failed for good, so it matters that what fails is in the data that
the block hash commits to. All checks but one read only such data, or fail with `BLOCK_MUTATED`. The
exception is the count of signature operations, which includes the pegouts of Mimblewimble
transactions attached to the transactions of the block, and comes before the check that there are
none (`checkBlock_uncommitted_iff`).
-/

namespace DefcoinCore

open List CTransaction

/-! ## The code -/

/-- The parts of the consensus parameters that blocks are checked with. -/
structure ConsensusParams where
  BIP34Height : Int
  CSVHeight : Int
  SegwitHeight : Int
  /-- The double hash of two joined hashes. -/
  hash64 : Uint256 → Uint256 → Uint256
  /-- `CheckProofOfWork`, on the hash for proof of work of a header. -/
  checkProofOfWork : CBlockHeader → Bool
  signet_blocks : Bool
  /-- `CheckSignetBlockSolution`, which reads the header, the first transaction without its witness
  and the transaction ids. -/
  checkSignetBlockSolution : CBlockHeader → Option CTransaction → List Uint256 → Bool

/-- A block that breaks the consensus rules. -/
def blockConsensus (reject_reason debug_message : String) : BlockInvalid :=
  ⟨.consensus, reject_reason, debug_message⟩

/-- A block whose data does not match what was committed to. -/
def blockMutated (reject_reason debug_message : String) : BlockInvalid :=
  ⟨.mutated, reject_reason, debug_message⟩

/-- A sum in an `unsigned int`. -/
def sumUInt32 (l : List UInt32) : UInt32 := l.foldl (fun n m => n + m) 0

variable (tx : CTransaction)

/-- The pegouts of the attached Mimblewimble transaction. -/
def CTransaction.attachedPegOuts : List Mweb.PegOutCoin :=
  match tx.mweb_tx with
  | some mweb_tx => mweb_tx.body.getPegOuts
  | none => []

/-- The signature operations in the scripts of the inputs and outputs. -/
def scriptSigOps : UInt32 :=
  sumUInt32 (tx.vin.map fun txin => getSigOpCount false txin.scriptSig) +
    sumUInt32 (tx.vout.map fun txout => getSigOpCount false txout.scriptPubKey)

/-- The signature operations in the scripts of the attached pegouts. -/
def pegoutSigOps : UInt32 :=
  sumUInt32 (tx.attachedPegOuts.map fun pegout => getSigOpCount false pegout.scriptPubKey)

/-- `GetLegacySigOpCount`. -/
def getLegacySigOpCount : UInt32 := scriptSigOps tx + pegoutSigOps tx

/-- `CheckBlockHeader`. -/
def checkBlockHeader (params : ConsensusParams) (fCheckPOW : Bool) (header : CBlockHeader) :
    Except BlockInvalid Unit :=
  reject (fCheckPOW && !params.checkProofOfWork header)
    ⟨.invalidHeader, "high-hash", "proof of work failed"⟩

/-- The check of the signet solution. -/
def checkSignet (params : ConsensusParams) (fCheckPOW : Bool) (block : CBlock) :
    Except BlockInvalid Unit :=
  reject (params.signet_blocks && fCheckPOW &&
      !params.checkSignetBlockSolution block.toCBlockHeader (block.vtx.head?.map strip)
        (block.vtx.map (·.hash)))
    (blockConsensus "bad-signet-blksig" "signet block signature validation failure")

/-- The check of the merkle root. -/
def checkMerkleRoot (params : ConsensusParams) (fCheckMerkleRoot : Bool) (block : CBlock) :
    Except BlockInvalid Unit := do
  let (hashMerkleRoot2, mutated) := blockMerkleRoot params.hash64 block.vtx
  reject (fCheckMerkleRoot && block.hashMerkleRoot ≠ hashMerkleRoot2)
    (blockMutated "bad-txnmrklroot" "hashMerkleRoot mismatch")
  reject (fCheckMerkleRoot && mutated) (blockMutated "bad-txns-duplicate" "duplicate transaction")

/-- The check of size limits. -/
def checkSizeLimits (block : CBlock) : Except BlockInvalid Unit :=
  reject (block.vtx.isEmpty || block.vtx.length * witnessScaleFactor > maxBlockWeight ||
      (serializeBlock false block).length * witnessScaleFactor > maxBlockWeight)
    (blockConsensus "bad-blk-length" "size limits failed")

/-- The checks that the first transaction is a coinbase and the others are not. -/
def checkCoinbase (block : CBlock) : Except BlockInvalid Unit := do
  reject (!block.vtx.head?.any (·.isCoinBase))
    (blockConsensus "bad-cb-missing" "first tx is not coinbase")
  reject (block.vtx.tail.any (·.isCoinBase))
    (blockConsensus "bad-cb-multiple" "more than one coinbase")

/-- The check of one transaction. -/
def checkBlockTx : Except BlockInvalid Unit :=
  match checkTransaction tx with
  | .ok _ => .ok ()
  | .error e => .error (blockConsensus e.reject_reason
      ("Transaction check failed (tx hash " ++ tx.hash.toHex ++ ") " ++ e.debug_message))

/-- The check of the number of signature operations; the cost is an `unsigned int`. -/
def checkSigOps (block : CBlock) : Except BlockInvalid Unit :=
  let nSigOps := sumUInt32 (block.vtx.map getLegacySigOpCount)
  reject ((nSigOps * UInt32.ofNat witnessScaleFactor).toNat > maxBlockSigopsCost)
    (blockConsensus "bad-blk-sigops" "out-of-bounds SigOpCount")

/-- `MWEB::Node::CheckBlock`. -/
def Mweb.Node.checkBlock (block : CBlock) : Except BlockInvalid Unit :=
  reject (block.vtx.any (·.hasMWEBTx))
    (blockMutated "unexpected-mweb-data" "Block contains transactions with MWEB data attached")

/-- The checks of `CheckBlock` before signature operations are counted. -/
def checkCommitted (params : ConsensusParams) (fCheckPOW fCheckMerkleRoot : Bool) (block : CBlock) :
    Except BlockInvalid Unit := do
  checkBlockHeader params fCheckPOW block.toCBlockHeader
  checkSignet params fCheckPOW block
  checkMerkleRoot params fCheckMerkleRoot block
  checkSizeLimits block
  checkCoinbase block
  block.vtx.forM checkBlockTx

/-- `CheckBlock`: the block, marked as checked if all checks were made. -/
def checkBlock (params : ConsensusParams) (fCheckPOW fCheckMerkleRoot : Bool) (block : CBlock) :
    Except BlockInvalid CBlock :=
  if block.fChecked then .ok block
  else do
    checkCommitted params fCheckPOW fCheckMerkleRoot block
    checkSigOps block
    Mweb.Node.checkBlock block
    pure { block with fChecked := block.fChecked || (fCheckPOW && fCheckMerkleRoot) }

/-! ## What the checks read -/

variable {params : ConsensusParams} {fCheckPOW fCheckMerkleRoot : Bool} {block : CBlock}

theorem checkBlockTx_eq_ok_iff {tx : CTransaction} :
    checkBlockTx tx = .ok () ↔ checkTransaction tx = .ok () := by
  unfold checkBlockTx
  rcases checkTransaction tx with e | u
  · exact ⟨nofun, nofun⟩
  · exact ⟨fun _ => rfl, fun _ => rfl⟩

theorem checkSignet_strip (params : ConsensusParams) (fCheckPOW : Bool) (block : CBlock) :
    checkSignet params fCheckPOW block.strip = checkSignet params fCheckPOW block := by
  unfold checkSignet CBlock.strip
  have hstrip : strip ∘ strip = strip := by
    funext tx
    simp only [strip, Function.comp_apply, map_map]
    rfl
  rw [head?_map, Option.map_map, map_map, hstrip]
  rfl

theorem checkMerkleRoot_strip (params : ConsensusParams) (fCheckMerkleRoot : Bool)
    (block : CBlock) :
    checkMerkleRoot params fCheckMerkleRoot block.strip =
      checkMerkleRoot params fCheckMerkleRoot block := by
  unfold checkMerkleRoot CBlock.strip blockMerkleRoot
  rw [map_map]
  rfl

theorem checkSizeLimits_strip (block : CBlock) :
    checkSizeLimits block.strip = checkSizeLimits block := by
  unfold checkSizeLimits
  rw [serializeBlock_strip]
  unfold CBlock.strip
  rw [isEmpty_map, length_map]

theorem checkCoinbase_strip (block : CBlock) : checkCoinbase block.strip = checkCoinbase block := by
  unfold checkCoinbase CBlock.strip
  rw [head?_map, Option.any_map, ← map_tail, any_map]
  simp only [Function.comp_def, isCoinBase_strip]

/-- Up to the transactions, the checks read only what is committed to. -/
theorem checkCommitted_eq_ok_iff (params : ConsensusParams) (fCheckPOW fCheckMerkleRoot : Bool)
    (block : CBlock) :
    checkCommitted params fCheckPOW fCheckMerkleRoot block = .ok () ↔
      (checkBlockHeader params fCheckPOW block.toCBlockHeader = .ok () ∧
        checkSignet params fCheckPOW block = .ok () ∧
        checkMerkleRoot params fCheckMerkleRoot block = .ok () ∧ checkSizeLimits block = .ok () ∧
        checkCoinbase block = .ok ()) ∧ ∀ tx ∈ block.vtx, checkTransaction tx = .ok () := by
  unfold checkCommitted
  simp only [seq_eq_ok_iff, forM_eq_ok_iff, checkBlockTx_eq_ok_iff, and_assoc]

/-- A block whose committed data passes the first checks passes them itself. -/
theorem checkCommitted_of_strip (h :
    checkCommitted params fCheckPOW fCheckMerkleRoot block.strip = .ok ()) :
    checkCommitted params fCheckPOW fCheckMerkleRoot block = .ok () := by
  rw [checkCommitted_eq_ok_iff, checkSignet_strip, checkMerkleRoot_strip, checkSizeLimits_strip,
    checkCoinbase_strip] at h
  refine (checkCommitted_eq_ok_iff ..).mpr ⟨h.1, fun tx htx => ?_⟩
  exact checkTransaction_of_strip (h.2 tx.strip (mem_map_of_mem htx))

/-- Without attached Mimblewimble transactions the first checks read only committed data. -/
theorem checkCommitted_strip (hmweb : ∀ tx ∈ block.vtx, tx.hasMWEBTx = false)
    (h : checkCommitted params fCheckPOW fCheckMerkleRoot block = .ok ()) :
    checkCommitted params fCheckPOW fCheckMerkleRoot block.strip = .ok () := by
  rw [checkCommitted_eq_ok_iff] at h ⊢
  rw [checkSignet_strip, checkMerkleRoot_strip, checkSizeLimits_strip, checkCoinbase_strip]
  refine ⟨h.1, forall_mem_map.mpr fun tx' htx' => ?_⟩
  rw [checkTransaction_strip]
  · exact h.2 tx' htx'
  · rw [isMWEBOnly, hmweb tx' htx', Bool.false_and, Bool.false_and]

/-- What a block that is accepted has passed. -/
theorem checkBlock_eq_ok {block' : CBlock} (hfresh : block.fChecked = false)
    (h : checkBlock params fCheckPOW fCheckMerkleRoot block = .ok block') :
    checkCommitted params fCheckPOW fCheckMerkleRoot block = .ok () ∧ checkSigOps block = .ok () ∧
      ∀ tx ∈ block.vtx, tx.hasMWEBTx = false := by
  unfold checkBlock at h
  rw [hfresh, if_neg (by decide), seq_eq_ok_iff, seq_eq_ok_iff, seq_eq_ok_iff] at h
  refine ⟨h.1, h.2.1, fun tx htx => ?_⟩
  have hany := reject_eq_ok_iff.mp h.2.2.1
  simpa using any_eq_false.mp hany tx htx

/-- The signature operations of the committed scripts and of the attached pegouts, in 32 bits, are
within the limit. -/
def SigOpsWithinLimit (block : CBlock) : Prop :=
  (sumUInt32 (block.vtx.map fun tx => scriptSigOps tx + pegoutSigOps tx) * 4).toNat ≤ 80000

/-- Data that is not committed to by the block hash makes `CheckBlock` condemn a block whose
committed data is fine if and only if attached pegouts bring the signature operations over the
limit. -/
theorem checkBlock_uncommitted_iff {params : ConsensusParams} {fCheckPOW fCheckMerkleRoot : Bool}
    {b1 b2 b1' : CBlock} (hheader : b1.toCBlockHeader = b2.toCBlockHeader)
    (hids : (b1.vtx.map (·.hash)) = b2.vtx.map (·.hash))
    (hfree : ∀ tx ∈ b1.vtx, ∀ tx' ∈ b2.vtx, tx.hash = tx'.hash → tx.strip = tx'.strip)
    (hfresh1 : b1.fChecked = false) (hfresh2 : b2.fChecked = false)
    (hok : checkBlock params fCheckPOW fCheckMerkleRoot b1 = .ok b1') :
    MutatedOnly (checkBlock params fCheckPOW fCheckMerkleRoot b2) ↔ SigOpsWithinLimit b2 := by
  obtain ⟨hcommitted, -, hmweb⟩ := checkBlock_eq_ok hfresh1 hok
  -- The two blocks are the same up to what is not committed to.
  have hstrip : b1.strip = b2.strip := by
    have hvtx := strip_eq_of_ids hids hfree
    unfold CBlock.strip
    rw [hheader, hvtx]
  have hcommitted2 : checkCommitted params fCheckPOW fCheckMerkleRoot b2 = .ok () := by
    apply checkCommitted_of_strip
    rw [← hstrip]
    exact checkCommitted_strip hmweb hcommitted
  unfold checkBlock
  rw [hfresh2, if_neg (by decide), hcommitted2, ok_bind]
  have hcond : checkSigOps b2 = .ok () ↔ SigOpsWithinLimit b2 := by
    unfold checkSigOps SigOpsWithinLimit
    rw [reject_eq_ok_iff, decide_eq_false_iff_not, not_lt]
    rfl
  rw [← hcond]
  constructor
  · intro h
    rcases hsig : checkSigOps b2 with e | u
    · -- The only error of this check is a consensus error.
      rw [hsig] at h
      have he : e.result = .mutated := h
      unfold checkSigOps reject at hsig
      dsimp only at hsig
      split_ifs at hsig
      rw [Except.error.injEq] at hsig
      rw [← hsig] at he
      exact absurd he (by decide)
    · rfl
  · intro h
    rw [h, ok_bind]
    exact Ensures.bind (.reject fun _ => rfl) fun _ _ => trivial

/-! ## A block with pegouts attached -/

/-- Parameters under which every header has proof of work. -/
def sampleParams : ConsensusParams where
  BIP34Height := 1
  CSVHeight := 1
  SegwitHeight := 1
  hash64 a b := a + b
  checkProofOfWork _ := true
  signet_blocks := false
  checkSignetBlockSolution _ _ _ := true

/-- A kernel with a pegin or pegouts. -/
def sampleKernel (features : UInt8) (pegin : Option Int) (pegouts : List Mweb.PegOutCoin)
    (hash : Mweb.Hash) : Mweb.Kernel :=
  ⟨features, none, pegin, pegouts, none, none, [], Bytes.zero 33, Bytes.zero 64, hash⟩

/-- A Mimblewimble transaction with one pegout to a script. -/
def pegoutTx (scriptPubKey : CScript) : Mweb.Transaction :=
  ⟨Bytes.zero 32, Bytes.zero 32, [], [], [sampleKernel 0 none [⟨1, scriptPubKey⟩] 1]⟩

/-- A block of a coinbase, with what may be attached to it. -/
def coinbaseBlock (mweb_tx : Option Mweb.Transaction) : CBlock where
  nVersion := 1
  hashPrevBlock := 0
  hashMerkleRoot := 6
  nTime := 0
  nBits := 0
  nNonce := 0
  vtx := [⟨[⟨⟨0, nullIndex⟩, [1, 1], 0, []⟩], [⟨50, []⟩], 1, 0, mweb_tx, false, 6, 6⟩]
  fChecked := false
  mweb_block := none

theorem checkBlock_coinbaseBlock : checkBlock sampleParams true true (coinbaseBlock none) =
    .ok { coinbaseBlock none with fChecked := true } := by
  decide +kernel

/-- A pegout with one signature operation is attached to the coinbase. -/
theorem checkBlock_uncommitted_iff_sample : MutatedOnly
    (checkBlock sampleParams true true (coinbaseBlock (some (pegoutTx [opCheckSig])))) := by
  have hheader : (coinbaseBlock none).toCBlockHeader =
      (coinbaseBlock (some (pegoutTx [opCheckSig]))).toCBlockHeader := rfl
  rw [checkBlock_uncommitted_iff hheader rfl (fun tx htx tx' htx' _ => ?_) rfl rfl
    checkBlock_coinbaseBlock]
  · unfold SigOpsWithinLimit
    decide +kernel
  · rw [mem_singleton.mp htx, mem_singleton.mp htx']
    rfl

/-- A pegout with many signature operations that is attached to the coinbase gets the block
condemned, though its committed data is fine. -/
theorem checkBlock_condemns_attached :
    checkBlock sampleParams true true (coinbaseBlock none) =
      .ok { coinbaseBlock none with fChecked := true } ∧
    checkBlock sampleParams true true
        (coinbaseBlock (some (pegoutTx (List.replicate 1001 opCheckMultiSig)))) =
      .error ⟨.consensus, "bad-blk-sigops", "out-of-bounds SigOpCount"⟩ := by
  decide +kernel

end DefcoinCore
