import DefcoinCore.Mweb.Validate
import DefcoinCore.Validation.CheckBlock

/-!
# Extension blocks in blocks

`MWEB::Node::ContextualCheckBlock`. The last transaction of a block, the HogEx, commits to the
header of the extension block, takes in all pegins of the block and pays out all pegouts. That a
transaction is the HogEx is said by a marker which no hash commits to, so a wrong marker is to be
reported as mutated data. The check that no marked transaction has a pegin comes first, though, and
fails with a consensus error.
-/

namespace DefcoinCore

open CTransaction List

deriving instance Inhabited for COutPoint, CTxIn, CTransaction

/-- What the checks of a block read of the index of its parent. The genesis block has no parent; its
height is zero, so the parent's counts as one less. -/
structure PrevIndex where
  nHeight : Int
  getMedianTimePast : Int
  /-- `IsMWEBEnabled` of the parent: for the block that is checked. -/
  isMWEBEnabled : Bool
  /-- `IsMWEBEnabled` of the parent's parent: for the parent. -/
  isMWEBEnabledBefore : Bool
  /-- The id of the parent's HogEx. -/
  hogex_hash : Uint256
  /-- The coins in the extension block after the parent. -/
  mweb_amount : Int

/-- The transaction has a pegin output. -/
def CTransaction.hasPegin (tx : CTransaction) : Bool :=
  tx.vout.any fun out => (isMWEBPegin out.scriptPubKey).isSome

/-- The pegin outputs of a transaction, by its id and their places. -/
def CTransaction.pegins (tx : CTransaction) : List (Uint256 × Nat) :=
  (tx.vout.zipIdx.filter fun out => (isMWEBPegin out.1.scriptPubKey).isSome).map fun out =>
    (tx.hash, out.2)

/-- The transactions but the coinbase and the HogEx. -/
def CBlock.middleTxs (block : CBlock) : List CTransaction := block.vtx.tail.dropLast

/-- The last transaction. -/
def CBlock.lastTx (block : CBlock) : CTransaction := block.vtx.getLastD default

namespace Mweb.Node

variable (block : CBlock)

/-- The check of a block for which extension blocks are not active. -/
def checkInactive : Except BlockInvalid Unit := do
  reject block.mweb_block.isSome
    (blockMutated "unexpected-mweb-data" "MWEB not activated, but extension block found")
  reject (block.vtx.any (·.m_hogEx))
    (blockMutated "unexpected-mweb-data" "MWEB not activated, but HogEx marker found")

/-- The check that the coinbase and marked transactions have no pegin outputs. -/
def checkUnexpectedPegins : Except BlockInvalid Unit :=
  reject (block.vtx.any fun tx => (tx.isCoinBase || tx.m_hogEx) && tx.hasPegin)
    (blockConsensus "bad-tx-unexpected-pegin" "Pegin found in coinbase or HogEx")

/-- The checks that the last transaction is marked, and no other. -/
def checkMarkers : Except BlockInvalid Unit := do
  reject (!block.lastTx.m_hogEx) (blockMutated "hogex-missing" "hogex missing")
  reject (block.vtx.dropLast.any (·.m_hogEx))
    (blockMutated "bad-hogex-position" "hogex in wrong position")

/-- The check of the first output of the HogEx, which holds the hash of the header. The source
asserts that there is an output: `CheckTransaction` has seen to it. -/
def checkHogAddr (mweb_block : Mweb.Block) : Except BlockInvalid Unit :=
  match isMWEBHogAddr (block.lastTx.vout.headD CTxOut.null).scriptPubKey with
  | none => .error (blockConsensus "bad-hogex" "HogEx missing or invalid")
  | some mweb_hash =>
    reject (mweb_hash ≠ mweb_block.header.hash)
      (blockMutated "mweb-hash-mismatch" "MWEB header hash doesn't match hogex hash")

/-- The check of the height of the extension block. -/
def checkHeight (prev : PrevIndex) (mweb_block : Mweb.Block) : Except BlockInvalid Unit :=
  reject (mweb_block.header.height ≠ prev.nHeight + 1)
    (blockConsensus "mweb-height-mismatch" "Invalid MWEB block height")

/-- One round of the loop over pegins: the next input of the HogEx spends the pegin. -/
def checkPegin (inputs : List COutPoint) (next_pegin_idx : Nat) (pegin : Uint256 × Nat) :
    Except BlockInvalid Nat :=
  match inputs[next_pegin_idx]? with
  | none => .error (blockConsensus "pegins-missing" "Pegins missing from HogEx")
  | some hogex_input =>
    if hogex_input.n.toNat ≠ pegin.2 ∨ hogex_input.hash ≠ pegin.1 then
      .error (blockConsensus "pegin-mismatch" "HogEx pegins do not match block's pegins")
    else .ok (next_pegin_idx + 1)

/-- The check that the inputs of the HogEx, but the one that spends the HogEx before it, are the
pegins of the block. -/
def checkPegins (prev : PrevIndex) (block : CBlock) : Except BlockInvalid Unit := do
  let inputs := block.lastTx.vin.map (·.prevout)
  let next_pegin_idx ← (block.middleTxs.flatMap CTransaction.pegins).foldlM (checkPegin inputs)
    (if !prev.isMWEBEnabledBefore then 0 else 1)
  reject (next_pegin_idx ≠ inputs.length)
    (blockConsensus "extra-hogex-input" "HogEx contains unexpected input(s)")

/-- The pegin coins of a transaction. -/
def peginCoins (tx : CTransaction) : List PegInCoin :=
  tx.vout.filterMap fun out => (isMWEBPegin out.scriptPubKey).map fun kernel_id =>
    ⟨out.nValue, kernel_id⟩

/-- `MWEB::Node::ValidateMWEBBlock`. -/
def validateMWEBBlock (crypto : Crypto) (block : CBlock) (mweb_block : Mweb.Block) : Bool :=
  validateBlock crypto mweb_block (block.middleTxs.flatMap peginCoins)
    (block.lastTx.vout.tail.map fun out => ⟨out.nValue, out.scriptPubKey⟩)

/-- The checks of a block with an extension block. -/
def checkActive (crypto : Crypto) (prev : PrevIndex) (block : CBlock) (mweb_block : Mweb.Block) :
    Except BlockInvalid Unit := do
  checkUnexpectedPegins block
  checkMarkers block
  checkHogAddr block mweb_block
  checkHeight prev mweb_block
  checkPegins prev block
  reject (!validateMWEBBlock crypto block mweb_block)
    (blockMutated "bad-blk-mweb" "BlockValidator::ValidateBlock failed")

/-- `MWEB::Node::ContextualCheckBlock`. -/
def contextualCheckBlock (crypto : Crypto) (prev : PrevIndex) (block : CBlock) :
    Except BlockInvalid Unit :=
  if !prev.isMWEBEnabled then checkInactive block
  else
    match block.mweb_block with
    | none => .error (blockMutated "mweb-missing" "MWEB activated but extension block not found")
    | some mweb_block => checkActive crypto prev block mweb_block

/-! ## What the checks read -/

/-- A pegin is found in what is committed to. -/
@[simp]
theorem hasPegin_strip (tx : CTransaction) : tx.strip.hasPegin = tx.hasPegin := rfl

section SameStrip

variable {block block' : CBlock}
  (hstrip : block.vtx.map CTransaction.strip = block'.vtx.map CTransaction.strip)

include hstrip

theorem strip_lastTx_eq : block.lastTx.strip = block'.lastTx.strip := by
  have h := congrArg (fun l => l.getLastD (default : CTransaction).strip) hstrip
  have hmap : ∀ vtx : List CTransaction, (vtx.map strip).getLastD
      (default : CTransaction).strip = (vtx.getLastD default).strip := by
    intro vtx
    rw [getLastD_eq_getLast?, getLastD_eq_getLast?, getLast?_map]
    cases vtx.getLast? <;> rfl
  rw [hmap, hmap] at h
  exact h

theorem strip_middleTxs_eq : block.middleTxs.map strip = block'.middleTxs.map strip := by
  unfold CBlock.middleTxs
  rw [map_dropLast, map_tail, hstrip, map_dropLast, map_tail]

theorem vout_lastTx_eq : block.lastTx.vout = block'.lastTx.vout := by
  have h := strip_lastTx_eq hstrip
  rw [← vout_strip, h, vout_strip]

theorem prevouts_lastTx_eq : (block.lastTx.vin.map (·.prevout)) =
    block'.lastTx.vin.map (·.prevout) := by
  have h := strip_lastTx_eq hstrip
  rw [← prevouts_strip, h, prevouts_strip]

/-- What is found transaction by transaction in committed data is the same in the middle of blocks
that commit to the same data. -/
theorem flatMap_middleTxs_eq {β : Type} {f : CTransaction → List β} (hf : ∀ tx, f tx.strip = f tx) :
    block.middleTxs.flatMap f = block'.middleTxs.flatMap f := by
  have h := congrArg (flatMap f) (strip_middleTxs_eq hstrip)
  rw [flatMap_map, flatMap_map] at h
  simp only [hf] at h
  exact h

theorem checkPegins_eq (prev : PrevIndex) : checkPegins prev block = checkPegins prev block' := by
  unfold checkPegins
  rw [prevouts_lastTx_eq hstrip, flatMap_middleTxs_eq hstrip fun _ => rfl]

theorem coinbase_pegins_eq : (block.vtx.any fun tx => tx.isCoinBase && tx.hasPegin) =
    block'.vtx.any fun tx => tx.isCoinBase && tx.hasPegin := by
  have h := congrArg (any · fun tx => tx.isCoinBase && tx.hasPegin) hstrip
  simpa only [any_map, Function.comp_def, isCoinBase_strip, hasPegin_strip] using h

end SameStrip

/-- A check for mutated data. -/
theorem reject_mutated (cond : Bool) (reject_reason debug_message : String) :
    Ensures (reject cond (blockMutated reject_reason debug_message)) (fun _ => cond = false)
      fun e => e.result = .mutated := .reject fun _ => rfl

/-- What an accepted block with an extension block has passed. -/
structure Active (crypto : Crypto) (prev : PrevIndex) (block : CBlock) (mweb_block : Mweb.Block) :
    Prop where
  unexpectedPegins : (block.vtx.any fun tx => (tx.isCoinBase || tx.m_hogEx) && tx.hasPegin) = false
  markers : checkMarkers block = .ok ()
  hogAddr : isMWEBHogAddr (block.lastTx.vout.headD CTxOut.null).scriptPubKey =
    some mweb_block.header.hash
  height : mweb_block.header.height = prev.nHeight + 1
  pegins : checkPegins prev block = .ok ()
  valid : validateMWEBBlock crypto block mweb_block

theorem active_of_checkActive {crypto : Crypto} {prev : PrevIndex} {block : CBlock}
    {mweb_block : Mweb.Block} (h : checkActive crypto prev block mweb_block = .ok ()) :
    Active crypto prev block mweb_block := by
  unfold checkActive checkUnexpectedPegins checkHeight at h
  simp only [seq_eq_ok_iff, reject_eq_ok_iff] at h
  obtain ⟨hunexpected, hmarkers, haddr, hheight, hpegins, hvalid⟩ := h
  refine ⟨hunexpected, hmarkers, ?_, by simpa using hheight, hpegins, by simpa using hvalid⟩
  unfold checkHogAddr at haddr
  rcases hhash : isMWEBHogAddr (block.lastTx.vout.headD CTxOut.null).scriptPubKey with _ | mweb_hash
  · rw [hhash] at haddr
    cases haddr
  · rw [hhash] at haddr
    have heq := reject_eq_ok_iff.mp haddr
    rw [decide_eq_false_iff_not, not_not] at heq
    rw [heq]

/-- The header of the extension block is the one of a block that was accepted, and no marked
transaction has a pegin: then the extension block is accepted or reported as mutated data. -/
theorem checkActive_mutated {crypto : Crypto} {prev : PrevIndex} {b1 b2 : CBlock}
    {m1 m2 : Mweb.Block} (hactive : Active crypto prev b1 m1)
    (hstrip : b1.vtx.map strip = b2.vtx.map strip)
    (hheader : m1.header.hash = m2.header.hash → m1.header = m2.header)
    (hmarked : ∀ tx ∈ b2.vtx, tx.m_hogEx → tx.hasPegin = false) :
    MutatedOnly (checkActive crypto prev b2 m2) := by
  have hunexpected : checkUnexpectedPegins b2 = .ok () := by
    have hcoinbase : (b1.vtx.any fun tx => tx.isCoinBase && tx.hasPegin) = false := by
      rw [any_eq_false]
      intro tx htx h
      rw [Bool.and_eq_true] at h
      have hnot := any_eq_false.mp hactive.unexpectedPegins tx htx
      exact hnot (by rw [h.1, h.2, Bool.true_or, Bool.and_true])
    rw [coinbase_pegins_eq hstrip] at hcoinbase
    unfold checkUnexpectedPegins
    rw [reject_eq_ok_iff, any_eq_false]
    intro tx htx h
    rw [Bool.and_eq_true, Bool.or_eq_true] at h
    rcases h with ⟨hcb | hmark, hpegin⟩
    · exact any_eq_false.mp hcoinbase tx htx (by rw [hcb, hpegin, Bool.and_true])
    · rw [hmarked tx htx hmark] at hpegin
      exact absurd hpegin (by decide)
  unfold checkActive
  rw [hunexpected, ok_bind]
  have hmarkers : MutatedOnly (checkMarkers b2) :=
    (reject_mutated ..).bind fun _ _ => (reject_mutated ..).forget
  refine hmarkers.bind fun _ _ => ?_
  -- The HogEx of both blocks commits to the same header.
  have haddr : Ensures (checkHogAddr b2 m2) (fun _ => m1.header = m2.header)
      fun e => e.result = .mutated := by
    unfold checkHogAddr
    rw [← vout_lastTx_eq hstrip, hactive.hogAddr]
    refine (reject_mutated ..).imp fun _ h => hheader ?_
    rw [decide_eq_false_iff_not, not_not] at h
    exact h
  refine haddr.bind fun _ hheader' => ?_
  have hheight : checkHeight prev m2 = .ok () := by
    unfold checkHeight
    rw [reject_eq_ok_iff, ← hheader', hactive.height]
    simp
  rw [hheight, ok_bind, ← checkPegins_eq hstrip, hactive.pegins, ok_bind]
  exact (reject_mutated ..).forget

end Mweb.Node

end DefcoinCore
