import DefcoinCore.Mweb.CoinsView
import DefcoinCore.Validation.ConnectBlock
import DefcoinCore.Validation.ContextualCheckBlock

/-!
# Connecting extension blocks

`MWEB::Node::ConnectBlock`: the amounts of the HogEx are checked against the extension block, and
the block is applied to the view. What is checked before the view is touched reads the transactions
and the amounts of the kernels. The rest of the body is checked against the roots in the header, and
a mismatch is reported as mutated data.
-/

namespace DefcoinCore.Mweb

open List

/-! ## The code -/

namespace Node

/-- The consensus parameters that extension blocks are connected with. -/
structure MwebParams where
  frozen_mweb_output_ids : List Uint256
  mweb_input_metadata_grandfather_blockhash : Uint256

/-- A failed check of `ConnectBlock`. -/
def connectInvalid (reject_reason debug_message : String) : BlockFault :=
  .invalid (blockConsensus reject_reason debug_message)

variable (prev : PrevIndex) (block : CBlock)

/-- The check that the first input of the HogEx spends the HogEx of the parent, if that has one. A
HogEx has an input: `CheckTransaction` has seen to it. -/
def checkHogExInput : Except BlockFault Unit :=
  let prev_hogex_out := (block.lastTx.vin.map (·.prevout)).headD default
  reject (prev.isMWEBEnabledBefore &&
    (prev_hogex_out.n ≠ 0 || prev.hogex_hash ≠ prev_hogex_out.hash))
    (connectInvalid "invalid-hogex-input" "First input of HogEx does not point to previous HogEx")

/-- One round of the loop that adds up pegins. -/
def addPegin (hogex_input_amount : Int) (output : CTxOut) : Except BlockFault Int :=
  if (isMWEBPegin output.scriptPubKey).isNone then .ok hogex_input_amount
  else do
    let hogex_input_amount ← toAmount (hogex_input_amount + output.nValue)
    reject (!moneyRange hogex_input_amount) (connectInvalid "accumulated-pegin-outofrange"
      "Accumulated pegin amount for the block is out of range")
    pure hogex_input_amount

/-- The value of the inputs of the HogEx. -/
def hogexInputAmount : Except BlockFault Int :=
  (block.middleTxs.flatMap (·.vout)).foldlM addPegin prev.mweb_amount

/-- The fee and the supply change of an extension block. -/
def mwebAmounts (body : TxBody) : Except BlockFault (Int × Int) :=
  match body.getTotalFee, body.getSupplyChange with
  | some mweb_fee, some supply_change => .ok (mweb_fee, supply_change)
  | _, _ => .error (connectInvalid "bad-mweb-amount" "Invalid MWEB amount accounting")

/-- The amount of coins in the extension block after a change. -/
def nextMwebAmount (mweb_amount supply_change : Int) : Except BlockFault Int :=
  match trySafeAdd mweb_amount supply_change with
  | some mweb_amount => .ok mweb_amount
  | none => .error (connectInvalid "bad-mweb-amount" "Invalid MWEB supply change")

/-- The checks of the amounts of the HogEx. -/
def checkAmounts (body : TxBody) : Except BlockFault Unit := do
  let hogex_input_amount ← hogexInputAmount prev block
  let (mweb_fee, supply_change) ← mwebAmounts body
  let value_out ← block.lastTx.getValueOut
  let hogex_fee ← toAmount (hogex_input_amount - value_out)
  reject (!moneyRange hogex_fee || hogex_fee ≠ mweb_fee)
    (connectInvalid "bad-txns-mweb-fee-mismatch" "HogEx fee does not match MWEB fee.")
  let mweb_amount ← nextMwebAmount prev.mweb_amount supply_change
  reject (!moneyRange mweb_amount || mweb_amount ≠ (block.lastTx.vout.headD CTxOut.null).nValue)
    (connectInvalid "mweb-amount-mismatch" "HogEx amount does not match expected MWEB amount")

/-- The checks before the view is touched. -/
def checkHogEx (body : TxBody) : Except BlockFault Unit := do
  checkHogExInput prev block
  checkAmounts prev block body

variable (params : MwebParams)

/-- The metadata of the inputs is not checked in one block of the past. -/
def allowMismatch (hash : Uint256) : Bool :=
  params.mweb_input_metadata_grandfather_blockhash ≠ 0 &&
    hash = params.mweb_input_metadata_grandfather_blockhash

/-- The input spends a frozen output. -/
def spendsFrozen (input : Input) : Bool :=
  params.frozen_mweb_output_ids.any fun frozen_output_id => input.outputID = frozen_output_id

/-- The check that no frozen output was spent. The view has changed already. -/
def checkFrozen (body : TxBody) : Except BlockFault Unit :=
  match body.inputs.find? (spendsFrozen params) with
  | some input => .error (connectInvalid "frozen-mweb-output-spent"
      ("MWEB::Node::ConnectBlock(): Frozen MWEB output spent: " ++ input.outputID.toHex))
  | none => .ok ()

/-- `MWEB::Node::ConnectBlock` for a block with an extension block and a given hash: the undo data,
and the view afterwards. -/
def connectExtension (crypto : NodeCrypto) (hash : Uint256) (prev : PrevIndex)
    (block : CBlock) (mweb_block : Block) (view : CoinsView) :
    Except BlockFault (Option BlockUndo) × CoinsView :=
  match checkHogEx prev block mweb_block.body with
  | .error e => (.error e, view)
  | .ok _ =>
    match view.applyBlock crypto (allowMismatch params hash) mweb_block with
    | .error what => (.error (.invalid (blockMutated "mweb-connect-failed"
        ("MWEB::Node::ConnectBlock(): Failed to connect MWEB block: " ++ what))), view)
    | .ok (undo, view') => ((checkFrozen params mweb_block.body).map fun _ => some undo, view')

/-- `MWEB::Node::ConnectBlock`. -/
def connectBlock (crypto : NodeCrypto) (hash : Uint256) (prev : PrevIndex)
    (block : CBlock) (view : CoinsView) : Except BlockFault (Option BlockUndo) × CoinsView :=
  match block.mweb_block with
  | none => (.ok none, view)
  | some mweb_block => connectExtension params crypto hash prev block mweb_block view

end Node

/-! ## What a header determines -/

/-- Leaf sets of the same size with the same hashed bytes have the same leaves. -/
theorem LeafSet.contains_eq_of_rootBytes {s s' : LeafSet} (hnext : s.nextLeafIdx = s'.nextLeafIdx)
    (h : s.rootBytes = s'.rootBytes) {i : Nat} (hi : i < s.nextLeafIdx) :
    s.contains i = s'.contains i := by
  unfold rootBytes at h
  rw [← hnext] at h
  have hbyte : s.getByte (i / 8) = s'.getByte (i / 8) :=
    map_inj_left.mp h (i / 8) (mem_range.mpr (by omega))
  unfold contains Bitmap.test
  rw [hbyte]

namespace CoinsView

theorem matchesHeader_iff {view : CoinsView} {crypto : NodeCrypto} {header : Header} :
    view.matchesHeader crypto header ↔ header.outputRoot = outputRoot crypto view.outputPMMR ∧
      header.outputMMRSize = view.outputPMMR.length ∧
        header.leafsetRoot = view.leafSet.root crypto := by
  unfold matchesHeader
  rw [Bool.and_eq_true, Bool.and_eq_true, decide_eq_true_eq, decide_eq_true_eq, decide_eq_true_eq,
    and_assoc]

end CoinsView

/-! ## Blocks that passed the checks -/

namespace Node

variable {prev : PrevIndex} {crypto : Crypto} {block : CBlock}

/-- What is known of a block with an extension block that passed `MWEB::Node::ContextualCheckBlock`.
-/
theorem active_of_nodeCheck {mweb_block : Block}
    (h : Node.contextualCheckBlock crypto prev block = .ok ())
    (hmweb : block.mweb_block = some mweb_block) : Active crypto prev block mweb_block := by
  unfold Node.contextualCheckBlock at h
  split_ifs at h with henabled
  · unfold checkInactive at h
    rw [seq_eq_ok_iff, reject_eq_ok_iff, hmweb] at h
    cases h.1
  · rw [hmweb] at h
    exact active_of_checkActive h

/-- A block has an extension block if these are active, and no other passes. -/
theorem isSome_mweb_block_eq (h : Node.contextualCheckBlock crypto prev block = .ok ()) :
    block.mweb_block.isSome = prev.isMWEBEnabled := by
  unfold Node.contextualCheckBlock at h
  rcases henabled : prev.isMWEBEnabled with _ | _
  · rw [henabled, Bool.not_false, if_pos rfl] at h
    exact reject_eq_ok_iff.mp (seq_eq_ok_iff.mp h).1
  · rw [henabled, Bool.not_true, if_neg Bool.false_ne_true] at h
    rcases hmweb : block.mweb_block with _ | mweb_block
    · rw [hmweb] at h
      cases h
    · rfl

/-- An extension block that is connected passed all checks, and was applied to the view. -/
theorem connectExtension_eq_ok {params : MwebParams} {crypto : NodeCrypto} {hash : Uint256}
    {mweb_block : Block} {view view' : CoinsView} {undo : Option BlockUndo}
    (h : connectExtension params crypto hash prev block mweb_block view = (.ok undo, view')) :
    checkHogEx prev block mweb_block.body = .ok () ∧ checkFrozen params mweb_block.body = .ok () ∧
      ∃ undo', undo = some undo' ∧
        view.applyBlock crypto (allowMismatch params hash) mweb_block = .ok (undo', view') := by
  unfold connectExtension at h
  rcases hhogex : checkHogEx prev block mweb_block.body with e | u <;> rw [hhogex] at h
  · cases (Prod.mk.inj h).1
  rcases happly : view.applyBlock crypto (allowMismatch params hash) mweb_block
    with what | ⟨undo', view''⟩ <;> rw [happly] at h
  · cases (Prod.mk.inj h).1
  obtain ⟨hundo, rfl⟩ := Prod.mk.inj h
  rcases hfrozen : checkFrozen params mweb_block.body with e | u <;> rw [hfrozen] at hundo
  · cases hundo
  · exact ⟨rfl, rfl, undo', (Except.ok.inj hundo).symm, rfl⟩

/-- A node for the block with a pegin. -/
def peginCrypto : NodeCrypto where
  toCrypto := sampleCrypto
  hashOutputNode
    | .leaf _ output_id => output_id
    | .parent _ left right => left + right
  hashBytes bytes := BitVec.ofNat 256 bytes.length
  addBlindingFactors _ _ := .ok .zero
  validateSums _ _ _ _ _ := .ok ()

/-- No output is frozen, and no block of the past is let through. -/
def openParams : MwebParams := ⟨[], 0⟩

end Node

end DefcoinCore.Mweb
