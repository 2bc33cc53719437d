import DefcoinCore.Lib.Containers
import DefcoinCore.Lib.Mmr
import DefcoinCore.Mweb.Kernel
import DefcoinCore.Primitives.Transaction

/-!
# Checks of an extension block alone

The amounts of kernels and bodies, the weight of a body, and the checks of `TxBody::Validate`,
`mw::Block::Validate` and `BlockValidator`. Exceptions become errors. The elliptic curve is not
modelled: `Crypto` has the outcomes of its checks, as functions of the data that they read, and the
functions that hash the nodes of the mountain range of kernels.

The header commits to the bytes that are written for the kernels: it has their number and the root
of their range (`serialize_kernels_eq`). It does not commit to the inputs and outputs alone, but
they have to be sorted and without duplicates.
-/

namespace DefcoinCore.Mweb

/-! ## Amounts -/

/-- `AmountUtil::IsValidAmountRange`. -/
def isValidAmountRange (amount : Int) : Bool := -maxMoney ≤ amount ∧ amount ≤ maxMoney

/-- A sum or a difference of amounts, if it fits into a `CAmount`. -/
def int64 (value : Int) : Option Int := if -2 ^ 63 ≤ value ∧
    value < 2 ^ 63 then some value else none

/-- `AmountUtil::TrySafeAdd`. -/
def trySafeAdd (lhs rhs : Int) : Option Int := int64 (lhs + rhs)

/-- `AmountUtil::TrySafeSubtract`. -/
def trySafeSubtract (lhs rhs : Int) : Option Int := int64 (lhs - rhs)

/-- One round of a sum of amounts of money. -/
def addMoney (total amount : Int) : Option Int := do
  if !moneyRange amount then none
  let next_total ← trySafeAdd total amount
  if moneyRange next_total then some next_total else none

variable (kernel : Kernel)

/-- `Kernel::GetPegOutAmount`. -/
def Kernel.getPegOutAmount : Option Int :=
  kernel.pegouts.foldlM (fun total pegout => addMoney total pegout.amount) 0

/-- `Kernel::GetSupplyChange`. -/
def Kernel.getSupplyChange : Option Int := do
  let pegout_amount ← kernel.getPegOutAmount
  if !moneyRange kernel.getPegIn || !moneyRange kernel.getFee then none
  let supply_after_fee ← trySafeSubtract kernel.getPegIn kernel.getFee
  let supply_change ← trySafeSubtract supply_after_fee pegout_amount
  if isValidAmountRange supply_change then some supply_change else none

/-- `TxBody::GetPegInAmount`. -/
def TxBody.getPegInAmount (body : TxBody) : Option Int :=
  body.kernels.foldlM (fun total kernel => addMoney total kernel.getPegIn) 0

/-- `TxBody::GetTotalFee`. -/
def TxBody.getTotalFee (body : TxBody) : Option Int :=
  body.kernels.foldlM (fun total kernel => addMoney total kernel.getFee) 0

/-- One round of `TxBody::GetSupplyChange`. -/
def addSupplyChange (total : Int) (kernel : Kernel) : Option Int := do
  let supply_change ← kernel.getSupplyChange
  let next_total ← trySafeAdd total supply_change
  if isValidAmountRange next_total then some next_total else none

/-- `TxBody::GetSupplyChange`. -/
def TxBody.getSupplyChange (body : TxBody) : Option Int := body.kernels.foldlM addSupplyChange 0

/-- `Kernel::GetLockHeight`. -/
def Kernel.getLockHeight : Int := kernel.lockHeight.getD 0

/-- `TxBody::GetLockHeight`. -/
def TxBody.getLockHeight (body : TxBody) : Int :=
  body.kernels.foldl (fun lock_height kernel => max lock_height kernel.getLockHeight) 0

/-! ## Weight -/

/-- `Weight::ExtraBytesToWeight`, with `BYTES_PER_WEIGHT`. -/
def extraBytesToWeight (extra_bytes : Nat) : Nat := (extra_bytes + (42 - 1)) / 42

/-- `Weight::CalcInputWeight`. -/
def calcInputWeight (input : Input) : Nat := extraBytesToWeight input.extraData.length

/-- `Weight::CalcKernelWeight`, with `KERNEL_WITH_STEALTH_WEIGHT` and `BASE_KERNEL_WEIGHT`. -/
def calcKernelWeight : Nat :=
  (if kernel.stealthExcess.isSome then 3 else 2) +
    (kernel.pegouts.map fun pegout => extraBytesToWeight pegout.scriptPubKey.length).sum +
    extraBytesToWeight kernel.extraData.length

/-- `Weight::CalcOutputWeight`, with `STANDARD_OUTPUT_WEIGHT` and `BASE_OUTPUT_WEIGHT`. -/
def calcOutputWeight (output : Output) : Nat :=
  (if output.message.features &&& 0x01 ≠ 0 then 18 else 17) +
    extraBytesToWeight output.message.extraData.length

/-- `Weight::Calculate`. -/
def TxBody.weight (body : TxBody) : Nat :=
  (body.inputs.map calcInputWeight).sum + (body.kernels.map calcKernelWeight).sum +
    (body.outputs.map calcOutputWeight).sum

/-- `Weight::ExceedsMaximum`, with `MAX_NUM_INPUTS` and `MAX_BLOCK_WEIGHT`. -/
def TxBody.exceedsMaximum (body : TxBody) : Bool :=
  body.inputs.length > 50000 || body.weight > 200000

/-! ## Order -/

/-- `std::is_sorted`: no item comes before the one to its left. -/
def isSorted {α : Type} (comp : α → α → Bool) (l : List α) : Bool :=
  decide (l.IsChain fun a b => comp b a = false)

/-- `InputSort`. -/
def inputSort (a b : Input) : Bool := a.outputID < b.outputID

/-- `OutputSort`. -/
def outputSort (a b : Output) : Bool := a.hash < b.hash

/-- `KernelSort`: the highest supply change first, and kernels without one last. -/
def kernelSort (a b : Kernel) : Bool :=
  match a.getSupplyChange, b.getSupplyChange with
  | some a_supply_change, some b_supply_change =>
    a_supply_change > b_supply_change || (a_supply_change = b_supply_change && a.hash < b.hash)
  | some _, none => true
  | none, some _ => false
  | none, none => a.hash < b.hash

/-! ## Validation -/

/-- `EConsensusError`. -/
inductive EConsensusError where
  | hashMismatch
  | duplicates
  | blockWeight
  | blockSums
  | amountOutOfRange
  | stealthSums
  | invalidSig
  | bulletproof
  | peginMismatch
  | pegoutMismatch
  | mmrMismatch
  | utxoMissing
  | utxoMismatch
  | notSorted
  | lockHeight
  | badState
  deriving DecidableEq

/-- Hashing and the checks on the elliptic curve. -/
structure Crypto where
  /-- The hash of a node of the range of kernels: a position and a serialised kernel, or a position
  and two hashes. -/
  hashKernelNode : Mmr.Input Hash (List UInt8) → Hash
  /-- `Schnorr::BatchVerify`, on the signed messages of kernels, inputs and outputs. -/
  batchVerify : TxBody → Bool
  /-- `Bulletproofs::BatchVerify`, on the proofs of outputs. -/
  verifyRangeProofs : List Output → Bool
  /-- `StealthSumValidator::Validate` returns. -/
  validateStealthSums : BlindingFactor → TxBody → Bool

variable (crypto : Crypto)

/-- `TxBody::Validate`. -/
def TxBody.validate (body : TxBody) : Except EConsensusError Unit := do
  reject body.exceedsMaximum .blockWeight
  reject (!isSorted inputSort body.inputs || !isSorted outputSort body.outputs ||
    !isSorted kernelSort body.kernels) .notSorted
  reject (!decide (body.inputs.map (·.outputID)).Nodup) .duplicates
  reject (!decide (body.outputs.map (·.hash)).Nodup) .duplicates
  reject (!decide (body.kernels.map (·.hash)).Nodup) .duplicates
  reject (!crypto.batchVerify body) .invalidSig
  reject (!crypto.verifyRangeProofs body.outputs) .bulletproof

/-- `KERNEL_LOCK_HEIGHT_GRANDFATHER_HEIGHT`. -/
def kernelLockHeightGrandfatherHeight : Int := 3110000

/-- The root of the mountain range of kernels, over the bytes that are written for them. -/
def kernelRoot (kernels : List Kernel) : Hash :=
  Mmr.root crypto.hashKernelNode 0 (Mmr.ofLeaves crypto.hashKernelNode
    (kernels.map Kernel.serialize))

/-- `mw::Block::Validate`. -/
def Block.validate (block : Block) : Except EConsensusError Unit := do
  reject (block.header.kernelMMRSize ≠ block.body.kernels.length) .mmrMismatch
  block.body.validate crypto
  reject (block.header.height > kernelLockHeightGrandfatherHeight &&
    block.body.getLockHeight > block.header.height) .lockHeight
  reject (!crypto.validateStealthSums block.header.stealthOffset block.body) .stealthSums
  reject (block.header.kernelRoot ≠ kernelRoot crypto block.body.kernels) .mmrMismatch

/-- The first loop of `BlockValidator::ValidatePegInCoins`. -/
def pegInAmounts (pegInCoins : List PegInCoin) : Except EConsensusError (StdMap Hash Int) :=
  pegInCoins.foldlM (fun amounts coin =>
    if amounts.contains coin.kernelID then .error .peginMismatch
    else .ok (amounts.insert coin.kernelID coin.amount)) ∅

/-- One round of the second loop: a pegin of the body is taken off. -/
def takePegIn (amounts : StdMap Hash Int) (pegin : PegInCoin) :
    Except EConsensusError (StdMap Hash Int) :=
  match amounts[pegin.kernelID]? with
  | some amount =>
    if pegin.amount ≠ amount then .error .peginMismatch else .ok (amounts.erase pegin.kernelID)
  | none => .error .peginMismatch

/-- `BlockValidator::ValidatePegInCoins`. -/
def validatePegInCoins (body : TxBody) (pegInCoins : List PegInCoin) :
    Except EConsensusError Unit := do
  let amounts ← pegInAmounts pegInCoins
  reject (body.getPegIns.length ≠ amounts.size) .peginMismatch
  discard (body.getPegIns.foldlM takePegIn amounts)

/-- One round of the loop of `ValidatePegOutCoins`: a pegout of the body is taken off. -/
def takePegOut (pegouts : List PegOutCoin) (pegout : PegOutCoin) :
    Except EConsensusError (List PegOutCoin) :=
  if pegout ∈ pegouts then .ok (pegouts.erase pegout) else .error .pegoutMismatch

/-- `BlockValidator::ValidatePegOutCoins`; the multiset of pegouts is a list. -/
def validatePegOutCoins (body : TxBody) (pegOutCoins : List PegOutCoin) :
    Except EConsensusError Unit := do
  reject (body.getPegOuts.length ≠ pegOutCoins.length) .pegoutMismatch
  discard (body.getPegOuts.foldlM takePegOut pegOutCoins)

/-- `BlockValidator::ValidateBlock`, which reports any exception as `false`. -/
def validateBlock (block : Block) (pegInCoins : List PegInCoin)
    (pegOutCoins : List PegOutCoin) : Bool :=
  Except.isOk do
    block.validate crypto
    validatePegInCoins block.body pegInCoins
    validatePegOutCoins block.body pegOutCoins

/-! ## What a valid block has -/

theorem isOk_iff {ε α : Type} {x : Except ε α} : Except.isOk x ↔ ∃ a, x = .ok a := by
  rcases x with e | a
  · exact ⟨fun h => absurd h Bool.false_ne_true, nofun⟩
  · exact ⟨fun _ => ⟨a, rfl⟩, fun _ => rfl⟩

theorem validate_of_validateBlock {crypto : Crypto} {block : Block} {pegInCoins : List PegInCoin}
    {pegOutCoins : List PegOutCoin} (h : validateBlock crypto block pegInCoins pegOutCoins) :
    block.validate crypto = .ok () := by
  obtain ⟨u, hu⟩ := isOk_iff.mp h
  exact (seq_eq_ok_iff.mp hu).1

/-- Items in order, without duplicates, are in strict order. -/
theorem pairwise_lt_of_isSorted {α : Type} {key : α → Hash} {comp : α → α → Bool}
    (hcomp : ∀ a b, comp a b = decide (key a < key b)) {l : List α}
    (hsorted : isSorted comp l = true)
    (hnodup : (l.map key).Nodup) : (l.map key).Pairwise (· < ·) := by
  have hchain : (l.map key).IsChain (· ≤ ·) := by
    rw [List.isChain_map]
    refine (of_decide_eq_true hsorted).imp fun a b h => ?_
    rw [hcomp, decide_eq_false_iff_not] at h
    exact BitVec.not_lt.mp h
  have hle : (l.map key).Pairwise (· ≤ ·) := hchain.pairwise
  refine (hle.and hnodup).imp fun ⟨h, hne⟩ => ?_
  exact lt_of_le_of_ne h fun heq => hne (BitVec.eq_of_toNat_eq heq)

/-- What the rest of the node relies on in the body of a valid block. -/
structure ValidBody (crypto : Crypto) (block : Block) : Prop where
  /-- The spent ids are in strict order. -/
  inputs : (block.body.inputs.map (·.outputID)).Pairwise (· < ·)
  /-- The new ids are in strict order. -/
  outputs : (block.body.outputs.map (·.hash)).Pairwise (· < ·)
  kernelMMRSize : block.header.kernelMMRSize = block.body.kernels.length
  kernelRoot : block.header.kernelRoot = kernelRoot crypto block.body.kernels

theorem validBody_of_validate {crypto : Crypto} {block : Block}
    (h : block.validate crypto = .ok ()) : ValidBody crypto block := by
  unfold Block.validate TxBody.validate at h
  simp only [seq_eq_ok_iff, reject_eq_ok_iff, Bool.or_eq_false_iff, Bool.not_eq_false',
    decide_eq_true_eq, decide_eq_false_iff_not, not_not, ne_eq] at h
  obtain ⟨hsize, ⟨-, ⟨⟨hinputs, houtputs⟩, -⟩, hspent, hids, -⟩, -, -, hroot⟩ := h
  exact ⟨pairwise_lt_of_isSorted (fun _ _ => rfl) hinputs hspent,
    pairwise_lt_of_isSorted (fun _ _ => rfl) houtputs hids, hsize, hroot⟩

/-- For the kernels of valid blocks with the same header the same bytes are written, unless nodes of
the ranges of these bytes collide. -/
theorem serialize_kernels_eq {crypto : Crypto} {block block' : Block}
    (h : ValidBody crypto block) (h' : ValidBody crypto block')
    (hheader : block.header = block'.header)
    (hfree : Mmr.CollisionFree crypto.hashKernelNode 0 (block.body.kernels.map Kernel.serialize)
      (block'.body.kernels.map Kernel.serialize)) :
    block.body.kernels.map Kernel.serialize = block'.body.kernels.map Kernel.serialize := by
  apply Mmr.root_injective crypto.hashKernelNode 0 hfree
  · rw [List.length_map, List.length_map, ← h.kernelMMRSize, ← h'.kernelMMRSize, hheader]
  · have hroot := h.kernelRoot
    rw [hheader, h'.kernelRoot] at hroot
    exact hroot.symm

end DefcoinCore.Mweb
