import DefcoinCore.Lib.Ensures
import DefcoinCore.Primitives.Serialize

/-!
# Validation results

The reasons for which transactions and blocks are rejected (`consensus/validation.h`), the weight of
a block and the place of the witness commitment.
-/

namespace DefcoinCore

/-- `TxValidationResult`. -/
inductive TxValidationResult where
  | unset
  | consensus
  | recentConsensusChange
  | inputsNotStandard
  | notStandard
  | missingInputs
  | prematureSpend
  | witnessMutated
  | witnessStripped
  | conflict
  | mempoolPolicy
  deriving DecidableEq

/-- `BlockValidationResult`. -/
inductive BlockValidationResult where
  | unset
  | consensus
  | recentConsensusChange
  | cachedInvalid
  | invalidHeader
  | mutated
  | missingPrev
  | invalidPrev
  | timeFuture
  | checkpoint
  deriving DecidableEq

/-- What `ValidationState::Invalid` records. -/
structure Invalid (Result : Type) where
  result : Result
  reject_reason : String
  debug_message : String
  deriving DecidableEq

/-- An invalid transaction. -/
abbrev TxInvalid := Invalid TxValidationResult

/-- An invalid block. -/
abbrev BlockInvalid := Invalid BlockValidationResult

/-- The check passes, or blames data that the block hash does not commit to. -/
abbrev MutatedOnly {α : Type} (x : Except BlockInvalid α) : Prop :=
  Ensures x (fun _ => True) fun e => e.result = .mutated

/-- `WITNESS_SCALE_FACTOR`. -/
def witnessScaleFactor : Nat := 4

/-- `MAX_BLOCK_WEIGHT`. -/
def maxBlockWeight : Nat := 4000000

/-- `MAX_BLOCK_SIGOPS_COST`. -/
def maxBlockSigopsCost : Nat := 80000

/-- `GetBlockWeight`. -/
def getBlockWeight (block : CBlock) : Nat :=
  (serializeBlock false block).length * (witnessScaleFactor - 1) +
    (serializeBlock true block).length

/-- The output is a witness commitment. -/
def isWitnessCommitment (out : CTxOut) : Bool :=
  out.scriptPubKey.length ≥ 38 ∧ out.scriptPubKey.take 6 = [opReturn, 0x24, 0xaa, 0x21, 0xa9, 0xed]

/-- `GetWitnessCommitmentIndex`, as the script of the last witness commitment in the first
transaction. -/
def getWitnessCommitment (vtx : List CTransaction) : Option CScript :=
  match vtx with
  | [] => none
  | tx :: _ => (tx.vout.reverse.find? isWitnessCommitment).map (·.scriptPubKey)

end DefcoinCore
