import DefcoinCore.Consensus.Validation

/-!
# Checks of a transaction alone

`CheckTransaction` of `consensus/tx_check.cpp`: the checks that need nothing but the transaction.
Apart from transactions that are all in the extension block, which have no inputs and outputs of
their own, only committed data is read (`checkTransaction_of_strip`).
-/

namespace DefcoinCore

/-- A transaction that breaks the consensus rules. -/
def txConsensus (reject_reason : String) : TxInvalid := ⟨.consensus, reject_reason, ""⟩

/-- The loop over the outputs in `CheckTransaction`, with the sum so far. -/
def checkOutputs : Int → List CTxOut → Except TxInvalid Unit
  | _, [] => .ok ()
  | nValueOut, txout :: vout => do
    reject (txout.nValue < 0) (txConsensus "bad-txns-vout-negative")
    reject (txout.nValue > maxMoney) (txConsensus "bad-txns-vout-toolarge")
    reject (!moneyRange (nValueOut + txout.nValue)) (txConsensus "bad-txns-txouttotal-toolarge")
    checkOutputs (nValueOut + txout.nValue) vout

/-- The checks of `CheckTransaction` on outpoints and sizes. -/
def checkInputs (tx : CTransaction) : Except TxInvalid Unit := do
  reject (!decide (tx.vin.map (·.prevout)).Nodup) (txConsensus "bad-txns-inputs-duplicate")
  if tx.isCoinBase then
    let size := (tx.vin.head?.map (·.scriptSig.length)).getD 0
    reject (size < 2 ∨ size > 100) (txConsensus "bad-cb-length")
  else
    reject (tx.vin.any (·.prevout.isNull)) (txConsensus "bad-txns-prevout-null")

/-- `CheckTransaction`. -/
def checkTransaction (tx : CTransaction) : Except TxInvalid Unit := do
  reject (!tx.isMWEBOnly && tx.vin.isEmpty) (txConsensus "bad-txns-vin-empty")
  reject (!tx.isMWEBOnly && tx.vout.isEmpty) (txConsensus "bad-txns-vout-empty")
  reject ((serializeTx false tx).length * witnessScaleFactor > maxBlockWeight)
    (txConsensus "bad-txns-oversize")
  checkOutputs 0 tx.vout
  checkInputs tx

theorem checkInputs_strip (tx : CTransaction) : checkInputs tx.strip = checkInputs tx := by
  have hnull : (tx.strip.vin.any (·.prevout.isNull)) = tx.vin.any (·.prevout.isNull) := by
    unfold CTransaction.strip
    rw [List.any_map]
    rfl
  have hsize : ((tx.strip.vin.head?.map (·.scriptSig.length)).getD 0) =
      (tx.vin.head?.map (·.scriptSig.length)).getD 0 := by
    unfold CTransaction.strip
    rw [List.head?_map, Option.map_map]
    rfl
  unfold checkInputs
  rw [tx.prevouts_strip, tx.isCoinBase_strip, hnull, hsize]

/-- Without a Mimblewimble transaction all that is read is committed to. -/
theorem checkTransaction_strip {tx : CTransaction} (h : tx.isMWEBOnly = false) :
    checkTransaction tx.strip = checkTransaction tx := by
  have hstrip : tx.strip.isMWEBOnly = false := rfl
  unfold checkTransaction
  rw [h, hstrip, tx.isEmpty_vin_strip, tx.vout_strip, serializeTx_strip, checkInputs_strip]

/-- A transaction whose committed data passes has inputs, and passes itself. -/
theorem checkTransaction_of_strip {tx : CTransaction} (h : checkTransaction tx.strip = .ok ()) :
    checkTransaction tx = .ok () := by
  have hvin : tx.vin.isEmpty = false := by
    rw [checkTransaction, seq_eq_ok_iff, reject_eq_ok_iff, tx.isEmpty_vin_strip] at h
    exact h.1
  rw [← h]
  refine (checkTransaction_strip ?_).symm
  rw [CTransaction.isMWEBOnly, hvin, Bool.and_false, Bool.false_and]

end DefcoinCore
