import DefcoinCore.Mweb.Validate
import DefcoinCore.Validation.CheckBlock
import DefcoinCore.Validation.UpdateCoins

/-!
# Connecting a block

`ConnectBlock` and what it uses to keep account of the money: `GetBlockSubsidy`, `GetValueOut` and
`CheckTxInputs`. The coins are a plain map, as a stack of caches stands for one. Amounts are
integers, and a sum of amounts that leaves the range of `int64_t` is a fault of its own, so that one
can say that there is none. The verdicts of checks that do not touch the money, such as scripts and
lock times, are inputs.
-/

namespace DefcoinCore

/-! ## Faults -/

/-- How a check ends when it does not pass: with a verdict, with the end of the node, with an
exception or a failed assertion, or with undefined behaviour. -/
inductive Fault (Result : Type) where
  | invalid (e : Invalid Result)
  | abortNode (strMessage : String)
  | exception (what : String)
  | assertion (what : String)
  /-- A sum of amounts is out of the range of `int64_t`. -/
  | overflow
  deriving DecidableEq

abbrev TxFault := Fault TxValidationResult

abbrev BlockFault := Fault BlockValidationResult

/-- Any failure of a transaction in `ConnectBlock` is a consensus failure of the block. -/
def TxFault.toBlock : TxFault → BlockFault
  | .invalid e => .invalid (blockConsensus e.reject_reason e.debug_message)
  | .abortNode strMessage => .abortNode strMessage
  | .exception what => .exception what
  | .assertion what => .assertion what
  | .overflow => .overflow

/-- The result of an addition or a subtraction of amounts. -/
def toAmount {Result : Type} (value : Int) : Except (Fault Result) Int :=
  if -2 ^ 63 ≤ value ∧ value < 2 ^ 63 then .ok value else .error .overflow

/-! ## Amounts -/

/-- `GetBlockSubsidy`. -/
def getBlockSubsidy (nSubsidyHalvingInterval nHeight : Nat) : Int :=
  let halvings := nHeight / nSubsidyHalvingInterval
  -- The shift is undefined from here on.
  if halvings ≥ 64 then 0 else 50 * coin / 2 ^ halvings

/-- The loop of `GetValueOut`, with the sum so far. -/
def sumOutputs {Result : Type} : Int → List CTxOut → Except (Fault Result) Int
  | nValueOut, [] => do
    reject (!moneyRange nValueOut) (.assertion "MoneyRange(nValueOut)")
    pure nValueOut
  | nValueOut, tx_out :: vout => do
    reject (!moneyRange tx_out.nValue) (.exception "GetValueOut: value out of range")
    let nValueOut ← toAmount (nValueOut + tx_out.nValue)
    reject (!moneyRange nValueOut) (.exception "GetValueOut: value out of range")
    sumOutputs nValueOut vout

/-- `CTransaction::GetValueOut`. -/
def CTransaction.getValueOut {Result : Type} (tx : CTransaction) : Except (Fault Result) Int :=
  sumOutputs 0 tx.vout

/-- The loop of `FormatMoney` that takes zeros off the end, on the reversed text. -/
def trimZeros : List Char → List Char
  | '0' :: c :: d :: rest => if d.isDigit then trimZeros (c :: d :: rest) else '0' :: c :: d :: rest
  | str => str

/-- `FormatMoney`. -/
def formatMoney (n : Int) : String :=
  let quotient := n.natAbs / coin.toNat
  let remainder := n.natAbs % coin.toNat
  let str := quotient.repr.toList ++ '.' :: remainder.repr.toList.leftpad 8 '0'
  let str := (trimZeros str.reverse).reverse
  .ofList (if n < 0 then '-' :: str else str)

/-! ## The inputs of a transaction -/

/-- `COINBASE_MATURITY`. -/
def coinbaseMaturity : Int := 100

/-- `PEGOUT_MATURITY`. -/
def pegoutMaturity : Int := 6

/-- The loop over the inputs in `CheckTxInputs`, with the sum so far. -/
def sumInputs (V : CoinMap) (nSpendHeight : Nat) : Int → List CTxIn → Except TxFault Int
  | nValueIn, [] => .ok nValueIn
  | nValueIn, txin :: vin =>
    match V txin.prevout with
    | none => .error (.assertion "!coin.IsSpent()")
    | some coin => do
      let depth : Int := nSpendHeight - coin.nHeight.val
      reject (coin.fCoinBase && depth < coinbaseMaturity)
        (.invalid ⟨.prematureSpend, "bad-txns-premature-spend-of-coinbase",
          "tried to spend coinbase at depth " ++ toString depth⟩)
      reject (coin.fPegout && depth < pegoutMaturity)
        (.invalid ⟨.prematureSpend, "bad-txns-premature-spend-of-pegout",
          "tried to spend pegout output at depth " ++ toString depth⟩)
      let nValueIn ← toAmount (nValueIn + coin.out.nValue)
      reject (!moneyRange coin.out.nValue || !moneyRange nValueIn)
        (.invalid (txConsensus "bad-txns-inputvalues-outofrange"))
      sumInputs V nSpendHeight nValueIn vin

/-- `HaveInputs`, for the outputs that are found on the extension block too. -/
def haveInputs (V : CoinMap) (getMWEBCoin : Mweb.Hash → Option Mweb.Output)
    (tx : CTransaction) : Bool :=
  tx.isCoinBase || ((tx.vin.all fun txin => (V txin.prevout).isSome) &&
    (tx.mweb_tx.all fun mweb_tx => mweb_tx.body.inputs.all fun input =>
      (getMWEBCoin input.outputID).isSome))

variable (frozen_mweb_output_ids : List Uint256) (getMWEBCoin : Mweb.Hash → Option Mweb.Output)

/-- The check of an input of an attached Mimblewimble transaction. -/
def checkMwebInput (input : Mweb.Input) : Except TxFault Unit :=
  match getMWEBCoin input.outputID with
  | none =>
    .error (.invalid ⟨.consensus, "bad-txns-inputs-missing", "CheckTxInputs: MWEB inputs missing"⟩)
  | some utxo => do
    reject (frozen_mweb_output_ids.any fun frozen_output_id => input.outputID = frozen_output_id)
      (.invalid ⟨.consensus, "bad-txns-frozen-mweb-output",
        "CheckTxInputs: spends frozen MWEB output " ++ input.outputID.toHex⟩)
    reject (utxo.receiverPubKey ≠ input.outputPubKey || utxo.commitment ≠ input.commitment)
      (.invalid ⟨.consensus, "bad-txns-input-mismatch",
        "CheckTxInputs: MWEB input doesn't match UTXO"⟩)

/-- The part of `CheckTxInputs` for an attached Mimblewimble transaction: the fee with its own
added. -/
def addMwebFee (txfee_aux : Int) : Option Mweb.Transaction → Except TxFault Int
  | none => .ok txfee_aux
  | some mweb_tx => do
    mweb_tx.body.inputs.forM (checkMwebInput frozen_mweb_output_ids getMWEBCoin)
    match mweb_tx.body.getTotalFee with
    | none => .error (.invalid (txConsensus "bad-txns-mwebfee-outofrange"))
    | some mweb_fee => do
      let txfee_aux ← toAmount (txfee_aux + mweb_fee)
      reject (!moneyRange mweb_fee || !moneyRange txfee_aux)
        (.invalid (txConsensus "bad-txns-mwebfee-outofrange"))
      pure txfee_aux

/-- `CheckTxInputs`: the fee. -/
def checkTxInputs (V : CoinMap) (nSpendHeight : Nat) (tx : CTransaction) : Except TxFault Int := do
  reject (!haveInputs V getMWEBCoin tx)
    (.invalid ⟨.missingInputs, "bad-txns-inputs-missingorspent",
      "CheckTxInputs: inputs missing/spent"⟩)
  let nValueIn ← sumInputs V nSpendHeight 0 tx.vin
  let value_out ← tx.getValueOut
  reject (nValueIn < value_out)
    (.invalid ⟨.consensus, "bad-txns-in-belowout",
      "value in (" ++ formatMoney nValueIn ++ ") < value out (" ++ formatMoney value_out ++ ")"⟩)
  let txfee_aux ← toAmount (nValueIn - value_out)
  reject (!moneyRange txfee_aux) (.invalid (txConsensus "bad-txns-fee-outofrange"))
  addMwebFee frozen_mweb_output_ids getMWEBCoin txfee_aux tx.mweb_tx

/-! ## The block -/

/-- The consensus parameters that blocks are connected with. -/
structure ConnectParams extends ConsensusParams where
  hashGenesisBlock : Uint256
  BIP34Hash : Uint256
  nSubsidyHalvingInterval : Nat
  frozen_mweb_output_ids : List Uint256

/-- A block with what `ConnectBlock` finds out about it elsewhere. -/
structure BlockContext where
  block : CBlock
  hash : Uint256
  /-- The hash of the ancestor of its predecessor at `BIP34Height`, if there is one. -/
  bip34Ancestor : Option Uint256
  getMWEBCoin : Mweb.Hash → Option Mweb.Output
  /-- `SequenceLocks`, with the coins at that point. -/
  sequenceLocks : CoinMap → CTransaction → Bool
  getTransactionSigOpCost : CoinMap → CTransaction → Nat
  /-- `CheckInputScripts`, if scripts are checked. -/
  checkInputScripts : CoinMap → CTransaction → Except TxInvalid Unit
  controlWait : Bool
  mwebConnectBlock : Except BlockInvalid Unit

/-- The variables of the loop in `ConnectBlock`. -/
structure ConnectState where
  view : CoinMap
  nFees : Int
  nSigOpsCost : Nat

variable (params : ConnectParams) (ctx : BlockContext)

/-- The checks on the money of a transaction in `ConnectBlock`: the fees with its own added. -/
def addFee (nHeight : Nat) (s : ConnectState) (tx : CTransaction) : Except BlockFault Int :=
  if tx.isCoinBase then .ok s.nFees
  else do
    let txfee ← (checkTxInputs params.frozen_mweb_output_ids ctx.getMWEBCoin s.view nHeight
      tx).mapError TxFault.toBlock
    let nFees ← toAmount (s.nFees + txfee)
    reject (!moneyRange nFees) (.invalid (blockConsensus "bad-txns-accumulated-fee-outofrange" ""))
    reject (!ctx.sequenceLocks s.view tx) (.invalid (blockConsensus "bad-txns-nonfinal" ""))
    pure nFees

/-- The check of the scripts of a transaction in `ConnectBlock`. -/
def checkScripts (V : CoinMap) (tx : CTransaction) : Except BlockFault Unit :=
  if tx.isCoinBase then .ok ()
  else (ctx.checkInputScripts V tx).mapError fun e =>
    .invalid (blockConsensus e.reject_reason e.debug_message)

/-- One round of the loop in `ConnectBlock`. -/
def connectTx (nHeight : Nat) (s : ConnectState)
    (tx : CTransaction) : Except BlockFault ConnectState := do
  let nFees ← addFee params ctx nHeight s tx
  let nSigOpsCost := s.nSigOpsCost + ctx.getTransactionSigOpCost s.view tx
  reject (nSigOpsCost > maxBlockSigopsCost) (.invalid (blockConsensus "bad-blk-sigops" ""))
  checkScripts ctx s.view tx
  -- `UpdateCoins`. An output that takes the place of an unspent one is let through here, also where
  -- the source would stop at it.
  pure ⟨plainUpdate nHeight s.view tx, nFees, nSigOpsCost⟩

/-- The rule against overwriting transactions. -/
def checkBIP30 (V : CoinMap) : Except BlockFault Unit :=
  reject (ctx.bip34Ancestor ≠ some params.BIP34Hash && ctx.block.vtx.any fun tx =>
      (List.range tx.vout.length).any fun o => (V (tx.outPoint o)).isSome)
    (.invalid (blockConsensus "bad-txns-BIP30" ""))

/-- The check of the reward of the coinbase. -/
def checkReward (nHeight : Nat) (nFees : Int) :
    List CTransaction → Except BlockFault Unit
  | [] => .error (.assertion "vtx")
  | coinbase :: _ => do
    let blockReward ← toAmount (nFees + getBlockSubsidy params.nSubsidyHalvingInterval nHeight)
    let value_out ← coinbase.getValueOut
    reject (value_out > blockReward) (.invalid (blockConsensus "bad-cb-amount" ""))

/-- The call of `CheckBlock` in `ConnectBlock`. -/
def recheckBlock (block : CBlock) : Except BlockFault Unit :=
  match checkBlock params.toConsensusParams true true block with
  | .ok _ => .ok ()
  | .error e =>
    if e.result = .mutated then
      .error (.abortNode "Corrupt block found indicating potential hardware failure; shutting down")
    else .error (.invalid e)

/-- `ConnectBlock`: the coins after the block. -/
def connectBlock (nHeight : Nat) (V : CoinMap) (ctx : BlockContext) :
    Except BlockFault CoinMap := do
  recheckBlock params ctx.block
  -- The coinbase of the genesis block cannot be spent.
  if ctx.hash = params.hashGenesisBlock then pure V
  else do
    reject (nHeight = 0) (.assertion "pindex->pprev")
    checkBIP30 params ctx V
    let s ← ctx.block.vtx.foldlM (connectTx params ctx nHeight) ⟨V, 0, 0⟩
    checkReward params nHeight s.nFees ctx.block.vtx
    reject (!ctx.controlWait) (.invalid (blockConsensus "block-validation-failed" ""))
    ctx.mwebConnectBlock.mapError .invalid
    pure s.view

/-- The blocks of a chain are connected one after the other, the first at height 0. -/
def connectChain (chain : List BlockContext) : Except BlockFault CoinMap :=
  chain.zipIdx.foldlM (fun V p => connectBlock params p.2 V p.1) fun _ => none

end DefcoinCore
