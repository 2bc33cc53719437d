import DefcoinCore.Mweb.Accounting
import DefcoinCore.Mweb.BlockBuilder

/-!
# The HogEx of a new block

`MWEB::Miner` makes the HogEx of a block template: for each transaction of the memory pool with
Mimblewimble data that goes into the block, it stages the data with the block builder and notes the
pegin outputs as inputs and the pegouts as outputs of the HogEx, together with the change of the
amount. `AddHogExTransaction` puts all this together.

The miner adds up transaction by transaction, and the checks of `MWEB::Node` scan the whole block.
Both come to the same inputs, outputs, fees and amounts (`addHogExTransaction_passes_iff`). Three
things are checked that the miner does not look at: no pegout may have a pegin script, since that
would be a pegin in the HogEx; no kernel may be the pegin kernel of two transactions; and the coins
before the block together with all pegins have to be in the range of money, before pegouts and fees
are taken off.
-/

namespace DefcoinCore.Mweb

open List CTransaction Node Except

/-! ## The code -/

/-- `CScript() << OP_8 << hash`. -/
def hogAddrScript (hash : Hash) : CScript := 0x58 :: 32 :: Hash.vec hash

/-- `CTxIn`, from a hash and an index. -/
def spendingInput (hash : Uint256) (n : UInt32) : CTxIn := ⟨⟨hash, n⟩, [], 0xFFFFFFFF, []⟩

/-- `MWEB::Tx::GetPegIns`. -/
def attachedPegIns (tx : CTransaction) : List PegInCoin :=
  match tx.mweb_tx with
  | some mweb_tx => mweb_tx.body.getPegIns
  | none => []

/-- The loop of `MWEB::Node::CheckTransaction` over the outputs. -/
def txPegins (tx : CTransaction) : Except TxInvalid (StdMap Hash Int) :=
  (Node.peginCoins tx).foldlM (fun amounts coin =>
    if amounts.contains coin.kernelID then .error
      ⟨.recentConsensusChange, "duplicate-tx-pegins", ""⟩
    else .ok (amounts.insert coin.kernelID coin.amount)) ∅

/-- `MWEB::Node::CheckTransaction`. -/
def Node.checkTransaction (crypto : NodeCrypto) (tx : CTransaction) : Except TxInvalid Unit := do
  let tx_pegins ← txPegins tx
  reject ((attachedPegIns tx).length ≠ tx_pegins.size) ⟨.witnessMutated, "pegin-count-mismatch", ""⟩
  (attachedPegIns tx).forM fun pegin =>
    reject (tx_pegins[pegin.kernelID]? ≠ some pegin.amount) ⟨.witnessMutated, "pegin-mismatch", ""⟩
  match tx.mweb_tx with
  | none => .ok ()
  | some mweb_tx => (mweb_tx.validate crypto).mapError fun _ =>
    ⟨.witnessMutated, "bad-mweb-txn", ""⟩

/-- `MWEB::Miner`. -/
structure Miner where
  mweb_builder : BlockBuilder
  mweb_amount_change : Int
  hogex_fees : Int
  hogex_sigops : Int
  hogex_inputs : List CTxIn
  hogex_outputs : List CTxOut

namespace Miner

/-- `Miner::NewBlock`. -/
def newBlock (nHeight : Int) (view : CoinsView) : Miner := ⟨.new nHeight view, 0, 0, 0, [], []⟩

/-- `Miner::GetHogExSigOpCost`. -/
def getHogExSigOpCost (tx : CTransaction) : Int :=
  (tx.attachedPegOuts.map fun pegout =>
    (witnessScaleFactor * (getSigOpCount false pegout.scriptPubKey).toNat : Int)).sum

/-- One round of `ValidatePegIns`: the pegin of an output is taken off. -/
def erasePegin (pegin_set : List PegInCoin) (pegin : PegInCoin) : Option (List PegInCoin) :=
  if pegin ∈ pegin_set then some (pegin_set.erase pegin) else none

/-- `Miner::ValidatePegIns`. The set of pegins is a list without duplicates. -/
def validatePegIns (tx : CTransaction) (pegins : List PegInCoin) : Bool :=
  (Node.peginCoins tx).foldlM erasePegin pegins.dedup = some []

/-- `IsPegInOutput`: the first case of `Solver`, pay to script hash, is not a witness program. -/
def isPegInOutput (output : CTxOut) : Bool := (isMWEBPegin output.scriptPubKey).isSome

/-- The inputs of the HogEx for the pegins of a transaction. -/
def peginInputs (tx : CTransaction) : List CTxIn :=
  (tx.vout.zipIdx.filter fun out => isPegInOutput out.1).map fun out =>
    spendingInput tx.hash (UInt32.ofNat out.2)

/-- An amount is added to a total. The source asserts that the amount itself is in range. -/
def addAmount (total amount : Int) : Except Refusal Int := do
  reject (!moneyRange amount) .assertion
  reject (!moneyRange (total + amount)) .returnsFalse
  pure (total + amount)

/-- The fee of a transaction, if it is in range. -/
def checkFee (mweb_tx : Transaction) : Except Refusal Int :=
  match mweb_tx.body.getTotalFee with
  | none => .error .returnsFalse
  | some tx_fee => do
    reject (!moneyRange tx_fee) .returnsFalse
    pure tx_fee

/-- `Miner::AddMWEBTransaction`, for a transaction with the given Mimblewimble data. -/
def addMWEBTransaction (crypto : BuilderCrypto) (miner : Miner) (tx : CTransaction)
    (mweb_tx : Transaction) : Except Refusal Miner := do
  reject (!validatePegIns tx mweb_tx.body.getPegIns) .returnsFalse
  let pegin_amount ← ((tx.vout.filter isPegInOutput).map (·.nValue)).foldlM addAmount 0
  let pegout_amount ← (mweb_tx.body.getPegOuts.map (·.amount)).foldlM addAmount 0
  let tx_fee ← checkFee mweb_tx
  let mweb_builder ← miner.mweb_builder.addTransaction crypto mweb_tx mweb_tx.body.getPegIns
  pure {
    mweb_builder := mweb_builder
    mweb_amount_change := miner.mweb_amount_change + (pegin_amount - (pegout_amount + tx_fee))
    hogex_fees := miner.hogex_fees + tx_fee
    hogex_sigops := miner.hogex_sigops + getHogExSigOpCost tx
    hogex_inputs := miner.hogex_inputs ++ peginInputs tx
    hogex_outputs := miner.hogex_outputs ++
      mweb_tx.body.getPegOuts.map fun pegout => ⟨pegout.amount, pegout.scriptPubKey⟩ }

end Miner

/-- What `AddToBlock` reads of an entry of the memory pool. -/
structure MempoolEntry where
  tx : CTransaction
  fee : Int
  sigOpCost : Int

/-- The block under construction and the miner. -/
structure BlockAssembler where
  block : CBlock
  mweb_miner : Miner

namespace BlockAssembler

/-- The checks of the shares of the extension block in the fee and the signature operations. -/
def checkShares (entry : MempoolEntry) (mweb_tx : Transaction) : Except Refusal Unit :=
  match mweb_tx.body.getTotalFee with
  | none => .error .returnsFalse
  | some tx_fee => do
    reject (tx_fee > entry.fee) .returnsFalse
    reject (Miner.getHogExSigOpCost entry.tx > entry.sigOpCost) .returnsFalse

/-- The transaction is added to the block, without its Mimblewimble data. The ids do not cover
those. -/
def appendTx (block : CBlock) (tx : CTransaction) : CBlock :=
  { block with vtx := block.vtx ++ [{ tx with mweb_tx := none }] }

/-- `BlockAssembler::AddToBlock`. -/
def addToBlock (crypto : BuilderCrypto) (assembler : BlockAssembler) (entry : MempoolEntry) :
    Except Refusal BlockAssembler :=
  match entry.tx.mweb_tx with
  | none => .ok { assembler with block := appendTx assembler.block entry.tx }
  | some mweb_tx => do
    let mweb_miner ← assembler.mweb_miner.addMWEBTransaction crypto entry.tx mweb_tx
    if entry.tx.isMWEBOnly then pure { assembler with mweb_miner := mweb_miner }
    else do
      checkShares entry mweb_tx
      pure ⟨appendTx assembler.block entry.tx, mweb_miner⟩

/-- The HogEx: `CURRENT_VERSION` is two, and `getHash` computes an id from the other fields. -/
def hogExTransaction (getHash : CTransaction → Uint256) (vin : List CTxIn) (vout : List CTxOut) :
    CTransaction :=
  let tx : CTransaction := ⟨vin, vout, 2, 0, none, true, 0, 0⟩
  { tx with hash := getHash tx, m_witness_hash := getHash tx }

/-- `Miner::AddHogExTransaction`, on top of an index that has the given header. -/
def addHogExTransaction (crypto : BuilderCrypto) (getHash : CTransaction → Uint256)
    (mweb_header : Option Header) (prev : PrevIndex) (assembler : BlockAssembler) :
    Except Fault CBlock := do
  let miner := assembler.mweb_miner
  let previous_amount := if mweb_header.isSome then prev.mweb_amount else 0
  let prevHogExIn := if mweb_header.isSome then [spendingInput prev.hogex_hash 0] else []
  let mweb_block ← (miner.mweb_builder.buildBlock crypto).mapError .exception
  let hogAddr : CTxOut :=
    ⟨previous_amount + miner.mweb_amount_change, hogAddrScript mweb_block.header.hash⟩
  reject (!moneyRange hogAddr.nValue) .assertion
  pure { assembler.block with
    vtx := assembler.block.vtx ++
      [hogExTransaction getHash (prevHogExIn ++ miner.hogex_inputs)
        (hogAddr :: miner.hogex_outputs)]
    mweb_block := some mweb_block }

end BlockAssembler

/-! ## Scripts -/

variable {α : Type} {total total' : Int} {crypto : NodeCrypto} {body : TxBody} {tx : CTransaction}
  {view : CoinsView} {block : CBlock} {txs : List CTransaction} {assembler : BlockAssembler}
  {prev : PrevIndex} {l : List α}

variable {kernel : Kernel} {mweb_tx : Transaction} {height : Int} {pegouts : List PegOutCoin}
  {mweb_header : Option Header}

theorem isWitnessProgram_hogAddrScript (hash : Hash) :
    isWitnessProgram (hogAddrScript hash) = some (8, Hash.vec hash) := by
  have hlen : (hogAddrScript hash).length = 34 := by
    rw [hogAddrScript, length_cons, length_cons, Hash.vec, length_natBytes]
  unfold isWitnessProgram hogAddrScript
  rw [show (0x58 :: 32 :: Hash.vec hash).length = 34 from hlen]
  rfl

theorem isMWEBHogAddr_hogAddrScript (hash : Hash) :
    isMWEBHogAddr (hogAddrScript hash) = some hash := by
  unfold isMWEBHogAddr mwebProgram
  rw [isWitnessProgram_hogAddrScript]
  dsimp only
  rw [if_pos ⟨rfl, length_natBytes 32 _⟩, hashOfBytes_vec]

theorem isMWEBPegin_hogAddrScript (hash : Hash) : isMWEBPegin (hogAddrScript hash) = none := by
  unfold isMWEBPegin mwebProgram
  rw [isWitnessProgram_hogAddrScript]
  exact if_neg fun h => absurd h.1 (by decide)

/-- The amounts of the kernels of a transaction that was validated are in range. -/
theorem inRange_of_validate {tx : Transaction} (h : tx.validate crypto = .ok ()) :
    ∀ kernel ∈ tx.body.kernels, kernel.InRange := by
  obtain ⟨-, h⟩ := seq_eq_ok_iff.mp h
  obtain ⟨hsums, -⟩ := seq_eq_ok_iff.mp h
  obtain ⟨supply_change, hamount, -⟩ := bind_eq_ok_iff.mp hsums
  unfold getAmountOrThrow at hamount
  split at hamount
  · rename_i amount hsome
    exact (TxBody.getSupplyChange_eq_some_iff.mp hsome).1
  · cases hamount

/-! ## One transaction -/

/-- What a transaction of the memory pool is: it was checked, is neither a coinbase nor a HogEx, and
has a limited size. -/
structure MempoolTx (crypto : NodeCrypto) (tx : CTransaction) : Prop where
  checked : Node.checkTransaction crypto tx = .ok ()
  notCoinBase : tx.isCoinBase = false
  notHogEx : tx.m_hogEx = false
  size : tx.vout.length ≤ 2 ^ 32

theorem validate_of_checkTransaction (h : Node.checkTransaction crypto tx = .ok ())
    (hmweb : tx.mweb_tx = some mweb_tx) :
    mweb_tx.validate crypto = .ok () := by
  obtain ⟨tx_pegins, -, h⟩ := bind_eq_ok_iff.mp h
  obtain ⟨-, h⟩ := seq_eq_ok_iff.mp h
  obtain ⟨-, h⟩ := seq_eq_ok_iff.mp h
  rw [hmweb] at h
  dsimp only at h
  rcases hvalid : mweb_tx.validate crypto with e | u
  · rw [hvalid] at h
    cases h
  · rfl

/-- The pegin outputs of a transaction that was checked are those of its kernels. -/
theorem peginCoins_perm (h : Node.checkTransaction crypto tx = .ok ()) :
    (Node.peginCoins tx).Perm (attachedPegIns tx) := by
  have hnodup' : (attachedPegIns tx).Nodup := by
    unfold attachedPegIns
    rcases hmweb : tx.mweb_tx with _ | mweb_tx
    · exact nodup_nil
    · have hvalid := validTx_of_validate (isOk_iff.mpr ⟨(), validate_of_checkTransaction h hmweb⟩)
      have hids : (mweb_tx.body.getPegIns.map (·.kernelID)).Nodup := by
        rw [TxBody.getPegIns, map_map]
        exact hvalid.kernelIds.sublist (filter_sublist.map _)
      exact hids.of_map
  obtain ⟨tx_pegins, hamounts, h⟩ := bind_eq_ok_iff.mp h
  obtain ⟨hsize, h⟩ := seq_eq_ok_iff.mp h
  obtain ⟨hfound, -⟩ := seq_eq_ok_iff.mp h
  have hholds : HoldsCoins tx_pegins (Node.peginCoins tx) :=
    (HoldsCoins.empty.foldlM_insert _ _).of_ok hamounts
  rw [reject_eq_ok_iff, decide_eq_false_iff_not, not_not, hholds.size] at hsize
  have hsub : attachedPegIns tx ⊆ Node.peginCoins tx := by
    intro pegin hpegin
    have hget := forM_eq_ok_iff.mp hfound pegin hpegin
    rwa [reject_eq_ok_iff, decide_eq_false_iff_not, not_not, hholds.get] at hget
  exact ((hnodup'.subperm hsub).perm_of_length_le hsize.ge).symm

/-- The values of the pegin outputs. -/
theorem map_nValue_filter_isPegInOutput (tx : CTransaction) :
    ((tx.vout.filter Miner.isPegInOutput).map (·.nValue)) = (peginCoins tx).map (·.amount) := by
  unfold peginCoins Miner.isPegInOutput
  rw [map_filterMap, ← filterMap_eq_map, filterMap_filter]
  refine filterMap_congr fun out _ => ?_
  cases isMWEBPegin out.scriptPubKey <;> rfl

/-- The inputs of the HogEx are the pegin outputs of the transaction. -/
theorem map_outpoint_peginInputs (hsize : tx.vout.length ≤ 2 ^ 32) :
    ((Miner.peginInputs tx).map fun txin => outpoint txin.prevout) = tx.pegins := by
  unfold Miner.peginInputs pegins Miner.isPegInOutput
  rw [map_map]
  refine map_congr_left fun out hmem => ?_
  have hidx : out.2 < tx.vout.length := (mem_zipIdx' (mem_filter.mp hmem).1).1
  show (tx.hash, (UInt32.ofNat out.2).toNat) = (tx.hash, out.2)
  rw [UInt32.toNat_ofNat', Nat.mod_eq_of_lt (by omega)]

theorem foldlM_addAmount_eq_ok {l : List Int} (h : l.foldlM Miner.addAmount total = .ok total') :
    total' = total + l.sum ∧ ∀ amount ∈ l, 0 ≤ amount ∧ amount ≤ maxMoney := by
  induction l generalizing total with
  | nil =>
    rw [sum_nil, add_zero]
    exact ⟨(ok.inj h).symm, fun _ hmem => absurd hmem not_mem_nil⟩
  | cons amount l ih =>
    obtain ⟨total1, hstep, h⟩ := bind_eq_ok_iff.mp h
    unfold Miner.addAmount at hstep
    simp only [seq_eq_ok_iff, reject_eq_ok_iff, Bool.not_eq_false', moneyRange_iff] at hstep
    obtain ⟨hamount, -, hstep⟩ := hstep
    rw [← ok.inj hstep] at h
    obtain ⟨hsum, hall⟩ := ih h
    refine ⟨?_, forall_mem_cons.mpr ⟨hamount, hall⟩⟩
    rw [hsum, sum_cons, add_assoc]

/-- The fees of the attached kernels. -/
def attachedFees (tx : CTransaction) : Int :=
  match tx.mweb_tx with
  | some mweb_tx => mweb_tx.body.fees
  | none => 0

/-- What a transaction adds to the amount, as the miner counts it. -/
def minedChange (tx : CTransaction) : Int :=
  ((Node.peginCoins tx).map (·.amount)).sum -
    ((tx.attachedPegOuts.map (·.amount)).sum + attachedFees tx)

/-- A pegout as an output of the HogEx. -/
def pegoutOutput (pegout : PegOutCoin) : CTxOut := ⟨pegout.amount, pegout.scriptPubKey⟩

/-- What `AddMWEBTransaction` has checked and noted when it returns `true`. -/
theorem addMWEBTransaction_eq_ok {crypto : BuilderCrypto} {miner miner' : Miner}
    (hmweb : tx.mweb_tx = some mweb_tx)
    (h : miner.addMWEBTransaction crypto tx mweb_tx = .ok miner') :
    miner.mweb_builder.addTransaction crypto mweb_tx mweb_tx.body.getPegIns =
      .ok miner'.mweb_builder ∧
      miner'.mweb_amount_change = miner.mweb_amount_change + minedChange tx ∧
      miner'.hogex_inputs = miner.hogex_inputs ++ Miner.peginInputs tx ∧
      miner'.hogex_outputs = miner.hogex_outputs ++ tx.attachedPegOuts.map pegoutOutput ∧
      (∀ coin ∈ peginCoins tx, 0 ≤ coin.amount ∧ coin.amount ≤ maxMoney) ∧
      ∀ pegout ∈ tx.attachedPegOuts, 0 ≤ pegout.amount ∧ pegout.amount ≤ maxMoney := by
  have hpegouts : tx.attachedPegOuts = mweb_tx.body.getPegOuts := by
    unfold attachedPegOuts
    rw [hmweb]
  have hfees : attachedFees tx = mweb_tx.body.fees := by
    unfold attachedFees
    rw [hmweb]
  obtain ⟨-, h⟩ := seq_eq_ok_iff.mp h
  obtain ⟨pegin_amount, hpegin, h⟩ := bind_eq_ok_iff.mp h
  obtain ⟨pegout_amount, hpegout, h⟩ := bind_eq_ok_iff.mp h
  obtain ⟨tx_fee, hfee, h⟩ := bind_eq_ok_iff.mp h
  obtain ⟨mweb_builder, hadd, h⟩ := bind_eq_ok_iff.mp h
  rw [← ok.inj h]
  obtain ⟨hpeginSum, hpeginRange⟩ := foldlM_addAmount_eq_ok hpegin
  obtain ⟨hpegoutSum, hpegoutRange⟩ := foldlM_addAmount_eq_ok hpegout
  rw [map_nValue_filter_isPegInOutput] at hpeginSum hpeginRange
  have hfeeSum : tx_fee = mweb_tx.body.fees := by
    unfold Miner.checkFee at hfee
    split at hfee
    · cases hfee
    · rename_i fee hsome
      obtain ⟨-, hfee⟩ := seq_eq_ok_iff.mp hfee
      rw [← ok.inj hfee]
      exact (foldlM_addMoney_eq_some_iff.mp hsome).2
  refine ⟨hadd, ?_, rfl, ?_, ?_, ?_⟩
  · rw [hpeginSum, hpegoutSum, hfeeSum, zero_add, zero_add, minedChange, hpegouts, hfees]
  · rw [hpegouts]
    rfl
  · exact fun coin hmem => hpeginRange _ (mem_map_of_mem hmem)
  · rw [hpegouts]
    exact fun pegout hmem => hpegoutRange _ (mem_map_of_mem hmem)

/-! ## All transactions -/

/-- The part of a transaction that goes into the block. -/
def canonicalPart (tx : CTransaction) : CTransaction := { tx with mweb_tx := none }

/-- The parts of transactions that go into the block: those with Mimblewimble data alone have none.
-/
def canonicalParts (txs : List CTransaction) : List CTransaction :=
  (txs.filter fun tx => !tx.isMWEBOnly).map canonicalPart

/-- What the block and the miner have after some transactions. -/
structure Assembled (height : Int) (view : CoinsView) (block : CBlock) (txs : List CTransaction)
    (assembler : BlockAssembler) : Prop where
  staged : assembler.mweb_miner.mweb_builder.Staged height view
  stagedTxs : assembler.mweb_miner.mweb_builder.stagedTxs = txs.filterMap (·.mweb_tx)
  block_eq : assembler.block = { block with vtx := block.vtx ++ canonicalParts txs }
  inputs : (assembler.mweb_miner.hogex_inputs.map fun txin => Node.outpoint txin.prevout) =
    txs.flatMap CTransaction.pegins
  outputs : assembler.mweb_miner.hogex_outputs =
    (txs.flatMap CTransaction.attachedPegOuts).map pegoutOutput
  change : assembler.mweb_miner.mweb_amount_change = (txs.map minedChange).sum
  peginRange : ∀ coin ∈ txs.flatMap Node.peginCoins, 0 ≤ coin.amount ∧ coin.amount ≤ maxMoney
  pegoutRange : ∀ pegout ∈ txs.flatMap CTransaction.attachedPegOuts,
    0 ≤ pegout.amount ∧ pegout.amount ≤ maxMoney

theorem assembled_nil (height : Int) (view : CoinsView) (block : CBlock) :
    Assembled height view block [] ⟨block, Miner.newBlock height view⟩ where
  staged := BlockBuilder.staged_new height view
  stagedTxs := rfl
  block_eq := by
    rw [canonicalParts, filter_nil, map_nil, append_nil]
  inputs := rfl
  outputs := rfl
  change := rfl
  peginRange _ h := absurd h not_mem_nil
  pegoutRange _ h := absurd h not_mem_nil

/-- A transaction without Mimblewimble data that was checked has no pegins. -/
theorem pegins_eq_nil (h : peginCoins tx = []) : tx.pegins = [] := by
  unfold pegins
  rw [map_eq_nil_iff, filter_eq_nil_iff]
  intro out hmem hpegin
  obtain ⟨kernel_id, hkernel⟩ := Option.isSome_iff_exists.mp hpegin
  have hcoin : (⟨out.1.nValue, kernel_id⟩ : PegInCoin) ∈ peginCoins tx := by
    refine mem_filterMap.mpr ⟨out.1, fst_mem_of_mem_zipIdx hmem, ?_⟩
    rw [hkernel]
    rfl
  rw [h] at hcoin
  exact absurd hcoin not_mem_nil

theorem canonicalParts_append (txs : List CTransaction) (tx : CTransaction) :
    canonicalParts (txs ++ [tx]) =
      canonicalParts txs ++ if tx.isMWEBOnly then [] else [canonicalPart tx] := by
  unfold canonicalParts
  rw [filter_append, filter_singleton, map_append]
  cases tx.isMWEBOnly <;> rfl

theorem Assembled.addToBlock {crypto : BuilderCrypto} {assembler' : BlockAssembler}
    {entry : MempoolEntry}
    (h : Assembled height view block txs assembler) (htx : MempoolTx crypto.toNodeCrypto entry.tx)
    (hok : assembler.addToBlock crypto entry = .ok assembler') :
    Assembled height view block (txs ++ [entry.tx]) assembler' := by
  -- Each part of the state grows by what the transaction adds.
  have hconcat : ∀ {β : Type} (f : CTransaction → List β),
      (txs ++ [entry.tx]).flatMap f = txs.flatMap f ++ f entry.tx := by
    intro β f
    rw [flatMap_append, flatMap_singleton]
  have hsum : ((txs ++ [entry.tx]).map minedChange).sum = (txs.map minedChange).sum +
      minedChange entry.tx := by
    rw [map_append, sum_append, map_singleton, sum_singleton]
  unfold BlockAssembler.addToBlock at hok
  rcases hmweb : entry.tx.mweb_tx with _ | mweb_tx
  · -- Nothing but the block changes, since the transaction has no pegins.
    rw [hmweb] at hok
    rw [← ok.inj hok]
    have hcoins : peginCoins entry.tx = [] := by
      have hperm := peginCoins_perm htx.checked
      unfold attachedPegIns at hperm
      rw [hmweb] at hperm
      exact hperm.eq_nil
    have hpegouts : entry.tx.attachedPegOuts = [] := by
      unfold attachedPegOuts
      rw [hmweb]
    have hchange : minedChange entry.tx = 0 := by
      unfold minedChange attachedFees
      rw [hcoins, hpegouts, hmweb]
      rfl
    have honly : entry.tx.isMWEBOnly = false := by
      unfold isMWEBOnly hasMWEBTx
      rw [hmweb]
      rfl
    refine ⟨h.staged, ?_, ?_, ?_, ?_, ?_, ?_, ?_⟩
    · rw [filterMap_append, ← h.stagedTxs]
      simp [hmweb]
    · rw [BlockAssembler.appendTx, h.block_eq, canonicalParts_append, honly, ← append_assoc]
      rfl
    · rw [hconcat, pegins_eq_nil hcoins, append_nil]
      exact h.inputs
    · rw [hconcat, hpegouts, append_nil]
      exact h.outputs
    · rw [hsum, hchange, add_zero]
      exact h.change
    · rw [hconcat, hcoins, append_nil]
      exact h.peginRange
    · rw [hconcat, hpegouts, append_nil]
      exact h.pegoutRange
  · rw [hmweb] at hok
    obtain ⟨miner, hadd, hok⟩ := bind_eq_ok_iff.mp hok
    obtain ⟨hbuilder, hchange, hinputs, houtputs, hpeginRange, hpegoutRange⟩ :=
      addMWEBTransaction_eq_ok hmweb hadd
    have hminer : assembler'.mweb_miner = miner := by
      split_ifs at hok
      · rw [← ok.inj hok]
      · obtain ⟨-, hok⟩ := seq_eq_ok_iff.mp hok
        rw [← ok.inj hok]
    have hblock : assembler'.block =
        { block with vtx := block.vtx ++ canonicalParts (txs ++ [entry.tx]) } := by
      rw [canonicalParts_append]
      split_ifs at hok ⊢ with honly
      · rw [← ok.inj hok, append_nil]
        exact h.block_eq
      · obtain ⟨-, hok⟩ := seq_eq_ok_iff.mp hok
        rw [← ok.inj hok, ← append_assoc]
        rw [BlockAssembler.appendTx, h.block_eq]
        rfl
    rw [← hminer] at hbuilder hchange hinputs houtputs
    refine ⟨h.staged.addTransaction hbuilder, ?_, hblock, ?_, ?_, ?_, ?_, ?_⟩
    · obtain ⟨-, -, -, -, heq⟩ := BlockBuilder.addTransaction_eq_ok hbuilder
      rw [heq, filterMap_append]
      rw [h.stagedTxs]
      simp [hmweb]
    · rw [hinputs, map_append, h.inputs, map_outpoint_peginInputs htx.size, hconcat]
    · rw [houtputs, h.outputs, hconcat, map_append]
    · rw [hchange, h.change, hsum]
    · rw [hconcat]
      exact fun coin hmem => (mem_append.mp hmem).elim (h.peginRange coin) (hpeginRange coin)
    · rw [hconcat]
      exact fun pegout hmem => (mem_append.mp hmem).elim (h.pegoutRange pegout)
        (hpegoutRange pegout)

/-- What the block and the miner have after calls of `AddToBlock` that all returned `true`. -/
theorem assembled_of_run {crypto : BuilderCrypto} {entries : List MempoolEntry}
    (htxs : ∀ entry ∈ entries, MempoolTx crypto.toNodeCrypto entry.tx)
    (hrun : entries.foldlM (BlockAssembler.addToBlock crypto)
      ⟨block, Miner.newBlock height view⟩ = .ok assembler) :
    Assembled height view block (entries.map (·.tx)) assembler := by
  refine Ensures.foldlM_ok (P := fun (done : List MempoolEntry) (assembler : BlockAssembler) =>
    Assembled height view block (done.map (·.tx)) assembler) hrun (assembled_nil height view block)
    fun done assembler entry assembler' hmem h hstep => ?_
  rw [map_append, map_singleton]
  exact h.addToBlock (htxs entry hmem) hstep

/-! ## The checks of the completed block -/

/-- The checks of the HogEx, of the order of pegins, of the matching of pegins and pegouts and of
amounts in `ContextualCheckBlock` and `ConnectBlock`. -/
structure HogExChecks (prev : PrevIndex) (block : CBlock) (mweb_block : Block) : Prop where
  unexpectedPegins : Node.checkUnexpectedPegins block = .ok ()
  markers : Node.checkMarkers block = .ok ()
  hogAddr : Node.checkHogAddr block mweb_block = .ok ()
  height : Node.checkHeight prev mweb_block = .ok ()
  pegins : Node.checkPegins prev block = .ok ()
  peginCoins : validatePegInCoins mweb_block.body (Node.blockPegins block) = .ok ()
  pegoutCoins : validatePegOutCoins mweb_block.body (Node.hogexPegouts block) = .ok ()
  hogexInput : Node.checkHogExInput prev block = .ok ()
  amounts : Node.checkAmounts prev block mweb_block.body = .ok ()

section Shape

variable {block : CBlock} {coinbase hogex : CTransaction} {txs : List CTransaction}
  (hvtx : block.vtx = coinbase :: txs ++ [hogex])

include hvtx

theorem lastTx_eq : block.lastTx = hogex := by
  unfold CBlock.lastTx
  rw [hvtx, getLastD_eq_getLast?, getLast?_append, getLast?_singleton]
  rfl

theorem middleTxs_eq : block.middleTxs = txs := by
  unfold CBlock.middleTxs
  rw [hvtx, cons_append, tail_cons, dropLast_concat]

/-- No pegin is where it is not expected if the HogEx has none. -/
theorem checkUnexpectedPegins_eq_ok_iff (hcoinbase : coinbase.hasPegin = false)
    (htxs : ∀ tx ∈ txs, tx.isCoinBase = false ∧ tx.m_hogEx = false) (hmark : hogex.m_hogEx) :
    checkUnexpectedPegins block = .ok () ↔ hogex.hasPegin = false := by
  unfold checkUnexpectedPegins
  rw [reject_eq_ok_iff, hvtx, any_append, any_cons, hcoinbase, Bool.and_false, Bool.false_or]
  have hmiddle : (txs.any fun tx => (tx.isCoinBase || tx.m_hogEx) && tx.hasPegin) = false := by
    rw [any_eq_false]
    intro tx hmem
    rw [(htxs tx hmem).1, (htxs tx hmem).2]
    exact Bool.false_ne_true
  rw [hmiddle, Bool.false_or, any_cons, any_nil, Bool.or_false, hmark, Bool.or_true, Bool.true_and]

/-- The last transaction is marked, and no other. -/
theorem checkMarkers_eq_ok (hcoinbase : coinbase.m_hogEx = false)
    (htxs : ∀ tx ∈ txs, tx.isCoinBase = false ∧ tx.m_hogEx = false) (hmark : hogex.m_hogEx) :
    checkMarkers block = .ok () := by
  unfold checkMarkers
  rw [seq_eq_ok_iff, reject_eq_ok_iff, reject_eq_ok_iff, lastTx_eq hvtx, hmark, hvtx,
    dropLast_concat,
    any_cons, hcoinbase, Bool.false_or, any_eq_false]
  refine ⟨rfl, fun tx hmem => ?_⟩
  rw [(htxs tx hmem).2]
  exact Bool.false_ne_true

end Shape

/-! ## The completed block -/

/-- What is found transaction by transaction, and not without outputs, is found in the parts that go
into the block. -/
theorem flatMap_canonicalParts {β : Type} {g : CTransaction → List β}
    (hg : ∀ tx, g (canonicalPart tx) = g tx) (hnil : ∀ tx : CTransaction, tx.vout = [] → g tx = [])
    (txs : List CTransaction) : (canonicalParts txs).flatMap g = txs.flatMap g := by
  induction txs with
  | nil => rfl
  | cons tx txs ih =>
    unfold canonicalParts at ih ⊢
    rw [filter_cons, flatMap_cons]
    split_ifs with honly
    · rw [map_cons, flatMap_cons, ih, hg]
    · rw [Bool.not_eq_true, Bool.not_eq_false', isMWEBOnly, Bool.and_eq_true] at honly
      rw [ih, hnil tx (isEmpty_iff.mp honly.2), nil_append]

theorem flatMap_filterMap_eq {β γ : Type} (g : α → Option β) (f : β → List γ) (l : List α) :
    (l.filterMap g).flatMap f = l.flatMap fun a => ((g a).map f).getD [] := by
  induction l with
  | nil => rfl
  | cons a l ih =>
    rw [flatMap_cons, ← ih]
    rcases hg : g a with _ | b
    · rw [filterMap_cons_none hg]
      rfl
    · rw [filterMap_cons_some hg, flatMap_cons]
      rfl

/-- The ids that the attached transaction spends. -/
def attachedSpentIds (tx : CTransaction) : List Hash :=
  match tx.mweb_tx with
  | some mweb_tx => mweb_tx.body.inputs.map (·.outputID)
  | none => []

/-- What a list of transactions needs on top of what the miner checks. -/
structure Minable (prev : PrevIndex) (txs : List CTransaction) : Prop where
  /-- No pegout is a pegin. -/
  pegoutScripts : ∀ tx ∈ txs, ∀ pegout ∈ tx.attachedPegOuts, isMWEBPegin pegout.scriptPubKey = none
  /-- No two pegins have the same kernel. -/
  peginKernels : ((txs.flatMap Node.peginCoins).map (·.kernelID)).Nodup
  /-- The pegins leave the amount in range, before anything is taken off. -/
  inputs : prev.mweb_amount + ((txs.flatMap Node.peginCoins).map (·.amount)).sum ≤ maxMoney

theorem sum_map_minedChange (txs : List CTransaction) :
    (txs.map minedChange).sum =
      (txs.map fun tx => ((peginCoins tx).map (·.amount)).sum).sum -
        (txs.map fun tx => (tx.attachedPegOuts.map (·.amount)).sum).sum -
        (txs.map attachedFees).sum := by
  induction txs with
  | nil => rfl
  | cons tx txs ih =>
    simp only [map_cons, sum_cons, ih]
    rw [minedChange]
    ring

section Attached

variable {txs : List CTransaction} {body : TxBody}
  (hbody : Aggregates (txs.filterMap (·.mweb_tx)) body)

include hbody

/-- The kernels of the block are those of the transactions. -/
theorem kernels_perm : body.kernels.Perm (txs.flatMap fun tx =>
    ((tx.mweb_tx.map (·.body.kernels)).getD [])) := by
  have h := hbody.kernels
  rwa [flatMap_filterMap_eq] at h

theorem getPegIns_perm : body.getPegIns.Perm (txs.flatMap attachedPegIns) := by
  have h := ((kernels_perm hbody).filter (·.pegin.isSome)).map fun kernel =>
    (⟨kernel.getPegIn, kernel.hash⟩ : PegInCoin)
  rw [filter_flatMap, map_flatMap] at h
  refine h.trans (List.Perm.of_eq (flatMap_congr fun tx _ => ?_))
  unfold attachedPegIns
  cases tx.mweb_tx <;> rfl

theorem getPegOuts_perm : body.getPegOuts.Perm (txs.flatMap attachedPegOuts) := by
  have h := (kernels_perm hbody).flatMap_right (·.pegouts)
  rw [flatMap_assoc] at h
  refine h.trans (List.Perm.of_eq (flatMap_congr fun tx _ => ?_))
  unfold attachedPegOuts
  cases tx.mweb_tx <;> rfl

theorem fees_eq : body.fees = (txs.map attachedFees).sum := by
  unfold TxBody.fees
  rw [((kernels_perm hbody).map (·.getFee)).sum_eq, map_flatMap, flatMap_def, sum_flatten, map_map]
  refine congrArg sum (map_congr_left fun tx _ => ?_)
  rw [Function.comp_apply]
  unfold attachedFees
  cases tx.mweb_tx <;> rfl

/-- The pegin outputs of transactions that were checked are the pegins of the block. -/
theorem flatMap_peginCoins_perm (htxs : ∀ tx ∈ txs, MempoolTx crypto tx) :
    (txs.flatMap peginCoins).Perm body.getPegIns :=
  (List.Perm.flatMap_left txs fun tx hmem => peginCoins_perm (htxs tx hmem).checked).trans
    (getPegIns_perm hbody).symm

/-- The miner's count of the change is the supply change of the block. -/
theorem sum_minedChange (htxs : ∀ tx ∈ txs, MempoolTx crypto tx) :
    (txs.map minedChange).sum = body.supplyChange := by
  have hflat : ∀ {α : Type} (f : CTransaction → List α) (g : α → Int),
      ((txs.flatMap f).map g).sum = (txs.map fun tx => ((f tx).map g).sum).sum := by
    intro α f g
    rw [map_flatMap, flatMap_def, sum_flatten, map_map]
    rfl
  unfold TxBody.supplyChange
  rw [← ((flatMap_peginCoins_perm hbody htxs).map (·.amount)).sum_eq,
    ((getPegOuts_perm hbody).map (·.amount)).sum_eq, fees_eq hbody, hflat, hflat,
    sum_map_minedChange]

end Attached

/-- A HogEx with these inputs passes the checks of inputs. -/
theorem checkInputs_eq_ok
    (h : hogexInputs block = (if prev.isMWEBEnabledBefore then [(prev.hogex_hash, 0)] else []) ++
      block.middleTxs.flatMap pegins) :
    checkPegins prev block = .ok () ∧ checkHogExInput prev block = .ok () := by
  constructor
  · rw [checkPegins_eq_ok_iff, h]
    rcases prev.isMWEBEnabledBefore with _ | _
    · exact ⟨nofun, rfl⟩
    · exact ⟨fun _ => cons_ne_nil _ _, rfl⟩
  · unfold checkHogExInput
    rw [reject_eq_ok_iff]
    rcases hbefore : prev.isMWEBEnabledBefore with _ | _
    · rfl
    · rw [hbefore] at h
      unfold hogexInputs at h
      rcases hvin : block.lastTx.vin with _ | ⟨txin, vin⟩
      · rw [hvin] at h
        cases h
      · rw [hvin, map_cons] at h
        have hfirst := (cons.inj h).1
        unfold outpoint at hfirst
        obtain ⟨hhash, hn⟩ := Prod.mk.inj hfirst
        have hzero : txin.prevout.n = 0 := UInt32.toNat_inj.mp hn
        rw [map_cons, headD_cons, hhash, hzero]
        simp

/-- The HogEx that the miner makes has no pegin if no pegout is one. -/
theorem hasPegin_hogex_iff {hogex : CTransaction} {nValue : Int} {hash : Hash}
    (hvout : hogex.vout = ⟨nValue, hogAddrScript hash⟩ :: pegouts.map pegoutOutput) :
    hogex.hasPegin = false ↔ ∀ pegout ∈ pegouts, isMWEBPegin pegout.scriptPubKey = none := by
  unfold hasPegin
  rw [hvout, any_cons, isMWEBPegin_hogAddrScript, Option.isSome_none, Bool.false_or, any_eq_false]
  simp only [mem_map, forall_exists_index, and_imp, forall_apply_eq_imp_iff₂, Bool.not_eq_true,
    Option.isSome_eq_false_iff, Option.isNone_iff_eq_none]
  rfl

/-- A block with the canonical parts of transactions and the HogEx and extension block for them. -/
structure Completes (crypto : NodeCrypto) (prev : PrevIndex) (coinbase : CTransaction)
    (txs : List CTransaction) (block : CBlock) (mweb_block : Block) : Prop where
  vtx : block.vtx = coinbase :: canonicalParts txs ++ [block.lastTx]
  mark : block.lastTx.m_hogEx
  inputs : Node.hogexInputs block =
    (if prev.isMWEBEnabledBefore then [(prev.hogex_hash, 0)] else []) ++
    txs.flatMap CTransaction.pegins
  vout : block.lastTx.vout = ⟨prev.mweb_amount + mweb_block.body.supplyChange,
    hogAddrScript mweb_block.header.hash⟩ :: (txs.flatMap CTransaction.attachedPegOuts).map
      pegoutOutput
  height : mweb_block.header.height = prev.nHeight + 1
  body : Aggregates (txs.filterMap (·.mweb_tx)) mweb_block.body
  mempool : ∀ tx ∈ txs, MempoolTx crypto tx
  peginRange : ∀ coin ∈ txs.flatMap Node.peginCoins, 0 ≤ coin.amount ∧ coin.amount ≤ maxMoney
  range : 0 ≤ prev.mweb_amount + mweb_block.body.supplyChange ∧
    prev.mweb_amount + mweb_block.body.supplyChange ≤ maxMoney

namespace Completes

variable {crypto : NodeCrypto} {prev : PrevIndex} {coinbase : CTransaction}
  {txs : List CTransaction}
  {block : CBlock} {mweb_block : Block} (h : Completes crypto prev coinbase txs block mweb_block)

include h

theorem blockPegins : Node.blockPegins block = txs.flatMap Node.peginCoins := by
  unfold Node.blockPegins
  rw [middleTxs_eq h.vtx]
  refine flatMap_canonicalParts (fun _ => rfl) (fun tx hnil => ?_) txs
  rw [Node.peginCoins, hnil]
  rfl

theorem hogexPegouts : Node.hogexPegouts block = txs.flatMap attachedPegOuts := by
  unfold Node.hogexPegouts
  rw [h.vout, tail_cons, map_map]
  exact map_id _

theorem peginCoins_perm : (txs.flatMap peginCoins).Perm mweb_block.body.getPegIns :=
  flatMap_peginCoins_perm h.body h.mempool

theorem parts : ∀ tx ∈ canonicalParts txs, tx.isCoinBase = false ∧ tx.m_hogEx = false := by
  intro tx hmem
  obtain ⟨tx', hmem', rfl⟩ := mem_map.mp hmem
  have hpool := h.mempool tx' (mem_filter.mp hmem').1
  exact ⟨hpool.notCoinBase, hpool.notHogEx⟩

theorem kernels : ∀ kernel ∈ mweb_block.body.kernels, kernel.InRange := by
  intro kernel hmem
  obtain ⟨tx, htx, hkernel⟩ := mem_flatMap.mp ((kernels_perm h.body).mem_iff.mp hmem)
  rcases hmweb : tx.mweb_tx with _ | mweb_tx
  · rw [hmweb] at hkernel
    exact absurd hkernel not_mem_nil
  · rw [hmweb] at hkernel
    exact inRange_of_validate (validate_of_checkTransaction (h.mempool tx htx).checked hmweb)
      kernel hkernel

/-- The fee of the HogEx is the fee of the kernels. -/
theorem hogexFee : prev.mweb_amount + ((Node.blockPegins block).map (·.amount)).sum -
    (block.lastTx.vout.map (·.nValue)).sum = mweb_block.body.fees := by
  have hpegins := (h.peginCoins_perm.map (·.amount)).sum_eq
  have hpegouts := ((getPegOuts_perm h.body).map (·.amount)).sum_eq
  have hvout : (block.lastTx.vout.map (·.nValue)).sum = prev.mweb_amount +
      mweb_block.body.supplyChange +
      ((txs.flatMap attachedPegOuts).map (·.amount)).sum := by
    rw [h.vout, map_cons, sum_cons, map_map]
    rfl
  rw [hvout, h.blockPegins, hpegins, TxBody.supplyChange, ← hpegouts]
  omega

/-- The checks of the completed block. -/
theorem checks_iff (hcoinbase : coinbase.hasPegin = false ∧ coinbase.m_hogEx = false)
    (hprev : 0 ≤ prev.mweb_amount ∧ prev.mweb_amount ≤ maxMoney) :
    HogExChecks prev block mweb_block ↔ Minable prev txs := by
  have hunexpected := (checkUnexpectedPegins_eq_ok_iff h.vtx hcoinbase.1 h.parts h.mark).trans
    (hasPegin_hogex_iff h.vout)
  have hamounts : Node.checkAmounts prev block mweb_block.body = .ok () ↔ prev.mweb_amount +
      ((txs.flatMap Node.peginCoins).map (·.amount)).sum ≤ maxMoney := by
    have hfirst : hogexAmount block = prev.mweb_amount + mweb_block.body.supplyChange := by
      rw [hogexAmount, h.vout]
      rfl
    rw [← h.blockPegins]
    refine checkAmounts_eq_ok_iff hprev ?_ (fun k hk => (h.kernels k hk).nonneg) ?_ ?_ ?_ hfirst
    · rw [h.vout]
      exact cons_ne_nil _ _
    · rw [h.blockPegins]
      exact h.peginCoins_perm
    · rw [h.hogexPegouts]
      exact (getPegOuts_perm h.body).symm
    · rw [hfirst]
      exact h.range.1
  have hcoins : validatePegInCoins mweb_block.body (Node.blockPegins block) = .ok () ↔
      ((txs.flatMap Node.peginCoins).map (·.kernelID)).Nodup := by
    rw [validatePegInCoins_eq_ok_iff, h.blockPegins]
    exact ⟨(·.1), fun hnodup => ⟨hnodup, h.peginCoins_perm⟩⟩
  constructor
  · intro hchecks
    refine ⟨fun tx htx pegout hmem => ?_, hcoins.mp hchecks.peginCoins, hamounts.mp hchecks.amounts⟩
    exact hunexpected.mp hchecks.unexpectedPegins pegout (mem_flatMap.mpr ⟨tx, htx, hmem⟩)
  · intro hminable
    have hinputs : Node.checkPegins prev block = .ok () ∧
        Node.checkHogExInput prev block = .ok () := by
      apply checkInputs_eq_ok
      rw [h.inputs, middleTxs_eq h.vtx, flatMap_canonicalParts (g := pegins) (fun _ => rfl)]
      intro tx hnil
      rw [pegins, hnil]
      rfl
    refine ⟨hunexpected.mpr fun pegout hmem => ?_,
      checkMarkers_eq_ok h.vtx hcoinbase.2 h.parts h.mark,
      ?_, ?_, hinputs.1, hcoins.mpr hminable.peginKernels, ?_, hinputs.2,
        hamounts.mpr hminable.inputs⟩
    · obtain ⟨tx, htx, hpegout⟩ := mem_flatMap.mp hmem
      exact hminable.pegoutScripts tx htx pegout hpegout
    · unfold Node.checkHogAddr
      rw [h.vout, headD_cons, isMWEBHogAddr_hogAddrScript]
      simp [reject]
    · unfold Node.checkHeight
      rw [reject_eq_ok_iff, h.height]
      simp
    · rw [validatePegOutCoins_eq_ok_iff, h.hogexPegouts]
      exact (getPegOuts_perm h.body).symm

end Completes

/-- Transactions that were checked and do not spend the same are staged without a double spend. -/
theorem nodup_spentIds (htxs : ∀ tx ∈ txs, MempoolTx crypto tx)
    (hconflict : txs.Pairwise fun tx tx' => (attachedSpentIds tx).Disjoint (attachedSpentIds tx')) :
    (spentIds (txs.filterMap (·.mweb_tx))).Nodup := by
  have hids : (fun tx : CTransaction => ((tx.mweb_tx.map fun mweb_tx =>
      mweb_tx.body.inputs.map (·.outputID)).getD [])) = attachedSpentIds := by
    funext tx
    unfold attachedSpentIds
    cases tx.mweb_tx <;> rfl
  unfold spentIds
  rw [flatMap_filterMap_eq, hids, nodup_flatMap]
  refine ⟨fun tx hmem => ?_, hconflict⟩
  unfold attachedSpentIds
  rcases hmweb : tx.mweb_tx with _ | mweb_tx
  · exact nodup_nil
  · exact (validTx_of_validate (isOk_iff.mpr
      ⟨(), validate_of_checkTransaction (htxs tx hmem).checked hmweb⟩)).spentIds

open BlockAssembler in
/-- The miner completes a block from what it has noted. -/
theorem Assembled.addHogExTransaction_ok {crypto : BuilderCrypto} (getHash : CTransaction → Uint256)
    {coinbase : CTransaction} (h : Assembled (prev.nHeight + 1) view block txs assembler)
    (hview : view.Bijective) (hblind : crypto.AddsFactors)
    (hvtx : block.vtx = [coinbase]) (hheader : mweb_header.isSome = prev.isMWEBEnabledBefore)
    (hbefore : prev.isMWEBEnabledBefore = false → prev.mweb_amount = 0)
    (htxs : ∀ tx ∈ txs, MempoolTx crypto.toNodeCrypto tx)
    (hspent : (spentIds (txs.filterMap (·.mweb_tx))).Nodup)
    (hbalance : moneyRange (prev.mweb_amount + (txs.map minedChange).sum)) :
    ∃ completed mweb_block,
      addHogExTransaction crypto getHash mweb_header prev assembler = .ok completed ∧
      completed.mweb_block = some mweb_block ∧
      Completes crypto.toNodeCrypto prev coinbase txs completed mweb_block := by
  rw [← h.stagedTxs] at hspent
  obtain ⟨mweb_block, -, -, hbuild, hbody, hheight, -, -, -, -, -, -⟩ :=
    h.staged.buildBlock_ok hview hblind hspent
  rw [h.stagedTxs] at hbody
  -- What the miner counted is the supply change of the block.
  have hchange := sum_minedChange hbody htxs
  rw [hchange] at hbalance
  have hvalue : (if mweb_header.isSome then prev.mweb_amount else 0) +
      assembler.mweb_miner.mweb_amount_change = prev.mweb_amount +
        mweb_block.body.supplyChange := by
    rw [h.change, hchange, hheader]
    rcases henabled : prev.isMWEBEnabledBefore with _ | _
    · rw [if_neg Bool.false_ne_true, hbefore henabled]
    · rfl
  let hogex := hogExTransaction getHash
    ((if mweb_header.isSome then [spendingInput prev.hogex_hash 0] else []) ++
      assembler.mweb_miner.hogex_inputs)
    (⟨(if mweb_header.isSome then prev.mweb_amount else 0) +
      assembler.mweb_miner.mweb_amount_change,
      hogAddrScript mweb_block.header.hash⟩ :: assembler.mweb_miner.hogex_outputs)
  let completed : CBlock := { assembler.block with
    vtx := assembler.block.vtx ++ [hogex]
    mweb_block := some mweb_block }
  have hshape : completed.vtx = coinbase :: canonicalParts txs ++ [hogex] := by
    show assembler.block.vtx ++ [hogex] = _
    rw [h.block_eq]
    rw [hvtx, singleton_append]
  have hlast : completed.lastTx = hogex := lastTx_eq hshape
  refine ⟨completed, mweb_block, ?_, rfl, ⟨?_, ?_, ?_, ?_, hheight, hbody, htxs, h.peginRange,
    (moneyRange_iff _).mp hbalance⟩⟩
  · unfold addHogExTransaction
    dsimp only
    rw [hbuild]
    refine seq_eq_ok_iff.mpr ⟨?_, rfl⟩
    rw [reject_eq_ok_iff, hvalue, hbalance]
    rfl
  · rw [hlast, hshape]
  · rw [hlast]
    rfl
  · unfold hogexInputs
    rw [hlast]
    show map _ (_ ++ _) = _
    rw [map_append, h.inputs, hheader]
    cases prev.isMWEBEnabledBefore <;> rfl
  · rw [hlast, ← hvalue, ← h.outputs]
    rfl

open BlockAssembler in
/-- The miner completes a block from transactions of the memory pool that do not spend the same,
with a HogEx whose first output is the amount before the block and the supply change and whose fee
is that of the kernels. It passes all checks of the HogEx if and only if no pegout is a pegin, no
two pegins have the same kernel, and the pegins leave the amount in range. -/
theorem addHogExTransaction_passes_iff {crypto : BuilderCrypto} {getHash : CTransaction → Uint256}
    {view : CoinsView} {block : CBlock} {coinbase : CTransaction} {entries : List MempoolEntry}
    {assembler : BlockAssembler} {mweb_header : Option Header} {prev : PrevIndex}
    (hview : view.Bijective) (hblind : crypto.AddsFactors)
    (hvtx : block.vtx = [coinbase])
    (hcoinbase : coinbase.hasPegin = false ∧ coinbase.m_hogEx = false)
    (hheader : mweb_header.isSome = prev.isMWEBEnabledBefore)
    (hprev : 0 ≤ prev.mweb_amount ∧ prev.mweb_amount ≤ maxMoney)
    (hbefore : prev.isMWEBEnabledBefore = false → prev.mweb_amount = 0)
    (htxs : ∀ entry ∈ entries, MempoolTx crypto.toNodeCrypto entry.tx)
    (hconflict : (entries.map (·.tx)).Pairwise fun tx tx' =>
      (attachedSpentIds tx).Disjoint (attachedSpentIds tx'))
    (hrun : entries.foldlM (addToBlock crypto) ⟨block, Miner.newBlock (prev.nHeight + 1) view⟩ =
      .ok assembler)
    (hbalance : moneyRange (prev.mweb_amount + ((entries.map (·.tx)).map minedChange).sum)) :
    ∃ completed mweb_block,
      addHogExTransaction crypto getHash mweb_header prev assembler = .ok completed ∧
      completed.mweb_block = some mweb_block ∧
      Node.hogexAmount completed = prev.mweb_amount + mweb_block.body.supplyChange ∧
      prev.mweb_amount + ((Node.blockPegins completed).map (·.amount)).sum -
        (completed.lastTx.vout.map (·.nValue)).sum = mweb_block.body.fees ∧
      (HogExChecks prev completed mweb_block ↔ Minable prev (entries.map (·.tx))) := by
  have h := assembled_of_run htxs hrun
  have hmempool := forall_mem_map.mpr htxs
  obtain ⟨completed, mweb_block, hok, hmweb, hcompletes⟩ :=
    h.addHogExTransaction_ok getHash hview hblind hvtx
    hheader hbefore hmempool (nodup_spentIds hmempool hconflict) hbalance
  refine ⟨completed, mweb_block, hok, hmweb, ?_, hcompletes.hogexFee,
    hcompletes.checks_iff hcoinbase hprev⟩
  unfold hogexAmount
  rw [hcompletes.vout, headD_cons]

/-! ## A pegout to a pegin script -/

/-- A transaction that spends the one coin of `oneCoin` and pays out to a script. -/
def pegoutTx (script : CScript) : CTransaction where
  vin := []
  vout := []
  nVersion := 2
  nLockTime := 0
  mweb_tx := some ⟨.zero, .zero, [plainInput 5], [],
    [⟨0, some 1, none, [⟨7, script⟩], none, none, [], Commitment.zero, Bytes.zero 64, 1⟩]⟩
  m_hogEx := false
  hash := 3
  m_witness_hash := 3

/-- A coinbase that pays to an empty script. -/
def plainCoinbase : CTransaction :=
  ⟨[spendingInput 0 0xFFFFFFFF], [⟨50, []⟩], 1, 0, none, false, 1, 1⟩

/-- A block template with nothing but a coinbase. -/
def plainTemplate : CBlock := ⟨⟨1, 0, 0, 0, 0, 0⟩, [plainCoinbase], false, none⟩

/-- A block index with ten coins in the extension block. -/
def tenCoins : PrevIndex := ⟨1, 0, true, true, 99, 10⟩

open BlockAssembler BlockBuilder in
/-- A block with a pegout to an ordinary script passes. -/
theorem addHogExTransaction_passes_pegout : ∃ assembler completed mweb_block,
    [⟨pegoutTx [0x51], 1, 0⟩].foldlM (addToBlock plainBuilderCrypto)
      ⟨plainTemplate, Miner.newBlock 2 oneCoin⟩ = .ok assembler ∧
    addHogExTransaction plainBuilderCrypto (fun _ => 4)
      (some (plainHeader 1 [5] [])) tenCoins assembler = .ok completed ∧
    HogExChecks tenCoins completed mweb_block := by
  have hrun : Returns ([⟨pegoutTx [0x51], 1, 0⟩].foldlM (addToBlock plainBuilderCrypto)
      ⟨plainTemplate, Miner.newBlock 2 oneCoin⟩) fun _ => True := by decide +kernel
  obtain ⟨assembler, hok, -⟩ := hrun.exists_ok
  have hpool : ∀ entry ∈ [(⟨pegoutTx [0x51], 1, 0⟩ : MempoolEntry)],
      MempoolTx plainBuilderCrypto.toNodeCrypto entry.tx :=
    forall_mem_singleton.mpr ⟨by decide +kernel, rfl, rfl, by decide⟩
  have hheader : (some (plainHeader 1 [5] [])).isSome = tenCoins.isMWEBEnabledBefore := rfl
  obtain ⟨completed, mweb_block, hcompleted, -, -, -, hpasses⟩ :=
    addHogExTransaction_passes_iff bijective_oneCoin (fun _ _ => ⟨_, rfl⟩) rfl
      ⟨by decide, rfl⟩ hheader (by decide) nofun hpool (pairwise_singleton _ _) hok
      (by decide +kernel)
  refine ⟨assembler, completed, mweb_block, hok, hcompleted, hpasses.mpr ⟨?_, by decide, by decide⟩⟩
  intro tx htx pegout hpegout
  rw [mem_singleton.mp htx] at hpegout
  rw [mem_singleton.mp hpegout]
  decide

open BlockAssembler BlockBuilder in
/-- A transaction with a pegout to a pegin script is checked and taken into the block, and then the
HogEx has a pegin. -/
theorem addHogExTransaction_unexpected_pegin :
    Node.checkTransaction plainCrypto (pegoutTx (0x59 :: 32 :: List.replicate 32 1)) = .ok () ∧
    Returns (do
      let assembler ← ([⟨pegoutTx (0x59 :: 32 :: List.replicate 32 1), 1, 0⟩].foldlM
        (addToBlock plainBuilderCrypto) ⟨plainTemplate, Miner.newBlock 2 oneCoin⟩).mapError
          fun _ => Fault.assertion
      addHogExTransaction plainBuilderCrypto (fun _ => 4)
        (some (plainHeader 1 [5] [])) tenCoins assembler)
      fun completed => Node.hogexAmount completed = 2 ∧ Node.checkUnexpectedPegins completed =
        .error (blockConsensus "bad-tx-unexpected-pegin" "Pegin found in coinbase or HogEx") := by
  decide +kernel

end DefcoinCore.Mweb
