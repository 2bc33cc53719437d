import DefcoinCore.Mweb.CoinsViewCache

/-!
# The builder of extension blocks

`mw::BlockBuilder` takes transactions one by one and builds a block from those that it took.
`AddTransaction` checks each on its own and against the view and the outputs that are staged;
`BuildNextBlock` aggregates the staged transactions and computes the roots from a cache over the
view.

What is staged fits together, but for three things that no check looks at: an input may be spent by
two staged transactions (the check for that is commented out), a kernel may be in two of them, and
the inputs are not counted. A block is built that passes the checks of `mw::Block::Validate` and
`ApplyBlockChanges` if none of this happens (`buildBlock_passes_iff`).
-/

namespace DefcoinCore.Mweb

open List CoinsView Except BlindingFactor

/-! ## The code -/

/-- What the builder needs of the elliptic curve and of hashing. -/
structure BuilderCrypto extends NodeCrypto where
  /-- `Pedersen::AddCommitments`: the sum of the first ones minus the sum of the others. -/
  addCommitments : List Commitment → List Commitment → Except String Commitment
  /-- `Header::GetHash`, from the other fields. -/
  hashHeader : Header → Hash

/-- Blinding factors can always be added. -/
abbrev NodeCrypto.AddsFactors (crypto : NodeCrypto) : Prop :=
  ∀ positive negative, ∃ factor, crypto.addBlindingFactors positive negative = .ok factor

/-- `Commitment()`. -/
def Commitment.zero : Commitment := Bytes.zero 33

/-- `KernelSumValidator::ValidateForTx`. -/
def validateForTx (crypto : NodeCrypto) (tx : Transaction) : Except String Unit := do
  let supply_change ← getAmountOrThrow tx.body.getSupplyChange
  crypto.validateSums (tx.body.inputs.map (·.commitment))
    (tx.body.outputs.map (·.commitment))
    (tx.body.kernels.map (·.excess)) tx.kernelOffset supply_change

/-- `mw::Transaction::Validate`. -/
def Transaction.validate (crypto : NodeCrypto) (tx : Transaction) : Except String Unit := do
  (tx.body.validate crypto.toCrypto).mapError (throwValidation "Validate")
  validateForTx crypto tx
  reject (!crypto.validateStealthSums tx.stealthOffset tx.body)
    (throwValidation "Validate" .stealthSums)

/-- `std::sort`. Items that are alike to the comparison may come in any order; they stay in theirs.
-/
def sort {α : Type} (comp : α → α → Bool) (l : List α) : List α :=
  l.insertionSort fun a b => comp b a = false

/-- `mw::Transaction::Create`. -/
def Transaction.create (kernel_offset stealth_offset : BlindingFactor) (inputs : List Input)
    (outputs : List Output) (kernels : List Kernel) : Transaction :=
  ⟨kernel_offset, stealth_offset,
    ⟨sort inputSort inputs, sort outputSort outputs, sort kernelSort kernels⟩⟩

/-- `Aggregation::Aggregate`. -/
def aggregate (crypto : NodeCrypto) : List Transaction → Except String Transaction
  | [] => .ok ⟨zero, zero, ⟨[], [], []⟩⟩
  | [tx] => .ok tx
  | transactions => do
    let kernel_offset ← crypto.addBlindingFactors (transactions.map (·.kernelOffset)) []
    let stealth_offset ← crypto.addBlindingFactors (transactions.map (·.stealthOffset)) []
    pure (Transaction.create kernel_offset stealth_offset (transactions.flatMap (·.body.inputs))
      (transactions.flatMap (·.body.outputs)) (transactions.flatMap (·.body.kernels)))

/-- The total offset after a block with a given offset. -/
def nextOffset (crypto : NodeCrypto) (bestHeader : Option Header) (offset : BlindingFactor) :
    Except String BlindingFactor :=
  match bestHeader with
  | none => .ok offset
  | some header => crypto.addBlindingFactors [header.kernelOffset, offset] []

/-- The header of a block with the given transaction, over the view that it leads to. -/
def nextHeader (crypto : BuilderCrypto) (height : Int) (kernel_offset : BlindingFactor)
    (tx : Transaction) (leaves : List Hash) (leafSet : LeafSet) : Header :=
  let header : Header := {
    height := height
    outputRoot := outputRoot crypto.toNodeCrypto leaves
    kernelRoot := kernelRoot crypto.toCrypto tx.body.kernels
    leafsetRoot := leafSet.root crypto.toNodeCrypto
    kernelOffset := kernel_offset
    stealthOffset := tx.stealthOffset
    outputMMRSize := leaves.length
    kernelMMRSize := tx.body.kernels.length
    hash := 0 }
  { header with hash := crypto.hashHeader header }

/-- An input is spent without a look at what it says of its output. -/
def CoinsView.spend (view : CoinsView) (input : Input) : Except String CoinsView :=
  (view.spendUTXO input.outputID).map Prod.snd

/-- `CoinsViewCache::BuildNextBlock`, on what the cache presents. -/
def CoinsView.buildNextBlock (crypto : BuilderCrypto) (height : Int) (view : CoinsView)
    (transactions : List Transaction) : Except String Block := do
  let tx ← aggregate crypto.toNodeCrypto transactions
  let added ← tx.body.outputs.foldlM (addUTXO height) view
  let spent ← tx.body.inputs.foldlM spend added
  let kernel_offset ← nextOffset crypto.toNodeCrypto spent.bestHeader tx.kernelOffset
  pure ⟨nextHeader crypto height kernel_offset tx spent.outputPMMR spent.leafSet, tx.body⟩

/-- `CoinsViewCache::BuildNextBlock`. -/
def CoinsViewCache.buildNextBlock (base : View) (crypto : BuilderCrypto) (height : Int)
    (c : CoinsViewCache) (transactions : List Transaction) : Except Fault Block := do
  let tx ← (aggregate crypto.toNodeCrypto transactions).mapError .exception
  let added ← tx.body.outputs.foldlM (addUTXO base height) c
  let spent ← tx.body.inputs.foldlM
    (fun c input => (c.spendUTXO base input.outputID).map Prod.snd) added
  let kernel_offset ← (nextOffset crypto.toNodeCrypto spent.bestHeader tx.kernelOffset).mapError
    .exception
  pure ⟨nextHeader crypto height kernel_offset tx (spent.present base).outputPMMR
    (spent.present base).leafSet, tx.body⟩

/-- `mw::BlockBuilder`. Its cache is never written to and presents the view below it. -/
structure BlockBuilder where
  height : Int
  weight : Nat
  view : CoinsView
  stagedTxs : List Transaction
  stagedOutputs : List Hash

/-- Why a transaction is not staged. -/
inductive Refusal where
  /-- `AddTransaction` returns `false`. -/
  | returnsFalse
  | assertion
  deriving DecidableEq

namespace BlockBuilder

/-- The constructor. -/
def new (height : Int) (view : CoinsView) : BlockBuilder := ⟨height, 0, view, [], []⟩

/-- The checks that the given pegins are those of the transaction. -/
def checkPegInCoins (body : TxBody) (pegins : List PegInCoin) : Except Refusal Unit := do
  reject (body.getPegInAmount ≠ some (pegins.map (·.amount)).sum) .returnsFalse
  reject (!decide (pegins.map (·.kernelID)).Nodup) .returnsFalse
  reject (body.getPegIns.length ≠ pegins.length) .returnsFalse
  reject (!body.getPegIns.all fun coin => pegins.any fun pegin => pegin.kernelID = coin.kernelID)
    .returnsFalse

/-- The check that the staged inputs and outputs do not cancel out. -/
def checkCommitments (crypto : BuilderCrypto) (builder : BlockBuilder) (tx : Transaction) :
    Except Refusal Unit :=
  let txs := tx :: builder.stagedTxs
  match crypto.addCommitments
    (txs.flatMap fun tx => tx.body.inputs.map (·.commitment))
    (txs.flatMap fun tx => tx.body.outputs.map (·.commitment)) with
  | .error _ => .error .returnsFalse
  | .ok commit => reject (commit = Commitment.zero) .assertion

/-- The output is on the chain or staged. -/
def hasOutput (builder : BlockBuilder) (output_id : Hash) : Bool :=
  (builder.view.utxos output_id).isSome || decide (output_id ∈ builder.stagedOutputs)

/-- An output is staged. The source asserts that it was not. -/
def stageOutput (stagedOutputs : List Hash) (output : Output) : Except Refusal (List Hash) :=
  if output.hash ∈ stagedOutputs then .error .assertion else .ok (stagedOutputs ++ [output.hash])

/-- `BlockBuilder::AddTransaction`. -/
def addTransaction (crypto : BuilderCrypto) (builder : BlockBuilder) (tx : Transaction)
    (pegins : List PegInCoin) : Except Refusal BlockBuilder := do
  reject (tx.body.weight + builder.weight > 200000) .returnsFalse
  checkPegInCoins tx.body pegins
  reject (!(tx.validate crypto.toNodeCrypto).isOk) .returnsFalse
  builder.checkCommitments crypto tx
  reject (!tx.body.inputs.all fun input => builder.hasOutput input.outputID) .returnsFalse
  reject (tx.body.outputs.any fun output => builder.hasOutput output.hash) .returnsFalse
  let stagedOutputs ← tx.body.outputs.foldlM stageOutput builder.stagedOutputs
  pure { builder with
    weight := builder.weight + tx.body.weight
    stagedTxs := builder.stagedTxs ++ [tx]
    stagedOutputs := stagedOutputs }

/-- A call of `AddTransaction`: if it returns `false`, nothing has changed. A failed assertion ends
the program. -/
def call (crypto : BuilderCrypto) (builder : BlockBuilder) (args : Transaction × List PegInCoin) :
    Except Refusal BlockBuilder :=
  match builder.addTransaction crypto args.1 args.2 with
  | .ok builder => .ok builder
  | .error .returnsFalse => .ok builder
  | .error .assertion => .error .assertion

/-- `BlockBuilder::BuildBlock`. -/
def buildBlock (crypto : BuilderCrypto) (builder : BlockBuilder) : Except String Block :=
  builder.view.buildNextBlock crypto builder.height builder.stagedTxs

end BlockBuilder

/-! ## The cache builds what its view builds -/

variable {α : Type} {crypto : NodeCrypto}

/-- A cache builds the block that the view it presents builds, or throws where that does. -/
theorem CoinsViewCache.Presents.buildNextBlock_refines {base : View} {c : CoinsViewCache}
    {view : CoinsView}
    (h : Presents base c view) (crypto : BuilderCrypto) (height : Int)
    (transactions : List Transaction) :
    Refines (fun block block' => block = block') IsException
      (c.buildNextBlock base crypto height transactions)
      (view.buildNextBlock crypto height transactions) := by
  refine (refines_exception _).bind fun tx _ heq => ?_
  subst heq
  refine (Refines.foldlM (fun _ _ output hr => hr.addUTXO_refines height output)
    tx.body.outputs h).bind fun added added' hadded => ?_
  refine (Refines.foldlM (fun _ _ input hr => (hr.spendUTXO_refines input.outputID).map _ _
    fun _ _ hr => hr.2) tx.body.inputs hadded).bind fun spent spent' hspent => ?_
  have hheader : spent.bestHeader = spent'.bestHeader := by
    rw [← hspent.eq]
    rfl
  rw [hheader, hspent.eq]
  exact (refines_exception _).bind fun offset _ heq => by rw [heq]; rfl

/-! ## Order -/

/-- A list sorted by keys is sorted. -/
theorem isSorted_sort {β : Type} [LinearOrder β] {comp : α → α → Bool} {key : α → β}
    (hcomp : ∀ a b, comp a b = decide (key a < key b)) (l : List α) :
    isSorted comp (sort comp l) := by
  have hle : ∀ a b, comp b a = false ↔ key a ≤ key b := by
    intro a b
    rw [hcomp, decide_eq_false_iff_not, not_lt]
  have : Std.Total fun a b => comp b a = false :=
    ⟨fun a b => by rw [hle, hle]; exact le_total _ _⟩
  have : IsTrans α fun a b => comp b a = false :=
    ⟨fun a b c => by rw [hle, hle, hle]; exact le_trans⟩
  exact decide_eq_true (pairwise_insertionSort _ l).isChain

theorem decide_lt_eq (a b : Hash) : decide (a < b) = decide (a.toNat < b.toNat) := by
  rw [decide_eq_decide, BitVec.lt_def]

theorem sort_perm (comp : α → α → Bool) (l : List α) : (sort comp l).Perm l :=
  perm_insertionSort _ l

/-- What `KernelSort` compares: kernels without a supply change are last, and high changes first. -/
def kernelKey (kernel : Kernel) : ℕ ×ₗ ℤ ×ₗ ℕ :=
  match kernel.getSupplyChange with
  | some supply_change => toLex (0, toLex (-supply_change, kernel.hash.toNat))
  | none => toLex (1, toLex (0, kernel.hash.toNat))

theorem kernelSort_eq (a b : Kernel) : kernelSort a b = decide (kernelKey a < kernelKey b) := by
  unfold kernelSort kernelKey
  rcases a.getSupplyChange with _ | x
  · rcases b.getSupplyChange with _ | y
    · simp [Prod.Lex.toLex_lt_toLex, BitVec.lt_def]
    · simp [Prod.Lex.toLex_lt_toLex]
  · rcases b.getSupplyChange with _ | y
    · simp [Prod.Lex.toLex_lt_toLex]
    · simp [Prod.Lex.toLex_lt_toLex, BitVec.lt_def]

/-! ## What a block has to pass -/

/-- The checks of `mw::Block::Validate` but those of signatures, proofs and sums, and of lock
heights. -/
structure Structural (crypto : Crypto) (block : Block) : Prop where
  limits : block.body.exceedsMaximum = false
  inputs : isSorted inputSort block.body.inputs
  outputs : isSorted outputSort block.body.outputs
  kernels : isSorted kernelSort block.body.kernels
  spentIds : (block.body.inputs.map (·.outputID)).Nodup
  outputIds : (block.body.outputs.map (·.hash)).Nodup
  kernelIds : (block.body.kernels.map (·.hash)).Nodup
  kernelMMRSize : block.header.kernelMMRSize = block.body.kernels.length
  kernelRoot : block.header.kernelRoot = kernelRoot crypto block.body.kernels

namespace CoinsView

/-- The checks of `ApplyBlockChanges` but those of sums: the outputs are new, the inputs are there,
and the header has the roots and the size that they lead to. -/
def StateApplies (crypto : NodeCrypto) (allow_historical_metadata_mismatch : Bool)
    (view : CoinsView) (block : Block) : Prop :=
  ∃ added coinsSpent spent,
    block.body.outputs.foldlM (addUTXO block.header.height)
      { view with bestHeader := some block.header } = .ok added ∧
    block.body.inputs.foldlM (spendInput allow_historical_metadata_mismatch) ([], added) =
      .ok (coinsSpent, spent) ∧
    spent.matchesHeader crypto block.header

variable {allow : Bool} {view : CoinsView}

variable {inputs : List Input} {outputs : List Output} {input : Input} {utxo : UTXO}

/-! ## Changes that go through -/

/-- Outputs that are new and differ can be added. -/
theorem foldlM_addUTXO_ok (header_height : Int) (view : CoinsView) (outputs : List Output)
    (hnodup : (outputs.map (·.hash)).Nodup)
    (hfresh : ∀ output ∈ outputs, view.utxos output.hash = none) :
    outputs.foldlM (addUTXO header_height) view = .ok (outputs.foldl (put header_height) view) := by
  induction outputs generalizing view with
  | nil => rfl
  | cons output outputs ih =>
    rw [map_cons, nodup_cons] at hnodup
    rw [forall_mem_cons] at hfresh
    rw [foldlM_cons, addUTXO_eq_ok_iff.mpr ⟨hfresh.1, rfl⟩, ok_bind, foldl_cons]
    apply ih _ hnodup.2
    intro output' hmem
    rw [utxos_put_of_ne, hfresh.2 output' hmem]
    intro heq
    exact hnodup.1 (heq ▸ mem_map_of_mem hmem)

/-- The best header makes no difference to what is added. -/
theorem foldl_put_setBestHeader (header_height : Int) (header : Option Header)
    (outputs : List Output) (view : CoinsView) :
    outputs.foldl (put header_height) { view with bestHeader := header } =
      { outputs.foldl (put header_height) view with bestHeader := header } :=
  foldl_hom (fun view : CoinsView => { view with bestHeader := header }) fun _ _ => rfl

/-- The best header makes no difference to what is spent. -/
theorem foldlM_spend_setBestHeader (header : Option Header) {spent : CoinsView}
    (hok : inputs.foldlM spend view = .ok spent) :
    inputs.foldlM spend { view with bestHeader := header } =
      .ok { spent with bestHeader := header } := by
  induction inputs generalizing view with
  | nil =>
    rw [← ok.inj hok]
    rfl
  | cons input inputs ih =>
    obtain ⟨view1, hstep, hok⟩ := bind_eq_ok_iff.mp hok
    have hstep' : spend { view with bestHeader := header } input =
        .ok { view1 with bestHeader := header } := by
      unfold spend at hstep ⊢
      rcases hspend : view.spendUTXO input.outputID with e | ⟨utxo, dropped⟩ <;>
        rw [hspend] at hstep <;> cases hstep
      obtain ⟨hutxo, hbit, rfl⟩ := spendUTXO_eq_ok_iff.mp hspend
      have hspend' : spendUTXO { view with bestHeader := header } input.outputID = .ok (utxo, _) :=
        spendUTXO_eq_ok_iff.mpr ⟨hutxo, hbit, rfl⟩
      rw [hspend']
      rfl
    rw [foldlM_cons, hstep', ok_bind]
    exact ih hok

/-- What was there before or is under another id stays. -/
theorem utxos_foldl_put_of_not_mem {header_height : Int} {output_id : Hash}
    (h : output_id ∉ outputs.map (·.hash)) :
    (outputs.foldl (put header_height) view).utxos output_id = view.utxos output_id := by
  induction outputs generalizing view with
  | nil => rfl
  | cons output outputs ih =>
    rw [map_cons, mem_cons, not_or] at h
    rw [foldl_cons, ih h.2, utxos_put_of_ne h.1]

/-- An output that was added is there. -/
theorem utxos_foldl_put_of_mem (header_height : Int) (view : CoinsView) {output : Output}
    (hnodup : (outputs.map (·.hash)).Nodup) (hmem : output ∈ outputs) :
    ∃ leafIdx, (outputs.foldl (put header_height) view).utxos output.hash =
      some ⟨header_height, leafIdx, output⟩ := by
  induction outputs generalizing view with
  | nil => exact absurd hmem not_mem_nil
  | cons output' outputs ih =>
    rw [map_cons, nodup_cons] at hnodup
    rw [foldl_cons]
    rcases mem_cons.mp hmem with rfl | hmem
    · exact ⟨_, by rw [utxos_foldl_put_of_not_mem hnodup.1, utxos_put_self]⟩
    · exact ih _ hnodup.2 hmem

/-- What an input says of its output is right, or is not looked at. -/
def InputMatches (allow_historical_metadata_mismatch : Bool) (input : Input)
    (output : Output) : Prop :=
  allow_historical_metadata_mismatch ∨
    (output.commitment = input.commitment ∧ output.receiverPubKey = input.outputPubKey)

theorem checkInput_some_eq_ok_iff :
    checkInput allow input (some utxo) = .ok () ↔ InputMatches allow input utxo.output := by
  unfold checkInput InputMatches
  rw [reject_eq_ok_iff, Bool.and_eq_false_iff, Bool.not_eq_false', Bool.or_eq_false_iff,
    decide_eq_false_iff_not, not_not, decide_eq_false_iff_not, not_not]

/-- Inputs that differ can be spent if each has its output. -/
theorem foldlM_spendInput_ok (hview : Bijective view) (coins : List UTXO)
    (hnodup : (inputs.map (·.outputID)).Nodup)
    (hfound : ∀ input ∈ inputs, ∃ utxo, view.utxos input.outputID = some utxo ∧
      InputMatches allow input utxo.output) :
    ∃ coinsSpent spent, inputs.foldlM (spendInput allow) (coins, view) = .ok (coinsSpent, spent) ∧
      inputs.foldlM spend view = .ok spent := by
  induction inputs generalizing view coins with
  | nil => exact ⟨coins, view, rfl, rfl⟩
  | cons input inputs ih =>
    rw [map_cons, nodup_cons] at hnodup
    rw [forall_mem_cons] at hfound
    obtain ⟨utxo, hutxo, hmatch⟩ := hfound.1
    have hspend : view.spendUTXO input.outputID = .ok (utxo, view.drop input.outputID utxo) :=
      spendUTXO_eq_ok_iff.mpr ⟨hutxo, hview.bit hutxo, rfl⟩
    have hstep : spendInput allow (coins, view) input =
        .ok (coins ++ [utxo], view.drop input.outputID utxo) := by
      unfold spendInput
      rw [hutxo, checkInput_some_eq_ok_iff.mpr hmatch, ok_bind, hspend]
      rfl
    have hstep' : view.spend input = .ok (view.drop input.outputID utxo) := by
      unfold spend
      rw [hspend]
      rfl
    rw [foldlM_cons, foldlM_cons, hstep, hstep', ok_bind, ok_bind]
    refine ih (hview.drop hutxo) _ hnodup.2 fun input' hmem => ?_
    obtain ⟨utxo', hutxo', hmatch'⟩ := hfound.2 input' hmem
    refine ⟨utxo', ?_, hmatch'⟩
    rw [utxos_drop_of_ne, hutxo']
    intro heq
    exact hnodup.1 (heq ▸ mem_map_of_mem hmem)

/-- The inputs that were spent had their outputs, and said what is right of them. -/
theorem inputMatches_of_foldlM {view' : CoinsView} {coins coinsSpent : List UTXO}
    (hok : inputs.foldlM (spendInput allow) (coins, view) = .ok (coinsSpent, view'))
    (hmem : input ∈ inputs)
    (hutxo : view.utxos input.outputID = some utxo) (hnodup : (inputs.map (·.outputID)).Nodup) :
    InputMatches allow input utxo.output := by
  induction inputs generalizing view coins with
  | nil => exact absurd hmem not_mem_nil
  | cons input' inputs ih =>
    rw [map_cons, nodup_cons] at hnodup
    obtain ⟨⟨coins1, view1⟩, hstep, hok⟩ := bind_eq_ok_iff.mp hok
    obtain ⟨utxo', hfound, -, -, rfl⟩ := spendInput_spec hstep
    rcases mem_cons.mp hmem with rfl | hmem
    · unfold spendInput at hstep
      rw [hutxo] at hstep
      exact checkInput_some_eq_ok_iff.mp (seq_eq_ok_iff.mp hstep).1
    · refine ih hok hmem ?_ hnodup.2
      rw [utxos_drop_of_ne, hutxo]
      intro heq
      exact hnodup.1 (heq ▸ mem_map_of_mem hmem)

end CoinsView

/-! ## What is staged -/

/-- What a transaction that was validated has. -/
structure ValidTx (tx : Transaction) : Prop where
  limits : tx.body.exceedsMaximum = false
  inputs : isSorted inputSort tx.body.inputs
  outputs : isSorted outputSort tx.body.outputs
  kernels : isSorted kernelSort tx.body.kernels
  spentIds : (tx.body.inputs.map (·.outputID)).Nodup
  outputIds : (tx.body.outputs.map (·.hash)).Nodup
  kernelIds : (tx.body.kernels.map (·.hash)).Nodup

theorem validTx_of_validate {tx : Transaction} (h : (tx.validate crypto).isOk) : ValidTx tx := by
  obtain ⟨u, hu⟩ := isOk_iff.mp h
  obtain ⟨hbody, -⟩ := seq_eq_ok_iff.mp hu
  rcases hvalid : tx.body.validate crypto.toCrypto with e | u
  · rw [hvalid] at hbody
    cases hbody
  · unfold TxBody.validate at hvalid
    simp only [seq_eq_ok_iff, reject_eq_ok_iff, Bool.or_eq_false_iff, Bool.not_eq_false',
      decide_eq_true_eq] at hvalid
    obtain ⟨hlimits, ⟨⟨hinputs, houtputs⟩, hkernels⟩, hspent, hids, hkernelIds, -⟩ := hvalid
    exact ⟨hlimits, hinputs, houtputs, hkernels, hspent, hids, hkernelIds⟩

variable (txs : List Transaction)

/-- The ids of the outputs of transactions. -/
def outputIds : List Hash :=
  txs.flatMap fun tx => tx.body.outputs.map (·.hash)

/-- The ids that transactions spend. -/
def spentIds : List Hash :=
  txs.flatMap fun tx => tx.body.inputs.map (·.outputID)

/-- The ids of the kernels of transactions. -/
def kernelIds : List Hash :=
  txs.flatMap fun tx => tx.body.kernels.map (·.hash)

/-- Transactions that fit together as far as `AddTransaction` sees to it. -/
structure FitsTogether (view : CoinsView) (txs : List Transaction) : Prop where
  weight : (txs.map (·.body.weight)).sum ≤ 200000
  valid : ∀ tx ∈ txs, ValidTx tx
  outputs : (outputIds txs).Nodup
  fresh : ∀ output_id ∈ outputIds txs, view.utxos output_id = none
  /-- Each input is on the chain or staged. -/
  inputs : ∀ output_id ∈ spentIds txs, (view.utxos output_id).isSome ∨ output_id ∈ outputIds txs

namespace BlockBuilder

/-- The state of a builder on top of a view. -/
structure Staged (height : Int) (view : CoinsView) (builder : BlockBuilder) : Prop where
  height_eq : builder.height = height
  view_eq : builder.view = view
  weight : builder.weight = (builder.stagedTxs.map (·.body.weight)).sum
  stagedOutputs : builder.stagedOutputs = outputIds builder.stagedTxs
  fits : FitsTogether view builder.stagedTxs

variable {tx : Transaction} {pegins : List PegInCoin}

theorem staged_new (height : Int) (view : CoinsView) : Staged height view (new height view) where
  height_eq := rfl
  view_eq := rfl
  weight := rfl
  stagedOutputs := rfl
  fits := ⟨Nat.zero_le _, fun _ h => absurd h not_mem_nil, nodup_nil,
    fun _ h => absurd h not_mem_nil, fun _ h => absurd h not_mem_nil⟩

/-- Outputs that are not staged and differ are staged without a failed assertion. -/
theorem foldlM_stageOutput_ok {staged staged' : List Hash} {outputs : List Output}
    (hok : outputs.foldlM stageOutput staged = .ok staged') :
    staged' = staged ++ outputs.map (·.hash) := by
  induction outputs generalizing staged with
  | nil =>
    rw [map_nil, append_nil]
    exact (ok.inj hok).symm
  | cons output outputs ih =>
    obtain ⟨staged1, hstep, hok⟩ := bind_eq_ok_iff.mp hok
    unfold stageOutput at hstep
    split_ifs at hstep
    rw [ih hok, ← ok.inj hstep, map_cons, append_assoc, singleton_append]

variable {crypto : BuilderCrypto} {height : Int} {view : CoinsView}
  {builder builder' : BlockBuilder}

/-- What a transaction that was staged has passed. -/
theorem addTransaction_eq_ok (hok : builder.addTransaction crypto tx pegins = .ok builder') :
    tx.body.weight + builder.weight ≤ 200000 ∧ ValidTx tx ∧
      (∀ input ∈ tx.body.inputs, builder.hasOutput input.outputID) ∧
      (∀ output ∈ tx.body.outputs, builder.hasOutput output.hash = false) ∧
      builder' = { builder with
        weight := builder.weight + tx.body.weight
        stagedTxs := builder.stagedTxs ++ [tx]
        stagedOutputs := builder.stagedOutputs ++ tx.body.outputs.map fun output =>
            output.hash } := by
  unfold addTransaction at hok
  simp only [seq_eq_ok_iff, reject_eq_ok_iff, decide_eq_false_iff_not, not_lt, gt_iff_lt,
    Bool.not_eq_false', all_eq_true, any_eq_false] at hok
  obtain ⟨hweight, -, hvalid, -, hinputs, houtputs, hok⟩ := hok
  obtain ⟨stagedOutputs, hstage, hok⟩ := bind_eq_ok_iff.mp hok
  refine ⟨hweight, validTx_of_validate hvalid, hinputs,
    fun output hmem => Bool.eq_false_iff.mpr (houtputs output hmem), ?_⟩
  rw [← foldlM_stageOutput_ok hstage]
  exact (ok.inj hok).symm

theorem Staged.addTransaction (h : Staged height view builder)
    (hok : builder.addTransaction crypto tx pegins = .ok builder') :
    Staged height view builder' := by
  obtain ⟨hweight, hvalid, hinputs, houtputs, rfl⟩ := addTransaction_eq_ok hok
  have hids : outputIds (builder.stagedTxs ++ [tx]) =
      outputIds builder.stagedTxs ++ tx.body.outputs.map (·.hash) := by
    simp [outputIds]
  have hspent : spentIds (builder.stagedTxs ++ [tx]) =
      spentIds builder.stagedTxs ++ tx.body.inputs.map (·.outputID) := by
    simp [spentIds]
  have hsum : ((builder.stagedTxs ++ [tx]).map (·.body.weight)).sum =
      builder.weight + tx.body.weight := by
    rw [map_append, sum_append, ← h.weight, map_singleton, sum_singleton]
  -- The new ids are not on the chain and not staged.
  have hnew : ∀ output_id ∈ tx.body.outputs.map (·.hash),
      view.utxos output_id = none ∧ output_id ∉ outputIds builder.stagedTxs := by
    intro output_id hmem
    obtain ⟨output, houtput, rfl⟩ := mem_map.mp hmem
    have hnot := houtputs output houtput
    unfold hasOutput at hnot
    rwa [Bool.or_eq_false_iff, Option.isSome_eq_false_iff, Option.isNone_iff_eq_none,
      decide_eq_false_iff_not, h.view_eq, h.stagedOutputs] at hnot
  refine ⟨h.height_eq, h.view_eq, hsum.symm, ?_, ?_, ?_, ?_, ?_, ?_⟩
  · rw [hids, h.stagedOutputs]
  · rw [hsum]
    omega
  · exact forall_mem_append.mpr ⟨h.fits.valid, forall_mem_singleton.mpr hvalid⟩
  · rw [hids]
    exact h.fits.outputs.append hvalid.outputIds fun output_id hold hmem =>
      (hnew output_id hmem).2 hold
  · rw [hids]
    exact forall_mem_append.mpr ⟨h.fits.fresh, fun output_id hmem => (hnew output_id hmem).1⟩
  · rw [hids, hspent]
    intro output_id hmem
    rw [mem_append]
    rcases mem_append.mp hmem with hmem | hmem
    · exact (h.fits.inputs output_id hmem).imp_right .inl
    · obtain ⟨input, hinput, rfl⟩ := mem_map.mp hmem
      have hhas := hinputs input hinput
      unfold hasOutput at hhas
      rw [Bool.or_eq_true, decide_eq_true_eq, h.view_eq, h.stagedOutputs] at hhas
      exact hhas.imp_right .inl

/-- What is staged after any calls fits together. -/
theorem staged_of_calls {calls : List (Transaction × List PegInCoin)}
    (hrun : calls.foldlM (call crypto) (new height view) = .ok builder) :
      Staged height view builder := by
  refine Ensures.foldlM_ok (P := fun _ => Staged height view) hrun (staged_new height view)
    fun _ builder args builder' _ h hcall => ?_
  unfold call at hcall
  rcases hadd : builder.addTransaction crypto args.1 args.2 with (_ | _) | added <;>
    rw [hadd] at hcall <;> cases hcall
  · exact h
  · exact h.addTransaction hadd

end BlockBuilder

/-! ## The aggregate -/

/-- A body with what is in some transactions, in order. -/
structure Aggregates (txs : List Transaction) (body : TxBody) : Prop where
  inputs : body.inputs.Perm (txs.flatMap (·.body.inputs))
  outputs : body.outputs.Perm (txs.flatMap (·.body.outputs))
  kernels : body.kernels.Perm (txs.flatMap (·.body.kernels))
  inputsSorted : isSorted inputSort body.inputs
  outputsSorted : isSorted outputSort body.outputs
  kernelsSorted : isSorted kernelSort body.kernels

/-- `Aggregate` puts valid transactions together. -/
theorem aggregate_spec (hblind : crypto.AddsFactors)
    {txs : List Transaction} (hvalid : ∀ tx ∈ txs, ValidTx tx) :
    ∃ tx, aggregate crypto txs = .ok tx ∧ Aggregates txs tx.body := by
  match txs with
  | [] => exact ⟨_, rfl, .refl _, .refl _, .refl _, rfl, rfl, rfl⟩
  | [tx] =>
    -- A single transaction is taken as it is; it was checked to be in order.
    have h := hvalid tx mem_cons_self
    refine ⟨tx, rfl, ?_, ?_, ?_, h.inputs, h.outputs, h.kernels⟩
    · rw [flatMap_singleton]
    · rw [flatMap_singleton]
    · rw [flatMap_singleton]
  | tx :: tx' :: txs =>
    obtain ⟨kernel_offset, hkernel⟩ := hblind ((tx :: tx' :: txs).map (·.kernelOffset)) []
    obtain ⟨stealth_offset, hstealth⟩ := hblind ((tx :: tx' :: txs).map (·.stealthOffset)) []
    refine ⟨_, bind_eq_ok_iff.mpr ⟨_, hkernel, bind_eq_ok_iff.mpr ⟨_, hstealth, rfl⟩⟩,
      sort_perm .., sort_perm .., sort_perm .., ?_, ?_, ?_⟩
    · exact isSorted_sort (fun a b => decide_lt_eq a.outputID b.outputID) _
    · exact isSorted_sort (fun a b => decide_lt_eq a.hash b.hash) _
    · exact isSorted_sort kernelSort_eq _

namespace Aggregates

variable {txs : List Transaction} {body : TxBody}

section

variable (h : Aggregates txs body)

include h

theorem map_inputs : (body.inputs.map (·.outputID)).Perm (spentIds txs) := by
  have hperm := h.inputs.map (·.outputID)
  rwa [map_flatMap] at hperm

theorem map_outputs : (body.outputs.map (·.hash)).Perm (outputIds txs) := by
  have hperm := h.outputs.map (·.hash)
  rwa [map_flatMap] at hperm

theorem map_kernels : (body.kernels.map (·.hash)).Perm (kernelIds txs) := by
  have hperm := h.kernels.map (·.hash)
  rwa [map_flatMap] at hperm

/-- The weights add up. -/
theorem weight : body.weight = (txs.map (·.body.weight)).sum := by
  have hsum : ∀ {α : Type} (f : α → Nat) (items : TxBody → List α),
      ((txs.flatMap fun tx => items tx.body).map f).sum =
      (txs.map fun tx => ((items tx.body).map f).sum).sum := by
    intro α f items
    rw [map_flatMap, flatMap_def, sum_flatten, map_map]
    rfl
  unfold TxBody.weight
  rw [(h.inputs.map calcInputWeight).sum_eq, (h.kernels.map calcKernelWeight).sum_eq,
    (h.outputs.map calcOutputWeight).sum_eq, hsum calcInputWeight (·.inputs),
    hsum calcKernelWeight (·.kernels), hsum calcOutputWeight (·.outputs),
    ← sum_map_add, ← sum_map_add]

end

end Aggregates

/-! ## Templates -/

/-- The output of an id, on the chain or in one of the transactions. -/
def CoinOf (view : CoinsView) (txs : List Transaction) (output_id : Hash)
    (output : Output) : Prop :=
  (∃ utxo, view.utxos output_id = some utxo ∧ utxo.output = output) ∨
    ∃ tx ∈ txs, output ∈ tx.body.outputs ∧ output.hash = output_id

namespace FitsTogether

variable {view : CoinsView} {txs : List Transaction} {body : TxBody}

section

variable (h : FitsTogether view txs)

include h

variable {output_id : Hash}

/-- What is spent is an output. -/
theorem exists_coinOf (hmem : output_id ∈ spentIds txs) :
    ∃ output, CoinOf view txs output_id output := by
  rcases h.inputs output_id hmem with hsome | hstaged
  · obtain ⟨utxo, hutxo⟩ := Option.isSome_iff_exists.mp hsome
    exact ⟨utxo.output, .inl ⟨utxo, hutxo, rfl⟩⟩
  · obtain ⟨tx, htx, hmem⟩ := mem_flatMap.mp hstaged
    obtain ⟨output, houtput, heq⟩ := mem_map.mp hmem
    exact ⟨output, .inr ⟨tx, htx, houtput, heq⟩⟩

/-- The outputs of the aggregate can be added. -/
theorem nodup_outputs (hbody : Aggregates txs body) :
    (body.outputs.map (·.hash)).Nodup := hbody.map_outputs.nodup_iff.mpr h.outputs

theorem fresh_outputs (hbody : Aggregates txs body) :
    ∀ output ∈ body.outputs, view.utxos output.hash = none := fun _ hmem =>
  h.fresh _ (hbody.map_outputs.mem_iff.mp (mem_map_of_mem hmem))

/-- The coins are there once the outputs of the aggregate are added. -/
theorem utxos_of_coinOf (hbody : Aggregates txs body) {output : Output}
    (hcoin : CoinOf view txs output_id output) (height : Int) :
    ∃ utxo, (body.outputs.foldl (put height) view).utxos output_id = some utxo ∧
      utxo.output = output := by
  rcases hcoin with ⟨utxo, hutxo, rfl⟩ | ⟨tx, htx, houtput, rfl⟩
  · refine ⟨utxo, ?_, rfl⟩
    rw [utxos_foldl_put_of_not_mem, hutxo]
    -- A new output would not have been on the chain.
    intro hmem
    rw [h.fresh output_id (hbody.map_outputs.mem_iff.mp hmem)] at hutxo
    cases hutxo
  · have hmem : output ∈ body.outputs :=
      hbody.outputs.mem_iff.mpr (mem_flatMap.mpr ⟨tx, htx, houtput⟩)
    obtain ⟨leafIdx, hutxo⟩ := utxos_foldl_put_of_mem height view (h.nodup_outputs hbody) hmem
    exact ⟨_, hutxo, rfl⟩

end

end FitsTogether

/-- What the staged transactions need on top of what `AddTransaction` checks: no input is spent
twice, no kernel is there twice, there are not too many inputs, and where that is looked at, inputs
say what is right of their outputs. -/
structure ConflictFree (allow_historical_metadata_mismatch : Bool) (view : CoinsView)
    (txs : List Transaction) : Prop where
  spent : (spentIds txs).Nodup
  kernels : (kernelIds txs).Nodup
  inputs : (spentIds txs).length ≤ 50000
  metadata : ∀ tx ∈ txs, ∀ input ∈ tx.body.inputs, ∀ output, CoinOf view txs input.outputID output →
    CoinsView.InputMatches allow_historical_metadata_mismatch input output

namespace BlockBuilder

variable {crypto : BuilderCrypto} {height : Int} {view : CoinsView} {builder : BlockBuilder}

/-- A block is built if no input is spent twice. It has what is staged, in order, and the roots and
sizes that this leads to. -/
theorem Staged.buildBlock_ok (h : Staged height view builder) (hview : view.Bijective)
    (hblind : crypto.AddsFactors) (hspent : (spentIds builder.stagedTxs).Nodup) :
    ∃ block added spent, builder.buildBlock crypto = .ok block ∧
      Aggregates builder.stagedTxs block.body ∧
      block.header.height = height ∧ block.header.kernelMMRSize = block.body.kernels.length ∧
      block.header.kernelRoot = kernelRoot crypto.toCrypto block.body.kernels ∧
      added = block.body.outputs.foldl (put height) view ∧ added.Bijective ∧
      block.body.inputs.foldlM spend added = .ok spent ∧
      spent.matchesHeader crypto.toNodeCrypto block.header := by
  obtain ⟨tx, htx, hbody⟩ := aggregate_spec hblind h.fits.valid
  have hadd := foldlM_addUTXO_ok height view tx.body.outputs
    (h.fits.nodup_outputs hbody) (h.fits.fresh_outputs hbody)
  have hadded := added_of_foldlM hview hadd
  obtain ⟨-, spent, -, hspend⟩ := foldlM_spendInput_ok hadded.bijective []
    (hbody.map_inputs.nodup_iff.mpr hspent) fun input hmem => by
      -- Each input has its output, on the chain or among the new ones.
      obtain ⟨output, hcoin⟩ := h.fits.exists_coinOf
        (hbody.map_inputs.mem_iff.mp (mem_map_of_mem hmem))
      obtain ⟨utxo, hutxo, -⟩ := h.fits.utxos_of_coinOf hbody hcoin height
      exact ⟨utxo, hutxo, .inl rfl⟩
  obtain ⟨kernel_offset, hoffset⟩ : ∃ factor,
      nextOffset crypto.toNodeCrypto spent.bestHeader tx.kernelOffset = .ok factor := by
    rcases spent.bestHeader with _ | header
    · exact ⟨_, rfl⟩
    · exact hblind _ _
  refine ⟨⟨nextHeader crypto height kernel_offset tx spent.outputPMMR spent.leafSet, tx.body⟩, _,
    spent, ?_,
    hbody, rfl, rfl, rfl, rfl, hadded.bijective, hspend, ?_⟩
  · unfold buildBlock buildNextBlock
    rw [h.height_eq, h.view_eq, htx, ok_bind, hadd, ok_bind, hspend, ok_bind, hoffset]
    rfl
  · unfold matchesHeader nextHeader
    simp

/-- After any calls of `AddTransaction`, the block that is built from the staged transactions passes
the checks of structure and of state if and only if these do not conflict. -/
theorem buildBlock_passes_iff {calls : List (Transaction × List PegInCoin)} (allow : Bool)
    (hview : view.Bijective) (hblind : crypto.AddsFactors)
    (hrun : calls.foldlM (call crypto) (new height view) = .ok builder) :
    (∃ block, builder.buildBlock crypto = .ok block ∧ Structural crypto.toCrypto block ∧
      view.StateApplies crypto.toNodeCrypto allow block) ↔
        ConflictFree allow view builder.stagedTxs := by
  have h := staged_of_calls hrun
  constructor
  · rintro ⟨block, hblock, hstructural, added, coinsSpent, spent, hadd, hspend, -⟩
    -- The body of the block is the aggregate.
    have hbody : Aggregates builder.stagedTxs block.body := by
      obtain ⟨tx, htx, hbody⟩ := aggregate_spec hblind h.fits.valid
      unfold buildBlock buildNextBlock at hblock
      rw [htx, ok_bind] at hblock
      obtain ⟨added, -, hblock⟩ := bind_eq_ok_iff.mp hblock
      obtain ⟨spent, -, hblock⟩ := bind_eq_ok_iff.mp hblock
      obtain ⟨kernel_offset, -, hblock⟩ := bind_eq_ok_iff.mp hblock
      rw [← ok.inj hblock]
      exact hbody
    refine ⟨hbody.map_inputs.nodup_iff.mp hstructural.spentIds,
      hbody.map_kernels.nodup_iff.mp hstructural.kernelIds, ?_, ?_⟩
    · have hlimits := hstructural.limits
      unfold TxBody.exceedsMaximum at hlimits
      rw [Bool.or_eq_false_iff, decide_eq_false_iff_not, not_lt] at hlimits
      rw [← hbody.map_inputs.length_eq, length_map]
      exact hlimits.1
    · intro tx htx input hinput output hcoin
      have heq := (added_of_foldlM (hview.setBestHeader (some block.header)) hadd).eq
      rw [foldl_put_setBestHeader] at heq
      obtain ⟨utxo, hutxo, rfl⟩ := h.fits.utxos_of_coinOf hbody hcoin block.header.height
      have hmem : input ∈ block.body.inputs :=
        hbody.inputs.mem_iff.mpr (mem_flatMap.mpr ⟨tx, htx, hinput⟩)
      refine inputMatches_of_foldlM hspend hmem ?_ hstructural.spentIds
      rw [heq]
      exact hutxo
  · intro hfree
    obtain ⟨block, added, spent, hblock, hbody, hheight, hsize, hroot, rfl, hbij, hspend,
      hmatches⟩ :=
      h.buildBlock_ok hview hblind hfree.spent
    refine ⟨block, hblock, ⟨?_, hbody.inputsSorted, hbody.outputsSorted, hbody.kernelsSorted,
      hbody.map_inputs.nodup_iff.mpr hfree.spent, h.fits.nodup_outputs hbody,
      hbody.map_kernels.nodup_iff.mpr hfree.kernels, hsize, hroot⟩, ?_⟩
    · unfold TxBody.exceedsMaximum
      have hlen := hbody.map_inputs.length_eq
      rw [length_map] at hlen
      rw [Bool.or_eq_false_iff, decide_eq_false_iff_not, decide_eq_false_iff_not, not_lt,
        not_lt, hlen,
        hbody.weight]
      exact ⟨hfree.inputs, h.fits.weight⟩
    · -- The changes are those that the header was computed from; only the best header differs.
      subst hheight
      have hadd := foldlM_addUTXO_ok block.header.height
        { view with bestHeader := some block.header }
        block.body.outputs (h.fits.nodup_outputs hbody) (h.fits.fresh_outputs hbody)
      rw [foldl_put_setBestHeader] at hadd
      obtain ⟨coinsSpent, spent', hspend', hspend''⟩ := foldlM_spendInput_ok
        (hbij.setBestHeader (some block.header)) []
        (hbody.map_inputs.nodup_iff.mpr hfree.spent) fun input hmem => by
          obtain ⟨tx, htx, hinput⟩ := mem_flatMap.mp (hbody.inputs.mem_iff.mp hmem)
          obtain ⟨output, hcoin⟩ := h.fits.exists_coinOf
            (hbody.map_inputs.mem_iff.mp (mem_map_of_mem hmem))
          obtain ⟨utxo, hutxo, rfl⟩ := h.fits.utxos_of_coinOf hbody hcoin block.header.height
          exact ⟨utxo, hutxo, hfree.metadata tx htx input hinput _ hcoin⟩
      refine ⟨_, coinsSpent, spent', hadd, hspend', ?_⟩
      rw [foldlM_spend_setBestHeader (some block.header) hspend] at hspend''
      rw [← ok.inj hspend'']
      exact hmatches

/-! ## A coin that is spent twice -/

/-- A builder that accepts all signatures, proofs and sums. -/
def plainBuilderCrypto : BuilderCrypto where
  toNodeCrypto := plainCrypto
  addCommitments _ _ := .ok ⟨List.replicate 33 1, List.length_replicate⟩
  hashHeader _ := 0

/-- A view with one unspent output. -/
def oneCoin : CoinsView := CoinsView.empty.put 1 (plainOutput 5)

theorem bijective_oneCoin : oneCoin.Bijective := bijective_empty.put rfl 1

/-- A transaction that spends the output, with a given kernel. -/
def spendOneCoin (kernel_id : Hash) : Transaction where
  kernelOffset := zero
  stealthOffset := zero
  body :=
    { inputs := [plainInput 5]
      outputs := []
      kernels := [⟨0, none, none, [], none, none, [], Commitment.zero, Bytes.zero 64,
        kernel_id⟩] }

/-- Two transactions: the second one spends what the first one creates. -/
def passOn : List Transaction :=
  [{ spendOneCoin 1 with body.outputs := [plainOutput 6] },
    { spendOneCoin 2 with body.inputs := [plainInput 6] }]

/-- A block with both transactions passes. -/
theorem buildBlock_passes_oneCoin : ∃ builder,
    (passOn.map (·, [])).foldlM (call plainBuilderCrypto) (new 2 oneCoin) = .ok builder ∧
    builder.stagedTxs = passOn ∧
    ∃ block, builder.buildBlock plainBuilderCrypto = .ok block ∧
      Structural plainBuilderCrypto.toCrypto block ∧
      oneCoin.StateApplies plainBuilderCrypto.toNodeCrypto false block := by
  have hrun : Returns ((passOn.map (·, [])).foldlM (call plainBuilderCrypto) (new 2 oneCoin))
      fun builder => builder.stagedTxs = passOn := by decide +kernel
  obtain ⟨builder, hok, hstaged⟩ := hrun.exists_ok
  refine ⟨builder, hok, hstaged, ?_⟩
  rw [buildBlock_passes_iff false bijective_oneCoin (fun _ _ => ⟨_, rfl⟩) hok, hstaged]
  refine ⟨by decide, by decide, by decide, ?_⟩
  have hinputs : ∀ tx ∈ passOn, ∀ input ∈ tx.body.inputs, input = plainInput input.outputID := by
    decide
  have houtputs : ∀ tx ∈ passOn, ∀ output ∈ tx.body.outputs, output = plainOutput output.hash := by
    decide
  intro tx htx input hinput output hcoin
  have houtput : output = plainOutput output.hash := by
    rcases hcoin with ⟨utxo, hutxo, rfl⟩ | ⟨tx', htx', hmem, -⟩
    · obtain ⟨-, rfl⟩ : _ = (5 : Hash) ∧ _ = utxo := by
        simpa [oneCoin, put, CoinsView.empty, Function.update_apply, plainOutput] using hutxo
      rfl
    · exact houtputs tx' htx' output hmem
  rw [hinputs tx htx input hinput, houtput]
  exact .inr ⟨rfl, rfl⟩

/-- A cache that has an output of its own and the view that it presents build the same block with
the transactions. -/
theorem buildNextBlock_refines_oneCoin : ∃ c block,
    (CoinsViewCache.new (.db oneCoin)).addUTXO (.db oneCoin) 1 (plainOutput 7) = .ok c ∧
    c.buildNextBlock (.db oneCoin) plainBuilderCrypto 2 passOn = .ok block ∧
    (oneCoin.put 1 (plainOutput 7)).buildNextBlock plainBuilderCrypto 2 passOn = .ok block := by
  have hrun : Returns ((oneCoin.put 1 (plainOutput 7)).buildNextBlock plainBuilderCrypto 2 passOn)
      fun _ => True := by decide +kernel
  obtain ⟨block, hok, -⟩ := hrun.exists_ok
  have hnew : Presents (.db oneCoin) _ oneCoin := Presents.new trivial
  obtain ⟨c, hc, hpresents⟩ := (hnew.addUTXO_refines 1 (plainOutput 7)).ok_of_ok rfl
  obtain ⟨_, hok', rfl⟩ :=
    (CoinsViewCache.Presents.buildNextBlock_refines hpresents ..).ok_of_ok hok
  exact ⟨c, _, hc, hok', hok⟩

/-- Two transactions that spend the same output are both staged, and then no block is built. -/
theorem buildBlock_throws_on_double_spend :
    Returns ([(spendOneCoin 1, []), (spendOneCoin 2, [])].foldlM (call plainBuilderCrypto)
      (new 2 oneCoin)) fun builder => builder.stagedTxs = [spendOneCoin 1, spendOneCoin 2] ∧
        builder.buildBlock plainBuilderCrypto =
          .error "SpendUTXO: Consensus Error: UTXO_MISSING" := by
  decide +kernel

end BlockBuilder

end DefcoinCore.Mweb
