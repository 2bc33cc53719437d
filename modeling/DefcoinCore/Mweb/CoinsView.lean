import DefcoinCore.Lib.PartialMap
import DefcoinCore.Lib.Refines
import DefcoinCore.Mweb.LeafSet
import DefcoinCore.Mweb.Validate

/-!
# Views of the extension block

What a view (`mw::ICoinsView`) presents: the unspent outputs, the leaf set, the leaves of the range
of outputs and the best header, and what applying a block, adding a transaction and taking back a
block do to it. How the caches keep it is in `CoinsViewCache`.

Unspent outputs, set bits and leaves belong together (`Bijective`): the bits of the leaf set are one
to one with the unspent outputs, whose ids are the leaves there. All operations keep this. If the
best header describes the view too (`Described`), then taking back the block that was applied last
restores it (`undoBlock_applyBlock`). A view with transactions from the memory pool is not described
by its header: its header knows nothing of the outputs they added, and taking back a block does not
restore such a view.
-/

namespace DefcoinCore.Mweb

open List LeafSet Bytes

/-! ## Exceptions -/

/-- `ValidationException::ToString`. -/
def EConsensusError.toString : EConsensusError → String
  | .hashMismatch => "HASH_MISMATCH"
  | .duplicates => "DUPLICATES"
  | .blockWeight => "BLOCK_WEIGHT"
  | .blockSums => "BLOCK_SUMS"
  | .amountOutOfRange => "AMOUNT_OUT_OF_RANGE"
  | .stealthSums => "STEALTH_SUMS"
  | .invalidSig => "INVALID_SIG"
  | .bulletproof => "BULLETPROOF"
  | .peginMismatch => "PEGIN_MISMATCH"
  | .pegoutMismatch => "PEGOUT_MISMATCH"
  | .mmrMismatch => "MMR_MISMATCH"
  | .utxoMissing => "UTXO_MISSING"
  | .utxoMismatch => "UTXO_MISMATCH"
  | .notSorted => "NOT_SORTED"
  | .lockHeight => "LOCK_HEIGHT"
  | .badState => "BAD_STATE"

/-- The text of the exception that `ThrowValidation` throws in a function. -/
def throwValidation (function : String) (type : EConsensusError) : String :=
  function ++ ": " ++ ("Consensus Error: " ++ type.toString)

/-! ## The sums of a block -/

/-- The hashes of ranges and leaf sets, and the sums on the elliptic curve. Exceptions are their
texts. -/
structure NodeCrypto extends Crypto where
  /-- The hash of a node of the range of outputs, whose leaves are output ids. -/
  hashOutputNode : Mmr.Input Hash Hash → Hash
  /-- `Hashed`, on bytes. -/
  hashBytes : List UInt8 → Hash
  /-- `Pedersen::AddBlindingFactors`: the sum of the first ones minus the sum of the others. -/
  addBlindingFactors : List BlindingFactor → List BlindingFactor → Except String BlindingFactor
  /-- `KernelSumValidator::ValidateSums`, on the commitments of inputs, outputs and kernels. -/
  validateSums : List Commitment → List Commitment → List Commitment → BlindingFactor → Int →
    Except String Unit

/-- `BlindingFactor()`. -/
def BlindingFactor.zero : BlindingFactor := Bytes.zero 32

variable (crypto : NodeCrypto)

/-- The part of the total offset that is the block's own. -/
def blockOffset (total_offset prev_total_offset : BlindingFactor) : Except String BlindingFactor :=
  if prev_total_offset = .zero then .ok total_offset
  else crypto.addBlindingFactors [total_offset] [prev_total_offset]

/-- `KernelSumValidator::GetAmountOrThrow`. -/
def getAmountOrThrow (amount : Option Int) : Except String Int :=
  match amount with
  | some amount => .ok amount
  | none => .error (throwValidation "GetAmountOrThrow" .amountOutOfRange)

/-- `KernelSumValidator::ValidateForBlock`. -/
def validateForBlock (body : TxBody)
    (total_offset prev_total_offset : BlindingFactor) : Except String Unit := do
  let block_offset ← blockOffset crypto total_offset prev_total_offset
  let supply_change ← getAmountOrThrow body.getSupplyChange
  crypto.validateSums (body.inputs.map (·.commitment))
    (body.outputs.map (·.commitment)) (body.kernels.map (·.excess))
    block_offset supply_change

/-! ## Views -/

/-- `mw::ICoinsView`, as what it presents. -/
@[ext]
structure CoinsView where
  bestHeader : Option Header
  /-- `GetUTXO`, by the id of the output. -/
  utxos : Hash → Option UTXO
  leafSet : LeafSet
  /-- The leaves of the range of outputs. -/
  outputPMMR : List Hash

/-- The root of the range of outputs. -/
def outputRoot (leaves : List Hash) : Hash :=
  Mmr.root crypto.hashOutputNode 0 (Mmr.ofLeaves crypto.hashOutputNode leaves)

/-- `ILeafSet::Root`. -/
def LeafSet.root (s : LeafSet) : Hash := crypto.hashBytes s.rootBytes

namespace CoinsView

/-- The view before the first extension block. -/
def empty : CoinsView := ⟨none, fun _ => none, LeafSet.empty, []⟩

/-- An output is put in as the next leaf. -/
def put (header_height : Int) (view : CoinsView) (output : Output) : CoinsView :=
  { view with
    utxos := Function.update view.utxos output.hash
      (some ⟨header_height, view.outputPMMR.length, output⟩)
    leafSet := view.leafSet.add view.outputPMMR.length
    outputPMMR := view.outputPMMR ++ [output.hash] }

/-- An unspent output is taken out. -/
def drop (view : CoinsView) (output_id : Hash) (utxo : UTXO) : CoinsView :=
  { view with
    utxos := Function.update view.utxos output_id none
    leafSet := view.leafSet.remove utxo.leafIdx }

/-- `CoinsViewCache::AddUTXO`. -/
def addUTXO (header_height : Int) (view : CoinsView) (output : Output) : Except String CoinsView :=
  match view.utxos output.hash with
  | some _ => .error (throwValidation "AddUTXO" .duplicates)
  | none => .ok (view.put header_height output)

/-- `CoinsViewCache::SpendUTXO`. -/
def spendUTXO (view : CoinsView) (output_id : Hash) : Except String (UTXO × CoinsView) :=
  match view.utxos output_id with
  | none => .error (throwValidation "SpendUTXO" .utxoMissing)
  | some utxo =>
    if view.leafSet.contains utxo.leafIdx then .ok (utxo, view.drop output_id utxo)
    else .error (throwValidation "SpendUTXO" .utxoMissing)

/-- The check of `ApplyBlockChanges` that an input is about the output that it spends. -/
def checkInput (allow_historical_metadata_mismatch : Bool) (input : Input) (pUTXO : Option UTXO) :
    Except String Unit :=
  match pUTXO with
  | none => .error (throwValidation "operator()" .utxoMissing)
  | some utxo =>
    reject (!allow_historical_metadata_mismatch && (utxo.output.commitment ≠ input.commitment ||
      utxo.output.receiverPubKey ≠ input.outputPubKey)) (throwValidation "operator()" .utxoMismatch)

/-- One round of the loop over the inputs of a block; the spent coins are collected. -/
def spendInput (allow_historical_metadata_mismatch : Bool) (state : List UTXO × CoinsView)
    (input : Input) : Except String (List UTXO × CoinsView) := do
  checkInput allow_historical_metadata_mismatch input (state.2.utxos input.outputID)
  let (spentUTXO, view) ← state.2.spendUTXO input.outputID
  pure (state.1 ++ [spentUTXO], view)

/-- The header has the roots and the size of the view. -/
def matchesHeader (crypto : NodeCrypto) (view : CoinsView) (header : Header) : Bool :=
  header.outputRoot = outputRoot crypto view.outputPMMR &&
    header.outputMMRSize = view.outputPMMR.length && header.leafsetRoot = view.leafSet.root crypto

/-- `CoinsViewCache::ApplyBlock`, with `ApplyBlockChanges`. The changes go to a cache of its own
first, so a failure leaves no trace. -/
def applyBlock (crypto : NodeCrypto) (allow_historical_metadata_mismatch : Bool) (view : CoinsView)
    (block : Block) : Except String (BlockUndo × CoinsView) := do
  let prev_offset := (view.bestHeader.map (·.kernelOffset)).getD .zero
  validateForBlock crypto block.body block.header.kernelOffset prev_offset
  let added ← block.body.outputs.foldlM (addUTXO block.header.height)
    { view with bestHeader := some block.header }
  let (coinsSpent, spent) ← block.body.inputs.foldlM (spendInput allow_historical_metadata_mismatch)
    ([], added)
  reject (!spent.matchesHeader crypto block.header)
    (throwValidation "ApplyBlockChanges" .mmrMismatch)
  pure (⟨view.bestHeader, coinsSpent, block.body.outputs.map (·.hash)⟩, spent)

/-- `MEMPOOL_HEIGHT`. -/
def mempoolHeight : Int := 0x7FFFFFFF

/-- One of the changes of `AddTx`. -/
def addTxStep (view : CoinsView) : Output ⊕ Input → Except String CoinsView
  | .inl output => view.addUTXO mempoolHeight output
  | .inr input => (view.spendUTXO input.outputID).map Prod.snd

/-- The unspent outputs after those that a block spent are put back and those that it added are
taken out. -/
def undoneUTXOs (utxos : Hash → Option UTXO) (undo : BlockUndo) : Hash → Option UTXO :=
  eraseAll (insertAll utxos undo.spentById) undo.coinsAdded

/-- `CoinsViewCache::UndoBlock`. -/
def undoBlock (crypto : NodeCrypto) (view : CoinsView) (undo : BlockUndo) :
    Except String CoinsView :=
  match undo.prevHeader with
  | none =>
    .ok ⟨none, undoneUTXOs view.utxos undo, view.leafSet.rewind 0 [], view.outputPMMR.take 0⟩
  | some header => do
    let undone : CoinsView := ⟨some header, undoneUTXOs view.utxos undo,
      view.leafSet.rewind header.outputMMRSize (undo.coinsSpent.map (·.leafIdx)),
      view.outputPMMR.take header.outputMMRSize⟩
    reject (!undone.matchesHeader crypto header) (throwValidation "UndoBlock" .mmrMismatch)
    pure undone

/-! ## What one change needs and does -/

variable {output_id : Hash} {output : Output} {header_height : Int} {view view' : CoinsView}
  {allow : Bool} {coinsSpent : List UTXO} {crypto : NodeCrypto} {block : Block} {undo : BlockUndo}

theorem utxos_put_self (header_height : Int) (view : CoinsView) (output : Output) :
    (view.put header_height output).utxos output.hash =
      some ⟨header_height, view.outputPMMR.length, output⟩ := Function.update_self ..

theorem utxos_put_of_ne (h : output_id ≠ output.hash) (header_height : Int) (view : CoinsView) :
    (view.put header_height output).utxos output_id = view.utxos output_id :=
      Function.update_of_ne h ..

theorem utxos_drop_self (view : CoinsView) (output_id : Hash) (utxo : UTXO) :
    (view.drop output_id utxo).utxos output_id = none := Function.update_self ..

theorem utxos_drop_of_ne {output_id' : Hash} (h : output_id' ≠ output_id) (view : CoinsView)
    (utxo : UTXO) :
    (view.drop output_id utxo).utxos output_id' = view.utxos output_id' :=
  Function.update_of_ne h ..

theorem addUTXO_eq_ok_iff :
    view.addUTXO header_height output = .ok view' ↔
      view.utxos output.hash = none ∧ view' = view.put header_height output := by
  unfold addUTXO
  rcases view.utxos output.hash with _ | utxo
  · exact ⟨fun h => ⟨rfl, (Except.ok.inj h).symm⟩, fun h => by rw [h.2]⟩
  · exact ⟨nofun, nofun⟩

theorem spendUTXO_eq_ok_iff {utxo : UTXO} :
    view.spendUTXO output_id = .ok (utxo, view') ↔ view.utxos output_id = some utxo ∧
      view.leafSet.contains utxo.leafIdx ∧ view' = view.drop output_id utxo := by
  unfold spendUTXO
  rcases view.utxos output_id with _ | utxo'
  · exact ⟨nofun, nofun⟩
  · dsimp only
    split_ifs with hbit
    · rw [Except.ok.injEq, Prod.mk.injEq, Option.some.injEq]
      constructor
      · rintro ⟨rfl, rfl⟩
        exact ⟨rfl, hbit, rfl⟩
      · rintro ⟨rfl, -, rfl⟩
        exact ⟨rfl, rfl⟩
    · refine ⟨nofun, ?_⟩
      rintro ⟨heq, hset, -⟩
      rw [Option.some.injEq] at heq
      rw [heq] at hbit
      exact absurd hset hbit

/-- An input that was spent: its output was there, and is taken out and collected. -/
theorem spendInput_spec {coinsSpent' : List UTXO} {input : Input}
    (h : spendInput allow (coinsSpent, view) input = .ok (coinsSpent', view')) :
    ∃ utxo, view.utxos input.outputID = some utxo ∧ view.leafSet.contains utxo.leafIdx ∧
      coinsSpent' = coinsSpent ++ [utxo] ∧ view' = view.drop input.outputID utxo := by
  obtain ⟨-, hspend⟩ := seq_eq_ok_iff.mp h
  obtain ⟨⟨utxo, dropped⟩, hspent, heq⟩ := bind_eq_ok_iff.mp hspend
  obtain ⟨hfound, hbit, rfl⟩ := spendUTXO_eq_ok_iff.mp hspent
  obtain ⟨rfl, rfl⟩ := Prod.mk.inj (Except.ok.inj heq)
  exact ⟨utxo, hfound, hbit, rfl, rfl⟩

/-! ## Unspent outputs, bits and leaves -/

/-- The unspent outputs are one to one with the set bits of the leaf set: each has its bit, and its
id is the leaf there, and each bit is that of one. -/
structure Bijective (view : CoinsView) : Prop where
  /-- An unspent output is found by its id. -/
  id : ∀ {output_id utxo}, view.utxos output_id = some utxo → utxo.output.hash = output_id
  leaf : ∀ {output_id utxo}, view.utxos output_id = some utxo →
    view.outputPMMR[utxo.leafIdx]? = some output_id
  bit : ∀ {output_id utxo}, view.utxos output_id = some utxo →
    view.leafSet.contains utxo.leafIdx
  utxo : ∀ {i}, view.leafSet.contains i →
    ∃ output_id utxo, view.utxos output_id = some utxo ∧ utxo.leafIdx = i
  next : view.leafSet.nextLeafIdx = view.outputPMMR.length

theorem bijective_empty : Bijective empty where
  id h := by cases h
  leaf h := by cases h
  bit h := by cases h
  utxo h := by
    rw [show empty.leafSet = LeafSet.empty from rfl, LeafSet.contains_empty] at h
    cases h
  next := rfl

namespace Bijective

variable {view view' : CoinsView}

section

variable (h : Bijective view)

include h

/-- No bit is set at or above the number of leaves. -/
theorem bit_lt {i : Nat} (hi : view.leafSet.contains i) : i < view.outputPMMR.length := by
  obtain ⟨output_id, utxo, hfound, rfl⟩ := h.utxo hi
  exact (List.getElem?_eq_some_iff.mp (h.leaf hfound)).1

/-- A rewind puts leaves in and leaves no bit at or above the new next leaf. -/
theorem contains_rewind {leavesToAdd : List Nat}
    (hadd : ∀ i ∈ leavesToAdd, i < view.outputPMMR.length)
    (numLeaves i : Nat) : (view.leafSet.rewind numLeaves leavesToAdd).contains i =
      ((view.leafSet.contains i || decide (i ∈ leavesToAdd)) && decide (i < numLeaves)) := by
  rw [LeafSet.contains_rewind (by rwa [h.next]), h.next]
  by_cases hi : i < view.outputPMMR.length
  · simp [hi]
  · have hclear := Bool.eq_false_iff.mpr (mt h.bit_lt hi)
    simp [hclear, mt (hadd i) hi]

/-- Unspent outputs at the same leaf are the same. -/
theorem leafIdx_injective {output_id output_id' : Hash} {utxo utxo' : UTXO}
    (hfound : view.utxos output_id = some utxo) (hfound' : view.utxos output_id' = some utxo')
    (heq : utxo.leafIdx = utxo'.leafIdx) : output_id = output_id' := by
  have hleaf := h.leaf hfound
  rw [heq, h.leaf hfound'] at hleaf
  exact (Option.some.inj hleaf).symm

/-- The best header is not part of it. -/
theorem setBestHeader (header : Option Header) : Bijective { view with bestHeader := header } :=
  ⟨h.id, h.leaf, h.bit, h.utxo, h.next⟩

theorem put {output : Output} (hnew : view.utxos output.hash = none) (header_height : Int) :
    Bijective (view.put header_height output) := by
  -- What is found afterwards is the new output or was there before, under another id.
  have hcases : ∀ {output_id utxo}, (view.put header_height output).utxos output_id = some utxo →
      (output_id = output.hash ∧ utxo = ⟨header_height, view.outputPMMR.length, output⟩) ∨
        view.utxos output_id = some utxo := by
    intro output_id utxo hfound
    by_cases heq : output_id = output.hash
    · rw [heq, utxos_put_self, Option.some.injEq] at hfound
      exact .inl ⟨heq, hfound.symm⟩
    · rw [utxos_put_of_ne heq] at hfound
      exact .inr hfound
  have hbits : ∀ i, (view.put header_height output).leafSet.contains i =
      (view.leafSet.contains i || decide (i = view.outputPMMR.length)) :=
    fun i => contains_add ..
  refine ⟨?_, ?_, ?_, ?_, ?_⟩
  · intro output_id utxo hfound
    rcases hcases hfound with ⟨rfl, rfl⟩ | hold
    · rfl
    · exact h.id hold
  · intro output_id utxo hfound
    show (view.outputPMMR ++ [output.hash])[utxo.leafIdx]? = some output_id
    rcases hcases hfound with ⟨rfl, rfl⟩ | hold
    · exact List.getElem?_concat_length
    · have hleaf := h.leaf hold
      rw [List.getElem?_append_left (List.getElem?_eq_some_iff.mp hleaf).1, hleaf]
  · intro output_id utxo hfound
    rw [hbits, Bool.or_eq_true, decide_eq_true_eq]
    rcases hcases hfound with ⟨rfl, rfl⟩ | hold
    · exact .inr rfl
    · exact .inl (h.bit hold)
  · intro i hi
    rw [hbits, Bool.or_eq_true, decide_eq_true_eq] at hi
    rcases hi with hold | rfl
    · obtain ⟨output_id, utxo, hfound, hleaf⟩ := h.utxo hold
      have hne : output_id ≠ output.hash := by
        rintro rfl
        rw [hnew] at hfound
        cases hfound
      refine ⟨output_id, utxo, ?_, hleaf⟩
      rw [utxos_put_of_ne hne, hfound]
    · exact ⟨output.hash, _, utxos_put_self .., rfl⟩
  · show (view.leafSet.add view.outputPMMR.length).nextLeafIdx = (view.outputPMMR ++ [_]).length
    rw [← h.next, nextLeafIdx_add_self, h.next, length_append, length_singleton]

theorem drop {output_id : Hash} {utxo : UTXO} (hfound : view.utxos output_id = some utxo) :
    Bijective (view.drop output_id utxo) := by
  have hold : ∀ {id' utxo'}, (view.drop output_id utxo).utxos id' = some utxo' →
      id' ≠ output_id ∧ view.utxos id' = some utxo' := by
    intro id' utxo' hfound'
    by_cases heq : id' = output_id
    · rw [heq, utxos_drop_self] at hfound'
      cases hfound'
    · rw [utxos_drop_of_ne heq] at hfound'
      exact ⟨heq, hfound'⟩
  have hbits : ∀ i, (view.drop output_id utxo).leafSet.contains i =
      (view.leafSet.contains i && decide (i ≠ utxo.leafIdx)) := fun i => contains_remove ..
  refine ⟨fun hf => h.id (hold hf).2, fun hf => h.leaf (hold hf).2, ?_, ?_, h.next⟩
  · intro id' utxo' hfound'
    obtain ⟨hne, hf⟩ := hold hfound'
    rw [hbits, h.bit hf, Bool.true_and, decide_eq_true_eq]
    exact fun heq => hne (h.leafIdx_injective hf hfound heq)
  · intro i hi
    rw [hbits, Bool.and_eq_true, decide_eq_true_eq] at hi
    obtain ⟨id', utxo', hfound', hleaf⟩ := h.utxo hi.1
    have hne : id' ≠ output_id := by
      rintro rfl
      rw [hfound, Option.some.injEq] at hfound'
      rw [hfound'] at hi
      exact hi.2 hleaf.symm
    refine ⟨id', utxo', ?_, hleaf⟩
    rw [utxos_drop_of_ne hne, hfound']

theorem addTxStep {change : Output ⊕ Input} (hok : view.addTxStep change = .ok view') :
    Bijective view' := by
  rcases change with output | input
  · obtain ⟨hnew, rfl⟩ := addUTXO_eq_ok_iff.mp hok
    exact h.put hnew mempoolHeight
  · have hok : (view.spendUTXO input.outputID).map Prod.snd = .ok view' := hok
    rcases hspend : view.spendUTXO input.outputID with e | ⟨utxo, dropped⟩
    · rw [hspend] at hok
      cases hok
    · rw [hspend] at hok
      obtain ⟨hfound, -, rfl⟩ := spendUTXO_eq_ok_iff.mp hspend
      rw [← Except.ok.inj hok]
      exact h.drop hfound

end

end Bijective

/-! ## The outputs of a block -/

/-- A view with the outputs of a block put in. -/
structure Added (header_height : Int) (view : CoinsView) (outputs : List Output)
    (view' : CoinsView) :
    Prop where
  bestHeader : view'.bestHeader = view.bestHeader
  fresh : ∀ output ∈ outputs, view.utxos output.hash = none
  nodup : (outputs.map (·.hash)).Nodup
  other : ∀ output_id ∉ outputs.map (·.hash),
    view'.utxos output_id = view.utxos output_id
  here : ∀ output ∈ outputs, (view'.utxos output.hash).isSome
  leafSet : ∀ i, view'.leafSet.contains i = (view.leafSet.contains i ||
    decide (view.outputPMMR.length ≤ i ∧ i < view.outputPMMR.length + outputs.length))
  outputPMMR : view'.outputPMMR = view.outputPMMR ++ outputs.map (·.hash)
  bijective : Bijective view'
  /-- The view is determined by the outputs. -/
  eq : view' = outputs.foldl (put header_height) view

theorem Added.nil (h : Bijective view) : Added header_height view [] view where
  bestHeader := rfl
  fresh _ hmem := absurd hmem not_mem_nil
  nodup := nodup_nil
  other _ _ := rfl
  here _ hmem := absurd hmem not_mem_nil
  leafSet i := by
    rw [decide_eq_false (by simp), Bool.or_false]
  outputPMMR := (append_nil _).symm
  bijective := h
  eq := rfl

theorem Added.concat {added : CoinsView} {outputs : List Output}
    (h : Added header_height view outputs added) (hnew : added.utxos output.hash = none) :
    Added header_height view (outputs ++ [output]) (added.put header_height output) := by
  have hnotMem : output.hash ∉ outputs.map (·.hash) := by
    intro hmem
    obtain ⟨output', hmem', heq⟩ := mem_map.mp hmem
    have hsome := h.here output' hmem'
    rw [heq, hnew] at hsome
    cases hsome
  refine ⟨h.bestHeader, ?_, ?_, ?_, ?_, ?_, ?_, h.bijective.put hnew header_height, ?_⟩
  · exact forall_mem_append.mpr ⟨h.fresh,
      forall_mem_singleton.mpr (by rw [← h.other _ hnotMem, hnew])⟩
  · rw [map_append, map_singleton]
    exact h.nodup.append (nodup_singleton _) (disjoint_singleton.mpr hnotMem)
  · intro output_id hid
    rw [map_append, map_singleton, mem_append, not_or, mem_singleton] at hid
    rw [utxos_put_of_ne hid.2, h.other output_id hid.1]
  · intro output' hmem
    by_cases heq : output'.hash = output.hash
    · rw [heq, utxos_put_self]
      rfl
    · rw [utxos_put_of_ne heq]
      rcases mem_append.mp hmem with hold | hlast
      · exact h.here output' hold
      · rw [mem_singleton.mp hlast] at heq
        exact absurd rfl heq
  · intro i
    have hlen : added.outputPMMR.length = view.outputPMMR.length + outputs.length := by
      rw [h.outputPMMR, length_append, length_map]
    show (added.leafSet.add added.outputPMMR.length).contains i = _
    rw [contains_add, h.leafSet, Bool.or_assoc, ← Bool.decide_or, hlen, length_append,
      length_singleton]
    congr 1
    rw [decide_eq_decide]
    omega
  · show added.outputPMMR ++ [output.hash] = _
    rw [h.outputPMMR, map_append, map_singleton, append_assoc]
  · rw [foldl_append, foldl_cons, foldl_nil, ← h.eq]

/-- The loop over the outputs of a block. -/
theorem added_of_foldlM {outputs : List Output} (h : Bijective view)
    (hok : outputs.foldlM (addUTXO header_height) view = .ok view') :
    Added header_height view outputs view' := by
  refine Ensures.foldlM_ok hok (Added.nil h) fun done added output added' _ hadded hstep => ?_
  obtain ⟨hnew, rfl⟩ := addUTXO_eq_ok_iff.mp hstep
  exact hadded.concat hnew

/-! ## The inputs of a block -/

/-- A view with spent coins taken out. -/
structure Spent (view : CoinsView) (ids : List Hash) (coinsSpent : List UTXO) (view' : CoinsView) :
    Prop where
  bestHeader : view'.bestHeader = view.bestHeader
  nodup : ids.Nodup
  found : ∀ utxo ∈ coinsSpent, view.utxos utxo.output.hash = some utxo
  utxos : ∀ output_id, view'.utxos output_id = if output_id ∈ ids then none else view.utxos
    output_id
  leafSet : view'.leafSet = (coinsSpent.map (·.leafIdx)).foldl LeafSet.remove view.leafSet
  outputPMMR : view'.outputPMMR = view.outputPMMR
  bijective : Bijective view'
  coins : ids = coinsSpent.map (·.output.hash)

theorem Spent.nil (h : Bijective view) : Spent view [] [] view where
  bestHeader := rfl
  nodup := nodup_nil
  found _ hmem := absurd hmem not_mem_nil
  utxos _ := (if_neg not_mem_nil).symm
  leafSet := rfl
  outputPMMR := rfl
  bijective := h
  coins := rfl

theorem Spent.concat {spent : CoinsView} {ids : List Hash} {utxo : UTXO}
    (h : Spent view ids coinsSpent spent) (hfound : spent.utxos output_id = some utxo) :
    Spent view (ids ++ [output_id]) (coinsSpent ++ [utxo]) (spent.drop output_id utxo) := by
  have hid := h.bijective.id hfound
  -- It is not among the coins that were taken out before.
  have hnotMem : output_id ∉ ids := by
    intro hmem
    rw [h.utxos, if_pos hmem] at hfound
    cases hfound
  refine ⟨h.bestHeader, ?_, ?_, ?_, ?_, h.outputPMMR, h.bijective.drop hfound, ?_⟩
  · exact h.nodup.append (nodup_singleton _) (disjoint_singleton.mpr hnotMem)
  · refine forall_mem_append.mpr ⟨h.found, forall_mem_singleton.mpr ?_⟩
    rw [h.utxos, if_neg hnotMem] at hfound
    rw [hid, hfound]
  · intro id'
    by_cases heq : id' = output_id
    · rw [heq, utxos_drop_self, if_pos (by simp)]
    · rw [utxos_drop_of_ne heq, h.utxos]
      simp [heq]
  · rw [map_append, foldl_append, ← h.leafSet]
    rfl
  · rw [map_append, map_singleton, ← h.coins, hid]

/-- The loop over the inputs of a block. -/
theorem spent_of_foldlM {inputs : List Input} (h : Bijective view)
    (hok : inputs.foldlM (spendInput allow) ([], view) = .ok (coinsSpent, view')) :
    Spent view (inputs.map (·.outputID)) coinsSpent view' := by
  refine Ensures.foldlM_ok (P := fun (done : List Input) (r : List UTXO × CoinsView) =>
    Spent view (done.map (·.outputID)) r.1 r.2) hok (Spent.nil h)
      fun done r input r' _ hspent hstep => ?_
  obtain ⟨utxo, hfound, -, hcoins, hdrop⟩ := spendInput_spec hstep
  rw [map_append, map_singleton, hcoins, hdrop]
  exact hspent.concat hfound

/-! ## Applying a block -/

/-- What applying a block does: its outputs are put in, its inputs are taken out, and its header
describes the result. -/
structure Applied (crypto : NodeCrypto) (view : CoinsView) (block : Block) (undo : BlockUndo)
    (addedView view' : CoinsView) : Prop where
  sums : validateForBlock crypto block.body block.header.kernelOffset
    ((view.bestHeader.map (·.kernelOffset)).getD .zero) = .ok ()
  added : Added block.header.height { view with bestHeader := some block.header } block.body.outputs
    addedView
  spent : Spent addedView (block.body.inputs.map (·.outputID)) undo.coinsSpent view'
  header : view'.matchesHeader crypto block.header
  prevHeader : undo.prevHeader = view.bestHeader
  coinsAdded : undo.coinsAdded = block.body.outputs.map (·.hash)

theorem applied_of_applyBlock (h : Bijective view)
    (hok : view.applyBlock crypto allow block = .ok (undo, view')) :
    ∃ added, Applied crypto view block undo added view' := by
  obtain ⟨hsums, hok⟩ := seq_eq_ok_iff.mp hok
  obtain ⟨added, hadded, hok⟩ := bind_eq_ok_iff.mp hok
  obtain ⟨⟨coinsSpent, spent⟩, hspent, hok⟩ := bind_eq_ok_iff.mp hok
  obtain ⟨hheader, hok⟩ := seq_eq_ok_iff.mp hok
  obtain ⟨rfl, rfl⟩ := Prod.mk.inj (Except.ok.inj hok)
  have hadd := added_of_foldlM (h.setBestHeader (some block.header)) hadded
  refine ⟨added, hsums, hadd, spent_of_foldlM hadd.bijective hspent, ?_, rfl, rfl⟩
  rw [reject_eq_ok_iff, Bool.not_eq_false'] at hheader
  exact hheader

/-- The best header has the roots and the size of the view; without one, the view is empty. -/
def Described (crypto : NodeCrypto) (view : CoinsView) : Prop :=
  match view.bestHeader with
  | none => view = empty
  | some header => view.matchesHeader crypto header

theorem described_of_some {header : Header} (h : Described crypto view)
    (hheader : view.bestHeader = some header) :
    view.matchesHeader crypto header := by
  unfold Described at h
  rw [hheader] at h
  exact h

theorem eq_empty_of_described (h : Described crypto view) (hheader : view.bestHeader = none) :
    view = empty := by
  unfold Described at h
  rw [hheader] at h
  exact h

namespace Applied

variable {crypto : NodeCrypto} {view view' added : CoinsView} {block : Block} {undo : BlockUndo}

section

variable (h : Applied crypto view block undo added view')

include h

theorem bestHeader : view'.bestHeader = some block.header := by
  rw [h.spent.bestHeader, h.added.bestHeader]

/-- The coins that are put back are those that the inputs spend. -/
theorem spentKeys : undo.spentById.map Prod.fst = block.body.inputs.map (·.outputID) := by
  rw [h.spent.coins, map_map]
  rfl

/-- The coins that are put back are not there, and those that are taken out then are. -/
theorem insertAll_isSome {output_id : Hash} (hadded : output_id ∈ undo.coinsAdded) :
    (insertAll view'.utxos undo.spentById output_id).isSome := by
  rw [h.coinsAdded] at hadded
  obtain ⟨output, hmem, rfl⟩ := mem_map.mp hadded
  by_cases hspent : output.hash ∈ undo.spentById.map Prod.fst
  · obtain ⟨utxo, -, hfound⟩ := exists_insertAll_of_mem view'.utxos hspent
    rw [hfound]
    rfl
  · rw [insertAll_of_notMem _ hspent, h.spent.utxos, ← h.spentKeys, if_neg hspent]
    exact h.added.here output hmem

theorem described : Described crypto view' := by
  unfold Described
  rw [h.bestHeader]
  exact h.header

theorem outputPMMR :
    view'.outputPMMR = view.outputPMMR ++ block.body.outputs.map (·.hash) := by
  rw [h.spent.outputPMMR, h.added.outputPMMR]

/-- The unspent outputs from before the block come back. -/
theorem undoneUTXOs : undoneUTXOs view'.utxos undo = view.utxos := by
  funext output_id
  unfold CoinsView.undoneUTXOs
  rw [eraseAll_apply, h.coinsAdded]
  by_cases hadded : output_id ∈ block.body.outputs.map (·.hash)
  · rw [if_pos hadded]
    obtain ⟨output, hmem, rfl⟩ := mem_map.mp hadded
    exact (h.added.fresh output hmem).symm
  · rw [if_neg hadded]
    have hbefore : added.utxos output_id = view.utxos output_id := h.added.other output_id hadded
    by_cases hspent : output_id ∈ undo.spentById.map Prod.fst
    · -- The entry that is put back is the one that was found when the coin was spent.
      obtain ⟨utxo, hmem, hfound⟩ := exists_insertAll_of_mem view'.utxos hspent
      obtain ⟨utxo', hmem', heq⟩ := mem_map.mp hmem
      obtain ⟨hid, rfl⟩ := Prod.mk.inj heq
      rw [hfound, ← hbefore, ← hid, h.spent.found utxo' hmem']
    · rw [insertAll_of_notMem _ hspent, h.spent.utxos, ← h.spentKeys, if_neg hspent, hbefore]

/-- The leaf set from before the block comes back: the leaves of spent coins are put in, and the
leaves of the block are taken out, among them those of coins that it both added and spent. -/
theorem rewind_leafSet (hview : Bijective view) :
    view'.leafSet.rewind view.outputPMMR.length (undo.coinsSpent.map (·.leafIdx)) =
      view.leafSet := by
  apply ext_of_contains
  · rw [nextLeafIdx_rewind, hview.next]
  · intro i
    have hbit : ∀ i ∈ undo.coinsSpent.map (·.leafIdx), added.leafSet.contains i := by
      intro i hi
      obtain ⟨utxo, hmem, rfl⟩ := mem_map.mp hi
      exact h.added.bijective.bit (h.spent.found utxo hmem)
    rw [h.spent.bijective.contains_rewind (fun i hi => ?_), h.spent.leafSet, contains_foldl_remove,
      h.added.leafSet]
    · by_cases hlow : i < view.outputPMMR.length
      · -- Below the block's own leaves, only those of spent coins have changed, and they were set.
        by_cases hspent : i ∈ undo.coinsSpent.map (·.leafIdx)
        · have hset := hbit i hspent
          rw [h.added.leafSet] at hset
          simpa [hspent, hlow, Nat.not_le.mpr hlow] using hset.symm
        · simp [hspent, hlow, Nat.not_le.mpr hlow]
      · have hclear := Bool.eq_false_iff.mpr (mt hview.bit_lt hlow)
        simp [hclear, hlow]
    · rw [h.spent.outputPMMR]
      exact h.added.bijective.bit_lt (hbit i hi)

end

end Applied

/-- Taking back the block that was applied last restores the view. -/
theorem undoBlock_applyBlock (h : Bijective view) (hdesc : Described crypto view)
    (hok : view.applyBlock crypto allow block = .ok (undo, view')) :
    view'.undoBlock crypto undo = .ok view := by
  obtain ⟨added, happ⟩ := applied_of_applyBlock h hok
  have hutxos := happ.undoneUTXOs
  unfold undoBlock
  rw [happ.prevHeader]
  rcases hheader : view.bestHeader with _ | header
  · -- The view was empty, and everything is cleared.
    have hempty := eq_empty_of_described hdesc hheader
    have hleafSet : view'.leafSet.rewind 0 [] = view.leafSet := by
      apply ext_of_contains
      · rw [nextLeafIdx_rewind, hempty]
        rfl
      · intro i
        have hnone : view.leafSet.contains i = false := by
          rw [hempty]
          exact contains_empty i
        rw [happ.spent.bijective.contains_rewind (fun i hi => absurd hi not_mem_nil), hnone]
        simp
    rw [hutxos, hleafSet, take_zero]
    rw [hempty]
    rfl
  · have hmatch := described_of_some hdesc hheader
    have hsize : header.outputMMRSize = view.outputPMMR.length := by
      unfold matchesHeader at hmatch
      simp only [Bool.and_eq_true, decide_eq_true_eq] at hmatch
      exact hmatch.1.2
    have htake : view'.outputPMMR.take view.outputPMMR.length = view.outputPMMR := by
      rw [happ.outputPMMR, take_left]
    have heq : (⟨some header, view.utxos, view.leafSet, view.outputPMMR⟩ : CoinsView) = view := by
      rw [← hheader]
    dsimp only
    rw [hutxos, hsize, happ.rewind_leafSet h, htake, heq, hmatch]
    rfl

end CoinsView

/-! ## A node to run -/

/-- A node that accepts all signatures, proofs and sums. A leaf hashes to itself. -/
def plainCrypto : NodeCrypto where
  hashKernelNode _ := 0
  batchVerify _ := true
  verifyRangeProofs _ := true
  validateStealthSums _ _ := true
  hashOutputNode
    | .leaf _ output_id => output_id
    | .parent _ left right => left ^^^ (right <<< 1)
  hashBytes bytes := BitVec.ofNat 256 (bytes.foldl (fun n byte => 256 * n + byte.toNat) 1)
  addBlindingFactors _ _ := .ok .zero
  validateSums _ _ _ _ _ := .ok ()

/-- An output with a given id. -/
def plainOutput (output_id : Hash) : Output where
  commitment := zero 33
  senderPubKey := zero 33
  receiverPubKey := zero 33
  message := ⟨0, zero 33, 0, 0, zero 16, []⟩
  proof := []
  signature := zero 64
  hash := output_id

/-- An input that spends a given output. -/
def plainInput (output_id : Hash) : Input where
  features := 0
  outputID := output_id
  commitment := zero 33
  inputPubKey := none
  outputPubKey := zero 33
  extraData := []
  signature := zero 64
  hash := output_id

/-- A header for given outputs and bytes of the leaf set, without kernels. -/
def plainHeader (height : Int) (leaves : List Hash) (leafset : List UInt8) : Header where
  height := height
  outputRoot := outputRoot plainCrypto leaves
  kernelRoot := 0
  leafsetRoot := plainCrypto.hashBytes leafset
  kernelOffset := .zero
  stealthOffset := .zero
  outputMMRSize := leaves.length
  kernelMMRSize := 0
  hash := BitVec.ofInt 256 height

end DefcoinCore.Mweb
