import DefcoinCore.Lib.Machine
import DefcoinCore.Mweb.Amounts
import DefcoinCore.Mweb.Connect

/-!
# Coins in the extension block

Each block index records how many coins are in the extension block after its block. No check adds
these amounts up: `ConnectBlock` compares the value of the first output of the HogEx with the
recorded amount of the parent and the supply change of the kernels, and `ContextualCheckBlock`
matches the inputs of the HogEx with the pegin outputs of the block, those with the pegin kernels,
and the other outputs of the HogEx with the pegouts of the kernels.

The loop over the inputs of the HogEx is characterised by what it accepts. The amounts of a HogEx
that pays what it should are accepted if the pegins leave the range of money
(`checkAmounts_eq_ok_iff`). The recorded amount is what went in, less what came out and the fees,
over the whole chain (`connectChain_accounts`).
-/

namespace DefcoinCore.Mweb

open List CTransaction Except

/-! ## One block -/

namespace Node

/-- An outpoint as the id of a transaction and a place among its outputs. -/
def outpoint (prevout : COutPoint) : Uint256 × Nat := (prevout.hash, prevout.n.toNat)

variable {prev : PrevIndex} {block : CBlock} {mweb_block : Block}

/-- The loop over pegins accepts if the inputs from the given one on are the pegins, in their order.
-/
theorem foldlM_checkPegin_iff {inputs : List COutPoint} {pegins : List (Uint256 × Nat)}
    {idx idx' : Nat} :
    pegins.foldlM (checkPegin inputs) idx = .ok idx' ↔ idx' = idx + pegins.length ∧
      (inputs.drop idx).map outpoint = pegins ++ (inputs.drop idx').map outpoint := by
  induction pegins generalizing idx with
  | nil =>
    constructor
    · intro h
      rw [← ok.inj h]
      exact ⟨rfl, rfl⟩
    · rintro ⟨rfl, -⟩
      rfl
  | cons pegin pegins ih =>
    rw [foldlM_cons, bind_eq_ok_iff]
    unfold checkPegin
    rcases hget : inputs[idx]? with _ | input
    · have hnil : inputs.drop idx = [] := drop_eq_nil_of_le (getElem?_eq_none_iff.mp hget)
      rw [hnil]
      exact ⟨nofun, nofun⟩
    · obtain ⟨hlt, hinput⟩ := List.getElem?_eq_some_iff.mp hget
      rw [drop_eq_getElem_cons hlt, hinput, map_cons, cons_append, cons.injEq,
        length_cons]
      have hmatch : (input.n.toNat ≠ pegin.2 ∨ input.hash ≠ pegin.1) ↔ outpoint input ≠ pegin := by
        rw [ne_eq (outpoint input), Prod.ext_iff, not_and_or, or_comm]
        rfl
      dsimp only
      by_cases heq : outpoint input = pegin
      · rw [if_neg (hmatch.not.mpr (not_not.mpr heq))]
        constructor
        · rintro ⟨next, h, hrest⟩
          rw [← ok.inj h] at hrest
          obtain ⟨hidx, hmap⟩ := ih.mp hrest
          exact ⟨by omega, heq, hmap⟩
        · rintro ⟨hidx, -, hmap⟩
          exact ⟨_, rfl, ih.mpr ⟨by omega, hmap⟩⟩
      · rw [if_pos (hmatch.mpr heq)]
        exact ⟨nofun, fun ⟨_, h, _⟩ => absurd h heq⟩

/-- The inputs of the HogEx. -/
def hogexInputs (block : CBlock) : List (Uint256 × Nat) :=
  block.lastTx.vin.map fun txin => outpoint txin.prevout

/-- The check of pegins accepts if the inputs of the HogEx, but one where there was a HogEx before,
are the pegins of the block. -/
theorem checkPegins_eq_ok_iff :
    checkPegins prev block = .ok () ↔
      (prev.isMWEBEnabledBefore → hogexInputs block ≠ []) ∧
      (hogexInputs block).drop (if !prev.isMWEBEnabledBefore then 0 else 1) =
        block.middleTxs.flatMap pegins := by
  have hinputs : hogexInputs block = (block.lastTx.vin.map (·.prevout)).map outpoint := by
    rw [map_map]
    rfl
  unfold checkPegins
  generalize hprevouts : (block.lastTx.vin.map (·.prevout)) = inputs at hinputs ⊢
  rw [bind_eq_ok_iff, hinputs, ← map_drop]
  simp only [foldlM_checkPegin_iff, reject_eq_ok_iff, decide_eq_false_iff_not, ne_eq, not_not]
  constructor
  · rintro ⟨idx', ⟨hidx, hmap⟩, hlen⟩
    rw [hlen, drop_length, map_nil, append_nil] at hmap
    refine ⟨fun hbefore hnil => ?_, hmap⟩
    rw [map_eq_nil_iff] at hnil
    rw [hnil] at hlen
    rw [hlen, hbefore, length_nil, Bool.not_true, if_neg Bool.false_ne_true] at hidx
    omega
  · rintro ⟨hne, hmap⟩
    refine ⟨inputs.length, ⟨?_, ?_⟩, rfl⟩
    · rw [← hmap, length_map, length_drop]
      rcases hbefore : prev.isMWEBEnabledBefore with _ | _
      · simp
      · have hpos : 0 < inputs.length := by
          apply length_pos_of_ne_nil
          intro hnil
          exact hne hbefore (by rw [hnil]; rfl)
        simp only [Bool.not_true, Bool.false_eq_true, if_false]
        omega
    · rw [drop_length, map_nil, append_nil, hmap]

/-- The pegin coins of the transactions of a block. -/
def blockPegins (block : CBlock) : List PegInCoin := block.middleTxs.flatMap peginCoins

/-- The pegouts in the HogEx of a block: all outputs but the first. -/
def hogexPegouts (block : CBlock) : List PegOutCoin :=
  block.lastTx.vout.tail.map fun out => ⟨out.nValue, out.scriptPubKey⟩

/-- What a block adds to the extension block, by its transactions: the pegins, less the pegouts of
the HogEx and the fees of the kernels. -/
def netChange (block : CBlock) : Int :=
  match block.mweb_block with
  | none => 0
  | some mweb_block =>
    ((blockPegins block).map (·.amount)).sum -
      ((hogexPegouts block).map (·.amount)).sum - mweb_block.body.fees

/-- How the HogEx and the extension block of an accepted block belong together, after a block with
the given HogEx. -/
structure HogExMatches (prevHogEx : Option Uint256) (block : CBlock) (mweb_block : Block) :
    Prop where
  /-- The HogEx spends the first output of the one before it and then the pegins of the block. -/
  inputs : hogexInputs block = (prevHogEx.toList.map fun hash => (hash, 0)) ++
    block.middleTxs.flatMap pegins
  /-- Each pegin output has one pegin kernel with its amount. -/
  peginKernel : ∀ tx ∈ block.middleTxs, ∀ out ∈ tx.vout, ∀ kernel_id,
    isMWEBPegin out.scriptPubKey = some kernel_id → ∃! kernel, kernel ∈ mweb_block.body.kernels ∧
      kernel.hash = kernel_id ∧ kernel.pegin = some out.nValue
  /-- No two pegin outputs have the same kernel. -/
  distinct : ((blockPegins block).map (·.kernelID)).Nodup
  /-- No pegin kernel is without an output. -/
  pegins : (blockPegins block).Perm mweb_block.body.getPegIns
  pegouts : (hogexPegouts block).Perm mweb_block.body.getPegOuts

/-- The inputs of the HogEx of a block that is accepted. -/
theorem hogexInputs_eq (hpegins : checkPegins prev block = .ok ())
    (hinput : checkHogExInput prev block = .ok ()) :
    hogexInputs block =
      ((if prev.isMWEBEnabledBefore then some prev.hogex_hash else none).toList.map
      fun hash => (hash, 0)) ++ block.middleTxs.flatMap pegins := by
  obtain ⟨hne, hdrop⟩ := checkPegins_eq_ok_iff.mp hpegins
  rw [← hdrop]
  rcases hbefore : prev.isMWEBEnabledBefore with _ | _
  · rfl
  · -- The first input is there, and it is the one that spends the HogEx before.
    have hne := hne hbefore
    unfold hogexInputs at hne ⊢
    unfold checkHogExInput at hinput
    rcases hvin : block.lastTx.vin with _ | ⟨txin, vin⟩
    · rw [hvin] at hne
      exact absurd rfl hne
    · rw [hvin, reject_eq_ok_iff, hbefore] at hinput
      simp only [map_cons, headD_cons, Bool.true_and, Bool.or_eq_false_iff,
        decide_eq_false_iff_not, ne_eq, not_not] at hinput
      rw [map_cons, outpoint, hinput.1, ← hinput.2]
      rfl

/-- A pegin output of an accepted block has one pegin kernel with its amount. -/
theorem existsUnique_pegin_kernel {body : TxBody} {coin : PegInCoin}
    (hnodup : (body.kernels.map (·.hash)).Nodup) (hcoin : coin ∈ body.getPegIns) :
    ∃! kernel, kernel ∈ body.kernels ∧ kernel.hash = coin.kernelID ∧
      kernel.pegin = some coin.amount := by
  obtain ⟨kernel, hmem, rfl⟩ := mem_map.mp hcoin
  obtain ⟨hmem, hpegin⟩ := mem_filter.mp hmem
  obtain ⟨amount, hamount⟩ := Option.isSome_iff_exists.mp hpegin
  refine ⟨kernel, ⟨hmem, rfl, ?_⟩, fun kernel' h => ?_⟩
  · show kernel.pegin = some (kernel.pegin.getD 0)
    rw [hamount]
    rfl
  · exact inj_on_of_nodup_map hnodup h.1 hmem h.2.1

/-- The HogEx of a block that is accepted matches its extension block. -/
theorem hogExMatches_of_active {crypto : Crypto} (hactive : Active crypto prev block mweb_block)
    (hinput : checkHogExInput prev block = .ok ()) :
    HogExMatches (if prev.isMWEBEnabledBefore then some prev.hogex_hash else none) block
      mweb_block := by
  obtain ⟨hvalid, hdistinct, hpegins, hpegouts⟩ := validateBlock_iff.mp hactive.valid
  refine ⟨hogexInputs_eq hactive.pegins hinput, ?_, hdistinct, hpegins, hpegouts⟩
  intro tx htx out hout kernel_id hpegin
  have hmem : ⟨out.nValue, kernel_id⟩ ∈ blockPegins block := by
    refine mem_flatMap.mpr ⟨tx, htx, mem_filterMap.mpr ⟨out, hout, ?_⟩⟩
    rw [hpegin]
    rfl
  exact existsUnique_pegin_kernel (nodup_kernels_of_validate hvalid) (hpegins.mem_iff.mp hmem)

/-- The recorded amount of a block with an extension block. -/
def hogexAmount (block : CBlock) : Int := (block.lastTx.vout.headD CTxOut.null).nValue

/-- The first output of an accepted HogEx has the amount of the parent and what the body adds. -/
theorem hogexAmount_eq {body : TxBody} (hamounts : checkAmounts prev block body = .ok ()) :
    (0 ≤ hogexAmount block ∧ hogexAmount block ≤ maxMoney) ∧
      hogexAmount block = prev.mweb_amount + body.supplyChange := by
  obtain ⟨hogex_input_amount, -, hamounts⟩ := bind_eq_ok_iff.mp hamounts
  obtain ⟨⟨mweb_fee, supply_change⟩, hmw, hamounts⟩ := bind_eq_ok_iff.mp hamounts
  obtain ⟨value_out, -, hamounts⟩ := bind_eq_ok_iff.mp hamounts
  obtain ⟨hogex_fee, -, hamounts⟩ := bind_eq_ok_iff.mp hamounts
  obtain ⟨-, hamounts⟩ := seq_eq_ok_iff.mp hamounts
  obtain ⟨mweb_amount, hnext, hamounts⟩ := bind_eq_ok_iff.mp hamounts
  rw [reject_eq_ok_iff, Bool.or_eq_false_iff, Bool.not_eq_false', moneyRange_iff,
    decide_eq_false_iff_not,
    not_not] at hamounts
  obtain ⟨hrange, hfirst⟩ := hamounts
  have hsupply : body.getSupplyChange = some supply_change := by
    unfold mwebAmounts at hmw
    split at hmw
    · rename_i hfee hsupply
      rw [hsupply, (Prod.mk.inj (ok.inj hmw)).2]
    · cases hmw
  have hadd : mweb_amount = prev.mweb_amount + supply_change := by
    unfold nextMwebAmount trySafeAdd at hnext
    split at hnext
    · rename_i amount hamount
      rw [← ok.inj hnext, (int64_eq_some_iff.mp hamount).2]
    · cases hnext
  unfold hogexAmount
  rw [← hfirst, ← (TxBody.getSupplyChange_eq_some_iff.mp hsupply).2.2]
  exact ⟨hrange, hadd⟩

/-- What the body of an accepted block adds is what the block adds by its transactions. -/
theorem HogExMatches.netChange_eq {prevHogEx : Option Uint256}
    (hmatch : HogExMatches prevHogEx block mweb_block)
    (hmweb : block.mweb_block = some mweb_block) :
    netChange block = mweb_block.body.supplyChange := by
  rw [netChange, hmweb, TxBody.supplyChange]
  rw [(hmatch.pegins.map (·.amount)).sum_eq, (hmatch.pegouts.map (·.amount)).sum_eq]

/-! ## The checks of the amounts -/

/-- The value of outputs that are not negative, if their sum is in range. -/
theorem sumOutputs_ok {Result : Type} {vout : List CTxOut} {total : Int}
    (hvout : ∀ out ∈ vout, 0 ≤ out.nValue) (htotal : 0 ≤ total)
    (hsum : total + (vout.map (·.nValue)).sum ≤ maxMoney) :
    sumOutputs total vout = (.ok (total + (vout.map (·.nValue)).sum) :
      Except (DefcoinCore.Fault Result) Int) := by
  have hmax : maxMoney = 8400000000000000 := rfl
  induction vout generalizing total with
  | nil =>
    rw [map_nil, sum_nil, add_zero] at hsum ⊢
    unfold sumOutputs
    rw [(moneyRange_iff total).mpr ⟨htotal, hsum⟩]
    rfl
  | cons out vout ih =>
    rw [forall_mem_cons] at hvout
    rw [map_cons, sum_cons, ← add_assoc] at hsum ⊢
    have hrest : 0 ≤ (vout.map (·.nValue)).sum := sum_map_nonneg hvout.2
    unfold sumOutputs
    rw [(moneyRange_iff _).mpr ⟨hvout.1, by omega⟩, toAmount, if_pos ⟨by omega, by omega⟩, ok_bind,
      (moneyRange_iff _).mpr ⟨by omega, by omega⟩]
    exact ih hvout.2 (by omega) hsum

/-- The pegin coin of an output. -/
def peginCoin (output : CTxOut) : Option PegInCoin :=
  (isMWEBPegin output.scriptPubKey).map fun kernel_id => ⟨output.nValue, kernel_id⟩

/-- The loop over pegins in `ConnectBlock` gives the sum, if that is in range. -/
theorem foldlM_addPegin_eq_ok_iff {outputs : List CTxOut} {total total' : Int}
    (hcoins : ∀ coin ∈ outputs.filterMap peginCoin, 0 ≤ coin.amount)
    (htotal : 0 ≤ total ∧ total ≤ maxMoney) :
    outputs.foldlM addPegin total = .ok total' ↔
      total + ((outputs.filterMap peginCoin).map (·.amount)).sum ≤ maxMoney ∧
        total' = total + ((outputs.filterMap peginCoin).map (·.amount)).sum := by
  have hmax : maxMoney = 8400000000000000 := rfl
  induction outputs generalizing total with
  | nil =>
    rw [filterMap_nil, map_nil, sum_nil, add_zero]
    exact ⟨fun h => ⟨htotal.2, (ok.inj h).symm⟩, fun h => by rw [h.2]; rfl⟩
  | cons output outputs ih =>
    rw [foldlM_cons]
    unfold addPegin
    rcases hpegin : isMWEBPegin output.scriptPubKey with _ | kernel_id
    · have hnone : peginCoin output = none := by rw [peginCoin, hpegin]; rfl
      rw [filterMap_cons_none hnone] at hcoins ⊢
      rw [Option.isNone_none, if_pos rfl, ok_bind]
      exact ih hcoins htotal
    · have hsome : peginCoin output =
        some ⟨output.nValue, kernel_id⟩ := by rw [peginCoin, hpegin]; rfl
      rw [filterMap_cons_some hsome, forall_mem_cons] at hcoins
      rw [filterMap_cons_some hsome, map_cons, sum_cons, Option.isNone_some,
        if_neg Bool.false_ne_true, ← add_assoc]
      obtain ⟨hvalue, hcoins⟩ := hcoins
      have hrest : 0 ≤ ((outputs.filterMap peginCoin).map (·.amount)).sum := sum_map_nonneg hcoins
      dsimp only at hvalue ⊢
      by_cases hle : total + output.nValue ≤ maxMoney
      · rw [toAmount, if_pos ⟨by omega, by omega⟩, ok_bind, (moneyRange_iff _).mpr ⟨by omega, hle⟩]
        exact ih hcoins ⟨by omega, hle⟩
      · -- The total does not fit into a `CAmount`, or it is rejected.
        have hout : moneyRange (total + output.nValue) = false := by
          rw [Bool.eq_false_iff, ne_eq, moneyRange_iff]
          exact fun h => hle h.2
        unfold toAmount
        split_ifs
        · rw [ok_bind, hout]
          exact ⟨nofun, fun h => by omega⟩
        · exact ⟨nofun, fun h => by omega⟩

theorem blockPegins_eq (block : CBlock) :
    blockPegins block = (block.middleTxs.flatMap (·.vout)).filterMap peginCoin := by
  rw [filterMap_flatMap]
  rfl

/-- The checks of amounts accept a HogEx with the right outputs if the pegins leave the amount in
range. -/
theorem checkAmounts_eq_ok_iff {body : TxBody}
    (hprev : 0 ≤ prev.mweb_amount ∧ prev.mweb_amount ≤ maxMoney)
    (hvout : block.lastTx.vout ≠ []) (hkernels : ∀ kernel ∈ body.kernels, kernel.Nonneg)
    (hpegins : (blockPegins block).Perm body.getPegIns)
    (hpegouts : (hogexPegouts block).Perm body.getPegOuts)
    (hrange : 0 ≤ hogexAmount block)
    (hamount : hogexAmount block = prev.mweb_amount + body.supplyChange) :
    checkAmounts prev block body = .ok () ↔
      prev.mweb_amount + ((blockPegins block).map (·.amount)).sum ≤ maxMoney := by
  have hmax : maxMoney = 8400000000000000 := rfl
  have hcoins : ∀ coin ∈ blockPegins block, 0 ≤ coin.amount := by
    intro coin hmem
    obtain ⟨kernel, hkernel, rfl⟩ := mem_map.mp (hpegins.mem_iff.mp hmem)
    exact (hkernels kernel (mem_filter.mp hkernel).1).pegin
  unfold checkAmounts
  rw [bind_eq_ok_iff]
  unfold hogexInputAmount
  rw [blockPegins_eq] at hcoins
  simp only [foldlM_addPegin_eq_ok_iff hcoins hprev, ← blockPegins_eq]
  refine ⟨fun ⟨_, h, _⟩ => h.1, fun hle => ⟨_, ⟨hle, rfl⟩, ?_⟩⟩
  -- The sums over kernels that the checks compute.
  have hpeginSum : (body.kernels.map (·.getPegIn)).sum =
      ((blockPegins block).map (·.amount)).sum := by
    rw [← body.sum_getPegIns, (hpegins.map (·.amount)).sum_eq]
  have hpegoutSum : ((hogexPegouts block).map (·.amount)).sum =
    (body.getPegOuts.map (·.amount)).sum :=
    (hpegouts.map (·.amount)).sum_eq
  have hchange : body.supplyChange = ((blockPegins block).map (·.amount)).sum -
      ((hogexPegouts block).map (·.amount)).sum - body.fees := by
    rw [TxBody.supplyChange, ← (hpegins.map (·.amount)).sum_eq, hpegoutSum]
  have hpegoutNonneg : ∀ pegout ∈ hogexPegouts block, 0 ≤ pegout.amount := by
    intro pegout hmem
    obtain ⟨kernel, hkernel, hpegout⟩ := mem_flatMap.mp (hpegouts.mem_iff.mp hmem)
    exact (hkernels kernel hkernel).pegouts pegout hpegout
  have hpegoutSumNonneg : 0 ≤ ((hogexPegouts block).map (·.amount)).sum :=
    sum_map_nonneg hpegoutNonneg
  have hfeeNonneg : 0 ≤ body.fees := sum_map_nonneg fun kernel hmem => (hkernels kernel hmem).fee
  have hfee : body.getTotalFee = some body.fees :=
    foldlM_addMoney_eq_some_iff.mpr ⟨addsUp_of_le (fun kernel hmem => (hkernels kernel hmem).fee)
      (show body.fees ≤ _ by omega), rfl⟩
  have hout := sum_outflow body
  have hsupply : body.getSupplyChange = some body.supplyChange :=
    TxBody.getSupplyChange_ok hkernels (by omega) (by omega)
  have hvalue : (block.lastTx.getValueOut : Except BlockFault Int) =
      .ok (hogexAmount block + ((hogexPegouts block).map (·.amount)).sum) := by
    obtain ⟨hogAddr, rest, hcons⟩ := exists_cons_of_ne_nil hvout
    have hsum : (block.lastTx.vout.map (·.nValue)).sum =
        hogexAmount block + ((hogexPegouts block).map (·.amount)).sum := by
      rw [hogexAmount, hogexPegouts, hcons, map_cons, sum_cons, tail_cons, map_map]
      rfl
    have hnonneg : ∀ out ∈ block.lastTx.vout, 0 ≤ out.nValue := by
      rw [hogexAmount, hcons] at hrange
      rw [hogexPegouts, hcons, forall_mem_map] at hpegoutNonneg
      rw [hcons]
      exact forall_mem_cons.mpr ⟨hrange, hpegoutNonneg⟩
    rw [getValueOut, sumOutputs_ok hnonneg (le_refl 0) (by omega), hsum, zero_add]
  unfold mwebAmounts
  rw [hfee, hsupply]
  rw [ok_bind, hvalue, ok_bind, toAmount, if_pos ⟨by omega, by omega⟩, ok_bind, seq_eq_ok_iff,
    reject_eq_ok_iff]
  constructor
  · rw [Bool.or_eq_false_iff, Bool.not_eq_false', moneyRange_iff, decide_eq_false_iff_not, not_not]
    exact ⟨⟨by omega, by omega⟩, by omega⟩
  · unfold nextMwebAmount trySafeAdd
    rw [int64_eq_some_iff.mpr ⟨⟨by omega, by omega⟩, rfl⟩]
    rw [ok_bind, reject_eq_ok_iff, Bool.or_eq_false_iff, Bool.not_eq_false', moneyRange_iff,
      decide_eq_false_iff_not, not_not]
    exact ⟨⟨by omega, by omega⟩, hamount.symm⟩

/-! ## Chains -/

/-- What the index of a block has of the extension block, and the height of the block. -/
structure MwebIndex where
  nHeight : Int
  hogex_hash : Uint256
  mweb_amount : Int

/-- What the checks of the next block read of the index, with extension blocks active from a height
on. No check here reads the median time. -/
def MwebIndex.prevIndex (activation : Int) (tip : MwebIndex) : PrevIndex where
  nHeight := tip.nHeight
  getMedianTimePast := 0
  isMWEBEnabled := activation ≤ tip.nHeight + 1
  isMWEBEnabledBefore := activation ≤ tip.nHeight
  hogex_hash := tip.hogex_hash
  mweb_amount := tip.mweb_amount

/-- The end of `CChainState::ConnectBlock`: what a new index records of its block. -/
def MwebIndex.update (nHeight : Int) (block : CBlock) : MwebIndex :=
  if block.mweb_block.isNone then ⟨nHeight, 0, 0⟩
  else ⟨nHeight, block.lastTx.hash, (block.lastTx.vout.headD CTxOut.null).nValue⟩

section Chain

variable (params : MwebParams) (crypto : NodeCrypto) (getHash : CBlockHeader → Uint256)
  (activation : Int)

/-- A block is accepted on top of the chain: it is checked, and connected to a view. The view is an
input, since a chain may be connected in several attempts. -/
def connectNext (tip : MwebIndex) (next : CBlock × CoinsView) : Except BlockFault MwebIndex := do
  let (block, view) := next
  let prev := tip.prevIndex activation
  (contextualCheckBlock crypto.toCrypto prev block).mapError .invalid
  let _ ← (connectBlock params crypto (getHash block.toCBlockHeader) prev block view).1
  pure (MwebIndex.update (tip.nHeight + 1) block)

/-- A chain of blocks is accepted one by one. -/
def connectChain (tip : MwebIndex) (blocks : List (CBlock × CoinsView)) :
    Except BlockFault MwebIndex :=
  blocks.foldlM (connectNext params crypto getHash activation) tip

end Chain

/-- The HogEx of the last block, if that has an extension block. -/
def lastHogEx (blocks : List (CBlock × CoinsView)) : Option Uint256 :=
  match blocks.getLast? with
  | none => none
  | some (block, _) => if block.mweb_block.isSome then some block.lastTx.hash else none

theorem maxMoney_nonneg : 0 ≤ maxMoney := by decide

theorem lastHogEx_concat (blocks : List (CBlock × CoinsView)) (next : CBlock × CoinsView) :
    lastHogEx (blocks ++ [next]) =
      if next.1.mweb_block.isSome then some next.1.lastTx.hash else none := by
  unfold lastHogEx
  rw [getLast?_append, getLast?_singleton, Option.some_or]

/-- What the index of the last of some blocks records, after a start before the activation. -/
structure Accounts (activation : Int) (blocks : List (CBlock × CoinsView)) (tip : MwebIndex) :
    Prop where
  range : 0 ≤ tip.mweb_amount ∧ tip.mweb_amount ≤ maxMoney
  amount : tip.mweb_amount = (blocks.map fun next => netChange next.1).sum
  /-- Nothing is recorded before the activation. -/
  before : tip.nHeight < activation → tip.mweb_amount = 0
  /-- The recorded HogEx is the one of the last block, which has one from the activation on. -/
  hogex : lastHogEx blocks = if activation ≤ tip.nHeight then some tip.hogex_hash else none

section Chain

variable {params : MwebParams} {crypto : NodeCrypto} {getHash : CBlockHeader → Uint256}
  {activation : Int}
  {tip0 tip tip' : MwebIndex} {next : CBlock × CoinsView} {blocks : List (CBlock × CoinsView)}

/-- What a block that is accepted on top of a chain has passed. -/
theorem connectNext_eq_ok (h : connectNext params crypto getHash activation tip next = .ok tip') :
    tip' = MwebIndex.update (tip.nHeight + 1) next.1 ∧
      next.1.mweb_block.isSome = decide (activation ≤ tip.nHeight + 1) ∧
      ∀ mweb_block, next.1.mweb_block = some mweb_block →
        Active crypto.toCrypto (tip.prevIndex activation) next.1 mweb_block ∧
        checkHogExInput (tip.prevIndex activation) next.1 = .ok () ∧
        checkAmounts (tip.prevIndex activation) next.1 mweb_block.body = .ok () := by
  obtain ⟨block, view⟩ := next
  obtain ⟨hcheck, h⟩ := seq_eq_ok_iff.mp h
  obtain ⟨undo, hconnect, h⟩ := bind_eq_ok_iff.mp h
  have hnode : Node.contextualCheckBlock crypto.toCrypto (tip.prevIndex activation) block =
      .ok () := by
    rcases hnode : Node.contextualCheckBlock crypto.toCrypto (tip.prevIndex activation)
      block with e | u
    · rw [hnode] at hcheck
      cases hcheck
    · rfl
  refine ⟨(ok.inj h).symm, isSome_mweb_block_eq hnode, fun mweb_block hmweb => ?_⟩
  unfold connectBlock at hconnect
  rw [hmweb] at hconnect
  obtain ⟨hhogex, -⟩ := connectExtension_eq_ok (Prod.ext hconnect rfl)
  exact ⟨active_of_nodeCheck hnode hmweb, seq_eq_ok_iff.mp hhogex⟩

section

variable (h : Accounts activation blocks tip)
  (hnext : connectNext params crypto getHash activation tip next = .ok tip')

include h hnext

/-- The HogEx of a block that is accepted on top of a chain matches its extension block. -/
theorem Accounts.hogExMatches {mweb_block : Block} (hmweb : next.1.mweb_block = some mweb_block) :
    HogExMatches (lastHogEx blocks) next.1 mweb_block := by
  obtain ⟨-, -, hpassed⟩ := connectNext_eq_ok hnext
  obtain ⟨hactive, hinput, -⟩ := hpassed mweb_block hmweb
  have hmatch := hogExMatches_of_active hactive hinput
  rw [h.hogex]
  simpa only [MwebIndex.prevIndex, decide_eq_true_eq] using hmatch

/-- The accounts are kept by a block. -/
theorem Accounts.connectNext : Accounts activation (blocks ++ [next]) tip' := by
  obtain ⟨rfl, hsome, hpassed⟩ := connectNext_eq_ok hnext
  have hsum : ((blocks ++ [next]).map fun next => netChange next.1).sum =
      tip.mweb_amount + netChange next.1 := by
    rw [map_append, sum_append, ← h.amount, map_singleton, sum_singleton]
  unfold MwebIndex.update
  rcases hmweb : next.1.mweb_block with _ | mweb_block
  · -- Before the activation nothing was recorded, and nothing is.
    rw [hmweb, Option.isSome_none, eq_comm, decide_eq_false_iff_not] at hsome
    have hzero : tip.mweb_amount = 0 := h.before (by omega)
    have hnet : netChange next.1 = 0 := by rw [netChange, hmweb]
    rw [Option.isNone_none, if_pos rfl]
    refine ⟨⟨le_rfl, maxMoney_nonneg⟩, ?_, fun _ => rfl, ?_⟩
    · rw [hsum, hzero, hnet]
      rfl
    · rw [lastHogEx_concat, hmweb, Option.isSome_none, if_neg Bool.false_ne_true, if_neg hsome]
  · rw [hmweb, Option.isSome_some, eq_comm, decide_eq_true_eq] at hsome
    obtain ⟨-, -, hamounts⟩ := hpassed mweb_block hmweb
    obtain ⟨hrange, hamount⟩ := hogexAmount_eq hamounts
    rw [← (h.hogExMatches hnext hmweb).netChange_eq hmweb] at hamount
    rw [Option.isNone_some, if_neg Bool.false_ne_true]
    refine ⟨hrange, ?_, fun hlt => absurd hsome (not_le.mpr hlt), ?_⟩
    · rw [hsum]
      exact hamount
    · rw [lastHogEx_concat, hmweb, Option.isSome_some, if_pos rfl, if_pos hsome]

end

/-- The accounts are kept by a chain. -/
theorem accounts_of_connectChain (hheight : tip0.nHeight < activation)
    (hamount : tip0.mweb_amount = 0)
    (hrun : connectChain params crypto getHash activation tip0 blocks = .ok tip) :
    Accounts activation blocks tip := by
  have hstart : Accounts activation [] tip0 := by
    refine ⟨?_, hamount, fun _ => hamount, ?_⟩
    · rw [hamount]
      exact ⟨le_rfl, maxMoney_nonneg⟩
    · rw [if_neg (not_le.mpr hheight)]
      rfl
  exact Ensures.foldlM_ok (P := Accounts activation) hrun hstart fun _ _ _ _ _ h hnext =>
    h.connectNext hnext

/-- The chain up to a place is accepted before the rest. -/
theorem connectChain_append {done rest : List (CBlock × CoinsView)}
    (hrun : connectChain params crypto getHash activation tip0 (done ++ rest) = .ok tip) :
    ∃ tip1, connectChain params crypto getHash activation tip0 done = .ok tip1 ∧
      connectChain params crypto getHash activation tip1 rest = .ok tip := by
  unfold connectChain at hrun ⊢
  rw [foldlM_append] at hrun
  exact bind_eq_ok_iff.mp hrun

/-- Along a chain of accepted blocks, with extension blocks active from some height on, each block
records what went into the extension block less what came out and the fees, and this is an amount of
money. Each HogEx spends the first output of the one before it and the pegins of its block, which
match the pegin kernels, and pays the pegouts of the kernels. -/
theorem connectChain_accounts (hheight : tip0.nHeight < activation) (hamount : tip0.mweb_amount = 0)
    (hrun : connectChain params crypto getHash activation tip0 blocks = .ok tip) :
    (∀ done rest, blocks = done ++ rest → ∃ tip1,
      connectChain params crypto getHash activation tip0 done = .ok tip1 ∧
      (0 ≤ tip1.mweb_amount ∧ tip1.mweb_amount ≤ maxMoney) ∧
      tip1.mweb_amount = (done.map fun next => netChange next.1).sum) ∧
    ∀ done next rest mweb_block, blocks = done ++ next :: rest →
      next.1.mweb_block = some mweb_block →
      HogExMatches (lastHogEx done) next.1 mweb_block := by
  constructor
  · rintro done rest rfl
    obtain ⟨tip1, hdone, -⟩ := connectChain_append hrun
    have h := accounts_of_connectChain hheight hamount hdone
    exact ⟨tip1, hdone, h.range, h.amount⟩
  · rintro done next rest mweb_block rfl hmweb
    obtain ⟨tip1, hdone, hrest⟩ := connectChain_append hrun
    obtain ⟨tip2, hnext, -⟩ := bind_eq_ok_iff.mp hrest
    exact (accounts_of_connectChain hheight hamount hdone).hogExMatches hnext hmweb

end Chain

/-- An extension block that pays four coins out, to follow the one that takes in ten. -/
def payingMwebBlock : Block :=
  { peginMwebBlock with
    header.height := 2
    header.kernelRoot := 103
    body.kernels := [sampleKernel 4 none [⟨4, [0x51, 0x51]⟩] 6] }

/-- Its HogEx spends that of the block with the pegin. -/
def payingBlock : CBlock :=
  { peginBlock false false with
    vtx := (peginBlock false false).vtx.take 1 ++ [⟨[⟨⟨3, 0⟩, [], 0, []⟩],
      [⟨6, 0x58 :: 32 :: (replicate 31 0 ++ [7])⟩, ⟨4, [0x51, 0x51]⟩], 1, 0, none, true, 4, 4⟩]
    mweb_block := some payingMwebBlock }

/-- The chain with the two blocks, from the index before them. -/
theorem connectChain_accounts_peginBlock : ∃ tip,
    connectChain openParams peginCrypto (fun _ => 0) 1 ⟨0, 0, 0⟩
      [(peginBlock false false, .empty), (payingBlock, .empty)] = .ok tip ∧
      tip.mweb_amount = 6 ∧ HogExMatches (some 3) payingBlock payingMwebBlock := by
  have hrun : Returns (connectChain openParams peginCrypto (fun _ => 0) 1 ⟨0, 0, 0⟩
      [(peginBlock false false, .empty), (payingBlock, .empty)])
      fun tip => tip.mweb_amount = 6 := by decide +kernel
  obtain ⟨tip, htip, hamount⟩ := hrun.exists_ok
  obtain ⟨-, hmatch⟩ := connectChain_accounts (by decide) rfl htip
  exact ⟨tip, htip, hamount, hmatch [_] _ [] payingMwebBlock rfl rfl⟩

end Node

end DefcoinCore.Mweb
