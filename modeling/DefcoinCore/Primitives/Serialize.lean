import DefcoinCore.Lib.HashTree
import DefcoinCore.Lib.VarInt
import DefcoinCore.Primitives.Block

/-!
# Transactions and blocks as bytes

The formats of `primitives/transaction.h` and `primitives/block.h` without data of extension blocks
(`SERIALIZE_NO_MWEB`), with or without witnesses. What a transaction id commits to is the format
without witnesses; `strip` takes the rest away from a transaction.
-/

namespace DefcoinCore

open List

/-- The bytes of a hash. -/
def writeUint256 (hash : Uint256) : List UInt8 := writeLE 32 hash.toNat

/-- The bytes of a script, with its size. -/
def writeScriptBytes (script : CScript) : List UInt8 := writeCompactSize script.length ++ script

/-- `CTxIn` as it is written. -/
def serializeTxIn (txin : CTxIn) : List UInt8 :=
  writeUint256 txin.prevout.hash ++ writeLE 4 txin.prevout.n.toNat ++
    writeScriptBytes txin.scriptSig ++ writeLE 4 txin.nSequence.toNat

/-- `CTxOut` as it is written. -/
def serializeTxOut (txout : CTxOut) : List UInt8 :=
  writeLE 8 (txout.nValue % 2 ^ 64).toNat ++ writeScriptBytes txout.scriptPubKey

/-- `SerializeTransaction` without data of extension blocks. -/
def serializeTx (fAllowWitness : Bool) (tx : CTransaction) : List UInt8 :=
  let witness := fAllowWitness && tx.hasWitness
  writeInt32 tx.nVersion ++
    -- An empty list of inputs and the flags mark the extended format.
    (if witness then [0, 1] else []) ++
    writeVector serializeTxIn tx.vin ++ writeVector serializeTxOut tx.vout ++
    (if witness then tx.vin.flatMap fun txin => writeVector writeScriptBytes txin.scriptWitness
      else []) ++
    writeLE 4 tx.nLockTime.toNat

/-- `CBlockHeader` as it is written. -/
def serializeHeader (header : CBlockHeader) : List UInt8 :=
  writeInt32 header.nVersion ++ writeUint256 header.hashPrevBlock ++
    writeUint256 header.hashMerkleRoot ++ writeLE 4 header.nTime.toNat ++
    writeLE 4 header.nBits.toNat ++ writeLE 4 header.nNonce.toNat

/-- `CBlock` as it is written, without data of extension blocks. -/
def serializeBlock (fAllowWitness : Bool) (block : CBlock) : List UInt8 :=
  serializeHeader block.toCBlockHeader ++ writeVector (serializeTx fAllowWitness) block.vtx

/-! ## What is committed to -/

/-- An input without its witness. -/
def CTxIn.strip (txin : CTxIn) : CTxIn := { txin with scriptWitness := [] }

/-- A transaction without what its id does not commit to. -/
def CTransaction.strip (tx : CTransaction) : CTransaction :=
  { tx with
    vin := tx.vin.map CTxIn.strip
    mweb_tx := none
    m_hogEx := false
    m_witness_hash := tx.hash }

/-- A block without what its hash does not commit to. -/
def CBlock.strip (block : CBlock) : CBlock :=
  { block with
    vtx := block.vtx.map CTransaction.strip
    fChecked := false
    mweb_block := none }

section

variable (tx : CTransaction)

@[simp]
theorem CTransaction.vout_strip : tx.strip.vout = tx.vout := rfl

@[simp]
theorem CTransaction.isEmpty_vin_strip : tx.strip.vin.isEmpty = tx.vin.isEmpty := by
  unfold strip
  rw [isEmpty_map]

@[simp]
theorem CTransaction.isCoinBase_strip : tx.strip.isCoinBase = tx.isCoinBase := by
  unfold isCoinBase strip
  rcases tx.vin with _ | ⟨txin, _ | ⟨txin', vin⟩⟩
  · rfl
  · rfl
  · rfl

theorem CTransaction.prevouts_strip :
    (tx.strip.vin.map (·.prevout)) = tx.vin.map (·.prevout) := by
  unfold strip
  rw [map_map]
  rfl

/-- The format without witnesses has only what is committed to. -/
theorem serializeTx_strip : serializeTx false tx.strip = serializeTx false tx := by
  unfold serializeTx CTransaction.strip writeVector
  rw [Bool.false_and, Bool.false_and, length_map, flatMap_map]
  rfl

end

theorem serializeBlock_strip (block : CBlock) :
    serializeBlock false block.strip = serializeBlock false block := by
  unfold serializeBlock CBlock.strip writeVector
  rw [length_map, flatMap_map]
  congr 2
  exact congrArg (flatMap · block.vtx) (funext serializeTx_strip)

/-- The witnesses of a transaction. -/
def CTransaction.witnesses (tx : CTransaction) : List (List (List UInt8)) :=
  tx.vin.map (·.scriptWitness)

/-- Inputs are what is committed to, and their witnesses. -/
theorem vin_eq_of_strip {vin vin' : List CTxIn}
    (hstrip : vin.map CTxIn.strip = vin'.map CTxIn.strip)
    (hwit : (vin.map (·.scriptWitness)) = vin'.map (·.scriptWitness)) :
    vin = vin' := by
  refine eq_of_map_eq_of_injOn (s := Set.univ) ?_ (fun _ _ => trivial) (fun _ _ => trivial)
    (map_prodMk_eq hstrip hwit)
  rintro ⟨prevout, scriptSig, nSequence, scriptWitness⟩ - ⟨prevout', scriptSig', nSequence',
    scriptWitness'⟩ - h
  simpa [CTxIn.strip, and_assoc] using h

/-- A transaction is written as what is committed to, and its witnesses. -/
theorem serializeTx_congr {tx tx' : CTransaction} (hstrip : tx.strip = tx'.strip)
    (hwit : tx.witnesses = tx'.witnesses) (fAllowWitness : Bool) :
    serializeTx fAllowWitness tx = serializeTx fAllowWitness tx' := by
  have hvin : tx.vin = tx'.vin := vin_eq_of_strip (congrArg CTransaction.vin hstrip) hwit
  have hvout : tx.vout = tx'.vout := by rw [← tx.vout_strip, hstrip, tx'.vout_strip]
  have hversion : tx.strip.nVersion = tx'.strip.nVersion := by rw [hstrip]
  have hlock : tx.strip.nLockTime = tx'.strip.nLockTime := by rw [hstrip]
  change tx.nVersion = tx'.nVersion at hversion
  change tx.nLockTime = tx'.nLockTime at hlock
  unfold serializeTx CTransaction.hasWitness
  rw [hvin, hvout, hversion, hlock]

/-- So is a block. -/
theorem serializeBlock_congr {block block' : CBlock}
    (hheader : block.toCBlockHeader = block'.toCBlockHeader)
    (hstrip : block.vtx.map CTransaction.strip = block'.vtx.map CTransaction.strip)
    (hwit : block.vtx.map CTransaction.witnesses = block'.vtx.map CTransaction.witnesses)
    (fAllowWitness : Bool) :
    serializeBlock fAllowWitness block = serializeBlock fAllowWitness block' := by
  have htxs : block.vtx.map (serializeTx fAllowWitness) =
      block'.vtx.map (serializeTx fAllowWitness) := by
    refine map_eq_of_map_eq (fun tx _ tx' _ h => ?_) (map_prodMk_eq hstrip hwit)
    rw [Prod.mk.injEq] at h
    exact serializeTx_congr h.1 h.2 fAllowWitness
  have hlen : block.vtx.length = block'.vtx.length := by simpa using congrArg length hstrip
  unfold serializeBlock writeVector
  rw [hheader, hlen, flatMap_def, htxs, ← flatMap_def]

/-- Blocks with the same header and transaction ids, where equal ids mean the same committed data,
are the same up to what is not committed to. -/
theorem strip_eq_of_ids {vtx vtx' : List CTransaction}
    (hids : (vtx.map (·.hash)) = vtx'.map (·.hash))
    (hfree : ∀ tx ∈ vtx, ∀ tx' ∈ vtx', tx.hash = tx'.hash → tx.strip = tx'.strip) :
    vtx.map CTransaction.strip = vtx'.map CTransaction.strip := map_eq_of_map_eq hfree hids

end DefcoinCore
