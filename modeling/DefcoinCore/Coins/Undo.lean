import DefcoinCore.Coins.Coin
import DefcoinCore.Net.Message

/-!
# Undo data

What is written beside a block so that it can be taken back (`undo.h`): the coins that the inputs of
its transactions spent, and the undo data of its extension block. A coin is written with its height
and its coinbase flag, but without the pegout flag that `Coin` has. So what comes back from the file
is the undo data with the pegout flags cleared (`reads_blockUndo`).
-/

namespace DefcoinCore

open List

/-- Undo information for a transaction: the coins of its inputs. -/
structure CTxUndo where
  vprevout : List Coin
  deriving DecidableEq

/-- Undo information for a block, with an entry for every transaction but the coinbase. -/
structure CBlockUndo where
  vtxundo : List CTxUndo
  mwundo : Option Mweb.BlockUndo
  deriving DecidableEq

/-- The format of the undo data of an extension block. -/
structure MwebUndoFormat where
  write : Mweb.BlockUndo → List UInt8
  read : Get Mweb.BlockUndo

/-- The undo data of an extension block reads back from its bytes, of which there is at least one.
-/
structure MwebUndoFormat.RoundTrips (format : MwebUndoFormat) (undo : Mweb.BlockUndo) : Prop where
  reads : Reads format.read (format.write undo) undo
  nonempty : format.write undo ≠ []

/-! ## Writing -/

/-- `TxInUndoFormatter::Ser`. -/
def writeTxInUndo (curve : Curve) (txout : Coin) : List UInt8 :=
  writeVarInt 32 (txout.nHeight.val * 2 + txout.fCoinBase.toNat) ++
    -- A byte that older versions read as a version number.
    (if txout.nHeight.val > 0 then [0] else []) ++ writeTxOut curve txout.out

/-- `CTxUndo` as it is written. -/
def writeTxUndo (curve : Curve) (txundo : CTxUndo) : List UInt8 :=
  writeVector (writeTxInUndo curve) txundo.vprevout

/-- `CBlockUndo` as it is written. -/
def CBlockUndo.serialize (curve : Curve) (format : MwebUndoFormat) (blockundo : CBlockUndo) :
    List UInt8 :=
  writeVector (writeTxUndo curve) blockundo.vtxundo ++ (blockundo.mwundo.map format.write).getD []

/-! ## Reading -/

/-- `TxInUndoFormatter::Unser`, into a new coin. -/
def readTxInUndo (curve : Curve) : Get Coin := do
  let nCode ← readVarInt 32
  let _ ← if nCode / 2 > 0 then readVarInt 32 else pure 0
  let out ← readTxOut curve
  pure { Coin.empty with
    out, fCoinBase := nCode % 2 ≠ 0, nHeight := Fin.ofNat (2 ^ 31) (nCode / 2) }

/-- `CTxUndo` as it is read. -/
def readTxUndo (curve : Curve) : Get CTxUndo := do
  let vprevout ← readVector Net.maxSize (readTxInUndo curve)
  pure ⟨vprevout⟩

/-- The end of `UnserializeBlockUndo`. That there is undo data of an extension block is known from
the number of bytes that were written. -/
def readMwundo (curve : Curve) (format : MwebUndoFormat) (num_bytes : Nat)
    (vtxundo : List CTxUndo) : Get CBlockUndo :=
  if (CBlockUndo.serialize curve format ⟨vtxundo, none⟩).length < num_bytes then do
    let mwundo ← format.read
    pure ⟨vtxundo, some mwundo⟩
  else pure ⟨vtxundo, none⟩

/-- `UnserializeBlockUndo`. -/
def unserializeBlockUndo (curve : Curve) (format : MwebUndoFormat) (num_bytes : Nat) :
    Get CBlockUndo := do
  let vtxundo ← readVector Net.maxSize (readTxUndo curve)
  readMwundo curve format num_bytes vtxundo

/-! ## What comes back -/

/-- A coin without its pegout flag. -/
def Coin.clearPegout (c : Coin) : Coin := { c with fPegout := false }

/-- The undo information of a transaction without pegout flags. -/
def CTxUndo.clearPegout (txundo : CTxUndo) : CTxUndo := ⟨txundo.vprevout.map Coin.clearPegout⟩

/-- Coins that the undo format is made for. -/
structure Coin.Regular (c : Coin) : Prop where
  height_pos : 1 ≤ c.nHeight.val
  height_lt : c.nHeight.val < 2 ^ 30
  value : 0 ≤ c.out.nValue ∧ c.out.nValue ≤ maxMoney
  spendable : isUnspendable c.out.scriptPubKey = false

variable {c : Coin} {curve : Curve} {format : MwebUndoFormat} {blockundo : CBlockUndo}

theorem Coin.Regular.isSpent (h : c.Regular) : c.isSpent = false :=
  isSpent_of_nonneg h.value.1

theorem Coin.Regular.size (h : c.Regular) : c.out.scriptPubKey.length ≤ maxScriptSize := by
  have hsp := h.spendable
  unfold isUnspendable at hsp
  rw [decide_eq_false_iff_not, not_or] at hsp
  omega

theorem Coin.Regular.clearPegout (h : c.Regular) : c.clearPegout.Regular :=
  ⟨h.height_pos, h.height_lt, h.value, h.spendable⟩

/-- A coin comes back without its pegout flag. -/
theorem reads_txInUndo (hcurve : curve.Lawful) (hc : c.Regular) :
    Reads (readTxInUndo curve) (writeTxInUndo curve c) c.clearPegout := by
  obtain ⟨hpos, hlt, hvalue, hsp⟩ := hc
  have hsize := Coin.Regular.size ⟨hpos, hlt, hvalue, hsp⟩
  have hbit : c.fCoinBase.toNat ≤ 1 := Bool.toNat_le c.fCoinBase
  unfold writeTxInUndo
  rw [if_pos (by omega), append_assoc]
  refine (Reads.readVarInt (by norm_num) (by omega)).bind ?_
  rw [if_pos (by omega)]
  have hzero : writeVarInt 32 0 = [0] := by decide
  rw [← hzero]
  refine (Reads.readVarInt (by norm_num) (by norm_num)).bind ?_
  have hcoin : ({ Coin.empty with
      out := c.out
      fCoinBase := (c.nHeight.val * 2 + c.fCoinBase.toNat) % 2 ≠ 0
      nHeight := Fin.ofNat (2 ^ 31) ((c.nHeight.val * 2 + c.fCoinBase.toNat) / 2) } : Coin) =
      c.clearPegout := by
    obtain ⟨out, fCoinBase, nHeight, fPegout⟩ := c
    unfold Coin.clearPegout
    rw [Coin.mk.injEq]
    refine ⟨rfl, ?_, ?_, rfl⟩
    · cases fCoinBase <;> simp
    · apply Fin.ext
      show (nHeight.val * 2 + fCoinBase.toNat) / 2 % 2 ^ 31 = nHeight.val
      dsimp only at hbit
      omega
  rw [← hcoin]
  exact (reads_txOut hcurve hvalue hsize).bind_pure _

/-- The undo information of a transaction comes back without pegout flags. -/
theorem reads_txUndo (hcurve : curve.Lawful) {txundo : CTxUndo}
    (hcoins : ∀ c ∈ txundo.vprevout, c.Regular) (hlen : txundo.vprevout.length ≤ Net.maxSize) :
    Reads (readTxUndo curve) (writeTxUndo curve txundo) txundo.clearPegout := by
  have hmax : Net.maxSize = 0x02000000 := rfl
  exact (Reads.readVector txundo.vprevout (fun c hc => reads_txInUndo hcurve (hcoins c hc)) hlen
    (by omega)).bind_pure CTxUndo.mk

/-- The writer does not look at the pegout flags. -/
theorem writeTxUndo_clearPegout (curve : Curve) (txundo : CTxUndo) :
    writeTxUndo curve txundo.clearPegout = writeTxUndo curve txundo := by
  unfold writeTxUndo writeVector CTxUndo.clearPegout
  rw [length_map, flatMap_map]
  rfl

theorem serialize_clearPegout (curve : Curve) (format : MwebUndoFormat) (vtxundo : List CTxUndo) :
    (CBlockUndo.serialize curve format ⟨vtxundo.map CTxUndo.clearPegout, none⟩) =
      CBlockUndo.serialize curve format ⟨vtxundo, none⟩ := by
  unfold CBlockUndo.serialize writeVector
  rw [length_map, flatMap_map]
  congr 2
  exact congrArg (flatMap · vtxundo) (funext fun txundo => writeTxUndo_clearPegout curve txundo)

/-- The undo data of the extension block is read if and only if it was written. -/
theorem reads_mwundo (curve : Curve)
    (hmw : ∀ undo, blockundo.mwundo = some undo → format.RoundTrips undo) :
    Reads (readMwundo curve format (blockundo.serialize curve format).length
        (blockundo.vtxundo.map CTxUndo.clearPegout))
      ((blockundo.mwundo.map format.write).getD [])
      ⟨blockundo.vtxundo.map CTxUndo.clearPegout, blockundo.mwundo⟩ := by
  obtain ⟨vtxundo, mwundo⟩ := blockundo
  unfold readMwundo
  rw [serialize_clearPegout]
  cases mwundo with
  | none =>
    rw [if_neg (lt_irrefl _)]
    exact Reads.pure _
  | some undo =>
    obtain ⟨hreads, hne⟩ := hmw undo rfl
    have hpos : 0 < (format.write undo).length := length_pos_iff.mpr hne
    rw [if_pos (by
      unfold CBlockUndo.serialize
      dsimp only [Option.map_some, Option.map_none, Option.getD_some, Option.getD_none]
      rw [length_append, length_append, length_nil]
      omega)]
    exact hreads.bind_pure fun undo => CBlockUndo.mk (vtxundo.map CTxUndo.clearPegout) (some undo)

/-- The undo data of a block comes back without pegout flags. -/
theorem reads_blockUndo (hcurve : curve.Lawful)
    (hmw : ∀ undo, blockundo.mwundo = some undo → format.RoundTrips undo)
    (hcoins : ∀ txundo ∈ blockundo.vtxundo, ∀ c ∈ txundo.vprevout, c.Regular)
    (hins : ∀ txundo ∈ blockundo.vtxundo, txundo.vprevout.length ≤ Net.maxSize)
    (hlen : blockundo.vtxundo.length ≤ Net.maxSize) :
    Reads (unserializeBlockUndo curve format (blockundo.serialize curve format).length)
      (blockundo.serialize curve format)
      ⟨blockundo.vtxundo.map CTxUndo.clearPegout, blockundo.mwundo⟩ := by
  have hmax : Net.maxSize = 0x02000000 := rfl
  have hread := Reads.readVector blockundo.vtxundo
    (fun txundo h => reads_txUndo hcurve (hcoins txundo h) (hins txundo h)) hlen (by omega)
  exact hread.bind (reads_mwundo curve hmw)

end DefcoinCore
