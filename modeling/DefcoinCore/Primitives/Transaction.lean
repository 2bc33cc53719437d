import DefcoinCore.Mweb.Models

/-!
# Transactions

Outpoints, inputs, outputs and transactions of `primitives/transaction.h`, amounts of `amount.h`,
and the tests on a script that the UTXO set uses. The two hashes of a transaction are fields, as in
the source, where the constructor computes them.
-/

namespace DefcoinCore

open Std

/-! ## Amounts -/

/-- `COIN`. -/
def coin : Int := 100000000

/-- `MAX_MONEY`. -/
def maxMoney : Int := 84000000 * coin

/-- `MoneyRange`. -/
def moneyRange (nValue : Int) : Bool := 0 ≤ nValue ∧ nValue ≤ maxMoney

theorem moneyRange_iff (nValue : Int) :
    moneyRange nValue ↔ 0 ≤ nValue ∧ nValue ≤ maxMoney := by
  rw [moneyRange, decide_eq_true_eq]

/-! ## Scripts -/

/-- `OP_RETURN`. -/
def opReturn : UInt8 := 0x6a

/-- `MAX_SCRIPT_SIZE`. -/
def maxScriptSize : Nat := 10000

/-- `CScript::IsUnspendable`. -/
def isUnspendable (script : CScript) : Bool :=
  script.head? = some opReturn ∨ script.length > maxScriptSize

/-! ## Outpoints -/

/-- An output of a transaction: the hash of the transaction and the output's index in it. -/
structure COutPoint where
  hash : Uint256
  n : UInt32
  deriving DecidableEq

/-- `COutPoint::NULL_INDEX`. -/
def nullIndex : UInt32 := 0xFFFFFFFF

/-- `COutPoint::IsNull`. -/
def COutPoint.isNull (out : COutPoint) : Bool := out.hash = 0 ∧ out.n = nullIndex

/-- `operator<` of `COutPoint`: by hash, then by index. -/
instance : Ord COutPoint :=
  ⟨compareLex (compareOn (·.hash)) (compareOn (·.n))⟩

instance : TransOrd COutPoint :=
  inferInstanceAs (TransCmp (compareLex (compareOn fun a : COutPoint => a.hash)
    (compareOn fun a : COutPoint => a.n)))

instance : LawfulEqOrd COutPoint where
  eq_of_compare {a b} h := by
    have hlex : (compare a.hash b.hash).then (compare a.n b.n) = .eq := h
    rw [Ordering.then_eq_eq, Std.compare_eq_iff_eq, Std.compare_eq_iff_eq] at hlex
    obtain ⟨hhash, hn⟩ := hlex
    cases a
    cases b
    rw [COutPoint.mk.injEq]
    exact ⟨hhash, hn⟩

/-! ## Transactions -/

/-- An input: the output it spends, its script and witness, and its sequence number. -/
structure CTxIn where
  prevout : COutPoint
  scriptSig : CScript
  nSequence : UInt32
  scriptWitness : List (List UInt8)
  deriving DecidableEq

/-- An output: an amount and the script that guards it. -/
structure CTxOut where
  nValue : Int
  scriptPubKey : CScript
  deriving DecidableEq

/-- `CTxOut::SetNull`. -/
def CTxOut.null : CTxOut := ⟨-1, []⟩

/-- `CTxOut::IsNull`. -/
def CTxOut.isNull (out : CTxOut) : Bool := out.nValue = -1

structure CTransaction where
  vin : List CTxIn
  vout : List CTxOut
  nVersion : Int
  nLockTime : UInt32
  /-- The Mimblewimble transaction that travels with this one, if there is one. -/
  mweb_tx : Option Mweb.Transaction
  /-- The marker of the integrating transaction of an extension block. -/
  m_hogEx : Bool
  /-- The transaction id. -/
  hash : Uint256
  /-- The id with the witnesses hashed in. -/
  m_witness_hash : Uint256
  deriving DecidableEq

namespace CTransaction

variable (tx : CTransaction)

/-- `CTransaction::IsCoinBase`. -/
def isCoinBase : Bool :=
  match tx.vin with
  | [txin] => txin.prevout.isNull
  | _ => false

/-- `CTransaction::HasWitness`. -/
def hasWitness : Bool := tx.vin.any fun txin => !txin.scriptWitness.isEmpty

/-- `CTransaction::HasMWEBTx`. -/
def hasMWEBTx : Bool := tx.mweb_tx.isSome

/-- `CTransaction::IsMWEBOnly`. -/
def isMWEBOnly : Bool := tx.hasMWEBTx && tx.vin.isEmpty && tx.vout.isEmpty

/-- The outpoint of the `i`-th output. -/
def outPoint (i : Nat) : COutPoint := ⟨tx.hash, UInt32.ofNat i⟩

end CTransaction

end DefcoinCore
