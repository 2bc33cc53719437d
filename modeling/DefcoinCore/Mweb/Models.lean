import DefcoinCore.Chain.BlockIndex
import DefcoinCore.Lib.Stream

/-!
# Extension blocks

The data types of `libmw`: the inputs, outputs and kernels of a Mimblewimble transaction, the body
that holds them, and the header, the transaction, the block and the undo data that hold a body.
Keys, commitments, signatures and proofs are the bytes that are stored for them, and an amount
(`CAmount`) is an integer. As in the source, an object that has an identity keeps its hash in a
field.
-/

namespace DefcoinCore

/-- The bytes of a `CScript`. -/
abbrev CScript := List UInt8

namespace Mweb

/-- `mw::Hash`, as the number whose first byte is the highest: hashes compare as numbers. -/
abbrev Hash := Uint256

/-- The bytes of a Pedersen commitment. -/
abbrev Commitment := Bytes 33

/-- The bytes of a public key. -/
abbrev PublicKey := Bytes 33

/-- The bytes of a Schnorr signature. -/
abbrev Signature := Bytes 64

/-- The bytes of a blinding factor. -/
abbrev BlindingFactor := Bytes 32

/-- What stops an operation: a failed assertion, or an exception with its text. -/
inductive Fault where
  | assertion
  | exception (what : String)
  deriving DecidableEq

/-- Coins that leave the extension block. -/
structure PegOutCoin where
  amount : Int
  scriptPubKey : CScript
  deriving DecidableEq

/-- Coins that enter the extension block. -/
structure PegInCoin where
  amount : Int
  kernelID : Hash
  deriving DecidableEq

structure Kernel where
  features : UInt8
  fee : Option Int
  pegin : Option Int
  pegouts : List PegOutCoin
  lockHeight : Option Int
  stealthExcess : Option PublicKey
  extraData : List UInt8
  excess : Commitment
  signature : Signature
  hash : Hash
  deriving DecidableEq

structure Input where
  features : UInt8
  outputID : Hash
  commitment : Commitment
  inputPubKey : Option PublicKey
  outputPubKey : PublicKey
  extraData : List UInt8
  signature : Signature
  hash : Hash
  deriving DecidableEq

/-- What an output says to its receiver. -/
structure OutputMessage where
  features : UInt8
  keyExchangePubKey : PublicKey
  viewTag : UInt8
  maskedValue : UInt64
  maskedNonce : Bytes 16
  extraData : List UInt8
  deriving DecidableEq

structure Output where
  commitment : Commitment
  senderPubKey : PublicKey
  receiverPubKey : PublicKey
  message : OutputMessage
  proof : List UInt8
  signature : Signature
  hash : Hash
  deriving DecidableEq

/-- The inputs, outputs and kernels of a transaction or of a block. -/
structure TxBody where
  inputs : List Input
  outputs : List Output
  kernels : List Kernel
  deriving DecidableEq

structure Transaction where
  kernelOffset : BlindingFactor
  stealthOffset : BlindingFactor
  body : TxBody
  deriving DecidableEq

structure Header where
  height : Int
  outputRoot : Hash
  kernelRoot : Hash
  leafsetRoot : Hash
  kernelOffset : BlindingFactor
  stealthOffset : BlindingFactor
  /-- `GetNumTXOs`. -/
  outputMMRSize : Nat
  /-- `GetNumKernels`. -/
  kernelMMRSize : Nat
  hash : Hash
  deriving DecidableEq

structure Block where
  header : Header
  body : TxBody
  deriving DecidableEq

/-- An unspent output, with the height and the leaf at which it was added. -/
structure UTXO where
  blockHeight : Int
  leafIdx : Nat
  output : Output
  deriving DecidableEq

/-- What is needed to take a block back. -/
structure BlockUndo where
  prevHeader : Option Header
  coinsSpent : List UTXO
  coinsAdded : List Hash
  deriving DecidableEq

/-- The spent coins under their output ids. -/
abbrev BlockUndo.spentById (undo : BlockUndo) : List (Hash × UTXO) :=
  undo.coinsSpent.map fun utxo => (utxo.output.hash, utxo)

/-- `Kernel::GetFee`. -/
def Kernel.getFee (kernel : Kernel) : Int := kernel.fee.getD 0

/-- `Kernel::GetPegIn`. -/
def Kernel.getPegIn (kernel : Kernel) : Int := kernel.pegin.getD 0

/-- `TxBody::GetPegIns`. -/
def TxBody.getPegIns (body : TxBody) : List PegInCoin :=
  (body.kernels.filter (·.pegin.isSome)).map fun kernel =>
    ⟨kernel.getPegIn, kernel.hash⟩

/-- `TxBody::GetPegOuts`. -/
def TxBody.getPegOuts (body : TxBody) : List PegOutCoin :=
  body.kernels.flatMap (·.pegouts)

end Mweb

end DefcoinCore
