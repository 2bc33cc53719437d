import DefcoinCore.Primitives.Transaction

/-!
# Blocks

Block headers and blocks of `primitives/block.h`. A block may carry an extension block, whose hash
is in the integrating transaction: the last one, if it has the marker.
-/

namespace DefcoinCore

structure CBlockHeader where
  nVersion : Int
  hashPrevBlock : Uint256
  hashMerkleRoot : Uint256
  nTime : UInt32
  nBits : UInt32
  nNonce : UInt32
  deriving DecidableEq

structure CBlock extends CBlockHeader where
  vtx : List CTransaction
  /-- Set, in memory only, once the checks that need no context have passed. -/
  fChecked : Bool
  mweb_block : Option Mweb.Block
  deriving DecidableEq

end DefcoinCore
