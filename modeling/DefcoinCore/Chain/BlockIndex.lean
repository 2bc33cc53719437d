import DefcoinCore.Lib.Forest

/-!
# The block index

`CBlockIndex` and `CChain` of `chain.h`. A `CBlockIndex*` is named by the hash of its block, as
`mapBlockIndex` names it, so that two pointers are equal exactly when their hashes are. A
`BlockTree` gives the entry behind every pointer; its height fields are those that
`AddToBlockIndex` maintains, and no tree without them can be built. `getAncestor` follows `pprev`.
-/

namespace DefcoinCore

/-- A 256-bit blob; the null value is zero. -/
abbrev Uint256 := BitVec 256

instance : Std.TransOrd Uint256 := BitVec.instTransOrd

instance : LawfulBEq Uint256 := instLawfulBEq

/-! ## `BlockStatus` -/

/-- `BLOCK_VALID_TREE`: all parent headers found, difficulty and timestamps fine. -/
def blockValidTree : Nat := 2

/-- `BLOCK_VALID_CHAIN`: the outputs do not overspend the inputs. -/
def blockValidChain : Nat := 4

/-- `BLOCK_VALID_MASK`: the bits that hold the validity level. -/
def blockValidMask : Nat := 7

/-- `BLOCK_HAVE_DATA`: the full block is on disk. -/
def blockHaveData : Nat := 8

/-- `BLOCK_FAILED_MASK`: the block or one of its ancestors failed validation. -/
def blockFailedMask : Nat := 96

/-! ## Entries and trees -/

/-- A `CBlockIndex`, without the fields that no function here reads. -/
structure CBlockIndex where
  pprev : Option Uint256
  nHeight : Nat
  nChainWork : Nat
  /-- The number of transactions, zero before the block's data arrived. -/
  nTx : Nat
  /-- The number of transactions up to this block, zero while one of them is missing. -/
  nChainTx : Nat
  /-- Verification status, an or of `BlockStatus` flags. -/
  nStatus : Nat
deriving DecidableEq

/-- `CBlockIndex::IsValid(nUpTo)`. -/
def CBlockIndex.isValid (b : CBlockIndex) (nUpTo : Nat) : Bool :=
  if b.nStatus &&& blockFailedMask ≠ 0 then false else nUpTo ≤ b.nStatus &&& blockValidMask

/-- `nStatus & BLOCK_HAVE_DATA`. -/
def CBlockIndex.haveData (b : CBlockIndex) : Bool := b.nStatus &&& blockHaveData ≠ 0

/-- `CBlockIndex::HaveTxsDownloaded`. -/
def CBlockIndex.haveTxsDownloaded (b : CBlockIndex) : Bool := b.nChainTx ≠ 0

/-- The entries behind the block pointers. The height of an entry is one more than its parent's. -/
structure BlockTree where
  /-- The entry that a pointer refers to. -/
  node : Uint256 → CBlockIndex
  /-- An entry without a parent has height 0. -/
  height_genesis : ∀ h, (node h).pprev = none → (node h).nHeight = 0
  /-- An entry with a parent is one above it. -/
  height_child : ∀ h p, (node h).pprev = some p → (node h).nHeight = (node p).nHeight + 1

namespace BlockTree

variable (t : BlockTree)

/-- The predecessor of a block. -/
def parent (b : Uint256) : Option Uint256 := (t.node b).pprev

/-- `n` steps of `pprev`; null when the chain of ancestors is shorter. -/
abbrev walkBack (n : Nat) (b : Uint256) : Option Uint256 := Forest.up t.parent n b

/-- `CBlockIndex::GetAncestor`: the ancestor at `height`, null when there is none. -/
def getAncestor (b : Uint256) (height : Int) : Option Uint256 :=
  if height > (t.node b).nHeight ∨ height < 0 then none
  else t.walkBack ((t.node b).nHeight - height.toNat) b

/-- The `n` blocks that end in `w`, lowest first, as a loop over `pprev` fills them. -/
abbrev pathTo (n : Nat) (w : Uint256) : List Uint256 := Forest.pathTo t.parent n w

/-- The loop of `LastCommonAncestor`: step both pointers back until they meet or are null. The
fuel is the number of blocks below the first pointer. -/
def commonLoop : Nat → Option Uint256 → Option Uint256 → Option Uint256
  | n + 1, some a, some b => if a = b then some a else commonLoop n (t.node a).pprev
    (t.node b).pprev
  | _, _, _ => none

/-- `LastCommonAncestor(pa, pb)`: null when the two chains do not meet. -/
def lastCommonAncestor (pa pb : Uint256) : Option Uint256 :=
  let ha := (t.node pa).nHeight
  let hb := (t.node pb).nHeight
  let pa' := if ha > hb then t.getAncestor pa hb else some pa
  let pb' := if hb > ha then t.getAncestor pb ha else some pb
  t.commonLoop (min ha hb + 1) pa' pb'

theorem graded : Forest.Graded t.parent (fun b => (t.node b).nHeight) Set.univ :=
  ⟨fun _ _ _ _ => trivial, fun b _ => t.height_child b⟩

/-- An ancestor that is found has the height asked for. -/
theorem height_getAncestor {b a : Uint256} {height : Int} (h : t.getAncestor b height = some a) :
    ((t.node a).nHeight : Int) = height := by
  unfold getAncestor at h
  split_ifs at h with hc
  have := (t.graded.height_up trivial h).2
  omega

/-- Every height from 0 to the block's own has an ancestor. -/
theorem getAncestor_isSome {b : Uint256} {height : Int} (h0 : 0 ≤ height)
    (h : height ≤ (t.node b).nHeight) : (t.getAncestor b height).isSome := by
  unfold getAncestor
  rw [if_neg (by omega)]
  exact Option.isSome_iff_exists.mpr
    (t.graded.exists_up (fun b _ => t.height_genesis b) trivial (by omega))

/-- The path to `w` lists strictly rising heights that end at the height of `w`. -/
theorem pathTo_sorted : ∀ (n : Nat) (w : Uint256),
    (t.pathTo n w).Pairwise (fun a b => (t.node a).nHeight < (t.node b).nHeight) ∧
      ∀ b ∈ t.pathTo n w, (t.node b).nHeight ≤ (t.node w).nHeight ∧
        (t.node w).nHeight < (t.node b).nHeight + n
  | 0, w => by simp [Forest.pathTo]
  | n + 1, w => by
    unfold pathTo Forest.pathTo
    cases hp : t.parent w with
    | none => simp
    | some p =>
      have hc := t.height_child w p hp
      obtain ⟨hs, hb⟩ := pathTo_sorted n p
      constructor
      · rw [List.pairwise_append]
        refine ⟨hs, List.pairwise_singleton _ _, ?_⟩
        intro a ha b hbw
        rw [List.mem_singleton] at hbw
        have := hb a ha
        rw [hbw]
        omega
      · intro b hmem
        rcases List.mem_append.mp hmem with hmem | hmem
        · have := hb b hmem
          omega
        · rw [List.mem_singleton] at hmem
          rw [hmem]
          omega

end BlockTree

/-! ## The active chain -/

/-- A `CChain`: the blocks by height. -/
structure CChain where
  vChain : List Uint256

namespace CChain

variable (c : CChain)

/-- `CChain::Tip`. -/
def tip : Option Uint256 := c.vChain.getLast?

/-- `CChain::operator[]`. -/
def get (nHeight : Int) : Option Uint256 :=
  if nHeight < 0 ∨ nHeight ≥ c.vChain.length then none else c.vChain[nHeight.toNat]?

/-- `CChain::Contains`. -/
def contains (t : BlockTree) (pindex : Uint256) : Bool :=
  c.get (t.node pindex).nHeight = some pindex

/-- `CChain::Height`; `-1` for the empty chain. -/
def height : Int := c.vChain.length - 1

end CChain

end DefcoinCore
