import DefcoinCore.Lib.HashTree
import DefcoinCore.Primitives.Block

/-!
# Merkle roots

`consensus/merkle.cpp`: the tree of the transactions of a block, and the tree of their witnesses.
The source goes through the levels in one loop that also reports repeated pairs.
-/

namespace DefcoinCore

open HashTree

variable (hash64 : Uint256 → Uint256 → Uint256)

/-- The loop of `ComputeMerkleRoot`, with `k` rounds left: the root, and whether a pair was
repeated. -/
def merkleLoop : Nat → List Uint256 → Bool → Uint256 × Bool
  | 0, hashes, mutation => (hashes.headD 0, mutation)
  | k + 1, hashes, mutation =>
    if hashes.length > 1 then
      merkleLoop k (level hash64 hashes) (mutation || repeatsPair hashes)
    else (hashes.headD 0, mutation)

/-- `ComputeMerkleRoot`; the joined hash of two hashes is `hash64`. -/
def computeMerkleRoot (hashes : List Uint256) : Uint256 × Bool :=
  merkleLoop hash64 hashes.length hashes false

/-- `BlockMerkleRoot`. -/
def blockMerkleRoot (vtx : List CTransaction) : Uint256 × Bool :=
  computeMerkleRoot hash64 (vtx.map (·.hash))

/-- The leaves of the witness tree, where the hash of the coinbase is zero. -/
def witnessLeaves : List CTransaction → List Uint256
  | [] => []
  | _ :: txs => 0 :: txs.map (·.m_witness_hash)

/-- `BlockWitnessMerkleRoot`. -/
def blockWitnessMerkleRoot (vtx : List CTransaction) : Uint256 × Bool :=
  computeMerkleRoot hash64 (witnessLeaves vtx)

theorem merkleLoop_fst (k : Nat) (hashes : List Uint256) (mutation : Bool) :
    (merkleLoop hash64 k hashes mutation).1 = treeRoot hash64 0 k hashes := by
  induction k generalizing hashes mutation with
  | zero => rfl
  | succ k ih =>
    rw [merkleLoop, treeRoot]
    split_ifs with h
    · exact ih _ _
    · rfl

theorem merkleLoop_snd (k : Nat) (hashes : List Uint256) (mutation : Bool) :
    (merkleLoop hash64 k hashes mutation).2 = (mutation || repeats hash64 k hashes) := by
  induction k generalizing hashes mutation with
  | zero => exact (Bool.or_false mutation).symm
  | succ k ih =>
    rw [merkleLoop, repeats]
    split_ifs with h
    · rw [ih, Bool.or_assoc]
    · exact (Bool.or_false mutation).symm

/-- The root of a list of a given length determines the list, unless pairs that are hashed collide.
-/
theorem computeMerkleRoot_injective {l l' : List Uint256} (hlen : l.length = l'.length)
    (hinj : Set.InjOn (fun p : Uint256 × Uint256 => hash64 p.1 p.2)
      {p | p ∈ hashedPairs hash64 l.length l ∨ p ∈ hashedPairs hash64 l.length l'})
    (h : (computeMerkleRoot hash64 l).1 = (computeMerkleRoot hash64 l').1) : l = l' := by
  rw [computeMerkleRoot, computeMerkleRoot, merkleLoop_fst, merkleLoop_fst, ← hlen] at h
  exact treeRoot_injective hash64 l.length (by omega) hlen hinj h

/-- The root of a list determines the list, unless a pair is reported as repeated, hashes collide or
an item is the hash of a pair. -/
theorem computeMerkleRoot_injective_of_unmutated {l l' : List Uint256} (hne : l ≠ [])
    (hne' : l' ≠ []) (hfree : HashTree.CollisionFree hash64 l.length l'.length l l')
    (hmutated : (computeMerkleRoot hash64 l).2 = false)
    (hmutated' : (computeMerkleRoot hash64 l').2 = false)
    (h : (computeMerkleRoot hash64 l).1 = (computeMerkleRoot hash64 l').1) : l = l' := by
  rw [computeMerkleRoot, merkleLoop_snd, Bool.false_or] at hmutated hmutated'
  rw [computeMerkleRoot, computeMerkleRoot, merkleLoop_fst, merkleLoop_fst] at h
  exact treeRoot_injective_of_unrepeated hash64 (by omega) (by omega) hne hne' hfree hmutated
    hmutated' h

/-- The loop computes the root of the tree, and of different lists with one root it reports at least
one. -/
theorem computeMerkleRoot_spec {l : List Uint256} (hne : l ≠ []) :
    (computeMerkleRoot hash64 l).1 = nodeAt hash64 0 l (Nat.clog 2 l.length) 0 ∧
    ∀ l', l' ≠ [] → HashTree.CollisionFree hash64 l.length l'.length l l' → l ≠ l' →
      (computeMerkleRoot hash64 l).1 = (computeMerkleRoot hash64 l').1 →
      (computeMerkleRoot hash64 l).2 ∨ (computeMerkleRoot hash64 l').2 := by
  constructor
  · rw [computeMerkleRoot, merkleLoop_fst]
    exact treeRoot_eq_nodeAt hash64 0 l.length (Nat.le_succ _) hne
  · intro l' hne' hfree hdiff hroot
    by_contra hclear
    rw [not_or, Bool.not_eq_true, Bool.not_eq_true] at hclear
    exact hdiff (computeMerkleRoot_injective_of_unmutated hash64 hne hne' hfree hclear.1
      hclear.2 hroot)

/-- A list whose last leaf is repeated has the same root. -/
theorem computeMerkleRoot_spec_repeated :
    (computeMerkleRoot (fun a b => 1000 * a + b) [1, 2, 3]).2 ∨
      (computeMerkleRoot (fun a b => 1000 * a + b) [1, 2, 3, 3]).2 := by
  exact (computeMerkleRoot_spec _ (List.cons_ne_nil _ _)).2 _ (List.cons_ne_nil _ _)
    (by decide +kernel) (by decide) rfl

end DefcoinCore
