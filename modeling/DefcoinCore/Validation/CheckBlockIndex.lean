import DefcoinCore.Validation.ChainState

/-!
# The invariant of the block index

`CheckBlockIndex` walks over the whole block tree and asserts how flags, counters, candidates and
waiting blocks fit together; here it is a predicate, for a node that never pruned. What the walk
remembers about the way from the genesis block, such as the first block that was never processed, is
said about all ancestors of a block.

`WellFormed` has what the data structures themselves guarantee: pointers lead to entries, the keys
of `m_blocks_unlinked` are parents, the active chain is a path from the genesis block, and the
candidates are in order, so that looking one up finds it.
-/

namespace DefcoinCore

open Forest List

namespace CChainState

variable (s : CChainState)

/-- `a` is `b` or one of its ancestors. -/
abbrev Anc (a b : Uint256) : Prop := Forest.Anc s.parent a b

/-- `pindexFirstNeverProcessed` is null: the block and all its ancestors have had their data. -/
def AllProcessed (b : Uint256) : Prop := AllAnc s.parent (fun a => (s.node a).nTx ≠ 0) b

/-- `pindexFirstInvalid` is null: neither the block nor an ancestor has `BLOCK_FAILED_VALID`. -/
def NoInvalid (b : Uint256) : Prop :=
  AllAnc s.parent (fun a => (s.node a).status.failedValid = false) b

/-- The block and all its ancestors but the genesis block are valid up to a level. -/
def AllValid (level : Nat) (b : Uint256) : Prop :=
  AllAnc s.parent (fun a => s.parent a ≠ none → level ≤ (s.node a).status.valid) b

/-- The block waits for the data of an ancestor. -/
def Waiting (b : Uint256) : Prop := ∃ p, s.parent b = some p ∧ (p, b) ∈ s.m_blocks_unlinked

/-- The candidates are in the order of their comparison. -/
def Sorted : Prop := InOrder s.worse s.setBlockIndexCandidates

/-- What the data structures guarantee. -/
@[mk_iff]
structure WellFormed : Prop where
  parent_mem : ∀ b ∈ s.m_block_index, ∀ p, s.parent b = some p → p ∈ s.m_block_index
  candidates_mem : ∀ b ∈ s.setBlockIndexCandidates, b ∈ s.m_block_index
  unlinked_mem : ∀ pair ∈ s.m_blocks_unlinked, pair.2 ∈ s.m_block_index ∧
    s.parent pair.2 = some pair.1
  failed_mem : ∀ b ∈ s.m_failed_blocks, b ∈ s.m_block_index
  chain_mem : ∀ b ∈ s.vChain, b ∈ s.m_block_index
  /-- The active chain is the path to its tip. -/
  chain_path : ∀ t, s.tip = some t → s.vChain = s.pathTo ((s.node t).nHeight + 1) t
  sorted : s.Sorted

/-- The assertions of `CheckBlockIndex` about a block, when the tip is `tip`. -/
@[mk_iff]
structure CheckBlock (tip b : Uint256) : Prop where
  /-- There is one block without a parent, and the active chain starts with it. -/
  genesis : s.parent b = none → s.vChain.head? = some b
  sequenceId : (s.node b).nChainTx = 0 → (s.node b).nSequenceId ≤ 0
  haveData : (s.node b).status.haveData ↔ (s.node b).nTx ≠ 0
  haveUndo : (s.node b).status.haveUndo → (s.node b).status.haveData
  validTransactions : 3 ≤ (s.node b).status.valid ↔ (s.node b).nTx ≠ 0
  linked : s.AllProcessed b ↔ (s.node b).nChainTx ≠ 0
  linkedValid : s.AllValid 3 b ↔ (s.node b).nChainTx ≠ 0
  heightGenesis : s.parent b = none → (s.node b).nHeight = 0
  height : ∀ p, s.parent b = some p → (s.node b).nHeight = (s.node p).nHeight + 1
  chainWork : ∀ p, s.parent b = some p → (s.node p).nChainWork ≤ (s.node b).nChainWork
  validTree : s.parent b ≠ none → 2 ≤ (s.node b).status.valid
  validChain : 4 ≤ (s.node b).status.valid → s.AllValid 4 b
  validScripts : 5 ≤ (s.node b).status.valid → s.AllValid 5 b
  failed : s.NoInvalid b → (s.node b).status.failed = false
  candidate : s.worse b tip = false → s.AllProcessed b → s.NoInvalid b →
    b ∈ s.setBlockIndexCandidates
  notCandidate : s.worse b tip ∨ ¬ s.AllProcessed b → b ∉ s.setBlockIndexCandidates
  unlinked : s.parent b ≠ none → (s.node b).status.haveData → ¬ s.AllProcessed b →
    s.NoInvalid b → s.Waiting b
  notUnlinked : (s.node b).status.haveData = false ∨ s.AllProcessed b → ¬ s.Waiting b

/-- `CheckBlockIndex` passes, for a chain that is not empty. -/
def CheckBlockIndex : Prop := ∃ tip, s.tip = some tip ∧ ∀ b ∈ s.m_block_index, s.CheckBlock tip b

variable {s}

/-- Every ancestor of a linked block is linked. -/
theorem CheckBlock.linked_anc {tip a b : Uint256} (hb : s.CheckBlock tip b)
    (ha : s.CheckBlock tip a)
    (hanc : s.Anc a b) (h : (s.node b).nChainTx ≠ 0) : (s.node a).nChainTx ≠ 0 :=
  ha.linked.mp ((hb.linked.mpr h).of_anc hanc)

/-! ## The tree -/

/-- Heights count the steps from the genesis block. -/
@[mk_iff]
structure Tree (s : CChainState) : Prop where
  parent_mem : ∀ b ∈ s.m_block_index, ∀ p, s.parent b = some p → p ∈ s.m_block_index
  heightGenesis : ∀ b ∈ s.m_block_index, s.parent b = none → (s.node b).nHeight = 0
  height : ∀ b ∈ s.m_block_index, ∀ p, s.parent b = some p →
    (s.node b).nHeight = (s.node p).nHeight + 1

theorem tree_of_checkBlock {tip : Uint256} (hwf : s.WellFormed)
    (h : ∀ b ∈ s.m_block_index, s.CheckBlock tip b) : Tree s :=
  ⟨hwf.parent_mem, fun b hb => (h b hb).heightGenesis, fun b hb => (h b hb).height⟩

section Tree

variable (htree : Tree s) {a b : Uint256}

include htree

theorem Tree.graded : Forest.Graded s.parent (fun b => (s.node b).nHeight)
    {b | b ∈ s.m_block_index} :=
  ⟨htree.parent_mem, htree.height⟩

/-- A child is no ancestor of its parent. -/
theorem Tree.not_anc_parent (hb : b ∈ s.m_block_index) (hp : s.parent b = some a) :
    ¬ s.Anc b a := by
  intro h
  have hle := htree.graded.height_le (htree.parent_mem b hb a hp) h
  have hchild := htree.height b hb a hp
  omega

/-- The path to a block has its ancestors, each in the place of its height. -/
theorem Tree.pathTo_spec (k : Nat) (hb : b ∈ s.m_block_index) (hk : (s.node b).nHeight + 1 = k) :
    (s.pathTo k b).length = k ∧
      ∀ i c, (s.pathTo k b)[i]? = some c ↔ s.Anc c b ∧ (s.node c).nHeight = i :=
  htree.graded.pathTo_spec htree.heightGenesis k hb hk

theorem Tree.mem_pathTo (k : Nat) (hb : b ∈ s.m_block_index) (hk : (s.node b).nHeight + 1 = k) :
    a ∈ s.pathTo k b ↔ s.Anc a b := by
  simp only [mem_iff_getElem?, (htree.pathTo_spec k hb hk).2, exists_and_left, exists_eq', and_true]

/-- The active chain consists of the ancestors of its tip. -/
theorem Tree.contains_iff {tip : Uint256} (hwf : s.WellFormed) (htip : s.tip = some tip)
    (c : Uint256) : s.contains c ↔ s.Anc c tip := by
  have hmem : tip ∈ s.m_block_index := hwf.chain_mem tip (mem_of_getLast? htip)
  rw [contains, decide_eq_true_eq, hwf.chain_path tip htip]
  exact ((htree.pathTo_spec _ hmem rfl).2 _ c).trans (and_iff_left rfl)

end Tree

/-! ## The order of candidates -/

/-- The comparison, as an order: by work, then against sequence ids, then against names. -/
theorem worse_iff (a b : Uint256) : s.worse a b ↔
    (s.node a).nChainWork < (s.node b).nChainWork ∨
      ((s.node a).nChainWork = (s.node b).nChainWork ∧
        ((s.node b).nSequenceId < (s.node a).nSequenceId ∨
          ((s.node a).nSequenceId = (s.node b).nSequenceId ∧ b < a))) := by
  unfold worse
  dsimp only
  split_ifs <;> simp only [false_iff, true_iff, decide_eq_true_eq, BitVec.lt_def] <;> omega

/-- Entries that are the same compare in the same way. -/
theorem worse_congr {s' : CChainState} {a b : Uint256} (ha : s'.node a = s.node a)
    (hb : s'.node b = s.node b) : s'.worse a b = s.worse a b := by
  unfold worse
  rw [ha, hb]

/-- The comparison orders all blocks. -/
theorem worse_strictOrder (s : CChainState) : StrictOrder s.worse where
  irrefl a := by
    rw [← Bool.not_eq_true, worse_iff]
    simp
  trans := by
    intro a b c hab hbc
    rw [worse_iff, BitVec.lt_def] at hab hbc ⊢
    omega
  total := by
    intro a b hne
    have hnat : a.toNat ≠ b.toNat := fun h => hne (BitVec.eq_of_toNat_eq h)
    rw [worse_iff, worse_iff, BitVec.lt_def, BitVec.lt_def]
    omega

/-! ## Deciding the invariant -/

/-- On a tree, what holds of a block and all its ancestors is read off the path to the block. -/
theorem Tree.allAnc_iff (htree : Tree s) {b : Uint256} (hb : b ∈ s.m_block_index)
    (p : Uint256 → Prop) :
    AllAnc s.parent p b ↔ ∀ a ∈ s.pathTo ((s.node b).nHeight + 1) b, p a := by
  simp only [AllAnc, htree.mem_pathTo _ hb rfl]

section Pointers

-- The kernel is to look at what is listed or pointed to, not to search through all hashes.
variable {α : Type} (l : List α) (o : Option α) (p : α → Prop) [DecidablePred p]

scoped instance (priority := high) decidableForallMem : Decidable (∀ b ∈ l, p b) :=
  decidableBAll p l

scoped instance (priority := high) decidableForallSome : Decidable (∀ b, o = some b → p b) :=
  decidable_of_iff (o.all (p ·)) (by simp [Option.all_eq_true])

scoped instance (priority := high) decidableExistsSome : Decidable (∃ b, o = some b ∧ p b) :=
  decidable_of_iff (o.any (p ·)) (by simp [Option.any_eq_true])

end Pointers

instance (b : Uint256) : Decidable (s.Waiting b) :=
  inferInstanceAs (Decidable (∃ p, s.parent b = some p ∧ (p, b) ∈ s.m_blocks_unlinked))

instance : Decidable s.Sorted := inferInstanceAs
    (Decidable (InOrder s.worse s.setBlockIndexCandidates))

instance : Decidable s.WellFormed := decidable_of_iff' _ s.wellFormed_iff

instance : Decidable (Tree s) := decidable_of_iff' _ (tree_iff s)

set_option synthInstance.maxSize 400 in
/-- On a tree the assertions about a block are decidable. -/
def Tree.decidableCheckBlock (htree : Tree s) {b : Uint256} (hb : b ∈ s.m_block_index)
    (tip : Uint256) :
    Decidable (s.CheckBlock tip b) :=
  have hall (p : Uint256 → Prop) [DecidablePred p] : Decidable (AllAnc s.parent p b) :=
    decidable_of_iff' _ (htree.allAnc_iff hb p)
  have : Decidable (s.AllProcessed b) := hall _
  have : Decidable (s.NoInvalid b) := hall _
  have (level : Nat) : Decidable (s.AllValid level b) := hall _
  decidable_of_iff' _ (s.checkBlock_iff tip b)

instance : Decidable (s.WellFormed ∧ s.CheckBlockIndex) :=
  if h : s.WellFormed ∧ Tree s then
    have (tip b : Uint256) : Decidable (b ∈ s.m_block_index → s.CheckBlock tip b) :=
      if hb : b ∈ s.m_block_index then
        have := h.2.decidableCheckBlock hb tip
        inferInstance
      else isTrue (absurd · hb)
    decidable_of_iff (∃ tip, s.tip = some tip ∧ ∀ b ∈ s.m_block_index, b ∈ s.m_block_index →
      s.CheckBlock tip b) (by simp +contextual [h.1, CheckBlockIndex])
  else isFalse fun ⟨hwf, _, _, hcheck⟩ => h ⟨hwf, tree_of_checkBlock hwf hcheck⟩

end CChainState

end DefcoinCore
