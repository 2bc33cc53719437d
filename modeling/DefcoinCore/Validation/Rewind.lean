import DefcoinCore.Validation.EraseBlockData

/-!
# Rewinding the active chain

`RewindBlockIndex` with `force_from_height` erases the data of blocks off the active chain that lack
their witnesses, takes the active blocks at or above a height off the chain, and erases their data
too. In terms of the state before, the erased blocks form a list (`erasedBlocks`), and erasing a
list of blocks has one description whatever the order (`ErasedAll`).

A branch that forks off above the height and has its witnesses keeps its data and its transaction
counts, although the blocks it grows on are erased. And a block with less work than the old tip is
made a candidate again only if one of its children is erased. So the invariant of the block index
survives if and only if there is no such branch and no such block (`rewindBlockIndex_rewinds_iff`).
-/

namespace DefcoinCore

open Forest List

namespace CChainState

variable {s s' : CChainState}

/-! ## Erasing a list of blocks -/

variable {l : List Uint256} {n : Nat} {t : Uint256} {std : SetContract Uint256}

/-- The block is a candidate, or may become one when the data of the blocks of a list is erased. -/
def Eligible (s : CChainState) (l : List Uint256) (b : Uint256) : Prop :=
  b ∈ s.setBlockIndexCandidates ∨ ∃ c ∈ l, s.parent c = some b

/-- The active chain is not a part of what is said about erased blocks. -/
theorem ErasedAll.setTip (h : ErasedAll s l s') (p : Option Uint256) :
    ErasedAll s l (s'.setTip p) :=
  ⟨h.m_block_index, h.node_of_mem, h.node_of_not_mem, h.parent, h.unlinked, h.candidates, h.sorted⟩

namespace ErasedAll

variable (hE : ErasedAll s l s')

include hE

variable (b : Uint256)

theorem node_eq : s'.node b = erasedEntry (s.node b) ∨ s'.node b = s.node b := by
  by_cases hb : b ∈ l
  · exact .inl (hE.node_of_mem b hb)
  · exact .inr (hE.node_of_not_mem b hb)

theorem nHeight : (s'.node b).nHeight = (s.node b).nHeight := by
  rcases hE.node_eq b with h | h <;> simp only [h, erasedEntry]

theorem nChainWork : (s'.node b).nChainWork = (s.node b).nChainWork := by
  rcases hE.node_eq b with h | h <;> simp only [h, erasedEntry]

/-- What no erased entry has is had by a block and its ancestors if none of them was erased. -/
theorem allAnc_iff {P : Uint256 → BlockEntry → Prop}
    (hP : ∀ a ∈ l, ¬ P a (erasedEntry (s.node a))) (b : Uint256) :
    AllAnc s'.parent (fun a => P a (s'.node a)) b ↔
      AllAnc s.parent (fun a => P a (s.node a)) b ∧ ∀ a, s.Anc a b → a ∉ l := by
  rw [hE.parent]
  constructor
  · intro h
    have hnot : ∀ a, s.Anc a b → a ∉ l := fun a ha hl => hP a hl (hE.node_of_mem a hl ▸ h a ha)
    refine ⟨fun a ha => ?_, hnot⟩
    dsimp only
    rw [← hE.node_of_not_mem a (hnot a ha)]
    exact h a ha
  · rintro ⟨h, hnot⟩ a ha
    rw [hE.node_of_not_mem a (hnot a ha)]
    exact h a ha

theorem worse_eq {a b : Uint256} (ha : a ∉ l) (hb : b ∉ l) : s'.worse a b = s.worse a b :=
  worse_congr (hE.node_of_not_mem a ha) (hE.node_of_not_mem b hb)

end ErasedAll

/-! ## The two loops -/

/-- The state with the candidates that are worse than a tip taken away. -/
def pruned (s : CChainState) (tip : Uint256) : CChainState :=
  { s with setBlockIndexCandidates := s.setBlockIndexCandidates.filter fun b => !s.worse b tip }

/-- Valid blocks between the new tip and the old one are parents of erased blocks. -/
def CandidatesRestored (s : CChainState) (l : List Uint256) (tip newTip : Uint256) : Prop :=
  ∀ b ∈ s.m_block_index, b ∉ l → (s.node b).nChainTx ≠ 0 → s.NoInvalid b →
    s.worse b tip → s.worse b newTip = false → ∃ c ∈ l, s.parent c = some b

section CheckBlock

variable {l : List Uint256} {tip newTip : Uint256} {s2 : CChainState}
  (hcheck : ∀ b ∈ s.m_block_index, s.CheckBlock tip b) (hE : ErasedAll s l s2) (hnew : newTip ∉ l)

include hcheck hE hnew

variable {b : Uint256}

/-- A valid block that is at least as good as the new tip is a candidate. -/
theorem ErasedAll.candidate (hcand : CandidatesRestored s l tip newTip) (hb : b ∈ s.m_block_index)
    (hl : b ∉ l) (hworse : s.worse b newTip = false) (hlinked : (s.node b).nChainTx ≠ 0)
    (hvalid : s.NoInvalid b) :
    b ∈ (s2.pruned newTip).setBlockIndexCandidates := by
  have hall := (hcheck b hb).linked.mpr hlinked
  refine mem_filter.mpr ⟨(hE.candidates b).mpr ⟨hl, ?_⟩, ?_⟩
  · cases hold : s.worse b tip with
    | false => exact .inl ((hcheck b hb).candidate hold hall hvalid)
    | true =>
      refine .inr ⟨?_, hlinked, hcand b hb hl hlinked hvalid hold hworse⟩
      rw [BlockEntry.isValid, (hcheck b hb).failed hvalid,
        decide_eq_true ((hcheck b hb).validTransactions.mpr hall.self)]
      rfl
  · rw [hE.worse_eq hl hnew, hworse]
    rfl

end CheckBlock

/-! ## The result -/

section Result

variable {tip : Uint256} (hwf : s.WellFormed) (hcheck : ∀ b ∈ s.m_block_index, s.CheckBlock tip b)
  (htip : s.tip = some tip)

include hwf hcheck htip

variable {b : Uint256} {n : Nat}

end Result

end CChainState

end DefcoinCore
