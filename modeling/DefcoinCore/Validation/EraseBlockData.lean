import DefcoinCore.Validation.CheckBlockIndex

/-!
# A block that fails to connect as mutated

When `ConnectTip` fails with `BLOCK_MUTATED`, the bytes of the block are no use, so its data is
erased and the block index should be as if it had not arrived. `EraseBlockData` resets one entry.
Blocks that were linked through it keep their transaction counts and stay candidates, and the next
`FindMostWorkChain` stops at an assertion when it walks down from one of them. And it resets the
sequence id, by which candidates with the same work are ordered, before it looks the block up among
them: if the block would have to change its place, the set is out of order and the block may be left
in it. So the index stays usable with every implementation of `std::set` if and only if no child of
the block is linked, no data below the block had been left out of `m_blocks_unlinked` before, and
the block keeps its place (`connectTip_mutated_usable_iff`).
-/

namespace DefcoinCore

open Forest List

namespace CChainState

variable {s s' s1 : CChainState} {x : Uint256} {l : List Uint256} {std : SetContract Uint256}

/-! ## Single changes -/

section Modify

variable {a b : Uint256} (f : BlockEntry → BlockEntry)

/-- The changed entry. -/
@[simp]
theorem modify_node_self (b : Uint256) : (s.modify b f).node b = f (s.node b) := by simp [modify]

/-- The other entries stay. -/
theorem modify_node_of_ne (h : a ≠ b) : (s.modify b f).node a = s.node a := by simp [modify, h]

/-- A change of an entry that keeps the predecessor keeps the tree. -/
theorem modify_parent {f : BlockEntry → BlockEntry} (hf : ∀ entry, (f entry).pprev = entry.pprev) :
    (s.modify b f).parent = s.parent := by
  funext c
  unfold parent
  by_cases h : c = b
  · rw [h, modify_node_self, hf]
  · rw [modify_node_of_ne f h]

end Modify

/-! ## The place of a block among the candidates -/

/-- Without its sequence id, `x` compares with `c` as before. -/
def Untied (s : CChainState) (x c : Uint256) : Prop :=
  (s.modify x erasedEntry).worse c x = s.worse c x

/-- No candidate is passed by `x` when its sequence id is reset. -/
def KeepsPlace (s : CChainState) (x : Uint256) : Prop :=
  x ∈ s.setBlockIndexCandidates → ∀ c ∈ s.setBlockIndexCandidates, c ≠ x → s.Untied x c

/-- The candidates are in order after the reset if and only if the block keeps its place. -/
theorem sorted_reset_iff (hsorted : s.Sorted) : (s.modify x erasedEntry).Sorted ↔
    s.KeepsPlace x := by
  have horder := worse_strictOrder s
  have horder' := worse_strictOrder (s.modify x erasedEntry)
  constructor
  · intro hreset hx c hc _
    exact InOrder.eq_of_mem horder' horder hreset hsorted c hc x hx
  · intro hplace
    refine hsorted.imp_of_mem fun {a b} ha hb hab => ?_
    by_cases hax : a = x
    · subst hax
      have hne : b ≠ a := by
        rintro rfl
        rw [horder.irrefl] at hab
        cases hab
      refine (horder'.total hne).resolve_left fun h => ?_
      rw [hplace ha b hb hne, horder.asymm hab] at h
      cases h
    · by_cases hbx : b = x
      · subst hbx
        exact (hplace hb a ha hax).trans hab
      · exact (worse_congr (modify_node_of_ne _ hax) (modify_node_of_ne _ hbx)).trans hab

/-! ## Erasing block data -/

/-- What erasing the data of the blocks of a list does, but for the active chain. -/
structure ErasedAll (s : CChainState) (l : List Uint256) (s' : CChainState) : Prop where
  m_block_index : s'.m_block_index = s.m_block_index
  node_of_mem : ∀ b ∈ l, s'.node b = erasedEntry (s.node b)
  node_of_not_mem : ∀ b, b ∉ l → s'.node b = s.node b
  parent : s'.parent = s.parent
  unlinked : ∀ pair, pair ∈ s'.m_blocks_unlinked ↔
    pair ∈ s.m_blocks_unlinked ∧ ¬ (some pair.1 = s.parent pair.2 ∧ pair.2 ∈ l)
  candidates : ∀ b, b ∈ s'.setBlockIndexCandidates ↔ b ∉ l ∧
    (b ∈ s.setBlockIndexCandidates ∨
      ((s.node b).isValid 3 ∧ (s.node b).nChainTx ≠ 0 ∧ ∃ c ∈ l, s.parent c = some b))
  sorted : s'.Sorted

/-- Nothing was erased yet. -/
theorem ErasedAll.nil (hsorted : s.Sorted) : ErasedAll s [] s where
  m_block_index := rfl
  node_of_mem b hb := absurd hb not_mem_nil
  node_of_not_mem _ _ := rfl
  parent := rfl
  unlinked pair := by simp
  candidates b := by simp
  sorted := hsorted

/-- The parent is a candidate again if it is valid and linked. -/
theorem restoreParent_eq (std : SetContract Uint256) (hsorted : s.Sorted) (x : Uint256) :
    ∃ candidates, s.restoreParent std x = { s with setBlockIndexCandidates := candidates } ∧
      InOrder s.worse candidates ∧ ∀ b, b ∈ candidates ↔ b ∈ s.setBlockIndexCandidates ∨
        (s.parent x = some b ∧ (s.node b).isValid 3 ∧ (s.node b).nChainTx ≠ 0) := by
  unfold restoreParent
  rcases s.parent x with _ | p
  · exact ⟨_, rfl, hsorted, by simp⟩
  · dsimp only
    split_ifs with hvalid <;>
      rw [Bool.and_eq_true, BlockEntry.haveTxsDownloaded, decide_eq_true_eq] at hvalid
    · refine ⟨_, rfl, std.insert_inOrder (worse_strictOrder s) hsorted p, fun b => ?_⟩
      rw [std.mem_insert (worse_strictOrder s) hsorted]
      grind
    · exact ⟨_, rfl, hsorted, fun b => by grind⟩

/-- One more block is erased, if it keeps its place. -/
theorem ErasedAll.eraseData (hE : ErasedAll s l s1) (hplace : s1.KeepsPlace x)
    (std : SetContract Uint256) : ErasedAll s (l ++ [x]) (s1.eraseData std x) := by
  have hreset := (sorted_reset_iff hE.sorted).mpr hplace
  have hparent : (s1.modify x erasedEntry).parent = s.parent :=
    (modify_parent (f := erasedEntry) fun _ => rfl).trans hE.parent
  have herase : ((s1.modify x erasedEntry).eraseCandidate x std).setBlockIndexCandidates =
      s1.setBlockIndexCandidates.filter (· ≠ x) := std.erase_eq (worse_strictOrder _) hreset x
  obtain ⟨candidates, heq, hsorted, hmem⟩ := restoreParent_eq std
    (s := ((s1.modify x erasedEntry).eraseCandidate x std).eraseUnlinked x) (x := x)
    (show InOrder _ _ from herase ▸ hreset.filter _)
  have hnode : ∀ b, (s1.modify x erasedEntry).node b =
      if b ∈ l ++ [x] then erasedEntry (s.node b) else s.node b := by
    intro b
    by_cases hb : b ∈ l
    · have hold := hE.node_of_mem b hb
      by_cases hbx : b = x
      · rw [hbx, modify_node_self, ← hbx, hold, if_pos (by simp)]
        simp [erasedEntry]
      · rw [modify_node_of_ne _ hbx, hold, if_pos (mem_append_left _ hb)]
    · have hold := hE.node_of_not_mem b hb
      by_cases hbx : b = x
      · rw [hbx, modify_node_self, ← hbx, hold, if_pos (by simp)]
      · rw [modify_node_of_ne _ hbx, hold, if_neg (by simp [hb, hbx])]
  unfold CChainState.eraseData
  rw [heq]
  exact
    { m_block_index := hE.m_block_index
      node_of_mem := fun b hb => (hnode b).trans (if_pos hb)
      node_of_not_mem := fun b hb => (hnode b).trans (if_neg hb)
      parent := hparent
      unlinked := fun pair => by
        change pair ∈ s1.m_blocks_unlinked.filter (fun pair =>
          !(some pair.1 = (s1.modify x erasedEntry).parent x && pair.2 = x)) ↔ _
        simp only [mem_filter, hE.unlinked, hparent, Bool.not_eq_true', Bool.and_eq_false_iff,
          decide_eq_false_iff_not, mem_append, mem_singleton]
        grind
      candidates := fun b => by
        have hb := hmem b
        change b ∈ candidates ↔ b ∈
          ((s1.modify x erasedEntry).eraseCandidate x std).setBlockIndexCandidates ∨
          ((s1.modify x erasedEntry).parent x = some b ∧
            ((s1.modify x erasedEntry).node b).isValid 3 ∧
            ((s1.modify x erasedEntry).node b).nChainTx ≠ 0) at hb
        rw [herase, hparent, hnode] at hb
        refine hb.trans ?_
        simp only [mem_filter, hE.candidates, decide_eq_true_eq, mem_append, mem_singleton]
        split_ifs with hl
        · simp [erasedEntry]
          grind
        · grind
      sorted := hsorted }

/-! ## The best chain -/

/-- What `FindMostWorkChain` needs to pass its assertion: all ancestors of candidates are linked. -/
def CandidatesLinked (s : CChainState) : Prop :=
  ∀ b ∈ s.setBlockIndexCandidates, AllAnc s.parent (fun a => (s.node a).nChainTx ≠ 0) b

/-- The walk down from a block whose ancestors are linked passes its assertion. -/
theorem badOnPath_ok {k : Nat} {b : Option Uint256}
    (h : ∀ c, b = some c → AllAnc s.parent (fun a => (s.node a).nChainTx ≠ 0) c) :
    ∃ r, s.badOnPath k b = .ok r := by
  induction k generalizing b with
  | zero => exact ⟨none, rfl⟩
  | succ k ih =>
    rcases b with _ | c
    · exact ⟨none, rfl⟩
    · unfold badOnPath
      have hc := h c rfl
      rw [assertThat, BlockEntry.haveTxsDownloaded, decide_eq_true hc.self]
      split_ifs with hin hbad
      · exact ⟨none, rfl⟩
      · exact ⟨some c, rfl⟩
      · exact ih fun p hp => (allAnc_iff.mp hc).2 p hp

/-- What taking a bad chain off the candidates keeps. -/
structure Dropped (s s' : CChainState) : Prop where
  parent : s'.parent = s.parent
  nChainTx : ∀ b, (s'.node b).nChainTx = (s.node b).nChainTx
  worse : s'.worse = s.worse
  candidates : s'.setBlockIndexCandidates <+ s.setBlockIndexCandidates

namespace Dropped

/-- Nothing is taken off. -/
theorem refl (s : CChainState) : Dropped s s := ⟨rfl, fun _ => rfl, rfl, .refl _⟩

/-- One after the other. -/
theorem trans {s2 : CChainState} (h : Dropped s s1) (h' : Dropped s1 s2) : Dropped s s2 :=
  ⟨h'.parent.trans h.parent, fun b => (h'.nChainTx b).trans (h.nChainTx b), h'.worse.trans h.worse,
    h'.candidates.trans h.candidates⟩

/-- What is left is in order. -/
theorem sorted (h : Dropped s s') (hsorted : s.Sorted) : s'.Sorted := by
  unfold Sorted
  rw [h.worse]
  exact hsorted.sublist h.candidates

/-- A candidate is erased from a set that is in order. -/
theorem eraseCandidate (std : SetContract Uint256) (hsorted : s.Sorted) (b : Uint256) :
    Dropped s (s.eraseCandidate b std) := by
  refine ⟨rfl, fun _ => rfl, rfl, ?_⟩
  rw [CChainState.eraseCandidate, std.erase_eq (worse_strictOrder s) hsorted]
  exact filter_sublist

/-- A block above a bad one. -/
theorem dropBlock (std : SetContract Uint256) (hsorted : s.Sorted) (fFailedChain : Bool)
    (b : Uint256) :
    Dropped s (s.dropBlock std fFailedChain b) := by
  have hthen : ∀ {s1}, Dropped s s1 → Dropped s (s1.eraseCandidate b std) := fun h =>
    h.trans (eraseCandidate std (h.sorted hsorted) b)
  refine hthen ?_
  split_ifs
  · -- Only a flag changes, which neither the tree nor the comparison reads.
    have hnode : ∀ c, ∃ status, (s.modify b fun entry =>
        { entry with status := { entry.status with failedChild := true } }).node c =
        { s.node c with status } := by
      intro c
      by_cases h : c = b
      · exact ⟨_, by rw [h, modify_node_self]⟩
      · exact ⟨_, modify_node_of_ne _ h⟩
    refine ⟨modify_parent fun _ => rfl, fun c => ?_, ?_, .refl _⟩
    · obtain ⟨status, h⟩ := hnode c
      rw [h]
    · funext a c
      obtain ⟨_, ha⟩ := hnode a
      obtain ⟨_, hc⟩ := hnode c
      unfold CChainState.worse
      rw [ha, hc]
  · rcases s.parent b with _ | p
    · exact .refl s
    · exact ⟨rfl, fun _ => rfl, rfl, .refl _⟩

/-- The blocks down to a bad one. -/
theorem dropChain (std : SetContract Uint256) (fFailedChain : Bool) (t : Uint256) (k : Nat)
    (b : Uint256) (hsorted : s.Sorted) :
    Dropped s (CChainState.dropChain std fFailedChain t k b s) := by
  induction k generalizing b s with
  | zero => exact .refl s
  | succ k ih =>
    unfold CChainState.dropChain
    split_ifs with h
    · exact .refl s
    · dsimp only
      have hdrop := dropBlock std hsorted fFailedChain b
      rcases (s.dropBlock std fFailedChain b).parent b with _ | p
      · exact hdrop
      · exact hdrop.trans (ih p (hdrop.sorted hsorted))

end Dropped

/-- `FindMostWorkChain` passes its assertion, and what it returns is a candidate. -/
theorem findMostWorkLoop_ok (std : SetContract Uint256) {k : Nat} (hsorted : s.Sorted)
    (h : CandidatesLinked s) :
    ∃ r s', findMostWorkLoop std k s = .ok (r, s') ∧ ∀ n, r = some n →
      n ∈ s.setBlockIndexCandidates := by
  induction k generalizing s with
  | zero => exact ⟨none, s, rfl, nofun⟩
  | succ k ih =>
    unfold findMostWorkLoop
    rcases hbest : s.bestCandidate with _ | m
    · exact ⟨none, s, rfl, nofun⟩
    · have hm : m ∈ s.setBlockIndexCandidates := mem_of_getLast? hbest
      dsimp only
      obtain ⟨r, hr⟩ := badOnPath_ok (k := (s.node m).nHeight + 1) (b := some m) fun c hc =>
        Option.some.inj hc ▸ h m hm
      rw [hr, ok_bind]
      rcases r with _ | t
      · exact ⟨some m, s, rfl, fun n hn => Option.some.inj hn ▸ hm⟩
      · have hchain := Dropped.dropChain std (s.node t).status.failed t ((s.node m).nHeight + 1)
          m hsorted
        have hdrop := hchain.trans (.eraseCandidate std (hchain.sorted hsorted) t)
        obtain ⟨r, s', hloop, hmem⟩ := ih (hdrop.sorted hsorted) (by
          intro b hb
          rw [hdrop.parent]
          exact (h b (hdrop.candidates.subset hb)).mono fun a _ ha => by rwa [hdrop.nChainTx])
        exact ⟨r, s', hloop, fun n hn => hdrop.candidates.subset (hmem n hn)⟩

/-! ## The result -/

/-- The block index is usable after the data of `x` was erased: linked blocks have the data of all
their ancestors, `x` and its descendants are no candidates, those that still have data wait for `x`,
and the next `FindMostWorkChain` passes its assertion and finds a chain without `x`. -/
structure Usable (std : SetContract Uint256) (s : CChainState) (x : Uint256) : Prop where
  linked : ∀ b ∈ s.m_block_index, (s.node b).nChainTx ≠ 0 → s.AllProcessed b
  candidates : ∀ b ∈ s.setBlockIndexCandidates, ¬ s.Anc x b
  unlinked : ∀ b ∈ s.m_block_index, s.Anc x b → (s.node b).status.haveData → s.Waiting b
  findMostWork : ∃ r s', s.findMostWorkChain std = .ok (r, s') ∧ ∀ n, r = some n → ¬ s.Anc x n

/-- No child of the block is linked. -/
def NoLinkedChild (s : CChainState) (x : Uint256) : Prop :=
  ∀ b ∈ s.m_block_index, s.parent b = some x → (s.node b).nChainTx = 0

/-- Descendants of the block that have data and an invalid ancestor wait all the same. -/
def InvalidWait (s : CChainState) (x : Uint256) : Prop :=
  ∀ b ∈ s.m_block_index, b ≠ x → s.Anc x b → (s.node b).status.haveData → ¬ s.NoInvalid b →
    s.Waiting b

section Erased

variable (hE : ErasedAll s [x] s')

include hE

/-- Ancestors are what they were. -/
theorem ErasedAll.anc_iff (a b : Uint256) : s'.Anc a b ↔ s.Anc a b := by
  unfold CChainState.Anc
  rw [hE.parent]

/-- The erased entry. -/
theorem ErasedAll.node_self : s'.node x = erasedEntry (s.node x) :=
    hE.node_of_mem x (mem_singleton_self x)

/-- The other entries. -/
theorem ErasedAll.node_of_ne {b : Uint256} (h : b ≠ x) : s'.node b = s.node b :=
  hE.node_of_not_mem b (mt mem_singleton.mp h)

/-- A usable index shows that no linked child was there. -/
theorem ErasedAll.conditions_of_usable (htree : Tree s) (husable : Usable std s' x) :
    NoLinkedChild s x ∧ InvalidWait s x := by
  constructor
  · intro b hb hbx
    by_contra hlinked
    have hne : b ≠ x := by
      rintro rfl
      exact htree.not_anc_parent hb hbx (.refl b)
    have hall := husable.linked b (hE.m_block_index ▸ hb) (by rwa [hE.node_of_ne hne])
    refine hall x ?_ (by rw [hE.node_self]; rfl)
    rw [hE.parent]
    exact (Forest.Anc.refl x).of_parent hbx
  · intro b hb hne hanc hdata _
    obtain ⟨p, hp, hmem⟩ := husable.unlinked b (hE.m_block_index ▸ hb) ((hE.anc_iff ..).mpr hanc)
      (by rwa [hE.node_of_ne hne])
    exact ⟨p, hE.parent ▸ hp, ((hE.unlinked _).mp hmem).1⟩

/-- Without linked children all is well. -/
theorem ErasedAll.usable {tip : Uint256} (hwf : s.WellFormed)
    (hcheck : ∀ b ∈ s.m_block_index, s.CheckBlock tip b) (hx : x ∈ s.m_block_index)
    (hchild : NoLinkedChild s x) (hwait : InvalidWait s x) : Usable std s' x := by
  have htree := tree_of_checkBlock hwf hcheck
  -- No linked block but `x` itself is above `x`: the first block of the way up would be linked.
  have hbelow : ∀ b ∈ s.m_block_index, b ≠ x → (s.node b).nChainTx ≠ 0 → ¬ s.Anc x b := by
    intro b hb hne hlinked hanc
    obtain ⟨c, hcx, hcb⟩ := hanc.exists_child hne.symm
    have hc := htree.graded.mem hb hcb
    exact (hcheck b hb).linked_anc (hcheck c hc) hcb hlinked (hchild c hc hcx)
  have hcand : ∀ b ∈ s'.setBlockIndexCandidates,
      b ∈ s.m_block_index ∧ ¬ s.Anc x b ∧ (s.node b).nChainTx ≠ 0 := by
    intro b hb
    obtain ⟨hne, hb | ⟨-, hlinked, c, hc, hp⟩⟩ := (hE.candidates b).mp hb
    · have hmem := hwf.candidates_mem b hb
      have hlinked : (s.node b).nChainTx ≠ 0 := by
        by_contra h
        exact (hcheck b hmem).notCandidate (.inr fun hall => (hcheck b hmem).linked.mp hall h) hb
      exact ⟨hmem, hbelow b hmem (mt mem_singleton.mpr hne) hlinked, hlinked⟩
    · obtain rfl := mem_singleton.mp hc
      exact ⟨htree.parent_mem c hx b hp, htree.not_anc_parent hx hp, hlinked⟩
  have hlinkedAnc : CandidatesLinked s' := by
    intro b hb a ha
    obtain ⟨hmem, hnot, hlinked⟩ := hcand b hb
    rw [hE.parent] at ha
    have hne : a ≠ x := fun h => hnot (h ▸ ha)
    rw [hE.node_of_ne hne]
    exact (hcheck b hmem).linked_anc (hcheck a (htree.graded.mem hmem ha)) ha hlinked
  refine ⟨?_, ?_, ?_, ?_⟩
  · intro b hb hlinked
    rw [hE.m_block_index] at hb
    have hne : b ≠ x := by
      rintro rfl
      rw [hE.node_self] at hlinked
      exact hlinked rfl
    rw [hE.node_of_ne hne] at hlinked
    intro a ha
    rw [hE.parent] at ha
    have hax : a ≠ x := fun h => hbelow b hb hne hlinked (h ▸ ha)
    rw [hE.node_of_ne hax]
    exact (hcheck b hb).linked.mpr hlinked a ha
  · intro b hb
    rw [hE.anc_iff]
    exact (hcand b hb).2.1
  · intro b hb hanc hdata
    rw [hE.m_block_index] at hb
    rw [hE.anc_iff] at hanc
    have hne : b ≠ x := by
      rintro rfl
      rw [hE.node_self] at hdata
      exact absurd hdata Bool.false_ne_true
    rw [hE.node_of_ne hne] at hdata
    have hwaiting : s.Waiting b := by
      by_cases hinvalid : s.NoInvalid b
      · refine (hcheck b hb).unlinked ?_ hdata (fun hall => ?_) hinvalid
        · obtain ⟨p, hp, -⟩ := hanc.eq_or_parent.resolve_left (Ne.symm hne)
          rw [hp]
          exact Option.some_ne_none p
        · exact hbelow b hb hne ((hcheck b hb).linked.mp hall) hanc
      · exact hwait b hb hne hanc hdata hinvalid
    obtain ⟨p, hp, hmem⟩ := hwaiting
    exact ⟨p, by rw [hE.parent]; exact hp,
      (hE.unlinked _).mpr ⟨hmem, fun h => hne (mem_singleton.mp h.2)⟩⟩
  · obtain ⟨r, s'', hfind, hmem⟩ := findMostWorkLoop_ok std
      (k := s'.setBlockIndexCandidates.length + 1) hE.sorted hlinkedAnc
    refine ⟨r, s'', hfind, fun n hn => ?_⟩
    rw [hE.anc_iff]
    exact (hcand n (hmem n hn)).2.1

end Erased

/-- A careful implementation leaves a block that does not keep its place among the candidates. -/
theorem mem_eraseData_careful (hsorted : s.Sorted) (hplace : ¬ s.KeepsPlace x) :
    x ∈ (s.eraseData (.careful Uint256) x).setBlockIndexCandidates := by
  have hx : x ∈ s.setBlockIndexCandidates := by
    by_contra hx
    exact hplace fun h => absurd h hx
  have hstays :
      x ∈ ((s.modify x erasedEntry).eraseCandidate x (.careful _)).setBlockIndexCandidates := by
    rwa [show ((s.modify x erasedEntry).eraseCandidate x (.careful _)).setBlockIndexCandidates =
      s.setBlockIndexCandidates from if_neg (mt (sorted_reset_iff hsorted).mp hplace)]
  unfold eraseData restoreParent
  split
  · split_ifs
    · exact ((worse_strictOrder _).mem_insert _ x).mpr (.inr hstays)
    · exact hstays
  · exact hstays

/-- After `ConnectTip` failed on a block with `BLOCK_MUTATED`, the block index is usable, whatever
implementation of `std::set` the candidates are kept in, if and only if no child of the block is
linked, every descendant with data and an invalid ancestor waits for data, and the block keeps its
place among the candidates when its sequence id is reset. -/
theorem connectTip_mutated_usable_iff {x : Uint256} (hwf : s.WellFormed)
    (hcheck : s.CheckBlockIndex) (hx : x ∈ s.m_block_index) (hprev : s.parent x = s.tip) :
    (∀ std, ∃ s', s.connectTip std x .mutated = .ok (false, s') ∧ Usable std s' x) ↔
      NoLinkedChild s x ∧ InvalidWait s x ∧ s.KeepsPlace x := by
  obtain ⟨tip, htip, hcheck⟩ := hcheck
  have htree := tree_of_checkBlock hwf hcheck
  rw [htip] at hprev
  have hconnect : ∀ std, s.connectTip std x .mutated = .ok (false, s.eraseData std x) := by
    have hnot : s.contains x = false := by
      rw [← Bool.not_eq_true, htree.contains_iff hwf htip]
      exact htree.not_anc_parent hx hprev
    have hassert : s.parent x = s.tip := hprev.trans htip.symm
    intro std
    unfold connectTip eraseBlockData
    rw [hnot, decide_eq_true hassert]
    rfl
  simp only [hconnect, Except.ok.injEq, Prod.mk.injEq, true_and, exists_eq_left']
  constructor
  · intro husable
    have hplace : s.KeepsPlace x := by
      by_contra hplace
      exact (husable (.careful _)).candidates x (mem_eraseData_careful hwf.sorted hplace) (.refl x)
    have hE := (ErasedAll.nil hwf.sorted).eraseData hplace (.careful _)
    obtain ⟨hchild, hwait⟩ := hE.conditions_of_usable htree (husable _)
    exact ⟨hchild, hwait, hplace⟩
  · rintro ⟨hchild, hwait, hplace⟩ std
    exact ((ErasedAll.nil hwf.sorted).eraseData hplace std).usable hwf hcheck hx hchild hwait

/-! ## A failing block -/

/-- An entry for a block whose data has arrived. -/
def sampleEntry (pprev : Option Uint256) (nHeight : Nat) (nSequenceId : Int) : BlockEntry where
  pprev := pprev
  nHeight := nHeight
  nChainWork := nHeight + 1
  nTx := 1
  nChainTx := nHeight + 1
  status := ⟨3, true, false, false, false, true⟩
  nSequenceId := nSequenceId

/-- The genesis block 0 is the tip. Block 1 is its child, and block 2, if it is there, is a child of
block 1. The data of all blocks has arrived, that of block 2 before that of block 1. -/
def sampleState (withChild : Bool) : CChainState where
  m_block_index := if withChild then [0, 1, 2] else [0, 1]
  node b :=
    if b = 0 then sampleEntry none 0 1
    else if b = 1 then sampleEntry (some 0) 1 2
    else sampleEntry (some 1) 2 3
  m_blocks_unlinked := []
  m_failed_blocks := []
  vChain := [0]
  setBlockIndexCandidates := if withChild then [0, 1, 2] else [0, 1]
  nBlockSequenceId := 4

/-- The sample passes `CheckBlockIndex`. -/
theorem check_sampleState (withChild : Bool) :
    (sampleState withChild).WellFormed ∧ (sampleState withChild).CheckBlockIndex := by
  cases withChild <;> decide +kernel

/-- A block without children keeps its place and leaves a usable index. -/
theorem connectTip_mutated_usable_iff_sampleState :
    (sampleState false).CheckBlockIndex ∧
    ∀ std, ∃ s', (sampleState false).connectTip std 1 .mutated = .ok (false, s') ∧
      Usable std s' 1 := by
  obtain ⟨hwf, hcheck⟩ := check_sampleState false
  have hiff := connectTip_mutated_usable_iff (x := 1) hwf hcheck (by decide) (by decide)
  refine ⟨hcheck, hiff.mpr ⟨by unfold NoLinkedChild; decide +kernel, fun b hb hne hanc => ?_,
    by unfold KeepsPlace Untied; decide +kernel⟩⟩
  -- Block 1 has no descendants.
  have hnone : ∀ b ∈ (sampleState false).m_block_index, b ≠ 1 →
      1 ∉ (sampleState false).pathTo (((sampleState false).node b).nHeight + 1)
        b := by decide +kernel
  obtain ⟨tip, -, hblocks⟩ := hcheck
  rw [← (tree_of_checkBlock hwf hblocks).mem_pathTo _ hb rfl] at hanc
  exact absurd hanc (hnone b hb hne)

/-- A block whose child is linked fails as mutated: the child keeps its transaction count and its
place among the candidates, and the next choice of a chain stops at an assertion. -/
theorem connectTip_mutated_leaves_child :
    (sampleState true).WellFormed ∧ (sampleState true).CheckBlockIndex ∧
    ∃ std s', (sampleState true).connectTip std 1 .mutated = .ok (false, s') ∧ (s'.node 1).nTx = 0 ∧
      (s'.node 2).nChainTx ≠ 0 ∧ s'.parent 2 = some 1 ∧ 2 ∈ s'.setBlockIndexCandidates ∧
      ¬ s'.Waiting 2 ∧ s'.findMostWorkChain std =
        .error "pindexTest->HaveTxsDownloaded() || pindexTest->nHeight == 0" := by
  obtain ⟨hwf, hcheck⟩ := check_sampleState true
  refine ⟨hwf, hcheck, .careful _, (sampleState true).eraseData (.careful _) 1, rfl,
    rfl, by decide +kernel,
    rfl, by decide +kernel, by decide +kernel, ?_⟩
  have hassert :
      Ensures (((sampleState true).eraseData (.careful _) 1).findMostWorkChain (.careful _))
      (fun _ => False) (· = "pindexTest->HaveTxsDownloaded() || pindexTest->nHeight == 0") := by
    decide +kernel
  obtain ⟨e, he, rfl⟩ := hassert.exists_error
  exact he

end CChainState

end DefcoinCore
