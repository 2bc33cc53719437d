import DefcoinCore.Lib.Ensures
import DefcoinCore.Lib.MmrNodes
import DefcoinCore.Script.Script
import Mathlib.Data.Nat.Size

/-!
# Positions of nodes in the code

`mmr::Index` and `mmr::LeafIndex` compute with the positions of nodes bit by bit: the position of a
leaf from the number of bits that are set, and the height of a node by taking off the largest trees
before it. Positions have 64 bits, so all of this is right for less than `2 ^ 63` leaves, and then
it is what `Lib/MmrNodes.lean` says: `LeafIndex::At` gives the number of nodes over the leaves
before (`leafPosition_eq`), `Index::At` the height of the node (`atPos_nodePos`), and
`CalcPeakIndices` the peaks (`calcPeakIndices_spec`).
-/

namespace DefcoinCore.Mweb

open Mmr List Nat

/-! ## The code -/

/-- `BitUtil::FillOnesToRight`. -/
def fillOnesToRight (input : Nat) : Nat :=
  [1, 2, 4, 8, 16, 32].foldl (fun x k => x ||| (x >>> k)) input

/-- The loop of `BitUtil::CountBitsSet`. -/
def countBits : Nat → Nat → Nat
  | 0, _ => 0
  | k + 1, n => n % 2 + countBits k (n / 2)

/-- `BitUtil::CountBitsSet`, of 64 bits. -/
def countBitsSet (input : Nat) : Nat := countBits 64 input

/-- `LeafIndex::At(leafIndex).GetPosition()`. -/
def leafPosition (leafIndex : Nat) : Nat := 2 * leafIndex - countBitsSet leafIndex

/-- The values of a `peakSize` that starts with ones in all bits of a number and is halved until it
is zero. -/
def peakSizes (x : Nat) : List Nat :=
  ((List.range 64).map fun k => fillOnesToRight x >>> k).takeWhile fun peakSize => peakSize ≠ 0

/-- `mmr::Index`. -/
structure Index where
  position : Nat
  height : Nat
  deriving DecidableEq

namespace Index

/-- `Index::CalculateHeight`. -/
def calculateHeight (position : Nat) : Nat :=
  (takeTrees (fun _ _ => ()) (peakSizes position) () position).2

/-- `Index::CalculateLeafIndex`. -/
def calculateLeafIndex (position : Nat) : Nat :=
  (takeTrees (fun leafIndex peakSize => leafIndex + (peakSize + 1) / 2)
    (peakSizes position) 0 position).1

/-- `Index::At`. -/
def atPos (position : Nat) : Index := ⟨position, calculateHeight position⟩

/-- `Index::IsLeaf`. -/
def isLeaf (idx : Index) : Bool := idx.height = 0

/-- `Index::GetLeafIndex`. -/
def getLeafIndex (idx : Index) : Except Fault Nat := do
  reject (!idx.isLeaf) .assertion
  pure (calculateLeafIndex idx.position)

/-- `Index::GetLeftChild`. -/
def getLeftChild (idx : Index) : Except Fault Index := do
  reject (decide (idx.height = 0)) .assertion
  pure ⟨idx.position - 2 ^ idx.height, idx.height - 1⟩

/-- `Index::GetRightChild`. -/
def getRightChild (idx : Index) : Except Fault Index := do
  reject (decide (idx.height = 0)) .assertion
  pure ⟨idx.position - 1, idx.height - 1⟩

/-- `Index::GetParent`. -/
def getParent (idx : Index) : Index :=
  if calculateHeight (idx.position + 1) = idx.height + 1 then ⟨idx.position + 1, idx.height + 1⟩
  else ⟨idx.position + 2 ^ (idx.height + 1), idx.height + 1⟩

/-- `Index::GetSibling`. -/
def getSibling (idx : Index) : Index :=
  if calculateHeight (idx.position + 1) = idx.height + 1 then
    ⟨idx.position + 1 - 2 ^ (idx.height + 1), idx.height⟩
  else ⟨idx.position + 2 ^ (idx.height + 1) - 1, idx.height⟩

end Index

/-- The loop of `BitUtil::CountRightmostZeros`. -/
def rightmostZeros : Nat → Nat → Nat
  | 0, _ => 0
  | k + 1, n => if n % 2 = 0 then rightmostZeros k (n / 2) + 1 else 0

/-- `BitUtil::CountRightmostZeros`, of 64 bits. -/
def countRightmostZeros (input : Nat) : Except Fault Nat := do
  reject (decide (input = 0)) .assertion
  pure (rightmostZeros 64 input)

/-- `SiblingIter`, over the nodes of a height. -/
structure SiblingIter where
  m_height : Nat
  m_lastNode : Index
  m_baseInc : Nat
  m_siblingNum : Nat
  m_next : Index

namespace SiblingIter

/-- The constructor. -/
def new (height : Nat) (last_node : Index) : SiblingIter :=
  ⟨height, last_node, 2 <<< height - 1, 0, ⟨0, 0⟩⟩

/-- `SiblingIter::Next`. -/
def next (it : SiblingIter) : Except Fault (Bool × SiblingIter) := do
  let m_next ← if it.m_siblingNum = 0 then pure ⟨it.m_baseInc - 1, it.m_height⟩
    else do
      let zeros ← countRightmostZeros it.m_siblingNum
      pure ⟨it.m_next.position + (it.m_baseInc + zeros), it.m_height⟩
  pure (decide (m_next.position ≤ it.m_lastNode.position),
    { it with m_next, m_siblingNum := it.m_siblingNum + 1 })

/-- What `Get` returns in a loop as long as `Next` finds a node, for at most a number of calls. -/
def visit : Nat → SiblingIter → Except Fault (List Index)
  | 0, _ => .ok []
  | calls + 1, it => do
    let (found, it) ← it.next
    if found then return it.m_next :: (← visit calls it) else return []

end SiblingIter

/-- `MMRUtil::CalcPeakIndices`. -/
def calcPeakIndices (num_nodes : Nat) : Except Fault (List Index) :=
  if num_nodes = 0 then .ok []
  else do
    let taken := takeTrees (fun (acc : List Index × Nat) peakSize =>
      (acc.1 ++ [Index.atPos (acc.2 + peakSize - 1)], acc.2 + peakSize)) (peakSizes num_nodes)
        ([], 0) num_nodes
    reject (decide (taken.2 ≠ 0)) .assertion
    pure taken.1.1

/-! ## Bits -/

/-- A loop over a list that stops at an index. -/
theorem takeWhile_eq_take {α : Type} {p : α → Bool} {l : List α} {r : Nat}
    (hp : ∀ i x, l[i]? = some x → i < r → p x) (hstop : ∀ x, l[r]? = some x → p x = false) :
    l.takeWhile p = l.take r := by
  induction l generalizing r with
  | nil => rw [takeWhile_nil, take_nil]
  | cons x l ih =>
    rcases r with _ | r
    · rw [takeWhile_cons_of_neg (by rw [hstop x rfl]; decide), take_zero]
    · rw [takeWhile_cons_of_pos (hp 0 x rfl (succ_pos r)), take_succ_cons,
        ih (fun i y hy hi => hp (i + 1) y hy (by omega)) hstop]

/-- A loop over a range that stops. -/
theorem takeWhile_map_range {α : Type} {f : Nat → α} {p : α → Bool} {r n : Nat} (hr : r ≤ n)
    (hp : ∀ i < r, p (f i)) (hstop : r < n → p (f r) = false) :
    ((range n).map f).takeWhile p = (range r).map f := by
  have hget : ∀ i x, ((range n).map f)[i]? = some x → i < n ∧ f i = x := by
    intro i x hx
    obtain ⟨hlt, rfl⟩ := List.getElem?_eq_some_iff.mp hx
    simpa using hlt
  rw [takeWhile_eq_take (fun i x hx hi => (hget i x hx).2 ▸ hp i hi) fun x hx => (hget r x hx).2 ▸
    hstop (hget r x hx).1, ← map_take, take_range, min_eq_left hr]

/-- One round brings the bits to the right, as far again. -/
theorem testBit_or_shiftRight {x input w : Nat}
    (h : ∀ i, x.testBit i ↔ ∃ k < w, input.testBit (i + k)) (i : Nat) :
    (x ||| (x >>> w)).testBit i ↔ ∃ k < 2 * w, input.testBit (i + k) := by
  rw [testBit_or, testBit_shiftRight, Bool.or_eq_true, h, h]
  constructor
  · rintro (⟨k, hk, hbit⟩ | ⟨k, hk, hbit⟩)
    · exact ⟨k, by omega, hbit⟩
    · exact ⟨w + k, by omega, by rwa [show i + (w + k) = w + i + k by omega]⟩
  · rintro ⟨k, hk, hbit⟩
    rcases lt_or_ge k w with hlt | hge
    · exact .inl ⟨k, hlt, hbit⟩
    · exact .inr ⟨k - w, by omega, by rwa [show w + i + (k - w) = i + k by omega]⟩

/-- All bits up to the highest one are set. -/
theorem fillOnesToRight_eq {x : Nat} (hx : x < 2 ^ 64) : fillOnesToRight x = 2 ^ x.size - 1 := by
  have h1 : ∀ i, x.testBit i = true ↔ ∃ k < 1, x.testBit (i + k) = true := by simp
  have hall := testBit_or_shiftRight (testBit_or_shiftRight (testBit_or_shiftRight
    (testBit_or_shiftRight (testBit_or_shiftRight (testBit_or_shiftRight h1)))))
  apply eq_of_testBit_eq
  intro i
  rw [testBit_two_pow_sub_one, Bool.eq_iff_iff, decide_eq_true_iff]
  refine (hall i).trans ⟨?_, fun hi => ?_⟩
  · rintro ⟨k, -, hbit⟩
    have hle := lt_size.mpr (ge_two_pow_of_testBit hbit)
    omega
  · -- The highest bit is among the next 64.
    have hsize : x.size ≤ 64 := size_le.mpr hx
    refine ⟨x.size - 1 - i, by omega, ?_⟩
    rw [show i + (x.size - 1 - i) = x.size - 1 by omega]
    have hlow : 2 ^ (x.size - 1) ≤ x := lt_size.mp (by omega)
    have hhigh : x < 2 ^ (x.size - 1 + 1) := by
      rw [Nat.sub_add_cancel (by omega)]
      exact lt_size_self x
    rw [testBit_eq_decide_div_mod_eq, decide_eq_true_iff]
    have hdiv : x / 2 ^ (x.size - 1) = 1 :=
      Nat.div_eq_of_lt_le (by rwa [Nat.one_mul]) (by rwa [Nat.succ_mul, Nat.one_mul, ← Nat.mul_two])
    rw [hdiv]

theorem treeSizes_eq (s : Nat) : treeSizes s = (range s).map fun k => 2 ^ (s - k) - 1 := by
  induction s with
  | zero => rfl
  | succ s ih =>
    rw [treeSizes, range_succ_eq_map, map_cons, map_map, ih, Nat.sub_zero]
    congr 1
    refine map_congr_left fun k _ => ?_
    rw [Function.comp_apply, Nat.succ_eq_add_one, Nat.add_sub_add_right]

theorem peakSizes_eq {x : Nat} (hx : x < 2 ^ 64) : peakSizes x = treeSizes x.size := by
  have hsize : x.size ≤ 64 := size_le.mpr hx
  have hshift : ∀ k, fillOnesToRight x >>> k = 2 ^ (x.size - k) - 1 := by
    intro k
    rw [fillOnesToRight_eq hx]
    apply eq_of_testBit_eq
    intro i
    rw [testBit_shiftRight, testBit_two_pow_sub_one, testBit_two_pow_sub_one, decide_eq_decide]
    omega
  unfold peakSizes
  rw [treeSizes_eq]
  simp only [hshift]
  refine takeWhile_map_range hsize (fun k hk => ?_) fun _ => ?_
  · have hone : 1 < 2 ^ (x.size - k) := Nat.one_lt_two_pow (by omega)
    rw [decide_eq_true_iff]
    omega
  · simp

theorem countBits_add_numNodes {k n : Nat} (hn : n < 2 ^ k) :
    countBits k n + numNodes n = 2 * n := by
  induction k generalizing n with
  | zero =>
    rw [show n = 0 by simpa using hn, numNodes_zero]
    rfl
  | succ k ih =>
    have hhalf := ih (n := n / 2) (by rw [pow_succ] at hn; omega)
    rw [countBits, numNodes_eq]
    omega

/-- A leaf comes after all nodes over the leaves before it. -/
theorem leafPosition_eq {n : Nat} (hn : n < 2 ^ 64) : leafPosition n = numNodes n := by
  have hcount := countBits_add_numNodes hn
  unfold leafPosition countBitsSet
  omega

/-! ## Nodes -/

/-- The index of node `k` of height `h`. -/
def nodeIndex (h k : Nat) : Index := ⟨nodePos h k, h⟩

/-- Positions over less than `2 ^ 63` leaves have 64 bits. -/
theorem numNodes_lt {n : Nat} (hn : n ≤ 2 ^ 63) : numNodes n < 2 ^ 64 := by
  have hmono := numNodes_strictMono.monotone hn
  have htree := numNodes_two_pow 63
  omega

namespace Index

/-- What a loop over the peak sizes finds at a node. -/
theorem takeTrees_peakSizes {β : Type} (note : β → Nat → β) {m i : Nat} (seen : Nat → β)
    (hnote : ∀ h a, 2 ^ (h + 1) * a + 2 ^ h ≤ m →
      note (seen (2 ^ (h + 1) * a)) (2 ^ (h + 1) - 1) = seen (2 ^ (h + 1) * a + 2 ^ h))
    (hi : 2 ^ i ∣ m + 1) (hlt : numNodes m + i < 2 ^ 64) :
    takeTrees note (peakSizes (numNodes m + i)) (seen 0) (numNodes m + i) = (seen m, i) := by
  have hm : m < 2 ^ (numNodes m + i).size := by
    have hle := le_numNodes m
    have hsize := lt_size_self (numNodes m + i)
    omega
  have htake := takeTrees_spec (c := 0) hnote (by omega) hm fun _ => hi
  rwa [mul_zero, zero_add, ← peakSizes_eq hlt] at htake

/-- The height of a node is computed from its position. -/
theorem calculateHeight_add {m i : Nat} (hi : 2 ^ i ∣ m + 1) (hlt : numNodes m + i < 2 ^ 64) :
    calculateHeight (numNodes m + i) = i := by
  unfold calculateHeight
  rw [takeTrees_peakSizes _ (fun _ => ()) (fun _ _ _ => rfl) hi hlt]

theorem atPos_add {m i : Nat} (hi : 2 ^ i ∣ m + 1) (hlt : numNodes m + i < 2 ^ 64) :
    atPos (numNodes m + i) = ⟨numNodes m + i, i⟩ := by
  unfold atPos
  rw [calculateHeight_add hi hlt]

theorem atPos_nodePos {h k : Nat} (hlt : nodePos h k < 2 ^ 64) :
    atPos (nodePos h k) = nodeIndex h k := by
  rw [nodePos_eq] at hlt
  unfold nodeIndex
  rw [nodePos_eq]
  exact atPos_add (two_pow_dvd_last h k) hlt

theorem calculateLeafIndex_numNodes {n : Nat} (hlt : numNodes n < 2 ^ 64) :
    calculateLeafIndex (numNodes n) = n := by
  have htake := takeTrees_peakSizes (fun leafIndex peakSize => leafIndex + (peakSize + 1) / 2)
    (fun a => a) (fun h a _ => by rw [pow_succ]; omega) (show 2 ^ 0 ∣ n + 1 by simp) hlt
  rw [add_zero] at htake
  unfold calculateLeafIndex
  rw [htake]

theorem getLeafIndex_numNodes {n : Nat} (hlt : numNodes n < 2 ^ 64) :
    (atPos (numNodes n)).getLeafIndex = .ok n := by
  have hat := atPos_add (m := n) (i := 0) (by simp) hlt
  rw [add_zero] at hat
  rw [hat]
  unfold getLeafIndex
  rw [calculateLeafIndex_numNodes hlt]
  rfl

theorem getLeftChild_nodeIndex (h k : Nat) :
    (nodeIndex (h + 1) k).getLeftChild = .ok (nodeIndex h (2 * k)) := by
  have hleft := nodePos_left h k
  unfold getLeftChild nodeIndex
  simp only [← hleft, Nat.add_sub_cancel]
  rfl

theorem nodeIndex_injective {h : Nat} : Function.Injective (nodeIndex h) :=
  fun _ _ heq => (nodePos_strictMono h).injective (congrArg position heq)

theorem getRightChild_nodeIndex (h k : Nat) :
    (nodeIndex (h + 1) k).getRightChild = .ok (nodeIndex h (2 * k + 1)) := by
  have hright := nodePos_right h k
  unfold getRightChild nodeIndex
  simp only [← hright]
  rfl

/-- The two children of a node have it as their parent and each other as siblings. -/
theorem children_nodeIndex {h k : Nat} (hlt : nodePos (h + 1) k < 2 ^ 64) :
    (nodeIndex h (2 * k)).getParent = nodeIndex (h + 1) k ∧
      (nodeIndex h (2 * k + 1)).getParent = nodeIndex (h + 1) k ∧
      (nodeIndex h (2 * k)).getSibling = nodeIndex h (2 * k + 1) ∧
      (nodeIndex h (2 * k + 1)).getSibling = nodeIndex h (2 * k) := by
  have hleft := nodePos_left h k
  have hright := nodePos_right h k
  have hnext := numNodes_two_pow_mul_succ h (2 * k)
  rw [rank_two_mul, add_zero] at hnext
  -- A left child is followed by a leaf, a right child by its parent.
  have hzero : calculateHeight (nodePos h (2 * k) + 1) = 0 := by
    have htwo := two_le_two_pow_succ h
    rw [← hnext]
    exact calculateHeight_add (i := 0) (one_dvd _) (by omega)
  have hup : calculateHeight (nodePos h (2 * k + 1) + 1) = h + 1 := by
    rw [nodePos_right]
    exact congrArg height (atPos_nodePos hlt)
  unfold getParent getSibling nodeIndex
  simp only [hzero, hup, if_pos, (succ_ne_zero h).symm, if_false, Index.mk.injEq, and_true]
  omega

end Index

open Index

/-- Below `2 ^ 62`, a position is that of the node that post-order has there. -/
theorem getElem?_postOrder {p : Nat} (hp : p < 2 ^ 62) :
    ∃ h k, nodePos h k = p ∧ (postOrder 62 0)[p]? = some (h, k) := by
  have hmap := congrArg (·[p]?) (map_nodePos_postOrder 62 0)
  simp only [List.getElem?_map, mul_zero, numNodes_zero,
    List.getElem?_range' (show p < 2 ^ (62 + 1) - 1 by omega), Option.map_eq_some_iff] at hmap
  obtain ⟨⟨h, k⟩, hget, hpos⟩ := hmap
  exact ⟨h, k, hpos.trans (by omega), hget⟩

/-! ## Nodes of one height -/

theorem rightmostZeros_eq {k m : Nat} (hm : m + 1 < 2 ^ k) : rightmostZeros k (m + 1) = rank m := by
  induction k generalizing m with
  | zero => omega
  | succ k ih =>
    unfold rightmostZeros
    rcases even_or_odd' m with ⟨j, rfl | rfl⟩
    · rw [if_neg (by omega), rank_two_mul]
    · rw [if_pos (by omega), rank_two_mul_add_one, show (2 * j + 1 + 1) / 2 = j + 1 by omega,
        ih (by omega)]

namespace SiblingIter

/-- The iterator before node `k` of a height. -/
def before (h : Nat) (last : Index) (k : Nat) : SiblingIter :=
  ⟨h, last, 2 <<< h - 1, k, if k = 0 then ⟨0, 0⟩ else nodeIndex h (k - 1)⟩

theorem next_before {h k : Nat} {last : Index} (hk : k < 2 ^ 64) :
    (before h last k).next = .ok (decide (nodePos h k ≤ last.position), before h last (k + 1)) := by
  have hinc : 2 <<< h - 1 = 2 ^ (h + 1) - 1 := by rw [Nat.shiftLeft_eq, pow_succ']
  rcases k with _ | k
  · have hfirst : 2 <<< h - 1 - 1 = nodePos h 0 := by
      rw [hinc, nodePos, Nat.mul_zero, numNodes_zero]
      omega
    simp only [next, before, if_pos, hfirst]
    rfl
  · have hnext : nodePos h k + (2 <<< h - 1 + rank k) =
      nodePos h (k + 1) := by rw [nodePos_succ, hinc]
    have hzeros : countRightmostZeros (k + 1) = .ok (rank k) := by
      rw [← rightmostZeros_eq hk]
      rfl
    simp only [next, before, Nat.succ_ne_zero, if_false, hzeros, ok_bind, nodeIndex,
      Nat.add_sub_cancel,
      hnext]
    rfl

/-- From node `k` on, the nodes are visited in order up to the last of the first `n`. -/
theorem visit_before {h n k calls : Nat} {last : Index}
    (hn : ∀ j, nodePos h j ≤ last.position ↔ j < n)
    (hlt : n < 2 ^ 64) (hk : k ≤ n) (hcalls : n ≤ k + calls) :
    visit calls (before h last k) = .ok ((range' k (n - k)).map (nodeIndex h)) := by
  induction calls generalizing k with
  | zero =>
    rw [show n - k = 0 by omega]
    rfl
  | succ calls ih =>
    rw [visit, next_before (by omega), ok_bind]
    by_cases hle : k < n
    · simp only [(hn k).mpr hle, decide_true, if_true]
      rw [ih (k := k + 1) hle (by omega), show n - k = n - (k + 1) + 1 by omega, range'_succ]
      rfl
    · simp only [mt (hn k).mp hle, decide_false]
      rw [show n - k = 0 by omega]
      rfl

end SiblingIter

/-- Coordinates of the node at a position below `2 ^ 62`. The height is that of the node which
post-order has there; the children of a node have it as their parent; the sibling of a node has the
same parent, and the node as its sibling. Leaves are at the positions that `LeafIndex::At` gives, in
increasing order and with `GetLeafIndex` as its inverse, and `SiblingIter` visits the nodes of a
height in order. -/
theorem index_coordinates {p : Nat} (hp : p < 2 ^ 62) :
    ((postOrder 62 0)[p]?.map Prod.fst = some (atPos p).height) ∧
    ((atPos p).height ≠ 0 → ∃ l r : Index, (atPos p).getLeftChild = .ok l ∧
      (atPos p).getRightChild = .ok r ∧ l ≠ r ∧ atPos l.position = l ∧
      atPos r.position = r ∧ l.getParent = atPos p ∧ r.getParent = atPos p) ∧
    ((atPos p).getSibling ≠ atPos p ∧
      (atPos p).getSibling.getSibling = atPos p ∧
      (atPos p).getSibling.getParent = (atPos p).getParent) ∧
    ((atPos p).height = 0 ↔ ∃ n < 2 ^ 62, leafPosition n = p) ∧
    (∀ n < 2 ^ 62, (atPos (leafPosition n)).getLeafIndex = .ok n ∧
      ∀ m < n, leafPosition m < leafPosition n) ∧
    ∀ h, 1 ≤ h → h ≤ 60 → ∀ calls > p,
      Returns (SiblingIter.visit calls (SiblingIter.new h (atPos p))) fun visited =>
        visited.Pairwise (fun a b => a.position < b.position) ∧
          ∀ idx, idx ∈ visited ↔ idx.position ≤ p ∧ idx = atPos idx.position ∧
            idx.height = h := by
  have hatNode : ∀ {h k}, nodePos h k < 2 ^ 62 → atPos (nodePos h k) = nodeIndex h k :=
    fun hlt => atPos_nodePos (by omega)
  have hleaf : ∀ {n}, n < 2 ^ 62 → leafPosition n = nodePos 0 n := by
    intro n hn
    rw [leafPosition_eq (by omega), nodePos_zero]
  obtain ⟨h, k, rfl, hget⟩ := getElem?_postOrder hp
  refine ⟨?_, ?_, ?_, ⟨fun hzero => ?_, ?_⟩, fun n hn =>
    ⟨?_, fun m hm => ?_⟩, fun height _ _ calls hcalls => ?_⟩
  · rw [hget, hatNode hp]
    rfl
  · rw [hatNode hp]
    intro hne
    obtain ⟨h, rfl⟩ := exists_eq_add_one_of_ne_zero hne
    have hleft := nodePos_left h k
    have hright := nodePos_right h k
    have htwo := two_le_two_pow_succ h
    obtain ⟨hl, hr, -⟩ := children_nodeIndex (show nodePos (h + 1) k < 2 ^ 64 by omega)
    refine ⟨_, _, getLeftChild_nodeIndex h k, getRightChild_nodeIndex h k, ?_,
      hatNode (by omega), hatNode (by omega), hl, hr⟩
    exact fun heq => nodeIndex_injective.ne (by omega) heq
  · rw [hatNode hp]
    have hup : ∀ j, k = 2 * j ∨ k = 2 * j + 1 → nodePos (h + 1) j < 2 ^ 64 := by
      intro j hj
      have hleft := nodePos_left h j
      have hright := nodePos_right h j
      have htwo : 2 ^ (h + 1) ≤ nodePos h k + 2 := by
        unfold nodePos
        omega
      rcases hj with rfl | rfl <;> omega
    obtain ⟨j, hj⟩ := even_or_odd' k
    obtain ⟨hl, hr, hsl, hsr⟩ := children_nodeIndex (hup j hj)
    rcases hj with rfl | rfl
    · rw [hsl, hsr, hl, hr]
      exact ⟨nodeIndex_injective.ne (by omega), rfl, rfl⟩
    · rw [hsr, hsl, hl, hr]
      exact ⟨nodeIndex_injective.ne (by omega), rfl, rfl⟩
  · rw [hatNode hp] at hzero
    obtain rfl : h = 0 := hzero
    have hk := (nodePos_strictMono 0).le_apply (x := k)
    exact ⟨k, by omega, hleaf (by omega)⟩
  · rintro ⟨n, hn, hpos⟩
    rw [hleaf hn] at hpos
    rw [← hpos, hatNode (by omega)]
    rfl
  · rw [leafPosition_eq (by omega)]
    exact getLeafIndex_numNodes (numNodes_lt (by omega))
  · rw [hleaf hn, hleaf (by omega)]
    exact nodePos_strictMono 0 hm
  · have hmono := nodePos_strictMono height
    obtain ⟨n, hn⟩ : ∃ n, ∀ j, nodePos height j ≤ nodePos h k ↔ j < n := by
      have hex : ∃ j, nodePos h k < nodePos height j := ⟨_, hmono.le_apply⟩
      refine ⟨Nat.find hex, fun j => ?_⟩
      rw [lt_find_iff]
      exact ⟨fun hj m hm => not_lt.mpr ((hmono.monotone hm).trans hj), fun hj =>
        not_lt.mp (hj j le_rfl)⟩
    have hlast := (hn (nodePos h k + 1)).not.mp (not_le.mpr hmono.le_apply)
    have hvisit : SiblingIter.visit calls (.new height (atPos (nodePos h k))) = _ :=
      SiblingIter.visit_before (k := 0) hn (by omega) (zero_le n) (by omega)
    rw [hvisit]
    refine ⟨?_, fun idx => ?_⟩
    · exact pairwise_map.mpr ((pairwise_lt_range' ..).imp fun hlt => hmono hlt)
    · rw [mem_map]
      constructor
      · rintro ⟨j, hj, rfl⟩
        have hle := (hn j).mpr (by simpa using hj)
        exact ⟨hle, (hatNode (hle.trans_lt hp)).symm, rfl⟩
      · rintro ⟨hle, hidx, hheight⟩
        obtain ⟨h', j, hpos, -⟩ := getElem?_postOrder (hle.trans_lt hp)
        rw [← hpos, hatNode (by omega)] at hidx
        subst hidx hheight
        exact ⟨j, by simpa using (hn j).mp hle, rfl⟩

/-- The root of the first four leaves. -/
theorem index_coordinates_six : (6 : Nat) < 2 ^ 62 ∧ (atPos 6).getSibling.getSibling = atPos 6 :=
  ⟨by decide, (index_coordinates (p := 6) (by decide)).2.2.1.2.1⟩

/-! ## Peaks -/

/-- The indices of the peaks over `n` leaves, the highest first. -/
def peakIndices (n : Nat) : List Index := (peaksUp 0 n).reverse.map fun p => nodeIndex p.1 p.2

/-- A tree that is taken off ends with the next peak. -/
theorem peakIndices_add_two_pow {h a : Nat} (hle : 2 ^ (h + 1) * a + 2 ^ h ≤ 2 ^ 63) :
    peakIndices (2 ^ (h + 1) * a) ++
      [atPos (numNodes (2 ^ (h + 1) * a) + (2 ^ (h + 1) - 1) - 1)] =
      peakIndices (2 ^ (h + 1) * a + 2 ^ h) := by
  have htree := numNodes_mul_add_two_pow h a
  have hpow := two_le_two_pow_succ h
  have hlt := numNodes_lt hle
  have hpeak : numNodes (2 ^ (h + 1) * a) + (2 ^ (h + 1) - 1) - 1 = nodePos h (2 * a) := by
    rw [nodePos, show 2 ^ h * (2 * a) = 2 ^ (h + 1) * a by ring]
    omega
  rw [hpeak, atPos_nodePos (by omega),
    show 2 ^ (h + 1) * a + 2 ^ h = 2 ^ h * (2 * a + 1) by ring]
  unfold peakIndices
  rw [peaksUp_two_pow_mul, peaksUp_two_pow_mul, peaksUp_two_mul_add_one, reverse_cons, map_append,
    map_singleton]

/-- The peaks over less than `2 ^ 63` leaves are found from the number of nodes. -/
theorem calcPeakIndices_spec {n : Nat} (hn : n < 2 ^ 63) :
    calcPeakIndices (numNodes n) = .ok ((peaksUp 0 n).reverse.map fun p => nodeIndex p.1 p.2) := by
  rcases Nat.eq_zero_or_pos n with rfl | hpos
  · rw [numNodes_zero, peaksUp_zero]
    rfl
  · have hne : numNodes n ≠ 0 := by
      have hle := le_numNodes n
      omega
    have htake := takeTrees_peakSizes (fun (acc : List Index × Nat) peakSize =>
      (acc.1 ++ [atPos (acc.2 + peakSize - 1)], acc.2 + peakSize))
      (fun a => (peakIndices a, numNodes a)) (fun h a hle => ?_) (show 2 ^ 0 ∣ n + 1 by simp)
      (numNodes_lt hn.le)
    · rw [add_zero, numNodes_zero, peakIndices, peaksUp_zero, reverse_nil, map_nil] at htake
      unfold calcPeakIndices
      rw [if_neg hne, htake]
      rfl
    · have htree := numNodes_mul_add_two_pow h a
      have hpow := two_le_two_pow_succ h
      exact Prod.ext (peakIndices_add_two_pow (hle.trans hn.le)) (by simp only; omega)

end DefcoinCore.Mweb
