import DefcoinCore.Lib.Mmr
import Mathlib.NumberTheory.Padics.PadicVal.Basic

/-!
# The nodes of a mountain range

The nodes of a range in the order in which they come to be: each leaf is followed by the nodes that
it completes. Node `k` of height `h` stands over the leaves from `k * 2 ^ h` on, `2 ^ h` of them, so
the nodes of a height are numbered without gaps, and there are `n / 2 ^ h` of them over `n` leaves.
Its position in the order is `nodePos h k`.

All that is said about positions follows from three facts: leaf `m` brings one node for each power
of two that divides `m + 1` (`numNodes_succ`), the nodes over two blocks of leaves add up if the
second one is smaller than the alignment of the first (`numNodes_mul_add`), and a complete tree over
`2 ^ h` leaves has `2 ^ (h + 1) - 1` nodes (`numNodes_two_pow`).
-/

namespace DefcoinCore.Mmr

open List Nat

/-! ## Counting nodes -/

/-- The number of nodes over `n` leaves: the leaves, and half as many on each level as on the one
below. -/
def numNodes (n : Nat) : Nat :=
  if n = 0 then 0 else n + numNodes (n / 2)

variable {m i n s : Nat}

theorem numNodes_eq (n : Nat) : numNodes n = n + numNodes (n / 2) := by
  rcases Nat.eq_zero_or_pos n with rfl | hpos
  · rw [numNodes]
    simp
  · rw [numNodes, if_neg hpos.ne']

@[simp]
theorem numNodes_zero : numNodes 0 = 0 := by
  rw [numNodes, if_pos rfl]

/-- The height of the last node that leaf `m` completes. -/
def rank (m : Nat) : Nat := padicValNat 2 (m + 1)

theorem two_pow_dvd_iff : 2 ^ i ∣ m + 1 ↔ i ≤ rank m :=
  padicValNat_dvd_iff_le (succ_ne_zero m)

theorem rank_two_mul (m : Nat) : rank (2 * m) = 0 := padicValNat.eq_zero_of_not_dvd (by omega)

theorem rank_two_mul_add_one (m : Nat) : rank (2 * m + 1) = rank m + 1 := by
  unfold rank
  rw [show 2 * m + 1 + 1 = 2 * (m + 1) by ring, padicValNat.mul (by decide) (succ_ne_zero m),
    padicValNat.self (by decide), add_comm]

/-- A leaf brings itself and the nodes that it completes. -/
theorem numNodes_succ (m : Nat) : numNodes (m + 1) = numNodes m + rank m + 1 := by
  induction m using Nat.strongRecOn with
  | ind m ih =>
    rcases even_or_odd' m with ⟨k, rfl | rfl⟩
    · rw [numNodes_eq (2 * k + 1), numNodes_eq (2 * k), rank_two_mul,
        show (2 * k + 1) / 2 = k by omega, show 2 * k / 2 = k by omega]
      omega
    · rw [numNodes_eq (2 * k + 1 + 1), numNodes_eq (2 * k + 1), rank_two_mul_add_one,
        show (2 * k + 1 + 1) / 2 = k + 1 by omega, show (2 * k + 1) / 2 = k by omega,
          ih k (by omega)]
      omega

theorem numNodes_strictMono : StrictMono numNodes := by
  refine strictMono_nat_of_lt_succ fun m => ?_
  rw [numNodes_succ]
  omega

theorem le_numNodes (n : Nat) : n ≤ numNodes n := numNodes_strictMono.le_apply

theorem numNodes_two_mul (n : Nat) : numNodes (2 * n) = 2 * n + numNodes n := by
  rw [numNodes_eq (2 * n), Nat.mul_div_cancel_left n (by decide)]

/-- Leaves after an aligned block do not share nodes with it. -/
theorem numNodes_mul_add (h a : Nat) {b : Nat} (hb : b < 2 ^ h) :
    numNodes (2 ^ h * a + b) = numNodes (2 ^ h * a) + numNodes b := by
  induction h generalizing b with
  | zero =>
    rw [show b = 0 by simpa using hb, numNodes_zero]
    rfl
  | succ h ih =>
    rw [pow_succ'] at hb ⊢
    have hdiv : (2 * 2 ^ h * a + b) / 2 = 2 ^ h * a + b / 2 := by
      rw [mul_assoc]
      omega
    rw [numNodes_eq (2 * 2 ^ h * a + b), hdiv, ih (by omega), mul_assoc, numNodes_two_mul,
      numNodes_eq b]
    omega

theorem numNodes_two_pow (h : Nat) : numNodes (2 ^ h) + 1 = 2 ^ (h + 1) := by
  induction h with
  | zero => simp [numNodes]
  | succ h ih =>
    rw [pow_succ' 2 h, numNodes_two_mul, pow_succ' 2 (h + 1), pow_succ' 2 h]
    omega

/-- A full tree fits between two aligned numbers of leaves. -/
theorem numNodes_mul_add_two_pow (h a : Nat) :
    numNodes (2 ^ (h + 1) * a + 2 ^ h) + 1 = numNodes (2 ^ (h + 1) * a) + 2 ^ (h + 1) := by
  rw [numNodes_mul_add _ _ (Nat.pow_lt_pow_right (by decide) (Nat.lt_succ_self h)), Nat.add_assoc,
    numNodes_two_pow]

/-! ## Positions -/

/-- The position of node `k` of height `h`: after all nodes over the leaves before it, and all other
nodes of its own tree. -/
def nodePos (h k : Nat) : Nat := numNodes (2 ^ h * k) + (2 ^ (h + 1) - 2)

theorem two_le_two_pow_succ (h : Nat) : 2 ≤ 2 ^ (h + 1) := by
  have hpos := Nat.two_pow_pos h
  omega

@[simp]
theorem nodePos_zero (k : Nat) : nodePos 0 k = numNodes k := by
  simp [nodePos]

/-- The left child comes before the right subtree and the node itself. -/
theorem nodePos_left (h k : Nat) : nodePos h (2 * k) + 2 ^ (h + 1) = nodePos (h + 1) k := by
  unfold nodePos
  rw [show 2 ^ h * (2 * k) = 2 ^ (h + 1) * k by ring, pow_succ' 2 (h + 1)]
  omega

/-- The right child comes right before the node. -/
theorem nodePos_right (h k : Nat) : nodePos h (2 * k + 1) + 1 = nodePos (h + 1) k := by
  unfold nodePos
  have htree := numNodes_mul_add_two_pow h k
  rw [show 2 ^ h * (2 * k + 1) = 2 ^ (h + 1) * k + 2 ^ h by ring, pow_succ' 2 (h + 1)]
  omega

/-- The node is the one of its height that its last leaf brings. -/
theorem nodePos_eq (h k : Nat) : nodePos h k = numNodes (2 ^ h * (k + 1) - 1) + h := by
  induction h generalizing k with
  | zero => simp
  | succ h ih =>
    rw [← nodePos_right, ih, show 2 ^ h * (2 * k + 1 + 1) = 2 ^ (h + 1) * (k + 1) by ring]
    rfl

/-- The node that a leaf brings at a height. -/
theorem nodePos_of_dvd (h : 2 ^ i ∣ m + 1) : nodePos i ((m + 1) / 2 ^ i - 1) = numNodes m + i := by
  obtain ⟨c, hc⟩ := h
  have hpos : 0 < c := by
    rcases Nat.eq_zero_or_pos c with rfl | hpos
    · omega
    · exact hpos
  rw [hc, Nat.mul_div_cancel_left c (Nat.two_pow_pos i), nodePos_eq, Nat.sub_add_cancel hpos, ← hc]
  rfl

theorem two_pow_dvd_last (h k : Nat) : 2 ^ h ∣ 2 ^ h * (k + 1) - 1 + 1 := by
  have hpos : 0 < 2 ^ h * (k + 1) := by positivity
  rw [Nat.sub_add_cancel hpos]
  exact dvd_mul_right _ _

/-- After a node come those above it that its last leaf completes. -/
theorem numNodes_two_pow_mul_succ (h k : Nat) :
    numNodes (2 ^ h * (k + 1)) = nodePos h k + rank k + 1 := by
  induction h generalizing k with
  | zero => rw [pow_zero, one_mul, numNodes_succ, nodePos_zero]
  | succ h ih =>
    have hright := nodePos_right h k
    rw [show 2 ^ (h + 1) * (k + 1) = 2 ^ h * (2 * k + 1 + 1) by ring, ih, rank_two_mul_add_one]
    omega

/-- The next node of a height follows after its own tree. -/
theorem nodePos_succ (h k : Nat) : nodePos h (k + 1) = nodePos h k +
    (2 ^ (h + 1) - 1 + rank k) := by
  have htwo := two_le_two_pow_succ h
  rw [nodePos, numNodes_two_pow_mul_succ]
  omega

theorem nodePos_strictMono (h : Nat) : StrictMono (nodePos h) := by
  refine strictMono_nat_of_lt_succ fun k => ?_
  have htwo := two_le_two_pow_succ h
  rw [nodePos_succ]
  omega

/-- The nodes over a number of leaves come before all later ones. -/
theorem nodePos_lt_iff {h k : Nat} : nodePos h k < numNodes n ↔ 2 ^ h * (k + 1) ≤ n := by
  have hlast := numNodes_two_pow_mul_succ h k
  constructor
  · intro hlt
    by_contra hgt
    have hmono := numNodes_strictMono.monotone (show n ≤ 2 ^ h * (k + 1) - 1 by omega)
    rw [nodePos_eq] at hlt
    omega
  · intro hle
    have hmono := numNodes_strictMono.monotone hle
    omega

/-- The nodes below node `k` of height `s`, with their heights and numbers, in post-order. -/
def postOrder : Nat → Nat → List (Nat × Nat)
  | 0, k => [(0, k)]
  | s + 1, k => postOrder s (2 * k) ++ postOrder s (2 * k + 1) ++ [(s + 1, k)]

/-- Positions number the nodes in post-order. -/
theorem map_nodePos_postOrder (s k : Nat) :
    (postOrder s k).map (fun node => nodePos node.1 node.2) =
    range' (numNodes (2 ^ s * k)) (2 ^ (s + 1) - 1) := by
  induction s generalizing k with
  | zero => simp [postOrder]
  | succ s ih =>
    have htree := numNodes_mul_add_two_pow s k
    have htwo := two_le_two_pow_succ s
    have hright : numNodes (2 ^ s * (2 * k + 1)) = numNodes (2 ^ (s + 1) * k) +
        (2 ^ (s + 1) - 1) := by
      rw [show 2 ^ s * (2 * k + 1) = 2 ^ (s + 1) * k + 2 ^ s by ring]
      omega
    have hsize : 2 ^ (s + 1 + 1) - 1 = 2 ^ (s + 1) - 1 + (2 ^ (s + 1) - 1) + 1 := by
      omega
    rw [postOrder, map_append, map_append, map_singleton, ih, ih, hright, hsize,
      range'_concat, nodePos,
      show 2 ^ s * (2 * k) = 2 ^ (s + 1) * k by ring, range'_append_1, one_mul, pow_succ' 2 (s + 1)]
    congr 3
    omega

/-! ## Taking off the largest trees -/

/-- The sizes of complete trees of less than `2 ^ s` leaves, the largest first. -/
def treeSizes : Nat → List Nat
  | 0 => []
  | s + 1 => (2 ^ (s + 1) - 1) :: treeSizes s

/-- From a number of nodes, each tree that fits is taken off and noted. -/
def takeTrees {β : Type} (note : β → Nat → β) : List Nat → β → Nat → β × Nat
  | [], acc, rest => (acc, rest)
  | size :: sizes, acc, rest =>
    if rest ≥ size then takeTrees note sizes (note acc size) (rest - size)
    else takeTrees note sizes acc rest

/-- The trees that are taken off are those over the leaves before the node, and its height is left.
What has been noted after `a` leaves is `seen a`, if noting one tree keeps it so. -/
theorem takeTrees_spec {β : Type} {note : β → Nat → β} {seen : Nat → β} {c : Nat}
    (hnote : ∀ h a, 2 ^ (h + 1) * a + 2 ^ h ≤ n →
      note (seen (2 ^ (h + 1) * a)) (2 ^ (h + 1) - 1) = seen (2 ^ (h + 1) * a + 2 ^ h))
    (hn : 2 ^ s * c + m ≤ n) (hm : m < 2 ^ s) (hi : m + 1 < 2 ^ s → 2 ^ i ∣ m + 1) :
    takeTrees note (treeSizes s) (seen (2 ^ s * c))
      (numNodes m + i) = (seen (2 ^ s * c + m), i) := by
  induction s generalizing m c with
  | zero =>
    rw [show m = 0 by simpa using hm, numNodes_zero, zero_add]
    rfl
  | succ s ih =>
    have htree := numNodes_two_pow s
    have heven : 2 ^ (s + 1) * c = 2 ^ s * (2 * c) := by ring
    unfold treeSizes takeTrees
    by_cases hle : 2 ^ s ≤ m
    · -- The tree over the first `2 ^ s` leaves is taken off.
      have hsplit : numNodes m = numNodes (2 ^ s) + numNodes (m - 2 ^ s) := by
        have hadd := numNodes_mul_add s 1 (show m - 2 ^ s < 2 ^ s by omega)
        rwa [Nat.mul_one, Nat.add_sub_cancel' hle] at hadd
      have hrest : numNodes m + i - (2 ^ (s + 1) - 1) = numNodes (m - 2 ^ s) + i := by omega
      have hodd : 2 ^ (s + 1) * c + 2 ^ s = 2 ^ s * (2 * c + 1) := by ring
      rw [if_pos (by omega), hrest, hnote s c (by omega), hodd,
        ih (by omega) (by omega) fun hlt => ?_,
        ← hodd, Nat.add_assoc, Nat.add_sub_cancel' hle]
      have hdvd := hi (by omega)
      have his : i ≤ s := by
        by_contra hgt
        have h1 := le_of_dvd (succ_pos m) hdvd
        have h2 := Nat.pow_le_pow_right (show 0 < 2 by decide) (show s + 1 ≤ i by omega)
        omega
      rw [show m - 2 ^ s + 1 = m + 1 - 2 ^ s by omega]
      exact dvd_sub hdvd (pow_dvd_pow 2 his)
    · -- The node lies within a smaller tree.
      have hdvd := hi (by omega)
      have hrank := two_pow_dvd_iff.mp hdvd
      have hsucc := numNodes_succ m
      have hmono := numNodes_strictMono.monotone (show m + 1 ≤ 2 ^ s by omega)
      rw [if_neg (by omega), heven]
      exact ih (by omega) (by omega) fun _ => hdvd

/-! ## Hashes -/

section Hashes

variable {α δ : Type} (hash : Input α δ → α)

/-- The hash of node `k` of height `h`, over given leaves. -/
def nodeHash (leaf : Nat → δ) : Nat → Nat → α
  | 0, k => hash (.leaf (numNodes k) (leaf k))
  | h + 1, k =>
    hash (.parent (nodePos (h + 1) k) (nodeHash leaf h (2 * k)) (nodeHash leaf h (2 * k + 1)))

variable {leaf leaf' : Nat → δ} {h k m n : Nat}

/-- A hash depends on the leaves below its node. -/
theorem nodeHash_congr (heq : ∀ i, 2 ^ h * k ≤ i → i < 2 ^ h * (k + 1) → leaf i = leaf' i) :
    nodeHash hash leaf h k = nodeHash hash leaf' h k := by
  induction h generalizing k with
  | zero =>
    unfold nodeHash
    rw [heq k (by simp) (by simp)]
  | succ h ih =>
    have hleft : 2 ^ h * (2 * k) = 2 ^ (h + 1) * k := by ring
    have hright : 2 ^ h * (2 * k + 1) = 2 ^ (h + 1) * k + 2 ^ h := by ring
    have hend : 2 ^ h * (2 * k + 1 + 1) = 2 ^ (h + 1) * (k + 1) := by ring
    have hend' : 2 ^ (h + 1) * (k + 1) = 2 ^ (h + 1) * k + 2 * 2 ^ h := by ring
    unfold nodeHash
    rw [ih fun i hi hi' => heq i (by omega) (by omega), ih fun i hi hi' =>
      heq i (by omega) (by omega)]

/-- The hashes of the nodes that leaf `m` brings. -/
def newNodes (leaf : Nat → δ) (m : Nat) : List α :=
  (List.range (rank m + 1)).map fun i => nodeHash hash leaf i ((m + 1) / 2 ^ i - 1)

/-- The hashes of the nodes over `n` leaves, in the order of their positions. -/
def nodes (leaf : Nat → δ) : Nat → List α
  | 0 => []
  | n + 1 => nodes leaf n ++ newNodes hash leaf n

theorem length_newNodes (leaf : Nat → δ) (m : Nat) :
    (newNodes hash leaf m).length = rank m + 1 := by
  rw [newNodes, length_map, length_range]

theorem take_newNodes (leaf : Nat → δ) {r : Nat} (hr : r ≤ rank m) :
    (newNodes hash leaf m).take (r + 1) =
      (newNodes hash leaf m).take r ++ [nodeHash hash leaf r ((m + 1) / 2 ^ r - 1)] := by
  rw [take_add_one, newNodes, getElem?_map, getElem?_range (by omega), Option.map_some]
  rfl

theorem length_nodes (leaf : Nat → δ) (n : Nat) : (nodes hash leaf n).length = numNodes n := by
  induction n with
  | zero => rw [numNodes_zero]; rfl
  | succ n ih =>
    rw [nodes, length_append, ih, length_newNodes, numNodes_succ]
    omega

theorem nodes_congr (heq : ∀ i < n, leaf i = leaf' i) : nodes hash leaf n = nodes hash leaf' n := by
  induction n with
  | zero => rfl
  | succ n ih =>
    rw [nodes, nodes, ih fun i hi => heq i (by omega)]
    congr 1
    refine map_congr_left fun i hi => nodeHash_congr hash fun j _ hj => heq j ?_
    -- The node ends with leaf `n`.
    have hdvd := two_pow_dvd_iff.mpr (Nat.lt_succ_iff.mp (mem_range.mp hi))
    have hpos : 0 < (n + 1) / 2 ^ i :=
      Nat.div_pos (Nat.le_of_dvd (Nat.succ_pos n) hdvd) (Nat.two_pow_pos i)
    rwa [Nat.sub_add_cancel hpos, Nat.mul_div_cancel' hdvd] at hj

/-- The nodes over fewer leaves come first. -/
theorem take_nodes (leaf : Nat → δ) (h : m ≤ n) :
    (nodes hash leaf n).take (numNodes m) = nodes hash leaf m := by
  induction n, h using le_induction with
  | base => exact take_of_length_le (length_nodes hash leaf m).le
  | succ n hle ih =>
    have hmono := numNodes_strictMono.monotone hle
    rw [nodes, take_append_of_le_length (by rwa [length_nodes]), ih]

/-- The hash of a node is found at its position. -/
theorem getElem?_nodes (leaf : Nat → δ) (hle : 2 ^ h * (k + 1) ≤ n) :
    (nodes hash leaf n)[nodePos h k]? = some (nodeHash hash leaf h k) := by
  have hpos : 0 < 2 ^ h * (k + 1) := by positivity
  have hrank := two_pow_dvd_iff.mp (two_pow_dvd_last h k)
  have hsucc := numNodes_succ (2 ^ h * (k + 1) - 1)
  -- It is among those that its last leaf brings.
  have htake := take_nodes hash leaf hle
  rw [show 2 ^ h * (k + 1) = 2 ^ h * (k + 1) - 1 + 1 by omega] at htake
  have hlt : nodePos h k < numNodes (2 ^ h * (k + 1) - 1 + 1) := by
    rw [nodePos_eq]
    omega
  rw [← getElem?_take_of_lt hlt, htake, nodes, nodePos_eq,
    getElem?_append_right (by rw [length_nodes]; omega), length_nodes, Nat.add_sub_cancel_left,
    newNodes, getElem?_map, getElem?_range (by omega), Option.map_some,
    Nat.sub_add_cancel hpos, Nat.mul_div_cancel_left _ (Nat.two_pow_pos h), Nat.add_sub_cancel]

end Hashes

/-! ## Peaks -/

/-- The peaks over `n` nodes of height `h`, from the right. -/
def peaksUp (h n : Nat) : List (Nat × Nat) :=
  if n = 0 then []
  else if n % 2 = 1 then (h, n - 1) :: peaksUp (h + 1) (n / 2) else peaksUp (h + 1) (n / 2)

theorem peaksUp_zero (h : Nat) : peaksUp h 0 = [] := by
  rw [peaksUp, if_pos rfl]

theorem peaksUp_two_mul (h n : Nat) : peaksUp h (2 * n) = peaksUp (h + 1) n := by
  rcases Nat.eq_zero_or_pos n with rfl | hpos
  · rw [mul_zero, peaksUp_zero, peaksUp_zero]
  · rw [peaksUp, if_neg (by omega), if_neg (by omega), Nat.mul_div_cancel_left n (by decide)]

theorem peaksUp_two_mul_add_one (h n : Nat) :
    peaksUp h (2 * n + 1) = (h, 2 * n) :: peaksUp (h + 1) n := by
  rw [peaksUp, if_neg (by omega), if_pos (by omega), Nat.add_sub_cancel,
    show (2 * n + 1) / 2 = n by omega]

/-- Over whole trees of height `h`, the peaks are those over their roots. -/
theorem peaksUp_two_pow_mul (h k : Nat) : peaksUp 0 (2 ^ h * k) = peaksUp h k := by
  induction h generalizing k with
  | zero => rw [pow_zero, one_mul]
  | succ h ih => rw [pow_succ, mul_assoc, ih, peaksUp_two_mul]

/-- The peaks are no lower than the nodes, and stand over them. -/
theorem mem_peaksUp {p : Nat × Nat} {h : Nat} (hp : p ∈ peaksUp h n) :
    ∃ d, p.1 = h + d ∧ 2 ^ d * (p.2 + 1) ≤ n := by
  fun_induction peaksUp h n with
  | case1 => exact absurd hp not_mem_nil
  | case2 h n hpos hodd ih =>
    rcases mem_cons.mp hp with rfl | hp
    · exact ⟨0, rfl, by simp; omega⟩
    · obtain ⟨d, hd, hle⟩ := ih hp
      exact ⟨d + 1, by omega, by rw [pow_succ', mul_assoc]; omega⟩
  | case3 h n hpos heven ih =>
    obtain ⟨d, hd, hle⟩ := ih hp
    exact ⟨d + 1, by omega, by rw [pow_succ', mul_assoc]; omega⟩

section Range

variable {α δ : Type} (hash : Input α δ → α)

/-- A node that is joined with the peaks before it. -/
theorem join_peaksUp (leaf : Nat → δ) {h m : Nat} :
    join hash (nodePos h m + 1) h (nodeHash hash leaf h m)
      ((peaksUp h m).map fun p => (p.1, nodeHash hash leaf p.1 p.2)) =
      ⟨numNodes (2 ^ h * (m + 1)), (peaksUp h (m + 1)).map fun p =>
        (p.1, nodeHash hash leaf p.1 p.2)⟩ := by
  induction m using Nat.strongRecOn generalizing h with
  | ind m ih =>
    rcases even_or_odd' m with ⟨k, rfl | rfl⟩
    · -- There is no peak of this height yet.
      have hnodes := numNodes_two_pow_mul_succ h (2 * k)
      rw [rank_two_mul] at hnodes
      have hheights : ∀ p ∈ peaksUp (h + 1) k, h < p.1 := by
        intro p hp
        obtain ⟨d, hd, -⟩ := mem_peaksUp hp
        omega
      rw [hnodes, peaksUp_two_mul, peaksUp_two_mul_add_one, map_cons]
      rcases hpeaks : peaksUp (h + 1) k with _ | ⟨p, peaks⟩
      · rfl
      · rw [hpeaks, forall_mem_cons] at hheights
        rw [map_cons, join, if_neg hheights.1.ne']
    · -- The node is the right child of the next one.
      rw [peaksUp_two_mul_add_one, map_cons, join, if_pos rfl, nodePos_right,
        show 2 * k + 1 + 1 = 2 * (k + 1) by ring, peaksUp_two_mul]
      have hparent := ih k (by omega) (h := h + 1)
      rw [show 2 ^ h * (2 * (k + 1)) = 2 ^ (h + 1) * (k + 1) by ring, ← hparent]
      rfl

/-- The range of a list of leaves: its nodes and its peaks. -/
theorem ofLeaves_eq (leaf : Nat → δ) (leaves : List δ)
    (hleaf : ∀ i d, leaves[i]? = some d → leaf i = d) :
    ofLeaves hash leaves = ⟨numNodes leaves.length,
      (peaksUp 0 leaves.length).map fun p => (p.1, nodeHash hash leaf p.1 p.2)⟩ := by
  induction leaves using reverseRecOn with
  | nil =>
    rw [length_nil, numNodes_zero, peaksUp_zero]
    rfl
  | append_singleton leaves d ih =>
    have hlast := hleaf leaves.length d (by simp)
    have hprev : ∀ i d', leaves[i]? = some d' → leaf i = d' := by
      intro i d' hi
      refine hleaf i d' ?_
      rw [List.getElem?_append_left (List.getElem?_eq_some_iff.mp hi).choose]
      exact hi
    have hjoin := join_peaksUp hash leaf (h := 0) (m := leaves.length)
    rw [nodePos_zero, nodeHash, hlast, pow_zero, one_mul] at hjoin
    unfold ofLeaves at ih ⊢
    rw [foldl_append, ih hprev, foldl_cons, foldl_nil, addLeaf, length_append, length_singleton]
    exact hjoin

end Range

end DefcoinCore.Mmr
