import Mathlib.Data.Nat.Log
import Mathlib.Data.Set.Function
import Mathlib.Tactic

/-!
# Hash trees

A list of hashes is joined in pairs, level by level, until one hash is left: the root. The last hash
of a level is repeated if it has no partner, so lists of different lengths can have one root; a
level that joins equal hashes is reported. For lists of the same length the root determines the
list, as long as no two of the pairs that are hashed collide (`treeRoot_injective`). So it does for
lists of any lengths, if no level is reported and no item of the lists is the hash of a pair
(`treeRoot_injective_of_unrepeated`). From the root down the tree is a recursion over heights and
positions (`nodeAt`). That a hash function has no collisions is said as injectivity on the inputs
that are hashed: on all inputs no function into hashes has it.
-/

namespace DefcoinCore

open List Nat

variable {α β γ : Type} {f : α → β} {l l' : List α}

/-- What one image of the items of a list determines, the list of these images determines item by
item. -/
theorem map_eq_of_map_eq {g : α → γ} (hfg : ∀ a ∈ l, ∀ a' ∈ l', f a = f a' → g a = g a')
    (h : l.map f = l'.map f) :
    l.map g = l'.map g := by
  induction l generalizing l' with
  | nil => rw [map_eq_nil_iff.mp h.symm]
  | cons a l ih =>
    obtain ⟨a', l'', rfl, ha, ht⟩ := map_eq_cons_iff.mp h.symm
    rw [map_cons, map_cons, hfg a mem_cons_self a' mem_cons_self ha.symm,
      ih (fun x hx x' hx' => hfg x (mem_cons_of_mem _ hx) x' (mem_cons_of_mem _ hx')) ht.symm]

/-- Whether images of listed items collide is found by comparing them. -/
instance decidableInjOnMem [DecidableEq α] [DecidableEq β] :
    Decidable (Set.InjOn f {a | a ∈ l ∨ a ∈ l'}) :=
  decidable_of_iff (∀ a ∈ l ++ l', ∀ b ∈ l ++ l', f a = f b → a = b)
    (by simp only [mem_append]; rfl)

/-- Two images are determined together. -/
theorem map_prodMk_eq {g : α → γ} (hf : l.map f = l'.map f) (hg : l.map g = l'.map g) :
    (l.map fun a => (f a, g a)) = l'.map fun a => (f a, g a) := by
  rw [← zip_map', ← zip_map', hf, hg]

/-- Lists with the same images under a function that has no collisions on their items. -/
theorem eq_of_map_eq_of_injOn {s : Set α} (hf : Set.InjOn f s) (hl : ∀ a ∈ l, a ∈ s)
    (hl' : ∀ a ∈ l', a ∈ s) (h : l.map f = l'.map f) :
    l = l' := by
  have hid := map_eq_of_map_eq (fun a ha a' ha' heq => hf (hl a ha) (hl' a' ha') heq) h
  rwa [map_id', map_id'] at hid

namespace HashTree

/-- The pairs of a level; the last hash is repeated if it has no partner. -/
def pairs : List α → List (α × α)
  | a :: b :: hashes => (a, b) :: pairs hashes
  | [a] => [(a, a)]
  | [] => []

/-- Two hashes that are joined are equal. -/
def repeatsPair [DecidableEq α] : List α → Bool
  | a :: b :: hashes => a = b || repeatsPair hashes
  | _ => false

variable {l l' : List α} {null : α} {k k' pos : Nat}

theorem length_pairs (hashes : List α) : (pairs hashes).length = (hashes.length + 1) / 2 := by
  fun_induction pairs hashes with
  | case1 a b hashes ih =>
    rw [length_cons, ih, length_cons, length_cons]
    omega
  | case2 a => simp
  | case3 => simp

/-- The items are read off the pairs, but for the second half of a last pair. -/
theorem take_flatMap_pairs (l : List α) :
    ((pairs l).flatMap fun p => [p.1, p.2]).take l.length = l := by
  fun_induction pairs l with
  | case1 a b l ih => simp [ih]
  | case2 a => rfl
  | case3 => rfl

theorem pairs_injective (hlen : l.length = l'.length) (h : pairs l = pairs l') : l = l' := by
  rw [← take_flatMap_pairs l, h, hlen, take_flatMap_pairs]

variable (node : α → α → α)

/-- The next level. -/
def level (hashes : List α) : List α := (pairs hashes).map fun p => node p.1 p.2

/-- The root of a tree of at most `k` levels; `null` if there are no hashes. -/
def treeRoot (null : α) : Nat → List α → α
  | 0, hashes => hashes.headD null
  | k + 1, hashes =>
    if hashes.length > 1 then treeRoot null k (level node hashes) else hashes.headD null

/-- All pairs that are hashed on at most `k` levels. -/
def hashedPairs : Nat → List α → List (α × α)
  | 0, _ => []
  | k + 1, hashes =>
    if hashes.length > 1 then pairs hashes ++ hashedPairs k (level node hashes) else []

theorem length_level (hashes : List α) : (level node hashes).length = (hashes.length + 1) / 2 := by
  rw [level, length_map, length_pairs]

theorem eq_of_headD_eq (hle : l.length ≤ 1) (hlen : l.length = l'.length)
    (h : l.headD null = l'.headD null) :
    l = l' := by
  match l, l' with
  | [], [] => rfl
  | [a], [a'] => exact congrArg (fun x => [x]) h
  | [], _ :: _ => exact absurd hlen (by simp)
  | [_], [] => exact absurd hlen (by simp)
  | [_], _ :: _ :: _ => exact absurd hlen (by simp)
  | _ :: _ :: _, _ => exact absurd hle (by simp)

/-- The root of a list of a given length determines the list, unless pairs that are hashed collide.
-/
theorem treeRoot_injective (k : Nat) (hk : l.length ≤ k + 1) (hlen : l.length = l'.length)
    (hinj : Set.InjOn (fun p : α × α => node p.1 p.2)
      {p | p ∈ hashedPairs node k l ∨ p ∈ hashedPairs node k l'})
    (h : treeRoot node null k l = treeRoot node null k l') : l = l' := by
  induction k generalizing l l' with
  | zero => exact eq_of_headD_eq (by omega) hlen h
  | succ k ih =>
    rw [treeRoot, treeRoot] at h
    by_cases hl : l.length > 1
    · have hl' : l'.length > 1 := by omega
      rw [if_pos hl, if_pos hl'] at h
      rw [hashedPairs, hashedPairs, if_pos hl, if_pos hl'] at hinj
      -- Equal roots of the next levels make these equal; then the pairs are equal as well.
      have hlevel : level node l = level node l' := by
        refine ih ?_ ?_ (hinj.mono ?_) h
        · rw [length_level]
          omega
        · rw [length_level, length_level, hlen]
        · rintro p (hp | hp)
          · exact .inl (mem_append_right _ hp)
          · exact .inr (mem_append_right _ hp)
      refine pairs_injective hlen (eq_of_map_eq_of_injOn hinj (fun p hp => ?_)
        (fun p hp => ?_) hlevel)
      · exact .inl (mem_append_left _ hp)
      · exact .inr (mem_append_left _ hp)
    · have hl' : ¬ l'.length > 1 := by omega
      rw [if_neg hl, if_neg hl'] at h
      exact eq_of_headD_eq (by omega) hlen h

/-! ## Lists of different lengths -/

/-- If no pair repeats an item, one that does so stands for the last item alone. -/
theorem flatMap_pairs_of_unrepeated [DecidableEq α] (hl : repeatsPair l = false) :
    ((pairs l).flatMap fun p => if p.1 = p.2 then [p.1] else [p.1, p.2]) = l := by
  fun_induction pairs l with
  | case1 a b l ih =>
    rw [repeatsPair, Bool.or_eq_false_iff, decide_eq_false_iff_not] at hl
    rw [flatMap_cons, if_neg hl.1, ih hl.2]
    rfl
  | case2 a => simp
  | case3 => rfl

theorem pairs_injective_of_unrepeated [DecidableEq α] (hl : repeatsPair l = false)
    (hl' : repeatsPair l' = false) (h : pairs l = pairs l') : l = l' := by
  rw [← flatMap_pairs_of_unrepeated hl, h, flatMap_pairs_of_unrepeated hl']

/-- A level of at most `k` joins equal hashes. -/
def repeats [DecidableEq α] : Nat → List α → Bool
  | 0, _ => false
  | k + 1, hashes =>
    if hashes.length > 1 then repeatsPair hashes || repeats k (level node hashes) else false

/-- The levels of a tree without repetitions, up to the one with the root. -/
structure Levels [DecidableEq α] (null : α) (k : Nat) (l : List α) (d : Nat) : Prop where
  root : (level node)^[d] l = [treeRoot node null k l]
  pairs : ∀ i < d, ∀ p ∈ pairs ((level node)^[i] l), p ∈ hashedPairs node k l
  unrepeated : ∀ i < d, repeatsPair ((level node)^[i] l) = false

theorem exists_singleton (hne : l ≠ []) (hle : l.length ≤ 1) : ∃ a, l = [a] :=
  length_eq_one_iff.mp (le_antisymm hle (length_pos_iff.mpr hne))

theorem exists_levels [DecidableEq α] (null : α) (k : Nat) (hk : l.length ≤ k + 1) (hne : l ≠ [])
    (hrep : repeats node k l = false) : ∃ d, Levels node null k l d := by
  induction k generalizing l with
  | zero =>
    obtain ⟨a, rfl⟩ := exists_singleton hne hk
    exact ⟨0, rfl, nofun, nofun⟩
  | succ k ih =>
    by_cases hl : l.length > 1
    · have hlen := length_level node l
      rw [repeats, if_pos hl, Bool.or_eq_false_iff] at hrep
      obtain ⟨d, hroot, hpairs, hunrep⟩ := ih (by omega) (ne_nil_of_length_pos (by omega)) hrep.2
      refine ⟨d + 1, ?_, ?_, ?_⟩
      · rw [treeRoot, if_pos hl]
        exact hroot
      · rw [hashedPairs, if_pos hl]
        rintro (_ | i) hi p hp
        · exact mem_append_left _ hp
        · exact mem_append_right _ (hpairs i (by omega) p hp)
      · rintro (_ | i) hi
        · exact hrep.1
        · exact hunrep i (by omega)
    · obtain ⟨a, rfl⟩ := exists_singleton hne (by omega)
      exact ⟨0, rfl, nofun, nofun⟩

/-- No pairs hashed in two trees collide, and no item of one is the hash of a pair of the other. -/
@[mk_iff]
structure CollisionFree (k k' : Nat) (l l' : List α) : Prop where
  pairs : Set.InjOn (fun p : α × α => node p.1 p.2)
    {p | p ∈ hashedPairs node k l ∨ p ∈ hashedPairs node k' l'}
  left : ∀ a ∈ l, ∀ p ∈ hashedPairs node k' l', a ≠ node p.1 p.2
  right : ∀ a ∈ l', ∀ p ∈ hashedPairs node k l, a ≠ node p.1 p.2

instance [DecidableEq α] : Decidable (CollisionFree node k k' l l') :=
  decidable_of_iff' _ (collisionFree_iff node k k' l l')

theorem CollisionFree.symm (h : CollisionFree node k k' l l') : CollisionFree node k' k l' l where
  pairs := h.pairs.mono fun _ hp => hp.symm
  left := h.right
  right := h.left

/-- The levels of two trees with the same root are the same, from the root down to the items of the
lower tree. -/
theorem eq_of_treeRoot_eq [DecidableEq α] {d e : Nat} (hfree : CollisionFree node k k' l l')
    (hne : l ≠ []) (hlevels : Levels node null k l d) (hlevels' : Levels node null k' l' (d + e))
    (h : treeRoot node null k l = treeRoot node null k' l') : l = l' := by
  have hdown : ∀ i ≤ d, (level node)^[d - i] l = (level node)^[d - i + e] l' := by
    intro i
    induction i with
    | zero =>
      intro _
      rw [Nat.sub_zero, hlevels.root, hlevels'.root, h]
    | succ i ih =>
      intro hi
      have hup := ih (by omega)
      obtain ⟨j, hj⟩ : ∃ j, d - i = j + 1 := ⟨d - i - 1, by omega⟩
      have hj' : d - (i + 1) = j := by omega
      rw [hj, add_right_comm, Function.iterate_succ_apply', Function.iterate_succ_apply'] at hup
      rw [hj']
      apply pairs_injective_of_unrepeated (hlevels.unrepeated j (by omega))
        (hlevels'.unrepeated (j + e) (by omega))
      exact eq_of_map_eq_of_injOn hfree.pairs (fun p hp => .inl (hlevels.pairs j (by omega) p hp))
        (fun p hp => .inr (hlevels'.pairs (j + e) (by omega) p hp)) hup
  have hbottom := hdown d (le_refl d)
  rw [Nat.sub_self, Nat.zero_add, Function.iterate_zero_apply] at hbottom
  rcases e with _ | e
  · exact hbottom
  · -- The items of the lower tree would be hashes of pairs in the higher one.
    rw [Function.iterate_succ_apply', level] at hbottom
    obtain ⟨a, ha⟩ := exists_mem_of_ne_nil l hne
    have hmem := ha
    rw [hbottom] at hmem
    obtain ⟨p, hp, heq⟩ := mem_map.mp hmem
    exact absurd heq.symm (hfree.left a ha p (hlevels'.pairs e (by omega) p hp))

/-- The root determines the list, unless hashes collide, a level is repeated or an item is the hash
of a pair. -/
theorem treeRoot_injective_of_unrepeated [DecidableEq α] (hk : l.length ≤ k + 1)
    (hk' : l'.length ≤ k' + 1)
    (hne : l ≠ []) (hne' : l' ≠ []) (hfree : CollisionFree node k k' l l')
    (hrep : repeats node k l = false)
    (hrep' : repeats node k' l' = false) (h : treeRoot node null k l = treeRoot node null k' l') :
    l = l' := by
  obtain ⟨d, hlevels⟩ := exists_levels node null k hk hne hrep
  obtain ⟨d', hlevels'⟩ := exists_levels node null k' hk' hne' hrep'
  rcases le_total d d' with hle | hle
  · obtain ⟨e, rfl⟩ := Nat.exists_eq_add_of_le hle
    exact eq_of_treeRoot_eq node hfree hne hlevels hlevels' h
  · obtain ⟨e, rfl⟩ := Nat.exists_eq_add_of_le hle
    exact (eq_of_treeRoot_eq node hfree.symm hne' hlevels' hlevels h.symm).symm

/-! ## From the root down -/

variable (null : α)

/-- The number of nodes at a height, over `n` items. -/
def width (n height : Nat) : Nat := (n + 2 ^ height - 1) / 2 ^ height

/-- The node at a height and a position, from the root down: it joins the two nodes below it, and
the left one with itself if there is no right one. -/
def nodeAt (l : List α) : Nat → Nat → α
  | 0, pos => l.getD pos null
  | height + 1, pos =>
    let left := nodeAt l height (2 * pos)
    node left (if 2 * pos + 1 < width l.length height then nodeAt l height (2 * pos + 1) else left)

theorem lt_width_iff {n height : Nat} : pos < width n height ↔ pos * 2 ^ height < n := by
  have hpos := Nat.two_pow_pos height
  rw [width, lt_div_iff_mul_lt hpos]
  omega

theorem getD_level (l : List α) (hpos : 2 * pos < l.length) :
    (level node l).getD pos null = node (l.getD (2 * pos) null)
      (if 2 * pos + 1 < l.length then l.getD (2 * pos + 1) null else l.getD (2 * pos) null) := by
  unfold level
  fun_induction pairs l generalizing pos with
  | case1 a b l ih =>
    cases pos with
    | zero => simp
    | succ pos =>
      have hshift := @ih pos (by simp at hpos; omega)
      have hnext : 2 * (pos + 1) + 1 < (a :: b :: l).length ↔ 2 * pos + 1 < l.length := by
        simp only [length_cons]
        omega
      simp only [hnext]
      exact hshift
  | case2 a =>
    obtain rfl : pos = 0 := by simp at hpos; omega
    simp
  | case3 => simp at hpos

/-- The levels above the items are those of the tree over the next level. -/
theorem nodeAt_succ (l : List α) {height : Nat} (hpos : pos * 2 ^ (height + 1) < l.length) :
    nodeAt node null l (height + 1) pos = nodeAt node null (level node l) height pos := by
  induction height generalizing pos with
  | zero =>
    simp only [nodeAt, lt_width_iff, pow_zero, mul_one]
    exact (getD_level node null l (by omega)).symm
  | succ height ih =>
    have hleft : 2 * pos * 2 ^ (height + 1) < l.length := by
      rw [pow_succ] at hpos
      linarith
    have hwidth : 2 * pos + 1 < width (level node l).length height ↔
        (2 * pos + 1) * 2 ^ (height + 1) < l.length := by
      rw [lt_width_iff, length_level, pow_succ, ← mul_assoc]
      omega
    rw [nodeAt.eq_2, nodeAt.eq_2 node null (level node l), ih hleft]
    simp only [hwidth, lt_width_iff]
    split_ifs with hright
    · rw [ih hright]
    · rfl

/-- The root of a tree is the node that is alone at its height. -/
theorem treeRoot_eq_nodeAt (k : Nat) (hk : l.length ≤ k + 1) (hne : l ≠ []) :
    treeRoot node null k l = nodeAt node null l (Nat.clog 2 l.length) 0 := by
  induction k generalizing l with
  | zero =>
    obtain ⟨a, rfl⟩ := exists_singleton hne hk
    rfl
  | succ k ih =>
    rw [treeRoot]
    split_ifs with hl
    · have hlen := length_level node l
      have hne' : level node l ≠ [] := ne_nil_of_length_pos (by omega)
      rw [ih (by omega) hne', hlen, clog_of_two_le (by decide) hl]
      exact (nodeAt_succ node null l (by omega)).symm
    · obtain ⟨a, rfl⟩ := exists_singleton hne (by omega)
      rfl

end HashTree

end DefcoinCore
