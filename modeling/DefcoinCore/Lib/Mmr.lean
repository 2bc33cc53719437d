import Mathlib.Data.Set.Function
import Mathlib.Tactic

/-!
# Merkle mountain ranges

Leaves are appended one by one, and two complete trees of the same height are joined as soon as they
stand next to each other. What is left are the peaks: complete trees of falling heights. Each node
is hashed with its position, which is the number of nodes before it. The root joins the peaks from
the right, with the number of all nodes as position.

The range is kept as its peaks, the last one first. The shape of a range depends on the number of
leaves alone, so for ranges of the same number of leaves the root determines the leaves, as long as
the hash function has no collisions, and never returns the zero hash, on what is hashed
(`root_injective`).
-/

namespace DefcoinCore.Mmr

open List Prod

variable {α δ : Type}

/-- What is hashed: a leaf or a joined node, with its position. -/
inductive Input (α δ : Type) where
  | leaf (pos : Nat) (data : δ)
  | parent (pos : Nat) (left right : α)
  deriving DecidableEq

/-- A mountain range: the number of its nodes, and its peaks with their heights, the last one first.
-/
structure Range (α : Type) where
  numNodes : Nat
  peaks : List (Nat × α)
  deriving DecidableEq

variable (hash : Input α δ → α)

/-- A new peak of a given height, joined with those before it that have the height. -/
def join : Nat → Nat → α → List (Nat × α) → Range α
  | n, height, right, [] => ⟨n, [(height, right)]⟩
  | n, height, right, (height', left) :: peaks =>
    if height' = height then join (n + 1) (height + 1) (hash (.parent n left right)) peaks
    else ⟨n, (height, right) :: (height', left) :: peaks⟩

/-- A leaf is appended. -/
def addLeaf (m : Range α) (data : δ) : Range α :=
  join hash (m.numNodes + 1) 0 (hash (.leaf m.numNodes data)) m.peaks

/-- The range of a list of leaves. -/
def ofLeaves (leaves : List δ) : Range α := leaves.foldl (addLeaf hash) ⟨0, []⟩

/-- The peaks are joined from the right; a zero hash stands for none. -/
def bag [DecidableEq α] (zero : α) (n : Nat) (acc : α) (peaks : List (Nat × α)) : α :=
  peaks.foldl (fun acc p => if acc = zero then p.2 else hash (.parent n p.2 acc)) acc

/-- The root of a range. -/
def root [DecidableEq α] (zero : α) (m : Range α) : α := bag hash zero m.numNodes zero m.peaks

/-! ## What is hashed -/

/-- What is hashed to join a new peak. -/
def joinInputs : Nat → Nat → α → List (Nat × α) → List (Input α δ)
  | _, _, _, [] => []
  | n, height, right, (height', left) :: peaks =>
    if height' = height then
      .parent n left right :: joinInputs (n + 1) (height + 1) (hash (.parent n left right)) peaks
    else []

/-- What is hashed to append leaves to a range. -/
def leavesInputs : Range α → List δ → List (Input α δ)
  | _, [] => []
  | m, data :: leaves =>
    .leaf m.numNodes data ::
      (joinInputs hash (m.numNodes + 1) 0 (hash (.leaf m.numNodes data)) m.peaks ++
        leavesInputs (addLeaf hash m data) leaves)

/-- What is hashed to join the peaks. -/
def bagInputs [DecidableEq α] (zero : α) (n : Nat) : α → List (Nat × α) → List (Input α δ)
  | _, [] => []
  | acc, p :: peaks =>
    if acc = zero then bagInputs zero n p.2 peaks
    else .parent n p.2 acc :: bagInputs zero n (hash (.parent n p.2 acc)) peaks

/-- What is hashed to get the root of a list of leaves. -/
def rootInputs [DecidableEq α] (zero : α) (leaves : List δ) : List (Input α δ) :=
  leavesInputs hash ⟨0, []⟩ leaves ++
    bagInputs hash zero (ofLeaves hash leaves).numNodes zero (ofLeaves hash leaves).peaks

/-! ## The shape -/

/-- Two ranges have the same number of nodes and peaks of the same heights. -/
structure SameShape (m m' : Range α) : Prop where
  numNodes : m.numNodes = m'.numNodes
  heights : m.peaks.map fst = m'.peaks.map fst

theorem sameShape_join (n height : Nat) (right right' : α) {peaks peaks' : List (Nat × α)}
    (h : peaks.map fst = peaks'.map fst) :
    SameShape (join hash n height right peaks) (join hash n height right' peaks') := by
  induction peaks generalizing n height right right' peaks' with
  | nil =>
    rw [map_eq_nil_iff.mp h.symm]
    exact ⟨rfl, rfl⟩
  | cons p peaks ih =>
    obtain ⟨⟨_, left'⟩, peaks'', rfl, rfl, hpeaks⟩ := map_eq_cons_iff.mp h.symm
    unfold join
    split_ifs with hh
    · exact ih _ _ _ _ hpeaks.symm
    · exact ⟨rfl, by simp [hpeaks]⟩

theorem SameShape.addLeaf {m m' : Range α} (h : SameShape m m') (data data' : δ) :
    SameShape (addLeaf hash m data) (addLeaf hash m' data') := by
  unfold Mmr.addLeaf
  rw [h.numNodes]
  exact sameShape_join hash _ _ _ _ h.heights

theorem SameShape.foldl {m m' : Range α} (h : SameShape m m') {leaves leaves' : List δ}
    (hlen : leaves.length = leaves'.length) :
    SameShape (leaves.foldl (Mmr.addLeaf hash) m) (leaves'.foldl (Mmr.addLeaf hash) m') := by
  induction leaves generalizing leaves' m m' with
  | nil =>
    rw [length_eq_zero_iff.mp hlen.symm]
    exact h
  | cons data leaves ih =>
    cases leaves' with
    | nil => exact absurd hlen (by simp)
    | cons data' leaves' =>
      exact ih (h.addLeaf hash data data') (by simpa using hlen)

/-! ## The root determines the leaves -/

/-- Equal results of joining come from equal peaks. -/
theorem join_injective {S : Set (Input α δ)} (hinj : Set.InjOn hash S) (n height : Nat)
    {right right' : α} {peaks peaks' : List (Nat × α)}
    (hshape : peaks.map fst = peaks'.map fst)
    (hS : ∀ x ∈ joinInputs hash n height right peaks, x ∈ S)
    (hS' : ∀ x ∈ joinInputs hash n height right' peaks', x ∈ S)
    (h : join hash n height right peaks = join hash n height right' peaks') :
    right = right' ∧ peaks = peaks' := by
  induction peaks generalizing n height right right' peaks' with
  | nil =>
    rw [map_eq_nil_iff.mp hshape.symm] at h ⊢
    simpa [join] using h
  | cons p peaks ih =>
    obtain ⟨⟨_, left'⟩, peaks'', rfl, rfl, hpeaks⟩ := map_eq_cons_iff.mp hshape.symm
    unfold join at h
    unfold joinInputs at hS hS'
    split_ifs at h hS hS' with hh
    · obtain ⟨hnode, hrest⟩ := ih (n + 1) (height + 1) hpeaks.symm
        (fun x hx => hS x (mem_cons_of_mem _ hx))
        (fun x hx => hS' x (mem_cons_of_mem _ hx)) h
      have hparent := hinj (hS _ mem_cons_self) (hS' _ mem_cons_self) hnode
      rw [Input.parent.injEq] at hparent
      exact ⟨hparent.2.2, by rw [← hparent.2.1, hrest]⟩
    · simp only [Range.mk.injEq, cons.injEq, mk.injEq, true_and] at h
      exact ⟨h.1, by rw [← h.2.1, h.2.2]⟩

/-- Equal ranges of the same number of leaves come from equal leaves. -/
theorem foldl_addLeaf_injective {S : Set (Input α δ)} (hinj : Set.InjOn hash S)
    {leaves leaves' : List δ} (hlen : leaves.length = leaves'.length) {m m' : Range α}
    (hshape : SameShape m m') (hS : ∀ x ∈ leavesInputs hash m leaves, x ∈ S)
    (hS' : ∀ x ∈ leavesInputs hash m' leaves', x ∈ S)
    (h : leaves.foldl (addLeaf hash) m = leaves'.foldl (addLeaf hash) m') :
    leaves = leaves' ∧ m = m' := by
  induction leaves generalizing leaves' m m' with
  | nil =>
    rw [length_eq_zero_iff.mp hlen.symm] at h ⊢
    exact ⟨rfl, h⟩
  | cons data leaves ih =>
    cases leaves' with
    | nil => exact absurd hlen (by simp)
    | cons data' leaves' =>
      rw [leavesInputs, forall_mem_cons, forall_mem_append] at hS hS'
      obtain ⟨hleaves, hm⟩ := ih (by simpa using hlen)
        (hshape.addLeaf hash data data') hS.2.2 hS'.2.2 h
      -- The ranges after the first leaf are equal, so the first leaves and the ranges before are.
      unfold addLeaf at hm
      obtain ⟨hn, hheights⟩ := hshape
      rw [← hn] at hm hS'
      obtain ⟨hleaf, hpeaks⟩ := join_injective hash hinj _ _ hheights hS.2.1 hS'.2.1 hm
      have hdata := hinj hS.1 hS'.1 hleaf
      rw [Input.leaf.injEq] at hdata
      exact ⟨by rw [hdata.2, hleaves], congrArg₂ Range.mk hn hpeaks⟩

variable [DecidableEq α] (zero : α)

/-- Equal roots come from equal peaks, once a peak has been taken. -/
theorem bag_injective {S : Set (Input α δ)} (hinj : Set.InjOn hash S)
    (hzero : ∀ x ∈ S, hash x ≠ zero) (n : Nat) {acc acc' : α} (hacc : acc ≠ zero)
    (hacc' : acc' ≠ zero) {peaks peaks' : List (Nat × α)}
    (hshape : peaks.map Prod.fst = peaks'.map Prod.fst)
    (hS : ∀ x ∈ bagInputs hash zero n acc peaks, x ∈ S)
    (hS' : ∀ x ∈ bagInputs hash zero n acc' peaks', x ∈ S)
    (h : bag hash zero n acc peaks = bag hash zero n acc' peaks') :
    acc = acc' ∧ peaks = peaks' := by
  induction peaks generalizing acc acc' peaks' with
  | nil =>
    rw [map_eq_nil_iff.mp hshape.symm] at h ⊢
    exact ⟨h, rfl⟩
  | cons p peaks ih =>
    obtain ⟨p', peaks'', rfl, hp, hpeaks⟩ := map_eq_cons_iff.mp hshape.symm
    rw [bagInputs, if_neg hacc, forall_mem_cons] at hS
    rw [bagInputs, if_neg hacc', forall_mem_cons] at hS'
    rw [bag, bag, foldl_cons, foldl_cons, if_neg hacc, if_neg hacc'] at h
    obtain ⟨hnode, hrest⟩ := ih (hzero _ hS.1) (hzero _ hS'.1) hpeaks.symm hS.2 hS'.2 h
    have hparent := hinj hS.1 hS'.1 hnode
    rw [Input.parent.injEq] at hparent
    exact ⟨hparent.2.2, by rw [Prod.ext hp.symm hparent.2.1, hrest]⟩

omit [DecidableEq α] in
/-- The hash of a peak is the hash of something. -/
theorem peaks_join {S : Set (Input α δ)} (n height : Nat) {right : α} {peaks : List (Nat × α)}
    (hright : ∃ x ∈ S, hash x = right) (hpeaks : ∀ p ∈ peaks, ∃ x ∈ S, hash x = p.2)
    (hS : ∀ x ∈ joinInputs hash n height right peaks, x ∈ S) :
    ∀ p ∈ (join hash n height right peaks).peaks, ∃ x ∈ S, hash x = p.2 := by
  induction peaks generalizing n height right with
  | nil => exact forall_mem_singleton.mpr hright
  | cons q peaks ih =>
    unfold join
    unfold joinInputs at hS
    split_ifs at hS ⊢ with hh
    · exact ih _ _ ⟨_, hS _ mem_cons_self, rfl⟩
        (fun p hp => hpeaks p (mem_cons_of_mem _ hp)) fun x hx => hS x (mem_cons_of_mem _ hx)
    · exact forall_mem_cons.mpr ⟨hright, hpeaks⟩

omit [DecidableEq α] in
theorem peaks_foldl {S : Set (Input α δ)} (leaves : List δ) {m : Range α}
    (hm : ∀ p ∈ m.peaks, ∃ x ∈ S, hash x = p.2) (hS : ∀ x ∈ leavesInputs hash m leaves, x ∈ S) :
    ∀ p ∈ (leaves.foldl (addLeaf hash) m).peaks, ∃ x ∈ S, hash x = p.2 := by
  induction leaves generalizing m with
  | nil => exact hm
  | cons data leaves ih =>
    rw [leavesInputs, forall_mem_cons, forall_mem_append] at hS
    exact ih (peaks_join hash _ _ ⟨_, hS.1, rfl⟩ hm hS.2.1) hS.2.2

/-- Equal roots come from equal peaks, when the peaks are hashes. -/
theorem bag_zero_injective {S : Set (Input α δ)} (hinj : Set.InjOn hash S)
    (hzero : ∀ x ∈ S, hash x ≠ zero) (n : Nat) {peaks peaks' : List (Nat × α)}
    (hpeaks : ∀ p ∈ peaks, ∃ x ∈ S, hash x = p.2) (hpeaks' : ∀ p ∈ peaks', ∃ x ∈ S, hash x = p.2)
    (hshape : peaks.map Prod.fst = peaks'.map Prod.fst)
    (hS : ∀ x ∈ bagInputs hash zero n zero peaks, x ∈ S)
    (hS' : ∀ x ∈ bagInputs hash zero n zero peaks', x ∈ S)
    (h : bag hash zero n zero peaks = bag hash zero n zero peaks') : peaks = peaks' := by
  match peaks, peaks' with
  | [], [] => rfl
  | [], _ :: _ => exact absurd hshape (by simp)
  | _ :: _, [] => exact absurd hshape (by simp)
  | p :: peaks, p' :: peaks' =>
    rw [map_cons, map_cons, cons.injEq] at hshape
    rw [bagInputs, if_pos rfl] at hS hS'
    rw [bag, bag, foldl_cons, foldl_cons, if_pos rfl, if_pos rfl] at h
    obtain ⟨x, hx, hxp⟩ := hpeaks p mem_cons_self
    obtain ⟨x', hx', hxp'⟩ := hpeaks' p' mem_cons_self
    obtain ⟨hhead, htail⟩ := bag_injective hash zero hinj hzero n (hxp ▸ hzero x hx)
      (hxp' ▸ hzero x' hx') hshape.2 hS hS' h
    rw [Prod.ext hshape.1 hhead, htail]

/-- The hash function has no collisions on what is hashed for two lists of leaves, and no hash is
zero. -/
@[mk_iff]
structure CollisionFree (leaves leaves' : List δ) : Prop where
  injOn : Set.InjOn hash {x | x ∈ rootInputs hash zero leaves ∨ x ∈ rootInputs hash zero leaves'}
  ne_zero : ∀ x, x ∈ rootInputs hash zero leaves ∨ x ∈ rootInputs hash zero leaves' → hash x ≠ zero

instance [DecidableEq δ] (leaves leaves' : List δ) :
    Decidable (CollisionFree hash zero leaves leaves') :=
  let l := rootInputs hash zero leaves ++ rootInputs hash zero leaves'
  decidable_of_iff ((∀ x ∈ l, ∀ y ∈ l, hash x = hash y → x = y) ∧ ∀ x ∈ l, hash x ≠ zero)
    (by simp only [l, collisionFree_iff, mem_append]; rfl)

/-- The root of a range of a given number of leaves determines the leaves. -/
theorem root_injective {leaves leaves' : List δ} (hfree : CollisionFree hash zero leaves leaves')
    (hlen : leaves.length = leaves'.length)
    (h : root hash zero (ofLeaves hash leaves) = root hash zero (ofLeaves hash leaves')) :
    leaves = leaves' := by
  obtain ⟨hinj, hzero⟩ := hfree
  let S := {x | x ∈ rootInputs hash zero leaves ∨ x ∈ rootInputs hash zero leaves'}
  have hS : ∀ x ∈ rootInputs hash zero leaves, x ∈ S := fun x => .inl
  have hS' : ∀ x ∈ rootInputs hash zero leaves', x ∈ S := fun x => .inr
  rw [rootInputs, forall_mem_append] at hS hS'
  have hshape : SameShape (ofLeaves hash leaves) (ofLeaves hash leaves') :=
    SameShape.foldl hash ⟨rfl, rfl⟩ hlen
  have hpeak := peaks_foldl hash leaves (m := ⟨0, []⟩) (fun p hp => absurd hp not_mem_nil) hS.1
  have hpeak' := peaks_foldl hash leaves' (m := ⟨0, []⟩) (fun p hp => absurd hp not_mem_nil) hS'.1
  -- First the peaks are equal, and then the leaves.
  have hpeaks : (ofLeaves hash leaves).peaks = (ofLeaves hash leaves').peaks := by
    unfold root at h
    rw [← hshape.numNodes] at h hS'
    exact bag_zero_injective hash zero hinj hzero _ hpeak hpeak' hshape.heights hS.2 hS'.2 h
  have hrange := congrArg₂ Range.mk hshape.numNodes hpeaks
  exact (foldl_addLeaf_injective hash hinj hlen ⟨rfl, rfl⟩ hS.1 hS'.1 hrange).1

end DefcoinCore.Mmr
