import DefcoinCore.Lib.Machine
import DefcoinCore.Validation.ChainState

/-!
# Skip pointers and the active chain

The functions of `chain.cpp` on pointers: `GetSkipHeight`, `GetAncestor` with its choice between
`pskip` and `pprev`, `BuildSkip`, `LastCommonAncestor`, and `SetTip` and `FindFork` of `CChain`. A
pointer is a name of any type, and the index gives the entry behind it. A null or dangling pointer
that is followed, an assertion that fails and a read behind the end of a vector are errors. Every
loop has a number of rounds, and it is an error to run out of them.

The index grows by one block at a time, with `BuildSkip` on each insertion, and the tip is set
between insertions in any way. In every state that is reached, `GetAncestor` is a walk along
`pprev`, the common ancestor that is found is the last one, and the vector of the chain holds the
ancestors of its tip (`reachable_walks`).
-/

namespace DefcoinCore.SkipList

open Forest List Option Function Nat

variable {κ : Type}

/-! ## The code -/

/-- `InvertLowestOne`. -/
def invertLowestOne (n : Nat) : Nat := n &&& (n - 1)

/-- `GetSkipHeight`. -/
def getSkipHeight (height : Nat) : Nat :=
  if height < 2 then 0
  else if height &&& 1 ≠ 0 then invertLowestOne (invertLowestOne (height - 1)) + 1
  else invertLowestOne height

/-- A `CBlockIndex`, with the fields that the walks read. -/
structure Entry (κ : Type) where
  pprev : Option κ
  pskip : Option κ
  nHeight : Nat
  deriving DecidableEq

/-- The entries behind the pointers. -/
abbrev Index (κ : Type) := κ → Option (Entry κ)

/-- How a walk goes wrong. -/
inductive Fault where
  | danglingPointer
  | assertion
  | outOfRange
  /-- The rounds of a loop are used up. -/
  | rounds
  deriving DecidableEq

/-- A pointer is followed. -/
def deref (t : Index κ) (b : κ) : Except Fault (Entry κ) :=
  match t b with
  | some e => .ok e
  | none => .error .danglingPointer

/-- The loop of `GetAncestor`. -/
def ancestorLoop (t : Index κ) (height : Nat) : Nat → κ → Nat → Except Fault κ
  | 0, pindexWalk, heightWalk => if heightWalk > height then .error .rounds else .ok pindexWalk
  | rounds + 1, pindexWalk, heightWalk =>
    if heightWalk > height then do
      let heightSkip := getSkipHeight heightWalk
      let heightSkipPrev := getSkipHeight (heightWalk - 1)
      let walk ← deref t pindexWalk
      match walk.pskip, decide (heightSkip = height ∨ (heightSkip > height ∧
          ¬(heightSkipPrev + 2 < heightSkip ∧ heightSkipPrev ≥ height))) with
      | some skip, true => ancestorLoop t height rounds skip heightSkip
      | _, _ =>
        match walk.pprev with
        | some prev => ancestorLoop t height rounds prev (heightWalk - 1)
        | none => .error .assertion
    else .ok pindexWalk

/-- `CBlockIndex::GetAncestor`. Every round lowers the height of the walk. -/
def getAncestor (t : Index κ) (b : κ) (height : Int) : Except Fault (Option κ) := do
  let e ← deref t b
  if height > e.nHeight ∨ height < 0 then pure none
  else some <$> ancestorLoop t height.toNat e.nHeight b e.nHeight

/-- A pointer at a height is moved to its ancestor at a lower height; otherwise it stays. -/
def lowerTo (t : Index κ) (b : κ) (nHeight : Nat) (height : Int) : Except Fault (Option κ) :=
  if nHeight > height then getAncestor t b height else .ok (some b)

/-- `CBlockIndex::BuildSkip`, for the entry of a block with its predecessor and height. -/
def buildSkip (t : Index κ) (e : Entry κ) : Except Fault (Entry κ) :=
  match e.pprev with
  | some prev => do
    let pskip ← getAncestor t prev (getSkipHeight e.nHeight)
    pure { e with pskip }
  | none => .ok e

/-- The loop of `LastCommonAncestor`. -/
def commonLoop [DecidableEq κ] (t : Index κ) :
    Nat → Option κ → Option κ → Except Fault (Option κ × Option κ)
  | rounds, some pa, some pb =>
    if pa = pb then .ok (some pa, some pb)
    else
      match rounds with
      | 0 => .error .rounds
      | rounds + 1 => do
        let a ← deref t pa
        let b ← deref t pb
        commonLoop t rounds a.pprev b.pprev
  | _, pa, pb => .ok (pa, pb)
termination_by structural rounds => rounds

/-- `LastCommonAncestor`. -/
def lastCommonAncestor [DecidableEq κ] (t : Index κ) (pa pb : κ) : Except Fault (Option κ) := do
  let a ← deref t pa
  let b ← deref t pb
  let pa' ← lowerTo t pa a.nHeight b.nHeight
  let pb' ← lowerTo t pb b.nHeight a.nHeight
  let (pa'', pb'') ← commonLoop t (min a.nHeight b.nHeight + 1) pa' pb'
  if pa'' = pb'' then pure pa'' else .error .assertion

variable (vChain : List (Option κ))

/-- `std::vector::resize`, on a vector of pointers. -/
def resize (n : Nat) : List (Option κ) :=
  vChain.take n ++ List.replicate (n - vChain.length) none

/-- The loop of `SetTip`. -/
def fillChain [DecidableEq κ] (t : Index κ) :
    Nat → Option κ → List (Option κ) → Except Fault (List (Option κ))
  | _, none, vChain => .ok vChain
  | rounds, some pindex, vChain => do
    let e ← deref t pindex
    match vChain[e.nHeight]? with
    | none => .error .outOfRange
    | some found =>
      if found = some pindex then .ok vChain
      else
        match rounds with
        | 0 => .error .rounds
        | rounds + 1 => fillChain t rounds e.pprev (vChain.set e.nHeight (some pindex))
termination_by structural rounds => rounds

/-- `CChain::SetTip`. -/
def setTip [DecidableEq κ] (t : Index κ) (vChain : List (Option κ)) :
    Option κ → Except Fault (List (Option κ))
  | none => .ok []
  | some pindex => do
    let e ← deref t pindex
    fillChain t (e.nHeight + 1) (some pindex) (resize vChain (e.nHeight + 1))

/-- `CChain::operator[]`. -/
def chainGet (nHeight : Int) : Option κ :=
  if nHeight < 0 ∨ nHeight ≥ vChain.length then none else (vChain[nHeight.toNat]?).join

/-- `CChain::Tip`. -/
def chainTip : Option κ := vChain.getLast?.join

/-- The loop of `FindFork`. -/
def forkLoop [DecidableEq κ] (t : Index κ) (vChain : List (Option κ)) :
    Nat → Option κ → Except Fault (Option κ)
  | _, none => .ok none
  | rounds, some pindex => do
    let e ← deref t pindex
    -- `Contains`
    if chainGet vChain e.nHeight = some pindex then .ok (some pindex)
    else
      match rounds with
      | 0 => .error .rounds
      | rounds + 1 => forkLoop t vChain rounds e.pprev
termination_by structural rounds => rounds

/-- `CChain::FindFork`. -/
def findFork [DecidableEq κ] (t : Index κ) (vChain : List (Option κ)) :
    Option κ → Except Fault (Option κ)
  | none => .ok none
  | some pindex => do
    let e ← deref t pindex
    let start ← lowerTo t pindex e.nHeight (vChain.length - 1)
    forkLoop t vChain (e.nHeight + 1) start

/-! ## Runs -/

/-- The block index with an active chain. -/
structure State (κ : Type) where
  index : Index κ
  vChain : List (Option κ)

/-- A block is put into the index, under its predecessor if it has one, or the tip of the chain is
set. -/
inductive Op (κ : Type) where
  | insert (pindex : κ) (pprev : Option κ)
  | setTip (pindex : Option κ)

/-- The height of a block that is put in. -/
def newHeight (t : Index κ) : Option κ → Except Fault Nat
  | none => .ok 0
  | some prev => do
    let e ← deref t prev
    pure (e.nHeight + 1)

/-- One operation. -/
def step [DecidableEq κ] (s : State κ) : Op κ → Except Fault (State κ × Unit)
  | .insert pindex pprev => do
    let nHeight ← newHeight s.index pprev
    let e ← buildSkip s.index ⟨pprev, none, nHeight⟩
    pure ({ s with index := Function.update s.index pindex (some e) }, ())
  | .setTip pindex => do
    let vChain ← setTip s.index s.vChain pindex
    pure ({ s with vChain }, ())

/-- What an operation may be given: a new block under a known one, or the first block of all; and a
known block, or null, as a tip. -/
def guard (s : State κ) : Op κ → Prop
  | .insert _ none => ∀ b, s.index b = none
  | .insert pindex (some prev) => s.index pindex = none ∧ ∃ e, s.index prev = some e
  | .setTip none => True
  | .setTip (some pindex) => ∃ e, s.index pindex = some e

/-- Before the first block. -/
def initial : State κ := ⟨fun _ => none, []⟩

/-! ## The tree -/

/-- The predecessor of a block. -/
def parentOf (t : Index κ) (b : κ) : Option κ := (t b).bind (·.pprev)

/-- The height of a block. -/
def heightOf (t : Index κ) (b : κ) : Nat := ((t b).map (·.nHeight)).getD 0

/-- The blocks of the index. -/
def blocks (t : Index κ) : Set κ := {b | ∃ e, t b = some e}

variable {t : Index κ} {b : κ}

theorem parentOf_eq {e : Entry κ} (h : t b = some e) : parentOf t b = e.pprev := by
  rw [parentOf, h]
  rfl

theorem heightOf_eq {e : Entry κ} (h : t b = some e) : heightOf t b = e.nHeight := by
  rw [heightOf, h]
  rfl

theorem deref_eq {e : Entry κ} (h : t b = some e) : deref t b = .ok e := by
  rw [deref, h]

/-- The blocks form one tree, and a skip pointer leads to the ancestor at the height that is skipped
to. -/
structure Tree (t : Index κ) : Prop where
  closed : ∀ b ∈ blocks t, ∀ p, parentOf t b = some p → p ∈ blocks t
  height : ∀ b ∈ blocks t, ∀ p, parentOf t b = some p → heightOf t b = heightOf t p + 1
  root : ∀ b ∈ blocks t, parentOf t b = none → heightOf t b = 0
  /-- There is one root. -/
  unique : ∀ b ∈ blocks t, ∀ b' ∈ blocks t, parentOf t b = none → parentOf t b' = none → b = b'
  skip : ∀ b e q, t b = some e → e.pskip = some q →
    up (parentOf t) (e.nHeight - getSkipHeight e.nHeight) b = some q

theorem invertLowestOne_le (n : Nat) : invertLowestOne n ≤ n - 1 := and_le_right

theorem getSkipHeight_lt {height : Nat} (h : 0 < height) : getSkipHeight height < height := by
  unfold getSkipHeight
  split_ifs with hsmall hodd
  · exact h
  · have h1 := invertLowestOne_le (height - 1)
    have h2 := invertLowestOne_le (invertLowestOne (height - 1))
    omega
  · have h1 := invertLowestOne_le height
    omega

namespace Tree

variable {t : Index κ} (ht : Tree t) {a b c : κ} {e : Entry κ}

include ht

theorem graded : Graded (parentOf t) (heightOf t) (blocks t) := ⟨ht.closed, ht.height⟩

/-- A block is the root, or it has a predecessor. -/
theorem parent_cases (he : t b = some e) :
    e.pprev = none ∧ parentOf t b = none ∧ heightOf t b = 0 ∨
      ∃ p, e.pprev = some p ∧ parentOf t b = some p ∧ p ∈ blocks t ∧
        heightOf t b = heightOf t p + 1 := by
  have hparent := parentOf_eq he
  rcases hp : e.pprev with _ | p
  · rw [hp] at hparent
    exact .inl ⟨rfl, hparent, ht.root b ⟨e, he⟩ hparent⟩
  · rw [hp] at hparent
    exact .inr ⟨p, rfl, hparent, ht.closed b ⟨e, he⟩ p hparent, ht.height b ⟨e, he⟩ p hparent⟩

/-- The loop of `GetAncestor` ends at the ancestor that steps along `pprev` lead to. -/
theorem ancestorLoop_spec {height : Nat} (rounds : Nat) (hb : b ∈ blocks t)
    (hle : height ≤ heightOf t b) (hrounds : heightOf t b ≤ rounds + height) :
    ∃ a, ancestorLoop t height rounds b (heightOf t b) = .ok a ∧
      up (parentOf t) (heightOf t b - height) b = some a := by
  -- Every round lowers the height, by one step or by a skip.
  induction rounds generalizing b with
  | zero =>
    have heq : heightOf t b - height = 0 := by omega
    rw [heq, ancestorLoop, if_neg (by omega)]
    exact ⟨b, rfl, rfl⟩
  | succ rounds ih =>
    by_cases hwalk : heightOf t b > height
    · obtain ⟨e, he⟩ := hb
      have hbe := heightOf_eq he
      have hskip : getSkipHeight (heightOf t b) < heightOf t b := getSkipHeight_lt (by omega)
      rw [ancestorLoop, if_pos hwalk]
      rw [deref_eq he, ok_bind]
      split
      · -- The skip pointer is followed.
        rename_i q hq htaken
        have htaken' := of_decide_eq_true htaken
        have hup := ht.skip b e q he hq
        rw [← hbe] at hup
        obtain ⟨hmem, hsum⟩ := ht.graded.height_up ⟨e, he⟩ hup
        have hheight : heightOf t q = getSkipHeight (heightOf t b) := by omega
        obtain ⟨a, ha, hanc⟩ := ih hmem (by omega) (by omega)
        rw [hheight] at ha hanc
        exact ⟨a, ha, (up_sub hup (by omega) hskip.le).trans hanc⟩
      · rcases ht.parent_cases he with ⟨-, -, hzero⟩ | ⟨p, hp, hparent, hmem, hstep⟩
        · omega
        · have hheight : heightOf t b - 1 = heightOf t p := by omega
          have hsplit : heightOf t b - height = heightOf t p - height + 1 := by omega
          rw [hp]
          rw [hheight, hsplit, up_succ_of_parent hparent]
          exact ih hmem (by omega) (by omega)
    · have heq : heightOf t b - height = 0 := by omega
      rw [heq, ancestorLoop, if_neg hwalk]
      exact ⟨b, rfl, rfl⟩

/-- `GetAncestor` follows `pprev`. -/
theorem getAncestor_spec {height : Nat} (hb : b ∈ blocks t) (hle : height ≤ heightOf t b) :
    ∃ a, getAncestor t b height = .ok (some a) ∧
      up (parentOf t) (heightOf t b - height) b = some a := by
  obtain ⟨e, he⟩ := hb
  have hbe := heightOf_eq he
  obtain ⟨a, ha, hup⟩ := ht.ancestorLoop_spec (heightOf t b) ⟨e, he⟩ hle (by omega)
  refine ⟨a, ?_, hup⟩
  rw [getAncestor, deref_eq he, ok_bind, if_neg (by omega), ← hbe, Int.toNat_natCast, ha]
  rfl

/-! ## The last common ancestor -/

end Tree

/-- The deepest of the common ancestors of two blocks. -/
structure IsLastCommon (t : Index κ) (a b r : κ) : Prop where
  left : Anc (parentOf t) r a
  right : Anc (parentOf t) r b
  last : ∀ c, Anc (parentOf t) c a → Anc (parentOf t) c b → Anc (parentOf t) c r

theorem IsLastCommon.refl (t : Index κ) (a : κ) : IsLastCommon t a a a :=
  ⟨.refl a, .refl a, fun _ h _ => h⟩

theorem IsLastCommon.symm {a r : κ} (h : IsLastCommon t a b r) : IsLastCommon t b a r :=
  ⟨h.right, h.left, fun c hb ha => h.last c ha hb⟩

namespace Tree

variable {t : Index κ} (ht : Tree t) {a b c p q r : κ}

include ht

/-- There is one last common ancestor. -/
theorem isLastCommon_unique {r' : κ} (h : IsLastCommon t a b r) (h' : IsLastCommon t a b r')
    (ha : a ∈ blocks t) : r = r' :=
  ht.graded.eq_of_height (ht.graded.mem ha h'.left) (h'.last r h.left h.right)
    (ht.graded.height_le (ht.graded.mem ha h.left) (h.last r' h'.left h'.right))

/-- The ancestors that a block shares with another one are those of the block lowered to the height
of the other. -/
theorem isLastCommon_of_lower (ha : a ∈ blocks t) (hb : b ∈ blocks t)
    (hup : up (parentOf t) (heightOf t a - heightOf t b) a = some p) (h : IsLastCommon t p b r) :
    IsLastCommon t a b r where
  left := h.left.trans (Anc.of_up hup)
  right := h.right
  last c hca hcb := by
    refine h.last c ?_ hcb
    rcases Anc.total hca (Anc.of_up hup) with hcp | hpc
    · exact hcp
    · -- A common ancestor above `p` would be above `a` or `b`.
      have hheight := (ht.graded.height_up ha hup).2
      have hlea := ht.graded.height_le ha hca
      have hleb := ht.graded.height_le hb hcb
      rw [ht.graded.eq_of_height (ht.graded.mem hb hcb) hpc (by omega)]

/-- Different blocks of one height have the last common ancestor of their predecessors. -/
theorem isLastCommon_of_parents (hne : a ≠ b) (ha : a ∈ blocks t) (hb : b ∈ blocks t)
    (hheight : heightOf t a = heightOf t b) (hp : parentOf t a = some p)
    (hq : parentOf t b = some q) (h : IsLastCommon t p q r) : IsLastCommon t a b r where
  left := h.left.of_parent hp
  right := h.right.of_parent hq
  last c hca hcb := by
    have hca' : c ≠ a := by
      rintro rfl
      exact hne (ht.graded.eq_of_height hb hcb hheight.ge)
    have hcb' : c ≠ b := by
      rintro rfl
      exact hne (ht.graded.eq_of_height ha hca hheight.le).symm
    exact h.last c (hca.of_ne hca' hp) (hcb.of_ne hcb' hq)

theorem commonLoop_spec [DecidableEq κ] (rounds : Nat) (ha : a ∈ blocks t) (hb : b ∈ blocks t)
    (hheight : heightOf t a = heightOf t b) (hrounds : heightOf t a < rounds) :
    ∃ r, commonLoop t rounds (some a) (some b) = .ok (some r, some r) ∧ IsLastCommon t a b r := by
  induction rounds generalizing a b with
  | zero => omega
  | succ rounds ih =>
    rw [commonLoop]
    by_cases hab : a = b
    · rw [if_pos hab, hab]
      exact ⟨b, rfl, .refl t b⟩
    · rw [if_neg hab]
      obtain ⟨ea, hea⟩ := ha
      obtain ⟨eb, heb⟩ := hb
      rw [deref_eq hea, deref_eq heb, ok_bind, ok_bind]
      rcases ht.parent_cases hea with ⟨-, hpa, hzero⟩ | ⟨p, hp, hpa, hpmem, hstep⟩
      · rcases ht.parent_cases heb with ⟨-, hpb, -⟩ | ⟨q, -, -, -, hstep'⟩
        · exact absurd (ht.unique a ⟨ea, hea⟩ b ⟨eb, heb⟩ hpa hpb) hab
        · omega
      · rcases ht.parent_cases heb with ⟨-, -, hzero⟩ | ⟨q, hq, hpb, hqmem, hstep'⟩
        · omega
        · obtain ⟨r, hr, hlast⟩ := ih hpmem hqmem (by omega) (by omega)
          rw [hp, hq]
          exact ⟨r, hr, ht.isLastCommon_of_parents hab ⟨ea, hea⟩ ⟨eb, heb⟩ hheight hpa hpb hlast⟩

theorem lowerTo_spec (height : Nat) (ha : a ∈ blocks t) :
    ∃ a', lowerTo t a (heightOf t a) height = .ok (some a') ∧
      up (parentOf t) (heightOf t a - height) a = some a' := by
  unfold lowerTo
  split_ifs with h
  · exact ht.getAncestor_spec ha (by omega)
  · have hzero : heightOf t a - height = 0 := by omega
    rw [hzero]
    exact ⟨a, rfl, rfl⟩

/-- `LastCommonAncestor` finds the last common ancestor. -/
theorem lastCommonAncestor_spec [DecidableEq κ] (ha : a ∈ blocks t) (hb : b ∈ blocks t) :
    ∃ r, lastCommonAncestor t a b = .ok (some r) ∧ IsLastCommon t a b r := by
  obtain ⟨a', hlow, hup⟩ := ht.lowerTo_spec (heightOf t b) ha
  obtain ⟨b', hlow', hup'⟩ := ht.lowerTo_spec (heightOf t a) hb
  obtain ⟨ha', hsum⟩ := ht.graded.height_up ha hup
  obtain ⟨hb', hsum'⟩ := ht.graded.height_up hb hup'
  obtain ⟨r, hr, hlast⟩ := ht.commonLoop_spec (min (heightOf t a) (heightOf t b) + 1) ha' hb'
    (by omega) (by omega)
  have hlast' : IsLastCommon t a b r := by
    refine (ht.isLastCommon_of_lower hb ha hup'
      (ht.isLastCommon_of_lower ha hb' ?_ hlast).symm).symm
    rwa [show heightOf t a - heightOf t b' = heightOf t a - heightOf t b by omega]
  obtain ⟨ea, hea⟩ := ha
  obtain ⟨eb, heb⟩ := hb
  rw [heightOf_eq hea, heightOf_eq heb] at hlow hlow' hr
  refine ⟨r, ?_, hlast'⟩
  rw [lastCommonAncestor, deref_eq hea, deref_eq heb, ok_bind, ok_bind, hlow, ok_bind, hlow',
    ok_bind, hr, ok_bind]
  dsimp only
  rw [if_pos rfl]
  rfl

end Tree

/-! ## The active chain -/

/-- The vector has the ancestors of a block by height, and the block at its end. -/
structure IsChainOf (t : Index κ) (tip : κ) (vChain : List (Option κ)) : Prop where
  mem : tip ∈ blocks t
  length : vChain.length = heightOf t tip + 1
  get : ∀ i ≤ heightOf t tip, vChain[i]? = some (up (parentOf t) (heightOf t tip - i) tip)

/-- The chain is empty, or it has the ancestors of some block. -/
def IsChain (t : Index κ) (vChain : List (Option κ)) : Prop := vChain = [] ∨
    ∃ tip, IsChainOf t tip vChain

theorem IsChainOf.chainTip_eq {tip : κ} {vChain : List (Option κ)} (h : IsChainOf t tip vChain) :
    chainTip vChain = some tip := by
  have hlast := h.get (heightOf t tip) le_rfl
  rw [chainTip, getLast?_eq_getElem?, h.length, Nat.add_sub_cancel, hlast, Nat.sub_self]
  rfl

/-- Below some height, every block that is found stands on its ancestors. -/
def Linked (t : Index κ) (vChain : List (Option κ)) (n : Nat) : Prop :=
  ∀ i < n, ∀ b, vChain[i]? = some (some b) → ∀ j ≤ i, vChain[j]? = some (up (parentOf t) (i - j) b)

theorem getElem?_resize {n i : Nat} (h : i < n) :
    (resize vChain n)[i]? = some (vChain[i]?).join := by
  rw [resize, getElem?_append, length_take, getElem?_take_of_lt h, getElem?_replicate]
  rcases lt_or_ge i vChain.length with hlt | hge
  · rw [if_pos (by omega), getElem?_eq_getElem hlt]
    rfl
  · rw [if_neg (by omega), if_pos (by omega), getElem?_eq_none hge]
    rfl

theorem length_resize (n : Nat) : (resize vChain n).length = n := by
  rw [resize, length_append, length_take, length_replicate]
  omega

/-- What is left of a chain stands on its ancestors. -/
theorem IsChain.linked_resize {vChain : List (Option κ)} (h : IsChain t vChain) (n : Nat) :
    Linked t (resize vChain n) n := by
  intro i hi b hb j hj
  rw [getElem?_resize vChain hi, some.injEq] at hb
  rw [getElem?_resize vChain (by omega), some.injEq]
  rcases h with rfl | ⟨tip, htip⟩
  · cases hb
  · rcases lt_or_ge i vChain.length with hlt | hge
    · have hlen := htip.length
      rw [htip.get i (by omega), join_some] at hb
      rw [htip.get j (by omega), join_some, up_sub hb hj (by omega)]
    · rw [getElem?_eq_none hge] at hb
      cases hb

namespace Tree

variable {t : Index κ} (ht : Tree t) {tip a b p q r : κ} {vChain : List (Option κ)}

include ht

/-- The loop of `SetTip` fills in the ancestors of the tip. It stops at a block that is there
already: below it stand its ancestors. -/
theorem fillChain_spec [DecidableEq κ] (htip : tip ∈ blocks t) (n : Nat) {cur : Option κ}
    (hcur : cur = none ∧ n = 0 ∨ ∃ b, cur = some b ∧ b ∈ blocks t ∧ n = heightOf t b + 1 ∧
      up (parentOf t) (heightOf t tip - heightOf t b) tip = some b)
    (hlen : vChain.length = heightOf t tip + 1)
    (hdone : ∀ i, n ≤ i → i ≤ heightOf t tip →
      vChain[i]? = some (up (parentOf t) (heightOf t tip - i) tip))
    (hlinked : Linked t vChain n) :
    ∃ vChain', fillChain t n cur vChain = .ok vChain' ∧ IsChainOf t tip vChain' := by
  induction n generalizing cur vChain with
  | zero =>
    rcases hcur with ⟨rfl, -⟩ | ⟨b, -, -, hn, -⟩
    · exact ⟨vChain, rfl, htip, hlen, fun i hi => hdone i (zero_le i) hi⟩
    · omega
  | succ n ih =>
    rcases hcur with ⟨-, hn⟩ | ⟨b, rfl, ⟨e, he⟩, hn, hup⟩
    · omega
    · have hbe := heightOf_eq he
      have hheight := (ht.graded.height_up htip hup).2
      have hfound : vChain[e.nHeight]? = some vChain[e.nHeight] := getElem?_eq_getElem (by omega)
      rw [fillChain, deref_eq he, ok_bind, hfound]
      dsimp only
      split_ifs with hsame
      · refine ⟨vChain, rfl, htip, hlen, fun i hi => ?_⟩
        rcases lt_or_ge n i with hlt | hge
        · exact hdone i hlt hi
        · rw [hsame, ← hbe] at hfound
          have hbelow := hlinked (heightOf t b) (by omega) b hfound i (by omega)
          rw [hbelow, up_sub hup (by omega) (by omega)]
      · have hset : ∀ i, i ≠ n → (vChain.set e.nHeight (some b))[i]? = vChain[i]? := by
          intro i hi
          rw [getElem?_set_ne (by omega)]
        refine ih ?_ (by rw [length_set]; exact hlen) ?_ ?_
        · rcases ht.parent_cases he with ⟨hp, -, hzero⟩ | ⟨p, hp, hparent, hmem, hstep⟩
          · exact .inl ⟨hp, by omega⟩
          · refine .inr ⟨p, hp, hmem, by omega, ?_⟩
            rw [up_sub hup (by omega) (by omega), hstep, Nat.add_sub_cancel_left,
              up_succ_of_parent hparent]
            rfl
        · intro i hni hi
          rcases eq_or_lt_of_le hni with heq | hlt
          · have hin : i = heightOf t b := by omega
            rw [hin, hup, hbe, getElem?_set_self (by omega)]
          · rw [hset i (by omega)]
            exact hdone i hlt hi
        · intro i hi x hx j hj
          rw [hset i (by omega)] at hx
          rw [hset j (by omega)]
          exact hlinked i (by omega) x hx j hj

/-- `SetTip` puts in the ancestors of the tip, whatever chain was there. -/
theorem setTip_spec [DecidableEq κ] (htip : tip ∈ blocks t) (hchain : IsChain t vChain) :
    ∃ vChain', setTip t vChain (some tip) = .ok vChain' ∧ IsChainOf t tip vChain' := by
  obtain ⟨vChain', hfill, hres⟩ : ∃ vChain', fillChain t (heightOf t tip + 1) (some tip)
      (resize vChain (heightOf t tip + 1)) = .ok vChain' ∧ IsChainOf t tip vChain' := by
    refine ht.fillChain_spec htip _ (.inr ⟨tip, rfl, htip, rfl, ?_⟩) (length_resize ..) ?_
      (hchain.linked_resize _)
    · rw [Nat.sub_self]
      rfl
    · intro i h1 h2
      omega
  obtain ⟨e, he⟩ := htip
  rw [heightOf_eq he] at hfill
  refine ⟨vChain', ?_, hres⟩
  rw [setTip, deref_eq he]
  exact hfill

/-- The chain contains the ancestors of its tip. -/
theorem chainGet_eq_iff (htip : IsChainOf t tip vChain) :
    chainGet vChain (heightOf t b) = some b ↔ Anc (parentOf t) b tip := by
  have hlen := htip.length
  rw [chainGet]
  rcases lt_or_ge (heightOf t tip) (heightOf t b) with hlt | hge
  · rw [if_pos (by omega)]
    refine ⟨nofun, fun h => ?_⟩
    have hle := ht.graded.height_le htip.mem h
    omega
  · rw [if_neg (by omega), Int.toNat_natCast, htip.get _ hge, join_some]
    exact ⟨Anc.of_up, fun h => ht.graded.up_sub_height htip.mem h⟩

/-- The root is below every block. -/
theorem anc_of_root (ha : a ∈ blocks t) (hroot : parentOf t a = none) (hb : b ∈ blocks t) :
    Anc (parentOf t) a b := by
  obtain ⟨g, hup⟩ := ht.graded.exists_up ht.root hb (le_refl (heightOf t b))
  obtain ⟨hg, hheight⟩ := ht.graded.height_up hb hup
  obtain ⟨e, he⟩ := hg
  rcases ht.parent_cases he with ⟨-, hgroot, -⟩ | ⟨p, -, -, -, hstep⟩
  · rw [ht.unique a ha g ⟨e, he⟩ hroot hgroot]
    exact Anc.of_up hup
  · omega

/-- `FindFork` stops at a block of the chain. -/
theorem forkLoop_of_anc [DecidableEq κ] (htip : IsChainOf t tip vChain) (rounds : Nat)
    (hanc : Anc (parentOf t) a tip) :
    ∃ r, forkLoop t vChain rounds (some a) = .ok (some r) ∧ IsLastCommon t a tip r := by
  obtain ⟨e, he⟩ := ht.graded.mem htip.mem hanc
  have hget := (ht.chainGet_eq_iff htip).mpr hanc
  rw [heightOf_eq he] at hget
  refine ⟨a, ?_, .refl a, hanc, fun _ h _ => h⟩
  rw [forkLoop, deref_eq he, ok_bind, if_pos hget]

theorem forkLoop_spec [DecidableEq κ] (htip : IsChainOf t tip vChain) (rounds : Nat)
    (ha : a ∈ blocks t) (hrounds : heightOf t a ≤ rounds) :
    ∃ r, forkLoop t vChain rounds (some a) = .ok (some r) ∧ IsLastCommon t a tip r := by
  induction rounds generalizing a with
  | zero =>
    obtain ⟨e, he⟩ := ha
    -- At height 0 there is the root only, and it is on the chain.
    rcases ht.parent_cases he with ⟨-, hroot, -⟩ | ⟨p, -, -, -, hstep⟩
    · exact ht.forkLoop_of_anc htip 0 (ht.anc_of_root ⟨e, he⟩ hroot htip.mem)
    · omega
  | succ rounds ih =>
    by_cases hanc : Anc (parentOf t) a tip
    · exact ht.forkLoop_of_anc htip _ hanc
    obtain ⟨e, he⟩ := ha
    rcases ht.parent_cases he with ⟨-, hparent, -⟩ | ⟨p, hp, hparent, hmem, hstep⟩
    · exact absurd (ht.anc_of_root ⟨e, he⟩ hparent htip.mem) hanc
    · obtain ⟨r, hr, hlast⟩ := ih hmem (by omega)
      rw [← ht.chainGet_eq_iff htip, heightOf_eq he] at hanc
      rw [forkLoop, deref_eq he, ok_bind, if_neg hanc, hp]
      refine ⟨r, hr, hlast.left.of_parent hparent, hlast.right, fun c hca hct => ?_⟩
      refine hlast.last c (hca.of_ne ?_ hparent) hct
      rintro rfl
      exact hanc (heightOf_eq he ▸ (ht.chainGet_eq_iff htip).mpr hct)

/-- `FindFork` finds the last common ancestor with the tip. -/
theorem findFork_spec [DecidableEq κ] (htip : IsChainOf t tip vChain) (ha : a ∈ blocks t) :
    ∃ r, findFork t vChain (some a) = .ok (some r) ∧ IsLastCommon t a tip r := by
  obtain ⟨a', hlow, hup⟩ := ht.lowerTo_spec (heightOf t tip) ha
  obtain ⟨ha', hsum⟩ := ht.graded.height_up ha hup
  obtain ⟨r, hr, hlast⟩ := ht.forkLoop_spec htip (heightOf t a + 1) ha' (by omega)
  have hlast' := ht.isLastCommon_of_lower ha htip.mem hup hlast
  obtain ⟨e, he⟩ := ha
  have hheight : ((vChain.length : Int) - 1) = heightOf t tip := by
    rw [htip.length]
    omega
  rw [heightOf_eq he] at hlow hr
  refine ⟨r, ?_, hlast'⟩
  rw [findFork, deref_eq he, ok_bind, hheight, hlow, ok_bind, hr]

end Tree

/-! ## What a run keeps -/

section Insert

variable [DecidableEq κ] {t : Index κ} {k : κ} (hk : t k = none) (e : Entry κ)

include hk

variable {b : κ}

/-- The blocks that were there stay as they are. -/
theorem update_of_mem (hb : b ∈ blocks t) : update t k (some e) b = t b := by
  obtain ⟨eb, heb⟩ := hb
  have hne : b ≠ k := by
    rintro rfl
    rw [hk] at heb
    cases heb
  rw [update_of_ne hne]

theorem parentOf_update (hb : b ∈ blocks t) : parentOf (update t k (some e)) b = parentOf t b := by
  rw [parentOf, update_of_mem hk e hb, parentOf]

theorem heightOf_update (hb : b ∈ blocks t) : heightOf (update t k (some e)) b = heightOf t b := by
  rw [heightOf, update_of_mem hk e hb, heightOf]

theorem mem_update (hb : b ∈ blocks t) : b ∈ blocks (update t k (some e)) := by
  obtain ⟨eb, heb⟩ := hb
  exact ⟨eb, by rw [update_of_mem hk e ⟨eb, heb⟩, heb]⟩

theorem Tree.up_update (ht : Tree t) (n : Nat) (hb : b ∈ blocks t) :
    up (parentOf (update t k (some e))) n b = up (parentOf t) n b :=
  up_congr ht.closed (fun _ hb => parentOf_update hk e hb) n hb

/-- The chain is not touched by new blocks. -/
theorem Tree.isChain_update (ht : Tree t) {vChain : List (Option κ)} (h : IsChain t vChain) :
    IsChain (update t k (some e)) vChain := by
  rcases h with rfl | ⟨tip, hmem, hlen, hget⟩
  · exact .inl rfl
  · have hheight := heightOf_update hk e hmem
    refine .inr ⟨tip, mem_update hk e hmem, by rw [hheight, hlen], fun i hi => ?_⟩
    rw [hheight] at hi ⊢
    rw [hget i hi, ht.up_update hk e _ hmem]

end Insert

/-- A first block, and a new one under a known one with its skip pointer, keep the tree. -/
theorem Tree.insert [DecidableEq κ] (ht : Tree t) {k : κ} (hk : t k = none) {e : Entry κ}
    (hprev : ∀ p, e.pprev = some p → p ∈ blocks t ∧ e.nHeight = heightOf t p + 1)
    (hfirst : e.pprev = none → e.nHeight = 0 ∧ ∀ b, b ∉ blocks t)
    (hskip : ∀ q, e.pskip = some q → ∃ p, e.pprev = some p ∧
      up (parentOf t) (heightOf t p - getSkipHeight e.nHeight) p = some q) :
    Tree (update t k (some e)) := by
  have hself : update t k (some e) k = some e := update_self ..
  have hparent := parentOf_eq hself
  have hheight := heightOf_eq hself
  -- A block is the new one, or one of those that were there.
  have hcases : ∀ b ∈ blocks (update t k (some e)), b = k ∨ b ∈ blocks t := by
    rintro b ⟨eb, heb⟩
    by_cases hbk : b = k
    · exact .inl hbk
    · rw [update_of_ne hbk] at heb
      exact .inr ⟨eb, heb⟩
  refine ⟨fun b hb p hp => ?_, fun b hb p hp => ?_, fun b hb hnone => ?_,
    fun b hb b' hb' h h' => ?_,
    fun b eb q heb hq => ?_⟩
  · rcases hcases b hb with rfl | hold
    · rw [hparent] at hp
      exact mem_update hk e (hprev p hp).1
    · rw [parentOf_update hk e hold] at hp
      exact mem_update hk e (ht.closed b hold p hp)
  · rcases hcases b hb with rfl | hold
    · rw [hparent] at hp
      rw [hheight, heightOf_update hk e (hprev p hp).1, (hprev p hp).2]
    · rw [parentOf_update hk e hold] at hp
      rw [heightOf_update hk e hold, heightOf_update hk e (ht.closed b hold p hp)]
      exact ht.height b hold p hp
  · rcases hcases b hb with rfl | hold
    · rw [hheight]
      exact (hfirst (hparent ▸ hnone)).1
    · rw [heightOf_update hk e hold]
      exact ht.root b hold (parentOf_update hk e hold ▸ hnone)
  · rcases hcases b hb with rfl | hold <;> rcases hcases b' hb' with rfl | hold'
    · rfl
    · exact absurd hold' ((hfirst (hparent ▸ h)).2 b')
    · exact absurd hold ((hfirst (hparent ▸ h')).2 b)
    · exact ht.unique b hold b' hold' (parentOf_update hk e hold ▸ h)
        (parentOf_update hk e hold' ▸ h')
  · rcases hcases b ⟨eb, heb⟩ with rfl | hold
    · rw [hself, some.injEq] at heb
      rw [← heb] at hq ⊢
      obtain ⟨p, hp, hup⟩ := hskip q hq
      obtain ⟨hmem, hsucc⟩ := hprev p hp
      have hlt : getSkipHeight e.nHeight < e.nHeight := getSkipHeight_lt (by omega)
      have hsub : e.nHeight - getSkipHeight e.nHeight = heightOf t p - getSkipHeight
          e.nHeight + 1 := by
        omega
      rw [hsub, up_succ_of_parent (hparent.trans hp), ht.up_update hk e _ hmem, hup]
    · rw [update_of_mem hk e hold] at heb
      rw [ht.up_update hk e _ hold]
      exact ht.skip b eb q heb hq

/-- What holds in every state of a run. -/
structure Inv (s : State κ) : Prop where
  tree : Tree s.index
  chain : IsChain s.index s.vChain

/-- After the tip is set, the chain is that of the tip. -/
theorem Inv.step_setTip [DecidableEq κ] {s : State κ} {tip : κ} (h : Inv s)
    (htip : tip ∈ blocks s.index) :
    ∃ vChain', step s (.setTip (some tip)) = .ok (⟨s.index, vChain'⟩, ()) ∧
      IsChainOf s.index tip vChain' := by
  obtain ⟨vChain', hset, hres⟩ := h.tree.setTip_spec htip h.chain
  exact ⟨vChain', by rw [SkipList.step, hset]; rfl, hres⟩

/-- No step goes wrong, and each keeps the tree and the chain. -/
theorem Inv.step [DecidableEq κ] {s : State κ} {op : Op κ} (h : Inv s) (hguard : guard s op) :
    ∃ s', SkipList.step s op = .ok (s', ()) ∧ Inv s' := by
  match op with
  | .insert k none =>
    have hempty : ∀ b, b ∉ blocks s.index := fun b ⟨e, he⟩ => nomatch (hguard b).symm.trans he
    exact ⟨_, rfl, h.tree.insert (hguard k) (by rintro _ ⟨⟩) (fun _ => ⟨rfl, hempty⟩)
      (by rintro _ ⟨⟩),
      h.tree.isChain_update (hguard k) _ h.chain⟩
  | .insert k (some prev) =>
    obtain ⟨hk, ep, hep⟩ := hguard
    have hskip : getSkipHeight (heightOf s.index prev + 1) < heightOf s.index prev + 1 :=
      getSkipHeight_lt (by omega)
    obtain ⟨skip, hanc, hup⟩ := h.tree.getAncestor_spec (b := prev) ⟨ep, hep⟩ (le_of_lt_succ hskip)
    rw [SkipList.step, newHeight, deref_eq hep, ok_bind]
    change ∃ s', (buildSkip s.index ⟨some prev, none, ep.nHeight + 1⟩ >>= _) = _ ∧ _
    rw [buildSkip]
    dsimp only
    rw [← heightOf_eq hep, hanc]
    refine ⟨_, rfl, h.tree.insert hk ?_ (by rintro ⟨⟩) ?_, h.tree.isChain_update hk _ h.chain⟩
    · rintro _ ⟨⟩
      exact ⟨⟨ep, hep⟩, rfl⟩
    · rintro _ ⟨⟩
      exact ⟨prev, rfl, hup⟩
  | .setTip none => exact ⟨_, rfl, h.tree, .inl rfl⟩
  | .setTip (some tip) =>
    obtain ⟨vChain', hset, hres⟩ := h.step_setTip hguard
    exact ⟨_, hset, h.tree, .inr ⟨tip, hres⟩⟩

theorem inv_initial : Inv (initial : State κ) := by
  have hnone : ∀ b : κ, b ∉ blocks (initial : State κ).index := by
    rintro b ⟨e, he⟩
    cases he
  refine ⟨⟨fun b hb => absurd hb (hnone b), fun b hb => absurd hb (hnone b),
    fun b hb => absurd hb (hnone b), fun b hb => absurd hb (hnone b), fun b e _ he => ?_⟩, .inl rfl⟩
  exact absurd ⟨e, he⟩ (hnone b)

/-- In every state of a run of insertions and settings of the tip, no operation goes wrong, `SetTip`
makes the block that it is given the tip, or empties the chain, `GetAncestor` returns what steps
along `pprev` lead to, `LastCommonAncestor` returns the deepest block that is an ancestor of both,
the vector of the chain has the ancestors of the tip by height, and `FindFork` returns the last
common ancestor with the tip. -/
theorem reachable_walks [DecidableEq κ] {s : State κ}
    (hs : Machine.Reachable guard step (initial : State κ) s) :
    (∀ op, guard s op → ∃ s', step s op = .ok (s', ())) ∧
    (∀ tip ∈ blocks s.index, ∃ vChain', step s (.setTip (some tip)) = .ok (⟨s.index, vChain'⟩, ()) ∧
      chainTip vChain' = some tip) ∧
    step s (.setTip none) = .ok (⟨s.index, []⟩, ()) ∧
    (∀ b e, s.index b = some e → ∀ height ≤ e.nHeight, ∃ a,
      getAncestor s.index b height = .ok (some a) ∧
        up (parentOf s.index) (e.nHeight - height) b = some a) ∧
    (∀ a b, a ∈ blocks s.index → b ∈ blocks s.index → ∃ r,
      lastCommonAncestor s.index a b = .ok (some r) ∧ IsLastCommon s.index a b r) ∧
    (s.vChain ≠ [] → ∃ tip e, chainTip s.vChain = some tip ∧ s.index tip = some e ∧
      s.vChain.length = e.nHeight + 1 ∧
      (∀ i ≤ e.nHeight, ∃ a, s.vChain[i]? = some (some a) ∧
        up (parentOf s.index) (e.nHeight - i) tip = some a) ∧
      ∀ p ∈ blocks s.index, findFork s.index s.vChain (some p) = lastCommonAncestor s.index p
        tip) := by
  have hinv : Inv s := by
    refine hs.invariant inv_initial fun _ _ _ _ h hg hstep => ?_
    obtain ⟨s', hok, hinv'⟩ := h.step hg
    rw [hok] at hstep
    cases hstep
    exact hinv'
  refine ⟨fun op hop => (hinv.step hop).imp fun _ h => h.1, fun tip htip => ?_, rfl,
    fun b e he height hle => ?_, fun a b ha hb => ?_, fun hne => ?_⟩
  · obtain ⟨vChain', hset, hres⟩ := hinv.step_setTip htip
    exact ⟨vChain', hset, hres.chainTip_eq⟩
  · rw [← heightOf_eq he] at hle ⊢
    exact hinv.tree.getAncestor_spec ⟨e, he⟩ hle
  · exact hinv.tree.lastCommonAncestor_spec ha hb
  · rcases hinv.chain with hnil | ⟨tip, htip⟩
    · exact absurd hnil hne
    · obtain ⟨e, he⟩ := htip.mem
      have hheight := heightOf_eq he
      refine ⟨tip, e, htip.chainTip_eq, he, by rw [htip.length, hheight], fun i hi => ?_,
        fun p hp => ?_⟩
      · rw [← hheight] at hi ⊢
        obtain ⟨a, ha⟩ := hinv.tree.graded.exists_up hinv.tree.root htip.mem
          (n := heightOf s.index tip - i) (by omega)
        exact ⟨a, by rw [htip.get i hi, ha], ha⟩
      · obtain ⟨r, hr, hlast⟩ := hinv.tree.findFork_spec htip hp
        obtain ⟨r', hr', hlast'⟩ := hinv.tree.lastCommonAncestor_spec hp htip.mem
        rw [hr, hr', hinv.tree.isLastCommon_unique hlast hlast' hp]

/-- A block with one successor, which has two. -/
def forkIndex : Index Nat :=
  Function.update (Function.update (Function.update (Function.update (fun _ => none)
    0 (some ⟨none, none, 0⟩)) 1 (some ⟨some 0, some 0, 1⟩)) 2 (some ⟨some 1, some 0, 2⟩))
    3 (some ⟨some 1, some 0, 2⟩)

/-- First the one and then the other of the two last blocks is the tip. -/
theorem reachable_walks_fork :
    Machine.Reachable guard step initial (⟨forkIndex, [some 0, some 1, some 3]⟩ : State Nat) ∧
    findFork forkIndex [some 0, some 1, some 3] (some 2) = .ok (some 1) ∧
    (∃ vChain', step ⟨forkIndex, [some 0, some 1, some 3]⟩ (.setTip (some 2)) =
      .ok (⟨forkIndex, vChain'⟩, ()) ∧ chainTip vChain' = some 2) ∧
    ∃ r, lastCommonAncestor forkIndex 2 3 = .ok (some r) ∧ IsLastCommon forkIndex 2 3 r := by
  have h0 : Machine.Reachable guard step (initial : State Nat) initial := .init
  have h1 := h0.step (show guard _ (.insert 0 none) from fun _ => rfl) rfl
  have h2 := h1.step (show guard _ (.insert 1 (some 0)) from ⟨rfl, _, rfl⟩) rfl
  have h3 := h2.step (show guard _ (.insert 2 (some 1)) from ⟨rfl, _, rfl⟩) rfl
  have h4 : Machine.Reachable guard step initial (⟨forkIndex, []⟩ : State Nat) :=
    h3.step (show guard _ (.insert 3 (some 1)) from ⟨rfl, _, rfl⟩) rfl
  have hset : setTip forkIndex [] (some 2) = .ok [some 0, some 1, some 2] := by decide +kernel
  have hset' : setTip forkIndex [some 0, some 1, some 2]
      (some 3) = .ok [some 0, some 1, some 3] := by
    decide +kernel
  have h5 : Machine.Reachable guard step initial
    (⟨forkIndex, [some 0, some 1, some 2]⟩ : State Nat) :=
    h4.step (show guard _ (.setTip (some 2)) from ⟨_, rfl⟩) (by rw [step, hset]; rfl)
  have h6 : Machine.Reachable guard step initial
    (⟨forkIndex, [some 0, some 1, some 3]⟩ : State Nat) :=
    h5.step (show guard _ (.setTip (some 3)) from ⟨_, rfl⟩) (by rw [step, hset']; rfl)
  obtain ⟨-, htip, -, -, hcommon, -⟩ := reachable_walks h6
  exact ⟨h6, by decide +kernel, htip 2 ⟨_, rfl⟩, hcommon 2 3 ⟨_, rfl⟩ ⟨_, rfl⟩⟩

/-! ## The chain state -/

/-- `SetTip` leaves the path that it does on a chain state with the same blocks. -/
theorem Tree.setTip_chainState {t : Index Uint256} (ht : Tree t) {s : CChainState}
    (h : ∀ b ∈ blocks t, s.parent b = parentOf t b ∧ (s.node b).nHeight = heightOf t b)
    {tip : Uint256} (htip : tip ∈ blocks t) {vChain : List (Option Uint256)}
    (hchain : IsChain t vChain) :
    setTip t vChain (some tip) = .ok ((s.setTip (some tip)).vChain.map some) := by
  have hparent : ∀ b ∈ blocks t, s.parent b = parentOf t b := fun b hb => (h b hb).1
  have hg : Graded s.parent (heightOf t) (blocks t) :=
    ⟨fun b hb => hparent b hb ▸ ht.closed b hb, fun b hb => hparent b hb ▸ ht.height b hb⟩
  obtain ⟨hlen, hget⟩ := hg.pathTo_spec (fun b hb => hparent b hb ▸ ht.root b hb) _ htip rfl
  obtain ⟨vChain', hset, hres⟩ := ht.setTip_spec htip hchain
  rw [hset, CChainState.setTip, (h tip htip).2]
  refine congrArg _ (ext_getElem? fun i => ?_)
  rw [getElem?_map]
  rcases Nat.lt_or_ge (heightOf t tip) i with hi | hi
  · rw [getElem?_eq_none (by rw [hres.length]; omega), getElem?_eq_none (by rw [hlen]; omega)]
    rfl
  · obtain ⟨a, ha⟩ := ht.graded.exists_up ht.root htip (Nat.sub_le _ i)
    have hsum := (ht.graded.height_up htip ha).2
    have hanc := Anc.of_up ((up_congr ht.closed hparent _ htip).trans ha)
    rw [hres.get i hi, ha, (hget i a).mpr ⟨hanc, by omega⟩]
    rfl

end DefcoinCore.SkipList
