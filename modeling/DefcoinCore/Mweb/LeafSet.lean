import DefcoinCore.Lib.Bitmap
import DefcoinCore.Mweb.Models

/-!
# Leaf sets

`ILeafSet`: the leaves of the mountain range of outputs that are unspent, as a bitmap, and the index
of the next leaf. A leaf set is used through its bytes, so it is modelled by them: `LeafSet` is what
a leaf set presents, whether it lies on disk or is a cache over another one (`LeafSetCache`).
-/

namespace DefcoinCore.Mweb

open Bitmap List

/-- `ILeafSet`. -/
@[ext]
structure LeafSet where
  nextLeafIdx : Nat
  getByte : Nat → UInt8

namespace LeafSet

/-- The leaf set of an empty range. -/
def empty : LeafSet := ⟨0, fun _ => 0⟩

variable (s : LeafSet)

/-- `ILeafSet::Contains`. -/
def contains (idx : Nat) : Bool := test s.getByte idx

/-- `ILeafSet::Add`. -/
def add (idx : Nat) : LeafSet :=
  ⟨if idx ≥ s.nextLeafIdx then idx + 1 else s.nextLeafIdx, set s.getByte idx⟩

/-- `ILeafSet::Remove`. -/
def remove (idx : Nat) : LeafSet := { s with getByte := clear s.getByte idx }

/-- The bytes that `ILeafSet::Root` hashes. -/
def rootBytes : List UInt8 := (range ((s.nextLeafIdx + 7) / 8)).map s.getByte

/-- The second loop of `ILeafSet::Rewind`: the leaves from one index up to another are taken out. -/
def removeFrom (first last : Nat) : LeafSet :=
  (range' first (last - first)).foldl remove s

/-- `ILeafSet::Rewind`. -/
def rewind (numLeaves : Nat) (leavesToAdd : List Nat) : LeafSet :=
  let added := leavesToAdd.foldl add s
  { added.removeFrom numLeaves added.nextLeafIdx with nextLeafIdx := numLeaves }

/-! ## What the operations do to the set -/

theorem ext_of_contains {s s' : LeafSet} (hnext : s.nextLeafIdx = s'.nextLeafIdx)
    (h : ∀ i, s.contains i = s'.contains i) : s = s' :=
  LeafSet.ext hnext (ext_of_test h)

@[simp]
theorem contains_empty (i : Nat) : empty.contains i = false := by
  unfold contains empty
  rw [test_eq]
  simp

theorem contains_add (idx i : Nat) :
    (s.add idx).contains i = (s.contains i || decide (i = idx)) := test_set ..

theorem contains_remove (idx i : Nat) :
    (s.remove idx).contains i = (s.contains i && decide (i ≠ idx)) := test_clear ..

theorem nextLeafIdx_add_of_lt {s : LeafSet} {idx : Nat} (h : idx < s.nextLeafIdx) :
    (s.add idx).nextLeafIdx = s.nextLeafIdx := if_neg (by omega)

@[simp]
theorem nextLeafIdx_add_self : (s.add s.nextLeafIdx).nextLeafIdx = s.nextLeafIdx + 1 :=
  if_pos (Nat.le_refl _)

variable (l : List Nat)

theorem contains_foldl_add (s : LeafSet) (i : Nat) :
    (l.foldl add s).contains i = (s.contains i || decide (i ∈ l)) := by
  have hbytes : (l.foldl add s).getByte = l.foldl set s.getByte :=
    (foldl_hom getByte fun _ _ => rfl).symm
  rw [contains, hbytes]
  exact test_foldl_set ..

/-- Leaves below the next one do not move it. -/
theorem nextLeafIdx_foldl_add {l : List Nat} {s : LeafSet} (h : ∀ i ∈ l, i < s.nextLeafIdx) :
    (l.foldl add s).nextLeafIdx = s.nextLeafIdx := by
  induction l generalizing s with
  | nil => rfl
  | cons idx l ih =>
    have hidx := nextLeafIdx_add_of_lt (h idx mem_cons_self)
    rw [foldl_cons, ih, hidx]
    intro i hi
    rw [hidx]
    exact h i (mem_cons_of_mem idx hi)

theorem foldl_remove (s : LeafSet) :
    l.foldl remove s = ⟨s.nextLeafIdx, l.foldl clear s.getByte⟩ := by
  induction l generalizing s with
  | nil => rfl
  | cons idx l ih => exact ih (s.remove idx)

theorem contains_foldl_remove (s : LeafSet) (i : Nat) :
    (l.foldl remove s).contains i = (s.contains i && decide (i ∉ l)) := by
  rw [foldl_remove]
  exact test_foldl_clear ..

@[simp]
theorem nextLeafIdx_foldl_remove (s : LeafSet) :
    (l.foldl remove s).nextLeafIdx = s.nextLeafIdx := by
  rw [foldl_remove]

theorem contains_removeFrom (first last i : Nat) :
    (s.removeFrom first last).contains i = (s.contains i && decide (¬(first ≤ i ∧ i < last))) := by
  unfold removeFrom
  rw [contains_foldl_remove]
  congr 1
  rw [decide_eq_decide, mem_range'_1]
  omega

@[simp]
theorem nextLeafIdx_rewind (numLeaves : Nat) (leavesToAdd : List Nat) :
    (s.rewind numLeaves leavesToAdd).nextLeafIdx = numLeaves := rfl

/-- A rewind puts the leaves in and takes out those from the new next leaf up to the old one. -/
theorem contains_rewind {s : LeafSet} {leavesToAdd : List Nat}
    (h : ∀ i ∈ leavesToAdd, i < s.nextLeafIdx) (numLeaves i : Nat) :
    (s.rewind numLeaves leavesToAdd).contains i =
      ((s.contains i || decide (i ∈ leavesToAdd)) &&
        decide (¬(numLeaves ≤ i ∧ i < s.nextLeafIdx))) := by
  show ((leavesToAdd.foldl add s).removeFrom numLeaves
    (leavesToAdd.foldl add s).nextLeafIdx).contains i = _
  rw [contains_removeFrom, contains_foldl_add, nextLeafIdx_foldl_add h]

/-- Taking out leaves that are not there changes nothing. -/
theorem removeFrom_eq_self {s : LeafSet} {first last : Nat}
    (h : ∀ i, first ≤ i → i < last → s.contains i = false) : s.removeFrom first last = s := by
  apply ext_of_contains
  · exact nextLeafIdx_foldl_remove ..
  · intro i
    rw [contains_removeFrom]
    by_cases hi : first ≤ i ∧ i < last
    · rw [h i hi.1 hi.2, Bool.false_and]
    · rw [decide_eq_true hi, Bool.and_true]

end LeafSet

/-! ## Caches -/

/-- `LeafSetCache`: the bytes that differ from the leaf set below. -/
structure LeafSetCache where
  nextLeafIdx : Nat
  modifiedBytes : Nat → Option UInt8

namespace LeafSetCache

/-- What the cache presents: `LeafSetCache::GetByte`, over the leaf set below. -/
def present (s : LeafSetCache) (backed : LeafSet) : LeafSet :=
  ⟨s.nextLeafIdx, fun byteIdx => (s.modifiedBytes byteIdx).getD (backed.getByte byteIdx)⟩

/-- `LeafSetCache::SetByte`. -/
def setByte (s : LeafSetCache) (byteIdx : Nat) (value : UInt8) : LeafSetCache :=
  { s with modifiedBytes := Function.update s.modifiedBytes byteIdx (some value) }

/-- `ILeafSet::Add`, on a cache. -/
def add (backed : LeafSet) (s : LeafSetCache) (idx : Nat) : LeafSetCache :=
  { s.setByte (idx / 8) ((s.present backed).getByte (idx / 8) ||| bitToByte (idx % 8)) with
    nextLeafIdx := if idx ≥ s.nextLeafIdx then idx + 1 else s.nextLeafIdx }

/-- `ILeafSet::Remove`, on a cache. -/
def remove (backed : LeafSet) (s : LeafSetCache) (idx : Nat) : LeafSetCache :=
  s.setByte (idx / 8) ((s.present backed).getByte (idx / 8) &&& (0xff ^^^ bitToByte (idx % 8)))

/-- `ILeafSet::Rewind`, on a cache. -/
def rewind (backed : LeafSet) (s : LeafSetCache) (numLeaves : Nat) (leavesToAdd : List Nat) :
    LeafSetCache :=
  let added := leavesToAdd.foldl (add backed) s
  { (range' numLeaves (added.nextLeafIdx - numLeaves)).foldl (remove backed) added with
    nextLeafIdx := numLeaves }

/-- `LeafSetCache::ApplyUpdates`. -/
def applyUpdates (s child : LeafSetCache) : LeafSetCache :=
  ⟨child.nextLeafIdx, fun byteIdx => (child.modifiedBytes byteIdx).or (s.modifiedBytes byteIdx)⟩

/-- The cache after its changes have gone to the leaf set below. -/
def flushed (s : LeafSetCache) : LeafSetCache := ⟨s.nextLeafIdx, fun _ => none⟩

variable (backed : LeafSet) (s : LeafSetCache)

theorem present_setByte (byteIdx : Nat) (value : UInt8) :
    (s.setByte byteIdx value).present backed =
      ⟨s.nextLeafIdx, Function.update (s.present backed).getByte byteIdx value⟩ := by
  refine LeafSet.ext rfl (funext fun k => ?_)
  by_cases hk : k = byteIdx
  · simp [hk, present, setByte]
  · simp [present, setByte, Function.update_of_ne hk]

theorem present_add (idx : Nat) : (add backed s idx).present backed =
    (s.present backed).add idx := by
  have hset := congrArg LeafSet.getByte (present_setByte backed s (idx / 8)
    ((s.present backed).getByte (idx / 8) ||| bitToByte (idx % 8)))
  exact LeafSet.ext rfl hset

theorem present_remove (idx : Nat) :
    (remove backed s idx).present backed = (s.present backed).remove idx :=
  present_setByte ..

theorem present_foldl_add (l : List Nat) :
    (l.foldl (add backed) s).present backed = l.foldl LeafSet.add (s.present backed) :=
  (foldl_hom (present · backed) fun s idx => (present_add backed s idx).symm).symm

theorem present_foldl_remove (l : List Nat) :
    (l.foldl (remove backed) s).present backed = l.foldl LeafSet.remove (s.present backed) :=
  (foldl_hom (present · backed) fun s idx => (present_remove backed s idx).symm).symm

theorem present_rewind (numLeaves : Nat) (leavesToAdd : List Nat) :
    (rewind backed s numLeaves leavesToAdd).present backed =
      (s.present backed).rewind numLeaves leavesToAdd := by
  have hadd := present_foldl_add backed s leavesToAdd
  unfold LeafSet.rewind
  rw [← hadd]
  have hremove := present_foldl_remove backed (leavesToAdd.foldl (add backed) s)
  exact LeafSet.ext rfl (congrArg LeafSet.getByte (hremove _) :)

/-- What is written to a cache is then presented by it. -/
theorem present_applyUpdates (child : LeafSetCache) :
    (s.applyUpdates child).present backed = child.present (s.present backed) := by
  refine LeafSet.ext rfl (funext fun k => ?_)
  show ((child.modifiedBytes k).or (s.modifiedBytes k)).getD _ =
    (child.modifiedBytes k).getD ((s.modifiedBytes k).getD _)
  cases child.modifiedBytes k <;> rfl

/-- A cache without changes presents the bytes below it. -/
theorem present_flushed (h : backed.nextLeafIdx = s.nextLeafIdx) :
    s.flushed.present backed = backed :=
  LeafSet.ext h.symm rfl

end LeafSetCache

/-- `LeafSet::ApplyUpdates`, on disk. After a rewind the leaves above the next one are cleared. -/
def LeafSet.applyUpdates (s : LeafSet) (child : LeafSetCache) : LeafSet :=
  { (child.present s).removeFrom child.nextLeafIdx s.nextLeafIdx with
    nextLeafIdx := child.nextLeafIdx }

/-- What is written to disk is then presented by it, if the cache has cleared the leaves above its
next one. -/
theorem LeafSet.applyUpdates_eq {s : LeafSet} {child : LeafSetCache}
    (h : ∀ i, child.nextLeafIdx ≤ i → (child.present s).contains i = false) :
    s.applyUpdates child = child.present s := by
  unfold applyUpdates
  rw [removeFrom_eq_self fun i hi _ => h i hi]
  rfl

end DefcoinCore.Mweb
