import DefcoinCore.Lib.Buffer
import DefcoinCore.Lib.Machine
import DefcoinCore.Lib.PartialMap
import DefcoinCore.Mweb.MmrIndex

/-!
# Mountain ranges in memory, on disk and in caches

The three classes behind `IMMR`: `MemMMR` keeps the leaves and the hashes of a range in memory,
`PMMR` keeps the hashes in an append-only file and the leaves in the database, and `PMMRCache` keeps
the leaves that were added on top of another range. All of them add a leaf in the same way, and each
reads the hashes from where it keeps them: by node position, by byte offset in the file or in the
buffer behind it, or by the distance from the first node of the cache.

A stack of caches is specified by the list of its leaves: whatever was added, taken back and
flushed, the top layer presents the range of that list. There is one exception. `MemMMR::BatchWrite`
does nothing, so leaves that are flushed from a cache onto a `MemMMR` are gone (`run_refines` and
`flush_loses_leaf`).
-/

namespace DefcoinCore.Mweb

open Mmr List Option Nat Hash Index

variable {δ : Type}

/-! ## The code -/

/-- `Hasher`, on what a node is hashed from. -/
abbrev Hasher (δ : Type) := Mmr.Input Hash δ → Hash

/-- `mmr::Leaf`. -/
structure Leaf (δ : Type) where
  index : Nat
  hash : Hash
  data : δ
  deriving DecidableEq

/-- `Leaf::Create`. -/
def Leaf.create (hash : Hasher δ) (index : Nat) (data : δ) : Leaf δ :=
  ⟨index, hash (.leaf (leafPosition index) data), data⟩

/-- The indices that follow a leaf, up to the next one. Their heights rise from one on, so there are
less than 64 of them. -/
def parentIndices (leafIndex : Nat) : List Index :=
  ((List.range 64).map fun k => atPos (leafPosition leafIndex + 1 + k)).takeWhile fun nextIdx =>
    !nextIdx.isLeaf

section AddLeaf

variable {σ : Type} (hash : Hasher δ) (read : σ → Index → Except Fault Hash) (push : σ → Hash → σ)

/-- One round of the loop of `AddLeaf`: a parent is hashed and added. -/
def appendParent (acc : σ × Hash) (nextIdx : Index) : Except Fault (σ × Hash) := do
  let leftChild ← nextIdx.getLeftChild
  let leftHash ← read acc.1 leftChild
  let rightHash := hash (.parent nextIdx.position leftHash acc.2)
  pure (push acc.1 rightHash, rightHash)

/-- The hashes that `AddLeaf` adds: that of the leaf, and those of the parents that it completes. -/
def appendNodes (nodes : σ) (leaf : Leaf δ) : Except Fault σ := do
  let acc ← (parentIndices leaf.index).foldlM (appendParent hash read push)
    (push nodes leaf.hash, leaf.hash)
  pure acc.1

end AddLeaf

/-- A hash of a vector, with the assertion that it is there. -/
def readNode (nodes : List Hash) (position : Nat) : Except Fault Hash :=
  match nodes[position]? with
  | some hash => .ok hash
  | none => .error .assertion

/-- `MemMMR`. -/
structure MemMMR (δ : Type) where
  hashes : List Hash
  leaves : List (Leaf δ)

namespace MemMMR

/-- `MemMMR()`. -/
def empty : MemMMR δ := ⟨[], []⟩

/-- `MemMMR::GetHash`. -/
def getHash (m : MemMMR δ) (idx : Index) : Except Fault Hash := readNode m.hashes idx.position

/-- `MemMMR::GetLeaf`. -/
def getLeaf (m : MemMMR δ) (leafIdx : Nat) : Except Fault (Leaf δ) :=
  match m.leaves[leafIdx]? with
  | some leaf => .ok leaf
  | none => .error .assertion

/-- `MemMMR::GetNumLeaves`. -/
def getNumLeaves (m : MemMMR δ) : Nat := m.leaves.length

/-- `MemMMR::AddLeaf`. -/
def addLeaf (hash : Hasher δ) (m : MemMMR δ) (leaf : Leaf δ) : Except Fault (MemMMR δ) := do
  let hashes ← appendNodes hash (fun hashes idx => readNode hashes idx.position)
    (fun hashes hash => hashes ++ [hash]) m.hashes leaf
  pure ⟨hashes, m.leaves ++ [leaf]⟩

/-- `IMMR::Add`. -/
def add (hash : Hasher δ) (m : MemMMR δ) (data : δ) : Except Fault (MemMMR δ) :=
  m.addLeaf hash (Leaf.create hash m.getNumLeaves data)

/-- A range with given leaves, built from scratch. -/
def ofLeaves (hash : Hasher δ) (leaves : List δ) : Except Fault (MemMMR δ) :=
  leaves.foldlM (add hash) empty

end MemMMR

/-- `AppendOnlyFile`, with the bytes of its file. -/
structure AppendOnlyFile where
  file : List UInt8
  fileSize : Nat
  bufferIndex : Nat
  buffer : List UInt8

namespace AppendOnlyFile

/-- `AppendOnlyFile::Load`, of a file with given bytes. -/
def load (file : List UInt8) : AppendOnlyFile := ⟨file, file.length, file.length, []⟩

variable (f : AppendOnlyFile)

/-- `AppendOnlyFile::Append`. -/
def append (data : List UInt8) : AppendOnlyFile := { f with buffer := f.buffer ++ data }

/-- `AppendOnlyFile::GetSize`. -/
def getSize : Nat := f.bufferIndex + f.buffer.length

/-- `AppendOnlyFile::Rewind`. -/
def rewind (f : AppendOnlyFile) (nextPosition : Nat) : Except Fault AppendOnlyFile := do
  reject (decide (f.fileSize ≠ f.bufferIndex)) .assertion
  reject (decide (nextPosition > f.bufferIndex + f.buffer.length))
    (.exception "Tried to rewind past end")
  if nextPosition ≤ f.bufferIndex then pure { f with buffer := [], bufferIndex := nextPosition }
  else pure { f with buffer := f.buffer.take (nextPosition - f.bufferIndex) }

/-- `MemMap::Read`. An empty file is not mapped. -/
def readMapped (position numBytes : Nat) : Except Fault (List UInt8) := do
  reject (decide (f.file.length < position + numBytes ∨ f.file = [])) .assertion
  pure ((f.file.drop position).take numBytes)

/-- `AppendOnlyFile::Read`. -/
def read (f : AppendOnlyFile) (position numBytes : Nat) : Except Fault (List UInt8) := do
  reject (decide (position + numBytes > f.bufferIndex + f.buffer.length))
    (.exception "Tried to read past end")
  if position < f.bufferIndex then f.readMapped position numBytes
  else pure ((f.buffer.drop (position - f.bufferIndex)).take numBytes)

/-- The bytes that `AppendOnlyFile::Commit` leaves in the new file. -/
def committed : List UInt8 :=
  if f.fileSize ≠ f.bufferIndex ∨ f.buffer ≠ [] then f.file.take f.bufferIndex ++
    f.buffer else f.file

/-- `AppendOnlyFile::Commit`. -/
def commit : Except Fault AppendOnlyFile := do
  reject (decide (f.fileSize < f.bufferIndex)) (.exception "Buffer index is past the end")
  pure (load f.committed)

end AppendOnlyFile

/-- `PMMR`, without pruned nodes. The database is that of its leaves. -/
structure PMMR (δ : Type) where
  hashFile : AppendOnlyFile
  leaves : List (Leaf δ)
  leafMap : Nat → Option Nat
  database : Nat → Option δ

namespace PMMR

/-- `PMMR::Open`. -/
def load (file : List UInt8) (database : Nat → Option δ) : PMMR δ :=
  ⟨.load file, [], fun _ => none, database⟩

/-- `PMMR::GetHash`: a hash has 32 bytes. -/
def readHash (f : AppendOnlyFile) (idx : Index) : Except Fault Hash := do
  let bytes ← f.read (idx.position * 32) 32
  pure (hashOfBytes bytes)

/-- `PMMR::GetLeaf`. -/
def getLeaf (hash : Hasher δ) (p : PMMR δ) (idx : Nat) : Except Fault (Leaf δ) :=
  match p.leafMap idx with
  | some i =>
    match p.leaves[i]? with
    | some leaf => .ok leaf
    | none => .error .assertion
  | none =>
    match p.database idx with
    | some data => .ok (Leaf.create hash idx data)
    | none => .error (.exception "Can't get leaf")

/-- `PMMR::GetNumLeaves`. -/
def getNumLeaves (p : PMMR δ) : Except Fault Nat := (atPos (p.hashFile.getSize / 32)).getLeafIndex

/-- `PMMR::AddLeaf`. -/
def addLeaf (hash : Hasher δ) (p : PMMR δ) (leaf : Leaf δ) : Except Fault (PMMR δ) := do
  let hashFile ← appendNodes hash readHash (fun f hash => f.append (vec hash)) p.hashFile leaf
  pure { p with
    hashFile := hashFile
    leaves := p.leaves ++ [leaf]
    leafMap := Function.update p.leafMap leaf.index (some p.leaves.length) }

/-- `PMMR::Rewind`. -/
def rewind (p : PMMR δ) (numLeaves : Nat) : Except Fault (PMMR δ) := do
  let hashFile ← p.hashFile.rewind (leafPosition numLeaves * 32)
  pure { p with hashFile := hashFile }

/-- `PMMR::BatchWrite`, and the commit of the batch of the database. -/
def batchWrite (hash : Hasher δ) (p : PMMR δ) (firstLeafIdx : Nat) (leaves : List (Leaf δ)) :
    Except Fault (PMMR δ) := do
  let p ← p.rewind firstLeafIdx
  let p ← leaves.foldlM (addLeaf hash) p
  let hashFile ← p.hashFile.commit
  pure ⟨hashFile, [], fun _ => none,
    insertAll p.database (p.leaves.map fun leaf => (leaf.index, leaf.data))⟩

end PMMR

/-- `PMMRCache`, apart from its base. -/
structure PMMRCache (δ : Type) where
  firstLeaf : Nat
  leaves : List (Leaf δ)
  nodes : List Hash

namespace PMMRCache

/-- `PMMRCache::GetNextLeafIdx`. -/
def getNextLeafIdx (c : PMMRCache δ) : Nat :=
  match c.leaves.getLast? with
  | none => c.firstLeaf
  | some leaf => leaf.index + 1

/-- `PMMRCache::GetHash`, on a base that is read by `base`. -/
def readHash (base : Index → Except Fault Hash) (firstLeaf : Nat) (nodes : List Hash)
    (idx : Index) :
    Except Fault Hash :=
  if idx.position < leafPosition firstLeaf then base idx
  else readNode nodes (idx.position - leafPosition firstLeaf)

/-- `PMMRCache::AddLeaf`. -/
def addLeaf (hash : Hasher δ) (base : Index → Except Fault Hash) (c : PMMRCache δ)
    (leaf : Leaf δ) : Except Fault (PMMRCache δ) := do
  let nodes ← appendNodes hash (readHash base c.firstLeaf)
    (fun nodes hash => nodes ++ [hash]) c.nodes leaf
  pure { c with leaves := c.leaves ++ [leaf], nodes := nodes }

/-- `IMMR::Add`. -/
def add (hash : Hasher δ) (base : Index → Except Fault Hash) (c : PMMRCache δ) (data : δ) :
    Except Fault (PMMRCache δ) :=
  c.addLeaf hash base (Leaf.create hash c.getNextLeafIdx data)

/-- `PMMRCache::Rewind`. -/
def rewind (c : PMMRCache δ) (numLeaves : Nat) : PMMRCache δ :=
  if numLeaves ≤ c.firstLeaf then ⟨numLeaves, [], []⟩
  else if c.leaves = [] then c
  else
    let rewound : PMMRCache δ := { c with leaves := c.leaves.takeWhile fun leaf =>
      leaf.index < numLeaves }
    { rewound with
      nodes := c.nodes.take (leafPosition rewound.getNextLeafIdx - leafPosition c.firstLeaf) }

end PMMRCache

/-- `IMMR`: a range in memory, one on disk, or a cache over another one. -/
inductive Immr (δ : Type) where
  | mem (m : MemMMR δ)
  | pmmr (p : PMMR δ)
  | cache (base : Immr δ) (c : PMMRCache δ)

namespace Immr

/-- `IMMR::GetNextLeafIdx`. -/
def getNextLeafIdx : Immr δ → Except Fault Nat
  | .mem m => .ok m.getNumLeaves
  | .pmmr p => p.getNumLeaves
  | .cache _ c => .ok c.getNextLeafIdx

/-- `IMMR::GetHash`. -/
def getHash : Immr δ → Index → Except Fault Hash
  | .mem m, idx => m.getHash idx
  | .pmmr p, idx => PMMR.readHash p.hashFile idx
  | .cache base c, idx => PMMRCache.readHash (getHash base) c.firstLeaf c.nodes idx

/-- `IMMR::GetLeaf`. -/
def getLeaf (hash : Hasher δ) : Immr δ → Nat → Except Fault (Leaf δ)
  | .mem m, leafIdx => m.getLeaf leafIdx
  | .pmmr p, leafIdx => p.getLeaf hash leafIdx
  | .cache base c, leafIdx =>
    if leafIdx < c.firstLeaf then getLeaf hash base leafIdx
    else
      match c.leaves[leafIdx - c.firstLeaf]? with
      | some leaf => .ok leaf
      | none => .error (.exception "Attempting to access non-existent leaf")

/-- `IMMR::BatchWrite`. -/
def batchWrite (hash : Hasher δ) :
    Immr δ → Nat → List (Leaf δ) → Except Fault (Immr δ)
  | .mem m, _, _ => .ok (.mem m)
  | .pmmr p, firstLeafIdx, leaves => do
    let p ← p.batchWrite hash firstLeafIdx leaves
    pure (.pmmr p)
  | .cache base c, firstLeafIdx, leaves => do
    let c ← leaves.foldlM (fun c leaf => c.add hash (getHash base) leaf.data)
      (c.rewind firstLeafIdx)
    pure (.cache base c)

/-- One round of the loop of `IMMR::Root`, with a zero hash for none. -/
def bagPeak (hash : Hasher δ) (s : Immr δ) (num_nodes : Nat) (acc : Hash) (idx : Index) :
    Except Fault Hash := do
  let peakHash ← s.getHash idx
  pure (if acc = 0 then peakHash else hash (.parent (atPos num_nodes).position peakHash acc))

/-- `IMMR::Root`. -/
def root (hash : Hasher δ) (s : Immr δ) : Except Fault Hash := do
  let next ← s.getNextLeafIdx
  let peak_indices ← calcPeakIndices (leafPosition next)
  peak_indices.reverse.foldlM (bagPeak hash s (leafPosition next)) 0

end Immr

/-- A cache and the range that it stands on. -/
structure MmrStack (δ : Type) where
  base : Immr δ
  top : PMMRCache δ

/-- What is done to a stack: operations of its top layer, and a new cache over it. -/
inductive MmrOp (δ : Type) where
  | add (data : δ)
  | rewind (numLeaves : Nat)
  | flush
  | push

namespace MmrStack

/-- The top layer, as a range. -/
def toImmr (s : MmrStack δ) : Immr δ := .cache s.base s.top

/-- `PMMRCache()`, over a range. -/
def new (base : Immr δ) : Except Fault (MmrStack δ) := do
  let next ← base.getNextLeafIdx
  pure ⟨base, next, [], []⟩

/-- `PMMRCache::Flush`. -/
def flush (hash : Hasher δ) (s : MmrStack δ) : Except Fault (MmrStack δ) := do
  let base ← s.base.batchWrite hash s.top.firstLeaf s.top.leaves
  pure ⟨base, s.top.getNextLeafIdx, [], []⟩

/-- An operation. -/
def apply (hash : Hasher δ) (s : MmrStack δ) : MmrOp δ → Except Fault (MmrStack δ)
  | .add data => do
    let top ← s.top.add hash s.base.getHash data
    pure ⟨s.base, top⟩
  | .rewind numLeaves => .ok ⟨s.base, s.top.rewind numLeaves⟩
  | .flush => s.flush hash
  | .push => new s.toImmr

end MmrStack

open MmrStack

/-! ## Adding a leaf -/

/-- The parents that a leaf completes. -/
theorem parentIndices_eq {m : Nat} (hm : m < 2 ^ 63) :
    parentIndices m = (range (rank m)).map fun i =>
      nodeIndex (i + 1) ((m + 1) / 2 ^ (i + 1) - 1) := by
  have hpos : leafPosition m = numNodes m := leafPosition_eq (by omega)
  have hsucc := numNodes_succ m
  have hfits := numNodes_lt (show m + 1 ≤ 2 ^ 63 by omega)
  have hrank : rank m < 64 := by
    have hle := le_of_dvd (succ_pos m) (two_pow_dvd_iff.mpr (le_refl (rank m)))
    by_contra hge
    have hpow := Nat.pow_le_pow_right (show 0 < 2 by decide) (show 64 ≤ rank m by omega)
    omega
  have hat : ∀ i < rank m, atPos (leafPosition m + 1 + i) =
      nodeIndex (i + 1) ((m + 1) / 2 ^ (i + 1) - 1) := by
    intro i hi
    have hdvd : 2 ^ (i + 1) ∣ m + 1 := two_pow_dvd_iff.mpr hi
    have hat := atPos_add hdvd (by omega)
    rw [nodeIndex, nodePos_of_dvd hdvd, ← hat, hpos,
      show numNodes m + 1 + i = numNodes m + (i + 1) by omega]
  have hnext : atPos (leafPosition m + 1 + rank m) = ⟨numNodes (m + 1), 0⟩ := by
    have hat := atPos_add (m := m + 1) (i := 0) (by simp) hfits
    rw [hpos, show numNodes m + 1 + rank m = numNodes (m + 1) + 0 by omega]
    exact hat
  have hloop : parentIndices m = (range (rank m)).map fun k => atPos (leafPosition m + 1 + k) := by
    refine takeWhile_map_range hrank.le (fun i hi => ?_) fun _ => ?_
    · rw [hat i hi]
      rfl
    · rw [hnext]
      rfl
  rw [hloop]
  exact map_congr_left fun i hi => hat i (mem_range.mp hi)

section Nodes

variable [Inhabited δ] (hash : Hasher δ)

/-- The data of a leaf. -/
def leafAt (leaves : List δ) (i : Nat) : δ := leaves.getD i default

/-- The hashes of the nodes over a list of leaves. -/
def nodesOf (leaves : List δ) : List Hash := nodes hash (leafAt leaves) leaves.length

/-- The leaves of a list. -/
def leavesOf (leaves : List δ) : List (Leaf δ) := leaves.mapIdx (Leaf.create hash)

variable {leaves : List δ} {i : Nat}

theorem leafAt_append_left (rest : List δ) (hi : i < leaves.length) :
    leafAt (leaves ++ rest) i = leafAt leaves i := by
  unfold leafAt
  rw [getD_eq_getElem?_getD, getD_eq_getElem?_getD, getElem?_append_left hi]

theorem leafAt_take {n : Nat} (hi : i < n) : leafAt (leaves.take n) i = leafAt leaves i := by
  unfold leafAt
  rw [getD_eq_getElem?_getD, getD_eq_getElem?_getD, getElem?_take_of_lt hi]

theorem getElem?_eq_leafAt (hi : i < leaves.length) : leaves[i]? = some (leafAt leaves i) := by
  unfold leafAt
  rw [getD_eq_getElem?_getD, getElem?_eq_getElem hi, getD_some]

theorem length_nodesOf (leaves : List δ) : (nodesOf hash leaves).length = numNodes leaves.length :=
  length_nodes ..

theorem nodesOf_take {n : Nat} (hn : n ≤ leaves.length) :
    nodesOf hash (leaves.take n) = (nodesOf hash leaves).take (numNodes n) := by
  unfold nodesOf
  rw [take_nodes hash _ hn, length_take_of_le hn]
  exact nodes_congr hash fun i hi => leafAt_take hi

theorem nodesOf_append_singleton (leaves : List δ) (data : δ) :
    nodesOf hash (leaves ++ [data]) =
      nodesOf hash leaves ++ newNodes hash (leafAt (leaves ++ [data])) leaves.length := by
  unfold nodesOf
  rw [length_append, length_singleton, nodes]
  congr 1
  exact nodes_congr hash fun i hi => leafAt_append_left _ hi

theorem leafAt_append_self (leaves : List δ) (data : δ) :
    leafAt (leaves ++ [data]) leaves.length = data := by
  unfold leafAt
  rw [getD_eq_getElem?_getD, getElem?_append_right (Nat.le_refl _), Nat.sub_self]
  rfl

section AppendNodes

/- `View nodes l` says that `nodes` keeps the hashes `l`: they can be read, and one is added at
their end. -/
variable {σ : Type} {read : σ → Index → Except Fault Hash} {push : σ → Hash → σ}
  {View : σ → List Hash → Prop} (hpush : ∀ s l x, View s l → View (push s x) (l ++ [x]))
  (hread : ∀ s l idx x, View s l → l[idx.position]? = some x → read s idx = .ok x)

include hpush hread

variable {s : σ}

omit [Inhabited δ] in
/-- A round adds the next of the new nodes. -/
theorem appendParent_spec (leaf : Nat → δ) {m r : Nat} (hr : r < rank m)
    (hs : View s (nodes hash leaf m ++ (newNodes hash leaf m).take (r + 1))) :
    Returns (appendParent hash read push (s, nodeHash hash leaf r ((m + 1) / 2 ^ r - 1))
      (nodeIndex (r + 1) ((m + 1) / 2 ^ (r + 1) - 1))) fun acc =>
        View acc.1 (nodes hash leaf m ++ (newNodes hash leaf m).take (r + 1 + 1)) ∧
          acc.2 = nodeHash hash leaf (r + 1) ((m + 1) / 2 ^ (r + 1) - 1) := by
  obtain ⟨c, hc⟩ : 2 ^ (r + 1) ∣ m + 1 := two_pow_dvd_iff.mpr hr
  have hcpos : 0 < c := pos_of_ne_zero fun h0 => by
    rw [h0, mul_zero] at hc
    omega
  have hhalf : (m + 1) / 2 ^ r - 1 = 2 * (c - 1) + 1 := by
    rw [hc, pow_succ, Nat.mul_assoc, Nat.mul_div_cancel_left _ (Nat.two_pow_pos r)]
    omega
  have hdiv : (m + 1) / 2 ^ (r + 1) - 1 = c - 1 := by
    rw [hc, Nat.mul_div_cancel_left _ (Nat.two_pow_pos (r + 1))]
  -- The left child stands before the new nodes.
  have hle : 2 ^ r * (2 * (c - 1) + 1) ≤ m := by
    have hpow := Nat.two_pow_pos r
    have hsplit : 2 ^ r * (2 * (c - 1) + 1) + 2 ^ r = 2 ^ (r + 1) * (c - 1 + 1) := by ring
    rw [Nat.sub_add_cancel hcpos, ← hc] at hsplit
    omega
  have hleft :
      (nodes hash leaf m ++ (newNodes hash leaf m).take (r + 1))[nodePos r (2 * (c - 1))]? =
      some (nodeHash hash leaf r (2 * (c - 1))) := by
    rw [getElem?_append_left (by rw [length_nodes]; exact nodePos_lt_iff.mpr hle)]
    exact getElem?_nodes hash leaf hle
  have hpushed := hpush s _ (nodeHash hash leaf (r + 1) ((m + 1) / 2 ^ (r + 1) - 1)) hs
  rw [append_assoc, ← take_newNodes hash leaf (show r + 1 ≤ rank m from hr)] at hpushed
  rw [hhalf, hdiv] at *
  unfold appendParent
  rw [getLeftChild_nodeIndex, ok_bind, hread s _ (nodeIndex r (2 * (c - 1))) _ hs hleft, ok_bind]
  exact ⟨hpushed, rfl⟩

omit [Inhabited δ] in
/-- After `r` rounds the first `r + 1` of the new nodes are there, and the last one is kept. -/
theorem appendParents_spec (leaf : Nat → δ) {m r : Nat} (hr : r ≤ rank m)
    (hs : View s (nodes hash leaf m ++ (newNodes hash leaf m).take 1)) :
    Returns (((range r).map fun i => nodeIndex (i + 1) ((m + 1) / 2 ^ (i + 1) - 1)).foldlM
      (appendParent hash read push) (s, nodeHash hash leaf 0 ((m + 1) / 2 ^ 0 - 1))) fun acc =>
        View acc.1 (nodes hash leaf m ++ (newNodes hash leaf m).take (r + 1)) ∧
          acc.2 = nodeHash hash leaf r ((m + 1) / 2 ^ r - 1) := by
  induction r with
  | zero => exact ⟨hs, rfl⟩
  | succ r ih =>
    rw [range_succ, map_append, foldlM_append, map_singleton]
    refine (ih (by omega)).bind ?_
    rintro ⟨s1, _⟩ ⟨hview, rfl⟩
    exact (appendParent_spec hash hpush hread leaf (by omega) hview).bind fun _ h => h

/-- What is added for a leaf makes the nodes of a list those of the list with the leaf. -/
theorem appendNodes_spec {leaves : List δ} (data : δ) (hfits : leaves.length < 2 ^ 63)
    (hs : View s (nodesOf hash leaves)) :
    Returns (appendNodes hash read push s (Leaf.create hash leaves.length data)) fun s' =>
      View s' (nodesOf hash (leaves ++ [data])) := by
  have hnodes : nodesOf hash leaves = nodes hash (leafAt (leaves ++ [data])) leaves.length :=
    nodes_congr hash fun i hi => (leafAt_append_left _ hi).symm
  have hleaf : (Leaf.create hash leaves.length data).hash =
      nodeHash hash (leafAt (leaves ++ [data])) 0 ((leaves.length + 1) / 2 ^ 0 - 1) := by
    rw [pow_zero, Nat.div_one, Nat.add_sub_cancel, nodeHash, leafAt_append_self,
      ← leafPosition_eq (by omega)]
    rfl
  have hfirst : (newNodes hash (leafAt (leaves ++ [data])) leaves.length).take 1 =
      [nodeHash hash (leafAt (leaves ++ [data])) 0 ((leaves.length + 1) / 2 ^ 0 - 1)] :=
    take_newNodes hash _ (zero_le _)
  have hpushed := hpush s _ (Leaf.create hash leaves.length data).hash hs
  rw [hleaf, hnodes, ← hfirst] at hpushed
  unfold appendNodes
  rw [show (Leaf.create hash leaves.length data).index = leaves.length from rfl,
    parentIndices_eq hfits,
    hleaf, nodesOf_append_singleton, hnodes]
  refine (appendParents_spec hash hpush hread _ (le_refl _) hpushed).bind fun acc hacc => ?_
  have hview := hacc.1
  rwa [take_of_length_le (length_newNodes ..).le] at hview

end AppendNodes

omit [Inhabited δ] in
theorem length_leavesOf (leaves : List δ) : (leavesOf hash leaves).length = leaves.length :=
  length_mapIdx

theorem getElem?_leavesOf (hi : i < leaves.length) :
    (leavesOf hash leaves)[i]? = some (Leaf.create hash i (leafAt leaves i)) := by
  unfold leavesOf
  rw [getElem?_mapIdx, getElem?_eq_leafAt hi, map_some]

omit [Inhabited δ] in
theorem leavesOf_take (leaves : List δ) (n : Nat) :
    leavesOf hash (leaves.take n) = (leavesOf hash leaves).take n := by
  apply ext_getElem?
  intro i
  unfold leavesOf
  rw [getElem?_mapIdx, getElem?_take, getElem?_take, getElem?_mapIdx]
  split_ifs
  · rfl
  · rfl

omit [Inhabited δ] in
theorem leavesOf_append_singleton (leaves : List δ) (data : δ) :
    leavesOf hash (leaves ++ [data]) = leavesOf hash leaves ++
      [Leaf.create hash leaves.length data] :=
  mapIdx_concat

omit [Inhabited δ] in
theorem map_data_leavesOf (leaves : List δ) : (leavesOf hash leaves).map (·.data) = leaves := by
  apply ext_getElem?
  intro i
  unfold leavesOf
  rw [getElem?_map, getElem?_mapIdx, Option.map_map]
  exact Option.map_id'

end Nodes

/-! ## The file -/

namespace AppendOnlyFile

/-- A file with its buffer keeps a list of hashes. -/
structure Keeps (f : AppendOnlyFile) (l : List Hash) : Prop where
  size : f.fileSize = f.file.length
  aligned : 32 ∣ f.bufferIndex
  bound : f.bufferIndex ≤ f.file.length
  bytes : f.file.take f.bufferIndex ++ f.buffer = l.flatMap vec

variable {l : List Hash} {f : AppendOnlyFile}

theorem length_flatMap_vec (l : List Hash) : (l.flatMap vec).length = 32 * l.length := by
  rw [length_flatMap]
  induction l with
  | nil => rfl
  | cons x l ih =>
    rw [map_cons, sum_cons, ih, length_cons, vec, length_natBytes]
    omega

/-- The bytes of a hash stand at 32 times its position. -/
theorem take_drop_flatMap_vec {p : Nat} {x : Hash} (h : l[p]? = some x) :
    ((l.flatMap vec).drop (p * 32)).take 32 = vec x := by
  induction l generalizing p with
  | nil => exact absurd h (by simp)
  | cons y l ih =>
    have hlen : (vec y).length = 32 := length_natBytes 32 _
    rw [flatMap_cons]
    rcases p with _ | p
    · rw [zero_mul, drop_zero, ← hlen, take_left]
      rw [some.inj h]
    · rw [succ_mul, add_comm, drop_append, drop_of_length_le (by omega), nil_append,
        hlen, Nat.add_sub_cancel_left]
      exact ih (by simpa using h)

theorem Keeps.length (h : f.Keeps l) : f.bufferIndex + f.buffer.length = 32 * l.length := by
  have hlen := congrArg List.length h.bytes
  rwa [List.length_append, List.length_take_of_le h.bound, length_flatMap_vec] at hlen

/-- A hash is read from the file or from the buffer, wherever it is. -/
theorem Keeps.readHash (h : f.Keeps l) {idx : Index} {x : Hash} (hx : l[idx.position]? = some x) :
    PMMR.readHash f idx = .ok x := by
  have hlen := h.length
  obtain ⟨hlt, -⟩ := List.getElem?_eq_some_iff.mp hx
  obtain ⟨q, hq⟩ := h.aligned
  have hbound := h.bound
  have hfile : (f.file.take f.bufferIndex).length = f.bufferIndex := List.length_take_of_le hbound
  have hvec := take_drop_flatMap_vec hx
  rw [← h.bytes] at hvec
  have hread : f.read (idx.position * 32) 32 = .ok (vec x) := by
    unfold AppendOnlyFile.read
    rw [decide_eq_false (show ¬ idx.position * 32 + 32 > f.bufferIndex + f.buffer.length by omega)]
    by_cases hpos : idx.position * 32 < f.bufferIndex
    · rw [drop_append_of_le_length (by omega), take_append_of_le_length (by
        rw [length_drop]; omega), drop_take, take_take, min_eq_left (by omega)] at hvec
      have hcond : ¬ (f.file.length < idx.position * 32 + 32 ∨ f.file = []) := by
        rw [← length_eq_zero_iff]
        omega
      rw [if_pos hpos, ← hvec, readMapped, decide_eq_false hcond]
      rfl
    · rw [drop_append, drop_of_length_le (by omega), nil_append, hfile] at hvec
      rw [if_neg hpos, hvec]
      rfl
  unfold PMMR.readHash
  rw [hread, ok_bind, hashOfBytes_vec]
  rfl

theorem Keeps.append (h : f.Keeps l) (x : Hash) : (f.append (vec x)).Keeps (l ++ [x]) := by
  refine ⟨h.size, h.aligned, h.bound, ?_⟩
  show f.file.take f.bufferIndex ++ (f.buffer ++ vec x) = _
  rw [← append_assoc, h.bytes, flatMap_append, flatMap_singleton]

theorem keeps_load (l : List Hash) : (load (l.flatMap vec)).Keeps l := by
  refine ⟨rfl, ?_, le_refl _, ?_⟩
  · show 32 ∣ (l.flatMap vec).length
    rw [length_flatMap_vec]
    exact dvd_mul_right _ _
  · show (l.flatMap vec).take (l.flatMap vec).length ++ [] = _
    rw [take_length, append_nil]

/-- A file that was just loaded is rewound. -/
theorem rewind_load {n : Nat} (hn : n ≤ l.length) :
    Returns ((load (l.flatMap vec)).rewind (n * 32)) (·.Keeps (l.take n)) := by
  have hlen := length_flatMap_vec l
  unfold rewind load
  dsimp only
  rw [length_nil, decide_eq_false (show ¬ n * 32 > (l.flatMap vec).length + 0 by omega),
    if_pos (by omega)]
  simp only [ne_eq, not_true_eq_false, decide_false]
  refine ⟨rfl, ⟨n, mul_comm n 32⟩, ?_, ?_⟩
  · dsimp only
    omega
  · dsimp only
    rw [append_nil, ← take_append_drop n l, flatMap_append, take_append_of_le_length
      (by rw [length_flatMap_vec, length_take_of_le hn]; omega), take_of_length_le
      (by rw [length_flatMap_vec, length_take_of_le hn]; omega), take_append_drop]

/-- A commit writes what the file keeps. -/
theorem Keeps.commit (h : f.Keeps l) : f.commit = .ok (load (l.flatMap vec)) := by
  have hsize := h.size
  have hcommitted : f.committed = l.flatMap vec := by
    unfold committed
    rw [← h.bytes]
    split_ifs with hcond
    · rfl
    · rw [not_or, not_not, not_not] at hcond
      rw [hcond.2, append_nil, ← hcond.1, hsize, take_length]
  have hbound := h.bound
  unfold AppendOnlyFile.commit
  rw [hcommitted, decide_eq_false (show ¬ f.fileSize < f.bufferIndex by omega)]
  rfl

end AppendOnlyFile

/-! ## What a range presents -/

section Presents

variable [Inhabited δ] (hash : Hasher δ)

/-- A range in memory has given leaves. -/
structure MemMMR.Holds (m : MemMMR δ) (leaves : List δ) : Prop where
  fits : leaves.length < 2 ^ 63
  leaves_eq : m.leaves = leavesOf hash leaves
  hashes_eq : m.hashes = nodesOf hash leaves

/-- A range on disk has given leaves: its file is that of their nodes, and the database has their
data. -/
structure PMMR.Holds (p : PMMR δ) (leaves : List δ) : Prop where
  fits : leaves.length < 2 ^ 63
  file_eq : p.hashFile = .load ((nodesOf hash leaves).flatMap vec)
  leaves_eq : p.leaves = []
  leafMap_eq : p.leafMap = fun _ => none
  database_eq : ∀ i < leaves.length, p.database i = some (leafAt leaves i)

/-- A cache over a range with the leaves `below` makes the leaves `above`: up to its first leaf they
are the same, and from there on the cache has them and their nodes. -/
structure PMMRCache.Over (c : PMMRCache δ) (below above : List δ) : Prop where
  fits : above.length < 2 ^ 63
  le_above : c.firstLeaf ≤ above.length
  le_below : c.firstLeaf ≤ below.length
  common : above.take c.firstLeaf = below.take c.firstLeaf
  leaves_eq : c.leaves = (leavesOf hash above).drop c.firstLeaf
  nodes_eq : c.nodes = (nodesOf hash above).drop (numNodes c.firstLeaf)

/-- A range presents a list of leaves. -/
def Immr.Presents : Immr δ → List δ → Prop
  | .mem m, leaves => m.Holds hash leaves
  | .pmmr p, leaves => p.Holds hash leaves
  | .cache base c, leaves => ∃ below, Presents base below ∧ c.Over hash below leaves

/-- What `PMMR::BatchWrite` has done after some leaves: the file keeps their nodes, and the database
has their data once the leaves that wait for it are put in. -/
structure PMMR.Adding (p : PMMR δ) (leaves : List δ) : Prop where
  keeps : p.hashFile.Keeps (nodesOf hash leaves)
  database : ∀ i < leaves.length,
    insertAll p.database (p.leaves.map fun leaf => (leaf.index, leaf.data)) i =
      some (leafAt leaves i)

variable {hash}

/-! ### The leaves and hashes of each layer -/

variable {c : PMMRCache δ} {above leaves below : List δ} {s : Immr δ} {p : PMMR δ} {first n : Nat}

theorem readNode_eq_ok {nodes : List Hash} {position : Nat} {x : Hash}
    (h : nodes[position]? = some x) :
    readNode nodes position = .ok x := by
  unfold readNode
  rw [h]

/-- The next leaf of a cache comes after all that it makes. -/
theorem PMMRCache.getNextLeafIdx_eq (hle : c.firstLeaf ≤ above.length)
    (hleaves : c.leaves = (leavesOf hash above).drop c.firstLeaf) :
      c.getNextLeafIdx = above.length := by
  unfold getNextLeafIdx
  rw [hleaves, getLast?_drop, length_leavesOf]
  split_ifs with hall
  · exact le_antisymm hle hall
  · have hlast : (leavesOf hash above).getLast? =
        some (Leaf.create hash (above.length - 1) (leafAt above (above.length - 1))) := by
      rw [getLast?_eq_getElem?, length_leavesOf, getElem?_leavesOf hash (by omega)]
    rw [hlast]
    show above.length - 1 + 1 = above.length
    omega

theorem Immr.Presents.fits (h : s.Presents hash leaves) : leaves.length < 2 ^ 63 := by
  cases s with
  | mem m => exact MemMMR.Holds.fits h
  | pmmr p => exact PMMR.Holds.fits h
  | cache base c =>
    obtain ⟨below, -, hover⟩ := h
    exact hover.fits

theorem Immr.Presents.getNextLeafIdx (h : s.Presents hash leaves) :
    s.getNextLeafIdx = .ok leaves.length := by
  cases s with
  | mem m =>
    obtain ⟨-, hleaves, -⟩ := h
    show Except.ok m.leaves.length = _
    rw [hleaves, length_leavesOf]
  | pmmr p =>
    obtain ⟨hfits, hfile, -⟩ := h
    have hsize : p.hashFile.getSize / 32 = numNodes leaves.length := by
      unfold AppendOnlyFile.getSize
      rw [hfile, (AppendOnlyFile.keeps_load _).length, Nat.mul_div_cancel_left _ (by decide),
        length_nodesOf]
    show p.getNumLeaves = _
    unfold PMMR.getNumLeaves
    rw [hsize, getLeafIndex_numNodes (numNodes_lt hfits.le)]
  | cache base c =>
    obtain ⟨below, -, hover⟩ := h
    exact congrArg Except.ok (PMMRCache.getNextLeafIdx_eq hover.le_above hover.leaves_eq)

/-- Below the first leaf of a cache the nodes are those of its base. -/
theorem PMMRCache.Over.getElem?_nodesOf (h : c.Over hash below above) {p : Nat}
    (hp : p < numNodes c.firstLeaf) :
    (nodesOf hash above)[p]? = (nodesOf hash below)[p]? := by
  rw [← getElem?_take_of_lt hp, ← nodesOf_take hash h.le_above, h.common,
    nodesOf_take hash h.le_below,
    getElem?_take_of_lt hp]

theorem PMMRCache.Over.leafPosition_eq (h : c.Over hash below above) :
    leafPosition c.firstLeaf = numNodes c.firstLeaf := by
  have hfits := h.fits
  have hle := h.le_above
  exact Mweb.leafPosition_eq (by omega)

/-- Every hash of the nodes over the leaves is read. -/
theorem Immr.Presents.getHash (h : s.Presents hash leaves) {idx : Index} {x : Hash}
    (hx : (nodesOf hash leaves)[idx.position]? = some x) : s.getHash idx = .ok x := by
  induction s generalizing leaves with
  | mem m =>
    obtain ⟨-, -, hhashes⟩ := h
    exact readNode_eq_ok (hhashes ▸ hx)
  | pmmr p =>
    obtain ⟨-, hfile, -⟩ := h
    show PMMR.readHash p.hashFile idx = _
    rw [hfile]
    exact (AppendOnlyFile.keeps_load _).readHash hx
  | cache base c ih =>
    obtain ⟨below, hbase, hover⟩ := h
    show PMMRCache.readHash base.getHash c.firstLeaf c.nodes idx = _
    unfold PMMRCache.readHash
    rw [hover.leafPosition_eq]
    split_ifs with hlt
    · rw [hover.getElem?_nodesOf hlt] at hx
      exact ih hbase hx
    · apply readNode_eq_ok
      rw [hover.nodes_eq, getElem?_drop, Nat.add_sub_cancel' (Nat.le_of_not_lt hlt)]
      exact hx

/-- Every leaf is read. -/
theorem Immr.Presents.getLeaf (h : s.Presents hash leaves) {i : Nat} (hi : i < leaves.length) :
    s.getLeaf hash i = .ok (Leaf.create hash i (leafAt leaves i)) := by
  induction s generalizing leaves with
  | mem m =>
    obtain ⟨-, hleaves, -⟩ := h
    show m.getLeaf i = _
    unfold MemMMR.getLeaf
    rw [hleaves, getElem?_leavesOf hash hi]
  | pmmr p =>
    obtain ⟨-, -, -, hmap, hdatabase⟩ := h
    show p.getLeaf hash i = _
    unfold PMMR.getLeaf
    rw [hmap, hdatabase i hi]
  | cache base c ih =>
    obtain ⟨below, hbase, hover⟩ := h
    unfold Immr.getLeaf
    split_ifs with hlt
    · have hcommon : leafAt leaves i = leafAt below i := by
        rw [← leafAt_take hlt, hover.common, leafAt_take hlt]
      have hle := hover.le_below
      rw [hcommon]
      exact ih hbase (by omega)
    · rw [hover.leaves_eq, getElem?_drop, Nat.add_sub_cancel' (Nat.le_of_not_lt hlt),
        getElem?_leavesOf hash hi]

/-! ### The operations of a cache -/

namespace PMMRCache

variable {c : PMMRCache δ} {below above : List δ}

theorem Over.addLeaf (h : c.Over hash below above) {base : Index → Except Fault Hash}
    (hbase : ∀ idx x, (nodesOf hash below)[idx.position]? = some x → base idx = .ok x) (data : δ)
    (hfits : above.length + 1 < 2 ^ 63) :
    Returns (c.add hash base data) fun c' => c'.Over hash below (above ++ [data]) ∧
      c'.firstLeaf = c.firstLeaf := by
  have hle := h.le_above
  -- The nodes below the first leaf, and those of the cache after them.
  have hread : ∀ nodes l idx x, (nodesOf hash above).take (numNodes c.firstLeaf) ++ nodes = l →
      l[idx.position]? = some x → readHash base c.firstLeaf nodes idx = .ok x := by
    rintro nodes l idx x rfl hx
    have hmono := numNodes_strictMono.monotone hle
    have hlen : ((nodesOf hash above).take (numNodes c.firstLeaf)).length = numNodes c.firstLeaf :=
      length_take_of_le (by rwa [length_nodesOf])
    unfold readHash
    rw [h.leafPosition_eq]
    split_ifs with hlt
    · rw [getElem?_append_left (by omega), getElem?_take_of_lt hlt, h.getElem?_nodesOf hlt] at hx
      exact hbase idx x hx
    · rw [getElem?_append_right (by omega), hlen] at hx
      exact readNode_eq_ok hx
  have hstart : (nodesOf hash above).take (numNodes c.firstLeaf) ++ c.nodes =
      nodesOf hash above := by
    rw [h.nodes_eq, take_append_drop]
  unfold add PMMRCache.addLeaf
  rw [getNextLeafIdx_eq h.le_above h.leaves_eq]
  refine (appendNodes_spec hash (fun _ _ x heq => by rw [← heq, append_assoc]) hread data h.fits
    hstart).bind fun nodes hview => ⟨⟨?_, ?_, h.le_below, ?_, ?_, ?_⟩, rfl⟩
  · rwa [length_append, length_singleton]
  · rw [length_append]
    exact le_add_right_of_le hle
  · rw [take_append_of_le_length hle]
    exact h.common
  · rw [leavesOf_append_singleton, drop_append_of_le_length (by rwa [length_leavesOf]), h.leaves_eq]
  · have hmono := numNodes_strictMono.monotone hle
    rw [← hview, drop_left' (length_take_of_le (by rwa [length_nodesOf]))]

omit [Inhabited δ] in
/-- A list of leaves in order, up to an index. -/
theorem takeWhile_leavesOf (hash : Hasher δ) (above : List δ) (first n : Nat) :
    ((leavesOf hash above).drop first).takeWhile (fun leaf : Leaf δ => leaf.index < n) =
      (leavesOf hash (above.take n)).drop first := by
  have hindex : ∀ i (leaf : Leaf δ), ((leavesOf hash above).drop first)[i]? = some leaf →
      leaf.index = first + i := by
    intro i leaf hleaf
    rw [getElem?_drop, leavesOf, getElem?_mapIdx] at hleaf
    obtain ⟨data, -, rfl⟩ := map_eq_some_iff.mp hleaf
    rfl
  rw [leavesOf_take, drop_take]
  refine takeWhile_eq_take (fun i leaf hleaf hi => ?_) fun leaf hleaf => ?_
  · rw [hindex i leaf hleaf, decide_eq_true_iff]
    omega
  · rw [hindex _ leaf hleaf, decide_eq_false_iff_not]
    omega

theorem Over.rewind (h : c.Over hash below above) {n : Nat} (hn : n ≤ above.length) :
    (c.rewind n).Over hash below (above.take n) ∧ (c.rewind n).firstLeaf = min c.firstLeaf n := by
  have hfits := h.fits
  have hlen : (above.take n).length = n := length_take_of_le hn
  unfold PMMRCache.rewind
  by_cases hle : n ≤ c.firstLeaf
  · -- The cache is emptied.
    rw [if_pos hle]
    refine ⟨⟨by omega, by rw [hlen], le_trans hle h.le_below, ?_, ?_, ?_⟩, (min_eq_right hle).symm⟩
    · have hcommon := congrArg (take n) h.common
      rw [take_take, take_take, min_eq_left hle] at hcommon
      rw [take_take, min_self]
      exact hcommon
    · rw [drop_of_length_le (by rw [length_leavesOf, hlen])]
    · rw [drop_of_length_le (by rw [length_nodesOf, hlen])]
  · have hfirst : c.firstLeaf ≤ (above.take n).length := by omega
    have hne : c.leaves ≠ [] := ne_nil_of_length_pos (by
      rw [h.leaves_eq, length_drop, length_leavesOf]
      omega)
    have hleaves := takeWhile_leavesOf hash above c.firstLeaf n
    rw [← h.leaves_eq] at hleaves
    have hnext : PMMRCache.getNextLeafIdx
        { c with leaves := c.leaves.takeWhile fun leaf => leaf.index < n } =
        (above.take n).length :=
      getNextLeafIdx_eq hfirst hleaves
    rw [if_neg hle, if_neg hne]
    dsimp only
    rw [hnext, hlen, h.leafPosition_eq, Mweb.leafPosition_eq (by omega : n < 2 ^ 64)]
    refine ⟨⟨by omega, hfirst, h.le_below, ?_, hleaves, ?_⟩, (min_eq_left (by omega)).symm⟩
    · dsimp only
      rw [take_take, min_eq_left (by omega)]
      exact h.common
    · rw [h.nodes_eq, nodesOf_take hash hn, drop_take]

theorem Over.foldlM_add (h : c.Over hash below above) {base : Index → Except Fault Hash}
    (hbase : ∀ idx x, (nodesOf hash below)[idx.position]? = some x → base idx = .ok x)
    (leaves : List (Leaf δ)) (hfits : above.length + leaves.length < 2 ^ 63) :
    Returns (leaves.foldlM (fun c leaf => c.add hash base leaf.data) c) fun c' =>
      c'.Over hash below (above ++ leaves.map (·.data)) := by
  induction leaves generalizing c above with
  | nil =>
    rw [map_nil, append_nil]
    exact h
  | cons leaf leaves ih =>
    rw [length_cons] at hfits
    rw [foldlM_cons, map_cons, append_cons]
    refine (h.addLeaf hbase leaf.data (by omega)).bind fun c1 h1 => ih h1.1 ?_
    rw [length_append, length_singleton]
    omega

end PMMRCache

/-! ### Writing a batch -/

/-- A leaf is added to the file. -/
theorem PMMR.Adding.addLeaf (h : p.Adding hash leaves) (data : δ) (hfits : leaves.length < 2 ^ 63) :
    Returns (p.addLeaf hash (Leaf.create hash leaves.length data))
      (·.Adding hash (leaves ++ [data])) := by
  refine (appendNodes_spec hash (fun _ _ x hf => hf.append x)
    (fun _ _ _ _ hf => hf.readHash) data hfits h.keeps).bind fun f hf => ⟨hf, fun i hi => ?_⟩
  rw [length_append, length_singleton] at hi
  rw [map_append, insertAll, foldl_append]
  by_cases hlast : i = leaves.length
  · rw [hlast, leafAt_append_self]
    exact Function.update_self ..
  · rw [leafAt_append_left _ (by omega)]
    exact (Function.update_of_ne hlast ..).trans (h.database i (by omega))

/-- The rest of the leaves of a list is added to the file. -/
theorem PMMR.Adding.foldlM_addLeaf (hfits : leaves.length < 2 ^ 63) (hfirst : first ≤ leaves.length)
    (h : p.Adding hash (leaves.take first)) :
    Returns (((leavesOf hash leaves).drop first).foldlM (PMMR.addLeaf hash) p)
      (·.Adding hash leaves) := by
  induction leaves using reverseRecOn with
  | nil =>
    rw [le_zero.mp hfirst] at h ⊢
    exact h
  | append_singleton leaves data ih =>
    rw [length_append, length_singleton] at hfits hfirst
    rcases lt_or_ge leaves.length first with hlt | hge
    · obtain rfl : first = (leaves ++ [data]).length := by
        rw [length_append, length_singleton]
        omega
      rw [take_length] at h
      rw [drop_of_length_le (length_leavesOf ..).le]
      exact h
    · rw [take_append_of_le_length hge] at h
      rw [leavesOf_append_singleton, drop_append_of_le_length (by rwa [length_leavesOf]),
        foldlM_append]
      exact (ih (by omega) hge h).bind fun p1 h1 => (h1.addLeaf data (by omega)).bind fun _ h2 => h2

/-- A batch of leaves over a common part is written to the file and the database. -/
theorem PMMR.Holds.batchWrite (h : p.Holds hash below) (hfits : above.length < 2 ^ 63)
    (hbelow : first ≤ below.length) (habove : first ≤ above.length)
    (hcommon : above.take first = below.take first) :
    Returns (p.batchWrite hash first ((leavesOf hash above).drop first)) (·.Holds hash above) := by
  -- The file is rewound to the nodes over the common part.
  have hrewind := AppendOnlyFile.rewind_load (show numNodes first ≤ (nodesOf hash below).length by
    rw [length_nodesOf]
    exact numNodes_strictMono.monotone hbelow)
  rw [← h.file_eq, ← nodesOf_take hash hbelow, ← hcommon, ← leafPosition_eq (by omega)] at hrewind
  have hstart : Returns (p.rewind first) (·.Adding hash (above.take first)) := by
    refine hrewind.bind fun f hf => ⟨hf, fun i hi => ?_⟩
    rw [length_take_of_le habove] at hi
    rw [h.leaves_eq, hcommon, leafAt_take hi]
    exact h.database_eq i (by omega)
  refine hstart.bind fun p1 h1 => (h1.foldlM_addLeaf hfits habove).bind fun p2 h2 => ?_
  rw [h2.keeps.commit, ok_bind]
  exact ⟨hfits, rfl, rfl, rfl, h2.database⟩

/-- `MemMMR`. -/
def Immr.isMem : Immr δ → Bool
  | .mem _ => true
  | _ => false

/-- The leaves of a cache are written to the range below it, unless that is a `MemMMR`. -/
theorem Immr.Presents.batchWrite {base : Immr δ} (h : base.Presents hash below)
    (hover : c.Over hash below above) (hmem : base.isMem = false) :
    Returns (base.batchWrite hash c.firstLeaf c.leaves) fun base' => base'.Presents hash above ∧
      base'.isMem = false := by
  rw [hover.leaves_eq]
  cases base with
  | mem m => cases hmem
  | pmmr p =>
    exact (PMMR.Holds.batchWrite h hover.fits hover.le_below hover.le_above hover.common).bind
      fun p' h' => ⟨h', rfl⟩
  | cache base c0 =>
    obtain ⟨bottom, hbase, h0⟩ := h
    have hrewound := (h0.rewind hover.le_below).1
    rw [← hover.common] at hrewound
    have hlen : (above.take c.firstLeaf).length = c.firstLeaf := length_take_of_le hover.le_above
    have hfits := hover.fits
    have hle := hover.le_above
    have hrun := hrewound.foldlM_add (fun idx x => hbase.getHash)
      ((leavesOf hash above).drop c.firstLeaf) (by rw [hlen, length_drop, length_leavesOf]; omega)
    rw [map_drop, map_data_leavesOf, take_append_drop] at hrun
    exact hrun.bind fun c' h' => ⟨⟨bottom, hbase, h'⟩, rfl⟩

/-! ### Ranges built from scratch -/

theorem MemMMR.holds_empty : (MemMMR.empty : MemMMR δ).Holds hash [] :=
  ⟨Nat.two_pow_pos 63, rfl, rfl⟩

theorem MemMMR.Holds.getNumLeaves {m : MemMMR δ} (h : m.Holds hash leaves) :
    m.getNumLeaves = leaves.length := by
  unfold MemMMR.getNumLeaves
  rw [h.leaves_eq, length_leavesOf]

theorem MemMMR.Holds.add {m : MemMMR δ} (h : m.Holds hash leaves) (data : δ)
    (hfits : leaves.length + 1 < 2 ^ 63) :
    Returns (m.add hash data) (·.Holds hash (leaves ++ [data])) := by
  unfold MemMMR.add MemMMR.addLeaf
  rw [h.getNumLeaves]
  refine (appendNodes_spec hash (fun _ _ x heq => congrArg (· ++ [x]) heq)
    (fun _ _ _ _ heq hx => readNode_eq_ok (heq ▸ hx)) data h.fits h.hashes_eq).bind
      fun hashes hview =>
      ⟨?_, ?_, hview⟩
  · rwa [length_append, length_singleton]
  · rw [leavesOf_append_singleton, h.leaves_eq]

theorem MemMMR.ofLeaves_spec (hash : Hasher δ) (hfits : leaves.length < 2 ^ 63) :
    Returns (MemMMR.ofLeaves hash leaves) (·.Holds hash leaves) := by
  induction leaves using reverseRecOn with
  | nil => exact MemMMR.holds_empty
  | append_singleton leaves data ih =>
    rw [length_append, length_singleton] at hfits
    unfold MemMMR.ofLeaves at ih ⊢
    rw [foldlM_append]
    refine (ih (by omega)).bind fun m h => ?_
    exact (h.add data hfits).bind fun _ h' => h'

/-! ### The root -/

/-- The root of a range is that of the mountain range of its leaves. -/
theorem Immr.Presents.root_eq (h : s.Presents hash leaves) :
    s.root hash = .ok (Mmr.root hash 0 (Mmr.ofLeaves hash leaves)) := by
  have hfits := h.fits
  have hpos : leafPosition leaves.length = numNodes leaves.length := leafPosition_eq (by omega)
  have hloop : ∀ (peaks : List (Nat × Nat)) (acc : Hash),
      (∀ p ∈ peaks, p ∈ peaksUp 0 leaves.length) →
      (peaks.map fun p => nodeIndex p.1 p.2).foldlM (s.bagPeak hash (numNodes leaves.length)) acc =
        .ok (bag hash 0 (numNodes leaves.length) acc
          (peaks.map fun p => (p.1, nodeHash hash (leafAt leaves) p.1 p.2))) := by
    intro peaks
    induction peaks with
    | nil => exact fun acc _ => rfl
    | cons p peaks ih =>
      intro acc hmem
      rw [forall_mem_cons] at hmem
      obtain ⟨d, hd, hle⟩ := mem_peaksUp hmem.1
      have hget : s.getHash (nodeIndex p.1 p.2) = .ok (nodeHash hash (leafAt leaves) p.1 p.2) :=
        h.getHash (getElem?_nodes hash _ (by rwa [hd, zero_add]))
      rw [map_cons, foldlM_cons, bagPeak, hget, ok_bind]
      exact ih _ hmem.2
  unfold root
  rw [h.getNextLeafIdx, ok_bind, hpos, calcPeakIndices_spec hfits, ok_bind, ← map_reverse,
    reverse_reverse, hloop _ 0 fun _ => id]
  rw [Mmr.root, Mmr.ofLeaves_eq hash (leafAt leaves) leaves]
  intro i data hdata
  obtain ⟨hi, -⟩ := List.getElem?_eq_some_iff.mp hdata
  rw [getElem?_eq_leafAt hi] at hdata
  exact some.inj hdata

/-! ## Runs -/

variable (hash)

/-- A range and one that is built from scratch in memory have the same leaves, hashes and root, and
all of them can be read. -/
def AgreesWithMem (s : Immr δ) (leaves : List δ) : Prop :=
  ∃ mem, MemMMR.ofLeaves hash leaves = .ok mem ∧ s.getNextLeafIdx = .ok mem.getNumLeaves ∧
    (∀ i < mem.getNumLeaves, ∃ leaf, s.getLeaf hash i = .ok leaf ∧ mem.getLeaf i = .ok leaf) ∧
    (∀ position < leafPosition mem.getNumLeaves, ∃ x, s.getHash (atPos position) = .ok x ∧
      mem.getHash (atPos position) = .ok x) ∧
    ∃ x, s.root hash = .ok x ∧ (Immr.mem mem).root hash = .ok x

variable {hash}

theorem Immr.Presents.agreesWithMem (h : s.Presents hash leaves) : AgreesWithMem hash s leaves := by
  obtain ⟨mem, hmem, hholds⟩ := (MemMMR.ofLeaves_spec hash h.fits).exists_ok
  have hpresents : (Immr.mem mem).Presents hash leaves := hholds
  have hnum := hholds.getNumLeaves
  have hfits := h.fits
  refine ⟨mem, hmem, ?_, ?_, ?_, ⟨_, h.root_eq, hpresents.root_eq⟩⟩
  · rw [hnum]
    exact h.getNextLeafIdx
  · intro i hi
    rw [hnum] at hi
    exact ⟨_, h.getLeaf hi, hpresents.getLeaf hi⟩
  · intro position hposition
    rw [hnum, leafPosition_eq (by omega), ← length_nodesOf hash] at hposition
    have hx : (nodesOf hash leaves)[(atPos position).position]? = some _ :=
      getElem?_eq_getElem hposition
    exact ⟨_, h.getHash hx, hpresents.getHash hx⟩

end Presents

/-- What a stack of ranges is for: the leaves of its top layer. `flushed` is the smallest number of
leaves since they were last the same as those below, and `lossy` says that what is below is a
`MemMMR`. -/
structure LogicalMmr (δ : Type) where
  leaves : List δ
  flushed : Nat
  lossy : Bool

/-- The operations on the leaves. Nothing may be left to flush onto a `MemMMR`, and positions have
64 bits. -/
def mmrSpec (δ : Type) : Machine.Spec (LogicalMmr δ) (MmrOp δ) Unit where
  legal a
    | .add _ => a.leaves.length + 1 < 2 ^ 63
    | .rewind numLeaves => numLeaves ≤ a.leaves.length
    | .flush => a.lossy → a.leaves.length ≤ a.flushed
    | .push => True
  answer _ _ _ := True
  next a
    | .add data => { a with leaves := a.leaves ++ [data] }
    | .rewind numLeaves =>
      { a with leaves := a.leaves.take numLeaves, flushed := min a.flushed numLeaves }
    | .flush => { a with flushed := a.leaves.length }
    | .push => ⟨a.leaves, a.leaves.length, false⟩

section Runs

variable [Inhabited δ] {hash : Hasher δ}

/-- A stack is in a logical state. -/
structure MmrStack.Matches (hash : Hasher δ) (s : MmrStack δ) (a : LogicalMmr δ) : Prop where
  presents : s.toImmr.Presents hash a.leaves
  firstLeaf : s.top.firstLeaf = a.flushed
  lossy : s.base.isMem = a.lossy

/-- A new cache presents what is below it. -/
theorem MmrStack.new_spec {base : Immr δ} {leaves : List δ} (h : base.Presents hash leaves) :
    Returns (new base) (·.Matches hash ⟨leaves, leaves.length, base.isMem⟩) := by
  unfold new
  rw [h.getNextLeafIdx]
  refine ⟨⟨leaves, h, h.fits, le_refl _, le_refl _, rfl, ?_, ?_⟩, rfl, rfl⟩
  · rw [drop_of_length_le (by rw [length_leavesOf])]
  · rw [drop_of_length_le (by rw [length_nodesOf])]

/-- An operation does to the stack what it does to the leaves. -/
theorem MmrStack.Matches.apply {s : MmrStack δ} {a : LogicalMmr δ} (h : s.Matches hash a)
    {op : MmrOp δ} (hlegal : (mmrSpec δ).legal a op) :
    Returns (s.apply hash op) (·.Matches hash ((mmrSpec δ).next a op)) := by
  obtain ⟨⟨below, hbase, hover⟩, hfirst, hlossy⟩ := h
  cases op with
  | add data =>
    exact (hover.addLeaf (fun idx x => hbase.getHash) data hlegal).bind fun top h =>
      ⟨⟨below, hbase, h.1⟩, h.2.trans hfirst, hlossy⟩
  | rewind numLeaves =>
    obtain ⟨hover', hfirst'⟩ := hover.rewind hlegal
    refine ⟨⟨below, hbase, hover'⟩, ?_, hlossy⟩
    rw [hfirst', hfirst]
    rfl
  | flush =>
    have hnext := PMMRCache.getNextLeafIdx_eq hover.le_above hover.leaves_eq
    rcases hmem : s.base.isMem with _ | _
    · -- The range below gets the leaves, and the cache is empty over it.
      refine (hbase.batchWrite hover hmem).bind fun base' h' => ?_
      have hnew := new_spec h'.1
      unfold new at hnew
      rw [h'.1.getNextLeafIdx, ok_bind, ← hnext] at hnew
      have hmatches : Matches hash ⟨base', s.top.getNextLeafIdx, [], []⟩ _ := hnew
      refine ⟨hmatches.presents, hmatches.firstLeaf.trans hnext, ?_⟩
      rw [hmatches.lossy, h'.2, ← hmem]
      exact hlossy
    · -- A `MemMMR` stays as it is, and the cache was empty.
      have hempty : s.top.firstLeaf = a.leaves.length :=
        le_antisymm hover.le_above (hfirst ▸ hlegal (hlossy ▸ hmem))
      obtain ⟨base, first, topLeaves, nodes⟩ := s
      cases base with
      | mem m =>
        obtain rfl : topLeaves = [] :=
          hover.leaves_eq.trans (drop_of_length_le (hempty ▸ (length_leavesOf ..).le))
        obtain rfl : nodes = [] := by
          refine hover.nodes_eq.trans (drop_of_length_le ?_)
          rw [hempty, length_nodesOf]
        exact ⟨⟨below, hbase, hover⟩, hempty, hlossy⟩
      | _ => cases hmem
  | push =>
    exact new_spec (show s.toImmr.Presents hash a.leaves from ⟨below, hbase, hover⟩)

/-- Whatever is done to a stack of caches, as long as nothing is lost to a `MemMMR`, its top layer
agrees with a range that is built from scratch from the leaves that there should be. -/
theorem run_refines {base : Immr δ} {leaves : List δ} (hbase : base.Presents hash leaves)
    (ops : List (MmrOp δ)) (hlegal : (mmrSpec δ).Legal ⟨leaves, leaves.length, base.isMem⟩ ops) :
    ∃ s s', new base = .ok s ∧ ops.foldlM (apply hash) s = .ok s' ∧
      AgreesWithMem hash s'.toImmr
        ((mmrSpec δ).final ⟨leaves, leaves.length, base.isMem⟩ ops).leaves := by
  obtain ⟨s, hnew, hmatches⟩ := (new_spec hbase).exists_ok
  obtain ⟨s', hrun, hmatches'⟩ := Machine.foldlM_refines (R := Matches hash)
    (fun s a op h hop => (h.apply hop).exists_ok) ops s _ hmatches hlegal
  exact ⟨s, s', hnew, hrun, hmatches'.presents.agreesWithMem⟩

end Runs

/-- A hasher of numbers, to run. -/
def plainHasher : Hasher Nat
  | .leaf _ data => BitVec.ofNat 256 (data + 1)
  | .parent position left right => left + 2 * right + BitVec.ofNat 256 position

/-- Two leaves are added over an empty range on disk, flushed, and one of them is replaced above. -/
theorem run_refines_pmmr : ∃ s s', new (.pmmr (.load [] fun _ => none)) = .ok s ∧
    [.add 7, .add 8, .flush, .push, .rewind 1, .add 9, .flush].foldlM (apply plainHasher)
      s = .ok s' ∧
    AgreesWithMem plainHasher s'.toImmr [7, 9] := by
  have hbase : (Immr.pmmr (PMMR.load [] fun _ => none)).Presents plainHasher [] :=
    ⟨Nat.two_pow_pos 63, rfl, rfl, rfl, fun i hi => absurd hi (Nat.not_lt_zero i)⟩
  exact run_refines hbase [.add 7, .add 8, .flush, .push, .rewind 1, .add 9, .flush]
    (by simp [Machine.Spec.Legal, mmrSpec, Immr.isMem])

/-- A leaf that is flushed from a cache onto a `MemMMR` cannot be read again. -/
theorem flush_loses_leaf : Returns (do
      let s ← new (.mem .empty)
      [.add 7, .flush].foldlM (apply plainHasher) s) fun s =>
        s.toImmr.getNextLeafIdx = .ok 1 ∧ s.toImmr.getLeaf plainHasher 0 = .error .assertion ∧
        s.toImmr.root plainHasher = .error .assertion := by
  decide +kernel

end DefcoinCore.Mweb
