import DefcoinCore.AddrMan.File

/-!
# Storing and loading the address manager

`toFile` is what `Serialize` stores of a state and `load` is how `Unserialize` rebuilds one.
Entries are numbered in the order of their ids (`mapUnkIds`), and a bucket of the new table is
stored as the list of the numbers of its entries. Loading puts every new entry into one bucket, the
last one that lists it, and recomputes its position there.

`Numbering` describes a consistent state by its new and its tried entries in that order, and
`toFile_spec` says what is stored in these terms.
-/

namespace DefcoinCore.AddrMan

open DefcoinCore List StdMap Fintype

/-! ## Storing -/

/-- The loop of `Serialize` over the entries of the new table: it numbers the entries and stores
those with references. -/
def writeNewInfos (nNew : Int) : List (Int × CAddrInfo) → Int → StdMap Int Int →
    Except Fault (StdMap Int Int × List StoredInfo)
  | [], _, mapUnkIds => .ok (mapUnkIds, [])
  | (id, info) :: l, nIds, mapUnkIds =>
    if info.nRefCount ≠ 0 then
      if nIds = nNew then .error .serialize
      else do
        let (mapUnkIds, infos) ← writeNewInfos nNew l (nIds + 1) (mapUnkIds.insert id nIds)
        pure (mapUnkIds, info.stored :: infos)
    else writeNewInfos nNew l nIds (mapUnkIds.insert id nIds)

/-- The loop of `Serialize` over the entries of the tried table. -/
def writeTriedInfos (nTried : Int) : List (Int × CAddrInfo) → Int → Except Fault (List StoredInfo)
  | [], _ => .ok []
  | (_, info) :: l, nIds =>
    if info.fInTried then
      if nIds = nTried then .error .serialize
      else do
        let infos ← writeTriedInfos nTried l (nIds + 1)
        pure (info.stored :: infos)
    else writeTriedInfos nTried l nIds

namespace CAddrMan

variable (env : AddrEnv) (codec : InfoCodec) (m : CAddrMan)

/-- The numbers of the entries of a bucket of the new table, in the order of their positions. -/
def bucketIndexes (mapUnkIds : StdMap Int Int) (bucket : Fin newBucketCount) : List Int :=
  (positions.filter fun i => m.vvNew (bucket, i) ≠ -1).map fun i =>
    mapUnkIds[m.vvNew (bucket, i)]?.getD 0

/-- What `Serialize` stores. -/
def toFile : Except Fault AddrManFile := do
  let (mapUnkIds, newInfos) ← writeNewInfos m.nNew m.mapInfo.toList 0 ∅
  let triedInfos ← writeTriedInfos m.nTried m.mapInfo.toList 0
  pure
    { format := formatV3
      nKey := m.nKey
      nNew := m.nNew
      nTried := m.nTried
      nUBuckets := newBucketCount
      newInfos := newInfos
      triedInfos := triedInfos
      buckets := newBuckets.map (m.bucketIndexes mapUnkIds)
      asmapVersion := codec.asmapVersion m.m_asmap }

/-- `Serialize`. -/
def serialize : Except Fault (List UInt8) := do
  let f ← m.toFile codec
  pure (f.bytes codec)

/-! ## Loading -/

/-- An entry of the new table is read: it gets the id `n`, and no slot yet. -/
def loadNewInfo (n : Int) (i : StoredInfo) : CAddrMan :=
  { m with
    mapInfo := m.mapInfo.insert n { i.load with nRandomPos := m.vRandom.length }
    mapAddr := m.mapAddr.insert i.toCNetAddr n
    vRandom := m.vRandom ++ [n] }

/-- The loop of `Unserialize` over the entries of the new table. -/
def loadNewInfos : List StoredInfo → Int → CAddrMan → CAddrMan
  | [], _, m => m
  | i :: l, n, m => loadNewInfos l (n + 1) (m.loadNewInfo n i)

/-- An entry of the tried table takes its slot, with the next id. -/
def loadTriedInfo (i : StoredInfo) : CAddrMan :=
  { m with
    vRandom := m.vRandom ++ [m.nIdCount]
    mapInfo := m.mapInfo.insert m.nIdCount
      { i.load with nRandomPos := m.vRandom.length, fInTried := true }
    mapAddr := m.mapAddr.insert i.toCNetAddr m.nIdCount
    vvTried := Function.update m.vvTried (m.triedSlot env i.toCService) m.nIdCount
    nIdCount := m.nIdCount + 1 }

/-- The loop of `Unserialize` over the entries of the tried table; an entry whose slot is taken is
lost. -/
def loadTriedInfos : List StoredInfo → Int → CAddrMan → Int × CAddrMan
  | [], nLost, m => (nLost, m)
  | i :: l, nLost, m =>
    if m.vvTried (m.triedSlot env i.toCService) = -1 then
      loadTriedInfos l nLost (m.loadTriedInfo env i)
    else loadTriedInfos l (nLost + 1) m

/-- `Unserialize` notes for each entry the last bucket that lists it, from bucket `bucket` on. -/
def entryToBucket (nNew : Int) : List (List Int) → Int → StdMap Int Int → StdMap Int Int
  | [], _, map => map
  | l :: ls, bucket, map =>
    entryToBucket nNew ls (bucket + 1)
      (l.foldl (fun map nIndex =>
        if 0 ≤ nIndex ∧ nIndex < nNew then map.insert nIndex bucket else map) map)

/-- `Unserialize` puts an entry into its slot of the bucket that was noted for it, or of the bucket
of its source when that cannot be used. -/
def placeNew (f : AddrManFile) (map : StdMap Int Int) (n : Int) : CAddrMan :=
  let (info, mapInfo) := m.mapInfo.subscript n
  let m := { m with mapInfo := mapInfo }
  let bucket := map[n]?.getD 0
  let slot : NewSlot := (Fin.ofNat newBucketCount bucket.toNat,
    getBucketPosition env m.nKey info.toCService true bucket)
  if f.format ≥ formatV2 ∧ f.nUBuckets = newBucketCount ∧ m.vvNew slot = -1 ∧
      info.nRefCount < newBucketsPerAddress ∧ f.asmapVersion = codec.asmapVersion m.m_asmap then
    m.ref n info (info.nRefCount + 1) slot
  else
    let slot := m.newSlot env info.toCService info.source
    if m.vvNew slot = -1 then m.ref n info (info.nRefCount + 1) slot else m

/-- `Unserialize` deletes an entry that found no slot. -/
def prune (id : Int) : Except Fault CAddrMan :=
  match m.mapInfo[id]? with
  | none => .ok m
  | some info => if info.fInTried = false ∧ info.nRefCount = 0 then m.delete id else .ok m

/-- `Unserialize` goes through the entries and deletes those that found no slot. -/
def pruneNew : Except Fault CAddrMan := m.mapInfo.keys.foldlM prune m

/-- How `Unserialize` rebuilds the state from what it reads. -/
def load (f : AddrManFile) : Except Fault CAddrMan :=
  let m := { m.clear f.nKey with nNew := f.nNew, nTried := f.nTried }
  let m := loadNewInfos f.newInfos 0 m
  let m := { m with nIdCount := f.nNew }
  let (nLost, m) := loadTriedInfos env f.triedInfos 0 m
  let m := { m with nTried := m.nTried - nLost }
  let map := entryToBucket f.nNew f.buckets 0 ∅
  let m := (List.range f.nNew.toNat).foldl
    (fun (m : CAddrMan) (n : Nat) => m.placeNew env codec f map n) m
  m.pruneNew

end CAddrMan

/-- How `Unserialize` can fail: with an exception, or at an assertion. -/
inductive LoadError where
  | failure (what : String)
  | fault (f : Fault)

/-- `Unserialize`. -/
def CAddrMan.unserialize (env : AddrEnv) (codec : InfoCodec) (m : CAddrMan) (bytes : List UInt8) :
    Except LoadError CAddrMan :=
  match readFile codec bytes with
  | .error what => .error (.failure what)
  | .ok (f, _) =>
    match m.load env codec f with
    | .error e => .error (.fault e)
    | .ok m => .ok m

/-! ## What is stored -/

namespace CAddrMan

variable {env : AddrEnv} {codec : InfoCodec} {m : CAddrMan}

/-- The entries of one of the tables, in the order of their ids. -/
def entries (m : CAddrMan) (tried : Bool) : List (Int × CAddrInfo) :=
  m.mapInfo.toList.filter fun e => e.2.fInTried == tried

theorem mem_entries {tried : Bool} {e : Int × CAddrInfo} :
    e ∈ m.entries tried ↔ m.mapInfo[e.1]? = some e.2 ∧ e.2.fInTried = tried := by
  rw [entries, mem_filter, beq_iff_eq, ← Std.ExtTreeMap.mem_toList_iff_getElem?_eq_some]

/-- No id occurs twice. -/
theorem nodup_entries (m : CAddrMan) (tried : Bool) : ((m.entries tried).map Prod.fst).Nodup :=
  (nodup_map_fst_toList _).sublist (filter_sublist.map _)

/-- The number of an entry is determined by its id. -/
theorem index_unique {tried : Bool} {k k' : Nat} {e e' : Int × CAddrInfo}
    (hk : (m.entries tried)[k]? = some e) (hk' : (m.entries tried)[k']? = some e')
    (heq : e.1 = e'.1) : k = k' := by
  have hat : ((m.entries tried).map Prod.fst)[k]? = some e.1 := by
    rw [getElem?_map, hk, Option.map_some]
  have hat' : ((m.entries tried).map Prod.fst)[k']? = some e.1 := by
    rw [getElem?_map, hk', Option.map_some, heq]
  have hlt := (List.getElem?_eq_some_iff.mp hat).1
  exact (getElem?_inj hlt (m.nodup_entries tried)).mp (hat.trans hat'.symm)

/-- Every entry of a table has a number. -/
theorem exists_index {tried : Bool} {id : Int} {info : CAddrInfo}
    (hid : m.mapInfo[id]? = some info) (htried : info.fInTried = tried) :
    ∃ k : Nat, (m.entries tried)[k]? = some (id, info) :=
  mem_iff_getElem?.mp (mem_entries.mpr ⟨hid, htried⟩)

/-- The counters count the entries. -/
theorem Consistent.length_entries (h : m.Consistent env) :
    m.nNew = (m.entries false).length ∧ m.nTried = (m.entries true).length := by
  have hnew := h.tabled.nNew
  have htried := h.tabled.nTried
  have hf := length_filter_toList (fun i : CAddrInfo => !i.fInTried) m.mapInfo
  have ht := length_filter_toList (fun i : CAddrInfo => i.fInTried) m.mapInfo
  simp only [entries, beq_false, beq_true, hf, ht]
  exact ⟨by omega, htried⟩

end CAddrMan

/-- The entries with references are stored in order, and numbered from `nIds` on. -/
theorem writeNewInfos_spec (nNew : Int) (l : List (Int × CAddrInfo)) :
    ∀ (nIds : Int) (mapUnkIds : StdMap Int Int), (l.map Prod.fst).Nodup →
      nIds + (l.filter fun e => e.2.nRefCount ≠ 0).length ≤ nNew →
      ∃ mapUnkIds', writeNewInfos nNew l nIds mapUnkIds =
          .ok (mapUnkIds', (l.filter fun e => e.2.nRefCount ≠ 0).map (·.2.stored)) ∧
        (∀ (k : Nat) (e : Int × CAddrInfo), (l.filter fun e => e.2.nRefCount ≠ 0)[k]? = some e →
          mapUnkIds'[e.1]? = some (nIds + k)) ∧
        ∀ id, id ∉ l.map Prod.fst → mapUnkIds'[id]? = mapUnkIds[id]? := by
  induction l with
  | nil =>
    intro nIds mapUnkIds _ _
    exact ⟨mapUnkIds, rfl, fun k e hk => absurd hk (by simp), fun _ _ => rfl⟩
  | cons e l ih =>
    intro nIds mapUnkIds hnodup hlen
    obtain ⟨id, info⟩ := e
    rw [map_cons, nodup_cons] at hnodup
    obtain ⟨hfresh, hnodup⟩ := hnodup
    by_cases href : info.nRefCount ≠ 0
    · rw [filter_cons_of_pos (by simpa using href)] at hlen ⊢
      rw [length_cons] at hlen
      obtain ⟨map', hrun, hnum, hother⟩ := ih (nIds + 1) (mapUnkIds.insert id nIds) hnodup
        (by push_cast at hlen; omega)
      refine ⟨map', ?_, ?_, ?_⟩
      · rw [writeNewInfos, if_pos href, if_neg (by push_cast at hlen; omega), hrun]
        rfl
      · intro k e hk
        cases k with
        | zero =>
          rw [getElem?_cons_zero, Option.some.injEq] at hk
          subst hk
          rw [hother id hfresh, StdMap.getElem?_insert, if_pos rfl]
          simp
        | succ k =>
          rw [hnum k e hk]
          congr 1
          omega
      · intro id' hid'
        rw [map_cons, mem_cons, not_or] at hid'
        rw [hother id' hid'.2, StdMap.getElem?_insert, if_neg (Ne.symm hid'.1)]
    · rw [filter_cons_of_neg (by simpa using href)] at hlen ⊢
      obtain ⟨map', hrun, hnum, hother⟩ := ih nIds (mapUnkIds.insert id nIds) hnodup hlen
      refine ⟨map', ?_, hnum, ?_⟩
      · rw [writeNewInfos, if_neg href, hrun]
      · intro id' hid'
        rw [map_cons, mem_cons, not_or] at hid'
        rw [hother id' hid'.2, StdMap.getElem?_insert, if_neg (Ne.symm hid'.1)]

/-- The tried entries are stored in order. -/
theorem writeTriedInfos_spec (nTried : Int) (l : List (Int × CAddrInfo)) :
    ∀ nIds : Int, nIds + (l.filter (·.2.fInTried)).length ≤ nTried →
      writeTriedInfos nTried l nIds = .ok ((l.filter (·.2.fInTried)).map (·.2.stored)) := by
  induction l with
  | nil => exact fun _ _ => rfl
  | cons e l ih =>
    intro nIds hlen
    obtain ⟨id, info⟩ := e
    by_cases htried : info.fInTried
    · rw [filter_cons_of_pos (by simpa using htried)] at hlen ⊢
      rw [length_cons] at hlen
      rw [writeTriedInfos, if_pos htried, if_neg (by omega), ih (nIds + 1) (by omega)]
      rfl
    · rw [filter_cons_of_neg (by simpa using htried)] at hlen ⊢
      rw [writeTriedInfos, if_neg htried, ih nIds hlen]

/-- What the file of a consistent state contains. -/
structure Stores (codec : InfoCodec) (m : CAddrMan) (f : AddrManFile) : Prop where
  format : f.format = formatV3
  nKey : f.nKey = m.nKey
  nNew : f.nNew = m.nNew
  nTried : f.nTried = m.nTried
  nUBuckets : f.nUBuckets = newBucketCount
  newInfos : f.newInfos = (m.entries false).map (·.2.stored)
  triedInfos : f.triedInfos = (m.entries true).map (·.2.stored)
  bucketCount : f.buckets.length = newBucketCount
  bucketSize : ∀ l ∈ f.buckets, l.length ≤ bucketSize
  /-- A bucket lists the numbers of the entries it holds. -/
  buckets : ∀ (bucket : Fin newBucketCount) (l : List Int), f.buckets[bucket.val]? = some l →
    ∀ n, n ∈ l ↔ ∃ (k : Nat) (e : Int × CAddrInfo) (i : Fin AddrMan.bucketSize),
      n = k ∧ (m.entries false)[k]? = some e ∧ m.vvNew (bucket, i) = e.1
  asmapVersion : f.asmapVersion = codec.asmapVersion m.m_asmap

namespace CAddrMan

variable {env : AddrEnv} {codec : InfoCodec} {m : CAddrMan}

section

variable (h : m.Consistent env)

include h

/-- In a consistent state the entries with references are those that are not tried. -/
theorem Consistent.filter_refs :
    (m.mapInfo.toList.filter fun e => e.2.nRefCount ≠ 0) = m.entries false := by
  refine filter_congr fun e he => ?_
  obtain ⟨id, info⟩ := e
  have hid : m.mapInfo[id]? = some info := Std.ExtTreeMap.mem_toList_iff_getElem?_eq_some.mp he
  cases htried : info.fInTried with
  | false => simpa [htried] using h.tabled.live id info hid htried (Set.notMem_empty _)
  | true => simpa [htried] using h.tabled.refs_tried hid htried

/-- A bucket of a consistent state is stored as the numbers of its entries. -/
theorem Consistent.mem_bucketIndexes (mapUnkIds : StdMap Int Int)
    (hnum : ∀ (k : Nat) (e : Int × CAddrInfo), (m.entries false)[k]? = some e →
      mapUnkIds[e.1]? = some (k : Int))
    (bucket : Fin newBucketCount) (n : Int) :
    n ∈ m.bucketIndexes mapUnkIds bucket ↔
      ∃ (k : Nat) (e : Int × CAddrInfo) (i : Fin bucketSize),
        n = k ∧ (m.entries false)[k]? = some e ∧ m.vvNew (bucket, i) = e.1 := by
  simp only [bucketIndexes, mem_map, mem_filter, mem_positions, true_and, decide_eq_true_eq]
  constructor
  · rintro ⟨i, hheld, rfl⟩
    obtain ⟨info, hid, hfalse, -⟩ := h.tabled.held (bucket, i) hheld
    obtain ⟨k, hk⟩ := exists_index hid hfalse
    refine ⟨k, _, i, ?_, hk, rfl⟩
    rw [hnum k _ hk, Option.getD_some]
  · rintro ⟨k, e, i, rfl, hk, hheld⟩
    have hid := (mem_entries.mp (mem_of_getElem? hk)).1
    refine ⟨i, ?_, ?_⟩
    · rw [hheld]
      exact h.tabled.ne_empty hid
    · rw [hheld, hnum k e hk, Option.getD_some]

/-- `Serialize` of a consistent state passes its assertions and stores the state. -/
theorem Consistent.toFile_spec (codec : InfoCodec) :
    ∃ f, m.toFile codec = .ok f ∧ Stores codec m f := by
  obtain ⟨hnew, htried⟩ := h.length_entries
  have htriedEntries : (m.mapInfo.toList.filter (·.2.fInTried)) = m.entries true :=
    filter_congr fun e _ => by cases e.2.fInTried <;> rfl
  obtain ⟨mapUnkIds, hrun, hnum, -⟩ := writeNewInfos_spec m.nNew m.mapInfo.toList 0 ∅
    (nodup_map_fst_toList _) (by rw [h.filter_refs]; omega)
  have hrun' := writeTriedInfos_spec m.nTried m.mapInfo.toList 0 (by rw [htriedEntries]; omega)
  rw [h.filter_refs] at hrun hnum
  rw [htriedEntries] at hrun'
  have hindex := h.mem_bucketIndexes mapUnkIds fun k e hk => by
    rw [hnum k e hk, zero_add]
  unfold toFile
  rw [hrun, ok_bind, hrun']
  refine ⟨_, rfl, ?_⟩
  refine ⟨rfl, rfl, rfl, rfl, rfl, rfl, rfl, ?_, ?_, ?_, rfl⟩
  · simp only [length_map, length_newBuckets]
  · refine forall_mem_map.mpr fun bucket _ => ?_
    rw [bucketIndexes, length_map]
    exact (length_filter_le _ _).trans length_positions.le
  · intro bucket l hl
    rw [getElem?_map, getElem?_newBuckets, Option.map_some, Option.some.injEq] at hl
    subst hl
    exact hindex bucket

/-- A new entry is in some slot of the new table. -/
theorem Consistent.exists_slot {e : Int × CAddrInfo} (he : e ∈ m.entries false) :
    ∃ slot, m.vvNew slot = e.1 := by
  obtain ⟨hid, hfalse⟩ := mem_entries.mp he
  have hrefs := h.tabled.refs e.1 e.2 hid
  have hlive := h.tabled.live e.1 e.2 hid hfalse (Set.notMem_empty _)
  exact Table.exists_of_refs_ne_zero (by omega)

/-- There are no more entries in a table than slots. -/
theorem Consistent.entries_le :
    (m.entries false).length ≤ newBucketCount * bucketSize ∧
      (m.entries true).length ≤ triedBucketCount * bucketSize := by
  constructor
  · have hle := Table.length_le_card m.vvNew (m.nodup_entries false) fun id hid => by
      obtain ⟨e, he, rfl⟩ := mem_map.mp hid
      exact h.exists_slot he
    rwa [length_map, card_prod, card_fin, card_fin] at hle
  · have hle := Table.length_le_card m.vvTried (m.nodup_entries true) fun id hid => by
      obtain ⟨e, he, rfl⟩ := mem_map.mp hid
      obtain ⟨hid, htrue⟩ := mem_entries.mp he
      exact ⟨_, (h.tabled.tried e.1 e.2 hid htrue).1⟩
    rwa [length_map, card_prod, card_fin, card_fin] at hle

/-- What is stored of a consistent state can be read back. -/
theorem Consistent.writable {f : AddrManFile} (hf : Stores codec m f)
    (hcodec : ∀ (id : Int) (info : CAddrInfo), m.mapInfo[id]? = some info →
      Reads (codec.read true) (codec.write info.stored) info.stored) :
    f.Writable codec := by
  obtain ⟨hnew, htried⟩ := h.length_entries
  obtain ⟨hnewLe, htriedLe⟩ := h.entries_le
  have hread : ∀ tried, ∀ i ∈ (m.entries tried).map (·.2.stored),
      Reads (codec.read true) (codec.write i) i :=
    fun tried => forall_mem_map.mpr fun e he => hcodec e.1 e.2 (mem_entries.mp he).1
  refine ⟨hf.format, ?_, ?_, ?_, ?_, ?_, hf.bucketCount.le, ?_, ?_, ?_⟩
  · rw [hf.nNew, hf.newInfos, length_map, hnew]
  · rw [hf.nTried, hf.triedInfos, length_map, htried]
  · rw [hf.nUBuckets, hf.bucketCount]
  · rw [hf.newInfos, length_map]
    exact hnewLe
  · rw [hf.triedInfos, length_map]
    exact htriedLe
  · rw [hf.newInfos]
    exact hread false
  · rw [hf.triedInfos]
    exact hread true
  · intro l hl
    refine ⟨hf.bucketSize l hl, fun n hn => ?_⟩
    obtain ⟨b, hb⟩ := mem_iff_getElem?.mp hl
    have hlt : b < newBucketCount := hf.bucketCount ▸ (List.getElem?_eq_some_iff.mp hb).1
    obtain ⟨k, e, i, rfl, hk, -⟩ := (hf.buckets ⟨b, hlt⟩ l hb n).mp hn
    have hklt := (List.getElem?_eq_some_iff.mp hk).1
    exact ⟨by omega, by exact_mod_cast hklt.trans_le hnewLe⟩

end

end CAddrMan

end DefcoinCore.AddrMan
