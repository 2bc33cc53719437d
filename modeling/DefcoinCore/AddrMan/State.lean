import DefcoinCore.Chain.BlockIndex
import DefcoinCore.Lib.Containers
import DefcoinCore.Net.NetAddress

/-!
# The address manager

`CAddrMan` of `addrman.h` and `addrman.cpp`: the addresses that a node knows, spread over buckets of
a *new* and a *tried* table by hashes with a secret key. Seven indexes of the same addresses are
kept beside each other: the entries by identifier (`mapInfo`), the identifiers by address
(`mapAddr`), a list of all identifiers in random order (`vRandom`) with the position of each in its
entry, the two tables, and their counters. An entry is either in exactly one slot of the tried
table, or in one to eight slots of the new table, as its reference count says.

Bucket hashes, address groups and routability are functions of `AddrEnv`; nothing is assumed of
them. The random generator is an argument of each function that draws from it, and so is the clock.
An assertion of the source, and the use of a reference to an erased entry, end in a `Fault`.
-/

namespace DefcoinCore.AddrMan

open DefcoinCore List

/-- `ADDRMAN_TRIED_BUCKET_COUNT`. -/
abbrev triedBucketCount : Nat := 256

/-- `ADDRMAN_NEW_BUCKET_COUNT`. -/
abbrev newBucketCount : Nat := 1024

instance : NeZero newBucketCount := ⟨by decide⟩

/-- `ADDRMAN_BUCKET_SIZE`. -/
abbrev bucketSize : Nat := 64

/-- `ADDRMAN_TRIED_BUCKETS_PER_GROUP`. -/
def triedBucketsPerGroup : UInt64 := 8

/-- `ADDRMAN_NEW_BUCKETS_PER_SOURCE_GROUP`. -/
def newBucketsPerSourceGroup : UInt64 := 64

/-- `ADDRMAN_NEW_BUCKETS_PER_ADDRESS`. -/
def newBucketsPerAddress : Int := 8

/-- `ADDRMAN_HORIZON_DAYS`. -/
def horizonDays : Int := 30

/-- `ADDRMAN_RETRIES`. -/
def retries : Int := 3

/-- `ADDRMAN_MAX_FAILURES`. -/
def maxFailures : Int := 10

/-- `ADDRMAN_MIN_FAIL_DAYS`. -/
def minFailDays : Int := 7

/-- `ADDRMAN_REPLACEMENT_HOURS`. -/
def replacementHours : Int := 4

/-- `ADDRMAN_SET_TRIED_COLLISION_SIZE`. -/
def setTriedCollisionSize : Nat := 10

/-- `ADDRMAN_TEST_WINDOW`, in seconds. -/
def testWindow : Int := 40 * 60

/-- What can be written into a `CHashWriter` here. -/
inductive HashItem where
  | uint256 (x : Uint256)
  | bytes (v : List UInt8)
  | uint64 (x : UInt64)
  | char (c : Char)
  | int (n : Int)

/-- The functions of other components that the address manager calls. -/
structure AddrEnv where
  getCheapHash : List HashItem → UInt64
  getAddrBytes : CNetAddr → List UInt8
  /-- `CNetAddr::GetGroup`, with the map of autonomous systems. -/
  getGroup : CNetAddr → List Bool → List UInt8
  isRoutable : CNetAddr → Bool
  isValid : CNetAddr → Bool

variable (env : AddrEnv)

/-- `CService::GetKey`: the address and the port, high byte first. -/
def getKey (addr : CService) : List UInt8 :=
  env.getAddrBytes addr.toCNetAddr ++ [(addr.port / 0x100).toUInt8, (addr.port &&& 0x0FF).toUInt8]

/-- `CAddrInfo::GetTriedBucket`. It reads the address and the port of the entry. -/
def getTriedBucket (nKey : Uint256) (asmap : List Bool) (addr : CService) : Fin triedBucketCount :=
  let hash1 := env.getCheapHash [.uint256 nKey, .bytes (getKey env addr)]
  let hash2 := env.getCheapHash [.uint256 nKey, .bytes (env.getGroup addr.toCNetAddr asmap),
    .uint64 (hash1 % triedBucketsPerGroup)]
  Fin.ofNat triedBucketCount hash2.toNat

/-- `CAddrInfo::GetNewBucket`, given the source of the address. -/
def getNewBucket (nKey : Uint256) (asmap : List Bool) (addr : CService)
    (src : CNetAddr) : Fin newBucketCount :=
  let vchSourceGroupKey := env.getGroup src asmap
  let hash1 := env.getCheapHash [.uint256 nKey, .bytes (env.getGroup addr.toCNetAddr asmap),
    .bytes vchSourceGroupKey]
  let hash2 := env.getCheapHash [.uint256 nKey, .bytes vchSourceGroupKey,
    .uint64 (hash1 % newBucketsPerSourceGroup)]
  Fin.ofNat newBucketCount hash2.toNat

/-- `CAddrInfo::GetBucketPosition`. -/
def getBucketPosition (nKey : Uint256) (addr : CService) (fNew : Bool)
    (nBucket : Int) : Fin bucketSize :=
  let hash1 := env.getCheapHash [.uint256 nKey, .char (if fNew then 'N' else 'K'), .int nBucket,
    .bytes (getKey env addr)]
  Fin.ofNat bucketSize hash1.toNat

/-- A slot of the tried table: a bucket and a position in it. -/
abbrev TriedSlot := Fin triedBucketCount × Fin bucketSize

/-- A slot of the new table. -/
abbrev NewSlot := Fin newBucketCount × Fin bucketSize

/-- The buckets of the tried table, in order. Evaluating a loop over them is never wanted in a
proof. -/
@[irreducible]
def triedBuckets : List (Fin triedBucketCount) := finRange triedBucketCount

/-- The buckets of the new table, in order. -/
@[irreducible]
def newBuckets : List (Fin newBucketCount) := finRange newBucketCount

/-- The positions of a bucket, in order. -/
@[irreducible]
def positions : List (Fin bucketSize) := finRange bucketSize

@[simp]
theorem mem_newBuckets (bucket : Fin newBucketCount) : bucket ∈ newBuckets := by
  unfold newBuckets
  exact mem_finRange bucket

@[simp]
theorem mem_positions (pos : Fin bucketSize) : pos ∈ positions := by
  unfold positions
  exact mem_finRange pos

/-- The buckets of the new table stand in their order. -/
theorem getElem?_newBuckets (bucket : Fin newBucketCount) :
    newBuckets[bucket.val]? = some bucket := by
  unfold newBuckets
  rw [getElem?_eq_getElem (by simp), getElem_finRange]
  rfl

theorem length_newBuckets : newBuckets.length = newBucketCount := by
  unfold newBuckets
  exact length_finRange

theorem length_positions : positions.length = bucketSize := by
  unfold positions
  exact length_finRange

/-- `CAddrInfo`: an address with its statistics. -/
structure CAddrInfo extends CAddress where
  nLastTry : Int := 0
  nLastCountAttempt : Int := 0
  /-- Where knowledge about this address first came from. -/
  source : CNetAddr := {}
  nLastSuccess : Int := 0
  nAttempts : Int := 0
  /-- The number of slots of the new table that hold the entry. -/
  nRefCount : Int := 0
  fInTried : Bool := false
  /-- The position in `vRandom`. -/
  nRandomPos : Int := -1
  deriving DecidableEq

instance : Inhabited CAddrInfo := ⟨{}⟩

/-- `CAddrInfo::IsTerrible`. -/
def CAddrInfo.isTerrible (info : CAddrInfo) (nNow : Int) : Bool :=
  if info.nLastTry ≠ 0 ∧ info.nLastTry ≥ nNow - 60 then false
  else if (info.nTime.toNat : Int) > nNow + 10 * 60 then true
  else if info.nTime = 0 ∨ nNow - info.nTime.toNat > horizonDays * 24 * 60 * 60 then true
  else if info.nLastSuccess = 0 ∧ info.nAttempts ≥ retries then true
  else if nNow - info.nLastSuccess > minFailDays * 24 * 60 * 60 ∧ info.nAttempts ≥ maxFailures then
    true
  else false

/-- `CAddrMan`. An empty slot holds `-1`. -/
structure CAddrMan where
  nIdCount : Int := 0
  mapInfo : StdMap Int CAddrInfo := ∅
  mapAddr : StdMap CNetAddr Int := ∅
  vRandom : List Int := []
  nTried : Int := 0
  vvTried : TriedSlot → Int := fun _ => -1
  nNew : Int := 0
  vvNew : NewSlot → Int := fun _ => -1
  nLastGood : Int := 1
  m_tried_collisions : Std.ExtTreeSet Int := ∅
  nKey : Uint256
  m_asmap : List Bool := []

/-- How a function can fail: by an assertion of the named function, or by using a reference to an
entry that was erased. -/
inductive Fault where
  | swapRandom
  | delete
  | remove
  | clearNew
  | makeTried
  | getAddr
  | serialize
  | dangling
  deriving DecidableEq

namespace CAddrMan

variable (env : AddrEnv) (m : CAddrMan)

/-- The slot of the tried table that an address belongs to. -/
def triedSlot (addr : CService) : TriedSlot :=
  let tried_bucket := getTriedBucket env m.nKey m.m_asmap addr
  (tried_bucket, getBucketPosition env m.nKey addr false tried_bucket.val)

/-- The slot of an address in a bucket of the new table. -/
def newSlotIn (addr : CService) (bucket : Fin newBucketCount) : NewSlot :=
  (bucket, getBucketPosition env m.nKey addr true bucket.val)

/-- The slot of the new table that an address from a source belongs to. -/
def newSlot (addr : CService) (src : CNetAddr) : NewSlot :=
  m.newSlotIn env addr (getNewBucket env m.nKey m.m_asmap addr src)

/-- `Clear`; the collisions stay. -/
def clear (nKey : Uint256) : CAddrMan :=
  { nKey := nKey, m_asmap := m.m_asmap, m_tried_collisions := m.m_tried_collisions }

variable (nId : Int) (info : CAddrInfo)

/-- Writing an entry through a reference. -/
def setInfo : CAddrMan :=
  { m with mapInfo := m.mapInfo.insert nId info }

/-- Reading an entry through a reference. -/
def deref : Except Fault CAddrInfo :=
  match m.mapInfo[nId]? with
  | some info => .ok info
  | none => .error .dangling

/-- `Find`. -/
def find (addr : CNetAddr) : Option (Int × CAddrInfo) :=
  match m.mapAddr[addr]? with
  | none => none
  | some nId =>
    match m.mapInfo[nId]? with
    | some info => some (nId, info)
    | none => none

/-- `Create`. -/
def create (addr : CAddress) (addrSource : CNetAddr) : Int × CAddrMan :=
  (m.nIdCount,
    { m with
      nIdCount := m.nIdCount + 1
      mapInfo := m.mapInfo.insert m.nIdCount
        { toCAddress := addr, source := addrSource, nRandomPos := m.vRandom.length }
      mapAddr := m.mapAddr.insert addr.toCNetAddr m.nIdCount
      vRandom := m.vRandom ++ [m.nIdCount] })

/-- `Create` followed by `nNew++`, as both callers of `Create` do. -/
def createNew (addr : CAddress) (addrSource : CNetAddr) : Int × CAddrMan :=
  let (nId, m) := m.create addr addrSource
  (nId, { m with nNew := m.nNew + 1 })

/-- `SwapRandom`. A negative position is a large `unsigned int`, past the end of `vRandom`. -/
def swapRandom (nRndPos1 nRndPos2 : Int) : Except Fault CAddrMan :=
  if nRndPos1 = nRndPos2 then .ok m
  else if nRndPos1 < 0 ∨ nRndPos2 < 0 then .error .swapRandom
  else
    match m.vRandom[nRndPos1.toNat]?, m.vRandom[nRndPos2.toNat]? with
    | some nId1, some nId2 =>
      match m.mapInfo[nId1]?, m.mapInfo[nId2]? with
      | some info1, some info2 =>
        .ok { m with
          mapInfo := (m.mapInfo.insert nId1 { info1 with nRandomPos := nRndPos2 }).insert nId2
            { info2 with nRandomPos := nRndPos1 }
          vRandom := (m.vRandom.set nRndPos1.toNat nId2).set nRndPos2.toNat nId1 }
      | _, _ => .error .swapRandom
    | _, _ => .error .swapRandom

/-- The end of `Delete`, and of `Remove_` for a tried entry: the entry leaves `vRandom`, `mapAddr`
and `mapInfo`. -/
def eraseInfo : Except Fault CAddrMan := do
  let m ← m.swapRandom info.nRandomPos (m.vRandom.length - 1)
  pure { m with
    vRandom := m.vRandom.dropLast
    mapAddr := m.mapAddr.erase info.toCNetAddr
    mapInfo := m.mapInfo.erase nId }

/-- `Delete`. -/
def delete : Except Fault CAddrMan :=
  match m.mapInfo[nId]? with
  | none => .error .delete
  | some info =>
    if info.fInTried ∨ info.nRefCount ≠ 0 then .error .delete
    else do
      let m ← m.eraseInfo nId info
      pure { m with nNew := m.nNew - 1 }

/-- A slot of the new table gives up its reference to an entry. -/
def unref (slot : NewSlot) : CAddrMan :=
  { m with
    mapInfo := m.mapInfo.insert nId { info with nRefCount := info.nRefCount - 1 }
    vvNew := Function.update m.vvNew slot (-1) }

/-- A slot of the new table takes a reference to an entry, which then has `nRefCount` of them. -/
def ref (nRefCount : Int) (slot : NewSlot) : CAddrMan :=
  { m with
    mapInfo := m.mapInfo.insert nId { info with nRefCount := nRefCount }
    vvNew := Function.update m.vvNew slot nId }

/-- `ClearNew`. -/
def clearNew (slot : NewSlot) : Except Fault CAddrMan :=
  if m.vvNew slot = -1 then .ok m
  else
    let nIdDelete := m.vvNew slot
    let (infoDelete, mapInfo) := m.mapInfo.subscript nIdDelete
    let m := { m with mapInfo := mapInfo }
    if infoDelete.nRefCount ≤ 0 then .error .clearNew
    else
      let m := m.unref nIdDelete infoDelete slot
      if infoDelete.nRefCount - 1 = 0 then m.delete nIdDelete else .ok m

/-- The search of `Remove_` for a slot of the tried table that holds an entry. -/
def findTriedRef : Option TriedSlot :=
  triedBuckets.findSome? fun bucket =>
    positions.findSome? fun pos =>
      if m.vvTried (bucket, pos) = nId then some (bucket, pos) else none

/-- The slots of the new table that hold an entry, in the order of `Remove_`. -/
def newRefs : List NewSlot :=
  newBuckets.flatMap fun bucket =>
    (positions.filter fun pos => m.vvNew (bucket, pos) = nId).map fun pos => (bucket, pos)

variable (slot : TriedSlot)

/-- The branch of `Remove_` for a tried entry, once its slot is known. -/
def removeTried : Except Fault CAddrMan :=
  if info.nRefCount ≠ 0 then .error .remove
  else
    let info := { info with fInTried := false }
    { m with
      vvTried := Function.update m.vvTried slot (-1)
      nTried := m.nTried - 1
      mapInfo := m.mapInfo.insert nId info
      m_tried_collisions := m.m_tried_collisions.erase nId }.eraseInfo nId info

/-- `Remove_`. -/
def remove_ : Except Fault (Bool × CAddrMan) :=
  match m.mapInfo[nId]? with
  | none => .ok (false, m)
  | some info =>
    if info.fInTried then
      let slot := m.triedSlot env info.toCService
      if m.vvTried slot = nId then do
        let m ← m.removeTried nId info slot
        pure (true, m)
      else
        match m.findTriedRef nId with
        | none => .error .remove
        | some slot => do
          let m ← m.removeTried nId info slot
          pure (true, m)
    else do
      let m ← (m.newRefs nId).foldlM (fun m ref => m.clearNew ref) m
      let m := { m with m_tried_collisions := m.m_tried_collisions.erase nId }
      match m.mapInfo[nId]? with
      | none => pure (true, m)
      | some info =>
        if info.nRefCount ≠ 0 then .error .remove
        else do
          let m ← m.delete nId
          pure (true, m)

/-- The body of the loop of `MakeTried`: a bucket of the new table gives up the entry. -/
def leaveBucket (addr : CService) (bucket : Fin newBucketCount) : Except Fault CAddrMan :=
  let slot := m.newSlotIn env addr bucket
  if m.vvNew slot = nId then do
    let info ← m.deref nId
    pure (m.unref nId info slot)
  else .ok m

/-- `MakeTried` evicts the entry of a slot of the tried table: it moves to the new table, deleting
whatever is there. -/
def evictTried : Except Fault CAddrMan :=
  let nIdEvict := m.vvTried slot
  match m.mapInfo[nIdEvict]? with
  | none => .error .makeTried
  | some infoOld => do
    let m := { m with
      mapInfo := m.mapInfo.insert nIdEvict { infoOld with fInTried := false }
      vvTried := Function.update m.vvTried slot (-1)
      nTried := m.nTried - 1 }
    let slotU := m.newSlot env infoOld.toCService infoOld.source
    let m ← m.clearNew slotU
    if m.vvNew slotU ≠ -1 then .error .makeTried
    else do
      let infoOld ← m.deref nIdEvict
      pure { m.ref nIdEvict infoOld 1 slotU with nNew := m.nNew + 1 }

/-- `MakeTried` makes space in the tried table. -/
def makeSpace : Except Fault CAddrMan :=
  if m.vvTried slot ≠ -1 then m.evictTried env slot else .ok m

/-- `MakeTried` puts the entry into its free slot. -/
def enterTried : Except Fault CAddrMan :=
  if m.vvTried slot ≠ -1 then .error .makeTried
  else do
    let info ← m.deref nId
    pure { m with
      vvTried := Function.update m.vvTried slot nId
      nTried := m.nTried + 1
      mapInfo := m.mapInfo.insert nId { info with fInTried := true } }

/-- `MakeTried`. -/
def makeTried : Except Fault CAddrMan := do
  let info ← m.deref nId
  let m ← newBuckets.foldlM (fun m bucket => m.leaveBucket env nId info.toCService bucket) m
  let m := { m with nNew := m.nNew - 1 }
  let info ← m.deref nId
  if info.nRefCount ≠ 0 then .error .makeTried
  else do
    let slot := m.triedSlot env info.toCService
    let m ← m.makeSpace env slot
    m.enterTried nId slot

/-- The search of `Good_` for a bucket of the new table that holds the entry, from a random one
on. -/
def findNewBucket (addr : CService) (nRnd : Nat) : Option (Fin newBucketCount) :=
  newBuckets.findSome? fun n =>
    let nB := Fin.ofNat newBucketCount (n.val + nRnd)
    if m.vvNew (m.newSlotIn env addr nB) = nId then some nB else none

/-- The rest of `Good_`, once the statistics of the entry were updated: an entry that is not tried
yet moves to the tried table, unless its slot is taken and the entry there should be tested first.
-/
def promote (test_before_evict : Bool) (rnd : Nat) : Except Fault CAddrMan :=
  if info.fInTried then .ok m
  else
    match m.findNewBucket env nId info.toCService (rnd % newBucketCount) with
    | none => .ok m
    | some _ =>
      if test_before_evict ∧ m.vvTried (m.triedSlot env info.toCService) ≠ -1 then
        if m.m_tried_collisions.size < setTriedCollisionSize then
          .ok { m with m_tried_collisions := m.m_tried_collisions.insert nId }
        else .ok m
      else m.makeTried env nId

end CAddrMan

/-- What `Good_` updates of an entry. -/
def CAddrInfo.good (info : CAddrInfo) (nTime : Int) : CAddrInfo :=
  { info with nLastSuccess := nTime, nLastTry := nTime, nAttempts := 0 }

/-- `Good_`; `rnd` is the random draw. -/
def CAddrMan.good_ (m : CAddrMan) (addr : CService) (test_before_evict : Bool)
    (nTime : Int) (rnd : Nat) : Except Fault CAddrMan :=
  let m := { m with nLastGood := nTime }
  match m.find addr.toCNetAddr with
  | none => .ok m
  | some (nId, info) =>
    if info.toCService ≠ addr then .ok m
    else (m.setInfo nId (info.good nTime)).promote env nId (info.good nTime) test_before_evict rnd

/-- What `Add_` updates of a known entry: its time now and then, and its services. -/
def CAddrInfo.update (info : CAddrInfo) (addr : CAddress) (nTimePenalty now : Int) : CAddrInfo :=
  let nUpdateInterval : Int :=
    if now - addr.nTime.toNat < 24 * 60 * 60 then 60 * 60 else 24 * 60 * 60
  let nTime :=
    if addr.nTime ≠ 0 ∧ (info.nTime = 0 ∨
        (info.nTime.toNat : Int) < addr.nTime.toNat - nUpdateInterval - nTimePenalty) then
      UInt32.ofInt (max 0 (addr.nTime.toNat - nTimePenalty))
    else info.nTime
  { info with nTime := nTime, nServices := info.nServices ||| addr.nServices }

namespace CAddrMan

variable (env : AddrEnv) (m : CAddrMan)

/-- The end of `Add_`: the entry enters the slot of its source, unless the slot holds another entry
that is worth keeping. -/
def enterNew (nId : Int) (source : CNetAddr) (now : Int) : Except Fault CAddrMan := do
  let info ← m.deref nId
  let slot := m.newSlot env info.toCService source
  if m.vvNew slot = nId then pure m
  else do
    let (fInsert, m) :=
      if m.vvNew slot = -1 then (true, m)
      else
        let (infoExisting, mapInfo) := m.mapInfo.subscript (m.vvNew slot)
        (infoExisting.isTerrible now || (infoExisting.nRefCount > 1 && info.nRefCount = 0),
          { m with mapInfo := mapInfo })
    if fInsert then do
      let m ← m.clearNew slot
      let info ← m.deref nId
      pure (m.ref nId info (info.nRefCount + 1) slot)
    else if info.nRefCount = 0 then m.delete nId
    else pure m

variable (addr : CAddress)

/-- `Add_`; `rnd` is the random draw. -/
def add_ (source : CNetAddr) (nTimePenalty now : Int) (rnd : Nat) :
    Except Fault (Bool × CAddrMan) :=
  if env.isRoutable addr.toCNetAddr = false then .ok (false, m)
  else
    let nTimePenalty := if addr.toCNetAddr = source then 0 else nTimePenalty
    match m.find addr.toCNetAddr with
    | some (nId, info) =>
      let info := info.update addr nTimePenalty now
      let m := m.setInfo nId info
      if addr.nTime = 0 ∨ (info.nTime ≠ 0 ∧ addr.nTime ≤ info.nTime) then .ok (false, m)
      else if info.fInTried then .ok (false, m)
      else if info.nRefCount = newBucketsPerAddress then .ok (false, m)
      else
        let nFactor := 2 ^ info.nRefCount.toNat
        if nFactor > 1 ∧ rnd % nFactor ≠ 0 then .ok (false, m)
        else do
          let m ← m.enterNew env nId source now
          pure (false, m)
    | none => do
      -- The time of the new entry is set right after its creation.
      let nTime := UInt32.ofInt (max 0 (addr.nTime.toNat - nTimePenalty))
      let (nId, m) := m.createNew { addr with nTime := nTime } source
      let m ← m.enterNew env nId source now
      pure (true, m)

/-- The entry that `AddAndMarkGood_` finds or creates. -/
def findOrCreate (now : Int) : Int × CAddrMan :=
  match m.find addr.toCNetAddr with
  | none =>
    let nTime := if addr.nTime ≠ 0 then addr.nTime else UInt32.ofInt now
    m.createNew { addr with nTime := nTime } addr.toCNetAddr
  | some (nId, info) =>
    let nTime :=
      if addr.nTime ≠ 0 ∧ (info.nTime = 0 ∨ info.nTime < addr.nTime) then addr.nTime
      else info.nTime
    (nId, m.setInfo nId
      { info with nTime := nTime, nServices := info.nServices ||| addr.nServices })

/-- `AddAndMarkGood_` puts an entry that is in neither table into its own slot of the new table. -/
def enterLoose (nId : Int) (src : CNetAddr) : Except Fault CAddrMan := do
  let info ← m.deref nId
  if info.fInTried = false ∧ info.nRefCount = 0 then do
    let slot := m.newSlot env info.toCService src
    let m ← m.clearNew slot
    let info ← m.deref nId
    pure (m.ref nId info 1 slot)
  else pure m

/-- `AddAndMarkGood_`. -/
def addAndMarkGood_ (now : Int) (rnd : Nat) : Except Fault (Bool × CAddrMan) :=
  if env.isRoutable addr.toCNetAddr = false then .ok (false, m)
  else do
    let (nId, m) := m.findOrCreate addr now
    let m ← m.enterLoose env nId addr.toCNetAddr
    let m ← m.good_ env addr.toCService false now rnd
    pure (true, m)

/-- The entry of a service, when the port is the same too, is changed by `f`. This is how
`Attempt_`, `Connected_` and `SetServices_` look for the entry to change. -/
def modifyService (addr : CService) (f : CAddrInfo → CAddrInfo) : CAddrMan :=
  match m.find addr.toCNetAddr with
  | none => m
  | some (nId, info) => if info.toCService ≠ addr then m else m.setInfo nId (f info)

/-- `Attempt_`. -/
def attempt_ (addr : CService) (fCountFailure : Bool) (nTime : Int) : CAddrMan :=
  m.modifyService addr fun info =>
    let info := { info with nLastTry := nTime }
    if fCountFailure ∧ info.nLastCountAttempt < m.nLastGood then
      { info with nLastCountAttempt := nTime, nAttempts := info.nAttempts + 1 }
    else info

/-- `Connected_`. -/
def connected_ (addr : CService) (nTime : Int) : CAddrMan :=
  m.modifyService addr fun info =>
    if nTime - info.nTime.toNat > 20 * 60 then { info with nTime := UInt32.ofInt nTime } else info

/-- `SetServices_`. -/
def setServices_ (addr : CService) (nServices : UInt64) : CAddrMan :=
  m.modifyService addr fun info => { info with nServices := nServices }

/-- The loop of `GetAddr_` from position `n` on, with `k` positions to go. -/
def getAddrLoop (nNodes : Nat) (now : Int) (rnd : Nat → Nat) :
    Nat → Nat → CAddrMan → List CAddress → Except Fault (List CAddress × CAddrMan)
  | 0, _, m, vAddr => .ok (vAddr, m)
  | k + 1, n, m, vAddr =>
    if vAddr.length ≥ nNodes then .ok (vAddr, m)
    else do
      let nRndPos := rnd n % (m.vRandom.length - n) + n
      let m ← m.swapRandom n nRndPos
      match m.vRandom[n]? with
      | none => .error .getAddr
      | some nId =>
        match m.mapInfo[nId]? with
        | none => .error .getAddr
        | some ai =>
          getAddrLoop nNodes now rnd k (n + 1) m
            (if ai.isTerrible now then vAddr else vAddr ++ [ai.toCAddress])

/-- `GetAddr_`. -/
def getAddr_ (max_addresses max_pct : Nat) (now : Int) (rnd : Nat → Nat) :
    Except Fault (List CAddress × CAddrMan) :=
  let nNodes := m.vRandom.length
  let nNodes := if max_pct ≠ 0 then max_pct * nNodes / 100 else nNodes
  let nNodes := if max_addresses ≠ 0 then min nNodes max_addresses else nNodes
  getAddrLoop nNodes now rnd m.vRandom.length 0 m []

/-- The body of the loop of `ResolveCollisions_`: whether the collision is over, and the state. -/
def resolveCollision (id_new : Int) (now : Int) (rnd : Nat) : Except Fault (Bool × CAddrMan) :=
  match m.mapInfo[id_new]? with
  | none => .ok (true, m)
  | some info_new =>
    let slot := m.triedSlot env info_new.toCService
    if env.isValid info_new.toCNetAddr = false then .ok (true, m)
    else if m.vvTried slot ≠ -1 then
      let (info_old, mapInfo) := m.mapInfo.subscript (m.vvTried slot)
      let m := { m with mapInfo := mapInfo }
      if now - info_old.nLastSuccess < replacementHours * (60 * 60) then .ok (true, m)
      else if now - info_old.nLastTry < replacementHours * (60 * 60) then
        if now - info_old.nLastTry > 60 then do
          let m ← m.good_ env info_new.toCService false now rnd
          pure (true, m)
        else .ok (false, m)
      else if now - info_new.nLastSuccess > testWindow then do
        let m ← m.good_ env info_new.toCService false now rnd
        pure (true, m)
      else .ok (false, m)
    else do
      let m ← m.good_ env info_new.toCService false now rnd
      pure (true, m)

/-- `ResolveCollisions_`; the draw for a collision may depend on it. -/
def resolveCollisions_ (now : Int) (rnd : Int → Nat) : Except Fault CAddrMan :=
  m.m_tried_collisions.toList.foldlM (fun m id_new => do
    let (erase_collision, m) ← m.resolveCollision env id_new now (rnd id_new)
    if erase_collision then
      pure { m with m_tried_collisions := m.m_tried_collisions.erase id_new }
    else pure m) m

/-- `SelectTriedCollision_`; `rnd` is the random draw. -/
def selectTriedCollision_ (rnd : Nat) : CAddrInfo × CAddrMan :=
  if m.m_tried_collisions.size = 0 then ({}, m)
  else
    match m.m_tried_collisions.toList[rnd % m.m_tried_collisions.size]? with
    | none => ({}, m)
    | some id_new =>
      match m.mapInfo[id_new]? with
      | none => ({}, { m with m_tried_collisions := m.m_tried_collisions.erase id_new })
      | some newInfo =>
        let id_old := m.vvTried (m.triedSlot env newInfo.toCService)
        let (info, mapInfo) := m.mapInfo.subscript id_old
        (info, { m with mapInfo := mapInfo })

/-- The removal of a same-IP entry with another port, as `AddReplacingSameIP` and
`AddAndMarkGoodReplacingSameIP` begin. -/
def removeOtherPort : Except Fault CAddrMan :=
  match m.find addr.toCNetAddr with
  | none => .ok m
  | some (nId, info) =>
    if info.port ≠ addr.port then do
      let (_, m) ← m.remove_ env nId
      pure m
    else .ok m

/-- `AddReplacingSameIP`. -/
def addReplacingSameIP (source : CNetAddr) (nTimePenalty now : Int) (rnd : Nat) :
    Except Fault (Bool × CAddrMan) := do
  let m ← m.removeOtherPort env addr
  m.add_ env addr source nTimePenalty now rnd

/-- `AddAndMarkGoodReplacingSameIP`. -/
def addAndMarkGoodReplacingSameIP (now : Int) (rnd : Nat) : Except Fault (Bool × CAddrMan) := do
  let m ← m.removeOtherPort env addr
  m.addAndMarkGood_ env addr now rnd

end CAddrMan

end DefcoinCore.AddrMan
