import DefcoinCore.AddrMan.Moves
import DefcoinCore.Lib.Stream

/-!
# The file of the address manager

`CAddrMan::Serialize` and `CAddrMan::Unserialize` go through the content of the file
(`AddrManFile`): the key, the counters, the entries of the new table, those of the tried table, and
for each bucket of the new table the indexes of its entries. `toFile` and `load` relate a state to
this content; `AddrManFile.bytes` and `readFile` relate the content to bytes.

The ids of a state are not stored: entries are numbered in the order of their ids, new ones first.
Neither are the tried table, `mapAddr` and `vRandom`; they are rebuilt. The encoding of a single
entry is that of `CAddrInfo` and is left open (`InfoCodec`).
-/

namespace DefcoinCore.AddrMan

open DefcoinCore BitVec

/-- What is stored of an entry. -/
structure StoredInfo extends CAddress where
  source : CNetAddr
  nLastSuccess : Int
  nAttempts : Int
  deriving DecidableEq

/-- What `CAddrInfo` writes of an entry. -/
def CAddrInfo.stored (info : CAddrInfo) : StoredInfo :=
  { toCAddress := info.toCAddress
    source := info.source
    nLastSuccess := info.nLastSuccess
    nAttempts := info.nAttempts }

/-- An entry that was read; the other fields have their initial values. -/
def StoredInfo.load (i : StoredInfo) : CAddrInfo :=
  { toCAddress := i.toCAddress
    source := i.source
    nLastSuccess := i.nLastSuccess
    nAttempts := i.nAttempts }

/-- The encoding of `CAddrInfo`, and the hash that stands for a map of autonomous systems. -/
structure InfoCodec where
  write : StoredInfo → List UInt8
  /-- Reading, with or without the address encoding of format 3. -/
  read : (addrv2 : Bool) → Get StoredInfo
  serializeHash : List Bool → Uint256

variable (codec : InfoCodec)

/-- The version of the map of autonomous systems; null when there is none. -/
def InfoCodec.asmapVersion (asmap : List Bool) : Uint256 :=
  if asmap.length ≠ 0 then codec.serializeHash asmap else 0

/-- `Format::V1_DETERMINISTIC`. -/
def formatV1 : Nat := 1

/-- `Format::V2_ASMAP`. -/
def formatV2 : Nat := 2

/-- `Format::V3_BIP155`, which is also `FILE_FORMAT`. -/
def formatV3 : Nat := 3

/-- `INCOMPATIBILITY_BASE`. -/
def incompatibilityBase : Nat := 32

/-- The content of the file. -/
structure AddrManFile where
  format : Nat
  nKey : Uint256
  nNew : Int
  nTried : Int
  nUBuckets : Int
  newInfos : List StoredInfo
  triedInfos : List StoredInfo
  /-- For each bucket of the new table, the indexes of its entries. -/
  buckets : List (List Int)
  asmapVersion : Uint256

/-- `x ^ (1 << 30)` on an `int`. -/
def flipBit30 (x : Int) : Int := (BitVec.ofInt 32 x ^^^ (1#32 <<< 30)).toInt

/-- Flipping twice gives back an `int`. -/
theorem flipBit30_flipBit30 {x : Int} (hlow : -2 ^ 31 ≤ x) (hhigh : x < 2 ^ 31) :
    flipBit30 (flipBit30 x) = x := by
  unfold flipBit30
  rw [BitVec.ofInt_toInt, BitVec.xor_assoc, BitVec.xor_self, BitVec.xor_zero, BitVec.toInt_ofInt]
  exact Int.bmod_eq_of_le (by omega) (by omega)

theorem flipBit30_bounds (x : Int) : -2 ^ 31 ≤ flipBit30 x ∧ flipBit30 x < 2 ^ 31 :=
  ⟨le_toInt _, toInt_lt⟩

/-! ## Bytes -/

/-- A bucket: the number of its entries and their indexes. -/
def writeBucket (l : List Int) : List UInt8 := writeInt32 l.length ++ l.flatMap writeInt32

/-- The bytes that `Serialize` writes. -/
def AddrManFile.bytes (f : AddrManFile) : List UInt8 :=
  writeLE 1 formatV3 ++ (writeLE 1 (incompatibilityBase + formatV3) ++ (writeLE 32 f.nKey.toNat ++
    (writeInt32 f.nNew ++ (writeInt32 f.nTried ++ (writeInt32 (flipBit30 f.nUBuckets) ++
      (f.newInfos.flatMap codec.write ++ (f.triedInfos.flatMap codec.write ++
        (f.buckets.flatMap writeBucket ++ writeLE 32 f.asmapVersion.toNat))))))))

/-- A `uint256`. -/
def readUint256 : Get Uint256 := do
  let n ← readLE 32
  pure (BitVec.ofNat 256 n)

/-- The indexes of a bucket. -/
def readBucket : Get (List Int) := do
  let nSize ← readInt32
  readMany readInt32 nSize.toNat

/-- The reading of `Unserialize`. -/
def readFile : Get AddrManFile := do
  let format ← readLE 1
  let compat ← readLE 1
  -- The subtraction is one of `uint8_t`.
  let lowest_compatible := (compat + 256 - incompatibilityBase) % 256
  if lowest_compatible > formatV3 then
    throw
      s!"Unsupported format of addrman database: {format}. It is compatible with formats >={lowest_compatible}, but the maximum supported by this version of Defcoin Core is {formatV3}."
  let nKey ← readUint256
  let nNew ← readInt32
  let nTried ← readInt32
  let nUBuckets ← readInt32
  let nUBuckets := if format ≥ formatV1 then flipBit30 nUBuckets else nUBuckets
  if nNew > newBucketCount * bucketSize then
    throw "Corrupt CAddrMan serialization, nNew exceeds limit."
  if nTried > triedBucketCount * bucketSize then
    throw "Corrupt CAddrMan serialization, nTried exceeds limit."
  let newInfos ← readMany (codec.read (format ≥ formatV3)) nNew.toNat
  let triedInfos ← readMany (codec.read (format ≥ formatV3)) nTried.toNat
  let buckets ← readMany readBucket nUBuckets.toNat
  let asmapVersion ← if format ≥ formatV2 then readUint256 else pure 0
  pure { format, nKey, nNew, nTried, nUBuckets, newInfos, triedInfos, buckets, asmapVersion }

/-- Contents that can be written and read back: the counters are those of the lists and within the
limits, and the encoding of each entry reads back. -/
structure AddrManFile.Writable (codec : InfoCodec) (f : AddrManFile) : Prop where
  format : f.format = formatV3
  nNew : f.nNew = f.newInfos.length
  nTried : f.nTried = f.triedInfos.length
  nUBuckets : f.nUBuckets = f.buckets.length
  newLimit : f.newInfos.length ≤ newBucketCount * bucketSize
  triedLimit : f.triedInfos.length ≤ triedBucketCount * bucketSize
  bucketLimit : f.buckets.length ≤ newBucketCount
  newInfos : ∀ i ∈ f.newInfos, Reads (codec.read true) (codec.write i) i
  triedInfos : ∀ i ∈ f.triedInfos, Reads (codec.read true) (codec.write i) i
  indexes : ∀ l ∈ f.buckets, l.length ≤ bucketSize ∧
    ∀ nIndex ∈ l, 0 ≤ nIndex ∧ nIndex < newBucketCount * bucketSize

theorem reads_uint256 (x : Uint256) : Reads readUint256 (writeLE 32 x.toNat) x := by
  have hlt : x.toNat < 256 ^ 32 := x.isLt
  have h := (Reads.readLE hlt).bind_pure fun n => BitVec.ofNat 256 n
  rw [ofNat_toNat, setWidth_eq] at h
  exact h

/-- A bucket reads back. -/
theorem reads_bucket {l : List Int} (hlen : l.length ≤ bucketSize)
    (hindex : ∀ nIndex ∈ l, 0 ≤ nIndex ∧ nIndex < newBucketCount * bucketSize) :
    Reads readBucket (writeBucket l) l := by
  have hsize : (l.length : Int) ≤ 64 := by exact_mod_cast hlen
  refine (Reads.readInt32 (by omega) (by omega)).bind ?_
  refine Reads.readMany l fun nIndex hmem => ?_
  obtain ⟨h0, hlt⟩ := hindex nIndex hmem
  have hlimit : (newBucketCount * bucketSize : Int) = 65536 := by decide
  exact .readInt32 (by omega) (by omega)

/-- The content of a file reads back from its bytes. -/
theorem readFile_bytes (f : AddrManFile) (hf : f.Writable codec) :
    Reads (readFile codec) (f.bytes codec) f := by
  obtain ⟨format, nKey, nNew, nTried, nUBuckets, newInfos, triedInfos, buckets, asmapVersion⟩ := f
  obtain ⟨hformat, hnNew, hnTried, hnUBuckets, hnewLimit, htriedLimit, hbucketLimit, hnew, htried,
    hindexes⟩ := hf
  simp only at *
  have hlimit : newBucketCount * bucketSize = 65536 := rfl
  have hlimit' : triedBucketCount * bucketSize = 16384 := rfl
  have hlimit'' : newBucketCount = 1024 := rfl
  subst hformat hnNew hnTried hnUBuckets
  unfold readFile AddrManFile.bytes
  simp only
  refine (Reads.readLE (by decide)).bind ?_
  refine (Reads.readLE (by decide)).bind ?_
  refine (reads_uint256 nKey).bind ?_
  refine (Reads.readInt32 (by omega) (by omega)).bind ?_
  refine (Reads.readInt32 (by omega) (by omega)).bind ?_
  have hflip := flipBit30_bounds buckets.length
  refine (Reads.readInt32 hflip.1 hflip.2).bind ?_
  simp only [show formatV3 ≥ formatV1 by decide, show formatV3 ≥ formatV2 by decide, if_true,
    flipBit30_flipBit30 (x := buckets.length) (by omega) (by omega), Int.toNat_natCast]
  rw [if_neg (by omega), if_neg (by omega)]
  refine (Reads.readMany newInfos hnew).bind ?_
  refine (Reads.readMany triedInfos htried).bind ?_
  refine (Reads.readMany buckets fun l hl =>
    reads_bucket (hindexes l hl).1 (hindexes l hl).2).bind ?_
  exact (reads_uint256 asmapVersion).bind_pure _

end DefcoinCore.AddrMan
