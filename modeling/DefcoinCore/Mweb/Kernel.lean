import DefcoinCore.Lib.Ensures
import DefcoinCore.Lib.VarInt
import DefcoinCore.Mweb.Models
import DefcoinCore.Net.Message

/-!
# Kernels as bytes

`Serialize`, `Unserialize` and `Create` of `Kernel`. The hash of a kernel is taken over what is
written for it. The writer looks at which fields are there and which lists have items; the reader
looks at the bits of the feature byte. They agree on every field but one kind: a list that a bit
announces and that has no items is read, and then not written. So the bytes of a kernel are written
back as they were read if and only if they announce no empty list (`kernel_encoding_iff`).

`Create` sets the bits after the fields. What it builds is read back unless an amount or the lock
height is negative, the script of a pegout is empty, or a list is longer than the reader accepts.
-/

namespace DefcoinCore.Mweb

open List Kernel Net

/-! ## The code -/

/-- `FEE_FEATURE_BIT`. -/
def feeFeatureBit : UInt8 := 0x01

/-- `PEGIN_FEATURE_BIT`. -/
def peginFeatureBit : UInt8 := 0x02

/-- `PEGOUT_FEATURE_BIT`. -/
def pegoutFeatureBit : UInt8 := 0x04

/-- `HEIGHT_LOCK_FEATURE_BIT`. -/
def heightLockFeatureBit : UInt8 := 0x08

/-- `STEALTH_EXCESS_FEATURE_BIT`. -/
def stealthExcessFeatureBit : UInt8 := 0x10

/-- `EXTRA_DATA_FEATURE_BIT`. -/
def extraDataFeatureBit : UInt8 := 0x20

/-- A bit of the feature byte. -/
def hasFeature (features bit : UInt8) : Bool := features &&& bit ≠ 0

/-- A `CAmount`, as kernels and pegouts write it. -/
def writeCAmount (amount : Int) : List UInt8 := writeVarIntSigned 64 amount

/-- The writer of `PegOutCoin`. -/
def PegOutCoin.serialize (pegout : PegOutCoin) : List UInt8 :=
  writeCAmount pegout.amount ++ writeByteVector pegout.scriptPubKey

/-- The reader of `PegOutCoin`. -/
def PegOutCoin.unserialize : Get PegOutCoin := do
  let amount ← readVarIntSigned 64
  let scriptPubKey ← readByteVector maxSize
  if scriptPubKey = [] then throw "Pegout scriptPubKey must not be empty"
  else pure ⟨amount, scriptPubKey⟩

/-- A list that is written if it has items. -/
def writeNonempty {α : Type} (write : List α → List UInt8) : List α → List UInt8
  | [] => []
  | a :: l => write (a :: l)

/-- The fields of a kernel from the fee to the extra data, as they are written into a kernel and
hashed for its signature. -/
def writeKernelFields (fee pegin : Option Int) (pegouts : List PegOutCoin) (lockHeight : Option Int)
    (stealthExcess : Option PublicKey) (extraData : List UInt8) : List UInt8 :=
  writeOptional writeCAmount fee ++ writeOptional writeCAmount pegin ++
    writeNonempty (writeVector PegOutCoin.serialize) pegouts ++
    writeOptional (writeVarIntSigned 32) lockHeight ++
    writeOptional (fun key : PublicKey => key.val) stealthExcess ++ writeNonempty writeByteVector
      extraData

/-- `Kernel::Serialize`. -/
def Kernel.serialize (kernel : Kernel) : List UInt8 :=
  [kernel.features] ++ writeKernelFields kernel.fee kernel.pegin kernel.pegouts kernel.lockHeight
    kernel.stealthExcess kernel.extraData ++ kernel.excess.val ++ kernel.signature.val

/-- The next byte. -/
def readByte : Get UInt8 := do
  let n ← readLE 1
  pure (UInt8.ofNat n)

/-- What is read before the pegouts. -/
structure KernelHead where
  features : UInt8
  fee : Option Int
  pegin : Option Int

/-- What is read before the extra data. -/
structure KernelFront extends KernelHead where
  pegouts : List PegOutCoin
  lockHeight : Option Int
  stealthExcess : Option PublicKey

def readKernelHead : Get KernelHead := do
  let features ← readByte
  let fee ← readIf (hasFeature features feeFeatureBit) (readVarIntSigned 64)
  let pegin ← readIf (hasFeature features peginFeatureBit) (readVarIntSigned 64)
  pure ⟨features, fee, pegin⟩

def readKernelFront : Get KernelFront := do
  let head ← readKernelHead
  let pegouts ← readIf (hasFeature head.features pegoutFeatureBit)
    (readVector maxSize PegOutCoin.unserialize)
  let lockHeight ← readIf (hasFeature head.features heightLockFeatureBit) (readVarIntSigned 32)
  let stealthExcess ← readIf (hasFeature head.features stealthExcessFeatureBit) (readArray 33)
  -- A list that is not read stays empty.
  pure ⟨head, pegouts.getD [], lockHeight, stealthExcess⟩

/-- `Kernel::Unserialize`. -/
def Kernel.unserialize (hashBytes : List UInt8 → Hash) : Get Kernel := do
  let front ← readKernelFront
  let extraData ← readIf (hasFeature front.features extraDataFeatureBit) (readByteVector maxSize)
  let excess ← readArray 33
  let signature ← readArray 64
  let kernel : Kernel :=
    { features := front.features
      fee := front.fee
      pegin := front.pegin
      pegouts := front.pegouts
      lockHeight := front.lockHeight
      stealthExcess := front.stealthExcess
      extraData := extraData.getD []
      excess
      signature
      hash := 0 }
  pure { kernel with hash := hashBytes kernel.serialize }

/-- The operations on keys that `Create` uses. -/
structure KernelKeys where
  /-- `Commitment::Blinded`, with the value zero. -/
  blinded : BlindingFactor → Commitment
  /-- `PublicKey::From`, of a secret key. -/
  publicKeyFrom : Bytes 32 → PublicKey
  /-- `PublicKey::From`, of a commitment. -/
  publicKeyOf : Commitment → PublicKey
  /-- A secret key times the one of a hash, plus another. -/
  mulAdd : Bytes 32 → Hash → Bytes 32 → Bytes 32
  sign : Bytes 32 → Hash → Signature

/-- The arguments of `Create`. -/
structure KernelArgs where
  blind : BlindingFactor
  stealth_blind : Option (Bytes 32)
  fee : Option Int
  pegin_amount : Option Int
  pegouts : List PegOutCoin
  lock_height : Option Int

/-- A feature bit, if its field is there. -/
def featureIf (present : Bool) (bit : UInt8) : UInt8 := if present then bit else 0

/-- The feature byte of `Create`. -/
def KernelArgs.features (args : KernelArgs) : UInt8 :=
  featureIf args.fee.isSome feeFeatureBit ||| featureIf args.pegin_amount.isSome peginFeatureBit |||
    featureIf (!args.pegouts.isEmpty) pegoutFeatureBit |||
    featureIf args.lock_height.isSome heightLockFeatureBit |||
    featureIf args.stealth_blind.isSome stealthExcessFeatureBit

/-- `Kernel::GetSignatureMessage`. -/
def getSignatureMessage (hashBytes : List UInt8 → Hash) (features : UInt8)
    (excess_commitment : Commitment)
    (stealth_commitment : Option PublicKey) (fee pegin_amount : Option Int)
    (pegouts : List PegOutCoin) (lock_height : Option Int) (extra_data : List UInt8) : Hash :=
  hashBytes ([features] ++ excess_commitment.val ++
    writeKernelFields fee pegin_amount pegouts lock_height stealth_commitment extra_data)

/-- `Kernel::Create`. -/
def Kernel.create (hashBytes : List UInt8 → Hash) (keys : KernelKeys) (args : KernelArgs) :
    Kernel :=
  let excess_commit := keys.blinded args.blind
  let stealth_excess := args.stealth_blind.map keys.publicKeyFrom
  let sig_key :=
    match args.stealth_blind with
    | none => args.blind
    | some stealth_blind =>
      keys.mulAdd args.blind (hashBytes ((keys.publicKeyOf excess_commit).val ++
        (keys.publicKeyFrom stealth_blind).val)) stealth_blind
  let sig_message := getSignatureMessage hashBytes args.features excess_commit
    stealth_excess args.fee args.pegin_amount args.pegouts args.lock_height []
  let kernel : Kernel :=
    { features := args.features
      fee := args.fee
      pegin := args.pegin_amount
      pegouts := args.pegouts
      lockHeight := args.lock_height
      stealthExcess := stealth_excess
      extraData := []
      excess := excess_commit
      signature := keys.sign sig_key sig_message
      hash := 0 }
  { kernel with hash := hashBytes kernel.serialize }

/-! ## What is read -/

variable {α : Type} {cond : Bool} {s rest : List UInt8} {hashBytes : List UInt8 → Hash}
  {kernel : Kernel} {write : List α → List UInt8} {l : List α}

theorem readByte_eq_ok_iff {b : UInt8} : readByte s = .ok (b, rest) ↔ s = b :: rest := by
  unfold readByte
  simp only [Get.bind_eq_ok_iff, Get.pure_eq_ok_iff,
    (Canonical.readLE 1).eq_ok_iff fun _ h => .readLE h]
  constructor
  · rintro ⟨n, s', ⟨rfl, -⟩, rfl, rfl⟩
    rfl
  · rintro rfl
    refine ⟨b.toNat, rest, ⟨?_, b.toNat_lt⟩, UInt8.ofNat_toNat, rfl⟩
    rw [writeLE, writeLE, UInt8.ofNat_toNat]
    rfl

/-- A varint that is read if a bit announces it. -/
theorem readIf_varInt_eq_ok_iff {w : Nat} (hw : 8 ≤ w) {n : Option Int} :
    readIf cond (readVarIntSigned w) s = .ok (n, rest) ↔
      s = writeOptional (writeVarIntSigned w) n ++ rest ∧
      n.isSome = cond ∧ ∀ v, n = some v → 0 ≤ v ∧ v < 2 ^ (w - 1) :=
  ((Canonical.readVarIntSigned hw).readIf cond).eq_ok_iff fun _ h => .readIf h.1.symm fun v hv =>
    .readVarIntSigned (by omega) (h.2 v hv).1 (h.2 v hv).2

/-- A pegout that the reader accepts. -/
def PegOutCoin.Readable (pegout : PegOutCoin) : Prop :=
  0 ≤ pegout.amount ∧ pegout.amount < 2 ^ 63 ∧ pegout.scriptPubKey ≠ [] ∧
    pegout.scriptPubKey.length ≤ maxSize

theorem pegout_eq_ok_iff {pegout : PegOutCoin} :
    PegOutCoin.unserialize s = .ok (pegout, rest) ↔ s = pegout.serialize ++ rest ∧
      pegout.Readable := by
  have hmax : maxSize < 2 ^ 64 := by decide
  unfold PegOutCoin.unserialize PegOutCoin.serialize
  simp only [Get.bind_eq_ok_iff, append_assoc,
    (Canonical.readVarIntSigned (w := 64) (by decide)).eq_ok_iff fun _ h =>
      .readVarIntSigned (by decide) h.1 h.2,
    (Canonical.readByteVector maxSize).eq_ok_iff fun _ h => .readByteVector h (by omega)]
  constructor
  · rintro ⟨amount, _, ⟨rfl, hnonneg, hlt⟩, script, _, ⟨rfl, hlen⟩, h⟩
    split_ifs at h with hempty
    · cases h
    · obtain ⟨rfl, rfl⟩ := Get.pure_eq_ok_iff.mp h
      exact ⟨rfl, hnonneg, hlt, hempty, hlen⟩
  · rintro ⟨rfl, hnonneg, hlt, hempty, hlen⟩
    refine ⟨pegout.amount, _, ⟨rfl, hnonneg, hlt⟩, pegout.scriptPubKey, _, ⟨rfl, hlen⟩, ?_⟩
    rw [if_neg hempty]
    rfl

/-- An amount that the reader returns. -/
def ReadableAmount (amount : Option Int) : Prop := ∀ v, amount = some v → 0 ≤ v ∧ v < 2 ^ 63

/-- A lock height that the reader returns. -/
def ReadableHeight (lockHeight : Option Int) : Prop := ∀ v, lockHeight = some v → 0 ≤ v ∧ v < 2 ^ 31

/-- Pegouts that the reader returns. -/
def ReadablePegouts (pegouts : List PegOutCoin) : Prop :=
  pegouts.length ≤ maxSize ∧ ∀ pegout ∈ pegouts, pegout.Readable

/-- A list that is written if a bit announces it. -/
def writeAnnounced {α : Type} (cond : Bool) (write : List α → List UInt8) (l : List α) :
    List UInt8 :=
  if cond then write l else []

/-- The bytes that the reader takes before the pegouts. -/
def KernelHead.announced (head : KernelHead) : List UInt8 :=
  [head.features] ++ writeOptional writeCAmount head.fee ++ writeOptional writeCAmount head.pegin

/-- What the reader returns before the pegouts. -/
structure KernelHead.Readable (head : KernelHead) : Prop where
  fee_iff : head.fee.isSome = hasFeature head.features feeFeatureBit
  fee : ReadableAmount head.fee
  pegin_iff : head.pegin.isSome = hasFeature head.features peginFeatureBit
  pegin : ReadableAmount head.pegin

theorem readKernelHead_eq_ok_iff {head : KernelHead} :
    readKernelHead s = .ok (head, rest) ↔ s = head.announced ++ rest ∧ head.Readable := by
  unfold readKernelHead KernelHead.announced
  simp only [Get.bind_eq_ok_iff, Get.pure_eq_ok_iff, readByte_eq_ok_iff,
    readIf_varInt_eq_ok_iff (w := 64) (by decide), append_assoc]
  constructor
  · rintro ⟨features, _, rfl, fee, _, ⟨rfl, hfee, hval⟩, pegin, _, ⟨rfl, hpegin, hval'⟩, rfl, rfl⟩
    exact ⟨rfl, hfee, hval, hpegin, hval'⟩
  · rintro ⟨rfl, h⟩
    exact ⟨_, _, rfl, _, _, ⟨rfl, h.fee_iff, h.fee⟩, _, _, ⟨rfl, h.pegin_iff, h.pegin⟩, rfl, rfl⟩

/-- The bytes that the reader takes before the extra data. -/
def KernelFront.announced (front : KernelFront) : List UInt8 :=
  front.toKernelHead.announced ++ writeAnnounced (hasFeature front.features pegoutFeatureBit)
    (writeVector PegOutCoin.serialize) front.pegouts ++
    writeOptional (writeVarIntSigned 32) front.lockHeight ++
    writeOptional (fun key : PublicKey => key.val) front.stealthExcess

/-- What the reader returns before the extra data. -/
structure KernelFront.Readable (front : KernelFront) : Prop where
  head : front.toKernelHead.Readable
  pegouts_nil : hasFeature front.features pegoutFeatureBit = false → front.pegouts = []
  pegouts : ReadablePegouts front.pegouts
  lockHeight_iff : front.lockHeight.isSome = hasFeature front.features heightLockFeatureBit
  lockHeight : ReadableHeight front.lockHeight
  stealthExcess_iff : front.stealthExcess.isSome = hasFeature front.features stealthExcessFeatureBit

/-- A list that is read if a bit announces it; one that is not read is empty. -/
theorem readIf_list_eq_ok_iff {x : Get (List α)} {valid : List α → Prop}
    (hx : Canonical x write valid) (hreads : ∀ l, valid l → Reads x (write l) l) (hnil : valid []) :
    (∃ l', readIf cond x s = .ok (l', rest) ∧ l'.getD [] = l) ↔
      s = writeAnnounced cond write l ++ rest ∧ (cond = false → l = []) ∧ valid l := by
  simp only [(hx.readIf cond).eq_ok_iff fun _ h => .readIf h.1.symm fun v hv => hreads v (h.2 v hv)]
  constructor
  · rintro ⟨_ | l', ⟨rfl, rfl, hvalid⟩, rfl⟩
    · exact ⟨rfl, fun _ => rfl, hnil⟩
    · exact ⟨rfl, nofun, hvalid l' rfl⟩
  · rintro ⟨rfl, hempty, hvalid⟩
    cases cond with
    | false => exact ⟨none, ⟨rfl, rfl, nofun⟩, (hempty rfl).symm⟩
    | true => exact ⟨some l, ⟨rfl, rfl, fun _ hv => Option.some.inj hv ▸ hvalid⟩, rfl⟩

theorem readIf_pegouts_eq_ok_iff {pegouts : List PegOutCoin} :
    (∃ l', readIf cond (readVector maxSize PegOutCoin.unserialize) s = .ok (l', rest) ∧
        l'.getD [] = pegouts) ↔
      s = writeAnnounced cond (writeVector PegOutCoin.serialize) pegouts ++ rest ∧
        (cond = false → pegouts = []) ∧ ReadablePegouts pegouts := by
  have hmax : maxSize < 2 ^ 64 := by decide
  have hpegout : Canonical PegOutCoin.unserialize PegOutCoin.serialize PegOutCoin.Readable :=
    fun _ _ _ => pegout_eq_ok_iff.mp
  rw [readIf_list_eq_ok_iff (hpegout.readVector maxSize)]
  · exact and_congr_right'
      (and_congr_right' ⟨fun h => ⟨h.1, h.2.2⟩, fun h => ⟨h.1, by have := h.1; omega, h.2⟩⟩)
  · intro l h
    have hread := Reads.readVector (f := id) l
      (fun pegout hp rest => pegout_eq_ok_iff.mpr ⟨rfl, h.2.2 pegout hp⟩) h.1 h.2.1
    rwa [map_id] at hread
  · exact ⟨Nat.zero_le _, by decide, fun a ha => absurd ha not_mem_nil⟩

theorem readKernelFront_eq_ok_iff {front : KernelFront} :
    readKernelFront s = .ok (front, rest) ↔ s = front.announced ++ rest ∧ front.Readable := by
  unfold readKernelFront KernelFront.announced
  simp only [Get.bind_eq_ok_iff, Get.pure_eq_ok_iff, readKernelHead_eq_ok_iff,
    readIf_varInt_eq_ok_iff (w := 32) (by decide), append_assoc,
    ((Canonical.readArray 33).readIf _).eq_ok_iff fun _ h => .readIf h.1.symm fun key _ =>
      .readArray key]
  constructor
  · rintro ⟨head, _, ⟨rfl, hhead⟩, pegouts, _, hpegouts, lockHeight, _, ⟨rfl, hlock, hval⟩,
      stealthExcess, _,
      ⟨rfl, hstealth, -⟩, rfl, rfl⟩
    obtain ⟨rfl, hnil, hlist⟩ := readIf_pegouts_eq_ok_iff.mp ⟨pegouts, hpegouts, rfl⟩
    exact ⟨rfl, hhead, hnil, hlist, hlock, hval, hstealth⟩
  · rintro ⟨rfl, h⟩
    obtain ⟨pegouts, hpegouts, hget⟩ := readIf_pegouts_eq_ok_iff.mpr ⟨rfl, h.pegouts_nil, h.pegouts⟩
    exact ⟨_, _, ⟨rfl, h.head⟩, pegouts, _, hpegouts, _, _,
      ⟨rfl, h.lockHeight_iff, h.lockHeight⟩, _, _,
      ⟨rfl, h.stealthExcess_iff, fun _ _ => trivial⟩, by rw [hget], rfl⟩

/-- The part of a kernel before the extra data. -/
def Kernel.front (kernel : Kernel) : KernelFront where
  features := kernel.features
  fee := kernel.fee
  pegin := kernel.pegin
  pegouts := kernel.pegouts
  lockHeight := kernel.lockHeight
  stealthExcess := kernel.stealthExcess

/-- The bytes that the reader takes for a kernel. -/
def Kernel.announced (kernel : Kernel) : List UInt8 :=
  kernel.front.announced ++ writeAnnounced (hasFeature kernel.features extraDataFeatureBit)
    writeByteVector kernel.extraData ++ kernel.excess.val ++ kernel.signature.val

/-- What the reader returns. -/
structure Kernel.Readable (hashBytes : List UInt8 → Hash) (kernel : Kernel) : Prop where
  front : kernel.front.Readable
  extraData_nil : hasFeature kernel.features extraDataFeatureBit = false → kernel.extraData = []
  extraData : kernel.extraData.length ≤ maxSize
  hash : kernel.hash = hashBytes kernel.serialize

/-- What the reader of a kernel accepts. -/
theorem Kernel.unserialize_eq_ok_iff :
    unserialize hashBytes s = .ok (kernel, rest) ↔ s = kernel.announced ++ rest ∧
      kernel.Readable hashBytes := by
  have hmax : maxSize < 2 ^ 64 := by decide
  have hextra : ∀ {cond s rest l}, (∃ l', readIf cond (readByteVector maxSize) s = .ok (l', rest) ∧
      l'.getD [] = l) ↔ s = writeAnnounced cond writeByteVector l ++ rest ∧
        (cond = false → l = []) ∧
        l.length ≤ maxSize :=
    readIf_list_eq_ok_iff (Canonical.readByteVector maxSize)
      (fun _ h => .readByteVector h (by omega)) (Nat.zero_le _)
  unfold unserialize announced
  simp only [Get.bind_eq_ok_iff, Get.pure_eq_ok_iff, readKernelFront_eq_ok_iff, append_assoc,
    (Canonical.readArray _).eq_ok_iff fun a _ => .readArray a]
  constructor
  · rintro ⟨front, _, ⟨rfl, hfront⟩, extraData, _, hread, excess, _, ⟨rfl, -⟩, signature, _,
      ⟨rfl, -⟩, rfl, rfl⟩
    obtain ⟨rfl, hnil, hlen⟩ := hextra.mp ⟨extraData, hread, rfl⟩
    exact ⟨rfl, hfront, hnil, hlen, rfl⟩
  · rintro ⟨rfl, h⟩
    obtain ⟨extraData, hread, hget⟩ := hextra.mpr ⟨rfl, h.extraData_nil, h.extraData⟩
    refine ⟨_, _, ⟨rfl, h.front⟩, extraData, _, hread, _, _, ⟨rfl, trivial⟩, _, _,
      ⟨rfl, trivial⟩, ?_, rfl⟩
    have hhash := h.hash
    rw [hget]
    rcases kernel with ⟨⟩
    dsimp only at hhash ⊢
    rw [hhash]
    rfl

/-- Kernels that were read have the same fee if the same bytes are written for them: the fields
before the pegouts are read back. -/
theorem Kernel.getFee_eq_of_serialize_eq {kernel' : Kernel} (h : kernel.Readable hashBytes)
    (h' : kernel'.Readable hashBytes) (heq : kernel.serialize = kernel'.serialize) :
    kernel.getFee = kernel'.getFee := by
  have hhead : ∀ {kernel : Kernel}, kernel.Readable hashBytes →
      ∃ rest, readKernelHead kernel.serialize = .ok (kernel.front.toKernelHead, rest) := by
    intro kernel h
    simp only [readKernelHead_eq_ok_iff, and_iff_left h.front.head]
    unfold serialize writeKernelFields KernelHead.announced
    simp only [append_assoc]
    exact ⟨_, rfl⟩
  obtain ⟨rest, hread⟩ := hhead h
  obtain ⟨rest', hread'⟩ := hhead h'
  rw [heq, hread'] at hread
  exact (congrArg (fun head : KernelHead => head.fee.getD 0)
    (Prod.mk.inj (Except.ok.inj hread)).1).symm

/-! ## Empty lists -/

/-- The bytes announce pegouts, and none follow: behind the fee and the pegin amount stands a zero.
-/
def AnnouncesNoPegouts (bytes : List UInt8) : Prop :=
  ∃ head rest, readKernelHead bytes = .ok (head, 0 :: rest) ∧
    hasFeature head.features pegoutFeatureBit

/-- The bytes announce extra data, and none follows: behind the fields before it stands a zero. -/
def AnnouncesNoExtraData (bytes : List UInt8) : Prop :=
  ∃ front rest, readKernelFront bytes = .ok (front, 0 :: rest) ∧
    hasFeature front.features extraDataFeatureBit

/-- Only the size zero starts with a zero. -/
theorem eq_zero_of_writeCompactSize {n : Nat} {b : List UInt8}
    (h : writeCompactSize n ++ b = 0 :: rest) :
    n = 0 := by
  unfold writeCompactSize at h
  split_ifs at h with h1 h2 h3
  · rw [writeLE, writeLE, singleton_append, cons.injEq] at h
    have hnat := congrArg UInt8.toNat h.1
    rw [UInt8.toNat_ofNat', UInt8.toNat_zero] at hnat
    omega
  · cases h
  · cases h
  · cases h

/-- A list that follows what was read is announced and has no items if and only if a zero stands
there. -/
theorem announcesEmpty_iff {β : Type} {x : Get β} {c : β → Bool} {a : β} {s' : List UInt8}
    (hx : x s = .ok (a, writeAnnounced (c a) write l ++ s'))
    (hwrite : ∀ l, ∃ b, write l = writeCompactSize l.length ++ b) (hempty : write [] = [0]) :
    (∃ a rest, x s = .ok (a, 0 :: rest) ∧ c a) ↔ c a ∧ l = [] := by
  constructor
  · rintro ⟨a', rest, hread, hc⟩
    rw [hx] at hread
    obtain ⟨rfl, hs⟩ := Prod.mk.inj (Except.ok.inj hread)
    obtain ⟨b, hb⟩ := hwrite l
    rw [writeAnnounced, if_pos hc, hb, append_assoc] at hs
    exact ⟨hc, length_eq_zero_iff.mp (eq_zero_of_writeCompactSize hs)⟩
  · rintro ⟨hc, rfl⟩
    rw [writeAnnounced, if_pos hc, hempty] at hx
    exact ⟨a, s', hx, hc⟩

theorem announcesNoPegouts_iff (h : unserialize hashBytes s = .ok (kernel, rest)) :
    AnnouncesNoPegouts s ↔
      hasFeature kernel.features pegoutFeatureBit ∧ kernel.pegouts = [] := by
  obtain ⟨hs, hreadable⟩ := unserialize_eq_ok_iff.mp h
  simp only [announced, KernelFront.announced, append_assoc] at hs
  have hhead := readKernelHead_eq_ok_iff.mpr ⟨hs, hreadable.front.head⟩
  exact announcesEmpty_iff (c := fun head : KernelHead =>
    hasFeature head.features pegoutFeatureBit) hhead (fun _ => ⟨_, rfl⟩) rfl

theorem announcesNoExtraData_iff (h : unserialize hashBytes s = .ok (kernel, rest)) :
    AnnouncesNoExtraData s ↔
      hasFeature kernel.features extraDataFeatureBit ∧ kernel.extraData = [] := by
  obtain ⟨hs, hreadable⟩ := unserialize_eq_ok_iff.mp h
  simp only [announced, append_assoc] at hs
  have hfront := readKernelFront_eq_ok_iff.mpr ⟨hs, hreadable.front⟩
  exact announcesEmpty_iff (c := fun front : KernelFront =>
    hasFeature front.features extraDataFeatureBit) hfront (fun _ => ⟨_, rfl⟩) rfl

/-- A list that is announced with items, or not announced and empty, is written as it was read. -/
theorem writeAnnounced_eq (hnil : cond = false → l = []) (h : ¬ (cond ∧ l = [])) :
    writeAnnounced cond write l = writeNonempty write l := by
  cases cond with
  | false => rw [hnil rfl]; rfl
  | true =>
    rcases l with _ | ⟨a, l⟩
    · exact absurd ⟨rfl, rfl⟩ h
    · rfl

/-- What is read is at least as long as what is written, and longer by a byte for an empty list. -/
theorem length_writeAnnounced (write : List α → List UInt8) (hnil : cond = false → l = [])
    (hempty : write [] = [0]) :
    (writeNonempty write l).length ≤ (writeAnnounced cond write l).length ∧
      (cond ∧ l = [] → (writeNonempty write l).length < (writeAnnounced cond write l).length) := by
  rcases l with _ | ⟨a, l⟩
  · refine ⟨Nat.zero_le _, ?_⟩
    rintro ⟨rfl, -⟩
    rw [writeAnnounced, if_pos rfl, hempty]
    exact Nat.zero_lt_one
  · cases cond with
    | false => exact absurd (hnil rfl) (cons_ne_nil a l)
    | true => exact ⟨le_rfl, fun h => absurd h.2 (cons_ne_nil a l)⟩

/-- A kernel that was read is written as it was read if and only if no list is announced and empty.
-/
theorem Kernel.serialize_eq_announced_iff (h : kernel.Readable hashBytes) :
    kernel.serialize = kernel.announced ↔
      ¬ (hasFeature kernel.features pegoutFeatureBit ∧ kernel.pegouts = []) ∧
      ¬ (hasFeature kernel.features extraDataFeatureBit ∧ kernel.extraData = []) := by
  constructor
  · intro heq
    have hlen := congrArg length heq
    have hp := length_writeAnnounced (writeVector PegOutCoin.serialize) h.front.pegouts_nil rfl
    have hx := length_writeAnnounced writeByteVector h.extraData_nil rfl
    unfold serialize announced KernelFront.announced KernelHead.announced writeKernelFields at hlen
    simp only [length_append] at hlen
    unfold front at hlen hp
    dsimp only at hlen hp
    refine ⟨fun he => ?_, fun he => ?_⟩
    · have hlt := hp.2 he
      omega
    · have hlt := hx.2 he
      omega
  · rintro ⟨hp, hx⟩
    unfold serialize announced KernelFront.announced KernelHead.announced writeKernelFields
    rw [writeAnnounced_eq h.front.pegouts_nil hp, writeAnnounced_eq h.extraData_nil hx]
    simp only [append_assoc]
    rfl

/-! ## Kernels that are read back -/

/-- The arguments are within their types. -/
structure KernelArgs.Typed (args : KernelArgs) : Prop where
  fee : ∀ v, args.fee = some v → v < 2 ^ 63
  pegin_amount : ∀ v, args.pegin_amount = some v → v < 2 ^ 63
  pegouts : ∀ pegout ∈ args.pegouts, pegout.amount < 2 ^ 63
  lock_height : ∀ v, args.lock_height = some v → v < 2 ^ 31

/-- No argument is negative, no script of a pegout is empty, and no list is too long. -/
structure KernelArgs.Encodable (args : KernelArgs) : Prop where
  fee : ∀ v, args.fee = some v → 0 ≤ v
  pegin_amount : ∀ v, args.pegin_amount = some v → 0 ≤ v
  lock_height : ∀ v, args.lock_height = some v → 0 ≤ v
  length : args.pegouts.length ≤ maxSize
  pegouts : ∀ pegout ∈ args.pegouts, 0 ≤ pegout.amount ∧ pegout.scriptPubKey ≠ [] ∧
    pegout.scriptPubKey.length ≤ maxSize

/-- The bits of the feature byte of `Create` say which fields are there. -/
theorem hasFeature_features (args : KernelArgs) :
    hasFeature args.features feeFeatureBit = args.fee.isSome ∧
    hasFeature args.features peginFeatureBit = args.pegin_amount.isSome ∧
    hasFeature args.features pegoutFeatureBit = !args.pegouts.isEmpty ∧
    hasFeature args.features heightLockFeatureBit = args.lock_height.isSome ∧
    hasFeature args.features stealthExcessFeatureBit = args.stealth_blind.isSome ∧
    hasFeature args.features extraDataFeatureBit = false := by
  unfold KernelArgs.features
  generalize args.fee.isSome = fee, args.pegin_amount.isSome = pegin,
    (!args.pegouts.isEmpty) = pegouts,
    args.lock_height.isSome = lock, args.stealth_blind.isSome = stealth
  revert fee pegin pegouts lock stealth
  decide

theorem Kernel.readable_create_iff (hashBytes : List UInt8 → Hash) (keys : KernelKeys)
    {args : KernelArgs} (htyped : args.Typed) :
    (create hashBytes keys args).Readable hashBytes ↔ args.Encodable := by
  obtain ⟨hfee, hpegin, hpegouts, hlock, hstealth, hextra⟩ := hasFeature_features args
  constructor
  · intro h
    exact ⟨fun v hv => (h.front.head.fee v hv).1, fun v hv => (h.front.head.pegin v hv).1,
      fun v hv => (h.front.lockHeight v hv).1, h.front.pegouts.1,
      fun pegout hp => ⟨(h.front.pegouts.2 pegout hp).1, (h.front.pegouts.2 pegout hp).2.2⟩⟩
  · intro h
    refine ⟨⟨⟨hfee.symm, fun v hv => ⟨h.fee v hv, htyped.fee v hv⟩, hpegin.symm,
      fun v hv => ⟨h.pegin_amount v hv, htyped.pegin_amount v hv⟩⟩, fun hnot => ?_,
      ⟨h.length, fun pegout hp => ⟨(h.pegouts pegout hp).1, htyped.pegouts pegout hp,
        (h.pegouts pegout hp).2⟩⟩, hlock.symm,
      fun v hv => ⟨h.lock_height v hv, htyped.lock_height v hv⟩, ?_⟩, fun _ =>
        rfl, Nat.zero_le _, rfl⟩
    · have hempty : (!args.pegouts.isEmpty) = false := hpegouts.symm.trans hnot
      show args.pegouts = []
      simpa using hempty
    · have hmap : (args.stealth_blind.map keys.publicKeyFrom).isSome = args.stealth_blind.isSome :=
        Option.isSome_map
      exact hmap.trans hstealth.symm

/-- `Create` announces what it writes. -/
theorem Kernel.create_announces (hashBytes : List UInt8 → Hash) (keys : KernelKeys)
    (args : KernelArgs) :
    ¬ (hasFeature (create hashBytes keys args).features pegoutFeatureBit ∧
        (create hashBytes keys args).pegouts = []) ∧
    ¬ (hasFeature (create hashBytes keys args).features extraDataFeatureBit ∧
        (create hashBytes keys args).extraData = []) := by
  obtain ⟨-, -, hpegouts, -, -, hextra⟩ := hasFeature_features args
  constructor
  · rintro ⟨hbit, hnil⟩
    have hpresent : (!args.pegouts.isEmpty) := hpegouts.symm.trans hbit
    have hnil' : args.pegouts = [] := hnil
    rw [hnil'] at hpresent
    exact absurd hpresent (by decide)
  · rintro ⟨hbit, -⟩
    exact absurd (hextra.symm.trans hbit) (by decide)

/-- The bytes of a kernel that are read are written back if and only if they announce no empty list;
the hash of the kernel is taken over what is written. A kernel that `Create` builds is read back
from what is written for it if and only if its arguments can be encoded. -/
theorem kernel_encoding_iff {hashBytes : List UInt8 → Hash} {bytes rest : List UInt8}
    {kernel : Kernel}
    (hread : Kernel.unserialize hashBytes bytes = .ok (kernel, rest)) {keys : KernelKeys}
    {args : KernelArgs} (htyped : args.Typed) :
    (∃ consumed, bytes = consumed ++ rest ∧ kernel.hash = hashBytes kernel.serialize ∧
      (kernel.serialize = consumed ↔ ¬ AnnouncesNoPegouts bytes ∧ ¬ AnnouncesNoExtraData bytes)) ∧
    (Kernel.unserialize hashBytes (Kernel.create hashBytes keys args).serialize =
      .ok (Kernel.create hashBytes keys args, []) ↔ args.Encodable) := by
  constructor
  · obtain ⟨hbytes, hreadable⟩ := unserialize_eq_ok_iff.mp hread
    refine ⟨kernel.announced, hbytes, hreadable.hash, ?_⟩
    rw [serialize_eq_announced_iff hreadable, announcesNoPegouts_iff hread,
      announcesNoExtraData_iff hread]
  · rw [← readable_create_iff hashBytes keys htyped]
    constructor
    · intro h
      exact (unserialize_eq_ok_iff.mp h).2
    · intro h
      have hsame := (serialize_eq_announced_iff h).mpr (create_announces hashBytes keys args)
      exact unserialize_eq_ok_iff.mpr ⟨by rw [hsame, append_nil], h⟩

/-! ## Two kernels with many fields -/

/-- Keys that are all zero. -/
def zeroKeys : KernelKeys where
  blinded _ := Bytes.zero 33
  publicKeyFrom _ := Bytes.zero 33
  publicKeyOf _ := Bytes.zero 33
  mulAdd key _ _ := key
  sign _ _ := Bytes.zero 64

/-- All fields that `Create` sets. -/
def fullArgs : KernelArgs :=
  ⟨Bytes.zero 32, some (Bytes.zero 32), some 3, some 10, [⟨7, [81]⟩], some 5⟩

/-- A kernel with a fee, a pegout, a lock height and extra data, before the excess and the
signature. -/
def fullBytes : List UInt8 := [45, 3, 1, 7, 1, 81, 5, 1, 170] ++ List.replicate 97 0

/-- The bytes announce no empty list, and the arguments can be encoded. -/
theorem kernel_encoding_iff_full :
    (∃ kernel, Kernel.unserialize (fun _ => 0) fullBytes = .ok (kernel, []) ∧
      kernel.serialize = fullBytes) ∧
    Kernel.unserialize (fun _ => 0) (Kernel.create (fun _ => 0) zeroKeys fullArgs).serialize =
      .ok (Kernel.create (fun _ => 0) zeroKeys fullArgs, []) := by
  have htyped : fullArgs.Typed := by constructor <;> simp [fullArgs]
  have hencodable : fullArgs.Encodable := by constructor <;> simp [fullArgs, maxSize]
  have hrun : Returns (unserialize (fun _ => 0) fullBytes)
      fun r => r.2 = [] ∧ r.1.pegouts ≠ [] ∧ r.1.extraData ≠ [] := by decide +kernel
  obtain ⟨⟨kernel, rest⟩, hread, rfl, hpegouts, hextra⟩ := hrun.exists_ok
  obtain ⟨⟨consumed, hbytes, -, hiff⟩, hcreate⟩ :=
    @kernel_encoding_iff _ _ _ _ hread zeroKeys _ htyped
  rw [append_nil] at hbytes
  refine ⟨⟨kernel, hread, ?_⟩, hcreate.mpr hencodable⟩
  rw [hbytes, hiff, announcesNoPegouts_iff hread, announcesNoExtraData_iff hread]
  exact ⟨fun h => hpegouts h.2, fun h => hextra h.2⟩

/-- The feature byte announces pegouts and there are none: the zero that says so is not written
back, so that these bytes and those without it are read as kernels that are written alike. -/
theorem kernel_encoding_drops_byte :
    Returns (Kernel.unserialize (fun _ => 0) (0x04 :: 0 :: List.replicate 97 0))
      fun r => r.2 = [] ∧ r.1.serialize = 0x04 :: List.replicate 97 0 := by
  decide +kernel

end DefcoinCore.Mweb
