import DefcoinCore.Lib.Containers
import DefcoinCore.Validation.CheckBlock
import Mathlib.Data.List.GetD

/-!
# Compact blocks

`CBlockHeaderAndShortTxIDs` and `PartiallyDownloadedBlock` of `blockencodings.cpp`. A compact block
names the transactions of a block by short ids; the receiver looks for them in its memory pool and
in a list of extra transactions, and asks for the rest.

The code keeps the state of the search in parallel arrays, indexed by the position in the block, and
in counters. Seen from one short id there is less to it: its slot is empty, filled or given up
(`Slot`), and only candidates with that short id change it. `Sim` relates the two, and
`poolScan_sim` and `extraScan_sim` say that the loops refine the slots: they stop at the first
candidate after which all slots are filled.
-/

namespace DefcoinCore.BlockEncodings

open List Function Nat Std.ExtTreeMap

/-! ## The code -/

/-- `ReadStatus`. -/
inductive ReadStatus where
  | ok
  | invalid
  | failed
  | checkBlockFailed
deriving DecidableEq

/-- What ends a call without a result: a null transaction is dereferenced. -/
inductive Fault where
  | nullDereference
deriving DecidableEq

/-- `PrefilledTransaction`; the index counts from the one before. -/
structure PrefilledTransaction where
  /-- The number of transactions since the last one that is prefilled. -/
  index : UInt16
  tx : CTransaction
deriving DecidableEq

/-- `CBlockHeaderAndShortTxIDs`, as it is read from a message. -/
structure CBlockHeaderAndShortTxIDs where
  header : CBlockHeader
  /-- The number that, with the header, selects the hash function of the short ids. -/
  nonce : UInt64
  shorttxids : List UInt64
  prefilledtxn : List PrefilledTransaction
  mweb_block : Option Mweb.Block
  /-- Reading fails when the indexes overflow 16 bits. -/
  count_le : shorttxids.length + prefilledtxn.length ≤ 65535

/-- The hash functions that the code is given. -/
structure Hashing where
  /-- `SipHashUint256` with the keys that `FillShortTxIDSelector` takes from a header and a nonce.
  -/
  sipHash : CBlockHeader → UInt64 → Uint256 → UInt64
  /-- The elements in the bucket of a short id, after the given short ids were inserted. -/
  bucketSize : List UInt64 → UInt64 → Nat

variable (hashing : Hashing)

/-- `GetShortID`. -/
def CBlockHeaderAndShortTxIDs.getShortID (cmpctblock : CBlockHeaderAndShortTxIDs)
    (txhash : Uint256) :
    UInt64 :=
  hashing.sipHash cmpctblock.header cmpctblock.nonce txhash &&& 0xffffffffffff

/-- `BlockTxCount`. -/
def CBlockHeaderAndShortTxIDs.blockTxCount (cmpctblock : CBlockHeaderAndShortTxIDs) : Nat :=
  cmpctblock.shorttxids.length + cmpctblock.prefilledtxn.length

/-- `CBlockHeader::IsNull`. -/
def isNull (header : CBlockHeader) : Bool := header.nBits = 0

/-- `MIN_SERIALIZABLE_TRANSACTION_WEIGHT`. -/
def minSerializableTransactionWeight : Nat := witnessScaleFactor * 10

/-- `PartiallyDownloadedBlock`. -/
structure PartiallyDownloadedBlock where
  /-- The transactions that are there; null for those that are missing. -/
  txn_available : List (Option CTransaction)
  prefilled_count : Nat
  mempool_count : Nat
  /-- A `size_t`: the code may count it below zero. -/
  extra_count : UInt64
  /-- The header, null until a compact block was read. -/
  header : Option CBlockHeader
  mweb_block : Option Mweb.Block
deriving DecidableEq

/-- A new `PartiallyDownloadedBlock`. -/
def PartiallyDownloadedBlock.new (mweb_block : Option Mweb.Block) : PartiallyDownloadedBlock where
  txn_available := []
  prefilled_count := 0
  mempool_count := 0
  extra_count := 0
  header := none
  mweb_block := mweb_block

/-- The loop over the prefilled transactions, at the `i`-th. An index that is not acceptable ends it
with what was filled so far. -/
def prefillLoop (shortCount : Nat) :
    List PrefilledTransaction → Nat → Int → List (Option CTransaction) →
      Except (List (Option CTransaction)) (List (Option CTransaction))
  | [], _, _, txn_available => .ok txn_available
  | p :: prefilledtxn, i, lastprefilledindex, txn_available =>
    let lastprefilledindex := lastprefilledindex + (p.index.toNat + 1 : Nat)
    if p.tx.vin.isEmpty ∧ p.tx.vout.isEmpty then .error txn_available
    else if lastprefilledindex > 65535 then .error txn_available
    else if lastprefilledindex > (shortCount + i : Nat) then .error txn_available
    else prefillLoop shortCount prefilledtxn (i + 1) lastprefilledindex
      (txn_available.set lastprefilledindex.toNat (some p.tx))

/-- The loop over the prefilled transactions, on a new object. -/
abbrev prefill (cmpctblock : CBlockHeaderAndShortTxIDs) :
    Except (List (Option CTransaction)) (List (Option CTransaction)) :=
  prefillLoop cmpctblock.shorttxids.length cmpctblock.prefilledtxn 0 (-1)
    (List.replicate cmpctblock.blockTxCount none)

/-- `while (txn_available[pos]) pos++`, for at most the given number of steps. -/
def skipFilled (txn_available : List (Option CTransaction)) : Nat → Nat → Nat
  | 0, pos => pos
  | n + 1, pos =>
    if (txn_available.getD pos none).isSome then skipFilled txn_available n (pos + 1) else pos

/-- The loop that gives every short id its position, from the position `pos` on; `none` when a
bucket holds too many. The position is `i + index_offset` of the code. -/
def placeLoop (txn_available : List (Option CTransaction)) :
    List UInt64 → List UInt64 → Nat → StdMap UInt64 Nat → Option (StdMap UInt64 Nat)
  | [], _, _, shorttxids => some shorttxids
  | id :: ids, before, pos, shorttxids =>
    let pos := skipFilled txn_available txn_available.length pos
    let shorttxids := shorttxids.insert id pos
    if hashing.bucketSize (before ++ [id]) id > 12 then none
    else placeLoop txn_available ids (before ++ [id]) (pos + 1) shorttxids

/-- What the two loops over the candidates change. -/
structure Scan where
  txn_available : List (Option CTransaction)
  have_txn : List Bool
  mempool_count : Nat
  extra_count : UInt64
deriving DecidableEq

variable (shortID : Uint256 → UInt64)

/-- The body of the loop over the memory pool. -/
def poolStep (shorttxids : StdMap UInt64 Nat) (entry : Uint256 × CTransaction) (s : Scan) : Scan :=
  match shorttxids[shortID entry.1]? with
  | none => s
  | some pos =>
    if s.have_txn.getD pos false = false then
      { s with
        txn_available := s.txn_available.set pos (some entry.2)
        have_txn := s.have_txn.set pos true
        mempool_count := s.mempool_count + 1 }
    else if (s.txn_available.getD pos none).isSome then
      { s with
        txn_available := s.txn_available.set pos none
        mempool_count := s.mempool_count - 1 }
    else s

/-- The loop over the memory pool: it ends early when everything is there. -/
def poolScan (shortID : Uint256 → UInt64) (shorttxids : StdMap UInt64 Nat) :
    List (Uint256 × CTransaction) → Scan → Scan
  | [], s => s
  | entry :: vTxHashes, s =>
    let s := poolStep shortID shorttxids entry s
    if s.mempool_count = shorttxids.size then s else poolScan shortID shorttxids vTxHashes s

/-- The body of the loop over the extra transactions. The hash of the extra transaction is only
asked for when the slot holds another one. -/
def extraStep (shorttxids : StdMap UInt64 Nat)
    (entry : Uint256 × Option CTransaction) (s : Scan) : Except Fault Scan :=
  match shorttxids[shortID entry.1]? with
  | none => .ok s
  | some pos =>
    if s.have_txn.getD pos false = false then
      .ok { s with
        txn_available := s.txn_available.set pos entry.2
        have_txn := s.have_txn.set pos true
        mempool_count := s.mempool_count + 1
        extra_count := s.extra_count + 1 }
    else
      match s.txn_available.getD pos none, entry.2 with
      | none, _ => .ok s
      | some _, none => .error .nullDereference
      | some tx, some extra =>
        if tx.m_witness_hash ≠ extra.m_witness_hash then
          .ok { s with
            txn_available := s.txn_available.set pos none
            mempool_count := s.mempool_count - 1
            extra_count := s.extra_count - 1 }
        else .ok s

/-- The loop over the extra transactions. -/
def extraScan (shortID : Uint256 → UInt64) (shorttxids : StdMap UInt64 Nat) :
    List (Uint256 × Option CTransaction) → Scan → Except Fault Scan
  | [], s => .ok s
  | entry :: extra_txn, s => do
    let s ← extraStep shortID shorttxids entry s
    if s.mempool_count = shorttxids.size then .ok s else extraScan shortID shorttxids extra_txn s

variable (self : PartiallyDownloadedBlock)

/-- The first checks of `InitData`: the transactions with the prefilled ones in their places and the
positions of the short ids, or the status that ends the call and the state it leaves. -/
def readCompact (cmpctblock : CBlockHeaderAndShortTxIDs) :
    Except (ReadStatus × PartiallyDownloadedBlock)
      (PartiallyDownloadedBlock × StdMap UInt64 Nat) := do
  reject (isNull cmpctblock.header ||
      (cmpctblock.shorttxids.isEmpty && cmpctblock.prefilledtxn.isEmpty)) (.invalid, self)
  reject (cmpctblock.shorttxids.length + cmpctblock.prefilledtxn.length >
      maxBlockWeight / minSerializableTransactionWeight) (.invalid, self)
  reject (self.header.isSome || !self.txn_available.isEmpty) (.invalid, self)
  let self := { self with
    header := some cmpctblock.header
    mweb_block := cmpctblock.mweb_block
    txn_available := List.replicate cmpctblock.blockTxCount none }
  let txn_available ← (prefillLoop cmpctblock.shorttxids.length cmpctblock.prefilledtxn 0 (-1)
      self.txn_available).mapError fun filled => (.invalid, { self with txn_available := filled })
  let self := { self with
    txn_available := txn_available
    prefilled_count := cmpctblock.prefilledtxn.length }
  match placeLoop hashing txn_available cmpctblock.shorttxids [] 0 ∅ with
  | none => throw (.failed, self)
  | some shorttxids => do
    -- a short id that occurs twice
    reject (shorttxids.size ≠ cmpctblock.shorttxids.length) (.failed, self)
    pure (self, shorttxids)

/-- The state in which the search for candidates starts. -/
def PartiallyDownloadedBlock.startScan : Scan where
  txn_available := self.txn_available
  have_txn := List.replicate self.txn_available.length false
  mempool_count := self.mempool_count
  extra_count := self.extra_count

/-- The state after the search. -/
def PartiallyDownloadedBlock.endScan (s : Scan) : PartiallyDownloadedBlock :=
  { self with
    txn_available := s.txn_available
    mempool_count := s.mempool_count
    extra_count := s.extra_count }

/-- `PartiallyDownloadedBlock::InitData`, with the `vTxHashes` of the memory pool. -/
def initData (vTxHashes : List (Uint256 × CTransaction))
    (cmpctblock : CBlockHeaderAndShortTxIDs) (extra_txn : List (Uint256 × Option CTransaction)) :
    Except Fault (ReadStatus × PartiallyDownloadedBlock) :=
  match readCompact hashing self cmpctblock with
  | .error result => .ok result
  | .ok (self, shorttxids) => do
    let s := poolScan (cmpctblock.getShortID hashing) shorttxids vTxHashes self.startScan
    let s ← extraScan (cmpctblock.getShortID hashing) shorttxids extra_txn s
    return (.ok, self.endScan s)

/-! ## One short id at a time -/

/-- What is known about the transaction of a short id. -/
inductive Slot where
  /-- No candidate was seen. -/
  | empty
  /-- A candidate is taken. -/
  | filled (tx : CTransaction)
  /-- The candidates did not agree. -/
  | givenUp
deriving DecidableEq

namespace Slot

/-- A candidate was seen. -/
def seen : Slot → Bool
  | empty => false
  | _ => true

/-- The transaction that is taken. -/
def tx? : Slot → Option CTransaction
  | filled tx => some tx
  | _ => none

/-- A candidate is taken. -/
def isFilled (slot : Slot) : Bool := slot.tx?.isSome

/-- Two candidates of the memory pool never agree. -/
def poolHit : Slot → CTransaction → Slot
  | empty, tx => filled tx
  | _, _ => givenUp

/-- An extra transaction agrees with the same transaction. -/
def extraHit : Slot → CTransaction → Slot
  | empty, tx => filled tx
  | filled tx, extra => if tx.m_witness_hash ≠ extra.m_witness_hash then givenUp else filled tx
  | givenUp, _ => givenUp

end Slot

/-- The transactions of a list whose hash has the short id. -/
def matching (l : List (Uint256 × CTransaction)) (id : UInt64) : List CTransaction :=
  (l.filter fun entry => shortID entry.1 = id).map Prod.snd

/-- The slot of a short id after the given candidates. -/
def slotOf (pool extra : List (Uint256 × CTransaction)) (id : UInt64) : Slot :=
  (matching shortID extra id).foldl Slot.extraHit
    ((matching shortID pool id).foldl Slot.poolHit .empty)

/-- Every slot is filled. -/
def allFilled (ids : List UInt64) (f : UInt64 → Slot) : Bool := ids.all fun id => (f id).isFilled

section Slots

variable (shortID : Uint256 → UInt64) (pool extra : List (Uint256 × CTransaction))

theorem matching_append (l m : List (Uint256 × CTransaction)) (id : UInt64) :
    matching shortID (l ++ m) id = matching shortID l id ++ matching shortID m id := by
  rw [matching, filter_append, map_append, matching, matching]

theorem slotOf_pool_append (entry : Uint256 × CTransaction) :
    slotOf shortID (pool ++ [entry]) [] = update (slotOf shortID pool [])
      (shortID entry.1) ((slotOf shortID pool [] (shortID entry.1)).poolHit entry.2) := by
  funext id
  by_cases hid : shortID entry.1 = id
  · subst hid
    rw [update_self, slotOf, matching_append, foldl_append, slotOf]
    simp [matching]
  · rw [update_of_ne (Ne.symm hid), slotOf, matching_append, slotOf]
    simp [matching, hid]

theorem slotOf_extra_append (entry : Uint256 × CTransaction) :
    slotOf shortID pool (extra ++ [entry]) = update (slotOf shortID pool extra)
      (shortID entry.1) ((slotOf shortID pool extra (shortID entry.1)).extraHit entry.2) := by
  funext id
  by_cases hid : shortID entry.1 = id
  · subst hid
    rw [update_self, slotOf, matching_append, foldl_append, ← slotOf]
    simp [matching]
  · rw [update_of_ne (Ne.symm hid), slotOf, matching_append, foldl_append, ← slotOf]
    simp [matching, hid]

end Slots

/-! ## The arrays are the slots -/

/-- The positions that are not filled. -/
def freeCount (l : List (Option CTransaction)) : Nat := l.countP (·.isNone)

/-- The positions of the short ids: those that are not prefilled, in their order. -/
structure Layout (base : List (Option CTransaction)) (ids : List UInt64) (m : StdMap UInt64 Nat) :
    Prop where
  nodup : ids.Nodup
  size_eq : m.size = ids.length
  mem_iff : ∀ id : UInt64, id ∈ ids ↔ ∃ pos, m[id]? = some pos
  lt_length : ∀ {id : UInt64} {pos : Nat}, m[id]? = some pos → pos < base.length
  slot : ∀ {id : UInt64} {pos : Nat}, m[id]? = some pos → ids[freeCount (base.take pos)]? = some id
  free : ∀ {id : UInt64} {pos : Nat}, m[id]? = some pos → base.getD pos none = none

/-- The arrays and the counter hold the slots of the short ids at their positions. -/
structure Sim (base : List (Option CTransaction)) (ids : List UInt64) (m : StdMap UInt64 Nat)
    (f : UInt64 → Slot) (s : Scan) : Prop where
  length_available : s.txn_available.length = base.length
  length_have : s.have_txn.length = base.length
  have_eq : ∀ {id : UInt64} {pos : Nat}, m[id]? = some pos → s.have_txn.getD pos false = (f id).seen
  available_eq : ∀ {id : UInt64} {pos : Nat}, m[id]? = some pos →
    s.txn_available.getD pos none = (f id).tx?
  other_eq : ∀ pos : Nat, (∀ id : UInt64, m[id]? ≠ some pos) →
    s.txn_available.getD pos none = base.getD pos none
  count_eq : s.mempool_count = ids.countP fun id => (f id).isFilled
  free_eq : freeCount s.txn_available + s.mempool_count = freeCount base

/-- Writing a position changes the number of free ones by it. -/
theorem freeCount_set {l : List (Option CTransaction)} {pos : Nat} (h : pos < l.length)
    (v : Option CTransaction) :
    freeCount (l.set pos v) + (l.getD pos none).isNone.toNat = freeCount l + v.isNone.toNat := by
  have hle : (if l[pos].isNone then 1 else 0) ≤ freeCount l := boole_getElem_le_countP h
  rw [freeCount, countP_set h, ← freeCount, getD_eq_getElem?_getD, getElem?_eq_getElem h,
    Option.getD_some]
  cases hold : l[pos].isNone <;> cases v.isNone <;> simp [hold] at hle ⊢ <;> omega

variable {base : List (Option CTransaction)} {ids : List UInt64} {m : StdMap UInt64 Nat} {s : Scan}

section Sim

variable {f : UInt64 → Slot} {id : UInt64}

/-- Changing one slot changes the number of filled slots by that slot. -/
theorem countP_update (hids : ids.Nodup) (hid : id ∈ ids) (f : UInt64 → Slot) (v : Slot) :
    (ids.countP fun i => (update f id v i).isFilled) + (f id).isFilled.toNat =
      (ids.countP fun i => (f i).isFilled) + v.isFilled.toNat := by
  have hperm := perm_cons_erase hid
  have hrest : ((ids.erase id).countP fun i => (update f id v i).isFilled) =
      (ids.erase id).countP fun i => (f i).isFilled :=
    countP_congr fun i hi => by rw [update_of_ne (hids.mem_erase_iff.mp hi).1]
  rw [hperm.countP_eq, hperm.countP_eq, countP_cons, countP_cons, hrest, update_self]
  cases v.isFilled <;> cases (f id).isFilled <;> simp

/-- Writing at the position of a short id is seen there only. -/
theorem Layout.getD_set (hl : Layout base ids m) {α : Type} {l : List α}
    (hlen : l.length = base.length)
    {id' : UInt64} {pos pos' : Nat} (hid : m[id]? = some pos) (hid' : m[id']? = some pos')
    (v d : α) :
    (l.set pos v).getD pos' d = if id' = id then v else l.getD pos' d := by
  have hiff : pos = pos' ↔ id' = id := by
    refine ⟨fun h => Option.some.inj ((hl.slot hid').symm.trans (hl.slot (h ▸ hid))), ?_⟩
    rintro rfl
    exact Option.some.inj (hid.symm.trans hid')
  have hlt : pos < l.length := hlen ▸ hl.lt_length hid
  rw [getD_eq_getElem?_getD, getElem?_set]
  simp only [hiff, hlt, if_true]
  split_ifs <;> rfl

/-- Writing what a slot holds. -/
theorem Sim.update_self (h : Sim base ids m f s) {v : Slot} (hf : f id = v) :
    Sim base ids m (Function.update f id v) s := by
  rwa [← hf, update_eq_self]

variable (hl : Layout base ids m) (h : Sim base ids m f s)

include hl h

/-- Only the slots of the short ids count. -/
theorem Sim.congr {g : UInt64 → Slot} (hfg : ∀ id ∈ ids, f id = g id) : Sim base ids m g s where
  length_available := h.length_available
  length_have := h.length_have
  have_eq := fun {id pos} hid => by
    rw [h.have_eq hid, hfg id ((hl.mem_iff id).mpr ⟨pos, hid⟩)]
  available_eq := fun {id pos} hid => by
    rw [h.available_eq hid, hfg id ((hl.mem_iff id).mpr ⟨pos, hid⟩)]
  other_eq := h.other_eq
  count_eq := by
    rw [h.count_eq]
    exact countP_congr fun id hid => by rw [hfg id hid]
  free_eq := h.free_eq

/-- Writing a slot at its position. -/
theorem Sim.update {pos : Nat} (hid : m[id]? = some pos) (v : Slot) {s' : Scan}
    (havailable : s'.txn_available = s.txn_available.set pos v.tx?)
    (hhave : s'.have_txn = s.have_txn.set pos v.seen)
    (hcount : s'.mempool_count + (f id).isFilled.toNat = s.mempool_count + v.isFilled.toNat) :
    Sim base ids m (update f id v) s' where
  length_available := by rw [havailable, length_set, h.length_available]
  length_have := by rw [hhave, length_set, h.length_have]
  have_eq := fun {id' pos'} hid' => by
    rw [hhave, hl.getD_set h.length_have hid hid', update_apply, h.have_eq hid']
    split_ifs <;> rfl
  available_eq := fun {id' pos'} hid' => by
    rw [havailable, hl.getD_set h.length_available hid hid', update_apply, h.available_eq hid']
    split_ifs <;> rfl
  other_eq := fun pos' hpos' => by
    have hne : pos ≠ pos' := fun hpos => hpos' id (hpos ▸ hid)
    rw [havailable, getD_eq_getElem?_getD, getElem?_set, if_neg hne,
      ← getD_eq_getElem?_getD, h.other_eq pos' hpos']
  count_eq := by
    have hcountP := countP_update hl.nodup ((hl.mem_iff id).mpr ⟨pos, hid⟩) f v
    rw [h.count_eq] at hcount
    omega
  free_eq := by
    have hset := freeCount_set (h.length_available ▸ hl.lt_length hid) v.tx?
    have hfree := h.free_eq
    rw [h.available_eq hid] at hset
    rw [Slot.isFilled, Slot.isFilled] at hcount
    rw [havailable]
    cases hold : (f id).tx? <;> cases hnew : v.tx? <;> simp only [hold, hnew] at hset hcount ⊢ <;>
      simp at hset hcount <;> omega

/-- A short id of no transaction of the block. -/
theorem Sim.update_of_none (hid : m[id]? = none) (v : Slot) :
    Sim base ids m (Function.update f id v) s := by
  refine h.congr hl fun id' hid' => ?_
  obtain ⟨pos, hpos⟩ := (hl.mem_iff id').mp hid'
  rw [Function.update_of_ne]
  rintro rfl
  rw [hid] at hpos
  cases hpos

/-- Everything is there exactly when every slot is filled. -/
theorem Sim.count_eq_size_iff : s.mempool_count = m.size ↔ allFilled ids f := by
  rw [h.count_eq, hl.size_eq, countP_eq_length, allFilled, all_eq_true]

/-- Giving up a slot that was filled. -/
theorem Sim.giveUp {pos : Nat} (hid : m[id]? = some pos) {tx : CTransaction}
    (hf : f id = .filled tx) (extra_count : UInt64) :
    Sim base ids m (Function.update f id .givenUp) { s with
      txn_available := s.txn_available.set pos none
      mempool_count := s.mempool_count - 1
      extra_count := extra_count } := by
  have hseen := h.have_eq hid
  have hlt : pos < s.have_txn.length := by rw [h.length_have]; exact hl.lt_length hid
  rw [hf, getD_eq_getElem?_getD, getElem?_eq_getElem hlt, Option.getD_some] at hseen
  have hpos : 0 < s.mempool_count := by
    rw [h.count_eq, countP_pos_iff]
    exact ⟨id, (hl.mem_iff _).mpr ⟨pos, hid⟩, by rw [hf]; rfl⟩
  refine h.update hl hid .givenUp rfl ?_ ?_
  · exact (set_getElem_self hlt).symm.trans (by rw [hseen]; rfl)
  · rw [hf]
    show s.mempool_count - 1 + 1 = s.mempool_count + 0
    omega

theorem poolStep_sim (shortID : Uint256 → UInt64) (entry : Uint256 × CTransaction) :
    Sim base ids m (update f (shortID entry.1) ((f (shortID entry.1)).poolHit entry.2))
      (poolStep shortID m entry s) := by
  rw [poolStep]
  cases hid : m[shortID entry.1]? with
  | none => exact h.update_of_none hl hid _
  | some pos =>
    dsimp only
    rw [h.have_eq hid, h.available_eq hid]
    cases hf : f (shortID entry.1) with
    | empty => exact h.update hl hid (.filled entry.2) rfl rfl (by rw [hf]; rfl)
    | filled tx => exact h.giveUp hl hid hf _
    | givenUp => exact h.update_self hf

theorem extraStep_sim (shortID : Uint256 → UInt64) (hash : Uint256) (tx : CTransaction) :
    Returns (extraStep shortID m (hash, some tx) s)
      (Sim base ids m (update f (shortID hash) ((f (shortID hash)).extraHit tx))) := by
  rw [extraStep]
  cases hid : m[shortID hash]? with
  | none => exact h.update_of_none hl hid _
  | some pos =>
    dsimp only
    rw [h.have_eq hid, h.available_eq hid]
    cases hf : f (shortID hash) with
    | empty => exact h.update hl hid (.filled tx) rfl rfl (by rw [hf]; rfl)
    | filled taken =>
      by_cases hne : taken.m_witness_hash ≠ tx.m_witness_hash
      · simp only [Slot.seen, Slot.tx?, Slot.extraHit, if_pos hne]
        exact h.giveUp hl hid hf _
      · simp only [Slot.seen, Slot.tx?, Slot.extraHit, if_neg hne]
        exact h.update_self hf
    | givenUp => exact h.update_self hf

end Sim

/-! ## The loops -/

/-- The entries that a loop takes from a list, after those in `done`: it ends after the first entry
with which the stop condition holds. -/
def runUntil {α : Type} (stop : List α → Bool) : List α → List α → List α
  | done, [] => done
  | done, x :: l => if stop (done ++ [x]) then done ++ [x] else runUntil stop (done ++ [x]) l

/-- A loop runs over the whole list, or up to the first entry with which it stops. -/
theorem runUntil_spec {α : Type} (stop : List α → Bool) (l : List α) :
    ∀ done, (runUntil stop done l = done ++ l ∧
      ∀ j < l.length, stop (done ++ l.take (j + 1)) = false) ∨
      ∃ j < l.length, runUntil stop done l = done ++ l.take (j + 1) ∧
        stop (done ++ l.take (j + 1)) := by
  induction l with
  | nil => exact fun done => .inl ⟨by rw [runUntil, append_nil], nofun⟩
  | cons x l ih =>
    intro done
    have htake : ∀ j, done ++ (x :: l).take (j + 1) = done ++ [x] ++ l.take j := by simp
    simp only [htake, length_cons]
    rw [runUntil]
    cases hstop : stop (done ++ [x]) with
    | true => exact .inr ⟨0, succ_pos _, by simp, by simpa using hstop⟩
    | false =>
      rcases ih (done ++ [x]) with ⟨hrun, hnone⟩ | ⟨j, hj, hrun, hj'⟩
      · refine .inl ⟨by simpa using hrun, ?_⟩
        rintro (_ | j) hj
        · simpa using hstop
        · exact hnone j (lt_of_succ_lt_succ hj)
      · exact .inr ⟨j + 1, succ_lt_succ hj, hrun, hj'⟩

section Loops

variable {shortID : Uint256 → UInt64}

/-- The loop over the memory pool refines the slots. -/
theorem poolScan_sim (hl : Layout base ids m) (vTxHashes : List (Uint256 × CTransaction)) :
    ∀ (pool : List (Uint256 × CTransaction)) (s : Scan), Sim base ids m (slotOf shortID pool []) s →
      Sim base ids m (slotOf shortID
        (runUntil (fun pool => allFilled ids (slotOf shortID pool [])) pool vTxHashes) [])
        (poolScan shortID m vTxHashes s) := by
  induction vTxHashes with
  | nil => exact fun pool s h => h
  | cons entry l ih =>
    intro pool s h
    have hstep := poolStep_sim hl h shortID entry
    rw [← slotOf_pool_append] at hstep
    have hiff := hstep.count_eq_size_iff hl
    rw [runUntil, poolScan]
    by_cases hstop : allFilled ids (slotOf shortID (pool ++ [entry]) [])
    · rw [if_pos hstop, if_pos (hiff.mpr hstop)]
      exact hstep
    · rw [if_neg hstop, if_neg (mt hiff.mp hstop)]
      exact ih _ _ hstep

/-- Extra transactions as the code holds them. -/
def refs (l : List (Uint256 × CTransaction)) : List (Uint256 × Option CTransaction) :=
  l.map fun entry => (entry.1, some entry.2)

/-- The loop over extra transactions that are there refines the slots. -/
theorem extraScan_sim (hl : Layout base ids m) (pool : List (Uint256 × CTransaction))
    (l : List (Uint256 × CTransaction)) :
    ∀ (extra : List (Uint256 × CTransaction)) (s : Scan),
      Sim base ids m (slotOf shortID pool extra) s →
      Returns (extraScan shortID m (refs l) s) (Sim base ids m (slotOf shortID pool
        (runUntil (fun extra => allFilled ids (slotOf shortID pool extra)) extra l))) := by
  induction l with
  | nil => exact fun extra s h => h
  | cons entry l ih =>
    intro extra s h
    rw [runUntil, refs, map_cons, extraScan]
    refine (extraStep_sim hl h shortID entry.1 entry.2).bind fun s1 hstep => ?_
    rw [← slotOf_extra_append shortID pool extra (entry.1, entry.2)] at hstep
    have hiff := hstep.count_eq_size_iff hl
    by_cases hstop : allFilled ids (slotOf shortID pool (extra ++ [entry]))
    · rw [if_pos hstop, if_pos (hiff.mpr hstop)]
      exact hstep
    · rw [if_neg hstop, if_neg (mt hiff.mp hstop)]
      exact ih _ _ hstep

/-- What follows in the list of extra transactions is reached when the loop does not end before. -/
theorem extraScan_append (rest l : List (Uint256 × Option CTransaction)) :
    ∀ s : Scan, l ≠ [] → extraScan shortID m (l ++ rest) s = (extraScan shortID m l s).bind fun s =>
      if s.mempool_count = m.size then .ok s else extraScan shortID m rest s := by
  induction l with
  | nil => exact fun s h => absurd rfl h
  | cons entry l ih =>
    intro s _
    rw [cons_append, extraScan, extraScan]
    cases extraStep shortID m entry s with
    | error e => rfl
    | ok s =>
      rw [ok_bind, ok_bind]
      split_ifs with hstop
      · exact (if_pos hstop).symm
      · obtain rfl | hl := eq_or_ne l []
        · exact (if_neg hstop).symm
        · exact ih s hl

end Loops

/-! ## Positions -/

variable (l : List (Option CTransaction))

variable {mweb_block : Option Mweb.Block} {cmpctblock : CBlockHeaderAndShortTxIDs}

/-- The steps that prefilled transactions make. -/
def indexSum (ps : List PrefilledTransaction) : Nat := (ps.map fun p => p.index.toNat + 1).sum

theorem indexSum_cons (p : PrefilledTransaction) (ps : List PrefilledTransaction) :
    indexSum (p :: ps) = p.index.toNat + 1 + indexSum ps := by
  rw [indexSum, map_cons, sum_cons, indexSum]

/-- The position of the `i`-th prefilled transaction: the indexes count from the one before. -/
def prefillPos (prefilledtxn : List PrefilledTransaction) (i : Nat) : Nat :=
  indexSum (prefilledtxn.take (i + 1)) - 1

theorem prefillPos_cast {ps : List PrefilledTransaction} {i : Nat} (h : i < ps.length) :
    (prefillPos ps i : Int) = -1 + indexSum (ps.take (i + 1)) := by
  have hsum : 0 < indexSum (ps.take (i + 1)) := by
    cases ps with
    | nil => cases h
    | cons p ps => rw [take_succ_cons, indexSum_cons]; omega
  rw [prefillPos]
  omega

/-- Each prefilled transaction takes a position of its own, the one that its index denotes. -/
theorem prefillLoop_spec (shortCount : Nat) (prefilledtxn : List PrefilledTransaction) :
    ∀ (i : Nat) (last : Int) (l l' : List (Option CTransaction)), -1 ≤ last →
      (∀ j : Nat, last < j → l.getD j none = none) →
      shortCount + i + prefilledtxn.length = l.length →
      prefillLoop shortCount prefilledtxn i last l = .ok l' →
      l'.length = l.length ∧ freeCount l' + prefilledtxn.length = freeCount l ∧
        ∀ j tx, l'.getD j none = some tx ↔ l.getD j none = some tx ∨
          ∃ k p, prefilledtxn[k]? = some p ∧
            (j : Int) = last + indexSum (prefilledtxn.take (k + 1)) ∧
            p.tx = tx := by
  induction prefilledtxn with
  | nil =>
    intro i last l l' _ _ _ h
    obtain rfl : l = l' := Except.ok.inj h
    exact ⟨rfl, rfl, by simp⟩
  | cons p ps ih =>
    intro i last l l' hlast hfree hlen h
    rw [prefillLoop] at h
    generalize hpos : last + (p.index.toNat + 1 : Nat) = pos at h
    split_ifs at h with hnull hmax hcount
    rw [length_cons] at hlen
    have hlt : pos.toNat < l.length := by omega
    have hnone : l.getD pos.toNat none = none := hfree pos.toNat (by omega)
    obtain ⟨hlen', hcount', hplaces⟩ := ih (i + 1) pos (l.set pos.toNat (some p.tx)) l' (by omega)
      (fun j hj => by
        rw [getD_eq_getElem?_getD, getElem?_set, if_neg (by omega), ← getD_eq_getElem?_getD]
        exact hfree j (by omega))
      (by rw [length_set]; omega) h
    have hset := freeCount_set hlt (some p.tx)
    rw [hnone] at hset
    rw [length_set] at hlen'
    refine ⟨hlen', by simp at hset ⊢; omega, fun j tx => ?_⟩
    have hwrite : (l.set pos.toNat (some p.tx)).getD j none = some tx ↔
        l.getD j none = some tx ∨ (j : Int) = pos ∧ p.tx = tx := by
      rw [getD_eq_getElem?_getD, getElem?_set]
      split_ifs with hj
      · rw [← hj, hnone]
        simp
        omega
      · rw [← getD_eq_getElem?_getD, or_iff_left fun h => hj (by omega)]
    rw [hplaces, hwrite, or_assoc]
    refine or_congr_right ⟨?_, ?_⟩
    · rintro (⟨hj, htx⟩ | ⟨k, q, hq, hj, htx⟩)
      · exact ⟨0, p, rfl, by rw [take_succ_cons, indexSum_cons]; simp [indexSum]; omega, htx⟩
      · exact ⟨k + 1, q, hq, by rw [take_succ_cons, indexSum_cons]; omega, htx⟩
    · rintro ⟨_ | k, q, hq, hj, htx⟩
      · obtain rfl := Option.some.inj hq
        exact .inl ⟨by rw [take_succ_cons, indexSum_cons] at hj; simp [indexSum] at hj; omega, htx⟩
      · rw [take_succ_cons, indexSum_cons] at hj
        exact .inr ⟨k, q, hq, by omega, htx⟩

theorem freeCount_take_succ {l : List (Option CTransaction)} {pos : Nat} (h : pos < l.length) :
    freeCount (l.take (pos + 1)) = freeCount (l.take pos) + (l.getD pos none).isNone.toNat := by
  rw [take_succ_eq_append_getElem h, freeCount, countP_append, ← freeCount,
    getD_eq_getElem?_getD, getElem?_eq_getElem h, Option.getD_some]
  cases l[pos] <;> rfl

/-- As long as a position is free, the loop finds the next one. -/
theorem skipFilled_spec (n : Nat) :
    ∀ pos, l.length ≤ pos + n → freeCount (l.take pos) < freeCount l →
      skipFilled l n pos < l.length ∧ l.getD (skipFilled l n pos) none = none ∧
        freeCount (l.take (skipFilled l n pos)) = freeCount (l.take pos) := by
  induction n with
  | zero =>
    intro pos hlen hfree
    rw [take_of_length_le (by omega)] at hfree
    exact absurd hfree (lt_irrefl _)
  | succ n ih =>
    intro pos hlen hfree
    have hlt : pos < l.length := by
      by_contra hge
      rw [take_of_length_le (by omega)] at hfree
      exact lt_irrefl _ hfree
    have hsucc := freeCount_take_succ hlt
    rw [skipFilled]
    cases hpos : l.getD pos none with
    | none => exact ⟨hlt, hpos, rfl⟩
    | some tx =>
      rw [hpos] at hsucc
      have hnext := ih (pos + 1) (by omega) (by rwa [hsucc])
      rwa [hsucc] at hnext

/-- The positions given out so far. -/
structure Placed (l : List (Option CTransaction)) (before : List UInt64) (pos : Nat)
    (m : StdMap UInt64 Nat) : Prop where
  mem_iff : ∀ id : UInt64, id ∈ before ↔ ∃ p, m[id]? = some p
  lt : ∀ {id : UInt64} {p : Nat}, m[id]? = some p → p < l.length
  slot : ∀ {id : UInt64} {p : Nat}, m[id]? = some p → before[freeCount (l.take p)]? = some id
  free : ∀ {id : UInt64} {p : Nat}, m[id]? = some p → l.getD p none = none
  count : freeCount (l.take pos) = before.length
  size_le : m.size ≤ before.length
  size_eq_iff : m.size = before.length ↔ before.Nodup

theorem Placed.insert {l : List (Option CTransaction)} {before : List UInt64} {pos p : Nat}
    (h : Placed l before pos m) (hlt : p < l.length) (hfree : l.getD p none = none)
    (hcount : freeCount (l.take p) = freeCount (l.take pos)) (id : UInt64) :
    Placed l (before ++ [id]) (p + 1) (m.insert id p) where
  mem_iff := fun id' => by
    rw [StdMap.getElem?_insert, mem_append, mem_singleton, h.mem_iff]
    by_cases heq : id = id'
    · simp [heq]
    · simp [heq, Ne.symm heq]
  lt := fun {id' q} hq => by
    rcases StdMap.insert_eq_some_iff.mp hq with ⟨-, rfl⟩ | ⟨-, hq⟩
    · exact hlt
    · exact h.lt hq
  slot := fun {id' q} hq => by
    rcases StdMap.insert_eq_some_iff.mp hq with ⟨rfl, rfl⟩ | ⟨-, hq⟩
    · rw [hcount, h.count, getElem?_concat_length]
    · have hslot := h.slot hq
      rwa [getElem?_append_left (List.getElem?_eq_some_iff.mp hslot).1]
  free := fun {id' q} hq => by
    rcases StdMap.insert_eq_some_iff.mp hq with ⟨-, rfl⟩ | ⟨-, hq⟩
    · exact hfree
    · exact h.free hq
  count := by
    rw [freeCount_take_succ hlt, hfree, hcount, h.count, length_append]
    rfl
  size_le := by
    have := h.size_le
    rw [size_insert, length_append, length_singleton]
    split_ifs <;> omega
  size_eq_iff := by
    have hle := h.size_le
    have hmem : m.contains id ↔ id ∈ before := by
      rw [h.mem_iff, ← mem_iff_contains, mem_iff_isSome_getElem?,
        Option.isSome_iff_exists]
    rw [size_insert, length_append, length_singleton,
      nodup_append_comm, singleton_append, nodup_cons, ← h.size_eq_iff, ← hmem]
    split_ifs with hin
    · exact iff_of_false (by omega) fun hnot => hnot.1 hin
    · rw [add_right_cancel_iff, and_iff_right hin]

/-- Every short id gets the next free position. -/
theorem placeLoop_spec (ids : List UInt64) :
    ∀ (before : List UInt64) (pos : Nat) (m m' : StdMap UInt64 Nat), Placed l before pos m →
      before.length + ids.length ≤ freeCount l → placeLoop hashing l ids before pos m = some m' →
      ∃ pos', Placed l (before ++ ids) pos' m' := by
  induction ids with
  | nil =>
    intro before pos m m' hm _ h
    obtain rfl := Option.some.inj h
    rw [append_nil]
    exact ⟨pos, hm⟩
  | cons id ids ih =>
    intro before pos m m' hm hfree h
    rw [length_cons] at hfree
    obtain ⟨hlt, hnone, hcount⟩ := skipFilled_spec l l.length pos (by omega)
      (by rw [hm.count]; omega)
    rw [placeLoop] at h
    split_ifs at h with hbucket
    rw [append_cons]
    exact ih _ _ _ _ (hm.insert hlt hnone hcount id)
      (by rw [length_append, length_singleton]; omega) h

/-- The object after the first part of `InitData`. -/
def filledBlock (cmpctblock : CBlockHeaderAndShortTxIDs)
    (txn_available : List (Option CTransaction)) :
    PartiallyDownloadedBlock where
  txn_available := txn_available
  prefilled_count := cmpctblock.prefilledtxn.length
  mempool_count := 0
  extra_count := 0
  header := some cmpctblock.header
  mweb_block := cmpctblock.mweb_block

/-- Compact blocks that are read: what the header, the prefilled transactions and the short ids have
to satisfy. -/
structure WellFormed (cmpctblock : CBlockHeaderAndShortTxIDs) : Prop where
  header : isNull cmpctblock.header = false
  count_pos : 0 < cmpctblock.blockTxCount
  count_le : cmpctblock.blockTxCount ≤ maxBlockWeight / minSerializableTransactionWeight
  /-- No prefilled transaction is null. -/
  nonnull : ∀ p ∈ cmpctblock.prefilledtxn, ¬ (p.tx.vin.isEmpty ∧ p.tx.vout.isEmpty)
  /-- All transactions before a prefilled one are named. -/
  position_le : ∀ i < cmpctblock.prefilledtxn.length,
    prefillPos cmpctblock.prefilledtxn i ≤ 65535 ∧
      prefillPos cmpctblock.prefilledtxn i ≤ cmpctblock.shorttxids.length + i
  /-- No bucket of the short ids holds too many. -/
  bucket_le : ∀ i, ∀ h : i < cmpctblock.shorttxids.length,
    hashing.bucketSize (cmpctblock.shorttxids.take (i + 1)) (cmpctblock.shorttxids[i]) ≤ 12
  nodup : cmpctblock.shorttxids.Nodup

/-- Which prefilled transactions are accepted. -/
theorem prefillLoop_isOk_iff (shortCount : Nat) (ps : List PrefilledTransaction) :
    ∀ (i : Nat) (last : Int) (l : List (Option CTransaction)),
      (∃ l', prefillLoop shortCount ps i last l = .ok l') ↔
        (∀ p ∈ ps, ¬ (p.tx.vin.isEmpty ∧ p.tx.vout.isEmpty)) ∧
        ∀ j < ps.length, last + indexSum (ps.take (j + 1)) ≤ 65535 ∧
          last + indexSum (ps.take (j + 1)) ≤ (shortCount + (i + j) : Nat) := by
  induction ps with
  | nil =>
    intro i last l
    simp [prefillLoop]
  | cons p ps ih =>
    intro i last l
    have hsum : ∀ j, last + indexSum ((p :: ps).take (j + 1)) =
        last + (p.index.toNat + 1 : Nat) + indexSum (ps.take j) := by
      intro j
      rw [take_succ_cons, indexSum_cons]
      omega
    have hzero : indexSum (ps.take 0) = 0 := rfl
    rw [prefillLoop, forall_mem_cons, length_cons, forall_lt_succ_left]
    simp only [hsum, hzero]
    split_ifs with hnull hmax hcount
    · exact iff_of_false (by simp) fun h => h.1.1 hnull
    · exact iff_of_false (by simp) fun h => absurd h.2.1.1 (by omega)
    · exact iff_of_false (by simp) fun h => absurd h.2.1.2 (by omega)
    · rw [ih, and_iff_right hnull, and_iff_right (a := _ ∧ _) ⟨by omega, by omega⟩]
      simp only [add_assoc, add_comm 1]

/-- Which prefilled transactions are accepted from the start. -/
theorem prefillLoop_isOk_start (shortCount : Nat) (ps : List PrefilledTransaction)
    (l : List (Option CTransaction)) :
    (∃ l', prefillLoop shortCount ps 0 (-1) l = .ok l') ↔
      (∀ p ∈ ps, ¬ (p.tx.vin.isEmpty ∧ p.tx.vout.isEmpty)) ∧
      ∀ i < ps.length, prefillPos ps i ≤ 65535 ∧ prefillPos ps i ≤ shortCount + i := by
  rw [prefillLoop_isOk_iff]
  refine and_congr_right fun _ => forall₂_congr fun i hi => ?_
  rw [← prefillPos_cast hi]
  omega

/-- Which short ids are accepted. -/
theorem placeLoop_isSome_iff (ids : List UInt64) :
    ∀ (before : List UInt64) (pos : Nat) (m : StdMap UInt64 Nat),
      (∃ m', placeLoop hashing l ids before pos m = some m') ↔
        ∀ i, ∀ h : i < ids.length, hashing.bucketSize (before ++ ids.take (i + 1)) ids[i] ≤ 12 := by
  induction ids with
  | nil =>
    intro before pos m
    simp [placeLoop]
  | cons id ids ih =>
    intro before pos m
    refine Iff.trans ?_ forall_lt_succ_left'.symm
    rw [placeLoop]
    split_ifs with hbucket
    · exact iff_of_false (by simp) fun h => absurd h.1 (not_le.mpr hbucket)
    · rw [ih]
      simp only [append_assoc, singleton_append]
      exact (and_iff_right (Nat.le_of_not_lt hbucket)).symm

/-- The positions that are prefilled on a new object. -/
theorem prefillLoop_new {l : List (Option CTransaction)} (h : prefill cmpctblock = .ok l) :
    l.length = cmpctblock.blockTxCount ∧ freeCount l = cmpctblock.shorttxids.length ∧
      ∀ j tx, l.getD j none = some tx ↔ ∃ k p, cmpctblock.prefilledtxn[k]? = some p ∧
        j = prefillPos cmpctblock.prefilledtxn k ∧ p.tx = tx := by
  have hnone : ∀ j, (replicate cmpctblock.blockTxCount (none : Option CTransaction)).getD j
    none = none :=
    fun j => getElem?_getD_replicate_default_eq _ _ j
  obtain ⟨hlen, hfree, hplaces⟩ := prefillLoop_spec _ _ 0 (-1) _ _ le_rfl (fun j _ => hnone j)
    (by rw [length_replicate]; rfl) h
  have hcount : freeCount (replicate cmpctblock.blockTxCount none) = cmpctblock.blockTxCount := by
    rw [freeCount, countP_replicate]
    rfl
  rw [hcount, CBlockHeaderAndShortTxIDs.blockTxCount] at hfree
  refine ⟨hlen.trans length_replicate, by omega, fun j tx => ?_⟩
  rw [hplaces, hnone, or_iff_right nofun]
  refine exists_congr fun k => exists_congr fun p => and_congr_right fun hk =>
    and_congr_left fun _ => ?_
  rw [← prefillPos_cast (List.getElem?_eq_some_iff.mp hk).1, Nat.cast_inj]

/-- The positions that the loops give out on a new object. -/
theorem placed_of_loops {l : List (Option CTransaction)} (hprefill : prefill cmpctblock = .ok l)
    (hplace : placeLoop hashing l cmpctblock.shorttxids [] 0 ∅ = some m) :
    ∃ pos, Placed l cmpctblock.shorttxids pos m := by
  have hstart : Placed l [] 0 ∅ :=
    { mem_iff := by simp
      lt := by simp
      slot := by simp
      free := by simp
      count := rfl
      size_le := by simp
      size_eq_iff := by simp }
  exact placeLoop_spec hashing l _ [] 0 ∅ m hstart
    (by rw [(prefillLoop_new hprefill).2.1, length_nil, zero_add]) hplace

/-- The first part of `InitData` passes on a new object exactly for well-formed compact blocks. The
short ids then have positions of their own that are not prefilled. -/
theorem readCompact_spec (mweb_block : Option Mweb.Block) (cmpctblock : CBlockHeaderAndShortTxIDs) :
    Ensures (readCompact hashing (.new mweb_block) cmpctblock)
      (fun r => WellFormed hashing cmpctblock ∧ ∃ l,
        prefill cmpctblock = .ok l ∧
        Layout l cmpctblock.shorttxids r.2 ∧ r.1 = filledBlock cmpctblock l)
      fun r => r.1 ≠ .ok ∧ ¬ WellFormed hashing cmpctblock := by
  have hempty : (isNull cmpctblock.header ||
      cmpctblock.shorttxids.isEmpty && cmpctblock.prefilledtxn.isEmpty) = false ↔
      isNull cmpctblock.header = false ∧ 0 < cmpctblock.blockTxCount := by
    rw [Bool.or_eq_false_iff, Bool.and_eq_false_iff, isEmpty_eq_false_iff,
      isEmpty_eq_false_iff, ← length_pos_iff, ← length_pos_iff,
      CBlockHeaderAndShortTxIDs.blockTxCount, add_pos_iff_pos_or_pos]
  refine Ensures.bind (Ensures.reject fun hc => ⟨nofun, ?_⟩) fun _ hheader => ?_
  · intro h
    rw [hempty.mpr ⟨h.header, h.count_pos⟩] at hc
    cases hc
  refine Ensures.bind (Ensures.reject fun hc => ⟨nofun, ?_⟩) fun _ hle => ?_
  · exact fun h => absurd h.count_le (not_le.mpr (of_decide_eq_true hc))
  refine Ensures.bind (Ensures.reject nofun) fun _ _ => ?_
  -- The loops accept what a well-formed compact block has.
  have hprefilled : (∃ l, prefill cmpctblock = .ok l) ↔ _ := prefillLoop_isOk_start ..
  change Ensures ((prefill cmpctblock).mapError _ >>= _) _ _
  cases hprefill : prefill cmpctblock with
  | error filled =>
    rw [hprefill] at hprefilled
    exact ⟨nofun, fun h => absurd (hprefilled.mpr ⟨h.nonnull, h.position_le⟩) (by simp)⟩
  | ok l =>
    obtain ⟨hnonnull, hpositions⟩ := hprefilled.mp ⟨l, hprefill⟩
    have hids := placeLoop_isSome_iff hashing (l := l) cmpctblock.shorttxids [] 0 ∅
    show Ensures (match placeLoop hashing l cmpctblock.shorttxids [] 0 ∅ with
      | none => _ | some _ => _) _ _
    cases hplace : placeLoop hashing l cmpctblock.shorttxids [] 0 ∅ with
    | none =>
      rw [hplace] at hids
      exact ⟨nofun, fun h => absurd (hids.mpr h.bucket_le) (by simp)⟩
    | some m =>
      obtain ⟨pos, hplaced⟩ := placed_of_loops hashing hprefill hplace
      refine Ensures.bind (Ensures.reject fun hc => ⟨nofun, ?_⟩) fun _ hsize => ?_
      · exact fun h => of_decide_eq_true hc (hplaced.size_eq_iff.mpr h.nodup)
      have hsize := not_not.mp (of_decide_eq_false hsize)
      have hnodup := hplaced.size_eq_iff.mp hsize
      exact ⟨⟨(hempty.mp hheader).1, (hempty.mp hheader).2,
        Nat.le_of_not_lt (of_decide_eq_false hle), hnonnull,
        hpositions, hids.mp ⟨m, hplace⟩, hnodup⟩, l, rfl,
        ⟨hnodup, hsize, hplaced.mem_iff, hplaced.lt, hplaced.slot, hplaced.free⟩, rfl⟩

/-- The search starts with every slot empty. -/
theorem startScan_sim (hl : Layout base ids m) (shortID : Uint256 → UInt64)
    (self : PartiallyDownloadedBlock) (hbase : self.txn_available = base)
    (hcount : self.mempool_count = 0) : Sim base ids m (slotOf shortID [] []) self.startScan where
  length_available := by rw [← hbase]; rfl
  length_have := by
    rw [← hbase]
    exact length_replicate
  have_eq := fun _ => getElem?_getD_replicate_default_eq ..
  available_eq := fun {id pos} hid => by
    show self.txn_available.getD pos none = none
    rw [hbase]
    exact hl.free hid
  other_eq := fun pos _ => by rw [← hbase]; rfl
  count_eq := by
    show self.mempool_count = _
    rw [hcount]
    exact (countP_eq_zero.mpr fun id _ => by simp [slotOf, matching, Slot.isFilled, Slot.tx?]).symm
  free_eq := by
    show freeCount self.txn_available + self.mempool_count = _
    rw [hbase, hcount, add_zero]

end DefcoinCore.BlockEncodings
