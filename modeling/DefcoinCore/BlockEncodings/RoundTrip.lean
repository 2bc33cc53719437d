import DefcoinCore.BlockEncodings.ExtraTxn

/-!
# Compact blocks, there and back

The sender's `CBlockHeaderAndShortTxIDs(block, fUseWTXID)`, and the receiver's `FillBlock` after
`InitData`. When short ids do not collide, `InitData` finds for every transaction of the block the
first candidate with its witness hash (`initData_available`). The witness hash covers neither
Mimblewimble data nor the marker of the integrating transaction, which a candidate may carry and a
transaction of a block may not; `fillBlock_roundTrip_iff` says when the block comes back.
-/

namespace DefcoinCore.BlockEncodings

open List CBlockHeaderAndShortTxIDs Except UInt16

/-! ## The code -/

/-- The prefilled transactions of a block: the first, and the integrating one if there is an
extension block. The index of the latter is a `uint16_t`. -/
def prefilledOf (block : CBlock) : List PrefilledTransaction :=
  (block.vtx.head?.toList.map fun tx => ⟨0, tx⟩) ++
    if block.mweb_block.isSome then
      block.vtx.getLast?.toList.map fun tx => ⟨ofNat (block.vtx.length + 65534), tx⟩
    else []

/-- The transactions of a block that are named by short ids. -/
def shortTxs (block : CBlock) : List CTransaction := block.vtx.tail.filter fun tx => !tx.m_hogEx

/-- `CBlockHeaderAndShortTxIDs(block, fUseWTXID)`, as the receiver reads it. -/
def CBlockHeaderAndShortTxIDs.ofBlock (hashing : Hashing) (nonce : UInt64) (block : CBlock)
    (fUseWTXID : Bool) : Option CBlockHeaderAndShortTxIDs :=
  if h : (shortTxs block).length + (prefilledOf block).length ≤ 65535 then
    some
      { header := block.toCBlockHeader
        nonce := nonce
        shorttxids := (shortTxs block).map fun tx =>
          hashing.sipHash block.toCBlockHeader nonce
            (if fUseWTXID then tx.m_witness_hash else tx.hash) &&& 0xffffffffffff
        prefilledtxn := prefilledOf block
        mweb_block := block.mweb_block
        count_le := by rwa [List.length_map] }
  else none

/-- `IsTxAvailable`. -/
def PartiallyDownloadedBlock.isTxAvailable (self : PartiallyDownloadedBlock) (index : Nat) : Bool :=
  self.header.isSome && (self.txn_available.getD index none).isSome

/-- The loop of `FillBlock`: the transactions of the block and the missing ones that are left, or
`none` when there are too few. -/
def fillLoop : List (Option CTransaction) → List CTransaction →
    Option (List CTransaction × List CTransaction)
  | [], vtx_missing => some ([], vtx_missing)
  | some tx :: txn_available, vtx_missing =>
    (fillLoop txn_available vtx_missing).map fun r => (tx :: r.1, r.2)
  | none :: _, [] => none
  | none :: txn_available, tx :: vtx_missing =>
    (fillLoop txn_available vtx_missing).map fun r => (tx :: r.1, r.2)

/-- `FillBlock`: the block, or the status that it is refused with. -/
def fillBlock (params : ConsensusParams) (self : PartiallyDownloadedBlock)
    (vtx_missing : List CTransaction) : Except ReadStatus CBlock :=
  match self.header with
  | none => .error .invalid
  | some header =>
    match fillLoop self.txn_available vtx_missing with
    | none => .error .invalid
    | some (vtx, left) =>
      if left ≠ [] then .error .invalid
      else
        match checkBlock params true true
            { header with vtx := vtx, fChecked := false, mweb_block := self.mweb_block } with
        | .ok block => .ok block
        | .error e => .error (if e.result = .mutated then .failed else .checkBlockFailed)

/-! ## The block that is sent -/

/-- There is an extension block exactly when the last transaction is the integrating one, which is
the only one with the marker. -/
structure HogExLast (block : CBlock) : Prop where
  last : block.mweb_block.isSome →
    ∃ hogEx, block.vtx.getLast? = some hogEx ∧ hogEx.m_hogEx
  only : ∀ i, ∀ h : i < block.vtx.length, (block.vtx[i]).m_hogEx →
    block.mweb_block.isSome ∧ i + 1 = block.vtx.length

variable {block block' : CBlock} {params : ConsensusParams}

/-- The transactions of such a block: the first, those named by short ids, and the integrating one.
-/
theorem HogExLast.split (h : HogExLast block) (hne : block.vtx ≠ [])
    (htwo : block.mweb_block.isSome → 2 ≤ block.vtx.length) :
    ∃ first last, block.vtx = first :: (shortTxs block ++ last) ∧
      prefilledOf block = ⟨0, first⟩ ::
        (last.map fun tx => ⟨ofNat (block.vtx.length + 65534), tx⟩) ∧ last.length ≤ 1 := by
  obtain ⟨first, rest, hvtx⟩ := exists_cons_of_ne_nil hne
  have hrest : ∀ i, ∀ hi : i < rest.length, (rest[i]).m_hogEx →
      block.mweb_block.isSome ∧ i + 1 = rest.length := by
    intro i hi hhog
    have hi' : i + 1 < block.vtx.length := by rw [hvtx]; simpa using hi
    have hget : block.vtx[i + 1] = rest[i] := by simp only [hvtx, getElem_cons_succ]
    have := h.only (i + 1) hi' (by rw [hget]; exact hhog)
    rw [hvtx, length_cons] at this
    exact ⟨this.1, by omega⟩
  have hplain : ∀ {l : List CTransaction}, (∀ i, ∀ hi : i < l.length, ¬ (l[i]).m_hogEx) →
      l.filter (fun tx => !tx.m_hogEx) = l := by
    intro l hl
    refine filter_eq_self.mpr fun tx htx => ?_
    obtain ⟨i, hi, rfl⟩ := getElem_of_mem htx
    simpa using hl i hi
  refine ⟨first, if block.mweb_block.isSome then rest.getLast?.toList else [], ?_⟩
  rw [shortTxs, prefilledOf, hvtx, tail_cons]
  split_ifs with hmweb
  · have hlen := htwo hmweb
    obtain ⟨hogEx, hlast, hhog⟩ := h.last hmweb
    have hrestne : rest ≠ [] := by
      rintro rfl
      rw [hvtx] at hlen
      simp at hlen
    rw [hvtx, getLast?_cons, getLast?_eq_some_getLast hrestne, Option.getD_some] at hlast
    rw [getLast?_cons, getLast?_eq_some_getLast hrestne, hlast]
    refine ⟨?_, rfl, le_rfl⟩
    -- the last transaction is the only one that is left out
    obtain ⟨front, hfront⟩ :=
      getLast?_eq_some_iff.mp ((getLast?_eq_some_getLast hrestne).trans hlast)
    rw [hfront, filter_append, hplain]
    · simp [hhog]
    · intro i hi hbad
      have hi' : i < rest.length := by rw [hfront]; simp; omega
      have hget : rest[i] = front[i] := by simp only [hfront, getElem_append_left hi]
      have := (hrest i hi' (by rw [hget]; exact hbad)).2
      rw [hfront, length_append, length_singleton] at this
      omega
  · exact ⟨by rw [hplain fun i hi hbad => hmweb (hrest i hi hbad).1, append_nil], rfl,
      Nat.zero_le 1⟩

/-- The prefilled transactions go to the two ends. -/
theorem prefillLoop_ends (first : CTransaction) (last : List CTransaction) (mid : Nat)
    (hlast : last.length ≤ 1) (hcount : 1 + mid + last.length ≤ 65535)
    (hnonnull : ∀ tx ∈ first :: last, ¬ (tx.vin.isEmpty ∧ tx.vout.isEmpty)) :
    prefillLoop mid (⟨0, first⟩ ::
        (last.map fun tx => ⟨ofNat (1 + mid + last.length + 65534), tx⟩)) 0 (-1)
      (replicate (1 + mid + last.length) none) =
      .ok (some first :: (replicate mid none ++ last.map some)) := by
  have hset : (replicate (1 + mid + last.length) (none : Option CTransaction)).set 0 (some first) =
      some first :: replicate (mid + last.length) none := by
    rw [show 1 + mid + last.length = mid + last.length + 1 by omega, replicate_succ, set_cons_zero]
  rw [prefillLoop, if_neg (hnonnull first mem_cons_self),
    show (-1 : Int) + ((0 : UInt16).toNat + 1 : Nat) = 0 from rfl, if_neg (by omega),
    if_neg (by omega), Int.toNat_zero, hset]
  obtain _ | ⟨hogEx, _ | ⟨tx, l⟩⟩ := last
  · rw [map_nil, prefillLoop, length_nil, Nat.add_zero, map_nil, append_nil]
  · have hindex : (ofNat (1 + mid + 1 + 65534)).toNat = mid := by
      rw [toNat_ofNat']
      simp only [length_singleton] at hcount
      omega
    rw [length_singleton] at hcount ⊢
    rw [map_singleton, prefillLoop, if_neg (hnonnull hogEx (by simp)), hindex,
      if_neg (by omega), if_neg (by omega), prefillLoop,
      show ((0 : Int) + (mid + 1 : Nat)).toNat = mid + 1 by omega, set_cons_succ,
      replicate_succ', set_append_right _ _ (by simp)]
    simp
  · simp at hlast

/-- The positions between the ends are free. -/
theorem getD_ends {first : CTransaction} {last : List CTransaction} {mid j : Nat}
    (hj : j < (some first :: (replicate mid none ++ last.map some)).length) :
    (some first :: (replicate mid none ++ last.map some)).getD j none = none ↔ 1 ≤ j ∧ j ≤ mid := by
  obtain _ | j := j
  · simp
  · rw [getD_cons_succ, getD_eq_getElem?_getD]
    by_cases hmid : j < mid
    · rw [getElem?_append_left (by simpa using hmid), getElem?_replicate, if_pos hmid]
      simp
      omega
    · have hlast : j - mid < last.length := by simp at hj; omega
      rw [getElem?_append_right (by simp; omega), length_replicate, getElem?_map,
        getElem?_eq_getElem hlast]
      simp
      omega

/-- The positions of the short ids of a block that is sent: they follow the first transaction. -/
theorem Layout.ends {first : CTransaction} {last : List CTransaction} {ids : List UInt64}
    {m : StdMap UInt64 Nat}
    (hl : Layout (some first :: (replicate ids.length none ++ last.map some)) ids m) {i : Nat}
    (hi : i < ids.length) : m[ids[i]]? = some (i + 1) := by
  obtain ⟨pos, hpos⟩ := (hl.mem_iff _).mp (getElem_mem hi)
  obtain ⟨hone, hle⟩ := (getD_ends (hl.lt_length hpos)).mp (hl.free hpos)
  obtain ⟨k, rfl⟩ := Nat.exists_eq_add_one.mpr hone
  have hslot := hl.slot hpos
  have hcount :
      freeCount ((some first :: (replicate ids.length none ++ last.map some)).take (k + 1)) =
      k := by
    rw [take_succ_cons, take_append_of_le_length (by simp; omega), take_replicate, freeCount,
      countP_cons_of_neg (by simp), countP_replicate]
    simp
    omega
  rw [hcount, getElem?_eq_getElem hle, Option.some.injEq, hl.nodup.getElem_inj_iff] at hslot
  rw [hpos, hslot]

/-! ## The candidates -/

/-- A transaction without what its witness hash does not cover. -/
def plain (tx : CTransaction) : CTransaction := { tx with mweb_tx := none, m_hogEx := false }

/-- The first candidate with the witness hash of a transaction. -/
def candidateFor (pool extra : List (Uint256 × CTransaction)) (tx : CTransaction) :
    Option CTransaction :=
  ((pool ++ extra).find? fun entry => entry.1 = tx.m_witness_hash).map Prod.snd

/-- The transactions of a block, of the memory pool and of the extra list: each is listed under its
witness hash, those of the pool have different ids, the witness hash determines all of a transaction
that it covers, and short ids collide only for equal witness hashes. -/
structure Relay (shortID : Uint256 → UInt64) (block : CBlock)
    (pool extra : List (Uint256 × CTransaction)) : Prop where
  listed : ∀ entry ∈ pool ++ extra, entry.1 = entry.2.m_witness_hash
  pool_nodup : (pool.map (·.2.hash)).Nodup
  covers : ∀ tx ∈ block.vtx, ∀ entry ∈ pool ++ extra,
    entry.2.m_witness_hash = tx.m_witness_hash → plain entry.2 = plain tx
  collide : ∀ x ∈ (block.vtx.map (·.m_witness_hash)) ++ (pool ++ extra).map Prod.fst,
    ∀ y ∈ (block.vtx.map (·.m_witness_hash)) ++ (pool ++ extra).map Prod.fst,
      shortID x = shortID y → x = y

section Candidates

variable {shortID : Uint256 → UInt64} {block : CBlock} {pool extra : List (Uint256 × CTransaction)}

variable {tx : CTransaction} {l : List (Uint256 × CTransaction)}

/-- The candidates of a short id are those with the witness hash. -/
theorem Relay.matching_eq (h : Relay shortID block pool extra) (htx : tx ∈ block.vtx)
    (hl : ∀ entry ∈ l, entry ∈ pool ++ extra) :
    matching shortID l (shortID tx.m_witness_hash) =
      (l.filter fun entry => entry.1 = tx.m_witness_hash).map Prod.snd := by
  rw [matching]
  congr 1
  refine filter_congr fun entry hentry => ?_
  rw [decide_eq_decide]
  constructor
  · exact h.collide _ (mem_append_right _ (mem_map_of_mem (hl entry hentry))) _
      (mem_append_left _ (mem_map_of_mem htx))
  · intro heq
    rw [heq]

/-- The candidates of a transaction have its witness hash. -/
theorem Relay.hash_of_mem (h : Relay shortID block pool extra) {c : CTransaction}
    (hl : ∀ entry ∈ l, entry ∈ pool ++ extra)
    (hc : c ∈ (l.filter fun entry => entry.1 = tx.m_witness_hash).map Prod.snd) :
    c.m_witness_hash = tx.m_witness_hash := by
  obtain ⟨entry, hentry, rfl⟩ := mem_map.mp hc
  obtain ⟨hmem, heq⟩ := mem_filter.mp hentry
  rw [← h.listed entry (hl entry hmem)]
  simpa using heq

/-- The memory pool has at most one of them. -/
theorem Relay.pool_length_le (h : Relay shortID block pool extra) (htx : tx ∈ block.vtx) :
    (pool.filter fun entry => entry.1 = tx.m_witness_hash).length ≤ 1 := by
  have hids : ((pool.filter fun entry => entry.1 = tx.m_witness_hash).map fun entry =>
      entry.2.hash).Nodup := h.pool_nodup.sublist (filter_sublist.map _)
  have hsame : ∀ x ∈ (pool.filter fun entry => entry.1 = tx.m_witness_hash).map fun entry =>
      entry.2.hash, x = tx.hash := by
    intro x hx
    obtain ⟨entry, hentry, rfl⟩ := mem_map.mp hx
    obtain ⟨hmem, heq⟩ := mem_filter.mp hentry
    have hpool : entry ∈ pool ++ extra := mem_append_left _ hmem
    have hplain := h.covers tx htx entry hpool
      ((h.listed entry hpool).symm.trans (by simpa using heq))
    have hhash := congrArg CTransaction.hash hplain
    exact hhash
  rw [eq_replicate_of_mem hsame, nodup_replicate, length_map] at hids
  exact hids

/-- Candidates that agree: the first one is taken. -/
theorem slotOf_of_agree {pool extra : List (Uint256 × CTransaction)} {id : UInt64} {w : Uint256}
    (hpool : (matching shortID pool id).length ≤ 1)
    (hagree : ∀ c ∈ matching shortID pool id ++ matching shortID extra id, c.m_witness_hash = w) :
    (slotOf shortID pool extra id).tx? =
      (matching shortID pool id ++ matching shortID extra id).head? := by
  have hstay : ∀ (c : CTransaction) (l : List CTransaction), (∀ d ∈ c :: l, d.m_witness_hash = w) →
      l.foldl Slot.extraHit (.filled c) = .filled c := by
    intro c l
    induction l with
    | nil => exact fun _ => rfl
    | cons d l ih =>
      intro hl
      rw [forall_mem_cons, forall_mem_cons] at hl
      have hsame : Slot.extraHit (.filled c) d = .filled c := by
        rw [Slot.extraHit, if_neg (not_not_intro (hl.1.trans hl.2.1.symm))]
      rw [foldl_cons, hsame]
      exact ih (forall_mem_cons.mpr ⟨hl.1, hl.2.2⟩)
  rw [slotOf]
  generalize matching shortID pool id = ps at *
  generalize matching shortID extra id = es at *
  obtain _ | ⟨c, _ | ⟨d, ps⟩⟩ := ps
  · obtain _ | ⟨c, es⟩ := es
    · rfl
    · exact congrArg Slot.tx? (hstay c es hagree)
  · exact congrArg Slot.tx? (hstay c es hagree)
  · simp at hpool

/-- A loop takes a first part of the list: all of it, or up to where it stops. -/
theorem runUntil_eq {α : Type} (stop : List α → Bool) (l : List α) :
    ∀ done, ∃ k, runUntil stop done l = done ++ l.take k ∧
      (l.take k = l ∨ stop (done ++ l.take k)) := by
  intro done
  rcases runUntil_spec stop l done with ⟨hrun, -⟩ | ⟨j, -, hrun, hstop⟩
  · exact ⟨l.length, by rw [hrun, take_length], .inl take_length⟩
  · exact ⟨j + 1, hrun, .inr hstop⟩

/-- What the slot of a transaction holds after the search: the first candidate, whether the loops
ran to the end or stopped with every slot filled. -/
theorem Relay.slot_eq (h : Relay shortID block pool extra) (htx : tx ∈ block.vtx)
    {ids : List UInt64} (hid : shortID tx.m_witness_hash ∈ ids) {a b : Nat}
    (hpool : pool.take a = pool ∨ allFilled ids (slotOf shortID (pool.take a) []))
    (hextra : extra.take b = extra ∨ allFilled ids (slotOf shortID (pool.take a) (extra.take b))) :
    (slotOf shortID (pool.take a) (extra.take b) (shortID tx.m_witness_hash)).tx? =
      candidateFor pool extra tx := by
  have hmatch := fun l (hl : ∀ entry ∈ l, entry ∈ pool ++ extra) => h.matching_eq htx hl
  generalize hp : (fun entry : Uint256 × CTransaction => decide (entry.1 = tx.m_witness_hash)) = p
    at hmatch
  have hpoolMem : ∀ entry ∈ pool.take a, entry ∈ pool ++ extra := fun entry he =>
    mem_append_left _ (mem_of_mem_take he)
  have hextraMem : ∀ k, ∀ entry ∈ extra.take k, entry ∈ pool ++ extra := fun k entry he =>
    mem_append_right _ (mem_of_mem_take he)
  -- the slot after the first `k` extra transactions
  have hslot : ∀ k, (slotOf shortID (pool.take a) (extra.take k) (shortID tx.m_witness_hash)).tx? =
      (((pool.take a).filter p).map Prod.snd ++ ((extra.take k).filter p).map Prod.snd).head? := by
    intro k
    rw [slotOf_of_agree (w := tx.m_witness_hash), hmatch _ hpoolMem, hmatch _ (hextraMem k)]
    · rw [hmatch _ hpoolMem, length_map]
      have hsub : ((pool.take a).filter p).length ≤ (pool.filter p).length :=
        ((take_sublist a pool).filter p).length_le
      have hone := h.pool_length_le htx
      rw [← hp] at hsub ⊢
      omega
    · rw [hmatch _ hpoolMem, hmatch _ (hextraMem k), ← hp]
      exact forall_mem_append.mpr ⟨fun c => h.hash_of_mem hpoolMem, fun c =>
        h.hash_of_mem (hextraMem k)⟩
  have hfilled : ∀ {k}, allFilled ids (slotOf shortID (pool.take a) (extra.take k)) →
      ((pool.take a).filter p).map Prod.snd ++ ((extra.take k).filter p).map Prod.snd ≠ [] := by
    intro k hall hnil
    have := all_eq_true.mp hall _ hid
    rw [Slot.isFilled, hslot, hnil] at this
    cases this
  have hcandidate : candidateFor pool extra tx =
      ((pool.filter p).map Prod.snd ++ (extra.filter p).map Prod.snd).head? := by
    rw [candidateFor, hp, ← head?_filter, ← head?_map, filter_append, map_append]
  have hsplit : ∀ (l : List (Uint256 × CTransaction)) (k : Nat), (l.filter p).map Prod.snd =
      ((l.take k).filter p).map Prod.snd ++ ((l.drop k).filter p).map Prod.snd := by
    intro l k
    rw [← map_append, ← filter_append, take_append_drop]
  rw [hslot, hcandidate]
  cases hP : ((pool.take a).filter p).map Prod.snd with
  | cons c cs => rw [hsplit pool a, hP]; rfl
  | nil =>
    -- then the whole pool has none, or the loop over the pool would not have stopped
    have hnone : (pool.filter p).map Prod.snd = [] := by
      rcases hpool with hfull | hall
      · rw [← hP, hfull]
      · exact absurd (by rw [hP]; rfl) (hfilled (k := 0) hall)
    rw [hnone, nil_append, nil_append]
    cases hE : ((extra.take b).filter p).map Prod.snd with
    | cons c cs => rw [hsplit extra b, hE]; rfl
    | nil =>
      rcases hextra with hfull | hall
      · rw [← hE, hfull]
      · exact absurd (by rw [hP, hE]; rfl) (hfilled hall)

end Candidates

/-! ## There and back -/

section RoundTrip

variable {hashing : Hashing} {nonce : UInt64} {block : CBlock}
  {pool extra : List (Uint256 × CTransaction)} {cmpctblock : CBlockHeaderAndShortTxIDs}

variable {vtx mid last : List CTransaction} {first : CTransaction}

/-- The fields of the compact form of a block, sent with witness hashes. -/
theorem ofBlock_fields (hsent : ofBlock hashing nonce block true = some cmpctblock) :
    cmpctblock.header = block.toCBlockHeader ∧
      cmpctblock.shorttxids =
        (shortTxs block).map (fun tx => cmpctblock.getShortID hashing tx.m_witness_hash) ∧
      cmpctblock.prefilledtxn = prefilledOf block ∧ cmpctblock.mweb_block = block.mweb_block ∧
      cmpctblock.nonce = nonce := by
  unfold ofBlock at hsent
  by_cases hcount : (shortTxs block).length + (prefilledOf block).length ≤ 65535
  · rw [dif_pos hcount] at hsent
    obtain rfl := Option.some.inj hsent
    exact ⟨rfl, rfl, rfl, rfl, rfl⟩
  · rw [dif_neg hcount] at hsent
    cases hsent

/-- Lists that read the same everywhere. -/
theorem eq_of_getD {l l' : List (Option CTransaction)} (hlen : l.length = l'.length)
    (h : ∀ j < l.length, l.getD j none = l'.getD j none) : l = l' :=
  ext_getElem hlen fun j hj hj' => by simpa [hj, hj'] using h j hj

/-- What `InitData` makes of the compact form of a block. -/
theorem initData_available (hsent : ofBlock hashing nonce block true = some cmpctblock)
    (hlast : HogExLast block) (hne : block.vtx ≠ [])
    (htwo : block.mweb_block.isSome → 2 ≤ block.vtx.length)
    (hrelay : Relay (cmpctblock.getShortID hashing) block pool extra)
    (hwf : WellFormed hashing cmpctblock) (mweb_block : Option Mweb.Block) :
    ∃ self, initData hashing (.new mweb_block) pool cmpctblock (refs extra) = .ok (.ok, self) ∧
      self.header = some block.toCBlockHeader ∧ self.mweb_block = block.mweb_block ∧
      ∃ first last, block.vtx = first :: (shortTxs block ++ last) ∧
        self.txn_available =
          some first :: ((shortTxs block).map (candidateFor pool extra) ++ last.map some) := by
  obtain ⟨first, last, hvtx, hprefilled, hlen⟩ := hlast.split hne htwo
  obtain ⟨hheader, hids, hpre, hmweb, -⟩ := ofBlock_fields hsent
  have hidsLen : cmpctblock.shorttxids.length = (shortTxs block).length := by
    rw [hids, length_map]
  have hvtxLen : block.vtx.length = 1 + cmpctblock.shorttxids.length + last.length := by
    rw [hvtx, hidsLen]
    simp
    omega
  rw [hvtxLen] at hprefilled
  have hcount : cmpctblock.blockTxCount = 1 + cmpctblock.shorttxids.length + last.length := by
    rw [blockTxCount, hpre, hprefilled]
    simp
    omega
  -- the positions: the prefilled transactions at the ends, the short ids in between
  obtain ⟨l, m, s, hprefill, hl, hsim, heq⟩ := initData_eq hashing mweb_block hwf pool
  have hnonnull := hwf.nonnull
  rw [hpre, hprefilled, forall_mem_cons, forall_mem_map] at hnonnull
  have hends := prefillLoop_ends first last cmpctblock.shorttxids.length hlen
    (by have := cmpctblock.count_le; rw [blockTxCount] at hcount; omega)
    (forall_mem_cons.mpr hnonnull)
  rw [prefill, hpre, hprefilled, hcount, hends] at hprefill
  obtain rfl := (ok.inj hprefill).symm
  -- the search
  obtain ⟨s', hs', hsim'⟩ := (extraScan_sim hl _ extra [] s hsim).exists_ok
  obtain ⟨a, hpoolRun, hpoolEnd⟩ := runUntil_eq (fun pool => allFilled cmpctblock.shorttxids
    (slotOf (cmpctblock.getShortID hashing) pool [])) pool []
  obtain ⟨b, hextraRun, hextraEnd⟩ := runUntil_eq (fun extra => allFilled cmpctblock.shorttxids
    (slotOf (cmpctblock.getShortID hashing) (searchedPool hashing cmpctblock pool) extra)) extra []
  rw [hextraRun, nil_append] at hsim'
  rw [nil_append] at hpoolRun hpoolEnd hextraEnd
  rw [searchedPool, hpoolRun] at hsim' hextraEnd
  refine ⟨_, by rw [heq, hs']; rfl, congrArg some hheader, hmweb, first, last, hvtx, ?_⟩
  show s'.txn_available = _
  have hlength := hsim'.length_available
  refine eq_of_getD (by rw [hlength]; simp [hidsLen]) fun j hj => ?_
  by_cases hshort : 1 ≤ j ∧ j ≤ cmpctblock.shorttxids.length
  · obtain ⟨i, rfl⟩ := Nat.exists_eq_add_one.mpr hshort.1
    have hi : i < cmpctblock.shorttxids.length := hshort.2
    have hi' : i < (shortTxs block).length := by rw [← hidsLen]; exact hi
    have hid : cmpctblock.shorttxids[i] =
        cmpctblock.getShortID hashing ((shortTxs block)[i]).m_witness_hash := by
      simp only [hids, getElem_map]
    have hmem : (shortTxs block)[i] ∈ block.vtx := by
      rw [hvtx]
      exact mem_cons_of_mem _ (mem_append_left _ (getElem_mem hi'))
    rw [hsim'.available_eq (hl.ends hi), hid,
      hrelay.slot_eq hmem (by rw [← hid]; exact getElem_mem hi) hpoolEnd hextraEnd,
      getD_cons_succ, getD_eq_getElem?_getD,
      getElem?_append_left (by rwa [length_map]), getElem?_map,
      getElem?_eq_getElem hi']
    rfl
  · -- the ends are as they were prefilled
    rw [hsim'.other_eq j fun id hid => hshort ((getD_ends (hl.lt_length hid)).mp (hl.free hid))]
    obtain _ | j := j
    · rfl
    · rw [getD_cons_succ, getD_cons_succ, getD_eq_getElem?_getD,
        getD_eq_getElem?_getD, getElem?_append_right (by simp; omega),
        getElem?_append_right (by simp; omega), length_replicate, length_map, hidsLen]

/-- The transactions of a block that are not available, in their order. -/
def missing : List CTransaction → List (Option CTransaction) → List CTransaction
  | tx :: vtx, none :: txn_available => tx :: missing vtx txn_available
  | _ :: vtx, some _ :: txn_available => missing vtx txn_available
  | _, _ => []

/-- The missing transactions fill the gaps, and none is left over. -/
theorem fillLoop_missing (vtx : List CTransaction) :
    ∀ l : List (Option CTransaction), vtx.length = l.length →
      fillLoop l (missing vtx l) = some (zipWith (fun tx a => a.getD tx) vtx l, []) := by
  induction vtx with
  | nil =>
    intro l hl
    obtain rfl := length_eq_zero_iff.mp hl.symm
    rfl
  | cons tx vtx ih =>
    intro l hl
    obtain _ | ⟨a, l⟩ := l
    · simp at hl
    · have htail := ih l (by simpa using hl)
      cases a with
      | none => rw [missing, fillLoop, htail]; rfl
      | some c => rw [missing, fillLoop, htail]; rfl

/-- The block that comes back is the same exactly when every candidate is the transaction itself. -/
theorem zipWith_available (hvtx : vtx = first :: (mid ++ last))
    (g : CTransaction → Option CTransaction) :
    zipWith (fun tx a => a.getD tx) vtx (some first :: (mid.map g ++ last.map some)) = vtx ↔
      ∀ tx ∈ mid, (g tx).getD tx = tx := by
  have hmid : zipWith (fun tx a => a.getD tx) mid (mid.map g) =
      mid.map fun tx => (g tx).getD tx := by
    rw [zipWith_map_right, zipWith_self]
  have hlast : zipWith (fun tx a => a.getD tx) last (last.map some) = last := by
    rw [zipWith_map_right, zipWith_self]
    exact map_id last
  rw [hvtx, zipWith_cons_cons, zipWith_append (by simp), hmid, hlast, Option.getD_some,
    cons.injEq, and_iff_right rfl, append_left_inj]
  simpa using map_inj_left (l := mid) (f := fun tx => (g tx).getD tx) (g := id)

/-- Only a transaction without a candidate is missing. -/
theorem candidate_none_of_missing {tx : CTransaction} (hvtx : vtx = first :: (mid ++ last))
    (g : CTransaction → Option CTransaction) {i : Nat} (hi : vtx[i]? = some tx)
    (hmissing : (some first :: (mid.map g ++ last.map some)).getD i none = none) : g tx = none := by
  rw [hvtx] at hi
  cases i with
  | zero => cases hmissing
  | succ i =>
    rw [getElem?_cons_succ] at hi
    rw [getD_cons_succ, getD_eq_getElem?_getD] at hmissing
    by_cases hmid : i < mid.length
    · rw [getElem?_append_left hmid] at hi
      rwa [getElem?_append_left (by rwa [length_map]), getElem?_map, hi] at hmissing
    · rw [getElem?_append_right (by omega)] at hi
      rw [getElem?_append_right (by rw [length_map]; omega), length_map,
        getElem?_map, hi] at hmissing
      cases hmissing

end RoundTrip

/-! ## Blocks that are small enough -/

theorem length_flatMap_ge {α : Type} {f : α → List UInt8} {k : Nat} {l : List α}
    (h : ∀ x ∈ l, k ≤ (f x).length) : k * l.length ≤ (l.flatMap f).length := by
  rw [length_flatMap, Nat.mul_comm]
  simpa using card_nsmul_le_sum (l.map fun x => (f x).length) k (forall_mem_map.mpr h)

/-- A transaction with an input takes more than 36 bytes. -/
theorem length_serializeTx_ge {tx : CTransaction} (h : tx.vin.isEmpty = false) :
    36 ≤ (serializeTx false tx).length := by
  have hin : 36 * tx.vin.length ≤ (tx.vin.flatMap serializeTxIn).length :=
    length_flatMap_ge fun txin _ => by
      rw [serializeTxIn, writeUint256]
      simp
      omega
  have hpos : 0 < tx.vin.length := length_pos_iff.mpr (isEmpty_eq_false_iff.mp h)
  rw [serializeTx, writeVector]
  simp only [length_append]
  omega

/-- What a block that is checked has: a header that is not null, a coinbase, inputs in every
transaction, and not too many of them. -/
theorem checkBlock_bounds (hfresh : block.fChecked = false)
    (hpow : ∀ header : CBlockHeader, isNull header → params.checkProofOfWork header = false)
    (h : checkBlock params true true block = .ok block') :
    isNull block.toCBlockHeader = false ∧ block.vtx ≠ [] ∧ block.vtx.length ≤ 65535 ∧
      ∀ tx ∈ block.vtx, tx.vin.isEmpty = false := by
  obtain ⟨hcommitted, -, hmweb⟩ := checkBlock_eq_ok hfresh h
  obtain ⟨⟨hheader, -, -, hsize, -⟩, htxs⟩ := (checkCommitted_eq_ok_iff ..).mp hcommitted
  have hvin : ∀ tx ∈ block.vtx, tx.vin.isEmpty = false := by
    intro tx htx
    have htx' := htxs tx htx
    have honly : tx.isMWEBOnly = false := by
      rw [CTransaction.isMWEBOnly, hmweb tx htx, Bool.false_and, Bool.false_and]
    rw [checkTransaction, seq_eq_ok_iff, reject_eq_ok_iff, honly] at htx'
    exact htx'.1
  rw [checkSizeLimits, reject_eq_ok_iff, Bool.or_eq_false_iff, Bool.or_eq_false_iff,
    decide_eq_false_iff_not] at hsize
  obtain ⟨⟨hempty, -⟩, hbytes⟩ := hsize
  refine ⟨?_, ?_, ?_, hvin⟩
  · rw [← Bool.not_eq_true]
    intro hnull
    rw [checkBlockHeader, reject_eq_ok_iff, hpow _ hnull] at hheader
    cases hheader
  · exact isEmpty_eq_false_iff.mp hempty
  · have hlen : 36 * block.vtx.length ≤ (block.vtx.flatMap (serializeTx false)).length :=
      length_flatMap_ge fun tx htx => length_serializeTx_ge (hvin tx htx)
    have hblock : (block.vtx.flatMap (serializeTx false)).length ≤
        (serializeBlock false block).length := by
      rw [serializeBlock, writeVector]
      simp only [length_append]
      omega
    have hlimit : (serializeBlock false block).length * 4 ≤ 4000000 :=
      Nat.not_lt.mp (of_decide_eq_false hbytes)
    omega

/-- A block that is accepted is returned with the mark that it was checked. -/
theorem checkBlock_ok_fields (h : checkBlock params true true block = .ok block')
    (fChecked : Bool) :
    { block' with fChecked := fChecked } = { block with fChecked := fChecked } := by
  unfold checkBlock at h
  split_ifs at h with hchecked
  · rw [ok.inj h]
  · rw [seq_eq_ok_iff, seq_eq_ok_iff, seq_eq_ok_iff] at h
    rw [← ok.inj h.2.2.2]

/-- `InitData` returns `READ_STATUS_OK` for well-formed compact blocks only. -/
theorem wellFormed_of_initData {hashing : Hashing} {mweb_block : Option Mweb.Block}
    {pool : List (Uint256 × CTransaction)} {cmpctblock : CBlockHeaderAndShortTxIDs}
    {extra : List (Uint256 × Option CTransaction)} {self : PartiallyDownloadedBlock}
    (h : initData hashing (.new mweb_block) pool cmpctblock extra = .ok (.ok, self)) :
    WellFormed hashing cmpctblock := by
  by_contra hwf
  obtain ⟨r, hne, hr⟩ := initData_of_not_wellFormed hashing mweb_block hwf pool
  rw [hr] at h
  exact hne (congrArg Prod.fst (ok.inj h))

/-! ## When the block comes back -/

/-- The short id that the sender gives to a witness hash. -/
def sentID (hashing : Hashing) (block : CBlock) (nonce : UInt64) (hash : Uint256) : UInt64 :=
  hashing.sipHash block.toCBlockHeader nonce hash &&& 0xffffffffffff

/-- The compact form of a block is read, only transactions in neither pool are missing, and with the
missing ones the block comes back. -/
def RoundTrips (hashing : Hashing) (params : ConsensusParams) (nonce : UInt64) (block : CBlock)
    (pool extra : List (Uint256 × CTransaction)) : Prop :=
  ∃ cmpctblock self, CBlockHeaderAndShortTxIDs.ofBlock hashing nonce block true = some cmpctblock ∧
    initData hashing (.new cmpctblock.mweb_block) pool cmpctblock (refs extra) = .ok (.ok, self) ∧
    (∀ i tx, block.vtx[i]? = some tx → self.isTxAvailable i = false →
      ∀ entry ∈ pool ++ extra, entry.1 ≠ tx.m_witness_hash) ∧
    ∃ filled, fillBlock params self (missing block.vtx self.txn_available) = .ok filled ∧
      { filled with fChecked := block.fChecked } = block

/-- The blocks that come back: `CheckBlock` accepts the block, an integrating transaction is not its
first, no witness hash is there twice, and the first candidate of a transaction carries neither
Mimblewimble data nor the marker of the integrating transaction. -/
structure Restorable (params : ConsensusParams) (block : CBlock)
    (pool extra : List (Uint256 × CTransaction)) : Prop where
  valid : ∃ checked, checkBlock params true true { block with fChecked := false } = .ok checked
  hogEx_not_first : block.mweb_block.isSome → 2 ≤ block.vtx.length
  nodup : ((shortTxs block).map (·.m_witness_hash)).Nodup
  candidates : ∀ tx ∈ shortTxs block, ∀ c, candidateFor pool extra tx = some c →
    c.mweb_tx = none ∧ c.m_hogEx = false

section

variable {hashing : Hashing} {params : ConsensusParams} {nonce : UInt64} {block : CBlock}
  {pool extra : List (Uint256 × CTransaction)}

variable {shortID : Uint256 → UInt64} {self : PartiallyDownloadedBlock}

/-- A candidate without Mimblewimble data and marker is the transaction. -/
theorem Relay.candidate_eq (h : Relay shortID block pool extra) {tx c : CTransaction}
    (htx : tx ∈ block.vtx)
    (hc : candidateFor pool extra tx = some c) (hmweb : tx.mweb_tx = none)
    (hhog : tx.m_hogEx = false)
    (hmweb' : c.mweb_tx = none) (hhog' : c.m_hogEx = false) : c = tx := by
  obtain ⟨entry, hfind, rfl⟩ := Option.map_eq_some_iff.mp hc
  have hmem := mem_of_find?_eq_some hfind
  have hhash : entry.1 = tx.m_witness_hash := by simpa using find?_some hfind
  have hplain := h.covers tx htx entry hmem ((h.listed entry hmem).symm.trans hhash)
  have hself : ∀ t : CTransaction, t.mweb_tx = none → t.m_hogEx = false → plain t = t := by
    rintro ⟨⟩ hm hg
    cases hm
    cases hg
    rfl
  rwa [hself _ hmweb' hhog', hself _ hmweb hhog] at hplain

/-- The integrating transaction is not the first, or its index is not accepted. -/
theorem two_le_of_position {cmpctblock : CBlockHeaderAndShortTxIDs}
    (hsent : ofBlock hashing nonce block true = some cmpctblock)
    (hwf : WellFormed hashing cmpctblock) (hne : block.vtx ≠ []) (hmweb : block.mweb_block.isSome) :
    2 ≤ block.vtx.length := by
  obtain ⟨-, -, hpre, -, -⟩ := ofBlock_fields hsent
  obtain ⟨first, rest, hvtx⟩ := exists_cons_of_ne_nil hne
  by_contra hlt
  obtain rfl : rest = [] := by
    rw [hvtx, length_cons] at hlt
    exact length_eq_zero_iff.mp (by omega)
  have hprefilled : cmpctblock.prefilledtxn = [⟨0, first⟩, ⟨ofNat (1 + 65534), first⟩] := by
    rw [hpre, prefilledOf, if_pos hmweb, hvtx, length_singleton, head?_cons, getLast?_singleton]
    rfl
  have hpos := (hwf.position_le 1 (by rw [hprefilled]; simp)).1
  have hlast : (ofNat (1 + 65534)).toNat = 65535 := by rw [toNat_ofNat']
  rw [hprefilled, prefillPos, take_succ_cons, take_succ_cons, indexSum_cons, indexSum_cons,
    hlast] at hpos
  omega

/-- The short ids of a block whose witness hashes are all different are all different. -/
theorem Relay.nodup_ids (h : Relay shortID block pool extra) :
    ((shortTxs block).map fun tx => shortID tx.m_witness_hash).Nodup ↔
      ((shortTxs block).map (·.m_witness_hash)).Nodup := by
  have hmem : ∀ x ∈ (shortTxs block).map (·.m_witness_hash),
      x ∈ (block.vtx.map (·.m_witness_hash)) ++ (pool ++ extra).map Prod.fst :=
    forall_mem_map.mpr fun tx htx => mem_append_left _
      (mem_map_of_mem (mem_of_mem_tail (mem_of_mem_filter htx)))
  have hids : ((shortTxs block).map fun tx => shortID tx.m_witness_hash) =
      ((shortTxs block).map (·.m_witness_hash)).map shortID := by
    rw [map_map]
    rfl
  rw [hids]
  exact ⟨List.Nodup.of_map _, fun hnodup =>
    hnodup.map_on fun x hx y hy heq => h.collide x (hmem x hx) y (hmem y hy) heq⟩

/-- The compact form of a block that is checked is well formed. -/
theorem wellFormed_ofBlock {checked : CBlock}
    (hpow : ∀ header : CBlockHeader, isNull header → params.checkProofOfWork header = false)
    (hvalid : checkBlock params true true { block with fChecked := false } = .ok checked)
    (hlast : HogExLast block) (htwo : block.mweb_block.isSome → 2 ≤ block.vtx.length)
    {ids : List UInt64}
    (hids : (shortTxs block).map (sentID hashing block nonce ·.m_witness_hash) = ids)
    (hnodup : ids.Nodup)
    (hbucket : ∀ i, ∀ h : i < ids.length, hashing.bucketSize (ids.take (i + 1)) ids[i] ≤ 12) :
    ∃ cmpctblock, ofBlock hashing nonce block true = some cmpctblock ∧
      WellFormed hashing cmpctblock := by
  subst hids
  obtain ⟨hnull, hne, hcount, hvin⟩ := checkBlock_bounds rfl hpow hvalid
  dsimp only at hnull hne hcount hvin
  obtain ⟨first, last, hvtx, hprefilled, hlen⟩ := hlast.split hne htwo
  have hvtxLen : block.vtx.length = 1 + (shortTxs block).length + last.length := by
    rw [hvtx, length_cons, length_append]
    omega
  have hpreLen : (prefilledOf block).length = 1 + last.length := by
    rw [hprefilled, length_cons, length_map]
    omega
  have hfits : (shortTxs block).length + (prefilledOf block).length ≤ 65535 := by omega
  refine ⟨_, dif_pos hfits, ?_⟩
  -- the prefilled transactions are accepted, as their places are known
  rw [hvtx, forall_mem_cons, forall_mem_append] at hvin
  have hends := prefillLoop_ends first last (shortTxs block).length hlen (by omega)
    (forall_mem_cons.mpr ⟨by simp [hvin.1], fun tx htx => by simp [hvin.2.2 tx htx]⟩)
  rw [← hvtxLen, ← hprefilled] at hends
  obtain ⟨hnonnull, hpositions⟩ := (prefillLoop_isOk_start _ _ _).mp ⟨_, hends⟩
  exact
    { header := hnull
      count_pos := by
        show 0 < ((shortTxs block).map _).length + (prefilledOf block).length
        rw [length_map]
        omega
      count_le := by
        show ((shortTxs block).map _).length + (prefilledOf block).length ≤ 100000
        rw [length_map]
        omega
      nonnull := hnonnull
      position_le := by
        intro i hi
        show prefillPos (prefilledOf block) i ≤ 65535 ∧
          prefillPos (prefilledOf block) i ≤ ((shortTxs block).map _).length + i
        rw [length_map]
        exact hpositions i hi
      bucket_le := hbucket
      nodup := hnodup }

/-- A block that `FillBlock` returns is one that `CheckBlock` accepts. -/
theorem checkBlock_of_fillBlock {vtx_missing : List CTransaction} {filled : CBlock}
    (h : fillBlock params self vtx_missing = .ok filled) :
    checkBlock params true true { filled with fChecked := false } = .ok filled := by
  unfold fillBlock at h
  split at h
  · cases h
  · split at h
    · cases h
    · split_ifs at h
      split at h
      · next header _ _ vtx _ _ _ block hcheck =>
        have hfields := checkBlock_ok_fields hcheck false
        rw [← ok.inj h, hfields]
        exact hcheck
      · cases h

/-- `FillBlock` with the missing transactions: `CheckBlock` decides about the block that is put
together from what is available. -/
theorem fillBlock_missing (hheader : self.header = some block.toCBlockHeader)
    (hmweb : self.mweb_block = block.mweb_block)
    (hlen : block.vtx.length = self.txn_available.length) (filled : CBlock) :
    fillBlock params self (missing block.vtx self.txn_available) = .ok filled ↔
      checkBlock params true true
        { block with
          vtx := zipWith (fun tx a => a.getD tx) block.vtx self.txn_available
          fChecked := false } = .ok filled := by
  rw [fillBlock, hheader]
  rw [fillLoop_missing _ _ hlen, hmweb]
  dsimp only
  rw [if_neg (not_not_intro rfl)]
  constructor
  · intro h
    split at h
    · next heq => rw [heq, ok.inj h]
    · cases h
  · intro h
    rw [h]

/-- For a block without Mimblewimble data in its transactions, whose short ids collide only for
equal witness hashes, the compact form brings it back if and only if it is restorable. -/
theorem fillBlock_roundTrip_iff (hlast : HogExLast block)
    (hclean : ∀ tx ∈ block.vtx, tx.mweb_tx = none)
    (hrelay : Relay (sentID hashing block nonce) block pool extra)
    (hbucket : ∀ i, ∀ h : i < ((shortTxs block).map fun tx =>
        sentID hashing block nonce tx.m_witness_hash).length,
      hashing.bucketSize (((shortTxs block).map fun tx =>
        sentID hashing block nonce tx.m_witness_hash).take (i + 1))
        ((shortTxs block).map fun tx => sentID hashing block nonce tx.m_witness_hash)[i] ≤ 12)
    (hpow : ∀ header : CBlockHeader, isNull header → params.checkProofOfWork header = false) :
    RoundTrips hashing params nonce block pool extra ↔ Restorable params block pool extra := by
  have hshort : ∀ tx ∈ shortTxs block, tx ∈ block.vtx ∧ tx.m_hogEx = false := fun tx htx =>
    ⟨mem_of_mem_tail (mem_of_mem_filter htx), by simpa using of_mem_filter htx⟩
  have hsame : ∀ {cmpctblock : CBlockHeaderAndShortTxIDs},
      ofBlock hashing nonce block true = some cmpctblock →
      cmpctblock.getShortID hashing = sentID hashing block nonce := by
    intro cmpctblock hsent
    obtain ⟨hheader, -, -, -, hnonce⟩ := ofBlock_fields hsent
    funext hash
    rw [getShortID, hheader, hnonce, sentID]
  constructor
  · rintro ⟨cmpctblock, self, hsent, hinit, -, filled, hfill, hequal⟩
    have hwf := wellFormed_of_initData hinit
    have hids := hsame hsent
    have hchecked := checkBlock_of_fillBlock hfill
    have hsameBlock : { filled with fChecked := false } = { block with fChecked := false } := by
      rw [← hequal]
    rw [hsameBlock] at hchecked
    obtain ⟨-, hne, -, -⟩ := checkBlock_bounds rfl hpow hchecked
    have htwo := two_le_of_position hsent hwf hne
    obtain ⟨self', hinit', hheader, hmweb, first, last, hvtx, havail⟩ :=
      initData_available hsent hlast hne htwo (by rw [hids]; exact hrelay) hwf cmpctblock.mweb_block
    obtain rfl : self = self' := congrArg Prod.snd (ok.inj (hinit.symm.trans hinit'))
    have hlen : block.vtx.length = self.txn_available.length := by
      rw [havail, hvtx]
      simp
    -- the block that was put together is the original one, so every candidate is the transaction
    have hrestored : zipWith (fun tx a => a.getD tx) block.vtx self.txn_available = block.vtx := by
      have hfields := checkBlock_ok_fields
        ((fillBlock_missing hheader hmweb hlen filled).mp hfill) false
      rw [hsameBlock] at hfields
      exact (congrArg CBlock.vtx hfields).symm
    rw [havail, zipWith_available hvtx] at hrestored
    refine ⟨⟨filled, hchecked⟩, htwo, ?_, ?_⟩
    · have hnodup := hwf.nodup
      rw [(ofBlock_fields hsent).2.1, hids] at hnodup
      exact hrelay.nodup_ids.mp hnodup
    · intro tx htx c hc
      have hctx := hrestored tx htx
      rw [hc, Option.getD_some] at hctx
      rw [hctx]
      exact ⟨hclean tx (hshort tx htx).1, (hshort tx htx).2⟩
  · intro h
    obtain ⟨checked, hvalid⟩ := h.valid
    obtain ⟨-, hne, -, -⟩ := checkBlock_bounds rfl hpow hvalid
    obtain ⟨cmpctblock, hsent, hwf⟩ := wellFormed_ofBlock hpow hvalid hlast h.hogEx_not_first rfl
      (hrelay.nodup_ids.mpr h.nodup) hbucket
    have hids := hsame hsent
    obtain ⟨self, hinit, hheader, hmweb, first, last, hvtx, havail⟩ :=
      initData_available hsent hlast hne
      h.hogEx_not_first (by rw [hids]; exact hrelay) hwf cmpctblock.mweb_block
    have hlen : block.vtx.length = self.txn_available.length := by
      rw [havail, hvtx]
      simp
    have hrestored : zipWith (fun tx a => a.getD tx) block.vtx self.txn_available = block.vtx := by
      rw [havail, zipWith_available hvtx]
      intro tx htx
      cases hc : candidateFor pool extra tx with
      | none => rfl
      | some c =>
        obtain ⟨hmem, hhog⟩ := hshort tx htx
        obtain ⟨hcmweb, hchog⟩ := h.candidates tx htx c hc
        exact hrelay.candidate_eq hmem hc (hclean tx hmem) hhog hcmweb hchog
    refine ⟨cmpctblock, self, hsent, hinit, ?_, checked, ?_, ?_⟩
    · intro i tx hi hmissing entry hentry heq
      rw [PartiallyDownloadedBlock.isTxAvailable, hheader, Option.isSome_some, Bool.true_and,
        Option.isSome_eq_false_iff, Option.isNone_iff_eq_none, havail] at hmissing
      have hnone := candidate_none_of_missing hvtx _ hi hmissing
      rw [candidateFor, Option.map_eq_none_iff, find?_eq_none] at hnone
      exact hnone entry hentry (by simpa using heq)
    · rw [fillBlock_missing hheader hmweb hlen, hrestored]
      exact hvalid
    · exact checkBlock_ok_fields hvalid block.fChecked

end

/-- Parameters under which every header that is not null has proof of work. -/
def relayParams : ConsensusParams := { sampleParams with checkProofOfWork := fun h => h.nBits != 0 }

/-- A block of a coinbase and a transaction. -/
def relayedBlock : CBlock :=
  { coinbaseBlock none with
    hashMerkleRoot := 13
    nBits := 1
    vtx := (coinbaseBlock none).vtx ++ [plainTx 7] }

/-- The memory pool has the transaction of the block, with what may be attached to it. -/
def poolWith (mweb_tx : Option Mweb.Transaction) : List (Uint256 × CTransaction) :=
  [(7, { plainTx 7 with mweb_tx := mweb_tx })]

theorem hogExLast_relayedBlock : HogExLast relayedBlock where
  last h := by cases h
  only i hi h := by
    have hnone : ∀ tx ∈ relayedBlock.vtx, tx.m_hogEx = false := by decide
    rw [hnone _ (getElem_mem hi)] at h
    cases h

theorem relay_relayedBlock (mweb_tx : Option Mweb.Transaction) :
    Relay (sentID smallHashing relayedBlock 0) relayedBlock (poolWith mweb_tx) [] where
  listed entry h := by
    obtain rfl := mem_singleton.mp h
    rfl
  pool_nodup := nodup_singleton _
  covers tx htx entry h heq := by
    obtain rfl := mem_singleton.mp h
    rcases mem_cons.mp htx with rfl | htx
    · exact absurd (show (7 : Uint256) = 6 from heq) (by decide)
    · obtain rfl := mem_singleton.mp htx
      rfl
  collide := by
    show ∀ x ∈ ([6, 7, 7] : List Uint256), ∀ y ∈ ([6, 7, 7] : List Uint256),
      sentID smallHashing relayedBlock 0 x = sentID smallHashing relayedBlock 0 y → x = y
    have hsix : sentID smallHashing relayedBlock 0 6#256 = 6 := by decide +kernel
    have hseven : sentID smallHashing relayedBlock 0 7#256 = 0 := by decide +kernel
    simp [hsix, hseven]

theorem isNull_relayParams (header : CBlockHeader) (h : isNull header) :
    relayParams.checkProofOfWork header = false := by
  have hbits : header.nBits = 0 := by simpa [isNull] using h
  show (header.nBits != 0) = false
  rw [hbits]
  rfl

/-- A transaction that the memory pool has as the block has it. -/
theorem fillBlock_roundTrip_iff_relayedBlock :
    RoundTrips smallHashing relayParams 0 relayedBlock (poolWith none) [] := by
  refine (fillBlock_roundTrip_iff hogExLast_relayedBlock (by decide) (relay_relayedBlock none)
    (fun _ _ => (by decide : 1 ≤ 12)) isNull_relayParams).mpr
    { valid := ⟨{ relayedBlock with fChecked := true }, by decide +kernel⟩
      hogEx_not_first := by decide
      nodup := by decide
      candidates := by decide +kernel }

/-- A transaction that the memory pool has with Mimblewimble data: it is taken for the one of the
block, and the block is refused as mutated. -/
theorem fillBlock_takes_attached :
    HogExLast relayedBlock ∧ (∀ tx ∈ relayedBlock.vtx, tx.mweb_tx = none) ∧
      Relay (sentID smallHashing relayedBlock 0) relayedBlock (poolWith (some (pegoutTx []))) [] ∧
      (∃ cmpctblock self,
        CBlockHeaderAndShortTxIDs.ofBlock smallHashing 0 relayedBlock true = some cmpctblock ∧
        initData smallHashing (.new cmpctblock.mweb_block)
          (poolWith (some (pegoutTx []))) cmpctblock (refs []) = .ok (.ok, self) ∧
        fillBlock relayParams self (missing relayedBlock.vtx self.txn_available) = .error .failed) ∧
      ¬ RoundTrips smallHashing relayParams 0 relayedBlock (poolWith (some (pegoutTx []))) [] := by
  refine ⟨hogExLast_relayedBlock, by decide, relay_relayedBlock _, (and_iff_left_of_imp ?_).mpr ?_⟩
  · rintro ⟨cmpctblock', self', hsent', hinit', hfailed⟩
      ⟨cmpctblock, self, hsent, hinit, -, filled, hfill, -⟩
    obtain rfl : cmpctblock = cmpctblock' := Option.some.inj (hsent.symm.trans hsent')
    obtain rfl : self = self' := congrArg Prod.snd (ok.inj (hinit.symm.trans hinit'))
    rw [hfailed] at hfill
    cases hfill
  · refine ⟨_, _, rfl, rfl, ?_⟩
    decide +kernel

end DefcoinCore.BlockEncodings
