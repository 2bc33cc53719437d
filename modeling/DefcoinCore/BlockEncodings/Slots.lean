import DefcoinCore.BlockEncodings.RoundTrip

/-!
# What InitData makes of a compact block

A slot is prefilled, or it belongs to a short id: the sender numbers the slots that are not
prefilled in their order. `initData_slots` says for every compact block that `InitData` stays inside
its arrays, what each slot holds when it returns `READ_STATUS_OK`, what its counters count, and when
`FillBlock` takes the transactions it is given for too many or too few.
-/

namespace DefcoinCore.BlockEncodings

open List CBlockHeaderAndShortTxIDs

variable (cmpctblock : CBlockHeaderAndShortTxIDs)

/-- The slots that are prefilled. -/
def prefilledSlots : List Nat :=
  (range cmpctblock.prefilledtxn.length).map (prefillPos cmpctblock.prefilledtxn)

/-- The short id that the sender placed at a slot that is not prefilled. -/
def sentAt (pos : Nat) : Option UInt64 :=
  cmpctblock.shorttxids[(range pos).countP fun j => j ∉ prefilledSlots cmpctblock]?

/-! ## The positions that are accessed -/

/-- The positions at which the loop over the prefilled transactions writes: it comes to the `i`-th
write when the first `i + 1` transactions do not end it. -/
def prefillWrites : List Nat :=
  ((range cmpctblock.prefilledtxn.length).filter fun i =>
    (prefillLoop cmpctblock.shorttxids.length (cmpctblock.prefilledtxn.take (i + 1)) 0 (-1)
      (replicate cmpctblock.blockTxCount none)).isOk).map (prefillPos cmpctblock.prefilledtxn)

/-- The positions that the loop over `n` short ids reads, if no bucket ends it before: from `pos`
on, each `while` reads up to the first position that is free. -/
def placeReads (txn_available : List (Option CTransaction)) : Nat → Nat → List Nat
  | 0, _ => []
  | n + 1, pos =>
    let free := skipFilled txn_available txn_available.length pos
    range' pos (free + 1 - pos) ++ placeReads txn_available n (free + 1)

/-- The positions of `txn_available` and of `have_txn` that `InitData` reads or writes on a new
object. The search accesses the positions of short ids only. -/
def accesses (hashing : Hashing) : List Nat :=
  prefillWrites cmpctblock ++
    match prefill cmpctblock with
    | .error _ => []
    | .ok txn_available =>
      placeReads txn_available cmpctblock.shorttxids.length 0 ++
        ((placeLoop hashing txn_available cmpctblock.shorttxids [] 0 ∅).elim [] fun shorttxids =>
          shorttxids.toList.map Prod.snd)

/-- While enough positions are free, the loop stays inside. -/
theorem placeReads_lt {l : List (Option CTransaction)} (n : Nat) :
    ∀ pos, freeCount (l.take pos) + n ≤ freeCount l → ∀ p ∈ placeReads l n pos, p < l.length := by
  induction n with
  | zero => exact fun pos _ p hp => absurd hp not_mem_nil
  | succ n ih =>
    intro pos hfree p hp
    obtain ⟨hlt, hnone, hcount⟩ := skipFilled_spec l l.length pos (by omega) (by omega)
    rcases mem_append.mp hp with hp | hp
    · rw [mem_range'_1] at hp
      omega
    · refine ih _ ?_ p hp
      rw [freeCount_take_succ hlt, hnone, hcount]
      simp
      omega

theorem accesses_lt (hashing : Hashing) :
    ∀ pos ∈ accesses cmpctblock hashing, pos < cmpctblock.blockTxCount := by
  intro pos hpos
  rcases mem_append.mp hpos with hpos | hpos
  · obtain ⟨i, hi, rfl⟩ := mem_map.mp hpos
    obtain ⟨hi, hok⟩ := mem_filter.mp hi
    rw [mem_range] at hi
    cases hrun : prefillLoop cmpctblock.shorttxids.length
      (cmpctblock.prefilledtxn.take (i + 1)) 0 (-1) (replicate cmpctblock.blockTxCount none) with
    | error l => rw [hrun] at hok; cases hok
    | ok l =>
      have hle := (((prefillLoop_isOk_start ..).mp ⟨l, hrun⟩).2 i (by rw [length_take]; omega)).2
      rw [prefillPos, take_take, Nat.min_self, ← prefillPos] at hle
      rw [blockTxCount]
      omega
  · cases hprefill : prefill cmpctblock with
    | error l => rw [hprefill] at hpos; cases hpos
    | ok l =>
      rw [hprefill] at hpos
      obtain ⟨hlen, hfree, -⟩ := prefillLoop_new hprefill
      rw [← hlen]
      rcases mem_append.mp hpos with hpos | hpos
      · exact placeReads_lt _ 0 (by rw [hfree, take_zero]; simp [freeCount]) pos hpos
      · cases hplace : placeLoop hashing l cmpctblock.shorttxids [] 0 ∅ with
        | none => rw [hplace] at hpos; cases hpos
        | some m =>
          rw [hplace] at hpos
          obtain ⟨⟨id, p⟩, hmem, rfl⟩ := mem_map.mp hpos
          obtain ⟨_, hplaced⟩ := placed_of_loops hashing hprefill hplace
          exact hplaced.lt (Std.ExtTreeMap.mem_toList_iff_getElem?_eq_some.mp hmem)

/-! ## What the slots hold -/

/-- The free positions of a first part, counted one by one. -/
theorem freeCount_take {l : List (Option CTransaction)} {n : Nat} (h : n ≤ l.length) :
    freeCount (l.take n) = (range n).countP fun j => (l.getD j none).isNone := by
  induction n with
  | zero => simp [freeCount]
  | succ n ih =>
    rw [freeCount_take_succ h, ih (by omega), range_succ, countP_append, countP_singleton]
    cases (l.getD n none).isNone <;> rfl

/-- A slot is filled with a candidate of its short id. -/
theorem mem_of_slotOf {shortID : Uint256 → UInt64} {pool extra : List (Uint256 × CTransaction)}
    {id : UInt64} {tx : CTransaction} (h : (slotOf shortID pool extra id).tx? = some tx) :
    ∃ entry ∈ pool ++ extra, entry.2 = tx ∧ shortID entry.1 = id := by
  suffices hmem : tx ∈ matching shortID pool id ++ matching shortID extra id by
    rw [← matching_append] at hmem
    obtain ⟨entry, hentry, rfl⟩ := mem_map.mp hmem
    obtain ⟨hentry, hid⟩ := mem_filter.mp hentry
    exact ⟨entry, hentry, rfl, of_decide_eq_true hid⟩
  revert h
  refine foldlRecOn (motive := fun slot : Slot => slot.tx? = some tx → tx ∈ _) _ _
    (foldlRecOn (motive := fun slot : Slot => slot.tx? = some tx → tx ∈ _) _ _ nofun ?_) ?_
  · rintro (_ | _ | _) - c hc htx
    · exact mem_append_left _ (Option.some.inj htx ▸ hc)
    · cases htx
    · cases htx
  · rintro (_ | taken | _) hslot c hc htx
    · exact mem_append_right _ (Option.some.inj htx ▸ hc)
    · rw [Slot.extraHit] at htx
      split_ifs at htx
      · cases htx
      · exact hslot htx
    · cases htx

theorem mem_of_runUntil {α : Type} {stop : List α → Bool} {l : List α} {x : α}
    (h : x ∈ runUntil stop [] l) : x ∈ l := by
  obtain ⟨k, hk, -⟩ := runUntil_eq stop l []
  rw [hk, nil_append] at h
  exact mem_of_mem_take h

/-- The loop of `FillBlock` takes a missing transaction for every free slot. -/
theorem fillLoop_spec (l : List (Option CTransaction)) (vtx_missing : List CTransaction) :
    (fillLoop l vtx_missing).elim (vtx_missing.length < freeCount l) fun r =>
      r.2.length + freeCount l = vtx_missing.length := by
  fun_induction fillLoop l vtx_missing with
  | case1 => rfl
  | case2 tx l vtx_missing ih =>
    cases hrest : fillLoop l vtx_missing <;> rw [hrest] at ih <;> exact ih
  | case3 => simp [freeCount]
  | case4 l tx vtx_missing ih =>
    rw [freeCount, countP_cons_of_pos rfl, ← freeCount, length_cons]
    cases hrest : fillLoop l vtx_missing with
    | none => rw [hrest] at ih; exact Nat.succ_lt_succ ih
    | some r => rw [hrest] at ih; exact congrArg Nat.succ ih

/-- `FillBlock` takes the missing transactions for invalid when their number is wrong, and in no
other case. -/
theorem fillBlock_invalid_iff {params : ConsensusParams} {self : PartiallyDownloadedBlock}
    (hheader : self.header.isSome) (vtx_missing : List CTransaction) :
    fillBlock params self vtx_missing = .error .invalid ↔
      vtx_missing.length ≠ freeCount self.txn_available := by
  obtain ⟨header, hheader⟩ := Option.isSome_iff_exists.mp hheader
  have hloop := fillLoop_spec self.txn_available vtx_missing
  rw [fillBlock, hheader]
  cases hfill : fillLoop self.txn_available vtx_missing with
  | none =>
    rw [hfill] at hloop
    exact iff_of_true rfl (Nat.ne_of_lt hloop)
  | some r =>
    obtain ⟨vtx, left⟩ := r
    rw [hfill] at hloop
    change left.length + _ = _ at hloop
    dsimp only
    split_ifs with hleft
    · refine iff_of_true rfl ?_
      have := length_pos_iff.mpr hleft
      omega
    · rw [not_not] at hleft
      rw [hleft, length_nil, Nat.zero_add] at hloop
      refine iff_of_false ?_ (not_not_intro hloop.symm)
      split
      · exact fun h => by cases h
      · split_ifs <;> exact fun h => by cases h

/-- What is true after `InitData` returned `READ_STATUS_OK`. -/
structure Initialised (hashing : Hashing) (params : ConsensusParams)
    (candidates : List (Uint256 × CTransaction)) (self : PartiallyDownloadedBlock) : Prop where
  length_available : self.txn_available.length = cmpctblock.blockTxCount
  prefilled : ∀ i p, cmpctblock.prefilledtxn[i]? = some p →
    self.txn_available.getD (prefillPos cmpctblock.prefilledtxn i) none = some p.tx
  /-- Any other slot that is filled holds a candidate with the short id that the sender placed
  there. -/
  found : ∀ pos tx, pos ∉ prefilledSlots cmpctblock → self.txn_available.getD pos none = some tx →
    ∃ entry ∈ candidates, entry.2 = tx ∧
      sentAt cmpctblock pos = some (cmpctblock.getShortID hashing entry.1)
  prefilled_count : self.prefilled_count =
    (range cmpctblock.blockTxCount).countP fun pos => pos ∈ prefilledSlots cmpctblock
  mempool_count : self.mempool_count = (range cmpctblock.blockTxCount).countP fun pos =>
    pos ∉ prefilledSlots cmpctblock ∧ (self.txn_available.getD pos none).isSome
  /-- `FillBlock` wants a transaction for every slot that is not filled. -/
  fillBlock_invalid_iff : ∀ vtx_missing, fillBlock params self vtx_missing = .error .invalid ↔
    vtx_missing.length ≠ freeCount self.txn_available

/-- `InitData` on a new object stays inside its arrays and returns; with `READ_STATUS_OK`, the slots
and the counters are as they should be. -/
theorem initData_slots (hashing : Hashing) (params : ConsensusParams)
    (mweb_block : Option Mweb.Block) (vTxHashes extra : List (Uint256 × CTransaction)) :
    (∀ pos ∈ accesses cmpctblock hashing, pos < cmpctblock.blockTxCount) ∧
      ∃ status self,
        initData hashing (.new mweb_block) vTxHashes cmpctblock (refs extra) = .ok (status, self) ∧
        (status = .ok → Initialised cmpctblock hashing params (vTxHashes ++ extra) self) := by
  obtain ⟨⟨status, self⟩, hinit⟩ := initData_refs hashing mweb_block cmpctblock vTxHashes extra
  refine ⟨accesses_lt cmpctblock hashing, status, self, hinit, ?_⟩
  rintro rfl
  obtain ⟨base, m, s, hprefill, hl, hsim, heq⟩ :=
    initData_eq hashing mweb_block (wellFormed_of_initData hinit) vTxHashes
  obtain ⟨s', hs', hsim'⟩ := (extraScan_sim hl _ extra [] s hsim).exists_ok
  rw [heq, hs'] at hinit
  obtain rfl : (filledBlock cmpctblock base).endScan s' = self :=
    congrArg Prod.snd (Except.ok.inj hinit)
  obtain ⟨hlen, hfree, hplaces⟩ := prefillLoop_new hprefill
  have hlength : s'.txn_available.length = cmpctblock.blockTxCount :=
    hsim'.length_available.trans hlen
  -- the slots that are not prefilled are the free positions
  have hslots : ∀ j, (base.getD j none).isNone ↔ j ∉ prefilledSlots cmpctblock := by
    intro j
    rw [← not_iff_not, not_not, Option.isNone_iff_eq_none, ← Ne, Option.ne_none_iff_exists',
      prefilledSlots,
      mem_map]
    constructor
    · rintro ⟨tx, htx⟩
      obtain ⟨k, p, hk, rfl, -⟩ := (hplaces j tx).mp htx
      exact ⟨k, mem_range.mpr (List.getElem?_eq_some_iff.mp hk).1, rfl⟩
    · rintro ⟨k, hk, rfl⟩
      exact ⟨_, (hplaces _ _).mpr ⟨k, _, getElem?_eq_getElem (mem_range.mp hk), rfl, rfl⟩⟩
  have hcountFree : ∀ n ≤ cmpctblock.blockTxCount,
      (range n).countP (fun j => decide (j ∉ prefilledSlots cmpctblock)) =
        freeCount (base.take n) := by
    intro n hn
    rw [freeCount_take (hlen ▸ hn)]
    exact countP_congr fun j _ => by rw [hslots, decide_eq_true_eq]
  have hshort := hcountFree _ le_rfl
  rw [take_of_length_le hlen.le, hfree] at hshort
  have hother : ∀ {pos tx}, base.getD pos none = some tx →
      s'.txn_available.getD pos none = some tx := by
    intro pos tx hbase
    rw [← hbase]
    refine hsim'.other_eq pos fun id hid => ?_
    rw [hl.free hid] at hbase
    cases hbase
  exact
    { length_available := hlength
      prefilled := fun i p hp => hother ((hplaces _ _).mpr ⟨i, p, hp, rfl, rfl⟩)
      found := fun pos tx hpos htx => by
        by_cases hid : ∃ id : UInt64, m[id]? = some pos
        · obtain ⟨id, hid⟩ := hid
          obtain ⟨entry, hentry, htx, hentryID⟩ :=
            mem_of_slotOf ((hsim'.available_eq hid).symm.trans htx)
          refine ⟨entry, ?_, htx, ?_⟩
          · exact mem_append.mpr ((mem_append.mp hentry).imp mem_of_runUntil mem_of_runUntil)
          · rw [sentAt, hcountFree pos (hlen ▸ (hl.lt_length hid).le), hl.slot hid, hentryID]
        · have hbase := (hsim'.other_eq pos fun id h => hid ⟨id, h⟩).symm.trans htx
          rw [← hslots, hbase] at hpos
          cases hpos
      prefilled_count := by
        have hsplit := length_eq_countP_add_countP
          (fun pos => decide (pos ∈ prefilledSlots cmpctblock)) (l := range cmpctblock.blockTxCount)
        simp only [decide_eq_true_eq] at hsplit
        rw [length_range, hshort, blockTxCount] at hsplit
        show cmpctblock.prefilledtxn.length = _
        rw [blockTxCount]
        omega
      mempool_count := by
        have hempty : ∀ pos, (s'.txn_available.getD pos none).isNone ↔
            (decide (pos ∉ prefilledSlots cmpctblock) &&
              !(s'.txn_available.getD pos none).isSome) := by
          intro pos
          rw [← Option.not_isSome, Bool.and_eq_true, decide_eq_true_eq, ← hslots]
          refine ⟨fun h => ⟨?_, h⟩, And.right⟩
          cases hbase : base.getD pos none with
          | none => rfl
          | some tx => rw [hother hbase] at h; cases h
        have hcount := hsim'.free_eq
        rw [hfree, ← hshort, ← take_of_length_le hlength.le, freeCount_take hlength.ge,
          countP_eq_countP_filter_add _ (fun j => decide (j ∉ prefilledSlots cmpctblock))
            fun pos => (s'.txn_available.getD pos none).isSome,
          countP_filter, countP_filter, ← countP_congr fun pos _ => hempty pos, Nat.add_comm,
          Nat.add_right_cancel_iff] at hcount
        simp only [Bool.decide_and, Bool.decide_eq_true]
        exact hcount
      fillBlock_invalid_iff := fillBlock_invalid_iff rfl }

end DefcoinCore.BlockEncodings
