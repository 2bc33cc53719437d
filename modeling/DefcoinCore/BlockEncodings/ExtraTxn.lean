import DefcoinCore.BlockEncodings.PartialBlock

/-!
# The ring of extra transactions

`AddToCompactExtraTransactions` of `net_processing.cpp` keeps the last transactions that did not
make it into the memory pool in a ring, which `InitData` searches. Until the ring has been filled
once, its last entries are a zero hash and a null pointer, and the search looks at them as at any
other entry. An entry whose short id is that of a transaction of the block then counts as a
candidate: the counters say that it was found, or, when the slot holds a transaction, the null
pointer is dereferenced. `initData_untouched_iff` says when the entries have no effect.
-/

namespace DefcoinCore.BlockEncodings

open List Nat PartiallyDownloadedBlock

/-! ## The ring -/

/-- `vExtraTxnForCompact` and `vExtraTxnForCompactIt`. -/
structure ExtraRing where
  vExtraTxnForCompact : List (Uint256 × Option CTransaction)
  vExtraTxnForCompactIt : Nat
deriving DecidableEq

/-- The ring before the first transaction. -/
def ExtraRing.initial : ExtraRing := ⟨[], 0⟩

/-- `AddToCompactExtraTransactions`, with `max_extra_txn` from the options. -/
def addToCompactExtraTransactions (max_extra_txn : Nat) (ring : ExtraRing) (tx : CTransaction) :
    ExtraRing :=
  if max_extra_txn = 0 then ring
  else
    let v := if ring.vExtraTxnForCompact.isEmpty then List.replicate max_extra_txn (0, none)
      else ring.vExtraTxnForCompact
    ⟨v.set ring.vExtraTxnForCompactIt (tx.m_witness_hash, some tx),
      (ring.vExtraTxnForCompactIt + 1) % max_extra_txn⟩

/-- The ring after the given transactions. -/
def ringOf (max_extra_txn : Nat) (txs : List CTransaction) : ExtraRing :=
  txs.foldl (addToCompactExtraTransactions max_extra_txn) .initial

/-- The entries that were written. -/
def touched (extra_txn : List (Uint256 × Option CTransaction)) :
    List (Uint256 × Option CTransaction) :=
  extra_txn.filter (·.2.isSome)

/-- Transactions with their hashes, as candidates. -/
def candidates (txs : List CTransaction) : List (Uint256 × CTransaction) :=
  txs.map fun tx => (tx.m_witness_hash, tx)

theorem touched_refs (l : List (Uint256 × CTransaction)) : touched (refs l) = refs l := by
  rw [touched, filter_eq_self]
  exact forall_mem_map.mpr fun _ _ => rfl

theorem touched_append_replicate (l : List (Uint256 × CTransaction)) (n : Nat) :
    touched (refs l ++ replicate n (0, none)) = refs l := by
  have hnull : touched (replicate n (0, none)) = [] := by
    rw [touched, filter_eq_nil_iff]
    intro entry hentry
    rw [(mem_replicate.mp hentry).2]
    simp
  rw [touched, filter_append, ← touched, ← touched, hnull, touched_refs, append_nil]

/-- Until it has been filled, the ring holds the transactions in their order and then untouched
entries; afterwards no entry is untouched. -/
def RingHolds (max_extra_txn : Nat) (txs : List CTransaction) (ring : ExtraRing) : Prop :=
  (txs.length < max_extra_txn ∧ ring = ⟨if txs.isEmpty then [] else
    refs (candidates txs) ++ List.replicate (max_extra_txn - txs.length) (0, none), txs.length⟩) ∨
  (max_extra_txn ≤ txs.length ∧ ring.vExtraTxnForCompactIt < max_extra_txn ∧
    ∃ l : List (Uint256 × CTransaction), l.length = max_extra_txn ∧
      ring.vExtraTxnForCompact = refs l)

theorem RingHolds.add {max_extra_txn : Nat} (hmax : 0 < max_extra_txn) {txs : List CTransaction}
    {ring : ExtraRing} (h : RingHolds max_extra_txn txs ring) (tx : CTransaction) :
    RingHolds max_extra_txn (txs ++ [tx])
      (addToCompactExtraTransactions max_extra_txn ring tx) := by
  have hlength : (txs ++ [tx]).length = txs.length + 1 := length_append
  rw [RingHolds, hlength, addToCompactExtraTransactions, if_neg hmax.ne']
  rcases h with ⟨hlt, rfl⟩ | ⟨hge, hit, l, hl, hring⟩
  · -- the next untouched entry is written
    obtain ⟨k, hk⟩ : ∃ k, max_extra_txn - txs.length = k + 1 := exists_eq_add_one.mpr (by omega)
    generalize hring : (if txs.isEmpty then [] else refs (candidates txs) ++ replicate _ _) = v
    have hv : (if v.isEmpty then replicate max_extra_txn (0, none) else v) =
        refs (candidates txs) ++ replicate (k + 1) (0, none) := by
      rw [← hring, ← hk]
      cases txs <;> rfl
    have hset : (refs (candidates txs) ++ replicate (k + 1) (0, none)).set txs.length
        (tx.m_witness_hash, some tx) = refs (candidates (txs ++ [tx])) ++
          replicate k (0, none) := by
      have hlen : (refs (candidates txs)).length = txs.length := by simp [refs, candidates]
      rw [set_append_right _ _ hlen.le, hlen, Nat.sub_self, replicate_succ, set_cons_zero]
      simp [refs, candidates]
    dsimp only
    rw [hv, hset]
    rcases lt_or_ge (txs.length + 1) max_extra_txn with hlt' | hge
    · left
      rw [mod_eq_of_lt hlt', show max_extra_txn - (txs.length + 1) = k by omega, if_neg (by simp)]
      exact ⟨hlt', rfl⟩
    · right
      obtain rfl : k = 0 := by omega
      refine ⟨hge, mod_lt _ hmax, candidates (txs ++ [tx]), ?_, by simp⟩
      rw [candidates, length_map]
      omega
  · right
    refine ⟨by omega, mod_lt _ hmax, l.set ring.vExtraTxnForCompactIt (tx.m_witness_hash, tx),
      by rw [length_set, hl], ?_⟩
    rw [hring, if_neg (by rw [refs, isEmpty_map, isEmpty_iff_length_eq_zero]; omega), refs,
      refs, map_set]

theorem ringOf_holds {max_extra_txn : Nat} (hmax : 0 < max_extra_txn) (txs : List CTransaction) :
    RingHolds max_extra_txn txs (ringOf max_extra_txn txs) := by
  -- the induction is on the calls, the last one first
  induction txs using reverseRecOn with
  | nil => exact .inl ⟨hmax, rfl⟩
  | append_singleton txs tx ih =>
    rw [ringOf, foldl_append]
    exact ih.add hmax tx

/-! ## Untouched entries in the search -/

section Untouched

variable {base : List (Option CTransaction)} {ids : List UInt64} {m : StdMap UInt64 Nat}
  {f : UInt64 → Slot} {s : Scan} {shortID : Uint256 → UInt64}

/-- Untouched entries are never uncounted. -/
theorem le_count_of_untouched {s' : Scan} (n : Nat) :
    ∀ s, extraScan shortID m (replicate n (0, none)) s = .ok s' →
      s.mempool_count ≤ s'.mempool_count := by
  induction n with
  | zero => rintro s ⟨⟩; exact le_rfl
  | succ n ih =>
    intro s h
    obtain ⟨s1, hs1, h⟩ := bind_eq_ok_iff.mp h
    have hle : s.mempool_count ≤ s1.mempool_count := by
      rw [extraStep] at hs1
      split at hs1
      · cases hs1
        exact le_rfl
      · split_ifs at hs1
        · cases hs1
          exact le_succ _
        · cases hold : s.txn_available.getD _ none <;> rw [hold] at hs1 <;> cases hs1
          exact le_rfl
    split_ifs at h
    · cases h
      exact hle
    · exact hle.trans (ih s1 h)

/-- Untouched entries that do nothing once do nothing. -/
theorem extraScan_replicate_of_noop (hstep : extraStep shortID m (0, none) s = .ok s) (n : Nat) :
    extraScan shortID m (replicate n (0, none)) s = .ok s := by
  induction n with
  | zero => rfl
  | succ n ih =>
    rw [replicate_succ, extraScan, hstep, ok_bind, ih]
    split_ifs <;> rfl

/-- What untouched entries do to the search, by the slot of the short id of the zero hash: nothing,
when it is no short id of the block or the slot was given up; an empty slot is counted as found, and
for a filled one a null pointer is dereferenced. -/
theorem extraScan_untouched_iff (hl : Layout base ids m) (h : Sim base ids m f s) (n : Nat) :
    (∃ s', extraScan shortID m (replicate (n + 1) (0, none)) s = .ok s' ∧
      s'.txn_available = s.txn_available ∧ s'.mempool_count = s.mempool_count ∧
      s'.extra_count = s.extra_count) ↔
      shortID 0 ∉ ids ∨ f (shortID 0) = .givenUp := by
  cases hid : m[shortID 0]? with
  | none =>
    have hnot : shortID 0 ∉ ids := fun hmem => by
      obtain ⟨pos, hpos⟩ := (hl.mem_iff _).mp hmem
      rw [hid] at hpos
      cases hpos
    refine iff_of_true ⟨s, extraScan_replicate_of_noop ?_ _, rfl, rfl, rfl⟩ (.inl hnot)
    rw [extraStep, hid]
  | some pos =>
    have hmem : shortID 0 ∈ ids := (hl.mem_iff _).mpr ⟨pos, hid⟩
    have hhave := h.have_eq hid
    have havailable := h.available_eq hid
    rw [or_iff_right (not_not_intro hmem)]
    cases hf : f (shortID 0) with
    | empty =>
      rw [hf] at hhave
      refine iff_of_false ?_ (fun h => by cases h)
      rintro ⟨s', hrun, -, hcount, -⟩
      -- the first entry is counted
      rw [replicate_succ, extraScan, extraStep, hid] at hrun
      dsimp only at hrun
      rw [hhave, Slot.seen, if_pos rfl, ok_bind] at hrun
      split_ifs at hrun
      · rw [← Except.ok.inj hrun] at hcount
        exact succ_ne_self _ hcount
      · have := le_count_of_untouched n _ hrun
        dsimp only at this
        omega
    | filled tx =>
      rw [hf] at hhave havailable
      refine iff_of_false ?_ (fun h => by cases h)
      have hfault : extraStep shortID m (0, none) s = .error .nullDereference := by
        rw [extraStep, hid]
        dsimp only
        rw [hhave, havailable]
        rfl
      rw [replicate_succ, extraScan, hfault]
      rintro ⟨s', heq, -⟩
      cases heq
    | givenUp =>
      rw [hf] at hhave havailable
      refine iff_of_true ⟨s, extraScan_replicate_of_noop ?_ _, rfl, rfl, rfl⟩ rfl
      rw [extraStep, hid]
      dsimp only
      rw [hhave, havailable]
      rfl

end Untouched

variable (hashing : Hashing)

/-- The entries of the memory pool that are looked at: up to the one with which every slot is
filled. -/
def searchedPool (cmpctblock : CBlockHeaderAndShortTxIDs)
    (vTxHashes : List (Uint256 × CTransaction)) : List (Uint256 × CTransaction) :=
  runUntil (fun pool => allFilled cmpctblock.shorttxids
    (slotOf (cmpctblock.getShortID hashing) pool [])) [] vTxHashes

/-- The search for a well-formed compact block, after the memory pool. -/
theorem initData_eq (mweb_block : Option Mweb.Block) {cmpctblock : CBlockHeaderAndShortTxIDs}
    (h : WellFormed hashing cmpctblock) (vTxHashes : List (Uint256 × CTransaction)) :
    ∃ l m s, prefill cmpctblock = .ok l ∧ Layout l cmpctblock.shorttxids m ∧
      Sim l cmpctblock.shorttxids m
        (slotOf (cmpctblock.getShortID hashing) (searchedPool hashing cmpctblock vTxHashes) []) s ∧
      ∀ extra_txn, initData hashing (.new mweb_block) vTxHashes cmpctblock extra_txn =
        (extraScan (cmpctblock.getShortID hashing) m extra_txn s).map
          fun s => (.ok, (filledBlock cmpctblock l).endScan s) := by
  obtain ⟨⟨self, m⟩, hread, -, l, hprefill, hl, rfl⟩ :=
    ((readCompact_spec hashing mweb_block cmpctblock).mono (fun _ h => h) fun _ he =>
      he.2 h).exists_ok
  have hstart := startScan_sim hl (cmpctblock.getShortID hashing) (filledBlock cmpctblock l) rfl rfl
  refine ⟨l, m, _, hprefill, hl, poolScan_sim hl vTxHashes [] _ hstart, fun extra_txn => ?_⟩
  rw [initData, hread]
  dsimp only
  cases extraScan (cmpctblock.getShortID hashing) m extra_txn
    (poolScan (cmpctblock.getShortID hashing) m vTxHashes (filledBlock cmpctblock l).startScan) <;>
      rfl

/-- Any other compact block is refused before the search. -/
theorem initData_of_not_wellFormed (mweb_block : Option Mweb.Block)
    {cmpctblock : CBlockHeaderAndShortTxIDs}
    (h : ¬ WellFormed hashing cmpctblock) (vTxHashes : List (Uint256 × CTransaction)) :
    ∃ r, r.1 ≠ .ok ∧ ∀ extra_txn,
      initData hashing (.new mweb_block) vTxHashes cmpctblock extra_txn = .ok r := by
  have hspec := readCompact_spec hashing mweb_block cmpctblock
  cases hread : readCompact hashing (.new mweb_block) cmpctblock with
  | error r => exact ⟨r, (hspec.of_error hread).1, fun extra_txn => by rw [initData, hread]⟩
  | ok r => exact absurd (hspec.of_ok hread).1 h

/-- With a list of transactions that are there, `InitData` completes. -/
theorem initData_refs (mweb_block : Option Mweb.Block) (cmpctblock : CBlockHeaderAndShortTxIDs)
    (vTxHashes l : List (Uint256 × CTransaction)) :
    ∃ r, initData hashing (.new mweb_block) vTxHashes cmpctblock (refs l) = .ok r := by
  by_cases hwf : WellFormed hashing cmpctblock
  · obtain ⟨_, m, s, -, hl, hsim, heq⟩ := initData_eq hashing mweb_block hwf vTxHashes
    obtain ⟨s', hs', -⟩ := (extraScan_sim hl _ l [] s hsim).exists_ok
    exact ⟨_, by rw [heq, hs']; rfl⟩
  · obtain ⟨r, -, hr⟩ := initData_of_not_wellFormed hashing mweb_block hwf vTxHashes
    exact ⟨r, hr _⟩

/-- When untouched entries have no effect: there are none, the compact block is refused before the
search, the short id of the zero hash is none of its short ids, all of them are filled at some point
before the untouched entries, or the transactions with that short id did not agree. -/
def UntouchedHarmless (max_extra_txn : Nat) (txs : List CTransaction)
    (vTxHashes : List (Uint256 × CTransaction)) (cmpctblock : CBlockHeaderAndShortTxIDs) : Prop :=
  txs = [] ∨ max_extra_txn ≤ txs.length ∨ ¬ WellFormed hashing cmpctblock ∨
    cmpctblock.getShortID hashing 0 ∉ cmpctblock.shorttxids ∨
    (∃ j < txs.length, allFilled cmpctblock.shorttxids (slotOf (cmpctblock.getShortID hashing)
      (searchedPool hashing cmpctblock vTxHashes) (candidates (txs.take (j + 1))))) ∨
    slotOf (cmpctblock.getShortID hashing) (searchedPool hashing cmpctblock vTxHashes)
      (candidates txs) (cmpctblock.getShortID hashing 0) = .givenUp

/-- `InitData` does the same with the untouched entries of the ring and without them, and
dereferences no null pointer, exactly when the entries are harmless. -/
theorem initData_untouched_iff (max_extra_txn : Nat) (txs : List CTransaction)
    (vTxHashes : List (Uint256 × CTransaction)) (mweb_block : Option Mweb.Block)
    (cmpctblock : CBlockHeaderAndShortTxIDs) :
    (∃ r, initData hashing (.new mweb_block) vTxHashes cmpctblock
        (ringOf max_extra_txn txs).vExtraTxnForCompact = .ok r ∧
      initData hashing (.new mweb_block) vTxHashes cmpctblock
        (touched (ringOf max_extra_txn txs).vExtraTxnForCompact) = .ok r) ↔
      UntouchedHarmless hashing max_extra_txn txs vTxHashes cmpctblock := by
  by_cases hfull : txs = [] ∨ max_extra_txn ≤ txs.length
  · -- a list without untouched entries
    have hrefs : ∃ l, (ringOf max_extra_txn txs).vExtraTxnForCompact = refs l := by
      rcases Nat.eq_zero_or_pos max_extra_txn with rfl | hmax
      · rw [ringOf, foldl_fixed' fun _ => rfl]
        exact ⟨[], rfl⟩
      · obtain ⟨hlt, hring⟩ | ⟨-, -, l, -, hring⟩ := ringOf_holds hmax txs
        · rw [hring, hfull.resolve_right (by omega)]
          exact ⟨[], rfl⟩
        · exact ⟨l, hring⟩
    obtain ⟨l, hring⟩ := hrefs
    obtain ⟨r, hr⟩ := initData_refs hashing mweb_block cmpctblock vTxHashes l
    exact iff_of_true ⟨r, by rw [hring, hr], by rw [hring, touched_refs, hr]⟩ (hfull.imp_right .inl)
  obtain ⟨hnil, hlt⟩ := not_or.mp hfull
  have hmax : 0 < max_extra_txn := by omega
  obtain ⟨-, hring⟩ | ⟨hge, -⟩ := ringOf_holds hmax txs
  swap
  · omega
  rw [if_neg (by simpa using hnil)] at hring
  obtain ⟨n, hn⟩ : ∃ n, max_extra_txn - txs.length = n + 1 := exists_eq_add_one.mpr (by omega)
  rw [hring, touched_append_replicate, hn, UntouchedHarmless, or_iff_right hnil,
    or_iff_right (by omega)]
  by_cases hwf : WellFormed hashing cmpctblock
  swap
  · -- the call ends before the search
    obtain ⟨r, -, hr⟩ := initData_of_not_wellFormed hashing mweb_block hwf vTxHashes
    exact iff_of_true ⟨r, hr _, hr _⟩ (.inl hwf)
  rw [or_iff_right (not_not_intro hwf)]
  obtain ⟨l, m, s, -, hl, hsim, heq⟩ := initData_eq hashing mweb_block hwf vTxHashes
  generalize filledBlock cmpctblock l = self at heq
  obtain ⟨s', hs', hsim'⟩ := (extraScan_sim hl _ (candidates txs) [] s hsim).exists_ok
  have htake : ∀ j, candidates (txs.take (j + 1)) = [] ++ (candidates txs).take (j + 1) := by
    intro j
    rw [candidates, map_take, nil_append, candidates]
  have hlen : (candidates txs).length = txs.length := length_map ..
  have hne : refs (candidates txs) ≠ [] := by simpa [refs, candidates] using hnil
  simp only [heq, hs', htake, extraScan_append _ _ s hne, ← hlen]
  have hfull := hsim'.count_eq_size_iff hl
  rcases runUntil_spec (fun extra => allFilled cmpctblock.shorttxids (slotOf
    (cmpctblock.getShortID hashing) (searchedPool hashing cmpctblock vTxHashes) extra))
    (candidates txs) [] with ⟨hrun, hnone⟩ | ⟨j, hj, hrun, hstop⟩
  swap
  · refine iff_of_true ⟨_, ?_, rfl⟩ (.inr (.inl ⟨j, hj, hstop⟩))
    rw [hrun] at hfull
    rw [Except.bind, if_pos (hfull.mpr hstop)]
    rfl
  · have hlast := hnone (txs.length - 1) (by have := length_pos_iff.mpr hnil; omega)
    rw [take_of_length_le (by omega)] at hlast
    rw [hrun, hlast, iff_false_right Bool.false_ne_true] at hfull
    rw [hrun, nil_append] at hsim'
    rw [Except.bind, if_neg hfull, or_iff_right (a := Exists _),
      ← extraScan_untouched_iff hl hsim' n]
    swap
    · rintro ⟨j, hj, hall⟩
      exact Bool.false_ne_true ((hnone j hj).symm.trans hall)
    constructor
    · rintro ⟨r, hr, hr'⟩
      cases hnull : extraScan (cmpctblock.getShortID hashing) m
          (replicate (n + 1) (0, none)) s' with
      | error e =>
        rw [hnull] at hr
        cases hr
      | ok s'' =>
        rw [hnull] at hr
        have hsame : self.endScan s'' = self.endScan s' := by
          have := (Except.ok.inj hr).trans (Except.ok.inj hr').symm
          exact (Prod.mk.inj this).2
        exact ⟨s'', rfl, congrArg txn_available hsame,
          congrArg mempool_count hsame,
          congrArg extra_count hsame⟩
    · rintro ⟨s'', hnull, havailable, hmempool, hextra⟩
      have hsame : self.endScan s'' = self.endScan s' := by
        simp only [endScan, havailable, hmempool, hextra]
      exact ⟨(.ok, self.endScan s'), by rw [hnull, ← hsame]; rfl, rfl⟩

/-! ### A null pointer that is dereferenced -/

/-- Short ids that are remainders by seven: as for every hash of 48 bits, some hashes share theirs
with the zero hash. -/
def smallHashing : Hashing where
  sipHash _ _ hash := UInt64.ofNat (hash.toNat % 7)
  bucketSize _ _ := 1

/-- A transaction with an input and an output, with the given hash. -/
def plainTx (hash : Uint256) : CTransaction where
  vin := [⟨⟨1, 0⟩, [], 0, []⟩]
  vout := [⟨1, []⟩]
  nVersion := 2
  nLockTime := 0
  mweb_tx := none
  m_hogEx := false
  hash := hash
  m_witness_hash := hash

/-- A compact block with its first transaction prefilled and two others, one of which has the short
id of the zero hash. -/
def collidingCompact : CBlockHeaderAndShortTxIDs where
  header := ⟨1, 0, 0, 0, 1, 0⟩
  nonce := 0
  shorttxids := [0, 5]
  prefilledtxn := [⟨0, plainTx 1⟩]
  mweb_block := none
  count_le := by decide

/-- A transaction of the memory pool has the short id of the zero hash, and the ring is not full:
the null pointer of an untouched entry is dereferenced. Without the untouched entry the call
completes. -/
theorem initData_null_dereference :
    initData smallHashing (.new none) [(7, plainTx 7)] collidingCompact
        (ringOf 2 [plainTx 3]).vExtraTxnForCompact = .error .nullDereference ∧
      ∃ self, initData smallHashing (.new none) [(7, plainTx 7)] collidingCompact
        (touched (ringOf 2 [plainTx 3]).vExtraTxnForCompact) = .ok (.ok, self) :=
  ⟨rfl, _, rfl⟩

end DefcoinCore.BlockEncodings
