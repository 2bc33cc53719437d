import DefcoinCore.NetProcessing.State

/-!
# The invariant of the block-download table

`Inv` says that `mapBlocksInFlight` and the peers' queues are inverse to each other and that the
counters count: a map entry is one queue entry of its owner and every queue entry is in the map
(`link`), each peer's counters are those of its queue (`QueueWf`), the number of downloading peers
is the number of peers that count a validated block, and a pending Fast Sync block is in flight
from its peer.

The two elementary updates, the removal `dropInFlight` of an entry and the insertion `addInFlight`
of a new one, keep the invariant. `MarkBlockAsReceived`, `MarkBlockAsInFlight`,
`ExpireFastSyncPendingBlock`, `InitializeNode` and `FinalizeNode` are compositions of them, and none
of their dereferences and assertions fails while the invariant holds.
-/

namespace DefcoinCore.NetProcessing

open List CNodeState Option StdList

/-- What a peer's state says about its own queue. Identities below `n` have been given out. -/
structure QueueWf (n : Iter) (state : CNodeState) : Prop where
  /-- No two list nodes share an identity. -/
  iters : (state.vBlocksInFlight.map Prod.fst).Nodup
  hashes : (state.vBlocksInFlight.map (·.2.hash)).Nodup
  /-- Every identity was given out before. -/
  fresh : ∀ e ∈ state.vBlocksInFlight, e.1 < n
  /-- `nBlocksInFlight` is the length of the queue. -/
  count : state.nBlocksInFlight = state.vBlocksInFlight.length
  /-- `nBlocksInFlightValidHeaders` counts the entries with validated headers. -/
  valid : state.nBlocksInFlightValidHeaders = state.vBlocksInFlight.countP (·.2.fValidatedHeaders)

/-- Whether a peer is counted in `nPeersWithValidatedDownloads`. -/
def CNodeState.downloading (state : CNodeState) : Bool := state.nBlocksInFlightValidHeaders ≠ 0

/-- `hash` is in flight from the peer `p`, under the queue entry `it`. -/
def NetState.InFlight (s : NetState) (hash : Uint256) (p : NodeId) (it : Iter) : Prop :=
  s.mapBlocksInFlight[hash]? = some (p, it)

/-- `p` is connected, and its queue has the entry `it` for `hash`. -/
def NetState.Queued (s : NetState) (hash : Uint256) (p : NodeId) (it : Iter) : Prop :=
  ∃ state q, s.state? p = some state ∧ (it, q) ∈ state.vBlocksInFlight ∧ q.hash = hash

/-- The invariant of the block-download table. -/
structure Inv (s : NetState) : Prop where
  /-- Every peer's counters are those of its queue. -/
  queues : ∀ p state, s.state? p = some state → QueueWf s.nextIter state
  /-- The map and the queues are inverse to each other. -/
  link : ∀ hash p it, s.InFlight hash p it ↔ s.Queued hash p it
  /-- `nPeersWithValidatedDownloads` counts the peers that count a validated block. -/
  peers : s.nPeersWithValidatedDownloads = s.mapNodeState.countP CNodeState.downloading
  /-- A pending Fast Sync block is in flight from its peer. -/
  pending : ∀ p state, s.state? p = some state → state.hashFastSyncPendingBlock ≠ 0 →
    ∃ it, s.InFlight state.hashFastSyncPendingBlock p it

variable {s s' s'' : NetState} {hash : Uint256} {p : NodeId} {it : Iter}

/-- An entry in flight is a queue entry of its owner. -/
theorem Inv.entry (hs : Inv s) (h : s.InFlight hash p it) :
    ∃ state q, s.state? p = some state ∧ state.entry? it = some q ∧
      (it, q) ∈ state.vBlocksInFlight ∧ q.hash = hash := by
  obtain ⟨state, q, hp, hq, hh⟩ := (hs.link hash p it).mp h
  exact ⟨state, q, hp, (lookup_eq_some_iff_mem (hs.queues p state hp).iters it q).mpr hq, hq, hh⟩

/-- The identity of an entry in flight was given out before. -/
theorem Inv.iter_lt (hs : Inv s) (h : s.InFlight hash p it) : it < s.nextIter := by
  obtain ⟨state, q, hp, -, hq, -⟩ := hs.entry h
  exact (hs.queues p state hp).fresh (it, q) hq

/-- The blocks in flight from a peer are those of its queue. -/
theorem Inv.own (hs : Inv s) {state : CNodeState} (hp : s.state? p = some state) (hash : Uint256)
    (it : Iter) :
    s.InFlight hash p it ↔ ∃ q, (it, q) ∈ state.vBlocksInFlight ∧ q.hash = hash := by
  simp [hs.link hash p it, NetState.Queued, hp]

/-- A block is in flight under one entry. -/
theorem NetState.InFlight.unique {p' : NodeId} {it' : Iter} (h : s.InFlight hash p it)
    (h' : s.InFlight hash p' it') : p = p' ∧ it = it' :=
  Prod.mk.inj (some.inj (h.symm.trans h'))

/-- What every step leaves of the state before it: identities only grow, an old entry is in flight
after the step only if it was before, and a claimed Fast Sync reservation whose entry stays keeps
its block and its deadline. -/
structure Evolves (s s' : NetState) : Prop where
  /-- Identities are never given out again. -/
  iters : s.nextIter ≤ s'.nextIter
  /-- No old entry comes back. -/
  old : ∀ hash p it, it < s.nextIter → s'.InFlight hash p it → s.InFlight hash p it
  /-- A claimed reservation keeps its deadline while its entry is in flight. -/
  claimed : ∀ p state it, s.state? p = some state → state.hashFastSyncPendingBlock ≠ 0 →
    state.fFastSyncPendingClaimed → it < s.nextIter →
    s'.InFlight state.hashFastSyncPendingBlock p it →
    ∃ state', s'.state? p = some state' ∧
      state'.hashFastSyncPendingBlock = state.hashFastSyncPendingBlock ∧
      state'.fFastSyncPendingClaimed ∧
      state'.nFastSyncPendingUntil = state.nFastSyncPendingUntil

theorem Evolves.refl (s : NetState) : Evolves s s :=
  ⟨le_refl _, fun _ _ _ _ h => h, fun _ state _ hp _ hc _ _ => ⟨state, hp, rfl, hc, rfl⟩⟩

theorem Evolves.trans (h : Evolves s s') (h' : Evolves s' s'') : Evolves s s'' := by
  refine ⟨h.iters.trans h'.iters, ?_, ?_⟩
  · intro hash p it hlt hin
    exact h.old hash p it hlt (h'.old hash p it (hlt.trans_le h.iters) hin)
  · intro p state it hp hne hc hlt hin
    have hin' := h'.old _ p it (hlt.trans_le h.iters) hin
    obtain ⟨state', hp', hhash, hc', huntil⟩ := h.claimed p state it hp hne hc hlt hin'
    rw [← hhash] at hne hin
    obtain ⟨state'', hp'', hhash', hc'', huntil'⟩ :=
      h'.claimed p state' it hp' hne hc' (hlt.trans_le h.iters) hin
    exact ⟨state'', hp'', hhash'.trans hhash, hc'', huntil'.trans huntil⟩

/-- `s'` follows `s`: the invariant holds, reservations evolved, and the same peers are connected.
-/
structure Follows (s s' : NetState) : Prop where
  inv : Inv s'
  evolves : Evolves s s'
  peers : ∀ p, (s'.state? p).isSome = (s.state? p).isSome

theorem Follows.refl (hs : Inv s) : Follows s s := ⟨hs, .refl s, fun _ => rfl⟩

theorem Follows.trans (h : Follows s s') (h' : Follows s' s'') : Follows s s'' :=
  ⟨h'.inv, h.evolves.trans h'.evolves, fun p => (h'.peers p).trans (h.peers p)⟩

/-- A connected peer is still connected. -/
theorem Follows.state (h : Follows s s') {state : CNodeState} (hp : s.state? p = some state) :
    ∃ state', s'.state? p = some state' := by
  have := h.peers p
  rw [hp, isSome_some, isSome_iff_exists] at this
  exact this

/-- The state of one peer is written, and with it the blocks in flight from that peer. -/
structure Writes (s s' : NetState) (p : NodeId) (state state' : CNodeState) : Prop where
  before : s.state? p = some state
  map : s'.mapNodeState = s.mapNodeState.insert p state'
  iters : s.nextIter ≤ s'.nextIter
  others : ∀ hash p' it, p' ≠ p → (s'.InFlight hash p' it ↔ s.InFlight hash p' it)
  /-- The blocks in flight from the peer are those of the queue that is written. -/
  own : ∀ hash it, s'.InFlight hash p it ↔ ∃ q, (it, q) ∈ state'.vBlocksInFlight ∧ q.hash = hash
  old : ∀ hash it, it < s.nextIter → s'.InFlight hash p it → s.InFlight hash p it
  queue : QueueWf s'.nextIter state'
  downloads : s'.nPeersWithValidatedDownloads + state.downloading.toNat =
    s.nPeersWithValidatedDownloads + state'.downloading.toNat
  pending : state'.hashFastSyncPendingBlock ≠ 0 →
    ∃ it, s'.InFlight state'.hashFastSyncPendingBlock p it
  claimed : ∀ it, state.hashFastSyncPendingBlock ≠ 0 → state.fFastSyncPendingClaimed →
    s'.InFlight state.hashFastSyncPendingBlock p it →
    state'.hashFastSyncPendingBlock = state.hashFastSyncPendingBlock ∧
      state'.fFastSyncPendingClaimed ∧
      state'.nFastSyncPendingUntil = state.nFastSyncPendingUntil

theorem Writes.follows {state state' : CNodeState} (hs : Inv s) (h : Writes s s' p state state') :
    Follows s s' := by
  have hafter : ∀ p', s'.state? p' = if p = p' then some state' else s.state? p' := by
    intro p'
    rw [NetState.state?, h.map, StdMap.getElem?_insert]
    rfl
  refine ⟨⟨?_, ?_, ?_, ?_⟩, ⟨h.iters, ?_, ?_⟩, ?_⟩
  · intro p' st hp'
    rw [hafter] at hp'
    split_ifs at hp'
    · exact some.inj hp' ▸ h.queue
    · have hq := hs.queues p' st hp'
      exact ⟨hq.iters, hq.hashes, fun e he => (hq.fresh e he).trans_le h.iters, hq.count, hq.valid⟩
  · intro hash p' it
    by_cases hpp : p' = p
    · simp [hpp, h.own, NetState.Queued, hafter]
    · rw [h.others hash p' it hpp, hs.link, NetState.Queued, NetState.Queued, hafter,
        if_neg (Ne.symm hpp)]
  · have hcount := StdMap.countP_insert_of_some downloading s.mapNodeState p state state' h.before
    have hpeers := hs.peers
    have hdownloads := h.downloads
    rw [h.map]
    omega
  · intro p' st hp' hne
    rw [hafter] at hp'
    split_ifs at hp' with hpp
    · subst hpp
      obtain rfl := some.inj hp'
      exact h.pending hne
    · obtain ⟨it, hit⟩ := hs.pending p' st hp' hne
      exact ⟨it, (h.others _ p' it (Ne.symm hpp)).mpr hit⟩
  · intro hash p' it hlt hin
    by_cases hpp : p' = p
    · exact hpp ▸ h.old hash it hlt (hpp ▸ hin)
    · exact (h.others hash p' it hpp).mp hin
  · intro p' st it hp' hne hc _ hin
    rw [hafter]
    split_ifs with hpp
    · subst hpp
      obtain rfl := some.inj (h.before.symm.trans hp')
      exact ⟨state', rfl, h.claimed it hne hc hin⟩
    · exact ⟨st, hp', rfl, hc, rfl⟩
  · intro p'
    rw [hafter]
    split_ifs with hpp
    · rw [← hpp, h.before]
      rfl
    · rfl

namespace NetState

variable {s : NetState} {p : NodeId} {n it : Iter} {q : QueuedBlock}

@[simp]
theorem state?_setState (s : NetState) (p p' : NodeId) (state : CNodeState) :
    (s.setState p state).state? p' = if p = p' then some state else s.state? p' := by
  simp only [state?, setState, StdMap.getElem?_insert]

@[simp]
theorem state?_setState_self (s : NetState) (p : NodeId) (state : CNodeState) :
    (s.setState p state).state? p = some state := by
  rw [state?_setState, if_pos rfl]

variable {state : CNodeState}

theorem state_eq_ok_iff : s.state p = .ok state ↔ s.state? p = some state := by
  unfold NetState.state
  cases s.state? p <;> simp

/-! ## Removing an entry -/

/-- The fields of a peer's state after one of its entries is removed. -/
theorem dropEntry_fields (state : CNodeState) (now : Nat) (hash : Uint256) (it : Iter)
    (q : QueuedBlock) :
    (state.dropEntry now hash it q).vBlocksInFlight = erase state.vBlocksInFlight it ∧
      (state.dropEntry now hash it q).nBlocksInFlight = state.nBlocksInFlight - 1 ∧
      (state.dropEntry now hash it q).nBlocksInFlightValidHeaders =
        state.nBlocksInFlightValidHeaders - q.fValidatedHeaders.toNat ∧
      (state.dropEntry now hash it q).hashFastSyncPendingBlock =
        (if state.hashFastSyncPendingBlock = hash then 0 else state.hashFastSyncPendingBlock) := by
  unfold dropEntry clearFastSyncPendingBlock
  simp only
  split_ifs <;> simp_all

/-- A queue stays well formed when one of its entries is removed. -/
theorem dropEntry_queueWf (h : QueueWf n state) (now : Nat) (hash : Uint256)
    (hq : (it, q) ∈ state.vBlocksInFlight) :
    QueueWf n (state.dropEntry now hash it q) := by
  obtain ⟨hv, hn, hnv, -⟩ := dropEntry_fields state now hash it q
  have hsub := erase_sublist state.vBlocksInFlight it
  refine ⟨?_, ?_, ?_, ?_, ?_⟩
  · rw [hv]; exact (hsub.map Prod.fst).nodup h.iters
  · rw [hv]; exact (hsub.map (·.2.hash)).nodup h.hashes
  · rw [hv]; exact fun e hmem => h.fresh e (hsub.subset hmem)
  · have hlen := length_erase h.iters hq
    rw [hn, hv, h.count]
    omega
  · have hcnt := countP_erase h.iters hq (·.2.fValidatedHeaders)
    rw [hnv, hv, h.valid, ← hcnt, Nat.cast_add, add_sub_cancel_right]

/-- The peers after `dropInFlight`. -/
theorem state?_dropInFlight (s : NetState) (now : Nat) (hash : Uint256) (p p' : NodeId) (it : Iter)
    (state : CNodeState) (q : QueuedBlock) :
    (s.dropInFlight now hash p it state q).state? p' =
      if p = p' then some (state.dropEntry now hash it q) else s.state? p' := by
  simp only [state?, dropInFlight, StdMap.getElem?_insert]

/-- The blocks in flight after `dropInFlight`. -/
theorem inFlight_dropInFlight (s : NetState) (now : Nat) (hash hash' : Uint256) (p p' : NodeId)
    (it it' : Iter) (state : CNodeState) (q : QueuedBlock) :
    (s.dropInFlight now hash p it state q).InFlight hash' p' it' ↔
      hash ≠ hash' ∧ s.InFlight hash' p' it' := by
  simp only [InFlight, dropInFlight, StdMap.getElem?_erase]
  split_ifs with h <;> simp [h]

/-- Removing the queue entry of a block in flight. -/
theorem dropInFlight_follows (hs : Inv s) (now : Nat) {hash : Uint256}
    (h : s.InFlight hash p it) (hp : s.state? p = some state) (hq : (it, q) ∈ state.vBlocksInFlight)
    (hh : q.hash = hash) :
    Follows s (s.dropInFlight now hash p it state q) := by
  obtain ⟨hv, -, hnv, hpend⟩ := dropEntry_fields state now hash it q
  have hwf := hs.queues p state hp
  have hwf' := dropEntry_queueWf hwf now hash hq
  refine Writes.follows hs
    { before := hp, map := rfl, iters := le_refl _, queue := hwf', others := ?_, own := ?_,
      old := ?_, downloads := ?_, pending := ?_, claimed := ?_ }
  · intro hash' p' it' hpp
    rw [inFlight_dropInFlight, and_iff_right_iff_imp]
    rintro hin rfl
    exact hpp (hin.unique h).1
  · intro hash' it'
    rw [inFlight_dropInFlight, hs.own hp, hv]
    simp only [mem_erase hwf.iters hq]
    constructor
    · rintro ⟨hne, q', hq', hh'⟩
      refine ⟨q', ⟨hq', ?_⟩, hh'⟩
      rintro rfl
      exact hne (by rw [← hh, ← hh', eq_of_mem_of_mem hwf.iters hq hq'])
    · rintro ⟨q', ⟨hq', hne⟩, hh'⟩
      refine ⟨?_, q', hq', hh'⟩
      rintro rfl
      -- Two entries for one block in the owner's queue would be one entry.
      exact hne (congrArg Prod.fst (inj_on_of_nodup_map hwf.hashes hq' hq (by rw [hh', hh])))
  · exact fun hash' it' _ hin => ((inFlight_dropInFlight ..).mp hin).2
  · -- The peer leaves the count exactly when its last validated entry goes.
    have hpos : q.fValidatedHeaders = true → 0 < state.vBlocksInFlight.countP
        (·.2.fValidatedHeaders) := fun hval => countP_pos_iff.mpr ⟨(it, q), hq, hval⟩
    have hvalid := hwf.valid
    simp only [dropInFlight, downloading, hnv]
    cases hval : q.fValidatedHeaders
    · simp
    · have hpos := hpos hval
      have hne : state.nBlocksInFlightValidHeaders ≠ 0 := by omega
      by_cases h0 : state.nBlocksInFlightValidHeaders - 1 = 0
      · simp [h0, hne]
      · simp [h0, hne]
  · intro hne
    rw [hpend] at hne ⊢
    split_ifs at hne ⊢ with hcl
    · exact absurd rfl hne
    · obtain ⟨it', hit⟩ := hs.pending p state hp hne
      exact ⟨it', (inFlight_dropInFlight ..).mpr ⟨Ne.symm hcl, hit⟩⟩
  · intro it' _ hc hin
    have hne := Ne.symm ((inFlight_dropInFlight ..).mp hin).1
    unfold dropEntry
    simp only
    split_ifs <;> simp_all

/-! ## Adding an entry -/

/-- The peers after `addInFlight`. -/
theorem state?_addInFlight (s : NetState) (now : Nat) (p p' : NodeId) (state : CNodeState)
    (q : QueuedBlock) :
    (s.addInFlight now p state q).state? p' =
      if p = p' then some (state.addEntry now s.nextIter q) else s.state? p' := by
  simp only [state?, addInFlight, StdMap.getElem?_insert]

/-- The blocks in flight after `addInFlight`. -/
theorem inFlight_addInFlight (s : NetState) (now : Nat) (p p' : NodeId) (state : CNodeState)
    (q : QueuedBlock) (hash' : Uint256) (it' : Iter) :
    (s.addInFlight now p state q).InFlight hash' p' it' ↔
      (q.hash = hash' ∧ p = p' ∧ s.nextIter = it') ∨
      (q.hash ≠ hash' ∧ s.InFlight hash' p' it') := by
  simp only [InFlight, addInFlight, StdMap.getElem?_insert]
  split_ifs with h <;> simp [h]

/-- A queue stays well formed when a new block is appended. -/
theorem addEntry_queueWf (h : QueueWf n state) (now : Nat)
    (hq : ∀ e ∈ state.vBlocksInFlight, e.2.hash ≠ q.hash) :
    QueueWf (n + 1) (state.addEntry now n q) := by
  have happend : ∀ {β : Type} {f : Iter × QueuedBlock → β}, (state.vBlocksInFlight.map f).Nodup →
      (∀ e ∈ state.vBlocksInFlight, f e ≠ f (n, q)) →
      ((state.addEntry now n q).vBlocksInFlight.map f).Nodup := by
    intro β f hnodup hne
    rw [addEntry, map_append, nodup_append]
    exact ⟨hnodup, nodup_singleton _, forall_mem_map.mpr fun e he =>
      forall_mem_singleton.mpr (hne e he)⟩
  refine ⟨happend h.iters fun e he => (h.fresh e he).ne, happend h.hashes hq,
    forall_mem_append.mpr ⟨fun e he => Nat.lt_succ_of_lt (h.fresh e he),
      forall_mem_singleton.mpr (Nat.lt_succ_self n)⟩, ?_, ?_⟩
  · simp only [addEntry, length_append, length_singleton, h.count]
    rfl
  · simp only [addEntry, countP_append, countP_singleton, h.valid]
    cases q.fValidatedHeaders <;> simp

/-- Adding a block that is not in flight to the queue of a connected peer. -/
theorem addInFlight_follows (hs : Inv s) (now : Nat) (hp : s.state? p = some state)
    (hv : q.fValidatedHeaders = q.pindex.isSome) (hnone : s.mapBlocksInFlight[q.hash]? = none) :
    Follows s (s.addInFlight now p state q) := by
  have hwf := hs.queues p state hp
  have habsent : ∀ {hash p' it}, s.InFlight hash p' it → q.hash ≠ hash := by
    rintro hash p' it hin rfl
    cases hnone.symm.trans hin
  refine Writes.follows hs
    { before := hp, map := rfl, iters := Nat.le_succ _,
      queue := addEntry_queueWf hwf now fun e he =>
        (habsent ((hs.own hp e.2.hash e.1).mpr ⟨e.2, he, rfl⟩)).symm,
      others := ?_, own := ?_, old := ?_, downloads := ?_, pending := ?_,
      claimed := fun _ _ hc _ => ⟨rfl, hc, rfl⟩ }
  · intro hash p' it hpp
    rw [inFlight_addInFlight]
    constructor
    · rintro (⟨-, rfl, -⟩ | ⟨-, hin⟩)
      · exact absurd rfl hpp
      · exact hin
    · exact fun hin => .inr ⟨habsent hin, hin⟩
  · intro hash it
    rw [inFlight_addInFlight]
    simp only [addEntry, mem_append, mem_singleton, Prod.mk.injEq, or_and_right,
      exists_or, ← hs.own hp]
    constructor
    · rintro (⟨hh, -, rfl⟩ | ⟨-, hin⟩)
      · exact .inr ⟨q, ⟨rfl, rfl⟩, hh⟩
      · exact .inl hin
    · rintro (hin | ⟨q', ⟨rfl, rfl⟩, hh⟩)
      · exact .inr ⟨habsent hin, hin⟩
      · exact .inl ⟨hh, trivial, rfl⟩
  · intro hash it hlt hin
    rcases (inFlight_addInFlight ..).mp hin with ⟨-, -, heq⟩ | ⟨-, hin⟩
    · exact absurd heq (Nat.ne_of_gt hlt)
    · exact hin
  · -- The peer enters the count exactly with its first validated entry.
    have hvalid := hwf.valid
    simp only [addInFlight, downloading, addEntry, ← hv]
    rcases Bool.eq_false_or_eq_true q.fValidatedHeaders with hval | hval
    · have hne : state.nBlocksInFlightValidHeaders + 1 ≠ 0 := by omega
      by_cases h0 : state.nBlocksInFlightValidHeaders = 0
      · simp [hval, h0]
      · simp [hval, h0, hne]
    · simp [hval]
  · intro hne
    obtain ⟨it, hit⟩ := hs.pending p state hp hne
    exact ⟨it, (inFlight_addInFlight ..).mpr (.inr ⟨habsent hit, hit⟩)⟩

end NetState

end DefcoinCore.NetProcessing
