import DefcoinCore.Lib.Ensures
import DefcoinCore.NetProcessing.InFlight

/-!
# Marking blocks and peers

What `MarkBlockAsReceived`, `ExpireFastSyncPendingBlock`, `MarkBlockAsInFlight`, `InitializeNode`
and `FinalizeNode` do to a state that satisfies `Inv`: they return, their result satisfies `Inv`
again, and the blocks in flight afterwards are given exactly. Only the caller can make them stop, by
naming a peer that is not connected.
-/

namespace DefcoinCore.NetProcessing

open List StdMap

/-- What the table reads of a queue entry: its identity, its block, and whether it is validated. -/
def entryKey (e : Iter × QueuedBlock) : Iter × Uint256 × Bool :=
  (e.1, e.2.hash, e.2.fValidatedHeaders)

/-- The queue and its counters are the same in two states of a peer, up to the partial blocks. -/
structure SameQueue (state state' : CNodeState) : Prop where
  queue : state'.vBlocksInFlight.map entryKey = state.vBlocksInFlight.map entryKey
  count : state'.nBlocksInFlight = state.nBlocksInFlight
  valid : state'.nBlocksInFlightValidHeaders = state.nBlocksInFlightValidHeaders

/-- The same entries are queued for the same blocks. -/
theorem SameQueue.mem_iff {state state' : CNodeState} (h : SameQueue state state') (it : Iter)
    (hash : Uint256) :
    (∃ q, (it, q) ∈ state'.vBlocksInFlight ∧ q.hash = hash) ↔
      ∃ q, (it, q) ∈ state.vBlocksInFlight ∧ q.hash = hash := by
  have hkey : ∀ st : CNodeState, (∃ q, (it, q) ∈ st.vBlocksInFlight ∧ q.hash = hash) ↔
      (it, hash) ∈ (st.vBlocksInFlight.map entryKey).map fun k => (k.1, k.2.1) := by
    intro st
    simp [entryKey]
  rw [hkey, hkey, h.queue]

/-- A queue with the same entries is well formed too. -/
theorem SameQueue.queueWf {state state' : CNodeState} (h : SameQueue state state') {n : Iter}
    (hwf : QueueWf n state) : QueueWf n state' := by
  -- Well-formedness reads no more than the keys.
  have hkeys : ∀ st : CNodeState, QueueWf n st ↔
      let keys := st.vBlocksInFlight.map entryKey
      (keys.map (·.1)).Nodup ∧ (keys.map (·.2.1)).Nodup ∧ (∀ k ∈ keys, k.1 < n) ∧
        st.nBlocksInFlight = keys.length ∧
        st.nBlocksInFlightValidHeaders = keys.countP (·.2.2) := by
    intro st
    simp only [map_map, forall_mem_map, length_map, countP_map]
    exact ⟨fun h => ⟨h.iters, h.hashes, h.fresh, h.count, h.valid⟩,
      fun ⟨hiters, hhashes, hfresh, hcount, hvalid⟩ => ⟨hiters, hhashes, hfresh, hcount, hvalid⟩⟩
  rw [hkeys, h.queue, h.count, h.valid, ← hkeys]
  exact hwf

namespace NetState

variable {s : NetState} {p : NodeId} {state : CNodeState}

/-- Writing back what is there changes nothing. -/
theorem setState_self (hp : s.state? p = some state) : s.setState p state = s := by
  rw [setState, insert_of_some hp]

/-- The last write to a peer's state counts. -/
@[simp]
theorem setState_setState (s : NetState) (p : NodeId) (state state' : CNodeState) :
    (s.setState p state).setState p state' = s.setState p state' := by
  simp only [setState, insert_insert]

/-- The blocks in flight are not touched by a write to a peer's state. -/
@[simp]
theorem inFlight_setState (s : NetState) (p p' : NodeId) (state : CNodeState) (hash : Uint256)
    (it : Iter) : (s.setState p state).InFlight hash p' it ↔ s.InFlight hash p' it := Iff.rfl

variable (hs : Inv s) (hp : s.state? p = some state)

include hs hp

/-- Writing the fields of a peer outside its queue keeps the invariant, when the pending block is
one in flight from it and a claimed reservation is not touched. -/
theorem setState_follows {state' : CNodeState} (hq : SameQueue state state')
    (hpend : state'.hashFastSyncPendingBlock ≠ 0 →
      ∃ it, s.InFlight state'.hashFastSyncPendingBlock p it)
    (hclaim : state.hashFastSyncPendingBlock ≠ 0 → state.fFastSyncPendingClaimed →
      state'.hashFastSyncPendingBlock = state.hashFastSyncPendingBlock ∧
        state'.fFastSyncPendingClaimed ∧
          state'.nFastSyncPendingUntil = state.nFastSyncPendingUntil) :
    Follows s (s.setState p state') := by
  refine Writes.follows hs
    { before := hp, map := rfl, iters := le_refl _, others := fun _ _ _ _ => Iff.rfl,
      own := fun hash it => (hs.own hp hash it).trans (hq.mem_iff it hash).symm,
      old := fun _ _ _ h => h, queue := hq.queueWf (hs.queues p state hp), downloads := ?_,
      pending := hpend, claimed := fun _ hne hc _ => hclaim hne hc }
  rw [CNodeState.downloading, CNodeState.downloading, hq.valid]
  rfl

/-- Writing fields that the table does not read. -/
theorem setState_unread {state' : CNodeState} (hq : SameQueue state state')
    (hpend : state'.hashFastSyncPendingBlock = state.hashFastSyncPendingBlock)
    (hclaim : state'.fFastSyncPendingClaimed = state.fFastSyncPendingClaimed)
    (huntil : state'.nFastSyncPendingUntil = state.nFastSyncPendingUntil) :
    Follows s (s.setState p state') :=
  setState_follows hs hp hq (hpend ▸ hs.pending p state hp)
    fun _ hc => ⟨hpend, hclaim.trans hc, huntil⟩

omit hp in
/-- `MarkBlockAsReceived` returns, and the block is no longer in flight, or stays with another peer
than the one named. -/
theorem markBlockAsReceived_spec (now : Nat) (hash : Uint256) (fromPeer : Option NodeId) :
    Returns (s.markBlockAsReceived now hash fromPeer) fun r => Follows s r.2 ∧
      r.2.nextIter = s.nextIter ∧
      ∀ hash' p it, r.2.InFlight hash' p it ↔
        s.InFlight hash' p it ∧ ¬ (hash' = hash ∧ (fromPeer = none ∨ fromPeer = some p)) := by
  unfold markBlockAsReceived
  rcases hin : s.mapBlocksInFlight[hash]? with _ | ⟨p, it⟩
  · refine ⟨.refl hs, rfl, fun hash' p it => ⟨fun h => ⟨h, ?_⟩, And.left⟩⟩
    rintro ⟨rfl, -⟩
    cases hin.symm.trans h
  · simp only
    -- The owner of the entry, which is the peer that a removal is about.
    have howner : ∀ hash' p' it', s.InFlight hash' p' it' → hash' = hash → p' = p := by
      rintro hash' p' it' h rfl
      exact (InFlight.unique h hin).1
    have hremoved : fromPeer = none ∨ fromPeer = some p ↔
        ¬ (fromPeer.isSome ∧ fromPeer ≠ some p) := by
      cases fromPeer <;> simp
    split_ifs with hother
    · refine ⟨.refl hs, rfl, fun hash' p' it' => ⟨fun h => ⟨h, ?_⟩, And.left⟩⟩
      rintro ⟨heq, hfrom⟩
      rw [howner hash' p' it' h heq] at hfrom
      exact hremoved.mp hfrom hother
    · obtain ⟨state, q, hp, hentry, hq, hh⟩ := hs.entry hin
      rw [hp]
      simp only
      rw [hentry]
      refine ⟨dropInFlight_follows hs now hin hp hq hh, rfl, fun hash' p' it' => ?_⟩
      rw [inFlight_dropInFlight]
      constructor
      · rintro ⟨hne, h⟩
        exact ⟨h, fun hc => hne hc.1.symm⟩
      · rintro ⟨h, hn⟩
        refine ⟨?_, h⟩
        rintro rfl
        rw [howner hash p' it' h rfl] at hn
        exact hn ⟨rfl, hremoved.mpr hother⟩

omit hs hp in
/-- `MarkBlockAsReceived` from the owner of the block removes its entry. -/
theorem markBlockAsReceived_own (now : Nat) {hash : Uint256} {it : Iter} {q : QueuedBlock}
    (hin : s.InFlight hash p it) (hp : s.state? p = some state)
    (hentry : state.entry? it = some q) :
    s.markBlockAsReceived now hash (some p) = .ok (true, s.dropInFlight now hash p it state q) := by
  rw [InFlight] at hin
  simp only [markBlockAsReceived, hin, hp, hentry, ne_eq, not_true_eq_false, and_false, if_false]

/-- `ExpireFastSyncPendingBlock` returns for a connected peer. It takes the pending block of that
peer out of flight when its deadline has passed, and nothing else; the offer is then cleared. -/
theorem expireFastSyncPendingBlock_spec (now : Nat) :
    Returns (s.expireFastSyncPendingBlock p now) fun r => Follows s r.2 ∧
      r.2.nextIter = s.nextIter ∧
      (∀ hash p' it, r.2.InFlight hash p' it ↔ s.InFlight hash p' it ∧
        ¬ (p' = p ∧ hash = state.hashFastSyncPendingBlock ∧ hash ≠ 0 ∧
          state.nFastSyncPendingUntil ≠ 0 ∧ state.nFastSyncPendingUntil < now)) ∧
      ∃ state', r.2.state? p = some state' ∧
        (state'.hashFastSyncPendingBlock ≠ 0 ↔ state.hashFastSyncPendingBlock ≠ 0 ∧
          (state.nFastSyncPendingUntil = 0 ∨ now ≤ state.nFastSyncPendingUntil)) := by
  unfold expireFastSyncPendingBlock
  rw [state_eq_ok_iff.mpr hp, ok_bind]
  split_ifs with hidle
  · refine ⟨.refl hs, rfl, fun hash p' it => ⟨fun h => ⟨h, ?_⟩, And.left⟩, state, hp,
      fun hne => ⟨hne, hidle.resolve_left hne⟩, And.left⟩
    rintro ⟨-, rfl, hne, hu, hlt⟩
    rcases hidle with h0 | h0 | h0
    · exact hne h0
    · exact hu h0
    · omega
  · rw [not_or, not_or, not_le] at hidle
    -- The pending block is in flight from the peer, so it is taken out of its queue.
    obtain ⟨it, hin⟩ := hs.pending p state hp hidle.1
    obtain ⟨state', q, hp', hentry, -⟩ := hs.entry hin
    obtain rfl := Option.some.inj (hp.symm.trans hp')
    have hrec := markBlockAsReceived_own now hin hp hentry
    obtain ⟨hf, hiter, hiff⟩ := (markBlockAsReceived_spec hs now _ (some p)).of_ok hrec
    have hdrop := (dropEntry_fields state now state.hashFastSyncPendingBlock it q).2.2.2
    have hp1 := s.state?_dropInFlight now state.hashFastSyncPendingBlock p p it state q
    rw [if_pos rfl] at hp1
    simp only [hrec, ok_bind, state_eq_ok_iff.mpr hp1]
    refine ⟨hf.trans (setState_unread hf.inv hp1 ⟨rfl, rfl, rfl⟩ rfl rfl rfl), hiter,
      fun hash p' it => ?_, _, state?_setState_self .., ?_⟩
    · rw [inFlight_setState, hiff]
      refine and_congr_right fun _ => not_congr ?_
      constructor
      · rintro ⟨rfl, hor⟩
        have hpp : p' = p := by simpa [eq_comm] using hor
        exact ⟨hpp, rfl, hidle.1, hidle.2.1, hidle.2.2⟩
      · rintro ⟨rfl, rfl, -, -, -⟩
        exact ⟨rfl, .inr rfl⟩
    · dsimp only
      rw [hdrop, if_pos rfl]
      exact ⟨fun h => absurd rfl h, fun h => by omega⟩

/-- `MarkBlockAsInFlight` returns for a connected peer. It does nothing for a block already in
flight from that peer; otherwise the block is in flight from it, under a new entry. -/
theorem markBlockAsInFlight_spec (now : Nat) (hash : Uint256) (pindex : Option Uint256)
    (pit : Bool) :
    Returns (s.markBlockAsInFlight now p hash pindex pit) fun r => Follows s r.2 ∧
      (r.1 = false → r.2 = s ∧ ∃ it, s.InFlight hash p it) ∧
      (r.1 → (∀ it, ¬ s.InFlight hash p it) ∧ r.2.nextIter = s.nextIter + 1 ∧
        ∀ hash' p' it, r.2.InFlight hash' p' it ↔
          (hash' = hash ∧ p' = p ∧ it = s.nextIter) ∨ (hash' ≠ hash ∧ s.InFlight hash' p' it)) := by
  unfold markBlockAsInFlight
  rw [state_eq_ok_iff.mpr hp, ok_bind]
  split_ifs with hown
  · refine ⟨.refl hs, fun _ => ⟨rfl, ?_⟩, fun h => by cases h⟩
    obtain ⟨⟨p', it⟩, hin, hpp⟩ := Option.map_eq_some_iff.mp hown
    exact ⟨it, by rw [InFlight, hin, ← hpp]⟩
  · refine (markBlockAsReceived_spec hs now hash none).bind ?_
    rintro ⟨b, s1⟩ ⟨hf, hiter, hin⟩
    obtain ⟨state1, hp1⟩ := hf.state hp
    dsimp only at *
    rw [state_eq_ok_iff.mpr hp1, ok_bind]
    -- After the removal no peer has the block in flight.
    have hnone : s1.mapBlocksInFlight[hash]? = none := by
      rcases h : s1.mapBlocksInFlight[hash]? with _ | ⟨p', it⟩
      · rfl
      · exact absurd ⟨rfl, .inl rfl⟩ ((hin hash p' it).mp h).2
    generalize hq : ({ hash, pindex, fValidatedHeaders := pindex.isSome, partialBlock := pit } :
      QueuedBlock) = q
    have hqh : q.hash = hash := by rw [← hq]
    have hqv : q.fValidatedHeaders = q.pindex.isSome := by rw [← hq]
    have hadd := addInFlight_follows hf.inv now hp1 hqv (by rw [hqh]; exact hnone)
    refine ⟨hf.trans hadd, (fun h => by cases h), fun _ => ⟨?_, congrArg (· + 1) hiter, ?_⟩⟩
    · intro it h
      exact hown (by rw [h]; rfl)
    · intro hash' p' it
      rw [inFlight_addInFlight, hqh, hiter, hin]
      constructor
      · rintro (⟨rfl, rfl, rfl⟩ | ⟨hne, h, -⟩)
        · exact .inl ⟨rfl, rfl, rfl⟩
        · exact .inr ⟨Ne.symm hne, h⟩
      · rintro (⟨rfl, rfl, rfl⟩ | ⟨hne, h⟩)
        · exact .inl ⟨rfl, rfl, rfl⟩
        · exact .inr ⟨Ne.symm hne, h, fun hc => hne hc.1⟩

omit hs in
/-- `MarkBlockAsInFlight` of a block that is not in flight adds an entry and does nothing else. -/
theorem markBlockAsInFlight_fresh (now : Nat) {hash : Uint256}
    (hnone : s.mapBlocksInFlight[hash]? = none) (pindex : Option Uint256) (pit : Bool) :
    s.markBlockAsInFlight now p hash pindex pit = .ok (true, s.addInFlight now p state
      { hash, pindex, fValidatedHeaders := pindex.isSome, partialBlock := pit }) := by
  unfold markBlockAsInFlight markBlockAsReceived
  rw [state_eq_ok_iff.mpr hp, hnone]
  simp only [bind, Except.bind, pure, Except.pure, Option.map_none, reduceCtorEq, if_false,
    state_eq_ok_iff.mpr hp]

/-! ## Peers -/

omit hs hp in
/-- `InitializeNode` writes an empty state for a peer that is new. -/
theorem initializeNode_eq (s : NetState) (p : NodeId) :
    s.initializeNode p = if s.state? p = none then s.setState p {} else s := by
  have hmap : s.mapNodeState.insertIfNew p {} =
      if s.state? p = none then s.mapNodeState.insert p {} else s.mapNodeState := by
    apply Std.ExtTreeMap.ext_getElem?
    intro p'
    rw [Std.ExtTreeMap.getElem?_insertIfNew, apply_ite (fun m : StdMap NodeId CNodeState => m[p']?),
      StdMap.getElem?_insert]
    simp only [Std.compare_eq_iff_eq, Std.ExtTreeMap.mem_iff_isSome_getElem?, state?,
      Option.not_isSome_iff_eq_none]
    split_ifs <;> simp_all
  rw [initializeNode, hmap]
  split_ifs <;> rfl

omit hp in
/-- A new peer has nothing in flight; no entry and no reservation changes. -/
theorem initializeNode_spec (p : NodeId) :
    Inv (s.initializeNode p) ∧ Evolves s (s.initializeNode p) := by
  rw [initializeNode_eq]
  split_ifs with hnew
  swap
  · exact ⟨hs, .refl s⟩
  have hold : ∀ {p' state}, s.state? p' = some state → p ≠ p' := by
    rintro p' state hp' rfl
    cases hnew.symm.trans hp'
  refine ⟨⟨?_, ?_, ?_, ?_⟩, le_refl _, fun _ _ _ _ h => h, ?_⟩
  · intro p' state hp'
    rw [state?_setState] at hp'
    split_ifs at hp'
    · obtain rfl := Option.some.inj hp'
      exact ⟨nodup_nil, nodup_nil, by simp, rfl, rfl⟩
    · exact hs.queues p' state hp'
  · intro hash p' it
    rw [inFlight_setState, hs.link]
    by_cases hpp : p = p'
    · simp [Queued, ← hpp, hnew]
    · simp [Queued, hpp]
  · rw [setState, countP_insert_of_none _ _ _ _ hnew]
    exact hs.peers
  · intro p' state hp' hne
    rw [state?_setState] at hp'
    split_ifs at hp'
    · obtain rfl := Option.some.inj hp'
      exact absurd rfl hne
    · exact hs.pending p' state hp' hne
  · intro p' state it hp' _ hc _ _
    exact ⟨state, by rw [state?_setState, if_neg (hold hp'), hp'], rfl, hc, rfl⟩

omit hs hp in
/-- The peers after `FinalizeNode`. -/
theorem state?_finalized (s : NetState) (p p' : NodeId) (state : CNodeState) :
    (s.finalized p state).state? p' = if p = p' then none else s.state? p' := by
  simp only [state?, finalized, getElem?_erase]

/-- The blocks in flight after `FinalizeNode` are those of the other peers. -/
theorem inFlight_finalized (hash : Uint256) (p' : NodeId) (it : Iter) :
    (s.finalized p state).InFlight hash p' it ↔ p ≠ p' ∧ s.InFlight hash p' it := by
  unfold InFlight finalized
  simp only [getElem?_foldl_erase (fun e : Iter × QueuedBlock => e.2.hash)]
  split_ifs with hmem
  · -- The block is in the queue of `p`, so `p` is its owner.
    refine ⟨fun h => absurd h (by simp), ?_⟩
    rintro ⟨hne, h⟩
    obtain ⟨⟨it0, q⟩, hq, hh⟩ := mem_map.mp hmem
    have h0 : s.InFlight hash p it0 := (hs.own hp hash it0).mpr ⟨q, hq, hh⟩
    exact hne (InFlight.unique h0 h).1
  · refine ⟨fun h => ⟨?_, h⟩, And.right⟩
    rintro rfl
    obtain ⟨q, hq, hh⟩ := (hs.own hp hash it).mp h
    exact hmem (mem_map.mpr ⟨(it, q), hq, hh⟩)

/-- Removing a peer with its queue keeps the invariant. -/
theorem finalized_inv : Inv (s.finalized p state) := by
  refine ⟨?_, ?_, ?_, ?_⟩
  · intro p' state' hp'
    rw [state?_finalized] at hp'
    split_ifs at hp' with hpp
    exact hs.queues p' state' hp'
  · intro hash p' it
    rw [inFlight_finalized hs hp, hs.link]
    simp only [Queued, state?_finalized]
    by_cases hpp : p = p' <;> simp [hpp]
  · have h := countP_erase_of_some CNodeState.downloading s.mapNodeState p state hp
    have hpeers := hs.peers
    simp only [finalized]
    rw [hpeers, ← h, CNodeState.downloading]
    push_cast
    ring
  · intro p' state' hp' hne
    rw [state?_finalized] at hp'
    split_ifs at hp' with hpp
    obtain ⟨it, hit⟩ := hs.pending p' state' hp' hne
    exact ⟨it, (inFlight_finalized hs hp ..).mpr ⟨hpp, hit⟩⟩

/-- `FinalizeNode` returns for a connected peer: its assertions about the table hold. -/
theorem finalizeNode_spec :
    s.finalizeNode p = .ok (s.finalized p state) ∧ Inv (s.finalized p state) ∧
      Evolves s (s.finalized p state) := by
  have hinv := finalized_inv hs hp
  have hnonneg : ¬ (s.finalized p state).nPeersWithValidatedDownloads < 0 := by
    rw [hinv.peers]
    omega
  refine ⟨?_, hinv, le_refl _, ?_, ?_⟩
  · unfold finalizeNode
    rw [state_eq_ok_iff.mpr hp]
    simp only [bind, Except.bind, pure, Except.pure]
    rw [if_neg hnonneg, if_neg]
    rintro ⟨hempty, hnot⟩
    rw [Std.ExtTreeMap.isEmpty_iff] at hempty
    refine hnot ⟨?_, by rw [hinv.peers, hempty, countP_empty]; rfl⟩
    rw [Std.ExtTreeMap.isEmpty_iff]
    apply eq_empty_of_getElem?
    intro hash
    -- An entry left in the map would have a connected owner.
    rcases h : (s.finalized p state).mapBlocksInFlight[hash]? with _ | ⟨p', it⟩
    · rfl
    · obtain ⟨state', q, hp', -⟩ := (hinv.link hash p' it).mp h
      rw [state?, hempty] at hp'
      exact absurd hp' (by simp)
  · intro hash p' it _ h
    exact ((inFlight_finalized hs hp ..).mp h).2
  · intro p' state' it hp' _ hc _ h
    refine ⟨state', ?_, rfl, hc, rfl⟩
    rw [state?_finalized, if_neg ((inFlight_finalized hs hp ..).mp h).1, hp']

end NetState

end DefcoinCore.NetProcessing
