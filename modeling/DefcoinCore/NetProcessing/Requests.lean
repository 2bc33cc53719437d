import DefcoinCore.NetProcessing.Messages

/-!
# What the handlers request

For a connected peer each handler keeps the invariant of the block-download table, and stops at most
at a null block. What it requests differs.

* `SendMessages` and the direct fetch request blocks that were not in flight, each under an entry
  that they made themselves (`Requested`); the block offered to UDP is not among them.
* `CMPCTBLOCK` and `BLOCKTXN` ask whether the block is in flight, and request it again if it is
  (`processCmpctBlock_sent`, `processBlockTxn_sent`): they do not tell why it is in flight.
-/

namespace DefcoinCore.NetProcessing

open List

namespace NetState

variable {s : NetState} {ctx : Ctx} {p : NodeId} {state : CNodeState}

/-- The blocks of `v` are in flight from `p` under entries made since `n`. -/
def Requested (s : NetState) (n : Iter) (p : NodeId) (v : List Uint256) : Prop :=
  ∀ hash ∈ v, ∃ it, n ≤ it ∧ s.InFlight hash p it

/-- What the loops over blocks to request keep: the blocks still to come are distinct and not in
flight, those of `v` are requested. -/
structure Requesting (n : Iter) (p : NodeId) (s : NetState) (rest v : List Uint256) : Prop where
  inv : Inv s
  connected : ∃ state, s.state? p = some state
  bound : n ≤ s.nextIter
  nodup : rest.Nodup
  fresh : ∀ x ∈ rest, s.mapBlocksInFlight[x]? = none
  requested : s.Requested n p v

variable {n it : Iter} {rest v : List Uint256} {q : QueuedBlock} {hash : Uint256}

/-- One round: the next block is put into the peer's queue and among the requested ones. -/
theorem Requesting.mark {x : Uint256} (h : Requesting n p s (x :: rest) v)
    (hp : s.state? p = some state) (now : Nat) :
    ∃ s' state', s.markBlockAsInFlight now p x (some x) false = .ok (true, s') ∧ Follows s s' ∧
      Requesting n p s' rest (v ++ [x]) ∧ s'.state? p = some state' ∧
      state'.hashFastSyncPendingBlock = state.hashFastSyncPendingBlock ∧
        s'.InFlight x p s.nextIter ∧
      ∀ hash it, x ≠ hash → s.InFlight hash p it → s'.InFlight hash p it := by
  have hnone := h.fresh x mem_cons_self
  have hf := addInFlight_follows h.inv now hp (q := ⟨x, some x, true, false⟩) rfl hnone
  have hnodup := nodup_cons.mp h.nodup
  have hin := inFlight_addInFlight s now p p state ⟨x, some x, true, false⟩
  have hnew := (hin x s.nextIter).mpr (.inl ⟨rfl, rfl, rfl⟩)
  refine ⟨_, _, markBlockAsInFlight_fresh hp now hnone (some x) false, hf,
    ⟨hf.inv, hf.state hp, h.bound.trans (Nat.le_succ _), hnodup.2, fun y hy => ?_,
      forall_mem_append.mpr ⟨fun hash hmem => ?_, forall_mem_singleton.mpr ⟨_, h.bound, hnew⟩⟩⟩,
    (state?_addInFlight ..).trans (if_pos rfl), rfl, hnew,
    fun hash it hne hit => (hin hash it).mpr (.inr ⟨hne, hit⟩)⟩
  · rw [addInFlight, StdMap.getElem?_insert, if_neg (ne_of_mem_of_not_mem hy hnodup.1).symm]
    exact h.fresh y (mem_cons_of_mem x hy)
  · obtain ⟨it, hle, hit⟩ := h.requested hash hmem
    refine ⟨it, hle, (hin hash it).mpr (.inr ⟨?_, hit⟩)⟩
    rintro rfl
    cases hnone.symm.trans hit

/-- A write to the peer's state outside its queue changes nothing for the loops. -/
theorem Requesting.setState (h : Requesting n p s rest v) {p' : NodeId} {state' : CNodeState}
    (hf : Follows s (s.setState p' state')) :
    Requesting n p (s.setState p' state') rest v := by
  obtain ⟨state, hp⟩ := h.connected
  exact ⟨hf.inv, hf.state hp, h.bound, h.nodup, h.fresh, h.requested⟩

/-! ## `SendMessages` -/

/-- The loop of `SendMessages`: what it requests was not in flight, and it does not request the
block that it offers to UDP. -/
theorem sendLoop_spec (ctx : Ctx) (n : Iter) (canOffer : Bool) (l : List Uint256) :
    ∀ (s : NetState) (offered : Option Uint256) (v : List Uint256), Requesting n p s l v →
      (∀ hash, offered = some hash → hash ∉ v ∧ hash ∉ l ∧ ∃ it, s.InFlight hash p it) →
      (canOffer → offered = none → ∀ state, s.state? p = some state →
        state.hashFastSyncPendingBlock = 0) →
      Returns (sendLoop ctx p canOffer l s offered v)
        fun r => Follows s r.2 ∧ r.2.Requested n p r.1.2 ∧
          ∀ hash, r.1.1 = some hash → hash ∉ r.1.2 ∧ ∃ it, r.2.InFlight hash p it := by
  induction l with
  | nil =>
    intro s offered v h hoff _
    exact ⟨.refl h.inv, h.requested, fun hash heq => ⟨(hoff hash heq).1, (hoff hash heq).2.2⟩⟩
  | cons x l ih =>
    intro s offered v h hoff hpend
    obtain ⟨state, hp⟩ := h.connected
    obtain ⟨s1, state1, hmark, hf, hadd, hp1, hpend1, hin, hold⟩ := h.mark hp ctx.now
    have hnotin : x ∉ v := by
      intro hmem
      obtain ⟨it, -, hit⟩ := h.requested x hmem
      cases (h.fresh x mem_cons_self).symm.trans hit
    unfold sendLoop
    by_cases hwin : canOffer ∧ offered = none
    · -- The block is offered to UDP.
      have hpend0 := hpend1.trans (hpend hwin.1 hwin.2 state hp)
      have hoffer : Follows s1 (s1.setState p (state1.offerFastSync ctx x)) :=
        setState_follows hf.inv hp1 ⟨rfl, rfl, rfl⟩ (fun _ => ⟨s.nextIter, hin⟩)
          fun hne => absurd hpend0 hne
      have hreq : Requesting n p s1 l v :=
        ⟨hadd.inv, hadd.connected, hadd.bound, hadd.nodup, hadd.fresh,
          fun hash hmem => hadd.requested hash (mem_append_left _ hmem)⟩
      have hnext := ih (s1.setState p (state1.offerFastSync ctx x)) (some x) v
        (hreq.setState hoffer) (by
          rintro hash ⟨⟩
          exact ⟨hnotin, (nodup_cons.mp h.nodup).1, s.nextIter, hin⟩) nofun
      rw [if_pos hwin, hmark]
      simp only [bind, Except.bind, state_eq_ok_iff.mpr hp1, if_true]
      exact hnext.imp (fun r hr => ⟨(hf.trans hoffer).trans hr.1, hr.2⟩)
    · rw [if_neg hwin]
      simp only [bind, Except.bind, Bool.false_eq_true, if_false]
      split_ifs with hdis
      · exact ⟨.refl h.inv, h.requested, fun hash heq => ⟨(hoff hash heq).1, (hoff hash heq).2.2⟩⟩
      · -- The block is requested over TCP.
        rw [hmark]
        have hnext := ih s1 offered (v ++ [x]) hadd (by
            intro hash heq
            obtain ⟨hv, hl, it, hit⟩ := hoff hash heq
            rw [mem_cons, not_or] at hl
            refine ⟨?_, hl.2, it, hold hash it (Ne.symm hl.1) hit⟩
            rw [mem_append, mem_singleton, not_or]
            exact ⟨hv, hl.1⟩)
          (fun hc ho => absurd ⟨hc, ho⟩ hwin)
        exact hnext.imp (fun r hr => ⟨hf.trans hr.1, hr.2⟩)

/-- Blocks of rising heights are distinct. -/
theorem nodup_of_rising (h : v.Pairwise fun a b =>
    (ctx.tree.node a).nHeight < (ctx.tree.node b).nHeight) :
    v.Nodup :=
  h.imp fun {a b} hlt heq => by rw [heq] at hlt; exact Nat.lt_irrefl _ hlt

variable (hs : Inv s) (hp : s.state? p = some state)

include hs hp

/-- Marking the peer that stalls the window keeps the invariant, when that peer is connected. -/
theorem markStaller_follows (ctx : Ctx) {staller : NodeId}
    (hst : staller ≠ -1 → ∃ state, s.state? staller = some state) :
    Returns (s.markStaller ctx p staller)
      fun s' => Follows s s' ∧ s'.mapBlocksInFlight = s.mapBlocksInFlight := by
  unfold markStaller
  rw [state_eq_ok_iff.mpr hp]
  simp only [bind, Except.bind, pure, Except.pure]
  split_ifs with hidle
  · obtain ⟨stalling, hstalling⟩ := hst hidle.2
    rw [state_eq_ok_iff.mpr hstalling]
    simp only
    split_ifs
    · exact ⟨setState_unread hs hstalling ⟨rfl, rfl, rfl⟩ rfl rfl rfl, rfl⟩
    · exact ⟨.refl hs, rfl⟩
  · exact ⟨.refl hs, rfl⟩

/-- The block part of `SendMessages`. -/
theorem sendMessagesBlocks_spec (flags : SendFlags) :
    Ensures (s.sendMessagesBlocks ctx p flags)
      (fun r => Follows s r.2 ∧
        (∀ m ∈ r.1.2, m.peer = p ∧ r.1.1 ≠ some m.hash ∧
          ∃ it, s.nextIter ≤ it ∧ r.2.InFlight m.hash p it) ∧
        ∀ hash, r.1.1 = some hash → ∃ it, r.2.InFlight hash p it)
      (· = .nullBlock) := by
  refine (expireFastSyncPendingBlock_spec hs hp ctx.now).or_error.bind ?_
  rintro ⟨b, s1⟩ ⟨hf1, hiter, -⟩
  obtain ⟨state1, hp1⟩ := hf1.state hp
  simp only [ok_bind, state_eq_ok_iff.mpr hp1]
  split_ifs with hwants
  swap
  · exact ⟨hf1, by simp, by simp⟩
  refine (findNextBlocksToDownload_spec ctx _ hp1).bind ?_
  rintro ⟨v, staller, s2⟩ ⟨hdown, state2, hrefresh, rfl⟩
  have hf2 := setState_refreshed_follows hf1.inv hp1 hrefresh
  have hp2 := s1.state?_setState_self p state2
  simp only [ok_bind, state_eq_ok_iff.mpr hp2]
  generalize hv' : (if ctx.disableCoreTcpBlockRequests ∧
    ¬ state2.canOffer ctx flags then [] else v) = v'
  -- What the loop starts from: distinct blocks that are not in flight.
  have hsub : ∀ x ∈ v', x ∈ v := by
    intro x hx
    rw [← hv'] at hx
    split_ifs at hx
    · cases hx
    · exact hx
  have hnodup : v'.Nodup := by
    rw [← hv']
    split_ifs
    · exact nodup_nil
    · exact nodup_of_rising hdown.rising
  have hreq : Requesting s.nextIter p (s1.setState p state2) v' [] := by
    refine ⟨hf2.inv, ⟨state2, hp2⟩, hiter.ge, hnodup, ?_, fun hash hmem => absurd hmem (by simp)⟩
    intro x hx
    exact (hdown.eligible x (hsub x hx)).1.notInFlight
  have hloop := sendLoop_spec ctx s.nextIter (state2.canOffer ctx flags) v'
    (s1.setState p state2) none [] hreq (by simp) fun hc _ state hstate => by
      rw [hp2, Option.some.injEq] at hstate
      rw [← hstate]
      simp only [CNodeState.canOffer, Bool.and_eq_true, decide_eq_true_eq] at hc
      exact hc.2
  refine (hloop.or_error).bind ?_
  rintro ⟨⟨offered, vGetData⟩, s3⟩ ⟨hf3, hrequested, hoffered⟩
  obtain ⟨state3, hp3⟩ := hf3.state hp2
  -- The staller owns a block in flight, so it is connected.
  have hst : staller ≠ -1 → ∃ state, s3.state? staller = some state := by
    intro hne
    obtain ⟨hash, it, hin⟩ := hdown.staller hne
    obtain ⟨st, q, hst, -⟩ := hf1.inv.entry hin
    exact (hf2.trans hf3).state hst
  refine ((markStaller_follows hf3.inv hp3 ctx hst).or_error).bind ?_
  rintro s4 ⟨hf4, hmap⟩
  have hin4 : ∀ hash p' it, s4.InFlight hash p' it ↔ s3.InFlight hash p' it := by
    intro hash p' it
    rw [InFlight, InFlight, hmap]
  refine ⟨((hf1.trans hf2).trans hf3).trans hf4, ?_, ?_⟩
  · intro m hm
    obtain ⟨hash, hmem, rfl⟩ := mem_map.mp hm
    obtain ⟨it, hle, hin⟩ := hrequested hash hmem
    exact ⟨rfl, fun heq => (hoffered hash heq).1 hmem, it, hle, (hin4 ..).mpr hin⟩
  · intro hash heq
    obtain ⟨-, it, hin⟩ := hoffered hash heq
    exact ⟨it, (hin4 ..).mpr hin⟩

/-! ## The direct fetch -/

omit hs hp in
/-- The walk collects blocks of falling heights that are not in flight. -/
theorem directFetchWalk_spec (s : NetState) (ctx : Ctx) (state : CNodeState) (fuel : Nat)
    (walk : Option Uint256) (v : List Uint256)
    (hv : v.Pairwise fun a b => (ctx.tree.node b).nHeight < (ctx.tree.node a).nHeight)
    (hmem : ∀ a ∈ v, s.mapBlocksInFlight[a]? = none ∧
      ∀ w, walk = some w → (ctx.tree.node w).nHeight < (ctx.tree.node a).nHeight) :
    let r := s.directFetchWalk ctx state fuel walk v
    r.1.Pairwise (fun a b => (ctx.tree.node b).nHeight < (ctx.tree.node a).nHeight) ∧
      ∀ a ∈ r.1, s.mapBlocksInFlight[a]? = none := by
  induction fuel generalizing walk v with
  | zero => rcases walk <;> exact ⟨hv, fun a ha => (hmem a ha).1⟩
  | succ fuel ih =>
    rcases walk with _ | w
    · exact ⟨hv, fun a ha => (hmem a ha).1⟩
    unfold directFetchWalk
    split_ifs with hgo
    swap
    · exact ⟨hv, fun a ha => (hmem a ha).1⟩
    -- The parent of `w` is lower than `w`.
    have hprev : ∀ w', (ctx.tree.node w).pprev = some w' →
        (ctx.tree.node w').nHeight < (ctx.tree.node w).nHeight := by
      intro w' hw'
      have := ctx.tree.height_child w w' hw'
      omega
    have hlower := fun a ha w' hw' => (hprev w' hw').trans ((hmem a ha).2 w rfl)
    simp only
    split_ifs with hwant
    · refine ih _ _ (pairwise_append.mpr ⟨hv, pairwise_singleton _ _, fun a ha => ?_⟩)
        (forall_mem_append.mpr ⟨fun a ha => ⟨(hmem a ha).1, hlower a ha⟩, ?_⟩)
      · exact forall_mem_singleton.mpr ((hmem a ha).2 w rfl)
      · exact forall_mem_singleton.mpr ⟨hwant.2.1, hprev⟩
    · exact ih _ _ hv fun a ha => ⟨(hmem a ha).1, hlower a ha⟩

omit hs hp in
/-- The loop of the direct fetch requests blocks that were not in flight. -/
theorem directFetchLoop_spec (ctx : Ctx) (n : Iter) (l : List Uint256) :
    ∀ (s : NetState) (v : List Uint256), Requesting n p s l v →
      Returns (directFetchLoop ctx p l s v) fun r => Follows s r.2 ∧ r.2.Requested n p r.1 := by
  induction l with
  | nil => exact fun s v h => ⟨.refl h.inv, h.requested⟩
  | cons x l ih =>
    intro s v h
    obtain ⟨state, hp⟩ := h.connected
    obtain ⟨s1, state1, hmark, hf, hadd, -⟩ := h.mark hp ctx.now
    unfold directFetchLoop
    simp only [bind, Except.bind, pure, Except.pure, state_eq_ok_iff.mpr hp]
    split_ifs with hfull
    · exact ⟨.refl h.inv, h.requested⟩
    · rw [hmark]
      exact (ih _ _ hadd).imp (fun r hr => ⟨hf.trans hr.1, hr.2⟩)

/-- The end of `ProcessHeadersMessage`. -/
theorem processHeaders_spec (pindexLast : Uint256) :
    Ensures (s.processHeaders ctx p pindexLast)
      (fun r => Follows s r.2 ∧ ∀ m ∈ r.1, m.peer = p ∧
        ∃ it, s.nextIter ≤ it ∧ r.2.InFlight m.hash p it)
      (· = .nullBlock) := by
  have hf := setState_refreshed_follows hs hp
    (updateBlockAvailability_refreshed ctx state pindexLast)
  have hp1 := s.state?_setState_self p (state.updateBlockAvailability ctx pindexLast)
  unfold processHeaders
  rw [state_eq_ok_iff.mpr hp, ok_bind]
  dsimp only
  generalize state.updateBlockAvailability ctx pindexLast = state1 at hf hp1 ⊢
  generalize hs1 : s.setState p state1 = s1 at hf hp1 ⊢
  have hiter : s1.nextIter = s.nextIter := by rw [← hs1]; rfl
  rcases ctx.tipChainWork with _ | tipWork
  · exact rfl
  simp only
  split_ifs with hfetch
  swap
  · exact ⟨hf, by simp⟩
  obtain ⟨hfall, hfresh⟩ := directFetchWalk_spec s1 ctx state1
    ((ctx.tree.node pindexLast).nHeight + 1) (some pindexLast) [] List.Pairwise.nil (by simp)
  rcases hwalk : s1.directFetchWalk ctx state1 ((ctx.tree.node pindexLast).nHeight + 1)
    (some pindexLast) [] with ⟨v, walk⟩
  rw [hwalk] at hfall hfresh
  rcases walk with _ | walk
  · exact rfl
  simp only
  split_ifs with hactive
  swap
  · exact ⟨hf, by simp⟩
  have hnodup : v.reverse.Nodup := nodup_of_rising (pairwise_reverse.mpr hfall)
  have hreq : Requesting s.nextIter p s1 v.reverse [] :=
    ⟨hf.inv, ⟨state1, hp1⟩, hiter.ge, hnodup, fun x hx => hfresh x (mem_reverse.mp hx),
      fun hash hmem => absurd hmem (by simp)⟩
  have hloop := directFetchLoop_spec ctx s.nextIter v.reverse s1 [] hreq
  refine (hloop.or_error).bind ?_
  rintro ⟨vGetData, s2⟩ ⟨hf2, hrequested⟩
  obtain ⟨state2, hp2⟩ := hf2.state hp1
  refine Ensures.bind (Q := fun _ => True) ?_ fun compact _ =>
    ⟨hf.trans hf2, forall_mem_map.mpr fun hash hmem => ⟨rfl, hrequested hash hmem⟩⟩
  -- Only the parent of the last header can be missing.
  unfold directFetchCompact
  rw [state_eq_ok_iff.mpr hp2, ok_bind]
  split_ifs
  · rcases (ctx.tree.node pindexLast).pprev with _ | prev
    · exact rfl
    · exact trivial
  · exact trivial

/-! ## Compact blocks -/

/-- Attaching a partial block to a queue entry changes nothing that the table reads. -/
theorem attachPartial_follows (it : Iter) : Follows s (s.attachPartial p state it) := by
  refine setState_unread hs hp ⟨?_, rfl, rfl⟩ rfl rfl rfl
  rw [map_map]
  refine map_congr_left fun e _ => ?_
  simp only [Function.comp_apply]
  split_ifs <;> rfl

omit hp in
/-- The entry of a block in flight can be dereferenced. -/
theorem derefEntry_of_inFlight (h : s.InFlight hash p it) :
    ∃ state q, s.derefEntry p it = .ok (state, q) ∧ s.state? p = some state ∧
      state.entry? it = some q := by
  obtain ⟨state, q, hp, hentry, -⟩ := hs.entry h
  refine ⟨state, q, ?_, hp, hentry⟩
  unfold derefEntry
  rw [hp]
  simp only
  rw [hentry]

/-- The block is in flight from the peer with a partial block attached. -/
def PartialAttached (s : NetState) (hash : Uint256) (p : NodeId) : Prop :=
  ∃ it state q, s.InFlight hash p it ∧ s.state? p = some state ∧ state.entry? it = some q ∧
    q.partialBlock

omit hs hp in
/-- There is one entry for a block in flight. -/
theorem partialAttached_iff {owner : NodeId} (hin : s.InFlight hash owner it)
    (hp : s.state? owner = some state) (hentry : state.entry? it = some q) :
    s.PartialAttached hash p ↔ owner = p ∧ q.partialBlock := by
  constructor
  · rintro ⟨it', state', q', hin', hp', hq', hpart⟩
    obtain ⟨rfl, rfl⟩ := Prod.mk.inj (Option.some.inj (hin.symm.trans hin'))
    rw [hp, Option.some.injEq] at hp'
    rw [← hp', hentry, Option.some.injEq] at hq'
    exact ⟨rfl, hq' ▸ hpart⟩
  · rintro ⟨rfl, hq⟩
    exact ⟨it, state, q, hin, hp, hentry, hq⟩

/-- `startPartial` gives up exactly when a partial block is attached already; otherwise the old
entries for the block are the same. -/
theorem startPartial_spec (ctx : Ctx) (b : Uint256) :
    Returns (s.startPartial ctx p b)
      fun r => (r = none ↔ s.PartialAttached b p) ∧ ∀ s', r = some s' → Follows s s' ∧
        ∀ it, it < s.nextIter → (s'.InFlight b p it ↔ s.InFlight b p it) := by
  refine (markBlockAsInFlight_spec hs hp ctx.now b (some b) true).bind ?_
  rintro ⟨marked, s1⟩ ⟨hf, hfalse, htrue⟩
  rcases marked
  · -- In flight from this peer before.
    obtain ⟨rfl, it, hin⟩ := hfalse rfl
    obtain ⟨state1, q, hderef, hp1, hentry⟩ := derefEntry_of_inFlight hs hin
    have hpart : s1.PartialAttached b p ↔ q.partialBlock :=
      (partialAttached_iff hin hp1 hentry).trans (and_iff_right rfl)
    have hin' : s1.mapBlocksInFlight[b]? = some (p, it) := hin
    simp only [Bool.false_eq_true, if_false, hin', hderef, ok_bind]
    split_ifs with hq
    · exact ⟨by simp [hpart, hq], by simp⟩
    · refine ⟨by simp [hpart, hq], ?_⟩
      rintro s' ⟨⟩
      exact ⟨attachPartial_follows hs hp1 it, fun it' _ => inFlight_setState ..⟩
  · obtain ⟨hnot, -, hin⟩ := htrue rfl
    simp only [if_true]
    refine ⟨⟨nofun, fun ⟨it, _, _, hit, _⟩ => (hnot it hit).elim⟩, ?_⟩
    · rintro s' ⟨⟩
      refine ⟨hf, fun it hlt => ?_⟩
      rw [hin]
      constructor
      · rintro (⟨-, -, rfl⟩ | ⟨hne, -⟩)
        · exact absurd hlt (Nat.lt_irrefl _)
        · exact absurd rfl hne
      · exact fun hit => (hnot it hit).elim

/-- What a handler does with a block `b` announced by `p`: it keeps the invariant, it requests no
other block, and where it requests `b` the old entries for `b` are as before. -/
structure Answers (s : NetState) (p : NodeId) (b : Uint256) (sent : List Sent) (s' : NetState) :
    Prop where
  follows : Follows s s'
  only : ∀ m ∈ sent, m.peer = p ∧ m.hash = b
  entries : sent ≠ [] → ∀ it, it < s.nextIter → (s'.InFlight b p it ↔ s.InFlight b p it)

omit hs hp in
theorem Answers.silent {s' : NetState} (hf : Follows s s') : s.Answers p hash [] s' :=
  ⟨hf, by simp, by simp⟩

/-- The part of the handler of `CMPCTBLOCK` for a block that gets a partial block. -/
theorem syncCmpctBlock_spec (ctx : Ctx) (b : Uint256) (status : ReadStatus) (missing : Bool) :
    Returns (s.syncCmpctBlock ctx p b status missing)
      fun r => s.Answers p b r.1.1 r.2 ∧
        (r.1.1 = [] ↔ s.PartialAttached b p ∨ status = .invalid ∨
          (status ≠ .failed ∧ missing = false)) := by
  have hstart := startPartial_spec hs hp ctx b
  unfold syncCmpctBlock
  simp only [bind, Except.bind, pure, Except.pure]
  rcases hrun : s.startPartial ctx p b with e | r
  · exact (hstart.of_error hrun).elim
  obtain ⟨hnone, hsome⟩ := hstart.of_ok hrun
  rcases r with _ | s'
  · exact ⟨.silent (.refl hs), by simp [hnone.mp rfl]⟩
  obtain ⟨hf, hentries⟩ := hsome s' rfl
  have hnot : ¬ s.PartialAttached b p := fun h => absurd (hnone.mpr h) (by simp)
  have hsent : ∀ kind, s.Answers p b [⟨p, kind, b⟩] s' :=
    fun kind => ⟨hf, by simp, fun _ => hentries⟩
  rcases status
  · rcases missing
    · exact ⟨.silent hf, by simp⟩
    · exact ⟨hsent _, by simp [hnot]⟩
  · exact (markBlockAsReceived_spec hf.inv ctx.now b (some p)).bind fun _ hr =>
      ⟨.silent (hf.trans hr.1), by simp⟩
  · exact ⟨hsent _, by simp [hnot]⟩
  · rcases missing
    · exact ⟨.silent hf, by simp⟩
    · exact ⟨hsent _, by simp [hnot]⟩

/-- A compact block that is in flight from its sender makes the handler send nothing: we have the
block or no TCP request is allowed; or the block is better than our tip and was never downloaded,
and it is ignored for its version, or it is close to the tip and is being synced already, is
invalid, or is complete. -/
def CmpctQuiet (s : NetState) (ctx : Ctx) (p : NodeId) (b : Uint256) (status : ReadStatus)
    (missing : Bool) : Prop :=
  (ctx.tree.node b).haveData ∨ ctx.disableCoreTcpBlockRequests ∨
    ((∀ tipWork, ctx.tipChainWork = some tipWork → tipWork < (ctx.tree.node b).nChainWork) ∧
      (ctx.tree.node b).nTx = 0 ∧ ∀ state, s.state? p = some state →
        (ctx.isWitnessEnabled (ctx.tree.node b).pprev ∧ state.fWantsCmpctWitness = false) ∨
        (ctx.isMWEBEnabled (ctx.tree.node b).pprev ∧ state.fWantsCmpctMWEB = false) ∨
        (((ctx.tree.node b).nHeight : Int) ≤ ctx.chainActive.height + 2 ∧
          (s.PartialAttached b p ∨ status = .invalid ∨ (status ≠ .failed ∧ missing = false))))

/-- The handler of `CMPCTBLOCK` answers. When the announced block is in flight from the peer, it
sends nothing exactly under `CmpctQuiet`. -/
theorem processCmpctBlock_spec (b : Uint256) (status : ReadStatus) (missing : Bool) :
    Ensures (s.processCmpctBlock ctx p b status missing)
      (fun r => s.Answers p b r.1.1 r.2 ∧
        ∀ it, s.InFlight b p it → (r.1.1 = [] ↔ s.CmpctQuiet ctx p b status missing))
      (· = .nullBlock) := by
  have hr := updateBlockAvailability_refreshed ctx state b
  unfold processCmpctBlock
  simp only [bind, Except.bind, pure, Except.pure, state_eq_ok_iff.mpr hp]
  generalize state.updateBlockAvailability ctx b = state1 at hr ⊢
  have hf := setState_refreshed_follows hs hp hr
  have hp1 := s.state?_setState_self p state1
  have hquiet : ∀ sent, (∀ m ∈ sent, m.peer = p ∧ m.hash = b) →
    s.Answers p b sent (s.setState p state1) :=
    fun sent hsent => ⟨hf, hsent, fun _ it _ => inFlight_setState ..⟩
  have hnothing := hquiet [] (by simp)
  obtain ⟨best, unknown, common, hstate1⟩ := hr
  rcases htip : ctx.tipChainWork with _ | tipWork
  · exact rfl
  -- The gates in the order of the source.
  refine .ite (fun hdata => ⟨hnothing, fun _ _ => by simp [CmpctQuiet, hdata]⟩) fun hdata => ?_
  refine .ite (fun hdis => ⟨hnothing, fun _ _ => by simp [CmpctQuiet, hdis]⟩) fun hdis => ?_
  have hmap : (s.setState p state1).mapBlocksInFlight = s.mapBlocksInFlight := rfl
  have hpart : (s.setState p state1).PartialAttached b p ↔ s.PartialAttached b p := by
    unfold PartialAttached CNodeState.entry?
    simp only [hp1, hp, Option.some.injEq, exists_and_left, exists_eq_left', inFlight_setState]
    rw [hstate1]
  rw [hmap]
  refine .ite (fun hwork => ?_) fun hwork => ?_
  · refine ⟨hquiet _ (by split_ifs <;> simp), ?_⟩
    intro it hin
    rw [InFlight] at hin
    have hloud : ¬ s.CmpctQuiet ctx p b status missing := by
      rintro (h | h | ⟨h, htx, -⟩)
      · exact hdata h
      · exact hdis h
      · have := h tipWork htip
        rcases hwork with hw | hw
        · omega
        · exact hw htx
    simp [hin, hloud]
  rw [not_or, not_le, not_not] at hwork
  -- What is left of the condition after the first gates.
  have hleft : s.CmpctQuiet ctx p b status missing ↔
      (ctx.isWitnessEnabled (ctx.tree.node b).pprev ∧ ¬ state1.fWantsCmpctWitness) ∨
      (ctx.isMWEBEnabled (ctx.tree.node b).pprev ∧ ¬ state1.fWantsCmpctMWEB) ∨
      (((ctx.tree.node b).nHeight : Int) ≤ ctx.chainActive.height + 2 ∧
        (s.PartialAttached b p ∨ status = .invalid ∨ (status ≠ .failed ∧ missing = false))) := by
    simp only [CmpctQuiet, hstate1, hdata, hdis, htip, hp, hwork, Option.some.injEq, forall_eq',
      Bool.not_eq_true, Bool.false_eq_true, false_or, true_and]
  refine .ite (fun hfar => ⟨hnothing, fun it hin => ?_⟩) fun hfar => ?_
  · rw [hin] at hfar
    cases hfar.1
  refine .ite (fun hv1 => ⟨hnothing, fun _ _ => ⟨fun _ => hleft.mpr (.inl hv1), fun _ => rfl⟩⟩)
    fun hv1 => ?_
  refine .ite
    (fun hv2 => ⟨hnothing, fun _ _ => ⟨fun _ => hleft.mpr (.inr (.inl hv2)), fun _ => rfl⟩⟩)
    fun hv2 => ?_
  refine .ite (fun hnear => .ite (fun hslot => ?_) fun hslot => ⟨hnothing, fun it hin => ?_⟩)
    fun hnear =>
    .ite (fun hin => ?_) fun hin => ⟨hnothing, fun it hit => ?_⟩
  · refine (syncCmpctBlock_spec hf.inv hp1 ctx b status missing).or_error.imp ?_
    rintro ⟨⟨sent, next⟩, s'⟩ ⟨hans, hsent⟩
    refine ⟨⟨hf.trans hans.follows, hans.only, hans.entries⟩, fun it _ => ?_⟩
    rw [hleft, hsent, hpart]
    simp only [hv1, hv2, hnear, false_or, true_and]
  · rw [hin] at hslot
    exact absurd (Or.inr rfl) hslot
  · refine ⟨hquiet _ (by simp), fun it _ => ⟨nofun, ?_⟩⟩
    rw [hleft]
    rintro (h | h | ⟨h, -⟩)
    · exact absurd h hv1
    · exact absurd h hv2
    · exact absurd h hnear
  · rw [hit] at hin
    exact absurd rfl hin

/-- A `BLOCKTXN` for a block in flight from its sender makes the handler send nothing: no partial
block is attached, the block could be filled or is invalid, or no TCP request is allowed. -/
def BlockTxnQuiet (s : NetState) (ctx : Ctx) (p : NodeId) (hash : Uint256) (status : ReadStatus) :
    Prop :=
  ¬ s.PartialAttached hash p ∨ status ≠ .failed ∨ ctx.disableCoreTcpBlockRequests

omit hp in
/-- The handler of `BLOCKTXN` answers. When the block is in flight from the peer, it sends nothing
exactly under `BlockTxnQuiet`. -/
theorem processBlockTxn_spec (hash : Uint256) (status : ReadStatus) :
    Returns (s.processBlockTxn ctx p hash status)
      fun r => s.Answers p hash r.1.1 r.2 ∧
        ∀ it, s.InFlight hash p it → (r.1.1 = [] ↔ s.BlockTxnQuiet ctx p hash status) := by
  have hnothing : s.Answers p hash [] s := .silent (.refl hs)
  unfold processBlockTxn
  rcases hin : s.mapBlocksInFlight[hash]? with _ | ⟨owner, it⟩
  · refine ⟨hnothing, fun it hit => ?_⟩
    rw [InFlight, hin] at hit
    cases hit
  obtain ⟨state, q, hderef, hp, hentry⟩ := derefEntry_of_inFlight hs hin
  -- The entry that the handler looks at is the one in flight from its owner.
  have hpart : s.PartialAttached hash p ↔ owner = p ∧ q.partialBlock :=
    partialAttached_iff hin hp hentry
  simp only [bind, Except.bind, pure, Except.pure, hderef]
  refine .ite (fun hskip => ⟨hnothing, fun it' hit => ⟨fun _ => .inl ?_, fun _ => rfl⟩⟩)
    fun hskip => ?_
  · rw [hpart]
    rintro ⟨hown, hq⟩
    exact hskip.elim (· hq) (· hown)
  rw [not_or, not_not, not_not] at hskip
  obtain ⟨hq, rfl⟩ := hskip
  have hrec := markBlockAsReceived_spec hs ctx.now hash (some owner)
  rcases status
  · exact hrec.bind fun _ hr => ⟨.silent hr.1, fun _ _ => by simp [BlockTxnQuiet]⟩
  · exact hrec.bind fun _ hr => ⟨.silent hr.1, fun _ _ => by simp [BlockTxnQuiet]⟩
  · by_cases hdis : ctx.disableCoreTcpBlockRequests
    · simp only [hdis, if_true]
      exact ⟨hnothing, fun _ _ => by simp [BlockTxnQuiet, hdis]⟩
    · simp only [hdis, Bool.false_eq_true, if_false]
      exact ⟨⟨.refl hs, by simp, fun _ _ _ => Iff.rfl⟩,
        fun _ _ => by simp [BlockTxnQuiet, hdis, hpart, hq]⟩
  · exact hrec.bind fun _ hr => ⟨.silent hr.1, fun _ _ => by simp [BlockTxnQuiet]⟩

end NetState

end DefcoinCore.NetProcessing
