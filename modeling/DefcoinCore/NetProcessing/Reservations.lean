import DefcoinCore.NetProcessing.FastSync

/-!
# Which blocks Fast Sync reserves

`reserveFastSyncBlockInFlight_reservable` and `reserveNextFastSyncBlockInFlight_reservable_iff` say
which blocks are reserved. `ReserveFastSyncBlockInFlight` applies every gate of the TCP scheduler.
`ReserveNextFastSyncBlockInFlight` does so when it asks `FindNextBlocksToDownload`; in its
starting-height fallback it does not ask whether the peer can serve the block. Both are statements
about every state.

The functions keep the invariant of the block-download table, and a successful reservation is a new
queue entry of the peer (`reserveBlock_follows` and the lemmas after it).
-/

namespace DefcoinCore.NetProcessing

open Except CNodeState

/-- The rules of normal scheduling for a new reservation of `b` from the peer `p`: the peer's UDP
transport is verified, it has room, the block is eligible and the peer can serve it. -/
def Reservable (ctx : Ctx) (s : NetState) (p : NodeId) (b : Uint256) : Prop :=
  ∃ state, s.state? p = some state ∧ state.fFastSyncUdpTransportVerified ∧
    state.nBlocksInFlight < fastSyncInFlightLimit ∧ Eligible ctx s b ∧ CanServe ctx state b

/-- The block index that passed the gates of `ReserveFastSyncBlockInFlight` is valid, and the peer
can serve it. -/
theorem fastSyncBlockAt_spec {ctx : Ctx} {state : CNodeState} {height : Int} {reason : String}
    {b : Uint256} (h : fastSyncBlockAt ctx state height reason = .ok b) :
    (ctx.tree.node b).isValid blockValidTree ∧ CanServe ctx state b := by
  unfold fastSyncBlockAt at h
  rcases hat : fastSyncIndexAt ctx state height reason with reason' | pindex
  · rw [hat] at h
    cases h
  rw [hat] at h
  simp only at h
  split_ifs at h with hvalid hwit hmweb
  cases h
  refine ⟨hvalid, ⟨?_, ?_⟩⟩
  · intro hw
    by_contra hno
    exact hwit ⟨hno, hw⟩
  · intro hm
    by_contra hno
    exact hmweb ⟨hno, hm⟩

namespace NetState

variable {s s' : NetState} {ctx : Ctx} {p : NodeId}

variable {b hashOut : Uint256} {reason reason' : String} {state : CNodeState}

theorem isMissing_iff (s : NetState) (ctx : Ctx) (b : Uint256) :
    s.isMissing ctx b ↔ (ctx.tree.node b).haveData = false ∧
      ctx.chainActive.contains ctx.tree b = false ∧ s.mapBlocksInFlight[b]? = none := by
  simp only [isMissing, decide_eq_true_eq, not_or, Bool.not_eq_true, Option.isSome_eq_false_iff,
    Option.isNone_iff_eq_none]

/-- A block that `reserveBlock` takes was missing. -/
theorem reserveBlock_isMissing (h : s.reserveBlock ctx p b = .ok ((true, reason), s')) :
    s.isMissing ctx b := by
  unfold reserveBlock at h
  split_ifs at h with hdata hin
  · cases h
  · cases h
  · rw [not_or, Bool.not_eq_true, Bool.not_eq_true] at hdata
    exact (isMissing_iff s ctx b).mpr ⟨hdata.1, hdata.2, by simpa using hin⟩

/-- A block that `reserveBlock` takes is added to the peer's queue. -/
theorem reserveBlock_eq_addInFlight (hp : s.state? p = some state)
    (h : s.reserveBlock ctx p b = .ok ((true, reason), s')) :
    s' = s.addInFlight ctx.now p state ⟨b, some b, true, false⟩ := by
  obtain ⟨hdata, hactive, hnone⟩ := (isMissing_iff ..).mp (reserveBlock_isMissing h)
  unfold reserveBlock at h
  rw [markBlockAsInFlight_fresh hp ctx.now hnone] at h
  simp only [hdata, hactive, hnone, Bool.false_eq_true, or_self, if_false, Option.isSome_none,
    Option.isSome_some, bind, Except.bind, pure, Except.pure, not_true_eq_false, Except.ok.injEq,
    Prod.mk.injEq] at h
  exact h.2.symm

/-- A success of `ReserveFastSyncBlockInFlight` obeys every rule of normal scheduling. -/
theorem reserveFastSyncBlockInFlight_reservable {height : Int} {r : Reservation}
    (h : s.reserveFastSyncBlockInFlight ctx p height hashOut reason = .ok (r, s'))
    (hr : r.reserved) :
    Reservable ctx s p r.hashOut := by
  unfold reserveFastSyncBlockInFlight at h
  rcases hp : s.state? p with _ | state
  · rw [hp] at h
    cases h
    cases hr
  rw [hp] at h
  simp only at h
  split_ifs at h with hheight hverified hfull
  · cases h
    cases hr
  · cases h
    cases hr
  · have hrefresh := processBlockAvailability_refreshed ctx state
    generalize state.processBlockAvailability ctx = state1 at h hrefresh
    rcases hat : fastSyncBlockAt ctx state1 height reason with reason' | b
    · rw [hat] at h
      cases h
      cases hr
    rw [hat] at h
    obtain ⟨⟨⟨ok, reason'⟩, s1⟩, hres, h⟩ := bind_eq_ok_iff.mp h
    cases h
    simp only at hr
    rw [hr] at hres
    obtain ⟨hdata, hactive, hin⟩ := (isMissing_iff ..).mp (reserveBlock_isMissing hres)
    obtain ⟨hvalid, hserve⟩ := fastSyncBlockAt_spec hat
    exact ⟨state, hp, hverified, by omega, ⟨hvalid, hdata, hactive, hin⟩,
      (hrefresh.canServe ctx b).mp hserve⟩
  · cases h
    cases hr

/-! ### The next block -/

/-- Removing an entry leaves the verified flags alone. -/
theorem markBlockAsReceived_verified (s : NetState) (now : Nat) (hash : Uint256)
    (fromPeer : Option NodeId) (p : NodeId) :
    Ensures (s.markBlockAsReceived now hash fromPeer) (fun r =>
      (r.2.state? p).map fFastSyncUdpTransportVerified =
        (s.state? p).map fFastSyncUdpTransportVerified) fun _ => True := by
  unfold markBlockAsReceived
  rcases s.mapBlocksInFlight[hash]? with _ | ⟨owner, it⟩
  · exact rfl
  refine .ite (fun _ => rfl) fun _ => ?_
  rcases hp : s.state? owner with _ | state
  · trivial
  dsimp only
  rcases state.entry? it with _ | q
  · trivial
  refine (congrArg _ (state?_dropInFlight ..)).trans ?_
  split_ifs with hpp
  · rw [← hpp, hp]
    unfold dropEntry clearFastSyncPendingBlock
    dsimp only
    split_ifs <;> rfl
  · rfl

/-- The expiry of an offer leaves the verified flags alone. -/
theorem expireFastSyncPendingBlock_verified {now : Nat} {b : Bool} {state' : CNodeState}
    (h : s.expireFastSyncPendingBlock p now = .ok (b, s')) (hp : s.state? p = some state)
    (hp' : s'.state? p = some state') :
    state'.fFastSyncUdpTransportVerified = state.fFastSyncUdpTransportVerified := by
  unfold expireFastSyncPendingBlock at h
  rw [state_eq_ok_iff.mpr hp, ok_bind] at h
  split_ifs at h with hidle
  · cases h
    rw [Option.some.inj (hp.symm.trans hp')]
  obtain ⟨⟨b1, s1⟩, hrec, h⟩ := bind_eq_ok_iff.mp h
  obtain ⟨state1, hp1, h⟩ := bind_eq_ok_iff.mp h
  cases h
  have hv := (s.markBlockAsReceived_verified now _ _ p).of_ok hrec
  rw [state_eq_ok_iff.mp hp1, hp] at hv
  rw [state?_setState_self, Option.some.injEq] at hp'
  rw [← hp']
  exact Option.some.inj hv

/-- What a success of `ReserveNextFastSyncBlockInFlight` does after the expiry of an old offer: it
claims the pending offer, or takes a candidate through the last gates. -/
theorem reserveNextFastSyncBlockInFlight_reserved {r : NextReservation}
    (h : s.reserveNextFastSyncBlockInFlight ctx p hashOut reason = .ok (r, s'))
    (hr : r.reserved) :
    ∃ b s1 state1, s.expireFastSyncPendingBlock p ctx.now = .ok (b, s1) ∧
      s1.state? p = some state1 ∧
      ((state1.hashFastSyncPendingBlock ≠ 0 ∧ r.hashOut = state1.hashFastSyncPendingBlock ∧
          s' = s1.setState p { state1 with
            fFastSyncPendingClaimed := true
            nFastSyncPendingUntil := ctx.now + fastSyncUdpTransferTimeoutUs }) ∨
        ∃ reason' s2, state1.fFastSyncUdpTransportVerified ∧
          state1.hashFastSyncPendingBlock = 0 ∧ state1.nBlocksInFlight < fastSyncInFlightLimit ∧
          (s1.setState p (state1.processBlockAvailability ctx)).nextCandidate ctx p
            (state1.processBlockAvailability ctx) reason = .ok ((some r.hashOut, reason'), s2) ∧
          (ctx.tree.node r.hashOut).isValid blockValidTree ∧
          s2.reserveBlock ctx p r.hashOut = .ok ((true, r.reason), s')) := by
  unfold reserveNextFastSyncBlockInFlight at h
  rcases hp : s.state? p with _ | state
  · rw [hp] at h
    cases h
    cases hr
  rw [hp] at h
  simp only at h
  split_ifs at h with hver
  swap
  · cases h
    cases hr
  obtain ⟨⟨b, s1⟩, hexp, h⟩ := bind_eq_ok_iff.mp h
  obtain ⟨state1, hp1, h⟩ := bind_eq_ok_iff.mp h
  rw [state_eq_ok_iff] at hp1
  refine ⟨b, s1, state1, hexp, hp1, ?_⟩
  split_ifs at h with hpend hclaimed hfull
  · cases h
    cases hr
  · cases h
    exact .inl ⟨hpend, rfl, rfl⟩
  · cases h
    cases hr
  obtain ⟨⟨⟨c, reason'⟩, s2⟩, hcand, h⟩ := bind_eq_ok_iff.mp h
  rcases c with _ | pindex
  · cases h
    cases hr
  simp only at h
  split_ifs at h with hvalid
  swap
  · cases h
    cases hr
  obtain ⟨⟨⟨ok, reason''⟩, s3⟩, hres, h⟩ := bind_eq_ok_iff.mp h
  cases h
  obtain rfl : ok := hr
  exact .inr ⟨reason', s2, (expireFastSyncPendingBlock_verified hexp hp hp1).trans hver,
    not_not.mp hpend, by omega, hcand, hvalid, hres⟩

/-! ### The starting-height fallback -/

/-- The peer is one for which the next block is looked for in our own header chain: its best block
is unknown, or has less than the minimum chain work. -/
def UsesFallback (ctx : Ctx) (state : CNodeState) : Prop :=
  ∀ best, state.pindexBestKnownBlock = some best →
    (ctx.tree.node best).nChainWork < ctx.nMinimumChainWork

/-- `b` is the lowest missing block of the header chain in the fallback's window. -/
structure LowestMissing (s : NetState) (ctx : Ctx) (state : CNodeState) (height : Int)
    (b : Uint256) : Prop where
  low : nextHeight ctx ≤ height
  high : height ≤ fallbackMaxHeight ctx state
  /-- The block is the one of the header chain at that height. -/
  index : fastSyncHeaderFallbackIndex ctx state height = .ok b
  missing : s.isMissing ctx b
  /-- No lower block of the window is missing. -/
  lowest : ∀ height', nextHeight ctx ≤ height' → height' < height →
    ∃ b', fastSyncHeaderFallbackIndex ctx state height' = .ok b' ∧ s.isMissing ctx b' = false

/-- There is at most one lowest missing block. -/
theorem LowestMissing.unique {height height' : Int} {b' : Uint256}
    (h : LowestMissing s ctx state height b) (h' : LowestMissing s ctx state height' b') :
    b = b' := by
  have hle : ∀ {h1 h2 : Int} {b1 b2 : Uint256}, LowestMissing s ctx state h1 b1 →
      LowestMissing s ctx state h2 b2 → ¬ h1 < h2 := by
    intro h1 h2 b1 b2 hm1 hm2 hlt
    obtain ⟨b0, hidx, hnot⟩ := hm2.lowest h1 hm1.low hlt
    rw [hm1.index, ok.injEq] at hidx
    simp [← hidx, hm1.missing] at hnot
  have heq : height = height' := by
    have := hle h h'
    have := hle h' h
    omega
  have hidx := h.index
  rw [heq, h'.index, ok.injEq] at hidx
  exact hidx.symm

/-- The loop returns the first missing block of its heights. -/
theorem fallbackLoop_spec :
    ∀ (n : Nat) (height : Int), s.fallbackLoop ctx state reason n height = (some b, reason') →
      ∃ height' : Int, height ≤ height' ∧ height' < height + n ∧
        fastSyncHeaderFallbackIndex ctx state height' = .ok b ∧ s.isMissing ctx b ∧
        ∀ i, height ≤ i → i < height' →
          ∃ b', fastSyncHeaderFallbackIndex ctx state i = .ok b' ∧ s.isMissing ctx b' = false := by
  intro n
  induction n with
  | zero =>
    intro height h
    exact absurd h (by simp [fallbackLoop])
  | succ n ih =>
    intro height h
    unfold fallbackLoop at h
    rcases hidx : fastSyncHeaderFallbackIndex ctx state height with e | candidate
    · simp [hidx] at h
    rw [hidx] at h
    simp only at h
    split_ifs at h with hmiss
    · rw [Prod.mk.injEq, Option.some.injEq] at h
      rw [← h.1]
      exact ⟨height, le_refl _, by omega, hidx, hmiss, fun i hi hlt => by omega⟩
    · obtain ⟨height', hle, hlt, hok, hm, hlow⟩ := ih (height + 1) h
      refine ⟨height', by omega, by push_cast; omega, hok, hm, ?_⟩
      intro i hi hlt'
      by_cases heq : i = height
      · exact ⟨candidate, heq ▸ hidx, by simpa using hmiss⟩
      · exact hlow i (by omega) hlt'

/-- The fallback chooses the lowest missing block of its window. -/
theorem fallbackCandidate_spec (h : s.fallbackCandidate ctx state reason = (some b, reason')) :
    ∃ height, LowestMissing s ctx state height b := by
  obtain ⟨height, hle, hlt, hok, hm, hlow⟩ := fallbackLoop_spec _ _ h
  exact ⟨height, hle, by omega, hok, hm, hlow⟩

/-- The candidate for the next block: in the fallback the lowest missing block of the window, which
nobody asks the peer about; otherwise an eligible block that the peer can serve. -/
theorem nextCandidate_spec (hp : s.state? p = some state)
    (h : s.nextCandidate ctx p state reason = .ok ((some b, reason'), s')) :
    (UsesFallback ctx state ∧ s' = s ∧ ∃ height, LowestMissing s ctx state height b) ∨
      (¬ UsesFallback ctx state ∧ Eligible ctx s b ∧ CanServe ctx state b ∧
        ∃ state', Refreshed state state' ∧ s' = s.setState p state') := by
  unfold nextCandidate at h
  rcases hbest : state.pindexBestKnownBlock with _ | best
  · rw [hbest] at h
    obtain ⟨hcand, rfl⟩ := Prod.mk.inj (ok.inj h)
    refine .inl ⟨fun best hb => ?_, rfl, fallbackCandidate_spec hcand⟩
    rw [hbest] at hb
    cases hb
  rw [hbest] at h
  rcases htip : ctx.tipChainWork with _ | tipWork
  · rw [htip] at h
    cases h
  rw [htip] at h
  simp only at h
  split_ifs at h with hahead hmin
  · cases h
  · obtain ⟨hcand, rfl⟩ := Prod.mk.inj (ok.inj h)
    refine .inl ⟨fun best' hb => ?_, rfl, fallbackCandidate_spec hcand⟩
    rw [hbest, Option.some.injEq] at hb
    rw [← hb]
    exact hmin
  · obtain ⟨⟨v, staller, s1⟩, hfind, h⟩ := bind_eq_ok_iff.mp h
    obtain ⟨hdown, state', hrefresh, hs1⟩ := (findNextBlocksToDownload_spec ctx _ hp).of_ok hfind
    rcases hc : v.find? (s1.isMissing ctx) with _ | candidate
    · rw [hc] at h
      cases h
    rw [hc] at h
    cases h
    obtain ⟨he, hserve⟩ := hdown.eligible b (List.mem_of_find?_eq_some hc)
    exact .inr ⟨fun huse => hmin (huse best hbest), he, hserve, state', hrefresh, hs1⟩

/-- In the fallback, the peer can serve the lowest missing block of the window. -/
def FallbackServes (s : NetState) (ctx : Ctx) (p : NodeId) : Prop :=
  ∀ state, s.state? p = some state → UsesFallback ctx (state.processBlockAvailability ctx) →
    ∀ height b, LowestMissing s ctx (state.processBlockAvailability ctx) height b →
      CanServe ctx state b

/-- A new reservation of the next block obeys the rules of normal scheduling exactly when the
fallback, if it is used, happens on a block that the peer can serve. Here `s1` is the state after
the expiry of an old offer, with which the call begins. -/
theorem reserveNextFastSyncBlockInFlight_reservable_iff {s1 : NetState} {r : NextReservation}
    {b : Bool} {state1 : CNodeState} (hexp : s.expireFastSyncPendingBlock p ctx.now = .ok (b, s1))
    (hp : s1.state? p = some state1) (hpend : state1.hashFastSyncPendingBlock = 0)
    (h : s.reserveNextFastSyncBlockInFlight ctx p hashOut reason = .ok (r, s')) (hr : r.reserved) :
    Reservable ctx s1 p r.hashOut ↔ FallbackServes s1 ctx p := by
  obtain ⟨b', s1', state1', hexp', hp', hcase⟩ := reserveNextFastSyncBlockInFlight_reserved h hr
  obtain ⟨-, rfl⟩ := Prod.mk.inj (ok.inj (hexp.symm.trans hexp'))
  obtain rfl := Option.some.inj (hp.symm.trans hp')
  rcases hcase with ⟨hpend', -⟩ | ⟨reason', s2, hver, -, hroom, hcand, hvalid, hres⟩
  · -- A claim needs a pending offer.
    exact absurd hpend hpend'
  · have hrefresh := processBlockAvailability_refreshed ctx state1
    have hset := s1.state?_setState_self p (state1.processBlockAvailability ctx)
    have hmiss := (isMissing_iff ..).mp (reserveBlock_isMissing hres)
    rcases nextCandidate_spec hset hcand with ⟨huse, hs2, height, hlow⟩ | ⟨huse, helig, hserve, -⟩
    · -- The fallback: everything holds but perhaps that the peer can serve the block.
      subst hs2
      have hlow1 : LowestMissing s1 ctx (state1.processBlockAvailability ctx) height r.hashOut :=
        ⟨hlow.low, hlow.high, hlow.index, hlow.missing, hlow.lowest⟩
      constructor
      · rintro ⟨state, hp', -, -, -, hserve⟩ state' hp'' - height' b' hlow'
        rw [hp', Option.some.injEq] at hp''
        rw [hp', Option.some.injEq] at hp
        subst hp hp''
        rw [← hlow1.unique hlow']
        exact hserve
      · intro hall
        exact ⟨state1, hp, hver, hroom, ⟨hvalid, hmiss.1, hmiss.2.1, hmiss.2.2⟩,
          hall state1 hp huse height r.hashOut hlow1⟩
    · constructor
      · intro _ state hp' huse'
        rw [hp, Option.some.injEq] at hp'
        subst hp'
        exact absurd huse' huse
      · intro _
        exact ⟨state1, hp, hver, hroom,
          ⟨helig.valid, helig.noData, helig.notActive, helig.notInFlight⟩,
          (hrefresh.canServe ctx _).mp hserve⟩

/-- Both entry points: `ReserveFastSyncBlockInFlight` reserves by the rules of normal scheduling in
every state, and `ReserveNextFastSyncBlockInFlight` does so exactly when its starting-height
fallback, if used, happens on a block that the peer can serve. -/
theorem fastSync_reservations_reservable (s s' : NetState) (ctx : Ctx) (p : NodeId)
    (hashOut : Uint256) (reason : String) :
    (∀ (height : Int) (r : Reservation),
      s.reserveFastSyncBlockInFlight ctx p height hashOut reason = .ok (r, s') →
      r.reserved → Reservable ctx s p r.hashOut) ∧
    (∀ (s1 : NetState) (r : NextReservation) (b : Bool) (state1 : CNodeState),
      s.expireFastSyncPendingBlock p ctx.now = .ok (b, s1) → s1.state? p = some state1 →
      state1.hashFastSyncPendingBlock = 0 →
      s.reserveNextFastSyncBlockInFlight ctx p hashOut reason = .ok (r, s') →
      r.reserved → (Reservable ctx s1 p r.hashOut ↔ FallbackServes s1 ctx p)) := by
  refine ⟨?_, ?_⟩
  · intro height r h hr
    exact reserveFastSyncBlockInFlight_reservable h hr
  · intro s1 r b state1 hexp hp hpend h hr
    exact reserveNextFastSyncBlockInFlight_reservable_iff hexp hp hpend h hr

end NetState

/-! ## What the functions keep -/

namespace NetState

variable {s : NetState} {ctx : Ctx} {p : NodeId} {state : CNodeState}

/-- The last gates and the marking, for a connected peer: a block that is reserved was not in flight
and is in flight from the peer now, under a new entry. Its pending offer stays. -/
theorem reserveBlock_follows (hs : Inv s) (hp : s.state? p = some state) (b : Uint256) :
    Returns (s.reserveBlock ctx p b)
      fun r => Follows s r.2 ∧
        (r.2.state? p).map hashFastSyncPendingBlock = some state.hashFastSyncPendingBlock ∧
        (r.1.1 → s.mapBlocksInFlight[b]? = none ∧ r.2.InFlight b p s.nextIter) := by
  unfold reserveBlock
  split_ifs with hdata hin
  · exact ⟨.refl hs, by rw [hp]; rfl, by simp⟩
  · exact ⟨.refl hs, by rw [hp]; rfl, by simp⟩
  have hnone : s.mapBlocksInFlight[b]? = none := by simpa using hin
  rw [markBlockAsInFlight_fresh hp ctx.now hnone]
  refine ⟨addInFlight_follows hs ctx.now hp rfl hnone, ?_,
    fun _ => ⟨hnone, (inFlight_addInFlight ..).mpr (.inl ⟨rfl, rfl, rfl⟩)⟩⟩
  simp only [state?_addInFlight, if_true]
  rfl

/-- `ReserveFastSyncBlockInFlight` returns and keeps the invariant. A success puts a block in flight
from the peer that was not in flight, under a new entry, and leaves the pending offer. -/
theorem reserveFastSyncBlockInFlight_follows (hs : Inv s) (height : Int) (hashOut : Uint256)
    (reason : String) :
    Returns (s.reserveFastSyncBlockInFlight ctx p height hashOut reason)
      fun r => Follows s r.2 ∧ (r.1.reserved →
        s.mapBlocksInFlight[r.1.hashOut]? = none ∧ r.2.InFlight r.1.hashOut p s.nextIter ∧
        (r.2.state? p).map hashFastSyncPendingBlock =
          (s.state? p).map hashFastSyncPendingBlock) := by
  unfold reserveFastSyncBlockInFlight
  rcases hp : s.state? p with _ | state
  · exact ⟨.refl hs, by simp⟩
  simp only
  split_ifs with hheight hver hfull
  · exact ⟨.refl hs, by simp⟩
  · exact ⟨.refl hs, by simp⟩
  · obtain ⟨best, unknown, common, hr⟩ := processBlockAvailability_refreshed ctx state
    have hset := setState_refreshed_follows hs hp (processBlockAvailability_refreshed ctx state)
    have hp1 := s.state?_setState_self p (state.processBlockAvailability ctx)
    rcases fastSyncBlockAt ctx (state.processBlockAvailability ctx) height reason with reason' | b
    · exact ⟨hset, by simp⟩
    · refine (reserveBlock_follows hset.inv hp1 b).bind ?_
      rintro ⟨⟨ok, reason'⟩, s2⟩ ⟨hf, hpend, hin⟩
      refine ⟨hset.trans hf, fun hok => ⟨(hin hok).1, (hin hok).2, ?_⟩⟩
      rw [hpend, hr]
      rfl
  · exact ⟨.refl hs, by simp⟩

/-- The choice of the next block keeps the invariant. -/
theorem nextCandidate_follows (hs : Inv s) (ctx : Ctx) (hp : s.state? p = some state)
    (reason : String) :
    Ensures (s.nextCandidate ctx p state reason) (fun r => Follows s r.2) (· = .nullBlock) := by
  unfold nextCandidate
  rcases state.pindexBestKnownBlock with _ | best
  · exact .refl hs
  rcases ctx.tipChainWork with _ | tipWork
  · exact rfl
  simp only
  split_ifs with hahead hmin
  · exact .refl hs
  · exact .refl hs
  · refine (findNextBlocksToDownload_follows hs hp).bind ?_
    rintro ⟨v, staller, s1⟩ hf
    rcases v.find? (s1.isMissing ctx) with _ | candidate
    · exact hf
    · exact hf

/-- `ReserveNextFastSyncBlockInFlight` keeps the invariant, or stops at a null block. -/
theorem reserveNextFastSyncBlockInFlight_follows (hs : Inv s) (hashOut : Uint256)
    (reason : String) :
    Ensures (s.reserveNextFastSyncBlockInFlight ctx p hashOut reason)
      (fun r => Follows s r.2) (· = .nullBlock) := by
  unfold reserveNextFastSyncBlockInFlight
  rcases hp : s.state? p with _ | state
  · exact .refl hs
  refine .ite (fun _ => Follows.refl hs) fun _ => ?_
  refine (expireFastSyncPendingBlock_spec hs hp ctx.now).or_error.bind ?_
  rintro ⟨b, s1⟩ ⟨hf1, -, -⟩
  obtain ⟨state1, hp1⟩ := hf1.state hp
  simp only [ok_bind, state_eq_ok_iff.mpr hp1]
  split_ifs with hpend hclaimed hfull
  · exact hf1
  · refine hf1.trans (setState_follows hf1.inv hp1 ⟨rfl, rfl, rfl⟩
      (hf1.inv.pending p state1 hp1) ?_)
    exact fun _ hc => absurd hc hclaimed
  · exact hf1
  · -- A candidate is chosen after the peer's best block was looked up.
    have hset := setState_refreshed_follows hf1.inv hp1
      (processBlockAvailability_refreshed ctx state1)
    have hp2 := s1.state?_setState_self p (state1.processBlockAvailability ctx)
    refine (nextCandidate_follows hset.inv ctx hp2 reason).bind ?_
    rintro ⟨⟨c, reason'⟩, s2⟩ hf2
    have hf := (hf1.trans hset).trans hf2
    rcases c with _ | pindex
    · exact hf
    obtain ⟨state2, hp3⟩ := hf2.state hp2
    simp only
    split_ifs with hvalid
    · refine ((reserveBlock_follows hf2.inv hp3 pindex).or_error).bind ?_
      exact fun r hr => hf.trans hr.1
    · exact hf

/-- `SetFastSyncPeerTransportVerified` returns and keeps the invariant. Withdrawing the verification
takes the pending block of the peer out of flight, and no other block. -/
theorem setFastSyncPeerTransportVerified_follows (hs : Inv s) (now : Nat) (verified : Bool) :
    Returns (s.setFastSyncPeerTransportVerified now p verified)
      fun r => Follows s r.2 ∧ ∀ hash p' it, r.2.InFlight hash p' it ↔ s.InFlight hash p' it ∧
        ¬ (verified = false ∧ p' = p ∧ hash ≠ 0 ∧
          (s.state? p).map hashFastSyncPendingBlock = some hash) := by
  unfold setFastSyncPeerTransportVerified
  rcases hp : s.state? p with _ | state
  · refine ⟨.refl hs, fun hash p' it => ⟨fun h => ⟨h, by simp⟩, And.left⟩⟩
  have hset : Follows s (s.setState p { state with fFastSyncUdpTransportVerified := verified }) :=
    setState_unread hs hp ⟨rfl, rfl, rfl⟩ rfl rfl rfl
  have hp1 := s.state?_setState_self p { state with fFastSyncUdpTransportVerified := verified }
  dsimp only
  generalize hs1 : s.setState p { state with fFastSyncUdpTransportVerified := verified } = s1
    at hset hp1 ⊢
  have hin1 : ∀ hash p' it, s1.InFlight hash p' it ↔ s.InFlight hash p' it := by
    intro hash p' it
    rw [← hs1, inFlight_setState]
  rcases verified
  swap
  · exact ⟨hset, fun hash p' it => by simp [hin1]⟩
  -- The write of the backoff comes last, after the removal of the pending block if there is one.
  have hback : ∀ {s2 : NetState}, Follows s s2 → (∃ state2, s2.state? p = some state2) → Ensures (do
        let state ← s2.state p
        return ((true, "transport-unverified"), s2.setState p
          { state with nFastSyncDeferBackoffUntil := now + fastSyncUdpUnclaimedBackoffUs }))
        (fun r : (Bool × String) × NetState => Follows s r.2 ∧
          ∀ hash p' it, r.2.InFlight hash p' it ↔ s2.InFlight hash p' it)
        fun _ : Abort => False := by
    rintro s2 hf ⟨state2, hp2⟩
    rw [state_eq_ok_iff.mpr hp2]
    exact ⟨hf.trans (setState_unread hf.inv hp2 ⟨rfl, rfl, rfl⟩ rfl rfl rfl),
      fun hash p' it => inFlight_setState ..⟩
  simp only [Bool.false_eq_true, if_false]
  split_ifs with hpend
  · refine (markBlockAsReceived_spec hset.inv now state.hashFastSyncPendingBlock (some p)).bind ?_
    rintro ⟨b, s2⟩ ⟨hf, -, hin2⟩
    refine (hback (hset.trans hf) (hf.state hp1)).imp ?_
    rintro ⟨r, s3⟩ ⟨hf3, hin3⟩
    refine ⟨hf3, fun hash p' it => ?_⟩
    rw [hin3, hin2, hin1]
    refine and_congr_right fun _ => not_congr ?_
    simp only [Option.map_some, Option.some.injEq, reduceCtorEq, false_or, true_and]
    constructor
    · rintro ⟨rfl, rfl⟩
      exact ⟨rfl, hpend, rfl⟩
    · rintro ⟨rfl, -, rfl⟩
      exact ⟨rfl, rfl⟩
  · refine (hback hset ⟨_, hp1⟩).imp ?_
    rintro ⟨r, s3⟩ ⟨hf3, hin3⟩
    refine ⟨hf3, fun hash p' it => ?_⟩
    rw [hin3, hin1]
    refine ⟨fun h => ⟨h, ?_⟩, And.left⟩
    rintro ⟨-, -, hne, heq⟩
    rw [Option.map_some, Option.some.injEq] at heq
    exact hpend (fun h0 => hne (heq ▸ h0))

end NetState

/-! ## A peer that cannot serve the block -/

/-- A single chain: the block named `n + 1` has height `n`, valid headers and no data. -/
def lineTree : BlockTree where
  node h :=
    { pprev := if h.toNat ≤ 1 then none else some (h - 1)
      nHeight := h.toNat - 1
      nChainWork := h.toNat
      nTx := 0
      nChainTx := 0
      nStatus := blockValidTree }
  height_genesis h hp := by
    have hle : h.toNat ≤ 1 := by
      by_contra hgt
      rw [if_neg hgt] at hp
      exact absurd hp (by simp)
    simp only
    omega
  height_child h p hp := by
    split_ifs at hp with hle
    rw [Option.some.injEq] at hp
    subst hp
    have hsub : (h - 1).toNat = h.toNat - 1 := by bv_omega
    simp only [hsub]
    omega

/-- A node that has the genesis block and the headers of `lineTree` up to height `headers`, with
witnesses enabled from the start. -/
def lineCtx (headers : Uint256) (now : Nat) : Ctx where
  tree := lineTree
  known _ := true
  chainActive := ⟨[1]⟩
  pindexBestHeader := some (headers + 1)
  nMinimumChainWork := 0
  segwitHeight := 0
  isMWEBEnabled _ := false
  disableCoreTcpBlockRequests := false
  argFastSync := true
  isInitialBlockDownload := false
  canDirectFetch := true
  now := now

/-- A verified peer without witnesses that advertised height 1. -/
def witnesslessPeer : CNodeState :=
  { nStartingHeight := 1, fFastSyncUdpTransportVerified := true }

/-- The block at height 1 is reserved from a peer that cannot serve it. -/
theorem reserveNext_from_witnessless_peer :
    ∃ s s' : NetState, ∃ r : NextReservation,
      s.expireFastSyncPendingBlock 0 0 = .ok (false, s) ∧
      s.state? 0 = some witnesslessPeer ∧ witnesslessPeer.hashFastSyncPendingBlock = 0 ∧
      s.reserveNextFastSyncBlockInFlight (lineCtx 1 0) 0 0 "" = .ok (r, s') ∧
      r.reserved ∧ ¬ Reservable (lineCtx 1 0) s 0 r.hashOut := by
  refine ⟨({} : NetState).setState 0 witnesslessPeer, _, _, rfl, rfl, rfl, rfl, rfl, ?_⟩
  rintro ⟨state, hp, -, -, -, hserve⟩
  have hstate : state = witnesslessPeer := (Option.some.inj hp).symm
  have hwit := hserve.witness (by decide)
  rw [hstate] at hwit
  exact absurd hwit (by decide)

/-- With witnesses, the same peer gives a reservation by the rules; without them, the fallback's
condition fails for it. -/
theorem fastSync_reservations_on_line :
    Reservable (lineCtx 1 0)
        (({} : NetState).setState 0 { witnesslessPeer with fHaveWitness := true }) 0 2 ∧
      (Reservable (lineCtx 1 0) (({} : NetState).setState 0 witnesslessPeer) 0 2 ↔
        NetState.FallbackServes (({} : NetState).setState 0 witnesslessPeer) (lineCtx 1 0) 0) :=
  ⟨(NetState.fastSync_reservations_reservable _ _ _ 0 0 "").1 1 ⟨true, 2, "reserved"⟩ rfl rfl,
    (NetState.fastSync_reservations_reservable (({} : NetState).setState 0 witnesslessPeer)
      _ _ 0 0 "").2 _
      { reserved := true, hashOut := 2, reason := "reserved", heightOut := 1 } false _
      rfl rfl rfl rfl rfl⟩

end DefcoinCore.NetProcessing
