import DefcoinCore.AddrMan.Moves

/-!
# The operations of the address manager

Each public function keeps the representation invariant and raises no fault; `Add_` also leaves what
the tried table records alone, which is `KeepsTried`. The functions are put together from the moves
of `Moves.lean`; an entry that a function has just created is loose until it enters a slot of the
new table or is deleted again.
-/

namespace DefcoinCore.AddrMan

open DefcoinCore Option StdMap

/-- The entry is not loose, so the tables are at rest. -/
theorem Tabled.settle {triedSlot : CService → TriedSlot}
    {newSlotIn : CService → Fin newBucketCount → NewSlot} {short : Int}
    {mapInfo : StdMap Int CAddrInfo} {vvNew : NewSlot → Int} {vvTried : TriedSlot → Int}
    {nTried nNew id : Int}
    (h : Tabled triedSlot newSlotIn {id} short mapInfo vvNew vvTried nTried nNew)
    (hid : ∀ info, mapInfo[id]? = some info → info.fInTried = false → info.nRefCount ≠ 0) :
    Tabled triedSlot newSlotIn ∅ short mapInfo vvNew vvTried nTried nNew := by
  refine { h with live := fun k i hk hi _ => ?_ }
  by_cases hkid : k = id
  · subst hkid
    exact hid i hk hi
  · exact h.live k i hk hi hkid

/-- What the tried table records of an entry: the service and how connections to it ended. -/
def CAddrInfo.tried? (info : CAddrInfo) : Option (CService × Int × Int) :=
  if info.fInTried then some (info.toCService, info.nLastSuccess, info.nAttempts) else none

namespace CAddrMan

variable {env : AddrEnv} {m m' m'' : CAddrMan} {loose : Set Int} {short : Int} {id : Int}
  {info info' : CAddrInfo}

/-- What the tried table records of the entry with an identifier. -/
def tried? (m : CAddrMan) (id : Int) : Option (CService × Int × Int) :=
  m.mapInfo[id]?.bind CAddrInfo.tried?

theorem tried?_of_some (hid : m.mapInfo[id]? = some info) : m.tried? id = info.tried? := by
  rw [tried?, hid, bind_some]

theorem tried?_eq_none_iff :
    m.tried? id = none ↔ ∀ info, m.mapInfo[id]? = some info → info.fInTried = false := by
  simp [tried?, CAddrInfo.tried?]

/-- A record is that of an entry. -/
theorem exists_of_tried? {t : CService × Int × Int} (h : m.tried? id = some t) :
    ∃ info, m.mapInfo[id]? = some info ∧ info.toCService = t.1 := by
  obtain ⟨info, hid, hinfo⟩ := bind_eq_some_iff.mp h
  unfold CAddrInfo.tried? at hinfo
  split_ifs at hinfo
  cases hinfo
  exact ⟨info, hid, rfl⟩

/-- The record does not depend on the position in `vRandom`. -/
theorem tried?_of_data
    (h : m'.mapInfo[id]?.map CAddrInfo.data = m.mapInfo[id]?.map CAddrInfo.data) :
    m'.tried? id = m.tried? id := by
  have hbind := congrArg (·.bind CAddrInfo.tried?) h
  simp only [bind_map] at hbind
  exact hbind

/-- A slot of the new table holds no tried entry. -/
theorem tried?_held (ht : m.IsTabled env loose short) (slot : NewSlot) :
    m.tried? (m.vvNew slot) = none := by
  by_cases hempty : m.vvNew slot = -1
  · rw [hempty, tried?, ht.noEmpty, bind_none]
  · obtain ⟨info, hid, hfalse, -⟩ := ht.held slot hempty
    rw [tried?_of_some hid, CAddrInfo.tried?, hfalse]
    rfl

/-- The invariant holds afterwards, and the tried table records the same. -/
structure KeepsTried (env : AddrEnv) (m m' : CAddrMan) : Prop where
  consistent : m'.Consistent env
  tried : m'.tried? = m.tried?

theorem KeepsTried.trans (h : KeepsTried env m m') (h' : KeepsTried env m' m'') :
    KeepsTried env m m'' := ⟨h'.consistent, h'.tried.trans h.tried⟩

/-- A change of an entry that is not tried. The slots of the tried table are the same, so the entry
is not tried afterwards. -/
theorem Spares.tried?_eq (h : Spares m m' id) (ht : m.IsTabled env loose short)
    {loose' : Set Int} {short' : Int} (ht' : m'.IsTabled env loose' short')
    (hid : m.tried? id = none) : m'.tried? = m.tried? := by
  funext k
  by_cases hk : k = id
  · subst hk
    rw [hid, tried?_eq_none_iff]
    intro info' hid'
    by_contra htrue
    have hat := (ht'.tried k info' hid' (Bool.eq_true_of_not_eq_false htrue)).1
    rw [h.vvTried] at hat
    obtain ⟨info, hinfo, htrue, -⟩ := ht.triedHeld _ (hat ▸ ht'.ne_empty hid')
    rw [hat] at hinfo
    cases htrue.symm.trans (tried?_eq_none_iff.mp hid info hinfo)
  · exact tried?_of_data (h.data k hk)

/-- `Find` gives the entry of the address. -/
theorem find_eq_some_iff (hi : m.IsIndexed) (addr : CNetAddr) :
    m.find addr = some (id, info) ↔ m.mapInfo[id]? = some info ∧ info.toCNetAddr = addr := by
  unfold find
  rcases hm : m.mapAddr[addr]? with _ | k
  · simp only [reduceCtorEq, false_iff, not_and]
    intro hid heq
    cases hm.symm.trans ((hi.addr addr id).mpr ⟨info, hid, heq⟩)
  · obtain ⟨i, hk, hki⟩ := (hi.addr addr k).mp hm
    simp only [hk, some.injEq, Prod.mk.injEq]
    constructor
    · rintro ⟨rfl, rfl⟩
      exact ⟨hk, hki⟩
    · rintro ⟨hid, heq⟩
      have hkid := hi.eq_of_addr hk hid (hki.trans heq.symm)
      subst hkid
      rw [hk, some.injEq] at hid
      exact ⟨rfl, hid⟩

/-- `Find` finds nothing exactly for an address without an entry. -/
theorem find_eq_none_iff (hi : m.IsIndexed) (addr : CNetAddr) :
    m.find addr = none ↔ m.mapAddr[addr]? = none := by
  unfold find
  rcases hm : m.mapAddr[addr]? with _ | k
  · simp
  · obtain ⟨i, hk, -⟩ := (hi.addr addr k).mp hm
    simp [hk]

/-- The service under which an IP is known. -/
def known (m : CAddrMan) (addr : CNetAddr) : Option CService :=
  (m.find addr).map (·.2.toCService)

/-- The IP of an entry is known with its service. -/
theorem known_of_some (hi : m.IsIndexed) (hid : m.mapInfo[id]? = some info) {addr : CService}
    (haddr : info.toCService = addr) : m.known addr.toCNetAddr = some addr := by
  rw [known, (find_eq_some_iff hi _).mpr ⟨hid, congrArg _ haddr⟩, map_some, haddr]

/-- The IP of an entry that alone is gone is not known. -/
theorem known_of_gone (hi : m.IsIndexed) (hid : m.mapInfo[id]? = some info) (hi' : m'.IsIndexed)
    (hgone : m'.mapInfo[id]? = none) (hdata : ∀ k, k ≠ id →
      m'.mapInfo[k]?.map CAddrInfo.data = m.mapInfo[k]?.map CAddrInfo.data) :
    m'.known info.toCNetAddr = none := by
  rw [known, map_eq_none_iff, eq_none_iff_forall_ne_some]
  rintro ⟨k, i⟩ hfind
  obtain ⟨hk, haddr⟩ := (find_eq_some_iff hi' _).mp hfind
  by_cases hkid : k = id
  · rw [hkid, hgone] at hk
    cases hk
  have hd := hdata k hkid
  rw [hk, map_some, eq_comm, map_eq_some_iff] at hd
  obtain ⟨i', hi'', hdata'⟩ := hd
  have haddr' := congrArg (·.toCNetAddr) (CAddrInfo.of_data hdata').1
  exact hkid (hi.eq_of_addr hi'' hid (haddr'.trans haddr))

/-- A slot of the new table is held by an entry that a new entry does not displace. -/
def occupied (m : CAddrMan) (slot : NewSlot) (now : Int) : Bool :=
  m.mapInfo[m.vvNew slot]?.any fun i => !i.isTerrible now && i.nRefCount ≤ 1

/-- Overwriting an entry with other statistics. -/
theorem Consistent.setInfo (hc : m.Consistent env) (hid : m.mapInfo[id]? = some info)
    (haddr : info'.toCService = info.toCService) (hpos : info'.nRandomPos = info.nRandomPos)
    (hrefs : info'.nRefCount = info.nRefCount) (htried : info'.fInTried = info.fInTried)
    (hsucc : info'.fInTried → info'.nLastSuccess ≠ 0) : (m.setInfo id info').Consistent env :=
  ⟨hc.indexed.setInfo hid (congrArg CService.toCNetAddr haddr) hpos,
    hc.tabled.setInfo hid haddr hrefs htried hsucc⟩

/-! ## `Good_` -/

/-- The end of `Good_` for an entry that was just connected to. -/
theorem promote_spec (hc : m.Consistent env) (hid : m.mapInfo[id]? = some info)
    (hsucc : info.nLastSuccess ≠ 0) (test_before_evict : Bool) (rnd : Nat) :
    Returns (m.promote env id info test_before_evict rnd) (·.Consistent env) := by
  refine .ite (fun _ => hc) fun htrue => ?_
  rcases m.findNewBucket env id info.toCService (rnd % newBucketCount) with _ | bucket
  · exact hc
  split_ifs
  · exact ⟨hc.indexed, hc.tabled⟩
  · exact hc
  · exact (makeTried_spec hc hid (Bool.eq_false_of_not_eq_true htrue) hsucc).imp fun _ h => h.1

/-- `Good_` at a time other than zero. -/
theorem good_spec (hc : m.Consistent env) (addr : CService) (test_before_evict : Bool)
    {nTime : Int} (htime : nTime ≠ 0) (rnd : Nat) :
    Returns (m.good_ env addr test_before_evict nTime rnd) (·.Consistent env) := by
  unfold good_
  simp only
  generalize hm1 : ({ m with nLastGood := nTime } : CAddrMan) = m1
  have hc1 : m1.Consistent env := by
    rw [← hm1]
    exact ⟨hc.indexed, hc.tabled⟩
  rcases hfind : m1.find addr.toCNetAddr with _ | ⟨id, info⟩
  · exact hc1
  have hid := ((find_eq_some_iff hc1.indexed _).mp hfind).1
  refine .ite (fun _ => hc1) fun _ => ?_
  have hc2 : (m1.setInfo id (info.good nTime)).Consistent env :=
    hc1.setInfo hid rfl rfl rfl rfl fun _ => htime
  have hid2 : (m1.setInfo id (info.good nTime)).mapInfo[id]? = some (info.good nTime) := by
    rw [CAddrMan.setInfo, getElem?_insert, if_pos rfl]
  exact promote_spec hc2 hid2 htime test_before_evict rnd

/-! ## `Add_` -/

/-- A slot of the new table is emptied and takes an entry that is not tried and belongs there. -/
theorem takeSlot_spec (hi : m.IsIndexed) (ht : m.IsTabled env {id} 0)
    (hid : m.mapInfo[id]? = some info) (hfalse : info.fInTried = false)
    (hfew : info.nRefCount < newBucketsPerAddress) {slot : NewSlot}
    (hpos : m.newSlotIn env info.toCService slot.1 = slot) (hnot : m.vvNew slot ≠ id)
    (n : CAddrInfo → Int) (hn : ∀ i, i.nRefCount = info.nRefCount → n i = i.nRefCount + 1) :
    Returns (do
      let m ← m.clearNew slot
      let info ← m.deref id
      pure (m.ref id info (n info) slot)) fun m' => KeepsTried env m m' ∧
        m'.known info.toCNetAddr = some info.toCService := by
  refine (clearNew_spec hi ht slot hnot).bind ?_
  rintro m1 ⟨hi1, ht1, hnew1, hsp1⟩
  obtain ⟨info1, hid1, hdata1⟩ := hsp1.entry (Ne.symm hnot) hid
  obtain ⟨haddr1, -, hrefs1, hfalse1, -⟩ := CAddrInfo.of_data hdata1
  have hempty1 : m1.vvNew slot = -1 := by rw [hnew1, Function.update_self]
  have hpos1 : m1.newSlotIn env info1.toCService slot.1 = slot := by
    rw [newSlotIn_congr hsp1.nKey, haddr1]
    exact hpos
  rw [deref_of_some hid1, ok_bind]
  have ht2 := ht1.ref hid1 ∅ _ (hfalse1.trans hfalse) (hrefs1 ▸ hfew) hempty1 hpos1
    (fun k hk hkl => absurd hkl hk) (hn info1 hrefs1)
  have hsp2 : Spares m1 (m1.ref id info1 (n info1) slot) id := .of_insert rfl rfl
  have hi2 : (m1.ref id info1 (n info1) slot).IsIndexed := hi1.setInfo hid1 rfl rfl
  have hid2 : (m1.ref id info1 (n info1) slot).mapInfo[id]? =
      some { info1 with nRefCount := n info1 } := by
    rw [ref, getElem?_insert, if_pos rfl]
  -- Neither entry is tried: the one that held the slot, and the one that takes it.
  refine ⟨⟨⟨hi2, ht2⟩, ?_⟩, known_of_some hi2 hid2 (congrArg _ haddr1)⟩
  rw [← hsp1.tried?_eq ht ht1 (tried?_held ht slot)]
  refine hsp2.tried?_eq ht1 ht2 ?_
  rw [tried?_of_some hid1, CAddrInfo.tried?, hfalse1, hfalse]
  rfl

/-- The end of `Add_`, for an entry that is not tried and has room for a reference. An entry without
references goes when its slot is occupied. -/
theorem enterNew_spec (hi : m.IsIndexed) (ht : m.IsTabled env {id} 0)
    (hid : m.mapInfo[id]? = some info) (hfalse : info.fInTried = false)
    (hfew : info.nRefCount < newBucketsPerAddress) (source : CNetAddr) (now : Int) :
    Returns (m.enterNew env id source now) fun m' => KeepsTried env m m' ∧
      m'.known info.toCNetAddr =
        if info.nRefCount = 0 ∧ m.occupied (m.newSlot env info.toCService source) now then none
        else some info.toCService := by
  unfold enterNew
  rw [deref_of_some hid, ok_bind]
  generalize hslot : m.newSlot env info.toCService source = slot
  have hstays : info.nRefCount ≠ 0 → KeepsTried env m m ∧ m.known info.toCNetAddr =
      if info.nRefCount = 0 ∧ m.occupied slot now then none else some info.toCService := by
    intro hrefs
    rw [if_neg fun h => hrefs h.1]
    refine ⟨⟨⟨hi, ht.settle fun i hk _ => ?_⟩, rfl⟩, known_of_some hi hid rfl⟩
    rw [hid, some.injEq] at hk
    exact hk ▸ hrefs
  refine .ite (fun hheld => hstays ?_) fun hheld => ?_
  · -- The slot holds the entry already, so it is not loose.
    have hpos := Table.refs_pos m.vvNew hheld
    rw [ht.refs id info hid]
    omega
  have hpos : m.newSlotIn env info.toCService slot.1 = slot := by
    rw [← hslot]
    rfl
  have hinsert := takeSlot_spec hi ht hid hfalse hfew hpos hheld (fun i => i.nRefCount + 1)
    (fun _ _ => rfl)
  by_cases hempty : m.vvNew slot = -1
  · rw [if_pos hempty, if_neg fun h => by simp [occupied, hempty, ht.noEmpty] at h]
    exact hinsert
  · rw [if_neg hempty]
    obtain ⟨infoExisting, hexisting, -⟩ := ht.held slot hempty
    have hocc : m.occupied slot now =
        (!infoExisting.isTerrible now && infoExisting.nRefCount ≤ 1) := by
      rw [occupied, hexisting, any_some]
    simp only [subscript_of_some hexisting]
    refine .ite (fun hins => ?_) fun hins => .ite (fun hzero => ?_) hstays
    · rw [if_neg (by grind)]
      exact hinsert
    · rw [if_pos (by grind)]
      refine (delete_spec ∅ hi ht hid hfalse hzero fun k hk hkl => absurd hkl hk).imp ?_
      rintro m1 ⟨hi1, ht1, -, hgone, hsp1⟩
      refine ⟨⟨⟨hi1, ht1⟩, hsp1.tried?_eq ht ht1 ?_⟩, ?_⟩
      · rw [tried?_of_some hid, CAddrInfo.tried?, hfalse]
        rfl
      · exact known_of_gone hi hid hi1 hgone hsp1.data

/-- `Create` of an address without an entry: the new entry is loose. -/
theorem createNew_spec (hc : m.Consistent env) (addr : CAddress) (source : CNetAddr)
    (hfree : m.find addr.toCNetAddr = none) :
    (m.createNew addr source).2.IsIndexed ∧
      (m.createNew addr source).2.IsTabled env {(m.createNew addr source).1} 0 ∧
      (m.createNew addr source).2.tried? = m.tried? ∧
      (m.createNew addr source).2.occupied = m.occupied ∧
      (m.createNew addr source).2.mapInfo[(m.createNew addr source).1]? =
        some { toCAddress := addr, source := source, nRandomPos := m.vRandom.length } := by
  rw [find_eq_none_iff hc.indexed] at hfree
  have hcount := hc.indexed.count
  have hnone := hc.indexed.fresh
  unfold createNew create
  let info : CAddrInfo := { toCAddress := addr, source := source, nRandomPos := m.vRandom.length }
  have hi := hc.indexed.create info hfree rfl
  have ht := hc.tabled.create info hnone (by omega) rfl rfl
  rw [insert_empty_eq] at ht
  refine ⟨hi, { ht with nNew := ?_ }, ?_, ?_, ?_⟩
  · have hn := ht.nNew
    rw [zero_add] at hn
    exact (add_zero _).trans hn
  · funext k
    rw [tried?, tried?, getElem?_insert]
    split_ifs with hk
    · rw [← hk, hnone]
      rfl
    · rfl
  · funext slot now
    rw [occupied, occupied, getElem?_insert]
    split_ifs with hk
    · -- The slot does not hold an identifier that is not in use.
      replace hk : m.nIdCount = m.vvNew slot := hk
      obtain ⟨i, hid, -⟩ := hc.tabled.held slot (by omega)
      cases hnone.symm.trans (hk ▸ hid)
    · rfl
  · rw [getElem?_insert, if_pos rfl]

/-- `Add_`. A known IP keeps its service; another one is known afterwards unless its slot is
occupied. -/
theorem add_spec (hc : m.Consistent env) (addr : CAddress) (source : CNetAddr)
    (nTimePenalty now : Int) (rnd : Nat) :
    Returns (m.add_ env addr source nTimePenalty now rnd) fun r => KeepsTried env m r.2 ∧
      (env.isRoutable addr.toCNetAddr → r.1 = (m.known addr.toCNetAddr).isNone ∧
        r.2.known addr.toCNetAddr = (m.known addr.toCNetAddr).or
          (if m.occupied (m.newSlot env addr.toCService source) now then none
          else some addr.toCService)) := by
  refine .ite (fun hnot => ⟨⟨hc, rfl⟩, fun h => by cases hnot.symm.trans h⟩) fun _ => ?_
  generalize (if addr.toCNetAddr = source then (0 : Int) else nTimePenalty) = penalty
  rcases hfind : m.find addr.toCNetAddr with _ | ⟨id, info⟩
  · simp only
    generalize UInt32.ofInt (max 0 (addr.nTime.toNat - penalty)) = nTime
    obtain ⟨hi1, ht1, htried1, hocc1, hid1⟩ :=
      createNew_spec hc { addr with nTime := nTime } source hfind
    have hroom : (0 : Int) < newBucketsPerAddress := by decide
    refine (enterNew_spec hi1 ht1 hid1 rfl hroom source now).bind ?_
    rintro m2 ⟨h2, hknown2⟩
    refine ⟨⟨h2.consistent, h2.tried.trans htried1⟩, fun _ => ?_⟩
    rw [known, hfind]
    refine ⟨rfl, hknown2.trans ?_⟩
    simp only [hocc1, true_and]
    rfl
  · obtain ⟨hid, hip⟩ := (find_eq_some_iff hc.indexed _).mp hfind
    rw [← hip, known_of_some hc.indexed hid rfl, some_or]
    simp only
    -- The update keeps the service, the position, the references and what is tried.
    let info' := info.update addr penalty now
    have hid1 : (m.setInfo id info').mapInfo[id]? = some info' := by
      rw [CAddrMan.setInfo, getElem?_insert, if_pos rfl]
    have hc1 : (m.setInfo id info').Consistent env :=
      hc.setInfo hid rfl rfl rfl rfl fun h => (hc.tabled.tried id info hid h).2
    have hkeep : KeepsTried env m (m.setInfo id info') := by
      refine ⟨hc1, funext fun k => ?_⟩
      by_cases hk : id = k
      · rw [← hk, tried?_of_some hid1, tried?_of_some hid]
        rfl
      · rw [tried?, CAddrMan.setInfo, getElem?_insert, if_neg hk, tried?]
    have hknown1 := known_of_some hc1.indexed hid1 (show _ = info.toCService from rfl)
    split_ifs with hnews htrue hmax hdraw
    iterate 4 exact ⟨hkeep, fun _ => ⟨rfl, hknown1⟩⟩
    · have hfew := hc1.tabled.few id info' hid1
      refine (enterNew_spec hc1.indexed (hc1.tabled.mono (by simp)) hid1
        (Bool.eq_false_of_not_eq_true htrue) (lt_of_le_of_ne hfew hmax) source now).bind ?_
      rintro m2 ⟨h2, hknown2⟩
      rw [if_neg fun h => hc1.tabled.live id info' hid1 (Bool.eq_false_of_not_eq_true htrue)
        (by simp) h.1] at hknown2
      exact ⟨hkeep.trans h2, fun _ => ⟨rfl, hknown2⟩⟩

/-! ## `AddAndMarkGood_` -/

/-- The entry that `AddAndMarkGood_` works on; it is loose if it is new. -/
theorem findOrCreate_spec (hc : m.Consistent env) (addr : CAddress) (now : Int) :
    (m.findOrCreate addr now).2.IsIndexed ∧
      (m.findOrCreate addr now).2.IsTabled env {(m.findOrCreate addr now).1} 0 ∧
      ∃ info, (m.findOrCreate addr now).2.mapInfo[(m.findOrCreate addr now).1]? = some info := by
  unfold findOrCreate
  rcases hfind : m.find addr.toCNetAddr with _ | ⟨id, info⟩
  · generalize (if addr.nTime ≠ 0 then addr.nTime else UInt32.ofInt now) = nTime
    obtain ⟨hi1, ht1, -, -, hid1⟩ :=
      createNew_spec hc { addr with nTime := nTime } addr.toCNetAddr hfind
    exact ⟨hi1, ht1, _, hid1⟩
  · have hid := ((find_eq_some_iff hc.indexed _).mp hfind).1
    simp only
    generalize (if addr.nTime ≠ 0 ∧ (info.nTime = 0 ∨ info.nTime < addr.nTime) then addr.nTime
      else info.nTime) = nTime
    have hc1 : (m.setInfo id { info with
        nTime := nTime, nServices := info.nServices ||| addr.nServices }).Consistent env :=
      hc.setInfo hid rfl rfl rfl rfl fun h => (hc.tabled.tried id info hid h).2
    exact ⟨hc1.indexed, hc1.tabled.mono (by simp), _,
      by rw [CAddrMan.setInfo, getElem?_insert, if_pos rfl]⟩

/-- `AddAndMarkGood_` settles a loose entry. -/
theorem enterLoose_spec (hi : m.IsIndexed) (ht : m.IsTabled env {id} 0)
    (hid : m.mapInfo[id]? = some info) (src : CNetAddr) :
    Returns (m.enterLoose env id src) (·.Consistent env) := by
  unfold enterLoose
  rw [deref_of_some hid, ok_bind]
  refine .ite ?_ fun hloose => ?_
  · rintro ⟨hfalse, hzero⟩
    generalize hslot : m.newSlot env info.toCService src = slot
    have hnot : m.vvNew slot ≠ id := by
      intro heq
      have hpos := Table.refs_pos m.vvNew heq
      have hrefs := ht.refs id info hid
      omega
    have hpos : m.newSlotIn env info.toCService slot.1 = slot := by
      rw [← hslot]
      rfl
    have hroom : info.nRefCount < newBucketsPerAddress := by
      rw [hzero]
      decide
    refine (takeSlot_spec hi ht hid hfalse hroom hpos hnot (fun _ => 1) fun i hrefs => ?_).imp
      fun _ h => h.1.consistent
    rw [hrefs, hzero]
    rfl
  · refine ⟨hi, ht.settle fun i hk hf hz => hloose ?_⟩
    rw [hid, some.injEq] at hk
    exact ⟨hk ▸ hf, hk ▸ hz⟩

section

variable (hc : m.Consistent env)

include hc

/-- `AddAndMarkGood_` at a time other than zero. -/
theorem addAndMarkGood_spec (addr : CAddress) {now : Int} (hnow : now ≠ 0) (rnd : Nat) :
    Returns (m.addAndMarkGood_ env addr now rnd) (·.2.Consistent env) := by
  refine .ite (fun _ => hc) fun _ => ?_
  obtain ⟨hi1, ht1, info1, hid1⟩ := findOrCreate_spec hc addr now
  refine (enterLoose_spec hi1 ht1 hid1 addr.toCNetAddr).bind fun m2 hc2 => ?_
  exact (good_spec hc2 addr.toCService false hnow rnd).bind fun _ hc3 => hc3

/-! ## Replacing an entry with another port -/

/-- The address has the IP of the service and another port. -/
abbrev Replaces (addr service : CService) : Prop :=
  service.toCNetAddr = addr.toCNetAddr ∧ service.port ≠ addr.port

/-- The removal with which the replacing functions begin: the tried table loses the entry that the
address replaces. -/
theorem removeOtherPort_spec (addr : CAddress) :
    Returns (m.removeOtherPort env addr) fun m' => m'.Consistent env ∧
      ∀ k t, m'.tried? k = some t ↔ m.tried? k = some t ∧ ¬ Replaces addr.toCService t.1 := by
  -- The entry that the address replaces is the one that `Find` gives.
  have hfound : ∀ k t, m.tried? k = some t → Replaces addr.toCService t.1 →
      ∃ i, m.find addr.toCNetAddr = some (k, i) ∧ i.port ≠ addr.port := by
    intro k t hk hrep
    obtain ⟨i, hi, hit⟩ := exists_of_tried? hk
    rw [← hit] at hrep
    exact ⟨i, (find_eq_some_iff hc.indexed _).mpr ⟨hi, hrep.1⟩, hrep.2⟩
  unfold removeOtherPort
  rcases hfind : m.find addr.toCNetAddr with _ | ⟨id, info⟩
  · refine ⟨hc, fun k t => ⟨fun hk => ⟨hk, fun hrep => ?_⟩, And.left⟩⟩
    obtain ⟨i, hi, -⟩ := hfound k t hk hrep
    cases hfind.symm.trans hi
  obtain ⟨hid, haddr⟩ := (find_eq_some_iff hc.indexed _).mp hfind
  refine .ite (fun hport => ?_) fun hport =>
    ⟨hc, fun k t => ⟨fun hk => ⟨hk, fun hrep => ?_⟩, And.left⟩⟩
  · refine (remove_spec hc hid).bind ?_
    rintro ⟨b, m1⟩ ⟨-, hc1, hremoved⟩
    refine ⟨hc1, fun k t => ?_⟩
    by_cases hk : k = id
    · subst hk
      rw [tried?, hremoved.gone]
      refine ⟨nofun, fun ⟨ht, hnot⟩ => absurd ?_ hnot⟩
      obtain ⟨i, hi, hit⟩ := exists_of_tried? ht
      cases hid.symm.trans hi
      exact hit ▸ ⟨haddr, hport⟩
    · rw [tried?_of_data (hremoved.data k hk)]
      refine ⟨fun ht => ⟨ht, fun hrep => hk ?_⟩, And.left⟩
      obtain ⟨i, hi, -⟩ := hfound k t ht hrep
      cases hfind.symm.trans hi
      rfl
  · obtain ⟨i, hi, hne⟩ := hfound k t hk hrep
    cases hfind.symm.trans hi
    exact hport hne

/-- `AddReplacingSameIP`. -/
theorem addReplacingSameIP_spec (addr : CAddress) (source : CNetAddr) (nTimePenalty now : Int)
    (rnd : Nat) :
    Returns (m.addReplacingSameIP env addr source nTimePenalty now rnd) fun r =>
      r.2.Consistent env ∧
        ∀ k t, r.2.tried? k = some t ↔ m.tried? k = some t ∧ ¬ Replaces addr.toCService t.1 := by
  refine (removeOtherPort_spec hc addr).bind fun m1 ⟨hc1, htried1⟩ => ?_
  refine (add_spec hc1 addr source nTimePenalty now rnd).imp fun r h => ⟨h.1.consistent, ?_⟩
  rw [h.1.tried]
  exact htried1

/-- `AddAndMarkGoodReplacingSameIP` at a time other than zero. -/
theorem addAndMarkGoodReplacingSameIP_spec (addr : CAddress) {now : Int} (hnow : now ≠ 0)
    (rnd : Nat) :
    Returns (m.addAndMarkGoodReplacingSameIP env addr now rnd) (·.2.Consistent env) :=
  (removeOtherPort_spec hc addr).bind fun _ h => addAndMarkGood_spec h.1 addr hnow rnd

/-! ## Statistics -/

/-- What a change of an entry's statistics has to keep. -/
structure KeepsEntry (info info' : CAddrInfo) : Prop where
  addr : info'.toCService = info.toCService
  position : info'.nRandomPos = info.nRandomPos
  refs : info'.nRefCount = info.nRefCount
  tried : info'.fInTried = info.fInTried
  success : info'.nLastSuccess = info.nLastSuccess

variable (addr : CService)

/-- The entry of a service changes in its statistics. -/
theorem modifyService_spec {f : CAddrInfo → CAddrInfo}
    (hf : ∀ info, KeepsEntry info (f info)) : (m.modifyService addr f).Consistent env := by
  unfold modifyService
  rcases hfind : m.find addr.toCNetAddr with _ | ⟨id, info⟩
  · exact hc
  have hid := ((find_eq_some_iff hc.indexed _).mp hfind).1
  simp only
  split_ifs
  · exact hc
  · have hkeep := hf info
    refine hc.setInfo hid hkeep.addr hkeep.position hkeep.refs hkeep.tried fun h => ?_
    rw [hkeep.success]
    exact (hc.tabled.tried id info hid (hkeep.tried ▸ h)).2

/-- `Attempt_`. -/
theorem attempt_spec (fCountFailure : Bool) (nTime : Int) :
    (m.attempt_ addr fCountFailure nTime).Consistent env := by
  refine modifyService_spec hc addr fun info => ?_
  simp only
  split_ifs
  · exact ⟨rfl, rfl, rfl, rfl, rfl⟩
  · exact ⟨rfl, rfl, rfl, rfl, rfl⟩

/-- `Connected_`. -/
theorem connected_spec (nTime : Int) : (m.connected_ addr nTime).Consistent env := by
  refine modifyService_spec hc addr fun info => ?_
  split_ifs
  · exact ⟨rfl, rfl, rfl, rfl, rfl⟩
  · exact ⟨rfl, rfl, rfl, rfl, rfl⟩

/-- `SetServices_`. -/
theorem setServices_spec (nServices : UInt64) : (m.setServices_ addr nServices).Consistent env :=
  modifyService_spec hc addr fun _ => ⟨rfl, rfl, rfl, rfl, rfl⟩

end

/-! ## `GetAddr_` -/

/-- The loop of `GetAddr_` shuffles `vRandom`. -/
theorem getAddrLoop_spec (nNodes : Nat) (now : Int) (rnd : Nat → Nat) (k : Nat) :
    ∀ (n : Nat) (m : CAddrMan) (vAddr : List CAddress), m.Consistent env →
      n + k = m.vRandom.length →
      Returns (getAddrLoop nNodes now rnd k n m vAddr) (·.2.Consistent env) := by
  induction k with
  | zero =>
    intro n m vAddr hc _
    exact hc
  | succ k ih =>
    intro n m vAddr hc hlen
    refine .ite (fun _ => hc) fun _ => ?_
    -- Both positions are in range, so they are positions of entries.
    have hentry : ∀ n' : Nat, n' < m.vRandom.length →
        ∃ (id : Int) (info : CAddrInfo), m.mapInfo[id]? = some info ∧ info.nRandomPos = n' := by
      intro n' hlt
      obtain ⟨info, hid, hpos⟩ := (hc.indexed.random n' _).mp (List.getElem?_eq_getElem hlt)
      exact ⟨_, info, hid, hpos⟩
    have hmod := Nat.mod_lt (rnd n) (show 0 < m.vRandom.length - n by omega)
    obtain ⟨id1, info1, hid1, hpos1⟩ := hentry n (by omega)
    obtain ⟨id2, info2, hid2, hpos2⟩ := hentry (rnd n % (m.vRandom.length - n) + n) (by omega)
    refine (swapRandom_spec hc.indexed hc.tabled hid1 hid2 hpos1.symm hpos2.symm).bind ?_
    rintro m1 ⟨hi1, ht1, -, hlen1, -, -⟩
    have hat : m1.vRandom[n]? = some m1.vRandom[n] := List.getElem?_eq_getElem (by omega)
    obtain ⟨ai, hai, -⟩ := (hi1.random n _).mp hat
    rw [hat]
    simp only [hai]
    exact ih (n + 1) m1 _ ⟨hi1, ht1⟩ (by omega)

/-- `GetAddr_`. -/
theorem getAddr_spec (hc : m.Consistent env) (max_addresses max_pct : Nat) (now : Int)
    (rnd : Nat → Nat) :
    Returns (m.getAddr_ max_addresses max_pct now rnd) (·.2.Consistent env) :=
  getAddrLoop_spec _ now rnd m.vRandom.length 0 m [] hc (by omega)

/-! ## Collisions -/

/-- The body of the loop of `ResolveCollisions_` at a time other than zero. -/
theorem resolveCollision_spec (hc : m.Consistent env) (id_new : Int) {now : Int} (hnow : now ≠ 0)
    (rnd : Nat) :
    Returns (m.resolveCollision env id_new now rnd) (·.2.Consistent env) := by
  unfold resolveCollision
  rcases m.mapInfo[id_new]? with _ | info_new
  · exact hc
  have hgood : Returns (do
      let m ← m.good_ env info_new.toCService false now rnd
      pure (true, m)) (·.2.Consistent env) :=
    (good_spec hc info_new.toCService false hnow rnd).bind fun _ h => h
  refine .ite (fun _ => hc) fun _ => .ite (fun hheld => ?_) fun _ => hgood
  obtain ⟨info_old, hid, -⟩ := hc.tabled.triedHeld _ hheld
  rw [subscript_of_some hid]
  exact .ite (fun _ => hc) fun _ =>
    .ite (fun _ => .ite (fun _ => hgood) fun _ => hc) fun _ => .ite (fun _ => hgood) fun _ => hc

/-- `ResolveCollisions_` at a time other than zero. -/
theorem resolveCollisions_spec (hc : m.Consistent env) {now : Int} (hnow : now ≠ 0)
    (rnd : Int → Nat) :
    Returns (m.resolveCollisions_ env now rnd) (·.Consistent env) := by
  refine Ensures.foldlM (P := fun _ (m' : CAddrMan) => m'.Consistent env) _ ?_ hc
  intro done m1 id_new _ hc1
  refine (resolveCollision_spec hc1 id_new hnow (rnd id_new)).bind ?_
  rintro ⟨erase_collision, m2⟩ hc2
  exact .ite (fun _ => ⟨hc2.indexed, hc2.tabled⟩) fun _ => hc2

end CAddrMan

end DefcoinCore.AddrMan
