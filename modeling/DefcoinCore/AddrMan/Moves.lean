import DefcoinCore.AddrMan.Invariant
import DefcoinCore.Lib.Ensures

/-!
# Moving entries between the tables

What the private functions of the address manager do to a state whose indexes and tables agree:
`SwapRandom`, `Delete`, `ClearNew`, `Remove_` and `MakeTried`. Each specification says that no
assertion fires and no erased entry is used (the error case is `False`), that the two parts of the
invariant hold afterwards, and what happened to the entries: `Spares` is the frame of the functions
that touch one entry.
-/

namespace DefcoinCore.AddrMan

open DefcoinCore Function StdMap Option CAddrInfo

/-- The entry without its position in `vRandom`, which any removal may change. -/
def CAddrInfo.data (info : CAddrInfo) : CAddrInfo := { info with nRandomPos := 0 }

/-- Entries with the same data differ in their position at most. -/
theorem CAddrInfo.of_data {i i' : CAddrInfo} (h : i'.data = i.data) :
    i'.toCAddress = i.toCAddress ∧ i'.source = i.source ∧ i'.nRefCount = i.nRefCount ∧
      i'.fInTried = i.fInTried ∧ i'.nLastSuccess = i.nLastSuccess := by
  simp only [data, mk.injEq] at h
  obtain ⟨h1, -, -, h2, h3, -, h4, h5, -⟩ := h
  exact ⟨h1, h2, h4, h5, h3⟩

namespace CAddrMan

variable {env : AddrEnv} {m m' m'' : CAddrMan} {loose : Set Int} {short : Int} {id : Int}
  {info : CAddrInfo}

/-- The parts of a state that are not derived from its entries and the new table. -/
def fixed (m : CAddrMan) :=
  (m.nKey, m.vvTried, m.m_asmap, m.nIdCount, m.nLastGood, m.m_tried_collisions)

/-- Only the entry `id`, the order of `vRandom` and what is derived from them differ. -/
structure Spares (m m' : CAddrMan) (id : Int) : Prop where
  fixed : m'.fixed = m.fixed
  data : ∀ k, k ≠ id → m'.mapInfo[k]?.map data = m.mapInfo[k]?.map data

theorem Spares.refl (m : CAddrMan) (id : Int) : Spares m m id := ⟨rfl, fun _ _ => rfl⟩

theorem Spares.trans (h : Spares m m' id) (h' : Spares m' m'' id) : Spares m m'' id :=
  ⟨h'.fixed.trans h.fixed, fun k hk => (h'.data k hk).trans (h.data k hk)⟩

/-- One entry is overwritten. -/
theorem Spares.of_insert (hfixed : m'.fixed = m.fixed) (h : m'.mapInfo = m.mapInfo.insert id info) :
    Spares m m' id := by
  refine ⟨hfixed, fun k hk => ?_⟩
  rw [h, getElem?_insert, if_neg (Ne.symm hk)]

theorem Spares.nKey (h : Spares m m' id) : m'.nKey = m.nKey := congrArg (·.1) h.fixed

theorem Spares.vvTried (h : Spares m m' id) : m'.vvTried = m.vvTried := congrArg (·.2.1) h.fixed

/-- Another entry is still there, with the same data. -/
theorem Spares.entry (h : Spares m m' id) {k : Int} (hk : k ≠ id) {i : CAddrInfo}
    (hi : m.mapInfo[k]? = some i) : ∃ i', m'.mapInfo[k]? = some i' ∧ i'.data = i.data := by
  have hdata := h.data k hk
  rw [hi, map_some, map_eq_some_iff] at hdata
  exact hdata

/-- What spares all but the entry of an empty slot spares every entry. -/
theorem Spares.of_empty (h : Spares m m' (-1)) (hnone : m.mapInfo[(-1 : Int)]? = none)
    (hnone' : m'.mapInfo[(-1 : Int)]? = none) (id : Int) : Spares m m' id := by
  refine ⟨h.fixed, fun k _ => ?_⟩
  by_cases hk : k = -1
  · rw [hk, hnone, hnone']
  · exact h.data k hk

/-- A reference to an entry that is there. -/
theorem deref_of_some (hid : m.mapInfo[id]? = some info) : m.deref id = .ok info := by
  rw [deref, hid]

/-- The slots of addresses depend on the key and the map of autonomous systems alone. -/
theorem triedSlot_congr (hkey : m'.nKey = m.nKey) (hasmap : m'.m_asmap = m.m_asmap) :
    m'.triedSlot env = m.triedSlot env := by
  unfold triedSlot
  rw [hkey, hasmap]

theorem newSlotIn_congr (hkey : m'.nKey = m.nKey) : m'.newSlotIn env = m.newSlotIn env := by
  unfold newSlotIn
  rw [hkey]

/-- `SwapRandom` on the positions of two entries. -/
theorem swapRandom_spec {nRndPos1 nRndPos2 : Int} {id' : Int} {info' : CAddrInfo}
    (hi : m.IsIndexed) (ht : m.IsTabled env loose short) (hid : m.mapInfo[id]? = some info)
    (hid' : m.mapInfo[id']? = some info') (hpos : nRndPos1 = info.nRandomPos)
    (hpos' : nRndPos2 = info'.nRandomPos) :
    Returns (m.swapRandom nRndPos1 nRndPos2)
      fun m' => m'.IsIndexed ∧ m'.IsTabled env loose short ∧
        m' = { m with mapInfo := m'.mapInfo, vRandom := m'.vRandom } ∧
        m'.vRandom.length = m.vRandom.length ∧
        m'.mapInfo[id]? = some { info with nRandomPos := nRndPos2 } ∧
        ∀ k : Int, m'.mapInfo[k]?.map data = m.mapInfo[k]?.map data := by
  have hat := hi.getElem?_vRandom hid
  have hat' := hi.getElem?_vRandom hid'
  have hge := hi.position id info hid
  have hge' := hi.position id' info' hid'
  subst hpos hpos'
  unfold swapRandom
  by_cases heq : info.nRandomPos = info'.nRandomPos
  · rw [if_pos heq]
    refine ⟨hi, ht, rfl, rfl, ?_, fun _ => rfl⟩
    rw [hid, ← heq]
  have hne : id ≠ id' := by
    rintro rfl
    rw [hid, some.injEq] at hid'
    exact heq (by rw [hid'])
  rw [if_neg heq, if_neg (by omega), hat, hat']
  simp only [hid, hid']
  have hid1 : (m.mapInfo.insert id { info with nRandomPos := info'.nRandomPos })[id']? =
      some info' := by
    rw [getElem?_insert, if_neg hne, hid']
  refine ⟨hi.swap hid hid' hne, ?_, rfl, ?_, ?_, fun k => ?_⟩
  · -- The tables do not read positions.
    have h1 : Tabled (m.triedSlot env) (m.newSlotIn env) loose short
        (m.mapInfo.insert id { info with nRandomPos := info'.nRandomPos }) m.vvNew
          m.vvTried m.nTried
        m.nNew := ht.setInfo hid rfl rfl rfl fun h => (ht.tried id info hid h).2
    exact h1.setInfo hid1 rfl rfl rfl fun h => (ht.tried id' info' hid' h).2
  · simp
  · rw [getElem?_insert, if_neg (Ne.symm hne), getElem?_insert, if_pos rfl]
  · exact (map_getElem?_insert_of_some hid1 (by rfl) k).trans
      (map_getElem?_insert_of_some hid (by rfl) k)

/-- The end of `Delete` takes an entry that is in neither table out of the indexes. -/
theorem eraseInfo_spec (loose' : Set Int) (hi : m.IsIndexed) (ht : m.IsTabled env loose short)
    (hid : m.mapInfo[id]? = some info) (hfalse : info.fInTried = false) (hzero : info.nRefCount = 0)
    (hloose : ∀ k, k ≠ id → k ∈ loose → k ∈ loose') :
    Returns (m.eraseInfo id info)
      fun m' => m'.IsIndexed ∧ m'.IsTabled env loose' (short - 1) ∧ m'.vvNew = m.vvNew ∧
        m'.nNew = m.nNew ∧ m'.nTried = m.nTried ∧ m'.mapInfo[id]? = none ∧ Spares m m' id := by
  have hlt := hi.position_lt hid
  have hge := hi.position id info hid
  -- The last position of `vRandom` belongs to some entry.
  obtain ⟨idLast, hlast⟩ : ∃ k, m.vRandom[m.vRandom.length - 1]? = some k :=
    ⟨_, List.getElem?_eq_getElem (by omega)⟩
  obtain ⟨infoLast, hidLast, hposLast⟩ := (hi.random _ idLast).mp hlast
  refine (swapRandom_spec hi ht hid hidLast rfl (by omega)).bind ?_
  rintro m1 ⟨hi1, ht1, heq, hlen, hid1, hdata⟩
  have hidx := hi1.erase hid1 (by rw [hlen])
  refine ⟨hidx, ht1.erase hid1 hfalse hzero hloose, ?_, ?_, ?_, ?_, ?_⟩
  · rw [heq]
  · rw [heq]
  · rw [heq]
  · simp
  · rw [heq]
    refine ⟨rfl, fun k hk => ?_⟩
    rw [getElem?_erase, if_neg (Ne.symm hk)]
    exact hdata k

/-- `Delete` of an entry that is in neither table. -/
theorem delete_spec (loose' : Set Int) (hi : m.IsIndexed) (ht : m.IsTabled env loose short)
    (hid : m.mapInfo[id]? = some info) (hfalse : info.fInTried = false) (hzero : info.nRefCount = 0)
    (hloose : ∀ k, k ≠ id → k ∈ loose → k ∈ loose') :
    Returns (m.delete id)
      fun m' => m'.IsIndexed ∧ m'.IsTabled env loose' short ∧ m'.vvNew = m.vvNew ∧
        m'.mapInfo[id]? = none ∧ Spares m m' id := by
  unfold delete
  rw [hid]
  simp only [hfalse, hzero, ne_eq, not_true_eq_false, or_false, Bool.false_eq_true, if_false]
  refine (eraseInfo_spec loose' hi ht hid hfalse hzero hloose).bind ?_
  rintro m1 ⟨hi1, ht1, hnew, -, -, hnone, hsp⟩
  refine ⟨hi1, { ht1 with nNew := ?_ }, hnew, hnone, ⟨hsp.fixed, hsp.data⟩⟩
  have hcount := ht1.nNew
  simp only
  omega

/-- `ClearNew` empties a slot; its entry loses a reference and goes with the last one. -/
theorem clearNew_spec (hi : m.IsIndexed) (ht : m.IsTabled env loose short) (slot : NewSlot)
    (hslot : m.vvNew slot ∉ loose) :
    Returns (m.clearNew slot)
      fun m' => m'.IsIndexed ∧ m'.IsTabled env loose short ∧
        m'.vvNew = update m.vvNew slot (-1) ∧ Spares m m' (m.vvNew slot) := by
  unfold clearNew
  by_cases hempty : m.vvNew slot = -1
  · rw [if_pos hempty]
    refine ⟨hi, ht, ?_, .refl _ _⟩
    rw [← hempty, update_eq_self]
  rw [if_neg hempty]
  obtain ⟨info, hid, hfalse, -⟩ := ht.held slot hempty
  have hpos := Table.refs_pos m.vvNew (rfl : m.vvNew slot = m.vvNew slot)
  have hrefs := ht.refs _ info hid
  simp only [subscript_of_some hid]
  rw [if_neg (by omega)]
  generalize hid' : m.vvNew slot = id at *
  have hi1 : (m.unref id info slot).IsIndexed := hi.setInfo hid rfl rfl
  have ht1 : (m.unref id info slot).IsTabled env (insert id loose) short := ht.unref hid hid'
  have hid1 : (m.unref id info slot).mapInfo[id]? =
      some { info with nRefCount := info.nRefCount - 1 } := by
    rw [unref, getElem?_insert, if_pos rfl]
  have hsp : Spares m (m.unref id info slot) id := .of_insert rfl rfl
  split_ifs with hlast
  · refine (delete_spec loose hi1 ht1 hid1 hfalse hlast ?_).imp ?_
    · intro k hk hkl
      exact hkl.resolve_left hk
    · rintro m2 ⟨hi2, ht2, hnew, -, hsp2⟩
      exact ⟨hi2, ht2, hnew, hsp.trans hsp2⟩
  · refine ⟨hi1, ?_, rfl, hsp⟩
    -- References are left, so the entry is not loose.
    refine { ht1 with live := fun k i hk hki hkl => ?_ }
    by_cases hkid : k = id
    · subst hkid
      rw [hid1, some.injEq] at hk
      rw [← hk]
      exact hlast
    · exact ht1.live k i hk hki fun h => hkl (h.resolve_left hkid)

/-! ## Removal -/

/-- The entry `id` is gone from the indexes and the tables; the others are as before. -/
structure Removed (m m' : CAddrMan) (id : Int) : Prop where
  fixed : m'.fixed = { m with
    vvTried := m'.vvTried, m_tried_collisions := m.m_tried_collisions.erase id }.fixed
  gone : m'.mapInfo[id]? = none
  vvNew : OnlyMoves id m.vvNew m'.vvNew
  vvTried : OnlyMoves id m.vvTried m'.vvTried
  data : ∀ k, k ≠ id → m'.mapInfo[k]?.map data = m.mapInfo[k]?.map data

/-- The branch of `Remove_` for a tried entry. -/
theorem removeTried_spec (hc : m.Consistent env) (hid : m.mapInfo[id]? = some info)
    (htrue : info.fInTried) :
    Returns (m.removeTried id info (m.triedSlot env info.toCService))
      fun m' => m'.Consistent env ∧ Removed m m' id := by
  have hzero := hc.tabled.refs_tried hid htrue
  have hslot := (hc.tabled.tried id info hid htrue).1
  have hi1 : Indexed m.nIdCount (m.mapInfo.insert id { info with fInTried := false }) m.mapAddr
      m.vRandom := hc.indexed.setInfo hid rfl rfl
  have ht1 := hc.tabled.leaveTried hid htrue
  unfold removeTried
  rw [if_neg (not_not.mpr hzero)]
  refine (eraseInfo_spec ∅ hi1 ht1 (by simp) rfl
    (show ({ info with fInTried := false } : CAddrInfo).nRefCount = 0 from hzero) ?_).imp ?_
  · intro k hk hkl
    exact hkl.resolve_left hk
  · rintro m2 ⟨hi2, ht2, hnew, -, -, hnone, hsp⟩
    refine ⟨⟨hi2, ht2⟩, ?_, hnone, ?_, ?_, ?_⟩
    · rw [hsp.vvTried]
      exact hsp.fixed
    · rw [hnew]
      exact .refl _ _
    · rw [hsp.vvTried]
      exact .update (.inl hslot) (.inr rfl)
    · intro k hk
      rw [hsp.data k hk]
      rw [getElem?_insert, if_neg (Ne.symm hk)]

/-- The list of slots that `Remove_` clears. -/
theorem mem_newRefs (slot : NewSlot) : slot ∈ m.newRefs id ↔ m.vvNew slot = id := by
  obtain ⟨b, p⟩ := slot
  simp [newRefs]

/-- The loop of `Remove_` empties the slots of the entry one by one. -/
theorem clearRefs_spec (hc : m.Consistent env) :
    Returns ((m.newRefs id).foldlM (fun m ref => m.clearNew ref) m)
      fun m' => m'.Consistent env ∧ Spares m m' id ∧
        ∀ slot, m'.vvNew slot = if slot ∈ m.newRefs id then -1 else m.vvNew slot := by
  refine Ensures.foldlM (P := fun done m' => m'.Consistent env ∧ Spares m m' id ∧
    ∀ slot, m'.vvNew slot = if slot ∈ done then -1 else m.vvNew slot) _ ?_
    ⟨hc, .refl _ _, by simp⟩
  rintro done m1 slot hmem ⟨hc1, hsp1, hnew1⟩
  rw [mem_newRefs] at hmem
  refine (clearNew_spec hc1.indexed hc1.tabled slot (by simp)).imp ?_
  rintro m2 ⟨hi2, ht2, hnew2, hsp2⟩
  refine ⟨⟨hi2, ht2⟩, hsp1.trans ?_, ?_⟩
  · -- The slot still holds the entry, or it is empty already.
    have hslot := hnew1 slot
    split_ifs at hslot
    · rw [hslot] at hsp2
      exact hsp2.of_empty hc1.tabled.noEmpty ht2.noEmpty id
    · rw [hslot, hmem] at hsp2
      exact hsp2
  · intro s
    rw [hnew2]
    by_cases hs : s = slot
    · rw [hs, update_self, if_pos (by simp)]
    · rw [update_of_ne hs, hnew1]
      simp [hs]

/-- `Remove_` of an entry: nothing else changes. -/
theorem remove_spec (hc : m.Consistent env) (hid : m.mapInfo[id]? = some info) :
    Returns (m.remove_ env id) fun r => r.1 ∧ r.2.Consistent env ∧ Removed m r.2 id := by
  unfold remove_
  rw [hid]
  simp only
  by_cases htrue : info.fInTried
  · rw [if_pos htrue, if_pos (hc.tabled.tried id info hid htrue).1]
    refine (removeTried_spec hc hid htrue).bind ?_
    rintro m1 h1
    exact ⟨rfl, h1⟩
  rw [if_neg htrue]
  refine (clearRefs_spec hc).bind ?_
  rintro m1 ⟨hc1, hsp, hnew⟩
  -- No slot holds the entry any more, so it went with its last reference.
  have hnorefs : ∀ slot, m1.vvNew slot ≠ id := by
    intro slot
    rw [hnew slot]
    split_ifs with hmem
    · exact (hc.tabled.ne_empty hid).symm
    · rwa [mem_newRefs] at hmem
  have hgone : m1.mapInfo[id]? = none := by
    rcases hid1 : m1.mapInfo[id]? with _ | info1
    · rfl
    have hrefs := hc1.tabled.refs id info1 hid1
    rw [(Table.refs_eq_zero_iff m1.vvNew id).mpr hnorefs] at hrefs
    refine absurd hrefs (hc1.tabled.live id info1 hid1 ?_ (by simp))
    by_contra htrue1
    have hat := (hc1.tabled.tried id info1 hid1 (Bool.eq_true_of_not_eq_false htrue1)).1
    rw [hsp.vvTried] at hat
    exact htrue (hc.tabled.slot_of_triedHeld hid hat).1
  rw [hgone]
  refine ⟨rfl, ⟨hc1.indexed, hc1.tabled⟩, ?_, hgone, ?_, ?_, hsp.data⟩
  · have hfixed := hsp.fixed
    simp only [CAddrMan.fixed, Prod.mk.injEq] at hfixed ⊢
    simp only [hfixed, and_self]
  · intro slot
    rw [hnew slot]
    split_ifs with hmem
    · exact .inr ⟨.inl ((mem_newRefs slot).mp hmem), .inr rfl⟩
    · exact .inl rfl
  · rw [hsp.vvTried]
    exact .refl _ _

/-! ## Moving an entry to the tried table -/

/-- The loop of `MakeTried` takes the entry out of every bucket of the new table. -/
theorem leaveBuckets_spec (hc : m.Consistent env) (hid : m.mapInfo[id]? = some info) :
    Returns (newBuckets.foldlM (fun m bucket => m.leaveBucket env id info.toCService bucket) m)
      fun m' => m'.IsIndexed ∧ m'.IsTabled env {id} 0 ∧ Spares m m' id ∧
        m'.mapInfo[id]? = some { info with nRefCount := 0 } ∧ ∀ slot, m'.vvNew slot ≠ id := by
  refine (Ensures.foldlM (P := fun done m' => m'.IsIndexed ∧ m'.IsTabled env {id} 0 ∧
    Spares m m' id ∧ (∃ n, m'.mapInfo[id]? = some { info with nRefCount := n }) ∧
    ∀ bucket ∈ done, m'.vvNew (m.newSlotIn env info.toCService bucket) ≠ id) newBuckets ?_
    ⟨hc.indexed, hc.tabled.mono (by simp), .refl _ _, ⟨info.nRefCount, hid⟩, by simp⟩).imp ?_
  · rintro done m1 bucket - ⟨hi1, ht1, hsp1, ⟨n, hid1⟩, hdone1⟩
    unfold leaveBucket
    rw [newSlotIn_congr hsp1.nKey]
    generalize hslot : m.newSlotIn env info.toCService bucket = slot at *
    have hempty := ht1.ne_empty hid1
    by_cases hheld : m1.vvNew slot = id
    · rw [if_pos hheld, deref, hid1]
      refine ⟨hi1.setInfo hid1 rfl rfl, ?_, hsp1.trans ?_, ⟨n - 1, ?_⟩, ?_⟩
      · have ht2 := ht1.unref hid1 hheld
        rw [Set.insert_eq_of_mem (Set.mem_singleton id)] at ht2
        exact ht2
      · exact .of_insert rfl rfl
      · rw [unref, getElem?_insert, if_pos rfl]
      · intro b hb
        rw [unref]
        simp only
        by_cases hs : m.newSlotIn env info.toCService b = slot
        · rw [hs, update_self]
          exact hempty.symm
        · rw [update_of_ne hs]
          rcases List.mem_append.mp hb with hb | hb
          · exact hdone1 b hb
          · rw [List.mem_singleton.mp hb] at hs
            exact absurd hslot hs
    · rw [if_neg hheld]
      refine ⟨hi1, ht1, hsp1, ⟨n, hid1⟩, ?_⟩
      exact List.forall_mem_append.mpr ⟨hdone1, List.forall_mem_singleton.mpr (by rwa [hslot])⟩
  · rintro m1 ⟨hi1, ht1, hsp1, ⟨n, hid1⟩, hdone⟩
    -- A slot that holds the entry is its slot in some bucket, which was emptied.
    have hnorefs : ∀ slot, m1.vvNew slot ≠ id := by
      intro slot heq
      have hpos := (ht1.slot_of_held hid1 heq).2
      rw [newSlotIn_congr hsp1.nKey] at hpos
      refine hdone slot.1 (mem_newBuckets _) ?_
      rw [show m.newSlotIn env info.toCService slot.1 = slot from hpos]
      exact heq
    have hrefs := ht1.refs id _ hid1
    rw [(Table.refs_eq_zero_iff m1.vvNew id).mpr hnorefs] at hrefs
    refine ⟨hi1, ht1, hsp1, ?_, hnorefs⟩
    rw [hid1, show n = 0 from hrefs]

/-- `MakeTried` makes space: the entry of the slot becomes a new one. Entries that no slot of the
new table holds stay. -/
theorem evictTried_spec (hi : m.IsIndexed) (ht : m.IsTabled env loose short)
    (hloose : ∀ slot, m.vvNew slot ∉ loose) {slot : TriedSlot} (hslot : m.vvTried slot ≠ -1) :
    Returns (m.evictTried env slot)
      fun m' => m'.IsIndexed ∧ m'.IsTabled env loose short ∧
        m'.fixed = { m with vvTried := update m.vvTried slot (-1) }.fixed ∧
        ∀ k, k ≠ m.vvTried slot → (∀ s, m.vvNew s ≠ k) →
          m'.mapInfo[k]?.map data = m.mapInfo[k]?.map data := by
  obtain ⟨infoOld, hid, htrue, hat⟩ := ht.triedHeld slot hslot
  have hzero := ht.refs_tried hid htrue
  have hnotNew : ∀ s, m.vvNew s ≠ m.vvTried slot := by
    intro s heq
    cases htrue.symm.trans (ht.slot_of_held hid heq).1
  unfold evictTried
  simp only [hid]
  generalize hid' : m.vvTried slot = id at *
  -- The entry leaves the tried table ...
  obtain ⟨m1, hm1, hi1, ht1, hid1, hnew1⟩ : ∃ m1 : CAddrMan, { m with
        mapInfo := m.mapInfo.insert id { infoOld with fInTried := false }
        vvTried := update m.vvTried slot (-1)
        nTried := m.nTried - 1 } = m1 ∧ m1.IsIndexed ∧
      m1.IsTabled env (insert id loose) (short + 1) ∧
      m1.mapInfo[id]? = some { infoOld with fInTried := false } ∧ m1.vvNew = m.vvNew :=
    ⟨_, rfl, hi.setInfo hid rfl rfl, hat ▸ ht.leaveTried hid htrue, by simp, rfl⟩
  rw [hm1]
  generalize hslotU : m1.newSlot env infoOld.toCService infoOld.source = slotU
  have hclear : m1.vvNew slotU ∉ insert id loose := by
    rw [hnew1]
    exact fun h => h.elim (hnotNew slotU) (hloose slotU)
  -- ... its slot of the new table is emptied ...
  refine (clearNew_spec hi1 ht1 slotU hclear).bind ?_
  rintro m2 ⟨hi2, ht2, hnew2, hsp2⟩
  have hempty2 : m2.vvNew slotU = -1 := by rw [hnew2, update_self]
  obtain ⟨info2, hid2, hdata2⟩ := hsp2.entry (fun h => hclear (h ▸ .inl rfl)) hid1
  obtain ⟨haddr2, -, hrefs2, hfalse2, -⟩ := of_data hdata2
  have hzero2 : info2.nRefCount = 0 := hrefs2.trans hzero
  have hpos2 : m2.newSlotIn env info2.toCService slotU.1 = slotU := by
    rw [newSlotIn_congr hsp2.nKey, haddr2, ← hslotU]
    rfl
  rw [if_neg (not_not.mpr hempty2), deref, hid2]
  -- ... and takes the entry.
  have ht3 := ht2.ref hid2 loose 1 hfalse2 (by rw [hzero2]; decide) hempty2 hpos2
    (fun k hk hkl => hkl.resolve_left hk) (by rw [hzero2]; rfl)
  refine ⟨hi2.setInfo hid2 rfl rfl, { ht3 with nNew := ?_ }, ?_, ?_⟩
  · have hcount := ht3.nNew
    rw [ref]
    simp only
    omega
  · exact hsp2.fixed.trans (by rw [← hm1]; rfl)
  · intro k hk hkn
    rw [ref]
    rw [getElem?_insert, if_neg (Ne.symm hk), hsp2.data k ?_, ← hm1,
      getElem?_insert, if_neg (Ne.symm hk)]
    rw [hnew1]
    exact (hkn slotU).symm

/-- `MakeTried` puts a loose entry that was just connected to into its free slot. -/
theorem enterTried_spec (hi : m.IsIndexed) (ht : m.IsTabled env {id} 1)
    (hid : m.mapInfo[id]? = some info) (hfalse : info.fInTried = false) (hzero : info.nRefCount = 0)
    (hsucc : info.nLastSuccess ≠ 0) (hfree : m.vvTried (m.triedSlot env info.toCService) = -1) :
    Returns (m.enterTried id (m.triedSlot env info.toCService))
      fun m' => m'.Consistent env ∧ m'.mapInfo[id]? = some { info with fInTried := true } := by
  unfold enterTried
  rw [if_neg (not_not.mpr hfree), deref_of_some hid]
  refine ⟨⟨hi.setInfo hid rfl rfl, ?_⟩, ?_⟩
  · exact ht.enterTried hid hfalse hzero hsucc hfree fun k hk hkl => absurd hkl hk
  · rw [getElem?_insert, if_pos rfl]

/-- `MakeTried` moves an entry that was just connected to into the tried table. -/
theorem makeTried_spec (hc : m.Consistent env) (hid : m.mapInfo[id]? = some info)
    (hfalse : info.fInTried = false) (hsucc : info.nLastSuccess ≠ 0) :
    Returns (m.makeTried env id)
      fun m' => m'.Consistent env ∧ m'.mapInfo[id]?.map CAddrInfo.data =
        some { info with nRefCount := 0, fInTried := true, nRandomPos := 0 } := by
  unfold makeTried
  rw [deref_of_some hid, ok_bind]
  refine (leaveBuckets_spec hc hid).bind ?_
  rintro m1 ⟨hi1, ht1, hsp1, hid1, hnorefs⟩
  -- From here on the entry is loose and not counted.
  obtain ⟨m2, hm2, hi2, ht2, hid2, hnorefs2⟩ : ∃ m2, { m1 with nNew := m1.nNew - 1 } = m2 ∧
      m2.IsIndexed ∧ m2.IsTabled env {id} 1 ∧ m2.mapInfo[id]? = some { info with nRefCount := 0 } ∧
      ∀ slot, m2.vvNew slot ≠ id := by
    refine ⟨_, rfl, hi1, { ht1 with nNew := ?_ }, hid1, hnorefs⟩
    have hcount := ht1.nNew
    simp only
    omega
  rw [hm2]
  simp only [deref_of_some hid2, ok_bind, ne_eq, not_true_eq_false, if_false]
  generalize hslot : m2.triedSlot env info.toCService = slot
  have hspace : Returns (m2.makeSpace env slot)
      fun m3 => m3.IsIndexed ∧ m3.IsTabled env {id} 1 ∧ m3.nKey = m2.nKey ∧
        m3.m_asmap = m2.m_asmap ∧ m3.vvTried slot = -1 ∧
        m3.mapInfo[id]?.map CAddrInfo.data = m2.mapInfo[id]?.map CAddrInfo.data := by
    refine .ite (fun hheld => ?_) fun hfree => ⟨hi2, ht2, rfl, rfl, not_not.mp hfree, rfl⟩
    refine (evictTried_spec hi2 ht2 hnorefs2 hheld).imp ?_
    rintro m3 ⟨hi3, ht3, hfixed, hdata⟩
    refine ⟨hi3, ht3, congrArg (·.1) hfixed, congrArg (·.2.2.1) hfixed, ?_, hdata id ?_ hnorefs2⟩
    · exact (congrFun (congrArg (·.2.1) hfixed) slot).trans (update_self ..)
    · -- The entry is not the evicted one, which was tried.
      intro heq
      cases hfalse.symm.trans (ht2.slot_of_triedHeld hid2 heq.symm).1
  refine hspace.bind ?_
  rintro m3 ⟨hi3, ht3, hkey, hasmap, hfree, hdata⟩
  rw [hid2, map_some, map_eq_some_iff] at hdata
  obtain ⟨info3, hid3, hdata3⟩ := hdata
  obtain ⟨haddr3, -, hrefs3, hfalse3, hsucc3⟩ := CAddrInfo.of_data hdata3
  have hslot3 : m3.triedSlot env info3.toCService = slot := by
    rw [triedSlot_congr hkey hasmap, haddr3]
    exact hslot
  rw [← hslot3] at hfree ⊢
  refine (enterTried_spec hi3 ht3 hid3 (hfalse3.trans hfalse) hrefs3 (hsucc3 ▸ hsucc) hfree).imp ?_
  rintro m4 ⟨hc4, hid4⟩
  refine ⟨hc4, ?_⟩
  rw [hid4, map_some, some.injEq]
  simp only [CAddrInfo.data, CAddrInfo.mk.injEq] at hdata3 ⊢
  simp only [hdata3, and_self]

end CAddrMan

end DefcoinCore.AddrMan
