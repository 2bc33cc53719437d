import DefcoinCore.AddrMan.Load
import DefcoinCore.AddrMan.Runs

/-!
# What is stored is loaded

A consistent state that is stored and loaded comes back: the entries keep what is stored of them,
the tried table keeps its slots, and each new entry keeps one of its slots. After the new entries
are read they are all loose and counted; each tried entry takes the slot it had, which no other
entry of the file claims; each new entry then takes the slot it had in the last bucket that lists
it, which no entry before it took; and nothing is left to prune.
-/

namespace DefcoinCore.AddrMan

open DefcoinCore List

namespace CAddrMan

variable {env : AddrEnv} {codec : InfoCodec} {m m' : CAddrMan}

/-! ## The loaded state -/

variable {tried : Bool} {e : Int × CAddrInfo} {f : AddrManFile} {m0 : CAddrMan} {id : Int}
  {slotOf : Nat → NewSlot}

/-- What stored entries are told apart by is listed without repetition. -/
theorem nodup_map_entries {A : Type} (f : StoredInfo → A)
    (hinj : ∀ e ∈ m.entries tried, ∀ e' ∈ m.entries tried, f e.2.stored = f e'.2.stored →
      e.1 = e'.1) :
    (((m.entries tried).map (·.2.stored)).map f).Nodup := by
  have hids := m.nodup_entries tried
  rw [map_map]
  exact hids.of_map.map_on fun e he e' he' heq =>
    inj_on_of_nodup_map hids he he' (hinj e he e' he' heq)

/-- The addresses of a table are listed without repetition. -/
theorem Consistent.nodup_addr (h : m.Consistent env) (tried : Bool) :
    (((m.entries tried).map (·.2.stored)).map (·.toCNetAddr)).Nodup :=
  nodup_map_entries (·.toCNetAddr) fun _ he _ he' =>
    h.indexed.eq_of_addr (mem_entries.mp he).1 (mem_entries.mp he').1

/-- The identifier with which an entry is loaded: the new entries get the first ones, and the tried
ones those after them. -/
def loadedId (m : CAddrMan) : Bool → Nat → Int
  | false, k => k
  | true, k => (m.entries false).length + k

/-- The entries of `m` and its tried table are back in `m'`. -/
structure Restored (env : AddrEnv) (m m' : CAddrMan) : Prop where
  nKey : m'.nKey = m.nKey
  nNew : m'.nNew = m.nNew
  nTried : m'.nTried = m.nTried
  nIdCount : m'.nIdCount = (m.entries false).length + (m.entries true).length
  infos : ∀ (tried : Bool) (k : Nat) (e : Int × CAddrInfo), (m.entries tried)[k]? = some e →
    m'.mapInfo[m.loadedId tried k]?.map kept = some (kept e.2)
  triedSlot : ∀ (k : Nat) (e : Int × CAddrInfo), (m.entries true)[k]? = some e →
    m'.vvTried (m.triedSlot env e.2.toCService) = m.loadedId true k
  emptyTried : ∀ slot, m.vvTried slot = -1 → m'.vvTried slot = -1

/-- The state after the entries of the file of `m` have been read: those of the new table are still
loose. -/
structure Unplaced (env : AddrEnv) (m m' : CAddrMan) : Prop extends Restored env m m' where
  m_asmap : m'.m_asmap = m.m_asmap
  vvNew : m'.vvNew = fun _ => -1
  indexed : m'.IsIndexed
  tabled : m'.IsTabled env {id | (0 : Int) ≤ id} 0

/-- The state that is loaded: each new entry has one of the slots it had in `m`. -/
structure Loaded (env : AddrEnv) (m : CAddrMan) (slotOf : Nat → NewSlot) (m' : CAddrMan) : Prop
    extends Restored env m m' where
  consistent : m'.Consistent env
  held : ∀ (k : Nat) (e : Int × CAddrInfo), (m.entries false)[k]? = some e →
    m.vvNew (slotOf k) = e.1
  newSlot : ∀ k < (m.entries false).length, m'.vvNew (slotOf k) = k
  emptyNew : ∀ slot, (∀ k < (m.entries false).length, slotOf k ≠ slot) → m'.vvNew slot = -1

/-- What is kept of an entry that is listed. -/
theorem kept_of_entries {k : Nat} (hk : (m.entries tried)[k]? = some e) :
    kept e.2 = (e.2.stored, tried) := by
  rw [kept, (mem_entries.mp (mem_of_getElem? hk)).2]

section Load

variable (h : m.Consistent env) (hf : Stores codec m f) (hasmap : m0.m_asmap = m.m_asmap)

include h hf hasmap

/-- The new entries of a file, read into an empty state. -/
theorem Consistent.loadNew_spec :
    let m1 : CAddrMan := { m0.clear f.nKey with nNew := f.nNew, nTried := f.nTried }
    ∃ mapInfo mapAddr vRandom,
      let m' : CAddrMan := { m1 with mapInfo, mapAddr, vRandom }
      loadNewInfos f.newInfos 0 m1 = m' ∧ Indexed m.nNew mapInfo mapAddr vRandom ∧
      Tabled (m.triedSlot env) (m.newSlotIn env) {id | id < m.nNew} 0 mapInfo m1.vvNew m1.vvTried 0
        m.nNew ∧
      Appends m1 m' 0 false f.newInfos := by
  intro m1
  have hlen : m.nNew = f.newInfos.length := by
    rw [hf.newInfos, length_map]
    exact h.length_entries.1
  have htriedSlot : m1.triedSlot env = m.triedSlot env := triedSlot_congr hf.nKey hasmap
  have hnewSlotIn : m1.newSlotIn env = m.newSlotIn env := newSlotIn_congr hf.nKey
  have hempty : (m0.clear f.nKey).Consistent env := consistent_empty _ _ _
  have ht1 : Tabled (m.triedSlot env) (m.newSlotIn env) {id | id < 0} (-m.nNew) m1.mapInfo m1.vvNew
      m1.vvTried 0 m.nNew := by
    rw [← htriedSlot, ← hnewSlotIn]
    refine { hempty.tabled with
      live := fun k i hk hi _ => hempty.tabled.live k i hk hi (Set.notMem_empty _)
      nNew := ?_ }
    rw [add_neg_cancel, ← hempty.tabled.nNew, add_zero]
    rfl
  have hnodup : (f.newInfos.map (·.toCNetAddr)).Nodup := by
    rw [hf.newInfos]
    exact h.nodup_addr false
  have hspec := loadNewInfos_spec (n := 0) (m := m1) f.newInfos hempty.indexed ht1 hnodup
    fun _ _ => Std.ExtTreeMap.getElem?_empty
  simp only [zero_add, ← hlen, neg_add_cancel] at hspec
  exact hspec

/-- The entries of a file, read into an empty state. -/
theorem Consistent.loadEntries_spec :
    let m1 : CAddrMan := { m0.clear f.nKey with nNew := f.nNew, nTried := f.nTried }
    ∃ m', loadTriedInfos env f.triedInfos 0
        { loadNewInfos f.newInfos 0 m1 with nIdCount := f.nNew } = (0, m') ∧ Unplaced env m m' := by
  intro m1
  obtain ⟨hnNew, hnTried⟩ := h.length_entries
  obtain ⟨mapInfo2, mapAddr2, vRandom2, hrun2, hi2, ht2, happ2⟩ := h.loadNew_spec hf hasmap
  rw [hrun2]
  let m2 : CAddrMan := { m1 with
    mapInfo := mapInfo2, mapAddr := mapAddr2, vRandom := vRandom2, nIdCount := f.nNew }
  have hcount : m2.nIdCount = m.nNew := hf.nNew
  have hslot : m2.triedSlot env = m.triedSlot env := triedSlot_congr hf.nKey hasmap
  have hslotIn : m2.newSlotIn env = m.newSlotIn env := newSlotIn_congr hf.nKey
  have hmem : ∀ i ∈ f.triedInfos, ∃ e ∈ m.entries true, e.2.stored = i := by
    intro i hi
    rw [hf.triedInfos] at hi
    exact mem_map.mp hi
  have htriedEntry := fun (e : Int × CAddrInfo) (he : e ∈ m.entries true) =>
    h.tabled.tried e.1 e.2 (mem_entries.mp he).1 (mem_entries.mp he).2
  have hindexed : m2.IsIndexed := by
    rw [CAddrMan.IsIndexed, hcount]
    exact hi2
  have htabled : Tabled (m2.triedSlot env) (m2.newSlotIn env)
      {id | id < m.nNew} 0 m2.mapInfo m2.vvNew m2.vvTried 0 m2.nNew := by
    rw [hslot, hslotIn, show m2.nNew = m.nNew from hf.nNew]
    exact ht2
  -- The addresses and the slots of the tried entries are free.
  have hfree : ∀ i ∈ f.triedInfos, m2.mapAddr[i.toCNetAddr]? = none := by
    intro i hi
    obtain ⟨e, he, rfl⟩ := hmem i hi
    refine (happ2.addr _ fun hnew => ?_).trans Std.ExtTreeMap.getElem?_empty
    rw [hf.newInfos, map_map] at hnew
    obtain ⟨e', he', heq⟩ := mem_map.mp hnew
    obtain ⟨hid, htrue⟩ := mem_entries.mp he
    obtain ⟨hid', hfalse⟩ := mem_entries.mp he'
    rw [h.indexed.eq_of_addr hid' hid heq, hid, Option.some.injEq] at hid'
    exact absurd (htrue.symm.trans (hid' ▸ hfalse)) (by simp)
  obtain ⟨mapInfo, mapAddr, vRandom, vvTried, hrun, hi', ht', happ', htaken, hother⟩ :=
    loadTriedInfos_spec f.triedInfos 0 hindexed htabled
    (by rw [hf.triedInfos]
        exact h.nodup_addr true)
    hfree
    (by rw [hf.triedInfos, hslot]
        exact nodup_map_entries (fun i => m.triedSlot env i.toCService) fun e he e' he' heq =>
          (htriedEntry e he).1.symm.trans ((congrArg m.vvTried heq).trans (htriedEntry e' he').1))
    (fun _ _ => rfl)
    (fun i hi => by
      obtain ⟨e, he, rfl⟩ := hmem i hi
      exact (htriedEntry e he).2)
  rw [hslot] at htaken hother
  have hlen : f.triedInfos.length = (m.entries true).length := by
    rw [hf.triedInfos, length_map]
  have hstored : ∀ {tried : Bool} {k : Nat} {e : Int × CAddrInfo}, (m.entries tried)[k]? = some e →
      ((m.entries tried).map (·.2.stored))[k]? = some e.2.stored := by
    intro tried k e hk
    rw [List.getElem?_map, hk, Option.map_some]
  refine ⟨_, hrun, ⟨hf.nKey, hf.nNew, hf.nTried, ?_, ?_, ?_, ?_⟩, hasmap, rfl, hi', ?_⟩
  · rw [← hlen, ← hnNew, ← hcount]
  · intro tried k e hk
    rw [kept_of_entries hk]
    cases tried with
    | false =>
      have hklt := (List.getElem?_eq_some_iff.mp hk).1
      rw [loadedId, happ'.others k (.inl (by omega))]
      have hadded := happ2.added k e.2.stored (by rw [hf.newInfos]; exact hstored hk)
      rw [zero_add] at hadded
      exact hadded
    | true =>
      rw [loadedId, ← hnNew, ← hcount]
      exact happ'.added k e.2.stored (by rw [hf.triedInfos]; exact hstored hk)
  · intro k e hk
    rw [loadedId, ← hnNew, ← hcount]
    exact htaken k e.2.stored (by rw [hf.triedInfos]; exact hstored hk)
  · intro slot hfreeSlot
    refine (hother slot fun hslotMem => ?_).trans rfl
    obtain ⟨i, hi, rfl⟩ := mem_map.mp hslotMem
    obtain ⟨e, he, rfl⟩ := hmem i hi
    exact h.tabled.ne_empty (mem_entries.mp he).1 ((htriedEntry e he).1.symm.trans hfreeSlot)
  · rw [hlen, zero_add, ← hnTried, ← hf.nTried] at ht'
    exact ht'.mono fun k hk _ => (Option.isSome_iff_exists.mp hk).elim fun info hinfo =>
      (hi'.ids k info hinfo).1

/-- Loading what was stored of a consistent state. -/
theorem Consistent.load_spec :
    ∃ m' slotOf, m0.load env codec f = .ok m' ∧ Loaded env m slotOf m' := by
  obtain ⟨hnNew, hnTried⟩ := h.length_entries
  obtain ⟨m3, hrun, hu⟩ := h.loadEntries_spec hf hasmap
  -- Each new entry has a slot in the bucket that is noted for it.
  have hnoted : ∀ k : Nat, ∃ slot : NewSlot, ∀ e, (m.entries false)[k]? = some e →
      m.vvNew slot = e.1 ∧
        (entryToBucket f.nNew f.buckets 0 ∅)[(k : Int)]? = some (slot.1.val : Int) := by
    intro k
    cases hk : (m.entries false)[k]? with
    | none => exact ⟨(0, 0), fun e he => absurd he (by simp)⟩
    | some e =>
      obtain ⟨slot, hslot⟩ := h.noted hf hk
      exact ⟨slot, fun e' he' => Option.some.inj he' ▸ hslot⟩
  choose slotOf hslotOf using hnoted
  have hat : ∀ k < (m.entries false).length, ∃ e, (m.entries false)[k]? = some e :=
    fun k hk => ⟨_, List.getElem?_eq_getElem hk⟩
  have hassign : Assigns env codec f (entryToBucket f.nNew f.buckets 0 ∅) m3 slotOf
      (m.entries false).length := by
    refine ⟨hf.format, hf.nUBuckets, by rw [hf.asmapVersion, hu.m_asmap], ?_, ?_, ?_⟩
    · intro k hk
      obtain ⟨e, he⟩ := hat k hk
      obtain ⟨info, hinfo, hkept⟩ := Option.map_eq_some_iff.mp (hu.infos false k e he)
      obtain ⟨hid, hfalse⟩ := mem_entries.mp (mem_of_getElem? he)
      obtain ⟨haddr, htried⟩ := of_kept hkept
      refine ⟨info, hinfo, htried.trans hfalse, ?_⟩
      rw [newSlotIn_congr hu.nKey, haddr]
      exact (h.tabled.slot_of_held hid (hslotOf k e he).1).2
    · intro k hk
      obtain ⟨e, he⟩ := hat k hk
      exact (hslotOf k e he).2
    · intro k hk k' hk' heq
      obtain ⟨e, he⟩ := hat k hk
      obtain ⟨e', he'⟩ := hat k' hk'
      refine index_unique he he' ?_
      rw [← (hslotOf k e he).1, heq, (hslotOf k' e' he').1]
  have hstart : Placed env m3.nTried 0 m3 slotOf 0 m3 :=
    ⟨rfl, hu.indexed, hu.tabled, fun _ => rfl, fun k hk => absurd hk (by omega),
      fun slot _ => by rw [hu.vvNew]⟩
  have hplaced := hstart.run hassign (m.entries false).length le_rfl
  generalize hm' : (range (m.entries false).length).foldl (fun (m : CAddrMan) (n : Nat) =>
    m.placeNew env codec f (entryToBucket f.nNew f.buckets 0 ∅) n) m3 = m' at hplaced
  -- Nothing else changes.
  obtain ⟨mapInfo, vvNew, rfl⟩ : ∃ mapInfo vvNew, m' = { m3 with mapInfo, vvNew } :=
    ⟨_, _, hplaced.frame⟩
  have htabled : CAddrMan.IsTabled { m3 with mapInfo, vvNew } env ∅ 0 := by
    refine { hplaced.tabled with live := fun id info hid hfalse _ => ?_ }
    refine hplaced.tabled.live id info hid hfalse fun hloose => ?_
    -- An identifier after those of the new entries is that of a tried one.
    have hle : ((m.entries false).length : Int) ≤ id := hloose
    have hlt := (hplaced.indexed.ids id info hid).2
    rw [show CAddrMan.nIdCount _ = _ from hu.nIdCount] at hlt
    obtain ⟨k, rfl⟩ : ∃ k : Nat, id = (m.entries false).length + k :=
      ⟨(id - (m.entries false).length).toNat, by omega⟩
    have hk : k < (m.entries true).length := by omega
    have hkept : m3.mapInfo[((m.entries false).length + k : Int)]?.map kept = _ :=
      hu.infos true k _ (List.getElem?_eq_getElem hk)
    rw [← hplaced.kept, hid, Option.map_some, Option.some.injEq,
      kept_of_entries (List.getElem?_eq_getElem hk)] at hkept
    exact absurd (hfalse.symm.trans (congrArg Prod.snd hkept)) (by simp)
  refine ⟨{ m3 with mapInfo, vvNew }, slotOf, ?_,
    ⟨hu.nKey, hu.nNew, hu.nTried, hu.nIdCount, ?_, hu.triedSlot, hu.emptyTried⟩,
    ⟨hplaced.indexed, htabled⟩, fun k e hk => (hslotOf k e hk).1, hplaced.taken, hplaced.empty⟩
  · unfold load
    simp only
    rw [hrun]
    simp only [sub_zero]
    have hto : f.nNew.toNat = (m.entries false).length := by
      rw [hf.nNew, hnNew, Int.toNat_natCast]
    rw [hto, hm']
    exact pruneNew_of_live fun id info hid hfalse =>
      htabled.live id info hid hfalse (Set.notMem_empty _)
  · intro tried k e hk
    rw [hplaced.kept, hu.infos tried k e hk]

end Load

/-! ## The round trip -/

/-- What would be stored of the entry with an identifier. -/
def storedOf (m : CAddrMan) (id : Int) : Option StoredInfo := m.mapInfo[id]?.map CAddrInfo.stored

/-- What is stored is part of what is kept. -/
theorem storedOf_of_kept {id' : Int} (h : m'.mapInfo[id']?.map kept = m.mapInfo[id]?.map kept) :
    m'.storedOf id' = m.storedOf id := by
  have hfst := congrArg (Option.map Prod.fst) h
  rw [Option.map_map, Option.map_map] at hfst
  exact hfst

/-- Every entry is back. -/
theorem Restored.entry (h : Restored env m m') {info : CAddrInfo}
    (hid : m.mapInfo[id]? = some info) :
    ∃ (id' : Int) (info' : CAddrInfo), m'.mapInfo[id']? = some info' ∧ kept info' = kept info := by
  obtain ⟨k, hk⟩ := exists_index hid rfl
  obtain ⟨info', hinfo', hkept⟩ := Option.map_eq_some_iff.mp (h.infos _ k _ hk)
  exact ⟨_, info', hinfo', hkept⟩

/-- Every entry was there. -/
theorem Restored.entry_of (h : Restored env m m') (hi : m'.IsIndexed) {id' : Int}
    {info' : CAddrInfo} (hid' : m'.mapInfo[id']? = some info') :
    ∃ (id : Int) (info : CAddrInfo), m.mapInfo[id]? = some info ∧ kept info' = kept info := by
  obtain ⟨hge, hlt⟩ := hi.ids id' info' hid'
  rw [h.nIdCount] at hlt
  obtain ⟨tried, k, hk, rfl⟩ :
      ∃ tried k, k < (m.entries tried).length ∧ id' = m.loadedId tried k := by
    by_cases hnew : id' < (m.entries false).length
    · exact ⟨false, id'.toNat, by omega, (Int.toNat_of_nonneg hge).symm⟩
    · exact ⟨true, (id' - (m.entries false).length).toNat, by omega, by rw [loadedId]; omega⟩
  have hkept := h.infos tried k _ (List.getElem?_eq_getElem hk)
  rw [hid', Option.map_some, Option.some.injEq] at hkept
  exact ⟨_, _, (mem_entries.mp (getElem_mem hk)).1, hkept⟩

section Loaded

variable (hm : m.Consistent env) (h : Loaded env m slotOf m')

include hm h

/-- The same addresses are found, with the same content. -/
theorem Loaded.find (a : CNetAddr) :
    (m'.find a).map (·.2.stored) = (m.find a).map (·.2.stored) := by
  have hi := hm.indexed
  have hi' := h.consistent.indexed
  have haddr : ∀ {info info' : CAddrInfo}, kept info' = kept info →
      info'.toCNetAddr = info.toCNetAddr :=
    fun hkept => congrArg (fun s : CService => s.toCNetAddr) (of_kept hkept).1
  rcases hfind : m.find a with _ | ⟨id, info⟩
  · rcases hfind' : m'.find a with _ | ⟨id', info'⟩
    · rfl
    · -- An entry that is found afterwards was there before.
      obtain ⟨hid', ha⟩ := (find_eq_some_iff hi' a).mp hfind'
      obtain ⟨id, info, hid, hkept⟩ := h.entry_of hi' hid'
      have hsome := (find_eq_some_iff hi a).mpr ⟨hid, (haddr hkept).symm.trans ha⟩
      simp [hfind] at hsome
  · obtain ⟨hid, ha⟩ := (find_eq_some_iff hi a).mp hfind
    obtain ⟨id', info', hid', hkept⟩ := h.entry hid
    rw [(find_eq_some_iff hi' a).mpr ⟨hid', (haddr hkept).trans ha⟩]
    exact congrArg some (congrArg Prod.fst hkept)

/-- The tried table holds the same entries in the same slots. -/
theorem Loaded.tried_slots (slot : TriedSlot) :
    m'.storedOf (m'.vvTried slot) = m.storedOf (m.vvTried slot) := by
  apply storedOf_of_kept
  by_cases hempty : m.vvTried slot = -1
  · rw [hempty, h.emptyTried slot hempty, hm.tabled.noEmpty, h.consistent.tabled.noEmpty]
  · obtain ⟨info, hid, htrue, hslot⟩ := hm.tabled.triedHeld slot hempty
    obtain ⟨k, hk⟩ := exists_index hid htrue
    rw [← hslot, h.triedSlot k _ hk, h.infos true k _ hk, hslot, hid, Option.map_some]

/-- Every new entry is in exactly one slot, which is one of those it had. -/
theorem Loaded.new_slot {a : CNetAddr} {info : CAddrInfo}
    (hfind : m.find a = some (id, info)) (hfalse : info.fInTried = false) :
    ∃ (id' : Int) (info' : CAddrInfo) (slot : NewSlot), m'.find a = some (id', info') ∧
      info'.fInTried = false ∧ m.vvNew slot = id ∧ ∀ slot', m'.vvNew slot' = id' ↔
        slot' = slot := by
  obtain ⟨hid, ha⟩ := (find_eq_some_iff hm.indexed a).mp hfind
  obtain ⟨k, hk⟩ := exists_index hid hfalse
  obtain ⟨info', hinfo', hkept⟩ := Option.map_eq_some_iff.mp (h.infos false k _ hk)
  obtain ⟨haddr, htried⟩ := of_kept hkept
  have hfind' : m'.find a = some ((k : Int), info') :=
    (find_eq_some_iff h.consistent.indexed a).mpr
      ⟨hinfo', (congrArg (fun s : CService => s.toCNetAddr) haddr).trans ha⟩
  have hklt := (List.getElem?_eq_some_iff.mp hk).1
  refine ⟨k, info', slotOf k, hfind', htried.trans hfalse, h.held k _ hk, fun slot' => ⟨?_, ?_⟩⟩
  · intro hslot'
    by_contra hne
    by_cases hone : ∃ k' < (m.entries false).length, slotOf k' = slot'
    · obtain ⟨k', hk', rfl⟩ := hone
      rw [h.newSlot k' hk', Int.natCast_inj] at hslot'
      exact hne (by rw [hslot'])
    · rw [h.emptyNew slot' fun k' hk' heq => hone ⟨k', hk', heq⟩] at hslot'
      omega
  · rintro rfl
    exact h.newSlot k hklt

end Loaded

/-- A consistent state that is written and read back, with the same map of autonomous systems: the
result is consistent, with the same key and counters, the same entries under the same addresses, the
same entries in the same slots of the tried table, and each new entry in exactly one of the slots of
the new table that it had. -/
theorem unserialize_serialize (env : AddrEnv) (codec : InfoCodec) (m m0 : CAddrMan)
    (hm : m.Consistent env)
    (hcodec : ∀ (id : Int) (info : CAddrInfo), m.mapInfo[id]? = some info →
      Reads (codec.read true) (codec.write info.stored) info.stored)
    (hasmap : m0.m_asmap = m.m_asmap) :
    ∃ bytes m', m.serialize codec = .ok bytes ∧ m0.unserialize env codec bytes = .ok m' ∧
      m'.Consistent env ∧ m'.nKey = m.nKey ∧ m'.nNew = m.nNew ∧ m'.nTried = m.nTried ∧
      (∀ a, (m'.find a).map (·.2.stored) = (m.find a).map (·.2.stored)) ∧
      (∀ slot, m'.storedOf (m'.vvTried slot) = m.storedOf (m.vvTried slot)) ∧
      ∀ a id info, m.find a = some (id, info) → info.fInTried = false →
        ∃ id' info' slot, m'.find a = some (id', info') ∧ info'.fInTried = false ∧
          m.vvNew slot = id ∧ ∀ slot', m'.vvNew slot' = id' ↔ slot' = slot := by
  obtain ⟨f, htoFile, hf⟩ := hm.toFile_spec codec
  obtain ⟨m', slotOf, hload, hloaded⟩ := hm.load_spec hf hasmap
  have hread := readFile_bytes codec f (hm.writable hf hcodec) []
  rw [append_nil] at hread
  refine ⟨f.bytes codec, m', ?_, ?_, hloaded.consistent, hloaded.nKey, hloaded.nNew, hloaded.nTried,
    hloaded.find hm, hloaded.tried_slots hm, fun a id info => hloaded.new_slot hm⟩
  · rw [serialize, htoFile]
    rfl
  · rw [unserialize, hread]
    simp only [hload]

/-- What is stored of a host after the run of `collisionRun`. -/
def hostInfo (n : UInt8) : StoredInfo :=
  { toCAddress := host n 1337, source := {}, nLastSuccess := 100000001, nAttempts := 0 }

/-- An encoding for these hosts. -/
def hostCodec : InfoCodec where
  write i := writeLE 1 (i.m_addr.getLastD 0).toNat
  read _ := do
    let n ← readLE 1
    pure (hostInfo (UInt8.ofNat n))
  serializeHash _ := 0

theorem reads_hostInfo (n : UInt8) :
    Reads (hostCodec.read true) (hostCodec.write (hostInfo n)) (hostInfo n) := by
  have hlt : n.toNat < 256 ^ 1 := n.toNat_lt
  have h := (Reads.readLE hlt).bind_pure fun n => hostInfo (UInt8.ofNat n)
  rw [UInt8.ofNat_toNat] at h
  exact h

/-- The state with one new and one tried entry comes back. -/
theorem unserialize_serialize_collision : ∃ (m : CAddrMan) (bytes : List UInt8) (m' : CAddrMan),
    m.nTried = 1 ∧ m.nNew = 1 ∧ m.serialize hostCodec = .ok bytes ∧
    CAddrMan.unserialize flatEnv hostCodec { nKey := 2 } bytes = .ok m' ∧
    m'.nKey = m.nKey ∧ m'.nTried = 1 ∧ m'.nNew = 1 := by
  obtain ⟨m, hm, htried, hnew, hasmap, hinfos⟩ := reaches_of_run (l := collisionRun)
    (P := fun m => m.nTried = 1 ∧ m.nNew = 1 ∧ m.m_asmap = [] ∧
      ∀ e ∈ m.mapInfo.toList, e.2.stored = hostInfo 1 ∨ e.2.stored = hostInfo 2)
    (fun _ => mem_append_left _) (by decide +kernel)
  obtain ⟨bytes, m', hser, hunser, -, hkey, hnew', htried', -⟩ :=
    unserialize_serialize flatEnv hostCodec m { nKey := 2 } hm.of_plain.consistent
        (fun id info hid => by
      rcases hinfos (id, info) (Std.ExtTreeMap.mem_toList_iff_getElem?_eq_some.mpr hid) with h | h
      · rw [h]
        exact reads_hostInfo 1
      · rw [h]
        exact reads_hostInfo 2) hasmap.symm
  exact ⟨m, bytes, m', htried, hnew, hser, hunser, hkey, htried'.trans htried, hnew'.trans hnew⟩

end CAddrMan

end DefcoinCore.AddrMan
