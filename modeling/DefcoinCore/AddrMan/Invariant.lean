import DefcoinCore.AddrMan.State
import DefcoinCore.Lib.Table

/-!
# The representation invariant of the address manager

The invariant has two parts. `Indexed` relates the entries to `mapAddr`, `vRandom` and the
identifiers in use; it reads the address and the position of an entry. `Tabled` relates the entries
to the two tables and the counters; it reads the address with its port, the reference count, the
flag of the tried table and the last success of an entry. An update that keeps what a part reads
keeps that part, so the functions that move entries between tables only have to account for
`Tabled`, and those that reorder `vRandom` only for `Indexed`.

Inside a function the tables pass through states in which some entries are *loose* (in neither
table) and in which `nNew` is *short* of the number of entries that are not tried. `Tabled` has both
as parameters; at rest no entry is loose and nothing is short.
-/

namespace DefcoinCore.AddrMan

open DefcoinCore Option StdMap Function

/-- The entries, `mapAddr` and `vRandom` index each other. -/
structure Indexed (nIdCount : Int) (mapInfo : StdMap Int CAddrInfo) (mapAddr : StdMap CNetAddr Int)
    (vRandom : List Int) : Prop where
  count : 0 ≤ nIdCount
  /-- Identifiers in use are below the counter. -/
  ids : ∀ (id : Int) (info : CAddrInfo), mapInfo[id]? = some info → 0 ≤ id ∧ id < nIdCount
  /-- `mapAddr` finds the entry of an address, and nothing else. -/
  addr : ∀ (a : CNetAddr) (id : Int), mapAddr[a]? = some id ↔
    ∃ info : CAddrInfo, mapInfo[id]? = some info ∧ info.toCNetAddr = a
  /-- `nRandomPos` is the inverse of `vRandom`. -/
  random : ∀ (n : Nat) (id : Int),
    vRandom[n]? = some id ↔ ∃ info : CAddrInfo, mapInfo[id]? = some info ∧ info.nRandomPos = n
  position : ∀ (id : Int) (info : CAddrInfo), mapInfo[id]? = some info → 0 ≤ info.nRandomPos

/-- The entries agree with the tables and the counters. -/
structure Tabled (triedSlot : CService → TriedSlot)
    (newSlotIn : CService → Fin newBucketCount → NewSlot) (loose : Set Int) (short : Int)
    (mapInfo : StdMap Int CAddrInfo) (vvNew : NewSlot → Int) (vvTried : TriedSlot → Int)
    (nTried nNew : Int) : Prop where
  /-- `-1` stands for an empty slot and is no identifier. -/
  noEmpty : mapInfo[(-1 : Int)]? = none
  /-- The reference count counts the slots of the new table. -/
  refs : ∀ (id : Int) (info : CAddrInfo), mapInfo[id]? = some info →
    info.nRefCount = Table.refs vvNew id
  few : ∀ (id : Int) (info : CAddrInfo), mapInfo[id]? = some info →
    info.nRefCount ≤ newBucketsPerAddress
  /-- An entry that is not loose is in one of the tables. -/
  live : ∀ (id : Int) (info : CAddrInfo), mapInfo[id]? = some info → info.fInTried = false →
    id ∉ loose →
    info.nRefCount ≠ 0
  /-- A slot of the new table holds an entry that is not tried, at its position in the bucket. -/
  held : ∀ slot, vvNew slot ≠ -1 → ∃ info : CAddrInfo, mapInfo[vvNew slot]? = some info ∧
    info.fInTried = false ∧ newSlotIn info.toCService slot.1 = slot
  /-- A tried entry is in its slot, and has been connected to. -/
  tried : ∀ (id : Int) (info : CAddrInfo), mapInfo[id]? = some info → info.fInTried →
    vvTried (triedSlot info.toCService) = id ∧ info.nLastSuccess ≠ 0
  /-- A slot of the tried table holds a tried entry that belongs there. -/
  triedHeld : ∀ slot, vvTried slot ≠ -1 → ∃ info : CAddrInfo, mapInfo[vvTried slot]? = some info ∧
    info.fInTried ∧ triedSlot info.toCService = slot
  nTried : nTried = mapInfo.countP (·.fInTried)
  nNew : nNew + short = mapInfo.countP fun info => !info.fInTried

/-- `Indexed` for a state. -/
abbrev CAddrMan.IsIndexed (m : CAddrMan) : Prop :=
  Indexed m.nIdCount m.mapInfo m.mapAddr m.vRandom

/-- `Tabled` for a state, with the slots that its key gives to the addresses. -/
abbrev CAddrMan.IsTabled (m : CAddrMan) (env : AddrEnv) (loose : Set Int) (short : Int) : Prop :=
  Tabled (m.triedSlot env) (m.newSlotIn env) loose short m.mapInfo m.vvNew m.vvTried m.nTried m.nNew

/-- The representation invariant. -/
structure CAddrMan.Consistent (env : AddrEnv) (m : CAddrMan) : Prop where
  indexed : m.IsIndexed
  tabled : m.IsTabled env ∅ 0

/-! ## Indexes -/

section Indexed

variable {nIdCount : Int} {mapInfo : StdMap Int CAddrInfo} {mapAddr : StdMap CNetAddr Int}
  {vRandom : List Int} {id id' : Int} {info info' : CAddrInfo}
  (h : Indexed nIdCount mapInfo mapAddr vRandom) (hid : mapInfo[id]? = some info)
include h hid

/-- Two entries with one address are the same. -/
theorem Indexed.eq_of_addr (hid' : mapInfo[id']? = some info')
    (heq : info.toCNetAddr = info'.toCNetAddr) : id = id' := by
  have ha := (h.addr info'.toCNetAddr id).mpr ⟨info, hid, heq⟩
  rw [(h.addr _ id').mpr ⟨info', hid', rfl⟩, some.injEq] at ha
  exact ha.symm

/-- An entry stands in `vRandom` at its position. -/
theorem Indexed.getElem?_vRandom : vRandom[info.nRandomPos.toNat]? = some id := by
  have hpos := h.position id info hid
  exact (h.random _ id).mpr ⟨info, hid, by omega⟩

/-- The position of an entry is in range. -/
theorem Indexed.position_lt : info.nRandomPos < vRandom.length := by
  have hlt := (List.getElem?_eq_some_iff.mp (h.getElem?_vRandom hid)).1
  omega

/-- Overwriting an entry keeps the indexes when its address and position stay. -/
theorem Indexed.setInfo (haddr : info'.toCNetAddr = info.toCNetAddr)
    (hpos : info'.nRandomPos = info.nRandomPos) :
    Indexed nIdCount (mapInfo.insert id info') mapAddr vRandom := by
  refine ⟨h.count, ?_, ?_, ?_, ?_⟩
  · exact forall_insert (h.ids id info hid) fun k i _ => h.ids k i
  · intro a k
    rw [h.addr a k, getElem?_insert]
    split_ifs with heq
    · simp [← heq, hid, haddr]
    · rfl
  · intro n k
    rw [h.random n k, getElem?_insert]
    split_ifs with heq
    · simp [← heq, hid, hpos]
    · rfl
  · exact forall_insert (hpos ▸ h.position id info hid) fun k i _ => h.position k i

omit hid in
/-- The next id is free. -/
theorem Indexed.fresh : mapInfo[nIdCount]? = none := by
  rcases hi : mapInfo[nIdCount]? with _ | i
  · rfl
  · have := (h.ids _ i hi).2
    omega

omit hid in
/-- A new entry under a fresh identifier and address, at the end of `vRandom`. -/
theorem Indexed.create (info : CAddrInfo)
    (hfree : mapAddr[info.toCNetAddr]? = none) (hpos : info.nRandomPos = vRandom.length) :
    Indexed (nIdCount + 1) (mapInfo.insert nIdCount info)
      (mapAddr.insert info.toCNetAddr nIdCount) (vRandom ++ [nIdCount]) := by
  have hnone := h.fresh
  have hcount := h.count
  refine ⟨by omega, ?_, ?_, ?_, ?_⟩
  · refine forall_insert (by omega) fun k i _ hk => ?_
    have := h.ids k i hk
    omega
  · intro a k
    rw [getElem?_insert, getElem?_insert]
    split_ifs with ha hk hk
    · simp [ha, hk]
    · rw [← h.addr a k, ← ha, hfree]
      simp [hk]
    · rw [h.addr a k, ← hk, hnone]
      simp [ha]
    · exact h.addr a k
  · intro n k
    rw [getElem?_insert, List.getElem?_append]
    split_ifs with hn hk hk
    · -- The positions in range are those of the old entries.
      rw [h.random n k, ← hk, hnone]
      simp only [reduceCtorEq, false_and, exists_false, some.injEq, exists_eq_left', false_iff]
      omega
    · exact h.random n k
    · simp only [List.getElem?_singleton, hk, ite_none_right_eq_some, and_true,
        some.injEq, exists_eq_left']
      omega
    · refine iff_of_false ?_ fun ⟨i, hi, hin⟩ => ?_
      · rw [List.getElem?_singleton]
        simp [hk]
      · have := h.position_lt hi
        omega
  · exact forall_insert (by omega) fun k i _ => h.position k i

/-- Two entries change places in `vRandom`. -/
theorem Indexed.swap (hid' : mapInfo[id']? = some info') (hne : id ≠ id') :
    Indexed nIdCount
      ((mapInfo.insert id { info with nRandomPos := info'.nRandomPos }).insert id'
        { info' with nRandomPos := info.nRandomPos })
      mapAddr
      ((vRandom.set info.nRandomPos.toNat id').set info'.nRandomPos.toNat id) := by
  have hlt := h.position_lt hid
  have hlt' := h.position_lt hid'
  have hpos := h.position id info hid
  have hpos' := h.position id' info' hid'
  have hat := h.getElem?_vRandom hid
  have hat' := h.getElem?_vRandom hid'
  have hpositions : info.nRandomPos.toNat ≠ info'.nRandomPos.toNat := by
    intro heq
    rw [heq, hat'] at hat
    exact hne (some.inj hat).symm
  refine ⟨h.count, ?_, ?_, ?_, ?_⟩
  · refine forall_insert (h.ids id' info' hid') fun k i _ hk => ?_
    obtain ⟨rfl, -⟩ | ⟨-, hk⟩ := insert_eq_some_iff.mp hk
    · exact h.ids k info hid
    · exact h.ids k i hk
  · intro a k
    rw [h.addr a k, getElem?_insert, getElem?_insert]
    split_ifs with h1 h2
    · simp [← h1, hid']
    · simp [← h2, hid]
    · rfl
  · -- The entry decides: the two have each other's position, any other one keeps its own.
    intro n k
    have hn := h.random n k
    have hset : ((vRandom.set info.nRandomPos.toNat id').set info'.nRandomPos.toNat id)[n]? =
        if info'.nRandomPos = n then some id else if info.nRandomPos = n then some id'
        else vRandom[n]? := by
      rw [List.getElem?_set, List.getElem?_set, List.length_set]
      split_ifs <;> first | rfl | omega
    rw [hset, getElem?_insert, getElem?_insert]
    by_cases h1 : id' = k
    · subst h1
      simp only [hid', if_true, some.injEq, exists_eq_left'] at hn ⊢
      split_ifs
      · rw [some.injEq]
        omega
      · simpa
      · rw [hn]
        omega
    by_cases h2 : id = k
    · subst h2
      simp only [hid, if_neg h1, if_true, some.injEq, exists_eq_left'] at hn ⊢
      split_ifs
      · simpa
      · rw [some.injEq]
        omega
      · rw [hn]
        omega
    rw [if_neg h1, if_neg h2, ← hn]
    split_ifs with hb ha
    · rw [show n = info'.nRandomPos.toNat by omega, hat', some.injEq, some.injEq]
      exact iff_of_false h2 h1
    · rw [show n = info.nRandomPos.toNat by omega, hat, some.injEq, some.injEq]
      exact iff_of_false h1 h2
    · rfl
  · refine forall_insert hpos fun k i _ hk => ?_
    obtain ⟨-, rfl⟩ | ⟨-, hk⟩ := insert_eq_some_iff.mp hk
    · exact hpos'
    · exact h.position k i hk

/-- The last entry of `vRandom` leaves. -/
theorem Indexed.erase (hlast : info.nRandomPos = vRandom.length - 1) :
    Indexed nIdCount (mapInfo.erase id) (mapAddr.erase info.toCNetAddr) vRandom.dropLast := by
  refine ⟨h.count, ?_, ?_, ?_, ?_⟩
  · exact fun k i hk => h.ids k i (erase_eq_some_iff.mp hk).2
  · intro a k
    rw [getElem?_erase, getElem?_erase]
    split_ifs with ha hk hk
    · simp
    · exact iff_of_false nofun fun ⟨i, hi, hia⟩ => hk (h.eq_of_addr hid hi (ha.trans hia.symm))
    · rw [h.addr a k, ← hk, hid]
      simp [ha]
    · exact h.addr a k
  · intro n k
    rw [getElem?_erase, List.getElem?_dropLast]
    split_ifs with hn hk hk
    · -- Its position was the last one, which is cut off.
      rw [h.random n k, ← hk, hid]
      simp only [some.injEq, exists_eq_left', false_and, exists_false, iff_false]
      omega
    · exact h.random n k
    · simp
    · refine iff_of_false nofun fun ⟨i, hi, hin⟩ => ?_
      have hi_lt := h.position_lt hi
      have hlast' := h.getElem?_vRandom hid
      rw [show info.nRandomPos.toNat = i.nRandomPos.toNat by omega, h.getElem?_vRandom hi] at hlast'
      exact hk (some.inj hlast').symm
  · exact fun k i hk => h.position k i (erase_eq_some_iff.mp hk).2

end Indexed

/-! ## Tables -/

section Tabled

variable {triedSlot : CService → TriedSlot} {newSlotIn : CService → Fin newBucketCount → NewSlot}
  {loose loose' : Set Int} {short short' : Int} {mapInfo : StdMap Int CAddrInfo}
  {vvNew vvNew' : NewSlot → Int} {vvTried vvTried' : TriedSlot → Int}
  {nTried nTried' nNew nNew' : Int} {id : Int} {info info' : CAddrInfo}

/-- Only the slots that hold `id` or nothing change, and they change to `id` or nothing. -/
def OnlyMoves {I : Type} (id : Int) (t t' : I → Int) : Prop :=
  ∀ slot, t' slot = t slot ∨ ((t slot = id ∨ t slot = -1) ∧ (t' slot = id ∨ t' slot = -1))

theorem OnlyMoves.refl {I : Type} (id : Int) (t : I → Int) : OnlyMoves id t t := fun _ => .inl rfl

/-- The slots of other entries stay. -/
theorem OnlyMoves.eq_iff {I : Type} {t t' : I → Int} (h : OnlyMoves id t t') {k : Int}
    (hk : k ≠ id) (hk' : k ≠ -1) (slot : I) : t' slot = k ↔ t slot = k := by
  have hslot := h slot
  omega

/-- What the entries in slots have, after one entry was overwritten and only its slots moved. -/
theorem OnlyMoves.held {I : Type} {t t' : I → Int} (h : OnlyMoves id t t')
    {P : I → CAddrInfo → Prop}
    (hheld : ∀ slot, t slot ≠ -1 → ∃ i, mapInfo[t slot]? = some i ∧ P slot i)
    (hself : ∀ slot, t' slot = id → P slot info') (slot : I) (hslot : t' slot ≠ -1) :
    ∃ i, (mapInfo.insert id info')[t' slot]? = some i ∧ P slot i := by
  rw [getElem?_insert]
  split_ifs with hid
  · exact ⟨info', rfl, hself slot hid.symm⟩
  · have heq := (h.eq_iff (Ne.symm hid) hslot slot).mp rfl
    rw [← heq] at hslot ⊢
    exact hheld slot hslot

/-- Writing `id`, or nothing, into one slot that held `id` or nothing. -/
theorem OnlyMoves.update {I : Type} [DecidableEq I] {t : I → Int} {slot : I} {k : Int}
    (hold : t slot = id ∨ t slot = -1) (hnew : k = id ∨ k = -1) :
    OnlyMoves id t (Function.update t slot k) := by
  intro s
  by_cases hs : s = slot
  · rw [hs, update_self]
    exact .inr ⟨hold, hnew⟩
  · rw [update_of_ne hs]
    exact .inl rfl

variable (h : Tabled triedSlot newSlotIn loose short mapInfo vvNew vvTried nTried nNew)
include h

/-- Nothing is lost when more entries may be loose. -/
theorem Tabled.mono (hloose : ∀ k, mapInfo[k]?.isSome → k ∈ loose → k ∈ loose') :
    Tabled triedSlot newSlotIn loose' short mapInfo vvNew vvTried nTried nNew :=
  { h with
    live := fun k i hk hi hkl => h.live k i hk hi fun hl => hkl (hloose k (by simp [hk]) hl) }

/-- A new entry is loose. -/
theorem Tabled.create (info : CAddrInfo) (hid : mapInfo[id]? = none) (hempty : id ≠ -1)
    (hfalse : info.fInTried = false) (hzero : info.nRefCount = 0) :
    Tabled triedSlot newSlotIn (insert id loose) (short + 1) (mapInfo.insert id info) vvNew vvTried
      nTried nNew := by
  have hfresh : ∀ slot, vvNew slot ≠ id := by
    intro slot heq
    obtain ⟨i, hi, -⟩ := h.held slot (heq ▸ hempty)
    simp [heq, hid] at hi
  refine ⟨?_, ?_, ?_, ?_, ?_, ?_, ?_, ?_, ?_⟩
  · rw [getElem?_insert, if_neg hempty]
    exact h.noEmpty
  · refine forall_insert ?_ fun k i _ => h.refs k i
    rw [hzero, (Table.refs_eq_zero_iff vvNew id).mpr hfresh]
    rfl
  · refine forall_insert ?_ fun k i _ => h.few k i
    rw [hzero]
    decide
  · exact forall_insert (fun _ hl => absurd (.inl rfl) hl) fun k i _ hk hi hl =>
      h.live k i hk hi fun hkl => hl (.inr hkl)
  · exact (OnlyMoves.refl id vvNew).held h.held fun slot heq => absurd heq (hfresh slot)
  · exact forall_insert (fun hi => nomatch hfalse.symm.trans hi) fun k i _ => h.tried k i
  · refine (OnlyMoves.refl id vvTried).held h.triedHeld fun slot heq => ?_
    obtain ⟨i, hi, -⟩ := h.triedHeld slot (heq ▸ hempty)
    simp [heq, hid] at hi
  · rw [countP_insert_of_none _ _ _ _ hid, h.nTried, hfalse]
    simp
  · have hold := h.nNew
    rw [countP_insert_of_none _ _ _ _ hid, hfalse]
    simp only [Bool.not_false, Bool.toNat_true]
    omega

variable (hid : mapInfo[id]? = some info)
include hid

/-- An identifier in use does not stand for an empty slot. -/
theorem Tabled.ne_empty : id ≠ -1 := by
  intro heq
  simp [heq, h.noEmpty] at hid

/-- One entry changes, and with it the slots that hold it: what has to be shown of that entry. -/
theorem Tabled.update (haddr : info'.toCService = info.toCService)
    (hrefs : info'.nRefCount = Table.refs vvNew' id)
    (hfew : info'.nRefCount ≤ newBucketsPerAddress)
    (hlive : info'.fInTried = false → id ∉ loose' → info'.nRefCount ≠ 0)
    (hloose : ∀ k, k ≠ id → k ∈ loose → k ∈ loose')
    (hnew : OnlyMoves id vvNew vvNew')
    (hheld : ∀ slot, vvNew' slot = id →
      info'.fInTried = false ∧ newSlotIn info.toCService slot.1 = slot)
    (hmoves : OnlyMoves id vvTried vvTried')
    (htried : info'.fInTried →
      vvTried' (triedSlot info.toCService) = id ∧ info'.nLastSuccess ≠ 0)
    (htriedHeld : ∀ slot, vvTried' slot = id →
      info'.fInTried ∧ triedSlot info.toCService = slot)
    (hnTried : nTried' + info.fInTried.toNat = nTried + info'.fInTried.toNat)
    (hnNew : nNew' + short' + (!info.fInTried).toNat = nNew + short + (!info'.fInTried).toNat) :
    Tabled triedSlot newSlotIn loose' short' (mapInfo.insert id info') vvNew' vvTried'
      nTried' nNew' := by
  refine ⟨?_, ?_, ?_, ?_, ?_, ?_, ?_, ?_, ?_⟩
  · rw [getElem?_insert, if_neg (h.ne_empty hid)]
    exact h.noEmpty
  · refine forall_insert hrefs fun k i hkid hk => ?_
    rw [h.refs k i hk]
    exact congrArg Nat.cast
      (Table.refs_congr fun slot => (hnew.eq_iff hkid (h.ne_empty hk) slot).symm)
  · exact forall_insert hfew fun k i _ => h.few k i
  · exact forall_insert hlive fun k i hkid hk hi hkl =>
      h.live k i hk hi fun hl => hkl (hloose k hkid hl)
  · exact hnew.held h.held fun slot hslot => haddr ▸ hheld slot hslot
  · refine forall_insert (haddr ▸ htried) fun k i hkid hk hi => ?_
    obtain ⟨hat, hsucc⟩ := h.tried k i hk hi
    exact ⟨(hmoves.eq_iff hkid (h.ne_empty hk) _).mpr hat, hsucc⟩
  · exact hmoves.held h.triedHeld fun slot hslot => haddr ▸ htriedHeld slot hslot
  · have hcount := countP_insert_of_some (fun i : CAddrInfo => i.fInTried) mapInfo id info info' hid
    have hold := h.nTried
    omega
  · have hcount := countP_insert_of_some (fun i : CAddrInfo => !i.fInTried) mapInfo id info
      info' hid
    have hold := h.nNew
    omega

/-- A slot that holds an entry of the new table is the entry's slot in that bucket. -/
theorem Tabled.slot_of_held {slot : NewSlot} (hslot : vvNew slot = id) :
    info.fInTried = false ∧ newSlotIn info.toCService slot.1 = slot := by
  obtain ⟨i, hi, hrest⟩ := h.held slot (hslot ▸ h.ne_empty hid)
  rw [hslot, hid, some.injEq] at hi
  exact hi ▸ hrest

/-- A slot that holds an entry of the tried table is the entry's slot. -/
theorem Tabled.slot_of_triedHeld {slot : TriedSlot} (hslot : vvTried slot = id) :
    info.fInTried ∧ triedSlot info.toCService = slot := by
  obtain ⟨i, hi, hrest⟩ := h.triedHeld slot (hslot ▸ h.ne_empty hid)
  rw [hslot, hid, some.injEq] at hi
  exact hi ▸ hrest

/-- A tried entry has no references in the new table. -/
theorem Tabled.refs_tried (htried : info.fInTried) : info.nRefCount = 0 := by
  rw [h.refs id info hid]
  refine congrArg Nat.cast ((Table.refs_eq_zero_iff vvNew id).mpr fun slot heq => ?_)
  cases htried.symm.trans (h.slot_of_held hid heq).1

/-- Overwriting an entry keeps the tables when nothing they are about changes. -/
theorem Tabled.setInfo (haddr : info'.toCService = info.toCService)
    (hrefs : info'.nRefCount = info.nRefCount) (htried : info'.fInTried = info.fInTried)
    (hsucc : info'.fInTried → info'.nLastSuccess ≠ 0) :
    Tabled triedSlot newSlotIn loose short (mapInfo.insert id info') vvNew vvTried nTried nNew := by
  refine h.update hid haddr ?_ ?_ ?_ (fun _ _ hl => hl) (.refl _ _) ?_ (.refl _ _) ?_ ?_ ?_ ?_
  · rw [hrefs, h.refs id info hid]
  · rw [hrefs]
    exact h.few id info hid
  · intro hfalse hl
    rw [hrefs]
    exact h.live id info hid (htried ▸ hfalse) hl
  · intro slot hslot
    rw [htried]
    exact h.slot_of_held hid hslot
  · intro htrue
    exact ⟨(h.tried id info hid (htried ▸ htrue)).1, hsucc htrue⟩
  · intro slot hslot
    rw [htried]
    exact h.slot_of_triedHeld hid hslot
  · rw [htried]
  · rw [htried]

/-- A slot of the new table gives up an entry, which may be loose then. -/
theorem Tabled.unref {slot : NewSlot} (hslot : vvNew slot = id) :
    Tabled triedSlot newSlotIn (insert id loose) short
      (mapInfo.insert id { info with nRefCount := info.nRefCount - 1 })
      (Function.update vvNew slot (-1)) vvTried nTried nNew := by
  have hempty := h.ne_empty hid
  have hrefs := Table.refs_update vvNew slot (-1) id
  rw [if_pos hslot, if_neg (Ne.symm hempty)] at hrefs
  have hcount := h.refs id info hid
  have hfew := h.few id info hid
  refine h.update hid rfl ?_ ?_ ?_ (fun _ _ hl => .inr hl) (.update (.inl hslot) (.inr rfl)) ?_
    (.refl _ _) ?_ ?_ rfl rfl
  · simp only
    omega
  · simp only
    omega
  · intro _ hl
    exact absurd (.inl rfl) hl
  · intro s hs
    by_cases heq : s = slot
    · rw [heq, update_self] at hs
      exact absurd hs.symm hempty
    · rw [update_of_ne heq] at hs
      exact h.slot_of_held hid hs
  · exact h.tried id info hid
  · exact fun _ => h.slot_of_triedHeld hid

/-- An empty slot takes an entry at its position in the bucket, which is not loose then. -/
theorem Tabled.ref (loose' : Set Int) (nRefCount : Int) (hfalse : info.fInTried = false)
    (hfew : info.nRefCount < newBucketsPerAddress) {slot : NewSlot} (hslot : vvNew slot = -1)
    (hpos : newSlotIn info.toCService slot.1 = slot)
    (hloose : ∀ k, k ≠ id → k ∈ loose → k ∈ loose')
    (hn : nRefCount = info.nRefCount + 1) :
    Tabled triedSlot newSlotIn loose' short (mapInfo.insert id { info with nRefCount := nRefCount })
      (Function.update vvNew slot id) vvTried nTried nNew := by
  have hempty := h.ne_empty hid
  have hrefs := Table.refs_update vvNew slot id id
  rw [hslot, if_neg (Ne.symm hempty), if_pos rfl] at hrefs
  have hcount := h.refs id info hid
  refine h.update hid rfl ?_ ?_ ?_ hloose (.update (.inr hslot) (.inl rfl)) ?_ (.refl _ _) ?_ ?_ rfl
    rfl
  · simp only
    omega
  · simp only
    omega
  · intro _ _
    simp only
    omega
  · intro s hs
    refine ⟨hfalse, ?_⟩
    by_cases heq : s = slot
    · rw [heq]
      exact hpos
    · rw [update_of_ne heq] at hs
      exact (h.slot_of_held hid hs).2
  · exact h.tried id info hid
  · exact fun _ => h.slot_of_triedHeld hid

/-- A tried entry leaves its slot. It is loose then, and not counted as new. -/
theorem Tabled.leaveTried (htrue : info.fInTried) :
    Tabled triedSlot newSlotIn (insert id loose) (short + 1)
      (mapInfo.insert id { info with fInTried := false }) vvNew
      (Function.update vvTried (triedSlot info.toCService) (-1)) (nTried - 1) nNew := by
  have hempty := h.ne_empty hid
  refine h.update hid rfl (h.refs id info hid) (h.few id info hid) ?_ (fun _ _ hl => .inr hl)
    (.refl _ _) ?_ (.update (.inl (h.tried id info hid htrue).1) (.inr rfl)) ?_ ?_ ?_ ?_
  · intro _ hl
    exact absurd (.inl rfl) hl
  · intro slot hslot
    exact ⟨rfl, (h.slot_of_held hid hslot).2⟩
  · exact fun hf => absurd hf (by simp)
  · intro slot hslot
    by_cases heq : slot = triedSlot info.toCService
    · rw [heq, update_self] at hslot
      exact absurd hslot.symm hempty
    · rw [update_of_ne heq] at hslot
      exact absurd (h.slot_of_triedHeld hid hslot).2.symm heq
  · simp only [htrue, Bool.toNat_true, Bool.toNat_false]
    omega
  · simp only [htrue, Bool.not_true, Bool.not_false, Bool.toNat_true, Bool.toNat_false]
    omega

/-- A loose entry without references enters its empty slot of the tried table. -/
theorem Tabled.enterTried (hfalse : info.fInTried = false) (hzero : info.nRefCount = 0)
    (hsucc : info.nLastSuccess ≠ 0) (hslot : vvTried (triedSlot info.toCService) = -1)
    (hloose : ∀ k, k ≠ id → k ∈ loose → k ∈ loose') :
    Tabled triedSlot newSlotIn loose' (short - 1)
      (mapInfo.insert id { info with fInTried := true }) vvNew
      (Function.update vvTried (triedSlot info.toCService) id) (nTried + 1) nNew := by
  have hrefs := h.refs id info hid
  refine h.update hid rfl hrefs (h.few id info hid) ?_ hloose (.refl _ _) ?_
    (.update (.inr hslot) (.inl rfl)) ?_ ?_ ?_ ?_
  · exact fun hf => absurd hf (by simp)
  · intro slot hs
    have hpos := Table.refs_pos vvNew hs
    omega
  · intro _
    exact ⟨by rw [update_self], hsucc⟩
  · intro slot hs
    refine ⟨rfl, ?_⟩
    by_contra heq
    rw [update_of_ne (Ne.symm heq)] at hs
    cases hfalse.symm.trans (h.slot_of_triedHeld hid hs).1
  · simp only [hfalse, Bool.toNat_true, Bool.toNat_false]
    omega
  · simp only [hfalse, Bool.not_true, Bool.not_false, Bool.toNat_true, Bool.toNat_false]
    omega

/-- An entry that is in neither table leaves. -/
theorem Tabled.erase (hfalse : info.fInTried = false) (hzero : info.nRefCount = 0)
    (hloose : ∀ k, k ≠ id → k ∈ loose → k ∈ loose') :
    Tabled triedSlot newSlotIn loose' (short - 1) (mapInfo.erase id) vvNew vvTried nTried nNew := by
  have hother : ∀ {k : Int}, k ≠ id → (mapInfo.erase id)[k]? = mapInfo[k]? := by
    intro k hk
    rw [getElem?_erase, if_neg (Ne.symm hk)]
  have hold {k : Int} {i : CAddrInfo} := @erase_eq_some_iff _ _ _ _ _ mapInfo id _ k i
  have hrefs := h.refs id info hid
  refine ⟨?_, ?_, ?_, ?_, ?_, ?_, ?_, ?_, ?_⟩
  · rw [hother (Ne.symm (h.ne_empty hid))]
    exact h.noEmpty
  · exact fun k i hk => h.refs k i (hold.mp hk).2
  · exact fun k i hk => h.few k i (hold.mp hk).2
  · exact fun k i hk hi hl => h.live k i (hold.mp hk).2 hi fun hkl =>
      hl (hloose k (hold.mp hk).1 hkl)
  · intro slot hslot
    have hne : vvNew slot ≠ id := by
      intro heq
      have hpos := Table.refs_pos vvNew heq
      omega
    rw [hother hne]
    exact h.held slot hslot
  · exact fun k i hk => h.tried k i (hold.mp hk).2
  · intro slot hslot
    have hne : vvTried slot ≠ id := by
      intro heq
      cases hfalse.symm.trans (h.slot_of_triedHeld hid heq).1
    rw [hother hne]
    exact h.triedHeld slot hslot
  · have hcount := countP_erase_of_some (fun i : CAddrInfo => i.fInTried) mapInfo id info hid
    rw [hfalse] at hcount
    rw [h.nTried, ← hcount]
    rfl
  · have hcount := countP_erase_of_some (fun i : CAddrInfo => !i.fInTried) mapInfo id info hid
    have hn := h.nNew
    rw [hfalse] at hcount
    simp only [Bool.not_false, Bool.toNat_true] at hcount
    omega

end Tabled

/-! ## The empty state -/

/-- An empty address manager is consistent, whatever collisions are left. -/
theorem CAddrMan.consistent_empty {env : AddrEnv} (nKey : Uint256) (asmap : List Bool)
    (collisions : Std.ExtTreeSet Int) :
    ({ nKey := nKey, m_asmap := asmap, m_tried_collisions := collisions } : CAddrMan).Consistent
      env := by
  have hnone : ∀ {k : Int} {i : CAddrInfo} {P : Prop},
    (∅ : StdMap Int CAddrInfo)[k]? = some i → P :=
    fun h => absurd h (by simp)
  refine ⟨⟨le_refl _, fun _ _ => hnone, ?_, ?_, fun _ _ => hnone⟩,
    ⟨Std.ExtTreeMap.getElem?_empty, fun _ _ => hnone, fun _ _ => hnone,
      fun _ _ => hnone, fun _ h => absurd rfl h, fun _ _ => hnone,
      fun _ h => absurd rfl h, ?_, ?_⟩⟩
  · intro a id
    refine iff_of_false ?_ fun ⟨i, h, _⟩ => hnone h
    rw [Std.ExtTreeMap.getElem?_empty]
    simp
  · intro n id
    refine iff_of_false ?_ fun ⟨i, h, _⟩ => hnone h
    simp
  · rw [countP_empty]
    rfl
  · rw [countP_empty]
    rfl

end DefcoinCore.AddrMan
