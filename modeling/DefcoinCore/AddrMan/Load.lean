import DefcoinCore.AddrMan.Serialize

/-!
# The stages of loading

`Unserialize` reads the new entries, then the tried ones, notes the buckets of the new entries, puts
each new entry into a slot and prunes those that found none. Each stage is described by what it does
when nothing is in its way: the addresses and the slots of the tried entries are free, and no two
new entries are given one slot.
-/

namespace DefcoinCore.AddrMan

open DefcoinCore List Option Function

namespace CAddrMan

variable {env : AddrEnv} {codec : InfoCodec} {m m' : CAddrMan} {loose : Set Int} {short : Int}

/-- What an entry keeps when it is stored in the table `tried`. -/
def kept (info : CAddrInfo) : StoredInfo × Bool := (info.stored, info.fInTried)

/-- The entries `l` were added, with the ids from `n` on, and nothing else. -/
structure Appends (m m' : CAddrMan) (n : Int) (tried : Bool) (l : List StoredInfo) : Prop where
  added : ∀ (k : Nat) (i : StoredInfo), l[k]? = some i →
    m'.mapInfo[n + k]?.map kept = some (i, tried)
  others : ∀ id : Int, (id < n ∨ n + l.length ≤ id) → m'.mapInfo[id]? = m.mapInfo[id]?
  addr : ∀ a ∉ l.map (·.toCNetAddr), m'.mapAddr[a]? = m.mapAddr[a]?

variable {n nTried nNew : Int} {f : AddrManFile} {i : StoredInfo} {l : List StoredInfo}

theorem Appends.nil (m : CAddrMan) (n : Int) (tried : Bool) : Appends m m n tried [] :=
  ⟨fun k i hk => absurd hk (by simp), fun _ _ => rfl, fun _ _ => rfl⟩

/-- An entry of a list with one more entry is that one or was there. -/
theorem getElem?_concat_cases {j : StoredInfo} {k : Nat} (h : (l ++ [i])[k]? = some j) :
    (k = l.length ∧ j = i) ∨ (k < l.length ∧ l[k]? = some j) := by
  have hlt := (List.getElem?_eq_some_iff.mp h).1
  rw [length_append, length_singleton] at hlt
  by_cases hk : k = l.length
  · rw [hk, getElem?_concat_length, some.injEq] at h
    exact .inl ⟨hk, h.symm⟩
  · rw [getElem?_append_left (by omega)] at h
    exact .inr ⟨by omega, h⟩

theorem add_length_concat (x : Int) : x + ((l ++ [i]).length : Int) = x + l.length + 1 := by
  rw [length_append, length_singleton]
  omega

/-- One more entry. -/
theorem Appends.concat {m'' : CAddrMan} {tried : Bool} {info : CAddrInfo}
    (h : Appends m m' n tried l)
    (hinfo : m''.mapInfo = m'.mapInfo.insert (n + l.length) info) (hkept : kept info = (i, tried))
    (haddr : m''.mapAddr = m'.mapAddr.insert i.toCNetAddr (n + l.length)) :
    Appends m m'' n tried (l ++ [i]) := by
  refine ⟨fun k j hk => ?_, fun id hid => ?_, fun a ha => ?_⟩
  · rw [hinfo, StdMap.getElem?_insert]
    rcases getElem?_concat_cases hk with ⟨rfl, rfl⟩ | ⟨hlt, hold⟩
    · rw [if_pos rfl, map_some, hkept]
    · rw [if_neg (by omega)]
      exact h.added k j hold
  · rw [add_length_concat] at hid
    rw [hinfo, StdMap.getElem?_insert, if_neg (by omega)]
    exact h.others id (by omega)
  · rw [map_append, map_singleton, mem_append, not_or, mem_singleton] at ha
    rw [haddr, StdMap.getElem?_insert, if_neg (Ne.symm ha.2)]
    exact h.addr a ha.1

/-- The address of one more entry is free if it was, and differs from those before it. -/
theorem Appends.free {tried : Bool} (h : Appends m m' n tried l)
    (hnodup : ((l ++ [i]).map (·.toCNetAddr)).Nodup) (hfree : m.mapAddr[i.toCNetAddr]? = none) :
    m'.mapAddr[i.toCNetAddr]? = none := by
  rw [map_append, map_singleton] at hnodup
  rw [h.addr _ fun hmem => disjoint_of_nodup_append hnodup hmem (mem_singleton_self _), hfree]

/-! ## The entries of the new table -/

theorem loadNewInfos_concat (n : Int) (m : CAddrMan) :
    loadNewInfos (l ++ [i]) n m = (loadNewInfos l n m).loadNewInfo (n + l.length) i := by
  induction l generalizing n m with
  | nil => rw [length_nil, Nat.cast_zero, add_zero]; rfl
  | cons j l ih =>
    rw [cons_append, loadNewInfos, ih, loadNewInfos, length_cons,
      show n + ((l.length + 1 : Nat) : Int) = n + 1 + l.length by omega]

/-- The new entries of the file are read: they are loose. -/
theorem loadNewInfos_spec {vvNew : NewSlot → Int} {vvTried : TriedSlot → Int}
    {triedSlot : CService → TriedSlot} {newSlotIn : CService → Fin newBucketCount → NewSlot}
    (l : List StoredInfo) (hi : Indexed n m.mapInfo m.mapAddr m.vRandom)
    (ht : Tabled triedSlot newSlotIn {id | id < n} short m.mapInfo vvNew vvTried nTried nNew)
    (hnodup : (l.map (·.toCNetAddr)).Nodup) (hfree : ∀ i ∈ l, m.mapAddr[i.toCNetAddr]? = none) :
    ∃ mapInfo mapAddr vRandom,
      let m' : CAddrMan := { m with mapInfo, mapAddr, vRandom }
      loadNewInfos l n m = m' ∧ Indexed (n + l.length) mapInfo mapAddr vRandom ∧
      Tabled triedSlot newSlotIn {id | id < n + l.length} (short + l.length) mapInfo vvNew vvTried
        nTried nNew ∧
      Appends m m' n false l := by
  induction l using reverseRecOn with
  | nil =>
    simp only [loadNewInfos, length_nil, Nat.cast_zero, add_zero]
    exact ⟨_, _, _, rfl, hi, ht, .nil m n false⟩
  | append_singleton l i ih =>
    obtain ⟨mapInfo, mapAddr, vRandom, hrun, hi', ht', happ⟩ :=
      ih (hnodup.sublist ((sublist_append_left l [i]).map _)) fun j hj =>
        hfree j (mem_append_left _ hj)
    have hcount := hi'.count
    simp only [add_length_concat]
    refine ⟨_, _, _, ?_, hi'.create { i.load with nRandomPos := vRandom.length }
      (happ.free hnodup (hfree i (by simp))) rfl, ?_, happ.concat rfl rfl rfl⟩
    · rw [loadNewInfos_concat, hrun]
      rfl
    · refine (ht'.create { i.load with nRandomPos := vRandom.length } hi'.fresh (by omega) rfl
        rfl).mono ?_
      intro k _ (hk : k = n + l.length ∨ k < n + l.length)
      show k < n + l.length + 1
      omega

/-! ## The entries of the tried table -/

/-- One tried entry of the file is read: it takes its empty slot. -/
theorem loadTriedInfo_spec (hi : m.IsIndexed)
    (ht : Tabled (m.triedSlot env) (m.newSlotIn env) loose short m.mapInfo m.vvNew m.vvTried
      nTried m.nNew)
    (hfree : m.mapAddr[i.toCNetAddr]? = none)
    (hslot : m.vvTried (m.triedSlot env i.toCService) = -1) (hsucc : i.nLastSuccess ≠ 0) :
    (m.loadTriedInfo env i).IsIndexed ∧
      Tabled (m.triedSlot env) (m.newSlotIn env) loose short (m.loadTriedInfo env i).mapInfo m.vvNew
        (m.loadTriedInfo env i).vvTried (nTried + 1) m.nNew := by
  have hcount := hi.count
  refine ⟨hi.create { i.load with nRandomPos := m.vRandom.length, fInTried := true } hfree rfl, ?_⟩
  -- The entry is created loose, and then enters its slot.
  let info := { i.load with nRandomPos := m.vRandom.length }
  have hcreate := ht.create info hi.fresh (by omega) rfl rfl
  have hat : (m.mapInfo.insert m.nIdCount info)[m.nIdCount]? = some info := by
    rw [StdMap.getElem?_insert, if_pos rfl]
  have henter := hcreate.enterTried hat rfl rfl hsucc hslot
    fun k hk (hkl : k ∈ insert m.nIdCount loose) => (hkl.resolve_left hk : k ∈ loose)
  rw [add_sub_cancel_right, StdMap.insert_insert] at henter
  exact henter

theorem loadTriedInfos_concat (nLost : Int) (m : CAddrMan) :
    loadTriedInfos env (l ++ [i]) nLost m =
      loadTriedInfos env [i] (loadTriedInfos env l nLost m).1 (loadTriedInfos env l nLost m).2 := by
  induction l generalizing nLost m with
  | nil => rfl
  | cons j l ih =>
    have hcons : ∀ l, loadTriedInfos env (j :: l) nLost m =
        if m.vvTried (m.triedSlot env j.toCService) = -1 then
          loadTriedInfos env l nLost (m.loadTriedInfo env j)
        else loadTriedInfos env l (nLost + 1) m := fun _ => rfl
    rw [cons_append, hcons, hcons]
    split_ifs <;> exact ih ..

/-- The tried entries of the file are read: none is lost, and each takes its slot. -/
theorem loadTriedInfos_spec (l : List StoredInfo) (nLost : Int) (hi : m.IsIndexed)
    (ht : Tabled (m.triedSlot env) (m.newSlotIn env) loose short m.mapInfo m.vvNew m.vvTried
      nTried m.nNew)
    (haddr : (l.map (·.toCNetAddr)).Nodup) (hfree : ∀ i ∈ l, m.mapAddr[i.toCNetAddr]? = none)
    (hslots : (l.map fun i => m.triedSlot env i.toCService).Nodup)
    (hempty : ∀ i ∈ l, m.vvTried (m.triedSlot env i.toCService) = -1)
    (hsucc : ∀ i ∈ l, i.nLastSuccess ≠ 0) :
    ∃ mapInfo mapAddr vRandom vvTried,
      let m' : CAddrMan := { m with
        mapInfo, mapAddr, vRandom, vvTried, nIdCount := m.nIdCount + l.length }
      loadTriedInfos env l nLost m = (nLost, m') ∧ m'.IsIndexed ∧
      Tabled (m.triedSlot env) (m.newSlotIn env) loose short mapInfo m.vvNew vvTried
        (nTried + l.length) m.nNew ∧
      Appends m m' m.nIdCount true l ∧
      (∀ (k : Nat) (i : StoredInfo), l[k]? = some i →
        vvTried (m.triedSlot env i.toCService) = m.nIdCount + k) ∧
      ∀ slot, slot ∉ l.map (fun i => m.triedSlot env i.toCService) →
        vvTried slot = m.vvTried slot := by
  induction l using reverseRecOn with
  | nil =>
    simp only [loadTriedInfos, length_nil, Nat.cast_zero, add_zero]
    exact ⟨_, _, _, _, rfl, hi, ht, .nil m _ true, fun k i hk =>
      absurd hk (by simp), fun _ _ => rfl⟩
  | append_singleton l i ih =>
    simp only [forall_mem_append, forall_mem_singleton] at hfree hempty hsucc
    obtain ⟨mapInfo, mapAddr, vRandom, vvTried, hrun, hi', ht', happ, htaken, hother⟩ :=
      ih (haddr.sublist ((sublist_append_left l [i]).map _)) hfree.1
        (hslots.sublist ((sublist_append_left l [i]).map _)) hempty.1 hsucc.1
    have hnot : m.triedSlot env i.toCService ∉ l.map fun i => m.triedSlot env i.toCService := by
      rw [map_append] at hslots
      exact fun hmem => disjoint_of_nodup_append hslots hmem (by simp)
    have hslot := (hother _ hnot).trans hempty.2
    obtain ⟨hi1, ht1⟩ := loadTriedInfo_spec hi' ht' (happ.free haddr hfree.2) hslot hsucc.2
    simp only [add_length_concat]
    refine ⟨_, _, _, _, ?_, hi1, ht1, happ.concat rfl rfl rfl, fun k j hk => ?_, fun slot hns => ?_⟩
    · rw [loadTriedInfos_concat, hrun]
      exact if_pos hslot
    · rcases getElem?_concat_cases hk with ⟨rfl, rfl⟩ | ⟨hlt, hold⟩
      · exact update_self ..
      · refine (update_of_ne (fun heq => hnot ?_) ..).trans (htaken k j hold)
        exact mem_map.mpr ⟨j, mem_of_getElem? hold, heq⟩
    · rw [map_append, mem_append, not_or] at hns
      exact (update_of_ne (fun heq => hns.2 (mem_singleton.mpr heq)) ..).trans (hother slot hns.1)

/-! ## The buckets of the new table -/

/-- A bucket is noted for the entries it lists. -/
theorem getElem?_noteBucket (bucket : Int) (hn : 0 ≤ n) (hlt : n < nNew) (l : List Int) :
    ∀ map : StdMap Int Int,
      (l.foldl (fun map nIndex =>
        if 0 ≤ nIndex ∧ nIndex < nNew then map.insert nIndex bucket else map) map)[n]? =
        if n ∈ l then some bucket else map[n]? := by
  induction l with
  | nil => simp
  | cons x l ih =>
    intro map
    rw [foldl_cons, ih]
    by_cases hmem : n ∈ l
    · simp [hmem]
    · by_cases hx : n = x
      · subst hx
        rw [if_neg hmem, if_pos ⟨hn, hlt⟩, StdMap.getElem?_insert, if_pos rfl, if_pos mem_cons_self]
      · have hcons : n ∉ x :: l := by simp [hx, hmem]
        rw [if_neg hmem, if_neg hcons]
        split_ifs
        · rw [StdMap.getElem?_insert, if_neg (Ne.symm hx)]
        · rfl

/-- The bucket that is noted for an entry lists it, and some bucket is noted if one lists it. -/
theorem entryToBucket_spec (hn : 0 ≤ n) (hlt : n < nNew) (ls : List (List Int)) :
    ∀ (bucket : Int) (map : StdMap Int Int), (map[n]?.isSome ∨ ∃ l ∈ ls, n ∈ l) →
      ∃ b, (entryToBucket nNew ls bucket map)[n]? = some b ∧
        (map[n]? = some b ∨ ∃ (j : Nat) (l : List Int), ls[j]? = some l ∧ n ∈ l ∧
          b = bucket + j) := by
  induction ls with
  | nil =>
    intro bucket map hsome
    obtain ⟨b, hb⟩ := isSome_iff_exists.mp (hsome.resolve_right (by simp))
    exact ⟨b, hb, .inl hb⟩
  | cons l ls ih =>
    intro bucket map hsome
    rw [entryToBucket]
    have hnote := getElem?_noteBucket bucket hn hlt l map
    obtain ⟨b, hb, hwhere⟩ := ih (bucket + 1) _ (by
      rw [hnote]
      rcases hsome with hmap | ⟨l', hl', hmem⟩
      · exact .inl (by split_ifs <;> simp [hmap])
      · rcases mem_cons.mp hl' with rfl | hl'
        · exact .inl (by simp [hmem])
        · exact .inr ⟨l', hl', hmem⟩)
    refine ⟨b, hb, ?_⟩
    rcases hwhere with hmap | ⟨j, l', hj, hmem, rfl⟩
    · rw [hnote] at hmap
      split_ifs at hmap with hmem
      · exact .inr ⟨0, l, rfl, hmem, by rw [← some.inj hmap]; simp⟩
      · exact .inl hmap
    · exact .inr ⟨j + 1, l', by simpa using hj, hmem, by push_cast; omega⟩

/-- For every new entry of a stored state a bucket is noted that holds the entry. -/
theorem Consistent.noted (h : m.Consistent env) (hf : Stores codec m f) {k : Nat}
    {e : Int × CAddrInfo} (hk : (m.entries false)[k]? = some e) :
    ∃ slot : NewSlot, m.vvNew slot = e.1 ∧
      (entryToBucket f.nNew f.buckets 0 ∅)[(k : Int)]? = some (slot.1.val : Int) := by
  obtain ⟨slot, hslot⟩ := h.exists_slot (mem_of_getElem? hk)
  have hlen := h.length_entries.1
  have hklt := (List.getElem?_eq_some_iff.mp hk).1
  -- The bucket of one of its slots lists the entry.
  have hlt : slot.1.val < f.buckets.length := by
    rw [hf.bucketCount]
    exact slot.1.isLt
  have hlists : ∃ l ∈ f.buckets, (k : Int) ∈ l :=
    ⟨_, getElem_mem hlt, (hf.buckets slot.1 _ (getElem?_eq_getElem hlt) k).mpr
      ⟨k, e, slot.2, rfl, hk, hslot⟩⟩
  have hknew : (k : Int) < f.nNew := by
    rw [hf.nNew]
    omega
  obtain ⟨b, hb, hwhere⟩ := entryToBucket_spec (Int.natCast_nonneg k) hknew f.buckets 0 ∅
    (.inr hlists)
  rcases hwhere with hmap | ⟨j, l, hj, hmem, rfl⟩
  · exact absurd hmap (by simp)
  have hjlt : j < newBucketCount := hf.bucketCount ▸ (List.getElem?_eq_some_iff.mp hj).1
  obtain ⟨k', e', i, hkk', hk', hheld⟩ := (hf.buckets ⟨j, hjlt⟩ l hj k).mp hmem
  rw [← Int.natCast_inj.mp hkk', hk, some.injEq] at hk'
  exact ⟨(⟨j, hjlt⟩, i), hk' ▸ hheld, by rw [hb, zero_add]⟩

/-- The first `j` new entries of `m` have been put into the slots `slotOf`, and the others are still
loose. -/
structure Placed (env : AddrEnv) (nTried short : Int) (m : CAddrMan) (slotOf : Nat → NewSlot)
    (j : Nat) (m' : CAddrMan) : Prop where
  frame : m' = { m with mapInfo := m'.mapInfo, vvNew := m'.vvNew }
  indexed : m'.IsIndexed
  tabled : Tabled (m.triedSlot env) (m.newSlotIn env)
    {id | (j : Int) ≤ id} short m'.mapInfo m'.vvNew m.vvTried nTried m.nNew
  kept : ∀ id : Int, m'.mapInfo[id]?.map CAddrMan.kept = m.mapInfo[id]?.map CAddrMan.kept
  taken : ∀ k < j, m'.vvNew (slotOf k) = k
  empty : ∀ slot, (∀ k < j, slotOf k ≠ slot) → m'.vvNew slot = -1

/-- The file gives the slots `slotOf` to the first `count` entries. -/
structure Assigns (env : AddrEnv) (codec : InfoCodec) (f : AddrManFile) (map : StdMap Int Int)
    (m : CAddrMan) (slotOf : Nat → NewSlot) (count : Nat) : Prop where
  format : f.format = formatV3
  nUBuckets : f.nUBuckets = newBucketCount
  asmapVersion : f.asmapVersion = codec.asmapVersion m.m_asmap
  entry : ∀ k < count, ∃ info : CAddrInfo, m.mapInfo[(k : Int)]? = some info ∧
    info.fInTried = false ∧
    m.newSlotIn env info.toCService (slotOf k).1 = slotOf k
  bucket : ∀ k < count, map[(k : Int)]? = some ((slotOf k).1.val : Int)
  inj : ∀ k < count, ∀ k' < count, slotOf k = slotOf k' → k = k'

/-- What is kept of an entry determines its address and table. -/
theorem of_kept {info info' : CAddrInfo} (h : kept info' = kept info) :
    info'.toCService = info.toCService ∧ info'.fInTried = info.fInTried :=
  ⟨congrArg (fun p : StoredInfo × Bool => p.1.toCService) h, congrArg Prod.snd h⟩

/-- Placing the next entry. -/
theorem Placed.step {map : StdMap Int Int} {slotOf : Nat → NewSlot} {count j : Nat}
    (ha : Assigns env codec f map m slotOf count) (hj : j < count)
    (h : Placed env nTried short m slotOf j m') :
    Placed env nTried short m slotOf (j + 1) (m'.placeNew env codec f map j) := by
  obtain ⟨info0, hinfo0, hfalse0, hpos0⟩ := ha.entry j hj
  have hkept := h.kept j
  rw [hinfo0, map_some, map_eq_some_iff] at hkept
  obtain ⟨info, hinfo, hkept⟩ := hkept
  obtain ⟨haddr, htried⟩ := of_kept hkept
  have hfree : m'.vvNew (slotOf j) = -1 :=
    h.empty _ fun k hk heq => absurd (ha.inj k (hk.trans hj) j hj heq) hk.ne
  -- The entry is in no slot yet: the slots before it hold the entries before it.
  have hzero : info.nRefCount = 0 := by
    rw [h.tabled.refs j info hinfo]
    refine congrArg Nat.cast ((Table.refs_eq_zero_iff _ _).mpr fun slot hslot => ?_)
    by_cases hone : ∃ k < j, slotOf k = slot
    · obtain ⟨k, hk, rfl⟩ := hone
      rw [h.taken k hk] at hslot
      omega
    · rw [h.empty slot fun k hk heq => hone ⟨k, hk, heq⟩] at hslot
      omega
  have hnKey : m'.nKey = m.nKey := by rw [h.frame]
  have hasmap : m'.m_asmap = m.m_asmap := by rw [h.frame]
  have hposition : ((Fin.ofNat newBucketCount ((slotOf j).1.val : Int).toNat,
      getBucketPosition env m'.nKey info.toCService true ((slotOf j).1.val : Int)) : NewSlot) =
      slotOf j := by
    rw [Int.toNat_natCast, Fin.ofNat_val_eq_self, hnKey, haddr]
    exact hpos0
  have hplace : m'.placeNew env codec f map j = m'.ref j info (info.nRefCount + 1) (slotOf j) := by
    unfold placeNew
    rw [StdMap.subscript_of_some hinfo]
    simp only [ha.bucket j hj, getD_some]
    rw [hposition, if_pos]
    refine ⟨by rw [ha.format]; decide, ha.nUBuckets, hfree, by rw [hzero]; decide, ?_⟩
    rw [ha.asmapVersion, hasmap]
  rw [hplace]
  refine ⟨?_, ?_, ?_, ?_, ?_, ?_⟩
  · rw [h.frame]
    rfl
  · exact h.indexed.setInfo hinfo rfl rfl
  · refine h.tabled.ref hinfo _ _ (htried.trans hfalse0) (by rw [hzero]; decide) hfree
      (by rw [haddr]; exact hpos0) ?_ rfl
    intro k hk hkl
    have hle : (j : Int) ≤ k := hkl
    show ((j + 1 : Nat) : Int) ≤ k
    omega
  · intro id
    rw [← h.kept id]
    exact StdMap.map_getElem?_insert_of_some hinfo (by rfl) id
  · intro k hk
    by_cases hkj : k = j
    · subst hkj
      exact update_self _ _ _
    · have hlt : k < j := by omega
      exact (update_of_ne (fun heq => hkj (ha.inj k (hlt.trans hj) j hj heq)) _ _).trans
        (h.taken k hlt)
  · intro slot hslot
    exact (update_of_ne (Ne.symm (hslot j (by omega))) _ _).trans
      (h.empty slot fun k hk => hslot k (by omega))

/-- Placing the entries one after the other. -/
theorem Placed.run {map : StdMap Int Int} {slotOf : Nat → NewSlot} {count : Nat}
    (ha : Assigns env codec f map m slotOf count) (h : Placed env nTried short m slotOf 0 m)
    (j : Nat) (hj : j ≤ count) :
    Placed env nTried short m slotOf j
      ((range j).foldl (fun (m : CAddrMan) (n : Nat) => m.placeNew env codec f map n) m) := by
  induction j with
  | zero => exact h
  | succ j ih =>
    rw [range_succ, foldl_append]
    exact (ih (by omega)).step ha (by omega)

/-- Nothing is pruned when every entry is in a table. -/
theorem pruneNew_of_live
    (h : ∀ (id : Int) (info : CAddrInfo), m.mapInfo[id]? = some info → info.fInTried = false →
      info.nRefCount ≠ 0) : m.pruneNew = .ok m := by
  unfold pruneNew
  generalize m.mapInfo.keys = l
  induction l with
  | nil => rfl
  | cons id l ih =>
    rw [foldlM_cons]
    have hone : m.prune id = .ok m := by
      unfold prune
      cases hid : m.mapInfo[id]? with
      | none => rfl
      | some info => exact if_neg fun hboth => h id info hid hboth.1 hboth.2
    rw [hone, ok_bind]
    exact ih

end CAddrMan

end DefcoinCore.AddrMan
