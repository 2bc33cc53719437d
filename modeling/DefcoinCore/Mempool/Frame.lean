import DefcoinCore.Mempool.Pool

/-!
# What the operations of the pool leave alone

Most loops of the pool only change links and totals of entries. `Keeps` says so: the maps of
outputs, the deltas and the hashes stay, and each entry keeps what it was made with. From this
follows what `addUnchecked` and `removeUnchecked` do to the transactions in the pool and to the maps
of outputs.
-/

namespace DefcoinCore.Mempool

open Std StdMap

namespace CTxMemPool

variable (entry : CTxMemPoolEntry)

/-- The part of an entry that links and totals do not touch. -/
def core : EntryInfo × Int × Nat :=
  (entry.toEntryInfo, entry.feeDelta, entry.vTxHashesIdx)

/-- Only links and totals change. -/
structure Keeps (pool pool' : CTxMemPool) : Prop where
  mapNextTx : pool'.mapNextTx = pool.mapNextTx
  mapTxOutputs : pool'.mapTxOutputs_MWEB = pool.mapTxOutputs_MWEB
  mapDeltas : pool'.mapDeltas = pool.mapDeltas
  vTxHashes : pool'.vTxHashes = pool.vTxHashes
  totalTxSize : pool'.totalTxSize = pool.totalTxSize
  recentTxsByKernel : pool'.recentTxsByKernel = pool.recentTxsByKernel
  entries : ∀ id : Uint256, (pool'.mapTx[id]?).map core = (pool.mapTx[id]?).map core

namespace Keeps

variable {pool pool' pool'' : CTxMemPool}

theorem refl (pool : CTxMemPool) : Keeps pool pool := ⟨rfl, rfl, rfl, rfl, rfl, rfl, fun _ => rfl⟩

theorem trans (h : Keeps pool pool') (h' : Keeps pool' pool'') : Keeps pool pool'' where
  mapNextTx := h'.mapNextTx.trans h.mapNextTx
  mapTxOutputs := h'.mapTxOutputs.trans h.mapTxOutputs
  mapDeltas := h'.mapDeltas.trans h.mapDeltas
  vTxHashes := h'.vTxHashes.trans h.vTxHashes
  totalTxSize := h'.totalTxSize.trans h.totalTxSize
  recentTxsByKernel := h'.recentTxsByKernel.trans h.recentTxsByKernel
  entries id := (h'.entries id).trans (h.entries id)

/-- An entry is replaced by one with the same core. -/
theorem of_insert {id : Uint256} {entry entry' : CTxMemPoolEntry}
    (hfound : pool.mapTx[id]? = some entry) (hcore : core entry' = core entry) (usage : Int) :
    Keeps pool { pool with mapTx := pool.mapTx.insert id entry', cachedInnerUsage := usage } where
  mapNextTx := rfl
  mapTxOutputs := rfl
  mapDeltas := rfl
  vTxHashes := rfl
  totalTxSize := rfl
  recentTxsByKernel := rfl
  entries := map_getElem?_insert_of_some hfound hcore

/-- Entries that are found afterwards were there before, made from the same. -/
theorem info_eq (h : Keeps pool pool') (id : Uint256) :
    (pool'.mapTx[id]?).map (·.toEntryInfo) = (pool.mapTx[id]?).map (·.toEntryInfo) := by
  have := congrArg (Option.map Prod.fst) (h.entries id)
  rwa [Option.map_map, Option.map_map] at this

/-- A loop whose rounds keep all but links and totals. -/
theorem foldlM {ι : Type} {f : CTxMemPool → ι → Except Fault CTxMemPool}
    (hf : ∀ pool i, IfReturns (f pool i) (Keeps pool)) (l : List ι) (pool : CTxMemPool) :
    IfReturns (l.foldlM f pool) (Keeps pool) :=
  Ensures.foldlM (P := fun _ => Keeps pool) l
    (fun _ b i _ hb => (hf b i).imp fun _ => hb.trans) (refl pool)

end Keeps

variable (pool : CTxMemPool)

/-- `mapTx.modify` with an update that changes links or totals. -/
theorem keeps_modify (id : Uint256) {f : CTxMemPoolEntry → Except Fault CTxMemPoolEntry}
    (hf : ∀ entry, IfReturns (f entry) fun entry' => core entry' = core entry) :
    IfReturns (pool.modify id f) (Keeps pool) := by
  unfold modify
  cases hfound : pool.mapTx[id]? with
  | none => trivial
  | some entry => exact (hf entry).bind fun entry' hcore => Keeps.of_insert hfound hcore _

theorem keeps_updateDescendantState (modify : PackageState) :
    IfReturns (entry.updateDescendantState modify) fun entry' => core entry' = core entry :=
  (Ensures.reject fun _ => trivial).bind fun _ _ => rfl

theorem keeps_updateAncestorState (modify : PackageState) (sigOps : Int) :
    IfReturns (entry.updateAncestorState modify sigOps) fun entry' => core entry' = core entry :=
  (Ensures.reject fun _ => trivial).bind fun _ _ => rfl

theorem keeps_updateChild (id child : Uint256) (add : Bool) :
    IfReturns (pool.updateChild id child add) (Keeps pool) := by
  unfold updateChild
  cases hfound : pool.mapTx[id]? with
  | none => trivial
  | some entry =>
    exact Keeps.of_insert hfound (by rfl) _

theorem keeps_updateParent (id parent : Uint256) (add : Bool) :
    IfReturns (pool.updateParent id parent add) (Keeps pool) := by
  unfold updateParent
  cases hfound : pool.mapTx[id]? with
  | none => trivial
  | some entry =>
    exact Keeps.of_insert hfound (by rfl) _

theorem keeps_updateAncestorsOf (add : Bool) (it : Uint256) (setAncestors : StdSet Uint256) :
    IfReturns (pool.updateAncestorsOf add it setAncestors) (Keeps pool) := by
  unfold updateAncestorsOf
  cases pool.mapTx[it]? with
  | none => trivial
  | some entry =>
    refine (Keeps.foldlM (fun pool parent => pool.keeps_updateChild parent it add) _ pool).bind
      fun pool' h => ?_
    refine (Keeps.foldlM (fun pool ancestor => pool.keeps_modify ancestor fun e =>
      keeps_updateDescendantState e _) _ pool').imp fun _ h' => h.trans h'

theorem keeps_updateEntryForAncestors (it : Uint256) (setAncestors : StdSet Uint256) :
    IfReturns (pool.updateEntryForAncestors it setAncestors) (Keeps pool) :=
  pool.keeps_modify it fun e => keeps_updateAncestorState e _ _

theorem keeps_updateDescendantsForRemoval (removeIt : Uint256) :
    IfReturns (pool.updateDescendantsForRemoval removeIt) (Keeps pool) := by
  unfold updateDescendantsForRemoval
  cases pool.mapTx[removeIt]? with
  | none => trivial
  | some entry =>
    exact Keeps.foldlM (fun pool dit => pool.keeps_modify dit fun e =>
      keeps_updateAncestorState e _ _) _ _

theorem keeps_updateForRemoveFromMempool (entriesToRemove : StdSet Uint256)
    (updateDescendants : Bool) :
    IfReturns (pool.updateForRemoveFromMempool entriesToRemove updateDescendants) (Keeps pool) := by
  refine Ensures.bind (Q := Keeps pool) ?_ fun pool1 h1 => ?_
  · unfold updateAllDescendants
    split_ifs
    · exact Keeps.foldlM (fun pool removeIt => pool.keeps_updateDescendantsForRemoval removeIt) _ _
    · exact Keeps.refl pool
  refine (Keeps.foldlM (fun pool removeIt => pool.keeps_updateAncestorsOf false removeIt _) _
    pool1).bind fun pool2 h2 => ?_
  refine (Keeps.foldlM (fun pool removeIt => ?_) _ pool2).imp fun _ h3 =>
    h1.trans (h2.trans h3)
  exact Keeps.foldlM (fun pool child => pool.keeps_updateParent child removeIt false) _ _

/-! ## Adding -/

/-- The transactions of the pool. -/
def infoOf (id : Uint256) : Option EntryInfo := (pool.mapTx[id]?).map (·.toEntryInfo)

end CTxMemPool

/-- A transaction of the pool creates an output of the extension block. -/
def Creates (pool : CTxMemPool) (hash : Uint256) (output_id : Mweb.Hash) : Prop :=
  ∃ entry, pool.infoOf hash = some entry ∧ output_id ∈ entry.tx.getOutputIDs

/-- A transaction of the pool spends an output. -/
def Spends (pool : CTxMemPool) (hash : Uint256) (input : OutputIndex) : Prop :=
  ∃ entry, pool.infoOf hash = some entry ∧ input ∈ entry.tx.getInputs

namespace CTxMemPool

variable (pool : CTxMemPool)

/-- The maps of the outputs after some outputs are noted: what was there stays. -/
theorem getElem?_foldl_insertIfNew {K V : Type} [Ord K] [TransOrd K] [LawfulEqOrd K] [DecidableEq K]
    (l : List K) (v : V) (m : StdMap K V) (k : K) :
    (l.foldl (fun m k => m.insertIfNew k v) m)[k]? =
      (m[k]?).or (if k ∈ l then some v else none) := by
  induction l generalizing m with
  | nil => simp
  | cons a l ih =>
    rw [List.foldl_cons, ih, ExtTreeMap.getElem?_insertIfNew]
    by_cases hka : k = a
    · subst hka
      cases hm : m[k]? with
      | none =>
        have hmem : k ∉ m := by
          rw [ExtTreeMap.mem_iff_isSome_getElem?, hm]
          exact Bool.false_ne_true
        simp [hmem]
      | some w =>
        have hmem : k ∈ m := ExtTreeMap.mem_iff_isSome_getElem?.mpr (by rw [hm]; rfl)
        simp [hmem]
    · have hne : ¬ (compare a k = .eq ∧ a ∉ m) := by
        rw [Std.compare_eq_iff_eq]
        exact fun h => hka h.1.symm
      rw [if_neg hne]
      simp [hka]

/-- The first component of the loop over the inputs. -/
theorem noteInputs_fst (hash : Uint256) (inputs : List OutputIndex) :
    (pool.noteInputs hash inputs).1 = { pool with
      mapNextTx := inputs.foldl (fun m input => m.insertIfNew input hash) pool.mapNextTx } := by
  unfold noteInputs
  generalize (∅ : StdSet Uint256) = s
  induction inputs generalizing pool s with
  | nil => rfl
  | cons input inputs ih =>
    exact ih { pool with mapNextTx := pool.mapNextTx.insertIfNew input hash } _

/-- What `addUnchecked` does to the transactions of the pool and to the maps of outputs. -/
structure Added (pool pool' : CTxMemPool) (entry : EntryInfo) : Prop where
  infoOf : ∀ id, pool'.infoOf id = if entry.tx.hash = id then some entry else pool.infoOf id
  mapNextTx : pool'.mapNextTx =
    entry.tx.getInputs.foldl (fun m input => m.insertIfNew input entry.tx.hash) pool.mapNextTx
  mapTxOutputs : pool'.mapTxOutputs_MWEB =
    entry.tx.getOutputIDs.foldl (fun m output_id => m.insertIfNew output_id entry.tx.hash)
      pool.mapTxOutputs_MWEB
  mapDeltas : pool'.mapDeltas = pool.mapDeltas
  recentTxsByKernel : pool'.recentTxsByKernel = pool.recentTxsByKernel

theorem toEntryInfo_applyDelta (hash : Uint256) (entry : CTxMemPoolEntry) :
    (pool.applyDelta hash entry).toEntryInfo = entry.toEntryInfo := by
  unfold applyDelta
  dsimp only
  split_ifs <;> rfl

theorem addUnchecked_added {entry : EntryInfo} (hnew : pool.mapTx[entry.tx.hash]? = none)
    (setAncestors : StdSet Uint256) :
    IfReturns (pool.addUnchecked entry setAncestors) fun pool' => Added pool pool' entry := by
  unfold addUnchecked
  dsimp only
  rw [hnew, Option.getD_none]
  have htx : (pool.applyDelta entry.tx.hash (.new entry)).tx = entry.tx :=
    congrArg EntryInfo.tx (pool.toEntryInfo_applyDelta entry.tx.hash (.new entry))
  rw [htx]
  generalize hpool0 : CTxMemPool.mk _ _ _ _ _ _ _ _ = pool0
  unfold linkEntry
  dsimp only
  generalize hpool1 : CTxMemPool.noteOutputs _ _ _ = pool1
  rw [noteOutputs, noteInputs_fst, ← hpool0] at hpool1
  refine (Keeps.foldlM (fun pool parent => pool.keeps_updateParent entry.tx.hash parent true) _
    pool1).bind fun pool2 h2 => ?_
  refine (pool2.keeps_updateAncestorsOf true entry.tx.hash setAncestors).bind fun pool3 h3 => ?_
  refine (pool3.keeps_updateEntryForAncestors entry.tx.hash setAncestors).bind fun pool4 h4 => ?_
  have hkeeps := h2.trans (h3.trans h4)
  -- the last step writes the index of the hash
  unfold modify
  cases hfound : pool4.mapTx[entry.tx.hash]? with
  | none => trivial
  | some e =>
    have hinfo4 : ∀ id, pool4.infoOf id = if entry.tx.hash =
        id then some entry else pool.infoOf id := by
      intro id
      rw [infoOf, hkeeps.info_eq, ← hpool1]
      rw [getElem?_insert]
      split_ifs
      · exact congrArg some (pool.toEntryInfo_applyDelta entry.tx.hash (.new entry))
      · rfl
    exact
      { infoOf := by
          intro id
          rw [← hinfo4 id]
          exact map_getElem?_insert_of_some hfound (by rfl) id
        mapNextTx := by rw [hkeeps.mapNextTx, ← hpool1]
        mapTxOutputs := by rw [hkeeps.mapTxOutputs, ← hpool1]
        mapDeltas := by rw [hkeeps.mapDeltas, ← hpool1]
        recentTxsByKernel := by rw [hkeeps.recentTxsByKernel, ← hpool1] }

/-! ## Removing -/

/-- What `removeUnchecked` does to the transactions of the pool and to the maps of outputs. -/
structure Removed (pool pool' : CTxMemPool) (it : Uint256) (tx : CTransaction) : Prop where
  infoOf : ∀ id, pool'.infoOf id = if it = id then none else pool.infoOf id
  mapNextTx : ∀ o : OutputIndex,
    pool'.mapNextTx[o]? = if o ∈ tx.getInputs then none else pool.mapNextTx[o]?
  mapTxOutputs : ∀ o : Mweb.Hash,
    pool'.mapTxOutputs_MWEB[o]? = if o ∈ tx.getOutputIDs then none else pool.mapTxOutputs_MWEB[o]?
  mapDeltas : pool'.mapDeltas = pool.mapDeltas

/-- The maps of the outputs after some outputs are forgotten. -/
theorem getElem?_foldl_erase_id {K V : Type} [Ord K] [TransOrd K] [LawfulEqOrd K] [DecidableEq K]
    (l : List K) (m : StdMap K V) (k : K) :
    (l.foldl (fun m k => m.erase k) m)[k]? = if k ∈ l then none else m[k]? := by
  have h := getElem?_foldl_erase (fun k => k) l m k
  rwa [List.map_id'] at h

/-- What changes when an entry is taken out of `vTxHashes`. -/
theorem eraseHash_keeps (idx : Nat) :
    IfReturns (pool.eraseHash idx) fun pool' => pool'.mapNextTx = pool.mapNextTx ∧
      pool'.mapTxOutputs_MWEB = pool.mapTxOutputs_MWEB ∧ pool'.mapDeltas = pool.mapDeltas ∧
      ∀ id, pool'.infoOf id = pool.infoOf id := by
  unfold eraseHash
  cases pool.vTxHashes.getLast? with
  | none => exact ⟨rfl, rfl, rfl, fun _ => rfl⟩
  | some back =>
    dsimp only
    split_ifs
    · unfold modify
      cases hfound : pool.mapTx[back.2]? with
      | none => trivial
      | some e => exact ⟨rfl, rfl, rfl, map_getElem?_insert_of_some hfound rfl⟩
    · exact ⟨rfl, rfl, rfl, fun _ => rfl⟩

theorem removeUnchecked_removed (it : Uint256) (reason : MemPoolRemovalReason) :
    IfReturns (pool.removeUnchecked it reason) fun pool' => ∃ entry, pool.infoOf it = some entry ∧
      Removed pool pool' it entry.tx := by
  unfold removeUnchecked
  rcases hfound : pool.mapTx[it]? with _ | entry
  · trivial
  dsimp only
  generalize hpool1 : (if reason = .block ∨ reason = .reorg then
    CTxMemPool.cacheKernels _ entry.tx else _) = pool1
  have hmaps : pool1.mapTx = pool.mapTx ∧
      pool1.mapNextTx = entry.tx.getInputs.foldl (fun m input => m.erase input) pool.mapNextTx ∧
      pool1.mapTxOutputs_MWEB = entry.tx.getOutputIDs.foldl (fun m output_id => m.erase output_id)
        pool.mapTxOutputs_MWEB ∧ pool1.mapDeltas = pool.mapDeltas := by
    rw [← hpool1]
    split_ifs <;> exact ⟨rfl, rfl, rfl, rfl⟩
  refine (pool1.eraseHash_keeps entry.vTxHashesIdx).bind
    fun pool2 ⟨hnext, houtputs, hdeltas, hinfo⟩ => ?_
  exact ⟨entry.toEntryInfo, by rw [infoOf, hfound]; rfl,
    { infoOf := by
        intro id
        show ((pool2.mapTx.erase it)[id]?).map _ = _
        rw [getElem?_erase]
        split_ifs
        · rfl
        · exact (hinfo id).trans (by rw [infoOf, hmaps.1]; rfl)
      mapNextTx := by
        intro o
        rw [hnext, hmaps.2.1]
        exact getElem?_foldl_erase_id entry.tx.getInputs pool.mapNextTx o
      mapTxOutputs := by
        intro o
        rw [houtputs, hmaps.2.2.1]
        exact getElem?_foldl_erase_id entry.tx.getOutputIDs pool.mapTxOutputs_MWEB o
      mapDeltas := hdeltas.trans hmaps.2.2.2 }⟩

/-- `RemoveStaged` keeps what does not read links and totals and what the removal of an entry keeps.
-/
theorem removeStaged_induction {P : CTxMemPool → Prop} (stage : StdSet Uint256)
    (updateDescendants : Bool)
    (reason : MemPoolRemovalReason) (hkeeps : ∀ pool', Keeps pool pool' → P pool')
    (hremoved : ∀ pool pool' it entry, it ∈ stage → P pool → pool.infoOf it = some entry →
      Removed pool pool' it entry.tx → P pool') :
    IfReturns (pool.removeStaged stage updateDescendants reason) P := by
  refine (pool.keeps_updateForRemoveFromMempool stage updateDescendants).bind fun pool1 h1 => ?_
  refine Ensures.foldlM (P := fun _ => P) _ (fun _ pool2 it hit h => ?_) (hkeeps pool1 h1)
  refine (pool2.removeUnchecked_removed it reason).imp fun pool3 ⟨entry, hentry, hstep⟩ => ?_
  exact hremoved pool2 pool3 it entry (ExtTreeSet.mem_toList.mp hit) h hentry hstep

end CTxMemPool

end DefcoinCore.Mempool
