import DefcoinCore.Lib.Machine
import DefcoinCore.Mweb.CoinsView

/-!
# Caches of the extension block

`mw::CoinsViewCache`: a layer over another view. It keeps the changes of the unspent outputs as
lists of actions by output id, the changed bytes of the leaf set, the leaves that were appended, and
its own best header. Reading an output replays its actions over what the view below has, with
assertions that additions and spends alternate.

A stack of caches over the view on disk presents one `CoinsView` (`View.present`). On a sound stack
the operations of a cache are those of the view that it presents (`addUTXO_refines`,
`applyBlock_refines`, `undoBlock_refines`), and no assertion fails. `Flush` hands all changes to the
view below (`flush_spec` in `Flush`), unless the best header is null.
-/

namespace DefcoinCore.Mweb

open List Function CoinsView LeafSetCache

/-! ## The parts of a cache -/

/-- One round of the loop of `CoinsViewCache::GetUTXO`, with its assertions. -/
def replayAction (pUTXO action : Option UTXO) : Except Fault (Option UTXO) :=
  match action, pUTXO with
  | some utxo, none => .ok (some utxo)
  | none, some _ => .ok none
  | _, _ => .error .assertion

/-- The loop of `CoinsViewCache::GetUTXO`. -/
def replay (pUTXO : Option UTXO) (actions : List (Option UTXO)) : Except Fault (Option UTXO) :=
  actions.foldlM replayAction pUTXO

/-- What is left of actions: the last one says if the output is there. -/
def lastAction (pUTXO : Option UTXO) (actions : List (Option UTXO)) : Option UTXO :=
  actions.foldl (fun _ action => action) pUTXO

/-- Actions go through if each adds what is not there or spends what is there. -/
theorem replayAction_eq_ok {pUTXO action : Option UTXO} (h : action.isSome ≠ pUTXO.isSome) :
    replayAction pUTXO action = .ok action := by
  rcases action with _ | utxo
  · rcases pUTXO with _ | spent
    · exact absurd rfl h
    · rfl
  · rcases pUTXO with _ | old
    · rfl
    · exact absurd rfl h

theorem lastAction_append (pUTXO : Option UTXO) (actions actions' : List (Option UTXO)) :
    lastAction pUTXO (actions ++ actions') = lastAction (lastAction pUTXO actions) actions' :=
  foldl_append ..

theorem lastAction_eq_getLast? (pUTXO : Option UTXO) (actions : List (Option UTXO)) :
    lastAction pUTXO actions = actions.getLast?.getD pUTXO := by
  rcases actions.eq_nil_or_concat with rfl | ⟨front, action, rfl⟩
  · rfl
  · rw [concat_eq_append, lastAction_append, getLast?_concat]
    rfl

theorem replay_append {pUTXO pUTXO' : Option UTXO} {actions actions' : List (Option UTXO)}
    (h : replay pUTXO actions = .ok pUTXO') :
    replay pUTXO (actions ++ actions') = replay pUTXO' actions' := by
  unfold replay at h ⊢
  rw [foldlM_append, h, ok_bind]

/-- `CoinsViewUpdates`: the actions by output id. An action is the output that is added; a spend has
none. -/
abbrev CoinsViewUpdates := StdMap Hash (List (Option UTXO))

namespace CoinsViewUpdates

variable (updates : CoinsViewUpdates) (output_id : Hash)

/-- `CoinsViewUpdates::GetActions`. -/
def getActions : List (Option UTXO) :=
  updates[output_id]?.getD []

/-- `CoinsViewUpdates::AddAction`. -/
def addAction (action : Option UTXO) : CoinsViewUpdates :=
  updates.insert output_id (getActions updates output_id ++ [action])

/-- `CoinsViewUpdates::AddUTXO`. -/
def addUTXO (utxo : UTXO) : CoinsViewUpdates :=
  addAction updates utxo.output.hash (some utxo)

/-- `CoinsViewUpdates::SpendUTXO`. -/
def spendUTXO : CoinsViewUpdates :=
  addAction updates output_id none

/-- The actions for one output, appended to those that there are. -/
def addActions (output : Hash × List (Option UTXO)) : CoinsViewUpdates :=
  output.2.foldl (fun updates action => addAction updates output.1 action) updates

theorem getActions_addAction (action : Option UTXO) :
    getActions (addAction updates output_id action) = update (getActions updates) output_id
      (getActions updates output_id ++ [action]) := by
  funext id'
  unfold getActions addAction
  rw [StdMap.getElem?_insert]
  by_cases h : output_id = id'
  · rw [if_pos h, h, update_self]
    rfl
  · rw [if_neg h, update_of_ne (Ne.symm h)]

theorem getActions_addActions (output : Hash × List (Option UTXO)) :
    getActions (addActions updates output) = update (getActions updates) output.1
      (getActions updates output.1 ++ output.2) := by
  obtain ⟨output_id, actions⟩ := output
  unfold addActions
  induction actions generalizing updates with
  | nil =>
    rw [append_nil, update_eq_self]
    rfl
  | cons action actions ih =>
    rw [foldl_cons]
    refine (ih (addAction updates output_id action)).trans ?_
    rw [getActions_addAction, update_self, update_idem, append_assoc, singleton_append]

/-- The actions of a cache above, appended by `WriteBatch`. -/
def merge (updates child : CoinsViewUpdates) : CoinsViewUpdates :=
  child.toList.foldl addActions updates

theorem getActions_merge (updates child : CoinsViewUpdates) (output_id : Hash) :
    getActions (merge updates child) output_id =
      getActions updates output_id ++ getActions child output_id := by
  refine (StdMap.foldl_toList getActions (· ++ ·) getActions_addActions ..).trans ?_
  unfold getActions
  rcases child[output_id]? with _ | actions
  · exact (append_nil _).symm
  · rfl

/-- The outputs that are there with the updates. -/
def present (utxos : Hash → Option UTXO) (updates : CoinsViewUpdates) : Hash → Option UTXO :=
  fun output_id => lastAction (utxos output_id) (getActions updates output_id)

/-- Additions and spends of each output alternate, from what there is without the updates. -/
def Alternate (utxos : Hash → Option UTXO) (updates : CoinsViewUpdates) : Prop :=
  ∀ output_id, replay (utxos output_id) (getActions updates output_id) =
    .ok (present utxos updates output_id)

section Alternate

variable {utxos : Hash → Option UTXO} {updates : CoinsViewUpdates}

theorem present_empty (utxos : Hash → Option UTXO) : present utxos ∅ = utxos := by
  funext output_id
  unfold present getActions
  rfl

theorem alternate_empty (utxos : Hash → Option UTXO) : Alternate utxos ∅ := by
  intro output_id
  unfold getActions
  rfl

theorem present_addAction (utxos : Hash → Option UTXO) (updates : CoinsViewUpdates)
    (output_id : Hash) (action : Option UTXO) : present utxos (addAction updates output_id action) =
      update (present utxos updates) output_id action := by
  funext id'
  unfold present
  rw [getActions_addAction]
  by_cases h : id' = output_id
  · rw [h, update_self, update_self, lastAction_append]
    rfl
  · rw [update_of_ne h, update_of_ne h]

theorem Alternate.addAction (h : Alternate utxos updates) {output_id : Hash} {action : Option UTXO}
    (hlegal : action.isSome ≠ (present utxos updates output_id).isSome) :
    Alternate utxos (addAction updates output_id action) := by
  intro id'
  rw [present_addAction, getActions_addAction]
  by_cases hid : id' = output_id
  · rw [hid, update_self, update_self, replay_append (h output_id)]
    unfold replay
    rw [foldlM_cons, replayAction_eq_ok hlegal]
    rfl
  · rw [update_of_ne hid, update_of_ne hid]
    exact h id'

theorem present_merge (utxos : Hash → Option UTXO) (updates child : CoinsViewUpdates) :
    present utxos (merge updates child) = present (present utxos updates) child := by
  funext output_id
  unfold present
  rw [getActions_merge, lastAction_append]

theorem Alternate.merge (h : Alternate utxos updates) {child : CoinsViewUpdates}
    (hchild : Alternate (present utxos updates) child) : Alternate utxos (merge updates child) := by
  intro output_id
  rw [present_merge, getActions_merge, replay_append (h output_id)]
  exact hchild output_id

theorem present_foldl_addUTXO (l : List UTXO) (updates : CoinsViewUpdates) :
    present utxos (l.foldl addUTXO updates) =
      insertAll (present utxos updates) (l.map fun utxo => (utxo.output.hash, utxo)) := by
  rw [insertAll, foldl_map]
  exact (foldl_hom _ fun _ _ => (present_addAction ..).symm).symm

theorem present_foldl_spendUTXO (l : List Hash) (updates : CoinsViewUpdates) :
    present utxos (l.foldl spendUTXO updates) = eraseAll (present utxos updates) l :=
  (foldl_hom _ fun _ _ => (present_addAction ..).symm).symm

/-- Actions for different outputs, each of which adds what is not there or spends what is there. -/
theorem Alternate.foldl (h : Alternate utxos updates) {α : Type} {k : α → Hash}
    {a : α → Option UTXO} {l : List α} (hnodup : (l.map k).Nodup)
    (hlegal : ∀ x ∈ l, (a x).isSome ≠ (present utxos updates (k x)).isSome) :
    Alternate utxos (l.foldl (fun u x => CoinsViewUpdates.addAction u (k x) (a x)) updates) := by
  induction l generalizing updates with
  | nil => exact h
  | cons x l ih =>
    rw [map_cons, nodup_cons] at hnodup
    refine ih (h.addAction (hlegal x mem_cons_self)) hnodup.2 fun y hmem => ?_
    have hne : k y ≠ k x := fun heq => hnodup.1 (heq ▸ mem_map_of_mem hmem)
    rw [present_addAction, update_of_ne hne]
    exact hlegal y (mem_cons_of_mem x hmem)

end Alternate

end CoinsViewUpdates

/-- The leaves of a `PMMRCache`: those from the first one on are its own, the others are below. Its
nodes follow from the leaves. -/
structure PendingLeaves where
  firstLeaf : Nat
  leaves : List Hash

namespace PendingLeaves

variable (p : PendingLeaves)

/-- `PMMRCache::GetNextLeafIdx`. -/
def nextLeafIdx : Nat := p.firstLeaf + p.leaves.length

/-- `PMMRCache::Add`. -/
def add (leaf : Hash) : PendingLeaves := { p with leaves := p.leaves ++ [leaf] }

/-- `PMMRCache::Rewind`. -/
def rewind (numLeaves : Nat) : PendingLeaves :=
  if numLeaves ≤ p.firstLeaf then ⟨numLeaves, []⟩
  else { p with leaves := p.leaves.take (numLeaves - p.firstLeaf) }

/-- `PMMRCache::BatchWrite`. -/
def batchWrite (p child : PendingLeaves) : PendingLeaves :=
  child.leaves.foldl add (p.rewind child.firstLeaf)

/-- The cache after its leaves have gone to the range below. -/
def flushed : PendingLeaves := ⟨p.nextLeafIdx, []⟩

/-- The leaves of the range that the cache presents. -/
def present (base : List Hash) : List Hash := base.take p.firstLeaf ++ p.leaves

theorem foldl_add (l : List Hash) (p : PendingLeaves) :
    l.foldl add p = { p with leaves := p.leaves ++ l } := by
  induction l generalizing p with
  | nil => rw [append_nil]; rfl
  | cons leaf l ih =>
    rw [foldl_cons, ih]
    simp [add]

section Present

variable {p : PendingLeaves} {base : List Hash} (h : p.firstLeaf ≤ base.length)

include h

theorem length_present : (p.present base).length = p.nextLeafIdx := by
  rw [present, length_append, length_take_of_le h, nextLeafIdx]

theorem firstLeaf_rewind_le (numLeaves : Nat) : (p.rewind numLeaves).firstLeaf ≤ base.length := by
  unfold rewind
  split_ifs with hle
  · exact hle.trans h
  · exact h

/-- A rewind cuts the leaves off, wherever they are. -/
theorem present_rewind (numLeaves : Nat) :
    (p.rewind numLeaves).present base = (p.present base).take numLeaves := by
  unfold rewind present
  have hlen : (base.take p.firstLeaf).length = p.firstLeaf := length_take_of_le h
  split_ifs with hle
  · rw [append_nil, take_append_of_le_length (by omega), take_take, Nat.min_eq_left hle]
  · have hall : (base.take p.firstLeaf).take numLeaves = base.take p.firstLeaf :=
      take_of_length_le (by omega)
    rw [take_append, hlen, hall]

/-- What is written to a cache is then presented by it. -/
theorem present_batchWrite (child : PendingLeaves) :
    (p.batchWrite child).present base = child.present (p.present base) := by
  have hrewind := present_rewind h child.firstLeaf
  unfold batchWrite
  rw [foldl_add]
  unfold present at hrewind ⊢
  rw [← append_assoc, hrewind]

end Present

end PendingLeaves

/-! ## Caches and what they present -/

/-- `mw::CoinsViewCache`, without the view below it. -/
structure CoinsViewCache where
  bestHeader : Option Header
  updates : CoinsViewUpdates
  leafSet : LeafSetCache
  outputPMMR : PendingLeaves

/-- A view: the one on disk, or a cache over another view. -/
inductive View where
  | db (view : CoinsView)
  | cache (cache : CoinsViewCache) (base : View)

namespace View

/-- `GetUTXO`. -/
def getUTXO : View → Hash → Except Fault (Option UTXO)
  | .db view, output_id => .ok (view.utxos output_id)
  | .cache c base, output_id => do
    replay (← base.getUTXO output_id) (CoinsViewUpdates.getActions c.updates output_id)

/-- What a view presents. -/
def present : View → CoinsView
  | .db view => view
  | .cache c base => {
      bestHeader := c.bestHeader
      utxos := CoinsViewUpdates.present base.present.utxos c.updates
      leafSet := c.leafSet.present base.present.leafSet
      outputPMMR := c.outputPMMR.present base.present.outputPMMR }

/-- No assertion of `GetUTXO` fails in any cache, and no cache has leaves above a gap. -/
def Sound : View → Prop
  | .db _ => True
  | .cache c base => base.Sound ∧ c.outputPMMR.firstLeaf ≤ base.present.outputPMMR.length ∧
    CoinsViewUpdates.Alternate base.present.utxos c.updates

/-- On a sound view an output is read without a failed assertion. -/
theorem getUTXO_of_sound {view : View} (h : view.Sound) (output_id : Hash) :
    view.getUTXO output_id = .ok (view.present.utxos output_id) := by
  induction view with
  | db view => rfl
  | cache c base ih =>
    obtain ⟨hbase, -, hreplay⟩ := h
    unfold getUTXO
    rw [ih hbase, ok_bind]
    exact hreplay output_id

end View

namespace CoinsViewCache

/-- The constructor of `CoinsViewCache`. -/
def new (base : View) : CoinsViewCache :=
  ⟨base.present.bestHeader, ∅, ⟨base.present.leafSet.nextLeafIdx, fun _ => none⟩,
    ⟨base.present.outputPMMR.length, []⟩⟩

section Operations

variable (base : View) (c : CoinsViewCache)

/-- What a cache over the view presents. -/
def present : CoinsView := (View.cache c base).present

/-- `CoinsViewCache::AddUTXO`. -/
def addUTXO (header_height : Int) (c : CoinsViewCache) (output : Output) :
    Except Fault CoinsViewCache := do
  match ← (View.cache c base).getUTXO output.hash with
  | some _ => .error (.exception (throwValidation "AddUTXO" .duplicates))
  | none =>
    let leafIdx := c.outputPMMR.nextLeafIdx
    .ok { c with
      outputPMMR := c.outputPMMR.add output.hash
      leafSet := c.leafSet.add base.present.leafSet leafIdx
      updates := CoinsViewUpdates.addUTXO c.updates ⟨header_height, leafIdx, output⟩ }

/-- `CoinsViewCache::SpendUTXO`. -/
def spendUTXO (output_id : Hash) : Except Fault (UTXO × CoinsViewCache) := do
  match ← (View.cache c base).getUTXO output_id with
  | none => .error (.exception (throwValidation "SpendUTXO" .utxoMissing))
  | some utxo =>
    if (c.leafSet.present base.present.leafSet).contains utxo.leafIdx then
      .ok (utxo, { c with
        leafSet := c.leafSet.remove base.present.leafSet utxo.leafIdx
        updates := CoinsViewUpdates.spendUTXO c.updates output_id })
    else .error (.exception (throwValidation "SpendUTXO" .utxoMissing))

/-- One round of the loop over the inputs of a block in `ApplyBlockChanges`. -/
def spendInput (allow_historical_metadata_mismatch : Bool) (state : List UTXO × CoinsViewCache)
    (input : Input) : Except Fault (List UTXO × CoinsViewCache) := do
  let pUTXO ← (View.cache state.2 base).getUTXO input.outputID
  (checkInput allow_historical_metadata_mismatch input pUTXO).mapError .exception
  let (spentUTXO, c) ← state.2.spendUTXO base input.outputID
  pure (state.1 ++ [spentUTXO], c)

/-- `CoinsViewCache::ApplyBlockChanges`. -/
def applyBlockChanges (crypto : NodeCrypto) (allow_historical_metadata_mismatch : Bool)
    (c : CoinsViewCache) (block : Block) : Except Fault (BlockUndo × CoinsViewCache) := do
  let prev_offset := (c.bestHeader.map (·.kernelOffset)).getD .zero
  (validateForBlock crypto block.body block.header.kernelOffset prev_offset).mapError .exception
  let added ← block.body.outputs.foldlM (addUTXO base block.header.height)
    { c with bestHeader := some block.header }
  let (coinsSpent, spent) ← block.body.inputs.foldlM
    (spendInput base allow_historical_metadata_mismatch) ([], added)
  reject (!(spent.present base).matchesHeader crypto block.header)
    (.exception (throwValidation "ApplyBlockChanges" .mmrMismatch))
  pure (⟨c.bestHeader, coinsSpent, block.body.outputs.map (·.hash)⟩, spent)

/-- What a flush hands to a cache: `WriteBatch`, `LeafSetCache::ApplyUpdates` and
`PMMRCache::BatchWrite`. -/
def receive (c child : CoinsViewCache) : CoinsViewCache where
  bestHeader := child.bestHeader
  updates := CoinsViewUpdates.merge c.updates child.updates
  leafSet := c.leafSet.applyUpdates child.leafSet
  outputPMMR := c.outputPMMR.batchWrite child.outputPMMR

/-- `CoinsViewCache::ApplyBlock`. A cache of its own over this one is changed and flushed. -/
def applyBlock (crypto : NodeCrypto) (allow_historical_metadata_mismatch : Bool)
    (c : CoinsViewCache) (block : Block) : Except Fault (BlockUndo × CoinsViewCache) := do
  let (undo, validation_cache) ← (new (.cache c base)).applyBlockChanges (.cache c base) crypto
    allow_historical_metadata_mismatch block
  pure (undo, if validation_cache.bestHeader.isNone then c else c.receive validation_cache)

/-- One of the changes of `AddTx`. -/
def addTxStep : Output ⊕ Input → Except Fault CoinsViewCache
  | .inl output => c.addUTXO base mempoolHeight output
  | .inr input => (c.spendUTXO base input.outputID).map Prod.snd

/-- `CoinsViewCache::AddTx`. -/
def addTx (tx : Transaction) : CoinsViewCache × Except Fault Unit :=
  runAll (addTxStep base) (tx.body.outputs.map .inl ++ tx.body.inputs.map .inr) c

/-- `CoinsViewCache::UndoBlock`. -/
def undoBlock (crypto : NodeCrypto) (c : CoinsViewCache) (undo : BlockUndo) :
    Except Fault CoinsViewCache :=
  let updates := undo.coinsAdded.foldl CoinsViewUpdates.spendUTXO
    (undo.coinsSpent.foldl CoinsViewUpdates.addUTXO c.updates)
  match undo.prevHeader with
  | none => .ok ⟨none, updates, c.leafSet.rewind base.present.leafSet 0 [], c.outputPMMR.rewind 0⟩
  | some header => do
    let undone : CoinsViewCache := ⟨some header, updates,
      c.leafSet.rewind base.present.leafSet header.outputMMRSize (undo.coinsSpent.map (·.leafIdx)),
      c.outputPMMR.rewind header.outputMMRSize⟩
    reject (!(undone.present base).matchesHeader crypto header)
      (.exception (throwValidation "UndoBlock" .mmrMismatch))
    pure undone

end Operations

/-- The cache after a flush. -/
def flushed (c : CoinsViewCache) : CoinsViewCache :=
  ⟨c.bestHeader, ∅, c.leafSet.flushed, c.outputPMMR.flushed⟩

end CoinsViewCache

/-! ## The operations on what is presented -/

/-- A sound cache over a view presents another view. -/
structure Presents (base : View) (c : CoinsViewCache) (view : CoinsView) : Prop where
  sound : (View.cache c base).Sound
  eq : c.present base = view

/-- The fault is the exception. -/
def IsException (fault : Fault) (what : String) : Prop := fault = .exception what

theorem refines_exception {α : Type} (x : Except String α) :
    Refines (fun a b => a = b) IsException (x.mapError .exception) x :=
  Refines.mapError x fun _ => rfl

theorem refines_reject (cond : Bool) (what : String) :
    Refines (fun _ _ => True) IsException (reject cond (.exception what)) (reject cond what) :=
  Refines.reject rfl

namespace Presents

open CoinsViewUpdates

variable {base : View} {c : CoinsViewCache} {view : CoinsView}

section

variable (h : Presents base c view)

include h

theorem getUTXO (output_id : Hash) :
    (View.cache c base).getUTXO output_id = .ok (view.utxos output_id) := by
  rw [View.getUTXO_of_sound h.sound, ← h.eq]
  rfl

theorem utxos : present base.present.utxos c.updates = view.utxos := by
  rw [← h.eq]
  rfl

theorem leafSet : c.leafSet.present base.present.leafSet = view.leafSet := by
  rw [← h.eq]
  rfl

theorem outputPMMR : c.outputPMMR.present base.present.outputPMMR = view.outputPMMR := by
  rw [← h.eq]
  rfl

theorem nextLeafIdx : c.outputPMMR.nextLeafIdx = view.outputPMMR.length := by
  rw [← h.outputPMMR, PendingLeaves.length_present h.sound.2.1]

end

/-- A new cache presents the view below it. -/
theorem new (h : base.Sound) : Presents base (CoinsViewCache.new base) base.present where
  sound := ⟨h, Nat.le_refl _, alternate_empty _⟩
  eq := by
    apply CoinsView.ext
    · rfl
    · exact present_empty _
    · exact present_flushed _ ⟨_, fun _ => none⟩ rfl
    · show base.present.outputPMMR.take base.present.outputPMMR.length ++ [] = _
      rw [take_length, append_nil]

section

variable (h : Presents base c view)

include h

theorem setBestHeader (header : Option Header) :
    Presents base { c with bestHeader := header } { view with bestHeader := header } where
  sound := h.sound
  eq := by
    rw [← h.eq]
    rfl

theorem addUTXO_refines (header_height : Int) (output : Output) :
    Refines (Presents base) IsException (c.addUTXO base header_height output)
      (view.addUTXO header_height output) := by
  unfold CoinsViewCache.addUTXO CoinsView.addUTXO
  rw [h.getUTXO, ok_bind]
  rcases hfound : view.utxos output.hash with _ | utxo
  · refine ⟨⟨h.sound.1, h.sound.2.1, h.sound.2.2.addAction ?_⟩, ?_⟩
    · rw [h.utxos, hfound]
      exact Bool.false_ne_true.symm
    · apply CoinsView.ext
      · rw [← h.eq]
        rfl
      · refine (present_addAction ..).trans ?_
        rw [h.utxos, h.nextLeafIdx]
        rfl
      · refine (present_add ..).trans ?_
        rw [h.leafSet, h.nextLeafIdx]
        rfl
      · show base.present.outputPMMR.take c.outputPMMR.firstLeaf ++
          (c.outputPMMR.leaves ++ [output.hash]) = view.outputPMMR ++ [output.hash]
        rw [← append_assoc, ← h.outputPMMR]
        rfl
  · exact rfl

theorem spendUTXO_refines (output_id : Hash) :
    Refines (fun r r' => r.1 = r'.1 ∧ Presents base r.2 r'.2) IsException
      (c.spendUTXO base output_id) (view.spendUTXO output_id) := by
  unfold CoinsViewCache.spendUTXO CoinsView.spendUTXO
  rw [h.getUTXO, ok_bind]
  rcases hfound : view.utxos output_id with _ | utxo
  · exact rfl
  · dsimp only
    rw [h.leafSet]
    split_ifs with hbit
    · refine ⟨rfl, ⟨h.sound.1, h.sound.2.1, h.sound.2.2.addAction ?_⟩, ?_⟩
      · rw [h.utxos, hfound]
        exact Bool.false_ne_true
      · apply CoinsView.ext
        · rw [← h.eq]
          rfl
        · refine (present_addAction ..).trans ?_
          rw [h.utxos]
          rfl
        · refine (present_remove ..).trans ?_
          rw [h.leafSet]
          rfl
        · exact h.outputPMMR
    · exact rfl

omit h in
theorem spendInput_refines {r : List UTXO × CoinsViewCache} {r' : List UTXO × CoinsView}
    (hr : r.1 = r'.1 ∧ Presents base r.2 r'.2) (allow : Bool) (input : Input) :
    Refines (fun r r' => r.1 = r'.1 ∧ Presents base r.2 r'.2) IsException
      (CoinsViewCache.spendInput base allow r input) (spendInput allow r' input) := by
  unfold CoinsViewCache.spendInput spendInput
  rw [hr.2.getUTXO, ok_bind]
  refine (refines_exception _).bind fun _ _ _ => ?_
  refine (hr.2.spendUTXO_refines input.outputID).bind fun s s' hs => ?_
  exact ⟨by rw [hr.1, hs.1], hs.2⟩

theorem applyBlockChanges_refines (crypto : NodeCrypto) (allow : Bool) (block : Block) :
    Refines (fun r r' => r.1 = r'.1 ∧ Presents base r.2 r'.2) IsException
      (c.applyBlockChanges base crypto allow block) (view.applyBlock crypto allow block) := by
  unfold CoinsViewCache.applyBlockChanges applyBlock
  have hheader : c.bestHeader = view.bestHeader := by
    rw [← h.eq]
    rfl
  rw [hheader]
  refine (refines_exception _).bind fun _ _ _ => ?_
  refine (Refines.foldlM (fun _ _ output hr => hr.addUTXO_refines block.header.height output)
    block.body.outputs (h.setBestHeader (some block.header))).bind fun added added' hadded => ?_
  have hloop := Refines.foldlM (fun _ _ input hr => spendInput_refines hr allow input)
    block.body.inputs (a := ([], added)) (b := ([], added')) ⟨rfl, hadded⟩
  refine hloop.bind ?_
  rintro ⟨coinsSpent, spent⟩ ⟨-, spent'⟩ ⟨rfl, hspent⟩
  dsimp only
  rw [hspent.eq]
  exact (refines_reject ..).bind fun _ _ _ => ⟨rfl, hspent⟩

end

/-- A cache that received all changes of the one above presents what that one did. -/
theorem receive {child : CoinsViewCache} (h : (View.cache c base).Sound)
    (hchild : Presents (.cache c base) child view) : Presents base (c.receive child) view := by
  refine ⟨⟨h.1, ?_, h.2.2.merge hchild.sound.2.2⟩, ?_⟩
  · show (c.outputPMMR.batchWrite child.outputPMMR).firstLeaf ≤ _
    unfold PendingLeaves.batchWrite
    rw [PendingLeaves.foldl_add]
    exact PendingLeaves.firstLeaf_rewind_le h.2.1 _
  · rw [← hchild.eq]
    apply CoinsView.ext
    · rfl
    · exact present_merge ..
    · exact present_applyUpdates ..
    · exact PendingLeaves.present_batchWrite h.2.1 _

theorem applyBlock_refines (h : Presents base c view) (hview : view.Bijective) (crypto : NodeCrypto)
    (allow : Bool) (block : Block) :
    Refines (fun r r' => r.1 = r'.1 ∧ Presents base r.2 r'.2 ∧
      ∃ added, CoinsView.Applied crypto view block r'.1 added r'.2) IsException
      (c.applyBlock base crypto allow block) (view.applyBlock crypto allow block) := by
  have hnew : Presents (.cache c base) (CoinsViewCache.new (.cache c base)) view := by
    have hsame := Presents.new h.sound
    rwa [show (View.cache c base).present = view from h.eq] at hsame
  rw [CoinsViewCache.applyBlock, ← bind_pure (view.applyBlock crypto allow block)]
  refine ((hnew.applyBlockChanges_refines crypto allow block).and_right fun r' hok =>
    applied_of_applyBlock hview hok).bind ?_
  rintro ⟨undo, validation_cache⟩ ⟨undo', view'⟩ ⟨⟨heq, hpresents⟩, added, happ⟩
  -- The best header is the block's, so the flush is not skipped.
  have hheader : validation_cache.bestHeader = some block.header :=
    (congrArg bestHeader hpresents.eq).trans happ.bestHeader
  refine ⟨heq, ?_, added, happ⟩
  rw [hheader]
  exact Presents.receive h.sound hpresents

/-- Taking back a block: the coins that it spent are not there and differ, and those that it added
are there then and differ. -/
theorem undoBlock_refines (h : Presents base c view) (crypto : NodeCrypto) {undo : BlockUndo}
    (hspent : (undo.coinsSpent.map (·.output.hash)).Nodup)
    (habsent : ∀ utxo ∈ undo.coinsSpent, view.utxos utxo.output.hash = none)
    (hadded : undo.coinsAdded.Nodup)
    (hhere : ∀ output_id ∈ undo.coinsAdded,
      (insertAll view.utxos undo.spentById output_id).isSome) :
    Refines (Presents base) IsException (c.undoBlock base crypto undo)
      (view.undoBlock crypto undo) := by
  have hput : present base.present.utxos (undo.coinsSpent.foldl addUTXO c.updates) =
      insertAll view.utxos undo.spentById := by
    rw [present_foldl_addUTXO, h.utxos]
  let updates := undo.coinsAdded.foldl spendUTXO (undo.coinsSpent.foldl addUTXO c.updates)
  have hutxos : present base.present.utxos updates = CoinsView.undoneUTXOs view.utxos undo := by
    rw [present_foldl_spendUTXO, hput]
    rfl
  have halternate : Alternate base.present.utxos updates := by
    have hadd := h.sound.2.2.foldl (a := some) hspent fun utxo hmem => by
      rw [h.utxos, habsent utxo hmem]
      exact Bool.false_ne_true.symm
    refine hadd.foldl (k := id) (a := fun _ => none) (by rwa [map_id]) fun output_id hmem => ?_
    show _ ≠ (present base.present.utxos (undo.coinsSpent.foldl addUTXO c.updates) output_id).isSome
    rw [hput, hhere output_id hmem]
    exact Bool.false_ne_true
  -- The parts of the view after a rewind to any size.
  have hundone : ∀ (header : Option Header) (numLeaves : Nat) (leavesToAdd : List Nat),
      Presents base ⟨header, updates, c.leafSet.rewind base.present.leafSet numLeaves leavesToAdd,
          c.outputPMMR.rewind numLeaves⟩
        ⟨header, CoinsView.undoneUTXOs view.utxos undo, view.leafSet.rewind numLeaves leavesToAdd,
          view.outputPMMR.take numLeaves⟩ := by
    intro header numLeaves leavesToAdd
    refine ⟨⟨h.sound.1, PendingLeaves.firstLeaf_rewind_le h.sound.2.1 _, halternate⟩, ?_⟩
    apply CoinsView.ext
    · rfl
    · exact hutxos
    · refine (present_rewind ..).trans ?_
      rw [h.leafSet]
    · refine (PendingLeaves.present_rewind h.sound.2.1 _).trans ?_
      rw [h.outputPMMR]
  unfold CoinsViewCache.undoBlock CoinsView.undoBlock
  rcases undo.prevHeader with _ | header
  · exact hundone none 0 []
  · have hpresents := hundone (some header) header.outputMMRSize (undo.coinsSpent.map (·.leafIdx))
    dsimp only
    rw [hpresents.eq]
    exact (refines_reject ..).bind fun _ _ _ => hpresents

end Presents

end DefcoinCore.Mweb
