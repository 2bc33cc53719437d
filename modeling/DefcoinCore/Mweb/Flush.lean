import DefcoinCore.Mweb.CoinDB
import DefcoinCore.Mweb.Connect

/-!
# Flushing caches of the extension block, and taking blocks back

A flush makes the view below present what the cache presented, whether that is the view on disk or
another cache (`flush_spec`), and a second flush changes nothing. It does nothing at all if the best
header is null, though. A cache over a view with one extension block has a null header once the
block was taken back, and a flush then leaves the block in the view below.

Taking back the last block restores what the cache presented, with no assertion failing on the way
(`undoBlock_spec`), if the best header describes the view.
-/

namespace DefcoinCore.Mweb

open CoinsView CoinsViewCache Except CoinsViewUpdates Option BlindingFactor List

/-! ## Writing to disk -/

variable {view : CoinsView} {c : CoinsViewCache} {base : View} {crypto : NodeCrypto}

/-- What a flush hands to the view on disk: `CoinsViewDB::WriteBatch`, `LeafSet::ApplyUpdates` and
`PMMR::BatchWrite`, with the batch written. -/
def CoinsView.receive (db : CoinsView) (child : CoinsViewCache) : Except Fault CoinsView := do
  let tx ← writeBatch db.utxos child.updates
  pure ⟨child.bestHeader, tx.commit db.utxos, db.leafSet.applyUpdates child.leafSet,
    child.outputPMMR.present db.outputPMMR⟩

/-- `CoinsViewCache::Flush`: the cache and the view below it afterwards. -/
def CoinsViewCache.flush (c : CoinsViewCache) (base : View) :
    Except Fault (CoinsViewCache × View) :=
  if c.bestHeader.isNone then .ok (c, base)
  else
    match base with
    | .db db => do
      let db' ← db.receive c
      pure (c.flushed, .db db')
    | .cache b base => .ok (c.flushed, .cache (b.receive c) base)

/-- Actions that alternate end with the last one. -/
theorem lastAction_of_replay {stored pUTXO : Option UTXO} {actions : List (Option UTXO)}
    (h : replay stored actions = .ok pUTXO) : lastAction stored actions = pUTXO := by
  induction actions generalizing stored with
  | nil => exact ok.inj h
  | cons action actions ih =>
    obtain ⟨there, hthere, hrest⟩ := bind_eq_ok_iff.mp h
    have hlast : there = action := by
      rcases action with _ | utxo <;> rcases stored with _ | coin <;> cases hthere <;> rfl
    exact hlast ▸ ih hrest

/-- Actions that alternate spend only what is there. -/
theorem not_absent_of_replay {stored pUTXO : Option UTXO} {actions done : List (Option UTXO)}
    (h : replay stored actions = .ok pUTXO) (hdone : done ++ [none] <+: actions) :
    ¬ Absent stored done := by
  obtain ⟨rest, rfl⟩ := hdone
  intro habsent
  rw [replay, append_assoc, foldlM_append] at h
  obtain ⟨there, hthere, hrest⟩ := bind_eq_ok_iff.mp h
  rw [← lastAction_of_replay hthere, habsent] at hrest
  cases hrest

/-- The view on disk, after a cache was written to it, is what the cache presented. -/
theorem CoinsView.receive_eq {db : CoinsView} (h : Presents (.db db) c view)
    (hcleared : ∀ i, view.leafSet.nextLeafIdx ≤ i → view.leafSet.contains i = false) :
    db.receive c = .ok view := by
  have hnot : ¬ BatchSpends Unread db.utxos c.updates.ops := by
    rintro ⟨done, output_id, hdone, hunread⟩
    refine not_absent_of_replay (h.sound.2.2 output_id) ?_ hunread.absent
    rw [← opsOn_ops]
    simpa [opsOn] using (hdone.filter (·.1 = output_id)).map Prod.snd
  have hspec := foldlM_writeAction_spec db.utxos c.updates.ops
  unfold CoinsView.receive writeBatch
  rcases hrun : c.updates.ops.foldlM (writeAction db.utxos) {} with e | tx
  · exact absurd (hspec.of_error hrun).2 hnot
  rw [ok_bind, (hspec.of_ok hrun).1]
  have hleafSet : db.leafSet.applyUpdates c.leafSet = view.leafSet := by
    rw [← h.leafSet]
    refine LeafSet.applyUpdates_eq fun i hi => ?_
    have hclear := hcleared i
    rw [← h.leafSet] at hclear
    exact hclear hi
  refine congrArg ok (CoinsView.ext ?_ ?_ hleafSet h.outputPMMR)
  · rw [← h.eq]
    rfl
  · rw [← h.utxos]
    funext output_id
    refine (run_spec ..).2.trans ?_
    rw [opsOn_ops, ← lastAction_eq_getLast?]
    rfl

/-! ## Flush -/

/-- A cache presents what the view below it does, once all its changes are there. -/
theorem Presents.flushed {base' : View} (h : Presents base c view) (hsound : base'.Sound)
    (hpresent : base'.present = view) :
    Presents base' c.flushed view where
  sound := by
    refine ⟨hsound, ?_, alternate_empty _⟩
    show c.outputPMMR.nextLeafIdx ≤ _
    rw [hpresent, h.nextLeafIdx]
  eq := by
    apply CoinsView.ext
    · rw [← h.eq]
      rfl
    · exact (present_empty base'.present.utxos).trans (by rw [hpresent])
    · show c.leafSet.flushed.present base'.present.leafSet = view.leafSet
      rw [hpresent]
      refine LeafSetCache.present_flushed view.leafSet c.leafSet ?_
      rw [← h.leafSet]
      rfl
    · show base'.present.outputPMMR.take c.outputPMMR.nextLeafIdx ++ [] = view.outputPMMR
      rw [hpresent, h.nextLeafIdx, take_length, append_nil]

/-- A cache that has just been flushed has nothing for the cache below. -/
theorem receive_flushed {b : CoinsViewCache} (h : Presents base b view)
    (hheader : b.bestHeader = c.bestHeader) (hnext : b.leafSet.nextLeafIdx = c.leafSet.nextLeafIdx)
    (hleaves : c.outputPMMR.nextLeafIdx = view.outputPMMR.length) : b.receive c.flushed = b := by
  obtain ⟨bestHeader, updates, ⟨nextLeafIdx, modifiedBytes⟩, ⟨firstLeaf, leaves⟩⟩ := b
  have hlen : firstLeaf + leaves.length = c.outputPMMR.nextLeafIdx := by
    rw [hleaves, ← h.nextLeafIdx]
    rfl
  have hupdates : merge updates ∅ = updates := rfl
  have hrewind : PendingLeaves.rewind ⟨firstLeaf, leaves⟩ c.outputPMMR.nextLeafIdx =
      ⟨firstLeaf, leaves⟩ := by
    unfold PendingLeaves.rewind
    dsimp only
    split_ifs with hle
    · have hnil : leaves = [] := eq_nil_of_length_eq_zero (by omega)
      have hfirst : c.outputPMMR.nextLeafIdx = firstLeaf := by
        omega
      rw [hnil, hfirst]
    · rw [take_of_length_le (by omega)]
  unfold CoinsViewCache.receive flushed
  dsimp only at hheader hnext ⊢
  rw [← hheader, hupdates]
  congr 1
  rw [hnext]
  rfl

/-- Nothing is flushed without a best header. -/
theorem flush_of_none (base : View) (h : c.bestHeader = none) : c.flush base = .ok (c, base) := by
  unfold flush
  rw [h]
  rfl

/-- What a flush of a cache with a best header does: the view below presents what the cache did, so
does the cache, and a second flush changes nothing. -/
theorem flush_spec (h : Presents base c view) (hview : view.Bijective)
    (hheader : view.bestHeader ≠ none) :
    ∃ base', c.flush base = .ok (c.flushed, base') ∧ base'.Sound ∧ base'.present = view ∧
      Presents base' c.flushed view ∧ c.flushed.flush base' = .ok (c.flushed, base') := by
  have hcleared : ∀ i, view.leafSet.nextLeafIdx ≤ i → view.leafSet.contains i = false := by
    intro i hi
    rw [Bool.eq_false_iff]
    intro hbit
    have hlt := hview.bit_lt hbit
    rw [← hview.next] at hlt
    omega
  have hsome : c.bestHeader.isNone = false := by
    rw [← h.eq] at hheader
    have hne : c.bestHeader ≠ none := hheader
    rcases hc : c.bestHeader with _ | header
    · exact absurd hc hne
    · rfl
  have hagain : c.flushed.flushed = c.flushed := rfl
  rcases base with db | ⟨b, base⟩
  · have hflushed : Presents (.db view) c.flushed view := h.flushed trivial rfl
    refine ⟨.db view, ?_, trivial, rfl, hflushed, ?_⟩
    · unfold flush
      rw [hsome]
      dsimp only
      rw [receive_eq h hcleared]
      rfl
    · unfold flush
      rw [show c.flushed.bestHeader.isNone = false from hsome]
      dsimp only
      rw [receive_eq hflushed hcleared, hagain]
      rfl
  · have hreceived : Presents base (b.receive c) view := Presents.receive h.sound.1 h
    have hflushed : Presents (.cache (b.receive c) base) c.flushed view :=
      h.flushed hreceived.sound hreceived.eq
    refine ⟨.cache (b.receive c) base, ?_, hreceived.sound, hreceived.eq, hflushed, ?_⟩
    · unfold flush
      rw [hsome]
      rfl
    · unfold flush
      rw [show c.flushed.bestHeader.isNone = false from hsome]
      have hsame := receive_flushed (c := c) hreceived rfl rfl h.nextLeafIdx
      dsimp only
      rw [if_neg Bool.false_ne_true, hsame, hagain]

/-! ## Taking a block back -/

/-- Taking back the block that was applied last restores what the cache presented. -/
theorem undoBlock_spec {allow : Bool} {c' : CoinsViewCache} {view' : CoinsView} {block : Block}
    {undo : BlockUndo} (hview : view.Bijective) (hdesc : view.Described crypto)
    (happly : view.applyBlock crypto allow block = .ok (undo, view'))
    (hc' : Presents base c' view') :
    ∃ c'', c'.undoBlock base crypto undo = .ok c'' ∧ Presents base c'' view := by
  obtain ⟨added, happ⟩ := applied_of_applyBlock hview happly
  have hspent : (undo.coinsSpent.map (·.output.hash)).Nodup := by
    rw [← happ.spent.coins]
    exact happ.spent.nodup
  have habsent : ∀ utxo ∈ undo.coinsSpent, view'.utxos utxo.output.hash = none := by
    intro utxo hmem
    rw [happ.spent.utxos, happ.spent.coins, if_pos (mem_map_of_mem hmem)]
  have hadded : undo.coinsAdded.Nodup := by
    rw [happ.coinsAdded]
    exact happ.added.nodup
  have hrefines := hc'.undoBlock_refines crypto hspent habsent hadded fun _ hmem =>
    happ.insertAll_isSome hmem
  exact hrefines.ok_of_ok (undoBlock_applyBlock hview hdesc happly)

/-- A cache whose reads fail no assertion, and whose unspent outputs, bits and leaves belong
together. -/
structure Consistent (base : View) (c : CoinsViewCache) : Prop where
  sound : (View.cache c base).Sound
  bijective : (c.present base).Bijective

namespace Consistent

variable {base : View} {c c' : CoinsViewCache}

theorem presents (h : Consistent base c) : Presents base c (c.present base) := ⟨h.sound, rfl⟩

theorem of_presents {view : CoinsView} (h : Presents base c view) (hview : view.Bijective) :
    Consistent base c := ⟨h.sound, h.eq ▸ hview⟩

theorem addTxStep_refines (h : Consistent base c) (change : Output ⊕ Input) :
    Refines (fun c' view' => Presents base c' view' ∧ view'.Bijective) IsException
      (addTxStep base c change) ((c.present base).addTxStep change) := by
  refine Refines.and_right ?_ fun view' hview => h.bijective.addTxStep hview
  rcases change with output | input
  · exact h.presents.addUTXO_refines mempoolHeight output
  · exact (h.presents.spendUTXO_refines input.outputID).map Prod.snd Prod.snd fun _ _ hr => hr.2

/-- Adding a transaction keeps a cache consistent wherever it stops, and fails no assertion. -/
theorem addTx (h : Consistent base c) (tx : Transaction) :
    Consistent base (c.addTx base tx).1 ∧ (c.addTx base tx).2 ≠ .error .assertion := by
  refine runAll_spec (fun c' change hc' => (hc'.addTxStep_refines change).ensures.mono ?_ ?_) _ h
  · rintro c'' ⟨view', -, hpresents, hview⟩
    exact of_presents hpresents hview
  · rintro _ ⟨what, -, rfl⟩ heq
    cases heq

end Consistent

/-- Taking back the last block restores a view that its header describes, and applying blocks,
adding transactions and taking blocks back keep unspent outputs, bits and leaves together and fail
no assertion. -/
theorem undoBlock_restores (crypto : NodeCrypto) (base : View) (c : CoinsViewCache)
    (h : Consistent base c) :
    (∀ tx, Consistent base (c.addTx base tx).1 ∧ (c.addTx base tx).2 ≠ .error .assertion) ∧
    ∀ allow block, Ensures (c.applyBlock base crypto allow block)
      (fun r => Consistent base r.2 ∧ ((c.present base).Described crypto →
        (r.2.present base).Described crypto ∧
        ∃ c'', r.2.undoBlock base crypto r.1 = .ok c'' ∧ Consistent base c'' ∧
          c''.present base = c.present base))
      fun fault => fault ≠ .assertion := by
  refine ⟨fun tx => h.addTx tx, fun allow block => ?_⟩
  refine (h.presents.applyBlock_refines h.bijective crypto allow block).ensures.mono ?_ ?_
  · rintro ⟨undo, c'⟩ ⟨⟨undo', view'⟩, hview, hundo, hpresents, added, happ⟩
    obtain rfl : undo = undo' := hundo
    refine ⟨.of_presents hpresents happ.spent.bijective, fun hdesc =>
      ⟨hpresents.eq ▸ happ.described, ?_⟩⟩
    obtain ⟨c'', hc'', hrestored⟩ := undoBlock_spec h.bijective hdesc hview hpresents
    exact ⟨c'', hc'', .of_presents hrestored h.bijective, hrestored.eq⟩
  · rintro _ ⟨what, -, rfl⟩ heq
    cases heq

theorem presents_new_empty : Presents (.db .empty) (new (.db .empty)) .empty :=
  Presents.new trivial

theorem consistent_new_empty : Consistent (.db .empty) (new (.db .empty)) :=
  .of_presents presents_new_empty bijective_empty

/-- The first extension block: one output. -/
def firstBlock : Block := ⟨plainHeader 1 [5] [0x80], [], [plainOutput 5], []⟩

/-- The first block is applied and taken back. -/
theorem undoBlock_restores_first : ∃ undo c' c'',
    (CoinsViewCache.new (.db .empty)).applyBlock (.db .empty) plainCrypto false firstBlock =
      .ok (undo, c') ∧
    c'.undoBlock (.db .empty) plainCrypto undo = .ok c'' ∧ c''.present (.db .empty) = .empty := by
  have hrun : Returns ((new (.db .empty)).applyBlock (.db .empty) plainCrypto false
      firstBlock) fun _ => True := by decide +kernel
  obtain ⟨⟨undo, c'⟩, hok, -⟩ := hrun.exists_ok
  have hempty := presents_new_empty.eq
  obtain ⟨-, hundo⟩ := ((undoBlock_restores plainCrypto (.db .empty) _ consistent_new_empty).2 false
    firstBlock).of_ok hok
  obtain ⟨-, c'', hc'', -, heq⟩ := hundo (by
    rw [hempty]
    exact rfl)
  exact ⟨undo, c', c'', hok, hc'', heq.trans hempty⟩

/-- A block over an output of the memory pool. -/
def blockOverMempool : Block := ⟨plainHeader 1 [5, 6] [0xc0], [], [plainOutput 6], []⟩

/-- A transaction is added to the empty view, then a block is applied and taken back. Unspent
outputs, bits and leaves belong together before, but the header says nothing of the transaction's
output: its leaf is cut off while the output stays. -/
theorem undoBlock_after_addTx : ∃ c undo c' c'', Consistent (.db .empty) c ∧
    c.applyBlock (.db .empty) plainCrypto false blockOverMempool = .ok (undo, c') ∧
    c'.undoBlock (.db .empty) plainCrypto undo = .ok c'' ∧
    c''.present (.db .empty) ≠ c.present (.db .empty) ∧ ¬(c''.present (.db .empty)).Bijective := by
  have hrun : Returns (((new (.db .empty)).addTx (.db .empty)
      ⟨zero, zero, [], [plainOutput 5], []⟩).1.applyBlock (.db .empty)
      plainCrypto false blockOverMempool)
      fun r => Returns (r.2.undoBlock (.db .empty) plainCrypto r.1)
        fun c'' => ((c''.present (.db .empty)).utxos 5).isSome ∧
          (c''.present (.db .empty)).outputPMMR = [] := by decide +kernel
  have hc := (consistent_new_empty.addTx ⟨zero, zero, [], [plainOutput 5], []⟩).1
  obtain ⟨⟨undo, c'⟩, happly, hundo⟩ := hrun.exists_ok
  obtain ⟨c'', hc'', hfound, hleaves⟩ := hundo.exists_ok
  have hnot : ¬(c''.present (.db .empty)).Bijective := by
    intro hbij
    obtain ⟨utxo, hutxo⟩ := isSome_iff_exists.mp hfound
    have hleaf := hbij.leaf hutxo
    rw [hleaves] at hleaf
    cases hleaf
  refine ⟨_, undo, c', c'', hc, happly, hc'', ?_, hnot⟩
  intro heq
  rw [heq] at hnot
  exact hnot hc.bijective

/-! ## Runs of the top cache -/

/-- A view, and the data to take back the blocks that it was built of, the last one first. -/
inductive Built (crypto : NodeCrypto) : CoinsView → List BlockUndo → Prop
  | base {view : CoinsView} (hview : view.Bijective) (hdesc : view.Described crypto) :
      Built crypto view []
  | apply {view view' : CoinsView} {undos : List BlockUndo} {allow : Bool} {block : Block}
      {undo : BlockUndo} (h : Built crypto view undos)
      (happly : view.applyBlock crypto allow block = .ok (undo, view')) :
      Built crypto view' (undo :: undos)

theorem Built.bijective {undos : List BlockUndo} (h : Built crypto view undos) :
    view.Bijective := by
  induction h with
  | base hview _ => exact hview
  | apply _ happly ih =>
    obtain ⟨added, happ⟩ := applied_of_applyBlock ih happly
    exact happ.spent.bijective

theorem Built.described {undos : List BlockUndo} (h : Built crypto view undos) :
    view.Described crypto := by
  cases h with
  | base _ hdesc => exact hdesc
  | apply h happly =>
    obtain ⟨added, happ⟩ := applied_of_applyBlock h.bijective happly
    exact happ.described

/-- The unspent outputs, by their leaves. -/
theorem CoinsView.Bijective.leafIdx_iff {view : CoinsView} (h : view.Bijective) {output_id : Hash}
    {i : Nat} :
    (view.utxos output_id).map (·.leafIdx) = some i ↔
      view.outputPMMR[i]? = some output_id ∧ view.leafSet.contains i := by
  rw [map_eq_some_iff]
  constructor
  · rintro ⟨utxo, hutxo, rfl⟩
    exact ⟨h.leaf hutxo, h.bit hutxo⟩
  · rintro ⟨hleaf, hbit⟩
    obtain ⟨_, utxo, hutxo, rfl⟩ := h.utxo hbit
    rw [h.leaf hutxo, some.injEq] at hleaf
    exact ⟨utxo, hleaf ▸ hutxo, rfl⟩

/-- The top cache of a stack, the views below it, and the data to take blocks back. -/
structure Stack where
  top : CoinsViewCache
  base : View
  undos : List BlockUndo

namespace Stack

/-- What is done with the top cache. -/
inductive Op where
  | applyBlock (allow_historical_metadata_mismatch : Bool) (block : Block)
  | undoBlock
  | flush

/-- One operation on the top cache. The last block is taken back with the data that came of it. -/
def step (crypto : NodeCrypto) (s : Stack) : Op → Except Fault (Stack × Unit)
  | .applyBlock allow block => do
    let (undo, top) ← s.top.applyBlock s.base crypto allow block
    pure (⟨top, s.base, undo :: s.undos⟩, ())
  | .undoBlock =>
    match s.undos with
    | [] => .ok (s, ())
    | undo :: undos => do
      let top ← s.top.undoBlock s.base crypto undo
      pure (⟨top, s.base, undos⟩, ())
  | .flush => do
    let (top, base) ← s.top.flush s.base
    pure (⟨top, base, s.undos⟩, ())

/-- What the top cache presents. -/
def present (s : Stack) : CoinsView := s.top.present s.base

/-- A new cache over a view that was built of blocks. -/
structure Initial (crypto : NodeCrypto) (s : Stack) : Prop where
  top : s.top = CoinsViewCache.new s.base
  sound : s.base.Sound
  built : Built crypto s.base.present s.undos

/-- The top cache and the view below it present views that were built of blocks. -/
structure Inv (crypto : NodeCrypto) (s : Stack) : Prop where
  sound : (View.cache s.top s.base).Sound
  top : Built crypto s.present s.undos
  base : ∃ undos, Built crypto s.base.present undos

variable {crypto : NodeCrypto} {s s' : Stack}

theorem Initial.inv (h : Initial crypto s) : Inv crypto s := by
  have hnew := Presents.new h.sound
  rw [← h.top] at hnew
  exact ⟨hnew.sound, by rw [present, hnew.eq]; exact h.built, s.undos, h.built⟩

theorem Inv.presents (h : Inv crypto s) : Presents s.base s.top s.present := ⟨h.sound, rfl⟩

theorem Inv.step (h : Inv crypto s) {op : Op} (hstep : s.step crypto op = .ok (s', ())) :
    Inv crypto s' := by
  cases op with
  | applyBlock allow block =>
    obtain ⟨⟨undo, top⟩, happly, heq⟩ := bind_eq_ok_iff.mp hstep
    obtain ⟨rfl, -⟩ := Prod.mk.inj (ok.inj heq)
    obtain ⟨⟨undo', view'⟩, hview, hundo, hpresents, -⟩ :=
      (h.presents.applyBlock_refines h.top.bijective crypto allow block).ensures.of_ok happly
    refine ⟨hpresents.sound, ?_, h.base⟩
    show Built crypto (top.present s.base) (undo :: s.undos)
    rw [hpresents.eq, show undo = undo' from hundo]
    exact h.top.apply hview
  | undoBlock =>
    obtain ⟨sound, top, base⟩ := h
    obtain ⟨c, below, undos⟩ := s
    cases top with
    | base hview hdesc =>
      obtain ⟨rfl, -⟩ := Prod.mk.inj (ok.inj hstep)
      exact ⟨sound, .base hview hdesc, base⟩
    | apply htop happly =>
      have hpresents : Presents below c (c.present below) := ⟨sound, rfl⟩
      obtain ⟨c', hc', hrestored⟩ := undoBlock_spec htop.bijective htop.described happly hpresents
      obtain ⟨c'', hok, heq⟩ := bind_eq_ok_iff.mp hstep
      obtain ⟨rfl, -⟩ := Prod.mk.inj (ok.inj heq)
      have hsame : c'' = c' := ok.inj (hok.symm.trans hc')
      refine ⟨hsame ▸ hrestored.sound, ?_, base⟩
      show Built crypto (c''.present below) _
      rw [hsame, hrestored.eq]
      exact htop
  | flush =>
    obtain ⟨⟨top, base⟩, hflush, heq⟩ := bind_eq_ok_iff.mp hstep
    obtain ⟨rfl, -⟩ := Prod.mk.inj (ok.inj heq)
    rcases hheader : s.present.bestHeader with _ | header
    · rw [flush_of_none _ hheader] at hflush
      obtain ⟨rfl, rfl⟩ := Prod.mk.inj (ok.inj hflush)
      exact h
    · obtain ⟨base', hok, -, hbase, hflushed, -⟩ := flush_spec h.presents h.top.bijective
        (by rw [hheader]; exact some_ne_none header)
      obtain ⟨rfl, rfl⟩ := Prod.mk.inj (ok.inj (hflush.symm.trans hok))
      refine ⟨hflushed.sound, ?_, s.undos, ?_⟩
      · show Built crypto (s.top.flushed.present base) s.undos
        rw [hflushed.eq]
        exact h.top
      · rw [hbase]
        exact h.top

/-- The stacks that runs from `s0` reach. -/
abbrev Reaches (crypto : NodeCrypto) (s0 s : Stack) : Prop :=
  Machine.Reachable (fun _ _ => True) (step crypto) s0 s

theorem Reaches.inv {s0 : Stack} (hrun : Reaches crypto s0 s) (hinit : Initial crypto s0) :
    Inv crypto s :=
  hrun.invariant hinit.inv fun _ _ _ _ h _ hstep => h.step hstep

/-- A flush makes the view below present what the top cache presented, and a second one changes
nothing. -/
def FlushTransfers (s : Stack) : Prop :=
  ∃ top base, s.top.flush s.base = .ok (top, base) ∧ base.present = s.present ∧
    top.present base = s.present ∧ top.flush base = .ok (top, base)

/-- After any run, a flush of the top cache hands over what it presents if and only if the top cache
has a best header or the view below has none. -/
theorem flushTransfers_iff {s0 : Stack} (hinit : Initial crypto s0) (hrun : Reaches crypto s0 s) :
    s.FlushTransfers ↔ (s.top.bestHeader ≠ none ∨ s.base.present.bestHeader = none) := by
  have hinv := hrun.inv hinit
  rcases hheader : s.top.bestHeader with _ | header
  · -- Nothing is flushed.
    have hflush := flush_of_none s.base hheader
    have hempty : s.present = .empty := eq_empty_of_described hinv.top.described hheader
    constructor
    · rintro ⟨top, base, hok, hbase, -, -⟩
      obtain ⟨rfl, rfl⟩ := Prod.mk.inj (ok.inj (hok.symm.trans hflush))
      right
      rw [hbase, hempty]
      rfl
    · intro hcond
      have hnone := hcond.resolve_left fun hne => hne rfl
      obtain ⟨undos, hbuilt⟩ := hinv.base
      refine ⟨s.top, s.base, hflush, ?_, rfl, hflush⟩
      rw [eq_empty_of_described hbuilt.described hnone, hempty]
  · refine iff_of_true ?_ (.inl (some_ne_none header))
    have hsome : s.present.bestHeader ≠ none := by
      rw [show s.present.bestHeader = some header from hheader]
      exact some_ne_none header
    obtain ⟨base', hok, -, hbase, hflushed, hagain⟩ :=
      flush_spec hinv.presents hinv.top.bijective hsome
    exact ⟨s.top.flushed, base', hok, hbase, hflushed.eq, hagain⟩

/-- After any runs, two stacks whose top caches have the same best header present the same leaves,
and the same unspent outputs at them, if no hash in the header collides. -/
theorem agree_of_bestHeader {s0 s0' : Stack} (hinit : Initial crypto s0)
    (hinit' : Initial crypto s0') (hrun : Reaches crypto s0 s)
    (hrun' : Reaches crypto s0' s')
    (hheader : s.top.bestHeader = s'.top.bestHeader)
    (houtputs : Mmr.CollisionFree crypto.hashOutputNode 0 s.present.outputPMMR
      s'.present.outputPMMR)
    (hbits : s.present.leafSet.root crypto = s'.present.leafSet.root crypto →
      s.present.leafSet.rootBytes = s'.present.leafSet.rootBytes) :
    s.present.outputPMMR = s'.present.outputPMMR ∧ ∀ output_id,
      (s.present.utxos output_id).map (·.leafIdx) = (s'.present.utxos output_id).map
      (·.leafIdx) := by
  have htop := (hrun.inv hinit).top
  have htop' := (hrun'.inv hinit').top
  have hheader : s.present.bestHeader = s'.present.bestHeader := hheader
  rcases hsome : s.present.bestHeader with _ | header
  · rw [eq_empty_of_described htop.described hsome,
      eq_empty_of_described htop'.described (hheader.symm.trans hsome)]
    exact ⟨rfl, fun _ => rfl⟩
  · obtain ⟨hroot, hsize, hleafset⟩ := matchesHeader_iff.mp (described_of_some htop.described hsome)
    obtain ⟨hroot', hsize', hleafset'⟩ :=
      matchesHeader_iff.mp (described_of_some htop'.described (hheader.symm.trans hsome))
    have hleaves := Mmr.root_injective _ _ houtputs (hsize.symm.trans hsize')
      (hroot.symm.trans hroot')
    have hnext : s.present.leafSet.nextLeafIdx = s'.present.leafSet.nextLeafIdx := by
      rw [htop.bijective.next, htop'.bijective.next, hleaves]
    refine ⟨hleaves, fun output_id => ext fun i => ?_⟩
    rw [htop.bijective.leafIdx_iff, htop'.bijective.leafIdx_iff, hleaves]
    refine and_congr_right fun hi => ?_
    rw [LeafSet.contains_eq_of_rootBytes hnext (hbits (hleafset.symm.trans hleafset'))]
    rw [hnext, htop'.bijective.next]
    exact (List.getElem?_eq_some_iff.mp hi).1

/-- A new cache over the empty view on disk. -/
def start : Stack := ⟨CoinsViewCache.new (.db .empty), .db .empty, []⟩

theorem initial_start : Initial plainCrypto start :=
  ⟨rfl, trivial, .base bijective_empty rfl⟩

/-- The first block is applied and flushed. -/
theorem flushTransfers_first : ∃ s, Reaches plainCrypto start s ∧
    s.present.outputPMMR = [5] ∧ s.FlushTransfers := by
  have hrun : Returns (Machine.run (step plainCrypto) start [.applyBlock false firstBlock])
      fun s => s.present.outputPMMR = [5] ∧
        s.top.bestHeader = some firstBlock.header := by decide +kernel
  obtain ⟨s, hok, hleaves, hheader⟩ := hrun.exists_ok
  have hreach : Reaches plainCrypto start s := .of_run (fun _ _ _ => trivial) hok
  refine ⟨s, hreach, hleaves, (flushTransfers_iff initial_start hreach).mpr (.inl ?_)⟩
  rw [hheader]
  exact some_ne_none _

/-- The first block is applied, and elsewhere it is applied, taken back, applied again and flushed.
-/
theorem agree_of_bestHeader_flushed : ∃ s s', Reaches plainCrypto start s ∧
    Reaches plainCrypto start s' ∧
    s.top.bestHeader = some firstBlock.header ∧ s.base.present.outputPMMR = [] ∧
    s'.base.present.outputPMMR = [5] ∧ (s.present.utxos 5).isSome ∧
    ∀ output_id, (s.present.utxos output_id).map (·.leafIdx) =
      (s'.present.utxos output_id).map (·.leafIdx) := by
  obtain ⟨s, hok, hheader, hleaves, hbits, hbase, hcoin⟩ := (by decide +kernel :
    Returns (Machine.run (step plainCrypto) start [.applyBlock false firstBlock])
      (fun s => s.top.bestHeader = some firstBlock.header ∧ s.present.outputPMMR = [5] ∧
        s.present.leafSet.rootBytes = [128] ∧ s.base.present.outputPMMR = [] ∧
        (s.present.utxos 5).isSome)).exists_ok
  obtain ⟨s', hok', hheader', hleaves', hbits', hbase'⟩ := (by decide +kernel :
    Returns (Machine.run (step plainCrypto) start
      [.applyBlock false firstBlock, .undoBlock, .applyBlock false firstBlock, .flush])
      (fun s => s.top.bestHeader = some firstBlock.header ∧ s.present.outputPMMR = [5] ∧
        s.present.leafSet.rootBytes = [128] ∧ s.base.present.outputPMMR = [5])).exists_ok
  have hrun : Reaches plainCrypto start s := .of_run (fun _ _ _ => trivial) hok
  have hrun' : Reaches plainCrypto start s' := .of_run (fun _ _ _ => trivial) hok'
  refine ⟨s, s', hrun, hrun', hheader, hbase, hbase', hcoin, (agree_of_bestHeader initial_start
    initial_start hrun hrun' (hheader.trans hheader'.symm) ?_ fun _ => hbits.trans hbits'.symm).2⟩
  rw [hleaves, hleaves']
  decide +kernel

/-- The first block is applied, flushed to disk and taken back. A flush then does nothing, and the
view on disk still has the block's output. -/
theorem flush_keeps_block : ∃ s, Reaches plainCrypto start s ∧
    s.top.flush s.base = .ok (s.top, s.base) ∧ s.present.utxos 5 = none ∧
    (s.base.present.utxos 5).isSome ∧ ¬s.FlushTransfers := by
  have hrun : Returns (Machine.run (step plainCrypto) start
      [.applyBlock false firstBlock, .flush, .undoBlock])
      fun s => s.top.bestHeader = none ∧ s.present.utxos 5 = none ∧
        (s.base.present.utxos 5).isSome := by decide +kernel
  obtain ⟨s, hok, hheader, htop, hbase⟩ := hrun.exists_ok
  have hreach : Reaches plainCrypto start s := .of_run (fun _ _ _ => trivial) hok
  have hflush := flush_of_none s.base hheader
  refine ⟨s, hreach, hflush, htop, hbase, ?_⟩
  rintro ⟨top, base, hflush', hsame, -, -⟩
  obtain ⟨rfl, rfl⟩ := Prod.mk.inj (ok.inj (hflush'.symm.trans hflush))
  rw [hsame, htop] at hbase
  cases hbase

end Stack

end DefcoinCore.Mweb
