import DefcoinCore.Validation.UpdateCoins

/-!
# Taking a block back

`DisconnectBlock` takes the transactions of a block back in reverse order: the coins of the outputs
are spent, and checked against the block, and then the coins of the inputs are restored from the
undo data. After a block that was applied with `UpdateCoins` this always succeeds, and the plain map
of coins is the one from before the block, except that the coins which the block had spent come back
without their pegout flag (`disconnectConnected_spec`), as the undo format has none.
-/

namespace DefcoinCore

open List Function CTransaction Coin CCoinsViewCache

/-! ## The code -/

inductive DisconnectResult where
  | ok
  | unclean
  | failed
  deriving DecidableEq

/-- `MAX_OUTPUTS_PER_BLOCK`: the weight of a block by that of the smallest output. -/
def maxOutputsPerBlock : Nat := 4000000 / (4 * 9)

/-- The loop of `AccessByTxid` at the index `n`, with `k` rounds left. -/
def accessOutputs (txid : Uint256) : Nat → Nat → CCoinsViewCache → Coin × CCoinsViewCache
  | 0, _, view => (.empty, view)
  | k + 1, n, view =>
    let (alternate, view) := view.accessCoin ⟨txid, UInt32.ofNat n⟩
    if !alternate.isSpent then (alternate, view) else accessOutputs txid k (n + 1) view

/-- `AccessByTxid`. -/
def accessByTxid (view : CCoinsViewCache) (txid : Uint256) : Coin × CCoinsViewCache :=
  accessOutputs txid maxOutputsPerBlock 0 view

/-- The end of `ApplyTxInUndo`, with complete metadata. -/
def restoreCoin (undo : Coin) (view : CCoinsViewCache) (out : COutPoint) (fClean : Bool) :
    Except CoinsFault (DisconnectResult × CCoinsViewCache) := do
  let view ← view.addCoin out undo !fClean
  pure (if fClean then .ok else .unclean, view)

/-- `ApplyTxInUndo`. -/
def applyTxInUndo (undo : Coin) (view : CCoinsViewCache) (out : COutPoint) :
    Except CoinsFault (DisconnectResult × CCoinsViewCache) :=
  let (have_coin, view) := view.haveCoin out
  let fClean := !have_coin
  if undo.nHeight.val = 0 then
    -- Older versions wrote the metadata only for the last spend of a transaction's outputs.
    let (alternate, view) := accessByTxid view out.hash
    if !alternate.isSpent then
      restoreCoin { undo with
        nHeight := alternate.nHeight, fCoinBase := alternate.fCoinBase } view out fClean
    else .ok (.failed, view)
  else restoreCoin undo view out fClean

/-- One round over the outputs in `DisconnectBlock`: the output has to be there as in the block. -/
def disconnectOutput (tx : CTransaction) (nHeight : Nat) (s : Bool × CCoinsViewCache)
    (p : CTxOut × Nat) : Bool × CCoinsViewCache :=
  if isUnspendable p.1.scriptPubKey then s
  else
    let (is_spent, coin, view) := s.2.spendCoin (tx.outPoint p.2)
    if !is_spent ∨ p.1 ≠ coin.out ∨ nHeight ≠ coin.nHeight.val ∨ tx.isCoinBase ≠ coin.fCoinBase then
      (false, view)
    else (s.1, view)

/-- The loop over the inputs in `DisconnectBlock`; nothing when it returns `DISCONNECT_FAILED`. -/
def restoreInputs : Bool → CCoinsViewCache → List (COutPoint × Coin) →
    Except CoinsFault (Option Bool × CCoinsViewCache)
  | fClean, view, [] => .ok (some fClean, view)
  | fClean, view, (out, undo) :: l => do
    let (res, view) ← applyTxInUndo undo view out
    if res = .failed then pure (none, view)
    else restoreInputs (fClean && res ≠ .unclean) view l

/-- One transaction in `DisconnectBlock`; the first one has no undo information. -/
def disconnectTx (nHeight : Nat) (tx : CTransaction) (txundo : Option CTxUndo) (fClean : Bool)
    (view : CCoinsViewCache) : Except CoinsFault (Option Bool × CCoinsViewCache) :=
  let (fClean, view) := tx.vout.zipIdx.foldl (disconnectOutput tx nHeight) (fClean, view)
  match txundo with
  | none => .ok (some fClean, view)
  | some txundo =>
    if txundo.vprevout.length ≠ tx.vin.length then .ok (none, view)
    else
      restoreInputs fClean view ((tx.vin.map (·.prevout)).zip txundo.vprevout).reverse

/-- The loop over the transactions in `DisconnectBlock`, given the last one first. -/
def disconnectTxs (nHeight : Nat) : List (CTransaction × Option CTxUndo) → Bool → CCoinsViewCache →
    Except CoinsFault (Option Bool × CCoinsViewCache)
  | [], fClean, view => .ok (some fClean, view)
  | (tx, txundo) :: l, fClean, view => do
    match ← disconnectTx nHeight tx txundo fClean view with
    | (none, view) => pure (none, view)
    | (some fClean, view) => disconnectTxs nHeight l fClean view

section Mweb

variable {M : Type} (undoBlock : M → Mweb.BlockUndo → Except String M)

/-- The undo of the extension block, if there is one. -/
def undoMweb (mweb : M) : Option Mweb.BlockUndo → Except String M
  | none => .ok mweb
  | some mwundo => undoBlock mweb mwundo

/-- `DisconnectBlock`, given the undo data as it was read from disk, if it was. The view of the
extension block is `mweb`, and `undoBlock` takes a block back on it. -/
def disconnectBlock (blockUndo : Option CBlockUndo) (block : CBlock) (nHeight : Nat)
    (hashPrev : Uint256) (view : CCoinsViewCache) (mweb : M) :
    Except CoinsFault (DisconnectResult × CCoinsViewCache × M) :=
  match blockUndo with
  | none => .ok (.failed, view, mweb)
  | some blockUndo =>
    if blockUndo.vtxundo.length + 1 ≠ block.vtx.length then .ok (.failed, view, mweb)
    else do
      match ← disconnectTxs nHeight
          (block.vtx.zip (none :: blockUndo.vtxundo.map some)).reverse true view with
      | (none, view) => pure (.failed, view, mweb)
      | (some fClean, view) =>
        match undoMweb undoBlock mweb blockUndo.mwundo with
        | .error _ => pure (.failed, view, mweb)
        | .ok mweb => pure (if fClean then .ok else .unclean, view.setBestBlock hashPrev, mweb)

/-- A block is applied, its undo data is written and read back, and the block is taken back. -/
def disconnectConnected (curve : Curve) (format : MwebUndoFormat) (mwundo : Option Mweb.BlockUndo)
    (block : CBlock) (nHeight : Nat) (hashPrev : Uint256) (view : CCoinsViewCache) (mweb : M) :
    Except CoinsFault (DisconnectResult × CCoinsViewCache × M) := do
  let (vtxundo, view) ← updateBlock nHeight block.vtx view
  let bytes := CBlockUndo.serialize curve format ⟨vtxundo, mwundo⟩
  let blockUndo :=
    match unserializeBlockUndo curve format bytes.length bytes with
    | .ok (blockUndo, _) => some blockUndo
    | .error _ => none
  disconnectBlock undoBlock blockUndo block nHeight hashPrev view mweb

end Mweb

/-! ## One transaction -/

/-- A plain map without the pegout flags at some outpoints. -/
def clearPegouts (S : List COutPoint) (V : CoinMap) : CoinMap := fun o =>
  if o ∈ S then (V o).map clearPegout else V o

variable {V : CoinMap} {nHeight : Nat} {vtxundo : List CTxUndo}

theorem clearPegouts_apply_none {S : List COutPoint} {o : COutPoint} (h : V o = none) :
    clearPegouts S V o = none := by
  rw [clearPegouts, h, Option.map_none, ite_self]

/-- The undo information gives every input its coin, without the pegout flag. -/
theorem mem_zip_clearPegout (l : List COutPoint) (cs : List Coin) (h : cs.map some = l.map V)
    {p : COutPoint × Coin} (hp : p ∈ l.zip (cs.map clearPegout)) :
    p.1 ∈ l ∧ (V p.1).map clearPegout = some p.2 := by
  induction l generalizing cs with
  | nil => exact absurd hp not_mem_nil
  | cons o l ih =>
    cases cs with
    | nil => exact absurd hp not_mem_nil
    | cons c cs =>
      rw [map_cons, map_cons, cons.injEq] at h
      rw [map_cons, zip_cons_cons, mem_cons] at hp
      rcases hp with rfl | hp
      · exact ⟨mem_cons_self, by rw [← h.1]; rfl⟩
      · obtain ⟨hmem, hcoin⟩ := ih cs h.2 hp
        exact ⟨mem_cons_of_mem o hmem, hcoin⟩

section PlainMap

variable {nHeight : Nat} {V : CoinMap} {tx : CTransaction}

/-- The new coins of a transaction, up to the pegout flags. -/
theorem clearPegouts_plainUpdate_of_mem (htx : TxApplies nHeight V tx) (S : List COutPoint)
    {p : COutPoint × Coin} (hp : p ∈ tx.spendableCoins nHeight) :
    ∃ coin, clearPegouts S (plainUpdate nHeight V tx) p.1 = some coin ∧
      coin.clearPegout = p.2.clearPegout := by
  have hfound : plainUpdate nHeight V tx p.1 = some p.2 :=
    insertAll_of_mem _ htx.outputs_nodup hp
  unfold clearPegouts
  rw [hfound]
  split_ifs with hS
  · exact ⟨p.2.clearPegout, rfl, rfl⟩
  · exact ⟨p.2, rfl, rfl⟩

/-- Without the new coins there is no coin at the outpoints that were spent. -/
theorem eraseAll_plainUpdate_of_spent (S : List COutPoint) {o : COutPoint}
    (ho : o ∈ tx.spentOutPoints) :
    eraseAll (clearPegouts S (plainUpdate nHeight V tx))
      ((tx.spendableCoins nHeight).map Prod.fst) o = none := by
  rw [eraseAll_apply]
  split_ifs with hnew
  · rfl
  · apply clearPegouts_apply_none
    rw [plainUpdate, insertAll_of_notMem _ hnew, eraseAll_apply, if_pos ho]

/-- The new coins are taken out and the coins that were spent are put back in. -/
theorem insertAll_eraseAll_plainUpdate (htx : TxApplies nHeight V tx) (S : List COutPoint)
    {R : List (COutPoint × Coin)} (hnodup : (R.map Prod.fst).Nodup)
    (hkeys : ∀ o, o ∈ R.map Prod.fst ↔ o ∈ tx.spentOutPoints)
    (hcoins : ∀ p ∈ R, (V p.1).map clearPegout = some p.2) :
    insertAll (eraseAll (clearPegouts S (plainUpdate nHeight V tx))
      ((tx.spendableCoins nHeight).map Prod.fst)) R = clearPegouts (tx.spentOutPoints ++ S) V := by
  funext o
  by_cases hspent : o ∈ tx.spentOutPoints
  · obtain ⟨p, hp, rfl⟩ := mem_map.mp ((hkeys o).mpr hspent)
    rw [insertAll_of_mem _ hnodup hp, clearPegouts, if_pos (mem_append_left S hspent), hcoins p hp]
  · rw [insertAll_of_notMem _ fun h => hspent ((hkeys o).mp h), eraseAll_apply]
    split_ifs with hnew
    · -- An outpoint of a new coin was free before.
      obtain ⟨p, hp, rfl⟩ := mem_map.mp hnew
      have hfree := htx.outputs p hp
      rw [eraseAll_apply, if_neg hspent] at hfree
      exact (clearPegouts_apply_none hfree).symm
    · unfold clearPegouts
      rw [plainUpdate, insertAll_of_notMem _ hnew, eraseAll_apply, if_neg hspent]
      simp only [mem_append, hspent, false_or]

end PlainMap

section Cache

variable {cache : CCoinsViewCache}

/-- The outputs are all found as the block has them, up to the pegout flag, and are taken out. -/
theorem foldl_disconnectOutput {tx : CTransaction} {nHeight : Nat} (hheight : nHeight < 2 ^ 31)
    (fClean : Bool) (l : List (CTxOut × Nat)) (hc : cache.Valid)
    (hnodup : (((l.map (tx.newCoin nHeight)).filter isSpendable).map Prod.fst).Nodup)
    (hfound : ∀ p ∈ (l.map (tx.newCoin nHeight)).filter isSpendable,
      ∃ coin, cache.view p.1 = some coin ∧ coin.clearPegout = p.2.clearPegout) :
    ∃ cache', l.foldl (disconnectOutput tx nHeight) (fClean, cache) = (fClean, cache') ∧
      cache.Shows (eraseAll cache.view
        (((l.map (tx.newCoin nHeight)).filter isSpendable).map Prod.fst)) cache' := by
  induction l generalizing cache with
  | nil => exact ⟨cache, rfl, .refl hc⟩
  | cons p l ih =>
    rw [map_cons] at hnodup hfound ⊢
    rw [foldl_cons]
    have hspendable : isSpendable (tx.newCoin nHeight p) = !isUnspendable p.1.scriptPubKey := rfl
    cases hscript : isUnspendable p.1.scriptPubKey with
    | true =>
      rw [filter_cons_of_neg (by rw [hspendable, hscript]; decide)] at hnodup hfound ⊢
      rw [disconnectOutput, if_pos hscript]
      exact ih hc hnodup hfound
    | false =>
      rw [filter_cons_of_pos (by rw [hspendable, hscript]; rfl)] at hnodup hfound ⊢
      rw [map_cons, nodup_cons] at hnodup
      obtain ⟨coin, hcoin, hclear⟩ := hfound _ mem_cons_self
      obtain ⟨h1, -, -⟩ := spendCoin_spec hc (tx.outPoint p.2)
      obtain ⟨hspent, hmoved⟩ : (cache.spendCoin (tx.outPoint p.2)).1 ∧
          (cache.spendCoin (tx.outPoint p.2)).2.1 = coin :=
        spendCoin_of_some hc hcoin
      have hmatch : disconnectOutput tx nHeight (fClean, cache) p =
          (fClean, (cache.spendCoin (tx.outPoint p.2)).2.2) := by
        rw [Coin.clearPegout, Coin.clearPegout, Coin.mk.injEq] at hclear
        obtain ⟨hout, hcb, hh, -⟩ := hclear
        have hval : coin.nHeight.val = nHeight := by
          rw [hh]
          exact Nat.mod_eq_of_lt hheight
        unfold disconnectOutput
        rw [if_neg (by rw [hscript]; decide)]
        dsimp only
        rw [hspent, hmoved, if_neg]
        rintro (h | h | h | h)
        · exact absurd h (by decide)
        · exact h hout.symm
        · exact h hval.symm
        · exact h hcb.symm
      obtain ⟨c', hfold, h'⟩ := ih h1.valid hnodup.2 fun q hq => by
        -- The outputs that follow are still there.
        rw [h1.view, update_of_ne]
        · exact hfound q (mem_cons_of_mem _ hq)
        · exact fun heq => hnodup.1 (mem_map.mpr ⟨q, hq, heq⟩)
      rw [h1.view] at h'
      exact ⟨c', by rw [hmatch, hfold], h1.trans h'⟩

/-- A coin is restored where there is none. -/
theorem applyTxInUndo_spec (hc : cache.Valid) {undo : Coin} (hundo : undo.Regular) {out : COutPoint}
    (hnone : cache.view out = none) :
    Returns (applyTxInUndo undo cache out) fun r => r.1 = .ok ∧
      cache.Shows (update cache.view out (some undo)) r.2 := by
  obtain ⟨hhave, hr⟩ := haveCoin_spec hc out
  rw [hnone] at hhave
  have hpos := hundo.height_pos
  unfold applyTxInUndo
  dsimp only
  rw [if_neg (by omega), hhave]
  refine (addCoin_spec hr.valid hundo.isSpent fun _ _ => by
    rw [hr.view, hnone]).bind fun c' h => ⟨rfl, ?_⟩
  rw [hr.view, plainAdd, if_neg (by rw [hundo.spendable]; decide)] at h
  exact hr.shows.trans h

/-- The inputs are restored where there are no coins. -/
theorem restoreInputs_spec (fClean : Bool) (l : List (COutPoint × Coin)) (hc : cache.Valid)
    (hregular : ∀ p ∈ l, p.2.Regular) (hnodup : (l.map Prod.fst).Nodup)
    (hnone : ∀ p ∈ l, cache.view p.1 = none) :
    Returns (restoreInputs fClean cache l) fun r => r.1 = some fClean ∧
      cache.Shows (insertAll cache.view l) r.2 := by
  induction l generalizing cache with
  | nil => exact ⟨rfl, .refl hc⟩
  | cons p l ih =>
    rw [map_cons, nodup_cons] at hnodup
    refine (applyTxInUndo_spec hc (hregular p mem_cons_self) (hnone p mem_cons_self)).bind ?_
    rintro ⟨_, c1⟩ ⟨rfl, h1⟩
    have hrest := ih h1.valid (fun q hq => hregular q (mem_cons_of_mem _ hq)) hnodup.2
        fun q hq => by
      rw [h1.view, update_of_ne fun heq => hnodup.1 (mem_map.mpr ⟨q, hq, heq⟩)]
      exact hnone q (mem_cons_of_mem _ hq)
    rw [h1.view] at hrest
    show Returns (restoreInputs (fClean && true) c1 l) _
    rw [Bool.and_true]
    exact hrest.imp fun r h => ⟨h.1, h1.trans h.2⟩

/-- Taking back a transaction that was applied to `V` brings back `V`, up to the pegout flags of the
coins that it had spent, whatever flags were missing before. -/
theorem disconnectTx_spec {nHeight : Nat} (hheight : nHeight < 2 ^ 31) {V : CoinMap}
    {tx : CTransaction} (htx : TxApplies nHeight V tx) {txundo : CTxUndo}
    (hundo : txundo.vprevout.map some = tx.spentOutPoints.map V)
    (hregular : ∀ c ∈ txundo.vprevout, c.Regular) (fClean : Bool) (S : List COutPoint)
    (hc : cache.Valid) (hview : cache.view = clearPegouts S (plainUpdate nHeight V tx)) :
    Returns
      (disconnectTx nHeight tx (if tx.isCoinBase then none else some txundo.clearPegout) fClean
      cache) fun r => r.1 = some fClean ∧
        cache.Shows (clearPegouts (tx.spentOutPoints ++ S) V) r.2 := by
  obtain ⟨c1, hfold, h1⟩ := foldl_disconnectOutput hheight fClean
    tx.vout.zipIdx hc htx.outputs_nodup fun p hp => by
      rw [hview]
      exact clearPegouts_plainUpdate_of_mem htx S hp
  rw [hview] at h1
  -- The coins to restore, the last one first.
  generalize hR : (tx.spentOutPoints.zip (txundo.vprevout.map clearPegout)).reverse = R
  have hlen : tx.spentOutPoints.length = (txundo.vprevout.map clearPegout).length := by
    rw [length_map]
    simpa using (congrArg length hundo).symm
  have hfst : R.map Prod.fst = tx.spentOutPoints.reverse := by
    rw [← hR, map_reverse, map_fst_zip hlen.le]
  have hmem : ∀ p ∈ R, p.1 ∈ tx.spentOutPoints ∧ (V p.1).map clearPegout = some p.2 :=
    fun p hp => mem_zip_clearPegout _ _ hundo (mem_reverse.mp (hR ▸ hp))
  have hnodup : (R.map Prod.fst).Nodup := by
    rw [hfst, nodup_reverse]
    exact htx.inputs_nodup
  have hrestore := restoreInputs_spec fClean R h1.valid
    (fun p hp => by
      obtain ⟨c, hcmem, hc⟩ := mem_map.mp (of_mem_zip (mem_reverse.mp (hR ▸ hp))).2
      rw [← hc]
      exact (hregular c hcmem).clearPegout)
    hnodup fun p hp => by
      rw [h1.view]
      exact eraseAll_plainUpdate_of_spent S (hmem p hp).1
  have hback := insertAll_eraseAll_plainUpdate htx S hnodup (fun o => by rw [hfst, mem_reverse])
    fun p hp => (hmem p hp).2
  unfold spendableCoins newCoins at hback
  rw [h1.view, hback] at hrestore
  replace hrestore := hrestore.imp fun r h => And.intro h.1 (h1.trans h.2)
  unfold disconnectTx
  rw [hfold]
  unfold spentOutPoints at hR hlen
  cases htxcb : tx.isCoinBase with
  | true =>
    -- A coinbase has nothing to restore.
    rw [htxcb, if_pos rfl, zip_nil_left, reverse_nil] at hR
    rw [← hR] at hrestore
    exact hrestore
  | false =>
    rw [htxcb, if_neg (by decide)] at hR hlen
    rw [length_map] at hlen
    rw [if_neg (by decide)]
    show Returns (if (txundo.vprevout.map clearPegout).length ≠ tx.vin.length then _ else
      restoreInputs fClean c1 ((tx.vin.map (·.prevout)).zip
        (txundo.vprevout.map clearPegout)).reverse) _
    rw [if_neg (by rw [hlen]; exact fun h => h rfl), hR]
    exact hrestore

end Cache

/-! ## All transactions -/

/-- The transactions of a block with the undo information that comes back for them. -/
def withUndo (txs : List CTransaction) (vtxundo : List CTxUndo) :
    List (CTransaction × Option CTxUndo) :=
  txs.zipWith (fun tx txundo => (tx, if tx.isCoinBase then none else some txundo.clearPegout))
    vtxundo

/-- A part of the loop that goes through is followed by the rest of the loop. -/
theorem disconnectTxs_append (l l' : List (CTransaction × Option CTxUndo)) {fClean fClean' : Bool}
    {view view' : CCoinsViewCache}
    (h : disconnectTxs nHeight l fClean view = .ok (some fClean', view')) :
    disconnectTxs nHeight (l ++ l') fClean view = disconnectTxs nHeight l' fClean' view' := by
  induction l generalizing fClean view with
  | nil =>
    obtain ⟨rfl, rfl⟩ := h
    rfl
  | cons p l ih =>
    obtain ⟨tx, txundo⟩ := p
    rw [disconnectTxs] at h
    rw [cons_append, disconnectTxs]
    rcases hstep : disconnectTx nHeight tx txundo fClean view with e | ⟨_ | fClean1, view1⟩ <;>
      rw [hstep] at h
    · exact absurd h nofun
    · exact absurd h nofun
    · exact ih h

/-- Taking back all transactions that were applied to `V` brings back `V`, up to the pegout flags of
the coins that they had spent. -/
theorem disconnectTxs_spec (hheight : nHeight < 2 ^ 31) (txs : List CTransaction)
    (htxs : TxsApply nHeight V txs) (hundo : UndoOf nHeight V txs vtxundo)
    (hregular : ∀ txundo ∈ vtxundo, ∀ c ∈ txundo.vprevout, c.Regular) (fClean : Bool)
    {cache : CCoinsViewCache} (hc : cache.Valid)
    (hview : cache.view = txs.foldl (plainUpdate nHeight) V) :
    Returns (disconnectTxs nHeight (withUndo txs vtxundo).reverse fClean cache) fun r =>
      r.1 = some fClean ∧
        cache.Shows (clearPegouts (txs.flatMap spentOutPoints) V) r.2 := by
  -- The first transaction is the last to be taken back.
  fun_induction UndoOf nHeight V txs vtxundo with
  | case1 V =>
    refine ⟨rfl, rfl, hview.trans ?_, hc⟩
    exact funext fun o => (if_neg not_mem_nil).symm
  | case2 V tx txs txundo vtxundo ih =>
    obtain ⟨⟨_, c1⟩, hrest, rfl, h1⟩ := (ih htxs.2 hundo.2
      (fun u hu => hregular u (mem_cons_of_mem _ hu)) hview).exists_ok
    show Returns (disconnectTxs nHeight ((tx, _) :: withUndo txs vtxundo).reverse fClean cache) _
    rw [reverse_cons, disconnectTxs_append _ _ hrest]
    refine (disconnectTx_spec hheight htxs.1 hundo.1 (hregular txundo mem_cons_self) fClean
      _ h1.valid h1.view).bind ?_
    rintro ⟨_, c'⟩ ⟨rfl, h'⟩
    exact ⟨rfl, h1.trans h'⟩
  | case3 => exact hundo.elim

/-- Coins that the undo format is made for stay so: the new ones are of this kind. -/
theorem plainUpdate_regular (hpos : 1 ≤ nHeight) (hlt : nHeight < 2 ^ 30)
    (hV : ∀ o c, V o = some c → c.Regular) {tx : CTransaction}
    (hvalues : ∀ out ∈ tx.vout, 0 ≤ out.nValue ∧ out.nValue ≤ maxMoney) :
    ∀ o c, plainUpdate nHeight V tx o = some c → c.Regular := by
  intro o c h
  rcases insertAll_eq_some h with hold | hnew
  · rw [eraseAll_apply] at hold
    split_ifs at hold
    exact hV o c hold
  · obtain ⟨hmem, hsp⟩ := mem_filter.mp hnew
    obtain ⟨i, out, hout, heq⟩ := mem_newCoins hmem
    rw [Prod.mk.injEq] at heq
    have hval : c.nHeight.val = nHeight := by
      rw [heq.2]
      exact Nat.mod_eq_of_lt (by omega)
    refine ⟨hval ▸ hpos, hval ▸ hlt, ?_, by simpa [isSpendable] using hsp⟩
    rw [heq.2]
    exact hvalues out hout

/-- The coins in the undo information are those of the plain map at some moment. -/
theorem UndoOf.regular (hpos : 1 ≤ nHeight) (hlt : nHeight < 2 ^ 30) (txs : List CTransaction)
    (hV : ∀ o c, V o = some c → c.Regular) (htxs : TxsApply nHeight V txs)
    (hundo : UndoOf nHeight V txs vtxundo) :
    ∀ txundo ∈ vtxundo, ∀ c ∈ txundo.vprevout, c.Regular := by
  fun_induction UndoOf nHeight V txs vtxundo with
  | case1 V => exact fun _ h => absurd h not_mem_nil
  | case2 V tx txs txundo vtxundo ih =>
    refine forall_mem_cons.mpr ⟨fun c hc => ?_,
      ih (plainUpdate_regular hpos hlt hV htxs.1.values) htxs.2 hundo.2⟩
    have hmem : some c ∈ tx.spentOutPoints.map V := hundo.1 ▸ mem_map_of_mem hc
    obtain ⟨o, -, ho⟩ := mem_map.mp hmem
    exact hV o c ho
  | case3 => exact hundo.elim

/-- There is undo information for every transaction, with a coin for every input. -/
theorem UndoOf.lengths (txs : List CTransaction) (hundo : UndoOf nHeight V txs vtxundo) :
    vtxundo.length = txs.length ∧
      ∀ txundo ∈ vtxundo, ∃ tx ∈ txs, txundo.vprevout.length = tx.spentOutPoints.length := by
  fun_induction UndoOf nHeight V txs vtxundo with
  | case1 V => exact ⟨rfl, fun _ h => absurd h not_mem_nil⟩
  | case2 V tx txs txundo vtxundo ih =>
    obtain ⟨hlen, hins⟩ := ih hundo.2
    refine ⟨by rw [length_cons, length_cons, hlen], forall_mem_cons.mpr ⟨?_, fun u hu => ?_⟩⟩
    · exact ⟨tx, mem_cons_self, by simpa using congrArg length hundo.1⟩
    · obtain ⟨tx', hmem, h⟩ := hins u hu
      exact ⟨tx', mem_cons_of_mem _ hmem, h⟩
  | case3 => exact hundo.elim

/-! ## Blocks -/

/-- A block that can be applied to a plain map: a coinbase and then other transactions, which can
all be applied in turn. The numbers of transactions and inputs are within the limit for vectors, as
in every block that was read. -/
structure BlockApplies (nHeight : Nat) (V : CoinMap) (block : CBlock) : Prop where
  coinbase : ∃ tx txs, block.vtx = tx :: txs ∧ tx.isCoinBase ∧
    ∀ tx' ∈ txs, tx'.isCoinBase = false
  apply : TxsApply nHeight V block.vtx
  txs_le : block.vtx.length ≤ Net.maxSize
  ins_le : ∀ tx ∈ block.vtx, tx.vin.length ≤ Net.maxSize

theorem CTransaction.length_spentOutPoints_le (tx : CTransaction) :
    tx.spentOutPoints.length ≤ tx.vin.length := by
  unfold spentOutPoints
  split_ifs
  · exact Nat.zero_le _
  · rw [length_map]

/-- The loop of `DisconnectBlock` pairs the transactions with the undo information of all but the
first. -/
theorem zip_undo_eq_withUndo {tx : CTransaction} (htx : tx.isCoinBase)
    {txs : List CTransaction} (htxs : ∀ tx' ∈ txs, tx'.isCoinBase = false) (txundo : CTxUndo)
    (vtxundo : List CTxUndo) :
    (tx :: txs).zip (none :: (vtxundo.map CTxUndo.clearPegout).map some) =
      withUndo (tx :: txs) (txundo :: vtxundo) := by
  unfold withUndo
  rw [zip_cons_cons, zipWith_cons_cons, htx, if_pos rfl]
  congr 1
  rw [map_map, zip_map_right, zip, map_zipWith]
  induction txs generalizing vtxundo with
  | nil => rfl
  | cons tx' txs ih =>
    cases vtxundo with
    | nil => rfl
    | cons txundo' vtxundo =>
      rw [zipWith_cons_cons, zipWith_cons_cons, htxs tx' mem_cons_self,
        ih (fun t ht => htxs t (mem_cons_of_mem _ ht))]
      rfl

/-- Without the flags at some outpoints the plain map is the same if and only if there were none. -/
theorem clearPegouts_eq_self_iff (S : List COutPoint) (V : CoinMap) :
    clearPegouts S V = V ↔ ∀ o ∈ S, ∀ coin, V o = some coin → coin.fPegout = false := by
  constructor
  · intro h o ho coin hcoin
    have happly := congrFun h o
    rw [clearPegouts, if_pos ho, hcoin, Option.map_some, Option.some.injEq] at happly
    rw [← happly]
    rfl
  · intro h
    funext o
    unfold clearPegouts
    split_ifs with ho
    · cases hcoin : V o with
      | none => rfl
      | some coin =>
        have hflag := h o ho coin hcoin
        rw [Option.map_some, Option.some.injEq]
        obtain ⟨out, fCoinBase, nHeight, fPegout⟩ := coin
        dsimp only at hflag
        rw [hflag]
        rfl
    · rfl

section Mweb

variable {M : Type} {undoBlock : M → Mweb.BlockUndo → Except String M} {curve : Curve}
  (hcurve : curve.Lawful) {format : MwebUndoFormat} {mwundo : Option Mweb.BlockUndo} {mweb : M}
  (hmw : ∀ undo, mwundo = some undo →
    format.RoundTrips undo ∧ ∃ mweb', undoBlock mweb undo = .ok mweb')
  {block : CBlock} {nHeight : Nat} (hpos : 1 ≤ nHeight) (hlt : nHeight < 2 ^ 30)
  {view : CCoinsViewCache} (hc : view.Valid) (hregular : ∀ o c, view.view o = some c → c.Regular)
  (hblock : BlockApplies nHeight view.view block) (hashPrev : Uint256)

include hcurve hmw hpos hlt hc hregular hblock

/-- A block that was applied is taken back without complaint, and the coins are those from before,
up to the pegout flags of the coins that the block had spent. -/
theorem disconnectConnected_spec :
    Returns (disconnectConnected undoBlock curve format mwundo block nHeight hashPrev view mweb)
      fun r => r.1 = .ok ∧
        view.Shows (clearPegouts (block.vtx.flatMap spentOutPoints) view.view) r.2.1 := by
  obtain ⟨⟨tx, txs, hvtx, htx, htxs⟩, happly, hlen, hins⟩ := hblock
  obtain ⟨⟨vtxundo, c1⟩, hupdate, h1, hundo⟩ := (updateTxs_spec block.vtx hc happly).exists_ok
  have hregular' := hundo.regular hpos hlt block.vtx hregular happly
  obtain ⟨hundoLen, hundoIns⟩ := hundo.lengths block.vtx
  obtain ⟨⟨_, c2⟩, hdisconnect, rfl, h2⟩ :=
    (disconnectTxs_spec (by omega) block.vtx happly hundo hregular' true h1.valid h1.view).exists_ok
  obtain ⟨mweb', hmweb⟩ : ∃ mweb', undoMweb undoBlock mweb mwundo = .ok mweb' := by
    cases mwundo with
    | none => exact ⟨mweb, rfl⟩
    | some undo => exact (hmw undo rfl).2
  rcases vtxundo with _ | ⟨txundo, vtxundo⟩
  · simp [hvtx] at hundoLen
  -- What is written is read back without the pegout flags.
  rw [length_cons] at hundoLen
  have hread := @reads_blockUndo _ format ⟨vtxundo, mwundo⟩ hcurve (fun undo h => (hmw undo h).1)
    (fun u hu => hregular' u (mem_cons_of_mem _ hu)) (fun u hu => by
      obtain ⟨tx', hmem, h⟩ := hundoIns u (mem_cons_of_mem _ hu)
      have hle := tx'.length_spentOutPoints_le
      have hmax := hins tx' hmem
      omega) (show vtxundo.length ≤ _ by omega) []
  rw [append_nil] at hread
  unfold disconnectConnected updateBlock
  rw [hupdate]
  show Returns (disconnectBlock undoBlock _ block nHeight hashPrev c1 mweb) _
  dsimp only [tail_cons]
  rw [hread]
  unfold disconnectBlock
  dsimp only
  rw [hvtx] at hundoLen hdisconnect ⊢
  rw [if_neg (by rw [length_map]; simpa using hundoLen), zip_undo_eq_withUndo htx htxs txundo,
    hdisconnect]
  rw [hmweb, ← hvtx]
  exact ⟨rfl, (h1.trans h2).base, h2.view, h2.valid⟩

/-- Applying a block and taking it back, through the undo data as it is written, restores the coins
if and only if no coin that was there before and that the block spends is a pegout. -/
theorem disconnectBlock_restores_iff :
    (∃ view' mweb',
        disconnectConnected undoBlock curve format mwundo block nHeight hashPrev view mweb =
          .ok (.ok, view', mweb') ∧ view'.view = view.view) ↔
      ∀ tx ∈ block.vtx, ∀ o ∈ tx.spentOutPoints, ∀ coin, view.view o = some coin →
        coin.fPegout = false := by
  obtain ⟨⟨_, c', mweb'⟩, hrun, rfl, h'⟩ :=
    (disconnectConnected_spec hcurve hmw hpos hlt hc hregular hblock hashPrev).exists_ok
  have hiff := clearPegouts_eq_self_iff (block.vtx.flatMap spentOutPoints) view.view
  constructor
  · rintro ⟨c'', mweb'', hrun', hsame⟩ tx htx o ho
    rw [hrun, Except.ok.injEq, Prod.mk.injEq, Prod.mk.injEq] at hrun'
    rw [← hrun'.2.1, h'.view] at hsame
    exact hiff.mp hsame o (mem_flatMap.mpr ⟨tx, htx, ho⟩)
  · intro h
    refine ⟨c', mweb', hrun, h'.view.trans ?_⟩
    refine hiff.mpr fun o ho => ?_
    obtain ⟨tx, htx, ho⟩ := mem_flatMap.mp ho
    exact h tx htx o ho

end Mweb

/-! ## A block that spends one coin -/

/-- One coin, which may be a pegout, in the base map under an empty cache. -/
def sampleView (fPegout : Bool) : CCoinsViewCache :=
  ⟨⟨∅, 0⟩, .base ⟨(∅ : StdMap COutPoint Coin).insert ⟨5, 1⟩ ⟨⟨1000, []⟩, false, 1, fPegout⟩, 0⟩⟩

/-- A coinbase and a transaction that spends the coin. -/
def sampleBlock : CBlock where
  nVersion := 1
  hashPrevBlock := 0
  hashMerkleRoot := 0
  nTime := 0
  nBits := 0
  nNonce := 0
  vtx := [⟨[⟨⟨0, nullIndex⟩, [], 0, []⟩], [⟨50, []⟩], 1, 0, none, false, 6, 6⟩,
    ⟨[⟨⟨5, 1⟩, [], 0, []⟩], [⟨900, []⟩], 1, 0, none, false, 7, 7⟩]
  fChecked := true
  mweb_block := none

/-- A format for blocks without extension blocks. -/
def sampleFormat : MwebUndoFormat := ⟨fun _ => [], throw "end of data"⟩

theorem sampleView_valid (fPegout : Bool) : (sampleView fPegout).Valid :=
  ⟨cacheValid_empty _, trivial⟩

theorem sampleView_view (fPegout : Bool) :
    (sampleView fPegout).view =
      update (fun _ => none) ⟨5, 1⟩ (some ⟨⟨1000, []⟩, false, 1, fPegout⟩) := by
  funext o
  show cacheView ∅ (baseView _) o = _
  rw [cacheView_empty, baseView, Std.ExtTreeMap.getElem?_insert, update_apply]
  by_cases ho : ⟨5, 1⟩ = o
  · rw [if_pos (Std.compare_eq_iff_eq.mpr ho), if_pos ho.symm]
    rfl
  · rw [if_neg (mt Std.compare_eq_iff_eq.mp ho), if_neg (Ne.symm ho)]
    rfl

theorem sampleView_eq_some {fPegout : Bool} {o : COutPoint} {c : Coin}
    (h : (sampleView fPegout).view o = some c) : c = ⟨⟨1000, []⟩, false, 1, fPegout⟩ := by
  rw [sampleView_view, update_apply] at h
  split_ifs at h
  exact (Option.some.inj h).symm

theorem sampleView_regular (fPegout : Bool) (o : COutPoint) (c : Coin)
    (h : (sampleView fPegout).view o = some c) : c.Regular := by
  rw [sampleView_eq_some h]
  cases fPegout <;> exact ⟨by decide, by decide, by decide, by decide⟩

theorem sampleBlock_applies (fPegout : Bool) :
    BlockApplies 2 (sampleView fPegout).view sampleBlock := by
  rw [sampleView_view]
  refine ⟨⟨_, _, rfl, by decide, by decide⟩, ⟨?_, ?_, trivial⟩, by decide, by decide⟩
  · constructor <;> cases fPegout <;> decide
  · constructor <;> cases fPegout <;> decide

/-- The sample block is taken back. -/
theorem disconnectBlock_restores_iff_sample : ∃ view' mweb',
    disconnectConnected (fun (_ : Unit) _ => .ok ()) sampleCurve sampleFormat none sampleBlock 2 0
        (sampleView false) () = .ok (.ok, view', mweb') ∧
      view'.view = (sampleView false).view := by
  refine (disconnectBlock_restores_iff sampleCurve_lawful (fun _ h => by cases h)
    (by decide) (by decide) (sampleView_valid false) (sampleView_regular false)
    (sampleBlock_applies false) 0).mpr fun tx _ o _ coin hcoin => ?_
  rw [sampleView_eq_some hcoin]

/-- The pegout flag of a coin is gone once the block that spends the coin has been taken back. -/
theorem disconnectBlock_loses_pegout :
    (∀ o c, (sampleView true).view o = some c → c.Regular) ∧
    BlockApplies 2 (sampleView true).view sampleBlock ∧
    ∃ view' mweb',
      disconnectConnected (fun (_ : Unit) _ => .ok ()) sampleCurve sampleFormat none sampleBlock 2 0
        (sampleView true) () = .ok (.ok, view', mweb') ∧
      (sampleView true).view ⟨5, 1⟩ = some ⟨⟨1000, []⟩, false, 1, true⟩ ∧
      view'.view ⟨5, 1⟩ = some ⟨⟨1000, []⟩, false, 1, false⟩ := by
  have hspec :
      Returns (disconnectConnected (fun (_ : Unit) _ => .ok ()) sampleCurve sampleFormat none
      sampleBlock 2 0 (sampleView true) ()) _ :=
    disconnectConnected_spec sampleCurve_lawful (fun _ h => by cases h) (by decide) (by decide)
      (sampleView_valid true) (sampleView_regular true) (sampleBlock_applies true) 0
  obtain ⟨⟨_, view', mweb'⟩, hrun, rfl, h'⟩ := hspec.exists_ok
  refine ⟨sampleView_regular true, sampleBlock_applies true, view', mweb', hrun, ?_, ?_⟩
  · rw [sampleView_view, update_self]
  · rw [h'.view, sampleView_view]
    decide

end DefcoinCore
