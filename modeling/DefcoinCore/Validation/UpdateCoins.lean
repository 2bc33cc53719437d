import DefcoinCore.Coins.Cache
import DefcoinCore.Coins.Undo
import DefcoinCore.Lib.PartialMap
import DefcoinCore.Primitives.Block

/-!
# Applying transactions to the coins

`UpdateCoins` spends the coins of a transaction's inputs and adds those of its outputs, and returns
what was spent as undo information; `ConnectBlock` does this for all transactions of a block. On the
plain map of coins a transaction takes out the outpoints it spends and puts in its spendable outputs
(`plainUpdate`). Where the inputs exist and no output overwrites an unspent coin (`TxApplies`) the
cache follows the plain map (`updateCoins_spec`), for whole lists of transactions too
(`updateTxs_spec`).
-/

namespace DefcoinCore

open List CCoinsViewCache

/-! ## The code -/

variable (tx : CTransaction) (nHeight : Nat)

/-- The coin of a transaction's output, given with its index. The first output of an integrating
transaction is spent by the next one, so it is not a pegout. -/
def CTransaction.newCoin (p : CTxOut × Nat) : COutPoint × Coin :=
  (tx.outPoint p.2, Coin.new p.1 nHeight tx.isCoinBase (tx.m_hogEx && 0 < p.2))

/-- The coins of a transaction's outputs. -/
def CTransaction.newCoins : List (COutPoint × Coin) :=
  tx.vout.zipIdx.map (tx.newCoin nHeight)

/-- One round of `AddCoins`. -/
def addNewCoin (check_for_overwrite fCoinbase : Bool) (cache : CCoinsViewCache)
    (p : COutPoint × Coin) : Except CoinsFault CCoinsViewCache :=
  if check_for_overwrite then
    let (overwrite, cache) := cache.haveCoin p.1
    cache.addCoin p.1 p.2 overwrite
  -- A coinbase may always overwrite: there are duplicates from before this was forbidden.
  else cache.addCoin p.1 p.2 fCoinbase

/-- `AddCoins`. -/
def addCoins (cache : CCoinsViewCache) (tx : CTransaction) (nHeight : Nat)
    (check_for_overwrite : Bool) : Except CoinsFault CCoinsViewCache :=
  (tx.newCoins nHeight).foldlM (addNewCoin check_for_overwrite tx.isCoinBase) cache

/-- The loop over the inputs in `UpdateCoins`: the coins of the inputs are moved to the undo
information. -/
def spendInputs : CCoinsViewCache → List CTxIn → Except CoinsFault (List Coin × CCoinsViewCache)
  | inputs, [] => .ok ([], inputs)
  | inputs, txin :: vin =>
    let (is_spent, moveout, inputs) := inputs.spendCoin txin.prevout
    if is_spent then do
      let (vprevout, inputs) ← spendInputs inputs vin
      pure (moveout :: vprevout, inputs)
    else .error (.assertion "is_spent")

/-- The first half of `UpdateCoins`: a coinbase has no coins to spend. -/
def spendTx (inputs : CCoinsViewCache) (tx : CTransaction) :
    Except CoinsFault (List Coin × CCoinsViewCache) :=
  if tx.isCoinBase then .ok ([], inputs) else spendInputs inputs tx.vin

/-- `UpdateCoins`. -/
def updateCoins (inputs : CCoinsViewCache) (nHeight : Nat) :
    Except CoinsFault (CTxUndo × CCoinsViewCache) := do
  let (vprevout, inputs) ← spendTx inputs tx
  let inputs ← addCoins inputs tx nHeight false
  pure (⟨vprevout⟩, inputs)

/-- `UpdateCoins` for one transaction after the other, with the undo information of all. -/
def updateTxs (nHeight : Nat) :
    List CTransaction → CCoinsViewCache → Except CoinsFault (List CTxUndo × CCoinsViewCache)
  | [], view => .ok ([], view)
  | tx :: txs, view => do
    let (txundo, view) ← updateCoins tx view nHeight
    let (vtxundo, view) ← updateTxs nHeight txs view
    pure (txundo :: vtxundo, view)

/-- The coins part of `ConnectBlock`'s loop: the undo information of the first transaction is not
kept. -/
def updateBlock (vtx : List CTransaction) (view : CCoinsViewCache) :
    Except CoinsFault (List CTxUndo × CCoinsViewCache) := do
  let (vtxundo, view) ← updateTxs nHeight vtx view
  pure (vtxundo.tail, view)

/-! ## Transactions on plain maps -/

/-- The outpoints that a transaction spends. -/
def CTransaction.spentOutPoints : List COutPoint :=
  if tx.isCoinBase then [] else tx.vin.map (·.prevout)

/-- A coin that can ever be spent. -/
def isSpendable (p : COutPoint × Coin) : Bool := !isUnspendable p.2.out.scriptPubKey

/-- The coins of a transaction's outputs that can ever be spent. -/
def CTransaction.spendableCoins : List (COutPoint × Coin) :=
  (tx.newCoins nHeight).filter isSpendable

/-- What a transaction does to a plain map. -/
def plainUpdate (V : CoinMap) (tx : CTransaction) : CoinMap :=
  insertAll (eraseAll V tx.spentOutPoints) (tx.spendableCoins nHeight)

/-- A transaction can be applied to a plain map: its inputs exist, each of its own, no output
overwrites an unspent coin or another output, and the amounts are in range. -/
structure TxApplies (nHeight : Nat) (V : CoinMap) (tx : CTransaction) : Prop where
  inputs : ∀ o ∈ tx.spentOutPoints, (V o).isSome
  inputs_nodup : tx.spentOutPoints.Nodup
  outputs : ∀ p ∈ tx.spendableCoins nHeight, eraseAll V tx.spentOutPoints p.1 = none
  outputs_nodup : ((tx.spendableCoins nHeight).map Prod.fst).Nodup
  values : ∀ out ∈ tx.vout, 0 ≤ out.nValue ∧ out.nValue ≤ maxMoney

/-- The transactions can be applied one after the other. -/
def TxsApply (nHeight : Nat) : CoinMap → List CTransaction → Prop
  | _, [] => True
  | V, tx :: txs => TxApplies nHeight V tx ∧ TxsApply nHeight (plainUpdate nHeight V tx) txs

/-! ## The cache follows the plain map -/

/-- A new coin is that of an output. -/
theorem CTransaction.mem_newCoins {tx : CTransaction} {nHeight : Nat} {p : COutPoint × Coin}
    (h : p ∈ tx.newCoins nHeight) :
    ∃ i, ∃ out ∈ tx.vout, p = tx.newCoin nHeight (out, i) := by
  obtain ⟨q, hq, rfl⟩ := mem_map.mp h
  exact ⟨q.2, q.1, fst_mem_of_mem_zipIdx hq, rfl⟩

/-- `AddCoin` as a part of a bulk update. -/
theorem plainAdd_eq_insertAll (V : CoinMap) (p : COutPoint × Coin) :
    plainAdd V p.1 p.2 = insertAll V ([p].filter isSpendable) := by
  unfold plainAdd
  cases hscript : isUnspendable p.2.out.scriptPubKey with
  | true => rw [filter_cons_of_neg (by rw [isSpendable, hscript]; decide)]; rfl
  | false => rw [filter_cons_of_pos (by rw [isSpendable, hscript]; rfl)]; rfl

section Cache

variable {cache : CCoinsViewCache}

theorem addNewCoin_spec (hc : cache.Valid) (check_for_overwrite fCoinbase : Bool)
    {p : COutPoint × Coin} (hp : p.2.isSpent = false)
    (hfresh : check_for_overwrite = false → isSpendable p → cache.view p.1 = none) :
    Returns (addNewCoin check_for_overwrite fCoinbase cache p)
      (cache.Shows (plainAdd cache.view p.1 p.2)) := by
  cases check_for_overwrite with
  | true =>
    obtain ⟨hhave, hr⟩ := haveCoin_spec hc p.1
    have hadd := addCoin_spec hr.valid hp fun (hnot : (cache.haveCoin p.1).1 = false) _ => by
      rw [hr.view, ← Option.isNone_iff_eq_none, ← Option.not_isSome, ← hhave, hnot]
      rfl
    rw [hr.view] at hadd
    exact hadd.imp fun _ h => hr.shows.trans h
  | false =>
    exact addCoin_spec hc hp fun _ hsp => hfresh rfl (by rw [isSpendable, hsp]; rfl)

/-- A loop of `AddCoin`. Without the check for an overwrite the new outpoints have to be free. -/
theorem foldlM_addNewCoin (check_for_overwrite fCoinbase : Bool) (l : List (COutPoint × Coin))
    (hl : ∀ p ∈ l, p.2.isSpent = false) (hc : cache.Valid)
    (hfresh : check_for_overwrite = false →
      ((l.filter isSpendable).map Prod.fst).Nodup ∧
        ∀ p ∈ l.filter isSpendable, cache.view p.1 = none) :
    Returns (l.foldlM (addNewCoin check_for_overwrite fCoinbase) cache)
      (cache.Shows (insertAll cache.view (l.filter isSpendable))) := by
  induction l generalizing cache with
  | nil => exact .refl hc
  | cons p l ih =>
    rw [foldlM_cons]
    refine (addNewCoin_spec hc check_for_overwrite fCoinbase (hl p mem_cons_self) fun hcheck hsp =>
      (hfresh hcheck).2 p (mem_filter.mpr ⟨mem_cons_self, hsp⟩)).bind fun c1 h1 => ?_
    have hview := h1.view
    rw [plainAdd_eq_insertAll] at hview
    rw [show (p :: l).filter isSpendable = [p].filter isSpendable ++ l.filter isSpendable from
      filter_append [p] l] at hfresh ⊢
    have happend : insertAll cache.view ([p].filter isSpendable ++ l.filter isSpendable) =
        insertAll c1.view (l.filter isSpendable) := by
      rw [hview]
      exact foldl_append
    rw [happend]
    refine (ih (fun q hq => hl q (mem_cons_of_mem p hq)) h1.valid fun hcheck => ?_).imp fun _ h =>
      h1.trans h
    -- The outpoints that are still to come are free after this coin too.
    obtain ⟨hnodup, hnone⟩ := hfresh hcheck
    rw [map_append, nodup_append] at hnodup
    refine ⟨hnodup.2.1, fun q hq => ?_⟩
    have hq' : q.1 ∈ (l.filter isSpendable).map Prod.fst := mem_map_of_mem hq
    rw [hview, insertAll_of_notMem _ fun hmem => hnodup.2.2 _ hmem _ hq' rfl]
    exact hnone q (mem_append_right _ hq)

/-- `AddCoins` adds the coins that can be spent. -/
theorem addCoins_spec (hc : cache.Valid) (tx : CTransaction) (nHeight : Nat)
    (check_for_overwrite : Bool) (hvalues : ∀ out ∈ tx.vout, 0 ≤ out.nValue ∧ out.nValue ≤ maxMoney)
    (hfresh : check_for_overwrite = false → ((tx.spendableCoins nHeight).map Prod.fst).Nodup ∧
        ∀ p ∈ tx.spendableCoins nHeight, cache.view p.1 = none) :
    Returns (addCoins cache tx nHeight check_for_overwrite)
      (cache.Shows (insertAll cache.view (tx.spendableCoins nHeight))) := by
  refine foldlM_addNewCoin check_for_overwrite tx.isCoinBase (tx.newCoins nHeight) ?_ hc hfresh
  intro p hp
  obtain ⟨i, out, hout, rfl⟩ := CTransaction.mem_newCoins hp
  exact Coin.isSpent_of_nonneg (hvalues out hout).1

/-- The inputs of a transaction are taken out, and the undo information has their coins. -/
theorem spendInputs_spec (hc : cache.Valid) (vin : List CTxIn)
    (hsome : ∀ txin ∈ vin, (cache.view txin.prevout).isSome)
    (hnodup : (vin.map (·.prevout)).Nodup) :
    Returns (spendInputs cache vin) fun r =>
      cache.Shows (eraseAll cache.view (vin.map (·.prevout))) r.2 ∧
        r.1.map some = vin.map fun txin => cache.view txin.prevout := by
  induction vin generalizing cache with
  | nil => exact ⟨.refl hc, rfl⟩
  | cons txin vin ih =>
    rw [map_cons, nodup_cons] at hnodup
    obtain ⟨coin, hcoin⟩ := Option.isSome_iff_exists.mp (hsome txin mem_cons_self)
    obtain ⟨h1, -, -⟩ := spendCoin_spec hc txin.prevout
    obtain ⟨hspent, hmoved⟩ := spendCoin_of_some hc hcoin
    -- The other inputs name other outpoints.
    have hother : ∀ txin' ∈ vin, (cache.spendCoin txin.prevout).2.2.view txin'.prevout =
        cache.view txin'.prevout := by
      intro txin' hmem
      rw [h1.view, Function.update_of_ne]
      exact fun heq => hnodup.1 (mem_map.mpr ⟨txin', hmem, heq⟩)
    unfold spendInputs
    dsimp only
    rw [hspent, if_pos rfl, hmoved]
    refine (ih h1.valid (fun txin' hmem => ?_) hnodup.2).bind ?_
    · rw [hother txin' hmem]
      exact hsome txin' (mem_cons_of_mem _ hmem)
    · rintro ⟨vprevout, c'⟩ ⟨h', hcoins⟩
      refine ⟨?_, ?_⟩
      · rw [h1.view] at h'
        exact h1.trans h'
      · rw [map_cons, map_cons, hcoins, hcoin, map_congr_left hother]

theorem spendTx_spec (hc : cache.Valid) {tx : CTransaction}
    (hsome : ∀ o ∈ tx.spentOutPoints, (cache.view o).isSome) (hnodup : tx.spentOutPoints.Nodup) :
    Returns (spendTx cache tx) fun r => cache.Shows (eraseAll cache.view tx.spentOutPoints) r.2 ∧
      r.1.map some = tx.spentOutPoints.map cache.view := by
  unfold spendTx
  unfold CTransaction.spentOutPoints at hsome hnodup ⊢
  cases htx : tx.isCoinBase with
  | true => exact ⟨.refl hc, rfl⟩
  | false =>
    rw [htx] at hsome hnodup
    refine (spendInputs_spec hc tx.vin (fun txin h => hsome _ (mem_map_of_mem h)) hnodup).imp
      fun r h => ⟨h.1, ?_⟩
    rw [h.2, if_neg (by decide), map_map]
    rfl

/-- `UpdateCoins` does to the cache what the transaction does to the plain map, and returns the
coins that it spent. -/
theorem updateCoins_spec (hc : cache.Valid) {tx : CTransaction} {nHeight : Nat}
    (htx : TxApplies nHeight cache.view tx) :
    Returns (updateCoins tx cache nHeight) fun r =>
      cache.Shows (plainUpdate nHeight cache.view tx) r.2 ∧
        r.1.vprevout.map some = tx.spentOutPoints.map cache.view := by
  refine (spendTx_spec hc htx.inputs htx.inputs_nodup).bind ?_
  rintro ⟨vprevout, c1⟩ ⟨h1, hcoins⟩
  have hadd := addCoins_spec h1.valid tx nHeight false htx.values
    fun _ => ⟨htx.outputs_nodup, fun p hp => by rw [h1.view]; exact htx.outputs p hp⟩
  rw [h1.view] at hadd
  exact hadd.bind fun c' h' => ⟨h1.trans h', hcoins⟩

end Cache

/-- The undo information of each transaction has the coins that it spends. -/
def UndoOf (nHeight : Nat) : CoinMap → List CTransaction → List CTxUndo → Prop
  | _, [], [] => True
  | V, tx :: txs, txundo :: vtxundo =>
    txundo.vprevout.map some = tx.spentOutPoints.map V ∧
      UndoOf nHeight (plainUpdate nHeight V tx) txs vtxundo
  | _, _, _ => False

/-- `UpdateCoins` for a list of transactions. -/
theorem updateTxs_spec {nHeight : Nat} (txs : List CTransaction) {view : CCoinsViewCache}
    (hc : view.Valid) (htxs : TxsApply nHeight view.view txs) :
    Returns (updateTxs nHeight txs view) fun r =>
      view.Shows (txs.foldl (plainUpdate nHeight) view.view) r.2 ∧
        UndoOf nHeight view.view txs r.1 := by
  induction txs generalizing view with
  | nil => exact ⟨.refl hc, trivial⟩
  | cons tx txs ih =>
    refine (updateCoins_spec hc htxs.1).bind ?_
    rintro ⟨txundo, c1⟩ ⟨h1, hcoins⟩
    have hrest := ih h1.valid (h1.view ▸ htxs.2)
    rw [h1.view] at hrest
    exact hrest.bind fun r h' => ⟨h1.trans h'.1, hcoins, h'.2⟩

end DefcoinCore
