import DefcoinCore.Lib.Reach
import DefcoinCore.Primitives.Transaction

/-!
# Conflicts and abandonment in the wallet

`CWallet::MarkConflicted` and `CWallet::AbandonTransaction` of `wallet/wallet.cpp`. Both change the
confirmation of a transaction and go on to the wallet transactions that spend its outputs, with a
worklist. The wallet records the spenders of an output in a multimap, but both functions look an
output up with `find`, which gives one spender, the first one that was recorded. So a transaction
that spends an output second is passed over (`doubleSpend_passedOver`), and the changes reach every
transaction they should reach exactly when first spenders lead to all of them
(`spread_reaches_iff`).

The cached amounts, the database and the notifications are left out. A transaction counts as
conflicted when its depth is negative.
-/

namespace DefcoinCore.Wallet

open Relation List

/-! ## The code -/

/-- `OutputIndex`: an output of a transaction, or an output of the extension block. -/
inductive OutputIndex where
  | outPoint (out : COutPoint)
  | mweb (output_id : Mweb.Hash)
  deriving DecidableEq

/-- `MWEB::WalletTxInfo`, with the id of the coin that was received. -/
structure WalletTxInfo where
  received_coin : Option Mweb.Hash
  spent_input : Option Mweb.Hash

/-- `CWalletTx::Status`. -/
inductive Status where
  | unconfirmed
  | confirmed
  | conflicted
  | abandoned
  deriving DecidableEq

/-- `CWalletTx::Confirmation`. -/
structure Confirmation where
  status : Status := .unconfirmed
  block_height : Int := 0
  hashBlock : Uint256 := 0
  nIndex : Int := 0

/-- `CWalletTx`. -/
structure CWalletTx where
  tx : CTransaction
  mweb_wtx_info : Option WalletTxInfo := none
  fInMempool : Bool := false
  m_confirm : Confirmation := {}

namespace CWalletTx

variable (wtx : CWalletTx)

/-- `CWalletTx::GetInputs`, by index. -/
def getInputs : List OutputIndex :=
  (wtx.tx.vin.map fun txin => .outPoint txin.prevout) ++
    (wtx.tx.mweb_tx.elim [] fun tx => tx.body.inputs.map fun input => .mweb input.outputID) ++
    ((wtx.mweb_wtx_info.bind (·.spent_input)).map .mweb).toList

/-- `CWalletTx::GetOutputs`, by index. -/
def getOutputs : List OutputIndex :=
  (wtx.tx.vout.mapIdx fun n _ => .outPoint ⟨wtx.tx.hash, UInt32.ofNat n⟩) ++
    (wtx.tx.mweb_tx.elim [] fun tx => tx.body.outputs.map fun output => .mweb output.hash) ++
    ((wtx.mweb_wtx_info.bind (·.received_coin)).map .mweb).toList

/-- `CWalletTx::isAbandoned`. -/
def isAbandoned : Bool := wtx.m_confirm.status = .abandoned

end CWalletTx

/-- A failed assertion. -/
inductive Fault where
  | assertion

/-- `CWallet`. The multimap has the spenders of an output in the order in which they were recorded.
-/
structure CWallet where
  mapWallet : StdMap Uint256 CWalletTx := ∅
  mapTxSpends : List (OutputIndex × Uint256) := []
  m_last_block_processed_height : Int := -1

namespace CWallet

variable (w : CWallet)

/-- `AddToSpends`, for a transaction of the wallet. -/
def addToSpends (wtxid : Uint256) (thisTx : CWalletTx) : CWallet :=
  if thisTx.tx.isCoinBase then w
  else { w with mapTxSpends := w.mapTxSpends ++ thisTx.getInputs.map fun idx => (idx, wtxid) }

/-- What `AddToWallet` does to the maps for a transaction that is new to the wallet. -/
def insertNew (hash : Uint256) (wtx : CWalletTx) : CWallet :=
  { w with mapWallet := w.mapWallet.insert hash wtx }.addToSpends hash wtx

/-- `mapTxSpends.find`. -/
def findSpend (idx : OutputIndex) : Option Uint256 := w.mapTxSpends.lookup idx

/-- The body of both loops: a transaction that passes the check is changed, and a spender of each of
its outputs comes next. -/
def visit (check : CWalletTx → Except Fault Bool) (confirm : Confirmation) (w : CWallet)
    (now : Uint256) : Except Fault (List Uint256 × CWallet) :=
  match w.mapWallet[now]? with
  | none => .error .assertion
  | some wtx => do
    if ← check wtx then
      pure (wtx.getOutputs.filterMap w.findSpend,
        { w with mapWallet := w.mapWallet.insert now { wtx with m_confirm := confirm } })
    else pure ([], w)

/-- Both loops, from a transaction on. No transaction is visited twice. -/
def spread (check : CWalletTx → Except Fault Bool) (confirm : Confirmation) (hashTx : Uint256) :
    Except Fault CWallet :=
  Reach.walk (visit check confirm) w.mapWallet.size ((∅ : StdSet Uint256).insert hashTx) ∅ w

/-- `CWalletTx::GetDepthInMainChain`, where a block was processed, as is asserted. -/
def getDepthInMainChain (wtx : CWalletTx) : Int :=
  match wtx.m_confirm.status with
  | .unconfirmed | .abandoned => 0
  | .confirmed => w.m_last_block_processed_height - wtx.m_confirm.block_height + 1
  | .conflicted => (w.m_last_block_processed_height - wtx.m_confirm.block_height + 1) * -1

/-- The `conflictconfirms` of `MarkConflicted`. -/
def conflictconfirms (conflicting_height : Int) : Int :=
  (w.m_last_block_processed_height - conflicting_height + 1) * -1

/-- The block conflicts more deeply than the transaction does. -/
def Shallower (conflicting_height : Int) (wtx : CWalletTx) : Bool :=
  w.conflictconfirms conflicting_height < w.getDepthInMainChain wtx

/-- `MarkConflicted`. -/
def markConflicted (hashBlock : Uint256) (conflicting_height : Int) (hashTx : Uint256) :
    Except Fault CWallet :=
  if w.conflictconfirms conflicting_height ≥ 0 then .ok w
  else w.spread (fun wtx => .ok (w.Shallower conflicting_height wtx))
    ⟨.conflicted, conflicting_height, hashBlock, 0⟩ hashTx

/-- The transaction is neither in a block nor abandoned nor conflicted. -/
def Pending (wtx : CWalletTx) : Bool := w.getDepthInMainChain wtx = 0 && !wtx.isAbandoned

/-- The checks of the loop of `AbandonTransaction`. -/
def checkAbandon (wtx : CWalletTx) : Except Fault Bool :=
  if w.getDepthInMainChain wtx > 0 then .error .assertion
  else if w.Pending wtx then
    if wtx.fInMempool then .error .assertion else .ok true
  else .ok false

/-- `AbandonTransaction`. -/
def abandonTransaction (hashTx : Uint256) : Except Fault (Bool × CWallet) :=
  match w.mapWallet[hashTx]? with
  | none => .error .assertion
  | some origtx =>
    if w.getDepthInMainChain origtx ≠ 0 ∨ origtx.fInMempool then .ok (false, w)
    else do
      let w ← w.spread w.checkAbandon ⟨.abandoned, 0, 0, 0⟩ hashTx
      pure (true, w)

/-! ## Spenders -/

/-- The transaction of the wallet under a hash passes a test. -/
def has (test : CWalletTx → Bool) (h : Uint256) : Bool := w.mapWallet[h]?.any test

/-- The transaction under a hash spends an output. -/
def SpendsOutput (idx : OutputIndex) : Uint256 → Bool :=
  w.has fun wtx => !wtx.tx.isCoinBase && decide (idx ∈ wtx.getInputs)

/-- What the multimap records are transactions of the wallet that spend the output. -/
def Recorded : Prop :=
  ∀ idx h, (idx, h) ∈ w.mapTxSpends → w.SpendsOutput idx h

/-- The second transaction of the wallet spends an output of the first one. -/
def Spends (h h' : Uint256) : Prop :=
  w.has (fun wtx => wtx.getOutputs.any (w.SpendsOutput · h')) h = true

/-- The second transaction is the recorded spender of an output of the first one that `find` gives.
-/
def FirstSpends (h h' : Uint256) : Prop :=
  ∃ wtx, w.mapWallet[h]? = some wtx ∧ ∃ idx ∈ wtx.getOutputs, w.findSpend idx = some h'

variable {w} {w' : CWallet} {t h h' : Uint256} {wtx wtx' : CWalletTx}

theorem has_iff {test : CWalletTx → Bool} :
    w.has test h ↔ ∃ wtx, w.mapWallet[h]? = some wtx ∧ test wtx := by
  rcases hw : w.mapWallet[h]? with _ | wtx <;> simp [has, hw]

theorem recorded_empty (height : Int) :
    ({ m_last_block_processed_height := height } : CWallet).Recorded := by
  simp [Recorded]

/-- A new transaction is recorded. -/
theorem Recorded.insertNew (hw : w.Recorded) (hnew : w.mapWallet[h]? = none) :
    (w.insertNew h wtx).Recorded := by
  intro idx k
  have hold := hw idx k
  unfold CWallet.insertNew addToSpends SpendsOutput has at *
  by_cases hk : h = k
  · split_ifs with hcb <;> simp_all
  · split_ifs with hcb <;> simp_all

/-- What `find` gives is recorded. -/
theorem FirstSpends.spends (hw : w.Recorded) (hf : w.FirstSpends h h') : w.Spends h h' := by
  obtain ⟨wtx, hwtx, idx, hidx, hfind⟩ := hf
  obtain ⟨l1, l2, heq, -⟩ := lookup_eq_some_iff.mp hfind
  refine has_iff.mpr ⟨wtx, hwtx, any_eq_true.mpr ⟨idx, hidx, hw idx h' ?_⟩⟩
  rw [heq]
  exact mem_append_right _ mem_cons_self

theorem Spends.mem (hs : w.Spends h h') : ∃ wtx', w.mapWallet[h']? = some wtx' := by
  obtain ⟨wtx, -, hany⟩ := has_iff.mp hs
  obtain ⟨idx, -, hspends⟩ := any_eq_true.mp hany
  obtain ⟨wtx', hwtx', -⟩ := has_iff.mp hspends
  exact ⟨wtx', hwtx'⟩

/-- The edges that a loop follows. -/
def Follows (w : CWallet) (act : CWalletTx → Bool) (h h' : Uint256) : Prop :=
  w.has act h ∧ w.FirstSpends h h'

/-- What a loop that starts at `t` gets to. -/
abbrev Reached (w : CWallet) (act : CWalletTx → Bool) (t : Uint256) : Uint256 → Prop :=
  ReflTransGen (w.Follows act) t

/-- The loop that starts at `t` gets to every transaction that the edges lead to and that it should
change. -/
def Covers (w : CWallet) (act : CWalletTx → Bool) (t : Uint256) (edge : Uint256 → Uint256 → Prop) :
    Prop :=
  ∀ h, ReflTransGen edge t h → w.has act h → w.Reached act t h

/-! ## The loops -/

open Classical in
/-- The visited transactions that pass a test have another confirmation, and nothing else changed.
-/
structure Spread (w w' : CWallet) (act : CWalletTx → Bool) (confirm : Confirmation)
    (visited : Uint256 → Prop) : Prop where
  spends : w'.mapTxSpends = w.mapTxSpends
  height : w'.m_last_block_processed_height = w.m_last_block_processed_height
  entry : ∀ h : Uint256, w'.mapWallet[h]? = w.mapWallet[h]?.map fun wtx =>
    { wtx with m_confirm := if visited h ∧ act wtx then confirm else wtx.m_confirm }

variable {act : CWalletTx → Bool} {confirm : Confirmation} {check : CWalletTx → Except Fault Bool}
  {visited : Uint256 → Prop}

/-- What the loop gets to are descendants. -/
theorem spends_of_reached (hw : w.Recorded) (hreach : w.Reached act t h) :
    ReflTransGen w.Spends t h :=
  hreach.lift id fun _ _ hedge => hedge.2.spends hw

/-- Descendants are in the wallet. -/
theorem mem_of_spends (ht : w.mapWallet[t]? = some wtx) (hreach : ReflTransGen w.Spends t h) :
    ∃ wtx, w.mapWallet[h]? = some wtx := by
  rcases hreach.cases_tail with rfl | ⟨k, -, hk⟩
  · exact ⟨wtx, ht⟩
  · exact hk.mem

/-- A loop changes the transactions that it gets to, if none of them fails an assertion. -/
theorem spread_spec (act : CWalletTx → Bool) (hw : w.Recorded) (ht : w.mapWallet[t]? = some wtx)
    (hcheck : ∀ h wtx, w.Reached act t h → w.mapWallet[h]? = some wtx →
      check wtx = .ok (act wtx)) :
    Returns (w.spread check confirm t) fun w' =>
      w.Spread w' act confirm (w.Reached act t) := by
  refine (Reach.walk_spec (R := w.Follows act) (U := w.mapWallet.keys.toFinset)
    (P := fun done w' => w.Spread w' act confirm (· ∈ done)) ?_ ?_ ?_ ?_).imp ?_
  · intro done w1 a h1 ha hreach
    obtain ⟨wtx, hwtx⟩ := mem_of_spends ht (spends_of_reached hw hreach)
    -- The transaction was not visited before, so it is as it was before the loop.
    have hsame : w1.mapWallet[a]? = some wtx := by simp [h1.entry, hwtx, ha]
    have hhas : w.has act a = act wtx := by rw [has, hwtx, Option.any_some]
    unfold visit
    rw [hsame]
    simp only
    rw [hcheck a wtx hreach hwtx, ok_bind]
    refine .ite (fun hact => ⟨⟨h1.spends, h1.height, fun h => ?_⟩, fun b => ?_⟩)
      fun hact => ⟨⟨h1.spends, h1.height, fun h => ?_⟩, fun b => ?_⟩
    · simp only [StdMap.getElem?_insert]
      split_ifs with hah
      · simp [← hah, hwtx, hact]
      · refine (h1.entry h).trans ?_
        congr! 5
        simp [hah]
    · rw [mem_filterMap]
      simp only [findSpend, h1.spends]
      constructor
      · exact fun ⟨idx, hidx, hfind⟩ => ⟨hhas.trans hact, wtx, hwtx, idx, hidx, hfind⟩
      · rintro ⟨-, x, hx, hfirst⟩
        cases hwtx.symm.trans hx
        exact hfirst
    · by_cases hah : a = h
      · simp [← hah, hsame, hwtx, hact]
      · refine (h1.entry h).trans ?_
        congr! 5
        simp [hah]
    · refine ⟨nofun, fun hedge => absurd ?_ hact⟩
      rw [← hhas]
      exact hedge.1
  · intro a ha
    obtain ⟨x, hx⟩ := mem_of_spends ht (spends_of_reached hw ha)
    rw [mem_toFinset, Std.ExtTreeMap.mem_keys]
    exact Std.ExtTreeMap.mem_iff_isSome_getElem?.mpr (by rw [hx]; rfl)
  · exact (toFinset_card_le _).trans_eq Std.ExtTreeMap.length_keys
  · exact ⟨rfl, rfl, fun h => by simp⟩
  · rintro w1 ⟨done, h1, hdone⟩
    rwa [show (· ∈ done) = w.Reached act t from funext fun a => propext (hdone a)] at h1

section

variable (hs : w.Spread w' act confirm visited)

include hs

theorem Spread.depth_eq : w'.getDepthInMainChain wtx = w.getDepthInMainChain wtx := by
  rw [getDepthInMainChain, hs.height, getDepthInMainChain]

/-- A transaction is changed or not. -/
theorem Spread.cases (hwtx : w.mapWallet[h]? = some wtx) :
    (visited h ∧ act wtx) ∧ w'.mapWallet[h]? = some { wtx with m_confirm := confirm } ∨
      ¬ (visited h ∧ act wtx) ∧ w'.mapWallet[h]? = some wtx := by
  rw [hs.entry, hwtx, Option.map_some]
  split_ifs with hcond
  · exact .inl ⟨hcond, rfl⟩
  · exact .inr ⟨hcond, rfl⟩

/-- The loops do not change who spends what. -/
theorem Spread.spends_iff : w'.Spends h h' ↔ w.Spends h h' := by
  simp only [Spends, SpendsOutput, has, hs.entry, Option.any_map]
  rfl

end

/-! ## What the loops reach -/

/-- The transaction is conflicted. -/
def Conflicted (w : CWallet) (wtx : CWalletTx) : Bool := w.getDepthInMainChain wtx < 0

/-- Every spender of an output of a conflicted transaction is at least as deeply conflicted. -/
def Deepens (w : CWallet) : Prop :=
  ∀ h h' wtx wtx', w.mapWallet[h]? = some wtx → w.mapWallet[h']? = some wtx' → w.Spends h h' →
    w.getDepthInMainChain wtx < 0 → w.getDepthInMainChain wtx' ≤ w.getDepthInMainChain wtx

/-- A spender of a conflicted transaction is conflicted. -/
theorem Deepens.conflicted (hd : w.Deepens) (hspends : w.Spends h h')
    (hh : w.has w.Conflicted h) : w.has w.Conflicted h' := by
  obtain ⟨x, hx, hneg⟩ := has_iff.mp hh
  obtain ⟨y, hy⟩ := hspends.mem
  have hxneg := of_decide_eq_true hneg
  have hle := hd h h' x y hx hy hspends hxneg
  exact has_iff.mpr ⟨y, hy, decide_eq_true (hle.trans_lt hxneg)⟩

/-- The edges that `MarkConflicted` should follow. -/
def DeepensTo (w : CWallet) (height : Int) (h h' : Uint256) : Prop :=
  w.has (w.Shallower height) h ∧ w.Spends h h'

/-- `MarkConflicted` marks the transactions that it gets to. Spenders of conflicted transactions are
then at least as deeply conflicted if and only if it gets to all that it should. -/
theorem markConflicted_spec (hw : w.Recorded) (ht : w.mapWallet[t]? = some wtx)
    (hashBlock : Uint256)
    {height : Int} (hheight : height ≤ w.m_last_block_processed_height) (hdeep : w.Deepens) :
    Returns (w.markConflicted hashBlock height t) fun w' => w'.has w'.Conflicted t ∧
      (w'.Deepens ↔ w.Covers (w.Shallower height) t (w.DeepensTo height)) := by
  have hneg : w.conflictconfirms height < 0 := by
    unfold conflictconfirms
    omega
  unfold markConflicted
  rw [if_neg (not_le.mpr hneg)]
  refine (spread_spec (w.Shallower height) hw ht fun _ _ _ _ => rfl).imp fun w' hs => ?_
  -- What the loop gets to is at least as deep as the block afterwards, and nothing else changes.
  have hdepth : ∀ h x, w.mapWallet[h]? = some x → ∃ x', w'.mapWallet[h]? = some x' ∧
      (w.Reached (w.Shallower height) t h → w'.getDepthInMainChain x' =
        min (w.getDepthInMainChain x) (w.conflictconfirms height)) ∧
      (¬ w.Reached (w.Shallower height) t h →
        w'.getDepthInMainChain x' = w.getDepthInMainChain x) := by
    intro h x hx
    rcases hs.cases hx with ⟨⟨hreach, hact⟩, heq⟩ | ⟨hnot, heq⟩
    · refine ⟨_, heq, fun _ => ?_, fun hnot => absurd hreach hnot⟩
      rw [hs.depth_eq, min_eq_right (of_decide_eq_true hact).le]
      rfl
    · refine ⟨x, heq, fun hreach => ?_, fun _ => hs.depth_eq⟩
      rw [hs.depth_eq, min_eq_left]
      exact not_lt.mp fun hlt => hnot ⟨hreach, decide_eq_true hlt⟩
  refine ⟨?_, fun hdeep' h hreach => ?_, fun hall h h' x' y' hx' hy' hspends => ?_⟩
  · obtain ⟨x', hx', heq, -⟩ := hdepth t wtx ht
    refine has_iff.mpr ⟨x', hx', decide_eq_true ?_⟩
    have := heq .refl
    omega
  · -- A spender of what was marked is as deep, so it was marked or is not to be marked.
    induction hreach with
    | refl => exact fun _ => .refl
    | @tail b c _ hedge ih =>
      intro hc
      obtain ⟨y, hy, hyact⟩ := has_iff.mp hc
      obtain ⟨x, hx, -⟩ := has_iff.mp hedge.1
      obtain ⟨x', hx', hxeq, -⟩ := hdepth b x hx
      obtain ⟨y', hy', -, hyeq⟩ := hdepth c y hy
      have hle := hdeep' b c x' y' hx' hy' (hs.spends_iff.mpr hedge.2)
      have hylt := of_decide_eq_true hyact
      have hxmin := hxeq (ih hedge.1)
      by_contra hnot
      have hysame := hyeq hnot
      omega
  · rw [hs.spends_iff] at hspends
    obtain ⟨x, hx, -⟩ := has_iff.mp hspends
    obtain ⟨y, hy⟩ := hspends.mem
    obtain ⟨x1, hx1, hxeq, hxsame⟩ := hdepth h x hx
    obtain ⟨y1, hy1, hyeq, hysame⟩ := hdepth h' y hy
    cases hx'.symm.trans hx1
    cases hy'.symm.trans hy1
    have hle := hdeep h h' x y hx hy hspends
    -- A spender of what the loop marks is one of those that it should get to.
    have hreached : w.Reached (w.Shallower height) t h →
        w.conflictconfirms height < w.getDepthInMainChain x →
        w.conflictconfirms height < w.getDepthInMainChain y →
        w.Reached (w.Shallower height) t h' := fun hreach hlt hylt =>
      hall h' ((hreach.lift id fun _ _ hedge => ⟨hedge.1, hedge.2.spends hw⟩).tail
        ⟨has_iff.mpr ⟨x, hx, decide_eq_true hlt⟩, hspends⟩)
        (has_iff.mpr ⟨y, hy, decide_eq_true hylt⟩)
    by_cases hx1 : w.Reached (w.Shallower height) t h <;>
      by_cases hy1 : w.Reached (w.Shallower height) t h' <;> grind

/-- The transaction is abandoned or conflicted. -/
def Gone (w : CWallet) (wtx : CWalletTx) : Bool := wtx.isAbandoned || w.Conflicted wtx

theorem Spread.gone_eq (hs : w.Spread w' act confirm visited) : w'.Gone wtx = w.Gone wtx := by
  rw [Gone, Conflicted, hs.depth_eq, Gone, Conflicted]

/-- A transaction that is not confirmed is gone or pending. -/
theorem gone_iff (hle : w.getDepthInMainChain wtx ≤ 0) : w.Gone wtx ↔ w.Pending wtx = false := by
  rw [Gone, Conflicted, Pending, Bool.or_eq_true, Bool.and_eq_false_iff, decide_eq_true_eq,
    decide_eq_false_iff_not, Bool.not_eq_false', or_comm]
  exact or_congr_left (by omega)

/-- `AbandonTransaction` abandons the pending transactions that it gets to. All descendants are then
abandoned or conflicted if and only if it gets to those that are pending. -/
theorem abandonTransaction_spec (hw : w.Recorded) (ht : w.mapWallet[t]? = some wtx)
    (hdesc : ∀ h x, TransGen w.Spends t h → w.mapWallet[h]? = some x →
      w.getDepthInMainChain x ≤ 0 ∧ x.fInMempool = false) :
    Returns (w.abandonTransaction t) fun r => r.1 →
      ((∀ h, ReflTransGen w.Spends t h → r.2.has r.2.Gone h) ↔
        w.Covers w.Pending t w.Spends) := by
  unfold abandonTransaction
  rw [ht]
  refine .ite (fun _ => nofun) fun horig => ?_
  rw [not_or, not_not, Bool.not_eq_true] at horig
  -- What the loop looks at was neither confirmed nor in the memory pool, so no assertion fails.
  have hreached : ∀ h x, ReflTransGen w.Spends t h → w.mapWallet[h]? = some x →
      w.getDepthInMainChain x ≤ 0 ∧ x.fInMempool = false := by
    intro h x hreach hx
    rcases reflTransGen_iff_eq_or_transGen.mp hreach with rfl | htrans
    · cases ht.symm.trans hx
      exact ⟨horig.1.le, horig.2⟩
    · exact hdesc h x htrans hx
  refine (spread_spec w.Pending hw ht fun h x hreach hx => ?_).bind fun w' hs _ =>
    ⟨fun hgone h hreach hpending => ?_, fun hall h hreach => ?_⟩
  · obtain ⟨hle, hpool⟩ := hreached h x (spends_of_reached hw hreach) hx
    rw [checkAbandon, if_neg (not_lt.mpr hle), hpool]
    cases w.Pending x <;> rfl
  · -- A pending transaction that the loop does not get to is pending afterwards.
    obtain ⟨x, hx, hact⟩ := has_iff.mp hpending
    rcases hs.cases hx with ⟨hcond, -⟩ | ⟨-, heq⟩
    · exact hcond.1
    · obtain ⟨x', hx', hgone'⟩ := has_iff.mp (hgone h hreach)
      cases heq.symm.trans hx'
      rw [hs.gone_eq, gone_iff (hreached h x hreach hx).1] at hgone'
      cases hact.symm.trans hgone'
  · obtain ⟨x, hx⟩ := mem_of_spends ht hreach
    rcases hs.cases hx with ⟨-, heq⟩ | ⟨hnot, heq⟩
    · exact has_iff.mpr ⟨_, heq, rfl⟩
    · refine has_iff.mpr ⟨x, heq, ?_⟩
      rw [hs.gone_eq, gone_iff (hreached h x hreach hx).1, Bool.eq_false_iff]
      exact fun hact => hnot ⟨hall h hreach (has_iff.mpr ⟨x, hx, hact⟩), hact⟩

/-- Conflicts and abandonment, for a wallet that records its spenders. `MarkConflicted` with a block
of the processed chain marks the transaction and keeps spenders at least as deeply conflicted as
what they spend, and `AbandonTransaction` leaves no descendant pending, exactly when the
transactions to change are reached through the first recorded spenders of outputs. -/
theorem spread_reaches_iff (w : CWallet) (hw : w.Recorded) (t : Uint256) (wtx : CWalletTx)
    (ht : w.mapWallet[t]? = some wtx) :
    (∀ hashBlock height, height ≤ w.m_last_block_processed_height → w.Deepens →
      ∃ w', w.markConflicted hashBlock height t = .ok w' ∧ w'.has w'.Conflicted t ∧
        (w'.Deepens ↔ w.Covers (w.Shallower height) t (w.DeepensTo height))) ∧
    ((∀ h x, TransGen w.Spends t h → w.mapWallet[h]? = some x →
        w.getDepthInMainChain x ≤ 0 ∧ x.fInMempool = false) →
      ∃ b w', w.abandonTransaction t = .ok (b, w') ∧ (b →
        ((∀ h, ReflTransGen w.Spends t h → w'.has w'.Gone h) ↔
          w.Covers w.Pending t w.Spends))) := by
  constructor
  · intro hashBlock height hheight hdeep
    exact (markConflicted_spec hw ht hashBlock hheight hdeep).exists_ok
  · intro hdesc
    obtain ⟨⟨b, w'⟩, hok, hiff⟩ := (abandonTransaction_spec hw ht hdesc).exists_ok
    exact ⟨b, w', hok, hiff⟩

/-- A transaction with one output that spends first outputs. -/
def spendTx (hash : Uint256) (prevs : List Uint256) : CWalletTx where
  tx := ⟨prevs.map fun prev => ⟨⟨prev, 0⟩, [], 0, []⟩, [⟨1, []⟩], 2, 0, none, false, hash, hash⟩

/-- Two transactions spend the output of another one. -/
def doubleSpend : CWallet :=
  ((({ m_last_block_processed_height := 5 } : CWallet).insertNew 1 (spendTx 1 [])).insertNew 2
    (spendTx 2 [1])).insertNew 3 (spendTx 3 [1])

theorem doubleSpend_recorded : doubleSpend.Recorded :=
  (((recorded_empty 5).insertNew (by simp)).insertNew (by decide +kernel)).insertNew
    (by decide +kernel)

theorem doubleSpend_getElem? (h : Uint256) :
    doubleSpend.mapWallet[h]? = if 3 = h then some (spendTx 3 [1]) else
      if 2 = h then some (spendTx 2 [1]) else if 1 = h then some (spendTx 1 []) else none := by
  simp only [doubleSpend, insertNew, addToSpends, apply_ite mapWallet, ite_self,
    StdMap.getElem?_insert, Std.ExtTreeMap.getElem?_empty]

theorem doubleSpend_pending (h : Uint256) (x : CWalletTx)
    (hx : doubleSpend.mapWallet[h]? = some x) :
    doubleSpend.getDepthInMainChain x = 0 ∧ x.fInMempool = false := by
  rw [doubleSpend_getElem?] at hx
  split_ifs at hx <;> cases hx <;> exact ⟨rfl, rfl⟩

theorem doubleSpend_deepens : doubleSpend.Deepens := by
  intro h h' x y hx _ _ hneg
  exact absurd (doubleSpend_pending h x hx).1 hneg.ne

/-- The first spender of the output is changed with the transaction, the second one is not. -/
theorem doubleSpend_passedOver :
    doubleSpend.Recorded ∧ doubleSpend.Deepens ∧ doubleSpend.Spends 1 3 ∧
      (∀ (h : Uint256) x, doubleSpend.mapWallet[h]? = some x →
        doubleSpend.getDepthInMainChain x = 0 ∧ x.fInMempool = false) ∧
      (∃ w', doubleSpend.markConflicted 7 5 1 = .ok w' ∧ ¬ w'.Deepens) ∧
      ∃ w', doubleSpend.abandonTransaction 1 = .ok (true, w') ∧ w'.has w'.Gone 3 = false := by
  have hspends : doubleSpend.Spends 1 3 := by
    unfold Spends
    decide +kernel
  have hmark : Returns (doubleSpend.markConflicted 7 5 1) fun w' => w'.has w'.Conflicted 1 ∧
      w'.has w'.Conflicted 3 = false ∧
      w'.has (fun wtx => wtx.getOutputs.any (w'.SpendsOutput · 3)) 1 = true := by decide +kernel
  have habandon : Returns (doubleSpend.abandonTransaction 1) fun r =>
      r.1 ∧ r.2.has r.2.Gone 3 = false := by decide +kernel
  refine ⟨doubleSpend_recorded, doubleSpend_deepens, hspends, doubleSpend_pending, ?_, ?_⟩
  · obtain ⟨w', hrun, hfirst, hsecond, hspent⟩ := hmark.exists_ok
    exact ⟨w', hrun, fun hd => nomatch hsecond.symm.trans (hd.conflicted hspent hfirst)⟩
  · obtain ⟨⟨b, w'⟩, hrun, rfl, hgone⟩ := habandon.exists_ok
    exact ⟨w', hrun, hgone⟩

/-- The outcome of both for a transaction with a rival. -/
theorem spread_reaches_iff_doubleSpend :
    (∃ w', doubleSpend.markConflicted 7 5 1 = .ok w' ∧ w'.has w'.Conflicted 1 ∧
      (w'.Deepens ↔
        doubleSpend.Covers (doubleSpend.Shallower 5) 1 (doubleSpend.DeepensTo 5))) ∧
    ∃ b w', doubleSpend.abandonTransaction 1 = .ok (b, w') ∧ (b →
      ((∀ h, ReflTransGen doubleSpend.Spends 1 h → w'.has w'.Gone h) ↔
        doubleSpend.Covers doubleSpend.Pending 1 doubleSpend.Spends)) := by
  have h := spread_reaches_iff doubleSpend doubleSpend_recorded 1 _ (doubleSpend_getElem? 1)
  refine ⟨h.1 7 5 (by decide) doubleSpend_deepens, h.2 fun k x _ hx => ?_⟩
  exact (doubleSpend_pending k x hx).imp_left le_of_eq

end CWallet

end DefcoinCore.Wallet
