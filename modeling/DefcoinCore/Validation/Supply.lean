import DefcoinCore.Lib.Total
import DefcoinCore.Validation.ConnectBlock

/-!
# No inflation

The coins that a chain of blocks leaves are worth at most the subsidies of its blocks, which are at
most `MAX_MONEY`. A transaction takes away what its inputs are worth and adds at most what its
outputs are worth, so with the fees set apart no money is made but by coinbases, and a coinbase is
worth at most the fees and the subsidy of its block. On the way no sum of amounts leaves the range
of `int64_t`.

A log of the outpoints that the transactions create and spend shows what is never spent twice: a
coin. The outpoint itself can be, after a second transaction with the same id has created it anew.
The rule against overwriting allows that once all outputs of the first are spent, so two equal
coinbases will do it.
-/

namespace DefcoinCore

open List CTransaction Bool

/-! ## Subsidies -/

variable {tx : CTransaction} {params : ConnectParams} {ctx : BlockContext} {V : CoinMap}
  {nHeight : Nat}

theorem getBlockSubsidy_nonneg (interval nHeight : Nat) : 0 ≤ getBlockSubsidy interval nHeight := by
  unfold getBlockSubsidy
  dsimp only
  split_ifs
  · exact le_refl 0
  · exact Int.ediv_nonneg (by decide) (by positivity)

/-- The subsidy is at most a truncated halving. -/
theorem getBlockSubsidy_le (interval nHeight : Nat) :
    getBlockSubsidy interval nHeight ≤ ((5000000000 / 2 ^ (nHeight / interval) : Nat) : Int) := by
  unfold getBlockSubsidy
  dsimp only
  split_ifs
  · exact Int.natCast_nonneg _
  · exact le_of_eq rfl

/-- The sum over heights of what depends on the halving: every halving counts for a whole interval.
-/
theorem sum_div_interval (f : Nat → Int) {interval : Nat} (hpos : 0 < interval) (q : Nat) :
    ∑ h ∈ Finset.range (interval * q), f (h / interval) = interval * ∑ k ∈ Finset.range q, f k := by
  induction q with
  | zero => simp
  | succ q ih =>
    have hlast : ∑ i ∈ Finset.range interval,
        f ((interval * q + i) / interval) = interval * f q := by
      rw [Finset.sum_congr rfl fun i hi => by
        rw [Nat.mul_add_div hpos, Nat.div_eq_of_lt (Finset.mem_range.mp hi), Nat.add_zero],
        Finset.sum_const, Finset.card_range, nsmul_eq_mul]
    rw [Nat.mul_succ, Finset.sum_range_add, ih, hlast, Finset.sum_range_succ, mul_add]

/-- All subsidies together are at most `MAX_MONEY`. -/
theorem sum_getBlockSubsidy_le (n : Nat) :
    ∑ h ∈ Finset.range n, getBlockSubsidy 840000 h ≤ maxMoney := by
  have hgeom : ∑ k ∈ Finset.range n, 5000000000 / 2 ^ k ≤ 5000000000 * 2 / (2 - 1) :=
    Nat.geom_sum_le le_rfl 5000000000 n
  calc ∑ h ∈ Finset.range n, getBlockSubsidy 840000 h
      ≤ ∑ h ∈ Finset.range (840000 * n), getBlockSubsidy 840000 h :=
        Finset.sum_le_sum_of_subset_of_nonneg (Finset.range_mono (by omega))
          fun h _ _ => getBlockSubsidy_nonneg 840000 h
    _ ≤ ∑ h ∈ Finset.range (840000 * n), ((5000000000 / 2 ^ (h / 840000) : Nat) : Int) :=
        Finset.sum_le_sum fun h _ => getBlockSubsidy_le 840000 h
    _ = 840000 * ∑ k ∈ Finset.range n, ((5000000000 / 2 ^ k : Nat) : Int) :=
        sum_div_interval (fun k => ((5000000000 / 2 ^ k : Nat) : Int)) (by decide) n
    _ ≤ 840000 * ((5000000000 * 2 / (2 - 1) : Nat) : Int) := by
        rw [← Nat.cast_sum]
        exact mul_le_mul_of_nonneg_left (Int.ofNat_le.mpr hgeom) (by decide)
    _ = maxMoney := by decide

/-! ## What passed `CheckBlock` -/

/-- What the outputs of a transaction are worth. -/
def CTransaction.valueOut (tx : CTransaction) : Int := (tx.vout.map (·.nValue)).sum

/-- What `CheckBlock` makes sure of about a transaction. -/
structure CTransaction.Checked (tx : CTransaction) : Prop where
  outputs : checkOutputs 0 tx.vout = .ok ()
  inputs_nodup : (tx.vin.map (·.prevout)).Nodup
  noMweb : tx.mweb_tx = none

theorem CTransaction.Checked.spent_nodup (h : tx.Checked) : tx.spentOutPoints.Nodup := by
  unfold spentOutPoints
  split_ifs
  · exact nodup_nil
  · exact h.inputs_nodup

/-- The block has passed `CheckBlock`. -/
def BlockContext.Accepted (params : ConnectParams) (ctx : BlockContext) : Prop :=
  ∃ block', checkBlock params.toConsensusParams true true { ctx.block with fChecked := false } =
    .ok block'

/-- A block that passed has a coinbase first and nowhere else, and transactions that passed. -/
theorem BlockContext.Accepted.spec (h : ctx.Accepted params) :
    (∃ coinbase txs, ctx.block.vtx = coinbase :: txs ∧ coinbase.isCoinBase ∧
      ∀ tx ∈ txs, tx.isCoinBase = false) ∧ ∀ tx ∈ ctx.block.vtx, tx.Checked := by
  obtain ⟨block', hok⟩ := h
  obtain ⟨hcommitted, -, hmweb⟩ := checkBlock_eq_ok rfl hok
  obtain ⟨⟨-, -, -, -, hcoinbase⟩, htxs⟩ := (checkCommitted_eq_ok_iff ..).mp hcommitted
  refine ⟨?_, fun tx htx => ?_⟩
  · rw [checkCoinbase, seq_eq_ok_iff, reject_eq_ok_iff, reject_eq_ok_iff] at hcoinbase
    rcases hvtx : ctx.block.vtx with _ | ⟨coinbase, txs⟩
    · rw [hvtx] at hcoinbase
      exact absurd hcoinbase.1 (by decide)
    · rw [hvtx] at hcoinbase
      refine ⟨coinbase, txs, rfl, by simpa using hcoinbase.1, ?_⟩
      simpa using hcoinbase.2
  · have hchecked := htxs tx htx
    rw [checkTransaction, seq_eq_ok_iff, seq_eq_ok_iff, seq_eq_ok_iff, seq_eq_ok_iff] at hchecked
    obtain ⟨-, -, -, houtputs, hinputs⟩ := hchecked
    rw [checkInputs, seq_eq_ok_iff, reject_eq_ok_iff] at hinputs
    exact ⟨houtputs, by simpa using hinputs.1, by simpa [hasMWEBTx] using hmweb tx htx⟩

/-! ## Sums in range -/

/-- No sum leaves the range of `int64_t`. -/
def NoOverflow {Result : Type} (e : Fault Result) : Prop := e ≠ .overflow

theorem toAmount_eq {Result : Type} {value : Int} (h : -maxMoney ≤ value)
    (h' : value ≤ 2 * maxMoney) :
    toAmount value = (.ok value : Except (Fault Result) Int) := by
  have hmax : maxMoney = 8400000000000000 := rfl
  rw [toAmount, if_pos]
  constructor <;> omega

/-- Outputs that passed `CheckTransaction` are in range, alone and together. -/
theorem checkOutputs_spec {n : Int} {vout : List CTxOut} (hn : 0 ≤ n ∧ n ≤ maxMoney)
    (h : checkOutputs n vout = .ok ()) :
    (∀ out ∈ vout, 0 ≤ out.nValue ∧ out.nValue ≤ maxMoney) ∧
      n + (vout.map (·.nValue)).sum ≤ maxMoney ∧
      ∀ Result, sumOutputs n vout =
        (.ok (n + (vout.map (·.nValue)).sum) : Except (Fault Result) Int) := by
  induction vout generalizing n with
  | nil =>
    refine ⟨fun out hout => absurd hout not_mem_nil, by simpa using hn.2, fun Result => ?_⟩
    unfold sumOutputs
    rw [(moneyRange_iff n).mpr hn]
    simp [reject, bind, Except.bind, pure, Except.pure]
  | cons out vout ih =>
    unfold checkOutputs at h
    simp only [seq_eq_ok_iff, reject_eq_ok_iff, decide_eq_false_iff_not, not_lt, not_eq_false',
      moneyRange_iff] at h
    obtain ⟨hlow, hhigh, hsum, hrest⟩ := h
    have hout : moneyRange out.nValue := (moneyRange_iff _).mpr ⟨hlow, by omega⟩
    have hrange : moneyRange (n + out.nValue) := (moneyRange_iff _).mpr hsum
    obtain ⟨hall, htotal, hloop⟩ := ih hsum hrest
    rw [map_cons, sum_cons, ← add_assoc]
    refine ⟨forall_mem_cons.mpr ⟨⟨hlow, by omega⟩, hall⟩, htotal, fun Result => ?_⟩
    unfold sumOutputs
    rw [hout, toAmount_eq (by omega) (by omega), ok_bind, hrange]
    exact hloop Result

section Checked

variable {tx : CTransaction} (htx : tx.Checked)

include htx

theorem CTransaction.Checked.values : ∀ out ∈ tx.vout, 0 ≤ out.nValue ∧ out.nValue ≤ maxMoney :=
  (checkOutputs_spec ⟨le_rfl, by decide⟩ htx.outputs).1

theorem CTransaction.Checked.getValueOut_eq (Result : Type) :
    tx.getValueOut = (.ok tx.valueOut : Except (Fault Result) Int) := by
  have h := (checkOutputs_spec ⟨le_rfl, by decide⟩ htx.outputs).2.2 Result
  rw [zero_add] at h
  exact h

theorem CTransaction.Checked.valueOut_range : 0 ≤ tx.valueOut ∧ tx.valueOut ≤ maxMoney := by
  have h := (checkOutputs_spec ⟨le_rfl, by decide⟩ htx.outputs).2.1
  rw [zero_add] at h
  exact ⟨sum_nonneg (forall_mem_map.mpr fun out hout => (htx.values out hout).1), h⟩

end Checked

/-! ## One transaction -/

/-- What a coin is worth. -/
def coinValue (c : Coin) : Int := c.out.nValue

/-- All coins have a value in range. -/
def CoinsInRange (V : CoinMap) : Prop :=
  ∀ o coin, V o = some coin → 0 ≤ coin.out.nValue ∧ coin.out.nValue ≤ maxMoney

theorem CoinsInRange.nonneg (h : CoinsInRange V) : Nonneg coinValue V :=
  fun o coin ho => (h o coin ho).1

/-- What the inputs of a transaction are worth. -/
def valueIn (V : CoinMap) (vin : List CTxIn) : Int :=
  (vin.map fun txin => weightAt coinValue (V txin.prevout)).sum

/-- The loop over the inputs finds every coin and adds the values up. -/
theorem sumInputs_spec (hV : CoinsInRange V) (nSpendHeight : Nat) {n : Int}
    (hn : 0 ≤ n ∧ n ≤ maxMoney) (vin : List CTxIn) :
    Ensures (sumInputs V nSpendHeight n vin)
      (fun r => (∀ txin ∈ vin, (V txin.prevout).isSome) ∧ r = n + valueIn V vin ∧
        0 ≤ r ∧ r ≤ maxMoney) NoOverflow := by
  induction vin generalizing n with
  | nil =>
    refine ⟨fun txin h => absurd h not_mem_nil, ?_, hn⟩
    simp [valueIn]
  | cons txin vin ih =>
    unfold sumInputs
    cases hcoin : V txin.prevout with
    | none => exact nofun
    | some c =>
      have hvalue := hV _ c hcoin
      refine (Ensures.reject fun _ => nofun).bind fun _ _ => ?_
      refine (Ensures.reject fun _ => nofun).bind fun _ _ => ?_
      rw [toAmount_eq (by omega) (by omega), ok_bind]
      refine (Ensures.reject fun _ => nofun).bind fun _ hrange => ?_
      rw [or_eq_false_iff, not_eq_false', not_eq_false', moneyRange_iff,
        moneyRange_iff] at hrange
      refine (ih hrange.2).imp fun r hr => ?_
      obtain ⟨hsome, hsum, hr⟩ := hr
      have hcons : valueIn V (txin :: vin) = c.out.nValue + valueIn V vin := by
        rw [valueIn, map_cons, sum_cons, hcoin]
        rfl
      refine ⟨forall_mem_cons.mpr ⟨by rw [hcoin]; rfl, hsome⟩, by omega, hr⟩

/-- The fee is the difference between inputs and outputs. -/
theorem checkTxInputs_spec (hV : CoinsInRange V) (htx : tx.Checked) (frozen : List Uint256)
    (getMWEBCoin : Mweb.Hash → Option Mweb.Output) (nSpendHeight : Nat) :
    Ensures (checkTxInputs frozen getMWEBCoin V nSpendHeight tx)
      (fun fee => (∀ txin ∈ tx.vin, (V txin.prevout).isSome) ∧
        fee = valueIn V tx.vin - tx.valueOut ∧
        0 ≤ fee ∧ fee ≤ maxMoney) NoOverflow := by
  refine (Ensures.reject fun _ => nofun).bind fun _ _ => ?_
  refine (sumInputs_spec hV nSpendHeight ⟨le_rfl, by decide⟩ tx.vin).bind fun nValueIn hin => ?_
  obtain ⟨hsome, hsum, hrange⟩ := hin
  have hout := htx.valueOut_range
  rw [htx.getValueOut_eq, ok_bind]
  refine (Ensures.reject fun _ => nofun).bind fun _ _ => ?_
  rw [toAmount_eq (by omega) (by omega), ok_bind]
  refine (Ensures.reject fun _ => nofun).bind fun _ hfee => ?_
  rw [not_eq_false', moneyRange_iff] at hfee
  rw [htx.noMweb]
  exact ⟨hsome, by omega, hfee⟩

/-- The coins that a transaction adds are worth at most its outputs. -/
theorem sum_spendableCoins_le (htx : tx.Checked) (nHeight : Nat) :
    ((tx.spendableCoins nHeight).map fun p => coinValue p.2).sum ≤ tx.valueOut := by
  have hall : (tx.newCoins nHeight).map (fun p => coinValue p.2) = tx.vout.map (·.nValue) := by
    rw [newCoins, map_map]
    calc tx.vout.zipIdx.map ((fun p => coinValue p.2) ∘ tx.newCoin nHeight)
        = (tx.vout.zipIdx.map Prod.fst).map (·.nValue) := by rw [map_map]; rfl
      _ = tx.vout.map (·.nValue) := by rw [zipIdx_map_fst]
  rw [valueOut, ← hall]
  refine List.Sublist.sum_le_sum (filter_sublist.map _) fun v hv => ?_
  rw [hall] at hv
  obtain ⟨out, hout, rfl⟩ := mem_map.mp hv
  exact (htx.values out hout).1

/-- The coins that a transaction adds have values in range. -/
theorem values_spendableCoins (htx : tx.Checked) {p : COutPoint × Coin}
    (hp : p ∈ tx.spendableCoins nHeight) :
    0 ≤ p.2.out.nValue ∧ p.2.out.nValue ≤ maxMoney := by
  obtain ⟨i, out, hout, rfl⟩ := mem_newCoins (mem_filter.mp hp).1
  exact htx.values out hout

/-- What a transaction does to the money: the coins are worth less by what its inputs were worth,
and more by at most what its outputs are worth. -/
theorem plainUpdate_spec (hV : CoinsInRange V) (hfin : (keySet V).Finite) (htx : tx.Checked)
    (nHeight : Nat) :
    (keySet (plainUpdate nHeight V tx)).Finite ∧ CoinsInRange (plainUpdate nHeight V tx) ∧
      total coinValue (plainUpdate nHeight V tx) ≤ total coinValue V -
        (tx.spentOutPoints.map fun o => weightAt coinValue (V o)).sum + tx.valueOut := by
  have herased : CoinsInRange (eraseAll V tx.spentOutPoints) := by
    intro o coin ho
    rw [eraseAll_apply] at ho
    split_ifs at ho
    exact hV o coin ho
  have hfin' := finite_eraseAll hfin tx.spentOutPoints
  refine ⟨finite_insertAll hfin' _, fun o coin ho => ?_, ?_⟩
  · rcases insertAll_eq_some ho with hold | hnew
    · exact herased o coin hold
    · exact values_spendableCoins htx hnew
  · calc total coinValue (plainUpdate nHeight V tx)
        ≤ total coinValue (eraseAll V tx.spentOutPoints) +
            ((tx.spendableCoins nHeight).map fun p => coinValue p.2).sum :=
          total_insertAll_le hfin' herased.nonneg fun p hp => (values_spendableCoins htx hp).1
      _ ≤ total coinValue (eraseAll V tx.spentOutPoints) + tx.valueOut :=
          add_le_add_right (sum_spendableCoins_le htx nHeight) _
      _ = total coinValue V - (tx.spentOutPoints.map fun o => weightAt coinValue (V o)).sum +
            tx.valueOut := by rw [total_eraseAll hfin htx.spent_nodup]

/-! ## The log -/

/-- What a transaction writes to the log of outpoints. -/
def CTransaction.log (nHeight : Nat) (tx : CTransaction) : List (LogEvent COutPoint) :=
  tx.spentOutPoints.map .spend ++ (tx.spendableCoins nHeight).map fun p => .create p.1

/-- What a block writes to the log. -/
def BlockContext.log (params : ConnectParams) (nHeight : Nat) (ctx : BlockContext) :
    List (LogEvent COutPoint) :=
  if ctx.hash = params.hashGenesisBlock then [] else ctx.block.vtx.flatMap
    (CTransaction.log nHeight)

/-- The log of a chain. -/
def chainLog (params : ConnectParams) (chain : List BlockContext) : List (LogEvent COutPoint) :=
  chain.zipIdx.flatMap fun p => p.1.log params p.2

/-- What is known about the coins: there are finitely many, with values in range, worth at most a
bound, and their history is in the log. -/
structure CoinsAccount (bound : Int) (log : List (LogEvent COutPoint)) (V : CoinMap) : Prop where
  finite : (keySet V).Finite
  inRange : CoinsInRange V
  total_le : total coinValue V ≤ bound
  tells : Log.Tells log V

/-! ## One block -/

/-- What the coinbases among transactions are worth. -/
def coinbaseValue (txs : List CTransaction) : Int :=
  ((txs.filter (·.isCoinBase)).map CTransaction.valueOut).sum

theorem coinbaseValue_append (txs : List CTransaction) (tx : CTransaction) :
    coinbaseValue (txs ++ [tx]) = coinbaseValue txs + if tx.isCoinBase then tx.valueOut else 0 := by
  unfold coinbaseValue
  rw [filter_append, map_append, sum_append]
  split_ifs with h
  · rw [filter_cons_of_pos h]
    simp
  · rw [filter_cons_of_neg h]
    simp

section Block

variable {params : ConnectParams} {ctx : BlockContext} {nHeight : Nat} {bound : Int}
  {log : List (LogEvent COutPoint)}

/-- The fees so far are set apart from the money that the block may leave. -/
structure LoopAccount (nHeight : Nat) (bound : Int) (log : List (LogEvent COutPoint))
    (done : List CTransaction) (s : ConnectState) : Prop where
  coins : CoinsAccount (bound + coinbaseValue done - s.nFees)
    (log ++ done.flatMap (CTransaction.log nHeight)) s.view
  fees : 0 ≤ s.nFees ∧ s.nFees ≤ maxMoney

variable {tx : CTransaction} {s : ConnectState}

/-- The money of a transaction: its fee is added to the fees, and nothing overflows. -/
theorem addFee_spec (hs : CoinsInRange s.view) (hfees : 0 ≤ s.nFees ∧ s.nFees ≤ maxMoney)
    (htx : tx.Checked) :
    Ensures (addFee params ctx nHeight s tx)
      (fun nFees => (∀ o ∈ tx.spentOutPoints, (s.view o).isSome) ∧ (0 ≤ nFees ∧ nFees ≤ maxMoney) ∧
        nFees = s.nFees + (tx.spentOutPoints.map fun o => weightAt coinValue (s.view o)).sum -
          if tx.isCoinBase then 0 else tx.valueOut) NoOverflow := by
  unfold addFee spentOutPoints
  cases hcb : tx.isCoinBase with
  | true => exact ⟨fun o ho => absurd ho not_mem_nil, hfees, by simp⟩
  | false =>
    rw [if_neg Bool.false_ne_true, if_neg Bool.false_ne_true, if_neg Bool.false_ne_true]
    have hinputs := checkTxInputs_spec hs htx params.frozen_mweb_output_ids ctx.getMWEBCoin nHeight
    refine (Ensures.mapError (F := NoOverflow) (hinputs.mono (fun _ h => h) ?_)).bind
      fun txfee hfee => ?_
    · intro e he
      cases e with
      | overflow => exact absurd rfl he
      | _ => exact nofun
    · obtain ⟨hsome, heq, hrange⟩ := hfee
      rw [toAmount_eq (by omega) (by omega), ok_bind]
      refine (Ensures.reject fun _ => nofun).bind fun _ hsum => ?_
      rw [not_eq_false', moneyRange_iff] at hsum
      refine (Ensures.reject fun _ => nofun).bind fun _ _ => ?_
      refine ⟨forall_mem_map.mpr hsome, hsum, ?_⟩
      rw [map_map]
      show s.nFees + txfee = s.nFees + valueIn s.view tx.vin - tx.valueOut
      omega

/-- What one round of the loop does. -/
theorem connectTx_ensures (hs : CoinsInRange s.view) (hfees : 0 ≤ s.nFees ∧ s.nFees ≤ maxMoney)
    (htx : tx.Checked) :
    Ensures (connectTx params ctx nHeight s tx)
      (fun s' => s'.view = plainUpdate nHeight s.view tx ∧
        (∀ o ∈ tx.spentOutPoints, (s.view o).isSome) ∧
        (0 ≤ s'.nFees ∧ s'.nFees ≤ maxMoney) ∧
        s'.nFees = s.nFees + (tx.spentOutPoints.map fun o => weightAt coinValue (s.view o)).sum -
          if tx.isCoinBase then 0 else tx.valueOut) NoOverflow := by
  refine (addFee_spec hs hfees htx).bind fun nFees hfee => ?_
  refine (Ensures.reject fun _ => nofun).bind fun _ _ => ?_
  have hscripts : Ensures (checkScripts ctx s.view tx) (fun _ => True) NoOverflow := by
    unfold checkScripts
    split_ifs
    · trivial
    · rcases ctx.checkInputScripts s.view tx with e | u
      · exact nofun
      · trivial
  exact hscripts.bind fun _ _ => ⟨rfl, hfee⟩

/-- One round of the loop keeps the account. -/
theorem connectTx_spec {done : List CTransaction} (hs : LoopAccount nHeight bound log done s)
    (htx : tx.Checked) :
    Ensures (connectTx params ctx nHeight s tx) (LoopAccount nHeight bound log (done ++ [tx]))
      NoOverflow := by
  refine (connectTx_ensures hs.coins.inRange hs.fees htx).imp fun s' hs' => ?_
  obtain ⟨hview, hsome, hrange, heq⟩ := hs'
  obtain ⟨hfin, hvalues, htotal⟩ := plainUpdate_spec hs.coins.inRange hs.coins.finite htx nHeight
  rw [← hview] at hfin hvalues htotal
  refine ⟨⟨hfin, hvalues, ?_, ?_⟩, hrange⟩
  · have hle := hs.coins.total_le
    rw [coinbaseValue_append]
    split_ifs at heq ⊢ with hcb
    · omega
    · omega
  · rw [flatMap_append, ← append_assoc, flatMap_singleton, hview]
    have hstep := (hs.coins.tells.spendAll htx.spent_nodup hsome).createAll
      (tx.spendableCoins nHeight)
    rwa [append_assoc] at hstep

/-- The check of the reward. -/
theorem checkReward_spec {nFees : Int} (hfees : 0 ≤ nFees ∧ nFees ≤ maxMoney)
    {coinbase : CTransaction} (hcb : coinbase.Checked) (txs : List CTransaction) :
    Ensures (checkReward params nHeight nFees (coinbase :: txs))
      (fun _ => coinbase.valueOut ≤ nFees + getBlockSubsidy params.nSubsidyHalvingInterval nHeight)
      NoOverflow := by
  have hlow := getBlockSubsidy_nonneg params.nSubsidyHalvingInterval nHeight
  have hhigh : getBlockSubsidy params.nSubsidyHalvingInterval nHeight ≤ maxMoney := by
    refine (getBlockSubsidy_le _ _).trans ((Int.ofNat_le.mpr (Nat.div_le_self _ _)).trans ?_)
    decide
  unfold checkReward
  dsimp only
  rw [toAmount_eq (by omega) (by omega), ok_bind, hcb.getValueOut_eq, ok_bind]
  exact (Ensures.reject fun _ => nofun).imp fun _ h => not_lt.mp (of_decide_eq_false h)

theorem coinsAccount_empty : CoinsAccount 0 [] fun _ => none :=
  ⟨Set.finite_empty.subset nofun, nofun, total_empty.le, Log.tells_empty⟩

/-- A block adds at most its subsidy. -/
theorem connectBlock_spec {V : CoinMap} (hV : CoinsAccount bound log V)
    (hctx : ctx.Accepted params) :
    Ensures (connectBlock params nHeight V ctx)
      (CoinsAccount (bound + getBlockSubsidy params.nSubsidyHalvingInterval nHeight)
        (log ++ ctx.log params nHeight)) NoOverflow := by
  obtain ⟨⟨coinbase, txs, hvtx, hcb, htxs⟩, hchecked⟩ := hctx.spec
  have hrecheck : Ensures (recheckBlock params ctx.block) (fun _ => True) NoOverflow := by
    unfold recheckBlock
    split
    · trivial
    · split_ifs
      · exact nofun
      · exact nofun
  unfold connectBlock BlockContext.log
  refine hrecheck.bind fun _ _ => ?_
  split_ifs with hgenesis
  · have hsubsidy := getBlockSubsidy_nonneg params.nSubsidyHalvingInterval nHeight
    rw [append_nil]
    exact ⟨hV.finite, hV.inRange, by have := hV.total_le; omega, hV.tells⟩
  · refine (Ensures.reject fun _ => nofun).bind fun _ _ => ?_
    have hbip30 : Ensures (checkBIP30 params ctx V) (fun _ => True) NoOverflow :=
      (Ensures.reject fun _ => nofun).forget
    refine hbip30.bind fun _ _ => ?_
    have hstart : LoopAccount nHeight bound log [] ⟨V, 0, 0⟩ := by
      refine ⟨?_, le_refl (0 : Int), (by decide : (0 : Int) ≤ maxMoney)⟩
      simpa [coinbaseValue] using hV
    refine (Ensures.foldlM ctx.block.vtx
      (fun done s tx htx hs => connectTx_spec hs (hchecked tx htx)) hstart).bind fun s hs => ?_
    rw [hvtx]
    refine (checkReward_spec hs.fees (hchecked coinbase (hvtx ▸ mem_cons_self)) txs).bind
      fun _ hreward => ?_
    refine (Ensures.reject fun _ => nofun).bind fun _ _ => ?_
    rcases ctx.mwebConnectBlock with e | u
    · exact nofun
    -- The first transaction is the only coinbase.
    have honly : coinbaseValue ctx.block.vtx = coinbase.valueOut := by
      unfold coinbaseValue
      rw [hvtx, filter_cons_of_pos hcb, filter_eq_nil_iff.mpr fun tx htx => by
        rw [htxs tx htx]; exact false_ne_true]
      simp
    have htotal := hs.coins.total_le
    rw [← hvtx]
    exact ⟨hs.coins.finite, hs.coins.inRange, by omega, hs.coins.tells⟩

end Block

/-! ## The caches follow -/

theorem txsApply_append {txs : List CTransaction} (h : TxsApply nHeight V txs)
    (htx : TxApplies nHeight (txs.foldl (plainUpdate nHeight) V) tx) :
    TxsApply nHeight V (txs ++ [tx]) := by
  induction txs generalizing V with
  | nil => exact ⟨htx, trivial⟩
  | cons tx' txs ih => exact ⟨h.1, ih h.2 htx⟩

/-- The outpoints of the coins that a transaction adds have its id, and differ. -/
theorem spendableCoins_outPoints (nHeight : Nat) (hlen : tx.vout.length ≤ 2 ^ 32) :
    (∀ p ∈ tx.spendableCoins nHeight, ∃ i < tx.vout.length, p.1 = tx.outPoint i) ∧
      ((tx.spendableCoins nHeight).map Prod.fst).Nodup := by
  have hfst : (tx.newCoins nHeight).map Prod.fst = (range tx.vout.length).map tx.outPoint := by
    rw [newCoins, map_map, range_eq_range', ← zipIdx_map_snd 0 tx.vout, map_map]
    rfl
  constructor
  · intro p hp
    have hmem : p.1 ∈ (tx.newCoins nHeight).map Prod.fst := mem_map_of_mem (mem_filter.mp hp).1
    rw [hfst] at hmem
    obtain ⟨i, hi, heq⟩ := mem_map.mp hmem
    exact ⟨i, mem_range.mp hi, heq.symm⟩
  · refine List.Nodup.sublist (filter_sublist.map Prod.fst) ?_
    rw [hfst]
    refine List.Nodup.map_on (fun i hi j hj heq => ?_) nodup_range
    rw [mem_range] at hi hj
    have hn : UInt32.ofNat i = UInt32.ofNat j := congrArg COutPoint.n heq
    have hval := congrArg UInt32.toNat hn
    have hsize : UInt32.size = 2 ^ 32 := rfl
    rw [UInt32.toNat_ofNat_of_lt' (by omega), UInt32.toNat_ofNat_of_lt' (by omega)] at hval
    exact hval

/-- What the loop has done to a plain map, as long as the ids of the transactions differ. -/
structure LoopApplies (nHeight : Nat) (V : CoinMap) (done : List CTransaction) (s : ConnectState) :
    Prop where
  view : s.view = done.foldl (plainUpdate nHeight) V
  finite : (keySet s.view).Finite
  inRange : CoinsInRange s.view
  fees : 0 ≤ s.nFees ∧ s.nFees ≤ maxMoney
  keys : ∀ o, (s.view o).isSome → (V o).isSome ∨ ∃ tx ∈ done, o.hash = tx.hash
  apply : (done.map (·.hash)).Nodup → TxsApply nHeight V done

/-- A round of the loop applies its transaction, if its outputs were free before the block. -/
theorem connectTx_applies {done : List CTransaction} {s : ConnectState}
    (hs : LoopApplies nHeight V done s) (htx : tx.Checked) (hlen : tx.vout.length ≤ 2 ^ 32)
    (hfree : ∀ i < tx.vout.length, V (tx.outPoint i) = none) :
    Ensures (connectTx params ctx nHeight s tx)
      (LoopApplies nHeight V (done ++ [tx])) NoOverflow := by
  refine (connectTx_ensures hs.inRange hs.fees htx).imp fun s' hs' => ?_
  obtain ⟨hview, hsome, hfees, -⟩ := hs'
  obtain ⟨hfin, hvalues, -⟩ := plainUpdate_spec hs.inRange hs.finite htx nHeight
  obtain ⟨houts, hnodup⟩ := spendableCoins_outPoints nHeight hlen
  rw [← hview] at hfin hvalues
  refine ⟨?_, hfin, hvalues, hfees, fun o ho => ?_, fun hids => ?_⟩
  · rw [hview, hs.view, foldl_append]
    rfl
  · rw [hview] at ho
    obtain ⟨coin, hcoin⟩ := Option.isSome_iff_exists.mp ho
    rcases insertAll_eq_some hcoin with hold | hnew
    · rw [eraseAll_apply] at hold
      split_ifs at hold
      refine (hs.keys o (by rw [hold]; rfl)).imp_right fun ⟨tx', htx', heq⟩ => ?_
      exact ⟨tx', mem_append_left _ htx', heq⟩
    · obtain ⟨i, -, heq⟩ := houts _ hnew
      exact .inr ⟨tx, by simp, congrArg COutPoint.hash heq⟩
  · rw [map_append, nodup_append] at hids
    refine txsApply_append (hs.apply hids.1) ?_
    rw [← hs.view]
    refine ⟨hsome, htx.spent_nodup, fun p hp => ?_, hnodup, htx.values⟩
    -- The outpoint was free before the block, and the transactions before have other ids.
    obtain ⟨i, hi, heq⟩ := houts p hp
    rw [eraseAll_apply, heq]
    split_ifs
    · rfl
    · rw [← Option.not_isSome_iff_eq_none]
      intro hkey
      rcases hs.keys _ hkey with h | ⟨tx', htx', hhash⟩
      · rw [hfree i hi] at h
        cases h
      · exact hids.2.2 tx'.hash (mem_map_of_mem htx') tx.hash (by simp) hhash.symm

section Applies

variable {V' : CoinMap} (hctx : ctx.Accepted params) (hgenesis : ctx.hash ≠ params.hashGenesisBlock)
  (hbip30 : ctx.bip34Ancestor ≠ some params.BIP34Hash) (hids : (ctx.block.vtx.map (·.hash)).Nodup)
  (hlen : ∀ tx ∈ ctx.block.vtx, tx.vout.length ≤ 2 ^ 32)

include hctx hgenesis hbip30 hids hlen

/-- The transactions of a block that is connected under the rule against overwriting can be applied
one after the other. -/
theorem connectBlock_txsApply (hV : CoinsInRange V) (hfin : (keySet V).Finite)
    (hok : connectBlock params nHeight V ctx = .ok V') :
    TxsApply nHeight V ctx.block.vtx ∧ V' = ctx.block.vtx.foldl (plainUpdate nHeight) V := by
  unfold connectBlock at hok
  rw [seq_eq_ok_iff, if_neg hgenesis, seq_eq_ok_iff, seq_eq_ok_iff] at hok
  obtain ⟨-, -, hfree, hok⟩ := hok
  obtain ⟨s, hloop, hok⟩ := bind_eq_ok_iff.mp hok
  rw [seq_eq_ok_iff, seq_eq_ok_iff, seq_eq_ok_iff] at hok
  obtain ⟨-, -, -, hV'⟩ := hok
  have hfree : ∀ tx ∈ ctx.block.vtx, ∀ i < tx.vout.length, V (tx.outPoint i) = none := by
    intro tx htx i hi
    rw [checkBIP30, reject_eq_ok_iff, decide_eq_true hbip30, Bool.true_and] at hfree
    have hnone := any_eq_false.mp (not_eq_true _ ▸ any_eq_false.mp hfree tx htx) i
      (mem_range.mpr hi)
    simpa using hnone
  have hstart : LoopApplies nHeight V [] ⟨V, 0, 0⟩ :=
    ⟨rfl, hfin, hV, ⟨le_refl (0 : Int), (by decide : (0 : Int) ≤ maxMoney)⟩, fun o ho => .inl ho,
      fun _ => trivial⟩
  have hs := (Ensures.foldlM ctx.block.vtx (fun done s tx htx hs =>
    connectTx_applies hs (hctx.spec.2 tx htx) (hlen tx htx) (hfree tx htx)) hstart).of_ok hloop
  refine ⟨hs.apply hids, ?_⟩
  rw [← hs.view]
  exact (Except.ok.inj hV').symm

/-- `UpdateCoins` takes a cache through such a block as `connectBlock` takes the plain map. -/
theorem updateBlock_of_connectBlock {cache : CCoinsViewCache} (hcache : cache.Valid)
    (hV : CoinsInRange cache.view) (hfin : (keySet cache.view).Finite)
    (hok : connectBlock params nHeight cache.view ctx = .ok V') :
    ∃ vtxundo cache', updateBlock nHeight ctx.block.vtx cache = .ok (vtxundo, cache') ∧
      cache'.Valid ∧
      cache'.view = V' := by
  obtain ⟨happly, hV'⟩ := connectBlock_txsApply hctx hgenesis hbip30 hids hlen hV hfin hok
  obtain ⟨⟨vtxundo, cache'⟩, hupdate, h', -⟩ :=
    (updateTxs_spec ctx.block.vtx hcache happly).exists_ok
  refine ⟨vtxundo.tail, cache', ?_, h'.valid, by rw [h'.view, hV']⟩
  unfold updateBlock
  rw [hupdate]
  rfl

end Applies

/-! ## A chain -/

theorem sum_map_zipIdx {α : Type} (f : Nat → Int) (l : List α) :
    (l.zipIdx.map fun p => f p.2).sum = ∑ h ∈ Finset.range l.length, f h := by
  have hcomp : l.zipIdx.map (fun p => f p.2) = (l.zipIdx.map Prod.snd).map f := by
    rw [map_map]
    rfl
  rw [hcomp, zipIdx_map_snd, ← range_eq_range']
  rfl

/-- No inflation: connecting a chain of blocks that passed `CheckBlock` never overflows a sum of
amounts, and when it succeeds the unspent coins are worth at most the subsidies, every value is in
range, and every spent outpoint was created before and not spent since. -/
theorem connectChain_no_inflation {params : ConnectParams}
    (hhalving : params.nSubsidyHalvingInterval = 840000) {chain : List BlockContext}
    (hchain : ∀ ctx ∈ chain, ctx.Accepted params) :
    connectChain params chain ≠ .error .overflow ∧
    ∀ V, connectChain params chain = .ok V →
      (keySet V).Finite ∧
      total coinValue V ≤ ∑ h ∈ Finset.range chain.length, getBlockSubsidy 840000 h ∧
      ∑ h ∈ Finset.range chain.length, getBlockSubsidy 840000 h ≤ maxMoney ∧
      (∀ o coin, V o = some coin → 0 ≤ coin.out.nValue ∧ coin.out.nValue ≤ maxMoney) ∧
      Log.Sound (chainLog params chain) := by
  have hrun : Ensures (connectChain params chain)
      (CoinsAccount (chain.zipIdx.map fun p => getBlockSubsidy 840000 p.2).sum
        (chainLog params chain))
      NoOverflow := by
    refine Ensures.foldlM (P := fun done =>
      CoinsAccount (done.map fun p => getBlockSubsidy 840000 p.2).sum
      (done.flatMap fun p => p.1.log params p.2)) chain.zipIdx (fun done V p hp hV => ?_)
      coinsAccount_empty
    rw [map_append, sum_append, flatMap_append, flatMap_singleton, map_singleton,
      sum_singleton, ← hhalving]
    rw [← hhalving] at hV
    exact connectBlock_spec hV (hchain p.1 (fst_mem_of_mem_zipIdx hp))
  rw [sum_map_zipIdx] at hrun
  refine ⟨fun h => hrun.of_error h rfl, fun V hV => ?_⟩
  obtain ⟨hfin, hrange, htotal, htells⟩ := hrun.of_ok hV
  exact ⟨hfin, htotal, sum_getBlockSubsidy_le chain.length, hrange, htells.sound⟩

/-! ## An outpoint that is spent twice -/

/-- Parameters of the main net, as far as they matter here, with proof of work granted. -/
def supplyParams : ConnectParams where
  toConsensusParams := sampleParams
  hashGenesisBlock := 1
  BIP34Hash := 0
  nSubsidyHalvingInterval := 840000
  frozen_mweb_output_ids := []

/-- A block of transactions, with a hash; all other checks pass. -/
def supplyBlock (hash : Uint256) (vtx : List CTransaction) : BlockContext where
  block :=
    { nVersion := 1
      hashPrevBlock := 0
      hashMerkleRoot := (blockMerkleRoot sampleParams.hash64 vtx).1
      nTime := 0
      nBits := 0
      nNonce := 0
      vtx := vtx
      fChecked := false
      mweb_block := none }
  hash := hash
  bip34Ancestor := none
  getMWEBCoin _ := none
  sequenceLocks _ _ := true
  getTransactionSigOpCost _ _ := 0
  checkInputScripts _ _ := .ok ()
  controlWait := true
  mwebConnectBlock := .ok ()

/-- A coinbase with one output. -/
def supplyCoinbase (id : Uint256) (out : CTxOut) : CTransaction :=
  ⟨[⟨⟨0, nullIndex⟩, [1, 1], 0, []⟩], [out], 1, 0, none, false, id, id⟩

/-- A coinbase that pays nothing. -/
def emptyCoinbase : CTransaction := supplyCoinbase 7 ⟨0, [opReturn]⟩

/-- A coinbase that pays 50. -/
def payingCoinbase : CTransaction := supplyCoinbase 6 ⟨50, []⟩

/-- A transaction that spends what the paying coinbase pays, to a script of its own. -/
def spendingTx (id : Uint256) : CTransaction :=
  ⟨[⟨⟨6, 0⟩, [], 0, []⟩], [⟨50, [.ofBitVec (id.setWidth 8)]⟩], 1, 0, none, false, id, id⟩

/-- From the paying coinbase on: it matures, and its output is spent. -/
def payAndSpend (id : Uint256) : List BlockContext :=
  supplyBlock 2 [payingCoinbase] :: List.replicate 99 (supplyBlock 2 [emptyCoinbase]) ++
    [supplyBlock 2 [emptyCoinbase, spendingTx id]]

/-- After the genesis block the paying coinbase is mined and spent, and then mined and spent again.
-/
def twiceChain : List BlockContext :=
  supplyBlock 1 [emptyCoinbase] :: payAndSpend 8 ++ payAndSpend 9

theorem accepted_supplyBlock : ∀ vtx ∈ [[emptyCoinbase], [payingCoinbase],
    [emptyCoinbase, spendingTx 8],
    [emptyCoinbase, spendingTx 9]], ∀ hash, (supplyBlock hash vtx).Accepted supplyParams := by
  intro vtx hvtx hash
  have htest : Returns (checkBlock sampleParams true true (supplyBlock 2 vtx).block) fun _ =>
      True := by
    revert vtx
    decide +kernel
  obtain ⟨block', hok, -⟩ := htest.exists_ok
  exact ⟨block', hok⟩

/-- A coinbase is put into an empty cache, and a hundred blocks later its coin is spent there. -/
theorem updateBlock_of_connectBlock_spending : ∃ cache vtxundo cache',
    (cache.view ⟨6, 0⟩).isSome ∧
    updateBlock 101 [emptyCoinbase, spendingTx 8] cache = .ok (vtxundo, cache') ∧ cache'.Valid ∧
      cache'.view ⟨6, 0⟩ = none ∧ (cache'.view ⟨8, 0⟩).isSome := by
  let new : CCoinsViewCache := ⟨⟨∅, 0⟩, .base ⟨∅, 0⟩⟩
  have hnew : new.view = fun _ => none := by
    show cacheView ∅ (baseView ∅) = _
    rw [cacheView_empty]
    funext o
    simp [baseView]
  obtain ⟨views, hok, hpaid, hspent, hmade⟩ := (by decide +kernel : Returns (do
      let V ← connectBlock supplyParams 1 (fun _ => none) (supplyBlock 2 [payingCoinbase])
      let V' ← connectBlock supplyParams 101 V (supplyBlock 2 [emptyCoinbase, spendingTx 8])
      return (V, V'))
    (fun views => (views.1 ⟨6, 0⟩).isSome ∧ views.2 ⟨6, 0⟩ = none ∧
      (views.2 ⟨8, 0⟩).isSome)).exists_ok
  obtain ⟨V, hV, hok⟩ := bind_eq_ok_iff.mp hok
  obtain ⟨V', hV', heq⟩ := bind_eq_ok_iff.mp hok
  obtain rfl := Except.ok.inj heq
  have hpaying := accepted_supplyBlock [payingCoinbase] (by simp) 2
  have hcoins : CoinsInRange V ∧ (keySet V).Finite := by
    generalize supplyBlock 2 [payingCoinbase] = ctx at hpaying hV
    have haccount := (connectBlock_spec coinsAccount_empty hpaying).of_ok hV
    exact ⟨haccount.inRange, haccount.finite⟩
  rw [← hnew] at hV
  obtain ⟨-, cache, -, hvalid, rfl⟩ := updateBlock_of_connectBlock hpaying (by decide) (by decide)
    (by decide) (by decide) (show new.Valid from ⟨cacheValid_empty _, trivial⟩)
    (hnew ▸ coinsAccount_empty.inRange) (hnew ▸ coinsAccount_empty.finite) hV
  obtain ⟨vtxundo, cache', hupdate, hvalid', rfl⟩ := updateBlock_of_connectBlock
    (accepted_supplyBlock [emptyCoinbase, spendingTx 8] (by simp) 2) (by decide) (by decide)
    (by decide) (by decide) hvalid hcoins.1 hcoins.2 hV'
  exact ⟨cache, vtxundo, cache', hpaid, hupdate, hvalid', hspent, hmade⟩

theorem accepted_twiceChain : ∀ ctx ∈ twiceChain, ctx.Accepted supplyParams := by
  have hpart : ∀ id ∈ ([8, 9] : List Uint256), ∀ ctx ∈ payAndSpend id,
      ctx.Accepted supplyParams := by
    intro id hid ctx hctx
    unfold payAndSpend at hctx
    rw [cons_append, mem_cons, mem_append, mem_replicate, mem_singleton] at hctx
    rcases hctx with rfl | ⟨-, rfl⟩ | rfl
    · exact accepted_supplyBlock _ (by simp) 2
    · exact accepted_supplyBlock _ (by simp) 2
    · have hcases : id = 8 ∨ id = 9 := by simpa using hid
      rcases hcases with rfl | rfl <;> exact accepted_supplyBlock _ (by simp) 2
  intro ctx hctx
  unfold twiceChain at hctx
  rw [cons_append, mem_cons, mem_append] at hctx
  rcases hctx with rfl | hctx | hctx
  · exact accepted_supplyBlock _ (by simp) 1
  · exact hpart 8 (by simp) ctx hctx
  · exact hpart 9 (by simp) ctx hctx

theorem connectChain_twiceChain : Returns (connectChain supplyParams twiceChain)
    fun V => V ⟨8, 0⟩ ≠ none ∧ V ⟨9, 0⟩ ≠ none := by
  decide +kernel

/-- A coinbase that is mined and spent twice pays no more. -/
theorem connectChain_no_inflation_twiceChain :
    ∃ V, connectChain supplyParams twiceChain = .ok V ∧ total coinValue V ≤ maxMoney := by
  obtain ⟨V, hV, -⟩ := connectChain_twiceChain.exists_ok
  obtain ⟨-, htotal, hmax, -⟩ := (connectChain_no_inflation rfl accepted_twiceChain).2 V hV
  exact ⟨V, hV, htotal.trans hmax⟩

/-- The outpoint of a coinbase that is mined twice is spent twice. -/
theorem connectChain_spends_outpoint_twice :
    (∀ ctx ∈ twiceChain, ctx.Accepted supplyParams) ∧
    (∃ V, connectChain supplyParams twiceChain = .ok V) ∧
    (chainLog supplyParams twiceChain).count (.spend ⟨6, 0⟩) = 2 := by
  refine ⟨accepted_twiceChain, ?_, by decide +kernel⟩
  obtain ⟨V, hV, -⟩ := connectChain_twiceChain.exists_ok
  exact ⟨V, hV⟩

end DefcoinCore
