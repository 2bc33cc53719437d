import DefcoinCore.Mweb.Validate

/-!
# The amounts of a body

The loops that match the pegins and pegouts of a body with coins from outside accept permutations,
and the sums of fees, pegins and supply changes are found if every running total is in range. What
is added and subtracted fits into a `CAmount`, so nothing overflows (`TxBody.amounts_spec`).
-/

namespace DefcoinCore.Mweb

open List Kernel

/-! ## Matching pegins and pegouts -/

variable {pegInCoins : List PegInCoin} {amounts : StdMap Hash Int} {body : TxBody}

variable {ε α : Type} {pegOutCoins : List PegOutCoin} {crypto : Crypto} {block : Block}
  {total r amount change : Int} {kernel : Kernel} {l : List α}

/-- A map from kernels to amounts that holds coins of different kernels. -/
structure HoldsCoins (amounts : StdMap Hash Int) (coins : List PegInCoin) : Prop where
  nodup : (coins.map (·.kernelID)).Nodup
  get : ∀ coin : PegInCoin, amounts[coin.kernelID]? = some coin.amount ↔ coin ∈ coins
  size : amounts.size = coins.length

namespace HoldsCoins

variable {coins : List PegInCoin}

theorem empty : HoldsCoins ∅ [] := ⟨nodup_nil, by simp, rfl⟩

section

variable (h : HoldsCoins amounts coins)

include h

theorem contains_iff (kernelID : Hash) :
    amounts.contains kernelID ↔ kernelID ∈ coins.map (·.kernelID) := by
  rw [← Std.ExtTreeMap.mem_iff_contains, Std.ExtTreeMap.mem_iff_isSome_getElem?,
    Option.isSome_iff_exists,
    mem_map]
  constructor
  · rintro ⟨amount, hget⟩
    exact ⟨⟨amount, kernelID⟩, (h.get _).mp hget, rfl⟩
  · rintro ⟨coin, hcoin, rfl⟩
    exact ⟨_, (h.get coin).mpr hcoin⟩

theorem insert {coin : PegInCoin} (hnew : ¬ amounts.contains coin.kernelID) :
    HoldsCoins (amounts.insert coin.kernelID coin.amount) (coins ++ [coin]) where
  nodup := by
    rw [map_append, map_singleton, ← concat_eq_append]
    exact h.nodup.concat (mt (h.contains_iff _).mpr hnew)
  get c := by
    rw [StdMap.getElem?_insert, mem_append, mem_singleton]
    split_ifs with heq
    · have hnot : c ∉ coins := fun hc => hnew ((h.contains_iff _).mpr (heq ▸ mem_map_of_mem hc))
      rw [or_iff_right hnot, Option.some.injEq]
      exact ⟨fun hamount => by cases c; cases coin; simp_all, fun hc => by rw [hc]⟩
    · rw [h.get, or_iff_left fun hc => heq (by rw [hc])]
  size := by rw [Std.ExtTreeMap.size_insert, if_neg hnew, h.size, length_append, length_singleton]

/-- A loop that collects coins by their kernels accepts coins whose kernels differ, and keeps them
all. -/
theorem foldlM_insert (e : ε) (pegInCoins : List PegInCoin) :
    Ensures
      (pegInCoins.foldlM (fun amounts coin => if amounts.contains coin.kernelID then Except.error e
        else .ok (amounts.insert coin.kernelID coin.amount)) amounts)
      (HoldsCoins · (coins ++ pegInCoins)) fun _ =>
        ¬ ((coins ++ pegInCoins).map (·.kernelID)).Nodup := by
  induction pegInCoins generalizing amounts coins with
  | nil =>
    rw [append_nil]
    exact h
  | cons coin pegInCoins ih =>
    rw [foldlM_cons]
    by_cases hnew : amounts.contains coin.kernelID
    · rw [if_pos hnew]
      intro hnodup
      rw [map_append] at hnodup
      exact disjoint_of_nodup_append hnodup ((h.contains_iff _).mp hnew) mem_cons_self
    · rw [if_neg hnew, append_cons]
      exact ih (h.insert hnew)

/-- A round of the second loop of `ValidatePegInCoins` takes a coin off. -/
theorem takePegIn (pegin : PegInCoin) :
    Ensures (Mweb.takePegIn amounts pegin)
      (fun amounts' => pegin ∈ coins ∧ HoldsCoins amounts' (coins.erase pegin)) fun _ =>
        pegin ∉ coins := by
  have hget := h.get pegin
  unfold Mweb.takePegIn
  rcases hamount : amounts[pegin.kernelID]? with _ | amount <;> rw [hamount] at hget
  · exact fun hmem => nomatch hget.mpr hmem
  · dsimp only
    split_ifs with hne
    · exact fun hmem => hne (Option.some.inj (hget.mpr hmem)).symm
    · have hmem := hget.mp (by rw [not_not.mp hne])
      refine ⟨hmem, h.nodup.sublist (erase_sublist.map _), fun coin => ?_, ?_⟩
      · rw [StdMap.getElem?_erase, h.nodup.of_map.mem_erase_iff, ← h.get coin]
        split_ifs with heq
        · refine ⟨nofun, fun hcoin => absurd ?_ hcoin.1⟩
          exact inj_on_of_nodup_map h.nodup ((h.get coin).mp hcoin.2) hmem heq.symm
        · exact (and_iff_right fun hcoin => heq (by rw [hcoin])).symm
      · rw [Std.ExtTreeMap.size_erase, if_pos ((h.contains_iff _).mpr (mem_map_of_mem hmem)),
          length_erase_of_mem hmem, h.size]

end

end HoldsCoins

/-- A loop that takes items off what is given accepts items that are all of it. -/
theorem foldlM_take_iff {σ : Type} [DecidableEq α] {H : σ → List α → Prop}
    {take : σ → α → Except ε σ} (htake : ∀ {s given} item, H s given → Ensures (take s item)
      (fun s' => item ∈ given ∧ H s' (given.erase item)) fun _ => item ∉ given)
    {s : σ} {given items : List α} (h : H s given) :
    (items.length = given.length ∧ ∃ s', items.foldlM take s = .ok s') ↔ given.Perm items := by
  induction items generalizing s given with
  | nil =>
    rw [perm_nil, length_nil, eq_comm, length_eq_zero_iff]
    exact and_iff_left ⟨s, rfl⟩
  | cons item items ih =>
    have hitem := htake item h
    rw [foldlM_cons]
    rcases htook : take s item with e | s' <;> rw [htook] at hitem
    · exact ⟨nofun, fun hperm => absurd (hperm.mem_iff.mpr mem_cons_self) hitem⟩
    · obtain ⟨hmem, hnext⟩ := hitem
      have hlen := length_erase_of_mem hmem
      have hpos := length_pos_of_mem hmem
      rw [ok_bind, perm_comm, cons_perm_iff_perm_erase, and_iff_right hmem, perm_comm, ← ih hnext,
        length_cons]
      exact and_congr_left fun _ => by omega

theorem discard_eq_ok_iff {x : Except ε α} : discard x = .ok () ↔ ∃ a, x = .ok a := by
  rcases x with e | a
  · exact ⟨nofun, nofun⟩
  · exact ⟨fun _ => ⟨a, rfl⟩, fun _ => rfl⟩

/-- `ValidatePegInCoins` accepts the coins of the kernels in any order, if the kernels differ. -/
theorem validatePegInCoins_eq_ok_iff :
    validatePegInCoins body pegInCoins = .ok () ↔
      (pegInCoins.map (·.kernelID)).Nodup ∧ pegInCoins.Perm body.getPegIns := by
  have hfold : Ensures (pegInAmounts pegInCoins) (HoldsCoins · pegInCoins)
      fun _ => ¬ (pegInCoins.map (·.kernelID)).Nodup := HoldsCoins.empty.foldlM_insert _ _
  unfold validatePegInCoins
  rcases hamounts : pegInAmounts pegInCoins with e | amounts <;> rw [hamounts] at hfold
  · exact ⟨nofun, fun h => absurd h.1 hfold⟩
  · rw [ok_bind, seq_eq_ok_iff, reject_eq_ok_iff, discard_eq_ok_iff,
      decide_eq_false_iff_not, not_not,
      hfold.size, foldlM_take_iff (fun pegin h => h.takePegIn pegin) hfold]
    exact (and_iff_right hfold.nodup).symm

/-- `ValidatePegOutCoins` accepts the pegouts of the kernels in any order. -/
theorem validatePegOutCoins_eq_ok_iff :
    validatePegOutCoins body pegOutCoins = .ok () ↔ pegOutCoins.Perm body.getPegOuts := by
  unfold validatePegOutCoins
  rw [seq_eq_ok_iff, reject_eq_ok_iff, discard_eq_ok_iff, decide_eq_false_iff_not, not_not]
  refine foldlM_take_iff (H := Eq) (fun {given _} pegout h => ?_) rfl
  subst h
  unfold takePegOut
  split_ifs with hmem
  · exact ⟨hmem, rfl⟩
  · exact hmem

/-- What `BlockValidator::ValidateBlock` accepts. -/
theorem validateBlock_iff :
    validateBlock crypto block pegInCoins pegOutCoins ↔
      block.validate crypto = .ok () ∧ (pegInCoins.map (·.kernelID)).Nodup ∧
        pegInCoins.Perm block.body.getPegIns ∧ pegOutCoins.Perm block.body.getPegOuts := by
  unfold validateBlock
  rw [isOk_iff]
  constructor
  · rintro ⟨u, hu⟩
    obtain ⟨hvalid, hu⟩ := seq_eq_ok_iff.mp hu
    obtain ⟨hpegins, hpegouts⟩ := seq_eq_ok_iff.mp hu
    obtain ⟨hnodup, hperm⟩ := validatePegInCoins_eq_ok_iff.mp hpegins
    exact ⟨hvalid, hnodup, hperm, validatePegOutCoins_eq_ok_iff.mp hpegouts⟩
  · rintro ⟨hvalid, hnodup, hperm, hpegouts⟩
    refine ⟨(), ?_⟩
    rw [seq_eq_ok_iff, seq_eq_ok_iff]
    exact ⟨hvalid, validatePegInCoins_eq_ok_iff.mpr ⟨hnodup, hperm⟩,
      validatePegOutCoins_eq_ok_iff.mpr hpegouts⟩

/-- The kernels of a valid block differ. -/
theorem nodup_kernels_of_validate (h : block.validate crypto = .ok ()) :
    (block.body.kernels.map (·.hash)).Nodup := by
  unfold Block.validate TxBody.validate at h
  simp only [seq_eq_ok_iff, reject_eq_ok_iff, Bool.not_eq_false', decide_eq_true_eq] at h
  exact h.2.1.2.2.2.2.1

/-! ## Sums of amounts -/

/-- A loop that adds an amount for each item, and goes on if the item and the new total pass, gives
the sum if every item and every running total passes. -/
theorem foldlM_eq_some_iff {f : Int → α → Option Int} {g : α → Int} {Q : α → Prop} (R : Int → Bool)
    (hf : ∀ total a r, f total a = some r ↔ Q a ∧ R (total + g a) ∧ r = total + g a) {l : List α}
    (htotal : R total) :
    l.foldlM f total = some r ↔ (∀ a ∈ l, Q a) ∧ (∀ p, p <+: l → R (total + (p.map g).sum)) ∧
      r = total + (l.map g).sum := by
  induction l generalizing total with
  | nil =>
    simp only [prefix_nil, forall_eq, map_nil, sum_nil, add_zero]
    exact ⟨fun h => ⟨fun _ hmem => absurd hmem not_mem_nil, htotal, (Option.some.inj h).symm⟩,
      fun h => congrArg some h.2.2.symm⟩
  | cons a l ih =>
    have hprefix : (∀ p, p <+: a :: l → R (total + (p.map g).sum)) ↔
        ∀ p, p <+: l → R (total + g a + (p.map g).sum) := by
      constructor
      · intro h p hp
        have hcons := h (a :: p) ((prefix_cons_inj a).mpr hp)
        rwa [map_cons, sum_cons, ← add_assoc] at hcons
      · rintro h (_ | ⟨b, p⟩) hp
        · rwa [map_nil, sum_nil, add_zero]
        · obtain ⟨rfl, htail⟩ := cons_prefix_cons.mp hp
          rw [map_cons, sum_cons, ← add_assoc]
          exact h p htail
    rw [foldlM_cons, hprefix, forall_mem_cons, map_cons, sum_cons, ← add_assoc]
    constructor
    · intro h
      obtain ⟨total1, h1, hrest⟩ := Option.bind_eq_some_iff.mp h
      obtain ⟨hQ, hR, rfl⟩ := (hf _ _ _).mp h1
      obtain ⟨hall, hprefixes, hr⟩ := (ih hR).mp hrest
      exact ⟨⟨hQ, hall⟩, hprefixes, hr⟩
    · rintro ⟨⟨hQ, hall⟩, hprefixes, hr⟩
      have hR : R (total + g a) = true := by simpa using hprefixes [] nil_prefix
      exact Option.bind_eq_some_iff.mpr
        ⟨_, (hf _ _ _).mpr ⟨hQ, hR, rfl⟩, (ih hR).mpr ⟨hall, hprefixes, hr⟩⟩

theorem int64_eq_some_iff {value : Int} :
    int64 value = some r ↔ (-2 ^ 63 ≤ value ∧ value < 2 ^ 63) ∧ r = value := by
  unfold int64
  split_ifs with h
  · exact ⟨fun heq => ⟨h, (Option.some.inj heq).symm⟩, fun heq => by rw [heq.2]⟩
  · exact ⟨nofun, fun heq => absurd heq.1 h⟩

theorem isValidAmountRange_iff :
    isValidAmountRange amount ↔ -maxMoney ≤ amount ∧ amount ≤ maxMoney := by
  rw [isValidAmountRange, decide_eq_true_eq]

/-- A round of a sum accepts an amount in range that leaves the sum in range: then nothing
overflows. -/
theorem addMoney_eq_some_iff :
    addMoney total amount = some r ↔
      moneyRange amount ∧ moneyRange (total + amount) ∧ r = total + amount := by
  have hmax : maxMoney = 8400000000000000 := rfl
  unfold addMoney trySafeAdd
  rcases moneyRange amount with _ | _
  · exact ⟨nofun, nofun⟩
  · show (int64 (total + amount)).bind (fun next_total =>
      if moneyRange next_total then some next_total else none) = some r ↔ _
    rw [Option.bind_eq_some_iff]
    constructor
    · rintro ⟨next_total, hnext, h⟩
      rw [(int64_eq_some_iff.mp hnext).2] at h
      split_ifs at h with hrange
      exact ⟨rfl, hrange, (Option.some.inj h).symm⟩
    · rintro ⟨-, hrange, rfl⟩
      have hbounds := (moneyRange_iff _).mp hrange
      exact ⟨_, int64_eq_some_iff.mpr ⟨⟨by omega, by omega⟩, rfl⟩, if_pos hrange⟩

/-- What a kernel adds to the extension block: what it takes in, less its fee and what it pays out.
-/
def Kernel.supplyChange (kernel : Kernel) : Int :=
  kernel.getPegIn - kernel.getFee - (kernel.pegouts.map (·.amount)).sum

/-- Amounts that can be added up: each is in range, and so is each running total. -/
def AddsUp (g : α → Int) (l : List α) : Prop :=
  (∀ a ∈ l, moneyRange (g a)) ∧ ∀ p, p <+: l → moneyRange (p.map g).sum

theorem foldlM_addMoney_eq_some_iff {g : α → Int} {l : List α} :
    l.foldlM (fun total a => addMoney total (g a)) 0 = some r ↔ AddsUp g l ∧ r = (l.map g).sum := by
  have h := foldlM_eq_some_iff (f := fun total a => addMoney total (g a)) (l := l)
    (r := r) moneyRange (fun _ _ _ => addMoney_eq_some_iff) (show moneyRange 0 = true from rfl)
  simp only [zero_add] at h
  rw [h, AddsUp, and_assoc]

/-- The amounts of a kernel with a supply change. -/
structure Kernel.InRange (kernel : Kernel) : Prop where
  pegin : moneyRange kernel.getPegIn
  fee : moneyRange kernel.getFee
  pegouts : AddsUp (fun pegout : PegOutCoin => pegout.amount) kernel.pegouts
  change : isValidAmountRange kernel.supplyChange

theorem Kernel.getSupplyChange_eq_some_iff :
    kernel.getSupplyChange = some change ↔ kernel.InRange ∧ change = kernel.supplyChange := by
  have hmax : maxMoney = 8400000000000000 := rfl
  constructor
  · intro h
    obtain ⟨pegout_amount, hpegouts, h⟩ := Option.bind_eq_some_iff.mp h
    obtain ⟨hadds, hsum⟩ := foldlM_addMoney_eq_some_iff.mp hpegouts
    rcases hcond : (!moneyRange kernel.getPegIn || !moneyRange kernel.getFee) with _ | _
    · rw [hcond] at h
      obtain ⟨after_fee, hfee, h⟩ := Option.bind_eq_some_iff.mp h
      obtain ⟨supply_change, hchange, h⟩ := Option.bind_eq_some_iff.mp h
      rw [(int64_eq_some_iff.mp hchange).2, (int64_eq_some_iff.mp hfee).2, hsum] at h
      split_ifs at h with hrange
      rw [Bool.or_eq_false_iff, Bool.not_eq_false', Bool.not_eq_false'] at hcond
      exact ⟨⟨hcond.1, hcond.2, hadds, hrange⟩, (Option.some.inj h).symm⟩
    · rw [hcond] at h
      cases h
  · rintro ⟨h, rfl⟩
    have hpegin := (moneyRange_iff _).mp h.pegin
    have hfee := (moneyRange_iff _).mp h.fee
    have hsum := (moneyRange_iff (kernel.pegouts.map PegOutCoin.amount).sum).mp
      (h.pegouts.2 _ prefix_rfl)
    refine Option.bind_eq_some_iff.mpr ⟨_, foldlM_addMoney_eq_some_iff.mpr ⟨h.pegouts, rfl⟩, ?_⟩
    rw [h.pegin, h.fee]
    refine Option.bind_eq_some_iff.mpr ⟨_, int64_eq_some_iff.mpr ⟨⟨by omega, by omega⟩, rfl⟩,
      Option.bind_eq_some_iff.mpr ⟨_, int64_eq_some_iff.mpr ⟨⟨by omega, by omega⟩, rfl⟩,
        if_pos h.change⟩⟩

/-- The coins of the pegin kernels. -/
theorem TxBody.sum_getPegIns (body : TxBody) :
    (body.getPegIns.map (·.amount)).sum = (body.kernels.map (·.getPegIn)).sum := by
  unfold getPegIns
  induction body.kernels with
  | nil => rfl
  | cons kernel kernels ih =>
    rw [map_cons, sum_cons, ← ih, filter_cons]
    rcases hpegin : kernel.pegin with _ | amount
    · have hzero : kernel.getPegIn = 0 := by rw [getPegIn, hpegin]; rfl
      rw [Option.isSome_none, if_neg Bool.false_ne_true, hzero, zero_add]
    · rw [Option.isSome_some, if_pos rfl, map_cons, map_cons, sum_cons]

/-- The coins of the pegouts of the kernels. -/
theorem TxBody.sum_getPegOuts (body : TxBody) :
    (body.getPegOuts.map (·.amount)).sum =
      (body.kernels.map fun kernel => (kernel.pegouts.map (·.amount)).sum).sum := by
  unfold getPegOuts
  rw [map_flatMap, flatMap_def, sum_flatten, map_map]
  rfl

/-- The fees of the kernels. -/
def TxBody.fees (body : TxBody) : Int := (body.kernels.map (·.getFee)).sum

/-- What a body adds to the extension block. -/
def TxBody.supplyChange (body : TxBody) : Int :=
  (body.getPegIns.map (·.amount)).sum - (body.getPegOuts.map (·.amount)).sum - body.fees

theorem TxBody.sum_supplyChange (body : TxBody) :
    (body.kernels.map (·.supplyChange)).sum = body.supplyChange := by
  unfold supplyChange fees
  rw [body.sum_getPegIns, body.sum_getPegOuts]
  induction body.kernels with
  | nil => rfl
  | cons kernel kernels ih =>
    simp only [map_cons, sum_cons, ih]
    rw [Kernel.supplyChange]
    ring

theorem addSupplyChange_eq_some_iff :
    addSupplyChange total kernel = some r ↔ kernel.InRange ∧
      isValidAmountRange (total + kernel.supplyChange) ∧ r = total + kernel.supplyChange := by
  have hmax : maxMoney = 8400000000000000 := rfl
  unfold addSupplyChange trySafeAdd
  constructor
  · intro h
    obtain ⟨supply_change, hchange, h⟩ := Option.bind_eq_some_iff.mp h
    obtain ⟨next_total, hnext, h⟩ := Option.bind_eq_some_iff.mp h
    obtain ⟨hkernel, heq⟩ := getSupplyChange_eq_some_iff.mp hchange
    rw [(int64_eq_some_iff.mp hnext).2, heq] at h
    split_ifs at h with hrange
    exact ⟨hkernel, hrange, (Option.some.inj h).symm⟩
  · rintro ⟨hkernel, hrange, rfl⟩
    have hbounds := isValidAmountRange_iff.mp hrange
    exact Option.bind_eq_some_iff.mpr ⟨_, getSupplyChange_eq_some_iff.mpr ⟨hkernel, rfl⟩,
      Option.bind_eq_some_iff.mpr ⟨_, int64_eq_some_iff.mpr ⟨⟨by omega, by omega⟩, rfl⟩,
        if_pos hrange⟩⟩

theorem TxBody.getSupplyChange_eq_some_iff :
    body.getSupplyChange = some change ↔ (∀ kernel ∈ body.kernels, kernel.InRange) ∧
      (∀ p, p <+: body.kernels → isValidAmountRange (p.map (·.supplyChange)).sum) ∧
      change = body.supplyChange := by
  unfold getSupplyChange
  rw [foldlM_eq_some_iff (f := addSupplyChange) isValidAmountRange
    (fun _ _ _ => addSupplyChange_eq_some_iff) rfl, ← body.sum_supplyChange]
  simp only [zero_add]

/-! ## Amounts in range -/

theorem sum_map_nonneg {g : α → Int} (h : ∀ a ∈ l, 0 ≤ g a) :
    0 ≤ (l.map g).sum := sum_nonneg (forall_mem_map.mpr h)

/-- A running total of amounts that are not negative is between zero and the sum. -/
theorem sum_prefix_bounds {g : α → Int} {p : List α} (h : ∀ a ∈ l, 0 ≤ g a) (hp : p <+: l) :
    0 ≤ (p.map g).sum ∧ (p.map g).sum ≤ (l.map g).sum := by
  obtain ⟨q, rfl⟩ := hp
  have hq : 0 ≤ (q.map g).sum := sum_map_nonneg fun a ha => h a (mem_append_right p ha)
  rw [map_append, sum_append]
  exact ⟨sum_map_nonneg fun a ha => h a (mem_append_left q ha), by omega⟩

/-- Amounts that are not negative can be added up if their sum is in range. -/
theorem addsUp_of_le {g : α → Int} (h : ∀ a ∈ l, 0 ≤ g a) (hsum : (l.map g).sum ≤ maxMoney) :
    AddsUp g l := by
  refine ⟨fun a ha => (moneyRange_iff _).mpr ⟨h a ha, ?_⟩, fun p hp => (moneyRange_iff _).mpr ?_⟩
  · exact (single_le_sum (forall_mem_map.mpr h) _ (mem_map_of_mem ha)).trans hsum
  · exact ⟨(sum_prefix_bounds h hp).1, (sum_prefix_bounds h hp).2.trans hsum⟩

/-- No amount of a kernel is negative. -/
structure Kernel.Nonneg (kernel : Kernel) : Prop where
  pegin : 0 ≤ kernel.getPegIn
  fee : 0 ≤ kernel.getFee
  pegouts : ∀ pegout ∈ kernel.pegouts, 0 ≤ pegout.amount

theorem Kernel.InRange.nonneg (h : kernel.InRange) : kernel.Nonneg :=
  ⟨((moneyRange_iff _).mp h.pegin).1, ((moneyRange_iff _).mp h.fee).1,
    fun pegout hmem => ((moneyRange_iff _).mp (h.pegouts.1 pegout hmem)).1⟩

/-- What a kernel takes off: its fee and its pegouts. -/
def Kernel.outflow (kernel : Kernel) : Int :=
  kernel.getFee + (kernel.pegouts.map (·.amount)).sum

theorem Kernel.supplyChange_eq (kernel : Kernel) :
    kernel.supplyChange = kernel.getPegIn - kernel.outflow := by
  unfold supplyChange outflow
  omega

/-- The supply change is found if neither all pegins nor all fees and pegouts leave the range. -/
theorem TxBody.getSupplyChange_ok (h : ∀ kernel ∈ body.kernels, kernel.Nonneg)
    (hpegins : (body.kernels.map (·.getPegIn)).sum ≤ maxMoney)
    (houtflows : (body.kernels.map (·.outflow)).sum ≤ maxMoney) :
    body.getSupplyChange = some body.supplyChange := by
  have hpegouts : ∀ kernel ∈ body.kernels, 0 ≤ (kernel.pegouts.map (·.amount)).sum :=
    fun kernel hk => sum_map_nonneg (h kernel hk).pegouts
  have houtflow : ∀ kernel ∈ body.kernels, 0 ≤ kernel.outflow :=
    fun kernel hk => add_nonneg (h kernel hk).fee (hpegouts kernel hk)
  refine getSupplyChange_eq_some_iff.mpr ⟨fun kernel hk => ?_, fun p hp => ?_, rfl⟩
  · have hin := (moneyRange_iff _).mp
      ((addsUp_of_le (fun k hk => (h k hk).pegin) hpegins).1 kernel hk)
    have hout := (moneyRange_iff _).mp ((addsUp_of_le houtflow houtflows).1 kernel hk)
    have hsum := hpegouts kernel hk
    have hfee := (h kernel hk).fee
    have heq := kernel.supplyChange_eq
    unfold outflow at hout heq
    exact ⟨(moneyRange_iff _).mpr hin, (moneyRange_iff _).mpr ⟨hfee, by omega⟩,
      addsUp_of_le (h kernel hk).pegouts (by omega),
        isValidAmountRange_iff.mpr ⟨by omega, by omega⟩⟩
  · have hin := sum_prefix_bounds (g := fun kernel : Kernel => kernel.getPegIn)
      (fun k hk => (h k hk).pegin) hp
    have hout := sum_prefix_bounds (g := fun kernel : Kernel => kernel.outflow) houtflow hp
    have hsum : (p.map (·.supplyChange)).sum + (p.map (·.outflow)).sum =
        (p.map (·.getPegIn)).sum := by
      simp only [← sum_map_add, supplyChange_eq, Int.sub_add_cancel]
    rw [isValidAmountRange_iff]
    constructor <;> omega

/-- Sums over kernels, by what these sums are of. -/
theorem sum_outflow (body : TxBody) : (body.kernels.map (·.outflow)).sum =
    body.fees + (body.getPegOuts.map (·.amount)).sum := by
  rw [body.sum_getPegOuts, TxBody.fees, ← sum_map_add]
  rfl

/-- A value of type `CAmount`. -/
def IsCAmount (value : Int) : Prop := -2 ^ 63 ≤ value ∧ value < 2 ^ 63

/-- The amounts of a kernel that was read. -/
theorem Kernel.Readable.nonneg {hashBytes : List UInt8 → Hash} (h : kernel.Readable hashBytes) :
    kernel.Nonneg ∧ IsCAmount kernel.getPegIn ∧ IsCAmount kernel.getFee ∧
      ∀ pegout ∈ kernel.pegouts, IsCAmount pegout.amount := by
  have hgetD : ∀ {amount : Option Int}, ReadableAmount amount → 0 ≤ amount.getD 0 ∧
      amount.getD 0 < 2 ^ 63 := by
    rintro (_ | amount) hread
    · decide
    · exact hread amount rfl
  have hpegin := hgetD h.front.head.pegin
  have hfee := hgetD h.front.head.fee
  have hpegouts := h.front.pegouts.2
  exact ⟨⟨hpegin.1, hfee.1, fun pegout hmem => (hpegouts pegout hmem).1⟩,
    ⟨hpegin.1.trans' (by decide), hpegin.2⟩, ⟨hfee.1.trans' (by decide), hfee.2⟩,
    fun pegout hmem => ⟨(hpegouts pegout hmem).1.trans' (by decide), (hpegouts pegout hmem).2.1⟩⟩

/-- `GetPegInAmount`, `GetTotalFee` and `GetSupplyChange` of kernels that were read. What they add
and subtract are values of their type, so nothing overflows. They return a value if every amount and
every running total is in range, and then it is the sum. The supply change is found, in every order
of the kernels, if neither the pegins nor the pegouts and the fees together leave the range. -/
theorem TxBody.amounts_spec (hashBytes : List UInt8 → Hash) (body : TxBody)
    (hread : ∀ kernel ∈ body.kernels, ∃ bytes rest,
      unserialize hashBytes bytes = .ok (kernel, rest)) :
    (∀ kernel ∈ body.kernels, IsCAmount kernel.getPegIn ∧ IsCAmount kernel.getFee ∧
      ∀ pegout ∈ kernel.pegouts, IsCAmount pegout.amount) ∧
    (∀ lhs rhs, IsCAmount lhs → IsCAmount rhs →
      (0 < rhs → IsCAmount (2 ^ 63 - 1 - rhs) ∧ IsCAmount (-2 ^ 63 + rhs)) ∧
      (rhs < 0 → IsCAmount (-2 ^ 63 - rhs) ∧ IsCAmount (2 ^ 63 - 1 + rhs)) ∧
      trySafeAdd lhs rhs = (if (0 < rhs ∧ lhs > 2 ^ 63 - 1 - rhs) ∨
        (rhs < 0 ∧ lhs < -2 ^ 63 - rhs) then none else some (lhs + rhs)) ∧
      trySafeSubtract lhs rhs = (if (0 < rhs ∧ lhs < -2 ^ 63 + rhs) ∨
        (rhs < 0 ∧ lhs > 2 ^ 63 - 1 + rhs) then none else some (lhs - rhs))) ∧
    (∀ r, body.getPegInAmount = some r ↔
      AddsUp (·.getPegIn) body.kernels ∧ r = (body.kernels.map (·.getPegIn)).sum) ∧
    (∀ r, body.getTotalFee = some r ↔ AddsUp (·.getFee) body.kernels ∧ r = body.fees) ∧
    (∀ r, body.getSupplyChange = some r ↔ (∀ kernel ∈ body.kernels, kernel.InRange) ∧
      (∀ p, p <+: body.kernels → isValidAmountRange (p.map (·.supplyChange)).sum) ∧
      r = (body.kernels.map (·.supplyChange)).sum) ∧
    ((body.kernels.map (·.getPegIn)).sum ≤ maxMoney →
      (body.getPegOuts.map (·.amount)).sum + body.fees ≤ maxMoney →
      ∃ pegin fee, body.getPegInAmount = some pegin ∧ body.getTotalFee = some fee ∧
        ∀ kernels, kernels.Perm body.kernels → ({ body with kernels } : TxBody).getSupplyChange =
          some (pegin - (body.getPegOuts.map (·.amount)).sum - fee)) := by
  have hkernels : ∀ kernel ∈ body.kernels, kernel.Nonneg ∧ _ := fun kernel hmem =>
    have ⟨_, _, h⟩ := hread kernel hmem
    (unserialize_eq_ok_iff.mp h).2.nonneg
  refine ⟨fun kernel hmem => (hkernels kernel hmem).2, fun lhs rhs hlhs hrhs => ?_,
    fun _ => foldlM_addMoney_eq_some_iff, fun _ => foldlM_addMoney_eq_some_iff, fun r => ?_, ?_⟩
  · unfold IsCAmount trySafeAdd trySafeSubtract int64 at *
    refine ⟨fun _ => ⟨by omega, by omega⟩, fun _ => ⟨by omega, by omega⟩, ?_, ?_⟩ <;>
      split_ifs <;> first | rfl | omega
  · rw [getSupplyChange_eq_some_iff, body.sum_supplyChange]
  · intro hpegins hrest
    have hnonneg : ∀ kernel ∈ body.kernels, kernel.Nonneg := fun kernel hmem =>
      (hkernels kernel hmem).1
    have hpegouts : 0 ≤ (body.getPegOuts.map (·.amount)).sum := by
      refine sum_map_nonneg fun pegout hmem => ?_
      obtain ⟨kernel, hkernel, hpegout⟩ := mem_flatMap.mp hmem
      exact (hnonneg kernel hkernel).pegouts pegout hpegout
    refine ⟨_, _, foldlM_addMoney_eq_some_iff.mpr
      ⟨addsUp_of_le (fun k hk => (hnonneg k hk).pegin) hpegins, rfl⟩,
      foldlM_addMoney_eq_some_iff.mpr ⟨addsUp_of_le (fun k hk => (hnonneg k hk).fee)
        (show body.fees ≤ _ by omega), rfl⟩, fun kernels hperm => ?_⟩
    have hsum : ∀ g : Kernel → Int, (kernels.map g).sum = (body.kernels.map g).sum :=
      fun g => (hperm.map g).sum_eq
    rw [getSupplyChange_ok (fun k hk => hnonneg k (hperm.mem_iff.mp hk)) (by rwa [hsum]),
      ← sum_supplyChange,
      hsum, body.sum_supplyChange, supplyChange, body.sum_getPegIns]
    · rfl
    · have hout := sum_outflow body
      rw [hsum]
      omega

/-- A kernel with a fee of one and a pegout. -/
def pegoutBytes (amount : Int) : List UInt8 :=
  [5] ++ writeCAmount 1 ++ [1] ++ writeCAmount amount ++ [1, 81] ++ List.replicate 97 0

/-- A kernel with a pegin. -/
def peginBytes : List UInt8 := [2] ++ writeCAmount 10 ++ List.replicate 97 0

/-- A pegin and a pegout, in any order. -/
theorem TxBody.amounts_spec_twoKernels : ∃ pegin pegout,
    unserialize (fun _ => 0) peginBytes = .ok (pegin, []) ∧
    unserialize (fun _ => 0) (pegoutBytes (maxMoney - 1)) = .ok (pegout, []) ∧
    ∀ kernels, kernels.Perm [pegin, pegout] →
      (⟨[], [], kernels⟩ : TxBody).getSupplyChange = some (10 - maxMoney) := by
  have hrun : Returns (unserialize (fun _ => 0) peginBytes) fun r => r.2 = [] ∧
      r.1.getPegIn = 10 ∧ r.1.getFee = 0 ∧ r.1.pegouts = [] := by decide +kernel
  have hrun' : Returns (unserialize (fun _ => 0) (pegoutBytes (maxMoney - 1))) fun r => r.2 = [] ∧
      r.1.getPegIn = 0 ∧ r.1.getFee = 1 ∧ r.1.pegouts = [⟨maxMoney - 1, [81]⟩] := by
    decide +kernel
  obtain ⟨⟨pegin, rest⟩, hread, rfl, hin, hfee, hpegouts⟩ := hrun.exists_ok
  obtain ⟨⟨pegout, rest'⟩, hread', rfl, hin', hfee', hpegouts'⟩ := hrun'.exists_ok
  dsimp only at hpegouts hpegouts'
  have hspec := TxBody.amounts_spec (fun _ => 0) ⟨[], [], [pegin, pegout]⟩
    (forall_mem_cons.mpr ⟨⟨_, _, hread⟩, forall_mem_singleton.mpr ⟨_, _, hread'⟩⟩)
  simp only [getPegOuts, fees, flatMap_cons, flatMap_nil, map_cons, map_nil, sum_cons, sum_nil, hin,
    hfee, hpegouts, hin', hfee', hpegouts', append_nil, nil_append] at hspec
  obtain ⟨-, -, hpegins, hfees, -, hlast⟩ := hspec
  obtain ⟨a, b, ha, hb, hall⟩ := hlast (by decide) (by decide)
  rw [((hpegins a).mp ha).2, ((hfees b).mp hb).2] at hall
  exact ⟨pegin, pegout, hread, hread', hall⟩

/-- A fee and a pegout are each in range, and there is no supply change. -/
theorem TxBody.getSupplyChange_none : ∃ kernel,
    unserialize (fun _ => 0) (pegoutBytes maxMoney) = .ok (kernel, []) ∧
      kernel.getPegIn ≤ maxMoney ∧ (kernel.pegouts.map (·.amount)).sum ≤ maxMoney ∧
      kernel.getFee ≤ maxMoney ∧ (⟨[], [], [kernel]⟩ : TxBody).getSupplyChange = none := by
  have hrun : Returns (unserialize (fun _ => 0) (pegoutBytes maxMoney)) fun r => r.2 = [] ∧
      r.1.getPegIn ≤ maxMoney ∧ (r.1.pegouts.map (·.amount)).sum ≤ maxMoney ∧
        r.1.getFee ≤ maxMoney ∧
      (⟨[], [], [r.1]⟩ : TxBody).getSupplyChange = none := by decide +kernel
  obtain ⟨⟨kernel, rest⟩, hread, rfl, h⟩ := hrun.exists_ok
  exact ⟨kernel, hread, h⟩

end DefcoinCore.Mweb
