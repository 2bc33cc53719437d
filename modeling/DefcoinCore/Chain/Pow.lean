import DefcoinCore.Arith.ArithUint256
import DefcoinCore.Lib.Ensures

/-!
# Proof of work

`GetBlockProof` of `chain.cpp` and the retargeting of `pow.cpp`. The work of a block is `2^256`
divided by its target plus one, computed without leaving 256 bits (`getBlockProof_eq`). Retargeting
scales the target of the last block by the time the last interval took, between a quarter and four
times the intended one. A target as long as the limit is halved before it is scaled and doubled
afterwards, so the scaled target is even then. `calculateNextWorkRequired_spec` gives the result
over the natural numbers, for the products that stay within 256 bits.
-/

namespace DefcoinCore

open BaseUint Nat

/-! ## The work of a block -/

/-- `GetBlockProof`, of the `nBits` of the block. -/
def getBlockProof (nBits : BitVec 32) : Except ArithFault ArithUint256 := do
  let target := setCompact nBits
  if target.fNegative ∨ target.fOverflow ∨ target.bn.equalTo 0 then
    return ofUint64 0
  let quotient ← target.bn.not.divAssign (target.bn.addAssign (ofUint64 1))
  return quotient.addAssign (ofUint64 1)

/-- The number encoded by `nBits` is a positive number of at most 256 bits. -/
def EncodesTarget (nBits : BitVec 32) : Prop :=
  compactSign nBits = false ∧ 0 < compactValue nBits ∧ compactValue nBits < 2 ^ 256

instance (nBits : BitVec 32) : Decidable (EncodesTarget nBits) := by
  unfold EncodesTarget
  infer_instance

/-- No number of 256 bits with all bits set is encoded: what is above 23 bits ends in zeros. -/
theorem compactValue_add_one_lt {nBits : BitVec 32} (h : compactValue nBits < 2 ^ 256) :
    compactValue nBits + 1 < 2 ^ 256 := by
  have hword : compactWord nBits < 2 ^ 23 := mod_lt _ (by omega)
  rcases lt_or_ge 3 (compactSize nBits) with hs | hs
  · obtain ⟨k, hk⟩ : ∃ k, 8 * (compactSize nBits - 3) = k + 1 :=
      exists_eq_add_one.mpr (by omega)
    have heven : compactValue nBits = 2 * (compactWord nBits * 2 ^ k) := by
      rw [compactValue_of_gt hs, hk, pow_succ]
      ring
    omega
  · have hsmall : compactValue nBits ≤ compactWord nBits := by
      rw [compactValue_of_le hs]
      exact div_le_self _ _
    omega

/-- The work of a block: how many hashes are expected until one is not above its target. -/
theorem getBlockProof_eq (nBits : BitVec 32) :
    ∃ proof, getBlockProof nBits = .ok proof ∧
      proof.toNat = if EncodesTarget nBits then 2 ^ 256 / (compactValue nBits + 1) else 0 := by
  obtain ⟨hbn, hneg, hover⟩ := setCompact_spec nBits
  by_cases htarget : EncodesTarget nBits
  · obtain ⟨hsign, hpos, hlt⟩ := htarget
    rw [mod_eq_of_lt hlt] at hbn
    have hlt' := compactValue_add_one_lt hlt
    have hcond : ¬ ((setCompact nBits).fNegative ∨ (setCompact nBits).fOverflow ∨
        (setCompact nBits).bn.equalTo 0) := by
      rw [hneg, hover, equalTo_iff, hbn, hsign, show (0 : BitVec 64).toNat = 0 from rfl]
      simp
      omega
    have hsum : ((setCompact nBits).bn.addAssign (ofUint64 1)).toNat = compactValue nBits + 1 := by
      rw [toNat_addAssign, toNat_ofUint64, hbn]
      exact mod_eq_of_lt hlt'
    have hdiv := (setCompact nBits).bn.not.divAssign_eq
      ((setCompact nBits).bn.addAssign (ofUint64 1))
    rw [hsum, toNat_not, hbn] at hdiv
    obtain ⟨h, -⟩ | ⟨-, q, hq, hqv⟩ := hdiv
    · omega
    refine ⟨q.addAssign (ofUint64 1), ?_, ?_⟩
    · simp only [getBlockProof, if_neg hcond, hq]
      rfl
    · -- `(2^256 - (t + 1)) / (t + 1) + 1` is `2^256 / (t + 1)`
      have hstep : (2 ^ 256 - 1 - compactValue nBits) / (compactValue nBits + 1) + 1 =
          2 ^ 256 / (compactValue nBits + 1) := by
        rw [← add_div_right _ (succ_pos _)]
        congr 1
        omega
      have hbound : 2 ^ 256 / (compactValue nBits + 1) < 2 ^ 256 :=
        div_lt_self (by norm_num) (by omega)
      rw [if_pos ⟨hsign, hpos, hlt⟩, toNat_addAssign, toNat_ofUint64, hqv]
      show ((2 ^ 256 - 1 - compactValue nBits) / (compactValue nBits + 1) + 1) % 2 ^ 256 = _
      rw [hstep, mod_eq_of_lt hbound]
  · refine ⟨ofUint64 0, ?_, by rw [if_neg htarget, toNat_ofUint64]; rfl⟩
    have hcond : (setCompact nBits).fNegative ∨ (setCompact nBits).fOverflow ∨
        (setCompact nBits).bn.equalTo 0 := by
      rw [hneg, hover, equalTo_iff, hbn, show (0 : BitVec 64).toNat = 0 from rfl]
      by_cases hover : 2 ^ 256 ≤ compactValue nBits
      · exact .inr (.inl hover)
      rw [mod_eq_of_lt (by omega)]
      by_cases hzero : compactValue nBits = 0
      · exact .inr (.inr hzero)
      · refine .inl ⟨?_, hzero⟩
        by_contra hsign
        exact htarget ⟨by simpa using hsign, by omega, by omega⟩
    simp only [getBlockProof, if_pos hcond]
    rfl

/-- The operators of `arith_uint256` are those of the natural numbers modulo `2^256`, division is
exact and refused for zero only, `bits` is the bit length, and the work of a block is `2^256`
divided by its target plus one, or zero when `nBits` encodes no target. -/
theorem arithUint256_refines (a b : ArithUint256) (b32 : BitVec 32) (b64 : BitVec 64) (shift : Nat)
    (nBits : BitVec 32) :
    (a.addAssign b).toNat = (a.toNat + b.toNat) % 2 ^ 256 ∧
    (a.addAssign64 b64).toNat = (a.toNat + b64.toNat) % 2 ^ 256 ∧
    ((a.subAssign b).toNat : Int) = ((a.toNat : Int) - b.toNat) % 2 ^ 256 ∧
    ((a.subAssign64 b64).toNat : Int) = ((a.toNat : Int) - b64.toNat) % 2 ^ 256 ∧
    (a.mulAssign32 b32).toNat = a.toNat * b32.toNat % 2 ^ 256 ∧
    (a.mulAssign b).toNat = a.toNat * b.toNat % 2 ^ 256 ∧
    (a.shlAssign shift).toNat = a.toNat * 2 ^ shift % 2 ^ 256 ∧
    (a.shrAssign shift).toNat = a.toNat / 2 ^ shift ∧
    (a.compareTo b = if a.toNat < b.toNat then -1 else if a.toNat > b.toNat then 1 else 0) ∧
    ((a.divAssign b).map toNat = if b.toNat = 0 then .error (.uintError "Division by zero")
      else .ok (a.toNat / b.toNat)) ∧
    a.bits = size a.toNat ∧
    (getBlockProof nBits).map toNat =
      .ok (if EncodesTarget nBits then 2 ^ 256 / (compactValue nBits + 1) else 0) := by
  refine ⟨toNat_addAssign a b, ?_, toNat_subAssign a b, ?_, toNat_mulAssign32 a b32,
    toNat_mulAssign a b, toNat_shlAssign a shift, toNat_shrAssign a shift, compareTo_eq a b, ?_,
    bits_eq a, ?_⟩
  · exact (toNat_addAssign a _).trans (by rw [toNat_ofUint64])
  · exact (toNat_subAssign a _).trans (by rw [toNat_ofUint64]; rfl)
  · obtain ⟨hb, h⟩ | ⟨hb, q, h, hq⟩ := a.divAssign_eq b
    · rw [if_pos hb, h]
      rfl
    · rw [if_neg hb, h, ← hq]
      rfl
  · obtain ⟨proof, h, hproof⟩ := getBlockProof_eq nBits
    rw [h, ← hproof]
    rfl

/-! ## Retargeting -/

/-- The proof of work parameters of `Consensus::Params`. -/
structure PowParams where
  powLimit : Uint256
  /-- A block that comes late may have the largest target. -/
  fPowAllowMinDifficultyBlocks : Bool
  /-- The target never changes. -/
  fPowNoRetargeting : Bool
  /-- The intended time between two blocks, in seconds. -/
  nPowTargetSpacing : Nat
  /-- The intended time of an interval between two changes of the target. -/
  nPowTargetTimespan : Nat

/-- `Params::DifficultyAdjustmentInterval`. -/
def PowParams.difficultyAdjustmentInterval (params : PowParams) : Nat :=
  params.nPowTargetTimespan / params.nPowTargetSpacing

/-- A tree of block headers: the entries with their `nTime` and `nBits`. -/
structure HeaderTree extends BlockTree where
  nTime : Uint256 → BitVec 32
  nBits : Uint256 → BitVec 32

variable (t : HeaderTree)

/-- `CBlockIndex::GetBlockTime`. -/
def HeaderTree.getBlockTime (b : Uint256) : Int := (t.nTime b).toNat

/-- `CalculateNextWorkRequired`. The timespan is converted to the `uint32_t` of `operator*=`. -/
def calculateNextWorkRequired (params : PowParams) (pindexLast : Uint256)
    (nFirstBlockTime : Int) : Except ArithFault (BitVec 32) := do
  if params.fPowNoRetargeting then
    return t.nBits pindexLast
  let nActualTimespan := t.getBlockTime pindexLast - nFirstBlockTime
  let nActualTimespan := if nActualTimespan < (params.nPowTargetTimespan / 4 : Nat) then
    ((params.nPowTargetTimespan / 4 : Nat) : Int) else nActualTimespan
  let nActualTimespan := if nActualTimespan > (params.nPowTargetTimespan * 4 : Nat) then
    ((params.nPowTargetTimespan * 4 : Nat) : Int) else nActualTimespan
  let bnNew := (setCompact (t.nBits pindexLast)).bn
  let bnPowLimit := uintToArith256 params.powLimit
  -- an unsigned difference: the limit zero would give the largest number of bits
  let fShift := bnNew.bits > (bnPowLimit.bits + 2 ^ 32 - 1) % 2 ^ 32
  let bnNew := if fShift then bnNew.shrAssign 1 else bnNew
  let bnNew := bnNew.mulAssign32 (BitVec.ofInt 32 nActualTimespan)
  let bnNew ← bnNew.divAssign (ofUint64 (BitVec.ofNat 64 params.nPowTargetTimespan))
  let bnNew := if fShift then bnNew.shlAssign 1 else bnNew
  let bnNew := if bnNew.compareTo bnPowLimit > 0 then bnPowLimit else bnNew
  getCompact bnNew false

/-- The loop of the rule for late blocks: back to the last block whose `nBits` are not the limit, or
to the start of the interval. There are no more than `nHeight` steps. -/
def lastNonSpecial (t : HeaderTree) (params : PowParams) (nProofOfWorkLimit : BitVec 32) :
    Nat → Uint256 → Uint256
  | 0, pindex => pindex
  | n + 1, pindex =>
    match (t.node pindex).pprev with
    | none => pindex
    | some pprev =>
      if (t.node pindex).nHeight % params.difficultyAdjustmentInterval ≠ 0 ∧
          t.nBits pindex = nProofOfWorkLimit then
        lastNonSpecial t params nProofOfWorkLimit n pprev
      else pindex

/-- `GetNextWorkRequired`, for a new block with the given time. -/
def getNextWorkRequired (params : PowParams) (pindexLast : Option Uint256)
    (blockTime : Int) : Except ArithFault (BitVec 32) := do
  let some last := pindexLast | throw .assertion
  let nProofOfWorkLimit ← getCompact (uintToArith256 params.powLimit) false
  if ((t.node last).nHeight + 1) % params.difficultyAdjustmentInterval ≠ 0 then
    if params.fPowAllowMinDifficultyBlocks then
      if blockTime > t.getBlockTime last + (params.nPowTargetSpacing * 2 : Nat) then
        return nProofOfWorkLimit
      else
        return t.nBits (lastNonSpecial t params nProofOfWorkLimit (t.node last).nHeight last)
    return t.nBits last
  let blockstogoback :=
    if (t.node last).nHeight + 1 ≠ params.difficultyAdjustmentInterval then
      params.difficultyAdjustmentInterval
    else params.difficultyAdjustmentInterval - 1
  let some pindexFirst := t.walkBack blockstogoback last | throw .assertion
  calculateNextWorkRequired t params last (t.getBlockTime pindexFirst)

/-! ### The new target over the natural numbers -/

section Retarget

variable (limit T span timespan : Nat)

/-- A target as long as the limit is halved before it is scaled. -/
def halvedTarget : Nat := if size T = size limit then T / 2 else T

/-- The target scaled by `span / timespan`, doubled again if it was halved. -/
def scaledTarget : Nat :=
  if size T = size limit then 2 * (T / 2 * span / timespan) else T * span / timespan

/-- The scaled target, from a product that wraps at 256 bits. -/
def wrappedTarget : Nat :=
  (if size T = size limit then 2 else 1) * (halvedTarget limit T * span % 2 ^ 256 / timespan)

/-- The target, without its lowest bit when it is as long as the limit. -/
def clearedTarget : Nat := if size T = size limit then 2 * (T / 2) else T

/-- The time the interval took, held between a quarter and four times the intended one. -/
def clampTimespan (actual : Int) : Nat :=
  (max ((timespan / 4 : Nat) : Int) (min actual (timespan * 4 : Nat))).toNat

theorem clampTimespan_bounds (actual : Int) :
    timespan / 4 ≤ clampTimespan timespan actual ∧
      clampTimespan timespan actual ≤ 4 * timespan := by
  rw [clampTimespan]
  omega

variable {limit T span timespan}

theorem halvedTarget_lt (hlimit : size limit ≤ 236) (hT : T ≤ limit) :
    halvedTarget limit T < 2 ^ 235 := by
  have hsize := size_le_size hT
  rw [halvedTarget]
  split_ifs with h
  · have hlt : T < 2 ^ 236 := size_le.mp (by omega)
    omega
  · exact size_le.mp (by omega)

/-- With intervals of up to six days the product stays within 256 bits. -/
theorem halvedTarget_mul_lt (hlimit : size limit ≤ 236) (hT : T ≤ limit)
    (hspan : span ≤ 4 * timespan) (htimespan : 4 * timespan ≤ 2 ^ 21) :
    halvedTarget limit T * span < 2 ^ 256 := by
  calc halvedTarget limit T * span ≤ halvedTarget limit T * 2 ^ 21 :=
        mul_le_mul_left _ (hspan.trans htimespan)
    _ < 2 ^ 235 * 2 ^ 21 :=
        mul_lt_mul_of_pos_right (halvedTarget_lt hlimit hT) (by norm_num)
    _ = 2 ^ 256 := by norm_num

theorem scaledTarget_eq :
    scaledTarget limit T span timespan =
      (if size T = size limit then 2 else 1) *
      (halvedTarget limit T * span / timespan) := by
  rw [scaledTarget, halvedTarget]
  split_ifs
  · rfl
  · rw [one_mul]

/-- The scaled target is at most four times the old one. -/
theorem scaledTarget_le (hspan : span ≤ 4 * timespan) :
    scaledTarget limit T span timespan ≤ 4 * T := by
  have hscale : ∀ x, x * span / timespan ≤ 4 * x := by
    intro x
    refine Nat.div_le_of_le_mul ?_
    calc x * span ≤ x * (4 * timespan) := Nat.mul_le_mul_left _ hspan
      _ = timespan * (4 * x) := by ring
  rw [scaledTarget]
  split_ifs
  · have := hscale (T / 2)
    omega
  · exact hscale T

theorem scaledTarget_pos_iff (htimespan : 0 < timespan) :
    0 < scaledTarget limit T span timespan ↔ timespan ≤ halvedTarget limit T * span := by
  have hdiv : 0 < halvedTarget limit T * span / timespan ↔
      timespan ≤ halvedTarget limit T * span := by
    rw [Nat.div_pos_iff]
    exact and_iff_right htimespan
  rw [scaledTarget_eq, ← hdiv]
  split_ifs <;> omega

/-- Halving before and doubling after the division may lose the lowest bit; the compact form of a
long target does not keep it. -/
theorem compactForm_scaledTarget (hlimit : 28 ≤ size limit) (htimespan : 0 < timespan)
    (hspan : timespan / 4 ≤ span) :
    compactForm (min limit (scaledTarget limit T span timespan)) =
      compactForm (min limit (clearedTarget limit T * span / timespan)) := by
  rw [scaledTarget, clearedTarget]
  split_ifs with hsize
  · generalize hx : T / 2 * span / timespan = x
    have hlow : 2 * x ≤ 2 * (T / 2) * span / timespan := by
      rw [le_div_iff_mul_le htimespan, ← hx, mul_assoc, mul_assoc]
      exact mul_le_mul_left _ (div_mul_le_self _ _)
    have hhigh : 2 * (T / 2) * span / timespan < 2 * x + 2 := by
      have hlt : T / 2 * span < timespan * (x + 1) := by
        rw [← hx]
        exact lt_mul_div_succ _ htimespan
      rw [div_lt_iff_lt_mul htimespan, mul_assoc]
      linarith
    rcases eq_or_lt_of_le hlow with heq | hlt
    · rw [← heq]
    · -- the bit is lost: the target is then still long
      have hodd : 2 * (T / 2) * span / timespan = 2 * x + 1 := by omega
      have hspan0 : 0 < span := by
        rcases Nat.eq_zero_or_pos span with rfl | h
        · simp at hodd
        · exact h
      have hT : 2 ^ 27 ≤ T := lt_size.mp (by omega)
      have hx' : 2 ^ 23 ≤ x := by
        rw [← hx, le_div_iff_mul_le htimespan]
        calc 2 ^ 23 * timespan ≤ 2 ^ 23 * (8 * span) := mul_le_mul_left _ (by omega)
          _ = 2 ^ 26 * span := by ring
          _ ≤ T / 2 * span := mul_le_mul_right _ (by omega)
      rw [hodd]
      rcases lt_or_ge (2 * x) limit with h | h
      · rw [min_eq_right h.le, min_eq_right h, compactForm_odd (by omega)]
      · rw [min_eq_left h, min_eq_left (by omega)]
  · rfl

end Retarget

/-- The two comparisons of the code hold the timespan within its bounds. -/
theorem clamp_eq (timespan : Nat) (actual : Int) :
    (if (if actual < (timespan / 4 : Nat) then ((timespan / 4 : Nat) : Int) else actual) >
        (timespan * 4 : Nat) then ((timespan * 4 : Nat) : Int)
      else if actual < (timespan / 4 : Nat) then ((timespan / 4 : Nat) : Int) else actual) =
      clampTimespan timespan actual := by
  rw [clampTimespan]
  split_ifs <;> omega

/-- What retargeting computes: the scaled target of a product that wraps at 256 bits, not above the
limit, in compact form. -/
theorem calculateNextWorkRequired_spec (params : PowParams) (last : Uint256)
    (firstTime : Int) (hretarget : params.fPowNoRetargeting = false)
    (hlimit : size params.powLimit.toNat ≤ 236) (htimespan : 0 < params.nPowTargetTimespan)
    (hspan : 4 * params.nPowTargetTimespan < 2 ^ 32) (hpos : 0 < compactValue (t.nBits last))
    (hle : compactValue (t.nBits last) ≤ params.powLimit.toNat) :
    ∃ nBits, calculateNextWorkRequired t params last firstTime = .ok nBits ∧
      nBits.toNat = compactForm (min params.powLimit.toNat
        (wrappedTarget params.powLimit.toNat (compactValue (t.nBits last))
          (clampTimespan params.nPowTargetTimespan (t.getBlockTime last - firstTime))
          params.nPowTargetTimespan)) := by
  generalize hspan' :
    clampTimespan params.nPowTargetTimespan (t.getBlockTime last - firstTime) = span
  have hbounds := clampTimespan_bounds params.nPowTargetTimespan (t.getBlockTime last - firstTime)
  rw [hspan'] at hbounds
  have hsize := size_le_size hle
  have hTsize := size_pos.mpr hpos
  have hbn : (setCompact (t.nBits last)).bn.toNat = compactValue (t.nBits last) := by
    rw [(setCompact_spec _).1, mod_eq_of_lt (by omega)]
  generalize compactValue (t.nBits last) = T at *
  generalize hL : params.powLimit.toNat = L at *
  have hshift : size T > (size L + 2 ^ 32 - 1) % 2 ^ 32 ↔ size T = size L := by
    omega
  have hword : (BitVec.ofInt 32 (span : Int)).toNat = span := by
    rw [BitVec.ofInt_natCast, BitVec.toNat_ofNat]
    omega
  have hdivisor : (ofUint64 (BitVec.ofNat 64 params.nPowTargetTimespan) : ArithUint256).toNat =
      params.nPowTargetTimespan := by
    rw [toNat_ofUint64, BitVec.toNat_ofNat]
    omega
  simp only [calculateNextWorkRequired, hretarget, Bool.false_eq_true, if_false, clamp_eq, hspan',
    bits_eq, toNat_uintToArith256, hbn, hL, hshift]
  -- the target that is multiplied
  generalize hhalved : (if size T = size L then shrAssign _ 1 else _ : ArithUint256) = bn
  have hhalf : bn.toNat = halvedTarget L T := by
    rw [← hhalved, halvedTarget]
    split_ifs
    · rw [toNat_shrAssign, hbn, pow_one]
    · exact hbn
  obtain ⟨h, -⟩ | ⟨-, q, hq, hqv⟩ := divAssign_eq (bn.mulAssign32 (BitVec.ofInt 32 (span : Int)))
    (ofUint64 (BitVec.ofNat 64 params.nPowTargetTimespan))
  · omega
  rw [toNat_mulAssign32, hhalf, hword, hdivisor] at hqv
  -- doubling the quotient stays far below 256 bits
  have hqle : q.toNat ≤ 2 ^ 237 := by
    rw [hqv]
    have hhalved := halvedTarget_lt hlimit hle
    refine Nat.div_le_of_le_mul ((mod_le _ _).trans ?_)
    calc halvedTarget L T * span ≤ 2 ^ 235 * (4 * params.nPowTargetTimespan) :=
          Nat.mul_le_mul hhalved.le hbounds.2
      _ = params.nPowTargetTimespan * 2 ^ 237 := by ring
  have hdouble : (if size T = size L then q.shlAssign 1 else q).toNat =
      (if size T = size L then 2 else 1) * q.toNat := by
    split_ifs
    · rw [toNat_shlAssign, pow_one, mod_eq_of_lt (by omega), mul_comm]
    · rw [one_mul]
  rw [hq, ok_bind]
  obtain ⟨nBits, hnBits, hform⟩ := getCompact_spec
    (if (if size T = size L then q.shlAssign 1 else q).compareTo
        (uintToArith256 params.powLimit) > 0 then uintToArith256 params.powLimit
      else if size T = size L then q.shlAssign 1 else q)
  refine ⟨nBits, hnBits, hform.trans (congrArg compactForm ?_)⟩
  rw [wrappedTarget, ← hqv, ← hdouble]
  generalize (if size T = size L then q.shlAssign 1 else q) = bnNew
  simp only [compareTo_pos_iff, toNat_uintToArith256, hL]
  split_ifs with hgt
  · rw [toNat_uintToArith256, hL, min_eq_left hgt.le]
  · rw [min_eq_right (not_lt.mp hgt)]

/-- The height at which the interval that ends with a block of height `nHeight` starts: the full
period, except for the first interval. -/
def firstHeight (params : PowParams) (nHeight : Nat) : Nat :=
  if nHeight + 1 = params.difficultyAdjustmentInterval then 0
  else nHeight - params.difficultyAdjustmentInterval

/-- At the end of an interval the first block of the interval is found, and the target is
recalculated. -/
theorem getNextWorkRequired_retarget (params : PowParams) (last : Uint256)
    (blockTime : Int) (hinterval : 2 ≤ params.difficultyAdjustmentInterval)
    (hheight : ((t.node last).nHeight + 1) % params.difficultyAdjustmentInterval = 0) :
    ∃ first, t.getAncestor last (firstHeight params (t.node last).nHeight) = some first ∧
      getNextWorkRequired t params (some last) blockTime =
        calculateNextWorkRequired t params last (t.getBlockTime first) := by
  obtain ⟨nProofOfWorkLimit, hcompact, -⟩ := getCompact_spec (uintToArith256 params.powLimit)
  obtain ⟨k, hk⟩ := dvd_of_mod_eq_zero hheight
  have hback : params.difficultyAdjustmentInterval ≤ (t.node last).nHeight + 1 :=
    le_of_dvd (by omega) ⟨k, hk⟩
  -- a later interval ends at least one whole interval above the first block
  have hfirst : firstHeight params (t.node last).nHeight ≤ (t.node last).nHeight := by
    rw [firstHeight]
    split_ifs <;> omega
  have hsome : (t.getAncestor last (firstHeight params (t.node last).nHeight)).isSome :=
    t.toBlockTree.getAncestor_isSome (by omega) (by exact_mod_cast hfirst)
  obtain ⟨first, hanc⟩ := Option.isSome_iff_exists.mp hsome
  have hwalk : t.walkBack (if (t.node last).nHeight + 1 ≠ params.difficultyAdjustmentInterval then
      params.difficultyAdjustmentInterval else params.difficultyAdjustmentInterval - 1) last =
      some first := by
    rw [BlockTree.getAncestor, if_neg (by omega)] at hanc
    rw [← hanc, Int.toNat_natCast, firstHeight]
    congr 1
    split_ifs <;> omega
  refine ⟨first, hanc, ?_⟩
  simp only [getNextWorkRequired, hcompact, ok_bind, hheight, ne_eq, not_true, if_false, hwalk]

/-- What a new target is: the compact form of the scaled target, whenever the product stays within
256 bits, as it does for intervals of up to six days; never above the limit and never more than four
times the old one; zero only when the scaled target is. -/
structure IsNextTarget (params : PowParams) (T span : Nat) (nBits : BitVec 32) : Prop where
  /-- Intervals of up to six days leave the product within 256 bits. -/
  product_lt : 4 * params.nPowTargetTimespan ≤ 2 ^ 21 →
    halvedTarget params.powLimit.toNat T * span < 2 ^ 256
  /-- The scaled target, halved first and doubled last when it is as long as the limit. -/
  form : halvedTarget params.powLimit.toNat T * span < 2 ^ 256 →
    nBits.toNat = compactForm (min params.powLimit.toNat
      (scaledTarget params.powLimit.toNat T span params.nPowTargetTimespan))
  /-- For a limit of at least 28 bits the order of doubling and rounding does not show. -/
  ideal : halvedTarget params.powLimit.toNat T * span < 2 ^ 256 →
    28 ≤ size params.powLimit.toNat →
    nBits.toNat = compactForm (min params.powLimit.toNat
      (clearedTarget params.powLimit.toNat T * span / params.nPowTargetTimespan))
  nonneg : compactSign nBits = false
  le_limit : compactValue nBits ≤ params.powLimit.toNat
  le_four_mul : compactValue nBits ≤ 4 * T
  /-- It is zero only when the scaled product is less than the intended timespan. -/
  pos_iff : halvedTarget params.powLimit.toNat T * span < 2 ^ 256 →
    (0 < compactValue nBits ↔ params.nPowTargetTimespan ≤ halvedTarget params.powLimit.toNat
      T * span)

theorem isNextTarget_of_form {params : PowParams} {T span : Nat} {nBits : BitVec 32}
    (hlimit : size params.powLimit.toNat ≤ 236) (htimespan : 0 < params.nPowTargetTimespan)
    (hpos : 0 < T) (hle : T ≤ params.powLimit.toNat) (hlow : params.nPowTargetTimespan / 4 ≤ span)
    (hhigh : span ≤ 4 * params.nPowTargetTimespan)
    (hform : nBits.toNat = compactForm (min params.powLimit.toNat
      (wrappedTarget params.powLimit.toNat T span params.nPowTargetTimespan))) :
    IsNextTarget params T span nBits := by
  obtain ⟨hsign, hvalue, -⟩ := compactValue_compactForm hform
  -- a product that wraps only makes the target smaller
  have hwrap : wrappedTarget params.powLimit.toNat T span params.nPowTargetTimespan ≤
      scaledTarget params.powLimit.toNat T span params.nPowTargetTimespan := by
    rw [scaledTarget_eq]
    exact Nat.mul_le_mul_left _ (Nat.div_le_div_right (mod_le _ _))
  have hscaled : halvedTarget params.powLimit.toNat T * span < 2 ^ 256 →
      nBits.toNat = compactForm (min params.powLimit.toNat
        (scaledTarget params.powLimit.toNat T span params.nPowTargetTimespan)) := by
    intro h
    rw [hform, wrappedTarget, mod_eq_of_lt h, scaledTarget_eq]
  exact {
    product_lt := halvedTarget_mul_lt hlimit hle hhigh
    form := hscaled
    ideal := fun h hlong => (hscaled h).trans (compactForm_scaledTarget hlong htimespan hlow)
    nonneg := hsign
    le_limit := hvalue.trans (min_le_left _ _)
    le_four_mul := (hvalue.trans (min_le_right _ _)).trans (hwrap.trans (scaledTarget_le hhigh))
    pos_iff := fun h => by
      rw [(compactValue_compactForm (hscaled h)).2.2, ← scaledTarget_pos_iff htimespan]
      omega }

/-- Retargeting: at the end of an interval no assertion fails and the result is the next target, for
the time that the interval took; within an interval, without the rule for late blocks, the target
stays. -/
theorem getNextWorkRequired_retargets (t : HeaderTree) (params : PowParams) (last : Uint256)
    (blockTime : Int) (hretarget : params.fPowNoRetargeting = false)
    (hlimit : size params.powLimit.toNat ≤ 236)
    (hspan : 4 * params.nPowTargetTimespan < 2 ^ 32)
    (hinterval : 2 ≤ params.difficultyAdjustmentInterval)
    (htarget : EncodesTarget (t.nBits last))
    (hle : compactValue (t.nBits last) ≤ params.powLimit.toNat) :
    (((t.node last).nHeight + 1) % params.difficultyAdjustmentInterval = 0 →
      ∃ first nBits, t.getAncestor last (firstHeight params (t.node last).nHeight) = some first ∧
        getNextWorkRequired t params (some last) blockTime = .ok nBits ∧
        IsNextTarget params (compactValue (t.nBits last))
          (clampTimespan params.nPowTargetTimespan (t.getBlockTime last - t.getBlockTime first))
          nBits) ∧
      (((t.node last).nHeight + 1) % params.difficultyAdjustmentInterval ≠ 0 →
        params.fPowAllowMinDifficultyBlocks = false →
        getNextWorkRequired t params (some last) blockTime = .ok (t.nBits last)) := by
  have htimespan : 0 < params.nPowTargetTimespan := by
    rcases Nat.eq_zero_or_pos params.nPowTargetTimespan with h | h
    · rw [PowParams.difficultyAdjustmentInterval, h, Nat.zero_div] at hinterval
      omega
    · exact h
  refine ⟨fun hheight => ?_, fun hheight hmin => ?_⟩
  · obtain ⟨first, hfirst, hnext⟩ :=
      getNextWorkRequired_retarget t params last blockTime hinterval hheight
    obtain ⟨nBits, hcalc, hform⟩ := calculateNextWorkRequired_spec t params last
      (t.getBlockTime first) hretarget hlimit htimespan hspan htarget.2.1 hle
    have hbounds := clampTimespan_bounds params.nPowTargetTimespan
      (t.getBlockTime last - t.getBlockTime first)
    exact ⟨first, nBits, hfirst, hnext.trans hcalc,
      isNextTarget_of_form hlimit htimespan htarget.2.1 hle hbounds.1 hbounds.2 hform⟩
  · obtain ⟨nProofOfWorkLimit, hcompact, -⟩ := getCompact_spec (uintToArith256 params.powLimit)
    simp only [getNextWorkRequired, hcompact, ok_bind, if_pos hheight, hmin, Bool.false_eq_true,
      if_false]
    rfl

/-! ### A target that vanishes -/

/-- The parameters of the main network. -/
def mainPow : PowParams where
  powLimit := 0x00000fffffffffffffffffffffffffffffffffffffffffffffffffffffffffff#256
  fPowAllowMinDifficultyBlocks := false
  fPowNoRetargeting := false
  nPowTargetSpacing := 2 * 60
  nPowTargetTimespan := 1 * 24 * 60 * 60

/-- A chain in which every block is named by its height, and all have the same time and `nBits`. -/
def uniformChain (time bits : BitVec 32) : HeaderTree where
  node h :=
    { pprev := if h = 0 then none else some (h - 1)
      nHeight := h.toNat
      nChainWork := h.toNat
      nTx := 1
      nChainTx := h.toNat
      nStatus := 0 }
  height_genesis := by
    intro h hp
    by_cases h0 : h = 0
    · rw [h0]
      rfl
    · exact absurd hp (by simpa using h0)
  height_child := by
    intro h p hp
    by_cases h0 : h = 0
    · simp [h0] at hp
    · simp only [h0, if_false, Option.some.injEq] at hp
      subst hp
      have hpos : 1 ≤ h.toNat := Nat.pos_of_ne_zero fun hz => h0 (BitVec.eq_of_toNat_eq hz)
      have hsub : (h - 1).toNat = h.toNat - 1 := BitVec.toNat_sub_of_le hpos
      dsimp only
      omega
  nTime _ := time
  nBits _ := bits

/-- The first interval of the main network with the largest target, all blocks at one time: the
target falls to a quarter. -/
theorem getNextWorkRequired_retargets_main :
    ∃ first nBits,
      (uniformChain 0 0x1e0fffff).getAncestor 719 (firstHeight mainPow 719) = some first ∧
      getNextWorkRequired (uniformChain 0 0x1e0fffff) mainPow (some 719) 0 = .ok nBits ∧
      IsNextTarget mainPow (compactValue 0x1e0fffff) (clampTimespan 86400 0) nBits :=
  (getNextWorkRequired_retargets (uniformChain 0 0x1e0fffff) mainPow 719 0 rfl
    (by decide) (by decide) (by decide) (by decide) (by decide)).1 (by decide)

/-- On the main network a target of one is followed by a target of zero, which no hash meets. -/
theorem getNextWorkRequired_zero :
    EncodesTarget 0x01010000 ∧ compactValue 0x01010000 = 1 ∧
      ∃ nBits, getNextWorkRequired (uniformChain 0 0x01010000) mainPow (some 719) 0 = .ok nBits ∧
        compactValue nBits = 0 := by
  refine ⟨by decide, by decide, ?_⟩
  obtain ⟨first, -, hnext⟩ := getNextWorkRequired_retarget (uniformChain 0 0x01010000) mainPow 719 0
    (by decide) (by decide)
  obtain ⟨nBits, hcalc, hform⟩ := calculateNextWorkRequired_spec (uniformChain 0 0x01010000) mainPow
    719 0 rfl (by decide) (by decide) (by decide) (by decide) (by decide)
  refine ⟨nBits, hnext.trans hcalc, ?_⟩
  -- a quarter of one is rounded to zero
  obtain rfl : nBits = 0 := BitVec.eq_of_toNat_eq (hform.trans (by decide))
  decide

end DefcoinCore
