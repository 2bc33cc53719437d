import DefcoinCore.Chain.BlockIndex
import DefcoinCore.Lib.Limbs

/-!
# `arith_uint256`

`base_uint<BITS>` of `arith_uint256.h`: a number in limbs of 32 bits, the lowest first, with the
operators as the code computes them. Sums of limbs are 64-bit words whose high half is the carry;
subtraction adds the complement; division shifts the divisor up to the dividend and subtracts it on
the way back down. Every operator is shown to be the operation on natural numbers modulo the
capacity of the limbs (`toNat_addAssign` and its neighbours), for every number of limbs.
`arith_uint256` has eight of them, and the compact encoding of difficulty targets.
-/

namespace DefcoinCore

open Limbs List Nat

/-- How a computation on big integers ends without a result. -/
inductive ArithFault where
  | assertion
  /-- The exception `uint_error` is thrown. -/
  | uintError (what : String)
deriving DecidableEq

/-- `base_uint<BITS>`: `WIDTH = BITS / 32` limbs, the lowest first. -/
structure BaseUint (width : Nat) where
  pn : List (BitVec 32)
  length_pn : pn.length = width
deriving DecidableEq

namespace BaseUint

variable {width : Nat}

/-- The number that the limbs stand for. -/
def toNat (a : BaseUint width) : Nat := value a.pn

/-- `base_uint()`. -/
def zero : BaseUint width := ⟨List.replicate width 0, List.length_replicate⟩

/-- `base_uint(uint64_t b)`. -/
def ofUint64 (b : BitVec 64) : BaseUint (width + 2) :=
  ⟨b.setWidth 32 :: (b >>> 32).setWidth 32 :: List.replicate width 0, by simp⟩

/-- `operator~`. -/
def not (a : BaseUint width) : BaseUint width := ⟨a.pn.map (~~~ ·), by simp [a.length_pn]⟩

/-- `operator++`: the limbs are incremented as long as they wrap. -/
def preIncrement (a : BaseUint width) : BaseUint width := ⟨increment a.pn, by simp [a.length_pn]⟩

/-- The unary `operator-`. -/
def neg (a : BaseUint width) : BaseUint width := a.not.preIncrement

/-- `operator+=`. -/
def addAssign (a b : BaseUint width) : BaseUint width :=
  ⟨carryLoop 32 (List.zipWith (fun x y => x.setWidth 64 + y.setWidth 64) a.pn b.pn) 0,
    by simp [a.length_pn, b.length_pn]⟩

/-- `operator-=`. -/
def subAssign (a b : BaseUint width) : BaseUint width := a.addAssign b.neg

/-- `operator+=(uint64_t)`. -/
def addAssign64 (a : BaseUint (width + 2)) (b64 : BitVec 64) : BaseUint (width + 2) :=
  a.addAssign (ofUint64 b64)

/-- `operator-=(uint64_t)`. -/
def subAssign64 (a : BaseUint (width + 2)) (b64 : BitVec 64) : BaseUint (width + 2) :=
  a.addAssign (ofUint64 b64).neg

/-- `operator*=(uint32_t)`. -/
def mulAssign32 (a : BaseUint width) (b32 : BitVec 32) : BaseUint width :=
  ⟨carryLoop 32 (a.pn.map fun x => b32.setWidth 64 * x.setWidth 64) 0, by simp [a.length_pn]⟩

/-- One row of the long multiplication: limb `j` times `b` is added to the limbs from `j` on. -/
def mulRow (pn b : List (BitVec 32)) (a : List (BitVec 32)) (j : Nat) : List (BitVec 32) :=
  a.take j ++ carryLoop 32
    (List.zipWith (fun x y => x.setWidth 64 + (pn.getD j 0).setWidth 64 * y.setWidth 64)
      (a.drop j) b) 0

variable {a : BaseUint width} {k shift : Nat}

theorem length_mulRow (pn b a : List (BitVec 32)) (hlen : a.length = b.length) (j : Nat) :
    (mulRow pn b a j).length = a.length := by
  simp [mulRow]
  omega

/-- The rows keep the number of limbs. -/
theorem length_foldl_mulRow (pn b : List (BitVec 32)) (rows : List Nat) (a : List (BitVec 32))
    (hlen : a.length = b.length) : (rows.foldl (mulRow pn b) a).length = a.length := by
  induction rows generalizing a with
  | nil => rfl
  | cons j rows ih =>
    have hrow := length_mulRow pn b a hlen j
    rw [foldl_cons, ih _ (hrow.trans hlen), hrow]

/-- `operator*=(const base_uint&)`. -/
def mulAssign (a b : BaseUint width) : BaseUint width :=
  ⟨(List.range width).foldl (mulRow a.pn b.pn) (List.replicate width 0), by
    rw [length_foldl_mulRow _ _ _ _ (by simp [b.length_pn]), List.length_replicate]⟩

/-- What one iteration of `operator<<=` ors into the limbs of the result. -/
def shlWrites (a : List (BitVec 32)) (k shift i : Nat) : List (Nat × BitVec 32) :=
  (if i + k + 1 < a.length ∧ shift ≠ 0 then [(i + k + 1, a.getD i 0 >>> (32 - shift))] else []) ++
    (if i + k < a.length then [(i + k, a.getD i 0 <<< shift)] else [])

/-- `operator<<=`. -/
def shlAssign (a : BaseUint width) (shift : Nat) : BaseUint width :=
  ⟨((List.range width).flatMap (shlWrites a.pn (shift / 32) (shift % 32))).foldl orAt
    (List.replicate width 0), by simp⟩

/-- What one iteration of `operator>>=` ors into the limbs of the result. -/
def shrWrites (a : List (BitVec 32)) (k shift i : Nat) : List (Nat × BitVec 32) :=
  (if k + 1 ≤ i ∧ shift ≠ 0 then [(i - k - 1, a.getD i 0 <<< (32 - shift))] else []) ++
    (if k ≤ i then [(i - k, a.getD i 0 >>> shift)] else [])

/-- `operator>>=`. -/
def shrAssign (a : BaseUint width) (shift : Nat) : BaseUint width :=
  ⟨((List.range width).flatMap (shrWrites a.pn (shift / 32) (shift % 32))).foldl orAt
    (List.replicate width 0), by simp⟩

/-- `CompareTo`. -/
def compareTo (a b : BaseUint width) : Int := compareLoop a.pn b.pn width

/-- The inner loop of `bits`: the highest set bit of a limb that is not zero, plus one. -/
def limbBits (p : BitVec 32) : Nat → Nat
  | 0 => 1
  | nbits + 1 => if p &&& 1#32 <<< (nbits + 1) ≠ 0 then nbits + 2 else limbBits p nbits

/-- The outer loop of `bits`, over the limbs below the given position. -/
def bitsLoop (pn : List (BitVec 32)) : Nat → Nat
  | 0 => 0
  | pos + 1 =>
    if pn.getD pos 0 ≠ 0 then 32 * pos + limbBits (pn.getD pos 0) 31 else bitsLoop pn pos

/-- `bits`. -/
def bits (a : BaseUint width) : Nat := bitsLoop a.pn width

/-- `pn[shift / 32] |= (1 << (shift & 31))`. -/
def setBit (a : BaseUint width) (shift : Nat) : BaseUint width :=
  ⟨orAt a.pn (shift / 32, 1#32 <<< (shift % 32)), by simp [a.length_pn]⟩

/-- The loop of `operator/=`; the number of iterations left is one more than `shift`. -/
def divLoop : Nat → BaseUint width → BaseUint width → BaseUint width → BaseUint width
  | 0, _, _, quotient => quotient
  | shift + 1, num, div, quotient =>
    if num.compareTo div ≥ 0 then
      divLoop shift (num.subAssign div) (div.shrAssign 1) (quotient.setBit shift)
    else divLoop shift num (div.shrAssign 1) quotient

/-- `operator/=`. -/
def divAssign (a b : BaseUint width) : Except ArithFault (BaseUint width) :=
  let num_bits := a.bits
  let div_bits := b.bits
  if div_bits = 0 then throw (.uintError "Division by zero")
  else if div_bits > num_bits then pure zero
  else
    let shift := num_bits - div_bits
    pure (divLoop (shift + 1) a (b.shlAssign shift) zero)

/-- `EqualTo(uint64_t)`: the limbs above the second are zero and the two lowest are those of `b`. -/
def equalTo (a : BaseUint width) (b : BitVec 64) : Bool :=
  (a.pn.drop 2).all (· == 0) && a.pn.getD 1 0 == (b >>> 32).setWidth 32 &&
    a.pn.getD 0 0 == b.setWidth 32

/-- `GetLow64`. -/
def getLow64 (a : BaseUint width) : BitVec 64 :=
  (a.pn.getD 0 0).setWidth 64 ||| (a.pn.getD 1 0).setWidth 64 <<< 32

/-! ## The operators on numbers -/

theorem toNat_lt (a : BaseUint width) : a.toNat < 2 ^ (32 * width) := by
  have h := value_lt a.pn
  rwa [a.length_pn] at h

/-- Equal numbers have equal limbs. -/
theorem toNat_injective {b : BaseUint width} (h : a.toNat = b.toNat) : a = b := by
  obtain ⟨pn, hpn⟩ := a
  obtain ⟨qn, hqn⟩ := b
  obtain rfl : pn = qn := value_injective (hpn.trans hqn.symm) h
  rfl

@[simp]
theorem toNat_zero : (zero : BaseUint width).toNat = 0 := value_replicate_zero _

@[simp]
theorem toNat_ofUint64 (b : BitVec 64) : (ofUint64 b : BaseUint (width + 2)).toNat = b.toNat := by
  rw [toNat, ofUint64, value_cons, value_cons, value_replicate_zero, BitVec.toNat_setWidth,
    BitVec.toNat_setWidth, BitVec.toNat_ushiftRight, shiftRight_eq_div_pow]
  omega

theorem toNat_not (a : BaseUint width) : a.not.toNat = 2 ^ (32 * width) - 1 - a.toNat := by
  rw [toNat, not, value_map_not, a.length_pn, toNat]

theorem toNat_preIncrement (a : BaseUint width) :
    a.preIncrement.toNat = (a.toNat + 1) % 2 ^ (32 * width) := by
  rw [toNat, preIncrement, value_increment (by omega), a.length_pn, toNat]

theorem toNat_neg (a : BaseUint width) :
    a.neg.toNat = (2 ^ (32 * width) - a.toNat) % 2 ^ (32 * width) := by
  have ha := a.toNat_lt
  rw [neg, toNat_preIncrement, toNat_not]
  congr 1
  omega

/-- A limb in 64 bits. -/
theorem toNat_wide (x : BitVec 32) : (x.setWidth 64).toNat = x.toNat :=
  BitVec.toNat_setWidth_of_le (by omega)

theorem toNat_addAssign (a b : BaseUint width) :
    (a.addAssign b).toNat = (a.toNat + b.toNat) % 2 ^ (32 * width) := by
  have hcolumn : ∀ x y : BitVec 32,
      (x.setWidth 64 + y.setWidth 64).toNat = 1 * x.toNat + 1 * y.toNat := by
    intro x y
    rw [BitVec.toNat_add, toNat_wide, toNat_wide]
    omega
  rw [toNat, addAssign, value_carryLoop_zipWith (by omega) _ 1 1 hcolumn, a.length_pn, one_mul,
    one_mul, toNat, toNat]
  · intro x y
    rw [hcolumn]
    omega
  · rw [a.length_pn, b.length_pn]

/-- Subtraction is that of the integers, modulo the capacity. -/
theorem toNat_subAssign (a b : BaseUint width) :
    ((a.subAssign b).toNat : Int) = ((a.toNat : Int) - b.toNat) % (2 ^ (32 * width) : Nat) := by
  have hb := b.toNat_lt
  rw [subAssign, toNat_addAssign, toNat_neg, add_mod_mod, Int.natCast_mod, cast_add,
    cast_sub hb.le, show (a.toNat : Int) + ((2 ^ (32 * width) : Nat) - b.toNat) =
      a.toNat - b.toNat + (2 ^ (32 * width) : Nat) by ring, Int.add_emod_right]

theorem toNat_subAssign_of_le {b : BaseUint width} (h : b.toNat ≤ a.toNat) :
    (a.subAssign b).toNat = a.toNat - b.toNat := by
  have ha := a.toNat_lt
  have hsub := a.toNat_subAssign b
  rw [← cast_sub h, ← Int.natCast_mod, mod_eq_of_lt (by omega)] at hsub
  exact_mod_cast hsub

/-- A limb plus a product of two limbs fits into 64 bits together with a carry. -/
theorem column_room (x p y : BitVec 32) : x.toNat + p.toNat * y.toNat + 2 ^ 32 ≤ 2 ^ (2 * 32) := by
  have hprod : p.toNat * y.toNat ≤ (2 ^ 32 - 1) * (2 ^ 32 - 1) :=
    Nat.mul_le_mul (Nat.le_sub_one_of_lt p.isLt) (Nat.le_sub_one_of_lt y.isLt)
  omega

theorem toNat_mulAssign32 (a : BaseUint width) (b32 : BitVec 32) :
    (a.mulAssign32 b32).toNat = a.toNat * b32.toNat % 2 ^ (32 * width) := by
  have hcolumn : ∀ x y : BitVec 32,
      (b32.setWidth 64 * x.setWidth 64).toNat = b32.toNat * x.toNat + 0 * y.toNat := by
    intro x y
    have h := column_room 0 b32 x
    rw [BitVec.toNat_mul, toNat_wide, toNat_wide, mod_eq_of_lt (by omega)]
    omega
  have hval : (a.mulAssign32 b32).toNat =
      value (carryLoop 32 (zipWith (fun x _ => b32.setWidth 64 * x.setWidth 64) a.pn a.pn) 0) := by
    rw [zipWith_self]
    rfl
  rw [hval, value_carryLoop_zipWith (by omega) _ b32.toNat 0 hcolumn,
    a.length_pn, zero_mul, add_zero, mul_comm, toNat]
  · intro x y
    have h := column_room 0 b32 x
    rw [hcolumn x y]
    omega
  · rfl

/-- One row adds limb `j` times `b`, shifted by `j` limbs. -/
theorem value_mulRow (pn b a : List (BitVec 32)) (hlen : a.length = b.length) {j : Nat}
    (hj : j < a.length) :
    value (mulRow pn b a j) =
      (value a + 2 ^ (32 * j) * (pn.getD j 0).toNat * value b) % 2 ^ (32 * a.length) := by
  generalize hp : pn.getD j 0 = p
  have hcolumn : ∀ x y : BitVec 32, (x.setWidth 64 + p.setWidth 64 * y.setWidth 64).toNat =
      1 * x.toNat + p.toNat * y.toNat := by
    intro x y
    have h := column_room x p y
    rw [BitVec.toNat_add, BitVec.toNat_mul, toNat_wide, toNat_wide, toNat_wide,
      mod_eq_of_lt (b := 2 ^ 64) (by omega), mod_eq_of_lt (by omega)]
    omega
  -- the columns of the row: what is above limb `j`, and the limbs of `b` that still fit
  have hrow : value (carryLoop 32
      (zipWith (fun x y => x.setWidth 64 + p.setWidth 64 * y.setWidth 64) (a.drop j) b) 0) =
      (value (a.drop j) + p.toNat * value b) % 2 ^ (32 * (a.length - j)) := by
    have hb := value_take_add_drop b (i := a.length - j) (by omega)
    rw [zipWith_eq_zipWith_take_min, length_drop, min_eq_left (by omega),
      take_of_length_le (by simp), value_carryLoop_zipWith (by omega) _ 1 p.toNat hcolumn, one_mul,
      length_drop, hb, mul_add, ← add_assoc, mul_left_comm,
      add_mul_mod_self_left]
    · intro x y
      rw [hcolumn]
      simpa using column_room x p y
    · simp
      omega
  have htake := value_take_lt a hj.le
  have hcap : 2 ^ (32 * a.length) = 2 ^ (32 * j) * 2 ^ (32 * (a.length - j)) := by
    rw [← pow_add, ← Nat.mul_add, Nat.add_sub_cancel' hj.le]
  rw [mulRow, hp, value_append, hrow, length_take, min_eq_left hj.le,
    value_take_add_drop a hj.le, hcap,
    mul_assoc, add_assoc, ← mul_add, mod_mul, add_mul_mod_self_left,
    Nat.mod_eq_of_lt htake, Nat.add_mul_div_left _ _ (Nat.two_pow_pos _), Nat.div_eq_of_lt htake,
    zero_add]

theorem toNat_mulAssign (a b : BaseUint width) :
    (a.mulAssign b).toNat = a.toNat * b.toNat % 2 ^ (32 * width) := by
  -- after `n` rows the limbs hold the lowest `n` limbs of `a` times `b`
  have hrows : ∀ n ≤ width, value ((range n).foldl (mulRow a.pn b.pn)
      (replicate width 0)) = value (a.pn.take n) * value b.pn % 2 ^ (32 * width) := by
    intro n
    induction n with
    | zero =>
      intro _
      rw [range_zero, foldl_nil, value_replicate_zero, take_zero, value_nil,
        zero_mul, zero_mod]
    | succ n ih =>
      intro hn
      have hlen := length_foldl_mulRow a.pn b.pn (range n) (replicate width 0)
        (by simp [b.length_pn])
      rw [length_replicate] at hlen
      rw [range_succ, foldl_append, foldl_cons, foldl_nil,
        value_mulRow _ _ _ (hlen.trans b.length_pn.symm) (by omega), hlen, ih (by omega),
        mod_add_mod, ← add_mul, value_take_succ]
  rw [toNat, mulAssign, hrows width le_rfl, take_of_length_le a.length_pn.le, toNat, toNat]

/-! ## Shifts -/

/-- A bit of the limbs after a sequence of writes. -/
theorem testBit_writes (writes : List (Nat × BitVec 32)) (l : List (BitVec 32)) (j : Nat) :
    (value (writes.foldl orAt l)).testBit j ↔ (value l).testBit j ∨
      j / 32 < l.length ∧ ∃ p ∈ writes, p.1 = j / 32 ∧ p.2.getLsbD (j % 32) := by
  rw [testBit_value (by omega), testBit_value (by omega)]
  by_cases hj : j / 32 < l.length
  · rw [getLsbD_foldl_orAt _ _ hj, and_iff_right hj]
  · rw [getD_eq_getElem?_getD, getD_eq_getElem?_getD, getElem?_eq_none (by simpa using hj),
      getElem?_eq_none (not_lt.mp hj)]
    simp [hj]

theorem mem_shlWrites {a : List (BitVec 32)} {i : Nat} {p : Nat × BitVec 32} :
    p ∈ shlWrites a k shift i ↔
      (p = (i + k + 1, a.getD i 0 >>> (32 - shift)) ∧ i + k + 1 < a.length ∧ shift ≠ 0) ∨
        (p = (i + k, a.getD i 0 <<< shift) ∧ i + k < a.length) := by
  rw [shlWrites, mem_append]
  split_ifs <;> simp_all

theorem mem_shrWrites {a : List (BitVec 32)} {i : Nat} {p : Nat × BitVec 32} :
    p ∈ shrWrites a k shift i ↔
      (p = (i - k - 1, a.getD i 0 <<< (32 - shift)) ∧ k + 1 ≤ i ∧ shift ≠ 0) ∨
        (p = (i - k, a.getD i 0 >>> shift) ∧ k ≤ i) := by
  rw [shrWrites, mem_append]
  split_ifs <;> simp_all

theorem testBit_of_limb {i r : Nat} (h : (a.pn.getD i 0).getLsbD r) :
    a.toNat.testBit (32 * i + r) = true := by
  rwa [toNat, testBit_value_mul_add _ _ (BitVec.lt_of_getLsbD h)]

/-- A bit of the number is set in one of its limbs. -/
theorem exists_limb_of_testBit {n : Nat} (h : a.toNat.testBit n = true) :
    n / 32 < width ∧ (a.pn.getD (n / 32) 0).getLsbD (n % 32) := by
  rw [toNat, testBit_value (by omega)] at h
  refine ⟨?_, h⟩
  by_contra hn
  rw [getD_eq_getElem?_getD, getElem?_eq_none (by rw [a.length_pn]; omega)] at h
  simp at h

theorem le_of_getLsbD_shiftLeft {x : BitVec 32} {r : Nat} (h : (x <<< shift).getLsbD r) :
    shift ≤ r ∧ x.getLsbD (r - shift) := by
  rw [BitVec.getLsbD_shiftLeft] at h
  simp only [Bool.and_eq_true, Bool.not_eq_true', decide_eq_false_iff_not, not_lt] at h
  exact ⟨h.1.2, h.2⟩

theorem toNat_shlAssign (a : BaseUint width) (shift : Nat) :
    (a.shlAssign shift).toNat = a.toNat * 2 ^ shift % 2 ^ (32 * width) := by
  refine eq_of_testBit_eq fun j => Bool.eq_iff_iff.mpr ?_
  rw [← shiftLeft_eq, testBit_mod_two_pow, testBit_shiftLeft, toNat, shlAssign,
    testBit_writes, value_replicate_zero, length_replicate]
  simp only [mem_flatMap, mem_range, mem_shlWrites, a.length_pn, Bool.and_eq_true,
    decide_eq_true_eq,
    zero_testBit, Bool.false_eq_true, false_or]
  constructor
  · rintro ⟨-, p, ⟨i, hi, ⟨rfl, hlt, hs⟩ | ⟨rfl, hlt⟩⟩, hpj, hbit⟩
    · -- the bits that leave limb `i` at its top
      rw [BitVec.getLsbD_ushiftRight] at hbit
      refine ⟨by omega, by omega, ?_⟩
      rw [show j - shift = 32 * i + (32 - shift % 32 + j % 32) by omega]
      exact testBit_of_limb hbit
    · obtain ⟨hge, hbit⟩ := le_of_getLsbD_shiftLeft hbit
      refine ⟨by omega, by omega, ?_⟩
      rw [show j - shift = 32 * i + (j % 32 - shift % 32) by omega]
      exact testBit_of_limb hbit
  · rintro ⟨hj, hge, hbit⟩
    obtain ⟨hi, hbit⟩ := exists_limb_of_testBit hbit
    by_cases hcross : (j - shift) % 32 + shift % 32 < 32
    · refine ⟨by omega, _, ⟨(j - shift) / 32, hi, .inr ⟨rfl, by omega⟩⟩, by omega, ?_⟩
      rw [BitVec.getLsbD_shiftLeft, show j % 32 - shift % 32 = (j - shift) % 32 by omega, hbit]
      simp
      omega
    · refine ⟨by omega, _, ⟨(j - shift) / 32, hi, .inl ⟨rfl, by omega, by omega⟩⟩, by omega, ?_⟩
      rw [BitVec.getLsbD_ushiftRight,
        show 32 - shift % 32 + j % 32 = (j - shift) % 32 by omega, hbit]

theorem toNat_shrAssign (a : BaseUint width) (shift : Nat) :
    (a.shrAssign shift).toNat = a.toNat / 2 ^ shift := by
  refine eq_of_testBit_eq fun j => Bool.eq_iff_iff.mpr ?_
  rw [← shiftRight_eq_div_pow, testBit_shiftRight, toNat, shrAssign, testBit_writes,
    value_replicate_zero, length_replicate]
  simp only [mem_flatMap, mem_range, mem_shrWrites, zero_testBit, Bool.false_eq_true, false_or]
  constructor
  · rintro ⟨-, p, ⟨i, hi, ⟨rfl, hlt, hs⟩ | ⟨rfl, hlt⟩⟩, hpj, hbit⟩
    · -- the bits that enter from the limb above
      obtain ⟨hge, hbit⟩ := le_of_getLsbD_shiftLeft hbit
      rw [show shift + j = 32 * i + (j % 32 - (32 - shift % 32)) by omega]
      exact testBit_of_limb hbit
    · rw [BitVec.getLsbD_ushiftRight] at hbit
      rw [show shift + j = 32 * i + (shift % 32 + j % 32) by omega]
      exact testBit_of_limb hbit
  · intro hbit
    obtain ⟨hi, hbit⟩ := exists_limb_of_testBit hbit
    by_cases hcross : shift % 32 + j % 32 < 32
    · refine ⟨by omega, _, ⟨(shift + j) / 32, hi, .inr ⟨rfl, by omega⟩⟩, by omega, ?_⟩
      rw [BitVec.getLsbD_ushiftRight, show shift % 32 + j % 32 = (shift + j) % 32 by omega, hbit]
    · refine ⟨by omega, _, ⟨(shift + j) / 32, hi, .inl ⟨rfl, by omega, by omega⟩⟩, by omega, ?_⟩
      rw [BitVec.getLsbD_shiftLeft,
        show j % 32 - (32 - shift % 32) = (shift + j) % 32 by omega, hbit]
      simp
      omega

/-! ## Comparison and bit length -/

theorem compareTo_eq (a b : BaseUint width) :
    a.compareTo b = if a.toNat < b.toNat then -1 else if a.toNat > b.toNat then 1 else 0 := by
  rw [compareTo, compareLoop_spec _ _ _ a.length_pn.ge b.length_pn.ge,
    take_of_length_le a.length_pn.le, take_of_length_le b.length_pn.le, toNat, toNat]

theorem compareTo_nonneg_iff (a b : BaseUint width) : a.compareTo b ≥ 0 ↔ b.toNat ≤ a.toNat := by
  rw [compareTo_eq]
  split_ifs <;> omega

theorem compareTo_pos_iff (a b : BaseUint width) : a.compareTo b > 0 ↔ b.toNat < a.toNat := by
  rw [compareTo_eq]
  split_ifs <;> omega

/-- A number is as long as its position of the highest set bit says. -/
theorem size_eq_of_bounds {n : Nat} (hlow : 2 ^ k ≤ n) (hhigh : n < 2 ^ (k + 1)) :
    Nat.size n = k + 1 :=
  le_antisymm (size_le.mpr hhigh) (lt_size.mpr hlow)

theorem limbBits_eq (p : BitVec 32) (nbits : Nat) (hnbits : nbits < 32) (hp : p ≠ 0)
    (hlt : p.toNat < 2 ^ (nbits + 1)) : limbBits p nbits = Nat.size p.toNat := by
  induction nbits with
  | zero =>
    have hpos : p.toNat ≠ 0 := fun h => hp (BitVec.eq_of_toNat_eq h)
    rw [limbBits, size_eq_of_bounds (k := 0) (by omega) hlt]
  | succ n ih =>
    have hmask : p &&& 1#32 <<< (n + 1) ≠ 0 ↔ 2 ^ (n + 1) ≤ p.toNat := by
      rw [show 1#32 <<< (n + 1) = BitVec.twoPow 32 (n + 1) from rfl, BitVec.and_twoPow]
      have hbit : p.getLsbD (n + 1) = true ↔ 2 ^ (n + 1) ≤ p.toNat :=
        ⟨ge_two_pow_of_testBit, fun h => testBit_of_two_pow_le_and_two_pow_add_one_gt h hlt⟩
      have hne : BitVec.twoPow 32 (n + 1) ≠ 0 := by
        intro h
        have := congrArg (BitVec.getLsbD · (n + 1)) h
        simp [hnbits] at this
      rw [← hbit]
      split_ifs with hset
      · exact iff_of_true hne hset
      · simp [hset]
    rw [limbBits]
    by_cases h : 2 ^ (n + 1) ≤ p.toNat
    · rw [if_pos (hmask.mpr h), size_eq_of_bounds h hlt]
    · rw [if_neg (mt hmask.mp h), ih (by omega) (by omega)]

theorem bitsLoop_eq (pn : List (BitVec 32)) (n : Nat) (hn : n ≤ pn.length) :
    bitsLoop pn n = Nat.size (value (pn.take n)) := by
  induction n with
  | zero => simp [bitsLoop]
  | succ n ih =>
    have hlow := value_take_lt pn (i := n) (by omega)
    rw [bitsLoop, value_take_succ]
    by_cases hp : pn.getD n 0 = 0
    · rw [if_neg (not_not_intro hp), hp, ih (by omega)]
      simp
    · -- the highest set bit is that of the highest limb that is not zero
      have hpos : 0 < (pn.getD n 0).toNat :=
        pos_of_ne_zero fun h => hp (BitVec.eq_of_toNat_eq h)
      obtain ⟨k, hk⟩ := exists_eq_succ_of_ne_zero (size_pos.mpr hpos).ne'
      have hge : 2 ^ k ≤ (pn.getD n 0).toNat := lt_size.mp (by omega)
      have hlt : (pn.getD n 0).toNat < 2 ^ (k + 1) := size_le.mp hk.le
      rw [if_pos hp, limbBits_eq _ 31 (by omega) hp (pn.getD n 0).isLt, hk]
      refine (size_eq_of_bounds (k := 32 * n + k) ?_ ?_).symm
      · rw [pow_add]
        exact (mul_le_mul_left _ hge).trans (le_add_left _ _)
      · rw [add_assoc, pow_add]
        exact add_mul_lt_mul_of_lt_of_lt hlow hlt

/-- `bits` is the bit length. -/
theorem bits_eq (a : BaseUint width) : a.bits = Nat.size a.toNat := by
  rw [bits, bitsLoop_eq _ _ a.length_pn.ge, take_of_length_le a.length_pn.le, toNat]

/-! ## Division -/

theorem toNat_setBit (a : BaseUint width) (h : shift < 32 * width) :
    (a.setBit shift).toNat = a.toNat ||| 2 ^ shift := by
  refine eq_of_testBit_eq fun j => Bool.eq_iff_iff.mpr ?_
  have hbit : (1#32 <<< (shift % 32)).getLsbD (j % 32) ↔ shift % 32 = j % 32 := by
    rw [show 1#32 <<< (shift % 32) = BitVec.twoPow 32 (shift % 32) from rfl, BitVec.getLsbD_twoPow]
    simp
    omega
  have hwrite := testBit_writes [(shift / 32, 1#32 <<< (shift % 32))] a.pn j
  simp only [foldl_cons, foldl_nil, mem_singleton, exists_eq_left, hbit, a.length_pn] at hwrite
  rw [testBit_or, testBit_two_pow, Bool.or_eq_true, decide_eq_true_eq, toNat, toNat, setBit, hwrite]
  exact or_congr_right (by omega)

/-- The loop of the division, at the bit `n - 1` of the quotient. The divisor stands shifted to that
bit, the remainder is below twice the shifted divisor, and the quotient so far has no bit below `n`.
-/
theorem toNat_divLoop {D : Nat} (hD : 0 < D) (n : Nat) :
    ∀ num div quotient : BaseUint width, (∀ s, n = s + 1 → div.toNat = D * 2 ^ s) →
      num.toNat < D * 2 ^ n → 2 ^ n ∣ quotient.toNat →
      (divLoop n num div quotient).toNat = quotient.toNat + num.toNat / D := by
  induction n with
  | zero =>
    intro num div quotient _ hnum _
    rw [divLoop, div_eq_of_lt (by simpa using hnum), add_zero]
  | succ s ih =>
    intro num div quotient hdiv hnum hquot
    have hdivs := hdiv s rfl
    have hnext : ∀ t, s = t + 1 → (div.shrAssign 1).toNat = D * 2 ^ t := by
      rintro t rfl
      rw [toNat_shrAssign, hdivs, pow_one, pow_succ, ← Nat.mul_assoc,
        Nat.mul_div_cancel _ (by omega)]
    rw [divLoop]
    by_cases hge : num.compareTo div ≥ 0
    · rw [if_pos hge]
      rw [compareTo_nonneg_iff] at hge
      have hsub := toNat_subAssign_of_le hge
      rw [hdivs] at hge hsub
      -- the bit is a bit of the limbs, since the divisor shifted by it is
      have hbit : s < 32 * width := by
        have hcap : 2 ^ s < 2 ^ (32 * width) := by
          calc 2 ^ s ≤ D * 2 ^ s := Nat.le_mul_of_pos_left _ hD
            _ = div.toNat := hdivs.symm
            _ < 2 ^ (32 * width) := div.toNat_lt
        exact (Nat.pow_lt_pow_iff_right (by omega)).mp hcap
      obtain ⟨q, hq⟩ := hquot
      have hset : (quotient.setBit s).toNat = quotient.toNat + 2 ^ s := by
        rw [toNat_setBit _ hbit, hq,
          ← Nat.two_pow_add_eq_or_of_lt (Nat.pow_lt_pow_right (by omega) (by omega))]
      rw [ih _ _ _ hnext, hset, hsub, sub_mul_div, add_assoc]
      · congr 1
        refine Nat.add_sub_cancel' ((Nat.le_div_iff_mul_le hD).mpr ?_)
        rw [Nat.mul_comm]
        exact hge
      · rw [hsub]
        rw [pow_succ, ← mul_assoc] at hnum
        omega
      · rw [hset, hq, pow_succ]
        exact ⟨2 * q + 1, by ring⟩
    · rw [if_neg hge]
      rw [compareTo_nonneg_iff, hdivs] at hge
      exact ih _ _ _ hnext (by omega) ((pow_dvd_pow 2 (by omega)).trans hquot)

/-- The quotient is that of the natural numbers; only a zero divisor is refused. -/
theorem divAssign_eq (a b : BaseUint width) :
    (b.toNat = 0 ∧ a.divAssign b = .error (.uintError "Division by zero")) ∨
      (b.toNat ≠ 0 ∧ ∃ q, a.divAssign b = .ok q ∧ q.toNat = a.toNat / b.toNat) := by
  rw [divAssign]
  simp only [bits_eq, size_eq_zero]
  by_cases hzero : b.toNat = 0
  · exact .inl ⟨hzero, by rw [if_pos hzero]; rfl⟩
  refine .inr ⟨hzero, ?_⟩
  rw [if_neg hzero]
  have hblt := lt_size_self b.toNat
  have halt := lt_size_self a.toNat
  by_cases hlong : b.toNat.size > a.toNat.size
  · -- a longer divisor is larger
    refine ⟨zero, if_pos hlong, ?_⟩
    have hle : 2 ^ a.toNat.size ≤ b.toNat := lt_size.mp hlong
    rw [toNat_zero, div_eq_of_lt (by omega)]
  refine ⟨_, if_neg hlong, ?_⟩
  obtain ⟨k, hk⟩ := exists_eq_succ_of_ne_zero (size_eq_zero.not.mpr hzero)
  have hble : 2 ^ k ≤ b.toNat := lt_size.mp (by omega)
  have hcap : a.toNat.size ≤ 32 * width := size_le.mpr a.toNat_lt
  -- the shifted divisor is as long as the dividend, so that no bit of it is lost
  have hshift : (b.shlAssign (a.toNat.size - b.toNat.size)).toNat =
      b.toNat * 2 ^ (a.toNat.size - b.toNat.size) := by
    rw [toNat_shlAssign]
    refine mod_eq_of_lt ?_
    calc b.toNat * 2 ^ (a.toNat.size - b.toNat.size)
        < 2 ^ b.toNat.size * 2 ^ (a.toNat.size - b.toNat.size) :=
          Nat.mul_lt_mul_of_pos_right hblt (Nat.two_pow_pos _)
      _ = 2 ^ a.toNat.size := by rw [← pow_add, Nat.add_sub_cancel' (by omega)]
      _ ≤ 2 ^ (32 * width) := Nat.pow_le_pow_right (by omega) hcap
  rw [toNat_divLoop (pos_of_ne_zero hzero), toNat_zero, zero_add]
  · rintro s hs
    rw [hshift, show a.toNat.size - b.toNat.size = s by omega]
  · calc a.toNat < 2 ^ a.toNat.size := halt
      _ = 2 ^ k * 2 ^ (a.toNat.size - b.toNat.size + 1) := by
        rw [← pow_add]
        congr 1
        omega
      _ ≤ b.toNat * 2 ^ (a.toNat.size - b.toNat.size + 1) := mul_le_mul_right _ hble
  · rw [toNat_zero]
    exact dvd_zero _

/-! ## Small values -/

theorem toNat_getLow64 (a : BaseUint (width + 2)) : a.getLow64.toNat = a.toNat % 2 ^ 64 := by
  obtain ⟨pn, hpn⟩ := a
  obtain _ | ⟨x, _ | ⟨y, l⟩⟩ := pn
  · simp at hpn
  · simp at hpn
  have hx := x.isLt
  have hlow : (getLow64 ⟨x :: y :: l, hpn⟩ : BitVec 64).toNat = x.toNat + 2 ^ 32 * y.toNat := by
    rw [getLow64, getD_cons_zero, getD_cons_succ, getD_cons_zero, BitVec.toNat_or,
      BitVec.toNat_shiftLeft, toNat_wide, toNat_wide, shiftLeft_eq, mod_eq_of_lt (by omega),
      Nat.or_comm, Nat.mul_comm, ← Nat.two_pow_add_eq_or_of_lt hx, Nat.add_comm]
  rw [hlow, toNat, value_cons, value_cons]
  omega

theorem equalTo_iff (a : BaseUint (width + 2)) (b : BitVec 64) :
    a.equalTo b = true ↔ a.toNat = b.toNat := by
  have hofNat : a = ofUint64 b ↔ a.toNat = b.toNat := by
    constructor
    · rintro rfl
      exact toNat_ofUint64 b
    · intro h
      exact toNat_injective (h.trans (toNat_ofUint64 b).symm)
  rw [← hofNat]
  obtain ⟨pn, hpn⟩ := a
  obtain _ | ⟨x, _ | ⟨y, l⟩⟩ := pn
  · simp at hpn
  · simp at hpn
  have hl : l.length = width := by simpa using hpn
  simp only [equalTo, ofUint64, drop_succ_cons, drop_zero, getD_cons_zero,
    getD_cons_succ, Bool.and_eq_true, all_eq_true, beq_iff_eq, mk.injEq, cons.injEq,
    eq_replicate_iff, hl, true_and]
  tauto

end BaseUint

/-! ## `arith_uint256` -/

open BaseUint

/-- `arith_uint256`. -/
abbrev ArithUint256 := BaseUint 8

/-- `UintToArith256`. -/
def uintToArith256 (a : Uint256) : ArithUint256 :=
  ⟨(List.range 8).map fun x => a.extractLsb' (32 * x) 32, by simp⟩

variable {m n : Nat}

@[simp]
theorem toNat_uintToArith256 (a : Uint256) : (uintToArith256 a).toNat = a.toNat := by
  refine eq_of_testBit_eq fun j => ?_
  rw [BaseUint.toNat, testBit_value (by omega), uintToArith256, getD_eq_getElem?_getD,
    getElem?_map, ← BitVec.getLsbD]
  by_cases hj : j / 32 < 8
  · rw [getElem?_range hj, Option.map_some, Option.getD_some, BitVec.getLsbD_extractLsb',
      div_add_mod]
    simp [mod_lt]
  · rw [getElem?_eq_none (by simpa using hj), Option.map_none, Option.getD_none,
      BitVec.getLsbD_of_ge a j (by omega)]
    simp

/-- What `SetCompact` reports: the number and the two flags. -/
structure Compact where
  bn : ArithUint256
  fNegative : Bool
  fOverflow : Bool

variable (nCompact : BitVec 32)

/-- `arith_uint256::SetCompact`. -/
def setCompact : Compact :=
  let nSize := (nCompact >>> 24).toNat
  let nWord := nCompact &&& 0x007fffff#32
  let nWord := if nSize ≤ 3 then nWord >>> (8 * (3 - nSize)) else nWord
  let bn : ArithUint256 := ofUint64 (nWord.setWidth 64)
  { bn := if nSize ≤ 3 then bn else bn.shlAssign (8 * (nSize - 3))
    fNegative := nWord ≠ 0 ∧ nCompact &&& 0x00800000#32 ≠ 0
    fOverflow := nWord ≠ 0 ∧
      (nSize > 34 ∨ (nWord > 0xff#32 ∧ nSize > 33) ∨ (nWord > 0xffff#32 ∧ nSize > 32)) }

/-- `arith_uint256::GetCompact`. -/
def getCompact (a : ArithUint256) (fNegative : Bool) : Except ArithFault (BitVec 32) :=
  let nSize := (a.bits + 7) / 8
  let nCompact : BitVec 32 :=
    if nSize ≤ 3 then (a.getLow64 <<< (8 * (3 - nSize))).setWidth 32
    else (a.shrAssign (8 * (nSize - 3))).getLow64.setWidth 32
  -- bit 23 denotes the sign: if it is set, the mantissa is divided by 256
  let sign := nCompact &&& 0x00800000#32 ≠ 0
  let nSize := if sign then nSize + 1 else nSize
  let nCompact := if sign then nCompact >>> 8 else nCompact
  if nCompact &&& ~~~0x007fffff#32 ≠ 0 then throw .assertion
  else if ¬ nSize < 256 then throw .assertion
  else
    let nCompact := nCompact ||| BitVec.ofNat 32 nSize <<< 24
    pure (nCompact ||| if fNegative ∧ nCompact &&& 0x007fffff#32 ≠ 0 then 0x00800000#32 else 0)

/-! ### The compact encoding on numbers -/

/-- The size byte of a compact number. -/
def compactSize : Nat := nCompact.toNat / 2 ^ 24

/-- The mantissa of a compact number. -/
def compactWord : Nat := nCompact.toNat % 2 ^ 23

/-- The number a compact number stands for, without its sign: the mantissa with its point after the
lowest of `size` bytes, three of which it takes itself. -/
def compactValue : Nat :=
  compactWord nCompact * 256 ^ compactSize nCompact / 256 ^ 3

/-- The sign bit of a compact number. -/
def compactSign : Bool := nCompact.toNat.testBit 23

/-- The bytes of a number. -/
def byteSize (n : Nat) : Nat := (Nat.size n + 7) / 8

/-- The highest three bytes of a number. -/
def topBytes (n : Nat) : Nat := n * 256 ^ 3 / 256 ^ byteSize n

/-- The compact form of a number: its highest bytes, as many as leave the sign bit clear, below its
size. -/
def compactForm (n : Nat) : Nat :=
  if topBytes n < 2 ^ 23 then topBytes n + 2 ^ 24 * byteSize n
  else topBytes n / 256 + 2 ^ 24 * (byteSize n + 1)

theorem toNat_and_mantissa (x : BitVec 32) : (x &&& 0x007fffff#32).toNat = x.toNat % 2 ^ 23 := by
  rw [BitVec.toNat_and, show (0x007fffff#32).toNat = 2 ^ 23 - 1 from rfl,
    and_two_pow_sub_one_eq_mod]

theorem and_sign_ne_zero_iff (x : BitVec 32) :
    x &&& 0x00800000#32 ≠ 0 ↔ x.toNat.testBit 23 = true := by
  rw [show 0x00800000#32 = BitVec.twoPow 32 23 from rfl, BitVec.and_twoPow, ← BitVec.getLsbD]
  split_ifs with h
  · exact iff_of_true (by decide) h
  · exact iff_of_false (not_not_intro rfl) h

/-- A number is shifted up by some bytes and down by more. -/
theorem mul_pow_div_pow_of_le {i j : Nat} (n : Nat) (h : i ≤ j) :
    n * 256 ^ i / 256 ^ j = n / 2 ^ (8 * (j - i)) := by
  have hsplit : 256 ^ j = 256 ^ (j - i) * 256 ^ i := by rw [← pow_add, Nat.sub_add_cancel h]
  rw [hsplit, Nat.mul_div_mul_right _ _ (by positivity), pow_mul, show 2 ^ 8 = 256 by norm_num]

/-- A number is shifted up by some bytes and down by fewer. -/
theorem mul_pow_div_pow_of_ge {i j : Nat} (n : Nat) (h : j ≤ i) :
    n * 256 ^ i / 256 ^ j = n * 2 ^ (8 * (i - j)) := by
  have hsplit : 256 ^ i = 256 ^ (i - j) * 256 ^ j := by rw [← pow_add, Nat.sub_add_cancel h]
  rw [hsplit, ← Nat.mul_assoc, Nat.mul_div_cancel _ (by positivity), pow_mul,
    show 2 ^ 8 = 256 by norm_num]

theorem compactValue_of_le {nCompact : BitVec 32} (h : compactSize nCompact ≤ 3) :
    compactValue nCompact = compactWord nCompact / 2 ^ (8 * (3 - compactSize nCompact)) :=
  mul_pow_div_pow_of_le _ h

theorem compactValue_of_gt {nCompact : BitVec 32} (h : 3 < compactSize nCompact) :
    compactValue nCompact = compactWord nCompact * 2 ^ (8 * (compactSize nCompact - 3)) :=
  mul_pow_div_pow_of_ge _ h.le

/-- When a mantissa of 23 bits, shifted by whole bytes, leaves the 256 bits. -/
theorem two_pow_256_le_iff {t : Nat} (hm : m < 2 ^ 23) :
    2 ^ 256 ≤ m * 2 ^ (8 * t) ↔ m ≠ 0 ∧ (31 < t ∨ (0xff < m ∧ 30 < t) ∨ (0xffff < m ∧ 29 < t)) := by
  rcases lt_or_ge 31 t with ht | ht
  · have hpow : 2 ^ 256 ≤ 2 ^ (8 * t) := Nat.pow_le_pow_right (by omega) (by omega)
    constructor
    · intro h
      refine ⟨?_, .inl ht⟩
      rintro rfl
      simp at h
    · rintro ⟨hne, -⟩
      exact hpow.trans (Nat.le_mul_of_pos_left _ (Nat.pos_of_ne_zero hne))
  · rcases lt_or_ge 29 t with ht' | ht'
    · obtain rfl | rfl : t = 30 ∨ t = 31 := by omega
      · omega
      · omega
    · have hpow : 2 ^ (8 * t) ≤ 2 ^ 232 := Nat.pow_le_pow_right (by omega) (by omega)
      have hprod : m * 2 ^ (8 * t) ≤ 2 ^ 23 * 2 ^ 232 := Nat.mul_le_mul hm.le hpow
      omega

/-- `SetCompact` on numbers: the value modulo `2^256`, and what the flags say about it. -/
theorem setCompact_spec :
    (setCompact nCompact).bn.toNat = compactValue nCompact % 2 ^ 256 ∧
      ((setCompact nCompact).fNegative ↔
        compactSign nCompact ∧ compactValue nCompact ≠ 0) ∧
      ((setCompact nCompact).fOverflow ↔ 2 ^ 256 ≤ compactValue nCompact) := by
  have hsize : (nCompact >>> 24).toNat = compactSize nCompact := by
    rw [BitVec.toNat_ushiftRight, shiftRight_eq_div_pow, compactSize]
  have hword : (nCompact &&& 0x007fffff#32).toNat = compactWord nCompact :=
    toNat_and_mantissa nCompact
  have hlt : compactWord nCompact < 2 ^ 23 := mod_lt _ (by omega)
  have hzero : ∀ x : BitVec 32, x ≠ 0 ↔ x.toNat ≠ 0 := by
    intro x
    rw [← BitVec.toNat_ne_iff_ne]
    rfl
  have hsign : nCompact &&& 0x00800000#32 ≠ 0 ↔ compactSign nCompact :=
    and_sign_ne_zero_iff nCompact
  simp only [setCompact, hsize, decide_eq_true_eq]
  rcases lt_or_ge 3 (compactSize nCompact) with hs | hs
  · have hvalue := compactValue_of_gt hs
    simp only [if_neg (not_le.mpr hs), hsign]
    refine ⟨?_, ?_, ?_⟩
    · rw [toNat_shlAssign, toNat_ofUint64, toNat_wide, hword, hvalue]
    · rw [hzero, hword, hvalue, and_comm, Ne, Ne, mul_eq_zero]
      simp
    · rw [hzero, hvalue, two_pow_256_le_iff hlt]
      simp only [gt_iff_lt, BitVec.lt_def, hword, show (255#32).toNat = 255 from rfl,
        show (65535#32).toNat = 65535 from rfl]
      omega
  · have hvalue := compactValue_of_le hs
    have hw : ((nCompact &&& 0x007fffff#32) >>> (8 * (3 - compactSize nCompact))).toNat =
        compactValue nCompact := by
      rw [BitVec.toNat_ushiftRight, shiftRight_eq_div_pow, hword, hvalue]
    simp only [if_pos hs, hsign]
    refine ⟨?_, ?_, ?_⟩
    · rw [toNat_ofUint64, toNat_wide, hw, mod_eq_of_lt (by omega)]
    · rw [hzero, hw, and_comm]
    · exact iff_of_false (by omega) (by omega)

theorem byteSize_le_iff {k : Nat} : byteSize n ≤ k ↔ n < 256 ^ k := by
  rw [show (256 : Nat) = 2 ^ 8 by norm_num, ← pow_mul, ← size_le, byteSize]
  omega

theorem lt_pow_byteSize (n : Nat) : n < 256 ^ byteSize n := byteSize_le_iff.mp le_rfl

theorem topBytes_lt (n : Nat) : topBytes n < 2 ^ 24 := by
  rw [topBytes, div_lt_iff_lt_mul (by positivity), mul_comm (2 ^ 24)]
  exact mul_lt_mul_of_pos_right (lt_pow_byteSize n) (by norm_num)

theorem topBytes_of_le (h : byteSize n ≤ 3) : topBytes n = n * 2 ^ (8 * (3 - byteSize n)) :=
  mul_pow_div_pow_of_ge n h

theorem topBytes_of_gt (h : 3 < byteSize n) : topBytes n = n / 2 ^ (8 * (byteSize n - 3)) :=
  mul_pow_div_pow_of_le n h.le

/-- A mantissa below the sign bit. -/
theorem mantissa_and_not (hm : m < 2 ^ 23) : BitVec.ofNat 32 m &&& ~~~0x007fffff#32 = 0 := by
  have hself : BitVec.ofNat 32 m = BitVec.ofNat 32 m &&& 0x007fffff#32 := by
    apply BitVec.eq_of_toNat_eq
    rw [toNat_and_mantissa, BitVec.toNat_ofNat]
    omega
  rw [hself, BitVec.and_assoc, show 0x007fffff#32 &&& ~~~0x007fffff#32 = 0#32 by decide,
    BitVec.and_zero]
  rfl

/-- A mantissa and a size byte share no bit. -/
theorem mantissa_or_size {size : Nat} (hm : m < 2 ^ 23) (hsize : size < 256) :
    (BitVec.ofNat 32 m ||| BitVec.ofNat 32 size <<< 24).toNat = m + 2 ^ 24 * size := by
  rw [BitVec.toNat_or, BitVec.toNat_shiftLeft, BitVec.toNat_ofNat, BitVec.toNat_ofNat,
    shiftLeft_eq, mod_eq_of_lt (a := m) (by omega),
    show size % 2 ^ 32 * 2 ^ 24 % 2 ^ 32 = 2 ^ 24 * size by omega, Nat.or_comm,
    ← two_pow_add_eq_or_of_lt (by omega), add_comm]

/-- The sign bit of a number of 24 bits. -/
theorem ofNat_sign_iff (hm : m < 2 ^ 24) :
    BitVec.ofNat 32 m &&& 0x00800000#32 ≠ 0 ↔ ¬ m < 2 ^ 23 := by
  rw [and_sign_ne_zero_iff, BitVec.toNat_ofNat, mod_eq_of_lt (by omega),
    testBit_eq_decide_div_mod_eq, decide_eq_true_eq]
  omega

/-- `GetCompact` of a target passes its assertions and returns the compact form. -/
theorem getCompact_spec (a : ArithUint256) :
    ∃ nBits, getCompact a false = .ok nBits ∧ nBits.toNat = compactForm a.toNat := by
  have hbytes : byteSize a.toNat ≤ 32 := by
    have : size a.toNat ≤ 256 := size_le.mpr a.toNat_lt
    rw [byteSize]
    omega
  have htop := topBytes_lt a.toNat
  -- the mantissa before the sign bit is looked at
  have hmantissa : (if byteSize a.toNat ≤ 3 then
        (a.getLow64 <<< (8 * (3 - byteSize a.toNat))).setWidth 32
      else (a.shrAssign (8 * (byteSize a.toNat - 3))).getLow64.setWidth 32 : BitVec 32) =
      BitVec.ofNat 32 (topBytes a.toNat) := by
    apply BitVec.eq_of_toNat_eq
    rw [BitVec.toNat_ofNat, mod_eq_of_lt (a := topBytes a.toNat) (by omega)]
    split_ifs with hs
    · have hn := topBytes_of_le hs
      have hle : a.toNat ≤ topBytes a.toNat := by
        rw [hn]
        exact Nat.le_mul_of_pos_right _ (Nat.two_pow_pos _)
      rw [BitVec.toNat_setWidth, BitVec.toNat_shiftLeft, toNat_getLow64, shiftLeft_eq,
        mod_eq_of_lt (a := a.toNat) (by omega), ← hn]
      omega
    · have hn := topBytes_of_gt (not_le.mp hs)
      rw [BitVec.toNat_setWidth, toNat_getLow64, toNat_shrAssign, ← hn]
      omega
  have hsize : (size a.toNat + 7) / 8 = byteSize a.toNat := rfl
  simp only [getCompact, bits_eq, hsize, hmantissa, ofNat_sign_iff htop]
  by_cases hsign : topBytes a.toNat < 2 ^ 23
  · simp only [hsign, not_true, if_false, mantissa_and_not hsign, ne_eq]
    rw [if_neg (by omega)]
    refine ⟨_, rfl, ?_⟩
    rw [if_neg (by simp), compactForm, if_pos hsign, ← mantissa_or_size hsign (by omega)]
    simp
  · have hshift : BitVec.ofNat 32 (topBytes a.toNat) >>> 8 =
        BitVec.ofNat 32 (topBytes a.toNat / 256) := by
      apply BitVec.eq_of_toNat_eq
      rw [BitVec.toNat_ushiftRight, shiftRight_eq_div_pow, BitVec.toNat_ofNat,
        BitVec.toNat_ofNat]
      omega
    have hlow : topBytes a.toNat / 256 < 2 ^ 23 := by omega
    simp only [hsign, not_false_eq_true, if_true, hshift, mantissa_and_not hlow, ne_eq, not_true,
      if_false]
    rw [if_neg (by omega)]
    refine ⟨_, rfl, ?_⟩
    rw [if_neg (by simp), compactForm, if_neg hsign, ← mantissa_or_size hlow (by omega)]
    simp

/-! ### Reading back a compact form -/

theorem pow_le_of_byteSize {k : Nat} (h : byteSize n = k + 1) : 256 ^ k ≤ n := by
  by_contra hlt
  have hle := byteSize_le_iff.mpr (not_le.mp hlt)
  omega

/-- The size of a compact form is that of twice the number, which leaves the sign bit clear. -/
theorem compactForm_eq (n : Nat) :
    compactForm n = n * 256 ^ 3 / 256 ^ byteSize (2 * n) + 2 ^ 24 * byteSize (2 * n) := by
  have htop : topBytes n < 2 ^ 23 ↔ byteSize (2 * n) ≤ byteSize n := by
    rw [topBytes, div_lt_iff_lt_mul (by positivity), byteSize_le_iff]
    constructor <;> intro h <;> omega
  have hle : byteSize n ≤ byteSize (2 * n) :=
    byteSize_le_iff.mpr (lt_of_le_of_lt (by omega) (lt_pow_byteSize (2 * n)))
  have hge : byteSize (2 * n) ≤ byteSize n + 1 := by
    have hlt := lt_pow_byteSize n
    rw [byteSize_le_iff, pow_succ]
    omega
  rw [compactForm]
  split_ifs with h
  · rw [le_antisymm (htop.mp h) hle, topBytes]
  · rw [htop, not_le] at h
    rw [le_antisymm hge h, topBytes, Nat.div_div_eq_div_mul, ← pow_succ]

/-- A number with its lowest bytes zeroed, up to those of the mantissa. -/
def compactRound (n : Nat) : Nat := n / 256 ^ (byteSize (2 * n) - 3) * 256 ^ (byteSize (2 * n) - 3)

theorem compactRound_le (n : Nat) : compactRound n ≤ n := div_mul_le_self _ _

/-- Rounding is to the greatest number with a mantissa of 23 bits. -/
theorem isGreatest_compactRound (n : Nat) :
    IsGreatest {v | v ≤ n ∧ ∃ m < 2 ^ 23, ∃ e, v = m * 256 ^ e} (compactRound n) := by
  have hlt := lt_pow_byteSize (2 * n)
  generalize hs : byteSize (2 * n) = s at hlt
  refine ⟨⟨compactRound_le n, _, ?_, _, rfl⟩, ?_⟩
  · have hpow : 256 ^ s ≤ 256 ^ (s - 3 + 3) := Nat.pow_le_pow_right (by omega) (by omega)
    rw [hs, div_lt_iff_lt_mul (by positivity)]
    rw [pow_add] at hpow
    omega
  · rintro v ⟨hv, m, hm, e, rfl⟩
    rw [compactRound, hs]
    rcases lt_or_ge e (s - 3) with he | he
    · -- Twice the number is not shorter, so the mantissa has 16 bits at least.
      obtain ⟨k, rfl⟩ : ∃ k, s = k + 4 := ⟨s - 4, by omega⟩
      have hlong := pow_le_of_byteSize hs
      have hpow : 256 ^ e ≤ 256 ^ k := Nat.pow_le_pow_right (by omega) (by omega)
      have hmant : 2 ^ 15 ≤ n / 256 ^ (k + 1) := by
        rw [le_div_iff_mul_le (by positivity)]
        rw [pow_add] at hlong ⊢
        omega
      calc m * 256 ^ e ≤ 2 ^ 23 * 256 ^ k := Nat.mul_le_mul hm.le hpow
        _ = 2 ^ 15 * 256 ^ (k + 1) := by ring
        _ ≤ n / 256 ^ (k + 1) * 256 ^ (k + 1) := mul_le_mul_right _ hmant
    · have hdvd : 256 ^ (s - 3) ∣ m * 256 ^ e := dvd_mul_of_dvd_right (pow_dvd_pow _ he) m
      rw [← Nat.div_mul_cancel hdvd]
      exact Nat.mul_le_mul_right _ (Nat.div_le_div_right hv)

theorem compactForm_parts {nBits : BitVec 32} (h : nBits.toNat = compactForm n) :
    compactSign nBits = false ∧ compactValue nBits = compactRound n := by
  have hlt := lt_pow_byteSize (2 * n)
  have hm : n * 256 ^ 3 / 256 ^ byteSize (2 * n) < 2 ^ 23 := by
    rw [div_lt_iff_lt_mul (by positivity)]
    omega
  rw [compactForm_eq] at h
  generalize hword : n * 256 ^ 3 / 256 ^ byteSize (2 * n) = m at hm h
  have hsize : compactSize nBits = byteSize (2 * n) := by
    rw [compactSize, h]
    omega
  have hsign : compactSign nBits = false := by
    rw [compactSign, h, testBit_eq_decide_div_mod_eq]
    exact decide_eq_false (by omega)
  refine ⟨hsign, ?_⟩
  rw [compactValue, hsize, compactWord, h,
    show (m + 2 ^ 24 * byteSize (2 * n)) % 2 ^ 23 = m by omega, ← hword,
    compactRound]
  rcases lt_or_ge (byteSize (2 * n)) 3 with hs | hs
  · rw [mul_pow_div_pow_of_ge n hs.le, mul_pow_div_pow_of_le _ hs.le, Nat.sub_eq_zero_of_le hs.le,
      Nat.mul_div_cancel _ (by positivity)]
    simp
  · rw [mul_pow_div_pow_of_le n hs, mul_pow_div_pow_of_ge _ hs, pow_mul,
      show 2 ^ 8 = 256 by norm_num]

/-- A compact form stands for a number that is not negative, not above the one it was made from,
and not zero unless that one is. -/
theorem compactValue_compactForm {nBits : BitVec 32} (h : nBits.toNat = compactForm n) :
    compactSign nBits = false ∧ compactValue nBits ≤ n ∧ (0 < compactValue nBits ↔ 0 < n) := by
  obtain ⟨hsign, hvalue⟩ := compactForm_parts h
  have hle := compactRound_le n
  rw [hvalue]
  exact ⟨hsign, hle, fun hpos => hpos.trans_le hle,
    fun hn => (isGreatest_compactRound n).2 ⟨hn, 1, by norm_num, 0, rfl⟩⟩

theorem compactForm_compactRound (n : Nat) : compactForm (compactRound n) = compactForm n := by
  rcases lt_or_ge 3 (byteSize (2 * n)) with hs | hs
  · obtain ⟨k, hk⟩ : ∃ k, byteSize (2 * n) = k + 4 := ⟨byteSize (2 * n) - 4, by omega⟩
    have hlong := pow_le_of_byteSize hk
    have hsize : byteSize (2 * compactRound n) = k + 4 := by
      refine le_antisymm ?_ (Nat.lt_of_not_le fun hshort => ?_)
      · rw [byteSize_le_iff, ← hk]
        exact lt_of_le_of_lt (mul_le_mul_left 2 (compactRound_le n)) (lt_pow_byteSize _)
      · -- A number of the same length with one bit has a mantissa.
        have hbit : 128 * 256 ^ (k + 2) ≤ compactRound n :=
          (isGreatest_compactRound n).2
            ⟨by rw [pow_succ] at hlong; omega, 128, by norm_num, k + 2, rfl⟩
        rw [byteSize_le_iff, pow_succ] at hshort
        omega
    have htop : ∀ x, x * 256 ^ 3 / 256 ^ (k + 4) = x / 256 ^ (k + 1) := by
      intro x
      rw [show k + 4 = k + 1 + 3 from rfl, pow_add, Nat.mul_div_mul_right _ _ (by positivity)]
    rw [compactForm_eq, compactForm_eq, hsize, hk, htop, htop, compactRound, hk,
      show k + 4 - 3 = k + 1 from rfl, Nat.mul_div_cancel _ (by positivity)]
  · rw [compactRound, Nat.sub_eq_zero_of_le hs, pow_zero, Nat.div_one, Nat.mul_one]

/-- The compact form of a number raises no flag and stands for the number with its lowest bytes
zeroed, the greatest number below it with a mantissa of 23 bits, which has the same compact form.
The flags are raised by an encoded number that is too large, and by one that has a sign and is not
zero. Rounding keeps the order. -/
theorem setCompact_getCompact_spec :
    (∀ x : ArithUint256, ∃ nBits, getCompact x false = .ok nBits ∧
      (setCompact nBits).fNegative = false ∧ (setCompact nBits).fOverflow = false ∧
      (setCompact nBits).bn.toNat = compactRound x.toNat ∧
      IsGreatest {v | v ≤ x.toNat ∧ ∃ m < 2 ^ 23, ∃ e, v = m * 256 ^ e}
        (setCompact nBits).bn.toNat ∧
      getCompact (setCompact nBits).bn false = .ok nBits) ∧
    (∀ nCompact,
      ((setCompact nCompact).fOverflow ↔ 2 ^ 256 ≤ compactValue nCompact) ∧
      ((setCompact nCompact).fNegative ↔
        compactSign nCompact ∧ 1 ≤ compactValue nCompact) ∧
      ((setCompact nCompact).fOverflow = false →
        (setCompact nCompact).bn.toNat = compactValue nCompact)) ∧
    ∀ x y : ArithUint256, x.toNat ≤ y.toNat → ∀ nBits nBits', getCompact x false = .ok nBits →
      getCompact y false = .ok nBits' →
        (setCompact nBits).bn.toNat ≤ (setCompact nBits').bn.toNat := by
  -- What is read back from the compact form of a number.
  have hround : ∀ x : ArithUint256, ∃ nBits, getCompact x false = .ok nBits ∧
      nBits.toNat = compactForm x.toNat ∧ (setCompact nBits).fNegative = false ∧
      (setCompact nBits).fOverflow = false ∧
      (setCompact nBits).bn.toNat = compactRound x.toNat := by
    intro x
    obtain ⟨nBits, hget, hform⟩ := getCompact_spec x
    obtain ⟨hsign, hvalue⟩ := compactForm_parts hform
    obtain ⟨hbn, hnegative, hoverflow⟩ := setCompact_spec nBits
    have hlt : compactRound x.toNat < 2 ^ 256 := (compactRound_le _).trans_lt x.toNat_lt
    rw [hvalue] at hbn hoverflow
    refine ⟨nBits, hget, hform, ?_, ?_, hbn.trans (mod_eq_of_lt hlt)⟩
    · rw [Bool.eq_false_iff, ne_eq, hnegative, hsign]
      simp
    · rw [Bool.eq_false_iff, ne_eq, hoverflow]
      omega
  refine ⟨fun x => ?_, fun nCompact => ?_, fun x y hxy nBits nBits' hx hy => ?_⟩
  · obtain ⟨nBits, hget, hform, hnegative, hoverflow, hbn⟩ := hround x
    obtain ⟨nBits', hget', hform'⟩ := getCompact_spec (setCompact nBits).bn
    rw [hbn, compactForm_compactRound, ← hform] at hform'
    rw [BitVec.eq_of_toNat_eq hform'] at hget'
    exact ⟨nBits, hget, hnegative, hoverflow, hbn, hbn ▸ isGreatest_compactRound x.toNat, hget'⟩
  · obtain ⟨hbn, hnegative, hoverflow⟩ := setCompact_spec nCompact
    refine ⟨hoverflow, hnegative.trans (and_congr_right fun _ => one_le_iff_ne_zero.symm),
      fun h => ?_⟩
    rw [Bool.eq_false_iff, ne_eq, hoverflow] at h
    rw [hbn, mod_eq_of_lt (not_le.mp h)]
  · obtain ⟨_, hget, -, -, -, hbn⟩ := hround x
    obtain ⟨_, hget', -, -, -, hbn'⟩ := hround y
    obtain rfl := Except.ok.inj (hx.symm.trans hget)
    obtain rfl := Except.ok.inj (hy.symm.trans hget')
    have hgreat := (isGreatest_compactRound x.toNat).1
    rw [hbn, hbn']
    exact (isGreatest_compactRound y.toNat).2 ⟨hgreat.1.trans hxy, hgreat.2⟩

/-- The lowest bit of a number of at least 24 bits is not kept by its compact form. -/
theorem compactForm_odd (hn : 2 ^ 23 ≤ 2 * n) : compactForm (2 * n + 1) = compactForm (2 * n) := by
  have hlt := lt_pow_byteSize (2 * (2 * n))
  obtain ⟨k, hk⟩ : ∃ k, byteSize (2 * (2 * n)) = k + 4 := by
    have hlong : ¬ byteSize (2 * (2 * n)) ≤ 3 := by
      rw [byteSize_le_iff]
      omega
    exact ⟨byteSize (2 * (2 * n)) - 4, by omega⟩
  have hk' : byteSize (2 * (2 * n + 1)) = k + 4 := by
    rw [hk, pow_succ] at hlt
    refine le_antisymm (byteSize_le_iff.mpr (by rw [pow_succ]; omega)) ?_
    rw [← hk, byteSize_le_iff]
    exact lt_of_le_of_lt (by omega) (lt_pow_byteSize (2 * (2 * n + 1)))
  have hhalf : ∀ x, x * 256 ^ 3 / 256 ^ (k + 4) = x / 2 / (128 * 256 ^ k) := by
    intro x
    rw [show (256 : Nat) ^ (k + 4) = 2 * (128 * 256 ^ k) * 256 ^ 3 by ring,
      Nat.mul_div_mul_right _ _ (by positivity), Nat.div_div_eq_div_mul]
  rw [compactForm_eq, compactForm_eq, hk, hk', hhalf, hhalf,
    show (2 * n + 1) / 2 = 2 * n / 2 by omega]

end DefcoinCore
