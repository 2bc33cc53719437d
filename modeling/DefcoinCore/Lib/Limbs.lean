import Mathlib.Tactic
import Mathlib.Data.Nat.Digits.Lemmas
import Mathlib.Data.Nat.Size

/-!
# Numbers as lists of words

A list of words of `w` bits, the lowest word first, stands for a number (`Limbs.value`). The loops
of multi-precision arithmetic are of a few kinds. A loop that adds up a column at a time and hands
the high half of the sum to the next column is `carryLoop`; whatever the columns are, it computes
the sum of the columns modulo the capacity (`value_carryLoop`). Incrementing ripples through the
words that wrap (`value_increment`), complementing every word reflects the number (`value_map_not`),
and two numbers are compared from the highest word down (`compareLoop_spec`). What shifts do is read
off the bits: a bit of the number is a bit of one of the words (`testBit_value`).
-/

namespace DefcoinCore.Limbs

open List Nat

variable {w : Nat} (l : List (BitVec w))

/-- The number that the words stand for, the lowest word first. -/
def value : Nat := Nat.ofDigits (2 ^ w) (l.map BitVec.toNat)

@[simp]
theorem value_nil : value ([] : List (BitVec w)) = 0 := rfl

@[simp]
theorem value_cons (x : BitVec w) (l : List (BitVec w)) :
    value (x :: l) = x.toNat + 2 ^ w * value l := ofDigits_cons

theorem value_append (l m : List (BitVec w)) :
    value (l ++ m) = value l + 2 ^ (w * l.length) * value m := by
  rw [value, map_append, ofDigits_append, length_map, ← pow_mul, value, value]

theorem value_replicate_zero (n : Nat) : value (replicate n (0 : BitVec w)) = 0 := by
  induction n with
  | zero => rfl
  | succ n ih => rw [replicate_succ, value_cons, ih]; simp

theorem value_lt : value l < 2 ^ (w * l.length) := by
  induction l with
  | nil => simp
  | cons x l ih =>
    rw [value_cons, length_cons, mul_succ, add_comm _ w, pow_add]
    exact add_mul_lt_mul_of_lt_of_lt x.isLt ih

theorem value_take_lt {i : Nat} (hi : i ≤ l.length) : value (l.take i) < 2 ^ (w * i) := by
  have h := value_lt (l.take i)
  rwa [length_take, min_eq_left hi] at h

/-- The lowest `i` words and those above them. -/
theorem value_take_add_drop {i : Nat} (hi : i ≤ l.length) :
    value l = value (l.take i) + 2 ^ (w * i) * value (l.drop i) := by
  conv_lhs => rw [← take_append_drop i l, value_append, length_take, min_eq_left hi]

/-- Words of the same number are the same words. -/
theorem value_injective {l m : List (BitVec w)} (hlen : l.length = m.length)
    (h : value l = value m) : l = m := by
  induction l generalizing m with
  | nil => exact (length_eq_zero_iff.mp hlen.symm).symm
  | cons x l ih =>
    cases m with
    | nil => simp at hlen
    | cons y m =>
      rw [value_cons, value_cons] at h
      have hx := x.isLt
      have hy := y.isLt
      have hlow : x.toNat = y.toNat := by
        have := congrArg (· % 2 ^ w) h
        simpa [mod_eq_of_lt hx, mod_eq_of_lt hy] using this
      have hhigh : value l = value m :=
        Nat.eq_of_mul_eq_mul_left (Nat.two_pow_pos w) (by omega)
      rw [BitVec.eq_of_toNat_eq hlow, ih (by simpa using hlen) hhigh]

/-- The lowest `i + 1` words are the lowest `i` and the word above them. -/
theorem value_take_succ (i : Nat) :
    value (l.take (i + 1)) = value (l.take i) + 2 ^ (w * i) * (l.getD i 0).toNat := by
  by_cases hi : i < l.length
  · rw [take_add_one, getElem?_eq_getElem hi, Option.toList_some, value_append,
      length_take, min_eq_left hi.le, getD_eq_getElem?_getD,
      getElem?_eq_getElem hi]
    simp
  · rw [take_of_length_le (by omega), take_of_length_le (by omega),
      getD_eq_getElem?_getD, getElem?_eq_none (by omega)]
    simp

/-! ## Bits -/

/-- A bit of the number is a bit of the word it falls into. -/
theorem testBit_value (hw : 0 < w) (l : List (BitVec w)) (j : Nat) :
    (value l).testBit j = (l.getD (j / w) 0).getLsbD (j % w) := by
  induction l generalizing j with
  | nil => simp
  | cons x l ih =>
    rw [value_cons, add_comm, testBit_two_pow_mul_add _ x.isLt]
    by_cases hj : j < w
    · rw [if_pos hj, div_eq_of_lt hj, mod_eq_of_lt hj, getD_cons_zero, BitVec.getLsbD]
    · have hdiv : j / w = (j - w) / w + 1 := by
        rw [← Nat.add_div_right _ hw, Nat.sub_add_cancel (by omega)]
      have hmod : j % w = (j - w) % w := by
        rw [mod_eq_sub_mod (by omega)]
      rw [if_neg hj, ih, hdiv, hmod, getD_cons_succ]

theorem testBit_value_mul_add (i : Nat) {r : Nat} (hr : r < w) :
    (value l).testBit (w * i + r) = (l.getD i 0).getLsbD r := by
  have hw : 0 < w := by omega
  rw [testBit_value hw, mul_add_div hw, div_eq_of_lt hr, mul_add_mod,
    mod_eq_of_lt hr, add_zero]

/-- The complement of every word is the distance to the largest number. -/
theorem value_map_not : value (l.map (~~~ ·)) = 2 ^ (w * l.length) - 1 - value l := by
  suffices h : value (l.map (~~~ ·)) + value l + 1 = 2 ^ (w * l.length) by omega
  induction l with
  | nil => rfl
  | cons x l ih =>
    rw [map_cons, value_cons, value_cons, BitVec.toNat_not, length_cons, mul_succ,
      add_comm _ w, pow_add, ← ih, mul_add, mul_add, mul_one]
    omega

/-! ## Carries -/

/-- Adding one: words that wrap to zero hand the carry on. -/
def increment : List (BitVec w) → List (BitVec w)
  | [] => []
  | x :: l => if x + 1 = 0 then (x + 1) :: increment l else (x + 1) :: l

@[simp]
theorem length_increment : (increment l).length = l.length := by
  induction l with
  | nil => rfl
  | cons x l ih =>
    rw [increment]
    split_ifs
    · rw [length_cons, ih, length_cons]
    · rfl

/-- A low column below the word size and the columns above it, reduced one after the other. -/
theorem add_mul_mod_two_pow (n x k : Nat) :
    (n + 2 ^ w * x) % 2 ^ (w * (k + 1)) = n % 2 ^ w + 2 ^ w * ((n / 2 ^ w + x) % 2 ^ (w * k)) := by
  rw [mul_succ, add_comm _ w, pow_add, mod_mul, add_mul_mod_self_left,
    Nat.add_mul_div_left _ _ (Nat.two_pow_pos w)]

theorem value_increment (hw : 0 < w) (l : List (BitVec w)) :
    value (increment l) = (value l + 1) % 2 ^ (w * l.length) := by
  induction l with
  | nil => simp [increment]
  | cons x l ih =>
    have hone : 1 < 2 ^ w := Nat.one_lt_two_pow hw.ne'
    have hx := x.isLt
    have hone' : (1 : BitVec w).toNat = 1 := by
      simp [mod_eq_of_lt hone]
    have hsum : (x + 1).toNat = (x.toNat + 1) % 2 ^ w := by rw [BitVec.toNat_add, hone']
    rw [length_cons, value_cons, add_right_comm, add_mul_mod_two_pow, increment]
    by_cases hwrap : x + 1 = 0
    · have hfull : x.toNat + 1 = 2 ^ w := by
        have hzero : (x.toNat + 1) % 2 ^ w = 0 := by rw [← hsum, hwrap]; exact BitVec.toNat_zero
        exact (le_of_dvd (by omega) (dvd_of_mod_eq_zero hzero)).antisymm' hx
      rw [if_pos hwrap, value_cons, ih, hsum, hfull, Nat.div_self (by omega), Nat.add_comm 1]
    · have hlow : x.toNat + 1 < 2 ^ w := by
        rcases lt_or_ge (x.toNat + 1) (2 ^ w) with h | h
        · exact h
        · refine absurd (BitVec.eq_of_toNat_eq ?_) hwrap
          rw [hsum, show x.toNat + 1 = 2 ^ w by omega, mod_self]
          exact BitVec.toNat_zero.symm
      rw [if_neg hwrap, value_cons, hsum, div_eq_of_lt hlow, zero_add,
        mod_eq_of_lt (value_lt l)]

/-- Columns are added from the lowest up: the low `w` bits of each sum are the word of the result,
the rest is carried into the next column. -/
def carryLoop (w : Nat) {v : Nat} : List (BitVec v) → BitVec v → List (BitVec w)
  | [], _ => []
  | t :: ts, carry => (carry + t).setWidth w :: carryLoop w ts ((carry + t) >>> w)

@[simp]
theorem length_carryLoop {v : Nat} (ts : List (BitVec v)) (carry : BitVec v) :
    (carryLoop w ts carry).length = ts.length := by
  induction ts generalizing carry with
  | nil => rfl
  | cons t ts ih => rw [carryLoop, length_cons, ih, length_cons]

/-- Columns that leave room for a carry of one word are summed without loss, up to the capacity of
the result. -/
theorem value_carryLoop {v : Nat} (hv : 2 * w ≤ v) (ts : List (BitVec v)) (carry : BitVec v)
    (hts : ∀ t ∈ ts, t.toNat + 2 ^ w ≤ 2 ^ (2 * w)) (hcarry : carry.toNat < 2 ^ w) :
    value (carryLoop w ts carry) =
      (Nat.ofDigits (2 ^ w) (ts.map BitVec.toNat) + carry.toNat) % 2 ^ (w * ts.length) := by
  induction ts generalizing carry with
  | nil => simp [carryLoop, mod_one]
  | cons t ts ih =>
    have ht := hts t mem_cons_self
    have hcap : (2 : Nat) ^ (2 * w) ≤ 2 ^ v := Nat.pow_le_pow_right (by omega) hv
    -- the sum of a column does not wrap, and its high half is again below the word size
    have hn : (carry + t).toNat = carry.toNat + t.toNat := by
      rw [BitVec.toNat_add, mod_eq_of_lt (by omega)]
    have hhigh : ((carry + t) >>> w).toNat = (carry.toNat + t.toNat) / 2 ^ w := by
      rw [BitVec.toNat_ushiftRight, hn, shiftRight_eq_div_pow]
    have hnext : ((carry + t) >>> w).toNat < 2 ^ w := by
      rw [hhigh, Nat.div_lt_iff_lt_mul (Nat.two_pow_pos w), ← pow_add, ← Nat.two_mul]
      omega
    rw [carryLoop, value_cons, ih _ (fun u hu => hts u (mem_cons_of_mem _ hu)) hnext, hhigh,
      BitVec.toNat_setWidth, hn, map_cons, ofDigits_cons, length_cons,
      show t.toNat + 2 ^ w * ofDigits (2 ^ w) (ts.map BitVec.toNat) + carry.toNat =
        carry.toNat + t.toNat + 2 ^ w * ofDigits (2 ^ w) (ts.map BitVec.toNat) by ring,
      add_mul_mod_two_pow, add_comm (ofDigits _ _)]

/-- Columns that are linear in the words of two numbers: the loop computes the combination of the
numbers. Sums, products by one word and the rows of a long multiplication are of this kind. -/
theorem value_carryLoop_zipWith {v : Nat} (hv : 2 * w ≤ v)
    (f : BitVec w → BitVec w → BitVec v) (c d : Nat)
    (hf : ∀ x y, (f x y).toNat = c * x.toNat + d * y.toNat)
    (hroom : ∀ x y, (f x y).toNat + 2 ^ w ≤ 2 ^ (2 * w))
    (xs ys : List (BitVec w)) (hlen : xs.length = ys.length) :
    value (carryLoop w (zipWith f xs ys) 0) =
      (c * value xs + d * value ys) % 2 ^ (w * xs.length) := by
  have hcols : ofDigits (2 ^ w) ((zipWith f xs ys).map BitVec.toNat) =
      c * value xs + d * value ys := by
    induction xs generalizing ys with
    | nil => cases ys with
      | nil => simp
      | cons y ys => simp at hlen
    | cons x xs ih => cases ys with
      | nil => simp at hlen
      | cons y ys =>
        rw [zipWith_cons_cons, map_cons, ofDigits_cons, ih ys (by simpa using hlen),
          hf, value_cons, value_cons]
        ring
  have hzero : (0 : BitVec v).toNat = 0 := BitVec.toNat_zero
  rw [value_carryLoop hv, hcols, hzero, add_zero, length_zipWith, ← hlen, min_self]
  · intro t ht
    obtain ⟨n, hn, rfl⟩ := getElem_of_mem ht
    rw [getElem_zipWith]
    exact hroom _ _
  · rw [hzero]
    exact Nat.two_pow_pos w

/-! ## Writes into the words -/

/-- Ors a word into the word at position `p.1`. -/
def orAt (p : Nat × BitVec w) : List (BitVec w) := l.modify p.1 (· ||| p.2)

@[simp]
theorem length_orAt (p : Nat × BitVec w) : (orAt l p).length = l.length :=
  length_modify ..

@[simp]
theorem length_foldl_orAt (ps : List (Nat × BitVec w)) (l : List (BitVec w)) :
    (ps.foldl orAt l).length = l.length := by
  induction ps generalizing l with
  | nil => rfl
  | cons p ps ih => rw [foldl_cons, ih, length_orAt]

/-- After a sequence of writes a bit is set when it was set before or when a write sets it. -/
theorem getLsbD_foldl_orAt (ps : List (Nat × BitVec w)) (l : List (BitVec w)) {m : Nat}
    (hm : m < l.length) (r : Nat) :
    ((ps.foldl orAt l).getD m 0).getLsbD r ↔
      (l.getD m 0).getLsbD r ∨ ∃ p ∈ ps, p.1 = m ∧ p.2.getLsbD r := by
  induction ps generalizing l with
  | nil => simp
  | cons p ps ih =>
    have hwrite : ((orAt l p).getD m 0).getLsbD r ↔
        (l.getD m 0).getLsbD r ∨ (p.1 = m ∧ p.2.getLsbD r) := by
      rw [getD_eq_getElem?_getD, getD_eq_getElem?_getD, orAt, getElem?_modify,
        getElem?_eq_getElem hm]
      by_cases hp : p.1 = m <;> simp [hp]
    rw [foldl_cons, ih _ (by rwa [length_orAt]), hwrite, exists_mem_cons_iff, or_assoc]

/-! ## Comparison -/

/-- Compares the words below `n`, the highest first. -/
def compareLoop (l m : List (BitVec w)) : Nat → Int
  | 0 => 0
  | i + 1 =>
    if l.getD i 0 < m.getD i 0 then -1
    else if l.getD i 0 > m.getD i 0 then 1
    else compareLoop l m i

/-- The highest word that differs decides. -/
theorem compareLoop_spec (l m : List (BitVec w)) (n : Nat) (hl : n ≤ l.length) (hm : n ≤ m.length) :
    compareLoop l m n =
      if value (l.take n) < value (m.take n) then -1
      else if value (l.take n) > value (m.take n) then 1 else 0 := by
  induction n with
  | zero => rfl
  | succ i ih =>
    have hlow := value_take_lt l (i := i) (by omega)
    have hlow' := value_take_lt m (i := i) (by omega)
    rw [compareLoop, value_take_succ, value_take_succ, ih (by omega) (by omega)]
    simp only [gt_iff_lt, BitVec.lt_def]
    generalize (l.getD i 0).toNat = x
    generalize (m.getD i 0).toNat = y
    -- a smaller high word outweighs whatever the lower words are
    have hweigh : ∀ {a b x y : Nat}, a < 2 ^ (w * i) → x < y →
        a + 2 ^ (w * i) * x < b + 2 ^ (w * i) * y := fun ha hxy =>
      (add_mul_lt_mul_of_lt_of_lt ha hxy).trans_le (le_add_left _ _)
    rcases lt_trichotomy x y with hxy | rfl | hxy
    · rw [if_pos hxy, if_pos (hweigh hlow hxy)]
    · simp
    · have := hweigh (b := value (l.take i)) hlow' hxy
      rw [if_neg (by omega), if_pos hxy, if_neg (by omega), if_pos this]

end DefcoinCore.Limbs
