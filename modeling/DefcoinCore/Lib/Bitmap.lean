import Mathlib.Tactic

/-!
# Bitmaps in bytes

A set of numbers, kept as bytes: eight numbers share a byte, the first of them in its highest bit.
Setting and clearing a bit change the set by one number. Two bitmaps that agree on the first bytes
hold the same numbers among those that the bytes are for.
-/

namespace DefcoinCore.Bitmap

/-- A byte with one of its bits set; bit 0 is the highest. -/
def bitToByte (bit : Nat) : UInt8 := 1 <<< UInt8.ofNat (7 - bit)

variable (bytes : Nat → UInt8)

/-- The number is in the set. -/
def test (i : Nat) : Bool := bytes (i / 8) &&& bitToByte (i % 8) ≠ 0

/-- The number is put in. -/
def set (i : Nat) : Nat → UInt8 :=
  Function.update bytes (i / 8) (bytes (i / 8) ||| bitToByte (i % 8))

/-- The number is taken out. -/
def clear (i : Nat) : Nat → UInt8 :=
  Function.update bytes (i / 8) (bytes (i / 8) &&& (0xff ^^^ bitToByte (i % 8)))

theorem toBitVec_bitToByte {bit : Nat} (h : bit < 8) :
    (bitToByte bit).toBitVec = BitVec.twoPow 8 (7 - bit) := by
  interval_cases bit <;> decide

/-- The test reads one bit. -/
theorem test_eq (i : Nat) : test bytes i = (bytes (i / 8)).toBitVec.getLsbD (7 - i % 8) := by
  have hbit : i % 8 < 8 := Nat.mod_lt i (by decide)
  have hand : (bytes (i / 8) &&& bitToByte (i % 8)).toBitVec =
      if (bytes (i / 8)).toBitVec.getLsbD (7 - i % 8) then BitVec.twoPow 8 (7 - i % 8)
        else 0#8 := by
    rw [UInt8.toBitVec_and, toBitVec_bitToByte hbit, BitVec.and_twoPow]
  have hne : BitVec.twoPow 8 (7 - i % 8) ≠ 0#8 := by
    interval_cases i % 8 <;> decide
  rw [test, Bool.eq_iff_iff, decide_eq_true_eq, ne_eq, ← UInt8.toBitVec_inj, hand]
  split_ifs with h
  · exact ⟨fun _ => h, fun _ => hne⟩
  · exact ⟨fun hf => absurd rfl hf, fun ht => absurd ht h⟩

/-- A bit of a byte with one bit set. -/
theorem getLsbD_bitToByte {i j : Nat} (h : j / 8 = i / 8) :
    (bitToByte (i % 8)).toBitVec.getLsbD (7 - j % 8) = decide (j = i) := by
  have hbit : i % 8 < 8 := Nat.mod_lt i (by decide)
  rw [toBitVec_bitToByte hbit, BitVec.getLsbD_twoPow, decide_eq_true (by omega), Bool.true_and,
    decide_eq_decide]
  omega

theorem test_set (i j : Nat) : test (set bytes i) j = (test bytes j || decide (j = i)) := by
  rw [test_eq, test_eq, set]
  by_cases h : j / 8 = i / 8
  · rw [h, Function.update_self, UInt8.toBitVec_or, BitVec.getLsbD_or, getLsbD_bitToByte h]
  · rw [Function.update_of_ne h]
    have hne : j ≠ i := fun heq => h (by rw [heq])
    simp [hne]

theorem test_clear (i j : Nat) : test (clear bytes i) j = (test bytes j && decide (j ≠ i)) := by
  rw [test_eq, test_eq, clear]
  by_cases h : j / 8 = i / 8
  · have hones : (0xff : UInt8).toBitVec = BitVec.allOnes 8 := rfl
    rw [h, Function.update_self, UInt8.toBitVec_and, UInt8.toBitVec_xor, BitVec.getLsbD_and,
      BitVec.getLsbD_xor, getLsbD_bitToByte h, hones, BitVec.getLsbD_allOnes,
        decide_eq_true (by omega),
      Bool.true_xor, decide_not]
  · rw [Function.update_of_ne h]
    have hne : j ≠ i := fun heq => h (by rw [heq])
    simp [hne]

theorem test_foldl_set (l : List Nat) (bytes : Nat → UInt8) (j : Nat) :
    test (l.foldl set bytes) j = (test bytes j || decide (j ∈ l)) := by
  induction l generalizing bytes with
  | nil => simp
  | cons i l ih =>
    rw [List.foldl_cons, ih, test_set, Bool.or_assoc, ← Bool.decide_or]
    simp only [List.mem_cons]

theorem test_foldl_clear (l : List Nat) (bytes : Nat → UInt8) (j : Nat) :
    test (l.foldl clear bytes) j = (test bytes j && decide (j ∉ l)) := by
  induction l generalizing bytes with
  | nil => simp
  | cons i l ih =>
    rw [List.foldl_cons, ih, test_clear, Bool.and_assoc, ← Bool.decide_and]
    simp only [List.mem_cons, not_or]

/-- A bit of a byte is the test for one number. -/
theorem getLsbD_eq_test (k : Nat) {b : Nat} (hb : b < 8) :
    (bytes k).toBitVec.getLsbD b = test bytes (8 * k + (7 - b)) := by
  rw [test_eq]
  have hdiv : (8 * k + (7 - b)) / 8 = k := by omega
  have hmod : 7 - (8 * k + (7 - b)) % 8 = b := by omega
  rw [hdiv, hmod]

/-- Bitmaps are the same byte by byte if they hold the same numbers. -/
theorem ext_of_test {bytes bytes' : Nat → UInt8} (h : ∀ i, test bytes i = test bytes' i) :
    bytes = bytes' := by
  funext k
  apply UInt8.toBitVec_inj.mp
  apply BitVec.eq_of_getLsbD_eq
  intro b hb
  rw [getLsbD_eq_test bytes k hb, getLsbD_eq_test bytes' k hb, h]

end DefcoinCore.Bitmap
