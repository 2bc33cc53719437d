import DefcoinCore.Lib.VarInt
import DefcoinCore.Net.Message

/-!
# Compact sizes and varints

The integers of `serialize.h`: the sizes that `GetSizeOfCompactSize` and `GetSizeOfVarInt` announce
and the buffer that `WriteVarInt` fills, over the formats of the library of streams.

Both formats are canonical (`IsCanonical`): a reader takes exactly the bytes that were written, and
throws on every stream that does not start with the bytes of some value. A varint of a signed type
is for values that are not negative: of the others only the low seven bits are written.
-/

namespace DefcoinCore.Serialize

open List

/-- `GetSizeOfCompactSize`. -/
def getSizeOfCompactSize (nSize : Nat) : Nat :=
  if nSize < 253 then 1
  else if nSize ≤ 0xFFFF then 1 + 2
  else if nSize ≤ 0xFFFFFFFF then 1 + 4
  else 1 + 8

/-- The largest size that `ReadCompactSize` returns. -/
def sizeLimit (range_check : Bool) : Nat := if range_check then Net.maxSize else 2 ^ 64 - 1

/-- `ReadCompactSize`. -/
def readCompactSize (range_check : Bool) : Get Nat :=
  DefcoinCore.readCompactSize (sizeLimit range_check)

/-- `VarIntMode`. -/
inductive VarIntMode where
  | default
  | nonnegativeSigned

/-- The bits of the largest integer of `sizeof` bytes: `DEFAULT` is for unsigned types. -/
def VarIntMode.bits (sizeof : Nat) : VarIntMode → Nat
  | .default => 8 * sizeof
  | .nonnegativeSigned => 8 * sizeof - 1

/-- `GetSizeOfVarInt`. -/
def getSizeOfVarInt (n : Int) : Nat :=
  if n ≤ 0x7F then 1 else getSizeOfVarInt (n / 128 - 1) + 1
termination_by n.toNat
decreasing_by omega

/-- The loop of `WriteVarInt`, with the bytes in `tmp`, last one first, and the room that is left.
Without room the next byte would be written behind the buffer. -/
def fillVarInt : Nat → Int → List UInt8 → Option (List UInt8)
  | 0, _, _ => none
  | room + 1, n, tmp =>
    let tmp := (UInt8.ofNat (n % 128).toNat + if tmp = [] then 0 else 0x80) :: tmp
    if n ≤ 0x7F then some tmp else fillVarInt room (n / 128 - 1) tmp

/-- `WriteVarInt` of an integer of `sizeof` bytes. -/
def writeVarInt (sizeof : Nat) (n : Int) : Option (List UInt8) :=
  fillVarInt ((8 * sizeof + 6) / 7) n []

/-- `ReadVarInt`. -/
def readVarInt (mode : VarIntMode) (sizeof : Nat) : Get Int :=
  readVarIntSigned (mode.bits sizeof + 1)

/-- Every representable value has one encoding, of the announced size. -/
structure IsCanonical {α : Type} (read : Get α) (write : α → Option (List UInt8)) (size : α → Nat)
    (representable : α → Prop) : Prop where
  /-- What is written is read back, whatever follows it. -/
  reads : ∀ a, representable a → ∃ bytes, write a = some bytes ∧ bytes.length = size a ∧
    Reads read bytes a
  /-- What is accepted was written; on any other stream the reader throws. -/
  accepts : ∀ s a rest, read s = .ok (a, rest) ↔
    representable a ∧ ∃ bytes, write a = some bytes ∧ s = bytes ++ rest

variable {α : Type} {read : Get α} {write : α → Option (List UInt8)} {size : α → Nat}
  {representable : α → Prop} {encode : α → List UInt8}

theorem IsCanonical.of_canonical (hread : Canonical read encode representable)
    (hreads : ∀ a, representable a → Reads read (encode a) a)
    (hwrite : ∀ a, representable a → write a = some (encode a) ∧ (encode a).length = size a) :
    IsCanonical read write size representable where
  reads a ha := ⟨encode a, (hwrite a ha).1, (hwrite a ha).2, hreads a ha⟩
  accepts s a rest := by
    rw [hread.eq_ok_iff hreads, and_comm]
    refine and_congr_right fun ha => ?_
    rw [(hwrite a ha).1]
    simp

theorem length_writeCompactSize (n : Nat) :
    (writeCompactSize n).length = getSizeOfCompactSize n := by
  unfold writeCompactSize getSizeOfCompactSize
  split_ifs <;> simp [length_writeLE]

/-- The loop writes the digits of a number for which there is room. -/
theorem fillVarInt_spec {room n : Nat} (hroom : 0 < room) (hn : n < 128 ^ room) (tmp : List UInt8) :
    let digits := varIntDigits room (if tmp = [] then 0 else 0x80) n
    fillVarInt room n tmp = some (digits.reverse ++ tmp) ∧ digits.length = getSizeOfVarInt n := by
  induction room generalizing n tmp with
  | zero => omega
  | succ room ih =>
    have hdigit : ((n : Int) % 128).toNat = n % 128 := by omega
    rw [fillVarInt, varIntDigits, getSizeOfVarInt, hdigit]
    by_cases hlast : n ≤ 0x7F
    · have hlast' : (n : Int) ≤ 0x7F := by omega
      simp [hlast, hlast']
    · have hlast' : ¬ (n : Int) ≤ 0x7F := by omega
      have hnext : (n : Int) / 128 - 1 = (n / 128 - 1 : Nat) := by omega
      have hroom : 0 < room := Nat.pos_of_ne_zero (by rintro rfl; omega)
      have h := fun c => ih hroom (show n / 128 - 1 < 128 ^ room by omega) (c :: tmp)
      simp only [cons_ne_nil, if_false] at h
      simp [hlast, hlast', hnext, (h _).1, (h 0).2]

/-- What `WriteVarInt` writes: its buffer is large enough for every value of the type. -/
theorem writeVarInt_spec {mode : VarIntMode} {sizeof : Nat} {n : Int} (hsize : 0 < sizeof)
    (hn : n < 2 ^ mode.bits sizeof) :
    writeVarInt sizeof n = some (writeVarIntSigned (mode.bits sizeof + 1) n) ∧
      (writeVarIntSigned (mode.bits sizeof + 1) n).length = getSizeOfVarInt n := by
  unfold writeVarIntSigned
  by_cases hsmall : n ≤ 0x7F
  · obtain ⟨room, hroom⟩ : ∃ room, (8 * sizeof + 6) / 7 = room + 1 :=
      ⟨(8 * sizeof + 6) / 7 - 1, by omega⟩
    rw [writeVarInt, hroom, fillVarInt, getSizeOfVarInt]
    simp [hsmall]
  · obtain ⟨v, rfl⟩ := Int.eq_ofNat_of_zero_le (show 0 ≤ n by omega)
    have hbits : 7 ≤ mode.bits sizeof ∧ mode.bits sizeof ≤ 8 * sizeof := by
      cases mode <;> simp only [VarIntMode.bits] <;> omega
    have hfit : v < 128 ^ ((mode.bits sizeof + 6) / 7) :=
      lt_pow_of_lt_two_pow (by exact_mod_cast hn)
    have hle : (mode.bits sizeof + 6) / 7 ≤ (8 * sizeof + 6) / 7 := by omega
    have h := fillVarInt_spec (by omega) (hfit.trans_le (Nat.pow_le_pow_right (by omega) hle)) []
    rw [if_pos rfl, varIntDigits_of_le (by omega) hle hfit] at h
    simpa [hsmall, writeVarInt, DefcoinCore.writeVarInt] using h

/-- Compact sizes, with and without the check of the range, and varints of the values that are not
negative are canonical, in both modes and for integers of every size. No value, negative or not, is
written behind the buffer of `WriteVarInt`. -/
theorem integers_canonical (range_check : Bool) (mode : VarIntMode) (k : Nat) :
    IsCanonical (readCompactSize range_check) (some ∘ writeCompactSize) getSizeOfCompactSize
      (· ≤ sizeLimit range_check) ∧
    IsCanonical (readVarInt mode (2 ^ k)) (writeVarInt (2 ^ k)) getSizeOfVarInt
      (fun n => 0 ≤ n ∧ n < 2 ^ mode.bits (2 ^ k)) ∧
    ∀ n : Int, n < 2 ^ mode.bits (2 ^ k) → (writeVarInt (2 ^ k) n).isSome := by
  have hsize : 0 < 2 ^ k := by positivity
  have hbits : 7 ≤ mode.bits (2 ^ k) := by cases mode <;> simp only [VarIntMode.bits] <;> omega
  have hlimit : sizeLimit range_check < 2 ^ 64 := by cases range_check <;> decide
  refine ⟨.of_canonical (fun s n rest h => ?_) (fun n hn => .readCompactSize hn (by omega))
      fun n _ => ⟨rfl, length_writeCompactSize n⟩,
    .of_canonical (.readVarIntSigned (by omega))
      (fun n hn => .readVarIntSigned (by omega) hn.1 hn.2)
      fun n hn => writeVarInt_spec hsize hn.2, fun n hn => ?_⟩
  · exact (Canonical.readCompactSize _ s n rest h).imp_right And.left
  · rw [(writeVarInt_spec hsize hn).1]
    rfl

/-- Minus one is written as one byte, which is read as 127. -/
theorem writeVarInt_negative : writeVarInt 4 (-1) = some [0x7F] ∧
    readVarInt .nonnegativeSigned 4 [0x7F] = .ok (127, []) :=
  ⟨rfl, rfl⟩

end DefcoinCore.Serialize
