import DefcoinCore.Lib.Stream

/-!
# Integers of variable length

Encodings of integers, and of what is put together from them. A compact size has a marker byte that
says how many bytes follow, and only the shortest form is accepted. A varint is written in base 128
with the high digit first; the high bit of a byte says that another digit follows, and one is
subtracted from all digits but the last, so that every integer has one encoding. A vector is its
length as a compact size and then its items.

The reader of each encoding takes exactly the bytes that its writer wrote (`Reads.readCompactSize`,
`Reads.readVarInt`, `Reads.readVector`), and accepts nothing else (`Canonical.readCompactSize`,
`Canonical.readVarInt`, `Canonical.readVector`).
-/

namespace DefcoinCore

open List

/-! ## Compact sizes -/

/-- An integer below `2 ^ 64` as a compact size. -/
def writeCompactSize (n : Nat) : List UInt8 :=
  if n < 253 then writeLE 1 n
  else if n ≤ 0xFFFF then 253 :: writeLE 2 n
  else if n ≤ 0xFFFFFFFF then 254 :: writeLE 4 n
  else 255 :: writeLE 8 n

/-- The integer behind a marker byte: `n` bytes that hold at least `min`. -/
def readMarked (n min : Nat) : Get Nat := do
  let v ← readLE n
  if v < min then throw "non-canonical ReadCompactSize()" else pure v

/-- The integer behind the first byte of a compact size. -/
def readSize (chSize : Nat) : Get Nat :=
  if chSize < 253 then pure chSize
  else if chSize = 253 then readMarked 2 253
  else if chSize = 254 then readMarked 4 0x10000
  else readMarked 8 0x100000000

/-- A compact size of at most `limit`. -/
def readCompactSize (limit : Nat) : Get Nat := do
  let chSize ← readLE 1
  let v ← readSize chSize
  if v > limit then throw "ReadCompactSize(): size too large" else pure v

variable {n v limit max d w k : Nat} {α : Type} {write : α → List UInt8}

/-- A value that passes a check reads back. -/
theorem Reads.check {x : Get Nat} {b : List UInt8} {bad : Nat → Prop} [DecidablePred bad]
    {e : String} (hx : Reads x b v) (hv : ¬ bad v) :
    Reads (x >>= fun v => if bad v then throw e else Pure.pure v) b v := by
  have h := hx.bind (f := fun v => if bad v then throw e else Pure.pure v) (by
    rw [if_neg hv]
    exact .pure v)
  rwa [append_nil] at h

/-- Bytes behind a marker read back when the value needs them. -/
theorem Reads.readMarked {min : Nat} (hmin : min ≤ v) (hv : v < 256 ^ n) :
    Reads (DefcoinCore.readMarked n min) (writeLE n v) v :=
  (Reads.readLE hv).check (by omega)

/-- The marker and what follows it. -/
theorem exists_readSize (hv : v < 2 ^ 64) : ∃ chSize b, chSize < 256 ∧
    writeCompactSize v = writeLE 1 chSize ++ b ∧ Reads (readSize chSize) b v := by
  unfold writeCompactSize
  split_ifs with h1 h2 h3
  · refine ⟨v, [], by omega, by rw [append_nil], ?_⟩
    unfold readSize
    rw [if_pos h1]
    exact .pure v
  · exact ⟨253, _, by norm_num, rfl, .readMarked (by omega) (by omega)⟩
  · exact ⟨254, _, by norm_num, rfl, .readMarked (by omega) (by omega)⟩
  · exact ⟨255, _, by norm_num, rfl, .readMarked (by omega) (by omega)⟩

/-- A compact size within the limit reads back. -/
theorem Reads.readCompactSize (hlimit : v ≤ limit) (hv : v < 2 ^ 64) :
    Reads (DefcoinCore.readCompactSize limit) (writeCompactSize v) v := by
  obtain ⟨chSize, b, hch, hb, hread⟩ := exists_readSize hv
  rw [hb]
  exact (Reads.readLE (by omega)).bind (hread.check (by omega))

/-! ## Varints -/

/-- The digits of a varint as the writer's buffer collects them, low digit first. The buffer has
room for `k` digits, and `0x80` marks all but the first. -/
def varIntDigits : Nat → UInt8 → Nat → List UInt8
  | 0, _, _ => []
  | k + 1, mark, n =>
    (UInt8.ofNat (n % 128) + mark) :: if n ≤ 0x7F then [] else varIntDigits k 0x80 (n / 128 - 1)

/-- An unsigned integer of `w` bits as a varint: the buffer from its end. -/
def writeVarInt (w n : Nat) : List UInt8 := (varIntDigits ((w + 6) / 7) 0 n).reverse

/-- The reader's loop, with the digits read so far in `n` and the largest integer in `max`. -/
def readVarIntLoop (max : Nat) : Nat → Get Nat
  | _, [] => .error "end of data"
  | n, chData :: s =>
    if n > max / 128 then .error "ReadVarInt(): size too large"
    else
      let n := n * 128 + chData.toNat % 128
      if chData.toNat ≥ 0x80 then
        if n = max then .error "ReadVarInt(): size too large" else readVarIntLoop max (n + 1) s
      else .ok (n, s)

/-- A varint of an unsigned integer of `w` bits. -/
def readVarInt (w : Nat) : Get Nat := readVarIntLoop (2 ^ w - 1) 0

theorem toNat_marked (hd : d < 128) : (UInt8.ofNat d + 0x80).toNat = d + 128 := by
  rw [UInt8.toNat_add, UInt8.toNat_ofNat']
  have h80 : (0x80 : UInt8).toNat = 128 := rfl
  omega

/-- A digit that another one follows. -/
theorem readVarIntLoop_marked (hn : n ≤ max / 128) (hd : d < 128) (hmax : n * 128 + d < max)
    (s : List UInt8) :
    readVarIntLoop max n ((UInt8.ofNat d + 0x80) :: s) =
      readVarIntLoop max (n * 128 + d + 1) s := by
  have hmod : (d + 128) % 128 = d := by omega
  rw [readVarIntLoop, if_neg (by omega), toNat_marked hd, hmod, if_pos (by omega),
    if_neg (by omega)]

/-- The last digit. -/
theorem readVarIntLoop_last (hn : n ≤ max / 128) (hd : d < 128) (s : List UInt8) :
    readVarIntLoop max n ((UInt8.ofNat d + 0) :: s) = .ok (n * 128 + d, s) := by
  have hbyte : (UInt8.ofNat d + 0).toNat = d := by
    rw [UInt8.add_zero, UInt8.toNat_ofNat']
    omega
  have hmod : d % 128 = d := by omega
  rw [readVarIntLoop, if_neg (by omega), hbyte, hmod, if_neg (by omega)]

/-- The marked digits of `m` leave `m + 1` in the reader's accumulator. -/
theorem readVarIntLoop_digits (k m : Nat) (hk : m + 1 < 128 ^ k) (hm : m + 1 ≤ max / 128)
    (s : List UInt8) :
    readVarIntLoop max 0 ((varIntDigits k 0x80 m).reverse ++ s) = readVarIntLoop max (m + 1) s := by
  induction k generalizing m s with
  | zero => omega
  | succ k ih =>
    rw [varIntDigits]
    by_cases hlast : m ≤ 0x7F
    · rw [if_pos hlast, reverse_singleton, singleton_append,
        readVarIntLoop_marked (Nat.zero_le _) (by omega) (by omega)]
      congr 1
      omega
    · rw [if_neg hlast, reverse_cons, append_assoc, singleton_append,
        ih (m / 128 - 1) (by omega) (by omega), readVarIntLoop_marked (by omega) (by omega)
          (by omega)]
      congr 1
      omega

/-- An integer of `w` bits fits into the writer's buffer. -/
theorem lt_pow_of_lt_two_pow (hn : n < 2 ^ w) : n < 128 ^ ((w + 6) / 7) := by
  have hpow : 128 ^ ((w + 6) / 7) = 2 ^ (7 * ((w + 6) / 7)) := by
    rw [pow_mul]
    norm_num
  rw [hpow]
  exact lt_of_lt_of_le hn (Nat.pow_le_pow_right (by norm_num) (by omega))

/-- A varint reads back. -/
theorem Reads.readVarInt (hw : 0 < w) (hn : n < 2 ^ w) :
    Reads (DefcoinCore.readVarInt w) (writeVarInt w n) n := by
  intro s
  have hbuf := lt_pow_of_lt_two_pow hn
  unfold DefcoinCore.readVarInt writeVarInt
  obtain ⟨k, hk⟩ : ∃ k, (w + 6) / 7 = k + 1 := ⟨(w + 6) / 7 - 1, by omega⟩
  rw [hk] at hbuf ⊢
  rw [varIntDigits]
  by_cases hlast : n ≤ 0x7F
  · rw [if_pos hlast, reverse_singleton, singleton_append,
      readVarIntLoop_last (Nat.zero_le _) (by omega)]
    congr 2
    omega
  · rw [if_neg hlast, reverse_cons, append_assoc, singleton_append,
      readVarIntLoop_digits k (n / 128 - 1) (by omega) (by omega),
      readVarIntLoop_last (by omega) (by omega)]
    congr 2
    omega

/-! ## Vectors -/

/-- A vector: its length and its items. -/
def writeVector {α : Type} (write : α → List UInt8) (l : List α) : List UInt8 :=
  writeCompactSize l.length ++ l.flatMap write

/-- A vector of at most `limit` items. -/
def readVector {α : Type} (limit : Nat) (x : Get α) : Get (List α) := do
  let size ← readCompactSize limit
  readMany x size

/-- A vector within the limit reads back, item by item. The items that are read may be other values
than the ones that were written. -/
theorem Reads.readVector {β : Type} {x : Get β} {f : α → β} (l : List α)
    (h : ∀ a ∈ l, Reads x (write a) (f a)) (hlimit : l.length ≤ limit) (h64 : l.length < 2 ^ 64) :
    Reads (DefcoinCore.readVector limit x) (writeVector write l) (l.map f) :=
  (Reads.readCompactSize hlimit h64).bind (.readMany_map l h)

/-! ## Nothing else is accepted -/

namespace Canonical

theorem readMarked (n min : Nat) :
    Canonical (DefcoinCore.readMarked n min) (writeLE n) fun v => min ≤ v ∧ v < 256 ^ n := by
  intro s v rest h
  obtain ⟨v', s', hv, h⟩ := Get.bind_eq_ok_iff.mp h
  obtain ⟨hs, hlt⟩ := readLE n s v' s' hv
  split_ifs at h with hmin
  · cases h
  · obtain ⟨rfl, rfl⟩ := Get.pure_eq_ok_iff.mp h
    exact ⟨hs, by omega, hlt⟩

/-- Only the shortest form of a size is accepted. -/
theorem readCompactSize (limit : Nat) :
    Canonical (DefcoinCore.readCompactSize limit) writeCompactSize fun v => v ≤ limit ∧
      v < 2 ^ 64 := by
  intro s v rest h
  obtain ⟨chSize, s', hch, h⟩ := Get.bind_eq_ok_iff.mp h
  obtain ⟨v', s'', hsize, h⟩ := Get.bind_eq_ok_iff.mp h
  obtain ⟨hs, hlt⟩ := readLE 1 s chSize s' hch
  split_ifs at h with hlimit
  · cases h
  · obtain ⟨rfl, rfl⟩ := Get.pure_eq_ok_iff.mp h
    unfold readSize at hsize
    split_ifs at hsize with h1 h2 h3
    · obtain ⟨rfl, rfl⟩ := Get.pure_eq_ok_iff.mp hsize
      rw [writeCompactSize, if_pos h1]
      exact ⟨hs, by omega, by omega⟩
    · obtain ⟨hs', hmin, hmax⟩ := readMarked 2 253 s' v' s'' hsize
      rw [writeCompactSize, if_neg (by omega), if_pos (by omega), hs, hs', h2]
      exact ⟨rfl, by omega, by omega⟩
    · obtain ⟨hs', hmin, hmax⟩ := readMarked 4 0x10000 s' v' s'' hsize
      rw [writeCompactSize, if_neg (by omega), if_neg (by omega), if_pos (by omega), hs, hs', h3]
      exact ⟨rfl, by omega, by omega⟩
    · obtain ⟨hs', hmin, hmax⟩ := readMarked 8 0x100000000 s' v' s'' hsize
      have hch255 : chSize = 255 := by omega
      rw [writeCompactSize, if_neg (by omega), if_neg (by omega), if_neg (by omega), hs,
        hs', hch255]
      exact ⟨rfl, by omega, by omega⟩

end Canonical

/-- The digits of a number that fits do not depend on the room in the buffer. -/
theorem varIntDigits_of_le {k' : Nat} (hpos : 0 < k) (hk : k ≤ k') (hn : n < 128 ^ k)
    (mark : UInt8) :
    varIntDigits k' mark n = varIntDigits k mark n := by
  induction k generalizing k' n mark with
  | zero => omega
  | succ k ih =>
    obtain ⟨j, rfl⟩ : ∃ j, k' = j + 1 := ⟨k' - 1, by omega⟩
    rw [varIntDigits, varIntDigits]
    split_ifs with hlast
    · rfl
    · have hk0 : 0 < k := Nat.pos_of_ne_zero (by rintro rfl; omega)
      rw [ih hk0 (by omega) (by omega)]

/-- The bytes that bring the reader's accumulator to `n`. -/
def varIntSoFar (k n : Nat) : List UInt8 :=
  if n = 0 then [] else (varIntDigits k 0x80 (n - 1)).reverse

/-- One more digit. -/
theorem varIntDigits_reverse (hk : 0 < k) (hd : d < 128) (hfit : n * 128 + d < 128 ^ k)
    (mark : UInt8) :
    (varIntDigits k mark (n * 128 + d)).reverse = varIntSoFar k n ++ [UInt8.ofNat d + mark] := by
  obtain ⟨j, rfl⟩ : ∃ j, k = j + 1 := ⟨k - 1, by omega⟩
  have hmod : (n * 128 + d) % 128 = d := by omega
  have hdiv : (n * 128 + d) / 128 = n := by omega
  rw [varIntDigits, hmod, hdiv, reverse_cons, varIntSoFar]
  by_cases hn : n = 0
  · rw [if_pos hn, if_pos (by omega)]
    rfl
  · have hj : 0 < j := Nat.pos_of_ne_zero (by rintro rfl; omega)
    rw [if_neg hn, if_neg (by omega), varIntDigits_of_le hj (Nat.le_succ j) (by omega)]

/-- What the reader's loop takes are the digits of the result behind those read before. -/
theorem readVarIntLoop_canonical {s rest : List UInt8} (hk : 0 < k) (hmax : max < 128 ^ k)
    (hmod : max % 128 = 127) (h : readVarIntLoop max n s = .ok (v, rest)) :
    (∃ b, s = b ++ rest ∧ (varIntDigits k 0 v).reverse = varIntSoFar k n ++ b) ∧ v ≤ max := by
  induction s generalizing n with
  | nil => cases h
  | cons chData s ih =>
    have hbyte := chData.toNat_lt
    have hd : chData.toNat % 128 < 128 := Nat.mod_lt _ (by decide)
    rw [readVarIntLoop] at h
    generalize hdigit : chData.toNat % 128 = d at h hd
    by_cases hlarge : n > max / 128
    · rw [if_pos hlarge] at h
      cases h
    · rw [if_neg hlarge] at h
      by_cases hmore : chData.toNat ≥ 0x80
      · rw [if_pos hmore] at h
        by_cases hfull : n * 128 + d = max
        · rw [if_pos hfull] at h
          cases h
        · rw [if_neg hfull] at h
          obtain ⟨⟨b, hs, hdigits⟩, hle⟩ := ih h
          have hch : UInt8.ofNat d + 0x80 = chData := by
            apply UInt8.toNat_inj.mp
            rw [toNat_marked hd]
            omega
          have hstep := varIntDigits_reverse hk hd (show n * 128 + d < 128 ^ k by omega) 0x80
          have hsoFar : varIntSoFar k (n * 128 + d + 1) = varIntSoFar k n ++ [chData] := by
            rw [varIntSoFar, if_neg (by omega), Nat.add_sub_cancel, hstep, hch]
          refine ⟨⟨chData :: b, by rw [hs, cons_append], ?_⟩, hle⟩
          rw [hdigits, hsoFar, append_assoc, singleton_append]
      · rw [if_neg hmore] at h
        cases h
        have hch : UInt8.ofNat d + 0 = chData := by
          apply UInt8.toNat_inj.mp
          rw [UInt8.add_zero, UInt8.toNat_ofNat']
          omega
        refine ⟨⟨[chData], rfl, ?_⟩, by omega⟩
        rw [varIntDigits_reverse hk hd (by omega), hch]

namespace Canonical

/-- Every integer has one encoding as a varint. -/
theorem readVarInt {w : Nat} (hw : 7 ≤ w) :
    Canonical (DefcoinCore.readVarInt w) (writeVarInt w) fun v => v < 2 ^ w := by
  intro s v rest h
  have hpos : 0 < 2 ^ w := by positivity
  have hmod : (2 ^ w - 1) % 128 = 127 := by
    obtain ⟨j, rfl⟩ : ∃ j, w = 7 + j := ⟨w - 7, by omega⟩
    rw [pow_add] at hpos ⊢
    omega
  obtain ⟨⟨b, hs, hdigits⟩, hle⟩ := readVarIntLoop_canonical (k := (w + 6) / 7) (by omega)
    (lt_pow_of_lt_two_pow (by omega)) hmod h
  refine ⟨?_, by omega⟩
  rw [writeVarInt, hdigits, varIntSoFar, if_pos rfl, nil_append, hs]

/-- A vector of items that are read by a canonical reader. -/
theorem readVector {α : Type} {x : Get α} {write : α → List UInt8} {valid : α → Prop}
    (hx : Canonical x write valid) (limit : Nat) :
    Canonical (DefcoinCore.readVector limit x) (writeVector write)
      fun l => l.length ≤ limit ∧ l.length < 2 ^ 64 ∧ ∀ a ∈ l, valid a := by
  intro s l rest h
  obtain ⟨size, s', hsize, h⟩ := Get.bind_eq_ok_iff.mp h
  obtain ⟨hs, hlimit, h64⟩ := readCompactSize limit s size s' hsize
  obtain ⟨hs', hlen, hall⟩ := hx.readMany size s' l rest h
  rw [← hlen] at hs hlimit h64
  refine ⟨?_, hlimit, h64, hall⟩
  rw [hs, hs', writeVector, append_assoc]

end Canonical

/-! ## Signed integers, bytes and optional fields -/

/-- A signed integer of `w` bits as a varint. The format is for integers that are not negative: of a
negative one the low seven bits are written. -/
def writeVarIntSigned (w : Nat) (n : Int) : List UInt8 :=
  if n ≤ 0x7F then [UInt8.ofNat (n % 128).toNat] else writeVarInt (w - 1) n.toNat

/-- A varint of a signed integer of `w` bits. -/
def readVarIntSigned (w : Nat) : Get Int := do
  let n ← readVarInt (w - 1)
  pure (n : Int)

theorem writeVarIntSigned_natCast (hw : 1 < w) (n : Nat) :
    writeVarIntSigned w n = writeVarInt (w - 1) n := by
  unfold writeVarIntSigned
  split_ifs with hsmall
  · obtain ⟨k, hk⟩ : ∃ k, (w - 1 + 6) / 7 = k + 1 := ⟨(w - 1 + 6) / 7 - 1, by omega⟩
    have hmod : ((n : Int) % 128).toNat = n % 128 := by omega
    rw [writeVarInt, hk, varIntDigits, if_pos (by omega), hmod, UInt8.add_zero, reverse_singleton]
  · rw [Int.toNat_natCast]

theorem Reads.readVarIntSigned (hw : 1 < w) {n : Int} (hn : 0 ≤ n) (hlt : n < 2 ^ (w - 1)) :
    Reads (DefcoinCore.readVarIntSigned w) (writeVarIntSigned w n) n := by
  obtain ⟨m, rfl⟩ := Int.eq_ofNat_of_zero_le hn
  rw [writeVarIntSigned_natCast hw]
  have hm : m < 2 ^ (w - 1) := by exact_mod_cast hlt
  exact (Reads.readVarInt (by omega) hm).bind_pure fun n : Nat => (n : Int)

theorem Canonical.readVarIntSigned (hw : 8 ≤ w) :
    Canonical (DefcoinCore.readVarIntSigned w) (writeVarIntSigned w)
      fun n => 0 ≤ n ∧ n < 2 ^ (w - 1) := by
  intro s n rest h
  obtain ⟨m, s', hm, h⟩ := Get.bind_eq_ok_iff.mp h
  obtain ⟨rfl, rfl⟩ := Get.pure_eq_ok_iff.mp h
  obtain ⟨hs, hlt⟩ := Canonical.readVarInt (show 7 ≤ w - 1 by omega) s m s' hm
  rw [writeVarIntSigned_natCast (by omega)]
  exact ⟨hs, by omega, by exact_mod_cast hlt⟩

/-- Bytes behind their number. -/
def writeByteVector (b : List UInt8) : List UInt8 := writeCompactSize b.length ++ b

/-- At most `limit` bytes behind their number. -/
def readByteVector (limit : Nat) : Get (List UInt8) := do
  let size ← readCompactSize limit
  readBytes size

theorem Reads.readByteVector {b : List UInt8} (hlimit : b.length ≤ limit)
    (h64 : b.length < 2 ^ 64) :
    Reads (DefcoinCore.readByteVector limit) (writeByteVector b) b :=
  (Reads.readCompactSize hlimit h64).bind (.readBytes b)

theorem Canonical.readByteVector (limit : Nat) :
    Canonical (DefcoinCore.readByteVector limit) writeByteVector fun b => b.length ≤ limit := by
  intro s b rest h
  obtain ⟨size, s', hsize, h⟩ := Get.bind_eq_ok_iff.mp h
  obtain ⟨hs, hlimit, -⟩ := Canonical.readCompactSize limit s size s' hsize
  obtain ⟨hs', hlen⟩ := Canonical.readBytes size s' b rest h
  rw [← hlen] at hs hlimit
  refine ⟨?_, hlimit⟩
  rw [hs, hs', writeByteVector, append_assoc]

/-- A field that is there or not. -/
def writeOptional {α : Type} (write : α → List UInt8) : Option α → List UInt8
  | none => []
  | some a => write a

/-- A field that is read on a condition. -/
def readIf {α : Type} (cond : Bool) (x : Get α) : Get (Option α) :=
  if cond then do
    let a ← x
    pure (some a)
  else pure none

theorem Reads.readIf {x : Get α} {cond : Bool} {a : Option α} (hcond : cond = a.isSome)
    (h : ∀ v, a = some v → Reads x (write v) v) :
    Reads (DefcoinCore.readIf cond x) (writeOptional write a) a := by
  rcases a with _ | v
  · rw [hcond]
    exact .pure none
  · rw [hcond]
    exact (h v rfl).bind_pure some

theorem Canonical.readIf {x : Get α} {valid : α → Prop} (hx : Canonical x write valid)
    (cond : Bool) :
    Canonical (DefcoinCore.readIf cond x) (writeOptional write)
      fun a => a.isSome = cond ∧ ∀ v, a = some v → valid v := by
  intro s a rest h
  cases cond with
  | false =>
    obtain ⟨rfl, rfl⟩ := Get.pure_eq_ok_iff.mp h
    exact ⟨rfl, rfl, nofun⟩
  | true =>
    obtain ⟨v, s', hv, h⟩ := Get.bind_eq_ok_iff.mp h
    obtain ⟨rfl, rfl⟩ := Get.pure_eq_ok_iff.mp h
    obtain ⟨hs, hvalid⟩ := hx s v s' hv
    exact ⟨hs, rfl, fun v' hv' => Option.some.inj hv' ▸ hvalid⟩

end DefcoinCore
