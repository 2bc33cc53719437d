import DefcoinCore.Lib.Ensures
import DefcoinCore.Lib.Stream

/-!
# Decoding addresses

`DecodeDestination` of `key_io.cpp` tries three formats on a string in turn: base58 with a checksum,
bech32 with the prefix of witness programs, and bech32 of any length with the prefix of stealth
addresses. Strings are lists of bytes. The tables `mapBase58` and `CHARSET_REV` are searches in the
alphabets that they invert.

The base58 decoder works in a buffer whose size is computed from the length of the string, and
asserts that no digit is carried out of it; `base58Fits_of_length` shows that `733 * n / 1000 + 1`
bytes are enough for `n` characters as long as this number is an `int`. The last format takes the
first symbol away without a look at how many there are. These are the two ways in which decoding
stops without an answer (`decodeDestination_isOk_iff`).
-/

namespace DefcoinCore.KeyIo

open List Option Nat

/-! ## The code -/

/-- How a call stops without an answer: an assertion fails, a size is negative, or memory is
requested for more symbols than there are. -/
inductive Fault where
  | assertion
  | lengthError
  | badAlloc
  deriving DecidableEq

/-- The bytes of a text. -/
def bytesOf (s : String) : List UInt8 := s.toList.map fun c => UInt8.ofNat c.toNat

/-- `IsSpace`. -/
def isSpace (c : UInt8) : Bool := c = 0x20 || (0x09 ≤ c && c ≤ 0x0d)

/-- `pszBase58`. -/
def pszBase58 : List UInt8 := bytesOf "123456789ABCDEFGHJKLMNPQRSTUVWXYZabcdefghijkmnopqrstuvwxyz"

/-- `mapBase58`. -/
def mapBase58 (c : UInt8) : Option Nat := pszBase58.idxOf? c

/-- The loop over the buffer, from its last byte on: the buffer, what is carried and the rounds. -/
def addCarry (length : Nat) : Nat → Nat → List UInt8 → List UInt8 × Nat × Nat
  | i, carry, [] => ([], carry, i)
  | i, carry, d :: ds =>
    if carry ≠ 0 ∨ i < length then
      let r := addCarry length (i + 1) ((carry + 58 * d.toNat) / 256) ds
      (UInt8.ofNat (carry + 58 * d.toNat) :: r.1, r.2)
    else (d :: ds, carry, i)

/-- The loop over the characters: what is left of the string, the buffer and the bytes in use. -/
def base58Loop (limit : Nat) : List UInt8 → List UInt8 → Nat →
    Except Fault (Option (List UInt8 × List UInt8 × Nat))
  | [], b256, length => .ok (some ([], b256, length))
  | c :: psz, b256, length =>
    if isSpace c then .ok (some (c :: psz, b256, length))
    else match mapBase58 c with
      | none => .ok none
      | some digit =>
        let r := addCarry length 0 digit b256
        if r.2.1 ≠ 0 then .error .assertion
        else if r.2.2 > limit then .ok none
        else base58Loop limit psz r.1 r.2.2

variable (psz : List UInt8)

/-- The characters behind leading spaces and ones. -/
def base58Digits : List UInt8 := (psz.dropWhile isSpace).dropWhile (· = 0x31)

/-- The number of leading ones. -/
def base58Zeroes : Nat := ((psz.dropWhile isSpace).takeWhile (· = 0x31)).length

/-- The size of the buffer: a `size_t` that is stored in an `int`. -/
def base58Size : Int :=
  Int.bmod (((base58Digits psz).length * 733 % 2 ^ 64 / 1000 + 1 : Nat) : Int) (2 ^ 32)

/-- `DecodeBase58`, of a string without null characters. -/
def decodeBase58 (max_ret_len : Nat) : Except Fault (Option (List UInt8)) :=
  if base58Zeroes psz > max_ret_len then .ok none
  else do
    reject (decide (base58Size psz < 0)) .lengthError
    let r ← base58Loop (max_ret_len - base58Zeroes psz) (base58Digits psz)
      (List.replicate (base58Size psz).toNat 0) 0
    pure do
      let (rest, b256, length) ← r
      if rest.dropWhile isSpace = [] then
        some (List.replicate (base58Zeroes psz) 0 ++ (b256.take length).reverse)
      else none

/-- `DecodeBase58Check`, with the hash of the checksum. -/
def decodeBase58Check (hash : List UInt8 → List UInt8) (str : List UInt8) (max_ret : Nat) :
    Except Fault (Option (List UInt8)) :=
  -- `ValidAsCString`.
  if 0 ∈ str then .ok none
  else do
    let r ← decodeBase58 str (max_ret + 4)
    pure do
      let vchRet ← r
      if vchRet.length < 4 then none
      else
        let data := vchRet.take (vchRet.length - 4)
        if (hash data).take 4 = vchRet.drop (vchRet.length - 4) then some data else none

inductive Encoding where
  | invalid
  | bech32
  | bech32m
  deriving DecidableEq

structure DecodeResult where
  encoding : Encoding
  hrp : List UInt8
  data : List UInt8
  deriving DecidableEq

/-- `CHARSET`. -/
def charset : List UInt8 := bytesOf "qpzry9x8gf2tvdw0s3jn54khce6mua7l"

def isLower (c : UInt8) : Bool := 0x61 ≤ c && c ≤ 0x7a

def isUpper (c : UInt8) : Bool := 0x41 ≤ c && c ≤ 0x5a

/-- `LowerCase`. -/
def lowerCase (c : UInt8) : UInt8 := if isUpper c then c - 0x41 + 0x61 else c

/-- `CHARSET_REV`. -/
def charsetRev (c : UInt8) : Option UInt8 := (charset.idxOf? (lowerCase c)).map UInt8.ofNat

/-- `PolyMod`. -/
def polyMod (v : List UInt8) : UInt32 :=
  v.foldl (fun c v_i =>
    let c0 := c >>> 25
    let c' := ((c &&& 0x1ffffff) <<< 5) ^^^ v_i.toUInt32
    let c' := if c0 &&& 1 ≠ 0 then c' ^^^ 0x3b6a57b2 else c'
    let c' := if c0 &&& 2 ≠ 0 then c' ^^^ 0x26508e6d else c'
    let c' := if c0 &&& 4 ≠ 0 then c' ^^^ 0x1ea119fa else c'
    let c' := if c0 &&& 8 ≠ 0 then c' ^^^ 0x3d4233dd else c'
    if c0 &&& 16 ≠ 0 then c' ^^^ 0x2a1462b3 else c') 1

/-- `ExpandHRP`. -/
def expandHRP (hrp : List UInt8) : List UInt8 :=
  hrp.map (fun c : UInt8 => c >>> 5) ++ 0 :: hrp.map fun c : UInt8 => c &&& 0x1f

/-- `VerifyChecksum`. -/
def verifyChecksum (hrp values : List UInt8) : Encoding :=
  let check := polyMod (expandHRP hrp ++ values)
  if check = 1 then .bech32 else if check = 0x2bc830a3 then .bech32m else .invalid

/-- The first loop of `Decode`: printable characters of one case. -/
def validChars (str : List UInt8) : Bool :=
  str.all (fun c => isLower c || isUpper c || (33 ≤ c && c ≤ 126)) &&
    !(str.any isLower && str.any isUpper)

/-- `rfind`. -/
def rfind (c : UInt8) : List UInt8 → Option Nat
  | [] => none
  | d :: ds => ((rfind c ds).map (· + 1)).or (if d = c then some 0 else none)

/-- The result of `Decode` for a string that it accepts. -/
def decode? (str : List UInt8) (ext_length : Bool) : Option DecodeResult :=
  if validChars str then
    (rfind 0x31 str).bind fun pos =>
      if (str.length > 90 ∧ ext_length = false) ∨ pos = 0 ∨ pos + 7 > str.length then none
      else ((str.drop (pos + 1)).mapM charsetRev).bind fun values =>
        let hrp := (str.take pos).map lowerCase
        if verifyChecksum hrp values = .invalid then none
        else some ⟨verifyChecksum hrp values, hrp, values.take (values.length - 6)⟩
  else none

/-- `bech32::Decode`. -/
def decode (str : List UInt8) (ext_length : Bool) : DecodeResult :=
  (decode? str ext_length).getD ⟨.invalid, [], []⟩

/-- The inner loop of `ConvertBits`: what is put out, and the bits that are left. -/
def outputBits (tobits acc : Nat) : Nat → Nat → List UInt8 × Nat
  | 0, bits => ([], bits)
  | fuel + 1, bits =>
    if bits ≥ tobits then
      let r := outputBits tobits acc fuel (bits - tobits)
      (UInt8.ofNat (acc >>> (bits - tobits) % 2 ^ tobits) :: r.1, r.2)
    else ([], bits)

/-- `ConvertBits` without padding, or nothing if it returns `false`. -/
def convertBits (frombits tobits : Nat) (l : List UInt8) : Option (List UInt8) :=
  let (acc, bits, out) := l.foldl (fun (s : Nat × Nat × List UInt8) c =>
    let acc := (s.1 <<< frombits ||| c.toNat) % 2 ^ (frombits + tobits - 1)
    let r := outputBits tobits acc (s.2.1 + frombits) (s.2.1 + frombits)
    (acc, r.2, s.2.2 ++ r.1)) (0, 0, [])
  if bits ≥ frombits ∨ acc <<< (tobits - bits) % 2 ^ tobits ≠ 0 then none else some out

inductive CTxDestination where
  | noDestination
  | pkHash (hash : List UInt8)
  | scriptHash (hash : List UInt8)
  | witnessV0KeyHash (hash : List UInt8)
  | witnessV0ScriptHash (hash : List UInt8)
  | witnessUnknown (version : UInt8) (program : List UInt8)
  | stealthAddress (scan spend : List UInt8)
  deriving DecidableEq

/-- The parameters of a network. -/
structure ChainParams where
  pubkeyAddress : List UInt8
  scriptAddress : List UInt8
  scriptAddress2 : List UInt8
  bech32_hrp : List UInt8
  mweb_hrp : List UInt8
  isMain : Bool

/-- The 20 bytes behind a version. -/
def withoutVersion (version data : List UInt8) : Option (List UInt8) :=
  if data.length = 20 + version.length ∧
    version <+: data then some (data.drop version.length) else none

variable (params : ChainParams)

/-- The branch of `DecodeDestination` for base58. -/
def base58Destination (data : List UInt8) : Option CTxDestination :=
  ((withoutVersion params.pubkeyAddress data).map .pkHash).or <|
    ((withoutVersion params.scriptAddress data).map .scriptHash).or <|
    ((withoutVersion params.scriptAddress2 data).map .scriptHash).or <|
    if params.isMain then (withoutVersion [22] data).map .scriptHash else none

/-- The branch for witness programs, if it returns. -/
def witnessDestination (dec : DecodeResult) : Option CTxDestination :=
  match dec.data with
  | [] => none
  | version :: symbols =>
    if dec.encoding = .invalid ∨ dec.hrp ≠ params.bech32_hrp then none
    else if version = 0 ∧ dec.encoding ≠ .bech32 ∨ version ≠ 0 ∧ dec.encoding ≠ .bech32m then
      some .noDestination
    else (convertBits 5 8 symbols).map fun data =>
      if version = 0 then
        if data.length = 20 then .witnessV0KeyHash data
        else if data.length = 32 then .witnessV0ScriptHash data
        else .noDestination
      else if version > 16 ∨ data.length < 2 ∨ data.length > 40 then .noDestination
      else .witnessUnknown version data

/-- `reserve` of the bytes for all symbols but the first, with the arithmetic of `size_t`. -/
def reserve (symbols : Nat) : Except Fault Unit :=
  reject (decide ((symbols + (2 ^ 64 - 1)) % 2 ^ 64 * 5 % 2 ^ 64 / 8 > symbols)) .badAlloc

/-- The branch for stealth addresses. -/
def mwebDestination (decoded : DecodeResult) : Except Fault CTxDestination :=
  if decoded.encoding = .bech32 ∧ decoded.hrp = params.mweb_hrp then do
    reserve decoded.data.length
    pure (match convertBits 5 8 decoded.data.tail with
      | some converted =>
        if converted.length = 66 then .stealthAddress (converted.take 33) (converted.drop 33)
        else .noDestination
      | none => .noDestination)
  else pure .noDestination

/-- `DecodeDestination`. -/
def decodeDestination (hash : List UInt8 → List UInt8) (str : List UInt8) :
    Except Fault CTxDestination := do
  let data ← decodeBase58Check hash str 21
  match data.bind (base58Destination params) with
  | some dest => pure dest
  | none =>
    match witnessDestination params (decode str false) with
    | some dest => pure dest
    | none => mwebDestination params (decode str true)

/-! ## Base58 -/

/-- The number that the digits spell up to the first character that is none, behind the number `v`.
-/
def spelled (v : Nat) : List UInt8 → Nat
  | [] => v
  | c :: psz =>
    if isSpace c then v
    else match mapBase58 c with
      | none => v
      | some digit => spelled (58 * v + digit) psz

/-- The buffer has room for the number, or the characters are given up before it has not. -/
def Base58Fits (max_ret_len : Nat) (psz : List UInt8) : Prop :=
  max_ret_len < base58Zeroes psz ∨ 0 ≤ base58Size psz ∧
    (max_ret_len - base58Zeroes psz < (base58Size psz).toNat ∨
      spelled 0 (base58Digits psz) < 256 ^ (base58Size psz).toNat)

variable {c : UInt8} {ds : List UInt8}

theorem mapBase58_lt {digit : Nat} (h : mapBase58 c = some digit) : digit < 58 :=
  (idxOf?_eq_some_iff.mp h).1

theorem le_spelled (v : Nat) (psz : List UInt8) : v ≤ spelled v psz := by
  induction psz generalizing v with
  | nil => exact le_rfl
  | cons c psz ih =>
    rw [spelled]
    split_ifs
    · exact le_rfl
    · split
      · exact le_rfl
      · next digit _ => exact le_trans (by omega) (ih (58 * v + digit))

theorem spelled_lt (v : Nat) (psz : List UInt8) : spelled v psz < (v + 1) * 58 ^ psz.length := by
  induction psz generalizing v with
  | nil => simp [spelled]
  | cons c psz ih =>
    have hstop : v < (v + 1) * 58 ^ (psz.length + 1) :=
      lt_of_lt_of_le (Nat.lt_succ_self v) (Nat.le_mul_of_pos_right _ (by positivity))
    rw [spelled, length_cons]
    split_ifs
    · exact hstop
    · split
      · exact hstop
      · next digit hdigit =>
        calc spelled (58 * v + digit) psz < (58 * v + digit + 1) * 58 ^ psz.length := ih _
          _ ≤ (58 * (v + 1)) * 58 ^ psz.length :=
            mul_le_mul_right _ (by have := mapBase58_lt hdigit; omega)
          _ = (v + 1) * 58 ^ (psz.length + 1) := by rw [pow_succ]; ring

theorem ofLE_eq_zero (h : ∀ d ∈ ds, d = 0) : ofLE ds = 0 := by
  induction ds with
  | nil => rfl
  | cons d ds ih =>
    rw [ofLE, h d mem_cons_self, ih fun d hd => h d (mem_cons_of_mem _ hd)]
    rfl

theorem ofLE_lt_of_drop {k : Nat} (h : ∀ d ∈ ds.drop k, d = 0) : ofLE ds < 256 ^ k := by
  induction ds generalizing k with
  | nil => exact Nat.pow_pos (by decide)
  | cons d ds ih =>
    cases k with
    | zero => exact (show ofLE (d :: ds) = 0 from ofLE_eq_zero h).trans_lt one_pos
    | succ k =>
      have := ih h
      have := d.toNat_lt
      rw [ofLE, pow_succ']
      omega

/-- A digit is added to 58 times the buffer, whose bytes from `length` on are zero; what does not
fit is carried out. -/
theorem addCarry_spec {length : Nat} (i carry : Nat) (hzero : ∀ d ∈ ds.drop (length - i), d = 0) :
    ofLE (addCarry length i carry ds).1 + 256 ^ ds.length * (addCarry length i carry ds).2.1 =
        carry + 58 * ofLE ds ∧
      (addCarry length i carry ds).1.length = ds.length ∧
      i ≤ (addCarry length i carry ds).2.2 ∧ (addCarry length i carry ds).2.2 ≤ i + ds.length ∧
      ∀ d ∈ (addCarry length i carry ds).1.drop ((addCarry length i carry ds).2.2 - i), d = 0 := by
  induction ds generalizing i carry with
  | nil => simp [addCarry, ofLE]
  | cons d ds ih =>
    rw [addCarry]
    split_ifs with hgo
    · have hrest : ∀ d ∈ ds.drop (length - (i + 1)), d = 0 := by
        by_cases hi : i < length
        · rwa [show length - i = length - (i + 1) + 1 by omega] at hzero
        · rw [show length - i = 0 by omega] at hzero
          exact fun e he => hzero e (mem_cons_of_mem _ (mem_of_mem_drop he))
      obtain ⟨hval, hlen, hle, hge, hz⟩ := ih _ ((carry + 58 * d.toNat) / 256) hrest
      refine ⟨?_, congrArg (· + 1) hlen, by dsimp only; omega, by simp only [length_cons]; omega,
        ?_⟩
      · simp only [ofLE, length_cons, UInt8.toNat_ofNat', pow_succ', reducePow]
        have hdiv := mod_add_div (carry + 58 * d.toNat) 256
        linear_combination 256 * hval + hdiv
      · rwa [show (addCarry length (i + 1) ((carry + 58 * d.toNat) / 256) ds).2.2 - i =
          (addCarry length (i + 1) ((carry + 58 * d.toNat) / 256) ds).2.2 - (i + 1) + 1 by omega]
    · -- Nothing is carried, and the buffer is zero from here on.
      rw [show length - i = 0 by omega] at hzero
      have hz : ofLE (d :: ds) = 0 := ofLE_eq_zero hzero
      refine ⟨?_, rfl, le_rfl, le_add_right _ _, ?_⟩
      · rw [hz, show carry = 0 by omega]
        rfl
      · simpa using hzero

/-- The loop fails only when the number is too large for the buffer, and then only if the buffer is
not larger than the limit. -/
theorem base58Loop_isOk_iff (limit : Nat) (psz b256 : List UInt8) (length : Nat)
    (hzero : ∀ d ∈ b256.drop length, d = 0) (hlimit : length ≤ limit) :
    (∃ r, base58Loop limit psz b256 length = .ok r) ↔
      limit < b256.length ∨ spelled (ofLE b256) psz < 256 ^ b256.length := by
  induction psz generalizing b256 length with
  | nil => exact ⟨fun _ => .inr (ofLE_lt b256), fun _ => ⟨_, rfl⟩⟩
  | cons c psz ih =>
    rw [base58Loop, spelled]
    split_ifs with hspace
    · exact ⟨fun _ => .inr (ofLE_lt b256), fun _ => ⟨_, rfl⟩⟩
    cases hdigit : mapBase58 c with
    | none => exact ⟨fun _ => .inr (ofLE_lt b256), fun _ => ⟨_, rfl⟩⟩
    | some digit =>
      obtain ⟨hval, hlen, -, hge, hz⟩ := addCarry_spec 0 digit hzero
      dsimp only
      generalize addCarry length 0 digit b256 = r at hval hlen hge hz ⊢
      obtain ⟨b', carry, i⟩ := r
      have hdlt := mapBase58_lt hdigit
      split_ifs with hcarry hstop
      · -- The number has left the buffer, so it had as many bytes as the limit allows.
        have hout : 256 ^ b256.length ≤ 58 * ofLE b256 + digit := by
          have := Nat.le_mul_of_pos_right (256 ^ b256.length) (Nat.pos_of_ne_zero hcarry)
          omega
        refine ⟨fun ⟨r, h⟩ => (by cases h), fun h => h.elim (fun hlt => ?_) fun hlt => ?_⟩
        · have hsmall := ofLE_lt_of_drop hzero
          have hpow : 256 * 256 ^ length ≤ 256 ^ b256.length := by
            rw [← pow_succ']
            exact Nat.pow_le_pow_right (by decide) (by omega)
          omega
        · have := le_spelled (58 * ofLE b256 + digit) psz
          omega
      · exact ⟨fun _ => .inl (by omega), fun _ => ⟨_, rfl⟩⟩
      · rw [not_not.mp hcarry, mul_zero, add_zero] at hval
        rw [Nat.sub_zero] at hz
        rw [ih _ _ hz (by omega), hlen, hval, add_comm]

/-- 1000 digits in base 58 have at most 733 bytes. -/
theorem pow_le_buffer (n : Nat) : 58 ^ n ≤ 256 ^ (n * 733 / 1000 + 1) := by
  refine (Nat.pow_le_pow_iff_left (n := 1000) (by decide)).mp ?_
  calc (58 ^ n) ^ 1000 = (58 ^ 1000) ^ n := by rw [← pow_mul, ← pow_mul, Nat.mul_comm]
    _ ≤ (256 ^ 733) ^ n := Nat.pow_le_pow_left (by decide +kernel) n
    _ = 256 ^ (733 * n) := (pow_mul 256 733 n).symm
    _ ≤ 256 ^ ((n * 733 / 1000 + 1) * 1000) := Nat.pow_le_pow_right (by decide) (by omega)
    _ = (256 ^ (n * 733 / 1000 + 1)) ^ 1000 := pow_mul 256 _ 1000

theorem base58Fits_of_length {psz : List UInt8} (h : psz.length < 2 ^ 31) (max_ret_len : Nat) :
    Base58Fits max_ret_len psz := by
  have hlen : (base58Digits psz).length < 2 ^ 31 :=
    lt_of_le_of_lt (((dropWhile_sublist _).trans (dropWhile_sublist _)).length_le) h
  have hsize : base58Size psz = (((base58Digits psz).length * 733 / 1000 + 1 : Nat) : Int) := by
    have hmod : (base58Digits psz).length * 733 % 2 ^ 64 = (base58Digits psz).length * 733 :=
      mod_eq_of_lt (by omega)
    unfold base58Size
    rw [hmod]
    exact Int.bmod_eq_of_le_mul_two (by omega) (by omega)
  refine .inr ⟨by omega, .inr ?_⟩
  rw [hsize, Int.toNat_natCast]
  exact lt_of_lt_of_le (by simpa using spelled_lt 0 (base58Digits psz)) (pow_le_buffer _)

theorem decodeBase58_isOk_iff (max_ret_len : Nat) :
    (∃ r, decodeBase58 psz max_ret_len = .ok r) ↔ Base58Fits max_ret_len psz := by
  rw [decodeBase58, Base58Fits]
  split_ifs with hzeroes
  · exact ⟨fun _ => .inl hzeroes, fun _ => ⟨_, rfl⟩⟩
  · have hzero : ∀ d ∈ replicate (base58Size psz).toNat (0 : UInt8), d = 0 :=
      fun d hd => eq_of_mem_replicate hd
    have hloop := base58Loop_isOk_iff (max_ret_len - base58Zeroes psz) (base58Digits psz) _ 0
      (by rwa [drop_zero]) (zero_le _)
    rw [ofLE_eq_zero hzero, length_replicate] at hloop
    rw [or_iff_right hzeroes, ← hloop, ← not_lt, ← decide_eq_false_iff_not,
      ← reject_eq_ok_iff (e := Fault.lengthError) (u := ())]
    constructor
    · rintro ⟨r, h⟩
      obtain ⟨u, hu, h⟩ := bind_eq_ok_iff.mp h
      obtain ⟨r', hr, -⟩ := bind_eq_ok_iff.mp h
      exact ⟨hu, r', hr⟩
    · rintro ⟨hu, r, hr⟩
      rw [hu, ok_bind, hr, ok_bind]
      exact ⟨_, rfl⟩

/-! ## Bech32 -/

/-- A string of a prefix, the separator and a checksum, with no symbol between them. -/
def IsBare (hrp str : List UInt8) : Prop :=
  ∃ pre checksum values, str = pre ++ 0x31 :: checksum ∧ validChars str ∧ pre ≠ [] ∧
    pre.map lowerCase = hrp ∧ checksum.length = 6 ∧ checksum.mapM charsetRev = some values ∧
    verifyChecksum hrp values = .bech32

theorem rfind_eq_none (h : c ∉ ds) : rfind c ds = none := by
  induction ds with
  | nil => rfl
  | cons d ds ih =>
    rw [mem_cons, not_or] at h
    rw [rfind, ih h.2, if_neg (Ne.symm h.1)]
    rfl

theorem rfind_append {post : List UInt8} (h : c ∉ post) (pre : List UInt8) :
    rfind c (pre ++ c :: post) = some pre.length := by
  induction pre with
  | nil => rw [nil_append, rfind, rfind_eq_none h, if_pos rfl]; rfl
  | cons d pre ih => rw [cons_append, rfind, ih]; rfl

theorem of_rfind {pos : Nat} (h : rfind c ds = some pos) :
    ∃ pre post, ds = pre ++ c :: post ∧ pre.length = pos := by
  induction ds generalizing pos with
  | nil => cases h
  | cons d ds ih =>
    rw [rfind, or_eq_some_iff] at h
    rcases h with h | ⟨-, h⟩
    · obtain ⟨i, hi, rfl⟩ := map_eq_some_iff.mp h
      obtain ⟨pre, post, rfl, rfl⟩ := ih hi
      exact ⟨d :: pre, post, rfl, rfl⟩
    · split_ifs at h with hd
      exact ⟨[], ds, by rw [hd]; rfl, some.inj h⟩

theorem of_mapM_charsetRev {l values : List UInt8} (h : l.mapM charsetRev = some values) :
    values.length = l.length ∧ ∀ c ∈ l, charsetRev c ≠ none := by
  induction l generalizing values with
  | nil => cases h; exact ⟨rfl, by simp⟩
  | cons c l ih =>
    rw [mapM_cons] at h
    obtain ⟨v, hv, h⟩ := bind_eq_some_iff.mp h
    obtain ⟨vs, hvs, h⟩ := bind_eq_some_iff.mp h
    cases h
    obtain ⟨hlen, hall⟩ := ih hvs
    exact ⟨congrArg (· + 1) hlen, forall_mem_cons.mpr ⟨by rw [hv]; exact some_ne_none v, hall⟩⟩

theorem decode_bare_iff {hrp str : List UInt8} :
    decode str true = ⟨.bech32, hrp, []⟩ ↔ IsBare hrp str := by
  have hsome : decode str true = ⟨.bech32, hrp, []⟩ ↔
      decode? str true = some ⟨.bech32, hrp, []⟩ := by
    rw [decode]
    cases decode? str true <;> simp
  have hdrop : ∀ pre post : List UInt8, (pre ++ 0x31 :: post).drop (pre.length + 1) = post :=
    fun pre post => by rw [← drop_drop, drop_left, drop_one, tail_cons]
  rw [hsome, decode?]
  constructor
  · intro h
    split_ifs at h with hchars
    obtain ⟨pos, hpos, h⟩ := bind_eq_some_iff.mp h
    obtain ⟨pre, checksum, rfl, rfl⟩ := of_rfind hpos
    rw [hdrop, take_left] at h
    split_ifs at h with hlen
    obtain ⟨values, hvalues, h⟩ := bind_eq_some_iff.mp h
    dsimp only at h
    split_ifs at h with hcheck
    obtain ⟨hbech, rfl, hnil⟩ := DecodeResult.mk.inj (some.inj h)
    have hvlen := (of_mapM_charsetRev hvalues).1
    have htake := congrArg length hnil
    rw [length_take, length_nil] at htake
    rw [length_append, length_cons] at hlen
    refine ⟨pre, checksum, values, rfl, hchars, fun hpre => hlen ?_, rfl, by omega, hvalues, hbech⟩
    exact .inr (.inl (congrArg length hpre))
  · rintro ⟨pre, checksum, values, rfl, hchars, hpre, rfl, hlen, hvalues, hcheck⟩
    obtain ⟨hvlen, hall⟩ := of_mapM_charsetRev hvalues
    have hsep : 0x31 ∉ checksum := fun hmem => hall _ hmem (by decide)
    rw [if_pos hchars, rfind_append hsep, bind_some, hdrop, take_left, hvalues, bind_some,
      if_neg (by simp [hpre, hlen])]
    dsimp only
    rw [hcheck, if_neg (by decide), hvlen, hlen]
    rfl

/-! ## The three formats -/

/-- The string is an address in base58. -/
def IsBase58Address (hash : List UInt8 → List UInt8) (str : List UInt8) : Prop :=
  ∃ data, decodeBase58Check hash str 21 = .ok (some data) ∧ (base58Destination params data).isSome

theorem decodeBase58Check_isOk_iff (hash : List UInt8 → List UInt8) (str : List UInt8)
    (max_ret : Nat) :
    (∃ r, decodeBase58Check hash str max_ret = .ok r) ↔ 0 ∈ str ∨ Base58Fits (max_ret + 4) str := by
  rw [decodeBase58Check, ← decodeBase58_isOk_iff]
  split_ifs with hnul
  · exact ⟨fun _ => .inl hnul, fun _ => ⟨_, rfl⟩⟩
  · rw [or_iff_right hnul]
    constructor
    · rintro ⟨r, h⟩
      obtain ⟨r', hr, -⟩ := bind_eq_ok_iff.mp h
      exact ⟨r', hr⟩
    · rintro ⟨r, hr⟩
      rw [hr]
      exact ⟨_, rfl⟩

theorem reserve_eq_ok_iff {symbols : Nat} : reserve symbols = .ok () ↔ symbols ≠ 0 := by
  rw [reserve, reject_eq_ok_iff, decide_eq_false_iff_not]
  cases symbols with
  | zero => decide
  | succ k =>
    rw [show k + 1 + (2 ^ 64 - 1) = k + 2 ^ 64 by omega, add_mod_right]
    have := mod_le (k % 2 ^ 64 * 5) (2 ^ 64)
    omega

theorem mwebDestination_isOk_iff (decoded : DecodeResult) :
    (∃ dest, mwebDestination params decoded = .ok dest) ↔
      decoded ≠ ⟨.bech32, params.mweb_hrp, []⟩ := by
  obtain ⟨encoding, hrp, data⟩ := decoded
  rw [mwebDestination]
  split_ifs with h
  · obtain ⟨rfl, rfl⟩ : encoding = .bech32 ∧ hrp = params.mweb_hrp := h
    rw [Ne, DecodeResult.mk.injEq, ← length_eq_zero_iff]
    constructor
    · rintro ⟨dest, h⟩ ⟨-, -, hnil⟩
      obtain ⟨u, hu, -⟩ := bind_eq_ok_iff.mp h
      exact reserve_eq_ok_iff.mp hu hnil
    · intro hne
      rw [reserve_eq_ok_iff.mpr fun hnil => hne ⟨rfl, rfl, hnil⟩]
      exact ⟨_, rfl⟩
  · exact ⟨fun _ heq => h (by cases heq; exact ⟨rfl, rfl⟩), fun _ => ⟨_, rfl⟩⟩

/-- A string without symbols is no witness program, whatever length is allowed. -/
theorem witnessDestination_of_bare {params : ChainParams} {hrp str : List UInt8}
    (h : decode str true = ⟨.bech32, hrp, []⟩) :
      witnessDestination params (decode str false) = none := by
  have hdata : (decode str false).data = [] := by
    by_cases hlen : str.length > 90
    · simp [decode, decode?, hlen]
    · rw [show decode str false = decode str true by simp [decode, decode?, hlen], h]
  rw [witnessDestination, hdata]

/-- Decoding gives an answer unless the string is too long for the base58 decoder, or it is the
prefix of stealth addresses with a checksum and nothing else. No string of less than `2 ^ 31`
characters is too long. -/
theorem decodeDestination_isOk_iff (params : ChainParams) (hash : List UInt8 → List UInt8)
    (str : List UInt8) :
    ((∃ dest, decodeDestination params hash str = .ok dest) ↔
      (0 ∈ str ∨ Base58Fits 25 str) ∧
      (IsBase58Address params hash str ∨ ¬IsBare params.mweb_hrp str)) ∧
    (str.length < 2 ^ 31 → Base58Fits 25 str) := by
  refine ⟨?_, fun h => base58Fits_of_length h 25⟩
  rw [← decodeBase58Check_isOk_iff hash str 21, decodeDestination, IsBase58Address,
    ← decode_bare_iff]
  cases hdata : decodeBase58Check hash str 21 with
  | error e => exact ⟨nofun, fun ⟨⟨_, h⟩, _⟩ => (by cases h)⟩
  | ok data =>
    rw [ok_bind, and_iff_right ⟨data, rfl⟩]
    cases hdest : data.bind (base58Destination params) with
    | some dest =>
      obtain ⟨d, rfl, hd⟩ := bind_eq_some_iff.mp hdest
      exact ⟨fun _ => .inl ⟨d, rfl, by rw [hd]; rfl⟩, fun _ => ⟨_, rfl⟩⟩
    | none =>
      have hnot : ¬∃ d, (.ok data : Except Fault _) = .ok (some d) ∧
          (base58Destination params d).isSome := by
        rintro ⟨d, hd, hsome⟩
        cases hd
        rw [bind_some] at hdest
        rw [hdest] at hsome
        cases hsome
      rw [or_iff_right hnot]
      -- Before the last format only a witness program is returned, and that has symbols.
      cases hwit : witnessDestination params (decode str false) with
      | some dest =>
        refine ⟨fun _ h => ?_, fun _ => ⟨_, rfl⟩⟩
        rw [witnessDestination_of_bare h] at hwit
        cases hwit
      | none => exact mwebDestination_isOk_iff params (decode str true)

/-- The main network. -/
def mainParams : ChainParams where
  pubkeyAddress := [30]
  scriptAddress := [5]
  scriptAddress2 := [50]
  bech32_hrp := bytesOf "dfc"
  mweb_hrp := bytesOf "dfcmweb"
  isMain := true

/-- The prefix of stealth addresses with its checksum and nothing else, whatever the hash of base58
checksums is. -/
theorem decodeDestination_bareMweb :
    (fun hash => decodeDestination mainParams hash (bytesOf "dfcmweb1f2eang")) =
      fun _ => .error .badAlloc := by
  funext hash
  have hdata : decodeBase58 (bytesOf "dfcmweb1f2eang") 25 =
      .ok (some [2, 140, 160, 174, 100, 139, 6, 210, 9, 180, 149]) := by decide +kernel
  have hbare : witnessDestination mainParams (decode (bytesOf "dfcmweb1f2eang") false) = none ∧
      mwebDestination mainParams (decode (bytesOf "dfcmweb1f2eang") true) = .error .badAlloc := by
    decide +kernel
  -- Whether or not the checksum is right, seven bytes are no address.
  have hnone : base58Destination mainParams [2, 140, 160, 174, 100, 139, 6] =
    none := by decide +kernel
  rw [decodeDestination, decodeBase58Check, if_neg (by decide +kernel), hdata]
  by_cases hsum : (hash [2, 140, 160, 174, 100, 139, 6]).take 4 = [210, 9, 180, 149] <;>
    simp [hsum, hnone, hbare, ok_bind]

/-- The address of a witness key hash. -/
def keyHashAddress : List UInt8 := bytesOf "dfc1qqypqxpq9qcrsszg2pvxq6rs0zqg3yyc5zjugph"

/-- The address is decoded, so it is not too long, and no bare prefix. -/
theorem decodeDestination_isOk_iff_keyHash : Base58Fits 25 keyHashAddress ∧
    (IsBase58Address mainParams id keyHashAddress ∨
      ¬IsBare mainParams.mweb_hrp keyHashAddress) := by
  have hdest : decodeDestination mainParams id keyHashAddress =
      .ok (.witnessV0KeyHash ((range' 1 20).map .ofNat)) := by decide +kernel
  obtain ⟨hok, hfits⟩ := decodeDestination_isOk_iff mainParams id keyHashAddress
  exact ⟨hfits (by decide), (hok.mp ⟨_, hdest⟩).2⟩

end DefcoinCore.KeyIo
