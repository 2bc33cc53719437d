import DefcoinCore.Lib.VarInt
import DefcoinCore.Primitives.Transaction
import DefcoinCore.Script.Script

/-!
# Compressed amounts and scripts

`compressor.cpp`. An amount is written as a decimal exponent, a digit and the rest, so that round
amounts are small numbers. A script of one of three standard templates is written as a number below
`nSpecialScripts` and the bytes that the template leaves open; the number of any other script is its
size and `nSpecialScripts`.

Both compressions can be undone (`decompressAmount_compressAmount`,
`decompressScript_compressScript`), and a reader tells the templates from the other scripts by the
number it reads first (`reads_script`). The arithmetic of amounts is written for any way to deliver
a result of 64 bits: as the machine does, modulo `2 ^ 64` (`wrap64`), or with a check for overflow
(`check64`).
-/

namespace DefcoinCore

open List Option

/-! ## Amounts -/

/-- A result of unsigned arithmetic on 64 bits. -/
def wrap64 (x : Nat) : Id Nat := x % 2 ^ 64

/-- A result that fits into 64 bits; `none` on overflow. -/
def check64 (x : Nat) : Option Nat := if x < 2 ^ 64 then some x else none

/-- The loop of `CompressAmount`: divide by ten while that is exact, at most `k` times. The result
is the quotient and the number of divisions. -/
def stripTens : Nat → Nat → Nat × Nat
  | 0, n => (n, 0)
  | k + 1, n => if n % 10 = 0 then ((stripTens k (n / 10)).1, (stripTens k (n / 10)).2 + 1)
    else (n, 0)

section Arithmetic

variable {m : Type → Type} [Monad m] (u64 : Nat → m Nat)

/-- The number written for the quotient `n` and the exponent `e`. -/
def packAmount (n e : Nat) : m Nat :=
  if e < 9 then do
    -- The assertion on the digit `n % 10` holds, see `stripTens_spec`.
    let rest ← u64 (n / 10 * 9)
    let digits ← u64 (rest + n % 10)
    let shifted ← u64 ((digits - 1) * 10)
    let x ← u64 (1 + shifted)
    u64 (x + e)
  else do
    let shifted ← u64 ((n - 1) * 10)
    let x ← u64 (1 + shifted)
    u64 (x + 9)

/-- `CompressAmount`. -/
def compressAmountWith (n : Nat) : m Nat :=
  if n = 0 then pure 0 else packAmount u64 (stripTens 9 n).1 (stripTens 9 n).2

/-- The loop of `DecompressAmount`: multiply by ten `e` times. -/
def mulTens : Nat → Nat → m Nat
  | 0, n => pure n
  | e + 1, n => do
    let n ← u64 (n * 10)
    mulTens e n

/-- `DecompressAmount`. -/
def decompressAmountWith (x : Nat) : m Nat :=
  if x = 0 then pure 0
  else
    let e := (x - 1) % 10
    let x := (x - 1) / 10
    if e < 9 then do
      let n ← u64 (x / 9 * 10)
      let n ← u64 (n + (x % 9 + 1))
      mulTens u64 e n
    else do
      let n ← u64 (x + 1)
      mulTens u64 e n

end Arithmetic

/-- `CompressAmount` on 64 bits. -/
def compressAmount (n : Nat) : Nat := compressAmountWith wrap64 n

/-- `DecompressAmount` on 64 bits. -/
def decompressAmount (x : Nat) : Nat := decompressAmountWith wrap64 x

variable {n : Nat} {script : List UInt8}

theorem check64_of_lt {x : Nat} (h : x < 2 ^ 64) : check64 x = some x := if_pos h

/-- A step that does not overflow goes on with its result. -/
theorem check64_bind {x : Nat} (h : x < 2 ^ 64) (f : Nat → Option Nat) :
    (check64 x >>= f) = f x := by
  rw [check64_of_lt h]
  rfl

/-! ### Arithmetic without overflow is the machine's -/

/-- What the checked computation returns is what the machine computes. -/
def Agrees (x : Option Nat) (y : Id Nat) : Prop := ∀ a, x = some a → y = a

namespace Agrees

theorem pure (a : Nat) : Agrees (Pure.pure a) (Pure.pure a) := fun _ h => some.inj h

theorem u64 (x : Nat) : Agrees (check64 x) (wrap64 x) := by
  intro a h
  unfold check64 at h
  split_ifs at h with hx
  rw [← some.inj h]
  exact Nat.mod_eq_of_lt hx

theorem bind {x : Option Nat} {y : Id Nat} {f : Nat → Option Nat} {g : Nat → Id Nat}
    (hx : Agrees x y) (hf : ∀ a, Agrees (f a) (g a)) : Agrees (x >>= f) (y >>= g) := by
  intro b h
  obtain ⟨a, ha, hb⟩ := bind_eq_some_iff.mp h
  have hy : y = a := hx a ha
  subst hy
  exact hf _ b hb

theorem mulTens (e n : Nat) : Agrees (mulTens check64 e n) (mulTens wrap64 e n) := by
  induction e generalizing n with
  | zero => exact .pure n
  | succ e ih => exact (Agrees.u64 _).bind ih

theorem compressAmount (n : Nat) :
    Agrees (compressAmountWith check64 n) (compressAmountWith wrap64 n) := by
  unfold compressAmountWith packAmount
  split_ifs
  · exact .pure 0
  · exact (Agrees.u64 _).bind fun _ => (Agrees.u64 _).bind fun _ => (Agrees.u64 _).bind fun _ =>
      (Agrees.u64 _).bind fun _ => .u64 _
  · exact (Agrees.u64 _).bind fun _ => (Agrees.u64 _).bind fun _ => .u64 _

theorem decompressAmount (x : Nat) :
    Agrees (decompressAmountWith check64 x) (decompressAmountWith wrap64 x) := by
  unfold decompressAmountWith
  dsimp only
  split_ifs
  · exact .pure 0
  · exact (Agrees.u64 _).bind fun _ => (Agrees.u64 _).bind fun _ => .mulTens _ _
  · exact (Agrees.u64 _).bind fun _ => .mulTens _ _

end Agrees

/-! ### Compression and decompression -/

/-- What the loop of `CompressAmount` ends with: the amount is the quotient times a power of ten,
and the quotient ends in a digit other than zero unless the exponent is as large as it can be. -/
theorem stripTens_spec (k n : Nat) : n = (stripTens k n).1 * 10 ^ (stripTens k n).2 ∧
    (stripTens k n).2 ≤ k ∧ ((stripTens k n).2 < k → (stripTens k n).1 % 10 ≠ 0) := by
  induction k generalizing n with
  | zero => simp [stripTens]
  | succ k ih =>
    rw [stripTens]
    split_ifs with hn
    · obtain ⟨hval, hle, hdigit⟩ := ih (n / 10)
      rw [pow_succ, ← mul_assoc, ← hval]
      omega
    · simp [hn]

theorem mulTens_check64 (e n : Nat) (h : n * 10 ^ e < 2 ^ 64) :
    mulTens check64 e n = some (n * 10 ^ e) := by
  induction e generalizing n with
  | zero => rw [mulTens, pow_zero, mul_one]; rfl
  | succ e ih =>
    rw [pow_succ', ← mul_assoc] at h
    have hle : n * 10 ≤ n * 10 * 10 ^ e := Nat.le_mul_of_pos_right _ (by positivity)
    rw [mulTens, check64_bind (by omega), ih _ h, pow_succ', ← mul_assoc]

/-- The number that is written, as an expression without overflow. -/
def packed (n e : Nat) : Nat :=
  if e < 9 then 1 + (n / 10 * 9 + n % 10 - 1) * 10 + e else 1 + (n - 1) * 10 + 9

theorem packAmount_check64 (hn : n < 2 ^ 59) (e : Nat) (he : e ≤ 9) :
    packAmount check64 n e = some (packed n e) := by
  unfold packAmount packed
  split_ifs with h9
  · rw [check64_bind (by omega), check64_bind (by omega), check64_bind (by omega),
      check64_bind (by omega), check64_of_lt (by omega)]
  · rw [check64_bind (by omega), check64_bind (by omega), check64_of_lt (by omega)]

/-- What is written for a quotient and an exponent gives back their amount. -/
theorem decompress_packed {e : Nat} (he : e ≤ 9) (hdigit : e < 9 → n % 10 ≠ 0) (hpos : 0 < n)
    (hfit : n * 10 ^ e < 2 ^ 64) :
    decompressAmountWith check64 (packed n e) = some (n * 10 ^ e) := by
  have hle : n ≤ n * 10 ^ e := Nat.le_mul_of_pos_right _ (by positivity)
  unfold decompressAmountWith packed
  by_cases h9 : e < 9
  · rw [if_pos h9, if_neg (by omega)]
    have he' : (1 + (n / 10 * 9 + n % 10 - 1) * 10 + e - 1) % 10 = e := by omega
    have hx : (1 + (n / 10 * 9 + n % 10 - 1) * 10 + e - 1) / 10 = n / 10 * 9 +
      n % 10 - 1 := by omega
    have hdiv : (n / 10 * 9 + n % 10 - 1) / 9 = n / 10 := by omega
    have hmod : (n / 10 * 9 + n % 10 - 1) % 9 + 1 = n % 10 := by omega
    have hval : n / 10 * 10 + n % 10 = n := by omega
    simp only [he', hx, hdiv, hmod]
    rw [if_pos h9, check64_bind (by omega), hval, check64_bind (by omega), mulTens_check64 e n hfit]
  · have he9 : e = 9 := by omega
    subst he9
    rw [if_neg h9, if_neg (by omega)]
    have he' : (1 + (n - 1) * 10 + 9 - 1) % 10 = 9 := by omega
    have hx : (1 + (n - 1) * 10 + 9 - 1) / 10 + 1 = n := by omega
    simp only [he', hx]
    rw [if_neg h9, check64_bind (by omega), mulTens_check64 9 n hfit]

/-- An amount below `2 ^ 59` is compressed and decompressed without overflow, and comes back. -/
theorem compress_check64 (hn : n < 2 ^ 59) : ∃ x, x < 2 ^ 64 ∧
    compressAmountWith check64 n = some x ∧ decompressAmountWith check64 x = some n := by
  by_cases h0 : n = 0
  · subst h0
    exact ⟨0, by norm_num, rfl, rfl⟩
  · obtain ⟨hval, he, hdigit⟩ := stripTens_spec 9 n
    unfold compressAmountWith
    rw [if_neg h0]
    generalize hq : (stripTens 9 n).1 = q at *
    generalize hexp : (stripTens 9 n).2 = e at *
    have hqpos : 0 < q := Nat.pos_of_ne_zero fun hq0 => h0 (by rw [hval, hq0, Nat.zero_mul])
    have hqle : q ≤ q * 10 ^ e := Nat.le_mul_of_pos_right _ (by positivity)
    refine ⟨packed q e, ?_, packAmount_check64 (by omega) e he, ?_⟩
    · unfold packed
      split_ifs <;> omega
    · rw [decompress_packed he hdigit hqpos (by omega), ← hval]

/-- `DecompressAmount(CompressAmount(n)) = n`. -/
theorem decompressAmount_compressAmount (hn : n < 2 ^ 59) :
    compressAmount n < 2 ^ 64 ∧ decompressAmount (compressAmount n) = n := by
  obtain ⟨x, hx, hcompress, hdecompress⟩ := compress_check64 hn
  have hc : compressAmount n = x := Agrees.compressAmount n x hcompress
  have hd : decompressAmount x = n := Agrees.decompressAmount x n hdecompress
  rw [hc]
  exact ⟨hx, hd⟩

/-! ## Scripts -/

/-- `nSpecialScripts`. -/
def nSpecialScripts : Nat := 6

/-- The operations of the curve library on the bytes of a public key. -/
structure Curve where
  isFullyValid : List UInt8 → Bool
  /-- `CPubKey::Decompress`: the uncompressed key, if there is one. -/
  decompress : List UInt8 → Option (List UInt8)

/-- What is assumed of the curve: the `x` coordinate of a valid uncompressed key, with the parity of
its `y` coordinate, decompresses to the key. -/
structure Curve.Lawful (curve : Curve) : Prop where
  decompress : ∀ x y : List UInt8, ∀ last : UInt8, x.length = 32 → y.length = 31 →
    curve.isFullyValid (4 :: (x ++ (y ++ [last]))) →
    curve.decompress ((2 + (last &&& 1)) :: x) = some (4 :: (x ++ (y ++ [last])))

/-- `IsToKeyID`: the hash of a script that pays to the hash of a key. -/
def isToKeyID (script : CScript) : Option (List UInt8) :=
  if script.length = 25 ∧ script.take 3 = [opDup, opHash160, 20] ∧
      script.drop 23 = [opEqualVerify, opCheckSig] then
    some ((script.drop 3).take 20)
  else none

/-- `IsToScriptID`: the hash of a script that pays to the hash of a script. -/
def isToScriptID (script : CScript) : Option (List UInt8) :=
  if script.length = 23 ∧ script.take 2 = [opHash160, 20] ∧ script.drop 22 = [opEqual] then
    some ((script.drop 2).take 20)
  else none

/-- `IsToPubKey`: the key of a script that pays to a key, if the key can be compressed. -/
def isToPubKey (curve : Curve) (script : CScript) : Option (List UInt8) :=
  if script.length = 35 ∧ script.take 1 = [33] ∧ script.drop 34 = [opCheckSig] ∧
      (script[1]? = some 2 ∨ script[1]? = some 3) then
    some ((script.drop 1).take 33)
  else if script.length = 67 ∧ script.take 1 = [65] ∧ script.drop 66 = [opCheckSig] ∧
      script[1]? = some 4 then
    if curve.isFullyValid ((script.drop 1).take 65) then some ((script.drop 1).take 65) else none
  else none

/-- The compressed form of a key: its first byte says which form the key had. -/
def compressPubKey (pubkey : List UInt8) : Option (List UInt8) :=
  let x := (pubkey.drop 1).take 32
  if pubkey[0]? = some 2 ∨ pubkey[0]? = some 3 then some (pubkey[0]?.getD 0 :: x)
  else if pubkey[0]? = some 4 then some ((4 ||| (pubkey[64]?.getD 0 &&& 1)) :: x)
  else none

/-- `CompressScript`. -/
def compressScript (curve : Curve) (script : CScript) : Option (List UInt8) :=
  match isToKeyID script with
  | some keyID => some (0 :: keyID)
  | none =>
    match isToScriptID script with
    | some scriptID => some (1 :: scriptID)
    | none => (isToPubKey curve script).bind compressPubKey

/-- `GetSpecialScriptSize`. -/
def getSpecialScriptSize (nSize : Nat) : Nat :=
  if nSize = 0 ∨ nSize = 1 then 20
  else if nSize = 2 ∨ nSize = 3 ∨ nSize = 4 ∨ nSize = 5 then 32
  else 0

/-- `DecompressScript`; `none` when it leaves the script as it was. -/
def decompressScript (curve : Curve) (nSize : Nat) (bytes : List UInt8) : Option CScript :=
  match nSize with
  | 0 => some ([opDup, opHash160, 20] ++ bytes.take 20 ++ [opEqualVerify, opCheckSig])
  | 1 => some ([opHash160, 20] ++ bytes.take 20 ++ [opEqual])
  | 2 | 3 => some ([33, UInt8.ofNat nSize] ++ bytes.take 32 ++ [opCheckSig])
  | 4 | 5 =>
    (curve.decompress (UInt8.ofNat (nSize - 2) :: bytes.take 32)).map fun pubkey =>
      [65] ++ pubkey ++ [opCheckSig]
  | _ => none

/-- `ScriptCompression::Ser`. -/
def writeScript (curve : Curve) (script : CScript) : List UInt8 :=
  match compressScript curve script with
  | some compr => compr
  | none => writeVarInt 32 (script.length + nSpecialScripts) ++ script

/-- The script behind the number that is read first. -/
def readScriptBody (curve : Curve) (nSize : Nat) : Get CScript :=
  if nSize < nSpecialScripts then do
    let vch ← readBytes (getSpecialScriptSize nSize)
    pure ((decompressScript curve nSize vch).getD [])
  else if nSize - nSpecialScripts > maxScriptSize then do
    -- An overly long script is replaced by a short invalid one.
    let _ ← readBytes (nSize - nSpecialScripts)
    pure [opReturn]
  else readBytes (nSize - nSpecialScripts)

/-- `ScriptCompression::Unser`, into an empty script. -/
def readScript (curve : Curve) : Get CScript := do
  let nSize ← readVarInt 32
  readScriptBody curve nSize

/-! ### The templates -/

/-- A list that begins and ends as given, with `k` items between. -/
theorem eq_append_append {α : Type} {l p q : List α} {k : Nat} (hp : l.take p.length = p)
    (hq : l.drop (p.length + k) = q) : l = p ++ (l.drop p.length).take k ++ q := by
  calc l = l.take p.length ++ l.drop p.length := (take_append_drop _ _).symm
    _ = p ++ ((l.drop p.length).take k ++ (l.drop p.length).drop k) := by
        rw [hp, take_append_drop]
    _ = p ++ (l.drop p.length).take k ++ q := by
        rw [drop_drop, hq, append_assoc]

theorem isToKeyID_eq_some {keyID : List UInt8} (h : isToKeyID script = some keyID) :
    keyID.length = 20 ∧ script = [opDup, opHash160, 20] ++ keyID ++
      [opEqualVerify, opCheckSig] := by
  unfold isToKeyID at h
  split_ifs at h with hc
  obtain ⟨hlen, hpre, hpost⟩ := hc
  rw [← some.inj h]
  refine ⟨by simp [hlen], ?_⟩
  exact eq_append_append (p := [opDup, opHash160, 20]) hpre hpost

theorem isToScriptID_eq_some {scriptID : List UInt8} (h : isToScriptID script = some scriptID) :
    scriptID.length = 20 ∧ script = [opHash160, 20] ++ scriptID ++ [opEqual] := by
  unfold isToScriptID at h
  split_ifs at h with hc
  obtain ⟨hlen, hpre, hpost⟩ := hc
  rw [← some.inj h]
  refine ⟨by simp [hlen], ?_⟩
  exact eq_append_append (p := [opHash160, 20]) hpre hpost

/-- A script that pushes `k + 1` bytes and has one opcode then. -/
theorem eq_push {k : Nat} {a c : UInt8} (hlen : script.length = k + 3) (ha : script.take 1 = [a])
    (hc : script.drop (1 + (k + 1)) = [c]) : ∃ b x, x.length = k ∧ script[1]? = some b ∧
      (script.drop 1).take (k + 1) = b :: x ∧ script = [a] ++ b :: x ++ [c] := by
  have hkey : ((script.drop 1).take (k + 1)).length = k + 1 := by simp [hlen]
  obtain ⟨b, x, hx⟩ := exists_cons_of_length_eq_add_one hkey
  have hfirst : ((script.drop 1).take (k + 1))[0]? = script[1]? := by simp
  rw [hx] at hkey hfirst
  exact ⟨b, x, by simpa using hkey, hfirst.symm, hx, hx ▸ eq_append_append (p := [a]) ha hc⟩

variable {curve : Curve}

/-- A script that pays to a key: the key is compressed, or it is a valid uncompressed one. -/
theorem isToPubKey_eq_some {pubkey : List UInt8} (h : isToPubKey curve script = some pubkey) :
    (∃ b x, (b = 2 ∨ b = 3) ∧ x.length = 32 ∧ pubkey = b :: x ∧
      script = [33] ++ pubkey ++ [opCheckSig]) ∨
    (∃ x y last, x.length = 32 ∧ y.length = 31 ∧ pubkey = 4 :: (x ++ (y ++ [last])) ∧
      curve.isFullyValid pubkey ∧ script = [65] ++ pubkey ++ [opCheckSig]) := by
  unfold isToPubKey at h
  split_ifs at h with hc hu hvalid
  · obtain ⟨hlen, hp, hq, hb⟩ := hc
    obtain ⟨b, x, hx, hfirst, hkey, hscript⟩ := eq_push (k := 32) hlen hp hq
    rw [hkey, some.injEq] at h
    rw [hfirst, some.injEq, some.injEq] at hb
    subst h
    exact .inl ⟨b, x, hb, hx, rfl, hscript⟩
  · obtain ⟨hlen, hp, hq, hb⟩ := hu
    obtain ⟨b, l, hl, hfirst, hkey, hscript⟩ := eq_push (k := 64) hlen hp hq
    rw [hkey, some.injEq] at h
    rw [hfirst, some.injEq] at hb
    subst h hb
    rw [hkey] at hvalid
    -- The coordinates: 32 bytes of `x`, and the last of the 32 bytes of `y` on its own.
    have hx : l = l.take 32 ++ l.drop 32 := (take_append_drop 32 l).symm
    have hy : l.drop 32 ≠ [] := ne_nil_of_length_pos (by simp [hl])
    refine .inr ⟨l.take 32, (l.drop 32).dropLast, (l.drop 32).getLast hy, by simp [hl],
      by simp [hl], ?_, hvalid, hscript⟩
    rw [dropLast_append_getLast, ← hx]

/-- The parity of the last byte picks the number of the template, and with it the first byte of the
compressed key. -/
theorem parity_cases (last : UInt8) :
    (4 ||| (last &&& 1) = UInt8.ofNat 4 ∧ 2 + (last &&& 1) = UInt8.ofNat (4 - 2)) ∨
      (4 ||| (last &&& 1) = UInt8.ofNat 5 ∧ 2 + (last &&& 1) = UInt8.ofNat (5 - 2)) := by
  have hbit : last &&& 1 = 0 ∨ last &&& 1 = 1 := by
    have hmod : (last &&& 1).toNat = last.toNat % 2 := Nat.and_one_is_mod _
    rw [← UInt8.toNat_inj, ← UInt8.toNat_inj, hmod]
    exact Nat.mod_two_eq_zero_or_one _
  rcases hbit with h | h
  · left
    rw [h]
    decide
  · right
    rw [h]
    decide

/-- Each template comes back: the first byte of the compressed script is its number, and the other
bytes are what the template leaves open. -/
theorem decompressScript_compressScript (hcurve : curve.Lawful) {out : List UInt8}
    (h : compressScript curve script = some out) :
    ∃ nSize bytes, nSize < nSpecialScripts ∧ out = UInt8.ofNat nSize :: bytes ∧
      bytes.length = getSpecialScriptSize nSize ∧
      decompressScript curve nSize bytes = some script := by
  unfold compressScript at h
  rcases hkey : isToKeyID script with _ | keyID
  · rw [hkey] at h
    rcases hscript : isToScriptID script with _ | scriptID
    · rw [hscript, bind_eq_some_iff] at h
      obtain ⟨pubkey, hpub, hcompr⟩ := h
      rcases isToPubKey_eq_some hpub with ⟨b, x, hb, hx, rfl, hs⟩ | ⟨x, y, last, hx, hy, rfl,
        hvalid, hs⟩
      · have hout : out = b :: x := by
          rcases hb with rfl | rfl <;>
            simpa [compressPubKey, take_of_length_le, hx] using hcompr.symm
        rcases hb with rfl | rfl
        · refine ⟨2, x, by decide, hout, hx, ?_⟩
          rw [hs, decompressScript, take_of_length_le (by omega)]
          rfl
        · refine ⟨3, x, by decide, hout, hx, ?_⟩
          rw [hs, decompressScript, take_of_length_le (by omega)]
          rfl
      · have hlast : (4 :: (x ++ (y ++ [last])))[64]? = some last := by
          simp [hx, hy]
        have hout : out = (4 ||| (last &&& 1)) :: x := by
          have htake : (x ++ (y ++ [last])).take 32 = x := take_left' hx
          have hsome : (4 :: (x ++ (y ++ [last])) : List UInt8)[0]? = some 4 := rfl
          unfold compressPubKey at hcompr
          rw [hsome, if_neg (by decide), if_pos rfl, hlast, drop_succ_cons, drop_zero,
            htake] at hcompr
          exact (some.inj hcompr).symm
        have hdec := hcurve.decompress x y last hx hy hvalid
        rcases parity_cases last with ⟨hnum, hkey⟩ | ⟨hnum, hkey⟩
        · refine ⟨4, x, by decide, by rw [hout, hnum], hx, ?_⟩
          rw [decompressScript, take_of_length_le (by omega), ← hkey, hdec, hs]
          rfl
        · refine ⟨5, x, by decide, by rw [hout, hnum], hx, ?_⟩
          rw [decompressScript, take_of_length_le (by omega), ← hkey, hdec, hs]
          rfl
    · rw [hscript, some.injEq] at h
      obtain ⟨hlen, hs⟩ := isToScriptID_eq_some hscript
      refine ⟨1, scriptID, by decide, h.symm, hlen, ?_⟩
      rw [hs, decompressScript, take_of_length_le (by omega)]
  · rw [hkey, some.injEq] at h
    obtain ⟨hlen, hs⟩ := isToKeyID_eq_some hkey
    refine ⟨0, keyID, by decide, h.symm, hlen, ?_⟩
    rw [hs, decompressScript, take_of_length_le (by omega)]

/-- The number of a template is one byte. -/
theorem writeVarInt_special {nSize : Nat} (h : nSize < nSpecialScripts) :
    writeVarInt 32 nSize = [UInt8.ofNat nSize] := by
  have h6 : nSize < 6 := h
  interval_cases nSize <;> rfl

/-- What is written for a script is a number and the bytes behind it. The number is below
`nSpecialScripts` exactly for the templates. -/
theorem writeScript_spec (hcurve : curve.Lawful) {script : CScript}
    (hsize : script.length ≤ maxScriptSize) :
    ∃ nSize bytes, nSize < 2 ^ 32 ∧ writeScript curve script = writeVarInt 32 nSize ++ bytes ∧
      Reads (readScriptBody curve nSize) bytes script ∧
      (nSize < nSpecialScripts ↔ (compressScript curve script).isSome) := by
  have hmax : maxScriptSize = 10000 := rfl
  have h6 : nSpecialScripts = 6 := rfl
  unfold writeScript
  rcases hc : compressScript curve script with _ | out
  · refine ⟨script.length + nSpecialScripts, script, by omega, rfl, ?_, ?_⟩
    · unfold readScriptBody
      rw [if_neg (by omega), if_neg (by omega), Nat.add_sub_cancel]
      exact .readBytes script
    · simp
  · obtain ⟨nSize, bytes, hlt, rfl, hlen, hdec⟩ := decompressScript_compressScript hcurve hc
    refine ⟨nSize, bytes, by omega, ?_, ?_, by simp [hlt]⟩
    · rw [writeVarInt_special hlt]
      rfl
    · unfold readScriptBody
      rw [if_pos hlt, ← hlen]
      have h := (Reads.readBytes bytes).bind_pure fun vch =>
        (decompressScript curve nSize vch).getD []
      rw [hdec, getD_some] at h
      exact h

/-- A script of at most `MAX_SCRIPT_SIZE` bytes reads back. -/
theorem reads_script (hcurve : curve.Lawful) {script : CScript}
    (hsize : script.length ≤ maxScriptSize) :
    Reads (readScript curve) (writeScript curve script) script := by
  obtain ⟨nSize, bytes, hlt, hwrite, hread, -⟩ := writeScript_spec hcurve hsize
  rw [hwrite]
  exact (Reads.readVarInt (by norm_num) hlt).bind hread

/-! ## Outputs -/

/-- `AmountCompression::Ser`: the amount as an unsigned integer of 64 bits. -/
def writeAmount (val : Int) : List UInt8 := writeVarInt 64 (compressAmount (val % 2 ^ 64).toNat)

/-- `AmountCompression::Unser`. -/
def readAmount : Get Int := do
  let v ← readVarInt 64
  let n := decompressAmount v
  pure (if n < 2 ^ 63 then n else n - 2 ^ 64)

/-- `TxOutCompression`: the amount and the script. -/
def writeTxOut (curve : Curve) (out : CTxOut) : List UInt8 :=
  writeAmount out.nValue ++ writeScript curve out.scriptPubKey

/-- Reading an output. -/
def readTxOut (curve : Curve) : Get CTxOut := do
  let nValue ← readAmount
  let scriptPubKey ← readScript curve
  pure ⟨nValue, scriptPubKey⟩

/-- An amount in the range of money reads back. -/
theorem reads_amount {val : Int} (h : 0 ≤ val ∧ val ≤ maxMoney) :
    Reads readAmount (writeAmount val) val := by
  have hmax : maxMoney = 8400000000000000 := rfl
  have hn : (val % 2 ^ 64).toNat < 2 ^ 59 := by omega
  obtain ⟨hlt, hback⟩ := decompressAmount_compressAmount hn
  have h := (Reads.readVarInt (by norm_num) hlt).bind_pure fun v =>
    (if decompressAmount v < 2 ^ 63 then (decompressAmount v : Int) else decompressAmount
      v - 2 ^ 64)
  rw [hback, if_pos (by omega)] at h
  have hval : ((val % 2 ^ 64).toNat : Int) = val := by omega
  rw [hval] at h
  exact h

/-- An output with an amount in the range of money and a script of legal size reads back. -/
theorem reads_txOut (hcurve : curve.Lawful) {out : CTxOut}
    (hvalue : 0 ≤ out.nValue ∧ out.nValue ≤ maxMoney)
    (hsize : out.scriptPubKey.length ≤ maxScriptSize) :
    Reads (readTxOut curve) (writeTxOut curve out) out :=
  (reads_amount hvalue).bind ((reads_script hcurve hsize).bind_pure (CTxOut.mk out.nValue))

end DefcoinCore
