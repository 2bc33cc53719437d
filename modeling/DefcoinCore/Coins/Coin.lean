import DefcoinCore.Coins.Compressor

/-!
# Coins

`Coin` of `coins.h`: an unspent output with the height it was created at and two flags, and the way
it is written to the database. The height and both flags share one integer of 32 bits: the low bit
is the coinbase flag, the high bit the pegout flag, and the height is between them. A height below
`2 ^ 30` leaves the high bit alone, so such a coin reads back (`coin_roundTrip`).
-/

namespace DefcoinCore

open List

instance neZero_heights : NeZero (2 ^ 31) := ⟨by decide⟩

/-- A UTXO entry. -/
structure Coin where
  out : CTxOut
  /-- Whether the containing transaction was a coinbase. -/
  fCoinBase : Bool
  /-- The height at which the containing transaction was included. -/
  nHeight : Fin (2 ^ 31)
  /-- Whether the output was a pegout of an integrating transaction. -/
  fPegout : Bool
  deriving DecidableEq

namespace Coin

/-- The constructor; a height that does not fit into 31 bits is cut. -/
def new (outIn : CTxOut) (nHeightIn : Nat) (fCoinBaseIn fPegoutIn : Bool) : Coin :=
  ⟨outIn, fCoinBaseIn, Fin.ofNat (2 ^ 31) nHeightIn, fPegoutIn⟩

/-- `Coin::Clear`, also the value of the empty constructor. -/
def empty : Coin := ⟨.null, false, 0, false⟩

/-- `Coin::IsSpent`. -/
def isSpent (c : Coin) : Bool := c.out.isNull

/-- The coin, unless it is spent. -/
def unspent? (c : Coin) : Option Coin := if c.isSpent then none else some c

@[simp]
theorem unspent?_empty : empty.unspent? = none := rfl

theorem unspent?_of_isSpent {c : Coin} (h : c.isSpent) : c.unspent? = none := by
  rw [unspent?, if_pos h]

theorem isSpent_of_unspent? {c : Coin} (h : c.unspent? = none) : c.isSpent := by
  simpa [unspent?] using h

theorem unspent?_of_not_isSpent {c : Coin} (h : c.isSpent = false) : c.unspent? = some c := by
  rw [unspent?, if_neg (by rw [h]; decide)]

theorem unspent?_eq_some {c d : Coin} (h : c.unspent? = some d) : c = d ∧ c.isSpent = false := by
  unfold unspent? at h
  split_ifs at h with hs
  exact ⟨Option.some.inj h, by simpa using hs⟩

/-- A coin with an amount that is not negative is not spent. -/
theorem isSpent_of_nonneg {c : Coin} (h : 0 ≤ c.out.nValue) : c.isSpent = false := by
  unfold isSpent CTxOut.isNull
  rw [decide_eq_false_iff_not]
  omega

/-! ## The database format -/

/-- The height and the flags in 32 bits. -/
def code (c : Coin) : Nat :=
  (c.nHeight.val * 2 + c.fCoinBase.toNat + if c.fPegout then 2 ^ 31 else 0) % 2 ^ 32

/-- The height and the flags behind a code. -/
def ofCode (code : Nat) (out : CTxOut) : Coin :=
  { out
    fCoinBase := code % 2 ≠ 0
    nHeight := Fin.ofNat (2 ^ 31) (code % 2 ^ 31 / 2)
    fPegout := code / 2 ^ 31 ≠ 0 }

/-- `Coin::Serialize`; `none` when the assertion that the coin is unspent fails. -/
def serialize (curve : Curve) (c : Coin) : Option (List UInt8) :=
  if c.isSpent then none else some (writeVarInt 32 c.code ++ writeTxOut curve c.out)

/-- `Coin::Unserialize`. -/
def unserialize (curve : Curve) : Get Coin := do
  let code ← readVarInt 32
  let out ← readTxOut curve
  pure (ofCode code out)

/-- With a height below `2 ^ 30` the flags and the height have bits of their own. -/
theorem ofCode_code {c : Coin} (h : c.nHeight.val < 2 ^ 30) : ofCode c.code c.out = c := by
  obtain ⟨out, fCoinBase, nHeight, fPegout⟩ := c
  dsimp only at h
  unfold ofCode code
  rw [Coin.mk.injEq]
  refine ⟨rfl, ?_, ?_, ?_⟩
  · cases fCoinBase <;> cases fPegout <;> simp
    omega
  · apply Fin.ext
    cases fCoinBase <;> cases fPegout <;> simp <;> omega
  · cases fCoinBase <;> cases fPegout <;> simp <;> omega

/-- A coin reads back from its bytes, and nothing else is read. -/
theorem reads_serialize {curve : Curve} (hcurve : curve.Lawful) {c : Coin}
    (hheight : c.nHeight.val < 2 ^ 30) (hvalue : 0 ≤ c.out.nValue ∧ c.out.nValue ≤ maxMoney)
    (hsize : c.out.scriptPubKey.length ≤ maxScriptSize) :
    ∃ bytes, c.serialize curve = some bytes ∧ Reads (unserialize curve) bytes c := by
  unfold serialize
  rw [isSpent_of_nonneg hvalue.1, if_neg (by decide)]
  refine ⟨_, rfl, (Reads.readVarInt (by norm_num) (Nat.mod_lt _ (by norm_num))).bind ?_⟩
  have h := (reads_txOut hcurve hvalue hsize).bind_pure (ofCode c.code)
  rwa [ofCode_code hheight] at h

end Coin

/-- The bytes of a template are never the bytes of another script, whatever follows them. -/
theorem writeScript_append_ne {curve : Curve} (hcurve : curve.Lawful) {s s' : CScript}
    (hsize : s.length ≤ maxScriptSize) (hsize' : s'.length ≤ maxScriptSize)
    (hs : compressScript curve s = none) (hs' : (compressScript curve s').isSome)
    (rest rest' : List UInt8) : writeScript curve s ++ rest ≠ writeScript curve s' ++ rest' := by
  obtain ⟨nSize, bytes, hlt, hwrite, -, hspecial⟩ := writeScript_spec hcurve hsize
  obtain ⟨nSize', bytes', hlt', hwrite', -, hspecial'⟩ := writeScript_spec hcurve hsize'
  intro heq
  -- The number that a reader takes first is the same for equal bytes.
  rw [hwrite, hwrite', append_assoc, append_assoc] at heq
  have hread := Reads.readVarInt (by norm_num) hlt (bytes ++ rest)
  rw [heq, Reads.readVarInt (by norm_num) hlt' (bytes' ++ rest'), Except.ok.injEq,
    Prod.mk.injEq] at hread
  rw [hs] at hspecial
  have hordinary : ¬ nSize < nSpecialScripts := fun h => by simpa using hspecial.mp h
  exact hordinary (hread.1 ▸ hspecial'.mpr hs')

/-- The database format of coins: every coin with a height below `2 ^ 30`, an amount in the range of
money and a script of legal size reads back from its bytes, which are all that is read. Amounts are
compressed and decompressed without overflow of 64 bits; every template comes back from its
compressed form, and the bytes of another script are never those of a template. -/
theorem coin_roundTrip {curve : Curve} (hcurve : curve.Lawful) :
    (∀ c : Coin, c.nHeight.val < 2 ^ 30 → 0 ≤ c.out.nValue ∧ c.out.nValue ≤ maxMoney →
      c.out.scriptPubKey.length ≤ maxScriptSize →
      ∃ bytes, c.serialize curve = some bytes ∧ Reads (Coin.unserialize curve) bytes c) ∧
    (∀ n : Nat, (n : Int) ≤ maxMoney → decompressAmount (compressAmount n) = n ∧
      compressAmountWith check64 n = some (compressAmount n) ∧
      decompressAmountWith check64 (compressAmount n) = some n) ∧
    (∀ script out, compressScript curve script = some out →
      ∃ nSize bytes, nSize < nSpecialScripts ∧ out = UInt8.ofNat nSize :: bytes ∧
        bytes.length = getSpecialScriptSize nSize ∧
        decompressScript curve nSize bytes = some script) ∧
    (∀ s s' : CScript, s.length ≤ maxScriptSize → s'.length ≤ maxScriptSize →
      compressScript curve s = none → (compressScript curve s').isSome →
      ∀ rest rest', writeScript curve s ++ rest ≠ writeScript curve s' ++ rest') := by
  refine ⟨fun c hheight hvalue hsize => Coin.reads_serialize hcurve hheight hvalue hsize, ?_,
    fun script out h => decompressScript_compressScript hcurve h,
    fun s s' hsize hsize' hs hs' => writeScript_append_ne hcurve hsize hsize' hs hs'⟩
  intro n hn
  have hmax : maxMoney = 8400000000000000 := rfl
  have hlt : n < 2 ^ 59 := by omega
  obtain ⟨x, -, hcompress, hdecompress⟩ := compress_check64 hlt
  have hx : compressAmount n = x := Agrees.compressAmount n x hcompress
  rw [hx]
  exact ⟨hx ▸ (decompressAmount_compressAmount hlt).2, hcompress, hdecompress⟩

/-- A curve with one key for each `x` coordinate and parity: all of `y` but its last bit is zero. -/
def sampleCurve : Curve where
  isFullyValid pubkey :=
    pubkey.drop 33 = List.replicate 31 0 ++ [0] ∨ pubkey.drop 33 = List.replicate 31 0 ++ [1]
  decompress pubkey :=
    match pubkey with
    | b :: x => some (4 :: (x ++ (List.replicate 31 0 ++ [b - 2])))
    | [] => none

theorem sampleCurve_lawful : sampleCurve.Lawful where
  decompress x y last hx hy hvalid := by
    have hdrop : (4 :: (x ++ (y ++ [last])) : List UInt8).drop 33 = y ++ [last] := drop_left' hx
    unfold sampleCurve at hvalid ⊢
    dsimp only at hvalid ⊢
    rw [hdrop, decide_eq_true_eq] at hvalid
    rcases hvalid with h | h
    · obtain ⟨rfl, hlast⟩ := append_inj' h rfl
      rw [cons.injEq] at hlast
      rw [hlast.1]
      rfl
    · obtain ⟨rfl, hlast⟩ := append_inj' h rfl
      rw [cons.injEq] at hlast
      rw [hlast.1]
      rfl

/-- A coinbase coin at height 7 that pays to an uncompressed key, a pegout by its flag. -/
def sampleCoin : Coin :=
  ⟨⟨5000000000, [65] ++ (4 :: List.replicate 32 9 ++ (List.replicate 31 0 ++ [1])) ++ [opCheckSig]⟩,
    true, 7, true⟩

/-- The sample coin reads back. -/
theorem coin_roundTrip_sampleCoin :
    ∃ bytes, sampleCoin.serialize sampleCurve = some bytes ∧
      Coin.unserialize sampleCurve bytes = .ok (sampleCoin, []) := by
  obtain ⟨bytes, hbytes, hread⟩ := (coin_roundTrip sampleCurve_lawful).1 sampleCoin (by decide)
    (by decide) (by decide)
  refine ⟨bytes, hbytes, ?_⟩
  have h := hread []
  rwa [append_nil] at h

end DefcoinCore
