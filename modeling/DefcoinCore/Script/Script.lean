import DefcoinCore.Mweb.Models

/-!
# Scripts

The parts of `script/script.cpp` that read a script without running it: the next operation of a
script, the number of signature operations, and the outputs that belong to extension blocks, which
are witness programs of versions 8 and 9.
-/

namespace DefcoinCore

open List

/-! ## Opcodes -/

/-- `OP_PUSHDATA1`. -/
def opPushData1 : UInt8 := 0x4c

/-- `OP_PUSHDATA2`. -/
def opPushData2 : UInt8 := 0x4d

/-- `OP_PUSHDATA4`. -/
def opPushData4 : UInt8 := 0x4e

/-- `OP_1`. -/
def op1 : UInt8 := 0x51

/-- `OP_16`. -/
def op16 : UInt8 := 0x60

/-- `OP_DUP`. -/
def opDup : UInt8 := 0x76

/-- `OP_EQUAL`. -/
def opEqual : UInt8 := 0x87

/-- `OP_EQUALVERIFY`. -/
def opEqualVerify : UInt8 := 0x88

/-- `OP_HASH160`. -/
def opHash160 : UInt8 := 0xa9

/-- `OP_CHECKSIG`. -/
def opCheckSig : UInt8 := 0xac

/-- `OP_CHECKSIGVERIFY`. -/
def opCheckSigVerify : UInt8 := 0xad

/-- `OP_CHECKMULTISIG`. -/
def opCheckMultiSig : UInt8 := 0xae

/-- `OP_CHECKMULTISIGVERIFY`. -/
def opCheckMultiSigVerify : UInt8 := 0xaf

/-- `OP_INVALIDOPCODE`. -/
def opInvalidOpcode : UInt8 := 0xff

/-! ## Operations -/

/-- The size of the data that an opcode pushes, and the script behind the size. -/
def pushSize (opcode : UInt8) (pc : CScript) : Option (Nat × CScript) :=
  if opcode < opPushData1 then some (opcode.toNat, pc)
  else
    let n := if opcode = opPushData1 then 1 else if opcode = opPushData2 then 2 else 4
    if pc.length < n then none else some (ofLE (pc.take n), pc.drop n)

/-- `GetScriptOp`: the next opcode, the data that it pushes and the script behind it. -/
def getOp : CScript → Option (UInt8 × List UInt8 × CScript)
  | [] => none
  | opcode :: pc =>
    if opcode ≤ opPushData4 then do
      let (nSize, pc) ← pushSize opcode pc
      if pc.length < nSize then none else some (opcode, pc.take nSize, pc.drop nSize)
    else some (opcode, [], pc)

/-- `DecodeOP_N`, for `OP_0` and for `OP_1` to `OP_16`. -/
def decodeOpN (opcode : UInt8) : Nat := if opcode = 0 then 0 else opcode.toNat - (op1.toNat - 1)

/-- `MAX_PUBKEYS_PER_MULTISIG`. -/
def maxPubkeysPerMultisig : UInt32 := 20

/-- The signature operations of one opcode, given the opcode before it. -/
def sigOpsOf (fAccurate : Bool) (lastOpcode opcode : UInt8) : UInt32 :=
  if opcode = opCheckSig ∨ opcode = opCheckSigVerify then 1
  else if opcode = opCheckMultiSig ∨ opcode = opCheckMultiSigVerify then
    if fAccurate ∧ op1 ≤ lastOpcode ∧ lastOpcode ≤ op16 then UInt32.ofNat (decodeOpN lastOpcode)
    else maxPubkeysPerMultisig
  else 0

/-- The loop of `GetSigOpCount`, with `k` rounds left. -/
def sigOpLoop (fAccurate : Bool) : Nat → UInt8 → CScript → UInt32 → UInt32
  | 0, _, _, n => n
  | k + 1, lastOpcode, pc, n =>
    match getOp pc with
    | none => n
    | some (opcode, _, pc) => sigOpLoop fAccurate k opcode pc
      (n + sigOpsOf fAccurate lastOpcode opcode)

/-- `CScript::GetSigOpCount(bool)`. -/
def getSigOpCount (fAccurate : Bool) (script : CScript) : UInt32 :=
  sigOpLoop fAccurate script.length opInvalidOpcode script 0

/-! ## Witness programs -/

/-- `CScript::IsWitnessProgram`: the version and the program. -/
def isWitnessProgram (script : CScript) : Option (Nat × List UInt8) :=
  match script with
  | version :: size :: program =>
    if script.length < 4 ∨ script.length > 42 then none
    else if version ≠ 0 ∧ (version < op1 ∨ version > op16) then none
    else if size.toNat + 2 = script.length then some (decodeOpN version, program)
    else none
  | _ => none

/-- A hash from its bytes. -/
def hashOfBytes (bytes : List UInt8) : Mweb.Hash :=
  BitVec.ofNat 256 (bytes.foldl (fun n b => n * 256 + b.toNat) 0)

namespace Mweb

/-- The bytes of a number, the highest one first. -/
def natBytes : Nat → Nat → List UInt8
  | 0, _ => []
  | k + 1, n => natBytes k (n / 256) ++ [UInt8.ofNat n]

/-- `mw::Hash::vec`. -/
def Hash.vec (hash : Hash) : List UInt8 := natBytes 32 hash.toNat

theorem length_natBytes (k n : Nat) : (natBytes k n).length = k := by
  induction k generalizing n with
  | zero => rfl
  | succ k ih => rw [natBytes, length_append, ih, length_singleton]

theorem foldl_natBytes (k n : Nat) :
    (natBytes k n).foldl (fun n b => n * 256 + b.toNat) 0 = n % 256 ^ k := by
  induction k generalizing n with
  | zero => rw [natBytes, foldl_nil, pow_zero, Nat.mod_one]
  | succ k ih =>
    have hmod : n % 256 ^ (k + 1) = n % 256 + 256 * (n / 256 % 256 ^ k) := by
      rw [pow_succ', Nat.mod_mul]
    rw [natBytes, foldl_append, ih, foldl_cons, foldl_nil, UInt8.toNat_ofNat', hmod]
    omega

/-- A hash is read back from its bytes. -/
theorem hashOfBytes_vec (hash : Hash) : hashOfBytes (Hash.vec hash) = hash := by
  unfold hashOfBytes Hash.vec
  rw [foldl_natBytes, show 256 ^ 32 = 2 ^ 256 by norm_num, Nat.mod_eq_of_lt hash.isLt]
  exact (BitVec.ofNat_toNat 256 hash).trans (BitVec.setWidth_eq hash)

end Mweb

/-- The hash in a witness program of a given version and of 32 bytes. -/
def mwebProgram (witnessVersion : Nat) (script : CScript) : Option Mweb.Hash :=
  match isWitnessProgram script with
  | some (version, program) =>
    if version = witnessVersion ∧ program.length = 32 then some (hashOfBytes program) else none
  | none => none

/-- `CScript::IsMWEBPegin`, with the kernel id. -/
def isMWEBPegin (script : CScript) : Option Mweb.Hash := mwebProgram 9 script

/-- `CScript::IsMWEBHogAddr`, with the hash of the header. -/
def isMWEBHogAddr (script : CScript) : Option Mweb.Hash := mwebProgram 8 script

end DefcoinCore
