import DefcoinCore.Lib.Stream

/-!
# Message headers

`CMessageHeader`: the message start, the command padded with zeros, the size of the payload and its
checksum, 24 bytes in all. A header and its bytes determine each other (`reads_header`,
`exists_header`), and a command that passes `IsCommandValid` is its `GetCommand` padded with zeros
(`pad_getCommand`).
-/

namespace DefcoinCore.Net

open DefcoinCore List

/-- `MESSAGE_START_SIZE`. -/
abbrev messageStartSize : Nat := 4

/-- `COMMAND_SIZE`. -/
abbrev commandSize : Nat := 12

/-- `CHECKSUM_SIZE`. -/
abbrev checksumSize : Nat := 4

/-- `HEADER_SIZE`. -/
abbrev headerSize : Nat := 24

/-- `MAX_SIZE`. -/
def maxSize : Nat := 0x02000000

/-- `MAX_PROTOCOL_MESSAGE_LENGTH`. -/
def maxProtocolMessageLength : Nat := 32 * 1000 * 1000

/-- `MessageStartChars`. -/
abbrev MessageStartChars := Bytes messageStartSize

structure CMessageHeader where
  pchMessageStart : MessageStartChars
  pchCommand : Bytes commandSize
  nMessageSize : UInt32
  pchChecksum : Bytes checksumSize
  deriving DecidableEq

/-- The default constructor. -/
instance : Inhabited CMessageHeader :=
  ⟨⟨Bytes.zero 4, Bytes.zero 12, -1, Bytes.zero 4⟩⟩

/-- The command of a C string, padded with zeros; `none` when the assertion on its length fails. -/
def padCommand (pszCommand : List UInt8) : Option (Bytes commandSize) :=
  let command := pszCommand.takeWhile (· ≠ 0)
  if h : command.length ≤ commandSize then
    some ⟨command ++ List.replicate (commandSize - command.length) 0, by
      rw [List.length_append, List.length_replicate]
      omega⟩
  else none

namespace CMessageHeader

/-- The constructor from a message start, a command and a size; the checksum is zero. -/
def new (pchMessageStartIn : MessageStartChars) (pszCommand : List UInt8)
    (nMessageSizeIn : UInt32) :
    Option CMessageHeader :=
  (padCommand pszCommand).map fun pchCommand =>
    { pchMessageStart := pchMessageStartIn
      pchCommand := pchCommand
      nMessageSize := nMessageSizeIn
      pchChecksum := Bytes.zero 4 }

/-- `GetCommand`: up to the first zero. -/
def getCommand (hdr : CMessageHeader) : List UInt8 := hdr.pchCommand.val.takeWhile (· ≠ 0)

end CMessageHeader

/-- `IsCommandValid` from a position on: printable characters, and zeros after the first zero. A
`char` above 127 is out of range whether it is signed or not. -/
def commandValid : List UInt8 → Bool
  | [] => true
  | c :: l =>
    if c = 0 then l.all (· == 0)
    else if c < 0x20 ∨ c > 0x7E then false
    else commandValid l

namespace CMessageHeader

/-- `IsCommandValid`. -/
def isCommandValid (hdr : CMessageHeader) : Bool := commandValid hdr.pchCommand.val

/-- The bytes of a header. -/
def bytes (hdr : CMessageHeader) : List UInt8 :=
  hdr.pchMessageStart.val ++ (hdr.pchCommand.val ++ (writeLE 4 hdr.nMessageSize.toNat ++
    hdr.pchChecksum.val))

/-- Reading a header. -/
def unserialize : Get CMessageHeader := do
  let pchMessageStart ← readArray messageStartSize
  let pchCommand ← readArray commandSize
  let nMessageSize ← readLE 4
  let pchChecksum ← readArray checksumSize
  pure { pchMessageStart, pchCommand, nMessageSize := UInt32.ofNat nMessageSize, pchChecksum }

@[simp]
theorem length_bytes (hdr : CMessageHeader) : hdr.bytes.length = headerSize := by
  rw [bytes, length_append, length_append, length_append, length_writeLE,
    hdr.pchMessageStart.property, hdr.pchCommand.property, hdr.pchChecksum.property]
  rfl

/-- A header reads back from its bytes. -/
theorem reads_header (hdr : CMessageHeader) : Reads unserialize hdr.bytes hdr := by
  have hsize : hdr.nMessageSize.toNat < 256 ^ 4 := hdr.nMessageSize.toNat_lt
  refine (Reads.readArray hdr.pchMessageStart).bind ?_
  refine (Reads.readArray hdr.pchCommand).bind ?_
  refine (Reads.readLE hsize).bind ?_
  simp only [UInt32.ofNat_toNat]
  exact (Reads.readArray hdr.pchChecksum).bind_pure _

/-- Any 24 bytes are those of a header. -/
theorem exists_header {l : List UInt8} (hl : l.length = headerSize) :
    ∃ hdr : CMessageHeader, hdr.bytes = l := by
  have h24 : headerSize = 24 := rfl
  have h1 : (l.take 4).length = 4 := by rw [length_take]; omega
  have h2 : ((l.drop 4).take 12).length = 12 := by rw [length_take, length_drop]; omega
  have h3 : ((l.drop 16).take 4).length = 4 := by rw [length_take, length_drop]; omega
  have h4 : (l.drop 20).length = 4 := by rw [length_drop]; omega
  refine ⟨⟨⟨_, h1⟩, ⟨_, h2⟩, UInt32.ofNat (ofLE ((l.drop 16).take 4)), ⟨_, h4⟩⟩, ?_⟩
  have hlt : ofLE ((l.drop 16).take 4) < 2 ^ 32 := by
    have h := ofLE_lt ((l.drop 16).take 4)
    rw [h3] at h
    exact h
  have hsize : writeLE 4 (UInt32.ofNat (ofLE ((l.drop 16).take 4))).toNat = (l.drop 16).take 4 := by
    rw [UInt32.toNat_ofNat_of_lt' hlt]
    have h := writeLE_ofLE ((l.drop 16).take 4)
    rwa [h3] at h
  rw [bytes, hsize]
  have hjoin3 : (l.drop 16).take 4 ++ l.drop 20 = l.drop 16 := by
    have h := take_append_drop 4 (l.drop 16)
    rwa [drop_drop] at h
  have hjoin2 : (l.drop 4).take 12 ++ l.drop 16 = l.drop 4 := by
    have h := take_append_drop 12 (l.drop 4)
    rwa [drop_drop] at h
  simp only [hjoin3, hjoin2, take_append_drop]

end CMessageHeader

/-! ## Commands -/

/-- Commands as `IsCommandValid` wants them: printable characters. -/
def Printable (command : List UInt8) : Prop := ∀ c ∈ command, 0x20 ≤ c ∧ c ≤ 0x7E

variable {command : List UInt8}

theorem Printable.ne_zero (h : Printable command) : ∀ c ∈ command, c ≠ 0 := by
  intro c hc heq
  have hlow := (h c hc).1
  rw [heq] at hlow
  exact absurd hlow (by decide)

/-- The part of a command before the zeros. -/
theorem takeWhile_pad (h : ∀ c ∈ command, c ≠ 0) (n : Nat) :
    (command ++ replicate n 0).takeWhile (· ≠ 0) = command := by
  rw [takeWhile_append_of_pos (by simpa using h)]
  cases n with
  | zero => simp
  | succ n => simp [replicate_succ]

/-- A printable command padded with zeros is valid. -/
theorem commandValid_pad (h : Printable command) (n : Nat) :
    commandValid (command ++ replicate n 0) := by
  induction command with
  | nil =>
    cases n with
    | zero => rfl
    | succ n => simp [replicate_succ, commandValid]
  | cons c command ih =>
    obtain ⟨hlow, hhigh⟩ := h c mem_cons_self
    have hne := h.ne_zero c mem_cons_self
    rw [cons_append, commandValid, if_neg hne, if_neg (by
      rintro (hlt | hgt)
      · exact absurd hlow (UInt8.not_le.mpr hlt)
      · exact absurd hhigh (UInt8.not_le.mpr hgt))]
    exact ih (forall_mem_cons.mp h).2

/-- A valid command is the part before its first zero, which is printable, and zeros. -/
theorem eq_pad_of_commandValid {l : List UInt8} (h : commandValid l) :
    Printable (l.takeWhile (· ≠ 0)) ∧
      l = l.takeWhile (· ≠ 0) ++ replicate (l.length - (l.takeWhile (· ≠ 0)).length) 0 := by
  induction l with
  | nil => exact ⟨fun c hc => absurd hc (by simp), rfl⟩
  | cons c l ih =>
    rw [commandValid] at h
    by_cases hzero : c = 0
    · rw [if_pos hzero, all_eq_true] at h
      subst hzero
      have hall : l = replicate l.length 0 :=
        eq_replicate_iff.mpr ⟨rfl, fun d hd => by simpa using h d hd⟩
      refine ⟨fun c hc => absurd hc (by simp), ?_⟩
      simpa [replicate_succ] using hall
    · split_ifs at h with hrange
      obtain ⟨hprint, heq⟩ := ih h
      rw [not_or, UInt8.not_lt, gt_iff_lt, UInt8.not_lt] at hrange
      have htake : (c :: l).takeWhile (· ≠ 0) = c :: l.takeWhile (· ≠ 0) :=
        takeWhile_cons_of_pos (by simpa using hzero)
      rw [htake]
      refine ⟨forall_mem_cons.mpr ⟨hrange, hprint⟩, ?_⟩
      rw [length_cons, length_cons, Nat.add_sub_add_right, cons_append, ← heq]

theorem Printable.takeWhile_eq (h : Printable command) : command.takeWhile (· ≠ 0) = command := by
  have htake := takeWhile_pad h.ne_zero 0
  rwa [replicate_zero, append_nil] at htake

/-- A valid command is its `GetCommand`, padded again. -/
theorem CMessageHeader.padCommand_getCommand {hdr : CMessageHeader} (h : hdr.isCommandValid) :
    padCommand hdr.getCommand = some hdr.pchCommand := by
  obtain ⟨hprint, heq⟩ := eq_pad_of_commandValid h
  have hlen : hdr.getCommand.length ≤ commandSize :=
    (takeWhile_sublist _).length_le.trans hdr.pchCommand.property.le
  have htake : hdr.getCommand.takeWhile (· ≠ 0) = hdr.getCommand := hprint.takeWhile_eq
  unfold padCommand
  simp only [htake]
  rw [dif_pos hlen]
  refine congrArg some (Subtype.ext ?_)
  have hsize := hdr.pchCommand.property
  rw [hsize] at heq
  exact heq.symm

/-- A printable command that fits is padded, valid, and what `GetCommand` returns. -/
theorem padCommand_of_printable (h : Printable command) (hlen : command.length ≤ commandSize) :
    ∃ pchCommand : Bytes commandSize, padCommand command = some pchCommand ∧
      pchCommand.val.takeWhile (· ≠ 0) = command ∧ commandValid pchCommand.val = true := by
  unfold padCommand
  simp only [h.takeWhile_eq]
  rw [dif_pos hlen]
  exact ⟨_, rfl, takeWhile_pad h.ne_zero _, commandValid_pad h _⟩

end DefcoinCore.Net
