import DefcoinCore.Lib.Buffer
import DefcoinCore.Net.Message

/-!
# The message transport

`V1TransportDeserializer` takes the bytes of a connection in chunks of any size and collects first
the header and then the payload of a message; `V1TransportSerializer` writes the header of a
message; `CNode::ReceiveMsgBytes` feeds a chunk to the first one, queues the messages and tells the
second one which message start the peer uses.

The message start of a connection is selected by its first four bytes, among that of the network
and, while legacy peers are accepted, the legacy one. The bytes received so far are compared with
both after every chunk, so that a wrong start is noticed early.

The hash of a payload is a function of its bytes (`hash`); `hasher` holds the bytes that were
written to it. The loop of `ReceiveMsgBytes` has fuel, of which it never runs out.
-/

namespace DefcoinCore.Net

open DefcoinCore

/-- What the transport depends on: the message starts of the chain, the setting for legacy peers,
and the double hash of `CHash256`. -/
structure TransportEnv where
  messageStartDefcoinMagic : MessageStartChars
  messageStartLegacyMagic : MessageStartChars
  acceptLegacyMagic : Bool
  hash : List UInt8 → Bytes 32

structure CNetMessage where
  m_recv : List UInt8
  m_time : Nat
  m_message_size : Nat
  m_raw_message_size : Nat
  m_command : List UInt8
  deriving DecidableEq

/-- A null `uint256`. -/
def nullHash : Bytes 32 := Bytes.zero 32

structure V1TransportDeserializer where
  /-- The bytes written to the hasher. -/
  hasher : List UInt8 := []
  data_hash : Bytes 32 := nullHash
  /-- Parsing the header (`false`) or the data (`true`). -/
  in_data : Bool := false
  hdrbuf : List UInt8 := List.replicate headerSize 0
  hdr : CMessageHeader := default
  vRecv : List UInt8 := []
  nHdrPos : Nat := 0
  nDataPos : Nat := 0
  m_active_message_start : MessageStartChars
  m_message_start_selected : Bool := false
  m_using_legacy_magic : Bool := false

namespace V1TransportDeserializer

variable (env : TransportEnv) (d : V1TransportDeserializer)

/-- The constructor. -/
def new : V1TransportDeserializer := { m_active_message_start := env.messageStartDefcoinMagic }

/-- `Reset`. -/
def reset : V1TransportDeserializer :=
  { d with
    vRecv := []
    hdrbuf := List.replicate headerSize 0
    in_data := false
    nHdrPos := 0
    nDataPos := 0
    data_hash := nullHash
    hasher := [] }

/-- `Complete`. -/
def complete : Bool := d.in_data && d.hdr.nMessageSize.toNat == d.nDataPos

/-- `MatchMessageStart`: the bytes received so far agree. -/
def matchMessageStart (message_start : MessageStartChars) : Bool :=
  let nCheck := min d.nHdrPos messageStartSize
  d.hdrbuf.take nCheck == message_start.val.take nCheck

/-- `TrySelectMessageStart`. -/
def trySelectMessageStart : Bool × V1TransportDeserializer :=
  if d.m_message_start_selected then (d.matchMessageStart d.m_active_message_start, d)
  else
    let matches_network := d.matchMessageStart env.messageStartDefcoinMagic
    let matches_legacy := env.acceptLegacyMagic && d.matchMessageStart env.messageStartLegacyMagic
    if !matches_network && !matches_legacy then (false, d)
    else if d.nHdrPos ≥ messageStartSize then
      (true,
        { d with
          m_active_message_start :=
            if matches_network then env.messageStartDefcoinMagic else env.messageStartLegacyMagic
          m_message_start_selected := true
          m_using_legacy_magic := !matches_network })
    else (true, d)

/-- The end of `readHeader`, when the header is complete; `false` is an error. -/
def acceptHeader : Bool × V1TransportDeserializer :=
  match CMessageHeader.unserialize d.hdrbuf with
  | .error _ => (false, d)
  | .ok (hdr, hdrbuf) =>
    let d := { d with hdr := hdr, hdrbuf := hdrbuf }
    if hdr.pchMessageStart ≠ d.m_active_message_start then (false, d)
    else if hdr.nMessageSize.toNat > maxSize ∨
      hdr.nMessageSize.toNat > maxProtocolMessageLength then
      (false, d)
    else (true, { d with in_data := true })

/-- `readHeader`: the number of bytes taken, or `none` for an error. -/
def readHeader (pch : List UInt8) : Option Nat × V1TransportDeserializer :=
  let nCopy := min (headerSize - d.nHdrPos) pch.length
  let d := { d with
    hdrbuf := Buffer.memcpy d.hdrbuf d.nHdrPos (pch.take nCopy)
    nHdrPos := d.nHdrPos + nCopy }
  match d.trySelectMessageStart env with
  | (false, d) => (none, d)
  | (true, d) =>
    if d.nHdrPos < headerSize then (some nCopy, d)
    else
      match d.acceptHeader with
      | (false, d) => (none, d)
      | (true, d) => (some nCopy, d)

/-- `readData`: the number of bytes taken. The buffer is allocated up to 256 KiB ahead. -/
def readData (pch : List UInt8) : Nat × V1TransportDeserializer :=
  let nCopy := min (d.hdr.nMessageSize.toNat - d.nDataPos) pch.length
  let vRecv :=
    if d.vRecv.length < d.nDataPos + nCopy then
      Buffer.resize d.vRecv (min d.hdr.nMessageSize.toNat (d.nDataPos + nCopy + 256 * 1024)) 0
    else d.vRecv
  (nCopy,
    { d with
      hasher := d.hasher ++ pch.take nCopy
      vRecv := Buffer.memcpy vRecv d.nDataPos (pch.take nCopy)
      nDataPos := d.nDataPos + nCopy })

/-- `Read`. -/
def read (pch : List UInt8) : Option Nat × V1TransportDeserializer :=
  if d.in_data then
    let (nCopy, d) := d.readData pch
    (some nCopy, d)
  else
    match d.readHeader env pch with
    | (none, d) => (none, d.reset)
    | (some nCopy, d) => (some nCopy, d)

/-- `GetMessageHash`. -/
def getMessageHash : Bytes 32 :=
  if d.data_hash = nullHash then env.hash d.hasher else d.data_hash

/-- `GetMessage`: the message, or `none` with the size of what is dropped. -/
def getMessage (time : Nat) : Option CNetMessage × Nat × V1TransportDeserializer :=
  let msg : CNetMessage :=
    { m_recv := d.vRecv
      m_time := time
      m_message_size := d.hdr.nMessageSize.toNat
      m_raw_message_size := d.hdr.nMessageSize.toNat + headerSize
      m_command := d.hdr.getCommand }
  if (d.getMessageHash env).val.take checksumSize ≠ d.hdr.pchChecksum.val then
    (none, msg.m_raw_message_size, d.reset)
  else if d.hdr.isCommandValid = false then (none, msg.m_raw_message_size, d.reset)
  else (some msg, 0, d.reset)

end V1TransportDeserializer

/-! ## Sending -/

structure CSerializedNetMsg where
  data : List UInt8
  m_type : List UInt8
  deriving DecidableEq

structure V1TransportSerializer where
  m_message_start : MessageStartChars

/-- `prepareForTransport`: the header of a message; `none` when the assertion on the length of the
command fails. -/
def V1TransportSerializer.prepareForTransport (env : TransportEnv) (s : V1TransportSerializer)
    (msg : CSerializedNetMsg) : Option (List UInt8) :=
  (CMessageHeader.new s.m_message_start msg.m_type (UInt32.ofNat msg.data.length)).map fun hdr =>
    { hdr with pchChecksum := ⟨(env.hash msg.data).val.take checksumSize, by
        rw [List.length_take, (env.hash msg.data).property]; rfl⟩ : CMessageHeader }.bytes

/-! ## Receiving -/

/-- The part of a node that receives messages. -/
structure CNode where
  m_deserializer : V1TransportDeserializer
  m_serializer : V1TransportSerializer
  vRecvMsg : List CNetMessage := []

namespace CNode

/-- A new connection. The first messages to a legacy endpoint are sent with the legacy start. -/
def new (env : TransportEnv) (use_legacy_outbound_magic : Bool) : CNode :=
  { m_deserializer := .new env
    m_serializer :=
      ⟨if use_legacy_outbound_magic then env.messageStartLegacyMagic
       else env.messageStartDefcoinMagic⟩ }

/-- The serializer follows a selected message start. -/
def followMessageStart (node : CNode) : CNode :=
  if node.m_deserializer.m_message_start_selected then
    { node with m_serializer := ⟨node.m_deserializer.m_active_message_start⟩ }
  else node

/-- A message that is complete is taken from the deserializer and queued, unless it is corrupt. -/
def takeMessage (env : TransportEnv) (time : Nat) (node : CNode) : Bool × CNode :=
  if node.m_deserializer.complete then
    match node.m_deserializer.getMessage env time with
    | (none, _, d) => (false, { node with m_deserializer := d })
    | (some msg, _, d) =>
      (true, { node with m_deserializer := d, vRecvMsg := node.vRecvMsg ++ [msg] })
  else (false, node)

/-- The loop of `ReceiveMsgBytes`: whether the peer stays connected and whether a message was
completed. -/
def receiveLoop (env : TransportEnv) (time : Nat) :
    Nat → List UInt8 → Bool → CNode → Option (Bool × Bool × CNode)
  | _, [], complete, node => some (true, complete, node)
  | 0, _ :: _, _, _ => none
  | fuel + 1, b :: bs, complete, node =>
    match node.m_deserializer.read env (b :: bs) with
    | (none, d) => some (false, complete, { node with m_deserializer := d })
    | (some handled, d) =>
      let (taken, node) := { node with m_deserializer := d }.followMessageStart.takeMessage env time
      receiveLoop env time fuel ((b :: bs).drop handled) (complete || taken) node

/-- `ReceiveMsgBytes`. -/
def receiveMsgBytes (env : TransportEnv) (node : CNode) (time : Nat) (pch : List UInt8) :
    Option (Bool × Bool × CNode) :=
  receiveLoop env time pch.length pch false node

/-- The chunks of a connection, each with the time of its arrival, until the peer is dropped. -/
def receiveChunks (env : TransportEnv) : CNode → List (Nat × List UInt8) → Option (Bool × CNode)
  | node, [] => some (true, node)
  | node, (time, pch) :: chunks =>
    match node.receiveMsgBytes env time pch with
    | none => none
    | some (false, _, node) => some (false, node)
    | some (true, _, node) => receiveChunks env node chunks

end CNode

end DefcoinCore.Net
