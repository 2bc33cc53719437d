import DefcoinCore.Net.Receive

/-!
# Sending and receiving

What `prepareForTransport` puts before a message makes it a frame of the stream, so the messages of
one node are delivered to the other, however the network cuts the bytes. Conversely a frame that
delivers a message is what would be sent for that message.
-/

namespace DefcoinCore.Net

open DefcoinCore List V1TransportSerializer Decoder

/-- The bytes that are sent for a message: its header and its payload. -/
def V1TransportSerializer.transmit (env : TransportEnv) (s : V1TransportSerializer)
    (msg : CSerializedNetMsg) : Option (List UInt8) :=
  (s.prepareForTransport env msg).map fun header => header ++ msg.data

/-- A message with a printable command of 1 to 12 characters and a payload that is not too large. -/
structure CSerializedNetMsg.Sendable (msg : CSerializedNetMsg) : Prop where
  nonempty : 1 ≤ msg.m_type.length
  short : msg.m_type.length ≤ commandSize
  printable : Printable msg.m_type
  size : msg.data.length ≤ maxProtocolMessageLength

/-! ## Frames and messages -/

section Frames

variable {env : TransportEnv} {s : V1TransportSerializer} {msg : CSerializedNetMsg}

/-- The header that is sent for a message with a padded command. -/
def sentHeader (env : TransportEnv) (start : MessageStartChars) (pchCommand : Bytes commandSize)
    (data : List UInt8) : CMessageHeader where
  pchMessageStart := start
  pchCommand := pchCommand
  nMessageSize := UInt32.ofNat data.length
  pchChecksum := ⟨(env.hash data).val.take checksumSize, by
    rw [List.length_take, (env.hash data).property]; rfl⟩

theorem prepareForTransport_eq {pchCommand : Bytes commandSize}
    (h : padCommand msg.m_type = some pchCommand) :
    s.prepareForTransport env msg =
      some (sentHeader env s.m_message_start pchCommand msg.data).bytes := by
  unfold prepareForTransport CMessageHeader.new
  rw [h]
  rfl

/-- What is sent for a message is a frame with this message. -/
theorem transmit_spec (env : TransportEnv) (s : V1TransportSerializer) (hmsg : msg.Sendable) :
    ∃ f : Frame, s.transmit env msg = some f.bytes ∧ f.content env = some msg ∧
      f.hdr.pchMessageStart = s.m_message_start ∧
      f.hdr.nMessageSize.toNat ≤ maxProtocolMessageLength := by
  obtain ⟨pchCommand, hpad, hcommand, hvalid⟩ := padCommand_of_printable hmsg.printable hmsg.short
  have hmax : maxProtocolMessageLength < 2 ^ 32 := by decide
  have hsize : (UInt32.ofNat msg.data.length).toNat = msg.data.length :=
    UInt32.toNat_ofNat_of_lt' (hmsg.size.trans_lt hmax)
  refine ⟨⟨sentHeader env s.m_message_start pchCommand msg.data, msg.data, hsize.symm⟩, ?_, ?_, rfl,
    hsize.trans_le hmsg.size⟩
  · rw [transmit, prepareForTransport_eq hpad]
    rfl
  · refine (if_pos ⟨rfl, hvalid⟩).trans ?_
    exact congrArg (fun command => some (⟨msg.data, command⟩ : CSerializedNetMsg)) hcommand

/-- A frame that delivers a message is what is sent for it. -/
theorem prepareForTransport_content {f : Frame} (h : f.content env = some msg) :
    prepareForTransport env ⟨f.hdr.pchMessageStart⟩ msg = some f.hdr.bytes ∧
      f.bytes = f.hdr.bytes ++ msg.data := by
  unfold Frame.content at h
  split_ifs at h with hright
  obtain ⟨hsum, hvalid⟩ := hright
  rw [Option.some.injEq] at h
  subst h
  refine ⟨?_, rfl⟩
  rw [prepareForTransport_eq (CMessageHeader.padCommand_getCommand hvalid)]
  have hsize : UInt32.ofNat f.payload.length = f.hdr.nMessageSize := by
    rw [f.size, UInt32.ofNat_toNat]
  simp only [sentHeader, hsize, hsum]

end Frames

/-! ## Receiving frames -/

/-- A message start that a peer may use. -/
def TransportEnv.Usable (env : TransportEnv) (start : MessageStartChars) : Prop :=
  start = env.messageStartDefcoinMagic ∨
    (env.acceptLegacyMagic ∧ start = env.messageStartLegacyMagic)

section Receiving

variable {env : TransportEnv} {a : Decoder} {start : MessageStartChars}

theorem starts_bytes {hdr : CMessageHeader} (s : MessageStartChars) :
    Starts s hdr.bytes ↔ s = hdr.pchMessageStart := by
  have htake : hdr.bytes.take messageStartSize = hdr.pchMessageStart.val :=
    take_left' hdr.pchMessageStart.property
  rw [Starts, htake]
  constructor
  · intro h
    exact Subtype.ext (h.eq_of_length (hdr.pchMessageStart.property.trans s.property.symm)).symm
  · rintro rfl
    exact prefix_rfl

/-- A header with a usable message start selects it. -/
theorem selectStart_bytes (hstart : env.Usable start) {selected : Option MessageStartChars}
    (hsel : selected = none ∨ selected = some start) {hdr : CMessageHeader}
    (hhdr : hdr.pchMessageStart = start) :
    selectStart env selected hdr.bytes = some (some start) := by
  have hlen : messageStartSize ≤ hdr.bytes.length := by
    rw [CMessageHeader.length_bytes]
    decide
  rcases hsel with rfl | rfl
  · simp only [selectStart, starts_bytes, hhdr, if_pos hlen]
    by_cases hnet : env.messageStartDefcoinMagic = start
    · rw [if_pos hnet, hnet]
    · rcases hstart with rfl | ⟨hlegacy, rfl⟩
      · exact absurd rfl hnet
      · rw [if_neg hnet, if_pos ⟨hlegacy, rfl⟩]
  · simp only [selectStart, starts_bytes, hhdr, if_true]

/-- A frame, received at the end of the one before. -/
theorem feedAll_frame (hstart : env.Usable start) (hd : a.dropped = false)
    (hp : a.phase = .header []) (hsel : a.selected = none ∨ a.selected = some start) {f : Frame}
    (hhdr : f.hdr.pchMessageStart = start)
    (hsize : f.hdr.nMessageSize.toNat ≤ maxProtocolMessageLength) :
    a.feedAll env f.bytes = { a with selected := some start }.finish env f := by
  let a' := { a with selected := some start }
  have hheader : a.feedAll env f.hdr.bytes = a'.onPayload env f.hdr [] := by
    have hlen := f.hdr.length_bytes
    rw [feed_header f.hdr.bytes a [] hd hp (length_pos_iff.mp (by rw [hlen]; decide))
      hlen.le, nil_append, onHeader, selectStart_bytes hstart hsel hhdr]
    simp only [hlen, lt_irrefl, if_false]
    rw [onHeaderEnd_bytes, if_pos hsize]
  have hfull : ∀ q (hq : q = f.payload), a'.onPayload env f.hdr q = a'.finish env f := by
    rintro q rfl
    exact dif_pos f.size
  rw [Frame.bytes, feedAll_append, hheader]
  by_cases hempty : f.payload = []
  · rw [hfull [] hempty.symm, hempty]
    rfl
  · have hne : ([] : List UInt8).length ≠ f.hdr.nMessageSize.toNat := by
      rw [← f.size]
      exact fun h => hempty (length_eq_zero_iff.mp h.symm)
    have hphase : a'.onPayload env f.hdr [] = { a' with phase := .payload f.hdr [] } := dif_neg hne
    rw [hphase, feed_payload f.payload { a' with phase := _ } [] hd rfl hempty f.size.le,
      nil_append, onPayload_phase, hfull f.payload rfl]

/-- Frames one after the other deliver their messages. -/
theorem feedAll_frames (hstart : env.Usable start) (frames : List Frame)
    (hframes : ∀ f ∈ frames, f.hdr.pchMessageStart = start ∧
      f.hdr.nMessageSize.toNat ≤ maxProtocolMessageLength) :
    ∀ a : Decoder, a.dropped = false → a.phase = .header [] →
      (a.selected = none ∨ a.selected = some start) →
      (a.feedAll env (frames.flatMap Frame.bytes)).dropped = false ∧
        (a.feedAll env (frames.flatMap Frame.bytes)).delivered =
          a.delivered ++ frames.filterMap (Frame.content env) := by
  induction frames with
  | nil =>
    intro a hd _ _
    simp [hd]
  | cons f frames ih =>
    intro a hd hp hsel
    obtain ⟨hhdr, hsize⟩ := hframes f mem_cons_self
    rw [flatMap_cons, feedAll_append, feedAll_frame hstart hd hp hsel hhdr hsize]
    obtain ⟨hd', hdel⟩ := ih (fun g hg => hframes g (mem_cons_of_mem f hg))
      ({ a with selected := some start }.finish env f) hd rfl (.inr rfl)
    refine ⟨hd', ?_⟩
    rw [hdel, finish]
    cases hc : Frame.content env f <;> simp [hc]

end Receiving

/-! ## Whole connections -/

/-- The frames that are sent for a list of messages. -/
theorem transmit_all (env : TransportEnv) (s : V1TransportSerializer)
    (msgs : List CSerializedNetMsg) (hmsgs : ∀ msg ∈ msgs, msg.Sendable) :
    ∃ frames : List Frame, msgs.mapM (s.transmit env) = some (frames.map Frame.bytes) ∧
      frames.filterMap (Frame.content env) = msgs ∧
      ∀ f ∈ frames, f.hdr.pchMessageStart = s.m_message_start ∧
        f.hdr.nMessageSize.toNat ≤ maxProtocolMessageLength := by
  induction msgs with
  | nil => exact ⟨[], rfl, rfl, fun f hf => absurd hf (by simp)⟩
  | cons msg msgs ih =>
    obtain ⟨f, htransmit, hcontent, hf⟩ := transmit_spec env s (hmsgs msg mem_cons_self)
    obtain ⟨frames, hrest, hmsgsEq, hframes⟩ := ih fun m hm => hmsgs m (mem_cons_of_mem msg hm)
    refine ⟨f :: frames, ?_, ?_, forall_mem_cons.mpr ⟨hf, hframes⟩⟩
    · rw [mapM_cons, htransmit, hrest]
      rfl
    · rw [filterMap_cons, hcontent, hmsgsEq]

namespace CNode

/-- Messages sent under one usable message start are delivered, in order and without a drop, however
their bytes are cut into chunks. Conversely, the messages that any stream delivers are those of
frames in it, and each of these frames is the 24 bytes of the header that is sent for its message,
followed by the payload. -/
theorem transmit_receiveChunks (env : TransportEnv) (use_legacy_outbound_magic : Bool)
    (start : MessageStartChars) (hstart : env.Usable start) (msgs : List CSerializedNetMsg)
    (hmsgs : ∀ msg ∈ msgs, msg.Sendable) :
    (∃ parts, msgs.mapM (transmit env ⟨start⟩) = some parts ∧
      ∀ chunks, stream chunks = parts.flatten →
        ∃ node, (new env use_legacy_outbound_magic).receiveChunks env chunks = some (true, node) ∧
          node.delivered = msgs) ∧
    ∀ chunks connected node,
      (new env use_legacy_outbound_magic).receiveChunks env chunks = some (connected, node) →
      ∃ (frames : List Frame) (rest : List UInt8),
        stream chunks = frames.flatMap Frame.bytes ++ rest ∧
        node.delivered = frames.filterMap (Frame.content env) ∧
        ∀ f ∈ frames, ∀ msg, f.content env = some msg → ∃ header, header.length = headerSize ∧
          prepareForTransport env ⟨f.hdr.pchMessageStart⟩ msg = some header ∧
          f.bytes = header ++ msg.data := by
  constructor
  · obtain ⟨frames, hparts, hcontent, hframes⟩ := transmit_all env ⟨start⟩ msgs hmsgs
    refine ⟨_, hparts, fun chunks hchunks => ?_⟩
    obtain ⟨node, -, -, hrun, hr, -⟩ := receiveChunks_new env use_legacy_outbound_magic chunks
    rw [hchunks, ← flatMap_def] at hrun hr
    obtain ⟨hd, hdel⟩ := feedAll_frames hstart frames hframes {} rfl rfl (.inl rfl)
    rw [hd] at hrun
    refine ⟨node, hrun, hr.delivered.trans ?_⟩
    rw [hdel, hcontent]
    rfl
  · intro chunks connected node hrun
    obtain ⟨node', frames, rest, hrun', hr, hdec⟩ :=
      receiveChunks_new env use_legacy_outbound_magic chunks
    rw [hrun, Option.some.injEq, Prod.mk.injEq] at hrun'
    obtain ⟨-, rfl⟩ := hrun'
    refine ⟨frames, rest, hdec.bytes, hr.delivered.trans hdec.delivered, ?_⟩
    intro f hf msg hmsg
    obtain ⟨hprepare, hbytes⟩ := prepareForTransport_content hmsg
    exact ⟨f.hdr.bytes, f.hdr.length_bytes, hprepare, hbytes⟩

/-- A `ping` and an empty `verack` under the legacy start. -/
theorem transmit_receiveChunks_ping : ∃ parts,
    [({ data := [7], m_type := [0x70, 0x69, 0x6e, 0x67] } : CSerializedNetMsg),
      { data := [], m_type := [0x76, 0x65, 0x72, 0x61, 0x63, 0x6b] }].mapM
      (transmit toyEnv ⟨toyEnv.messageStartLegacyMagic⟩) = some parts ∧
    ∀ chunks, stream chunks = parts.flatten →
      ∃ node, (new toyEnv false).receiveChunks toyEnv chunks = some (true, node) ∧
        node.delivered = [{ data := [7], m_type := [0x70, 0x69, 0x6e, 0x67] },
          { data := [], m_type := [0x76, 0x65, 0x72, 0x61, 0x63, 0x6b] }] := by
  refine (transmit_receiveChunks toyEnv false _ (.inr ⟨rfl, rfl⟩) _ ?_).1
  rw [forall_mem_cons, forall_mem_singleton]
  constructor <;> exact ⟨by decide, by decide, by simp [Printable], by decide⟩

/-- While the bytes arrive the connection stays, and the messages so far are the first ones, in
order. -/
theorem receiveChunks_inTransit (env : TransportEnv) (use_legacy_outbound_magic : Bool)
    (start : {start // env.Usable start}) (msgs : List {msg : CSerializedNetMsg // msg.Sendable}) :
    ∃ parts, (msgs.map (·.1)).mapM (transmit env ⟨start.1⟩) = some parts ∧
      ∀ chunks, stream chunks <+: parts.flatten →
        ∃ node, (new env use_legacy_outbound_magic).receiveChunks env chunks = some (true, node) ∧
          node.delivered <+: msgs.map (·.1) := by
  obtain ⟨frames, hparts, hcontent, hframes⟩ := transmit_all env ⟨start.1⟩ (msgs.map (·.1)) (by
    simpa using fun _ h _ => h)
  refine ⟨_, hparts, fun chunks hpre => ?_⟩
  obtain ⟨rest, hrest⟩ := hpre
  obtain ⟨node, _, _, hrun, hr, hdec⟩ := receiveChunks_new env use_legacy_outbound_magic chunks
  obtain ⟨hd, hdel⟩ := feedAll_frames start.2 frames hframes {} rfl rfl (.inl rfl)
  rw [flatMap_def, ← hrest, feedAll_append] at hd hdel
  generalize ({} : Decoder).feedAll env (stream chunks) = a at *
  cases hopen : a.dropped with
  | true =>
    rw [feedAll_dropped hopen, hopen] at hd
    cases hd
  | false =>
    obtain ⟨later, _, hlater⟩ := @Decoder.decodes_feedAll env rest a hdec.wellFormed hopen
    rw [hopen] at hrun
    refine ⟨node, hrun, later.filterMap (Frame.content env), ?_⟩
    rw [delivered, hr.delivered, ← hlater.delivered, hdel, hcontent]
    rfl

end CNode

end DefcoinCore.Net
