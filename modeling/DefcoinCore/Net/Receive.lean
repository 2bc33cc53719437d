import DefcoinCore.Net.Framing

/-!
# Receiving refines the byte stream

`ReceiveMsgBytes` on a chunk does what the decoder of the byte stream does on its bytes, one after
the other. The relation between a node and a decoder (`Refines`) reads the buffers of the
deserializer up to their fill position, so it does not see how far ahead the buffer of the payload
was allocated: this is the only part of a node that depends on how the stream was cut. The rest is a
consequence: the outcome of a connection is a function of its bytes.
-/

namespace DefcoinCore.Net

open DefcoinCore List Decoder V1TransportDeserializer Nat Option Buffer CNetMessage

/-! ## The deserializer -/

/-- The buffers of the deserializer hold what has been received of the current frame. -/
def Holds (d : V1TransportDeserializer) : Phase → Prop
  | .header p =>
    d.in_data = false ∧ d.nHdrPos = p.length ∧ d.hdrbuf.length = headerSize ∧
      d.hdrbuf.take p.length = p ∧ d.nDataPos = 0 ∧ d.hasher = [] ∧ d.vRecv = [] ∧
      d.data_hash = nullHash
  | .payload hdr p =>
    d.in_data ∧ d.nHdrPos = headerSize ∧ d.hdr = hdr ∧ d.nDataPos = p.length ∧ d.hasher = p ∧
      p.length ≤ d.vRecv.length ∧ d.vRecv.length ≤ hdr.nMessageSize.toNat ∧
      d.vRecv.take p.length = p ∧ d.data_hash = nullHash

namespace V1TransportDeserializer

variable {env : TransportEnv} {d : V1TransportDeserializer}

/-- The message start of the connection, once it is selected. -/
def selectedStart (d : V1TransportDeserializer) : Option MessageStartChars :=
  if d.m_message_start_selected then some d.m_active_message_start else none

variable {q : List UInt8} {hdr : CMessageHeader}

/-- Comparing the bytes received so far. -/
theorem matchMessageStart_eq (hpos : d.nHdrPos = q.length) (hbuf : d.hdrbuf.take q.length = q)
    (s : MessageStartChars) :
    d.matchMessageStart s = decide (Starts s q) := by
  have htake : d.hdrbuf.take (min q.length messageStartSize) = q.take messageStartSize := by
    rw [min_comm, ← take_take, hbuf]
  have hlen : (q.take messageStartSize).length = min q.length messageStartSize := by
    rw [length_take, min_comm]
  rw [Bool.eq_iff_iff, decide_eq_true_iff, Starts, prefix_iff_eq_take, hlen, ← htake, ← hpos]
  exact beq_iff_eq

/-- Trying to select a message start. -/
theorem trySelectMessageStart_spec (env : TransportEnv) (hh : Holds d (.header q)) :
    match selectStart env d.selectedStart q with
    | none => d.trySelectMessageStart env = (false, d)
    | some selected => ∃ d', d.trySelectMessageStart env = (true, d') ∧
        d'.selectedStart = selected ∧
        Holds d' (.header q) := by
  have hmatch := matchMessageStart_eq hh.2.1 hh.2.2.2.1
  unfold trySelectMessageStart
  cases hsel : d.m_message_start_selected with
  | true =>
    have hactive : d.selectedStart = some d.m_active_message_start := if_pos hsel
    simp only [if_true, hactive, selectStart, hmatch]
    by_cases hs : Starts d.m_active_message_start q
    · rw [if_pos hs, decide_eq_true hs]
      exact ⟨d, rfl, hactive, hh⟩
    · rw [if_neg hs, decide_eq_false hs]
  | false =>
    have hnone : d.selectedStart = none := by rw [selectedStart, hsel]; rfl
    -- The fourth byte selects the message start that agrees.
    have hstart : ∀ start legacy, ∃ d', (if messageStartSize ≤ d.nHdrPos then
        (true, { d with m_active_message_start := start, m_message_start_selected := true,
                        m_using_legacy_magic := legacy }) else (true, d)) = (true, d') ∧
        d'.selectedStart = (if messageStartSize ≤ d.nHdrPos then some start else none) ∧
        Holds d' (.header q) := by
      intro start legacy
      split_ifs
      · exact ⟨_, rfl, rfl, hh⟩
      · exact ⟨d, rfl, hnone, hh⟩
    simp only [hnone, Bool.false_eq_true, if_false, selectStart, hmatch, ← hh.2.1, ge_iff_le]
    by_cases hnet : Starts env.messageStartDefcoinMagic q
    · simp only [hnet, if_true, decide_true, Bool.not_true, Bool.false_and, Bool.false_eq_true,
        if_false]
      exact hstart _ _
    · simp only [hnet, if_false, decide_false, Bool.not_false, Bool.true_and, Bool.false_eq_true]
      by_cases hleg : env.acceptLegacyMagic ∧ Starts env.messageStartLegacyMagic q
      · rw [if_pos hleg]
        simp only [hleg.1, hleg.2, decide_true, Bool.and_self, Bool.not_true, Bool.false_eq_true,
          if_false]
        exact hstart _ _
      · rw [if_neg hleg, if_pos]
        simpa [imp_iff_not_or] using hleg

/-- After `Reset` nothing of a frame has been received. -/
theorem holds_reset (d : V1TransportDeserializer) : Holds d.reset (.header []) :=
  ⟨rfl, rfl, length_replicate, rfl, rfl, rfl, rfl, rfl⟩

/-- A complete header is accepted when its payload is not too large. -/
theorem acceptHeader_spec (hbuf : d.hdrbuf = hdr.bytes)
    (hstart : hdr.pchMessageStart = d.m_active_message_start) :
    d.acceptHeader =
      if hdr.nMessageSize.toNat ≤ maxProtocolMessageLength then
        (true, { d with hdr := hdr, hdrbuf := [], in_data := true })
      else (false, { d with hdr := hdr, hdrbuf := [] }) := by
  have hread := CMessageHeader.reads_header hdr []
  rw [append_nil] at hread
  have hmax : maxProtocolMessageLength < maxSize := by decide
  unfold acceptHeader
  rw [hbuf, hread]
  simp only [hstart, ne_eq, not_true_eq_false, if_false]
  by_cases hsize : hdr.nMessageSize.toNat ≤ maxProtocolMessageLength
  · rw [if_pos hsize, if_neg (by omega)]
  · rw [if_neg hsize, if_pos (by omega)]

/-- What a read of `n` bytes gives that bring the decoder from `a` to `a'`: the connection is
dropped, or what was received ends inside a header, or inside or at the end of a payload. -/
def ReadsTo (env : TransportEnv) (n : Nat) (a a' : Decoder)
    (r : Option Nat × V1TransportDeserializer) :
    Prop :=
  (r.1 = none ∧ r.2.selectedStart = a'.selected ∧ Holds r.2 (.header []) ∧
      a' = { a with selected := a'.selected }.drop) ∨
    (r.1 = some n ∧
      ((∃ q, Holds r.2 (.header q) ∧
          a' = { a with selected := r.2.selectedStart, phase := .header q }) ∨
        ∃ hdr q, Holds r.2 (.payload hdr q) ∧
          a' = { a with selected := r.2.selectedStart }.onPayload env hdr q))

/-- Reading bytes of a header. -/
theorem read_header_spec (env : TransportEnv) {a : Decoder} (hsel : d.selectedStart = a.selected)
    {p : List UInt8} (hh : Holds d (.header p)) (hlt : p.length < headerSize) (pch : List UInt8)
    {n : Nat} (hcopy : min (headerSize - p.length) pch.length = n) :
    ReadsTo env n a (a.onHeader env (p ++ pch.take n)) (d.read env pch) := by
  generalize hqdef : p ++ pch.take n = q
  obtain ⟨hdata, hpos, hbuflen, hbuf, hempty⟩ := hh
  have hn : (pch.take n).length = n := length_take_of_le (by omega)
  have hq : q.length = p.length + n := by rw [← hqdef, length_append, hn]
  -- The buffer after the copy.
  generalize hd1 : ({ d with
    hdrbuf := memcpy d.hdrbuf d.nHdrPos (pch.take n)
    nHdrPos := d.nHdrPos + n } : V1TransportDeserializer) = d1
  have hh1 : Holds d1 (.header q) := by
    have htake : (memcpy d.hdrbuf p.length (pch.take n)).take (p.length + (pch.take n).length) =
        d.hdrbuf.take p.length ++ pch.take n := take_memcpy (hlt.le.trans hbuflen.ge)
    rw [hn, ← hq, hbuf, hqdef] at htake
    rw [← hd1, hpos]
    exact ⟨hdata, hq.symm, (length_memcpy (by rw [hn, hbuflen]; omega)).trans hbuflen,
      htake, hempty⟩
  have hsame : d1.selectedStart = a.selected := by
    rw [← hsel, ← hd1]
    rfl
  have hread : d.read env pch =
      let r := d1.trySelectMessageStart env
      bif r.1 then
        if r.2.nHdrPos < headerSize then (some n, r.2)
        else bif r.2.acceptHeader.1 then (some n, r.2.acceptHeader.2)
        else (none, r.2.acceptHeader.2.reset)
      else (none, r.2.reset) := by
    rw [read, hdata, if_neg Bool.false_ne_true, ← hd1]
    unfold readHeader
    simp only [hpos, hcopy]
    rcases trySelectMessageStart env _ with ⟨_ | _, d⟩
    · rfl
    · simp only [cond_true]
      split_ifs
      · rfl
      · rcases d.acceptHeader with ⟨_ | _, d⟩ <;> rfl
  have hselect := trySelectMessageStart_spec env hh1
  rw [hsame] at hselect
  rw [hread]
  unfold onHeader
  cases hsel : selectStart env a.selected q with
  | none =>
    rw [hsel] at hselect
    rw [show d1.trySelectMessageStart env = (false, d1) from hselect]
    exact .inl ⟨rfl, hsame, holds_reset d1, rfl⟩
  | some selected =>
    rw [hsel] at hselect
    obtain ⟨d2, hselect, hselected, hh2⟩ := hselect
    have ⟨_, hpos2, hbuflen2, hbuf2, hdatapos2, hhasher2, hvRecv2, hhash2⟩ := hh2
    simp only [hselect, hpos2, cond_true]
    by_cases hshort : q.length < headerSize
    · rw [if_pos hshort, if_pos hshort]
      exact .inr ⟨rfl, .inl ⟨q, hh2, by rw [hselected]⟩⟩
    · have hfull : q.length = headerSize := by omega
      obtain ⟨hdr, hhdr⟩ := CMessageHeader.exists_header hfull
      have hbytes : d2.hdrbuf = hdr.bytes := by
        rw [hhdr, ← hbuf2, hfull, ← hbuflen2, take_length]
      -- The header starts with the selected message start.
      obtain ⟨s, hs, hstart⟩ := selectStart_of_le hsel (by rw [hfull]; decide)
      have hactive : hdr.pchMessageStart = d2.m_active_message_start := by
        rw [← hselected, selectedStart, ite_none_right_eq_some, some.injEq] at hs
        rw [hs.2]
        refine Subtype.ext ?_
        rw [← hstart, ← hhdr, CMessageHeader.bytes]
        exact (take_left' hdr.pchMessageStart.property).symm
      rw [if_neg hshort, if_neg hshort, acceptHeader_spec hbytes hactive, ← hhdr, onHeaderEnd_bytes]
      by_cases hsize : hdr.nMessageSize.toNat ≤ maxProtocolMessageLength
      · rw [if_pos hsize, if_pos hsize]
        refine .inr ⟨rfl, .inr ⟨hdr, [], ⟨rfl, hpos2.trans hfull, rfl, hdatapos2, hhasher2,
          zero_le _, ?_, rfl, hhash2⟩, ?_⟩⟩
        · show d2.vRecv.length ≤ _
          rw [hvRecv2]
          exact zero_le _
        · rw [← hselected]
          rfl
      · rw [if_neg hsize, if_neg hsize]
        exact .inl ⟨rfl, hselected, holds_reset _, rfl⟩

/-- Reading bytes of a payload. -/
theorem readData_spec {p : List UInt8} (hh : Holds d (.payload hdr p))
    (hlt : p.length < hdr.nMessageSize.toNat) (pch : List UInt8) :
    let n := min (hdr.nMessageSize.toNat - p.length) pch.length
    ∃ d', d.readData pch = (n, d') ∧ d'.selectedStart = d.selectedStart ∧
      Holds d' (.payload hdr (p ++ pch.take n)) := by
  intro n
  obtain ⟨hdata, hpos, rfl, hdatapos, hhasher, hroom, hbound, hbuf, hhash⟩ := hh
  have hn : (pch.take n).length = n := length_take_of_le (min_le_right _ _)
  -- The buffer has room for the copy, and still holds what was received.
  obtain ⟨buf, hbufeq, hbuflen, hbufle, hbuftake⟩ : ∃ buf,
      (if d.vRecv.length < d.nDataPos + n then
        resize d.vRecv (min d.hdr.nMessageSize.toNat (d.nDataPos + n + 256 * 1024)) 0
        else d.vRecv) = buf ∧ p.length + n ≤ buf.length ∧
      buf.length ≤ d.hdr.nMessageSize.toNat ∧ buf.take p.length = p := by
    refine ⟨_, rfl, ?_⟩
    rw [hdatapos]
    split_ifs with hsmall
    · rw [length_resize, take_resize 0 (by omega) hroom]
      exact ⟨by omega, min_le_left _ _, hbuf⟩
    · exact ⟨by omega, hbound, hbuf⟩
  refine ⟨{ d with
    hasher := d.hasher ++ pch.take n
    vRecv := memcpy buf d.nDataPos (pch.take n)
    nDataPos := d.nDataPos + n }, ?_, rfl, ?_⟩
  · rw [← hbufeq, hdatapos]
    unfold readData
    simp only [hdatapos]
    rfl
  · have hcopy : (memcpy buf d.nDataPos (pch.take n)).length = buf.length :=
      length_memcpy (by rw [hn, hdatapos]; omega)
    have htake : (memcpy buf p.length (pch.take n)).take (p.length + (pch.take n).length) =
        buf.take p.length ++ pch.take n := take_memcpy (by omega)
    refine ⟨hdata, hpos, rfl, ?_, ?_, ?_, ?_, ?_, hhash⟩
    · rw [length_append, hn, hdatapos]
    · rw [hhasher]
    · rw [hcopy, length_append, hn]
      exact hbuflen
    · rw [hcopy]
      exact hbufle
    · rw [length_append, hdatapos, htake, hbuftake]

/-- `Complete` compares the data with the size in the header. -/
theorem complete_of_payload (hh : Holds d (.payload hdr q)) :
    d.complete = decide (q.length = hdr.nMessageSize.toNat) := by
  obtain ⟨hdata, -, rfl, hdatapos, -⟩ := hh
  rw [complete, hdata, hdatapos, Bool.true_and, Bool.eq_iff_iff, beq_iff_eq,
    decide_eq_true_iff, eq_comm]

theorem complete_of_header (hh : Holds d (.header q)) : d.complete = false := by
  rw [complete, hh.1, Bool.false_and]

end V1TransportDeserializer

/-- The content of a message, without the time of its arrival. -/
def CNetMessage.content (msg : CNetMessage) : CSerializedNetMsg :=
  { data := msg.m_recv, m_type := msg.m_command }

namespace V1TransportDeserializer

variable {env : TransportEnv} {d : V1TransportDeserializer}

/-- The message of a complete frame. -/
theorem getMessage_spec (env : TransportEnv) {hdr : CMessageHeader} {q : List UInt8}
    (hh : Holds d (.payload hdr q)) (hsize : q.length = hdr.nMessageSize.toNat) (time : Nat) :
    ∃ msg err, d.getMessage env time = (msg, err, d.reset) ∧
      msg.map content = Frame.content env ⟨hdr, q, hsize⟩ := by
  obtain ⟨-, -, rfl, -, hhasher, hroom, hbound, hbuf, hhash⟩ := hh
  have hrecv : d.vRecv = q := by
    rw [← hbuf, take_of_length_le (by omega)]
  have hmsgHash : d.getMessageHash env = env.hash q := by
    rw [getMessageHash, if_pos hhash, hhasher]
  unfold getMessage Frame.content
  simp only [hmsgHash, hrecv]
  by_cases hsum : (env.hash q).val.take checksumSize = d.hdr.pchChecksum.val
  · rw [if_neg (not_not.mpr hsum)]
    by_cases hvalid : d.hdr.isCommandValid
    · rw [if_neg (by simp [hvalid]), if_pos ⟨hsum, hvalid⟩]
      exact ⟨_, _, rfl, rfl⟩
    · rw [if_pos (by simpa using hvalid), if_neg fun h => hvalid h.2]
      exact ⟨_, _, rfl, rfl⟩
  · rw [if_pos hsum, if_neg fun h => hsum h.1]
    exact ⟨_, _, rfl, rfl⟩

/-- One `Read` does what the bytes it takes do to the decoder. -/
theorem read_spec (env : TransportEnv) {a : Decoder} (hsel : d.selectedStart = a.selected)
    (hh : Holds d a.phase)
    (hwf : a.WellFormed) (hd : a.dropped = false) {pch : List UInt8} (hne : pch ≠ []) :
    ∃ n, 0 < n ∧ n ≤ pch.length ∧ ReadsTo env n a (a.feedAll env (pch.take n))
      (d.read env pch) := by
  have hlen := length_pos_iff.mpr hne
  cases hp : a.phase with
  | header p =>
    rw [Decoder.WellFormed, hp] at hwf
    rw [hp] at hh
    have hspec := read_header_spec env hsel hh hwf pch rfl
    refine ⟨min (headerSize - p.length) pch.length, by omega, min_le_right _ _, ?_⟩
    rw [feed_header _ a p hd hp (length_pos_iff.mp ?_) ?_]
    · exact hspec
    · rw [length_take]
      omega
    · rw [length_append, length_take]
      omega
  | payload hdr p =>
    rw [Decoder.WellFormed, hp] at hwf
    rw [hp] at hh
    refine ⟨min (hdr.nMessageSize.toNat - p.length) pch.length, by omega, min_le_right _ _, ?_⟩
    obtain ⟨d', hread, hsel', hh'⟩ := readData_spec hh hwf.1 pch
    generalize hn : min (hdr.nMessageSize.toNat - p.length) pch.length = n at hread hh' ⊢
    have htake : (pch.take n).length = n := length_take_of_le (by omega)
    have hq : (p ++ pch.take n).length ≤ hdr.nMessageSize.toNat := by
      rw [length_append, htake]
      omega
    have hfeed : a.feedAll env (pch.take n) = a.onPayload env hdr (p ++ pch.take n) :=
      feed_payload _ a p hd hp (length_pos_iff.mp (by omega)) hq
    have hresult : d.read env pch = (some n, d') := by
      rw [read, hh.1]
      simp only [if_true, hread]
    rw [hresult]
    refine .inr ⟨rfl, .inr ⟨hdr, p ++ pch.take n, hh', ?_⟩⟩
    rw [hfeed, hsel', hsel]

end V1TransportDeserializer

/-! ## The node -/

/-- A node is in the state of a decoder. -/
structure Refines (node : CNode) (a : Decoder) : Prop where
  selected : node.m_deserializer.selectedStart = a.selected
  delivered : node.vRecvMsg.map content = a.delivered
  holds : Holds node.m_deserializer a.phase
  /-- The serializer uses the selected message start. -/
  serializer : a.dropped = false → ∀ s, a.selected = some s → node.m_serializer.m_message_start = s

namespace CNode

variable {env : TransportEnv} {node : CNode} {a : Decoder}

/-- A new connection. -/
theorem refines_new (env : TransportEnv) (use_legacy_outbound_magic : Bool) :
    Refines (new env use_legacy_outbound_magic) {} :=
  ⟨rfl, rfl, ⟨rfl, rfl, length_replicate, rfl, rfl, rfl, rfl, rfl⟩,
    fun _ s hs => absurd hs (by simp)⟩

/-- After `followMessageStart` the serializer uses the selected message start. -/
theorem followMessageStart_spec (node : CNode) :
    node.followMessageStart.m_deserializer = node.m_deserializer ∧
      node.followMessageStart.vRecvMsg = node.vRecvMsg ∧
      ∀ s, node.m_deserializer.selectedStart = some s →
        node.followMessageStart.m_serializer.m_message_start = s := by
  unfold followMessageStart selectedStart
  split_ifs with hsel
  · exact ⟨rfl, rfl, fun s hs => some.inj hs⟩
  · exact ⟨rfl, rfl, fun s hs => absurd hs (by simp)⟩

/-- Taking the message of a payload, if it is complete. -/
theorem takeMessage_spec (env : TransportEnv) (time : Nat) {hdr : CMessageHeader} {q : List UInt8}
    (hh : Holds node.m_deserializer (.payload hdr q))
    (hsel : node.m_deserializer.selectedStart = a.selected)
    (hdel : node.vRecvMsg.map content = a.delivered)
    (hser : ∀ s, a.selected = some s → node.m_serializer.m_message_start = s) :
    Refines (node.takeMessage env time).2 (a.onPayload env hdr q) ∧
      (a.onPayload env hdr q).dropped = a.dropped := by
  unfold takeMessage onPayload
  rw [complete_of_payload hh]
  by_cases hfull : q.length = hdr.nMessageSize.toNat
  · obtain ⟨msg, err, hget, hcontent⟩ :=
      getMessage_spec env hh hfull time
    rw [dif_pos hfull, if_pos (decide_eq_true hfull), hget]
    have hreset := holds_reset node.m_deserializer
    unfold finish
    rw [← hcontent]
    cases msg <;> exact ⟨⟨hsel, by simp [hdel], hreset, fun _ => hser⟩, rfl⟩
  · rw [dif_neg hfull, if_neg (by simpa using hfull)]
    exact ⟨⟨hsel, hdel, hh, fun _ => hser⟩, rfl⟩

/-- The loop does to the node what the bytes do to the decoder, and never runs out of fuel. -/
theorem receiveLoop_refines (time : Nat) (fuel : Nat) :
    ∀ (pch : List UInt8) (complete : Bool) (node : CNode) (a : Decoder), pch.length ≤ fuel →
      Refines node a → a.WellFormed → a.dropped = false →
      ∃ complete' node', receiveLoop env time fuel pch complete node =
          some (!(a.feedAll env pch).dropped, complete', node') ∧
        Refines node' (a.feedAll env pch) := by
  induction fuel with
  | zero =>
    intro pch complete node a hfuel hr _ hd
    obtain rfl := length_eq_zero_iff.mp (le_zero.mp hfuel)
    exact ⟨complete, node, by rw [receiveLoop, feedAll_nil, hd]; rfl, hr⟩
  | succ fuel ih =>
    intro pch complete node a hfuel hr hwf hd
    cases pch with
    | nil => exact ⟨complete, node, by rw [receiveLoop, feedAll_nil, hd]; rfl, hr⟩
    | cons b bs =>
      generalize hpch : b :: bs = pch at hfuel
      have hne : pch ≠ [] := by rw [← hpch]; simp
      obtain ⟨n, hpos, hle, hread⟩ :=
        read_spec env hr.selected hr.holds hwf hd hne
      have hsplit : a.feedAll env pch = (a.feedAll env (pch.take n)).feedAll env (pch.drop n) := by
        rw [← feedAll_append, take_append_drop]
      have hfuel' : (pch.drop n).length ≤ fuel := by
        rw [length_drop]
        omega
      obtain ⟨frames, rest, hdec⟩ := @decodes_feedAll env (pch.take n) a hwf hd
      have hwf1 := hdec.wellFormed
      generalize ha1 : a.feedAll env (pch.take n) = a1 at hread hsplit hwf1
      rw [hsplit, ← hpch, receiveLoop, hpch]
      generalize node.m_deserializer.read env pch = r at hread ⊢
      obtain ⟨handled, d'⟩ := r
      rcases hread with ⟨rfl, hsel', hh', hdrop⟩ | ⟨rfl, hwhere⟩
      · -- The connection is dropped.
        generalize a1.selected = selected at hsel' hdrop
        subst hdrop
        rw [feedAll_dropped rfl]
        exact ⟨complete, _, rfl, hsel', hr.delivered, hh', fun h => by cases h⟩
      · simp only
        obtain ⟨hfollowDes, hfollowRecv, hfollow⟩ :=
          followMessageStart_spec { node with m_deserializer := d' }
        generalize hnode1 : ({ node with m_deserializer := d' } : CNode).followMessageStart = node1
          at hfollowDes hfollowRecv hfollow ⊢
        simp only at hfollowDes hfollowRecv hfollow
        have hdel1 : node1.vRecvMsg.map content = a.delivered := by
          rw [hfollowRecv]
          exact hr.delivered
        rcases hwhere with ⟨q, hh', rfl⟩ | ⟨hdr, q, hh', rfl⟩
        · -- The header is not complete, so there is no message to take.
          rw [← hfollowDes] at hh'
          have htake : node1.takeMessage env time = (false, node1) := by
            rw [takeMessage, complete_of_header hh']
            rfl
          rw [htake]
          exact ih _ _ _ _ hfuel' ⟨by rw [hfollowDes], hdel1, hh', fun _ => hfollow⟩ hwf1 hd
        · rw [← hfollowDes] at hh'
          obtain ⟨hr1, hd1⟩ := takeMessage_spec
            (a := { a with selected := d'.selectedStart }) env time
            hh' (by rw [hfollowDes]) hdel1 hfollow
          exact ih _ _ _ _ hfuel' hr1 hwf1 (hd1.trans hd)

/-- The bytes of the chunks of a connection. -/
def stream (chunks : List (Nat × List UInt8)) : List UInt8 := chunks.flatMap Prod.snd

/-- All chunks of a connection. -/
theorem receiveChunks_refines (env : TransportEnv) (chunks : List (Nat × List UInt8)) :
    ∀ (node : CNode) (a : Decoder), Refines node a → a.WellFormed → a.dropped = false →
      ∃ node', node.receiveChunks env chunks =
          some (!(a.feedAll env (stream chunks)).dropped, node') ∧
        Refines node' (a.feedAll env (stream chunks)) := by
  induction chunks with
  | nil =>
    intro node a hr _ hd
    exact ⟨node, by rw [receiveChunks, stream, flatMap_nil, feedAll_nil, hd]; rfl, hr⟩
  | cons chunk chunks ih =>
    intro node a hr hwf hd
    obtain ⟨time, pch⟩ := chunk
    obtain ⟨complete, node1, hrun, hr1⟩ :=
      receiveLoop_refines time pch.length pch false node a le_rfl hr hwf hd
    obtain ⟨frames, rest, hdec⟩ := @decodes_feedAll env pch a hwf hd
    have hsplit : stream ((time, pch) :: chunks) = pch ++ stream chunks := rfl
    rw [hsplit, feedAll_append, receiveChunks, receiveMsgBytes, hrun]
    cases hd1 : (a.feedAll env pch).dropped with
    | true =>
      rw [feedAll_dropped hd1, hd1]
      exact ⟨node1, rfl, hr1⟩
    | false => exact ih node1 _ hr1 hdec.wellFormed hd1

/-! ## The outcome of a connection -/

/-- The commands and payloads of the queued messages. -/
def delivered (node : CNode) : List CSerializedNetMsg := node.vRecvMsg.map content

/-- How far the current message has been parsed. -/
def position (node : CNode) : Bool × Nat × Nat :=
  (node.m_deserializer.in_data, node.m_deserializer.nHdrPos, node.m_deserializer.nDataPos)

/-- The message start of the connection, once it is selected. -/
def selectedStart (node : CNode) : Option MessageStartChars := node.m_deserializer.selectedStart

/-- The position is that of the decoder. -/
theorem position_eq {node' : CNode} (hr : Refines node a) (hr' : Refines node' a) :
    node.position = node'.position := by
  have hh := hr.holds
  have hh' := hr'.holds
  unfold position
  cases hp : a.phase with
  | header p =>
    rw [hp] at hh hh'
    obtain ⟨h1, h2, -, -, h3, -⟩ := hh
    obtain ⟨h1', h2', -, -, h3', -⟩ := hh'
    rw [h1, h2, h3, h1', h2', h3']
  | payload hdr p =>
    rw [hp] at hh hh'
    obtain ⟨h1, h2, -, h3, -⟩ := hh
    obtain ⟨h1', h2', -, h3', -⟩ := hh'
    rw [h1, h2, h3, h1', h2', h3']

/-- The bytes of a stream, from a new connection on. -/
theorem receiveChunks_new (env : TransportEnv) (use_legacy_outbound_magic : Bool)
    (chunks : List (Nat × List UInt8)) :
    ∃ node frames rest, (new env use_legacy_outbound_magic).receiveChunks env chunks =
        some (!(({} : Decoder).feedAll env (stream chunks)).dropped, node) ∧
      Refines node (({} : Decoder).feedAll env (stream chunks)) ∧
      Decoder.Decodes env {} (stream chunks) frames rest
        (({} : Decoder).feedAll env (stream chunks)) := by
  have hwf : ({} : Decoder).WellFormed := zero_lt_succ _
  obtain ⟨node, hrun, hr⟩ := receiveChunks_refines env chunks (new env use_legacy_outbound_magic) {}
    (refines_new env use_legacy_outbound_magic) hwf rfl
  obtain ⟨frames, rest, hdec⟩ := @decodes_feedAll env (stream chunks) {} hwf rfl
  exact ⟨node, frames, rest, hrun, hr, hdec⟩

/-- However the bytes of a connection are cut into chunks, the peer is dropped or not, the same
messages are delivered, and while the peer is connected the position in the current message and the
selected message start are the same. A message start that was selected stays; the messages delivered
are those of the frames of the stream, which all carry it; and the serializer uses it. -/
theorem receiveChunks_chunking (env : TransportEnv) (use_legacy_outbound_magic : Bool)
    (chunks chunks' : List (Nat × List UInt8)) (hbytes : stream chunks = stream chunks') :
    ∃ connected node node',
      (new env use_legacy_outbound_magic).receiveChunks env chunks = some (connected, node) ∧
      (new env use_legacy_outbound_magic).receiveChunks env chunks' = some (connected, node') ∧
      node.delivered = node'.delivered ∧
      (connected → node.position = node'.position ∧ node.selectedStart = node'.selectedStart) ∧
      (∀ before after node1 s, chunks = before ++ after →
        (new env use_legacy_outbound_magic).receiveChunks env before = some (true, node1) →
        node1.selectedStart = some s → node.selectedStart = some s) ∧
      (∃ (frames : List Frame) (rest : List UInt8),
        stream chunks = frames.flatMap Frame.bytes ++ rest ∧
        node.delivered = frames.filterMap (Frame.content env) ∧
        ∀ f ∈ frames, node.selectedStart = some f.hdr.pchMessageStart) ∧
      (connected → ∀ s, node.selectedStart = some s → node.m_serializer.m_message_start = s) := by
  obtain ⟨node, frames, rest, hrun, hr, hdec⟩ :=
    receiveChunks_new env use_legacy_outbound_magic chunks
  obtain ⟨node', -, -, hrun', hr', -⟩ := receiveChunks_new env use_legacy_outbound_magic chunks'
  rw [← hbytes] at hrun' hr'
  refine ⟨_, node, node', hrun, hrun', hr.delivered.trans hr'.delivered.symm, ?_, ?_, ?_, ?_⟩
  · exact fun _ => ⟨position_eq hr hr', hr.selected.trans hr'.selected.symm⟩
  · intro before after node1 s hsplit hrun1 hs
    obtain ⟨node2, frames1, rest1, hrun2, hr2, hdec1⟩ :=
      receiveChunks_new env use_legacy_outbound_magic before
    rw [hrun1, some.injEq, Prod.mk.injEq] at hrun2
    obtain ⟨hconnected, rfl⟩ := hrun2
    have hd : (({} : Decoder).feedAll env (stream before)).dropped = false := by
      simpa using hconnected.symm
    -- The bytes after those that selected the start do not change it.
    have hstream : stream chunks = stream before ++ stream after := by
      rw [hsplit, stream, flatMap_append]
      rfl
    obtain ⟨frames2, rest2, hdec2⟩ := @decodes_feedAll env (stream after) _ hdec1.wellFormed hd
    rw [← feedAll_append, ← hstream] at hdec2
    exact hr.selected.trans (hdec2.selected s (hr2.selected.symm.trans hs))
  · refine ⟨frames, rest, hdec.bytes, hr.delivered.trans hdec.delivered, ?_⟩
    exact fun f hf => hr.selected.trans (hdec.carried f hf)
  · intro hconnected s hs
    exact hr.serializer (by simpa using hconnected) s (hr.selected.symm.trans hs)

/-- The magics of the main network, with a hash that is always null. -/
def toyEnv : TransportEnv where
  messageStartDefcoinMagic := ⟨[0xde, 0xfc, 0x01, 0x4e], rfl⟩
  messageStartLegacyMagic := ⟨[0xfb, 0xc0, 0xb6, 0xdb], rfl⟩
  acceptLegacyMagic := true
  hash _ := nullHash

/-- A `ping` with one byte of payload, under the legacy start, and an unfinished second header. -/
def toyStream : List UInt8 :=
  [0xfb, 0xc0, 0xb6, 0xdb, 0x70, 0x69, 0x6e, 0x67, 0, 0, 0, 0, 0, 0, 0, 0, 1, 0, 0, 0, 0,
    0, 0, 0, 7,
    0xfb, 0xc0]

/-- Cut into one chunk or into single bytes, the stream delivers the message. -/
theorem receiveChunks_chunking_ping : ∃ node node',
    (new toyEnv false).receiveChunks toyEnv [(0, toyStream)] = some (true, node) ∧
    (new toyEnv false).receiveChunks toyEnv (toyStream.map fun b => (1, [b])) = some (true, node') ∧
    node.delivered = [{ data := [7], m_type := [0x70, 0x69, 0x6e, 0x67] }] ∧
    node'.delivered = node.delivered ∧ node.position = (false, 2, 0) ∧
    node'.position = node.position ∧
    node.selectedStart = some toyEnv.messageStartLegacyMagic := by
  obtain ⟨connected, node, node', hrun, hrun', hdel, hpos, -⟩ :=
    receiveChunks_chunking toyEnv false [(0, toyStream)] (toyStream.map fun b => (1, [b]))
      (by decide)
  have heval : ((new toyEnv false).receiveChunks toyEnv [(0, toyStream)]).map
      (fun r => (r.1, r.2.delivered, r.2.position, r.2.selectedStart)) =
      some (true, [{ data := [7], m_type := [0x70, 0x69, 0x6e, 0x67] }], (false, 2, 0),
        some toyEnv.messageStartLegacyMagic) := rfl
  rw [hrun, map_some, some.injEq, Prod.mk.injEq, Prod.mk.injEq, Prod.mk.injEq] at heval
  obtain ⟨hconn, hdel1, hpos1, hsel1⟩ := heval
  subst hconn
  exact ⟨node, node', hrun, hrun', hdel1, hdel.symm, hpos1, (hpos rfl).1.symm, hsel1⟩

end CNode

end DefcoinCore.Net
