import DefcoinCore.Net.Transport

/-!
# The byte stream of a connection

What the transport is for, one byte at a time. A stream is a sequence of frames, a header and a
payload each, that all carry one message start. `Decoder.feed` takes the next byte: it grows the
header, selects the message start at the fourth byte, checks the header at the last one, grows the
payload, and delivers the message of a frame at its last byte when its checksum and its command are
right.

Bytes of one header, or of one payload, can be fed at once (`feed_header`, `feed_payload`): the test
of the message start only gets stricter as the header grows. `decodes_feedAll` says what was
delivered in terms of the frames of the stream.
-/

namespace DefcoinCore.Net

open DefcoinCore List Option

/-! ## Frames -/

/-- A message as it stands in the stream. -/
structure Frame where
  hdr : CMessageHeader
  payload : List UInt8
  size : payload.length = hdr.nMessageSize.toNat

namespace Frame

/-- The bytes of a frame. -/
def bytes (f : Frame) : List UInt8 := f.hdr.bytes ++ f.payload

/-- The message of a frame whose checksum and command are right. -/
def content (env : TransportEnv) (f : Frame) : Option CSerializedNetMsg :=
  if (env.hash f.payload).val.take checksumSize = f.hdr.pchChecksum.val ∧ f.hdr.isCommandValid
  then some { data := f.payload, m_type := f.hdr.getCommand }
  else none

end Frame

/-! ## The decoder -/

/-- What has been received of the current frame. -/
inductive Phase where
  | header (bytes : List UInt8)
  | payload (hdr : CMessageHeader) (bytes : List UInt8)

/-- The state of a connection. -/
structure Decoder where
  selected : Option MessageStartChars := none
  phase : Phase := .header []
  delivered : List CSerializedNetMsg := []
  dropped : Bool := false

/-- The first bytes of a header agree with a message start. -/
def Starts (s : MessageStartChars) (header : List UInt8) : Prop :=
  header.take messageStartSize <+: s.val

instance (s : MessageStartChars) (header : List UInt8) : Decidable (Starts s header) := by
  unfold Starts
  infer_instance

/-- The message start after some bytes of a header, if they agree with one that may be used. -/
def selectStart (env : TransportEnv) (selected : Option MessageStartChars) (header : List UInt8) :
    Option (Option MessageStartChars) :=
  match selected with
  | some s => if Starts s header then some (some s) else none
  | none =>
    if Starts env.messageStartDefcoinMagic header then
      some (if messageStartSize ≤ header.length then some env.messageStartDefcoinMagic else none)
    else if env.acceptLegacyMagic ∧ Starts env.messageStartLegacyMagic header then
      some (if messageStartSize ≤ header.length then some env.messageStartLegacyMagic else none)
    else none

namespace Decoder

variable (env : TransportEnv) (a : Decoder)

/-- The connection is dropped. -/
def drop : Decoder := { a with phase := .header [], dropped := true }

/-- The payload is complete: its message is delivered, if there is one. -/
def finish (f : Frame) : Decoder :=
  { a with phase := .header [], delivered := a.delivered ++ (f.content env).toList }

/-- Some bytes of a payload have been received. -/
def onPayload (hdr : CMessageHeader) (bytes : List UInt8) : Decoder :=
  if h : bytes.length = hdr.nMessageSize.toNat then a.finish env ⟨hdr, bytes, h⟩
  else { a with phase := .payload hdr bytes }

/-- A header has been received. -/
def onHeaderEnd (bytes : List UInt8) : Decoder :=
  match CMessageHeader.unserialize bytes with
  | .error _ => a.drop
  | .ok (hdr, _) =>
    if hdr.nMessageSize.toNat ≤ maxProtocolMessageLength then a.onPayload env hdr [] else a.drop

/-- Some bytes of a header have been received. -/
def onHeader (bytes : List UInt8) : Decoder :=
  match selectStart env a.selected bytes with
  | none => a.drop
  | some selected =>
    let a := { a with selected := selected }
    if bytes.length < headerSize then { a with phase := .header bytes } else a.onHeaderEnd env bytes

/-- The next byte. -/
def feed (b : UInt8) : Decoder :=
  if a.dropped then a
  else
    match a.phase with
    | .header bytes => a.onHeader env (bytes ++ [b])
    | .payload hdr bytes => a.onPayload env hdr (bytes ++ [b])

/-- Bytes one after the other. -/
def feedAll (bytes : List UInt8) : Decoder := bytes.foldl (feed env) a

end Decoder

/-! ## Selecting the message start -/

section Select

variable {env : TransportEnv} {s : MessageStartChars} {q : List UInt8}

variable {selected selected' : Option MessageStartChars}

/-- More bytes can only disagree. -/
theorem Starts.of_append {r : List UInt8} (h : Starts s (q ++ r)) : Starts s q := by
  refine List.IsPrefix.trans ?_ h
  rw [take_append]
  exact prefix_append _ _

/-- From four bytes on, no more bytes are compared. -/
theorem starts_append_iff (r : List UInt8) (hq : messageStartSize ≤ q.length) :
    Starts s (q ++ r) ↔ Starts s q := by
  unfold Starts
  rw [take_append_of_le_length hq]

/-- Once four bytes agree, they are the message start. -/
theorem Starts.take_eq (h : Starts s q) (hq : messageStartSize ≤ q.length) :
    q.take messageStartSize = s.val :=
  h.eq_of_length (by rw [length_take_of_le hq, s.property])

/-- Bytes that are refused stay refused. -/
theorem selectStart_append_none (r : List UInt8) (h : selectStart env selected q = none) :
    selectStart env selected (q ++ r) = none := by
  cases selected with
  | some s =>
    simp only [selectStart, ite_eq_right_iff, reduceCtorEq, imp_false] at h ⊢
    exact fun hs => h hs.of_append
  | none =>
    simp only [selectStart] at h ⊢
    split_ifs at h with h1 h2
    rw [if_neg fun hs => h1 hs.of_append, if_neg fun hs => h2 ⟨hs.1, hs.2.of_append⟩]

/-- A selected message start stays. -/
theorem selectStart_some (h : selectStart env (some s) q = some selected') :
    selected' = some s := by
  simp only [selectStart] at h
  split_ifs at h
  exact (some.inj h).symm

/-- After four bytes, a message start is selected, and the bytes are that start. -/
theorem selectStart_of_le (h : selectStart env selected q = some selected')
    (hq : messageStartSize ≤ q.length) :
    ∃ s, selected' = some s ∧ q.take messageStartSize = s.val := by
  cases selected with
  | some s =>
    simp only [selectStart] at h
    split_ifs at h with hs
    exact ⟨s, (some.inj h).symm, hs.take_eq hq⟩
  | none =>
    simp only [selectStart, if_pos hq] at h
    split_ifs at h with h1 h2
    · exact ⟨_, (some.inj h).symm, h1.take_eq hq⟩
    · exact ⟨_, (some.inj h).symm, h2.2.take_eq hq⟩

/-- From four bytes on, nothing more is selected. -/
theorem selectStart_none_append (r : List UInt8) (hq : messageStartSize ≤ q.length) :
    selectStart env none (q ++ r) = selectStart env none q := by
  have hlen : messageStartSize ≤ (q ++ r).length := by
    rw [length_append]
    omega
  simp only [selectStart, starts_append_iff r hq, if_pos hq, if_pos hlen]

/-- Before that, nothing is selected yet. -/
theorem selectStart_none_of_lt (hq : ¬ messageStartSize ≤ q.length)
    (h : selectStart env none q = some selected') : selected' = none := by
  simp only [selectStart, if_neg hq] at h
  split_ifs at h <;> exact (some.inj h).symm

/-- Selecting after some bytes, and after more bytes, is selecting at once. -/
theorem selectStart_append (r : List UInt8) (h : selectStart env selected q = some selected') :
    selectStart env selected' (q ++ r) = selectStart env selected (q ++ r) := by
  cases selected with
  | some s => rw [selectStart_some h]
  | none =>
    by_cases hq : messageStartSize ≤ q.length
    · rw [selectStart_none_append r hq, h]
      obtain ⟨s, rfl, hs⟩ := selectStart_of_le h hq
      exact if_pos ((starts_append_iff r hq).mpr (by rw [Starts, hs]))
    · rw [selectStart_none_of_lt hq h]

/-- A message start that is selected by some bytes is not refused by more of the header. -/
theorem selectStart_eq_of_refused {r : List UInt8} (h : selectStart env selected q = some selected')
    (hrefused : selectStart env selected (q ++ r) = none) : selected' = selected := by
  cases selected with
  | some s => exact selectStart_some h
  | none =>
    by_cases hq : messageStartSize ≤ q.length
    · rw [selectStart_none_append r hq, h] at hrefused
      cases hrefused
    · exact selectStart_none_of_lt hq h

end Select

/-! ## Feeding many bytes -/

namespace Decoder

variable {env : TransportEnv} {a : Decoder} {hdr : CMessageHeader} {bytes : List UInt8}

@[simp]
theorem feedAll_nil : a.feedAll env [] = a := rfl

theorem feedAll_cons (b : UInt8) (bytes : List UInt8) :
    a.feedAll env (b :: bytes) = (a.feed env b).feedAll env bytes := rfl

theorem feedAll_append (bytes bytes' : List UInt8) :
    a.feedAll env (bytes ++ bytes') = (a.feedAll env bytes).feedAll env bytes' :=
  foldl_append

/-- A dropped connection takes no more bytes. -/
theorem feedAll_dropped (h : a.dropped) (bytes : List UInt8) : a.feedAll env bytes = a := by
  induction bytes with
  | nil => rfl
  | cons b bytes ih =>
    rw [feedAll_cons, feed, if_pos h]
    exact ih

theorem feed_of_header {p : List UInt8} (hd : a.dropped = false) (hp : a.phase = .header p)
    (b : UInt8) : a.feed env b = a.onHeader env (p ++ [b]) := by
  rw [feed, hd, hp]
  rfl

theorem feed_of_payload {p : List UInt8} (hd : a.dropped = false) (hp : a.phase = .payload hdr p)
    (b : UInt8) : a.feed env b = a.onPayload env hdr (p ++ [b]) := by
  rw [feed, hd, hp]
  rfl

/-- What follows a payload does not depend on the phase before. -/
theorem onPayload_phase (phase : Phase) (hdr : CMessageHeader) (q : List UInt8) :
    { a with phase := phase }.onPayload env hdr q = a.onPayload env hdr q := by
  unfold onPayload
  split_ifs <;> rfl

theorem onHeaderEnd_phase (phase : Phase) (q : List UInt8) :
    { a with phase := phase }.onHeaderEnd env q = a.onHeaderEnd env q := by
  unfold onHeaderEnd
  split
  · rfl
  · split_ifs
    · exact onPayload_phase phase _ _
    · rfl

/-- The end of a header, for the header of the bytes. -/
theorem onHeaderEnd_bytes (hdr : CMessageHeader) :
    a.onHeaderEnd env hdr.bytes =
      if hdr.nMessageSize.toNat ≤ maxProtocolMessageLength then a.onPayload env hdr []
        else a.drop := by
  have hread := CMessageHeader.reads_header hdr []
  rw [append_nil] at hread
  unfold onHeaderEnd
  rw [hread]

/-- The bytes of one header, fed one by one, are received at once. -/
theorem feed_header (c : List UInt8) :
    ∀ (a : Decoder) (p : List UInt8), a.dropped = false → a.phase = .header p → c ≠ [] →
      (p ++ c).length ≤ headerSize →
      a.feedAll env c = a.onHeader env (p ++ c) := by
  induction c with
  | nil => exact fun a p _ _ hne => absurd rfl hne
  | cons b c ih =>
    intro a p hd hp _ hlen
    rw [feedAll_cons, feed_of_header hd hp]
    cases c with
    | nil => rfl
    | cons b' c =>
      rw [append_cons p b (b' :: c)] at hlen ⊢
      have hlt : (p ++ [b]).length < headerSize := by
        rw [length_append, length_cons] at hlen
        omega
      cases hsel : selectStart env a.selected (p ++ [b]) with
      | none =>
        rw [onHeader, hsel, onHeader, selectStart_append_none _ hsel]
        exact feedAll_dropped rfl _
      | some selected =>
        have hfirst : a.onHeader env (p ++ [b]) =
            { a with selected := selected, phase := .header (p ++ [b]) } := by
          rw [onHeader, hsel]
          exact if_pos hlt
        have hrest := ih { a with selected := selected, phase := .header (p ++ [b]) }
          (p ++ [b]) hd rfl (by simp) hlen
        rw [hfirst, hrest]
        -- The selection made so far does not matter for the rest of the header.
        unfold onHeader
        simp only [selectStart_append (b' :: c) hsel]
        cases hsel' : selectStart env a.selected (p ++ [b] ++ b' :: c) with
        | none =>
          rw [selectStart_eq_of_refused hsel hsel']
          rfl
        | some selected' =>
          split_ifs
          · rfl
          · exact onHeaderEnd_phase (a := { a with selected := selected' }) _ _

/-- The bytes of one payload, fed one by one, are received at once. -/
theorem feed_payload (c : List UInt8) :
    ∀ (a : Decoder) (p : List UInt8), a.dropped = false → a.phase = .payload hdr p → c ≠ [] →
      (p ++ c).length ≤ hdr.nMessageSize.toNat →
      a.feedAll env c = a.onPayload env hdr (p ++ c) := by
  induction c with
  | nil => exact fun a p _ _ hne => absurd rfl hne
  | cons b c ih =>
    intro a p hd hp _ hlen
    rw [feedAll_cons, feed_of_payload hd hp]
    cases c with
    | nil => rfl
    | cons b' c =>
      rw [append_cons p b (b' :: c)] at hlen ⊢
      have hne : (p ++ [b]).length ≠ hdr.nMessageSize.toNat := by
        rw [length_append, length_cons] at hlen
        omega
      have hfirst : a.onPayload env hdr (p ++ [b]) =
          { a with phase := .payload hdr (p ++ [b]) } := dif_neg hne
      have hrest := ih { a with phase := .payload hdr (p ++ [b]) } (p ++ [b]) hd rfl (by simp) hlen
      rw [hfirst, hrest, onPayload_phase]

/-! ## The frames of a stream -/

/-- The bytes of the current frame that have been received. -/
def pending (a : Decoder) : List UInt8 :=
  match a.phase with
  | .header p => p
  | .payload hdr p => hdr.bytes ++ p

/-- The current frame is not complete, and its header was accepted. -/
def WellFormed (a : Decoder) : Prop :=
  match a.phase with
  | .header p => p.length < headerSize
  | .payload hdr p => p.length < hdr.nMessageSize.toNat ∧ a.selected = some hdr.pchMessageStart

/-- What some bytes did to a connection: the frames they completed were delivered as far as they
hold messages, and all of them carried the selected message start. -/
structure Decodes (env : TransportEnv) (a : Decoder) (bytes : List UInt8) (frames : List Frame)
    (rest : List UInt8) (a' : Decoder) : Prop where
  wellFormed : a'.WellFormed
  selected : ∀ s, a.selected = some s → a'.selected = some s
  bytes : a.pending ++ bytes = frames.flatMap Frame.bytes ++ rest
  delivered : a'.delivered = a.delivered ++ frames.filterMap (Frame.content env)
  carried : ∀ f ∈ frames, a'.selected = some f.hdr.pchMessageStart
  rest : a'.dropped = false → rest = a'.pending

/-- A dropped connection delivered nothing more. -/
theorem Decodes.of_drop {a' : Decoder} (hselected : ∀ s, a.selected = some s → a'.selected = some s)
    (hdelivered : a'.delivered = a.delivered) :
    Decodes env a bytes [] (a.pending ++ bytes) a'.drop :=
  ⟨by rw [WellFormed, drop]; exact Nat.zero_lt_succ _, hselected, rfl, by simp [drop, hdelivered],
    fun f hf => absurd hf (by simp), fun h => absurd h (by simp [drop])⟩

/-- The payload grows, and its frame is delivered when it is complete. -/
theorem decodes_onPayload {q : List UInt8} (hbytes : a.pending ++ bytes = hdr.bytes ++ q)
    {a' : Decoder}
    (hselected : ∀ s, a.selected = some s → a'.selected = some s)
    (hdelivered : a'.delivered = a.delivered)
    (hcarried : a'.selected = some hdr.pchMessageStart) (hlen : q.length ≤ hdr.nMessageSize.toNat) :
    ∃ frames rest, Decodes env a bytes frames rest (a'.onPayload env hdr q) := by
  by_cases hfull : q.length = hdr.nMessageSize.toNat
  · have heq : a'.onPayload env hdr q = a'.finish env ⟨hdr, q, hfull⟩ := dif_pos hfull
    rw [heq]
    refine ⟨[⟨hdr, q, hfull⟩], [], ?_, hselected, ?_, ?_, forall_mem_singleton.mpr hcarried,
      fun _ => rfl⟩
    · exact Nat.zero_lt_succ _
    · rw [hbytes]
      simp [Frame.bytes]
    · rw [finish, hdelivered]
      cases hc : Frame.content env ⟨hdr, q, hfull⟩ <;> simp [hc]
  · have heq : a'.onPayload env hdr q = { a' with phase := .payload hdr q } := dif_neg hfull
    rw [heq]
    refine ⟨[], _, ?_, hselected, rfl, ?_, fun f hf => absurd hf (by simp), fun _ => hbytes⟩
    · exact ⟨by omega, hcarried⟩
    · rw [hdelivered]
      simp

/-- The header grows, and is checked when it is complete. -/
theorem decodes_onHeader {q : List UInt8} (hbytes : a.pending ++ bytes = q)
    (hlen : q.length ≤ headerSize) :
    ∃ frames rest, Decodes env a bytes frames rest (a.onHeader env q) := by
  unfold onHeader
  cases hsel : selectStart env a.selected q with
  | none => exact ⟨[], _, .of_drop (fun _ h => h) rfl⟩
  | some selected =>
    have hselected : ∀ s, a.selected = some s → selected = some s := by
      intro s hs
      rw [hs] at hsel
      exact selectStart_some hsel
    simp only
    split_ifs with hshort
    · refine ⟨[], q, hshort, hselected, hbytes, by simp, fun f hf => absurd hf (by simp),
        fun _ => rfl⟩
    · have h24 : q.length = headerSize := le_antisymm hlen (not_lt.mp hshort)
      obtain ⟨hdr, hhdr⟩ := CMessageHeader.exists_header h24
      rw [← hhdr, onHeaderEnd_bytes]
      -- The four bytes that were compared are the message start of the header.
      obtain ⟨s, hs, hstart⟩ := selectStart_of_le hsel (by rw [h24]; decide)
      have hcarried : selected = some hdr.pchMessageStart := by
        rw [hs, some.injEq]
        refine Subtype.ext ?_
        rw [← hstart, ← hhdr, CMessageHeader.bytes]
        exact take_left' hdr.pchMessageStart.property
      split_ifs
      · exact decodes_onPayload (by rw [hbytes, hhdr, append_nil]) hselected rfl hcarried
          (Nat.zero_le _)
      · exact ⟨[], _, .of_drop hselected rfl⟩

/-- One byte. -/
theorem decodes_feed (hwf : a.WellFormed) (hd : a.dropped = false) (b : UInt8) :
    ∃ frames rest, Decodes env a [b] frames rest (a.feed env b) := by
  cases hp : a.phase with
  | header p =>
    rw [WellFormed, hp] at hwf
    rw [feed_of_header hd hp]
    refine decodes_onHeader (by rw [pending, hp]) ?_
    rw [length_append, length_singleton]
    exact hwf
  | payload hdr p =>
    rw [WellFormed, hp] at hwf
    rw [feed_of_payload hd hp]
    refine decodes_onPayload (by rw [pending, hp, append_assoc]) (fun _ h => h) rfl hwf.2 ?_
    rw [length_append, length_singleton]
    exact hwf.1

/-- Any number of bytes. -/
theorem decodes_feedAll (bytes : List UInt8) :
    ∀ a : Decoder, a.WellFormed → a.dropped = false →
      ∃ frames rest, Decodes env a bytes frames rest (a.feedAll env bytes) := by
  induction bytes with
  | nil =>
    intro a hwf hd
    exact ⟨[], a.pending, hwf, fun _ h => h, by simp, by simp, fun f hf => absurd hf (by simp),
      fun _ => rfl⟩
  | cons b bytes ih =>
    intro a hwf hd
    obtain ⟨frames, rest, h⟩ := @decodes_feed env a hwf hd b
    rw [feedAll_cons]
    cases hd1 : (a.feed env b).dropped with
    | true =>
      rw [feedAll_dropped hd1]
      refine ⟨frames, rest ++ bytes, h.wellFormed, h.selected, ?_, h.delivered, h.carried, ?_⟩
      · rw [← append_assoc, ← h.bytes]
        simp
      · intro hfalse
        simp [hd1] at hfalse
    | false =>
      obtain ⟨frames', rest', h'⟩ := ih _ h.wellFormed hd1
      refine ⟨frames ++ frames', rest', h'.wellFormed, fun s hs =>
        h'.selected s (h.selected s hs), ?_,
        ?_, ?_, h'.rest⟩
      · rw [flatMap_append, append_assoc, ← h'.bytes, ← h.rest hd1, ← append_assoc, ← h.bytes]
        simp
      · rw [h'.delivered, h.delivered, filterMap_append, append_assoc]
      · exact forall_mem_append.mpr ⟨fun f hf => h'.selected _ (h.carried f hf), h'.carried⟩

end Decoder

end DefcoinCore.Net
