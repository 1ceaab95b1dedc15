/-
# The wire

What is written arrives, whatever follows it, and what is read was written.  There are three layers, and each is
settled by one statement:

* the records (section 1): a codec of a fixed width is a bijection between its values and the byte strings of that
  width, because it is built from such codecs by pairing (`Codec.bijective`);
* the messages (section 2): a length in front of a body.  A read that succeeds says what the stream began with
  (`readExact_iff`, `readMessageRaw_iff`, `readRequestRaw_iff`), so the two directions, that a message arrives and that
  nothing arrives that is none, are one equivalence;
* the requests (section 3): a kind and a message, on the side of the server (`requests_iff`).

Requests are canonical but for `PING`: its number has a variable width, and a reader takes all of them.  So a server can
find a ping in bytes that no client writes, and `requests_iff` leaves that case out of its second half.

Nothing here is about connections.  Who may send, and how many requests a node takes on at a time, is the subject of
`Inbound`; what it answers, of `Exchange`.
-/
import Rostra.P2p.Connection

namespace Rostra.P2p

open Rostra Codec

/-! ## 1. Records

Three facts about every record, in the order in which they are composed: its decoder inverts its encoder on the
nose (`Canonical`), all its encodings have one length (`Sized`), and a string of that length decodes (`Reads`).
Together they are the bijection. -/

theorem rostraId_canonical : Bincode.rostraId.Canonical :=
  ((bytes_canonical 16).pair (bytes_canonical 16)).map

theorem rostraId_sized : Bincode.rostraId.Sized 32 := ((bytes_sized 16).pair (bytes_sized 16)).map

theorem rostraId_reads : Bincode.rostraId.Reads 32 :=
  ((bytes_reads 16).pair (bytes_canonical 16) (bytes_sized 16) (bytes_reads 16)).map

theorem nullableShortEventId_canonical : Bincode.nullableShortEventId.Canonical := (bytes_canonical 16).map

theorem nullableShortEventId_sized : Bincode.nullableShortEventId.Sized 16 := (bytes_sized 16).map

theorem nullableShortEventId_reads : Bincode.nullableShortEventId.Reads 16 := (bytes_reads 16).map

theorem event_canonical : Bincode.event.Canonical :=
  ((bytes_canonical 1).pair <| (bytes_canonical 1).pair <| (bytes_canonical 2).pair <| (bytes_canonical 4).pair <|
    (bytes_canonical 8).pair <| (bytes_canonical 16).pair <| rostraId_canonical.pair <|
    nullableShortEventId_canonical.pair <| nullableShortEventId_canonical.pair <| bytes_canonical 32).map

theorem event_sized : Bincode.event.Sized 128 :=
  ((bytes_sized 1).pair <| (bytes_sized 1).pair <| (bytes_sized 2).pair <| (bytes_sized 4).pair <|
    (bytes_sized 8).pair <| (bytes_sized 16).pair <| rostraId_sized.pair <|
    nullableShortEventId_sized.pair <| nullableShortEventId_sized.pair <| bytes_sized 32).map

theorem event_reads : Bincode.event.Reads 128 :=
  ((bytes_reads 1).pair (bytes_canonical 1) (bytes_sized 1) <|
    (bytes_reads 1).pair (bytes_canonical 1) (bytes_sized 1) <|
    (bytes_reads 2).pair (bytes_canonical 2) (bytes_sized 2) <|
    (bytes_reads 4).pair (bytes_canonical 4) (bytes_sized 4) <|
    (bytes_reads 8).pair (bytes_canonical 8) (bytes_sized 8) <|
    (bytes_reads 16).pair (bytes_canonical 16) (bytes_sized 16) <|
    rostraId_reads.pair rostraId_canonical rostraId_sized <|
    nullableShortEventId_reads.pair nullableShortEventId_canonical nullableShortEventId_sized <|
    nullableShortEventId_reads.pair nullableShortEventId_canonical nullableShortEventId_sized <|
    bytes_reads 32).map

/-- An encoding belongs to one signed event. -/
theorem signedEvent_canonical : Bincode.signedEvent.Canonical := event_canonical.pair (bytes_canonical 64)

/-- Its 192 bytes are the 128 of the header and the 64 of the signature. -/
theorem signedEvent_sized : Bincode.signedEvent.Sized 192 := event_sized.pair (bytes_sized 64)

/-- No string of 192 bytes is refused: every field takes every value of its width. -/
theorem signedEvent_reads : Bincode.signedEvent.Reads 192 :=
  event_reads.pair event_canonical event_sized (bytes_reads 64)

/-- **A signed event is 192 bytes, and 192 bytes are one signed event**: the record is fixed, no two headers
share an encoding, and what is hashed and signed is its first 128 bytes. -/
theorem signedEvent_bijective :
    (∀ b : Bytes, b.length = 192 → ∃! s, Bincode.signedEvent.encode s = b) ∧
      ∀ s, (Bincode.signedEvent.encode s).length = 192 ∧
        (Bincode.signedEvent.encode s).take 128 = Bincode.event.encode s.1 := by
  refine ⟨fun b hb => Codec.bijective signedEvent_canonical signedEvent_sized signedEvent_reads hb, fun s => ?_⟩
  exact ⟨signedEvent_sized s, List.take_left' (event_sized s.1)⟩

/-- A string in which no two bytes are equal. -/
def countingBytes : Bytes := (List.range 192).map UInt8.ofNat

/-- The event whose encoding counts from 0 to 191: every byte tells its place. -/
def countingEvent : Bincode.SignedEvent :=
  (⟨⟨0x00, 0x01, ⟨0x0203⟩, 0x04050607, 0x08090a0b0c0d0e0f, 0x101112131415161718191a1b1c1d1e1f,
      toLex (0x202122232425262728292a2b2c2d2e2f, 0x303132333435363738393a3b3c3d3e3f),
      some 0x404142434445464748494a4b4c4d4e4f, some 0x505152535455565758595a5b5c5d5e5f,
      0x606162636465666768696a6b6c6d6e6f707172737475767778797a7b7c7d7e7f⟩, by constructor <;> decide⟩,
    ⟨0x808182838485868788898a8b8c8d8e8f909192939495969798999a9b9c9d9e9f * 256 ^ 32 +
      0xa0a1a2a3a4a5a6a7a8a9aaabacadaeafb0b1b2b3b4b5b6b7b8b9babbbcbdbebf, by decide⟩)

/-- A string whose bytes are all different is read field by field and written back. -/
theorem signedEvent_bijective_countingBytes :
    Bincode.signedEvent.encode countingEvent = countingBytes ∧ ∃! s, Bincode.signedEvent.encode s = countingBytes := by
  have hlength : countingBytes.length = 192 := by rw [countingBytes, List.length_map, List.length_range]
  exact ⟨by decide +kernel, signedEvent_bijective.1 countingBytes hlength⟩

/-! ## 2. Streams

`RecvStream` is a reader that returns what it has read and what is left of the stream. `bind_ok` says that a
sequence of reads succeeds exactly if each of them does, on what the one before has left; every equivalence below
is peeled off with it. -/

section Streams

variable {α β : Type} {s rest b : Bytes} {limit : ℕ}

theorem bind_ok {x : RecvStream α} {f : α → RecvStream β} {r : β × Bytes} :
    (x >>= f) s = .ok r ↔ ∃ a s', x s = .ok (a, s') ∧ f a s' = .ok r := by
  show (Except.bind (x s) fun p => f p.1 p.2) = .ok r ↔ _
  cases hx : x s with
  | error e => simp [Except.bind]
  | ok p =>
    constructor
    · intro h
      exact ⟨p.1, p.2, rfl, h⟩
    · rintro ⟨a, s', hp, h⟩
      cases hp
      exact h

theorem bind_of_ok {x : RecvStream α} {f : α → RecvStream β} {a : α} (h : x s = .ok (a, rest)) :
    (x >>= f) s = f a rest := by
  show (Except.bind (x s) fun p => f p.1 p.2) = _
  rw [h]
  rfl

/-- What was read is what the stream began with, and nothing is lost between the two. -/
theorem readExact_iff {n : ℕ} : readExact n s = .ok (b, rest) ↔ s = b ++ rest ∧ b.length = n := by
  unfold readExact
  constructor
  · intro h
    split at h
    · next hle =>
      cases h
      exact ⟨(List.take_append_drop n s).symm, List.length_take_of_le hle⟩
    · cases h
  · rintro ⟨rfl, rfl⟩
    simp

/-- A message is its length in four bytes and then that many bytes, if the length is within the limit. -/
theorem readMessageRaw_iff (hlimit : limit < 256 ^ 4) :
    readMessageRaw limit s = .ok (b, rest) ↔
      s = BigEndian.encode 4 b.length ++ b ++ rest ∧ b.length ≤ limit := by
  unfold readMessageRaw
  constructor
  · intro h
    obtain ⟨lenBytes, s', hlen, h⟩ := bind_ok.mp h
    obtain ⟨hs, hfour⟩ := readExact_iff.mp hlen
    simp only at h
    split at h
    · cases h
    · next hle =>
      obtain ⟨hs', hb⟩ := readExact_iff.mp h
      have hback := BigEndian.encode_value lenBytes
      rw [hfour] at hback
      rw [hs, hs', hb, hback]
      exact ⟨(List.append_assoc ..).symm, not_lt.mp hle⟩
  · rintro ⟨rfl, hle⟩
    have hvalue : BigEndian.value (BigEndian.encode 4 b.length) = b.length :=
      BigEndian.value_encode (hle.trans_lt hlimit)
    refine bind_ok.mpr ⟨BigEndian.encode 4 b.length, b ++ rest, readExact_iff.mpr ⟨List.append_assoc .., by simp⟩, ?_⟩
    simp only [hvalue, if_neg (not_lt.mpr hle)]
    exact readExact_iff.mpr ⟨rfl, rfl⟩

theorem decodeWhole_encode {c : Codec α} {a : α} (h : (c.encode a).length ≤ limit) :
    decodeWhole limit c (c.encode a) = .ok a := by
  have hread := c.decode_encode a []
  rw [List.append_nil] at hread
  rw [decodeWhole, if_neg (not_lt.mpr h), hread]

/-- A body that is decoded to its end is the encoding of what it was decoded to. -/
theorem decodeWhole_canonical {c : Codec α} (hc : c.Canonical) {a : α} (h : decodeWhole limit c b = .ok a) :
    b = c.encode a := by
  unfold decodeWhole at h
  split at h
  · cases h
  · split at h
    · cases h
    · next hread =>
      cases h
      simpa using hc b a [] hread
    · cases h

/-- **A message arrives**, whatever the stream goes on with: the limit of the reader is on the length of the body,
which is the only thing that a writer has to keep. -/
theorem readMessage_writeMessage {c : Codec α} {a : α} (hlimit : limit < 256 ^ 4) (h : (c.encode a).length ≤ limit) :
    readMessage limit c (writeMessage c a ++ rest) = .ok (a, rest) := by
  have hraw : readMessageRaw limit (writeMessage c a ++ rest) = .ok (c.encode a, rest) :=
    (readMessageRaw_iff hlimit).mpr ⟨rfl, h⟩
  refine bind_ok.mpr ⟨_, _, hraw, ?_⟩
  rw [decodeWhole_encode h]
  rfl

/-- A request is two bytes for its kind, and a message that is not larger than any request has to be. -/
theorem readRequestRaw_iff {id : RpcId} :
    readRequestRaw s = .ok ((id, b), rest) ↔
      s = BigEndian.encode 2 id.code ++ (BigEndian.encode 4 b.length ++ b) ++ rest ∧ id.code < 256 ^ 2 ∧
        b.length ≤ MAX_REQUEST_SIZE := by
  have hlimit : MAX_REQUEST_SIZE < 256 ^ 4 := by decide
  unfold readRequestRaw
  constructor
  · intro h
    obtain ⟨idBytes, s', hid, h⟩ := bind_ok.mp h
    obtain ⟨hs, htwo⟩ := readExact_iff.mp hid
    obtain ⟨req, s'', hreq, h⟩ := bind_ok.mp h
    cases h
    obtain ⟨hs', hle⟩ := (readMessageRaw_iff hlimit).mp hreq
    have hback := BigEndian.encode_value idBytes
    have hlt := BigEndian.value_lt idBytes
    rw [htwo] at hback hlt
    rw [hs, hs']
    exact ⟨by simp [hback], hlt, hle⟩
  · rintro ⟨rfl, hid, hle⟩
    refine bind_ok.mpr ⟨BigEndian.encode 2 id.code, _, readExact_iff.mpr ⟨List.append_assoc .., by simp⟩, ?_⟩
    refine bind_ok.mpr ⟨b, rest, (readMessageRaw_iff hlimit).mpr ⟨rfl, hle⟩, ?_⟩
    rw [BigEndian.value_encode hid]
    rfl

end Streams

/-! ## 3. Requests

A server reads a kind and a body before it knows what to expect, and decodes the body by the kind afterwards. So it
is the kind that decides how the body is read, and a request is never taken for one of another kind. -/

theorem rpc?_RPC_ID (rpc : Rpc) : rpc.RPC_ID.rpc? = some rpc := by cases rpc <;> rfl

theorem rpc?_eq_some {id : RpcId} {rpc : Rpc} (h : id.rpc? = some rpc) : id = rpc.RPC_ID := by
  obtain ⟨code⟩ := id
  unfold RpcId.rpc? at h
  split at h <;> cases h <;> simp_all [Rpc.RPC_ID]

/-- All requests but one are canonical. -/
theorem request_canonical {rpc : Rpc} (h : rpc ≠ .PING) : rpc.request.Canonical := by
  cases rpc with
  | PING => exact absurd rfl h
  | FEED_EVENT => exact signedEvent_canonical
  | GET_EVENT | GET_EVENT_CONTENT | WAIT_HEAD_UPDATE => exact bytes_canonical 16
  | GET_HEAD => exact rostraId_canonical
  | WAIT_FOLLOWERS_NEW_HEADS => exact unit_canonical

theorem u64_length (w : Word 8) : (Bincode.u64.encode w).length ≤ 9 := by
  show (if w.1 < 251 then _ else _ : Bytes).length ≤ 9
  split_ifs <;> simp

/-- A request fits, with room to spare. -/
theorem request_length (rpc : Rpc) (v : rpc.Request) : (rpc.request.encode v).length ≤ 192 := by
  cases rpc with
  | PING => exact (u64_length v).trans (by decide)
  | FEED_EVENT => exact (signedEvent_sized v).le
  | GET_EVENT | GET_EVENT_CONTENT | WAIT_HEAD_UPDATE => exact (bytes_sized 16 v).le.trans (by decide)
  | GET_HEAD => exact (rostraId_sized v).le.trans (by decide)
  | WAIT_FOLLOWERS_NEW_HEADS => exact (unit_sized v).le.trans (by decide)

/-- The request that the server finds at the beginning of a stream, and what it leaves. -/
def Requests (s : Bytes) (rpc : Rpc) (v : rpc.Request) (rest : Bytes) : Prop :=
  ∃ id body, readRequestRaw s = .ok ((id, body), rest) ∧ id.rpc? = some rpc ∧
    decodeWhole MAX_REQUEST_SIZE rpc.request body = .ok v

/-- **A request is taken for what it is**, of whatever kind and whatever follows it in the stream, and it is
never too large.  But for the spellings of a ping, a stream in which the server finds a request begins with
the bytes that a client writes for it. -/
theorem requests_iff (rpc : Rpc) (v : rpc.Request) (rest : Bytes) :
    Requests (rpcRequestToBytes rpc v ++ rest) rpc v rest ∧
      ∀ s, rpc ≠ .PING → Requests s rpc v rest → s = rpcRequestToBytes rpc v ++ rest := by
  constructor
  · have hle : (rpc.request.encode v).length ≤ MAX_REQUEST_SIZE := (request_length rpc v).trans (by decide)
    have hid : rpc.RPC_ID.code < 256 ^ 2 := by cases rpc <;> decide
    exact ⟨rpc.RPC_ID, _, readRequestRaw_iff.mpr ⟨rfl, hid, hle⟩, rpc?_RPC_ID rpc, decodeWhole_encode hle⟩
  · rintro s hrpc ⟨id, body, hread, hid, hbody⟩
    obtain ⟨hs, -, -⟩ := readRequestRaw_iff.mp hread
    rw [hs, rpc?_eq_some hid, decodeWhole_canonical (request_canonical hrpc) hbody]
    rfl

/-- A `GET_EVENT` and the beginning of what follows it. -/
theorem requests_iff_sampleGetEvent :
    Requests ([0, 2, 0, 0, 0, 16] ++ List.replicate 15 0 ++ [5, 0, 5]) .GET_EVENT ⟨5, by decide⟩ [0, 5] := by
  have hwritten : rpcRequestToBytes .GET_EVENT ⟨5, by decide⟩ ++ [0, 5] =
      [0, 2, 0, 0, 0, 16] ++ List.replicate 15 0 ++ [5, 0, 5] := by decide +kernel
  rw [← hwritten]
  exact (requests_iff .GET_EVENT ⟨5, by decide⟩ [0, 5]).1

end Rostra.P2p
