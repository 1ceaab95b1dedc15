/-
# The wire records of direct messages

`MessageBody::encode` and `decode` (`body.rs`), what is sealed inside a frame, and `Announcement::encode`
(`announcement.rs`), the counterpart of the decoder in `Dm.Device`.

Both decoders index their input at fixed places and convert the slices to arrays with `expect`.  So a decoder has
the outcome `panic`, as the scanner of frames has.
-/
import Rostra.Dm.Envelope
import Rostra.Dm.History
import Rostra.Lib.BigEndian

namespace Rostra.Dm

open Rostra

/-- The unique smallest bucket that holds a text. -/
def textBucket (length : ℕ) : Except Stop ℕ :=
  okOrInvalid (TEXT_BUCKETS.find? fun bucket => decide (length ≤ bucket))

/-- `text.as_bytes()`. -/
def asBytes (text : Text) : Bytes := text.flatMap String.utf8EncodeChar

/-- `std::str::from_utf8`. -/
def fromUtf8 (bytes : Bytes) : Option Text := bytes.toByteArray.utf8Decode?.map Array.toList

/-- `RostraId::as_slice` and `from_bytes`: the two halves of 32 bytes. -/
def idBytes (id : RostraId) : Bytes :=
  BigEndian.encode 16 (ofLex id).1 ++ BigEndian.encode 16 (ofLex id).2

def idFromBytes (bytes : Bytes) : RostraId := toLex (beNat (bytes.take 16), beNat (bytes.drop 16))

/-- `Vec::resize`, with zeros. -/
def resize (bytes : Bytes) (size : ℕ) : Bytes :=
  bytes.take size ++ List.replicate (size - bytes.length) 0

/-- An addition of 64-bit sizes. -/
def usizeAdd (a b : ℕ) : Except Stop ℕ :=
  match usizeCheckedAdd a b with
  | some n => .ok n
  | none => .error .panic

/-- `bytes[i]`. -/
def indexByte (bytes : Bytes) (i : ℕ) : Except Stop UInt8 :=
  match bytes[i]? with
  | some b => .ok b
  | none => .error .panic

/-- `bytes[start..stop].try_into().expect("fixed range")`. -/
def fixedRange (bytes : Bytes) (start stop width : ℕ) : Except Stop Bytes := do
  let slice ← indexRange bytes start stop
  if slice.length = width then return slice else throw .panic

/-! ## 1. Message bodies

Fields of fixed width, a text, and padding to the bucket of its length. -/

def MessageBody.encode (b : MessageBody) : Except Stop Bytes := do
  let text := asBytes b.text
  let bucket ← textBucket text.length
  let result := 1 :: (idBytes b.sender ++ (idBytes b.recipient ++ (BigEndian.encode 16 b.messageId ++
    (BigEndian.encode 4 (text.length % 2 ^ 32) ++ text))))
  return resize result (BODY_METADATA_BYTES + bucket)

def MessageBody.decode (bytes : Bytes) (bucket : ℕ) : Except Stop MessageBody := do
  let size ← usizeAdd BODY_METADATA_BYTES bucket
  rejectIf (bytes.length ≠ size)
  rejectIf ((← indexByte bytes 0) ≠ 1)
  let length := beNat (← fixedRange bytes 81 85 4)
  rejectIf ((← textBucket length) ≠ bucket)
  rejectIf ((← indexRange bytes (BODY_METADATA_BYTES + length) bytes.length).any (· != 0))
  let text ← okOrInvalid
    (fromUtf8 (← indexRange bytes BODY_METADATA_BYTES (BODY_METADATA_BYTES + length)))
  return { sender := idFromBytes (← fixedRange bytes 1 33 32)
           recipient := idFromBytes (← fixedRange bytes 33 65 32)
           messageId := beNat (← fixedRange bytes 65 81 16)
           text := text }

/-! ## 2. Announcements

A device with its epoch, or the retirement of a device. -/

section Announcement

variable [Primitives]

def Announcement.encode (a : Announcement) : Option Bytes :=
  match a.epoch with
  | none => some (1 :: 0 :: a.deviceId)
  | some epoch =>
    if epoch.validate then
      some (1 :: 1 :: (a.deviceId ++ (epoch.publicKey ++ (BigEndian.encode 8 epoch.sendFrom ++
        (BigEndian.encode 8 epoch.sendUntil ++ BigEndian.encode 8 epoch.decryptUntil)))))
    else none

/-- `Announcement.decode` with its indexing as it stands in the source. -/
def Announcement.decodeIndexed (bytes : Bytes) (publishedAt : ℕ) : Except Stop Announcement := do
  rejectIf (!(bytes.length == 18 || bytes.length == 74))
  rejectIf ((← indexByte bytes 0) ≠ 1)
  let epoch ← match ← indexByte bytes 1, bytes.length with
    | 0, 18 => pure none
    | 1, 74 => do
      let epoch : EpochPublic :=
        { publicKey := ← fixedRange bytes 18 50 32
          sendFrom := beNat (← fixedRange bytes 50 58 8)
          sendUntil := beNat (← fixedRange bytes 58 66 8)
          decryptUntil := beNat (← fixedRange bytes 66 74 8) }
      rejectIf (!epoch.validate)
      rejectIf (publishedAt < epoch.sendFrom ∨ i64Max < publishedAt)
      pure (some epoch)
    | _, _ => throw .invalid
  return { deviceId := ← fixedRange bytes 2 18 16, epoch := epoch }

end Announcement

end Rostra.Dm
