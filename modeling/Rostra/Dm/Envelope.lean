/-
# The direct-message frame

`validate_frame` of `rostra-dm/src/envelope.rs`: the check of an arbitrary byte string from the
network, before any key is tried on it.

* A frame is a length field, an age file of that length and zero padding.
* The header of the file is scanned line by line (`line`), with an offset into the file as the only
  state.  Two loops drive the scanner: one over stanzas, one over the lines of a GREASE body.
* Base64 comes from a third-party crate and is a parameter (`Base64`).  The code relies on its
  `decode` only through the comparison with `encode` that follows each call.

Slices are indexed in several places.  An index out of range panics in the source, so the model has
an outcome for it, as it has one for a loop that does not come to an end.
-/
import Rostra.Dm.Device

namespace Rostra.Dm

open Rostra

def SLOT_COUNT : ℕ := 8
def TEXT_BUCKETS : List ℕ := [1024, 2048, 4096, 8192, 16384]
def FRAME_OVERHEAD : ℕ := 2048
def MAX_HEADER_BYTES : ℕ := 1536
def BODY_METADATA_BYTES : ℕ := 1 + 32 + 32 + 16 + 4

/-- A byte string literal. -/
def ascii (s : String) : Bytes := s.toList.map fun c => c.toNat.toUInt8

/-- `b'\n'`. -/
def newline : UInt8 := 10

/-- `b' '`. -/
def space : UInt8 := 32

/-- `BASE64_STANDARD_NO_PAD`. -/
structure Base64 where
  encode : Bytes → Bytes
  decode : Bytes → Option Bytes

/-- How a parse ends without a value. -/
inductive Stop
  /-- `Error::Invalid`. -/
  | invalid
  /-- A slice was indexed out of its range. -/
  | panic
  /-- The loop was cut off. -/
  | outOfFuel
  deriving DecidableEq

/-- `.ok_or(Error::Invalid)`. -/
def okOrInvalid {α : Type} : Option α → Except Stop α
  | some a => .ok a
  | none => .error .invalid

/-- `if c { return Err(Error::Invalid); }`. -/
def rejectIf (c : Prop) [Decidable c] : Except Stop Unit :=
  if c then .error .invalid else .ok ()

/-- `bytes.get(from..to)`. -/
def getRange (bytes : Bytes) (start stop : ℕ) : Option Bytes :=
  if start ≤ stop ∧ stop ≤ bytes.length then some ((bytes.take stop).drop start) else none

/-- `&bytes[from..to]`. -/
def indexRange (bytes : Bytes) (start stop : ℕ) : Except Stop Bytes :=
  match getRange bytes start stop with
  | some slice => .ok slice
  | none => .error .panic

/-! ## 1. Lines

The scanner, with its offset and the ways in which it can fail. -/

/-- The next line and the offset behind it. -/
def line (file : Bytes) (offset : ℕ) : Except Stop (Bytes × ℕ) := do
  let remaining ← okOrInvalid (getRange file offset (min file.length MAX_HEADER_BYTES))
  let length ← okOrInvalid (remaining.findIdx? (· == newline))
  rejectIf (64 < length)
  let value ← indexRange remaining 0 length
  return (value, offset + (length + 1))

/-- Canonical base64 of `expected` bytes. -/
def decodeBase64 (engine : Base64) (bytes : Bytes) (expected : ℕ) : Except Stop Unit := do
  let value ← okOrInvalid (engine.decode bytes)
  rejectIf (value.length ≠ expected ∨ engine.encode value ≠ bytes)

/-! ## 2. The header

Version, stanzas and the line with the authentication code. -/

/-- One of the short words of a GREASE stanza. -/
def printableWord (value : Bytes) : Bool :=
  !(value.isEmpty || decide (8 < value.length) ||
    !value.all fun b => decide (33 ≤ b) && decide (b ≤ 126))

/-- The first line of a stanza that is not a native one. -/
def validateGreaseStart (start : Bytes) : Except Stop Unit := do
  let rest ← okOrInvalid (start.dropPrefix? (ascii "-> "))
  let fields := rest.splitOn space
  rejectIf (fields.isEmpty ∨ 5 < fields.length)
  match fields with
  | [] => throw .panic
  | first :: arguments =>
    let tag ← okOrInvalid (first.dropSuffix? (ascii "-grease"))
    rejectIf (!(tag :: arguments).all printableWord)

/-- The inner loop: lines are collected up to the first one that is shorter than 64 bytes. -/
def greaseBody (file : Bytes) : ℕ → Bytes → ℕ → Except Stop (Bytes × ℕ)
  | 0, _, _ => throw .outOfFuel
  | fuel + 1, encoded, offset => do
    let (part, offset) ← line file offset
    rejectIf (132 < encoded.length + part.length)
    if part.length < 64 then
      return (encoded ++ part, offset)
    else
      greaseBody file fuel (encoded ++ part) offset

/-- The stanza loop, from `offset` on, with `native` slots and perhaps one GREASE stanza seen. -/
def stanzaLoop (engine : Base64) (file : Bytes) : ℕ → ℕ → ℕ → Bool → Except Stop ℕ
  | 0, _, _, _ => throw .outOfFuel
  | fuel + 1, offset, native, grease => do
    let (start, offset) ← line file offset
    match start.dropPrefix? (ascii "--- ") with
    | some mac =>
      decodeBase64 engine mac 32
      rejectIf (native ≠ SLOT_COUNT)
      return offset
    | none =>
      match start.dropPrefix? (ascii "-> X25519 ") with
      | some ephemeral =>
        rejectIf (SLOT_COUNT < native + 1)
        decodeBase64 engine ephemeral 32
        let (body, offset) ← line file offset
        decodeBase64 engine body 32
        stanzaLoop engine file fuel offset (native + 1) grease
      | none =>
        rejectIf grease
        validateGreaseStart start
        let (encoded, offset) ← greaseBody file (file.length + 1) [] offset
        let decoded ← okOrInvalid (engine.decode encoded)
        rejectIf (99 < decoded.length ∨ engine.encode decoded ≠ encoded)
        stanzaLoop engine file fuel offset native true

/-- The length of a valid header.  Every line takes at least one byte, which bounds the loop. -/
def validateHeader (engine : Base64) (file : Bytes) : Except Stop ℕ := do
  let (version, offset) ← line file 0
  rejectIf (version ≠ ascii "age-encryption.org/v1")
  stanzaLoop engine file (file.length + 1) offset 0 false

/-! ## 3. The frame

Length, file and padding. -/

/-- `usize::checked_add` on a 64-bit target. -/
def usizeCheckedAdd (a b : ℕ) : Option ℕ := if a + b < 2 ^ 64 then some (a + b) else none

/-- The age file inside a well-formed frame. -/
def validateFrame (engine : Base64) (frame : Bytes) : Except Stop Bytes := do
  let bucket ← okOrInvalid
    (if FRAME_OVERHEAD ≤ frame.length then some (frame.length - FRAME_OVERHEAD) else none)
  rejectIf (!TEXT_BUCKETS.contains bucket)
  let length := beNat (← indexRange frame 0 4)
  let stop ← okOrInvalid (usizeCheckedAdd 4 length)
  let file ← okOrInvalid (getRange frame 4 stop)
  rejectIf ((← indexRange frame stop frame.length).any (· != 0))
  let header ← validateHeader engine file
  rejectIf (file.length ≠ header + 16 + BODY_METADATA_BYTES + bucket + 16)
  return file

end Rostra.Dm
