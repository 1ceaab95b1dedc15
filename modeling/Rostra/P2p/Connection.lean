/-
# Calls over a connection

`rostra-p2p/src/connection.rs`: the messages of the protocol, how they are framed, and the calls of a client.
Every call has a stream of its own.  A request is its two-byte id and a message; an answer is a byte that is
zero for success, a message, and for some calls payload data.  A message is a four-byte length and a body, and
the body is decoded as a whole.

* What is read from a stream is a list of bytes: what the other side has sent when it is done.  `read_exact`
  of more than that fails.  The writes of a call fail only with the connection and are left out.
* Payload data is a Bao encoding, verified against the length and the hash of a header while it is read.
  The encoding and the signatures come from other crates (`Transport`).  Nothing of an EMPTY payload is
  verified: there is no chunk whose hash could be compared.
-/
import Rostra.Core.Bincode

namespace Rostra.P2p

open Rostra Codec

/-- Request messages are smaller, because anybody may send one. -/
def MAX_REQUEST_SIZE : ℕ := 4 * 1024

def MAX_RESPONSE_SIZE : ℕ := 32 * 1024 * 1024

/-! ## 1. Messages -/

structure RpcId where
  code : ℕ
  deriving DecidableEq

inductive Rpc
  | PING | FEED_EVENT | GET_EVENT | GET_EVENT_CONTENT | WAIT_HEAD_UPDATE | GET_HEAD | WAIT_FOLLOWERS_NEW_HEADS
  deriving DecidableEq

namespace Rpc

def RPC_ID : Rpc → RpcId
  | PING => ⟨0⟩
  | FEED_EVENT => ⟨1⟩
  | GET_EVENT => ⟨2⟩
  | GET_EVENT_CONTENT => ⟨3⟩
  | WAIT_HEAD_UPDATE => ⟨4⟩
  | GET_HEAD => ⟨5⟩
  | WAIT_FOLLOWERS_NEW_HEADS => ⟨6⟩

abbrev Request : Rpc → Type
  | PING => Word 8
  | FEED_EVENT => Bincode.SignedEvent
  | GET_EVENT | GET_EVENT_CONTENT | WAIT_HEAD_UPDATE => Word 16
  | GET_HEAD => FixedRostraId
  | WAIT_FOLLOWERS_NEW_HEADS => Unit

abbrev Response : Rpc → Type
  | PING => Word 8
  | FEED_EVENT => Unit
  | GET_EVENT => Option Bincode.SignedEvent
  | GET_EVENT_CONTENT => Bool
  | WAIT_HEAD_UPDATE => Word 16
  | GET_HEAD => Option (Word 16)
  | WAIT_FOLLOWERS_NEW_HEADS => FixedRostraId × Bincode.SignedEvent

def request : (rpc : Rpc) → Codec rpc.Request
  | PING => Bincode.u64
  | FEED_EVENT => Bincode.signedEvent
  | GET_EVENT | GET_EVENT_CONTENT | WAIT_HEAD_UPDATE => Bincode.shortEventId
  | GET_HEAD => Bincode.rostraId
  | WAIT_FOLLOWERS_NEW_HEADS => Codec.unit

def response : (rpc : Rpc) → Codec rpc.Response
  | PING => Bincode.u64
  | FEED_EVENT => Codec.unit
  | GET_EVENT => Codec.option Bincode.signedEvent
  | GET_EVENT_CONTENT => Codec.bool
  | WAIT_HEAD_UPDATE => Bincode.shortEventId
  | GET_HEAD => Codec.option Bincode.shortEventId
  | WAIT_FOLLOWERS_NEW_HEADS => Bincode.rostraId.pair Bincode.signedEvent

end Rpc

/-- The dispatch on a request's id. -/
def RpcId.rpc? (id : RpcId) : Option Rpc :=
  match id.code with
  | 0 => some .PING
  | 1 => some .FEED_EVENT
  | 2 => some .GET_EVENT
  | 3 => some .GET_EVENT_CONTENT
  | 4 => some .WAIT_HEAD_UPDATE
  | 5 => some .GET_HEAD
  | 6 => some .WAIT_FOLLOWERS_NEW_HEADS
  | _ => none

def RETURN_CODE_ALREADY_HAVE : UInt8 := 1
def RETURN_CODE_DOES_NOT_NEED : UInt8 := 2

inductive DecodeError
  | limitExceeded
  /-- `Not all bytes consumed during decoding`. -/
  | notAllBytesConsumed
  | malformed
  deriving DecidableEq

inductive VerifiedEventError
  | authorMismatch | signatureInvalid | contentMismatch | eventIdMismatch
  deriving DecidableEq

inductive RpcError
  | read
  | messageTooLarge (len limit : ℕ)
  | decoding (e : DecodeError)
  | decodingBao
  | encodingBao
  | trailer (source : RpcError)
  | eventVerification (e : VerifiedEventError)
  /-- The other side responded with a failure. -/
  | failed (returnCode : UInt8)
  deriving DecidableEq

/-- `RpcMessage::decode_whole`. -/
def decodeWhole {α : Type} (limit : ℕ) (c : Codec α) (b : Bytes) : Except DecodeError α :=
  if limit < b.length then .error .limitExceeded
  else
    match c.decode b with
    | none => .error .malformed
    | some (v, []) => .ok v
    | some (_, _ :: _) => .error .notAllBytesConsumed

/-! ## 2. Frames -/

/-- `write_message`. -/
def writeMessage {α : Type} (c : Codec α) (v : α) : Bytes :=
  BigEndian.encode 4 (c.encode v).length ++ c.encode v

def rpcRequestToBytes (rpc : Rpc) (v : rpc.Request) : Bytes :=
  BigEndian.encode 2 rpc.RPC_ID.code ++ writeMessage rpc.request v

/-- What is left to read of a stream, and why a read may fail. -/
abbrev RecvStream := StateT Bytes (Except RpcError)

def readExact (n : ℕ) : RecvStream Bytes := fun b =>
  if n ≤ b.length then .ok (b.take n, b.drop n) else .error .read

def readMessageRaw (limit : ℕ) : RecvStream Bytes := do
  let lenBytes ← readExact 4
  let len := BigEndian.value lenBytes
  if limit < len then throw (.messageTooLarge len limit)
  readExact len

def readMessage {α : Type} (limit : ℕ) (c : Codec α) : RecvStream α := do
  let bytes ← readMessageRaw limit
  match decodeWhole limit c bytes with
  | .ok v => return v
  | .error e => throw (.decoding e)

def readRequestRaw : RecvStream (RpcId × Bytes) := do
  let idBytes ← readExact 2
  let req ← readMessageRaw MAX_REQUEST_SIZE
  return (⟨BigEndian.value idBytes⟩, req)

def readSuccessErrorCode : RecvStream Unit := do
  let res ← readExact 1
  match res with
  | 0 :: _ => return ()
  | code :: _ => throw (.failed code)
  | [] => throw .read

/-! ## 3. Payloads and signatures -/

/-- What other crates provide: Ed25519, and the Bao encoding of a payload. -/
class Transport where
  verifySignature : Event → Word 64 → Bool
  /-- `encode_ranges_validated` of a whole payload. -/
  baoEncode : Bytes → Bytes
  /-- `decode_ranges` of a whole payload of a length and a hash; the rest of the stream is left. -/
  baoDecode : ℕ → ContentHash → Bytes → Option (Bytes × Bytes)

/-- A stand-in for the imported crates, on which runs can be evaluated.  A payload of a single block is its own
encoding; the signature of a header is its timestamp. -/
@[reducible] def Transport.reference [Primitives] : Transport where
  verifySignature e sig := sig.1 == e.timestamp
  baoEncode b := b
  baoDecode len hash s := if len ≤ s.length ∧ blake3 (s.take len) = hash then some (s.take len, s.drop len) else none

variable [Primitives] [Transport]

/-- **What Bao is for.**  A payload arrives, and what arrives has the length and the hash. -/
structure BaoVerified : Prop where
  decode_encode : ∀ b rest, b ≠ [] →
    Transport.baoDecode b.length (blake3 b) (Transport.baoEncode b ++ rest) = some (b, rest)
  verified : ∀ len hash s b rest, 0 < len → Transport.baoDecode len hash s = some (b, rest) →
    b.length = len ∧ blake3 b = hash

omit [Primitives] in
def readBaoContent (len : ℕ) (hash : ContentHash) : RecvStream Bytes := fun s =>
  match Transport.baoDecode len hash s with
  | some r => .ok r
  | none => .error .decodingBao

omit [Primitives] in
/-- The length of a payload has four bytes. -/
def writeBaoContent (b : Bytes) : Except RpcError Bytes :=
  if 2 ^ 32 ≤ b.length then .error (.messageTooLarge (2 ^ 32 - 1) (2 ^ 32 - 1)) else .ok (Transport.baoEncode b)

def verifyResponse (author : RostraId) (id : ShortEventId) (r : Bincode.SignedEvent) :
    Except VerifiedEventError VerifiedEvent :=
  let v := VerifiedEvent.ofEvent r.1.1
  if author ≠ v.event.author then .error .authorMismatch
  else if v.id ≠ id then .error .eventIdMismatch
  else if Transport.verifySignature v.event r.2 then .ok v
  else .error .signatureInvalid

def verifyReceivedAsIs (r : Bincode.SignedEvent) : Except VerifiedEventError VerifiedEvent :=
  if Transport.verifySignature r.1.1 r.2 then .ok (.ofEvent r.1.1) else .error .signatureInvalid

/-! ## 4. Calls

Each call as what it reads of the answer. -/

omit [Primitives] [Transport] in
/-- `make_rpc`. -/
def makeRpc (rpc : Rpc) : RecvStream rpc.Response := do
  readSuccessErrorCode
  readMessage MAX_RESPONSE_SIZE rpc.response

omit [Primitives] [Transport] in
/-- `context(TrailerSnafu)`. -/
def trailer {α : Type} (read : RecvStream α) : RecvStream α := fun s =>
  match read s with
  | .ok r => .ok r
  | .error e => .error (.trailer e)

def getEvent (author : RostraId) (id : ShortEventId) : RecvStream (Option VerifiedEvent) := do
  match ← makeRpc .GET_EVENT with
  | none => return none
  | some r =>
    match verifyResponse author id r with
    | .ok v => return some v
    | .error e => throw (.eventVerification e)

/-- How a call for content ends: `Bao transfer should guarantee correct content was received`. -/
inductive Received
  | content (c : Option VerifiedEventContent)
  | panicked

def getEventContent (v : VerifiedEvent) : RecvStream Received := do
  if ← makeRpc .GET_EVENT_CONTENT then
    let content ← trailer (readBaoContent v.event.contentLen v.event.contentHash)
    match VerifiedEventContent.verify v (some content) with
    | some c => return .content (some c)
    | none => return .panicked
  else return .content none

omit [Primitives] [Transport] in
def ping : RecvStream (Word 8) := makeRpc .PING

omit [Primitives] [Transport] in
def getHead : RecvStream (Option (Word 16)) := makeRpc .GET_HEAD

end Rostra.P2p
