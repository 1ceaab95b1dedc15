/-
# Events, their envelopes and their payloads

The data model of `rostra-core`: the fixed-size event header, the identifiers it is made of,
and the two verified wrappers that every database entry point takes.

* An `EventId` is the hash of the header.  The database keys everything by its first half,
  the `ShortEventId`; a `RostraId` is split the same way (`ids_full`).
* A header carries the length and the hash of its payload, and nothing else ties the two
  together: `VerifiedEvent` says only that the id is the header's own.  Length and hash are
  compared with actual bytes in `VerifiedEventContent.verify` and nowhere else, so a header
  of length `0` may name ANY content hash.
* `Primitives` collects what the repository takes from other crates: the two hashes, the CBOR
  decoder for each content kind, the mention scanner, the curve-point check and the DM frame
  check.  They are parameters of everything below; what a result needs of them is a hypothesis
  of that result.

The signature is checked before a value of these types exists and is never read again, so
the model does not carry it.
-/
import Mathlib.Algebra.Order.Ring.Int
import Mathlib.Algebra.Order.Ring.Nat
import Mathlib.Data.Prod.Lex
import Mathlib.Data.Finset.Basic
import Mathlib.Logic.Equiv.List

namespace Rostra

/-! ## 1. Identifiers -/

abbrev Bytes := List UInt8

/-- A Rust `String`: a sequence of Unicode scalar values. -/
abbrev Text := List Char

/-- Unix seconds. -/
abbrev Timestamp := ℕ

abbrev ShortEventId := ℕ

/-- 256 bits: the short id and the remaining half, compared in this order. -/
abbrev EventId := ℕ ×ₗ ℕ

abbrev ShortRostraId := ℕ

abbrev RestRostraId := ℕ

instance lawfulBEqLex : LawfulBEq (ℕ ×ₗ ℕ) := inferInstance

/-- A full identity: its stored prefix and the rest (`RostraId::split`). -/
abbrev RostraId := ℕ ×ₗ ℕ

abbrev ContentHash := ℕ

abbrev EventAuxKey := ℕ

abbrev IrohNodeId := ℕ

def EventId.toShort (id : EventId) : ShortEventId := (ofLex id).1

def RostraId.split (id : RostraId) : ShortRostraId × RestRostraId := ofLex id

/-- A reference to another author's event. -/
structure ExternalEventId where
  rostraId : RostraId
  eventId : ShortEventId
  deriving DecidableEq

/-- The hash a locally composed event without content carries. -/
def ContentHash.ZERO : ContentHash := 0

/-! ## 2. Headers -/

/-- The two-byte kind tag; unknown kinds are carried and stored like any other. -/
structure EventKind where
  code : ℕ
  deriving DecidableEq

namespace EventKind

def FOLLOW : EventKind := ⟨0x10⟩
def UNFOLLOW : EventKind := ⟨0x11⟩
def NODE_ANNOUNCEMENT : EventKind := ⟨0x13⟩
def SOCIAL_POST : EventKind := ⟨0x20⟩
def SOCIAL_VOTE : EventKind := ⟨0x21⟩
def SOCIAL_PROFILE_UPDATE : EventKind := ⟨0x24⟩
def SHOUTBOX : EventKind := ⟨0x30⟩
def DIRECT_MESSAGE : EventKind := ⟨0x40⟩
def DM_DEVICE : EventKind := ⟨0x41⟩

end EventKind

/-- The header as signed.  The two parents are `NullableShortEventId`s: zero means none. -/
structure Event where
  version : ℕ := 0
  flags : ℕ := 0
  kind : EventKind
  contentLen : ℕ
  timestamp : Timestamp
  keyAux : EventAuxKey := 0
  author : RostraId
  parentPrev : Option ShortEventId := none
  parentAux : Option ShortEventId := none
  contentHash : ContentHash
  deriving DecidableEq

namespace Event

def DELETE_PARENT_AUX_CONTENT_FLAG : ℕ := 1
def SINGLETON_FLAG : ℕ := 2

def isDeleteParentAuxContentSet (e : Event) : Bool :=
  e.flags &&& DELETE_PARENT_AUX_CONTENT_FLAG != 0

def isSingleton (e : Event) : Bool := e.flags &&& SINGLETON_FLAG != 0

end Event

/-! ## 3. Content kinds

Only the fields that the database reads. -/

inductive PersonaSelector
  | only (ids : List ℕ)
  | except (ids : List ℕ)
  deriving DecidableEq

inductive PersonasTagsSelector
  | only (ids : List Text)
  | except (ids : List Text)
  deriving DecidableEq

structure Follow where
  followee : RostraId
  /-- Legacy single persona. -/
  persona : Option ℕ := none
  /-- Legacy selector over persona ids. -/
  selector? : Option PersonaSelector := none
  personaTagsSelector : Option PersonasTagsSelector := none
  deriving DecidableEq

namespace Follow

def selector (f : Follow) : Option PersonaSelector :=
  match f.selector?, f.persona with
  | some s, _ => some s
  | none, some p => some (.only [p])
  | none, none => none

/-- A follow without any selector is how an unfollow is written. -/
def isUnfollow (f : Follow) : Bool :=
  f.persona.isNone && f.selector?.isNone && f.personaTagsSelector.isNone

end Follow

structure SocialPost where
  djotContent : Option Text := none
  replyTo : Option ExternalEventId := none
  reaction : Option Text := none
  news : Bool := false
  deriving DecidableEq

structure SocialVote where
  replyTo : Option ExternalEventId
  upvote : Option Bool
  deriving DecidableEq

structure SocialProfileUpdate where
  displayName : Text
  bio : Text
  avatar : Option (Text × Bytes)
  deriving DecidableEq

structure Shoutbox where
  djotContent : Text
  deriving DecidableEq

/-- `str::len`: the length in UTF-8 bytes. -/
def Text.len (t : Text) : ℕ := (t.map fun c => c.utf8Size).sum

/-- `EventContentKind::validate` of a profile update. -/
def SocialProfileUpdate.validate (c : SocialProfileUpdate) : Bool :=
  decide (Text.len c.displayName ≤ 100) && decide (Text.len c.bio ≤ 1000) &&
    match c.avatar with
    | some (mime, image) =>
      decide (Text.len mime ≤ 100) && "image/".toList.isPrefixOf mime &&
        decide (image.length ≤ 1000000)
    | none => true

/-- `EventContentKind::validate` of a shoutbox message. -/
def Shoutbox.validate (c : Shoutbox) : Bool :=
  decide (Text.len c.djotContent ≤ 1000) && !c.djotContent.isEmpty

/-- Unicode `White_Space`, as `char::is_whitespace` has it. -/
def isWhitespace (c : Char) : Bool :=
  c.toNat ∈ [0x9, 0xA, 0xB, 0xC, 0xD, 0x20, 0x85, 0xA0, 0x1680, 0x2028, 0x2029, 0x202F, 0x205F,
    0x3000] || (0x2000 ≤ c.toNat && c.toNat ≤ 0x200A)

/-- `text.trim().is_empty()`. -/
def Text.isBlank (t : Text) : Bool := t.all isWhitespace

/-! ## 4. What other crates provide -/

/-- The functions the repository imports. -/
class Primitives where
  /-- The content hash. -/
  blake3 : Bytes → ContentHash
  /-- The hash of an encoded header. -/
  computeId : Event → EventId
  cborFollow : Bytes → Option Follow
  cborNodeAnnouncement : Bytes → Option IrohNodeId
  cborSocialPost : Bytes → Option SocialPost
  cborSocialVote : Bytes → Option SocialVote
  cborSocialProfileUpdate : Bytes → Option SocialProfileUpdate
  cborShoutbox : Bytes → Option Shoutbox
  /-- `rostra_djot::mention::contains_mention`. -/
  containsMention : Text → RostraId → Bool
  /-- Whether 32 bytes are a canonical contributory X25519 public key. -/
  publicKeyValid : Bytes → Bool
  /-- Whether a byte string is a well-formed direct-message frame. -/
  validateFrame : Bytes → Bool
  /-- The leading 64 bits of an event's and of a holder's retention coordinate. -/
  eventCoordinate : EventId → ℕ
  holderCoordinate : RostraId → ℕ

export Primitives (blake3 computeId)

/-- A small stand-in for the imported crates, on which runs can be evaluated: an injective hash, ids
that are time stamps, and one-letter encodings of posts. -/
@[reducible] def Primitives.reference : Primitives where
  blake3 b := Encodable.encode (b.map UInt8.toNat) + 1
  computeId e := toLex (e.timestamp, 0)
  cborFollow _ := none
  cborNodeAnnouncement _ := none
  cborSocialPost
    | 0 :: body => some { djotContent := some (body.map fun x => Char.ofNat x.toNat) }
    | 1 :: target :: body => some
        { djotContent := some (body.map fun x => Char.ofNat x.toNat)
          replyTo := some ⟨toLex (0, 0), target.toNat⟩ }
    | 2 :: target :: body => some
        { reaction := some (body.map fun x => Char.ofNat x.toNat)
          replyTo := some ⟨toLex (0, 0), target.toNat⟩ }
    | _ => none
  cborSocialVote _ := none
  cborSocialProfileUpdate _ := none
  cborShoutbox _ := none
  containsMention _ _ := false
  publicKeyValid _ := true
  validateFrame _ := true
  eventCoordinate _ := 0
  holderCoordinate _ := 0

/-- The stand-in hash has no collisions. -/
theorem Primitives.reference_injective : Function.Injective Primitives.reference.blake3 := by
  intro b b' h
  have hmap : b.map UInt8.toNat = b'.map UInt8.toNat :=
    Encodable.encode_injective (Nat.succ.inj h)
  exact List.map_injective_iff.mpr (fun x y => UInt8.toNat_inj.mp) hmap

variable [Primitives]

/-! ## 5. Verified envelopes and payloads -/

/-- A header together with its own id. -/
structure VerifiedEvent where
  event : Event
  eventId : EventId
  idComputed : eventId = computeId event

namespace VerifiedEvent

/-- `assume_verified_from_signed`, and what every `verify_*` constructor returns. -/
def ofEvent (e : Event) : VerifiedEvent := ⟨e, computeId e, rfl⟩

/-- The database key. -/
def id (v : VerifiedEvent) : ShortEventId := v.eventId.toShort

@[simp] theorem ofEvent_event (e : Event) : (ofEvent e).event = e := rfl

theorem ext_event {v w : VerifiedEvent} (h : v.event = w.event) : v = w := by
  obtain ⟨e, i, hi⟩ := v
  obtain ⟨e', i', hi'⟩ := w
  simp only at h
  subst h hi hi'
  rfl

@[simp] theorem ofEvent_self (v : VerifiedEvent) : ofEvent v.event = v := ext_event rfl

/-- The key is a function of the header. -/
theorem id_eq (v : VerifiedEvent) : v.id = (computeId v.event).toShort := by
  rw [id, v.idComputed]

end VerifiedEvent

instance : DecidableEq VerifiedEvent := fun v w =>
  decidable_of_iff (v.event = w.event) ⟨VerifiedEvent.ext_event, fun h => h ▸ rfl⟩

/-- An envelope with the bytes that are meant to be its payload: the shape of a
`VerifiedEventContent`, before anything is known about the bytes.  This is all that
`assume_verified` gives in a release build. -/
structure EventContent where
  event : VerifiedEvent
  content : Option Bytes

/-- Do these bytes belong to this header?  Without bytes, only a header of length `0` passes. -/
def contentMatches (v : VerifiedEvent) : Option Bytes → Bool
  | some b => b.length == v.event.contentLen && blake3 b == v.event.contentHash
  | none => v.event.contentLen == 0

/-- A payload that was compared with its header. -/
structure VerifiedEventContent extends EventContent where
  verified : contentMatches event content = true

namespace VerifiedEventContent

def verify (v : VerifiedEvent) (content : Option Bytes) : Option VerifiedEventContent :=
  if h : contentMatches v content = true then some ⟨⟨v, content⟩, h⟩ else none

theorem verify_eq_some {v : VerifiedEvent} {content : Option Bytes} {c : VerifiedEventContent}
    (h : verify v content = some c) : c.event = v ∧ c.content = content := by
  unfold verify at h
  split at h
  · cases h; exact ⟨rfl, rfl⟩
  · cases h

/-- **Verified bytes have the declared length and hash.** -/
theorem length_and_hash (c : VerifiedEventContent) {b : Bytes} (hb : c.content = some b) :
    b.length = c.event.event.contentLen ∧ blake3 b = c.event.event.contentHash := by
  have h := c.verified
  rw [hb] at h
  simpa [contentMatches] using h

/-- A nonempty header comes with bytes. -/
theorem content_isSome (c : VerifiedEventContent) (h : 0 < c.event.event.contentLen) :
    ∃ b, c.content = some b := by
  cases hb : c.content with
  | some b => exact ⟨b, rfl⟩
  | none =>
    have hv := c.verified
    rw [hb] at hv
    simp [contentMatches] at hv
    omega

end VerifiedEventContent

/-! ## 6. Decoding

`deserialize_cbor` is the CBOR decoder followed by the kind's own `validate`; a value without
bytes does not decode. -/

namespace EventContent

variable (c : EventContent)

def follow? : Option Follow := c.content.bind Primitives.cborFollow

def nodeAnnouncement? : Option IrohNodeId := c.content.bind Primitives.cborNodeAnnouncement

def socialPost? : Option SocialPost := c.content.bind Primitives.cborSocialPost

def socialVote? : Option SocialVote := c.content.bind Primitives.cborSocialVote

def socialProfileUpdate? : Option SocialProfileUpdate :=
  (c.content.bind Primitives.cborSocialProfileUpdate).filter SocialProfileUpdate.validate

def shoutbox? : Option Shoutbox :=
  (c.content.bind Primitives.cborShoutbox).filter Shoutbox.validate

end EventContent

end Rostra
