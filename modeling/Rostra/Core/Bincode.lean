/-
# How headers are encoded

`bincode` in the repository's configuration: big-endian, whole numbers of variable width, arrays of bytes as
they stand.  The header keeps clear of the variable width: `MsgLen`, `TimestampFixed` and `EventKind` are
arrays, so a header has 128 bytes and a signed one 192, and what is hashed and signed is one fixed record.

* A parent is a `NullableShortEventId`: zero is written for none, and read as none.
* A number that is not part of a header has a tag byte from `251` on, unless it is smaller than that.  A
  reader takes every width for every number, so here, and only here, a message has more than one spelling.
-/
import Rostra.Core.Event
import Rostra.Lib.Codec

namespace Rostra

open Codec

/-! ## 1. Headers

The fields of a header in their order, each with its width. -/

/-- A parent as it is kept: never the zero id. -/
abbrev NullableShortEventId := { p : Option ShortEventId // ∀ x ∈ p, 0 < x ∧ x < 256 ^ 16 }

def NullableShortEventId.word : Word 16 ≃ NullableShortEventId where
  toFun w :=
    if h : w.1 = 0 then ⟨none, by simp⟩
    else ⟨some w.1, by
      intro x hx
      cases hx
      exact ⟨Nat.pos_of_ne_zero h, w.2⟩⟩
  invFun
    | ⟨none, _⟩ => ⟨0, by decide⟩
    | ⟨some x, h⟩ => ⟨x, (h x rfl).2⟩
  left_inv := by
    intro w
    by_cases h : w.1 = 0
    · simp only [dif_pos h]
      exact Subtype.ext h.symm
    · simp only [dif_neg h]
  right_inv := by
    rintro ⟨_ | x, h⟩
    · rfl
    · exact dif_neg (h x rfl).1.ne'

/-- Every field of the header has a value of its type. -/
structure Event.Fits (e : Event) : Prop where
  version : e.version < 256 ^ 1
  flags : e.flags < 256 ^ 1
  kind : e.kind.code < 256 ^ 2
  contentLen : e.contentLen < 256 ^ 4
  timestamp : e.timestamp < 256 ^ 8
  keyAux : e.keyAux < 256 ^ 16
  authorShort : (ofLex e.author).1 < 256 ^ 16
  authorRest : (ofLex e.author).2 < 256 ^ 16
  parentPrev : ∀ x ∈ e.parentPrev, 0 < x ∧ x < 256 ^ 16
  parentAux : ∀ x ∈ e.parentAux, 0 < x ∧ x < 256 ^ 16
  contentHash : e.contentHash < 256 ^ 32

/-- A header as Rust has it. -/
abbrev FixedEvent := { e : Event // e.Fits }

/-- An identity as Rust has it. -/
abbrev FixedRostraId := { id : RostraId // (ofLex id).1 < 256 ^ 16 ∧ (ofLex id).2 < 256 ^ 16 }

def FixedRostraId.words : Word 16 × Word 16 ≃ FixedRostraId where
  toFun p := ⟨toLex (p.1.1, p.2.1), p.1.2, p.2.2⟩
  invFun id := (⟨(ofLex id.1).1, id.2.1⟩, ⟨(ofLex id.1).2, id.2.2⟩)
  left_inv _ := rfl
  right_inv _ := rfl

/-- The fields in the order of the declaration. -/
abbrev EventFields := Word 1 × Word 1 × Word 2 × Word 4 × Word 8 × Word 16 × FixedRostraId ×
  NullableShortEventId × NullableShortEventId × Word 32

def FixedEvent.fields : EventFields ≃ FixedEvent where
  toFun
    | (version, flags, kind, contentLen, timestamp, keyAux, author, parentPrev, parentAux, contentHash) =>
      ⟨{ version := version.1
         flags := flags.1
         kind := ⟨kind.1⟩
         contentLen := contentLen.1
         timestamp := timestamp.1
         keyAux := keyAux.1
         author := author.1
         parentPrev := parentPrev.1
         parentAux := parentAux.1
         contentHash := contentHash.1 },
        ⟨version.2, flags.2, kind.2, contentLen.2, timestamp.2, keyAux.2, author.2.1, author.2.2, parentPrev.2,
          parentAux.2, contentHash.2⟩⟩
  invFun e :=
    (⟨e.1.version, e.2.version⟩, ⟨e.1.flags, e.2.flags⟩, ⟨e.1.kind.code, e.2.kind⟩,
      ⟨e.1.contentLen, e.2.contentLen⟩, ⟨e.1.timestamp, e.2.timestamp⟩, ⟨e.1.keyAux, e.2.keyAux⟩,
      ⟨e.1.author, e.2.authorShort, e.2.authorRest⟩, ⟨e.1.parentPrev, e.2.parentPrev⟩,
      ⟨e.1.parentAux, e.2.parentAux⟩, ⟨e.1.contentHash, e.2.contentHash⟩)
  left_inv _ := rfl
  right_inv _ := rfl

/-! ## 2. Encodings

The codes of the records that are sent. -/

namespace Bincode

def shortEventId : Codec (Word 16) := bytes 16

def nullableShortEventId : Codec NullableShortEventId := shortEventId.map NullableShortEventId.word

def rostraId : Codec FixedRostraId := ((bytes 16).pair (bytes 16)).map FixedRostraId.words

/-- The derived encoding of `Event`. -/
def event : Codec FixedEvent :=
  ((bytes 1).pair <| (bytes 1).pair <| (bytes 2).pair <| (bytes 4).pair <| (bytes 8).pair <| (bytes 16).pair <|
    rostraId.pair <| nullableShortEventId.pair <| nullableShortEventId.pair <| bytes 32).map FixedEvent.fields

/-- `SignedEvent`: the header and 64 bytes. -/
abbrev SignedEvent := FixedEvent × Word 64

def signedEvent : Codec SignedEvent := event.pair (bytes 64)

/-- A shorter number in eight bytes. -/
def widened {n : ℕ} (h : 256 ^ n ≤ 256 ^ 8) (r : Word n × Bytes) : Word 8 × Bytes := (⟨r.1.1, r.1.2.trans_le h⟩, r.2)

/-- A `u64` of variable width. -/
def u64 : Codec (Word 8) where
  encode w :=
    if w.1 < 251 then [UInt8.ofNat w.1]
    else if w.1 < 256 ^ 2 then 251 :: BigEndian.encode 2 w.1
    else if w.1 < 256 ^ 4 then 252 :: BigEndian.encode 4 w.1
    else 253 :: BigEndian.encode 8 w.1
  decode
    | [] => none
    | tag :: rest =>
      if tag.toNat < 251 then some (⟨tag.toNat, tag.toNat_lt.trans (by decide)⟩, rest)
      else if tag = 251 then ((bytes 2).decode rest).map (widened (by decide))
      else if tag = 252 then ((bytes 4).decode rest).map (widened (by decide))
      else if tag = 253 then (bytes 8).decode rest
      else none
  decode_encode := by
    intro w rest
    by_cases hbyte : w.1 < 251
    · have hback : (UInt8.ofNat w.1).toNat = w.1 := Nat.mod_eq_of_lt (by omega)
      simp [hbyte, hback]
    rw [if_neg hbyte]
    by_cases hshort : w.1 < 256 ^ 2
    · rw [if_pos hshort]
      show ((bytes 2).decode ((bytes 2).encode ⟨w.1, hshort⟩ ++ rest)).map _ = _
      rw [Codec.decode_encode]
      rfl
    rw [if_neg hshort]
    by_cases hword : w.1 < 256 ^ 4
    · rw [if_pos hword]
      show ((bytes 4).decode ((bytes 4).encode ⟨w.1, hword⟩ ++ rest)).map _ = _
      rw [Codec.decode_encode]
      rfl
    · rw [if_neg hword]
      show (bytes 8).decode ((bytes 8).encode w ++ rest) = _
      rw [Codec.decode_encode]

end Bincode

end Rostra
