/-
# The materialization feed (`social_post_materialization.rs`)

Every ordinary post that is materialized leaves one row in a feed, in commit order.  A consumer asks
for the tip once, then reads pages: a page is a snapshot in which each row is resolved against the
state its event has by then.  The appending side is with the reducers in `ContentOps`.

The reader rejects a row it cannot explain.  Its errors are those of `DbError` that only it raises,
and they have a type of their own here.
-/
import Mathlib.Data.PNat.Defs
import Rostra.Db.Social
import Rostra.Lib.Log

namespace Rostra.Db

open Rostra

/-- The most rows one scan resolves. -/
def SOCIAL_POST_MATERIALIZATION_SCAN_MAX : ℕ := 4096

/-- A durable position: every earlier occurrence is acknowledged. -/
structure SocialPostMaterializationCursor where
  position : ℕ
  deriving DecidableEq

/-- What a logged occurrence is by now: the post with its content, or the news that it is gone. -/
inductive SocialPostMaterialization
  | present (postId : ExternalEventId) (authoredAt : Timestamp) (content : SocialPost)
  | removed (postId : ExternalEventId)
  deriving DecidableEq

def SocialPostMaterialization.postId : SocialPostMaterialization → ExternalEventId
  | .present postId _ _ => postId
  | .removed postId => postId

structure SocialPostMaterializationPage where
  items : List SocialPostMaterialization
  /-- Acknowledges every occurrence before it. -/
  scannedThrough : SocialPostMaterializationCursor
  /-- No later occurrence in the same snapshot. -/
  exhausted : Bool
  deriving DecidableEq

inductive MaterializationError
  | db (e : DbError)
  | cursorOutOfRange (position durableNext : ℕ)
  | scanLimitTooHigh (requested maximum : ℕ)
  | logGap (expected actual : ℕ)
  | missingEvent (eventId : ShortEventId)
  | invalidKind (eventId : ShortEventId) (kind : EventKind)
  | missingState (eventId : ShortEventId)
  | invalidState (eventId : ShortEventId)
  | missingContent (eventId : ShortEventId)
  | invalidContent (eventId : ShortEventId)
  deriving DecidableEq

abbrev ScanResult := Except MaterializationError

def liftScan {α : Type} : DbResult α → ScanResult α
  | .ok a => .ok a
  | .error e => .error (.db e)

/-- The position behind the last row. -/
def getSocialPostMaterializationTip (db : Database) : DbResult SocialPostMaterializationCursor :=
  (nextMaterializationTx db.proj).map fun next => ⟨next⟩

variable [Primitives]

/-- The stored payload of a processed post.  Corruption comes before replacement. -/
def resolveProcessedTx (db : Database) (id : ShortEventId) (e : Event) :
    ScanResult SocialPostMaterialization :=
  match db.ev.contentStore.get e.contentHash with
  | none => .error (.missingContent id)
  | some raw =>
    match Primitives.cborSocialPost raw with
    | none => .error (.invalidContent id)
    | some content =>
      if isSocialPostReplacedTx db.proj e.author id then .ok (.removed ⟨e.author, id⟩)
      else .ok (.present ⟨e.author, id⟩ e.timestamp content)

def resolveSocialPostMaterializationTx (db : Database) (id : ShortEventId) :
    ScanResult SocialPostMaterialization :=
  match db.ev.events.get id with
  | none => .error (.missingEvent id)
  | some e =>
    if e.kind ≠ EventKind.SOCIAL_POST then .error (.invalidKind id e.kind)
    else match db.ev.eventsContentState.get id with
      | some (.deleted _) | some .pruned => .ok (.removed ⟨e.author, id⟩)
      | some (.missing ..) => .error (.missingState id)
      | some .invalid => .error (.invalidState id)
      | none => resolveProcessedTx db id e

/-- The next key must be the expected one. A gap is an error of the log, with both numbers. -/
def checkSequence (expected actual : ℕ) : ScanResult Unit :=
  if actual ≠ expected then .error (.logGap expected actual) else .ok ()

/-- Resolve at most `limit` rows; one more key tells whether the snapshot has any left. -/
def scanLoop (db : Database) : ℕ → List (ℕ × ShortEventId) → ℕ →
    ScanResult SocialPostMaterializationPage
  | _, [], expected => .ok ⟨[], ⟨expected⟩, true⟩
  | 0, (actual, _) :: _, expected => do
    checkSequence expected actual
    return ⟨[], ⟨expected⟩, false⟩
  | limit + 1, (actual, id) :: rows, expected => do
    checkSequence expected actual
    let item ← resolveSocialPostMaterializationTx db id
    let next ← liftScan (checkedAdd .materialization expected 1)
    let page ← scanLoop db limit rows next
    return { page with items := item :: page.items }

def scanSocialPostMaterializations (db : Database) (after : Option SocialPostMaterializationCursor)
    (limit : ℕ+) : ScanResult SocialPostMaterializationPage := do
  if SOCIAL_POST_MATERIALIZATION_SCAN_MAX < (limit : ℕ) then
    throw (.scanLimitTooHigh limit SOCIAL_POST_MATERIALIZATION_SCAN_MAX)
  let durableNext ← liftScan (nextMaterializationTx db.proj)
  let expected := (after.map (·.position)).getD 0
  if durableNext < expected then throw (.cursorOutOfRange expected durableNext)
  scanLoop db limit (db.proj.socialPostMaterializations.rowsFrom expected) expected

end Rostra.Db
