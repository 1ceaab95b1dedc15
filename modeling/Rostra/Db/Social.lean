/-
# Reading posts and their versions (`social.rs`)

The read side of the social tables: which version of a post is the newest, which versions its
replies are gathered from, and the two listings that merge the rows of all versions.

An edit leaves one row in each direction, keyed by the EDITING event's author.  Both walks follow
the first row of the current id until there is none.  The source loops without a bound; here a walk
has one step for each row of the table and one more, and `none` stands for a walk that does not end.
-/
import Mathlib.Data.Finset.Sort
import Rostra.Db.Ingest

namespace Rostra.Db

open Rostra

/-! ## 1. Walking the lineage

Two walks along one relation, with different ends in view. -/

/-- Rows of one direction: author, the key version, the version it leads to. -/
abbrev LineageRows := Finset (RostraId × ShortEventId × ShortEventId)

/-- `range((author, id, ZERO)..=(author, id, MAX)).next()`: of several rows, the one with the smallest third
component. -/
def firstLineageRow (rows : LineageRows) (author : RostraId) (id : ShortEventId) :
    Option ShortEventId :=
  Table.least ((rows.filter fun r => r.1 = author ∧ r.2.1 = id).image fun r => r.2.2)

def isSocialPostReplacedTx (p : Projections) (author : RostraId) (id : ShortEventId) : Bool :=
  (firstLineageRow p.socialPostsReplacedBy author id).isSome

/-- Every version from the current one on. The source has no bound on the walk; the fuel is one, and running out of
it is `none`. -/
def versionsLoop (rows : LineageRows) (author : RostraId) : ℕ → ShortEventId →
    Option (List ShortEventId)
  | 0, _ => none
  | fuel + 1, current =>
    match firstLineageRow rows author current with
    | none => some [current]
    | some next => (versionsLoop rows author fuel next).map (current :: ·)

/-- Follow the replacements forward, to a version that nothing replaces. -/
def latestSocialPostVersionTx (p : Projections) (author : RostraId) (id : ShortEventId) :
    Option ShortEventId :=
  (versionsLoop p.socialPostsReplacedBy author (p.socialPostsReplacedBy.card + 1) id).bind
    List.getLast?

/-- The post and everything it replaces, newest first, along the rows of the inverse table. -/
def socialPostVersionsTx (p : Projections) (author : RostraId) (id : ShortEventId) :
    Option (List ShortEventId) :=
  versionsLoop p.socialPostsReplaces author (p.socialPostsReplaces.card + 1) id

/-- The replies to all versions together; the sum saturates. -/
def socialPostReplyCountTx (p : Projections) (author : RostraId) (id : ShortEventId) : Option ℕ :=
  (socialPostVersionsTx p author id).map fun versions =>
    versions.foldl (fun n v => min u64Max (n + ((p.socialPosts.get v).getD {}).replyCount)) 0

/-! ## 2. Listings

A heap over the rows of all versions. -/

/-- `SocialPostRecord<SocialPost>`: a post as it is shown. -/
structure SocialPostView where
  ts : Timestamp
  eventId : ShortEventId
  author : RostraId
  replyTo : Option ExternalEventId
  content : SocialPost
  replyCount : ℕ
  deriving DecidableEq

/-- A row of an index: author time, then id. -/
abbrev IndexKey := Timestamp ×ₗ ShortEventId

/-- The rows under one version that come before the cursor, newest first. -/
def indexStream (rows : Finset (ShortEventId × Timestamp × ShortEventId)) (version : ShortEventId)
    (cursor : Option IndexKey) : List IndexKey :=
  (((rows.filter fun r => r.1 = version).image fun r => (toLex (r.2.1, r.2.2) : IndexKey)).filter
    fun k => cursor.all (k < ·)).sort (· ≥ ·)

/-- Put the next row of a stream on the heap. A stream that has none left stays away from it. -/
def pullStream (s : List (List IndexKey) × Finset (IndexKey ×ₗ ℕ)) (i : ℕ) :
    List (List IndexKey) × Finset (IndexKey ×ₗ ℕ) :=
  match s.1[i]? with
  | some (k :: rest) => (s.1.set i rest, insert (toLex (k, i)) s.2)
  | _ => s

/-- Take the newest row of all streams until there are enough records.  Every turn takes one row off
the heap, so the number of rows bounds the turns. -/
def paginateIndexLoop {T : Type} (load : IndexKey → Option (Option T)) : ℕ → ℕ →
    List (List IndexKey) × Finset (IndexKey ×ₗ ℕ) → Option (List T)
  | 0, _, _ => some []
  | fuel + 1, limit, s =>
    match Table.greatest s.2 with
    | none => some []
    | some top =>
      let next := pullStream (s.1, s.2.erase top) (ofLex top).2
      match load (ofLex top).1 with
      | none => none
      | some none => paginateIndexLoop load fuel limit next
      | some (some record) =>
        if limit = 1 then some [record]
        else (paginateIndexLoop load fuel (limit - 1) next).map (record :: ·)

def paginateSocialPostIndexRev {T : Type} (streams : List (List IndexKey)) (limit : ℕ)
    (load : IndexKey → Option (Option T)) : Option (List T) :=
  if limit = 0 then some []
  else paginateIndexLoop load ((streams.map List.length).sum + 1) limit
    ((List.range streams.length).foldl pullStream (streams, ∅))

variable [Primitives]

/-- The record of one listed event, if its content is here and readable. -/
def socialPostRecordByIdTx (db : Database) (id : ShortEventId) (ts : Timestamp) :
    Option (Option SocialPostView) :=
  match db.ev.events.get id with
  | none => some none
  | some e =>
    if (db.ev.eventsContentState.get id).isSome then some none
    else match (db.ev.contentStore.get e.contentHash).bind Primitives.cborSocialPost with
      | none => some none
      | some post => (socialPostReplyCountTx db.proj e.author id).map fun replyCount =>
          some ⟨ts, id, e.author, post.replyTo, post, replyCount⟩

/-- The versions a listing gathers from; an unknown post is its only version. -/
def listedVersions (db : Database) (postId : ShortEventId) : Option (List ShortEventId) :=
  match db.ev.events.get postId with
  | some e => socialPostVersionsTx db.proj e.author postId
  | none => some [postId]

/-- One page of the rows under all versions of a post, with the cursor of the next page. -/
def paginateVersionsRev (db : Database) (rows : Finset (ShortEventId × Timestamp × ShortEventId))
    (postId : ShortEventId) (cursor : Option IndexKey) (limit : ℕ) :
    Option (List SocialPostView × Option IndexKey) := do
  let versions ← listedVersions db postId
  let records ← paginateSocialPostIndexRev (versions.map fun v => indexStream rows v cursor) limit
    fun k => socialPostRecordByIdTx db (ofLex k).2 (ofLex k).1
  pure (records, records.getLast?.map fun r => toLex (r.ts, r.eventId))

def paginateSocialPostCommentsRev (db : Database) (postId : ShortEventId)
    (cursor : Option IndexKey) (limit : ℕ) : Option (List SocialPostView × Option IndexKey) :=
  paginateVersionsRev db db.proj.socialPostsReplies postId cursor limit

def paginateSocialPostReactionsRev (db : Database) (postId : ShortEventId)
    (cursor : Option IndexKey) (limit : ℕ) : Option (List SocialPostView × Option IndexKey) :=
  paginateVersionsRev db db.proj.socialPostsReactions postId cursor limit

/-! ## 3. The state of one post

A record is put together from the header, the content and the counters. -/

inductive EventContentAvailability
  | available | missing | invalid | deleted
  | pruned (quotaReason : Option QuotaPruneReason)
  deriving DecidableEq

/-- `SocialPostState`: the newest version of a requested post. The version is named even when its content is not
available. -/
structure SocialPostState where
  eventId : ShortEventId
  author : RostraId
  timestamp : Timestamp
  post : Option SocialPostView
  availability : EventContentAvailability
  deriving DecidableEq

/-- The two expectations of `get_social_post_state`. -/
inductive StatePanic
  /-- "replacement lineage references a retained event" -/
  | notRetained
  /-- "the event was read from the same snapshot" -/
  | notInSnapshot
  deriving DecidableEq

omit [Primitives] in
def getEventContentAvailabilityTx (db : Database) (id : ShortEventId) :
    Option EventContentAvailability :=
  if (db.ev.events.get id).isNone then none
  else match db.ev.eventsContentState.get id with
    | none => some .available
    | some (.missing ..) => some .missing
    | some .invalid => some .invalid
    | some (.deleted _) => some .deleted
    | some .pruned => some (.pruned ((db.quotaPruned.get id).map (·.reason)))

/-- The content of a post, if it is here and readable. A post with a state of any kind has none to show. -/
def getSocialPostRecordTx (db : Database) (id : ShortEventId) : Option SocialPost :=
  match db.ev.events.get id with
  | none => none
  | some e =>
    if (db.ev.eventsContentState.get id).isSome then none
    else (db.ev.contentStore.get e.contentHash).bind Primitives.cborSocialPost

/-- A post that only deletes is not shown: it has the flag, and no text that is more than blanks. -/
def shownPost (e : Event) (post : SocialPost) : Bool :=
  !(e.isDeleteParentAuxContentSet && !post.djotContent.any fun text => !Text.isBlank text)

/-- `Database::get_social_post_state`; `none` stands for a walk that does not end. -/
def getSocialPostState (db : Database) (id : ShortEventId) :
    Option (Except StatePanic (Option SocialPostState)) :=
  match db.ev.events.get id with
  | none => some (.ok none)
  | some requested =>
    match latestSocialPostVersionTx db.proj requested.author id with
    | none => none
    | some latest =>
      match db.ev.events.get latest, getEventContentAvailabilityTx db latest with
      | none, _ => some (.error .notRetained)
      | some _, none => some (.error .notInSnapshot)
      | some e, some availability =>
        match (getSocialPostRecordTx db latest).filter (shownPost e) with
        | none => some (.ok (some ⟨latest, e.author, e.timestamp, none, availability⟩))
        | some post => (socialPostReplyCountTx db.proj e.author latest).map fun replyCount =>
            .ok (some ⟨latest, e.author, e.timestamp,
              some ⟨e.timestamp, latest, e.author, post.replyTo, post, replyCount⟩, availability⟩)

end Rostra.Db
