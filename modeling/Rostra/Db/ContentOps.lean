/-
# Projecting payloads (`process_event_content_ops.rs`)

What a payload does to the derived tables when it is processed, and what is undone when a
processed social post is dematerialized.

* Sections 1-4 are the small reducers: latest-value rows, reception order, the follow epoch,
  votes and news ranks, node endpoints, the materialization feed, DM devices.
* Section 5 is the social post: the projection plan (a deleting post with a blank body is
  skipped), the receipt pair, the replacement lineage, and the reply/reaction rows with their
  counts.
* Section 6 dispatches on the kind.  A payload is `Invalid` when it does not decode; that is
  found out before anything is written, so the caller keeps the tables it had.
* Section 7 is the reversal.  Only social posts are reverted.
-/
import Rostra.Db.EventOps

namespace Rostra.Db

open Rostra

/-- Processing fails either in the database or because the payload is not what its kind says. -/
inductive ProcessEventError
  | db (e : DbError)
  | invalid
  deriving DecidableEq

abbrev ProcessEventResult := Except ProcessEventError

/-- The `?` that turns a database error into a processing error. It aborts the transaction, while `Invalid` is a
verdict about the payload. -/
def liftDb {α : Type} : DbResult α → ProcessEventResult α
  | .ok a => .ok a
  | .error e => .error (.db e)

/-- `.boxed().context(InvalidSnafu)?` on a decoder: what cannot be read is invalid, and no error of the database.
-/
def decodeOr {α : Type} : Option α → ProcessEventResult α
  | some a => .ok a
  | none => .error .invalid

/-! ## 1. Latest values and reception order

Two helpers that several kinds share. -/

/-- Keep the value of the greatest `(timestamp, id)`. On equal keys the old row stays, as it is the same event. -/
def insertLatestValueTx {K V : Type} [DecidableEq K] (timestamp : Timestamp) (key : K) (value : V)
    (eventId : V → ShortEventId) (t : Table K (Latest V)) : Table K (Latest V) :=
  match t.get key with
  | some existing =>
    if toLex (timestamp, eventId value) ≤ toLex (existing.ts, eventId existing.inner) then t
    else t.insert key ⟨timestamp, value⟩
  | none => t.insert key ⟨timestamp, value⟩

/-- Allocate the next sequence number; returns it with the counter that follows. -/
def nextReceptionOrderTx (next : Option ℕ) : DbResult (ℕ × Option ℕ) := do
  let following ← checkedAdd .receptionOrder (next.getD 0) 1
  pure (next.getD 0, some following)

/-- Insert one member under a fresh `(receivedAt, order)` key, never replacing a row. -/
def insertReceptionOrderedTx {V : Type} (next : Option ℕ) (receivedAt : Timestamp) (value : V)
    (t : Table (Timestamp × ℕ) V) : DbResult (ℕ × Option ℕ × Table (Timestamp × ℕ) V) := do
  let (order, next) ← nextReceptionOrderTx next
  if (t.get (receivedAt, order)).isSome then
    throw (.receptionOrderCollision receivedAt order)
  pure (order, next, t.insert (receivedAt, order) value)

/-- Old synced posts are filed under their own time instead of now. -/
def effectiveReceivedAt (env : Env) (p : Projections) (author : RostraId) (eventTs now : Timestamp) :
    Timestamp :=
  if author = env.selfId then now
  else if env.dbInitTime ≤ eventTs then now
  else match p.idsFollowees.get (env.selfId, author) with
    | none => now
    | some record => if eventTs < record.firstTs then eventTs else now

/-! ## 2. Follows

The history is kept as a set of orders for each pair; the current follow, the last unfollow and the reverse table
are rows beside it. -/

/-- The recorded follow events of one pair, in the order of their precedence. -/
def followOrders (p : Projections) (author followee : RostraId) : Finset EventOrder :=
  (p.idsFollowEvents.filter fun k => k.1 = author ∧ k.2.1 = followee).image fun k => k.2.2

def firstFollowTsAfterTx (p : Projections) (author followee : RostraId)
    (boundary : Option EventOrder) : Option Timestamp :=
  (Table.nextAfter (followOrders p author followee) boundary).map fun o => (ofLex o).1

/-- `BATCH_SIZE`: how many keys one turn of the pruning loop reads, since a range cannot be changed
while it is read. -/
def FOLLOW_PRUNE_BATCH : ℕ := 256

/-- One turn deletes a batch from the beginning of the range; a batch that is not full is the last.
Every other turn deletes `FOLLOW_PRUNE_BATCH` rows, so the number of rows bounds the turns. -/
def pruneFollowEventsLoop (author followee : RostraId) (boundary : EventOrder) :
    ℕ → Projections → Projections
  | 0, p => p
  | fuel + 1, p =>
    let keys := Table.firstKeys ((followOrders p author followee).filter (· ≤ boundary))
      FOLLOW_PRUNE_BATCH
    let pruned := { p with idsFollowEvents :=
      p.idsFollowEvents \ (keys.map fun order => (author, followee, order)).toFinset }
    if keys.length < FOLLOW_PRUNE_BATCH then pruned
    else pruneFollowEventsLoop author followee boundary fuel pruned

/-- Discard follow history through an unfollow. Events of the boundary or before it can never matter again. -/
def pruneFollowEventsThroughTx (p : Projections) (author followee : RostraId)
    (boundary : EventOrder) : Projections :=
  pruneFollowEventsLoop author followee boundary (p.idsFollowEvents.card + 1) p

/-- Returns the tables and whether the current follow changed. A follow that is not after the last unfollow is not
even recorded. -/
def insertFollowTx (p : Projections) (author : RostraId) (order : EventOrder) (content : Follow) :
    Projections × Bool :=
  let followee := content.followee
  let key := (author, followee)
  let boundary : Option EventOrder := (p.idsUnfollowed.get key).map fun r => toLex (r.ts, r.eventId)
  if boundary.any (order ≤ ·) then (p, false)
  else
    let p := { p with idsFollowEvents := insert (author, followee, order) p.idsFollowEvents }
    let supersede : Projections × Bool :=
      let firstTs := (firstFollowTsAfterTx p author followee boundary).getD (ofLex order).1
      ({ p with
        idsFollowees := p.idsFollowees.insert key
          ⟨(ofLex order).1, (ofLex order).2, firstTs, content.selector, content.personaTagsSelector⟩
        idsFollowers := insert (followee, author) p.idsFollowers }, true)
    match p.idsFollowees.get key with
    | some existing =>
      if order ≤ toLex (existing.latestTs, existing.latestEventId) then
        -- an older follow can only move the start of the epoch
        let firstTs := (firstFollowTsAfterTx p author followee boundary).getD existing.latestTs
        if firstTs = existing.firstTs then (p, false)
        else ({ p with idsFollowees :=
                  p.idsFollowees.insert key { existing with firstTs := firstTs } }, true)
      else supersede
    | none => supersede

def insertUnfollowTx (p : Projections) (author : RostraId) (order : EventOrder)
    (followee : RostraId) : Projections × Bool :=
  let key := (author, followee)
  let boundary : Option EventOrder := (p.idsUnfollowed.get key).map fun r => toLex (r.ts, r.eventId)
  if boundary.any (order ≤ ·) then (p, false)
  else
    let p := { p with idsUnfollowed := p.idsUnfollowed.insert key ⟨(ofLex order).1, (ofLex order).2⟩ }
    let p := pruneFollowEventsThroughTx p author followee order
    let unfollow : Projections × Bool :=
      ({ p with
        idsFollowees := p.idsFollowees.remove key
        idsFollowers := p.idsFollowers.erase (followee, author) }, true)
    match p.idsFollowees.get key with
    | some existing =>
      if order < toLex (existing.latestTs, existing.latestEventId) then
        let firstTs := (firstFollowTsAfterTx p author followee (some order)).getD existing.latestTs
        ({ p with idsFollowees :=
            p.idsFollowees.insert key { existing with firstTs := firstTs } }, true)
      else unfollow
    | none => unfollow

/-! ## 3. Votes and news

Sums of votes are running sums, and ranks are recomputed from them one post at a time. -/

/-- Saturation at the bounds of `i64`. An overflow is not an error here, so the sum is then no longer exact. -/
def satI64 (x : ℤ) : ℤ := max (-2 ^ 63) (min (2 ^ 63 - 1) x)

def socialVoteAuxKey (replyTo : ExternalEventId) : EventAuxKey := replyTo.eventId

def validateSocialVoteProjection (record : EventSingletonRecord) (auxKey : EventAuxKey) :
    DbResult SocialVoteProjection :=
  match record.socialVote with
  | none => .error (.missingVoteSingletonProjection record.eventId)
  | some vote =>
    if socialVoteAuxKey vote.target ≠ auxKey then
      .error (.invalidVoteSingletonProjection record.eventId)
    else .ok vote

/-- Add one adjustment to a target's running sum. The time of the last vote moves forward only, and a zero
adjustment leaves no row. -/
def adjustVoteSum (order : EventOrder) (sums : Table ExternalEventId SocialVoteSumRecord)
    (adjustment : ExternalEventId × ℤ) : Table ExternalEventId SocialVoteSumRecord :=
  if adjustment.2 = 0 then sums
  else
    let record := (sums.get adjustment.1).getD ⟨0, 0⟩
    sums.insert adjustment.1
      ⟨max record.lastVoteTime (ofLex order).1, satI64 (record.currentSum + adjustment.2)⟩

def voteAdjustments (previous : Option SocialVoteProjection) (vote : SocialVoteProjection) :
    List (ExternalEventId × ℤ) :=
  match previous with
  | some old =>
    if old.target = vote.target then [(vote.target, vote.value.score - old.value.score)]
    else [(old.target, -old.value.score), (vote.target, vote.value.score)]
  | none => [(vote.target, vote.value.score)]

/-- The aggregate half of a winning vote; the singleton row is written by the caller. -/
def processSocialVoteTx (p : Projections) (vote : SocialVoteProjection) (author : RostraId)
    (order : EventOrder) : DbResult Projections :=
  let auxKey := socialVoteAuxKey vote.target
  match p.eventsSingletonsNew.get (author, EventKind.SOCIAL_VOTE, auxKey) with
  | some existing =>
    if order ≤ toLex (existing.ts, existing.inner.eventId) then .ok p
    else do
      let previous ← validateSocialVoteProjection existing.inner auxKey
      pure { p with socialVoteSums :=
        (voteAdjustments (some previous) vote).foldl (adjustVoteSum order) p.socialVoteSums }
  | none => .ok { p with socialVoteSums :=
      (voteAdjustments none vote).foldl (adjustVoteSum order) p.socialVoteSums }

def upsertSocialNewsRankTx (p : Projections) (postId : ExternalEventId) (creationTs : Timestamp)
    (score : ℤ) : Projections :=
  let p := match p.socialNewsRankByPostId.get postId with
    | some existing => { p with
        socialNewsRankByScore := p.socialNewsRankByScore.erase (existing.score, postId)
        socialNewsRankByTime := p.socialNewsRankByTime.erase (existing.creationTs, postId) }
    | none => p
  { p with
    socialNewsRankByPostId := p.socialNewsRankByPostId.insert postId ⟨creationTs, score⟩
    socialNewsRankByScore := insert (score, postId) p.socialNewsRankByScore
    socialNewsRankByTime := insert (creationTs, postId) p.socialNewsRankByTime }

def removeSocialNewsRankTx (p : Projections) (postId : ExternalEventId) : Projections :=
  match p.socialNewsRankByPostId.get postId with
  | none => p
  | some existing => { p with
      socialNewsRankByPostId := p.socialNewsRankByPostId.remove postId
      socialNewsRankByScore := p.socialNewsRankByScore.erase (existing.score, postId)
      socialNewsRankByTime := p.socialNewsRankByTime.erase (existing.creationTs, postId) }

def NEWS_MAX_AGE_SECS : ℕ := 4 * 365 * 24 * 60 * 60

/-- Votes over age; `/` on `i128` truncates toward zero. -/
def calculateNewsScore (creationTs : Timestamp) (voteSum : ℤ) (now : Timestamp) : ℤ :=
  satI64 ((10 + voteSum * 10000).tdiv ((now - creationTs) / 3600 + 1 : ℕ))

/-- Rescore one ranked post, or drop it once it is too old.  Returns whether it is ranked. -/
def recalculateNewsPostScoreTx (p : Projections) (postId : ExternalEventId) (now : Timestamp) :
    Projections × Bool :=
  match p.socialNewsRankByPostId.get postId with
  | none => (p, false)
  | some existing =>
    if NEWS_MAX_AGE_SECS < now - existing.creationTs then (removeSocialNewsRankTx p postId, false)
    else
      let voteSum := ((p.socialVoteSums.get postId).map (·.currentSum)).getD 0
      let score := calculateNewsScore existing.creationTs voteSum now
      if score = existing.score then (p, true)
      else (upsertSocialNewsRankTx p postId existing.creationTs score, true)

/-! ## 4. Nodes, feed and devices

Three small reducers that have nothing to do with each other. -/

/-- One author's endpoints, oldest announcement first. -/
def nodeOrders (t : Table (RostraId × IrohNodeId) IrohNodeRecord) (id : RostraId) :
    Finset (Timestamp ×ₗ IrohNodeId) :=
  (t.keys.filter fun k => k.1 = id).image fun k =>
    toLex (((t.get k).map (·.announcementTs)).getD 0, k.2)

def trimIrohNodesToLimitTx (id : RostraId) (t : Table (RostraId × IrohNodeId) IrohNodeRecord) :
    Table (RostraId × IrohNodeId) IrohNodeRecord :=
  if 10 < (nodeOrders t id).card then
    match Table.least (nodeOrders t id) with
    | some last => t.remove (id, (ofLex last).2)
    | none => t
  else t

def announceNodeTx (p : Projections) (author : RostraId) (addr : IrohNodeId) (ts : Timestamp) :
    Projections :=
  let existing := (p.idsNodes.get (author, addr)).getD ⟨ts, {}⟩
  let record := { existing with announcementTs := max existing.announcementTs ts }
  { p with idsNodes := trimIrohNodesToLimitTx author (p.idsNodes.insert (author, addr) record) }

/-- The sequence number after the last one of the feed. -/
def nextMaterializationTx (p : Projections) : DbResult ℕ :=
  match Table.greatest p.socialPostMaterializations.keys with
  | none => .ok 0
  | some last => checkedAdd .materialization last 1

/-- Append one occurrence to the feed; `u64::MAX` is never used as a sequence number. -/
def appendSocialPostMaterializationTx (ctx : TxCtx) (p : Projections) (id : ShortEventId) :
    DbResult Projections := do
  if !ctx.materializationEmission then return p
  let next ← nextMaterializationTx p
  if next = u64Max then throw (.overflow .materialization .add)
  return { p with socialPostMaterializations := p.socialPostMaterializations.insert next id }

/-- The index rows of one device's newest epoch. -/
def dmIndexRows (account : RostraId) (device : Bytes) (state : Dm.DeviceState) :
    Finset (RostraId × (ℕ × ℕ) × (Timestamp × ShortEventId × Bytes)) :=
  match state.latest with
  | none => ∅
  | some (timestamp, event, epoch) =>
    let start := max epoch.sendFrom (timestamp - Dm.DM_FUTURE_ANNOUNCEMENT_SKEW)
    ((Dm.intervalPrefixes start epoch.sendUntil).map fun block =>
      (account, block, (timestamp, event, device))).toFinset

def dmApplyAnnouncementTx (env : Env) (p : Projections) (author : RostraId)
    (a : Dm.Announcement) (timestamp : Timestamp) (eventId : ShortEventId) : Projections :=
  let key := (author, a.deviceId)
  let old := (p.idsDmDevices.get key).getD {}
  let state := old.apply a timestamp eventId
  { p with
    idsDmDevicesByInterval :=
      (p.idsDmDevicesByInterval \ dmIndexRows author a.deviceId old) ∪
        dmIndexRows author a.deviceId state
    idsDmDevices := p.idsDmDevices.insert key state
    idsDmInstallation := p.idsDmInstallation.map fun i =>
      if author = env.selfId ∧ state.retired ∧ i.deviceId = a.deviceId then { i with retired := true }
      else i }

variable [Primitives]

/-! ## 5. Social posts

A post is applied by a fixed sequence of helpers, and taken back by their counterparts. The lineage and the feed
are not taken back. -/

inductive SocialPostProjectionPlan
  | skip
  | apply (replacedEventId : Option ShortEventId)
  deriving DecidableEq

/-- A deleting post with a nonblank body is an edit of its auxiliary parent. -/
def socialPostReplacedEventId (c : EventContent) (post : SocialPost) : Option ShortEventId :=
  if c.event.event.isDeleteParentAuxContentSet then
    c.event.event.parentAux.filter fun _ => post.djotContent.any fun text => !Text.isBlank text
  else none

def socialPostProjectionPlan (c : EventContent) (post : SocialPost) : SocialPostProjectionPlan :=
  let replaced := socialPostReplacedEventId c post
  if c.event.event.isDeleteParentAuxContentSet && replaced.isNone then .skip else .apply replaced

/-- The immutable forward and reverse lineage rows. -/
def insertSocialPostReplacementTx (p : Projections) (c : EventContent) (oldEventId : ShortEventId) :
    Projections :=
  { p with
    socialPostsReplacedBy :=
      insert (c.event.event.author, oldEventId, c.event.id) p.socialPostsReplacedBy
    socialPostsReplaces :=
      insert (c.event.event.author, c.event.id, oldEventId) p.socialPostsReplaces }

def insertSocialPostReceiptTx (p : Projections) (id : ShortEventId) (receivedAt : Timestamp) :
    DbResult Projections := do
  if (p.socialPostsReceivedAtKeys.get id).isSome then
    throw (.socialPostReceiptAlreadyIndexed id)
  let (order, next, receipts) ←
    insertReceptionOrderedTx p.receptionOrderNext receivedAt id p.socialPostsByReceivedAt
  pure { p with
    receptionOrderNext := next
    socialPostsByReceivedAt := receipts
    socialPostsReceivedAtKeys := p.socialPostsReceivedAtKeys.insert id (receivedAt, order) }

def removeSocialPostReceiptTx (p : Projections) (id : ShortEventId) : DbResult Projections :=
  match p.socialPostsReceivedAtKeys.get id with
  -- deletion can be established before the post was ever materialized
  | none => .ok p
  | some key =>
    if p.socialPostsByReceivedAt.get key ≠ some id then
      .error (.socialPostReceiptMismatch id (p.socialPostsByReceivedAt.get key))
    else .ok { p with
      socialPostsByReceivedAt := p.socialPostsByReceivedAt.remove key
      socialPostsReceivedAtKeys := p.socialPostsReceivedAtKeys.remove id }

/-- Is this a mention of the local user by somebody else? -/
def mentionsSelf (env : Env) (author : RostraId) (post : SocialPost) : Bool :=
  decide (author ≠ env.selfId) &&
    post.djotContent.any fun text => Primitives.containsMention text env.selfId

/-- One more reply or reaction, when the post carries one. -/
def countUpTx (present : Bool) (count : ℕ) : DbResult ℕ :=
  if present then checkedAdd .socialPost count 1 else .ok count

/-- One reply or reaction less. -/
def countDownTx (present : Bool) (count : ℕ) : DbResult ℕ :=
  if present then checkedSub .socialPost count 1 else .ok count

/-- The reply and reaction rows under the post replied to, with its counts. -/
def insertSocialPostReplyTx (p : Projections) (v : VerifiedEvent) (post : SocialPost)
    (target : ShortEventId) : DbResult Projections := do
  let record := (p.socialPosts.get target).getD {}
  let row := (target, v.event.timestamp, v.id)
  let replyCount ← countUpTx post.djotContent.isSome record.replyCount
  let reactionCount ← countUpTx post.reaction.isSome record.reactionCount
  pure { p with
    socialPosts := p.socialPosts.insert target ⟨replyCount, reactionCount⟩
    socialPostsReplies :=
      if post.djotContent.isSome then insert row p.socialPostsReplies else p.socialPostsReplies
    socialPostsReactions :=
      if post.reaction.isSome then insert row p.socialPostsReactions else p.socialPostsReactions }

def removeSocialPostReplyTx (p : Projections) (v : VerifiedEvent) (post : SocialPost)
    (target : ShortEventId) : DbResult Projections := do
  let record := (p.socialPosts.get target).getD {}
  let row := (target, v.event.timestamp, v.id)
  let replyCount ← countDownTx post.djotContent.isSome record.replyCount
  let reactionCount ← countDownTx post.reaction.isSome record.reactionCount
  pure { p with
    socialPosts := p.socialPosts.insert target ⟨replyCount, reactionCount⟩
    socialPostsReplies :=
      if post.djotContent.isSome then p.socialPostsReplies.erase row else p.socialPostsReplies
    socialPostsReactions :=
      if post.reaction.isSome then p.socialPostsReactions.erase row else p.socialPostsReactions }

/-- The reply half of a post, when it replies to one. -/
def insertReplyToTx (p : Projections) (v : VerifiedEvent) (post : SocialPost) :
    DbResult Projections :=
  match post.replyTo with
  | some target => insertSocialPostReplyTx p v post target.eventId
  | none => .ok p

def removeReplyToTx (p : Projections) (v : VerifiedEvent) (post : SocialPost) :
    DbResult Projections :=
  match post.replyTo with
  | some target => removeSocialPostReplyTx p v post target.eventId
  | none => .ok p

/-- The ordinary projections of a post whose plan is `apply`. -/
def applySocialPostTx (env : Env) (ctx : TxCtx) (p : Projections) (c : EventContent)
    (post : SocialPost) (replaced : Option ShortEventId) (now : Timestamp) : DbResult Projections := do
  let v := c.event
  let author := v.event.author
  let p := { p with socialPostsByTime := insert (v.event.timestamp, v.id) p.socialPostsByTime }
  let p ← insertSocialPostReceiptTx p v.id (effectiveReceivedAt env p author v.event.timestamp now)
  let p := match replaced with
    | some oldEventId => insertSocialPostReplacementTx p c oldEventId
    | none => p
  let p := if post.news then
      upsertSocialNewsRankTx p ⟨author, v.id⟩ (min v.event.timestamp now) 0
    else p
  let p := if mentionsSelf env author post then
      { p with socialPostsSelfMention := insert v.id p.socialPostsSelfMention }
    else p
  let p ← insertReplyToTx p v post
  appendSocialPostMaterializationTx ctx p v.id

/-- Take the ordinary projections of a post back. -/
def revertSocialPostTx (p : Projections) (c : EventContent) (post : SocialPost) :
    DbResult Projections := do
  let v := c.event
  let p := { p with socialPostsByTime := p.socialPostsByTime.erase (v.event.timestamp, v.id) }
  let p ← removeSocialPostReceiptTx p v.id
  let p := if post.news then removeSocialNewsRankTx p ⟨v.event.author, v.id⟩ else p
  let p := { p with socialPostsSelfMention := p.socialPostsSelfMention.erase v.id }
  removeReplyToTx p v post

/-- Lineage is all that an already deleted post may still contribute. -/
def processDeletedSocialPostReplacementTx (p : Projections) (c : EventContent) :
    ProcessEventResult (Projections × Bool) :=
  if c.event.event.kind ≠ EventKind.SOCIAL_POST ∨ MAX_CONTENT_LEN ≤ c.event.event.contentLen then
    .ok (p, false)
  else do
    let post ← decodeOr c.socialPost?
    match socialPostReplacedEventId c post with
    | none => pure (p, false)
    | some oldEventId => pure (insertSocialPostReplacementTx p c oldEventId, true)

/-! ## 6. Processing a payload

The match on the kind, and the row of a singleton after it. A kind returns early where the source does. -/

/-- The row written for a singleton event after its own reducer ran. -/
def insertSingletonTx (p : Projections) (v : VerifiedEvent) (record : EventSingletonRecord) :
    Projections :=
  if v.event.isSingleton then
    let key := (v.event.author, v.event.kind, v.event.keyAux)
    let rows := insertLatestValueTx v.event.timestamp key record EventSingletonRecord.eventId
      p.eventsSingletonsNew
    { p with eventsSingletonsNew := rows }
  else p

/-- The vote a payload stands for, when its header has the shape of a vote. -/
def shapedVote (v : VerifiedEvent) (vote : SocialVote) : Option SocialVoteProjection :=
  (vote.replyTo.filter fun target =>
    v.event.isSingleton && decide (v.event.keyAux = socialVoteAuxKey target)).map fun target =>
      ⟨target, .ofUpvote vote.upvote⟩

/-- The row of an event that is no vote. -/
def plainSingleton (v : VerifiedEvent) : Option EventSingletonRecord := some ⟨v.id, none⟩

/-- What a reducer returns: the tables, and the singleton row that follows, if one does. -/
abbrev Reduced := ProcessEventResult (Projections × Option EventSingletonRecord)

/-- `DM_DEVICE` and `DIRECT_MESSAGE`; neither may be a singleton or carry an auxiliary key. -/
def processDmTx (env : Env) (p : Projections) (c : EventContent) : Reduced :=
  let v := c.event
  if v.event.isSingleton || v.event.keyAux != 0 then .error .invalid
  else do
    let bytes ← decodeOr c.content
    if v.event.kind = EventKind.DM_DEVICE then do
      let announcement ← decodeOr (Dm.Announcement.decode bytes v.event.timestamp)
      pure (dmApplyAnnouncementTx env p v.event.author announcement v.event.timestamp v.id,
        plainSingleton v)
    else if Primitives.validateFrame bytes then
      pure ({ p with eventsDmPending := p.eventsDmPending.insert v.id none }, plainSingleton v)
    else .error .invalid

/-- Both kinds carry the same content; an unfollow is a follow without a selector. -/
def processFollowTx (p : Projections) (c : EventContent) : Reduced := do
  let v := c.event
  let order : EventOrder := toLex (v.event.timestamp, v.id)
  let content ← decodeOr c.follow?
  let p := if content.isUnfollow then (insertUnfollowTx p v.event.author order content.followee).1
    else (insertFollowTx p v.event.author order content).1
  pure (p, plainSingleton v)

def processNodeAnnouncementTx (p : Projections) (c : EventContent) : Reduced := do
  let v := c.event
  let addr ← decodeOr c.nodeAnnouncement?
  pure (announceNodeTx p v.event.author addr v.event.timestamp, plainSingleton v)

def processProfileUpdateTx (p : Projections) (c : EventContent) : Reduced := do
  let v := c.event
  let content ← decodeOr c.socialProfileUpdate?
  let record : IdSocialProfileRecord := ⟨v.id, content.displayName, content.bio, content.avatar⟩
  let profiles := insertLatestValueTx v.event.timestamp v.event.author record
    IdSocialProfileRecord.eventId p.socialProfiles
  pure ({ p with socialProfiles := profiles }, plainSingleton v)

/-- A skipped post returns before the singleton row. -/
def processSocialPostTx (env : Env) (ctx : TxCtx) (p : Projections) (c : EventContent)
    (now : Timestamp) : Reduced := do
  let post ← decodeOr c.socialPost?
  match socialPostProjectionPlan c post with
  | .skip => pure (p, none)
  | .apply replaced => do
    let p ← liftDb (applySocialPostTx env ctx p c post replaced now)
    pure (p, plainSingleton c.event)

/-- A payload without the shape of a vote returns early as well. -/
def processVoteTx (p : Projections) (c : EventContent) : Reduced := do
  let v := c.event
  let content ← decodeOr c.socialVote?
  match shapedVote v content with
  | none => pure (p, none)
  | some vote => do
    let p ← liftDb (processSocialVoteTx p vote v.event.author (toLex (v.event.timestamp, v.id)))
    pure (p, some ⟨v.id, some vote⟩)

def processShoutboxTx (env : Env) (p : Projections) (c : EventContent) (now : Timestamp) :
    Reduced := do
  let v := c.event
  let _content ← decodeOr c.shoutbox?
  let (_, next, rows) ← liftDb (insertReceptionOrderedTx p.receptionOrderNext
    (effectiveReceivedAt env p v.event.author v.event.timestamp now) v.id
    p.shoutboxPostsByReceivedAt)
  pure ({ p with receptionOrderNext := next, shoutboxPostsByReceivedAt := rows }, plainSingleton v)

/-- The reducer of the event's kind; unknown kinds only write their singleton row. -/
def processKindTx (env : Env) (ctx : TxCtx) (p : Projections) (c : EventContent) (now : Timestamp) :
    Reduced :=
  let kind := c.event.event.kind
  if kind = EventKind.DM_DEVICE ∨ kind = EventKind.DIRECT_MESSAGE then processDmTx env p c
  else if kind = EventKind.FOLLOW ∨ kind = EventKind.UNFOLLOW then processFollowTx p c
  else if kind = EventKind.NODE_ANNOUNCEMENT then processNodeAnnouncementTx p c
  else if kind = EventKind.SOCIAL_PROFILE_UPDATE then processProfileUpdateTx p c
  else if kind = EventKind.SOCIAL_POST then processSocialPostTx env ctx p c now
  else if kind = EventKind.SOCIAL_VOTE then processVoteTx p c
  else if kind = EventKind.SHOUTBOX then processShoutboxTx env p c now
  else .ok (p, plainSingleton c.event)

/-- Apply the side effects of a payload. -/
def processEventContentInsertedTx (env : Env) (ctx : TxCtx) (p : Projections) (c : EventContent)
    (now : Timestamp) : ProcessEventResult Projections := do
  let (p, record) ← processKindTx env ctx p c now
  match record with
  | some record => pure (insertSingletonTx p c.event record)
  | none => pure p

/-! ## 7. Taking a payload back

The content is decoded again, since no table remembers what was applied. -/

def processEventContentRevertedTx (p : Projections) (c : EventContent) :
    ProcessEventResult Projections := do
  if c.event.event.kind = EventKind.SOCIAL_POST then do
    let post ← decodeOr c.socialPost?
    match socialPostProjectionPlan c post with
    | .skip => pure p
    | .apply _ => liftDb (revertSocialPostTx p c post)
  else pure p

end Rostra.Db
