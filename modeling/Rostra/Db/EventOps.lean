/-
# Inserting an event (`tx_ops.rs`)

`insert_event_tx` and what it is made of: identity registration, the author-scoped header graph
with its heads and missing parents, direct deletion of an auxiliary parent, reference counts,
per-author usage, and the initial content state.

The function is cut at its own seams.  `takeMissing` resolves the row that earlier children may
have left for this event; `processParentTx` is one turn of the loop over the parents, with its two
arms `deleteParentTx` and `missParentTx`; `storeHeaderTx` writes the header; `startContentTx` gives
the new event its content state: deleted, missing, or (empty content) processed.

Also here: `prune_event_content_tx`, the one place that moves content to `Pruned`.
-/
import Rostra.Db.Tables

namespace Rostra.Db

open Rostra

/-- Reducer precedence: signed timestamp, then short id. The id breaks ties, so that no two events are equal in it.
-/
abbrev EventOrder := Timestamp ×ₗ ShortEventId

def MAX_CONTENT_LEN : ℕ := 10000000

/-! ## 1. Identity registration

Identities are stored under half of their id, so that two of them can collide; the second one is refused. -/

/-- `ids_full::Table::register`: one full identity for each stored prefix. The tables refer to an identity by its
prefix, so a second one with the same prefix is refused. -/
def register (t : Table ShortRostraId RestRostraId) (id : RostraId) :
    DbResult (Table ShortRostraId RestRostraId) :=
  match t.get id.split.1 with
  | some existing =>
    if existing ≠ id.split.2 then
      .error (.identityPrefixCollision id.split.1 (toLex (id.split.1, existing)) id)
    else .ok t
  | none => .ok (t.insert id.split.1 id.split.2)

/-! ## 2. Reference counts

A row for every hash that is referred to, which is removed with its last reference. -/

def incrementContentRcTx (h : ContentHash) (rc : Table ContentHash ℕ) :
    DbResult (Table ContentHash ℕ) := do
  if rc.get h = some 0 then throw (.payloadAccountingInvariant .contentRc)
  let count ← checkedAdd .contentRc ((rc.get h).getD 0) 1
  pure (rc.insert h count)

/-- The row goes away with the last reference; the bytes do not. They are left to the collector. -/
def decrementContentRcTx (h : ContentHash) (rc : Table ContentHash ℕ) :
    DbResult (Table ContentHash ℕ) :=
  match rc.get h with
  | none => .error (.payloadAccountingInvariant .contentRc)
  | some current => do
    let count ← checkedSub .contentRc current 1
    pure (if count = 0 then rc.remove h else rc.insert h count)

/-! ## 3. Per-author usage

Sums for each author, by the class of the content. -/

/-- The five lifecycle buckets of a usage record. -/
inductive PayloadBucket
  | current | missing | deleted | pruned | invalid
  deriving DecidableEq

namespace IdsDataUsageRecord

def bucket (u : IdsDataUsageRecord) : PayloadBucket → PayloadTotal
  | .current => u.current
  | .missing => u.missing
  | .deleted => u.deleted
  | .pruned => u.pruned
  | .invalid => u.invalid

def setBucket (u : IdsDataUsageRecord) (b : PayloadBucket) (x : PayloadTotal) : IdsDataUsageRecord :=
  match b with
  | .current => { u with current := x }
  | .missing => { u with missing := x }
  | .deleted => { u with deleted := x }
  | .pruned => { u with pruned := x }
  | .invalid => { u with invalid := x }

end IdsDataUsageRecord

/-- One more payload of this length. -/
def PayloadTotal.add (t : PayloadTotal) (len : ℕ) : DbResult PayloadTotal := do
  let size ← checkedAdd .dataUsage t.size len
  let num ← checkedAdd .dataUsage t.num 1
  pure ⟨size, num⟩

/-- One payload of this length less. -/
def PayloadTotal.sub (t : PayloadTotal) (len : ℕ) : DbResult PayloadTotal := do
  let size ← checkedSub .dataUsage t.size len
  let num ← checkedSub .dataUsage t.num 1
  pure ⟨size, num⟩

abbrev UsageTable := Table RostraId IdsDataUsageRecord

def getUsage (author : RostraId) (t : UsageTable) : IdsDataUsageRecord := (t.get author).getD {}

def EVENT_METADATA_SIZE : ℕ := 192

def trackNewEventTx (author : RostraId) (t : UsageTable) : DbResult UsageTable := do
  let usage := getUsage author t
  let current ← usage.currentMetadata.add EVENT_METADATA_SIZE
  let total ← usage.totalMetadata.add EVENT_METADATA_SIZE
  pure (t.insert author { usage with currentMetadata := current, totalMetadata := total })

/-- A payload seen for the first time: it enters the total and one bucket. -/
def recordPayloadTx (dst : PayloadBucket) (author : RostraId) (len : ℕ) (t : UsageTable) :
    DbResult UsageTable := do
  let usage := getUsage author t
  let total ← usage.total.add len
  let target ← (usage.bucket dst).add len
  pure (t.insert author ({ usage with total := total }.setBucket dst target))

/-- A payload changes its bucket. The total is not touched: it counts every payload that was ever seen. -/
def movePayloadTx (src dst : PayloadBucket) (author : RostraId) (len : ℕ) (t : UsageTable) :
    DbResult UsageTable := do
  let usage := getUsage author t
  let rest ← (usage.bucket src).sub len
  let usage := usage.setBucket src rest
  let target ← (usage.bucket dst).add len
  pure (t.insert author (usage.setBucket dst target))

def trackNewPayloadTx : RostraId → ℕ → UsageTable → DbResult UsageTable := recordPayloadTx .missing

def trackNewDeletedPayloadTx : RostraId → ℕ → UsageTable → DbResult UsageTable :=
  recordPayloadTx .deleted

def trackPayloadProcessedTx : RostraId → ℕ → UsageTable → DbResult UsageTable :=
  movePayloadTx .missing .current

def trackPayloadInvalidTx : RostraId → ℕ → UsageTable → DbResult UsageTable :=
  movePayloadTx .missing .invalid

/-- The bucket is chosen by the state the content is deleted from. -/
def trackPayloadDeletionTx (author : RostraId) (len : ℕ) (oldState : Option EventContentState)
    (t : UsageTable) : DbResult UsageTable :=
  match oldState with
  | some (.missing ..) => movePayloadTx .missing .deleted author len t
  | some .invalid => movePayloadTx .invalid .deleted author len t
  | some .pruned => movePayloadTx .pruned .deleted author len t
  | none => movePayloadTx .current .deleted author len t
  | some (.deleted _) => .error (.payloadAccountingInvariant .dataUsage)

def trackPayloadPruningTx (author : RostraId) (len : ℕ) (oldState : Option EventContentState)
    (t : UsageTable) : DbResult UsageTable :=
  match oldState with
  | some (.missing ..) => movePayloadTx .missing .pruned author len t
  | none => movePayloadTx .current .pruned author len t
  | some _ => .error (.payloadAccountingInvariant .dataUsage)

/-! ## 4. Deletion attribution

A deletion is attributed to the deleter of the greatest time and id, which may arrive after others. -/

/-- Of several direct deleters the greatest `(timestamp, id)` is remembered. -/
def mergeDeletedByTx (current : Option ShortEventId) (candidate : Option EventOrder)
    (events : Table ShortEventId Event) : DbResult (Option ShortEventId) :=
  match candidate, current with
  | none, _ => .ok current
  | some c, none => .ok (some (ofLex c).2)
  | some c, some currentId =>
    match events.get currentId with
    | none => .error (.missingDeletionAttribution currentId)
    | some e => .ok (some (ofLex (max (toLex (e.timestamp, currentId)) c)).2)

/-! ## 5. Insertion

The parts of `insert_event_tx`, in its order. -/

inductive InsertEventOutcome
  | alreadyPresent
  | inserted (wasMissing isDeleted : Bool) (deletedParent : Option ShortEventId)
      (revertedParentContent : Option Bytes) (missingParents : List ShortEventId)
  deriving DecidableEq

variable [Primitives]

/-- Resolve the row earlier children left for this event, or make the event a head.  The two
flags are `was_missing` and `is_deleted`. -/
def takeMissing (t : EventTables) (v : VerifiedEvent) : EventTables × Bool × Bool :=
  let key := (v.event.author, v.id)
  match t.eventsMissing.get key with
  | some row =>
    let t := { t with eventsMissing := t.eventsMissing.remove key }
    match row.deletedBy with
    | some deletedBy =>
      ({ t with eventsContentState := t.eventsContentState.insert v.id (.deleted deletedBy) },
        true, true)
    | none => (t, true, false)
  | none => ({ t with eventsHeads := insert key t.eventsHeads }, false, false)

/-- When both parents are the same event it is visited once, as the one that can be deleted. -/
def parentIds (e : Event) : List (Option ShortEventId × Bool) :=
  if e.parentAux = e.parentPrev then [(e.parentAux, true)]
  else [(e.parentAux, true), (e.parentPrev, false)]

/-- What the loop over the parents has found so far: the tables as they are now, and what the caller has to be
told. -/
structure ParentScan where
  ev : EventTables
  deletedParent : Option ShortEventId := none
  revertedParentContent : Option Bytes := none
  missingParents : List ShortEventId := []

/-- Is the deletion flag about this parent? It is only ever about the auxiliary one. -/
def deletesParent (v : VerifiedEvent) (parentIsAux : Bool) : Bool :=
  v.event.isDeleteParentAuxContentSet && parentIsAux

/-- Dequeue the scheduled fetch of content that leaves `Missing`. The key is in the state, so it has to be read
before the state is overwritten. -/
def unscheduleTx (state : Option EventContentState) (id : ShortEventId)
    (queue : Finset (Timestamp ×ₗ ShortEventId)) : Finset (Timestamp ×ₗ ShortEventId) :=
  match state with
  | some (.missing _ _ next) => queue.erase (toLex (next, id))
  | _ => queue

/-- Has the reference of content in this state been released before? Processed and missing content still owns one.
-/
def rcAlreadyDecremented : Option EventContentState → Bool
  | some (.deleted _) | some .pruned | some .invalid => true
  | _ => false

/-- Release the reference of deleted content, unless an earlier transition did. -/
def releaseContentRcTx (oldState : Option EventContentState) (h : ContentHash)
    (rc : Table ContentHash ℕ) : DbResult (Table ContentHash ℕ) :=
  if rcAlreadyDecremented oldState then .ok rc else decrementContentRcTx h rc

/-- Deleted content changes its bucket once, however many events delete it. -/
def trackParentDeletionTx (oldState : Option EventContentState) (parent : Event) (t : UsageTable) :
    DbResult UsageTable :=
  match oldState with
  | some (.deleted _) => .ok t
  | _ => trackPayloadDeletionTx parent.author parent.contentLen oldState t

/-- The deleter recorded in a content state. -/
def EventContentState.deletedBy? : Option EventContentState → Option ShortEventId
  | some (.deleted d) => some d
  | _ => none

/-- The deletion arm: a stored parent of the same author loses its content.  Only processed content
applied projections, so only its bytes are handed back. -/
def deleteParentTx (s : ParentScan) (v : VerifiedEvent) (parentId : ShortEventId) (parent : Event) :
    DbResult ParentScan := do
  let t := s.ev
  let oldState := t.eventsContentState.get parentId
  let deletedBy ← mergeDeletedByTx (EventContentState.deletedBy? oldState)
    (some (toLex (v.event.timestamp, v.id))) t.events
  let rc ← releaseContentRcTx oldState parent.contentHash t.contentRc
  let usage ← trackParentDeletionTx oldState parent t.idsDataUsage
  pure { s with
    deletedParent := some parentId
    revertedParentContent := if oldState.isNone then
        (t.contentStore.get parent.contentHash).or s.revertedParentContent
      else s.revertedParentContent
    ev := { t with
      eventsContentState := t.eventsContentState.insert parentId (.deleted (deletedBy.getD v.id))
      eventsContentMissing := unscheduleTx oldState parentId t.eventsContentMissing
      contentRc := rc
      idsDataUsage := usage } }

/-- The missing arm: the parent is not here, or not this author's. What will have deleted it is remembered in the
row, for the time when it arrives. -/
def missParentTx (s : ParentScan) (v : VerifiedEvent) (parentId : ShortEventId)
    (parentIsAux : Bool) : DbResult ParentScan := do
  let t := s.ev
  let key := (v.event.author, parentId)
  let deletedBy ← mergeDeletedByTx ((t.eventsMissing.get key).bind (·.deletedBy))
    (if deletesParent v parentIsAux then some (toLex (v.event.timestamp, v.id)) else none) t.events
  pure { s with
    missingParents := s.missingParents ++ [parentId]
    ev := { t with eventsMissing := t.eventsMissing.insert key ⟨deletedBy⟩ } }

/-- A parent as this author can name it. An event of somebody else with that id counts as missing. -/
def ownParent? (t : EventTables) (author : RostraId) (parentId : ShortEventId) : Option Event :=
  (t.events.get parentId).filter fun e => e.author = author

def visitParentTx (v : VerifiedEvent) (s : ParentScan) (parentId : ShortEventId)
    (parentIsAux : Bool) : DbResult ParentScan :=
  match ownParent? s.ev v.event.author parentId with
  | some parent =>
    if deletesParent v parentIsAux then deleteParentTx s v parentId parent else .ok s
  | none => missParentTx s v parentId parentIsAux

/-- One turn of the loop; a parent with a child is no head, whether the parent is here or not. -/
def processParentTx (v : VerifiedEvent) (s : ParentScan) (p : Option ShortEventId × Bool) :
    DbResult ParentScan :=
  match p.1 with
  | none => .ok s
  | some parentId => do
    let s ← visitParentTx v s parentId p.2
    pure { s with
      ev := { s.ev with eventsHeads := s.ev.eventsHeads.erase (v.event.author, parentId) } }

/-- The header, its time index and its metadata charge. -/
def storeHeaderTx (t : EventTables) (v : VerifiedEvent) : DbResult EventTables := do
  let usage ← trackNewEventTx v.event.author t.idsDataUsage
  pure { t with
    events := t.events.insert v.id v.event
    eventsByTime := insert (v.event.timestamp, v.id) t.eventsByTime
    idsDataUsage := usage }

/-- `Missing`, never attempted, due at once. -/
def EventContentState.freshMissing : EventContentState := .missing none 0 0

/-- Content that starts deleted skips reference and schedule. It is charged to the usage all the same, in the
bucket of deleted content. -/
def startDeletedTx (t : EventTables) (v : VerifiedEvent) : DbResult EventTables := do
  let usage ← trackNewDeletedPayloadTx v.event.author v.event.contentLen t.idsDataUsage
  pure { t with idsDataUsage := usage }

/-- Nonempty content starts `Missing`, and is scheduled unless its bytes are already stored. -/
def startMissingTx (t : EventTables) (v : VerifiedEvent) : DbResult EventTables := do
  let rc ← incrementContentRcTx v.event.contentHash t.contentRc
  let usage ← trackNewPayloadTx v.event.author v.event.contentLen t.idsDataUsage
  pure { t with
    contentRc := rc
    idsDataUsage := usage
    eventsContentState := t.eventsContentState.insert v.id .freshMissing
    eventsContentMissing :=
      if (t.contentStore.get v.event.contentHash).isNone then
        insert (toLex (0, v.id)) t.eventsContentMissing
      else t.eventsContentMissing }

/-- Empty content is stored under whatever hash the header names, and is processed at once. -/
def startEmptyTx (t : EventTables) (v : VerifiedEvent) : DbResult EventTables := do
  let rc ← incrementContentRcTx v.event.contentHash t.contentRc
  let usage ← trackNewPayloadTx v.event.author v.event.contentLen t.idsDataUsage
  let usage ← trackPayloadProcessedTx v.event.author v.event.contentLen usage
  pure { t with
    contentRc := rc
    idsDataUsage := usage
    contentStore :=
      if (t.contentStore.get v.event.contentHash).isNone then
        t.contentStore.insert v.event.contentHash []
      else t.contentStore }

/-- The content state a new event starts in. An event without content is processed as it arrives. -/
def startContentTx (t : EventTables) (v : VerifiedEvent) (isDeleted : Bool) :
    DbResult EventTables :=
  if isDeleted then startDeletedTx t v
  else if 0 < v.event.contentLen then startMissingTx t v
  else startEmptyTx t v

/-- A header that is not stored yet. What was noted about it while it was missing is taken first, then its parents
are visited, and only then is it stored. -/
def insertNewEventTx (t : EventTables) (v : VerifiedEvent) :
    DbResult (EventTables × InsertEventOutcome) := do
  let taken := takeMissing t v
  let s ← (parentIds v.event).foldlM (processParentTx v) { ev := taken.1 }
  let t ← storeHeaderTx s.ev v
  let t ← startContentTx t v taken.2.2
  pure (t, .inserted taken.2.1 taken.2.2 s.deletedParent s.revertedParentContent s.missingParents)

/-- Insert an event and perform all DAG accounting. The identity is registered even when the event is here already.
-/
def insertEventTx (t : EventTables) (v : VerifiedEvent) :
    DbResult (EventTables × InsertEventOutcome) := do
  let idsFull ← register t.idsFull v.event.author
  if (t.events.get v.id).isSome then pure ({ t with idsFull := idsFull }, .alreadyPresent)
  else insertNewEventTx { t with idsFull := idsFull } v

/-! ## 6. Pruning

Content that was deleted or found invalid is not pruned; what is pruned releases its reference and leaves the
schedule. -/

/-- Move content to `Pruned`.  Returns `false` for content that was deleted or found invalid. -/
def pruneEventContentTx (t : EventTables) (id : ShortEventId) (e : Event) :
    DbResult (EventTables × Bool) :=
  let oldState := t.eventsContentState.get id
  match oldState with
  | some (.deleted _) => .ok (t, false)
  | some .invalid => .ok (t, false)
  | some .pruned => .ok (t, true)
  | some (.missing ..) | none => do
    let rc ← decrementContentRcTx e.contentHash t.contentRc
    let usage ← trackPayloadPruningTx e.author e.contentLen oldState t.idsDataUsage
    pure ({ t with
      contentRc := rc
      idsDataUsage := usage
      eventsContentState := t.eventsContentState.insert id .pruned
      eventsContentMissing := unscheduleTx oldState id t.eventsContentMissing }, true)

/-- Ordinary content processing is wanted in `Missing` and in no other state. -/
def canInsertEventContentTx (t : EventTables) (id : ShortEventId) : Bool :=
  match t.eventsContentState.get id with
  | some (.missing ..) => true
  | _ => false

end Rostra.Db
