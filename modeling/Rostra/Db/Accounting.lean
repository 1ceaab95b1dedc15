/-
# Payload accounting and the retention index

`payload_accounting.rs` and `retention_index.rs`: bookkeeping that can be thrown away and rebuilt,
maintained around every lifecycle reducer.

* A reducer is bracketed by `payloadBeforeTx` and `payloadAfterTx`.  The first captures the
  contribution of the event and of its auxiliary parent; the second takes the old contributions
  out, puts the new ones in, and revalidates what it touched once the accounting is `Ready`.
* Rebuilding is resumable: six scans with a durable cursor.  What the cursor has passed is kept
  current by the reducers (`eventCounted`, `hashCounted`), what is still ahead is counted when
  the scan gets there.
* The retention index keeps, for each eligible post, one grace row or its two ordered rows.

Neither of them is read by the lifecycle, so the only effect they have on it is to refuse a
transaction.
-/
import Rostra.Db.ContentOps

namespace Rostra.Db

open Rostra

def PAYLOAD_MAINTENANCE_MAX : ℕ := 4096

variable [Primitives]

/-! ## 1. Contributions

A stored event contributes to the sums of its author, of its hash and of the database, each in the bucket of its
content state. All arithmetic is checked, and an error names the counter. -/

/-- What one event adds to the accounting: to its author, to its hash, and to the database as a whole. -/
structure EventContribution where
  author : RostraId
  hash : ContentHash
  /-- Does the event still own a reference? -/
  referenced : Bool
  /-- Its length when processed, else zero. -/
  logical : ℕ
  /-- A local or non-post header protects its hash for good. -/
  isProtected : Bool
  deriving DecidableEq

/-- A row exists in `Missing` and in no row at all: the two states that hold a reference. -/
def isReferenced : Option EventContentState → Bool
  | none | some (.missing ..) => true
  | _ => false

def isProtectedHeader (env : Env) (e : Event) : Bool :=
  decide (e.author = env.selfId) || decide (e.kind ≠ EventKind.SOCIAL_POST)

/-- A processed event must find bytes of its own length in the store. Whoever wrote them is not asked. -/
def requireStoredTx (t : EventTables) (e : Event) (state : Option EventContentState) :
    DbResult Unit :=
  match state, t.contentStore.get e.contentHash with
  | some _, _ => .ok ()
  | none, none => .error (.payloadAccountingInvariant .contribution)
  | none, some b =>
    if b.length ≠ e.contentLen then .error (.payloadAccountingInvariant .contribution) else .ok ()

def contributionTx (env : Env) (t : EventTables) (id : ShortEventId) :
    DbResult (Option EventContribution) :=
  match t.events.get id with
  | none => .ok none
  | some e => do
    let state := t.eventsContentState.get id
    requireStoredTx t e state
    pure (some
      { author := e.author
        hash := e.contentHash
        referenced := isReferenced state
        logical := if state.isNone then e.contentLen else 0
        isProtected := isProtectedHeader env e })

def eventCounted (stage : AccountingStage) (id : ShortEventId) : Bool :=
  match stage with
  | .events cursor => cursor.any (id ≤ ·)
  | _ => true

def hashCounted (stage : AccountingStage) (h : ContentHash) : Bool :=
  match stage with
  | .events _ => false
  | .content cursor => cursor.any (h ≤ ·)
  | _ => true

def storedLenTx (t : EventTables) (h : ContentHash) : ℕ :=
  ((t.contentStore.get h).map List.length).getD 0

def accountingTx (a : Accounting) : AccountingRecord := a.state.getD {}

/-! ## 2. Around a reducer

What happens before and after a reducer, in the order of the source: contributions out, contributions in, then the
checks. -/

/-- Lifecycle snapshot taken before a reducer runs, of the events and of the hashes that it can change. -/
structure PayloadBefore where
  events : List (ShortEventId × Option EventContribution)
  hashes : List (ContentHash × ℕ)

/-- The event itself and, when there is one, its auxiliary parent. No other content changes its state in one call.
-/
def affectedIds (v : VerifiedEvent) : List ShortEventId :=
  match v.event.parentAux with
  | some parent => if parent ≠ v.id then [v.id, parent] else [v.id]
  | none => [v.id]

/-- The hashes of the snapshot, each once, the event's own first. -/
def affectedHashes (v : VerifiedEvent) (olds : List (ShortEventId × Option EventContribution)) :
    List ContentHash :=
  olds.foldl (fun hashes item => match item.2 with
    | some old => if old.hash ∈ hashes then hashes else hashes ++ [old.hash]
    | none => hashes) [v.event.contentHash]

def payloadBeforeTx (env : Env) (t : EventTables) (v : VerifiedEvent) : DbResult PayloadBefore := do
  let events ← (affectedIds v).mapM fun id => do
    let old ← contributionTx env t id
    pure (id, old)
  pure ⟨events, (affectedHashes v events).map fun h => (h, storedLenTx t h)⟩

/-- One step of a checked counter, up or down. -/
def changeTx (add : Bool) (current amount : ℕ) : DbResult ℕ :=
  if add then checkedAdd .accounting current amount else checkedSub .accounting current amount

/-- Only an event that owns a reference is counted as one. -/
def changeReferencesTx (add referenced : Bool) (current : ℕ) : DbResult ℕ :=
  if referenced then changeTx add current 1 else .ok current

/-- Add or remove one contribution, with every counter checked. The first one that does not fit aborts the
transaction. -/
def adjustContributionTx (a : Accounting) (record : AccountingRecord) (c : EventContribution)
    (add : Bool) : DbResult (Accounting × AccountingRecord) := do
  let hash := (a.hashes.get c.hash).getD {}
  let references ← changeReferencesTx add c.referenced hash.references
  let author ← changeTx add ((a.authors.get c.author).getD 0) c.logical
  let logical ← changeTx add record.usage.logicalCurrentBytes c.logical
  pure ({ a with
      -- headers are kept for good, so no lifecycle change releases the guard
      hashes := a.hashes.insert c.hash ⟨references, hash.protectedHistory || c.isProtected⟩
      authors := a.authors.insert c.author author },
    { record with usage := { record.usage with logicalCurrentBytes := logical } })

/-- The same for a contribution that may be absent. -/
def adjustOptionTx (a : Accounting) (record : AccountingRecord) (c : Option EventContribution)
    (add : Bool) : DbResult (Accounting × AccountingRecord) :=
  match c with
  | some c => adjustContributionTx a record c add
  | none => .ok (a, record)

def validateHashTx (t : EventTables) (a : Accounting) (h : ContentHash) : DbResult Unit :=
  let expected := ((a.hashes.get h).getD {}).references
  let actual := t.contentRc.get h
  if actual = some 0 ∨ actual.getD 0 ≠ expected then .error (.payloadAccountingInvariant .hash)
  else .ok ()

def validateAuthorTx (t : EventTables) (a : Accounting) (author : RostraId) : DbResult Unit :=
  let expected := (a.authors.get author).getD 0
  if (t.idsDataUsage.get author).map (·.current.size) ≠ some expected then
    .error (.payloadAccountingInvariant .author)
  else .ok ()

/-! ## 3. The retention index

An entry is derived from the header, the state and the two origins, and compared with the one that is stored. -/

inductive RetentionClock
  | untrusted
  | trusted (now : Timestamp)
  deriving DecidableEq

/-- The row a retained event should have, if it is eligible at all. It is computed from the header and the origins,
so the index can be compared with it at any time. -/
def deriveRetentionEntryTx (env : Env) (db : Database) (generation : RetentionGeneration)
    (id : ShortEventId) : DbResult (Option (IndexEntry × EventId)) := do
  if generation.holder ≠ env.selfId then throw (.payloadAccountingInvariant .retention)
  let policy := generation.policy
  match db.ev.events.get id with
  | none => return none
  | some e =>
    if e.author = env.selfId ∨ e.kind ≠ EventKind.SOCIAL_POST ∨ e.contentLen = 0 ∨
        (db.ev.eventsContentState.get id).isSome then
      return none
    match db.origins.get id with
    | none => return none
    | some origins =>
      match origins.materializedAt with
      | none => return none
      | some first =>
        -- a deadline beyond the last timestamp never comes
        if u64Max < first + policy.graceSeconds then return none
        let verified := VerifiedEvent.ofEvent e
        if verified.id ≠ id then throw (.payloadAccountingInvariant .retention)
        let key := policy.key verified.eventId env.selfId e.contentLen origins.effectiveTimestamp
        return some (⟨e.author, key, max (first + policy.graceSeconds) origins.effectiveTimestamp,
          false⟩, verified.eventId)

/-- Remove a row together with the forward rows it owns. Forward rows that are not its own are an error. -/
def removeRetentionEntryTx (r : RetentionIndex) (id : ShortEventId) : DbResult RetentionIndex :=
  match r.reverse.get id with
  | none => .ok r
  | some entry =>
    let r' := { r with reverse := r.reverse.remove id }
    if entry.promoted then
      if r.global.get entry.key ≠ some id ∨ r.author.get (entry.author, entry.key) ≠ some id then
        .error (.payloadAccountingInvariant .retention)
      else .ok { r' with
        global := r.global.remove entry.key
        author := r.author.remove (entry.author, entry.key) }
    else if toLex (entry.eligibleAt, id) ∉ r.grace then
      .error (.payloadAccountingInvariant .retention)
    else .ok { r' with grace := r.grace.erase (toLex (entry.eligibleAt, id)) }

def refreshRetentionIndexTx (env : Env) (db : Database) (r : RetentionIndex) (id : ShortEventId) :
    DbResult RetentionIndex :=
  match r.state with
  | none => .ok r
  | some record =>
    if record.stage = .clearing then .ok r
    else do
      let next := (← deriveRetentionEntryTx env db record.generation id).map (·.1)
      let old := (r.reverse.get id).map fun entry => { entry with promoted := false }
      if old = next ∧ next.isSome then return r
      let r ← removeRetentionEntryTx r id
      match next with
      | some entry => return { r with
          grace := insert (toLex (entry.eligibleAt, id)) r.grace
          reverse := r.reverse.insert id entry }
      | none => return r

/-- Request a generation; a different one is first cleared. Rows of two policies are never in the index together.
-/
def configureRetentionIndexTx (r : RetentionIndex) (generation : RetentionGeneration) :
    RetentionIndex :=
  match r.state with
  | some record =>
    if record.generation = generation then r else { r with state := some ⟨generation, .clearing⟩ }
  | none => { r with state := some ⟨generation, .clearing⟩ }

/-- One iteration of the rebuild; `none` means the loop breaks. -/
def rebuildRetentionStep (env : Env) (db : Database) (r : RetentionIndex) (record : IndexRecord) :
    DbResult (RetentionIndex × IndexRecord × Option Bool) :=
  match record.stage with
  | .clearing =>
    match Table.least r.reverse.keys with
    | none => .ok ({ r with state := some { record with stage := .events none } },
        { record with stage := .events none }, some false)
    | some id => do
      let r ← removeRetentionEntryTx r id
      pure (r, record, some true)
  | .events cursor =>
    match Table.nextAfter db.ev.events.keys cursor with
    | none => .ok (r, { record with stage := .ready }, none)
    | some id => do
      let r ← refreshRetentionIndexTx env db r id
      pure (r, { record with stage := .events (some id) }, some true)
  | .ready => .ok (r, record, none)

/-- At most one iteration visits nothing, so `limit + 2` iterations are enough. -/
def rebuildRetentionLoop (env : Env) (db : Database) :
    ℕ → ℕ → RetentionIndex → IndexRecord → DbResult (RetentionIndex × IndexRecord)
  | 0, _, r, record => .ok (r, record)
  | fuel + 1, limit, r, record =>
    match limit with
    | 0 => .ok (r, record)
    | rest + 1 => do
      match ← rebuildRetentionStep env db r record with
      | (r, record, none) => return (r, record)
      | (r, record, some visited) =>
        rebuildRetentionLoop env db fuel (if visited then rest else rest + 1) r record

def rebuildRetentionIndex (env : Env) (db : Database) (limit : ℕ) : DbResult Database := do
  if PAYLOAD_MAINTENANCE_MAX < limit then throw .payloadMaintenanceLimit
  match db.retention.state with
  | none => return db
  | some record =>
    let (r, record) ← rebuildRetentionLoop env db (limit + 2) limit db.retention record
    return { db with retention := { r with state := some record } }

/-- Promote due grace rows, at most `limit`, the earliest deadline first. -/
def promoteRetentionLoop (now : Timestamp) : ℕ → RetentionIndex → DbResult RetentionIndex
  | 0, r => .ok r
  | limit + 1, r =>
    match Table.least r.grace with
    | none => .ok r
    | some due =>
      let deadline := (ofLex due).1
      let id := (ofLex due).2
      if now < deadline then .ok r
      else match r.reverse.get id with
        | none => .error (.payloadAccountingInvariant .retention)
        | some entry =>
          if entry.promoted ∨ entry.eligibleAt ≠ deadline then
            .error (.payloadAccountingInvariant .retention)
          else promoteRetentionLoop now limit { r with
            grace := r.grace.erase due
            global := r.global.insert entry.key id
            author := r.author.insert (entry.author, entry.key) id
            reverse := r.reverse.insert id { entry with promoted := true } }

def promoteRetentionGrace (db : Database) (clock : RetentionClock) (limit : ℕ) :
    DbResult Database := do
  if PAYLOAD_MAINTENANCE_MAX < limit then throw .payloadMaintenanceLimit
  match db.retention.state, clock with
  | some record, .trusted now =>
    if record.stage = .ready then
      let r ← promoteRetentionLoop now limit db.retention
      return { db with retention := r }
    else return db
  | _, _ => return db

/-! ## 4. Finishing a reducer

The last part of a bracket: unreferenced hashes that a quota release owns go back into the queue, and the index is
refreshed. -/

/-- The bookkeeping while the snapshot is worked off: each event is taken out with what it was and put back with
what it is. -/
structure AfterScan where
  accounting : Accounting
  record : AccountingRecord
  retention : RetentionIndex
  authors : List RostraId := []

/-- Each author once. -/
def noteAuthor (authors : List RostraId) : Option EventContribution → List RostraId
  | some c => if c.author ∈ authors then authors else authors ++ [c.author]
  | none => authors

/-- One event of the snapshot. Its retention row is refreshed in any case; it is counted only if the rebuild has
come past it. -/
def afterEventTx (env : Env) (db : Database) (s : AfterScan)
    (item : ShortEventId × Option EventContribution) : DbResult AfterScan := do
  let retention ← refreshRetentionIndexTx env db s.retention item.1
  if eventCounted s.record.stage item.1 then do
    let new ← contributionTx env db.ev item.1
    let (a, record) ← adjustOptionTx s.accounting s.record item.2 false
    let (a, record) ← adjustOptionTx a record new true
    pure ⟨a, record, retention, noteAuthor s.authors new⟩
  else pure { s with retention := retention }

/-- The bytes of a hash that was counted are replaced by what is stored now. -/
def uniqueBytesTx (t : EventTables) (record : AccountingRecord) (h : ContentHash) (before : ℕ) :
    DbResult ℕ :=
  if hashCounted record.stage h then do
    let rest ← checkedSub .accounting record.usage.uniqueStoredBytes before
    checkedAdd .accounting rest (storedLenTx t h)
  else .ok record.usage.uniqueStoredBytes

/-- Revalidation starts once the accounting is ready. During a rebuild the counters are not yet what they count. -/
def whenReadyTx (record : AccountingRecord) (check : DbResult Unit) : DbResult Unit :=
  if record.stage = .ready then check else .ok ()

/-- One hash of the snapshot.  A quota-owned hash without references is nominated again. -/
def afterHashTx (t : EventTables) (s : Accounting × AccountingRecord) (item : ContentHash × ℕ) :
    DbResult (Accounting × AccountingRecord) := do
  let (a, record) := s
  let unique ← uniqueBytesTx t record item.1 item.2
  whenReadyTx record (validateHashTx t a item.1)
  let a := if item.1 ∈ a.quotaHashes ∧ t.contentRc.get item.1 = none then
      { a with quotaGc := insert item.1 a.quotaGc }
    else a
  pure (a, { record with usage := { record.usage with uniqueStoredBytes := unique } })

def payloadAfterTx (env : Env) (db : Database) (before : PayloadBefore) : DbResult Database := do
  let s ← before.events.foldlM (afterEventTx env db)
    { accounting := db.accounting, record := accountingTx db.accounting, retention := db.retention }
  whenReadyTx s.record (s.authors.forM (validateAuthorTx db.ev s.accounting))
  let (a, record) ← before.hashes.foldlM (afterHashTx db.ev) (s.accounting, s.record)
  pure { db with accounting := { a with state := some record }, retention := s.retention }

/-! ## 5. Rebuilding the accounting

The scans follow each other, and each is resumed from the stored cursor. -/

/-- One iteration of the rebuild: `some visited`, or `none` when the loop breaks. -/
def rebuildAccountingStep (env : Env) (db : Database) (a : Accounting) (record : AccountingRecord) :
    DbResult (Accounting × AccountingRecord × Option Bool) :=
  let t := db.ev
  let advance (stage : AccountingStage) : DbResult (Accounting × AccountingRecord × Option Bool) :=
    .ok (a, { record with stage := stage }, some false)
  match record.stage with
  | .events cursor =>
    match Table.nextAfter t.events.keys cursor with
    | none => advance (.content none)
    | some id => do
      match ← contributionTx env t id with
      | none => throw (.payloadAccountingInvariant .contribution)
      | some c =>
        let (a, record) ← adjustContributionTx a record c true
        return (a, { record with stage := .events (some id) }, some true)
  | .content cursor =>
    match Table.nextAfter t.contentStore.keys cursor with
    | none => advance (.hashes none)
    | some h => do
      let unique ← checkedAdd .accounting record.usage.uniqueStoredBytes (storedLenTx t h)
      validateHashTx t a h
      return (a, ⟨.content (some h), { record.usage with uniqueStoredBytes := unique }⟩, some true)
  | .hashes cursor =>
    match Table.nextAfter a.hashes.keys cursor with
    | none => advance (.references none)
    | some h => do
      validateHashTx t a h
      return (a, { record with stage := .hashes (some h) }, some true)
  | .references cursor =>
    match Table.nextAfter t.contentRc.keys cursor with
    | none => advance (.authors none)
    | some h => do
      validateHashTx t a h
      return (a, { record with stage := .references (some h) }, some true)
  | .authors cursor =>
    match Table.nextAfter t.idsDataUsage.keys cursor with
    | none => advance (.expectedAuthors none)
    | some author => do
      if (a.authors.get author).getD 0 ≠ (getUsage author t.idsDataUsage).current.size then
        throw (.payloadAccountingInvariant .author)
      return (a, { record with stage := .authors (some author) }, some true)
  | .expectedAuthors cursor =>
    match Table.nextAfter a.authors.keys cursor with
    | none => advance .ready
    | some author => do
      validateAuthorTx t a author
      return (a, { record with stage := .expectedAuthors (some author) }, some true)
  | .ready => .ok (a, record, none)

/-- A stage is left six times at most, so `limit + 7` iterations are enough. -/
def rebuildAccountingLoop (env : Env) (db : Database) :
    ℕ → ℕ → Accounting → AccountingRecord → DbResult (Accounting × AccountingRecord)
  | 0, _, a, record => .ok (a, record)
  | fuel + 1, limit, a, record =>
    match limit with
    | 0 => .ok (a, record)
    | rest + 1 => do
      match ← rebuildAccountingStep env db a record with
      | (a, record, none) => return (a, record)
      | (a, record, some visited) =>
        rebuildAccountingLoop env db fuel (if visited then rest else rest + 1) a record

def rebuildPayloadAccounting (env : Env) (db : Database) (limit : ℕ) : DbResult Database := do
  if PAYLOAD_MAINTENANCE_MAX < limit then throw .payloadMaintenanceLimit
  let (a, record) ←
    rebuildAccountingLoop env db (limit + 7) limit db.accounting (accountingTx db.accounting)
  return { db with accounting := { a with state := some record } }

def requirePayloadAccountingReadyTx (a : Accounting) : DbResult Unit :=
  if (accountingTx a).stage = .ready then .ok () else .error .payloadAccountingNotReady

/-! ## 6. Quota provenance and collection

A hash whose last reference was released by a quota decision is nominated, and collected when nothing refers to it
and nothing holds it back. -/

def nominateQuotaHashTx (a : Accounting) (h : ContentHash) : Accounting :=
  { a with quotaHashes := insert h a.quotaHashes, quotaGc := insert h a.quotaGc }

/-- The two states that content with a quota decision can be in: it was released, and may have been deleted since.
-/
def quotaReleased : EventContentState → Bool
  | .pruned | .deleted _ => true
  | _ => false

/-- Scan the quota decisions, at most `limit` of them, and nominate their hashes. -/
def recoverNominationsLoop (env : Env) (db : Database) :
    ℕ → Accounting → QuotaRecovery → DbResult (Accounting × QuotaRecovery)
  | 0, a, stage => .ok (a, stage)
  | limit + 1, a, stage =>
    match stage with
    | .ready => .ok (a, stage)
    | .scanning cursor =>
      match Table.nextAfter db.quotaPruned.keys cursor with
      | none => .ok (a, .ready)
      | some id =>
        match db.ev.events.get id, db.ev.eventsContentState.get id with
        | some e, some state =>
          if e.author = env.selfId ∨ e.kind ≠ EventKind.SOCIAL_POST ∨ !quotaReleased state then
            .error (.payloadAccountingInvariant .recovery)
          else recoverNominationsLoop env db limit (nominateQuotaHashTx a e.contentHash)
            (.scanning (some id))
        | _, _ => .error (.payloadAccountingInvariant .recovery)

def rebuildQuotaPayloadNominations (env : Env) (db : Database) (limit : ℕ) : DbResult Database := do
  if PAYLOAD_MAINTENANCE_MAX < limit then throw .payloadMaintenanceLimit
  let (a, stage) ← recoverNominationsLoop env db limit db.accounting
    (db.accounting.quotaRecovery.getD (.scanning none))
  return { db with accounting := { a with quotaRecovery := some stage } }

/-- Visit one nomination; the returned cursor and byte count are the caller's progress. -/
def collectQuotaPayloadStepTx (db : Database) (after : Option ContentHash) (maxBytes : ℕ) :
    DbResult (Database × Option ContentHash × ℕ) := do
  let record := accountingTx db.accounting
  requirePayloadAccountingReadyTx db.accounting
  match Table.nextAfter db.accounting.quotaGc after with
  | none => return (db, none, 0)
  | some h =>
    validateHashTx db.ev db.accounting h
    match db.accounting.hashes.get h with
    | none => throw (.payloadAccountingInvariant .hash)
    | some guard =>
      let consumed := { db.accounting with
        quotaGc := db.accounting.quotaGc.erase h, state := some record }
      if guard.references = 0 ∧ !guard.protectedHistory then
        let bytes := storedLenTx db.ev h
        if maxBytes < bytes then return (db, some h, 0)
        let unique ← checkedSub .accounting record.usage.uniqueStoredBytes bytes
        let record := { record with usage := { record.usage with uniqueStoredBytes := unique } }
        return ({ db with
          ev := { db.ev with contentStore := db.ev.contentStore.remove h }
          accounting := { consumed with state := some record } }, some h, bytes)
      else return ({ db with accounting := consumed }, some h, 0)

/-- The batch collector: up to `limit` nominations from the front in one transaction. -/
def collectGarbageLoop : ℕ → Database → ℕ → DbResult (Database × ℕ)
  | 0, db, removed => .ok (db, removed)
  | limit + 1, db, removed => do
    match ← collectQuotaPayloadStepTx db none u64Max with
    | (db, none, _) => return (db, removed)
    | (db, some _, bytes) =>
      let removed ← checkedAdd .maintenance removed bytes
      collectGarbageLoop limit db removed

def collectQuotaPayloadGarbage (db : Database) (limit : ℕ) : DbResult Database := do
  if PAYLOAD_MAINTENANCE_MAX < limit then throw .payloadMaintenanceLimit
  requirePayloadAccountingReadyTx db.accounting
  return (← collectGarbageLoop limit db 0).1

end Rostra.Db
