/-
# General pressure

`payload_pressure.rs`: the bounded worker that brings an account back under its budgets when nobody waits for
room.  One step visits one scope, an accounted author or, after a complete pass over the authors, the
database, and at most one candidate in it.

* A scope is triggered above its high water and stays so until a visit finds it at or below its low water.
  The flag and the frontier of an author are a row of a table, those of the database are partly in the
  `PressureRecord` and partly in the cursor.
* The rows belong to one incarnation of the runtime, the epoch; rows of another one are ignored.
* `PressureCursor` is where the pass over the authors got.  It is dropped when a revision moved, when a
  skipped row becomes eligible, and when the clock goes back.

`looks` is, as for a demand, how many looks at the monotone clock come before the deadline.  A turn also says
what the visited scope was found to hold and why nothing was selected (`visit`); nobody reads that.
-/
import Rostra.Db.DryRun
import Rostra.Db.PayloadDemand

namespace Rostra.Db

open Rostra

/-! ## 1. Records

What is stored of the worker. -/

structure PressureRecord where
  /-- The runtime incarnation. -/
  epoch : ℕ := 0
  /-- The database is triggered. -/
  global : Bool := false

structure AuthorPressure where
  epoch : ℕ
  active : Bool
  scan : Option DemandScan := none

/-- The two tables. -/
structure PressureTables where
  state : Option PressureRecord := none
  authors : Table RostraId AuthorPressure := ∅

structure PressureCursor where
  /-- The last author that is done with. -/
  after : Option RostraId := none
  selected : Option RostraId := none
  authorsDone : Bool := false
  revision : Option ℕ := none
  indexRevision : Option ℕ := none
  retryAt : Option Timestamp := none
  observed : Option Timestamp := none
  globalScan : Option DemandScan := none

structure PressureRequest where
  generation : RetentionGeneration
  config : Option ℕ
  maxBytes : ℕ
  looks : ℕ

inductive PressureStep
  /-- `Continue`. -/
  | advanced
  | wait
  | notReady
  | pruned (logicalReleasedBytes : ℕ)
  deriving DecidableEq

inductive Scope
  | advanced
  | author (author : RostraId)
  | global

/-- Why a scope is left. -/
inductive Blockage
  | inactive
  | exhausted
  /-- The next victim is larger than the allowance. -/
  | bytes (needed : ℕ)
  | deadline
  deriving DecidableEq

inductive PressureSelection
  | advanced
  | blocked (reason : Blockage)
  | prune (request : QuotaPruneRequest)

/-- What a visit found. -/
structure PressureVisit where
  scope : Option RostraId
  total : ℕ
  high : ℕ
  selection : PressureSelection

/-! ## 2. The cursor

What the worker keeps in memory, and when it throws it away. -/

namespace PressureCursor

/-- Reject advice that was invalidated; `none` is the overflow error. -/
def reconcile (c : PressureCursor) (l : AdmissionLedger) (now : Timestamp) :
    DbResult (Bool × PressureCursor) :=
  if l.pressureRevision = u64Max then .error (.overflow .maintenance .add)
  else if c.revision.any (· ≠ l.pressureRevision) || c.indexRevision.any (· ≠ l.retentionRevision) ||
      c.retryAt.any (· ≤ now) || c.observed.any (now < ·) then .ok (false, {})
  else .ok (true, { c with
    revision := some l.pressureRevision, indexRevision := some l.retentionRevision, observed := some now })

/-- The scope to visit: the selected author, the next accounted one, or the database. -/
def nextScope (c : PressureCursor) (authors : Finset RostraId) : Scope × PressureCursor :=
  if c.authorsDone then (.global, c)
  else match c.selected with
  | some author => (.author author, c)
  | none => match Table.nextAfter authors c.after with
    | some author => (.author author, { c with selected := some author })
    | none => (.advanced, { c with authorsDone := true })

end PressureCursor

variable [Primitives]

/-! ## 3. One visit

The usage of a scope against its marks, and the selection of a candidate in it. -/

/-- `initialize`: a fresh incarnation. -/
def initializePressure (t : PressureTables) : DbResult (PressureTables × ℕ) := do
  let epoch ← checkedAdd .maintenance (t.state.getD {}).epoch 1
  return ({ t with state := some { epoch := epoch } }, epoch)

def checkConfig (db : Database) (l : AdmissionLedger) (request : PressureRequest) : DbResult Unit :=
  if l.configIdentity.all (some · ≠ request.config) then .error (.payloadAccountingInvariant .quota)
  else requirePayloadAccountingReadyTx db.accounting

def loadRecord (t : PressureTables) (epoch : ℕ) : DbResult PressureRecord :=
  match t.state with
  | none => .error (.payloadAccountingInvariant .quota)
  | some record => if record.epoch ≠ epoch then .error (.payloadAccountingInvariant .quota) else .ok record

/-- Does one of the intents fit, or own what was freed?  `some` is the looks that are left; when time is up
the answer is the careful one. -/
def demandsBlock (env : Env) (db : Database) (l : AdmissionLedger) (demands : DemandState)
    (request : PressureRequest) (now : Timestamp) : ℕ → List EventId → DbResult (Option ℕ)
  | looks, [] => .ok (some looks)
  | 0, _ :: _ => .ok none
  | looks + 1, id :: ids =>
    match demands.entries.get id with
    | none => demandsBlock env db l demands request now looks ids
    | some entry =>
      if demands.generation ≠ some request.generation ∨ demands.config ≠ request.config ∨
          (l.state.events.get id).isSome then demandsBlock env db l demands request now looks ids
      else match demandEventTx env db id request.generation now with
      | none => demandsBlock env db l demands request now looks ids
      | some (event, _) =>
        if demands.active = some (id, entry.id) then .ok none
        else match payloadCapacityPauseTx db event l.state with
        | .error e => .error e
        | .ok none => .ok none
        | .ok (some _) => demandsBlock env db l demands request now looks ids

/-- The reserved bytes of a scope, and the looks that are left. -/
def reservedIn (author : Option RostraId) : ℕ → ℕ → List ReservedEvent → DbResult (Option (ℕ × ℕ))
  | looks, reserved, [] => .ok (some (looks, reserved))
  | 0, _, _ :: _ => .ok none
  | looks + 1, reserved, lease :: leases =>
    if author.all (· = lease.author) then do
      reservedIn author looks (← checkedAdd .admission reserved lease.bytes) leases
    else reservedIn author looks reserved leases

/-- The leases in the order of their events. -/
def AdmissionState.leases (s : AdmissionState) : List ReservedEvent :=
  (Table.firstKeys s.events.keys s.events.keys.card).filterMap s.events.get

/-- What is retained in a scope, by the accounting. -/
def retainedIn (db : Database) (author : Option RostraId) : DbResult ℕ :=
  match author with
  | some author => .ok ((db.accounting.authors.get author).getD 0)
  | none =>
    if (accountingTx db.accounting).stage ≠ .ready then .error (.payloadAccountingInvariant .quota)
    else .ok (accountingTx db.accounting).usage.logicalCurrentBytes

def highWater (config : PayloadAdmissionConfig) : Option RostraId → ℕ
  | some author => config.authorBytesOf author
  | none => config.databaseBytes

/-- The saved flag and frontier of a scope. -/
def storedScope (t : PressureTables) (record : PressureRecord) (cursor : PressureCursor) :
    Option RostraId → AuthorPressure
  | some author => ((t.authors.get author).filter (·.epoch = record.epoch)).getD
      { epoch := record.epoch, active := false }
  | none => { epoch := record.epoch, active := record.global, scan := cursor.globalScan }

/-- Pressure, measured anew: the scope, its looks, its bytes and its high water. -/
def scopeActive (db : Database) (t : PressureTables) (l : AdmissionLedger) (record : PressureRecord)
    (cursor : PressureCursor) (author : Option RostraId) (looks : ℕ) :
    DbResult (Option (AuthorPressure × ℕ × ℕ × ℕ)) := do
  match ← reservedIn author looks 0 l.state.leases with
  | none => return none
  | some (looks, reserved) =>
    let retained ← retainedIn db author
    let total ← checkedAdd .admission retained reserved
    match l.state.config with
    | none => throw (.payloadAccountingInvariant .quota)
    | some config =>
      let high := highWater config author
      let stored := storedScope t record cursor author
      let active := decide (high < total) || (stored.active && decide (experimentalLowWater high < total))
      return some ({ stored with active := active }, looks, total, high)

/-- The candidate at a frontier row. -/
def selectRow (env : Env) (db : Database) (request : PressureRequest) (now : Timestamp)
    (author : Option RostraId) (scope : AuthorPressure) (scan : DemandScan) (key : ℕ) (id : ShortEventId) :
    DbResult (AuthorPressure × PressureSelection) :=
  match db.ev.events.get id with
  | none => .error (.payloadAccountingInvariant .quota)
  | some e => do
    let event := VerifiedEvent.ofEvent e
    let candidate : RetentionCandidate := { event := event.eventId, author := e.author, key := key }
    if !(← retentionCandidateCurrentTx env db request.generation candidate (.trusted now)) then
      let scan := match ← deriveRetentionEntryTx env db request.generation id with
        | some (entry, _) => if now < entry.eligibleAt then scan.noteRetry entry.eligibleAt else scan
        | none => scan
      return ({ scope with scan := some { scan with after := some key } }, .advanced)
    if request.maxBytes < e.contentLen then
      return ({ scope with scan := some { scan with blockedBytes := some e.contentLen } },
        .blocked (.bytes e.contentLen))
    return ({ scope with scan := some scan }, .prune
      { id := event.id
        target := .processed
        reason := if author.isSome then .authorQuota else .globalQuota
        policy := request.generation.policy
        clock := .trusted now })

/-- Visit one candidate, never past an eligible one that is too large. -/
def select (env : Env) (db : Database) (request : PressureRequest) (now : Timestamp) (revision : ℕ)
    (author : Option RostraId) (looks : ℕ) (scope : AuthorPressure) : DbResult (AuthorPressure × PressureSelection) :=
  let scan := (scope.scan.getD (.new revision author now)).prepare revision author now
  let scope := { scope with scan := some scan }
  if scan.exhausted then .ok (scope, .blocked .exhausted)
  else match scan.blockedBytes.filter (request.maxBytes < ·) with
  | some bytes => .ok (scope, .blocked (.bytes bytes))
  | none =>
    if looks = 0 then .ok (scope, .blocked .deadline)
    else match scan.nextTx db.retention with
    | none => .ok ({ scope with scan := some { scan with exhausted := true } }, .blocked .exhausted)
    | some (key, id) => selectRow env db request now author scope scan key id

/-- The advice that outlives the visit. -/
def saveScope (t : PressureTables) (author : Option RostraId) (scope : AuthorPressure)
    (record : PressureRecord) (cursor : PressureCursor) (selection : PressureSelection) :
    PressureTables × PressureCursor × PressureStep :=
  match author with
  | some author =>
    let retry := if scope.active then scope.scan.bind (·.retryAt) else none
    let cursor := { cursor with
      retryAt := retry.elim cursor.retryAt fun t => some (cursor.retryAt.elim t (min · t)) }
    let authors := if scope.active then t.authors.insert author scope else t.authors.remove author
    match selection with
    | .blocked _ => ({ t with authors := authors },
        { cursor with after := some author, selected := none }, .advanced)
    | _ => ({ t with authors := authors }, cursor, .advanced)
  | none =>
    let t := { t with state := some { record with global := scope.active } }
    let cursor := { cursor with globalScan := scope.scan }
    if !scope.active then (t, {}, .wait)
    else match selection with
    | .blocked _ =>
      (t, { cursor with after := none, selected := none, authorsDone := false, revision := none }, .wait)
    | .advanced => (t, cursor, .advanced)
    | .prune _ => (t, cursor, .wait)

/-! ## 4. One step

Which scope is next, and one visit to it. -/

/-- Everything a step leaves behind. -/
structure PressureTurn where
  db : Database
  tables : PressureTables
  cursor : PressureCursor
  reply : DbResult PressureStep
  visit : Option PressureVisit := none

/-- The visit of a scope, once it is known. -/
def visitScope (env : Env) (db : Database) (t : PressureTables) (l : AdmissionLedger)
    (request : PressureRequest) (now : Timestamp) (record : PressureRecord) (cursor : PressureCursor)
    (author : Option RostraId) (looks : ℕ) : PressureTurn :=
  match scopeActive db t l record cursor author looks with
  | .error e => ⟨db, t, cursor, .error e, none⟩
  | .ok none => ⟨db, t, cursor, .ok .wait, none⟩
  | .ok (some (scope, looks, total, high)) =>
    match (if scope.active then select env db request now l.retentionRevision author looks scope
        else .ok (scope, .blocked .inactive)) with
    | .error e => ⟨db, t, cursor, .error e, none⟩
    | .ok (scope, selection) =>
      let (t', cursor', step) := saveScope t author scope record cursor selection
      let visit : PressureVisit := { scope := author, total := total, high := high, selection := selection }
      match selection with
      | .prune prune =>
        match pruneQuotaPayloadTx env db prune with
        | .ok (db', .pruned bytes) => ⟨db', t', cursor', .ok (.pruned bytes), some visit⟩
        | .ok _ => ⟨db, t, cursor', .error (.payloadAccountingInvariant .quota), none⟩
        | .error e => ⟨db, t, cursor', .error e, none⟩
      | _ => ⟨db, t', cursor', .ok step, some visit⟩

/-- `step_with`, in a runtime that was initialized.  `demands` are the intents that are not expired. -/
def pressureStepWith (env : Env) (db : Database) (t : PressureTables) (l : AdmissionLedger)
    (demands : DemandState) (epoch : ℕ) (request : PressureRequest) (cursor : PressureCursor)
    (now : Timestamp) : PressureTurn :=
  if !retentionSelectionReadyTx db.retention request.generation now then
    ⟨db, t, cursor, .ok .notReady, none⟩
  else match checkConfig db l request, loadRecord t epoch with
  | .error e, _ => ⟨db, t, cursor, .error e, none⟩
  | .ok (), .error e => ⟨db, t, cursor, .error e, none⟩
  | .ok (), .ok record =>
    match demandsBlock env db l demands request now request.looks
        (Table.firstKeys demands.entries.keys demands.entries.keys.card) with
    | .error e => ⟨db, t, cursor, .error e, none⟩
    | .ok none => ⟨db, t, cursor, .ok .wait, none⟩
    | .ok (some looks) =>
      match cursor.reconcile l now with
      | .error e => ⟨db, t, cursor, .error e, none⟩
      | .ok (false, cursor) => ⟨db, t, cursor, .ok .wait, none⟩
      | .ok (true, cursor) =>
        match cursor.nextScope db.accounting.authors.keys with
        | (.advanced, cursor) => ⟨db, t, cursor, .ok .advanced, none⟩
        | (.author author, cursor) => visitScope env db t l request now record cursor (some author) looks
        | (.global, cursor) => visitScope env db t l request now record cursor none looks

end Rostra.Db
