/-
# Demand for retained room

`payload_demand.rs`, `payload_demand_scan.rs` and `payload_demand_state.rs`: a payload that was refused for
lack of room leaves a short-lived intent behind, and a bounded worker step may release one retained
payload of lower rank for it, or give the new one up for good.

* A `DemandScan` is the frontier of a walk over one ordered index, the author's or the global one.  It is
  kept from turn to turn and is good for one revision of the index.
* An intent lives in the ledger of the account for at most thirty seconds.  Its owner can be cloned; the
  ledger holds it weakly, so `owners` counts the clones beside it.
* `preemptPayloadDemandBoundWith` is one turn: plans in the order of their rank, at most `scanLimit` rows,
  at most one release.

Time comes in twice.  `now` is the trusted wall clock, sampled once per call under the two locks, and may be
anything.  The deadline is a monotone clock looked at before each plan and each row: `looks` is how many
of these looks come before it.  The two test hooks do nothing and are left out, as are notifications.
-/
import Rostra.Db.Ingest

namespace Rostra.Db

open Rostra

/-! ## 1. Frontiers

A stored frontier, and what makes it out of date. -/

/-- The constant-size frontier of one bounded scan. What it has skipped is not kept, only when the first of it
becomes eligible. -/
structure DemandScan where
  /-- The index revision it was started at. -/
  revision : ℕ
  /-- The author under pressure, or the global index. -/
  author : Option RostraId
  observed : Timestamp
  /-- When the first skipped row becomes eligible. -/
  retryAt : Option Timestamp := none
  /-- The last rejected key. -/
  after : Option ℕ := none
  exhausted : Bool := false
  /-- The size of the next victim, when a turn could not afford it. -/
  blockedBytes : Option ℕ := none

namespace DemandScan

/-- Begin from the current minimum. -/
def new (revision : ℕ) (author : Option RostraId) (now : Timestamp) : DemandScan :=
  { revision := revision, author := author, observed := now }

/-- Reset when a skipped row might be the minimum by now. -/
def prepare (s : DemandScan) (revision : ℕ) (author : Option RostraId) (now : Timestamp) : DemandScan :=
  let stale := decide (s.revision ≠ revision) || decide (s.author ≠ author) || decide (now < s.observed) ||
    s.retryAt.any (· ≤ now)
  { (if stale then new revision author now else s) with observed := now }

/-- A skipped row becomes eligible at this time. Of several, the earliest one is remembered. -/
def noteRetry (s : DemandScan) (eligibleAt : Timestamp) : DemandScan :=
  { s with retryAt := some (s.retryAt.elim eligibleAt (min · eligibleAt)) }

end DemandScan

/-- The ordered keys of one scope: those of one author, or those of all. -/
def scopeKeys (r : RetentionIndex) : Option RostraId → Finset ℕ
  | none => r.global.keys
  | some author => (r.author.keys.filter (·.1 = author)).image Prod.snd

/-- The event at a key of the scope. -/
def scopeRow (r : RetentionIndex) (author : Option RostraId) (key : ℕ) : Option ShortEventId :=
  match author with
  | none => r.global.get key
  | some author => r.author.get (author, key)

/-- One row beyond the frontier, if there is one. It is the least that was not rejected yet. -/
def DemandScan.nextTx (s : DemandScan) (r : RetentionIndex) : Option (ℕ × ShortEventId) :=
  (Table.nextAfter (scopeKeys r s.author) s.after).bind fun key =>
    (scopeRow r s.author key).map fun id => (key, id)

/-! ## 2. The ledger of intents

Intents by event, with the owners that keep them alive. -/

/-- One intent.  `id` tells it from a later one for the same event. -/
structure DemandEntry where
  scan : Option DemandScan := none
  id : ℕ
  bytes : ℕ
  created : Timestamp
  expires : Timestamp

structure DemandState where
  /-- The plan that eviction was started for. -/
  active : Option (EventId × ℕ) := none
  generation : Option RetentionGeneration := none
  /-- The incarnation of the budgets, held weakly. -/
  config : Option ℕ := none
  entries : Table EventId DemandEntry := ∅
  nextId : ℕ := 0

namespace DemandState

/-- Forget all intents; the supply of ids goes on, so an id never names two of them. -/
def clear (d : DemandState) : DemandState :=
  { d with active := none, entries := ∅, generation := none, config := none }

/-- Keep the entries that pass. -/
def retain (d : DemandState) (q : EventId → DemandEntry → Bool) : DemandState :=
  { d with entries := d.entries.retain fun event => (d.entries.get event).any (q event) }

def removeCompleted (d : DemandState) (id : ShortEventId) : DemandState :=
  d.retain fun event _ => event.toShort != id

def expire (d : DemandState) (now : Timestamp) : DemandState :=
  d.retain fun _ e => e.created ≤ now && now < e.expires

/-- The number of intents, and their bytes. -/
def usage (d : DemandState) : ℕ × ℕ := (d.entries.keys.card, d.entries.sum fun _ e => e.bytes)

end DemandState

/-- The ledger of an account.  `identity` is the incarnation of the installed configuration. -/
structure AdmissionLedger where
  pressureRevision : ℕ := 0
  retentionRevision : ℕ := 0
  demands : DemandState := {}
  state : AdmissionState := {}
  identity : ℕ := 0
  /-- The clones of each owner that are alive. -/
  owners : Table ℕ ℕ := ∅

/-- `config.identity()`, if there is a configuration. -/
def AdmissionLedger.configIdentity (l : AdmissionLedger) : Option ℕ := l.state.config.map fun _ => l.identity

/-- `Weak::upgrade`: the owner is alive as long as somebody holds it. -/
def AdmissionLedger.upgrade (l : AdmissionLedger) (id : ℕ) : Bool := (l.owners.get id).any (0 < ·)

variable [Primitives]

/-! ## 3. What is checked in a writer transaction

Everything a turn has read before it got the lock is read again under it. -/

/-- Backfill is complete and no grace row is due. Otherwise the least row might not be in the order yet. -/
def retentionSelectionReadyTx (r : RetentionIndex) (generation : RetentionGeneration) (now : Timestamp) :
    Bool :=
  match r.state with
  | none => false
  | some record =>
    record.generation = generation && record.stage = .ready &&
      (Table.least r.grace).all fun due => now < (ofLex due).1

structure RetentionCandidate where
  event : EventId
  author : RostraId
  key : ℕ

/-- Recheck an advisory selection. It was made in another transaction, and the tables may have changed since. -/
def retentionCandidateCurrentTx (env : Env) (db : Database) (generation : RetentionGeneration)
    (candidate : RetentionCandidate) (clock : RetentionClock) : DbResult Bool :=
  match db.retention.state with
  | none => .ok false
  | some record =>
    if record.generation ≠ generation ∨ record.stage ≠ .ready then .ok false
    else match clock with
    | .untrusted => .ok false
    | .trusted now => do
      let id := candidate.event.toShort
      match ← deriveRetentionEntryTx env db generation id with
      | none => return false
      | some (entry, event) =>
        if event ≠ candidate.event ∨ entry.author ≠ candidate.author ∨ entry.key ≠ candidate.key ∨
            now < entry.eligibleAt then return false
        let entry := { entry with promoted := true }
        return db.retention.reverse.get id = some entry && db.retention.global.get entry.key = some id &&
          db.retention.author.get (entry.author, entry.key) = some id

/-- The rank of a `Missing` payload, from its header and origins. -/
def demandEventTx (env : Env) (db : Database) (id : EventId) (generation : RetentionGeneration)
    (now : Timestamp) : Option (VerifiedEvent × ℕ) :=
  if generation.holder ≠ env.selfId ∨ !payloadIsMissingTx db.ev id.toShort then none
  else match db.ev.events.get id.toShort with
  | none => none
  | some e =>
    let verified := VerifiedEvent.ofEvent e
    if verified.eventId ≠ id ∨ e.author = env.selfId ∨ e.kind ≠ EventKind.SOCIAL_POST ∨ e.contentLen = 0 then none
    else match db.origins.get id.toShort with
    | none => none
    | some origin =>
      if origin.materializedAt.isSome ∨ now < origin.effectiveTimestamp then none
      else some (verified, generation.policy.key id env.selfId e.contentLen origin.effectiveTimestamp)

/-- Is the scope over its budget with retained bytes alone? -/
def retainedRejectionPressureTx (db : Database) (s : AdmissionState) (incoming : VerifiedEvent)
    (author : Option RostraId) : DbResult Bool :=
  match s.config with
  | none => .ok false
  | some config =>
    if (s.events.get incoming.eventId).isSome then .ok false
    else do
      let (retained, high) ← match author with
        | some author =>
          pure ((getUsage author db.ev.idsDataUsage).current.size, config.authorBytesOf author)
        | none =>
          if (accountingTx db.accounting).stage ≠ .ready then throw (.payloadAccountingInvariant .quota)
          else pure ((accountingTx db.accounting).usage.logicalCurrentBytes, config.databaseBytes)
      return retained + incoming.event.contentLen ≤ u64Max && high < retained + incoming.event.contentLen

/-! ## 4. Registration

An event has one intent at most, and whoever wants it later shares it. -/

inductive DemandRegistration
  | unneeded
  | overloaded
  | pending (event : EventId) (id : ℕ)
  deriving DecidableEq

/-- A new intent, if the bounds allow it. One that is out of bounds is refused, and no other makes room for it. -/
def insertDemand (l : AdmissionLedger) (config : PayloadAdmissionConfig) (v : VerifiedEvent)
    (now : Timestamp) : DbResult DemandRegistration × AdmissionLedger :=
  let bytes := v.event.contentLen
  let usage := l.demands.usage
  if config.inFlightCount ≤ usage.1 ∨ min u64Max config.inFlightBytes < usage.2 + bytes ∨
      config.databaseBytes < bytes ∨ config.authorBytesOf v.event.author < bytes then (.ok .overloaded, l)
  else if u64Max < now + 30 then (.ok .overloaded, l)
  else match checkedAdd .admission l.demands.nextId 1 with
  | .error e => (.error e, l)
  | .ok id => (.ok (.pending v.eventId id), { l with
      demands := { l.demands with
        nextId := id
        entries := l.demands.entries.insert v.eventId
          { id := id, bytes := bytes, created := now, expires := now + 30 } }
      owners := l.owners.insert id 1 })

/-- Register at most thirty seconds of demand after a failed reservation. -/
def registerPayloadDemandWith (env : Env) (db : Database) (l : AdmissionLedger) (event : EventId)
    (generation : RetentionGeneration) (now : Timestamp) : DbResult DemandRegistration × AdmissionLedger :=
  if !retentionSelectionReadyTx db.retention generation now then (.ok .unneeded, l)
  else match demandEventTx env db event generation now, l.state.config with
  | some (verified, _), some config =>
    let demands := if l.demands.generation ≠ some generation ∨ l.demands.config ≠ some l.identity then
        { l.demands.clear with generation := some generation, config := some l.identity }
      else l.demands
    let l := { l with demands := demands.expire now }
    if (l.state.events.get event).isSome then (.ok .unneeded, l)
    else match payloadCapacityPauseTx db verified l.state with
    | .error e => (.error e, l)
    | .ok (some .authorCapacity) | .ok (some .databaseCapacity) =>
      match (l.demands.entries.get event).filter fun e => l.upgrade e.id with
      | some entry => (.ok (.pending event entry.id),
          { l with owners := l.owners.insert entry.id ((l.owners.get entry.id).getD 0 + 1) })
      | none => insertDemand l config verified now
    | .ok _ => (.ok .unneeded, l)
  | _, _ => (.ok .unneeded, l)

/-- The body of `DemandOwner::drop`: the intent goes, unless the event has a newer one. -/
def AdmissionLedger.dropOwner (l : AdmissionLedger) (event : EventId) (id : ℕ) : AdmissionLedger :=
  if (l.demands.entries.get event).any (·.id = id) then
    { l with demands := { l.demands with entries := l.demands.entries.remove event } }
  else l

/-! ## 5. Preemption

One turn, from the expiry of intents to the release. -/

structure DemandRequest where
  generation : RetentionGeneration
  /-- The incarnation of the budgets that the caller was built for. -/
  config : Option ℕ
  scanLimit : ℕ
  maxBytes : ℕ
  looks : ℕ

inductive DemandStep
  | idle
  | notReady
  | fits (event : EventId)
  | noVictim (retryAt : Timestamp)
  /-- `Continue`: a bounded frontier moved. -/
  | advanced
  | bounded
  | pruned (demand victim : EventId) (bytes : ℕ)
  | rejected (event : EventId)
  deriving DecidableEq

/-- An intent with the header and the rank that it has now. -/
abbrev Plan := VerifiedEvent × ℕ

/-- The pending intents, sorted into stale ones and plans; `none` when time is up. -/
def collectPlans (env : Env) (db : Database) (s : AdmissionState) (generation : RetentionGeneration)
    (now : Timestamp) : ℕ → List EventId → Option (ℕ × List EventId × List Plan)
  | looks, [] => some (looks, [], [])
  | 0, _ :: _ => none
  | looks + 1, id :: ids => do
    let (looks, stale, plans) ← collectPlans env db s generation now looks ids
    if (s.events.get id).isSome then return (looks, id :: stale, plans)
    match demandEventTx env db id generation now with
    | none => return (looks, id :: stale, plans)
    | some plan => return (looks, stale, plan :: plans)

/-- What the budgets say about the plans, one after the other. -/
inductive Pressures
  | bounded
  | fits (event : EventId)
  | notReady
  /-- The scope that blocks each of them. -/
  | blocked (looks : ℕ) (scopes : List (Option RostraId))

def pressuresOf (db : Database) (s : AdmissionState) : ℕ → List Plan → DbResult Pressures
  | looks, [] => .ok (.blocked looks [])
  | 0, _ :: _ => .ok .bounded
  | looks + 1, (incoming, _) :: plans => do
    match ← payloadCapacityPauseTx db incoming s with
    | none => return .fits incoming.eventId
    | some .authorCapacity => cons (some incoming.event.author) (← pressuresOf db s looks plans)
    | some .databaseCapacity => cons none (← pressuresOf db s looks plans)
    | some _ => return .notReady
where
  /-- One more blocked plan in front. -/
  cons (scope : Option RostraId) : Pressures → DbResult Pressures
    | .blocked looks scopes => .ok (.blocked looks (scope :: scopes))
    | other => .ok other

/-- The counters of a turn. -/
structure TurnCounters where
  looks : ℕ
  remaining : ℕ
  advanced : Bool := false
  byteBlocked : Bool := false
  retryAt : Timestamp

/-- How the walk for one plan ends. -/
inductive ScanExit
  /-- On to the next plan. -/
  | next
  | deadline
  | spent
  | reject
  | prune (id : ShortEventId) (victim : EventId)
  | failed (e : DbError)
  deriving DecidableEq

/-- Where the walk for one plan got. -/
structure Walk where
  scan : DemandScan
  counters : TurnCounters
  exit : ScanExit

/-- One index row is judged: `none` means that the walk goes on behind it. -/
def visitRow (env : Env) (db : Database) (s : AdmissionState) (request : DemandRequest) (now : Timestamp)
    (plan : Plan) (rejectionBarred : Bool) (scan : DemandScan) (c : TurnCounters) (key : ℕ)
    (id : ShortEventId) : DemandScan × TurnCounters × Option ScanExit :=
  match db.ev.events.get id with
  | none => (scan, c, some (.failed (.payloadAccountingInvariant .quota)))
  | some e =>
    let event := VerifiedEvent.ofEvent e
    let candidate : RetentionCandidate := { event := event.eventId, author := e.author, key := key }
    match retentionCandidateCurrentTx env db request.generation candidate (.trusted now),
        deriveRetentionEntryTx env db request.generation id with
    | .error e, _ => (scan, c, some (.failed e))
    | .ok false, .error e => (scan, c, some (.failed e))
    | .ok current, derived =>
      let later := match derived with
        | .ok (some (entry, _)) => if !current ∧ now < entry.eligibleAt then some entry.eligibleAt else none
        | _ => none
      let scan := later.elim scan scan.noteRetry
      let c := { c with retryAt := later.elim c.retryAt (min c.retryAt ·) }
      if plan.2 ≤ key then
        let exhausted := ({ scan with exhausted := true }, { c with advanced := true }, some ScanExit.next)
        -- a resumed frontier proves no minimum
        if plan.2 < key ∧ current ∧ scan.after.isNone ∧ !rejectionBarred then
          match retainedRejectionPressureTx db s plan.1 scan.author with
          | .error e => (scan, c, some (.failed e))
          | .ok true => (scan, c, some .reject)
          | .ok false => exhausted
        else exhausted
      else if !current then ({ scan with after := some key }, { c with advanced := true }, none)
      else if request.maxBytes < e.contentLen then
        ({ scan with blockedBytes := some e.contentLen }, { c with byteBlocked := true }, some .next)
      else (scan, c, some (.prune id event.eventId))

/-- The rows of one plan, `remaining` of them at most. -/
def walkRows (env : Env) (db : Database) (s : AdmissionState) (request : DemandRequest) (now : Timestamp)
    (plan : Plan) (rejectionBarred : Bool) : ℕ → DemandScan → TurnCounters → Walk
  | 0, scan, c =>
    if c.looks = 0 then ⟨scan, c, .deadline⟩ else ⟨scan, { c with looks := c.looks - 1 }, .spent⟩
  | remaining + 1, scan, c =>
    if c.looks = 0 then ⟨scan, c, .deadline⟩
    else match scan.nextTx db.retention with
    | none =>
      ⟨{ scan with exhausted := true }, { c with looks := c.looks - 1, advanced := true }, .next⟩
    | some (key, id) =>
      let c := { c with looks := c.looks - 1, remaining := remaining }
      match visitRow env db s request now plan rejectionBarred scan c key id with
      | (scan, c, some exit) => ⟨scan, c, exit⟩
      | (scan, c, none) => walkRows env db s request now plan rejectionBarred remaining scan c

/-- One plan: its frontier is brought up to date and walked on. -/
def walkPlan (env : Env) (db : Database) (s : AdmissionState) (request : DemandRequest) (now : Timestamp)
    (revision : ℕ) (rejectionBarred : Bool) (plan : Plan) (author : Option RostraId)
    (stored : Option DemandScan) (c : TurnCounters) : Walk :=
  let scan := (stored.getD (.new revision author now)).prepare revision author now
  let c := { c with retryAt := scan.retryAt.elim c.retryAt (min c.retryAt ·) }
  if scan.exhausted then ⟨scan, c, .next⟩
  else if scan.blockedBytes.any (request.maxBytes < ·) then ⟨scan, { c with byteBlocked := true }, .next⟩
  else walkRows env db s request now plan rejectionBarred c.remaining scan c

/-- Everything a turn leaves behind: the tables, the intents, and its answer. -/
structure DemandTurn where
  db : Database
  demands : DemandState
  reply : DbResult DemandStep

/-- The release of a payload or of the demand itself. -/
def quotaRequest (request : DemandRequest) (author : Option RostraId) (target : QuotaPruneTarget)
    (id : ShortEventId) (now : Timestamp) : QuotaPruneRequest :=
  { id := id
    target := target
    reason := if author.isSome then .authorQuota else .globalQuota
    policy := request.generation.policy
    clock := .trusted now }

/-- The demand is given up. -/
def rejectDemand (env : Env) (db : Database) (demands : DemandState) (request : DemandRequest)
    (now : Timestamp) (incoming : VerifiedEvent) (author : Option RostraId) : DemandTurn :=
  match pruneQuotaPayloadTx env db (quotaRequest request author .missing incoming.id now) with
  | .error e => ⟨db, demands, .error e⟩
  | .ok (db', .pruned 0) => ⟨db', demands, .ok (.rejected incoming.eventId)⟩
  | .ok _ => ⟨db, demands, .error (.payloadAccountingInvariant .quota)⟩

/-- A victim is released, and the plan owns what comes free. -/
def pruneVictim (env : Env) (db : Database) (demands : DemandState) (request : DemandRequest)
    (now : Timestamp) (incoming : VerifiedEvent) (author : Option RostraId) (id : ShortEventId)
    (victim : EventId) : DemandTurn :=
  match pruneQuotaPayloadTx env db (quotaRequest request author .processed id now) with
  | .error e => ⟨db, demands, .error e⟩
  | .ok (db', .pruned bytes) =>
    match demands.entries.get incoming.eventId with
    | none => ⟨db, demands, .error (.payloadAccountingInvariant .quota)⟩
    | some entry => ⟨db', { demands with active := some (incoming.eventId, entry.id) },
        .ok (.pruned incoming.eventId victim bytes)⟩
  | .ok _ => ⟨db, demands, .error (.payloadAccountingInvariant .quota)⟩

/-- The plans in the order of their rank, each with the scope that blocks it. -/
def walkPlans (env : Env) (db : Database) (s : AdmissionState) (request : DemandRequest) (now : Timestamp)
    (revision : ℕ) (rejectionBarred : Bool) : DemandState → TurnCounters → List (Plan × Option RostraId) →
      DemandTurn
  | demands, c, [] =>
    ⟨db, demands, .ok (if c.byteBlocked then .bounded else .noVictim c.retryAt)⟩
  | demands, c, (plan, author) :: rest =>
    let timeout := if c.advanced then DemandStep.advanced else .bounded
    if c.looks = 0 then ⟨db, demands, .ok timeout⟩
    else
      let c := { c with looks := c.looks - 1 }
      match demands.entries.get plan.1.eventId with
      | none => ⟨db, demands, .error (.payloadAccountingInvariant .quota)⟩
      | some entry =>
        let walk := walkPlan env db s request now revision rejectionBarred plan author entry.scan c
        let demands := { demands with
          entries := demands.entries.insert plan.1.eventId { entry with scan := some walk.scan } }
        match walk.exit with
        | .next => walkPlans env db s request now revision rejectionBarred demands walk.counters rest
        | .deadline => ⟨db, demands, .ok (if walk.counters.advanced then .advanced else .bounded)⟩
        | .spent => ⟨db, demands, .ok .advanced⟩
        | .failed e => ⟨db, demands, .error e⟩
        | .reject => rejectDemand env db demands request now plan.1 author
        | .prune id victim => pruneVictim env db demands request now plan.1 author id victim

/-- A plan that eviction was started for keeps its turn as long as its intent lives. -/
def DemandState.keepActive (d : DemandState) : DemandState :=
  if d.active.any fun a => (d.entries.get a.1).all (·.id ≠ a.2) then { d with active := none } else d

/-- The plans by rank, the highest first; a partially serviced plan is the only one. -/
def rankedPlans (d : DemandState) (plans : List Plan) : List Plan :=
  let plans := plans.mergeSort fun a b => b.2 ≤ a.2
  match d.active with
  | some (active, _) => plans.filter fun plan => plan.1.eventId = active
  | none => plans

/-- The part of a turn that looks at the plans. -/
def preemptPlans (env : Env) (db : Database) (l : AdmissionLedger) (request : DemandRequest)
    (now : Timestamp) (demands : DemandState) (looks : ℕ) (plans : List Plan) : DemandTurn :=
  let demands := demands.keepActive
  let plans := rankedPlans demands plans
  match pressuresOf db l.state looks plans with
  | .error e => ⟨db, demands, .error e⟩
  | .ok .bounded => ⟨db, demands, .ok .bounded⟩
  | .ok (.fits event) => ⟨db, demands, .ok (.fits event)⟩
  | .ok .notReady => ⟨db, demands, .ok .notReady⟩
  | .ok (.blocked looks scopes) =>
    let expiries := (demands.entries.keys.image fun k => (demands.entries.get k).elim 0 (·.expires))
    match Table.least expiries with
    | none => ⟨db, demands, .error (.payloadAccountingInvariant .quota)⟩
    | some retryAt =>
      walkPlans env db l.state request now l.retentionRevision demands.active.isSome demands
        { looks := looks, remaining := request.scanLimit, retryAt := retryAt } (plans.zip scopes)

/-- Preempt at most one lower-ranked retained payload for one live demand. -/
def preemptPayloadDemandBoundWith (env : Env) (db : Database) (l : AdmissionLedger)
    (request : DemandRequest) (now : Timestamp) : DemandTurn :=
  if PAYLOAD_MAINTENANCE_MAX < request.scanLimit then ⟨db, l.demands, .error .payloadMaintenanceLimit⟩
  else
    let demands := l.demands.expire now
    if demands.entries.keys = ∅ then ⟨db, demands, .ok .idle⟩
    else if !retentionSelectionReadyTx db.retention request.generation now ∨
        (accountingTx db.accounting).stage ≠ .ready then ⟨db, demands, .ok .notReady⟩
    else if l.configIdentity.any (some · ≠ request.config) then ⟨db, demands, .ok .notReady⟩
    else if demands.generation ≠ some request.generation ∨ l.configIdentity.all (some · ≠ demands.config) then
      ⟨db, demands.clear, .ok .notReady⟩
    else match collectPlans env db l.state request.generation now request.looks
        (Table.firstKeys demands.entries.keys demands.entries.keys.card) with
    | none => ⟨db, demands, .ok .bounded⟩
    | some (looks, stale, plans) =>
      let demands := demands.retain fun event _ => event ∉ stale
      if plans = [] then ⟨db, { demands with active := none }, .ok .idle⟩
      else preemptPlans env db l request now demands looks plans

end Rostra.Db
