/-
# Forecasting quota pressure

`payload_dry_run.rs`: one read transaction that walks over all stored headers, counts what is retained,
collects the candidates of the retention policy, and projects which of them author and global budgets
would take.  It writes nothing.

* Every loop looks at the clock.  `expired` answers for each place where it does (`DryRunPoint`); the
  transaction stops at the first `true`.
* A snapshot that stops early has a status and no projection.  An `expect` that failed would be
  `DryRunStop.panic`.
-/
import Mathlib.Data.Finset.Sort
import Rostra.Db.Ingest

namespace Rostra.Db

open Rostra

/-- `PayloadAdmissionConfig::experimental_low_water`: nine tenths, computed so that the product cannot overflow. -/
def experimentalLowWater (highWater : ℕ) : ℕ := highWater / 10 * 9 + highWater % 10 * 9 / 10

/-! ## 1. Reports

What a snapshot reports. -/

/-- The bounds of a snapshot; its time is what `expired` measures. -/
structure DryRunLimits where
  events : ℕ
  authors : ℕ
  logicalBytes : ℕ
  deriving DecidableEq

inductive DryRunStatus
  | complete | accountingNotReady | eventLimit | authorLimit | logicalByteLimit | timeLimit
  deriving DecidableEq

/-- Why a victim was chosen. -/
structure DryRunVictim where
  event : EventId
  author : RostraId
  bytes : ℕ
  ageSeconds : ℕ
  distanceCreditTicks : ℤ
  deriving DecidableEq

structure DryRunProjection where
  authorHighWaters : Table RostraId ℕ
  victims : List (EventId × QuotaPruneReason)
  victimDetails : List DryRunVictim
  logicalVictimBytes : ℕ
  logicalRemainingBytes : ℕ
  protectedLogicalBytes : ℕ
  unmetAuthors : ℕ
  unmetGlobal : Bool

structure DryRunReport where
  asOf : Timestamp
  generation : RetentionGeneration
  limits : DryRunLimits
  databaseHighWater : ℕ
  status : DryRunStatus
  visited : ℕ
  observedUsage : Option PayloadUsage
  projection : Option DryRunProjection

/-- A place where the deadline is checked: before each row, before each candidate of a pass, and at the end. -/
inductive DryRunPoint
  | row (visited : ℕ)
  | candidate (reason : QuotaPruneReason) (event : EventId)
  | finished

/-- How a snapshot ends early: with a status that is reported, with an error, or with a panic. -/
inductive DryRunStop
  | incomplete (status : DryRunStatus) (visited : ℕ) (unfinished : status ≠ .complete := by decide)
  | failed (e : DbError)
  | panic

/-! ## 2. Reading the headers

One pass over the table, with the sums of every author and the candidates among the rows. -/

structure DryRunAuthor where
  bytes : ℕ
  high : ℕ
  triggered : Bool

structure DryRunCandidate where
  key : ℕ
  event : EventId
  author : RostraId
  bytes : ℕ
  removed : Bool
  detail : DryRunVictim

structure DryRunScan where
  visited : ℕ := 0
  total : ℕ := 0
  authors : Table RostraId DryRunAuthor := ∅
  candidates : List DryRunCandidate := []

/-- What a snapshot is about. -/
structure DryRun where
  config : PayloadAdmissionConfig
  limits : DryRunLimits
  generation : RetentionGeneration
  now : Timestamp
  expired : DryRunPoint → Bool

/-- `DryRun::check_disabled`. A dry run is about an account without admission, so nothing may be leased, charged or
demanded. -/
def dryRunDisabled (s : AdmissionState) (demands : ℕ × ℕ) : Bool :=
  s.config.isNone && decide (s.events.keys = ∅ ∧ s.buffers = 0 ∧ s.bufferBytes = 0) &&
    decide (demands = (0, 0))

variable [Primitives]

/-- `RetentionPolicy::distance_credit_ticks`. -/
def distanceCreditTicks (policy : RetentionPolicy) (event : EventId) (holder : RostraId) : ℤ :=
  policy.keyTicksAtDistance (Primitives.eventCoordinate event ^^^ Primitives.holderCoordinate holder)
    policy.sizeFloor 0

namespace DryRun

variable (run : DryRun)

/-- The candidate that a retained event is, if it is one. -/
def candidateOf (db : Database) (id : ShortEventId) (e : Event) :
    Except DryRunStop (Option DryRunCandidate) :=
  if e.author = run.generation.holder ∨ e.kind ≠ EventKind.SOCIAL_POST ∨ e.contentLen = 0 then
    .ok none
  else match db.origins.get id with
    | none => .ok none
    | some origin =>
      if run.now < origin.effectiveTimestamp ∨
          !run.generation.policy.graceElapsed origin.materializedAt run.now then .ok none
      else
        let v := VerifiedEvent.ofEvent e
        if v.id ≠ id then .error (.failed (.payloadAccountingInvariant .retention))
        else .ok (some
          { key := run.generation.policy.key v.eventId run.generation.holder e.contentLen
              origin.effectiveTimestamp
            event := v.eventId
            author := e.author
            bytes := e.contentLen
            removed := false
            detail :=
              { event := v.eventId
                author := e.author
                bytes := e.contentLen
                ageSeconds := run.now - origin.effectiveTimestamp
                distanceCreditTicks := distanceCreditTicks run.generation.policy v.eventId
                  run.generation.holder } })

/-- One more retained event of its author. The ceiling of the author is looked up when its first event is met. -/
def countAuthor (authors : Table RostraId DryRunAuthor) (author : RostraId) (bytes : ℕ) :
    DbResult (Table RostraId DryRunAuthor) := do
  let entry := (authors.get author).getD ⟨0, run.config.authorBytesOf author, false⟩
  let sum ← checkedAdd .maintenance entry.bytes bytes
  pure (authors.insert author { entry with bytes := sum })

/-- One row of the events table. The deadline is looked at before the limit, and both before the row. -/
def scanRow (db : Database) (s : DryRunScan) (id : ShortEventId) : Except DryRunStop DryRunScan :=
  if run.expired (.row s.visited) then .error (.incomplete .timeLimit s.visited)
  else if s.visited = run.limits.events then .error (.incomplete .eventLimit s.visited)
  else match db.ev.events.get id with
    | none => .ok s
    | some e =>
      let s := { s with visited := s.visited + 1 }
      if (db.ev.eventsContentState.get id).isSome then .ok s
      else match checkedAdd .maintenance s.total e.contentLen with
        | .error err => .error (.failed err)
        | .ok total =>
          if run.limits.logicalBytes < total then
            .error (.incomplete .logicalByteLimit s.visited)
          else if (s.authors.get e.author).isNone ∧ s.authors.keys.card = run.limits.authors then
            .error (.incomplete .authorLimit s.visited)
          else match run.countAuthor s.authors e.author e.contentLen with
            | .error err => .error (.failed err)
            | .ok authors => do
              let candidate ← run.candidateOf db id e
              pure { s with
                total := total
                authors := authors
                candidates := s.candidates ++ candidate.toList }

/-- `events.range(..)`: all rows, in the order of their ids. -/
def scanRows (db : Database) : Except DryRunStop DryRunScan :=
  (db.ev.events.keys.sort (· ≤ ·)).foldlM (run.scanRow db) {}

/-! ## 3. Projecting

Two passes over the sorted candidates: one for the authors above their ceilings, one for the database. -/

/-- The part of the projection that the passes change. -/
structure Projecting where
  authors : Table RostraId DryRunAuthor
  remaining : ℕ
  victimBytes : ℕ := 0
  victims : List (EventId × QuotaPruneReason) := []
  details : List DryRunVictim := []

omit [Primitives] in
/-- Is there still something to be given up for this reason? The answer changes while candidates are given up. -/
def needed (reason : QuotaPruneReason) (globalTriggered : Bool) (author : DryRunAuthor)
    (remaining : ℕ) : Bool :=
  match reason with
  | .authorQuota => author.triggered && decide (experimentalLowWater author.high < author.bytes)
  | .globalQuota =>
    globalTriggered && decide (experimentalLowWater run.config.databaseBytes < remaining)

omit [Primitives] in
/-- One candidate of one pass. -/
def projectOne (reason : QuotaPruneReason) (globalTriggered : Bool) (s : Projecting)
    (c : DryRunCandidate) : Except DryRunStop (Projecting × DryRunCandidate) :=
  if run.expired (.candidate reason c.event) then .error (.incomplete .timeLimit 0)
  else match s.authors.get c.author with
    | none => .error .panic
    | some author =>
      if c.removed || !run.needed reason globalTriggered author s.remaining then .ok (s, c)
      else .ok
        ({ authors := s.authors.insert c.author { author with bytes := author.bytes - c.bytes }
           remaining := s.remaining - c.bytes
           victimBytes := s.victimBytes + c.bytes
           victims := s.victims ++ [(c.event, reason)]
           details := s.details ++ [c.detail] },
          { c with removed := true })

omit [Primitives] in
/-- One pass over the sorted candidates. Those that are spared go on to the next pass as they are. -/
def projectPass (reason : QuotaPruneReason) (globalTriggered : Bool) :
    Projecting → List DryRunCandidate → Except DryRunStop (Projecting × List DryRunCandidate)
  | s, [] => .ok (s, [])
  | s, c :: cs => do
    let (s, c) ← run.projectOne reason globalTriggered s c
    let (s, cs) ← projectPass reason globalTriggered s cs
    pure (s, c :: cs)

omit [Primitives] in
/-- The authors above their ceilings in this snapshot. They are marked once, before the passes change the sums. -/
def trigger (authors : Table RostraId DryRunAuthor) : Table RostraId DryRunAuthor :=
  authors.mapValues fun _ author => { author with triggered := decide (author.high < author.bytes) }

omit [Primitives] in
/-- Triggered and still above its target. -/
def unmet (author : DryRunAuthor) : Bool :=
  author.triggered && decide (experimentalLowWater author.high < author.bytes)

omit [Primitives] in
/-- Both passes, authors first. The second one starts from what the first has left. -/
def project (scan : DryRunScan) : Except DryRunStop DryRunProjection := do
  let authors := trigger scan.authors
  let candidates := scan.candidates.mergeSort fun a b => decide (a.key ≤ b.key)
  let (s, candidates) ← run.projectPass .authorQuota
    (decide (run.config.databaseBytes < scan.total)) { authors := authors, remaining := scan.total }
    candidates
  let globalTriggered := decide (run.config.databaseBytes < s.remaining)
  let (s, _) ← run.projectPass .globalQuota globalTriggered s candidates
  if run.expired .finished then throw (.incomplete .timeLimit 0)
  else return {
      authorHighWaters := authors.mapValues fun _ author => author.high
      victims := s.victims
      victimDetails := s.details
      logicalVictimBytes := s.victimBytes
      logicalRemainingBytes := s.remaining
      protectedLogicalBytes := scan.total - (scan.candidates.map (·.bytes)).sum
      unmetAuthors := (s.authors.keys.filter fun a => (s.authors.get a).any unmet).card
      unmetGlobal := globalTriggered &&
        decide (experimentalLowWater run.config.databaseBytes < s.remaining) }

/-! ## 4. The snapshot

Scan, sort and projection, with the places where the transaction may stop. -/

omit [Primitives] in
/-- The report of a snapshot that stopped at this status. -/
def report (usage : Option PayloadUsage) (status : DryRunStatus) (visited : ℕ)
    (projection : Option DryRunProjection) : DryRunReport where
  asOf := run.now
  generation := run.generation
  limits := run.limits
  databaseHighWater := run.config.databaseBytes
  status := status
  visited := visited
  observedUsage := usage
  projection := projection

/-- The read transaction. -/
def readSnapshot (db : Database) (usage : PayloadUsage) : Except DryRunStop DryRunReport := do
  let scan ← run.scanRows db
  if scan.total ≠ usage.logicalCurrentBytes then
    throw (.failed (.payloadAccountingInvariant .retention))
  else match run.project scan with
    | .ok projection => return run.report (some usage) .complete scan.visited (some projection)
    | .error (.incomplete status _ h) => throw (.incomplete status scan.visited h)
    | .error stop => throw stop

/-- `DryRun::snapshot`. -/
def snapshot (env : Env) (db : Database) (ledger : AdmissionState) (demands : ℕ × ℕ) :
    Except DryRunStop DryRunReport :=
  if run.generation.holder ≠ env.selfId ∨ !dryRunDisabled ledger demands then
    .error (.failed (.payloadAccountingInvariant .retention))
  else
    match db.accounting.state.filter fun record => record.stage = .ready with
    | none => .ok (run.report none .accountingNotReady 0 none)
    | some record =>
      match run.readSnapshot db record.usage with
      | .error (.incomplete status visited _) =>
        .ok (run.report (some record.usage) status visited none)
      | outcome => outcome

end DryRun

end Rostra.Db
