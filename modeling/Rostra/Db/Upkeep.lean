/-
# The upkeep of an account

Demand, preemption and general pressure as one machine over a database that everyone else keeps writing to.
The order of the actions is arbitrary, so a statement about every list of actions is a statement about every
interleaving of the worker's bounded turns with ingestion, index maintenance, leases, clock moves, restarts
and failing commits.

What the other code does is kept as free as it can be.

* The index revision is raised before every mutation of the index, also of one that is rolled back.  Here an
  action brings its own number of raises (`bumps`), and one more is made when the rows or the
  generation did change.  The pressure revision is handled the same way, for the accounted authors of
  an account whose accounting is ready.
* Leases and buffers may become anything at any time (`leases`), as may intents be forgotten by
  completion, by expiry in another call, or by a commit hook (`forget`, `clearDemands`).
* A transaction that does not commit leaves the tables alone; what was changed in memory stays.

A revision that would overflow makes its transaction fail, like any other failing commit.
-/
import Rostra.Lib.Machine
import Rostra.Db.Run
import Rostra.Db.PayloadPressure

namespace Rostra.Db

open Rostra

/-! ## 1. State and actions

The database, the ledger of intents, the worker, and a history that nobody reads. -/

/-- The database with everything that the upkeep of it stores, in tables and in memory. -/
structure Upkeep where
  db : Database := {}
  tables : PressureTables := {}
  ledger : AdmissionLedger := {}
  /-- The incarnation of this runtime; zero before its first step. -/
  epoch : ℕ := 0
  cursor : PressureCursor := {}

/-- What an index walk can see. -/
def sameRows (r r' : RetentionIndex) : Bool :=
  decide (r'.reverse = r.reverse) && decide (r'.global = r.global) && decide (r'.author = r.author) &&
    decide (r'.grace = r.grace) && decide (r'.state.map (·.generation) = r.state.map (·.generation))

/-- How often a transaction raises something, and whether it commits. -/
structure Fate where
  bumps : ℕ := 0
  pressureBumps : ℕ := 0
  commits : Bool := true

variable [Primitives]

inductive UpkeepAct
  /-- Any other write transaction. -/
  | write (o : Op) (fate : Fate)
  | leases (state : AdmissionState) (pressureBumps : ℕ)
  /-- Another configuration is installed. -/
  | install (config : Option PayloadAdmissionConfig)
  | forget (keep : EventId → Bool)
  | clearDemands
  | register (event : EventId) (generation : RetentionGeneration) (now : Timestamp)
  | cloneOwner (id : ℕ)
  | releaseOwner (id : ℕ)
  /-- `DemandOwner::drop`, some time after the last clone is gone. -/
  | dropOwner (event : EventId) (id : ℕ)
  | preempt (request : DemandRequest) (now : Timestamp) (fate : Fate)
  | press (request : PressureRequest) (now : Timestamp) (fate : Fate)
  /-- The runner is cancelled; the next one starts with a fresh cursor. -/
  | newRunner
  /-- The process ends; the tables are all that is left. -/
  | restart

/-- A visit of the pressure worker: the state it was made in, what it found, and whether it was committed. -/
structure VisitMark where
  state : Upkeep
  request : PressureRequest
  now : Timestamp
  visit : PressureVisit
  committed : Bool

/-- Every envelope of the run comes from `D`. -/
def UpkeepDeliveredFrom (D : Set VerifiedEvent) (acts : List UpkeepAct) : Prop :=
  ∀ o fate, .write o fate ∈ acts → ∀ v ∈ o.delivered, v ∈ D

/-! ## 2. The machine

An action that is not enabled is skipped. -/

/-- Both revisions after a transaction that took `db` to `db'`. -/
def AdmissionLedger.raised (l : AdmissionLedger) (db db' : Database) (fate : Fate) : AdmissionLedger :=
  let authorsMoved := (accountingTx db.accounting).stage = .ready ∧
    db'.accounting.authors.keys ≠ db.accounting.authors.keys
  { l with
    retentionRevision := l.retentionRevision + fate.bumps + (if sameRows db.retention db'.retention then 0 else 1)
    pressureRevision := min u64Max (l.pressureRevision + fate.pressureBumps + if authorsMoved then 1 else 0) }

/-- A transaction ends: its tables are written, or only the revisions have moved. -/
def Upkeep.finish (u : Upkeep) (db' : Database) (tables' : PressureTables) (fate : Fate) : Upkeep :=
  let raised := u.ledger.raised u.db db' fate
  if fate.commits ∧ raised.retentionRevision ≤ u64Max then
    { u with db := db', tables := tables', ledger := raised }
  else { u with ledger := { u.ledger.raised u.db u.db fate with
    retentionRevision := min u64Max raised.retentionRevision } }

/-- Does the transaction of this turn take effect? -/
def Upkeep.takes (u : Upkeep) (db' : Database) (fate : Fate) : Bool :=
  fate.commits && decide ((u.ledger.raised u.db db' fate).retentionRevision ≤ u64Max)

/-- One action of the run. -/
def upkeepStep (env : Env) (u : Upkeep) : UpkeepAct → Option (Upkeep × List VisitMark)
  | .write o fate =>
    match step env u.db o with
    | .ok db' => some (u.finish db' u.tables fate, [])
    | .error _ => some (u.finish u.db u.tables fate, [])
  | .leases state pressureBumps => some ({ u with ledger := { u.ledger with
      state := { state with config := u.ledger.state.config }
      pressureRevision := min u64Max (u.ledger.pressureRevision + pressureBumps) } }, [])
  | .install config => some ({ u with ledger := { u.ledger with
      state := { u.ledger.state with config := config }, identity := u.ledger.identity + 1 } }, [])
  | .forget keep => some ({ u with ledger := { u.ledger with
      demands := u.ledger.demands.retain fun event _ => keep event } }, [])
  | .clearDemands => some ({ u with ledger := { u.ledger with demands := u.ledger.demands.clear } }, [])
  | .register event generation now => some ({ u with
      ledger := (registerPayloadDemandWith env u.db u.ledger event generation now).2 }, [])
  | .cloneOwner id =>
    if u.ledger.upgrade id then some ({ u with ledger := { u.ledger with
      owners := u.ledger.owners.insert id ((u.ledger.owners.get id).getD 0 + 1) } }, [])
    else none
  | .releaseOwner id =>
    if u.ledger.upgrade id then some ({ u with ledger := { u.ledger with
      owners := u.ledger.owners.insert id ((u.ledger.owners.get id).getD 0 - 1) } }, [])
    else none
  | .dropOwner event id =>
    if u.ledger.owners.get id = some 0 then some ({ u with ledger := u.ledger.dropOwner event id }, []) else none
  | .preempt request now fate =>
    let turn := preemptPayloadDemandBoundWith env u.db u.ledger request now
    some ({ u with ledger := { u.ledger with demands := turn.demands } }.finish turn.db u.tables fate, [])
  | .press request now fate =>
    if u.epoch = 0 then
      match initializePressure u.tables with
      | .error _ => some (u, [])
      | .ok (tables', epoch) =>
        if fate.commits then some ({ u with tables := tables', epoch := epoch, cursor := {} }, [])
        else some (u, [])
    else
      let demands := u.ledger.demands.expire now
      let turn := pressureStepWith env u.db u.tables u.ledger demands u.epoch request u.cursor now
      let marks := turn.visit.toList.map fun visit =>
        { state := u, request := request, now := now, visit := visit, committed := u.takes turn.db fate }
      some ({ u with ledger := { u.ledger with demands := demands }, cursor := turn.cursor }.finish
        turn.db turn.tables fate, marks)
  | .newRunner => some ({ u with cursor := {} }, [])
  | .restart => some ({ u with ledger := {}, epoch := 0, cursor := {} }, [])

/-- The state after a run from an empty database, and the visits that were made. -/
def upkeep (env : Env) (acts : List UpkeepAct) : Upkeep × List VisitMark :=
  Machine.run (upkeepStep env) {} acts

end Rostra.Db
