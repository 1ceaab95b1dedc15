/-
# Transactions and runs

The operations of the database as one step function, and what it means for a state to be
reached.  One operation is one write transaction: it commits, or it leaves no trace
(`Outcome.commit`).  A delivery transaction may carry any number of envelopes and payloads, which
is how one list of deliveries can be split into transactions in many ways.

The admission ledger of a step is arbitrary, so a run here allows every ledger the process could
have had.
-/
import Rostra.Db.Ingest

namespace Rostra.Db

open Rostra

variable [Primitives]

/-- One item of an ingestion transaction, with the clock of its moment and what the ledger shows then. -/
inductive Delivery
  /-- `process_event`. -/
  | envelope (v : VerifiedEvent) (now : Timestamp) (source : EventReceivedSource)
  /-- `process_event_content`: the carried envelope first, then the payload. -/
  | payload (c : VerifiedEventContent) (now : Timestamp) (ledger : AdmissionState)

/-- The envelope a delivery carries. -/
def Delivery.event : Delivery → VerifiedEvent
  | .envelope v _ _ => v
  | .payload c _ _ => c.event

def deliver (env : Env) (db : Database) : Delivery → DbResult Database
  | .envelope v now source => do
    let (db, _) ← processEventTx env {} db v now source
    pure db
  | .payload c now ledger => do
    let (db, _) ← processEventTx env {} db c.event now (.pushed none none)
    processEventContentTx env {} db c now ledger none

/-- The write transactions of the database. Each of them commits as a whole or not at all. -/
inductive Op
  | ingest (deliveries : List Delivery)
  | ingestAdmitted (c : VerifiedEventContent) (now : Timestamp) (ledger : AdmissionState)
      (buffer : Option PayloadBuffer)
  | materializeStored (id : ShortEventId) (now : Timestamp) (ledger : AdmissionState)
  | pruneQuota (request : QuotaPruneRequest)
  | collectStep (after : Option ContentHash) (maxBytes : ℕ)
  | collectGarbage (limit : ℕ)
  | rebuildAccounting (limit : ℕ)
  | rebuildNominations (limit : ℕ)
  | configureRetention (policy : RetentionPolicy)
  | rebuildRetention (limit : ℕ)
  | promoteRetention (clock : RetentionClock) (limit : ℕ)
  | deferFetch (id : ShortEventId) (observed retryAt : Timestamp)
  | recordFailedFetch (id : ShortEventId) (observed attemptedAt nextAttemptAt : Timestamp)
  | peekMissing
  | recalculateNews (postId : ExternalEventId) (now : Timestamp)

/-- The envelopes an operation brings in from outside. Whatever else is stored later was one of these. -/
def Op.delivered : Op → List VerifiedEvent
  | .ingest ds => ds.map Delivery.event
  | .ingestAdmitted c _ _ _ => [c.event]
  | _ => []

def step (env : Env) (db : Database) : Op → DbResult Database
  | .ingest ds => ds.foldlM (deliver env) db
  | .ingestAdmitted c now ledger buffer => do
    let (db, _) ← tryProcessAdmittedEventContent env {} db c now ledger buffer
    pure db
  | .materializeStored id now ledger => do
    let (db, _) ← tryMaterializeStoredPayload env {} db id now ledger
    pure db
  | .pruneQuota request => do
    let (db, _) ← pruneQuotaPayloadTx env db request
    pure db
  | .collectStep after maxBytes => do
    let (db, _) ← collectQuotaPayloadStepTx db after maxBytes
    pure db
  | .collectGarbage limit => collectQuotaPayloadGarbage db limit
  | .rebuildAccounting limit => rebuildPayloadAccounting env db limit
  | .rebuildNominations limit => rebuildQuotaPayloadNominations env db limit
  | .configureRetention policy =>
    .ok { db with retention := configureRetentionIndexTx db.retention ⟨policy, env.selfId⟩ }
  | .rebuildRetention limit => rebuildRetentionIndex env db limit
  | .promoteRetention clock limit => promoteRetentionGrace db clock limit
  | .deferFetch id observed retryAt => .ok { db with ev := deferContentFetch db.ev id observed retryAt }
  | .recordFailedFetch id observed attemptedAt nextAttemptAt =>
    .ok { db with ev := recordFailedContentFetch db.ev id observed attemptedAt nextAttemptAt }
  | .peekMissing => .ok { db with ev := (peekNextMissingContent db.ev).1 }
  | .recalculateNews postId now =>
    .ok { db with proj := (recalculateNewsPostScoreTx db.proj postId now).1 }

/-- The state after a run from the empty database. A transaction that fails leaves the state it has found. -/
def reached (env : Env) (ops : List Op) : Database := Outcome.run (step env) {} ops

/-- Every envelope of the run comes from `D`. In most theorems this is where the conditions on events are stated.
-/
def DeliveredFrom (D : Set VerifiedEvent) (ops : List Op) : Prop :=
  ∀ o ∈ ops, ∀ v ∈ o.delivered, v ∈ D

/-- No two events of `D` share a short id. Ids are truncated hashes, so this is an assumption about the events and
not about the code. -/
def CollisionFree (D : Set VerifiedEvent) : Prop := Set.InjOn VerifiedEvent.id D

end Rostra.Db
