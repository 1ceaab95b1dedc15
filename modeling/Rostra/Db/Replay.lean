/-
# Total replay

`migration_ops.rs`: the rebuild of every derived table from the stored headers and payload bytes.  The
source tables are stashed, the schema is installed afresh, stable tables are restored, and the stashed
events go through the ordinary envelope and payload transactions again.

* Every envelope is replayed before any payload, both in the order of the event ids.
* The author's own timestamp is the clock of a replayed event: it is no local observation, so the
  retention sources are restored instead of written, and the switch of the transaction is off.
* Preparing and reprocessing are two transactions, and the database is not handed out between them;
  they are one step here.

The formats of old versions, the tables of extensions and the count of replayed rows are left out.

The second half is the log of a session.  A transaction is a sequence of parts, each the processing of
one envelope or one payload, and a session remembers what every committed part found and left.
-/
import Rostra.Db.Destinations
import Rostra.Db.Run

namespace Rostra.Db

open Rostra Outcome

variable [Primitives]

/-! ## 1. The stash

What is set aside before the tables are emptied. -/

def DM_SCHEMA_VERSION : ℕ := 32

omit [Primitives] in
/-- The source of the first receipt, in the order of the reception keys. -/
def stashedSource (received : Table (Timestamp × ℕ) EventReceivedRecord) (id : ShortEventId) :
    EventReceivedSource :=
  let receipts := received.keys.filter fun k => (received.get k).any fun r => r.eventId = id
  match Table.least (receipts.image toLex) with
  | none => .migration
  | some k => ((received.get (ofLex k)).map EventReceivedRecord.source).getD .migration

omit [Primitives] in
/-- The stashed headers, in the order of their ids. -/
def stashedEvents (db : Database) : List (ShortEventId × Event) :=
  (Table.firstKeys db.ev.events.keys db.ev.events.keys.card).filterMap fun id =>
    (db.ev.events.get id).map fun e => (id, e)

omit [Primitives] in
/-- Lineage stays canonical only below the exclusive size boundary. -/
def stashedReplacements (db : Database) : Finset (RostraId × ShortEventId × ShortEventId) :=
  db.proj.socialPostsReplacedBy.filter fun k =>
    ¬((db.ev.events.get k.2.2).any fun e => MAX_CONTENT_LEN ≤ e.contentLen) = true

omit [Primitives] in
/-- `install_current_schema_from_stash`: fresh tables, and what the version of the stash preserves. -/
def installCurrentSchema (sourceVer : ℕ) (db : Database) : Database :=
  let restored : Projections := {
    socialPostsReplacedBy := stashedReplacements db
    socialPostMaterializations := if 26 ≤ sourceVer then db.proj.socialPostMaterializations else ∅ }
  { proj := if DM_SCHEMA_VERSION ≤ sourceVer then
        rebuildDmDeviceIndexTx { restored with
          idsDmDevices := db.proj.idsDmDevices
          idsDmInstallation := db.proj.idsDmInstallation }
      else restored
    origins := if 27 ≤ sourceVer then db.origins else ∅
    quotaPruned := if 27 ≤ sourceVer then db.quotaPruned else ∅ }

/-! ## 2. Reprocessing

The ordinary transactions once more, with the switch for the observation of origins off. -/

/-- `suppress_materialization_emission`, `suppress_retention_tracking`. -/
def replayCtx : TxCtx := ⟨false, false⟩

def replayEnvelopeTx (env : Env) (received : Table (Timestamp × ℕ) EventReceivedRecord)
    (db : Database) (entry : ShortEventId × Event) : DbResult Database := do
  let (db, _) ← processEventTx env replayCtx db (.ofEvent entry.2) entry.2.timestamp
    (stashedSource received entry.1)
  pure db

/-- Payload bytes are looked up under their hash; what fails its verification is skipped. -/
def replayContentTx (env : Env) (store : Table ContentHash Bytes) (ledger : AdmissionState)
    (db : Database) (entry : ShortEventId × Event) : DbResult Database :=
  let e := entry.2
  if e.contentLen = 0 ∨ MAX_CONTENT_LEN ≤ e.contentLen then .ok db
  else match store.get e.contentHash with
    | none => .ok db
    | some b =>
      match VerifiedEventContent.verify (.ofEvent e) (some b) with
      | none => .ok db
      | some c => processEventContentTx env replayCtx db c e.timestamp ledger none

omit [Primitives] in
/-- `social_posts_replaces` is the other direction of the restored lineage. -/
def replayReplacesTx (db : Database) : Database :=
  let replaced := db.proj.socialPostsReplacedBy.image fun k => (k.1, k.2.2, k.2.1)
  { db with proj := { db.proj with
      socialPostsReplaces := db.proj.socialPostsReplaces ∪ replaced } }

/-- `prepare_total_migration`, then `reprocess_migration_stash`. -/
def replayTx (env : Env) (sourceVer : ℕ) (ledger : AdmissionState) (db : Database) :
    DbResult Database := do
  let stash := stashedEvents db
  let fresh := installCurrentSchema sourceVer db
  let graph ← stash.foldlM (replayEnvelopeTx env db.eventsReceivedAt) fresh
  let filled ← stash.foldlM (replayContentTx env db.ev.contentStore ledger) graph
  pure (replayReplacesTx filled)

/-! ## 3. The parts of a transaction

A transaction is taken apart in order to say which part has observed what. -/

/-- One call inside a transaction. -/
inductive Part
  | envelope (v : VerifiedEvent) (now : Timestamp) (source : EventReceivedSource)
  | payload (c : VerifiedEventContent) (now : Timestamp) (ledger : AdmissionState)
  | admitted (c : VerifiedEventContent) (now : Timestamp) (ledger : AdmissionState)
      (buffer : Option PayloadBuffer)
  /-- A transaction that is one call. -/
  | whole (o : Op)

/-- The local clock a part reads to record receipts and materializations. -/
def Part.clock : Part → Option Timestamp
  | .envelope _ now _ => some now
  | .payload _ now _ => some now
  | .admitted _ now _ _ => some now
  | .whole (.materializeStored _ now _) => some now
  | .whole _ => none

def runPart (env : Env) (db : Database) : Part → DbResult Database
  | .envelope v now source => do
    let (db, _) ← processEventTx env {} db v now source
    pure db
  | .payload c now ledger => processEventContentTx env {} db c now ledger none
  | .admitted c now ledger buffer => do
    let (db, _) ← processAdmittedContentTx env {} db c now ledger buffer
    pure db
  | .whole o => step env db o

def Delivery.parts : Delivery → List Part
  | .envelope v now source => [.envelope v now source]
  | .payload c now ledger => [.envelope c.event now (.pushed none none), .payload c now ledger]

def Op.parts : Op → List Part
  | .ingest ds => ds.flatMap Delivery.parts
  | .ingestAdmitted c now ledger buffer =>
    [.envelope c.event now (.pushed none none), .admitted c now ledger buffer]
  | o => [.whole o]

/-! ## 4. Sessions

A run with replays in it, and the log that it keeps. -/

/-- What one committed part found and left. -/
structure PartRecord where
  before : Database
  after : Database
  clock : Option Timestamp
  /-- Total replay is not tracked. -/
  tracked : Bool

/-- The header is stored. -/
def isStored (db : Database) (id : ShortEventId) : Bool := (db.ev.events.get id).isSome

/-- `Processed` is the absence of a state row. -/
def isProcessed (db : Database) (id : ShortEventId) : Bool :=
  isStored db id && (db.ev.eventsContentState.get id).isNone

/-- The first local receipt. -/
def PartRecord.receives (id : ShortEventId) (m : PartRecord) : Bool :=
  !isStored m.before id && isStored m.after id

/-- The transition to `Processed`, outside a total replay. -/
def PartRecord.processes (id : ShortEventId) (m : PartRecord) : Bool :=
  m.tracked && !isProcessed m.before id && isProcessed m.after id

def firstReceipt (log : List PartRecord) (id : ShortEventId) : Option Timestamp :=
  (log.find? (PartRecord.receives id)).bind PartRecord.clock

def firstProcessed (log : List PartRecord) (id : ShortEventId) : Option Timestamp :=
  (log.find? (PartRecord.processes id)).bind PartRecord.clock

/-- A database with the log of everything that was committed to it. -/
structure Session where
  db : Database
  log : List PartRecord := []

inductive SessionOp
  | write (o : Op)
  /-- The version of a database whose schema has the retention sources. -/
  | replay (sourceVer : ℕ) (hver : 27 ≤ sourceVer) (ledger : AdmissionState)

def sessionPart (env : Env) (s : Session) (p : Part) : DbResult Session := do
  let db ← runPart env s.db p
  pure ⟨db, s.log ++ [⟨s.db, db, p.clock, true⟩]⟩

def sessionStep (env : Env) (s : Session) : SessionOp → DbResult Session
  | .write o => o.parts.foldlM (sessionPart env) s
  | .replay sourceVer _ ledger => do
    let db ← replayTx env sourceVer ledger s.db
    pure ⟨db, s.log ++ [⟨s.db, db, none, false⟩]⟩

/-- A failed transaction leaves neither rows nor records. -/
def session (env : Env) (db : Database) (ops : List SessionOp) : Session :=
  run (sessionStep env) ⟨db, []⟩ ops

end Rostra.Db
