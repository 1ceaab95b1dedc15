/-
# Trial decryption

`dm_process_pending_with_clock` (`dm_receive.rs`) with the key table that it reads: `dm_expire_keys_tx`,
`dm_maintain_local_with_clock` and `dm_reenroll` (`dm.rs`), `LocalEpoch` (`epoch.rs`) and `decrypt`
(`envelope.rs`).

* A message that was processed waits in `events_dm_pending`, with the last key that was tried on it.
* A call is two transactions.  The first deletes what has expired, the second tries the next eight keys on the
  first message that waits.
* Everything else may happen between any two transactions, so a run is a sequence of single ones.

The wakeup of local subscribers that follows a call is left out: nothing here reads it.
-/
import Rostra.Db.Destinations
import Rostra.Db.Run
import Rostra.Dm.Wire

namespace Rostra.Db

open Rostra

def DM_KEY_SEND_WINDOW : ℕ := 7 * 24 * 60 * 60
def DM_KEY_RECEIVE_GRACE : ℕ := 28 * 24 * 60 * 60
def MAX_TEXT_BYTES : ℕ := 16 * 1024
def MAX_FRAME_BYTES : ℕ := Dm.FRAME_OVERHEAD + MAX_TEXT_BYTES
def MAX_TRIAL_KEYS : ℕ := 8

/-- How a transaction of this file fails. -/
inductive MailError
  /-- `rostra_dm::Error::Invalid` and `Unreadable`. -/
  | invalid
  | unreadable
  | dmMigrationPending
  | overflow
  | database (e : DbError)
  deriving DecidableEq

def HistoryError.toMail : Dm.HistoryError → MailError
  | .invalid => .invalid
  | .overflow => .overflow

/-! ## 1. Keys

Keys of the own installation, with the times between which they are good. -/

/-- A secret and the deadlines assigned at its creation. -/
structure LocalEpoch where
  publicPart : Dm.EpochPublic
  secret : Text
  deriving DecidableEq

/-- An installation and a public key of it, in the order of the table. -/
abbrev EpochKey := Bytes ×ₗ Bytes

/-- What the crates for X25519, age and signatures compute.  An identity is its secret. -/
structure Crypto where
  /-- `Identity::from_str`, then `to_public`. -/
  publicKeyOf : Text → Option Bytes
  /-- `rostra_dm::decrypt`: a frame, the identities, its author and the local account. -/
  decrypt : Bytes → List Text → RostraId → RostraId → Option Dm.MessageBody
  /-- Whether `VerifiedEvent::verify_signed` accepts a stored event. -/
  verifySigned : Event → Bool

/-- `decrypt` over what age does with a file: its whole plaintext, for the first identity that a slot fits. -/
def decryptWith (engine : Dm.Base64) (openFile : Bytes → List Text → Option Bytes) (frame : Bytes)
    (identities : List Text) (signedAuthor localAccount : RostraId) : Except Dm.Stop Dm.MessageBody := do
  Dm.rejectIf (identities = [] ∨ MAX_TRIAL_KEYS < identities.length)
  let file ← Dm.validateFrame engine frame
  let bucket := frame.length - Dm.FRAME_OVERHEAD
  let plaintext ← Dm.okOrInvalid (openFile file identities)
  Dm.rejectIf (plaintext.length ≠ Dm.BODY_METADATA_BYTES + bucket)
  let body ← Dm.MessageBody.decode plaintext bucket
  -- `validate_participants`
  Dm.rejectIf (body.sender ≠ signedAuthor ∨ (body.sender ≠ localAccount ∧ body.recipient ≠ localAccount))
  return body

/-- The imported crates under `rostra_dm::decrypt`. -/
def Crypto.ofAge (engine : Dm.Base64) (openFile : Bytes → List Text → Option Bytes)
    (publicKeyOf : Text → Option Bytes) (verifySigned : Event → Bool) : Crypto where
  publicKeyOf := publicKeyOf
  decrypt frame identities author account := (decryptWith engine openFile frame identities author account).toOption
  verifySigned := verifySigned

section Epochs

variable [Primitives]

/-- `LocalEpoch::generate`, with the key pair that was drawn. -/
def LocalEpoch.generate (now : ℕ) (publicKey : Bytes) (secret : Text) : Except MailError LocalEpoch :=
  let sendUntil := now + DM_KEY_SEND_WINDOW
  let decryptUntil := sendUntil + DM_KEY_RECEIVE_GRACE
  let publicPart : Dm.EpochPublic := ⟨publicKey, now, sendUntil, decryptUntil⟩
  -- two checked additions
  if u64Max < sendUntil ∨ u64Max < decryptUntil ∨ !publicPart.validate then .error .invalid
  else .ok ⟨publicPart, secret⟩

/-- `LocalEpoch::identity`: the live secret. -/
def LocalEpoch.identity (crypto : Crypto) (epoch : LocalEpoch) (now : ℕ) : Except MailError Text :=
  if !epoch.publicPart.validate then .error .invalid
  else if epoch.publicPart.decryptUntil ≤ now then .error .unreadable
  else if crypto.publicKeyOf epoch.secret = some epoch.publicPart.publicKey then .ok epoch.secret
  else .error .invalid

end Epochs

/-- The database with the tables of this file. -/
structure Mailbox where
  db : Database := {}
  dm : Dm.DmTables := {}
  /-- `ids_dm_epochs`. -/
  epochs : Table EpochKey LocalEpoch := ∅
  /-- The stash of an interrupted migration is there. -/
  migrationStash : Bool := false

/-- The rows of the key table behind a cursor, in their order. -/
def epochsBehind (epochs : Table EpochKey LocalEpoch) (cursor : Option EpochKey) : List (EpochKey × LocalEpoch) :=
  (Table.firstKeys (Table.beyond epochs.keys cursor) epochs.keys.card).filterMap fun key =>
    (epochs.get key).map (key, ·)

/-- The keys that may not be used any more. -/
def expiredEpochs (epochs : Table EpochKey LocalEpoch) (now : ℕ) : List EpochKey :=
  ((epochsBehind epochs none).filter fun row => decide (row.2.publicPart.decryptUntil ≤ now)).map (·.1)

def dmExpireKeysTx (s : Mailbox) (now : ℕ) : Except MailError Mailbox :=
  if s.migrationStash then .error .dmMigrationPending
  else .ok { s with epochs := (expiredEpochs s.epochs now).foldl Table.remove s.epochs }

/-- The epoch of an installation with the latest start, then the greatest public key. -/
def newestEpoch (epochs : Table EpochKey LocalEpoch) (deviceId : Bytes) : Option Dm.EpochPublic :=
  let first : EpochKey := toLex (deviceId, List.replicate 32 0)
  let last : EpochKey := toLex (deviceId, List.replicate 32 255)
  ((epochsBehind epochs none).filter fun row => decide (first ≤ row.1) && decide (row.1 ≤ last)).foldl
    (fun newest row =>
      let epoch := row.2.publicPart
      if newest.all fun old : Dm.EpochPublic =>
          decide (toLex (old.sendFrom, old.publicKey) < toLex (epoch.sendFrom, epoch.publicKey)) then some epoch
      else newest) none

/-- What a maintenance call draws at random. -/
structure Drawn where
  deviceId : Bytes
  publicKey : Bytes
  secret : Text

section Transactions

variable [Primitives]

/-- Expired keys go, and an installation without a current epoch gets a new one. -/
def dmMaintainLocal (s : Mailbox) (now : ℕ) (drawn : Drawn) : Except MailError (Mailbox × Dm.Announcement) := do
  let s ← dmExpireKeysTx s now
  let installation := s.db.proj.idsDmInstallation.getD ⟨drawn.deviceId, false⟩
  let s := { s with db := { s.db with proj := { s.db.proj with idsDmInstallation := some installation } } }
  if installation.retired then return (s, ⟨installation.deviceId, none⟩)
  else
    match (newestEpoch s.epochs installation.deviceId).filter fun epoch => decide (now < epoch.sendUntil) with
    -- a future newest key pauses generation after backward correction
    | some epoch => return (s, ⟨installation.deviceId, some epoch⟩)
    | none => do
      let epoch ← LocalEpoch.generate now drawn.publicKey drawn.secret
      let key : EpochKey := toLex (installation.deviceId, epoch.publicPart.publicKey)
      return ({ s with epochs := s.epochs.insert key epoch }, ⟨installation.deviceId, some epoch.publicPart⟩)

omit [Primitives] in
def dmReenroll (s : Mailbox) (deviceId : Bytes) : Except MailError (Mailbox × Bytes) :=
  if s.migrationStash then .error .dmMigrationPending
  else
    match s.db.proj.idsDmInstallation.filter fun current => !current.retired with
    | some current => .ok (s, current.deviceId)
    | none =>
      let proj := { s.db.proj with idsDmInstallation := some ⟨deviceId, false⟩ }
      .ok ({ s with db := { s.db with proj := proj } }, deviceId)

/-! ## 2. A trial

Eight keys at a time, on the first message that waits, behind the last one that was tried. -/

/-- What the trial transaction does next. -/
inductive Selection
  /-- Keys have expired since the purge: yield to another one. -/
  | expired
  /-- No message waits. -/
  | idle
  /-- The first message is given up without a trial. -/
  | discard (id : ShortEventId)
  | attempt (id : ShortEventId) (cursor : Option EpochKey) (event : Event) (content : Bytes)

omit [Primitives] in
/-- `pending.first()`. -/
def firstPending (p : Projections) : Option (ShortEventId × Option EpochKey) :=
  (Table.least p.eventsDmPending.keys).bind fun id => (p.eventsDmPending.get id).map fun cursor =>
    (id, cursor.map toLex)

/-- The event of a waiting message and its bytes, if it may be tried. -/
def selectContent (crypto : Crypto) (t : EventTables) (id : ShortEventId) (cursor : Option EpochKey) :
    Except MailError Selection :=
  match t.events.get id with
  | none => .ok (.discard id)
  | some event =>
    if event.kind ≠ EventKind.DIRECT_MESSAGE ∨ event.keyAux ≠ 0 ∨ event.isSingleton ∨
        MAX_FRAME_BYTES < event.contentLen ∨ (t.eventsContentState.get id).isSome then .ok (.discard id)
    -- reauthenticate the stored envelope
    else if !crypto.verifySigned event then .ok (.discard id)
    else
      match t.contentStore.get event.contentHash with
      | none => .ok (.discard id)
      | some content =>
        if content.length ≠ event.contentLen ∨ blake3 content ≠ event.contentHash then .error .invalid
        else .ok (.attempt id cursor event content)

def selectTrial (crypto : Crypto) (s : Mailbox) (now : ℕ) : Except MailError Selection :=
  if (expiredEpochs s.epochs now).isEmpty then
    match firstPending s.db.proj with
    | none => .ok .idle
    | some (id, cursor) => selectContent crypto s.db.ev id cursor
  else .ok .expired

omit [Primitives] in
/-- The keys of one batch. -/
def trialBatch (epochs : Table EpochKey LocalEpoch) (cursor : Option EpochKey) : List (EpochKey × LocalEpoch) :=
  (epochsBehind epochs cursor).take MAX_TRIAL_KEYS

omit [Primitives] in
def Mailbox.withPending (s : Mailbox) (pending : Table ShortEventId (Option (Bytes × Bytes))) : Mailbox :=
  { s with db := { s.db with proj := { s.db.proj with eventsDmPending := pending } } }

/-- The row of a message goes, or its cursor moves behind the batch. -/
def attemptTx (crypto : Crypto) (env : Env) (s : Mailbox) (now : ℕ) (id : ShortEventId) (cursor : Option EpochKey)
    (event : Event) (content : Bytes) : Except MailError Mailbox := do
  let pending := s.db.proj.eventsDmPending
  let batch := trialBatch s.epochs cursor
  let identities ← batch.mapM fun row => row.2.identity crypto now
  let last := (batch.getLast?.map (·.1)).or cursor
  let exhausted := ((epochsBehind s.epochs cursor).drop MAX_TRIAL_KEYS).isEmpty
  let body := if identities.isEmpty then none else crypto.decrypt content identities event.author env.selfId
  match body with
  | some body =>
    let dm ← (Dm.dmStoreHistoryTx s.dm body id event.timestamp).mapError HistoryError.toMail
    return { s with dm := dm }.withPending (pending.remove id)
  | none =>
    if exhausted then return s.withPending (pending.remove id)
    else return s.withPending (pending.insert id (last.map ofLex))

/-- The second transaction of a call; returns whether a row was serviced. -/
def dmProcessPendingTx (crypto : Crypto) (env : Env) (s : Mailbox) (now : ℕ) : Except MailError (Mailbox × Bool) := do
  match ← selectTrial crypto s now with
  | .expired => return (s, true)
  | .idle => return (s, false)
  | .discard id => return (s.withPending (s.db.proj.eventsDmPending.remove id), true)
  | .attempt id cursor event content => do
    let s ← attemptTx crypto env s now id cursor event content
    return (s, true)

/-! ## 3. Runs

Single transactions in any order. -/

inductive MailOp
  /-- Any transaction of the database: messages arrive, are deleted or pruned. -/
  | db (op : Op)
  /-- Any transaction of the history.  Sending a message is an arrival, then a `store`. -/
  | history (op : Dm.DmOp)
  | maintain (now : ℕ) (drawn : Drawn)
  | reenroll (deviceId : Bytes)
  /-- The first transaction of a call. -/
  | expireKeys (now : ℕ)
  /-- The second transaction of a call. -/
  | trial (now : ℕ)
  /-- A migration is interrupted, or resumed. -/
  | stash (pending : Bool)

def mailStep (crypto : Crypto) (env : Env) (s : Mailbox) : MailOp → Except MailError Mailbox
  | .db op => do
    let db ← (step env s.db op).mapError MailError.database
    return { s with db := db }
  | .history op => do
    let dm ← (Dm.dmStep s.dm op).mapError HistoryError.toMail
    return { s with dm := dm }
  | .maintain now drawn => do
    let (s, _) ← dmMaintainLocal s now drawn
    return s
  | .reenroll deviceId => do
    let (s, _) ← dmReenroll s deviceId
    return s
  | .expireKeys now => dmExpireKeysTx s now
  | .trial now => do
    let (s, _) ← dmProcessPendingTx crypto env s now
    return s
  | .stash pending => .ok { s with migrationStash := pending }

/-- The state after a run from a new database. -/
def mailReached (crypto : Crypto) (env : Env) (ops : List MailOp) : Mailbox :=
  Outcome.run (mailStep crypto env) { dm := { idsSelf := some env.selfId } } ops

/-- The envelopes an operation brings in from outside. -/
def MailOp.delivered : MailOp → List VerifiedEvent
  | .db op => op.delivered
  | _ => []

/-- Every envelope of the run comes from `D`. -/
def MailedFrom (D : Set VerifiedEvent) (ops : List MailOp) : Prop :=
  ∀ o ∈ ops, ∀ v ∈ o.delivered, v ∈ D

end Transactions

end Rostra.Db
