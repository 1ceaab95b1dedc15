/-
# Leases and buffers

`payload_allocation.rs`, `payload_reservation.rs` and `payload_account.rs`: the owners of admission
capacity.  A ledger holds two counters of buffers; what they count lives elsewhere, in values that
give their share back when they are dropped.

* A `PayloadAllocation` is a provisional charge.  It can grow, and it can be bound to a reservation:
  then the charge goes on under a `PayloadBuffer` and the allocation is disarmed.
* A `PayloadReservation` and its buffers share one `ReservationOwner`; the last of them to go
  releases the logical lease, if the ledger still holds that very lease.
* An account has a ledger of its own.  A database starts with a disabled one and takes over the
  ledger of the account it is attached to; that clears the leases of the database before it and
  leaves the buffers alone.

`Process` is everything of this that is alive, and `leaseStep` one call into it.  A call either
runs under the ledger's mutex or holds its writer lock, so calls do not overlap.  Waiters, pressure
revisions and pending demands are left out: no counter reads them.
-/
import Rostra.Db.Ingest

namespace Rostra.Db

open Rostra

/-! ## 1. What is alive

Handles by name, each with the ledger and the amount it is charged. -/

abbrev LedgerId := ℕ
abbrev HandleId := ℕ

/-- A provisional charge; `none` once it was bound, and then it has nothing to give back. -/
structure PayloadAllocation where
  ledger : Option LedgerId
  bytes : ℕ

/-- The identity that a reservation and its buffers share.  Lease ids are never reused, so two
owners of one ledger are never equal. -/
structure ReservationOwner where
  ledger : LedgerId
  event : EventId
  bytes : ℕ
  id : ℕ
  deriving DecidableEq

/-- A `PayloadBuffer`, which keeps its owner alive, and with it the lease. -/
structure OwnedBuffer where
  owner : ReservationOwner
  bytes : ℕ

/-- The lease, as the ledger looks at it. -/
def ReservationOwner.lease (o : ReservationOwner) : PayloadBuffer :=
  { event := o.event, bytes := o.bytes, id := o.id }

/-- An account is its identity and its ledger. -/
structure PayloadAccount where
  id : RostraId
  ledger : LedgerId
  /-- `database_owner`: the database that took the ledger over last. -/
  attachedTo : Option HandleId := none

/-- An open database.  `attached` is `payload_account_owner.is_some()`. -/
structure OpenDatabase where
  selfId : RostraId
  ledger : LedgerId
  attached : Bool := false

/-- Ledgers, the handles that own capacity, and the supply of names. -/
structure Process where
  ledgers : Table LedgerId AdmissionState := ∅
  accounts : Table HandleId PayloadAccount := ∅
  databases : Table HandleId OpenDatabase := ∅
  allocations : Table HandleId PayloadAllocation := ∅
  reservations : Table HandleId ReservationOwner := ∅
  buffers : Table HandleId OwnedBuffer := ∅
  next : ℕ := 0

inductive PayloadAccountAttachError
  | identityMismatch | databaseAlreadyAttached | databaseConfigured | databaseBusy
  | accountAlreadyAttached
  deriving DecidableEq

/-- What a call returns. -/
inductive Reply
  | done
  | paused (reason : PayloadAdmissionPause)
  | refused (e : PayloadAccountAttachError)
  | failed (e : DbError)
  /-- A counter would have gone below zero. -/
  | underflow
  /-- There is no such handle: the call cannot be written. -/
  | absent

/-! ## 2. Counters

Charging is checked against the budgets, and releasing is a checked subtraction. -/

/-- `state.buffers -= 1; state.buffer_bytes -= bytes`. The source does not check the subtractions; `none` stands
for one that underflows. -/
def AdmissionState.release (s : AdmissionState) (bytes : ℕ) : Option AdmissionState :=
  if 1 ≤ s.buffers ∧ bytes ≤ s.bufferBytes then
    some { s with buffers := s.buffers - 1, bufferBytes := s.bufferBytes - bytes }
  else none

/-- Drop a buffer or an allocation: give its charge back. A ledger that is gone has no counters to be lowered. -/
def Process.release (p : Process) (l : LedgerId) (bytes : ℕ) : Option Process :=
  match p.ledgers.get l with
  | none => some p
  | some s => (s.release bytes).map fun s => { p with ledgers := p.ledgers.insert l s }

/-- The handles that hold this owner: reservations and buffers alike. -/
def Process.strongCount (p : Process) (o : ReservationOwner) : ℕ :=
  (p.reservations.sum fun _ o' => if o' = o then 1 else 0) +
    p.buffers.sum fun _ b => if b.owner = o then 1 else 0

/-- The lease goes, unless the event belongs to another one by now. -/
def AdmissionState.cancel (s : AdmissionState) (o : ReservationOwner) : AdmissionState :=
  if leaseHeld s o.lease then { s with events := s.events.remove o.event } else s

/-- `ReservationOwner::drop`, when the last handle is gone. Until then the lease stays in its ledger. -/
def Process.dropOwner (p : Process) (o : ReservationOwner) : Process :=
  if p.strongCount o = 0 then
    match p.ledgers.get o.ledger with
    | none => p
    | some s => { p with ledgers := p.ledgers.insert o.ledger (s.cancel o) }
  else p

/-! ## 3. Provisional allocations

An allocation is made before it is known which event the bytes belong to. -/

/-- `PayloadAllocation::reserve`; a disabled ledger hands out nothing. -/
def Process.reserveAllocation (p : Process) (l : LedgerId) (bytes : ℕ) : Reply × Process :=
  match p.ledgers.get l with
  | none => (.absent, p)
  | some s =>
    match s.config, reservePayloadAllocation s bytes with
    | none, _ => (.done, p)
    | some _, .error reason => (.paused reason, p)
    | some _, .ok s => (.done, { p with
        ledgers := p.ledgers.insert l s
        allocations := p.allocations.insert p.next ⟨some l, bytes⟩
        next := p.next + 1 })

def Process.tryGrow (p : Process) (h : HandleId) (bytes : ℕ) : Reply × Process :=
  match p.allocations.get h with
  | none => (.absent, p)
  | some a =>
    match a.ledger with
    | none => (.paused .reservationExpired, p)
    | some l =>
      if bytes ≤ a.bytes then (.done, p)
      else match p.ledgers.get l with
        | none => (.absent, p)
        | some s =>
          match s.config with
          | none => (.paused .reservationExpired, p)
          | some config =>
            let total := s.bufferBytes + (bytes - a.bytes)
            if min u64Max config.inFlightBytes < total then (.paused .inFlightBytes, p)
            else (.done, { p with
              ledgers := p.ledgers.insert l { s with bufferBytes := total }
              allocations := p.allocations.insert h { a with bytes := bytes } })

/-- The charge moves to a buffer of the reservation, in full. -/
def Process.bindToReservation (p : Process) (h r : HandleId) : Reply × Process :=
  match p.allocations.get h, p.reservations.get r with
  | some a, some o =>
    match a.ledger with
    | none => (.paused .reservationExpired, p)
    | some l =>
      if l ≠ o.ledger ∨ a.bytes < o.bytes then (.paused .reservationExpired, p)
      else match p.ledgers.get l with
        | none => (.absent, p)
        | some s =>
          if !leaseHeld s o.lease then (.paused .reservationExpired, p)
          else (.done, { p with
            buffers := p.buffers.insert p.next ⟨o, a.bytes⟩
            allocations := p.allocations.insert h { a with ledger := none }
            next := p.next + 1 })
  | _, _ => (.absent, p)

/-- A disarmed allocation gives nothing back. -/
def Process.dropAllocation (p : Process) (h : HandleId) : Reply × Process :=
  match p.allocations.get h with
  | none => (.absent, p)
  | some a =>
    let rest := { p with allocations := p.allocations.remove h }
    match a.ledger with
    | none => (.done, rest)
    | some l =>
      match rest.release l a.bytes with
      | none => (.underflow, p)
      | some p => (.done, p)

/-! ## 4. Reservations and their buffers

The owner of a reservation counts its handles and releases the lease with the last of them. -/

/-- `PayloadReservation::try_acquire_buffer`. -/
def Process.tryAcquireBuffer (p : Process) (r : HandleId) : Reply × Process :=
  match p.reservations.get r with
  | none => (.absent, p)
  | some o =>
    match p.ledgers.get o.ledger with
    | none => (.absent, p)
    | some s =>
      match Db.tryAcquireBuffer s o.lease with
      | .error reason => (.paused reason, p)
      | .ok s => (.done, { p with
          ledgers := p.ledgers.insert o.ledger s
          buffers := p.buffers.insert p.next ⟨o, o.bytes⟩
          next := p.next + 1 })

/-- The charge first, then the share in the owner. If it was the last share, the lease goes too. -/
def Process.dropBuffer (p : Process) (h : HandleId) : Reply × Process :=
  match p.buffers.get h with
  | none => (.absent, p)
  | some b =>
    match { p with buffers := p.buffers.remove h }.release b.owner.ledger b.bytes with
    | none => (.underflow, p)
    | some p => (.done, p.dropOwner b.owner)

def Process.dropReservation (p : Process) (r : HandleId) : Reply × Process :=
  match p.reservations.get r with
  | none => (.absent, p)
  | some o => (.done, { p with reservations := p.reservations.remove r }.dropOwner o)

section Tables

variable [Primitives]

/-- `reserve_payload_tx`, over the tables of the transaction it runs in. -/
def Process.reservePayload (p : Process) (d : HandleId) (db : Database) (v : VerifiedEvent) :
    Reply × Process :=
  match p.databases.get d with
  | none => (.absent, p)
  | some o =>
    match p.ledgers.get o.ledger with
    | none => (.absent, p)
    | some s =>
      match reservePayloadTx db v s with
      | .error e => (.failed e, p)
      | .ok (.disabled, _) | .ok (.unneeded, _) => (.done, p)
      | .ok (.deferred reason, _) => (.paused reason, p)
      | .ok (.reserved lease, s) => (.done, { p with
          ledgers := p.ledgers.insert o.ledger s
          reservations := p.reservations.insert p.next ⟨o.ledger, lease.event, lease.bytes, lease.id⟩
          next := p.next + 1 })

/-- `release_completed_admission_tx` after the commit: no lease for an event that is not `Missing`. -/
def AdmissionState.complete (s : AdmissionState) (id : ShortEventId) : AdmissionState :=
  if s.config.isNone then s
  else { s with events := s.events.retain fun e => e.toShort ≠ id }

def Process.completeAdmission (p : Process) (d : HandleId) (id : ShortEventId) : Reply × Process :=
  match p.databases.get d with
  | none => (.absent, p)
  | some o =>
    match p.ledgers.get o.ledger with
    | none => (.absent, p)
    | some s => (.done, { p with ledgers := p.ledgers.insert o.ledger (s.complete id) })

end Tables

/-! ## 5. Accounts and databases

Several databases may be opened and closed over one account, one after the other. -/

/-- `PayloadAccount::configured`: a ledger that is disabled or has its budgets for good. -/
def Process.openAccount (p : Process) (id : RostraId) (config : Option PayloadAdmissionConfig) :
    Reply × Process :=
  (.done, { p with
    ledgers := p.ledgers.insert p.next { config := config }
    accounts := p.accounts.insert p.next ⟨id, p.next, none⟩
    next := p.next + 1 })

/-- A database opens with a disabled ledger of its own. It shares one with others only after it was attached to an
account. -/
def Process.openDatabase (p : Process) (selfId : RostraId) : Reply × Process :=
  (.done, { p with
    ledgers := p.ledgers.insert p.next {}
    databases := p.databases.insert p.next ⟨selfId, p.next, false⟩
    next := p.next + 1 })

/-- The account is free again; its ledger and everything charged to it stay. -/
def Process.dropDatabase (p : Process) (d : HandleId) : Reply × Process :=
  match p.databases.get d with
  | none => (.absent, p)
  | some _ => (.done, { p with databases := p.databases.remove d })

/-- `attach_payload_account`: the database gets the ledger of the account in place of its own. -/
def Process.attach (p : Process) (d h : HandleId) : Reply × Process :=
  match p.databases.get d, p.accounts.get h with
  | some o, some account =>
    if o.selfId ≠ account.id then (.refused .identityMismatch, p)
    else if o.attached then (.refused .databaseAlreadyAttached, p)
    else match p.ledgers.get o.ledger, p.ledgers.get account.ledger with
      | some own, some s =>
        if own.config.isSome then (.refused .databaseConfigured, p)
        else if own.events.keys.Nonempty ∨ own.buffers ≠ 0 then (.refused .databaseBusy, p)
        else if (account.attachedTo.bind p.databases.get).isSome then
          (.refused .accountAlreadyAttached, p)
        else (.done, { p with
          -- leases belong to the previous attachment, buffers to their owners
          ledgers := p.ledgers.insert account.ledger { s with events := ∅ }
          accounts := p.accounts.insert h { account with attachedTo := some d }
          databases := p.databases.insert d { o with ledger := account.ledger, attached := true } })
      | _, _ => (.absent, p)
  | _, _ => (.absent, p)

/-! ## 6. Calls

All calls, as one step function. -/

variable [Primitives]

/-- One call. -/
inductive LeaseOp
  | openAccount (id : RostraId) (config : Option PayloadAdmissionConfig)
  | openDatabase (selfId : RostraId)
  | dropDatabase (d : HandleId)
  | attach (d h : HandleId)
  | reserveAllocation (l : LedgerId) (bytes : ℕ)
  | tryGrow (h : HandleId) (bytes : ℕ)
  | bind (h r : HandleId)
  | dropAllocation (h : HandleId)
  /-- `reserve_payload_tx` in a transaction that sees the tables `db`. -/
  | reserve (d : HandleId) (db : Database) (v : VerifiedEvent)
  | complete (d : HandleId) (id : ShortEventId)
  | tryAcquireBuffer (r : HandleId)
  | dropBuffer (h : HandleId)
  | dropReservation (r : HandleId)

def leaseStep (p : Process) : LeaseOp → Reply × Process
  | .openAccount id config => p.openAccount id config
  | .openDatabase selfId => p.openDatabase selfId
  | .dropDatabase d => p.dropDatabase d
  | .attach d h => p.attach d h
  | .reserveAllocation l bytes => p.reserveAllocation l bytes
  | .tryGrow h bytes => p.tryGrow h bytes
  | .bind h r => p.bindToReservation h r
  | .dropAllocation h => p.dropAllocation h
  | .reserve d db v => p.reservePayload d db v
  | .complete d id => p.completeAdmission d id
  | .tryAcquireBuffer r => p.tryAcquireBuffer r
  | .dropBuffer h => p.dropBuffer h
  | .dropReservation r => p.dropReservation r

/-- Any calls in any order, refused ones included. -/
def leaseRun (p : Process) (ops : List LeaseOp) : Process := ops.foldl (fun p o => (leaseStep p o).2) p

end Rostra.Db
