/-
# Selecting direct-message destinations

`dm_destinations_with_clock` of `dm.rs`, over the device tables that `dmApplyAnnouncementTx` keeps.

The newest epoch of a device is indexed under the blocks of its sending interval.  A clock value
lies in 65 blocks; the newest nine rows of each are read backwards, checked against the device row
they stand for, and merged into a list of at most eight.  Recipient and sender have four slots each
and lend each other what they do not use.

What writes these tables besides an announcement is here too: enrolling an installation, and
rebuilding the index from the device rows after a migration.
-/
import Mathlib.Data.List.Lex
import Rostra.Db.ContentOps
import Rostra.Dm.Envelope
import Rostra.Lib.Newest

namespace Rostra.Db

open Rostra

/-- Bytes are compared as numbers, arrays of them lexicographically. -/
instance linearOrderUInt8 : LinearOrder UInt8 where
  le_refl := UInt8.le_refl
  le_trans _ _ _ := UInt8.le_trans
  lt_iff_le_not_ge a b := by
    rw [UInt8.not_le]
    exact ⟨fun h => ⟨UInt8.le_of_lt h, h⟩, fun h => h.2⟩
  le_antisymm _ _ := UInt8.le_antisymm
  le_total := UInt8.le_total
  toDecidableLE := inferInstance

/-- Newest first is by publication time, event and device, in this order. -/
abbrev Rank := Timestamp ×ₗ ShortEventId ×ₗ Bytes

structure RankedDestination where
  rank : Rank
  publicKey : Bytes
  sendUntil : Timestamp
  sendFrom : Timestamp
  account : RostraId
  state : Dm.DeviceState
  deriving DecidableEq

structure SendPermit where
  sender : RostraId
  recipient : RostraId
  keys : List Bytes
  sendUntil : Timestamp
  sendFrom : Timestamp
  selected : List ((RostraId × Bytes) × Dm.DeviceState)
  sendingDevice : Option Bytes
  deriving DecidableEq

inductive DestinationError
  | recipientUnavailable
  /-- `DirectMessage(rostra_dm::Error::Invalid)`: the index does not match the device rows. -/
  | invalid
  /-- `.expect("recipient required")`. -/
  | panic
  deriving DecidableEq

/-- The ranks under one block, newest first.  The bounds of the range are those of its type. -/
def blockRows (index : Finset (RostraId × (ℕ × ℕ) × (Timestamp × ShortEventId × Bytes)))
    (account : RostraId) (block : ℕ × ℕ) : List Rank :=
  Newest.descending ((index.filter fun key => key.1 = account ∧ key.2.1 = block).image fun key =>
    (toLex (key.2.2.1, toLex key.2.2.2) : Rank))

section Select

variable [Primitives]

/-- One index row: skipped for the sending installation, otherwise checked and merged. -/
def considerRow (env : Env) (p : Projections) (now : ℕ) (account : RostraId)
    (sendingDevice : Option Bytes) (selected : List RankedDestination) (rank : Rank) :
    Except DestinationError (List RankedDestination) :=
  let indexedTime := (ofLex rank).1
  let indexedEvent := (ofLex (ofLex rank).2).1
  let device := (ofLex (ofLex rank).2).2
  if account = env.selfId ∧ some device = sendingDevice then .ok selected
  else
    match p.idsDmDevices.get (account, device) with
    | none => .error .invalid
    | some state =>
      match state.latest with
      | none => .error .invalid
      | some (timestamp, event, epoch) =>
        if (timestamp, event) ≠ (indexedTime, indexedEvent) ∨ !epoch.eligible now timestamp then
          .error .invalid
        else if !Primitives.publicKeyValid epoch.publicKey then .error .invalid
        else
          let entry : RankedDestination :=
            { rank := toLex (timestamp, toLex (event, device))
              publicKey := epoch.publicKey
              sendUntil := epoch.sendUntil
              sendFrom := max epoch.sendFrom (timestamp - Dm.DM_FUTURE_ANNOUNCEMENT_SKEW)
              account := account
              state := state }
          .ok (((selected ++ [entry]).mergeSort fun a b => decide (b.rank ≤ a.rank)).take
            Dm.SLOT_COUNT)

/-- The newest eight eligible destinations of an account. At most one row more than that is read from each block of
the index. -/
def candidates (env : Env) (p : Projections) (now : ℕ) (sendingDevice : Option Bytes)
    (account : RostraId) : Except DestinationError (List RankedDestination) :=
  (Dm.pointPrefixes now).foldlM (fun selected block =>
    ((blockRows p.idsDmDevicesByInterval account block).take (Dm.SLOT_COUNT + 1)).foldlM
      (considerRow env p now account sendingDevice) selected) []

/-- The other devices of the sender, unless they are the recipient's already. -/
def senderCandidates (env : Env) (p : Projections) (now : ℕ) (sendingDevice : Option Bytes)
    (recipient : RostraId) : Except DestinationError (List RankedDestination) :=
  if recipient = env.selfId then .ok [] else candidates env p now sendingDevice env.selfId

omit [Primitives] in
/-- The permit of a selection: usable as long as every destination is. -/
def permitOf (env : Env) (recipient : RostraId) (sendingDevice : Option Bytes)
    (selected : List RankedDestination) : Except DestinationError SendPermit :=
  match (selected.map (·.sendUntil)).min?, (selected.map (·.sendFrom)).max? with
  | some sendUntil, some sendFrom =>
    .ok { sender := env.selfId
          recipient := recipient
          sendUntil := sendUntil
          sendFrom := sendFrom
          sendingDevice := sendingDevice
          selected := selected.map fun entry =>
            ((entry.account, (ofLex (ofLex entry.rank).2).2), entry.state)
          keys := selected.map (·.publicKey) }
  | _, _ => .error .panic

def dmDestinations (env : Env) (p : Projections) (recipient : RostraId) (now : ℕ) :
    Except DestinationError SendPermit := do
  if p.idsDmInstallation.any (·.retired) then throw .recipientUnavailable
  let sendingDevice := p.idsDmInstallation.map (·.deviceId)
  let recipients ← candidates env p now sendingDevice recipient
  if recipients.isEmpty then throw .recipientUnavailable
  let senders ← senderCandidates env p now sendingDevice recipient
  let recipientCount := min recipients.length 4 +
    min (recipients.length - 4) (4 - senders.length)
  let senderCount := min senders.length (Dm.SLOT_COUNT - recipientCount)
  permitOf env recipient sendingDevice
    (recipients.take recipientCount ++ senders.take senderCount)

end Select

/-! ## Runs of device announcements

Whatever writes the device tables, as one step function. -/

section Run

variable [Primitives]

/-- What an accepted `DM_DEVICE` event says: decoded under the timestamp it was signed with. -/
structure Announced where
  account : RostraId
  announcement : Dm.Announcement
  timestamp : Timestamp
  accepted : ∃ bytes, Dm.Announcement.decode bytes timestamp = some announcement

omit [Primitives] in
/-- `rebuild_dm_device_index_tx`. -/
def rebuildDmDeviceIndexTx (p : Projections) : Projections :=
  { p with
    idsDmDevicesByInterval := p.idsDmDevices.keys.biUnion fun key =>
      (p.idsDmDevices.get key).elim ∅ (dmIndexRows key.1 key.2) }

inductive DeviceOp
  /-- The payload of an event is processed, for the first time or again. -/
  | announce (event : ShortEventId)
  /-- `dm_maintain_local` on a database without an installation. -/
  | install (deviceId : Bytes)
  /-- `dm_reenroll` after a retirement. -/
  | reenroll (deviceId : Bytes)
  | rebuild

/-- One transaction; `source` is the event store, which has one event under an identifier. -/
def deviceStep (env : Env) (source : ShortEventId → Announced) (p : Projections) :
    DeviceOp → Projections
  | .announce event =>
    dmApplyAnnouncementTx env p (source event).account (source event).announcement
      (source event).timestamp event
  | .install deviceId =>
    { p with idsDmInstallation := some (p.idsDmInstallation.getD ⟨deviceId, false⟩) }
  | .reenroll deviceId =>
    { p with
      idsDmInstallation := match p.idsDmInstallation with
        | some current => if current.retired then some ⟨deviceId, false⟩ else some current
        | none => some ⟨deviceId, false⟩ }
  | .rebuild => rebuildDmDeviceIndexTx p

/-- The device tables after a run from a new database: announcements, installations and rebuilds in any order. -/
def devicesReached (env : Env) (source : ShortEventId → Announced) (ops : List DeviceOp) :
    Projections := ops.foldl (deviceStep env source) {}

/-- The events whose announcement was applied. -/
def announcedBy : List DeviceOp → List ShortEventId
  | [] => []
  | .announce event :: ops => event :: announcedBy ops
  | _ :: ops => announcedBy ops

end Run

end Rostra.Db
