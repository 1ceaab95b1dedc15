/-
# What ingestion leaves in the ledger

`Ingest` lets a transaction look at the admission ledger.  Here is what `payload_admission.rs` does
TO the ledger meanwhile.  A payload that comes without a lease of its own acquires one inline, and
from then on the lease is a local value of the call: it goes when the call returns, whatever it
returns.

* Section 1 is the two destructors, as they run for a lease that nobody else shares.
* Section 2 follows a lease through `admit_materialization_tx` and through the content reducer that
  holds it (`_inline_buffer`).
* Section 3 is the three entry points: ingestion that can be deferred, materialization from stored
  bytes, and the older call that is rolled back as a whole.  After a commit the leases of events
  that are not `Missing` any more are given up.

The calls run under the writer lock.  Other owners may give capacity back meanwhile; nobody else
can take a lease.
-/
import Rostra.Db.Leases
import Rostra.Db.Run

namespace Rostra.Db

open Rostra

/-- `ReservationOwner::drop`: the lease goes, if the ledger still holds this one. -/
def AdmissionState.dropReservation (s : AdmissionState) (b : PayloadBuffer) : AdmissionState :=
  if leaseHeld s b then { s with events := s.events.remove b.event } else s

/-- `PayloadBuffer::drop`: its charge, and then the lease it kept alive. -/
def AdmissionState.dropBuffer (s : AdmissionState) (b : PayloadBuffer) : AdmissionState :=
  match s.release b.bytes with
  | some s => s.dropReservation b
  | none => s

variable [Primitives]

/-! ## 2. A payload

Each function returns its result together with the ledger that it leaves, also when it fails. -/

end Rostra.Db
