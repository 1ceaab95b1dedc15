/-
# What a commit tells the tasks

Beside the four watches (`Watches`), the hooks of a transaction send on three channels that the
background tasks of a client listen to:

* `new_heads_tx`, a broadcast of every event that arrives without being awaited by a child;
* `ids_with_missing_events_tx`, the deduplicating channel of authors that are missing an event;
* `new_content_tx`, a broadcast of every payload that was processed.

`Registry` is the control flow of the transactions down to the two places that register hooks, for any
kind of hook: `signals` are all of them, in the order they are registered in.  A handle holds its
publisher lock over the commit and its hooks, so no transaction begins before the hooks of the one
before it have run.
-/
import Rostra.Db.Watches

namespace Rostra.Db

open Rostra

variable [Primitives]

/-! ## 1. Down to the hooks

The control flow is the same for all kinds of hooks, so that it is written once. -/

/-- What an envelope and what a payload register. The transactions are the same for all kinds of hooks, so they are
walked once for any registry. -/
structure Registry (H : Type) where
  event : Database → VerifiedEvent → List H
  content : Database → VerifiedEventContent → Timestamp → AdmissionState → Option PayloadBuffer →
    List H

namespace Registry

variable {H : Type}

/-- The carried envelope first, then the payload over the tables it left. -/
def carried (g : Registry H) (env : Env) (db : Database) (c : VerifiedEventContent)
    (now : Timestamp) (ledger : AdmissionState) (buffer : Option PayloadBuffer) : List H :=
  g.event db c.event ++
    match processEventTx env {} db c.event now (.pushed none none) with
    | .ok (db, _) => g.content db c now ledger buffer
    | .error _ => []

def delivery (g : Registry H) (env : Env) (db : Database) : Delivery → List H
  | .envelope v _ _ => g.event db v
  | .payload c now ledger => g.carried env db c now ledger none

def ingest (g : Registry H) (env : Env) (db : Database) : List Delivery → List H
  | [] => []
  | d :: ds =>
    g.delivery env db d ++
      match deliver env db d with
      | .ok db => g.ingest env db ds
      | .error _ => []

/-- Materialization from stored bytes, down to the payload's reducer. -/
def materializeStored (g : Registry H) (db : Database) (id : ShortEventId) (now : Timestamp)
    (ledger : AdmissionState) : List H :=
  match db.ev.events.get id with
  | none => []
  | some e =>
    if !payloadIsMissingTx db.ev id then []
    else
      let v := VerifiedEvent.ofEvent e
      match admitMaterializationTx db v none ledger with
      | .error _ => []
      | .ok (buffer, ledger) =>
        match reservePayloadAllocation ledger e.contentLen with
        | .error _ => []
        | .ok _ =>
          match (db.ev.contentStore.get e.contentHash).bind fun b =>
              VerifiedEventContent.verify v (some b) with
          | none => []
          | some c => g.content db c now ledger buffer

/-- The hooks that a transaction has registered when it commits, in the order in which they were. One that fails
runs none of them. -/
def commit (g : Registry H) (env : Env) (db : Database) : Op → List H
  | .ingest ds => g.ingest env db ds
  | .ingestAdmitted c now ledger buffer => g.carried env db c now ledger buffer
  | .materializeStored id now ledger => g.materializeStored db id now ledger
  | _ => []

end Registry

/-! ## 2. The hooks

What is sent by the two places that register. -/

/-- One hook, with what it captured. A watch is written, or a value is sent on a channel. -/
inductive Signal
  | publish (value : Publication)
  | newHead (author : RostraId) (id : ShortEventId)
  | missingEvents (author : RostraId)
  | newContent (author : RostraId) (id : ShortEventId)

/-- The hooks of `process_event_inner_tx_with_source`, for an event that was not there before. -/
def eventSignals (env : Env) (db : Database) (v : VerifiedEvent) : List Signal :=
  match insertEventTx db.ev v with
  | .ok (ev, .inserted wasMissing isDeleted _ _ missingParents) =>
    -- an event that nothing was waiting for is a head
    (if !isDeleted && !wasMissing then [.newHead v.event.author v.id] else []) ++
    (if v.event.author = env.selfId then [.publish (.head (readHeadTx env.selfId ev.eventsHeads))]
      else []) ++
    (if missingParents ≠ [] then [.missingEvents v.event.author] else [])
  | _ => []

/-- The hooks of a payload that reaches its reducer: those of the reducer, and one more if the payload
is valid. -/
def contentSignals (env : Env) (db : Database) (c : VerifiedEventContent) (now : Timestamp)
    (ledger : AdmissionState) (buffer : Option PayloadBuffer) : List Signal :=
  if (db.ev.events.get c.event.id).isNone ∨ MAX_CONTENT_LEN ≤ c.event.event.contentLen then []
  else if canInsertEventContentTx db.ev c.event.id then
    match admitMaterializationTx db c.event buffer ledger, c.content with
    | .ok _, some _ =>
      (contentInsertedHooks env db.proj c.toEventContent).map .publish ++
        match processEventContentInsertedTx env {} db.proj c.toEventContent now with
        | .ok _ => [.newContent c.event.event.author c.event.id]
        | .error _ => []
    | _, _ => []
  else []

/-- All hooks of the handle. -/
def signalRegistry (env : Env) : Registry Signal := ⟨eventSignals env, contentSignals env⟩

def signals (env : Env) : Database → Op → List Signal := (signalRegistry env).commit env

end Rostra.Db
