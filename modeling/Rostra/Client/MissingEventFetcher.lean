/-
# The missing-event fetcher

`missing_event_fetcher.rs`: the task that asks peers for events which children name and nobody has
sent.  The work itself is durable (the rows of `events_missing`); what wakes the task is not.  A commit
that misses a parent sends the author on the deduplicating channel, and the task falls back on a scan
of the table at startup, when the channel lagged, and when its retry deadline comes.

The world is the database, the hooks of the last commit that have not run yet, the channel, a clock and
the task.  Everything can move at any time, but a transaction begins only when the hooks of the one
before it have run.  `fetch_missing_events` is a call and its return here: whatever it stores is among
the commits that happen anyway, and its result is any.
-/
import Rostra.Db.Signals
import Rostra.Db.Authors
import Rostra.Util.DedupChan
import Rostra.Client.Clock

namespace Rostra.Client

open Rostra Db DedupChan

/-! ## 1. The retry policy

The delay after a failure, and the deadline it gives. -/

def RECONCILE_PAGE_SIZE : ℕ := 128
def INITIAL_RETRY_DELAY : Duration := .fromSecs 1
def MAX_RETRY_DELAY : Duration := .fromSecs (5 * 60)

inductive MissingReconcileOutcome
  | empty | workObserved
  deriving DecidableEq

inductive MissingReconcileTrigger
  | startup | lag | retryDeadline
  deriving DecidableEq

/-- The state of the retries: the delay that the next deadline is computed from, and the deadline, if there is one.
-/
structure MissingRetryPolicy where
  delay : Duration := INITIAL_RETRY_DELAY
  deadline : Option Instant := none
  deriving DecidableEq

/-- What `reconcile` does with the outcome of its pass. A pass that found nothing clears the deadline and resets
the delay; after any other, the delay is doubled and the deadline moved only if it was the deadline that had
started the pass. -/
def MissingRetryPolicy.reconcile (p : MissingRetryPolicy) (trigger : MissingReconcileTrigger)
    (now : Instant) : MissingReconcileOutcome → MissingRetryPolicy
  | .empty => { delay := INITIAL_RETRY_DELAY, deadline := none }
  | .workObserved =>
    let delay := if trigger = .retryDeadline then min (Duration.saturatingMul p.delay 2) MAX_RETRY_DELAY
      else p.delay
    { delay := delay
      deadline := if p.deadline.isNone ∨ trigger = .retryDeadline then some (now + delay)
        else p.deadline }

/-- A notification has found work. If there is no deadline, one is set, with the initial delay. -/
def MissingRetryPolicy.observeNotificationWork (p : MissingRetryPolicy) (now : Instant) :
    MissingRetryPolicy :=
  if p.deadline.isNone then
    { delay := INITIAL_RETRY_DELAY, deadline := some (now + INITIAL_RETRY_DELAY) }
  else p

/-! ## 2. The task

A pass over the authors, and the select that decides when the next one begins. -/

/-- Where the task is. -/
inductive MissingPc
  /-- In `wait_for_retry_or_notification`. -/
  | waiting
  /-- A notification was received. -/
  | notified (author : RostraId)
  /-- In `fetch_missing_events` for a notification; the flag is `had_missing_events`. -/
  | fetching (author : RostraId) (had : Bool)
  /-- At the beginning of `reconcile_missing_events`. -/
  | reconcile (trigger : MissingReconcileTrigger)
  /-- About to read a page. -/
  | page (trigger : MissingReconcileTrigger) (highWater : RostraId) (cursor : Option RostraId)
  /-- In the loop over the authors of a page. -/
  | authors (trigger : MissingReconcileTrigger) (highWater : RostraId) (todo : List RostraId)
      (last : RostraId)
  /-- In `fetch_missing_events` for an author of a page. -/
  | visiting (trigger : MissingReconcileTrigger) (highWater : RostraId) (todo : List RostraId)
      (last : RostraId)
  | stopped
  deriving DecidableEq

structure MissingWorld where
  db : Database
  /-- The authors that hooks of the last commit still have to send. -/
  hooks : List RostraId := []
  /-- The channel of the task.  The first receiver is the one it was built with, the second the clone
  that it listens to. -/
  chan : Channel RostraId := { capacity := 100, receivers := [⟨0, .idle⟩, ⟨0, .idle⟩] }
  now : Instant := 0
  retry : MissingRetryPolicy := {}
  pc : MissingPc := .reconcile .startup

/-- What is seen of the world: calls of `fetch_missing_events`, passes, and after each commit the
authors with missing events. -/
inductive MissingLabel
  | fetched (author : RostraId)
  | passBegan (authors : Finset RostraId)
  | passEnded
  | committed (authors : Finset RostraId)

inductive MissingAct [Primitives]
  | commit (op : Op)
  /-- The next hook begins its send. -/
  | hookStart
  | hookFinish
  /-- The sender is dropped. -/
  | disconnect
  | tick (elapsed : Duration)
  /-- `recv` is called, takes the mutex, or is woken. -/
  | recv
  | look
  | changed
  /-- The deadline comes first, and the future of `recv` is dropped. -/
  | deadline
  /-- The next statement of the task. -/
  | go
  /-- A `fetch_missing_events` returns; `false` is a database error. -/
  | fetchReturned (ok : Bool)

/-- The clone that the task listens to. -/
def notifications : ℕ := 1

/-- What a poll of `recv` comes back with. A lag is answered by a pass over the table, a closed channel ends the
task. -/
def MissingPc.woken : List (Shown RostraId) → MissingPc
  | [.received _ (.ok author)] => .notified author
  | [.received _ (.error .lagging)] => .reconcile .lag
  | [.received _ (.error .closed)] => .stopped
  | _ => .waiting

/-- A step of the channel while the task waits. The receiver is the clone that `recv` is called on. -/
def MissingWorld.poll (w : MissingWorld) (a : ChannelAct RostraId) :
    Option (MissingWorld × List MissingLabel) :=
  if w.pc = .waiting then
    (w.chan.step a).map fun r => ({ w with chan := r.1, pc := .woken r.2 }, [])
  else none

/-- The pass is over. -/
def MissingWorld.passEnded (w : MissingWorld) (trigger : MissingReconcileTrigger)
    (outcome : MissingReconcileOutcome) : MissingWorld :=
  { w with retry := w.retry.reconcile trigger w.now outcome, pc := .waiting }

/-- The statements of the task between its awaits. A pass reads its high-water mark first, and then a page at a
time behind the cursor; authors that arrive above the mark are left to the next pass. -/
def MissingWorld.go (w : MissingWorld) : Option (MissingWorld × List MissingLabel) :=
  match w.pc with
  | .notified author =>
    let had := decide (getMissingEventsForIdTx w.db.ev author).Nonempty
    some ({ w with pc := .fetching author had }, [.fetched author])
  | .reconcile trigger =>
    match getLastIdWithMissingEventsTx w.db.ev with
    | none =>
      some (w.passEnded trigger .empty, [.passBegan (missingAuthors w.db.ev), .passEnded])
    | some highWater =>
      some ({ w with pc := .page trigger highWater none }, [.passBegan (missingAuthors w.db.ev)])
  | .page trigger highWater cursor =>
    let authors := (getIdsWithMissingEventsTx w.db.ev cursor RECONCILE_PAGE_SIZE).takeWhile
      (· ≤ highWater)
    match authors.getLast? with
    | none => some (w.passEnded trigger .workObserved, [.passEnded])
    | some last => some ({ w with pc := .authors trigger highWater authors last }, [])
  | .authors trigger highWater (author :: todo) last =>
    some ({ w with pc := .visiting trigger highWater todo last }, [.fetched author])
  | .authors trigger highWater [] last =>
    if last = highWater then some (w.passEnded trigger .workObserved, [.passEnded])
    else some ({ w with pc := .page trigger highWater (some last) }, [])
  | _ => none

/-- A call of `fetch_missing_events` returns. A database error ends the task; that peers had nothing is no error.
-/
def MissingWorld.fetchReturned (w : MissingWorld) (ok : Bool) :
    Option (MissingWorld × List MissingLabel) :=
  match w.pc with
  | .fetching _ had =>
    if ok then
      some ({ w with
        pc := .waiting
        retry := if had then w.retry.observeNotificationWork w.now else w.retry }, [])
    else some ({ w with pc := .stopped }, [])
  | .visiting trigger highWater todo last =>
    if ok then some ({ w with pc := .authors trigger highWater todo last }, [])
    else some ({ w with pc := .stopped }, [])
  | _ => none

variable [Primitives]

/-- The authors that the hooks of a commit send. -/
def missingHooks (hooks : List Signal) : List RostraId :=
  hooks.filterMap fun
    | .missingEvents author => some author
    | _ => none

/-- One action. A transaction begins only when the hooks of the last one have sent, and each hook sends one author.
-/
def MissingWorld.step (env : Env) (w : MissingWorld) :
    MissingAct → Option (MissingWorld × List MissingLabel)
  | .commit op =>
    if w.hooks = [] ∧ w.chan.sending = none then
      match Db.step env w.db op with
      | .ok db => some ({ w with db := db, hooks := missingHooks (signals env w.db op) },
          [.committed (missingAuthors db.ev)])
      | .error _ => none
    else none
  | .hookStart =>
    match w.hooks with
    | [] => none
    | author :: hooks =>
      (w.chan.step (.sendStart author)).map fun r => ({ w with hooks := hooks, chan := r.1 }, [])
  | .hookFinish => (w.chan.step .sendFinish).map fun r => ({ w with chan := r.1 }, [])
  | .disconnect => (w.chan.step .disconnect).map fun r => ({ w with chan := r.1 }, [])
  | .tick elapsed => some ({ w with now := w.now + elapsed }, [])
  | .recv => w.poll (.recv notifications)
  | .look => w.poll (.look notifications)
  | .changed => w.poll (.changed notifications)
  | .deadline =>
    match w.pc, w.retry.deadline, w.chan.receivers[notifications]? with
    | .waiting, some deadline, some rcv =>
      if deadline ≤ w.now ∧ (rcv.phase = .idle ∨ rcv.phase = .waiting) then
        some ({ w with
          chan := w.chan.move notifications { rcv with phase := .idle }
          pc := .reconcile .retryDeadline }, [])
      else none
    | _, _, _ => none
  | .go => w.go
  | .fetchReturned ok => w.fetchReturned ok

/-- Every interleaving from a database at startup, with its trace. -/
def missingRan (env : Env) (db : Database) (acts : List MissingAct) :
    MissingWorld × List MissingLabel :=
  Machine.run (MissingWorld.step env) { db := db } acts

end Rostra.Client
