/-
# Polling followees for new heads

`poll_followee_head_updates.rs`: one task keeps a long poll open to each followee, 32 at a time.  A
followee is polled for one *epoch*, the event that follows it; when the follow is replaced, the poll is
cancelled and another begins.  A poll that is cancelled or has used up its slot ends at whatever await it
is at, and what it has learned is kept in a state that the next poll of the same epoch goes on with.

* Section 1: the state of an epoch.
* Section 2: one poll, from await to await.
* Section 3: the scheduler.  Its loop has no await but the `select!`, and all polls run inside the same
  task, so an iteration of the loop is one step.

Peers answer anything: a reported head is any id, a fetched event is any that passes `verify_response`.
The snapshots of followees are those that the watch is going to show.
-/
import Rostra.Client.Clock
import Rostra.Db.Authors
import Rostra.Db.Run
import Rostra.Lib.Machine

namespace Rostra.Client

open Rostra Db

/-! ## 1. The state of an epoch

What is kept from one poll to the next. -/

def INITIAL_BACKOFF_DURATION : Duration := .fromSecs 1
def MAX_BACKOFF_DURATION : Duration := .fromSecs (10 * 60)
def MAX_ACTIVE_POLLS : ℕ := 32

/-- What is known of the peer's head: nothing, that it has to be fetched, or that it is stored here. -/
inductive RemoteProgress
  | unknown
  | pending (head : ShortEventId)
  | persisted (head : ShortEventId)
  deriving DecidableEq

/-- What an epoch has learned. It survives the polls that have learned it, and ends with the epoch. -/
structure FolloweePollState where
  consecutiveFailures : ℕ := 0
  backoffUntil : Option Instant := none
  remoteProgress : RemoteProgress := .unknown
  deriving DecidableEq

namespace FolloweePollState

/-- Doubled with each failure, up to ten minutes. The shift is bounded, and the product saturates. -/
def calculateBackoffDuration (s : FolloweePollState) : Duration :=
  if s.consecutiveFailures = 0 then 0
  else
    let shift := min (s.consecutiveFailures - 1) 63
    -- the initial backoff is one second, and the product saturates
    let backoffSecs := min (1 * 2 ^ shift) (2 ^ 64 - 1)
    min (Duration.fromSecs backoffSecs) MAX_BACKOFF_DURATION

/-- Is it too early for another attempt? -/
def isInBackoff (s : FolloweePollState) (now : Instant) : Bool :=
  (s.backoffUntil.map fun u => decide (now < u)).getD false

/-- Failures count in a row: one success ends the backoff. -/
def recordSuccess (s : FolloweePollState) : FolloweePollState :=
  { s with consecutiveFailures := 0, backoffUntil := none }

/-- One more failure, and the time until which nothing is tried. The counter saturates. -/
def recordFailure (s : FolloweePollState) (now : Instant) : FolloweePollState :=
  let s := { s with consecutiveFailures := min (s.consecutiveFailures + 1) (2 ^ 32 - 1) }
  { s with backoffUntil := some (now + s.calculateBackoffDuration) }

/-- The head that the peer is asked to go beyond: the last one it has reported, or our own for a peer that has
reported none. -/
def waitCursor (s : FolloweePollState) (localHead : ShortEventId) : ShortEventId :=
  match s.remoteProgress with
  | .unknown => localHead
  | .pending head | .persisted head => head

/-- The event that was reported and not stored yet. -/
def pendingEvent (s : FolloweePollState) : Option ShortEventId :=
  match s.remoteProgress with
  | .pending id => some id
  | .unknown | .persisted _ => none

/-- The peer has reported a head, which is now to be fetched. -/
def recordRemoteHead (s : FolloweePollState) (head : ShortEventId) : FolloweePollState :=
  { s with remoteProgress := .pending head }

/-- The event was stored. If another head was recorded in the meantime, that one stays pending. -/
def completePendingEvent (s : FolloweePollState) (id : ShortEventId) : FolloweePollState :=
  if s.remoteProgress = .pending id then { s with remoteProgress := .persisted id } else s

end FolloweePollState

/-! ## 2. A poll

The places at which a poll can be cancelled are the awaits, and each of them is a value of the program counter. -/

variable [Primitives]

/-- The event by which a followee is followed. A new follow of the same account is a new epoch. -/
abbrev FollowEpoch := ShortEventId

/-- The await that a poll is at. -/
inductive PollPc
  /-- Reading the state at the top of the loop. -/
  | backoff
  /-- Sleeping until the backoff is over. -/
  | sleeping
  | connecting
  /-- Writing the failure to connect. -/
  | unconnected
  /-- Reading the local heads. -/
  | heads
  /-- At the top of the loop over one connection. -/
  | check (localHead : ShortEventId)
  /-- Sleeping before a pending event is fetched again. -/
  | retrying (localHead id : ShortEventId)
  | fetching (localHead id : ShortEventId)
  | persisting (localHead id : ShortEventId) (event : VerifiedEvent)
  /-- Writing that the event was stored. -/
  | completing (localHead id : ShortEventId)
  /-- Reading the cursor. -/
  | cursor (localHead : ShortEventId)
  /-- `WAIT_HEAD_UPDATE` was sent with the known head. -/
  | waiting (localHead known : ShortEventId)
  /-- Sleeping after a peer has returned the same head. -/
  | unmoved (localHead : ShortEventId)
  /-- Writing the head that the peer has reported. -/
  | recording (localHead head : ShortEventId)
  /-- Writing the failure of the connection. -/
  | failed
  /-- The future is ready; `false` is a database error. -/
  | done (ok : Bool)

/-- A future in `poll_futures`. It knows its epoch from the start, whatever is desired later. -/
structure FolloweePoll where
  peer : RostraId
  epoch : FollowEpoch
  /-- The state it shares with the other polls of its epoch. -/
  state : ℕ
  /-- The other end of its `oneshot` has been used. -/
  cancelled : Bool := false
  pc : PollPc := .backoff

/-- What the scheduler knows of a poll that it has pushed: its epoch, and the sender that cancels it. -/
structure ActiveFolloweePoll where
  epoch : FollowEpoch
  /-- The future that the sender belongs to. -/
  cancel : ℕ

/-- The world: the database, the clock, the snapshots to come, and the variables of the task. Futures and states
are kept in lists that only grow, so that an index names one of them for ever. -/
structure PollWorld where
  db : Database
  now : Instant := 0
  /-- The followees that the watch is going to show. -/
  snapshots : List (Table RostraId FollowEpoch)
  desiredPeers : Table RostraId FollowEpoch := ∅
  pendingPeers : Table RostraId FollowEpoch := ∅
  activePeers : Table RostraId ActiveFolloweePoll := ∅
  /-- All futures that were ever pushed; those that have been returned are gone. -/
  pollFutures : List (Option FolloweePoll) := []
  followeeStates : Table RostraId ℕ := ∅
  /-- All states that were ever made. -/
  heap : List FolloweePollState := []
  lastScheduledPeer : Option RostraId := none
  running : Bool := true

/-- What is seen of the world. -/
inductive PollLabel
  /-- A future was pushed, with the state that it was given. -/
  | started (poll : ℕ) (peer : RostraId) (epoch : FollowEpoch) (state : ℕ)
  /-- A head was recorded in a state. -/
  | recorded (state : ℕ) (head : ShortEventId)
  deriving DecidableEq

/-- What an await returns with. What peers answer is any value of its type. -/
inductive PollInput
  /-- A lock, a sleep or a read of the database. -/
  | proceed
  | connected (ok : Bool)
  /-- The peer's head, or an error. -/
  | answered (head : Option ShortEventId)
  /-- An error, nothing, or an event. -/
  | fetched (answer : Option (Option VerifiedEvent))
  /-- The transaction runs. -/
  | persisted (now : Timestamp)

namespace PollWorld

/-- The poll comes to its next await, without having written anything. -/
def goto (w : PollWorld) (i : ℕ) (q : FolloweePoll) (pc : PollPc) : PollWorld :=
  { w with pollFutures := w.pollFutures.set i (some { q with pc := pc }) }

/-- It comes to its next await and has written its state before. No await is between the two. -/
def write (w : PollWorld) (i : ℕ) (q : FolloweePoll) (s : FolloweePollState) (pc : PollPc) :
    PollWorld :=
  { w with heap := w.heap.set q.state s }.goto i q pc

/-- One poll between two awaits. The source is one loop inside another; here each await names the local variables
that are alive at it. -/
def poll (env : Env) (w : PollWorld) (i : ℕ) (q : FolloweePoll) (s : FolloweePollState) :
    PollInput → Option (PollWorld × List PollLabel)
  | .proceed =>
    match q.pc with
    | .backoff => some (w.goto i q (if s.isInBackoff w.now then .sleeping else .connecting), [])
    | .sleeping => some (w.goto i q .backoff, [])
    | .unconnected => some (w.write i q (s.recordFailure w.now) .backoff, [])
    | .heads =>
      let localHeads := getHeadsEventsTx w.db.ev q.peer
      -- `ShortEventId::ZERO` when there is none
      some (w.goto i q (.check ((Table.least localHeads).getD 0)), [])
    | .check localHead =>
      match s.pendingEvent with
      | some id => some (w.goto i q (.retrying localHead id), [])
      | none => some (w.goto i q (.cursor localHead), [])
    | .retrying localHead id => some (w.goto i q (.fetching localHead id), [])
    | .completing localHead id =>
      some (w.write i q (s.completePendingEvent id).recordSuccess (.check localHead), [])
    | .cursor localHead => some (w.goto i q (.waiting localHead (s.waitCursor localHead)), [])
    | .unmoved localHead => some (w.goto i q (.check localHead), [])
    | .recording localHead head =>
      some (w.write i q (s.recordRemoteHead head) (.fetching localHead head),
        [.recorded q.state head])
    | .failed => some (w.write i q (s.recordFailure w.now) (.done true), [])
    | _ => none
  | .connected ok =>
    match q.pc with
    | .connecting => some (w.goto i q (if ok then .heads else .unconnected), [])
    | _ => none
  | .answered head =>
    match q.pc, head with
    | .waiting _ _, none => some (w.goto i q .failed, [])
    | .waiting localHead known, some head =>
      some (w.goto i q (if head = known then .unmoved localHead else .recording localHead head), [])
    | _, _ => none
  | .fetched answer =>
    match q.pc, answer with
    | .fetching _ _, none => some (w.goto i q .failed, [])
    | .fetching localHead _, some none => some (w.goto i q (.check localHead), [])
    | .fetching localHead id, some (some event) =>
      -- `verify_response`
      some (w.goto i q (if event.event.author = q.peer ∧ event.id = id then
        .persisting localHead id event else .failed), [])
    | _, _ => none
  | .persisted now =>
    match q.pc with
    | .persisting localHead id event =>
      match Db.step env w.db (.ingest [.envelope event now (.pushed none none)]) with
      | .ok db => some ({ w with db := db }.goto i q (.completing localHead id), [])
      | .error _ => some (w.goto i q (.done false), [])
    | _ => none

end PollWorld

/-! ## 3. The scheduler

Completions, timeouts and new snapshots come in any order. -/

namespace PollWorld

/-- The poll of a followee is retired by a snapshot in which the followee is missing, or followed by another event.
-/
def retiredBy (w : PollWorld) (newDesired : Table RostraId FollowEpoch) (peer : RostraId) : Bool :=
  (w.activePeers.get peer).any fun active => decide (newDesired.get peer ≠ some active.epoch)

/-- A new snapshot of followees. Polls of other epochs are cancelled, but their futures stay until they return; a
followee whose epoch is the same keeps its poll, its place among the pending ones and its state. -/
def reconcileFolloweeEpochs (w : PollWorld) (newDesired : Table RostraId FollowEpoch) : PollWorld :=
  let activePeers := w.activePeers.retain fun peer => !w.retiredBy newDesired peer
  { w with
    pollFutures := w.pollFutures.mapIdx fun i future => future.map fun q =>
      if w.retiredBy newDesired q.peer ∧ (w.activePeers.get q.peer).any (·.cancel = i) then
        { q with cancelled := true }
      else q
    activePeers := activePeers
    pendingPeers := (newDesired.retain fun peer => (activePeers.get peer).isNone).union
      (w.pendingPeers.retain fun peer => w.pendingPeers.get peer = newDesired.get peer)
    followeeStates := w.followeeStates.retain fun peer =>
      w.desiredPeers.get peer = newDesired.get peer
    desiredPeers := newDesired }

/-- The next pending followee after the one scheduled last, in a circle. -/
def takeNextPending (pendingPeers : Table RostraId FollowEpoch) (last : Option RostraId) :
    Option RostraId :=
  (last.bind fun last => Table.nextAfter pendingPeers.keys (some last)).or
    (Table.least pendingPeers.keys)

/-- `followee_states.entry(peer_id).or_default()`: the state of the epoch, made when it is first needed. -/
def stateOf (w : PollWorld) (peer : RostraId) : PollWorld × ℕ :=
  match w.followeeStates.get peer with
  | some state => (w, state)
  | none =>
    ({ w with
      followeeStates := w.followeeStates.insert peer w.heap.length
      heap := w.heap ++ [{}] }, w.heap.length)

/-- A poll is pushed, with the state of its epoch. -/
def start (w : PollWorld) (peer : RostraId) (epoch : FollowEpoch) : PollWorld × PollLabel :=
  let i := w.pollFutures.length
  let (w, state) := w.stateOf peer
  ({ w with
    activePeers := w.activePeers.insert peer ⟨epoch, i⟩
    pollFutures := w.pollFutures ++ [some { peer := peer, epoch := epoch, state := state }] },
    .started i peer epoch state)

/-- The loop of `schedule_pending`: every turn takes one followee off the pending ones. -/
def scheduleLoop : ℕ → PollWorld → PollWorld × List PollLabel
  | 0, w => (w, [])
  | turns + 1, w =>
    if w.activePeers.keys.card < MAX_ACTIVE_POLLS then
      match takeNextPending w.pendingPeers w.lastScheduledPeer with
      | none => (w, [])
      | some peer =>
        match w.pendingPeers.get peer with
        | none => (w, [])
        | some epoch =>
          let w := { w with
            pendingPeers := w.pendingPeers.remove peer
            lastScheduledPeer := some peer }
          if (w.activePeers.get peer).isSome then w.scheduleLoop turns
          else
            let (w, label) := w.start peer epoch
            let (w, labels) := w.scheduleLoop turns
            (w, label :: labels)
    else (w, [])

/-- As many pending followees as there are free slots. The loop takes one off the pending ones in each turn, so
that many turns are enough. -/
def schedulePending (w : PollWorld) : PollWorld × List PollLabel :=
  w.scheduleLoop w.pendingPeers.keys.card

/-- `poll_futures.next()` returns a future: the rest of the iteration. The slot is freed only if it is still that
of the same epoch, and the followee waits again only if this epoch is still desired. -/
def completed (w : PollWorld) (i : ℕ) (q : FolloweePoll) (ok : Bool) :
    PollWorld × List PollLabel :=
  let w := { w with pollFutures := w.pollFutures.set i none }
  let w := if (w.activePeers.get q.peer).any (·.epoch = q.epoch) then
      { w with activePeers := w.activePeers.remove q.peer }
    else w
  if ok then
    (if w.desiredPeers.get q.peer = some q.epoch then
      { w with pendingPeers := w.pendingPeers.insert q.peer q.epoch }
    else w).schedulePending
  else ({ w with running := false }, [])

/-- `changed()` returns: the rest of the iteration. -/
def changed (w : PollWorld) (newDesired : Table RostraId FollowEpoch) :
    PollWorld × List PollLabel :=
  (w.reconcileFolloweeEpochs newDesired).schedulePending

end PollWorld

/-- Who moves next: commits, the clock, an await of a poll, or one of the arms of the `select!`. -/
inductive PollAct
  | commit (op : Op)
  | tick (elapsed : Duration)
  /-- An await of a poll returns. -/
  | poll (i : ℕ) (input : PollInput)
  /-- A future is ready. -/
  | finished (i : ℕ)
  /-- A poll has used up its slot, or sees that it is cancelled. -/
  | cut (i : ℕ)
  | changed
  /-- The client is gone, or the watch is closed. -/
  | leave

/-- One action, as long as the task runs. An arm is one step together with the rest of its iteration, since the
loop has no other await. -/
def PollWorld.step (env : Env) (w : PollWorld) (act : PollAct) :
    Option (PollWorld × List PollLabel) :=
  if w.running then
    match act with
    | .commit op =>
      match Db.step env w.db op with
      | .ok db => some ({ w with db := db }, [])
      | .error _ => none
    | .tick elapsed => some ({ w with now := w.now + elapsed }, [])
    | .poll i input =>
      match w.pollFutures[i]? with
      | some (some q) =>
        match w.heap[q.state]? with
        | some s => w.poll env i q s input
        | none => none
      | _ => none
    | .finished i =>
      match w.pollFutures[i]? with
      | some (some q) =>
        match q.pc with
        | .done ok => some (w.completed i q ok)
        | _ => none
      | _ => none
    | .cut i =>
      match w.pollFutures[i]? with
      | some (some q) => some (w.completed i q true)
      | _ => none
    | .changed =>
      match w.snapshots with
      | [] => none
      | snapshot :: snapshots => some ({ w with snapshots := snapshots }.changed snapshot)
    | .leave => some ({ w with running := false }, [])
  else none

/-- The world after the statements before the loop. -/
def pollStart (db : Database) (first : Table RostraId FollowEpoch)
    (snapshots : List (Table RostraId FollowEpoch)) : PollWorld × List PollLabel :=
  ({ db := db, snapshots := snapshots } : PollWorld).changed first

/-- Every run of the task, with its trace. -/
def pollRan (env : Env) (db : Database) (first : Table RostraId FollowEpoch)
    (snapshots : List (Table RostraId FollowEpoch)) (acts : List PollAct) :
    PollWorld × List PollLabel :=
  let (w, began) := pollStart db first snapshots
  let (w, trace) := Machine.run (PollWorld.step env) w acts
  (w, began ++ trace)

end Rostra.Client
