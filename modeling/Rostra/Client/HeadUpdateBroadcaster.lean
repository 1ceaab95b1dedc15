/-
# The head-update broadcaster

`head_update_broadcaster.rs`: the task that feeds the heads of its own account to the account's other
nodes and to its followers.  It keeps a set of pending heads, which it replaces by the heads in the
tables whenever a signal about heads or followers comes in or is lost.  In each turn of its loop it
serves at most one message of each channel, then looks for the first pending head that is due and whose
content is here, and feeds it to everybody; when it finds none it waits.

The world is the open database, the receivers of the task, its clock, its two collections and the place
in its loop.  Every read of the database is a step of its own, so that commits and hooks can come between
the reads of the event, of its content and of the state of its content.
-/
import Rostra.Client.Clock
import Rostra.Client.Publisher
import Rostra.Db.Authors
import Rostra.Lib.Machine

namespace Rostra.Client

open Rostra Db

/-! ## 1. Delays

The retry delay is doubled in machine integers. -/

def BROADCAST_RETRY_INITIAL_DELAY : Duration := .fromSecs 1
def BROADCAST_RETRY_MAX_DELAY : Duration := .fromSecs 60

/-- The two delays, a parameter because the tests of the task use their own. -/
structure BroadcastPolicy where
  retryInitialDelay : Duration
  retryMaxDelay : Duration

def BROADCAST_POLICY : BroadcastPolicy := ⟨BROADCAST_RETRY_INITIAL_DELAY, BROADCAST_RETRY_MAX_DELAY⟩

/-- What is remembered of a head that did not get through: how often it failed, and when it is due again. -/
structure BroadcastRetry where
  retryCount : ℕ
  dueAt : Instant

/-- `1u32 << retry_count.min(31)`. The bound is what keeps the shift from overflowing. -/
def retryFactor (retryCount : ℕ) : ℕ := 1 <<< min retryCount 31

/-- The delay after a failure: doubled each time, and never above the maximum. A product that overflows counts as
the greatest duration. -/
def broadcastRetryDelay (retryCount : ℕ) (policy : BroadcastPolicy) : Duration :=
  min ((policy.retryInitialDelay.checkedMul (retryFactor retryCount)).getD Duration.max)
    policy.retryMaxDelay

/-- `saturating_add(1)` of a `u32`. -/
def succSaturating (n : ℕ) : ℕ := min (n + 1) (2 ^ 32 - 1)

/-! ## 2. Content

What the task finds out about the content of a head. -/

/-- `get_event_content`; content that was not processed is found when another event has brought it. -/
def getEventContent (t : EventTables) (id : ShortEventId) : Option Bytes :=
  match t.events.get id with
  | none => none
  | some e =>
    match t.eventsContentState.get id with
    | some (.deleted _) | some .pruned | some .invalid => none
    | some (.missing ..) | none => t.contentStore.get e.contentHash

/-- Content in one of these states will never come, so there is nothing to wait for. -/
def contentIsTerminal : Option EventContentState → Bool
  | some (.deleted _) | some .pruned | some .invalid => true
  | some (.missing ..) | none => false

/-- Is it worth looking at the pending heads again? Only for the content of one of them. -/
def contentCompletesPending (content : RostraId × ShortEventId) (selfId : RostraId)
    (pendingHeads : Finset ShortEventId) : Bool :=
  content.1 = selfId ∧ content.2 ∈ pendingHeads

/-! ## 3. The task

The loop from await to await. -/

/-- How one call of `broadcast_event` ends. -/
inductive FeedOutcome
  | accepted
  /-- `RETURN_CODE_ALREADY_HAVE`. -/
  | alreadyHave
  /-- No connection, or another return code. -/
  | failed
  | timedOut
  deriving DecidableEq

/-- The recipient has the event now, from us or from somebody else. -/
def FeedOutcome.acknowledges : FeedOutcome → Bool
  | .accepted | .alreadyHave => true
  | .failed | .timedOut => false

/-- `broadcast_head`, underway: one head on its way to the node itself and to the followers of the snapshot. Its
errors are counted, and decide at the end whether there is a retry. -/
structure BroadcastPass where
  followers : Finset RostraId
  head : ShortEventId
  event : Event
  content : Bytes
  /-- We are first, in case we have redundant nodes. -/
  selfDone : Bool := false
  /-- The followers it has still to go to, in any order. -/
  todo : Finset RostraId
  errors : ℕ := 0
  timeouts : ℕ := 0
  deriving DecidableEq

/-- Where the task is. -/
inductive BroadcastPc
  /-- In `reconcile_pending_heads`, at the end of `service_pending_notifications` or before the loop. -/
  | reconciling (serviced : Bool)
  /-- In `service_pending_notifications`, before each of the three receivers. -/
  | serviceHeads
  | serviceContent (shouldReconcile : Bool)
  | serviceFollowers (shouldReconcile : Bool)
  /-- About to take the snapshot of the followers. -/
  | snapshot
  /-- In `take_one_ready_head`, with the heads it has not looked at. -/
  | scanning (followers : Finset RostraId) (todo : Finset ShortEventId)
  | readEvent (followers : Finset RostraId) (todo : Finset ShortEventId) (head : ShortEventId)
  | readContent (followers : Finset RostraId) (todo : Finset ShortEventId) (head : ShortEventId)
      (event : Event)
  | readState (followers : Finset RostraId) (todo : Finset ShortEventId) (head : ShortEventId)
  | broadcasting (pass : BroadcastPass)
  /-- About to compute `next_retry`. -/
  | arming
  /-- At the `select!`. -/
  | waiting (nextRetry : Instant)
  | stopped
  deriving DecidableEq

/-- The world: the database with its hooks, the receivers of the task, its clock, its two collections, and the
place in its loop. -/
structure BroadcastWorld where
  publisher : Publisher
  newHeads : Broadcast.Receiver (RostraId × ShortEventId) := {}
  newContent : Broadcast.Receiver (RostraId × ShortEventId) := {}
  /-- The watch holds nothing that `changed` has not returned. -/
  followersSeen : Bool := true
  now : Instant := 0
  pendingHeads : Finset ShortEventId := ∅
  retryAt : Table ShortEventId BroadcastRetry := ∅
  pc : BroadcastPc := .reconciling false

/-- What is seen of the world. -/
inductive BroadcastLabel
  /-- Heads of the account that a commit adds. -/
  | headsAdded (heads : Finset ShortEventId)
  /-- `changed` of the followers returned. -/
  | followersChanged
  | snapshot (followers : Finset RostraId)
  | fed (head : ShortEventId) (event : Event) (content : Bytes) (peer : RostraId)
      (outcome : FeedOutcome)

inductive BroadcastAct [Primitives]
  | commit (op : Op)
  /-- The next hook runs. -/
  | hook
  | tick (elapsed : Duration)
  /-- One of the arms is chosen. -/
  | recvHead
  | recvContent
  | followersChanged
  | timer
  /-- The next recipient of a head is dealt with. -/
  | feed (peer : RostraId) (outcome : FeedOutcome)
  /-- A channel is closed or the client is gone. -/
  | leave
  /-- The next statement of the loop. -/
  | go

namespace BroadcastWorld

/-- `reconcile_pending_heads`. The pending heads become those of the tables, and retries of heads that are no
longer among them are forgotten. -/
def reconcilePendingHeads (selfId : RostraId) (w : BroadcastWorld) : BroadcastWorld :=
  let heads := getHeadsEventsTx w.publisher.db.ev selfId
  { w with pendingHeads := heads, retryAt := w.retryAt.retain (· ∈ heads) }

/-- When the first retry of a pending head is due; a day from now, if there is none. -/
def nextRetry (w : BroadcastWorld) : Instant :=
  let due := (w.retryAt.keys.filter (· ∈ w.pendingHeads)).biUnion fun head =>
    ((w.retryAt.get head).map (·.dueAt)).toFinset
  (Table.least due).getD (w.now + Duration.fromSecs (24 * 60 * 60))

/-- What is done with the report of a pass. A single failure keeps the head pending, with a later retry; otherwise
the head is done with. -/
def conclude (policy : BroadcastPolicy) (w : BroadcastWorld) (pass : BroadcastPass) :
    BroadcastWorld :=
  if pass.errors ≠ 0 ∨ pass.timeouts ≠ 0 then
    let retryCount := ((w.retryAt.get pass.head).map (·.retryCount)).getD 0
    { w with
      retryAt := w.retryAt.insert pass.head
        ⟨succSaturating retryCount, w.now + broadcastRetryDelay retryCount policy⟩
      pc := .serviceHeads }
  else
    { w with
      pendingHeads := w.pendingHeads.erase pass.head
      retryAt := w.retryAt.remove pass.head
      pc := .serviceHeads }

/-- The statements of the loop. The three reads about one head (its event, its content, the state of its content)
are steps of their own, and so is each of the three receivers. -/
def go (selfId : RostraId) (policy : BroadcastPolicy) (w : BroadcastWorld) :
    Option (BroadcastWorld × List BroadcastLabel) :=
  match w.pc with
  | .reconciling serviced =>
    some ({ w.reconcilePendingHeads selfId with
      pc := if serviced then .snapshot else .serviceHeads }, [])
  | .serviceHeads =>
    match w.newHeads.recv with
    | none => some ({ w with pc := .serviceContent false }, [])
    | some (.ok (author, _), r) =>
      some ({ w with newHeads := r, pc := .serviceContent (author = selfId) }, [])
    | some (.error _, r) => some ({ w with newHeads := r, pc := .serviceContent true }, [])
  | .serviceContent shouldReconcile =>
    match w.newContent.recv with
    | none => some ({ w with pc := .serviceFollowers shouldReconcile }, [])
    | some (.ok _, r) => some ({ w with newContent := r, pc := .serviceFollowers shouldReconcile }, [])
    | some (.error _, r) => some ({ w with newContent := r, pc := .serviceFollowers true }, [])
  | .serviceFollowers shouldReconcile =>
    if w.followersSeen then
      some ({ w with pc := if shouldReconcile then .reconciling true else .snapshot }, [])
    else some ({ w with followersSeen := true, pc := .reconciling true }, [.followersChanged])
  | .snapshot =>
    let followers := w.publisher.watches.selfFollowers
    some ({ w with pc := .scanning followers w.pendingHeads }, [.snapshot followers])
  | .scanning followers todo =>
    match Table.least todo with
    | none => some ({ w with pc := .arming }, [])
    | some head =>
      if (w.retryAt.get head).any fun retry => w.now < retry.dueAt then
        some ({ w with pc := .scanning followers (todo.erase head) }, [])
      else some ({ w with pc := .readEvent followers (todo.erase head) head }, [])
  | .readEvent followers todo head =>
    match w.publisher.db.ev.events.get head with
    | none =>
      some ({ w with pendingHeads := w.pendingHeads.erase head, pc := .scanning followers todo }, [])
    | some event => some ({ w with pc := .readContent followers todo head event }, [])
  | .readContent followers todo head event =>
    match getEventContent w.publisher.db.ev head with
    | some content =>
      some ({ w with pc := .broadcasting ⟨followers, head, event, content, false, followers, 0, 0⟩ }, [])
    | none =>
      if event.contentLen = 0 then
        some ({ w with pc := .broadcasting ⟨followers, head, event, [], false, followers, 0, 0⟩ }, [])
      else some ({ w with pc := .readState followers todo head }, [])
  | .readState followers todo head =>
    if contentIsTerminal (w.publisher.db.ev.eventsContentState.get head) then
      some ({ w with pendingHeads := w.pendingHeads.erase head, pc := .scanning followers todo }, [])
    else some ({ w with pc := .scanning followers todo }, [])
  | .broadcasting pass =>
    if pass.selfDone = true ∧ pass.todo = ∅ then some (w.conclude policy pass, []) else none
  | .arming => some ({ w with pc := .waiting w.nextRetry }, [])
  | .waiting _ | .stopped => none

/-- One recipient of a pass: ourselves first, and then the followers in any order. -/
def feed (selfId : RostraId) (w : BroadcastWorld) (pass : BroadcastPass) (peer : RostraId)
    (outcome : FeedOutcome) : Option (BroadcastWorld × List BroadcastLabel) :=
  let counted : BroadcastPass :=
    { pass with
      errors := if outcome = .failed then pass.errors + 1 else pass.errors
      timeouts := if outcome = .timedOut then pass.timeouts + 1 else pass.timeouts }
  let shown := [.fed pass.head pass.event pass.content peer outcome]
  if pass.selfDone then
    if peer ∈ pass.todo then
      some ({ w with pc := .broadcasting { counted with todo := pass.todo.erase peer } }, shown)
    else none
  else if peer = selfId then
    some ({ w with pc := .broadcasting { counted with selfDone := true } }, shown)
  else none

/-- What a hook does to the receivers of the task. A change of the followers is noted, not queued. -/
def hear (w : BroadcastWorld) : Signal → Publisher → BroadcastWorld
  | .newHead author id, p =>
    { w with publisher := p, newHeads := w.newHeads.send BROADCAST_PLACES (author, id) }
  | .newContent author id, p =>
    { w with publisher := p, newContent := w.newContent.send BROADCAST_PLACES (author, id) }
  | .publish (.followers _), p => { w with publisher := p, followersSeen := false }
  | _, p => { w with publisher := p }

variable [Primitives]

/-- One action. The four arms of the `select!` are enabled while the loop waits there, the timer once its time has
come. -/
def step (env : Env) (policy : BroadcastPolicy) (w : BroadcastWorld) :
    BroadcastAct → Option (BroadcastWorld × List BroadcastLabel)
  | .commit op => (w.publisher.commit env op).map fun p =>
    ({ w with publisher := p }, [.headsAdded (getHeadsEventsTx p.db.ev env.selfId \
      getHeadsEventsTx w.publisher.db.ev env.selfId)])
  | .hook => w.publisher.publish.map fun r => (w.hear r.1 r.2, [])
  | .tick elapsed => some ({ w with now := w.now + elapsed }, [])
  | .recvHead =>
    match w.pc with
    | .waiting _ => w.newHeads.recv.map fun
      | (.ok (author, _), r) =>
        ({ w with newHeads := r, pc := if author = env.selfId then .reconciling false else .arming }, [])
      | (.error _, r) => ({ w with newHeads := r, pc := .reconciling false }, [])
    | _ => none
  | .recvContent =>
    match w.pc with
    | .waiting _ => w.newContent.recv.map fun
      | (.ok content, r) =>
        ({ w with
          newContent := r
          pc := if contentCompletesPending content env.selfId w.pendingHeads then .serviceHeads
            else .arming }, [])
      | (.error _, r) => ({ w with newContent := r, pc := .reconciling false }, [])
    | _ => none
  | .followersChanged =>
    match w.pc with
    | .waiting _ =>
      if w.followersSeen then none
      else some ({ w with followersSeen := true, pc := .reconciling false }, [.followersChanged])
    | _ => none
  | .timer =>
    match w.pc with
    | .waiting nextRetry => if nextRetry ≤ w.now then some ({ w with pc := .serviceHeads }, []) else none
    | _ => none
  | .feed peer outcome =>
    match w.pc with
    | .broadcasting pass => w.feed env.selfId pass peer outcome
    | _ => none
  | .leave =>
    match w.pc with
    | .serviceFollowers _ | .broadcasting _ | .waiting _ => some ({ w with pc := .stopped }, [])
    | _ => none
  | .go => w.go env.selfId policy

end BroadcastWorld

variable [Primitives]

/-- Every interleaving from the moment the task subscribes, with its trace. -/
def broadcastRan (env : Env) (policy : BroadcastPolicy) (db : Database) (acts : List BroadcastAct) :
    BroadcastWorld × List BroadcastLabel :=
  Machine.run (BroadcastWorld.step env policy) { publisher := .open env db } acts

end Rostra.Client
