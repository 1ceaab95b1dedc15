/-
# The new-head fetcher

`new_head_fetcher.rs`: the task that fetches the events behind new heads of the accounts it trusts.  A
broadcast tells it of each new head and a watch of each change of the web of trust.  It coalesces authors
in a bounded queue, from which eight workers take.  Whatever a signal cannot do, because it was lost or
because the queue is full, is left to a scan of `events_heads`, which is interrupted when the queue is
full and goes on where it stopped when a worker has finished.

The world is the open database, the two receivers, the queue with its workers, and the main loop.  All
of them move at any time: a page of the scan, the snapshot of the web of trust it is compared with, and
each author of the page are different steps.  A worker gives its lease back on every way out, so what it
does in between is of no concern here.
-/
import Rostra.Client.Publisher
import Rostra.Db.Authors
import Rostra.Lib.Machine

namespace Rostra.Client

open Rostra Db

/-! ## 1. The queue

Authors wait, are leased to a worker, or are leased and wait again. -/

def NUM_WORKERS : ℕ := 8
def MAX_PENDING_AUTHORS : ℕ := 128

/-- What is behind the mutex of the queue, and the permit next to it. An author may be in both sets: a head that
comes while a worker has its author makes it pending again. -/
structure WorkQueue where
  pending : Finset RostraId := ∅
  inProgress : Finset RostraId := ∅
  /-- The permit of `space_available`. -/
  spaceAvailable : Bool := false

/-- The flag says whether the author is pending now. For an author that is pending already, a full queue is no
reason to refuse. -/
def WorkQueue.tryEnqueue (q : WorkQueue) (id : RostraId) : WorkQueue × Bool :=
  if id ∈ q.pending then (q, true)
  else if MAX_PENDING_AUTHORS ≤ q.pending.card then (q, false)
  else ({ q with pending := insert id q.pending }, true)

/-- The first pending author that no worker has. Its lease begins as it leaves the pending set, in one critical
section. -/
def WorkQueue.takeWork (q : WorkQueue) : Option (RostraId × WorkQueue) :=
  (Table.least (q.pending \ q.inProgress)).map fun id =>
    (id, { q with pending := q.pending.erase id, inProgress := insert id q.inProgress })

/-- A lease is dropped. The permit is set on every drop, whether the queue was full or not; one that was set before
is not counted twice. -/
def WorkQueue.completeWork (q : WorkQueue) (id : RostraId) : WorkQueue :=
  { q with inProgress := q.inProgress.erase id, spaceAvailable := true }

/-- The authors of the current web of trust that the previous one does not contain. The node itself is contained in
each. -/
def newlyAdmittedAuthors (previous current : WotData) (selfId : RostraId) : Finset RostraId :=
  current.iterAll.filter fun author => previous.contains author selfId = false

/-! ## 2. The main loop

The signals it waits for, and the scan that makes up for those that were lost. -/

/-- Which call of `advance_current_heads_reconciliation` is running. -/
inductive Scan
  /-- One that begins the table anew. -/
  | anew
  /-- The one of the `space_available` arm, which goes on where the last one stopped. -/
  | resumed
  deriving DecidableEq

/-- Where the main loop is. -/
inductive HeadPc
  /-- At the beginning of `run`. -/
  | start
  /-- At the `select!`. -/
  | waiting
  /-- A head was received; its author has still to be looked up. -/
  | received (author : RostraId)
  /-- About to enqueue the author of a head. -/
  | trusted (author : RostraId)
  /-- `changed` returned. -/
  | wotChanged
  /-- In the loop over newly admitted authors. -/
  | admitting (current : WotData) (todo : Finset RostraId)
  /-- One of them has heads and is about to be enqueued. -/
  | admitted (current : WotData) (todo : Finset RostraId) (author : RostraId)
  /-- About to read a page. -/
  | page (scan : Scan)
  /-- A page was read. -/
  | read (scan : Scan) (authors : List RostraId)
  /-- In `enqueue_reconciled_authors`. -/
  | enqueuing (scan : Scan) (authors : List RostraId) (reachedEnd : Bool) (wot : WotData)
  | stopped
  deriving DecidableEq

/-- The world: the database with its hooks, the two receivers of the task, the queue with its workers, and the
variables of the main loop. -/
structure HeadWorld where
  publisher : Publisher
  newHeads : Broadcast.Receiver (RostraId × ShortEventId) := {}
  /-- The watch holds nothing that `changed` has not returned. -/
  wotSeen : Bool := true
  queue : WorkQueue := {}
  /-- The lease of each worker. -/
  workers : List (Option RostraId) := List.replicate NUM_WORKERS none
  reconcileCursor : Option RostraId := none
  previousWot : WotData := ⟨∅, ∅⟩
  reconciliationPending : Bool := false
  reconcileAgain : Bool := false
  pc : HeadPc := .start

/-- What is seen of the world. -/
inductive HeadLabel
  /-- Authors that have a new head or have become trusted, in the tables or in the watch. -/
  | fresh (authors : Finset RostraId)
  /-- `try_enqueue` returned `true`. -/
  | enqueued (author : RostraId)
  | took (worker : ℕ) (author : RostraId)
  | released (worker : ℕ) (author : RostraId)

/-- Who moves next. Whatever the runtime decides is an action: which arm of the `select!`, which worker, when a
commit or a hook comes in between. -/
inductive HeadAct [Primitives]
  | commit (op : Op)
  /-- The next hook runs. -/
  | hook
  /-- A worker calls `take_work`, or drops its lease. -/
  | take (worker : ℕ)
  | release (worker : ℕ)
  /-- One of the arms is chosen. -/
  | recvHead
  | wotChanged
  | spaceAvailable
  /-- A channel is closed or a worker has ended: the loop is left. -/
  | leave
  /-- The heads of a newly admitted author are read; the order of these is any. -/
  | examine (author : RostraId)
  /-- The next statement of the loop. -/
  | go

namespace HeadWorld

/-- What `snapshot` returns. -/
def wot (w : HeadWorld) : WotData := w.publisher.watches.selfWot

/-- All heads are to be reconciled: begin a scan, or remember to do so after the one that is stuck. -/
def reconcile (w : HeadWorld) : HeadWorld :=
  if w.reconciliationPending then { w with reconcileAgain := true, pc := .waiting }
  else { w with reconcileCursor := none, pc := .page .anew }

/-- What is done with the outcome `Complete`. -/
def complete (w : HeadWorld) : Scan → HeadWorld
  | .anew => { w with reconcileCursor := none, reconciliationPending := false, pc := .waiting }
  | .resumed =>
    if w.reconcileAgain then
      { w with
        reconcileCursor := none
        reconciliationPending := false
        reconcileAgain := false
        pc := .page .anew }
    else { w with reconcileCursor := none, reconciliationPending := false, pc := .waiting }

/-- `try_enqueue`, and how the loop goes on. Only a successful call is shown, whether the author was pending before
or not. -/
def enqueue (w : HeadWorld) (author : RostraId) (onSuccess onFailure : HeadWorld → HeadWorld) :
    HeadWorld × List HeadLabel :=
  match w.queue.tryEnqueue author with
  | (queue, true) => (onSuccess { w with queue := queue }, [.enqueued author])
  | (queue, false) => (onFailure { w with queue := queue }, [])

/-- The author of a head did not fit. The head itself is forgotten; a scan is noted in its place, from the
beginning of the table. -/
def headRefused (w : HeadWorld) : HeadWorld :=
  if w.reconciliationPending then { w with reconcileAgain := true, pc := .waiting }
  else { w with reconcileCursor := none, reconciliationPending := true, pc := .waiting }

/-- The end of the `changed` arm: the web of trust that was compared becomes the previous one, and everything is
reconciled. -/
def wotSettled (w : HeadWorld) (current : WotData) : HeadWorld :=
  { w with previousWot := current }.reconcile

/-- The statements of the main loop, one await or read of shared data at a time. A page, the snapshot that it is
compared with, and each of its authors are separate, so that a commit can come between them. -/
def go (selfId : RostraId) (w : HeadWorld) : Option (HeadWorld × List HeadLabel) :=
  match w.pc with
  | .start =>
    some ({ w with
      reconcileCursor := none
      previousWot := w.wot
      reconciliationPending := false
      reconcileAgain := false
      pc := .page .anew }, [])
  | .received author =>
    if w.wot.contains author selfId then some ({ w with pc := .trusted author }, [])
    else some ({ w with pc := .waiting }, [])
  | .trusted author =>
    some (w.enqueue author (fun w => { w with pc := .waiting }) headRefused)
  | .wotChanged =>
    let current := w.wot
    some ({ w with pc := .admitting current (newlyAdmittedAuthors w.previousWot current selfId) }, [])
  | .admitting current todo => if todo = ∅ then some (w.wotSettled current, []) else none
  | .admitted current todo author =>
    some (w.enqueue author (fun w => { w with pc := .admitting current todo })
      fun w => w.wotSettled current)
  | .page scan =>
    let authors := getIdsWithHeadsTx w.publisher.db.ev w.reconcileCursor MAX_PENDING_AUTHORS
    some ({ w with pc := .read scan authors }, [])
  | .read scan authors =>
    some ({ w with pc := .enqueuing scan authors (authors.length < MAX_PENDING_AUTHORS) w.wot }, [])
  | .enqueuing scan [] reachedEnd _ =>
    if reachedEnd then some (w.complete scan, []) else some ({ w with pc := .page scan }, [])
  | .enqueuing scan (author :: authors) reachedEnd wot =>
    let advanced (w : HeadWorld) : HeadWorld :=
      { w with reconcileCursor := some author, pc := .enqueuing scan authors reachedEnd wot }
    if wot.contains author selfId then
      some (w.enqueue author advanced
        fun w => { w with reconciliationPending := true, pc := .waiting })
    else some (advanced w, [])
  | .waiting | .stopped => none

/-- What a hook does to the receivers of the task, and who is trusted by it. Hooks about other things pass by. -/
def hear (selfId : RostraId) (w : HeadWorld) : Signal → Publisher → HeadWorld × List HeadLabel
  | .newHead author id, p =>
    ({ w with publisher := p, newHeads := w.newHeads.send BROADCAST_PLACES (author, id) }, [])
  | .publish (.wot value), p =>
    ({ w with publisher := p, wotSeen := false },
      [.fresh (newlyAdmittedAuthors w.wot value selfId)])
  | _, p => ({ w with publisher := p }, [])

end HeadWorld

/-- The authors of heads that a transaction adds. Heads that it removes do not count. -/
def freshHeads (db db' : Database) : Finset RostraId :=
  (db'.ev.eventsHeads \ db.ev.eventsHeads).image Prod.fst

variable [Primitives]

/-- One action. An arm of the `select!` is enabled only while the loop waits there and its future is ready. -/
def HeadWorld.step (env : Env) (w : HeadWorld) : HeadAct → Option (HeadWorld × List HeadLabel)
  | .commit op => (w.publisher.commit env op).map fun p =>
    ({ w with publisher := p },
      [.fresh (freshHeads w.publisher.db p.db ∪ newlyAdmittedAuthors
        (readWatches env w.publisher.db).selfWot (readWatches env p.db).selfWot env.selfId)])
  | .hook => w.publisher.publish.map fun r => w.hear env.selfId r.1 r.2
  | .take worker =>
    match w.workers[worker]?, w.queue.takeWork with
    | some none, some (author, queue) =>
      some ({ w with queue := queue, workers := w.workers.set worker (some author) },
        [.took worker author])
    | _, _ => none
  | .release worker =>
    match w.workers[worker]? with
    | some (some author) =>
      some ({ w with
        queue := w.queue.completeWork author
        workers := w.workers.set worker none }, [.released worker author])
    | _ => none
  | .recvHead =>
    if w.pc = .waiting then
      w.newHeads.recv.map fun
        | (.ok (author, _), r) => ({ w with newHeads := r, pc := .received author }, [])
        | (.error _, r) => ({ w with newHeads := r }.reconcile, [])
    else none
  | .wotChanged =>
    if w.pc = .waiting ∧ w.wotSeen = false then
      some ({ w with wotSeen := true, pc := .wotChanged }, [])
    else none
  | .spaceAvailable =>
    if w.pc = .waiting ∧ w.reconciliationPending = true ∧ w.queue.spaceAvailable = true then
      some ({ w with queue := { w.queue with spaceAvailable := false }, pc := .page .resumed }, [])
    else none
  | .leave => if w.pc = .waiting then some ({ w with pc := .stopped }, []) else none
  | .examine author =>
    match w.pc with
    | .admitting current todo =>
      if author ∈ todo then
        if (getHeadsEventsTx w.publisher.db.ev author).Nonempty then
          some ({ w with pc := .admitted current (todo.erase author) author }, [])
        else some ({ w with pc := .admitting current (todo.erase author) }, [])
      else none
    | _ => none
  | .go => w.go env.selfId

/-- Every interleaving from the moment the task subscribes, with its trace. -/
def headRan (env : Env) (db : Database) (acts : List HeadAct) : HeadWorld × List HeadLabel :=
  Machine.run (HeadWorld.step env) { publisher := .open env db } acts

end Rostra.Client
