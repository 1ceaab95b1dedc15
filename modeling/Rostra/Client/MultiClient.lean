/-
# Loading and retiring clients

`multiclient.rs`, `client/tasks.rs`: the manager of the clients of many identities.  A client owns a
database, a network and the tasks that it has started.  The manager keeps at most `max_clients` of them in
`inner`; one that it evicts goes to `retired`, where it is only weakly referenced but its database and the
registry of its tasks are kept, since somebody else may still use them.  A cold load first reaps `retired`,
then takes back what is left of the identity it loads, and opens the file only if nothing is left.

The world has every database that is open, every client that was ever built, and every registry of tasks.
Strong references outside of the manager are multisets, in which anybody who has a reference can put
another.  When the last reference to a client is gone its destructor runs: it releases the database, and
then aborts the tasks.  When the last one to a database is gone it is closed.  Both take their time.

At most one party has the load lock, a cold load or the reaper, and the place it is at is `pc`.
-/
import Rostra.Core.Event
import Rostra.Lib.Lru
import Rostra.Lib.Machine
import Rostra.Lib.Table

namespace Rostra.Client

open Rostra

/-! ## 1. Clients and their tasks

What a client is made of, and who refers to it. -/

abbrev DatabaseRef := ℕ
abbrev ClientRef := ℕ
abbrev TasksRef := ℕ

/-- The registry of the tasks of a client, with the number of those that have not ended. -/
structure ClientTasks where
  id : RostraId
  /-- `Running`; otherwise `Stopping`. -/
  running : Bool := true
  unfinished : ℕ := 0

namespace ClientTasks

def push (t : ClientTasks) : ClientTasks :=
  if t.running then { t with unfinished := t.unfinished + 1 } else t

def abort (t : ClientTasks) : ClientTasks := { t with running := false }

/-- `terminated` returns: the owner has requested the end, and every task has reached it. -/
def terminated (t : ClientTasks) : Bool := !t.running && t.unfinished == 0

end ClientTasks

/-- What the manager needs to know of a `Client`. -/
structure ClientRecord where
  id : RostraId
  database : DatabaseRef
  tasks : TasksRef

structure RetiredClient where
  client : Option ClientRef
  database : DatabaseRef
  tasks : Option TasksRef

/-! ## 2. The holder of the load lock

The load path and the reaper, statement by statement. -/

/-- Who is reaping. -/
inductive Reaper
  | load (id : RostraId)
  | cleanup
  deriving DecidableEq

/-- Where the holder of the load lock is. Only one task can be anywhere but at `idle`. -/
inductive LoadPc
  /-- The lock is free. -/
  | idle
  /-- `load_inner`, after it got the lock. -/
  | lookup (id : RostraId)
  /-- In `reap_retired`, with the local cursor and the entries it has not visited. -/
  | reaping (reaper : Reaper) (cursor : Option RostraId) (keys : List RostraId)
  /-- Waiting for the task that closes a database. -/
  | closing (reaper : Reaper) (key : RostraId) (keys : List RostraId) (database : DatabaseRef)
  /-- At the check of the time budget. -/
  | budget (reaper : Reaper) (cursor : Option RostraId) (keys : List RostraId)
  /-- In `open_database`, before the file is opened and after it. -/
  | opening (id : RostraId)
  | attaching (id : RostraId) (database : DatabaseRef)
  /-- The account could not be attached, and the database is dropped. -/
  | discarding (database : DatabaseRef)
  /-- At `terminated` of the previous tasks. -/
  | awaiting (id : RostraId) (database : DatabaseRef) (tasks : TasksRef)
  | prepared (id : RostraId) (database : DatabaseRef)
  /-- In `from_shared_database`, before there is a client and after. -/
  | constructing (id : RostraId) (database : DatabaseRef) (tasks : TasksRef)
  | starting (id : RostraId) (client : ClientRef)
  /-- Before each of the four statements of the publication. -/
  | evicting (id : RostraId) (client : ClientRef)
  | inserting (id : RostraId) (client : ClientRef)
  | unretiring (id : RostraId) (client : ClientRef)
  | queueing (id : RostraId) (client : ClientRef)
  deriving DecidableEq

namespace LoadPc

/-- The holder of the lock has a strong reference to a client. -/
def holdsClient (c : ClientRef) : LoadPc → Bool
  | .starting _ c' | .evicting _ c' | .inserting _ c' | .unretiring _ c' | .queueing _ c' => c' = c
  | _ => false

/-- The holder of the lock owns a database. -/
def holdsDatabase (d : DatabaseRef) : LoadPc → Bool
  | .attaching _ d' | .awaiting _ d' _ | .prepared _ d' | .constructing _ d' _ => d' = d
  | _ => false

/-- Between the insertion into `inner` and the update of the usage queue. -/
def publishing : LoadPc → Option RostraId
  | .unretiring id _ | .queueing id _ => some id
  | _ => none

end LoadPc

/-! ## 3. The world

Everyone else: references come and go, tasks end, destructors run. -/

structure MultiWorld where
  /-- The next reference. -/
  next : ℕ := 0
  databases : Table DatabaseRef RostraId := ∅
  clients : Table ClientRef ClientRecord := ∅
  tasks : Table TasksRef ClientTasks := ∅
  /-- Clients whose destructor has released the database. -/
  released : Finset ClientRef := ∅
  clientHandles : Multiset ClientRef := 0
  databaseHandles : Multiset DatabaseRef := 0
  inner : Table RostraId ClientRef := ∅
  usageQueue : List RostraId := []
  retired : Table RostraId RetiredClient := ∅
  retiredCursor : Option RostraId := none
  retiredCleanupRunning : Bool := false
  pc : LoadPc := .idle

/-- What is seen of the world. -/
inductive MultiLabel
  | opened (id : RostraId) (database : DatabaseRef)
  /-- A client is going to be constructed. -/
  | constructing (id : RostraId)
  | used (id : RostraId)
  | evicted (ids : List RostraId)
  | returned (id : RostraId) (client : ClientRef)

inductive MultiAct
  /-- `loaded_client` of a caller. -/
  | touch (id : RostraId)
  /-- A cold load, or the reaper, gets the lock. -/
  | load (id : RostraId)
  | cleanup
  /-- The next statement of the holder of the lock. -/
  | go
  /-- The same, but the caller has been cancelled and gets nothing. -/
  | abandoned
  /-- The same, but it fails or panics. -/
  | fail
  /-- The time budget is used up. -/
  | overBudget
  /-- A client starts a task, and a task ends. -/
  | spawn (client : ClientRef)
  | finish (tasks : TasksRef)
  /-- References outside of the manager. -/
  | cloneClient (client : ClientRef)
  | dropClient (client : ClientRef)
  | cloneDatabase (database : DatabaseRef)
  | dropDatabase (database : DatabaseRef)
  /-- The two steps of the destructor of a client, and the destructor of a database. -/
  | releaseDatabase (client : ClientRef)
  | abortTasks (client : ClientRef)
  | close (database : DatabaseRef)

namespace MultiWorld

/-- There is a strong reference to a client: somebody has it, the manager does, or the load that is underway. -/
def alive (w : MultiWorld) (c : ClientRef) : Bool :=
  c ∈ w.clientHandles ∨ (∃ id ∈ w.inner.keys, w.inner.get id = some c) ∨ w.pc.holdsClient c = true

/-- There is a strong reference to a database: somebody has it, a client that is not released does, a retired entry
does, or the load that is underway. -/
def owned (w : MultiWorld) (d : DatabaseRef) : Bool :=
  d ∈ w.databaseHandles ∨
  (∃ c ∈ w.clients.keys, c ∉ w.released ∧ (w.clients.get c).any (·.database = d) = true) ∨
  (∃ id ∈ w.retired.keys, (w.retired.get id).any (·.database = d) = true) ∨
  w.pc.holdsDatabase d = true

def isTerminated (w : MultiWorld) (t : TasksRef) : Bool := (w.tasks.get t).any (·.terminated)

/-- `update_usage_queue`. -/
def updateUsageQueue (w : MultiWorld) (id : RostraId) : MultiWorld :=
  { w with usageQueue := Lru.touch w.usageQueue id }

/-- One client of `to_evict`. It is not dropped here: a retired entry keeps what is needed to tell when it is gone.
-/
def evictOne (w : MultiWorld) (id : RostraId) : MultiWorld :=
  match w.inner.get id with
  | none => w
  | some c =>
    match w.clients.get c with
    | none => w
    | some client =>
      { w with
        inner := w.inner.remove id
        retired := w.retired.insert id ⟨some c, client.database, some client.tasks⟩
        retiredCleanupRunning := true }

/-- The back of the queue: as many as it takes to make room for one more. -/
def toEvict (maxClients : ℕ) (w : MultiWorld) : List RostraId :=
  w.usageQueue.reverse.take (w.inner.keys.card + 1 - maxClients)

/-- `maybe_evict_clients`. -/
def maybeEvictClients (maxClients : ℕ) (w : MultiWorld) : MultiWorld × List MultiLabel :=
  if w.inner.keys.card < maxClients then (w, [])
  else
    let ids := w.toEvict maxClients
    let w := ids.foldl evictOne w
    ({ w with usageQueue := w.usageQueue.filter (· ∈ w.inner.keys) }, [.evicted ids])

/-- The entries that one pass of the reaper visits: so many beyond the cursor, in order. -/
def reapKeys (w : MultiWorld) : List RostraId :=
  Table.firstKeys (Table.beyond w.retired.keys w.retiredCursor) 32

/-- The beginning of `reap_retired`. -/
def reap (w : MultiWorld) (reaper : Reaper) : MultiWorld :=
  { w with
    pc := match w.reapKeys with
      | [] => .reaping reaper none []
      | keys => .reaping reaper w.retiredCursor keys }

/-- One entry: its database is unwrapped if nobody else owns it and the tasks have ended. -/
def reapOne (w : MultiWorld) (reaper : Reaper) (cursor : Option RostraId) (key : RostraId)
    (keys : List RostraId) : MultiWorld :=
  match w.retired.get key with
  | none => { w with pc := .reaping reaper cursor keys }
  | some entry =>
    if entry.tasks.any fun t => !w.isTerminated t then
      { w with pc := .budget reaper (some key) keys }
    else
      let unwrapped := { w with retired := w.retired.remove key }
      if unwrapped.owned entry.database then { w with pc := .budget reaper (some key) keys }
      else { unwrapped with pc := .closing reaper key keys entry.database }

/-- The end of `reap_retired`: the load looks for what is left of its identity. -/
def reaped (w : MultiWorld) (reaper : Reaper) (cursor : Option RostraId) : MultiWorld :=
  match reaper with
  | .cleanup =>
    { w with
      retiredCursor := cursor
      retiredCleanupRunning := w.retiredCleanupRunning && !decide (w.retired.keys = ∅)
      pc := .idle }
  | .load id =>
    { w with
      retiredCursor := cursor
      pc := match w.retired.get id with
        | none => .opening id
        | some entry =>
          match entry.client.filter fun c => w.alive c with
          | some c => .evicting id c
          | none =>
            match entry.tasks with
            | some t => .awaiting id entry.database t
            | none => .prepared id entry.database }

/-- `load_inner` gives the client to the caller, if there still is one. -/
def give (w : MultiWorld) (id : RostraId) (c : ClientRef) (kept : Bool) :
    MultiWorld × List MultiLabel :=
  ({ w with clientHandles := if kept then c ::ₘ w.clientHandles else w.clientHandles, pc := .idle },
    [.used id, .returned id c])

/-- The statements of the holder of the lock, as long as nothing goes wrong. -/
def go (maxClients : ℕ) (kept : Bool) (w : MultiWorld) : Option (MultiWorld × List MultiLabel) :=
  match w.pc with
  | .idle => none
  | .lookup id =>
    match w.inner.get id with
    | some c => some ((w.updateUsageQueue id).give id c kept)
    | none => some (w.reap (.load id), [])
  | .reaping reaper cursor [] => some (w.reaped reaper cursor, [])
  | .reaping reaper cursor (key :: keys) => some (w.reapOne reaper cursor key keys, [])
  | .closing reaper key keys d =>
    if (w.databases.get d).isNone then some ({ w with pc := .budget reaper (some key) keys }, [])
    else none
  | .budget reaper cursor keys => some ({ w with pc := .reaping reaper cursor keys }, [])
  | .opening id =>
    some ({ w with
      next := w.next + 1
      databases := w.databases.insert w.next id
      pc := .attaching id w.next }, [.opened id w.next])
  | .attaching id d => some ({ w with pc := .prepared id d }, [])
  | .discarding d => if (w.databases.get d).isNone then some ({ w with pc := .idle }, []) else none
  | .awaiting id d t => if w.isTerminated t then some ({ w with pc := .prepared id d }, []) else none
  | .prepared id d =>
    some ({ w with
      next := w.next + 1
      tasks := w.tasks.insert w.next { id := id }
      retired := w.retired.insert id ⟨none, d, some w.next⟩
      retiredCleanupRunning := true
      pc := .constructing id d w.next }, [.constructing id])
  | .constructing id d t =>
    some ({ w with
      next := w.next + 1
      clients := w.clients.insert w.next ⟨id, d, t⟩
      pc := .starting id w.next }, [])
  | .starting id c => some ({ w with pc := .evicting id c }, [])
  | .evicting id c =>
    let evicted := w.maybeEvictClients maxClients
    some ({ evicted.1 with pc := .inserting id c }, evicted.2)
  | .inserting id c => some ({ w with inner := w.inner.insert id c, pc := .unretiring id c }, [])
  | .unretiring id c => some ({ w with retired := w.retired.remove id, pc := .queueing id c }, [])
  | .queueing id c => some ((w.updateUsageQueue id).give id c kept)

/-- A statement that fails: the lock is released, and what was local is dropped. -/
def fail (w : MultiWorld) : Option MultiWorld :=
  match w.pc with
  | .closing reaper _ _ d =>
    -- the panic of a destructor has unwound when its task is joined
    if (w.databases.get d).isNone then
      some { w with
        retiredCleanupRunning := w.retiredCleanupRunning && decide (reaper ≠ .cleanup)
        pc := .idle }
    else none
  | .opening _ => some { w with pc := .idle }
  | .attaching _ d => some { w with pc := .discarding d }
  | .constructing _ _ t =>
    -- the unique owner of the tasks is dropped
    some { w with
      tasks := (w.tasks.get t).elim w.tasks fun tasks => w.tasks.insert t tasks.abort
      pc := .idle }
  | .starting _ _ => some { w with pc := .idle }
  | _ => none

def step (maxClients : ℕ) (w : MultiWorld) : MultiAct → Option (MultiWorld × List MultiLabel)
  | .touch id => (w.inner.get id).map fun c =>
    ({ w.updateUsageQueue id with clientHandles := c ::ₘ w.clientHandles },
      [.used id, .returned id c])
  | .load id => if w.pc = .idle then some ({ w with pc := .lookup id }, []) else none
  | .cleanup =>
    if w.pc = .idle ∧ w.retiredCleanupRunning = true then some (w.reap .cleanup, []) else none
  | .go => w.go maxClients true
  | .abandoned => w.go maxClients false
  | .fail => w.fail.map fun w => (w, [])
  | .overBudget =>
    match w.pc with
    | .budget reaper cursor _ => some ({ w with pc := .reaping reaper cursor [] }, [])
    | _ => none
  | .spawn c =>
    if w.alive c then
      (w.clients.get c).bind fun client => (w.tasks.get client.tasks).map fun t =>
        ({ w with tasks := w.tasks.insert client.tasks t.push }, [])
    else none
  | .finish t => (w.tasks.get t).map fun tasks =>
    ({ w with tasks := w.tasks.insert t { tasks with unfinished := tasks.unfinished - 1 } }, [])
  | .cloneClient c =>
    if w.alive c then some ({ w with clientHandles := c ::ₘ w.clientHandles }, []) else none
  | .dropClient c =>
    if c ∈ w.clientHandles then some ({ w with clientHandles := w.clientHandles.erase c }, []) else none
  | .cloneDatabase d =>
    -- from another reference outside, or from a client somebody has
    if d ∈ w.databaseHandles ∨ ∃ c ∈ w.clients.keys, w.alive c = true ∧
        (w.clients.get c).any (·.database = d) = true then
      some ({ w with databaseHandles := d ::ₘ w.databaseHandles }, [])
    else none
  | .dropDatabase d =>
    if d ∈ w.databaseHandles then
      some ({ w with databaseHandles := w.databaseHandles.erase d }, [])
    else none
  | .releaseDatabase c =>
    if (w.clients.get c).isSome = true ∧ w.alive c = false then
      some ({ w with released := insert c w.released }, [])
    else none
  | .abortTasks c =>
    if c ∈ w.released then
      (w.clients.get c).bind fun client => (w.tasks.get client.tasks).map fun t =>
        ({ w with tasks := w.tasks.insert client.tasks t.abort }, [])
    else none
  | .close d => if w.owned d then none else some ({ w with databases := w.databases.remove d }, [])

end MultiWorld

/-- `MultiClient::new`: there is room for one client at least. -/
def multiMaxClients (maxClients : ℕ) : ℕ := max maxClients 1

/-- Every interleaving from a new manager, wherever its cursor stands. -/
def multiRan (maxClients : ℕ) (cursor : Option RostraId) (acts : List MultiAct) :
    MultiWorld × List MultiLabel :=
  Machine.run (MultiWorld.step (multiMaxClients maxClients)) { retiredCursor := cursor } acts

end Rostra.Client
