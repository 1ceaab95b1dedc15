/-
# Inbound connections

`run`, `handle_incoming_try` and `InboundAdmission` of `request_handler.rs`: which connections and which calls of
other nodes are taken on.  A connection is a task and each of its calls is another, so all that they share are the
semaphores of the account; between two of their steps anybody else moves.

* A connection reads the header of one stream at a time, and a header that is broken or late ends it, with all its
  calls.
* A call holds a permit of its connection and one of the account.  Some permits of the account are reserved for
  calls that are not long polls, and such a call asks for them first.
* A task that is aborted, because its connection has ended, keeps its permits until it is dropped.

What a call does is elsewhere; here it ends some time (`finish`), for whatever reason.
-/
import Rostra.Lib.Machine
import Rostra.Lib.Semaphore
import Rostra.P2p.Connection

namespace Rostra.Inbound

open Rostra P2p

/-! ## 1. Admission

Which semaphore a call asks, in which order. -/

def MAX_CONCURRENT_RPCS_PER_CONNECTION : ℕ := 32
def MAX_INBOUND_CONNECTIONS : ℕ := 128
def MAX_CONCURRENT_INBOUND_RPCS : ℕ := 256
/-- Slots reserved so long polls cannot starve finite RPCs. -/
def RESERVED_ORDINARY_INBOUND_RPCS : ℕ := 64

/-- The semaphores of the account. The shared one is smaller than the limit by what is reserved. -/
structure InboundAdmission where
  connections : Semaphore := ⟨MAX_INBOUND_CONNECTIONS⟩
  sharedRpcs : Semaphore := ⟨MAX_CONCURRENT_INBOUND_RPCS - RESERVED_ORDINARY_INBOUND_RPCS⟩
  reservedOrdinaryRpcs : Semaphore := ⟨RESERVED_ORDINARY_INBOUND_RPCS⟩
  deriving DecidableEq

/-- Where a permit of the account comes from. -/
inductive Pool
  | shared
  | reservedOrdinary
  deriving DecidableEq

namespace InboundAdmission

/-- The semaphore behind a name. -/
def pool (a : InboundAdmission) : Pool → Semaphore
  | .shared => a.sharedRpcs
  | .reservedOrdinary => a.reservedOrdinaryRpcs

/-- The same semaphores, with another value of one of them. -/
def withPool (a : InboundAdmission) (s : Semaphore) : Pool → InboundAdmission
  | .shared => { a with sharedRpcs := s }
  | .reservedOrdinary => { a with reservedOrdinaryRpcs := s }

end InboundAdmission

/-- The calls that may take as long as they like. They are never served from the reserve. -/
def isLongPoll (id : RpcId) : Bool :=
  id.code = Rpc.WAIT_HEAD_UPDATE.RPC_ID.code || id.code = Rpc.WAIT_FOLLOWERS_NEW_HEADS.RPC_ID.code

/-! ## 2. Tasks

The connection and its calls, as control states. -/

/-- A call that was admitted, with the pool its permit is from. It stays in the list of its connection until the
loop has seen its end. -/
structure RpcTask where
  rpcId : RpcId
  pool : Pool
  /-- It has not dropped its permits. -/
  running : Bool := true

/-- Where the task of a connection is. -/
inductive ConnectionPc
  | handshaking
  /-- At the `select!` of the loop. -/
  | accepting
  /-- Reading the header of a stream. -/
  | reading
  /-- About to ask for a permit of the account; it holds one of its own. -/
  | admitting (id : RpcId) (pool : Pool)
  | closed
  deriving DecidableEq

/-- A connection: its place in the loop, its own semaphore, and its calls. -/
structure InboundConnection where
  pc : ConnectionPc := .handshaking
  semaphore : Semaphore := ⟨MAX_CONCURRENT_RPCS_PER_CONNECTION⟩
  rpcTasks : List RpcTask := []

/-- All that the connections share, and the connections. -/
structure InboundWorld where
  admission : InboundAdmission := {}
  /-- All connections that were ever taken on. -/
  connections : List InboundConnection := []

/-- The limit that a call has met. -/
inductive Limit
  | perConnection
  | clientWide
  deriving DecidableEq

inductive InboundLabel
  | rejectedConnection
  | started (connection : ℕ) (id : RpcId) (pool : Pool)
  | rejected (connection : ℕ) (id : RpcId) (limit : Limit)
  deriving DecidableEq

inductive InboundAct
  | incoming
  | handshake (connection : ℕ) (ok : Bool)
  | acceptBi (connection : ℕ) (ok : Bool)
  /-- What arrives on the stream within the timeout. -/
  | header (connection : ℕ) (bytes : Option Bytes)
  | admitting (connection : ℕ)
  | idleTimeout (connection : ℕ)
  /-- A call is over: its task has returned, panicked or been aborted. -/
  | finish (connection task : ℕ)
  /-- `rpc_tasks.next()`. -/
  | next (connection task : ℕ)
  /-- The task of a connection is dropped with the handler. -/
  | abort (connection : ℕ)

namespace InboundWorld

/-- The connection comes to another place; nothing else moves. -/
def goto (w : InboundWorld) (i : ℕ) (c : InboundConnection) (pc : ConnectionPc) : InboundWorld :=
  { w with connections := w.connections.set i { c with pc := pc } }

/-- `handle_incoming` returns. The permit of the connection is given back at once; those of its calls are when
their tasks are dropped. -/
def close (w : InboundWorld) (i : ℕ) (c : InboundConnection) : InboundWorld :=
  let w := { w with admission := { w.admission with connections := w.admission.connections.release } }
  w.goto i c .closed

/-- A header was read. The permit of the connection comes first, and a call that finds none is refused before the
account is asked. -/
def request (w : InboundWorld) (i : ℕ) (c : InboundConnection) (id : RpcId) : InboundWorld × List InboundLabel :=
  match c.semaphore.tryAcquire with
  | none => (w.goto i c .accepting, [.rejected i id .perConnection])
  | some s =>
    (w.goto i { c with semaphore := s } (.admitting id (if isLongPoll id then .shared else .reservedOrdinary)), [])

/-- `try_admit_rpc`, one semaphore at a time. A finite call that finds the reserve empty asks the shared one next,
so between its two questions others may move. -/
def admitRpc (w : InboundWorld) (i : ℕ) (c : InboundConnection) (id : RpcId) (pool : Pool) :
    InboundWorld × List InboundLabel :=
  match (w.admission.pool pool).tryAcquire with
  | some s =>
    let w := { w with admission := w.admission.withPool s pool }
    let c := { c with rpcTasks := c.rpcTasks ++ [{ rpcId := id, pool := pool }] }
    (w.goto i c .accepting, [.started i id pool])
  | none =>
    match pool with
    | .reservedOrdinary => (w.goto i c (.admitting id .shared), [])
    | .shared => (w.goto i { c with semaphore := c.semaphore.release } .accepting, [.rejected i id .clientWide])

/-- The step of one connection. A call may end wherever its connection is, the other actions belong to a place in
the loop. -/
def move (w : InboundWorld) (i : ℕ) (c : InboundConnection) : InboundAct → Option (InboundWorld × List InboundLabel)
  | .incoming => none
  | .handshake _ ok =>
    match c.pc with
    | .handshaking => some (if ok then w.goto i c .accepting else w.close i c, [])
    | _ => none
  | .acceptBi _ ok =>
    match c.pc with
    | .accepting => some (if ok then w.goto i c .reading else w.close i c, [])
    | _ => none
  | .header _ bytes =>
    match c.pc, bytes.map readRequestRaw with
    | .reading, some (.ok ((id, _), _)) => some (w.request i c id)
    | .reading, _ => some (w.close i c, [])
    | _, _ => none
  | .admitting _ =>
    match c.pc with
    | .admitting id pool => some (w.admitRpc i c id pool)
    | _ => none
  | .idleTimeout _ =>
    match c.pc, c.rpcTasks with
    | .accepting, [] => some (w.close i c, [])
    | _, _ => none
  | .finish _ k =>
    match c.rpcTasks[k]? with
    | some t =>
      if t.running then
        let w := { w with admission := w.admission.withPool (w.admission.pool t.pool).release t.pool }
        let c := { c with
          semaphore := c.semaphore.release
          rpcTasks := c.rpcTasks.set k { t with running := false } }
        some (w.goto i c c.pc, [])
      else none
    | none => none
  | .next _ k =>
    match c.pc, c.rpcTasks[k]? with
    | .accepting, some t =>
      if t.running then none else some (w.goto i { c with rpcTasks := c.rpcTasks.eraseIdx k } .accepting, [])
    | _, _ => none
  | .abort _ =>
    match c.pc with
    | .handshaking | .accepting | .reading => some (w.close i c, [])
    -- between the header and the spawned task is no await
    | .admitting .. | .closed => none

/-- The connection that an action is about. -/
def connectionOf : InboundAct → Option ℕ
  | .incoming => none
  | .handshake i _ | .acceptBi i _ | .header i _ | .admitting i | .idleTimeout i | .finish i _ | .next i _
  | .abort i => some i

/-- One action: a connection moves, or a new one arrives and is taken on if there is a permit. -/
def step (w : InboundWorld) (act : InboundAct) : Option (InboundWorld × List InboundLabel) :=
  match connectionOf act with
  | some i => (w.connections[i]?).bind fun c => w.move i c act
  | none =>
    match w.admission.connections.tryAcquire with
    | none => some (w, [.rejectedConnection])
    | some s => some ({ w with
        admission := { w.admission with connections := s }
        connections := w.connections ++ [{}] }, [])

end InboundWorld

/-- Every interleaving of the connections and their calls. -/
def inbound (acts : List InboundAct) : InboundWorld × List InboundLabel := Machine.run InboundWorld.step {} acts

end Rostra.Inbound
