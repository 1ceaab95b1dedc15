/-
# Long polls

The two calls of `request_handler.rs` that wait.  A node answers `WAIT_HEAD_UPDATE` with one of its heads as
soon as the head that the caller knows is not among them, and `WAIT_FOLLOWERS_NEW_HEADS` with the next event of a
follower that becomes a head.

A handler runs between the commits of the node and their hooks, so each read of the tables, of a watch and of a
channel is a step of its own.  The watch of the own head tells nothing but that it was written; the broadcast of
new heads may lose values, and then the handler goes on with the next.

`pollOnce` (`poll_follower_head_updates.rs`) is the other side of the second call.
-/
import Rostra.Client.Publisher
import Rostra.Client.RequestHandler

namespace Rostra.LongPolls

open Rostra Db Client P2p RequestHandler

/-! ## 1. `WAIT_HEAD_UPDATE`

Subscribe, read, compare, wait. -/

inductive HeadWaitPc
  /-- About to read the heads. -/
  | reading
  /-- At `changed`. -/
  | waiting
  | answered (head : ShortEventId)
  /-- `loop exits only for a nonempty head set`. -/
  | panicked
  | stopped
  deriving DecidableEq

/-- One waiting call: the node it is served by, its receiver of the watch, and its place. -/
structure HeadWait where
  publisher : Publisher
  /-- The watch holds nothing that `changed` has not returned. -/
  headSeen : Bool := true
  pc : HeadWaitPc := .reading

inductive HeadWaitAct [Primitives]
  | commit (op : Op)
  /-- The next hook runs. -/
  | hook
  /-- The heads are read, and one is drawn. -/
  | go (random : ℕ)
  | changed
  /-- The connection is closed or the client is gone. -/
  | leave

/-- Does a hook write the watch of the own head? -/
def isHead : Signal → Bool
  | .publish (.head _) => true
  | _ => false

/-- One action. The heads are compared as a set: the answer is any of them, once the known one is not among them.
-/
def HeadWait.step [Primitives] (env : Env) (knownHead : ShortEventId) (w : HeadWait) :
    HeadWaitAct → Option (HeadWait × List ShortEventId)
  | .commit op => (w.publisher.commit env op).map fun p => ({ w with publisher := p }, [])
  | .hook => w.publisher.publish.map fun r =>
    ({ w with
      publisher := r.2
      headSeen := w.headSeen && !isHead r.1 }, [])
  | .go random =>
    match w.pc with
    | .reading =>
      let heads := getHeadsEventsTx w.publisher.db.ev env.selfId
      if heads ≠ ∅ ∧ knownHead ∉ heads then
        match sampleHead heads random with
        | some head => some ({ w with pc := .answered head }, [head])
        | none => some ({ w with pc := .panicked }, [])
      else some ({ w with pc := .waiting }, [])
    | _ => none
  | .changed =>
    match w.pc with
    | .waiting =>
      if w.headSeen then none
      else some ({ w with
        headSeen := true
        pc := .reading }, [])
    | _ => none
  | .leave =>
    match w.pc with
    | .reading | .waiting => some ({ w with pc := .stopped }, [])
    | .answered _ | .panicked | .stopped => none

/-- Every interleaving from the moment of the subscription, in whatever state the node is then. -/
def headWaited [Primitives] (env : Env) (knownHead : ShortEventId) (p : Publisher) (acts : List HeadWaitAct) :
    HeadWait × List ShortEventId := Machine.run (HeadWait.step env knownHead) { publisher := p } acts

/-! ## 2. `WAIT_FOLLOWERS_NEW_HEADS`

Receive, look whether it is a follower, read the event, answer. -/

inductive FollowersWaitPc
  | subscribing
  /-- At `recv`. -/
  | waiting
  /-- About to look whether the author is a follower. -/
  | received (author : RostraId) (head : ShortEventId)
  /-- About to read the event. -/
  | relevant (author : RostraId) (head : ShortEventId)
  | answered (author : RostraId) (event : Event)
  | stopped
  deriving DecidableEq

/-- One waiting call, with its receiver of new heads. What is sent before it subscribes is not for it. -/
structure FollowersWait where
  publisher : Publisher
  newHeads : Broadcast.Receiver (RostraId × ShortEventId) := {}
  pc : FollowersWaitPc := .subscribing

inductive FollowersWaitAct [Primitives]
  | commit (op : Op)
  | hook
  /-- The next statement of the handler. -/
  | go
  | leave

namespace FollowersWait

/-- What a hook does to the receiver. Only new heads are sent on this channel. -/
def hear (w : FollowersWait) : Signal → Publisher → FollowersWait
  | .newHead author id, p =>
    { w with
      publisher := p
      newHeads := w.newHeads.send BROADCAST_PLACES (author, id) }
  | _, p => { w with publisher := p }

/-- The subscription and the statements of the loop.  What is shown is a snapshot of the followers that has the
author. -/
def go (w : FollowersWait) : Option (FollowersWait × List (RostraId × Finset RostraId)) :=
  match w.pc with
  | .subscribing => some ({ w with
    newHeads := {}
    pc := .waiting }, [])
  | .waiting => w.newHeads.recv.map fun
    | (.ok (author, head), r) =>
      ({ w with
        newHeads := r
        pc := .received author head }, [])
    -- `Missed some updates, continue waiting`
    | (.error _, r) => ({ w with newHeads := r }, [])
  | .received author head =>
    let followers := w.publisher.watches.selfFollowers
    if author ∈ followers then some ({ w with pc := .relevant author head }, [(author, followers)])
    else some ({ w with pc := .waiting }, [])
  | .relevant author head =>
    match w.publisher.db.ev.events.get head with
    | none => some ({ w with pc := .waiting }, [])
    | some event => some ({ w with pc := .answered author event }, [])
  | .answered .. | .stopped => none

def step [Primitives] (env : Env) (w : FollowersWait) :
    FollowersWaitAct → Option (FollowersWait × List (RostraId × Finset RostraId))
  | .commit op => (w.publisher.commit env op).map fun p => ({ w with publisher := p }, [])
  | .hook => w.publisher.publish.map fun r => (w.hear r.1 r.2, [])
  | .go => w.go
  | .leave =>
    match w.pc with
    | .subscribing | .waiting | .received .. | .relevant .. => some ({ w with pc := .stopped }, [])
    | .answered .. | .stopped => none

end FollowersWait

/-- Every interleaving from the opening of the database, with the snapshots that were looked at. -/
def followersWaited [Primitives] (env : Env) (db : Database) (acts : List FollowersWaitAct) :
    FollowersWait × List (RostraId × Finset RostraId) :=
  Machine.run (FollowersWait.step env) { publisher := .open env db } acts

/-! ## 3. The poll of a follower

The caller compares the answer with its signature. -/

/-- Why a poll of a follower fails: the call did, or the answer is not what it says to be. -/
inductive FollowerPeerError
  | rpc (e : RpcError)
  | verification (e : VerifiedEventError)
  deriving DecidableEq

section Poll

variable [Primitives] [Transport]

/-- The id that the response has to have is computed from the envelope itself, so it is the author and the
signature that are checked. -/
def verifySigned (author : RostraId) (r : Bincode.SignedEvent) : Except VerifiedEventError VerifiedEvent :=
  verifyResponse author (VerifiedEvent.ofEvent r.1.1).id r

/-- The claim of the response is bound to the signed envelope before it counts. -/
def pollOnce (selfId : RostraId) (wot : WotData) (s : Bytes) : Except FollowerPeerError (Option VerifiedEvent) :=
  match makeRpc .WAIT_FOLLOWERS_NEW_HEADS s with
  | .error e => .error (.rpc e)
  | .ok ((author, event), _) =>
    match verifySigned author.1 event with
    | .error e => .error (.verification e)
    | .ok v => .ok (if wot.contains v.event.author selfId then some v else none)

end Poll

end Rostra.LongPolls
