/-
# Polling followers

`PollFollowerHeadUpdates::run`: which followers are asked for news, and when.  The account itself and its direct
followers are desired; at most `MAX_ACTIVE_POLLS` of them are polled at a time, and the others are pending.

A poll ends some time, by its slot timeout at the latest, and is pending again at once if its peer is still
desired.  What is pending is a `BTreeSet`, and the next one is its first element: unlike the polls of
followees, there is no circle.
-/
import Rostra.Core.Event
import Rostra.Lib.Machine
import Rostra.Lib.Table

namespace Rostra.PollFollowers

open Rostra

def MAX_ACTIVE_POLLS : ℕ := 32

structure FollowerPolls where
  selfId : RostraId
  desiredPeers : Finset RostraId := ∅
  pendingPeers : Finset RostraId := ∅
  /-- The peers of `poll_futures`. -/
  activePeers : Finset RostraId := ∅
  running : Bool := true

inductive PollAct
  /-- A poll is over; `false` is an error of the database. -/
  | finished (peer : RostraId) (ok : Bool)
  /-- The followers are read, at the start and whenever they changed. -/
  | changed (followers : Finset RostraId)
  /-- The client is gone, or the watch is closed. -/
  | leave

namespace FollowerPolls

def updateDesiredFollowers (w : FollowerPolls) (followers : Finset RostraId) : FollowerPolls :=
  let desired := insert w.selfId followers
  { w with
    desiredPeers := desired
    pendingPeers := w.pendingPeers.filter (· ∈ desired) ∪ desired \ w.activePeers }

/-- The loop of `schedule_pending`: every turn takes one peer off the pending ones. -/
def scheduleLoop : ℕ → FollowerPolls → FollowerPolls × List RostraId
  | 0, w => (w, [])
  | turns + 1, w =>
    if w.activePeers.card < MAX_ACTIVE_POLLS then
      match Table.least w.pendingPeers with
      | none => (w, [])
      | some peer =>
        let w := { w with pendingPeers := w.pendingPeers.erase peer }
        if peer ∈ w.activePeers then w.scheduleLoop turns
        else
          let (w, started) := scheduleLoop turns { w with activePeers := insert peer w.activePeers }
          (w, peer :: started)
    else (w, [])

/-- The peers of which a poll was started are the second component. -/
def schedulePending (w : FollowerPolls) : FollowerPolls × List RostraId := w.scheduleLoop w.pendingPeers.card

def step (w : FollowerPolls) (act : PollAct) : Option (FollowerPolls × List RostraId) :=
  if w.running then
    match act with
    | .finished peer ok =>
      if peer ∈ w.activePeers then
        let w := { w with activePeers := w.activePeers.erase peer }
        if ok then
          some (if peer ∈ w.desiredPeers then { w with pendingPeers := insert peer w.pendingPeers } else w).schedulePending
        else some ({ w with running := false }, [])
      else none
    | .changed followers => some (w.updateDesiredFollowers followers).schedulePending
    | .leave => some ({ w with running := false }, [])
  else none

end FollowerPolls

/-- A run, and every poll that it started.  Nothing can happen before the followers are read. -/
def followersPolled (selfId : RostraId) (acts : List PollAct) : FollowerPolls × List RostraId :=
  Machine.run FollowerPolls.step { selfId := selfId } acts

end Rostra.PollFollowers
