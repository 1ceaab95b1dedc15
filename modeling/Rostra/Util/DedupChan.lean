/-
# The deduplicating channel

`rostra-util-dedup-chan`.  A `Sender` keeps a map of channels; every channel has a queue, the set of
the queue's elements and a lag flag under one mutex, and beside them a `tokio` watch whose version
wakes the receivers.

* `Channel::send` holds the mutex from its first check to its last write, but the watch is read by
  receivers without it.  So it is two steps here, with the version bumped and the mutex held between
  them (`sending`).
* `Receiver::recv` looks at the queue under the mutex, and otherwise waits in `changed()`, the only
  place where it can be cancelled.  Any number of clones share a channel, each with the version it has
  seen last.
* `Sender::send` and `Sender::subscribe` hold the mutex of the map.  A channel that was taken out of
  the map is still there for whoever holds it, so channels are named by their place in the list of all
  channels that were ever subscribed, and not by their key, which can be given out again.

A watch, as `tokio` documents it: `send` fails without receivers and else bumps the version,
`changed()` returns at once when the version is not the one seen last and then counts it as seen, and
fails when the sender is gone; a clone has seen what its original has.  Versions and keys are unbounded.
-/
import Mathlib.Data.Finset.Sort
import Rostra.Lib.Table
import Rostra.Lib.Machine

namespace Rostra.DedupChan

open Rostra

variable {T : Type} [DecidableEq T]

/-! ## 1. One channel

The steps of a sender and of its receivers on one channel. -/

/-- What the mutex guards: the queue, the set of what is in it, and whether something was dropped. -/
structure ChannelInner (T : Type) where
  set : Finset T := ∅
  queue : List T := []
  lagged : Bool := false

/-- Where a receiver is: outside `recv`, about to take the mutex, in `changed().await`, or gone. -/
inductive Phase
  | idle | looking | waiting | dropped
  deriving DecidableEq

/-- A `Receiver` handle: the version it has seen of the watch, and where its `recv` is. -/
structure Receiver where
  seen : ℕ
  phase : Phase
  deriving DecidableEq

/-- A `Channel` with all its receivers. -/
structure Channel (T : Type) where
  capacity : ℕ
  inner : ChannelInner T := {}
  version : ℕ := 0
  /-- The watch has its sender. -/
  connected : Bool := true
  receivers : List Receiver := []
  /-- The value of a `send` that bumped the version and still holds the mutex. -/
  sending : Option T := none

inductive SendError
  | closed | lagging
  deriving DecidableEq

inductive RecvError
  | closed | lagging
  deriving DecidableEq

/-- `tx.is_closed()`: no receiver is left. A sender learns of it the next time it sends. -/
def Channel.isClosed (c : Channel T) : Bool := c.receivers.all fun r => r.phase = .dropped

/-- What a channel shows: the result of a send, the result of a `recv`, or that a receiver found
nothing and goes on to wait. -/
inductive Shown (T : Type)
  | sent (v : T) (result : Except SendError Unit)
  | received (r : ℕ) (result : Except RecvError T)
  | slept (r : ℕ)
  /-- "Must have a set element when len > 0". -/
  | panicked

/-- `Channel::send` up to the bump of the version.  A result is shown if it returns before. -/
def Channel.sendStart (c : Channel T) (v : T) : Channel T × List (Shown T) :=
  if v ∈ c.inner.set then
    if c.isClosed then (c, [.sent v (.error .closed)]) else (c, [.sent v (.ok ())])
  else if c.isClosed then (c, [.sent v (.error .closed)])
  else ({ c with version := c.version + 1, sending := some v }, [])

/-- `Channel::send` after the bump. A value that does not fit is dropped, and the flag is what makes up for it. -/
def Channel.sendFinish (c : Channel T) (v : T) : Channel T × List (Shown T) :=
  if c.capacity ≤ c.inner.queue.length then
    ({ c with inner := { c.inner with lagged := true }, sending := none },
      [.sent v (.error .lagging)])
  else
    ({ c with
      inner := { c.inner with set := insert v c.inner.set, queue := c.inner.queue ++ [v] }
      sending := none }, [.sent v (.ok ())])

/-- What `recv` does under the mutex: the new contents, where the receiver goes, and what it shows. -/
def ChannelInner.look (i : ChannelInner T) (r : ℕ) : ChannelInner T × Phase × List (Shown T) :=
  match i.queue with
  | [] =>
    if i.lagged then ({ i with lagged := false }, .idle, [.received r (.error .lagging)])
    else (i, .waiting, [.slept r])
  | v :: rest =>
    if v ∈ i.set then
      ({ i with queue := rest, set := i.set.erase v }, .idle, [.received r (.ok v)])
    else ({ i with queue := rest }, .idle, [.panicked])

/-- The steps of one channel.  A receiver is named by its place in `receivers`. -/
inductive ChannelAct (T : Type)
  | sendStart (v : T)
  | sendFinish
  /-- The sender of the watch is dropped. -/
  | disconnect
  /-- `recv` is called. -/
  | recv (r : ℕ)
  /-- `recv` takes the mutex. -/
  | look (r : ℕ)
  /-- `changed()` returns. -/
  | changed (r : ℕ)
  /-- The future of `recv` is dropped at its await. -/
  | cancel (r : ℕ)
  | clone (r : ℕ)
  | drop (r : ℕ)

/-- A receiver moves on; the channel itself does not change. -/
def Channel.move (c : Channel T) (r : ℕ) (rcv : Receiver) : Channel T :=
  { c with receivers := c.receivers.set r rcv }

/-- One step; `none` if it cannot be taken now. -/
def Channel.step (c : Channel T) : ChannelAct T → Option (Channel T × List (Shown T))
  | .sendStart v => if c.sending = none then some (c.sendStart v) else none
  | .sendFinish => c.sending.map c.sendFinish
  | .disconnect => some ({ c with connected := false }, [])
  | .recv r => do
    let rcv ← c.receivers[r]?
    if rcv.phase = .idle then some (c.move r { rcv with phase := .looking }, []) else none
  | .look r => do
    let rcv ← c.receivers[r]?
    if rcv.phase = .looking ∧ c.sending = none then
      let (inner, phase, shown) := c.inner.look r
      some ({ c.move r { rcv with phase := phase } with inner := inner }, shown)
    else none
  | .changed r => do
    let rcv ← c.receivers[r]?
    if rcv.phase = .waiting then
      if rcv.seen ≠ c.version then some (c.move r ⟨c.version, .looking⟩, [])
      else if c.connected then none
      else some (c.move r { rcv with phase := .idle }, [.received r (.error .closed)])
    else none
  | .cancel r => do
    let rcv ← c.receivers[r]?
    if rcv.phase = .waiting then some (c.move r { rcv with phase := .idle }, []) else none
  | .clone r => do
    let rcv ← c.receivers[r]?
    if rcv.phase = .idle then some ({ c with receivers := c.receivers ++ [rcv] }, []) else none
  | .drop r => do
    let rcv ← c.receivers[r]?
    if rcv.phase = .idle then some (c.move r { rcv with phase := .dropped }, []) else none

/-- A channel as `subscribe` makes it: empty, with one receiver that has seen all there is. -/
def Channel.subscribed (capacity : ℕ) : Channel T :=
  { capacity := capacity, receivers := [⟨0, .idle⟩] }

/-! ## 2. The sender

The map of channels, and a running `send` with the keys that it still has before it. -/

/-- A `Sender::send` on its way over the channels, with the mutex of the map. -/
structure SendCall (T : Type) where
  value : T
  /-- The keys still to come. -/
  todo : List ℕ
  toDelete : List ℕ := []
  sentCount : ℕ := 0

structure System (T : Type) where
  /-- Every channel there has been. -/
  channels : List (Channel T) := []
  /-- The map of the sender, from keys to channels. -/
  map : Table ℕ ℕ := ∅
  call : Option (SendCall T) := none
  /-- Some `Sender` is left. -/
  senders : Bool := true

/-- What the system shows: what a channel shows, and the panics of the map. -/
inductive Label (T : Type)
  | channel (i : ℕ) (shown : Shown T)
  | returned (sentCount : ℕ)
  /-- `assert!(…is_none())` in `subscribe`, `expect("Must be some")` in `send`. -/
  | mapPanicked

inductive Act (T : Type)
  | send (v : T)
  /-- The running `send` goes on with the next key, or with the channel that it holds. -/
  | sendOn
  /-- The running `send` is through with the channels. -/
  | sendReturn
  | subscribe (capacity : ℕ)
  /-- The last `Sender` goes. -/
  | dropSenders
  /-- A step of a receiver of channel `i`. -/
  | receive (i : ℕ) (a : ChannelAct T)

/-- The steps that are a receiver's own. -/
def ChannelAct.isReceivers : ChannelAct T → Bool
  | .sendStart _ | .sendFinish | .disconnect => false
  | _ => true

/-- One step of channel `i`. -/
def System.onChannel (s : System T) (i : ℕ) (a : ChannelAct T) :
    Option (System T × List (Shown T)) := do
  let c ← s.channels[i]?
  let (c', shown) ← c.step a
  some ({ s with channels := s.channels.set i c' }, shown)

/-- How the running `send` counts a result. -/
def SendCall.count (call : SendCall T) (k : ℕ) (rest : List ℕ) : List (Shown T) → SendCall T
  | [.sent _ (.ok _)] => { call with todo := rest, sentCount := call.sentCount + 1 }
  | [.sent _ (.error .closed)] => { call with todo := rest, toDelete := call.toDelete ++ [k] }
  | [.sent _ (.error .lagging)] => { call with todo := rest }
  | _ => call

/-- The channel is dropped with its watch sender. What is queued in it stays there. -/
def System.disconnect (s : System T) (gone : List ℕ) : System T :=
  { s with channels := s.channels.mapIdx fun i c =>
      if i ∈ gone then { c with connected := false } else c }

/-- `last_key_value().map(|(k, _)| *k + 1).unwrap_or_default()`. A key that was removed may be given out again, if
it was the last. -/
def nextKey (map : Table ℕ ℕ) : ℕ := ((Table.greatest map.keys).map (· + 1)).getD 0

/-- `remove(..).expect("Must be some")` for each key. -/
def removeAll (map : Table ℕ ℕ) : List ℕ → Option (Table ℕ ℕ)
  | [] => some map
  | k :: ks => if (map.get k).isSome then removeAll (map.remove k) ks else none

def System.step (s : System T) : Act T → Option (System T × List (Label T))
  | .send v =>
    if s.senders ∧ s.call.isNone then
      some ({ s with call := some { value := v, todo := s.map.keys.sort (· ≤ ·) } }, [])
    else none
  | .sendOn => do
    let call ← s.call
    match call.todo with
    | [] => none
    | k :: rest =>
      let i ← s.map.get k
      let c ← s.channels[i]?
      -- the mutex is only held by this very call
      let act := if c.sending.isSome then .sendFinish else .sendStart call.value
      let (s', shown) ← s.onChannel i act
      some ({ s' with call := some (call.count k rest shown) }, shown.map (.channel i))
  | .sendReturn => do
    let call ← s.call
    match call.todo with
    | _ :: _ => none
    | [] =>
      match removeAll s.map call.toDelete with
      | none => some ({ s with call := none }, [.mapPanicked])
      | some map =>
        some ({ s.disconnect (call.toDelete.filterMap s.map.get) with map := map, call := none },
          [.returned call.sentCount])
  | .subscribe capacity =>
    if s.senders ∧ s.call.isNone then
      let key := nextKey s.map
      some ({ s with
        channels := s.channels ++ [.subscribed capacity]
        map := s.map.insert key s.channels.length },
        if (s.map.get key).isSome then [.mapPanicked] else [])
    else none
  | .dropSenders =>
    if s.senders ∧ s.call.isNone then
      some ({ s.disconnect (s.map.keys.sort (· ≤ ·) |>.filterMap s.map.get) with
        map := ∅, senders := false }, [])
    else none
  | .receive i a =>
    if a.isReceivers then (s.onChannel i a).map fun r => (r.1, r.2.map (.channel i)) else none

/-- Every interleaving, with its trace. -/
def ran (acts : List (Act T)) : System T × List (Label T) := Machine.run System.step {} acts

end Rostra.DedupChan
