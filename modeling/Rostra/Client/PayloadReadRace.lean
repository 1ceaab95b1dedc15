/-
# The payload read race

`payload_read_race.rs`: at most four reads of one payload at a time, over a ranked list of peers.  A
read needs a guard (buffer capacity, in `connection_cache.rs`) before it starts, and the callback that
hands guards out may refuse.

The future of the race runs from one point to the next where somebody else decides:

* what `reserve` answers, which depends on everybody who holds capacity (`Act.reserve`);
* which of the active reads completes next, and with what (`Act.complete`), which is all that
  `FuturesUnordered` leaves open.

Between these points the control flow is `fill` and `wait`.  A guard is moved into the read that was
started with it, so it is held as long as the read is active.
-/
import Mathlib.Data.List.Perm.Basic
import Rostra.Lib.Machine

namespace Rostra.PayloadReadRace

variable {P G T E : Type}

/-- A call of `attempt`, with the place of its peer in the list. -/
structure Attempt (P G : Type) where
  position : ℕ
  peer : P
  guard : G
  deriving DecidableEq

/-- Where the race is suspended, or what it returned. -/
inductive Phase (T E : Type)
  | reserving
  | waiting
  | returned (result : Except E (Option T))

/-- The state of the race between two decisions of others. -/
structure Race (P G T E : Type) where
  /-- The peekable iterator. -/
  pending : List P
  /-- How many peers it has yielded. -/
  consumed : ℕ := 0
  active : List (Attempt P G) := []
  phase : Phase T E := .reserving

/-- What others decide: whether there is capacity, and which read ends next. -/
inductive Act (G T E : Type)
  | reserve (answer : Except E G)
  | complete (position : ℕ) (output : Option T)

/-- What can be seen of a race. -/
inductive Label (P G T E : Type)
  | started (a : Attempt P G)
  | refused (reason : E)
  | completed (a : Attempt P G) (output : Option T)

/-- `active.next().await`, which is `None` at once without active reads. -/
def Race.wait (s : Race P G T E) : Race P G T E :=
  { s with phase := if s.active = [] then .returned (.ok none) else .waiting }

/-- The head of the inner loop: the next guard is asked for while there is room and somebody is left to ask. -/
def Race.fill (s : Race P G T E) : Race P G T E :=
  if s.active.length < 4 ∧ s.pending ≠ [] then { s with phase := .reserving } else s.wait

/-- A call with a list of peers, up to its first suspension. -/
def Race.start (peers : List P) : Race P G T E := Race.fill { pending := peers }

/-- One decision. An answer is taken only where it was asked for, and only an active read can complete. -/
def step (s : Race P G T E) : Act G T E → Option (Race P G T E × List (Label P G T E))
  | .reserve answer =>
    match s.phase, s.pending with
    | .reserving, peer :: rest =>
      match answer with
      | .ok guard =>
        let a : Attempt P G := ⟨s.consumed, peer, guard⟩
        some (Race.fill { s with
          pending := rest
          consumed := s.consumed + 1
          active := s.active ++ [a] }, [.started a])
      | .error reason =>
        -- the peer was only peeked at, so it stays the next one
        some (if s.active = [] then { s with phase := .returned (.error reason) } else s.wait,
          [.refused reason])
    | _, _ => none
  | .complete position output =>
    match s.phase, s.active.find? fun a => a.position = position with
    | .waiting, some a =>
      match output with
      -- returning drops the other reads
      | some winner =>
        some ({ s with active := [], phase := .returned (.ok (some winner)) }, [.completed a output])
      | none =>
        some (Race.fill { s with active := s.active.filter fun b => b.position ≠ position },
          [.completed a output])
    | _, _ => none

/-- The race after a list of decisions, with everything it showed. -/
def racePayloadReads (peers : List P) (acts : List (Act G T E)) :
    Race P G T E × List (Label P G T E) :=
  Machine.run step (Race.start peers) acts

def Label.start? : Label P G T E → Option (Attempt P G)
  | .started a => some a
  | _ => none

def Label.completion? : Label P G T E → Option (Attempt P G × Option T)
  | .completed a output => some (a, output)
  | _ => none

def Label.refusal? : Label P G T E → Option E
  | .refused reason => some reason
  | _ => none

/-- The reads that were started, in order. Their positions are places in the list of peers. -/
def starts (trace : List (Label P G T E)) : List (Attempt P G) := trace.filterMap Label.start?

/-- The reads that completed, in order, with what they found. -/
def completions (trace : List (Label P G T E)) : List (Attempt P G × Option T) :=
  trace.filterMap Label.completion?

/-- The refusals of the callback, in order. Only the last one can be the result of the race. -/
def refusals (trace : List (Label P G T E)) : List E := trace.filterMap Label.refusal?

end Rostra.PayloadReadRace
