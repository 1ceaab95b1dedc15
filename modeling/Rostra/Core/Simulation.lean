/-
# The reference simulation

`rostra_core::retention::simulation`: what author and global budgets would evict, from a list of
retained events, in memory.  It is independent of the database and of the encoded keys: candidates
are ranked by the structured `RetentionKey`, usage is a map of sums, and what was evicted is a set.
-/
import Mathlib.Data.List.Sort
import Rostra.Core.Retention
import Rostra.Lib.BigEndian
import Rostra.Lib.Outcome
import Rostra.Lib.Table

namespace Rostra

/-- `RetentionKey`: virtual time, then the full event id. -/
abbrev RetentionKey := ℤ ×ₗ EventId

/-- `RetentionKey::to_bytes`, read as a number: the ticks with their sign flipped, then the id. -/
def RetentionKey.toBytes (k : RetentionKey) : ℕ :=
  (((ofLex k).1 + 2 ^ 127) % 2 ^ 128).toNat * 2 ^ 256 + RetentionPolicy.eventIdNumber (ofLex k).2

/-- The 48 bytes themselves. -/
def RetentionKey.encode (k : RetentionKey) : Bytes :=
  BigEndian.encode 16 (((ofLex k).1 % 2 ^ 128).toNat ^^^ (1 <<< 127)) ++
    (BigEndian.encode 16 (ofLex (ofLex k).2).1 ++ BigEndian.encode 16 (ofLex (ofLex k).2).2)

/-- `key_at_distance`, at a distance of 256 bits. -/
def RetentionPolicy.keyAtDistance (p : RetentionPolicy) (event : EventId) (distance contentLen : ℕ)
    (effectiveTimestamp : Timestamp) : RetentionKey :=
  toLex (p.keyTicksAtDistance (RetentionPolicy.fraction distance) contentLen effectiveTimestamp, event)

namespace Simulation

/-- High and low marks. -/
structure Budget where
  high : ℕ
  low : ℕ
  highPos : 0 < high
  lowLt : low < high

def Budget.new (high low : ℕ) : Option Budget :=
  if h : 0 < high ∧ low < high then some ⟨high, low, h.1, h.2⟩ else none

/-- A retained event; who is protected is decided elsewhere. -/
structure Candidate where
  event : EventId
  author : RostraId
  contentLen : ℕ
  effectiveTimestamp : Timestamp
  firstMaterialized : Option Timestamp
  isProtected : Bool

structure Outcome where
  evicted : List EventId
  retainedBytes : ℕ
  unmetAuthors : Finset RostraId
  unmetGlobal : Bool

/-- How the simulation ends without an outcome. -/
inductive Stop
  /-- It returns `None`: an event id occurs twice. -/
  | duplicate
  /-- `.expect("Author counted")`. -/
  | panic
  deriving DecidableEq

variable [Primitives]

/-- `RetentionPolicy::key`. -/
def keyOf (policy : RetentionPolicy) (holder : RostraId) (c : Candidate) : RetentionKey :=
  toLex (policy.keyTicksAtDistance
    (Primitives.eventCoordinate c.event ^^^ Primitives.holderCoordinate holder) c.contentLen
    c.effectiveTimestamp, c.event)

/-- What the first loop collects. -/
structure Counted where
  ids : Finset EventId := ∅
  usage : Table RostraId ℕ := ∅
  ranked : List (RetentionKey × Candidate) := []
  total : ℕ := 0

def eligible (policy : RetentionPolicy) (now : Timestamp) (c : Candidate) : Bool :=
  !c.isProtected && decide (c.contentLen ≠ 0) && policy.graceElapsed c.firstMaterialized now

def countStep (policy : RetentionPolicy) (holder : RostraId) (now : Timestamp) (s : Counted)
    (c : Candidate) : Except Stop Counted :=
  if c.event ∈ s.ids then .error .duplicate
  else .ok
    { ids := insert c.event s.ids
      usage := s.usage.insert c.author ((s.usage.get c.author).getD 0 + c.contentLen)
      total := s.total + c.contentLen
      ranked := if eligible policy now c then s.ranked ++ [(keyOf policy holder c, c)]
        else s.ranked }

/-- What the two eviction loops change. -/
structure Evicting where
  usage : Table RostraId ℕ
  total : ℕ
  evicted : List EventId := []
  removed : Finset EventId := ∅

/-- Take one candidate out. -/
def Evicting.evict (s : Evicting) (c : Candidate) (bytes : ℕ) : Evicting where
  usage := s.usage.insert c.author (bytes - c.contentLen)
  total := s.total - c.contentLen
  evicted := s.evicted ++ [c.event]
  removed := insert c.event s.removed

def authorStep (triggered : Finset RostraId) (low : ℕ) (s : Evicting) (c : Candidate) :
    Except Stop Evicting :=
  match s.usage.get c.author with
  | none => .error .panic
  | some bytes =>
    if c.author ∈ triggered ∧ low < bytes then .ok (s.evict c bytes) else .ok s

/-- The global loop breaks at the low mark and passes over what is gone. -/
def globalLoop (low : ℕ) : Evicting → List Candidate → Except Stop Evicting
  | s, [] => .ok s
  | s, c :: cs =>
    if s.total ≤ low then .ok s
    else if c.event ∈ s.removed then globalLoop low s cs
    else match s.usage.get c.author with
      | none => .error .panic
      | some bytes => globalLoop low (s.evict c bytes) cs

/-- The global loop runs if the total is above the high mark when the authors are done. -/
def globalPass (budget : Budget) (s : Evicting) (ranked : List Candidate) : Except Stop Evicting :=
  if budget.high < s.total then globalLoop budget.low s ranked else .ok s

def simulate (policy : RetentionPolicy) (holder : RostraId) (now : Timestamp)
    (candidates : List Candidate) (authorBudget globalBudget : Budget) : Except Stop Outcome := do
  let counted ← candidates.foldlM (countStep policy holder now) {}
  let ranked := (counted.ranked.mergeSort fun a b => decide (a.1 ≤ b.1)).map Prod.snd
  let triggered := counted.usage.keys.filter fun author =>
    authorBudget.high < (counted.usage.get author).getD 0
  let between ← ranked.foldlM (authorStep triggered authorBudget.low)
    ⟨counted.usage, counted.total, [], ∅⟩
  let s ← globalPass globalBudget between ranked
  return {
    evicted := s.evicted
    retainedBytes := s.total
    unmetAuthors := triggered.filter fun author => authorBudget.low < (s.usage.get author).getD 0
    unmetGlobal := decide (globalBudget.high < between.total) &&
      decide (globalBudget.low < s.total) }

/-! The same loops with checked subtractions: an underflow is a panic. -/

def Evicting.evictChecked (s : Evicting) (c : Candidate) (bytes : ℕ) : Except Stop Evicting :=
  if c.contentLen ≤ bytes ∧ c.contentLen ≤ s.total then .ok (s.evict c bytes) else .error .panic

def authorStepChecked (triggered : Finset RostraId) (low : ℕ) (s : Evicting) (c : Candidate) :
    Except Stop Evicting :=
  match s.usage.get c.author with
  | none => .error .panic
  | some bytes => if c.author ∈ triggered ∧ low < bytes then s.evictChecked c bytes else .ok s

def globalLoopChecked (low : ℕ) : Evicting → List Candidate → Except Stop Evicting
  | s, [] => .ok s
  | s, c :: cs =>
    if s.total ≤ low then .ok s
    else if c.event ∈ s.removed then globalLoopChecked low s cs
    else match s.usage.get c.author with
      | none => .error .panic
      | some bytes => do
        let s ← s.evictChecked c bytes
        globalLoopChecked low s cs

def simulateChecked (policy : RetentionPolicy) (holder : RostraId) (now : Timestamp)
    (candidates : List Candidate) (authorBudget globalBudget : Budget) : Except Stop Outcome := do
  let counted ← candidates.foldlM (countStep policy holder now) {}
  let ranked := (counted.ranked.mergeSort fun a b => decide (a.1 ≤ b.1)).map Prod.snd
  let triggered := counted.usage.keys.filter fun author =>
    authorBudget.high < (counted.usage.get author).getD 0
  let between ← ranked.foldlM (authorStepChecked triggered authorBudget.low)
    ⟨counted.usage, counted.total, [], ∅⟩
  let s ← if globalBudget.high < between.total then globalLoopChecked globalBudget.low between ranked
    else .ok between
  return {
    evicted := s.evicted
    retainedBytes := s.total
    unmetAuthors := triggered.filter fun author => authorBudget.low < (s.usage.get author).getD 0
    unmetGlobal := decide (globalBudget.high < between.total) &&
      decide (globalBudget.low < s.total) }

end Simulation

end Rostra
