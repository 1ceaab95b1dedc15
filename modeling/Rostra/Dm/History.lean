/-
# Direct-message history and read markers

`dm_receive.rs`, `dm_view.rs` and `dm_migration.rs`, as far as the retained plaintext goes: storing
one authenticated message, marking arrivals as read, counting what is unread, and rebuilding the
derived tables from the retained ones.

* `history` is kept for good.  A second body under a known `(sender, message_id)` never replaces
  the first; a different one only sets its `conflicted` mark.
* A message to this account gets the next local sequence.  Four tables say so: by sequence, by peer
  and sequence, from the message back to its sequence, and a count for each peer.
* Read markers belong to a browser session; two tables count them.

Trial decryption, admission and the event tables are elsewhere: whatever they let through arrives
here as a body with the event it came from.
-/
import Mathlib.Data.Finset.Sort
import Rostra.Core.Event
import Rostra.Lib.Outcome
import Rostra.Lib.Table

namespace Rostra.Dm

open Rostra

/-- 16 random bytes, as the number they spell. -/
abbrev MessageId := ℕ

/-- The cookie of one browser session, 16 bytes. -/
abbrev Session := ℕ

/-- The deduplication key `(sender, message_id)`. -/
abbrev MessageKey := RostraId ×ₗ MessageId

def MessageKey.sender (k : MessageKey) : RostraId := (ofLex k).1

structure MessageBody where
  sender : RostraId
  recipient : RostraId
  messageId : MessageId
  text : Text

structure HistoryEntry where
  sender : RostraId
  recipient : RostraId
  messageId : MessageId
  /-- The first authenticated content under this identifier. -/
  text : Text
  eventId : ShortEventId
  timestamp : Timestamp
  /-- A different body reused the identifier. -/
  conflicted : Bool
  deriving DecidableEq

/-- The two participants in order, then the age of the message. -/
abbrev ConversationKey := RostraId × RostraId × Timestamp × ShortEventId

/-- The tables of this part of the schema. -/
structure DmTables where
  idsSelf : Option RostraId := none
  history : Table MessageKey HistoryEntry := ∅
  historyByConversation : Table ConversationKey MessageKey := ∅
  incoming : Table ℕ MessageKey := ∅
  incomingByPeer : Table (RostraId × ℕ) MessageKey := ∅
  incomingSequence : Table MessageKey ℕ := ∅
  incomingCountByPeer : Table RostraId ℕ := ∅
  read : Finset (Session × ℕ) := ∅
  readCount : Table Session ℕ := ∅
  readCountByPeer : Table (Session × RostraId) ℕ := ∅

inductive HistoryError
  /-- `rostra_dm::Error::Invalid`. -/
  | invalid
  | overflow
  deriving DecidableEq

abbrev HistoryResult := Except HistoryError

def u64Max : ℕ := 2 ^ 64 - 1

/-- `n.checked_add(1).ok_or(Overflow)`. -/
def checkedSucc (n : ℕ) : HistoryResult ℕ := if n < u64Max then .ok (n + 1) else .error .overflow

/-- Count one more row under a key. -/
def incrementTx {K : Type} [DecidableEq K] (counts : Table K ℕ) (k : K) :
    HistoryResult (Table K ℕ) := do
  let count ← checkedSucc ((counts.get k).getD 0)
  pure (counts.insert k count)

/-! ## 1. Storing a message

The first body under a key stays. -/

def MessageBody.key (b : MessageBody) : MessageKey := toLex (b.sender, b.messageId)

def HistoryEntry.conversation (e : HistoryEntry) : ConversationKey :=
  (min e.sender e.recipient, max e.sender e.recipient, e.timestamp, e.eventId)

/-- The rows of one incoming message that has its sequence. -/
def indexIncomingTx (t : DmTables) (sender : RostraId) (key : MessageKey) (sequence : ℕ) :
    HistoryResult DmTables := do
  let counts ← incrementTx t.incomingCountByPeer sender
  pure { t with
    incoming := t.incoming.insert sequence key
    incomingByPeer := t.incomingByPeer.insert (sender, sequence) key
    incomingSequence := t.incomingSequence.insert key sequence
    incomingCountByPeer := counts }

def lastSequence (t : DmTables) : ℕ := (Table.greatest t.incoming.keys).getD 0

def dmStoreHistoryTx (t : DmTables) (body : MessageBody) (eventId : ShortEventId)
    (timestamp : Timestamp) : HistoryResult DmTables :=
  match t.history.get body.key with
  | some previous =>
    if previous.recipient ≠ body.recipient ∨ previous.text ≠ body.text then
      .ok { t with history := t.history.insert body.key { previous with conflicted := true } }
    else .ok t
  | none =>
    match t.idsSelf with
    | none => .error .invalid
    | some selfId =>
      let entry : HistoryEntry :=
        ⟨body.sender, body.recipient, body.messageId, body.text, eventId, timestamp, false⟩
      let t := { t with
        historyByConversation := t.historyByConversation.insert entry.conversation body.key
        history := t.history.insert body.key entry }
      if body.recipient = selfId then do
        let sequence ← checkedSucc (lastSequence t)
        indexIncomingTx t body.sender body.key sequence
      else .ok t

/-! ## 2. Reading

Markers of a session, and the counts that are shown. -/

/-- `dm_count_unread`: a difference of two counters, cut off at `limit`. -/
def dmCountUnread (t : DmTables) (session : Session) (peer : Option RostraId) (limit : ℕ) : ℕ :=
  match peer with
  | some peer =>
    min ((t.incomingCountByPeer.get peer).getD 0 - (t.readCountByPeer.get (session, peer)).getD 0)
      limit
  | none => min (lastSequence t - (t.readCount.get session).getD 0) limit

/-- One sequence of the call; what is marked already is passed over. -/
def markReadTx (session : Session) (s : DmTables × ℕ) (sequence : ℕ) :
    HistoryResult (DmTables × ℕ) :=
  let (t, marked) := s
  if (session, sequence) ∈ t.read then .ok s
  else match t.incoming.get sequence with
    | none => .error .invalid
    | some key =>
      match t.history.get key with
      | none => .error .invalid
      | some entry => do
        let total ← incrementTx t.readCount session
        let byPeer ← incrementTx t.readCountByPeer (session, entry.sender)
        pure ({ t with
          read := insert (session, sequence) t.read
          readCount := total
          readCountByPeer := byPeer }, marked + 1)

/-- A call looks at no more sequences than this. -/
def DM_MARK_READ_MAX : ℕ := 100

def dmMarkRead (t : DmTables) (session : Session) (sequences : List ℕ) :
    HistoryResult (DmTables × ℕ) :=
  (sequences.take DM_MARK_READ_MAX).foldlM (markReadTx session) (t, 0)

/-! ## 3. Rebuilding

The derived tables again, from the history and the sequences that are known. -/

/-- One retained message: its sequence is kept, or it takes the next one. -/
def rebuildEntryTx (selfId : RostraId) (s : DmTables × ℕ) (key : MessageKey) :
    HistoryResult (DmTables × ℕ) :=
  let (t, next) := s
  match t.history.get key with
  | none => .ok s
  | some entry =>
    let t := { t with
      historyByConversation := t.historyByConversation.insert entry.conversation key }
    if entry.recipient = selfId then
      match t.incomingSequence.get key with
      | some sequence => do
        let t ← indexIncomingTx t entry.sender key sequence
        pure (t, next)
      | none => do
        let t ← indexIncomingTx t entry.sender key next
        pure (t, min u64Max (next + 1))
    else .ok (t, next)

/-- The greatest sequence that was ever given. -/
def greatestSequence (t : DmTables) : ℕ :=
  (Table.greatest (t.incomingSequence.keys.image fun k => (t.incomingSequence.get k).getD 0)).getD 0

/-- `rebuild_dm_history_index_tx`: the history in the order of its keys. -/
def rebuildDmHistoryIndexTx (t : DmTables) : HistoryResult DmTables :=
  match t.idsSelf with
  | none => .error .invalid
  | some selfId => do
    let next ← checkedSucc (greatestSequence t)
    let cleared := { t with
      historyByConversation := ∅, incoming := ∅, incomingByPeer := ∅, incomingCountByPeer := ∅ }
    let (t, _) ← (t.history.keys.sort (· ≤ ·)).foldlM (rebuildEntryTx selfId) (cleared, next)
    pure t

def DM_SCHEMA_VERSION : ℕ := 32

/-- Total migration: what the source version had is carried over, the rest is rebuilt. -/
def migrateDmTx (t : DmTables) (sourceVer : ℕ) : HistoryResult DmTables :=
  if sourceVer < DM_SCHEMA_VERSION then .ok { idsSelf := t.idsSelf }
  else if sourceVer < 33 then
    rebuildDmHistoryIndexTx { idsSelf := t.idsSelf, history := t.history }
  else rebuildDmHistoryIndexTx
    { idsSelf := t.idsSelf
      history := t.history
      incomingSequence := t.incomingSequence
      read := t.read
      readCount := t.readCount
      readCountByPeer := t.readCountByPeer }

/-! ## 4. Transactions

All of them, as one step function. -/

inductive DmOp
  /-- A message of this account or to it, from wherever it came. -/
  | store (body : MessageBody) (eventId : ShortEventId) (timestamp : Timestamp)
  | markRead (session : Session) (sequences : List ℕ)
  | rebuild
  | migrate (sourceVer : ℕ)

def dmStep (t : DmTables) : DmOp → HistoryResult DmTables
  | .store body eventId timestamp => dmStoreHistoryTx t body eventId timestamp
  | .markRead session sequences => do
    let (t, _) ← dmMarkRead t session sequences
    pure t
  | .rebuild => rebuildDmHistoryIndexTx t
  | .migrate sourceVer => migrateDmTx t sourceVer

/-- The tables of a new account after a run. -/
def dmReached (selfId : RostraId) (ops : List DmOp) : DmTables :=
  Outcome.run dmStep { idsSelf := some selfId } ops

end Rostra.Dm
