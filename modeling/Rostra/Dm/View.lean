/-
# Reading direct messages

`dm_history_with` (`dm.rs`) and `dm_conversations` (`dm_view.rs`): the conversation index is read in the order of
its keys, and each row is resolved in the history.

A key of the index is an ordered pair of participants, then the age of a message.  Tables of the store are
ordered like their keys; the model keeps the key of this table as a plain tuple, so its order is given here
(`ConversationKey.order`).
-/
import Rostra.Dm.History

namespace Rostra.Dm

open Rostra

/-- The keys of the index in the order of the table. -/
abbrev ConversationOrder := RostraId ×ₗ RostraId ×ₗ Timestamp ×ₗ ShortEventId

def ConversationKey.order (k : ConversationKey) : ConversationOrder :=
  toLex (k.1, toLex (k.2.1, toLex (k.2.2.1, k.2.2.2)))

def ConversationOrder.key (k : ConversationOrder) : ConversationKey :=
  ((ofLex k).1, (ofLex (ofLex k).2).1, (ofLex (ofLex (ofLex k).2).2).1, (ofLex (ofLex (ofLex k).2).2).2)

/-- `ShortEventId::MAX`: 16 bytes. -/
def shortEventIdMax : ShortEventId := 2 ^ 128 - 1

/-- `index.range(..)`: the rows whose keys are in a range, in the order of the keys. -/
def conversationRange (t : DmTables) (p : ConversationOrder → Bool) : List (ConversationKey × MessageKey) :=
  (((t.historyByConversation.keys.image ConversationKey.order).filter fun k => p k = true).sort (· ≤ ·)).filterMap
    fun k => (t.historyByConversation.get (ConversationOrder.key k)).map (ConversationOrder.key k, ·)

/-- A row of the index has a row of the history. -/
def historyOf (t : DmTables) (row : ConversationKey × MessageKey) : HistoryResult HistoryEntry :=
  match t.history.get row.2 with
  | some entry => .ok entry
  | none => .error .invalid

/-- The first key of a pair, and the last one. -/
def pairLower (first second : RostraId) : ConversationOrder := ConversationKey.order (first, second, 0, 0)

def pairUpper (first second : RostraId) : ConversationOrder :=
  ConversationKey.order (first, second, u64Max, shortEventIdMax)

/-- The range of a page. -/
def historyBounds (first second : RostraId) (before : Option (Timestamp × ShortEventId)) (k : ConversationOrder) :
    Bool :=
  decide (pairLower first second ≤ k) &&
    match before with
    | none => decide (k ≤ pairUpper first second)
    | some (timestamp, event) => decide (k < ConversationKey.order (first, second, timestamp, event))

/-- A newest-first page of the messages with one peer. -/
def dmHistoryWith (t : DmTables) (selfId peer : RostraId) (before : Option (Timestamp × ShortEventId)) (limit : ℕ) :
    HistoryResult (List HistoryEntry) :=
  let limit := min limit 101
  if limit = 0 then .ok []
  else
    ((conversationRange t (historyBounds (min selfId peer) (max selfId peer) before)).reverse.take limit).mapM (historyOf t)

/-- The loop of `dm_conversations`: two seeks for each conversation. -/
def conversationsLoop (t : DmTables) : ℕ → Option ConversationOrder → List HistoryEntry →
    HistoryResult (List HistoryEntry)
  | 0, _, entries => .ok entries
  | n + 1, lower, entries =>
    match (conversationRange t fun k => lower.all fun l => decide (l < k)).head? with
    | none => .ok entries
    | some ((first, second, _, _), _) =>
      let upper := pairUpper first second
      match (conversationRange t fun k => decide (pairLower first second ≤ k) && decide (k ≤ upper)).getLast? with
      | none => .error .invalid
      | some row => do
        let entry ← historyOf t row
        conversationsLoop t n (some upper) (entries ++ [entry])

/-- At most 64 conversations in the order of their participants. -/
def dmConversations (t : DmTables) (after : Option (RostraId × RostraId)) (limit : ℕ) :
    HistoryResult (List HistoryEntry) :=
  conversationsLoop t (min limit 64) (after.map fun pair => pairUpper pair.1 pair.2) []

end Rostra.Dm
