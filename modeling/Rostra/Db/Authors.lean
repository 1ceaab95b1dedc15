/-
# Scans for authors

The two tables that are keyed by an author and an event, and the scans over their authors that
background tasks page through (`tx_ops.rs`).  A page is the first authors after an exclusive cursor,
`(author, ShortEventId::MAX)` in the source; a scan reads one committed state.
-/
import Rostra.Lib.Pages
import Rostra.Db.Tables

namespace Rostra.Db

open Rostra

/-- `get_missing_events_for_id`. -/
def getMissingEventsForIdTx (t : EventTables) (author : RostraId) : Finset ShortEventId :=
  (t.eventsMissing.keys.filter fun k => k.1 = author).image Prod.snd

/-- The authors with a row in `events_missing`. -/
def missingAuthors (t : EventTables) : Finset RostraId := t.eventsMissing.keys.image Prod.fst

def getIdsWithMissingEventsTx (t : EventTables) (after : Option RostraId) (limit : ℕ) :
    List RostraId := Pages.pageAfter t.eventsMissing.keys after limit

/-- The author of the last row: how far a pass over the table has to go. -/
def getLastIdWithMissingEventsTx (t : EventTables) : Option RostraId :=
  Table.greatest (missingAuthors t)

/-- `get_heads`. -/
def getHeadsEventsTx (t : EventTables) (author : RostraId) : Finset ShortEventId :=
  (t.eventsHeads.filter fun k => k.1 = author).image Prod.snd

/-- The authors with a head. -/
def headAuthors (t : EventTables) : Finset RostraId := t.eventsHeads.image Prod.fst

def getIdsWithHeadsTx (t : EventTables) (after : Option RostraId) (limit : ℕ) : List RostraId :=
  Pages.pageAfter t.eventsHeads after limit

end Rostra.Db
