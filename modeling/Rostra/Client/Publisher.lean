/-
# Between a commit and its hooks

A database handle commits a transaction, and then runs its hooks one after the other.  Tasks of the
client run in between: they can see new tables and old watches.  The publisher lock lets no transaction
begin before the hooks of the last one have run.
-/
import Rostra.Db.Signals
import Rostra.Lib.Broadcast

namespace Rostra.Client

open Rostra Db

/-- `broadcast::channel(100)`: the size of a ring is rounded up to a power of two. -/
def BROADCAST_PLACES : ℕ := 128

/-- An open database, with the hooks that have still to run and the watches as the last hook has left them. -/
structure Publisher where
  db : Database
  hooks : List Signal := []
  watches : Watches

/-- `open_inner`: nothing is underway, and the watches show the tables. -/
def Publisher.open (env : Env) (db : Database) : Publisher := ⟨db, [], readWatches env db⟩

/-- What a hook writes to a watch; other hooks only send. -/
def published : Signal → Option Publication
  | .publish value => some value
  | _ => none

/-- The next hook runs. It writes at most one watch, and the tables are not touched. -/
def Publisher.publish (p : Publisher) : Option (Signal × Publisher) :=
  match p.hooks with
  | [] => none
  | s :: hooks =>
    some (s, { p with hooks := hooks, watches := (published s).elim p.watches p.watches.publish })

variable [Primitives]

/-- A transaction commits, when no hook is left to run. One that fails leaves no hooks and is no step. -/
def Publisher.commit (env : Env) (p : Publisher) (op : Op) : Option Publisher :=
  if p.hooks = [] then
    match step env p.db op with
    | .ok db => some { p with db := db, hooks := signals env p.db op }
    | .error _ => none
  else none

end Rostra.Client
