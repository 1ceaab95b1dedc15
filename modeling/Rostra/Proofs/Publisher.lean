/-
# Watches between a commit and its hooks

While hooks are outstanding a task can see tables that the watches do not show yet.  What it can rely on
is that the outstanding hooks make up for the difference (`Publisher.Current`): a watch that is behind
its table has a publication coming.

The values that are shown are patched, except for the web of trust, which is replaced as a whole. For the patched
ones one would have to say which outstanding hook repairs what; for the one that is replaced it is enough that some
outstanding hook replaces it. This is the only watch that the tasks of the client compare with the tables, and
`selfWot` is all that they use.

The hooks run in order and one at a time, and no commit comes in between, so the outstanding ones are always a back
part of those of the last commit.
-/
import Rostra.Client.Publisher
import Rostra.Proofs.Watches

namespace Rostra.Client

open Rostra Db Outcome

/-! ## 1. The publications among the hooks

A watch cares for its own hooks. Picking these out of the hooks of a transaction commutes with everything that a
transaction does to its hooks. -/

section Registry

variable [Primitives] {H K : Type} {g : Registry H} {k : Registry K} {f : H → Option K}

/-- One registry has the hooks of another that `f` picks. -/
structure Picks (f : H → Option K) (g : Registry H) (k : Registry K) : Prop where
  event : ∀ db v, (g.event db v).filterMap f = k.event db v
  content : ∀ db c now ledger buffer,
    (g.content db c now ledger buffer).filterMap f = k.content db c now ledger buffer

theorem Picks.carried (h : Picks f g k) (env : Env) (db : Database) (c : VerifiedEventContent)
    (now : Timestamp) (ledger : AdmissionState) (buffer : Option PayloadBuffer) :
    (g.carried env db c now ledger buffer).filterMap f = k.carried env db c now ledger buffer := by
  unfold Registry.carried
  rw [List.filterMap_append, h.event]
  cases processEventTx env {} db c.event now (.pushed none none) with
  | error e => rfl
  | ok r => simp only [h.content]

theorem Picks.ingest (h : Picks f g k) (env : Env) (ds : List Delivery) : ∀ db : Database,
    (g.ingest env db ds).filterMap f = k.ingest env db ds := by
  induction ds with
  | nil => exact fun _ => rfl
  | cons d ds ih =>
    intro db
    unfold Registry.ingest
    rw [List.filterMap_append]
    have hd : (g.delivery env db d).filterMap f = k.delivery env db d := by
      cases d with
      | envelope v now source => exact h.event db v
      | payload c now ledger => exact h.carried env db c now ledger none
    rw [hd]
    cases deliver env db d with
    | error e => rfl
    | ok db' => simp only [ih db']

theorem Picks.materializeStored (h : Picks f g k) (db : Database) (id : ShortEventId)
    (now : Timestamp) (ledger : AdmissionState) :
    (g.materializeStored db id now ledger).filterMap f = k.materializeStored db id now ledger := by
  unfold Registry.materializeStored
  cases db.ev.events.get id with
  | none => rfl
  | some e =>
    dsimp only
    split
    · rfl
    cases admitMaterializationTx db (VerifiedEvent.ofEvent e) none ledger with
    | error err => rfl
    | ok admitted =>
      dsimp only
      cases reservePayloadAllocation admitted.2 e.contentLen with
      | error reason => rfl
      | ok s =>
        dsimp only
        cases (db.ev.contentStore.get e.contentHash).bind fun b =>
            VerifiedEventContent.verify (VerifiedEvent.ofEvent e) (some b) with
        | none => rfl
        | some c => exact h.content _ _ _ _ _

theorem Picks.commit (h : Picks f g k) (env : Env) (db : Database) (op : Op) :
    (g.commit env db op).filterMap f = k.commit env db op := by
  cases op with
  | ingest ds => exact h.ingest env ds db
  | ingestAdmitted c now ledger buffer => exact h.carried env db c now ledger buffer
  | materializeStored id now ledger => exact h.materializeStored db id now ledger
  | _ => rfl

end Registry

section Publications

variable [Primitives]

theorem picks_published (env : Env) :
    Picks published (signalRegistry env) (watchRegistry env) where
  event := by
    intro db v
    show (eventSignals env db v).filterMap published = eventHooks env db v
    unfold eventSignals eventHooks
    cases insertEventTx db.ev v with
    | error e => rfl
    | ok r =>
      obtain ⟨ev, o⟩ := r
      cases o with
      | alreadyPresent => rfl
      | inserted wasMissing isDeleted parent reverted missingParents =>
        dsimp only
        rw [List.filterMap_append, List.filterMap_append]
        have hhead : (if !isDeleted && !wasMissing then [Signal.newHead v.event.author v.id]
            else []).filterMap published = [] := by
          split
          · rfl
          · rfl
        have hmissing : (if missingParents ≠ [] then [Signal.missingEvents v.event.author]
            else []).filterMap published = [] := by
          split
          · rfl
          · rfl
        rw [hhead, hmissing, List.nil_append, List.append_nil]
        split
        · rfl
        · rfl
  content := by
    intro db c now ledger buffer
    show (contentSignals env db c now ledger buffer).filterMap published =
      eventContentHooks env db c ledger buffer
    unfold contentSignals eventContentHooks
    split
    · rfl
    split
    · cases admitMaterializationTx db c.event buffer ledger with
      | error e => rfl
      | ok admitted =>
        cases c.content with
        | none => rfl
        | some b =>
          dsimp only
          rw [List.filterMap_append, List.filterMap_map]
          have hhooks : (contentInsertedHooks env db.proj c.toEventContent).filterMap
              (published ∘ Signal.publish) = contentInsertedHooks env db.proj c.toEventContent :=
            List.filterMap_some
          rw [hhooks]
          cases processEventContentInsertedTx env {} db.proj c.toEventContent now with
          | ok p => exact List.append_nil _
          | error e => exact List.append_nil _
    · rfl

/-- The publications of a transaction are those that the watches were shown to need. -/
theorem signals_publishes {env : Env} {db db' : Database} {op : Op} (h : step env db op = .ok db') :
    Publishes env db ((signals env db op).filterMap published) db' := by
  have hsame : (signals env db op).filterMap published = commitHooks env db op :=
    ((picks_published env).commit env db op).trans (commitHooks_eq env db op).symm
  rw [hsame]
  exact (step_publishes env db op).of_ok h

end Publications

/-! ## 2. A watch that is behind

The watch of the web of trust is replaced as a whole, so that the last outstanding publication decides. -/

/-- A hook that replaces the web of trust. -/
def Signal.IsWot (s : Signal) : Prop := ∃ value, s = .publish (.wot value)

theorem selfWot_publish (hooks : List Signal) : ∀ w : Watches, (∀ s ∈ hooks, ¬Signal.IsWot s) →
    ((hooks.filterMap published).foldl Watches.publish w).selfWot = w.selfWot := by
  induction hooks with
  | nil => exact fun _ _ => rfl
  | cons s hooks ih =>
    intro w hno
    have hrest := fun w => ih w fun s hs => hno s (List.mem_cons_of_mem _ hs)
    cases s with
    | publish value =>
      rw [List.filterMap_cons]
      simp only [published, List.foldl_cons]
      rw [hrest]
      cases value with
      | wot value => exact absurd ⟨value, rfl⟩ (hno _ List.mem_cons_self)
      | _ => rfl
    | _ => exact hrest w

/-- **The outstanding hooks make up for the difference.** -/
def Publisher.Current (env : Env) (p : Publisher) : Prop :=
  (p.hooks.filterMap published).foldl Watches.publish p.watches = readWatches env p.db

namespace Publisher.Current

variable {env : Env} {p p' : Publisher}

theorem opened (env : Env) (db : Database) : (Publisher.open env db).Current env := rfl

/-- The web of trust that is shown is that of the tables, or it will be replaced. -/
theorem selfWot (h : p.Current env) :
    p.watches.selfWot = (readWatches env p.db).selfWot ∨ ∃ s ∈ p.hooks, Signal.IsWot s := by
  by_cases hwot : ∃ s ∈ p.hooks, Signal.IsWot s
  · exact .inr hwot
  · push Not at hwot
    exact .inl (by rw [← h, selfWot_publish _ _ hwot])

theorem publish {s : Signal} (h : p.Current env) (hp : p.publish = some (s, p')) :
    p'.Current env ∧ p'.db = p.db ∧ p.hooks = s :: p'.hooks ∧
      p'.watches = (published s).elim p.watches p.watches.publish := by
  unfold Publisher.publish at hp
  cases hh : p.hooks with
  | nil =>
    rw [hh] at hp
    cases hp
  | cons t hooks =>
    rw [hh] at hp
    cases hp
    refine ⟨?_, rfl, rfl, rfl⟩
    unfold Current at *
    rw [hh, List.filterMap_cons] at h
    cases ht : published s with
    | none =>
      rw [ht] at h
      exact h
    | some value =>
      rw [ht] at h
      exact h

variable [Primitives]

/-- A commit has hooks for whatever it changes. -/
theorem commit {op : Op} (h : p.Current env) (hp : p.commit env op = some p') :
    p'.Current env ∧ p.hooks = [] ∧ p'.hooks = signals env p.db op ∧
      step env p.db op = .ok p'.db ∧ p'.watches = p.watches := by
  unfold Publisher.commit at hp
  split at hp
  · next hhooks =>
    split at hp
    · next db hok =>
      cases hp
      refine ⟨?_, hhooks, rfl, hok, rfl⟩
      unfold Current at *
      rw [hhooks] at h
      have hwatches : p.watches = readWatches env p.db := h
      show ((signals env p.db op).filterMap published).foldl Watches.publish p.watches = _
      rw [hwatches]
      exact signals_publishes hok
    · cases hp
  · cases hp

end Publisher.Current

end Rostra.Client
