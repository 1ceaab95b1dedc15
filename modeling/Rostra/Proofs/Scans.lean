/-
# Walks over the retention index

What a demand turn and a pressure step have in common: a frontier that is kept over many turns, one row at a
time, and the promise that the row it stops at is the least one that may be released.

* `DueIn` is a payload of a scope that may be released now, `LeastDue` one that no other of the scope ranks
  below.  Both speak of the events and their origins, not of the index.
* When selection is ready, every such payload has its row in the ordered index of its scope (`DueIn.row`),
  and a row is rejected exactly when it is not due yet (`candidateCurrent_eq`).
* `ScanSound` is the invariant of a stored frontier: at its own revision it has passed nothing that is due
  before its retry time.  It survives everything that leaves the rows alone, and a frontier that was
  brought up to date stops at the least payload that is due.
-/
import Rostra.Lib.Frontier
import Rostra.Db.Upkeep
import Rostra.Proofs.Retention

namespace Rostra.Db

open Rostra Outcome

/-! ## 1. Rows of a scope

A scope is an author or the database. Both orders have the same keys, so a walk is the same in both. -/

section Rows

variable {r r' : RetentionIndex} {scope : Option RostraId} {key : ℕ} {id : ShortEventId}

theorem mem_scopeKeys : key ∈ scopeKeys r scope ↔ ∃ id, scopeRow r scope key = some id := by
  cases scope with
  | none => exact Table.mem_keys
  | some author =>
    unfold scopeKeys scopeRow
    rw [Finset.mem_image]
    constructor
    · rintro ⟨⟨a, k⟩, hmem, rfl⟩
      obtain ⟨hkey, rfl⟩ := Finset.mem_filter.mp hmem
      exact Table.mem_keys.mp hkey
    · rintro ⟨id, hid⟩
      exact ⟨(author, key), Finset.mem_filter.mpr ⟨Table.mem_keys.mpr ⟨id, hid⟩, rfl⟩, rfl⟩

/-- When a row of a scope becomes due. -/
def dueAt (r : RetentionIndex) (scope : Option RostraId) (key : ℕ) : ℕ :=
  ((scopeRow r scope key).bind r.reverse.get).elim 0 (·.eligibleAt)

/-- An ordered row has a promoted owner with its key. -/
theorem IndexOwned.scopeRow_entry (ho : IndexOwned r) (h : scopeRow r scope key = some id) :
    ∃ entry, r.reverse.get id = some entry ∧ entry.promoted = true ∧ entry.key = key ∧
      ∀ a, scope = some a → entry.author = a := by
  cases scope with
  | none =>
    obtain ⟨entry, hrow, hkey⟩ := Option.bind_eq_some_iff.mp ((ho.global id key).mpr h)
    unfold globalKey at hkey
    split at hkey
    · next hp => exact ⟨entry, hrow, hp, Option.some.inj hkey, fun a ha => by cases ha⟩
    · cases hkey
  | some author =>
    obtain ⟨entry, hrow, hkey⟩ := Option.bind_eq_some_iff.mp ((ho.author id (author, key)).mpr h)
    unfold authorKey at hkey
    split at hkey
    · next hp =>
      obtain ⟨rfl, rfl⟩ := Prod.mk.inj (Option.some.inj hkey)
      exact ⟨entry, hrow, hp, rfl, fun a ha => Option.some.inj ha⟩
    · cases hkey

/-- A promoted entry has its rows in both orders. -/
theorem IndexOwned.promoted_rows (ho : IndexOwned r) {entry : IndexEntry}
    (hrow : r.reverse.get id = some entry) (hp : entry.promoted = true) :
    r.global.get entry.key = some id ∧ r.author.get (entry.author, entry.key) = some id := by
  constructor
  · refine (ho.global id entry.key).mp ?_
    simp [hrow, globalKey, hp]
  · refine (ho.author id (entry.author, entry.key)).mp ?_
    simp [hrow, authorKey, hp]

theorem dueAt_eq {entry : IndexEntry} (h : scopeRow r scope key = some id)
    (hrow : r.reverse.get id = some entry) : dueAt r scope key = entry.eligibleAt := by
  rw [dueAt, h, Option.bind_some, hrow]
  rfl

theorem sameRows_iff : sameRows r r' = true ↔ r'.reverse = r.reverse ∧ r'.global = r.global ∧
    r'.author = r.author ∧ r'.grace = r.grace ∧ r'.state.map (·.generation) = r.state.map (·.generation) := by
  simp [sameRows, and_assoc]

/-- Walks see the rows and nothing else. -/
theorem scopeRow_congr (h : sameRows r r' = true) (scope : Option RostraId) :
    scopeRow r' scope = scopeRow r scope := by
  obtain ⟨-, hglobal, hauthor, -⟩ := sameRows_iff.mp h
  funext key
  cases scope with
  | none => exact congrArg (·.get key) hglobal
  | some author => exact congrArg (·.get (author, key)) hauthor

theorem scopeKeys_congr (h : sameRows r r' = true) (scope : Option RostraId) :
    scopeKeys r' scope = scopeKeys r scope := by
  ext key
  rw [mem_scopeKeys, mem_scopeKeys, scopeRow_congr h]

theorem dueAt_congr (h : sameRows r r' = true) (scope : Option RostraId) :
    dueAt r' scope = dueAt r scope := by
  funext key
  rw [dueAt, dueAt, scopeRow_congr h, (sameRows_iff.mp h).1]

variable {s : DemandScan}

theorem nextTx_some (h : s.nextTx r = some (key, id)) :
    Table.nextAfter (scopeKeys r s.author) s.after = some key ∧ scopeRow r s.author key = some id := by
  obtain ⟨k, hnext, hrow⟩ := Option.bind_eq_some_iff.mp h
  obtain ⟨i, hi, heq⟩ := Option.map_eq_some_iff.mp hrow
  cases heq
  exact ⟨hnext, hi⟩

theorem nextTx_none (h : s.nextTx r = none) : Table.nextAfter (scopeKeys r s.author) s.after = none := by
  cases hnext : Table.nextAfter (scopeKeys r s.author) s.after with
  | none => rfl
  | some k =>
    obtain ⟨i, hi⟩ := mem_scopeKeys.mp (Table.nextAfter_mem hnext)
    rw [DemandScan.nextTx, hnext, Option.bind_some, hi] at h
    cases h

end Rows

/-! ## 2. What may be released

`DueIn` is what a selection is meant to find: a definition without rows, cursors or revisions. -/

section Due

variable [Primitives] {D : Set VerifiedEvent} {env : Env} {db : Database}
  {generation : RetentionGeneration} {scope : Option RostraId} {now : Timestamp} {id : ShortEventId}
  {entry : IndexEntry} {key : ℕ}

/-- **A payload of the scope that may be released now**, with its rank. -/
structure DueIn (env : Env) (policy : RetentionPolicy) (db : Database) (scope : Option RostraId)
    (now : Timestamp) (id : ShortEventId) (entry : IndexEntry) : Prop where
  eligible : ∃ e origins first, Eligible env policy db id e origins first ∧
    entry = entryFor env policy e origins first
  due : entry.eligibleAt ≤ now
  inScope : ∀ a, scope = some a → entry.author = a

/-- **The payload of the scope that goes first.** -/
structure LeastDue (env : Env) (policy : RetentionPolicy) (db : Database) (scope : Option RostraId)
    (now : Timestamp) (id : ShortEventId) (entry : IndexEntry) : Prop
    extends DueIn env policy db scope now id entry where
  least : ∀ id' entry', DueIn env policy db scope now id' entry' → entry.key ≤ entry'.key

/-- A complete index of this generation, in a database whose events are those of `D`. -/
structure IndexReady (D : Set VerifiedEvent) (env : Env) (db : Database)
    (generation : RetentionGeneration) : Prop where
  keyed : KeyedBy D db.ev
  indexed : Indexed env db db.retention
  state : db.retention.state = some ⟨generation, .ready⟩

theorem IndexReady.exact (h : IndexReady D env db generation) (id : ShortEventId) :
    RowExact env generation.policy db db.retention id := by
  have hstage := h.indexed.stage _ h.state
  unfold StageExact at hstage
  exact hstage id

theorem IndexReady.holder (h : IndexReady D env db generation) : generation.holder = env.selfId :=
  h.indexed.held _ h.state

/-- The row of an event is the one that its header and origins give. -/
theorem IndexReady.entryOf (h : IndexReady D env db generation) {row : IndexEntry}
    (hrow : db.retention.reverse.get id = some row) :
    ∃ e origins first, Eligible env generation.policy db id e origins first ∧
      { row with promoted := false } = entryFor env generation.policy e origins first := by
  refine (h.exact id _).mp ?_
  rw [rowOf, hrow]
  rfl

omit [Primitives] in
theorem selectionReady_state (h : retentionSelectionReadyTx db.retention generation now = true) :
    db.retention.state = some ⟨generation, .ready⟩ := by
  unfold retentionSelectionReadyTx at h
  cases hstate : db.retention.state with
  | none =>
    rw [hstate] at h
    cases h
  | some record =>
    rw [hstate] at h
    simp only [Bool.and_eq_true, decide_eq_true_eq] at h
    obtain ⟨record, stage⟩ := record
    obtain ⟨⟨rfl, rfl⟩, -⟩ := h
    rfl

/-- Nothing that is due is still in its grace interval. -/
theorem selectionReady_promoted (h : IndexReady D env db generation)
    (hready : retentionSelectionReadyTx db.retention generation now = true) {row : IndexEntry}
    (hrow : db.retention.reverse.get id = some row) (hdue : row.eligibleAt ≤ now) : row.promoted = true := by
  by_contra hp
  have hgrace : toLex (row.eligibleAt, id) ∈ db.retention.grace :=
    (h.indexed.owned.grace _).mpr ⟨id, row, hrow, by simp [graceRow, hp]⟩
  unfold retentionSelectionReadyTx at hready
  rw [h.state] at hready
  simp only [decide_true, Bool.true_and] at hready
  cases hleast : Table.least db.retention.grace with
  | none =>
    rw [Table.least_none hleast] at hgrace
    cases hgrace
  | some first =>
    rw [hleast] at hready
    have hlt : now < (ofLex first).1 := by simpa using hready
    have hle : first ≤ toLex (row.eligibleAt, id) := Table.least_le hleast hgrace
    have hfst : (ofLex first).1 ≤ row.eligibleAt := by
      rcases (Prod.Lex.le_iff.mp hle) with hlt' | ⟨heq, -⟩
      · exact hlt'.le
      · exact heq.le
    exact absurd (hlt.trans_le (hfst.trans hdue)) (Nat.lt_irrefl _)

/-- **What is due is in the ordered index**, at its own key. -/
theorem DueIn.row (h : DueIn env generation.policy db scope now id entry)
    (hi : IndexReady D env db generation)
    (hready : retentionSelectionReadyTx db.retention generation now = true) :
    scopeRow db.retention scope entry.key = some id ∧ dueAt db.retention scope entry.key ≤ now := by
  obtain ⟨row, hrow, heq⟩ := Option.map_eq_some_iff.mp ((hi.exact id entry).mpr h.eligible)
  have hkey : row.key = entry.key := by rw [← heq]
  have hauthor : row.author = entry.author := by rw [← heq]
  have hat : row.eligibleAt = entry.eligibleAt := by rw [← heq]
  have hp := selectionReady_promoted hi hready hrow (hat ▸ h.due)
  obtain ⟨hglobal, hinAuthor⟩ := hi.indexed.owned.promoted_rows hrow hp
  have hscope : scopeRow db.retention scope entry.key = some id := by
    cases scope with
    | none => rw [scopeRow, ← hkey, hglobal]
    | some a =>
      rw [scopeRow, ← h.inScope a rfl, ← hauthor, ← hkey, hinAuthor]
  exact ⟨hscope, by rw [dueAt_eq hscope hrow, hat]; exact h.due⟩

/-- **A row that is due** may be released. -/
theorem IndexReady.dueIn (h : IndexReady D env db generation)
    (hrow : scopeRow db.retention scope key = some id) (hdue : dueAt db.retention scope key ≤ now) :
    ∃ entry, entry.key = key ∧ DueIn env generation.policy db scope now id entry := by
  obtain ⟨row, hrev, hp, hkey, hauthor⟩ := h.indexed.owned.scopeRow_entry hrow
  rw [dueAt_eq hrow hrev] at hdue
  exact ⟨{ row with promoted := false }, hkey, h.entryOf hrev, hdue, hauthor⟩

/-- Deriving the entry of an indexed row gives that row. -/
theorem IndexReady.derived (h : IndexReady D env db generation) {row : IndexEntry} {e : Event}
    (hrow : db.retention.reverse.get id = some row) (he : db.ev.events.get id = some e) :
    deriveRetentionEntryTx env db generation id = .ok (some ({ row with promoted := false }, computeId e)) := by
  obtain ⟨e', origins, first, hel, heq⟩ := h.entryOf hrow
  obtain rfl := Option.some.inj (he.symm.trans hel.stored)
  have hprocessed : db.ev.eventsContentState.get id = none := classOf_eq_current.mp hel.processed
  have hid : (VerifiedEvent.ofEvent e).id = id := h.keyed.id_eq he
  have hdeadline : ¬u64Max < first + generation.policy.graceSeconds := Nat.not_lt.mpr hel.deadline
  rw [heq]
  unfold deriveRetentionEntryTx
  simp [h.holder, hel.stored, hprocessed, hel.received, hel.materialized, hid, hdeadline, hel.remote, hel.kind,
    hel.nonempty.ne', pure, Except.pure, entryFor]
  exact ⟨rfl, rfl⟩

/-- **A row is rejected exactly when it is not due yet.** -/
theorem IndexReady.candidateCurrent (h : IndexReady D env db generation) {e : Event}
    (hrow : scopeRow db.retention scope key = some id) (he : db.ev.events.get id = some e) :
    retentionCandidateCurrentTx env db generation
        { event := computeId e, author := e.author, key := key } (.trusted now) =
      .ok (decide (dueAt db.retention scope key ≤ now)) := by
  obtain ⟨row, hrev, hp, hkey, -⟩ := h.indexed.owned.scopeRow_entry hrow
  obtain ⟨hglobal, hauthor⟩ := h.indexed.owned.promoted_rows hrev hp
  have hid : (computeId e).toShort = id := h.keyed.id_eq he
  obtain ⟨e', origins, first, hel, heq⟩ := h.entryOf hrev
  obtain rfl := Option.some.inj (he.symm.trans hel.stored)
  have hrowAuthor : row.author = e.author := congrArg IndexEntry.author heq
  unfold retentionCandidateCurrentTx
  rw [h.state]
  dsimp only
  rw [if_neg (by simp), hid, h.derived hrev he, dueAt_eq hrow hrev]
  have hback : ({ row with promoted := true } : IndexEntry) = row := by rw [← hp]
  by_cases hdue : row.eligibleAt ≤ now
  · simp [bind, Except.bind, pure, Except.pure, hrowAuthor, hkey, Nat.not_lt.mpr hdue, hrev, hdue]
    rw [hkey] at hglobal hauthor
    rw [← hrowAuthor, ← hkey]
    exact ⟨⟨hback.symm, hkey ▸ hglobal⟩, hkey ▸ hauthor⟩
  · simp [bind, Except.bind, pure, Except.pure, hrowAuthor, hkey, Nat.not_le.mp hdue, hdue]

/-- **What a walk learns about a row**: its event is stored, and it may be released or will be later. -/
theorem IndexReady.visited (h : IndexReady D env db generation)
    (hrow : scopeRow db.retention scope key = some id) (now : Timestamp) :
    ∃ e entry, db.ev.events.get id = some e ∧ (computeId e).toShort = id ∧
      retentionCandidateCurrentTx env db generation
        { event := computeId e, author := e.author, key := key } (.trusted now) =
          .ok (decide (dueAt db.retention scope key ≤ now)) ∧
      deriveRetentionEntryTx env db generation id = .ok (some (entry, computeId e)) ∧
      entry.eligibleAt = dueAt db.retention scope key := by
  obtain ⟨row, hrev, -⟩ := h.indexed.owned.scopeRow_entry hrow
  obtain ⟨e, origins, first, hel, -⟩ := h.entryOf hrev
  exact ⟨e, _, hel.stored, h.keyed.id_eq hel.stored, h.candidateCurrent hrow hel.stored,
    h.derived hrev hel.stored, (dueAt_eq hrow hrev).symm⟩

/-! ## 3. Stored frontiers

Three things can outdate a frontier: rows that were written, time that has passed, and another generation of the
index. -/

/-- **What a frontier must know to be resumed.** -/
structure ScanSound (r : RetentionIndex) (revision : ℕ) (s : DemandScan) : Prop where
  known : s.revision ≤ revision
  passed : s.revision = revision →
    Frontier.Passed (scopeKeys r s.author) (dueAt r s.author) s.after s.retryAt

/-- A frontier that may be walked on now. -/
structure ScanReady (r : RetentionIndex) (revision : ℕ) (scope : Option RostraId) (now : Timestamp)
    (s : DemandScan) : Prop where
  revision : s.revision = revision
  author : s.author = scope
  passed : Frontier.Passed (scopeKeys r scope) (dueAt r scope) s.after s.retryAt
  waiting : ∀ t, s.retryAt = some t → now < t

variable {r r' : RetentionIndex} {revision revision' : ℕ} {s : DemandScan}

omit [Primitives] in
theorem ScanReady.sound (h : ScanReady r revision scope now s) : ScanSound r revision s :=
  ⟨h.revision.le, fun _ => by rw [h.author]; exact h.passed⟩

omit [Primitives] in
theorem scanReady_new (r : RetentionIndex) (revision : ℕ) (scope : Option RostraId) (now : Timestamp) :
    ScanReady r revision scope now (.new revision scope now) :=
  ⟨rfl, rfl, Frontier.passed_start _ _ _, fun t h => by cases h⟩

omit [Primitives] in
/-- **Bringing a frontier up to date.** -/
theorem ScanSound.prepare (h : ScanSound r revision s) (scope : Option RostraId) (now : Timestamp) :
    ScanReady r revision scope now (s.prepare revision scope now) := by
  unfold DemandScan.prepare
  dsimp only
  split
  · have hnew := scanReady_new r revision scope now
    exact ⟨hnew.revision, hnew.author, hnew.passed, hnew.waiting⟩
  · next hstale =>
    simp only [Bool.or_eq_true, decide_eq_true_eq, not_or, not_not, Option.any_eq_true, not_exists,
      not_and] at hstale
    obtain ⟨⟨⟨hrevision, hauthor⟩, -⟩, hretry⟩ := hstale
    refine ⟨hrevision, hauthor, ?_, fun t ht => Nat.not_le.mp (hretry t ht)⟩
    have hpassed := h.passed hrevision
    rw [hauthor] at hpassed
    exact hpassed

omit [Primitives] in
/-- A frontier is good, or out of date, after any transaction that raised the revision with the rows. -/
theorem ScanSound.congr (h : ScanSound r revision s) (hle : revision ≤ revision')
    (hrows : revision' = revision → sameRows r r' = true) : ScanSound r' revision' s := by
  refine ⟨h.known.trans hle, fun heq => ?_⟩
  have hrevision : revision' = revision := le_antisymm (heq ▸ h.known) hle
  have hsame := hrows hrevision
  rw [scopeKeys_congr hsame, dueAt_congr hsame]
  exact h.passed (heq.trans hrevision)

omit [Primitives] in
/-- A later time is noted. -/
theorem ScanReady.noteRetry (h : ScanReady r revision scope now s) {t : Timestamp} (hlater : now < t) :
    ScanReady r revision scope now (s.noteRetry t) := by
  refine ⟨h.revision, h.author, fun k hk hpassed => ?_, fun t' ht' => ?_⟩
  · obtain ⟨t', ht', hle⟩ := h.passed k hk hpassed
    exact ⟨_, rfl, (Frontier.earliest_le_old ht' t).trans hle⟩
  · obtain rfl : Frontier.earliest s.retryAt t = t' := Option.some.inj ht'
    cases hretry : s.retryAt with
    | none => exact hlater
    | some t' => exact lt_min (h.waiting t' hretry) hlater

omit [Primitives] in
/-- **A row that is not due is skipped.** -/
theorem ScanReady.skip (h : ScanReady r revision scope now s)
    (hnext : Table.nextAfter (scopeKeys r scope) s.after = some key) (hlater : now < dueAt r scope key) :
    ScanReady r revision scope now { s.noteRetry (dueAt r scope key) with after := some key } :=
  ⟨h.revision, h.author, h.passed.skip hnext, (h.noteRetry hlater).waiting⟩

/-- **The row where a walk stops** is the least payload of its scope that may be released. -/
theorem ScanReady.leastDue (h : ScanReady db.retention revision scope now s)
    (hi : IndexReady D env db generation)
    (hready : retentionSelectionReadyTx db.retention generation now = true)
    (hnext : Table.nextAfter (scopeKeys db.retention scope) s.after = some key)
    (hrow : scopeRow db.retention scope key = some id) (hdue : dueAt db.retention scope key ≤ now) :
    ∃ entry, entry.key = key ∧ LeastDue env generation.policy db scope now id entry := by
  obtain ⟨entry, hkey, hdueIn⟩ := hi.dueIn hrow hdue
  refine ⟨entry, hkey, hdueIn, fun id' entry' h' => ?_⟩
  obtain ⟨hrow', hdue'⟩ := h'.row hi hready
  rw [hkey]
  exact h.passed.least h.waiting hnext (mem_scopeKeys.mpr ⟨id', hrow'⟩) hdue'

/-- At the end of a walk the scope has nothing to release. -/
theorem ScanReady.noneDue (h : ScanReady db.retention revision scope now s)
    (hi : IndexReady D env db generation)
    (hready : retentionSelectionReadyTx db.retention generation now = true)
    (hnext : Table.nextAfter (scopeKeys db.retention scope) s.after = none) (id : ShortEventId)
    (entry : IndexEntry) : ¬DueIn env generation.policy db scope now id entry := by
  intro hdueIn
  obtain ⟨hrow, hdue⟩ := hdueIn.row hi hready
  exact absurd hdue (Nat.not_le.mpr (h.passed.none_due h.waiting hnext (mem_scopeKeys.mpr ⟨id, hrow⟩)))

end Due

end Rostra.Db
