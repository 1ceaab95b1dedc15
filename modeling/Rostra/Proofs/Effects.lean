/-
# What a transaction does to the whole database

`Rules` follows the event tables through a transaction and forgets the rest.  This file keeps the
rest: what an envelope, a payload and a quota release do to headers, states, store AND projections.

* `EnvelopeEffect` and `PayloadEffect` describe one delivery, with the projection work as equations
  that later files open only when they need them.
* `DbEffect` lists everything a transaction can be made of.  Every step is a sequence of such
  effects (`step_effects`), and the event invariants hold between any two of them, so an invariant
  of the whole database is one case for each effect (`reached_invariant`).

Bookkeeping (`accounting`, `retention`) is described as an arbitrary change: nothing in the other
tables is derived from it.

The description is meant to be used from outside. An invariant that speaks of several groups of tables at once, of
posts and their bytes for instance, has its cases here; one that speaks of the event tables alone is better shown
by the rule in `Rules`, and one that speaks of the bookkeeping by the one in `Pieces`.
-/
import Mathlib.Logic.Relation
import Rostra.Proofs.Rules

namespace Rostra.Db

open Rostra Outcome

variable [Primitives]

/-! ## 1. Lineage, as a function

Three places of the code record that a post replaces another one, and they do so by the same function of the header
and the content. -/

/-- The event that a readable nonblank edit replaces. -/
def lineageOf (c : EventContent) : Option ShortEventId :=
  if c.event.event.kind = EventKind.SOCIAL_POST ∧ c.event.event.contentLen < MAX_CONTENT_LEN then
    c.socialPost?.bind (socialPostReplacedEventId c)
  else none

/-- The tables with the two rows of an edit, if the payload is one. -/
def withLineage (p : Projections) (c : EventContent) : Projections :=
  match lineageOf c with
  | some oldEventId => insertSocialPostReplacementTx p c oldEventId
  | none => p

/-- The stored bytes as a payload of `v`, when they are its own. -/
def storedContent (t : EventTables) (v : VerifiedEvent) : Option VerifiedEventContent :=
  (t.contentStore.get v.event.contentHash).bind fun b => VerifiedEventContent.verify v (some b)

/-- A payload for deleted content adds its lineage, and cannot fail. -/
theorem deletedLineageTx_eq (p : Projections) (c : EventContent) :
    deletedLineageTx p c = .ok (withLineage p c) := by
  unfold deletedLineageTx processDeletedSocialPostReplacementTx withLineage lineageOf
  by_cases hk : c.event.event.kind = EventKind.SOCIAL_POST ∧ c.event.event.contentLen < MAX_CONTENT_LEN
  · rw [if_pos hk, if_neg (by rw [not_or, not_not, not_le]; exact hk)]
    cases hp : c.socialPost? with
    | none => rfl
    | some post =>
      cases hr : socialPostReplacedEventId c post with
      | none => simp [decodeOr, hr, bind, Except.bind, pure, Except.pure]
      | some old => simp [decodeOr, hr, bind, Except.bind, pure, Except.pure]
  · rw [if_neg hk, if_pos (by rw [not_and_or, not_lt] at hk; exact hk)]

/-- So does a header that arrives deleted and finds its own bytes. -/
theorem insertedLineageTx_eq (t : EventTables) (p : Projections) (v : VerifiedEvent)
    (isDeleted : Bool) :
    insertedLineageTx t p v isDeleted = .ok (if isDeleted then
      (storedContent t v).elim p fun c => withLineage p c.toEventContent else p) := by
  have hretained : retainedLineageTx t p v =
      .ok ((storedContent t v).elim p fun c => withLineage p c.toEventContent) := by
    unfold retainedLineageTx storedContent
    cases hb : t.contentStore.get v.event.contentHash with
    | none => rfl
    | some b =>
      simp only [Option.bind_some]
      cases hc : VerifiedEventContent.verify v (some b) with
      | none => rfl
      | some c =>
        -- the two entry points differ only in the order of their arms
        have h := deletedLineageTx_eq p c.toEventContent
        unfold deletedLineageTx at h
        simp only [Option.elim_some]
        cases hr : processDeletedSocialPostReplacementTx p c.toEventContent with
        | ok r =>
          rw [hr] at h
          exact h
        | error e =>
          rw [hr] at h
          cases e with
          | db e => exact h
          | invalid => exact h
  unfold insertedLineageTx
  cases isDeleted with
  | true => exact hretained
  | false => rfl

/-! ## 2. An envelope

The transaction of an envelope has three parts: the header, what follows from its content and its parent, and what
may be pruned in the end. The effect names the state after each of them. -/

/-- From the inserted header to the end of its transaction: own content may be pruned, because it is
oversized or because a quota decision was restored. -/
structure Finished (decided : Prop) (t t' : EventTables) (v : VerifiedEvent) : Prop where
  events : t'.events = t.events
  store : t'.contentStore = t.contentStore
  state : t'.eventsContentState = t.eventsContentState ∨
    ((contentClass t v.id).referenced = true ∧ (MAX_CONTENT_LEN ≤ v.event.contentLen ∨ decided) ∧
      t'.eventsContentState = t.eventsContentState.insert v.id .pruned)

theorem Finished.refl (decided : Prop) (t : EventTables) (v : VerifiedEvent) :
    Finished decided t t v := ⟨rfl, rfl, .inl rfl⟩

/-- Content is pruned once. -/
theorem Finished.prune {decided : Prop} {t t' t'' : EventTables} {v : VerifiedEvent}
    (h : Finished decided t t' v) (hp : PruneEffect t' v.id t'')
    (hwhy : MAX_CONTENT_LEN ≤ v.event.contentLen ∨ decided) : Finished decided t t'' v := by
  cases hp with
  | kept _ h' =>
    rw [h']
    exact h
  | pruned href rc u h' =>
    subst h'
    refine ⟨h.events, h.store, ?_⟩
    rcases h.state with hst | ⟨-, -, hst⟩
    · rw [contentClass, hst] at href
      exact .inr ⟨href, hwhy, by rw [← hst]⟩
    · rw [contentClass, hst, Table.get_insert_self] at href
      cases href

theorem Finished.schedule {decided : Prop} {t t' : EventTables} {v : VerifiedEvent}
    (h : Finished decided t t' v) : Finished decided t (ensureMissingScheduledTx t' v.id) v := by
  obtain ⟨q, hq⟩ := ensureMissingScheduledTx_effect t' v.id
  rw [hq]
  exact ⟨h.events, h.store, h.state⟩

/-- The projections after a new header: its lineage when it arrives deleted, then the reversal of
the parent it deletes. -/
def arrivedProjections (t : EventTables) (p : Projections) (v : VerifiedEvent) (isDeleted : Bool)
    (deletedParent : Option ShortEventId) (reverted : Option Bytes) : DbResult Projections :=
  revertDeletedTx t (if isDeleted then
    (storedContent t v).elim p fun c => withLineage p c.toEventContent else p) deletedParent reverted

/-- **What an envelope does.** It is known already, or it is new; then its header is stored, the content of one
parent may be deleted, and the content of one event may be pruned. -/
inductive EnvelopeEffect (db : Database) (v : VerifiedEvent) (db' : Database) : Prop
  | present (e : Event) (he : db.ev.events.get v.id = some e) (t₁ : EventTables)
      (ht₁ : t₁ = { db.ev with idsFull := t₁.idsFull }) (hfin : Finished False t₁ db'.ev v)
      (hproj : db'.proj = db.proj) (hquota : db'.quotaPruned = db.quotaPruned)
  | new (hnew : db.ev.events.get v.id = none) (t₁ : EventTables) (isDeleted : Bool)
      (deletedParent : Option ShortEventId) (reverted : Option Bytes)
      (hins : Inserted db.ev t₁ v isDeleted deletedParent reverted)
      (hfin : Finished ((db.quotaPruned.get v.id).isSome = true) t₁ db'.ev v) (next : Option ℕ)
      (hproj : arrivedProjections t₁ { db.proj with receptionOrderNext := next } v isDeleted
        deletedParent reverted = .ok db'.proj) (hquota : db'.quotaPruned = db.quotaPruned)

/-- Afterwards the header is stored under its id. -/
theorem EnvelopeEffect.stored {D : Set VerifiedEvent} {db db' : Database} {v : VerifiedEvent}
    (h : EnvelopeEffect db v db') (hk : KeyedBy D db.ev) (hcf : CollisionFree D) (hv : v ∈ D) :
    db'.ev.events.get v.id = some v.event := by
  cases h with
  | present e he t₁ ht₁ hfin hproj hquota =>
    rw [hfin.events, ht₁]
    exact he.trans (congrArg some (hk.event_eq hcf hv he))
  | new hnew t₁ isD dp rev hins hfin next hproj hquota =>
    rw [hfin.events, hins.events, Table.get_insert_self]

/-- A header that is already there, and whose content is not oversized, changes no state. -/
theorem EnvelopeEffect.state_kept {db db' : Database} {v : VerifiedEvent}
    (h : EnvelopeEffect db v db') {e : Event} (he : db.ev.events.get v.id = some e)
    (hlen : v.event.contentLen < MAX_CONTENT_LEN) :
    db'.ev.eventsContentState = db.ev.eventsContentState := by
  cases h with
  | present e' he' t₁ ht₁ hfin hproj hquota =>
    rcases hfin.state with hst | ⟨-, hwhy | hwhy, -⟩
    · rw [hst, ht₁]
    · omega
    · exact hwhy.elim
  | new hnew t₁ isD dp rev hins hfin next hproj hquota =>
    rw [hnew] at he
    cases he

theorem applyQuotaDecisionTx_finished (db : Database) (v : VerifiedEvent) :
    Ensures (applyQuotaDecisionTx db v)
      (fun t => Finished ((db.quotaPruned.get v.id).isSome = true) db.ev t v) (fun _ => True) := by
  unfold applyQuotaDecisionTx
  split
  · next hq =>
    refine (pruneEventContentTx_effect db.ev v.id v.event).bind fun r hr => ?_
    exact (Finished.refl _ _ _).prune hr (.inr hq)
  · exact Finished.refl _ _ _

theorem settleContentTx_finished {decided : Prop} {t t' : EventTables} {v : VerifiedEvent}
    (h : Finished decided t t' v) (o : InsertEventOutcome) :
    Ensures (settleContentTx t' v o) (fun r => Finished decided t r.1 v) (fun _ => True) := by
  unfold settleContentTx
  split
  · exact h
  split
  · next hlen =>
    refine (pruneEventContentTx_effect t' v.id v.event).bind fun r hr => ?_
    exact h.prune hr (.inl hlen)
  split
  · exact h
  · exact h

/-- What a new header does beyond the event tables. -/
theorem afterInsertTx_effect (env : Env) (ctx : TxCtx) (db : Database) (v : VerifiedEvent)
    (now : Timestamp) (source : EventReceivedSource) (isD : Bool) (dp : Option ShortEventId)
    (rev : Option Bytes) :
    Ensures (afterInsertTx env ctx db v now source isD dp rev) (fun db' => ∃ next,
      Finished ((db.quotaPruned.get v.id).isSome = true) db.ev db'.ev v ∧
      arrivedProjections db.ev { db.proj with receptionOrderNext := next } v isD dp rev =
        .ok db'.proj ∧ db'.quotaPruned = db.quotaPruned) (fun _ => True) := by
  unfold afterInsertTx
  refine (applyQuotaDecisionTx_finished db v).bind fun t hfin => ?_
  refine (ensures_true _).bind fun ⟨_, next, received⟩ _ => ?_
  refine Ensures.bind ((ensures_self _).mono (fun _ h => h) fun _ _ => trivial) fun p' hp' => ?_
  refine Ensures.bind ((ensures_self _).mono (fun _ h => h) fun _ _ => trivial) fun p hp => ?_
  refine ⟨next, hfin, ?_, rfl⟩
  rw [insertedLineageTx_eq] at hp'
  cases hp'
  unfold arrivedProjections storedContent revertDeletedTx revertedContent
  rw [← hfin.store, ← hfin.events]
  exact hp

theorem processEventInnerTx_effect (env : Env) (ctx : TxCtx) (db : Database) (v : VerifiedEvent)
    (now : Timestamp) (source : EventReceivedSource) :
    Ensures (processEventInnerTx env ctx db v now source) (fun r => EnvelopeEffect db v r.1)
      (fun _ => True) := by
  unfold processEventInnerTx
  refine (insertEventTx_effect db.ev v).bind fun ⟨t₁, o⟩ hins => ?_
  cases hins with
  | present e he hreg ht ho =>
    obtain rfl : o = _ := ho
    refine Ensures.bind (P := fun db₂ => db₂ = { db with ev := t₁ }) (ensures_ok.mpr rfl)
      fun db₂ h₂ => ?_
    subst h₂
    refine (settleContentTx_finished (.refl False t₁ v) _).bind fun r₃ h₃ => ?_
    exact EnvelopeEffect.present e he t₁ ht h₃ rfl rfl
  | new hnew hreg wm isD dp rev mp h ho =>
    obtain rfl : o = _ := ho
    refine (afterInsertTx_effect env ctx { db with ev := t₁ } v now source isD dp rev).bind
      fun db₂ ⟨next, hfin, hproj, hquota⟩ => ?_
    refine (settleContentTx_finished hfin _).bind fun r₃ h₃ => ?_
    exact EnvelopeEffect.new hnew t₁ isD dp rev h h₃ next hproj hquota

theorem processEventTx_effect (env : Env) (ctx : TxCtx) (db : Database) (v : VerifiedEvent)
    (now : Timestamp) (source : EventReceivedSource) :
    Ensures (processEventTx env ctx db v now source) (fun r => EnvelopeEffect db v r.1)
      (fun _ => True) := by
  unfold processEventTx
  refine (ensures_true _).bind fun before _ => ?_
  refine (processEventInnerTx_effect env ctx db v now source).bind fun r hr => ?_
  refine ((payloadAfterTx_ensures env r.1 before).mono (fun _ h => h) fun _ _ => trivial).bind
    fun db' ⟨a, x, hdb'⟩ => ?_
  subst hdb'
  cases hr with
  | present e he t₁ ht₁ hfin hproj hquota =>
    exact EnvelopeEffect.present e he t₁ ht₁ hfin.schedule hproj hquota
  | new hnew t₁ isD dp rev hins hfin next hproj hquota =>
    exact EnvelopeEffect.new hnew t₁ isD dp rev hins hfin.schedule next hproj hquota

/-! ## 3. A payload

A payload for a header may be supplied to deleted content, materialized, found invalid, or be of no use any more;
there are no other cases. -/

/-- **What a payload does** to the header stored under its id. It is idle, or supplies the lineage of deleted
content, or is processed, whether it is valid or not. -/
inductive PayloadEffect (env : Env) (ctx : TxCtx) (db : Database) (c : VerifiedEventContent)
    (now : Timestamp) : Database → Prop
  /-- Oversized, or neither awaited nor deleted. -/
  | idle (h : MAX_CONTENT_LEN ≤ c.event.event.contentLen ∨ c.content = none ∨
      (contentClass db.ev c.event.id ≠ .missing ∧ contentClass db.ev c.event.id ≠ .deleted)) :
      PayloadEffect env ctx db c now db
  | processed (b : Bytes) (hb : c.content = some b) (hm : contentClass db.ev c.event.id = .missing)
      (hlen : c.event.event.contentLen < MAX_CONTENT_LEN) (p : Projections)
      (hp : processEventContentInsertedTx env ctx db.proj c.toEventContent now = .ok p)
      (u : UsageTable) :
      PayloadEffect env ctx db c now { db with
        ev := { unscheduled db.ev c.event.id with
          contentStore := if (db.ev.contentStore.get c.event.event.contentHash).isNone then
              db.ev.contentStore.insert c.event.event.contentHash b
            else db.ev.contentStore
          eventsContentState := db.ev.eventsContentState.remove c.event.id
          idsDataUsage := u }
        proj := p
        origins := recordMaterializedTx ctx db.origins c.event.id now }
  | rejected (b : Bytes) (hb : c.content = some b) (hm : contentClass db.ev c.event.id = .missing)
      (hlen : c.event.event.contentLen < MAX_CONTENT_LEN)
      (hp : processEventContentInsertedTx env ctx db.proj c.toEventContent now = .error .invalid)
      (rc : Table ContentHash ℕ) (u : UsageTable) :
      PayloadEffect env ctx db c now { db with
        ev := { unscheduled db.ev c.event.id with
          eventsContentState := db.ev.eventsContentState.insert c.event.id .invalid
          contentRc := rc
          idsDataUsage := u } }
  /-- Lineage and nothing else. -/
  | deleted (b : Bytes) (hb : c.content = some b) (hd : contentClass db.ev c.event.id = .deleted)
      (hlen : c.event.event.contentLen < MAX_CONTENT_LEN) :
      PayloadEffect env ctx db c now { db with proj := withLineage db.proj c.toEventContent }

/-- Awaited content ends processed or invalid. -/
theorem PayloadEffect.class_of_missing {env : Env} {ctx : TxCtx} {db db' : Database}
    {c : VerifiedEventContent} {now : Timestamp} (h : PayloadEffect env ctx db c now db')
    (hm : contentClass db.ev c.event.id = .missing) (hpos : 0 < c.event.event.contentLen)
    (hlen : c.event.event.contentLen < MAX_CONTENT_LEN) :
    contentClass db'.ev c.event.id = .current ∨ contentClass db'.ev c.event.id = .invalid := by
  cases h with
  | idle h =>
    obtain ⟨b, hb⟩ := c.content_isSome hpos
    rcases h with h | h | ⟨h, -⟩
    · omega
    · rw [hb] at h
      cases h
    · exact absurd hm h
  | processed b hb _ _ p hp u => exact .inl (by simp [contentClass, classOf])
  | rejected b hb _ _ hp rc u => exact .inr (by simp [contentClass, classOf])
  | deleted b hb hd _ =>
    rw [hm] at hd
    cases hd

/-- The bookkeeping of a database may have changed. -/
def Booked (db db' : Database) : Prop :=
  ∃ a r, db' = { db with accounting := a, retention := r }

theorem materializeTx_effect {env : Env} {ctx : TxCtx} {db : Database} {c : VerifiedEventContent}
    (hm : contentClass db.ev c.event.id = .missing) (hpos : 0 < c.event.event.contentLen)
    (hlen : c.event.event.contentLen < MAX_CONTENT_LEN) (now : Timestamp) :
    Ensures (materializeTx env ctx db c now) (PayloadEffect env ctx db c now) (fun _ => True) := by
  obtain ⟨b, hb⟩ := c.content_isSome hpos
  unfold materializeTx
  simp only [hb]
  split
  · next p hp =>
    refine (storeContentTx_effect _ _ b).bind fun ev hev => ?_
    obtain ⟨u, rfl⟩ := hev
    exact .processed b hb hm hlen p hp u
  · next hp =>
    refine (rejectContentTx_effect _ _).bind fun ev hev => ?_
    obtain ⟨rc, u, rfl⟩ := hev
    exact .rejected b hb hm hlen hp rc u
  · trivial

theorem supplyDeletedTx_effect {env : Env} {ctx : TxCtx} {db : Database} {c : VerifiedEventContent}
    (hm : contentClass db.ev c.event.id ≠ .missing)
    (hlen : c.event.event.contentLen < MAX_CONTENT_LEN) (now : Timestamp) :
    Ensures (supplyDeletedTx db c) (PayloadEffect env ctx db c now) (fun _ => True) := by
  unfold supplyDeletedTx
  split
  · next d b hd hb =>
    rw [deletedLineageTx_eq]
    exact .deleted b hb (classOf_eq_deleted.mpr ⟨d, hd⟩) hlen
  · next hno =>
    refine .idle ?_
    cases hb : c.content with
    | none => exact .inr (.inl rfl)
    | some b =>
      refine .inr (.inr ⟨hm, fun hd => ?_⟩)
      obtain ⟨d, hst⟩ := classOf_eq_deleted.mp hd
      exact hno d b hst hb

/-- For a stored header, a payload does one of the four things. -/
theorem processEventContentInnerTx_effect {D : Set VerifiedEvent} {env : Env} {ctx : TxCtx}
    {db : Database} (hg : Grounded D db.ev) {c : VerifiedEventContent}
    (hc : db.ev.events.get c.event.id = some c.event.event) (now : Timestamp)
    (ledger : AdmissionState) (buffer : Option PayloadBuffer) :
    Ensures (processEventContentInnerTx env ctx db c now ledger buffer)
      (PayloadEffect env ctx db c now) (fun _ => True) := by
  unfold processEventContentInnerTx
  split
  · next h =>
    refine .idle (.inl ?_)
    rw [hc] at h
    simpa using h
  next h =>
  rw [not_or, not_le] at h
  split
  · next hm =>
    have hm' := (canInsertEventContentTx_eq _ _).mp hm
    exact (ensures_true _).bind fun _ _ =>
      materializeTx_effect hm' (hg.nonempty _ hm' _ hc) h.2 now
  · next hm =>
    refine supplyDeletedTx_effect (fun hm' => hm ?_) h.2 now
    exact (canInsertEventContentTx_eq _ _).mpr hm'

/-- And the bookkeeping follows. -/
theorem processEventContentTx_effect {D : Set VerifiedEvent} {env : Env} {ctx : TxCtx}
    {db : Database} (hg : Grounded D db.ev) {c : VerifiedEventContent}
    (hc : db.ev.events.get c.event.id = some c.event.event) (now : Timestamp)
    (ledger : AdmissionState) (buffer : Option PayloadBuffer) :
    Ensures (processEventContentTx env ctx db c now ledger buffer)
      (fun db' => ∃ db₁, PayloadEffect env ctx db c now db₁ ∧ Booked db₁ db') (fun _ => True) := by
  unfold processEventContentTx
  refine (ensures_true _).bind fun before _ => ?_
  refine (processEventContentInnerTx_effect hg hc now ledger buffer).bind fun db₁ h₁ => ?_
  refine (payloadAfterTx_ensures env db₁ before).mono (fun db' h => ⟨db₁, h₁, h⟩) fun _ _ => trivial

/-! ## 4. Everything a transaction is made of

`DbEffect` collects the effects. From each follow the edges of the lifecycle that it can take, and from the edges
everything that is monotone: in particular that content which is gone stays gone. -/

/-- The schedule moved, the lifecycle did not. -/
structure Rescheduled (t t' : EventTables) : Prop where
  events : t'.events = t.events
  store : t'.contentStore = t.contentStore
  classes : ∀ id, contentClass t' id = contentClass t id

/-- One effect on the database. -/
inductive DbEffect (env : Env) (D : Set VerifiedEvent) (db : Database) : Database → Prop
  | envelope {v : VerifiedEvent} {db' : Database} (hv : v ∈ D) (h : EnvelopeEffect db v db') :
      DbEffect env D db db'
  | payload {c : VerifiedEventContent} {now : Timestamp} {db' : Database} (hc : c.event ∈ D)
      (hst : db.ev.events.get c.event.id = some c.event.event)
      (h : PayloadEffect env {} db c now db') : DbEffect env D db db'
  | released {id : ShortEventId} {e : Event} {target : QuotaPruneTarget} {p : Projections}
      {t : EventTables} (he : db.ev.events.get id = some e)
      (hmatch : targetMatches target (db.ev.eventsContentState.get id) = true)
      (hkind : e.kind = EventKind.SOCIAL_POST) (hlen : 0 < e.contentLen)
      (hp : dematerializeTx db (.ofEvent e) target = .ok p) (ht : PruneEffect db.ev id t)
      (decisions : Table ShortEventId QuotaPruneDecision) :
      DbEffect env D db { db with ev := t, proj := p, quotaPruned := decisions }
  | scheduled {t : EventTables} (h : Rescheduled db.ev t) : DbEffect env D db { db with ev := t }
  | collected {h : ContentHash} (hrc : db.ev.contentRc.get h = none) :
      DbEffect env D db
        { db with ev := { db.ev with contentStore := db.ev.contentStore.remove h } }
  | booked {db' : Database} (h : Booked db db') : DbEffect env D db db'
  | ranked (postId : ExternalEventId) (now : Timestamp) :
      DbEffect env D db { db with proj := (recalculateNewsPostScoreTx db.proj postId now).1 }

/-- The edges of the lifecycle: awaited content is settled, referenced content is pruned, and anything
is deleted. -/
def Edge (k k' : PayloadBucket) : Prop :=
  k' = k ∨ k' = .deleted ∨ (k' = .pruned ∧ k.referenced = true) ∨
    (k = .missing ∧ (k' = .current ∨ k' = .invalid))

omit [Primitives] in
theorem PruneEffect.edges {t t' : EventTables} {id : ShortEventId} (h : PruneEffect t id t')
    (id' : ShortEventId) : Edge (contentClass t id') (contentClass t' id') := by
  cases h with
  | kept _ h =>
    rw [h]
    exact .inl rfl
  | pruned href rc u h =>
    rw [h]
    by_cases hid : id' = id
    · subst hid
      exact .inr (.inr (.inl ⟨by simp [contentClass, classOf], href⟩))
    · exact .inl (by rw [contentClass, Table.get_insert_of_ne _ _ hid, contentClass])

theorem Finished.edges {decided : Prop} {t t' : EventTables} {v : VerifiedEvent}
    (h : Finished decided t t' v) (id : ShortEventId) :
    contentClass t' id = contentClass t id ∨ id = v.id ∧ contentClass t' id = .pruned ∧
      (contentClass t id).referenced = true := by
  rcases h.state with hst | ⟨href, -, hst⟩
  · exact .inl (by rw [contentClass, hst, contentClass])
  · by_cases hid : id = v.id
    · subst hid
      exact .inr ⟨rfl, by simp [contentClass, hst, classOf], href⟩
    · exact .inl (by rw [contentClass, hst, Table.get_insert_of_ne _ _ hid, contentClass])

/-- **What an envelope does to the events that are here**: the parent it deletes is its author's, and every other
one keeps its class. -/
theorem EnvelopeEffect.edges {db db' : Database} {v : VerifiedEvent} (h : EnvelopeEffect db v db')
    {id : ShortEventId} {e : Event} (he : db.ev.events.get id = some e) :
    db'.ev.events.get id = some e ∧ Edge (contentClass db.ev id) (contentClass db'.ev id) ∧
      (id ≠ v.id → e.author ≠ v.event.author → db'.ev.eventsContentState.get id =
        db.ev.eventsContentState.get id) := by
  cases h with
  | present e' he' t₁ ht₁ hfin hproj hquota =>
    have hev : db'.ev.events.get id = some e := by rw [hfin.events, ht₁, he]
    have hcls : contentClass t₁ id = contentClass db.ev id := by
      rw [ht₁]
      rfl
    refine ⟨hev, ?_, fun hne _ => ?_⟩
    · rw [← hcls]
      rcases hfin.edges id with h | ⟨-, h, href⟩
      · exact .inl h
      · exact .inr (.inr (.inl ⟨h, href⟩))
    · rcases hfin.state with hst | ⟨-, -, hst⟩
      · rw [hst, ht₁]
      · rw [hst, Table.get_insert_of_ne _ _ hne, ht₁]
  | new hnew t₁ isD dp rev hins hfin next hproj hquota =>
    have hne : id ≠ v.id := by
      rintro rfl
      rw [hnew] at he
      cases he
    refine ⟨by rw [hfin.events, hins.events, Table.get_insert_of_ne _ _ hne, he], ?_, fun _ ha => ?_⟩
    · have hsame : contentClass db'.ev id = contentClass t₁ id :=
        (hfin.edges id).resolve_right fun h => hne h.1
      rw [hsame]
      by_cases hdp : dp = some id
      · obtain ⟨d, hd⟩ := hins.state_parent id hdp
        exact .inr (.inl (classOf_eq_deleted.mpr ⟨d, hd⟩))
      · exact .inl (by rw [contentClass, hins.state_other id hne hdp, contentClass])
    · have hdp : dp ≠ some id := by
        intro hdp
        obtain ⟨e', he', hauthor, -⟩ := hins.parent id hdp
        rw [he] at he'
        cases he'
        exact ha hauthor
      rw [← hins.state_other id hne hdp]
      rcases hfin.state with hst | ⟨-, -, hst⟩
      · rw [hst]
      · rw [hst, Table.get_insert_of_ne _ _ hne]

theorem PayloadEffect.events {env : Env} {ctx : TxCtx} {db db' : Database}
    {c : VerifiedEventContent} {now : Timestamp} (h : PayloadEffect env ctx db c now db') :
    db'.ev.events = db.ev.events := by
  cases h with
  | idle _ => rfl
  | processed b _ _ _ p _ u => rfl
  | rejected b _ _ _ _ rc u => rfl
  | deleted b _ _ _ => rfl

theorem PayloadEffect.edges {env : Env} {ctx : TxCtx} {db db' : Database} {c : VerifiedEventContent}
    {now : Timestamp} (h : PayloadEffect env ctx db c now db') (id : ShortEventId) :
    Edge (contentClass db.ev id) (contentClass db'.ev id) ∧
      (id ≠ c.event.id → db'.ev.eventsContentState.get id = db.ev.eventsContentState.get id) := by
  cases h with
  | idle h => exact ⟨.inl rfl, fun _ => rfl⟩
  | processed b hb hm hlen p hp u =>
    refine ⟨?_, fun hne => Table.get_remove_of_ne _ hne⟩
    by_cases hid : id = c.event.id
    · subst hid
      exact .inr (.inr (.inr ⟨hm, .inl (by simp [contentClass, classOf])⟩))
    · exact .inl (by rw [contentClass, Table.get_remove_of_ne _ hid, contentClass])
  | rejected b hb hm hlen hp rc u =>
    refine ⟨?_, fun hne => Table.get_insert_of_ne _ _ hne⟩
    by_cases hid : id = c.event.id
    · subst hid
      exact .inr (.inr (.inr ⟨hm, .inr (by simp [contentClass, classOf])⟩))
    · exact .inl (by rw [contentClass, Table.get_insert_of_ne _ _ hid, contentClass])
  | deleted b hb hd hlen => exact ⟨.inl rfl, fun _ => rfl⟩

/-- **What any effect does to the events that are here**: nothing, or one step along an edge. -/
theorem DbEffect.edges {env : Env} {D : Set VerifiedEvent} {db db' : Database}
    (h : DbEffect env D db db') {id : ShortEventId} {e : Event}
    (he : db.ev.events.get id = some e) :
    db'.ev.events.get id = some e ∧ Edge (contentClass db.ev id) (contentClass db'.ev id) := by
  cases h with
  | envelope hv h => exact ⟨(h.edges he).1, (h.edges he).2.1⟩
  | payload hc hst h => exact ⟨by rw [h.events]; exact he, (h.edges id).1⟩
  | released he' hmatch hkind hlen hp ht decisions =>
    refine ⟨?_, ht.edges id⟩
    cases ht with
    | kept _ h =>
      rw [show _ = db.ev from h]
      exact he
    | pruned _ rc u h =>
      subst h
      exact he
  | scheduled h => exact ⟨by rw [h.events]; exact he, .inl (h.classes id)⟩
  | collected hrc => exact ⟨he, .inl rfl⟩
  | booked h =>
    obtain ⟨a, r, rfl⟩ := h
    exact ⟨he, .inl rfl⟩
  | ranked postId now => exact ⟨he, .inl rfl⟩

/-- A sequence of effects, with the event invariant `I` between any two. -/
def Effects (env : Env) (D : Set VerifiedEvent) (I : EventTables → Prop) :
    Database → Database → Prop :=
  Relation.ReflTransGen fun db db' =>
    OnGround D I db.ev ∧ OnGround D I db'.ev ∧ DbEffect env D db db'

section Steps

variable {D : Set VerifiedEvent} {I : EventTables → Prop} {M : VerifiedEvent → EventTables → Prop}
  {E : DbError → Prop} {env : Env} {db : Database}

theorem Effects.refl (db : Database) : Effects env D I db db := Relation.ReflTransGen.refl

theorem Effects.single {db db' : Database} (hI : OnGround D I db.ev) (hI' : OnGround D I db'.ev)
    (h : DbEffect env D db db') : Effects env D I db db' :=
  Relation.ReflTransGen.single ⟨hI, hI', h⟩

theorem Effects.trans {db db' db'' : Database} (h : Effects env D I db db')
    (h' : Effects env D I db' db'') : Effects env D I db db'' := Relation.ReflTransGen.trans h h'

/-- Bookkeeping keeps every event invariant. -/
theorem Effects.booked (hI : OnGround D I db.ev) {a : Accounting} {r : RetentionIndex}
    {db' : Database} (h : db' = { db with accounting := a, retention := r }) :
    Effects env D I db db' := by
  subst h
  exact .single hI hI (.booked ⟨a, r, rfl⟩)

omit [Primitives] in
theorem ensureMissingScheduledTx_rescheduled (t : EventTables) (id : ShortEventId) :
    Rescheduled t (ensureMissingScheduledTx t id) := by
  obtain ⟨q, hq⟩ := ensureMissingScheduledTx_effect t id
  rw [hq]
  exact ⟨rfl, rfl, fun _ => rfl⟩

omit [Primitives] in
theorem rescheduleTx_rescheduled (t : EventTables) (id : ShortEventId) (observed next : Timestamp)
    (update : Option Timestamp → ℕ → Option Timestamp × ℕ) :
    Rescheduled t (rescheduleTx t id observed next update) := by
  rcases rescheduleTx_effect t id observed next update with heq | ⟨_, _, _, _, _, hs, -, -, heq⟩
  · rw [heq]
    exact ⟨rfl, rfl, fun _ => rfl⟩
  · rw [heq]
    refine ⟨rfl, rfl, fun id' => ?_⟩
    by_cases hid : id' = id
    · rw [hid, contentClass, contentClass, hs, Table.get_insert_self]
      rfl
    · rw [contentClass, contentClass, Table.get_insert_of_ne _ _ hid]

theorem processEventTx_effects (h : Keeps D Anything AnythingMid I M E) (hcf : CollisionFree D)
    (hI : OnGround D I db.ev) {v : VerifiedEvent} (hv : v ∈ D) (now : Timestamp)
    (source : EventReceivedSource) :
    Ensures (processEventTx env {} db v now source)
      (fun r => OnGround D I r.1.ev ∧ r.1.ev.events.get v.id = some v.event ∧
        Effects env D I db r.1) (fun _ => True) :=
  ((processEventTx_keeps h hcf hI hv now source).and (processEventTx_effect env {} db v now source)).mono
    (fun _ hr => ⟨hr.1, hr.2.stored hI.1.keyed hcf hv, .single hI hr.1 (.envelope hv hr.2)⟩)
    fun _ _ => trivial

theorem processEventContentTx_effects (h : Keeps D Anything AnythingMid I M E)
    (hI : OnGround D I db.ev) {c : VerifiedEventContent}
    (hc : db.ev.events.get c.event.id = some c.event.event) (now : Timestamp)
    (ledger : AdmissionState) (buffer : Option PayloadBuffer) :
    Ensures (processEventContentTx env {} db c now ledger buffer)
      (fun db' => OnGround D I db'.ev ∧ Effects env D I db db') (fun _ => True) := by
  have hcD : c.event ∈ D := by
    obtain ⟨w, hw, -, he⟩ := hI.1.keyed _ _ hc
    rw [← VerifiedEvent.ext_event he]
    exact hw
  have hsame : ∀ e, db.ev.events.get c.event.id = some e → e = c.event.event := by
    intro e he
    rw [hc] at he
    exact (Option.some.inj he).symm
  refine ((processEventContentTx_keeps h hI hsame now ledger buffer).and
    (processEventContentTx_effect hI.1 hc now ledger buffer)).mono (fun db' hr => ?_)
    fun _ _ => trivial
  obtain ⟨hI', db₁, heff, a, r, rfl⟩ := hr
  have hI₁ : OnGround D I db₁.ev := hI'
  have hfirst : Effects env D I db db₁ := .single hI hI₁ (.payload hcD hc heff)
  have hrest : Effects env D I db₁ { db₁ with accounting := a, retention := r } := .booked hI₁ rfl
  exact ⟨hI', hfirst.trans hrest⟩

theorem processAdmittedContentTx_effects (h : Keeps D Anything AnythingMid I M E)
    (hI : OnGround D I db.ev) {c : VerifiedEventContent}
    (hc : db.ev.events.get c.event.id = some c.event.event) (now : Timestamp)
    (ledger : AdmissionState) (buffer : Option PayloadBuffer) :
    Ensures (processAdmittedContentTx env {} db c now ledger buffer)
      (fun r => OnGround D I r.1.ev ∧ Effects env D I db r.1) (fun _ => True) := by
  have hcontent : Ensures (processEventContentTx env {} db c now ledger buffer)
      (fun db' => OnGround D I db'.ev ∧ Effects env D I db db') (fun _ => True) :=
    processEventContentTx_effects h hI hc now ledger buffer
  unfold processAdmittedContentTx
  dsimp only
  split
  · next db' hok =>
    have hdb' := hcontent.of_ok hok
    split
    · exact hdb'
    split
    · exact hdb'
    · exact hdb'
  · have hI' := hI.defer h c.event.id
    exact ⟨hI', .single hI hI' (.scheduled (ensureMissingScheduledTx_rescheduled _ _))⟩
  · trivial

theorem tryMaterializeStoredPayload_effects (h : Keeps D Anything AnythingMid I M E)
    (hI : OnGround D I db.ev) (id : ShortEventId) (now : Timestamp) (ledger : AdmissionState) :
    Ensures (tryMaterializeStoredPayload env {} db id now ledger)
      (fun r => Effects env D I db r.1) (fun _ => True) := by
  have hdefer : Effects env D I db { db with ev := ensureMissingScheduledTx db.ev id } :=
    .single hI (hI.defer h id) (.scheduled (ensureMissingScheduledTx_rescheduled _ _))
  unfold tryMaterializeStoredPayload
  split
  · exact Effects.refl db
  next e he =>
  split
  · exact Effects.refl db
  dsimp only
  split
  · exact hdefer
  · trivial
  split
  · exact hdefer
  split
  · exact Effects.refl db
  split
  · trivial
  split
  · trivial
  · next c hv =>
    have hce : c.event = VerifiedEvent.ofEvent e := (VerifiedEventContent.verify_eq_some hv).1
    refine (processAdmittedContentTx_effects h hI ?_ now _ _).mono (fun _ hr => hr.2) fun _ h => h
    rw [hce, hI.1.keyed.id_eq he, he]
    rfl

theorem pruneQuotaPayloadTx_effects (h : Keeps D Anything AnythingMid I M E)
    (hI : OnGround D I db.ev) (request : QuotaPruneRequest) :
    Ensures (pruneQuotaPayloadTx env db request) (fun r => Effects env D I db r.1)
      (fun _ => True) := by
  unfold pruneQuotaPayloadTx
  refine (ensures_true _).bind fun _ _ => ?_
  split
  · exact Effects.refl db
  next e he =>
  split
  · exact Effects.refl db
  next hmatch =>
  split
  · exact Effects.refl db
  next hgate =>
  split
  · next now origins _ _ =>
    split
    · exact Effects.refl db
    dsimp only
    split
    · trivial
    refine (ensures_true _).bind fun before _ => ?_
    refine Ensures.bind ((ensures_self _).mono (fun _ h => h) fun _ _ => trivial) fun p hp => ?_
    refine (((h.prune db.ev _ e he hI.1 trivial hI.2).and (pruneEventContentTx_effect _ _ e)).mono
      (fun _ h => h) fun _ _ => trivial).bind fun ⟨t, _⟩ hr => ?_
    refine ((payloadAfterTx_ensures env _ before).mono (fun _ h => h) fun _ _ => trivial).bind
      fun db' ⟨a, x, hdb⟩ => ?_
    subst hdb
    have hI' : OnGround D I t := ⟨hr.2.grounded hI.1 he, hr.1⟩
    simp only [not_or, not_not] at hgate
    have heff : DbEffect env D db _ := .released he (by simpa using hmatch) hgate.2.1
      (Nat.pos_of_ne_zero hgate.2.2) hp hr.2 (db.quotaPruned.insert request.id ⟨request.reason, now⟩)
    exact (Effects.single hI hI' heff).trans (.booked hI' rfl)
  · exact Effects.refl db

theorem collectQuotaPayloadStepTx_effects (h : Keeps D Anything AnythingMid I M E)
    (hI : OnGround D I db.ev) (after : Option ContentHash) (maxBytes : ℕ) :
    Ensures (collectQuotaPayloadStepTx db after maxBytes)
      (fun r => OnGround D I r.1.ev ∧ Effects env D I db r.1) (fun _ => True) := by
  refine ((collectQuotaPayloadStepTx_keeps h hI after maxBytes).and
    (collectQuotaPayloadStepTx_effect db after maxBytes)).mono (fun r hr => ?_) fun _ _ => trivial
  obtain ⟨hI', a, heq | ⟨k, hk, heq⟩⟩ := hr
  · rw [heq]
    exact ⟨hI, .booked hI rfl⟩
  · rw [heq] at hI' ⊢
    let db₁ : Database :=
      { db with ev := { db.ev with contentStore := db.ev.contentStore.remove k } }
    have hI₁ : OnGround D I db₁.ev := hI'
    have hfirst : Effects env D I db db₁ := .single hI hI₁ (.collected hk)
    have hrest : Effects env D I db₁ { db₁ with accounting := a } := .booked hI₁ rfl
    exact ⟨hI', hfirst.trans hrest⟩

theorem collectGarbageLoop_effects (h : Keeps D Anything AnythingMid I M E) :
    ∀ (limit : ℕ) (db : Database) (removed : ℕ), OnGround D I db.ev →
      Ensures (collectGarbageLoop limit db removed) (fun r => Effects env D I db r.1)
        (fun _ => True)
  | 0, db, _, _ => Effects.refl db
  | limit + 1, db, removed, hI => by
    unfold collectGarbageLoop
    have hstep : Ensures (collectQuotaPayloadStepTx db none u64Max)
        (fun r => OnGround D I r.1.ev ∧ Effects env D I db r.1) (fun _ => True) :=
      collectQuotaPayloadStepTx_effects h hI none u64Max
    refine hstep.bind fun r hr => ?_
    split
    · exact hr.2
    · refine (ensures_true _).bind fun n _ => ?_
      exact (collectGarbageLoop_effects h limit _ n hr.1).mono (fun _ h' => hr.2.trans h')
        fun _ h => h

/-- One delivery. -/
theorem deliver_effects (h : Keeps D Anything AnythingMid I M E) (hcf : CollisionFree D)
    (hI : OnGround D I db.ev) (d : Delivery) (hd : d.event ∈ D) :
    Ensures (deliver env db d) (fun db' => OnGround D I db'.ev ∧ Effects env D I db db')
      (fun _ => True) := by
  cases d with
  | envelope v now source =>
    exact (processEventTx_effects h hcf hI hd now source).bind fun r hr => ⟨hr.1, hr.2.2⟩
  | payload c now ledger =>
    refine (processEventTx_effects h hcf hI hd now _).bind fun r ⟨hI₁, hst, h₁⟩ => ?_
    refine (processEventContentTx_effects h hI₁ hst now ledger none).mono (fun db' hr' => ?_)
      fun _ h => h
    exact ⟨hr'.1, h₁.trans hr'.2⟩

/-- **Every transaction is a sequence of effects**, and between any two of them the event invariant holds. -/
theorem step_effects (h : Keeps D Anything AnythingMid I M E) (hcf : CollisionFree D)
    (hI : OnGround D I db.ev) (o : Op) (hD : ∀ v ∈ o.delivered, v ∈ D) :
    Ensures (step env db o) (Effects env D I db) (fun _ => True) := by
  cases o with
  | ingest ds =>
    have hrun := Ensures.foldlM (f := deliver env) (E := fun _ => True)
      (J := fun db' => OnGround D I db'.ev ∧ Effects env D I db db') ds db
      (fun d hd db' hdb' => ?_) ⟨hI, .refl db⟩
    · exact hrun.mono (fun _ h => h.2) fun _ h => h
    · refine (deliver_effects h hcf hdb'.1 d (hD _ (List.mem_map_of_mem hd))).mono
        (fun db'' h'' => ⟨h''.1, hdb'.2.trans h''.2⟩) fun _ h => h
  | ingestAdmitted c now ledger buffer =>
    have hc : c.event ∈ D := hD _ (by simp [Op.delivered])
    simp only [step, tryProcessAdmittedEventContent]
    refine Ensures.bind (P := fun r : Database × PayloadIngestOutcome => Effects env D I db r.1) ?_
      fun r hr => hr
    refine (processEventTx_effects h hcf hI hc now _).bind fun r hr => ?_
    obtain ⟨hI₁, hst, h₁⟩ := hr
    exact (processAdmittedContentTx_effects h hI₁ hst now ledger buffer).mono
      (fun _ h' => h₁.trans h'.2) fun _ h => h
  | materializeStored id now ledger =>
    exact (tryMaterializeStoredPayload_effects h hI id now ledger).bind fun r hr => hr
  | pruneQuota request => exact (pruneQuotaPayloadTx_effects h hI request).bind fun r hr => hr
  | collectStep after maxBytes =>
    exact (collectQuotaPayloadStepTx_effects h hI after maxBytes).bind fun r hr => hr.2
  | collectGarbage limit =>
    simp only [step, collectQuotaPayloadGarbage]
    split
    · trivial
    refine (ensures_true _).bind fun _ _ => ?_
    exact (collectGarbageLoop_effects h limit db 0 hI).bind fun r hr => hr
  | rebuildAccounting limit =>
    simp only [step, rebuildPayloadAccounting]
    split
    · trivial
    exact (ensures_true _).bind fun r _ => .booked hI rfl
  | rebuildNominations limit =>
    simp only [step, rebuildQuotaPayloadNominations]
    split
    · trivial
    exact (ensures_true _).bind fun r _ => .booked hI rfl
  | configureRetention policy => exact .booked hI rfl
  | rebuildRetention limit =>
    simp only [step, rebuildRetentionIndex]
    split
    · trivial
    split
    · exact Effects.refl db
    · exact (ensures_true _).bind fun r _ => .booked hI rfl
  | promoteRetention clock limit =>
    simp only [step, promoteRetentionGrace]
    split
    · trivial
    split
    · split
      · exact (ensures_true _).bind fun r _ => .booked hI rfl
      · exact Effects.refl db
    · exact Effects.refl db
  | deferFetch id observed retryAt =>
    simp only [step, deferContentFetch]
    have hI' := hI.reschedule h id observed retryAt fun last count => (last, count)
    exact Effects.single hI hI' (.scheduled (rescheduleTx_rescheduled _ _ _ _ _))
  | recordFailedFetch id observed attemptedAt nextAttemptAt =>
    simp only [step, recordFailedContentFetch]
    have hI' := hI.reschedule h id observed nextAttemptAt
      fun _ count => (some attemptedAt, min u16Max (count + 1))
    exact Effects.single hI hI' (.scheduled (rescheduleTx_rescheduled _ _ _ _ _))
  | peekMissing =>
    have hI' : OnGround D I (peekNextMissingContent db.ev).1 :=
      (step_keeps h hcf hI .peekMissing hD : Ensures (step env db .peekMissing) _ _)
    refine .single hI hI' (.scheduled ?_)
    obtain ⟨q, hq⟩ := peekLoop_effect (db.ev.eventsContentMissing.card + 1) db.ev
    rw [peekNextMissingContent, hq]
    exact ⟨rfl, rfl, fun _ => rfl⟩
  | recalculateNews postId now => exact .single hI hI (.ranked postId now)

omit [Primitives] in
/-- No edge leads back to a class that holds a reference. -/
theorem Edge.unreferenced {k k' : PayloadBucket} (h : Edge k k') (hk : k.referenced = false) :
    k'.referenced = false := by
  rcases h with rfl | rfl | ⟨-, href⟩ | ⟨rfl, -⟩
  · exact hk
  · rfl
  · rw [hk] at href
    cases href
  · cases hk

/-- **Content that is gone stays gone.** The induction is on the sequence; no edge leads back. -/
theorem Effects.unreferenced {db db' : Database} (h : Effects env D I db db') {id : ShortEventId}
    {e : Event} (he : db.ev.events.get id = some e)
    (hgone : (contentClass db.ev id).referenced = false) :
    (contentClass db'.ev id).referenced = false := by
  have hboth : db'.ev.events.get id = some e ∧ (contentClass db'.ev id).referenced = false := by
    induction h with
    | refl => exact ⟨he, hgone⟩
    | tail _ hlink ih =>
      obtain ⟨hevent, hedge⟩ := hlink.2.2.edges ih.1
      exact ⟨hevent, hedge.unreferenced ih.2⟩
  exact hboth.2

/-- What one delivery is made of. -/
theorem deliver_effect (h : Keeps D Anything AnythingMid I M E) (hcf : CollisionFree D)
    (hI : OnGround D I db.ev) (d : Delivery) (hd : d.event ∈ D) :
    Ensures (deliver env db d) (fun db' => ∃ db₁ db₂, EnvelopeEffect db d.event db₁ ∧
      OnGround D I db₁.ev ∧ db₁.ev.events.get d.event.id = some d.event.event ∧
      (db₂ = db₁ ∨ ∃ c now, c.event = d.event ∧ PayloadEffect env {} db₁ c now db₂) ∧
      OnGround D I db₂.ev ∧ Booked db₂ db') (fun _ => True) := by
  have henv : ∀ now source, Ensures (processEventTx env {} db d.event now source)
      (fun r => OnGround D I r.1.ev ∧ EnvelopeEffect db d.event r.1) (fun _ => True) :=
    fun now source => ((processEventTx_keeps h hcf hI hd now source).and
      (processEventTx_effect env {} db d.event now source)).mono (fun _ h => h) fun _ _ => trivial
  cases d with
  | envelope v now source =>
    refine (henv now source).bind fun r ⟨hI₁, heff⟩ => ?_
    exact ⟨r.1, r.1, heff, hI₁, heff.stored hI.1.keyed hcf hd, .inl rfl, hI₁,
      r.1.accounting, r.1.retention, rfl⟩
  | payload c now ledger =>
    refine (henv now _).bind fun r ⟨hI₁, heff⟩ => ?_
    have hst : r.1.ev.events.get c.event.id = some c.event.event := heff.stored hI.1.keyed hcf hd
    have hsame : ∀ e, r.1.ev.events.get c.event.id = some e → e = c.event.event :=
      fun e he => (Option.some.inj (hst.symm.trans he)).symm
    refine ((processEventContentTx_keeps h hI₁ hsame now ledger none).and
      (processEventContentTx_effect hI₁.1 hst now ledger none)).mono (fun db' hdb' => ?_)
      fun _ _ => trivial
    obtain ⟨hI', db₂, hpay, a, x, rfl⟩ := hdb'
    exact ⟨r.1, db₂, heff, hI₁, hst, .inr ⟨c, now, rfl, hpay⟩, hI', a, x, rfl⟩

/-- **The rule for what a transaction of deliveries can move**: a relation that envelopes and
payloads of the delivered events respect, between states that have `J`. -/
theorem ingest_relation {R : Database → Database → Prop} {J : Database → Prop}
    {A : VerifiedEvent → Prop} (h : Keeps D Anything AnythingMid I M E) (hcf : CollisionFree D)
    (htrans : ∀ db db' db'', R db db' → R db' db'' → R db db'')
    (henv : ∀ db db' v, v ∈ D → A v → OnGround D I db.ev → J db → EnvelopeEffect db v db' →
      J db' ∧ R db db')
    (hpay : ∀ db db' (c : VerifiedEventContent) now, c.event ∈ D → A c.event → OnGround D I db.ev →
      db.ev.events.get c.event.id = some c.event.event → J db → PayloadEffect env {} db c now db' →
      J db' ∧ R db db')
    (hbook : ∀ db db', J db → Booked db db' → J db' ∧ R db db') {ds : List Delivery}
    (hds : ∀ d ∈ ds, d.event ∈ D ∧ A d.event) (hI : OnGround D I db.ev) (hJ : J db)
    (hR : R db db) {db' : Database} (hok : step env db (.ingest ds) = .ok db') : R db db' := by
  have hrun := Ensures.foldlM (f := deliver env) (E := fun _ => True)
    (J := fun s => OnGround D I s.ev ∧ J s ∧ R db s) ds db (fun d hd s ⟨hIs, hJs, hRs⟩ => ?_)
    ⟨hI, hJ, hR⟩
  · exact (hrun.of_ok hok).2.2
  · obtain ⟨hdD, hA⟩ := hds d hd
    refine (deliver_effect h hcf hIs d hdD).mono (fun s' hs' => ?_) fun _ h => h
    obtain ⟨s₁, s₂, heff, hI₁, hst, hpayload, hI₂, hbooked⟩ := hs'
    obtain ⟨hJ₁, hR₁⟩ := henv s s₁ _ hdD hA hIs hJs heff
    have h₂ : J s₂ ∧ R db s₂ := by
      rcases hpayload with rfl | ⟨c, now, hc, hpayload⟩
      · exact ⟨hJ₁, htrans _ _ _ hRs hR₁⟩
      · rw [← hc] at hdD hA hst
        obtain ⟨hJ₂, hR₂⟩ := hpay s₁ s₂ c now hdD hA hI₁ hst hJ₁ hpayload
        exact ⟨hJ₂, htrans _ _ _ (htrans _ _ _ hRs hR₁) hR₂⟩
    obtain ⟨hJ', hR'⟩ := hbook s₂ s' h₂.1 hbooked
    obtain ⟨a, r, rfl⟩ := hbooked
    exact ⟨hI₂, hJ', htrans _ _ _ h₂.2 hR'⟩

/-- **The invariant rule for the whole database**: one case for each effect, between states that
have the event invariant. -/
theorem reached_invariant (env : Env) {J : Database → Prop} (h : Keeps D Anything AnythingMid I M E)
    (hcf : CollisionFree D) (hI : I {}) (hJ : J {})
    (heff : ∀ db db', OnGround D I db.ev → OnGround D I db'.ev → DbEffect env D db db' → J db → J db')
    (ops : List Op) (hD : DeliveredFrom D ops) : J (reached env ops) := by
  have hrun := run_invariant (f := step env)
    (J := fun db : Database => OnGround D I db.ev ∧ J db) ops {} (fun o ho db db' hdb hok => ?_)
    ⟨⟨grounded_empty D, hI⟩, hJ⟩
  · exact hrun.2
  · refine ⟨(step_keeps h hcf hdb.1 o (hD o ho)).of_ok hok, ?_⟩
    have heffs := (step_effects h hcf hdb.1 o (hD o ho)).of_ok hok
    clear hok
    induction heffs with
    | refl => exact hdb.2
    | tail _ hlink ih => exact heff _ _ hlink.1 hlink.2.1 hlink.2.2 ih

end Steps

end Rostra.Db
