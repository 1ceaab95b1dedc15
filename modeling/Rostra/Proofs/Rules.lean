/-
# Invariants of the event tables

Every transaction reaches the event tables through a handful of operations: an insertion, a
pruning, the schedule, a stored or rejected payload, a collected hash.  `Keeps` lists what has to be
shown of each of them, and `step_keeps` concludes that the whole step function keeps the invariant;
what happens in between to projections and bookkeeping is dealt with here, once.

* An invariant may be broken between the insertion of an envelope and the row that schedules it, so
  `Keeps` has a second predicate for that stretch.
* An invariant may rest on others: `Keeps C CM I M E` is relative to a context `C` that is known to
  hold, and `Keeps.and` discharges the context.
* `KeyedBy D` ties a stored header to the delivered envelope of the same id; with
  `CollisionFree D` a payload is then processed for its own header.
-/
import Rostra.Proofs.Insert
import Rostra.Proofs.Quiet

namespace Rostra.Db

open Rostra Outcome

variable [Primitives]

/-! ## 1. Stored headers are delivered envelopes

Results are stated for what was delivered, invariants are about what is stored. `KeyedBy` is the bridge. -/

/-- Every stored header is the envelope in `D` with that id. -/
def KeyedBy (D : Set VerifiedEvent) (t : EventTables) : Prop :=
  ∀ id e, t.events.get id = some e → ∃ v ∈ D, v.id = id ∧ v.event = e

theorem KeyedBy.congr {D : Set VerifiedEvent} {t t' : EventTables} (h : KeyedBy D t)
    (hev : t'.events = t.events) : KeyedBy D t' := by
  intro id e he
  rw [hev] at he
  exact h id e he

/-- The header stored under the id of a delivered envelope is its own. -/
theorem KeyedBy.event_eq {D : Set VerifiedEvent} {t : EventTables} (h : KeyedBy D t)
    (hcf : CollisionFree D) {v : VerifiedEvent} (hv : v ∈ D) {e : Event}
    (he : t.events.get v.id = some e) : e = v.event := by
  obtain ⟨w, hw, hid, rfl⟩ := h _ _ he
  rw [hcf hw hv hid]

/-- The header of a stored id hashes to that id. -/
theorem KeyedBy.id_eq {D : Set VerifiedEvent} {t : EventTables} (h : KeyedBy D t) {id : ShortEventId}
    {e : Event} (he : t.events.get id = some e) : (VerifiedEvent.ofEvent e).id = id := by
  obtain ⟨w, -, rfl, rfl⟩ := h _ _ he
  rw [VerifiedEvent.ofEvent_self]

theorem KeyedBy.mem {D : Set VerifiedEvent} {t : EventTables} (h : KeyedBy D t) {id : ShortEventId}
    {e : Event} (he : t.events.get id = some e) : VerifiedEvent.ofEvent e ∈ D := by
  obtain ⟨w, hw, -, rfl⟩ := h _ _ he
  rw [VerifiedEvent.ofEvent_self]
  exact hw

theorem InsertEffect.keyedBy {D : Set VerifiedEvent} {t : EventTables} {v : VerifiedEvent}
    {r : EventTables × InsertEventOutcome} (h : InsertEffect t v r) (hk : KeyedBy D t) (hv : v ∈ D) :
    KeyedBy D r.1 := by
  cases h with
  | present e he hreg ht ho =>
    rw [ht]
    exact hk
  | new hnew hreg wm isD dp rev mp h ho =>
    intro id e he
    rw [h.events] at he
    by_cases hid : id = v.id
    · subst hid
      rw [Table.get_insert_self] at he
      exact ⟨v, hv, rfl, Option.some.inj he⟩
    · rw [Table.get_insert_of_ne _ _ hid] at he
      exact hk id e he

/-- After an insertion the envelope is stored under its id. -/
theorem InsertEffect.stored {D : Set VerifiedEvent} {t : EventTables} {v : VerifiedEvent}
    {r : EventTables × InsertEventOutcome} (h : InsertEffect t v r) (hk : KeyedBy D t)
    (hcf : CollisionFree D) (hv : v ∈ D) : r.1.events.get v.id = some v.event := by
  cases h with
  | present e he hreg ht ho =>
    rw [ht]
    exact he.trans (congrArg some (hk.event_eq hcf hv he))
  | new hnew hreg wm isD dp rev mp h ho => rw [h.events, Table.get_insert_self]

/-! ## 2. What the other operations write

One effect for each operation, in terms of the event tables alone. -/

/-- The tables once the event's row left the schedule. -/
abbrev unscheduled (t : EventTables) (id : ShortEventId) : EventTables :=
  { t with eventsContentMissing :=
      unscheduleTx (t.eventsContentState.get id) id t.eventsContentMissing }

omit [Primitives] in
/-- Pruning leaves terminal content alone, and marks, releases and unschedules the rest. -/
inductive PruneEffect (t : EventTables) (id : ShortEventId) (t' : EventTables) : Prop
  | kept (hterm : (contentClass t id).referenced = false) (h : t' = t)
  | pruned (href : (contentClass t id).referenced = true) (rc : Table ContentHash ℕ) (u : UsageTable)
      (h : t' = { unscheduled t id with
        contentRc := rc
        idsDataUsage := u
        eventsContentState := t.eventsContentState.insert id .pruned })

omit [Primitives] in
theorem pruneEventContentTx_effect (t : EventTables) (id : ShortEventId) (e : Event) :
    Ensures (pruneEventContentTx t id e) (fun r => PruneEffect t id r.1) (fun _ => True) := by
  cases hr : (contentClass t id).referenced with
  | false =>
    rw [pruneEventContentTx_terminal hr]
    exact PruneEffect.kept hr rfl
  | true =>
    rw [pruneEventContentTx_referenced hr]
    refine (ensures_true _).bind fun rc _ => (ensures_true _).bind fun u _ => ?_
    exact PruneEffect.pruned hr rc u rfl

omit [Primitives] in
theorem PruneEffect.events {t t' : EventTables} {id : ShortEventId} (h : PruneEffect t id t') :
    t'.events = t.events := by
  cases h with
  | kept _ h => rw [h]
  | pruned _ rc u h => rw [h]

theorem storeContentTx_effect (t : EventTables) (v : VerifiedEvent) (b : Bytes) :
    Ensures (storeContentTx t v b) (fun t' => ∃ u, t' = { t with
      contentStore := if (t.contentStore.get v.event.contentHash).isNone then
          t.contentStore.insert v.event.contentHash b
        else t.contentStore
      eventsContentState := t.eventsContentState.remove v.id
      idsDataUsage := u }) (fun _ => True) :=
  (ensures_true _).bind fun u _ => ⟨u, rfl⟩

theorem rejectContentTx_effect (t : EventTables) (v : VerifiedEvent) :
    Ensures (rejectContentTx t v) (fun t' => ∃ rc u, t' = { t with
      eventsContentState := t.eventsContentState.insert v.id .invalid
      contentRc := rc
      idsDataUsage := u }) (fun _ => True) :=
  (ensures_true _).bind fun rc _ => (ensures_true _).bind fun u _ => ⟨rc, u, rfl⟩

omit [Primitives] in
theorem ensureMissingScheduledTx_effect (t : EventTables) (id : ShortEventId) :
    ∃ q, ensureMissingScheduledTx t id = { t with eventsContentMissing := q } := by
  unfold ensureMissingScheduledTx
  split
  · exact ⟨_, rfl⟩
  · exact ⟨_, rfl⟩

omit [Primitives] in
/-- Rescheduling replaces one `Missing` row by another, with its slot. -/
theorem rescheduleTx_effect (t : EventTables) (id : ShortEventId) (observed next : Timestamp)
    (update : Option Timestamp → ℕ → Option Timestamp × ℕ) :
    rescheduleTx t id observed next update = t ∨
      ∃ last count last' count' current,
        t.eventsContentState.get id = some (.missing last count current) ∧ current = observed ∧
        current < next ∧ rescheduleTx t id observed next update = { t with
          eventsContentMissing :=
            insert (toLex (next, id)) (t.eventsContentMissing.erase (toLex (current, id)))
          eventsContentState := t.eventsContentState.insert id (.missing last' count' next) } := by
  unfold rescheduleTx
  split
  · next last count current hs =>
    split
    · exact .inl rfl
    · next hc =>
      rw [not_or, not_not, not_le] at hc
      exact .inr ⟨last, count, _, _, current, hs, hc.1, hc.2, rfl⟩
  · exact .inl rfl

omit [Primitives] in
theorem peekLoop_effect : ∀ (fuel : ℕ) (t : EventTables),
    ∃ q, (peekLoop fuel t).1 = { t with eventsContentMissing := q }
  | 0, t => ⟨_, rfl⟩
  | fuel + 1, t => by
    unfold peekLoop
    split
    · exact ⟨_, rfl⟩
    · dsimp only
      split
      · split
        · split
          · exact ⟨_, rfl⟩
          · obtain ⟨q, hq⟩ := peekLoop_effect fuel _
            exact ⟨q, by rw [hq]⟩
        · obtain ⟨q, hq⟩ := peekLoop_effect fuel _
          exact ⟨q, by rw [hq]⟩
      · obtain ⟨q, hq⟩ := peekLoop_effect fuel _
        exact ⟨q, by rw [hq]⟩

/-! ## 3. The ground every invariant stands on

Three facts that nearly every invariant needs, so that they are shown first and assumed from then on. -/

/-- Headers are delivered envelopes, states belong to headers, and only nonempty content is ever
`Missing`. -/
structure Grounded (D : Set VerifiedEvent) (t : EventTables) : Prop where
  keyed : KeyedBy D t
  states : StatesStored t
  nonempty : ∀ id, contentClass t id = .missing → ∀ e, t.events.get id = some e → 0 < e.contentLen

theorem grounded_empty (D : Set VerifiedEvent) : Grounded D {} := by
  refine ⟨fun id e h => ?_, fun id s h => ?_, fun id h => ?_⟩
  · simp at h
  · simp at h
  · simp [contentClass, classOf] at h

/-- A change that writes states of stored events only, and none to `Missing`. -/
theorem Grounded.mono {D : Set VerifiedEvent} {t t' : EventTables} (h : Grounded D t)
    (hev : t'.events = t.events)
    (hstored : ∀ id s, t'.eventsContentState.get id = some s →
      t.eventsContentState.get id = some s ∨ ∃ e, t.events.get id = some e)
    (hmissing : ∀ id, contentClass t' id = .missing → contentClass t id = .missing) :
    Grounded D t' := by
  refine ⟨h.keyed.congr hev, fun id s hs => ?_, fun id hm e he => ?_⟩
  · rw [hev]
    exact (hstored id s hs).elim (h.states id s) fun h => h
  · rw [hev] at he
    exact h.nonempty id (hmissing id hm) e he

/-- A change outside headers and states. -/
theorem Grounded.congr {D : Set VerifiedEvent} {t t' : EventTables} (h : Grounded D t)
    (hev : t'.events = t.events) (hst : t'.eventsContentState = t.eventsContentState) :
    Grounded D t' :=
  h.mono hev (fun id s hs => .inl (by rw [← hst]; exact hs)) fun id hm => by
    rwa [contentClass, hst] at hm

/-- One state row written, for a stored event, not to `Missing` unless it was. -/
theorem Grounded.setState {D : Set VerifiedEvent} {t t' : EventTables} {id : ShortEventId}
    {s : EventContentState} (h : Grounded D t) {e : Event} (he : t.events.get id = some e)
    (hev : t'.events = t.events)
    (hst : t'.eventsContentState = t.eventsContentState.insert id s)
    (hs : classOf (some s) = .missing → contentClass t id = .missing) : Grounded D t' := by
  refine h.mono hev (fun id' s' hs' => ?_) fun id' hm => ?_
  · by_cases hid : id' = id
    · exact .inr ⟨e, by rw [hid]; exact he⟩
    · rw [hst, Table.get_insert_of_ne _ _ hid] at hs'
      exact .inl hs'
  · by_cases hid : id' = id
    · rw [hid] at hm ⊢
      rw [contentClass, hst, Table.get_insert_self] at hm
      exact hs hm
    · rwa [contentClass, hst, Table.get_insert_of_ne _ _ hid] at hm

theorem PruneEffect.grounded {D : Set VerifiedEvent} {t t' : EventTables} {id : ShortEventId}
    {e : Event} (h : PruneEffect t id t') (hg : Grounded D t) (he : t.events.get id = some e) :
    Grounded D t' := by
  cases h with
  | kept _ h =>
    rw [h]
    exact hg
  | pruned _ rc u h =>
    rw [h]
    exact hg.setState he rfl rfl fun hc => by cases hc

theorem InsertEffect.grounded {D : Set VerifiedEvent} {t : EventTables} {v : VerifiedEvent}
    {r : EventTables × InsertEventOutcome} (h : InsertEffect t v r) (hg : Grounded D t)
    (hv : v ∈ D) : Grounded D r.1 := by
  refine ⟨h.keyedBy hg.keyed hv, h.statesStored hg.states, fun id hm e he => ?_⟩
  cases h with
  | present e' he' hreg ht ho =>
    rw [ht] at hm he
    exact hg.nonempty id hm e he
  | new hnew hreg wm isD dp rev mp h ho =>
    rw [h.events] at he
    by_cases hid : id = v.id
    · subst hid
      rw [Table.get_insert_self] at he
      cases he
      have hself := h.state_self
      rw [contentClass] at hm
      split at hself
      · obtain ⟨d, hd⟩ := hself
        rw [hd] at hm
        cases hm
      · rw [hself, hg.states.state_none hnew] at hm
        by_contra hlen
        rw [if_neg hlen] at hm
        cases hm
    · rw [Table.get_insert_of_ne _ _ hid] at he
      by_cases hdp : dp = some id
      · obtain ⟨d, hd⟩ := h.state_parent id hdp
        rw [contentClass, hd] at hm
        cases hm
      · rw [contentClass, h.state_other id hid hdp] at hm
        exact hg.nonempty id hm e he

/-! ## 4. The envelope transaction, phase by phase

Envelopes are the only operation of more than one step, as far as these tables are concerned. -/

/-- The rule for the inside of an envelope: insertion, what follows from it, the settled state. -/
theorem processEventInnerTx_rule {env : Env} {ctx : TxCtx} {db : Database} {v : VerifiedEvent}
    {now : Timestamp} {source : EventReceivedSource} {E : DbError → Prop}
    (Q₁ Q₂ : InsertEventOutcome → Database → Prop) (Q₃ : Database → Prop)
    (hins : Ensures (insertEventTx db.ev v) (fun r => Q₁ r.2 { db with ev := r.1 }) E)
    (hafter : ∀ o db, Q₁ o db → Ensures (afterOutcomeTx env ctx db v now source o) (Q₂ o) E)
    (hsettle : ∀ o db, Q₂ o db →
      Ensures (settleContentTx db.ev v o) (fun r => Q₃ { db with ev := r.1 }) E) :
    Ensures (processEventInnerTx env ctx db v now source) (fun r => Q₃ r.1) E := by
  unfold processEventInnerTx
  refine hins.bind fun r hr => (hafter _ _ hr).bind fun db₂ h₂ => ?_
  exact (hsettle _ _ h₂).bind fun r₃ h₃ => h₃

/-- The rule for an envelope: its inside, the bookkeeping (which writes nothing else), the
schedule. -/
theorem processEventTx_rule {env : Env} {ctx : TxCtx} {db : Database} {v : VerifiedEvent}
    {now : Timestamp} {source : EventReceivedSource} {E : DbError → Prop}
    (Q₁ Q₂ : InsertEventOutcome → Database → Prop) (Q₃ Q : Database → Prop)
    (hother : ∀ e, ¬IsEventError e → E e)
    (hins : Ensures (insertEventTx db.ev v) (fun r => Q₁ r.2 { db with ev := r.1 }) E)
    (hafter : ∀ o db, Q₁ o db → Ensures (afterOutcomeTx env ctx db v now source o) (Q₂ o) E)
    (hsettle : ∀ o db, Q₂ o db →
      Ensures (settleContentTx db.ev v o) (fun r => Q₃ { db with ev := r.1 }) E)
    (hbook : ∀ db a r, Q₃ db → Q₃ { db with accounting := a, retention := r })
    (hsched : ∀ db, Q₃ db → Q { db with ev := ensureMissingScheduledTx db.ev v.id }) :
    Ensures (processEventTx env ctx db v now source) (fun r => Q r.1) E := by
  unfold processEventTx
  refine ((payloadBeforeTx_counting env db.ev v).quiet.mono (fun _ h => h) hother).bind
    fun before _ => ?_
  refine (processEventInnerTx_rule Q₁ Q₂ Q₃ hins hafter hsettle).bind fun r hr => ?_
  refine ((payloadAfterTx_ensures env r.1 before).mono (fun _ h => h) hother).bind
    fun db' ⟨a, x, hdb'⟩ => ?_
  rw [hdb']
  exact hsched _ (hbook _ a x hr)

/-- What follows an insertion prunes the event at most. -/
theorem afterOutcomeTx_ev {env : Env} {ctx : TxCtx} {db : Database} {v : VerifiedEvent}
    {now : Timestamp} {source : EventReceivedSource} {E : DbError → Prop} {M : EventTables → Prop}
    (hother : ∀ e, ¬IsEventError e → E e) (hM : M db.ev)
    (hprune : Ensures (pruneEventContentTx db.ev v.id v.event) (fun r => M r.1) E)
    (o : InsertEventOutcome) :
    Ensures (afterOutcomeTx env ctx db v now source o) (fun db' => M db'.ev) E := by
  have hquota : Ensures (applyQuotaDecisionTx db v) M E := by
    unfold applyQuotaDecisionTx
    split
    · exact hprune.bind fun r hr => hr
    · exact hM
  unfold afterOutcomeTx
  split
  · unfold afterInsertTx
    refine hquota.bind fun ev hev => ?_
    refine ((insertReceptionOrderedTx_projecting _ _ _ _).reducing.quiet.mono (fun _ h => h) hother).bind fun x _ => ?_
    refine ((insertedLineageTx_projecting _ _ _ _).reducing.quiet.mono (fun _ h => h) hother).bind fun p _ => ?_
    refine ((revertDeletedTx_projecting _ _ _ _).reducing.quiet.mono (fun _ h => h) hother).bind fun p' _ => ?_
    exact hev
  · exact hM

/-- Oversized content of `v` holds no reference: it was pruned, or it is deleted or invalid. -/
def Settled (v : VerifiedEvent) (t : EventTables) : Prop :=
  MAX_CONTENT_LEN ≤ v.event.contentLen → (contentClass t v.id).referenced = false

omit [Primitives] in
/-- Pruned content is no longer referenced. -/
theorem PruneEffect.terminal {t t' : EventTables} {id : ShortEventId} (h : PruneEffect t id t') :
    (contentClass t' id).referenced = false := by
  cases h with
  | kept hterm h =>
    rw [h]
    exact hterm
  | pruned _ rc u h =>
    rw [h, contentClass]
    simp [classOf, PayloadBucket.referenced]

/-- So does settling the state, after which oversized content is out of the way. -/
theorem settleContentTx_ev {ev : EventTables} {v : VerifiedEvent} {E : DbError → Prop}
    {M : EventTables → Prop} (hM : M ev)
    (hprune : Ensures (pruneEventContentTx ev v.id v.event) (fun r => M r.1) E)
    (o : InsertEventOutcome) :
    Ensures (settleContentTx ev v o) (fun r => M r.1 ∧ Settled v r.1) E := by
  unfold settleContentTx
  split
  · next hp =>
    refine ⟨hM, fun _ => ?_⟩
    rw [contentClass, hp]
    rfl
  split
  · refine ((hprune.and (pruneEventContentTx_effect ev v.id v.event)).mono (fun _ h => h)
      fun _ h => h.1).bind fun r hr => ?_
    exact ⟨hr.1, fun _ => hr.2.terminal⟩
  next hlen =>
  split
  · exact ⟨hM, fun h => absurd h hlen⟩
  · exact ⟨hM, fun h => absurd h hlen⟩

/-! ## 5. What an invariant has to survive

A structure rather than a list of hypotheses: an invariant is established by giving the fields, and two of them
combine. -/

/-- Each operation on the event tables keeps `I`, given the ground and the context `C`; between
insertion and scheduling, `M` (given `CM`) takes its place.  `E` describes the errors. -/
structure Keeps (D : Set VerifiedEvent) (C : EventTables → Prop)
    (CM : VerifiedEvent → EventTables → Prop) (I : EventTables → Prop)
    (M : VerifiedEvent → EventTables → Prop) (E : DbError → Prop) : Prop where
  insert : ∀ t v, v ∈ D → Grounded D t → C t → I t →
    Ensures (insertEventTx t v) (fun r => M v r.1) E
  settle : ∀ t v, t.events.get v.id = some v.event → Grounded D t → CM v t → M v t →
    Ensures (pruneEventContentTx t v.id v.event) (fun r => M v r.1) E
  schedule : ∀ t v, t.events.get v.id = some v.event → Settled v t → Grounded D t → CM v t →
    M v t → I (ensureMissingScheduledTx t v.id)
  prune : ∀ t id e, t.events.get id = some e → Grounded D t → C t → I t →
    Ensures (pruneEventContentTx t id e) (fun r => I r.1) E
  store : ∀ t (c : VerifiedEventContent) b, t.events.get c.event.id = some c.event.event →
    contentClass t c.event.id = .missing → c.content = some b → Grounded D t → C t → I t →
    Ensures (storeContentTx (unscheduled t c.event.id) c.event b) I E
  reject : ∀ t (c : VerifiedEventContent), t.events.get c.event.id = some c.event.event →
    contentClass t c.event.id = .missing → Grounded D t → C t → I t →
    Ensures (rejectContentTx (unscheduled t c.event.id) c.event) I E
  collect : ∀ t h, t.contentRc.get h = none → Grounded D t → C t → I t →
    I { t with contentStore := t.contentStore.remove h }
  defer : ∀ t id, Grounded D t → C t → I t → I (ensureMissingScheduledTx t id)
  reschedule : ∀ t id observed next update, Grounded D t → C t → I t →
    I (rescheduleTx t id observed next update)
  peek : ∀ t, Grounded D t → C t → I t → I (peekNextMissingContent t).1
  other : ∀ e, ¬IsEventError e → E e

/-- No context. -/
abbrev Anything : EventTables → Prop := fun _ => True

abbrev AnythingMid : VerifiedEvent → EventTables → Prop := fun _ _ => True

/-- **A stronger context** serves as well. -/
theorem Keeps.context {D : Set VerifiedEvent} {C C' I : EventTables → Prop}
    {CM CM' M : VerifiedEvent → EventTables → Prop} {E : DbError → Prop} (h : Keeps D C CM I M E)
    (hC : ∀ t, C' t → C t) (hCM : ∀ v t, CM' v t → CM v t) : Keeps D C' CM' I M E where
  insert t v hv hg hc hI := h.insert t v hv hg (hC t hc) hI
  settle t v he hg hc hM := h.settle t v he hg (hCM v t hc) hM
  schedule t v he hs hg hc hM := h.schedule t v he hs hg (hCM v t hc) hM
  prune t id e he hg hc hI := h.prune t id e he hg (hC t hc) hI
  store t c b he hm hb hg hc hI := h.store t c b he hm hb hg (hC t hc) hI
  reject t c he hm hg hc hI := h.reject t c he hm hg (hC t hc) hI
  collect t k hk hg hc hI := h.collect t k hk hg (hC t hc) hI
  defer t id hg hc hI := h.defer t id hg (hC t hc) hI
  reschedule t id o n u hg hc hI := h.reschedule t id o n u hg (hC t hc) hI
  peek t hg hc hI := h.peek t hg (hC t hc) hI
  other := h.other

/-- An invariant that rests on nothing holds in any context. -/
theorem Keeps.anyContext {D : Set VerifiedEvent} {C I : EventTables → Prop}
    {CM M : VerifiedEvent → EventTables → Prop} {E : DbError → Prop}
    (h : Keeps D Anything AnythingMid I M E) : Keeps D C CM I M E :=
  h.context (fun _ _ => trivial) fun _ _ _ => trivial

/-- **An invariant that rests on another** is established together with it, so that later ones can rest on both. -/
theorem Keeps.and {D : Set VerifiedEvent} {I J : EventTables → Prop}
    {M N : VerifiedEvent → EventTables → Prop} {E F : DbError → Prop}
    (h : Keeps D Anything AnythingMid I M E) (h' : Keeps D I M J N F) :
    Keeps D Anything AnythingMid (fun t => I t ∧ J t) (fun v t => M v t ∧ N v t)
      (fun e => E e ∧ F e) where
  insert t v hv hg _ hI := (h.insert t v hv hg trivial hI.1).and (h'.insert t v hv hg hI.1 hI.2)
  settle t v he hg _ hM := (h.settle t v he hg trivial hM.1).and (h'.settle t v he hg hM.1 hM.2)
  schedule t v he hs hg _ hM :=
    ⟨h.schedule t v he hs hg trivial hM.1, h'.schedule t v he hs hg hM.1 hM.2⟩
  prune t id e he hg _ hI :=
    (h.prune t id e he hg trivial hI.1).and (h'.prune t id e he hg hI.1 hI.2)
  store t c b he hm hb hg _ hI :=
    (h.store t c b he hm hb hg trivial hI.1).and (h'.store t c b he hm hb hg hI.1 hI.2)
  reject t c he hm hg _ hI :=
    (h.reject t c he hm hg trivial hI.1).and (h'.reject t c he hm hg hI.1 hI.2)
  collect t k hk hg _ hI := ⟨h.collect t k hk hg trivial hI.1, h'.collect t k hk hg hI.1 hI.2⟩
  defer t id hg _ hI := ⟨h.defer t id hg trivial hI.1, h'.defer t id hg hI.1 hI.2⟩
  reschedule t id o n u hg _ hI :=
    ⟨h.reschedule t id o n u hg trivial hI.1, h'.reschedule t id o n u hg hI.1 hI.2⟩
  peek t hg _ hI := ⟨h.peek t hg trivial hI.1, h'.peek t hg hI.1 hI.2⟩
  other e he := ⟨h.other e he, h'.other e he⟩

/-! ## 6. The step function

From the fields to the step function, operation by operation, and to the reached states. -/

section Step

variable {D : Set VerifiedEvent} {I : EventTables → Prop} {M : VerifiedEvent → EventTables → Prop}
  {E : DbError → Prop} {env : Env} {ctx : TxCtx} {db : Database}

/-- The invariant together with its ground. -/
abbrev OnGround (D : Set VerifiedEvent) (I : EventTables → Prop) (t : EventTables) : Prop :=
  Grounded D t ∧ I t

/-- Between insertion and scheduling the header is there, and `M` holds. -/
structure Midway (D : Set VerifiedEvent) (M : VerifiedEvent → EventTables → Prop) (v : VerifiedEvent)
    (t : EventTables) : Prop where
  ground : Grounded D t
  stored : t.events.get v.id = some v.event
  mid : M v t

/-- **The three phases of an envelope**, for an invariant and its midway form. The schedule is completed in the
last of them. -/
theorem Keeps.phases (h : Keeps D Anything AnythingMid I M E) (hcf : CollisionFree D)
    (hI : OnGround D I db.ev) {v : VerifiedEvent} (hv : v ∈ D) (now : Timestamp)
    (source : EventReceivedSource) :
    Ensures (insertEventTx db.ev v) (fun r => Midway D M v r.1) E ∧
      (∀ (o : InsertEventOutcome) (db : Database), Midway D M v db.ev →
        Ensures (afterOutcomeTx env ctx db v now source o) (fun db' => Midway D M v db'.ev) E) ∧
      ∀ (o : InsertEventOutcome) (db : Database), Midway D M v db.ev →
        Ensures (settleContentTx db.ev v o) (fun r => Midway D M v r.1 ∧ Settled v r.1) E := by
  have hprune : ∀ t, Midway D M v t →
      Ensures (pruneEventContentTx t v.id v.event) (fun r => Midway D M v r.1) E := by
    intro t ht
    refine ((h.settle t v ht.stored ht.ground trivial ht.mid).and
      (pruneEventContentTx_effect t v.id v.event)).mono (fun r hr => ?_) fun _ he => he.1
    exact ⟨hr.2.grounded ht.ground ht.stored, by rw [hr.2.events]; exact ht.stored, hr.1⟩
  refine ⟨?_, fun o db hM => afterOutcomeTx_ev h.other hM (hprune _ hM) o,
    fun o db hM => settleContentTx_ev hM (hprune _ hM) o⟩
  refine ((h.insert db.ev v hv hI.1 trivial hI.2).and (insertEventTx_effect db.ev v)).mono
    (fun r hr => ?_) fun _ he => he.1
  exact ⟨hr.2.grounded hI.1 hv, hr.2.stored hI.1.keyed hcf hv, hr.1⟩

/-- **An envelope**, from the hooks before it to the hooks after it. -/
theorem processEventTx_keeps (h : Keeps D Anything AnythingMid I M E) (hcf : CollisionFree D)
    (hI : OnGround D I db.ev) {v : VerifiedEvent} (hv : v ∈ D) (now : Timestamp)
    (source : EventReceivedSource) :
    Ensures (processEventTx env ctx db v now source) (fun r => OnGround D I r.1.ev) E := by
  obtain ⟨hins, hafter, hsettle⟩ := h.phases hcf hI hv now source
  refine processEventTx_rule (fun _ db => Midway D M v db.ev) (fun _ db => Midway D M v db.ev)
    (fun db => Midway D M v db.ev ∧ Settled v db.ev) (fun db => OnGround D I db.ev) h.other hins
    hafter hsettle (fun db a r hM => hM) fun db hM => ?_
  obtain ⟨q, hq⟩ := ensureMissingScheduledTx_effect db.ev v.id
  refine ⟨?_, h.schedule _ v hM.1.stored hM.2 hM.1.ground trivial hM.1.mid⟩
  rw [hq]
  exact hM.1.ground.congr rfl rfl

/-- A payload for `Missing` content. -/
theorem materializeTx_keeps (h : Keeps D Anything AnythingMid I M E) (hI : OnGround D I db.ev)
    {c : VerifiedEventContent} (hc : db.ev.events.get c.event.id = some c.event.event)
    (hm : contentClass db.ev c.event.id = .missing) (now : Timestamp) :
    Ensures (materializeTx env ctx db c now) (fun db' => OnGround D I db'.ev) E := by
  obtain ⟨b, hb⟩ := c.content_isSome (hI.1.nonempty _ hm _ hc)
  unfold materializeTx
  simp only [hb]
  split
  · refine (((h.store db.ev c b hc hm hb hI.1 trivial hI.2).and (storeContentTx_effect _ _ b)).mono
      (fun _ h => h) fun _ he => he.1).bind fun ev hev => ?_
    obtain ⟨hI', u, rfl⟩ := hev
    refine ⟨hI.1.mono rfl (fun id s hs => .inl ?_) fun id hm' => ?_, hI'⟩
    · simp only [Table.get_remove] at hs
      split at hs
      · cases hs
      · exact hs
    · simp only [contentClass, Table.get_remove] at hm' ⊢
      split at hm'
      · cases hm'
      · exact hm'
  · refine (((h.reject db.ev c hc hm hI.1 trivial hI.2).and (rejectContentTx_effect _ _)).mono
      (fun _ h => h) fun _ he => he.1).bind fun ev hev => ?_
    obtain ⟨hI', rc, u, rfl⟩ := hev
    exact ⟨hI.1.setState hc rfl rfl fun hs => (by cases hs), hI'⟩
  · next e he => exact h.other e ((processEventContentInsertedTx_projecting _ _ _ _ _).of_error he e rfl).reducer.not_event

theorem processEventContentInnerTx_keeps (h : Keeps D Anything AnythingMid I M E)
    (hI : OnGround D I db.ev) {c : VerifiedEventContent}
    (hc : ∀ e, db.ev.events.get c.event.id = some e → e = c.event.event) (now : Timestamp)
    (ledger : AdmissionState) (buffer : Option PayloadBuffer) :
    Ensures (processEventContentInnerTx env ctx db c now ledger buffer)
      (fun db' => OnGround D I db'.ev) E := by
  unfold processEventContentInnerTx
  split
  · exact hI
  next hpresent =>
  split
  · next hmissing =>
    obtain ⟨e, he⟩ : ∃ e, db.ev.events.get c.event.id = some e := by
      rw [not_or, Option.isNone_iff_eq_none, ← ne_eq, Option.ne_none_iff_exists'] at hpresent
      exact hpresent.1
    refine ((admitMaterializationTx_reducing _ _ _ _).quiet.mono (fun _ h => h) h.other).bind
      fun _ _ => ?_
    refine materializeTx_keeps h hI ?_ ((canInsertEventContentTx_eq _ _).mp hmissing) now
    rw [he, hc e he]
  · unfold supplyDeletedTx
    split
    · exact ((deletedLineageTx_projecting _ _).reducing.quiet.mono (fun _ h => h) h.other).bind fun _ _ => hI
    · exact hI

/-- **A payload** for the header that is stored under its id. Without such a header it does nothing. -/
theorem processEventContentTx_keeps (h : Keeps D Anything AnythingMid I M E)
    (hI : OnGround D I db.ev) {c : VerifiedEventContent}
    (hc : ∀ e, db.ev.events.get c.event.id = some e → e = c.event.event) (now : Timestamp)
    (ledger : AdmissionState) (buffer : Option PayloadBuffer) :
    Ensures (processEventContentTx env ctx db c now ledger buffer)
      (fun db' => OnGround D I db'.ev) E := by
  have hinner : Ensures (processEventContentInnerTx env ctx db c now ledger buffer)
      (fun db' => OnGround D I db'.ev) E :=
    processEventContentInnerTx_keeps h hI hc now ledger buffer
  unfold processEventContentTx
  refine ((payloadBeforeTx_counting env db.ev c.event).quiet.mono (fun _ h => h) h.other).bind
    fun before _ => hinner.bind fun db' hI' => ?_
  refine (payloadAfterTx_ensures env db' before).mono (fun db'' hdb => ?_) h.other
  obtain ⟨a, r, rfl⟩ := hdb
  exact hI'

/-- Putting the row of a deferred payload back. -/
theorem OnGround.defer (h : Keeps D Anything AnythingMid I M E) {t : EventTables}
    (hI : OnGround D I t) (id : ShortEventId) : OnGround D I (ensureMissingScheduledTx t id) := by
  obtain ⟨q, hq⟩ := ensureMissingScheduledTx_effect t id
  refine ⟨?_, h.defer t id hI.1 trivial hI.2⟩
  rw [hq]
  exact hI.1.congr rfl rfl

theorem OnGround.reschedule (h : Keeps D Anything AnythingMid I M E) {t : EventTables}
    (hI : OnGround D I t) (id : ShortEventId) (observed next : Timestamp)
    (update : Option Timestamp → ℕ → Option Timestamp × ℕ) :
    OnGround D I (rescheduleTx t id observed next update) := by
  refine ⟨?_, h.reschedule t id observed next update hI.1 trivial hI.2⟩
  rcases rescheduleTx_effect t id observed next update with heq | ⟨_, _, _, _, _, hs, -, -, heq⟩
  · rw [heq]
    exact hI.1
  · obtain ⟨e, he⟩ := hI.1.states _ _ hs
    rw [heq]
    exact hI.1.setState he rfl rfl fun _ => classOf_eq_missing.mpr ⟨_, _, _, hs⟩

theorem processAdmittedContentTx_keeps (h : Keeps D Anything AnythingMid I M E)
    (hI : OnGround D I db.ev) {c : VerifiedEventContent}
    (hc : ∀ e, db.ev.events.get c.event.id = some e → e = c.event.event) (now : Timestamp)
    (ledger : AdmissionState) (buffer : Option PayloadBuffer) :
    Ensures (processAdmittedContentTx env ctx db c now ledger buffer)
      (fun r => OnGround D I r.1.ev) E := by
  have hcontent : Ensures (processEventContentTx env ctx db c now ledger buffer)
      (fun db' => OnGround D I db'.ev) E := processEventContentTx_keeps h hI hc now ledger buffer
  unfold processAdmittedContentTx
  dsimp only
  split
  · next db' hok =>
    have hI' := hcontent.of_ok hok
    split
    · exact hI'
    split
    · exact hI'
    · exact hI'
  · exact hI.defer h _
  · next e _ he => exact hcontent.of_error he

theorem tryMaterializeStoredPayload_keeps (h : Keeps D Anything AnythingMid I M E)
    (hI : OnGround D I db.ev) (id : ShortEventId) (now : Timestamp) (ledger : AdmissionState) :
    Ensures (tryMaterializeStoredPayload env ctx db id now ledger)
      (fun r => OnGround D I r.1.ev) E := by
  unfold tryMaterializeStoredPayload
  split
  · exact hI
  next e he =>
  split
  · exact hI
  dsimp only
  split
  · exact hI.defer h id
  · next err herr => exact h.other _ ((admitMaterializationTx_reducing _ _ _ _).quiet.of_error herr)
  split
  · exact hI.defer h id
  split
  · exact hI
  split
  · exact h.other _ (by simp)
  split
  · exact h.other _ (by simp)
  · next c hv =>
    refine processAdmittedContentTx_keeps h hI (fun e' he' => ?_) now _ _
    -- the payload was rebuilt from the stored header
    have hce : c.event = VerifiedEvent.ofEvent e := (VerifiedEventContent.verify_eq_some hv).1
    rw [hce, hI.1.keyed.id_eq he, he] at he'
    rw [hce]
    exact (Option.some.inj he').symm

theorem pruneQuotaPayloadTx_keeps (h : Keeps D Anything AnythingMid I M E)
    (hI : OnGround D I db.ev) (request : QuotaPruneRequest) :
    Ensures (pruneQuotaPayloadTx env db request) (fun r => OnGround D I r.1.ev) E := by
  unfold pruneQuotaPayloadTx
  refine ((requirePayloadAccountingReadyTx_reducing _).quiet.mono (fun _ h => h) h.other).bind fun _ _ => ?_
  split
  · exact hI
  next e he =>
  split
  · exact hI
  split
  · exact hI
  split
  · next now origins _ _ =>
    split
    · exact hI
    dsimp only
    split
    · exact h.other _ (by simp)
    refine ((payloadBeforeTx_counting env _ _).quiet.mono (fun _ h => h) h.other).bind fun before _ => ?_
    refine ((dematerializeTx_reducing _ _ _).quiet.mono (fun _ h => h) h.other).bind fun proj _ => ?_
    refine (((h.prune db.ev _ e he hI.1 trivial hI.2).and (pruneEventContentTx_effect _ _ e)).mono
      (fun _ h => h) fun _ h => h.1).bind fun r hr => ?_
    refine ((payloadAfterTx_ensures env _ before).mono (fun _ h => h) h.other).bind
      fun db' ⟨a, x, hdb⟩ => ?_
    rw [hdb]
    exact ⟨hr.2.grounded hI.1 he, hr.1⟩
  · exact hI

omit [Primitives] in
/-- **A collected hash holds no reference**: the collector revalidates before it removes. -/
theorem collectQuotaPayloadStepTx_effect (db : Database) (after : Option ContentHash)
    (maxBytes : ℕ) :
    Ensures (collectQuotaPayloadStepTx db after maxBytes)
      (fun r => ∃ a, r.1 = { db with accounting := a } ∨
        ∃ k, db.ev.contentRc.get k = none ∧ r.1 = { db with
          ev := { db.ev with contentStore := db.ev.contentStore.remove k }, accounting := a })
      (fun e => ¬IsEventError e) := by
  unfold collectQuotaPayloadStepTx
  dsimp only
  refine Ensures.bind (requirePayloadAccountingReadyTx_reducing _).quiet fun _ _ => ?_
  split
  · exact ⟨_, .inl rfl⟩
  next k _ =>
  have hvalid : Ensures (validateHashTx db.ev db.accounting k)
      (fun _ => ∀ guard, db.accounting.hashes.get k = some guard → guard.references = 0 →
        db.ev.contentRc.get k = none) (fun e => ¬IsEventError e) := by
    refine ensures_iff.mpr ⟨fun _ hok guard hg href => ?_, fun e he =>
      (validateHashTx_counting _ _ _).quiet.of_error he⟩
    unfold validateHashTx at hok
    simp only [hg, Option.getD_some, href] at hok
    split at hok
    · cases hok
    · next hne =>
      rw [not_or, not_not] at hne
      cases hrc : db.ev.contentRc.get k with
      | none => rfl
      | some n =>
        rw [hrc] at hne
        exact absurd (congrArg some hne.2) hne.1
  refine hvalid.bind fun _ hfree => ?_
  split
  · exact ensures_throw.mpr (by simp)
  next guard hg =>
  split
  · next hcond =>
    split
    · exact ⟨_, .inl rfl⟩
    refine Ensures.bind (checkedSub_quiet (by decide) (by decide) _ _) fun unique _ => ?_
    exact ⟨_, .inr ⟨k, hfree guard hg hcond.1, rfl⟩⟩
  · exact ⟨_, .inl rfl⟩

theorem collectQuotaPayloadStepTx_keeps (h : Keeps D Anything AnythingMid I M E)
    (hI : OnGround D I db.ev) (after : Option ContentHash) (maxBytes : ℕ) :
    Ensures (collectQuotaPayloadStepTx db after maxBytes) (fun r => OnGround D I r.1.ev) E := by
  refine (collectQuotaPayloadStepTx_effect db after maxBytes).mono (fun r hr => ?_) h.other
  obtain ⟨a, heq | ⟨k, hk, heq⟩⟩ := hr
  · rw [heq]
    exact hI
  · rw [heq]
    exact ⟨hI.1.congr rfl rfl, h.collect db.ev k hk hI.1 trivial hI.2⟩

theorem collectGarbageLoop_keeps (h : Keeps D Anything AnythingMid I M E) :
    ∀ (limit : ℕ) (db : Database) (removed : ℕ), OnGround D I db.ev →
      Ensures (collectGarbageLoop limit db removed) (fun r => OnGround D I r.1.ev) E
  | 0, _, _, hI => hI
  | limit + 1, db, removed, hI => by
    unfold collectGarbageLoop
    refine (collectQuotaPayloadStepTx_keeps h hI none u64Max).bind fun r hr => ?_
    split
    · exact hr
    · refine ((checkedAdd_quiet (by decide) (by decide) _ _).mono (fun _ h => h) h.other).bind
        fun n _ => ?_
      exact collectGarbageLoop_keeps h limit _ n hr

variable (env) in
/-- One delivery. -/
theorem deliver_keeps (h : Keeps D Anything AnythingMid I M E) (hcf : CollisionFree D)
    (hI : OnGround D I db.ev) (d : Delivery) (hd : d.event ∈ D) :
    Ensures (deliver env db d) (fun db' => OnGround D I db'.ev) E := by
  cases d with
  | envelope v now source =>
    refine (processEventTx_keeps h hcf hI hd now source).bind fun r hr => ?_
    exact hr
  | payload c now ledger =>
    refine (processEventTx_keeps h hcf hI hd now _).bind fun r hr => ?_
    exact processEventContentTx_keeps h hr (fun e he => hr.1.keyed.event_eq hcf hd he) now ledger none

/-- **Every transaction keeps what its operations keep.** This is the only place where the step function is taken
apart for the event tables. -/
theorem step_keeps (h : Keeps D Anything AnythingMid I M E) (hcf : CollisionFree D)
    (hI : OnGround D I db.ev) (o : Op) (hD : ∀ v ∈ o.delivered, v ∈ D) :
    Ensures (step env db o) (fun db' => OnGround D I db'.ev) E := by
  cases o with
  | ingest ds =>
    refine Ensures.foldlM (J := fun db => OnGround D I db.ev) ds db (fun d hd db' hI' => ?_) hI
    exact deliver_keeps env h hcf hI' d (hD _ (List.mem_map_of_mem hd))
  | ingestAdmitted c now ledger buffer =>
    have hc : c.event ∈ D := hD _ (by simp [Op.delivered])
    have hadmitted : Ensures (tryProcessAdmittedEventContent env {} db c now ledger buffer)
        (fun r => OnGround D I r.1.ev) E := by
      unfold tryProcessAdmittedEventContent
      refine (processEventTx_keeps h hcf hI hc now _).bind fun r hr => ?_
      exact processAdmittedContentTx_keeps h hr (fun e he => hr.1.keyed.event_eq hcf hc he) now _ _
    refine hadmitted.bind fun r hr => ?_
    exact hr
  | materializeStored id now ledger =>
    refine (tryMaterializeStoredPayload_keeps h hI id now ledger).bind fun r hr => ?_
    exact hr
  | pruneQuota request =>
    have hpruned : Ensures (pruneQuotaPayloadTx env db request) (fun r => OnGround D I r.1.ev) E :=
      pruneQuotaPayloadTx_keeps h hI request
    exact hpruned.bind fun r hr => hr
  | collectStep after maxBytes =>
    exact (collectQuotaPayloadStepTx_keeps h hI after maxBytes).bind fun r hr => hr
  | collectGarbage limit =>
    simp only [step, collectQuotaPayloadGarbage]
    split
    · exact h.other _ (by simp)
    refine ((requirePayloadAccountingReadyTx_reducing _).quiet.mono (fun _ h => h) h.other).bind fun _ _ => ?_
    exact (collectGarbageLoop_keeps h limit db 0 hI).bind fun r hr => hr
  | rebuildAccounting limit =>
    simp only [step, rebuildPayloadAccounting]
    split
    · exact h.other _ (by simp)
    exact ((rebuildAccountingLoop_counting ..).quiet.mono (fun _ h => h) h.other).bind fun _ _ => hI
  | rebuildNominations limit =>
    simp only [step, rebuildQuotaPayloadNominations]
    split
    · exact h.other _ (by simp)
    exact ((recoverNominationsLoop_raises ..).mono (fun _ h => h) fun e he => h.other e he.not_event).bind fun _ _ => hI
  | configureRetention policy => exact hI
  | rebuildRetention limit =>
    simp only [step, rebuildRetentionIndex]
    split
    · exact h.other _ (by simp)
    split
    · exact hI
    · exact ((rebuildRetentionLoop_indexing ..).quiet.mono (fun _ h => h) h.other).bind fun _ _ => hI
  | promoteRetention clock limit =>
    simp only [step, promoteRetentionGrace]
    split
    · exact h.other _ (by simp)
    split
    · split
      · exact ((promoteRetentionLoop_indexing ..).quiet.mono (fun _ h => h) h.other).bind fun _ _ => hI
      · exact hI
    · exact hI
  | deferFetch id observed retryAt =>
    show OnGround D I (deferContentFetch db.ev id observed retryAt)
    exact hI.reschedule h _ _ _ _
  | recordFailedFetch id observed attemptedAt nextAttemptAt =>
    show OnGround D I (recordFailedContentFetch db.ev id observed attemptedAt nextAttemptAt)
    exact hI.reschedule h _ _ _ _
  | peekMissing =>
    obtain ⟨q, hq⟩ := peekLoop_effect (db.ev.eventsContentMissing.card + 1) db.ev
    refine ⟨?_, h.peek db.ev hI.1 trivial hI.2⟩
    show Grounded D (peekLoop _ _).1
    rw [hq]
    exact hI.1.congr rfl rfl
  | recalculateNews postId now => exact hI

/-- **What every operation keeps holds in every reached state**, by the rule for runs. -/
theorem reached_keeps (env : Env) (h : Keeps D Anything AnythingMid I M E) (hcf : CollisionFree D)
    (hI : I {}) (ops : List Op) (hD : DeliveredFrom D ops) : OnGround D I (reached env ops).ev := by
  refine run_invariant (J := fun db : Database => OnGround D I db.ev) ops {}
    (fun o ho db db' hdb hok => ?_) ⟨grounded_empty D, hI⟩
  exact (step_keeps h hcf hdb o (hD o ho)).of_ok hok

end Step

end Rostra.Db
