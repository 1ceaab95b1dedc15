/-
# Retention origins

A row of `events_retention_origins` is written twice at most: with the first local receipt of its
event, and with the first transition of the content to `Processed`.  Quota eligibility reads nothing
else, so both times have to be those of the log.

* `Timed` is what one part of a transaction does to headers, lifecycle and rows.  Maintenance
  (`Maintained`) moves neither a header nor a row and processes nothing.
* A total replay brings the stashed headers back and keeps every row (`replayTx_restores`); it may
  process content and records nothing of it.
* `Logged` ties the rows to the log of a session, and `retention_origins_immutable` reads off what
  a row says.

The first time is the smaller one of the author's timestamp and the local clock at the receipt, the second is the
local clock at the transition; the theorem compares both with the records of the steps that wrote them. Replay is
the hard case: it runs the ordinary operations again over an empty database, with a clock that has moved on, and
must not be mistaken for a receipt.
-/
import Rostra.Db.Replay
import Rostra.Proofs.Pieces

namespace Rostra.Db

open Rostra Outcome

section Rows

variable [Primitives]

/-! ## 1. What a part of a transaction does

A transaction is a list of parts, each under the clock that it reads: an envelope, a payload, a publication, or
maintenance. `Timed` says for one part which rows may appear and what they hold; parts compose. -/

/-- Headers are stored under their own ids; states, rows and decisions belong to stored headers. This is what a
replay needs to bring everything back from the headers. -/
structure Anchored (db : Database) : Prop where
  keyed : KeyedBy Set.univ db.ev
  states : StatesStored db.ev
  origins : ∀ id o, db.origins.get id = some o → isStored db id = true
  decided : ∀ id d, db.quotaPruned.get id = some d → isStored db id = true

/-- The grace origin is set once. -/
def RetentionOrigins.materialize (o : RetentionOrigins) (now : Timestamp) : RetentionOrigins :=
  { o with materializedAt := o.materializedAt.or (some now) }

/-- **What a part does to headers, lifecycle and rows**, under the clock it read. A row appears with its header,
and is completed when the content is processed for the first time; nothing else writes one. -/
structure Timed (clock : Option Timestamp) (db db' : Database) : Prop where
  anchored : Anchored db'
  kept : ∀ id e, db.ev.events.get id = some e → db'.ev.events.get id = some e
  arrived : ∀ id e, db.ev.events.get id = none → db'.ev.events.get id = some e →
    ∃ now, clock = some now ∧ db'.origins.get id =
      some ⟨min e.timestamp now, if isProcessed db' id then some now else none⟩
  turned : ∀ id, isStored db id = true → isProcessed db id = false → isProcessed db' id = true →
    ∃ now, clock = some now ∧ db'.origins.get id = (db.origins.get id).map (·.materialize now)
  settled : ∀ id, isStored db id = true → (isProcessed db id = true ∨ isProcessed db' id = false) →
    db'.origins.get id = db.origins.get id

/-- No header and no row moves, and nothing is processed. -/
structure Maintained (db db' : Database) : Prop where
  events : db'.ev.events = db.ev.events
  states : ∀ id, (db'.ev.eventsContentState.get id).isSome →
    (db.ev.eventsContentState.get id).isSome ∨ isStored db id = true
  awaited : ∀ id, (db.ev.eventsContentState.get id).isSome →
    (db'.ev.eventsContentState.get id).isSome
  origins : db'.origins = db.origins
  decided : ∀ id d, db'.quotaPruned.get id = some d →
    (∃ d', db.quotaPruned.get id = some d') ∨ isStored db id = true

section Parts

variable {env : Env} {ctx : TxCtx} {db db' : Database}

omit [Primitives] in
theorem isStored_iff {id : ShortEventId} :
    isStored db id = true ↔ ∃ e, db.ev.events.get id = some e := Option.isSome_iff_exists

omit [Primitives] in
theorem isProcessed_iff {id : ShortEventId} :
    isProcessed db id = true ↔ isStored db id = true ∧ db.ev.eventsContentState.get id = none := by
  simp [isProcessed]

omit [Primitives] in
theorem isProcessed_eq_false {id : ShortEventId} (h : isStored db id = true) :
    isProcessed db id = false ↔ (db.ev.eventsContentState.get id).isSome = true := by
  simp [isProcessed, h, Option.isSome_iff_ne_none]

omit [Primitives] in
theorem isStored_congr (h : db'.ev.events = db.ev.events) (id : ShortEventId) :
    isStored db' id = isStored db id := by
  rw [isStored, isStored, h]

omit [Primitives] in
theorem Maintained.refl (db : Database) : Maintained db db :=
  ⟨rfl, fun _ h => .inl h, fun _ h => h, rfl, fun _ d h => .inl ⟨d, h⟩⟩

omit [Primitives] in
theorem Maintained.trans {db'' : Database} (h : Maintained db db') (h' : Maintained db' db'') :
    Maintained db db'' := by
  refine ⟨h'.events.trans h.events, fun id hs => ?_, fun id hs => h'.awaited id (h.awaited id hs),
    h'.origins.trans h.origins, fun id d hd => ?_⟩
  · rcases h'.states id hs with hs' | hst
    · exact h.states id hs'
    · exact .inr (by rw [← isStored_congr h.events]; exact hst)
  · rcases h'.decided id d hd with ⟨d', hd'⟩ | hst
    · exact h.decided id d' hd'
    · exact .inr (by rw [← isStored_congr h.events]; exact hst)

omit [Primitives] in
/-- The same states, up to their slots. -/
theorem Maintained.of_classes (hev : db'.ev.events = db.ev.events)
    (hcl : ∀ id, contentClass db'.ev id = contentClass db.ev id) (ho : db'.origins = db.origins)
    (hq : db'.quotaPruned = db.quotaPruned) : Maintained db db' := by
  have hsome : ∀ id, (db'.ev.eventsContentState.get id).isSome =
      (db.ev.eventsContentState.get id).isSome := by
    intro id
    have hiff : db'.ev.eventsContentState.get id = none ↔ db.ev.eventsContentState.get id = none := by
      rw [← classOf_eq_current, ← classOf_eq_current]
      exact Eq.congr_left (hcl id)
    rw [Bool.eq_iff_iff, Option.isSome_iff_ne_none, Option.isSome_iff_ne_none]
    exact not_congr hiff
  refine ⟨hev, fun id hs => .inl ?_, fun id hs => ?_, ho, fun id d hd => .inl ⟨d, by rw [← hq]; exact hd⟩⟩
  · rw [← hsome]
    exact hs
  · rw [hsome]
    exact hs

omit [Primitives] in
theorem Aside.maintained (h : Aside db db') : Maintained db db' :=
  .of_classes (by rw [h.eq]) h.classes (by rw [h.eq]) (by rw [h.eq])

omit [Primitives] in
theorem Requeued.maintained {t : EventTables} (h : Requeued db.ev t) :
    Maintained db { db with ev := t } :=
  .of_classes (by rw [h.eq]) h.classes rfl rfl

theorem Maintained.anchored (h : Maintained db db') (ha : Anchored db) : Anchored db' := by
  refine ⟨ha.keyed.congr h.events, fun id s hs => ?_, fun id o ho => ?_, fun id d hd => ?_⟩
  · rw [h.events]
    rcases h.states id (by rw [hs]; rfl) with hs' | hst
    · obtain ⟨s', hs'⟩ := Option.isSome_iff_exists.mp hs'
      exact ha.states id s' hs'
    · exact isStored_iff.mp hst
  · rw [isStored_congr h.events]
    rw [h.origins] at ho
    exact ha.origins id o ho
  · rw [isStored_congr h.events]
    rcases h.decided id d hd with ⟨d', hd'⟩ | hst
    · exact ha.decided id d' hd'
    · exact hst

/-- Maintenance records nothing. -/
theorem Maintained.timed (h : Maintained db db') (ha : Anchored db) (clock : Option Timestamp) :
    Timed clock db db' := by
  refine ⟨h.anchored ha, fun id e he => ?_, fun id e hnew he => ?_, fun id hst hno hyes => ?_,
    fun id _ _ => by rw [h.origins]⟩
  · rw [h.events]
    exact he
  · rw [h.events, hnew] at he
    cases he
  · have hsome := h.awaited id ((isProcessed_eq_false hst).mp hno)
    rw [(isProcessed_iff.mp hyes).2] at hsome
    cases hsome

/-! ## 2. An envelope

The row is written next to the header. The only transition to `Processed` that comes with an envelope is that of
content which is empty. -/

/-- **An envelope, with its row**: only a new header gets one, under the smaller of its own time and the local
clock. -/
inductive Arrived (ctx : TxCtx) (db : Database) (v : VerifiedEvent) (now : Timestamp)
    (db' : Database) : Prop
  | present (e : Event) (he : db.ev.events.get v.id = some e) (hev : db'.ev.events = db.ev.events)
      (hfin : Finished False db.ev db'.ev v) (ho : db'.origins = db.origins)
      (hq : db'.quotaPruned = db.quotaPruned)
  | new (hnew : db.ev.events.get v.id = none) (t₁ : EventTables) (isDeleted : Bool)
      (deletedParent : Option ShortEventId) (reverted : Option Bytes)
      (hins : Inserted db.ev t₁ v isDeleted deletedParent reverted)
      (hfin : Finished ((db.quotaPruned.get v.id).isSome = true) t₁ db'.ev v)
      (ho : db'.origins = recordOriginsTx ctx db.origins v isDeleted now)
      (hq : db'.quotaPruned = db.quotaPruned)

theorem processEventInnerTx_receipt (env : Env) (ctx : TxCtx) (db : Database) (v : VerifiedEvent)
    (now : Timestamp) (source : EventReceivedSource) :
    Ensures (processEventInnerTx env ctx db v now source) (fun r => Arrived ctx db v now r.1)
      (fun _ => True) := by
  unfold processEventInnerTx
  refine (insertEventTx_effect db.ev v).bind fun r hins => ?_
  obtain ⟨t₁, o⟩ := r
  cases hins with
  | present e he hreg ht ho =>
    obtain rfl : o = _ := ho
    refine Ensures.bind (P := fun db₂ => db₂ = { db with ev := t₁ }) (ensures_ok.mpr rfl)
      fun db₂ h₂ => ?_
    subst h₂
    refine (settleContentTx_finished (.refl False t₁ v) _).bind fun r₃ h₃ => ?_
    have ht' : t₁ = { db.ev with idsFull := t₁.idsFull } := ht
    have hev : t₁.events = db.ev.events := by rw [ht']
    have hstore : t₁.contentStore = db.ev.contentStore := by rw [ht']
    have hstate : t₁.eventsContentState = db.ev.eventsContentState := by rw [ht']
    have hst := h₃.state
    rw [contentClass, hstate] at hst
    exact .present e he (h₃.events.trans hev) ⟨h₃.events.trans hev, h₃.store.trans hstore, hst⟩ rfl rfl
  | new hnew hreg wm isD dp rev mp h ho =>
    obtain rfl : o = _ := ho
    refine Ensures.bind (P := fun db₂ : Database => db₂.quotaPruned = db.quotaPruned ∧
      Finished ((db.quotaPruned.get v.id).isSome = true) t₁ db₂.ev v ∧
      db₂.origins = recordOriginsTx ctx db.origins v isD now) ?_ fun db₂ hafter => ?_
    · unfold afterOutcomeTx afterInsertTx
      refine (applyQuotaDecisionTx_finished { db with ev := t₁ } v).bind fun t hfin => ?_
      refine (ensures_true _).bind fun _ _ => (ensures_true _).bind fun _ _ =>
        (ensures_true _).bind fun _ _ => ?_
      exact ⟨rfl, hfin, rfl⟩
    · obtain ⟨hq, hfin, ho⟩ := hafter
      refine (settleContentTx_finished hfin _).bind fun r₃ h₃ => ?_
      exact .new hnew t₁ isD dp rev h h₃ ho hq

theorem processEventTx_receipt (env : Env) (ctx : TxCtx) (db : Database) (v : VerifiedEvent)
    (now : Timestamp) (source : EventReceivedSource) :
    Ensures (processEventTx env ctx db v now source) (fun r => Arrived ctx db v now r.1)
      (fun _ => True) := by
  unfold processEventTx
  refine (ensures_true _).bind fun before _ => ?_
  refine (processEventInnerTx_receipt env ctx db v now source).bind fun r hr => ?_
  refine ((payloadAfterTx_ensures env r.1 before).mono (fun _ h => h) fun _ _ => trivial).bind
    fun db₂ ⟨a, x, hdb⟩ => ?_
  subst hdb
  cases hr with
  | present e he hev hfin ho hq =>
    exact .present e he hfin.schedule.events hfin.schedule ho hq
  | new hnew t₁ isD dp rev hins hfin ho hq =>
    exact .new hnew t₁ isD dp rev hins hfin.schedule ho hq

/-- The headers after an envelope. -/
theorem Arrived.events {v : VerifiedEvent} {now : Timestamp} (h : Arrived ctx db v now db') :
    db'.ev.events = db.ev.events ∨
      (db.ev.events.get v.id = none ∧ db'.ev.events = db.ev.events.insert v.id v.event) := by
  cases h with
  | present e he hev hfin ho hq => exact .inl hev
  | new hnew t₁ isD dp rev hins hfin ho hq =>
    exact .inr ⟨hnew, by rw [hfin.events, hins.events]⟩

theorem Arrived.quotaPruned {v : VerifiedEvent} {now : Timestamp} (h : Arrived ctx db v now db') :
    db'.quotaPruned = db.quotaPruned := by
  cases h with
  | present e he hev hfin ho hq => exact hq
  | new hnew t₁ isD dp rev hins hfin ho hq => exact hq

/-- A header that is there stays. -/
theorem Arrived.kept {v : VerifiedEvent} {now : Timestamp} (h : Arrived ctx db v now db')
    {id : ShortEventId} {e : Event} (he : db.ev.events.get id = some e) :
    db'.ev.events.get id = some e := by
  rcases h.events with heq | ⟨hnew, heq⟩
  · rw [heq]
    exact he
  · rw [heq, Table.get_insert_of_ne _ _ ?_]
    · exact he
    · rintro rfl
      rw [hnew] at he
      cases he

theorem Arrived.keyed {v : VerifiedEvent} {now : Timestamp} (h : Arrived ctx db v now db')
    (hk : KeyedBy Set.univ db.ev) : KeyedBy Set.univ db'.ev := by
  intro id e he
  rcases h.events with heq | ⟨-, heq⟩
  · rw [heq] at he
    exact hk id e he
  · rw [heq, Table.get_insert] at he
    split at he
    · next hid =>
      cases he
      exact ⟨v, Set.mem_univ v, hid.symm, rfl⟩
    · exact hk id e he

/-- The states of other events: a deleted parent is marked, and nothing else happens to them. -/
theorem Arrived.state_other {v : VerifiedEvent} {now : Timestamp} (h : Arrived ctx db v now db')
    {id : ShortEventId} (hne : id ≠ v.id) :
    db'.ev.eventsContentState.get id = db.ev.eventsContentState.get id ∨
      ((∃ e, db.ev.events.get id = some e) ∧
        ∃ d, db'.ev.eventsContentState.get id = some (.deleted d)) := by
  cases h with
  | present e he hev hfin ho hq =>
    rcases hfin.state with hst | ⟨-, -, hst⟩
    · exact .inl (by rw [hst])
    · exact .inl (by rw [hst, Table.get_insert_of_ne _ _ hne])
  | new hnew t₁ isD dp rev hins hfin ho hq =>
    have hsame : db'.ev.eventsContentState.get id = t₁.eventsContentState.get id := by
      rcases hfin.state with hst | ⟨-, -, hst⟩
      · rw [hst]
      · rw [hst, Table.get_insert_of_ne _ _ hne]
    rw [hsame]
    by_cases hdp : dp = some id
    · obtain ⟨e, he, -⟩ := hins.parent id hdp
      exact .inr ⟨⟨e, he⟩, hins.state_parent id hdp⟩
    · exact .inl (hins.state_other id hne hdp)

theorem Arrived.states {v : VerifiedEvent} {now : Timestamp} (h : Arrived ctx db v now db')
    (hs : StatesStored db.ev) : StatesStored db'.ev := by
  intro id s hst
  by_cases hid : id = v.id
  · subst hid
    cases h with
    | present e he hev hfin ho hq => exact ⟨e, by rw [hev]; exact he⟩
    | new hnew t₁ isD dp rev hins hfin ho hq =>
      exact ⟨v.event, by rw [hfin.events, hins.events, Table.get_insert_self]⟩
  · rcases h.state_other hid with heq | ⟨⟨e, he⟩, -⟩
    · rw [heq] at hst
      obtain ⟨e, he⟩ := hs id s hst
      exact ⟨e, h.kept he⟩
    · exact ⟨e, h.kept he⟩

/-- The envelope of a stored event records nothing; it may release what is oversized. -/
theorem Arrived.maintained {v : VerifiedEvent} {now : Timestamp} (h : Arrived ctx db v now db')
    {e : Event} (he : db.ev.events.get v.id = some e) : Maintained db db' := by
  cases h with
  | new hnew t₁ isD dp rev hins hfin ho hq =>
    rw [hnew] at he
    cases he
  | present e' he' hev hfin ho hq =>
    refine ⟨hev, fun id hs => ?_, fun id hs => ?_, ho, fun id d hd => .inl ⟨d, by rw [← hq]; exact hd⟩⟩
    · by_cases hid : id = v.id
      · exact .inr (isStored_iff.mpr ⟨e, by rw [hid]; exact he⟩)
      · rcases hfin.state with hst | ⟨-, -, hst⟩
        · rw [hst] at hs
          exact .inl hs
        · rw [hst, Table.get_insert_of_ne _ _ hid] at hs
          exact .inl hs
    · rcases hfin.state with hst | ⟨-, -, hst⟩
      · rw [hst]
        exact hs
      · rw [hst]
        by_cases hid : id = v.id
        · rw [hid, Table.get_insert_self]
          rfl
        · rw [Table.get_insert_of_ne _ _ hid]
          exact hs

/-- The row of a new header. -/
theorem Arrived.row {v : VerifiedEvent} {now : Timestamp} (h : Arrived {} db v now db')
    (ha : Anchored db) (hv : db.ev.events.get v.id = none) (hrow : db.origins.get v.id = none)
    {e : Event} (he : db'.ev.events.get v.id = some e) :
    db'.origins.get v.id =
      some ⟨min e.timestamp now, if isProcessed db' v.id then some now else none⟩ := by
  cases h with
  | present e' he' hev hfin ho hq =>
    rw [hv] at he'
    cases he'
  | new hnew t₁ isD dp rev hins hfin ho hq =>
    rw [hfin.events, hins.events, Table.get_insert_self] at he
    cases he
    have hstored : isStored db' v.id = true := by
      rw [isStored, hfin.events, hins.events, Table.get_insert_self]
      rfl
    have hundecided : (db.quotaPruned.get v.id).isSome = false := by
      by_contra hne
      obtain ⟨d, hd⟩ := Option.isSome_iff_exists.mp (Bool.not_eq_false _ ▸ hne)
      have hst := ha.decided _ d hd
      rw [isStored, hv] at hst
      cases hst
    have hself := hins.state_self
    have hiff : isProcessed db' v.id = true ↔ v.event.contentLen = 0 ∧ (!isD) = true := by
      rw [isProcessed_iff, and_iff_right hstored]
      rcases hfin.state with hst | ⟨-, hlen | hd, hst⟩
      · rw [hst]
        cases isD with
        | true =>
          obtain ⟨d, hd⟩ := hself
          simp [hd]
        | false =>
          rw [if_neg Bool.false_ne_true, ha.states.state_none hv] at hself
          rw [hself]
          simp [Nat.pos_iff_ne_zero]
      · rw [hst, Table.get_insert_self]
        simp only [reduceCtorEq, false_iff, not_and]
        intro hzero
        rw [hzero] at hlen
        cases hlen
      · rw [hundecided] at hd
        cases hd
    rw [ho, recordOriginsTx, if_pos (by rw [hrow]; rfl), Table.get_insert_self]
    simp only [hiff]

/-- **A first receipt is recorded under the local clock**, and so is empty content that is processed
on arrival. -/
theorem Arrived.timed {v : VerifiedEvent} {now : Timestamp} (h : Arrived {} db v now db')
    (ha : Anchored db) : Timed (some now) db db' := by
  cases hv : db.ev.events.get v.id with
  | some e => exact (h.maintained hv).timed ha _
  | none =>
  have hrow : db.origins.get v.id = none := by
    by_contra hne
    obtain ⟨o, ho⟩ := Option.ne_none_iff_exists'.mp hne
    have hst := ha.origins _ _ ho
    rw [isStored, hv] at hst
    cases hst
  have hother : ∀ id, id ≠ v.id → db'.origins.get id = db.origins.get id := by
    cases h with
    | present e he hev hfin ho hq => exact fun id _ => by rw [ho]
    | new hnew t₁ isD dp rev hins hfin ho hq =>
      rw [ho]
      exact (recordOriginsTx_get {} db.origins v isD now).1
  -- another event can only turn deleted
  have hproc : ∀ id, id ≠ v.id → isProcessed db' id = true → isProcessed db id = true := by
    intro id hne hyes
    obtain ⟨hst, hnone⟩ := isProcessed_iff.mp hyes
    rcases h.state_other hne with heq | ⟨-, d, hd⟩
    · refine isProcessed_iff.mpr ⟨?_, by rw [← heq]; exact hnone⟩
      rcases h.events with hev | ⟨-, hev⟩
      · rw [← isStored_congr hev]
        exact hst
      · rwa [isStored, hev, Table.get_insert_of_ne _ _ hne] at hst
    · rw [hnone] at hd
      cases hd
  have hne : ∀ id, isStored db id = true → id ≠ v.id := by
    rintro id hst rfl
    rw [isStored, hv] at hst
    cases hst
  refine ⟨⟨h.keyed ha.keyed, h.states ha.states, fun id o ho => ?_, fun id d hd => ?_⟩,
    fun id e he => h.kept he, fun id e hnew he => ?_, fun id hst hno hyes => ?_, fun id hst _ => ?_⟩
  · by_cases hid : id = v.id
    · subst hid
      rcases h.events with hev | ⟨-, hev⟩
      · cases h with
        | present e he _ _ _ _ =>
          rw [hv] at he
          cases he
        | new _ t₁ _ _ _ hins hfin _ _ =>
          rw [hfin.events, hins.events] at hev
          rw [isStored, hfin.events, hins.events, Table.get_insert_self]
          rfl
      · rw [isStored, hev, Table.get_insert_self]
        rfl
    · rw [hother id hid] at ho
      obtain ⟨e, he⟩ := isStored_iff.mp (ha.origins id o ho)
      exact isStored_iff.mpr ⟨e, h.kept he⟩
  · rw [h.quotaPruned] at hd
    obtain ⟨e, he⟩ := isStored_iff.mp (ha.decided id d hd)
    exact isStored_iff.mpr ⟨e, h.kept he⟩
  · have hid : id = v.id := by
      by_contra hid
      rcases h.events with hev | ⟨-, hev⟩
      · rw [hev, hnew] at he
        cases he
      · rw [hev, Table.get_insert_of_ne _ _ hid, hnew] at he
        cases he
    subst hid
    refine ⟨now, rfl, ?_⟩
    exact h.row ha hv hrow he
  · rw [hproc id (hne id hst) hyes] at hno
    cases hno
  · exact hother id (hne id hst)

/-! ## 3. A payload

All ways in which a payload is processed, from a delivery, from the store or behind the admission boundary, end in
the same step; what differs is what may be refused before. -/

/-- **A payload, with the row of its event**: it is processed, or nothing is recorded. Content that is found
invalid is not materialized. -/
inductive Supplied (ctx : TxCtx) (db : Database) (id : ShortEventId) (now : Timestamp)
    (db' : Database) : Prop
  | kept (h : Maintained db db')
  | processed (hm : contentClass db.ev id = .missing) (hev : db'.ev.events = db.ev.events)
      (hst : db'.ev.eventsContentState = db.ev.eventsContentState.remove id)
      (ho : db'.origins = recordMaterializedTx ctx db.origins id now)
      (hq : db'.quotaPruned = db.quotaPruned)

omit [Primitives] in
/-- A changed state where content was awaited. -/
theorem Maintained.reject {id : ShortEventId} {s : EventContentState}
    (hm : contentClass db.ev id = .missing) (hev : db'.ev.events = db.ev.events)
    (hst : db'.ev.eventsContentState = db.ev.eventsContentState.insert id s)
    (ho : db'.origins = db.origins) (hq : db'.quotaPruned = db.quotaPruned) : Maintained db db' := by
  have hsome : (db.ev.eventsContentState.get id).isSome = true := by
    obtain ⟨last, count, next, h⟩ := classOf_eq_missing.mp hm
    rw [h]
    rfl
  refine ⟨hev, fun id' hs => .inl ?_, fun id' hs => ?_, ho, fun _ d hd => .inl ⟨d, by rw [← hq]; exact hd⟩⟩
  · by_cases hid : id' = id
    · rw [hid]
      exact hsome
    · rwa [hst, Table.get_insert_of_ne _ _ hid] at hs
  · rw [hst]
    by_cases hid : id' = id
    · rw [hid, Table.get_insert_self]
      rfl
    · rwa [Table.get_insert_of_ne _ _ hid]

theorem processEventContentTx_supplied (env : Env) (ctx : TxCtx) (db : Database)
    (c : VerifiedEventContent) (now : Timestamp) (ledger : AdmissionState)
    (buffer : Option PayloadBuffer) :
    Ensures (processEventContentTx env ctx db c now ledger buffer)
      (Supplied ctx db c.event.id now) (fun _ => True) := by
  have hinner : Ensures (processEventContentInnerTx env ctx db c now ledger buffer)
      (Supplied ctx db c.event.id now) (fun _ => True) := by
    unfold processEventContentInnerTx
    split
    · exact .kept (.refl db)
    split
    · next hm =>
      have hm' := (canInsertEventContentTx_eq _ _).mp hm
      refine (ensures_true _).bind fun _ _ => ?_
      unfold materializeTx
      dsimp only
      split
      · exact .kept (.of_classes rfl (fun _ => rfl) rfl rfl)
      split
      · refine (storeContentTx_effect _ _ _).bind fun ev hev => ?_
        obtain ⟨u, rfl⟩ := hev
        exact .processed hm' rfl rfl rfl rfl
      · refine (rejectContentTx_effect _ _).bind fun ev hev => ?_
        obtain ⟨rc, u, rfl⟩ := hev
        exact .kept (.reject hm' rfl rfl rfl rfl)
      · trivial
    · unfold supplyDeletedTx
      split
      · exact (ensures_true _).bind fun _ _ => .kept (.of_classes rfl (fun _ => rfl) rfl rfl)
      · exact .kept (.refl db)
  unfold processEventContentTx
  refine (ensures_true _).bind fun before _ => hinner.bind fun db₁ h₁ => ?_
  refine (payloadAfterTx_ensures env db₁ before).mono (fun db₂ ⟨a, x, hdb⟩ => ?_) fun _ _ => trivial
  subst hdb
  cases h₁ with
  | kept h => exact .kept (h.trans (.of_classes rfl (fun _ => rfl) rfl rfl))
  | processed hm hev hst ho hq => exact .processed hm hev hst ho hq

omit [Primitives] in
/-- The tracked row. -/
theorem recordMaterializedTx_tracked (origins : Table ShortEventId RetentionOrigins)
    (id : ShortEventId) (now : Timestamp) :
    (recordMaterializedTx {} origins id now).get id =
      (origins.get id).map (·.materialize now) := by
  unfold recordMaterializedTx
  cases ho : origins.get id with
  | none => simp [ho]
  | some o =>
    cases hm : o.materializedAt with
    | none => simp [hm, RetentionOrigins.materialize, Table.get_insert_self]
    | some t =>
      have hsame : o.materialize now = o := by
        rw [RetentionOrigins.materialize, hm, Option.some_or, ← hm]
      simp [hm, ho, hsame]

omit [Primitives] in
/-- A payload moves no header. -/
theorem Supplied.events {id : ShortEventId} {now : Timestamp} (h : Supplied ctx db id now db') :
    db'.ev.events = db.ev.events := by
  cases h with
  | kept h => exact h.events
  | processed hm hev hst ho hq => exact hev

theorem Supplied.anchored {id : ShortEventId} {now : Timestamp} (h : Supplied ctx db id now db')
    (ha : Anchored db) : Anchored db' := by
  cases h with
  | kept h => exact h.anchored ha
  | processed hm hev hst ho hq =>
    obtain ⟨last, count, next, hmissing⟩ := classOf_eq_missing.mp hm
    have hstored : ∀ id, isStored db' id = isStored db id := isStored_congr hev
    refine ⟨ha.keyed.congr hev, fun id' s hs => ?_, fun id' o ho' => ?_, fun id' d hd => ?_⟩
    · rw [hev]
      rw [hst, Table.get_remove] at hs
      split at hs
      · cases hs
      · exact ha.states id' s hs
    · rw [hstored]
      by_cases hid : id' = id
      · rw [hid]
        exact isStored_iff.mpr (ha.states id _ hmissing)
      · rw [ho, (recordMaterializedTx_get ctx db.origins id now).1 id' hid] at ho'
        exact ha.origins id' o ho'
    · rw [hstored]
      rw [hq] at hd
      exact ha.decided id' d hd

/-- **A first materialization is recorded under the local clock**; a second one, after a release, finds the row
complete. -/
theorem Supplied.timed {id : ShortEventId} {now : Timestamp} (h : Supplied {} db id now db')
    (ha : Anchored db) : Timed (some now) db db' := by
  have ha' := h.anchored ha
  cases h with
  | kept h => exact h.timed ha _
  | processed hm hev hst ho hq =>
    obtain ⟨last, count, next, hmissing⟩ := classOf_eq_missing.mp hm
    have hother := (recordMaterializedTx_get {} db.origins id now).1
    refine ⟨ha', fun id' e he => ?_, fun id' e hnew he => ?_, fun id' hst' hno hyes => ?_,
      fun id' hst' hor => ?_⟩
    · rw [hev]
      exact he
    · rw [hev, hnew] at he
      cases he
    · refine ⟨now, rfl, ?_⟩
      by_cases hid : id' = id
      · rw [hid, ho]
        exact recordMaterializedTx_tracked db.origins id now
      · have hnone := (isProcessed_iff.mp hyes).2
        rw [hst, Table.get_remove, if_neg hid] at hnone
        rw [isProcessed_iff.mpr ⟨hst', hnone⟩] at hno
        cases hno
    · by_cases hid : id' = id
      · subst hid
        have hyes : isProcessed db' id' = true := by
          refine isProcessed_iff.mpr ⟨by rw [isStored_congr hev]; exact hst', ?_⟩
          rw [hst, Table.get_remove, if_pos rfl]
        rcases hor with hbefore | hafter
        · rw [(isProcessed_iff.mp hbefore).2] at hmissing
          cases hmissing
        · rw [hyes] at hafter
          cases hafter
      · rw [ho, hother id' hid]

/-- The admission-aware boundary: a refusal only schedules. -/
theorem processAdmittedContentTx_supplied (env : Env) (ctx : TxCtx) (db : Database)
    (c : VerifiedEventContent) (now : Timestamp) (ledger : AdmissionState)
    (buffer : Option PayloadBuffer) :
    Ensures (processAdmittedContentTx env ctx db c now ledger buffer)
      (fun r => Supplied ctx db c.event.id now r.1) (fun _ => True) := by
  have hcontent := processEventContentTx_supplied env ctx db c now ledger buffer
  unfold processAdmittedContentTx
  dsimp only
  split
  · next db₁ hok =>
    have hdb := hcontent.of_ok hok
    split
    · exact hdb
    split
    · exact hdb
    · exact hdb
  · exact .kept (ensureMissingScheduledTx_requeued _ _).maintained
  · trivial

theorem tryMaterializeStoredPayload_supplied (env : Env) (ctx : TxCtx) (db : Database)
    (id : ShortEventId) (now : Timestamp) (ledger : AdmissionState) :
    Ensures (tryMaterializeStoredPayload env ctx db id now ledger)
      (fun r => ∃ id', Supplied ctx db id' now r.1) (fun _ => True) := by
  have hdefer : ∃ id', Supplied ctx db id' now { db with ev := ensureMissingScheduledTx db.ev id } :=
    ⟨id, .kept (ensureMissingScheduledTx_requeued _ _).maintained⟩
  unfold tryMaterializeStoredPayload
  split
  · exact ⟨id, .kept (.refl db)⟩
  split
  · exact ⟨id, .kept (.refl db)⟩
  dsimp only
  split
  · exact hdefer
  · trivial
  split
  · exact hdefer
  split
  · exact ⟨id, .kept (.refl db)⟩
  split
  · trivial
  split
  · trivial
  · next c hv =>
    exact (processAdmittedContentTx_supplied env ctx db c now _ _).mono (fun _ h => ⟨_, h⟩)
      fun _ h => h

/-! ## 4. Maintenance

No maintenance operation is given a clock for a receipt, and none of them processes content. -/

/-- A quota release prunes one stored event and writes its decision. -/
theorem pruneQuotaPayloadTx_maintained (env : Env) (db : Database) (request : QuotaPruneRequest) :
    Ensures (pruneQuotaPayloadTx env db request) (fun r => Maintained db r.1) (fun _ => True) := by
  unfold pruneQuotaPayloadTx
  refine (ensures_true _).bind fun _ _ => ?_
  split
  · exact Maintained.refl db
  next e he =>
  split
  · exact Maintained.refl db
  split
  · exact Maintained.refl db
  split
  · next now origins _ _ =>
    split
    · exact Maintained.refl db
    dsimp only
    split
    · trivial
    refine (ensures_true _).bind fun before _ => (ensures_true _).bind fun p _ => ?_
    refine (pruneEventContentTx_effect _ _ e).bind fun ⟨t, _⟩ ht => ?_
    refine ((payloadAfterTx_ensures env _ before).mono (fun _ h => h) fun _ _ => trivial).bind
      fun db₁ ⟨a, x, hdb⟩ => ?_
    subst hdb
    have hst : isStored db request.id = true := isStored_iff.mpr ⟨e, he⟩
    refine ⟨ht.events, fun id hs => ?_, fun id hs => ?_, rfl, fun id d hd => ?_⟩
    · by_cases hid : id = request.id
      · exact .inr (by rw [hid]; exact hst)
      · rw [ht.state_other hid] at hs
        exact .inl hs
    · by_cases hid : id = request.id
      · subst hid
        cases ht with
        | kept _ h =>
          rw [h]
          exact hs
        | pruned _ rc u h =>
          rw [h, Table.get_insert_self]
          rfl
      · rw [ht.state_other hid]
        exact hs
    · by_cases hid : id = request.id
      · exact .inr (by rw [hid]; exact hst)
      · exact .inl ⟨d, by rw [← hd]; exact (Table.get_insert_of_ne _ _ hid).symm⟩
  · exact Maintained.refl db

omit [Primitives] in
theorem collectGarbageLoop_maintained : ∀ (limit : ℕ) (db : Database) (removed : ℕ),
    Ensures (collectGarbageLoop limit db removed) (fun r => Maintained db r.1) (fun _ => True)
  | 0, db, _ => Maintained.refl db
  | limit + 1, db, removed => by
    unfold collectGarbageLoop
    have hstep : Ensures (collectQuotaPayloadStepTx db none u64Max) (fun r => Maintained db r.1)
        (fun _ => True) := ensures_of_ok fun r hr => (collectQuotaPayloadStepTx_aside hr).maintained
    refine hstep.bind fun r hr => ?_
    split
    · exact hr
    · refine (ensures_true _).bind fun n _ => ?_
      exact (collectGarbageLoop_maintained limit _ n).mono (fun _ h => hr.trans h) fun _ h => h

/-- The operations that read no local clock. -/
def Op.isMaintenance : Op → Bool
  | .ingest _ | .ingestAdmitted .. | .materializeStored .. => false
  | _ => true

/-- **Maintenance moves neither headers nor rows.** It may prune and collect, which ends a state and begins none.
-/
theorem step_maintained (env : Env) (db : Database) (o : Op) (h : o.isMaintenance = true) :
    Ensures (step env db o) (Maintained db) (fun _ => True) := by
  cases o with
  | ingest ds => cases h
  | ingestAdmitted c now ledger buffer => cases h
  | materializeStored id now ledger => cases h
  | pruneQuota request => exact (pruneQuotaPayloadTx_maintained env db request).bind fun r hr => hr
  | collectStep after maxBytes =>
    have hstep : Ensures (collectQuotaPayloadStepTx db after maxBytes) (fun r => Maintained db r.1)
        (fun _ => True) := ensures_of_ok fun r hr => (collectQuotaPayloadStepTx_aside hr).maintained
    exact hstep.bind fun r hr => hr
  | collectGarbage limit =>
    simp only [step, collectQuotaPayloadGarbage]
    split
    · trivial
    refine (ensures_true _).bind fun _ _ => ?_
    exact (collectGarbageLoop_maintained limit db 0).bind fun r hr => hr
  | rebuildAccounting limit =>
    exact (rebuildPayloadAccounting_eq env db limit).mono
      (fun _ h => (Aside.of_accounting h).maintained) fun _ h => h
  | rebuildNominations limit =>
    exact (rebuildQuotaPayloadNominations_eq env db limit).mono
      (fun _ h => (Aside.of_accounting h).maintained) fun _ h => h
  | configureRetention policy => exact Maintained.of_classes rfl (fun _ => rfl) rfl rfl
  | rebuildRetention limit =>
    exact (rebuildRetentionIndex_eq env db limit).mono
      (fun _ h => (Aside.of_retention h).maintained) fun _ h => h
  | promoteRetention clock limit =>
    exact (promoteRetentionGrace_eq db clock limit).mono
      (fun _ h => (Aside.of_retention h).maintained) fun _ h => h
  | deferFetch id observed retryAt => exact (rescheduleTx_requeued _ _ _ _ _).maintained
  | recordFailedFetch id observed attemptedAt nextAttemptAt =>
    exact (rescheduleTx_requeued _ _ _ _ _).maintained
  | peekMissing =>
    obtain ⟨q, hq⟩ := peekLoop_effect (db.ev.eventsContentMissing.card + 1) db.ev
    have hrow : Requeued db.ev (peekNextMissingContent db.ev).1 := by
      rw [peekNextMissingContent, hq]
      exact .queue db.ev q
    exact hrow.maintained
  | recalculateNews postId now => exact Maintained.of_classes rfl (fun _ => rfl) rfl rfl

/-- The parts of an operation. -/
theorem Op.parts_cases {o : Op} {p : Part} (h : p ∈ o.parts) :
    (∃ v now source, p = .envelope v now source) ∨ (∃ c now ledger, p = .payload c now ledger) ∨
      (∃ c now ledger buffer, p = .admitted c now ledger buffer) ∨
      (∃ id now ledger, p = .whole (.materializeStored id now ledger)) ∨
      ∃ o', o'.isMaintenance = true ∧ p = .whole o' ∧ p.clock = none := by
  cases o with
  | ingest ds =>
    obtain ⟨d, -, hp⟩ := List.mem_flatMap.mp h
    cases d with
    | envelope v now source =>
      obtain rfl := List.mem_singleton.mp hp
      exact .inl ⟨v, now, source, rfl⟩
    | payload c now ledger =>
      rcases List.mem_pair.mp hp with rfl | rfl
      · exact .inl ⟨c.event, now, _, rfl⟩
      · exact .inr (.inl ⟨c, now, ledger, rfl⟩)
  | ingestAdmitted c now ledger buffer =>
    rcases List.mem_pair.mp h with rfl | rfl
    · exact .inl ⟨c.event, now, _, rfl⟩
    · exact .inr (.inr (.inl ⟨c, now, ledger, buffer, rfl⟩))
  | materializeStored id now ledger =>
    obtain rfl := List.mem_singleton.mp h
    exact .inr (.inr (.inr (.inl ⟨id, now, ledger, rfl⟩)))
  | _ =>
    obtain rfl := List.mem_singleton.mp h
    exact .inr (.inr (.inr (.inr ⟨_, rfl, rfl, rfl⟩)))

/-- **One part, under its clock**, whatever the parts before it have done in the same transaction. -/
theorem runPart_timed (env : Env) {o : Op} {p : Part} (hp : p ∈ o.parts) (ha : Anchored db) :
    Ensures (runPart env db p) (Timed p.clock db) (fun _ => True) := by
  rcases Op.parts_cases hp with ⟨v, now, source, rfl⟩ | ⟨c, now, ledger, rfl⟩ |
    ⟨c, now, ledger, buffer, rfl⟩ | ⟨id, now, ledger, rfl⟩ | ⟨o', ho, rfl, hclock⟩
  · exact (processEventTx_receipt env {} db v now source).bind fun r hr => hr.timed ha
  · exact (processEventContentTx_supplied env {} db c now ledger none).mono
      (fun _ h => h.timed ha) fun _ h => h
  · exact (processAdmittedContentTx_supplied env {} db c now ledger buffer).bind
      fun r hr => hr.timed ha
  · exact (tryMaterializeStoredPayload_supplied env {} db id now ledger).bind
      fun r ⟨_, hr⟩ => hr.timed ha
  · exact (step_maintained env db o' ho).mono (fun _ h => h.timed ha _) fun _ h => h

/-- **A transaction is the sequence of its parts.** The log of a session is about parts, since each of them reads
the clock anew. -/
theorem step_parts (env : Env) (db : Database) (o : Op) :
    step env db o = o.parts.foldlM (runPart env) db := by
  have hdeliver : ∀ (d : Delivery) (db : Database),
      deliver env db d = d.parts.foldlM (runPart env) db := by
    intro d db
    cases d with
    | envelope v now source => simp [deliver, Delivery.parts, runPart]
    | payload c now ledger => simp [deliver, Delivery.parts, runPart]
  cases o with
  | ingest ds =>
    simp only [step, Op.parts]
    induction ds generalizing db with
    | nil => rfl
    | cons d ds ih =>
      rw [List.foldlM_cons, List.flatMap_cons, List.foldlM_append, hdeliver]
      exact bind_congr fun db₁ => ih db₁
  | ingestAdmitted c now ledger buffer =>
    simp [step, Op.parts, runPart, tryProcessAdmittedEventContent]
  | _ => simp [Op.parts, runPart]

end Parts

/-! ## 5. Total replay

A replay stashes the headers, the payloads and the rows, empties the database, processes the envelopes again under
new clocks, and puts the rows back in the end. What the passes in between wrote does not matter; what matters is
that each stashed header comes back, and that every row belongs to one of them. -/

section Replay

variable {env : Env} {db : Database}

omit [Primitives] in
theorem mem_stashedEvents {entry : ShortEventId × Event} :
    entry ∈ stashedEvents db ↔ db.ev.events.get entry.1 = some entry.2 := by
  unfold stashedEvents
  simp only [List.mem_filterMap, Option.map_eq_some_iff]
  constructor
  · rintro ⟨id, -, e, he, rfl⟩
    exact he
  · intro he
    refine ⟨entry.1, ?_, entry.2, he, rfl⟩
    refine Table.mem_firstKeys _ _ le_rfl _ ?_
    rw [Table.mem_keys]
    exact ⟨_, he⟩

/-- The state of the envelope pass: some of the stashed headers, among them those worked off. -/
structure Regrown (db fresh : Database) (done : List (ShortEventId × Event)) (s : Database) :
    Prop where
  keyed : KeyedBy Set.univ s.ev
  states : StatesStored s.ev
  stashed : ∀ id e, s.ev.events.get id = some e → db.ev.events.get id = some e
  done : ∀ entry ∈ done, s.ev.events.get entry.1 = some entry.2
  origins : s.origins = fresh.origins
  decisions : s.quotaPruned = fresh.quotaPruned

/-- **The envelope pass brings every stashed header back.** The loop is over the headers in the order of their ids,
and what it has worked off is stored. -/
theorem replayEnvelopes_regrown (ha : Anchored db) (sourceVer : ℕ) :
    Ensures ((stashedEvents db).foldlM (replayEnvelopeTx env db.eventsReceivedAt)
        (installCurrentSchema sourceVer db))
      (Regrown db (installCurrentSchema sourceVer db) (stashedEvents db)) (fun _ => True) := by
  have hrun := Ensures.foldlM_history (f := replayEnvelopeTx env db.eventsReceivedAt)
    (J := Regrown db (installCurrentSchema sourceVer db)) (E := fun _ => True)
    (stashedEvents db) [] (installCurrentSchema sourceVer db) (fun entry hentry done s hs => ?_) ?_
  · rwa [List.nil_append] at hrun
  · have hstash := mem_stashedEvents.mp hentry
    have hid : (VerifiedEvent.ofEvent entry.2).id = entry.1 := ha.keyed.id_eq hstash
    refine (processEventTx_receipt env replayCtx s _ _ _).bind fun r hr => ?_
    have hrows : r.1.origins = s.origins := by
      cases hr with
      | present e he hev hfin ho hq => exact ho
      | new hnew t₁ isD dp rev hins hfin ho hq => exact ho
    have hsub : ∀ id e, r.1.ev.events.get id = some e → db.ev.events.get id = some e := by
      intro id e he
      rcases hr.events with hev | ⟨-, hev⟩
      · rw [hev] at he
        exact hs.stashed id e he
      · rw [hev, Table.get_insert] at he
        split at he
        · next heq =>
          cases he
          rw [heq, hid]
          exact hstash
        · exact hs.stashed id e he
    refine ⟨hr.keyed hs.keyed, hr.states hs.states, hsub, fun entry' hmem => ?_, hrows.trans hs.origins,
      hr.quotaPruned.trans hs.decisions⟩
    rcases List.mem_append.mp hmem with hold | hself
    · exact hr.kept (hs.done entry' hold)
    · obtain rfl := List.mem_singleton.mp hself
      cases hstored : s.ev.events.get entry'.1 with
      | some e =>
        have heq := hs.stashed _ _ hstored
        rw [hstash] at heq
        cases heq
        exact hr.kept hstored
      | none =>
        cases hr with
        | present e he hev hfin ho hq =>
          rw [hid, hstored] at he
          cases he
        | new hnew t₁ isD dp rev hins hfin ho hq =>
          rw [hfin.events, hins.events, hid, Table.get_insert_self]
          rfl
  · refine ⟨fun id e he => ?_, fun id s hs => ?_, fun id e he => ?_, by simp, rfl, rfl⟩
    · simp [installCurrentSchema] at he
    · simp [installCurrentSchema] at hs
    · simp [installCurrentSchema] at he

/-- **A total replay restores the stashed headers and keeps the restored rows.** The passes run with the
observation of origins switched off, so the rows stay as they were put back. -/
theorem replayTx_restores (ha : Anchored db) (sourceVer : ℕ) (ledger : AdmissionState) :
    Ensures (replayTx env sourceVer ledger db) (fun db' => Anchored db' ∧
      (∀ id, db'.ev.events.get id = db.ev.events.get id) ∧
      db'.origins = (installCurrentSchema sourceVer db).origins) (fun _ => True) := by
  unfold replayTx
  dsimp only
  refine (replayEnvelopes_regrown ha sourceVer).bind fun graph hg => ?_
  have hevents : ∀ id, graph.ev.events.get id = db.ev.events.get id := by
    intro id
    cases hdb : db.ev.events.get id with
    | some e => exact hg.done (id, e) (mem_stashedEvents.mpr hdb)
    | none =>
      by_contra hne
      obtain ⟨e, he⟩ := Option.ne_none_iff_exists'.mp hne
      rw [hg.stashed id e he] at hdb
      cases hdb
  have hstored : ∀ id, isStored graph id = isStored db id := fun id => by
    rw [isStored, isStored, hevents]
  have hanchored : Anchored graph := by
    refine ⟨hg.keyed, hg.states, fun id o ho => ?_, fun id d hd => ?_⟩
    · rw [hg.origins, installCurrentSchema] at ho
      dsimp only at ho
      split at ho
      · rw [hstored]
        exact ha.origins id o ho
      · simp at ho
    · rw [hg.decisions, installCurrentSchema] at hd
      dsimp only at hd
      split at hd
      · rw [hstored]
        exact ha.decided id d hd
      · simp at hd
  have hpass := Ensures.foldlM (f := replayContentTx env db.ev.contentStore ledger)
    (J := fun s => Anchored s ∧ s.ev.events = graph.ev.events ∧ s.origins = graph.origins)
    (E := fun _ => True) (stashedEvents db) graph (fun entry _ s hs => ?_) ⟨hanchored, rfl, rfl⟩
  · refine hpass.bind fun filled hf => ?_
    exact ⟨⟨hf.1.keyed, hf.1.states, hf.1.origins, hf.1.decided⟩,
      fun id => (congrArg (fun t : Table ShortEventId Event => t.get id) hf.2.1).trans (hevents id),
      hf.2.2.trans hg.origins⟩
  · unfold replayContentTx
    dsimp only
    split
    · exact hs
    split
    · exact hs
    split
    · exact hs
    · next c _ =>
      refine (processEventContentTx_supplied env replayCtx s c _ ledger none).mono (fun s' h => ?_)
        fun _ h => h
      refine ⟨h.anchored hs.1, h.events.trans hs.2.1, ?_⟩
      · cases h with
        | kept h => exact h.origins.trans hs.2.2
        | processed hm hev hst ho hq => exact ho.trans hs.2.2

end Replay

/-! ## 6. Sessions

A session is a run in which replays may happen between the transactions. Its log has one record for each part that
observed something, and a replay adds none. -/

theorem anchored_empty : Anchored {} := by
  refine ⟨fun id e he => ?_, fun id s hs => ?_, fun id o ho => ?_, fun id d hd => ?_⟩
  · simp at he
  · simp at hs
  · simp at ho
  · simp at hd

/-- **What the rows say about the log.** Each row has its record of a receipt, and a completed one its record of a
materialization, both the first of their kind. -/
structure Logged (s : Session) : Prop where
  anchored : Anchored s.db
  /-- A header of the log is still stored. -/
  seen : ∀ m ∈ s.log, ∀ id, isStored m.after id = true → isStored s.db id = true
  /-- Receipts and materializations have a clock. -/
  clocked : ∀ m ∈ s.log, ∀ id, m.receives id = true ∨ m.processes id = true →
    ∃ now, m.clock = some now
  rows : ∀ id o, s.db.origins.get id = some o → ∃ e received,
    s.db.ev.events.get id = some e ∧ firstReceipt s.log id = some received ∧
    o.effectiveTimestamp = min e.timestamp received ∧ o.materializedAt = firstProcessed s.log id

section Sessions

variable {env : Env} {s : Session} {db' : Database}

omit [Primitives] in
/-- The first of a kind, after one more record. -/
theorem firstClock_append {p : PartRecord → Bool} {log : List PartRecord}
    (hclocked : ∀ m ∈ log, p m = true → ∃ now, m.clock = some now) (m : PartRecord) :
    ((log ++ [m]).find? p).bind PartRecord.clock =
      ((log.find? p).bind PartRecord.clock).or (if p m then m.clock else none) := by
  rw [List.find?_append]
  cases hfind : log.find? p with
  | some m' =>
    obtain ⟨now, hnow⟩ := hclocked m' (List.mem_of_find?_eq_some hfind) (List.find?_some hfind)
    simp [hnow]
  | none =>
    by_cases hp : p m = true
    · simp [hp]
    · simp [hp]

theorem Logged.firstReceipt_append (h : Logged s) (m : PartRecord) (id : ShortEventId) :
    firstReceipt (s.log ++ [m]) id =
      (firstReceipt s.log id).or (if m.receives id then m.clock else none) :=
  firstClock_append (fun m' hm' hp => h.clocked m' hm' id (.inl hp)) m

theorem Logged.firstProcessed_append (h : Logged s) (m : PartRecord) (id : ShortEventId) :
    firstProcessed (s.log ++ [m]) id =
      (firstProcessed s.log id).or (if m.processes id then m.clock else none) :=
  firstClock_append (fun m' hm' hp => h.clocked m' hm' id (.inr hp)) m

/-- Nothing was logged of a header that is not stored. -/
theorem Logged.unseen (h : Logged s) {id : ShortEventId} (hno : isStored s.db id = false) :
    firstReceipt s.log id = none ∧ firstProcessed s.log id = none := by
  have hafter : ∀ m ∈ s.log, isStored m.after id = false := by
    intro m hm
    by_contra hne
    rw [h.seen m hm id (Bool.not_eq_false _ ▸ hne)] at hno
    cases hno
  have hreceives : s.log.find? (PartRecord.receives id) = none :=
    List.find?_eq_none.mpr fun m hm => by simp [PartRecord.receives, hafter m hm]
  have hprocesses : s.log.find? (PartRecord.processes id) = none :=
    List.find?_eq_none.mpr fun m hm => by simp [PartRecord.processes, isProcessed, hafter m hm]
  exact ⟨by rw [firstReceipt, hreceives]; rfl, by rw [firstProcessed, hprocesses]; rfl⟩

omit [Primitives] in
theorem PartRecord.receives_eq_false {m : PartRecord} {id : ShortEventId}
    (h : isStored m.before id = true) : m.receives id = false := by
  rw [PartRecord.receives, h]
  rfl

/-- **The log after one more part.** A row that was there is older than the part; one that is new has its record at
the end of the log. -/
theorem Logged.part (h : Logged s) {clock : Option Timestamp} (ht : Timed clock s.db db') :
    Logged ⟨db', s.log ++ [⟨s.db, db', clock, true⟩]⟩ := by
  have hkept : ∀ id, isStored s.db id = true → isStored db' id = true := by
    intro id hst
    obtain ⟨e, he⟩ := isStored_iff.mp hst
    exact isStored_iff.mpr ⟨e, ht.kept id e he⟩
  refine ⟨ht.anchored, fun m hm id hst => ?_, fun m hm id hor => ?_, fun id o ho => ?_⟩
  · rcases List.mem_append.mp hm with hm | hm
    · exact hkept id (h.seen m hm id hst)
    · obtain rfl := List.mem_singleton.mp hm
      exact hst
  · rcases List.mem_append.mp hm with hm | hm
    · exact h.clocked m hm id hor
    obtain rfl := List.mem_singleton.mp hm
    simp only [PartRecord.receives, PartRecord.processes, Bool.true_and, Bool.and_eq_true,
      Bool.not_eq_true'] at hor
    cases hst : s.db.ev.events.get id with
    | none =>
      have hafter : isStored db' id = true := by
        rcases hor with hor | hor
        · exact hor.2
        · exact (isProcessed_iff.mp hor.2).1
      obtain ⟨e, he⟩ := isStored_iff.mp hafter
      obtain ⟨now, hclock, -⟩ := ht.arrived id e hst he
      exact ⟨now, hclock⟩
    | some e =>
      have hbefore : isStored s.db id = true := isStored_iff.mpr ⟨e, hst⟩
      rcases hor with hor | hor
      · rw [hor.1] at hbefore
        cases hbefore
      · obtain ⟨now, hclock, -⟩ := ht.turned id hbefore hor.1 hor.2
        exact ⟨now, hclock⟩
  · rw [h.firstReceipt_append, h.firstProcessed_append]
    cases hst : s.db.ev.events.get id with
    | none =>
      -- the row of a new header
      have hbefore : isStored s.db id = false := by rw [isStored, hst]; rfl
      obtain ⟨hreceipt, hprocessed⟩ := h.unseen hbefore
      have hafter := ht.anchored.origins id o ho
      obtain ⟨e, he⟩ := isStored_iff.mp hafter
      obtain ⟨now, hclock, hrow⟩ := ht.arrived id e hst he
      rw [hrow] at ho
      cases ho
      refine ⟨e, now, he, ?_, rfl, ?_⟩
      · rw [hreceipt, hclock]
        simp [PartRecord.receives, hbefore, hafter]
      · rw [hprocessed, hclock]
        simp [PartRecord.processes, isProcessed, hbefore]
    | some e =>
      have hbefore : isStored s.db id = true := isStored_iff.mpr ⟨e, hst⟩
      rw [PartRecord.receives_eq_false hbefore]
      by_cases hturn : isProcessed s.db id = false ∧ isProcessed db' id = true
      · obtain ⟨now, hclock, hrow⟩ := ht.turned id hbefore hturn.1 hturn.2
        rw [ho] at hrow
        obtain ⟨o₀, ho₀, rfl⟩ := Option.map_eq_some_iff.mp hrow.symm
        obtain ⟨e', received, he', hreceipt, heff, hmat⟩ := h.rows id o₀ ho₀
        refine ⟨e', received, ht.kept id e' he', by rw [hreceipt]; rfl, heff, ?_⟩
        rw [RetentionOrigins.materialize, hmat, hclock]
        simp [PartRecord.processes, hturn]
      · have hrow := ht.settled id hbefore (by
          rw [not_and_or, Bool.not_eq_false, Bool.not_eq_true] at hturn
          exact hturn)
        rw [hrow] at ho
        obtain ⟨e', received, he', hreceipt, heff, hmat⟩ := h.rows id o ho
        refine ⟨e', received, ht.kept id e' he', by rw [hreceipt]; rfl, heff, ?_⟩
        have hno : PartRecord.processes id ⟨s.db, db', clock, true⟩ = false := by
          rw [PartRecord.processes, Bool.true_and, Bool.and_eq_false_iff, Bool.not_eq_false']
          rw [not_and_or, Bool.not_eq_false, Bool.not_eq_true] at hturn
          exact hturn
        rw [hmat, hno, if_neg Bool.false_ne_true, Option.or_none]

/-- **The log after a total replay**, which is no local observation. -/
theorem Logged.replay (h : Logged s) (ha : Anchored db')
    (hev : ∀ id, db'.ev.events.get id = s.db.ev.events.get id)
    (ho : db'.origins = s.db.origins) :
    Logged ⟨db', s.log ++ [⟨s.db, db', none, false⟩]⟩ := by
  have hstored : ∀ id, isStored db' id = isStored s.db id := fun id => by
    rw [isStored, isStored, hev]
  have hreceives : ∀ id, PartRecord.receives id ⟨s.db, db', none, false⟩ = false := by
    intro id
    simp [PartRecord.receives, hstored]
  have hprocesses : ∀ id, PartRecord.processes id ⟨s.db, db', none, false⟩ = false := fun _ => rfl
  refine ⟨ha, fun m hm id hst => ?_, fun m hm id hor => ?_, fun id o hrow => ?_⟩
  · rw [hstored]
    rcases List.mem_append.mp hm with hm | hm
    · exact h.seen m hm id hst
    · obtain rfl := List.mem_singleton.mp hm
      rw [← hstored]
      exact hst
  · rcases List.mem_append.mp hm with hm | hm
    · exact h.clocked m hm id hor
    · obtain rfl := List.mem_singleton.mp hm
      rw [hreceives, hprocesses] at hor
      simp at hor
  · dsimp only at hrow ⊢
    rw [ho] at hrow
    obtain ⟨e, received, he, hreceipt, heff, hmat⟩ := h.rows id o hrow
    refine ⟨e, received, (hev id).trans he, ?_, heff, ?_⟩
    · rw [h.firstReceipt_append, hreceives, hreceipt]
      rfl
    · rw [h.firstProcessed_append, hprocesses, hmat, if_neg Bool.false_ne_true, Option.or_none]

/-! ## 7. Every session

The induction over a session, and what it says about one row: it is the first record of its kind. -/

/-- A row that a part finds is kept. -/
theorem Timed.row_kept {db : Database} {clock : Option Timestamp} (h : Timed clock db db')
    (ha : Anchored db) {id : ShortEventId} {o : RetentionOrigins} (ho : db.origins.get id = some o) :
    ∃ o', db'.origins.get id = some o' ∧ OriginKept o o' := by
  have hst := ha.origins id o ho
  by_cases hturn : isProcessed db id = false ∧ isProcessed db' id = true
  · obtain ⟨now, -, hrow⟩ := h.turned id hst hturn.1 hturn.2
    refine ⟨o.materialize now, by rw [hrow, ho]; rfl, rfl, fun hsome => ?_⟩
    obtain ⟨t, hat⟩ := Option.isSome_iff_exists.mp hsome
    rw [RetentionOrigins.materialize, hat, Option.some_or, ← hat]
  · rw [not_and_or, Bool.not_eq_false, Bool.not_eq_true] at hturn
    exact ⟨o, by rw [h.settled id hst hturn, ho], .refl o⟩

/-- Rows are kept from one state to the next. -/
def RowsKept (s s' : Session) : Prop :=
  ∀ id o, s.db.origins.get id = some o → ∃ o', s'.db.origins.get id = some o' ∧ OriginKept o o'

omit [Primitives] in
theorem RowsKept.refl (s : Session) : RowsKept s s := fun _ o ho => ⟨o, ho, .refl o⟩

omit [Primitives] in
theorem RowsKept.trans {s' s'' : Session} (h : RowsKept s s') (h' : RowsKept s' s'') :
    RowsKept s s'' := by
  intro id o ho
  obtain ⟨o', ho', hkept⟩ := h id o ho
  obtain ⟨o'', ho'', hkept'⟩ := h' id o' ho'
  exact ⟨o'', ho'', hkept.trans hkept'⟩

theorem sessionStep_logged (h : Logged s) (o : SessionOp) :
    Ensures (sessionStep env s o) (fun s' => Logged s' ∧ RowsKept s s') (fun _ => True) := by
  cases o with
  | write o =>
    refine Ensures.foldlM (J := fun s' => Logged s' ∧ RowsKept s s') o.parts s
      (fun p hp s₁ hs₁ => ?_) ⟨h, .refl s⟩
    refine (runPart_timed env hp hs₁.1.anchored).bind fun db₁ ht => ?_
    exact ⟨hs₁.1.part ht, hs₁.2.trans fun id o ho => ht.row_kept hs₁.1.anchored ho⟩
  | replay sourceVer hver ledger =>
    refine (replayTx_restores h.anchored sourceVer ledger).bind fun db₁ ⟨ha, hev, ho⟩ => ?_
    have hrows : db₁.origins = s.db.origins := ho.trans (if_pos hver)
    exact ⟨h.replay ha hev hrows, fun id o hrow => ⟨o, by rw [← hrow, ← hrows], .refl o⟩⟩

theorem session_logged {db₀ : Database} (ha : Anchored db₀) (hrows : db₀.origins = ∅)
    (ops : List SessionOp) : Logged (session env db₀ ops) := by
  refine run_invariant ops _ (fun o _ s s' hs hok => ((sessionStep_logged hs o).of_ok hok).1) ?_
  refine ⟨ha, by simp, by simp, fun id o ho => ?_⟩
  rw [hrows] at ho
  simp at ho

theorem session_rowsKept {db₀ : Database} (ha : Anchored db₀) (hrows : db₀.origins = ∅)
    (ops ops' : List SessionOp) :
    RowsKept (session env db₀ ops) (session env db₀ (ops ++ ops')) := by
  rw [session, session, run_append]
  exact run_relation RowsKept.refl (fun _ _ _ => RowsKept.trans) (J := Logged) ops' _
    (fun o _ s s' hs hok => (sessionStep_logged hs o).of_ok hok) (session_logged ha hrows ops)

/-- A materialization that the log has, and the row that is set. -/
theorem Logged.materialized_iff (h : Logged s) {id : ShortEventId} {o : RetentionOrigins}
    (ho : s.db.origins.get id = some o) :
    o.materializedAt.isSome = true ↔ ∃ m ∈ s.log, m.processes id = true := by
  obtain ⟨e, received, -, -, -, hmat⟩ := h.rows id o ho
  rw [hmat, firstProcessed]
  constructor
  · intro hsome
    cases hfind : s.log.find? (PartRecord.processes id) with
    | none =>
      rw [hfind] at hsome
      cases hsome
    | some m => exact ⟨m, List.mem_of_find?_eq_some hfind, List.find?_some hfind⟩
  · rintro ⟨m, hm, hp⟩
    cases hfind : s.log.find? (PartRecord.processes id) with
    | none => exact absurd hp (List.find?_eq_none.mp hfind m hm)
    | some m' =>
      obtain ⟨now, hnow⟩ := h.clocked m' (List.mem_of_find?_eq_some hfind) id
        (.inr (List.find?_some hfind))
      simp [hnow]

variable (env) in
/-- **Retention origins are immutable.**  In every session, a row says when its event was first
received, bounded by the author's timestamp, and when its content was first processed outside a total
replay, if it ever was; and no later transaction changes either time once it is set. -/
theorem retention_origins_immutable {db₀ : Database} (ha : Anchored db₀) (hrows : db₀.origins = ∅)
    (ops : List SessionOp) :
    (∀ id o, (session env db₀ ops).db.origins.get id = some o → ∃ e received,
      (session env db₀ ops).db.ev.events.get id = some e ∧
      firstReceipt (session env db₀ ops).log id = some received ∧
      o.effectiveTimestamp = min e.timestamp received ∧
      o.materializedAt = firstProcessed (session env db₀ ops).log id ∧
      (o.materializedAt.isSome = true ↔
        ∃ m ∈ (session env db₀ ops).log, m.processes id = true)) ∧
    ∀ earlier later, ops = earlier ++ later → ∀ id o,
      (session env db₀ earlier).db.origins.get id = some o →
      ∃ o', (session env db₀ ops).db.origins.get id = some o' ∧
        o'.effectiveTimestamp = o.effectiveTimestamp ∧
        (o.materializedAt.isSome = true → o'.materializedAt = o.materializedAt) := by
  have hlogged : Logged (session env db₀ ops) := session_logged ha hrows ops
  refine ⟨fun id o ho => ?_, fun earlier later heq id o ho => ?_⟩
  · obtain ⟨e, received, he, hreceipt, heff, hmat⟩ := hlogged.rows id o ho
    exact ⟨e, received, he, hreceipt, heff, hmat, hlogged.materialized_iff ho⟩
  · subst heq
    obtain ⟨o', ho', heff, hmat⟩ := session_rowsKept ha hrows earlier later id o ho
    exact ⟨o', ho', heff, fun hsome => by rw [hmat hsome]⟩

end Sessions

end Rows

section Sample

attribute [local instance] Primitives.reference

/-- A post of another author with the bytes of the sample post. -/
def sampleTwin : Event :=
  { kind := EventKind.SOCIAL_POST, contentLen := 2, timestamp := 2, author := toLex (2, 2)
    contentHash := blake3 [0, 65] }

/-- The twin's payload is never delivered; a replay finds its bytes. -/
def sampleReplay : List SessionOp :=
  [.write (.ingest [.payload samplePayload 5 {}]),
    .write (.ingest [.envelope (.ofEvent sampleTwin) 6 .local]), .replay 33 (by decide) {}]

/-- A run with a replay in the middle. -/
theorem retention_origins_immutable_sampleReplay :
    (∀ id o, (session sampleEnv {} sampleReplay).db.origins.get id = some o → ∃ e received,
      (session sampleEnv {} sampleReplay).db.ev.events.get id = some e ∧
      firstReceipt (session sampleEnv {} sampleReplay).log id = some received ∧
      o.effectiveTimestamp = min e.timestamp received ∧
      o.materializedAt = firstProcessed (session sampleEnv {} sampleReplay).log id ∧
      (o.materializedAt.isSome = true ↔
        ∃ m ∈ (session sampleEnv {} sampleReplay).log, m.processes id = true)) ∧
    ∀ earlier later, sampleReplay = earlier ++ later → ∀ id o,
      (session sampleEnv {} earlier).db.origins.get id = some o →
      ∃ o', (session sampleEnv {} sampleReplay).db.origins.get id = some o' ∧
        o'.effectiveTimestamp = o.effectiveTimestamp ∧
        (o.materializedAt.isSome = true → o'.materializedAt = o.materializedAt) :=
  retention_origins_immutable sampleEnv anchored_empty rfl sampleReplay

/-- The replay processes the twin and leaves its row as it was. -/
theorem retention_origins_replayed :
    ¬ ∀ (ops : List SessionOp) (id : ShortEventId) (o : RetentionOrigins),
      (session sampleEnv {} ops).db.origins.get id = some o →
      isProcessed (session sampleEnv {} ops).db id = true → o.materializedAt.isSome = true := by
  intro h
  have hrow : ((session sampleEnv {} sampleReplay).db.origins.get 2).map
      RetentionOrigins.materializedAt = some none := by
    decide +kernel
  obtain ⟨o, ho, hnone⟩ := Option.map_eq_some_iff.mp hrow
  have hsome := h sampleReplay 2 o ho (by decide +kernel)
  rw [hnone] at hsome
  cases hsome

end Sample

end Rostra.Db
