/-
# The pieces of a transaction

`Effects` forgets the bookkeeping: there it may change at will.  The invariants OF the bookkeeping
(accounting, quota provenance, retention index) need the opposite view, the one in which nothing is
forgotten.  A transaction is cut into pieces here: brackets, which are a reducer between its snapshot
and the end of its bookkeeping, and the maintenance steps, which are kept as the equations they are.

* `Reducer` is the inside of a bracket: an envelope, a payload or a quota release.
* `Piece` is a bracket or a maintenance step, and every committed step is a sequence of pieces
  (`step_pieces`).
* An invariant is one case for each piece (`run_pieces`); a relation between earlier and later states
  as well (`run_pieces_relation`).
* A transaction that fails with an error of the bookkeeping failed in a hook or in a step of
  maintenance, of a state that pieces lead to (`Blame`, `step_blame`).

Which view to take is a question of what the invariant mentions. One that speaks of events, bytes and projections
is shown over effects; one that speaks of sums, decisions or index rows is shown over pieces, and gets the effect
of each reducer with it.
-/
import Rostra.Proofs.Accounting
import Rostra.Proofs.Errors

namespace Rostra.Db

open Rostra Outcome

variable [Primitives]

/-! ## 1. What a transaction is made of

`Piece` has one constructor for the bracket and one for each step of maintenance, with the equation of the code for
its premise. Errors need the same care: an error is blamed on the piece that raised it, in the state where it did. -/

/-- What has to hold for a quota release to get past its gates. -/
structure Released (env : Env) (db : Database) (request : QuotaPruneRequest) (e : Event)
    (now : Timestamp) (origins : RetentionOrigins) : Prop where
  ready : requirePayloadAccountingReadyTx db.accounting = .ok ()
  stored : db.ev.events.get request.id = some e
  target : targetMatches request.target (db.ev.eventsContentState.get request.id) = true
  remote : e.author ≠ env.selfId
  kind : e.kind = EventKind.SOCIAL_POST
  nonempty : 0 < e.contentLen
  clock : request.clock = .trusted now
  received : db.origins.get request.id = some origins
  permit : originsPermit request origins now = true
  undecided : db.quotaPruned.get request.id = none

/-- The inside of a bracket. -/
inductive Reducer (env : Env) (D : Set VerifiedEvent) (Q : Set QuotaPruneRequest) (db : Database) :
    VerifiedEvent → Database → Prop
  | envelope {v : VerifiedEvent} {now : Timestamp} {source : EventReceivedSource}
      {r : Database × InsertEventOutcome × ProcessEventState} (hv : v ∈ D)
      (h : processEventInnerTx env {} db v now source = .ok r) : Reducer env D Q db v r.1
  | payload {c : VerifiedEventContent} {now : Timestamp} {ledger : AdmissionState}
      {buffer : Option PayloadBuffer} {db₁ : Database} (hc : c.event ∈ D)
      (hst : db.ev.events.get c.event.id = some c.event.event)
      (h : processEventContentInnerTx env {} db c now ledger buffer = .ok db₁) :
      Reducer env D Q db c.event db₁
  | released {request : QuotaPruneRequest} {e : Event} {now : Timestamp}
      {origins : RetentionOrigins} {p : Projections} {r : EventTables × Bool}
      (hq : request ∈ Q) (h : Released env db request e now origins)
      (hp : dematerializeTx db (.ofEvent e) request.target = .ok p)
      (ht : pruneEventContentTx db.ev request.id e = .ok r) :
      Reducer env D Q db (.ofEvent e) { db with
        ev := r.1
        proj := p
        quotaPruned := db.quotaPruned.insert request.id ⟨request.reason, now⟩
        accounting := nominateQuotaHashTx db.accounting e.contentHash }

/-- Slots of the schedule moved; nothing else did, not even a class. -/
structure Requeued (t t' : EventTables) : Prop where
  eq : t' = { t with
    eventsContentState := t'.eventsContentState
    eventsContentMissing := t'.eventsContentMissing }
  classes : ∀ id, contentClass t' id = contentClass t id

/-- **One piece of a transaction**: a bracket with its reducer, or one step of maintenance as the equation it is.
-/
inductive Piece (env : Env) (D : Set VerifiedEvent) (Q : Set QuotaPruneRequest) (db : Database) :
    Database → Prop
  | bracket {v : VerifiedEvent} {before : PayloadBefore} {db₁ db₂ : Database} {t : EventTables}
      (hbefore : payloadBeforeTx env db.ev v = .ok before) (hred : Reducer env D Q db v db₁)
      (hafter : payloadAfterTx env db₁ before = .ok db₂) (hq : Requeued db₂.ev t) :
      Piece env D Q db { db₂ with ev := t }
  | collected {after : Option ContentHash} {maxBytes : ℕ}
      {r : Database × Option ContentHash × ℕ}
      (h : collectQuotaPayloadStepTx db after maxBytes = .ok r) : Piece env D Q db r.1
  | accounted {limit : ℕ} {db' : Database} (h : rebuildPayloadAccounting env db limit = .ok db') :
      Piece env D Q db db'
  | nominated {limit : ℕ} {db' : Database}
      (h : rebuildQuotaPayloadNominations env db limit = .ok db') : Piece env D Q db db'
  | configured (policy : RetentionPolicy) : Piece env D Q db
      { db with retention := configureRetentionIndexTx db.retention ⟨policy, env.selfId⟩ }
  | indexed {limit : ℕ} {db' : Database} (h : rebuildRetentionIndex env db limit = .ok db') :
      Piece env D Q db db'
  | promoted {clock : RetentionClock} {limit : ℕ} {db' : Database}
      (h : promoteRetentionGrace db clock limit = .ok db') : Piece env D Q db db'
  | scheduled {t : EventTables} (h : Requeued db.ev t) : Piece env D Q db { db with ev := t }
  | ranked (postId : ExternalEventId) (now : Timestamp) :
      Piece env D Q db { db with proj := (recalculateNewsPostScoreTx db.proj postId now).1 }

/-- **Where an error of the bookkeeping comes from.** The constructors name the hook or the step that raised it.
The last case is that it is none. -/
inductive Blame (env : Env) (D : Set VerifiedEvent) (Q : Set QuotaPruneRequest) (db : Database) :
    DbError → Prop
  | before {v : VerifiedEvent} {e : DbError} (hv : v ∈ D)
      (h : payloadBeforeTx env db.ev v = .error e) : Blame env D Q db e
  | after {v : VerifiedEvent} {before : PayloadBefore} {db₁ : Database} {e : DbError}
      (hbefore : payloadBeforeTx env db.ev v = .ok before) (hred : Reducer env D Q db v db₁)
      (h : payloadAfterTx env db₁ before = .error e) : Blame env D Q db e
  | collected {after : Option ContentHash} {maxBytes : ℕ} {e : DbError}
      (h : collectQuotaPayloadStepTx db after maxBytes = .error e) : Blame env D Q db e
  | accounted {limit : ℕ} {e : DbError} (h : rebuildPayloadAccounting env db limit = .error e) :
      Blame env D Q db e
  | nominated {limit : ℕ} {e : DbError}
      (h : rebuildQuotaPayloadNominations env db limit = .error e) : Blame env D Q db e
  | indexed {limit : ℕ} {e : DbError} (h : rebuildRetentionIndex env db limit = .error e) :
      Blame env D Q db e
  | promoted {clock : RetentionClock} {limit : ℕ} {e : DbError}
      (h : promoteRetentionGrace db clock limit = .error e) : Blame env D Q db e
  | other {e : DbError} (h : ¬IsHookError e) : Blame env D Q db e

omit [Primitives] in
theorem Requeued.refl (t : EventTables) : Requeued t t := ⟨rfl, fun _ => rfl⟩

omit [Primitives] in
theorem Requeued.queue (t : EventTables) (q : Finset (Timestamp ×ₗ ShortEventId)) :
    Requeued t { t with eventsContentMissing := q } := ⟨rfl, fun _ => rfl⟩

omit [Primitives] in
theorem ensureMissingScheduledTx_requeued (t : EventTables) (id : ShortEventId) :
    Requeued t (ensureMissingScheduledTx t id) := by
  obtain ⟨q, hq⟩ := ensureMissingScheduledTx_effect t id
  rw [hq]
  exact .queue t q

omit [Primitives] in
theorem rescheduleTx_requeued (t : EventTables) (id : ShortEventId) (observed next : Timestamp)
    (update : Option Timestamp → ℕ → Option Timestamp × ℕ) :
    Requeued t (rescheduleTx t id observed next update) := by
  refine ⟨?_, (rescheduleTx_rescheduled t id observed next update).classes⟩
  rcases rescheduleTx_effect t id observed next update with heq | ⟨_, _, _, _, _, -, -, -, heq⟩
  · rw [heq]
  · rw [heq]

/-- Every quota request of the run comes from `Q`. -/
def RequestedFrom (Q : Set QuotaPruneRequest) (ops : List Op) : Prop :=
  ∀ request, Op.pruneQuota request ∈ ops → request ∈ Q

/-- Any request will do. -/
theorem requestedFrom_univ (ops : List Op) : RequestedFrom Set.univ ops := fun _ _ => Set.mem_univ _

/-- A sequence of pieces, with the event invariant `I` between any two. -/
def Pieces (env : Env) (D : Set VerifiedEvent) (Q : Set QuotaPruneRequest) (I : EventTables → Prop) :
    Database → Database → Prop :=
  Relation.ReflTransGen fun db db' =>
    OnGround D I db.ev ∧ OnGround D I db'.ev ∧ Piece env D Q db db'

/-- An error of the state that the pieces have led to. -/
def Blamed (env : Env) (D : Set VerifiedEvent) (Q : Set QuotaPruneRequest) (I : EventTables → Prop)
    (db : Database) (e : DbError) : Prop :=
  ∃ db', Pieces env D Q I db db' ∧ Blame env D Q db' e

section Steps

variable {D : Set VerifiedEvent} {Q : Set QuotaPruneRequest} {I : EventTables → Prop}
  {M : VerifiedEvent → EventTables → Prop} {E : DbError → Prop} {env : Env} {db : Database}

theorem Pieces.refl (db : Database) : Pieces env D Q I db db := Relation.ReflTransGen.refl

theorem Pieces.single {db db' : Database} (hI : OnGround D I db.ev) (hI' : OnGround D I db'.ev)
    (h : Piece env D Q db db') : Pieces env D Q I db db' :=
  Relation.ReflTransGen.single ⟨hI, hI', h⟩

theorem Pieces.trans {db db' db'' : Database} (h : Pieces env D Q I db db')
    (h' : Pieces env D Q I db' db'') : Pieces env D Q I db db'' := Relation.ReflTransGen.trans h h'

theorem Blame.blamed {e : DbError} (h : Blame env D Q db e) : Blamed env D Q I db e :=
  ⟨db, .refl db, h⟩

theorem Pieces.blamed {db db' : Database} (h : Pieces env D Q I db db') {e : DbError}
    (he : Blamed env D Q I db' e) : Blamed env D Q I db e := by
  obtain ⟨db'', h', hb⟩ := he
  exact ⟨db'', h.trans h', hb⟩

/-- A computation whose errors are known to be somebody's. -/
theorem ensures_blame {α : Type} {m : DbResult α} (h : ∀ e, m = .error e → Blame env D Q db e) :
    Ensures m (fun a => m = .ok a) (Blame env D Q db) :=
  (ensures_self m).mono (fun _ h => h) h

theorem Unbooked.blame {α : Type} {m : DbResult α} (h : Unbooked m) :
    Ensures m (fun a => m = .ok a) (Blame env D Q db) :=
  ensures_blame fun _ he => .other (h.of_error he)

/-! ## 2. Every step is a sequence of pieces

Operation by operation, down the code. The empty sequence is the case of a transaction that returns early. -/

theorem processEventTx_piece {v : VerifiedEvent} (hv : v ∈ D) (now : Timestamp)
    (source : EventReceivedSource) :
    Ensures (processEventTx env {} db v now source) (fun r => Piece env D Q db r.1)
      (Blame env D Q db) := by
  unfold processEventTx
  refine (ensures_blame fun e he => .before hv he).bind fun before hbefore => ?_
  refine (processEventInnerTx_unbooked env {} db v now source).blame.bind fun r hinner => ?_
  have hred : Reducer env D Q db v r.1 := .envelope hv hinner
  refine (ensures_blame fun e he => .after hbefore hred he).bind fun db₂ hafter => ?_
  exact .bracket hbefore hred hafter (ensureMissingScheduledTx_requeued _ _)

theorem processEventTx_pieces (h : Keeps D Anything AnythingMid I M E) (hcf : CollisionFree D)
    (hI : OnGround D I db.ev) {v : VerifiedEvent} (hv : v ∈ D) (now : Timestamp)
    (source : EventReceivedSource) :
    Ensures (processEventTx env {} db v now source)
      (fun r => OnGround D I r.1.ev ∧ r.1.ev.events.get v.id = some v.event ∧
        Pieces env D Q I db r.1) (Blamed env D Q I db) :=
  ((processEventTx_effects h hcf hI hv now source).and (processEventTx_piece hv now source)).mono
    (fun _ hr => ⟨hr.1.1, hr.1.2.1, .single hI hr.1.1 hr.2⟩) fun _ he => he.2.blamed

theorem processEventContentTx_pieces (h : Keeps D Anything AnythingMid I M E)
    (hI : OnGround D I db.ev) {c : VerifiedEventContent}
    (hc : db.ev.events.get c.event.id = some c.event.event) (now : Timestamp)
    (ledger : AdmissionState) (buffer : Option PayloadBuffer) :
    Ensures (processEventContentTx env {} db c now ledger buffer)
      (fun db' => OnGround D I db'.ev ∧ Pieces env D Q I db db') (Blamed env D Q I db) := by
  have hcD : c.event ∈ D := by
    obtain ⟨w, hw, -, he⟩ := hI.1.keyed _ _ hc
    rw [← VerifiedEvent.ext_event he]
    exact hw
  have hpiece : Ensures (processEventContentTx env {} db c now ledger buffer)
      (Piece env D Q db) (Blame env D Q db) := by
    unfold processEventContentTx
    refine (ensures_blame fun e he => .before hcD he).bind fun before hbefore => ?_
    refine (processEventContentInnerTx_unbooked env {} db c now ledger buffer).blame.bind
      fun db₁ hinner => ?_
    have hred : Reducer env D Q db c.event db₁ := .payload hcD hc hinner
    refine (ensures_blame fun e he => .after hbefore hred he).mono (fun db₂ hafter => ?_) fun _ h => h
    exact .bracket hbefore hred hafter (.refl _)
  refine ((processEventContentTx_effects h hI hc now ledger buffer).and hpiece).mono
    (fun db' hr => ⟨hr.1.1, .single hI hr.1.1 hr.2⟩) fun _ he => he.2.blamed

theorem processAdmittedContentTx_pieces (h : Keeps D Anything AnythingMid I M E)
    (hI : OnGround D I db.ev) {c : VerifiedEventContent}
    (hc : db.ev.events.get c.event.id = some c.event.event) (now : Timestamp)
    (ledger : AdmissionState) (buffer : Option PayloadBuffer) :
    Ensures (processAdmittedContentTx env {} db c now ledger buffer)
      (fun r => OnGround D I r.1.ev ∧ Pieces env D Q I db r.1) (Blamed env D Q I db) := by
  have hcontent : Ensures (processEventContentTx env {} db c now ledger buffer)
      (fun db' => OnGround D I db'.ev ∧ Pieces env D Q I db db') (Blamed env D Q I db) :=
    processEventContentTx_pieces h hI hc now ledger buffer
  unfold processAdmittedContentTx
  dsimp only
  split
  · next db' hok =>
    have hdb' := hcontent.of_ok hok
    split
    · exact hdb'
    split
    · exact hdb'
    · exact hdb'
  · have hI' := hI.defer h c.event.id
    exact ⟨hI', .single hI hI' (.scheduled (ensureMissingScheduledTx_requeued _ _))⟩
  · next e _ he => exact hcontent.of_error he

theorem tryMaterializeStoredPayload_pieces (h : Keeps D Anything AnythingMid I M E)
    (hI : OnGround D I db.ev) (id : ShortEventId) (now : Timestamp) (ledger : AdmissionState) :
    Ensures (tryMaterializeStoredPayload env {} db id now ledger)
      (fun r => Pieces env D Q I db r.1) (Blamed env D Q I db) := by
  have hdefer : Pieces env D Q I db { db with ev := ensureMissingScheduledTx db.ev id } :=
    .single hI (hI.defer h id) (.scheduled (ensureMissingScheduledTx_requeued _ _))
  have hstore : Blamed env D Q I db (.payloadAccountingInvariant .store) :=
    (Blame.other (by simp [IsHookError, IsAccountingError, IsIndexError])).blamed
  unfold tryMaterializeStoredPayload
  split
  · exact Pieces.refl db
  next e he =>
  split
  · exact Pieces.refl db
  dsimp only
  split
  · exact hdefer
  · next err _ herr =>
    exact (Blame.other ((admitMaterializationTx_reducing _ _ _ _).of_error herr).not_hook).blamed
  split
  · exact hdefer
  split
  · exact Pieces.refl db
  split
  · exact hstore
  split
  · exact hstore
  · next c hv =>
    have hce : c.event = VerifiedEvent.ofEvent e := (VerifiedEventContent.verify_eq_some hv).1
    refine (processAdmittedContentTx_pieces h hI ?_ now _ _).mono (fun _ hr => hr.2) fun _ h => h
    rw [hce, hI.1.keyed.id_eq he, he]
    rfl

theorem pruneQuotaPayloadTx_pieces (h : Keeps D Anything AnythingMid I M E)
    (hI : OnGround D I db.ev) {request : QuotaPruneRequest} (hq : request ∈ Q) :
    Ensures (pruneQuotaPayloadTx env db request) (fun r => Pieces env D Q I db r.1)
      (Blamed env D Q I db) := by
  have hpiece : Ensures (pruneQuotaPayloadTx env db request)
      (fun r => r.1 = db ∨ Piece env D Q db r.1) (Blame env D Q db) := by
    unfold pruneQuotaPayloadTx
    refine (requirePayloadAccountingReadyTx_reducing _).unbooked.blame.bind fun _ hready => ?_
    split
    · exact .inl rfl
    next e he =>
    split
    · exact .inl rfl
    next hmatch =>
    split
    · exact .inl rfl
    next hgate =>
    split
    · next now origins hclock horigins =>
      split
      · exact .inl rfl
      next hpermit =>
      dsimp only
      split
      · exact .other (by simp [IsHookError, IsAccountingError, IsIndexError])
      next hundecided =>
      simp only [not_or, not_not] at hgate
      have hreleased : Released env db request e now origins :=
        ⟨hready, he, by simpa using hmatch, hgate.1, hgate.2.1, Nat.pos_of_ne_zero hgate.2.2, hclock,
          horigins, by simpa using hpermit, by simpa using hundecided⟩
      refine (ensures_blame fun e' he' => .before (hI.1.keyed.mem he) he').bind fun before hbefore => ?_
      refine (dematerializeTx_reducing _ _ _).unbooked.blame.bind fun p hp => ?_
      refine (unbooked_of_event (pruneEventContentTx_raises _ _ _)).blame.bind fun t ht => ?_
      have hred := Reducer.released (D := D) hq hreleased hp ht
      refine (ensures_blame fun e' he' => .after hbefore hred he').bind fun db' hafter => ?_
      exact .inr (.bracket hbefore hred hafter (.refl _))
    · exact .inl rfl
  refine ((pruneQuotaPayloadTx_keeps h hI request).and hpiece).mono (fun r hr => ?_)
    fun _ he => he.2.blamed
  rcases hr.2 with heq | hpiece
  · rw [heq]
    exact Pieces.refl db
  · exact .single hI hr.1 hpiece

theorem collectQuotaPayloadStepTx_pieces (h : Keeps D Anything AnythingMid I M E)
    (hI : OnGround D I db.ev) (after : Option ContentHash) (maxBytes : ℕ) :
    Ensures (collectQuotaPayloadStepTx db after maxBytes)
      (fun r => OnGround D I r.1.ev ∧ Pieces env D Q I db r.1) (Blamed env D Q I db) := by
  refine ((collectQuotaPayloadStepTx_keeps h hI after maxBytes).and
    (ensures_blame fun e he => .collected he)).mono (fun r hr => ?_) fun _ he => he.2.blamed
  exact ⟨hr.1, .single hI hr.1 (.collected hr.2)⟩

theorem collectGarbageLoop_pieces (h : Keeps D Anything AnythingMid I M E) :
    ∀ (limit : ℕ) (db : Database) (removed : ℕ), OnGround D I db.ev →
      Ensures (collectGarbageLoop limit db removed) (fun r => Pieces env D Q I db r.1)
        (Blamed env D Q I db)
  | 0, db, _, _ => Pieces.refl db
  | limit + 1, db, removed, hI => by
    unfold collectGarbageLoop
    have hstep : Ensures (collectQuotaPayloadStepTx db none u64Max)
        (fun r => OnGround D I r.1.ev ∧ Pieces env D Q I db r.1) (Blamed env D Q I db) :=
      collectQuotaPayloadStepTx_pieces h hI none u64Max
    refine hstep.bind fun r hr => ?_
    split
    · exact hr.2
    · next bytes =>
      have hcount : Unbooked (checkedAdd .maintenance removed bytes) :=
        checkedAdd_raises (by simp [IsHookError, IsAccountingError, IsIndexError]) _ _
      refine (hcount.blame.mono (fun _ h => h) fun _ he => he.blamed).bind fun n _ => ?_
      exact (collectGarbageLoop_pieces h limit _ n hr.1).mono (fun _ h' => hr.2.trans h')
        fun _ he => hr.2.blamed he

theorem deliver_pieces (h : Keeps D Anything AnythingMid I M E) (hcf : CollisionFree D)
    (hI : OnGround D I db.ev) (d : Delivery) (hd : d.event ∈ D) :
    Ensures (deliver env db d) (fun db' => OnGround D I db'.ev ∧ Pieces env D Q I db db')
      (Blamed env D Q I db) := by
  cases d with
  | envelope v now source =>
    exact (processEventTx_pieces h hcf hI hd now source).bind fun r hr => ⟨hr.1, hr.2.2⟩
  | payload c now ledger =>
    refine (processEventTx_pieces (Q := Q) h hcf hI hd now _).bind fun r ⟨hI₁, hst, h₁⟩ => ?_
    refine (processEventContentTx_pieces (Q := Q) h hI₁ hst now ledger none).mono (fun db' hr' => ?_)
      fun _ he => h₁.blamed he
    exact ⟨hr'.1, h₁.trans hr'.2⟩

/-- **Every transaction is a sequence of pieces**, and its errors are those of a piece, in the state to which the
pieces before it have led. -/
theorem step_pieces (h : Keeps D Anything AnythingMid I M E) (hcf : CollisionFree D)
    (hI : OnGround D I db.ev) (o : Op) (hD : ∀ v ∈ o.delivered, v ∈ D)
    (hQ : ∀ request, o = .pruneQuota request → request ∈ Q) :
    Ensures (step env db o) (Pieces env D Q I db) (Blamed env D Q I db) := by
  have hkeeps : Ensures (step env db o) (fun db' => OnGround D I db'.ev) (fun _ => True) :=
    (step_keeps h hcf hI o hD).mono (fun _ h => h) fun _ _ => trivial
  have hone : (∀ db', step env db o = .ok db' → Piece env D Q db db') →
      (∀ e, step env db o = .error e → Blame env D Q db e) →
      Ensures (step env db o) (Pieces env D Q I db) (Blamed env D Q I db) := by
    intro hok herr
    refine ensures_iff.mpr ⟨fun db' h' => .single hI (hkeeps.of_ok h') (hok db' h'), fun e h' => ?_⟩
    exact (herr e h').blamed
  cases o with
  | ingest ds =>
    have hrun := Ensures.foldlM (f := deliver env) (E := Blamed env D Q I db)
      (J := fun db' => OnGround D I db'.ev ∧ Pieces env D Q I db db') ds db
      (fun d hd db' hdb' => ?_) ⟨hI, .refl db⟩
    · exact hrun.mono (fun _ h => h.2) fun _ h => h
    · refine (deliver_pieces h hcf hdb'.1 d (hD _ (List.mem_map_of_mem hd))).mono
        (fun db'' h'' => ⟨h''.1, hdb'.2.trans h''.2⟩) fun _ he => hdb'.2.blamed he
  | ingestAdmitted c now ledger buffer =>
    have hc : c.event ∈ D := hD _ (by simp [Op.delivered])
    simp only [step, tryProcessAdmittedEventContent]
    refine Ensures.bind (P := fun r : Database × PayloadIngestOutcome => Pieces env D Q I db r.1) ?_
      fun r hr => hr
    refine (processEventTx_pieces (Q := Q) h hcf hI hc now _).bind fun r hr => ?_
    obtain ⟨hI₁, hst, h₁⟩ := hr
    exact (processAdmittedContentTx_pieces (Q := Q) h hI₁ hst now ledger buffer).mono
      (fun _ h' => h₁.trans h'.2) fun _ he => h₁.blamed he
  | materializeStored id now ledger =>
    exact (tryMaterializeStoredPayload_pieces h hI id now ledger).bind fun r hr => hr
  | pruneQuota request =>
    exact (pruneQuotaPayloadTx_pieces h hI (hQ request rfl)).bind fun r hr => hr
  | collectStep after maxBytes =>
    exact (collectQuotaPayloadStepTx_pieces h hI after maxBytes).bind fun r hr => hr.2
  | collectGarbage limit =>
    simp only [step, collectQuotaPayloadGarbage]
    split
    · exact (Blame.other (by simp [IsHookError, IsAccountingError, IsIndexError])).blamed
    have hready : Unbooked (requirePayloadAccountingReadyTx db.accounting) :=
      (requirePayloadAccountingReadyTx_reducing _).unbooked
    refine (hready.blame.mono (fun _ h => h) fun _ he => he.blamed).bind fun _ _ => ?_
    exact (collectGarbageLoop_pieces h limit db 0 hI).bind fun r hr => hr
  | rebuildAccounting limit => exact hone (fun _ hok => .accounted hok) fun _ he => .accounted he
  | rebuildNominations limit => exact hone (fun _ hok => .nominated hok) fun _ he => .nominated he
  | configureRetention policy => exact .single hI hI (.configured policy)
  | rebuildRetention limit => exact hone (fun _ hok => .indexed hok) fun _ he => .indexed he
  | promoteRetention clock limit => exact hone (fun _ hok => .promoted hok) fun _ he => .promoted he
  | deferFetch id observed retryAt =>
    have hI' := hI.reschedule h id observed retryAt fun last count => (last, count)
    exact Pieces.single hI hI' (.scheduled (rescheduleTx_requeued _ _ _ _ _))
  | recordFailedFetch id observed attemptedAt nextAttemptAt =>
    have hI' := hI.reschedule h id observed nextAttemptAt
      fun _ count => (some attemptedAt, min u16Max (count + 1))
    exact Pieces.single hI hI' (.scheduled (rescheduleTx_requeued _ _ _ _ _))
  | peekMissing =>
    refine .single hI hkeeps (.scheduled ?_)
    obtain ⟨q, hq⟩ := peekLoop_effect (db.ev.eventsContentMissing.card + 1) db.ev
    rw [peekNextMissingContent, hq]
    exact .queue db.ev q
  | recalculateNews postId now => exact .single hI hI (.ranked postId now)

/-! ## 3. The rules

The inductions over pieces, steps and runs are made here and nowhere else. -/

/-- For an invariant that needs no other. -/
theorem anything_keeps (D : Set VerifiedEvent) :
    Keeps D Anything AnythingMid Anything AnythingMid (fun _ => True) where
  insert _ _ _ _ _ _ := ensures_true _
  settle _ _ _ _ _ _ := ensures_true _
  schedule _ _ _ _ _ _ _ := trivial
  prune _ _ _ _ _ _ _ := ensures_true _
  store _ _ _ _ _ _ _ _ _ := ensures_true _
  reject _ _ _ _ _ _ _ := ensures_true _
  collect _ _ _ _ _ _ := trivial
  defer _ _ _ _ _ := trivial
  reschedule _ _ _ _ _ _ _ _ := trivial
  peek _ _ _ _ := trivial
  other _ _ := trivial

variable (env) in
/-- **The invariant rule**: one case for each piece, between states that have the event invariant. Most invariants
of the bookkeeping are established by it. -/
theorem run_pieces {J : Database → Prop} (h : Keeps D Anything AnythingMid I M E)
    (hcf : CollisionFree D)
    (hpiece : ∀ db db', OnGround D I db.ev → OnGround D I db'.ev → Piece env D Q db db' → J db → J db')
    (ops : List Op) (hD : DeliveredFrom D ops) (hQ : RequestedFrom Q ops)
    (hI : OnGround D I db.ev) (hJ : J db) :
    OnGround D I (run (step env) db ops).ev ∧ J (run (step env) db ops) := by
  refine run_invariant (f := step env) (J := fun db : Database => OnGround D I db.ev ∧ J db) ops db
    (fun o ho db db' hdb hok => ?_) ⟨hI, hJ⟩
  refine ⟨(step_keeps h hcf hdb.1 o (hD o ho)).of_ok hok, ?_⟩
  have hpieces := (step_pieces h hcf hdb.1 o (hD o ho) fun q hq => hQ q (hq ▸ ho)).of_ok hok
  clear hok
  induction hpieces with
  | refl => exact hdb.2
  | tail _ hlink ih => exact hpiece _ _ hlink.1 hlink.2.1 hlink.2.2 ih

/-- **The rule for errors**: a failing transaction failed in a state that has the invariants. -/
theorem step_blame {J : Database → Prop} (h : Keeps D Anything AnythingMid I M E)
    (hcf : CollisionFree D)
    (hpiece : ∀ db db', OnGround D I db.ev → OnGround D I db'.ev → Piece env D Q db db' → J db → J db')
    (hI : OnGround D I db.ev) (hJ : J db) {o : Op} (hD : ∀ v ∈ o.delivered, v ∈ D)
    (hQ : ∀ request, o = .pruneQuota request → request ∈ Q) {e : DbError}
    (he : step env db o = .error e) :
    ∃ db', OnGround D I db'.ev ∧ J db' ∧ Blame env D Q db' e := by
  obtain ⟨db', hpieces, hblame⟩ := (step_pieces h hcf hI o hD hQ).of_error he
  suffices hgoal : OnGround D I db'.ev ∧ J db' from ⟨db', hgoal.1, hgoal.2, hblame⟩
  clear hblame
  induction hpieces with
  | refl => exact ⟨hI, hJ⟩
  | tail hpre hlink ih => exact ⟨hlink.2.1, hpiece _ _ hlink.1 hlink.2.1 hlink.2.2 ih.2⟩

variable (env) in
/-- **The rule for what no step takes back**: a preorder between earlier and later states. -/
theorem run_pieces_relation {R : Database → Database → Prop} {J : Database → Prop}
    (h : Keeps D Anything AnythingMid I M E) (hcf : CollisionFree D) (hrefl : ∀ db, R db db)
    (htrans : ∀ db db' db'', R db db' → R db' db'' → R db db'')
    (hpiece : ∀ db db', OnGround D I db.ev → OnGround D I db'.ev → Piece env D Q db db' → J db →
      J db' ∧ R db db')
    (ops : List Op) (hD : DeliveredFrom D ops) (hQ : RequestedFrom Q ops)
    (hI : OnGround D I db.ev) (hJ : J db) :
    R db (run (step env) db ops) := by
  have hstep : ∀ s s', OnGround D I s.ev → OnGround D I s'.ev → Piece env D Q s s' →
      J s ∧ R db s → J s' ∧ R db s' := by
    intro s s' hs hs' hp hJs
    obtain ⟨hJ', hR⟩ := hpiece s s' hs hs' hp hJs.1
    exact ⟨hJ', htrans _ _ _ hJs.2 hR⟩
  exact (run_pieces env h hcf hstep ops hD hQ hI ⟨hJ, hrefl db⟩).2.2

end Steps

/-! ## 4. Where a bracket writes

Bookkeeping is exact only because a reducer touches few events: its own and the parent it deletes. All the later
arguments that a row of some other event is still right go back to `Footprint`. -/

/-- An origin is set once: the age origin for good, the grace origin when it is not set yet. -/
def OriginKept (o o' : RetentionOrigins) : Prop :=
  o'.effectiveTimestamp = o.effectiveTimestamp ∧ (o.materializedAt.isSome → o' = o)

omit [Primitives] in
theorem OriginKept.refl (o : RetentionOrigins) : OriginKept o o := ⟨rfl, fun _ => rfl⟩

omit [Primitives] in
theorem OriginKept.trans {o o' o'' : RetentionOrigins} (h : OriginKept o o')
    (h' : OriginKept o' o'') : OriginKept o o'' := by
  refine ⟨h'.1.trans h.1, fun hs => ?_⟩
  have heq := h.2 hs
  rw [heq] at h'
  exact h'.2 hs

/-- **Where a reducer writes**: headers, bytes and origins of its own event, states of the event and
its auxiliary parent. -/
structure Footprint (db : Database) (v : VerifiedEvent) (db₁ : Database) : Prop where
  headers : db₁.ev.events = db.ev.events ∨
    (db.ev.events.get v.id = none ∧ db₁.ev.events = db.ev.events.insert v.id v.event)
  states : ∀ id, id ∉ affectedIds v →
    db₁.ev.eventsContentState.get id = db.ev.eventsContentState.get id
  edges : ∀ id e, db.ev.events.get id = some e →
    Edge (contentClass db.ev id) (contentClass db₁.ev id)
  store : db₁.ev.contentStore = db.ev.contentStore ∨
    (db.ev.contentStore.get v.event.contentHash = none ∧ ∃ b, b.length = v.event.contentLen ∧
      db₁.ev.contentStore = db.ev.contentStore.insert v.event.contentHash b)
  origins : ∀ id, id ≠ v.id → db₁.origins.get id = db.origins.get id
  origin : ∀ o, db.origins.get v.id = some o → ∃ o', db₁.origins.get v.id = some o' ∧ OriginKept o o'
  retention : db₁.retention = db.retention

theorem mem_affectedIds_parent {v : VerifiedEvent} {id : ShortEventId}
    (h : v.event.parentAux = some id) : id ∈ affectedIds v := by
  unfold affectedIds
  rw [h]
  by_cases hid : id = v.id
  · subst hid
    simp
  · simp [hid]

/-- The origins of an envelope. -/
theorem processEventInnerTx_origins (env : Env) (ctx : TxCtx) (db : Database) (v : VerifiedEvent)
    (now : Timestamp) (source : EventReceivedSource) :
    Ensures (processEventInnerTx env ctx db v now source) (fun r => r.1.origins = db.origins ∨
      ∃ isDeleted, r.1.origins = recordOriginsTx ctx db.origins v isDeleted now)
      (fun _ => True) := by
  unfold processEventInnerTx
  refine (ensures_true _).bind fun r _ => ?_
  refine Ensures.bind (P := fun db' : Database => db'.origins = db.origins ∨
    ∃ isDeleted, db'.origins = recordOriginsTx ctx db.origins v isDeleted now) ?_ fun db₂ h₂ => ?_
  · unfold afterOutcomeTx
    split
    · unfold afterInsertTx
      refine (ensures_true _).bind fun _ _ => (ensures_true _).bind fun _ _ =>
        (ensures_true _).bind fun _ _ => (ensures_true _).bind fun _ _ => ?_
      exact .inr ⟨_, rfl⟩
    · exact .inl rfl
  · exact (ensures_true _).bind fun _ _ => h₂

/-- A first receipt writes one row, where none was. -/
theorem recordOriginsTx_get (ctx : TxCtx) (origins : Table ShortEventId RetentionOrigins)
    (v : VerifiedEvent) (isDeleted : Bool) (now : Timestamp) :
    (∀ id, id ≠ v.id → (recordOriginsTx ctx origins v isDeleted now).get id = origins.get id) ∧
      ∀ o, origins.get v.id = some o →
        (recordOriginsTx ctx origins v isDeleted now).get v.id = some o := by
  unfold recordOriginsTx
  split
  · next hc =>
    simp only [Bool.and_eq_true, Option.isNone_iff_eq_none] at hc
    refine ⟨fun id hne => Table.get_insert_of_ne _ _ hne, fun o ho => ?_⟩
    rw [hc.2] at ho
    cases ho
  · exact ⟨fun _ _ => rfl, fun _ ho => ho⟩

omit [Primitives] in
/-- A first materialization completes one row. -/
theorem recordMaterializedTx_get (ctx : TxCtx) (origins : Table ShortEventId RetentionOrigins)
    (id : ShortEventId) (now : Timestamp) :
    (∀ id', id' ≠ id → (recordMaterializedTx ctx origins id now).get id' = origins.get id') ∧
      ∀ o, origins.get id = some o →
        ∃ o', (recordMaterializedTx ctx origins id now).get id = some o' ∧ OriginKept o o' := by
  have hsame : (∀ id', id' ≠ id → origins.get id' = origins.get id') ∧
      ∀ o, origins.get id = some o → ∃ o', origins.get id = some o' ∧ OriginKept o o' :=
    ⟨fun _ _ => rfl, fun o ho => ⟨o, ho, .refl o⟩⟩
  unfold recordMaterializedTx
  split
  · split
    · next origin horigin =>
      split
      · next hnone =>
        refine ⟨fun id' hne => Table.get_insert_of_ne _ _ hne, fun o ho => ?_⟩
        rw [horigin] at ho
        cases ho
        refine ⟨_, Table.get_insert_self .., rfl, fun hs => ?_⟩
        rw [Option.isNone_iff_eq_none] at hnone
        rw [hnone] at hs
        cases hs
      · exact hsame
    · exact hsame
  · exact hsame

section Reach

variable {D : Set VerifiedEvent} {Q : Set QuotaPruneRequest} {env : Env} {db db₁ : Database}
  {v : VerifiedEvent}

/-- Headers are kept. -/
theorem Footprint.kept (h : Footprint db v db₁) {id : ShortEventId} {e : Event}
    (he : db.ev.events.get id = some e) : db₁.ev.events.get id = some e := by
  rcases h.headers with heq | ⟨hnew, heq⟩
  · rw [heq]
    exact he
  · rw [heq, Table.get_insert_of_ne _ _ ?_]
    · exact he
    · rintro rfl
      rw [hnew] at he
      cases he

/-- At most one header is new. -/
theorem Footprint.arrived (h : Footprint db v db₁) {id : ShortEventId}
    {e : Event} (he : db₁.ev.events.get id = some e) :
    db.ev.events.get id = some e ∨ (id = v.id ∧ e = v.event) := by
  rcases h.headers with heq | ⟨-, heq⟩
  · rw [heq] at he
    exact .inl he
  · rw [heq, Table.get_insert] at he
    split at he
    · next hid =>
      cases he
      exact .inr ⟨hid, rfl⟩
    · exact .inl he

/-- An envelope. -/
theorem EnvelopeEffect.footprint_states (h : EnvelopeEffect db v db₁) {id : ShortEventId}
    (hid : id ∉ affectedIds v) :
    db₁.ev.eventsContentState.get id = db.ev.eventsContentState.get id := by
  have hne : id ≠ v.id := by
    rintro rfl
    exact hid (mem_affectedIds_self v)
  cases h with
  | present e he t₁ ht₁ hfin hproj hquota =>
    have ht : t₁.eventsContentState = db.ev.eventsContentState := by rw [ht₁]
    rcases hfin.state with hst | ⟨-, -, hst⟩
    · rw [hst, ht]
    · rw [hst, Table.get_insert_of_ne _ _ hne, ht]
  | new hnew t₁ isD dp rev hins hfin next hproj hquota =>
    have hdp : dp ≠ some id := by
      intro hdp
      obtain ⟨e, -, -, hdel, -⟩ := hins.parent id hdp
      exact hid (mem_affectedIds_parent hdel.2)
    rw [← hins.state_other id hne hdp]
    rcases hfin.state with hst | ⟨-, -, hst⟩
    · rw [hst]
    · rw [hst, Table.get_insert_of_ne _ _ hne]

theorem EnvelopeEffect.footprint_headers (h : EnvelopeEffect db v db₁) :
    db₁.ev.events = db.ev.events ∨
      (db.ev.events.get v.id = none ∧ db₁.ev.events = db.ev.events.insert v.id v.event) := by
  cases h with
  | present e he t₁ ht₁ hfin hproj hquota => exact .inl (by rw [hfin.events, ht₁])
  | new hnew t₁ isD dp rev hins hfin next hproj hquota =>
    exact .inr ⟨hnew, by rw [hfin.events, hins.events]⟩

theorem EnvelopeEffect.footprint_store (h : EnvelopeEffect db v db₁) :
    db₁.ev.contentStore = db.ev.contentStore ∨
      (db.ev.contentStore.get v.event.contentHash = none ∧ ∃ b, b.length = v.event.contentLen ∧
        db₁.ev.contentStore = db.ev.contentStore.insert v.event.contentHash b) := by
  cases h with
  | present e he t₁ ht₁ hfin hproj hquota => exact .inl (by rw [hfin.store, ht₁])
  | new hnew t₁ isD dp rev hins hfin next hproj hquota =>
    rw [hfin.store, hins.store]
    split
    · next hc => exact .inr ⟨hc.2.2, [], hc.2.1.symm, rfl⟩
    · exact .inl rfl

theorem EnvelopeEffect.footprint {now : Timestamp} {source : EventReceivedSource}
    {r : Database × InsertEventOutcome × ProcessEventState}
    (h : processEventInnerTx env {} db v now source = .ok r) : Footprint db v r.1 := by
  have heff : EnvelopeEffect db v r.1 := (processEventInnerTx_effect env {} db v now source).of_ok h
  have hbooks := (processEventInnerTx_books env {} db v now source).of_ok h
  have horigins := (processEventInnerTx_origins env {} db v now source).of_ok h
  refine ⟨heff.footprint_headers, fun id hid => heff.footprint_states hid,
    fun id e he => (heff.edges he).2.1, heff.footprint_store, fun id hne => ?_, fun o ho => ?_,
    hbooks.2⟩
  · rcases horigins with heq | ⟨isD, heq⟩
    · rw [heq]
    · rw [heq]
      exact (recordOriginsTx_get {} db.origins v isD now).1 id hne
  · rcases horigins with heq | ⟨isD, heq⟩
    · exact ⟨o, by rw [heq]; exact ho, .refl o⟩
    · exact ⟨o, by rw [heq]; exact (recordOriginsTx_get {} db.origins v isD now).2 o ho, .refl o⟩

/-- A payload for a stored header. -/
theorem PayloadEffect.footprint {c : VerifiedEventContent} {now : Timestamp}
    (h : PayloadEffect env {} db c now db₁) : Footprint db c.event db₁ := by
  have hstates : ∀ id, id ∉ affectedIds c.event →
      db₁.ev.eventsContentState.get id = db.ev.eventsContentState.get id := by
    intro id hid
    refine (h.edges id).2 ?_
    rintro rfl
    exact hid (mem_affectedIds_self _)
  have hedges : ∀ id e, db.ev.events.get id = some e →
      Edge (contentClass db.ev id) (contentClass db₁.ev id) := fun id _ _ => (h.edges id).1
  cases h with
  | idle h =>
    exact ⟨.inl rfl, hstates, hedges, .inl rfl, fun _ _ => rfl, fun o ho => ⟨o, ho, .refl o⟩, rfl⟩
  | processed b hb hm hlen p hp u =>
    obtain ⟨hlength, -⟩ := c.length_and_hash hb
    refine ⟨.inl rfl, hstates, hedges, ?_, (recordMaterializedTx_get {} db.origins c.event.id now).1,
      (recordMaterializedTx_get {} db.origins c.event.id now).2, rfl⟩
    dsimp only
    split
    · next hnone => exact .inr ⟨Option.isNone_iff_eq_none.mp hnone, b, hlength, rfl⟩
    · exact .inl rfl
  | rejected b hb hm hlen hp rc u =>
    exact ⟨.inl rfl, hstates, hedges, .inl rfl, fun _ _ => rfl, fun o ho => ⟨o, ho, .refl o⟩, rfl⟩
  | deleted b hb hd hlen =>
    exact ⟨.inl rfl, hstates, hedges, .inl rfl, fun _ _ => rfl, fun o ho => ⟨o, ho, .refl o⟩, rfl⟩

omit [Primitives] in
theorem PruneEffect.state_other {t t' : EventTables} {id id' : ShortEventId}
    (h : PruneEffect t id t') (hne : id' ≠ id) :
    t'.eventsContentState.get id' = t.eventsContentState.get id' := by
  cases h with
  | kept _ h => rw [h]
  | pruned _ rc u h =>
    rw [h]
    exact Table.get_insert_of_ne _ _ hne

omit [Primitives] in
theorem PruneEffect.contentStore {t t' : EventTables} {id : ShortEventId} (h : PruneEffect t id t') :
    t'.contentStore = t.contentStore := by
  cases h with
  | kept _ h => rw [h]
  | pruned _ rc u h => rw [h]

theorem processEventContentInnerTx_quota (env : Env) (db : Database) (c : VerifiedEventContent)
    (now : Timestamp) (ledger : AdmissionState) (buffer : Option PayloadBuffer) :
    Ensures (processEventContentInnerTx env {} db c now ledger buffer)
      (fun db₁ => db₁.quotaPruned = db.quotaPruned) (fun _ => True) := by
  unfold processEventContentInnerTx
  split
  · exact rfl
  split
  · refine (ensures_true _).bind fun _ _ => ?_
    unfold materializeTx
    dsimp only
    split
    · exact rfl
    split
    · exact (ensures_true _).bind fun _ _ => rfl
    · exact (ensures_true _).bind fun _ _ => rfl
    · trivial
  · unfold supplyDeletedTx
    split
    · exact (ensures_true _).bind fun _ _ => rfl
    · exact rfl

theorem Reducer.footprint (hg : Grounded D db.ev) (h : Reducer env D Q db v db₁) :
    Footprint db v db₁ := by
  cases h with
  | envelope hv h => exact EnvelopeEffect.footprint h
  | payload hc hst h => exact ((processEventContentInnerTx_effect hg hst _ _ _).of_ok h).footprint
  | released hq h hp ht =>
    have heff := (pruneEventContentTx_effect db.ev _ _).of_ok ht
    have hid := hg.keyed.id_eq h.stored
    refine ⟨.inl heff.events, fun id hid' => heff.state_other ?_, fun id e _ => heff.edges id,
      .inl heff.contentStore, fun _ _ => rfl, fun o ho => ⟨o, ho, .refl o⟩, rfl⟩
    rintro rfl
    rw [← hid] at hid'
    exact hid' (mem_affectedIds_self _)

/-- A reducer works on an event of `D`. -/
theorem Reducer.mem (h : Reducer env D Q db v db₁) (hg : Grounded D db.ev) : v ∈ D := by
  cases h with
  | envelope hv h => exact hv
  | payload hc hst h => exact hc
  | released hq h hp ht => exact hg.keyed.mem h.stored

theorem Reducer.keyedBy (h : Reducer env D Q db v db₁) (hg : Grounded D db.ev) :
    KeyedBy D db₁.ev := by
  intro id e he
  rcases (h.footprint hg).arrived he with he | ⟨rfl, rfl⟩
  · exact hg.keyed id e he
  · exact ⟨v, h.mem hg, rfl, rfl⟩

/-- **Only a release decides**: it writes its own decision and nominates its own hash. -/
theorem Reducer.decisions (h : Reducer env D Q db v db₁) :
    (db₁.quotaPruned = db.quotaPruned ∧ db₁.accounting = db.accounting) ∨
      ∃ request e now origins, request ∈ Q ∧ Released env db request e now origins ∧
        v = .ofEvent e ∧ PruneEffect db.ev request.id db₁.ev ∧ db₁.origins = db.origins ∧
        db₁.quotaPruned = db.quotaPruned.insert request.id ⟨request.reason, now⟩ ∧
        db₁.accounting = nominateQuotaHashTx db.accounting e.contentHash := by
  cases h with
  | envelope hv h =>
    refine .inl ⟨?_, ((processEventInnerTx_books env {} db v _ _).of_ok h).1⟩
    cases (processEventInnerTx_effect env {} db v _ _).of_ok h with
    | present e he t₁ ht₁ hfin hproj hquota => exact hquota
    | new hnew t₁ isD dp rev hins hfin next hproj hquota => exact hquota
  | payload hc hst h =>
    exact .inl ⟨(processEventContentInnerTx_quota env db _ _ _ _).of_ok h,
      ((processEventContentInnerTx_books env {} db _ _ _ _).of_ok h).2.1⟩
  | released hq h hp ht =>
    exact .inr ⟨_, _, _, _, hq, h, rfl, (pruneEventContentTx_effect db.ev _ _).of_ok ht, rfl, rfl,
      rfl⟩

/-- The books only change where a release nominates its hash. -/
theorem Reducer.accounting (h : Reducer env D Q db v db₁) :
    db₁.accounting = db.accounting ∨
      db₁.accounting = nominateQuotaHashTx db.accounting v.event.contentHash := by
  rcases h.decisions with ⟨-, heq⟩ | ⟨request, e, now, o, -, -, rfl, -, -, -, heq⟩
  · exact .inl heq
  · exact .inr heq

/-- Of the projections, maintenance touches at most one rank. -/
def Reranked (p p' : Projections) : Prop :=
  p' = p ∨ ∃ postId now, p' = (recalculateNewsPostScoreTx p postId now).1

/-- A step of maintenance: bytes, one rank, slots and bookkeeping may change. -/
structure Aside (db db' : Database) : Prop where
  eq : db' = { db with
    ev := { db.ev with
      eventsContentState := db'.ev.eventsContentState
      eventsContentMissing := db'.ev.eventsContentMissing
      contentStore := db'.ev.contentStore }
    proj := db'.proj
    accounting := db'.accounting
    retention := db'.retention }
  classes : ∀ id, contentClass db'.ev id = contentClass db.ev id
  proj : Reranked db.proj db'.proj
  /-- Only bytes without a reference are collected. -/
  store : db'.ev.contentStore = db.ev.contentStore ∨ ∃ h, db.ev.contentRc.get h = none ∧
    db'.ev.contentStore = db.ev.contentStore.remove h

omit [Primitives] in
theorem collectQuotaPayloadStepTx_aside {db : Database} {after : Option ContentHash} {maxBytes : ℕ}
    {r : Database × Option ContentHash × ℕ}
    (h : collectQuotaPayloadStepTx db after maxBytes = .ok r) : Aside db r.1 := by
  obtain ⟨a, heq | ⟨k, hk, heq⟩⟩ := (collectQuotaPayloadStepTx_effect db after maxBytes).of_ok h
  · rw [heq]
    exact ⟨rfl, fun _ => rfl, .inl rfl, .inl rfl⟩
  · rw [heq]
    exact ⟨rfl, fun _ => rfl, .inl rfl, .inr ⟨k, hk, rfl⟩⟩

theorem rebuildRetentionIndex_eq (env : Env) (db : Database) (limit : ℕ) :
    Ensures (rebuildRetentionIndex env db limit)
      (fun db' => db' = { db with retention := db'.retention }) (fun _ => True) := by
  simp only [rebuildRetentionIndex]
  split
  · trivial
  split
  · exact rfl
  · exact (ensures_true _).bind fun r _ => rfl

omit [Primitives] in
theorem promoteRetentionGrace_eq (db : Database) (clock : RetentionClock) (limit : ℕ) :
    Ensures (promoteRetentionGrace db clock limit)
      (fun db' => db' = { db with retention := db'.retention }) (fun _ => True) := by
  simp only [promoteRetentionGrace]
  split
  · trivial
  split
  · split
    · exact (ensures_true _).bind fun r _ => rfl
    · exact rfl
  · exact rfl

omit [Primitives] in
theorem rebuildPayloadAccounting_eq (env : Env) (db : Database) (limit : ℕ) :
    Ensures (rebuildPayloadAccounting env db limit)
      (fun db' => db' = { db with accounting := db'.accounting }) (fun _ => True) := by
  simp only [rebuildPayloadAccounting]
  split
  · trivial
  · exact (ensures_true _).bind fun r _ => rfl

omit [Primitives] in
theorem rebuildQuotaPayloadNominations_eq (env : Env) (db : Database) (limit : ℕ) :
    Ensures (rebuildQuotaPayloadNominations env db limit)
      (fun db' => db' = { db with accounting := db'.accounting }) (fun _ => True) := by
  simp only [rebuildQuotaPayloadNominations]
  split
  · trivial
  · exact (ensures_true _).bind fun r _ => rfl

omit [Primitives] in
theorem Aside.of_retention {db' : Database} (h : db' = { db with retention := db'.retention }) :
    Aside db db' := by
  refine ⟨?_, fun id => ?_, .inl ?_, .inl ?_⟩
  · rw [h]
  · rw [h]
  · rw [h]
  · rw [h]

omit [Primitives] in
theorem Aside.of_accounting {db' : Database} (h : db' = { db with accounting := db'.accounting }) :
    Aside db db' := by
  refine ⟨?_, fun id => ?_, .inl ?_, .inl ?_⟩
  · rw [h]
  · rw [h]
  · rw [h]
  · rw [h]

/-- The end of a bracket, seen from outside the bookkeeping. -/
theorem payloadAfterTx_eq {before : PayloadBefore} {db₂ : Database} {t : EventTables}
    (hafter : payloadAfterTx env db₁ before = .ok db₂) (hq : Requeued db₂.ev t) :
    Aside db₁ { db₂ with ev := t } ∧ t.contentStore = db₁.ev.contentStore := by
  obtain ⟨a, x, rfl⟩ := (payloadAfterTx_ensures env db₁ before).of_ok hafter
  have hstore : t.contentStore = db₁.ev.contentStore := by rw [hq.eq]
  refine ⟨⟨?_, hq.classes, .inl rfl, .inl hstore⟩, hstore⟩
  rw [hq.eq]

/-- **Every piece is a bracket or a step of maintenance.** A proof that does not care which maintenance it is has
two cases to look at. -/
theorem Piece.bracket_or_aside {db' : Database} (h : Piece env D Q db db') :
    (∃ v before db₁, payloadBeforeTx env db.ev v = .ok before ∧ Reducer env D Q db v db₁ ∧
      Aside db₁ db' ∧ db'.ev.contentStore = db₁.ev.contentStore) ∨ Aside db db' := by
  cases h with
  | bracket hbefore hred hafter hq => exact .inl ⟨_, _, _, hbefore, hred, payloadAfterTx_eq hafter hq⟩
  | collected h => exact .inr (collectQuotaPayloadStepTx_aside h)
  | accounted h => exact .inr (.of_accounting ((rebuildPayloadAccounting_eq env db _).of_ok h))
  | nominated h => exact .inr (.of_accounting ((rebuildQuotaPayloadNominations_eq env db _).of_ok h))
  | configured policy => exact .inr ⟨rfl, fun _ => rfl, .inl rfl, .inl rfl⟩
  | indexed h => exact .inr (.of_retention ((rebuildRetentionIndex_eq env db _).of_ok h))
  | promoted h => exact .inr (.of_retention ((promoteRetentionGrace_eq db _ _).of_ok h))
  | scheduled h => exact .inr ⟨by rw [h.eq], h.classes, .inl rfl, .inl (by rw [h.eq])⟩
  | ranked postId now => exact .inr ⟨rfl, fun _ => rfl, .inr ⟨postId, now, rfl⟩, .inl rfl⟩

end Reach

end Rostra.Db
