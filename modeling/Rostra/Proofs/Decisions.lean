/-
# Quota decisions

`events_quota_pruned` records that a payload was released for lack of room.  The record is a promise
to whoever audits it: the event was remote, the time gate had passed, and the content does not come
back.

* `DecidedFor` is what the record says about one event, `decisions_kept` that every piece of a
  transaction leaves it true: content with a decision is `Pruned` or `Deleted`, and both are closed
  under every edge of the lifecycle.
* The three outcomes of `pruneQuotaPayloadTx` are frames: two change nothing, the third changes the
  content, its projections and the bookkeeping.
* Content that a request can still select has no decision, so the check for an older decision never
  fires.
-/
import Rostra.Proofs.Pieces
import Rostra.Proofs.Reduction

namespace Rostra.Db

open Rostra Outcome

section Decisions

variable [Primitives]

/-! ## 1. The record -/

/-- The request a decision was made on. -/
structure MadeOn (Q : Set QuotaPruneRequest) (id : ShortEventId) (d : QuotaPruneDecision)
    (request : QuotaPruneRequest) : Prop where
  requested : request ∈ Q
  id : request.id = id
  reason : request.reason = d.reason
  clock : request.clock = .trusted d.prunedAt

/-- **What a decision says** about its event. -/
structure DecidedFor (env : Env) (Q : Set QuotaPruneRequest) (db : Database) (id : ShortEventId)
    (d : QuotaPruneDecision) (e : Event) (origins : RetentionOrigins)
    (request : QuotaPruneRequest) : Prop where
  stored : db.ev.events.get id = some e
  nonempty : 0 < e.contentLen
  kind : e.kind = EventKind.SOCIAL_POST
  remote : e.author ≠ env.selfId
  released : contentClass db.ev id = .pruned ∨ contentClass db.ev id = .deleted
  received : db.origins.get id = some origins
  made : MadeOn Q id d request
  /-- Content that was selected as processed had its grace. -/
  grace : request.target = .processed →
    request.policy.graceElapsed origins.materializedAt d.prunedAt = true

/-- Every decision is backed. -/
def Decided (env : Env) (Q : Set QuotaPruneRequest) (db : Database) : Prop :=
  ∀ id d, db.quotaPruned.get id = some d →
    ∃ e origins request, DecidedFor env Q db id d e origins request

omit [Primitives] in
theorem decided_empty (env : Env) (Q : Set QuotaPruneRequest) : Decided env Q {} := by
  intro id d hd
  simp at hd

omit [Primitives] in
/-- Released content stays released. -/
theorem Edge.released {k k' : PayloadBucket} (h : Edge k k') (hk : k = .pruned ∨ k = .deleted) :
    k' = .pruned ∨ k' = .deleted := by
  rcases h with rfl | rfl | ⟨rfl, -⟩ | ⟨rfl, -⟩
  · exact hk
  · exact .inr rfl
  · exact .inl rfl
  · rcases hk with hk | hk
    · cases hk
    · cases hk

omit [Primitives] in
/-- A grace that has elapsed was counted from an origin. -/
theorem materializedAt_of_graceElapsed {policy : RetentionPolicy} {first : Option Timestamp}
    {now : Timestamp} (h : policy.graceElapsed first now = true) : first.isSome := by
  cases first with
  | none => cases h
  | some m => rfl

variable {D : Set VerifiedEvent} {Q : Set QuotaPruneRequest} {env : Env} {db db' db₁ : Database}

omit [Primitives] in
/-- What the record needs of two states: headers and origins are kept, content moves along edges. -/
theorem DecidedFor.mono {id : ShortEventId} {d : QuotaPruneDecision} {e : Event}
    {o o' : RetentionOrigins} {request : QuotaPruneRequest}
    (h : DecidedFor env Q db id d e o request) (he : db'.ev.events.get id = some e)
    (hedge : Edge (contentClass db.ev id) (contentClass db'.ev id))
    (ho : db'.origins.get id = some o') (hkept : OriginKept o o') :
    DecidedFor env Q db' id d e o' request := by
  refine ⟨he, h.nonempty, h.kind, h.remote, hedge.released h.released, ho, h.made, fun ht => ?_⟩
  have hgrace := h.grace ht
  rw [hkept.2 (materializedAt_of_graceElapsed hgrace)]
  exact hgrace

/-- A footprint keeps the record of every event. -/
theorem Footprint.decidedFor {v : VerifiedEvent} (h : Footprint db v db₁) {id : ShortEventId}
    {d : QuotaPruneDecision} {e : Event} {o : RetentionOrigins} {request : QuotaPruneRequest}
    (hd : DecidedFor env Q db id d e o request) :
    ∃ o', DecidedFor env Q db₁ id d e o' request := by
  have he := h.kept hd.stored
  have hedge := h.edges id e hd.stored
  by_cases hid : id = v.id
  · subst hid
    obtain ⟨o', ho', hkept⟩ := h.origin o hd.received
    exact ⟨o', hd.mono he hedge ho' hkept⟩
  · exact ⟨o, hd.mono he hedge ((h.origins id hid).trans hd.received) (.refl o)⟩

omit [Primitives] in
/-- Maintenance is not concerned with decisions. -/
theorem Aside.decidedFor (h : Aside db db') {id : ShortEventId} {d : QuotaPruneDecision} {e : Event}
    {o : RetentionOrigins} {request : QuotaPruneRequest}
    (hd : DecidedFor env Q db id d e o request) : DecidedFor env Q db' id d e o request := by
  refine hd.mono ?_ (.inl (h.classes id)) ?_ (.refl o)
  · rw [h.eq]
    exact hd.stored
  · rw [h.eq]
    exact hd.received

/-- **A record stays true**, whatever follows. -/
theorem Piece.decidedFor {Q' : Set QuotaPruneRequest} (h : Piece env D Q' db db')
    (hg : Grounded D db.ev) {id : ShortEventId} {d : QuotaPruneDecision} {e : Event}
    {o : RetentionOrigins} {request : QuotaPruneRequest}
    (hd : DecidedFor env Q db id d e o request) : ∃ o', DecidedFor env Q db' id d e o' request := by
  rcases h.bracket_or_aside with ⟨v, _, db₁, -, hred, haside, -⟩ | haside
  · obtain ⟨o', hd'⟩ := (hred.footprint hg).decidedFor hd
    exact ⟨o', haside.decidedFor hd'⟩
  · exact ⟨o, haside.decidedFor hd⟩

/-- **A reducer backs every decision it writes**, and keeps the older ones. -/
theorem Reducer.decided {v : VerifiedEvent} (h : Reducer env D Q db v db₁) (hg : Grounded D db.ev)
    (hd : Decided env Q db) : Decided env Q db₁ := by
  have hold : ∀ id d, db.quotaPruned.get id = some d →
      ∃ e o request, DecidedFor env Q db₁ id d e o request := by
    intro id d hrow
    obtain ⟨e, o, request, hfor⟩ := hd id d hrow
    obtain ⟨o', hfor'⟩ := (h.footprint hg).decidedFor hfor
    exact ⟨e, o', request, hfor'⟩
  intro id d hrow
  rcases h.decisions with ⟨heq, -⟩ | ⟨request, e, now, o, hq, hrel, -, hprune, horigins, heq, -⟩
  · rw [heq] at hrow
    exact hold id d hrow
  · rw [heq, Table.get_insert] at hrow
    split at hrow
    · next hid =>
      cases hrow
      subst hid
      refine ⟨e, o, request, ?_, hrel.nonempty, hrel.kind, hrel.remote, .inl ?_, ?_,
        ⟨hq, rfl, rfl, hrel.clock⟩, fun ht => ?_⟩
      · rw [hprune.events]
        exact hrel.stored
      · -- selected content holds a reference, so pruning really marks it
        cases hprune with
        | kept hterm _ =>
          have htarget := hrel.target
          unfold targetMatches at htarget
          split at htarget
          · next hst =>
            rw [contentClass, hst] at hterm
            cases hterm
          · next hst =>
            rw [contentClass, hst] at hterm
            cases hterm
          · cases htarget
        | pruned _ rc u h => simp [h, contentClass, classOf]
      · rw [horigins]
        exact hrel.received
      · have hpermit := hrel.permit
        simp only [originsPermit, ht] at hpermit
        simp only [decide_true, Bool.true_and, reduceCtorEq, decide_false, Bool.false_and,
          Bool.or_false, Bool.not_or, Bool.and_eq_true, Bool.not_not] at hpermit
        exact hpermit.2
    · exact hold id d hrow

omit [Primitives] in
theorem Aside.decided (h : Aside db db') (hd : Decided env Q db) : Decided env Q db' := by
  intro id d hrow
  rw [h.eq] at hrow
  obtain ⟨e, o, request, hfor⟩ := hd id d hrow
  exact ⟨e, o, request, h.decidedFor hfor⟩

/-- **Every piece keeps the decisions backed.** -/
theorem Piece.decided (h : Piece env D Q db db') (hg : Grounded D db.ev) (hd : Decided env Q db) :
    Decided env Q db' := by
  rcases h.bracket_or_aside with ⟨v, _, db₁, -, hred, haside, -⟩ | haside
  · exact haside.decided (hred.decided hg hd)
  · exact haside.decided hd

/-- A decision is never taken back or replaced. -/
theorem Piece.decisions_kept (h : Piece env D Q db db') {id : ShortEventId} {d : QuotaPruneDecision}
    (hrow : db.quotaPruned.get id = some d) : db'.quotaPruned.get id = some d := by
  have haside : ∀ {s s' : Database}, Aside s s' → s'.quotaPruned = s.quotaPruned := by
    intro s s' ha
    rw [ha.eq]
  rcases h.bracket_or_aside with ⟨v, _, db₁, -, hred, ha, -⟩ | ha
  · rw [haside ha]
    rcases hred.decisions with ⟨heq, -⟩ | ⟨request, e, now, o, -, hrel, -, -, -, heq, -⟩
    · rw [heq]
      exact hrow
    · rw [heq, Table.get_insert_of_ne _ _ ?_]
      · exact hrow
      · rintro rfl
        rw [hrel.undecided] at hrow
        cases hrow
  · rw [haside ha]
    exact hrow

/-! ## 2. The outcomes -/

/-- What a release leaves alone. -/
structure ReleaseFrame (db db' : Database) (id : ShortEventId) : Prop where
  lineage : db'.proj.socialPostsReplacedBy = db.proj.socialPostsReplacedBy ∧
    db'.proj.socialPostsReplaces = db.proj.socialPostsReplaces
  feed : db'.proj.socialPostMaterializations = db.proj.socialPostMaterializations
  graph : db'.ev = { db.ev with
    eventsContentState := db'.ev.eventsContentState
    eventsContentMissing := db'.ev.eventsContentMissing
    contentRc := db'.ev.contentRc
    idsDataUsage := db'.ev.idsDataUsage }
  origins : db'.origins = db.origins
  others : ∀ id', id' ≠ id →
    db'.ev.eventsContentState.get id' = db.ev.eventsContentState.get id'

/-- Taking content back for a release leaves the lineage and the feed. -/
theorem dematerializeTx_kept {v : VerifiedEvent} {target : QuotaPruneTarget} {p : Projections}
    (h : dematerializeTx db v target = .ok p) :
    (socialPart p).lineage = (socialPart db.proj).lineage ∧
      p.socialPostMaterializations = db.proj.socialPostMaterializations := by
  have hback := dematerializeTx_takenBack h
  have hreverted := dematerializeTx_reverted h
  cases target with
  | missing =>
    rw [show p = db.proj from hback]
    exact ⟨rfl, rfl⟩
  | processed =>
    obtain ⟨c, -, hc⟩ := hback
    obtain ⟨c', -, hc'⟩ := hreverted
    exact ⟨hc.lineage, ((processEventContentRevertedTx_beside _ _).of_ok hc').feed⟩

/-- **The three outcomes**: two change nothing, the third keeps the frame. -/
theorem pruneQuotaPayloadTx_outcome (env : Env) (db : Database) (request : QuotaPruneRequest) :
    Ensures (pruneQuotaPayloadTx env db request) (fun r => match r.2 with
      | .pruned _ => ReleaseFrame db r.1 request.id
      | _ => r.1 = db) (fun _ => True) := by
  unfold pruneQuotaPayloadTx
  refine (ensures_true _).bind fun _ _ => ?_
  split
  · exact rfl
  next e he =>
  split
  · exact rfl
  split
  · exact rfl
  split
  · split
    · exact rfl
    dsimp only
    split
    · trivial
    refine (ensures_true _).bind fun before _ => ?_
    refine ((ensures_self _).mono (fun _ h => h) fun _ _ => trivial).bind fun p hp => ?_
    refine (pruneEventContentTx_effect db.ev request.id e).bind fun t ht => ?_
    refine ((payloadAfterTx_ensures env _ before).mono (fun _ h => h) fun _ _ => trivial).bind
      fun db₂ ⟨a, x, hdb₂⟩ => ?_
    subst hdb₂
    obtain ⟨hlineage, hfeed⟩ := dematerializeTx_kept hp
    refine ⟨Prod.mk.inj hlineage, hfeed, ?_, rfl, fun id' hne => ht.state_other hne⟩
    cases ht with
    | kept _ h => rw [h]
    | pruned _ rc u h => rw [h]
  · exact rfl

/-! ## 3. Along every run -/

omit [Primitives] in
/-- **Content that can still be selected has no decision.** -/
theorem Decided.undecided (h : Decided env Q db) {target : QuotaPruneTarget} {id : ShortEventId}
    (ht : targetMatches target (db.ev.eventsContentState.get id) = true) :
    db.quotaPruned.get id = none := by
  cases hrow : db.quotaPruned.get id with
  | none => rfl
  | some d =>
    obtain ⟨e, o, request, hfor⟩ := h id d hrow
    have hreleased := hfor.released
    unfold targetMatches at ht
    split at ht
    · next hst =>
      rw [contentClass, hst] at hreleased
      rcases hreleased with hr | hr
      · cases hr
      · cases hr
    · next hst =>
      rw [contentClass, hst] at hreleased
      rcases hreleased with hr | hr
      · cases hr
      · cases hr
    · cases ht

/-- The quota requests of a run. -/
def requestsOf (ops : List Op) : Set QuotaPruneRequest := {q | Op.pruneQuota q ∈ ops}

theorem requestedFrom_requestsOf (ops : List Op) : RequestedFrom (requestsOf ops) ops :=
  fun _ h => h

theorem reached_decided (env : Env) (hcf : CollisionFree D) (ops : List Op)
    (hD : DeliveredFrom D ops) :
    Grounded D (reached env ops).ev ∧ Decided env (requestsOf ops) (reached env ops) := by
  have hrun := run_pieces env (J := Decided env (requestsOf ops)) (anything_keeps D) hcf
    (fun _ _ hI _ hp hd => hp.decided hI.1 hd) ops hD (requestedFrom_requestsOf ops)
    ⟨grounded_empty D, trivial⟩ (decided_empty env _)
  exact ⟨hrun.1.1, hrun.2⟩

/-- What the quota path promises in one reached state. -/
structure QuotaContract (env : Env) (db : Database) : Prop where
  unchanged : ∀ request db', pruneQuotaPayloadTx env db request = .ok (db', .unchanged) → db' = db
  ineligible : ∀ request db', pruneQuotaPayloadTx env db request = .ok (db', .ineligible) → db' = db
  pruned : ∀ request db' n, pruneQuotaPayloadTx env db request = .ok (db', .pruned n) →
    ReleaseFrame db db' request.id
  /-- Past the state gate there is no older decision to complain about. -/
  undecided : ∀ request : QuotaPruneRequest,
    targetMatches request.target (db.ev.eventsContentState.get request.id) = true →
      db.quotaPruned.get request.id = none

/-- **Quota decisions are protected and terminal**: each is backed where it was made and in every
later state, and is kept; the outcomes are frames. -/
theorem quotaDecisions_terminal (env : Env) (hcf : CollisionFree D) (ops later : List Op)
    (hD : DeliveredFrom D (ops ++ later)) :
    (∀ id d, (reached env ops).quotaPruned.get id = some d →
      (reached env (ops ++ later)).quotaPruned.get id = some d ∧
      ∃ e origins request,
        DecidedFor env (requestsOf ops) (reached env (ops ++ later)) id d e origins request) ∧
    QuotaContract env (reached env ops) := by
  have hD₁ : DeliveredFrom D ops := fun o ho => hD o (List.mem_append_left _ ho)
  have hD₂ : DeliveredFrom D later := fun o ho => hD o (List.mem_append_right _ ho)
  obtain ⟨hg, hdecided⟩ := reached_decided env hcf ops hD₁
  refine ⟨fun id d hrow => ?_, fun request db' h => ?_, fun request db' h => ?_,
    fun request db' n h => ?_, fun request ht => hdecided.undecided ht⟩
  · obtain ⟨e, o, request, hfor⟩ := hdecided id d hrow
    have hstep : ∀ db db', OnGround D Anything db.ev → OnGround D Anything db'.ev →
        Piece env D Set.univ db db' →
        (db.quotaPruned.get id = some d ∧
          ∃ o, DecidedFor env (requestsOf ops) db id d e o request) →
        db'.quotaPruned.get id = some d ∧
          ∃ o, DecidedFor env (requestsOf ops) db' id d e o request := by
      rintro db db' hI - hp ⟨hrow, o, hfor⟩
      exact ⟨hp.decisions_kept hrow, hp.decidedFor hI.1 hfor⟩
    have hrun := run_pieces env (anything_keeps D) hcf hstep later hD₂ (requestedFrom_univ later)
      ⟨hg, trivial⟩ ⟨hrow, o, hfor⟩
    rw [reached, run_append]
    obtain ⟨hrow', o', hfor'⟩ := hrun.2
    exact ⟨hrow', e, o', request, hfor'⟩
  · exact (pruneQuotaPayloadTx_outcome env _ request).of_ok h
  · exact (pruneQuotaPayloadTx_outcome env _ request).of_ok h
  · exact (pruneQuotaPayloadTx_outcome env _ request).of_ok h

end Decisions

/-! ## 4. A small run

A post is processed, the accounting is built, the post is released and later deleted. -/

section Sample

attribute [local instance] Primitives.reference

def sampleRelease : QuotaPruneRequest :=
  ⟨samplePayload.event.id, .processed, .authorQuota, samplePolicy, .trusted 20⟩

def sampleQuotaRun : List Op :=
  [.ingest [.payload samplePayload 5 {}], .rebuildAccounting 100, .pruneQuota sampleRelease]

def sampleLaterRun : List Op := [.ingest [.envelope (.ofEvent sampleDeletion) 30 .local]]

theorem quotaDecisions_terminal_sampleQuotaRun :
    let id := samplePayload.event.id
    let d : QuotaPruneDecision := ⟨.authorQuota, 20⟩
    (reached sampleEnv sampleQuotaRun).quotaPruned.get id = some d ∧
      ((reached sampleEnv (sampleQuotaRun ++ sampleLaterRun)).quotaPruned.get id = some d ∧
        ∃ e origins request, DecidedFor sampleEnv (requestsOf sampleQuotaRun)
          (reached sampleEnv (sampleQuotaRun ++ sampleLaterRun)) id d e origins request) ∧
      QuotaContract sampleEnv (reached sampleEnv sampleQuotaRun) := by
  have hrow : (reached sampleEnv sampleQuotaRun).quotaPruned.get samplePayload.event.id =
      some ⟨.authorQuota, 20⟩ := by decide +kernel
  obtain ⟨hdecided, hcontract⟩ := quotaDecisions_terminal sampleEnv
    (collisionFree_envelopesOf (by decide)) sampleQuotaRun sampleLaterRun
    (deliveredFrom_envelopesOf (sampleQuotaRun ++ sampleLaterRun))
  exact ⟨hrow, hdecided _ _ hrow, hcontract⟩

end Sample

end Rostra.Db
