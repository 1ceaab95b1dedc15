/-
# The hooks of a transaction, in general

Which hooks a transaction registers follows its control flow; what they mean differs from channel to
channel.  A `Law` is a relation between the tables before, the hooks, and the tables after.  If it
holds of every envelope and of every payload, composes, and lets maintenance go unheard (`Unheard`),
then it holds of every transaction (`Law.step`).

Hooks run when the transaction has committed, so a law is about whole transactions, and a hook that was registered
in a part of one that failed is never run. The converse is not part of a law: a hook may announce something that
changed back in the same transaction.

A law relates what a part of a transaction found to what it left, beside the hooks it has registered. The relation
is chosen by whoever states the law: that a watch is written when the heads change, or that what is new in the
graph is announced. Envelopes and payloads are the only places where a law has to be checked, because the rest is
unheard.
-/
import Rostra.Db.Signals
import Rostra.Proofs.Follows
import Rostra.Proofs.Social
import Rostra.Proofs.Pieces

namespace Rostra.Db

open Rostra Outcome

/-! ## 1. What is not announced

Maintenance registers no hooks. That it need not is a frame property: it leaves everything alone that a hook is
about. -/

/-- The tables that hooks are about are the same, and no content has become available. -/
structure Unheard (db db' : Database) : Prop where
  headers : db'.ev.events = db.ev.events
  heads : db'.ev.eventsHeads = db.ev.eventsHeads
  missing : db'.ev.eventsMissing = db.ev.eventsMissing
  follows : followPart db'.proj = followPart db.proj
  classes : ∀ id, contentClass db'.ev id = .current → contentClass db.ev id = .current

theorem Unheard.refl (db : Database) : Unheard db db := ⟨rfl, rfl, rfl, rfl, fun _ h => h⟩

theorem Unheard.trans {db db' db'' : Database} (h : Unheard db db') (h' : Unheard db' db'') :
    Unheard db db'' :=
  ⟨h'.headers.trans h.headers, h'.heads.trans h.heads, h'.missing.trans h.missing,
    h'.follows.trans h.follows, fun id hid => h.classes id (h'.classes id hid)⟩

/-- Maintenance writes none of these tables. -/
theorem Aside.unheard {db db' : Database} (h : Aside db db') : Unheard db db' := by
  refine ⟨by rw [h.eq], by rw [h.eq], by rw [h.eq], ?_, fun id hid => (h.classes id).symm.trans hid⟩
  rcases h.proj with heq | ⟨postId, now, heq⟩
  · rw [heq]
  · rw [heq, recalculateNewsPostScoreTx_frame]
    rfl

theorem Requeued.unheard {db : Database} {t : EventTables} (h : Requeued db.ev t) :
    Unheard db { db with ev := t } := by
  refine ⟨?_, ?_, ?_, rfl, fun id hid => (h.classes id).symm.trans hid⟩
  · show t.events = db.ev.events
    rw [h.eq]
  · show t.eventsHeads = db.ev.eventsHeads
    rw [h.eq]
  · show t.eventsMissing = db.ev.eventsMissing
    rw [h.eq]

theorem PruneEffect.unheard {db : Database} {t : EventTables} {id : ShortEventId}
    (h : PruneEffect db.ev id t) : Unheard db { db with ev := t } := by
  cases h with
  | kept _ heq =>
    subst heq
    exact .refl db
  | pruned _ rc u heq =>
    subst heq
    refine ⟨rfl, rfl, rfl, rfl, fun id' hid' => ?_⟩
    by_cases hid : id' = id
    · subst hid
      simp [contentClass, classOf] at hid'
    · rwa [contentClass, Table.get_insert_of_ne _ _ hid] at hid'

theorem ensureMissingScheduledTx_unheard (db : Database) (id : ShortEventId) :
    Unheard db { db with ev := ensureMissingScheduledTx db.ev id } :=
  (ensureMissingScheduledTx_requeued db.ev id).unheard

theorem Unheard.of_parts {db : Database} {t : EventTables} {p : Projections} (db' : Database)
    (ht : Unheard db { db with ev := t }) (hp : followPart p = followPart db.proj)
    (hev : db'.ev = t) (hproj : db'.proj = p) : Unheard db db' :=
  ⟨hev ▸ ht.headers, hev ▸ ht.heads, hev ▸ ht.missing, hproj ▸ hp, hev ▸ ht.classes⟩

section Transactions

variable [Primitives]

theorem payloadAfterTx_unheard (env : Env) (db : Database) (before : PayloadBefore) :
    Ensures (payloadAfterTx env db before) (Unheard db) (fun _ => True) := by
  refine (payloadAfterTx_ensures env db before).mono (fun db' h => ?_) fun _ _ => trivial
  obtain ⟨a, r, rfl⟩ := h
  exact ⟨rfl, rfl, rfl, rfl, fun _ h => h⟩

omit [Primitives] in
theorem collectGarbageLoop_unheard : ∀ (limit : ℕ) (db : Database) (removed : ℕ),
    Ensures (collectGarbageLoop limit db removed) (fun r => Unheard db r.1) (fun _ => True)
  | 0, db, _ => Unheard.refl db
  | limit + 1, db, removed => by
    unfold collectGarbageLoop
    have hstep : Ensures (collectQuotaPayloadStepTx db none u64Max) (fun r => Unheard db r.1)
        (fun _ => True) := ensures_of_ok fun _ h => (collectQuotaPayloadStepTx_aside h).unheard
    refine hstep.bind fun r hr => ?_
    split
    · exact hr
    · refine (ensures_true _).bind fun n _ => ?_
      exact (collectGarbageLoop_unheard limit _ n).mono (fun _ h => hr.trans h) fun _ h => h

/-- Only a post is taken back. -/
theorem RevertedBeside.follows {p p' : Projections} {c : EventContent}
    (h : RevertedBeside p p' c) : followPart p' = followPart p := by
  unfold RevertedBeside at h
  split at h
  · exact PostBeside.follows h
  · rw [h]

/-- What a release takes back is a post. -/
theorem pruneQuotaPayloadTx_unheard (env : Env) (db : Database) (request : QuotaPruneRequest) :
    Ensures (pruneQuotaPayloadTx env db request) (fun r => Unheard db r.1) (fun _ => True) := by
  have hsame : Unheard db db := .refl db
  unfold pruneQuotaPayloadTx
  refine (ensures_true _).bind fun _ _ => ?_
  split
  · exact hsame
  next e he =>
  split
  · exact hsame
  split
  · exact hsame
  split
  · next now origins _ _ =>
    split
    · exact hsame
    dsimp only
    split
    · trivial
    refine (ensures_true _).bind fun before _ => ?_
    have hproj : Ensures (dematerializeTx db (.ofEvent e) request.target)
        (fun p => followPart p = followPart db.proj) (fun _ => True) := by
      refine ensures_of_ok fun p hp => ?_
      have hrev := dematerializeTx_reverted hp
      split at hrev
      · rw [hrev]
      · obtain ⟨c, -, hok⟩ := hrev
        exact ((processEventContentRevertedTx_beside _ _).of_ok hok).follows
    refine hproj.bind fun p hp => ?_
    refine (pruneEventContentTx_effect db.ev request.id e).bind fun r hr => ?_
    have hreleased := Unheard.of_parts { db with
        ev := r.1
        proj := p
        quotaPruned := db.quotaPruned.insert request.id ⟨request.reason, now⟩
        accounting := nominateQuotaHashTx db.accounting e.contentHash } hr.unheard hp rfl rfl
    refine (payloadAfterTx_unheard env _ before).bind fun db' h => ?_
    exact hreleased.trans h
  · exact hsame

/-! ## 2. An envelope, after its header

All hooks of an envelope are registered when the header is inserted. What follows, the settling of its content and
the reversal of a parent that it deletes, registers none. -/

theorem withLineage_follows (p : Projections) (c : EventContent) :
    followPart (withLineage p c) = followPart p := by
  unfold withLineage
  split
  · rfl
  · rfl

/-- An envelope leaves the follows alone: what it takes back is a post. -/
theorem EnvelopeEffect.follows {db db' : Database} {v : VerifiedEvent}
    (h : EnvelopeEffect db v db') : followPart db'.proj = followPart db.proj := by
  cases h with
  | present e he t₁ ht₁ hfin hproj hquota => rw [hproj]
  | new hnew t₁ isD dp rev hins hfin next hproj hquota =>
    have harrived : followPart (lineageArrived t₁ { db.proj with receptionOrderNext := next } v isD) =
        followPart db.proj := by
      unfold lineageArrived
      split
      · cases storedContent t₁ v with
        | none => rfl
        | some c => exact withLineage_follows _ _
      · rfl
    have hrev := arrivedProjections_reverted hproj
    cases hc : revertedContent t₁ dp rev with
    | none =>
      simp only [hc] at hrev
      rw [hrev, harrived]
    | some c =>
      simp only [hc] at hrev
      rcases hrev with hok | ⟨-, heq⟩
      · rw [((processEventContentRevertedTx_beside _ c).of_ok hok).follows, harrived]
      · rw [heq, harrived]

/-- From the inserted header to the end of the transaction nothing is announced. -/
theorem processEventInnerTx_inserts (env : Env) (ctx : TxCtx) (db : Database) (v : VerifiedEvent)
    (now : Timestamp) (source : EventReceivedSource) :
    Ensures (processEventInnerTx env ctx db v now source) (fun r => ∃ ins,
      insertEventTx db.ev v = .ok ins ∧ Unheard { db with ev := ins.1 } { db with ev := r.1.ev })
      (fun _ => True) := by
  unfold processEventInnerTx
  refine ((ensures_self _).mono (fun _ h => h) fun _ _ => trivial).bind fun ⟨t, o⟩ hins => ?_
  have hafter : Ensures (afterOutcomeTx env ctx { db with ev := t } v now source o)
      (fun db' => Unheard { db with ev := t } { db with ev := db'.ev }) (fun _ => True) := by
    cases o with
    | alreadyPresent => exact Unheard.refl _
    | inserted wm isD dp rev mp =>
      unfold afterOutcomeTx afterInsertTx
      have hquota : Ensures (applyQuotaDecisionTx { db with ev := t } v)
          (fun t' => Unheard { db with ev := t } { db with ev := t' }) (fun _ => True) := by
        unfold applyQuotaDecisionTx
        split
        · exact (pruneEventContentTx_effect t v.id v.event).bind fun r hr =>
            PruneEffect.unheard hr
        · exact Unheard.refl _
      refine hquota.bind fun t' ht' => ?_
      refine (ensures_true _).bind fun _ _ => ?_
      refine (ensures_true _).bind fun _ _ => ?_
      exact (ensures_true _).bind fun _ _ => ht'
  refine hafter.bind fun db₁ h₁ => ?_
  have hsettle : Ensures (settleContentTx db₁.ev v o)
      (fun r => Unheard { db with ev := db₁.ev } { db with ev := r.1 }) (fun _ => True) := by
    unfold settleContentTx
    split
    · exact Unheard.refl _
    split
    · exact (pruneEventContentTx_effect db₁.ev v.id v.event).bind fun r hr =>
        PruneEffect.unheard hr
    split
    · exact Unheard.refl _
    · exact Unheard.refl _
  exact hsettle.bind fun r hr => ⟨(t, o), hins, h₁.trans hr⟩

/-- **All that an envelope announces is its header**; the rest of its transaction is unheard. -/
theorem processEventTx_inserts (env : Env) (db : Database) (v : VerifiedEvent) (now : Timestamp)
    (source : EventReceivedSource) :
    Ensures (processEventTx env {} db v now source) (fun r => ∃ ins,
      insertEventTx db.ev v = .ok ins ∧ Unheard { db with ev := ins.1 } r.1) (fun _ => True) := by
  unfold processEventTx
  refine (ensures_true _).bind fun before _ => ?_
  refine ((processEventInnerTx_effect env {} db v now source).and
    (processEventInnerTx_inserts env {} db v now source)).mono (fun _ h => h)
    (fun _ _ => trivial) |>.bind fun r hr => ?_
  refine (payloadAfterTx_unheard env r.1 before).bind fun db₂ h₂ => ?_
  obtain ⟨heff, ins, hins, hrest⟩ := hr
  have hinner : Unheard { db with ev := ins.1 } r.1 :=
    ⟨hrest.headers, hrest.heads, hrest.missing, heff.follows, hrest.classes⟩
  exact ⟨ins, hins, (hinner.trans h₂).trans (ensureMissingScheduledTx_unheard db₂ v.id)⟩

/-! ## 3. Laws

A law has one field for each kind of part, and the lemmas are named after the operations of the code that it holds
of. -/

variable {H : Type}

/-- **A law about hooks**, as far as it has to be checked. -/
structure Registry.Law (env : Env) (g : Registry H) (R : Database → List H → Database → Prop) :
    Prop where
  unheard : ∀ {db db' : Database}, Unheard db db' → R db [] db'
  trans : ∀ {db db' db'' : Database} {hooks hooks' : List H}, R db hooks db' → R db' hooks' db'' →
    R db (hooks ++ hooks') db''
  envelope : ∀ (db : Database) (v : VerifiedEvent) (now : Timestamp) (source : EventReceivedSource),
    Ensures (processEventTx env {} db v now source) (fun r => R db (g.event db v) r.1) (fun _ => True)
  payload : ∀ (db : Database) (c : VerifiedEventContent) (now : Timestamp) (ledger : AdmissionState)
    (buffer : Option PayloadBuffer), Ensures (processEventContentTx env {} db c now ledger buffer)
      (fun db' => R db (g.content db c now ledger buffer) db') (fun _ => True)
  /-- A payload that is refused registers nothing. -/
  refused : ∀ (db : Database) (c : VerifiedEventContent) (now : Timestamp) (ledger : AdmissionState)
    (buffer : Option PayloadBuffer) (reason : PayloadAdmissionPause),
    canInsertEventContentTx db.ev c.event.id = true →
    admitMaterializationTx db c.event buffer ledger = .error (.payloadAdmissionPaused reason) →
    g.content db c now ledger buffer = []

namespace Registry.Law

variable {env : Env} {g : Registry H} {R : Database → List H → Database → Prop}

/-- The row of the schedule of a refused payload is not announced. -/
theorem processAdmittedContentTx (h : g.Law env R) (db : Database) (c : VerifiedEventContent)
    (now : Timestamp) (ledger : AdmissionState) (buffer : Option PayloadBuffer) :
    Ensures (processAdmittedContentTx env {} db c now ledger buffer)
      (fun r => R db (g.content db c now ledger buffer) r.1) (fun _ => True) := by
  have hcontent := h.payload db c now ledger buffer
  unfold Db.processAdmittedContentTx
  dsimp only
  split
  · next db' hok =>
    have hdb' := hcontent.of_ok hok
    split
    · exact hdb'
    split
    · exact hdb'
    · exact hdb'
  · next reason herr =>
    have href := processEventContentTx_pause herr
    rw [h.refused db c now ledger buffer reason href.awaited href.admission]
    exact h.unheard (ensureMissingScheduledTx_unheard db c.event.id)
  · trivial

theorem tryMaterializeStoredPayload (h : g.Law env R) (db : Database) (id : ShortEventId)
    (now : Timestamp) (ledger : AdmissionState) :
    Ensures (tryMaterializeStoredPayload env {} db id now ledger)
      (fun r => R db (g.materializeStored db id now ledger) r.1) (fun _ => True) := by
  have hsame : R db [] db := h.unheard (.refl db)
  have hdefer : R db [] { db with ev := ensureMissingScheduledTx db.ev id } :=
    h.unheard (ensureMissingScheduledTx_unheard db id)
  unfold Db.tryMaterializeStoredPayload Registry.materializeStored
  cases he : db.ev.events.get id with
  | none => exact hsame
  | some e =>
    dsimp only
    split
    · exact hsame
    cases hadmit : admitMaterializationTx db (VerifiedEvent.ofEvent e) none ledger with
    | error err =>
      dsimp only
      split
      · exact hdefer
      · trivial
      · next h => cases h
    | ok admitted =>
      obtain ⟨buffer, ledger'⟩ := admitted
      dsimp only
      cases halloc : reservePayloadAllocation ledger' e.contentLen with
      | error reason => exact hdefer
      | ok s =>
        dsimp only
        cases hb : db.ev.contentStore.get e.contentHash with
        | none => exact hsame
        | some b =>
          dsimp only
          rw [Option.bind_some]
          split
          · trivial
          cases hc : VerifiedEventContent.verify (VerifiedEvent.ofEvent e) (some b) with
          | none => trivial
          | some c => exact h.processAdmittedContentTx db c now ledger' buffer

/-- The carried envelope, then the payload: hooks are composed in this order. -/
theorem carried {α : Type} (h : g.Law env R) (db : Database) {c : VerifiedEventContent}
    (now : Timestamp) {ledger : AdmissionState} {buffer : Option PayloadBuffer}
    {f : Database → DbResult α} {k : α → Database}
    (hf : ∀ db, Ensures (f db) (fun r => R db (g.content db c now ledger buffer) (k r))
      (fun _ => True)) :
    Ensures (processEventTx env {} db c.event now (.pushed none none) >>= fun r => f r.1)
      (fun r => R db (g.carried env db c now ledger buffer) (k r)) (fun _ => True) := by
  unfold Registry.carried
  have hevent := h.envelope db c.event now (.pushed none none)
  cases hr : processEventTx env {} db c.event now (.pushed none none) with
  | error e => trivial
  | ok r =>
    have h₁ := hevent.of_ok hr
    exact (hf r.1).mono (fun _ h₂ => h.trans h₁ h₂) fun _ h => h

theorem deliver (h : g.Law env R) (db : Database) (d : Delivery) :
    Ensures (deliver env db d) (fun db' => R db (g.delivery env db d) db') (fun _ => True) := by
  cases d with
  | envelope v now source => exact (h.envelope db v now source).bind fun r hr => hr
  | payload c now ledger =>
    exact h.carried db now (k := fun db => db) fun db => h.payload db c now ledger none

theorem ingest (h : g.Law env R) : ∀ (ds : List Delivery) (db : Database),
    Ensures (ds.foldlM (Db.deliver env) db) (fun db' => R db (g.ingest env db ds) db') (fun _ => True)
  | [], db => h.unheard (.refl db)
  | d :: ds, db => by
    rw [List.foldlM_cons]
    unfold Registry.ingest
    have hd := h.deliver db d
    cases hr : Db.deliver env db d with
    | error e => trivial
    | ok db₁ =>
      have h₁ := hd.of_ok hr
      exact (h.ingest ds db₁).mono (fun _ h₂ => h.trans h₁ h₂) fun _ h => h

/-- **Every transaction obeys the law**, with the hooks that it registers in the order of the code. -/
theorem step (h : g.Law env R) (db : Database) (op : Op) :
    Ensures (Db.step env db op) (fun db' => R db (g.commit env db op) db') (fun _ => True) := by
  have hquiet : ∀ {α : Type} {m : DbResult α} {k : α → Database},
      Ensures m (fun r => Unheard db (k r)) (fun _ => True) →
      Ensures m (fun r => R db [] (k r)) (fun _ => True) :=
    fun hm => hm.mono (fun _ hr => h.unheard hr) fun _ h => h
  cases op with
  | ingest ds => exact h.ingest ds db
  | ingestAdmitted c now ledger buffer =>
    have hcarried := h.carried db now (k := Prod.fst) fun db =>
      h.processAdmittedContentTx db c now ledger buffer
    exact hcarried.bind fun r hr => hr
  | materializeStored id now ledger =>
    exact (h.tryMaterializeStoredPayload db id now ledger).bind fun r hr => hr
  | pruneQuota request =>
    exact (hquiet (pruneQuotaPayloadTx_unheard env db request)).bind fun r hr => hr
  | collectStep after maxBytes =>
    have hstep : Ensures (collectQuotaPayloadStepTx db after maxBytes) (fun r => Unheard db r.1)
        (fun _ => True) := ensures_of_ok fun _ h => (collectQuotaPayloadStepTx_aside h).unheard
    exact (hquiet hstep).bind fun r hr => hr
  | collectGarbage limit =>
    simp only [Db.step, collectQuotaPayloadGarbage]
    split
    · trivial
    refine (ensures_true _).bind fun _ _ => ?_
    exact (hquiet (collectGarbageLoop_unheard limit db 0)).bind fun r hr => hr
  | rebuildAccounting limit =>
    exact hquiet (k := id) ((rebuildPayloadAccounting_eq env db limit).mono
      (fun _ h => (Aside.of_accounting h).unheard) fun _ h => h)
  | rebuildNominations limit =>
    exact hquiet (k := id) ((rebuildQuotaPayloadNominations_eq env db limit).mono
      (fun _ h => (Aside.of_accounting h).unheard) fun _ h => h)
  | configureRetention policy => exact h.unheard ⟨rfl, rfl, rfl, rfl, fun _ h => h⟩
  | rebuildRetention limit =>
    exact hquiet (k := id) ((rebuildRetentionIndex_eq env db limit).mono
      (fun _ h => (Aside.of_retention h).unheard) fun _ h => h)
  | promoteRetention clock limit =>
    exact hquiet (k := id) ((promoteRetentionGrace_eq db clock limit).mono
      (fun _ h => (Aside.of_retention h).unheard) fun _ h => h)
  | deferFetch id observed retryAt => exact h.unheard (rescheduleTx_requeued _ _ _ _ _).unheard
  | recordFailedFetch id observed attemptedAt nextAttemptAt =>
    exact h.unheard (rescheduleTx_requeued _ _ _ _ _).unheard
  | peekMissing =>
    obtain ⟨q, hq⟩ := peekLoop_effect (db.ev.eventsContentMissing.card + 1) db.ev
    simp only [Db.step, peekNextMissingContent, hq]
    exact h.unheard (Requeued.queue db.ev q).unheard
  | recalculateNews postId now =>
    have haside : Aside db { db with proj := (recalculateNewsPostScoreTx db.proj postId now).1 } :=
      ⟨rfl, fun _ => rfl, .inr ⟨postId, now, rfl⟩, .inl rfl⟩
    exact h.unheard haside.unheard

end Registry.Law

/-- An event that a transaction is about: one that it delivers, or one whose header is stored. -/
def InScope (db : Database) (delivered : List VerifiedEvent) (v : VerifiedEvent) : Prop :=
  v ∈ delivered ∨ ∃ id e, db.ev.events.get id = some e ∧ v = .ofEvent e

/-- Where a registered hook comes from: an envelope that was delivered, or a payload. -/
def Registry.Origin (g : Registry H) (delivered : List VerifiedEvent) (payload : VerifiedEvent → Prop)
    (hook : H) : Prop :=
  (∃ db, ∃ v ∈ delivered, hook ∈ g.event db v) ∨
    ∃ db c now ledger buffer, payload c.event ∧ hook ∈ g.content db c now ledger buffer

theorem Registry.Origin.mono {g : Registry H} {delivered delivered' : List VerifiedEvent}
    {payload payload' : VerifiedEvent → Prop} {hook : H} (h : g.Origin delivered payload hook)
    (hd : ∀ v ∈ delivered, v ∈ delivered') (hp : ∀ v, payload v → payload' v) :
    g.Origin delivered' payload' hook := by
  rcases h with ⟨db, v, hv, hin⟩ | ⟨db, c, now, ledger, buffer, hc, hin⟩
  · exact .inl ⟨db, v, hd v hv, hin⟩
  · exact .inr ⟨db, c, now, ledger, buffer, hp _ hc, hin⟩

theorem Registry.mem_carried {g : Registry H} {env : Env} {db : Database}
    {c : VerifiedEventContent} {now : Timestamp} {ledger : AdmissionState}
    {buffer : Option PayloadBuffer} {hook : H} (h : hook ∈ g.carried env db c now ledger buffer) :
    g.Origin [c.event] (· = c.event) hook := by
  unfold Registry.carried at h
  rcases List.mem_append.mp h with h | h
  · exact .inl ⟨db, c.event, List.mem_singleton_self _, h⟩
  · split at h
    · exact .inr ⟨_, c, now, ledger, buffer, rfl, h⟩
    · cases h

theorem Registry.mem_ingest {g : Registry H} {env : Env} {hook : H} : ∀ (ds : List Delivery)
    (db : Database), hook ∈ g.ingest env db ds →
      g.Origin (ds.map Delivery.event) (· ∈ ds.map Delivery.event) hook
  | [], _, h => by cases h
  | d :: ds, db, h => by
    have hrest : ∀ v ∈ ds.map Delivery.event, v ∈ (d :: ds).map Delivery.event :=
      fun v hv => List.mem_cons_of_mem _ hv
    unfold Registry.ingest at h
    rcases List.mem_append.mp h with h | h
    · cases d with
      | envelope v now source => exact .inl ⟨db, v, by simp [Delivery.event], h⟩
      | payload c now ledger =>
        refine (Registry.mem_carried h).mono (by simp [Delivery.event]) fun v hv => ?_
        rw [hv]
        exact List.mem_cons_self
    · split at h
      · exact (Registry.mem_ingest ds _ h).mono hrest hrest
      · cases h

theorem Registry.mem_commit {g : Registry H} {env : Env} {db : Database} {op : Op} {hook : H}
    (h : hook ∈ g.commit env db op) : g.Origin op.delivered (InScope db op.delivered) hook := by
  cases op with
  | ingest ds => exact (Registry.mem_ingest ds db h).mono (fun _ hv => hv) fun _ hv => .inl hv
  | ingestAdmitted c now ledger buffer =>
    exact (Registry.mem_carried h).mono (fun _ hv => hv) fun _ hv => .inl (List.mem_singleton.mpr hv)
  | materializeStored id now ledger =>
    simp only [Registry.commit, Registry.materializeStored] at h
    split at h
    · cases h
    next e he =>
    split at h
    · cases h
    split at h
    · cases h
    split at h
    · cases h
    split at h
    · cases h
    · next c hc =>
      obtain ⟨b, -, hverify⟩ := Option.bind_eq_some_iff.mp hc
      exact .inr ⟨_, _, _, _, _, .inr ⟨id, e, he,
        (VerifiedEventContent.verify_eq_some hverify).1⟩, h⟩
  | _ => cases h

/-! ## 4. What is announced

The law that the background tasks rely on. It is stated in one direction: what is new in the tables was announced. -/

/-- What the insertion of a header adds to the graph, and how its outcome says so. -/
structure GraphGrowth (t t' : EventTables) (v : VerifiedEvent) (o : InsertEventOutcome) : Prop where
  missing : ∀ k : RostraId × ShortEventId, (t'.eventsMissing.get k).isSome →
    (t.eventsMissing.get k).isSome ∨ ∃ wasMissing isDeleted parent reverted p ps,
      o = .inserted wasMissing isDeleted parent reverted (p :: ps) ∧ k.1 = v.event.author
  heads : ∀ k ∈ t'.eventsHeads, k ∈ t.eventsHeads ∨ ∃ parent reverted ps,
    o = .inserted false false parent reverted ps ∧ k = (v.event.author, v.id)
  classes : ∀ id, contentClass t' id = .current → contentClass t id = .current

/-- What one parent adds. -/
structure ParentGrowth (s s' : ParentScan) (v : VerifiedEvent) : Prop where
  missing : ∀ k : RostraId × ShortEventId, (s'.ev.eventsMissing.get k).isSome →
    (s.ev.eventsMissing.get k).isSome ∨ (s'.missingParents ≠ [] ∧ k.1 = v.event.author)
  heads : s'.ev.eventsHeads ⊆ s.ev.eventsHeads
  parents : s.missingParents ≠ [] → s'.missingParents ≠ []

theorem ParentGrowth.trans {s s' s'' : ParentScan} {v : VerifiedEvent} (h : ParentGrowth s s' v)
    (h' : ParentGrowth s' s'' v) : ParentGrowth s s'' v where
  missing := by
    intro k hk
    rcases h'.missing k hk with hk | hk
    · rcases h.missing k hk with hk | ⟨hne, hauthor⟩
      · exact .inl hk
      · exact .inr ⟨h'.parents hne, hauthor⟩
    · exact .inr hk
  heads := h'.heads.trans h.heads
  parents := fun hne => h'.parents (h.parents hne)

theorem processParentTx_growth (v : VerifiedEvent) (s : ParentScan)
    (p : Option ShortEventId × Bool) :
    Ensures (processParentTx v s p) (fun s' => ParentGrowth s s' v) (fun _ => True) := by
  have hsame : ParentGrowth s s v := ⟨fun _ h => .inl h, Finset.Subset.refl _, fun h => h⟩
  have hvisit : ∀ id, Ensures (visitParentTx v s id p.2) (fun s' => ParentGrowth s s' v)
      (fun _ => True) := by
    intro id
    unfold visitParentTx
    split
    · split
      · unfold deleteParentTx
        refine (ensures_true _).bind fun d _ => ?_
        refine (ensures_true _).bind fun rc _ => ?_
        refine (ensures_true _).bind fun u _ => ?_
        exact ⟨fun _ h => .inl h, Finset.Subset.refl _, fun h => h⟩
      · exact hsame
    · unfold missParentTx
      refine (ensures_true _).bind fun d _ => ?_
      refine ⟨fun k hk => ?_, Finset.Subset.refl _, fun _ => by simp⟩
      by_cases hkey : k = (v.event.author, id)
      · exact .inr ⟨by simp, by rw [hkey]⟩
      · exact .inl (by rwa [Table.get_insert_of_ne _ _ hkey] at hk)
  unfold processParentTx
  split
  · exact hsame
  next id _ =>
  refine (hvisit id).bind fun s' hs' => ?_
  exact ⟨hs'.missing, (Finset.erase_subset _ _).trans hs'.heads, hs'.parents⟩

/-- An event that was missing is no head, and any other is. -/
theorem takeMissing_growth (t : EventTables) (v : VerifiedEvent) :
    (∀ k : RostraId × ShortEventId, ((takeMissing t v).1.eventsMissing.get k).isSome →
      (t.eventsMissing.get k).isSome) ∧
    ∀ k ∈ (takeMissing t v).1.eventsHeads, k ∈ t.eventsHeads ∨
      (k = (v.event.author, v.id) ∧ (takeMissing t v).2 = (false, false)) := by
  have hremove : ∀ k : RostraId × ShortEventId,
      ((t.eventsMissing.remove (v.event.author, v.id)).get k).isSome →
        (t.eventsMissing.get k).isSome := by
    intro k hk
    rw [Table.get_remove] at hk
    split at hk
    · cases hk
    · exact hk
  unfold takeMissing
  dsimp only
  split
  · split
    · exact ⟨hremove, fun k hk => .inl hk⟩
    · exact ⟨hremove, fun k hk => .inl hk⟩
  · refine ⟨fun k hk => hk, fun k hk => ?_⟩
    rcases Finset.mem_insert.mp hk with rfl | hk
    · exact .inr ⟨rfl, rfl⟩
    · exact .inl hk

/-- **An insertion adds missing rows of its author only, and says that it did**; the one head it can
add is itself, when nothing was waiting for it. -/
theorem insertEventTx_growth (t : EventTables) (v : VerifiedEvent) :
    Ensures (insertEventTx t v) (fun r => GraphGrowth t r.1 v r.2) (fun _ => True) := by
  have heffect := insertEventTx_effect t v
  have hclasses : Ensures (insertEventTx t v)
      (fun r => ∀ id, contentClass r.1 id = .current → contentClass t id = .current)
      (fun _ => True) := by
    refine heffect.mono (fun r hr id hid => ?_) fun _ h => h
    cases hr with
    | present e he hreg ht ho => rwa [ht] at hid
    | new hnew hreg wm isD dp rev mp h ho =>
      by_cases hself : id = v.id
      · subst hself
        have hstate := h.state_self
        cases isD with
        | true =>
          obtain ⟨d, hd⟩ := hstate
          rw [contentClass, hd] at hid
          cases hid
        | false =>
          simp only [Bool.false_eq_true, if_false] at hstate
          rw [contentClass, hstate] at hid
          split at hid
          · cases hid
          · exact hid
      · by_cases hparent : dp = some id
        · obtain ⟨d, hd⟩ := h.state_parent id hparent
          rw [contentClass, hd] at hid
          cases hid
        · rwa [contentClass, h.state_other id hself hparent] at hid
  have hgraph : Ensures (insertEventTx t v) (fun r =>
      (∀ k : RostraId × ShortEventId, (r.1.eventsMissing.get k).isSome →
        (t.eventsMissing.get k).isSome ∨ ∃ wm isD parent reverted p ps,
          r.2 = .inserted wm isD parent reverted (p :: ps) ∧ k.1 = v.event.author) ∧
      ∀ k ∈ r.1.eventsHeads, k ∈ t.eventsHeads ∨ ∃ parent reverted ps,
        r.2 = .inserted false false parent reverted ps ∧ k = (v.event.author, v.id))
      (fun _ => True) := by
    unfold insertEventTx
    refine (ensures_true _).bind fun ids _ => ?_
    split
    · exact ⟨fun k hk => .inl hk, fun k hk => .inl hk⟩
    unfold insertNewEventTx
    obtain ⟨hmissing, hheads⟩ := takeMissing_growth { t with idsFull := ids } v
    generalize takeMissing { t with idsFull := ids } v = taken at hmissing hheads
    have hscan := Ensures.foldlM (J := fun s => ParentGrowth { ev := taken.1 } s v)
      (E := fun _ => True) (parentIds v.event) { ev := taken.1 }
      (fun p _ s hs => (processParentTx_growth v s p).mono (fun _ h => hs.trans h) fun _ h => h)
      ⟨fun _ h => .inl h, Finset.Subset.refl _, fun h => h⟩
    refine hscan.bind fun s hs => ?_
    refine ((storeHeaderTx_ensures _ _).mono (fun _ h => h) fun _ _ => trivial).bind fun t₁ h₁ => ?_
    refine ((startContentTx_ensures t₁ v _).mono (fun _ h => h) fun _ _ => trivial).bind
      fun t₂ h₂ => ?_
    have hmiss : t₂.eventsMissing = s.ev.eventsMissing := by rw [h₂.2.2.1, h₁]
    have hhead : t₂.eventsHeads = s.ev.eventsHeads := by rw [h₂.2.1, h₁]
    refine ⟨fun k hk => ?_, fun k hk => ?_⟩
    · rcases hs.missing k (hmiss ▸ hk) with hk | ⟨hne, hauthor⟩
      · exact .inl (hmissing k hk)
      · obtain ⟨p, ps, hps⟩ := List.exists_cons_of_ne_nil hne
        exact .inr ⟨_, _, _, _, p, ps, congrArg _ hps, hauthor⟩
    · rcases hheads k (hs.heads (hhead ▸ hk)) with hk | ⟨hkey, hflags⟩
      · exact .inl hk
      · refine .inr ⟨s.deletedParent, s.revertedParentContent, s.missingParents, ?_, hkey⟩
        rw [hflags]
  exact (hclasses.and hgraph).mono (fun r hr => ⟨hr.2.1, hr.2.2, hr.1⟩) fun _ _ => trivial

/-- **What tasks rely on**: a missing row, a head and available content that were not there before are
announced; headers stay, and a new head is a new event. -/
structure Heralded (db : Database) (hooks : List Signal) (db' : Database) : Prop where
  missing : ∀ k : RostraId × ShortEventId, (db'.ev.eventsMissing.get k).isSome →
    (db.ev.eventsMissing.get k).isSome ∨ .missingEvents k.1 ∈ hooks
  heads : ∀ k ∈ db'.ev.eventsHeads, k ∈ db.ev.eventsHeads ∨ .newHead k.1 k.2 ∈ hooks
  content : ∀ id, contentClass db'.ev id = .current →
    contentClass db.ev id = .current ∨ ∃ author, .newContent author id ∈ hooks
  headers : ∀ id e, db.ev.events.get id = some e → db'.ev.events.get id = some e
  fresh : ∀ k ∈ db'.ev.eventsHeads, k ∈ db.ev.eventsHeads ∨ (db.ev.events.get k.2 = none ∧
    ∃ e, db'.ev.events.get k.2 = some e ∧ e.author = k.1)

omit [Primitives] in
theorem Unheard.heralded {db db' : Database} (h : Unheard db db') (hooks : List Signal) :
    Heralded db hooks db' :=
  ⟨fun _ hk => .inl (h.missing ▸ hk), fun _ hk => .inl (h.heads ▸ hk),
    fun id hid => .inl (h.classes id hid), fun _ _ he => h.headers ▸ he,
    fun _ hk => .inl (h.heads ▸ hk)⟩

omit [Primitives] in
theorem Heralded.trans {db db' db'' : Database} {hooks hooks' : List Signal}
    (h : Heralded db hooks db') (h' : Heralded db' hooks' db'') :
    Heralded db (hooks ++ hooks') db'' where
  missing := by
    intro k hk
    rcases h'.missing k hk with hk | hk
    · exact (h.missing k hk).imp_right (List.mem_append_left _)
    · exact .inr (List.mem_append_right _ hk)
  heads := by
    intro k hk
    rcases h'.heads k hk with hk | hk
    · exact (h.heads k hk).imp_right (List.mem_append_left _)
    · exact .inr (List.mem_append_right _ hk)
  content := by
    intro id hid
    rcases h'.content id hid with hid | ⟨author, hid⟩
    · exact (h.content id hid).imp_right fun ⟨author, ha⟩ => ⟨author, List.mem_append_left _ ha⟩
    · exact .inr ⟨author, List.mem_append_right _ hid⟩
  headers := fun id e he => h'.headers id e (h.headers id e he)
  fresh := by
    intro k hk
    rcases h'.fresh k hk with hk | ⟨hnone, hstored⟩
    · rcases h.fresh k hk with hk | ⟨hnone, e, he, hauthor⟩
      · exact .inl hk
      · exact .inr ⟨hnone, e, h'.headers _ e he, hauthor⟩
    · refine .inr ⟨?_, hstored⟩
      cases hold : db.ev.events.get k.2 with
      | none => rfl
      | some e =>
        rw [h.headers _ e hold] at hnone
        cases hnone

theorem processEventTx_heralded (env : Env) (db : Database) (v : VerifiedEvent) (now : Timestamp)
    (source : EventReceivedSource) :
    Ensures (processEventTx env {} db v now source)
      (fun r => Heralded db (eventSignals env db v) r.1) (fun _ => True) := by
  refine (processEventTx_inserts env db v now source).mono (fun r hr => ?_) fun _ h => h
  obtain ⟨⟨t, o⟩, hins, hrest⟩ := hr
  have hgrowth := (insertEventTx_growth db.ev v).of_ok hins
  have hheader : Heralded db (eventSignals env db v) { db with ev := t } := by
    refine ⟨fun k hk => ?_, fun k hk => ?_, fun id hid => .inl (hgrowth.classes id hid),
      fun id e he => ?_, fun k hk => ?_⟩
    · rcases hgrowth.missing k hk with hk | ⟨wm, isD, parent, reverted, p, ps, ho, hauthor⟩
      · exact .inl hk
      · refine .inr ?_
        unfold eventSignals
        rw [hins, show o = _ from ho]
        simp [hauthor]
    · rcases hgrowth.heads k hk with hk | ⟨parent, reverted, ps, ho, rfl⟩
      · exact .inl hk
      · refine .inr ?_
        unfold eventSignals
        rw [hins, show o = _ from ho]
        simp
    · cases (insertEventTx_effect db.ev v).of_ok hins with
      | present e' he' hreg ht ho =>
        have hsame : t = { db.ev with idsFull := t.idsFull } := ht
        show t.events.get id = some e
        rw [hsame]
        exact he
      | new hnew hreg wm isD dp rev mp hin ho =>
        have hrow : t.events = db.ev.events.insert v.id v.event := hin.events
        show t.events.get id = some e
        rw [hrow, Table.get_insert_of_ne _ _ (fun heq => by rw [heq, hnew] at he; cases he)]
        exact he
    · rcases hgrowth.heads k hk with hk | ⟨parent, reverted, ps, ho, rfl⟩
      · exact .inl hk
      · cases (insertEventTx_effect db.ev v).of_ok hins with
        | present e' he' hreg ht ho' =>
          rw [show o = _ from ho'] at ho
          cases ho
        | new hnew hreg wm isD dp rev mp hin ho' =>
          have hrow : t.events = db.ev.events.insert v.id v.event := hin.events
          refine .inr ⟨hnew, v.event, ?_, rfl⟩
          show t.events.get v.id = some v.event
          rw [hrow, Table.get_insert_self]
  have hboth := hheader.trans (hrest.heralded [])
  rwa [List.append_nil] at hboth

/-- Processed content is announced. -/
theorem materializeTx_heralded (env : Env) (db : Database) (c : VerifiedEventContent)
    (now : Timestamp) (hooks : List Signal)
    (hvalid : ∀ p, c.content.isSome → processEventContentInsertedTx env {} db.proj c.toEventContent
      now = .ok p → .newContent c.event.event.author c.event.id ∈ hooks) :
    Ensures (materializeTx env {} db c now) (fun db' => Heralded db hooks db') (fun _ => True) := by
  unfold materializeTx
  dsimp only
  split
  · exact ⟨fun _ hk => .inl hk, fun _ hk => .inl hk, fun _ hid => .inl hid, fun _ _ he => he,
      fun _ hk => .inl hk⟩
  next b hb =>
  split
  · next p hp =>
    refine (storeContentTx_effect _ _ b).bind fun ev hev => ?_
    obtain ⟨u, rfl⟩ := hev
    refine ⟨fun _ hk => .inl hk, fun _ hk => .inl hk, fun id hid => ?_, fun _ _ he => he,
      fun _ hk => .inl hk⟩
    by_cases hself : id = c.event.id
    · exact .inr ⟨_, hself ▸ hvalid p (by rw [hb]; rfl) hp⟩
    · exact .inl (by rwa [contentClass, Table.get_remove_of_ne _ hself] at hid)
  · refine (rejectContentTx_effect _ _).bind fun ev hev => ?_
    obtain ⟨rc, u, rfl⟩ := hev
    refine ⟨fun _ hk => .inl hk, fun _ hk => .inl hk, fun id hid => ?_, fun _ _ he => he,
      fun _ hk => .inl hk⟩
    by_cases hself : id = c.event.id
    · subst hself
      simp [contentClass, classOf] at hid
    · exact .inl (by rwa [contentClass, Table.get_insert_of_ne _ _ hself] at hid)
  · trivial

theorem processEventContentTx_heralded (env : Env) (db : Database) (c : VerifiedEventContent)
    (now : Timestamp) (ledger : AdmissionState) (buffer : Option PayloadBuffer) :
    Ensures (processEventContentTx env {} db c now ledger buffer)
      (fun db' => Heralded db (contentSignals env db c now ledger buffer) db') (fun _ => True) := by
  have hsame : ∀ hooks, Heralded db hooks db := (Unheard.refl db).heralded
  unfold processEventContentTx
  refine (ensures_true _).bind fun before _ => ?_
  have hinner : Ensures (processEventContentInnerTx env {} db c now ledger buffer)
      (fun db' => Heralded db (contentSignals env db c now ledger buffer) db')
      (fun _ => True) := by
    unfold processEventContentInnerTx contentSignals
    split
    · exact hsame _
    split
    · cases hadmit : admitMaterializationTx db c.event buffer ledger with
      | error e => trivial
      | ok a =>
        refine materializeTx_heralded env db c now _ fun p hc hp => ?_
        obtain ⟨b, hb⟩ := Option.isSome_iff_exists.mp hc
        simp [hb, hp]
    · unfold supplyDeletedTx
      split
      · rw [deletedLineageTx_eq]
        exact ⟨fun _ hk => .inl hk, fun _ hk => .inl hk, fun _ hid => .inl hid, fun _ _ he => he,
      fun _ hk => .inl hk⟩
      · exact hsame _
  refine hinner.bind fun db₁ h₁ => ?_
  refine (payloadAfterTx_unheard env db₁ before).mono (fun db' h => ?_) fun _ h => h
  have hboth := h₁.trans (h.heralded [])
  rwa [List.append_nil] at hboth

theorem heralded_law (env : Env) : (signalRegistry env).Law env Heralded where
  unheard := fun h => h.heralded []
  trans := fun h h' => h.trans h'
  envelope := processEventTx_heralded env
  payload := processEventContentTx_heralded env
  refused := by
    intro db c now ledger buffer reason hawaited hadmit
    show contentSignals env db c now ledger buffer = []
    unfold contentSignals
    rw [if_pos hawaited, hadmit]
    split
    · rfl
    · rfl

/-- **Every committed transaction announces what it adds.** The tasks use it through the law it is an instance of.
-/
theorem step_heralded {env : Env} {db db' : Database} {op : Op} (h : step env db op = .ok db') :
    Heralded db (signals env db op) db' := ((heralded_law env).step db op).of_ok h

/-- Only a delivered envelope announces a missing event, and its own author. -/
theorem mem_signals_missingEvents {env : Env} {db : Database} {op : Op} {a : RostraId}
    (h : .missingEvents a ∈ signals env db op) : ∃ v ∈ op.delivered, v.event.author = a := by
  rcases Registry.mem_commit h with ⟨db', v, hv, hin⟩ | ⟨db', c, now, ledger, buffer, -, hin⟩
  · have hin' : .missingEvents a ∈ eventSignals env db' v := hin
    unfold eventSignals at hin'
    split at hin'
    · simp only [List.mem_append] at hin'
      rcases hin' with (hin' | hin') | hin'
      · split at hin'
        · simp at hin'
        · cases hin'
      · split at hin'
        · simp at hin'
        · cases hin'
      · split at hin'
        · simp only [List.mem_singleton, Signal.missingEvents.injEq] at hin'
          exact ⟨v, hv, hin'.symm⟩
        · cases hin'
    · cases hin'
  · have hin' : .missingEvents a ∈ contentSignals env db' c now ledger buffer := hin
    unfold contentSignals at hin'
    split at hin'
    · cases hin'
    split at hin'
    · split at hin'
      · rcases List.mem_append.mp hin' with hin' | hin'
        · simp at hin'
        · split at hin'
          · simp at hin'
          · cases hin'
      · cases hin'
    · cases hin'

/-- Content is announced for an event that the transaction is about. -/
theorem mem_signals_newContent {env : Env} {db : Database} {op : Op} {a : RostraId}
    {id : ShortEventId} (h : .newContent a id ∈ signals env db op) :
    ∃ v, InScope db op.delivered v ∧ v.id = id ∧ v.event.author = a := by
  rcases Registry.mem_commit h with ⟨db', v, -, hin⟩ | ⟨db', c, now, ledger, buffer, hc, hin⟩
  · have hin' : .newContent a id ∈ eventSignals env db' v := hin
    unfold eventSignals at hin'
    split at hin'
    · simp only [List.mem_append] at hin'
      rcases hin' with (hin' | hin') | hin'
      · split at hin'
        · simp at hin'
        · cases hin'
      · split at hin'
        · simp at hin'
        · cases hin'
      · split at hin'
        · simp at hin'
        · cases hin'
    · cases hin'
  · have hin' : .newContent a id ∈ contentSignals env db' c now ledger buffer := hin
    unfold contentSignals at hin'
    split at hin'
    · cases hin'
    split at hin'
    · split at hin'
      · rcases List.mem_append.mp hin' with hin' | hin'
        · simp at hin'
        · split at hin'
          · simp only [List.mem_singleton, Signal.newContent.injEq] at hin'
            exact ⟨c.event, hc, hin'.2.symm, hin'.1.symm⟩
          · cases hin'
      · cases hin'
    · cases hin'

end Transactions

end Rostra.Db
