/-
# Whose error it is

The accounting and the retention index compare what they kept with what they find, and report a
difference as an error of their own (`IsHookError`).  Nothing between the two hooks of a bracket can
raise such an error: the event operations have theirs (`IsEventError`), and projections, admission and
quota release have theirs (`IsReducerError`).  So a transaction that fails with an error of the
bookkeeping failed in a hook or in a step of maintenance, which is what `Pieces` makes of this file.

The last section is about a refused payload.  Neither the hooks nor the reducers raise that error, so
it comes from the admission boundary, which a payload passes before its first write
(`processEventContentTx_pause`).
-/
import Rostra.Proofs.Quiet

namespace Rostra.Db

open Rostra Outcome

theorem IsEventError.not_hook {e : DbError} (h : IsEventError e) : ¬IsHookError e :=
  fun he => he.not_event h

theorem IsReducerError.not_hook {e : DbError} (h : IsReducerError e) : ¬IsHookError e := by
  rintro (ha | rfl)
  · unfold IsAccountingError at ha
    split at ha
    all_goals simp [IsReducerError] at h ha
  · simp [IsReducerError] at h

/-- The computation raises no error of the bookkeeping. -/
def Unbooked {α : Type} (m : DbResult α) : Prop := Raises (fun e => ¬IsHookError e) m

theorem unbooked_of_event {α : Type} {m : DbResult α} (h : Raises IsEventError m) : Unbooked m :=
  h.weaken fun _ => IsEventError.not_hook

variable [Primitives]

omit [Primitives] in
theorem Reducing.unbooked {α : Type} {m : DbResult α} (h : Reducing m) : Unbooked m :=
  h.weaken fun _ => IsReducerError.not_hook

/-! ## 1. Event operations

Every event operation raises an error of the event operations. Most of these statements are the finer ones of
`Basic` (a reference error, a usage error) weakened to `IsEventError`. -/

section EventOps

omit [Primitives] in
theorem raises_of_rc {α : Type} {m : DbResult α} (h : Raises IsRcError m) : Raises IsEventError m :=
  h.weaken fun _ h => .inr (.inr (.inl h))

omit [Primitives] in
theorem raises_of_usage {α : Type} {m : DbResult α} (h : Raises IsUsageError m) :
    Raises IsEventError m :=
  h.weaken fun _ h => .inr (.inr (.inr h))

omit [Primitives] in
theorem mergeDeletedByTx_raises (c : Option ShortEventId) (o : Option EventOrder)
    (h : Table ShortEventId Event) : Raises IsEventError (mergeDeletedByTx c o h) := by
  unfold mergeDeletedByTx
  split
  · exact .ok _
  · exact .ok _
  · split
    · exact .error (.inr (.inl ⟨_, rfl⟩))
    · exact .ok _

theorem processParentTx_raises (v : VerifiedEvent) (s : ParentScan) (p : Option ShortEventId × Bool) :
    Raises IsEventError (processParentTx v s p) := by
  have hvisit : ∀ id, Raises IsEventError (visitParentTx v s id p.2) := by
    intro id
    unfold visitParentTx
    split
    · split
      · unfold deleteParentTx
        refine (mergeDeletedByTx_raises _ _ _).bind fun _ => ?_
        refine (raises_of_rc (releaseContentRcTx_error _ _ _)).bind fun _ => ?_
        exact (raises_of_usage (trackParentDeletionTx_error _ _ _)).bind fun _ => .pure _
      · exact .ok _
    · exact (mergeDeletedByTx_raises _ _ _).bind fun _ => .pure _
  unfold processParentTx
  split
  · exact .ok _
  · exact (hvisit _).bind fun _ => .pure _

theorem startContentTx_raises (t : EventTables) (v : VerifiedEvent) (isDeleted : Bool) :
    Raises IsEventError (startContentTx t v isDeleted) := by
  unfold startContentTx
  split
  · exact (raises_of_usage (recordPayloadTx_error _ _ _ _)).bind fun _ => .pure _
  split
  · unfold startMissingTx
    refine (raises_of_rc (incrementContentRcTx_error _ _)).bind fun _ => ?_
    exact (raises_of_usage (recordPayloadTx_error _ _ _ _)).bind fun _ => .pure _
  · unfold startEmptyTx
    refine (raises_of_rc (incrementContentRcTx_error _ _)).bind fun _ => ?_
    refine (raises_of_usage (recordPayloadTx_error _ _ _ _)).bind fun _ => ?_
    exact (raises_of_usage (movePayloadTx_error _ _ _ _ _)).bind fun _ => .pure _

theorem insertEventTx_raises (t : EventTables) (v : VerifiedEvent) :
    Raises IsEventError (insertEventTx t v) := by
  have hregister : Raises IsEventError (register t.idsFull v.event.author) :=
    (register_ensures _ _).mono (fun _ _ => trivial) fun _ h => .inl h
  unfold insertEventTx
  refine hregister.bind fun ids => ?_
  split
  · exact .pure _
  · unfold insertNewEventTx
    refine (Raises.foldlM (processParentTx_raises v) _ _).bind fun s => ?_
    have hheader : Raises IsEventError (storeHeaderTx s.ev v) :=
      (raises_of_usage (trackNewEventTx_error _ _)).bind fun _ => .pure _
    exact hheader.bind fun t => (startContentTx_raises t v _).bind fun _ => .pure _

omit [Primitives] in
theorem pruneEventContentTx_raises (t : EventTables) (id : ShortEventId) (e : Event) :
    Raises IsEventError (pruneEventContentTx t id e) := by
  have hprune : ∀ s, Raises IsEventError (do
      let rc ← decrementContentRcTx e.contentHash t.contentRc
      let usage ← trackPayloadPruningTx e.author e.contentLen s t.idsDataUsage
      pure ({ t with
        contentRc := rc
        idsDataUsage := usage
        eventsContentState := t.eventsContentState.insert id .pruned
        eventsContentMissing := unscheduleTx s id t.eventsContentMissing }, true)) := by
    intro s
    refine (raises_of_rc (decrementContentRcTx_error _ _)).bind fun _ => ?_
    exact (raises_of_usage (trackPayloadPruningTx_error _ _ _ _)).bind fun _ => .pure _
  unfold pruneEventContentTx
  dsimp only
  split
  · exact .ok _
  · exact .ok _
  · exact .ok _
  · exact hprune _
  · exact hprune _

theorem storeContentTx_raises (t : EventTables) (v : VerifiedEvent) (b : Bytes) :
    Raises IsEventError (storeContentTx t v b) :=
  (raises_of_usage (movePayloadTx_error _ _ _ _ _)).bind fun _ => .pure _

theorem rejectContentTx_raises (t : EventTables) (v : VerifiedEvent) :
    Raises IsEventError (rejectContentTx t v) := by
  unfold rejectContentTx
  refine (raises_of_rc (decrementContentRcTx_error _ _)).bind fun _ => ?_
  exact (raises_of_usage (movePayloadTx_error _ _ _ _ _)).bind fun _ => .pure _

end EventOps

/-! ## 2. Reducers

A reducer is what runs between the two hooks of a bracket: the envelope's own effects, or the payload's. It calls
event operations and projections, and it releases and admits; none of them raises an error of the bookkeeping. -/

/-- **Inside an envelope bracket** nothing raises an error of the bookkeeping. -/
theorem processEventInnerTx_unbooked (env : Env) (ctx : TxCtx) (db : Database) (v : VerifiedEvent)
    (now : Timestamp) (source : EventReceivedSource) :
    Unbooked (processEventInnerTx env ctx db v now source) := by
  have hprune : ∀ t, Unbooked (pruneEventContentTx t v.id v.event) := fun t =>
    unbooked_of_event (pruneEventContentTx_raises t _ _)
  have hquota : ∀ db : Database, Unbooked (applyQuotaDecisionTx db v) := by
    intro db
    unfold applyQuotaDecisionTx
    split
    · exact (hprune _).bind fun _ => .pure _
    · exact .ok _
  have hafter : ∀ db o, Unbooked (afterOutcomeTx env ctx db v now source o) := by
    intro db o
    unfold afterOutcomeTx
    split
    · unfold afterInsertTx
      refine (hquota db).bind fun ev => ?_
      refine (insertReceptionOrderedTx_projecting _ _ _ _).reducing.unbooked.bind fun x => ?_
      refine (insertedLineageTx_projecting _ _ _ _).reducing.unbooked.bind fun p => ?_
      exact (revertDeletedTx_projecting _ _ _ _).reducing.unbooked.bind fun _ => .pure _
    · exact .ok _
  have hsettle : ∀ ev o, Unbooked (settleContentTx ev v o) := by
    intro ev o
    unfold settleContentTx
    split
    · exact .ok _
    split
    · exact (hprune _).bind fun _ => .pure _
    split
    · exact .ok _
    · exact .ok _
  unfold processEventInnerTx
  refine (unbooked_of_event (insertEventTx_raises _ _)).bind fun r => ?_
  exact (hafter _ _).bind fun db => (hsettle _ _).bind fun _ => .pure _

/-- **Inside a payload bracket** neither. -/
theorem processEventContentInnerTx_unbooked (env : Env) (ctx : TxCtx) (db : Database)
    (c : VerifiedEventContent) (now : Timestamp) (ledger : AdmissionState)
    (buffer : Option PayloadBuffer) :
    Unbooked (processEventContentInnerTx env ctx db c now ledger buffer) := by
  have hmaterialize : Unbooked (materializeTx env ctx db c now) := by
    unfold materializeTx
    dsimp only
    split
    · exact .ok _
    split
    · exact (unbooked_of_event (storeContentTx_raises _ _ _)).bind fun _ => .pure _
    · exact (unbooked_of_event (rejectContentTx_raises _ _)).bind fun _ => .pure _
    · next e he =>
      exact ((processEventContentInsertedTx_projecting _ _ _ _ _).of_error he e rfl).reducer.not_hook
  unfold processEventContentInnerTx
  split
  · exact .ok _
  split
  · exact (admitMaterializationTx_reducing _ _ _ _).unbooked.bind fun _ => hmaterialize
  · unfold supplyDeletedTx
    split
    · exact (deletedLineageTx_projecting _ _).reducing.unbooked.bind fun _ => .pure _
    · exact .ok _

/-! ## 3. Refusals

Admission is asked before the first write of a payload, and what comes behind it stores, rejects or projects but
does not pause. So a transaction that ends with a pause has written nothing, and its error is a fact about the
state in which it began (`Refused`). -/

/-- The error of a refused admission. -/
def IsPause (e : DbError) : Prop := ∃ reason, e = .payloadAdmissionPaused reason

def Unpaused {α : Type} (m : DbResult α) : Prop := Raises (fun e => ¬IsPause e) m

omit [Primitives] in
theorem IsHookError.not_pause {e : DbError} (h : IsHookError e) : ¬IsPause e := by
  rintro ⟨reason, rfl⟩
  simp [IsHookError, IsAccountingError, IsIndexError] at h

omit [Primitives] in
theorem IsProjectionError.not_pause {e : DbError} (h : IsProjectionError e) : ¬IsPause e := by
  rintro ⟨reason, rfl⟩
  simp [IsProjectionError] at h

omit [Primitives] in
theorem unpaused_of_event {α : Type} {m : DbResult α} (h : Raises IsEventError m) : Unpaused m := by
  refine h.weaken fun e he => ?_
  rintro ⟨reason, rfl⟩
  exact not_isEventError_paused reason he

/-- Behind the boundary nothing pauses: bytes are stored or rejected by event operations, and the reducer of the
kind raises errors of projections. -/
theorem materializeTx_unpaused (env : Env) (ctx : TxCtx) (db : Database) (c : VerifiedEventContent)
    (now : Timestamp) : Unpaused (materializeTx env ctx db c now) := by
  unfold materializeTx
  dsimp only
  split
  · exact .ok _
  split
  · exact (unpaused_of_event (storeContentTx_raises _ _ _)).bind fun _ => .pure _
  · exact (unpaused_of_event (rejectContentTx_raises _ _)).bind fun _ => .pure _
  · next e he =>
    exact ((processEventContentInsertedTx_projecting _ _ _ _ _).of_error he e rfl).not_pause

/-- What a refusal says about the payload: it was awaited, and admission turned it away. -/
structure Refused (db : Database) (c : VerifiedEventContent) (ledger : AdmissionState)
    (buffer : Option PayloadBuffer) (reason : PayloadAdmissionPause) : Prop where
  stored : (db.ev.events.get c.event.id).isSome = true
  bounded : c.event.event.contentLen < MAX_CONTENT_LEN
  awaited : canInsertEventContentTx db.ev c.event.id = true
  admission : admitMaterializationTx db c.event buffer ledger =
    .error (.payloadAdmissionPaused reason)

/-- **A payload is refused at the boundary**, and nowhere behind it. -/
theorem processEventContentTx_pause {env : Env} {ctx : TxCtx} {db : Database}
    {c : VerifiedEventContent} {now : Timestamp} {ledger : AdmissionState}
    {buffer : Option PayloadBuffer} {reason : PayloadAdmissionPause}
    (h : processEventContentTx env ctx db c now ledger buffer =
      .error (.payloadAdmissionPaused reason)) : Refused db c ledger buffer reason := by
  have hinner : Ensures (processEventContentInnerTx env ctx db c now ledger buffer) (fun _ => True)
      (fun e => ∀ reason, e = .payloadAdmissionPaused reason → Refused db c ledger buffer reason) := by
    unfold processEventContentInnerTx
    split
    · trivial
    next hguard =>
    rw [not_or, Bool.not_eq_true, Option.isNone_eq_false_iff, not_le] at hguard
    split
    · next hcan =>
      cases hadmit : admitMaterializationTx db c.event buffer ledger with
      | error e =>
        rintro reason rfl
        exact ⟨hguard.1, hguard.2, hcan, hadmit⟩
      | ok a =>
        refine (materializeTx_unpaused env ctx db c now).mono (fun _ h => h) fun e he reason hr => ?_
        exact absurd ⟨reason, hr⟩ he
    · unfold supplyDeletedTx
      split
      · refine ((deletedLineageTx_projecting _ _).mono (fun _ h => h) fun e he reason hr => ?_).bind
          fun _ _ => trivial
        exact absurd ⟨reason, hr⟩ he.not_pause
      · trivial
  have hall : Ensures (processEventContentTx env ctx db c now ledger buffer) (fun _ => True)
      (fun e => ∀ reason, e = .payloadAdmissionPaused reason → Refused db c ledger buffer reason) := by
    have hhook : ∀ e, IsHookError e → ∀ reason, e = .payloadAdmissionPaused reason →
        Refused db c ledger buffer reason := fun e he reason hr => absurd ⟨reason, hr⟩ he.not_pause
    unfold processEventContentTx
    refine ((payloadBeforeTx_counting env db.ev c.event).hooked.mono (fun _ h => h) hhook).bind
      fun before _ => ?_
    refine hinner.bind fun db₁ _ => ?_
    exact (payloadAfterTx_hooked env db₁ before).mono (fun _ _ => trivial) hhook
  exact hall.of_error h reason rfl

end Rostra.Db
