/-
# Errors outside the event operations

Projections, admission, accounting and the retention index can refuse a transaction, but not with an error of the
event operations: the collision, attribution, reference and usage errors come from `EventOps` alone.  `Quiet` says
that about one computation, and this file about all of them.

A `do` block is walked from the top, one call at a time (`Raises.bind`), so a function costs as many lines as it has
calls.  What makes this bearable is that a call is not described by the errors that it does not raise but by the few
that it does, in the vocabulary of its own subsystem:

* `Counting`:   a comparison of the accounting failed, or a counter of it left its range;
* `Indexing`:   an entry of the retention index is not what the tables say;
* `Hooked`:     either, which is all that the two hooks around a reducer can raise;
* `Projecting`: a counter of a projection overflowed;
* `Reducing`:   that, or admission turned the payload away, or a release was not possible.

Only at the top of each family the description is weakened to `Quiet` (`Counting.quiet`, `Indexing.quiet`,
`Reducing.quiet`).  `Errors` reads the same descriptions the other way round: it asks which of the families can raise
an error of the bookkeeping.
-/
import Rostra.Proofs.Basic

namespace Rostra.Db

open Rostra Outcome

/-- The errors of the event operations. -/
def IsEventError (e : DbError) : Prop :=
  IsCollision e ∨ IsLostAttribution e ∨ IsRcError e ∨ IsUsageError e

/-- The computation raises no error of the event operations. -/
def Quiet {α : Type} (m : DbResult α) : Prop := Raises (fun e => ¬IsEventError e) m

/-- An error that is none of the six shapes is no error of the event operations. Every special case below is an
instance, so that `simp` can dismiss an error by its constructor. -/
theorem not_isEventError {e : DbError} (h1 : ∀ s i j, e ≠ .identityPrefixCollision s i j)
    (h2 : ∀ d, e ≠ .missingDeletionAttribution d) (h3 : ∀ d, e ≠ .overflow .contentRc d)
    (h4 : e ≠ .payloadAccountingInvariant .contentRc) (h5 : ∀ d, e ≠ .overflow .dataUsage d)
    (h6 : e ≠ .payloadAccountingInvariant .dataUsage) : ¬IsEventError e := by
  rintro (⟨s, i, j, h⟩ | ⟨d, h⟩ | (h | ⟨d, h⟩) | (h | ⟨d, h⟩))
  · exact h1 s i j h
  · exact h2 d h
  · exact h4 h
  · exact h3 d h
  · exact h6 h
  · exact h5 d h

@[simp] theorem not_isEventError_overflow {c : Counter} {d : Direction} (hrc : c ≠ .contentRc)
    (hu : c ≠ .dataUsage) : ¬IsEventError (.overflow c d) :=
  not_isEventError (by simp) (by simp) (by simp [hrc]) (by simp) (by simp [hu]) (by simp)

@[simp] theorem not_isEventError_check {c : Check} (hrc : c ≠ .contentRc) (hu : c ≠ .dataUsage) :
    ¬IsEventError (.payloadAccountingInvariant c) :=
  not_isEventError (by simp) (by simp) (by simp) (by simpa using hrc) (by simp) (by simpa using hu)

@[simp] theorem not_isEventError_notReady : ¬IsEventError .payloadAccountingNotReady :=
  not_isEventError (by simp) (by simp) (by simp) (by simp) (by simp) (by simp)

@[simp] theorem not_isEventError_limit : ¬IsEventError .payloadMaintenanceLimit :=
  not_isEventError (by simp) (by simp) (by simp) (by simp) (by simp) (by simp)

@[simp] theorem not_isEventError_paused (r : PayloadAdmissionPause) :
    ¬IsEventError (.payloadAdmissionPaused r) :=
  not_isEventError (by simp) (by simp) (by simp) (by simp) (by simp) (by simp)

theorem checkedAdd_quiet {c : Counter} (hrc : c ≠ .contentRc) (hu : c ≠ .dataUsage) (a b : ℕ) :
    Quiet (checkedAdd c a b) := by
  refine (checkedAdd_ensures c a b).mono (fun _ _ => trivial) fun e he => ?_
  rw [he.2]
  exact not_isEventError_overflow hrc hu

theorem checkedSub_quiet {c : Counter} (hrc : c ≠ .contentRc) (hu : c ≠ .dataUsage) (a b : ℕ) :
    Quiet (checkedSub c a b) := by
  refine (checkedSub_ensures c a b).mono (fun _ _ => trivial) fun e he => ?_
  rw [he.2]
  exact not_isEventError_overflow hrc hu

variable [Primitives]

/-! ## 1. Accounting

The two hooks around a reducer read the contribution of every affected event before and after it, move the
differences into the totals of the authors and of the database, and compare what they hold with the tables. Every
function below raises only because such a comparison failed or because a total left its range. -/

/-- The errors of the accounting: a comparison that failed, or a counter that left its range. -/
def IsAccountingError : DbError → Prop
  | .overflow .accounting _ | .payloadAccountingInvariant .contribution
  | .payloadAccountingInvariant .hash | .payloadAccountingInvariant .author => True
  | _ => False

/-- The error of the retention index. -/
def IsIndexError (e : DbError) : Prop := e = .payloadAccountingInvariant .retention

/-- The errors of the two hooks around a reducer. -/
def IsHookError (e : DbError) : Prop := IsAccountingError e ∨ IsIndexError e

def Counting {α : Type} (m : DbResult α) : Prop := Raises IsAccountingError m

def Indexing {α : Type} (m : DbResult α) : Prop := Raises IsIndexError m

def Hooked {α : Type} (m : DbResult α) : Prop := Raises IsHookError m

omit [Primitives] in
theorem Counting.hooked {α : Type} {m : DbResult α} (h : Counting m) : Hooked m :=
  h.weaken fun _ => .inl

omit [Primitives] in
theorem Indexing.hooked {α : Type} {m : DbResult α} (h : Indexing m) : Hooked m :=
  h.weaken fun _ => .inr

omit [Primitives] in
theorem IsHookError.not_event {e : DbError} (h : IsHookError e) : ¬IsEventError e := by
  refine not_isEventError ?_ ?_ ?_ ?_ ?_ ?_
  all_goals
    intros
    rintro rfl
    simp [IsHookError, IsAccountingError, IsIndexError] at h

omit [Primitives] in
theorem Counting.quiet {α : Type} {m : DbResult α} (h : Counting m) : Quiet m :=
  h.weaken fun _ he => IsHookError.not_event (.inl he)

omit [Primitives] in
theorem Indexing.quiet {α : Type} {m : DbResult α} (h : Indexing m) : Quiet m :=
  h.weaken fun _ he => IsHookError.not_event (.inr he)

omit [Primitives] in
theorem checkedAdd_counting (a b : ℕ) : Counting (checkedAdd .accounting a b) := by
  refine (checkedAdd_ensures .accounting a b).mono (fun _ _ => trivial) fun e he => ?_
  rw [he.2]
  trivial

omit [Primitives] in
theorem checkedSub_counting (a b : ℕ) : Counting (checkedSub .accounting a b) := by
  refine (checkedSub_ensures .accounting a b).mono (fun _ _ => trivial) fun e he => ?_
  rw [he.2]
  trivial

omit [Primitives] in
theorem requireStoredTx_counting (t : EventTables) (e : Event) (s : Option EventContentState) :
    Counting (requireStoredTx t e s) := by
  unfold requireStoredTx
  split
  · exact .ok _
  · exact .error trivial
  · split
    · exact .error trivial
    · exact .ok _

omit [Primitives] in
theorem contributionTx_counting (env : Env) (t : EventTables) (id : ShortEventId) :
    Counting (contributionTx env t id) := by
  unfold contributionTx
  split
  · exact .ok _
  · exact (requireStoredTx_counting _ _ _).bind fun _ => .pure _

theorem payloadBeforeTx_counting (env : Env) (t : EventTables) (v : VerifiedEvent) :
    Counting (payloadBeforeTx env t v) := by
  unfold payloadBeforeTx
  refine Raises.bind ?_ fun _ => .pure _
  exact .mapM (fun id => (contributionTx_counting env t id).bind fun _ => .pure _) _

omit [Primitives] in
theorem changeTx_counting (add : Bool) (a b : ℕ) : Counting (changeTx add a b) := by
  unfold changeTx
  split
  · exact checkedAdd_counting a b
  · exact checkedSub_counting a b

omit [Primitives] in
theorem adjustContributionTx_counting (a : Accounting) (r : AccountingRecord) (c : EventContribution)
    (add : Bool) : Counting (adjustContributionTx a r c add) := by
  have href : ∀ n, Counting (changeReferencesTx add c.referenced n) := fun n => by
    unfold changeReferencesTx
    split
    · exact changeTx_counting add n 1
    · exact .ok _
  unfold adjustContributionTx
  refine (href _).bind fun _ => (changeTx_counting _ _ _).bind fun _ => ?_
  exact (changeTx_counting _ _ _).bind fun _ => .pure _

omit [Primitives] in
theorem adjustOptionTx_counting (a : Accounting) (r : AccountingRecord) (c : Option EventContribution)
    (add : Bool) : Counting (adjustOptionTx a r c add) := by
  unfold adjustOptionTx
  split
  · exact adjustContributionTx_counting ..
  · exact .ok _

omit [Primitives] in
theorem validateHashTx_counting (t : EventTables) (a : Accounting) (h : ContentHash) :
    Counting (validateHashTx t a h) := by
  unfold validateHashTx
  dsimp only
  split
  · exact .error trivial
  · exact .ok _

omit [Primitives] in
theorem validateAuthorTx_counting (t : EventTables) (a : Accounting) (id : RostraId) :
    Counting (validateAuthorTx t a id) := by
  unfold validateAuthorTx
  dsimp only
  split
  · exact .error trivial
  · exact .ok _

theorem deriveRetentionEntryTx_indexing (env : Env) (db : Database) (g : RetentionGeneration)
    (id : ShortEventId) : Indexing (deriveRetentionEntryTx env db g id) := by
  unfold deriveRetentionEntryTx
  dsimp only
  split
  · exact .throw_bind (E := IsIndexError) rfl _
  split
  · exact .pure _
  split
  · exact .pure _
  split
  · exact .pure _
  split
  · exact .pure _
  split
  · exact .pure _
  split
  · exact .throw_bind (E := IsIndexError) rfl _
  · exact .pure _

omit [Primitives] in
theorem removeRetentionEntryTx_indexing (r : RetentionIndex) (id : ShortEventId) :
    Indexing (removeRetentionEntryTx r id) := by
  unfold removeRetentionEntryTx
  split
  · exact .ok _
  dsimp only
  split
  · split
    · exact .error rfl
    · exact .ok _
  · split
    · exact .error rfl
    · exact .ok _

theorem refreshRetentionIndexTx_indexing (env : Env) (db : Database) (r : RetentionIndex)
    (id : ShortEventId) : Indexing (refreshRetentionIndexTx env db r id) := by
  unfold refreshRetentionIndexTx
  split
  · exact .ok _
  split
  · exact .ok _
  refine (deriveRetentionEntryTx_indexing env db _ id).bind fun next => ?_
  dsimp only
  split
  · exact .pure _
  refine (removeRetentionEntryTx_indexing r id).bind fun r => ?_
  split
  · exact .pure _
  · exact .pure _

theorem afterEventTx_hooked (env : Env) (db : Database) (s : AfterScan)
    (item : ShortEventId × Option EventContribution) : Hooked (afterEventTx env db s item) := by
  unfold afterEventTx
  refine (refreshRetentionIndexTx_indexing env db _ _).hooked.bind fun r => ?_
  split
  · refine Counting.hooked ?_
    refine (contributionTx_counting env _ _).bind fun new => ?_
    refine (adjustOptionTx_counting _ _ _ _).bind fun x => ?_
    exact (adjustOptionTx_counting _ _ _ _).bind fun _ => .pure _
  · exact .pure _

omit [Primitives] in
theorem whenReadyTx_counting (r : AccountingRecord) {m : DbResult Unit} (h : Counting m) :
    Counting (whenReadyTx r m) := by
  unfold whenReadyTx
  split
  · exact h
  · exact .ok _

omit [Primitives] in
theorem afterHashTx_counting (t : EventTables) (s : Accounting × AccountingRecord)
    (item : ContentHash × ℕ) : Counting (afterHashTx t s item) := by
  have hunique : Counting (uniqueBytesTx t s.2 item.1 item.2) := by
    unfold uniqueBytesTx
    split
    · exact (checkedSub_counting _ _).bind fun _ => checkedAdd_counting _ _
    · exact .ok _
  unfold afterHashTx
  refine hunique.bind fun _ => ?_
  exact (whenReadyTx_counting _ (validateHashTx_counting t _ _)).bind fun _ => .pure _

/-- **Finishing a reducer** writes the bookkeeping and nothing else: it goes over the events and then over the
hashes of the snapshot that was taken before, and every error it raises is one of a hook. -/
theorem payloadAfterTx_hooked (env : Env) (db : Database) (before : PayloadBefore) :
    Ensures (payloadAfterTx env db before)
      (fun db' => ∃ a r, db' = { db with accounting := a, retention := r }) IsHookError := by
  unfold payloadAfterTx
  refine Ensures.bind (Raises.foldlM (afterEventTx_hooked env db) _ _) fun s _ => ?_
  refine Ensures.bind (whenReadyTx_counting _ (.forM (validateAuthorTx_counting _ _) _)).hooked
    fun _ _ => ?_
  have hhashes : ∀ x, Counting (before.hashes.foldlM (afterHashTx db.ev) x) := fun x =>
    .foldlM (afterHashTx_counting db.ev) _ _
  refine Ensures.bind (hhashes _).hooked fun x _ => ?_
  exact ⟨_, _, rfl⟩

theorem payloadAfterTx_ensures (env : Env) (db : Database) (before : PayloadBefore) :
    Ensures (payloadAfterTx env db before)
      (fun db' => ∃ a r, db' = { db with accounting := a, retention := r })
      (fun e => ¬IsEventError e) :=
  (payloadAfterTx_hooked env db before).mono (fun _ h => h) fun _ => IsHookError.not_event

/-! ## 2. Projections

A reducer decodes its payload first and then writes. That a payload does not decode is no error of the database but
a verdict on the payload (`ProcessEventError.invalid`), which the caller turns into a state; so the description of
a processing step, `ProjectingStep`, is about the database errors only. -/

/-- The errors of the projections. -/
def IsProjectionError : DbError → Prop
  | .overflow .socialPost _ | .overflow .receptionOrder _ | .overflow .materialization _
  | .receptionOrderCollision .. | .socialPostReceiptAlreadyIndexed _
  | .socialPostReceiptMismatch .. | .missingVoteSingletonProjection _
  | .invalidVoteSingletonProjection _ => True
  | _ => False

/-- The errors of projections, admission and quota release. -/
def IsReducerError : DbError → Prop
  | .overflow .socialPost _ | .overflow .receptionOrder _ | .overflow .materialization _
  | .overflow .admission _ | .overflow .maintenance _
  | .payloadAccountingInvariant .quota | .payloadAccountingInvariant .store
  | .payloadAccountingNotReady | .payloadAdmissionPaused _ | .receptionOrderCollision ..
  | .socialPostReceiptAlreadyIndexed _ | .socialPostReceiptMismatch ..
  | .missingVoteSingletonProjection _ | .invalidVoteSingletonProjection _ => True
  | _ => False

def Projecting {α : Type} (m : DbResult α) : Prop := Raises IsProjectionError m

/-- The computation raises no others. -/
def Reducing {α : Type} (m : DbResult α) : Prop := Raises IsReducerError m

omit [Primitives] in
theorem IsProjectionError.reducer {e : DbError} (h : IsProjectionError e) : IsReducerError e := by
  unfold IsProjectionError at h
  split at h
  all_goals trivial

omit [Primitives] in
theorem Projecting.reducing {α : Type} {m : DbResult α} (h : Projecting m) : Reducing m :=
  h.weaken fun _ => IsProjectionError.reducer

omit [Primitives] in
theorem IsReducerError.not_event {e : DbError} (h : IsReducerError e) : ¬IsEventError e := by
  refine not_isEventError ?_ ?_ ?_ ?_ ?_ ?_
  all_goals
    intros
    rintro rfl
    simp [IsReducerError] at h

omit [Primitives] in
theorem Reducing.quiet {α : Type} {m : DbResult α} (h : Reducing m) : Quiet m :=
  h.weaken fun _ => IsReducerError.not_event

omit [Primitives] in
theorem checkedAdd_raises {c : Counter} {E : DbError → Prop} (h : E (.overflow c .add)) (a b : ℕ) :
    Raises E (checkedAdd c a b) := by
  refine (checkedAdd_ensures c a b).mono (fun _ _ => trivial) fun e he => ?_
  rw [he.2]
  exact h

omit [Primitives] in
theorem checkedSub_raises {c : Counter} {E : DbError → Prop} (h : E (.overflow c .sub)) (a b : ℕ) :
    Raises E (checkedSub c a b) := by
  refine (checkedSub_ensures c a b).mono (fun _ _ => trivial) fun e he => ?_
  rw [he.2]
  exact h

omit [Primitives] in
theorem insertReceptionOrderedTx_projecting {V : Type} (next : Option ℕ) (ts : Timestamp) (v : V)
    (t : Table (Timestamp × ℕ) V) : Projecting (insertReceptionOrderedTx next ts v t) := by
  unfold insertReceptionOrderedTx
  refine Raises.bind ((checkedAdd_raises (by trivial) _ _).bind fun _ => .pure _) fun x => ?_
  dsimp only
  split
  · exact .throw_bind trivial _
  · exact .pure _

/-- The same for a processing step: invalid content is not a database error. -/
def ProjectingStep {α : Type} (m : ProcessEventResult α) : Prop :=
  Ensures m (fun _ => True) (fun e => ∀ d, e = .db d → IsProjectionError d)

namespace ProjectingStep

variable {α β : Type}

omit [Primitives] in
theorem pure (a : α) : ProjectingStep (Pure.pure a : ProcessEventResult α) := trivial

omit [Primitives] in
theorem bind {m : ProcessEventResult α} {f : α → ProcessEventResult β} (hm : ProjectingStep m)
    (hf : ∀ a, ProjectingStep (f a)) : ProjectingStep (m >>= f) :=
  Ensures.bind hm fun a _ => hf a

omit [Primitives] in
theorem invalid : ProjectingStep (throw .invalid : ProcessEventResult α) := fun d h => by cases h

omit [Primitives] in
theorem decodeOr (o : Option α) : ProjectingStep (Db.decodeOr o) := by
  cases o with
  | some a => trivial
  | none => exact fun d h => by cases h

omit [Primitives] in
theorem liftDb {m : DbResult α} (h : Projecting m) : ProjectingStep (Db.liftDb m) := by
  cases m with
  | ok a => trivial
  | error e => exact fun d hd => by cases hd; exact h

end ProjectingStep

omit [Primitives] in
theorem insertSocialPostReceiptTx_projecting (p : Projections) (id : ShortEventId) (ts : Timestamp) :
    Projecting (insertSocialPostReceiptTx p id ts) := by
  unfold insertSocialPostReceiptTx
  dsimp only
  split
  · exact .throw_bind trivial _
  · exact (insertReceptionOrderedTx_projecting _ _ _ _).bind fun _ => .pure _

omit [Primitives] in
theorem removeSocialPostReceiptTx_projecting (p : Projections) (id : ShortEventId) :
    Projecting (removeSocialPostReceiptTx p id) := by
  unfold removeSocialPostReceiptTx
  split
  · exact .ok _
  split
  · exact .error trivial
  · exact .ok _

theorem insertReplyToTx_projecting (p : Projections) (v : VerifiedEvent) (post : SocialPost) :
    Projecting (insertReplyToTx p v post) := by
  have hup : ∀ b n, Projecting (countUpTx b n) := fun b n => by
    unfold countUpTx
    split
    · exact checkedAdd_raises (by trivial) _ _
    · exact .ok _
  unfold insertReplyToTx
  split
  · exact (hup _ _).bind fun _ => (hup _ _).bind fun _ => .pure _
  · exact .ok _

theorem removeReplyToTx_projecting (p : Projections) (v : VerifiedEvent) (post : SocialPost) :
    Projecting (removeReplyToTx p v post) := by
  have hdown : ∀ b n, Projecting (countDownTx b n) := fun b n => by
    unfold countDownTx
    split
    · exact checkedSub_raises (by trivial) _ _
    · exact .ok _
  unfold removeReplyToTx
  split
  · exact (hdown _ _).bind fun _ => (hdown _ _).bind fun _ => .pure _
  · exact .ok _

omit [Primitives] in
theorem appendSocialPostMaterializationTx_projecting (ctx : TxCtx) (p : Projections)
    (id : ShortEventId) : Projecting (appendSocialPostMaterializationTx ctx p id) := by
  have hnext : Projecting (nextMaterializationTx p) := by
    unfold nextMaterializationTx
    split
    · exact .ok _
    · exact checkedAdd_raises (by trivial) _ _
  unfold appendSocialPostMaterializationTx
  split
  · exact .pure _
  refine hnext.bind fun next => ?_
  dsimp only
  split
  · exact .throw_bind trivial _
  · exact .pure _

theorem applySocialPostTx_projecting (env : Env) (ctx : TxCtx) (p : Projections) (c : EventContent)
    (post : SocialPost) (replaced : Option ShortEventId) (now : Timestamp) :
    Projecting (applySocialPostTx env ctx p c post replaced now) := by
  unfold applySocialPostTx
  refine (insertSocialPostReceiptTx_projecting _ _ _).bind fun p => ?_
  exact (insertReplyToTx_projecting _ _ _).bind fun p => appendSocialPostMaterializationTx_projecting _ _ _

theorem revertSocialPostTx_projecting (p : Projections) (c : EventContent) (post : SocialPost) :
    Projecting (revertSocialPostTx p c post) := by
  unfold revertSocialPostTx
  exact (removeSocialPostReceiptTx_projecting _ _).bind fun p => removeReplyToTx_projecting _ _ _

omit [Primitives] in
theorem processSocialVoteTx_projecting (p : Projections) (vote : SocialVoteProjection)
    (author : RostraId) (order : EventOrder) : Projecting (processSocialVoteTx p vote author order) := by
  have hval : ∀ r k, Projecting (validateSocialVoteProjection r k) := fun r k => by
    unfold validateSocialVoteProjection
    split
    · exact .error trivial
    split
    · exact .error trivial
    · exact .ok _
  unfold processSocialVoteTx
  dsimp only
  split
  · split
    · exact .ok _
    · exact (hval _ _).bind fun _ => .pure _
  · exact .ok _

/-- Every reducer decodes first and then writes. -/
theorem processKindTx_projecting (env : Env) (ctx : TxCtx) (p : Projections) (c : EventContent)
    (now : Timestamp) : ProjectingStep (processKindTx env ctx p c now) := by
  unfold processKindTx
  dsimp only
  split
  · unfold processDmTx
    dsimp only
    split
    · exact .invalid
    refine (ProjectingStep.decodeOr _).bind fun bytes => ?_
    split
    · exact (ProjectingStep.decodeOr _).bind fun _ => .pure _
    split
    · exact .pure _
    · exact .invalid
  split
  · exact (ProjectingStep.decodeOr _).bind fun _ => .pure _
  split
  · exact (ProjectingStep.decodeOr _).bind fun _ => .pure _
  split
  · exact (ProjectingStep.decodeOr _).bind fun _ => .pure _
  split
  · refine (ProjectingStep.decodeOr _).bind fun post => ?_
    split
    · exact .pure _
    · exact (ProjectingStep.liftDb (applySocialPostTx_projecting ..)).bind fun _ => .pure _
  split
  · refine (ProjectingStep.decodeOr _).bind fun content => ?_
    split
    · exact .pure _
    · exact (ProjectingStep.liftDb (processSocialVoteTx_projecting ..)).bind fun _ => .pure _
  split
  · refine (ProjectingStep.decodeOr _).bind fun content => ?_
    exact (ProjectingStep.liftDb (insertReceptionOrderedTx_projecting ..)).bind fun _ => .pure _
  · exact .pure _

theorem processEventContentInsertedTx_projecting (env : Env) (ctx : TxCtx) (p : Projections)
    (c : EventContent) (now : Timestamp) :
    ProjectingStep (processEventContentInsertedTx env ctx p c now) := by
  unfold processEventContentInsertedTx
  refine (processKindTx_projecting env ctx p c now).bind fun x => ?_
  dsimp only
  split
  · exact .pure _
  · exact .pure _

theorem processEventContentRevertedTx_projecting (p : Projections) (c : EventContent) :
    ProjectingStep (processEventContentRevertedTx p c) := by
  unfold processEventContentRevertedTx
  split
  · refine (ProjectingStep.decodeOr _).bind fun post => ?_
    split
    · exact .pure _
    · exact .liftDb (revertSocialPostTx_projecting ..)
  · exact .pure _

theorem processDeletedSocialPostReplacementTx_projecting (p : Projections) (c : EventContent) :
    ProjectingStep (processDeletedSocialPostReplacementTx p c) := by
  unfold processDeletedSocialPostReplacementTx
  split
  · exact .pure _
  refine (ProjectingStep.decodeOr _).bind fun post => ?_
  split
  · exact .pure _
  · exact .pure _

theorem insertedLineageTx_projecting (ev : EventTables) (p : Projections) (v : VerifiedEvent)
    (isDeleted : Bool) : Projecting (insertedLineageTx ev p v isDeleted) := by
  unfold insertedLineageTx
  split
  · unfold retainedLineageTx
    split
    · exact .ok _
    split
    · exact .ok _
    split
    · exact .ok _
    · next e he => exact (processDeletedSocialPostReplacementTx_projecting _ _).of_error he e rfl
    · exact .ok _
  · exact .ok _

theorem revertDeletedTx_projecting (ev : EventTables) (p : Projections) (dp : Option ShortEventId)
    (rev : Option Bytes) : Projecting (revertDeletedTx ev p dp rev) := by
  unfold revertDeletedTx
  split
  · unfold revertParentTx
    split
    · exact .ok _
    · next e he => exact (processEventContentRevertedTx_projecting _ _).of_error he e rfl
    · exact .ok _
  · exact .ok _

theorem deletedLineageTx_projecting (p : Projections) (c : EventContent) :
    Projecting (deletedLineageTx p c) := by
  unfold deletedLineageTx
  split
  · exact .ok _
  · exact .ok _
  · next e he => exact (processDeletedSocialPostReplacementTx_projecting _ _).of_error he e rfl

theorem dematerializeTx_reducing (db : Database) (v : VerifiedEvent) (target : QuotaPruneTarget) :
    Reducing (dematerializeTx db v target) := by
  unfold dematerializeTx
  split
  · exact .ok _
  split
  · exact .error trivial
  split
  · exact .error trivial
  split
  · exact .ok _
  · next e he => exact ((processEventContentRevertedTx_projecting _ _).of_error he e rfl).reducer
  · exact .error trivial

/-! ## 3. Admission

The admission boundary compares a payload with the room that is left. It refuses with a pause, or because the
accounting that it needs is not ready. -/

theorem payloadCapacityPauseTx_reducing (db : Database) (v : VerifiedEvent)
    (s : AdmissionState) : Reducing (payloadCapacityPauseTx db v s) := by
  unfold payloadCapacityPauseTx
  split
  · exact .ok _
  dsimp only
  split
  · exact .ok _
  split
  · exact .error trivial
  split
  · exact .ok _
  split
  · exact .ok _
  · exact .ok _

theorem reservePayloadTx_reducing (db : Database) (v : VerifiedEvent) (s : AdmissionState) :
    Reducing (reservePayloadTx db v s) := by
  unfold reservePayloadTx
  split
  · exact .ok _
  split
  · exact .ok _
  split
  · exact .ok _
  split
  · exact .ok _
  refine (payloadCapacityPauseTx_reducing _ _ _).bind fun pause => ?_
  split
  · exact .pure _
  · exact (checkedAdd_raises (by trivial) _ _).bind fun _ => .pure _

theorem admitMaterializationTx_reducing (db : Database) (v : VerifiedEvent)
    (buffer : Option PayloadBuffer) (s : AdmissionState) :
    Reducing (admitMaterializationTx db v buffer s) := by
  unfold admitMaterializationTx
  split
  · split
    · exact .error trivial
    refine (payloadCapacityPauseTx_reducing _ _ _).bind fun pause => ?_
    split
    · exact .error trivial
    · exact .pure _
  · refine (reservePayloadTx_reducing _ _ _).bind fun x => ?_
    split
    · exact .pure _
    · exact .pure _
    · exact .error trivial
    · split
      · exact .pure _
      · exact .error trivial

omit [Primitives] in
theorem requirePayloadAccountingReadyTx_reducing (a : Accounting) :
    Reducing (requirePayloadAccountingReadyTx a) := by
  unfold requirePayloadAccountingReadyTx
  split
  · exact .ok _
  · exact .error trivial

/-! ## 4. Maintenance

Rebuilds, promotions and the collector are loops over one step each, with a budget; the rule for a loop is that of
its step (`Raises.foldlM`), or an induction on the budget where the loop decides when to stop. -/

omit [Primitives] in
theorem rebuildAccountingStep_counting (env : Env) (db : Database) (a : Accounting)
    (r : AccountingRecord) : Counting (rebuildAccountingStep env db a r) := by
  unfold rebuildAccountingStep
  dsimp only
  split
  · split
    · exact .ok _
    refine (contributionTx_counting env _ _).bind fun c => ?_
    split
    · exact .error trivial
    · exact (adjustContributionTx_counting _ _ _ _).bind fun _ => .pure _
  · split
    · exact .ok _
    refine (checkedAdd_counting _ _).bind fun _ => ?_
    exact (validateHashTx_counting _ _ _).bind fun _ => .pure _
  · split
    · exact .ok _
    · exact (validateHashTx_counting _ _ _).bind fun _ => .pure _
  · split
    · exact .ok _
    · exact (validateHashTx_counting _ _ _).bind fun _ => .pure _
  · split
    · exact .ok _
    split
    · exact .throw_bind trivial _
    · exact .pure _
  · split
    · exact .ok _
    · exact (validateAuthorTx_counting _ _ _).bind fun _ => .pure _
  · exact .ok _

omit [Primitives] in
theorem rebuildAccountingLoop_counting (env : Env) (db : Database) :
    ∀ (fuel limit : ℕ) (a : Accounting) (r : AccountingRecord),
      Counting (rebuildAccountingLoop env db fuel limit a r)
  | 0, _, _, _ => .ok _
  | _ + 1, 0, _, _ => .ok _
  | fuel + 1, limit + 1, a, r => by
    unfold rebuildAccountingLoop
    refine (rebuildAccountingStep_counting env db a r).bind fun x => ?_
    split
    · exact .pure _
    · exact rebuildAccountingLoop_counting env db fuel _ _ _

theorem rebuildRetentionStep_indexing (env : Env) (db : Database) (r : RetentionIndex)
    (record : IndexRecord) : Indexing (rebuildRetentionStep env db r record) := by
  unfold rebuildRetentionStep
  split
  · split
    · exact .ok _
    · exact (removeRetentionEntryTx_indexing _ _).bind fun _ => .pure _
  · split
    · exact .ok _
    · exact (refreshRetentionIndexTx_indexing _ _ _ _).bind fun _ => .pure _
  · exact .ok _

theorem rebuildRetentionLoop_indexing (env : Env) (db : Database) :
    ∀ (fuel limit : ℕ) (r : RetentionIndex) (record : IndexRecord),
      Indexing (rebuildRetentionLoop env db fuel limit r record)
  | 0, _, _, _ => .ok _
  | _ + 1, 0, _, _ => .ok _
  | fuel + 1, limit + 1, r, record => by
    unfold rebuildRetentionLoop
    refine (rebuildRetentionStep_indexing env db r record).bind fun x => ?_
    split
    · exact .pure _
    · exact rebuildRetentionLoop_indexing env db fuel _ _ _

omit [Primitives] in
theorem promoteRetentionLoop_indexing (now : Timestamp) :
    ∀ (limit : ℕ) (r : RetentionIndex), Indexing (promoteRetentionLoop now limit r)
  | 0, _ => .ok _
  | limit + 1, r => by
    unfold promoteRetentionLoop
    split
    · exact .ok _
    dsimp only
    split
    · exact .ok _
    split
    · exact .error rfl
    split
    · exact .error rfl
    · exact promoteRetentionLoop_indexing now limit _

/-- The error of the recovery of quota nominations. -/
def IsRecoveryError (e : DbError) : Prop := e = .payloadAccountingInvariant .recovery

omit [Primitives] in
theorem IsRecoveryError.not_event {e : DbError} (h : IsRecoveryError e) : ¬IsEventError e := by
  rw [h]
  simp

omit [Primitives] in
theorem recoverNominationsLoop_raises (env : Env) (db : Database) :
    ∀ (limit : ℕ) (a : Accounting) (stage : QuotaRecovery),
      Raises IsRecoveryError (recoverNominationsLoop env db limit a stage)
  | 0, _, _ => .ok _
  | limit + 1, a, stage => by
    unfold recoverNominationsLoop
    split
    · exact .ok _
    split
    · exact .ok _
    split
    · split
      · exact .error rfl
      · exact recoverNominationsLoop_raises env db limit _ _
    · exact .error rfl

omit [Primitives] in
theorem rebuildPayloadAccounting_raises (env : Env) (db : Database) (limit : ℕ) :
    Raises (fun e => IsAccountingError e ∨ e = .payloadMaintenanceLimit)
      (rebuildPayloadAccounting env db limit) := by
  simp only [rebuildPayloadAccounting]
  split
  · exact .error (.inr rfl)
  · exact ((rebuildAccountingLoop_counting ..).weaken fun _ => .inl).bind fun _ => .pure _

omit [Primitives] in
theorem rebuildQuotaPayloadNominations_raises (env : Env) (db : Database) (limit : ℕ) :
    Raises (fun e => IsRecoveryError e ∨ e = .payloadMaintenanceLimit)
      (rebuildQuotaPayloadNominations env db limit) := by
  simp only [rebuildQuotaPayloadNominations]
  split
  · exact .error (.inr rfl)
  · exact ((recoverNominationsLoop_raises ..).weaken fun _ => .inl).bind fun _ => .pure _

omit [Primitives] in
theorem collectQuotaPayloadStepTx_raises (db : Database) (after : Option ContentHash)
    (maxBytes : ℕ) : Raises (fun e => IsAccountingError e ∨ e = .payloadAccountingNotReady)
      (collectQuotaPayloadStepTx db after maxBytes) := by
  have hready : Raises (fun e => IsAccountingError e ∨ e = .payloadAccountingNotReady)
      (requirePayloadAccountingReadyTx db.accounting) := by
    unfold requirePayloadAccountingReadyTx
    split
    · exact .ok _
    · exact .error (.inr rfl)
  unfold collectQuotaPayloadStepTx
  dsimp only
  refine hready.bind fun _ => ?_
  split
  · exact .pure _
  refine ((validateHashTx_counting _ _ _).weaken fun _ => .inl).bind fun _ => ?_
  split
  · exact .error (.inl trivial)
  split
  · split
    · exact .pure _
    · exact ((checkedSub_counting _ _).weaken fun _ => .inl).bind fun _ => .pure _
  · exact .pure _

end Rostra.Db
