/-
# Asking for content

`wants_content` is asked right after `process_event`, with the state that the latter returned.  The
answer is composed of two lookups that were written for different questions: a fresh header counts as
wanted without a look at its length, and for a known header ANY row in the state table counts as
"content not available", although only `Missing` means that it is still to be fetched.

* Section 1 follows one envelope to its final content state and to the state that is returned.
* Section 2: the answer is right exactly when none of the three confusions is met
  (`AnswersRightly`).
* Section 3: each of the three, in a run of a few deliveries.

The answer decides whether the payload is asked for right away. Content that is awaited is in the fetch schedule in
any case.

The condition is exact: it is read off the state before the envelope, and the answer is right if and only if it
holds. What makes an answer right is that content is asked for when it is awaited and only then.
-/
import Rostra.Proofs.Store

namespace Rostra.Db

open Rostra Outcome

section Wanted

variable [Primitives]

/-! ## 1. The content state that an envelope leaves

The returned state and the final content state are computed at different places, with pruning in between. -/

/-- Has a child deleted this event before it arrived? -/
def arrivesDeleted (t : EventTables) (v : VerifiedEvent) : Bool :=
  ((t.eventsMissing.get (v.event.author, v.id)).bind (·.deletedBy)).isSome

theorem takeMissing_isDeleted (t : EventTables) (v : VerifiedEvent) :
    (takeMissing t v).2.2 = arrivesDeleted t v := by
  cases hrow : t.eventsMissing.get (v.event.author, v.id) with
  | none => simp [takeMissing, arrivesDeleted, hrow]
  | some row =>
    cases hd : row.deletedBy with
    | none => simp [takeMissing, arrivesDeleted, hrow, hd]
    | some d => simp [takeMissing, arrivesDeleted, hrow, hd]

/-- What an insertion reports about the deletion of the event. -/
theorem insertEventTx_isDeleted (t : EventTables) (v : VerifiedEvent) :
    Ensures (insertEventTx t v) (fun r => ∀ wasMissing isDeleted deletedParent reverted missing,
      r.2 = .inserted wasMissing isDeleted deletedParent reverted missing →
        isDeleted = arrivesDeleted t v) (fun _ => True) := by
  unfold insertEventTx
  refine (ensures_true _).bind fun ids _ => ?_
  split
  · rintro _ _ _ _ _ ⟨⟩
  · unfold insertNewEventTx
    refine (ensures_true _).bind fun s _ => ?_
    refine (ensures_true _).bind fun t₂ _ => ?_
    refine (ensures_true _).bind fun t₃ _ => ?_
    rintro _ _ _ _ _ ⟨⟩
    exact takeMissing_isDeleted { t with idsFull := ids } v

/-- A restored decision leaves no content to fetch or to keep. -/
theorem applyQuotaDecisionTx_decided {db : Database} {v : VerifiedEvent}
    (h : (db.quotaPruned.get v.id).isSome = true) :
    Ensures (applyQuotaDecisionTx db v)
      (fun t => (contentClass t v.id).referenced = false) (fun _ => True) := by
  unfold applyQuotaDecisionTx
  rw [if_pos h]
  refine (pruneEventContentTx_effect db.ev v.id v.event).bind fun r hr => ?_
  exact hr.terminal

theorem afterInsertTx_decided (env : Env) (ctx : TxCtx) (db : Database) {v : VerifiedEvent}
    (h : (db.quotaPruned.get v.id).isSome = true) (now : Timestamp) (source : EventReceivedSource)
    (isDeleted : Bool) (deletedParent : Option ShortEventId) (reverted : Option Bytes) :
    Ensures (afterInsertTx env ctx db v now source isDeleted deletedParent reverted)
      (fun db' => (contentClass db'.ev v.id).referenced = false) (fun _ => True) := by
  unfold afterInsertTx
  refine (applyQuotaDecisionTx_decided h).bind fun t ht => ?_
  refine (ensures_true _).bind fun x _ => ?_
  refine (ensures_true _).bind fun p _ => ?_
  refine (ensures_true _).bind fun p' _ => ?_
  exact ht

/-- The returned state, and the content state it goes with. -/
inductive SettleEffect (t : EventTables) (v : VerifiedEvent) (o : InsertEventOutcome) :
    EventTables × ProcessEventState → Prop
  | pruned {t' : EventTables} (h : contentClass t' v.id = .pruned) : SettleEffect t v o (t', .pruned)
  | oversized (hlen : MAX_CONTENT_LEN ≤ v.event.contentLen)
      (h : contentClass t v.id = .deleted ∨ contentClass t v.id = .invalid) :
      SettleEffect t v o (t, .deleted)
  | kept (hlen : v.event.contentLen < MAX_CONTENT_LEN) (h : contentClass t v.id ≠ .pruned) :
      SettleEffect t v o (t, match o with
        | .alreadyPresent => .existing
        | .inserted _ isDeleted _ _ _ => if isDeleted then .deleted else .new)

omit [Primitives] in
theorem classOf_eq_pruned {s : Option EventContentState} : classOf s = .pruned ↔ s = some .pruned := by
  rcases s with _ | _ | _ | _ | _ <;> simp [classOf]

theorem settleContentTx_effect (t : EventTables) (v : VerifiedEvent) (o : InsertEventOutcome) :
    Ensures (settleContentTx t v o) (SettleEffect t v o) (fun _ => True) := by
  unfold settleContentTx
  split
  · next h => exact .pruned (classOf_eq_pruned.mpr h)
  next hpruned =>
  have hclass : contentClass t v.id ≠ .pruned := fun h => hpruned (classOf_eq_pruned.mp h)
  split
  · next hlen =>
    cases href : (contentClass t v.id).referenced with
    | false =>
      rw [pruneEventContentTx_terminal href, decide_eq_false hpruned]
      refine .oversized hlen ?_
      cases hc : contentClass t v.id with
      | deleted => exact .inl rfl
      | invalid => exact .inr rfl
      | pruned => exact (hclass hc).elim
      | missing => rw [hc] at href; cases href
      | current => rw [hc] at href; cases href
    | true =>
      rw [pruneEventContentTx_referenced href]
      simp only [bind_assoc, pure_bind]
      refine (ensures_true _).bind fun rc _ => ?_
      refine (ensures_true _).bind fun usage _ => ?_
      exact .pruned (by simp [contentClass, classOf])
  · next hlen =>
    cases o with
    | alreadyPresent => exact .kept (not_le.mp hlen) hclass
    | inserted wm isD dp rev mp => exact .kept (not_le.mp hlen) hclass

/-! ## 2. When the answer is right

The condition speaks of the state before the envelope, and of the envelope. -/

/-- The three confusions are not met: a known header is neither deleted nor invalid, and a fresh one
has content, unless its content is already gone.  Oversized content is pruned in any case. -/
def AnswersRightly (db : Database) (v : VerifiedEvent) : Prop :=
  MAX_CONTENT_LEN ≤ v.event.contentLen ∨
    if (db.ev.events.get v.id).isSome then
      contentClass db.ev v.id ≠ .deleted ∧ contentClass db.ev v.id ≠ .invalid
    else 0 < v.event.contentLen ∨ arrivesDeleted db.ev v = true ∨
      (db.quotaPruned.get v.id).isSome = true

/-- The answer for a header that was known: everything but processed content is asked for. -/
theorem wantsContent_existing {t : EventTables} {v : VerifiedEvent}
    (he : t.events.get v.id = some v.event)
    (hheld : contentClass t v.id = .current → (t.contentStore.get v.event.contentHash).isSome) :
    wantsContent t v.id .existing = true ↔ contentClass t v.id ≠ .current := by
  unfold wantsContent
  simp only [ProcessEventState.wantsContent, he, hasEventContentTx]
  cases hs : t.eventsContentState.get v.id with
  | none =>
    have hc : contentClass t v.id = .current := classOf_eq_current.mpr hs
    simp [hc, hheld hc]
  | some s =>
    have hc : contentClass t v.id ≠ .current := by
      intro h
      rw [classOf_eq_current.mp h] at hs
      cases hs
    simp [hc]

/-- What a fresh header that is not deleted starts with. -/
theorem Inserted.class_fresh {t t₁ : EventTables} {v : VerifiedEvent} {deletedParent : Option ShortEventId}
    {reverted : Option Bytes} (hs : StatesStored t) (hnew : t.events.get v.id = none)
    (hins : Inserted t t₁ v false deletedParent reverted) :
    contentClass t₁ v.id = if 0 < v.event.contentLen then .missing else .current := by
  have hself := hins.state_self
  simp only [Bool.false_eq_true, if_false] at hself
  have hnone : t.eventsContentState.get v.id = none := by
    cases h : t.eventsContentState.get v.id with
    | none => rfl
    | some s =>
      obtain ⟨e, he⟩ := hs _ _ h
      rw [hnew] at he
      cases he
  rw [contentClass, hself]
  split
  · rfl
  · rw [hnone]
    rfl

/-- A header that was known. -/
theorem wantsContent_present {D : Set VerifiedEvent} {db db' : Database} {v : VerifiedEvent}
    {e : Event} (he : db.ev.events.get v.id = some e)
    (he' : db'.ev.events.get v.id = some v.event) (hmeasured : Measured D db'.ev)
    (hlen : v.event.contentLen < MAX_CONTENT_LEN)
    (hstate : db'.ev.eventsContentState = db.ev.eventsContentState)
    (hpruned : contentClass db'.ev v.id ≠ .pruned) :
    (wantsContent db'.ev v.id .existing = true ↔ contentClass db'.ev v.id = .missing) ↔
      AnswersRightly db v := by
  rw [wantsContent_existing he' fun hc => hmeasured.held _ _ he' hc]
  have hclass : contentClass db.ev v.id = contentClass db'.ev v.id := by
    rw [contentClass, contentClass, hstate]
  unfold AnswersRightly
  rw [if_pos (by rw [he]; rfl), hclass]
  cases hc : contentClass db'.ev v.id with
  | missing => simp
  | current => simp
  | deleted => simp [hlen]
  | invalid => simp [hlen]
  | pruned => exact (hpruned hc).elim

/-- A header that is new. -/
theorem wantsContent_fresh {db : Database} {v : VerifiedEvent} {t₁ t₂ : EventTables} {isD : Bool}
    {deletedParent : Option ShortEventId} {reverted : Option Bytes} (hs : StatesStored db.ev)
    (hnew : db.ev.events.get v.id = none)
    (hins : Inserted db.ev t₁ v isD deletedParent reverted) (hdeleted : isD = arrivesDeleted db.ev v)
    (hlen : v.event.contentLen < MAX_CONTENT_LEN)
    (hfin : Finished ((db.quotaPruned.get v.id).isSome = true) t₁ t₂ v)
    (hdecided : (db.quotaPruned.get v.id).isSome = true →
      (contentClass t₂ v.id).referenced = false)
    (hpruned : contentClass t₂ v.id ≠ .pruned) (t : EventTables) :
    (wantsContent t v.id (if isD then .deleted else .new) = true ↔
      contentClass t₂ v.id = .missing) ↔ AnswersRightly db v := by
  have hclass : contentClass t₂ v.id = contentClass t₁ v.id := by
    rcases hfin.state with hstate | ⟨-, -, hstate⟩
    · rw [contentClass, contentClass, hstate]
    · exact (hpruned (by rw [contentClass, hstate]; simp [classOf])).elim
  have hright : AnswersRightly db v ↔ 0 < v.event.contentLen ∨ arrivesDeleted db.ev v = true ∨
      (db.quotaPruned.get v.id).isSome = true := by
    simp [AnswersRightly, hnew, hlen]
  rw [hright]
  cases isD with
  | true =>
    obtain ⟨d, hd⟩ := hins.state_self
    have hgone : contentClass t₂ v.id = .deleted := by
      rw [hclass, contentClass, hd]
      rfl
    simp [hgone, wantsContent, ProcessEventState.wantsContent, ← hdeleted]
  | false =>
    have hfresh := hins.class_fresh hs hnew
    rw [hclass, hfresh]
    by_cases hempty : 0 < v.event.contentLen
    · simp [hempty, wantsContent, ProcessEventState.wantsContent]
    · -- empty content is processed, so no decision can have been applied
      have hnot : ¬(db.quotaPruned.get v.id).isSome = true := by
        intro hq
        have hterm := hdecided hq
        rw [hclass, hfresh, if_neg hempty] at hterm
        cases hterm
      simp [hempty, wantsContent, ProcessEventState.wantsContent, ← hdeleted, hnot]

/-- Content that ends up pruned is not asked for, and rightly so. -/
theorem EnvelopeEffect.answersRightly_of_pruned {db db' : Database} {v : VerifiedEvent}
    (h : EnvelopeEffect db v db') (hs : StatesStored db.ev)
    (hpruned : contentClass db'.ev v.id = .pruned) : AnswersRightly db v := by
  by_cases hlen : MAX_CONTENT_LEN ≤ v.event.contentLen
  · exact .inl hlen
  right
  have hkept : ∀ e, db.ev.events.get v.id = some e →
      db'.ev.eventsContentState = db.ev.eventsContentState :=
    fun e he => h.state_kept he (not_le.mp hlen)
  cases h with
  | present e he t₁ ht₁ hfin hproj hquota =>
    rw [contentClass, hkept e he] at hpruned
    rw [if_pos (by rw [he]; rfl), contentClass, hpruned]
    exact ⟨by decide, by decide⟩
  | new hnew t₁ isD dp rev hins hfin next hproj hquota =>
    rw [if_neg (by rw [hnew]; simp)]
    rcases hfin.state with hstate | ⟨-, hlong | hdecided, -⟩
    · rw [contentClass, hstate] at hpruned
      cases isD with
      | true =>
        obtain ⟨d, hd⟩ := hins.state_self
        rw [hd] at hpruned
        cases hpruned
      | false =>
        have hfresh := hins.class_fresh hs hnew
        rw [contentClass, hpruned] at hfresh
        split at hfresh
        · cases hfresh
        · cases hfresh
    · exact (hlen hlong).elim
    · exact .inr (.inr hdecided)

/-- **The answer is right if and only if none of the confusions is met.** `processEventTx` is the transaction that
has just committed, from any reached state; the condition is about that state. -/
theorem wantsContent_exact (env : Env) {D : Set VerifiedEvent} (hcf : CollisionFree D)
    (ops : List Op) (hD : DeliveredFrom D ops) {v : VerifiedEvent} (hv : v ∈ D) (now : Timestamp)
    (source : EventReceivedSource) {db' : Database} {outcome : InsertEventOutcome}
    {state : ProcessEventState}
    (hok : processEventTx env {} (reached env ops) v now source = .ok (db', outcome, state)) :
    (wantsContent db'.ev v.id state = true ↔ contentClass db'.ev v.id = .missing) ↔
      AnswersRightly (reached env ops) v := by
  have hkeeps := (balanced_keeps D).and (measured_keeps D)
  have hI := reached_keeps env hkeeps hcf ⟨balanced_empty, measured_empty D⟩ ops hD
  have hI' := (processEventTx_keeps hkeeps hcf hI hv now source).of_ok hok
  have heffect := (processEventTx_effect env {} (reached env ops) v now source).of_ok hok
  have hstored := heffect.stored hI.1.keyed hcf hv
  generalize reached env ops = db at hI hok heffect ⊢
  -- the phases of the transaction
  obtain ⟨before, -, hok⟩ := bind_eq_ok.mp hok
  obtain ⟨⟨db₂, o, s⟩, hinner, hok⟩ := bind_eq_ok.mp hok
  obtain ⟨db₃, hafter, hok⟩ := bind_eq_ok.mp hok
  obtain ⟨⟨t₁, o₁⟩, hinsert, hinner⟩ := bind_eq_ok.mp hinner
  obtain ⟨db₁, houtcome, hinner⟩ := bind_eq_ok.mp hinner
  obtain ⟨⟨t₂, s₂⟩, hsettle, hinner⟩ := bind_eq_ok.mp hinner
  cases hinner
  obtain ⟨a, r, rfl⟩ := (payloadAfterTx_ensures env _ before).of_ok hafter
  cases hok
  have hsame : ∀ id, contentClass (ensureMissingScheduledTx t₂ v.id) id = contentClass t₂ id := by
    intro id
    obtain ⟨q, hq⟩ := ensureMissingScheduledTx_effect t₂ v.id
    rw [hq]
    rfl
  have hins := (insertEventTx_effect db.ev v).of_ok hinsert
  rw [hsame]
  cases (settleContentTx_effect db₁.ev v outcome).of_ok hsettle with
  | pruned hpruned =>
    refine iff_of_true ?_ (heffect.answersRightly_of_pruned hI.1.states ((hsame v.id).trans hpruned))
    rw [hpruned]
    simp [wantsContent, ProcessEventState.wantsContent]
  | oversized hlen hgone =>
    refine iff_of_true ?_ (.inl hlen)
    rcases hgone with hgone | hgone
    · simp [hgone, wantsContent, ProcessEventState.wantsContent]
    · simp [hgone, wantsContent, ProcessEventState.wantsContent]
  | kept hlen hpruned =>
    cases hins with
    | present e he hreg ht ho =>
      obtain rfl : outcome = .alreadyPresent := ho
      rw [← hsame] at hpruned ⊢
      exact wantsContent_present he hstored hI'.2.2 hlen (heffect.state_kept he hlen) hpruned
    | new hnew hreg wm isD dp rev mp hinserted ho =>
      obtain rfl : outcome = .inserted wm isD dp rev mp := ho
      have hdeleted := (insertEventTx_isDeleted db.ev v).of_ok hinsert _ _ _ _ _ rfl
      obtain ⟨next, hfin, -, -⟩ := (afterInsertTx_effect env {} { db with ev := t₁ } v now source isD
        dp rev).of_ok houtcome
      have hdecided : (db.quotaPruned.get v.id).isSome = true →
          (contentClass db₁.ev v.id).referenced = false := fun hq =>
        (afterInsertTx_decided env {} { db with ev := t₁ } hq now source isD dp rev).of_ok houtcome
      exact wantsContent_fresh hI.1.states hnew hinserted hdeleted hlen hfin hdecided hpruned _

end Wanted

/-! ## 3. The confusions

One run, in which two of them are met. -/

section Sample

attribute [local instance] Primitives.reference

/-- The answer after an envelope, beside the class of its content. -/
def askedAfter (ops : List Op) (v : VerifiedEvent) : Option (PayloadBucket × Bool) :=
  (processEventTx sampleEnv {} (reached sampleEnv ops) v 8 .local).toOption.map fun r =>
    (contentClass r.1.ev v.id, wantsContent r.1.ev v.id r.2.2)

theorem askedAfter_eq_some {ops : List Op} {v : VerifiedEvent} {k : PayloadBucket} {b : Bool}
    (h : askedAfter ops v = some (k, b)) :
    ∃ db' outcome state, processEventTx sampleEnv {} (reached sampleEnv ops) v 8 .local =
        .ok (db', outcome, state) ∧ contentClass db'.ev v.id = k ∧
      wantsContent db'.ev v.id state = b := by
  unfold askedAfter at h
  cases hok : processEventTx sampleEnv {} (reached sampleEnv ops) v 8 .local with
  | error e =>
    rw [hok] at h
    cases h
  | ok r =>
    rw [hok] at h
    obtain ⟨db', outcome, state⟩ := r
    simp only [Except.toOption, Option.map_some, Option.some.injEq, Prod.mk.injEq] at h
    exact ⟨db', outcome, state, rfl, h.1, h.2⟩

/-- Content that is waited for is asked for again when its header comes again. -/
theorem wantsContent_exact_sampleRun :
    ∃ db' outcome state, processEventTx sampleEnv {} (reached sampleEnv sampleRun)
        (.ofEvent sampleWaiting) 8 .local = .ok (db', outcome, state) ∧
      ((wantsContent db'.ev 2 state = true ↔ contentClass db'.ev 2 = .missing) ↔
        AnswersRightly (reached sampleEnv sampleRun) (.ofEvent sampleWaiting)) := by
  have hasked : askedAfter sampleRun (.ofEvent sampleWaiting) = some (.missing, true) := by
    decide +kernel
  obtain ⟨db', outcome, state, hok, -, -⟩ := askedAfter_eq_some hasked
  exact ⟨db', outcome, state, hok, wantsContent_exact sampleEnv sampleRun_collisionFree sampleRun
    (deliveredFrom_envelopesOf sampleRun)
    (show VerifiedEvent.ofEvent sampleWaiting ∈ sampleRun.flatMap Op.delivered by decide) 8 .local
    hok⟩

/-- **Deleted content is asked for when its header comes again, and so is empty content.** -/
theorem deleted_and_empty_wanted :
    (∃ db' outcome state, processEventTx sampleEnv {} (reached sampleEnv sampleRun)
        (.ofEvent samplePost) 8 .local = .ok (db', outcome, state) ∧
      contentClass db'.ev 1 = .deleted ∧ wantsContent db'.ev 1 state = true) ∧
    ∃ db' outcome state, processEventTx sampleEnv {} (reached sampleEnv [])
        (.ofEvent sampleDeletion) 8 .local = .ok (db', outcome, state) ∧
      contentClass db'.ev 3 = .current ∧ wantsContent db'.ev 3 state = true := by
  have hdeleted : askedAfter sampleRun (.ofEvent samplePost) = some (.deleted, true) := by
    decide +kernel
  have hempty : askedAfter [] (.ofEvent sampleDeletion) = some (.current, true) := by
    decide +kernel
  exact ⟨askedAfter_eq_some hdeleted, askedAfter_eq_some hempty⟩

end Sample

end Rostra.Db
