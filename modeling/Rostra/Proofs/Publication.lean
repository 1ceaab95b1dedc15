/-
# A refused publication

When capacity is refused, a publication returns an error, and the error says that nothing was
stored: `dm_commit_outgoing` promises to roll back the entire event, and the disabled path does.
But both calls have committed the envelope by then.  Its effects stay: the event is a head of the
own account, it is `Missing` although the only copy of its payload is gone, and an edit has deleted
the post it would have replaced.

* Section 1 says what it is for a transaction to leave the tables alone.
* Section 2 is the last step: refused, it leaves at most what processing the envelope leaves.
* Section 3 puts the steps together.  The envelope is the only thing a refused publication stores,
  so the call is clean EXACTLY when that envelope was there before: when the same event was signed
  twice, by a second call with the same content in the same second.
* Section 4 is an edit that is too long for the budget of its author.
-/
import Rostra.Db.Publication
import Rostra.Proofs.Deferral
import Rostra.Proofs.Progress
import Rostra.Proofs.Redelivery

namespace Rostra.Db

open Rostra Outcome

/-! ## 1. Clean attempts

Bookkeeping may move, and so may the supply of lease ids; everything that a reader can see is compared. -/

/-- Events, heads, content states, usage, the fetch queue, projections with their lineage, receipts
and counters are as they were.  The collection queue and the retention index may be brought up to
date. -/
structure Untouched (db db' : Database) : Prop where
  events : db'.ev = db.ev
  projections : db'.proj = db.proj
  received : db'.eventsReceivedAt = db.eventsReceivedAt
  own : db'.eventsSelf = db.eventsSelf
  origins : db'.origins = db.origins
  decisions : db'.quotaPruned = db.quotaPruned
  counters : db'.accounting = { db.accounting with quotaGc := db'.accounting.quotaGc }

theorem Untouched.refl (db : Database) : Untouched db db := ⟨rfl, rfl, rfl, rfl, rfl, rfl, rfl⟩

theorem Rebooked.untouched {db db' : Database} (h : Rebooked db db') : Untouched db db' := by
  constructor <;> rw [h.eq]

section Attempts

variable [Primitives]

/-- No transaction of the call changed anything. -/
def Attempt.Clean (a : Attempt) : Prop := ∀ tx ∈ a.own, Untouched tx.1 tx.2

/-! ## 2. The last step

The step that is promised to be atomic, and is. -/

/-- The last step of a publication: refused, it has committed nothing or no more than the
envelope. -/
def EnvelopeAtMost (env : Env) (v : VerifiedEvent)
    (ingest : Database → Moment → Option PayloadBuffer → Except PublishError Unit × Database) :
    Prop :=
  ∀ db moment buffer stage reason, (ingest db moment buffer).1 = .error (.refused stage reason) →
    (ingest db moment buffer).2 = db ∨
      ∃ r, processEventTx env {} db v moment.now (.pushed none none) =
        .ok ((ingest db moment buffer).2, r)

theorem ingestAcquired_envelopeAtMost (env : Env) (c : VerifiedEventContent) :
    EnvelopeAtMost env c.event (ingestAcquired env c) := by
  intro db moment buffer stage reason h
  unfold ingestAcquired at h ⊢
  split at h
  · cases h
  · next db' reason' hok =>
    right
    exact (tryProcessAdmittedEventContent_deferred hok).1
  · cases h

/-- Nothing of a message that was refused is committed. -/
theorem ingestAcquiredDm_envelopeAtMost (env : Env) (c : VerifiedEventContent)
    (history : Dm.DmTables) (body : Dm.MessageBody) (permit : SendPermit) :
    EnvelopeAtMost env c.event (ingestAcquiredDm env c history body permit) := by
  intro db moment buffer stage reason h
  left
  unfold ingestAcquiredDm at h ⊢
  split at h
  · rfl
  · cases h

/-! ## 3. The whole call

Other writers may commit between the steps. A transaction of theirs is not counted against the call. -/

section Call

variable {D : Set VerifiedEvent} {env : Env} {c : VerifiedEventContent}

/-- The envelope is stored by the transaction that reserves. -/
theorem reservePayload_envelope {db : Database} {now : Timestamp} {s : AdmissionState}
    {r : Database × PayloadReservationOutcome}
    (h : reservePayload env db c.event now s = .ok r) :
    ∃ o, processEventTx env {} db c.event now (.pushed none none) = .ok (r.1, o) := by
  obtain ⟨⟨db₁, o⟩, hevent, h⟩ := bind_eq_ok.mp h
  obtain ⟨⟨outcome, s'⟩, -, h⟩ := bind_eq_ok.mp h
  cases h
  exact ⟨o, hevent⟩

/-- As a step of a run, it is the delivery of an envelope. -/
theorem step_envelope {db db' : Database} {v : VerifiedEvent} {now : Timestamp}
    {o : InsertEventOutcome × ProcessEventState}
    (h : processEventTx env {} db v now (.pushed none none) = .ok (db', o)) :
    step env db (.ingest [.envelope v now (.pushed none none)]) = .ok db' := by
  rw [step_ingest_single]
  exact bind_eq_ok.mpr ⟨(db', o), h, rfl⟩

/-- **An envelope of a run changes nothing exactly when it is there.** -/
theorem envelope_untouched_iff (hcf : CollisionFree D) (ops : List Op) (hD : DeliveredFrom D ops)
    {v : VerifiedEvent} (hv : v ∈ D) {now : Timestamp} {db' : Database}
    {o : InsertEventOutcome × ProcessEventState}
    (h : processEventTx env {} (reached env ops) v now (.pushed none none) = .ok (db', o)) :
    Untouched (reached env ops) db' ↔ (reached env ops).ev.events.get v.id = some v.event := by
  obtain ⟨hground, hsteady⟩ := reached_keeps env (steady_keeps D) hcf steady_empty ops hD
  constructor
  · intro hsame
    have heffect := (processEventTx_effect env {} (reached env ops) v now
      (.pushed none none)).of_ok h
    have hstored := heffect.stored hground.keyed hcf hv
    rwa [hsame.events] at hstored
  · intro hstored
    have hrebooked : Rebooked (reached env ops) db' :=
      (processEventTx_again hsteady (reached_guarded env ops) hstored now
        (.pushed none none)).of_ok h
    exact hrebooked.untouched

/-- Where the envelope was before, it is after its own transaction and those of others, and the last
step has nothing to add. -/
theorem ingest_untouched (hcf : CollisionFree D) (ops others : List Op)
    (hD : DeliveredFrom D (ops ++ others)) (hc : c.event ∈ D) {now : Timestamp}
    {reserved : Database} {o : InsertEventOutcome × ProcessEventState}
    (henvelope : processEventTx env {} (reached env ops) c.event now (.pushed none none) =
      .ok (reserved, o))
    {ingest : Database → Moment → Option PayloadBuffer → Except PublishError Unit × Database}
    (hingest : EnvelopeAtMost env c.event ingest) {moment : Moment} {buffer : Option PayloadBuffer}
    {stage : Stage} {reason : PayloadAdmissionPause}
    (h : (ingest (run (step env) reserved others) moment buffer).1 =
      .error (.refused stage reason)) :
    Untouched (run (step env) reserved others)
      (ingest (run (step env) reserved others) moment buffer).2 := by
  let own : Op := .ingest [.envelope c.event now (.pushed none none)]
  have hreserved : reserved = reached env (ops ++ [own]) := by
    rw [reached, run_append, run_cons]
    show _ = run (step env) (commit (step env (reached env ops) own) _) []
    rw [step_envelope henvelope, commit_ok, run_nil]
  have hfound : run (step env) reserved others = reached env (ops ++ [own] ++ others) := by
    rw [hreserved, reached, reached, ← run_append]
  have hDall : DeliveredFrom D (ops ++ [own] ++ others) := by
    intro o' ho' v hv
    rcases List.mem_append.mp ho' with ho' | ho'
    · rcases List.mem_append.mp ho' with ho' | ho'
      · exact hD o' (List.mem_append_left _ ho') v hv
      · obtain rfl := List.mem_singleton.mp ho'
        obtain rfl : v = c.event := by simpa [own, Op.delivered, Delivery.event] using hv
        exact hc
    · exact hD o' (List.mem_append_right _ ho') v hv
  rcases hingest _ moment buffer stage reason h with heq | ⟨r, hr⟩
  · rw [heq]
    exact .refl _
  · rw [hfound] at hr ⊢
    refine (envelope_untouched_iff hcf _ hDall hc hr).mpr ?_
    -- stored by the first transaction, and a header that is stored stays
    have hground := (reached_keeps env (steady_keeps D) hcf steady_empty ops fun o' ho' =>
      hD o' (List.mem_append_left _ ho')).1
    have hstored := ((processEventTx_effect env {} (reached env ops) c.event now
      (.pushed none none)).of_ok henvelope).stored hground.keyed hcf hc
    have hlater := reached_later env hcf (ops ++ [own]) others hDall
    rw [← hreserved] at hlater
    exact hlater.stored _ _ hstored

/-- Both calls from the reservation on. -/
theorem publishReserved_clean_iff (hcf : CollisionFree D) (before : List Op) (s : Surroundings)
    (hD : DeliveredFrom D (before ++ s.others)) (hc : c.event ∈ D) {capacity : ℕ}
    {ingest : Database → Moment → Option PayloadBuffer → Except PublishError Unit × Database}
    (hingest : EnvelopeAtMost env c.event ingest) {stage : Stage} {reason : PayloadAdmissionPause}
    (h : (s.publishReserved env (reached env before) c capacity ingest).refusal =
      some (stage, reason)) :
    (s.publishReserved env (reached env before) c capacity ingest).Clean ↔
      (s.atReserve env (reached env before)).ev.events.get c.event.id = some c.event.event := by
  let ops := before ++ (s.beforeHead ++ s.beforeAux ++ s.reserve.others)
  have hops : s.atReserve env (reached env before) = reached env ops := by
    simp only [Surroundings.atReserve, Surroundings.atAux, Surroundings.atHead, ops, reached,
      run_append]
  have hall : before ++ s.others = ops ++ s.ingest.others := by
    simp only [Surroundings.others, ops, List.append_assoc]
  rw [hall] at hD
  have hDops : DeliveredFrom D ops := fun o ho => hD o (List.mem_append_left _ ho)
  unfold Surroundings.publishReserved at h ⊢
  rw [hops] at h ⊢
  simp only at h ⊢
  split at h
  · cases h
  · next reserved outcome hreserve =>
    obtain ⟨o, henvelope⟩ := reservePayload_envelope hreserve
    have hfirst := envelope_untouched_iff hcf ops hDops hc henvelope
    split at h
    · next e hbind =>
      -- refused before the second transaction
      simpa [Attempt.Clean, hbind] using hfirst
    · next buffer hbind =>
      have hrefused : ∃ stage' reason',
          (ingest (run (step env) reserved s.ingest.others) s.ingest buffer).1 =
            .error (.refused stage' reason') := by
        rcases hres : (ingest (run (step env) reserved s.ingest.others) s.ingest buffer).1
          with e | u
        · cases e with
          | refused stage' reason' => exact ⟨stage', reason', rfl⟩
          | _ => simp [Attempt.refusal, hres, Except.map] at h
        · simp [Attempt.refusal, hres, Except.map] at h
      obtain ⟨stage', reason', hrefused⟩ := hrefused
      have hsecond := ingest_untouched hcf ops s.ingest.others hD hc henvelope hingest hrefused
      constructor
      · intro hclean
        exact hfirst.mp (hclean _ (List.mem_cons_self ..))
      · intro hstored tx htx
        rcases List.mem_cons.mp htx with rfl | htx
        · exact hfirst.mpr hstored
        · obtain rfl := List.mem_singleton.mp htx
          exact hsecond

omit [Primitives] in
/-- While admission is enabled, an allocation is never withheld silently. -/
theorem allocate_enabled {s : AdmissionState} (h : s.config.isSome) {bytes : ℕ}
    {capacity : Option ℕ} (hok : allocate s bytes = .ok capacity) : capacity = some bytes := by
  obtain ⟨config, hconfig⟩ := Option.isSome_iff_exists.mp h
  unfold allocate at hok
  rw [hconfig] at hok
  split at hok
  · next hnone => cases hnone
  · cases hok
    rfl
  · cases hok

omit [Primitives] in
theorem encode_enabled {e : Encoding} (h₁ : e.first.config.isSome) (h₂ : e.second.config.isSome)
    {raw : Bytes} {capacity : Option ℕ} (hok : e.encode raw = .ok capacity) :
    capacity = some raw.length := by
  obtain ⟨first, hfirst, hok⟩ := bind_eq_ok.mp hok
  obtain rfl := allocate_enabled h₁ hfirst
  obtain ⟨w, -, hok⟩ := bind_eq_ok.mp hok
  exact allocate_enabled h₂ hok

/-- **A refused publication is clean exactly when its event was stored before.**  From every reached
state, whatever other writers commit and other owners do between the steps, and for ordinary events,
edits, messages and announcements: if capacity is refused after the encoding, the call changed
nothing if and only if the very event it signed was stored when its first transaction began. -/
theorem refused_publication_clean_iff (env : Env) {D : Set VerifiedEvent} (hcf : CollisionFree D)
    (before : List Op) (s : Surroundings) (henabled : s.Enabled)
    (hD : DeliveredFrom D (before ++ s.others)) (p : LocalPublication)
    (hp : ∀ c, p.signed s env (reached env before) = some c → c.event ∈ D) (stage : Stage)
    (hstage : stage ≠ .encoding) (reason : PayloadAdmissionPause)
    (h : (p.publish s env (reached env before)).refusal = some (stage, reason)) :
    (p.publish s env (reached env before)).Clean ↔
      ∃ c, p.signed s env (reached env before) = some c ∧
        (s.atReserve env (reached env before)).ev.events.get c.event.id = some c.event.event := by
  cases p with
  | event content replace =>
    have hc := hp _ rfl
    simp only [LocalPublication.publish, Surroundings.publishEvent, LocalPublication.signed,
      Option.some.injEq, exists_eq_left'] at h hc ⊢
    split at h
    · obtain ⟨rfl, -⟩ : Stage.encoding = stage ∧ _ := by simpa [Attempt.refusal] using h
      exact absurd rfl hstage
    · next hencode => cases encode_enabled henabled.1 henabled.2 hencode
    · exact publishReserved_clean_iff hcf before s hD hc (ingestAcquired_envelopeAtMost env _) h
  | directMessage kind size body raw =>
    simp only [LocalPublication.publish, Surroundings.publishDmRaw] at h ⊢
    split at h
    · obtain ⟨rfl, -⟩ : Stage.encoding = stage ∧ _ := by simpa [Attempt.refusal] using h
      exact absurd rfl hstage
    · cases h
    · next capacity raw hallocate =>
      have hc := hp _ rfl
      obtain rfl := allocate_enabled henabled.1 hallocate
      simp only [LocalPublication.signed, Option.map_some, Option.some.injEq,
        exists_eq_left'] at hc ⊢
      cases body with
      | none =>
        exact publishReserved_clean_iff hcf before s hD hc (ingestAcquired_envelopeAtMost env _) h
      | some body =>
        exact publishReserved_clean_iff hcf before s hD hc
          (ingestAcquiredDm_envelopeAtMost env _ _ _ _) h

end Call

end Attempts

/-! ## 4. An edit that does not fit

The header of an edit deletes what it replaces. It is committed before the content is refused. -/

section Sample

attribute [local instance] Primitives.reference

/-- A post of the own account. -/
def sampleOwnPost : Event :=
  { kind := EventKind.SOCIAL_POST, contentLen := 2, timestamp := 1, author := toLex (9, 9)
    contentHash := blake3 [0, 65] }

def sampleOwnPayload : VerifiedEventContent := ⟨⟨.ofEvent sampleOwnPost, some [0, 65]⟩, by decide⟩

def sampleOwnRun : List Op := [.ingest [.payload sampleOwnPayload 5 {}], .rebuildAccounting 100]

/-- Three bytes for each author. -/
def sampleBudget : AdmissionState := { config := some ⟨100, 3, ∅, 8, 1000, by decide⟩ }

/-- Four bytes in place of the post. -/
def sampleOwnEdit : LocalPublication :=
  .event ⟨EventKind.SOCIAL_POST, none, [0, 67, 68, 69]⟩ (some 1)

/-- Nobody else is at work. -/
def sampleAlone : Surroundings where
  draw _ := none
  encoding := ⟨sampleBudget, [⟨4, sampleBudget, sampleBudget⟩], sampleBudget⟩
  composedAt := 4
  reserve := ⟨[], sampleBudget, 6⟩
  bind := sampleBudget
  ingest := ⟨[], sampleBudget, 7⟩

/-- The content states of the post and of the edit, before and after each transaction. -/
def sampleOwnStates : List ((PayloadBucket × PayloadBucket) × PayloadBucket × PayloadBucket) :=
  (sampleOwnEdit.publish sampleAlone sampleEnv (reached sampleEnv sampleOwnRun)).own.map fun tx =>
    ((contentClass tx.1.ev 1, contentClass tx.1.ev 4),
      contentClass tx.2.ev 1, contentClass tx.2.ev 4)

/-- The reservation is refused for want of capacity; the call was clean if its event was there before. -/
theorem refused_publication_clean_iff_sampleOwnEdit :
    let db := reached sampleEnv sampleOwnRun
    (sampleOwnEdit.publish sampleAlone sampleEnv db).refusal =
        some (.reservation, .authorCapacity) ∧
      ((sampleOwnEdit.publish sampleAlone sampleEnv db).Clean ↔
        ∃ c, sampleOwnEdit.signed sampleAlone sampleEnv db = some c ∧
          (sampleAlone.atReserve sampleEnv db).ev.events.get c.event.id = some c.event.event) := by
  intro db
  have hrefused : (sampleOwnEdit.publish sampleAlone sampleEnv db).refusal =
      some (.reservation, .authorCapacity) := by decide +kernel
  let edit := sampleAlone.sign sampleEnv db ⟨EventKind.SOCIAL_POST, none, [0, 67, 68, 69]⟩ (some 1)
  let D : Set VerifiedEvent := {sampleOwnPayload.event, edit.event}
  have hcf : CollisionFree D := by
    have hne : sampleOwnPayload.event.id ≠ edit.event.id := by decide +kernel
    rintro v (rfl | rfl) w (rfl | rfl) h
    · rfl
    · exact absurd h hne
    · exact absurd h.symm hne
    · rfl
  refine ⟨hrefused, refused_publication_clean_iff sampleEnv hcf sampleOwnRun sampleAlone
    ⟨rfl, rfl⟩ ?_ sampleOwnEdit ?_ .reservation (by decide) .authorCapacity hrefused⟩
  · intro o ho v hv
    have hmem : v ∈ (sampleOwnRun ++ sampleAlone.others).flatMap Op.delivered :=
      List.mem_flatMap.mpr ⟨o, ho, hv⟩
    left
    simpa [sampleOwnRun, sampleAlone, Surroundings.others, Op.delivered, Delivery.event] using hmem
  · rintro c hc
    right
    obtain rfl := Option.some.inj hc
    rfl

/-- **The edit is refused, and the post is gone.**  What is left is an event of the own account
whose payload nobody has. -/
theorem refused_edit_deletes_post :
    let db := reached sampleEnv sampleOwnRun
    let a := sampleOwnEdit.publish sampleAlone sampleEnv db
    sampleAlone.Enabled ∧ a.refusal = some (.reservation, .authorCapacity) ∧
      contentClass db.ev 1 = .current ∧
      (∃ tx ∈ a.own, contentClass tx.2.ev 1 = .deleted ∧ contentClass tx.2.ev 4 = .missing) ∧
      ¬a.Clean := by
  intro db a
  have hstates : sampleOwnStates = [((.current, .current), .deleted, .missing)] := by decide +kernel
  have hown : ∃ tx ∈ a.own, ((contentClass tx.1.ev 1, contentClass tx.1.ev 4),
      contentClass tx.2.ev 1, contentClass tx.2.ev 4) =
        ((.current, .current), .deleted, .missing) := by
    have hmem : ((.current, .current), .deleted, .missing) ∈ sampleOwnStates := by simp [hstates]
    exact List.mem_map.mp hmem
  obtain ⟨tx, htx, heq⟩ := hown
  simp only [Prod.mk.injEq] at heq
  obtain ⟨⟨hpost, -⟩, hgone, hedit⟩ := heq
  refine ⟨⟨rfl, rfl⟩, by decide +kernel, by decide +kernel, ⟨tx, htx, hgone, hedit⟩, ?_⟩
  intro hclean
  rw [(hclean tx htx).events, hpost] at hgone
  cases hgone

end Sample

end Rostra.Db
