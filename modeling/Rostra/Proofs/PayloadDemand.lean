/-
# Preemption respects rank

One turn of `preempt_payload_demand` releases the payload of the pressured scope that goes first, and only for
a demand that ranks above it; or it gives up a demand that every payload of the scope ranks above.  This
is proved for a turn that finds its frontiers where earlier turns left them, with anything in between.

* `visitRow_spec` judges one row, `walkRows_spec` is the induction over the rows of one plan.
* `walkPlans_spec` is the induction over the plans: every frontier of the ledger stays sound, and what the turn
  answers is what one of its walks ended with.
* In a run an action either leaves the rows of the index alone or raises the revision, and a frontier of another
  revision is thrown away before it is used.

What a turn knows of the turns before is in the frontiers. A frontier is good for a scope, an owner and a revision,
and one that is found under other values is started over.
-/
import Rostra.Proofs.Scans

namespace Rostra.Db

open Rostra Outcome

variable [Primitives] {D : Set VerifiedEvent} {env : Env} {db : Database} {s : AdmissionState}
  {request : DemandRequest} {now : Timestamp} {revision : ℕ} {scope : Option RostraId} {plan : Plan}
  {barred : Bool}

/-! ## 1. One walk

A walk goes over the rows of one scope from its frontier, and ends at the first row that decides something. -/

/-- **The lowest rank of a scope**, and no row of its index before it. -/
def RanksAbove (env : Env) (policy : RetentionPolicy) (db : Database) (scope : Option RostraId)
    (now : Timestamp) (key : ℕ) : Prop :=
  ∃ id entry, LeastDue env policy db scope now id entry ∧ key < entry.key ∧
    ∀ k ∈ scopeKeys db.retention scope, entry.key ≤ k

/-- What may be concluded from the way a walk ended. -/
structure WalkEnd (env : Env) (db : Database) (s : AdmissionState) (request : DemandRequest)
    (now : Timestamp) (scope : Option RostraId) (plan : Plan) (barred : Bool) (exit : ScanExit) : Prop where
  prune : ∀ id victim, exit = .prune id victim → victim.toShort = id ∧
    ∃ entry, LeastDue env request.generation.policy db scope now id entry ∧ entry.key < plan.2
  reject : exit = .reject → barred = false ∧ retainedRejectionPressureTx db s plan.1 scope = .ok true ∧
    RanksAbove env request.generation.policy db scope now plan.2

theorem WalkEnd.of_other {exit : ScanExit} (hprune : ∀ id victim, exit ≠ .prune id victim)
    (hreject : exit ≠ .reject) : WalkEnd env db s request now scope plan barred exit :=
  ⟨fun id victim h => absurd h (hprune id victim), fun h => absurd h hreject⟩

variable {scan : DemandScan} {c : TurnCounters} {key : ℕ} {id : ShortEventId}

variable (plan barred) in
/-- **One row**: it is skipped, or it ends the walk with a release or with a refusal. -/
theorem visitRow_spec (hi : IndexReady D env db request.generation)
    (hready : retentionSelectionReadyTx db.retention request.generation now = true)
    (h : ScanReady db.retention revision scope now scan)
    (hnext : Table.nextAfter (scopeKeys db.retention scope) scan.after = some key)
    (hrow : scopeRow db.retention scope key = some id) :
    let out := visitRow env db s request now plan barred scan c key id
    ScanReady db.retention revision scope now out.1 ∧
      ∀ exit, out.2.2 = some exit → WalkEnd env db s request now scope plan barred exit := by
  obtain ⟨e, entry, he, hid, hcurrent, hderived, hat⟩ := hi.visited hrow now
  unfold visitRow
  rw [he]
  have hcomputed : (VerifiedEvent.ofEvent e).eventId = computeId e := rfl
  dsimp only
  rw [hcomputed, hcurrent, hderived]
  by_cases hdue : dueAt db.retention scope key ≤ now
  · -- the row may be released
    obtain ⟨entry', hkey, hleast⟩ := h.leastDue hi hready hnext hrow hdue
    simp only [hdue, decide_true, Bool.not_true, Bool.false_eq_true, false_and, if_false, Option.elim_none]
    split
    · next hge =>
      split
      · next hlt =>
        have hlowest : RanksAbove env request.generation.policy db scope now plan.2 := by
          refine ⟨id, entry', hleast, hkey ▸ hlt.1, fun k hk => ?_⟩
          have hstart : scan.after = none := Option.isNone_iff_eq_none.mp hlt.2.2.1
          rw [hstart] at hnext
          rw [hkey]
          exact Table.least_le hnext hk
        split
        · refine ⟨h, fun exit hexit => ?_⟩
          cases hexit
          exact .of_other (by simp) (by simp)
        · next hpressure =>
          rw [h.author] at hpressure
          refine ⟨h, fun exit hexit => ?_⟩
          cases hexit
          exact ⟨fun _ _ hno => (by cases hno), fun _ => ⟨by simpa using hlt.2.2.2, hpressure, hlowest⟩⟩
        · refine ⟨⟨h.revision, h.author, h.passed, h.waiting⟩, fun exit hexit => ?_⟩
          cases hexit
          exact .of_other (by simp) (by simp)
      · refine ⟨⟨h.revision, h.author, h.passed, h.waiting⟩, fun exit hexit => ?_⟩
        cases hexit
        exact .of_other (by simp) (by simp)
    · next hlt =>
      split
      · refine ⟨⟨h.revision, h.author, h.passed, h.waiting⟩, fun exit hexit => ?_⟩
        cases hexit
        exact .of_other (by simp) (by simp)
      · refine ⟨h, fun exit hexit => ?_⟩
        cases hexit
        refine ⟨fun i v hexit => ?_, fun hno => by cases hno⟩
        cases hexit
        exact ⟨hid, entry', hleast, hkey ▸ Nat.not_le.mp hlt⟩
  · -- it becomes due later
    have hlater : now < dueAt db.retention scope key := Nat.not_le.mp hdue
    simp only [hdue, decide_false, Bool.not_false, true_and, hat, hlater, if_true, Option.elim_some]
    split
    · rw [if_neg (by simp)]
      have hnoted := h.noteRetry hlater
      refine ⟨⟨hnoted.revision, hnoted.author, hnoted.passed, hnoted.waiting⟩, fun exit hexit => ?_⟩
      cases hexit
      exact .of_other (by simp) (by simp)
    · refine ⟨h.skip hnext hlater, fun exit hexit => ?_⟩
      cases hexit

/-- **The rows of one plan.** The induction is on the number of rows that the turn may still look at; the frontier
stays sound after each of them. -/
theorem walkRows_spec (hi : IndexReady D env db request.generation)
    (hready : retentionSelectionReadyTx db.retention request.generation now = true) :
    ∀ (remaining : ℕ) {scan : DemandScan} (c : TurnCounters),
      ScanReady db.retention revision scope now scan →
      let walk := walkRows env db s request now plan barred remaining scan c
      ScanReady db.retention revision scope now walk.scan ∧
        WalkEnd env db s request now scope plan barred walk.exit
  | 0, scan, c, h => by
    unfold walkRows
    split
    · exact ⟨h, .of_other (by simp) (by simp)⟩
    · exact ⟨h, .of_other (by simp) (by simp)⟩
  | remaining + 1, scan, c, h => by
    unfold walkRows
    split
    · exact ⟨h, .of_other (by simp) (by simp)⟩
    split
    · exact ⟨⟨h.revision, h.author, h.passed, h.waiting⟩, .of_other (by simp) (by simp)⟩
    next key id hrow =>
    obtain ⟨hnext, hrow⟩ := nextTx_some hrow
    rw [h.author] at hnext hrow
    have hvisit := visitRow_spec plan barred (s := s)
      (c := { c with looks := c.looks - 1, remaining := remaining }) hi hready h hnext hrow
    dsimp only at hvisit ⊢
    split
    · next scan' c' exit hout =>
      rw [hout] at hvisit
      exact ⟨hvisit.1, hvisit.2 exit rfl⟩
    · next scan' c' hout =>
      rw [hout] at hvisit
      exact walkRows_spec hi hready remaining c' hvisit.1

variable (scope plan barred) in
/-- **One plan**, from wherever its frontier was left. It is brought up to date first, which may mean to begin
again. -/
theorem walkPlan_spec (hi : IndexReady D env db request.generation)
    (hready : retentionSelectionReadyTx db.retention request.generation now = true)
    {stored : Option DemandScan} (hstored : ∀ scan, stored = some scan → ScanSound db.retention revision scan)
    (c : TurnCounters) :
    let walk := walkPlan env db s request now revision barred plan scope stored c
    ScanReady db.retention revision scope now walk.scan ∧
      WalkEnd env db s request now scope plan barred walk.exit := by
  have hsound : ScanSound db.retention revision (stored.getD (.new revision scope now)) := by
    cases stored with
    | none => exact (scanReady_new db.retention revision scope now).sound
    | some scan => exact hstored scan rfl
  have h := hsound.prepare scope now
  unfold walkPlan
  dsimp only
  split
  · exact ⟨h, .of_other (by simp) (by simp)⟩
  split
  · exact ⟨h, .of_other (by simp) (by simp)⟩
  · exact walkRows_spec hi hready _ _ h

/-! ## 2. One turn

The plans of a turn are walked one after the other, and the first walk that releases something ends the turn. -/

/-- Every frontier of the ledger is sound. -/
def DemandsSound (r : RetentionIndex) (revision : ℕ) (d : DemandState) : Prop :=
  ∀ event entry, d.entries.get event = some entry → ∀ scan, entry.scan = some scan → ScanSound r revision scan

/-- **What a turn has released**, and for whom: the victim is the least of the scope that is due, and ranks below
the plan it was released for. -/
structure TurnAnswer (env : Env) (db : Database) (s : AdmissionState) (request : DemandRequest)
    (now : Timestamp) (barred : Bool) (plans : List (Plan × Option RostraId)) (turn : DemandTurn) :
    Prop where
  pruned : ∀ demand victim bytes, turn.reply = .ok (.pruned demand victim bytes) → ∃ key v scope,
    ((v, key), scope) ∈ plans ∧ v.eventId = demand ∧
    pruneQuotaPayloadTx env db (quotaRequest request scope .processed victim.toShort now) =
      .ok (turn.db, .pruned bytes) ∧
    ∃ entry, LeastDue env request.generation.policy db scope now victim.toShort entry ∧ entry.key < key
  rejected : ∀ event, turn.reply = .ok (.rejected event) → barred = false ∧ ∃ key v scope,
    ((v, key), scope) ∈ plans ∧ v.eventId = event ∧
    pruneQuotaPayloadTx env db (quotaRequest request scope .missing v.id now) = .ok (turn.db, .pruned 0) ∧
    retainedRejectionPressureTx db s v scope = .ok true ∧
    RanksAbove env request.generation.policy db scope now key

/-- The tables change by one checked release at most. -/
def ReleasesAtMostOne (env : Env) (db : Database) (db' : Database) : Prop :=
  db' = db ∨ ∃ request outcome, pruneQuotaPayloadTx env db request = .ok (db', outcome)

/-- What a turn keeps, whatever it answers. -/
structure TurnFrame (env : Env) (db : Database) (r : RetentionIndex) (revision : ℕ) (turn : DemandTurn) :
    Prop where
  sound : DemandsSound r revision turn.demands
  db : ReleasesAtMostOne env db turn.db

variable {demands : DemandState} {plans : List (Plan × Option RostraId)}

/-- An answer without a release. -/
theorem TurnAnswer.of_other {reply : DbResult DemandStep}
    (hpruned : ∀ demand victim bytes, reply ≠ .ok (.pruned demand victim bytes))
    (hrejected : ∀ event, reply ≠ .ok (.rejected event)) (db' : Database) (demands : DemandState) :
    TurnAnswer env db s request now barred plans ⟨db', demands, reply⟩ :=
  ⟨fun d v b h => absurd h (hpruned d v b), fun e h => absurd h (hrejected e)⟩

theorem turnFrame_same (h : DemandsSound db.retention revision demands) (reply : DbResult DemandStep) :
    TurnFrame env db db.retention revision ⟨db, demands, reply⟩ := ⟨h, .inl rfl⟩

omit [Primitives] in
theorem DemandsSound.insert {r : RetentionIndex} (h : DemandsSound r revision demands) (event : EventId)
    (entry : DemandEntry) (hentry : ∀ scan, entry.scan = some scan → ScanSound r revision scan) :
    DemandsSound r revision { demands with entries := demands.entries.insert event entry } := by
  intro event' entry' hget
  rw [Table.get_insert] at hget
  split at hget
  · cases hget
    exact hentry
  · exact h event' entry' hget

/-- A walk ended with a release. -/
theorem pruneVictim_spec {victim : EventId} {id : ShortEventId} (hid : victim.toShort = id)
    {entry : IndexEntry} (hleast : LeastDue env request.generation.policy db scope now id entry)
    (hkey : entry.key < plan.2) (hmem : (plan, scope) ∈ plans)
    (hsound : DemandsSound db.retention revision demands) :
    let turn := pruneVictim env db demands request now plan.1 scope id victim
    TurnAnswer env db s request now barred plans turn ∧ TurnFrame env db db.retention revision turn := by
  unfold pruneVictim
  dsimp only
  split
  · exact ⟨.of_other (by simp) (by simp) _ _, turnFrame_same hsound _⟩
  · next db' bytes hprune =>
    split
    · exact ⟨.of_other (by simp) (by simp) _ _, turnFrame_same hsound _⟩
    · refine ⟨⟨fun d v b hreply => ?_, fun e hreply => by cases hreply⟩, hsound, .inr ⟨_, _, hprune⟩⟩
      cases hreply
      subst hid
      exact ⟨plan.2, plan.1, scope, hmem, rfl, hprune, entry, hleast, hkey⟩
  · exact ⟨.of_other (by simp) (by simp) _ _, turnFrame_same hsound _⟩

/-- A walk ended with the demand given up. -/
theorem rejectDemand_spec (hbarred : barred = false)
    (hpressure : retainedRejectionPressureTx db s plan.1 scope = .ok true)
    (hranks : RanksAbove env request.generation.policy db scope now plan.2) (hmem : (plan, scope) ∈ plans)
    (hsound : DemandsSound db.retention revision demands) :
    let turn := rejectDemand env db demands request now plan.1 scope
    TurnAnswer env db s request now barred plans turn ∧ TurnFrame env db db.retention revision turn := by
  unfold rejectDemand
  dsimp only
  split
  · exact ⟨.of_other (by simp) (by simp) _ _, turnFrame_same hsound _⟩
  · next db' hprune =>
    refine ⟨⟨fun d v b hreply => (by cases hreply), fun e hreply => ?_⟩, hsound, .inr ⟨_, _, hprune⟩⟩
    cases hreply
    exact ⟨hbarred, plan.2, plan.1, scope, hmem, rfl, hprune, hpressure, hranks⟩
  · exact ⟨.of_other (by simp) (by simp) _ _, turnFrame_same hsound _⟩

variable (barred plans) in
/-- **The plans, one after the other.** The induction is on the plans that are left; those before have ended
without a decision. -/
theorem walkPlans_spec (hi : IndexReady D env db request.generation)
    (hready : retentionSelectionReadyTx db.retention request.generation now = true) :
    ∀ (rest : List (Plan × Option RostraId)) {demands : DemandState} (c : TurnCounters),
      (∀ p ∈ rest, p ∈ plans) → DemandsSound db.retention revision demands →
      let turn := walkPlans env db s request now revision barred demands c rest
      TurnAnswer env db s request now barred plans turn ∧ TurnFrame env db db.retention revision turn
  | [], demands, c, _, hsound => by
    unfold walkPlans
    refine ⟨.of_other ?_ ?_ _ _, turnFrame_same hsound _⟩
    · split <;> simp
    · split <;> simp
  | (plan, scope) :: rest, demands, c, hsub, hsound => by
    unfold walkPlans
    dsimp only
    split
    · refine ⟨.of_other ?_ ?_ _ _, turnFrame_same hsound _⟩
      · split <;> simp
      · split <;> simp
    split
    · exact ⟨.of_other (by simp) (by simp) _ _, turnFrame_same hsound _⟩
    next entry hentry =>
    obtain ⟨hscan, hend⟩ := walkPlan_spec scope plan barred (s := s) hi hready
      (fun scan => hsound _ entry hentry scan) { c with looks := c.looks - 1 }
    have hsound' := hsound.insert plan.1.eventId
      { entry with scan := some (walkPlan env db s request now revision barred plan scope entry.scan
        { c with looks := c.looks - 1 }).scan }
      (fun scan hscan' => by cases hscan'; exact hscan.sound)
    have hmem := hsub _ List.mem_cons_self
    split
    · exact walkPlans_spec hi hready rest _ (fun p hp => hsub p (List.mem_cons_of_mem _ hp)) hsound'
    · refine ⟨.of_other ?_ ?_ _ _, turnFrame_same hsound' _⟩
      · split <;> simp
      · split <;> simp
    · exact ⟨.of_other (by simp) (by simp) _ _, turnFrame_same hsound' _⟩
    · exact ⟨.of_other (by simp) (by simp) _ _, turnFrame_same hsound' _⟩
    · next hexit =>
      obtain ⟨hbarred, hpressure, hranks⟩ := hend.reject hexit
      exact rejectDemand_spec hbarred hpressure hranks hmem hsound'
    · next id victim hexit =>
      obtain ⟨hid, row, hleast, hkey⟩ := hend.prune id victim hexit
      exact pruneVictim_spec hid hleast hkey hmem hsound'

/-! ## 3. The plans of a turn

Which intents are pressured, and by which budget. -/

/-- The budget that blocks a payload, and the scope it is the budget of. -/
def BlockedBy (db : Database) (s : AdmissionState) (v : VerifiedEvent) (scope : Option RostraId) : Prop :=
  (payloadCapacityPauseTx db v s = .ok (some .authorCapacity) ∧ scope = some v.event.author) ∨
    (payloadCapacityPauseTx db v s = .ok (some .databaseCapacity) ∧ scope = none)

/-- **The scopes that block the plans**, each the scope of the budget that a payload does not fit. -/
theorem pressuresOf_spec : ∀ (looks : ℕ) (plans : List Plan) (looks' : ℕ) (scopes : List (Option RostraId)),
    pressuresOf db s looks plans = .ok (.blocked looks' scopes) →
      ∀ p ∈ plans.zip scopes, p.1 ∈ plans ∧ BlockedBy db s p.1.1 p.2
  | looks, [], looks', scopes, _ => by simp
  | 0, _ :: _, looks', scopes, h => by
    unfold pressuresOf at h
    cases h
  | looks + 1, (incoming, key) :: plans, looks', scopes, h => by
    -- the scope in front, and what is left
    have hcons : ∀ scope, (pressuresOf db s looks plans >>= pressuresOf.cons scope) =
        .ok (.blocked looks' scopes) →
          ∃ scopes', scopes = scope :: scopes' ∧ pressuresOf db s looks plans = .ok (.blocked looks' scopes') := by
      intro scope h
      obtain ⟨rest, hrest, hc⟩ := bind_eq_ok.mp h
      cases rest with
      | blocked l scopes' =>
        cases hc
        exact ⟨scopes', rfl, hrest⟩
      | bounded => cases hc
      | fits event => cases hc
      | notReady => cases hc
    have hstep : ∀ scope, BlockedBy db s incoming scope →
        (∃ scopes', scopes = scope :: scopes' ∧ pressuresOf db s looks plans = .ok (.blocked looks' scopes')) →
        ∀ p ∈ ((incoming, key) :: plans).zip scopes, p.1 ∈ (incoming, key) :: plans ∧ BlockedBy db s p.1.1 p.2 := by
      rintro scope hblocked ⟨scopes', rfl, hrest⟩ p hp
      rw [List.zip_cons_cons] at hp
      rcases List.mem_cons.mp hp with rfl | hp
      · exact ⟨List.mem_cons_self, hblocked⟩
      · obtain ⟨hmem, hb⟩ := pressuresOf_spec looks plans looks' scopes' hrest p hp
        exact ⟨List.mem_cons_of_mem _ hmem, hb⟩
    unfold pressuresOf at h
    obtain ⟨pause, hpause, h⟩ := bind_eq_ok.mp h
    split at h
    · cases h
    · exact hstep _ (.inl ⟨hpause, rfl⟩) (hcons _ h)
    · exact hstep _ (.inr ⟨hpause, rfl⟩) (hcons _ h)
    · cases h

/-- **The intents are sorted** into plans and stale ones. A stale one is dropped by the turn, without a look at the
index. -/
theorem collectPlans_spec (generation : RetentionGeneration) : ∀ (looks : ℕ) (ids : List EventId) (looks' : ℕ)
    (stale : List EventId) (plans : List Plan),
    collectPlans env db s generation now looks ids = some (looks', stale, plans) →
      (∀ plan ∈ plans, ∃ id ∈ ids, s.events.get id = none ∧
        demandEventTx env db id generation now = some plan) ∧
      ∀ id ∈ stale, (s.events.get id).isSome ∨ demandEventTx env db id generation now = none
  | looks, [], looks', stale, plans, h => by
    unfold collectPlans at h
    cases h
    exact ⟨by simp, by simp⟩
  | 0, _ :: _, looks', stale, plans, h => by
    unfold collectPlans at h
    cases h
  | looks + 1, id :: ids, looks', stale, plans, h => by
    unfold collectPlans at h
    obtain ⟨⟨l, st, ps⟩, hrest, h⟩ := Option.bind_eq_some_iff.mp h
    obtain ⟨hplans, hstale⟩ := collectPlans_spec generation looks ids l st ps hrest
    have hmore : ∀ plan ∈ ps, ∃ id' ∈ id :: ids, s.events.get id' = none ∧
        demandEventTx env db id' generation now = some plan := by
      intro plan hplan
      obtain ⟨id', hid', hspec⟩ := hplans plan hplan
      exact ⟨id', List.mem_cons_of_mem _ hid', hspec⟩
    dsimp only at h
    split at h
    · next hreserved =>
      cases h
      refine ⟨hmore, fun id' hid' => ?_⟩
      rcases List.mem_cons.mp hid' with rfl | hid'
      · exact .inl hreserved
      · exact hstale id' hid'
    next hfree =>
    split at h
    · next hnone =>
      cases h
      refine ⟨hmore, fun id' hid' => ?_⟩
      rcases List.mem_cons.mp hid' with rfl | hid'
      · exact .inr hnone
      · exact hstale id' hid'
    · next plan hplan =>
      cases h
      refine ⟨fun plan' hplan' => ?_, hstale⟩
      rcases List.mem_cons.mp hplan' with rfl | hplan'
      · exact ⟨id, List.mem_cons_self, by simpa using hfree, hplan⟩
      · exact hmore plan' hplan'

/-- A plan is about the event of its intent. -/
theorem demandEventTx_id {generation : RetentionGeneration} {id : EventId} {v : VerifiedEvent} {key : ℕ}
    (h : demandEventTx env db id generation now = some (v, key)) : v.eventId = id := by
  unfold demandEventTx at h
  split at h
  · cases h
  split at h
  · cases h
  dsimp only at h
  split at h
  · cases h
  next hgate =>
  split at h
  · cases h
  split at h
  · cases h
  · cases h
    by_contra hne
    exact hgate (.inl hne)

/-! ## 4. The whole turn

Expired intents are dropped first, then the plans are collected and walked. -/

/-- An intent that has not expired. -/
def LiveDemand (d : DemandState) (now : Timestamp) (event : EventId) (entry : DemandEntry) : Prop :=
  d.entries.get event = some entry ∧ entry.created ≤ now ∧ now < entry.expires

omit [Primitives] in
theorem retain_get {d : DemandState} {q : EventId → DemandEntry → Bool} {event : EventId} {entry : DemandEntry} :
    (d.retain q).entries.get event = some entry ↔ d.entries.get event = some entry ∧ q event entry = true := by
  rw [DemandState.retain, Table.get_retain]
  cases h : d.entries.get event with
  | none => simp
  | some e =>
    simp only [Option.any_some]
    constructor
    · intro hq
      split at hq
      · next hpass =>
        cases hq
        exact ⟨rfl, hpass⟩
      · cases hq
    · rintro ⟨heq, hpass⟩
      cases heq
      rw [if_pos hpass]

omit [Primitives] in
theorem expire_get {d : DemandState} {event : EventId} {entry : DemandEntry} :
    (d.expire now).entries.get event = some entry ↔ LiveDemand d now event entry := by
  rw [DemandState.expire, retain_get, LiveDemand]
  simp

omit [Primitives] in
theorem DemandsSound.retain {r : RetentionIndex} {d : DemandState} (h : DemandsSound r revision d)
    (q : EventId → DemandEntry → Bool) : DemandsSound r revision (d.retain q) :=
  fun event entry hget => h event entry (retain_get.mp hget).1

omit [Primitives] in
theorem demandsSound_clear (r : RetentionIndex) (revision : ℕ) (d : DemandState) :
    DemandsSound r revision d.clear := by
  intro event entry hget
  simp [DemandState.clear] at hget

omit [Primitives] in
theorem keepActive_entries (d : DemandState) : d.keepActive.entries = d.entries := by
  unfold DemandState.keepActive
  split <;> rfl

omit [Primitives] in
/-- A plan whose intent lives stays active. -/
theorem keepActive_owned {d : DemandState} {event : EventId} {entry : DemandEntry}
    (h : d.active = some (event, entry.id)) (hget : d.entries.get event = some entry) :
    d.keepActive.active = some (event, entry.id) := by
  unfold DemandState.keepActive
  rw [h, Option.any_some, hget]
  simp [h]

/-- **A demand that waits for room**: alive, without a lease, of this rank, and blocked by this scope. -/
structure Contended (env : Env) (db : Database) (l : AdmissionLedger) (generation : RetentionGeneration)
    (now : Timestamp) (event : EventId) (key : ℕ) (scope : Option RostraId) : Prop where
  live : ∃ entry, LiveDemand l.demands now event entry
  unreserved : l.state.events.get event = none
  ranked : ∃ v, demandEventTx env db event generation now = some (v, key) ∧ BlockedBy db l.state v scope

/-- A demand that eviction was started for, and that still waits. -/
structure OwnsPlan (env : Env) (db : Database) (l : AdmissionLedger) (generation : RetentionGeneration)
    (now : Timestamp) (event : EventId) : Prop where
  live : ∃ entry, LiveDemand l.demands now event entry ∧ l.demands.active = some (event, entry.id)
  unreserved : l.state.events.get event = none
  ranked : ∃ plan, demandEventTx env db event generation now = some plan

/-- **A victim was released for a demand**: what the answer of a turn says about the state in which the turn was
made. -/
structure Preempted (env : Env) (db : Database) (l : AdmissionLedger) (request : DemandRequest)
    (now : Timestamp) (demand victim : EventId) (bytes : ℕ) (db' : Database) : Prop where
  found : ∃ key scope entry, Contended env db l request.generation now demand key scope ∧
    LeastDue env request.generation.policy db scope now victim.toShort entry ∧ entry.key < key ∧
    pruneQuotaPayloadTx env db (quotaRequest request scope .processed victim.toShort now) =
      .ok (db', .pruned bytes)
  alone : ∀ other, OwnsPlan env db l request.generation now other → other = demand

/-- **A demand was given up**: every payload of its scope ranks above it, and it is pruned itself. -/
structure GivenUp (env : Env) (db : Database) (l : AdmissionLedger) (request : DemandRequest)
    (now : Timestamp) (event : EventId) (db' : Database) : Prop where
  found : ∃ key scope v, Contended env db l request.generation now event key scope ∧ v.eventId = event ∧
    RanksAbove env request.generation.policy db scope now key ∧
    retainedRejectionPressureTx db l.state v scope = .ok true ∧
    pruneQuotaPayloadTx env db (quotaRequest request scope .missing v.id now) = .ok (db', .pruned 0)
  alone : ∀ other, ¬OwnsPlan env db l request.generation now other

/-- What is concluded about a turn. -/
structure TurnSpec (env : Env) (db : Database) (l : AdmissionLedger) (request : DemandRequest)
    (now : Timestamp) (turn : DemandTurn) : Prop where
  pruned : ∀ demand victim bytes, turn.reply = .ok (.pruned demand victim bytes) →
    Preempted env db l request now demand victim bytes turn.db
  rejected : ∀ event, turn.reply = .ok (.rejected event) → GivenUp env db l request now event turn.db
  frame : TurnFrame env db db.retention l.retentionRevision turn

variable {l : AdmissionLedger} {d : DemandState}

theorem TurnSpec.of_other {reply : DbResult DemandStep}
    (hsound : DemandsSound db.retention l.retentionRevision d)
    (hpruned : ∀ demand victim bytes, reply ≠ .ok (.pruned demand victim bytes))
    (hrejected : ∀ event, reply ≠ .ok (.rejected event)) :
    TurnSpec env db l request now ⟨db, d, reply⟩ :=
  ⟨fun d v b h => absurd h (hpruned d v b), fun e h => absurd h (hrejected e), turnFrame_same hsound _⟩

theorem mem_rankedPlans {plans : List Plan} {plan : Plan} (h : plan ∈ rankedPlans d plans) :
    plan ∈ plans ∧ ∀ active id, d.active = some (active, id) → plan.1.eventId = active := by
  unfold rankedPlans at h
  dsimp only at h
  split at h
  · next active id hactive =>
    obtain ⟨hmem, heq⟩ := List.mem_filter.mp h
    refine ⟨List.mem_mergeSort.mp hmem, fun a i ha => ?_⟩
    cases hactive.symm.trans ha
    simpa using heq
  · next hnone => exact ⟨List.mem_mergeSort.mp h, fun a i ha => by rw [hnone] at ha; cases ha⟩

/-- **The part of the turn that looks at the plans**, when their order and their scopes are known. -/
theorem preemptPlans_spec (hi : IndexReady D env db request.generation)
    (hready : retentionSelectionReadyTx db.retention request.generation now = true)
    (hsound : DemandsSound db.retention l.retentionRevision d) {looks : ℕ} {plans : List Plan}
    (hplans : ∀ plan ∈ plans, (∃ entry, LiveDemand l.demands now plan.1.eventId entry) ∧
      l.state.events.get plan.1.eventId = none ∧
      demandEventTx env db plan.1.eventId request.generation now = some plan)
    (howned : ∀ other, OwnsPlan env db l request.generation now other →
      ∃ entry, d.entries.get other = some entry ∧ d.active = some (other, entry.id)) :
    TurnSpec env db l request now (preemptPlans env db l request now d looks plans) := by
  have hsound' : DemandsSound db.retention l.retentionRevision d.keepActive := by
    intro event entry hget
    rw [keepActive_entries] at hget
    exact hsound event entry hget
  have howned' : ∀ other, OwnsPlan env db l request.generation now other →
      ∃ id, d.keepActive.active = some (other, id) := by
    intro other hother
    obtain ⟨entry, hget, hactive⟩ := howned other hother
    exact ⟨_, keepActive_owned hactive hget⟩
  unfold preemptPlans
  dsimp only
  generalize hchosen : rankedPlans d.keepActive plans = chosen
  have hsub : ∀ plan ∈ chosen, plan ∈ plans := fun plan hplan => (mem_rankedPlans (hchosen ▸ hplan)).1
  have honly : ∀ active id, d.keepActive.active = some (active, id) → ∀ plan ∈ chosen, plan.1.eventId = active :=
    fun active id h plan hplan => (mem_rankedPlans (hchosen ▸ hplan)).2 active id h
  split
  · exact .of_other hsound' (by simp) (by simp)
  · exact .of_other hsound' (by simp) (by simp)
  · exact .of_other hsound' (by simp) (by simp)
  · exact .of_other hsound' (by simp) (by simp)
  next looks' scopes hpressures =>
  split
  · exact .of_other hsound' (by simp) (by simp)
  next retryAt hretry =>
  have hblocked := pressuresOf_spec looks chosen looks' scopes hpressures
  obtain ⟨hanswer, hframe⟩ := walkPlans_spec d.keepActive.active.isSome (chosen.zip scopes)
    (s := l.state) hi hready (chosen.zip scopes)
    { looks := looks', remaining := request.scanLimit, retryAt := retryAt } (fun p hp => hp) hsound'
  have hcontended : ∀ v key scope, ((v, key), scope) ∈ chosen.zip scopes →
      Contended env db l request.generation now v.eventId key scope := by
    intro v key scope hmem
    obtain ⟨hin, hb⟩ := hblocked _ hmem
    obtain ⟨hlive, hfree, hevent⟩ := hplans _ (hsub _ hin)
    exact ⟨hlive, hfree, v, hevent, hb⟩
  refine ⟨fun demand victim bytes hreply => ?_, fun event hreply => ?_, hframe⟩
  · obtain ⟨key, v, scope, hmem, rfl, hprune, entry, hleast, hkey⟩ := hanswer.pruned demand victim bytes hreply
    refine ⟨⟨key, scope, entry, hcontended v key scope hmem, hleast, hkey, hprune⟩, fun other hother => ?_⟩
    obtain ⟨id, hactive⟩ := howned' other hother
    exact (honly other id hactive (v, key) (hblocked _ hmem).1).symm
  · obtain ⟨hbarred, key, v, scope, hmem, rfl, hprune, hpressure, hranks⟩ := hanswer.rejected event hreply
    refine ⟨⟨key, scope, v, hcontended v key scope hmem, rfl, hranks, hpressure, hprune⟩, fun other hother => ?_⟩
    obtain ⟨id, hactive⟩ := howned' other hother
    rw [hactive] at hbarred
    cases hbarred

/-- **One turn of preemption**, with frontiers left by earlier ones. Nothing is assumed about the intents but that
their frontiers are sound. -/
theorem preempt_spec (hk : KeyedBy D db.ev) (hx : Indexed env db db.retention)
    (hsound : DemandsSound db.retention l.retentionRevision l.demands) (request : DemandRequest)
    (now : Timestamp) : TurnSpec env db l request now (preemptPayloadDemandBoundWith env db l request now) := by
  have hexpired : DemandsSound db.retention l.retentionRevision (l.demands.expire now) := hsound.retain _
  unfold preemptPayloadDemandBoundWith
  dsimp only
  split
  · exact .of_other hsound (by simp) (by simp)
  split
  · exact .of_other hexpired (by simp) (by simp)
  split
  · exact .of_other hexpired (by simp) (by simp)
  next hselect =>
  split
  · exact .of_other hexpired (by simp) (by simp)
  split
  · exact .of_other (demandsSound_clear _ _ _) (by simp) (by simp)
  split
  · exact .of_other hexpired (by simp) (by simp)
  next looks stale plans hcollect =>
  obtain ⟨hplans, hstale⟩ := collectPlans_spec request.generation _ _ _ _ _ hcollect
  have hkept := hexpired.retain fun event _ => decide (event ∉ stale)
  split
  · refine .of_other ?_ (by simp) (by simp)
    exact hkept
  have hready : retentionSelectionReadyTx db.retention request.generation now = true := by
    simpa using (not_or.mp hselect).1
  have hi : IndexReady D env db request.generation := ⟨hk, hx, selectionReady_state hready⟩
  refine preemptPlans_spec hi hready hkept (fun plan hplan => ?_) fun other hother => ?_
  · obtain ⟨id, hid, hfree, hevent⟩ := hplans plan hplan
    have heq := demandEventTx_id hevent
    obtain ⟨entry, hentry⟩ := Table.mem_keys.mp (Table.mem_of_mem_firstKeys _ _ hid)
    rw [heq]
    exact ⟨⟨entry, expire_get.mp hentry⟩, hfree, hevent⟩
  · obtain ⟨⟨entry, hlive, hactive⟩, hfree, plan, hplan⟩ := hother
    refine ⟨entry, retain_get.mpr ⟨expire_get.mpr hlive, ?_⟩, hactive⟩
    simp only [decide_eq_true_eq]
    intro hmem
    rcases hstale other hmem with h | h
    · rw [hfree] at h
      cases h
    · rw [hplan] at h
      cases h

end Rostra.Db
