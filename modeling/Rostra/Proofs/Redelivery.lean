/-
# Delivering again

An envelope that is stored, and a payload whose event no longer awaits it, are recognised from the
tables alone: every reducer is entered again, finds its work done, and the brackets around it cancel
out (`payloadAfterTx_same`).  What can still be written is listed once, in `deliver_again`:

* the pair of lineage rows that the payload of a deleted edit stands for (`resupply`), which is the
  same pair every time;
* the collection queue and the retention index, which are work lists of other jobs.

That a payload was ingested before is a statement about the run.  It implies that its event is not
`Missing`, then and ever after (`payloadIngested_settled`).

The network delivers again whenever it likes, and a client that lost an answer repeats its call. Deliveries are
repeated here in any number, and the runs in between are arbitrary.
-/
import Rostra.Proofs.Accounting
import Rostra.Proofs.History
import Rostra.Proofs.Queue

namespace Rostra.Db

open Rostra Outcome

/-! ## 1. Registered identities

The first thing an envelope does is to register its author, and a repeated one must not fail at that. -/

/-- The author of every stored header is registered. -/
def Registered (t : EventTables) : Prop :=
  ∀ id e, t.events.get id = some e → t.idsFull.get e.author.split.1 = some e.author.split.2

theorem registered_empty : Registered {} := by
  intro id e he
  simp at he

theorem Registered.congr {t t' : EventTables} (h : Registered t) (hev : t'.events = t.events)
    (hids : t'.idsFull = t.idsFull) : Registered t' := by
  intro id e he
  rw [hev] at he
  rw [hids]
  exact h id e he

/-- Registration keeps the rows that are there and adds the one asked for. -/
theorem register_ok {t t' : Table ShortRostraId RestRostraId} {id : RostraId}
    (h : register t id = .ok t') :
    t'.get id.split.1 = some id.split.2 ∧ ∀ s r, t.get s = some r → t'.get s = some r := by
  unfold register at h
  cases hg : t.get id.split.1 with
  | none =>
    simp only [hg] at h
    cases h
    refine ⟨Table.get_insert_self .., fun s r hs => (Table.get_insert_of_ne _ _ ?_).trans hs⟩
    rintro rfl
    rw [hg] at hs
    cases hs
  | some existing =>
    simp only [hg] at h
    split at h
    · cases h
    · next heq =>
      cases h
      exact ⟨by rw [hg, not_not.mp heq], fun _ _ h => h⟩

theorem register_same {t : Table ShortRostraId RestRostraId} {id : RostraId}
    (h : t.get id.split.1 = some id.split.2) : register t id = .ok t := by
  simp [register, h]

theorem PruneEffect.registered {t t' : EventTables} {id : ShortEventId} (h : PruneEffect t id t')
    (hr : Registered t) : Registered t' := by
  cases h with
  | kept _ h =>
    rw [h]
    exact hr
  | pruned _ rc u h =>
    rw [h]
    exact hr.congr rfl rfl

section Redelivery

variable [Primitives]

theorem InsertEffect.registered {t : EventTables} {v : VerifiedEvent}
    {r : EventTables × InsertEventOutcome} (h : InsertEffect t v r) (hr : Registered t) :
    Registered r.1 := by
  cases h with
  | present e he hreg ht ho =>
    intro id e' he'
    rw [ht] at he'
    exact (register_ok hreg).2 _ _ (hr id e' he')
  | new hnew hreg wm isD dp rev mp h ho =>
    intro id e he
    rw [h.events, Table.get_insert] at he
    split at he
    · cases he
      exact (register_ok hreg).1
    · exact (register_ok hreg).2 _ _ (hr id e he)

/-- **Every transaction keeps the registry.** -/
theorem registered_keeps (D : Set VerifiedEvent) :
    Keeps D Anything AnythingMid Registered (fun _ => Registered) (fun _ => True) where
  insert t v _ _ _ h := (insertEventTx_effect t v).mono (fun _ hr => hr.registered h) fun _ h => h
  settle t v _ _ _ h :=
    (pruneEventContentTx_effect t v.id v.event).mono (fun _ hr => hr.registered h) fun _ h => h
  schedule t v _ _ _ _ h := by
    obtain ⟨q, hq⟩ := ensureMissingScheduledTx_effect t v.id
    rw [hq]
    exact h.congr rfl rfl
  prune t id e _ _ _ h :=
    (pruneEventContentTx_effect t id e).mono (fun _ hr => hr.registered h) fun _ h => h
  store t c b _ _ _ _ _ h := by
    refine (storeContentTx_effect _ _ b).mono (fun t' ht' => ?_) fun _ h => h
    obtain ⟨u, rfl⟩ := ht'
    exact h.congr rfl rfl
  reject t c _ _ _ _ h := by
    refine (rejectContentTx_effect _ _).mono (fun t' ht' => ?_) fun _ h => h
    obtain ⟨rc, u, rfl⟩ := ht'
    exact h.congr rfl rfl
  collect t k _ _ _ h := h.congr rfl rfl
  defer t id _ _ h := by
    obtain ⟨q, hq⟩ := ensureMissingScheduledTx_effect t id
    rw [hq]
    exact h.congr rfl rfl
  reschedule t id o n u _ _ h := by
    rcases rescheduleTx_effect t id o n u with heq | ⟨_, _, _, _, _, -, -, -, heq⟩
    · rw [heq]
      exact h
    · rw [heq]
      exact h.congr rfl rfl
  peek t _ _ h := by
    obtain ⟨q, hq⟩ := peekLoop_effect (t.eventsContentMissing.card + 1) t
    show Registered (peekLoop _ _).1
    rw [hq]
    exact h.congr rfl rfl
  other _ _ := trivial

/-- What the recognition of a repeated delivery rests on. -/
abbrev Steady (t : EventTables) : Prop := (OversizedOut t ∧ QueueExact t) ∧ Registered t

theorem steady_keeps (D : Set VerifiedEvent) :
    Keeps D Anything AnythingMid Steady
      (fun v t => (OversizedOutBut (some v.id) t ∧ QueueButFor v.id t) ∧ Registered t)
      (fun _ => (True ∧ True) ∧ True) :=
  ((oversizedOut_keeps D).and (queueExact_keeps D).anyContext).and (registered_keeps D).anyContext

omit [Primitives] in
theorem steady_empty : Steady {} := ⟨⟨oversizedOut_empty, queueExact_empty⟩, registered_empty⟩

/-! ## 2. One delivery, again

The transaction of an envelope is followed part by part, and then that of a payload. Each part meets the state that
it left. -/

/-- A stored envelope is not inserted again. -/
theorem insertEventTx_again {t : EventTables} (h : Registered t) {v : VerifiedEvent}
    (he : t.events.get v.id = some v.event) : insertEventTx t v = .ok (t, .alreadyPresent) := by
  unfold insertEventTx
  rw [register_same (h _ _ he)]
  simp [he, bind, Except.bind, pure, Except.pure]

/-- Its state is settled already. -/
theorem settleContentTx_again {t : EventTables} (h : OversizedOut t) {v : VerifiedEvent}
    (he : t.events.get v.id = some v.event) :
    Ensures (settleContentTx t v .alreadyPresent) (fun r => r.1 = t) (fun _ => True) := by
  unfold settleContentTx
  split
  · exact rfl
  split
  · next hlen =>
    rw [pruneEventContentTx_terminal (h _ _ (by simp) he hlen)]
    exact rfl
  · exact rfl

omit [Primitives] in
/-- Its row is in the schedule. -/
theorem ensureMissingScheduledTx_again {t : EventTables} (h : QueueExact t) (id : ShortEventId) :
    ensureMissingScheduledTx t id = t := by
  unfold ensureMissingScheduledTx
  split
  · next last count n hs =>
    rw [Finset.insert_eq_self.mpr (h.2 n id (by simp) (slot?_eq_some.mpr ⟨last, count, hs⟩))]
  · rfl

omit [Primitives] in
theorem Rebooked.ev {db db' : Database} (h : Rebooked db db') : db'.ev = db.ev := by rw [h.eq]

omit [Primitives] in
theorem Rebooked.trans {db db₁ db₂ : Database} (h : Rebooked db db₁) (h' : Rebooked db₁ db₂) :
    Rebooked db db₂ := by
  have hhashes : db₁.accounting.quotaHashes = db.accounting.quotaHashes := by rw [h.eq]
  refine ⟨?_, h.queue.trans h'.queue, h'.owned.trans ?_, fun hnone => ?_⟩
  · rw [h'.eq, h.eq]
  · rw [hhashes]
    exact Finset.union_subset h.owned Finset.subset_union_right
  · have h₁ := h.idle hnone
    exact (h'.idle (by rw [h₁]; exact hnone)).trans h₁

omit [Primitives] in
theorem Rebooked.withProj {db db' : Database} (h : Rebooked db db') (p : Projections) :
    Rebooked { db with proj := p } { db' with proj := p } :=
  ⟨by rw [h.eq], h.queue, h.owned, h.idle⟩

omit [Primitives] in
theorem Rebooked.refl (db : Database) : Rebooked db db :=
  ⟨rfl, Finset.Subset.refl _, Finset.subset_union_left, fun _ => rfl⟩

omit [Primitives] in
theorem Guarded.rebooked {env : Env} {db db' : Database} (hg : Guarded env db)
    (h : Rebooked db db') : Guarded env db' := by
  refine hg.mono (by rw [h.ev]) ?_ ?_ ?_
  · rw [h.eq]
    exact .of_eq rfl rfl
  · rw [h.eq]
    rfl
  · rw [h.eq]
    exact fun h => h

theorem processEventTx_again {env : Env} {ctx : TxCtx} {db : Database} (hs : Steady db.ev)
    (hg : Guarded env db) {v : VerifiedEvent} (he : db.ev.events.get v.id = some v.event)
    (now : Timestamp) (source : EventReceivedSource) :
    Ensures (processEventTx env ctx db v now source) (fun r => Rebooked db r.1) (fun _ => True) := by
  have hinner : Ensures (processEventInnerTx env ctx db v now source) (fun r => r.1 = db)
      (fun _ => True) := by
    unfold processEventInnerTx
    rw [insertEventTx_again hs.2 he]
    refine (settleContentTx_again hs.1.1 he).bind fun ⟨t, state⟩ ht => ?_
    obtain rfl : t = db.ev := ht
    exact rfl
  unfold processEventTx
  refine Ensures.bind ((ensures_self _).mono (fun _ h => h) fun _ _ => trivial) fun before hb => ?_
  refine hinner.bind fun r hr => ?_
  obtain ⟨db₁, result⟩ := r
  obtain rfl : db₁ = db := hr
  refine (payloadAfterTx_same hg he hb).bind fun db' hdb' => ?_
  show Rebooked _ { db' with ev := ensureMissingScheduledTx db'.ev v.id }
  rw [hdb'.ev, ensureMissingScheduledTx_again hs.1.2]
  exact ⟨by rw [hdb'.eq], hdb'.queue, hdb'.owned, hdb'.idle⟩

/-- The projections after a payload that is not awaited: lineage for a deleted edit, else nothing. -/
def supplied (t : EventTables) (p : Projections) (c : EventContent) : Projections :=
  if contentClass t c.event.id = .deleted then withLineage p c else p

theorem withLineage_none {c : EventContent} (h : lineageOf c = none) (p : Projections) :
    withLineage p c = p := by
  rw [withLineage, h]

/-- Nothing can be read from an absent or an oversized payload. -/
theorem lineageOf_none {c : EventContent}
    (h : MAX_CONTENT_LEN ≤ c.event.event.contentLen ∨ c.content = none) : lineageOf c = none := by
  unfold lineageOf
  split
  · next hk =>
    rcases h with h | h
    · omega
    · simp [EventContent.socialPost?, h]
  · rfl

theorem PayloadEffect.supplied {env : Env} {ctx : TxCtx} {db db' : Database}
    {c : VerifiedEventContent} {now : Timestamp} (h : PayloadEffect env ctx db c now db')
    (hm : contentClass db.ev c.event.id ≠ .missing) :
    db' = { db with proj := supplied db.ev db.proj c.toEventContent } := by
  cases h with
  | idle h =>
    have hsame : Db.supplied db.ev db.proj c.toEventContent = db.proj := by
      unfold Db.supplied
      split
      · next hd =>
        rcases h with h | h | ⟨-, h⟩
        · exact withLineage_none (lineageOf_none (.inl h)) _
        · exact withLineage_none (lineageOf_none (.inr h)) _
        · exact absurd hd h
      · rfl
    rw [hsame]
  | processed b hb hm' _ p hp u => exact absurd hm' hm
  | rejected b hb hm' _ hp rc u => exact absurd hm' hm
  | deleted b hb hd hlen => rw [Db.supplied, if_pos hd]

theorem processEventContentTx_again {D : Set VerifiedEvent} {env : Env} {ctx : TxCtx} {db : Database}
    (hgr : Grounded D db.ev) (hg : Guarded env db) {c : VerifiedEventContent}
    (hc : db.ev.events.get c.event.id = some c.event.event)
    (hm : contentClass db.ev c.event.id ≠ .missing) (now : Timestamp) (ledger : AdmissionState)
    (buffer : Option PayloadBuffer) :
    Ensures (processEventContentTx env ctx db c now ledger buffer)
      (Rebooked { db with proj := supplied db.ev db.proj c.toEventContent }) (fun _ => True) := by
  unfold processEventContentTx
  refine Ensures.bind ((ensures_self _).mono (fun _ h => h) fun _ _ => trivial) fun before hb => ?_
  refine (processEventContentInnerTx_effect hgr hc now ledger buffer).bind fun db₁ h₁ => ?_
  rw [h₁.supplied hm]
  exact payloadAfterTx_same (hg.congr rfl rfl) hc hb

/-- What a repeated delivery adds to the projections. -/
def resupply (t : EventTables) (p : Projections) : Delivery → Projections
  | .envelope _ _ _ => p
  | .payload c _ _ => supplied t p c.toEventContent

/-- Has this delivery nothing left to do but to supply lineage? -/
def Known (t : EventTables) : Delivery → Prop
  | .envelope v _ _ => t.events.get v.id = some v.event
  | .payload c _ _ => t.events.get c.event.id = some c.event.event ∧
      contentClass t c.event.id ≠ .missing

/-- **One delivery, again.** -/
theorem deliver_again {D : Set VerifiedEvent} {env : Env} {db : Database} (hgr : Grounded D db.ev)
    (hs : Steady db.ev) (hg : Guarded env db) {d : Delivery} (hd : Known db.ev d) :
    Ensures (deliver env db d) (Rebooked { db with proj := resupply db.ev db.proj d })
      (fun _ => True) := by
  cases d with
  | envelope v now source => exact (processEventTx_again hs hg hd now source).bind fun r hr => hr
  | payload c now ledger =>
    refine (processEventTx_again hs hg hd.1 now _).bind fun r hr => ?_
    have hev := hr.ev
    have hproj : r.1.proj = db.proj := by rw [hr.eq]
    refine (processEventContentTx_again (by rw [hev]; exact hgr) (hg.rebooked hr) (by rw [hev]; exact hd.1)
      (by rw [hev]; exact hd.2) now ledger none).mono (fun db' hdb' => ?_) fun _ h => h
    have hsupplied : supplied r.1.ev r.1.proj c.toEventContent =
        resupply db.ev db.proj (.payload c now ledger) := by
      rw [hev, hproj]
      rfl
    rw [hsupplied] at hdb'
    exact (hr.withProj _).trans hdb'

/-! ## 3. What was ingested before

A payload that was not ingested may be anything, but one that was has settled its event; and what is settled is not
awaited again. -/

/-- A committed transaction of the run has delivered this payload. -/
def PayloadIngested (env : Env) (ops : List Op) (c : VerifiedEventContent) : Prop :=
  ∃ pre ds post now ledger db, ops = pre ++ .ingest ds :: post ∧ .payload c now ledger ∈ ds ∧
    step env (reached env pre) (.ingest ds) = .ok db

omit [Primitives] in
/-- Content that is not awaited will not be. -/
theorem Later.settled {t t' : EventTables} (h : Later t t') {id : ShortEventId} {e : Event}
    (he : t.events.get id = some e) (hm : contentClass t id ≠ .missing) :
    contentClass t' id ≠ .missing := by
  intro hm'
  obtain ⟨n', hn'⟩ := Option.isSome_iff_exists.mp (slot?_isSome.mpr hm')
  obtain ⟨n, hn, -⟩ := h.missing id e n' he hn'
  exact hm (slot?_isSome.mp (Option.isSome_iff_exists.mpr ⟨n, hn⟩))

/-- After a payload its event is stored and awaits nothing. -/
theorem deliver_payload_settled {D : Set VerifiedEvent} (hcf : CollisionFree D) {env : Env}
    {db : Database} (hI : OnGround D Steady db.ev) {c : VerifiedEventContent} (hc : c.event ∈ D)
    (now : Timestamp) (ledger : AdmissionState) :
    Ensures (deliver env db (.payload c now ledger))
      (fun db' => db'.ev.events.get c.event.id = some c.event.event ∧
        contentClass db'.ev c.event.id ≠ .missing) (fun _ => True) := by
  refine (((processEventTx_keeps (steady_keeps D) hcf hI hc now _).and
    (processEventTx_effect env {} db c.event now _)).mono (fun _ h => h)
    fun _ _ => trivial).bind fun r ⟨hI₁, heff⟩ => ?_
  have hst := heff.stored hI.1.keyed hcf hc
  refine (processEventContentTx_effect hI₁.1 hst now ledger none).mono (fun db' hdb' => ?_)
    fun _ h => h
  obtain ⟨db₂, hpay, a, x, rfl⟩ := hdb'
  refine ⟨by rw [hpay.events]; exact hst, ?_⟩
  by_cases hm : contentClass r.1.ev c.event.id = .missing
  · have hlen : c.event.event.contentLen < MAX_CONTENT_LEN := by
      by_contra hlen
      have := hI₁.2.1.1 _ _ (by simp) hst (not_lt.mp hlen)
      rw [hm] at this
      cases this
    rcases hpay.class_of_missing hm (hI₁.1.nonempty _ hm _ hst) hlen with h | h
    · show contentClass db₂.ev _ ≠ _
      rw [h]
      decide
    · show contentClass db₂.ev _ ≠ _
      rw [h]
      decide
  · rw [hpay.supplied hm]
    exact hm

/-- **A payload that was ingested is no longer awaited**, in the state it left and in every later
one. -/
theorem payloadIngested_settled {D : Set VerifiedEvent} (hcf : CollisionFree D) {env : Env}
    {ops : List Op} (hD : DeliveredFrom D ops) {c : VerifiedEventContent}
    (h : PayloadIngested env ops c) :
    (reached env ops).ev.events.get c.event.id = some c.event.event ∧
      contentClass (reached env ops).ev c.event.id ≠ .missing := by
  obtain ⟨pre, ds, post, now, ledger, db₃, rfl, hmem, hok⟩ := h
  obtain ⟨before, after, rfl⟩ := List.append_of_mem hmem
  have hall : ∀ d ∈ before ++ .payload c now ledger :: after, d.event ∈ D := fun d hd =>
    hD (.ingest (before ++ .payload c now ledger :: after)) (by simp) _ (List.mem_map_of_mem hd)
  -- the transaction up to the payload, the payload, and the rest
  have h₀ := reached_keeps env (steady_keeps D) hcf steady_empty pre fun o ho =>
    hD o (by simp [ho])
  obtain ⟨db₁, hok₁, hok'⟩ := bind_eq_ok.mp (by rw [step, List.foldlM_append] at hok; exact hok)
  replace hok' : (Delivery.payload c now ledger :: after).foldlM (deliver env) db₁ = .ok db₃ := hok'
  rw [List.foldlM_cons] at hok'
  obtain ⟨db₂, hok₂, hok₃⟩ := bind_eq_ok.mp hok'
  have h₁ := (Ensures.foldlM (J := fun db : Database => OnGround D Steady db.ev) before
    (reached env pre) (fun d hd db hdb => deliver_keeps env (steady_keeps D) hcf hdb d
      (hall d (by simp [hd]))) h₀).of_ok hok₁
  have h₂ := (deliver_keeps env (steady_keeps D) hcf h₁ (.payload c now ledger)
    (hall _ (by simp))).of_ok hok₂
  have hcD : c.event ∈ D := hall (.payload c now ledger) (by simp)
  have hset := (deliver_payload_settled hcf h₁ hcD now ledger).of_ok hok₂
  -- from there on everything is later
  have hground : OnGround D (Later db₂.ev) db₂.ev := ⟨h₂.1, .refl _⟩
  have h₃ := (Ensures.foldlM (J := fun db : Database => OnGround D (Later db₂.ev) db.ev) after db₂
    (fun d hd db hdb => deliver_keeps env (later_keeps D _) hcf hdb d
      (hall d (by simp [hd]))) hground).of_ok hok₃
  have hfinal : OnGround D (Later db₂.ev) (run (step env) db₃ post).ev :=
    run_invariant (J := fun db : Database => OnGround D (Later db₂.ev) db.ev) post db₃
      (fun o ho db db' hdb hok => (step_keeps (later_keeps D _) hcf hdb o
        (hD o (by simp [ho]))).of_ok hok) h₃
  have hreached : reached env (pre ++ .ingest (before ++ .payload c now ledger :: after) :: post) =
      run (step env) db₃ post := by
    rw [reached, run_append, run_cons]
    show run (step env) (commit (step env (reached env pre) _) _) post = _
    rw [hok, commit_ok]
  rw [hreached]
  exact ⟨hfinal.2.stored _ _ hset.1, hfinal.2.settled hset.1 hset.2⟩

/-! ## 4. Whole runs of repeated deliveries

Supplying lineage twice is supplying it once, so the number of repetitions does not matter. -/

/-- The delivery repeats one of the run, or supplies the payload of a deleted event. -/
def Repeats (env : Env) (ops : List Op) : Delivery → Prop
  | .envelope v _ _ => (reached env ops).ev.events.get v.id = some v.event
  | .payload c _ _ => PayloadIngested env ops c ∨
      ((reached env ops).ev.events.get c.event.id = some c.event.event ∧
        contentClass (reached env ops).ev c.event.id = .deleted)

theorem Repeats.known {D : Set VerifiedEvent} (hcf : CollisionFree D) {env : Env} {ops : List Op}
    (hD : DeliveredFrom D ops) {d : Delivery} (h : Repeats env ops d) :
    Known (reached env ops).ev d := by
  cases d with
  | envelope v now source => exact h
  | payload c now ledger =>
    rcases h with h | ⟨hst, hd⟩
    · exact payloadIngested_settled hcf hD h
    · refine ⟨hst, ?_⟩
      rw [hd]
      decide

/-- Supplying twice is supplying once. -/
theorem resupply_resupply (t : EventTables) (p : Projections) (d : Delivery) :
    resupply t (resupply t p d) d = resupply t p d := by
  cases d with
  | envelope v now source => rfl
  | payload c now ledger =>
    simp only [resupply, supplied]
    split
    · unfold withLineage
      cases lineageOf c.toEventContent with
      | none => rfl
      | some old => simp [insertSocialPostReplacementTx]
    · rfl

/-- Only the two lineage tables are supplied. -/
theorem resupply_frame (t : EventTables) (p : Projections) (d : Delivery) :
    resupply t p d = { p with
      socialPostsReplacedBy := (resupply t p d).socialPostsReplacedBy
      socialPostsReplaces := (resupply t p d).socialPostsReplaces } := by
  cases d with
  | envelope v now source => rfl
  | payload c now ledger =>
    simp only [resupply, supplied]
    split
    · unfold withLineage
      cases lineageOf c.toEventContent with
      | none => rfl
      | some old => rfl
    · rfl

/-- A repeated delivery on top of others. -/
theorem deliver_repeated {D : Set VerifiedEvent} {env : Env} {db s : Database} {p : Projections}
    (hgr : Grounded D db.ev) (hs : Steady db.ev) (hg : Guarded env db)
    (h : Rebooked { db with proj := p } s) {d : Delivery} (hd : Known db.ev d) :
    Ensures (deliver env s d) (Rebooked { db with proj := resupply db.ev p d }) (fun _ => True) := by
  have hev : s.ev = db.ev := h.ev
  have hproj : s.proj = p := by rw [h.eq]
  have hg' : Guarded env s := (show Guarded env { db with proj := p } from hg.congr rfl rfl).rebooked h
  refine (deliver_again (by rw [hev]; exact hgr) (by rw [hev]; exact hs) hg'
    (by rw [hev]; exact hd)).mono (fun s' hs' => ?_) fun _ h => h
  have hsame : resupply s.ev s.proj d = resupply db.ev p d := by rw [hev, hproj]
  rw [hsame] at hs'
  exact (h.withProj _).trans hs'

/-- **Delivery is idempotent.**  Transactions that only repeat deliveries of the run, in any number
and grouping, leave every table as it was; a payload of a deleted event adds the two lineage rows
it stands for, once.  The collection queue and the retention index are work lists and may be
refreshed. -/
theorem delivery_idempotent (env : Env) {D : Set VerifiedEvent} (hcf : CollisionFree D)
    (ops : List Op) (hD : DeliveredFrom D ops) (again : List (List Delivery))
    (hagain : ∀ ds ∈ again, ∀ d ∈ ds, Repeats env ops d) :
    let db := reached env ops
    let db' := reached env (ops ++ again.map Op.ingest)
    let repeated := (committed (step env) db (again.map Op.ingest)).flatMap Op.deliveries
    db' = { db with
        proj := repeated.foldl (resupply db.ev) db.proj
        accounting := { db.accounting with quotaGc := db'.accounting.quotaGc }
        retention := db'.retention } ∧
      ∀ p d, resupply db.ev (resupply db.ev p d) d = resupply db.ev p d ∧
        resupply db.ev p d = { p with
          socialPostsReplacedBy := (resupply db.ev p d).socialPostsReplacedBy
          socialPostsReplaces := (resupply db.ev p d).socialPostsReplaces } := by
  intro db db' repeated
  refine ⟨?_, fun p d => ⟨resupply_resupply _ p d, resupply_frame _ p d⟩⟩
  obtain ⟨hgr, hs⟩ := reached_keeps env (steady_keeps D) hcf steady_empty ops hD
  have hg := reached_guarded env ops
  have hrun := run_history (f := step env)
    (J := fun done s => Rebooked
      { db with proj := (done.flatMap Op.deliveries).foldl (resupply db.ev) db.proj } s)
    (again.map Op.ingest) [] db (fun o ho done s s' h hok => ?_) (.refl db)
  · have happend : db' = run (step env) db (again.map Op.ingest) := run_append _ _ _
    rw [happend]
    exact hrun.eq
  · obtain ⟨ds, hds, rfl⟩ := List.mem_map.mp ho
    rw [List.flatMap_append, List.flatMap_singleton]
    refine (Ensures.foldlM_history (f := deliver env) (E := fun _ => True)
      (J := fun done s => Rebooked { db with proj := done.foldl (resupply db.ev) db.proj } s)
      ds _ s (fun d hd done' s'' h'' => ?_) h).of_ok hok
    rw [List.foldl_append]
    exact deliver_repeated hgr hs hg h'' ((hagain ds hds d hd).known hcf hD)

end Redelivery

section Sample

attribute [local instance] Primitives.reference

/-- The payload of the deleted post and the deletion come twice more. -/
def sampleAgain : List (List Delivery) :=
  [[.payload samplePayload 8 {}, .envelope (.ofEvent sampleDeletion) 8 .local],
    [.payload samplePayload 9 {}]]

theorem samplePayload_ingested : PayloadIngested sampleEnv sampleRun samplePayload := by
  have hok : (step sampleEnv (reached sampleEnv []) (.ingest [.payload samplePayload 5 {}])).isOk =
      true := by decide +kernel
  cases h : step sampleEnv (reached sampleEnv []) (.ingest [.payload samplePayload 5 {}]) with
  | ok db => exact ⟨[], _, _, 5, {}, db, rfl, by simp, h⟩
  | error e =>
    rw [h] at hok
    cases hok

/-- The payload of a deleted post and its deletion are delivered twice more. -/
theorem delivery_idempotent_sampleRun :
    contentClass (reached sampleEnv sampleRun).ev samplePayload.event.id = .deleted ∧
      let db := reached sampleEnv sampleRun
      let db' := reached sampleEnv (sampleRun ++ sampleAgain.map Op.ingest)
      db' = { db with
        proj := ((committed (step sampleEnv) db (sampleAgain.map Op.ingest)).flatMap
          Op.deliveries).foldl (resupply db.ev) db.proj
        accounting := { db.accounting with quotaGc := db'.accounting.quotaGc }
        retention := db'.retention } := by
  refine ⟨by decide +kernel, (delivery_idempotent sampleEnv sampleRun_collisionFree sampleRun
    (deliveredFrom_envelopesOf sampleRun) sampleAgain ?_).1⟩
  have hdeletion : (reached sampleEnv sampleRun).ev.events.get
      (VerifiedEvent.ofEvent sampleDeletion).id = some sampleDeletion := by decide +kernel
  simp only [sampleAgain, List.mem_cons, List.not_mem_nil, or_false, forall_eq_or_imp, forall_eq]
  exact ⟨⟨.inl samplePayload_ingested, hdeletion⟩, .inl samplePayload_ingested⟩

end Sample

end Rostra.Db
