/-
# The books a reducer is bracketed by

Payload accounting is adjusted around every reducer: what the event and its auxiliary parent
contributed before is taken out, what they contribute now is put in.  Two things are shown here.

* Rows are only ever added (`Retains`), and whatever the rebuild has counted has its rows
  (`Guarded`), along every run.
* A bracket around a reducer that changed nothing writes nothing (`payloadAfterTx_same`), apart from
  the collection queue, where a quota-owned hash without references is put back, and the retention
  index, which may catch up.

Whether the sums are right is another matter (`Proofs/Books`). Here the rows are only required to be there, since a
row that is missing is what makes an adjustment fail, and since a failing adjustment would take the whole delivery
with it.
-/
import Rostra.Proofs.Effects

namespace Rostra.Db

open Rostra Outcome

/-! ## 1. Rows are only ever added

A contribution of zero keeps its row. So once an event was counted, everything that a later adjustment will look up
is found. -/

/-- No row is lost and no guard is released. -/
structure Retains (a a' : Accounting) : Prop where
  hashes : ∀ h x, a.hashes.get h = some x →
    ∃ x', a'.hashes.get h = some x' ∧ (x.protectedHistory = true → x'.protectedHistory = true)
  authors : ∀ r, (a.authors.get r).isSome → (a'.authors.get r).isSome

theorem Retains.refl (a : Accounting) : Retains a a :=
  ⟨fun _ x h => ⟨x, h, fun h => h⟩, fun _ h => h⟩

theorem Retains.trans {a a' a'' : Accounting} (h : Retains a a') (h' : Retains a' a'') :
    Retains a a'' := by
  refine ⟨fun k x hx => ?_, fun r hr => h'.authors r (h.authors r hr)⟩
  obtain ⟨x', hx', hp⟩ := h.hashes k x hx
  obtain ⟨x'', hx'', hp'⟩ := h'.hashes k x' hx'
  exact ⟨x'', hx'', fun h => hp' (hp h)⟩

theorem Retains.of_eq {a a' : Accounting} (hh : a'.hashes = a.hashes) (ha : a'.authors = a.authors) :
    Retains a a' := by
  refine ⟨fun k x hx => ⟨x, by rw [hh]; exact hx, fun h => h⟩, fun r hr => ?_⟩
  rw [ha]
  exact hr

/-- The rows a contribution is kept in. -/
structure Recorded (a : Accounting) (author : RostraId) (h : ContentHash) (isProtected : Bool) :
    Prop where
  hash : ∃ x, a.hashes.get h = some x ∧ (isProtected = true → x.protectedHistory = true)
  author : (a.authors.get author).isSome

theorem Recorded.mono {a a' : Accounting} {author : RostraId} {h : ContentHash} {isProtected : Bool}
    (hr : Recorded a author h isProtected) (h' : Retains a a') : Recorded a' author h isProtected := by
  obtain ⟨x, hx, hp⟩ := hr.hash
  obtain ⟨x', hx', hp'⟩ := h'.hashes h x hx
  exact ⟨⟨x', hx', fun h => hp' (hp h)⟩, h'.authors _ hr.author⟩

/-- **An adjustment records its contribution**, whichever way it goes. A contribution that is taken out has its
rows as well, with smaller sums in them. -/
theorem adjustContributionTx_recorded (a : Accounting) (record : AccountingRecord)
    (c : EventContribution) (add : Bool) :
    Ensures (adjustContributionTx a record c add) (fun r => Retains a r.1 ∧
      r.2.stage = record.stage ∧ Recorded r.1 c.author c.hash c.isProtected) (fun _ => True) := by
  unfold adjustContributionTx
  dsimp only
  refine (ensures_true _).bind fun references _ => (ensures_true _).bind fun author _ =>
    (ensures_true _).bind fun logical _ => ?_
  refine ⟨⟨fun k x hx => ?_, fun r hr => ?_⟩, rfl, ⟨_, Table.get_insert_self .., fun h => ?_⟩, ?_⟩
  · by_cases hk : k = c.hash
    · subst hk
      refine ⟨_, Table.get_insert_self .., fun hp => ?_⟩
      simp [hx, hp]
    · exact ⟨x, (Table.get_insert_of_ne _ _ hk).trans hx, fun h => h⟩
  · rw [Table.get_insert]
    split
    · rfl
    · exact hr
  · simp [h]
  · simp

theorem adjustOptionTx_retains (a : Accounting) (record : AccountingRecord)
    (c : Option EventContribution) (add : Bool) :
    Ensures (adjustOptionTx a record c add) (fun r => Retains a r.1 ∧ r.2.stage = record.stage ∧
      ∀ x, c = some x → Recorded r.1 x.author x.hash x.isProtected) (fun _ => True) := by
  unfold adjustOptionTx
  cases c with
  | none => exact ⟨.refl a, rfl, fun x h => by cases h⟩
  | some c =>
    refine (adjustContributionTx_recorded a record c add).mono (fun r hr => ?_) fun _ h => h
    refine ⟨hr.1, hr.2.1, fun x hx => ?_⟩
    cases hx
    exact hr.2.2

section Books

variable [Primitives]

/-- The rows a stored header is kept in. -/
abbrev Guards (env : Env) (a : Accounting) (e : Event) : Prop :=
  Recorded a e.author e.contentHash (isProtectedHeader env e)

/-- What one stored event contributes. -/
def contributionOf (env : Env) (t : EventTables) (id : ShortEventId) : Option EventContribution :=
  (t.events.get id).map fun e =>
    { author := e.author
      hash := e.contentHash
      referenced := isReferenced (t.eventsContentState.get id)
      logical := if (t.eventsContentState.get id).isNone then e.contentLen else 0
      isProtected := isProtectedHeader env e }

omit [Primitives] in
theorem contributionTx_eq (env : Env) (t : EventTables) (id : ShortEventId) :
    Ensures (contributionTx env t id) (fun c => c = contributionOf env t id ∧
      ∀ e, t.events.get id = some e → requireStoredTx t e (t.eventsContentState.get id) = .ok ())
      (fun _ => True) := by
  unfold contributionTx contributionOf
  cases he : t.events.get id with
  | none => exact ⟨rfl, fun e h => by cases h⟩
  | some e =>
    refine ((ensures_self _).mono (fun _ h => h) fun _ _ => trivial).bind fun _ hok => ?_
    refine ⟨rfl, fun e' h => ?_⟩
    cases h
    exact hok

omit [Primitives] in
theorem contributionOf_some {env : Env} {t : EventTables} {id : ShortEventId}
    {c : EventContribution} (h : contributionOf env t id = some c) :
    ∃ e, t.events.get id = some e ∧ c.author = e.author ∧ c.hash = e.contentHash ∧
      c.isProtected = isProtectedHeader env e := by
  unfold contributionOf at h
  cases he : t.events.get id with
  | none =>
    rw [he] at h
    cases h
  | some e =>
    rw [he] at h
    cases h
    exact ⟨e, rfl, rfl, rfl, rfl⟩

omit [Primitives] in
/-- The contribution of a stored event names its header. -/
theorem contributionTx_some (env : Env) {t : EventTables} {id : ShortEventId} {e : Event}
    (he : t.events.get id = some e) :
    Ensures (contributionTx env t id) (fun c => ∃ x, c = some x ∧ x.author = e.author ∧
      x.hash = e.contentHash ∧ x.isProtected = isProtectedHeader env e) (fun _ => True) := by
  refine (contributionTx_eq env t id).mono (fun c hc => ?_) fun _ h => h
  rw [hc.1, contributionOf, he]
  exact ⟨_, rfl, rfl, rfl, rfl⟩

/-- One event of the snapshot: counted means recorded. -/
theorem afterEventTx_retains (env : Env) (db : Database) (s : AfterScan)
    (item : ShortEventId × Option EventContribution) :
    Ensures (afterEventTx env db s item) (fun s' => Retains s.accounting s'.accounting ∧
      s'.record.stage = s.record.stage ∧ (eventCounted s.record.stage item.1 = true →
        ∀ e, db.ev.events.get item.1 = some e → Guards env s'.accounting e)) (fun _ => True) := by
  unfold afterEventTx
  refine (ensures_true _).bind fun retention _ => ?_
  split
  · refine Ensures.bind ((ensures_self _).mono (fun _ h => h) fun _ _ => trivial) fun new hnew => ?_
    refine (adjustOptionTx_retains _ _ _ _).bind fun r hr => ?_
    refine (adjustOptionTx_retains _ _ _ _).bind fun r' hr' => ?_
    refine ⟨hr.1.trans hr'.1, hr'.2.1.trans hr.2.1, fun _ e he => ?_⟩
    obtain ⟨x, rfl, ha, hh, hp⟩ := (contributionTx_some env he).of_ok hnew
    have hrec := hr'.2.2 x rfl
    rw [ha, hh, hp] at hrec
    exact hrec
  · next hno => exact ⟨.refl _, rfl, fun h => absurd h hno⟩

omit [Primitives] in
theorem afterHashTx_same (t : EventTables) (s : Accounting × AccountingRecord)
    (item : ContentHash × ℕ) :
    Ensures (afterHashTx t s item) (fun s' => s'.1 = { s.1 with quotaGc := s'.1.quotaGc } ∧
      s.1.quotaGc ⊆ s'.1.quotaGc ∧ s'.1.quotaGc ⊆ s.1.quotaGc ∪ s.1.quotaHashes ∧
      s'.2.stage = s.2.stage) (fun _ => True) := by
  unfold afterHashTx
  dsimp only
  refine (ensures_true _).bind fun unique _ => (ensures_true _).bind fun _ _ => ?_
  split
  · next hq =>
    refine ⟨rfl, Finset.subset_insert .., fun k hk => ?_, rfl⟩
    rcases Finset.mem_insert.mp hk with rfl | hk
    · exact Finset.mem_union_right _ hq.1
    · exact Finset.mem_union_left _ hk
  · exact ⟨rfl, Finset.Subset.refl _, Finset.subset_union_left, rfl⟩

/-- The identifiers of a snapshot. -/
theorem payloadBeforeTx_ids (env : Env) (t : EventTables) (v : VerifiedEvent) :
    Ensures (payloadBeforeTx env t v) (fun before => before.events.map Prod.fst = affectedIds v ∧
      ∀ item ∈ before.events, contributionTx env t item.1 = .ok item.2) (fun _ => True) := by
  unfold payloadBeforeTx
  have hids : ∀ ids : List ShortEventId, Ensures (ids.mapM fun id => do
      let old ← contributionTx env t id
      pure (id, old)) (fun events => events.map Prod.fst = ids ∧
        ∀ item ∈ events, contributionTx env t item.1 = .ok item.2) (fun _ => True) := by
    intro ids
    induction ids with
    | nil => exact ⟨rfl, fun _ h => by cases h⟩
    | cons id ids ih =>
      rw [List.mapM_cons]
      refine Ensures.bind (P := fun item => item.1 = id ∧ contributionTx env t item.1 = .ok item.2)
        ?_ fun item hitem => ih.bind fun rest hrest => ?_
      · refine Ensures.bind ((ensures_self _).mono (fun _ h => h) fun _ _ => trivial)
          fun old hold => ⟨rfl, hold⟩
      · refine ⟨by simp [hitem.1, hrest.1], fun i hi => ?_⟩
        rcases List.mem_cons.mp hi with rfl | hi
        · exact hitem.2
        · exact hrest.2 i hi
  exact (hids _).bind fun events h => h

/-- **The snapshot vouches for processed content**: a reducer only starts when the bytes of the event
and of its parent have the length their headers declare. -/
theorem payloadBeforeTx_owned {env : Env} {t : EventTables} {v : VerifiedEvent} {before : PayloadBefore}
    (h : payloadBeforeTx env t v = .ok before) {id : ShortEventId} (hid : id ∈ affectedIds v)
    {e : Event} (he : t.events.get id = some e) (hst : t.eventsContentState.get id = none) :
    ∃ b, t.contentStore.get e.contentHash = some b ∧ b.length = e.contentLen := by
  obtain ⟨hids, hold⟩ := (payloadBeforeTx_ids env t v).of_ok h
  rw [← hids] at hid
  obtain ⟨item, hitem, rfl⟩ := List.mem_map.mp hid
  have hreq := ((contributionTx_eq env t item.1).of_ok (hold item hitem)).2 e he
  rw [hst] at hreq
  unfold requireStoredTx at hreq
  cases hb : t.contentStore.get e.contentHash with
  | none =>
    simp only [hb] at hreq
    cases hreq
  | some b =>
    simp only [hb] at hreq
    split at hreq
    · cases hreq
    · next hlen => exact ⟨b, rfl, not_not.mp hlen⟩

/-- **What the end of a bracket does to the rows**: it adds those of the events in the snapshot that count, and
loses none. -/
theorem payloadAfterTx_retains (env : Env) (db : Database) (before : PayloadBefore) :
    Ensures (payloadAfterTx env db before) (fun db' =>
      Retains db.accounting db'.accounting ∧
      (accountingTx db'.accounting).stage = (accountingTx db.accounting).stage ∧
      db'.accounting.state.isSome ∧
      ∀ id ∈ before.events.map Prod.fst, eventCounted (accountingTx db.accounting).stage id = true →
        ∀ e, db.ev.events.get id = some e → Guards env db'.accounting e) (fun _ => True) := by
  unfold payloadAfterTx
  have hevents := Ensures.foldlM_history (f := afterEventTx env db) (E := fun _ => True)
    (J := fun done s => Retains db.accounting s.accounting ∧
      s.record.stage = (accountingTx db.accounting).stage ∧ ∀ item ∈ done,
        eventCounted (accountingTx db.accounting).stage item.1 = true →
          ∀ e, db.ev.events.get item.1 = some e → Guards env s.accounting e)
    before.events [] ⟨db.accounting, accountingTx db.accounting, db.retention, []⟩
    (fun item _ done s hs => ?_) ⟨.refl _, rfl, fun _ h => by cases h⟩
  · refine hevents.bind fun s hs => (ensures_true _).bind fun _ _ => ?_
    have hhashes := Ensures.foldlM (f := afterHashTx db.ev) (E := fun _ => True)
      (J := fun r : Accounting × AccountingRecord => Retains s.accounting r.1 ∧
        r.2.stage = s.record.stage) before.hashes (s.accounting, s.record) (fun item _ r hr => ?_)
      ⟨.refl _, rfl⟩
    · refine hhashes.bind fun r hr => ⟨?_, ?_, rfl, fun id hid hcount e he => ?_⟩
      · exact (hs.1.trans hr.1).trans (.of_eq rfl rfl)
      · exact hr.2.trans hs.2.1
      · obtain ⟨item, hitem, rfl⟩ := List.mem_map.mp hid
        have hg := hs.2.2 item (by simpa using hitem) hcount e he
        exact (hg.mono hr.1).mono (.of_eq rfl rfl)
    · refine (afterHashTx_same db.ev r item).mono (fun r' hr' => ?_) fun _ h => h
      exact ⟨hr.1.trans (by rw [hr'.1]; exact .of_eq rfl rfl), hr'.2.2.2.trans hr.2⟩
  · refine (afterEventTx_retains env db s item).mono (fun s' hs' => ?_) fun _ h => h
    refine ⟨hs.1.trans hs'.1, hs'.2.1.trans hs.2.1, fun i hi hcount e he => ?_⟩
    rcases List.mem_append.mp hi with hi | hi
    · exact (hs.2.2 i hi hcount e he).mono hs'.1
    · rw [List.mem_singleton.mp hi] at hcount he
      rw [← hs.2.1] at hcount
      exact hs'.2.2 hcount e he

/-! ## 2. What was counted has its rows

While the rebuild runs, headers behind its cursor are accounted and those ahead of it are not. A reducer that meets
a header ahead of the cursor counts it there and then, and the rebuild will pass over it later. -/

/-- Every stored event that the scan has passed has its rows. -/
def GuardedAt (env : Env) (t : EventTables) (a : Accounting) (stage : AccountingStage) : Prop :=
  ∀ id e, t.events.get id = some e → eventCounted stage id = true → Guards env a e

/-- **The rows of the accounting**, and its record once there is something to account for. -/
structure Guarded (env : Env) (db : Database) : Prop where
  started : ∀ id e, db.ev.events.get id = some e → db.accounting.state.isSome
  rows : GuardedAt env db.ev db.accounting (accountingTx db.accounting).stage

omit [Primitives] in
theorem guarded_empty (env : Env) : Guarded env {} := by
  refine ⟨fun id e he => ?_, fun id e he => ?_⟩
  · simp at he
  · simp at he

omit [Primitives] in
/-- The same headers, and no row lost. -/
theorem Guarded.mono {env : Env} {db db' : Database} (h : Guarded env db)
    (hev : db'.ev.events = db.ev.events) (hr : Retains db.accounting db'.accounting)
    (hstage : (accountingTx db'.accounting).stage = (accountingTx db.accounting).stage)
    (hstate : db.accounting.state.isSome → db'.accounting.state.isSome) : Guarded env db' := by
  refine ⟨fun id e he => ?_, fun id e he hc => ?_⟩
  · rw [hev] at he
    exact hstate (h.started id e he)
  · rw [hev] at he
    rw [hstage] at hc
    exact (h.rows id e he hc).mono hr

omit [Primitives] in
theorem Guarded.congr {env : Env} {db db' : Database} (h : Guarded env db)
    (hev : db'.ev.events = db.ev.events) (ha : db'.accounting = db.accounting) : Guarded env db' := by
  refine h.mono hev ?_ ?_ ?_
  · rw [ha]
    exact .refl _
  · rw [ha]
  · rw [ha]
    exact fun h => h

theorem mem_affectedIds_self (v : VerifiedEvent) : v.id ∈ affectedIds v := by
  unfold affectedIds
  split
  · split
    · simp
    · simp
  · simp

/-- **A bracket** keeps the rows: the only new header is in the snapshot, and the end of the bracket records it if
the scan has passed it. -/
theorem payloadAfterTx_rows {env : Env} {db db₁ : Database} {v : VerifiedEvent}
    {before : PayloadBefore}
    (hrows : GuardedAt env db.ev db.accounting (accountingTx db.accounting).stage)
    (hids : before.events.map Prod.fst = affectedIds v)
    (hr : Retains db.accounting db₁.accounting)
    (hstage : (accountingTx db₁.accounting).stage = (accountingTx db.accounting).stage)
    (hev : ∀ id e, db₁.ev.events.get id = some e → db.ev.events.get id = some e ∨ id = v.id) :
    Ensures (payloadAfterTx env db₁ before) (fun db₂ =>
      GuardedAt env db₁.ev db₂.accounting (accountingTx db₂.accounting).stage ∧
        db₂.accounting.state.isSome) (fun _ => True) := by
  refine (payloadAfterTx_retains env db₁ before).mono (fun db₂ h => ?_) fun _ _ => trivial
  obtain ⟨hr', hstage', hsome, hnew⟩ := h
  refine ⟨fun id e he hc => ?_, hsome⟩
  rw [hstage', hstage] at hc
  rcases hev id e he with hold | rfl
  · exact ((hrows id e hold hc).mono hr).mono hr'
  · exact hnew _ (by rw [hids]; exact mem_affectedIds_self v) (by rw [hstage]; exact hc) e he

theorem payloadAfterTx_guarded {env : Env} {db db₁ : Database} {v : VerifiedEvent}
    {before : PayloadBefore} (hg : Guarded env db)
    (hids : before.events.map Prod.fst = affectedIds v)
    (hr : Retains db.accounting db₁.accounting)
    (hstage : (accountingTx db₁.accounting).stage = (accountingTx db.accounting).stage)
    (hev : ∀ id e, db₁.ev.events.get id = some e → db.ev.events.get id = some e ∨ id = v.id) :
    Ensures (payloadAfterTx env db₁ before) (Guarded env) (fun _ => True) := by
  refine ((payloadAfterTx_rows hg.rows hids hr hstage hev).and
    (payloadAfterTx_ensures env db₁ before)).mono (fun db' h => ?_) fun _ _ => trivial
  obtain ⟨⟨hrows, hsome⟩, a, x, rfl⟩ := h
  exact ⟨fun _ _ _ => hsome, hrows⟩

theorem processEventInnerTx_books (env : Env) (ctx : TxCtx) (db : Database) (v : VerifiedEvent)
    (now : Timestamp) (source : EventReceivedSource) :
    Ensures (processEventInnerTx env ctx db v now source)
      (fun r => r.1.accounting = db.accounting ∧ r.1.retention = db.retention) (fun _ => True) := by
  unfold processEventInnerTx
  refine (ensures_true _).bind fun r _ => ?_
  refine Ensures.bind (P := fun db' : Database =>
    db'.accounting = db.accounting ∧ db'.retention = db.retention) ?_ fun db₂ h₂ => ?_
  · unfold afterOutcomeTx
    split
    · unfold afterInsertTx
      refine (ensures_true _).bind fun _ _ => (ensures_true _).bind fun _ _ =>
        (ensures_true _).bind fun _ _ => (ensures_true _).bind fun _ _ => ?_
      exact ⟨rfl, rfl⟩
    · exact ⟨rfl, rfl⟩
  · exact (ensures_true _).bind fun _ _ => h₂

/-- An envelope brings one header at most. -/
theorem EnvelopeEffect.headers {db db' : Database} {v : VerifiedEvent} (h : EnvelopeEffect db v db')
    {id : ShortEventId} {e : Event} (he : db'.ev.events.get id = some e) :
    db.ev.events.get id = some e ∨ id = v.id := by
  cases h with
  | present e' he' t₁ ht₁ hfin hproj hquota =>
    rw [hfin.events, ht₁] at he
    exact .inl he
  | new hnew t₁ isD dp rev hins hfin next hproj hquota =>
    rw [hfin.events, hins.events, Table.get_insert] at he
    split at he
    · next hid => exact .inr hid
    · exact .inl he

theorem processEventTx_guarded {env : Env} {db : Database} (hg : Guarded env db) (ctx : TxCtx)
    (v : VerifiedEvent) (now : Timestamp) (source : EventReceivedSource) :
    Ensures (processEventTx env ctx db v now source) (fun r => Guarded env r.1) (fun _ => True) := by
  unfold processEventTx
  refine (payloadBeforeTx_ids env db.ev v).bind fun before hbefore => ?_
  refine (((processEventInnerTx_books env ctx db v now source).and
    (processEventInnerTx_effect env ctx db v now source)).mono (fun _ h => h)
    fun _ _ => trivial).bind fun r hr => ?_
  have hretains : Retains db.accounting r.1.accounting := by
    rw [hr.1.1]
    exact .refl _
  refine (payloadAfterTx_guarded hg hbefore.1 hretains (by rw [hr.1.1])
    fun id e he => hr.2.headers he).bind fun db' hdb' => ?_
  obtain ⟨q, hq⟩ := ensureMissingScheduledTx_effect db'.ev v.id
  exact hdb'.congr (by rw [hq]) rfl

theorem processEventContentInnerTx_books (env : Env) (ctx : TxCtx) (db : Database)
    (c : VerifiedEventContent) (now : Timestamp) (ledger : AdmissionState)
    (buffer : Option PayloadBuffer) :
    Ensures (processEventContentInnerTx env ctx db c now ledger buffer)
      (fun db' => db'.ev.events = db.ev.events ∧ db'.accounting = db.accounting ∧
        db'.retention = db.retention) (fun _ => True) := by
  unfold processEventContentInnerTx
  split
  · exact ⟨rfl, rfl, rfl⟩
  split
  · refine (ensures_true _).bind fun _ _ => ?_
    unfold materializeTx
    dsimp only
    split
    · exact ⟨rfl, rfl, rfl⟩
    split
    · refine (storeContentTx_effect _ _ _).bind fun ev hev => ?_
      obtain ⟨u, rfl⟩ := hev
      exact ⟨rfl, rfl, rfl⟩
    · refine (rejectContentTx_effect _ _).bind fun ev hev => ?_
      obtain ⟨rc, u, rfl⟩ := hev
      exact ⟨rfl, rfl, rfl⟩
    · trivial
  · unfold supplyDeletedTx
    split
    · exact (ensures_true _).bind fun _ _ => ⟨rfl, rfl, rfl⟩
    · exact ⟨rfl, rfl, rfl⟩

theorem processEventContentTx_guarded {env : Env} {db : Database} (hg : Guarded env db) (ctx : TxCtx)
    (c : VerifiedEventContent) (now : Timestamp) (ledger : AdmissionState)
    (buffer : Option PayloadBuffer) :
    Ensures (processEventContentTx env ctx db c now ledger buffer) (Guarded env)
      (fun _ => True) := by
  unfold processEventContentTx
  refine (payloadBeforeTx_ids env db.ev c.event).bind fun before hbefore => ?_
  refine (processEventContentInnerTx_books env ctx db c now ledger buffer).bind fun db₁ h₁ => ?_
  refine payloadAfterTx_guarded hg hbefore.1 (by rw [h₁.2.1]; exact .refl _) (by rw [h₁.2.1])
    fun id e he => .inl ?_
  rw [h₁.1] at he
  exact he

/-- Deferred or not, the rows are kept. -/
theorem processAdmittedContentTx_guarded {env : Env} {db : Database} (hg : Guarded env db)
    (ctx : TxCtx) (c : VerifiedEventContent) (now : Timestamp) (ledger : AdmissionState)
    (buffer : Option PayloadBuffer) :
    Ensures (processAdmittedContentTx env ctx db c now ledger buffer) (fun r => Guarded env r.1)
      (fun _ => True) := by
  have hcontent := processEventContentTx_guarded hg ctx c now ledger buffer
  unfold processAdmittedContentTx
  dsimp only
  split
  · next db' hok =>
    have hdb' := hcontent.of_ok hok
    split
    · exact hdb'
    split
    · exact hdb'
    · exact hdb'
  · obtain ⟨q, hq⟩ := ensureMissingScheduledTx_effect db.ev c.event.id
    exact hg.congr (by rw [hq]) rfl
  · trivial

theorem tryMaterializeStoredPayload_guarded {env : Env} {db : Database} (hg : Guarded env db)
    (ctx : TxCtx) (id : ShortEventId) (now : Timestamp) (ledger : AdmissionState) :
    Ensures (tryMaterializeStoredPayload env ctx db id now ledger) (fun r => Guarded env r.1)
      (fun _ => True) := by
  have hdefer : Guarded env { db with ev := ensureMissingScheduledTx db.ev id } := by
    obtain ⟨q, hq⟩ := ensureMissingScheduledTx_effect db.ev id
    exact hg.congr (by rw [hq]) rfl
  unfold tryMaterializeStoredPayload
  split
  · exact hg
  split
  · exact hg
  dsimp only
  split
  · exact hdefer
  · trivial
  split
  · exact hdefer
  split
  · exact hg
  split
  · trivial
  split
  · trivial
  · exact processAdmittedContentTx_guarded hg ctx _ now _ _

theorem pruneQuotaPayloadTx_guarded {env : Env} {db : Database} (hg : Guarded env db)
    (request : QuotaPruneRequest) :
    Ensures (pruneQuotaPayloadTx env db request) (fun r => Guarded env r.1) (fun _ => True) := by
  unfold pruneQuotaPayloadTx
  refine (ensures_true _).bind fun _ _ => ?_
  split
  · exact hg
  next e he =>
  split
  · exact hg
  split
  · exact hg
  split
  · split
    · exact hg
    dsimp only
    split
    · trivial
    refine (payloadBeforeTx_ids env db.ev _).bind fun before hbefore => ?_
    refine (ensures_true _).bind fun p _ => ?_
    refine (pruneEventContentTx_effect _ _ e).bind fun r hr => ?_
    refine Ensures.bind (P := Guarded env) ?_ fun db' hdb' => hdb'
    refine payloadAfterTx_guarded hg hbefore.1 (.of_eq rfl rfl) rfl fun id e' he' => .inl ?_
    rw [← hr.events]
    exact he'
  · exact hg

omit [Primitives] in
/-- What a collection step writes to the books. -/
theorem collectQuotaPayloadStepTx_books (db : Database) (after : Option ContentHash)
    (maxBytes : ℕ) :
    Ensures (collectQuotaPayloadStepTx db after maxBytes) (fun r =>
      r.1.ev.events = db.ev.events ∧ Retains db.accounting r.1.accounting ∧
      (accountingTx r.1.accounting).stage = (accountingTx db.accounting).stage ∧
      (db.accounting.state.isSome → r.1.accounting.state.isSome)) (fun _ => True) := by
  have hsame : db.ev.events = db.ev.events ∧ Retains db.accounting db.accounting ∧
      (accountingTx db.accounting).stage = (accountingTx db.accounting).stage ∧
      (db.accounting.state.isSome → db.accounting.state.isSome) :=
    ⟨rfl, .refl _, rfl, fun h => h⟩
  unfold collectQuotaPayloadStepTx
  dsimp only
  refine (ensures_true _).bind fun _ _ => ?_
  split
  · exact hsame
  refine (ensures_true _).bind fun _ _ => ?_
  split
  · trivial
  split
  · split
    · exact hsame
    refine (ensures_true _).bind fun unique _ => ?_
    exact ⟨rfl, .of_eq rfl rfl, rfl, fun _ => rfl⟩
  · exact ⟨rfl, .of_eq rfl rfl, rfl, fun _ => rfl⟩

omit [Primitives] in
theorem collectGarbageLoop_guarded {env : Env} :
    ∀ (limit : ℕ) (db : Database) (removed : ℕ), Guarded env db →
      Ensures (collectGarbageLoop limit db removed) (fun r => Guarded env r.1) (fun _ => True)
  | 0, _, _, hg => hg
  | limit + 1, db, removed, hg => by
    unfold collectGarbageLoop
    refine (collectQuotaPayloadStepTx_books db none u64Max).bind fun r hr => ?_
    have hg' := hg.mono hr.1 hr.2.1 hr.2.2.1 hr.2.2.2
    split
    · exact hg'
    · exact (ensures_true _).bind fun n _ => collectGarbageLoop_guarded limit _ n hg'

omit [Primitives] in
theorem recoverNominationsLoop_books (env : Env) (db : Database) :
    ∀ (limit : ℕ) (a : Accounting) (stage : QuotaRecovery),
      Ensures (recoverNominationsLoop env db limit a stage)
        (fun r => r.1.hashes = a.hashes ∧ r.1.authors = a.authors ∧ r.1.state = a.state)
        (fun _ => True)
  | 0, a, stage => ⟨rfl, rfl, rfl⟩
  | limit + 1, a, stage => by
    unfold recoverNominationsLoop
    split
    · exact ⟨rfl, rfl, rfl⟩
    split
    · exact ⟨rfl, rfl, rfl⟩
    split
    · split
      · trivial
      · exact recoverNominationsLoop_books env db limit _ _
    · trivial

omit [Primitives] in
/-- **One step of the rebuild**: the scan passes a header only after recording it. The later stages compare and
pass nothing. -/
theorem rebuildAccountingStep_guarded (env : Env) (db : Database) {a : Accounting}
    {record : AccountingRecord} (hg : GuardedAt env db.ev a record.stage) :
    Ensures (rebuildAccountingStep env db a record)
      (fun r => GuardedAt env db.ev r.1 r.2.1.stage) (fun _ => True) := by
  -- outside the first stage everything is counted
  have hlater : ∀ stage : AccountingStage, (∀ id, eventCounted record.stage id = true) →
      GuardedAt env db.ev a stage := fun stage hall id e he _ => hg id e he (hall id)
  unfold rebuildAccountingStep
  dsimp only
  split
  · next cursor hstage =>
    rw [hstage] at hg hlater
    split
    · next hnone =>
      refine fun id e he _ => hg id e he ?_
      have hempty := Table.least_none hnone
      have hkey := Table.mem_keys_of_get he
      cases cursor with
      | none =>
        rw [show Table.beyond db.ev.events.keys none = db.ev.events.keys from rfl] at hempty
        rw [hempty] at hkey
        cases hkey
      | some c =>
        by_contra hle
        have hmem : id ∈ Table.beyond db.ev.events.keys (some c) := by
          simpa [Table.beyond, hkey, eventCounted] using hle
        rw [hempty] at hmem
        cases hmem
    · next id hnext =>
      refine Ensures.bind ((ensures_self _).mono (fun _ h => h) fun _ _ => trivial) fun c hc => ?_
      split
      · trivial
      next x =>
      refine (adjustContributionTx_recorded a record x true).bind fun r hr => ?_
      intro id' e he hcount
      have hcount' : id' ≤ id := by simpa [eventCounted] using hcount
      by_cases hold : eventCounted (.events cursor) id' = true
      · exact (hg id' e he hold).mono hr.1
      · -- between the old cursor and the new one there is only the header just recorded
        have hmem : id' ∈ Table.beyond db.ev.events.keys cursor := by
          cases cursor with
          | none => exact Table.mem_keys_of_get he
          | some c => simpa [Table.beyond, Table.mem_keys_of_get he, eventCounted] using hold
        obtain rfl : id' = id := le_antisymm hcount' (Table.least_le hnext hmem)
        obtain ⟨x', hx', ha, hh, hp⟩ := (contributionTx_some env he).of_ok hc
        cases hx'
        have hrec := hr.2.2
        rw [ha, hh, hp] at hrec
        exact hrec
  · next cursor hstage =>
    rw [hstage] at hlater
    split
    · exact hlater _ fun _ => rfl
    · exact (ensures_true _).bind fun _ _ => (ensures_true _).bind fun _ _ => hlater _ fun _ => rfl
  · next cursor hstage =>
    rw [hstage] at hlater
    split
    · exact hlater _ fun _ => rfl
    · exact (ensures_true _).bind fun _ _ => hlater _ fun _ => rfl
  · next cursor hstage =>
    rw [hstage] at hlater
    split
    · exact hlater _ fun _ => rfl
    · exact (ensures_true _).bind fun _ _ => hlater _ fun _ => rfl
  · next cursor hstage =>
    rw [hstage] at hlater
    split
    · exact hlater _ fun _ => rfl
    split
    · trivial
    · exact hlater _ fun _ => rfl
  · next cursor hstage =>
    rw [hstage] at hlater
    split
    · exact hlater _ fun _ => rfl
    · exact (ensures_true _).bind fun _ _ => hlater _ fun _ => rfl
  · exact hg

omit [Primitives] in
theorem rebuildAccountingLoop_guarded (env : Env) (db : Database) :
    ∀ (fuel limit : ℕ) (a : Accounting) (record : AccountingRecord),
      GuardedAt env db.ev a record.stage →
        Ensures (rebuildAccountingLoop env db fuel limit a record)
          (fun r => GuardedAt env db.ev r.1 r.2.stage) (fun _ => True)
  | 0, _, _, _, hg => hg
  | fuel + 1, limit, a, record, hg => by
    unfold rebuildAccountingLoop
    split
    · exact hg
    refine (rebuildAccountingStep_guarded env db hg).bind fun r hr => ?_
    split
    · exact hr
    · exact rebuildAccountingLoop_guarded env db fuel _ _ _ hr

theorem deliver_guarded {env : Env} {db : Database} (hg : Guarded env db) (d : Delivery) :
    Ensures (deliver env db d) (Guarded env) (fun _ => True) := by
  cases d with
  | envelope v now source => exact (processEventTx_guarded hg {} v now source).bind fun r hr => hr
  | payload c now ledger =>
    refine (processEventTx_guarded hg {} c.event now _).bind fun r hr => ?_
    exact processEventContentTx_guarded hr {} c now ledger none

/-- **Every transaction keeps the rows**, whatever it is a transaction of. -/
theorem step_guarded {env : Env} {db : Database} (hg : Guarded env db) (o : Op) :
    Ensures (step env db o) (Guarded env) (fun _ => True) := by
  cases o with
  | ingest ds => exact Ensures.foldlM ds db (fun d _ db' h => deliver_guarded h d) hg
  | ingestAdmitted c now ledger buffer =>
    simp only [step, tryProcessAdmittedEventContent]
    refine Ensures.bind (P := fun r : Database × PayloadIngestOutcome => Guarded env r.1) ?_
      fun r hr => hr
    refine (processEventTx_guarded hg {} c.event now _).bind fun r hr => ?_
    exact processAdmittedContentTx_guarded hr {} c now ledger buffer
  | materializeStored id now ledger =>
    exact (tryMaterializeStoredPayload_guarded hg {} id now ledger).bind fun r hr => hr
  | pruneQuota request => exact (pruneQuotaPayloadTx_guarded hg request).bind fun r hr => hr
  | collectStep after maxBytes =>
    refine (collectQuotaPayloadStepTx_books db after maxBytes).bind fun r hr => ?_
    exact hg.mono hr.1 hr.2.1 hr.2.2.1 hr.2.2.2
  | collectGarbage limit =>
    simp only [step, collectQuotaPayloadGarbage]
    split
    · trivial
    refine (ensures_true _).bind fun _ _ => ?_
    exact (collectGarbageLoop_guarded limit db 0 hg).bind fun r hr => hr
  | rebuildAccounting limit =>
    simp only [step, rebuildPayloadAccounting]
    split
    · trivial
    refine (rebuildAccountingLoop_guarded env db _ limit _ _ hg.rows).bind fun r hr => ?_
    exact ⟨fun _ _ _ => rfl, fun id e he hc => (hr id e he hc).mono (.of_eq rfl rfl)⟩
  | rebuildNominations limit =>
    simp only [step, rebuildQuotaPayloadNominations]
    split
    · trivial
    refine (recoverNominationsLoop_books env db _ _ _).bind fun r hr => ?_
    refine hg.mono rfl (.of_eq hr.1 hr.2.1) ?_ fun h => ?_
    · show (r.1.state.getD {}).stage = _
      rw [hr.2.2]
      rfl
    · show r.1.state.isSome = true
      rw [hr.2.2]
      exact h
  | configureRetention policy => exact hg.congr rfl rfl
  | rebuildRetention limit =>
    simp only [step, rebuildRetentionIndex]
    split
    · trivial
    split
    · exact hg
    · exact (ensures_true _).bind fun r _ => hg.congr rfl rfl
  | promoteRetention clock limit =>
    simp only [step, promoteRetentionGrace]
    split
    · trivial
    split
    · split
      · exact (ensures_true _).bind fun r _ => hg.congr rfl rfl
      · exact hg
    · exact hg
  | deferFetch id observed retryAt =>
    exact hg.congr (rescheduleTx_rescheduled _ _ _ _ _).events rfl
  | recordFailedFetch id observed attemptedAt nextAttemptAt =>
    exact hg.congr (rescheduleTx_rescheduled _ _ _ _ _).events rfl
  | peekMissing =>
    obtain ⟨q, hq⟩ := peekLoop_effect (db.ev.eventsContentMissing.card + 1) db.ev
    refine hg.congr ?_ rfl
    show (peekLoop _ _).1.events = _
    rw [hq]
  | recalculateNews postId now => exact hg.congr rfl rfl

theorem reached_guarded (env : Env) (ops : List Op) : Guarded env (reached env ops) :=
  run_invariant ops {} (fun o _ _ _ h hok => (step_guarded h o).of_ok hok) (guarded_empty env)

/-! ## 3. A bracket around nothing

A delivery that changes nothing still runs its bracket. Taking a contribution out and putting it in again has to
end with the same rows, which is a question of bounded sums: an intermediate sum may not leave the range. -/

omit [Primitives] in
theorem changeTx_out (n m : ℕ) : Ensures (changeTx false n m) (fun k => k + m = n) (fun _ => True) := by
  simp only [changeTx, checkedSub, Bool.false_eq_true, if_false]
  split
  · next h => exact Nat.sub_add_cancel h
  · trivial

omit [Primitives] in
theorem changeTx_in (k m : ℕ) : Ensures (changeTx true k m) (fun n => n = k + m) (fun _ => True) := by
  simp only [changeTx, checkedAdd, if_true]
  split
  · rfl
  · trivial

omit [Primitives] in
theorem changeReferencesTx_out (referenced : Bool) (n : ℕ) :
    Ensures (changeReferencesTx false referenced n) (fun k => k + (if referenced then 1 else 0) = n)
      (fun _ => True) := by
  unfold changeReferencesTx
  split
  · exact changeTx_out n 1
  · rfl

omit [Primitives] in
theorem changeReferencesTx_in (referenced : Bool) (k : ℕ) :
    Ensures (changeReferencesTx true referenced k) (fun n => n = k + if referenced then 1 else 0)
      (fun _ => True) := by
  unfold changeReferencesTx
  split
  · exact changeTx_in k 1
  · rfl

omit [Primitives] in
/-- **Out and in again**: a recorded contribution leaves no trace. The checked operations may refuse on the way,
and then there is no result. -/
theorem adjustContributionTx_same {a : Accounting} {record : AccountingRecord}
    {c : EventContribution} (hrec : Recorded a c.author c.hash c.isProtected) :
    Ensures (adjustContributionTx a record c false) (fun r =>
      Ensures (adjustContributionTx r.1 r.2 c true) (fun r' => r' = (a, record)) (fun _ => True))
      (fun _ => True) := by
  obtain ⟨⟨x, hx, hp⟩, hauthor⟩ := hrec
  obtain ⟨n, hn⟩ := Option.isSome_iff_exists.mp hauthor
  have hguard : (x.protectedHistory || c.isProtected) = x.protectedHistory := by
    cases hc : c.isProtected with
    | false => simp
    | true => simp [hp hc]
  unfold adjustContributionTx
  dsimp only
  refine (changeReferencesTx_out _ _).bind fun k₁ h₁ => (changeTx_out _ _).bind fun k₂ h₂ =>
    (changeTx_out _ _).bind fun k₃ h₃ => ?_
  simp only [ensures_pure, Table.get_insert_self, Option.getD_some, Table.insert_insert]
  refine (changeReferencesTx_in _ _).bind fun m₁ e₁ => (changeTx_in _ _).bind fun m₂ e₂ =>
    (changeTx_in _ _).bind fun m₃ e₃ => ?_
  rw [hx, Option.getD_some] at h₁ ⊢
  rw [hn, Option.getD_some] at h₂
  have hhash : a.hashes.insert c.hash ⟨m₁, x.protectedHistory || c.isProtected || c.isProtected⟩ =
      a.hashes := by
    rw [hguard, hguard, e₁, h₁]
    exact Table.insert_get_self hx
  have hauthors : a.authors.insert c.author m₂ = a.authors := by
    rw [e₂, h₂]
    exact Table.insert_get_self hn
  simp only [ensures_pure, hhash, hauthors, e₃, h₃]

omit [Primitives] in
theorem adjustOptionTx_same {a : Accounting} {record : AccountingRecord}
    {c : Option EventContribution}
    (hrec : ∀ x, c = some x → Recorded a x.author x.hash x.isProtected) :
    Ensures (adjustOptionTx a record c false) (fun r =>
      Ensures (adjustOptionTx r.1 r.2 c true) (fun r' => r' = (a, record)) (fun _ => True))
      (fun _ => True) := by
  cases c with
  | none => exact rfl
  | some x => exact adjustContributionTx_same (hrec x rfl)

/-- An index that nobody configured is left alone. -/
theorem refreshRetentionIndexTx_idle {r : RetentionIndex} (h : r.state = none) (env : Env)
    (db : Database) (id : ShortEventId) : refreshRetentionIndexTx env db r id = .ok r := by
  simp [refreshRetentionIndexTx, h]

/-- An event whose contribution did not change. -/
theorem afterEventTx_same {env : Env} {db : Database} {s : AfterScan}
    {item : ShortEventId × Option EventContribution}
    (hg : GuardedAt env db.ev s.accounting s.record.stage)
    (hitem : contributionTx env db.ev item.1 = .ok item.2) :
    Ensures (afterEventTx env db s item)
      (fun s' => s'.accounting = s.accounting ∧ s'.record = s.record ∧
        (s.retention.state = none → s'.retention = s.retention)) (fun _ => True) := by
  unfold afterEventTx
  refine Ensures.bind (P := fun r => s.retention.state = none → r = s.retention) ?_
    fun retention hidle => ?_
  · refine ensures_of_ok fun r hr hnone => ?_
    rw [refreshRetentionIndexTx_idle hnone] at hr
    exact (Except.ok.inj hr).symm
  split
  · next hcount =>
    rw [hitem]
    refine Ensures.bind (P := fun new => new = item.2) (ensures_ok.mpr rfl) fun new hnew => ?_
    subst hnew
    refine (adjustOptionTx_same (c := item.2) fun x hx => ?_).bind fun r hr => hr.bind fun r' hr' => ?_
    · -- a contribution belongs to a stored header
      cases he : db.ev.events.get item.1 with
      | none =>
        simp only [contributionTx, he] at hitem
        rw [← Except.ok.inj hitem] at hx
        cases hx
      | some e =>
        obtain ⟨x', hx', ha, hh, hp⟩ := (contributionTx_some env he).of_ok hitem
        rw [hx] at hx'
        cases hx'
        rw [ha, hh, hp]
        exact hg _ _ he hcount
    · rw [hr']
      exact ⟨rfl, rfl, hidle⟩
  · exact ⟨rfl, rfl, hidle⟩

omit [Primitives] in
/-- A hash whose bytes did not change. -/
theorem uniqueBytesTx_same (t : EventTables) (record : AccountingRecord) (h : ContentHash) :
    Ensures (uniqueBytesTx t record h (storedLenTx t h))
      (fun n => n = record.usage.uniqueStoredBytes) (fun _ => True) := by
  unfold uniqueBytesTx
  split
  · refine (changeTx_out _ _).bind fun rest hrest => ?_
    exact (changeTx_in _ _).mono (fun n hn => hn.trans hrest) fun _ h => h
  · exact rfl

omit [Primitives] in
theorem afterHashTx_unchanged (t : EventTables) (s : Accounting × AccountingRecord)
    (h : ContentHash) :
    Ensures (afterHashTx t s (h, storedLenTx t h)) (fun s' => s'.2 = s.2) (fun _ => True) := by
  unfold afterHashTx
  dsimp only
  refine (uniqueBytesTx_same t s.2 h).bind fun unique hu => (ensures_true _).bind fun _ _ => ?_
  subst hu
  split
  · exact rfl
  · exact rfl

/-- What a bracket may write although nothing changed. -/
structure Rebooked (db db' : Database) : Prop where
  eq : db' = { db with
    accounting := { db.accounting with quotaGc := db'.accounting.quotaGc }
    retention := db'.retention }
  queue : db.accounting.quotaGc ⊆ db'.accounting.quotaGc
  owned : db'.accounting.quotaGc ⊆ db.accounting.quotaGc ∪ db.accounting.quotaHashes
  idle : db.retention.state = none → db'.retention = db.retention

/-- **A bracket around nothing** writes nothing but the collection queue and the retention index. -/
theorem payloadAfterTx_same {env : Env} {db : Database} {v : VerifiedEvent} {before : PayloadBefore}
    (hg : Guarded env db) {e : Event} (he : db.ev.events.get v.id = some e)
    (hbefore : payloadBeforeTx env db.ev v = .ok before) :
    Ensures (payloadAfterTx env db before) (Rebooked db) (fun _ => True) := by
  have hids := (payloadBeforeTx_ids env db.ev v).of_ok hbefore
  have hhashes : ∀ item ∈ before.hashes, item.2 = storedLenTx db.ev item.1 := by
    unfold payloadBeforeTx at hbefore
    obtain ⟨events, -, hb⟩ := bind_eq_ok.mp hbefore
    cases hb
    intro item hitem
    obtain ⟨h, -, rfl⟩ := List.mem_map.mp hitem
    rfl
  unfold payloadAfterTx
  have hevents := Ensures.foldlM (f := afterEventTx env db) (E := fun _ => True)
    (J := fun s => s.accounting = db.accounting ∧ s.record = accountingTx db.accounting ∧
      (db.retention.state = none → s.retention = db.retention))
    before.events ⟨db.accounting, accountingTx db.accounting, db.retention, []⟩
    (fun item hitem s hs => ?_) ⟨rfl, rfl, fun _ => rfl⟩
  · refine hevents.bind fun s hs => (ensures_true _).bind fun _ _ => ?_
    rw [hs.1, hs.2.1]
    have hfold := Ensures.foldlM (f := afterHashTx db.ev) (E := fun _ => True)
      (J := fun r : Accounting × AccountingRecord =>
        r.1 = { db.accounting with quotaGc := r.1.quotaGc } ∧
        db.accounting.quotaGc ⊆ r.1.quotaGc ∧
        r.1.quotaGc ⊆ db.accounting.quotaGc ∪ db.accounting.quotaHashes ∧
        r.2 = accountingTx db.accounting) before.hashes (db.accounting, accountingTx db.accounting)
      (fun item hitem r hr => ?_) ⟨rfl, Finset.Subset.refl _, Finset.subset_union_left, rfl⟩
    · refine hfold.bind fun r hr => ?_
      obtain ⟨record, hrecord⟩ := Option.isSome_iff_exists.mp (hg.started _ _ he)
      have hstate : some (accountingTx db.accounting) = db.accounting.state := by
        rw [accountingTx, hrecord, Option.getD_some]
      refine ⟨?_, hr.2.1, hr.2.2.1, hs.2.2⟩
      show ({ db with accounting := _, retention := _ } : Database) = _
      rw [hr.2.2.2, hstate, hr.1]
    · have hitem' : item = (item.1, storedLenTx db.ev item.1) := Prod.ext rfl (hhashes item hitem)
      rw [hitem']
      refine ((afterHashTx_same db.ev r _).and (afterHashTx_unchanged db.ev r item.1)).mono
        (fun r' hr' => ?_) fun _ _ => trivial
      obtain ⟨⟨heq, hsub, hown, -⟩, hrec⟩ := hr'
      rw [hr.1] at heq
      refine ⟨heq, hr.2.1.trans hsub, hown.trans ?_, hrec.trans hr.2.2.2⟩
      rw [hr.1]
      exact Finset.union_subset hr.2.2.1 Finset.subset_union_right
  · refine (afterEventTx_same (s := s) ?_ (hids.2 item hitem)).mono
      (fun s' hs' => ⟨hs'.1.trans hs.1, hs'.2.1.trans hs.2.1, fun hnone => ?_⟩) fun _ h => h
    · rw [hs.1, hs.2.1]
      exact hg.rows
    · have hs₀ := hs.2.2 hnone
      exact (hs'.2.2 (by rw [hs₀]; exact hnone)).trans hs₀

/-! ## 4. Runs without quota work

In a run that only ingests, the queue of the collection stays empty and no index is configured, and the exceptions
of section 3 fall away. -/

/-- No hash is owned by a quota release, and no index was asked for. -/
structure Unquoted (db : Database) : Prop where
  hashes : db.accounting.quotaHashes = ∅
  index : db.retention.state = none

omit [Primitives] in
theorem adjustOptionTx_quota (a : Accounting) (record : AccountingRecord)
    (c : Option EventContribution) (add : Bool) :
    Ensures (adjustOptionTx a record c add) (fun r => r.1.quotaHashes = a.quotaHashes)
      (fun _ => True) := by
  unfold adjustOptionTx
  split
  · exact (ensures_true _).bind fun _ _ => (ensures_true _).bind fun _ _ =>
      (ensures_true _).bind fun _ _ => rfl
  · exact rfl

theorem payloadAfterTx_unquoted (env : Env) {db : Database} (h : Unquoted db)
    (before : PayloadBefore) :
    Ensures (payloadAfterTx env db before) Unquoted (fun _ => True) := by
  unfold payloadAfterTx
  have hevents := Ensures.foldlM (f := afterEventTx env db) (E := fun _ => True)
    (J := fun s => s.accounting.quotaHashes = ∅ ∧ s.retention.state = none) before.events
    ⟨db.accounting, accountingTx db.accounting, db.retention, []⟩ (fun item _ s hs => ?_)
    ⟨h.hashes, h.index⟩
  · refine hevents.bind fun s hs => (ensures_true _).bind fun _ _ => ?_
    have hhashes := Ensures.foldlM (f := afterHashTx db.ev) (E := fun _ => True)
      (J := fun r : Accounting × AccountingRecord => r.1.quotaHashes = ∅) before.hashes
      (s.accounting, s.record) (fun item _ r hr => ?_) hs.1
    · exact hhashes.bind fun r hr => ⟨hr, hs.2⟩
    · refine (afterHashTx_same db.ev r item).mono (fun r' hr' => ?_) fun _ h => h
      rw [hr'.1]
      exact hr
  · unfold afterEventTx
    rw [refreshRetentionIndexTx_idle hs.2]
    show Ensures (if _ then _ else _) _ _
    split
    · refine (ensures_true _).bind fun new _ => ?_
      refine (adjustOptionTx_quota _ _ _ _).bind fun r hr => ?_
      refine (adjustOptionTx_quota _ _ _ _).bind fun r' hr' => ?_
      exact ⟨(hr'.trans hr).trans hs.1, hs.2⟩
    · exact hs

theorem deliver_unquoted (env : Env) {db : Database} (h : Unquoted db) (d : Delivery) :
    Ensures (deliver env db d) Unquoted (fun _ => True) := by
  have henvelope : ∀ v now source, Ensures (processEventTx env {} db v now source)
      (fun r => Unquoted r.1) (fun _ => True) := by
    intro v now source
    unfold processEventTx
    refine (ensures_true _).bind fun before _ => ?_
    refine (processEventInnerTx_books env {} db v now source).bind fun r hr => ?_
    have hr' : Unquoted r.1 := ⟨by rw [hr.1]; exact h.hashes, by rw [hr.2]; exact h.index⟩
    exact (payloadAfterTx_unquoted env hr' before).bind fun db' hdb' => ⟨hdb'.hashes, hdb'.index⟩
  cases d with
  | envelope v now source => exact (henvelope v now source).bind fun r hr => hr
  | payload c now ledger =>
    refine (henvelope c.event now _).bind fun r hr => ?_
    unfold processEventContentTx
    refine (ensures_true _).bind fun before _ => ?_
    refine (processEventContentInnerTx_books env {} r.1 c now ledger none).bind fun db₁ h₁ => ?_
    exact payloadAfterTx_unquoted env
      ⟨by rw [h₁.2.1]; exact hr.hashes, by rw [h₁.2.2]; exact hr.index⟩ before

/-- Ingestion alone does no quota work. -/
theorem reached_unquoted (env : Env) (txs : List (List Delivery)) :
    Unquoted (reached env (txs.map Op.ingest)) := by
  refine run_invariant (J := Unquoted) (txs.map Op.ingest) {} (fun o ho db db' h hok => ?_)
    ⟨rfl, rfl⟩
  obtain ⟨ds, -, rfl⟩ := List.mem_map.mp ho
  exact (Ensures.foldlM ds db (fun d _ db' h => deliver_unquoted env h d) h).of_ok hok

omit [Primitives] in
/-- Without quota work a bracket around nothing writes nothing at all. -/
theorem Rebooked.eq_of_unquoted {db db' : Database} (h : Rebooked db db') (hu : Unquoted db) :
    db' = db := by
  have hgc : db'.accounting.quotaGc = db.accounting.quotaGc := by
    refine Finset.Subset.antisymm ?_ h.queue
    have := h.owned
    rwa [hu.hashes, Finset.union_empty] at this
  rw [h.eq, hgc, h.idle hu.index]

end Books

end Rostra.Db
