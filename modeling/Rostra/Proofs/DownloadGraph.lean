/-
# A download of a graph

What a call of `download_events_from_child` does to the database, for a graph of events that peers can serve
(`D`), whatever they answer, refuse or fail to send.

* Section 1: a payload phase changes the class of its own event only (`Fetched`), and reports a materialization
  exactly if content that was awaited is there.
* Section 2: an envelope that is obtained is the author's, and it is stored afterwards.
* Section 3: the flag says what the call has changed so far (`Flagged`).
* Section 4: everything that is shown or queued is about stored events of the requested author (`Seen`), and the
  invariant of a call (`Served`).
* Section 5: the call comes to an end, because each turn takes an entry out of the queue, and an entry that comes
  back is an envelope that was not obtained before.
-/
import Mathlib.Data.Set.Card
import Rostra.Proofs.Basic
import Rostra.Proofs.DownloadEvents
import Rostra.Proofs.Progress

namespace Rostra.DownloadEvents

open Rostra Rostra.Db Outcome PairedQueue

section Graph

variable [Primitives] {env : Env} {author : RostraId} {D : Set VerifiedEvent}

/-! ## 1. A payload phase

A payload may be refused because there is no room, and is then tried again after others were released; it may also
be fetched and turn out invalid. Whatever the sequence, at most one event changes its class. -/

/-- What fetching one payload did: awaited content was materialized, or at most rejected. -/
structure Fetched (id : ShortEventId) (materialized : Bool) (t t' : EventTables) : Prop where
  events : t'.events = t.events
  others : ∀ id', id' ≠ id → contentClass t' id' = contentClass t id'
  own : (materialized = true ∧ contentClass t id = .missing ∧ contentClass t' id = .current) ∨
    (materialized = false ∧ (contentClass t' id = contentClass t id ∨
      contentClass t id = .missing ∧ contentClass t' id = .invalid))

omit [Primitives] in
/-- Nothing that concerns an event moved. -/
theorem Fetched.of_same {id : ShortEventId} {t t' : EventTables} (hev : t'.events = t.events)
    (hclasses : ∀ id', contentClass t' id' = contentClass t id') : Fetched id false t t' :=
  ⟨hev, fun id' _ => hclasses id', .inr ⟨rfl, .inl (hclasses id)⟩⟩

omit [Primitives] in
theorem Fetched.refl (id : ShortEventId) (t : EventTables) : Fetched id false t t := .of_same rfl fun _ => rfl

omit [Primitives] in
/-- After an attempt that materialized nothing, another one may. -/
theorem Fetched.trans {id : ShortEventId} {materialized : Bool} {t t' t'' : EventTables}
    (h : Fetched id false t t') (h' : Fetched id materialized t' t'') : Fetched id materialized t t'' := by
  refine ⟨h'.events.trans h.events, fun id' hid => (h'.others id' hid).trans (h.others id' hid), ?_⟩
  obtain ⟨hcon, -⟩ | ⟨-, hsame | ⟨hmissing, hinvalid⟩⟩ := h.own
  · cases hcon
  · rw [← hsame]
    exact h'.own
  · obtain ⟨-, hmissing', -⟩ | ⟨hm, hsame' | ⟨hmissing', -⟩⟩ := h'.own
    · rw [hinvalid] at hmissing'
      cases hmissing'
    · exact .inr ⟨hm, .inr ⟨hmissing, hsame'.trans hinvalid⟩⟩
    · rw [hinvalid] at hmissing'
      cases hmissing'

/-- The ground on which a call stands. -/
abbrev Grounds (D : Set VerifiedEvent) (db : Database) : Prop := OnGround D OversizedOut db.ev

/-- An envelope that is stored does nothing when it is processed again. -/
theorem processEventTx_stored_again (hcf : CollisionFree D) {db : Database} (hI : Grounds D db) {v : VerifiedEvent}
    (hv : v ∈ D) (he : db.ev.events.get v.id = some v.event) (now : Timestamp) (source : EventReceivedSource) :
    Ensures (processEventTx env {} db v now source)
      (fun r => Grounds D r.1 ∧ r.1.ev.events = db.ev.events ∧
        ∀ id, contentClass r.1.ev id = contentClass db.ev id) (fun _ => True) := by
  refine ((processEventTx_keeps (oversizedOut_keeps D) hcf hI hv now source).and
    (processEventTx_effect env {} db v now source)).mono (fun r hr => ⟨hr.1, ?_⟩) fun _ _ => trivial
  cases hr.2 with
  | present e he' t₁ ht₁ hfin hproj hquota =>
    refine ⟨by rw [hfin.events, ht₁], fun id => ?_⟩
    have hstate : r.1.ev.eventsContentState = db.ev.eventsContentState := by
      rcases hfin.state with hst | ⟨href, hwhy | hwhy, -⟩
      · rw [hst, ht₁]
      · -- oversized content holds no reference any more
        have hout := hI.2 v.id v.event (by simp) he hwhy
        rw [ht₁] at href
        exact absurd (href.symm.trans hout) (by simp)
      · exact hwhy.elim
    rw [contentClass, hstate, contentClass]
  | new hnew =>
    rw [hnew] at he
    cases he

/-- Awaited content of a stored event is nonempty and not oversized. -/
theorem Grounds.awaited {db : Database} (hI : Grounds D db) {v : VerifiedEvent}
    (he : db.ev.events.get v.id = some v.event) (hm : contentClass db.ev v.id = .missing) :
    0 < v.event.contentLen ∧ v.event.contentLen < MAX_CONTENT_LEN := by
  refine ⟨hI.1.nonempty _ hm _ he, ?_⟩
  by_contra hlen
  have hout := hI.2 v.id v.event (by simp) he (not_lt.mp hlen)
  rw [hm] at hout
  cases hout

/-- The classes a payload leaves behind, with what is reported. -/
theorem fetched_of_effect {db db₁ : Database} (hI : Grounds D db) {c : VerifiedEventContent}
    (hc : db.ev.events.get c.event.id = some c.event.event) {now : Timestamp}
    (h : PayloadEffect env {} db c now db₁) :
    (contentClass db.ev c.event.id ≠ .missing ∧ Fetched c.event.id false db.ev db₁.ev) ∨
      contentClass db.ev c.event.id = .missing ∧
        ((db₁.ev.eventsContentState.get c.event.id = none ∧ Fetched c.event.id true db.ev db₁.ev) ∨
          db₁.ev.eventsContentState.get c.event.id = some .invalid ∧ Fetched c.event.id false db.ev db₁.ev) := by
  cases h with
  | idle hidle =>
    refine .inl ⟨fun hm => ?_, .refl _ _⟩
    obtain ⟨hpos, hlen⟩ := hI.awaited hc hm
    rcases hidle with hbig | hnone | ⟨hne, -⟩
    · omega
    · obtain ⟨b, hb⟩ := c.content_isSome hpos
      rw [hb] at hnone
      cases hnone
    · exact hne hm
  | processed b hb hm hlen p hp u =>
    refine .inr ⟨hm, .inl ⟨Table.get_remove_self .., rfl, fun id' hid => ?_, .inl ⟨rfl, hm, ?_⟩⟩⟩
    · rw [contentClass, Table.get_remove_of_ne _ hid, contentClass]
    · rw [contentClass, Table.get_remove_self]
      rfl
  | rejected b hb hm hlen hp rc u =>
    refine .inr ⟨hm, .inr ⟨Table.get_insert_self .., rfl, fun id' hid => ?_, .inr ⟨rfl, .inr ⟨hm, ?_⟩⟩⟩⟩
    · rw [contentClass, Table.get_insert_of_ne _ _ hid, contentClass]
    · rw [contentClass, Table.get_insert_self]
      rfl
  | deleted b hb hd hlen => exact .inl ⟨by rw [hd]; simp, .refl _ _⟩

/-- **A payload reports a materialization** exactly if it was one; a payload that is found invalid is none. -/
theorem processAdmittedContentTx_fetched {db : Database} (hI : Grounds D db) {c : VerifiedEventContent}
    (hc : db.ev.events.get c.event.id = some c.event.event) (now : Timestamp) (ledger : AdmissionState)
    (buffer : Option PayloadBuffer) :
    Ensures (processAdmittedContentTx env {} db c now ledger buffer)
      (fun r => Grounds D r.1 ∧ Fetched c.event.id (decide (r.2 = .processed)) db.ev r.1.ev) (fun _ => True) := by
  have hsame : ∀ e, db.ev.events.get c.event.id = some e → e = c.event.event :=
    fun e he => (Option.some.inj (hc.symm.trans he)).symm
  have hcontent : Ensures (processEventContentTx env {} db c now ledger buffer)
      (fun db' => Grounds D db' ∧ ∃ db₁, PayloadEffect env {} db c now db₁ ∧ Booked db₁ db') (fun _ => True) :=
    ((processEventContentTx_keeps (oversizedOut_keeps D) hI hsame now ledger buffer).and
      (processEventContentTx_effect hI.1 hc now ledger buffer)).mono (fun _ h => h) fun _ _ => trivial
  have hmissing : ∀ b, payloadIsMissingTx db.ev c.event.id = b →
      (b = true ↔ contentClass db.ev c.event.id = .missing) := by
    rintro b rfl
    exact canInsertEventContentTx_eq _ _
  unfold processAdmittedContentTx
  dsimp only
  split
  · next db' hok =>
    obtain ⟨hI', db₁, heffect, a, x, rfl⟩ := hcontent.of_ok hok
    obtain ⟨hm, hfetched⟩ | ⟨hm, ⟨hstate, hfetched⟩ | ⟨hstate, hfetched⟩⟩ := fetched_of_effect hI hc heffect
    · have hfalse : payloadIsMissingTx db.ev c.event.id = false := by
        cases hb : payloadIsMissingTx db.ev c.event.id with
        | false => rfl
        | true => exact absurd ((hmissing _ hb).mp rfl) hm
      rw [hfalse]
      exact ⟨hI', hfetched⟩
    · rw [(hmissing _ rfl).mpr hm]
      simp only [hstate]
      exact ⟨hI', hfetched⟩
    · rw [(hmissing _ rfl).mpr hm]
      simp only [hstate]
      exact ⟨hI', hfetched⟩
  · have hresched := ensureMissingScheduledTx_rescheduled db.ev c.event.id
    exact ⟨hI.defer (oversizedOut_keeps D) c.event.id, .of_same hresched.events hresched.classes⟩
  · trivial

theorem tryMaterializeStoredPayload_fetched {db : Database} (hI : Grounds D db) (id : ShortEventId)
    (now : Timestamp) (ledger : AdmissionState) :
    Ensures (tryMaterializeStoredPayload env {} db id now ledger)
      (fun r => Grounds D r.1 ∧ Fetched id (decide (r.2 = .processed)) db.ev r.1.ev) (fun _ => True) := by
  have hresched := ensureMissingScheduledTx_rescheduled db.ev id
  have hdefer : Grounds D { db with ev := ensureMissingScheduledTx db.ev id } ∧
      Fetched id false db.ev (ensureMissingScheduledTx db.ev id) :=
    ⟨hI.defer (oversizedOut_keeps D) id, .of_same hresched.events hresched.classes⟩
  have hidle : Grounds D db ∧ Fetched id false db.ev db.ev := ⟨hI, .refl id db.ev⟩
  unfold tryMaterializeStoredPayload
  split
  · exact hidle
  next e he =>
  split
  · exact hidle
  dsimp only
  split
  · exact hdefer
  · trivial
  split
  · exact hdefer
  split
  · exact hidle
  split
  · trivial
  split
  · trivial
  · next c hverify =>
    have hce : c.event = VerifiedEvent.ofEvent e := (VerifiedEventContent.verify_eq_some hverify).1
    have hid : c.event.id = id := by
      rw [hce]
      exact hI.1.keyed.id_eq he
    have hc : db.ev.events.get c.event.id = some c.event.event := by
      rw [hid, he, hce]
      rfl
    rw [← hid]
    exact processAdmittedContentTx_fetched hI hc now _ _

/-- Does a preparation already report the payload as materialized? -/
def PayloadAcquisitionPreparation.isMaterialized : PayloadAcquisitionPreparation → Bool
  | .materialized => true
  | _ => false

/-- What a preparation leaves behind. -/
def Prepared (D : Set VerifiedEvent) (id : ShortEventId) (db : Database)
    (r : Database × Except DbError PayloadAcquisitionPreparation) : Prop :=
  Grounds D r.1 ∧ match r.2 with
    | .ok preparation => Fetched id preparation.isMaterialized db.ev r.1.ev
    | .error _ => Fetched id false db.ev r.1.ev

variable {v : VerifiedEvent}

variable (env) in
theorem preparePayloadAcquisitionOnceDetailed_prepared (hcf : CollisionFree D) {db : Database} (hI : Grounds D db)
    (hv : v ∈ D) (he : db.ev.events.get v.id = some v.event) (p : Preparing) :
    Prepared D v.id db (preparePayloadAcquisitionOnceDetailed env db v p) := by
  have hidle : Fetched v.id false db.ev db.ev := .refl v.id db.ev
  unfold preparePayloadAcquisitionOnceDetailed
  split
  · exact ⟨hI, hidle⟩
  split
  · exact ⟨hI, hidle⟩
  next db₁ r₁ hprocess =>
  obtain ⟨hI₁, hev₁, hclasses₁⟩ := (processEventTx_stored_again hcf hI hv he p.now (.pushed none none)).of_ok hprocess
  have h₁ : Fetched v.id false db.ev db₁.ev := .of_same hev₁ hclasses₁
  have hstored : ∀ outcome db₂, tryMaterializeStoredPayload env {} db₁ v.id p.now p.ledger = .ok (db₂, outcome) →
      Grounds D db₂ ∧ Fetched v.id (decide (outcome = .processed)) db₁.ev db₂.ev := fun outcome db₂ hok =>
    (tryMaterializeStoredPayload_fetched hI₁ v.id p.now p.ledger).of_ok hok
  split
  · exact ⟨hI₁, h₁⟩
  · next db₂ hunavailable =>
    obtain ⟨hI₂, h₂⟩ := hstored _ _ hunavailable
    have h₂ : Fetched v.id false db.ev db₂.ev := h₁.trans h₂
    have he₂ : db₂.ev.events.get v.id = some v.event := by rw [h₂.events, he]
    have hreserve : ∀ outcome db₃, reservePayload env db₂ v p.now p.ledger = .ok (db₃, outcome) →
        Grounds D db₃ ∧ Fetched v.id false db.ev db₃.ev := by
      intro outcome db₃ hok
      obtain ⟨⟨db', r'⟩, hagain, hrest⟩ := bind_eq_ok.mp hok
      obtain ⟨⟨outcome', ledger'⟩, -, hdone⟩ := bind_eq_ok.mp hrest
      cases hdone
      obtain ⟨hI₃, hev₃, hclasses₃⟩ :=
        (processEventTx_stored_again hcf hI₂ hv he₂ p.now (.pushed none none)).of_ok hagain
      exact ⟨hI₃, h₂.trans (.of_same hev₃ hclasses₃)⟩
    split
    · exact ⟨hI₂, h₂⟩
    · next hok => exact hreserve _ _ hok
    · next hok => exact hreserve _ _ hok
    · next hok => exact hreserve _ _ hok
    · next hok => exact hreserve _ _ hok
  · next hok => exact ⟨(hstored _ _ hok).1, h₁.trans (hstored _ _ hok).2⟩
  · next hok => exact ⟨(hstored _ _ hok).1, h₁.trans (hstored _ _ hok).2⟩
  · next hok => exact ⟨(hstored _ _ hok).1, h₁.trans (hstored _ _ hok).2⟩
  · next hok => exact ⟨(hstored _ _ hok).1, h₁.trans (hstored _ _ hok).2⟩

variable (env) in
/-- A refusal is tried again, and has changed nothing that matters. -/
theorem preparePayloadAcquisitionDetailed_prepared (hcf : CollisionFree D) (hv : v ∈ D) (retries : List Preparing) :
    ∀ {db : Database}, Grounds D db → db.ev.events.get v.id = some v.event → ∀ p,
      Prepared D v.id db (preparePayloadAcquisitionDetailed env db v p retries) := by
  induction retries with
  | nil => exact fun hI he p => preparePayloadAcquisitionOnceDetailed_prepared env hcf hI hv he p
  | cons next retries ih =>
    intro db hI he p
    have honce := preparePayloadAcquisitionOnceDetailed_prepared env hcf hI hv he p
    unfold preparePayloadAcquisitionDetailed
    split
    · next db₁ reason heq =>
      rw [heq] at honce
      obtain ⟨hI₁, h₁⟩ := honce
      have h₁ : Fetched v.id false db.ev db₁.ev := h₁
      obtain ⟨hI₂, h₂⟩ := ih hI₁ (by rw [h₁.events, he]) next
      refine ⟨hI₂, ?_⟩
      split at h₂
      · next hr =>
        rw [hr]
        exact h₁.trans h₂
      · next hr =>
        rw [hr]
        exact h₁.trans h₂
    · next db₁ result _ heq =>
      rw [heq] at honce
      exact honce

/-- What a fetch leaves behind; the only errors are those of the storage. -/
def FetchedTo (D : Set VerifiedEvent) (id : ShortEventId) (db : Database)
    (r : Database × Except Stop ContentFetchOutcome) : Prop :=
  Grounds D r.1 ∧ match r.2 with
    | .ok outcome => Fetched id outcome.materialized db.ev r.1.ev
    | .error stop => (∃ e, stop = .storage e) ∧ Fetched id false db.ev r.1.ev

theorem FetchedTo.after {id : ShortEventId} {db db₁ : Database} {r : Database × Except Stop ContentFetchOutcome}
    (h : Fetched id false db.ev db₁.ev) (hr : FetchedTo D id db₁ r) : FetchedTo D id db r := by
  obtain ⟨hI, hr⟩ := hr
  refine ⟨hI, ?_⟩
  split at hr
  · exact h.trans hr
  · exact ⟨hr.1, h.trans hr.2⟩

theorem ingestWithOutcome_fetched (hcf : CollisionFree D) {db : Database} (hI : Grounds D db)
    {c : VerifiedEventContent} (hv : c.event ∈ D) (he : db.ev.events.get c.event.id = some c.event.event)
    (now : Timestamp) (ledger : AdmissionState) (buffer : Option PayloadBuffer) :
    FetchedTo D c.event.id db (ingestWithOutcome env db c now ledger buffer) := by
  have hprocess : Ensures (tryProcessAdmittedEventContent env {} db c now ledger buffer)
      (fun r => Grounds D r.1 ∧ Fetched c.event.id (decide (r.2 = .processed)) db.ev r.1.ev) (fun _ => True) := by
    unfold tryProcessAdmittedEventContent
    refine (processEventTx_stored_again hcf hI hv he now _).bind fun r ⟨hI₁, hev, hclasses⟩ => ?_
    have h₁ : Fetched c.event.id false db.ev r.1.ev := .of_same hev hclasses
    exact (processAdmittedContentTx_fetched hI₁ (by rw [hev, he]) now ledger buffer).mono
      (fun r' hr' => ⟨hr'.1, h₁.trans hr'.2⟩) fun _ h => h
  unfold ingestWithOutcome
  split
  · exact ⟨hI, ⟨_, rfl⟩, .refl _ _⟩
  · next db' reason hok =>
    obtain ⟨hI', h'⟩ := hprocess.of_ok hok
    exact ⟨hI', ⟨_, rfl⟩, h'⟩
  · next db' outcome hnot hok =>
    obtain ⟨hI', h'⟩ := hprocess.of_ok hok
    refine ⟨hI', ?_⟩
    cases outcome with
    | processed => exact h'
    | invalid => exact h'
    | unchanged => exact h'
    | unavailable => exact h'
    | deferred reason => exact (hnot reason rfl).elim

variable (env) in
/-- **A fetch** reports a materialization exactly if it was one, whatever the peers and the ledger did. -/
theorem fetchEventContentFromPeersDetailed_fetched (hcf : CollisionFree D) {db : Database} (hI : Grounds D db)
    (hv : v ∈ D) (he : db.ev.events.get v.id = some v.event) (r : Reading) :
    FetchedTo D v.id db (fetchEventContentFromPeersDetailed env db v r) := by
  unfold fetchEventContentFromPeersDetailed
  extract_lets read
  have hread : ∀ {db' : Database} (buffer : Option PayloadBuffer), Grounds D db' →
      Fetched v.id false db.ev db'.ev → FetchedTo D v.id db (read db' buffer) := by
    intro db' buffer hI' h'
    unfold read
    split
    · exact ⟨hI', ⟨_, rfl⟩, h'⟩
    split
    · exact ⟨hI', h'⟩
    · next c hc =>
      obtain ⟨b, -, hverify⟩ := Option.bind_eq_some_iff.mp hc
      obtain rfl : c.event = v := (VerifiedEventContent.verify_eq_some hverify).1
      exact FetchedTo.after h' (ingestWithOutcome_fetched hcf hI' hv (by rw [h'.events, he]) ..)
  have hprepared := preparePayloadAcquisitionDetailed_prepared env hcf hv r.retries hI he r.first
  split
  · next db' e heq =>
    rw [heq] at hprepared
    exact ⟨hprepared.1, ⟨_, rfl⟩, hprepared.2⟩
  · next db' heq =>
    rw [heq] at hprepared
    exact hprepared
  · next db' heq =>
    rw [heq] at hprepared
    exact hprepared
  · next db' reason heq =>
    rw [heq] at hprepared
    exact ⟨hprepared.1, ⟨_, rfl⟩, hprepared.2⟩
  · next db' heq =>
    rw [heq] at hprepared
    exact hread none hprepared.1 hprepared.2
  · next db' lease heq =>
    rw [heq] at hprepared
    exact hread (some lease) hprepared.1 hprepared.2

/-! ## 2. Envelopes

An answer is taken only if it has the author and the id that were asked for, and then it is processed. -/

/-- The envelopes that peers serve in a turn are those of the graph. -/
def Serves (D : Set VerifiedEvent) (author : RostraId) (turn : Turn) : Prop :=
  ∀ r ∈ turn.answers, ∀ id v, verifyResponse author id r = some v → v ∈ D

theorem verifyResponse_eq_some {id : ShortEventId} {r : SignedEvent} (h : verifyResponse author id r = some v) :
    v.event.author = author ∧ v.id = id := by
  unfold verifyResponse at h
  split at h
  · cases h
  next hauthor =>
  split at h
  · cases h
  next hid =>
  split at h
  · obtain rfl := Option.some.inj h
    exact ⟨(not_not.mp hauthor).symm, not_not.mp hid⟩
  · cases h

theorem getEventFromPeers_eq_some {turn : Turn} {id : ShortEventId} (hserves : Serves D author turn)
    (h : getEventFromPeers author id turn.answers = some v) : v ∈ D ∧ v.event.author = author ∧ v.id = id := by
  obtain ⟨r, hr, hv⟩ := List.exists_of_findSome?_eq_some h
  exact ⟨hserves r hr id v hv, verifyResponse_eq_some hv⟩

variable (env) in
/-- An envelope that is not stored is inserted. -/
theorem processEventTx_outcome (db : Database) (v : VerifiedEvent) (now : Timestamp) (source : EventReceivedSource)
    (hnew : db.ev.events.get v.id = none) :
    Ensures (processEventTx env {} db v now source) (fun r => r.2.1 ≠ .alreadyPresent) (fun _ => True) := by
  unfold processEventTx processEventInnerTx
  refine (ensures_true _).bind fun _ _ => ?_
  have hinner : Ensures (insertEventTx db.ev v >>= fun ins =>
      afterOutcomeTx env {} { db with ev := ins.1 } v now source ins.2 >>= fun db =>
        settleContentTx db.ev v ins.2 >>= fun settled =>
          (pure ({ db with ev := settled.1 }, ins.2, settled.2) :
            DbResult (Database × InsertEventOutcome × ProcessEventState)))
      (fun r => r.2.1 ≠ .alreadyPresent) (fun _ => True) := by
    refine (insertEventTx_effect db.ev v).bind fun ins hins => ?_
    refine (ensures_true _).bind fun _ _ => ?_
    refine (ensures_true _).bind fun _ _ => ?_
    cases hins with
    | present e he =>
      rw [hnew] at he
      cases he
    | new _ _ _ _ _ _ _ _ ho =>
      show ins.2 ≠ _
      rw [ho]
      simp
  refine hinner.bind fun r hr => ?_
  exact (ensures_true _).bind fun _ _ => hr

/-- **An envelope that was obtained** is the author's, and stored; if it was not there, it was inserted. -/
structure ObtainedFrom (D : Set VerifiedEvent) (author : RostraId) (id : ShortEventId) (db db' : Database)
    (o : Obtained) : Prop where
  ground : Grounds D db'
  mem : o.event ∈ D
  key : o.event.id = id
  author : o.event.event.author = author
  stored : db'.ev.events.get id = some o.event.event
  outcome : (o.alreadyPresent = true ∧ db' = db) ∨ (o.alreadyPresent = false ∧ db.ev.events.get id = none ∧
    db'.ev.events = db.ev.events.insert id o.event.event)

/-- No stored event is lost. -/
theorem ObtainedFrom.kept {id : ShortEventId} {db db' : Database} {o : Obtained}
    (h : ObtainedFrom D author id db db' o) (id' : ShortEventId) (e : Event)
    (he : db.ev.events.get id' = some e) : db'.ev.events.get id' = some e := by
  rcases h.outcome with ⟨-, rfl⟩ | ⟨-, hnew, hevents⟩
  · exact he
  · rw [hevents]
    exact Table.get_insert_new hnew he

theorem obtainEvent_obtained (hcf : CollisionFree D) {db db' : Database} (hI : Grounds D db) {turn : Turn}
    (hserves : Serves D author turn) {id : ShortEventId} {o : Obtained}
    (h : obtainEvent env author db id turn = .ok (db', some o)) : ObtainedFrom D author id db db' o := by
  unfold obtainEvent at h
  split at h
  · next e he =>
    cases h
    obtain ⟨hstored, hauthor⟩ := Option.filter_eq_some_iff.mp he
    obtain ⟨w, hw, hid, rfl⟩ := hI.1.keyed _ _ hstored
    rw [← hid] at hstored ⊢
    exact ⟨hI, by simpa using hw, by simp, of_decide_eq_true hauthor, hstored,
      .inl ⟨by simp [Obtained.alreadyPresent], rfl⟩⟩
  next hother =>
  split at h
  · cases h
  next v hv =>
  obtain ⟨hD, hauthor, hid⟩ := getEventFromPeers_eq_some hserves hv
  split at h
  · cases h
  · next db₁ outcome state hok =>
    cases h
    have hnew : db.ev.events.get v.id = none := by
      cases hget : db.ev.events.get v.id with
      | none => rfl
      | some e =>
        -- the only event with this id is the author's
        have hevent := hI.1.keyed.event_eq hcf hD hget
        rw [← hid, hget, hevent] at hother
        simp [hauthor] at hother
    have hI' := (processEventTx_keeps (oversizedOut_keeps D) hcf hI hD turn.now (.pushed none none)).of_ok hok
    have houtcome := (processEventTx_outcome env db v turn.now (.pushed none none) hnew).of_ok hok
    have hevents : db'.ev.events = db.ev.events.insert v.id v.event := by
      cases (processEventTx_effect env {} db v turn.now (.pushed none none)).of_ok hok with
      | present e he =>
        rw [hnew] at he
        cases he
      | new _ t₁ isD dp rev hins hfin => rw [hfin.events, hins.events]
    rw [← hid]
    refine ⟨hI', hD, rfl, hauthor, by rw [hevents, Table.get_insert_self], .inr ⟨?_, hnew, hevents⟩⟩
    simpa [Obtained.alreadyPresent] using houtcome

theorem obtainEvent_missed {db db' : Database} {turn : Turn} {id : ShortEventId}
    (h : obtainEvent env author db id turn = .ok (db', none)) : db' = db := by
  unfold obtainEvent at h
  split at h
  · cases h
  split at h
  · cases h
    rfl
  split at h
  · cases h
  · cases h

/-! ## 3. What the call has changed

The flag is set by an envelope that was inserted and by content that was materialized, and the call returns it. -/

/-- An envelope was inserted. -/
def NewEnvelope (t₀ t : EventTables) : Prop := ∃ id, t₀.events.get id = none ∧ (t.events.get id).isSome = true

/-- Awaited content was materialized. -/
def Materialized (t₀ t : EventTables) : Prop :=
  ∃ id, contentClass t₀ id = .missing ∧ contentClass t id = .current

/-- **What the flag says.**  As long as no envelope was inserted, content that was awaited was settled and nothing
else moved. -/
def Flagged (t₀ t : EventTables) (flag : Bool) : Prop :=
  (NewEnvelope t₀ t ∧ flag = true) ∨
    (t.events = t₀.events ∧ (flag = true ↔ Materialized t₀ t) ∧
      ∀ id, contentClass t id = contentClass t₀ id ∨
        contentClass t₀ id = .missing ∧ (contentClass t id = .invalid ∨ contentClass t id = .current))

omit [Primitives] in
theorem Flagged.iff {t₀ t : EventTables} {flag : Bool} (h : Flagged t₀ t flag) :
    flag = true ↔ NewEnvelope t₀ t ∨ Materialized t₀ t := by
  rcases h with ⟨hnew, hflag⟩ | ⟨hev, hflag, -⟩
  · exact iff_of_true hflag (.inl hnew)
  · rw [hflag, or_iff_right]
    rintro ⟨id, hnone, hsome⟩
    rw [hev, hnone] at hsome
    cases hsome

omit [Primitives] in
theorem Flagged.start (t : EventTables) : Flagged t t false := by
  refine .inr ⟨rfl, iff_of_false (by simp) ?_, fun _ => .inl rfl⟩
  rintro ⟨id, hmissing, hcurrent⟩
  rw [hmissing] at hcurrent
  cases hcurrent

omit [Primitives] in
theorem Flagged.fetched {t₀ t t' : EventTables} {flag materialized : Bool} {id : ShortEventId}
    (h : Flagged t₀ t flag) (hf : Fetched id materialized t t') : Flagged t₀ t' (flag || materialized) := by
  rcases h with ⟨⟨id', hnone, hsome⟩, hflag⟩ | ⟨hev, hflag, hclasses⟩
  · exact .inl ⟨⟨id', hnone, by rw [hf.events, hsome]⟩, by rw [hflag, Bool.true_or]⟩
  refine .inr ⟨hf.events.trans hev, ?_, ?_⟩
  · obtain ⟨rfl, hmissing, hcurrent⟩ | ⟨rfl, hown⟩ := hf.own
    · refine iff_of_true (Bool.or_true _) ⟨id, ?_, hcurrent⟩
      rcases hclasses id with hsame | ⟨hmissing₀, -⟩
      · rw [← hsame, hmissing]
      · exact hmissing₀
    · rw [Bool.or_false, hflag]
      have hcurrent : ∀ id', contentClass t' id' = .current ↔ contentClass t id' = .current := by
        intro id'
        by_cases hid : id' = id
        · subst hid
          rcases hown with hsame | ⟨hmissing, hinvalid⟩
          · rw [hsame]
          · rw [hmissing, hinvalid]
            simp
        · rw [hf.others id' hid]
      unfold Materialized
      simp only [hcurrent]
  · intro id'
    by_cases hid : id' = id
    · subst hid
      obtain ⟨-, hmissing, hcurrent⟩ | ⟨-, hsame | ⟨hmissing, hinvalid⟩⟩ := hf.own
      · rcases hclasses id' with hsame | ⟨hmissing₀, hrest⟩
        · exact .inr ⟨hsame.symm.trans hmissing, .inr hcurrent⟩
        · exact .inr ⟨hmissing₀, .inr hcurrent⟩
      · rw [hsame]
        exact hclasses id'
      · rcases hclasses id' with hsame | ⟨hmissing₀, hrest⟩
        · exact .inr ⟨hsame.symm.trans hmissing, .inl hinvalid⟩
        · exact .inr ⟨hmissing₀, .inl hinvalid⟩
    · rw [hf.others id' hid]
      exact hclasses id'

/-- The database of a call: nothing is lost, and what is new is the author's. -/
structure Held (D : Set VerifiedEvent) (author : RostraId) (db₀ db : Database) (flag : Bool) : Prop where
  ground : Grounds D db
  kept : ∀ id e, db₀.ev.events.get id = some e → db.ev.events.get id = some e
  added : ∀ id e, db.ev.events.get id = some e → db₀.ev.events.get id = some e ∨ e.author = author
  flagged : Flagged db₀.ev db.ev flag

theorem Held.start {db : Database} (hI : Grounds D db) : Held D author db db false :=
  ⟨hI, fun _ _ h => h, fun _ _ h => .inl h, .start _⟩

theorem Held.fetched {db₀ db db' : Database} {flag materialized : Bool} {id : ShortEventId}
    (h : Held D author db₀ db flag) (hI : Grounds D db') (hf : Fetched id materialized db.ev db'.ev) :
    Held D author db₀ db' (flag || materialized) :=
  ⟨hI, by rw [hf.events]; exact h.kept, by rw [hf.events]; exact h.added, h.flagged.fetched hf⟩

theorem Held.obtained {db₀ db db' : Database} {flag : Bool} {id : ShortEventId} {o : Obtained}
    (h : Held D author db₀ db flag) (ho : ObtainedFrom D author id db db' o) :
    Held D author db₀ db' (flag || !o.alreadyPresent) := by
  rcases ho.outcome with ⟨hpresent, rfl⟩ | ⟨hpresent, hnew, hevents⟩
  · rw [hpresent, Bool.not_true, Bool.or_false]
    exact h
  · rw [hpresent, Bool.not_false, Bool.or_true]
    refine ⟨ho.ground, ?_, ?_, .inl ⟨⟨id, ?_, by rw [ho.stored]; rfl⟩, rfl⟩⟩
    · exact fun id' e he => ho.kept id' e (h.kept id' e he)
    · intro id' e he
      by_cases hid : id' = id
      · rw [hid, ho.stored] at he
        exact .inr (Option.some.inj he ▸ ho.author)
      · rw [hevents, Table.get_insert_of_ne _ _ hid] at he
        exact h.added id' e he
    · cases hget : db₀.ev.events.get id with
      | none => rfl
      | some e =>
        rw [h.kept id e hget] at hnew
        cases hnew

/-! ## 4. The invariant of a call

The labels of a call are what it requested, obtained and fetched. Each is about a stored event of the graph, and
each event is obtained once, because an event that is stored is not asked for again. -/

/-- The event that a label is about. -/
def Label.about? : Label → Option (ShortEventId × VerifiedEvent)
  | .found id v _ _ => some (id, v)
  | .missed _ => none
  | .expanded id v => some (id, v)
  | .payload id request => request.map (id, ·)

/-- A stored event of the graph, of the requested author. -/
structure About (D : Set VerifiedEvent) (author : RostraId) (db : Database) (id : ShortEventId) (v : VerifiedEvent) :
    Prop where
  mem : v ∈ D
  key : v.id = id
  author : v.event.author = author
  stored : db.ev.events.get id = some v.event

theorem ObtainedFrom.about {id : ShortEventId} {db db' : Database} {o : Obtained}
    (h : ObtainedFrom D author id db db' o) : About D author db' id o.event :=
  ⟨h.mem, h.key, h.author, h.stored⟩

/-- What a call has shown and what it has queued is about such events. -/
structure Seen (D : Set VerifiedEvent) (author : RostraId) (s : Download) (trace : List Label) : Prop where
  labels : ∀ label ∈ trace, ∀ id v, label.about? = some (id, v) → About D author s.db id v
  rows : ∀ id item v, s.inQueue.get id = some item → item.event = some v → About D author s.db id v

variable {s s' : Download} {trace shown : List Label} {turn : Turn}

/-- The rule for one more step, which loses no stored event. -/
theorem Seen.next (h : Seen D author s trace)
    (hkept : ∀ id e, s.db.ev.events.get id = some e → s'.db.ev.events.get id = some e)
    (hlabels : ∀ label ∈ shown, ∀ id v, label.about? = some (id, v) → About D author s'.db id v)
    (hrows : ∀ id item v, s'.inQueue.get id = some item → item.event = some v →
      (∃ item', s.inQueue.get id = some item' ∧ item'.event = some v) ∨ About D author s'.db id v) :
    Seen D author s' (trace ++ shown) := by
  have hmono : ∀ id v, About D author s.db id v → About D author s'.db id v :=
    fun id v hv => ⟨hv.mem, hv.key, hv.author, hkept id v.event hv.stored⟩
  refine ⟨fun label hlabel id v hv => ?_, fun id item v hitem hv => ?_⟩
  · rcases List.mem_append.mp hlabel with hold | hnew
    · exact hmono id v (h.labels label hold id v hv)
    · exact hlabels label hnew id v hv
  · rcases hrows id item v hitem hv with ⟨item', hitem', hv'⟩ | habout
    · exact hmono id v (h.rows id item' v hitem' hv')
    · exact habout

/-- An entry that is taken out leaves the other rows. -/
theorem pop_rows {popped id : ShortEventId} {item : QueueItemData} {v : VerifiedEvent}
    (h : (s.inQueue.remove popped).get id = some item) (hv : item.event = some v) :
    ∃ item', s.inQueue.get id = some item' ∧ item'.event = some v :=
  ⟨item, Table.get_of_remove h, hv⟩

/-- The rows after an envelope was obtained. -/
theorem file_rows {popped : ShortEventId} {item₀ : QueueItemData} {db : Database} {o : Obtained}
    (ho : ObtainedFrom D author popped s.db db o) {id : ShortEventId} {item : QueueItemData} {v : VerifiedEvent}
    (h : (((s.pop unkeyed popped).onto db).file popped item₀ o).inQueue.get id = some item)
    (hv : item.event = some v) :
    (∃ item', s.inQueue.get id = some item' ∧ item'.event = some v) ∨ About D author db id v := by
  unfold Download.file at h
  by_cases hid : id = popped
  · rw [hid, Table.get_insert_self] at h
    obtain rfl := Option.some.inj h
    obtain rfl := Option.some.inj hv
    exact .inr ⟨ho.mem, ho.key.trans hid.symm, ho.author, hid ▸ ho.stored⟩
  · rw [Table.get_insert_of_ne _ _ hid] at h
    exact .inl ⟨item, Table.get_of_remove h, hv⟩

/-- Queueing parents adds no envelope. -/
theorem queueParents_rows {timestamp depth : ℕ} {parents : List ShortEventId} (hnodup : parents.Nodup)
    {id : ShortEventId} {item : QueueItemData} {v : VerifiedEvent}
    (h : (parents.foldl (Download.queueParent timestamp depth) s).inQueue.get id = some item)
    (hv : item.event = some v) : ∃ item', s.inQueue.get id = some item' ∧ item'.event = some v := by
  rw [queueParents_get hnodup] at h
  split at h
  · obtain rfl := Option.some.inj h
    cases hget : s.inQueue.get id with
    | some existing =>
      rw [hget] at hv
      exact ⟨existing, rfl, hv⟩
    | none =>
      rw [hget] at hv
      cases hv
  · exact ⟨item, h, hv⟩

/-- **The invariant of a call.** The labels tell what was done, the queue what is left, and the flag whether
anything was materialized. -/
structure Served (D : Set VerifiedEvent) (author : RostraId) (db₀ : Database) (s : Download) (trace : List Label) :
    Prop where
  told : Told trace
  paired : Paired Fits s.queue s.inQueue
  law : s.result = none → Law s trace
  held : Held D author db₀ s.db s.downloadedAnything
  seen : Seen D author s trace
  stopped : ∀ r, s.result = some r → (∃ e, r = .error (.storage e)) ∨
    (r = .ok s.downloadedAnything ∧ ∀ id ∈ foundIds trace, id ∈ payloadIds trace)

/-- What a call leaves when its queue is empty. -/
theorem Law.finished (h : Law s trace) (hempty : s.queue = ∅) : ∀ id ∈ foundIds trace, id ∈ payloadIds trace := by
  intro id hid
  obtain ⟨v, timestamp, depth, hv⟩ := mem_foundIds.mp hid
  by_contra hnot
  have hmem := h.waiting.mpr ⟨⟨v, hv⟩, hnot⟩
  rw [hempty] at hmem
  exact absurd hmem (Finset.notMem_empty _)

/-- **One iteration** keeps the invariant. -/
theorem Moved.served (hcf : CollisionFree D) {db₀ : Database} (hserves : Serves D author turn)
    (h : Moved env author s turn s' shown) (hj : Served D author db₀ s trace) (hrunning : s.result = none) :
    Served D author db₀ s' (trace ++ shown) := by
  have hlaw := hj.law hrunning
  obtain ⟨htold, hlaw'⟩ := h.keeps hlaw hj.told
  have hpaired := h.paired hj.paired
  -- a loop that goes on has no result
  have hnone : ∀ {P : Prop} {r : Except Stop Bool} {x : Option (Except Stop Bool)},
      x = some r → x = s.result → P := by
    intro P r x hr hx
    rw [hx, hrunning] at hr
    cases hr
  cases h with
  | finished hempty =>
    rw [List.append_nil] at htold ⊢
    refine ⟨htold, hpaired, (by cases ·), hj.held, ⟨hj.seen.labels, hj.seen.rows⟩, fun r hr => ?_⟩
    obtain rfl := Option.some.inj hr
    exact .inr ⟨rfl, hlaw.finished hempty⟩
  | unwanted hnext =>
    refine ⟨htold, hpaired, hlaw', hj.held, hj.seen.next (fun _ _ he => he) ?_ ?_, fun _ hr => hnone hr rfl⟩
    · intro label hlabel id v hv
      obtain rfl := List.mem_singleton.mp hlabel
      cases hv
    · exact fun _ _ _ hitem hv => .inl (pop_rows hitem hv)
  | @refused timestamp depth id item state v db stop hnext hstate hevent hwants hfetch =>
    have habout := hj.seen.rows id item v hnext.row hevent
    have hfetched := fetchEventContentFromPeersDetailed_fetched env hcf hj.held.ground habout.mem
      (by rw [habout.key, habout.stored]) turn.reading
    rw [hfetch] at hfetched
    obtain ⟨hI, hstorage, hf⟩ := hfetched
    have hheld := hj.held.fetched hI hf
    rw [Bool.or_false] at hheld
    refine ⟨htold, hpaired, hlaw', hheld, hj.seen.next ?_ ?_ ?_, fun r hr => ?_⟩
    · exact fun id' e he => hf.events ▸ he
    · intro label hlabel id' v' hv
      obtain rfl := List.mem_singleton.mp hlabel
      cases hv
      exact ⟨habout.mem, habout.key, habout.author, hf.events ▸ habout.stored⟩
    · exact fun _ _ _ hitem hv => .inl (pop_rows hitem hv)
    · obtain rfl := Option.some.inj hr
      obtain ⟨e, rfl⟩ := hstorage
      exact .inl ⟨e, rfl⟩
  | @read timestamp depth id item state v db outcome hnext hstate hevent hwants hfetch =>
    have habout := hj.seen.rows id item v hnext.row hevent
    have hfetched := fetchEventContentFromPeersDetailed_fetched env hcf hj.held.ground habout.mem
      (by rw [habout.key, habout.stored]) turn.reading
    rw [hfetch] at hfetched
    obtain ⟨hI, hf⟩ := hfetched
    have hf : Fetched v.id outcome.materialized s.db.ev db.ev := hf
    refine ⟨htold, hpaired, hlaw', hj.held.fetched hI hf, hj.seen.next ?_ ?_ ?_, fun _ hr => hnone hr rfl⟩
    · exact fun id' e he => hf.events ▸ he
    · intro label hlabel id' v' hv
      obtain rfl := List.mem_singleton.mp hlabel
      cases hv
      exact ⟨habout.mem, habout.key, habout.author, hf.events ▸ habout.stored⟩
    · exact fun _ _ _ hitem hv => .inl (pop_rows hitem hv)
  | failed hnext =>
    refine ⟨htold, hpaired, hlaw', hj.held, hj.seen.next (fun _ _ he => he) ?_ ?_, fun r hr => ?_⟩
    · exact fun label hlabel => absurd hlabel List.not_mem_nil
    · exact fun _ _ _ hitem hv => .inl (pop_rows hitem hv)
    · obtain rfl := Option.some.inj hr
      exact .inl ⟨_, rfl⟩
  | @missed id item db hnext hobtain =>
    obtain rfl := obtainEvent_missed hobtain
    refine ⟨htold, hpaired, hlaw', hj.held, hj.seen.next (fun _ _ he => he) ?_ ?_, fun _ hr => hnone hr rfl⟩
    · intro label hlabel id' v' hv
      obtain rfl := List.mem_singleton.mp hlabel
      cases hv
    · exact fun _ _ _ hitem hv => .inl (pop_rows hitem hv)
  | @left id item db o hnext hstate hobtain =>
    have ho := obtainEvent_obtained hcf hj.held.ground hserves hobtain
    have hheld := hj.held.obtained ho
    refine ⟨htold, hpaired, hlaw', hheld, hj.seen.next ?_ ?_ ?_, fun _ hr => hnone hr rfl⟩
    · exact ho.kept
    · intro label hlabel id' v' hv
      obtain rfl := List.mem_singleton.mp hlabel
      cases hv
      exact ho.about
    · exact fun _ _ _ hitem hv => file_rows ho hitem hv
  | @expanded id item db o hnext hstate hobtain =>
    have ho := obtainEvent_obtained hcf hj.held.ground hserves hobtain
    have hheld := hj.held.obtained ho
    refine ⟨htold, hpaired, hlaw', ?_, hj.seen.next ?_ ?_ ?_, fun _ hr => hnone hr queueParents_result⟩
    · rw [queueParents_db, queueParents_flag]
      exact hheld
    · rw [queueParents_db]
      exact ho.kept
    · rw [queueParents_db]
      intro label hlabel id' v' hv
      rcases List.mem_cons.mp hlabel with rfl | hlabel
      · cases hv
        exact ho.about
      · obtain rfl := List.mem_singleton.mp hlabel
        cases hv
        exact ho.about
    · rw [queueParents_db]
      intro id' item' v' hitem hv
      obtain ⟨item'', hitem'', hv''⟩ := queueParents_rows (allParents_nodup _) hitem hv
      exact file_rows ho hitem'' hv''

/-! ## 5. The end of a call

The measure is the number of envelopes that are still to be obtained, and then the length of the queue. -/

omit [Primitives] in
theorem allParents_length (e : Event) : (allParents e).length ≤ 2 := by
  unfold allParents
  split
  · split
    · simp
    · split <;> simp
  · simp
  · simp
  · simp

/-- Each parent adds at most one entry. -/
theorem queueParents_card (timestamp depth : ℕ) (parents : List ShortEventId) (s : Download) :
    (parents.foldl (Download.queueParent timestamp depth) s).queue.card ≤ s.queue.card + parents.length := by
  induction parents generalizing s with
  | nil => exact Nat.le_refl _
  | cons parent parents ih =>
    have hone : (s.queueParent timestamp depth parent).queue.card ≤ s.queue.card + 1 := by
      unfold Download.queueParent
      split
      · exact Nat.le_succ _
      · exact Finset.card_insert_le _ _
    rw [List.foldl_cons, List.length_cons]
    exact (ih _).trans (by omega)

/-- The envelopes that were not obtained yet, and the entries of the queue. -/
noncomputable def pending (D : Set VerifiedEvent) (s : Download) (trace : List Label) : ℕ :=
  3 * (D.ncard - (foundIds trace).length) + s.queue.card

/-- A call obtains no more envelopes than there are. -/
theorem Served.found_le (hfin : D.Finite) {db₀ : Database} (h : Served D author db₀ s trace) :
    (foundIds trace).length ≤ D.ncard := by
  have hsub : (↑(foundIds trace).toFinset : Set ShortEventId) ⊆ VerifiedEvent.id '' D := by
    intro id hid
    obtain ⟨v, timestamp, depth, hv⟩ := mem_foundIds.mp (List.mem_toFinset.mp hid)
    have habout := h.seen.labels _ hv id v rfl
    exact ⟨v, habout.mem, habout.key⟩
  have hcard := Set.ncard_le_ncard hsub (hfin.image _)
  rw [Set.ncard_coe_finset, List.toFinset_card_of_nodup h.told.found_once] at hcard
  exact hcard.trans (Set.ncard_image_le hfin)

/-- **Each turn makes progress**: it takes an entry out, and one that comes back was not obtained before. -/
theorem Moved.pending_lt (hfin : D.Finite) {db₀ : Database} (h : Moved env author s turn s' shown)
    (hj : Served D author db₀ s' (trace ++ shown)) (hrunning : s'.result = none) :
    pending D s' (trace ++ shown) < pending D s trace := by
  have hle := hj.found_le hfin
  have herase : ∀ {k id item}, Next s k id item → (s.queue.erase (toLex (k, id))).card + 1 = s.queue.card :=
    fun hnext => Finset.card_erase_add_one hnext.mem
  unfold pending
  rw [foundIds_append, List.length_append] at hle ⊢
  cases h with
  | finished => cases hrunning
  | unwanted hnext =>
    have := herase hnext
    simp only [foundIds_payload, List.length_nil, Download.pop] at hle ⊢
    omega
  | refused => cases hrunning
  | read hnext =>
    have := herase hnext
    simp only [foundIds_payload, List.length_nil, Download.onto, Download.pop] at hle ⊢
    omega
  | failed => cases hrunning
  | missed hnext =>
    have := herase hnext
    simp only [foundIds_missed, List.length_nil, Download.onto, Download.pop] at hle ⊢
    omega
  | @left id item db o hnext =>
    have h₁ := herase hnext
    have h₂ := Finset.card_insert_le
      (toLex (keyed (min item.childTimestamp o.event.event.timestamp) item.depth, id))
      (s.queue.erase (toLex (unkeyed, id)))
    simp only [foundIds_found, List.length_singleton, Download.file, Download.onto, Download.pop] at hle ⊢
    omega
  | @expanded id item db o hnext =>
    have h₁ := herase hnext
    have h₂ := Finset.card_insert_le
      (toLex (keyed (min item.childTimestamp o.event.event.timestamp) item.depth, id))
      (s.queue.erase (toLex (unkeyed, id)))
    have h₃ := queueParents_card (min item.childTimestamp o.event.event.timestamp) (item.depth + 1)
      (allParents o.event.event) (((s.pop unkeyed id).onto db).file id item o)
    have hfiled : (((s.pop unkeyed id).onto db).file id item o).queue =
        insert (toLex (keyed (min item.childTimestamp o.event.event.timestamp) item.depth, id))
          (s.queue.erase (toLex (unkeyed, id))) := rfl
    rw [hfiled] at h₃
    have h₄ := allParents_length o.event.event
    have hshown : foundIds [.found id o.event (min item.childTimestamp o.event.event.timestamp) item.depth,
        .expanded id o.event] = [id] := rfl
    simp only [hshown, List.length_singleton] at hle ⊢
    omega

theorem Served.start {db : Database} (hI : Grounds D db) (head : ShortEventId) :
    Served D author db (.start head db) [] where
  told := .start
  paired := (Law.start head db).paired
  law _ := .start head db
  held := .start hI
  seen := by
    refine ⟨fun _ hlabel => absurd hlabel List.not_mem_nil, fun id item v hitem hv => ?_⟩
    unfold Download.start at hitem
    rw [Table.get_insert, Table.get_empty] at hitem
    split at hitem
    · obtain rfl := Option.some.inj hitem
      cases hv
    · cases hitem
  stopped _ hr := by cases hr

theorem step_none {s : Download} (h : s.result.isSome = true) (turn : Turn) : step env author s turn = none := by
  unfold step
  rw [if_pos h]

variable (env author) in
/-- A call that has no result takes a step. -/
theorem step_some {s : Download} (h : s.result = none) (turn : Turn) :
    ∃ s' shown, step env author s turn = some (s', shown) := by
  unfold step
  rw [h]
  split
  · next hcon => cases hcon
  split
  · exact ⟨_, _, rfl⟩
  dsimp only
  split
  · exact ⟨_, _, rfl⟩
  split
  · exact ⟨_, _, rfl⟩
  split
  · exact ⟨_, _, rfl⟩
  · exact ⟨_, _, rfl⟩

variable (hcf : CollisionFree D)
include hcf

variable (env author) in
/-- **Every call** keeps the invariant. -/
theorem downloaded_served {db : Database} (hI : Grounds D db) (head : ShortEventId) {turns : List Turn}
    (hserves : ∀ turn ∈ turns, Serves D author turn) :
    Served D author db (downloadEventsFromChild env author head db turns).1
      (downloadEventsFromChild env author head db turns).2 := by
  refine Machine.run_invariant (.start hI head) turns ?_
  intro turn hturn s trace s' shown hj hstep
  obtain ⟨hrunning, hmoved⟩ := step_cases hj.paired hstep
  exact hmoved.served hcf (hserves turn hturn) hj hrunning

/-- **Every call comes to an end.** -/
theorem downloaded_halts (hfin : D.Finite) {db : Database} (hI : Grounds D db) (head : ShortEventId)
    {turns : List Turn} (hserves : ∀ turn ∈ turns, Serves D author turn) (hlong : 3 * D.ncard + 1 < turns.length) :
    (downloadEventsFromChild env author head db turns).1.result.isSome = true := by
  refine Machine.run_halts (J := Served D author db) (fun s => s.result.isSome = true) (pending D)
    (.start hI head) turns (fun s a hdone => step_none hdone a) ?_ ?_
  · intro turn hturn s trace hj hnot
    have hrunning : s.result = none := Option.not_isSome_iff_eq_none.mp hnot
    obtain ⟨s', shown, hstep⟩ := step_some env author hrunning turn
    have hmoved := (step_cases hj.paired hstep).2
    have hj' := hmoved.served hcf (hserves turn hturn) hj hrunning
    exact ⟨s', shown, hstep, hj', fun hgoes => hmoved.pending_lt hfin hj' (Option.not_isSome_iff_eq_none.mp hgoes)⟩
  · exact hlong

omit hcf in
/-- **The download of a graph.**  It comes to an end, the queue and its table are in step, an error is one of the
storage, each envelope is obtained once and has its payload phase once, everything is about the author's events,
and the flag says whether an envelope was inserted or a payload materialized. -/
theorem download_graph (env : Env) (author : RostraId) (head : ShortEventId) {D : Set VerifiedEvent}
    (hfin : D.Finite) (hcf : CollisionFree D) {ops : List Op} (hD : DeliveredFrom D ops) {turns : List Turn}
    (hserves : ∀ turn ∈ turns, Serves D author turn) :
    let db := reached env ops
    let s := (downloadEventsFromChild env author head db turns).1
    let trace := (downloadEventsFromChild env author head db turns).2
    (3 * D.ncard + 1 < turns.length → s.result.isSome = true) ∧
      Paired Fits s.queue s.inQueue ∧
      (∀ stop, s.result = some (.error stop) → ∃ e, stop = .storage e) ∧
      (foundIds trace).Nodup ∧
      (∀ label ∈ trace, ∀ id v, label.about? = some (id, v) → v.event.author = author) ∧
      (∀ id e, s.db.ev.events.get id = some e → db.ev.events.get id = some e ∨ e.author = author) ∧
      (∀ before label after, trace = before ++ label :: after → label.payload? = none → payloadIds before = []) ∧
      ∀ b, s.result = some (.ok b) → (payloadIds trace).Perm (foundIds trace) ∧
        (b = true ↔ NewEnvelope db.ev s.db.ev ∨ Materialized db.ev s.db.ev) := by
  have hI : Grounds D (reached env ops) := reached_keeps env (oversizedOut_keeps D) hcf oversizedOut_empty ops hD
  have hj := downloaded_served env author hcf hI head hserves
  refine ⟨downloaded_halts hcf hfin hI head hserves, hj.paired, ?_, hj.told.found_once, ?_, hj.held.added,
    hj.told.staged, ?_⟩
  · intro stop hstop
    rcases hj.stopped _ hstop with ⟨e, he⟩ | ⟨hcon, -⟩
    · exact ⟨e, Except.error.inj he⟩
    · cases hcon
  · exact fun label hlabel id v hv => (hj.seen.labels label hlabel id v hv).author
  · intro b hb
    rcases hj.stopped _ hb with ⟨e, hcon⟩ | ⟨hflag, hall⟩
    · cases hcon
    · rw [Except.ok.inj hflag]
      refine ⟨?_, hj.held.flagged.iff⟩
      exact (List.perm_ext_iff_of_nodup hj.told.payload_once hj.told.found_once).mpr fun id =>
        ⟨hj.told.payload_found id, hall id⟩

end Graph

/-! ### A small graph -/

section Sample

attribute [local instance] Primitives.reference

/-- A post of the same author on top of the first one. -/
def sampleReply : Event :=
  { kind := EventKind.SOCIAL_POST, contentLen := 2, timestamp := 2, author := toLex (1, 1)
    parentPrev := some 1, contentHash := blake3 [0, 65] }

def sampleGraph : Set VerifiedEvent := { v | v ∈ [VerifiedEvent.ofEvent samplePost, .ofEvent sampleReply] }

/-- A peer that serves the graph and the payload, which both events share. -/
def sampleTurn : Turn where
  now := 9
  answers := [⟨samplePost, true⟩, ⟨sampleReply, true⟩]
  random := 0
  reading := { first := { now := 9, ledger := {} }, race := .ok (some [0, 65]), now := 9, ledger := {} }

theorem sampleTurn_serves (author : RostraId) : Serves sampleGraph author sampleTurn := by
  intro r hr id v hv
  unfold verifyResponse at hv
  split at hv
  · cases hv
  split at hv
  · cases hv
  split at hv
  · obtain rfl := Option.some.inj hv
    rcases List.mem_cons.mp hr with rfl | hr
    · exact List.mem_cons_self
    · obtain rfl := List.mem_singleton.mp hr
      exact List.mem_cons_of_mem _ List.mem_cons_self
  · cases hv

/-- From an empty database, both events are downloaded with their payloads. -/
theorem download_graph_sampleGraph :
    let call := downloadEventsFromChild sampleEnv (toLex (1, 1)) 2 (reached sampleEnv [])
      (List.replicate 9 sampleTurn)
    let s := call.1
    let trace := call.2
    s.result = some (.ok true) ∧ (foundIds trace).Nodup ∧ (payloadIds trace).Perm (foundIds trace) ∧
      (NewEnvelope (reached sampleEnv []).ev s.db.ev ∨ Materialized (reached sampleEnv []).ev s.db.ev) := by
  have hcf : CollisionFree sampleGraph := by
    have hall : ∀ v ∈ [VerifiedEvent.ofEvent samplePost, .ofEvent sampleReply],
        ∀ w ∈ [VerifiedEvent.ofEvent samplePost, .ofEvent sampleReply], v.id = w.id → v = w := by decide
    exact fun v hv w hw => hall v hv w hw
  have hD : DeliveredFrom sampleGraph [] := fun _ ho => absurd ho List.not_mem_nil
  have hserves : ∀ turn ∈ List.replicate 9 sampleTurn, Serves sampleGraph (toLex (1, 1)) turn :=
    fun turn hturn => List.eq_of_mem_replicate hturn ▸ sampleTurn_serves _
  obtain ⟨-, -, -, honce, -, -, -, hdone⟩ :=
    download_graph sampleEnv (toLex (1, 1)) 2 (List.finite_toSet _) hcf hD hserves
  have hflag : (downloadEventsFromChild sampleEnv (toLex (1, 1)) 2 (reached sampleEnv [])
      (List.replicate 9 sampleTurn)).1.result.bind (·.toOption) = some true := by decide +kernel
  have hresult : (downloadEventsFromChild sampleEnv (toLex (1, 1)) 2 (reached sampleEnv [])
      (List.replicate 9 sampleTurn)).1.result = some (.ok true) := by
    obtain ⟨r, hr, hok⟩ := Option.bind_eq_some_iff.mp hflag
    cases r with
    | error => cases hok
    | ok b =>
      cases hok
      exact hr
  obtain ⟨hperm, hchanged⟩ := hdone true hresult
  exact ⟨hresult, honce, hperm, hchanged.mp rfl⟩

end Sample

end Rostra.DownloadEvents
