/-
# Fed events

What callers can do to a database, and what they may rely on.

* `Feed.step_moved` is one step of a call: a transaction on the one header that was admitted, or nothing.  So
  a node that serves calls in any order is in a state that its own transactions reach, from envelopes that it
  brought in itself or that it admitted (`feeding_admits`).
* A call that ends with `0` or `RETURN_CODE_ALREADY_HAVE` is an acknowledgment: the caller stops feeding the
  event.  Then the header is stored and its content is not awaited, and so it stays (`feeding_settles`).

Callers are not assumed to be well behaved, and a call may be cancelled between any two steps, so that nothing is
said about a call that does not answer. What is said about those that do is that the answer is true when it is
given and remains so.
-/
import Rostra.Client.RequestHandler
import Rostra.Proofs.Connection
import Rostra.Proofs.DownloadGraph
import Rostra.Proofs.Redelivery

namespace Rostra.RequestHandler

open Rostra Db P2p Outcome

section Feeding

variable [Primitives] {env : Env}

/-! ## 1. What a call is about

Whatever a caller sends, the handler admits one header at most, and all it does later is about that header. -/

/-- The header that was admitted. -/
def Feed.event? : Feed → Option VerifiedEvent
  | .tooLarge v | .preparing v | .materializing v | .reserving v | .leased v _ | .receiving v _ => some v
  | .ended _ => none

def FeedLabel.op? : FeedLabel → Option Op
  | .committed op => some op
  | _ => none

/-- The transactions of a trace. -/
def opsOf (trace : List FeedLabel) : List Op := trace.filterMap FeedLabel.op?

@[simp] theorem opsOf_append (trace shown : List FeedLabel) : opsOf (trace ++ shown) = opsOf trace ++ opsOf shown :=
  List.filterMap_append

/-- The caller takes the event as delivered. -/
def Acknowledges (code : UInt8) : Prop := code = 0 ∨ code = RETURN_CODE_ALREADY_HAVE

/-- The header is stored, and its content is not awaited. -/
def Settled (db : Database) (v : VerifiedEvent) : Prop :=
  db.ev.events.get v.id = some v.event ∧ contentClass db.ev v.id ≠ .missing

/-! ## 2. One step of a call

Each statement of the handler commits one transaction or none. -/

/-- **What a step of a call does**: a transaction on the admitted header, or nothing. The labels show the
transaction, so the database can be read off a trace. -/
structure Moved (env : Env) (db : Database) (feed : Feed) (r : Database × Feed × List FeedLabel) : Prop where
  db : r.1 = run (Db.step env) db (opsOf r.2.2)
  delivered : ∀ op ∈ opsOf r.2.2, ∀ v ∈ op.delivered, feed.event? = some v
  next : ∀ v, r.2.1.event? = some v → feed.event? = some v
  silent : ∀ v, .admitted v ∉ r.2.2
  answers : ∀ v code, .returned v code ∈ r.2.2 → feed.event? = some v

/-- A step that commits nothing. -/
theorem Moved.idle {db : Database} {feed feed' : Feed} {shown : List FeedLabel} (hops : opsOf shown = [])
    (hnext : ∀ v, feed'.event? = some v → feed.event? = some v) (hsilent : ∀ v, .admitted v ∉ shown)
    (hanswers : ∀ v code, .returned v code ∈ shown → feed.event? = some v) :
    Moved env db feed (db, feed', shown) where
  db := by
    show db = run _ db (opsOf shown)
    rw [hops]
    rfl
  delivered := by
    intro op hop
    have hmem : op ∈ opsOf shown := hop
    rw [hops] at hmem
    cases hmem
  next := hnext
  silent := hsilent
  answers := hanswers

/-- A step that commits one transaction. -/
theorem Moved.commits {db db' : Database} {feed feed' : Feed} {shown : List FeedLabel} {op : Op}
    (hok : Db.step env db op = .ok db') (hops : opsOf shown = [op])
    (hdelivered : ∀ v ∈ op.delivered, feed.event? = some v)
    (hnext : ∀ v, feed'.event? = some v → feed.event? = some v) (hsilent : ∀ v, .admitted v ∉ shown)
    (hanswers : ∀ v code, .returned v code ∈ shown → feed.event? = some v) :
    Moved env db feed (db', feed', shown) where
  db := by
    show db' = run _ db (opsOf shown)
    rw [hops, run_cons, hok]
    rfl
  delivered := by
    intro op' hop'
    have hmem : op' ∈ opsOf shown := hop'
    rw [hops, List.mem_singleton] at hmem
    rw [hmem]
    exact hdelivered
  next := hnext
  silent := hsilent
  answers := hanswers

theorem ingest_envelope_ok {db db' : Database} {v : VerifiedEvent} {now : Timestamp} {source : EventReceivedSource}
    {r : InsertEventOutcome × ProcessEventState} (h : processEventTx env {} db v now source = .ok (db', r)) :
    Db.step env db (.ingest [.envelope v now source]) = .ok db' := by
  rw [step_ingest_single]
  show (processEventTx env {} db v now source >>= fun r => pure r.1) = _
  rw [h]
  rfl

/-- A reservation retains the header. -/
theorem reservePayload_ok {db db' : Database} {v : VerifiedEvent} {now : Timestamp} {ledger : AdmissionState}
    {outcome : PayloadReservationOutcome} (h : reservePayload env db v now ledger = .ok (db', outcome)) :
    ∃ r, processEventTx env {} db v now (.pushed none none) = .ok (db', r) ∧
      ∃ ledger', reservePayloadTx db' v ledger = .ok (outcome, ledger') := by
  obtain ⟨⟨db₁, r⟩, hprocess, h⟩ := bind_eq_ok.mp h
  obtain ⟨⟨outcome', ledger'⟩, hreserve, h⟩ := bind_eq_ok.mp h
  cases h
  exact ⟨r, hprocess, ledger', hreserve⟩

/-- The one answer of a call that ends. -/
theorem finish_returned {shown : List FeedLabel} {v w : VerifiedEvent} {code code' : UInt8}
    (hshown : ∀ w code, .returned w code ∉ shown) (h : .returned w code' ∈ shown ++ [.returned v code]) :
    w = v ∧ code' = code := by
  rcases List.mem_append.mp h with h | h
  · exact absurd h (hshown w code')
  · cases List.mem_singleton.mp h
    exact ⟨rfl, rfl⟩

section Steps

variable {db : Database} {turn : FeedTurn}

theorem fail_moved (e : DbError) (feed : Feed) : Moved env db feed (Feed.fail db e) :=
  .idle rfl (by rintro v ⟨⟩) (by simp) (by simp)

/-- A call ends with a return code after a transaction. -/
theorem finish_moved {db' : Database} {feed : Feed} {v : VerifiedEvent} {op : Op}
    (hok : Db.step env db op = .ok db') (hdelivered : ∀ w ∈ op.delivered, feed.event? = some w)
    (hv : feed.event? = some v) (code : UInt8) :
    Moved env db feed (Feed.finish db' [.committed op] v code) := by
  refine .commits hok rfl hdelivered (by rintro w ⟨⟩) (by simp) fun w code' h => ?_
  rw [(finish_returned (by simp) h).1]
  exact hv

theorem refuse_moved {db' : Database} {feed : Feed} {v : VerifiedEvent} {op : Op}
    (hok : Db.step env db op = .ok db') (hdelivered : ∀ w ∈ op.delivered, feed.event? = some w)
    (hv : feed.event? = some v) : Moved env db feed (Feed.refuse db' [.committed op] v turn) := by
  unfold Feed.refuse
  split
  · refine .commits hok rfl hdelivered (fun w hw => ?_) (by simp) (by simp)
    cases hw
    exact hv
  · exact finish_moved hok hdelivered hv _

/-- The envelope of a call, and nothing else. -/
theorem own_envelope {feed : Feed} {v : VerifiedEvent} (hv : feed.event? = some v) (now : Timestamp)
    (source : EventReceivedSource) :
    ∀ w ∈ (Op.ingest [.envelope v now source]).delivered, feed.event? = some w := by
  intro w hw
  obtain rfl := List.mem_singleton.mp hw
  exact hv

variable [Transport]

theorem Feed.step_moved (env : Env) (db : Database) (turn : FeedTurn) (feed : Feed) :
    Moved env db feed (feed.step env db turn) := by
  cases feed with
  | ended ending => exact .idle rfl (fun _ h => h) (by simp) (by simp)
  | tooLarge v =>
    unfold Feed.step
    dsimp only
    split
    · exact fail_moved _ _
    · next h => exact finish_moved (ingest_envelope_ok h) (own_envelope rfl _ _) rfl _
  | preparing v =>
    unfold Feed.step
    dsimp only
    split
    · exact fail_moved _ _
    split
    · exact fail_moved _ _
    · next h =>
      exact .commits (ingest_envelope_ok h) rfl (own_envelope rfl _ _) (fun _ h => h) (by simp) (by simp)
  | materializing v =>
    have hop : ∀ db' outcome, tryMaterializeStoredPayload env {} db v.id turn.now turn.ledger = .ok (db', outcome) →
        Db.step env db (.materializeStored v.id turn.now turn.ledger) = .ok db' := by
      intro db' outcome h
      show (tryMaterializeStoredPayload env {} db v.id turn.now turn.ledger >>= fun r => pure r.1) = _
      rw [h]
      rfl
    have hnone : ∀ w ∈ (Op.materializeStored v.id turn.now turn.ledger).delivered,
        (Feed.materializing v).event? = some w := by
      intro w hw
      cases hw
    unfold Feed.step
    dsimp only
    split
    · exact fail_moved _ _
    · next h => exact .commits (hop _ _ h) rfl hnone (fun _ h => h) (by simp) (by simp)
    · next h => exact refuse_moved (hop _ _ h) hnone rfl
    · next h => exact finish_moved (hop _ _ h) hnone rfl _
    · next h => exact finish_moved (hop _ _ h) hnone rfl _
    · next h => exact finish_moved (hop _ _ h) hnone rfl _
  | reserving v =>
    have hop : ∀ db' outcome, reservePayload env db v turn.now turn.ledger = .ok (db', outcome) →
        Db.step env db (.ingest [.envelope v turn.now (.pushed none none)]) = .ok db' := by
      intro db' outcome h
      obtain ⟨r, hprocess, -⟩ := reservePayload_ok h
      exact ingest_envelope_ok hprocess
    unfold Feed.step
    dsimp only
    split
    · exact fail_moved _ _
    · next h => exact .commits (hop _ _ h) rfl (own_envelope rfl _ _) (fun _ h => h) (by simp) (by simp)
    · next h => exact .commits (hop _ _ h) rfl (own_envelope rfl _ _) (fun _ h => h) (by simp) (by simp)
    · next h => exact refuse_moved (hop _ _ h) (own_envelope rfl _ _) rfl
    · next h => exact finish_moved (hop _ _ h) (own_envelope rfl _ _) rfl _
  | leased v lease =>
    have hrefused : Moved env db (.leased v lease) (Feed.finish db [] v RETURN_CODE_DOES_NOT_NEED) := by
      refine .idle rfl (by rintro w ⟨⟩) (by simp) fun w code h => ?_
      rw [(finish_returned (by simp) h).1]
      rfl
    unfold Feed.step
    dsimp only
    split
    · exact hrefused
    split
    · exact hrefused
    · exact .idle rfl (fun _ h => h) (by simp) (by simp)
  | receiving v buffer =>
    unfold Feed.step
    dsimp only
    split
    · exact .idle rfl (by rintro w ⟨⟩) (by simp) (by simp)
    split
    · exact .idle rfl (by rintro w ⟨⟩) (by simp) (by simp)
    next c hverify =>
    have hevent : c.event = v := (VerifiedEventContent.verify_eq_some hverify).1
    have hop : ∀ db' outcome,
        tryProcessAdmittedEventContent env {} db c turn.now turn.ledger buffer = .ok (db', outcome) →
        Db.step env db (.ingestAdmitted c turn.now turn.ledger buffer) = .ok db' := by
      intro db' outcome h
      show (tryProcessAdmittedEventContent env {} db c turn.now turn.ledger buffer >>= fun r => pure r.1) = _
      rw [h]
      rfl
    have hown : ∀ w ∈ (Op.ingestAdmitted c turn.now turn.ledger buffer).delivered,
        (Feed.receiving v buffer).event? = some w := by
      intro w hw
      obtain rfl := List.mem_singleton.mp hw
      exact congrArg some hevent.symm
    split
    · exact fail_moved _ _
    · next h => exact .commits (hop _ _ h) rfl hown (by rintro w ⟨⟩) (by simp) (by simp)
    · next h => exact finish_moved (hop _ _ h) hown rfl _

end Steps

/-! ## 3. What an outcome says

The handler decides its answer from the outcome of a transaction. Two lemmas say which outcomes mean that the
payload is dealt with. -/

section Outcomes

variable {D : Set VerifiedEvent} {db : Database}

/-- The payload is dealt with. -/
def Concludes : PayloadIngestOutcome → Prop
  | .processed | .invalid | .unchanged => True
  | .deferred _ | .unavailable => False

/-- **After a payload that was not refused, none is awaited**: it was processed, or found invalid, or was of no use
any more. -/
theorem processAdmittedContentTx_settles (hI : DownloadEvents.Grounds D db) {c : VerifiedEventContent}
    (hc : db.ev.events.get c.event.id = some c.event.event) (now : Timestamp) (ledger : AdmissionState)
    (buffer : Option PayloadBuffer) :
    Ensures (processAdmittedContentTx env {} db c now ledger buffer)
      (fun r => (∀ reason, r.2 ≠ .deferred reason) → contentClass r.1.ev c.event.id ≠ .missing) (fun _ => True) := by
  have hcontent : Ensures (processEventContentTx env {} db c now ledger buffer)
      (fun db' => contentClass db'.ev c.event.id ≠ .missing) (fun _ => True) := by
    refine (processEventContentTx_effect hI.1 hc now ledger buffer).mono ?_ fun _ _ => trivial
    rintro db' ⟨db₁, heffect, a, x, rfl⟩
    show contentClass db₁.ev c.event.id ≠ .missing
    obtain ⟨hm, hfetched⟩ | ⟨-, ⟨hstate, -⟩ | ⟨hstate, -⟩⟩ := DownloadEvents.fetched_of_effect hI hc heffect
    · obtain ⟨hcon, -⟩ | ⟨-, hsame | ⟨hmissing, -⟩⟩ := hfetched.own
      · cases hcon
      · rw [hsame]
        exact hm
      · exact absurd hmissing hm
    · rw [contentClass, hstate]
      decide
    · rw [contentClass, hstate]
      decide
  unfold processAdmittedContentTx
  dsimp only
  split
  · next db' hok =>
    have hm := hcontent.of_ok hok
    split
    · exact fun _ => hm
    split
    · exact fun _ => hm
    · exact fun _ => hm
  · exact fun hnot => absurd rfl (hnot _)
  · trivial

theorem tryMaterializeStoredPayload_settles (hI : DownloadEvents.Grounds D db) (id : ShortEventId) (now : Timestamp)
    (ledger : AdmissionState) :
    Ensures (tryMaterializeStoredPayload env {} db id now ledger)
      (fun r => Concludes r.2 → contentClass r.1.ev id ≠ .missing) (fun _ => True) := by
  unfold tryMaterializeStoredPayload
  split
  · exact False.elim
  next e he =>
  split
  · next hidle =>
    intro _ hm
    have hawaited : payloadIsMissingTx db.ev id = true := (canInsertEventContentTx_eq _ _).mpr hm
    rw [hawaited] at hidle
    cases hidle
  dsimp only
  split
  · exact False.elim
  · trivial
  split
  · exact False.elim
  split
  · exact False.elim
  split
  · trivial
  split
  · trivial
  · next c hverify =>
    have hce : c.event = VerifiedEvent.ofEvent e := (VerifiedEventContent.verify_eq_some hverify).1
    have hid : c.event.id = id := by
      rw [hce]
      exact hI.1.keyed.id_eq he
    have hc : db.ev.events.get c.event.id = some c.event.event := by
      rw [hid, he, hce]
      rfl
    rw [← hid]
    refine (processAdmittedContentTx_settles hI hc now _ _).mono (fun r hr hconcludes => hr ?_) fun _ h => h
    intro reason hreason
    rw [hreason] at hconcludes
    exact hconcludes

end Outcomes

/-! ## 4. What a call has established

Between its steps a call keeps what it knows in its locals, and other tasks may have committed in the meantime.
What is known of a header that is stored is of the kind that lasts. -/

section Soundness

variable {D : Set VerifiedEvent} {db : Database}

/-- What is known of a call that is underway. -/
def Feed.Sound (db : Database) : Feed → Prop
  | .tooLarge v => eventSizeLimit < v.event.contentLen
  | .materializing v | .reserving v | .leased v _ | .receiving v _ => db.ev.events.get v.id = some v.event
  | .preparing _ | .ended _ => True

/-- What a step establishes. -/
structure Establishes (r : Database × Feed × List FeedLabel) : Prop where
  sound : r.2.1.Sound r.1
  settles : ∀ v code, .returned v code ∈ r.2.2 → Acknowledges code → Settled r.1 v

theorem fail_establishes (e : DbError) : Establishes (Feed.fail db e) := ⟨trivial, by rintro v code ⟨⟩⟩

theorem finish_establishes {op : Op} {v : VerifiedEvent} {code : UInt8} (h : Acknowledges code → Settled db v) :
    Establishes (Feed.finish db [.committed op] v code) := by
  refine ⟨trivial, fun w code' hmem hack => ?_⟩
  obtain ⟨rfl, rfl⟩ := finish_returned (by simp) hmem
  exact h hack

omit [Primitives] in
theorem refusal_not_acknowledges : ¬Acknowledges RETURN_CODE_DOES_NOT_NEED := by
  rintro (h | h)
  · cases h
  · cases h

theorem refuse_establishes {turn : FeedTurn} {op : Op} (v : VerifiedEvent) :
    Establishes (Feed.refuse db [.committed op] v turn) := by
  unfold Feed.refuse
  split
  · exact ⟨trivial, by simp⟩
  · exact finish_establishes fun hack => absurd hack refusal_not_acknowledges

variable (env) in
/-- **A header that was processed is stored**, even if its content was pruned at once. -/
theorem processEventTx_retains (hcf : CollisionFree D) (hI : DownloadEvents.Grounds D db) {v : VerifiedEvent}
    (hv : v ∈ D) (now : Timestamp) (source : EventReceivedSource) :
    Ensures (processEventTx env {} db v now source)
      (fun r => DownloadEvents.Grounds D r.1 ∧ r.1.ev.events.get v.id = some v.event) (fun _ => True) :=
  ((processEventTx_keeps (oversizedOut_keeps D) hcf hI hv now source).and
    (processEventTx_effect env {} db v now source)).mono
      (fun _ hr => ⟨hr.1, hr.2.stored hI.1.keyed hcf hv⟩) fun _ _ => trivial

theorem reservePayloadTx_unneeded {v : VerifiedEvent} {s s' : AdmissionState}
    (h : reservePayloadTx db v s = .ok (.unneeded, s')) : contentClass db.ev v.id ≠ .missing := by
  intro hm
  have hawaited : payloadIsMissingTx db.ev v.id = true := (canInsertEventContentTx_eq _ _).mpr hm
  unfold reservePayloadTx at h
  rw [hawaited] at h
  split at h
  · cases h
  simp only [Bool.not_true, Bool.false_eq_true, if_false] at h
  split at h
  · cases h
  split at h
  · cases h
  obtain ⟨pause, -, h⟩ := bind_eq_ok.mp h
  cases pause with
  | some pause => cases h
  | none =>
    obtain ⟨id, -, h⟩ := bind_eq_ok.mp h
    cases h

variable [Transport]

/-- **A call answers what it has established**: a success, or that the event is already there, after a
transaction that has settled it. -/
theorem Feed.step_establishes (env : Env) (hcf : CollisionFree D) (hI : DownloadEvents.Grounds D db) {feed : Feed}
    (hD : ∀ v, feed.event? = some v → v ∈ D) (hsound : feed.Sound db) (turn : FeedTurn) :
    Establishes (feed.step env db turn) := by
  cases feed with
  | ended ending => exact ⟨trivial, by simp [Feed.step]⟩
  | tooLarge v =>
    have hbig : eventSizeLimit < v.event.contentLen := hsound
    unfold Feed.step
    dsimp only
    split
    · exact fail_establishes _
    · next h =>
      obtain ⟨hI', hstored⟩ := (processEventTx_retains env hcf hI (hD v rfl) _ _).of_ok h
      refine finish_establishes fun _ => ⟨hstored, fun hm => ?_⟩
      -- content of this size is not awaited
      have hlen := (hI'.awaited hstored hm).2
      simp only [eventSizeLimit, MAX_CONTENT_LEN] at hbig hlen
      omega
  | preparing v =>
    unfold Feed.step
    dsimp only
    split
    · exact fail_establishes _
    split
    · exact fail_establishes _
    · next h => exact ⟨((processEventTx_retains env hcf hI (hD v rfl) _ _).of_ok h).2, by simp⟩
  | materializing v =>
    have hstored : db.ev.events.get v.id = some v.event := hsound
    have hkept : ∀ db' outcome, tryMaterializeStoredPayload env {} db v.id turn.now turn.ledger = .ok (db', outcome) →
        db'.ev.events.get v.id = some v.event ∧ (Concludes outcome → contentClass db'.ev v.id ≠ .missing) := by
      intro db' outcome h
      have hfetched := (DownloadEvents.tryMaterializeStoredPayload_fetched hI v.id turn.now turn.ledger).of_ok h
      refine ⟨?_, (tryMaterializeStoredPayload_settles hI v.id turn.now turn.ledger).of_ok h⟩
      rw [hfetched.2.events]
      exact hstored
    unfold Feed.step
    dsimp only
    split
    · exact fail_establishes _
    · next h => exact ⟨(hkept _ _ h).1, by simp⟩
    · exact refuse_establishes v
    · next h => exact finish_establishes fun _ => ⟨(hkept _ _ h).1, (hkept _ _ h).2 trivial⟩
    · next h => exact finish_establishes fun _ => ⟨(hkept _ _ h).1, (hkept _ _ h).2 trivial⟩
    · next h => exact finish_establishes fun _ => ⟨(hkept _ _ h).1, (hkept _ _ h).2 trivial⟩
  | reserving v =>
    have hkept : ∀ db' outcome, reservePayload env db v turn.now turn.ledger = .ok (db', outcome) →
        db'.ev.events.get v.id = some v.event := by
      intro db' outcome h
      obtain ⟨r, hprocess, -⟩ := reservePayload_ok h
      exact ((processEventTx_retains env hcf hI (hD v rfl) _ _).of_ok hprocess).2
    unfold Feed.step
    dsimp only
    split
    · exact fail_establishes _
    · next h => exact ⟨hkept _ _ h, by simp⟩
    · next h => exact ⟨hkept _ _ h, by simp⟩
    · exact refuse_establishes v
    · next h =>
      obtain ⟨-, -, ledger', hreserve⟩ := reservePayload_ok h
      exact finish_establishes fun _ => ⟨hkept _ _ h, reservePayloadTx_unneeded hreserve⟩
  | leased v lease =>
    have hrefused : Establishes (Feed.finish db [] v RETURN_CODE_DOES_NOT_NEED) := by
      refine ⟨trivial, fun w code hmem hack => ?_⟩
      rw [(finish_returned (by simp) hmem).2] at hack
      exact absurd hack refusal_not_acknowledges
    unfold Feed.step
    dsimp only
    split
    · exact hrefused
    split
    · exact hrefused
    · exact ⟨hsound, by simp⟩
  | receiving v buffer =>
    unfold Feed.step
    dsimp only
    split
    · exact ⟨trivial, by simp⟩
    split
    · exact ⟨trivial, by simp⟩
    next c hverify =>
    obtain rfl : c.event = v := (VerifiedEventContent.verify_eq_some hverify).1
    split
    · exact fail_establishes _
    · exact ⟨trivial, by simp⟩
    · next hnot h =>
      obtain ⟨⟨db₁, r⟩, hprocess, h⟩ := bind_eq_ok.mp h
      obtain ⟨hI₁, hstored⟩ := (processEventTx_retains env hcf hI (hD c.event rfl) _ _).of_ok hprocess
      have hfetched := (DownloadEvents.processAdmittedContentTx_fetched hI₁ hstored _ _ _).of_ok h
      have hsettled := (processAdmittedContentTx_settles hI₁ hstored _ _ _).of_ok h
      refine finish_establishes fun _ => ⟨?_, hsettled fun reason hreason => hnot reason hreason⟩
      rw [hfetched.2.events]
      exact hstored

end Soundness

/-! ## 5. Runs

Two invariants: which transactions a trace has made, and which answers it has given. -/

section Runs

theorem reached_append (env : Env) (ops ops' : List Op) :
    reached env (ops ++ ops') = run (Db.step env) (reached env ops) ops' := run_append _ _ _

theorem deliveredFrom_append {D : Set VerifiedEvent} {ops ops' : List Op} (h : DeliveredFrom D ops)
    (h' : DeliveredFrom D ops') : DeliveredFrom D (ops ++ ops') := by
  intro op hop
  rcases List.mem_append.mp hop with hop | hop
  · exact h op hop
  · exact h' op hop

theorem Feed.Sound.later {feed : Feed} {db db' : Database} (h : feed.Sound db) (hlater : Later db.ev db'.ev) :
    feed.Sound db' := by
  cases feed with
  | tooLarge v => exact h
  | materializing v | reserving v | leased v lease | receiving v buffer => exact hlater.stored _ _ h
  | preparing v | ended ending => trivial

theorem Settled.later {v : VerifiedEvent} {db db' : Database} (h : Settled db v) (hlater : Later db.ev db'.ev) :
    Settled db' v := ⟨hlater.stored _ _ h.1, hlater.settled h.1 h.2⟩

variable [Transport]

/-- An envelope that a call may bring in: signed, and by ourselves or a followee of the moment. -/
def Admissible (env : Env) (acts : List FeedAct) (v : VerifiedEvent) : Prop :=
  ∃ followees reqMsg event, .request followees reqMsg ∈ acts ∧
    decodeWhole MAX_REQUEST_SIZE Rpc.FEED_EVENT.request reqMsg = .ok event ∧ v = .ofEvent event.1.1 ∧
    Transport.verifySignature v.event event.2 = true ∧ (v.event.author = env.selfId ∨ v.event.author ∈ followees)

/-- The envelopes of a run: the node's own, and those it admits. -/
def Brought (env : Env) (acts : List FeedAct) : Set VerifiedEvent :=
  {v | (∃ op, .commit op ∈ acts ∧ v ∈ op.delivered) ∨ Admissible env acts v}

variable {acts : List FeedAct} {w : Feeding} {trace : List FeedLabel}

theorem openFeed_admits {followees : Finset RostraId} {reqMsg : Bytes} {v : VerifiedEvent}
    (hact : .request followees reqMsg ∈ acts) (h : (openFeed env followees reqMsg).1.event? = some v) :
    Admissible env acts v := by
  unfold openFeed at h
  split at h
  · cases h
  next event hdecode =>
  split at h
  · next hauthor =>
    split at h
    · cases h
    · next v' hverify =>
      unfold verifyReceivedAsIs at hverify
      split at hverify
      · next hsignature =>
        cases hverify
        have hv : VerifiedEvent.ofEvent event.1.1 = v := by
          dsimp only at h
          split at h
          · exact Option.some.inj h
          · exact Option.some.inj h
        subst hv
        exact ⟨followees, reqMsg, event, hact, hdecode, rfl, hsignature, hauthor⟩
      · cases hverify
  · cases h

/-- Opening a call commits nothing and answers nobody. -/
theorem openFeed_shown (env : Env) (followees : Finset RostraId) (reqMsg : Bytes) :
    opsOf (openFeed env followees reqMsg).2.1 = [] ∧ (∀ v code, .returned v code ∉ (openFeed env followees reqMsg).2.1) ∧
      ∀ db, (openFeed env followees reqMsg).1.Sound db := by
  unfold openFeed
  split
  · exact ⟨rfl, by simp, fun _ => trivial⟩
  split
  · split
    · exact ⟨rfl, by simp, fun _ => trivial⟩
    · refine ⟨rfl, by simp, fun db => ?_⟩
      dsimp only
      split
      · next hbig => exact hbig
      · trivial
  · exact ⟨rfl, by simp, fun _ => trivial⟩

/-- **The state is one that the transactions of the trace reach**, and they are about envelopes of the run. -/
structure Admits (env : Env) (acts : List FeedAct) (w : Feeding) (trace : List FeedLabel) : Prop where
  db : w.db = reached env (opsOf trace)
  origin : DeliveredFrom (Brought env acts) (opsOf trace)
  calls : ∀ feed ∈ w.feeds, ∀ v, feed.event? = some v → Admissible env acts v

theorem Admits.step (h : Admits env acts w trace) {act : FeedAct} (hact : act ∈ acts) {w' : Feeding}
    {shown : List FeedLabel} (hstep : w.step env act = some (w', shown)) : Admits env acts w' (trace ++ shown) := by
  cases act with
  | commit op =>
    unfold Feeding.step at hstep
    dsimp only at hstep
    split at hstep
    · next db' hok =>
      cases hstep
      refine ⟨?_, ?_, h.calls⟩
      · rw [opsOf_append, reached_append, ← h.db]
        show db' = run (Db.step env) w.db [op]
        rw [run_cons, hok]
        rfl
      · rw [opsOf_append]
        refine deliveredFrom_append h.origin fun op' hop' v hv => ?_
        obtain rfl := List.mem_singleton.mp hop'
        exact .inl ⟨_, hact, hv⟩
    · cases hstep
  | request followees reqMsg =>
    cases hstep
    have hshown := (openFeed_shown env followees reqMsg).1
    refine ⟨?_, ?_, fun feed hfeed v hv => ?_⟩
    · rw [opsOf_append, hshown, List.append_nil]
      exact h.db
    · rw [opsOf_append, hshown, List.append_nil]
      exact h.origin
    · rcases List.mem_append.mp hfeed with hfeed | hfeed
      · exact h.calls feed hfeed v hv
      · rw [List.mem_singleton.mp hfeed] at hv
        exact openFeed_admits hact hv
  | turn call turn =>
    obtain ⟨feed, hcall, heq⟩ := Option.map_eq_some_iff.mp hstep
    cases heq
    have hfeed : feed ∈ w.feeds := List.mem_of_getElem? hcall
    have hmoved := feed.step_moved env w.db turn
    refine ⟨?_, ?_, fun feed' hfeed' v hv => ?_⟩
    · rw [opsOf_append, reached_append, ← h.db]
      exact hmoved.db
    · rw [opsOf_append]
      refine deliveredFrom_append h.origin fun op hop v hv => .inr ?_
      exact h.calls feed hfeed v (hmoved.delivered op hop v hv)
    · rcases List.mem_or_eq_of_mem_set hfeed' with hmem | rfl
      · exact h.calls feed' hmem v hv
      · exact h.calls feed hfeed v (hmoved.next v hv)
  | drop call =>
    cases hstep
    rw [List.append_nil]
    exact ⟨h.db, h.origin, fun feed hfeed => h.calls feed (List.mem_of_mem_eraseIdx hfeed)⟩

theorem fed_admits (env : Env) (acts : List FeedAct) : Admits env acts (fed env acts).1 (fed env acts).2 :=
  Machine.run_invariant (J := Admits env acts) ⟨rfl, fun op hop => (by cases hop), fun feed hfeed => (by cases hfeed)⟩
    acts fun _ hact _ _ _ _ h hstep => h.step hact hstep

/-- **Whatever callers send, and however their calls and the node's own work take turns**, the database is one
that its transactions reach, so everything that is known of those is known of it; and every envelope that they
bring in is the node's own or was admitted: signed, and by the node itself or by somebody it then followed. -/
theorem feeding_admits (env : Env) (acts : List FeedAct) :
    ∃ ops, (fed env acts).1.db = reached env ops ∧ ∀ op ∈ ops, ∀ v ∈ op.delivered,
      (∃ op', .commit op' ∈ acts ∧ v ∈ op'.delivered) ∨ Admissible env acts v :=
  ⟨_, (fed_admits env acts).db, (fed_admits env acts).origin⟩

/-- What calls have established, and what was answered. -/
structure Answers (env : Env) (acts : List FeedAct) (w : Feeding) (trace : List FeedLabel) : Prop where
  admits : Admits env acts w trace
  sound : ∀ feed ∈ w.feeds, feed.Sound w.db
  settled : ∀ v code, .returned v code ∈ trace → Acknowledges code → Settled w.db v

theorem Answers.step (hcf : CollisionFree (Brought env acts)) (h : Answers env acts w trace) {act : FeedAct}
    (hact : act ∈ acts) {w' : Feeding} {shown : List FeedLabel} (hstep : w.step env act = some (w', shown)) :
    Answers env acts w' (trace ++ shown) := by
  have hadmits := h.admits.step hact hstep
  have hground : DownloadEvents.Grounds (Brought env acts) w.db := by
    rw [h.admits.db]
    exact reached_keeps env (oversizedOut_keeps _) hcf oversizedOut_empty _ h.admits.origin
  -- whatever the step was, nothing that was established is lost
  have hlater : Later w.db.ev w'.db.ev := by
    have horigin := hadmits.origin
    rw [opsOf_append] at horigin
    rw [h.admits.db, hadmits.db, opsOf_append]
    exact reached_later env hcf _ _ horigin
  have hold : ∀ v code, .returned v code ∈ trace → Acknowledges code → Settled w'.db v :=
    fun v code hmem hack => (h.settled v code hmem hack).later hlater
  cases act with
  | commit op =>
    unfold Feeding.step at hstep
    dsimp only at hstep
    split at hstep
    · cases hstep
      refine ⟨hadmits, fun feed hfeed => (h.sound feed hfeed).later hlater, fun v code hmem hack => ?_⟩
      rcases List.mem_append.mp hmem with hmem | hmem
      · exact hold v code hmem hack
      · simp at hmem
    · cases hstep
  | request followees reqMsg =>
    cases hstep
    obtain ⟨-, hquiet, hsound⟩ := openFeed_shown env followees reqMsg
    refine ⟨hadmits, fun feed hfeed => ?_, fun v code hmem hack => ?_⟩
    · rcases List.mem_append.mp hfeed with hfeed | hfeed
      · exact (h.sound feed hfeed).later hlater
      · rw [List.mem_singleton.mp hfeed]
        exact hsound _
    · rcases List.mem_append.mp hmem with hmem | hmem
      · exact hold v code hmem hack
      · exact absurd hmem (hquiet v code)
  | turn call turn =>
    obtain ⟨feed, hcall, heq⟩ := Option.map_eq_some_iff.mp hstep
    cases heq
    have hfeed : feed ∈ w.feeds := List.mem_of_getElem? hcall
    have hestablishes := feed.step_establishes env hcf hground
      (fun v hv => .inr (h.admits.calls feed hfeed v hv)) (h.sound feed hfeed) turn
    refine ⟨hadmits, fun feed' hfeed' => ?_, fun v code hmem hack => ?_⟩
    · rcases List.mem_or_eq_of_mem_set hfeed' with hmem | rfl
      · exact (h.sound feed' hmem).later hlater
      · exact hestablishes.sound
    · rcases List.mem_append.mp hmem with hmem | hmem
      · exact hold v code hmem hack
      · exact hestablishes.settles v code hmem hack
  | drop call =>
    cases hstep
    rw [List.append_nil] at hadmits ⊢
    exact ⟨hadmits, fun feed hfeed => h.sound feed (List.mem_of_mem_eraseIdx hfeed), h.settled⟩

/-- **What was acknowledged is settled for good.**  A caller that was told `0` or `RETURN_CODE_ALREADY_HAVE` can
stop feeding the event: in every later state of every interleaving the header is stored and no content is
awaited for it. -/
theorem feeding_settles (env : Env) (acts : List FeedAct) (hcf : CollisionFree (Brought env acts)) :
    ∀ v code, .returned v code ∈ (fed env acts).2 → code = 0 ∨ code = RETURN_CODE_ALREADY_HAVE →
      (fed env acts).1.db.ev.events.get v.id = some v.event ∧
        contentClass (fed env acts).1.db.ev v.id ≠ .missing :=
  (Machine.run_invariant (J := Answers env acts)
    ⟨⟨rfl, fun op hop => (by cases hop), fun feed hfeed => (by cases hfeed)⟩, fun feed hfeed => (by cases hfeed),
      fun v code hmem => (by cases hmem)⟩
    acts fun _ hact _ _ _ _ h hstep => h.step hcf hact hstep).settled

end Runs

end Feeding

/-! ## 6. A call

One call from the first message to the acknowledgment. -/

section Sample

attribute [local instance] Primitives.reference Transport.reference

/-- A post with its signature. -/
def sampleSigned : Bincode.SignedEvent :=
  (⟨samplePost, by
    constructor <;> decide⟩, ⟨1, by decide⟩)

/-- Somebody we follow feeds us a post; we retain it, ask for the payload and ingest it. -/
def sampleFeeding : List FeedAct :=
  [.request {toLex (1, 1)} (Bincode.signedEvent.encode sampleSigned), .turn 0 ⟨5, {}, .ok (), false, {}, []⟩,
    .turn 0 ⟨5, {}, .ok (), false, {}, []⟩, .turn 0 ⟨5, {}, .ok (), false, {}, []⟩,
    .turn 0 ⟨6, {}, .ok (), false, {}, [0, 65]⟩]

theorem sampleFeeding_brought : ∀ v ∈ Brought sampleEnv sampleFeeding, v = .ofEvent samplePost := by
  rintro v (⟨op, hop, -⟩ | ⟨followees, reqMsg, event, hact, hdecode, rfl, -, -⟩)
  · simp [sampleFeeding] at hop
  · have hmsg : reqMsg = Bincode.signedEvent.encode sampleSigned := by
      simp only [sampleFeeding, List.mem_cons, reduceCtorEq, List.not_mem_nil, or_false, FeedAct.request.injEq] at hact
      exact hact.2
    rw [hmsg] at hdecode
    have hread : decodeWhole MAX_REQUEST_SIZE Rpc.FEED_EVENT.request (Bincode.signedEvent.encode sampleSigned) =
        .ok sampleSigned := decodeWhole_encode ((request_length .FEED_EVENT sampleSigned).trans (by decide))
    rw [hread] at hdecode
    cases hdecode
    rfl

/-- Is this how the call about `v` ended? -/
def FeedLabel.isReturned (v : VerifiedEvent) (code : UInt8) : FeedLabel → Bool
  | .returned v' code' => v' = v ∧ code' = code
  | _ => false

theorem FeedLabel.mem_of_isReturned {trace : List FeedLabel} {v : VerifiedEvent} {code : UInt8}
    (h : trace.any (FeedLabel.isReturned v code) = true) : .returned v code ∈ trace := by
  obtain ⟨label, hmem, hlabel⟩ := List.any_eq_true.mp h
  cases label with
  | returned v' code' =>
    obtain ⟨rfl, rfl⟩ := of_decide_eq_true hlabel
    exact hmem
  | _ => cases hlabel

/-- The acknowledged post is stored and is not awaited. -/
theorem feeding_settles_sampleFeeding :
    (fed sampleEnv sampleFeeding).1.db.ev.events.get (VerifiedEvent.ofEvent samplePost).id = some samplePost ∧
      contentClass (fed sampleEnv sampleFeeding).1.db.ev (VerifiedEvent.ofEvent samplePost).id ≠ .missing := by
  refine feeding_settles sampleEnv sampleFeeding ?_ (.ofEvent samplePost) 0 ?_ (.inl rfl)
  · intro v hv w hw _
    rw [sampleFeeding_brought v hv, sampleFeeding_brought w hw]
  · exact FeedLabel.mem_of_isReturned (by decide +kernel)

end Sample

end Rostra.RequestHandler
