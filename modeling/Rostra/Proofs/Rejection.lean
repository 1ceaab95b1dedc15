/-
# Invalid content leaves no trace in the projections

`Invalid` does not abort the transaction, so a reducer that wrote something before it found its
payload invalid would leave that behind.  No reducer does: each reads its payload first, and what comes
after the first write fails with database errors only.

* Section 1: checks and writes.  A `Check` writes nothing; a reducer `Follows` a function on tables
  when its writes add up to that function and it is never invalid.  Checks first, writes last.
* Section 2: so every reducer agrees with its functional reading in `ContentOps`, and the two readings
  of the whole transaction are equal.  This is what justifies the functional reading elsewhere.
* Section 3: what the committed transaction changes.

The two readings are worth having side by side. In the functional one it is obvious that a rejected payload has no
effect, and not obvious that the code does this; in the one with writes it is the other way round. Agreement is
proved kind by kind, from the place of the checks alone, so that a reducer which checks after it has written would
be found.
-/
import Rostra.Db.Writing
import Rostra.Proofs.Queue

namespace Rostra.Db

open Rostra Outcome

namespace Writing

/-! ## 1. Checks and writes

A program that writes in order is compared with a function. The composition rules are those of a program whose
checks all come first. -/

variable {α β : Type}

/-- **The writes agree with a function on the tables**: on success they add up to it, and content that
is found invalid was found so before anything was written. -/
def Agrees (w : Writing α) (r : Projections → ProcessEventResult (Projections × α)) : Prop :=
  ∀ p, match w p with
    | .ok a p' => r p = .ok (p', a)
    | .error .invalid p' => r p = .error .invalid ∧ p' = p
    | .error (.db e) _ => r p = .error (.db e)

/-- Writes that are not followed by a check. -/
def Follows (w : Writing Unit) (f : Projections → DbResult Projections) : Prop :=
  ∀ p, match w p with
    | .ok _ p' => f p = .ok p'
    | .error .invalid _ => False
    | .error (.db e) _ => f p = .error e

theorem follows_write (f : Projections → Projections) : Follows (write f) fun p => .ok (f p) :=
  fun _ => rfl

theorem follows_database (f : Projections → DbResult Projections) : Follows (database f) f := by
  intro p
  unfold database
  cases f p with
  | ok p' => rfl
  | error e => rfl

theorem follows_pure : Follows (pure ()) .ok := fun _ => rfl

/-- Writes in a row. -/
theorem Follows.seq {w w' : Writing Unit} {f f' : Projections → DbResult Projections}
    (h : Follows w f) (h' : Follows w' f') : Follows (w >>= fun _ => w') fun p => f p >>= f' := by
  intro p
  have hp := h p
  show match EStateM.bind w (fun _ => w') p with
    | .ok _ p' => (f p >>= f') = .ok p'
    | .error .invalid _ => False
    | .error (.db e) _ => (f p >>= f') = .error e
  unfold EStateM.bind
  cases hw : w p with
  | ok u p' =>
    rw [hw] at hp
    simp only at hp ⊢
    rw [hp]
    exact h' p'
  | error e p' =>
    rw [hw] at hp
    cases e with
    | invalid => exact hp
    | db e =>
      simp only at hp ⊢
      rw [hp]
      rfl

/-- A write under a condition. -/
theorem Follows.provided {w : Writing Unit} {f : Projections → Projections} (h : Follows w fun p => .ok (f p))
    (b : Bool) : Follows (provided b w) fun p => .ok (if b then f p else p) := by
  cases b with
  | true => exact h
  | false => exact follows_pure

/-- A reducer that writes and returns. -/
theorem Follows.agrees {w : Writing Unit} {f : Projections → DbResult Projections} (h : Follows w f)
    (a : α) : Agrees (w >>= fun _ => pure a) fun p => liftDb (f p) >>= fun p' => .ok (p', a) := by
  intro p
  have hp := h p
  show match EStateM.bind w (fun _ => pure a) p with
    | .ok b p' => (liftDb (f p) >>= fun p' => .ok (p', a)) = .ok (p', b)
    | .error .invalid p' => (liftDb (f p) >>= fun p' => .ok (p', a)) = .error .invalid ∧ p' = p
    | .error (.db e) _ => (liftDb (f p) >>= fun p' => .ok (p', a)) = .error (.db e)
  unfold EStateM.bind
  cases hw : w p with
  | ok u p' =>
    rw [hw] at hp
    simp only at hp ⊢
    rw [hp]
    rfl
  | error e p' =>
    rw [hw] at hp
    cases e with
    | invalid => exact hp.elim
    | db e =>
      simp only at hp ⊢
      rw [hp]
      rfl

theorem agrees_pure (a : α) : Agrees (pure a) fun p => .ok (p, a) := fun _ => rfl

/-- A payload is read before anything is written. -/
theorem Agrees.decoded {f : α → Writing β} {r : α → Projections → ProcessEventResult (Projections × β)}
    (o : Option α) (h : ∀ a, Agrees (f a) (r a)) :
    Agrees (decoded o >>= f) fun p => decodeOr o >>= fun a => r a p := by
  cases o with
  | none => exact fun p => ⟨rfl, rfl⟩
  | some a => exact h a

/-- A condition is checked before anything is written. -/
theorem Agrees.require {w : Writing β} {r : Projections → ProcessEventResult (Projections × β)}
    (valid : Bool) (h : Agrees w r) :
    Agrees (require valid >>= fun _ => w) fun p => if valid then r p else .error .invalid := by
  cases valid with
  | false => exact fun p => ⟨rfl, rfl⟩
  | true => exact h

theorem Agrees.ite {w w' : Writing β} {r r' : Projections → ProcessEventResult (Projections × β)}
    (q : Prop) [Decidable q] (h : Agrees w r) (h' : Agrees w' r') :
    Agrees (if q then w else w') fun p => if q then r p else r' p := by
  split
  · exact h
  · exact h'

theorem Agrees.congr {w : Writing α} {r r' : Projections → ProcessEventResult (Projections × α)}
    (h : Agrees w r) (hr : ∀ p, r' p = r p) : Agrees w r' := by
  intro p
  rw [hr p]
  exact h p

/-! ## 2. The reducers

One lemma for each kind, by the rules of section 1; none of them looks at what is written. -/

section Kinds

variable [Primitives]

omit [Primitives] in
theorem dmApplyAnnouncementTx_follows (env : Env) (author : RostraId) (a : Dm.Announcement)
    (timestamp : Timestamp) (eventId : ShortEventId) :
    Follows (dmApplyAnnouncementTx env author a timestamp eventId) fun p =>
      .ok (Db.dmApplyAnnouncementTx env p author a timestamp eventId) := fun _ => rfl

theorem processDmTx_agrees (env : Env) (c : EventContent) :
    Agrees (processDmTx env c) fun p => Db.processDmTx env p c := by
  have hframe := Agrees.decoded c.content fun bytes =>
    Agrees.ite (c.event.event.kind = EventKind.DM_DEVICE)
      (Agrees.decoded (Dm.Announcement.decode bytes c.event.event.timestamp) fun a =>
        (dmApplyAnnouncementTx_follows env c.event.event.author a c.event.event.timestamp
          c.event.id).agrees (plainSingleton c.event))
      (Agrees.require (Primitives.validateFrame bytes)
        ((follows_write fun p => { p with
          eventsDmPending := p.eventsDmPending.insert c.event.id none }).agrees
            (plainSingleton c.event)))
  refine (Agrees.require (!(c.event.event.isSingleton || c.event.event.keyAux != 0)) hframe).congr
    fun p => ?_
  simp only [Db.processDmTx]
  cases (c.event.event.isSingleton || c.event.event.keyAux != 0) with
  | true => rfl
  | false => rfl

theorem processFollowTx_agrees (c : EventContent) :
    Agrees (processFollowTx c) fun p => Db.processFollowTx p c := by
  refine (Agrees.decoded c.follow? fun content => ?_)
  split
  · exact ((follows_write _).agrees _)
  · exact ((follows_write _).agrees _)

theorem processNodeAnnouncementTx_agrees (c : EventContent) :
    Agrees (processNodeAnnouncementTx c) fun p => Db.processNodeAnnouncementTx p c :=
  Agrees.decoded c.nodeAnnouncement? fun _ _ => rfl

theorem processProfileUpdateTx_agrees (c : EventContent) :
    Agrees (processProfileUpdateTx c) fun p => Db.processProfileUpdateTx p c :=
  Agrees.decoded c.socialProfileUpdate? fun _ _ => rfl

theorem applySocialPostTx_follows (env : Env) (ctx : TxCtx) (c : EventContent) (post : SocialPost)
    (replaced : Option ShortEventId) (now : Timestamp) :
    Follows (applySocialPostTx env ctx c post replaced now) fun p =>
      Db.applySocialPostTx env ctx p c post replaced now := by
  let v := c.event
  let author := v.event.author
  have hlineage : Follows (replaceTx c replaced) fun p =>
      .ok (replaced.elim p (insertSocialPostReplacementTx p c)) := by
    cases replaced with
    | none => exact follows_pure
    | some oldEventId => exact follows_write _
  have htime := follows_write fun p => { p with
    socialPostsByTime := insert (v.event.timestamp, v.id) p.socialPostsByTime }
  have hreceipt := follows_database fun p =>
    insertSocialPostReceiptTx p v.id (effectiveReceivedAt env p author v.event.timestamp now)
  have hnews := (follows_write fun p =>
    upsertSocialNewsRankTx p ⟨author, v.id⟩ (min v.event.timestamp now) 0).provided post.news
  have hmention := (follows_write fun p => { p with
    socialPostsSelfMention := insert v.id p.socialPostsSelfMention }).provided (mentionsSelf env author post)
  have hreply := follows_database fun p => insertReplyToTx p v post
  have hfeed := follows_database fun p => appendSocialPostMaterializationTx ctx p v.id
  have hall := htime.seq (hreceipt.seq (hlineage.seq (hnews.seq (hmention.seq (hreply.seq hfeed)))))
  cases replaced with
  | none => exact hall
  | some oldEventId => exact hall

theorem processSocialPostTx_agrees (env : Env) (ctx : TxCtx) (c : EventContent) (now : Timestamp) :
    Agrees (processSocialPostTx env ctx c now) fun p => Db.processSocialPostTx env ctx p c now := by
  refine Agrees.decoded c.socialPost? fun post => ?_
  cases socialPostProjectionPlan c post with
  | skip => exact agrees_pure none
  | apply replaced => exact (applySocialPostTx_follows env ctx c post replaced now).agrees _

theorem processVoteTx_agrees (c : EventContent) :
    Agrees (processVoteTx c) fun p => Db.processVoteTx p c := by
  refine Agrees.decoded c.socialVote? fun content => ?_
  cases shapedVote c.event content with
  | none => exact agrees_pure none
  | some vote => exact (follows_database _).agrees _

theorem processShoutboxTx_agrees (env : Env) (c : EventContent) (now : Timestamp) :
    Agrees (processShoutboxTx env c now) fun p => Db.processShoutboxTx env p c now := by
  refine Agrees.decoded c.shoutbox? fun content => ?_
  refine ((follows_database _).agrees _).congr fun p => ?_
  cases h : insertReceptionOrderedTx p.receptionOrderNext
      (effectiveReceivedAt env p c.event.event.author c.event.event.timestamp now) c.event.id
      p.shoutboxPostsByReceivedAt with
  | error e => rfl
  | ok r => rfl

/-- Every kind reads its payload first. -/
theorem processKindTx_agrees (env : Env) (ctx : TxCtx) (c : EventContent) (now : Timestamp) :
    Agrees (processKindTx env ctx c now) fun p => Db.processKindTx env ctx p c now := by
  unfold processKindTx Db.processKindTx
  dsimp only
  refine Agrees.ite _ (processDmTx_agrees env c) ?_
  refine Agrees.ite _ (processFollowTx_agrees c) ?_
  refine Agrees.ite _ (processNodeAnnouncementTx_agrees c) ?_
  refine Agrees.ite _ (processProfileUpdateTx_agrees c) ?_
  refine Agrees.ite _ (processSocialPostTx_agrees env ctx c now) ?_
  refine Agrees.ite _ (processVoteTx_agrees c) ?_
  exact Agrees.ite _ (processShoutboxTx_agrees env c now) (agrees_pure _)

/-- **The outcomes of a payload**, in both readings: what the writes add up to, nothing written, or a
database error. -/
theorem processEventContentInsertedTx_cases (env : Env) (ctx : TxCtx) (c : EventContent)
    (now : Timestamp) (p : Projections) :
    (∃ p', processEventContentInsertedTx env ctx c now p = .ok () p' ∧
      Db.processEventContentInsertedTx env ctx p c now = .ok p') ∨
    (processEventContentInsertedTx env ctx c now p = .error .invalid p ∧
      Db.processEventContentInsertedTx env ctx p c now = .error .invalid) ∨
    ∃ e p', processEventContentInsertedTx env ctx c now p = .error (.db e) p' ∧
      Db.processEventContentInsertedTx env ctx p c now = .error (.db e) := by
  have hp := processKindTx_agrees env ctx c now p
  unfold processEventContentInsertedTx Db.processEventContentInsertedTx
  simp only [bind, EStateM.bind]
  cases hw : processKindTx env ctx c now p with
  | ok record p' =>
    rw [hw] at hp
    simp only at hp ⊢
    rw [hp]
    cases record with
    | none => exact .inl ⟨p', rfl, rfl⟩
    | some record => exact .inl ⟨_, rfl, rfl⟩
  | error e p' =>
    rw [hw] at hp
    cases e with
    | invalid =>
      simp only at hp ⊢
      rw [hp.1, hp.2]
      exact .inr (.inl ⟨rfl, rfl⟩)
    | db e =>
      simp only at hp ⊢
      rw [hp]
      exact .inr (.inr ⟨e, p', rfl, rfl⟩)

/-- **Both readings of a payload are equal.** -/
theorem materializeTx_eq (env : Env) (ctx : TxCtx) (db : Database) (c : VerifiedEventContent)
    (now : Timestamp) : materializeTx env ctx db c now = Db.materializeTx env ctx db c now := by
  unfold materializeTx Db.materializeTx
  cases c.content with
  | none => rfl
  | some b =>
    rcases processEventContentInsertedTx_cases env ctx c.toEventContent now db.proj with
      ⟨p', hw, hf⟩ | ⟨hw, hf⟩ | ⟨e, p', hw, hf⟩
    · simp only [hw, hf]
    · simp only [hw, hf]
    · simp only [hw, hf]

theorem processEventContentTx_eq (env : Env) (ctx : TxCtx) (db : Database) (c : VerifiedEventContent)
    (now : Timestamp) (ledger : AdmissionState) (buffer : Option PayloadBuffer) :
    processEventContentTx env ctx db c now ledger buffer =
      Db.processEventContentTx env ctx db c now ledger buffer := by
  unfold processEventContentTx Db.processEventContentTx processEventContentInnerTx
    Db.processEventContentInnerTx
  simp only [materializeTx_eq]

end Kinds

end Writing

/-! ## 3. The committed transaction

Outside of the projections a rejection does have effects, and they are listed. -/

section Rejected

variable [Primitives]

/-- One reference less, of this hash. -/
structure Decremented (rc rc' : Table ContentHash ℕ) (h : ContentHash) : Prop where
  own : (rc.get h).getD 0 = (rc'.get h).getD 0 + 1
  other : ∀ h', h' ≠ h → rc'.get h' = rc.get h'

omit [Primitives] in
theorem decrementContentRcTx_decremented (h : ContentHash) (rc : Table ContentHash ℕ) :
    Ensures (decrementContentRcTx h rc) (fun rc' => Decremented rc rc' h) (fun _ => True) := by
  unfold decrementContentRcTx
  cases hget : rc.get h with
  | none => trivial
  | some current =>
    refine ((checkedSub_ensures _ _ _).mono (fun _ h => h) fun _ _ => trivial).bind
      fun count hcount => ?_
    have hrow : (rc.get h).getD 0 = count + 1 := by
      rw [hget, Option.getD_some]
      omega
    refine ⟨hrow.trans ?_, fun h' hne => ?_⟩
    · split
      · next hzero => rw [Table.get_remove_self, hzero]; rfl
      · rw [Table.get_insert_self]; rfl
    · split
      · exact Table.get_remove_of_ne _ hne
      · exact Table.get_insert_of_ne _ _ hne

/-- **What is left of a payload that was found invalid**: its state, its reference, its usage bucket
and its place in the queue.  Nothing else, but for the books that follow them. -/
structure RejectedOnly (env : Env) (db : Database) (v : VerifiedEvent) (db' : Database) : Prop where
  missing : ∃ last count next, db.ev.eventsContentState.get v.id = some (.missing last count next)
  state : db'.ev.eventsContentState = db.ev.eventsContentState.insert v.id .invalid
  rc : Decremented db.ev.contentRc db'.ev.contentRc v.event.contentHash
  usage : movePayloadTx .missing .invalid v.event.author v.event.contentLen db.ev.idsDataUsage =
    .ok db'.ev.idsDataUsage
  queue : db'.ev.eventsContentMissing = db.ev.eventsContentMissing.filter fun row =>
    (ofLex row).2 ≠ v.id
  /-- The content store is among the tables that stay, and so are all projections and origins. -/
  frame : db' = { db with
    ev := { db.ev with
      eventsContentState := db'.ev.eventsContentState
      contentRc := db'.ev.contentRc
      idsDataUsage := db'.ev.idsDataUsage
      eventsContentMissing := db'.ev.eventsContentMissing }
    accounting := db'.accounting
    retention := db'.retention }
  books : ∃ before, payloadBeforeTx env db.ev v = .ok before ∧
    payloadAfterTx env { db with ev := db'.ev } before = .ok db'

omit [Primitives] in
/-- Taking the row of its slot takes every row of an event that is `Missing`. -/
theorem unscheduleTx_eq_filter {t : EventTables} (hq : QueueExact t) (id : ShortEventId) :
    unscheduleTx (t.eventsContentState.get id) id t.eventsContentMissing =
      t.eventsContentMissing.filter fun row => (ofLex row).2 ≠ id := by
  ext row
  obtain ⟨n, id', rfl⟩ : ∃ n id', row = toLex (n, id') := ⟨(ofLex row).1, (ofLex row).2, rfl⟩
  rw [mem_unscheduleTx, Finset.mem_filter]
  refine and_congr_right fun hrow => not_congr ⟨fun h => h.1, fun h => ?_⟩
  -- the queue has one row for an event: the one of its slot
  have hid : id' = id := h
  subst hid
  exact ⟨rfl, hq.1 n id' hrow⟩

/-- Rejecting a payload, with its counters. -/
theorem rejectContentTx_ensures (t : EventTables) (v : VerifiedEvent) :
    Ensures (rejectContentTx t v) (fun t' => ∃ rc u,
      Decremented t.contentRc rc v.event.contentHash ∧
      movePayloadTx .missing .invalid v.event.author v.event.contentLen t.idsDataUsage = .ok u ∧
      t' = { t with
        eventsContentState := t.eventsContentState.insert v.id .invalid
        contentRc := rc
        idsDataUsage := u }) (fun _ => True) := by
  refine (decrementContentRcTx_decremented _ _).bind fun rc hrc => ?_
  unfold trackPayloadInvalidTx
  cases hu : movePayloadTx .missing .invalid v.event.author v.event.contentLen t.idsDataUsage with
  | error e => trivial
  | ok u => exact ⟨rc, u, hrc, rfl, rfl⟩

omit [Primitives] in
theorem canInsertEventContentTx_eq_true {t : EventTables} {id : ShortEventId} :
    canInsertEventContentTx t id = true ↔
      ∃ last count next, t.eventsContentState.get id = some (.missing last count next) := by
  unfold canInsertEventContentTx
  rcases t.eventsContentState.get id with _ | _ | _ | _ | _ <;> simp

/-- A payload that reaches its reducer and is found invalid there. -/
structure FoundInvalid (env : Env) (ctx : TxCtx) (db : Database) (c : VerifiedEventContent)
    (now : Timestamp) : Prop where
  stored : (db.ev.events.get c.event.id).isSome
  small : c.event.event.contentLen < MAX_CONTENT_LEN
  insertable : canInsertEventContentTx db.ev c.event.id = true
  carried : c.content.isSome
  invalid : ∃ p, Writing.processEventContentInsertedTx env ctx c.toEventContent now db.proj =
    .error .invalid p

/-- Such a payload is rejected, and the reducer's writes are none. -/
theorem FoundInvalid.materializeTx_eq {env : Env} {ctx : TxCtx} {db : Database}
    {c : VerifiedEventContent} {now : Timestamp} (h : FoundInvalid env ctx db c now) :
    Writing.materializeTx env ctx db c now =
      rejectContentTx { db.ev with
        eventsContentMissing := unscheduleTx (db.ev.eventsContentState.get c.event.id) c.event.id
          db.ev.eventsContentMissing } c.event >>= fun ev => .ok { db with ev := ev } := by
  obtain ⟨b, hb⟩ := Option.isSome_iff_exists.mp h.carried
  obtain ⟨p, hp⟩ := h.invalid
  have hsame : p = db.proj := by
    rcases Writing.processEventContentInsertedTx_cases env ctx c.toEventContent now db.proj with
      ⟨p', hw, -⟩ | ⟨hw, -⟩ | ⟨e, p', hw, -⟩
    · rw [hp] at hw
      cases hw
    · rw [hp] at hw
      cases hw
      rfl
    · rw [hp] at hw
      cases hw
  unfold Writing.materializeTx
  simp only [hb, hp, hsame]
  rfl

/-- **Invalid content has no projection effects.**  In every reachable database, when the reducer of
any kind finds a payload invalid and the transaction commits, all that changed is the event's state,
its reference, its usage bucket, its row in the queue, and the books over them.  The functional
reading of the transaction, which the other properties are proved about, commits the same tables. -/
theorem invalid_leaves_projections (env : Env) {D : Set VerifiedEvent} (hcf : CollisionFree D)
    (ops : List Op) (hD : DeliveredFrom D ops) (ctx : TxCtx) (c : VerifiedEventContent)
    (now : Timestamp) (ledger : AdmissionState) (buffer : Option PayloadBuffer) {db' : Database}
    (hinvalid : FoundInvalid env ctx (reached env ops) c now)
    (hok : Writing.processEventContentTx env ctx (reached env ops) c now ledger buffer = .ok db') :
    RejectedOnly env (reached env ops) c.event db' ∧
      processEventContentTx env ctx (reached env ops) c now ledger buffer = .ok db' := by
  refine ⟨?_, (Writing.processEventContentTx_eq ..).symm.trans hok⟩
  have hqueue := (reached_keeps env (queueExact_keeps D) hcf queueExact_empty ops hD).2
  generalize reached env ops = db at hinvalid hok hqueue
  unfold Writing.processEventContentTx at hok
  obtain ⟨before, hbefore, hok⟩ := bind_eq_ok.mp hok
  obtain ⟨mid, hmid, hafter⟩ := bind_eq_ok.mp hok
  unfold Writing.processEventContentInnerTx at hmid
  rw [if_neg (by simp [Option.isNone_iff_eq_none, ← Option.isSome_iff_ne_none, hinvalid.stored,
    hinvalid.small]), if_pos hinvalid.insertable] at hmid
  obtain ⟨admitted, -, hmid⟩ := bind_eq_ok.mp hmid
  rw [hinvalid.materializeTx_eq] at hmid
  obtain ⟨ev, hreject, hmid⟩ := bind_eq_ok.mp hmid
  obtain ⟨rc, u, hrc, hu, hev⟩ := (rejectContentTx_ensures _ _).of_ok hreject
  cases hmid
  obtain ⟨a, r, rfl⟩ := (payloadAfterTx_ensures env _ before).of_ok hafter
  subst hev
  exact {
    missing := canInsertEventContentTx_eq_true.mp hinvalid.insertable
    state := rfl
    rc := hrc
    usage := hu
    queue := unscheduleTx_eq_filter hqueue c.event.id
    frame := rfl
    books := ⟨before, hbefore, hafter⟩ }

end Rejected

/-! ### A post that does not decode

The smallest payload that is rejected. -/

section Sample

attribute [local instance] Primitives.reference

/-- Its first byte names no post. -/
def sampleGarbled : VerifiedEventContent :=
  ⟨⟨.ofEvent { kind := EventKind.SOCIAL_POST, contentLen := 1, timestamp := 5
               author := toLex (1, 1), contentHash := blake3 [7] }, some [7]⟩, by decide⟩

def sampleGarbledRun : List Op := [.ingest [.envelope sampleGarbled.event 6 .local]]

theorem sampleGarbled_foundInvalid :
    FoundInvalid sampleEnv {} (reached sampleEnv sampleGarbledRun) sampleGarbled 8 where
  stored := by decide +kernel
  small := by decide
  insertable := by decide +kernel
  carried := rfl
  invalid := ⟨_, rfl⟩

/-- The projections before and after the garbled post are the same. -/
theorem invalid_leaves_projections_sampleGarbled :
    ∃ db', Writing.processEventContentTx sampleEnv {} (reached sampleEnv sampleGarbledRun)
        sampleGarbled 8 {} none = .ok db' ∧
      RejectedOnly sampleEnv (reached sampleEnv sampleGarbledRun) sampleGarbled.event db' := by
  have hcf : CollisionFree (envelopesOf sampleGarbledRun) := collisionFree_envelopesOf (by decide)
  have hsome : (Writing.processEventContentTx sampleEnv {} (reached sampleEnv sampleGarbledRun)
      sampleGarbled 8 {} none).isOk = true := by
    decide +kernel
  cases hok : Writing.processEventContentTx sampleEnv {} (reached sampleEnv sampleGarbledRun)
      sampleGarbled 8 {} none with
  | error e =>
    rw [hok] at hsome
    cases hsome
  | ok db' =>
    exact ⟨db', rfl, (invalid_leaves_projections sampleEnv hcf sampleGarbledRun
      (deliveredFrom_envelopesOf sampleGarbledRun) {} sampleGarbled 8 {} none
      sampleGarbled_foundInvalid hok).1⟩

end Sample

end Rostra.Db
