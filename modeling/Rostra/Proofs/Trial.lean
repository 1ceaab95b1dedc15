/-
# No message is lost by its trials

A waiting message is a cursor in `events_dm_pending`, over a key table that grows and shrinks.

* `step_queue`: the database itself touches that cursor only when the message arrives.
* `Tried` is the invariant of a message that stays processed: the sweep of its keys (`Lib.Sweep`).

A message waits with the position of the last key that was tried on it. Each trial takes the next batch of keys
behind that position, and if none of them opens it, the position moves to the end of the batch. Keys are added and
expire in the meantime, so no trial has seen all keys; what can be said is about the keys that are there from the
first transaction to the last (`keptKeys`).

The two cryptographic operations are parameters. What is used of them is that decryption with a batch succeeds
exactly if it does with one of its keys (`BatchLaw`), which follows from the format of an age file
(`batchLaw_ofAge`).
-/
import Rostra.Db.Trial
import Rostra.Lib.Sweep
import Rostra.Proofs.Envelope
import Rostra.Proofs.Feed
import Rostra.Proofs.Store
import Rostra.Proofs.Wire

namespace Rostra.Db

open Rostra Outcome

section Mail

variable [Primitives]

/-! ## 1. What the database does to the queue

Of all reducers only that of direct messages touches the queue, and it writes a row without a position. -/

/-- The queue. -/
abbrev queueOf (p : Projections) : Table ShortEventId (Option (Bytes × Bytes)) := p.eventsDmPending

/-- A payload that is a message. -/
structure Message (c : EventContent) : Prop where
  kind : c.event.event.kind = EventKind.DIRECT_MESSAGE
  plain : c.event.event.isSingleton = false
  noAux : c.event.event.keyAux = 0
  frame : ∃ b, c.content = some b ∧ Primitives.validateFrame b = true

/-- What a processed payload does to the queue. -/
def MailQueueStep (c : EventContent) (p p' : Projections) : Prop :=
  queueOf p' = queueOf p ∨ Message c ∧ queueOf p' = (queueOf p).insert c.event.id none

theorem processKindTx_queue (env : Env) (ctx : TxCtx) (p : Projections) (c : EventContent) (now : Timestamp) :
    Ensures (processKindTx env ctx p c now) (fun r => MailQueueStep c p r.1) (fun _ => True) := by
  unfold processKindTx
  dsimp only
  split
  · next hk =>
    unfold processDmTx
    dsimp only
    split
    · trivial
    next hshape =>
    refine (decodeOr_ensures _).bind fun bytes hbytes => ?_
    split
    · exact (ensures_true _).bind fun a _ => .inl rfl
    next hdevice =>
    split
    · next hframe =>
      simp only [Bool.or_eq_true, bne_iff_ne, not_or, not_not, Bool.not_eq_true] at hshape
      exact .inr ⟨⟨hk.resolve_left hdevice, hshape.1, hshape.2, bytes, hbytes, hframe⟩, rfl⟩
    · trivial
  split
  · refine (ensures_true _).bind fun f _ => ensures_pure.mpr (.inl ?_)
    dsimp only
    split
    · obtain ⟨_, _, _, _, heq⟩ := insertUnfollowTx_frame p c.event.event.author
        (toLex (c.event.event.timestamp, c.event.id)) f.followee
      rw [heq]
    · obtain ⟨_, _, _, heq⟩ := insertFollowTx_frame p c.event.event.author
        (toLex (c.event.event.timestamp, c.event.id)) f
      rw [heq]
  split
  · exact (ensures_true _).bind fun addr _ => .inl rfl
  split
  · exact (ensures_true _).bind fun content _ => .inl rfl
  split
  · refine (ensures_true _).bind fun post _ => ?_
    split
    · exact .inl rfl
    · exact (liftDb_ensures ((applySocialPostTx_outside _ _ _ _ _ _ _).mono (fun _ h => h) fun _ _ => trivial)).bind
        fun p' hp' => .inl (congrArg queueOf hp' :)
  split
  · refine (ensures_true _).bind fun content _ => ?_
    split
    · exact .inl rfl
    · refine (liftDb_ensures ((processSocialVoteTx_frame _ _ _ _).mono (fun _ h => h) fun _ _ => trivial)).bind
        fun p' ⟨sums, hp'⟩ => .inl ?_
      rw [hp']
  split
  · exact (ensures_true _).bind fun _ _ => (ensures_true _).bind fun _ _ => .inl rfl
  · exact .inl rfl

theorem processEventContentInsertedTx_queue (env : Env) (ctx : TxCtx) (p : Projections) (c : EventContent)
    (now : Timestamp) :
    Ensures (processEventContentInsertedTx env ctx p c now) (MailQueueStep c p) (fun _ => True) := by
  unfold processEventContentInsertedTx
  refine (processKindTx_queue env ctx p c now).bind fun r hr => ?_
  obtain ⟨p', record⟩ := r
  cases record with
  | none => exact hr
  | some record =>
    have hsame : queueOf (insertSingletonTx p' c.event record) = queueOf p' := by
      unfold insertSingletonTx
      dsimp only
      split
      · rfl
      · rfl
    unfold MailQueueStep at hr ⊢
    rw [← hsame] at hr
    exact hr

/-! ## 2. A transaction of the database

A transaction of the database has many effects, but each of them is one of a few kinds (`Effects`), and for each
the queue either stays or gets the row of an event whose content has just arrived. -/

/-- The event of a waiting message. -/
structure Trialable (e : Event) : Prop where
  kind : e.kind = EventKind.DIRECT_MESSAGE
  noAux : e.keyAux = 0
  plain : e.isSingleton = false
  size : e.contentLen ≤ MAX_FRAME_BYTES

/-- What waits has arrived. -/
def MailQueueSound (db : Database) : Prop :=
  ∀ id cursor, (queueOf db.proj).get id = some cursor →
    ∃ e, db.ev.events.get id = some e ∧ Trialable e ∧ contentClass db.ev id ≠ .missing

/-- The content of an event has not arrived. -/
def Absent (t : EventTables) (id : ShortEventId) : Prop :=
  t.events.get id = none ∨ contentClass t id = .missing

/-- **What may happen to the queue**: a row appears when its content arrives, with no key tried. No transaction of
the database removes one. -/
def QueueMoved (db db' : Database) : Prop :=
  ∀ id, (queueOf db'.proj).get id = (queueOf db.proj).get id ∨
    (queueOf db.proj).get id = none ∧ (queueOf db'.proj).get id = some none ∧ Absent db.ev id

/-- Events stay, and content that has arrived is not awaited again. -/
def Onward (t t' : EventTables) : Prop :=
  ∀ id e, t.events.get id = some e →
    t'.events.get id = some e ∧ (contentClass t' id = .missing → contentClass t id = .missing)

/-- `validate_frame` accepts no longer frames. -/
def FramesBounded : Prop := ∀ b, Primitives.validateFrame b = true → b.length ≤ MAX_FRAME_BYTES

omit [Primitives] in
theorem Edge.of_missing {k : PayloadBucket} (h : Edge k .missing) : k = .missing := by
  rcases h with h | h | ⟨h, -⟩ | ⟨h, -⟩
  · exact h.symm
  · cases h
  · cases h
  · exact h

theorem DbEffect.onward {env : Env} {D : Set VerifiedEvent} {db db' : Database} (h : DbEffect env D db db') :
    Onward db.ev db'.ev := by
  intro id e he
  obtain ⟨he', hedge⟩ := h.edges he
  exact ⟨he', fun hm => Edge.of_missing (hm ▸ hedge)⟩

omit [Primitives] in
theorem Onward.trans {t t' t'' : EventTables} (h : Onward t t') (h' : Onward t' t'') : Onward t t'' := by
  intro id e he
  obtain ⟨he', hm⟩ := h id e he
  obtain ⟨he'', hm'⟩ := h' id e he'
  exact ⟨he'', fun h => hm (hm' h)⟩

omit [Primitives] in
theorem Absent.back {t t' : EventTables} {id : ShortEventId} (h : Absent t' id) (ho : Onward t t') :
    Absent t id := by
  cases he : t.events.get id with
  | none => exact .inl he
  | some e =>
    obtain ⟨he', hm⟩ := ho id e he
    rcases h with h | h
    · rw [he'] at h
      cases h
    · exact .inr (hm h)

omit [Primitives] in
/-- Nothing new waits. -/
theorem MailQueueSound.kept {db db' : Database} (hs : MailQueueSound db) (ho : Onward db.ev db'.ev)
    (hq : queueOf db'.proj = queueOf db.proj) : MailQueueSound db' := by
  intro id cursor hcursor
  rw [hq] at hcursor
  obtain ⟨e, he, hshape, hclass⟩ := hs id cursor hcursor
  obtain ⟨he', hm⟩ := ho id e he
  exact ⟨e, he', hshape, fun h => hclass (hm h)⟩

omit [Primitives] in
theorem QueueMoved.of_eq {db db' : Database} (hq : queueOf db'.proj = queueOf db.proj) : QueueMoved db db' :=
  fun id => .inl (by rw [hq])

/-- **One effect.** Only a payload that is processed queues a message, and it does so once. -/
theorem DbEffect.queue {env : Env} {D : Set VerifiedEvent} {db db' : Database} (hf : FramesBounded)
    (h : DbEffect env D db db') (hs : MailQueueSound db) : QueueMoved db db' ∧ MailQueueSound db' := by
  have ho := h.onward
  have hkept : queueOf db'.proj = queueOf db.proj → QueueMoved db db' ∧ MailQueueSound db' :=
    fun hq => ⟨.of_eq hq, hs.kept ho hq⟩
  cases h with
  | envelope hv h =>
    cases h with
    | present e he t₁ ht₁ hfin hproj hquota => exact hkept (congrArg queueOf hproj)
    | new hnew t₁ isD dp rev hins hfin next hproj hquota => exact hkept (congrArg queueOf (arrivedProjections_outside hproj) :)
  | @payload c now _ hc hst h =>
    cases h with
    | idle h => exact hkept rfl
    | rejected b hb hm hlen hp rc u => exact hkept rfl
    | deleted b hb hd hlen => exact hkept (congrArg queueOf (withLineage_outside _ _) :)
    | processed b hb hm hlen p hp u =>
      rcases (processEventContentInsertedTx_queue env {} db.proj _ now).of_ok hp with hq | ⟨hmsg, hq⟩
      · exact hkept hq
      -- the message itself: nothing waited for it, as it was missing
      have hnone : (queueOf db.proj).get c.event.id = none := by
        cases hcur : (queueOf db.proj).get c.event.id with
        | none => rfl
        | some cursor =>
          obtain ⟨e, -, -, hclass⟩ := hs _ _ hcur
          exact absurd hm hclass
      refine ⟨fun id => ?_, fun id cursor hcursor => ?_⟩
      · by_cases hid : id = c.event.id
        · subst hid
          exact .inr ⟨hnone, by rw [show queueOf _ = _ from hq]; exact Table.get_insert_self .., .inr hm⟩
        · exact .inl (by rw [show queueOf _ = _ from hq]; exact Table.get_insert_of_ne _ _ hid)
      · by_cases hid : id = c.event.id
        · subst hid
          obtain ⟨b', hb', hvalid⟩ := hmsg.frame
          obtain ⟨hlength, -⟩ := c.length_and_hash hb'
          refine ⟨c.event.event, hst, ⟨hmsg.kind, hmsg.noAux, hmsg.plain, ?_⟩, by simp [contentClass, classOf]⟩
          rw [← hlength]
          exact hf b' hvalid
        · rw [show queueOf _ = _ from hq, show (Table.insert _ _ _).get id = _ from
            Table.get_insert_of_ne _ _ hid] at hcursor
          obtain ⟨e, he, hshape, hclass⟩ := hs id cursor hcursor
          obtain ⟨he', hm'⟩ := ho id e he
          exact ⟨e, he', hshape, fun h => hclass (hm' h)⟩
  | released he hmatch hkind hlen hp ht decisions => exact hkept (congrArg queueOf (dematerializeTx_outside hp) :)
  | scheduled h => exact hkept rfl
  | collected hrc => exact hkept rfl
  | booked h =>
    obtain ⟨a, r, rfl⟩ := h
    exact hkept rfl
  | ranked postId now => exact hkept (by rw [recalculateNewsPostScoreTx_frame]; rfl)

/-- **A transaction of the database**, through its effects. -/
theorem step_queue {D : Set VerifiedEvent} {I : EventTables → Prop} {M : VerifiedEvent → EventTables → Prop}
    {E : DbError → Prop} {env : Env} {db db' : Database} (h : Keeps D Anything AnythingMid I M E)
    (hcf : CollisionFree D) (hf : FramesBounded) (hI : OnGround D I db.ev) (op : Op)
    (hD : ∀ v ∈ op.delivered, v ∈ D) (hs : MailQueueSound db) (hok : step env db op = .ok db') :
    QueueMoved db db' ∧ MailQueueSound db' ∧ Onward db.ev db'.ev := by
  have heffects := (step_effects h hcf hI op hD).of_ok hok
  clear hok
  induction heffects with
  | refl => exact ⟨fun _ => .inl rfl, hs, fun _ _ he => ⟨he, id⟩⟩
  | tail _ hlink ih =>
    obtain ⟨hmoved, hmid, honward⟩ := ih
    obtain ⟨hmoved', hs'⟩ := hlink.2.2.queue hf hmid
    refine ⟨fun id => ?_, hs', honward.trans hlink.2.2.onward⟩
    rcases hmoved' id with hsame | ⟨hnone, hnew, habsent⟩
    · rw [hsame]
      exact hmoved id
    · rcases hmoved id with hsame | ⟨-, hsome, -⟩
      · rw [hsame] at hnone
        exact .inr ⟨hnone, hnew, habsent.back honward⟩
      · rw [hnone] at hsome
        cases hsome

/-! ## 3. A trial

An attempt has three outcomes: the message is opened and its body stored, the batch failed and was the last one, so
that the message goes, or it failed and the position moves. Besides, a trial gives a message up whose content is
not there or not of its author; a processed message is not given up (`selectTrial_discard`). -/

section Attempt

variable {crypto : Crypto} {env : Env} {s s' : Mailbox} {now : ℕ} {id : ShortEventId}
  {cursor : Option EpochKey} {event : Event} {content : Bytes}

/-- The event is here, and its content is processed. -/
def ProcessedAt (t : EventTables) (id : ShortEventId) : Prop :=
  (t.events.get id).isSome ∧ contentClass t id = .current

omit [Primitives] in
theorem mem_epochsBehind {epochs : Table EpochKey LocalEpoch} {row : EpochKey × LocalEpoch} :
    row ∈ epochsBehind epochs cursor ↔ epochs.get row.1 = some row.2 ∧ Table.passed cursor row.1 = false := by
  rw [epochsBehind, List.mem_filterMap, Table.not_passed]
  constructor
  · rintro ⟨key, hkey, hrow⟩
    obtain ⟨epoch, hepoch, rfl⟩ := Option.map_eq_some_iff.mp hrow
    exact ⟨hepoch, (Table.mem_beyond.mp (Table.mem_of_mem_firstKeys _ _ hkey)).2⟩
  · rintro ⟨hrow, hbehind⟩
    refine ⟨row.1, Table.mem_firstKeys _ _ ?_ _ (Table.mem_beyond.mpr ⟨Table.mem_keys_of_get hrow, hbehind⟩), ?_⟩
    · exact Finset.card_le_card fun key hkey => (Table.mem_beyond.mp hkey).1
    · rw [hrow]
      rfl

omit [Primitives] in
theorem epochsBehind_sorted (epochs : Table EpochKey LocalEpoch) (cursor : Option EpochKey) :
    (epochsBehind epochs cursor).Pairwise fun a b => a.1 < b.1 := by
  refine List.Pairwise.filterMap _ ?_ (Table.firstKeys_sorted _ _)
  intro key key' hlt row hrow row' hrow'
  obtain ⟨_, -, rfl⟩ := Option.map_eq_some_iff.mp hrow
  obtain ⟨_, -, rfl⟩ := Option.map_eq_some_iff.mp hrow'
  exact hlt

omit [Primitives] in
/-- The keys behind a cursor are what a sweep has in front of it. -/
theorem epochsBehind_ahead {kept : Set EpochKey} {epochs : Table EpochKey LocalEpoch}
    (hkept : ∀ key ∈ kept, key ∈ epochs.keys) (cursor : Option EpochKey) :
    Sweep.Ahead kept cursor ((epochsBehind epochs cursor).map (·.1)) where
  sorted := List.pairwise_map.mpr (epochsBehind_sorted _ _)
  ahead key hkey := by
    obtain ⟨row, hrow, rfl⟩ := List.mem_map.mp hkey
    exact (mem_epochsBehind.mp hrow).2
  all key hkey hnew := by
    obtain ⟨epoch, hepoch⟩ := Table.mem_keys.mp (hkept key hkey)
    exact List.mem_map.mpr ⟨(key, epoch), mem_epochsBehind.mpr ⟨hepoch, hnew⟩, rfl⟩

/-- An identity is the secret of its epoch. -/
theorem identity_secret {epoch : LocalEpoch} {identity : Text} (h : epoch.identity crypto now = .ok identity) :
    identity = epoch.secret := by
  unfold LocalEpoch.identity at h
  split at h
  · cases h
  split at h
  · cases h
  split at h
  · exact (Except.ok.inj h).symm
  · cases h

theorem identities_secrets : ∀ (rows : List (EpochKey × LocalEpoch)) {identities : List Text},
    rows.mapM (fun row => row.2.identity crypto now) = .ok identities → identities = rows.map (·.2.secret)
  | [], _, h => by
    cases h
    rfl
  | row :: rows, identities, h => by
    rw [List.mapM_cons] at h
    obtain ⟨identity, hidentity, h⟩ := bind_eq_ok.mp h
    obtain ⟨rest, hrest, h⟩ := bind_eq_ok.mp h
    cases h
    rw [identity_secret hidentity, identities_secrets rows hrest, List.map_cons]

/-- The secrets of a batch. -/
abbrev secretsOf (batch : List (EpochKey × LocalEpoch)) : List Text := batch.map (·.2.secret)

/-- No key of the batch opened the message, or there was none. -/
def Unopened (crypto : Crypto) (env : Env) (s : Mailbox) (cursor : Option EpochKey) (event : Event)
    (content : Bytes) : Prop :=
  trialBatch s.epochs cursor ≠ [] →
    crypto.decrypt content (secretsOf (trialBatch s.epochs cursor)) event.author env.selfId = none

/-- **What an attempt does**: one of the keys opens the message, which is then stored and leaves the queue; or none
does, and the cursor moves behind the batch; or no key is left, and the message leaves the queue as well. -/
inductive AttemptEffect (crypto : Crypto) (env : Env) (s : Mailbox) (id : ShortEventId) (cursor : Option EpochKey)
    (event : Event) (content : Bytes) : Mailbox → Prop
  | opened {body : Dm.MessageBody} {dm : Dm.DmTables}
      (hbody : crypto.decrypt content (secretsOf (trialBatch s.epochs cursor)) event.author env.selfId = some body)
      (hdm : Dm.dmStoreHistoryTx s.dm body id event.timestamp = .ok dm) :
      AttemptEffect crypto env s id cursor event content
        ({ s with dm := dm }.withPending (s.db.proj.eventsDmPending.remove id))
  | exhausted (hfail : Unopened crypto env s cursor event content)
      (hend : (epochsBehind s.epochs cursor).drop MAX_TRIAL_KEYS = []) :
      AttemptEffect crypto env s id cursor event content (s.withPending (s.db.proj.eventsDmPending.remove id))
  | advanced (hfail : Unopened crypto env s cursor event content) :
      AttemptEffect crypto env s id cursor event content (s.withPending (s.db.proj.eventsDmPending.insert id
        ((Sweep.moved cursor ((trialBatch s.epochs cursor).map (·.1))).map ofLex)))

theorem attemptTx_effect (crypto : Crypto) (env : Env) (s : Mailbox) (now : ℕ) (id : ShortEventId)
    (cursor : Option EpochKey) (event : Event) (content : Bytes) :
    Ensures (attemptTx crypto env s now id cursor event content)
      (AttemptEffect crypto env s id cursor event content) (fun _ => True) := by
  unfold attemptTx
  refine ((ensures_self _).mono (fun _ h => h) fun _ _ => trivial).bind fun identities hidentities => ?_
  obtain rfl := identities_secrets _ hidentities
  have hlast : ((trialBatch s.epochs cursor).getLast?.map (·.1)).or cursor =
      Sweep.moved cursor ((trialBatch s.epochs cursor).map (·.1)) := by
    rw [Sweep.moved, List.getLast?_map]
  dsimp only
  rw [hlast]
  generalize hbody : (if (secretsOf (trialBatch s.epochs cursor)).isEmpty then none
    else crypto.decrypt content (secretsOf (trialBatch s.epochs cursor)) event.author env.selfId) = result
  cases result with
  | some body =>
    dsimp only
    split at hbody
    · cases hbody
    · cases hdm : Dm.dmStoreHistoryTx s.dm body id event.timestamp with
      | error e => trivial
      | ok dm => exact .opened hbody hdm
  | none =>
    have hfail : Unopened crypto env s cursor event content := by
      intro hne
      rwa [if_neg (by simpa using hne)] at hbody
    dsimp only
    split
    · next hend => exact .exhausted hfail (List.isEmpty_iff.mp hend)
    · exact .advanced hfail

/-- What a selected message is. -/
theorem selectTrial_attempt (h : selectTrial crypto s now = .ok (.attempt id cursor event content)) :
    expiredEpochs s.epochs now = [] ∧
      ((queueOf s.db.proj).get id).map (Option.map toLex) = some cursor ∧ s.db.ev.events.get id = some event := by
  unfold selectTrial at h
  split at h
  · next hnone =>
    refine ⟨List.isEmpty_iff.mp hnone, ?_⟩
    split at h
    · cases h
    · next id' cursor' hfirst =>
      unfold firstPending at hfirst
      obtain ⟨id'', -, hrow⟩ := Option.bind_eq_some_iff.mp hfirst
      obtain ⟨c, hc, heq⟩ := Option.map_eq_some_iff.mp hrow
      cases heq
      unfold selectContent at h
      split at h
      · cases h
      · next e he =>
        split at h
        · cases h
        split at h
        · cases h
        split at h
        · cases h
        split at h
        · cases h
        · cases h
          exact ⟨by rw [hc]; rfl, he⟩
  · cases h

/-- **A processed message is not given up.** The code discards a row whose content is missing or whose signature
does not verify; neither happens to a message that the database has processed. -/
theorem selectTrial_discard (hs : MailQueueSound s.db) (hp : ProcessedAt s.db.ev id)
    (hheld : ∀ e, s.db.ev.events.get id = some e → (s.db.ev.contentStore.get e.contentHash).isSome)
    (hsigned : ∀ e, s.db.ev.events.get id = some e → crypto.verifySigned e = true) :
    selectTrial crypto s now ≠ .ok (.discard id) := by
  obtain ⟨hhere, hcurrent⟩ := hp
  intro h
  unfold selectTrial at h
  split at h
  · split at h
    · cases h
    · next id' cursor' hfirst =>
      unfold firstPending at hfirst
      obtain ⟨id'', -, hrow⟩ := Option.bind_eq_some_iff.mp hfirst
      obtain ⟨c, hc, heq⟩ := Option.map_eq_some_iff.mp hrow
      cases heq
      have hstate : contentClass s.db.ev id = .current → s.db.ev.eventsContentState.get id = none := by
        unfold contentClass classOf
        cases s.db.ev.eventsContentState.get id with
        | none => exact fun _ => rfl
        | some state => cases state <;> simp
      unfold selectContent at h
      split at h
      · next hnone =>
        cases h
        rw [hnone] at hhere
        cases hhere
      · next e he =>
        split at h
        · next hbad =>
          cases h
          obtain ⟨e', he', hshape, -⟩ := hs id c hc
          rw [he] at he'
          cases he'
          rcases hbad with hkind | haux | hplain | hsize | hsome
          · exact hkind hshape.kind
          · exact haux hshape.noAux
          · rw [hshape.plain] at hplain
            cases hplain
          · exact absurd hshape.size (not_le.mpr hsize)
          · rw [hstate hcurrent] at hsome
            cases hsome
        split at h
        · next hbad =>
          cases h
          rw [hsigned e he] at hbad
          cases hbad
        split at h
        · next hnone =>
          cases h
          have := hheld e he
          rw [hnone] at this
          cases this
        split at h
        · cases h
        · cases h
  · cases h

end Attempt

/-! ## 4. Single steps

A run consists of transactions of the database, trials, and the maintenance of keys; for each of them, what it does
to the queue. -/

section Steps

variable {D : Set VerifiedEvent} {crypto : Crypto} {env : Env} {s s' : Mailbox} {now : ℕ}

/-- The invariant of a run: the ground of the event tables, and a queue whose rows belong to stored messages. -/
structure MailSound (D : Set VerifiedEvent) (s : Mailbox) : Prop where
  ground : OnGround D (fun t => Balanced t ∧ Measured D t) s.db.ev
  queue : MailQueueSound s.db

/-- **What a trial transaction does** to the mailbox, whichever message it has selected. -/
inductive TrialEffect (crypto : Crypto) (env : Env) (s : Mailbox) (now : ℕ) : Mailbox → Prop
  | idle (hsel : ∀ id cursor event content, selectTrial crypto s now ≠ .ok (.attempt id cursor event content)) :
      TrialEffect crypto env s now s
  | discarded {id : ShortEventId} (hsel : selectTrial crypto s now = .ok (.discard id)) :
      TrialEffect crypto env s now (s.withPending (s.db.proj.eventsDmPending.remove id))
  | attempted {id : ShortEventId} {cursor : Option EpochKey} {event : Event} {content : Bytes} {s' : Mailbox}
      (hsel : selectTrial crypto s now = .ok (.attempt id cursor event content))
      (hok : attemptTx crypto env s now id cursor event content = .ok s')
      (h : AttemptEffect crypto env s id cursor event content s') : TrialEffect crypto env s now s'

theorem mailStep_trial (h : mailStep crypto env s (.trial now) = .ok s') : TrialEffect crypto env s now s' := by
  obtain ⟨⟨s₁, worked⟩, h, hs'⟩ := bind_eq_ok.mp h
  cases hs'
  obtain ⟨selection, hsel, h⟩ := bind_eq_ok.mp h
  cases selection with
  | expired =>
    cases h
    exact .idle fun _ _ _ _ h => by rw [hsel] at h; cases h
  | idle =>
    cases h
    exact .idle fun _ _ _ _ h => by rw [hsel] at h; cases h
  | discard id =>
    cases h
    exact .discarded hsel
  | attempt id cursor event content =>
    obtain ⟨s₂, hs₂, h⟩ := bind_eq_ok.mp h
    cases h
    exact .attempted hsel hs₂ ((attemptTx_effect crypto env s now id cursor event content).of_ok hs₂)

/-- A row that is selected is in the queue. -/
theorem selectTrial_queued {id : ShortEventId} {cursor : Option EpochKey} {event : Event} {content : Bytes}
    (h : selectTrial crypto s now = .ok (.attempt id cursor event content)) :
    ∃ c, (queueOf s.db.proj).get id = some c ∧ c.map toLex = cursor :=
  Option.map_eq_some_iff.mp (selectTrial_attempt h).2.1

/-- A trial adds no row to the queue, and does nothing to the events. -/
theorem TrialEffect.frame (h : TrialEffect crypto env s now s') : s'.db.ev = s.db.ev ∧
    ∀ id, (queueOf s.db.proj).get id = none → (queueOf s'.db.proj).get id = none := by
  have hremove : ∀ (q : Table ShortEventId (Option (Bytes × Bytes))) id id', q.get id' = none →
      (q.remove id).get id' = none := by
    intro q id id' hnone
    rw [Table.get_remove, hnone, ite_self]
  cases h with
  | idle => exact ⟨rfl, fun _ h => h⟩
  | discarded hsel => exact ⟨rfl, hremove _ _⟩
  | @attempted id cursor event content _ hsel hok h =>
    cases h with
    | opened hbody hdm => exact ⟨rfl, hremove _ _⟩
    | exhausted hfail hend => exact ⟨rfl, hremove _ _⟩
    | advanced hfail =>
      refine ⟨rfl, fun id' hnone => ?_⟩
      obtain ⟨c, hc, -⟩ := selectTrial_queued hsel
      have hid : id' ≠ id := by
        rintro rfl
        rw [hnone] at hc
        cases hc
      exact (Table.get_insert_of_ne _ _ hid).trans hnone

theorem TrialEffect.sound (h : TrialEffect crypto env s now s') (hs : MailSound D s) : MailSound D s' := by
  obtain ⟨hev, hnone⟩ := h.frame
  refine ⟨by rw [hev]; exact hs.ground, fun id cursor hcursor => ?_⟩
  cases hold : (queueOf s.db.proj).get id with
  | none =>
    rw [hnone id hold] at hcursor
    cases hcursor
  | some c =>
    rw [hev]
    exact hs.queue id c hold

omit [Primitives] in
theorem dmExpireKeysTx_db (h : dmExpireKeysTx s now = .ok s') : s'.db = s.db := by
  unfold dmExpireKeysTx at h
  split at h
  · cases h
  · cases h
    rfl

/-- **Every other transaction**: a row appears when its content arrives. Keys may come and go at any time, as far
as the queue is concerned. -/
theorem mailStep_other (hcf : CollisionFree D) (hf : FramesBounded) (hs : MailSound D s) {o : MailOp}
    (hD : ∀ v ∈ o.delivered, v ∈ D) (hne : ∀ now, o ≠ .trial now) (h : mailStep crypto env s o = .ok s') :
    QueueMoved s.db s'.db ∧ MailSound D s' := by
  have hkept : s'.db.ev = s.db.ev → queueOf s'.db.proj = queueOf s.db.proj →
      QueueMoved s.db s'.db ∧ MailSound D s' := by
    intro hev hq
    refine ⟨.of_eq hq, by rw [hev]; exact hs.ground, hs.queue.kept ?_ hq⟩
    rw [hev]
    exact fun _ _ he => ⟨he, fun h => h⟩
  cases o with
  | db op =>
    obtain ⟨db, hdb, h⟩ := bind_eq_ok.mp h
    cases h
    have hok : step env s.db op = .ok db := by
      cases hstep : step env s.db op with
      | error e =>
        rw [hstep] at hdb
        cases hdb
      | ok db' =>
        rw [hstep] at hdb
        cases hdb
        rfl
    have hkeeps := (balanced_keeps D).and (measured_keeps D)
    obtain ⟨hmoved, hqueue, -⟩ := step_queue hkeeps hcf hf hs.ground op hD hs.queue hok
    exact ⟨hmoved, (step_keeps hkeeps hcf hs.ground op hD).of_ok hok, hqueue⟩
  | history op =>
    obtain ⟨dm, -, h⟩ := bind_eq_ok.mp h
    cases h
    exact hkept rfl rfl
  | maintain now drawn =>
    obtain ⟨⟨s₁, announcement⟩, h, hs₁⟩ := bind_eq_ok.mp h
    cases hs₁
    obtain ⟨s₀, hexpire, h⟩ := bind_eq_ok.mp h
    have hs₀ := dmExpireKeysTx_db hexpire
    dsimp only at h
    split at h
    · cases h
      exact hkept (by rw [hs₀]) (by rw [hs₀])
    split at h
    · cases h
      exact hkept (by rw [hs₀]) (by rw [hs₀])
    · obtain ⟨epoch, -, h⟩ := bind_eq_ok.mp h
      cases h
      exact hkept (by rw [hs₀]) (by rw [hs₀])
  | reenroll deviceId =>
    obtain ⟨⟨s₁, device⟩, h, hs₁⟩ := bind_eq_ok.mp h
    cases hs₁
    unfold dmReenroll at h
    split at h
    · cases h
    split at h
    · cases h
      exact hkept rfl rfl
    · cases h
      exact hkept rfl rfl
  | expireKeys now =>
    have hdb := dmExpireKeysTx_db h
    exact hkept (by rw [hdb]) (by rw [hdb])
  | trial now => exact absurd rfl (hne now)
  | stash pending =>
    cases h
    exact hkept rfl rfl

theorem mailStep_sound (hcf : CollisionFree D) (hf : FramesBounded) (hs : MailSound D s) {o : MailOp}
    (hD : ∀ v ∈ o.delivered, v ∈ D) (h : mailStep crypto env s o = .ok s') : MailSound D s' := by
  by_cases htrial : ∃ now, o = .trial now
  · obtain ⟨now, rfl⟩ := htrial
    exact (mailStep_trial h).sound hs
  · exact (mailStep_other hcf hf hs hD (fun now hnow => htrial ⟨now, hnow⟩) h).2

theorem mailSound_start (D : Set VerifiedEvent) (dm : Dm.DmTables) : MailSound D { dm := dm } := by
  refine ⟨⟨grounded_empty D, balanced_empty, measured_empty D⟩, fun id cursor h => ?_⟩
  simp [queueOf] at h

theorem mailSound_run (hcf : CollisionFree D) (hf : FramesBounded) (hs : MailSound D s) {ops : List MailOp}
    (hD : MailedFrom D ops) : MailSound D (run (mailStep crypto env) s ops) :=
  run_invariant ops s (fun o ho _ _ hs hok => mailStep_sound hcf hf hs (hD o ho) hok) hs

end Steps

/-! ## 5. The trials of a message

The induction over a run follows one message from the transaction that queues it to the one that removes it.
`Tried` carries the sweep: all lasting keys behind the position have been tried, each of them once. -/

section Trials

/-- One key that was tried on one message. -/
structure TrialRecord where
  key : EpochKey
  epoch : LocalEpoch
  event : Event
  content : Bytes

variable (crypto : Crypto) (env : Env)

/-- What a transaction tries on a message; if it fails, it leaves no trace. -/
def triedOn (s : Mailbox) (id : ShortEventId) : MailOp → List TrialRecord
  | .trial now =>
    match selectTrial crypto s now with
    | .ok (.attempt id' cursor event content) =>
      if id' = id ∧ (attemptTx crypto env s now id' cursor event content).toBool then
        (trialBatch s.epochs cursor).map fun row => ⟨row.1, row.2, event, content⟩
      else []
    | _ => []
  | _ => []

/-- What a run tries on a message, from a state on. -/
def trials (id : ShortEventId) (s : Mailbox) : List MailOp → List TrialRecord
  | [] => []
  | o :: ops => triedOn crypto env s id o ++ trials id (commit (mailStep crypto env s o) s) ops

/-- `decrypt` succeeds on a batch exactly if it does for one of its keys. -/
def BatchLaw : Prop :=
  ∀ frame identities author account, identities ≠ [] → identities.length ≤ MAX_TRIAL_KEYS →
    ((crypto.decrypt frame identities author account).isSome ↔
      ∃ i ∈ identities, (crypto.decrypt frame [i] author account).isSome)

/-- The key does not open the message. -/
def TrialRecord.Failed (r : TrialRecord) : Prop :=
  crypto.decrypt r.content [r.epoch.secret] r.event.author env.selfId = none

/-- The keys that a run never deletes, of those it starts with. -/
def keptKeys (s : Mailbox) (ops : List MailOp) : Set EpochKey :=
  {key | ∀ before, before <+: ops → key ∈ (run (mailStep crypto env) s before).epochs.keys}

/-- The message stays processed. -/
def StaysProcessed (s : Mailbox) (ops : List MailOp) (id : ShortEventId) : Prop :=
  ∀ before, before <+: ops → ProcessedAt (run (mailStep crypto env) s before).db.ev id

variable {crypto env} {D : Set VerifiedEvent} {s : Mailbox} {id : ShortEventId} {ops : List MailOp}

theorem mailRun_snoc (s : Mailbox) (ops : List MailOp) (o : MailOp) :
    run (mailStep crypto env) s (ops ++ [o]) =
      commit (mailStep crypto env (run (mailStep crypto env) s ops) o) (run (mailStep crypto env) s ops) := by
  rw [run_append]
  rfl

theorem trials_snoc (id : ShortEventId) (o : MailOp) : ∀ (ops : List MailOp) (s : Mailbox),
    trials crypto env id s (ops ++ [o]) =
      trials crypto env id s ops ++ triedOn crypto env (run (mailStep crypto env) s ops) id o
  | [], s => by simp [trials]
  | o' :: ops, s => by
    rw [List.cons_append, trials, trials_snoc id o ops, trials, List.append_assoc, run_cons]

theorem keptKeys_snoc (s : Mailbox) (ops : List MailOp) (o : MailOp) :
    keptKeys crypto env s (ops ++ [o]) ⊆ keptKeys crypto env s ops :=
  fun _ hkey before hbefore => hkey before (hbefore.trans (List.prefix_append _ _))

omit [Primitives] in
/-- A batch that did not open the message: none of its keys does. -/
theorem Unopened.failed (hbatch : BatchLaw crypto) {cursor : Option EpochKey} {event : Event} {content : Bytes}
    (h : Unopened crypto env s cursor event content) {row : EpochKey × LocalEpoch}
    (hrow : row ∈ trialBatch s.epochs cursor) :
    TrialRecord.Failed crypto env ⟨row.1, row.2, event, content⟩ := by
  have hne : trialBatch s.epochs cursor ≠ [] := List.ne_nil_of_mem hrow
  have hlength : (secretsOf (trialBatch s.epochs cursor)).length ≤ MAX_TRIAL_KEYS := by
    rw [List.length_map, trialBatch]
    exact List.length_take_le _ _
  have hlaw := hbatch content (secretsOf (trialBatch s.epochs cursor)) event.author env.selfId
    (by simpa using hne) hlength
  rw [h hne] at hlaw
  show crypto.decrypt content [row.2.secret] event.author env.selfId = none
  cases hopen : crypto.decrypt content [row.2.secret] event.author env.selfId with
  | none => rfl
  | some body =>
    have hsome := hlaw.mpr ⟨row.2.secret, List.mem_map_of_mem hrow, by rw [hopen]; rfl⟩
    cases hsome

/-- **The invariant of a waiting message**: a sweep of the keys that are there all the time, and no key that
was tried opens the message. -/
structure Tried (crypto : Crypto) (env : Env) (s : Mailbox) (id : ShortEventId) (ops : List MailOp)
    (c : Option (Bytes × Bytes)) : Prop where
  queued : (queueOf (run (mailStep crypto env) s ops).db.proj).get id = some c
  swept : Sweep.Swept (keptKeys crypto env s ops) (c.map toLex) ((trials crypto env id s ops).map (·.key))
  failed : ∀ r ∈ trials crypto env id s ops, r.Failed crypto env

/-- It waits, or it does not any more. -/
def Followed (crypto : Crypto) (env : Env) (s : Mailbox) (id : ShortEventId) (ops : List MailOp) : Prop :=
  (queueOf (run (mailStep crypto env) s ops).db.proj).get id = none ∨ ∃ c, Tried crypto env s id ops c

/-- A transaction that leaves the message alone. -/
theorem Tried.aside {c : Option (Bytes × Bytes)} (h : Tried crypto env s id ops c) {o : MailOp}
    (hq : (queueOf (run (mailStep crypto env) s (ops ++ [o])).db.proj).get id =
      (queueOf (run (mailStep crypto env) s ops).db.proj).get id)
    (hnone : triedOn crypto env (run (mailStep crypto env) s ops) id o = []) :
    Tried crypto env s id (ops ++ [o]) c where
  queued := hq.trans h.queued
  swept := by
    rw [trials_snoc, hnone, List.append_nil]
    exact h.swept.shrink (keptKeys_snoc s ops o)
  failed := by
    rw [trials_snoc, hnone, List.append_nil]
    exact h.failed

/-- What an attempt on the message tries. -/
theorem triedOn_attempt {s' : Mailbox} {now : ℕ} {cursor : Option EpochKey} {event : Event} {content : Bytes}
    (hsel : selectTrial crypto s now = .ok (.attempt id cursor event content))
    (hok : attemptTx crypto env s now id cursor event content = .ok s') :
    triedOn crypto env s id (.trial now) =
      (trialBatch s.epochs cursor).map fun row => ⟨row.1, row.2, event, content⟩ := by
  unfold triedOn
  dsimp only
  rw [hsel]
  dsimp only
  rw [hok]
  exact if_pos ⟨rfl, rfl⟩

/-- A trial of another message. -/
theorem triedOn_other {now : ℕ} (hsel : ∀ cursor event content,
    selectTrial crypto s now ≠ .ok (.attempt id cursor event content)) :
    triedOn crypto env s id (.trial now) = [] := by
  unfold triedOn
  dsimp only
  split
  · next id' cursor event content h =>
    refine if_neg fun hid => ?_
    rw [hid.1] at h
    exact hsel cursor event content h
  · rfl

theorem mailStep_attempt {s' : Mailbox} {now : ℕ} {cursor : Option EpochKey} {event : Event} {content : Bytes}
    (hsel : selectTrial crypto s now = .ok (.attempt id cursor event content))
    (hok : attemptTx crypto env s now id cursor event content = .ok s') :
    mailStep crypto env s (.trial now) = .ok s' := by
  have hpending : dmProcessPendingTx crypto env s now = .ok (s', true) := by
    unfold dmProcessPendingTx
    rw [hsel]
    show (attemptTx crypto env s now id cursor event content >>= _) = _
    rw [hok]
    rfl
  show (dmProcessPendingTx crypto env s now >>= _) = _
  rw [hpending]
  rfl

theorem triedOn_error {o : MailOp} {e : MailError} (h : mailStep crypto env s o = .error e) :
    triedOn crypto env s id o = [] := by
  cases o with
  | trial now =>
    unfold triedOn
    dsimp only
    split
    · next id' cursor event content hsel =>
      refine if_neg fun hid => ?_
      cases hok : attemptTx crypto env s now id' cursor event content with
      | error e =>
        rw [hok] at hid
        cases hid.2
      | ok s' =>
        rw [mailStep_attempt hsel hok] at h
        cases h
    · rfl
  | db op => rfl
  | history op => rfl
  | maintain now drawn => rfl
  | reenroll deviceId => rfl
  | expireKeys now => rfl
  | stash pending => rfl

omit [Primitives] in
theorem ProcessedAt.not_absent {t : EventTables} (h : ProcessedAt t id) : ¬Absent t id := by
  obtain ⟨hhere, hcurrent⟩ := h
  rintro (hnone | hmissing)
  · rw [hnone] at hhere
    cases hhere
  · rw [hmissing] at hcurrent
    cases hcurrent

/-- What a transaction is for a message that waits: nothing, as it is about others, or one attempt on it. -/
inductive Turn (crypto : Crypto) (env : Env) (s : Mailbox) (id : ShortEventId) (o : MailOp) (s' : Mailbox) : Prop
  | aside (hq : (queueOf s'.db.proj).get id = (queueOf s.db.proj).get id)
      (hnone : triedOn crypto env s id o = [])
  | attempted {now : ℕ} {cursor : Option EpochKey} {event : Event} {content : Bytes} (ho : o = .trial now)
      (hsel : selectTrial crypto s now = .ok (.attempt id cursor event content))
      (hok : attemptTx crypto env s now id cursor event content = .ok s')
      (heff : AttemptEffect crypto env s id cursor event content s')

/-- Stored headers were verified when they came in. -/
def SignedMail (crypto : Crypto) (D : Set VerifiedEvent) : Prop := ∀ v ∈ D, crypto.verifySigned v.event = true

theorem turn (hcf : CollisionFree D) (hf : FramesBounded) (hsigned : SignedMail crypto D) (hs : MailSound D s)
    (hp : ProcessedAt s.db.ev id) {o : MailOp} (hD : ∀ v ∈ o.delivered, v ∈ D) {c : Option (Bytes × Bytes)}
    (hc : (queueOf s.db.proj).get id = some c) :
    Turn crypto env s id o (commit (mailStep crypto env s o) s) := by
  cases hstep : mailStep crypto env s o with
  | error e => exact .aside rfl (triedOn_error hstep)
  | ok s' =>
    rw [commit_ok]
    by_cases htrial : ∃ now, o = .trial now
    · obtain ⟨now, rfl⟩ := htrial
      cases mailStep_trial hstep with
      | idle hsel => exact .aside rfl (triedOn_other fun cursor event content => hsel id cursor event content)
      | @discarded id' hsel =>
        have hne : id ≠ id' := by
          rintro rfl
          refine selectTrial_discard hs.queue hp (fun e he => ?_) (fun e he => ?_) hsel
          · exact hs.ground.2.2.held id e he hp.2
          · exact hsigned _ (hs.ground.1.keyed.mem he)
        refine .aside (Table.get_remove_of_ne _ hne) (triedOn_other fun cursor event content h => ?_)
        rw [hsel] at h
        cases h
      | @attempted id' cursor event content _ hsel hok heff =>
        by_cases hid : id' = id
        · subst hid
          exact .attempted rfl hsel hok heff
        · have hnone : triedOn crypto env s id (.trial now) = [] := by
            refine triedOn_other fun cursor event content h => ?_
            rw [hsel] at h
            cases h
            exact hid rfl
          refine .aside ?_ hnone
          cases heff with
          | opened hbody hdm => exact Table.get_remove_of_ne _ (Ne.symm hid)
          | exhausted hfail hend => exact Table.get_remove_of_ne _ (Ne.symm hid)
          | advanced hfail => exact Table.get_insert_of_ne _ _ (Ne.symm hid)
    · have hne : ∀ now, o ≠ .trial now := fun now hnow => htrial ⟨now, hnow⟩
      obtain ⟨hmoved, -⟩ := mailStep_other hcf hf hs hD hne hstep
      have hnone : triedOn crypto env s id o = [] := by
        cases o with
        | trial now => exact absurd rfl (hne now)
        | db op => rfl
        | history op => rfl
        | maintain now drawn => rfl
        | reenroll deviceId => rfl
        | expireKeys now => rfl
        | stash pending => rfl
      rcases hmoved id with hsame | ⟨hold, -, -⟩
      · exact .aside hsame hnone
      · rw [hc] at hold
        cases hold

/-- What does not wait, and has arrived, will not wait. -/
theorem queue_none (hcf : CollisionFree D) (hf : FramesBounded) (hs : MailSound D s) (hp : ProcessedAt s.db.ev id)
    {o : MailOp} (hD : ∀ v ∈ o.delivered, v ∈ D) (hnone : (queueOf s.db.proj).get id = none) :
    (queueOf (commit (mailStep crypto env s o) s).db.proj).get id = none := by
  cases hstep : mailStep crypto env s o with
  | error e => exact hnone
  | ok s' =>
    rw [commit_ok]
    by_cases htrial : ∃ now, o = .trial now
    · obtain ⟨now, rfl⟩ := htrial
      exact (mailStep_trial hstep).frame.2 id hnone
    · obtain ⟨hmoved, -⟩ := mailStep_other hcf hf hs hD (fun now hnow => htrial ⟨now, hnow⟩) hstep
      rcases hmoved id with hsame | ⟨-, -, habsent⟩
      · exact hsame.trans hnone
      · exact absurd habsent hp.not_absent

/-- The next batch continues the sweep. -/
theorem ahead_run (s : Mailbox) (ops : List MailOp) (cursor : Option EpochKey) :
    Sweep.Ahead (keptKeys crypto env s ops) cursor
      ((epochsBehind (run (mailStep crypto env) s ops).epochs cursor).map (·.1)) := by
  refine epochsBehind_ahead (fun key hkey => ?_) _
  exact hkey ops (List.prefix_refl ops)

theorem trials_keys {now : ℕ} {s' : Mailbox} {cursor : Option EpochKey} {event : Event} {content : Bytes}
    (hsel : selectTrial crypto (run (mailStep crypto env) s ops) now = .ok (.attempt id cursor event content))
    (hok : attemptTx crypto env (run (mailStep crypto env) s ops) now id cursor event content = .ok s') :
    (trials crypto env id s (ops ++ [.trial now])).map (·.key) = (trials crypto env id s ops).map (·.key) ++
      ((epochsBehind (run (mailStep crypto env) s ops).epochs cursor).map (·.1)).take MAX_TRIAL_KEYS := by
  rw [trials_snoc, triedOn_attempt hsel hok, List.map_append, List.map_map, trialBatch, ← List.map_take]
  rfl

/-- Records of a batch that failed. -/
theorem Tried.failed_batch (hbatch : BatchLaw crypto) {c : Option (Bytes × Bytes)} (h : Tried crypto env s id ops c)
    {now : ℕ} {s' : Mailbox} {cursor : Option EpochKey} {event : Event} {content : Bytes}
    (hsel : selectTrial crypto (run (mailStep crypto env) s ops) now = .ok (.attempt id cursor event content))
    (hok : attemptTx crypto env (run (mailStep crypto env) s ops) now id cursor event content = .ok s')
    (hfail : Unopened crypto env (run (mailStep crypto env) s ops) cursor event content) :
    ∀ r ∈ trials crypto env id s (ops ++ [.trial now]), r.Failed crypto env := by
  intro r hr
  rw [trials_snoc, triedOn_attempt hsel hok] at hr
  rcases List.mem_append.mp hr with hr | hr
  · exact h.failed r hr
  · obtain ⟨row, hrow, rfl⟩ := List.mem_map.mp hr
    exact hfail.failed hbatch hrow

omit [Primitives] in
/-- The cursor is stored without its order. -/
theorem map_toLex_ofLex (c : Option EpochKey) : (c.map ofLex).map toLex = c := by
  cases c with
  | none => rfl
  | some key => rfl

/-- **One transaction.** A turn of the message is appended to the record of its trials; any other transaction
leaves the record and the row as they are. -/
theorem Followed.step (hcf : CollisionFree D) (hf : FramesBounded) (hsigned : SignedMail crypto D)
    (hbatch : BatchLaw crypto) (hs : MailSound D (run (mailStep crypto env) s ops))
    (hp : ProcessedAt (run (mailStep crypto env) s ops).db.ev id) {o : MailOp} (hD : ∀ v ∈ o.delivered, v ∈ D)
    (h : Followed crypto env s id ops) : Followed crypto env s id (ops ++ [o]) := by
  rcases h with hnone | ⟨c, htried⟩
  · left
    rw [mailRun_snoc]
    exact queue_none hcf hf hs hp hD hnone
  · have hturn : Turn crypto env (run (mailStep crypto env) s ops) id o (run (mailStep crypto env) s (ops ++ [o])) := by
      rw [mailRun_snoc]
      exact turn hcf hf hsigned hs hp hD htried.queued
    cases hturn with
    | aside hq hnone => exact .inr ⟨c, htried.aside hq hnone⟩
    | @attempted now cursor event content ho hsel hok heff =>
      subst ho
      obtain ⟨c', hc', rfl⟩ := selectTrial_queued hsel
      obtain rfl : c' = c := Option.some.inj (hc'.symm.trans htried.queued)
      generalize hafter : run (mailStep crypto env) s (ops ++ [.trial now]) = s' at heff hok
      cases heff with
      | opened hbody hdm =>
        left
        rw [hafter]
        exact Table.get_remove_self ..
      | exhausted hfail hend =>
        left
        rw [hafter]
        exact Table.get_remove_self ..
      | advanced hfail =>
        refine .inr ⟨_, by rw [hafter]; exact Table.get_insert_self .., ?_,
          htried.failed_batch hbatch hsel hok hfail⟩
        rw [trials_keys hsel hok, map_toLex_ofLex, trialBatch, List.map_take]
        exact (htried.swept.batch (ahead_run s ops _) MAX_TRIAL_KEYS).shrink (keptKeys_snoc s ops (.trial now))

/-- **A run**, from any state in which the message waits. That it stays processed is a hypothesis, since a deletion
or a release may end it at any time. -/
theorem Followed.run (hcf : CollisionFree D) (hf : FramesBounded) (hsigned : SignedMail crypto D)
    (hbatch : BatchLaw crypto) (hs : MailSound D s) (hstart : Followed crypto env s id []) :
    ∀ ops : List MailOp, MailedFrom D ops → StaysProcessed crypto env s ops id → Followed crypto env s id ops := by
  intro ops
  induction ops using List.reverseRecOn with
  | nil => exact fun _ _ => hstart
  | append_singleton ops o ih =>
    intro hD hp
    have hDops : MailedFrom D ops := fun o ho => hD o (List.mem_append_left _ ho)
    have hpops : StaysProcessed crypto env s ops id :=
      fun before hbefore => hp before (hbefore.trans (List.prefix_append _ _))
    exact (ih hDops hpops).step hcf hf hsigned hbatch (mailSound_run hcf hf hs hDops)
      (hpops ops (List.prefix_refl ops)) (hD o (List.mem_append_right _ List.mem_cons_self))

/-- A row appears without a cursor. -/
theorem queue_arrival (hcf : CollisionFree D) (hf : FramesBounded) (hs : MailSound D s) {o : MailOp}
    (hD : ∀ v ∈ o.delivered, v ∈ D) (hold : (queueOf s.db.proj).get id = none)
    (hnew : (queueOf (commit (mailStep crypto env s o) s).db.proj).get id ≠ none) :
    (queueOf (commit (mailStep crypto env s o) s).db.proj).get id = some none := by
  cases hstep : mailStep crypto env s o with
  | error e =>
    rw [hstep] at hnew
    exact absurd hold hnew
  | ok s' =>
    rw [hstep, commit_ok] at hnew
    rw [commit_ok]
    by_cases htrial : ∃ now, o = .trial now
    · obtain ⟨now, rfl⟩ := htrial
      exact absurd ((mailStep_trial hstep).frame.2 id hold) hnew
    · obtain ⟨hmoved, -⟩ := mailStep_other hcf hf hs hD (fun now hnow => htrial ⟨now, hnow⟩) hstep
      rcases hmoved id with hsame | ⟨-, hsome, -⟩
      · exact absurd (hsame.trans hold) hnew
      · exact hsome

/-! ## 6. What is assumed of the parameters

A frame that is accepted is bounded, which is proved of the model of `validate_frame`; and a file that is encrypted
to several recipients opens for whoever has one of their identities. -/

omit [Primitives] in
/-- An accepted frame is no longer than the largest bucket allows. -/
theorem validateFrame_length {engine : Dm.Base64} {frame file : Bytes}
    (h : Dm.validateFrame engine frame = .ok file) : frame.length ≤ MAX_FRAME_BYTES := by
  obtain ⟨bucket, hbucket, h⟩ := bind_eq_ok.mp h
  obtain ⟨_, hlisted, -⟩ := bind_eq_ok.mp h
  have hover := Dm.okOrInvalid_eq_ok.mp hbucket
  split at hover
  · next hle =>
    obtain rfl := Option.some.inj hover
    have hlargest : ∀ b ∈ Dm.TEXT_BUCKETS, b ≤ 16384 := by decide
    have hlisted : frame.length - Dm.FRAME_OVERHEAD ∈ Dm.TEXT_BUCKETS := by
      have := Dm.rejectIf_eq_ok.mp hlisted
      rwa [Bool.not_eq_true', Bool.not_eq_false, List.contains_iff_mem] at this
    have hbound := hlargest _ hlisted
    calc frame.length ≤ Dm.FRAME_OVERHEAD + 16384 := by omega
      _ = MAX_FRAME_BYTES := rfl
  · cases hover

/-- The bound holds of `validate_frame` as it is modelled. -/
theorem framesBounded {engine : Dm.Base64}
    (h : ∀ b, Primitives.validateFrame b = true → ∃ file, Dm.validateFrame engine b = .ok file) : FramesBounded := by
  intro b hb
  obtain ⟨file, hfile⟩ := h b hb
  exact validateFrame_length hfile

/-- An age file opens for some identities exactly if it does for one of them, and with the same plaintext. -/
def OpenLaw (openFile : Bytes → List Text → Option Bytes) : Prop :=
  ∀ file identities plaintext, openFile file identities = some plaintext ↔
    ∃ i ∈ identities, openFile file [i] = some plaintext

omit [Primitives] in
/-- The law of batches is the law of age files. -/
theorem batchLaw_ofAge {openFile : Bytes → List Text → Option Bytes} (hopen : OpenLaw openFile) (engine : Dm.Base64)
    (publicKeyOf : Text → Option Bytes) (verifySigned : Event → Bool) :
    BatchLaw (Crypto.ofAge engine openFile publicKeyOf verifySigned) := by
  have hsome : ∀ {frame identities author account}, identities ≠ [] → identities.length ≤ MAX_TRIAL_KEYS →
      ((decryptWith engine openFile frame identities author account).toOption.isSome ↔
        ∃ file plaintext body, Dm.validateFrame engine frame = .ok file ∧
          openFile file identities = some plaintext ∧
          plaintext.length = Dm.BODY_METADATA_BYTES + (frame.length - Dm.FRAME_OVERHEAD) ∧
          Dm.MessageBody.decode plaintext (frame.length - Dm.FRAME_OVERHEAD) = .ok body ∧
          ¬(body.sender ≠ author ∨ (body.sender ≠ account ∧ body.recipient ≠ account))) := by
    intro frame identities author account hne hlength
    have hok : ∀ {m : Except Dm.Stop Dm.MessageBody}, m.toOption.isSome ↔ ∃ body, m = .ok body := by
      intro m
      cases m with
      | error e => simp [Except.toOption]
      | ok body => simp [Except.toOption]
    rw [hok]
    unfold decryptWith
    have hroom : ¬(identities = [] ∨ MAX_TRIAL_KEYS < identities.length) := by
      rintro (hnil | hlong)
      · exact hne hnil
      · omega
    simp only [bind_eq_ok, Dm.rejectIf_eq_ok, Dm.okOrInvalid_eq_ok, not_not]
    constructor
    · rintro ⟨body, _, -, file, hfile, plaintext, hplaintext, _, hsize, body', hbody, _, hparties, heq⟩
      exact ⟨file, plaintext, body', hfile, hplaintext, by simpa using hsize, hbody, hparties⟩
    · rintro ⟨file, plaintext, body, hfile, hplaintext, hsize, hbody, hparties⟩
      exact ⟨body, (), hroom, file, hfile, plaintext, hplaintext, (), by simpa using hsize, body, hbody, (), hparties,
        rfl⟩
  intro frame identities author account hne hlength
  refine (hsome hne hlength).trans ?_
  constructor
  · rintro ⟨file, plaintext, body, hfile, hplaintext, hrest⟩
    obtain ⟨i, hi, hone⟩ := (hopen file identities plaintext).mp hplaintext
    exact ⟨i, hi, (hsome (List.cons_ne_nil _ _) (by simp [MAX_TRIAL_KEYS])).mpr
      ⟨file, plaintext, body, hfile, hone, hrest⟩⟩
  · rintro ⟨i, hi, hone⟩
    obtain ⟨file, plaintext, body, hfile, hplaintext, hrest⟩ :=
      (hsome (List.cons_ne_nil _ _) (by simp [MAX_TRIAL_KEYS])).mp hone
    exact ⟨file, plaintext, body, hfile, (hopen file identities plaintext).mpr ⟨i, hi, hplaintext⟩, hrest⟩

/-! ## 7. The result

The message leaves the queue because it was opened, or because it was tried with every lasting key. In the first
case its body is in the history, unless its identifier was taken before. -/

/-- What the history holds after a body was stored: the body, unless its identifier was taken. -/
def Filed (t t' : Dm.DmTables) (body : Dm.MessageBody) (id : ShortEventId) (timestamp : Timestamp) : Prop :=
  match t.history.get body.key with
  | none => t'.history.get body.key =
      some ⟨body.sender, body.recipient, body.messageId, body.text, id, timestamp, false⟩
  | some previous =>
    if previous.recipient = body.recipient ∧ previous.text = body.text then
      t'.history.get body.key = some previous
    else t'.history.get body.key = some { previous with conflicted := true }

omit [Primitives] in
theorem dmStoreHistoryTx_filed {t t' : Dm.DmTables} {body : Dm.MessageBody} {timestamp : Timestamp}
    (h : Dm.dmStoreHistoryTx t body id timestamp = .ok t') : Filed t t' body id timestamp := by
  unfold Dm.dmStoreHistoryTx at h
  unfold Filed
  split at h
  · next previous hprevious =>
    rw [hprevious]
    dsimp only
    split at h
    · next hdiff =>
      cases h
      rw [if_neg (by tauto)]
      exact Table.get_insert_self ..
    · next hsame =>
      cases h
      rw [not_or, not_not, not_not] at hsame
      rw [if_pos hsame]
      exact hprevious
  · next hnone =>
    rw [hnone]
    dsimp only
    split at h
    · cases h
    dsimp only at h
    split at h
    · obtain ⟨sequence, -, h⟩ := bind_eq_ok.mp h
      obtain ⟨counts, -, h⟩ := bind_eq_ok.mp h
      cases h
      exact Table.get_insert_self ..
    · cases h
      exact Table.get_insert_self ..

variable (crypto env)

/-- A trial succeeded, and its body went into the history. -/
def Opened (s s' : Mailbox) (id : ShortEventId) (now : ℕ) : Prop :=
  ∃ cursor event content body, selectTrial crypto s now = .ok (.attempt id cursor event content) ∧
    crypto.decrypt content (secretsOf (trialBatch s.epochs cursor)) event.author env.selfId = some body ∧
      Filed s.dm s'.dm body id event.timestamp

/-- Every key that was there all the time was tried once, no key was tried twice, and none opens the message. -/
structure Exhausted (s : Mailbox) (id : ShortEventId) (during : List MailOp) (now : ℕ) : Prop where
  all : ∀ key ∈ keptKeys crypto env s during,
    ((trials crypto env id s (during ++ [.trial now])).map (·.key)).count key = 1
  once : ((trials crypto env id s (during ++ [.trial now])).map (·.key)).Nodup
  failed : ∀ r ∈ trials crypto env id s (during ++ [.trial now]), r.Failed crypto env

/-- A batch is small, and no key of it has expired. -/
def Bounded (s : Mailbox) (now : ℕ) : Prop :=
  ∀ id cursor event content, selectTrial crypto s now = .ok (.attempt id cursor event content) →
    (trialBatch s.epochs cursor).length ≤ 8 ∧
      ∀ row ∈ trialBatch s.epochs cursor, now < row.2.publicPart.decryptUntil

variable {crypto env}

theorem bounded (s : Mailbox) (now : ℕ) : Bounded crypto s now := by
  intro id cursor event content hsel
  refine ⟨List.length_take_le _ _, fun row hrow => ?_⟩
  obtain ⟨hrow, -⟩ := mem_epochsBehind.mp (List.mem_of_mem_take hrow)
  by_contra hexpired
  have hall : row ∈ epochsBehind s.epochs none := mem_epochsBehind.mpr ⟨hrow, rfl⟩
  have hmem : row.1 ∈ expiredEpochs s.epochs now :=
    List.mem_map_of_mem (List.mem_filter.mpr ⟨hall, decide_eq_true (not_lt.mp hexpired)⟩)
  rw [(selectTrial_attempt hsel).1] at hmem
  cases hmem

/-- The removal of a message that was followed. -/
theorem Tried.removed (hcf : CollisionFree D) (hf : FramesBounded) (hsigned : SignedMail crypto D)
    (hbatch : BatchLaw crypto) (hs : MailSound D (Outcome.run (mailStep crypto env) s ops))
    (hp : ProcessedAt (Outcome.run (mailStep crypto env) s ops).db.ev id) {o : MailOp}
    (hD : ∀ v ∈ o.delivered, v ∈ D) {c : Option (Bytes × Bytes)} (h : Tried crypto env s id ops c)
    (hgone : (queueOf (Outcome.run (mailStep crypto env) s (ops ++ [o])).db.proj).get id = none) :
    ∃ now, o = .trial now ∧ (Opened crypto env (Outcome.run (mailStep crypto env) s ops)
      (Outcome.run (mailStep crypto env) s (ops ++ [o])) id now ∨ Exhausted crypto env s id ops now) := by
  have hturn : Turn crypto env (Outcome.run (mailStep crypto env) s ops) id o
      (Outcome.run (mailStep crypto env) s (ops ++ [o])) := by
    rw [mailRun_snoc]
    exact turn hcf hf hsigned hs hp hD h.queued
  cases hturn with
  | aside hq hnone =>
    rw [hgone, h.queued] at hq
    cases hq
  | @attempted now cursor event content ho hsel hok heff =>
    subst ho
    refine ⟨now, rfl, ?_⟩
    generalize hafter : Outcome.run (mailStep crypto env) s (ops ++ [.trial now]) = s' at heff hok hgone
    obtain ⟨c', hc', rfl⟩ := selectTrial_queued hsel
    obtain rfl : c' = c := Option.some.inj (hc'.symm.trans h.queued)
    cases heff with
    | opened hbody hdm => exact .inl ⟨_, event, content, _, hsel, hbody, dmStoreHistoryTx_filed hdm⟩
    | exhausted hfail hend =>
      have hdrop : ((epochsBehind (Outcome.run (mailStep crypto env) s ops).epochs (c'.map toLex)).map
          (·.1)).drop MAX_TRIAL_KEYS = [] := by
        rw [← List.map_drop, hend, List.map_nil]
      have honce : ((trials crypto env id s (ops ++ [.trial now])).map (·.key)).Nodup := by
        rw [trials_keys hsel hok]
        exact h.swept.once_batch (ahead_run s ops _) MAX_TRIAL_KEYS
      refine .inr ⟨fun key hkey => List.count_eq_one_of_mem honce ?_, honce,
        h.failed_batch hbatch hsel hok hfail⟩
      rw [trials_keys hsel hok]
      exact h.swept.exhausted (ahead_run s ops _) hdrop key hkey
    | advanced hfail =>
      change (Table.insert _ id _).get id = none at hgone
      rw [Table.get_insert_self] at hgone
      cases hgone

/-- **Trial decryption is exhaustive.**  In any run, from the transaction that queues a message to the one that
takes it off the queue, with its content processed all the time: the last one is a trial, and either a key opened
the message and its body went into the history, or every key that was there from the arrival on was tried on it
exactly once.  A batch has at most eight keys, and none of them has expired. -/
theorem trials_exhaustive (hcf : CollisionFree D) (hf : FramesBounded) (hsigned : SignedMail crypto D)
    (hbatch : BatchLaw crypto) (ops : List MailOp) (hD : MailedFrom D ops) :
    (∀ before o during o' after id, ops = before ++ o :: (during ++ o' :: after) →
      (queueOf (mailReached crypto env before).db.proj).get id = none →
      (queueOf (mailReached crypto env (before ++ [o])).db.proj).get id ≠ none →
      StaysProcessed crypto env (mailReached crypto env (before ++ [o])) during id →
      (queueOf (mailReached crypto env (before ++ o :: during)).db.proj).get id ≠ none →
      (queueOf (mailReached crypto env (before ++ o :: (during ++ [o']))).db.proj).get id = none →
      ∃ now, o' = .trial now ∧
        (Opened crypto env (mailReached crypto env (before ++ o :: during))
            (mailReached crypto env (before ++ o :: (during ++ [o']))) id now ∨
          Exhausted crypto env (mailReached crypto env (before ++ [o])) id during now)) ∧
      ∀ before now after, ops = before ++ .trial now :: after →
        Bounded crypto (mailReached crypto env before) now := by
  refine ⟨?_, fun before now after _ => bounded _ now⟩
  rintro before o during o' after id rfl hold hnew hp hwaits hgone
  have hDbefore : MailedFrom D before := fun o ho => hD o (List.mem_append_left _ ho)
  have hDo : ∀ v ∈ o.delivered, v ∈ D := hD o (List.mem_append_right _ List.mem_cons_self)
  have hDduring : MailedFrom D during := fun o ho =>
    hD o (List.mem_append_right _ (List.mem_cons_of_mem _ (List.mem_append_left _ ho)))
  have hDo' : ∀ v ∈ o'.delivered, v ∈ D :=
    hD o' (List.mem_append_right _ (List.mem_cons_of_mem _ (List.mem_append_right _ List.mem_cons_self)))
  have hs : MailSound D (mailReached crypto env before) := mailSound_run hcf hf (mailSound_start D _) hDbefore
  have hsplit : ∀ ops', mailReached crypto env (before ++ o :: ops') =
      Outcome.run (mailStep crypto env) (mailReached crypto env (before ++ [o])) ops' := by
    intro ops'
    unfold mailReached
    rw [← run_append, List.append_assoc, List.singleton_append]
  have hfirst : mailReached crypto env (before ++ [o]) =
      commit (mailStep crypto env (mailReached crypto env before) o) (mailReached crypto env before) :=
    mailRun_snoc _ before o
  have hs₁ : MailSound D (mailReached crypto env (before ++ [o])) := by
    rw [hfirst]
    exact commit_invariant hs fun s' hok => mailStep_sound hcf hf hs hDo hok
  have harrival : (queueOf (mailReached crypto env (before ++ [o])).db.proj).get id = some none := by
    rw [hfirst] at hnew ⊢
    exact queue_arrival hcf hf hs hDo hold hnew
  have hstart : Followed crypto env (mailReached crypto env (before ++ [o])) id [] :=
    .inr ⟨none, harrival, Sweep.Swept.start _, by simp [trials]⟩
  have hfollowed := hstart.run hcf hf hsigned hbatch hs₁ during hDduring hp
  rw [hsplit during] at hwaits ⊢
  rw [hsplit (during ++ [o'])] at hgone ⊢
  rcases hfollowed with hnone | ⟨c, htried⟩
  · exact absurd hnone hwaits
  · exact htried.removed hcf hf hsigned hbatch (mailSound_run hcf hf hs₁ hDduring)
      (hp during (List.prefix_refl during)) hDo' hgone

end Trials

end Mail

/-! ## 8. Two bodies under one identifier

Nine keys of two installations, and two messages of one sender with the same message identifier. -/

section Conflict

/-- A hash that is quick to compute, and frames of any shape. -/
@[reducible] def mailPrimitives : Primitives :=
  { Primitives.reference with
    blake3 := fun b => b.foldl (fun h x => h * 257 + x.toNat + 1) 1
    validateFrame := fun b => decide (b.length ≤ MAX_FRAME_BYTES) }

attribute [local instance] mailPrimitives

def samplePeer : RostraId := toLex (1, 1)

def sampleBody (text : Text) : Dm.MessageBody := ⟨samplePeer, sampleEnv.selfId, 7, text⟩

/-- One key opens both messages. -/
def sampleCrypto : Crypto where
  publicKeyOf secret := some (secret.map fun c => c.toNat.toUInt8)
  decrypt frame identities _ _ :=
    if ['A'] ∈ identities then
      match frame with
      | [1] => some (sampleBody ['y'])
      | [2] => some (sampleBody ['n'])
      | _ => none
    else none
  verifySigned _ := true

def mailHeader (kind : EventKind) (author : RostraId) (timestamp : ℕ) (content : Bytes) : Event :=
  { kind := kind, contentLen := content.length, timestamp := timestamp, author := author
    contentHash := blake3 content }

def sampleInstallation (n : ℕ) : Bytes := List.replicate 16 n.toUInt8

def sampleRetirement : VerifiedEventContent :=
  ⟨⟨.ofEvent (mailHeader EventKind.DM_DEVICE sampleEnv.selfId 1 (1 :: 0 :: sampleInstallation 1)),
    some (1 :: 0 :: sampleInstallation 1)⟩, by decide⟩

def sampleMessage : VerifiedEventContent :=
  ⟨⟨.ofEvent (mailHeader EventKind.DIRECT_MESSAGE samplePeer 21 [1]), some [1]⟩, by decide⟩

def otherMessage : VerifiedEventContent :=
  ⟨⟨.ofEvent (mailHeader EventKind.DIRECT_MESSAGE samplePeer 22 [2]), some [2]⟩, by decide⟩

/-- Maintenance at the beginning of a week draws a key. -/
def maintainWeek (installation key weeks : ℕ) : MailOp :=
  .maintain (weeks * DM_KEY_SEND_WINDOW) ⟨sampleInstallation installation, [key.toUInt8], [Char.ofNat key]⟩

/-- The clock goes back to the first week with the second installation. -/
def setupMail : List MailOp :=
  [maintainWeek 1 65 0, maintainWeek 1 66 1, maintainWeek 1 67 2, maintainWeek 1 68 3, maintainWeek 1 69 4,
    .db (.ingest [.payload sampleRetirement 5 {}]), .reenroll (sampleInstallation 2),
    maintainWeek 2 75 0, maintainWeek 2 76 1, maintainWeek 2 77 2, maintainWeek 2 78 3,
    .db (.ingest [.payload sampleMessage 5 {}])]

def otherArrival : MailOp := .db (.ingest [.payload otherMessage 5 {}])

/-- The key that the first batch does not reach. -/
def ninthKey : EpochKey := toLex (sampleInstallation 2, [78])

/-- **The second body is not stored.**  Its message is removed after a trial, with a key left that was there all
the time and was not tried; the history has no row with its text. -/
theorem trials_conflicted :
    let s₁ := mailReached sampleCrypto sampleEnv (setupMail ++ [otherArrival])
    let s₂ := mailReached sampleCrypto sampleEnv (setupMail ++ [otherArrival, .trial 0])
    let s₃ := mailReached sampleCrypto sampleEnv (setupMail ++ [otherArrival, .trial 0, .trial 0])
    (queueOf (mailReached sampleCrypto sampleEnv setupMail).db.proj).get 22 = none ∧
      (queueOf s₁.db.proj).get 22 = some none ∧ (queueOf s₂.db.proj).get 22 = some none ∧
      (queueOf s₃.db.proj).get 22 = none ∧
      (∀ s ∈ [s₁, s₂, s₃], (s.db.ev.events.get 22).isSome ∧ contentClass s.db.ev 22 = .current ∧
        ninthKey ∈ s.epochs.keys) ∧
      ninthKey ∉ (trials sampleCrypto sampleEnv 22 s₁ [.trial 0, .trial 0]).map (·.key) ∧
      (sampleCrypto.decrypt [2] (secretsOf (trialBatch s₂.epochs none)) samplePeer sampleEnv.selfId).map
        (fun body => (body.key, body.text)) = some ((sampleBody ['n']).key, ['n']) ∧
      ∀ key ∈ s₃.dm.history.keys, (s₃.dm.history.get key).map (·.text) ≠ some ['n'] := by
  exact ⟨by decide +kernel, by decide +kernel, by decide +kernel, by decide +kernel, by decide +kernel,
    by decide +kernel, by decide +kernel, by decide +kernel⟩

theorem sampleCrypto_batchLaw : BatchLaw sampleCrypto := by
  intro frame identities author account _ _
  show (ite _ _ _ : Option _).isSome ↔ ∃ i ∈ identities, (ite _ _ _ : Option _).isSome
  by_cases hkey : ['A'] ∈ identities
  · rw [if_pos hkey]
    constructor
    · exact fun h => ⟨['A'], hkey, by rwa [if_pos List.mem_cons_self]⟩
    · rintro ⟨i, -, h⟩
      split at h
      · exact h
      · cases h
  · rw [if_neg hkey]
    constructor
    · exact fun h => by cases h
    · rintro ⟨i, hi, h⟩
      have hne : ['A'] ∉ [i] := by
        rw [List.mem_singleton]
        rintro rfl
        exact hkey hi
      rw [if_neg hne] at h
      cases h

/-- The three envelopes of the run. -/
def sampleMail : List VerifiedEvent := [sampleRetirement.event, sampleMessage.event, otherMessage.event]

theorem sampleMail_collisionFree : CollisionFree {v | v ∈ sampleMail} := by
  have hall : ∀ v ∈ sampleMail, ∀ w ∈ sampleMail, v.id = w.id → v = w := by decide
  exact fun v hv w hw => hall v hv w hw

theorem sampleMail_mailedFrom :
    MailedFrom {v | v ∈ sampleMail} (setupMail ++ otherArrival :: ([.trial 0] ++ .trial 0 :: [])) := by
  have hall : ∀ v ∈ (setupMail ++ otherArrival :: ([.trial 0] ++ .trial 0 :: [])).flatMap MailOp.delivered,
      v ∈ sampleMail := by decide +kernel
  exact fun o ho v hv => hall v (List.mem_flatMap.mpr ⟨o, ho, hv⟩)

/-- The removal of the second message. -/
theorem trials_exhaustive_sampleMail :
    (queueOf (mailReached sampleCrypto sampleEnv (setupMail ++ otherArrival :: ([.trial 0] ++ [.trial 0]))).db.proj).get
        22 = none ∧
      ∃ now, MailOp.trial 0 = .trial now ∧
        (Opened sampleCrypto sampleEnv (mailReached sampleCrypto sampleEnv (setupMail ++ otherArrival :: [.trial 0]))
            (mailReached sampleCrypto sampleEnv (setupMail ++ otherArrival :: ([.trial 0] ++ [.trial 0]))) 22 now ∨
          Exhausted sampleCrypto sampleEnv (mailReached sampleCrypto sampleEnv (setupMail ++ [otherArrival])) 22
            [.trial 0] now) := by
  refine ⟨by decide +kernel, (@trials_exhaustive _ sampleCrypto sampleEnv _ sampleMail_collisionFree ?_ ?_ sampleCrypto_batchLaw
    _ sampleMail_mailedFrom).1 setupMail otherArrival [.trial 0] (.trial 0) [] 22 rfl (by decide +kernel)
    (by decide +kernel) ?_ (by decide +kernel) (by decide +kernel)⟩
  · exact fun b hb => of_decide_eq_true hb
  · exact fun v _ => rfl
  · have hall : ∀ before ∈ [[], [MailOp.trial 0]],
        ((run (mailStep sampleCrypto sampleEnv)
          (mailReached sampleCrypto sampleEnv (setupMail ++ [otherArrival])) before).db.ev.events.get 22).isSome ∧
        contentClass (run (mailStep sampleCrypto sampleEnv)
          (mailReached sampleCrypto sampleEnv (setupMail ++ [otherArrival])) before).db.ev 22 = .current := by
      decide +kernel
    intro before hbefore
    rcases List.prefix_cons_iff.mp hbefore with rfl | ⟨rest, rfl, hrest⟩
    · exact hall [] List.mem_cons_self
    · rw [List.prefix_nil.mp hrest]
      exact hall [.trial 0] (List.mem_cons_of_mem _ List.mem_cons_self)

end Conflict

end Rostra.Db
