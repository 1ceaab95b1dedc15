/-
# Where content ends up

The content state of an event as a function of what was delivered: the set of envelopes and the set
of payloads, however they were ordered, repeated and split into transactions.

* `readsAs` says when a payload is what its kind says.  Processing finds a payload invalid exactly
  when it does not (`processEventContentInsertedTx_invalid_iff`), whatever is in the tables.
* `Fated P v k` is the class `k` that content which nobody deleted must have.  One delivery keeps it
  (`tracks_chronicle`), and so does a run.
* Deletion is the graph's business: `Canonical` already says that a state is `Deleted` exactly when
  a direct deleter of the same author is stored, with the greatest one as its attribution.

Content of length `0` needs no payload and is never `Missing`.

This is a statement about what was committed. A delivery that fails leaves no trace, and then it is as if it had
not been made; under which conditions none fails is the subject of `Proofs/Commits`.
-/
import Rostra.Proofs.History
import Rostra.Proofs.Insertions
import Rostra.Proofs.Progress

namespace Rostra.Db

open Rostra Outcome

section Lifecycle

variable [Primitives]

/-! ## 1. Valid payloads

A payload is judged by its reducer. The reducers also read tables, and may fail because of what they find there,
but that is another error. -/

/-- Does a direct-message payload have the shape of its kind? -/
def readsAsDm (c : EventContent) : Bool :=
  !(c.event.event.isSingleton || c.event.event.keyAux != 0) &&
    match c.content with
    | none => false
    | some bytes =>
      if c.event.event.kind = EventKind.DM_DEVICE then
        (Dm.Announcement.decode bytes c.event.event.timestamp).isSome
      else Primitives.validateFrame bytes

/-- Is the payload what its kind says?  Nothing but the payload and its header is looked at. -/
def readsAs (c : EventContent) : Bool :=
  let kind := c.event.event.kind
  if kind = EventKind.DM_DEVICE ∨ kind = EventKind.DIRECT_MESSAGE then readsAsDm c
  else if kind = EventKind.FOLLOW ∨ kind = EventKind.UNFOLLOW then c.follow?.isSome
  else if kind = EventKind.NODE_ANNOUNCEMENT then c.nodeAnnouncement?.isSome
  else if kind = EventKind.SOCIAL_PROFILE_UPDATE then c.socialProfileUpdate?.isSome
  else if kind = EventKind.SOCIAL_POST then c.socialPost?.isSome
  else if kind = EventKind.SOCIAL_VOTE then c.socialVote?.isSome
  else if kind = EventKind.SHOUTBOX then c.shoutbox?.isSome
  else true

omit [Primitives] in
/-- A reducer that decodes first is invalid exactly when the decoder fails. -/
theorem decodeOr_bind_invalid {α β : Type} {o : Option α} {f : α → ProcessEventResult β}
    (hf : ∀ a, f a ≠ .error .invalid) :
    (decodeOr o >>= f) = .error .invalid ↔ o.isSome = false := by
  cases o with
  | none => exact ⟨fun _ => rfl, fun _ => rfl⟩
  | some a => exact ⟨fun h => absurd h (hf a), fun h => by cases h⟩

omit [Primitives] in
theorem liftDb_bind_ne_invalid {α β : Type} {m : DbResult α} {f : α → ProcessEventResult β}
    (hf : ∀ a, f a ≠ .error .invalid) : (liftDb m >>= f) ≠ .error .invalid := by
  cases m with
  | ok a => exact hf a
  | error e =>
    intro h
    cases h

theorem processDmTx_invalid_iff (env : Env) (p : Projections) (c : EventContent) :
    processDmTx env p c = .error .invalid ↔ readsAsDm c = false := by
  unfold processDmTx readsAsDm
  dsimp only
  split
  · next h => simp [h]
  next h =>
  rw [Bool.not_eq_true] at h
  cases hb : c.content with
  | none => simp [decodeOr, h, bind, Except.bind]
  | some bytes =>
    simp only [h, Bool.not_false, Bool.true_and]
    show (if c.event.event.kind = EventKind.DM_DEVICE then _ else _) = _ ↔ _
    split
    · exact decodeOr_bind_invalid fun a h => by cases h
    · split
      · next hf => simp [hf, pure, Except.pure]
      · next hf => simp [hf]

theorem processKindTx_invalid_iff (env : Env) (ctx : TxCtx) (p : Projections) (c : EventContent)
    (now : Timestamp) : processKindTx env ctx p c now = .error .invalid ↔ readsAs c = false := by
  have hpure : ∀ r : Projections × Option EventSingletonRecord,
      (pure r : Reduced) ≠ .error .invalid := fun r h => by cases h
  unfold processKindTx readsAs
  dsimp only
  split
  · exact processDmTx_invalid_iff env p c
  split
  · exact decodeOr_bind_invalid fun _ => hpure _
  split
  · exact decodeOr_bind_invalid fun _ => hpure _
  split
  · exact decodeOr_bind_invalid fun _ => hpure _
  split
  · refine decodeOr_bind_invalid fun post => ?_
    split
    · exact hpure _
    · exact liftDb_bind_ne_invalid fun _ => hpure _
  split
  · refine decodeOr_bind_invalid fun vote => ?_
    split
    · exact hpure _
    · exact liftDb_bind_ne_invalid fun _ => hpure _
  split
  · exact decodeOr_bind_invalid fun _ => liftDb_bind_ne_invalid fun _ => hpure _
  · exact ⟨fun h => absurd h (hpure _), fun h => by cases h⟩

/-- **Validity is decided by the payload alone.** A reducer may also fail with an error of the database, and that
is not counted here. -/
theorem processEventContentInsertedTx_invalid_iff (env : Env) (ctx : TxCtx) (p : Projections)
    (c : EventContent) (now : Timestamp) :
    processEventContentInsertedTx env ctx p c now = .error .invalid ↔ readsAs c = false := by
  rw [← processKindTx_invalid_iff env ctx p c now]
  unfold processEventContentInsertedTx
  cases hk : processKindTx env ctx p c now with
  | error e => simp [bind, Except.bind]
  | ok r =>
    obtain ⟨p', record⟩ := r
    cases record with
    | none => exact ⟨fun h => (by cases h), fun h => (by cases h)⟩
    | some record => exact ⟨fun h => (by cases h), fun h => (by cases h)⟩

/-! ## 2. The class of content that nobody deleted

There are five classes, and for each of them one condition on the payloads and the declared length. -/

/-- The class that delivered payloads `P` give the content of `v`, unless it is deleted. -/
def Fated (P : Set VerifiedEventContent) (v : VerifiedEvent) : PayloadBucket → Prop
  | .deleted => True
  | .pruned => MAX_CONTENT_LEN ≤ v.event.contentLen
  | .current => v.event.contentLen < MAX_CONTENT_LEN ∧
      (v.event.contentLen = 0 ∨ ∃ c ∈ P, c.event = v ∧ readsAs c.toEventContent = true)
  | .invalid => v.event.contentLen < MAX_CONTENT_LEN ∧ 0 < v.event.contentLen ∧
      ∃ c ∈ P, c.event = v ∧ readsAs c.toEventContent = false
  | .missing => v.event.contentLen < MAX_CONTENT_LEN ∧ 0 < v.event.contentLen ∧
      ¬∃ c ∈ P, c.event = v

/-- Payloads of other events do not matter. -/
theorem Fated.congr {P P' : Set VerifiedEventContent} {v : VerifiedEvent} {k : PayloadBucket}
    (h : Fated P v k) (hP : ∀ c, c.event = v → (c ∈ P ↔ c ∈ P')) : Fated P' v k := by
  cases k with
  | deleted => trivial
  | pruned => exact h
  | current =>
    refine ⟨h.1, h.2.imp_right ?_⟩
    rintro ⟨c, hc, hv, hr⟩
    exact ⟨c, (hP c hv).mp hc, hv, hr⟩
  | invalid =>
    obtain ⟨hlen, hpos, c, hc, hv, hr⟩ := h
    exact ⟨hlen, hpos, c, (hP c hv).mp hc, hv, hr⟩
  | missing =>
    refine ⟨h.1, h.2.1, ?_⟩
    rintro ⟨c, hc, hv⟩
    exact h.2.2 ⟨c, (hP c hv).mpr hc, hv⟩

/-- More payloads change nothing once the content is no longer awaited. -/
theorem Fated.mono {P P' : Set VerifiedEventContent} {v : VerifiedEvent} {k : PayloadBucket}
    (h : Fated P v k) (hP : P ⊆ P') (hk : k ≠ .missing) : Fated P' v k := by
  cases k with
  | deleted => trivial
  | pruned => exact h
  | current =>
    refine ⟨h.1, h.2.imp_right ?_⟩
    rintro ⟨c, hc, hv, hr⟩
    exact ⟨c, hP hc, hv, hr⟩
  | invalid =>
    obtain ⟨hlen, hpos, c, hc, hv, hr⟩ := h
    exact ⟨hlen, hpos, c, hP hc, hv, hr⟩
  | missing => exact absurd rfl hk

/-! ## 3. One delivery

The sets grow by one element. The effect of the delivery says which class the content is moved to, and this is the
one that the larger sets give it. -/

omit [Primitives] in
/-- A move between states other than `Deleted` is not seen by the graph. -/
theorem Canonical.move {t t' : EventTables} {id : ShortEventId} {new : Option EventContentState}
    (h : Canonical t) (hm : Moves t t' id new) (hheads : t'.eventsHeads = t.eventsHeads)
    (hmissing : t'.eventsMissing = t.eventsMissing) (hby : t'.eventsByTime = t.eventsByTime)
    (hold : contentClass t id ≠ .deleted) (hnew : classOf new ≠ .deleted) : Canonical t' := by
  refine h.congr hm.events hheads hmissing hby fun id' d => ?_
  by_cases hid : id' = id
  · rw [hid, hm.self]
    exact ⟨fun hd => absurd (classOf_eq_deleted.mpr ⟨d, hd⟩) hnew,
      fun hd => absurd (classOf_eq_deleted.mpr ⟨d, hd⟩) hold⟩
  · rw [hm.other id' hid]

omit [Primitives] in
theorem PruneEffect.canonical {t t' : EventTables} {id : ShortEventId} (h : PruneEffect t id t')
    (hc : Canonical t) : Canonical t' := by
  cases h with
  | kept _ h =>
    rw [h]
    exact hc
  | pruned href rc u h =>
    subst h
    refine hc.move (moves_insert id .pruned rfl rfl) rfl rfl rfl ?_ (by decide)
    intro hd
    rw [hd] at href
    cases href

/-- **Every transaction keeps the graph canonical.** -/
theorem canonical_keeps {D : Set VerifiedEvent} (hself : ∀ v ∈ D, NoSelfParent v) :
    Keeps D Anything AnythingMid Canonical (fun _ => Canonical) (fun _ => True) where
  insert t v hv _ _ h :=
    (insertEventTx_canonical h (hself v hv)).mono (fun _ h => h) fun _ _ => trivial
  settle t v _ _ _ h :=
    (pruneEventContentTx_effect t v.id v.event).mono (fun _ hr => hr.canonical h) fun _ h => h
  schedule t v _ _ _ _ h := by
    obtain ⟨q, hq⟩ := ensureMissingScheduledTx_effect t v.id
    rw [hq]
    exact h.congr rfl rfl rfl rfl fun _ _ => Iff.rfl
  prune t id e _ _ _ h :=
    (pruneEventContentTx_effect t id e).mono (fun _ hr => hr.canonical h) fun _ h => h
  store t c b _ hm _ _ _ h := by
    refine (storeContentTx_effect _ _ b).mono (fun t' ht' => ?_) fun _ h => h
    obtain ⟨u, rfl⟩ := ht'
    exact h.move (moves_remove c.event.id rfl rfl) rfl rfl rfl
      (by rw [hm]; decide) (by decide)
  reject t c _ hm _ _ h := by
    refine (rejectContentTx_effect _ _).mono (fun t' ht' => ?_) fun _ h => h
    obtain ⟨rc, u, rfl⟩ := ht'
    exact h.move (moves_insert c.event.id .invalid rfl rfl) rfl rfl rfl
      (by rw [hm]; decide) (by decide)
  collect t k _ _ _ h := h.congr rfl rfl rfl rfl fun _ _ => Iff.rfl
  defer t id _ _ h := by
    obtain ⟨q, hq⟩ := ensureMissingScheduledTx_effect t id
    rw [hq]
    exact h.congr rfl rfl rfl rfl fun _ _ => Iff.rfl
  reschedule t id o n u _ _ h := by
    rcases rescheduleTx_effect t id o n u with heq | ⟨_, _, _, _, _, hs, -, -, heq⟩
    · rw [heq]
      exact h
    · rw [heq]
      refine h.move (moves_insert id _ rfl rfl) rfl rfl rfl ?_ (by simp [classOf])
      rw [contentClass, hs]
      simp [classOf]
  peek t _ _ h := by
    obtain ⟨q, hq⟩ := peekLoop_effect (t.eventsContentMissing.card + 1) t
    show Canonical (peekLoop _ _).1
    rw [hq]
    exact h.congr rfl rfl rfl rfl fun _ _ => Iff.rfl
  other _ _ := trivial

/-- **The database after envelopes `S` and payloads `P`**, in some order: these are the stored headers, and every
class is the one that the payloads give. -/
structure Tracks (S : Set VerifiedEvent) (P : Set VerifiedEventContent) (db : Database) : Prop where
  stored : StoredIs S db.ev
  undecided : db.quotaPruned = ∅
  payloads : ∀ c ∈ P, c.event ∈ S
  fated : ∀ v ∈ S, Fated P v (contentClass db.ev v.id)

theorem tracks_empty : Tracks ∅ ∅ {} :=
  ⟨storedIs_empty, rfl, fun _ h => h.elim, fun _ h => h.elim⟩

/-- The first class of a new event that was not deleted in advance. -/
theorem fated_new {P : Set VerifiedEventContent} {t t₁ t' : EventTables} {v : VerifiedEvent}
    {isD : Bool} {dp : Option ShortEventId} {rev : Option Bytes} (hins : Inserted t t₁ v isD dp rev)
    (hnone : t.eventsContentState.get v.id = none) (hfin : Finished False t₁ t' v)
    (hout : MAX_CONTENT_LEN ≤ v.event.contentLen → (contentClass t' v.id).referenced = false)
    (hP : ¬∃ c ∈ P, c.event = v) : Fated P v (contentClass t' v.id) := by
  have hself := hins.state_self
  rcases hfin.state with hst | ⟨-, hlen | h, hst⟩
  · -- nothing was pruned, so oversized content can only be deleted
    rw [contentClass, hst] at hout ⊢
    split at hself
    · obtain ⟨d, hd⟩ := hself
      rw [hd]
      trivial
    · rw [hself] at hout ⊢
      by_cases hpos : 0 < v.event.contentLen
      · rw [if_pos hpos] at hout ⊢
        refine ⟨?_, hpos, hP⟩
        by_contra hlen
        cases hout (not_lt.mp hlen)
      · rw [if_neg hpos, hnone]
        have hzero : v.event.contentLen = 0 := by omega
        exact ⟨by rw [hzero]; decide, .inl hzero⟩
  · rw [contentClass, hst, Table.get_insert_self]
    exact hlen
  · exact h.elim

/-- **An envelope** joins the set. If it is new, its first class is given by the payloads that were delivered
before it, of which there are none. -/
theorem EnvelopeEffect.tracks {S : Set VerifiedEvent} {P : Set VerifiedEventContent}
    {db db' : Database} {v : VerifiedEvent} (h : EnvelopeEffect db v db') (ht : Tracks S P db)
    (hcf : CollisionFree (insert v S)) (hs : StatesStored db.ev) (hout : OversizedOut db.ev)
    (hout' : OversizedOut db'.ev) : Tracks (insert v S) P db' := by
  have hP : ∀ c ∈ P, c.event ∈ insert v S := fun c hc => Set.mem_insert_of_mem _ (ht.payloads c hc)
  cases h with
  | present e he t₁ ht₁ hfin hproj hquota =>
    obtain ⟨w, hw, hid, rfl⟩ := (ht.stored _ _).mp he
    obtain rfl : w = v := hcf (Set.mem_insert_of_mem _ hw) (Set.mem_insert _ _) hid
    rw [Set.insert_eq_of_mem hw]
    have hst : db'.ev.eventsContentState = db.ev.eventsContentState := by
      rcases hfin.state with hst | ⟨href, hlen | h, -⟩
      · rw [hst, ht₁]
      · rw [ht₁] at href
        have := hout w.id _ (by simp) he hlen
        rw [contentClass] at this href
        rw [this] at href
        cases href
      · exact h.elim
    refine ⟨fun id e => ?_, hquota.trans ht.undecided, ht.payloads, fun u hu => ?_⟩
    · rw [hfin.events, ht₁]
      exact ht.stored id e
    · rw [contentClass, hst]
      exact ht.fated u hu
  | new hnew t₁ isD dp rev hins hfin next hproj hquota =>
    have hdecided : ¬(db.quotaPruned.get v.id).isSome = true := by simp [ht.undecided]
    have hfin' : Finished False t₁ db'.ev v :=
      ⟨hfin.events, hfin.store, hfin.state.imp_right fun h => ⟨h.1, h.2.1.imp_right hdecided, h.2.2⟩⟩
    have hvS : v ∉ S := by
      intro hv
      rw [(ht.stored _ _).mpr ⟨v, hv, rfl, rfl⟩] at hnew
      cases hnew
    have hstored : StoredIs (insert v S) db'.ev :=
      ht.stored.insert_new (hfin.events.trans hins.events) hcf
    refine ⟨hstored, hquota.trans ht.undecided, hP, fun w hw => ?_⟩
    rcases Set.mem_insert_iff.mp hw with rfl | hw
    · refine fated_new hins (hs.state_none hnew) hfin' ?_ fun hfound => ?_
      · exact fun hlen => hout' _ _ (by simp) ((hstored _ _).mpr ⟨w, hw, rfl, rfl⟩) hlen
      · obtain ⟨c, hc, hcw⟩ := hfound
        exact hvS (hcw ▸ ht.payloads c hc)
    · have hne : w.id ≠ v.id := by
        intro hid
        exact hvS (hcf (Set.mem_insert_of_mem _ hw) (Set.mem_insert _ _) hid ▸ hw)
      have hkept : db'.ev.eventsContentState.get w.id = t₁.eventsContentState.get w.id := by
        rcases hfin.state with hst | ⟨-, -, hst⟩
        · rw [hst]
        · rw [hst, Table.get_insert_of_ne _ _ hne]
      rw [contentClass, hkept]
      by_cases hdp : dp = some w.id
      · obtain ⟨d, hd⟩ := hins.state_parent _ hdp
        rw [hd]
        trivial
      · rw [hins.state_other _ hne hdp]
        exact ht.fated w hw

/-- **A payload** of an envelope that was delivered joins the other set. -/
theorem PayloadEffect.tracks {S : Set VerifiedEvent} {P : Set VerifiedEventContent} {env : Env}
    {ctx : TxCtx} {db db' : Database} {c : VerifiedEventContent} {now : Timestamp}
    (h : PayloadEffect env ctx db c now db') (ht : Tracks S P db) (hcS : c.event ∈ S)
    (hcf : CollisionFree S)
    (hpos : contentClass db.ev c.event.id = .missing → 0 < c.event.event.contentLen) :
    Tracks S (insert c P) db' := by
  have hP : ∀ c' ∈ insert c P, c'.event ∈ S := by
    rintro c' (rfl | hc')
    · exact hcS
    · exact ht.payloads c' hc'
  have hself := ht.fated _ hcS
  -- only the payload's own event can change, and what the new payload says matters to it alone
  have hother : ∀ v ∈ S, v ≠ c.event → ∀ k, Fated P v k → Fated (insert c P) v k := by
    intro v _ hv k hk
    refine hk.congr fun c' hc' => ⟨fun h => .inr h, ?_⟩
    rintro (rfl | h)
    · exact absurd hc'.symm hv
    · exact h
  have hids : ∀ v ∈ S, v ≠ c.event → v.id ≠ c.event.id := fun v hv hne h => hne (hcf hv hcS h)
  cases h with
  | idle h =>
    refine ⟨ht.stored, ht.undecided, hP, fun v hv => ?_⟩
    by_cases hve : v = c.event
    · subst hve
      refine hself.mono (Set.subset_insert _ _) fun hm => ?_
      rw [hm] at hself
      obtain ⟨b, hb⟩ := c.content_isSome hself.2.1
      rcases h with h | h | ⟨h, -⟩
      · exact absurd hself.1 (not_lt.mpr h)
      · rw [hb] at h
        cases h
      · exact h hm
    · exact hother v hv hve _ (ht.fated v hv)
  | processed b hb hm hlen p hp u =>
    refine ⟨ht.stored, ht.undecided, hP, fun v hv => ?_⟩
    by_cases hve : v = c.event
    · subst hve
      rw [contentClass, Table.get_remove_self]
      refine ⟨hlen, .inr ⟨c, Set.mem_insert _ _, rfl, ?_⟩⟩
      by_contra hr
      rw [(processEventContentInsertedTx_invalid_iff ..).mpr (by simpa using hr)] at hp
      cases hp
    · rw [contentClass, Table.get_remove_of_ne _ (hids v hv hve)]
      exact hother v hv hve _ (ht.fated v hv)
  | rejected b hb hm hlen hp rc u =>
    refine ⟨ht.stored, ht.undecided, hP, fun v hv => ?_⟩
    by_cases hve : v = c.event
    · subst hve
      rw [contentClass, Table.get_insert_self]
      exact ⟨hlen, hpos hm, c, Set.mem_insert _ _, rfl,
        (processEventContentInsertedTx_invalid_iff ..).mp hp⟩
    · rw [contentClass, Table.get_insert_of_ne _ _ (hids v hv hve)]
      exact hother v hv hve _ (ht.fated v hv)
  | deleted b hb hd hlen =>
    refine ⟨ht.stored, ht.undecided, hP, fun v hv => ?_⟩
    by_cases hve : v = c.event
    · subst hve
      show Fated _ _ (contentClass db.ev _)
      rw [hd]
      trivial
    · exact hother v hv hve _ (ht.fated v hv)

theorem Tracks.booked {S : Set VerifiedEvent} {P : Set VerifiedEventContent} {db db' : Database}
    (h : Tracks S P db) (hb : Booked db db') : Tracks S P db' := by
  obtain ⟨a, r, rfl⟩ := hb
  exact ⟨h.stored, h.undecided, h.payloads, h.fated⟩

/-- The event invariants a delivery relies on. -/
abbrev LifeContext (t : EventTables) : Prop := Canonical t ∧ OversizedOut t

theorem lifeContext_keeps {D : Set VerifiedEvent} (hself : ∀ v ∈ D, NoSelfParent v) :
    Keeps D Anything AnythingMid LifeContext
      (fun v t => Canonical t ∧ OversizedOutBut (some v.id) t) (fun _ => True ∧ True) :=
  (canonical_keeps hself).and (oversizedOut_keeps D).anyContext

/-- **Tracking is kept** by every delivery, and so by every run. -/
theorem tracks_chronicle (env : Env) {D : Set VerifiedEvent} (hcf : CollisionFree D) :
    Chronicle env D LifeContext Tracks where
  empty := tracks_empty
  envelope _ _ _ _ _ hsub hI hI' h ht :=
    h.tracks ht (hcf.mono hsub) hI.1.states hI.2.2 hI'.2.2
  payload _ _ _ _ _ _ hsub hc hI hst h ht :=
    h.tracks ht hc (hcf.mono hsub) fun hm => hI.1.nonempty _ hm _ hst
  booked _ _ _ _ hb ht := ht.booked hb

/-- The database after a list of deliveries, with its ground. -/
abbrev TracksAll (D : Set VerifiedEvent) : List Delivery → Database → Prop :=
  Chronicled D LifeContext Tracks

/-! ## 4. Whole runs

The deliveries determine every state, so two runs of the same deliveries end alike. -/

theorem reached_tracks {D : Set VerifiedEvent} (hcf : CollisionFree D)
    (hself : ∀ v ∈ D, NoSelfParent v) (env : Env) (txs : List (List Delivery))
    (hD : DeliveredFrom D (txs.map Op.ingest)) :
    TracksAll D (committedDeliveries env txs) (reached env (txs.map Op.ingest)) :=
  reached_chronicled (lifeContext_keeps hself) hcf ⟨canonical_empty, oversizedOut_empty⟩
    (tracks_chronicle env hcf) txs hD

/-- The state `s` of the content of `v` after envelopes `S` and payloads `P`: deleted by its latest
direct deleter if it has one, and otherwise in the class its payload puts it. -/
def EndsIn (S : Set VerifiedEvent) (P : Set VerifiedEventContent) (v : VerifiedEvent)
    (s : Option EventContentState) : Prop :=
  match s with
  | some (.deleted d) => LatestDeleter S v.event.author v.id d
  | s => (¬∃ w, IsDeleter S v.event.author v.id w) ∧ Fated P v (classOf s)

/-- Two payloads of one event are the same bytes. -/
theorem payload_unique (hinj : Function.Injective blake3) {c c' : VerifiedEventContent}
    (h : c.event = c'.event) (hpos : 0 < c.event.event.contentLen) :
    c.toEventContent = c'.toEventContent := by
  obtain ⟨b, hb⟩ := c.content_isSome hpos
  obtain ⟨b', hb'⟩ := c'.content_isSome (h ▸ hpos)
  have hhash : blake3 b = blake3 b' := by
    rw [(c.length_and_hash hb).2, (c'.length_and_hash hb').2, h]
  have hcontent : c.content = c'.content := by rw [hb, hb', hinj hhash]
  obtain ⟨⟨v, o⟩, hv⟩ := c
  obtain ⟨⟨v', o'⟩, hv'⟩ := c'
  exact congrArg₂ EventContent.mk h hcontent

/-- The payloads determine the class. -/
theorem Fated.unique {P : Set VerifiedEventContent} {v : VerifiedEvent} {k k' : PayloadBucket}
    (hinj : Function.Injective blake3) (h : Fated P v k) (h' : Fated P v k') (hk : k ≠ .deleted)
    (hk' : k' ≠ .deleted) : k = k' := by
  have hconflict : Fated P v .current → ¬Fated P v .invalid := by
    rintro ⟨-, hzero | ⟨c, hc, hcv, hr⟩⟩ ⟨-, hpos, c', hc', hcv', hr'⟩
    · omega
    · have hsame := payload_unique hinj (hcv.trans hcv'.symm) (by rw [hcv]; exact hpos)
      rw [hsame, hr'] at hr
      cases hr
  have hawaited : Fated P v .missing → ¬Fated P v .current := by
    rintro ⟨-, hpos, hno⟩ ⟨-, hzero | ⟨c, hc, hcv, -⟩⟩
    · omega
    · exact hno ⟨c, hc, hcv⟩
  have hrefused : Fated P v .missing → ¬Fated P v .invalid :=
    fun ⟨_, _, hno⟩ ⟨_, _, c, hc, hcv, _⟩ => hno ⟨c, hc, hcv⟩
  have hlarge : ∀ k, Fated P v k → k ≠ .deleted → k ≠ .pruned → ¬Fated P v .pruned := by
    intro k hf hd hp hlen
    cases k with
    | deleted => exact hd rfl
    | pruned => exact hp rfl
    | current => exact absurd hf.1 (not_lt.mpr hlen)
    | invalid => exact absurd hf.1 (not_lt.mpr hlen)
    | missing => exact absurd hf.1 (not_lt.mpr hlen)
  by_cases hp : k = .pruned
  · subst hp
    by_contra hne
    exact hlarge k' h' hk' (Ne.symm hne) h
  by_cases hp' : k' = .pruned
  · subst hp'
    exact absurd h' (hlarge k h hk hp)
  cases k with
  | deleted => exact absurd rfl hk
  | pruned => exact absurd rfl hp
  | current =>
    cases k' with
    | deleted => exact absurd rfl hk'
    | pruned => exact absurd rfl hp'
    | current => rfl
    | invalid => exact absurd h' (hconflict h)
    | missing => exact absurd h (hawaited h')
  | invalid =>
    cases k' with
    | deleted => exact absurd rfl hk'
    | pruned => exact absurd rfl hp'
    | current => exact absurd h (hconflict h')
    | invalid => rfl
    | missing => exact absurd h (hrefused h')
  | missing =>
    cases k' with
    | deleted => exact absurd rfl hk'
    | pruned => exact absurd rfl hp'
    | current => exact absurd h' (hawaited h)
    | invalid => exact absurd h' (hrefused h)
    | missing => rfl

theorem LatestDeleter.unique {S : Set VerifiedEvent} {a : RostraId} {p d d' : ShortEventId}
    (h : LatestDeleter S a p d) (h' : LatestDeleter S a p d') : d = d' := by
  obtain ⟨w, hw, rfl, hmax⟩ := h
  obtain ⟨w', hw', rfl, hmax'⟩ := h'
  have horder := le_antisymm (hmax' w hw) (hmax w' hw')
  exact (Prod.mk.inj (toLex.injective horder)).2

/-- **The deliveries determine the class and the attribution**, since hashes have no collisions and deleters are
ordered. -/
theorem EndsIn.unique {S : Set VerifiedEvent} {P : Set VerifiedEventContent} {v : VerifiedEvent}
    {s s' : Option EventContentState} (hinj : Function.Injective blake3) (h : EndsIn S P v s)
    (h' : EndsIn S P v s') :
    classOf s = classOf s' ∧ EventContentState.deletedBy? s = EventContentState.deletedBy? s' := by
  by_cases hd : classOf s = .deleted
  · obtain ⟨d, rfl⟩ := classOf_eq_deleted.mp hd
    obtain ⟨w, hw, -⟩ := id h
    by_cases hd' : classOf s' = .deleted
    · obtain ⟨d', rfl⟩ := classOf_eq_deleted.mp hd'
      exact ⟨rfl, congrArg some (LatestDeleter.unique h h')⟩
    · rcases s' with _ | _ | _ | _ | _
      all_goals first | exact absurd ⟨w, hw⟩ h'.1 | exact absurd rfl hd'
  · have hno : ∀ {s}, EndsIn S P v s → classOf s ≠ .deleted →
        (¬∃ w, IsDeleter S v.event.author v.id w) ∧ Fated P v (classOf s) ∧
          EventContentState.deletedBy? s = none := by
      intro s h hd
      rcases s with _ | _ | _ | _ | _
      all_goals first | exact ⟨h.1, h.2, rfl⟩ | exact absurd rfl hd
    obtain ⟨hn, hf, hby⟩ := hno h hd
    have hd' : classOf s' ≠ .deleted := by
      intro hd'
      obtain ⟨d', rfl⟩ := classOf_eq_deleted.mp hd'
      obtain ⟨w, hw, -⟩ := id h'
      exact hn ⟨w, hw⟩
    obtain ⟨-, hf', hby'⟩ := hno h' hd'
    exact ⟨hf.unique hinj hf' hd hd', hby.trans hby'.symm⟩

/-- A tracked database has every event where it belongs. -/
theorem TracksAll.endsIn {D : Set VerifiedEvent} {ds : List Delivery} {db : Database}
    (h : TracksAll D ds db) {v : VerifiedEvent} (hv : v ∈ envelopesIn ds) :
    EndsIn (envelopesIn ds) (payloadsIn ds) v (db.ev.eventsContentState.get v.id) := by
  obtain ⟨⟨-, hcan, -⟩, -, ht⟩ := h
  have he : db.ev.events.get v.id = some v.event := (ht.stored _ _).mpr ⟨v, hv, rfl, rfl⟩
  have hdel : ∀ d, db.ev.eventsContentState.get v.id = some (.deleted d) ↔
      LatestDeleter (envelopesIn ds) v.event.author v.id d := by
    intro d
    rw [hcan.deleted, ← ht.stored.deleter_eq_some]
    constructor
    · rintro ⟨e, he', hd⟩
      cases he.symm.trans he'
      exact hd
    · exact fun hd => ⟨_, he, hd⟩
  have hno : classOf (db.ev.eventsContentState.get v.id) ≠ .deleted →
      ¬∃ w, IsDeleter (envelopesIn ds) v.event.author v.id w := by
    intro hcls
    rw [← ht.stored.deleter_eq_none]
    cases hd : deleter db.ev.events v.event.author v.id with
    | none => rfl
    | some d =>
      have := (hdel d).mpr ((ht.stored.deleter_eq_some _ _ _).mp hd)
      exact absurd (classOf_eq_deleted.mpr ⟨d, this⟩) hcls
  have hf := ht.fated v hv
  rw [contentClass] at hf
  unfold EndsIn
  split
  · next d hd => exact (hdel d).mp hd
  · next hs => exact ⟨hno fun hc => (classOf_eq_deleted.mp hc).elim hs, hf⟩

/-- **What was committed decides.**  After any run of ingestion transactions every event of a
committed one is stored, and its state is the one that the committed deliveries call for; two runs
that committed the same envelopes and payloads agree on the class and the deleter of every event; and
as a run goes on, `Deleted` is never left and nothing becomes `Missing` again. -/
theorem committed_lifecycle (env : Env) {D : Set VerifiedEvent} (hcf : CollisionFree D)
    (hself : ∀ v ∈ D, NoSelfParent v) (hinj : Function.Injective blake3)
    (txs : List (List Delivery)) (hD : DeliveredFrom D (txs.map Op.ingest)) :
    let S := envelopesIn (committedDeliveries env txs)
    let P := payloadsIn (committedDeliveries env txs)
    let t := (reached env (txs.map Op.ingest)).ev
    (∀ v ∈ S, t.events.get v.id = some v.event ∧ EndsIn S P v (t.eventsContentState.get v.id)) ∧
      (∀ env' txs', DeliveredFrom D (txs'.map Op.ingest) →
        envelopesIn (committedDeliveries env' txs') = S →
        payloadsIn (committedDeliveries env' txs') = P →
          let t' := (reached env' (txs'.map Op.ingest)).ev
          ∀ v ∈ S, contentClass t v.id = contentClass t' v.id ∧
            EventContentState.deletedBy? (t.eventsContentState.get v.id) =
              EventContentState.deletedBy? (t'.eventsContentState.get v.id)) ∧
      ∀ txs', DeliveredFrom D (txs'.map Op.ingest) →
        let t' := (reached env ((txs ++ txs').map Op.ingest)).ev
        ∀ v ∈ S, (contentClass t v.id = .deleted → contentClass t' v.id = .deleted) ∧
          (contentClass t' v.id = .missing → contentClass t v.id = .missing) := by
  have h := reached_tracks hcf hself env txs hD
  have hstored : ∀ v ∈ envelopesIn (committedDeliveries env txs),
      (reached env (txs.map Op.ingest)).ev.events.get v.id = some v.event :=
    fun v hv => (h.2.2.stored _ _).mpr ⟨v, hv, rfl, rfl⟩
  refine ⟨fun v hv => ⟨hstored v hv, h.endsIn hv⟩, fun env' txs' hD' hS hP v hv => ?_,
    fun txs' hD' v hv => ?_⟩
  · have h' := (reached_tracks hcf hself env' txs' hD').endsIn (v := v) (by rw [hS]; exact hv)
    rw [hS, hP] at h'
    exact (h.endsIn hv).unique hinj h'
  · have hlater := reached_later env hcf (txs.map Op.ingest) (txs'.map Op.ingest) fun o ho =>
      (List.mem_append.mp ho).elim (hD o) (hD' o)
    rw [← List.map_append] at hlater
    refine ⟨hlater.deleted _ _ (hstored v hv), fun hm => ?_⟩
    obtain ⟨n', hn'⟩ := Option.isSome_iff_exists.mp (slot?_isSome.mpr hm)
    obtain ⟨n, hn, -⟩ := hlater.missing _ _ n' (hstored v hv) hn'
    exact slot?_isSome.mp (Option.isSome_iff_exists.mpr ⟨n, hn⟩)

end Lifecycle

end Rostra.Db
