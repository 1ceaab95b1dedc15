/-
# Every delivery commits

An ingestion transaction can fail in many ways: an identity whose prefix is taken, a counter that is
full, a sequence number or a receipt that is there already, a projection that cannot be taken back,
processed content that is not in the store.  This file is about deliveries for which none of them
happens, whatever the order and however often each of them is repeated.

What it takes is said of the SET of envelopes alone.  Authors are told apart by their prefixes
(`PrefixFree`), everything that is counted fits into 64 bits (`Roomy`), and no header without content
names the hash of somebody's payload (`Unambiguous`).  The last of the three is the one that the code
could have checked and does not.

* Section 1: the premises, and what follows for a database: `load` is bounded, and `spent` counts the
  numbers that have been given out.
* Section 2: the event operations raise no error of their own (`unrefused_keeps`).
* Section 3: the two hooks, as long as no rebuild was started, only read the store.
* Sections 4 and 5: the numbers of the projections, and the invariant `Fit` that puts all of this
  together; an envelope keeps it and commits, and so does a payload.
* Section 6: whole runs.
-/
import Rostra.Proofs.Errors
import Rostra.Proofs.LatestValues
import Rostra.Proofs.Projections

namespace Rostra.Db

open Rostra Outcome

section Commits

variable [Primitives]

/-! ## 1. Envelopes that can be told apart and counted

The two premises are about collisions and about size.  Identities are 32 random bytes and their
prefixes 16, so two authors with one prefix are not expected; and 64 bits count more bytes than any
store holds.  Neither is checked when an envelope arrives: the code reports them when it meets them. -/

/-- An identity prefix belongs to one author of `D`. -/
def PrefixFree (D : Set VerifiedEvent) : Prop :=
  ∀ v ∈ D, ∀ w ∈ D, v.event.author.split.1 = w.event.author.split.1 →
    v.event.author = w.event.author

/-- `D` is finite, and the headers and contents of `D` together have fewer than `2 ^ 64` bytes. -/
def Roomy (D : Set VerifiedEvent) : Prop :=
  ∃ vs : Finset VerifiedEvent, D ⊆ ↑vs ∧ ∑ v ∈ vs, cost v.event ≤ u64Max

/-- **The load is bounded** by what all envelopes of `D` could add, as stored headers are among them. -/
theorem KeyedBy.load_le {D : Set VerifiedEvent} {t : EventTables} (hk : KeyedBy D t)
    (hroom : Roomy D) : load t ≤ u64Max := by
  classical
  obtain ⟨vs, hsub, hle⟩ := hroom
  let stored := vs.filter fun v => t.events.get v.id = some v.event
  have hinj : Set.InjOn VerifiedEvent.id (stored : Set VerifiedEvent) := by
    intro v hv w hw hid
    have hv' := (Finset.mem_filter.mp hv).2
    have hw' := (Finset.mem_filter.mp hw).2
    rw [hid, hw'] at hv'
    exact VerifiedEvent.ext_event (Option.some.inj hv').symm
  have hkeys : t.events.keys ⊆ stored.image VerifiedEvent.id := by
    intro id hid
    obtain ⟨e, he⟩ := Table.mem_keys.mp hid
    obtain ⟨v, hv, rfl, rfl⟩ := hk id e he
    exact Finset.mem_image.mpr ⟨v, Finset.mem_filter.mpr ⟨hsub hv, he⟩, rfl⟩
  calc load t
      ≤ ∑ id ∈ stored.image VerifiedEvent.id, (t.events.get id).elim 0 cost :=
        Finset.sum_le_sum_of_subset hkeys
    _ = ∑ v ∈ stored, (t.events.get v.id).elim 0 cost := Finset.sum_image hinj
    _ = ∑ v ∈ stored, cost v.event :=
        Finset.sum_congr rfl fun v hv => by rw [(Finset.mem_filter.mp hv).2, Option.elim_some]
    _ ≤ ∑ v ∈ vs, cost v.event := Finset.sum_le_sum_of_subset (Finset.filter_subset _ _)
    _ ≤ u64Max := hle

/-- How many sequence numbers the stored headers account for: one for the reception of each, and one
more for its payload unless that is still awaited. -/
def spent (t : EventTables) : ℕ := tally t fun _ k => if k = .missing then 1 else 2

omit [Primitives] in
theorem spent_le_load (t : EventTables) : spent t ≤ load t := by
  refine tally_le_load t fun e k => ?_
  unfold cost EVENT_METADATA_SIZE
  split
  all_goals omega

omit [Primitives] in
/-- Content that was no longer awaited is not awaited again. -/
theorem spent_mono {t t' : EventTables} (hev : t'.events = t.events)
    (hm : ∀ id e, t.events.get id = some e → contentClass t' id = .missing →
      contentClass t id = .missing) : spent t ≤ spent t' := by
  unfold spent tally
  rw [hev]
  refine Table.sum_le_sum fun id e he => ?_
  dsimp only
  split
  · split
    all_goals omega
  · next hold => rw [if_neg fun h => hold (hm id e he h)]

omit [Primitives] in
/-- **A new header** spends one number at least, whatever it deletes. -/
theorem spent_arrive {t t' : EventTables} {id : ShortEventId} {e : Event}
    (hnew : t.events.get id = none) (hev : t'.events = t.events.insert id e)
    (hm : ∀ id', id' ≠ id → contentClass t' id' = .missing → contentClass t id' = .missing) :
    spent t + 1 ≤ spent t' := by
  have hold : spent t ≤ t.events.sum fun id' _ => if contentClass t' id' = .missing then 1 else 2 := by
    refine Table.sum_le_sum fun id' e' he' => ?_
    have hne : id' ≠ id := by
      rintro rfl
      rw [hnew] at he'
      cases he'
    dsimp only
    split
    · split
      all_goals omega
    · next hno => rw [if_neg fun h => hno (hm id' hne h)]
  have hsum : spent t' = (if contentClass t' id = .missing then 1 else 2) +
      t.events.sum fun id' _ => if contentClass t' id' = .missing then 1 else 2 := by
    unfold spent tally
    rw [hev, Table.sum_insert_new hnew]
  rw [hsum]
  split
  all_goals omega

omit [Primitives] in
/-- **Awaited content that arrives** spends the second number of its event. -/
theorem spent_settle {t t' : EventTables} {id : ShortEventId} {e : Event}
    (hev : t'.events = t.events) (he : t.events.get id = some e)
    (hoff : ∀ id', id' ≠ id → contentClass t' id' = contentClass t id')
    (hold : contentClass t id = .missing) (hnew : contentClass t' id ≠ .missing) :
    spent t' = spent t + 1 := by
  have h := tally_transition hev he hoff fun _ k => if k = .missing then 1 else 2
  rw [if_pos hold, if_neg hnew] at h
  unfold spent
  omega

/-! ## 2. The event operations

Between them the books, the graph and the register of identities leave no reason to refuse anything.
Each of the three excludes its own kind of error, so the proof is a matter of putting the three
descriptions of one call side by side. -/

section EventOps

variable {D : Set VerifiedEvent}

/-- The registered identities are those of authors of `D`. -/
def RegisteredIn (D : Set VerifiedEvent) (t : EventTables) : Prop :=
  ∀ s r, t.idsFull.get s = some r → ∃ v ∈ D, v.event.author.split = (s, r)

theorem registeredIn_empty (D : Set VerifiedEvent) : RegisteredIn D {} := fun s r h => by simp at h

/-- **An author of `D` is registered** without collision, because no two authors of `D` share half of their ids. -/
theorem RegisteredIn.register {t : EventTables} (h : RegisteredIn D t) (hp : PrefixFree D)
    {v : VerifiedEvent} (hv : v ∈ D) :
    Ensures (register t.idsFull v.event.author)
      (fun ids => RegisteredIn D { t with idsFull := ids }) (fun _ => False) := by
  unfold Db.register
  cases hex : t.idsFull.get v.event.author.split.1 with
  | some existing =>
    obtain ⟨w, hw, hsplit⟩ := h _ _ hex
    have hsame := hp w hw v hv (by rw [hsplit])
    rw [hsame] at hsplit
    dsimp only
    rw [if_neg (by rw [hsplit]; simp)]
    exact h
  | none =>
    intro s r hr
    dsimp only at hr
    rw [Table.get_insert] at hr
    split at hr
    · next hs =>
      cases hr
      exact ⟨v, hv, by rw [hs]⟩
    · exact h s r hr

theorem PruneEffect.registeredIn {t t' : EventTables} {id : ShortEventId} (h : PruneEffect t id t')
    (hr : RegisteredIn D t) : RegisteredIn D t' := by
  cases h with
  | kept _ h =>
    rw [h]
    exact hr
  | pruned _ rc u h =>
    rw [h]
    exact hr

/-- **No header of `D` is refused.** The refusals are a collision, an overflow and a lost attribution; the
premises, the bounds and the canonical graph exclude one each. -/
theorem insertEventTx_registeredIn {t : EventTables} (hg : Grounded D t) (hb : Balanced t)
    (hc : Canonical t) (hr : RegisteredIn D t) (hp : PrefixFree D) (hroom : Roomy D)
    {v : VerifiedEvent} (hv : v ∈ D) (hself : NoSelfParent v) :
    Ensures (insertEventTx t v) (fun r => RegisteredIn D r.1) (fun _ => False) := by
  have hreg := hr.register hp hv
  by_cases hs : (t.events.get v.id).isSome
  · unfold insertEventTx
    refine hreg.bind fun ids hids => ?_
    rw [if_pos hs]
    exact hids
  · have hnew : t.events.get v.id = none := by simpa using hs
    have hload : cost v.event + load t ≤ u64Max := by
      have hkeyed : KeyedBy D (arrived t v) := by
        intro id e he
        dsimp only at he
        rw [Table.get_insert] at he
        split at he
        · next hid =>
          cases he
          exact ⟨v, hv, hid.symm, rfl⟩
        · exact hg.keyed id e he
      have hsum : load (arrived t v) = cost v.event + load t := load_insert hnew rfl
      exact hsum ▸ hkeyed.load_le hroom
    refine (((insertEventTx_effect t v).and (insertEventTx_canonical hc hself)).and
      (insertEventTx_balanced hb hg.states v)).mono (fun r hr' => ?_) fun e he => ?_
    · cases hr'.1.1 with
      | present e he hok ht ho => exact hreg.of_ok hok
      | new hnew hok wm isD dp rev mp h ho => exact hreg.of_ok hok
    · obtain ⟨⟨-, hl⟩, h | h | h⟩ := he
      · exact hreg.of_error h
      · exact hl h
      · exact absurd h.2 (not_lt.mpr hload)

/-- **No event operation is refused**, next to balanced books and a canonical graph. As a rule of `Proofs/Rules`
with no error at all. -/
theorem unrefused_keeps {C : EventTables → Prop} {CM : VerifiedEvent → EventTables → Prop}
    (hC : ∀ t, C t → Balanced t ∧ Canonical t) (hCM : ∀ v t, CM v t → Balanced t)
    (hself : ∀ v ∈ D, NoSelfParent v) (hp : PrefixFree D) (hroom : Roomy D) :
    Keeps D C CM (RegisteredIn D) (fun _ => RegisteredIn D) (fun e => ¬IsEventError e) where
  insert t v hv hg hc h :=
    (insertEventTx_registeredIn hg (hC t hc).1 (hC t hc).2 h hp hroom hv (hself v hv)).mono
      (fun _ h => h) fun _ h => h.elim
  settle t v he hg hc h :=
    ((pruneEventContentTx_effect t v.id v.event).and
      (pruneEventContentTx_balanced (hCM v t hc) he)).mono (fun _ hr => hr.1.registeredIn h)
        fun _ he => absurd he.2.2 (not_lt.mpr (hg.keyed.load_le hroom))
  schedule t v _ _ _ _ h := by
    obtain ⟨q, hq⟩ := ensureMissingScheduledTx_effect t v.id
    rw [hq]
    exact h
  prune t id e he hg hc h :=
    ((pruneEventContentTx_effect t id e).and
      (pruneEventContentTx_balanced (hC t hc).1 he)).mono (fun _ hr => hr.1.registeredIn h)
        fun _ he => absurd he.2.2 (not_lt.mpr (hg.keyed.load_le hroom))
  store t c b he hm _ hg hc h := by
    refine ((storeContentTx_effect _ _ b).and (storeContentTx_balanced
      (t := unscheduled t c.event.id) ((hC t hc).1.withQueue _) he hm b)).mono (fun t' ht' => ?_)
        fun _ he => absurd he.2.2 (not_lt.mpr (hg.keyed.load_le hroom))
    obtain ⟨⟨u, rfl⟩, -⟩ := ht'
    exact h
  reject t c he hm hg hc h := by
    refine ((rejectContentTx_effect _ _).and (rejectContentTx_balanced
      (t := unscheduled t c.event.id) ((hC t hc).1.withQueue _) he hm)).mono (fun t' ht' => ?_)
        fun _ he => absurd he.2.2 (not_lt.mpr (hg.keyed.load_le hroom))
    obtain ⟨⟨rc, u, rfl⟩, -⟩ := ht'
    exact h
  collect t k _ _ _ h := h
  defer t id _ _ h := by
    obtain ⟨q, hq⟩ := ensureMissingScheduledTx_effect t id
    rw [hq]
    exact h
  reschedule t id o n u _ _ h := by
    rcases rescheduleTx_effect t id o n u with heq | ⟨_, _, _, _, _, _, -, -, heq⟩
    · rw [heq]
      exact h
    · rw [heq]
      exact h
  peek t _ _ h := by
    obtain ⟨q, hq⟩ := peekLoop_effect (t.eventsContentMissing.card + 1) t
    show RegisteredIn D (peekLoop _ _).1
    rw [hq]
    exact h
  other _ h := h

/-- Everything about the event tables that the deliveries rest on. -/
abbrev Ready (D : Set VerifiedEvent) (t : EventTables) : Prop :=
  ((StoreContext D t ∧ Canonical t) ∧ Measured D t) ∧ RegisteredIn D t

theorem ready_empty (D : Set VerifiedEvent) : Ready D {} :=
  ⟨⟨⟨⟨⟨balanced_empty, storeSound_empty D⟩, oversizedOut_empty⟩, canonical_empty⟩, measured_empty D⟩,
    registeredIn_empty D⟩

/-- The same between insertion and settlement, where oversized content may still be there. -/
abbrev ReadyMid (D : Set VerifiedEvent) (v : VerifiedEvent) (t : EventTables) : Prop :=
  ((((Balanced t ∧ StoreSound D t) ∧ OversizedOutBut (some v.id) t) ∧ Canonical t) ∧ Measured D t) ∧
    RegisteredIn D t

theorem ready_keeps (hinj : Function.Injective blake3) (hun : Unambiguous D)
    (hself : ∀ v ∈ D, NoSelfParent v) (hp : PrefixFree D) (hroom : Roomy D) :
    Keeps D Anything AnythingMid (Ready D) (ReadyMid D)
      (fun e => ((((¬IsBooksError e ∧ True) ∧ True) ∧ True) ∧ True) ∧ ¬IsEventError e) :=
  (((storeContext_keeps hinj hun).and (canonical_keeps hself).anyContext).and
    ((measured_keeps D).context (fun _ h => h.1.1.1) fun _ _ h => h.1.1.1)).and
      (unrefused_keeps (fun _ h => ⟨h.1.1.1.1, h.1.2⟩) (fun _ _ h => h.1.1.1.1) hself hp hroom)

end EventOps

/-! ## 3. The hooks

As long as nobody started a rebuild, the accounting has counted nothing and the retention index is
not there.  All that the hooks do then is to read the bytes of what is processed. -/

/-- No rebuild has begun. -/
structure Idle (db : Database) : Prop where
  stage : (accountingTx db.accounting).stage = .events none
  index : db.retention.state = none

omit [Primitives] in
theorem idle_empty : Idle {} := ⟨rfl, rfl⟩

/-- Processed content is in the store, in its length. -/
def StoredWhole (t : EventTables) : Prop :=
  ∀ id e, t.events.get id = some e → t.eventsContentState.get id = none →
    ∃ b, t.contentStore.get e.contentHash = some b ∧ b.length = e.contentLen

theorem Ready.storedWhole {D : Set VerifiedEvent} {t : EventTables} (h : Ready D t)
    (hun : Unambiguous D) (hk : KeyedBy D t) : StoredWhole t := by
  intro id e he hs
  have hcls : contentClass t id = .current := classOf_eq_current.mpr hs
  obtain ⟨⟨⟨⟨⟨-, hsound⟩, -⟩, -⟩, hmeasured⟩, -⟩ := h
  by_cases hpos : 0 < e.contentLen
  · obtain ⟨b, hb, hlen, -⟩ := hsound.readable id e he hcls hpos
    exact ⟨b, hb, hlen⟩
  · obtain ⟨b, hb⟩ := Option.isSome_iff_exists.mp (hmeasured.held id e he hcls)
    have hzero : e.contentLen = 0 := by omega
    have hnil := hmeasured.owned.empty hsound hun hk he hzero hb
    exact ⟨b, hb, by rw [hnil, hzero]; rfl⟩

theorem payloadBeforeTx_ok (env : Env) {t : EventTables} (h : StoredWhole t) (v : VerifiedEvent) :
    Raises (fun _ => False) (payloadBeforeTx env t v) := by
  have hcontribution : ∀ id, Raises (fun _ => False) (contributionTx env t id) := by
    intro id
    unfold contributionTx
    cases he : t.events.get id with
    | none => exact .ok _
    | some e =>
      refine Raises.bind ?_ fun _ => .pure _
      unfold requireStoredTx
      split
      · exact .ok _
      · next hs hnone =>
        obtain ⟨b, hb, -⟩ := h id e he hs
        rw [hnone] at hb
        cases hb
      · next b hs hsome =>
        obtain ⟨b', hb, hlen⟩ := h id e he hs
        rw [hsome] at hb
        cases hb
        rw [if_neg (by simp [hlen])]
        exact .ok _
  unfold payloadBeforeTx
  exact (Raises.mapM (fun id => (hcontribution id).bind fun _ => .pure _) _).bind fun _ => .pure _

/-- **Nothing was counted, so nothing can disagree.** As long as no rebuild has begun, a bracket does not fail. -/
theorem payloadAfterTx_idle (env : Env) {db : Database} (h : Idle db) (before : PayloadBefore) :
    Ensures (payloadAfterTx env db before) Idle (fun _ => False) := by
  unfold payloadAfterTx
  have hevents := Ensures.foldlM (f := afterEventTx env db) (E := fun _ => False)
    (J := fun s => s.record.stage = .events none ∧ s.retention.state = none) before.events
    ⟨db.accounting, accountingTx db.accounting, db.retention, []⟩ (fun item _ s hs => ?_)
    ⟨h.stage, h.index⟩
  · refine hevents.bind fun s hs => ?_
    have hready : whenReadyTx s.record (s.authors.forM (validateAuthorTx db.ev s.accounting)) =
        .ok () := by
      rw [whenReadyTx, hs.1, if_neg (by simp)]
    rw [hready]
    have hhashes := Ensures.foldlM (f := afterHashTx db.ev) (E := fun _ => False)
      (J := fun r : Accounting × AccountingRecord => r.2.stage = .events none) before.hashes
      (s.accounting, s.record) (fun item _ r hr => ?_) hs.1
    · exact Ensures.bind (P := fun _ => True) trivial fun _ _ => hhashes.bind fun r hr => ⟨hr, hs.2⟩
    · unfold afterHashTx uniqueBytesTx whenReadyTx
      simp only [hr, hashCounted, Bool.false_eq_true, if_false, reduceCtorEq]
      exact (rfl : AccountingStage.events none = .events none)
  · unfold afterEventTx
    rw [refreshRetentionIndexTx_idle hs.2]
    show Ensures (if _ then _ else _) _ _
    rw [hs.1, if_neg (by simp [eventCounted])]
    exact hs

/-! ## 4. The numbers of the projections

Sequence numbers, receipts and the counts of replies are bounded by `spent`.  A payload adds one to
each of them at most (`processEventContentInsertedTx_numbered`); what is added here is that lineage and
what a deletion takes back add nothing. -/

/-- The numbers that were given out are below `n`, and the rows of votes are votes. -/
structure Numbers (n : ℕ) (db : Database) : Prop where
  counters : Counters n n n db.proj
  received : ∀ k v, db.eventsReceivedAt.get k = some v → k.2 < db.proj.receptionOrderNext.getD 0
  votes : VoteRows db.proj.eventsSingletonsNew

omit [Primitives] in
theorem numbers_empty : Numbers 0 {} :=
  ⟨counters_empty, fun k v h => by simp at h, fun voter key r h => by simp [voteRow] at h⟩

omit [Primitives] in
theorem Numbers.mono {n m : ℕ} {db : Database} (h : Numbers n db) (hn : n ≤ m) : Numbers m db :=
  ⟨h.counters.mono hn hn hn, h.received, h.votes⟩

/-- Projections with fewer rows and the same counters, and with the same rows of votes. -/
structure Lessened (n : ℕ) (p p' : Projections) : Prop where
  counters : Counters n n n p'
  next : p'.receptionOrderNext = p.receptionOrderNext
  singletons : p'.eventsSingletonsNew = p.eventsSingletonsNew

omit [Primitives] in
theorem Lessened.refl {n : ℕ} {p : Projections} (h : Counters n n n p) : Lessened n p p :=
  ⟨h, rfl, rfl⟩

omit [Primitives] in
theorem Lessened.trans {n : ℕ} {p p' p'' : Projections} (h : Lessened n p p')
    (h' : Lessened n p' p'') : Lessened n p p'' :=
  ⟨h'.counters, h'.next.trans h.next, h'.singletons.trans h.singletons⟩

theorem withLineage_lessened {n : ℕ} {p : Projections} (h : Counters n n n p) (c : EventContent) :
    Lessened n p (withLineage p c) := by
  unfold withLineage
  cases lineageOf c with
  | none => exact .refl h
  | some old => exact ⟨⟨h.next, h.posts, h.shouts, h.counts, h.feed⟩, rfl, rfl⟩

omit [Primitives] in
theorem removeSocialPostReceiptTx_lessened {n : ℕ} {p : Projections} (h : Counters n n n p)
    (id : ShortEventId) :
    Ensures (removeSocialPostReceiptTx p id) (Lessened n p) (fun _ => True) := by
  unfold removeSocialPostReceiptTx
  split
  · exact .refl h
  · next key _ =>
    split
    · trivial
    · refine ⟨⟨h.next, fun k v hk => ?_, h.shouts, h.counts, h.feed⟩, rfl, rfl⟩
      dsimp only at hk
      rw [Table.get_remove] at hk
      split at hk
      · cases hk
      · exact h.posts k v hk

theorem removeReplyToTx_lessened {n : ℕ} {p : Projections} (h : Counters n n n p) (v : VerifiedEvent)
    (post : SocialPost) : Ensures (removeReplyToTx p v post) (Lessened n p) (fun _ => True) := by
  have hdown : ∀ present count, count ≤ n →
      Ensures (countDownTx present count) (fun m => m ≤ n) (fun _ => True) := by
    intro present count hle
    unfold countDownTx
    split
    · exact (checkedSub_ensures ..).mono (fun m hm => by omega) fun _ _ => trivial
    · exact hle
  unfold removeReplyToTx
  split
  · next target _ =>
    unfold removeSocialPostReplyTx
    have hcount : ((p.socialPosts.get target.eventId).getD {}).replyCount ≤ n ∧
        ((p.socialPosts.get target.eventId).getD {}).reactionCount ≤ n := by
      cases hg : p.socialPosts.get target.eventId with
      | none => exact ⟨Nat.zero_le _, Nat.zero_le _⟩
      | some r => exact h.counts _ r hg
    refine (hdown _ _ hcount.1).bind fun replies hreplies => ?_
    refine (hdown _ _ hcount.2).bind fun reactions hreactions => ?_
    refine ensures_pure.mpr ⟨⟨h.next, h.posts, h.shouts, fun id r hr => ?_, h.feed⟩, rfl, rfl⟩
    dsimp only at hr
    rw [Table.get_insert] at hr
    split at hr
    · cases hr
      exact ⟨hreplies, hreactions⟩
    · exact h.counts id r hr
  · exact .refl h

/-- **What is taken back** leaves the numbers as they were: it frees rows, but no number is given out again. -/
theorem processEventContentRevertedTx_lessened {n : ℕ} {p : Projections} (h : Counters n n n p)
    (c : EventContent) :
    Ensures (processEventContentRevertedTx p c) (Lessened n p) (fun _ => True) := by
  have hrevert : ∀ post, Ensures (revertSocialPostTx p c post) (Lessened n p) (fun _ => True) := by
    intro post
    unfold revertSocialPostTx
    extract_lets v p₀
    have h₀ : Lessened n p p₀ := ⟨⟨h.next, h.posts, h.shouts, h.counts, h.feed⟩, rfl, rfl⟩
    refine (removeSocialPostReceiptTx_lessened h₀.counters v.id).bind fun p₁ h₁ => ?_
    extract_lets p₂ p₃
    have h₂ : Lessened n p₁ p₂ := by
      have hc := h₁.counters
      show Lessened n p₁ (if post.news then removeSocialNewsRankTx p₁ _ else p₁)
      split
      · unfold removeSocialNewsRankTx
        split
        · exact .refl hc
        · exact ⟨⟨hc.next, hc.posts, hc.shouts, hc.counts, hc.feed⟩, rfl, rfl⟩
      · exact .refl hc
    have h₃ : Lessened n p₂ p₃ := by
      have hc := h₂.counters
      exact ⟨⟨hc.next, hc.posts, hc.shouts, hc.counts, hc.feed⟩, rfl, rfl⟩
    exact (removeReplyToTx_lessened h₃.counters v post).mono
      (fun _ h₄ => h₀.trans (h₁.trans (h₂.trans (h₃.trans h₄)))) fun _ h => h
  unfold processEventContentRevertedTx
  split
  · have hpost : Ensures (decodeOr c.socialPost?) (fun _ => True) (fun _ => True) := by
      cases c.socialPost? with
      | none => trivial
      | some post => trivial
    refine hpost.bind fun post _ => ?_
    split
    · exact .refl h
    · exact liftDb_ensures (hrevert post)
  · exact .refl h

/-- The rows of votes stay votes when a payload is processed. -/
theorem VoteRows.inserted {env : Env} {ctx : TxCtx} {p p' : Projections} {c : EventContent}
    {now : Timestamp} (h : VoteRows p.eventsSingletonsNew)
    (hp : processEventContentInsertedTx env ctx p c now = .ok p') :
    VoteRows p'.eventsSingletonsNew := by
  have hafter : p'.eventsSingletonsNew = (latestAfter (latestPart p) c).singletons :=
    congrArg LatestPart.singletons ((processEventContentInsertedTx_latest env ctx p now).of_ok hp)
  rw [hafter]
  unfold latestAfter
  dsimp only
  cases hrec : singletonRecordOf c with
  | none => exact h
  | some record =>
    intro voter key r hr
    rw [Option.elim_some] at hr
    unfold voteRow insertLatestValueTx at hr
    have hnew : (voter, EventKind.SOCIAL_VOTE, key) = singletonKey c → r = ⟨c.event.event.timestamp, record⟩ →
        ∃ vote, r.inner.socialVote = some vote ∧ socialVoteAuxKey vote.target = key := by
      rintro hkey rfl
      have hkind : c.event.event.kind = EventKind.SOCIAL_VOTE :=
        (congrArg (fun k : RostraId × EventKind × EventAuxKey => k.2.1) hkey).symm
      have haux : c.event.event.keyAux = key :=
        (congrArg (fun k : RostraId × EventKind × EventAuxKey => k.2.2) hkey).symm
      unfold singletonRecordOf recordOfKind at hrec
      split at hrec
      · simp only [hkind] at hrec
        obtain ⟨vote, hvote, rfl⟩ := Option.map_eq_some_iff.mp hrec
        exact ⟨vote, rfl, (voteOf_eq_some hvote).2.2.symm.trans haux⟩
      · cases hrec
    split at hr
    · split at hr
      · exact h voter key r hr
      · rw [Table.get_insert] at hr
        split at hr
        · next hkey => exact hnew hkey (Option.some.inj hr).symm
        · exact h voter key r hr
    · rw [Table.get_insert] at hr
      split at hr
      · next hkey => exact hnew hkey (Option.some.inj hr).symm
      · exact h voter key r hr

/-! ## 5. One delivery -/

variable {D : Set VerifiedEvent} {env : Env} {db db' : Database}

/-- **A database that deliveries of `D` lead to.**  Each part excludes an error: the ground those of the
event tables, the tables of posts those of taking back, the numbers those of the projections, and the
rest those of the hooks. -/
structure Fit (D : Set VerifiedEvent) (env : Env) (db : Database) : Prop where
  ground : OnGround D (Ready D) db.ev
  projected : Projected env D db
  numbers : Numbers (spent db.ev) db
  idle : Idle db
  undecided : db.quotaPruned = ∅

theorem fit_empty (D : Set VerifiedEvent) (env : Env) : Fit D env {} where
  ground := ⟨grounded_empty D, ready_empty D⟩
  projected := projected_empty env D
  numbers := numbers_empty
  idle := idle_empty
  undecided := rfl

/-- The premises about `D`. -/
structure Ingestible (D : Set VerifiedEvent) : Prop where
  ids : CollisionFree D
  parents : ∀ v ∈ D, NoSelfParent v
  prefixes : PrefixFree D
  room : Roomy D
  unambiguous : Unambiguous D

/-! What an event spends: one number when its header arrives, and one when its content does. -/

theorem Finished.spent {decided : Prop} {t t' : EventTables} {v : VerifiedEvent}
    (h : Finished decided t t' v) : spent t ≤ spent t' := by
  refine spent_mono h.events fun id e _ hm => ?_
  rcases h.state with hst | ⟨-, -, hst⟩
  · rwa [contentClass, hst] at hm
  · rw [contentClass, hst, Table.get_insert] at hm
    split at hm
    · cases hm
    · exact hm

theorem Inserted.spent {t t' : EventTables} {v : VerifiedEvent} {isDeleted : Bool}
    {deletedParent : Option ShortEventId} {reverted : Option Bytes}
    (h : Inserted t t' v isDeleted deletedParent reverted) (hnew : t.events.get v.id = none) :
    Db.spent t + 1 ≤ Db.spent t' := by
  refine spent_arrive hnew h.events fun id hid hm => ?_
  by_cases hdp : deletedParent = some id
  · obtain ⟨d, hd⟩ := h.state_parent id hdp
    rw [contentClass, hd] at hm
    cases hm
  · rwa [contentClass, h.state_other id hid hdp] at hm

/-- What is spent when `v` has been received: one more, unless it is there already. -/
def spentWith (t : EventTables) (v : VerifiedEvent) : ℕ :=
  spent t + if (t.events.get v.id).isSome then 0 else 1

theorem EnvelopeEffect.spent {v : VerifiedEvent} (h : EnvelopeEffect db v db') :
    spentWith db.ev v ≤ Db.spent db'.ev := by
  unfold spentWith
  cases h with
  | present e he t₁ ht₁ hfin hproj hquota =>
    rw [he]
    have hsame : Db.spent t₁ = Db.spent db.ev := by
      rw [ht₁]
      rfl
    exact hsame ▸ hfin.spent
  | new hnew t₁ isD dp rev hins hfin next hproj hquota =>
    rw [hnew]
    exact (hins.spent hnew).trans hfin.spent

/-- **A new header** gets the next number, and takes back what it deletes. That this cannot fail needs the tables
of posts to be exact. -/
theorem afterInsertTx_numbers (ctx : TxCtx) (h : Fit D env db) (hun : Unambiguous D)
    (hdec : EmptyUnreadable) {v : VerifiedEvent} (hv : v ∈ D) {t : EventTables}
    {wasMissing isDeleted : Bool} {deletedParent : Option ShortEventId} {reverted : Option Bytes}
    {missingParents : List ShortEventId}
    (hins : insertEventTx db.ev v =
      .ok (t, .inserted wasMissing isDeleted deletedParent reverted missingParents))
    (hroom : spent db.ev < u64Max) (now : Timestamp) (source : EventReceivedSource) :
    Ensures (afterInsertTx env ctx { db with ev := t } v now source isDeleted deletedParent reverted)
      (fun db' => Numbers (spent db.ev + 1) db' ∧ Idle db' ∧ db'.quotaPruned = ∅)
      (fun _ => False) := by
  have hquota : applyQuotaDecisionTx { db with ev := t } v = .ok t := by
    rw [applyQuotaDecisionTx, if_neg (by simp [h.undecided])]
  have hreceive := insertReceptionOrderedTx_ok now (⟨v.id, source⟩ : EventReceivedRecord)
    (h.numbers.counters.next.trans_lt hroom) h.numbers.received
  obtain ⟨next, hnext⟩ : ∃ n, n = db.proj.receptionOrderNext.getD 0 + 1 := ⟨_, rfl⟩
  let p₀ : Projections := { db.proj with receptionOrderNext := some next }
  have h₀ : Counters (spent db.ev + 1) (spent db.ev + 1) (spent db.ev + 1) p₀ := by
    have hc := h.numbers.counters.mono (Nat.le_succ _) (Nat.le_succ _) (Nat.le_succ _)
    refine ⟨?_, fun k r hk => ?_, fun k r hk => ?_, hc.counts, hc.feed⟩
    · show next ≤ _
      have := h.numbers.counters.next
      omega
    · show k.2 < next
      have := hc.posts k r hk
      omega
    · show k.2 < next
      have := hc.shouts k r hk
      omega
  have h₁ : Lessened (spent db.ev + 1) p₀ (lineageArrived t p₀ v isDeleted) := by
    unfold lineageArrived
    split
    · cases storedContent t v with
      | none => exact .refl h₀
      | some c => exact withLineage_lessened h₀ _
    · exact .refl h₀
  have hline : insertedLineageTx t p₀ v isDeleted = .ok (lineageArrived t p₀ v isDeleted) :=
    insertedLineageTx_eq t p₀ v isDeleted
  have hrevert : Ensures (revertDeletedTx t (lineageArrived t p₀ v isDeleted) deletedParent reverted)
      (Lessened (spent db.ev + 1) p₀) (fun _ => False) := by
    unfold revertDeletedTx
    cases hc : revertedContent t deletedParent reverted with
    | none => exact h₁
    | some c =>
      have hcall : RevertCall D db _ c := .deletion hv hins hquota hline hc
      obtain ⟨hok, hinvalid⟩ := hcall.outcome ⟨h.ground.1, h.ground.2.1.1.1⟩ h.projected hun hdec
      unfold revertParentTx
      dsimp only
      by_cases hh : Hollow c.event.event
      · rw [hinvalid hh]
        exact h₁
      · obtain ⟨p', hp'⟩ := hok hh
        rw [hp']
        exact h₁.trans ((processEventContentRevertedTx_lessened h₁.counters c).of_ok hp')
  unfold afterInsertTx
  rw [hquota]
  refine Ensures.bind (P := (· = t)) rfl fun ev hev => ?_
  subst hev
  dsimp only
  rw [hreceive, ← hnext]
  have hlined : Ensures (insertedLineageTx ev p₀ v isDeleted)
      (· = lineageArrived ev p₀ v isDeleted) (fun _ => False) := by
    rw [hline]
    rfl
  refine hlined.bind fun p hp => ?_
  subst hp
  refine hrevert.bind fun p hp => ensures_pure.mpr ⟨⟨hp.counters, fun k r hk => ?_, ?_⟩,
    ⟨h.idle.stage, h.idle.index⟩, h.undecided⟩
  · show k.2 < p.receptionOrderNext.getD 0
    rw [hp.next, Option.getD_some, hnext]
    exact reception_lt h.numbers.received k r hk
  · show VoteRows p.eventsSingletonsNew
    rw [hp.singletons]
    exact h.numbers.votes

theorem settleContentTx_raises (t : EventTables) (v : VerifiedEvent) (o : InsertEventOutcome) :
    Raises IsEventError (settleContentTx t v o) := by
  unfold settleContentTx
  split
  · exact .ok _
  split
  · exact (pruneEventContentTx_raises t v.id v.event).bind fun _ => .pure _
  split
  · exact .ok _
  · exact .ok _

/-- **Inside an envelope** nothing fails but the event operations, and these were dealt with above. -/
theorem processEventInnerTx_numbers (ctx : TxCtx) (h : Fit D env db) (hD : Ingestible D)
    (hdec : EmptyUnreadable) {v : VerifiedEvent} (hv : v ∈ D) (now : Timestamp)
    (source : EventReceivedSource) :
    Ensures (processEventInnerTx env ctx db v now source)
      (fun r => Numbers (spentWith db.ev v) r.1 ∧ Idle r.1 ∧ r.1.quotaPruned = ∅) IsEventError := by
  unfold processEventInnerTx
  refine (((ensures_self (insertEventTx db.ev v)).and (insertEventTx_effect db.ev v)).and
    (insertEventTx_raises db.ev v)).mono (fun _ h => h) (fun _ h => h.2) |>.bind fun ⟨t, o⟩ hr => ?_
  obtain ⟨⟨hins, heff⟩, -⟩ := hr
  have hkeyed : KeyedBy D t := (heff.grounded h.ground.1 hv).keyed
  have hrest : Ensures (afterOutcomeTx env ctx { db with ev := t } v now source o)
      (fun db' => Numbers (spentWith db.ev v) db' ∧ Idle db' ∧ db'.quotaPruned = ∅)
      (fun _ => False) := by
    unfold spentWith
    cases heff with
    | present e he hreg ht ho =>
      obtain rfl : o = _ := ho
      rw [he]
      exact ⟨⟨h.numbers.counters, h.numbers.received, h.numbers.votes⟩,
        ⟨h.idle.stage, h.idle.index⟩, h.undecided⟩
    | new hnew hreg wm isD dp rev mp hi ho =>
      obtain rfl : o = _ := ho
      rw [hnew]
      refine afterInsertTx_numbers ctx h hD.unambiguous hdec hv hins ?_ now source
      exact (hi.spent hnew).trans ((spent_le_load t).trans (hkeyed.load_le hD.room))
  refine (hrest.mono (fun _ h => h) fun _ h => h.elim).bind fun db₂ h₂ => ?_
  refine Ensures.bind (settleContentTx_raises db₂.ev v o) fun r _ => ensures_pure.mpr ?_
  exact ⟨⟨h₂.1.counters, h₂.1.received, h₂.1.votes⟩, ⟨h₂.2.1.stage, h₂.2.1.index⟩, h₂.2.2⟩

/-- The tables of posts follow whatever a transaction does. -/
theorem Projected.effect (h : Projected env D db) (hI : OnGround D (StoreContext D) db.ev)
    (heff : DbEffect env D db db') (hcf : CollisionFree D) (hinj : Function.Injective blake3)
    (hun : Unambiguous D) (hdec : EmptyUnreadable) : Projected env D db' :=
  have hposts := heff.posts hI h.owned hcf hinj hun hdec
  ⟨heff.storeOwned h.owned, hposts.exact h.tables, hposts.reads h.reads⟩

/-- **An envelope of `D` commits**, and the state it leaves is one in which the next delivery commits. -/
theorem processEventTx_fit (ctx : TxCtx) (h : Fit D env db) (hD : Ingestible D)
    (hinj : Function.Injective blake3) (hdec : EmptyUnreadable) {v : VerifiedEvent} (hv : v ∈ D)
    (now : Timestamp) (source : EventReceivedSource) :
    Ensures (processEventTx env ctx db v now source)
      (fun r => Fit D env r.1 ∧ EnvelopeEffect db v r.1) (fun _ => False) := by
  have hkeeps := ready_keeps hinj hD.unambiguous hD.parents hD.prefixes hD.room
  have hground : Ensures (processEventTx env ctx db v now source) _ _ :=
    processEventTx_keeps hkeeps hD.ids h.ground hv now source
  have hnumbers : Ensures (processEventTx env ctx db v now source)
      (fun r => Numbers (spentWith db.ev v) r.1 ∧ Idle r.1 ∧ r.1.quotaPruned = ∅) IsEventError := by
    have hwhole := h.ground.2.storedWhole hD.unambiguous h.ground.1.keyed
    unfold processEventTx
    refine Ensures.bind ((payloadBeforeTx_ok env hwhole v).weaken fun _ h => h.elim) fun before _ => ?_
    refine (processEventInnerTx_numbers ctx h hD hdec hv now source).bind fun r hr => ?_
    refine (((payloadAfterTx_idle env hr.2.1 before).and
      (payloadAfterTx_ensures env r.1 before)).mono (fun _ h => h) fun _ h => h.1.elim).bind
        fun db' ⟨hidle, a, x, hdb'⟩ => ensures_pure.mpr ?_
    subst hdb'
    exact ⟨⟨hr.1.counters, hr.1.received, hr.1.votes⟩, ⟨hidle.stage, hidle.index⟩, hr.2.2⟩
  refine ((hground.and (processEventTx_effect env ctx db v now source)).and hnumbers).mono
    (fun r hr => ?_) fun e he => he.1.1.2 he.2
  obtain ⟨⟨hground', heff⟩, hnum, hidle, hundecided⟩ := hr
  exact ⟨⟨hground', h.projected.effect ⟨h.ground.1, h.ground.2.1.1.1⟩ (.envelope hv heff) hD.ids hinj
    hD.unambiguous hdec, hnum.mono heff.spent, hidle, hundecided⟩, heff⟩

omit [Primitives] in
/-- Awaited content leaves room for its number. -/
theorem spent_lt_of_missing {t : EventTables} {id : ShortEventId} {e : Event}
    (he : t.events.get id = some e) (hm : contentClass t id = .missing) (hload : load t ≤ u64Max) :
    spent t < u64Max := by
  let t' : EventTables := { t with eventsContentState := t.eventsContentState.remove id }
  have hoff : ∀ id', id' ≠ id → contentClass t' id' = contentClass t id' := fun id' hne => by
    rw [contentClass, Table.get_remove_of_ne _ hne, contentClass]
  have hnew : contentClass t' id ≠ .missing := by simp [t', contentClass, classOf]
  have hspent : spent t' = spent t + 1 := spent_settle rfl he hoff hm hnew
  have hsame : load t' = load t := load_congr rfl
  have hle := spent_le_load t'
  rw [hspent, hsame] at hle
  exact hle.trans hload

/-- **A payload** adds one to the numbers at most, which its event provides for. -/
theorem PayloadEffect.numbers {ctx : TxCtx} {c : VerifiedEventContent} {now : Timestamp}
    (h : PayloadEffect env ctx db c now db') (hst : db.ev.events.get c.event.id = some c.event.event)
    (hn : Numbers (spent db.ev) db) (hload : load db.ev ≤ u64Max) :
    Numbers (spent db'.ev) db' := by
  cases h with
  | idle h => exact hn
  | processed b hb hm hlen p hp u =>
    have hlt := spent_lt_of_missing hst hm hload
    have hp' := (processEventContentInsertedTx_numbered hn.counters hlt env ctx _ now).of_ok hp
    refine Numbers.mono (n := spent db.ev + 1) ⟨hp'.counters, fun k r hk =>
      (hn.received k r hk).trans_le hp'.next, hn.votes.inserted hp⟩ (Nat.le_of_eq (Eq.symm ?_))
    refine spent_settle rfl hst (fun id hid => ?_) hm (by simp [contentClass, classOf])
    dsimp only
    rw [contentClass, Table.get_remove_of_ne _ hid, contentClass]
  | rejected b hb hm hlen hp rc u =>
    have hn' := hn.mono (Nat.le_succ (spent db.ev))
    refine Numbers.mono (n := spent db.ev + 1) ⟨hn'.counters, hn'.received, hn'.votes⟩
      (Nat.le_of_eq (Eq.symm ?_))
    refine spent_settle rfl hst (fun id hid => ?_) hm (by simp [contentClass, classOf])
    dsimp only
    rw [contentClass, Table.get_insert_of_ne _ _ hid, contentClass]
  | deleted b hb hd hlen =>
    have hl := withLineage_lessened hn.counters c.toEventContent
    refine ⟨hl.counters, fun k r hk => ?_, ?_⟩
    · show k.2 < (withLineage db.proj c.toEventContent).receptionOrderNext.getD 0
      rw [hl.next]
      exact hn.received k r hk
    · show VoteRows (withLineage db.proj c.toEventContent).eventsSingletonsNew
      rw [hl.singletons]
      exact hn.votes

/-- No payload of awaited content is refused by a projection. -/
theorem Fit.accepts (h : Fit D env db) (hroom : Roomy D) (ctx : TxCtx) {c : VerifiedEventContent}
    (hst : db.ev.events.get c.event.id = some c.event.event)
    (hm : contentClass db.ev c.event.id = .missing) (now : Timestamp) (e : DbError) :
    processEventContentInsertedTx env ctx db.proj c.toEventContent now ≠ .error (.db e) := by
  intro he
  have hlt := spent_lt_of_missing hst hm (h.ground.1.keyed.load_le hroom)
  rcases (processEventContentInsertedTx_numbered h.numbers.counters hlt env ctx _ now).of_error he with
    hinvalid | hvote | hreceipt
  · cases hinvalid
  · exact h.numbers.votes.no_error env ctx now hvote e he
  · -- a receipt would be that of a processed post
    have hsome := (h.projected.tables.received c.event.id).symm.trans hreceipt
    rw [shown, processedContent_of_class (by rw [hm]; decide)] at hsome
    cases hsome

theorem processEventContentInnerTx_raises (ctx : TxCtx) (h : Fit D env db) (hroom : Roomy D)
    {c : VerifiedEventContent} (hst : db.ev.events.get c.event.id = some c.event.event)
    (now : Timestamp) {ledger : AdmissionState} (hadm : ledger.config = none) :
    Raises IsEventError (processEventContentInnerTx env ctx db c now ledger none) := by
  have hmaterialize : contentClass db.ev c.event.id = .missing →
      Raises IsEventError (materializeTx env ctx db c now) := by
    intro hm
    unfold materializeTx
    dsimp only
    split
    · exact .ok _
    · split
      · exact Raises.bind (storeContentTx_raises _ _ _) fun _ => .pure _
      · exact Raises.bind (rejectContentTx_raises _ _) fun _ => .pure _
      · next e he => exact absurd he (h.accepts hroom ctx hst hm now e)
  unfold processEventContentInnerTx
  split
  · exact .ok _
  split
  · next hm =>
    have hpassed : admitMaterializationTx db c.event none ledger = .ok (none, ledger) := by
      simp [admitMaterializationTx, reservePayloadTx, hadm, bind, Except.bind, pure, Except.pure]
    rw [hpassed]
    exact hmaterialize ((canInsertEventContentTx_eq _ _).mp hm)
  · unfold supplyDeletedTx
    split
    · rw [deletedLineageTx_eq]
      exact .pure _
    · exact .ok _

/-- **A payload of `D` commits**, while admission is disabled. Otherwise it may be deferred, which is no error of
the payload. -/
theorem processEventContentTx_fit (h : Fit D env db) (hD : Ingestible D)
    (hinj : Function.Injective blake3) (hdec : EmptyUnreadable) {c : VerifiedEventContent}
    (hc : c.event ∈ D) (hst : db.ev.events.get c.event.id = some c.event.event) (now : Timestamp)
    {ledger : AdmissionState} (hadm : ledger.config = none) :
    Ensures (processEventContentTx env {} db c now ledger none) (Fit D env) (fun _ => False) := by
  have hkeeps := ready_keeps hinj hD.unambiguous hD.parents hD.prefixes hD.room
  have hkept : Ensures (processEventContentInnerTx env {} db c now ledger none) _ _ :=
    processEventContentInnerTx_keeps hkeeps h.ground
      (fun e he => Option.some.inj (he.symm.trans hst)) now ledger none
  have hinner := (hkept.and (processEventContentInnerTx_effect h.ground.1 hst now ledger none)).and
    (processEventContentInnerTx_raises {} h hD.room hst now hadm)
  have hwhole := h.ground.2.storedWhole hD.unambiguous h.ground.1.keyed
  have hI : OnGround D (StoreContext D) db.ev := ⟨h.ground.1, h.ground.2.1.1.1⟩
  unfold processEventContentTx
  refine Ensures.bind ((payloadBeforeTx_ok env hwhole c.event).weaken fun _ h => h.elim)
    fun before _ => ?_
  refine (hinner.mono (fun _ h => h) fun e he => he.1.1.2 he.2).bind fun db₁ hdb₁ => ?_
  obtain ⟨⟨hground, heff⟩, -⟩ := hdb₁
  have hidle : Idle db₁ ∧ db₁.quotaPruned = ∅ := by
    cases heff with
    | idle _ => exact ⟨h.idle, h.undecided⟩
    | processed _ _ _ _ _ _ _ => exact ⟨⟨h.idle.stage, h.idle.index⟩, h.undecided⟩
    | rejected _ _ _ _ _ _ _ => exact ⟨⟨h.idle.stage, h.idle.index⟩, h.undecided⟩
    | deleted _ _ _ _ => exact ⟨⟨h.idle.stage, h.idle.index⟩, h.undecided⟩
  have hproj := h.projected.effect hI (.payload hc hst heff) hD.ids hinj hD.unambiguous hdec
  have hnum := heff.numbers hst h.numbers (h.ground.1.keyed.load_le hD.room)
  refine ((payloadAfterTx_idle env hidle.1 before).and (payloadAfterTx_ensures env db₁ before)).mono
    (fun db' ⟨hidle', a, x, hdb'⟩ => ?_) fun _ h => h.1.elim
  subst hdb'
  exact ⟨hground, ⟨hproj.owned, hproj.tables, hproj.reads⟩,
    ⟨hnum.counters, hnum.received, hnum.votes⟩, hidle', hidle.2⟩

/-! ## 6. Whole runs

A run of ingestion transactions over such a set loses nothing: the deliveries of the committed
transactions, which is what the descriptions of runs in `History` speak of, are all deliveries. -/

/-- A payload comes while admission is not configured. -/
def Delivery.AdmissionDisabled : Delivery → Prop
  | .envelope .. => True
  | .payload _ _ ledger => ledger.config = none

/-- **One delivery commits**, and another one can follow. -/
theorem deliver_fit (h : Fit D env db) (hD : Ingestible D) (hinj : Function.Injective blake3)
    (hdec : EmptyUnreadable) {d : Delivery} (hd : d.event ∈ D) (hadm : d.AdmissionDisabled) :
    Ensures (deliver env db d) (Fit D env) (fun _ => False) := by
  cases d with
  | envelope v now source =>
    exact (processEventTx_fit {} h hD hinj hdec hd now source).bind fun r hr => ensures_pure.mpr hr.1
  | payload c now ledger =>
    refine (processEventTx_fit {} h hD hinj hdec hd now _).bind fun r hr => ?_
    exact processEventContentTx_fit hr.1 hD hinj hdec hd (hr.2.stored h.ground.1.keyed hD.ids hd) now
      hadm

/-- So does a transaction of any number of them. -/
theorem ingest_fit (h : Fit D env db) (hD : Ingestible D) (hinj : Function.Injective blake3)
    (hdec : EmptyUnreadable) {ds : List Delivery} (hds : ∀ d ∈ ds, d.event ∈ D)
    (hadm : ∀ d ∈ ds, d.AdmissionDisabled) :
    Ensures (step env db (.ingest ds)) (Fit D env) (fun _ => False) :=
  Ensures.foldlM ds db (fun d hd _ hdb => deliver_fit hdb hD hinj hdec (hds d hd) (hadm d hd)) h

/-- **Every transaction of a run commits**, so what was committed is what was delivered. -/
theorem committedDeliveries_all (env : Env) (hD : Ingestible D) (hinj : Function.Injective blake3)
    (hdec : EmptyUnreadable) {txs : List (List Delivery)}
    (hfrom : DeliveredFrom D (txs.map Op.ingest))
    (hadm : ∀ d ∈ txs.flatten, d.AdmissionDisabled) :
    committedDeliveries env txs = txs.flatten := by
  refine committedDeliveries_eq_flatten ?_
  rw [committed_eq (J := Fit D env) _ _ (fun o ho db hdb => ?_) (fit_empty D env), List.length_map]
  obtain ⟨ds, hds, rfl⟩ := List.mem_map.mp ho
  refine ingest_fit hdb hD hinj hdec (fun d hd => ?_) fun d hd =>
    hadm d (List.mem_flatten.mpr ⟨ds, hds, hd⟩)
  exact hfrom _ ho _ (List.mem_map.mpr ⟨d, hd, rfl⟩)

/-- The database at the end is one that more deliveries can follow. -/
theorem reached_fit (env : Env) (hD : Ingestible D) (hinj : Function.Injective blake3)
    (hdec : EmptyUnreadable) {txs : List (List Delivery)}
    (hfrom : DeliveredFrom D (txs.map Op.ingest))
    (hadm : ∀ d ∈ txs.flatten, d.AdmissionDisabled) :
    Fit D env (reached env (txs.map Op.ingest)) := by
  refine run_invariant _ _ (fun o ho db db' hdb hok => ?_) (fit_empty D env)
  obtain ⟨ds, hds, rfl⟩ := List.mem_map.mp ho
  refine (ingest_fit hdb hD hinj hdec (fun d hd => ?_) fun d hd =>
    hadm d (List.mem_flatten.mpr ⟨ds, hds, hd⟩)).of_ok hok
  exact hfrom _ ho _ (List.mem_map.mpr ⟨d, hd, rfl⟩)

end Commits

end Rostra.Db
