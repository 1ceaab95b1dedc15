/-
# The materialization feed

The feed is a dense append-only log of the posts that were materialized.  Its key comes from the last
row, its rows are written by one reducer only, and what a row names can be deleted or pruned later
but never be awaited again.

* `FeedHeld`: dense keys, no event twice, and every row names a post that is or was processed.  This
  holds in every state, and the log only grows.
* `FeedReadable`: what is still processed decodes.  Here the bytes matter: an empty header that
  claims the hash of a post takes its key in the store, and the scan finds the empty string there.
* A scan of a held and readable feed returns exactly one stretch of the log; pages with writers
  between them concatenate (`pagesOf_spec`).

That the two conditions come apart is the content of the last section. The log is exact whatever arrives, but a
scan also reads the posts, and for these the bytes have to be there.
-/
import Rostra.Db.Materialization
import Rostra.Proofs.Pieces
import Rostra.Proofs.Progress
import Rostra.Proofs.Reduction
import Rostra.Proofs.Store

namespace Rostra.Db

open Rostra Outcome

/-- The table of the feed. -/
abbrev feedOf (db : Database) : Table ℕ ShortEventId := db.proj.socialPostMaterializations

/-! ## 1. The next sequence number

The code has no counter: it takes the last key and adds one. -/

/-- Behind a dense log comes its length. The code computes it from the last key, and only density makes the two
agree. -/
theorem nextMaterializationTx_dense {p : Projections} {n : ℕ}
    (h : Log.Dense p.socialPostMaterializations n) :
    nextMaterializationTx p = if n ≤ u64Max then .ok n else .error (.overflow .materialization .add) := by
  unfold nextMaterializationTx
  cases n with
  | zero =>
    rw [h, Finset.range_zero, Table.greatest_empty]
    rfl
  | succ m =>
    have hgreatest : Table.greatest p.socialPostMaterializations.keys = some m := by
      rw [h]
      refine Table.greatest_eq_some (Finset.self_mem_range_succ m) fun k hk => ?_
      have := Finset.mem_range.mp hk
      omega
    rw [hgreatest]
    rfl

section Feed

variable [Primitives]

/-! ## 2. What a row stands for

A row remembers an event and no bytes. The payload it was materialized from is a matter of the history, and
`Occurrence` recovers it: there is a header in the run, and its content has the hash that the header names. -/

/-- `id` names a post that was materialized from these bytes. -/
structure Occurrence (t : EventTables) (id : ShortEventId) (e : Event) (b : Bytes) : Prop where
  stored : t.events.get id = some e
  kind : e.kind = EventKind.SOCIAL_POST
  settled : contentClass t id = .current ∨ contentClass t id = .deleted ∨
    contentClass t id = .pruned
  nonempty : 0 < e.contentLen
  hash : blake3 b = e.contentHash
  decodes : (Primitives.cborSocialPost b).isSome

/-- **The invariant of the log**: dense keys, each event once, and every row names a post that was materialized. -/
structure FeedHeld (db : Database) : Prop where
  dense : ∃ n ≤ u64Max, Log.Dense (feedOf db) n
  once : ∀ i j id, (feedOf db).get i = some id → (feedOf db).get j = some id → i = j
  posts : ∀ i id, (feedOf db).get i = some id → ∃ e b, Occurrence db.ev id e b

/-- **The invariant of the bytes**: what is still processed is in the store, with the bytes it was materialized
from. -/
def FeedReadable (db : Database) : Prop :=
  ∀ i id e b, (feedOf db).get i = some id → Occurrence db.ev id e b →
    contentClass db.ev id = .current → db.ev.contentStore.get e.contentHash = some b

theorem feedHeld_empty : FeedHeld {} := by
  refine ⟨⟨0, Nat.zero_le _, Log.dense_empty⟩, fun i j id hi => ?_, fun i id hi => ?_⟩
  · simp [feedOf] at hi
  · simp [feedOf] at hi

theorem feedReadable_empty : FeedReadable {} := by
  intro i id e b hi
  simp [feedOf] at hi

/-- A row tells its header, and the header its bytes, as long as no two payloads have one hash. -/
theorem Occurrence.unique {t : EventTables} {id : ShortEventId} {e e' : Event} {b b' : Bytes}
    (h : Occurrence t id e b) (h' : Occurrence t id e' b') (hinj : Function.Injective blake3) :
    e = e' ∧ b = b' := by
  have he := h.stored
  rw [h'.stored] at he
  cases he
  exact ⟨rfl, hinj (h.hash.trans h'.hash.symm)⟩

/-- What was settled stays settled. The row may be that of a deleted post later on, and never of one that is
awaited. -/
theorem Occurrence.mono {t t' : EventTables} {id : ShortEventId} {e : Event} {b : Bytes}
    (h : Occurrence t id e b) (he : t'.events.get id = some e)
    (hedge : Edge (contentClass t id) (contentClass t' id)) : Occurrence t' id e b := by
  refine ⟨he, h.kind, ?_, h.nonempty, h.hash, h.decodes⟩
  have hsettled := h.settled
  rcases hedge with heq | hdel | ⟨hpruned, -⟩ | ⟨hmissing, -⟩
  · rw [heq]
    exact hsettled
  · exact .inr (.inl hdel)
  · exact .inr (.inr hpruned)
  · rw [hmissing] at hsettled
    rcases hsettled with hc | hc | hc
    · cases hc
    · cases hc
    · cases hc

/-- Processed content that was settled before was processed before. -/
theorem Occurrence.was_current {t t' : EventTables} {id : ShortEventId} {e : Event} {b : Bytes}
    (h : Occurrence t id e b) (hedge : Edge (contentClass t id) (contentClass t' id))
    (hcur : contentClass t' id = .current) : contentClass t id = .current := by
  rw [hcur] at hedge
  rcases hedge with heq | hdel | ⟨hpruned, -⟩ | ⟨hmissing, -⟩
  · exact heq.symm
  · cases hdel
  · cases hpruned
  · have hsettled := h.settled
    rw [hmissing] at hsettled
    rcases hsettled with hc | hc | hc
    · cases hc
    · cases hc
    · cases hc

variable {D : Set VerifiedEvent} {Q : Set QuotaPruneRequest} {env : Env} {db db₁ db' : Database}
  {v : VerifiedEvent}

/-! ## 3. The one writer

Of all reducers one appends to the feed, and it does so for content that was awaited until then. -/

/-- A post is materialized: the payload `c` was awaited, and has one more row. -/
structure Materialized (D : Set VerifiedEvent) (db : Database) (c : VerifiedEventContent) (b : Bytes)
    (db₁ : Database) : Prop where
  mem : c.event ∈ D
  stored : db.ev.events.get c.event.id = some c.event.event
  bytes : c.content = some b
  awaited : contentClass db.ev c.event.id = .missing
  nonempty : 0 < c.event.event.contentLen
  projected : (projectedPost c.toEventContent).isSome
  current : contentClass db₁.ev c.event.id = .current
  appended : FeedAppended {} db.proj db₁.proj c.event.id
  store : db₁.ev.contentStore = storeWith db.ev c b

theorem arrivedProjections_feed {t : EventTables} {p p' : Projections} {isD : Bool}
    {dp : Option ShortEventId} {rev : Option Bytes}
    (h : arrivedProjections t p v isD dp rev = .ok p') :
    p'.socialPostMaterializations = p.socialPostMaterializations := by
  have hlined : (lineageArrived t p v isD).socialPostMaterializations =
      p.socialPostMaterializations := by
    unfold lineageArrived
    split
    · cases storedContent t v with
      | none => rfl
      | some c =>
        simp only [Option.elim_some, withLineage]
        split
        · rfl
        · rfl
    · rfl
  have hrev := arrivedProjections_reverted h
  cases hc : revertedContent t dp rev with
  | none =>
    simp only [hc] at hrev
    rw [hrev, hlined]
  | some c =>
    simp only [hc] at hrev
    rcases hrev with hok | ⟨-, heq⟩
    · rw [((processEventContentRevertedTx_beside _ c).of_ok hok).feed, hlined]
    · rw [heq, hlined]

theorem dematerializeTx_feed {target : QuotaPruneTarget} {p : Projections}
    (h : dematerializeTx db v target = .ok p) :
    p.socialPostMaterializations = db.proj.socialPostMaterializations := by
  cases target with
  | missing =>
    have hp : p = db.proj := dematerializeTx_reverted h
    rw [hp]
  | processed =>
    obtain ⟨c, -, hok⟩ := dematerializeTx_reverted h
    exact ((processEventContentRevertedTx_beside _ _).of_ok hok).feed

/-- **A reducer leaves the feed as it is, or materializes its event.** -/
theorem Reducer.feed (h : Reducer env D Q db v db₁) (hg : Grounded D db.ev) :
    feedOf db₁ = feedOf db ∨ ∃ c b, c.event = v ∧ Materialized D db c b db₁ := by
  cases h with
  | envelope hv h =>
    left
    cases (processEventInnerTx_effect env {} db v _ _).of_ok h with
    | present e he t₁ ht₁ hfin hproj hquota => rw [feedOf, hproj]
    | new hnew t₁ isD dp rev hins hfin next hproj hquota =>
      exact (arrivedProjections_feed hproj).trans rfl
  | @payload c now ledger buffer _ hc hst h =>
    cases (processEventContentInnerTx_effect hg hst now ledger buffer).of_ok h with
    | idle h => exact .inl rfl
    | processed b hb hm hlen p hp u =>
      have hfeed := ((processEventContentInsertedTx_reduction env {} db.proj _ _).of_ok hp).ranksFeed
      cases hpost : projectedPost c.toEventContent with
      | none =>
        simp only [hpost] at hfeed
        exact .inl hfeed.2
      | some post =>
        simp only [hpost] at hfeed
        refine .inr ⟨_, b, rfl, hc, hst, hb, hm, hg.nonempty _ hm _ hst, ?_, ?_, hfeed.2, rfl⟩
        · rw [hpost]
          rfl
        · simp [contentClass, classOf]
    | rejected b hb hm hlen hp rc u => exact .inl rfl
    | deleted b hb hd hlen =>
      left
      simp only [feedOf, withLineage]
      split
      · rfl
      · rfl
  | released hq h hp ht => exact .inl (dematerializeTx_feed hp)

omit [Primitives] in
theorem Aside.feed (h : Aside db db') : feedOf db' = feedOf db := by
  rcases h.proj with heq | ⟨postId, now, heq⟩
  · rw [feedOf, heq]
  · rw [feedOf, heq, recalculateNewsPostScoreTx_frame]
    rfl

/-- The payload of a materialized post, as the row remembers it. -/
theorem Materialized.occurrence {c : VerifiedEventContent} {b : Bytes}
    (h : Materialized D db c b db₁) (he : db₁.ev.events.get c.event.id = some c.event.event) :
    Occurrence db₁.ev c.event.id c.event.event b := by
  obtain ⟨hlen, hhash⟩ := c.length_and_hash h.bytes
  obtain ⟨post, hpost⟩ := Option.isSome_iff_exists.mp h.projected
  refine ⟨he, ?_, .inl h.current, h.nonempty, hhash, ?_⟩
  · by_contra hkind
    rw [projectedPost_other hkind] at hpost
    cases hpost
  · cases hdec : Primitives.cborSocialPost b with
    | some x => rfl
    | none =>
      have hnone : projectedPost c.toEventContent = none := by
        refine projectedPost_unreadable ?_
        rw [EventContent.socialPost?, show c.toEventContent.content = some b from h.bytes,
          Option.bind_some, hdec]
      rw [hnone] at hpost
      cases hpost

/-- The row of a materialized post is the one behind the last. The counter has room for it, or the transaction
would have failed. -/
theorem Materialized.feed {c : VerifiedEventContent} {b : Bytes} (h : Materialized D db c b db₁)
    {n : ℕ} (hd : Log.Dense (feedOf db) n) :
    n < u64Max ∧ feedOf db₁ = (feedOf db).insert n c.event.id := by
  have happ := h.appended
  unfold FeedAppended at happ
  rw [if_pos rfl] at happ
  obtain ⟨next, hnext, hmax, hfeed⟩ := happ
  rw [nextMaterializationTx_dense hd] at hnext
  split at hnext
  · next hle =>
    cases hnext
    exact ⟨lt_of_le_of_ne hle hmax, hfeed⟩
  · cases hnext

/-! ## 4. The log, in every state

No condition is needed up to here: whatever is delivered, the log is dense, names no event twice, and only grows. -/

/-- A row is kept where nothing was written but states and other headers. -/
theorem FeedHeld.same (h : FeedHeld db) (hfeed : feedOf db' = feedOf db)
    (hkept : ∀ id e b, Occurrence db.ev id e b → Occurrence db'.ev id e b) : FeedHeld db' := by
  refine ⟨?_, ?_, ?_⟩
  · rw [hfeed]
    exact h.dense
  · rw [hfeed]
    exact h.once
  · intro i id hi
    rw [hfeed] at hi
    obtain ⟨e, b, ho⟩ := h.posts i id hi
    exact ⟨e, b, hkept id e b ho⟩

theorem Footprint.occurrence (h : Footprint db v db₁) {id : ShortEventId} {e : Event} {b : Bytes}
    (ho : Occurrence db.ev id e b) : Occurrence db₁.ev id e b :=
  ho.mono (h.kept ho.stored) (h.edges id e ho.stored)

theorem Aside.occurrence (h : Aside db db') {id : ShortEventId} {e : Event} {b : Bytes}
    (ho : Occurrence db.ev id e b) : Occurrence db'.ev id e b := by
  refine ho.mono ?_ (.inl (h.classes id))
  rw [h.eq]
  exact ho.stored

/-- **One more row** for an event that has none. -/
theorem Materialized.feedHeld {c : VerifiedEventContent} {b : Bytes}
    (h : Materialized D db c b db₁) (hfoot : Footprint db c.event db₁) (hf : FeedHeld db) :
    FeedHeld db₁ ∧ Log.Extends (feedOf db) (feedOf db₁) := by
  obtain ⟨n, -, hd⟩ := hf.dense
  obtain ⟨hmax, heq⟩ := h.feed hd
  -- what is awaited is in no row
  have hnew : ∀ i, (feedOf db).get i ≠ some c.event.id := by
    intro i hi
    obtain ⟨e, b', ho⟩ := hf.posts i _ hi
    have hsettled := ho.settled
    rw [h.awaited] at hsettled
    rcases hsettled with hc | hc | hc
    · cases hc
    · cases hc
    · cases hc
  have hget : ∀ i id, (feedOf db₁).get i = some id →
      (feedOf db).get i = some id ∨ (i = n ∧ id = c.event.id) := by
    intro i id hi
    rw [heq, Table.get_insert] at hi
    split at hi
    · next hin =>
      cases hi
      exact .inr ⟨hin, rfl⟩
    · exact .inl hi
  refine ⟨⟨⟨n + 1, hmax, ?_⟩, fun i j id hi hj => ?_, fun i id hi => ?_⟩, ?_⟩
  · rw [heq]
    exact hd.append _
  · rcases hget i id hi with hi' | ⟨rfl, rfl⟩
    · rcases hget j id hj with hj' | ⟨-, rfl⟩
      · exact hf.once i j id hi' hj'
      · exact absurd hi' (hnew i)
    · rcases hget j _ hj with hj' | ⟨hjn, -⟩
      · exact absurd hj' (hnew j)
      · exact hjn.symm
  · rcases hget i id hi with hi' | ⟨-, rfl⟩
    · obtain ⟨e, b', ho⟩ := hf.posts i id hi'
      exact ⟨e, b', hfoot.occurrence ho⟩
    · exact ⟨_, b, h.occurrence (hfoot.kept h.stored)⟩
  · rw [heq]
    exact hd.append_extends _

/-- A reducer keeps the log, and only adds to it. -/
theorem Reducer.feedHeld (h : Reducer env D Q db v db₁) (hg : Grounded D db.ev)
    (hf : FeedHeld db) : FeedHeld db₁ ∧ Log.Extends (feedOf db) (feedOf db₁) := by
  have hfoot := h.footprint hg
  rcases h.feed hg with hsame | ⟨c, b, rfl, hm⟩
  · refine ⟨hf.same hsame fun id e b ho => hfoot.occurrence ho, ?_⟩
    rw [hsame]
    exact Log.Extends.refl _
  · exact hm.feedHeld hfoot hf

/-- So does maintenance. -/
theorem Aside.feedHeld (h : Aside db db') (hf : FeedHeld db) :
    FeedHeld db' ∧ Log.Extends (feedOf db) (feedOf db') := by
  refine ⟨hf.same h.feed fun id e b ho => h.occurrence ho, ?_⟩
  rw [h.feed]
  exact Log.Extends.refl _

/-- **Every piece keeps the log, and only adds to it.** -/
theorem Piece.feedHeld (h : Piece env D Q db db') (hg : Grounded D db.ev) (hf : FeedHeld db) :
    FeedHeld db' ∧ Log.Extends (feedOf db) (feedOf db') := by
  rcases h.bracket_or_aside with ⟨v, before, db₁, -, hred, ha, -⟩ | ha
  · obtain ⟨hf₁, hext⟩ := hred.feedHeld hg hf
    obtain ⟨hf', hext'⟩ := ha.feedHeld hf₁
    exact ⟨hf', hext.trans hext'⟩
  · exact ha.feedHeld hf

/-! ## 5. The bytes, when no empty header takes their key

Content is stored under the hash that its header names. A header of length zero is not checked against its hash, so
it can put the empty string under the hash of a post. A run without such headers keeps what is processed readable. -/

/-- No empty header of `D` names the hash of a nonempty post of `D`. -/
def UnambiguousPosts (D : Set VerifiedEvent) : Prop :=
  ∀ v ∈ D, v.event.contentLen = 0 → ∀ c : VerifiedEventContent, c.event ∈ D →
    c.event.event.kind = EventKind.SOCIAL_POST → 0 < c.event.event.contentLen →
    c.event.event.contentHash ≠ v.event.contentHash

/-- A payload that is stored finds its key free, or its own bytes there. -/
theorem StoreLaw.get_storeWith {t : EventTables} (hlaw : StoreLaw D t)
    (hinj : Function.Injective blake3) {c : VerifiedEventContent} {b : Bytes}
    (hb : c.content = some b)
    (hfree : ∀ v ∈ D, v.event.contentLen = 0 →
      c.event.event.contentHash ≠ v.event.contentHash) :
    (storeWith t c b).get c.event.event.contentHash = some b := by
  unfold storeWith
  cases hrow : t.contentStore.get c.event.event.contentHash with
  | none => simp
  | some b' =>
    rw [if_neg (by simp), hrow]
    rcases hlaw _ _ hrow with hl | ⟨-, v, hv, hlen, hhash⟩
    · exact congrArg some (hinj (hl.trans (c.length_and_hash hb).2.symm))
    · exact absurd hhash.symm (hfree v hv hlen)

/-- Bytes are never replaced. A key that is taken keeps what it holds. -/
theorem Footprint.get_store (h : Footprint db v db₁) {k : ContentHash} {b : Bytes}
    (hb : db.ev.contentStore.get k = some b) : db₁.ev.contentStore.get k = some b := by
  rcases h.store with heq | ⟨hnone, b', -, heq⟩
  · rw [heq]
    exact hb
  · rw [heq, Table.get_insert_of_ne _ _ ?_]
    · exact hb
    · rintro rfl
      rw [hnone] at hb
      cases hb

/-- A reducer keeps what is readable, and materializes what is. -/
theorem Reducer.feedReadable (h : Reducer env D Q db v db₁) (hg : Grounded D db.ev)
    (hlaw : StoreLaw D db.ev) (hinj : Function.Injective blake3) (hun : UnambiguousPosts D)
    (hf : FeedHeld db) (hr : FeedReadable db) : FeedReadable db₁ := by
  have hfoot := h.footprint hg
  -- a row that was there: its bytes are there as well
  have hold : ∀ i id e b, (feedOf db).get i = some id → Occurrence db₁.ev id e b →
      contentClass db₁.ev id = .current → db₁.ev.contentStore.get e.contentHash = some b := by
    intro i id e b hi ho hcur
    obtain ⟨e', b', ho'⟩ := hf.posts i id hi
    obtain ⟨rfl, rfl⟩ := (hfoot.occurrence ho').unique ho hinj
    have hwas := ho'.was_current (hfoot.edges id e' ho'.stored) hcur
    exact hfoot.get_store (hr i id e' b' hi ho' hwas)
  rcases h.feed hg with hsame | ⟨c, b, rfl, hm⟩
  · intro i id e b hi
    rw [hsame] at hi
    exact hold i id e b hi
  · obtain ⟨n, -, hd⟩ := hf.dense
    obtain ⟨-, heq⟩ := hm.feed hd
    intro i id e b' hi ho hcur
    rw [heq, Table.get_insert] at hi
    split at hi
    · cases hi
      obtain ⟨rfl, rfl⟩ := (hm.occurrence (hfoot.kept hm.stored)).unique ho hinj
      rw [hm.store]
      refine hlaw.get_storeWith hinj hm.bytes fun w hw hlen => ?_
      exact hun w hw hlen c hm.mem ho.kind hm.nonempty
    · exact hold i id e b' hi ho hcur

/-- Maintenance collects no bytes that a processed post refers to. -/
theorem Aside.feedReadable (h : Aside db db')
    (hstore : db'.ev.contentStore = db.ev.contentStore ∨ Balanced db.ev) (hf : FeedHeld db)
    (hinj : Function.Injective blake3) (hr : FeedReadable db) : FeedReadable db' := by
  intro i id e b hi ho hcur
  rw [h.feed] at hi
  rw [h.classes id] at hcur
  obtain ⟨e', b', ho'⟩ := hf.posts i id hi
  obtain ⟨rfl, rfl⟩ := (h.occurrence ho').unique ho hinj
  have hget := hr i id e' b' hi ho' hcur
  rcases hstore with heq | hbal
  · rw [heq]
    exact hget
  · rcases h.store with heq | ⟨k, hk, heq⟩
    · rw [heq]
      exact hget
    · rw [heq, Table.get_remove_of_ne _ ?_]
      · exact hget
      · intro hkey
        have hunref := hbal.unreferenced hk ho'.stored hkey
        rw [hcur] at hunref
        cases hunref

theorem Piece.feedReadable (h : Piece env D Q db db')
    (hI : OnGround D (fun t => Balanced t ∧ StoreLaw D t) db.ev) (hinj : Function.Injective blake3)
    (hun : UnambiguousPosts D) (hf : FeedHeld db) (hr : FeedReadable db) : FeedReadable db' := by
  rcases h.bracket_or_aside with ⟨v, before, db₁, -, hred, ha, hstore⟩ | ha
  · exact ha.feedReadable (.inl hstore) (hred.feedHeld hI.1 hf).1 hinj
      (hred.feedReadable hI.1 hI.2.2 hinj hun hf hr)
  · exact ha.feedReadable (.inr hI.2.1) hf hinj hr

/-! ## 6. A scan

A scan reads the log from a cursor and resolves each row. It may end because the limit or the log is over; it may
be refused because the cursor or the limit is no good; it never ends because a row is bad. -/

/-- The number of rows, which is the position of the tip. -/
def feedLength (db : Database) : ℕ := (feedOf db).keys.card

theorem FeedHeld.length (h : FeedHeld db) :
    feedLength db ≤ u64Max ∧ Log.Dense (feedOf db) (feedLength db) := by
  obtain ⟨n, hmax, hd⟩ := h.dense
  have hlen : feedLength db = n := by
    rw [feedLength, hd, Finset.card_range]
  rw [hlen]
  exact ⟨hmax, hd⟩

theorem FeedHeld.next (h : FeedHeld db) : nextMaterializationTx db.proj = .ok (feedLength db) := by
  rw [nextMaterializationTx_dense h.length.2, if_pos h.length.1]

/-- What a resolved row names. -/
theorem resolveSocialPostMaterializationTx_names (db : Database) (id : ShortEventId) :
    Ensures (resolveSocialPostMaterializationTx db id) (fun item => item.postId.eventId = id)
      (fun _ => True) := by
  unfold resolveSocialPostMaterializationTx
  split
  · trivial
  split
  · trivial
  split
  · exact rfl
  · exact rfl
  · trivial
  · trivial
  unfold resolveProcessedTx
  split
  · trivial
  split
  · trivial
  split
  · exact rfl
  · exact rfl

/-- **No row is corrupt.** Whatever has become of the post since, a scan can say what it is. -/
theorem FeedHeld.resolves (h : FeedHeld db) (hr : FeedReadable db) {i : ℕ} {id : ShortEventId}
    (hi : (feedOf db).get i = some id) :
    ∃ item, resolveSocialPostMaterializationTx db id = .ok item := by
  obtain ⟨e, b, ho⟩ := h.posts i id hi
  unfold resolveSocialPostMaterializationTx
  simp only [ho.stored, ho.kind, ne_eq, not_true_eq_false, if_false]
  have hread := hr i id e b hi ho
  have hsettled := ho.settled
  unfold contentClass at hsettled hread
  cases hst : db.ev.eventsContentState.get id with
  | none =>
    obtain ⟨post, hpost⟩ := Option.isSome_iff_exists.mp ho.decodes
    unfold resolveProcessedTx
    rw [hread (by rw [hst]; rfl)]
    simp only [hpost]
    split
    · exact ⟨_, rfl⟩
    · exact ⟨_, rfl⟩
  | some st =>
    rw [hst] at hsettled
    cases st with
    | deleted by' => exact ⟨_, rfl⟩
    | pruned => exact ⟨_, rfl⟩
    | missing last count next => simp [classOf] at hsettled
    | invalid => simp [classOf] at hsettled

/-- **One page**: the rows from the cursor on, as many as the limit allows. -/
structure PageExact (db : Database) (start limit : ℕ) (page : SocialPostMaterializationPage) :
    Prop where
  items : List.Forall₂ (fun id item => resolveSocialPostMaterializationTx db id = .ok item)
    (Log.between (feedOf db) start page.scannedThrough.position) page.items
  position : page.scannedThrough.position = min (start + limit) (feedLength db)
  exhausted : page.exhausted = true ↔ page.scannedThrough.position = feedLength db

/-- The loop walks down the limit, row by row. The induction is on the limit, for every cursor within the feed. -/
theorem scanLoop_exact (h : FeedHeld db) (hr : FeedReadable db) (limit : ℕ) :
    ∀ c, c ≤ feedLength db → ∃ page,
      scanLoop db limit ((feedOf db).rowsFrom c) c = .ok page ∧ PageExact db c limit page := by
  obtain ⟨hmax, hd⟩ := h.length
  have hend : ∀ limit c, c = feedLength db → ∃ page,
      scanLoop db limit ((feedOf db).rowsFrom c) c = .ok page ∧ PageExact db c limit page := by
    intro limit c hc
    refine ⟨⟨[], ⟨c⟩, true⟩, ?_, ?_, ?_, ?_⟩
    · rw [hd.rowsFrom_end hc.ge]
      cases limit with
      | zero => rfl
      | succ limit => rfl
    · rw [Log.between_self]
      exact .nil
    · show c = _
      omega
    · simp [hc]
  induction limit with
  | zero =>
    intro c hc
    rcases hc.eq_or_lt with heq | hlt
    · exact hend 0 c heq
    obtain ⟨id, hid⟩ := hd.isSome.mpr hlt
    refine ⟨⟨[], ⟨c⟩, false⟩, ?_, ?_, ?_, ?_⟩
    · rw [hd.rowsFrom_cons hid]
      simp only [scanLoop, checkSequence, ne_eq, not_true_eq_false, if_false]
      rfl
    · rw [Log.between_self]
      exact .nil
    · show c = _
      omega
    · simp only [Bool.false_eq_true, false_iff]
      omega
  | succ limit ih =>
    intro c hc
    rcases hc.eq_or_lt with heq | hlt
    · exact hend (limit + 1) c heq
    obtain ⟨id, hid⟩ := hd.isSome.mpr hlt
    obtain ⟨item, hitem⟩ := h.resolves hr hid
    obtain ⟨page, hpage, hexact⟩ := ih (c + 1) hlt
    have hpos := hexact.position
    refine ⟨{ page with items := item :: page.items }, ?_, ?_, ?_, hexact.exhausted⟩
    · rw [hd.rowsFrom_cons hid]
      simp only [scanLoop, checkSequence, ne_eq, not_true_eq_false, if_false]
      have hnext : checkedAdd .materialization c 1 = .ok (c + 1) := by
        unfold checkedAdd
        rw [if_pos (by omega)]
      rw [hitem, hnext]
      show (do
        let page ← scanLoop db limit ((feedOf db).rowsFrom (c + 1)) (c + 1)
        pure { page with items := item :: page.items }) = _
      rw [hpage]
      rfl
    · rw [Log.between_cons (by show c < page.scannedThrough.position; omega) hid]
      exact .cons hitem hexact.items
    · show page.scannedThrough.position = _
      omega

/-- Where a scan starts. -/
def scanStart (after : Option SocialPostMaterializationCursor) : ℕ :=
  (after.map (·.position)).getD 0

/-- **Every scan**: a page, or one of the two refusals that concern the request alone. -/
def ScanExact (db : Database) (after : Option SocialPostMaterializationCursor) (limit : ℕ+) : Prop :=
  match scanSocialPostMaterializations db after limit with
  | .ok page => (limit : ℕ) ≤ SOCIAL_POST_MATERIALIZATION_SCAN_MAX ∧
      scanStart after ≤ feedLength db ∧ PageExact db (scanStart after) limit page
  | .error e =>
      (SOCIAL_POST_MATERIALIZATION_SCAN_MAX < (limit : ℕ) ∧
        e = .scanLimitTooHigh limit SOCIAL_POST_MATERIALIZATION_SCAN_MAX) ∨
      (feedLength db < scanStart after ∧
        e = .cursorOutOfRange (scanStart after) (feedLength db))

theorem FeedHeld.scan_ok (h : FeedHeld db) (hr : FeedReadable db)
    {after : Option SocialPostMaterializationCursor} {limit : ℕ+}
    (hlimit : (limit : ℕ) ≤ SOCIAL_POST_MATERIALIZATION_SCAN_MAX)
    (hafter : scanStart after ≤ feedLength db) :
    ∃ page, scanSocialPostMaterializations db after limit = .ok page ∧
      PageExact db (scanStart after) limit page := by
  obtain ⟨page, hpage, hexact⟩ := scanLoop_exact h hr limit _ hafter
  refine ⟨page, ?_, hexact⟩
  unfold scanSocialPostMaterializations
  rw [if_neg (by omega), h.next]
  show (if feedLength db < scanStart after then _ else _) = _
  rw [if_neg (by omega)]
  exact hpage

theorem FeedHeld.scan_exact (h : FeedHeld db) (hr : FeedReadable db)
    (after : Option SocialPostMaterializationCursor) (limit : ℕ+) : ScanExact db after limit := by
  unfold ScanExact
  by_cases hlimit : SOCIAL_POST_MATERIALIZATION_SCAN_MAX < (limit : ℕ)
  · have herr : scanSocialPostMaterializations db after limit =
        .error (.scanLimitTooHigh limit SOCIAL_POST_MATERIALIZATION_SCAN_MAX) := by
      unfold scanSocialPostMaterializations
      rw [if_pos hlimit]
      rfl
    rw [herr]
    exact .inl ⟨hlimit, rfl⟩
  rw [not_lt] at hlimit
  by_cases hafter : feedLength db < scanStart after
  · have herr : scanSocialPostMaterializations db after limit =
        .error (.cursorOutOfRange (scanStart after) (feedLength db)) := by
      unfold scanSocialPostMaterializations
      rw [if_neg (by omega), h.next]
      show (if feedLength db < scanStart after then _ else _) = _
      rw [if_pos hafter]
      rfl
    rw [herr]
    exact .inr ⟨hafter, rfl⟩
  rw [not_lt] at hafter
  obtain ⟨page, hpage, hexact⟩ := h.scan_ok hr hlimit hafter
  rw [hpage]
  exact ⟨hlimit, hafter, hexact⟩

/-! ## 7. Pages, with writers between them

A consumer reads a page, remembers the cursor, and comes back later. Since the log only grows, the page it reads
then starts where the last one ended. -/

/-- The events that a page reports. -/
def SocialPostMaterializationPage.ids (page : SocialPostMaterializationPage) : List ShortEventId :=
  page.items.map fun item => item.postId.eventId

theorem PageExact.ids {start limit : ℕ} {page : SocialPostMaterializationPage}
    (h : PageExact db start limit page) :
    page.ids = Log.between (feedOf db) start page.scannedThrough.position := by
  have hitems := h.items
  unfold SocialPostMaterializationPage.ids
  generalize Log.between (feedOf db) start page.scannedThrough.position = ids at hitems
  generalize page.items = items at hitems
  induction hitems with
  | nil => rfl
  | cons hitem _ ih =>
    rw [List.map_cons, ih, (resolveSocialPostMaterializationTx_names db _).of_ok hitem]

/-- A consumer: writers run, then the next page is read from the last cursor. -/
def pagesOf (env : Env) : Database → SocialPostMaterializationCursor → List (List Op × ℕ+) →
    ScanResult (List SocialPostMaterializationPage × Database)
  | db, _, [] => .ok ([], db)
  | db, cursor, (ops, limit) :: rest => do
    let db := run (step env) db ops
    let page ← scanSocialPostMaterializations db (some cursor) limit
    let (pages, db) ← pagesOf env db page.scannedThrough rest
    return (page :: pages, db)

/-- The pages concatenate to the log between the first cursor and the last, as it is in the end. -/
structure PagesExact (db' : Database) (start last : ℕ)
    (pages : List SocialPostMaterializationPage) : Prop where
  ids : pages.flatMap SocialPostMaterializationPage.ids = Log.between (feedOf db') start last
  le : start ≤ last ∧ last ≤ feedLength db'
  none : pages = [] → last = start
  /-- The last page tells whether this is all there is. -/
  final : ∀ page, pages.getLast? = some page → page.scannedThrough.position = last ∧
    (page.exhausted = true ↔ last = feedLength db')

/-- What the readers rely on: the ground that reached states have, the log itself, and the bytes behind it. -/
structure Scannable (D : Set VerifiedEvent) (db : Database) : Prop where
  ground : OnGround D (fun t => Balanced t ∧ StoreLaw D t) db.ev
  held : FeedHeld db
  readable : FeedReadable db

theorem scannable_empty (D : Set VerifiedEvent) : Scannable D {} :=
  ⟨⟨grounded_empty D, balanced_empty, storeLaw_empty D⟩, feedHeld_empty, feedReadable_empty⟩

/-- **The log grows along a run**, in any case: nothing is asked of headers without content. -/
theorem FeedHeld.run (h : FeedHeld db) (env : Env) (hcf : CollisionFree D) (hg : Grounded D db.ev)
    (ops : List Op) (hD : DeliveredFrom D ops) :
    FeedHeld (run (step env) db ops) ∧
      Log.Extends (feedOf db) (feedOf (Outcome.run (step env) db ops)) := by
  constructor
  · exact (run_pieces env (anything_keeps D) hcf (fun _ _ hI _ hp hf => (hp.feedHeld hI.1 hf).1)
      ops hD (requestedFrom_univ ops) ⟨hg, trivial⟩ h).2
  · exact run_pieces_relation (R := fun s s' => Log.Extends (feedOf s) (feedOf s')) env
      (anything_keeps D) hcf (fun s => Log.Extends.refl _) (fun _ _ _ hs hs' => hs.trans hs')
      (fun _ _ hI _ hp hf => hp.feedHeld hI.1 hf) ops hD (requestedFrom_univ ops) ⟨hg, trivial⟩ h

/-- What the readers rely on holds along a run without ambiguous headers. -/
theorem Scannable.run (h : Scannable D db) (env : Env) (hcf : CollisionFree D)
    (hinj : Function.Injective blake3) (hun : UnambiguousPosts D) (ops : List Op)
    (hD : DeliveredFrom D ops) : Scannable D (run (step env) db ops) := by
  have hkeeps := (balanced_keeps D).and (storeLaw_keeps D).anyContext
  have hrun := run_pieces (J := fun s => FeedHeld s ∧ FeedReadable s) env hkeeps hcf
    (fun _ _ hI _ hp hs => ⟨(hp.feedHeld hI.1 hs.1).1, hp.feedReadable hI hinj hun hs.1 hs.2⟩) ops hD
    (requestedFrom_univ ops) h.ground ⟨h.held, h.readable⟩
  exact ⟨hrun.1, hrun.2.1, hrun.2.2⟩

/-- One turn of the consumer. -/
theorem pagesOf_cons (env : Env) {cursor : SocialPostMaterializationCursor} {ops : List Op}
    {limit : ℕ+} {rest : List (List Op × ℕ+)} {page : SocialPostMaterializationPage}
    (h : scanSocialPostMaterializations (run (step env) db ops) (some cursor) limit = .ok page) :
    pagesOf env db cursor ((ops, limit) :: rest) =
      (pagesOf env (run (step env) db ops) page.scannedThrough rest).map
        fun r => (page :: r.1, r.2) := by
  rw [pagesOf]
  show (scanSocialPostMaterializations (run (step env) db ops) (some cursor) limit >>= _) = _
  rw [h]
  show (pagesOf env (run (step env) db ops) page.scannedThrough rest >>=
    fun r => pure (page :: r.1, r.2)) = _
  cases pagesOf env (run (step env) db ops) page.scannedThrough rest with
  | ok r => rfl
  | error e => rfl

/-- Reading changes nothing: the writers alone made the state in the end. -/
theorem pagesOf_run (env : Env) {schedule : List (List Op × ℕ+)} :
    ∀ {db db' : Database} {cursor : SocialPostMaterializationCursor}
      {pages : List SocialPostMaterializationPage},
      pagesOf env db cursor schedule = .ok (pages, db') →
        db' = run (step env) db (schedule.flatMap Prod.fst) ∧ pages.length = schedule.length := by
  induction schedule with
  | nil =>
    intro db db' cursor pages h
    cases h
    exact ⟨rfl, rfl⟩
  | cons s rest ih =>
    intro db db' cursor pages h
    obtain ⟨ops, limit⟩ := s
    rw [pagesOf] at h
    obtain ⟨page, -, h⟩ := bind_eq_ok.mp h
    obtain ⟨r, hr, h⟩ := bind_eq_ok.mp h
    cases h
    obtain ⟨hdb, hlength⟩ := ih hr
    refine ⟨?_, by rw [List.length_cons, List.length_cons, hlength]⟩
    rw [List.flatMap_cons, run_append]
    exact hdb

/-- **Pages concatenate**, whatever the writers do between them, and whatever the size of each page is. -/
theorem pagesOf_exact (env : Env) (hcf : CollisionFree D) (hinj : Function.Injective blake3)
    (hun : UnambiguousPosts D) (schedule : List (List Op × ℕ+)) :
    ∀ (db : Database) (cursor : SocialPostMaterializationCursor), Scannable D db →
      cursor.position ≤ feedLength db → DeliveredFrom D (schedule.flatMap Prod.fst) →
      (∀ s ∈ schedule, (s.2 : ℕ) ≤ SOCIAL_POST_MATERIALIZATION_SCAN_MAX) →
      ∃ pages db' last, pagesOf env db cursor schedule = .ok (pages, db') ∧ FeedHeld db' ∧
        Log.Extends (feedOf db) (feedOf db') ∧ PagesExact db' cursor.position last pages := by
  induction schedule with
  | nil =>
    intro db cursor hs hcursor _ _
    refine ⟨[], db, cursor.position, rfl, hs.held, Log.Extends.refl _, ?_, ⟨le_rfl, hcursor⟩,
      fun _ => rfl, nofun⟩
    rw [Log.between_self]
    rfl
  | cons s rest ih =>
    intro db cursor hs hcursor hD hlimits
    obtain ⟨ops, limit⟩ := s
    have hDops : DeliveredFrom D ops := fun o ho => hD o (by simp [ho])
    have hs₁ := hs.run env hcf hinj hun ops hDops
    obtain ⟨-, hext₁⟩ := hs.held.run env hcf hs.ground.1 ops hDops
    have hcursor₁ := hcursor.trans (hext₁.length_le hs.held.length.2 hs₁.held.length.2)
    have hscan : ∃ page, scanSocialPostMaterializations (run (step env) db ops) (some cursor) limit =
        .ok page ∧ PageExact (run (step env) db ops) cursor.position limit page :=
      hs₁.held.scan_ok hs₁.readable (hlimits (ops, limit) (by simp)) hcursor₁
    obtain ⟨page, hpage, hexact⟩ := hscan
    have hpos := hexact.position
    obtain ⟨pages, db', last, hpages, hheld', hext', hrest⟩ := ih (run (step env) db ops)
      page.scannedThrough hs₁ (by omega) (fun o ho => hD o (by simp [ho]))
      fun s hs => hlimits s (by simp [hs])
    have hle := hrest.le
    refine ⟨page :: pages, db', last, ?_, hheld', hext₁.trans hext', ?_, ⟨by omega, hle.2⟩, nofun, ?_⟩
    · rw [pagesOf_cons env hpage, hpages]
      rfl
    · -- the first page was read from an earlier state of the same log
      have hfirst : page.ids =
          Log.between (feedOf db') cursor.position page.scannedThrough.position := by
        rw [hexact.ids, hext'.between hs₁.held.length.2 (by omega)]
      rw [List.flatMap_cons, hfirst, hrest.ids]
      exact Log.between_append _ (by omega) hle.1
    · intro p hp
      cases pages with
      | nil =>
        cases hp
        obtain ⟨rfl, hlength⟩ := pagesOf_run env hpages
        obtain rfl : rest = [] := List.eq_nil_of_length_eq_zero hlength.symm
        rw [hrest.none rfl]
        exact ⟨rfl, hexact.exhausted⟩
      | cons q qs =>
        rw [List.getLast?_cons_cons] at hp
        exact hrest.final p hp

/-! ## 8. Along every run

What has been shown of one state, for every state of a run and for every cursor that was handed out in it. -/

/-- A cursor that a state hands out: its tip, or the end of one of its pages. -/
def Issued (db : Database) (cursor : SocialPostMaterializationCursor) : Prop :=
  getSocialPostMaterializationTip db = .ok cursor ∨
    ∃ after limit page, scanSocialPostMaterializations db after limit = .ok page ∧
      page.scannedThrough = cursor

/-- **The feed of one state**: dense keys, every event at most once, nothing but posts that were materialized, and
exact scans. -/
structure FeedExact (db : Database) : Prop where
  dense : (feedOf db).keys = Finset.range (feedLength db)
  once : ∀ i j id, (feedOf db).get i = some id → (feedOf db).get j = some id → i = j
  posts : ∀ i id, (feedOf db).get i = some id → ∃ e, db.ev.events.get id = some e ∧
    e.kind = EventKind.SOCIAL_POST ∧
    (contentClass db.ev id = .current ∨ contentClass db.ev id = .deleted ∨
      contentClass db.ev id = .pruned)
  tip : getSocialPostMaterializationTip db = .ok ⟨feedLength db⟩
  /-- No scan reports corruption. -/
  scan : ∀ after limit, ScanExact db after limit

theorem Scannable.exact (h : Scannable D db) : FeedExact db := by
  refine ⟨h.held.length.2, h.held.once, fun i id hi => ?_, ?_, h.held.scan_exact h.readable⟩
  · obtain ⟨e, b, ho⟩ := h.held.posts i id hi
    exact ⟨e, ho.stored, ho.kind, ho.settled⟩
  · unfold getSocialPostMaterializationTip
    rw [h.held.next]
    rfl

/-- An issued cursor is within the feed. -/
theorem FeedExact.issued (h : FeedExact db) {cursor : SocialPostMaterializationCursor}
    (hc : Issued db cursor) : cursor.position ≤ feedLength db := by
  rcases hc with htip | ⟨after, limit, page, hpage, rfl⟩
  · rw [h.tip] at htip
    cases htip
    exact le_rfl
  · have hscan := h.scan after limit
    rw [ScanExact, hpage] at hscan
    have := hscan.2.2.position
    omega

/-- **The feed is exact in every state of a run** in which no empty header names the hash of a post;
it only grows; and from any cursor it issued, any pages with any writers between them return every
later occurrence once and in order. -/
theorem feed_exact (env : Env) (hcf : CollisionFree D) (hinj : Function.Injective blake3)
    (hun : UnambiguousPosts D) (ops later : List Op) (hD : DeliveredFrom D (ops ++ later)) :
    FeedExact (reached env ops) ∧
      Log.Extends (feedOf (reached env ops)) (feedOf (reached env (ops ++ later))) ∧
      ∀ (schedule : List (List Op × ℕ+)) (cursor : SocialPostMaterializationCursor),
        DeliveredFrom D (schedule.flatMap Prod.fst) →
        (∀ s ∈ schedule, (s.2 : ℕ) ≤ SOCIAL_POST_MATERIALIZATION_SCAN_MAX) →
        Issued (reached env ops) cursor →
        ∃ pages last, pagesOf env (reached env ops) cursor schedule =
            .ok (pages, reached env (ops ++ schedule.flatMap Prod.fst)) ∧
          PagesExact (reached env (ops ++ schedule.flatMap Prod.fst)) cursor.position last pages := by
  have hs : Scannable D (reached env ops) := (scannable_empty D).run env hcf hinj hun ops
    fun o ho => hD o (List.mem_append_left _ ho)
  refine ⟨hs.exact, ?_, fun schedule cursor hDs hlimits hissued => ?_⟩
  · rw [reached, reached, run_append]
    exact (hs.held.run env hcf hs.ground.1 later fun o ho => hD o (List.mem_append_right _ ho)).2
  · obtain ⟨pages, db', last, hpages, -, -, hexact⟩ := pagesOf_exact env hcf hinj hun schedule
      (reached env ops) cursor hs (hs.exact.issued hissued) hDs hlimits
    obtain ⟨rfl, -⟩ := pagesOf_run env hpages
    rw [reached, reached, run_append]
    exact ⟨pages, last, hpages, hexact⟩

end Feed

section Sample

attribute [local instance] Primitives.reference

def sampleSecondPost : VerifiedEventContent :=
  ⟨⟨.ofEvent { samplePost with timestamp := 4, author := toLex (2, 2) }, some [0, 65]⟩, by decide⟩

/-- Two posts with one payload arrive between the pages; the first is deleted before it is read. -/
def sampleSchedule : List (List Op × ℕ+) :=
  [([.ingest [.payload samplePayload 5 {}], .ingest [.payload sampleSecondPost 6 {}],
      .ingest [.envelope (.ofEvent sampleDeletion) 7 .local]], 1), ([], 5)]

def sampleFeedOps : List Op := sampleSchedule.flatMap Prod.fst

/-- Two pages with a deletion between them; the second reports the deleted post as such. -/
theorem feed_exact_sampleSchedule :
    (∃ pages last, pagesOf sampleEnv {} ⟨0⟩ sampleSchedule =
        .ok (pages, reached sampleEnv sampleFeedOps) ∧
      PagesExact (reached sampleEnv sampleFeedOps) 0 last pages) ∧
    (feedOf (reached sampleEnv sampleFeedOps)).get 0 = some 1 ∧
      (feedOf (reached sampleEnv sampleFeedOps)).get 1 = some 4 := by
  have hun : UnambiguousPosts (envelopesOf sampleFeedOps) := by
    have hall : ∀ v ∈ sampleFeedOps.flatMap Op.delivered, v.event.contentLen = 0 →
        v.event.contentHash = blake3 [] := by decide
    intro v hv hlen c _ _ hpos heq
    obtain ⟨b, hb⟩ := c.content_isSome hpos
    obtain ⟨hblen, hbhash⟩ := c.length_and_hash hb
    rw [heq, hall v hv hlen] at hbhash
    rw [Primitives.reference_injective hbhash] at hblen
    simp only [List.length_nil] at hblen
    omega
  obtain ⟨-, -, hpages⟩ := feed_exact sampleEnv (collisionFree_envelopesOf (by decide))
    Primitives.reference_injective hun [] sampleFeedOps (deliveredFrom_envelopesOf sampleFeedOps)
  refine ⟨hpages sampleSchedule ⟨0⟩ (deliveredFrom_envelopesOf sampleFeedOps) (by decide)
    (.inl (by decide +kernel)), by decide +kernel, by decide +kernel⟩

/-! ## 9. An empty header that takes the key of a post

The condition of section 5 is not an artefact: without it a scan fails. -/

def misnamingHeader : Event :=
  { kind := ⟨0⟩, contentLen := 0, timestamp := 9, author := toLex (3, 3)
    contentHash := samplePost.contentHash }

def misnamedPostRun : List Op :=
  [.ingest [.envelope (.ofEvent misnamingHeader) 4 .local], .ingest [.payload samplePayload 5 {}]]

/-- **The scan reports corruption** for a processed post whose key was taken by an empty header. -/
theorem feed_misnamed :
    let db := reached sampleEnv misnamedPostRun
    (feedOf db).get 0 = some samplePayload.event.id ∧
      contentClass db.ev samplePayload.event.id = .current ∧
      scanSocialPostMaterializations db none 1 =
        .error (.invalidContent samplePayload.event.id) := by
  refine ⟨by decide +kernel, by decide +kernel, by decide +kernel⟩

end Sample

end Rostra.Db
