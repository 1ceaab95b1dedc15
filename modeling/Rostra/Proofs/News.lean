/-
# The news ranks

`news.rs`: a news post that is processed has one record, and one row in each of two orders, by score
and by creation time.  Four operations write them: a post that is applied, a post that is taken back
by a deletion or by a quota release, and a recalculation, which also drops what has become too old.

* `Ordered`: both orders are the rows of the record table (`Contributed`), and each writer keeps
  them so, at any clock value.
* `NewsPost`: what a ranked id stands for.  A reversal needs the bytes of the post it takes back.
  The snapshot before a reducer refuses processed content whose bytes are not its own
  (`payloadBeforeTx_owned`), so no rank is ever left behind.

The hard part is not the orders but the end of a rank. A rank is written by a payload and ended by an operation
that has a header and some bytes, much later; if these were not the bytes that had written it, a row would stay
behind for ever.
-/
import Rostra.Lib.Index
import Rostra.Proofs.Pieces
import Rostra.Proofs.Reduction
import Rostra.Proofs.Store

namespace Rostra.Db

open Rostra Outcome Index

/-! ## 1. The score

The score is computed from the age of a post and its votes, in wide integers, and cut off in the end. Nothing is
cut off before, and more votes never lower it, whatever the clock shows. -/

/-- The score is computed without overflow, and more votes never lower it. -/
structure ScoreSound : Prop where
  /-- The numerator of a sum in `i64` stays in `i128`. -/
  numerator : ∀ voteSum : ℤ, -2 ^ 63 ≤ voteSum → voteSum < 2 ^ 63 →
    -2 ^ 127 ≤ voteSum * 10000 ∧ voteSum * 10000 < 2 ^ 127 ∧ 10 + voteSum * 10000 < 2 ^ 127
  /-- The denominator is positive and stays in `i128` as well. -/
  denominator : ∀ created now : Timestamp, now ≤ u64Max →
    0 < (now - created) / 3600 + 1 ∧ (now - created) / 3600 + 1 < 2 ^ 127
  range : ∀ (created : Timestamp) (voteSum : ℤ) (now : Timestamp),
    -2 ^ 63 ≤ calculateNewsScore created voteSum now ∧
      calculateNewsScore created voteSum now < 2 ^ 63
  monotone : ∀ (created now : Timestamp) (voteSum voteSum' : ℤ), voteSum ≤ voteSum' →
    calculateNewsScore created voteSum now ≤ calculateNewsScore created voteSum' now

theorem satI64_range (x : ℤ) : -2 ^ 63 ≤ satI64 x ∧ satI64 x < 2 ^ 63 := by
  unfold satI64
  constructor
  · exact le_max_left _ _
  · omega

theorem satI64_mono {x y : ℤ} (h : x ≤ y) : satI64 x ≤ satI64 y := by
  unfold satI64
  omega

theorem calculateNewsScore_mono (created now : Timestamp) {voteSum voteSum' : ℤ}
    (h : voteSum ≤ voteSum') :
    calculateNewsScore created voteSum now ≤ calculateNewsScore created voteSum' now := by
  unfold calculateNewsScore
  refine satI64_mono (Int.tdiv_le_tdiv ?_ ?_)
  · have : 0 < (now - created) / 3600 + 1 := Nat.succ_pos _
    exact_mod_cast this
  · omega

theorem scoreSound : ScoreSound where
  numerator voteSum hlow hhigh := by
    refine ⟨?_, ?_, ?_⟩
    · omega
    · omega
    · omega
  denominator created now hnow := by
    have hdiv : (now - created) / 3600 ≤ now := (Nat.div_le_self ..).trans (Nat.sub_le ..)
    have hmax : u64Max + 1 < 2 ^ 127 := by decide
    exact ⟨Nat.succ_pos _, lt_of_le_of_lt (Nat.succ_le_succ (hdiv.trans hnow)) hmax⟩
  range created voteSum now := satI64_range _
  monotone created now _ _ h := calculateNewsScore_mono created now h

/-! ## 2. Two orders of one table

The keys of both orders are computed from the record and end in the id of the post. To move a row, the code first
removes the one that the old record gives. -/

def rowByScore (p : ExternalEventId) (r : SocialNewsRankRecord) : Option (ℤ × ExternalEventId) :=
  some (r.score, p)

def rowByTime (p : ExternalEventId) (r : SocialNewsRankRecord) :
    Option (Timestamp × ExternalEventId) :=
  some (r.creationTs, p)

/-- **The orders**: each has one row for each record, and no other. A record tells both of its keys. -/
structure Ordered (n : NewsPart) : Prop where
  byScore : Contributed n.byPostId.get rowByScore n.byScore
  byTime : Contributed n.byPostId.get rowByTime n.byTime

theorem keyed_rowByScore : Keyed rowByScore := by
  intro k x k' x' r h h'
  have heq : some (x.score, k) = some (x'.score, k') := h.trans h'.symm
  simp only [Option.some.injEq, Prod.mk.injEq] at heq
  exact heq.2

theorem keyed_rowByTime : Keyed rowByTime := by
  intro k x k' x' r h h'
  have heq : some (x.creationTs, k) = some (x'.creationTs, k') := h.trans h'.symm
  simp only [Option.some.injEq, Prod.mk.injEq] at heq
  exact heq.2

theorem ordered_empty : Ordered (newsPart {}) :=
  ⟨contributed_empty rowByScore, contributed_empty rowByTime⟩

/-- Ranking a post moves its row in both orders. -/
theorem upsertSocialNewsRankTx_ordered {p : Projections} (h : Ordered (newsPart p))
    (id : ExternalEventId) (ts : Timestamp) (score : ℤ) :
    Ordered (newsPart (upsertSocialNewsRankTx p id ts score)) := by
  unfold upsertSocialNewsRankTx
  cases hget : p.socialNewsRankByPostId.get id with
  | none => exact ⟨h.byScore.insertRow hget rfl, h.byTime.insertRow hget rfl⟩
  | some existing =>
    exact ⟨h.byScore.replaceRow keyed_rowByScore hget rfl rfl,
      h.byTime.replaceRow keyed_rowByTime hget rfl rfl⟩

theorem removeSocialNewsRankTx_ordered {p : Projections} (h : Ordered (newsPart p))
    (id : ExternalEventId) : Ordered (newsPart (removeSocialNewsRankTx p id)) := by
  unfold removeSocialNewsRankTx
  split
  · exact h
  · next existing hget =>
    exact ⟨h.byScore.removeRow keyed_rowByScore hget rfl,
      h.byTime.removeRow keyed_rowByTime hget rfl⟩

/-- **Recalculation** keeps the orders at any clock value. It drops a post that is too old, moves one whose score
has changed, and leaves the others. -/
theorem recalculateNewsPostScoreTx_ordered {p : Projections} (h : Ordered (newsPart p))
    (id : ExternalEventId) (now : Timestamp) :
    Ordered (newsPart (recalculateNewsPostScoreTx p id now).1) := by
  unfold recalculateNewsPostScoreTx
  split
  · exact h
  split
  · exact removeSocialNewsRankTx_ordered h id
  dsimp only
  split
  · exact h
  · exact upsertSocialNewsRankTx_ordered h id _ _

theorem upsertSocialNewsRankTx_get (p : Projections) (id : ExternalEventId) (ts : Timestamp)
    (score : ℤ) (id' : ExternalEventId) :
    (newsPart (upsertSocialNewsRankTx p id ts score)).byPostId.get id' =
      if id' = id then some ⟨ts, score⟩ else (newsPart p).byPostId.get id' := by
  unfold upsertSocialNewsRankTx
  dsimp only
  split
  · exact Table.get_insert ..
  · exact Table.get_insert ..

theorem removeSocialNewsRankTx_get (p : Projections) (id id' : ExternalEventId) :
    (newsPart (removeSocialNewsRankTx p id)).byPostId.get id' =
      if id' = id then none else (newsPart p).byPostId.get id' := by
  unfold removeSocialNewsRankTx
  split
  · next hnone =>
    split
    · next hid =>
      rw [hid]
      exact hnone
    · rfl
  · exact Table.get_remove ..

/-- A recalculation ranks nothing that was not ranked. -/
theorem recalculateNewsPostScoreTx_get {p : Projections} {id id' : ExternalEventId} {now : Timestamp}
    {r : SocialNewsRankRecord}
    (h : (newsPart (recalculateNewsPostScoreTx p id now).1).byPostId.get id' = some r) :
    ∃ r', (newsPart p).byPostId.get id' = some r' := by
  unfold recalculateNewsPostScoreTx at h
  split at h
  · exact ⟨r, h⟩
  next existing hget =>
  split at h
  · rw [removeSocialNewsRankTx_get] at h
    split at h
    · cases h
    · exact ⟨r, h⟩
  dsimp only at h
  split at h
  · exact ⟨r, h⟩
  · rw [upsertSocialNewsRankTx_get] at h
    split at h
    · next hid => exact ⟨existing, hid ▸ hget⟩
    · exact ⟨r, h⟩

/-! ## 3. What a rank stands for

A rank can only be taken back by someone who still has the bytes of the post. So what is ranked has to be
processed, and what is processed has to be readable. -/

section Held

variable [Primitives]

/-- `id` names a processed news post: its header, and the bytes of its own that decode to it. -/
structure NewsPost (t : EventTables) (id : ExternalEventId) (e : Event) (b : Bytes)
    (post : SocialPost) : Prop where
  stored : t.events.get id.eventId = some e
  author : e.author = id.rostraId
  kind : e.kind = EventKind.SOCIAL_POST
  processed : t.eventsContentState.get id.eventId = none
  nonempty : 0 < e.contentLen
  small : e.contentLen < MAX_CONTENT_LEN
  length : b.length = e.contentLen
  hash : blake3 b = e.contentHash
  projected : projectedPost ⟨.ofEvent e, some b⟩ = some post
  news : post.news = true

/-- Every ranked id names one. -/
def NewsHeld (t : EventTables) (n : NewsPart) : Prop :=
  ∀ id r, n.byPostId.get id = some r → ∃ e b post, NewsPost t id e b post

/-- **The invariant**: the orders are those of the records, and each record stands for a processed news post. -/
structure Ranks (db : Database) : Prop where
  ordered : Ordered (newsPart db.proj)
  held : NewsHeld db.ev (newsPart db.proj)

theorem ranks_empty : Ranks {} := by
  refine ⟨ordered_empty, fun id r hr => ?_⟩
  simp [newsPart] at hr

/-- It lasts as long as the header is there and the content is processed. -/
theorem NewsPost.mono {t t' : EventTables} {id : ExternalEventId} {e : Event} {b : Bytes}
    {post : SocialPost} (h : NewsPost t id e b post) (he : t'.events.get id.eventId = some e)
    (hst : t'.eventsContentState.get id.eventId = none) : NewsPost t' id e b post :=
  ⟨he, h.author, h.kind, hst, h.nonempty, h.small, h.length, h.hash, h.projected, h.news⟩

variable {D : Set VerifiedEvent} {Q : Set QuotaPruneRequest} {env : Env} {db db₁ db' : Database}
  {v : VerifiedEvent}

/-- No new rank, and what is still ranked is still processed. -/
theorem Ranks.mono (h : Ranks db) (hord : Ordered (newsPart db'.proj))
    (hsub : ∀ id r, (newsPart db'.proj).byPostId.get id = some r →
      ∃ r', (newsPart db.proj).byPostId.get id = some r')
    (hkept : ∀ id r e b post, (newsPart db'.proj).byPostId.get id = some r →
      NewsPost db.ev id e b post → db'.ev.events.get id.eventId = some e ∧
        db'.ev.eventsContentState.get id.eventId = none) : Ranks db' := by
  refine ⟨hord, fun id r hr => ?_⟩
  obtain ⟨r', hr'⟩ := hsub id r hr
  obtain ⟨e, b, post, hp⟩ := h.held id r' hr'
  obtain ⟨he, hst⟩ := hkept id r e b post hr hp
  exact ⟨e, b, post, hp.mono he hst⟩

/-- The same when the ranks are as they were. -/
theorem Ranks.same (h : Ranks db) (hnews : newsPart db'.proj = newsPart db.proj)
    (hkept : ∀ id e b post, NewsPost db.ev id e b post →
      db'.ev.events.get id.eventId = some e ∧
        db'.ev.eventsContentState.get id.eventId = none) : Ranks db' := by
  refine h.mono (hnews ▸ h.ordered) (fun id r hr => ⟨r, hnews ▸ hr⟩) ?_
  intro id _ e b post _ hp
  exact hkept id e b post hp

/-- The bytes of a processed post are the only ones of their length that the store can hold. -/
theorem NewsPost.bytes {t : EventTables} {id : ExternalEventId} {e : Event} {b b' : Bytes}
    {post : SocialPost} (h : NewsPost t id e b post) (hinj : Function.Injective blake3)
    (hlaw : StoreLaw D t) (hb' : t.contentStore.get e.contentHash = some b')
    (hlen : b'.length = e.contentLen) : b' = b := by
  have hpos := h.nonempty
  rcases hlaw _ _ hb' with hl | ⟨rfl, -⟩
  · exact hinj (hl.trans h.hash.symm)
  · simp only [List.length_nil] at hlen
    omega

/-- The ranks without what one payload had ranked. -/
def loweredNews (p : Projections) (c : EventContent) : NewsPart :=
  match projectedPost c with
  | some post => unrankedNews p c post
  | none => newsPart p

theorem RevertedBeside.news {p p' : Projections} {c : EventContent} (h : RevertedBeside p p' c) :
    newsPart p' = loweredNews p c := by
  unfold RevertedBeside at h
  unfold loweredNews
  cases hc : projectedPost c with
  | some post =>
    simp only [hc] at h
    exact h.news
  | none =>
    simp only [hc] at h
    rw [h]

theorem loweredNews_congr {p p' : Projections} (c : EventContent) (h : newsPart p' = newsPart p) :
    loweredNews p' c = loweredNews p c := by
  unfold loweredNews unrankedNews
  split
  · split
    · exact removeSocialNewsRankTx_news p p' _ h
    · exact h
  · exact h

theorem unrankedNews_ordered {p : Projections} (h : Ordered (newsPart p)) (c : EventContent)
    (post : SocialPost) : Ordered (unrankedNews p c post) := by
  unfold unrankedNews
  split
  · exact removeSocialNewsRankTx_ordered h _
  · exact h

theorem loweredNews_ordered {p : Projections} (h : Ordered (newsPart p)) (c : EventContent) :
    Ordered (loweredNews p c) := by
  unfold loweredNews
  split
  · exact unrankedNews_ordered h c _
  · exact h

/-- **Taking back the bytes of a post ends its rank**, because they are the bytes that had ranked it. -/
theorem loweredNews_get {p : Projections} (hheld : NewsHeld db.ev (newsPart p)) {e : Event}
    {b : Bytes} (he : db.ev.events.get (VerifiedEvent.ofEvent e).id = some e)
    (hown : ∀ id b' post, NewsPost db.ev id e b' post → b' = b)
    {id : ExternalEventId} {r : SocialNewsRankRecord}
    (h : (loweredNews p ⟨.ofEvent e, some b⟩).byPostId.get id = some r) :
    (newsPart p).byPostId.get id = some r ∧ id.eventId ≠ (VerifiedEvent.ofEvent e).id := by
  have hsub : (newsPart p).byPostId.get id = some r := by
    unfold loweredNews unrankedNews at h
    split at h
    · split at h
      · rw [removeSocialNewsRankTx_get] at h
        split at h
        · cases h
        · exact h
      · exact h
    · exact h
  refine ⟨hsub, fun hid => ?_⟩
  obtain ⟨e', b', post, hp⟩ := hheld id r hsub
  have hst := hp.stored
  rw [hid, he] at hst
  cases hst
  obtain rfl := hown id b' post hp
  -- the payload taken back is the one the rank stands for
  simp only [loweredNews, unrankedNews, hp.projected, hp.news, if_true] at h
  rw [removeSocialNewsRankTx_get, if_pos] at h
  · cases h
  · obtain ⟨a, i⟩ := id
    exact ExternalEventId.mk.injEq .. ▸ ⟨hp.author.symm, hid⟩

/-- What is taken back loses its rank, and the rest stays. -/
theorem Ranks.lowered (h : Ranks db) {e : Event} {b : Bytes}
    (he : db.ev.events.get (VerifiedEvent.ofEvent e).id = some e)
    (hown : ∀ id b' post, NewsPost db.ev id e b' post → b' = b)
    (hnews : newsPart db'.proj = loweredNews db.proj ⟨.ofEvent e, some b⟩)
    (hkept : ∀ id e' b' post, id.eventId ≠ (VerifiedEvent.ofEvent e).id →
      NewsPost db.ev id e' b' post → db'.ev.events.get id.eventId = some e' ∧
        db'.ev.eventsContentState.get id.eventId = none) : Ranks db' := by
  have hget : ∀ id r, (newsPart db'.proj).byPostId.get id = some r →
      (newsPart db.proj).byPostId.get id = some r ∧
        id.eventId ≠ (VerifiedEvent.ofEvent e).id := by
    intro id r hr
    rw [hnews] at hr
    exact loweredNews_get h.held he hown hr
  refine h.mono ?_ (fun id r hr => ⟨r, (hget id r hr).1⟩) ?_
  · rw [hnews]
    exact loweredNews_ordered h.ordered _
  · intro id r e' b' post hr hp
    exact hkept id e' b' post (hget id r hr).2 hp

/-! ## 4. The three reducers

An envelope may delete the content of its parent, a payload may be a news post, and a release takes one back. -/

/-- The ranks after a new header: those of the deleted parent are taken back. -/
theorem arrivedProjections_news {t : EventTables} {p p' : Projections} {isD : Bool}
    {dp : Option ShortEventId} {rev : Option Bytes}
    (h : arrivedProjections t p v isD dp rev = .ok p') :
    newsPart p' = match revertedContent t dp rev with
      | some c => loweredNews p c
      | none => newsPart p := by
  have hlined : newsPart (lineageArrived t p v isD) = newsPart p := by
    unfold lineageArrived
    split
    · cases storedContent t v with
      | none => rfl
      | some c =>
        simp only [Option.elim_some, withLineage]
        split
        · rfl
        · rfl
    · rfl
  have hrev := arrivedProjections_reverted h
  cases hc : revertedContent t dp rev with
  | none =>
    simp only [hc] at hrev ⊢
    rw [hrev, hlined]
  | some c =>
    simp only [hc] at hrev ⊢
    rw [← loweredNews_congr c hlined]
    rcases hrev with hok | ⟨hpost, heq⟩
    · exact ((processEventContentRevertedTx_beside _ c).of_ok hok).news
    · rw [heq, loweredNews, hpost]

/-- **An envelope** ends the rank of the parent whose content it deletes. The bytes are handed over by the
insertion. -/
theorem EnvelopeEffect.ranks {before : PayloadBefore} (h : EnvelopeEffect db v db₁)
    (hI : OnGround D (StoreLaw D) db.ev) (hcf : CollisionFree D) (hinj : Function.Injective blake3)
    (hv : v ∈ D) (hbefore : payloadBeforeTx env db.ev v = .ok before) (hr : Ranks db) :
    Ranks db₁ := by
  cases h with
  | present e he t₁ ht₁ hfin hproj hquota =>
    refine hr.same (by rw [hproj]) fun id e' b post hp => ?_
    refine ⟨by rw [hfin.events, ht₁]; exact hp.stored, ?_⟩
    rcases hfin.state with hst | ⟨-, hwhy | hwhy, hst⟩
    · rw [hst, ht₁]
      exact hp.processed
    · -- a ranked post is not oversized
      by_cases hid : id.eventId = v.id
      · have hstored := hp.stored
        rw [hid] at hstored
        rw [← hI.1.keyed.event_eq hcf hv hstored] at hwhy
        have := hp.small
        omega
      · rw [hst, Table.get_insert_of_ne _ _ hid, ht₁]
        exact hp.processed
    · exact hwhy.elim
  | new hnew t₁ isD dp rev hins hfin next hproj hquota =>
    have hnews := arrivedProjections_news hproj
    have hne : ∀ {id : ShortEventId} {e : Event}, db.ev.events.get id = some e → id ≠ v.id := by
      rintro id e he rfl
      rw [hnew] at he
      cases he
    -- headers are kept, and states outside the deleted parent
    have hkept : ∀ id e b post, NewsPost db.ev id e b post → dp ≠ some id.eventId →
        db₁.ev.events.get id.eventId = some e ∧
          db₁.ev.eventsContentState.get id.eventId = none := by
      intro id e b post hp hdp
      have hid := hne hp.stored
      refine ⟨?_, ?_⟩
      · rw [hfin.events, hins.events, Table.get_insert_of_ne _ _ hid]
        exact hp.stored
      · have hst₁ := (hins.state_other _ hid hdp).trans hp.processed
        rcases hfin.state with hst | ⟨-, -, hst⟩
        · rw [hst, hst₁]
        · rw [hst, Table.get_insert_of_ne _ _ hid, hst₁]
    cases hdp : dp with
    | none =>
      subst hdp
      have hnone : revertedContent t₁ none rev = none := by
        rw [hins.parent_none rfl]
        rfl
      rw [hnone] at hnews
      exact hr.same hnews fun id e b post hp => hkept id e b post hp nofun
    | some q =>
      subst hdp
      obtain ⟨e, he, -, hdel, hrev⟩ := hins.parent q rfl
      have hq : q = (VerifiedEvent.ofEvent e).id := (hI.1.keyed.id_eq he).symm
      have hmem : q ∈ affectedIds v := mem_affectedIds_parent hdel.2
      have he₁ : t₁.events.get q = some e := by
        rw [hins.events, Table.get_insert_of_ne _ _ (hne he), he]
      cases hb : handedBack db.ev q e with
      | none =>
        have hnone : revertedContent t₁ (some q) rev = none := by
          rw [hrev, hb]
          rfl
        rw [hnone] at hnews
        refine hr.same hnews fun id e' b post hp => hkept id e' b post hp ?_
        -- the parent was not processed, so it is not ranked
        intro hid
        cases hid
        have hstored := hp.stored
        rw [he] at hstored
        cases hstored
        obtain ⟨b', hb', -⟩ := payloadBeforeTx_owned hbefore hmem he hp.processed
        rw [handedBack, if_pos (by rw [hp.processed]; rfl), hb'] at hb
        cases hb
      | some b =>
        have hsome : revertedContent t₁ (some q) rev = some ⟨.ofEvent e, some b⟩ := by
          simp [revertedContent, hrev, hb, he₁]
        rw [hsome] at hnews
        unfold handedBack at hb
        split at hb
        · next hst =>
          obtain ⟨b', hb', hlen⟩ :=
            payloadBeforeTx_owned hbefore hmem he (Option.isNone_iff_eq_none.mp hst)
          rw [hb] at hb'
          cases hb'
          have hlowered : newsPart db₁.proj = loweredNews db.proj ⟨.ofEvent e, some b⟩ :=
            hnews.trans (loweredNews_congr _ rfl)
          refine hr.lowered (hq ▸ he) (fun id b' post hp => ?_) hlowered
            fun id e' b' post hid hp => ?_
          · exact (hp.bytes hinj hI.2 hb hlen).symm
          · refine hkept id e' b' post hp fun hdp => hid ?_
            cases hdp
            exact hq
        · cases hb

/-- The ranks after a post was applied. -/
theorem rankedNews_ordered {p : Projections} (h : Ordered (newsPart p)) (c : EventContent)
    (post : SocialPost) (now : Timestamp) : Ordered (rankedNews p c post now) := by
  unfold rankedNews
  split
  · exact upsertSocialNewsRankTx_ordered h _ _ _
  · exact h

theorem rankedNews_get {p : Projections} {c : EventContent} {post : SocialPost} {now : Timestamp}
    {id : ExternalEventId} {r : SocialNewsRankRecord}
    (h : (rankedNews p c post now).byPostId.get id = some r) :
    (newsPart p).byPostId.get id = some r ∨
      (id = ⟨c.event.event.author, c.event.id⟩ ∧ post.news = true) := by
  unfold rankedNews at h
  split at h
  · next hn =>
    rw [upsertSocialNewsRankTx_get] at h
    split at h
    · next hid => exact .inr ⟨hid, hn⟩
    · exact .inl h
  · exact .inl h

/-- A payload that is projected as a post names one that is now processed. -/
theorem newsPost_of_processed {t : EventTables} {c : VerifiedEventContent} {b : Bytes}
    {post : SocialPost} (hb : c.content = some b) (hpost : projectedPost c.toEventContent = some post)
    (hnews : post.news = true) (hlen : c.event.event.contentLen < MAX_CONTENT_LEN)
    (hpos : 0 < c.event.event.contentLen) (hst : t.events.get c.event.id = some c.event.event)
    (hcur : t.eventsContentState.get c.event.id = none) :
    NewsPost t ⟨c.event.event.author, c.event.id⟩ c.event.event b post := by
  obtain ⟨hlength, hhash⟩ := c.length_and_hash hb
  have hsame : (⟨.ofEvent c.event.event, some b⟩ : EventContent) = c.toEventContent := by
    obtain ⟨⟨v, o⟩, hver⟩ := c
    obtain rfl : o = some b := hb
    rw [VerifiedEvent.ofEvent_self]
  refine ⟨hst, rfl, ?_, hcur, hpos, hlen, hlength, hhash, hsame ▸ hpost, hnews⟩
  by_contra hkind
  rw [projectedPost_other hkind] at hpost
  cases hpost

/-- **A payload** may rank the post it brings, with the score zero. -/
theorem PayloadEffect.ranks {c : VerifiedEventContent} {now : Timestamp}
    (h : PayloadEffect env {} db c now db₁) (hg : Grounded D db.ev)
    (hst : db.ev.events.get c.event.id = some c.event.event) (hr : Ranks db) : Ranks db₁ := by
  -- what is awaited is not ranked
  have hother : contentClass db.ev c.event.id = .missing → ∀ {id e b post},
      NewsPost db.ev id e b post → id.eventId ≠ c.event.id := by
    intro hm id e b post hp hid
    have hcur : contentClass db.ev c.event.id = .current := by
      rw [← hid]
      exact classOf_eq_current.mpr hp.processed
    rw [hm] at hcur
    cases hcur
  cases h with
  | idle h => exact hr
  | processed b hb hm hlen p hp u =>
    have hranks := ((processEventContentInsertedTx_reduction env {} db.proj _ now).of_ok hp).ranksFeed
    have hkept : ∀ id e b' post, NewsPost db.ev id e b' post →
        db.ev.events.get id.eventId = some e ∧
          (db.ev.eventsContentState.remove c.event.id).get id.eventId = none := by
      intro id e b' post hpost
      exact ⟨hpost.stored, (Table.get_remove_of_ne _ (hother hm hpost)).trans hpost.processed⟩
    cases hpost : projectedPost c.toEventContent with
    | none =>
      simp only [hpost] at hranks
      exact hr.same hranks.1 hkept
    | some post =>
      simp only [hpost] at hranks
      refine ⟨?_, fun id r hget => ?_⟩
      · show Ordered (newsPart p)
        rw [hranks.1]
        exact rankedNews_ordered hr.ordered _ _ _
      · have hget' : (rankedNews db.proj c.toEventContent post now).byPostId.get id = some r := by
          rw [← hranks.1]
          exact hget
        rcases rankedNews_get hget' with hold | ⟨rfl, hnews⟩
        · obtain ⟨e, b', post', hp'⟩ := hr.held id r hold
          obtain ⟨he, hcur⟩ := hkept id e b' post' hp'
          exact ⟨e, b', post', hp'.mono he hcur⟩
        · exact ⟨_, b, post, newsPost_of_processed hb hpost hnews hlen (hg.nonempty _ hm _ hst) hst
            (Table.get_remove_self ..)⟩
  | rejected b hb hm hlen hp rc u =>
    refine hr.same rfl fun id e b' post hpost => ⟨hpost.stored, ?_⟩
    exact (Table.get_insert_of_ne _ _ (hother hm hpost)).trans hpost.processed
  | deleted b hb hd hlen =>
    refine hr.same ?_ fun id e b' post hpost => ⟨hpost.stored, hpost.processed⟩
    simp only [withLineage]
    split
    · rfl
    · rfl

/-- **A quota release** ends the rank of the post it releases. The bytes are read from the store, where the
snapshot has checked their length. -/
theorem released_ranks {request : QuotaPruneRequest} {e : Event} {now : Timestamp}
    {origins : RetentionOrigins} {p : Projections} {r : EventTables × Bool}
    (hI : OnGround D (StoreLaw D) db.ev) (hinj : Function.Injective blake3)
    (h : Released env db request e now origins)
    (hp : dematerializeTx db (.ofEvent e) request.target = .ok p)
    (ht : pruneEventContentTx db.ev request.id e = .ok r) (q : Table ShortEventId QuotaPruneDecision)
    (a : Accounting) (hr : Ranks db) :
    Ranks { db with ev := r.1, proj := p, quotaPruned := q, accounting := a } := by
  have heff := (pruneEventContentTx_effect db.ev _ _).of_ok ht
  have hid : (VerifiedEvent.ofEvent e).id = request.id := hI.1.keyed.id_eq h.stored
  have hkept : ∀ id e' b' post, id.eventId ≠ request.id → NewsPost db.ev id e' b' post →
      r.1.events.get id.eventId = some e' ∧ r.1.eventsContentState.get id.eventId = none := by
    intro id e' b' post hne hpost
    refine ⟨?_, (heff.state_other hne).trans hpost.processed⟩
    rw [heff.events]
    exact hpost.stored
  have htarget := h.target
  cases hmode : request.target with
  | missing =>
    rw [hmode] at htarget hp
    have hback : p = db.proj := dematerializeTx_reverted hp
    refine hr.same (by rw [← hback]) fun id e' b' post hpost => hkept id e' b' post ?_ hpost
    -- content that is still missing is not ranked
    intro hne
    rw [← hne, hpost.processed] at htarget
    cases htarget
  | processed =>
    rw [hmode] at hp
    obtain ⟨c, hc, hok⟩ := dematerializeTx_reverted hp
    unfold storedContent at hc
    obtain ⟨b, hb, hver⟩ := Option.bind_eq_some_iff.mp hc
    obtain ⟨hev, hcon⟩ := VerifiedEventContent.verify_eq_some hver
    obtain ⟨hlen, -⟩ := c.length_and_hash hcon
    rw [hev] at hlen
    have hsame : c.toEventContent = ⟨.ofEvent e, some b⟩ := by
      obtain ⟨⟨w, o⟩, hw⟩ := c
      obtain rfl : w = .ofEvent e := hev
      obtain rfl : o = some b := hcon
      rfl
    rw [hsame] at hok
    refine hr.lowered ?_ (fun id b' post hpost => ?_)
      ((processEventContentRevertedTx_beside _ _).of_ok hok).news fun id e' b' post hne hpost => ?_
    · rw [hid]
      exact h.stored
    · exact (hpost.bytes hinj hI.2 hb hlen).symm
    · rw [hid] at hne
      exact hkept id e' b' post hne hpost

/-- **Every reducer keeps the ranks.** -/
theorem Reducer.ranks {before : PayloadBefore} (h : Reducer env D Q db v db₁)
    (hI : OnGround D (StoreLaw D) db.ev) (hcf : CollisionFree D) (hinj : Function.Injective blake3)
    (hbefore : payloadBeforeTx env db.ev v = .ok before) (hr : Ranks db) : Ranks db₁ := by
  cases h with
  | envelope hv h =>
    exact ((processEventInnerTx_effect env {} db v _ _).of_ok h).ranks hI hcf hinj hv hbefore hr
  | payload hc hst h =>
    exact ((processEventContentInnerTx_effect hI.1 hst _ _ _).of_ok h).ranks hI.1 hst hr
  | released hq h hp ht => exact released_ranks hI hinj h hp ht _ _ hr

/-- Maintenance recalculates at most. -/
theorem Aside.ranks (h : Aside db db') (hr : Ranks db) : Ranks db' := by
  have hkept : ∀ id e b post, NewsPost db.ev id e b post → db'.ev.events.get id.eventId = some e ∧
      db'.ev.eventsContentState.get id.eventId = none := by
    intro id e b post hp
    refine ⟨?_, ?_⟩
    · rw [h.eq]
      exact hp.stored
    · have hcls := h.classes id.eventId
      rw [show contentClass db.ev id.eventId = .current from classOf_eq_current.mpr hp.processed]
        at hcls
      exact classOf_eq_current.mp hcls
  rcases h.proj with heq | ⟨postId, now, heq⟩
  · exact hr.same (by rw [heq]) hkept
  · refine hr.mono ?_ (fun id r hget => ?_) fun id _ e b post _ hp => hkept id e b post hp
    · rw [heq]
      exact recalculateNewsPostScoreTx_ordered hr.ordered postId now
    · rw [heq] at hget
      exact recalculateNewsPostScoreTx_get hget

theorem Piece.ranks (h : Piece env D Q db db') (hI : OnGround D (StoreLaw D) db.ev)
    (hcf : CollisionFree D) (hinj : Function.Injective blake3) (hr : Ranks db) : Ranks db' := by
  rcases h.bracket_or_aside with ⟨v, before, db₁, hbefore, hred, haside, -⟩ | haside
  · exact haside.ranks (hred.ranks hI hcf hinj hbefore hr)
  · exact haside.ranks hr

/-! ## 5. Along every run

Votes change scores, and so does maintenance, at whatever time the clock shows. -/

/-- **The news ranks of one state**: records and rows are in bijection, and every ranked id is a
processed news post of the author it names. -/
structure NewsRanksExact (db : Database) : Prop where
  record_iff : ∀ id ts score, db.proj.socialNewsRankByPostId.get id = some ⟨ts, score⟩ ↔
    (score, id) ∈ db.proj.socialNewsRankByScore ∧ (ts, id) ∈ db.proj.socialNewsRankByTime
  by_score : ∀ id score, (score, id) ∈ db.proj.socialNewsRankByScore →
    ∃ ts, db.proj.socialNewsRankByPostId.get id = some ⟨ts, score⟩
  by_time : ∀ id ts, (ts, id) ∈ db.proj.socialNewsRankByTime →
    ∃ score, db.proj.socialNewsRankByPostId.get id = some ⟨ts, score⟩
  news : ∀ id r, db.proj.socialNewsRankByPostId.get id = some r →
    ∃ e b post, NewsPost db.ev id e b post

theorem Ranks.exact (h : Ranks db) : NewsRanksExact db := by
  have hscore : ∀ id score, (score, id) ∈ db.proj.socialNewsRankByScore →
      ∃ ts, db.proj.socialNewsRankByPostId.get id = some ⟨ts, score⟩ := by
    intro id score hmem
    obtain ⟨k, r, hr, hrow⟩ := (h.ordered.byScore _).mp hmem
    cases hrow
    exact ⟨r.creationTs, hr⟩
  have htime : ∀ id ts, (ts, id) ∈ db.proj.socialNewsRankByTime →
      ∃ score, db.proj.socialNewsRankByPostId.get id = some ⟨ts, score⟩ := by
    intro id ts hmem
    obtain ⟨k, r, hr, hrow⟩ := (h.ordered.byTime _).mp hmem
    cases hrow
    exact ⟨r.score, hr⟩
  refine ⟨fun id ts score => ⟨fun hr => ?_, fun ⟨hs, ht⟩ => ?_⟩, hscore, htime, h.held⟩
  · exact ⟨h.ordered.byScore.mem hr rfl, h.ordered.byTime.mem hr rfl⟩
  · -- both rows belong to the one record of the post
    obtain ⟨ts', hr⟩ := hscore id score hs
    obtain ⟨score', hr'⟩ := htime id ts ht
    rw [hr] at hr'
    cases hr'
    exact hr

/-- **The news ranks are exact in every state of a run**, whatever the clocks show, and the score
neither overflows nor falls with more votes. -/
theorem newsRanks_exact (env : Env) (hcf : CollisionFree D) (hinj : Function.Injective blake3)
    (ops : List Op) (hD : DeliveredFrom D ops) :
    NewsRanksExact (reached env ops) ∧ ScoreSound := by
  have hrun := run_pieces env (storeLaw_keeps D) hcf
    (fun _ _ hI _ hp hr => hp.ranks hI hcf hinj hr) ops hD (requestedFrom_univ ops)
    ⟨grounded_empty D, storeLaw_empty D⟩ ranks_empty
  exact ⟨hrun.2.exact, scoreSound⟩

end Held

section Sample

/-- A post that starts with the byte `3` is news. -/
@[reducible] def newsPrimitives : Primitives where
  __ := Primitives.reference
  cborSocialPost
    | 3 :: body => some
        { djotContent := some (body.map fun x => Char.ofNat x.toNat), news := true }
    | _ => none

attribute [local instance] newsPrimitives

def sampleNews (ts : Timestamp) (x : UInt8) : VerifiedEventContent :=
  ⟨⟨.ofEvent { kind := EventKind.SOCIAL_POST, contentLen := 2, timestamp := ts
               author := toLex (1, 1), contentHash := blake3 [3, x] }, some [3, x]⟩, by
    simp [contentMatches]⟩

def sampleNewsDeletion : Event :=
  { kind := EventKind.SOCIAL_POST, flags := 1, contentLen := 0, timestamp := 8
    author := toLex (1, 1), parentAux := some 4, contentHash := blake3 [] }

/-- Two news posts, a rescore at an earlier clock than that of the post, and a deletion. -/
def sampleNewsRun : List Op :=
  [.ingest [.payload (sampleNews 4 65) 6 {}], .ingest [.payload (sampleNews 5 66) 7 {}],
    .recalculateNews ⟨toLex (1, 1), 4⟩ 2, .recalculateNews ⟨toLex (1, 1), 5⟩ 90000,
    .ingest [.envelope (.ofEvent sampleNewsDeletion) 9 .local]]

/-- After the deletion one of the two posts is ranked. -/
theorem newsRanks_exact_sampleNewsRun :
    let db := reached sampleEnv sampleNewsRun
    db.proj.socialNewsRankByPostId.get ⟨toLex (1, 1), 4⟩ = none ∧
      db.proj.socialNewsRankByPostId.get ⟨toLex (1, 1), 5⟩ = some ⟨5, 0⟩ ∧
      NewsRanksExact db := by
  refine ⟨by decide +kernel, by decide +kernel, (newsRanks_exact sampleEnv
    (collisionFree_envelopesOf (by decide)) Primitives.reference_injective sampleNewsRun
    (deliveredFrom_envelopesOf sampleNewsRun)).1⟩

end Sample

end Rostra.Db
