/-
# What a payload is reduced to

One inversion for `process_event_content_inserted_tx` and one for its reversal, to be used by every
result about a projection other than the tables of posts.

* `Reduction` lists everything a processed payload can do.  Follows, posts and votes keep the call
  of their own reducer; the remaining kinds share one case, which names the tables they may write.
* `applySocialPostTx_beside` and `revertSocialPostTx_beside` say what a post does outside the tables
  of posts: the news ranks and, when it is applied, one row of the feed.
* `Reduction.ranksFeed` reads off what the ranks and the feed become.
* `projectAll` is the state after any list of payloads, each of which is projected or leaves no
  trace.

The reducers of follows and votes are not opened here. What they do to their own tables is a matter of
`Proofs/Follows` and `Proofs/Votes`, and all others need is that they do nothing else.
-/
import Rostra.Proofs.Social

namespace Rostra.Db

open Rostra Outcome

/-! ## 1. The other parts of the projections

The projections, cut up by reducer. -/

/-- The four tables of the follow reducer, as one value, so that "nothing else is touched" is one equation. -/
structure FollowPart where
  followees : Table (RostraId × RostraId) IdsFolloweesRecord
  followers : Finset (RostraId × RostraId)
  followEvents : Finset (RostraId × RostraId × EventOrder)
  unfollowed : Table (RostraId × RostraId) IdsUnfollowedRecord

def followPart (p : Projections) : FollowPart where
  followees := p.idsFollowees
  followers := p.idsFollowers
  followEvents := p.idsFollowEvents
  unfollowed := p.idsUnfollowed

/-- The two tables of the vote reducer. -/
structure VotePart where
  sums : Table ExternalEventId SocialVoteSumRecord
  singletons : Table (RostraId × EventKind × EventAuxKey) (Latest EventSingletonRecord)

def votePart (p : Projections) : VotePart where
  sums := p.socialVoteSums
  singletons := p.eventsSingletonsNew

/-- The news ranks: by post, by score and by time. -/
structure NewsPart where
  byPostId : Table ExternalEventId SocialNewsRankRecord
  byScore : Finset (ℤ × ExternalEventId)
  byTime : Finset (Timestamp × ExternalEventId)

def newsPart (p : Projections) : NewsPart where
  byPostId := p.socialNewsRankByPostId
  byScore := p.socialNewsRankByScore
  byTime := p.socialNewsRankByTime

/-- The same projections with other ranks. -/
def withNews (p : Projections) (n : NewsPart) : Projections :=
  { p with
    socialNewsRankByPostId := n.byPostId
    socialNewsRankByScore := n.byScore
    socialNewsRankByTime := n.byTime }

theorem upsertSocialNewsRankTx_news (p p' : Projections) (id : ExternalEventId) (ts : Timestamp)
    (score : ℤ) (h : newsPart p' = newsPart p) :
    newsPart (upsertSocialNewsRankTx p' id ts score) =
      newsPart (upsertSocialNewsRankTx p id ts score) := by
  simp only [newsPart, NewsPart.mk.injEq] at h
  obtain ⟨h1, h2, h3⟩ := h
  unfold upsertSocialNewsRankTx
  rw [h1]
  split
  · simp [newsPart, h2, h3]
  · simp [newsPart, h1, h2, h3]

theorem removeSocialNewsRankTx_news (p p' : Projections) (id : ExternalEventId)
    (h : newsPart p' = newsPart p) :
    newsPart (removeSocialNewsRankTx p' id) = newsPart (removeSocialNewsRankTx p id) := by
  simp only [newsPart, NewsPart.mk.injEq] at h
  obtain ⟨h1, h2, h3⟩ := h
  unfold removeSocialNewsRankTx
  rw [h1]
  split
  · simp [newsPart, h1, h2, h3]
  · simp [newsPart, h2, h3]

/-! ## 2. What each helper leaves alone

Frame lemmas, one for each helper of the code. They are equations of the form "the result is the old state with
these tables replaced", so that a rewriting does the rest. -/

/-- The ranking functions write nothing but the ranks. What they do to the ranks is a matter of `Proofs/News`. -/
theorem upsertSocialNewsRankTx_frame (p : Projections) (id : ExternalEventId) (ts : Timestamp)
    (score : ℤ) : upsertSocialNewsRankTx p id ts score =
      withNews p (newsPart (upsertSocialNewsRankTx p id ts score)) := by
  unfold upsertSocialNewsRankTx
  dsimp only
  split
  · rfl
  · rfl

theorem removeSocialNewsRankTx_frame (p : Projections) (id : ExternalEventId) :
    removeSocialNewsRankTx p id = withNews p (newsPart (removeSocialNewsRankTx p id)) := by
  unfold removeSocialNewsRankTx
  split
  · rfl
  · rfl

theorem recalculateNewsPostScoreTx_frame (p : Projections) (id : ExternalEventId)
    (now : Timestamp) : (recalculateNewsPostScoreTx p id now).1 =
      withNews p (newsPart (recalculateNewsPostScoreTx p id now).1) := by
  unfold recalculateNewsPostScoreTx
  split
  · rfl
  split
  · exact removeSocialNewsRankTx_frame p id
  dsimp only
  split
  · rfl
  · exact upsertSocialNewsRankTx_frame ..

theorem insertFollowTx_frame (p : Projections) (a : RostraId) (o : EventOrder) (f : Follow) :
    ∃ u v w, (insertFollowTx p a o f).1 = { p with
      idsFollowees := u, idsFollowers := v, idsFollowEvents := w } := by
  unfold insertFollowTx
  dsimp only
  split
  · exact ⟨_, _, _, rfl⟩
  split
  · split
    · split
      · exact ⟨_, _, _, rfl⟩
      · exact ⟨_, _, _, rfl⟩
    · exact ⟨_, _, _, rfl⟩
  · exact ⟨_, _, _, rfl⟩

theorem insertUnfollowTx_frame (p : Projections) (a : RostraId) (o : EventOrder) (f : RostraId) :
    ∃ u v w x, (insertUnfollowTx p a o f).1 = { p with
      idsFollowees := u, idsFollowers := v, idsFollowEvents := w, idsUnfollowed := x } := by
  unfold insertUnfollowTx
  dsimp only
  split
  · exact ⟨_, _, _, _, rfl⟩
  obtain ⟨rows, hrows⟩ := pruneFollowEventsThroughTx_rows { p with
    idsUnfollowed := p.idsUnfollowed.insert (a, f) ⟨(ofLex o).1, (ofLex o).2⟩ } a f o
  rw [hrows]
  split
  · split
    · exact ⟨_, _, _, _, rfl⟩
    · exact ⟨_, _, _, _, rfl⟩
  · exact ⟨_, _, _, _, rfl⟩

theorem processSocialVoteTx_frame (p : Projections) (vote : SocialVoteProjection) (a : RostraId)
    (o : EventOrder) :
    Ensures (processSocialVoteTx p vote a o) (fun p' => ∃ s, p' = { p with socialVoteSums := s })
      (fun _ => True) := by
  unfold processSocialVoteTx
  dsimp only
  split
  · split
    · exact ⟨_, rfl⟩
    · exact (ensures_true _).bind fun _ _ => ⟨_, rfl⟩
  · exact ⟨_, rfl⟩

theorem insertSocialPostReceiptTx_frame (p : Projections) (id : ShortEventId) (at_ : Timestamp) :
    Ensures (insertSocialPostReceiptTx p id at_) (fun p' => ∃ n r k, p' = { p with
      receptionOrderNext := n, socialPostsByReceivedAt := r, socialPostsReceivedAtKeys := k })
      (fun _ => True) := by
  unfold insertSocialPostReceiptTx
  dsimp only
  split
  · trivial
  · exact (ensures_true _).bind fun _ _ => ⟨_, _, _, rfl⟩

theorem removeSocialPostReceiptTx_frame (p : Projections) (id : ShortEventId) :
    Ensures (removeSocialPostReceiptTx p id) (fun p' => ∃ r k, p' = { p with
      socialPostsByReceivedAt := r, socialPostsReceivedAtKeys := k }) (fun _ => True) := by
  unfold removeSocialPostReceiptTx
  split
  · exact ⟨_, _, rfl⟩
  split
  · trivial
  · exact ⟨_, _, rfl⟩

section Reduction

variable [Primitives]

theorem insertReplyToTx_frame (p : Projections) (v : VerifiedEvent) (post : SocialPost) :
    Ensures (insertReplyToTx p v post) (fun p' => ∃ s r x, p' = { p with
      socialPosts := s, socialPostsReplies := r, socialPostsReactions := x }) (fun _ => True) := by
  unfold insertReplyToTx
  split
  · unfold insertSocialPostReplyTx
    refine (ensures_true _).bind fun _ _ => (ensures_true _).bind fun _ _ => ?_
    exact ⟨_, _, _, rfl⟩
  · exact ⟨_, _, _, rfl⟩

theorem removeReplyToTx_frame (p : Projections) (v : VerifiedEvent) (post : SocialPost) :
    Ensures (removeReplyToTx p v post) (fun p' => ∃ s r x, p' = { p with
      socialPosts := s, socialPostsReplies := r, socialPostsReactions := x }) (fun _ => True) := by
  unfold removeReplyToTx
  split
  · unfold removeSocialPostReplyTx
    refine (ensures_true _).bind fun _ _ => (ensures_true _).bind fun _ _ => ?_
    exact ⟨_, _, _, rfl⟩
  · exact ⟨_, _, _, rfl⟩

/-! ## 3. What a post does beside the tables of posts

A post is the one kind that writes outside of what is named after it. -/

/-- Everything but the tables of posts is as it was: what a reducer of posts leaves to the other files of
projections. -/
structure Beside (p p' : Projections) : Prop where
  follows : followPart p' = followPart p
  votes : votePart p' = votePart p
  news : newsPart p' = newsPart p
  feed : p'.socialPostMaterializations = p.socialPostMaterializations

omit [Primitives] in
theorem Beside.trans {p p' p'' : Projections} (h : Beside p p') (h' : Beside p' p'') :
    Beside p p'' :=
  ⟨h'.follows.trans h.follows, h'.votes.trans h.votes, h'.news.trans h.news, h'.feed.trans h.feed⟩

/-- The ranks after a post was applied: a news post enters them with the score zero. -/
def rankedNews (p : Projections) (c : EventContent) (post : SocialPost) (now : Timestamp) :
    NewsPart :=
  if post.news then
    newsPart (upsertSocialNewsRankTx p ⟨c.event.event.author, c.event.id⟩
      (min c.event.event.timestamp now) 0)
  else newsPart p

/-- The ranks after a post was taken back. Only a news post has one, and it loses it. -/
def unrankedNews (p : Projections) (c : EventContent) (post : SocialPost) : NewsPart :=
  if post.news then newsPart (removeSocialNewsRankTx p ⟨c.event.event.author, c.event.id⟩)
  else newsPart p

/-- The feed after one more occurrence, if the transaction emits at all; during a replay it does not. -/
def FeedAppended (ctx : TxCtx) (p p' : Projections) (id : ShortEventId) : Prop :=
  if ctx.materializationEmission then
    ∃ next, nextMaterializationTx p = .ok next ∧ next ≠ u64Max ∧
      p'.socialPostMaterializations = p.socialPostMaterializations.insert next id
  else p'.socialPostMaterializations = p.socialPostMaterializations

omit [Primitives] in
theorem appendSocialPostMaterializationTx_frame (ctx : TxCtx) (p : Projections)
    (id : ShortEventId) :
    Ensures (appendSocialPostMaterializationTx ctx p id) (fun p' => FeedAppended ctx p p' id ∧
      ∃ f, p' = { p with socialPostMaterializations := f }) (fun _ => True) := by
  unfold appendSocialPostMaterializationTx FeedAppended
  cases ctx.materializationEmission with
  | false => exact ⟨rfl, _, rfl⟩
  | true =>
    refine ((ensures_self _).mono (fun _ h => h) fun _ _ => trivial).bind fun next hnext => ?_
    dsimp only
    split
    · trivial
    · next hmax => exact ⟨⟨next, hnext, hmax, rfl⟩, _, rfl⟩

/-- What a post does beside its own tables: it is ranked or not, and it is in the feed or not. -/
structure PostBeside (p p' : Projections) (news : NewsPart) (feed : Prop) : Prop where
  follows : followPart p' = followPart p
  votes : votePart p' = votePart p
  news : newsPart p' = news
  feed : feed

/-- **An applied post** enters the ranks if it is news, and the feed. Its place in the feed is the next one. -/
theorem applySocialPostTx_beside (env : Env) (ctx : TxCtx) (p : Projections) (c : EventContent)
    (post : SocialPost) (replaced : Option ShortEventId) (now : Timestamp) :
    Ensures (applySocialPostTx env ctx p c post replaced now)
      (fun p' => PostBeside p p' (rankedNews p c post now) (FeedAppended ctx p p' c.event.id))
      (fun _ => True) := by
  unfold applySocialPostTx
  extract_lets v author p₀
  refine (insertSocialPostReceiptTx_frame _ _ _).bind fun p₁ ⟨n, r, k, h₁⟩ => ?_
  extract_lets p₂ p₃ p₄
  refine (insertReplyToTx_frame p₄ v post).bind fun p₅ ⟨s, r', x', h₅⟩ => ?_
  refine (appendSocialPostMaterializationTx_frame ctx p₅ _).mono (fun p₆ h₆ => ?_) fun _ h => h
  obtain ⟨hfeed, f, h₆⟩ := h₆
  have hp₂ : Beside p p₂ := by
    subst h₁
    cases replaced with
    | none => exact ⟨rfl, rfl, rfl, rfl⟩
    | some old => exact ⟨rfl, rfl, rfl, rfl⟩
  -- the ranks are the one thing that changes on the way
  have hp₃ : p₃ = withNews p₂ (rankedNews p c post now) := by
    show (if _ then _ else _) = _
    unfold rankedNews
    split
    · rw [← upsertSocialNewsRankTx_news p p₂ _ _ _ hp₂.news]
      exact upsertSocialNewsRankTx_frame ..
    · rw [← hp₂.news]
      rfl
  have hp₄ : Beside p₃ p₄ := by
    show Beside p₃ (if _ then _ else _)
    split
    · exact ⟨rfl, rfl, rfl, rfl⟩
    · exact ⟨rfl, rfl, rfl, rfl⟩
  have hp₅ : Beside p₃ p₅ := hp₄.trans (by rw [h₅]; exact ⟨rfl, rfl, rfl, rfl⟩)
  have hfollows : followPart p₅ = followPart p := by
    rw [hp₅.follows, hp₃]
    exact hp₂.follows
  have hvotes : votePart p₅ = votePart p := by
    rw [hp₅.votes, hp₃]
    exact hp₂.votes
  have hrows : p₅.socialPostMaterializations = p.socialPostMaterializations := by
    rw [hp₅.feed, hp₃]
    exact hp₂.feed
  refine ⟨?_, ?_, ?_, ?_⟩
  · rw [h₆]
    exact hfollows
  · rw [h₆]
    exact hvotes
  · rw [h₆]
    show newsPart p₅ = _
    rw [hp₅.news, hp₃]
    rfl
  · unfold FeedAppended nextMaterializationTx at hfeed ⊢
    rw [hrows] at hfeed
    exact hfeed

/-- **A post that is taken back** leaves the ranks if it is news; the feed keeps it. -/
theorem revertSocialPostTx_beside (p : Projections) (c : EventContent) (post : SocialPost) :
    Ensures (revertSocialPostTx p c post)
      (fun p' => PostBeside p p' (unrankedNews p c post)
        (p'.socialPostMaterializations = p.socialPostMaterializations)) (fun _ => True) := by
  unfold revertSocialPostTx
  extract_lets v p₀
  refine (removeSocialPostReceiptTx_frame _ _).bind fun p₁ ⟨r, k, h₁⟩ => ?_
  extract_lets p₂ p₃
  refine (removeReplyToTx_frame p₃ v post).mono (fun p₄ ⟨s, r', x', h₄⟩ => ?_) fun _ h => h
  have hp₁ : Beside p p₁ := by
    rw [h₁]
    exact ⟨rfl, rfl, rfl, rfl⟩
  have hp₂ : p₂ = withNews p₁ (unrankedNews p c post) := by
    show (if _ then _ else _) = _
    unfold unrankedNews
    split
    · rw [← removeSocialNewsRankTx_news p p₁ _ hp₁.news]
      exact removeSocialNewsRankTx_frame ..
    · rw [← hp₁.news]
      rfl
  have hp₄ : Beside p₂ p₄ := by
    rw [h₄]
    exact ⟨rfl, rfl, rfl, rfl⟩
  refine ⟨?_, ?_, ?_, ?_⟩
  · rw [hp₄.follows, hp₂]
    exact hp₁.follows
  · rw [hp₄.votes, hp₂]
    exact hp₁.votes
  · rw [hp₄.news, hp₂]
    rfl
  · rw [hp₄.feed, hp₂]
    exact hp₁.feed

/-- The projections without the tables that a post may write. -/
def outsidePosts (p : Projections) : Projections :=
  { p with
    receptionOrderNext := none
    socialPosts := ∅
    socialPostsReplies := ∅
    socialPostsReactions := ∅
    socialPostsByTime := ∅
    socialPostsByReceivedAt := ∅
    socialPostsReceivedAtKeys := ∅
    socialPostsReplacedBy := ∅
    socialPostsReplaces := ∅
    socialPostsSelfMention := ∅
    socialPostMaterializations := ∅
    socialNewsRankByPostId := ∅
    socialNewsRankByScore := ∅
    socialNewsRankByTime := ∅ }

/-- **Outside of those, an applied post writes nothing.** -/
theorem applySocialPostTx_outside (env : Env) (ctx : TxCtx) (p : Projections) (c : EventContent)
    (post : SocialPost) (replaced : Option ShortEventId) (now : Timestamp) :
    Ensures (applySocialPostTx env ctx p c post replaced now)
      (fun p' => outsidePosts p' = outsidePosts p) (fun _ => True) := by
  unfold applySocialPostTx
  extract_lets v author p₀
  refine (insertSocialPostReceiptTx_frame _ _ _).bind fun p₁ ⟨n, r, k, h₁⟩ => ?_
  extract_lets p₂ p₃ p₄
  refine (insertReplyToTx_frame p₄ v post).bind fun p₅ ⟨s, r', x', h₅⟩ => ?_
  refine (appendSocialPostMaterializationTx_frame ctx p₅ _).mono (fun p₆ ⟨_, f, h₆⟩ => ?_) fun _ h => h
  have hp₂ : outsidePosts p₂ = outsidePosts p := by
    subst h₁
    cases replaced with
    | none => rfl
    | some old => rfl
  have hp₃ : outsidePosts p₃ = outsidePosts p₂ := by
    show outsidePosts (if _ then _ else _) = _
    split
    · rw [upsertSocialNewsRankTx_frame]
      rfl
    · rfl
  have hp₄ : outsidePosts p₄ = outsidePosts p₃ := by
    show outsidePosts (if _ then _ else _) = _
    split
    · rfl
    · rfl
  have hp₅ : outsidePosts p₅ = outsidePosts p₄ := by
    rw [h₅]
    rfl
  rw [h₆]
  exact hp₅.trans (hp₄.trans (hp₃.trans hp₂))

/-- Nor does a post that is taken back. -/
theorem revertSocialPostTx_outside (p : Projections) (c : EventContent) (post : SocialPost) :
    Ensures (revertSocialPostTx p c post) (fun p' => outsidePosts p' = outsidePosts p)
      (fun _ => True) := by
  unfold revertSocialPostTx
  extract_lets v p₀
  refine (removeSocialPostReceiptTx_frame _ _).bind fun p₁ ⟨r, k, h₁⟩ => ?_
  extract_lets p₂ p₃
  refine (removeReplyToTx_frame p₃ v post).mono (fun p₄ ⟨s, r', x', h₄⟩ => ?_) fun _ h => h
  have hp₁ : outsidePosts p₁ = outsidePosts p := by
    rw [h₁]
    rfl
  have hp₂ : outsidePosts p₂ = outsidePosts p₁ := by
    show outsidePosts (if _ then _ else _) = _
    split
    · rw [removeSocialNewsRankTx_frame]
      rfl
    · rfl
  rw [h₄]
  exact hp₂.trans hp₁

/-- Taking a payload back is taking back a post, if it does anything. -/
theorem processEventContentRevertedTx_outside (p : Projections) (c : EventContent) :
    Ensures (processEventContentRevertedTx p c) (fun p' => outsidePosts p' = outsidePosts p)
      (fun _ => True) := by
  rw [processEventContentRevertedTx_eq]
  cases projectedPost c with
  | none =>
    dsimp only
    split
    · trivial
    · exact rfl
  | some post =>
    exact liftDb_ensures ((revertSocialPostTx_outside p c post).mono (fun _ h => h) fun _ _ => trivial)

theorem withLineage_outside (p : Projections) (c : EventContent) :
    outsidePosts (withLineage p c) = outsidePosts p := by
  unfold withLineage
  split
  · rfl
  · rfl

theorem arrivedProjections_outside {t : EventTables} {p p' : Projections} {v : VerifiedEvent} {isD : Bool}
    {dp : Option ShortEventId} {rev : Option Bytes} (h : arrivedProjections t p v isD dp rev = .ok p') :
    outsidePosts p' = outsidePosts p := by
  have hlined : outsidePosts (lineageArrived t p v isD) = outsidePosts p := by
    unfold lineageArrived
    split
    · cases storedContent t v with
      | none => rfl
      | some c => exact withLineage_outside p _
    · rfl
  have hrev := arrivedProjections_reverted h
  cases hc : revertedContent t dp rev with
  | none =>
    simp only [hc] at hrev
    rw [hrev, hlined]
  | some c =>
    simp only [hc] at hrev
    rcases hrev with hok | ⟨-, heq⟩
    · rw [(processEventContentRevertedTx_outside _ c).of_ok hok, hlined]
    · rw [heq, hlined]

/-- An envelope, which may take the payload of its parent back on the way. -/
theorem EnvelopeEffect.outside {db db' : Database} {v : VerifiedEvent} (h : EnvelopeEffect db v db') :
    outsidePosts db'.proj = outsidePosts db.proj := by
  cases h with
  | present e he t₁ ht₁ hfin hproj hquota => rw [hproj]
  | new hnew t₁ isD dp rev hins hfin next hproj hquota =>
    exact (arrivedProjections_outside hproj).trans rfl

/-- A quota release, which takes a payload back whose author has not asked for it. -/
theorem dematerializeTx_outside {db : Database} {v : VerifiedEvent} {target : QuotaPruneTarget}
    {p : Projections} (h : dematerializeTx db v target = .ok p) :
    outsidePosts p = outsidePosts db.proj := by
  have hback := dematerializeTx_reverted h
  cases target with
  | missing =>
    have hp : p = db.proj := hback
    rw [hp]
  | processed =>
    obtain ⟨c, -, hok⟩ := hback
    exact (processEventContentRevertedTx_outside _ _).of_ok hok

/-- What taking a payload back does beside the tables of posts: the rank goes, and the rest stays. -/
def RevertedBeside (p p' : Projections) (c : EventContent) : Prop :=
  match projectedPost c with
  | some post => PostBeside p p' (unrankedNews p c post)
      (p'.socialPostMaterializations = p.socialPostMaterializations)
  | none => p' = p

theorem processEventContentRevertedTx_beside (p : Projections) (c : EventContent) :
    Ensures (processEventContentRevertedTx p c) (fun p' => RevertedBeside p p' c)
      (fun _ => True) := by
  rw [processEventContentRevertedTx_eq]
  unfold RevertedBeside
  cases projectedPost c with
  | some post =>
    exact liftDb_ensures ((revertSocialPostTx_beside p c post).mono (fun _ h => h)
      fun _ _ => trivial)
  | none =>
    dsimp only
    split
    · trivial
    · exact rfl

/-- The feed is append-only: a reversal does not touch it. -/
theorem RevertedBeside.feed {p p' : Projections} {c : EventContent} (h : RevertedBeside p p' c) :
    p'.socialPostMaterializations = p.socialPostMaterializations := by
  unfold RevertedBeside at h
  split at h
  · exact h.feed
  · rw [h]

/-! ## 4. Everything a processed payload can do

The match on the kind of an event is inverted once. A kind that the code does not know is processed too, and does
nothing but offer a singleton row. -/

/-- The order a payload takes among those of its author. Every reducer that keeps the latest compares by it. -/
def orderOf (c : EventContent) : EventOrder := toLex (c.event.event.timestamp, c.event.id)

/-- The follow or unfollow a payload carries. -/
def followOf (c : EventContent) : Option Follow :=
  if c.event.event.kind = EventKind.FOLLOW ∨ c.event.event.kind = EventKind.UNFOLLOW then c.follow?
  else none

/-- The well-shaped vote a payload carries. A payload of the kind without that shape carries none. -/
def voteOf (c : EventContent) : Option SocialVoteProjection :=
  if c.event.event.kind = EventKind.SOCIAL_VOTE then c.socialVote?.bind (shapedVote c.event) else none

/-- The follow reducer, as its kinds call it. The payload decides which of the two it is, and not the kind. -/
def reduceFollow (p : Projections) (c : EventContent) (f : Follow) : Projections :=
  if f.isUnfollow then (insertUnfollowTx p c.event.event.author (orderOf c) f.followee).1
  else (insertFollowTx p c.event.event.author (orderOf c) f).1

/-- **What a processed payload does** to the projections.  The event is at most one of a follow, a
projected post and a vote. -/
inductive Reduction (env : Env) (ctx : TxCtx) (p : Projections) (c : EventContent)
    (now : Timestamp) : Projections → Prop
  | follow (f : Follow) (hf : followOf c = some f) (hpost : projectedPost c = none)
      (hvote : voteOf c = none) :
      Reduction env ctx p c now (insertSingletonTx (reduceFollow p c f) c.event ⟨c.event.id, none⟩)
  | post (post : SocialPost) (replaced : Option ShortEventId) (p' : Projections)
      (hpost : projectedPost c = some post)
      (h : applySocialPostTx env ctx p c post replaced now = .ok p') (hf : followOf c = none)
      (hvote : voteOf c = none) :
      Reduction env ctx p c now (insertSingletonTx p' c.event ⟨c.event.id, none⟩)
  | vote (vote : SocialVoteProjection) (hvote : voteOf c = some vote) (p' : Projections)
      (h : processSocialVoteTx p vote c.event.event.author (orderOf c) = .ok p')
      (hf : followOf c = none) (hpost : projectedPost c = none) :
      Reduction env ctx p c now (insertSingletonTx p' c.event ⟨c.event.id, some vote⟩)
  /-- A skipped post, or a vote without the shape of one. -/
  | nothing (hf : followOf c = none) (hpost : projectedPost c = none) (hvote : voteOf c = none) :
      Reduction env ctx p c now p
  /-- Every other kind. -/
  | other (p' : Projections) (h : Beside p p') (hf : followOf c = none)
      (hpost : projectedPost c = none) (hkind : c.event.event.kind ≠ EventKind.SOCIAL_VOTE) :
      Reduction env ctx p c now (insertSingletonTx p' c.event ⟨c.event.id, none⟩)

theorem followOf_other {c : EventContent} (h₁ : c.event.event.kind ≠ EventKind.FOLLOW)
    (h₂ : c.event.event.kind ≠ EventKind.UNFOLLOW) : followOf c = none := by
  simp [followOf, h₁, h₂]

theorem projectedPost_other {c : EventContent} (h : c.event.event.kind ≠ EventKind.SOCIAL_POST) :
    projectedPost c = none := by
  simp [projectedPost, h]

theorem voteOf_other {c : EventContent} (h : c.event.event.kind ≠ EventKind.SOCIAL_VOTE) :
    voteOf c = none := by
  simp [voteOf, h]

omit [Primitives] in
/-- A decoded value is the decoder's. -/
theorem decodeOr_ensures {α : Type} (o : Option α) :
    Ensures (decodeOr o) (fun a => o = some a) (fun _ => True) := by
  cases o with
  | some a => exact rfl
  | none => trivial

/-- The kinds that concern none of the reducers of this file, each dismissed by the same lemma. -/
theorem Reduction.of_other {env : Env} {ctx : TxCtx} {p p' : Projections} {c : EventContent}
    {now : Timestamp} (h : Beside p p') (hF : c.event.event.kind ≠ EventKind.FOLLOW)
    (hU : c.event.event.kind ≠ EventKind.UNFOLLOW)
    (hP : c.event.event.kind ≠ EventKind.SOCIAL_POST)
    (hV : c.event.event.kind ≠ EventKind.SOCIAL_VOTE) :
    Reduction env ctx p c now (insertSingletonTx p' c.event ⟨c.event.id, none⟩) :=
  .other p' h (followOf_other hF hU) (projectedPost_other hP) hV

/-- The row that follows a reducer, if one does. -/
def withSingleton (v : VerifiedEvent) (r : Projections × Option EventSingletonRecord) :
    Projections :=
  match r.2 with
  | some record => insertSingletonTx r.1 v record
  | none => r.1

theorem processKindTx_reduction (env : Env) (ctx : TxCtx) (p : Projections) (c : EventContent)
    (now : Timestamp) :
    Ensures (processKindTx env ctx p c now)
      (fun r => Reduction env ctx p c now (withSingleton c.event r)) (fun _ => True) := by
  unfold processKindTx
  dsimp only
  have hne : ∀ {k k' : EventKind}, c.event.event.kind = k → k ≠ k' → c.event.event.kind ≠ k' :=
    fun h hk h' => hk (h.symm.trans h')
  split
  · next hk =>
    have hother : ∀ {p' : Projections}, Beside p p' → Reduction env ctx p c now
        (insertSingletonTx p' c.event ⟨c.event.id, none⟩) := by
      intro p' h
      rcases hk with hk | hk
      · exact .of_other h (hne hk (by decide)) (hne hk (by decide)) (hne hk (by decide))
          (hne hk (by decide))
      · exact .of_other h (hne hk (by decide)) (hne hk (by decide)) (hne hk (by decide))
          (hne hk (by decide))
    unfold processDmTx
    dsimp only
    split
    · trivial
    refine (ensures_true _).bind fun bytes _ => ?_
    split
    · exact (ensures_true _).bind fun a _ => hother ⟨rfl, rfl, rfl, rfl⟩
    split
    · exact hother ⟨rfl, rfl, rfl, rfl⟩
    · trivial
  split
  · next hk =>
    refine (decodeOr_ensures _).bind fun f hf => ?_
    refine ensures_pure.mpr ?_
    refine .follow f (by rw [followOf, if_pos hk, hf]) ?_ ?_
    · rcases hk with hk | hk
      · exact projectedPost_other (hne hk (by decide))
      · exact projectedPost_other (hne hk (by decide))
    · rcases hk with hk | hk
      · exact voteOf_other (hne hk (by decide))
      · exact voteOf_other (hne hk (by decide))
  split
  · next hk =>
    refine (ensures_true _).bind fun addr _ => ?_
    have hp' : Beside p (announceNodeTx p c.event.event.author addr c.event.event.timestamp) :=
      ⟨rfl, rfl, rfl, rfl⟩
    exact .of_other hp' (hne hk (by decide)) (hne hk (by decide)) (hne hk (by decide))
      (hne hk (by decide))
  split
  · next hk =>
    refine (ensures_true _).bind fun content _ => ?_
    exact .of_other ⟨rfl, rfl, rfl, rfl⟩ (hne hk (by decide)) (hne hk (by decide))
      (hne hk (by decide)) (hne hk (by decide))
  split
  · next hk =>
    have hf := followOf_other (hne hk (by decide)) (hne hk (by decide))
    have hvote := voteOf_other (hne hk (by decide))
    refine (decodeOr_ensures _).bind fun post hpost => ?_
    split
    · next hplan =>
      refine .nothing hf ?_ hvote
      rw [projectedPost_post hk hpost, if_pos hplan]
    · next replaced hplan =>
      refine (liftDb_ensures (Ensures.mono (ensures_self _) (fun _ h => h) fun _ _ => trivial)).bind
        fun p' hp' => ?_
      refine .post post replaced p' ?_ hp' hf hvote
      rw [projectedPost_post hk hpost, if_neg (by rw [hplan]; exact nofun)]
  split
  · next hk =>
    have hf := followOf_other (hne hk (by decide)) (hne hk (by decide))
    have hpost := projectedPost_other (hne hk (by decide))
    refine (decodeOr_ensures _).bind fun content hcontent => ?_
    split
    · next hshape =>
      refine .nothing hf hpost ?_
      rw [voteOf, if_pos hk, hcontent, Option.bind_some, hshape]
    · next vote hshape =>
      refine (liftDb_ensures (Ensures.mono (ensures_self _) (fun _ h => h) fun _ _ => trivial)).bind
        fun p' hp' => ?_
      refine .vote vote ?_ p' hp' hf hpost
      rw [voteOf, if_pos hk, hcontent, Option.bind_some, hshape]
  next hdm hfollow _ _ hpost hvote =>
  rw [not_or] at hfollow
  split
  · refine (ensures_true _).bind fun _ _ => (ensures_true _).bind fun _ _ => ?_
    exact .of_other ⟨rfl, rfl, rfl, rfl⟩ hfollow.1 hfollow.2 hpost hvote
  · exact .of_other ⟨rfl, rfl, rfl, rfl⟩ hfollow.1 hfollow.2 hpost hvote

/-- **The inversion**: a payload that was processed did one of the five things. All results on projections other
than those of posts start here. -/
theorem processEventContentInsertedTx_reduction (env : Env) (ctx : TxCtx) (p : Projections)
    (c : EventContent) (now : Timestamp) :
    Ensures (processEventContentInsertedTx env ctx p c now) (Reduction env ctx p c now)
      (fun _ => True) := by
  unfold processEventContentInsertedTx
  refine (processKindTx_reduction env ctx p c now).bind fun r hr => ?_
  obtain ⟨p', record⟩ := r
  cases record with
  | some record => exact hr
  | none => exact hr

/-- The rows of the latest values are apart from the ranks and the feed. -/
theorem insertSingletonTx_ranksFeed (p : Projections) (v : VerifiedEvent)
    (r : EventSingletonRecord) :
    newsPart (insertSingletonTx p v r) = newsPart p ∧
      (insertSingletonTx p v r).socialPostMaterializations = p.socialPostMaterializations := by
  unfold insertSingletonTx
  dsimp only
  split
  · exact ⟨rfl, rfl⟩
  · exact ⟨rfl, rfl⟩

/-- So are the follows. -/
theorem reduceFollow_ranksFeed (p : Projections) (c : EventContent) (f : Follow) :
    newsPart (reduceFollow p c f) = newsPart p ∧
      (reduceFollow p c f).socialPostMaterializations = p.socialPostMaterializations := by
  unfold reduceFollow
  split
  · obtain ⟨u, v, w, x, heq⟩ := insertUnfollowTx_frame p c.event.event.author (orderOf c) f.followee
    rw [heq]
    exact ⟨rfl, rfl⟩
  · obtain ⟨u, v, w, heq⟩ := insertFollowTx_frame p c.event.event.author (orderOf c) f
    rw [heq]
    exact ⟨rfl, rfl⟩

/-- **Ranks and feed** after a processed payload: only a projected post touches them. -/
theorem Reduction.ranksFeed {env : Env} {ctx : TxCtx} {p p' : Projections} {c : EventContent}
    {now : Timestamp} (h : Reduction env ctx p c now p') :
    match projectedPost c with
    | some applied => newsPart p' = rankedNews p c applied now ∧ FeedAppended ctx p p' c.event.id
    | none => newsPart p' = newsPart p ∧
        p'.socialPostMaterializations = p.socialPostMaterializations := by
  cases h with
  | follow f hf hpost hvote =>
    have hs := insertSingletonTx_ranksFeed (reduceFollow p c f) c.event ⟨c.event.id, none⟩
    have hfollow := reduceFollow_ranksFeed p c f
    simp only [hpost]
    exact ⟨hs.1.trans hfollow.1, hs.2.trans hfollow.2⟩
  | post applied replaced p₁ hpost hp₁ hf hvote =>
    have hs := insertSingletonTx_ranksFeed p₁ c.event ⟨c.event.id, none⟩
    have hbeside := (applySocialPostTx_beside env ctx p c applied replaced now).of_ok hp₁
    simp only [hpost]
    refine ⟨hs.1.trans hbeside.news, ?_⟩
    have hfeed := hbeside.feed
    unfold FeedAppended at hfeed ⊢
    rw [hs.2]
    exact hfeed
  | vote vote hvote p₁ hp₁ hf hpost =>
    have hs := insertSingletonTx_ranksFeed p₁ c.event ⟨c.event.id, some vote⟩
    obtain ⟨sums, hsums⟩ := (processSocialVoteTx_frame p vote _ _).of_ok hp₁
    simp only [hpost]
    refine ⟨hs.1.trans ?_, hs.2.trans ?_⟩
    · rw [hsums]
      rfl
    · rw [hsums]
  | nothing hf hpost hvote =>
    rw [hpost]
    exact ⟨rfl, rfl⟩
  | other p₁ hbeside hf hpost hkind =>
    have hs := insertSingletonTx_ranksFeed p₁ c.event ⟨c.event.id, none⟩
    simp only [hpost]
    exact ⟨hs.1.trans hbeside.news, hs.2.trans hbeside.feed⟩

/-- The state after a list of payloads: each is projected, or leaves no trace. -/
def projectAll (env : Env) (ctx : TxCtx) (items : List (EventContent × Timestamp)) : Projections :=
  Outcome.run (fun p (i : EventContent × Timestamp) => processEventContentInsertedTx env ctx p i.1 i.2)
    {} items

/-- Payloads with the same id are the same payload. A list may still repeat them. -/
def DistinctPayloads (items : List (EventContent × Timestamp)) : Prop :=
  ∀ i ∈ items, ∀ j ∈ items, i.1.event.id = j.1.event.id → i.1 = j.1

/-- Among such payloads the place in the order tells the payload. -/
theorem DistinctPayloads.of_order {items : List (EventContent × Timestamp)}
    (h : DistinctPayloads items) {i j : EventContent × Timestamp} (hi : i ∈ items) (hj : j ∈ items)
    (hord : orderOf i.1 = orderOf j.1) : i.1 = j.1 :=
  h i hi j hj (congrArg (fun o : EventOrder => (ofLex o).2) hord)

end Reduction

end Rostra.Db
