/-
# What payloads do to the social tables

Of all the projections only nine tables belong to posts (`SocialPart`), and only posts write them.
`Applied` and `Reverted` describe the two directions of a post row by row, in the same terms, so
that taking back what was applied is visibly the inverse.

Replies and reactions are one notion twice: a post contributes at most one row to each table
(`replyRow?`, `reactionRow?`), under the event it replies to, and the count kept there goes with it.

The terms in which both directions are described are rows, not calls: which row is in which table afterwards. The
order in which the helpers write does not appear, and neither does the way in which a counter is kept.
-/
import Rostra.Lib.Index
import Rostra.Db.Social
import Rostra.Proofs.Effects

namespace Rostra.Db

open Rostra Outcome

/-! ## 1. The tables of posts

The other reducers are looked at once, in order to be forgotten: follows, votes, news ranks, the feed and singleton
rows leave these tables alone. -/

/-- The projections that posts are read from. -/
structure SocialPart where
  posts : Table ShortEventId SocialPostRecord
  replies : Finset (ShortEventId × Timestamp × ShortEventId)
  reactions : Finset (ShortEventId × Timestamp × ShortEventId)
  byTime : Finset (Timestamp × ShortEventId)
  byReceivedAt : Table (Timestamp × ℕ) ShortEventId
  receivedAtKeys : Table ShortEventId (Timestamp × ℕ)
  replacedBy : Finset (RostraId × ShortEventId × ShortEventId)
  replaces : Finset (RostraId × ShortEventId × ShortEventId)
  selfMention : Finset ShortEventId

def socialPart (p : Projections) : SocialPart where
  posts := p.socialPosts
  replies := p.socialPostsReplies
  reactions := p.socialPostsReactions
  byTime := p.socialPostsByTime
  byReceivedAt := p.socialPostsByReceivedAt
  receivedAtKeys := p.socialPostsReceivedAtKeys
  replacedBy := p.socialPostsReplacedBy
  replaces := p.socialPostsReplaces
  selfMention := p.socialPostsSelfMention

theorem upsertSocialNewsRankTx_social (p : Projections) (id : ExternalEventId) (ts : Timestamp)
    (score : ℤ) : socialPart (upsertSocialNewsRankTx p id ts score) = socialPart p := by
  unfold upsertSocialNewsRankTx
  dsimp only
  split
  · rfl
  · rfl

theorem removeSocialNewsRankTx_social (p : Projections) (id : ExternalEventId) :
    socialPart (removeSocialNewsRankTx p id) = socialPart p := by
  unfold removeSocialNewsRankTx
  split
  · rfl
  · rfl

theorem recalculateNewsPostScoreTx_social (p : Projections) (id : ExternalEventId)
    (now : Timestamp) : socialPart (recalculateNewsPostScoreTx p id now).1 = socialPart p := by
  unfold recalculateNewsPostScoreTx
  split
  · rfl
  split
  · exact removeSocialNewsRankTx_social p id
  dsimp only
  split
  · rfl
  · exact upsertSocialNewsRankTx_social ..

theorem insertFollowTx_social (p : Projections) (a : RostraId) (o : EventOrder) (f : Follow) :
    socialPart (insertFollowTx p a o f).1 = socialPart p := by
  unfold insertFollowTx
  dsimp only
  split
  · rfl
  split
  · split
    · split
      · rfl
      · rfl
    · rfl
  · rfl

/-- The pruning loop deletes rows of the follow history. -/
theorem pruneFollowEventsThroughTx_rows (p : Projections) (a f : RostraId) (o : EventOrder) :
    ∃ rows, pruneFollowEventsThroughTx p a f o = { p with idsFollowEvents := rows } := by
  have hloop : ∀ (fuel : ℕ) (p : Projections), ∃ rows,
      pruneFollowEventsLoop a f o fuel p = { p with idsFollowEvents := rows } := by
    intro fuel
    induction fuel with
    | zero => exact fun p => ⟨_, rfl⟩
    | succ fuel ih =>
      intro p
      unfold pruneFollowEventsLoop
      dsimp only
      split
      · exact ⟨_, rfl⟩
      · obtain ⟨rows, hrows⟩ := ih { p with idsFollowEvents := p.idsFollowEvents \ _ }
        exact ⟨rows, hrows⟩
  exact hloop _ p

theorem insertUnfollowTx_social (p : Projections) (a : RostraId) (o : EventOrder) (f : RostraId) :
    socialPart (insertUnfollowTx p a o f).1 = socialPart p := by
  unfold insertUnfollowTx
  dsimp only
  split
  · rfl
  obtain ⟨rows, hrows⟩ := pruneFollowEventsThroughTx_rows { p with
    idsUnfollowed := p.idsUnfollowed.insert (a, f) ⟨(ofLex o).1, (ofLex o).2⟩ } a f o
  rw [hrows]
  split
  · split
    · rfl
    · rfl
  · rfl

theorem processSocialVoteTx_social (p : Projections) (vote : SocialVoteProjection) (a : RostraId)
    (o : EventOrder) :
    Ensures (processSocialVoteTx p vote a o) (fun p' => socialPart p' = socialPart p)
      (fun _ => True) := by
  unfold processSocialVoteTx
  dsimp only
  split
  · split
    · exact rfl
    · exact (ensures_true _).bind fun _ _ => rfl
  · exact rfl

theorem appendSocialPostMaterializationTx_social (ctx : TxCtx) (p : Projections)
    (id : ShortEventId) :
    Ensures (appendSocialPostMaterializationTx ctx p id) (fun p' => socialPart p' = socialPart p)
      (fun _ => True) := by
  unfold appendSocialPostMaterializationTx
  split
  · exact rfl
  refine (ensures_true _).bind fun next _ => ?_
  dsimp only
  split
  · trivial
  · exact rfl

section Social

variable [Primitives]

theorem insertSingletonTx_social (p : Projections) (v : VerifiedEvent) (r : EventSingletonRecord) :
    socialPart (insertSingletonTx p v r) = socialPart p := by
  unfold insertSingletonTx
  split
  · rfl
  · rfl

omit [Primitives] in
/-- A lifted computation. -/
theorem liftDb_ensures {α : Type} {m : DbResult α} {Q : α → Prop}
    (h : Ensures m Q (fun _ => True)) : Ensures (liftDb m) Q (fun _ => True) := by
  cases m with
  | ok a => exact h
  | error e => trivial

omit [Primitives] in
/-- A database computation finds no payload invalid. -/
theorem liftDb_ne_invalid {α : Type} (m : DbResult α) : liftDb m ≠ .error .invalid := by
  intro h
  cases m with
  | ok a => cases h
  | error e => cases h

/-- **Only posts write the tables of posts.** -/
theorem processKindTx_social (env : Env) (ctx : TxCtx) (p : Projections) (c : EventContent)
    (now : Timestamp) (hk : c.event.event.kind ≠ EventKind.SOCIAL_POST) :
    Ensures (processKindTx env ctx p c now) (fun r => socialPart r.1 = socialPart p)
      (fun _ => True) := by
  unfold processKindTx
  dsimp only
  split
  · unfold processDmTx
    dsimp only
    split
    · trivial
    refine (ensures_true _).bind fun bytes _ => ?_
    split
    · exact (ensures_true _).bind fun _ _ => rfl
    split
    · exact rfl
    · trivial
  split
  · refine (ensures_true _).bind fun f _ => ?_
    refine ensures_pure.mpr ?_
    dsimp only
    split
    · exact insertUnfollowTx_social ..
    · exact insertFollowTx_social ..
  split
  · exact (ensures_true _).bind fun _ _ => rfl
  split
  · exact (ensures_true _).bind fun _ _ => rfl
  split
  · refine (ensures_true _).bind fun vote _ => ?_
    split
    · exact rfl
    · refine (liftDb_ensures (processSocialVoteTx_social ..)).bind fun p' hp' => ?_
      exact hp'
  split
  · refine (ensures_true _).bind fun _ _ => (ensures_true _).bind fun _ _ => ?_
    exact rfl
  · exact rfl

/-! ## 2. The rows of one post

The rows are functions of the header and the content alone, and each of them tells the post it belongs to. So the
rows of different posts never meet, except in a counter. -/

/-- Where the rows of a post come from: its header and its content. -/
abbrev PostSource := Event × SocialPost

/-- A row under the post replied to, at the reply's own time. -/
abbrev IndexRow := ShortEventId × Timestamp × ShortEventId

def timeRow (id : ShortEventId) (x : PostSource) : Option (Timestamp × ShortEventId) :=
  some (x.1.timestamp, id)

/-- Replies and reactions have the same rows; they differ in what the post must carry. -/
def indexRow (present : SocialPost → Bool) (id : ShortEventId) (x : PostSource) : Option IndexRow :=
  if present x.2 then x.2.replyTo.map fun target => (target.eventId, x.1.timestamp, id) else none

def hasText (post : SocialPost) : Bool := post.djotContent.isSome

def hasReaction (post : SocialPost) : Bool := post.reaction.isSome

def mentionRow (env : Env) (id : ShortEventId) (x : PostSource) : Option ShortEventId :=
  if mentionsSelf env x.1.author x.2 then some id else none

/-- The counters kept for a post; a post without a row has none. -/
def SocialPart.replyCount (s : SocialPart) (target : ShortEventId) : ℕ :=
  ((s.posts.get target).getD {}).replyCount

def SocialPart.reactionCount (s : SocialPart) (target : ShortEventId) : ℕ :=
  ((s.posts.get target).getD {}).reactionCount

omit [Primitives] in
theorem timeRow_keyed : Index.Keyed timeRow := by
  intro k x k' x' r h h'
  cases h
  exact (Prod.mk.inj (Option.some.inj h')).2.symm

omit [Primitives] in
theorem indexRow_keyed (present : SocialPost → Bool) : Index.Keyed (indexRow present) := by
  intro k x k' x' r h h'
  have hid : ∀ {k x}, indexRow present k x = some r → r.2.2 = k := by
    intro k x h
    unfold indexRow at h
    split at h
    · obtain ⟨target, -, rfl⟩ := Option.map_eq_some_iff.mp h
      rfl
    · cases h
  exact (hid h).symm.trans (hid h')

/-- A mention row is the id of the post. -/
theorem mentionRow_id {env : Env} {id r : ShortEventId} {x : PostSource}
    (h : mentionRow env id x = some r) : r = id := by
  unfold mentionRow at h
  split at h
  · exact (Option.some.inj h).symm
  · cases h

theorem mentionRow_keyed (env : Env) : Index.Keyed (mentionRow env) := by
  intro k x k' x' r h h'
  exact (mentionRow_id h).symm.trans (mentionRow_id h')

/-! ## 3. Applying a post

Each table gets at most one row, and a counter goes up where a row was added. Only the receipt may be refused, when
there is one already, and the counters, at their limit. -/

/-- **What applying a post does** to the tables of posts, lineage apart: at most one row for each table, and one
more in a counter. -/
structure Applied (env : Env) (s s' : SocialPart) (id : ShortEventId) (x : PostSource) : Prop where
  byTime : s'.byTime = s.byTime ∪ (timeRow id x).toFinset
  receipt : ∃ key, s.receivedAtKeys.get id = none ∧ s.byReceivedAt.get key = none ∧
    s'.receivedAtKeys = s.receivedAtKeys.insert id key ∧
    s'.byReceivedAt = s.byReceivedAt.insert key id
  mentions : s'.selfMention = s.selfMention ∪ (mentionRow env id x).toFinset
  replies : s'.replies = s.replies ∪ (indexRow hasText id x).toFinset
  reactions : s'.reactions = s.reactions ∪ (indexRow hasReaction id x).toFinset
  replyCount : ∀ t, s'.replyCount t = s.replyCount t +
    Index.weight Prod.fst (indexRow hasText id x) t
  reactionCount : ∀ t, s'.reactionCount t = s.reactionCount t +
    Index.weight Prod.fst (indexRow hasReaction id x) t

omit [Primitives] in
theorem insertSocialPostReceiptTx_social (p : Projections) (id : ShortEventId) (at_ : Timestamp) :
    Ensures (insertSocialPostReceiptTx p id at_) (fun p' => ∃ key,
      p.socialPostsReceivedAtKeys.get id = none ∧ p.socialPostsByReceivedAt.get key = none ∧
      socialPart p' = { socialPart p with
        byReceivedAt := p.socialPostsByReceivedAt.insert key id
        receivedAtKeys := p.socialPostsReceivedAtKeys.insert id key }) (fun _ => True) := by
  unfold insertSocialPostReceiptTx
  split
  · trivial
  next hfresh =>
  unfold insertReceptionOrderedTx
  refine Ensures.bind (P := fun r => p.socialPostsByReceivedAt.get (at_, r.1) = none ∧
    r.2.2 = p.socialPostsByReceivedAt.insert (at_, r.1) id) ?_ fun r hr => ?_
  · refine (ensures_true _).bind fun ⟨order, next⟩ _ => ?_
    dsimp only
    split
    · trivial
    · next hfree => exact ⟨by simpa using hfree, rfl⟩
  · refine ⟨_, by simpa using hfresh, hr.1, ?_⟩
    rw [← hr.2]
    rfl

omit [Primitives] in
theorem indexRow_of_replyTo (present : SocialPost → Bool) (id : ShortEventId) {x : PostSource}
    {target : ExternalEventId} (ht : x.2.replyTo = some target) :
    indexRow present id x =
      if present x.2 then some (target.eventId, x.1.timestamp, id) else none := by
  rw [indexRow, ht, Option.map_some]

omit [Primitives] in
theorem indexRow_of_no_replyTo (present : SocialPost → Bool) (id : ShortEventId) {x : PostSource}
    (ht : x.2.replyTo = none) : indexRow present id x = none := by
  rw [indexRow, ht, Option.map_none, ite_self]

omit [Primitives] in
theorem union_indexRow (present : SocialPost → Bool) (id : ShortEventId) {x : PostSource}
    {target : ExternalEventId} (ht : x.2.replyTo = some target) (rows : Finset IndexRow) :
    rows ∪ (indexRow present id x).toFinset =
      if present x.2 then insert (target.eventId, x.1.timestamp, id) rows else rows := by
  rw [indexRow_of_replyTo present id ht]
  split
  · simp
  · simp

omit [Primitives] in
/-- A reply weighs one under its target and nothing elsewhere. -/
theorem weight_indexRow (present : SocialPost → Bool) (id : ShortEventId) {x : PostSource}
    {target : ExternalEventId} (ht : x.2.replyTo = some target) (t : ShortEventId) :
    Index.weight Prod.fst (indexRow present id x) t =
      if t = target.eventId ∧ present x.2 = true then 1 else 0 := by
  rw [indexRow_of_replyTo present id ht, Index.weight]
  by_cases hp : present x.2 = true
  · simp [hp, eq_comm]
  · simp [hp]

omit [Primitives] in
theorem countUpTx_eq (present : Bool) (count : ℕ) :
    Ensures (countUpTx present count) (fun n => n = count + if present then 1 else 0)
      (fun _ => True) := by
  unfold countUpTx
  split
  · unfold checkedAdd
    split
    · rfl
    · trivial
  · rfl

/-- The rows and counters of a reply. -/
theorem insertReplyToTx_social (p : Projections) (v : VerifiedEvent) (post : SocialPost) :
    Ensures (insertReplyToTx p v post) (fun p' => ∃ posts,
      socialPart p' = { socialPart p with
        posts := posts
        replies := p.socialPostsReplies ∪ (indexRow hasText v.id (v.event, post)).toFinset
        reactions := p.socialPostsReactions ∪ (indexRow hasReaction v.id (v.event, post)).toFinset } ∧
      (∀ t, (socialPart p').replyCount t = (socialPart p).replyCount t +
        Index.weight Prod.fst (indexRow hasText v.id (v.event, post)) t) ∧
      ∀ t, (socialPart p').reactionCount t = (socialPart p).reactionCount t +
        Index.weight Prod.fst (indexRow hasReaction v.id (v.event, post)) t) (fun _ => True) := by
  unfold insertReplyToTx
  split
  · next target ht =>
    have ht' : (v.event, post).2.replyTo = some target := ht
    unfold insertSocialPostReplyTx
    dsimp only
    refine (countUpTx_eq _ _).bind fun n hn => (countUpTx_eq _ _).bind fun m hm => ?_
    refine ⟨p.socialPosts.insert target.eventId ⟨n, m⟩, ?_, fun t => ?_, fun t => ?_⟩
    · rw [union_indexRow hasText v.id ht', union_indexRow hasReaction v.id ht']
      rfl
    · rw [weight_indexRow hasText v.id ht']
      simp only [SocialPart.replyCount, socialPart, Table.get_insert, hasText]
      by_cases hte : t = target.eventId
      · simp [hte, hn]
      · simp [hte]
    · rw [weight_indexRow hasReaction v.id ht']
      simp only [SocialPart.reactionCount, socialPart, Table.get_insert, hasReaction]
      by_cases hte : t = target.eventId
      · simp [hte, hm]
      · simp [hte]
  · next ht =>
    have ht' : (v.event, post).2.replyTo = none := ht
    refine ⟨p.socialPosts, ?_, fun t => ?_, fun t => ?_⟩
    · rw [indexRow_of_no_replyTo hasText v.id ht', indexRow_of_no_replyTo hasReaction v.id ht']
      simp [socialPart]
    · rw [indexRow_of_no_replyTo hasText v.id ht']
      simp [Index.weight]
    · rw [indexRow_of_no_replyTo hasReaction v.id ht']
      simp [Index.weight]

abbrev LineageTables := LineageRows × LineageRows

/-- The two lineage tables. -/
def SocialPart.lineage (s : SocialPart) : LineageTables := (s.replacedBy, s.replaces)

/-- **Applying a post**, helper by helper. Lineage is kept apart, since it is recorded on other paths as well. -/
theorem applySocialPostTx_applied (env : Env) (ctx : TxCtx) (p : Projections) (c : EventContent)
    (post : SocialPost) (replaced : Option ShortEventId) (now : Timestamp) :
    Ensures (applySocialPostTx env ctx p c post replaced now)
      (fun p' => Applied env (socialPart p) (socialPart p') c.event.id (c.event.event, post) ∧
        (socialPart p').lineage =
          (socialPart (replaced.elim p (insertSocialPostReplacementTx p c))).lineage)
      (fun _ => True) := by
  unfold applySocialPostTx
  extract_lets v author p₀
  refine (insertSocialPostReceiptTx_social _ _ _).bind fun p₁ ⟨key, hfresh, hfree, h₁⟩ => ?_
  extract_lets p₂ p₃ p₄
  refine (insertReplyToTx_social p₄ v post).bind fun p₅ ⟨posts, h₅, hreply, hreact⟩ => ?_
  refine (appendSocialPostMaterializationTx_social ctx p₅ _).mono (fun p₆ h₆ => ?_) fun _ h => h
  -- everything up to the reply touches other fields than the reply does
  have h₃ : socialPart p₃ = socialPart p₂ := by
    show socialPart (if _ then _ else _) = _
    split
    · exact upsertSocialNewsRankTx_social ..
    · rfl
  have h₂ : socialPart p₂ = { socialPart p₁ with
      replacedBy := (socialPart p₂).replacedBy, replaces := (socialPart p₂).replaces } := by
    cases replaced with
    | none => rfl
    | some old => rfl
  have h₄ : socialPart p₄ = { socialPart p₃ with selfMention :=
      (socialPart p₃).selfMention ∪ (mentionRow env v.id (v.event, post)).toFinset } := by
    show socialPart (if _ then _ else _) = _
    unfold mentionRow
    split
    · simp [socialPart]
    · simp
  have hbase : socialPart p₄ = { socialPart p with
      byTime := insert (v.event.timestamp, v.id) p.socialPostsByTime
      byReceivedAt := p.socialPostsByReceivedAt.insert key v.id
      receivedAtKeys := p.socialPostsReceivedAtKeys.insert v.id key
      replacedBy := (socialPart p₂).replacedBy
      replaces := (socialPart p₂).replaces
      selfMention := p.socialPostsSelfMention ∪ (mentionRow env v.id (v.event, post)).toFinset } := by
    rw [h₄, h₃, h₂, h₁]
    rfl
  have hrows : p₄.socialPostsReplies = p.socialPostsReplies ∧
      p₄.socialPostsReactions = p.socialPostsReactions :=
    ⟨congrArg SocialPart.replies hbase, congrArg SocialPart.reactions hbase⟩
  rw [h₆]
  refine ⟨⟨?_, ⟨key, hfresh, hfree, ?_, ?_⟩, ?_, ?_, ?_, fun t => ?_, fun t => ?_⟩, ?_⟩
  · rw [h₅, hbase]
    simp [timeRow, socialPart, v]
  · rw [h₅, hbase]
    rfl
  · rw [h₅, hbase]
    rfl
  · rw [h₅, hbase]
    rfl
  · rw [h₅, hrows.1]
    rfl
  · rw [h₅, hrows.2]
    rfl
  · rw [hreply, hbase]
    rfl
  · rw [hreact, hbase]
    rfl
  · rw [h₅, hbase]
    show (socialPart p₂).lineage = _
    have h₁' : p₁.socialPostsReplacedBy = p.socialPostsReplacedBy ∧
        p₁.socialPostsReplaces = p.socialPostsReplaces :=
      ⟨congrArg SocialPart.replacedBy h₁, congrArg SocialPart.replaces h₁⟩
    cases replaced with
    | none => simp [p₂, SocialPart.lineage, socialPart, h₁'.1, h₁'.2]
    | some old =>
      simp [p₂, SocialPart.lineage, socialPart, insertSocialPostReplacementTx, h₁'.1, h₁'.2]

/-! ## 4. Taking a post back

The reversal looks up what was applied and removes it. It may fail in more ways than the application, and each of
them is excluded by what is known of the tables: that the post was counted, and that its receipt leads to it. -/

/-- **What taking a post back does**: the same rows go. -/
structure Reverted (s s' : SocialPart) (id : ShortEventId) (x : PostSource) : Prop where
  byTime : s'.byTime = s.byTime \ (timeRow id x).toFinset
  keys : s'.receivedAtKeys = s.receivedAtKeys.remove id
  receipts : s'.byReceivedAt = (s.receivedAtKeys.get id).elim s.byReceivedAt s.byReceivedAt.remove
  mentions : s'.selfMention = s.selfMention.erase id
  replies : s'.replies = s.replies \ (indexRow hasText id x).toFinset
  reactions : s'.reactions = s.reactions \ (indexRow hasReaction id x).toFinset
  replyCount : ∀ t, s'.replyCount t + Index.weight Prod.fst (indexRow hasText id x) t =
    s.replyCount t
  reactionCount : ∀ t, s'.reactionCount t + Index.weight Prod.fst (indexRow hasReaction id x) t =
    s.reactionCount t
  /-- Lineage is never taken back. -/
  lineage : s'.lineage = s.lineage

/-- The counters have counted the post. -/
def Counted (s : SocialPart) (id : ShortEventId) (x : PostSource) : Prop :=
  ∀ t, Index.weight Prod.fst (indexRow hasText id x) t ≤ s.replyCount t ∧
    Index.weight Prod.fst (indexRow hasReaction id x) t ≤ s.reactionCount t

/-- A receipt key leads to a row that leads back. -/
def Receipted (s : SocialPart) (id : ShortEventId) : Prop :=
  ∀ key, s.receivedAtKeys.get id = some key → s.byReceivedAt.get key = some id

omit [Primitives] in
theorem removeSocialPostReceiptTx_social (p : Projections) (id : ShortEventId) :
    Ensures (removeSocialPostReceiptTx p id) (fun p' => socialPart p' = { socialPart p with
      receivedAtKeys := p.socialPostsReceivedAtKeys.remove id
      byReceivedAt := (p.socialPostsReceivedAtKeys.get id).elim p.socialPostsByReceivedAt
        p.socialPostsByReceivedAt.remove }) (fun _ => ¬Receipted (socialPart p) id) := by
  unfold removeSocialPostReceiptTx
  cases hk : p.socialPostsReceivedAtKeys.get id with
  | none =>
    simp only [Option.elim_none]
    rw [Table.remove_absent hk]
    exact rfl
  | some key =>
    dsimp only
    split
    · next hne => exact fun h => hne (h key hk)
    · exact rfl

omit [Primitives] in
theorem countDownTx_eq (present : Bool) (count : ℕ) :
    Ensures (countDownTx present count) (fun n => n + (if present then 1 else 0) = count)
      (fun _ => ¬(if present then 1 else 0) ≤ count) := by
  unfold countDownTx
  split
  · next hp =>
    unfold checkedSub
    split
    · next h => exact Nat.sub_add_cancel h
    · next h => exact h
  · rfl

omit [Primitives] in
theorem sdiff_indexRow (present : SocialPost → Bool) (id : ShortEventId) {x : PostSource}
    {target : ExternalEventId} (ht : x.2.replyTo = some target) (rows : Finset IndexRow) :
    rows \ (indexRow present id x).toFinset =
      if present x.2 then rows.erase (target.eventId, x.1.timestamp, id) else rows := by
  rw [indexRow_of_replyTo present id ht]
  split
  · simp [Finset.sdiff_singleton_eq_erase]
  · simp

/-- The rows and counters of a reply, taken back. -/
theorem removeReplyToTx_social (p : Projections) (v : VerifiedEvent) (post : SocialPost) :
    Ensures (removeReplyToTx p v post) (fun p' => ∃ posts,
      socialPart p' = { socialPart p with
        posts := posts
        replies := p.socialPostsReplies \ (indexRow hasText v.id (v.event, post)).toFinset
        reactions := p.socialPostsReactions \ (indexRow hasReaction v.id (v.event, post)).toFinset } ∧
      (∀ t, (socialPart p').replyCount t +
        Index.weight Prod.fst (indexRow hasText v.id (v.event, post)) t =
          (socialPart p).replyCount t) ∧
      ∀ t, (socialPart p').reactionCount t +
        Index.weight Prod.fst (indexRow hasReaction v.id (v.event, post)) t =
          (socialPart p).reactionCount t)
      (fun _ => ¬Counted (socialPart p) v.id (v.event, post)) := by
  unfold removeReplyToTx
  split
  · next target ht =>
    have ht' : (v.event, post).2.replyTo = some target := ht
    have hcounted : Counted (socialPart p) v.id (v.event, post) →
        (if post.djotContent.isSome then 1 else 0) ≤ (socialPart p).replyCount target.eventId ∧
          (if post.reaction.isSome then 1 else 0) ≤ (socialPart p).reactionCount target.eventId := by
      intro h
      have h' := h target.eventId
      rw [weight_indexRow hasText v.id ht', weight_indexRow hasReaction v.id ht'] at h'
      simpa [hasText, hasReaction] using h'
    unfold removeSocialPostReplyTx
    dsimp only
    refine ((countDownTx_eq _ _).mono (fun _ h => h) fun _ hno h => hno (hcounted h).1).bind
      fun n (hn : _ = (socialPart p).replyCount _) => ?_
    refine ((countDownTx_eq _ _).mono (fun _ h => h) fun _ hno h => hno (hcounted h).2).bind
      fun m (hm : _ = (socialPart p).reactionCount _) => ?_
    refine ⟨p.socialPosts.insert target.eventId ⟨n, m⟩, ?_, fun t => ?_, fun t => ?_⟩
    · rw [sdiff_indexRow hasText v.id ht', sdiff_indexRow hasReaction v.id ht']
      rfl
    · rw [weight_indexRow hasText v.id ht']
      simp only [SocialPart.replyCount, socialPart, Table.get_insert, hasText] at hn ⊢
      by_cases hte : t = target.eventId
      · simpa [hte] using hn
      · simp [hte]
    · rw [weight_indexRow hasReaction v.id ht']
      simp only [SocialPart.reactionCount, socialPart, Table.get_insert, hasReaction] at hm ⊢
      by_cases hte : t = target.eventId
      · simpa [hte] using hm
      · simp [hte]
  · next ht =>
    have ht' : (v.event, post).2.replyTo = none := ht
    refine ⟨p.socialPosts, ?_, fun t => ?_, fun t => ?_⟩
    · rw [indexRow_of_no_replyTo hasText v.id ht', indexRow_of_no_replyTo hasReaction v.id ht']
      simp [socialPart]
    · rw [indexRow_of_no_replyTo hasText v.id ht']
      simp [Index.weight]
    · rw [indexRow_of_no_replyTo hasReaction v.id ht']
      simp [Index.weight]

/-- **Taking a post back** fails only when its receipt is broken or its rows were not counted. -/
theorem revertSocialPostTx_reverted (p : Projections) (c : EventContent) (post : SocialPost) :
    Ensures (revertSocialPostTx p c post)
      (fun p' => Reverted (socialPart p) (socialPart p') c.event.id (c.event.event, post))
      (fun _ => ¬(Receipted (socialPart p) c.event.id ∧
        Counted (socialPart p) c.event.id (c.event.event, post))) := by
  unfold revertSocialPostTx
  extract_lets v p₀
  refine ((removeSocialPostReceiptTx_social p₀ v.id).mono (fun _ h => h)
    fun _ hno h => hno h.1).bind fun p₁ h₁ => ?_
  extract_lets p₂ p₃
  have h₂ : socialPart p₂ = socialPart p₁ := by
    show socialPart (if _ then _ else _) = _
    split
    · exact removeSocialNewsRankTx_social ..
    · rfl
  have hbase : socialPart p₃ = { socialPart p with
      byTime := p.socialPostsByTime.erase (v.event.timestamp, v.id)
      receivedAtKeys := p.socialPostsReceivedAtKeys.remove v.id
      byReceivedAt := (p.socialPostsReceivedAtKeys.get v.id).elim p.socialPostsByReceivedAt
        p.socialPostsByReceivedAt.remove
      selfMention := p.socialPostsSelfMention.erase v.id } := by
    show { socialPart p₂ with selfMention := (socialPart p₂).selfMention.erase v.id } = _
    rw [h₂, h₁]
    rfl
  have hrows : p₃.socialPostsReplies = p.socialPostsReplies ∧
      p₃.socialPostsReactions = p.socialPostsReactions :=
    ⟨congrArg SocialPart.replies hbase, congrArg SocialPart.reactions hbase⟩
  refine (removeReplyToTx_social p₃ v post).mono (fun p' ⟨posts, h₄, hreply, hreact⟩ => ?_)
    fun _ hno h => hno ?_
  · refine ⟨?_, ?_, ?_, ?_, ?_, ?_, fun t => ?_, fun t => ?_, ?_⟩
    · rw [h₄, hbase]
      simp [timeRow, socialPart, v, Finset.sdiff_singleton_eq_erase]
    · rw [h₄, hbase]
      rfl
    · rw [h₄, hbase]
      rfl
    · rw [h₄, hbase]
      rfl
    · rw [h₄, hrows.1]
      rfl
    · rw [h₄, hrows.2]
      rfl
    · rw [hreply, hbase]
      rfl
    · rw [hreact, hbase]
      rfl
    · rw [h₄, hbase]
      rfl
  · rw [hbase]
    exact h.2

/-! ## 5. Payloads

A payload need not decode, and a post may be a blank deletion. `projectedPost` puts the cases together, so that
both directions are described for every payload at once. -/

/-- The post that a payload projects: one that decodes and is not a blank deletion. -/
def projectedPost (c : EventContent) : Option SocialPost :=
  if c.event.event.kind = EventKind.SOCIAL_POST then
    c.socialPost?.filter fun post => decide (socialPostProjectionPlan c post ≠ .skip)
  else none

theorem projectedPost_post {c : EventContent} (hk : c.event.event.kind = EventKind.SOCIAL_POST)
    {post : SocialPost} (hp : c.socialPost? = some post) :
    projectedPost c = if socialPostProjectionPlan c post = .skip then none else some post := by
  rw [projectedPost, if_pos hk, hp, Option.filter_some]
  by_cases h : socialPostProjectionPlan c post = .skip
  · simp [h]
  · simp [h]

theorem projectedPost_unreadable {c : EventContent} (hp : c.socialPost? = none) :
    projectedPost c = none := by
  rw [projectedPost, hp]
  simp

/-- The plan names the replaced event and nothing else. -/
theorem socialPostProjectionPlan_eq (c : EventContent) (post : SocialPost) :
    socialPostProjectionPlan c post = .skip ∧ socialPostReplacedEventId c post = none ∨
      socialPostProjectionPlan c post = .apply (socialPostReplacedEventId c post) := by
  unfold socialPostProjectionPlan
  dsimp only
  split
  · next h =>
    rw [Bool.and_eq_true, Option.isNone_iff_eq_none] at h
    exact .inl ⟨rfl, h.2⟩
  · exact .inr rfl

/-- Lineage as the payload's own function. -/
theorem withLineage_post {c : EventContent} (hk : c.event.event.kind = EventKind.SOCIAL_POST)
    (hlen : c.event.event.contentLen < MAX_CONTENT_LEN) {post : SocialPost}
    (hp : c.socialPost? = some post) (p : Projections) :
    withLineage p c =
      (socialPostReplacedEventId c post).elim p (insertSocialPostReplacementTx p c) := by
  unfold withLineage lineageOf
  rw [if_pos ⟨hk, hlen⟩, hp, Option.bind_some]
  cases socialPostReplacedEventId c post with
  | none => rfl
  | some old => rfl

theorem withLineage_other {c : EventContent} (hk : c.event.event.kind ≠ EventKind.SOCIAL_POST)
    (p : Projections) : withLineage p c = p := by
  unfold withLineage lineageOf
  rw [if_neg fun h => hk h.1]

/-- **What a payload does to the tables of posts**: it applies its post, if it projects one, and otherwise nothing.
-/
theorem processEventContentInsertedTx_social (env : Env) (ctx : TxCtx) (p : Projections)
    (c : EventContent) (now : Timestamp) (hlen : c.event.event.contentLen < MAX_CONTENT_LEN) :
    Ensures (processEventContentInsertedTx env ctx p c now) (fun p' =>
      (socialPart p').lineage = (socialPart (withLineage p c)).lineage ∧
      match projectedPost c with
      | some post => Applied env (socialPart p) (socialPart p') c.event.id (c.event.event, post)
      | none => socialPart p' = socialPart p) (fun _ => True) := by
  unfold processEventContentInsertedTx
  refine Ensures.bind (P := fun r =>
    (socialPart r.1).lineage = (socialPart (withLineage p c)).lineage ∧
      match projectedPost c with
      | some post => Applied env (socialPart p) (socialPart r.1) c.event.id (c.event.event, post)
      | none => socialPart r.1 = socialPart p) ?_ fun ⟨p', record⟩ h => ?_
  · by_cases hk : c.event.event.kind = EventKind.SOCIAL_POST
    · have hpost : processKindTx env ctx p c now = processSocialPostTx env ctx p c now := by
        unfold processKindTx
        simp [hk, EventKind.SOCIAL_POST, EventKind.DM_DEVICE, EventKind.DIRECT_MESSAGE,
          EventKind.FOLLOW, EventKind.UNFOLLOW, EventKind.NODE_ANNOUNCEMENT,
          EventKind.SOCIAL_PROFILE_UPDATE]
      rw [hpost]
      unfold processSocialPostTx
      cases hp : c.socialPost? with
      | none => trivial
      | some post =>
        rw [withLineage_post hk hlen hp, projectedPost_post hk hp]
        refine Ensures.bind (P := (post = ·)) (ensures_ok.mpr rfl) fun decoded hdecoded => ?_
        subst hdecoded
        rcases socialPostProjectionPlan_eq c post with ⟨hplan, hrep⟩ | hplan
        · simp [hplan, hrep]
        · simp only [hplan]
          refine (liftDb_ensures (applySocialPostTx_applied env ctx p c post _ now)).bind
            fun p' h => ?_
          exact ⟨h.2, h.1⟩
    · refine (processKindTx_social env ctx p c now hk).mono (fun r hr => ?_) fun _ h => h
      rw [withLineage_other hk, projectedPost, if_neg hk, hr]
      exact ⟨rfl, rfl⟩
  · cases record with
    | none => exact h
    | some record =>
      show _ ∧ _
      rw [insertSingletonTx_social]
      exact h

/-- Taking a payload back: only what was projected is. -/
theorem processEventContentRevertedTx_eq (p : Projections) (c : EventContent) :
    processEventContentRevertedTx p c = match projectedPost c with
      | some post => liftDb (revertSocialPostTx p c post)
      | none => if c.event.event.kind = EventKind.SOCIAL_POST ∧ c.socialPost? = none then
          .error .invalid
        else .ok p := by
  unfold processEventContentRevertedTx
  by_cases hk : c.event.event.kind = EventKind.SOCIAL_POST
  · rw [if_pos hk]
    cases hp : c.socialPost? with
    | none => simp [projectedPost_unreadable hp, hk, decodeOr, bind, Except.bind]
    | some post =>
      rw [projectedPost_post hk hp]
      rcases socialPostProjectionPlan_eq c post with ⟨hplan, -⟩ | hplan
      · simp [hplan, decodeOr, bind, Except.bind, pure, Except.pure]
      · simp [hplan, decodeOr, bind, Except.bind]
  · simp [projectedPost, hk, pure, Except.pure]

/-- What is left after a payload was taken back, by either path. -/
def TakenBack (p p' : Projections) (c : EventContent) : Prop :=
  match projectedPost c with
  | some post => Reverted (socialPart p) (socialPart p') c.event.id (c.event.event, post)
  | none => p' = p

theorem processEventContentRevertedTx_takenBack (p : Projections) (c : EventContent) :
    Ensures (processEventContentRevertedTx p c) (fun p' => TakenBack p p' c) (fun _ => True) := by
  rw [processEventContentRevertedTx_eq]
  unfold TakenBack
  split
  · next post _ =>
    exact liftDb_ensures ((revertSocialPostTx_reverted p c post).mono (fun _ h => h)
      fun _ _ => trivial)
  · split
    · trivial
    · rfl

theorem TakenBack.lineage {p p' : Projections} {c : EventContent} (h : TakenBack p p' c) :
    (socialPart p').lineage = (socialPart p).lineage := by
  unfold TakenBack at h
  split at h
  · exact h.lineage
  · rw [h]

/-! ## 6. The two paths that take a payload back

A deletion carries the content with it when it arrives, and a quota release reads it from the store. They come out
the same. -/

/-- The projections before a deletion is carried out: those of the new header itself. -/
def lineageArrived (t : EventTables) (p : Projections) (v : VerifiedEvent) (isDeleted : Bool) :
    Projections :=
  if isDeleted then (storedContent t v).elim p fun c => withLineage p c.toEventContent else p

/-- A deletion reverts the content of the deleted parent, if it was handed over.  Only content that
was never projected is found unreadable. -/
theorem arrivedProjections_reverted {t : EventTables} {p p' : Projections} {v : VerifiedEvent}
    {isD : Bool} {dp : Option ShortEventId} {rev : Option Bytes}
    (h : arrivedProjections t p v isD dp rev = .ok p') :
    match revertedContent t dp rev with
    | some c => processEventContentRevertedTx (lineageArrived t p v isD) c = .ok p' ∨
        (projectedPost c = none ∧ p' = lineageArrived t p v isD)
    | none => p' = lineageArrived t p v isD := by
  unfold arrivedProjections revertDeletedTx at h
  split
  · next c hc =>
    simp only [hc, revertParentTx] at h
    split at h
    · next p'' hok =>
      cases h
      exact .inl hok
    · cases h
    · next hinv =>
      cases h
      rw [processEventContentRevertedTx_eq] at hinv
      cases hpost : projectedPost c with
      | some post =>
        rw [hpost] at hinv
        exact absurd hinv (liftDb_ne_invalid _)
      | none => exact .inr ⟨rfl, rfl⟩
  · next hc =>
    simp only [hc] at h
    cases h
    rfl

/-- **Deletion** takes back the content of the deleted parent, if it was handed over. It is handed over exactly
when it was processed. -/
theorem arrivedProjections_takenBack {t : EventTables} {p p' : Projections} {v : VerifiedEvent}
    {isD : Bool} {dp : Option ShortEventId} {rev : Option Bytes}
    (h : arrivedProjections t p v isD dp rev = .ok p') :
    match revertedContent t dp rev with
    | some c => TakenBack (lineageArrived t p v isD) p' c
    | none => p' = lineageArrived t p v isD := by
  have hrev := arrivedProjections_reverted h
  cases hc : revertedContent t dp rev with
  | none =>
    simp only [hc] at hrev ⊢
    exact hrev
  | some c =>
    simp only [hc] at hrev ⊢
    rcases hrev with hok | ⟨hpost, heq⟩
    · exact (processEventContentRevertedTx_takenBack _ c).of_ok hok
    · rw [TakenBack, hpost]
      exact heq

/-- A quota release reads the stored content of a processed post. -/
theorem dematerializeTx_reverted {db : Database} {v : VerifiedEvent} {target : QuotaPruneTarget}
    {p' : Projections} (h : dematerializeTx db v target = .ok p') :
    match target with
    | .missing => p' = db.proj
    | .processed => ∃ c, storedContent db.ev v = some c ∧
        processEventContentRevertedTx db.proj c.toEventContent = .ok p' := by
  cases target with
  | missing =>
    cases h
    rfl
  | processed =>
    unfold dematerializeTx at h
    unfold storedContent
    cases hb : db.ev.contentStore.get v.event.contentHash with
    | none =>
      simp only [hb] at h
      cases h
    | some b =>
      simp only [hb] at h
      cases hv : VerifiedEventContent.verify v (some b) with
      | none =>
        simp only [hv] at h
        cases h
      | some c =>
        simp only [hv] at h
        refine ⟨c, hv, ?_⟩
        split at h
        · next p'' hok =>
          cases h
          exact hok
        · cases h
        · cases h

/-- **A quota release** takes back the stored content of a processed post, as a deletion would. -/
theorem dematerializeTx_takenBack {db : Database} {v : VerifiedEvent} {target : QuotaPruneTarget}
    {p' : Projections} (h : dematerializeTx db v target = .ok p') :
    match target with
    | .missing => p' = db.proj
    | .processed => ∃ c, storedContent db.ev v = some c ∧ TakenBack db.proj p' c.toEventContent := by
  have hrev := dematerializeTx_reverted h
  cases target with
  | missing => exact hrev
  | processed =>
    obtain ⟨c, hc, hok⟩ := hrev
    exact ⟨c, hc, (processEventContentRevertedTx_takenBack _ _).of_ok hok⟩

end Social

end Rostra.Db
