/-
# Profiles and singletons converge

The profile of an author and the row of each author, kind and auxiliary key are registers: they keep
the value of the greatest (timestamp, id).  What a payload offers is a function of the payload, so
the rows are a function of the SET of payloads, if every payload that has something for a row also
gets to offer it.  The one obstacle is an error of the database, which leaves no trace of a payload.
Below the range of the counters (`Counters`) there are two: a vote that finds the row of another
key's vote, which the votes exclude, and a post that is projected already, which has nothing new to
offer.

A register is easy; that a payload gets to its register is the work. An error on the way, however unlikely, would
make the rows depend on the order, and so all of them have to be known.
-/
import Rostra.Lib.Register
import Rostra.Proofs.Latest

namespace Rostra.Db

open Rostra Outcome Register

/-! ## 1. The rows as registers

Both tables are written by one function of the code. -/

/-- The value of a row, under its stamp. -/
def stamped {V : Type} (eventId : V → ShortEventId) (r : Latest V) : EventOrder × V :=
  (toLex (r.ts, eventId r.inner), r.inner)

/-- A row is offered the value, the others are not. -/
theorem insertLatestValueTx_get {K V : Type} [DecidableEq K] (ts : Timestamp) (key k : K) (v : V)
    (eventId : V → ShortEventId) (t : Table K (Latest V)) :
    ((insertLatestValueTx ts key v eventId t).get k).map (stamped eventId) =
      if k = key then offer ((t.get k).map (stamped eventId)) (toLex (ts, eventId v), v)
      else (t.get k).map (stamped eventId) := by
  unfold insertLatestValueTx
  by_cases hk : k = key
  · subst hk
    rw [if_pos rfl]
    cases hg : t.get k with
    | none => simp [offer, stamped]
    | some existing =>
      dsimp only [Option.map_some, offer, stamped]
      split
      · rw [hg]
        rfl
      · simp [stamped]
  · rw [if_neg hk]
    split
    · split
      · rfl
      · rw [Table.get_insert_of_ne _ _ hk]
    · rw [Table.get_insert_of_ne _ _ hk]

/-! ## 2. Which errors there can be

Counters are bounded by the number of payloads so far, and a payload can only be refused where one is at its limit. -/

/-- The counters of the projections, and the bounds they have after so many payloads. -/
structure Counters (order replies feed : ℕ) (p : Projections) : Prop where
  next : p.receptionOrderNext.getD 0 ≤ order
  posts : ∀ k v, p.socialPostsByReceivedAt.get k = some v → k.2 < p.receptionOrderNext.getD 0
  shouts : ∀ k v, p.shoutboxPostsByReceivedAt.get k = some v → k.2 < p.receptionOrderNext.getD 0
  counts : ∀ id r, p.socialPosts.get id = some r → r.replyCount ≤ replies ∧ r.reactionCount ≤ replies
  feed : ∀ k ∈ p.socialPostMaterializations.keys, k < feed

theorem Counters.mono {a a' b b' f f' : ℕ} {p : Projections} (h : Counters a b f p) (ha : a ≤ a')
    (hb : b ≤ b') (hf : f ≤ f') : Counters a' b' f' p where
  next := h.next.trans ha
  posts := h.posts
  shouts := h.shouts
  counts := fun id r hr => ⟨(h.counts id r hr).1.trans hb, (h.counts id r hr).2.trans hb⟩
  feed := fun k hk => (h.feed k hk).trans_le hf

theorem counters_empty : Counters 0 0 0 {} where
  next := le_refl _
  posts := fun k v h => by simp at h
  shouts := fun k v h => by simp at h
  counts := fun id r h => by simp at h
  feed := fun k h => by cases h

/-- A sequence number below the range is fresh. -/
theorem insertReceptionOrderedTx_ok {V : Type} {next : Option ℕ} (receivedAt : Timestamp) (value : V)
    {t : Table (Timestamp × ℕ) V} (hnext : next.getD 0 < u64Max)
    (ht : ∀ k v, t.get k = some v → k.2 < next.getD 0) :
    insertReceptionOrderedTx next receivedAt value t =
      .ok (next.getD 0, some (next.getD 0 + 1), t.insert (receivedAt, next.getD 0) value) := by
  have hfree : t.get (receivedAt, next.getD 0) = none := by
    cases hg : t.get (receivedAt, next.getD 0) with
    | none => rfl
    | some v => exact absurd (ht _ _ hg) (lt_irrefl _)
  unfold insertReceptionOrderedTx nextReceptionOrderTx checkedAdd
  rw [if_pos (show next.getD 0 + 1 ≤ u64Max from hnext)]
  simp [bind, Except.bind, pure, Except.pure, hfree]

/-- The rows after one more reception. -/
theorem reception_lt {V : Type} {next : ℕ} {at_ : Timestamp} {value : V} {t : Table (Timestamp × ℕ) V}
    (ht : ∀ k v, t.get k = some v → k.2 < next) :
    ∀ k v, (t.insert (at_, next) value).get k = some v → k.2 < next + 1 := by
  intro k v hk
  rw [Table.get_insert] at hk
  split at hk
  · next heq =>
    rw [heq]
    exact Nat.lt_succ_self _
  · exact (ht k v hk).trans (Nat.lt_succ_self _)

/-- The post has been projected already. -/
def Receipt (p : Projections) (id : ShortEventId) : Prop :=
  (p.socialPostsReceivedAtKeys.get id).isSome = true

/-- Nothing was received in between: the receipts are the same, and so is the next number. -/
structure SameReceipts (p p' : Projections) : Prop where
  keys : p'.socialPostsReceivedAtKeys = p.socialPostsReceivedAtKeys
  next : p'.receptionOrderNext = p.receptionOrderNext

theorem SameReceipts.trans {p p' p'' : Projections} (h : SameReceipts p p')
    (h' : SameReceipts p' p'') : SameReceipts p p'' :=
  ⟨h'.keys.trans h.keys, h'.next.trans h.next⟩

theorem insertSocialPostReceiptTx_counters {a b f : ℕ} {p : Projections} (h : Counters a b f p)
    (ha : a < u64Max) (id : ShortEventId) (at_ : Timestamp) :
    Ensures (insertSocialPostReceiptTx p id at_)
      (fun p' => Counters (a + 1) b f p' ∧ (∀ id', Receipt p' id' → Receipt p id' ∨ id' = id) ∧
        p.receptionOrderNext.getD 0 ≤ p'.receptionOrderNext.getD 0)
      (fun _ => Receipt p id) := by
  unfold insertSocialPostReceiptTx
  dsimp only
  split
  · next hsome => exact hsome
  · rw [insertReceptionOrderedTx_ok at_ id (h.next.trans_lt ha) h.posts]
    refine ensures_pure.mpr ⟨⟨?_, ?_, ?_, h.counts, h.feed⟩, fun id' hid' => ?_, Nat.le_succ _⟩
    · exact Nat.succ_le_succ h.next
    · exact reception_lt h.posts
    · exact fun k v hk => (h.shouts k v hk).trans (Nat.lt_succ_self _)
    · unfold Receipt at hid' ⊢
      dsimp only at hid'
      rw [Table.get_insert] at hid'
      split at hid'
      · next heq => exact .inr heq
      · exact .inl hid'

section Kinds

variable [Primitives]

theorem insertReplyToTx_counters {a b f : ℕ} {p : Projections} (h : Counters a b f p)
    (hb : b < u64Max) (v : VerifiedEvent) (post : SocialPost) :
    Ensures (insertReplyToTx p v post)
      (fun p' => Counters a (b + 1) f p' ∧ SameReceipts p p') (fun _ => False) := by
  unfold insertReplyToTx
  split
  · next target _ =>
    unfold insertSocialPostReplyTx
    have hcount : ((p.socialPosts.get target.eventId).getD {}).replyCount ≤ b ∧
        ((p.socialPosts.get target.eventId).getD {}).reactionCount ≤ b := by
      cases hg : p.socialPosts.get target.eventId with
      | none => exact ⟨Nat.zero_le _, Nat.zero_le _⟩
      | some r => exact h.counts _ r hg
    have hup : ∀ present count, count ≤ b →
        Ensures (countUpTx present count) (fun n => n ≤ b + 1) (fun _ => False) := by
      intro present count hle
      unfold countUpTx checkedAdd
      split
      · rw [if_pos (show count + 1 ≤ u64Max by omega)]
        exact Nat.succ_le_succ hle
      · exact hle.trans (Nat.le_succ b)
    refine (hup _ _ hcount.1).bind fun replies hreplies => ?_
    refine (hup _ _ hcount.2).bind fun reactions hreactions => ?_
    refine ensures_pure.mpr ⟨⟨h.next, h.posts, h.shouts, fun id r hr => ?_, h.feed⟩, rfl, rfl⟩
    dsimp only at hr
    rw [Table.get_insert] at hr
    split at hr
    · cases hr
      exact ⟨hreplies, hreactions⟩
    · exact ⟨(h.counts id r hr).1.trans (Nat.le_succ b), (h.counts id r hr).2.trans (Nat.le_succ b)⟩
  · exact ⟨h.mono (le_refl _) (Nat.le_succ b) (le_refl _), rfl, rfl⟩

omit [Primitives] in
theorem appendSocialPostMaterializationTx_counters {a b f : ℕ} {p : Projections}
    (h : Counters a b f p) (hf : f < u64Max) (ctx : TxCtx) (id : ShortEventId) :
    Ensures (appendSocialPostMaterializationTx ctx p id)
      (fun p' => Counters a b (f + 1) p' ∧ SameReceipts p p') (fun _ => False) := by
  have hnext : Ensures (nextMaterializationTx p) (fun n => n ≤ f) (fun _ => False) := by
    unfold nextMaterializationTx
    split
    · exact Nat.zero_le f
    · next last hlast =>
      have hlt := h.feed last (Table.greatest_mem hlast)
      unfold checkedAdd
      rw [if_pos (show last + 1 ≤ u64Max by omega)]
      exact hlt
  unfold appendSocialPostMaterializationTx
  cases ctx.materializationEmission with
  | false => exact ⟨h.mono (le_refl _) (le_refl _) (Nat.le_succ f), rfl, rfl⟩
  | true =>
    refine hnext.bind fun next hle => ?_
    dsimp only
    rw [if_neg (show ¬next = u64Max by omega)]
    refine ensures_pure.mpr ⟨⟨h.next, h.posts, h.shouts, h.counts, fun k hk => ?_⟩, rfl, rfl⟩
    dsimp only at hk
    rw [Table.keys_insert, Finset.mem_insert] at hk
    rcases hk with rfl | hk
    · omega
    · exact (h.feed k hk).trans (Nat.lt_succ_self f)

/-- **An applied post** moves each counter by one; it is refused only when it has its receipt, as long as the
counters are below their range. -/
theorem applySocialPostTx_counters {n : ℕ} {p : Projections} (h : Counters n n n p)
    (hn : n < u64Max) (env : Env) (ctx : TxCtx) (c : EventContent) (post : SocialPost)
    (replaced : Option ShortEventId) (now : Timestamp) :
    Ensures (applySocialPostTx env ctx p c post replaced now)
      (fun p' => Counters (n + 1) (n + 1) (n + 1) p' ∧
        (∀ id, Receipt p' id → Receipt p id ∨ id = c.event.id) ∧
        p.receptionOrderNext.getD 0 ≤ p'.receptionOrderNext.getD 0)
      (fun _ => Receipt p c.event.id) := by
  unfold applySocialPostTx
  extract_lets v author p₀
  have h₀ : Counters n n n p₀ := ⟨h.next, h.posts, h.shouts, h.counts, h.feed⟩
  refine (insertSocialPostReceiptTx_counters h₀ hn _ _).bind fun p₁ hreceipt => ?_
  obtain ⟨h₁, hr₁, hnext₁⟩ := hreceipt
  extract_lets p₂ p₃ p₄
  have h₂ : Counters (n + 1) n n p₂ ∧ SameReceipts p₁ p₂ := by
    cases replaced with
    | none => exact ⟨h₁, rfl, rfl⟩
    | some old => exact ⟨⟨h₁.next, h₁.posts, h₁.shouts, h₁.counts, h₁.feed⟩, rfl, rfl⟩
  have h₃ : Counters (n + 1) n n p₃ ∧ SameReceipts p₂ p₃ := by
    obtain ⟨h₂, -⟩ := h₂
    show Counters _ _ _ (if _ then _ else _) ∧ SameReceipts _ (if _ then _ else _)
    split
    · rw [upsertSocialNewsRankTx_frame]
      exact ⟨⟨h₂.next, h₂.posts, h₂.shouts, h₂.counts, h₂.feed⟩, rfl, rfl⟩
    · exact ⟨h₂, rfl, rfl⟩
  have h₄ : Counters (n + 1) n n p₄ ∧ SameReceipts p₃ p₄ := by
    obtain ⟨h₃, -⟩ := h₃
    show Counters _ _ _ (if _ then _ else _) ∧ SameReceipts _ (if _ then _ else _)
    split
    · exact ⟨⟨h₃.next, h₃.posts, h₃.shouts, h₃.counts, h₃.feed⟩, rfl, rfl⟩
    · exact ⟨h₃, rfl, rfl⟩
  refine ((insertReplyToTx_counters h₄.1 hn v post).mono (fun _ h => h) fun _ h => h.elim).bind
    fun p₅ hreply => ?_
  obtain ⟨h₅, hsame₅⟩ := hreply
  refine (appendSocialPostMaterializationTx_counters h₅ hn ctx v.id).mono (fun p₆ hfeed => ?_)
    fun _ h => h.elim
  have hsame := h₂.2.trans (h₃.2.trans (h₄.2.trans (hsame₅.trans hfeed.2)))
  refine ⟨hfeed.1, fun id hid => hr₁ id ?_, ?_⟩
  · unfold Receipt at hid ⊢
    rwa [hsame.keys] at hid
  · rw [hsame.next]
    exact hnext₁

/-- Which errors of the database a payload can meet: a vote, or a post with its receipt. -/
def KnownError (p : Projections) (c : EventContent) (e : ProcessEventError) : Prop :=
  e = .invalid ∨ c.event.event.kind = EventKind.SOCIAL_VOTE ∨ Receipt p c.event.id

/-- What a payload leaves of the counters and the receipts. -/
structure Numbered (n : ℕ) (p : Projections) (c : EventContent) (p' : Projections) : Prop where
  counters : Counters (n + 1) (n + 1) (n + 1) p'
  receipts : ∀ id, Receipt p' id → Receipt p id ∨ id = c.event.id
  next : p.receptionOrderNext.getD 0 ≤ p'.receptionOrderNext.getD 0

/-- A reducer that leaves the counted tables alone. -/
theorem Numbered.of_same {n : ℕ} {p p' : Projections} {c : EventContent} (h : Counters n n n p)
    (hs : socialPart p' = socialPart p) (hn : p'.receptionOrderNext = p.receptionOrderNext)
    (hsh : p'.shoutboxPostsByReceivedAt = p.shoutboxPostsByReceivedAt)
    (hf : p'.socialPostMaterializations = p.socialPostMaterializations) : Numbered n p c p' := by
  have hposts : p'.socialPosts = p.socialPosts := congrArg SocialPart.posts hs
  have hrows : p'.socialPostsByReceivedAt = p.socialPostsByReceivedAt :=
    congrArg SocialPart.byReceivedAt hs
  have hkeys : p'.socialPostsReceivedAtKeys = p.socialPostsReceivedAtKeys :=
    congrArg SocialPart.receivedAtKeys hs
  refine ⟨Counters.mono (a := n) (b := n) (f := n) ?_ (Nat.le_succ n) (Nat.le_succ n) (Nat.le_succ n),
    fun id hid => .inl ?_, by rw [hn]⟩
  · refine ⟨?_, ?_, ?_, ?_, ?_⟩
    · rw [hn]
      exact h.next
    · rw [hn, hrows]
      exact h.posts
    · rw [hn, hsh]
      exact h.shouts
    · rw [hposts]
      exact h.counts
    · rw [hf]
      exact h.feed
  · unfold Receipt at hid ⊢
    rwa [hkeys] at hid

/-- A decoder's refusal is the payload's own. -/
theorem decodeOr_numbered {α β : Type} {o : Option α} {f : α → ProcessEventResult β} {Q : β → Prop}
    {p : Projections} {c : EventContent} (hf : ∀ a, Ensures (f a) Q (KnownError p c)) :
    Ensures (decodeOr o >>= f) Q (KnownError p c) := by
  cases o with
  | none => exact .inl rfl
  | some a => exact hf a

/-- An error of the database on the way. -/
theorem liftDb_numbered {α β : Type} {m : DbResult α} {f : α → ProcessEventResult β} {P : α → Prop}
    {Q : β → Prop} {p : Projections} {c : EventContent}
    (hm : Ensures m P (fun _ => c.event.event.kind = EventKind.SOCIAL_VOTE ∨ Receipt p c.event.id))
    (hf : ∀ a, P a → Ensures (f a) Q (KnownError p c)) :
    Ensures (liftDb m >>= f) Q (KnownError p c) := by
  cases m with
  | ok a => exact hf a hm
  | error e => exact .inr hm

theorem processKindTx_numbered {n : ℕ} {p : Projections} (h : Counters n n n p) (hn : n < u64Max)
    (env : Env) (ctx : TxCtx) (c : EventContent) (now : Timestamp) :
    Ensures (processKindTx env ctx p c now) (fun r => Numbered n p c r.1) (KnownError p c) := by
  unfold processKindTx
  dsimp only
  split
  · unfold processDmTx
    dsimp only
    split
    · exact .inl rfl
    refine decodeOr_numbered fun bytes => ?_
    split
    · exact decodeOr_numbered fun a => .of_same h rfl rfl rfl rfl
    split
    · exact .of_same h rfl rfl rfl rfl
    · exact .inl rfl
  split
  · refine decodeOr_numbered fun f => ensures_pure.mpr ?_
    dsimp only
    split
    · obtain ⟨u, v, w, x, heq⟩ := insertUnfollowTx_frame p c.event.event.author (orderOf c) f.followee
      exact .of_same h (insertUnfollowTx_social ..) (by rw [← orderOf, heq]) (by rw [← orderOf, heq])
        (by rw [← orderOf, heq])
    · obtain ⟨u, v, w, heq⟩ := insertFollowTx_frame p c.event.event.author (orderOf c) f
      exact .of_same h (insertFollowTx_social ..) (by rw [← orderOf, heq]) (by rw [← orderOf, heq])
        (by rw [← orderOf, heq])
  split
  · exact decodeOr_numbered fun addr => .of_same h rfl rfl rfl rfl
  split
  · exact decodeOr_numbered fun content => .of_same h rfl rfl rfl rfl
  split
  · refine decodeOr_numbered fun post => ?_
    split
    · exact .of_same h rfl rfl rfl rfl
    · next replaced _ =>
      refine liftDb_numbered ((applySocialPostTx_counters h hn env ctx c post replaced now).mono
        (fun p' h' => h') fun _ he => .inr he) fun p' h' =>
          ensures_pure.mpr ⟨h'.1, h'.2.1, h'.2.2⟩
  split
  · next hk =>
    refine decodeOr_numbered fun content => ?_
    split
    · exact .of_same h rfl rfl rfl rfl
    · next vote _ =>
      refine liftDb_numbered ((processSocialVoteTx_frame p vote _ _).mono (fun p' h' => h')
        fun _ _ => .inl hk) fun p' ⟨s, h'⟩ => ensures_pure.mpr ?_
      rw [h']
      exact .of_same h rfl rfl rfl rfl
  split
  · refine decodeOr_numbered fun content => ?_
    rw [insertReceptionOrderedTx_ok _ _ (h.next.trans_lt hn) h.shouts]
    refine ensures_pure.mpr ⟨⟨?_, ?_, ?_, ?_, ?_⟩, fun _ hid => .inl hid, Nat.le_succ _⟩
    · exact Nat.succ_le_succ h.next
    · exact fun k v hk => (h.posts k v hk).trans (Nat.lt_succ_self _)
    · exact reception_lt h.shouts
    · exact (h.mono (le_refl _) (Nat.le_succ n) (le_refl _)).counts
    · exact (h.mono (le_refl _) (le_refl _) (Nat.le_succ n)).feed
  · exact .of_same h rfl rfl rfl rfl

/-- **One more payload** moves the counters by at most one, and is refused only for what is in the row of a vote or
for its receipt. -/
theorem processEventContentInsertedTx_numbered {n : ℕ} {p : Projections} (h : Counters n n n p)
    (hn : n < u64Max) (env : Env) (ctx : TxCtx) (c : EventContent) (now : Timestamp) :
    Ensures (processEventContentInsertedTx env ctx p c now) (Numbered n p c) (KnownError p c) := by
  unfold processEventContentInsertedTx
  refine (processKindTx_numbered h hn env ctx c now).bind fun ⟨p', record⟩ h' => ?_
  cases record with
  | none => exact h'
  | some r =>
    refine ensures_pure.mpr ?_
    unfold insertSingletonTx
    split
    · obtain ⟨h', hr, hnext⟩ := h'
      exact ⟨⟨h'.next, h'.posts, h'.shouts, h'.counts, h'.feed⟩, hr, hnext⟩
    · exact h'

/-- The counters after a run, and whose receipts there are. -/
theorem projectAll_numbered (env : Env) (ctx : TxCtx) (items : List (EventContent × Timestamp))
    (hcount : items.length ≤ u64Max) :
    Counters items.length items.length items.length (projectAll env ctx items) ∧
      ∀ id, Receipt (projectAll env ctx items) id → ∃ i ∈ items, i.1.event.id = id := by
  induction items using List.reverseRecOn with
  | nil => exact ⟨counters_empty, fun id hid => by cases hid⟩
  | append_singleton items i ih =>
    rw [List.length_append, List.length_singleton] at hcount ⊢
    obtain ⟨hcounters, hreceipts⟩ := ih (by omega)
    have hstep := processEventContentInsertedTx_numbered hcounters (by omega) env ctx i.1 i.2
    have hold : ∀ id, Receipt (projectAll env ctx items) id → ∃ j ∈ items ++ [i], j.1.event.id = id := by
      intro id hid
      obtain ⟨j, hj, heq⟩ := hreceipts id hid
      exact ⟨j, List.mem_append_left _ hj, heq⟩
    rw [projectAll_concat]
    cases hr : processEventContentInsertedTx env ctx (projectAll env ctx items) i.1 i.2 with
    | ok p' =>
      obtain ⟨hc, hk⟩ := hstep.of_ok hr
      refine ⟨hc, fun id hid => ?_⟩
      rcases hk id hid with hid | rfl
      · exact hold id hid
      · exact ⟨i, List.mem_append_right _ (List.mem_singleton_self i), rfl⟩
    | error e => exact ⟨hcounters.mono (Nat.le_succ _) (Nat.le_succ _) (Nat.le_succ _), hold⟩

/-! ## 3. Any order of payloads

Each row is the greatest of the offers that were made to it. The offers are a function of the payloads, and so
their order and their number do not matter. -/

/-- The profiles an author was offered, with their stamps. -/
def profilesOf (items : List (EventContent × Timestamp)) (author : RostraId) :
    Set (EventOrder × IdSocialProfileRecord) :=
  offers items (fun i => i.1.event.event.author) (fun i => orderOf i.1) (fun i => profileOf i.1) author

/-- The records a row was offered, with their stamps. -/
def singletonsOf (items : List (EventContent × Timestamp))
    (key : RostraId × EventKind × EventAuxKey) : Set (EventOrder × EventSingletonRecord) :=
  offers items (fun i => singletonKey i.1) (fun i => orderOf i.1) (fun i => singletonRecordOf i.1) key

/-- The profile of an author. -/
def profileRow (p : Projections) (author : RostraId) : Option (EventOrder × IdSocialProfileRecord) :=
  (p.socialProfiles.get author).map (stamped IdSocialProfileRecord.eventId)

/-- The row of an author, a kind and an auxiliary key. -/
def singletonRow (p : Projections) (key : RostraId × EventKind × EventAuxKey) :
    Option (EventOrder × EventSingletonRecord) :=
  (p.eventsSingletonsNew.get key).map (stamped EventSingletonRecord.eventId)

/-- What a payload offers is stamped with its own id. -/
theorem profileOf_eventId {c : EventContent} {r : IdSocialProfileRecord} (h : profileOf c = some r) :
    r.eventId = c.event.id := by
  unfold profileOf at h
  split at h
  · obtain ⟨content, -, rfl⟩ := Option.map_eq_some_iff.mp h
    rfl
  · cases h

theorem singletonRecordOf_eventId {c : EventContent} {r : EventSingletonRecord}
    (h : singletonRecordOf c = some r) : r.eventId = c.event.id := by
  unfold singletonRecordOf recordOfKind at h
  dsimp only at h
  repeat' split at h
  all_goals first
    | cases h; done
    | (cases h; rfl)
    | (obtain ⟨_, -, rfl⟩ := Option.map_eq_some_iff.mp h; rfl)

/-- The row of a profile after a payload was offered to the tables. -/
theorem latestAfter_profiles (q : LatestPart) (i : EventContent × Timestamp) (author : RostraId) :
    ((latestAfter q i.1).profiles.get author).map (stamped IdSocialProfileRecord.eventId) =
      next ((q.profiles.get author).map (stamped IdSocialProfileRecord.eventId))
        (fun i => i.1.event.event.author) (fun i => orderOf i.1) (fun i => profileOf i.1) author i := by
  unfold latestAfter next
  dsimp only
  cases hp : profileOf i.1 with
  | none => simp
  | some r =>
    dsimp only [Option.elim_some]
    rw [insertLatestValueTx_get, profileOf_eventId hp]
    by_cases ha : author = i.1.event.event.author
    · rw [if_pos ha, if_pos ha.symm]
      rfl
    · rw [if_neg ha, if_neg (Ne.symm ha)]

theorem latestAfter_singletons (q : LatestPart) (i : EventContent × Timestamp)
    (key : RostraId × EventKind × EventAuxKey) :
    ((latestAfter q i.1).singletons.get key).map (stamped EventSingletonRecord.eventId) =
      next ((q.singletons.get key).map (stamped EventSingletonRecord.eventId))
        (fun i => singletonKey i.1) (fun i => orderOf i.1) (fun i => singletonRecordOf i.1) key i := by
  unfold latestAfter next
  dsimp only
  cases hp : singletonRecordOf i.1 with
  | none => simp
  | some r =>
    dsimp only [Option.elim_some]
    rw [insertLatestValueTx_get, singletonRecordOf_eventId hp]
    by_cases ha : key = singletonKey i.1
    · rw [if_pos ha, if_pos ha.symm]
      rfl
    · rw [if_neg ha, if_neg (Ne.symm ha)]

/-- **The profile** is the latest one offered. No bound on the number of payloads is needed, as a profile meets no
counter. -/
theorem projectAll_profiles (env : Env) (ctx : TxCtx) (items : List (EventContent × Timestamp))
    (author : RostraId) :
    Holds (profilesOf items author) (profileRow (projectAll env ctx items) author) := by
  induction items using List.reverseRecOn with
  | nil => exact offers_nil
  | append_singleton items i ih =>
    have hstep := (commit_latest env ctx (projectAll env ctx items) i.2 i.1).2.1
    have hrow : profileRow (projectAll env ctx (items ++ [i])) author =
        ((latestAfter (latestPart (projectAll env ctx items)) i.1).profiles.get author).map
          (stamped IdSocialProfileRecord.eventId) := by
      rw [← hstep, projectAll_concat]
      rfl
    rw [hrow, latestAfter_profiles]
    exact ih.concat i

/-- There are no more votes than payloads. -/
theorem votesOf_ncard_le (items : List (EventContent × Timestamp)) :
    (votesOf items).ncard ≤ items.length := by
  classical
  have hsub : votesOf items ⊆ ((items.filterMap fun i => voteEventOf i.1).toFinset : Set VoteEvent) := by
    rintro x ⟨i, hi, hx⟩
    exact List.mem_toFinset.mpr (List.mem_filterMap.mpr ⟨i, hi, hx⟩)
  calc (votesOf items).ncard
      ≤ ((items.filterMap fun i => voteEventOf i.1).toFinset : Set VoteEvent).ncard :=
        Set.ncard_le_ncard hsub (Finset.finite_toSet _)
    _ = (items.filterMap fun i => voteEventOf i.1).toFinset.card := Set.ncard_coe_finset _
    _ ≤ (items.filterMap fun i => voteEventOf i.1).length := List.toFinset_card_le _
    _ ≤ items.length := List.length_filterMap_le _ _

/-- Below the range of the counters, an error of the database is a post that is there already. -/
theorem projectAll_error {env : Env} {ctx : TxCtx} {items : List (EventContent × Timestamp)}
    (hcount : items.length < 2 ^ 63) {c : EventContent} {now : Timestamp} {e : DbError}
    (h : processEventContentInsertedTx env ctx (projectAll env ctx items) c now = .error (.db e)) :
    ∃ i ∈ items, i.1.event.id = c.event.id := by
  have hmax : items.length < u64Max := hcount.trans (by decide)
  obtain ⟨hcounters, hreceipts⟩ := projectAll_numbered env ctx items hmax.le
  rcases (processEventContentInsertedTx_numbered hcounters hmax env ctx c now).of_error h with
    he | hvote | hreceipt
  · cases he
  · have hstate := projectAll_voteState env ctx items ((votesOf_ncard_le items).trans_lt hcount)
    exact absurd h (hstate.rows.no_error env ctx now hvote e)
  · exact hreceipts _ hreceipt

/-- **The row of a singleton** is the latest record offered to it, up to 2^63 payloads. The bound is that of the
sums of votes. -/
theorem projectAll_singletons (env : Env) (ctx : TxCtx) {items : List (EventContent × Timestamp)}
    (hdist : DistinctPayloads items) (hcount : items.length < 2 ^ 63)
    (key : RostraId × EventKind × EventAuxKey) :
    Holds (singletonsOf items key) (singletonRow (projectAll env ctx items) key) := by
  induction items using List.reverseRecOn with
  | nil => exact offers_nil
  | append_singleton items i ih =>
    have hlen : items.length < 2 ^ 63 := by
      rw [List.length_append] at hcount
      omega
    have ih := ih (fun j hj k hk => hdist j (List.mem_append_left _ hj) k (List.mem_append_left _ hk))
      hlen
    rcases (commit_latest env ctx (projectAll env ctx items) i.2 i.1).2.2 with hstep | ⟨hsame, e, he⟩
    · have hrow : singletonRow (projectAll env ctx (items ++ [i])) key =
          ((latestAfter (latestPart (projectAll env ctx items)) i.1).singletons.get key).map
            (stamped EventSingletonRecord.eventId) := by
        rw [← hstep, projectAll_concat]
        rfl
      rw [hrow, latestAfter_singletons]
      exact ih.concat i
    · -- the payload left no trace, and has nothing new to offer
      obtain ⟨j, hj, hid⟩ := projectAll_error hlen he
      have hji := hdist j (List.mem_append_left _ hj) i
        (List.mem_append_right _ (List.mem_singleton_self i)) hid
      have hrow : singletonRow (projectAll env ctx (items ++ [i])) key =
          singletonRow (projectAll env ctx items) key := by
        unfold singletonRow
        rw [projectAll_concat, ← hsame]
        rfl
      rw [hrow, singletonsOf, offers_concat_of_mem ⟨j, hj, by rw [hji], by rw [hji], by rw [hji]⟩]
      exact ih

/-- Distinct payloads have distinct stamps. -/
theorem offers_distinct {K V : Type} {items : List (EventContent × Timestamp)}
    (hdist : DistinctPayloads items) (key : EventContent → K) (value : EventContent → Option V) (k : K) :
    ∀ x ∈ offers items (fun i => key i.1) (fun i => orderOf i.1) (fun i => value i.1) k,
      ∀ y ∈ offers items (fun i => key i.1) (fun i => orderOf i.1) (fun i => value i.1) k,
        x.1 = y.1 → x = y := by
  rintro x ⟨i, hi, -, hsx, hvx⟩ y ⟨j, hj, -, hsy, hvy⟩ heq
  have hij := hdist.of_order hi hj (hsx.trans (heq.trans hsy.symm))
  dsimp only at hvx
  rw [hij] at hvx
  exact Prod.ext heq (Option.some.inj (hvx.symm.trans hvy))

/-- The offers of a list of payloads are those of its payloads. -/
theorem offers_same {K V : Type} {items items' : List (EventContent × Timestamp)}
    (h : ∀ c, (∃ i ∈ items', i.1 = c) ↔ ∃ i ∈ items, i.1 = c) (key : EventContent → K)
    (value : EventContent → Option V) (k : K) :
    offers items' (fun i => key i.1) (fun i => orderOf i.1) (fun i => value i.1) k =
      offers items (fun i => key i.1) (fun i => orderOf i.1) (fun i => value i.1) k := by
  ext x
  constructor
  · rintro ⟨i, hi, hx⟩
    obtain ⟨j, hj, hji⟩ := (h i.1).mp ⟨i, hi, rfl⟩
    dsimp only at hx
    rw [← hji] at hx
    exact ⟨j, hj, hx⟩
  · rintro ⟨i, hi, hx⟩
    obtain ⟨j, hj, hji⟩ := (h i.1).mpr ⟨i, hi, rfl⟩
    dsimp only at hx
    rw [← hji] at hx
    exact ⟨j, hj, hx⟩

/-- **Latest values converge.**  After any list of payloads, in any order and with repetitions, the
profile of every author and the row of every author, kind and auxiliary key hold exactly the value
of the greatest (timestamp, id) among the payloads that have one for them: those that are readable
for their kind, without the skipped posts and the votes that have not the shape of one.  Another
list of the same payloads leaves the same rows. -/
theorem latest_values_converge (env env' : Env) (ctx ctx' : TxCtx)
    (items items' : List (EventContent × Timestamp)) (hdist : DistinctPayloads items)
    (hsame : ∀ c, (∃ i ∈ items', i.1 = c) ↔ ∃ i ∈ items, i.1 = c)
    (hcount : items.length < 2 ^ 63) (hcount' : items'.length < 2 ^ 63) :
    (∀ author, Holds (profilesOf items author) (profileRow (projectAll env ctx items) author)) ∧
      (∀ key, Holds (singletonsOf items key) (singletonRow (projectAll env ctx items) key)) ∧
      (∀ author, profileRow (projectAll env' ctx' items') author =
        profileRow (projectAll env ctx items) author) ∧
      ∀ key, singletonRow (projectAll env' ctx' items') key =
        singletonRow (projectAll env ctx items) key := by
  have hdist' : DistinctPayloads items' := by
    intro i hi j hj hid
    obtain ⟨i', hi', heqi⟩ := (hsame i.1).mp ⟨i, hi, rfl⟩
    obtain ⟨j', hj', heqj⟩ := (hsame j.1).mp ⟨j, hj, rfl⟩
    rw [← heqi, ← heqj] at hid ⊢
    exact hdist i' hi' j' hj' hid
  have hprofiles := projectAll_profiles env ctx items
  have hsingletons := projectAll_singletons env ctx hdist hcount
  refine ⟨hprofiles, hsingletons, fun author => ?_, fun key => ?_⟩
  · have h' := projectAll_profiles env' ctx' items' author
    rw [profilesOf, offers_same hsame (fun c => c.event.event.author) profileOf] at h'
    exact h'.unique (hprofiles author)
      (offers_distinct hdist (fun c => c.event.event.author) profileOf author)
  · have h' := projectAll_singletons env' ctx' hdist' hcount' key
    rw [singletonsOf, offers_same hsame singletonKey singletonRecordOf] at h'
    exact h'.unique (hsingletons key) (offers_distinct hdist singletonKey singletonRecordOf key)

end Kinds

/-! ## 4. A singleton that leaves no row

Votes of a bad shape return early, by an explicit test. They make no offer, and the result says so. -/

section Sample

attribute [local instance] votePrimitives

/-- The two votes of one voter for two targets with one short id, in two orders. -/
theorem latest_values_converge_sampleVotes :
    (singletonRow (projectAll sampleEnv {} sampleVotesBackwards)
        (toLex (0, 1), EventKind.SOCIAL_VOTE, 7)).isSome = true ∧
      ∀ key, singletonRow (projectAll sampleEnv {} sampleVotesBackwards) key =
        singletonRow (projectAll sampleEnv {} sampleVotes) key := by
  refine ⟨by decide +kernel, (latest_values_converge sampleEnv sampleEnv {} {} sampleVotes
    sampleVotesBackwards ?_ ?_ (by decide) (by decide)).2.2.2⟩
  · have hids : (sampleVotes.map fun i => i.1.event.id).Nodup := by decide +kernel
    intro i hi j hj hid
    rw [List.inj_on_of_nodup_map hids hi hj hid]
  · intro c
    simp only [sampleVotes, sampleVotesBackwards, List.mem_cons, List.not_mem_nil, or_false,
      exists_eq_or_imp, exists_eq_left]
    tauto

/-- A vote under an auxiliary key that is not its target's. -/
def sampleMisplacedVote : EventContent :=
  ⟨.ofEvent { kind := EventKind.SOCIAL_VOTE, flags := Event.SINGLETON_FLAG, contentLen := 3
              timestamp := 40, keyAux := 7, author := toLex (0, 1)
              contentHash := blake3 [4, 8, 1] },
    some [4, 8, 1]⟩

def sampleMisplacedVotes : List (EventContent × Timestamp) :=
  [(sampleVote 10 1 4 1, 90), (sampleMisplacedVote, 91)]

/-- **The newest singleton event need not have the row**: a vote without the shape of one is
processed and returns before the row is written, so the row stays with an older event. -/
theorem latest_values_misplaced :
    ¬ ∀ items : List (EventContent × Timestamp), DistinctPayloads items →
      (committed (fun p (i : EventContent × Timestamp) =>
        processEventContentInsertedTx sampleEnv {} p i.1 i.2) {} items).length = items.length →
      (∀ i ∈ items, i.1.event.event.isSingleton = true) →
      ∀ i ∈ items, ∃ row, (projectAll sampleEnv {} items).eventsSingletonsNew.get
        (singletonKey i.1) = some row ∧ orderOf i.1 ≤ toLex (row.ts, row.inner.eventId) := by
  intro h
  have hids : (sampleMisplacedVotes.map fun i => i.1.event.id).Nodup := by decide +kernel
  obtain ⟨row, hrow, hle⟩ := h sampleMisplacedVotes
    (fun i hi j hj hid => by rw [List.inj_on_of_nodup_map hids hi hj hid]) (by decide +kernel)
    (by decide +kernel) (sampleMisplacedVote, 91) (by simp [sampleMisplacedVotes])
  have hold : ((projectAll sampleEnv {} sampleMisplacedVotes).eventsSingletonsNew.get
      (singletonKey sampleMisplacedVote)).all (fun row =>
        decide (orderOf sampleMisplacedVote ≤ toLex (row.ts, row.inner.eventId))) = false := by
    decide +kernel
  rw [hrow, Option.all_some, decide_eq_false_iff_not] at hold
  exact hold hle

end Sample

end Rostra.Db
