/-
# The tables of posts are those of the processed posts

Which rows there should be is a question about the events: a post contributes when it is processed,
has content, and that content is a readable post other than a blank deletion (`shown`).  `Exact`
says that the tables hold the rows of these posts and nothing else, next to counters that agree.

* `PostEffect` is what one effect does to both sides at once: nothing, one post more, or one post
  less.  Everything else in this file is derived from it.
* Content is taken back by two calls, on bytes read from the store.  They fail in one case only: a
  deleted header of kind `SOCIAL_POST` without content, whose empty bytes are no post.

Two statements are combined here. The tables are an exact function of what is shown, in every state, and this is
what readers rely on. And a reversal succeeds on such tables, with one exception: a post without content cannot be
decoded when it is taken back, although it was never applied. The run that shows it ends the file.
-/
import Rostra.Lib.Index
import Rostra.Proofs.Lineage
import Rostra.Proofs.Store

namespace Rostra.Db

open Rostra Outcome

section Projections

variable [Primitives]

/-! ## 1. Tables that are exact

A post contributes to the table of receipts, to the feed, and, if it is a reply, to the rows and the count of the
post that it answers. The sources `s` are arbitrary here, so that a post appearing and a post going are two
statements about tables alone. -/

/-- **The tables of posts hold the rows of the sources `s`**, and count them. A source is a post with its header,
and `s` is a function of the event tables, so nothing is left to the history. -/
structure Exact (env : Env) (s : ShortEventId → Option PostSource) (p : SocialPart) : Prop where
  byTime : Index.Contributed s timeRow p.byTime
  /-- A receipt and its key lead to each other. -/
  receipts : Index.Paired p.receivedAtKeys p.byReceivedAt
  received : ∀ id, (p.receivedAtKeys.get id).isSome = (s id).isSome
  mentions : Index.Contributed s (mentionRow env) p.selfMention
  replies : Index.Contributed s (indexRow hasText) p.replies
  reactions : Index.Contributed s (indexRow hasReaction) p.reactions
  replyCount : Index.Tallied Prod.fst p.replies p.replyCount
  reactionCount : Index.Tallied Prod.fst p.reactions p.reactionCount

theorem exact_empty (env : Env) : Exact env (fun _ => none) (socialPart {}) := by
  refine ⟨Index.contributed_empty _, fun k x => ?_, fun id => ?_, Index.contributed_empty _,
    Index.contributed_empty _, Index.contributed_empty _, fun t => ?_, fun t => ?_⟩
  · simp [socialPart]
  · simp [socialPart]
  · simp [socialPart, SocialPart.replyCount]
  · simp [socialPart, SocialPart.reactionCount]

omit [Primitives] in
/-- The tables without the lineage. -/
def SocialPart.unlined (s : SocialPart) : SocialPart := { s with replacedBy := ∅, replaces := ∅ }

theorem exact_unlined {env : Env} {s : ShortEventId → Option PostSource} {p : SocialPart} :
    Exact env s p.unlined ↔ Exact env s p :=
  ⟨fun ⟨h₁, h₂, h₃, h₄, h₅, h₆, h₇, h₈⟩ => ⟨h₁, h₂, h₃, h₄, h₅, h₆, h₇, h₈⟩,
    fun ⟨h₁, h₂, h₃, h₄, h₅, h₆, h₇, h₈⟩ => ⟨h₁, h₂, h₃, h₄, h₅, h₆, h₇, h₈⟩⟩

theorem Exact.congr {env : Env} {s : ShortEventId → Option PostSource} {p p' : SocialPart}
    (h : Exact env s p) (hp : p'.unlined = p.unlined) : Exact env s p' := by
  rw [← exact_unlined, hp, exact_unlined]
  exact h

/-- **A post appears**, and its rows with it. -/
theorem Exact.applied {env : Env} {s : ShortEventId → Option PostSource} {p p' : SocialPart}
    (h : Exact env s p) {id : ShortEventId} {x : PostSource} (hid : s id = none)
    (ha : Applied env p p' id x) : Exact env (Function.update s id (some x)) p' := by
  obtain ⟨key, hfresh, hfree, hkeys, hrows⟩ := ha.receipt
  refine ⟨?_, ?_, fun id' => ?_, ?_, ?_, ?_, ?_, ?_⟩
  · rw [ha.byTime]
    exact h.byTime.add hid x
  · rw [hkeys, hrows]
    exact h.receipts.insert hfresh hfree
  · rw [hkeys, Table.get_insert, Function.update_apply]
    split
    · rfl
    · exact h.received id'
  · rw [ha.mentions]
    exact h.mentions.add hid x
  · rw [ha.replies]
    exact h.replies.add hid x
  · rw [ha.reactions]
    exact h.reactions.add hid x
  · rw [ha.replies]
    exact h.replyCount.add (fun r hr => h.replies.not_mem (indexRow_keyed _) hid hr) ha.replyCount
  · rw [ha.reactions]
    exact h.reactionCount.add (fun r hr => h.reactions.not_mem (indexRow_keyed _) hid hr)
      ha.reactionCount

/-- **A post goes**, and takes exactly its rows along. -/
theorem Exact.reverted {env : Env} {s : ShortEventId → Option PostSource} {p p' : SocialPart}
    (h : Exact env s p) {id : ShortEventId} {x : PostSource} (hid : s id = some x)
    (hr : Reverted p p' id x) : Exact env (Function.update s id none) p' := by
  obtain ⟨key, hkey⟩ : ∃ key, p.receivedAtKeys.get id = some key := by
    refine Option.isSome_iff_exists.mp ?_
    rw [h.received, hid]
    rfl
  have hmentions : p.selfMention.erase id = p.selfMention \ (mentionRow env id x).toFinset := by
    ext id'
    rw [Finset.mem_erase, Finset.mem_sdiff, Option.mem_toFinset, Option.mem_def, and_comm]
    refine and_congr_right fun hmem => ⟨fun hne hrow => ?_, fun hno heq => ?_⟩
    · exact hne (mentionRow_id hrow)
    · -- a mention row under this id was put there by the post itself
      subst heq
      obtain ⟨k, x', hk, hrow⟩ := (h.mentions id').mp hmem
      obtain rfl := mentionRow_id hrow
      rw [hid] at hk
      cases hk
      exact hno hrow
  refine ⟨?_, ?_, fun id' => ?_, ?_, ?_, ?_, ?_, ?_⟩
  · rw [hr.byTime]
    exact h.byTime.remove timeRow_keyed hid
  · rw [hr.keys, hr.receipts, hkey]
    exact h.receipts.remove hkey
  · rw [hr.keys, Table.get_remove, Function.update_apply]
    split
    · rfl
    · exact h.received id'
  · rw [hr.mentions, hmentions]
    exact h.mentions.remove (mentionRow_keyed env) hid
  · rw [hr.replies]
    exact h.replies.remove (indexRow_keyed _) hid
  · rw [hr.reactions]
    exact h.reactions.remove (indexRow_keyed _) hid
  · rw [hr.replies]
    exact h.replyCount.remove (fun _ => h.replies.mem hid) hr.replyCount
  · rw [hr.reactions]
    exact h.reactionCount.remove (fun _ => h.reactions.mem hid) hr.reactionCount

/-- What is there can be taken back. -/
theorem Exact.revertible {env : Env} {s : ShortEventId → Option PostSource} {p : SocialPart}
    (h : Exact env s p) {id : ShortEventId} {x : PostSource} (hid : s id = some x) :
    Receipted p id ∧ Counted p id x :=
  ⟨fun _ hkey => (h.receipts _ _).mp hkey, fun t =>
    ⟨h.replyCount.weight_le (fun _ => h.replies.mem hid) t,
      h.reactionCount.weight_le (fun _ => h.reactions.mem hid) t⟩⟩

/-! ## 2. Processed content

Content is processed if its class says so and its bytes are in the store. The class can change without the bytes
going, which is why a deletion can take its parent's content back afterwards. -/

/-- The content of a processed event that has any, as it would be read from the store. -/
def processedContent (t : EventTables) (id : ShortEventId) : Option EventContent :=
  match t.events.get id with
  | some e =>
    if contentClass t id = .current ∧ 0 < e.contentLen then
      (t.contentStore.get e.contentHash).map fun b => ⟨.ofEvent e, some b⟩
    else none
  | none => none

/-- The post an event contributes, if it does. -/
def shown (t : EventTables) (id : ShortEventId) : Option PostSource :=
  (processedContent t id).bind fun c => (projectedPost c).map (c.event.event, ·)

theorem processedContent_eq_some {t : EventTables} {id : ShortEventId} {c : EventContent} :
    processedContent t id = some c ↔ ∃ e b, t.events.get id = some e ∧
      contentClass t id = .current ∧ 0 < e.contentLen ∧
      t.contentStore.get e.contentHash = some b ∧ c = ⟨.ofEvent e, some b⟩ := by
  unfold processedContent
  constructor
  · intro h
    split at h
    · next e he =>
      split at h
      · next hc =>
        obtain ⟨b, hb, rfl⟩ := Option.map_eq_some_iff.mp h
        exact ⟨e, b, he, hc.1, hc.2, hb, rfl⟩
      · cases h
    · cases h
  · rintro ⟨e, b, he, hc, hlen, hb, rfl⟩
    simp [he, hc, hlen, hb]

theorem processedContent_of_class {t : EventTables} {id : ShortEventId}
    (h : contentClass t id ≠ .current) : processedContent t id = none := by
  cases hc : processedContent t id with
  | none => rfl
  | some c =>
    obtain ⟨e, b, -, hcls, -⟩ := processedContent_eq_some.mp hc
    exact absurd hcls h

/-- What decides whether an event's content is processed, and what it is. -/
theorem processedContent_congr {t t' : EventTables} {id : ShortEventId}
    (he : t'.events.get id = t.events.get id)
    (hc : contentClass t' id = .current ↔ contentClass t id = .current)
    (hs : ∀ e, t.events.get id = some e → contentClass t id = .current → 0 < e.contentLen →
      t'.contentStore.get e.contentHash = t.contentStore.get e.contentHash) :
    processedContent t' id = processedContent t id := by
  unfold processedContent
  rw [he]
  split
  · next e he' =>
    by_cases h : contentClass t id = .current ∧ 0 < e.contentLen
    · rw [if_pos h, if_pos ⟨hc.mpr h.1, h.2⟩, hs e he' h.1 h.2]
    · rw [if_neg h, if_neg fun h' => h ⟨hc.mp h'.1, h'.2⟩]
  · rfl

/-- **An insertion** takes the content of the deleted parent away, and adds none: a new header of length zero is
processed, but has no content. -/
theorem Inserted.processedContent {D : Set VerifiedEvent} {t t' : EventTables} {v : VerifiedEvent}
    {isD : Bool} {dp : Option ShortEventId} {rev : Option Bytes} (h : Inserted t t' v isD dp rev)
    (hnew : t.events.get v.id = none) (hs : StoreSound D t) (id : ShortEventId) :
    Db.processedContent t' id = if dp = some id then none else Db.processedContent t id := by
  by_cases hdp : dp = some id
  · rw [if_pos hdp]
    obtain ⟨d, hd⟩ := h.state_parent id hdp
    exact processedContent_of_class (by simp [contentClass, hd, classOf])
  rw [if_neg hdp]
  by_cases hid : id = v.id
  · subst hid
    have hold : Db.processedContent t v.id = none := by
      unfold Db.processedContent
      rw [hnew]
    rw [hold]
    cases hc : Db.processedContent t' v.id with
    | none => rfl
    | some c =>
      -- the new event is deleted, missing or empty
      obtain ⟨e, b, he, hcls, hlen, -⟩ := processedContent_eq_some.mp hc
      rw [h.events, Table.get_insert_self] at he
      cases he
      have hself := h.state_self
      rw [contentClass] at hcls
      split at hself
      · obtain ⟨d, hd⟩ := hself
        rw [hd] at hcls
        cases hcls
      · rw [hself] at hcls
        cases hcls
  · refine processedContent_congr ?_ ?_ fun e he hcls hlen => ?_
    · rw [h.events, Table.get_insert_of_ne _ _ hid]
    · rw [contentClass, h.state_other id hid hdp, contentClass]
    · obtain ⟨b, hb, -⟩ := hs.readable id e he hcls hlen
      rw [hb]
      exact h.store_kept hb

/-- Pruning takes content away. -/
theorem PruneEffect.processedContent {t t' : EventTables} {id : ShortEventId}
    (h : PruneEffect t id t') (id' : ShortEventId) :
    Db.processedContent t' id' = if id' = id then none else Db.processedContent t id' := by
  by_cases hid : id' = id
  · rw [if_pos hid, hid]
    cases h with
    | kept hno h =>
      refine processedContent_of_class fun hc => ?_
      rw [h] at hc
      rw [hc] at hno
      cases hno
    | pruned href rc u h =>
      refine processedContent_of_class ?_
      rw [h, contentClass, Table.get_insert_self]
      decide
  · rw [if_neg hid]
    cases h with
    | kept hno h => rw [h]
    | pruned href rc u h =>
      rw [h]
      refine processedContent_congr rfl ?_ fun _ _ _ _ => rfl
      rw [contentClass, Table.get_insert_of_ne _ _ hid, contentClass]

/-- What follows the insertion prunes nothing that was processed. -/
theorem Finished.processedContent {decided : Prop} {t t' : EventTables} {v : VerifiedEvent}
    (h : Finished decided t t' v) (hself : Db.processedContent t v.id = none) (id : ShortEventId) :
    Db.processedContent t' id = Db.processedContent t id := by
  rcases h.state with hst | ⟨-, -, hst⟩
  · refine processedContent_congr (by rw [h.events]) ?_ fun _ _ _ _ => by rw [h.store]
    rw [contentClass, hst, contentClass]
  · by_cases hid : id = v.id
    · rw [hid, hself]
      refine processedContent_of_class ?_
      rw [contentClass, hst, Table.get_insert_self]
      decide
    · refine processedContent_congr (by rw [h.events]) ?_ fun _ _ _ _ => by rw [h.store]
      rw [contentClass, hst, Table.get_insert_of_ne _ _ hid, contentClass]

/-! ## 3. One effect

Every transaction is a sequence of effects (`Effects`), and each of them moves the content of one event at most. -/

theorem DbEffect.storeOwned {env : Env} {D : Set VerifiedEvent} {db db' : Database}
    (h : DbEffect env D db db') (ho : StoreOwned D db.ev) : StoreOwned D db'.ev := by
  cases h with
  | envelope hv h =>
    cases h with
    | present e he t₁ ht₁ hfin hproj hquota =>
      intro k b hb
      rw [hfin.store, ht₁] at hb
      exact ho k b hb
    | new hnew t₁ isD dp rev hins hfin next hproj hquota =>
      intro k b hb
      rw [hfin.store, hins.store] at hb
      split at hb
      · next hc =>
        rw [Table.get_insert] at hb
        split at hb
        · next hk =>
          cases hb
          exact ⟨_, hv, hk.symm, hc.2.1⟩
        · exact ho k b hb
      · exact ho k b hb
  | @payload c now _ hc hst h =>
    cases h with
    | idle h => exact ho
    | processed b hb hm hlen p hp u =>
      intro k b' hb'
      dsimp only at hb'
      split at hb'
      · rw [Table.get_insert] at hb'
        split at hb'
        · next hk =>
          cases hb'
          exact ⟨_, hc, hk.symm, (c.length_and_hash hb).1.symm⟩
        · exact ho k b' hb'
      · exact ho k b' hb'
    | rejected b hb hm hlen hp rc u => exact ho
    | deleted b hb hd hlen => exact ho
  | released he hmatch hkind hlen hp ht decisions =>
    cases ht with
    | kept _ h =>
      subst h
      exact ho
    | pruned _ rc u h =>
      subst h
      exact ho
  | scheduled h =>
    intro k b hb
    rw [show _ = db.ev.contentStore from h.store] at hb
    exact ho k b hb
  | collected hrc =>
    intro k b hb
    dsimp only at hb
    rw [Table.get_remove] at hb
    split at hb
    · cases hb
    · exact ho k b hb
  | booked h =>
    obtain ⟨a, r, rfl⟩ := h
    exact ho
  | ranked postId now => exact ho

/-- The bytes under the hash of a stored header without content are empty: other bytes would be the
payload of some header that names the same hash. -/
theorem StoreOwned.empty {D : Set VerifiedEvent} {t : EventTables} (ho : StoreOwned D t)
    (hlaw : StoreSound D t) (hun : Unambiguous D) (hk : KeyedBy D t) {id : ShortEventId} {e : Event}
    (he : t.events.get id = some e) (hzero : e.contentLen = 0) {b : Bytes}
    (hb : t.contentStore.get e.contentHash = some b) : b = [] := by
  obtain ⟨w, hw, -, rfl⟩ := hk _ _ he
  obtain ⟨v, hv, hhash, hl⟩ := ho _ _ hb
  rcases hlaw.law _ _ hb with hl' | ⟨hnil, -⟩
  · by_contra hne
    have hpos := List.length_pos_iff.mpr hne
    have hmatch : contentMatches v (some b) = true := by
      simp [contentMatches, hl, hhash, hl']
    exact hun w hw hzero ⟨⟨v, some b⟩, hmatch⟩ hv (hl.symm ▸ hpos) hhash
  · exact hnil

theorem projectedPost_empty (hdec : EmptyUnreadable) {c : EventContent} (hc : c.content = some []) :
    projectedPost c = none :=
  projectedPost_unreadable (by rw [EventContent.socialPost?, hc, Option.bind_some]; exact hdec)

/-- **What one effect does** to the processed contents and to the tables of posts.  It concerns one
event at most, and only one that `A` holds of. -/
inductive PostEffect (env : Env) (A : VerifiedEvent → Prop) (db db' : Database) : Prop
  | kept (hc : ∀ id, processedContent db'.ev id = processedContent db.ev id)
      (hp : (socialPart db'.proj).unlined = (socialPart db.proj).unlined)
  | applied (c : VerifiedEventContent) (now : Timestamp) (hA : A c.event)
      (hnone : processedContent db.ev c.event.id = none)
      (hc : ∀ id, processedContent db'.ev id =
        if id = c.event.id then some c.toEventContent else processedContent db.ev id)
      (hlen : c.event.event.contentLen < MAX_CONTENT_LEN)
      (hp : processEventContentInsertedTx env {} db.proj c.toEventContent now = .ok db'.proj)
  | takenBack (id : ShortEventId) (p : Projections)
      (hp : (socialPart p).unlined = (socialPart db.proj).unlined)
      (hc : ∀ id', processedContent db'.ev id' =
        if id' = id then none else processedContent db.ev id')
      (hback : match processedContent db.ev id with
        | some c => c.event.id = id ∧ A c.event ∧ TakenBack p db'.proj c
        | none => db'.proj = p)

theorem PostEffect.mono {env : Env} {A A' : VerifiedEvent → Prop} {db db' : Database}
    (h : PostEffect env A db db') (hA : ∀ v, A v → A' v) : PostEffect env A' db db' := by
  cases h with
  | kept hc hp => exact .kept hc hp
  | applied c now hAc hnone hc hlen hp => exact .applied c now (hA _ hAc) hnone hc hlen hp
  | takenBack id p hp hc hback =>
    refine .takenBack id p hp hc ?_
    split
    · next c hcon =>
      rw [hcon] at hback
      exact ⟨hback.1, hA _ hback.2.1, hback.2.2⟩
    · next hcon =>
      rw [hcon] at hback
      exact hback

theorem withLineage_unlined (p : Projections) (c : EventContent) :
    (socialPart (withLineage p c)).unlined = (socialPart p).unlined := by
  unfold withLineage
  cases lineageOf c with
  | none => rfl
  | some old => rfl

theorem lineageArrived_unlined (t : EventTables) (p : Projections) (v : VerifiedEvent) (isD : Bool) :
    (socialPart (lineageArrived t p v isD)).unlined = (socialPart p).unlined := by
  unfold lineageArrived
  split
  · cases storedContent t v with
    | none => rfl
    | some c => exact withLineage_unlined p _
  · rfl

section Effects

variable {D : Set VerifiedEvent} {env : Env} {db db' : Database}

/-- The content of a deleted parent that is handed over, as the tables have it: either it is the
processed content, or there is none and the bytes are empty. -/
theorem handedBack_content (hun : Unambiguous D) (hk : KeyedBy D db.ev) (ho : StoreOwned D db.ev)
    (hs : StoreSound D db.ev) {id : ShortEventId} {e : Event} (he : db.ev.events.get id = some e) {b : Bytes}
    (hb : handedBack db.ev id e = some b) :
    processedContent db.ev id = some ⟨.ofEvent e, some b⟩ ∨
      processedContent db.ev id = none ∧ b = [] ∧ e.contentLen = 0 := by
  unfold handedBack at hb
  split at hb
  · next hst =>
    have hcls : contentClass db.ev id = .current :=
      classOf_eq_current.mpr (Option.isNone_iff_eq_none.mp hst)
    by_cases hpos : 0 < e.contentLen
    · exact .inl (processedContent_eq_some.mpr ⟨e, b, he, hcls, hpos, hb, rfl⟩)
    · refine .inr ⟨?_, ?_, by omega⟩
      · simp [processedContent, he, hpos]
      · exact ho.empty hs hun hk he (by omega) hb
  · cases hb

/-- Without anything handed over, there was no processed content. -/
theorem processedContent_of_handedBack {t : EventTables} {id : ShortEventId} {e : Event}
    (he : t.events.get id = some e) (hb : handedBack t id e = none) :
    processedContent t id = none := by
  cases hc : processedContent t id with
  | none => rfl
  | some c =>
    obtain ⟨e', b, he', hcls, -, hb', -⟩ := processedContent_eq_some.mp hc
    rw [he] at he'
    cases he'
    rw [handedBack, if_pos (by rw [classOf_eq_current.mp hcls]; rfl), hb'] at hb
    cases hb

/-- **An envelope** takes back at most the content of the parent it deletes. The bytes it hands over for this are
those the tables were filled from. -/
theorem EnvelopeEffect.posts {v : VerifiedEvent} (h : EnvelopeEffect db v db')
    (hI : OnGround D (StoreContext D) db.ev) (ho : StoreOwned D db.ev) (hcf : CollisionFree D)
    (hv : v ∈ D) (hun : Unambiguous D) (hdec : EmptyUnreadable) :
    PostEffect env (fun w => w ∈ D ∧ w.event.author = v.event.author) db db' := by
  cases h with
  | present e he t₁ ht₁ hfin hproj hquota =>
    refine .kept (fun id => ?_) (by rw [hproj])
    have hsame : ∀ id, processedContent t₁ id = processedContent db.ev id := by
      intro id
      rw [ht₁]
      rfl
    rw [← hsame]
    rcases hfin.state with hst | ⟨href, hwhy | hwhy, -⟩
    · refine processedContent_congr (by rw [hfin.events]) ?_ fun _ _ _ _ => by rw [hfin.store]
      rw [contentClass, hst, contentClass]
    · -- oversized content that is here is pruned already
      rw [ht₁, show contentClass { db.ev with idsFull := t₁.idsFull } v.id =
        contentClass db.ev v.id from rfl] at href
      rw [← hI.1.keyed.event_eq hcf hv he] at hwhy
      rw [hI.2.2 _ _ (by simp) he hwhy] at href
      cases href
    · exact hwhy.elim
  | new hnew t₁ isD dp rev hins hfin next hproj hquota =>
    have hpc := hins.processedContent hnew hI.2.1.2
    have hfin' := hfin.processedContent (by
      rw [hpc]
      split
      · rfl
      · unfold processedContent
        rw [hnew])
    have hlined := lineageArrived_unlined t₁ { db.proj with receptionOrderNext := next } v isD
    have hback := arrivedProjections_takenBack hproj
    cases hdp : dp with
    | none =>
      subst hdp
      have hnone : revertedContent t₁ none rev = none := by
        rw [hins.parent_none rfl]
        rfl
      rw [hnone] at hback
      refine .kept (fun id => ?_) ?_
      · rw [hfin', hpc, if_neg (by simp)]
      · rw [hback, hlined]
        rfl
    | some q =>
      subst hdp
      obtain ⟨e, he, hauthor, -, hrev⟩ := hins.parent q rfl
      have hne : q ≠ v.id := by
        rintro rfl
        rw [hnew] at he
        cases he
      have he₁ : t₁.events.get q = some e := by
        rw [hins.events, Table.get_insert_of_ne _ _ hne, he]
      refine .takenBack q _ hlined (fun id => ?_) ?_
      · rw [hfin', hpc]
        simp [eq_comm]
      · cases hb : handedBack db.ev q e with
        | none =>
          have hnone : revertedContent t₁ (some q) rev = none := by
            rw [hrev, hb]
            rfl
          rw [hnone] at hback
          rw [processedContent_of_handedBack he hb]
          exact hback
        | some b =>
          have hsome : revertedContent t₁ (some q) rev = some ⟨.ofEvent e, some b⟩ := by
            simp [revertedContent, hrev, hb, he₁]
          rw [hsome] at hback
          rcases handedBack_content hun hI.1.keyed ho hI.2.1.2 he hb with hc | ⟨hc, rfl, -⟩
          · rw [hc]
            exact ⟨hI.1.keyed.id_eq he, ⟨hI.1.keyed.mem he, hauthor⟩, hback⟩
          · rw [hc]
            simpa only [TakenBack, projectedPost_empty hdec] using hback

/-- **A payload** adds the content of its event, if it was awaited and is readable. In all other cases the sources
stay as they were. -/
theorem PayloadEffect.posts {c : VerifiedEventContent} {now : Timestamp}
    (h : PayloadEffect env {} db c now db') (hI : OnGround D (StoreContext D) db.ev)
    (hc : c.event ∈ D) (hst : db.ev.events.get c.event.id = some c.event.event)
    (hinj : Function.Injective blake3) (hun : Unambiguous D) :
    PostEffect env (fun w => w ∈ D ∧ w.event.author = c.event.event.author) db db' := by
  cases h with
  | idle h => exact .kept (fun _ => rfl) rfl
  | processed b hb hm hlen p hp u =>
    have hpos := hI.1.nonempty _ hm _ hst
    have hrow := hI.2.1.2.get_storeWith hinj hun hb hc hpos
    refine .applied c now ⟨hc, rfl⟩ (processedContent_of_class (by rw [hm]; decide)) (fun id => ?_)
      hlen hp
    by_cases hid : id = c.event.id
    · subst hid
      rw [if_pos rfl]
      refine processedContent_eq_some.mpr ⟨_, b, hst, ?_, hpos, hrow, ?_⟩
      · simp [contentClass, classOf]
      · obtain ⟨⟨v, o⟩, hver⟩ := c
        obtain rfl : o = some b := hb
        rw [VerifiedEvent.ofEvent_self]
    · rw [if_neg hid]
      refine processedContent_congr rfl ?_ fun e he hcls hlen' => ?_
      · rw [contentClass, Table.get_remove_of_ne _ hid, contentClass]
      · obtain ⟨b', hb', -⟩ := hI.2.1.2.readable id e he hcls hlen'
        dsimp only
        split
        · next hnone =>
          refine Table.get_insert_of_ne _ _ fun hk => ?_
          rw [hk] at hb'
          rw [hb'] at hnone
          cases hnone
        · rfl
  | rejected b hb hm hlen hp rc u =>
    refine .kept (fun id => ?_) rfl
    by_cases hid : id = c.event.id
    · subst hid
      rw [processedContent_of_class (t := db.ev) (by rw [hm]; decide)]
      exact processedContent_of_class (by simp [contentClass, classOf])
    · refine processedContent_congr rfl ?_ fun _ _ _ _ => rfl
      rw [contentClass, Table.get_insert_of_ne _ _ hid, contentClass]
  | deleted b hb hd hlen => exact .kept (fun _ => rfl) (withLineage_unlined _ _)

/-- **A quota release** takes the content of its event back, which it reads from the store. -/
theorem released_posts {id : ShortEventId} {e : Event} {target : QuotaPruneTarget} {p : Projections}
    {t : EventTables} (hk : KeyedBy D db.ev) (he : db.ev.events.get id = some e)
    (hmatch : targetMatches target (db.ev.eventsContentState.get id) = true)
    (hlen : 0 < e.contentLen) (hp : dematerializeTx db (.ofEvent e) target = .ok p)
    (ht : PruneEffect db.ev id t) (decisions : Table ShortEventId QuotaPruneDecision) :
    PostEffect env (· ∈ D) db { db with ev := t, proj := p, quotaPruned := decisions } := by
  refine .takenBack id db.proj rfl (fun id' => ht.processedContent id') ?_
  have hback := dematerializeTx_takenBack hp
  cases target with
  | missing =>
    have hnone : processedContent db.ev id = none := by
      refine processedContent_of_class fun hc => ?_
      rw [classOf_eq_current.mp hc] at hmatch
      cases hmatch
    rw [hnone]
    exact hback
  | processed =>
    obtain ⟨c, hc, hback⟩ := hback
    obtain ⟨b, hb, hver⟩ := Option.bind_eq_some_iff.mp hc
    obtain ⟨hce, hcb⟩ := VerifiedEventContent.verify_eq_some hver
    have hcls : contentClass db.ev id = .current := by
      cases hs : db.ev.eventsContentState.get id with
      | none => exact classOf_eq_current.mpr hs
      | some s =>
        rw [hs] at hmatch
        cases s <;> cases hmatch
    have hsome : processedContent db.ev id = some c.toEventContent := by
      refine processedContent_eq_some.mpr ⟨e, b, he, hcls, hlen, hb, ?_⟩
      obtain ⟨⟨v, o⟩, hver'⟩ := c
      exact congrArg₂ EventContent.mk hce hcb
    rw [hsome]
    refine ⟨?_, ?_, hback⟩
    · rw [hce]
      exact hk.id_eq he
    · rw [hce]
      exact hk.mem he

/-- **Every effect** is one of the three. -/
theorem DbEffect.posts (h : DbEffect env D db db') (hI : OnGround D (StoreContext D) db.ev)
    (ho : StoreOwned D db.ev) (hcf : CollisionFree D) (hinj : Function.Injective blake3)
    (hun : Unambiguous D) (hdec : EmptyUnreadable) : PostEffect env (· ∈ D) db db' := by
  cases h with
  | envelope hv h => exact (h.posts hI ho hcf hv hun hdec).mono fun _ h => h.1
  | payload hc hst h => exact (h.posts hI hc hst hinj hun).mono fun _ h => h.1
  | released he hmatch hkind hlen hp ht decisions =>
    exact released_posts hI.1.keyed he hmatch hlen hp ht decisions
  | scheduled h =>
    refine .kept (fun id => ?_) rfl
    exact processedContent_congr (by rw [h.events]) (by rw [h.classes]) fun _ _ _ _ => by rw [h.store]
  | @collected k hrc =>
    refine .kept (fun id => processedContent_congr rfl Iff.rfl fun e he hcls _ => ?_) rfl
    -- what the collector removes belongs to no processed content
    refine Table.get_remove_of_ne _ fun hk => ?_
    have hno := hI.2.1.1.unreferenced hrc he hk
    rw [hcls] at hno
    cases hno
  | booked h =>
    obtain ⟨a, r, rfl⟩ := h
    exact .kept (fun _ => rfl) rfl
  | ranked postId now =>
    exact .kept (fun _ => rfl) (congrArg SocialPart.unlined (recalculateNewsPostScoreTx_social ..))

end Effects

/-! ## 4. Every state

The induction over a run, with no condition on the envelopes. -/

theorem PostEffect.exact {env : Env} {A : VerifiedEvent → Prop} {db db' : Database}
    (h : PostEffect env A db db')
    (hx : Exact env (shown db.ev) (socialPart db.proj)) :
    Exact env (shown db'.ev) (socialPart db'.proj) := by
  cases h with
  | kept hc hp =>
    have hsame : shown db'.ev = shown db.ev := funext fun id => by rw [shown, hc id, shown]
    rw [hsame]
    exact hx.congr hp
  | applied c now hA hnone hc hlen hp =>
    have hshown : shown db'.ev = Function.update (shown db.ev) c.event.id
        ((projectedPost c.toEventContent).map (c.event.event, ·)) := by
      funext id
      rw [shown, hc id, Function.update_apply]
      split
      · rfl
      · rfl
    have hid : shown db.ev c.event.id = none := by rw [shown, hnone, Option.bind_none]
    have hsocial := ((processEventContentInsertedTx_social env {} _ _ now hlen).of_ok hp).2
    rw [hshown]
    cases hpost : projectedPost c.toEventContent with
    | none =>
      rw [hpost] at hsocial
      rw [Option.map_none, hsocial, ← hid, Function.update_eq_self]
      exact hx
    | some post =>
      rw [hpost] at hsocial
      exact hx.applied hid hsocial
  | takenBack id p hp hc hback =>
    have hshown : shown db'.ev = Function.update (shown db.ev) id none := by
      funext id'
      rw [shown, hc id', Function.update_apply]
      split
      · rfl
      · rfl
    have hx' := hx.congr hp
    rw [hshown]
    cases hcontent : processedContent db.ev id with
    | none =>
      rw [hcontent] at hback
      have hid : shown db.ev id = none := by rw [shown, hcontent, Option.bind_none]
      rw [show db'.proj = p from hback, ← hid, Function.update_eq_self]
      exact hx'
    | some c =>
      rw [hcontent] at hback
      obtain ⟨hcid, -, hback⟩ := hback
      have hid : shown db.ev id = (projectedPost c).map (c.event.event, ·) := by
        rw [shown, hcontent, Option.bind_some]
      unfold TakenBack at hback
      split at hback
      · next post hpost =>
        rw [hpost] at hid
        rw [hcid] at hback
        exact hx'.reverted hid hback
      · next hpost =>
        rw [hpost, Option.map_none] at hid
        rw [hback, ← hid, Function.update_eq_self]
        exact hx'

/-- Processed content can be read as what its header says it is. -/
def ProcessedReads (t : EventTables) : Prop :=
  ∀ id c, processedContent t id = some c → readsAs c = true

theorem PostEffect.reads {env : Env} {A : VerifiedEvent → Prop} {db db' : Database}
    (h : PostEffect env A db db')
    (hr : ProcessedReads db.ev) : ProcessedReads db'.ev := by
  intro id c hid
  cases h with
  | kept hc hp =>
    rw [hc id] at hid
    exact hr id c hid
  | applied c' now hA hnone hc hlen hp =>
    rw [hc id] at hid
    split at hid
    · cases hid
      by_contra hread
      rw [(processEventContentInsertedTx_invalid_iff ..).mpr (by simpa using hread)] at hp
      cases hp
    · exact hr id c hid
  | takenBack id' p hp hc hback =>
    rw [hc id] at hid
    split at hid
    · cases hid
    · exact hr id c hid

/-- Both sides of the tables of posts, in one state. -/
structure Projected (env : Env) (D : Set VerifiedEvent) (db : Database) : Prop where
  owned : StoreOwned D db.ev
  tables : Exact env (shown db.ev) (socialPart db.proj)
  reads : ProcessedReads db.ev

theorem projected_empty (env : Env) (D : Set VerifiedEvent) : Projected env D {} := by
  have hnone : ∀ id, processedContent {} id = none := fun id => by simp [processedContent]
  refine ⟨storeOwned_empty D, ?_, fun id c hc => ?_⟩
  · have hshown : shown {} = fun _ => none := funext fun id => by rw [shown, hnone, Option.bind_none]
    rw [hshown]
    exact exact_empty env
  · rw [hnone] at hc
    cases hc

/-- **Every reached state is exact**, as long as no empty header names the hash of a payload. -/
theorem reached_projected (env : Env) {D : Set VerifiedEvent} (hcf : CollisionFree D)
    (hinj : Function.Injective blake3) (hdec : EmptyUnreadable) (hun : Unambiguous D)
    (ops : List Op) (hD : DeliveredFrom D ops) :
    OnGround D (StoreContext D) (reached env ops).ev ∧ Projected env D (reached env ops) := by
  have hk := storeContext_keeps hinj hun
  have hempty : StoreContext D {} := ⟨⟨balanced_empty, storeSound_empty D⟩, oversizedOut_empty⟩
  refine ⟨reached_keeps env hk hcf hempty ops hD,
    reached_invariant env hk hcf hempty (projected_empty env D) ?_ ops hD⟩
  intro db db' hI _ heff hj
  have hposts := heff.posts hI hj.owned hcf hinj hun hdec
  exact ⟨heff.storeOwned hj.owned, hposts.exact hj.tables, hposts.reads hj.reads⟩

/-! ## 5. Taking content back

The calls that take content back are listed, with the bytes that they are given, so that a statement about all of
them can be made at once. -/

/-- A call of `process_event_content_reverted_tx` that a transaction on `db` makes, with the
projections at that point and the payload it is given. -/
inductive RevertCall (D : Set VerifiedEvent) (db : Database) : Projections → EventContent → Prop
  /-- An envelope deletes the processed content of its parent. -/
  | deletion {v : VerifiedEvent} (hv : v ∈ D) {t ev : EventTables} {wasMissing isDeleted : Bool}
      {deletedParent : Option ShortEventId} {reverted : Option Bytes}
      {missingParents : List ShortEventId}
      (hins : insertEventTx db.ev v =
        .ok (t, .inserted wasMissing isDeleted deletedParent reverted missingParents))
      (hquota : applyQuotaDecisionTx { db with ev := t } v = .ok ev) {next : Option ℕ}
      {p : Projections}
      (hp : insertedLineageTx ev { db.proj with receptionOrderNext := next } v isDeleted = .ok p)
      {c : EventContent} (hc : revertedContent ev deletedParent reverted = some c) :
      RevertCall D db p c
  /-- A processed post is released by quota. -/
  | quota {id : ShortEventId} {e : Event} (he : db.ev.events.get id = some e)
      (hstate : db.ev.eventsContentState.get id = none) (hkind : e.kind = EventKind.SOCIAL_POST)
      (hlen : 0 < e.contentLen) {c : VerifiedEventContent}
      (hc : storedContent db.ev (.ofEvent e) = some c) : RevertCall D db db.proj c.toEventContent

/-- A post without content. -/
def Hollow (e : Event) : Prop := e.kind = EventKind.SOCIAL_POST ∧ e.contentLen = 0

/-- No event of `D` deletes a post of its author that has no content. -/
def NoHollowDeletion (D : Set VerifiedEvent) : Prop :=
  ∀ v ∈ D, ∀ w ∈ D, w.event.author = v.event.author → Event.Deletes v.event w.id → ¬Hollow w.event

section Calls

variable {D : Set VerifiedEvent} {env : Env} {db : Database} {p : Projections} {c : EventContent}

/-- What a call is given: processed content, or the empty bytes of a header that some envelope
deletes. -/
theorem RevertCall.content (h : RevertCall D db p c) (hI : OnGround D (StoreContext D) db.ev)
    (ho : StoreOwned D db.ev) (hun : Unambiguous D) :
    (socialPart p).unlined = (socialPart db.proj).unlined ∧
      (processedContent db.ev c.event.id = some c ∨
        c.content = some [] ∧ c.event.event.contentLen = 0 ∧ ∃ v ∈ D, ∃ w ∈ D, c.event = w ∧
          w.event.author = v.event.author ∧ Event.Deletes v.event w.id) := by
  cases h with
  | @deletion v hv t ev wm isD dp rev mp hins hquota next _ hp _ hc =>
    have heff := (insertEventTx_effect db.ev v).of_ok hins
    cases heff with
    | present e he hreg ht ho => cases ho
    | new hnew hreg wm' isD' dp' rev' mp' hins' hout =>
      cases hout
      have hfin := (applyQuotaDecisionTx_finished { db with ev := t } v).of_ok hquota
      refine ⟨?_, ?_⟩
      · rw [insertedLineageTx_eq] at hp
        cases hp
        exact lineageArrived_unlined ev { db.proj with receptionOrderNext := next } v isD
      · cases hdp : dp with
        | none =>
          rw [hins'.parent_none hdp] at hc
          cases hc
        | some q =>
          subst hdp
          obtain ⟨e, he, hauthor, hdel, hrev⟩ := hins'.parent q rfl
          obtain ⟨w, hw, hwid, rfl⟩ := hI.1.keyed _ _ he
          have hne : q ≠ v.id := by
            rintro rfl
            rw [hnew] at he
            cases he
          have hev : ev.events.get q = some w.event := by
            rw [hfin.events, hins'.events, Table.get_insert_of_ne _ _ hne, he]
          cases hb : handedBack db.ev q w.event with
          | none =>
            rw [hrev, hb] at hc
            cases hc
          | some b =>
            simp only [revertedContent, hrev, hb, Option.bind_some, hev, Option.some.injEq,
              VerifiedEvent.ofEvent_self] at hc
            subst hc
            rcases handedBack_content hun hI.1.keyed ho hI.2.1.2 he hb with hcon | ⟨-, rfl, hzero⟩
            · rw [VerifiedEvent.ofEvent_self] at hcon
              refine .inl ?_
              rw [show (EventContent.mk w (some b)).event.id = q from hwid]
              exact hcon
            · exact .inr ⟨rfl, hzero, v, hv, w, hw, rfl, hauthor, by rw [hwid]; exact hdel⟩
  | @quota id e he hstate hkind hpos c hc =>
    refine ⟨rfl, .inl ?_⟩
    obtain ⟨b, hb, hver⟩ := Option.bind_eq_some_iff.mp hc
    obtain ⟨hce, hcb⟩ := VerifiedEventContent.verify_eq_some hver
    rw [hce, hI.1.keyed.id_eq he]
    refine processedContent_eq_some.mpr
      ⟨e, b, he, classOf_eq_current.mpr hstate, hpos, hb, ?_⟩
    obtain ⟨⟨v, o⟩, hver'⟩ := c
    exact congrArg₂ EventContent.mk hce hcb

/-- Processed content can be taken back. -/
theorem revertedTx_ok (hx : Exact env (shown db.ev) (socialPart p)) (hr : ProcessedReads db.ev)
    (hc : processedContent db.ev c.event.id = some c) :
    ∃ p', processEventContentRevertedTx p c = .ok p' ∧ TakenBack p p' c := by
  have hok : ∃ p', processEventContentRevertedTx p c = .ok p' := by
    rw [processEventContentRevertedTx_eq]
    cases hpost : projectedPost c with
    | some post =>
      have hid : shown db.ev c.event.id = some (c.event.event, post) := by
        rw [shown, hc, Option.bind_some, hpost, Option.map_some]
      cases hrev : revertSocialPostTx p c post with
      | ok p' => exact ⟨p', by simp [hrev, liftDb]⟩
      | error e =>
        exact absurd (hx.revertible hid) ((revertSocialPostTx_reverted p c post).of_error hrev)
    | none =>
      refine ⟨p, if_neg fun hno => ?_⟩
      have hread := hr _ _ hc
      rw [readsAs_post hno.1, hno.2] at hread
      cases hread
  obtain ⟨p', hp'⟩ := hok
  exact ⟨p', hp', (processEventContentRevertedTx_takenBack p c).of_ok hp'⟩

/-- **A call succeeds, unless the header is a post without content.** -/
theorem RevertCall.outcome (h : RevertCall D db p c) (hI : OnGround D (StoreContext D) db.ev)
    (hj : Projected env D db) (hun : Unambiguous D) (hdec : EmptyUnreadable) :
    (¬Hollow c.event.event → ∃ p', processEventContentRevertedTx p c = .ok p') ∧
      (Hollow c.event.event → processEventContentRevertedTx p c = .error .invalid) := by
  obtain ⟨hp, hc | ⟨hempty, hzero, -⟩⟩ := h.content hI hj.owned hun
  · refine ⟨fun _ => ?_, fun hh => ?_⟩
    · obtain ⟨p', hp', -⟩ := revertedTx_ok (hj.tables.congr hp) hj.reads hc
      exact ⟨p', hp'⟩
    · obtain ⟨e, b, -, -, hpos, -, rfl⟩ := processedContent_eq_some.mp hc
      have := hh.2
      dsimp only [VerifiedEvent.ofEvent_event] at this
      omega
  · have hnone : c.socialPost? = none := by
      rw [EventContent.socialPost?, hempty, Option.bind_some]
      exact hdec
    rw [processEventContentRevertedTx_eq, projectedPost_unreadable hnone]
    refine ⟨fun hh => ⟨p, if_neg fun hk => hh ⟨hk.1, hzero⟩⟩, fun hh => if_pos ⟨hh.1, hnone⟩⟩

end Calls

/-! ## 6. Applied and taken back

What is applied to arbitrary tables can be taken back from them, and leaves its lineage behind. -/

/-- The listed tables and counters are back; lineage stays. -/
structure Restored (s s' : SocialPart) : Prop where
  byTime : s'.byTime = s.byTime
  receipts : s'.byReceivedAt = s.byReceivedAt
  keys : s'.receivedAtKeys = s.receivedAtKeys
  mentions : s'.selfMention = s.selfMention
  replies : s'.replies = s.replies
  reactions : s'.reactions = s.reactions
  replyCount : ∀ t, s'.replyCount t = s.replyCount t
  reactionCount : ∀ t, s'.reactionCount t = s.reactionCount t

omit [Primitives] in
theorem Restored.refl (s : SocialPart) : Restored s s :=
  ⟨rfl, rfl, rfl, rfl, rfl, rfl, fun _ => rfl, fun _ => rfl⟩

theorem Exact.restored {env : Env} {s : ShortEventId → Option PostSource} {p p' p'' : SocialPart}
    (h : Exact env s p) {id : ShortEventId} {x : PostSource} (hid : s id = none)
    (ha : Applied env p p' id x) (hr : Reverted p' p'' id x) : Restored p p'' := by
  obtain ⟨key, hfresh, hfree, hkeys, hrows⟩ := ha.receipt
  refine ⟨?_, ?_, ?_, ?_, ?_, ?_, fun t => ?_, fun t => ?_⟩
  · rw [hr.byTime, ha.byTime]
    exact Index.add_then_remove fun r hr => h.byTime.not_mem timeRow_keyed hid hr
  · rw [hr.receipts, hkeys, hrows, Table.get_insert_self, Option.elim_some]
    exact Table.remove_insert_absent hfree id
  · rw [hr.keys, hkeys]
    exact Table.remove_insert_absent hfresh key
  · have hno : id ∉ p.selfMention := by
      intro hmem
      obtain ⟨k, x', hk, hrow⟩ := (h.mentions id).mp hmem
      rw [← mentionRow_id hrow, hid] at hk
      cases hk
    rw [hr.mentions, ha.mentions]
    ext id'
    rw [Finset.mem_erase, Finset.mem_union, Option.mem_toFinset, Option.mem_def]
    refine ⟨fun ⟨hne, hmem⟩ => hmem.resolve_right fun hrow => hne (mentionRow_id hrow),
      fun hmem => ⟨fun heq => hno (heq ▸ hmem), .inl hmem⟩⟩
  · rw [hr.replies, ha.replies]
    exact Index.add_then_remove fun r hr => h.replies.not_mem (indexRow_keyed _) hid hr
  · rw [hr.reactions, ha.reactions]
    exact Index.add_then_remove fun r hr => h.reactions.not_mem (indexRow_keyed _) hid hr
  · have h₁ := hr.replyCount t
    have h₂ := ha.replyCount t
    omega
  · have h₁ := hr.reactionCount t
    have h₂ := ha.reactionCount t
    omega

/-- **A payload that is applied can be taken back**, and nothing of it is left in the tables of posts but its
lineage. -/
theorem applied_then_reverted {env : Env} {db : Database}
    (hx : Exact env (shown db.ev) (socialPart db.proj)) {c : EventContent} {now : Timestamp}
    (hid : processedContent db.ev c.event.id = none)
    (hlen : c.event.event.contentLen < MAX_CONTENT_LEN) {p : Projections}
    (hp : processEventContentInsertedTx env {} db.proj c now = .ok p) :
    ∃ p', processEventContentRevertedTx p c = .ok p' ∧
      Restored (socialPart db.proj) (socialPart p') := by
  have hnone : shown db.ev c.event.id = none := by rw [shown, hid, Option.bind_none]
  have hsocial := ((processEventContentInsertedTx_social env {} _ _ now hlen).of_ok hp).2
  rw [processEventContentRevertedTx_eq]
  cases hpost : projectedPost c with
  | some post =>
    rw [hpost] at hsocial
    have hx' := hx.applied hnone hsocial
    cases hrev : revertSocialPostTx p c post with
    | ok p' =>
      exact ⟨p', by simp [hrev, liftDb],
        hx.restored hnone hsocial ((revertSocialPostTx_reverted p c post).of_ok hrev)⟩
    | error e =>
      exact absurd (hx'.revertible (Function.update_self ..))
        ((revertSocialPostTx_reverted p c post).of_error hrev)
  | none =>
    rw [hpost] at hsocial
    refine ⟨p, if_neg fun hno => ?_, by rw [hsocial]; exact .refl _⟩
    have hread : readsAs c = true := by
      by_contra hread
      rw [(processEventContentInsertedTx_invalid_iff ..).mpr (by simpa using hread)] at hp
      cases hp
    rw [readsAs_post hno.1, hno.2] at hread
    cases hread

/-- **The tables of posts are exactly what the processed posts contribute**, in every reached state.
What is taken back can be, except a deleted post without content: there the empty bytes do not
decode.  Where no event deletes such a post, every call succeeds.  And a payload that is applied and
taken back leaves the tables as they were. -/
theorem socialProjections_exact (env : Env) {D : Set VerifiedEvent} (hcf : CollisionFree D)
    (hinj : Function.Injective blake3) (hdec : EmptyUnreadable) (hlen : SameLengths D)
    (ops : List Op) (hD : DeliveredFrom D ops) :
    let db := reached env ops
    Exact env (shown db.ev) (socialPart db.proj) ∧
      (∀ p c, RevertCall D db p c →
        ((∃ p', processEventContentRevertedTx p c = .ok p') ↔ ¬Hollow c.event.event)) ∧
      (NoHollowDeletion D → ∀ p c, RevertCall D db p c →
        ∃ p', processEventContentRevertedTx p c = .ok p') ∧
      ∀ (c : VerifiedEventContent) now p, db.ev.events.get c.event.id = some c.event.event →
        contentClass db.ev c.event.id = .missing → c.event.event.contentLen < MAX_CONTENT_LEN →
        processEventContentInsertedTx env {} db.proj c.toEventContent now = .ok p →
          ∃ p', processEventContentRevertedTx p c.toEventContent = .ok p' ∧
            Restored (socialPart db.proj) (socialPart p') := by
  obtain ⟨hI, hj⟩ := reached_projected env hcf hinj hdec hlen.unambiguous ops hD
  intro db
  refine ⟨hj.tables, fun p c hcall => ?_, fun hno p c hcall => ?_, fun c now p _ hm hmax hp => ?_⟩
  · obtain ⟨hok, hinvalid⟩ := hcall.outcome hI hj hlen.unambiguous hdec
    refine ⟨fun ⟨p', hp'⟩ hh => ?_, hok⟩
    rw [hinvalid hh] at hp'
    cases hp'
  · refine (hcall.outcome hI hj hlen.unambiguous hdec).1 fun hh => ?_
    obtain ⟨-, hc | ⟨-, -, v, hv, w, hw, hcw, hauthor, hdel⟩⟩ := hcall.content hI hj.owned hlen.unambiguous
    · obtain ⟨e, b, -, -, hpos, -, rfl⟩ := processedContent_eq_some.mp hc
      have := hh.2
      dsimp only [VerifiedEvent.ofEvent_event] at this
      omega
    · rw [hcw] at hh
      exact hno v hv w hw hauthor hdel hh
  · exact applied_then_reverted hj.tables (processedContent_of_class (by rw [hm]; decide)) hmax hp

end Projections

section Sample

attribute [local instance] Primitives.reference

theorem socialProjections_exact_sampleRun :
    let db := reached sampleEnv sampleRun
    db.proj.socialPostsByTime = ∅ ∧ Exact sampleEnv (shown db.ev) (socialPart db.proj) := by
  have hlen : ∀ v ∈ sampleRun.flatMap Op.delivered, ∀ w ∈ sampleRun.flatMap Op.delivered,
      v.event.contentHash = w.event.contentHash → v.event.contentLen = w.event.contentLen := by
    decide
  exact ⟨by decide +kernel, (socialProjections_exact sampleEnv sampleRun_collisionFree
    Primitives.reference_injective rfl hlen sampleRun (deliveredFrom_envelopesOf sampleRun)).1⟩

/-- A post without content, of the author who deletes it. -/
def sampleHollow : Event :=
  { kind := EventKind.SOCIAL_POST, contentLen := 0, timestamp := 1, author := toLex (1, 1)
    contentHash := blake3 [] }

def sampleHollowRun : List Op := [.ingest [.envelope (.ofEvent sampleHollow) 5 .local]]

/-- The two headers of the counterexample. -/
def sampleHollowEvents : Set VerifiedEvent :=
  {v | v ∈ [VerifiedEvent.ofEvent sampleHollow, VerifiedEvent.ofEvent sampleDeletion]}

/-- **A deleted post without content cannot be decoded when it is taken back.** The empty string is no post, and
the reversal fails on it. -/
theorem hollowDeletion_invalid :
    CollisionFree sampleHollowEvents ∧ SameLengths sampleHollowEvents ∧
      DeliveredFrom sampleHollowEvents sampleHollowRun ∧
      ∃ p c, RevertCall sampleHollowEvents (reached sampleEnv sampleHollowRun) p c ∧
        processEventContentRevertedTx p c = .error .invalid := by
  have hone : ∀ v ∈ [VerifiedEvent.ofEvent sampleHollow, VerifiedEvent.ofEvent sampleDeletion],
      ∀ w ∈ [VerifiedEvent.ofEvent sampleHollow, VerifiedEvent.ofEvent sampleDeletion],
        (v.id = w.id → v = w) ∧ v.event.contentLen = w.event.contentLen := by decide
  refine ⟨fun v hv w hw => (hone v hv w hw).1, fun v hv w hw _ => (hone v hv w hw).2, ?_, ?_⟩
  · intro o ho v hv
    obtain rfl := List.mem_singleton.mp ho
    obtain rfl := List.mem_singleton.mp hv
    exact List.mem_cons_self
  · have hout : ((insertEventTx (reached sampleEnv sampleHollowRun).ev (.ofEvent sampleDeletion)).toOption.map
        Prod.snd) = some (.inserted false false (some 1) (some []) []) := by decide +kernel
    have hparent : ((insertEventTx (reached sampleEnv sampleHollowRun).ev
        (.ofEvent sampleDeletion)).toOption.bind fun r => r.1.events.get 1) = some sampleHollow := by
      decide +kernel
    have hquota : (reached sampleEnv sampleHollowRun).quotaPruned.get
        (VerifiedEvent.ofEvent sampleDeletion).id = none := by decide +kernel
    cases hins : insertEventTx (reached sampleEnv sampleHollowRun).ev (.ofEvent sampleDeletion) with
    | error e =>
      rw [hins] at hout
      cases hout
    | ok r =>
      obtain ⟨t, o⟩ := r
      rw [hins] at hout hparent
      obtain rfl : o = _ := Option.some.inj hout
      have hcontent : revertedContent t (some 1) (some []) = some ⟨.ofEvent sampleHollow, some []⟩ := by
        simp only [Except.toOption, Option.bind_some] at hparent
        simp [revertedContent, hparent]
      have hkept : applyQuotaDecisionTx { reached sampleEnv sampleHollowRun with ev := t }
          (.ofEvent sampleDeletion) = .ok t := by
        rw [applyQuotaDecisionTx, if_neg (by rw [hquota]; decide)]
      have hp : insertedLineageTx t { (reached sampleEnv sampleHollowRun).proj with
          receptionOrderNext := none } (.ofEvent sampleDeletion) false = .ok _ := rfl
      exact ⟨_, _, .deletion (by simp [sampleHollowEvents]) hins hkept hp hcontent, rfl⟩

end Sample

end Rostra.Db
