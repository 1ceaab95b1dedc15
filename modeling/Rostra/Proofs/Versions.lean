/-
# Versions of a post and their owners

A lineage row is keyed by the author of the EDIT; the version it leads to is whatever the edit's
header names, and nobody checks whose event that is.  So the walk from a post of `X` stays with `X`
as long as the edits do, and no longer: an edit that names another author's post brings that post's
replies under the editor's.

* `EditsTraced` and `RepliesTraced` trace every lineage row and every reply row to an ingested
  header.  They need nothing.
* With `OwnEdits` every stored version is of the post's author.  One edit that is not refutes it.
* What an author signs moves that author's rows only (`Signed`): the versions of everybody else's
  posts, and the rows of everybody else's replies, stay.

Without a condition on the run the versions need not be the author's: an edit names what it replaces, and nobody
checks whose it is. `OwnEdits` is that condition. What a delivery of somebody else can do to the listing of a post
is described without it, and is little: it can add a reply, or be one.
-/
import Rostra.Proofs.Projections

namespace Rostra.Db

open Rostra Outcome

section Walks

/-! ## 1. Walks and listings

A walk follows the rows of a lineage from a post; a listing merges the replies under all versions that the walk has
found. Both depend on the rows that they meet and on no others. -/

theorem firstLineageRow_mem {rows : LineageRows} {a : RostraId} {id next : ShortEventId}
    (h : firstLineageRow rows a id = some next) : (a, id, next) ∈ rows := by
  obtain ⟨⟨a', id', next'⟩, hr, rfl⟩ := Finset.mem_image.mp (Table.least_mem h)
  obtain ⟨hmem, rfl, rfl⟩ := Finset.mem_filter.mp hr
  exact hmem

/-- A version is the start of the walk or the far end of a row. -/
theorem versionsLoop_mem {rows : LineageRows} {a : RostraId} :
    ∀ {fuel : ℕ} {id : ShortEventId} {vs : List ShortEventId},
      versionsLoop rows a fuel id = some vs → ∀ v ∈ vs, v = id ∨ ∃ u, (a, u, v) ∈ rows
  | 0, _, _, h => by cases h
  | fuel + 1, id, vs, h => by
    unfold versionsLoop at h
    split at h
    · cases h
      intro v hv
      exact .inl (List.mem_singleton.mp hv)
    · next next hnext =>
      obtain ⟨vs', hvs', rfl⟩ := Option.map_eq_some_iff.mp h
      intro v hv
      rcases List.mem_cons.mp hv with rfl | hv
      · exact .inl rfl
      · rcases versionsLoop_mem hvs' v hv with rfl | h'
        · exact .inr ⟨id, firstLineageRow_mem hnext⟩
        · exact .inr h'

/-- More turns, and other authors' rows, do not change a walk that ends. -/
theorem versionsLoop_mono {rows rows' : LineageRows} {a : RostraId}
    (hrows : ∀ id, firstLineageRow rows' a id = firstLineageRow rows a id) :
    ∀ {fuel fuel' : ℕ} {id : ShortEventId} {vs : List ShortEventId}, fuel ≤ fuel' →
      versionsLoop rows a fuel id = some vs → versionsLoop rows' a fuel' id = some vs
  | 0, _, _, _, _, h => by cases h
  | fuel + 1, 0, _, _, hle, _ => by omega
  | fuel + 1, fuel' + 1, id, vs, hle, h => by
    unfold versionsLoop at h ⊢
    rw [hrows id]
    split at h
    · exact h
    · obtain ⟨vs', hvs', rfl⟩ := Option.map_eq_some_iff.mp h
      rw [versionsLoop_mono hrows (by omega) hvs', Option.map_some]

/-- **A walk along falling ranks ends**, within the number of rows. The induction is on the fuel, against the rows
whose rank is still below. -/
theorem versionsLoop_isSome {rows : LineageRows} {a : RostraId} (rank : ShortEventId → ℕ)
    (hrank : ∀ u v, (a, u, v) ∈ rows → rank v < rank u) :
    ∀ (fuel : ℕ) (id : ShortEventId),
      (rows.filter fun r => r.1 = a ∧ rank r.2.1 ≤ rank id).card < fuel →
        (versionsLoop rows a fuel id).isSome
  | 0, _, h => by omega
  | fuel + 1, id, h => by
    unfold versionsLoop
    split
    · rfl
    · next next hnext =>
      have hrow := firstLineageRow_mem hnext
      have hlt := hrank _ _ hrow
      -- the row just used is not among those the rest of the walk can use
      have hsub : (rows.filter fun r => r.1 = a ∧ rank r.2.1 ≤ rank next) ⊂
          rows.filter fun r => r.1 = a ∧ rank r.2.1 ≤ rank id := by
        refine Finset.ssubset_iff_of_subset ?_ |>.mpr ⟨(a, id, next), ?_, ?_⟩
        · intro r hr
          obtain ⟨hmem, hra, hle⟩ := Finset.mem_filter.mp hr
          exact Finset.mem_filter.mpr ⟨hmem, hra, hle.trans hlt.le⟩
        · exact Finset.mem_filter.mpr ⟨hrow, rfl, le_rfl⟩
        · intro hr
          have := (Finset.mem_filter.mp hr).2.2
          dsimp only at this
          omega
      have hcard := Finset.card_lt_card hsub
      rw [Option.isSome_map]
      exact versionsLoop_isSome rank hrank fuel next (by omega)

/-- Everything that waits in the streams and on the heap satisfies `K`. -/
def Waiting (K : IndexKey → Prop) (s : List (List IndexKey) × Finset (IndexKey ×ₗ ℕ)) : Prop :=
  (∀ l ∈ s.1, ∀ k ∈ l, K k) ∧ ∀ x ∈ s.2, K (ofLex x).1

theorem Waiting.pull {K : IndexKey → Prop} {s : List (List IndexKey) × Finset (IndexKey ×ₗ ℕ)}
    (h : Waiting K s) (i : ℕ) : Waiting K (pullStream s i) := by
  unfold pullStream
  split
  · next k rest hi =>
    have hmem : k :: rest ∈ s.1 := List.mem_of_getElem? hi
    refine ⟨fun l hl k' hk' => ?_, fun x hx => ?_⟩
    · rcases List.mem_or_eq_of_mem_set hl with hl | rfl
      · exact h.1 l hl k' hk'
      · exact h.1 _ hmem k' (List.mem_cons_of_mem _ hk')
    · rcases Finset.mem_insert.mp hx with rfl | hx
      · exact h.1 _ hmem k List.mem_cons_self
      · exact h.2 x hx
  · exact h

theorem Waiting.erase {K : IndexKey → Prop} {s : List (List IndexKey) × Finset (IndexKey ×ₗ ℕ)}
    (h : Waiting K s) (x : IndexKey ×ₗ ℕ) : Waiting K (s.1, s.2.erase x) :=
  ⟨h.1, fun y hy => h.2 y (Finset.mem_of_mem_erase hy)⟩

/-- **A page is made of loaded rows**, and depends on what is loaded for the waiting rows only. So two loaders that
agree on them give the same page. -/
theorem paginateIndexLoop_spec {T : Type} {K : IndexKey → Prop}
    {load load' : IndexKey → Option (Option T)}
    (hload : ∀ k, K k → ∀ r, load k = some r → load' k = some r) :
    ∀ {fuel limit : ℕ} {s : List (List IndexKey) × Finset (IndexKey ×ₗ ℕ)}
      {page : List T}, Waiting K s → paginateIndexLoop load fuel limit s = some page →
        paginateIndexLoop load' fuel limit s = some page ∧
          ∀ r ∈ page, ∃ k, K k ∧ load k = some (some r)
  | 0, _, _, _, _, h => by
    cases h
    exact ⟨rfl, by simp⟩
  | fuel + 1, limit, s, page, hs, h => by
    unfold paginateIndexLoop at h ⊢
    cases htop : Table.greatest s.2 with
    | none =>
      rw [htop] at h
      cases h
      exact ⟨rfl, by simp⟩
    | some top =>
      rw [htop] at h
      dsimp only at h ⊢
      have hK : K (ofLex top).1 := hs.2 top (Table.greatest_mem htop)
      have hnext := (hs.erase top).pull (ofLex top).2
      cases hl : load (ofLex top).1 with
      | none =>
        rw [hl] at h
        cases h
      | some record =>
        rw [hl] at h
        rw [hload _ hK _ hl]
        cases record with
        | none => exact paginateIndexLoop_spec hload hnext h
        | some record =>
          dsimp only at h ⊢
          by_cases hlimit : limit = 1
          · rw [if_pos hlimit] at h ⊢
            cases h
            refine ⟨rfl, fun r hr => ?_⟩
            obtain rfl := List.mem_singleton.mp hr
            exact ⟨_, hK, hl⟩
          · rw [if_neg hlimit] at h ⊢
            obtain ⟨rest, hrest, rfl⟩ := Option.map_eq_some_iff.mp h
            obtain ⟨hsame, hmem⟩ := paginateIndexLoop_spec hload hnext hrest
            refine ⟨by rw [hsame, Option.map_some], fun r hr => ?_⟩
            rcases List.mem_cons.mp hr with rfl | hr
            · exact ⟨_, hK, hl⟩
            · exact hmem r hr

theorem paginateSocialPostIndexRev_spec {T : Type} {K : IndexKey → Prop}
    {load load' : IndexKey → Option (Option T)}
    (hload : ∀ k, K k → ∀ r, load k = some r → load' k = some r) {streams : List (List IndexKey)}
    (hK : ∀ l ∈ streams, ∀ k ∈ l, K k) {limit : ℕ} {page : List T}
    (h : paginateSocialPostIndexRev streams limit load = some page) :
    paginateSocialPostIndexRev streams limit load' = some page ∧
      ∀ r ∈ page, ∃ k, K k ∧ load k = some (some r) := by
  unfold paginateSocialPostIndexRev at h ⊢
  by_cases hlimit : limit = 0
  · rw [if_pos hlimit] at h ⊢
    cases h
    exact ⟨rfl, by simp⟩
  · rw [if_neg hlimit] at h ⊢
    refine paginateIndexLoop_spec hload ?_ h
    have hstart : Waiting K (streams, ∅) := ⟨hK, by simp⟩
    clear h
    induction List.range streams.length using List.reverseRecOn with
    | nil => exact hstart
    | append_singleton is i ih =>
      rw [List.foldl_append]
      exact Waiting.pull ih i

/-- A key of a stream is a row under its version. -/
theorem mem_indexStream {rows : Finset IndexRow} {version : ShortEventId} {cursor : Option IndexKey}
    {k : IndexKey} (h : k ∈ indexStream rows version cursor) :
    (version, (ofLex k).1, (ofLex k).2) ∈ rows := by
  obtain ⟨hk, -⟩ := Finset.mem_filter.mp ((Finset.mem_sort _).mp h)
  obtain ⟨⟨v, ts, id⟩, hr, rfl⟩ := Finset.mem_image.mp hk
  obtain ⟨hmem, rfl⟩ := Finset.mem_filter.mp hr
  exact hmem

theorem mem_indexStreams (rows : Finset IndexRow) (vs : List ShortEventId)
    (cursor : Option IndexKey) : ∀ l ∈ vs.map (indexStream rows · cursor), ∀ k ∈ l,
      ∃ v ∈ vs, (v, (ofLex k).1, (ofLex k).2) ∈ rows := by
  intro l hl k hk
  obtain ⟨v, hv, rfl⟩ := List.mem_map.mp hl
  exact ⟨v, hv, mem_indexStream hk⟩

end Walks

section Traces

variable [Primitives]

/-! ## 2. Where rows come from

A row of a lineage or of a reply is written when a payload is projected, and the header of that payload was
ingested. This needs no assumption on the envelopes. -/

/-- Every lineage row is the row of an ingested edit. -/
def EditsTraced (D : Set VerifiedEvent) (p : Projections) : Prop :=
  ∀ a new old, (a, new, old) ∈ p.socialPostsReplaces → ∃ c : VerifiedEventContent, c.event ∈ D ∧
    c.event.event.author = a ∧ c.event.id = new ∧ lineageOf c.toEventContent = some old

section Effects

variable {env : Env} {D : Set VerifiedEvent} {db db' : Database}

/-- Taking content back leaves the lineage. -/
theorem dematerializeTx_lineage {v : VerifiedEvent} {target : QuotaPruneTarget} {p : Projections}
    (hp : dematerializeTx db v target = .ok p) :
    (socialPart p).lineage = (socialPart db.proj).lineage := by
  have hback := dematerializeTx_takenBack hp
  cases target with
  | missing =>
    rw [show p = db.proj from hback]
  | processed =>
    obtain ⟨c, -, hback⟩ := hback
    exact hback.lineage

/-- Lineage only grows, by one edit at a time. -/
theorem DbEffect.lineage (h : DbEffect env D db db') :
    (socialPart db'.proj).lineage = (socialPart db.proj).lineage ∨
      ∃ c : VerifiedEventContent, c.event ∈ D ∧
        (socialPart db'.proj).lineage =
          (socialPart (withLineage db.proj c.toEventContent)).lineage := by
  cases h with
  | envelope hv h =>
    refine h.lineage.imp_right fun ⟨c, b, hc, _, _, hlin⟩ => ⟨c, ?_, hlin⟩
    rw [hc]
    exact hv
  | @payload c _ _ hc hst h => exact h.lineage.imp_right fun hlin => ⟨c, hc, hlin⟩
  | @released id e target p t he hmatch hkind hlen hp ht decisions =>
    exact .inl (dematerializeTx_lineage hp)
  | scheduled h => exact .inl rfl
  | collected hrc => exact .inl rfl
  | booked h =>
    obtain ⟨a, r, rfl⟩ := h
    exact .inl rfl
  | ranked postId now =>
    exact .inl (congrArg SocialPart.lineage (recalculateNewsPostScoreTx_social ..))

theorem DbEffect.editsTraced (h : DbEffect env D db db') (ht : EditsTraced D db.proj) :
    EditsTraced D db'.proj := by
  intro a new old hr
  rcases h.lineage with hlin | ⟨c, hc, hlin⟩
  · rw [show db'.proj.socialPostsReplaces = db.proj.socialPostsReplaces from
      congrArg Prod.snd hlin] at hr
    exact ht a new old hr
  · rw [show db'.proj.socialPostsReplaces =
      (withLineage db.proj c.toEventContent).socialPostsReplaces from congrArg Prod.snd hlin,
      mem_withLineage_replaces] at hr
    rcases hr with hr | ⟨old', hold, heq⟩
    · exact ht a new old hr
    · cases heq
      exact ⟨c, hc, rfl, rfl, hold⟩

/-- What one effect does to the rows of replies, whatever the bytes it takes back. -/
inductive RowEffect (env : Env) (A : VerifiedEvent → Prop) (db db' : Database) : Prop
  | kept (hp : (socialPart db'.proj).unlined = (socialPart db.proj).unlined)
  | applied (c : VerifiedEventContent) (hA : A c.event)
      (hst : db.ev.events.get c.event.id = some c.event.event)
      (hm : contentClass db.ev c.event.id = .missing)
      (hcur : contentClass db'.ev c.event.id = .current) (post : SocialPost)
      (hpost : projectedPost c.toEventContent = some post)
      (ha : Applied env (socialPart db.proj) (socialPart db'.proj) c.event.id (c.event.event, post))
  | reverted (c : EventContent) (hA : A c.event) (post : SocialPost) (p : Projections)
      (hp : (socialPart p).unlined = (socialPart db.proj).unlined)
      (hr : Reverted (socialPart p) (socialPart db'.proj) c.event.id (c.event.event, post))

theorem RowEffect.mono {A A' : VerifiedEvent → Prop} (h : RowEffect env A db db')
    (hA : ∀ v, A v → A' v) : RowEffect env A' db db' := by
  cases h with
  | kept hp => exact .kept hp
  | applied c hAc hst hm hcur post hpost ha => exact .applied c (hA _ hAc) hst hm hcur post hpost ha
  | reverted c hAc post p hp hr => exact .reverted c (hA _ hAc) post p hp hr

/-- Content that was taken back changes nothing or the rows of one post. -/
theorem TakenBack.rows {A : VerifiedEvent → Prop} {p : Projections} {c : EventContent}
    (h : TakenBack p db'.proj c) (hA : A c.event)
    (hp : (socialPart p).unlined = (socialPart db.proj).unlined) : RowEffect env A db db' := by
  unfold TakenBack at h
  split at h
  · next post _ => exact .reverted c hA post p hp h
  · refine .kept ?_
    rw [h, hp]

theorem EnvelopeEffect.rows {v : VerifiedEvent} (h : EnvelopeEffect db v db')
    (hk : KeyedBy D db.ev) :
    RowEffect env (fun w => w ∈ D ∧ w.event.author = v.event.author) db db' := by
  cases h with
  | present e he t₁ ht₁ hfin hproj hquota => exact .kept (by rw [hproj])
  | new hnew t₁ isD dp rev hins hfin next hproj hquota =>
    have hun := lineageArrived_unlined t₁ { db.proj with receptionOrderNext := next } v isD
    have hback := arrivedProjections_takenBack hproj
    cases hc : revertedContent t₁ dp rev with
    | none =>
      rw [hc] at hback
      exact .kept (by rw [hback]; exact hun)
    | some c =>
      rw [hc] at hback
      refine hback.rows ?_ hun
      unfold revertedContent at hc
      split at hc
      · next b parent _ hparent =>
        cases hc
        obtain ⟨q, rfl, hq⟩ := Option.bind_eq_some_iff.mp hparent
        obtain ⟨e, he, hauthor, -⟩ := hins.parent q rfl
        have hne : q ≠ v.id := by
          rintro rfl
          rw [hnew] at he
          cases he
        rw [hins.events, Table.get_insert_of_ne _ _ hne, he] at hq
        cases hq
        exact ⟨hk.mem he, hauthor⟩
      · cases hc

theorem PayloadEffect.rows {c : VerifiedEventContent} {now : Timestamp}
    (h : PayloadEffect env {} db c now db') (hc : c.event ∈ D)
    (hst : db.ev.events.get c.event.id = some c.event.event) :
    RowEffect env (fun w => w ∈ D ∧ w.event.author = c.event.event.author) db db' := by
  cases h with
  | idle h => exact .kept rfl
  | processed b hb hm hlen p hp u =>
    have hsocial := ((processEventContentInsertedTx_social env {} _ _ now hlen).of_ok hp).2
    cases hpost : projectedPost c.toEventContent with
    | none =>
      rw [hpost] at hsocial
      exact .kept (by rw [hsocial])
    | some post =>
      rw [hpost] at hsocial
      exact .applied c ⟨hc, rfl⟩ hst hm (by simp [contentClass, classOf]) post hpost hsocial
  | rejected b hb hm hlen hp rc u => exact .kept rfl
  | deleted b hb hd hlen => exact .kept (withLineage_unlined _ _)

theorem DbEffect.rows (h : DbEffect env D db db') (hk : KeyedBy D db.ev) :
    RowEffect env (· ∈ D) db db' := by
  cases h with
  | envelope hv h => exact (h.rows hk).mono fun _ h => h.1
  | payload hc hst h => exact (h.rows hc hst).mono fun _ h => h.1
  | @released id e target p t he hmatch hkind hlen hp ht decisions =>
    have hback := dematerializeTx_takenBack hp
    cases target with
    | missing => exact .kept (by rw [show p = db.proj from hback])
    | processed =>
      obtain ⟨c, hc, hback⟩ := hback
      obtain ⟨b, -, hver⟩ := Option.bind_eq_some_iff.mp hc
      refine TakenBack.rows hback ?_ rfl
      rw [(VerifiedEventContent.verify_eq_some hver).1]
      exact hk.mem he
  | scheduled h => exact .kept rfl
  | collected hrc => exact .kept rfl
  | booked h =>
    obtain ⟨a, r, rfl⟩ := h
    exact .kept rfl
  | ranked postId now =>
    exact .kept (congrArg SocialPart.unlined (recalculateNewsPostScoreTx_social ..))

end Effects

/-- A payload is a reply (or a reaction) to `target`. -/
def Addressed (present : SocialPost → Bool) (c : EventContent) (target : ShortEventId) : Prop :=
  ∃ post reply, c.socialPost? = some post ∧ post.replyTo = some reply ∧ reply.eventId = target ∧
    present post = true

/-- Every row belongs to an ingested reply to the post it stands under, which awaits nothing any
more; and the counter of a post counts at most its rows. -/
structure RowsTraced (D : Set VerifiedEvent) (t : EventTables) (present : SocialPost → Bool)
    (rows : Finset IndexRow) (count : ShortEventId → ℕ) : Prop where
  row : ∀ target ts id, (target, ts, id) ∈ rows → (∃ e, t.events.get id = some e) ∧
    contentClass t id ≠ .missing ∧ ∃ c : VerifiedEventContent, c.event ∈ D ∧ c.event.id = id ∧
      Addressed present c.toEventContent target
  count : ∀ target, count target ≤ (rows.filter fun r => r.1 = target).card

omit [Primitives] in
theorem indexRow_eq_some {present : SocialPost → Bool} {id : ShortEventId} {x : PostSource}
    {r : IndexRow} : indexRow present id x = some r ↔ present x.2 = true ∧
      ∃ reply, x.2.replyTo = some reply ∧ r = (reply.eventId, x.1.timestamp, id) := by
  unfold indexRow
  split
  · next h => simp [h, eq_comm]
  · next h => simp [h]

/-- A readable post is the one the payload projects. -/
theorem socialPost?_of_projected {c : EventContent} {post : SocialPost}
    (h : projectedPost c = some post) : c.socialPost? = some post := by
  unfold projectedPost at h
  split at h
  · exact (Option.filter_eq_some_iff.mp h).1
  · cases h

section Rows

variable {D : Set VerifiedEvent} {t t' : EventTables} {present : SocialPost → Bool}
  {rows rows' : Finset IndexRow} {count count' : ShortEventId → ℕ}

/-- The events moved on. -/
theorem RowsTraced.later (h : RowsTraced D t present rows count)
    (hev : ∀ id e, t.events.get id = some e → t'.events.get id = some e ∧
      Edge (contentClass t id) (contentClass t' id)) : RowsTraced D t' present rows count := by
  refine ⟨fun target ts id hr => ?_, h.count⟩
  obtain ⟨⟨e, he⟩, hm, hc⟩ := h.row target ts id hr
  obtain ⟨he', hedge⟩ := hev id e he
  refine ⟨⟨e, he'⟩, fun hm' => ?_, hc⟩
  rw [hm'] at hedge
  rcases hedge with h | h | ⟨h, -⟩ | ⟨h, -⟩
  · exact hm h.symm
  · cases h
  · cases h
  · exact hm h

/-- A reply appears: it was awaited, so it had no row yet. -/
theorem RowsTraced.applied (h : RowsTraced D t present rows count) {c : VerifiedEventContent}
    (hcD : c.event ∈ D) (hm : contentClass t c.event.id = .missing) {post : SocialPost}
    (hpost : c.socialPost? = some post) (ht' : RowsTraced D t' present rows count)
    (hst' : t'.events.get c.event.id = some c.event.event)
    (hm' : contentClass t' c.event.id ≠ .missing)
    (hrows : rows' = rows ∪ (indexRow present c.event.id (c.event.event, post)).toFinset)
    (hcount : ∀ target, count' target = count target +
      Index.weight Prod.fst (indexRow present c.event.id (c.event.event, post)) target) :
    RowsTraced D t' present rows' count' := by
  have hnew : ∀ r, indexRow present c.event.id (c.event.event, post) = some r → r ∉ rows := by
    intro r hr hmem
    obtain ⟨-, reply, -, rfl⟩ := indexRow_eq_some.mp hr
    exact (h.row _ _ _ hmem).2.1 hm
  subst hrows
  refine ⟨fun target ts id hr => ?_, fun target => ?_⟩
  · rw [Finset.mem_union, Option.mem_toFinset, Option.mem_def] at hr
    rcases hr with hr | hr
    · exact ht'.row target ts id hr
    · obtain ⟨hpres, reply, hreply, heq⟩ := indexRow_eq_some.mp hr
      cases heq
      exact ⟨⟨_, hst'⟩, hm', c, hcD, rfl, post, reply, hpost, hreply, rfl, hpres⟩
  · rw [hcount, Index.card_filter_add Prod.fst hnew]
    exact Nat.add_le_add_right (h.count target) _

/-- A row goes, with its count; or only the count does. -/
theorem RowsTraced.reverted (h : RowsTraced D t present rows count) {row : Option IndexRow}
    (hrows : rows' = rows \ row.toFinset)
    (hcount : ∀ target, count' target + Index.weight Prod.fst row target = count target) :
    RowsTraced D t present rows' count' := by
  subst hrows
  refine ⟨fun target ts id hr => h.row target ts id (Finset.mem_sdiff.mp hr).1, fun target => ?_⟩
  have h₁ := h.count target
  have h₂ : (rows.filter fun r => r.1 = target).card ≤
      ((rows \ row.toFinset).filter fun r => r.1 = target).card +
        Index.weight Prod.fst row target := Index.card_filter_remove rows row target
  have h₃ := hcount target
  omega

end Rows

/-- The rows of replies and of reactions. -/
structure RepliesTraced (D : Set VerifiedEvent) (t : EventTables) (s : SocialPart) : Prop where
  replies : RowsTraced D t hasText s.replies s.replyCount
  reactions : RowsTraced D t hasReaction s.reactions s.reactionCount

theorem RepliesTraced.congr {D : Set VerifiedEvent} {t : EventTables} {s s' : SocialPart}
    (h : RepliesTraced D t s) (hs : s'.unlined = s.unlined) : RepliesTraced D t s' := by
  have hr : s'.replies = s.replies := (congrArg SocialPart.replies hs :)
  have hr' : s'.reactions = s.reactions := (congrArg SocialPart.reactions hs :)
  have hc : s'.replyCount = s.replyCount := (congrArg SocialPart.replyCount hs :)
  have hc' : s'.reactionCount = s.reactionCount := (congrArg SocialPart.reactionCount hs :)
  refine ⟨?_, ?_⟩
  · rw [hr, hc]
    exact h.replies
  · rw [hr', hc']
    exact h.reactions

theorem DbEffect.repliesTraced {env : Env} {D : Set VerifiedEvent} {db db' : Database}
    (h : DbEffect env D db db') (hk : KeyedBy D db.ev)
    (ht : RepliesTraced D db.ev (socialPart db.proj)) :
    RepliesTraced D db'.ev (socialPart db'.proj) := by
  have hedges : ∀ id e, db.ev.events.get id = some e → db'.ev.events.get id = some e ∧
      Edge (contentClass db.ev id) (contentClass db'.ev id) := fun _ _ => h.edges
  have hlater : RepliesTraced D db'.ev (socialPart db.proj) :=
    ⟨ht.replies.later hedges, ht.reactions.later hedges⟩
  cases h.rows hk with
  | kept hp => exact hlater.congr hp
  | applied c hcD hst hm hcur post hpost ha =>
    have hread := socialPost?_of_projected hpost
    have hst' := (hedges _ _ hst).1
    have hm' : contentClass db'.ev c.event.id ≠ .missing := by
      rw [hcur]
      decide
    exact ⟨ht.replies.applied hcD hm hread hlater.replies hst' hm' ha.replies ha.replyCount,
      ht.reactions.applied hcD hm hread hlater.reactions hst' hm' ha.reactions ha.reactionCount⟩
  | reverted c hcD post p hp hr =>
    have hlater' := hlater.congr hp
    exact ⟨hlater'.replies.reverted hr.replies hr.replyCount,
      hlater'.reactions.reverted hr.reactions hr.reactionCount⟩

/-- **Along every run**, lineage rows and reply rows are traced: each of them goes back to a delivered post that
says so. -/
theorem reached_rowsTraced (env : Env) {D : Set VerifiedEvent} (hcf : CollisionFree D)
    (ops : List Op) (hD : DeliveredFrom D ops) :
    KeyedBy D (reached env ops).ev ∧ EditsTraced D (reached env ops).proj ∧
      RepliesTraced D (reached env ops).ev (socialPart (reached env ops).proj) := by
  have hk := balanced_keeps D
  refine ⟨(reached_keeps env hk hcf balanced_empty ops hD).1.keyed,
    reached_invariant env (J := fun db => EditsTraced D db.proj ∧
      RepliesTraced D db.ev (socialPart db.proj)) hk hcf balanced_empty ?_ ?_ ops hD⟩
  · refine ⟨fun a new old hr => ?_, ⟨fun target ts id hr => ?_, fun target => ?_⟩,
      ⟨fun target ts id hr => ?_, fun target => ?_⟩⟩
    · simp at hr
    · simp [socialPart] at hr
    · simp [socialPart, SocialPart.replyCount]
    · simp [socialPart] at hr
    · simp [socialPart, SocialPart.reactionCount]
  · rintro db db' hI - heff ⟨hedits, hrows⟩
    exact ⟨heff.editsTraced hedits, heff.repliesTraced hI.1.keyed hrows⟩

end Traces

section Owners

variable [Primitives]

/-! ## 3. Versions of the post's own author

With the condition, every step of a walk stays with the author of the post. -/

/-- An ingested edit that names an ingested event names one of its own author. -/
def OwnEdits (D : Set VerifiedEvent) : Prop :=
  ∀ c : VerifiedEventContent, c.event ∈ D → ∀ old, lineageOf c.toEventContent = some old →
    ∀ w ∈ D, w.id = old → w.event.author = c.event.event.author

/-- A listed reply is an ingested one, addressed to a post that is not somebody else's. -/
def AddressedToOwn (D : Set VerifiedEvent) (db : Database) (present : SocialPost → Bool)
    (author : RostraId) (reply : ShortEventId) : Prop :=
  ∃ c : VerifiedEventContent, c.event ∈ D ∧ c.event.id = reply ∧ ∃ target,
    Addressed present c.toEventContent target ∧
      ∀ e, db.ev.events.get target = some e → e.author = author

section State

variable {D : Set VerifiedEvent} {db : Database}

/-- **The stored versions of a post are its author's**, as long as nobody edits the posts of others. -/
theorem versions_author (hk : KeyedBy D db.ev) (ht : EditsTraced D db.proj) (hown : OwnEdits D)
    {id : ShortEventId} {e : Event} (he : db.ev.events.get id = some e) {vs : List ShortEventId}
    (hvs : socialPostVersionsTx db.proj e.author id = some vs) {v : ShortEventId} (hv : v ∈ vs)
    {e' : Event} (he' : db.ev.events.get v = some e') : e'.author = e.author := by
  rcases versionsLoop_mem hvs v hv with rfl | ⟨u, hrow⟩
  · rw [he] at he'
    cases he'
    rfl
  · obtain ⟨c, hc, hauthor, -, hold⟩ := ht _ _ _ hrow
    obtain ⟨w, hw, hwid, rfl⟩ := hk _ _ he'
    rw [hown c hc v hold w hw hwid, hauthor]

theorem versions_addressed (hk : KeyedBy D db.ev) (ht : EditsTraced D db.proj) (hown : OwnEdits D)
    {present : SocialPost → Bool} {rows : Finset IndexRow} {count : ShortEventId → ℕ}
    (hr : RowsTraced D db.ev present rows count) {id : ShortEventId} {e : Event}
    (he : db.ev.events.get id = some e) {vs : List ShortEventId}
    (hvs : socialPostVersionsTx db.proj e.author id = some vs) {v : ShortEventId} (hv : v ∈ vs)
    {ts : Timestamp} {reply : ShortEventId} (hrow : (v, ts, reply) ∈ rows) :
    AddressedToOwn D db present e.author reply := by
  obtain ⟨-, -, c, hc, hid, haddr⟩ := hr.row _ _ _ hrow
  exact ⟨c, hc, hid, v, haddr, fun e' he' => versions_author hk ht hown he hvs hv he'⟩

/-- A record carries the id of the row it was loaded for. -/
theorem socialPostRecordByIdTx_id {id : ShortEventId} {ts : Timestamp} {r : SocialPostView}
    (h : socialPostRecordByIdTx db id ts = some (some r)) : r.eventId = id := by
  unfold socialPostRecordByIdTx at h
  split at h
  · cases h
  split at h
  · cases h
  split at h
  · cases h
  · obtain ⟨n, -, hr⟩ := Option.map_eq_some_iff.mp h
    cases hr
    rfl

/-- **A listing shows replies to the versions**, and no others. -/
theorem paginateVersionsRev_row {rows : Finset IndexRow} {id : ShortEventId} {e : Event}
    (he : db.ev.events.get id = some e) {cursor : Option IndexKey} {limit : ℕ}
    {page : List SocialPostView} {next : Option IndexKey}
    (h : paginateVersionsRev db rows id cursor limit = some (page, next)) :
    ∃ vs, socialPostVersionsTx db.proj e.author id = some vs ∧
      ∀ r ∈ page, ∃ v ∈ vs, ∃ ts, (v, ts, r.eventId) ∈ rows := by
  unfold paginateVersionsRev listedVersions at h
  rw [he] at h
  obtain ⟨vs, hvs, h⟩ := Option.bind_eq_some_iff.mp h
  obtain ⟨records, hrecords, h⟩ := Option.bind_eq_some_iff.mp h
  cases h
  refine ⟨vs, hvs, fun r hr => ?_⟩
  obtain ⟨-, hmem⟩ := paginateSocialPostIndexRev_spec (fun _ _ _ h => h)
    (mem_indexStreams rows vs cursor) hrecords
  obtain ⟨k, ⟨v, hv, hrow⟩, hload⟩ := hmem r hr
  rw [← socialPostRecordByIdTx_id hload] at hrow
  exact ⟨v, hv, _, hrow⟩

/-- A listing that comes out, comes out of any database that agrees on the versions and on the
records of the rows. -/
theorem paginateVersionsRev_transfer {db' : Database} {rows : Finset IndexRow} {id : ShortEventId}
    (hversions : ∀ vs, listedVersions db id = some vs → listedVersions db' id = some vs)
    (hload : ∀ target ts reply, (target, ts, reply) ∈ rows → ∀ r,
      socialPostRecordByIdTx db reply ts = some r → socialPostRecordByIdTx db' reply ts = some r)
    {cursor : Option IndexKey} {limit : ℕ} {out : List SocialPostView × Option IndexKey}
    (h : paginateVersionsRev db rows id cursor limit = some out) :
    paginateVersionsRev db' rows id cursor limit = some out := by
  unfold paginateVersionsRev at h ⊢
  obtain ⟨vs, hvs, h⟩ := Option.bind_eq_some_iff.mp h
  obtain ⟨records, hrecords, h⟩ := Option.bind_eq_some_iff.mp h
  have hloads : ∀ k : IndexKey, (∃ v ∈ vs, (v, (ofLex k).1, (ofLex k).2) ∈ rows) → ∀ r,
      socialPostRecordByIdTx db (ofLex k).2 (ofLex k).1 = some r →
        socialPostRecordByIdTx db' (ofLex k).2 (ofLex k).1 = some r :=
    fun k ⟨v, _, hrow⟩ r hr => hload v _ _ hrow r hr
  obtain ⟨hsame, -⟩ := paginateSocialPostIndexRev_spec hloads (mem_indexStreams rows vs cursor)
    hrecords
  exact Option.bind_eq_some_iff.mpr ⟨vs, hversions vs hvs,
    Option.bind_eq_some_iff.mpr ⟨records, hsame, h⟩⟩

omit [Primitives] in
theorem foldl_saturating_le (f : ShortEventId → ℕ) (g : ShortEventId → ℕ) (hfg : ∀ v, f v ≤ g v) :
    ∀ (vs : List ShortEventId) (n m : ℕ), n ≤ m →
      vs.foldl (fun n v => min u64Max (n + f v)) n ≤ m + (vs.map g).sum
  | [], n, m, h => by simpa using h
  | v :: vs, n, m, h => by
    rw [List.foldl_cons, List.map_cons, List.sum_cons, ← Nat.add_assoc]
    refine foldl_saturating_le f g hfg vs _ _ ?_
    have := hfg v
    omega

/-- The reported number of replies is at most the number of rows under the versions. -/
theorem socialPostReplyCountTx_le {t : EventTables} {p : Projections}
    (hr : RowsTraced D t hasText p.socialPostsReplies (socialPart p).replyCount) {a : RostraId}
    {id : ShortEventId} {n : ℕ} (h : socialPostReplyCountTx p a id = some n) :
    ∃ vs, socialPostVersionsTx p a id = some vs ∧
      n ≤ (vs.map fun v => (p.socialPostsReplies.filter fun r => r.1 = v).card).sum := by
  obtain ⟨vs, hvs, rfl⟩ := Option.map_eq_some_iff.mp h
  refine ⟨vs, hvs, ?_⟩
  have := foldl_saturating_le (fun v => ((p.socialPosts.get v).getD {}).replyCount) _ hr.count vs 0 0
    le_rfl
  simpa using this

end State

/-! ## 4. What one author's events leave alone

An author can only write rows under its own name. What this leaves alone is said of everybody else's rows, for one
effect after the other. -/

/-- **What deliveries signed by `X` keep**: every header, the states of other authors' events, stored
bytes, other authors' lineage rows, and the rows of other authors' replies. -/
structure Signed (D : Set VerifiedEvent) (X : RostraId) (db db' : Database) : Prop where
  stored : ∀ id e, db.ev.events.get id = some e → db'.ev.events.get id = some e
  states : ∀ id e, db.ev.events.get id = some e → e.author ≠ X →
    db'.ev.eventsContentState.get id = db.ev.eventsContentState.get id
  store : ∀ k b, db.ev.contentStore.get k = some b → db'.ev.contentStore.get k = some b
  replaces : db.proj.socialPostsReplaces ⊆ db'.proj.socialPostsReplaces
  lineage : ∀ r ∈ db'.proj.socialPostsReplaces, r.1 ≠ X → r ∈ db.proj.socialPostsReplaces
  replies : ∀ r : IndexRow, (∀ w ∈ D, w.event.author = X → w.id ≠ r.2.2) →
    (r ∈ db'.proj.socialPostsReplies ↔ r ∈ db.proj.socialPostsReplies)
  reactions : ∀ r : IndexRow, (∀ w ∈ D, w.event.author = X → w.id ≠ r.2.2) →
    (r ∈ db'.proj.socialPostsReactions ↔ r ∈ db.proj.socialPostsReactions)

section Signatures

variable {D : Set VerifiedEvent} {X : RostraId} {env : Env} {db db' : Database}

theorem Signed.refl (db : Database) : Signed D X db db :=
  ⟨fun _ _ h => h, fun _ _ _ _ => rfl, fun _ _ h => h, Finset.Subset.refl _, fun _ h _ => h,
    fun _ _ => Iff.rfl, fun _ _ => Iff.rfl⟩

theorem Signed.trans {db'' : Database} (h : Signed D X db db') (h' : Signed D X db' db'') :
    Signed D X db db'' where
  stored id e he := h'.stored id e (h.stored id e he)
  states id e he ha := (h'.states id e (h.stored id e he) ha).trans (h.states id e he ha)
  store k b hb := h'.store k b (h.store k b hb)
  replaces := h.replaces.trans h'.replaces
  lineage r hr ha := h.lineage r (h'.lineage r hr ha) ha
  replies r hr := (h'.replies r hr).trans (h.replies r hr)
  reactions r hr := (h'.reactions r hr).trans (h.reactions r hr)

/-- The lineage half, for an edit signed by `X` or none. -/
theorem signed_lineage (h : (socialPart db'.proj).lineage = (socialPart db.proj).lineage ∨
      ∃ c : VerifiedEventContent, c.event.event.author = X ∧ (socialPart db'.proj).lineage =
        (socialPart (withLineage db.proj c.toEventContent)).lineage) :
    db.proj.socialPostsReplaces ⊆ db'.proj.socialPostsReplaces ∧
      ∀ r ∈ db'.proj.socialPostsReplaces, r.1 ≠ X → r ∈ db.proj.socialPostsReplaces := by
  rcases h with hlin | ⟨c, hc, hlin⟩
  · have hsame : db'.proj.socialPostsReplaces = db.proj.socialPostsReplaces := congrArg Prod.snd hlin
    rw [hsame]
    exact ⟨Finset.Subset.refl _, fun _ h _ => h⟩
  · have hsame : db'.proj.socialPostsReplaces =
        (withLineage db.proj c.toEventContent).socialPostsReplaces := congrArg Prod.snd hlin
    rw [hsame]
    refine ⟨fun r hr => mem_withLineage_replaces.mpr (.inl hr), fun r hr ha => ?_⟩
    rcases mem_withLineage_replaces.mp hr with hr | ⟨old, -, rfl⟩
    · exact hr
    · exact absurd hc ha

/-- The rows of one post of `X` are no rows of anybody else's reply. -/
theorem indexRow_signed {present : SocialPost → Bool} {v : VerifiedEvent} (hv : v ∈ D)
    (ha : v.event.author = X) {post : SocialPost} {r : IndexRow}
    (hr : ∀ w ∈ D, w.event.author = X → w.id ≠ r.2.2) :
    r ∉ (indexRow present v.id (v.event, post)).toFinset := by
  rw [Option.mem_toFinset, Option.mem_def]
  intro hrow
  obtain ⟨-, reply, -, rfl⟩ := indexRow_eq_some.mp hrow
  exact hr v hv ha rfl

theorem RowEffect.signed (h : RowEffect env (fun w => w ∈ D ∧ w.event.author = X) db db')
    (r : IndexRow) (hr : ∀ w ∈ D, w.event.author = X → w.id ≠ r.2.2) :
    (r ∈ db'.proj.socialPostsReplies ↔ r ∈ db.proj.socialPostsReplies) ∧
      (r ∈ db'.proj.socialPostsReactions ↔ r ∈ db.proj.socialPostsReactions) := by
  cases h with
  | kept hp =>
    have h₁ : db'.proj.socialPostsReplies = db.proj.socialPostsReplies :=
      (congrArg SocialPart.replies hp :)
    have h₂ : db'.proj.socialPostsReactions = db.proj.socialPostsReactions :=
      (congrArg SocialPart.reactions hp :)
    rw [h₁, h₂]
    exact ⟨Iff.rfl, Iff.rfl⟩
  | applied c hA hst hm hcur post hpost ha =>
    have h₁ : db'.proj.socialPostsReplies = _ := ha.replies
    have h₂ : db'.proj.socialPostsReactions = _ := ha.reactions
    rw [h₁, h₂]
    refine ⟨?_, ?_⟩
    · rw [Finset.mem_union, or_iff_left (indexRow_signed hA.1 hA.2 hr)]
      exact Iff.rfl
    · rw [Finset.mem_union, or_iff_left (indexRow_signed hA.1 hA.2 hr)]
      exact Iff.rfl
  | reverted c hA post p hp hrev =>
    have h₁ : db'.proj.socialPostsReplies = _ := hrev.replies
    have h₂ : db'.proj.socialPostsReactions = _ := hrev.reactions
    have h₃ : (socialPart p).replies = db.proj.socialPostsReplies :=
      (congrArg SocialPart.replies hp :)
    have h₄ : (socialPart p).reactions = db.proj.socialPostsReactions :=
      (congrArg SocialPart.reactions hp :)
    rw [h₁, h₂, h₃, h₄]
    refine ⟨?_, ?_⟩
    · rw [Finset.mem_sdiff, and_iff_left (indexRow_signed hA.1 hA.2 hr)]
    · rw [Finset.mem_sdiff, and_iff_left (indexRow_signed hA.1 hA.2 hr)]

/-- **An envelope signed by `X`** moves rows of `X` at most, since it deletes posts of its own author only. -/
theorem EnvelopeEffect.signed {v : VerifiedEvent} (h : EnvelopeEffect db v db')
    (hk : KeyedBy D db.ev) (hcf : CollisionFree D) (hv : v ∈ D) (ha : v.event.author = X) :
    Signed D X db db' := by
  subst ha
  have heff : RowEffect ⟨v.event.author, 0⟩ (fun w => w ∈ D ∧ w.event.author = v.event.author) db
      db' := h.rows hk
  have hrows := heff.signed
  have hlin := signed_lineage (X := v.event.author)
    (h.lineage.imp_right fun ⟨c, b, hc, _, _, hlin⟩ => ⟨c, by rw [hc], hlin⟩)
  refine ⟨fun id e he => (h.edges he).1, fun id e he hne => ?_, fun k b hb => ?_, hlin.1, hlin.2,
    fun r hr => (hrows r hr).1, fun r hr => (hrows r hr).2⟩
  · refine (h.edges he).2.2 ?_ hne
    rintro rfl
    rw [hk.event_eq hcf hv he] at hne
    exact hne rfl
  · cases h with
    | present e he t₁ ht₁ hfin hproj hquota => rw [hfin.store, ht₁, hb]
    | new hnew t₁ isD dp rev hins hfin next hproj hquota =>
      rw [hfin.store]
      exact hins.store_kept hb

/-- **A payload signed by `X`** writes rows of events of `X`, and lineage under his name. -/
theorem PayloadEffect.signed {c : VerifiedEventContent} {now : Timestamp}
    (h : PayloadEffect env {} db c now db') (hc : c.event ∈ D)
    (hst : db.ev.events.get c.event.id = some c.event.event) (ha : c.event.event.author = X) :
    Signed D X db db' := by
  subst ha
  have hrows := (h.rows hc hst).signed
  have hlin := signed_lineage (X := c.event.event.author)
    (h.lineage.imp_right fun hlin => ⟨c, rfl, hlin⟩)
  refine ⟨fun id e he => by rw [h.events]; exact he, fun id e he hne => (h.edges id).2 ?_,
    fun k b hb => ?_, hlin.1, hlin.2, fun r hr => (hrows r hr).1, fun r hr => (hrows r hr).2⟩
  · rintro rfl
    rw [hst] at he
    cases he
    exact hne rfl
  · cases h with
    | idle h => exact hb
    | processed b' hb' hm hlen p hp u =>
      dsimp only
      split
      · next hnone =>
        refine (Table.get_insert_of_ne _ _ ?_).trans hb
        rintro rfl
        rw [hb] at hnone
        cases hnone
      · exact hb
    | rejected b' hb' hm hlen hp rc u => exact hb
    | deleted b' hb' hd hlen => exact hb

theorem Booked.signed (h : Booked db db') : Signed D X db db' := by
  obtain ⟨a, r, rfl⟩ := h
  exact ⟨fun _ _ h => h, fun _ _ _ _ => rfl, fun _ _ h => h, Finset.Subset.refl _,
    fun _ h _ => h, fun _ _ => Iff.rfl, fun _ _ => Iff.rfl⟩

/-- **A transaction signed by `X`**, delivery by delivery. -/
theorem ingest_signed (hcf : CollisionFree D) (hI : OnGround D Balanced db.ev) {ds : List Delivery}
    (hds : ∀ d ∈ ds, d.event ∈ D ∧ d.event.event.author = X)
    (hok : step env db (.ingest ds) = .ok db') : Signed D X db db' :=
  ingest_relation (R := Signed D X) (J := fun _ => True) (balanced_keeps D) hcf (fun _ _ _ => Signed.trans)
    (fun _ _ _ hv ha hI _ h => ⟨trivial, h.signed hI.1.keyed hcf hv ha⟩)
    (fun _ _ _ _ hc ha _ hst _ h => ⟨trivial, h.signed hc hst ha⟩)
    (fun _ _ _ h => ⟨trivial, h.signed⟩) hds hI trivial (.refl db) hok

/-- The versions of everybody else's posts stay. -/
theorem Signed.versions (h : Signed D X db db') {a : RostraId} (ha : a ≠ X)
    {id : ShortEventId} {vs : List ShortEventId}
    (hvs : socialPostVersionsTx db.proj a id = some vs) :
    socialPostVersionsTx db'.proj a id = some vs := by
  refine versionsLoop_mono (fun id' => ?_)
    (Nat.add_le_add_right (Finset.card_le_card h.replaces) 1) hvs
  have hsame : db'.proj.socialPostsReplaces.filter (fun r => r.1 = a ∧ r.2.1 = id') =
      db.proj.socialPostsReplaces.filter fun r => r.1 = a ∧ r.2.1 = id' := by
    ext r
    simp only [Finset.mem_filter]
    refine and_congr_left fun hr => ⟨fun hmem => h.lineage r hmem ?_, fun hmem => h.replaces hmem⟩
    rw [hr.1]
    exact ha
  rw [firstLineageRow, hsame, firstLineageRow]

end Signatures

/-! ## 5. What is reported for somebody else's post

A listing reads the versions, the reply rows, the counters and the posts; if somebody who does not reply signs
something, it reads the same. -/

/-- Nothing that `X` signs is a reply or a reaction. -/
def Silent (D : Set VerifiedEvent) (X : RostraId) : Prop :=
  ∀ c : VerifiedEventContent, c.event ∈ D → c.event.event.author = X →
    ∀ post, c.socialPost? = some post → post.replyTo = none

/-- The rows and counters of replies are the same. -/
structure SameReplies (p p' : Projections) : Prop where
  replies : p'.socialPostsReplies = p.socialPostsReplies
  reactions : p'.socialPostsReactions = p.socialPostsReactions
  replyCount : (socialPart p').replyCount = (socialPart p).replyCount

section Silence

variable {D : Set VerifiedEvent} {X : RostraId} {env : Env} {db db' : Database}

omit [Primitives] in
theorem sameReplies_of_unlined {p p' : Projections}
    (h : (socialPart p').unlined = (socialPart p).unlined) : SameReplies p p' :=
  ⟨(congrArg SocialPart.replies h :), (congrArg SocialPart.reactions h :),
    (congrArg SocialPart.replyCount h :)⟩

omit [Primitives] in
theorem SameReplies.trans {p p' p'' : Projections} (h : SameReplies p p') (h' : SameReplies p' p'') :
    SameReplies p p'' :=
  ⟨h'.replies.trans h.replies, h'.reactions.trans h.reactions, h'.replyCount.trans h.replyCount⟩

/-- Processed content is verified content. -/
theorem processedContent_verified (hs : StoreSound D db.ev) {id : ShortEventId} {c : EventContent}
    (h : processedContent db.ev id = some c) : ∃ c' : VerifiedEventContent, c'.toEventContent = c := by
  obtain ⟨e, b, he, hcls, hpos, hb, rfl⟩ := processedContent_eq_some.mp h
  obtain ⟨b', hb', hlen, hhash⟩ := hs.readable id e he hcls hpos
  rw [hb] at hb'
  cases hb'
  exact ⟨⟨⟨.ofEvent e, some b⟩, by simp [contentMatches, hlen, hhash]⟩, rfl⟩

/-- A post that is no reply moves no rows of replies. -/
theorem PostEffect.silent (h : PostEffect env (fun w => w ∈ D ∧ w.event.author = X) db db')
    (hs : StoreSound D db.ev) (hX : Silent D X) : SameReplies db.proj db'.proj := by
  have hrow : ∀ c : VerifiedEventContent, c.event ∈ D ∧ c.event.event.author = X → ∀ post,
      projectedPost c.toEventContent = some post → ∀ present,
        indexRow present c.event.id (c.event.event, post) = none := fun c hA post hpost present =>
    indexRow_of_no_replyTo present _ (hX c hA.1 hA.2 post (socialPost?_of_projected hpost))
  cases h with
  | kept hc hp => exact sameReplies_of_unlined hp
  | applied c now hA hnone hc hlen hp =>
    have hsocial := ((processEventContentInsertedTx_social env {} _ _ now hlen).of_ok hp).2
    cases hpost : projectedPost c.toEventContent with
    | none =>
      rw [hpost] at hsocial
      exact sameReplies_of_unlined (by rw [hsocial])
    | some post =>
      rw [hpost] at hsocial
      refine ⟨hsocial.replies.trans ?_, hsocial.reactions.trans ?_, funext fun t => ?_⟩
      · simp [hrow c hA post hpost, socialPart]
      · simp [hrow c hA post hpost, socialPart]
      · rw [hsocial.replyCount, hrow c hA post hpost]
        simp [Index.weight]
  | takenBack id p hp hc hback =>
    have hsame := sameReplies_of_unlined hp
    cases hcontent : processedContent db.ev id with
    | none =>
      rw [hcontent] at hback
      rw [show db'.proj = p from hback]
      exact hsame
    | some c =>
      rw [hcontent] at hback
      obtain ⟨-, hA, hback⟩ := hback
      obtain ⟨c', rfl⟩ := processedContent_verified hs hcontent
      refine hsame.trans ?_
      unfold TakenBack at hback
      split at hback
      · next post hpost =>
        refine ⟨hback.replies.trans ?_, hback.reactions.trans ?_, funext fun t => ?_⟩
        · simp [hrow c' hA post hpost, socialPart]
        · simp [hrow c' hA post hpost, socialPart]
        · have hcount := hback.replyCount t
          rw [hrow c' hA post hpost] at hcount
          simpa [Index.weight] using hcount
      · rw [hback]
        exact ⟨rfl, rfl, rfl⟩

/-- **A transaction signed by somebody who does not reply** moves no replies: none of his posts has a row among
them. -/
theorem ingest_silent (hcf : CollisionFree D) (hinj : Function.Injective blake3)
    (hdec : EmptyUnreadable) (hlen : SameLengths D) (hX : Silent D X)
    (hI : OnGround D (StoreContext D) db.ev) (ho : StoreOwned D db.ev) {ds : List Delivery}
    (hds : ∀ d ∈ ds, d.event ∈ D ∧ d.event.event.author = X)
    (hok : step env db (.ingest ds) = .ok db') : SameReplies db.proj db'.proj := by
  refine ingest_relation (R := fun db db' => SameReplies db.proj db'.proj)
    (J := fun db => StoreOwned D db.ev) (A := fun v => v.event.author = X) (storeContext_keeps hinj hlen.unambiguous) hcf
    (fun _ _ _ => SameReplies.trans) (fun db db' v hv ha hI ho h => ?_)
    (fun db db' c now hc ha hI hst ho h => ?_) (fun db db' ho h => ?_) hds hI ho ⟨rfl, rfl, rfl⟩ hok
  · have heff : DbEffect env D db db' := .envelope hv h
    refine ⟨heff.storeOwned ho, ?_⟩
    subst ha
    have hposts : PostEffect env _ db db' := h.posts hI ho hcf hv hlen.unambiguous hdec
    exact hposts.silent hI.2.1.2 hX
  · refine ⟨DbEffect.storeOwned (.payload hc hst h) ho, ?_⟩
    subst ha
    exact (h.posts hI hc hst hinj hlen.unambiguous).silent hI.2.1.2 hX
  · obtain ⟨a, r, rfl⟩ := h
    exact ⟨ho, rfl, rfl, rfl⟩

theorem replyCount_transfer (hsig : Signed D X db db') (hsame : SameReplies db.proj db'.proj)
    {a : RostraId} (ha : a ≠ X) {id : ShortEventId} {n : ℕ}
    (h : socialPostReplyCountTx db.proj a id = some n) :
    socialPostReplyCountTx db'.proj a id = some n := by
  obtain ⟨vs, hvs, rfl⟩ := Option.map_eq_some_iff.mp h
  have hcount : (fun v => ((db'.proj.socialPosts.get v).getD {}).replyCount) =
      fun v => ((db.proj.socialPosts.get v).getD {}).replyCount := hsame.replyCount
  rw [socialPostReplyCountTx, hsig.versions ha hvs, Option.map_some]
  exact congrArg some (congrArg (fun f : ShortEventId → ℕ =>
    vs.foldl (fun n v => min u64Max (n + f v)) 0) hcount)

/-- The record of a listed reply is loaded as before: the reply is not `X`'s, its state and its
bytes are where they were. -/
theorem record_transfer (hcf : CollisionFree D) (hdec : EmptyUnreadable) (hX : Silent D X)
    (hI : OnGround D (StoreContext D) db.ev) (hsig : Signed D X db db')
    (hsame : SameReplies db.proj db'.proj) {present : SocialPost → Bool} {rows : Finset IndexRow}
    {count : ShortEventId → ℕ} (hr : RowsTraced D db.ev present rows count) {target : ShortEventId}
    {ts : Timestamp} {reply : ShortEventId} (hrow : (target, ts, reply) ∈ rows)
    {r : Option SocialPostView} (h : socialPostRecordByIdTx db reply ts = some r) :
    socialPostRecordByIdTx db' reply ts = some r := by
  obtain ⟨⟨e, he⟩, -, c, hc, rfl, post, addressee, hpost, hto, -, -⟩ := hr.row _ _ _ hrow
  obtain rfl : e = c.event.event := hI.1.keyed.event_eq hcf hc he
  have ha : c.event.event.author ≠ X := by
    intro ha
    rw [hX c hc ha post hpost] at hto
    cases hto
  have hpos : 0 < c.event.event.contentLen := by
    obtain ⟨b, hb, hread⟩ := Option.bind_eq_some_iff.mp hpost
    by_contra hzero
    have hnil : b = [] := List.eq_nil_of_length_eq_zero (by rw [(c.length_and_hash hb).1]; omega)
    rw [hnil, hdec] at hread
    cases hread
  unfold socialPostRecordByIdTx at h ⊢
  rw [hsig.stored _ _ he]
  rw [he] at h
  dsimp only at h ⊢
  rw [hsig.states _ _ he ha]
  by_cases hst : (db.ev.eventsContentState.get c.event.id).isSome = true
  · rw [if_pos hst] at h ⊢
    exact h
  · rw [if_neg hst] at h ⊢
    have hcls : contentClass db.ev c.event.id = .current :=
      classOf_eq_current.mpr (by simpa using hst)
    obtain ⟨b, hb, -⟩ := hI.2.1.2.readable _ _ he hcls hpos
    rw [hsig.store _ _ hb]
    rw [hb] at h
    cases hd : (some b).bind Primitives.cborSocialPost with
    | none =>
      rw [hd] at h
      exact h
    | some post' =>
      rw [hd] at h
      obtain ⟨n, hn, hr⟩ := Option.map_eq_some_iff.mp h
      rw [replyCount_transfer hsig hsame ha hn]
      exact congrArg some hr

theorem listing_transfer (hcf : CollisionFree D) (hdec : EmptyUnreadable) (hX : Silent D X)
    (hI : OnGround D (StoreContext D) db.ev) (hsig : Signed D X db db')
    (hsame : SameReplies db.proj db'.proj) {present : SocialPost → Bool} {rows : Finset IndexRow}
    {count : ShortEventId → ℕ} (hr : RowsTraced D db.ev present rows count) {id : ShortEventId}
    {e : Event} (he : db.ev.events.get id = some e) (ha : e.author ≠ X) {cursor : Option IndexKey}
    {limit : ℕ} {out : List SocialPostView × Option IndexKey}
    (h : paginateVersionsRev db rows id cursor limit = some out) :
    paginateVersionsRev db' rows id cursor limit = some out := by
  refine paginateVersionsRev_transfer (fun vs hvs => ?_)
    (fun _ _ _ hrow _ h => record_transfer hcf hdec hX hI hsig hsame hr hrow h) h
  unfold listedVersions at hvs ⊢
  rw [hsig.stored _ _ he]
  rw [he] at hvs
  exact hsig.versions ha hvs

end Silence

/-- **Where edits name their own author's events**, every stored version of a post is its author's,
and everything listed or counted for the post is addressed to one of them; the walk ends when
replaced events have lower rank.  Nothing that `X` signs moves the versions of another author's
posts or the rows of another author's replies; and if `X` signs no reply, not a single report about
another author's post. -/
theorem versions_own (env : Env) {D : Set VerifiedEvent} (hcf : CollisionFree D)
    (hown : OwnEdits D) (ops : List Op) (hD : DeliveredFrom D ops) :
    let db := reached env ops
    (∀ id e, db.ev.events.get id = some e →
      (∀ vs, socialPostVersionsTx db.proj e.author id = some vs →
        ∀ v ∈ vs, ∀ e', db.ev.events.get v = some e' → e'.author = e.author) ∧
      (∀ n, socialPostReplyCountTx db.proj e.author id = some n →
        ∃ vs, socialPostVersionsTx db.proj e.author id = some vs ∧
          n ≤ (vs.map fun v => (db.proj.socialPostsReplies.filter fun r => r.1 = v).card).sum ∧
          ∀ v ∈ vs, ∀ ts reply, (v, ts, reply) ∈ db.proj.socialPostsReplies →
            AddressedToOwn D db hasText e.author reply) ∧
      (∀ cursor limit page next,
        paginateSocialPostCommentsRev db id cursor limit = some (page, next) →
          ∀ r ∈ page, AddressedToOwn D db hasText e.author r.eventId) ∧
      ∀ cursor limit page next,
        paginateSocialPostReactionsRev db id cursor limit = some (page, next) →
          ∀ r ∈ page, AddressedToOwn D db hasReaction e.author r.eventId) ∧
      (∀ rank : ShortEventId → ℕ, (∀ c : VerifiedEventContent, c.event ∈ D → ∀ old,
          lineageOf c.toEventContent = some old → rank old < rank c.event.id) →
        ∀ a id, (socialPostVersionsTx db.proj a id).isSome) ∧
      ∀ X ds db', (∀ d ∈ ds, d.event ∈ D ∧ d.event.event.author = X) →
        step env db (.ingest ds) = .ok db' →
          (∀ Y id vs, Y ≠ X → socialPostVersionsTx db.proj Y id = some vs →
            socialPostVersionsTx db'.proj Y id = some vs) ∧
          (∀ r : IndexRow, (∀ w ∈ D, w.event.author = X → w.id ≠ r.2.2) →
            (r ∈ db'.proj.socialPostsReplies ↔ r ∈ db.proj.socialPostsReplies) ∧
            (r ∈ db'.proj.socialPostsReactions ↔ r ∈ db.proj.socialPostsReactions)) ∧
          (Function.Injective blake3 → EmptyUnreadable → SameLengths D → Silent D X →
            ∀ id e, db.ev.events.get id = some e → e.author ≠ X →
              (∀ n, socialPostReplyCountTx db.proj e.author id = some n →
                socialPostReplyCountTx db'.proj e.author id = some n) ∧
              (∀ cursor limit out, paginateSocialPostCommentsRev db id cursor limit = some out →
                paginateSocialPostCommentsRev db' id cursor limit = some out) ∧
              ∀ cursor limit out, paginateSocialPostReactionsRev db id cursor limit = some out →
                paginateSocialPostReactionsRev db' id cursor limit = some out) := by
  obtain ⟨hk, hedits, hrows⟩ := reached_rowsTraced env hcf ops hD
  intro db
  refine ⟨fun id e he => ⟨fun vs hvs v hv e' he' => ?_, fun n hn => ?_, ?_, ?_⟩,
    fun rank hrank a id => ?_, fun X ds db' hds hok => ?_⟩
  · exact versions_author hk hedits hown he hvs hv he'
  · obtain ⟨vs, hvs, hle⟩ := socialPostReplyCountTx_le hrows.replies hn
    exact ⟨vs, hvs, hle, fun v hv ts reply hrow =>
      versions_addressed hk hedits hown hrows.replies he hvs hv hrow⟩
  · intro cursor limit page next hpage r hr
    obtain ⟨vs, hvs, hmem⟩ := paginateVersionsRev_row he hpage
    obtain ⟨v, hv, ts, hrow⟩ := hmem r hr
    exact versions_addressed hk hedits hown hrows.replies he hvs hv hrow
  · intro cursor limit page next hpage r hr
    obtain ⟨vs, hvs, hmem⟩ := paginateVersionsRev_row he hpage
    obtain ⟨v, hv, ts, hrow⟩ := hmem r hr
    exact versions_addressed hk hedits hown hrows.reactions he hvs hv hrow
  · refine versionsLoop_isSome rank (fun u v hrow => ?_) _ _
      (Nat.lt_succ_of_le (Finset.card_filter_le _ _))
    obtain ⟨c, hc, -, rfl, hold⟩ := hedits _ _ _ hrow
    exact hrank c hc v hold
  · have hsig := ingest_signed hcf
      (reached_keeps env (balanced_keeps D) hcf balanced_empty ops hD) hds hok
    refine ⟨fun Y id vs hY hvs => hsig.versions hY hvs,
      fun r hr => ⟨hsig.replies r hr, hsig.reactions r hr⟩, fun hinj hdec hlen hX id e he ha => ?_⟩
    obtain ⟨hI, hj⟩ := reached_projected env hcf hinj hdec hlen.unambiguous ops hD
    have hsame := ingest_silent hcf hinj hdec hlen hX hI hj.owned hds hok
    refine ⟨fun n hn => replyCount_transfer hsig hsame ha hn, fun cursor limit out h => ?_,
      fun cursor limit out h => ?_⟩
    · rw [paginateSocialPostCommentsRev, hsame.replies]
      exact listing_transfer hcf hdec hX hI hsig hsame hrows.replies he ha h
    · rw [paginateSocialPostReactionsRev, hsame.reactions]
      exact listing_transfer hcf hdec hX hI hsig hsame hrows.reactions he ha h

end Owners

section Sample

attribute [local instance] Primitives.reference

/-- A reply to the sample post. -/
def sampleReply : Event :=
  { kind := EventKind.SOCIAL_POST, contentLen := 3, timestamp := 2, author := toLex (2, 2)
    contentHash := blake3 [1, 1, 66] }

def sampleReplyPayload : VerifiedEventContent := ⟨⟨.ofEvent sampleReply, some [1, 1, 66]⟩, by decide⟩

/-- A third author "edits" the sample post. -/
def sampleForeignEdit : Event :=
  { kind := EventKind.SOCIAL_POST, flags := 1, contentLen := 2, timestamp := 3
    author := toLex (3, 3), parentAux := some 1, contentHash := blake3 [0, 67] }

def sampleForeignPayload : VerifiedEventContent :=
  ⟨⟨.ofEvent sampleForeignEdit, some [0, 67]⟩, by decide⟩

def sampleForeignRun : List Op :=
  [.ingest [.payload samplePayload 5 {}, .payload sampleReplyPayload 5 {},
    .payload sampleForeignPayload 5 {}]]

/-- **An edit of somebody else's post takes its replies along.** The lineage row is keyed by the author of the
edit, whoever wrote what it replaces. -/
theorem foreignEdit_adopts :
    let db := reached sampleEnv sampleForeignRun
    db.ev.events.get 3 = some sampleForeignEdit ∧ db.ev.events.get 1 = some samplePost ∧
      samplePost.author ≠ sampleForeignEdit.author ∧
      socialPostVersionsTx db.proj sampleForeignEdit.author 3 = some [3, 1] ∧
      socialPostReplyCountTx db.proj sampleForeignEdit.author 3 = some 1 ∧
      (paginateSocialPostCommentsRev db 3 none 10).map (fun out => out.1.map (·.eventId)) =
        some [2] := by
  refine ⟨by decide +kernel, by decide +kernel, by decide, by decide +kernel, by decide +kernel,
    by decide +kernel⟩

/-- The sample edits are the author's own. -/
theorem sampleEdits_ownEdits : OwnEdits (envelopesOf (sampleEdits.map Op.ingest)) := by
  have hone : ∀ v ∈ (sampleEdits.map Op.ingest).flatMap Op.delivered,
      v.event.author = toLex (1, 1) := by decide
  intro c hc old _ w hw _
  rw [hone w hw, hone c.event hc]

/-- An edit of the own post: both versions are its author's. -/
theorem versions_own_sampleEdits :
    let db := reached sampleEnv (sampleEdits.map Op.ingest)
    db.ev.events.get 4 = some sampleEdit ∧
      socialPostVersionsTx db.proj sampleEdit.author 4 = some [4, 1] ∧
      ∀ vs, socialPostVersionsTx db.proj sampleEdit.author 4 = some vs →
        ∀ v ∈ vs, ∀ e', db.ev.events.get v = some e' → e'.author = sampleEdit.author := by
  have hget : (reached sampleEnv (sampleEdits.map Op.ingest)).ev.events.get 4 = some sampleEdit := by
    decide +kernel
  exact ⟨hget, by decide +kernel, ((versions_own sampleEnv (collisionFree_envelopesOf (by decide))
    sampleEdits_ownEdits _ (deliveredFrom_envelopesOf _)).1 4 sampleEdit hget).1⟩

end Sample

end Rostra.Db
