/-
# The replacement lineage

An edit leaves one row in each direction, and three paths write them: ordinary processing, the
payload of an event that is already deleted, and a header that arrives deleted and finds its bytes
under another event's reference.  No path removes a row.

So the rows can be read off the deliveries (`Traced`): every delivered edit has its pair, and every
pair comes from an ingested header whose bytes somebody delivered.  The two descriptions meet when
each payload has been offered to every ingested header it belongs to (`Offered`).

The rows have no history of their own. It does not matter through which path a pair was written, in which state the
event was at the time, or whether the post was ever shown; a pair is there if and only if an ingested header and a
delivered payload together say so.
-/
import Rostra.Proofs.Lifecycle
import Rostra.Proofs.Redelivery
import Rostra.Proofs.Social

namespace Rostra.Db

open Rostra Outcome

section Lineage

variable [Primitives]

/-! ## 1. Rows and payloads

One payload stands for one pair of rows, whichever path writes them. -/

theorem mem_withLineage_replacedBy {p : Projections} {c : EventContent}
    {r : RostraId × ShortEventId × ShortEventId} :
    r ∈ (withLineage p c).socialPostsReplacedBy ↔ r ∈ p.socialPostsReplacedBy ∨
      ∃ old, lineageOf c = some old ∧ r = (c.event.event.author, old, c.event.id) := by
  unfold withLineage
  cases lineageOf c with
  | none => simp
  | some old =>
    simp [insertSocialPostReplacementTx, or_comm]

theorem mem_withLineage_replaces {p : Projections} {c : EventContent}
    {r : RostraId × ShortEventId × ShortEventId} :
    r ∈ (withLineage p c).socialPostsReplaces ↔ r ∈ p.socialPostsReplaces ∨
      ∃ old, lineageOf c = some old ∧ r = (c.event.event.author, c.event.id, old) := by
  unfold withLineage
  cases lineageOf c with
  | none => simp
  | some old =>
    simp [insertSocialPostReplacementTx, or_comm]

/-- The lineage tables after an envelope: those before, with the rows of a header that arrived
deleted next to its own bytes. -/
theorem EnvelopeEffect.lineage {db db' : Database} {v : VerifiedEvent}
    (h : EnvelopeEffect db v db') :
    (socialPart db'.proj).lineage = (socialPart db.proj).lineage ∨
      ∃ (c : VerifiedEventContent) (b : Bytes), c.event = v ∧ c.content = some b ∧
        db.ev.contentStore.get v.event.contentHash = some b ∧
        (socialPart db'.proj).lineage = (socialPart (withLineage db.proj c.toEventContent)).lineage := by
  cases h with
  | present e he t₁ ht₁ hfin hproj hquota =>
    rw [hproj]
    exact .inl rfl
  | new hnew t₁ isD dp rev hins hfin next hproj hquota =>
    have hback := arrivedProjections_takenBack hproj
    have hlin : (socialPart db'.proj).lineage = (socialPart (lineageArrived t₁
        { db.proj with receptionOrderNext := next } v isD)).lineage := by
      split at hback
      · exact hback.lineage
      · rw [hback]
    cases isD with
    | false => exact .inl hlin
    | true =>
      simp only [lineageArrived, if_true] at hlin
      cases hc : storedContent t₁ v with
      | none =>
        rw [hc] at hlin
        exact .inl hlin
      | some c =>
        rw [hc] at hlin
        obtain ⟨b, hb, hver⟩ := Option.bind_eq_some_iff.mp hc
        obtain ⟨hce, hcb⟩ := VerifiedEventContent.verify_eq_some hver
        rw [hins.store, if_neg (by simp)] at hb
        refine .inr ⟨c, b, hce, hcb, hb, hlin.trans ?_⟩
        simp only [Option.elim_some]
        unfold withLineage
        cases lineageOf c.toEventContent with
        | none => rfl
        | some old => rfl

/-- The lineage tables after a payload. -/
theorem PayloadEffect.lineage {env : Env} {ctx : TxCtx} {db db' : Database}
    {c : VerifiedEventContent} {now : Timestamp} (h : PayloadEffect env ctx db c now db') :
    (socialPart db'.proj).lineage = (socialPart db.proj).lineage ∨
      (socialPart db'.proj).lineage = (socialPart (withLineage db.proj c.toEventContent)).lineage := by
  cases h with
  | idle _ => exact .inl rfl
  | processed b hb hm hlen p hp u =>
    exact .inr ((processEventContentInsertedTx_social env ctx _ _ now hlen).of_ok hp).1
  | rejected b hb hm hlen hp rc u => exact .inl rfl
  | deleted b hb hd hlen => exact .inr rfl

/-- A readable edit: a post whose header deletes its auxiliary parent and whose text is not blank. -/
structure IsEdit (c : EventContent) (old : ShortEventId) : Prop where
  kind : c.event.event.kind = EventKind.SOCIAL_POST
  length : c.event.event.contentLen < MAX_CONTENT_LEN
  deletes : c.event.event.isDeleteParentAuxContentSet = true
  parent : c.event.event.parentAux = some old
  text : ∃ post text, c.socialPost? = some post ∧ post.djotContent = some text ∧
    Text.isBlank text = false

theorem lineageOf_eq_some {c : EventContent} {old : ShortEventId} :
    lineageOf c = some old ↔ IsEdit c old := by
  unfold lineageOf
  constructor
  · intro h
    split at h
    · next hk =>
      obtain ⟨post, hp, hr⟩ := Option.bind_eq_some_iff.mp h
      unfold socialPostReplacedEventId at hr
      split at hr
      · next hd =>
        obtain ⟨hpar, htext⟩ := Option.filter_eq_some_iff.mp hr
        cases htx : post.djotContent with
        | none => simp [htx] at htext
        | some text => exact ⟨hk.1, hk.2, hd, hpar, post, text, hp, htx, by simpa [htx] using htext⟩
      · cases hr
    · cases h
  · rintro ⟨hk, hlen, hd, hpar, post, text, hp, htx, hblank⟩
    rw [if_pos ⟨hk, hlen⟩, hp, Option.bind_some, socialPostReplacedEventId, if_pos hd, hpar]
    simp [htx, hblank]

/-- A post is readable when it decodes. -/
theorem readsAs_post {c : EventContent} (hk : c.event.event.kind = EventKind.SOCIAL_POST) :
    readsAs c = c.socialPost?.isSome := by
  simp [readsAs, hk, EventKind.SOCIAL_POST, EventKind.DM_DEVICE, EventKind.DIRECT_MESSAGE,
    EventKind.FOLLOW, EventKind.UNFOLLOW, EventKind.NODE_ANNOUNCEMENT,
    EventKind.SOCIAL_PROFILE_UPDATE]

/-- The empty string is no post. -/
def EmptyUnreadable : Prop := Primitives.cborSocialPost [] = none

theorem lineageOf_empty (hdec : EmptyUnreadable) {c : EventContent} (hc : c.content = some []) :
    lineageOf c = none := by
  cases h : lineageOf c with
  | none => rfl
  | some old =>
    obtain ⟨post, text, hp, -⟩ := (lineageOf_eq_some.mp h).text
    rw [EventContent.socialPost?, hc, Option.bind_some, hdec] at hp
    cases hp

/-! ## 2. Rows against deliveries

Bytes belong to a hash, and two headers may name one hash. So a payload that was delivered for one event can give
another one its lineage, when that one arrives; this is why the bytes are described along with the rows. -/

/-- The lineage tables and the store after envelopes `S` and payloads `P`. -/
structure Traced (S : Set VerifiedEvent) (P : Set VerifiedEventContent) (db : Database) : Prop where
  sound : ∀ a old id, (a, old, id) ∈ db.proj.socialPostsReplacedBy →
    ∃ c : VerifiedEventContent, c.event ∈ S ∧ (∃ c' ∈ P, c'.content = c.content) ∧
      lineageOf c.toEventContent = some old ∧ c.event.event.author = a ∧ c.event.id = id
  complete : ∀ c ∈ P, ∀ old, lineageOf c.toEventContent = some old →
    (c.event.event.author, old, c.event.id) ∈ db.proj.socialPostsReplacedBy
  inverse : ∀ a old id, (a, id, old) ∈ db.proj.socialPostsReplaces ↔
    (a, old, id) ∈ db.proj.socialPostsReplacedBy
  store : ∀ h b, db.ev.contentStore.get h = some b → b = [] ∨ ∃ c ∈ P, c.content = some b

theorem traced_empty : Traced ∅ ∅ {} := by
  refine ⟨fun a old id h => ?_, fun c hc => hc.elim, fun a old id => ?_, fun h b hb => ?_⟩
  · simp at h
  · simp
  · simp at hb

/-- Lineage tables that kept their rows and may have gained those of one payload. -/
structure Extended (p p' : Projections) (c : VerifiedEventContent) : Prop where
  replacedBy : ∀ r, r ∈ p'.socialPostsReplacedBy ↔ r ∈ p.socialPostsReplacedBy ∨
    ∃ old, lineageOf c.toEventContent = some old ∧ r = (c.event.event.author, old, c.event.id)
  replaces : ∀ r, r ∈ p'.socialPostsReplaces ↔ r ∈ p.socialPostsReplaces ∨
    ∃ old, lineageOf c.toEventContent = some old ∧ r = (c.event.event.author, c.event.id, old)

theorem extended_of_lineage {p p' : Projections} {c : VerifiedEventContent}
    (h : (socialPart p').lineage = (socialPart (withLineage p c.toEventContent)).lineage) :
    Extended p p' c := by
  have h₁ : p'.socialPostsReplacedBy = (withLineage p c.toEventContent).socialPostsReplacedBy :=
    congrArg Prod.fst h
  have h₂ : p'.socialPostsReplaces = (withLineage p c.toEventContent).socialPostsReplaces :=
    congrArg Prod.snd h
  refine ⟨fun r => ?_, fun r => ?_⟩
  · rw [h₁]
    exact mem_withLineage_replacedBy
  · rw [h₂]
    exact mem_withLineage_replaces

/-- The same rows, when the payload is no edit or its rows are there. -/
theorem extended_of_same {p p' : Projections} {c : VerifiedEventContent}
    (h : (socialPart p').lineage = (socialPart p).lineage)
    (hrows : ∀ old, lineageOf c.toEventContent = some old →
      (c.event.event.author, old, c.event.id) ∈ p.socialPostsReplacedBy ∧
        (c.event.event.author, c.event.id, old) ∈ p.socialPostsReplaces) : Extended p p' c := by
  have h₁ : p'.socialPostsReplacedBy = p.socialPostsReplacedBy := congrArg Prod.fst h
  have h₂ : p'.socialPostsReplaces = p.socialPostsReplaces := congrArg Prod.snd h
  refine ⟨fun r => ?_, fun r => ?_⟩
  · rw [h₁]
    refine ⟨.inl, ?_⟩
    rintro (hr | ⟨old, hold, rfl⟩)
    · exact hr
    · exact (hrows old hold).1
  · rw [h₂]
    refine ⟨.inl, ?_⟩
    rintro (hr | ⟨old, hold, rfl⟩)
    · exact hr
    · exact (hrows old hold).2

/-- **The rows of one payload more.** -/
theorem Traced.extend {S S' : Set VerifiedEvent} {P P' : Set VerifiedEventContent}
    {db db' : Database} (h : Traced S P db) (hS : S ⊆ S') (hP : P ⊆ P') {c : VerifiedEventContent}
    (hx : Extended db.proj db'.proj c) (hcS : c.event ∈ S')
    (hcP : ∀ old, lineageOf c.toEventContent = some old → ∃ c' ∈ P', c'.content = c.content)
    (hnew : ∀ c' ∈ P', c' ∈ P ∨ c' = c)
    (hstore : ∀ k b, db'.ev.contentStore.get k = some b → b = [] ∨ ∃ c ∈ P', c.content = some b) :
    Traced S' P' db' := by
  refine ⟨fun a old id hr => ?_, fun c' hc' old hold => ?_, fun a old id => ?_, hstore⟩
  · rcases (hx.replacedBy _).mp hr with hr | ⟨old', hold', heq⟩
    · obtain ⟨c', hc', ⟨c'', hc'', hbytes⟩, hrest⟩ := h.sound a old id hr
      exact ⟨c', hS hc', ⟨c'', hP hc'', hbytes⟩, hrest⟩
    · cases heq
      exact ⟨c, hcS, hcP _ hold', hold', rfl, rfl⟩
  · rcases hnew c' hc' with hc' | rfl
    · exact (hx.replacedBy _).mpr (.inl (h.complete c' hc' old hold))
    · exact (hx.replacedBy _).mpr (.inr ⟨old, hold, rfl⟩)
  · rw [hx.replacedBy, hx.replaces, h.inverse]
    refine or_congr Iff.rfl (exists_congr fun old' => and_congr Iff.rfl ?_)
    simp only [Prod.mk.injEq]
    tauto

/-- Nothing about lineage or store happened. -/
theorem Traced.congr {S S' : Set VerifiedEvent} {P : Set VerifiedEventContent} {db db' : Database}
    (h : Traced S P db) (hS : S ⊆ S') (hl : (socialPart db'.proj).lineage = (socialPart db.proj).lineage)
    (hstore : ∀ k b, db'.ev.contentStore.get k = some b → b = [] ∨ ∃ c ∈ P, c.content = some b) :
    Traced S' P db' := by
  have h₁ : db'.proj.socialPostsReplacedBy = db.proj.socialPostsReplacedBy := congrArg Prod.fst hl
  have h₂ : db'.proj.socialPostsReplaces = db.proj.socialPostsReplaces := congrArg Prod.snd hl
  refine ⟨fun a old id hr => ?_, fun c hc old hold => ?_, fun a old id => ?_, hstore⟩
  · rw [h₁] at hr
    obtain ⟨c, hc, hrest⟩ := h.sound a old id hr
    exact ⟨c, hS hc, hrest⟩
  · rw [h₁]
    exact h.complete c hc old hold
  · rw [h₁, h₂]
    exact h.inverse a old id

/-- **An envelope**: bytes that somebody delivered may belong to it. -/
theorem EnvelopeEffect.traced {S : Set VerifiedEvent} {P : Set VerifiedEventContent}
    {db db' : Database} {v : VerifiedEvent} (h : EnvelopeEffect db v db') (ht : Traced S P db)
    (hdec : EmptyUnreadable) : Traced (insert v S) P db' := by
  have hstore : ∀ k b, db'.ev.contentStore.get k = some b → b = [] ∨ ∃ c ∈ P, c.content = some b := by
    intro k b hb
    cases h with
    | present e he t₁ ht₁ hfin hproj hquota =>
      rw [hfin.store, ht₁] at hb
      exact ht.store k b hb
    | new hnew t₁ isD dp rev hins hfin next hproj hquota =>
      rw [hfin.store, hins.store] at hb
      split at hb
      · rw [Table.get_insert] at hb
        split at hb
        · exact .inl (Option.some.inj hb).symm
        · exact ht.store k b hb
      · exact ht.store k b hb
  rcases h.lineage with hsame | ⟨c, b, hce, hcb, hb, hlin⟩
  · exact ht.congr (Set.subset_insert _ _) hsame hstore
  · have hbytes : ∀ old, lineageOf c.toEventContent = some old → ∃ c' ∈ P, c'.content = c.content := by
      intro old hold
      rcases ht.store _ _ hb with rfl | ⟨c', hc', hcb'⟩
      · rw [lineageOf_empty hdec hcb] at hold
        cases hold
      · exact ⟨c', hc', hcb'.trans hcb.symm⟩
    have hnew : ∀ c' ∈ P, c' ∈ P ∨ c' = c := fun c' hc' => .inl hc'
    exact ht.extend (Set.subset_insert _ _) (Set.Subset.refl _) (extended_of_lineage hlin)
      (by rw [hce]; exact Set.mem_insert _ _) hbytes hnew hstore

/-- **A payload**: whatever the state of its event, its rows are there afterwards. -/
theorem PayloadEffect.traced {S : Set VerifiedEvent} {P : Set VerifiedEventContent} {env : Env}
    {ctx : TxCtx} {db db' : Database} {c : VerifiedEventContent} {now : Timestamp}
    (h : PayloadEffect env ctx db c now db') (ht : Traced S P db) (hl : Tracks S P db)
    (hcS : c.event ∈ S) (hinj : Function.Injective blake3) (hdec : EmptyUnreadable) :
    Traced S (insert c P) db' := by
  have hx : Extended db.proj db'.proj c := by
    cases h with
    | idle h =>
      refine extended_of_same rfl fun old hold => ?_
      have hedit := lineageOf_eq_some.mp hold
      suffices hrow : (c.event.event.author, old, c.event.id) ∈ db.proj.socialPostsReplacedBy from
        ⟨hrow, (ht.inverse _ _ _).mpr hrow⟩
      -- nothing was awaited, so an earlier payload of the event was read, or there was none to read
      obtain ⟨post, text, hpost, -⟩ := hedit.text
      obtain ⟨b, hb⟩ : ∃ b, c.content = some b := by
        cases hb : c.content with
        | some b => exact ⟨b, rfl⟩
        | none =>
          rw [EventContent.socialPost?, hb] at hpost
          cases hpost
      have hpos : 0 < c.event.event.contentLen := by
        rw [← (c.length_and_hash hb).1]
        refine Nat.pos_of_ne_zero fun hzero => ?_
        rw [List.length_eq_zero_iff.mp hzero] at hb
        rw [lineageOf_empty hdec hb] at hold
        cases hold
      have hread : readsAs c.toEventContent = true := by
        rw [readsAs_post hedit.kind, hpost]
        rfl
      have hsame : ∀ c' ∈ P, c'.event = c.event → c'.toEventContent = c.toEventContent :=
        fun c' _ he => payload_unique hinj he (by rw [he]; exact hpos)
      have hf := hl.fated _ hcS
      rcases h with h | h | ⟨hm, hd⟩
      · exact absurd hedit.length (not_lt.mpr h)
      · rw [hb] at h
        cases h
      · cases hcls : contentClass db.ev c.event.id with
        | missing => exact absurd hcls hm
        | deleted => exact absurd hcls hd
        | pruned =>
          rw [hcls] at hf
          exact absurd hedit.length (not_lt.mpr hf)
        | invalid =>
          rw [hcls] at hf
          obtain ⟨-, -, c', hc', he, hr⟩ := hf
          rw [hsame c' hc' he, hread] at hr
          cases hr
        | current =>
          rw [hcls] at hf
          obtain ⟨-, hzero | ⟨c', hc', he, -⟩⟩ := hf
          · omega
          · have := ht.complete c' hc' old (by rw [hsame c' hc' he]; exact hold)
            rwa [he] at this
    | processed b hb hm hlen p hp u =>
      exact extended_of_lineage ((processEventContentInsertedTx_social env ctx _ _ now hlen).of_ok hp).1
    | rejected b hb hm hlen hp rc u =>
      refine extended_of_same rfl fun old hold => ?_
      have hedit := lineageOf_eq_some.mp hold
      obtain ⟨post, text, hpost, -⟩ := hedit.text
      have hread := (processEventContentInsertedTx_invalid_iff ..).mp hp
      rw [readsAs_post hedit.kind, hpost] at hread
      cases hread
    | deleted b hb hd hlen => exact extended_of_lineage rfl
  have hstore : ∀ k b, db'.ev.contentStore.get k = some b → b = [] ∨
      ∃ c' ∈ insert c P, c'.content = some b := by
    have hold : ∀ k b, db.ev.contentStore.get k = some b → b = [] ∨
        ∃ c' ∈ insert c P, c'.content = some b := by
      intro k b hb
      refine (ht.store k b hb).imp_right fun hfound => ?_
      obtain ⟨c', hc', h⟩ := hfound
      exact ⟨c', Set.mem_insert_of_mem _ hc', h⟩
    intro k b' hb'
    cases h with
    | idle h => exact hold k b' hb'
    | processed b hb hm hlen p hp u =>
      dsimp only at hb'
      split at hb'
      · rw [Table.get_insert] at hb'
        split at hb'
        · cases hb'
          exact .inr ⟨c, Set.mem_insert _ _, hb⟩
        · exact hold k b' hb'
      · exact hold k b' hb'
    | rejected b hb hm hlen hp rc u => exact hold k b' hb'
    | deleted b hb hd hlen => exact hold k b' hb'
  have hnew : ∀ c' ∈ insert c P, c' ∈ P ∨ c' = c := fun c' hc' => hc'.symm
  exact ht.extend (Set.Subset.refl _) (Set.subset_insert _ _) hx hcS
    (fun _ _ => ⟨c, Set.mem_insert _ _, rfl⟩) hnew hstore

/-! ## 3. Whole runs

The two directions of the correspondence, for everything that was committed. -/

/-- **Both descriptions are kept** by every delivery. -/
theorem traced_chronicle (env : Env) {D : Set VerifiedEvent} (hcf : CollisionFree D)
    (hinj : Function.Injective blake3) (hdec : EmptyUnreadable) :
    Chronicle env D LifeContext (fun S P db => Tracks S P db ∧ Traced S P db) where
  empty := ⟨tracks_empty, traced_empty⟩
  envelope S P db v db' hsub hI hI' h ht :=
    ⟨(tracks_chronicle env hcf).envelope S P db v db' hsub hI hI' h ht.1, h.traced ht.2 hdec⟩
  payload S P db c now db' hsub hc hI hst h ht :=
    ⟨(tracks_chronicle env hcf).payload S P db c now db' hsub hc hI hst h ht.1,
      h.traced ht.2 ht.1 hc hinj hdec⟩
  booked S P db db' hb ht := by
    refine ⟨ht.1.booked hb, ?_⟩
    obtain ⟨a, r, rfl⟩ := hb
    exact ⟨ht.2.sound, ht.2.complete, ht.2.inverse, ht.2.store⟩

/-- Every payload was offered to each ingested envelope it belongs to. -/
def Offered (S : Set VerifiedEvent) (P : Set VerifiedEventContent) : Prop :=
  ∀ c ∈ P, ∀ v ∈ S, contentMatches v c.content = true → ∃ c' ∈ P, c'.event = v ∧ c'.content = c.content

/-- **The lineage is the set of committed edits**, whatever the order of the deliveries and the
states of the events when their payloads came; the two tables are each other's inverse; and a
payload for deleted content changes these two tables and nothing else. -/
theorem committed_lineage (env : Env) {D : Set VerifiedEvent} (hcf : CollisionFree D)
    (hself : ∀ v ∈ D, NoSelfParent v) (hinj : Function.Injective blake3) (hdec : EmptyUnreadable)
    (txs : List (List Delivery)) (hD : DeliveredFrom D (txs.map Op.ingest))
    (hoff : Offered (envelopesIn (committedDeliveries env txs))
      (payloadsIn (committedDeliveries env txs))) :
    let P := payloadsIn (committedDeliveries env txs)
    let db := reached env (txs.map Op.ingest)
    (∀ a old id, (a, old, id) ∈ db.proj.socialPostsReplacedBy ↔
        ∃ c ∈ P, IsEdit c.toEventContent old ∧ c.event.event.author = a ∧ c.event.id = id) ∧
      (∀ a old id, (a, id, old) ∈ db.proj.socialPostsReplaces ↔
        (a, old, id) ∈ db.proj.socialPostsReplacedBy) ∧
      ∀ (c : VerifiedEventContent) now ledger db',
        db.ev.events.get c.event.id = some c.event.event →
        contentClass db.ev c.event.id = .deleted →
        step env db (.ingest [.payload c now ledger]) = .ok db' →
          db' = { db with proj := { db.proj with
            socialPostsReplacedBy := db'.proj.socialPostsReplacedBy
            socialPostsReplaces := db'.proj.socialPostsReplaces } } := by
  obtain ⟨-, -, -, ht⟩ := reached_chronicled (lifeContext_keeps hself) hcf
    ⟨canonical_empty, oversizedOut_empty⟩ (traced_chronicle env hcf hinj hdec) txs hD
  obtain ⟨hgr, hs⟩ := reached_keeps env (steady_keeps D) hcf steady_empty _ hD
  intro P db
  refine ⟨fun a old id => ⟨fun hr => ?_, ?_⟩, ht.inverse, fun c now ledger db' hst hd hok => ?_⟩
  · obtain ⟨c, hcS, ⟨c', hc', hbytes⟩, hold, ha, hid⟩ := ht.sound a old id hr
    -- the bytes were delivered for some event, so they were delivered for this one
    obtain ⟨c'', hc'', he, hb⟩ := hoff c' hc' c.event hcS (by rw [hbytes]; exact c.verified)
    have hsame : c''.toEventContent = c.toEventContent := by
      rw [hbytes] at hb
      obtain ⟨⟨v, o⟩, hv⟩ := c
      obtain ⟨⟨v', o'⟩, hv'⟩ := c''
      exact congrArg₂ EventContent.mk he hb
    refine ⟨c'', hc'', ?_, ?_, ?_⟩
    · rw [hsame]
      exact lineageOf_eq_some.mp hold
    · rw [he]
      exact ha
    · rw [he]
      exact hid
  · rintro ⟨c, hc, hedit, rfl, rfl⟩
    exact ht.complete c hc old (lineageOf_eq_some.mpr hedit)
  · rw [step_ingest_single] at hok
    have hknown : Known db.ev (.payload c now ledger) := by
      refine ⟨hst, ?_⟩
      rw [hd]
      decide
    have hagain := (deliver_again hgr hs (reached_guarded env _) hknown).of_ok hok
    have hu : Unquoted { db with proj := resupply db.ev db.proj (.payload c now ledger) } :=
      ⟨(reached_unquoted env txs).hashes, (reached_unquoted env txs).index⟩
    rw [hagain.eq_of_unquoted hu]
    exact congrArg (fun p => ({ db with proj := p } : Database)) (resupply_frame _ _ _)

end Lineage

section Sample

attribute [local instance] Primitives.reference

/-- The sample post edited, and the edit deleted in its turn. -/
def sampleEdit : Event :=
  { kind := EventKind.SOCIAL_POST, flags := 1, contentLen := 2, timestamp := 4
    author := toLex (1, 1), parentAux := some 1, contentHash := blake3 [0, 67] }

def sampleEditPayload : VerifiedEventContent := ⟨⟨.ofEvent sampleEdit, some [0, 67]⟩, by decide⟩

def sampleEditDeletion : Event :=
  { kind := EventKind.SOCIAL_POST, flags := 1, contentLen := 0, timestamp := 5
    author := toLex (1, 1), parentAux := some 4, contentHash := blake3 [] }

/-- The deletion of the edit comes first, so that the edit is deleted when its payload comes. -/
def sampleEdits : List (List Delivery) :=
  [[.envelope (.ofEvent sampleEditDeletion) 5 .local],
    [.payload sampleEditPayload 6 {}, .payload samplePayload 7 {}]]

end Sample

end Rostra.Db
