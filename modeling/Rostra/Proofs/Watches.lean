/-
# The published watches are the committed tables

The four values a handle publishes are patched from two places of the code, with values read in the
middle of a transaction.  They are never stale: after any run of transactions, committed and rolled
back, each equals what reading the committed tables again would give (`watches_current`).

* The watches read three tables, so a step that leaves these alone needs no hook (`SameShown`).
* A follow writes one pair of accounts (`followHooks_publish`).  Whom the account follows depends on
  its own pairs, who follows it on the pairs that name it, and the web of trust on the pairs of its
  followees: these are the three tests of the code.  A reducer that reports no change made none.
* An envelope writes heads of its own author only (`insertEventTx_heads`).
* Hooks of one transaction are composed in the order they were registered in (`Publishes.trans`),
  which is why the value of the middle of a transaction is replaced before it can be wrong.

A patch relies on the value before it. The hooks of one commit run before those of the next, in the order in which
they were registered; what may be seen in between is the subject of `Proofs/Publisher`.
-/
import Rostra.Proofs.Signals

namespace Rostra.Db

open Rostra Outcome

/-! ## 1. Publishing

`Publishes` compares two states and the hooks between them. It composes. -/

/-- The hooks turn what one state shows into what another shows. -/
def Publishes (env : Env) (db : Database) (hooks : List Publication) (db' : Database) : Prop :=
  hooks.foldl Watches.publish (readWatches env db) = readWatches env db'

theorem Publishes.trans {env : Env} {db db' db'' : Database} {hooks hooks' : List Publication}
    (h : Publishes env db hooks db') (h' : Publishes env db' hooks' db'') :
    Publishes env db (hooks ++ hooks') db'' := by
  unfold Publishes at *
  rw [List.foldl_append, h, h']

/-- The tables that the watches are read from are the same. -/
structure SameShown (db db' : Database) : Prop where
  followees : db'.proj.idsFollowees = db.proj.idsFollowees
  followers : db'.proj.idsFollowers = db.proj.idsFollowers
  heads : db'.ev.eventsHeads = db.ev.eventsHeads

theorem SameShown.refl (db : Database) : SameShown db db := ⟨rfl, rfl, rfl⟩

theorem SameShown.trans {db db' db'' : Database} (h : SameShown db db') (h' : SameShown db' db'') :
    SameShown db db'' :=
  ⟨h'.followees.trans h.followees, h'.followers.trans h.followers, h'.heads.trans h.heads⟩

theorem SameShown.readWatches {db db' : Database} (h : SameShown db db') (env : Env) :
    readWatches env db' = readWatches env db := by
  simp only [Db.readWatches, h.followees, h.followers, h.heads]

theorem SameShown.publishes {db db' : Database} (h : SameShown db db') (env : Env) :
    Publishes env db [] db' := (h.readWatches env).symm

/-- What happens to other tables afterwards is not published. -/
theorem Publishes.shown {env : Env} {db db' db'' : Database} {hooks : List Publication}
    (h : Publishes env db hooks db') (h' : SameShown db' db'') : Publishes env db hooks db'' :=
  Eq.trans h (h'.readWatches env).symm

theorem SameShown.of_follows {db db' : Database} (hp : followPart db'.proj = followPart db.proj)
    (hh : db'.ev.eventsHeads = db.ev.eventsHeads) : SameShown db db' :=
  ⟨congrArg FollowPart.followees hp, congrArg FollowPart.followers hp, hh⟩

theorem Unheard.shown {db db' : Database} (h : Unheard db db') : SameShown db db' :=
  .of_follows h.follows h.heads

/-! ## 2. A follow

The account may be on either side of the pair, on both, or on none; the tests of the code are the cases. -/

section Follow

variable {t t' : Table (RostraId × RostraId) IdsFolloweesRecord} {id a f : RostraId}

theorem mem_readFolloweesTx {r : IdsFolloweesRecord} :
    (f, r) ∈ readFolloweesTx id t ↔ t.get (id, f) = some r := by
  simp only [readFolloweesTx, Finset.mem_biUnion, Finset.mem_filter, Option.mem_toFinset,
    Option.mem_def, Option.map_eq_some_iff, Prod.mk.injEq]
  constructor
  · rintro ⟨⟨x, y⟩, ⟨-, rfl⟩, r', hr', rfl, rfl⟩
    exact hr'
  · intro h
    exact ⟨(id, f), ⟨Table.mem_keys_of_get h, rfl⟩, r, h, rfl, rfl⟩

theorem mem_followeeIds :
    f ∈ (readFolloweesTx id t).image Prod.fst ↔ (t.get (id, f)).isSome = true := by
  rw [Finset.mem_image, Option.isSome_iff_exists]
  constructor
  · rintro ⟨⟨x, r⟩, hr, rfl⟩
    exact ⟨r, mem_readFolloweesTx.mp hr⟩
  · rintro ⟨r, hr⟩
    exact ⟨(f, r), mem_readFolloweesTx.mpr hr, rfl⟩

theorem readFolloweesTx_congr (h : ∀ f, t'.get (id, f) = t.get (id, f)) :
    readFolloweesTx id t' = readFolloweesTx id t := by
  ext ⟨f, r⟩
  rw [mem_readFolloweesTx, mem_readFolloweesTx, h]

/-- The web of trust reads the rows of the direct followees. -/
theorem computeWotTx_congr (direct : FolloweeMap)
    (h : ∀ a ∈ direct.image Prod.fst, ∀ f, t'.get (a, f) = t.get (a, f)) :
    computeWotTx id direct t' = computeWotTx id direct t := by
  have hext : (direct.image Prod.fst).biUnion (fun a => (readFolloweesTx a t').image Prod.fst) =
      (direct.image Prod.fst).biUnion fun a => (readFolloweesTx a t).image Prod.fst :=
    Finset.biUnion_congr rfl fun a ha => by rw [readFolloweesTx_congr (h a ha)]
  unfold computeWotTx
  rw [hext]

theorem readFollowersTx_congr {s s' : Finset (RostraId × RostraId)}
    (h : ∀ a, (id, a) ∈ s' ↔ (id, a) ∈ s) : readFollowersTx id s' = readFollowersTx id s := by
  unfold readFollowersTx
  congr 1
  ext ⟨x, a⟩
  rw [Finset.mem_filter, Finset.mem_filter]
  constructor
  · rintro ⟨hm, rfl⟩
    exact ⟨(h a).mp hm, rfl⟩
  · rintro ⟨hm, rfl⟩
    exact ⟨(h a).mpr hm, rfl⟩

/-- The follow tables changed at most for the pair `(a, f)`. -/
structure OnePair (a f : RostraId) (p p' : Projections) : Prop where
  followees : ∀ x y, ¬(a = x ∧ f = y) → p'.idsFollowees.get (x, y) = p.idsFollowees.get (x, y)
  followers : ∀ x y, ¬(a = x ∧ f = y) → ((y, x) ∈ p'.idsFollowers ↔ (y, x) ∈ p.idsFollowers)

/-- **A changed pair is published wherever it shows.** -/
theorem followHooks_publish {env : Env} (db db' : Database) (h : OnePair a f db.proj db'.proj)
    (hheads : db'.ev.eventsHeads = db.ev.eventsHeads) :
    Publishes env db (followHooks env db'.proj a f) db' := by
  have hfollowers : f ≠ env.selfId → readFollowersTx env.selfId db'.proj.idsFollowers =
      readFollowersTx env.selfId db.proj.idsFollowers := by
    intro hf
    exact readFollowersTx_congr fun x => h.followers x env.selfId fun hxy => hf hxy.2
  have hfollowees : a ≠ env.selfId → readFolloweesTx env.selfId db'.proj.idsFollowees =
      readFolloweesTx env.selfId db.proj.idsFollowees := by
    intro ha
    exact readFolloweesTx_congr fun y => h.followees env.selfId y fun hxy => ha hxy.1
  -- an account that is not followed adds nothing to the web of trust
  have hwot : a ≠ env.selfId → (db'.proj.idsFollowees.get (env.selfId, a)).isSome = false →
      computeWotTx env.selfId (readFolloweesTx env.selfId db.proj.idsFollowees)
        db'.proj.idsFollowees =
      computeWotTx env.selfId (readFolloweesTx env.selfId db.proj.idsFollowees)
        db.proj.idsFollowees := by
    intro ha hnot
    refine computeWotTx_congr _ fun x hx y => h.followees x y fun hxy => ?_
    rw [← hfollowees ha, mem_followeeIds, ← hxy.1, hnot] at hx
    cases hx
  unfold Publishes followHooks readWatches
  dsimp only
  rw [hheads]
  by_cases ha : a = env.selfId
  · by_cases hf : f = env.selfId
    · rw [if_pos ha, if_pos hf]
      rfl
    · rw [if_pos ha, if_neg hf, hfollowers hf]
      rfl
  · rw [if_neg ha, hfollowees ha]
    cases hrow : (db'.proj.idsFollowees.get (env.selfId, a)).isSome with
    | true =>
      by_cases hf : f = env.selfId
      · rw [if_pos hf]
        rfl
      · rw [if_neg hf, hfollowers hf]
        rfl
    | false =>
      rw [hwot ha hrow]
      by_cases hf : f = env.selfId
      · rw [if_pos hf]
        rfl
      · rw [if_neg hf, hfollowers hf]
        rfl

end Follow

/-- A follow without an update left the current follows alone. -/
theorem insertFollowTx_unchanged {p : Projections} {a : RostraId} {o : EventOrder} {f : Follow}
    (h : (insertFollowTx p a o f).2 = false) :
    (insertFollowTx p a o f).1.idsFollowees = p.idsFollowees ∧
      (insertFollowTx p a o f).1.idsFollowers = p.idsFollowers := by
  unfold insertFollowTx at h ⊢
  dsimp only at h ⊢
  split at h
  · next hb =>
    rw [if_pos hb]
    exact ⟨rfl, rfl⟩
  next hb =>
  rw [if_neg hb]
  split at h
  · next r hr =>
    split at h
    · next hle =>
      split at h
      · next hts =>
        simp only [if_pos hle, if_pos hts]
        trivial
      · cases h
    · cases h
  · cases h

theorem insertUnfollowTx_unchanged {p : Projections} {a f : RostraId} {o : EventOrder}
    (h : (insertUnfollowTx p a o f).2 = false) :
    (insertUnfollowTx p a o f).1.idsFollowees = p.idsFollowees ∧
      (insertUnfollowTx p a o f).1.idsFollowers = p.idsFollowers := by
  unfold insertUnfollowTx at h ⊢
  dsimp only at h ⊢
  split at h
  · next hb =>
    rw [if_pos hb]
    exact ⟨rfl, rfl⟩
  next hb =>
  split at h
  · split at h
    · cases h
    · cases h
  · cases h

/-- **A follow or an unfollow publishes what it changed.** -/
theorem insertFollowHooks_publish {env : Env} {db db' : Database} (a : RostraId) (o : EventOrder)
    (f : Follow) (hheads : db'.ev.eventsHeads = db.ev.eventsHeads)
    (hp : followPart db'.proj = followPart (if f.isUnfollow then
      (insertUnfollowTx db.proj a o f.followee).1 else (insertFollowTx db.proj a o f).1)) :
    Publishes env db (insertFollowHooks env db.proj a o f) db' := by
  have hres : ∀ (r : Projections × Bool), followPart db'.proj = followPart r.1 →
      OnePair a f.followee db.proj r.1 → (r.2 = false → r.1.idsFollowees = db.proj.idsFollowees ∧
        r.1.idsFollowers = db.proj.idsFollowers) →
      Publishes env db (if r.2 then followHooks env r.1 a f.followee else []) db' := by
    intro r hp hpair hsame
    have hshown : SameShown { db' with proj := r.1 } db' := .of_follows hp rfl
    cases hr : r.2 with
    | true =>
      exact (followHooks_publish db { db' with proj := r.1 } hpair hheads).shown hshown
    | false =>
      obtain ⟨hfs, hrs⟩ := hsame hr
      have hback : SameShown db { db' with proj := r.1 } := ⟨hfs, hrs, hheads⟩
      exact (hback.trans hshown).publishes env
  unfold insertFollowHooks
  split at hp
  · next hu =>
    simp only [hu, if_true]
    refine hres _ hp ⟨fun x y hxy => ?_, fun x y hxy => ?_⟩ insertUnfollowTx_unchanged
    · exact (insertUnfollowTx_other db.proj ⟨a, o, f⟩ hxy).followee
    · exact (insertUnfollowTx_other db.proj ⟨a, o, f⟩ hxy).follower
  · next hu =>
    simp only [Bool.eq_false_iff.mpr hu, Bool.false_eq_true, if_false]
    refine hres _ hp ⟨fun x y hxy => ?_, fun x y hxy => ?_⟩ insertFollowTx_unchanged
    · exact (insertFollowTx_other db.proj ⟨a, o, f⟩ hxy).followee
    · exact (insertFollowTx_other db.proj ⟨a, o, f⟩ hxy).follower

variable [Primitives]

/-! ## 3. An envelope

The only watched value that an envelope can move is the head of the own account. -/

/-- Heads of other authors are the same. -/
def HeadsBeside (a : RostraId) (t t' : EventTables) : Prop :=
  ∀ k : RostraId × ShortEventId, k.1 ≠ a → (k ∈ t'.eventsHeads ↔ k ∈ t.eventsHeads)

omit [Primitives] in
theorem HeadsBeside.of_eq {a : RostraId} {t t' : EventTables}
    (h : t'.eventsHeads = t.eventsHeads) : HeadsBeside a t t' := fun k _ => by rw [h]

omit [Primitives] in
theorem HeadsBeside.trans {a : RostraId} {t t' t'' : EventTables} (h : HeadsBeside a t t')
    (h' : HeadsBeside a t' t'') : HeadsBeside a t t'' := fun k hk => (h' k hk).trans (h k hk)

omit [Primitives] in
theorem HeadsBeside.readHeadTx {a id : RostraId} {t t' : EventTables} (h : HeadsBeside a t t')
    (hne : a ≠ id) : readHeadTx id t'.eventsHeads = readHeadTx id t.eventsHeads := by
  have hrows : t'.eventsHeads.filter (fun k => k.1 = id) =
      t.eventsHeads.filter fun k => k.1 = id := by
    ext k
    rw [Finset.mem_filter, Finset.mem_filter]
    constructor
    · rintro ⟨hk, rfl⟩
      exact ⟨(h k fun heq => hne heq.symm).mp hk, rfl⟩
    · rintro ⟨hk, rfl⟩
      exact ⟨(h k fun heq => hne heq.symm).mpr hk, rfl⟩
  unfold Db.readHeadTx
  rw [hrows]

theorem takeMissing_heads (t : EventTables) (v : VerifiedEvent) :
    HeadsBeside v.event.author t (takeMissing t v).1 := by
  unfold takeMissing
  dsimp only
  split
  · split
    · exact .of_eq rfl
    · exact .of_eq rfl
  · intro k hk
    rw [Finset.mem_insert]
    constructor
    · rintro (rfl | hmem)
      · exact absurd rfl hk
      · exact hmem
    · exact .inr

theorem processParentTx_heads (v : VerifiedEvent) (s : ParentScan) (p : Option ShortEventId × Bool) :
    Ensures (processParentTx v s p) (fun s' => HeadsBeside v.event.author s.ev s'.ev)
      (fun _ => True) := by
  have hvisit : ∀ id, Ensures (visitParentTx v s id p.2)
      (fun s' => s'.ev.eventsHeads = s.ev.eventsHeads) (fun _ => True) := by
    intro id
    unfold visitParentTx
    split
    · split
      · unfold deleteParentTx
        refine (ensures_true _).bind fun d _ => ?_
        refine (ensures_true _).bind fun rc _ => ?_
        exact (ensures_true _).bind fun u _ => rfl
      · exact rfl
    · unfold missParentTx
      exact (ensures_true _).bind fun d _ => rfl
  unfold processParentTx
  split
  · exact .of_eq rfl
  next id _ =>
  refine (hvisit id).bind fun s' hs' => ?_
  intro k hk
  show k ∈ s'.ev.eventsHeads.erase (v.event.author, id) ↔ _
  rw [Finset.mem_erase, hs']
  constructor
  · exact fun h => h.2
  · refine fun h => ⟨?_, h⟩
    rintro rfl
    exact hk rfl

/-- **An envelope writes heads of its author**, and none when it is already here. -/
theorem insertEventTx_heads (t : EventTables) (v : VerifiedEvent) :
    Ensures (insertEventTx t v) (fun r => HeadsBeside v.event.author t r.1 ∧
      (r.2 = .alreadyPresent → r.1.eventsHeads = t.eventsHeads)) (fun _ => True) := by
  unfold insertEventTx
  refine (ensures_true _).bind fun idsFull _ => ?_
  split
  · exact ⟨.of_eq rfl, fun _ => rfl⟩
  unfold insertNewEventTx
  dsimp only
  have hparents : Ensures ((parentIds v.event).foldlM (processParentTx v)
      { ev := (takeMissing { t with idsFull := idsFull } v).1 })
      (fun s => HeadsBeside v.event.author t s.ev) (fun _ => True) := by
    refine Ensures.foldlM _ _ (fun p _ s hs => ?_) ?_
    · exact (processParentTx_heads v s p).mono (fun _ h => hs.trans h) fun _ _ => trivial
    · exact takeMissing_heads { t with idsFull := idsFull } v
  refine hparents.bind fun s hs => ?_
  refine ((storeHeaderTx_ensures s.ev v).mono (fun _ h => h) fun _ _ => trivial).bind fun t₁ h₁ => ?_
  refine ((startContentTx_ensures t₁ v _).mono (fun _ h => h) fun _ _ => trivial).bind
    fun t₂ h₂ => ?_
  have hheads : t₂.eventsHeads = s.ev.eventsHeads := by rw [h₂.2.1, h₁]
  refine ⟨hs.trans (.of_eq hheads), fun h => ?_⟩
  cases h

/-- **An envelope publishes the head it moved.** -/
theorem processEventTx_publishes (env : Env) (db : Database) (v : VerifiedEvent) (now : Timestamp)
    (source : EventReceivedSource) :
    Ensures (processEventTx env {} db v now source)
      (fun r => Publishes env db (eventHooks env db v) r.1) (fun _ => True) := by
  refine (processEventTx_inserts env db v now source).mono (fun r hr => ?_) fun _ h => h
  obtain ⟨⟨t, o⟩, hins, hrest⟩ := hr
  have hfollows : followPart r.1.proj = followPart db.proj := hrest.follows
  have hheads : r.1.ev.eventsHeads = t.eventsHeads := hrest.heads
  have hrows := (insertEventTx_heads db.ev v).of_ok hins
  have hread : readWatches env r.1 =
      { readWatches env db with selfHead := readHeadTx env.selfId t.eventsHeads } := by
    have hfs : r.1.proj.idsFollowees = db.proj.idsFollowees := congrArg FollowPart.followees hfollows
    have hrs : r.1.proj.idsFollowers = db.proj.idsFollowers := congrArg FollowPart.followers hfollows
    simp only [readWatches, hheads, hfs, hrs]
  unfold eventHooks
  rw [hins]
  cases o with
  | alreadyPresent => exact (SameShown.of_follows hfollows (hheads.trans (hrows.2 rfl))).publishes env
  | inserted wm isD dp rev mp =>
    dsimp only
    unfold Publishes
    rw [hread]
    split
    · rfl
    · next hne =>
      rw [hrows.1.readHeadTx hne]
      rfl

/-! ## 4. A payload

A payload that is found invalid has run no reducer, and registers no hook. -/

/-- **A projected payload publishes the follows it changed**; an invalid one changed none. -/
theorem contentInsertedHooks_publish {env : Env} {db db' : Database} {c : EventContent}
    (now : Timestamp) (hheads : db'.ev.eventsHeads = db.ev.eventsHeads)
    (hp : db'.proj = commit (processEventContentInsertedTx env {} db.proj c now) db.proj) :
    Publishes env db (contentInsertedHooks env db.proj c) db' := by
  have hpart := followPart_commit env {} db.proj c now
  rw [← hp] at hpart
  have hhooks : contentInsertedHooks env db.proj c = (followOf c).elim [] fun f =>
      insertFollowHooks env db.proj c.event.event.author (orderOf c) f := by
    unfold contentInsertedHooks followOf
    dsimp only
    split
    · cases c.follow? with
      | none => rfl
      | some f => rfl
    · rfl
  rw [hhooks]
  cases hf : followOf c with
  | none =>
    rw [hf] at hpart
    exact (SameShown.of_follows hpart hheads).publishes env
  | some f =>
    rw [hf] at hpart
    exact insertFollowHooks_publish _ _ f hheads hpart

theorem materializeTx_publishes (env : Env) (db : Database) (c : VerifiedEventContent)
    (now : Timestamp) :
    Ensures (materializeTx env {} db c now) (fun db' => Publishes env db
      (c.content.elim [] fun _ => contentInsertedHooks env db.proj c.toEventContent) db')
      (fun _ => True) := by
  unfold materializeTx
  dsimp only
  split
  · next hnone =>
    rw [hnone]
    exact SameShown.publishes ⟨rfl, rfl, rfl⟩ env
  next b hb =>
  rw [hb, Option.elim_some]
  split
  · next p hp =>
    refine (storeContentTx_effect _ _ b).bind fun ev hev => ?_
    obtain ⟨u, rfl⟩ := hev
    exact contentInsertedHooks_publish now rfl (by rw [hp]; rfl)
  · next hp =>
    refine (rejectContentTx_effect _ _).bind fun ev hev => ?_
    obtain ⟨rc, u, rfl⟩ := hev
    exact contentInsertedHooks_publish now rfl (by rw [hp]; rfl)
  · trivial

theorem processEventContentTx_publishes (env : Env) (db : Database) (c : VerifiedEventContent)
    (now : Timestamp) (ledger : AdmissionState) (buffer : Option PayloadBuffer) :
    Ensures (processEventContentTx env {} db c now ledger buffer)
      (fun db' => Publishes env db (eventContentHooks env db c ledger buffer) db')
      (fun _ => True) := by
  unfold processEventContentTx
  refine (ensures_true _).bind fun before _ => ?_
  have hinner : Ensures (processEventContentInnerTx env {} db c now ledger buffer)
      (fun db' => Publishes env db (eventContentHooks env db c ledger buffer) db')
      (fun _ => True) := by
    unfold processEventContentInnerTx eventContentHooks
    split
    · exact (SameShown.refl db).publishes env
    split
    · cases hadmit : admitMaterializationTx db c.event buffer ledger with
      | error e => trivial
      | ok a =>
        refine (materializeTx_publishes env db c now).mono (fun db' h => ?_) fun _ h => h
        cases hc : c.content with
        | none =>
          rw [hc] at h
          exact h
        | some b =>
          rw [hc] at h
          exact h
    · unfold supplyDeletedTx
      split
      · rw [deletedLineageTx_eq]
        have hsame : SameShown db { db with proj := withLineage db.proj c.toEventContent } :=
          .of_follows (withLineage_follows _ _) rfl
        exact hsame.publishes env
      · exact (SameShown.refl db).publishes env
  refine hinner.bind fun db₁ h₁ => ?_
  exact (payloadAfterTx_unheard env db₁ before).mono
    (fun _ h => h₁.shown h.shown) fun _ h => h

/-! ## 5. Every transaction

The watches as a law of `Proofs/Signals`. -/

/-- The hooks of the watches, as a registry. -/
def watchRegistry (env : Env) : Registry Publication :=
  ⟨eventHooks env, fun db c _ ledger buffer => eventContentHooks env db c ledger buffer⟩

theorem ingestHooks_eq (env : Env) (ds : List Delivery) : ∀ db : Database,
    ingestHooks env db ds = (watchRegistry env).ingest env db ds := by
  induction ds with
  | nil => intro db; rfl
  | cons d ds ih =>
    intro db
    unfold ingestHooks Registry.ingest
    have hd : deliverHooks env db d = (watchRegistry env).delivery env db d := by
      cases d with
      | envelope v now source => rfl
      | payload c now ledger => rfl
    rw [hd]
    cases deliver env db d with
    | ok db' => exact congrArg _ (ih db')
    | error e => rfl

theorem commitHooks_eq (env : Env) (db : Database) (op : Op) :
    commitHooks env db op = (watchRegistry env).commit env db op := by
  cases op with
  | ingest ds => exact ingestHooks_eq env ds db
  | _ => rfl

/-- The watches obey the law of the hooks. -/
theorem publishes_law (env : Env) : (watchRegistry env).Law env (Publishes env) where
  unheard := fun h => h.shown.publishes env
  trans := fun h h' => h.trans h'
  envelope := processEventTx_publishes env
  payload := processEventContentTx_publishes env
  refused := by
    intro db c now ledger buffer reason hawaited hadmit
    show eventContentHooks env db c ledger buffer = []
    unfold eventContentHooks
    rw [if_pos hawaited, hadmit]
    split
    · rfl
    · rfl

/-- **One transaction**: what its hooks publish is what it commits. -/
theorem step_publishes (env : Env) (db : Database) (op : Op) :
    Ensures (step env db op) (fun db' => Publishes env db (commitHooks env db op) db')
      (fun _ => True) := by
  rw [commitHooks_eq]
  exact (publishes_law env).step db op

/-- **The published watches equal the committed tables.**  A database is opened over any tables, and
any transactions follow, each of which commits or is rolled back. -/
theorem watches_current (env : Env) (db : Database) (ops : List Op) :
    (run (Handle.step env) (.open env db) ops).db = run (step env) db ops ∧
      (run (Handle.step env) (.open env db) ops).watches =
        readWatches env (run (step env) db ops) := by
  induction ops using List.reverseRecOn with
  | nil => exact ⟨rfl, rfl⟩
  | append_singleton ops op ih =>
    obtain ⟨hdb, hwatches⟩ := ih
    rw [run_append, run_append, run_cons, run_cons, run_nil, run_nil]
    generalize run (Handle.step env) (.open env db) ops = h at hdb hwatches
    generalize run (step env) db ops = db₁ at hdb hwatches
    subst hdb
    unfold Handle.step
    cases hstep : step env h.db op with
    | error e => exact ⟨rfl, hwatches⟩
    | ok db' =>
      refine ⟨rfl, ?_⟩
      show (commitHooks env h.db op).foldl Watches.publish h.watches = _
      rw [hwatches]
      exact (step_publishes env h.db op).of_ok hstep

end Rostra.Db
