/-
# The order of deliveries does not matter

Replicas hear of the same events in different orders, hear of some of them twice, and group them into
transactions as they please.  What they are meant to agree on is the class of every event, who deleted
it, and which post an edit replaces.

`Lifecycle` and `Lineage` already say that all of this can be read off the COMMITTED deliveries.  By
itself that is not enough: a transaction that is refused in one order and not in another leaves two
replicas apart, however often its deliveries are repeated.  And there is one: an empty header that
names the hash of somebody's payload takes its key in the store, after which every header that touches
the processed event is refused as an inconsistency of the accounting.  `Commits` shows that nothing
else refuses a delivery, so this file can speak of the deliveries themselves.

* `lifecycle_converges` and `lineage_exact` are the two statements, over sets of envelopes without such
  a header.
* `lifecycle_misnamed` and `lineage_misnamed` are the two orders that part when there is one: the
  deletion of a post, and its edit, are accepted before the post and never after it.
-/
import Rostra.Proofs.Commits
import Rostra.Proofs.Feed

namespace Rostra.Db

open Rostra Outcome

section Convergence

variable [Primitives] {D : Set VerifiedEvent}

/-! ## 1. The lifecycle

An event of length `0` has its whole content in its header, and is processed as soon as it is stored;
`Fated` says so.  Every other class is a matter of the deleters, the length and the payload. -/

/-- **The lifecycle converges.**  Over envelopes that can be told apart and counted, with admission
disabled, every transaction commits.  Every delivered event ends in the class that its deleters, its
length and its payload call for, deleted by its latest direct deleter where it has one; two runs with
the same envelopes and payloads agree on the class and the deleter of every event, whatever the order,
the repetitions and the transactions; and as a run goes on, `Deleted` is never left and nothing becomes
`Missing` again. -/
theorem lifecycle_converges (env : Env) (hD : Ingestible D) (hinj : Function.Injective blake3)
    (hdec : EmptyUnreadable) (txs : List (List Delivery))
    (hfrom : DeliveredFrom D (txs.map Op.ingest)) (hadm : ∀ d ∈ txs.flatten, d.AdmissionDisabled) :
    let S := envelopesIn txs.flatten
    let P := payloadsIn txs.flatten
    let t := (reached env (txs.map Op.ingest)).ev
    (∀ done ds rest, txs = done ++ ds :: rest →
        ∃ db, step env (reached env (done.map Op.ingest)) (.ingest ds) = .ok db) ∧
      (∀ v ∈ S, t.events.get v.id = some v.event ∧ EndsIn S P v (t.eventsContentState.get v.id)) ∧
      (∀ env' (txs' : List (List Delivery)), DeliveredFrom D (txs'.map Op.ingest) →
        (∀ d ∈ txs'.flatten, d.AdmissionDisabled) → envelopesIn txs'.flatten = S →
        payloadsIn txs'.flatten = P →
          let t' := (reached env' (txs'.map Op.ingest)).ev
          ∀ v ∈ S, contentClass t v.id = contentClass t' v.id ∧
            EventContentState.deletedBy? (t.eventsContentState.get v.id) =
              EventContentState.deletedBy? (t'.eventsContentState.get v.id)) ∧
      ∀ txs' : List (List Delivery), DeliveredFrom D (txs'.map Op.ingest) →
        let t' := (reached env ((txs ++ txs').map Op.ingest)).ev
        ∀ v ∈ S, (contentClass t v.id = .deleted → contentClass t' v.id = .deleted) ∧
          (contentClass t' v.id = .missing → contentClass t v.id = .missing) := by
  have hall := committedDeliveries_all env hD hinj hdec hfrom hadm
  obtain ⟨hends, hagree, hlater⟩ := committed_lifecycle env hD.ids hD.parents hinj txs hfrom
  rw [hall] at hends hagree hlater
  refine ⟨fun done ds rest htxs => ?_, hends, fun env' txs' hfrom' hadm' hS hP => ?_, hlater⟩
  · subst htxs
    have hdone : DeliveredFrom D (done.map Op.ingest) := fun o ho =>
      hfrom o (by rw [List.map_append]; exact List.mem_append_left _ ho)
    have hds : ∀ d ∈ ds, d.event ∈ D := fun d hd =>
      hfrom (.ingest ds) (List.mem_map.mpr ⟨ds, by simp, rfl⟩) _ (List.mem_map.mpr ⟨d, hd, rfl⟩)
    have hfit := reached_fit env hD hinj hdec hdone fun d hd => hadm d (by
      rw [List.flatten_append]
      exact List.mem_append_left _ hd)
    refine (ingest_fit hfit hD hinj hdec hds fun d hd => hadm d ?_).exists_ok
    exact List.mem_flatten.mpr ⟨ds, by simp, hd⟩
  · have hall' := committedDeliveries_all env' hD hinj hdec hfrom' hadm'
    exact hagree env' txs' hfrom' (by rw [hall', hS]) (by rw [hall', hP])

/-! ## 2. The lineage -/

/-- **The lineage is the set of delivered edits**, whatever the order of the deliveries and the states
of the events when their payloads came; the two tables are each other's inverse; and a payload for
deleted content commits and changes these two tables and nothing else. -/
theorem lineage_exact (env : Env) (hD : Ingestible D) (hinj : Function.Injective blake3)
    (hdec : EmptyUnreadable) (txs : List (List Delivery))
    (hfrom : DeliveredFrom D (txs.map Op.ingest)) (hadm : ∀ d ∈ txs.flatten, d.AdmissionDisabled)
    (hoff : Offered (envelopesIn txs.flatten) (payloadsIn txs.flatten)) :
    let P := payloadsIn txs.flatten
    let db := reached env (txs.map Op.ingest)
    (∀ a old id, (a, old, id) ∈ db.proj.socialPostsReplacedBy ↔
        ∃ c ∈ P, IsEdit c.toEventContent old ∧ c.event.event.author = a ∧ c.event.id = id) ∧
      (∀ a old id, (a, id, old) ∈ db.proj.socialPostsReplaces ↔
        (a, old, id) ∈ db.proj.socialPostsReplacedBy) ∧
      ∀ (c : VerifiedEventContent) now ledger,
        db.ev.events.get c.event.id = some c.event.event →
        contentClass db.ev c.event.id = .deleted →
        (ledger.config = none →
            ∃ db', step env db (.ingest [.payload c now ledger]) = .ok db') ∧
          ∀ db', step env db (.ingest [.payload c now ledger]) = .ok db' →
            db' = { db with proj := { db.proj with
              socialPostsReplacedBy := db'.proj.socialPostsReplacedBy
              socialPostsReplaces := db'.proj.socialPostsReplaces } } := by
  have hall := committedDeliveries_all env hD hinj hdec hfrom hadm
  have hlineage := committed_lineage env hD.ids hD.parents hinj hdec txs hfrom
  rw [hall] at hlineage
  obtain ⟨hrows, hinverse, hdeleted⟩ := hlineage hoff
  have hfit := reached_fit env hD hinj hdec hfrom hadm
  refine ⟨hrows, hinverse, fun c now ledger hst hd => ⟨fun hnone => ?_, fun db' hok =>
    hdeleted c now ledger db' hst hd hok⟩⟩
  refine (ingest_fit hfit hD hinj hdec (fun d hmem => ?_) fun d hmem => ?_).exists_ok
  · obtain rfl := List.mem_singleton.mp hmem
    show c.event ∈ D
    rw [← VerifiedEvent.ofEvent_self c.event]
    exact hfit.ground.1.keyed.mem hst
  · obtain rfl := List.mem_singleton.mp hmem
    exact hnone

end Convergence

section Sample

attribute [local instance] Primitives.reference

/-- On a concrete run the premises are finite checks. -/
theorem ingestible_envelopesOf {ops : List Op}
    (hpairs : ∀ v ∈ ops.flatMap Op.delivered, ∀ w ∈ ops.flatMap Op.delivered,
      (v.id = w.id → v = w) ∧
        (v.event.author.split.1 = w.event.author.split.1 → v.event.author = w.event.author) ∧
        (v.event.contentLen = 0 → 0 < w.event.contentLen →
          w.event.contentHash ≠ v.event.contentHash))
    (hself : ∀ v ∈ ops.flatMap Op.delivered, NoSelfParent v)
    (hroom : ∑ v ∈ (ops.flatMap Op.delivered).toFinset, cost v.event ≤ u64Max) :
    Ingestible (envelopesOf ops) where
  ids v hv w hw := (hpairs v hv w hw).1
  parents := hself
  prefixes v hv w hw := (hpairs v hv w hw).2.1
  room := ⟨(ops.flatMap Op.delivered).toFinset, fun _ hv => List.mem_toFinset.mpr hv, hroom⟩
  unambiguous v hv hlen _ hc hpos := (hpairs v hv _ hc).2.2 hlen hpos

/-! ### The deletion first, then what it deletes and an event whose payload never comes -/

def sampleTxs : List (List Delivery) :=
  [[.envelope (.ofEvent sampleDeletion) 5 .local],
    [.payload samplePayload 6 {}, .envelope (.ofEvent sampleWaiting) 7 .local]]

theorem lifecycle_converges_sampleTxs :
    let t := (reached sampleEnv (sampleTxs.map Op.ingest)).ev
    t.eventsContentState.get samplePayload.event.id = some (.deleted 3) ∧
      ∀ v ∈ envelopesIn sampleTxs.flatten, t.events.get v.id = some v.event ∧
        EndsIn (envelopesIn sampleTxs.flatten) (payloadsIn sampleTxs.flatten) v
          (t.eventsContentState.get v.id) := by
  have hadm : ∀ d ∈ sampleTxs.flatten, d.AdmissionDisabled := by
    simp [sampleTxs, Delivery.AdmissionDisabled]
  exact ⟨by decide +kernel, (lifecycle_converges sampleEnv
    (ingestible_envelopesOf (by decide) (by decide) (by decide +kernel))
    Primitives.reference_injective rfl sampleTxs (deliveredFrom_envelopesOf _) hadm).2.1⟩

/-! ### An edit whose deletion comes first -/

theorem sampleEdits_offered :
    Offered (envelopesIn sampleEdits.flatten) (payloadsIn sampleEdits.flatten) := by
  rintro c ⟨d, hd, hc⟩ v ⟨d', hd', rfl⟩ hm
  simp only [sampleEdits, List.flatten_cons, List.flatten_nil, List.cons_append, List.nil_append,
    List.mem_cons, List.not_mem_nil, or_false] at hd hd'
  have hedit : sampleEditPayload ∈ payloadsIn sampleEdits.flatten :=
    ⟨.payload sampleEditPayload 6 {}, by simp [sampleEdits], rfl⟩
  have hpost : samplePayload ∈ payloadsIn sampleEdits.flatten :=
    ⟨.payload samplePayload 7 {}, by simp [sampleEdits], rfl⟩
  rcases hd with rfl | rfl | rfl
  · cases hc
  · obtain rfl : sampleEditPayload = c := Option.some.inj hc
    rcases hd' with rfl | rfl | rfl
    · exact absurd hm (by decide)
    · exact ⟨_, hedit, rfl, rfl⟩
    · exact absurd hm (by decide)
  · obtain rfl : samplePayload = c := Option.some.inj hc
    rcases hd' with rfl | rfl | rfl
    · exact absurd hm (by decide)
    · exact absurd hm (by decide)
    · exact ⟨_, hpost, rfl, rfl⟩

theorem lineage_exact_sampleEdits :
    let db := reached sampleEnv (sampleEdits.map Op.ingest)
    contentClass db.ev sampleEditPayload.event.id = .deleted ∧
      db.proj.socialPostsReplacedBy = {(toLex (1, 1), 1, 4)} ∧
      ∀ a old id, (a, old, id) ∈ db.proj.socialPostsReplacedBy ↔
        ∃ c ∈ payloadsIn sampleEdits.flatten,
          IsEdit c.toEventContent old ∧ c.event.event.author = a ∧ c.event.id = id := by
  have hadm : ∀ d ∈ sampleEdits.flatten, d.AdmissionDisabled := by
    simp [sampleEdits, Delivery.AdmissionDisabled]
  exact ⟨by decide +kernel, by decide +kernel, (lineage_exact sampleEnv
    (ingestible_envelopesOf (by decide) (by decide) (by decide +kernel))
    Primitives.reference_injective rfl sampleEdits (deliveredFrom_envelopesOf _) hadm
    sampleEdits_offered).1⟩

/-! ### An empty header that takes the key of a post

The header, then the post: the post is processed, but the store has the empty string under its hash.
From then on a header that names the post is refused, because its accounting finds bytes of the wrong
length.  A header that came before the post is not. -/

/-- The header, the post and its deletion. -/
def misnamedDeletion : List (List Delivery) :=
  [[.envelope (.ofEvent misnamingHeader) 4 .local], [.payload samplePayload 5 {}],
    [.envelope (.ofEvent sampleDeletion) 6 .local]]

/-- The same three, the deletion first. -/
def deletionMisnamed : List (List Delivery) :=
  [[.envelope (.ofEvent sampleDeletion) 6 .local],
    [.envelope (.ofEvent misnamingHeader) 4 .local], [.payload samplePayload 5 {}]]

/-- **Two orders of the same deliveries part**: in the one the post is processed, in the other it is
deleted, and repeating the deletion does not bring them together. -/
theorem lifecycle_misnamed :
    let t := (reached sampleEnv (misnamedDeletion.map Op.ingest)).ev
    let t' := (reached sampleEnv (deletionMisnamed.map Op.ingest)).ev
    envelopesIn misnamedDeletion.flatten = envelopesIn deletionMisnamed.flatten ∧
      payloadsIn misnamedDeletion.flatten = payloadsIn deletionMisnamed.flatten ∧
      CollisionFree (envelopesOf (misnamedDeletion.map Op.ingest)) ∧
      (∀ d ∈ misnamedDeletion.flatten ++ deletionMisnamed.flatten, d.AdmissionDisabled) ∧
      contentClass t samplePayload.event.id = .current ∧
      contentClass t' samplePayload.event.id = .deleted ∧
      (reached sampleEnv ((misnamedDeletion ++ misnamedDeletion).map Op.ingest)).ev.eventsContentState.get
        samplePayload.event.id = none := by
  refine ⟨?_, ?_, collisionFree_envelopesOf (by decide), ?_, by decide +kernel, by decide +kernel,
    by decide +kernel⟩
  · ext v
    simp [envelopesIn, misnamedDeletion, deletionMisnamed, Delivery.event]
    tauto
  · ext c
    simp [payloadsIn, misnamedDeletion, deletionMisnamed, Delivery.payload?]
  · simp [misnamedDeletion, deletionMisnamed, Delivery.AdmissionDisabled]

/-- The header, the post and its edit. -/
def misnamedEdit : List (List Delivery) :=
  [[.envelope (.ofEvent misnamingHeader) 4 .local], [.payload samplePayload 5 {}],
    [.payload sampleEditPayload 6 {}]]

/-- The same three, the edit first. -/
def editMisnamed : List (List Delivery) :=
  [[.payload sampleEditPayload 6 {}], [.envelope (.ofEvent misnamingHeader) 4 .local],
    [.payload samplePayload 5 {}]]

/-- **The rows depend on the order**: the edit is delivered in both, and has its row in one. -/
theorem lineage_misnamed :
    envelopesIn misnamedEdit.flatten = envelopesIn editMisnamed.flatten ∧
      payloadsIn misnamedEdit.flatten = payloadsIn editMisnamed.flatten ∧
      Offered (envelopesIn misnamedEdit.flatten) (payloadsIn misnamedEdit.flatten) ∧
      (∀ d ∈ misnamedEdit.flatten ++ editMisnamed.flatten, d.AdmissionDisabled) ∧
      sampleEditPayload ∈ payloadsIn misnamedEdit.flatten ∧
      IsEdit sampleEditPayload.toEventContent 1 ∧
      (reached sampleEnv (misnamedEdit.map Op.ingest)).proj.socialPostsReplacedBy = ∅ ∧
      (reached sampleEnv (editMisnamed.map Op.ingest)).proj.socialPostsReplacedBy =
        {(toLex (1, 1), 1, 4)} := by
  have hedit : sampleEditPayload ∈ payloadsIn misnamedEdit.flatten :=
    ⟨.payload sampleEditPayload 6 {}, by simp [misnamedEdit], rfl⟩
  have hpost : samplePayload ∈ payloadsIn misnamedEdit.flatten :=
    ⟨.payload samplePayload 5 {}, by simp [misnamedEdit], rfl⟩
  refine ⟨?_, ?_, ?_, ?_, hedit, lineageOf_eq_some.mp (by decide), by decide +kernel,
    by decide +kernel⟩
  · ext v
    simp [envelopesIn, misnamedEdit, editMisnamed, Delivery.event]
    tauto
  · ext c
    simp [payloadsIn, misnamedEdit, editMisnamed, Delivery.payload?]
    tauto
  · rintro c ⟨d, hd, hc⟩ v ⟨d', hd', rfl⟩ hm
    simp only [misnamedEdit, List.flatten_cons, List.flatten_nil, List.cons_append,
      List.nil_append, List.mem_cons, List.not_mem_nil, or_false] at hd hd'
    rcases hd with rfl | rfl | rfl
    · cases hc
    · obtain rfl : samplePayload = c := Option.some.inj hc
      rcases hd' with rfl | rfl | rfl
      · exact absurd hm (by decide)
      · exact ⟨_, hpost, rfl, rfl⟩
      · exact absurd hm (by decide)
    · obtain rfl : sampleEditPayload = c := Option.some.inj hc
      rcases hd' with rfl | rfl | rfl
      · exact absurd hm (by decide)
      · exact absurd hm (by decide)
      · exact ⟨_, hedit, rfl, rfl⟩
  · simp [misnamedEdit, editMisnamed, Delivery.AdmissionDisabled]

end Sample

end Rostra.Db
