/-
# Resolving a post to its newest version

`latest_social_post_version_tx` follows the FIRST replacement row of each version, and the first row
is the one with the smallest id.  As long as nobody edits one version twice there is nothing to choose.
Two edits of one version, made on two devices, are a fork, and there the smaller id wins, however old
it is; everywhere else the greater `(timestamp, id)` does.

The rows of one author form a forest: an edit names one parent, and a parent is older than its edits
because ids are hashes.  So there is exactly one line from a version to its newest descendant, and the
walk ends there if and only if it takes that line, which it does if and only if at no version of the
line another edit has a smaller id (`IsForest.ends_newest_iff`).  The condition is about rows, ids and
timestamps alone, and the walk does not occur in it.

* Section 1: walks to the least successor in a forest.
* Section 2: the versions that rows lead to are stored, the rows of one author are a forest, and the
  walk ends.
* Section 3 puts this together, for every author and every stored event; section 4 is the fork.
-/
import Rostra.Proofs.Versions

namespace Rostra.Db

open Rostra Outcome Relation

/-! ## 1. Walks through a forest

Nothing here is about posts.  `R` relates a node to its successors, `first` picks the least of them,
and `key` is what the leaves are compared by, which has nothing to do with the order of the nodes. -/

section Forks

variable {α κ : Type} [LinearOrder α] [LinearOrder κ] {first : α → Option α} {R : α → α → Prop}
  {key : α → κ} {x v : α}

/-- One successor of each node is followed. -/
def Leads (first : α → Option α) : α → α → Prop := ReflTransGen fun u w => first u = some w

/-- Nothing comes after. -/
def IsLeaf (R : α → α → Prop) (x : α) : Prop := ∀ y, ¬R x y

/-- The greatest leaf that can be reached. -/
structure IsNewestLeaf (R : α → α → Prop) (key : α → κ) (x v : α) : Prop where
  reached : ReflTransGen R x v
  leaf : IsLeaf R v
  newest : ∀ w, ReflTransGen R x w → IsLeaf R w → key w ≤ key v

/-- No node has two predecessors, and no path comes back to where it started. -/
structure IsForest (R : α → α → Prop) : Prop where
  parent : ∀ u u' w, R u w → R u' w → u = u'
  acyclic : ∀ u w, R u w → ¬ReflTransGen R w u

/-- `first` picks the least successor, and picks nothing only where there is none. -/
structure PicksLeast (first : α → Option α) (R : α → α → Prop) : Prop where
  succ : ∀ u w, first u = some w → R u w
  least : ∀ u w w', first u = some w → R u w' → w ≤ w'
  leaf : ∀ u, first u = none → IsLeaf R u

/-- **Every node on the line from `x` down to its newest leaf is the least of its siblings.**  In a
forest there is only one such line, so this speaks of the successors along it and of no others. -/
def LeastLine (R : α → α → Prop) (key : α → κ) (x : α) : Prop :=
  ∀ v, IsNewestLeaf R key x v → ∀ u w, ReflTransGen R x u → R u w → ReflTransGen R w v →
    ∀ w', R u w' → w ≤ w'

/-- What is followed is a successor. -/
theorem Leads.reaches (hfirst : PicksLeast first R) (h : Leads first x v) : ReflTransGen R x v := by
  induction h with
  | refl => exact .refl
  | tail _ hstep ih => exact ih.tail (hfirst.succ _ _ hstep)

omit [LinearOrder α] in
/-- From a node on the way, the walk goes on to its end. -/
theorem Leads.onward (h : Leads first x v) (hend : first v = none) {y : α} (hy : Leads first x y) :
    Leads first y v := by
  induction hy with
  | refl => exact h
  | tail _ hstep ih =>
    rcases ih.cases_head with rfl | ⟨next, hnext, hrest⟩
    · rw [hend] at hstep
      cases hstep
    · rw [hstep] at hnext
      cases hnext
      exact hrest

/-- A successor that no sibling is below is the one that is picked. -/
theorem PicksLeast.eq_some (hfirst : PicksLeast first R) {u w : α} (hw : R u w)
    (hle : ∀ w', R u w' → w ≤ w') : first u = some w := by
  cases h : first u with
  | none => exact absurd hw (hfirst.leaf u h w)
  | some w' =>
    rw [le_antisymm (hfirst.least u w' w h hw) (hle w' (hfirst.succ u w' h))]

/-- **In a forest every node between two nodes of a walk is on the walk.**  The induction is on the
path from that node to the end: each node has one predecessor, so going back along the path is going
back along the walk. -/
theorem IsForest.between (hR : IsForest R) (hfirst : PicksLeast first R) {y : α}
    (hxy : ReflTransGen R x y) (hyv : ReflTransGen R y v) (h : Leads first x v) : Leads first x y := by
  induction hyv with
  | refl => exact h
  | @tail u w hyu huw ih =>
    refine ih ?_
    rcases h.cases_tail with rfl | ⟨u', hwalk, hstep⟩
    · -- a path that comes back to the start of the walk
      exact absurd (hxy.trans hyu) (hR.acyclic u _ huw)
    · rw [hR.parent u u' w huw (hfirst.succ _ _ hstep)]
      exact hwalk

/-- On a line of least siblings the walk keeps to the line. -/
theorem PicksLeast.follows (hfirst : PicksLeast first R) {y : α} (hxy : ReflTransGen R x y)
    (hyv : ReflTransGen R y v) (hline : ∀ u w, ReflTransGen R x u → R u w → ReflTransGen R w v →
      ∀ w', R u w' → w ≤ w') : Leads first x y := by
  induction hxy with
  | refl => exact .refl
  | @tail u w hxu huw ih =>
    exact (ih (.head huw hyv)).tail (hfirst.eq_some huw (hline u w hxu huw hyv))

omit [LinearOrder α] in
/-- Among finitely many nodes one of the leaves is the greatest. -/
theorem exists_newestLeaf (hv : ReflTransGen R x v) (hleaf : IsLeaf R v) (nodes : Finset α)
    (hnodes : ∀ w, ReflTransGen R x w → w ∈ nodes) : ∃ w, IsNewestLeaf R key x w := by
  classical
  obtain ⟨w, hw, hmax⟩ := (nodes.filter fun w => ReflTransGen R x w ∧ IsLeaf R w).exists_max_image key
    ⟨v, Finset.mem_filter.mpr ⟨hnodes v hv, hv, hleaf⟩⟩
  obtain ⟨-, hreached, hwl⟩ := Finset.mem_filter.mp hw
  exact ⟨w, hreached, hwl, fun w' hw' hwl' =>
    hmax w' (Finset.mem_filter.mpr ⟨hnodes w' hw', hw', hwl'⟩)⟩

/-- **A walk in a forest ends at the newest leaf if and only if the line to that leaf is one of least
siblings.** -/
theorem IsForest.ends_newest_iff (hR : IsForest R) (hfirst : PicksLeast first R)
    (hkey : Function.Injective key) (h : Leads first x v) (hend : first v = none) (nodes : Finset α)
    (hnodes : ∀ w, ReflTransGen R x w → w ∈ nodes) : IsNewestLeaf R key x v ↔ LeastLine R key x := by
  constructor
  · intro hnew v' hnew' u w hxu huw hwv' w' huw'
    obtain rfl : v' = v := hkey (le_antisymm (hnew.newest v' hnew'.reached hnew'.leaf)
      (hnew'.newest v hnew.reached hnew.leaf))
    -- both ends of the edge are on the walk, and the walk reaches the lower one from its parent
    have hw : Leads first x w := hR.between hfirst (hxu.tail huw) hwv' h
    rcases hw.cases_tail with rfl | ⟨u', -, hstep⟩
    · exact absurd hxu (hR.acyclic u _ huw)
    · rw [← hR.parent u u' w huw (hfirst.succ _ _ hstep)] at hstep
      exact hfirst.least u w w' hstep huw'
  · intro hline
    obtain ⟨w, hw⟩ : ∃ w, IsNewestLeaf R key x w :=
      exists_newestLeaf (h.reaches hfirst) (hfirst.leaf v hend) nodes hnodes
    have hwalk : Leads first x w := hfirst.follows hw.reached .refl (hline w hw)
    rcases (h.onward hend hwalk).cases_head with rfl | ⟨next, hnext, -⟩
    · exact hw
    · exact absurd (hfirst.succ _ _ hnext) (hw.leaf next)

/-- Where no node has two successors there is nothing to choose. -/
theorem leastLine_of_unique (h : ∀ u w w', ReflTransGen R x u → R u w → R u w' → w = w') :
    LeastLine R key x :=
  fun _ _ u w hxu huw _ w' huw' => (h u w w' hxu huw huw').le

end Forks

/-! ## 2. The walk along the rows

The rows are a set of triples.  What `firstLineageRow` finds is the least of the third components, so
it picks the least successor; that the rows are a forest is read off the headers of the edits. -/

section Walks

variable {rows : LineageRows} {a : RostraId}

/-- `old` was replaced by `new`. -/
def ReplacedBy (rows : LineageRows) (a : RostraId) (old new : ShortEventId) : Prop :=
  (a, old, new) ∈ rows

/-- The first row of a version is the one of its edit with the smallest id. -/
theorem picksLeast_firstLineageRow (rows : LineageRows) (a : RostraId) :
    PicksLeast (firstLineageRow rows a) (ReplacedBy rows a) := by
  have hmem : ∀ id next, ReplacedBy rows a id next →
      next ∈ ((rows.filter fun r => r.1 = a ∧ r.2.1 = id).image fun r => r.2.2) := fun id next hrow =>
    Finset.mem_image.mpr ⟨(a, id, next), Finset.mem_filter.mpr ⟨hrow, rfl, rfl⟩, rfl⟩
  refine ⟨fun id next h => firstLineageRow_mem h,
    fun id next other h hrow => Table.least_le h (hmem id other hrow), fun id h next hrow => ?_⟩
  have hno := hmem id next hrow
  rw [Table.least_none h] at hno
  simp at hno

/-- A walk that ends has followed the first rows to a version without one. -/
theorem versionsLoop_leads : ∀ {fuel : ℕ} {id : ShortEventId} {vs : List ShortEventId},
    versionsLoop rows a fuel id = some vs → ∃ v, vs.getLast? = some v ∧
      Leads (firstLineageRow rows a) id v ∧ firstLineageRow rows a v = none
  | 0, _, _, h => by cases h
  | fuel + 1, id, vs, h => by
    unfold versionsLoop at h
    split at h
    · next hnone =>
      cases h
      exact ⟨id, rfl, .refl, hnone⟩
    · next next hnext =>
      obtain ⟨vs', hvs', rfl⟩ := Option.map_eq_some_iff.mp h
      obtain ⟨v, hlast, hleads, hend⟩ := versionsLoop_leads hvs'
      refine ⟨v, ?_, .head hnext hleads, hend⟩
      rw [List.getLast?_cons, hlast]
      rfl

/-- **A walk along rising ranks ends** as well: ranks are bounded by those of the rows. -/
theorem latestVersion_ends {p : Projections} (rank : ShortEventId → ℕ)
    (hrank : ∀ old new, (a, old, new) ∈ p.socialPostsReplacedBy → rank old < rank new)
    (id : ShortEventId) :
    ∃ v, latestSocialPostVersionTx p a id = some v ∧
      Leads (firstLineageRow p.socialPostsReplacedBy a) id v ∧
      firstLineageRow p.socialPostsReplacedBy a v = none := by
  let top := p.socialPostsReplacedBy.sup fun r => rank r.2.2
  have hfall : ∀ old new, (a, old, new) ∈ p.socialPostsReplacedBy →
      top - rank new < top - rank old := by
    intro old new hrow
    have hle : rank new ≤ top :=
      Finset.le_sup (f := fun r : RostraId × ShortEventId × ShortEventId => rank r.2.2) hrow
    have hlt := hrank old new hrow
    omega
  have hsome := versionsLoop_isSome (fun x => top - rank x) hfall
    (p.socialPostsReplacedBy.card + 1) id (Nat.lt_succ_of_le (Finset.card_filter_le _ _))
  obtain ⟨vs, hvs⟩ := Option.isSome_iff_exists.mp hsome
  obtain ⟨v, hlast, hleads, hend⟩ := versionsLoop_leads hvs
  refine ⟨v, ?_, hleads, hend⟩
  unfold latestSocialPostVersionTx
  rw [hvs]
  exact hlast

end Walks

section Stored

variable [Primitives] {env : Env} {D : Set VerifiedEvent} {db db' : Database}

/-- **The far end of a replacement row is a stored edit of the near end.** -/
def EditsStored (db : Database) : Prop :=
  ∀ a old new, (a, old, new) ∈ db.proj.socialPostsReplacedBy →
    ∃ e, db.ev.events.get new = some e ∧ e.author = a ∧ e.parentAux = some old

theorem DbEffect.editsStored (hk : KeyedBy D db.ev) (hcf : CollisionFree D)
    (h : DbEffect env D db db') (hs : EditsStored db) : EditsStored db' := by
  -- rows stay with their events, and a new row is that of the event being processed
  have hstays : db'.proj.socialPostsReplacedBy = db.proj.socialPostsReplacedBy →
      EditsStored db' := by
    intro hsame a old new hrow
    rw [hsame] at hrow
    obtain ⟨e, he, hauthor, hparent⟩ := hs a old new hrow
    exact ⟨e, (h.edges he).1, hauthor, hparent⟩
  have hgrows : ∀ c : VerifiedEventContent, db'.ev.events.get c.event.id = some c.event.event →
      db'.proj.socialPostsReplacedBy = (withLineage db.proj c.toEventContent).socialPostsReplacedBy →
        EditsStored db' := by
    intro c hc hsame a old new hrow
    rw [hsame, mem_withLineage_replacedBy] at hrow
    rcases hrow with hrow | ⟨old', hold, heq⟩
    · obtain ⟨e, he, hauthor, hparent⟩ := hs a old new hrow
      exact ⟨e, (h.edges he).1, hauthor, hparent⟩
    · cases heq
      exact ⟨_, hc, rfl, (lineageOf_eq_some.mp hold).parent⟩
  cases h with
  | envelope hv heff =>
    rcases heff.lineage with hlin | ⟨c, b, rfl, -, -, hlin⟩
    · exact hstays (congrArg Prod.fst hlin)
    · exact hgrows c (heff.stored hk hcf hv) (congrArg Prod.fst hlin)
  | @payload c _ _ hc hst heff =>
    rcases heff.lineage with hlin | hlin
    · exact hstays (congrArg Prod.fst hlin)
    · refine hgrows c ?_ (congrArg Prod.fst hlin)
      rw [heff.events]
      exact hst
  | released he hmatch hkind hlen hp ht decisions =>
    exact hstays (congrArg Prod.fst (dematerializeTx_lineage hp))
  | scheduled h => exact hstays rfl
  | collected hrc => exact hstays rfl
  | booked h =>
    obtain ⟨a, r, rfl⟩ := h
    exact hstays rfl
  | ranked postId now =>
    exact hstays (congrArg Prod.fst (congrArg SocialPart.lineage
      (recalculateNewsPostScoreTx_social db.proj postId now)))

theorem reached_editsStored (env : Env) (hcf : CollisionFree D) (ops : List Op)
    (hD : DeliveredFrom D ops) : EditsStored (reached env ops) := by
  refine reached_invariant env (balanced_keeps D) hcf balanced_empty (fun a old new hrow => ?_)
    (fun db db' hI _ heff hs => heff.editsStored hI.1.keyed hcf hs) ops hD
  simp at hrow

end Stored

/-! ## 3. The newest version

The statement is about ANY author's rows, from any stored event: the read of a post takes the author
of its header, and the other callers of the walk take theirs from elsewhere. -/

section Newest

variable [Primitives] {D : Set VerifiedEvent}

/-- The order of events, by their headers. -/
def versionOrder (t : EventTables) (id : ShortEventId) : EventOrder :=
  toLex (((t.events.get id).map (·.timestamp)).getD 0, id)

/-- **The newest of the unreplaced versions** that the author's rows lead to. -/
def IsNewestVersion (db : Database) (author : RostraId) (id version : ShortEventId) : Prop :=
  IsNewestLeaf (ReplacedBy db.proj.socialPostsReplacedBy author) (versionOrder db.ev) id version

/-- On the line from `id` to its newest unreplaced version, every version has the smallest id of all
edits of the version before it. -/
def SmallestIdLine (db : Database) (author : RostraId) (id : ShortEventId) : Prop :=
  LeastLine (ReplacedBy db.proj.socialPostsReplacedBy author) (versionOrder db.ev) id

/-- No version that the rows lead to was edited twice. -/
def EditedOnce (db : Database) (author : RostraId) (id : ShortEventId) : Prop :=
  ∀ old new new', ReflTransGen (ReplacedBy db.proj.socialPostsReplacedBy author) id old →
    (author, old, new) ∈ db.proj.socialPostsReplacedBy →
    (author, old, new') ∈ db.proj.socialPostsReplacedBy → new = new'

omit [Primitives] in
theorem versionOrder_injective (t : EventTables) : Function.Injective (versionOrder t) :=
  fun _ _ h => (Prod.mk.inj (toLex.injective h)).2

omit [Primitives] in
/-- What rows lead to is stored. -/
theorem EditsStored.reaches {db : Database} (h : EditsStored db) {a : RostraId}
    {id v : ShortEventId} {e : Event} (he : db.ev.events.get id = some e)
    (hv : ReflTransGen (ReplacedBy db.proj.socialPostsReplacedBy a) id v) :
    ∃ e', db.ev.events.get v = some e' := by
  rcases hv.cases_tail with rfl | ⟨u, -, hrow⟩
  · exact ⟨e, he⟩
  · obtain ⟨e', he', -, -⟩ := h a u v hrow
    exact ⟨e', he'⟩

omit [Primitives] in
/-- **The rows of one author are a forest**: the header of an edit names one parent, and along rising
ranks nothing comes back. -/
theorem EditsStored.isForest {db : Database} (h : EditsStored db) {a : RostraId} {rank : ShortEventId → ℕ}
    (hrank : ∀ old new, (a, old, new) ∈ db.proj.socialPostsReplacedBy → rank old < rank new) :
    IsForest (ReplacedBy db.proj.socialPostsReplacedBy a) := by
  have hrises : ∀ u w, ReflTransGen (ReplacedBy db.proj.socialPostsReplacedBy a) u w → rank u ≤ rank w := by
    intro u w hpath
    induction hpath with
    | refl => exact le_rfl
    | tail _ hrow ih => exact ih.trans (hrank _ _ hrow).le
  refine ⟨fun u u' w hu hu' => ?_, fun u w hrow hback => ?_⟩
  · obtain ⟨e, he, -, hparent⟩ := h _ _ _ hu
    obtain ⟨e', he', -, hparent'⟩ := h _ _ _ hu'
    rw [he] at he'
    cases he'
    exact Option.some.inj (hparent.symm.trans hparent')
  · exact absurd (hrises w u hback) (not_le.mpr (hrank u w hrow))

/-- A read of a post whose newest version is stored succeeds. -/
theorem getSocialPostState_eq {db : Database} {id latest : ShortEventId} {e e' : Event}
    (he : db.ev.events.get id = some e)
    (hlatest : latestSocialPostVersionTx db.proj e.author id = some latest)
    (he' : db.ev.events.get latest = some e')
    (hcount : (socialPostReplyCountTx db.proj e'.author latest).isSome) :
    ∃ state, getSocialPostState db id = some (.ok (some state)) ∧ state.eventId = latest ∧
      state.author = e'.author ∧ state.timestamp = e'.timestamp := by
  obtain ⟨availability, havailable⟩ : ∃ x, getEventContentAvailabilityTx db latest = some x := by
    unfold getEventContentAvailabilityTx
    rw [if_neg (by rw [he']; simp)]
    split <;> exact ⟨_, rfl⟩
  obtain ⟨count, hcount⟩ := Option.isSome_iff_exists.mp hcount
  unfold getSocialPostState
  simp only [he, hlatest, he', havailable]
  split
  · exact ⟨_, rfl, rfl, rfl, rfl⟩
  · rw [hcount]
    exact ⟨_, rfl, rfl, rfl, rfl⟩

/-- **Resolving a version always ends, at a stored event, and the state of a post is read without a
panic.  The version is the newest one if and only if the line to the newest one is a line of smallest
ids**, and so in particular where no version was edited twice.

The rank says that ids are hashes: a header names only what was there before it. -/
theorem latestVersion_newest_iff (env : Env) (hcf : CollisionFree D) (rank : ShortEventId → ℕ)
    (hrank : ∀ v ∈ D, ∀ old, v.event.parentAux = some old → rank old < rank v.id) (ops : List Op)
    (hD : DeliveredFrom D ops) (author : RostraId) {id : ShortEventId} {e : Event}
    (he : (reached env ops).ev.events.get id = some e) :
    let db := reached env ops
    ∃ latest, latestSocialPostVersionTx db.proj author id = some latest ∧
      (∃ state, getSocialPostState db id = some (.ok (some state)) ∧
        (author = e.author → state.eventId = latest)) ∧
      (IsNewestVersion db author id latest ↔ SmallestIdLine db author id) ∧
      (EditedOnce db author id → IsNewestVersion db author id latest) := by
  intro db
  obtain ⟨hk, hedits, -⟩ := reached_rowsTraced env hcf ops hD
  have hstored : EditsStored db := reached_editsStored env hcf ops hD
  have hforward : ∀ a old new, (a, old, new) ∈ db.proj.socialPostsReplacedBy →
      rank old < rank new := by
    intro a old new hrow
    obtain ⟨e', he', -, hparent⟩ := hstored _ _ _ hrow
    obtain ⟨v, hv, rfl, rfl⟩ := hk _ _ he'
    exact hrank v hv old hparent
  have hback : ∀ a new old, (a, new, old) ∈ db.proj.socialPostsReplaces → rank old < rank new := by
    intro a new old hrow
    obtain ⟨c, hc, -, rfl, hold⟩ := hedits _ _ _ hrow
    exact hrank c.event hc old (lineageOf_eq_some.mp hold).parent
  have hfirst := fun a => picksLeast_firstLineageRow db.proj.socialPostsReplacedBy a
  obtain ⟨latest, hlatest, hleads, hend⟩ := latestVersion_ends rank (hforward author) id
  refine ⟨latest, hlatest, ?_, ?_⟩
  · obtain ⟨own, hown, hleads', -⟩ := latestVersion_ends rank (hforward e.author) id
    obtain ⟨e', he'⟩ := hstored.reaches he (hleads'.reaches (hfirst e.author))
    have hcount : (socialPostReplyCountTx db.proj e'.author own).isSome := by
      unfold socialPostReplyCountTx
      rw [Option.isSome_map]
      exact versionsLoop_isSome rank (hback e'.author) _ _
        (Nat.lt_succ_of_le (Finset.card_filter_le _ _))
    obtain ⟨state, hstate, hevent, -, -⟩ := getSocialPostState_eq he hown he' hcount
    refine ⟨state, hstate, ?_⟩
    rintro rfl
    exact hevent.trans (Option.some.inj (hown.symm.trans hlatest))
  · have hiff : IsNewestVersion db author id latest ↔ SmallestIdLine db author id := by
      refine (hstored.isForest (hforward author)).ends_newest_iff (hfirst author)
        (versionOrder_injective _) hleads hend
        (insert id (db.proj.socialPostsReplacedBy.image fun r => r.2.2)) fun w hw => ?_
      rcases hw.cases_tail with rfl | ⟨u, -, hrow⟩
      · exact Finset.mem_insert_self _ _
      · exact Finset.mem_insert_of_mem (Finset.mem_image_of_mem _ hrow)
    exact ⟨hiff, fun honce => hiff.mpr (leastLine_of_unique fun u w w' hu hw hw' => honce u w w' hu hw hw')⟩

end Newest

/-! ## 4. Two edits of one version -/

section Sample

attribute [local instance] Primitives.reference

/-- One post and its edit, in the run of the lineage samples: there is one line, and the read of the
post shows its end. -/
theorem latestVersion_newest_iff_sampleEdits :
    let db := reached sampleEnv (sampleEdits.map Op.ingest)
    db.ev.events.get 1 = some samplePost ∧
      ∃ latest, latestSocialPostVersionTx db.proj samplePost.author 1 = some latest ∧
        (∃ state, getSocialPostState db 1 = some (.ok (some state)) ∧ state.eventId = latest) ∧
        (IsNewestVersion db samplePost.author 1 latest ↔ SmallestIdLine db samplePost.author 1) := by
  intro db
  have hpost : db.ev.events.get 1 = some samplePost := by decide +kernel
  have holder : ∀ v ∈ (sampleEdits.map Op.ingest).flatMap Op.delivered,
      ∀ old ∈ v.event.parentAux, old < v.id := by decide
  obtain ⟨latest, hlatest, ⟨state, hstate, hevent⟩, hiff, -⟩ :=
    latestVersion_newest_iff sampleEnv (collisionFree_envelopesOf (by decide)) (fun id => id)
      (fun v hv old hold => holder v hv old hold) _ (deliveredFrom_envelopesOf _) samplePost.author hpost
  exact ⟨hpost, latest, hlatest, ⟨state, hstate, hevent rfl⟩, hiff⟩

/-- A second edit of the sample post, made elsewhere. -/
def sampleOtherEdit : Event :=
  { kind := EventKind.SOCIAL_POST, flags := 1, contentLen := 2, timestamp := 6
    author := toLex (1, 1), parentAux := some 1, contentHash := blake3 [0, 68] }

def sampleOtherEditPayload : VerifiedEventContent :=
  ⟨⟨.ofEvent sampleOtherEdit, some [0, 68]⟩, by decide⟩

def sampleFork : List Op :=
  [.ingest [.payload samplePayload 7 {}, .payload sampleEditPayload 8 {},
    .payload sampleOtherEditPayload 9 {}]]

/-- **The older of two edits is shown**, because its id is smaller. -/
theorem fork_shows_older :
    let db := reached sampleEnv sampleFork
    db.ev.events.get 1 = some samplePost ∧
      latestSocialPostVersionTx db.proj samplePost.author 1 = some 4 ∧
      ¬IsNewestVersion db samplePost.author 1 4 := by
  intro db
  refine ⟨by decide +kernel, by decide +kernel, fun h => ?_⟩
  have hrows : db.proj.socialPostsReplacedBy = {(toLex (1, 1), 1, 4), (toLex (1, 1), 1, 6)} := by
    decide +kernel
  have hrow : ReplacedBy db.proj.socialPostsReplacedBy samplePost.author 1 6 := by
    unfold ReplacedBy
    rw [hrows]
    decide
  have hleaf : IsLeaf (ReplacedBy db.proj.socialPostsReplacedBy samplePost.author) 6 := by
    intro next hnext
    unfold ReplacedBy at hnext
    rw [hrows] at hnext
    simp at hnext
  have hle := h.newest 6 (.single hrow) hleaf
  exact absurd hle (by decide +kernel)

end Sample

end Rostra.Db
