/-
# The follow reducer converges

For one author and one followee the four follow tables are a function of the SET of follow and
unfollow events that were processed, whatever the order: the newest unfollow is the boundary of the
current epoch, and the follows behind it are the epoch (`liveFollows`).

* `FollowState S p a f` says what the four tables hold for the pair `(a, f)` when `S` was processed.
* `FollowState.follow` and `FollowState.unfollow` are the two steps: one more event, early or late.
  The follow reducer reads the start of the epoch from the history table, so its five branches all
  come down to where the least and the greatest element of the epoch are.
* The history is pruned in batches; `pruneFollowEventsThroughTx_eq` says that the batches add up.

The state that a set of events defines is written down first (`FollowState`), without any order of arrival. Then
one more event is added on the side of the set, on the side of the record, and on the side of the tables, and the
three are shown to agree.
-/
import Rostra.Proofs.Reduction

namespace Rostra.Db

open Rostra Outcome

/-! ## 1. The state a set of events defines

Two orders have to be told apart: that of the payloads, which is the order of arrival and does not matter, and that
of the events, by time and id, which does. -/

/-- A follow or an unfollow, as the reducer is given it. -/
structure FollowEvent where
  author : RostraId
  order : EventOrder
  content : Follow

/-- The orders at which `a` stopped following `f`. -/
def unfollows (S : Set FollowEvent) (a f : RostraId) : Set EventOrder :=
  {o | ∃ x ∈ S, x.author = a ∧ x.content.followee = f ∧ x.content.isUnfollow = true ∧ x.order = o}

/-- The current epoch: the follows after every unfollow. -/
def liveFollows (S : Set FollowEvent) (a f : RostraId) : Set FollowEvent :=
  {x | x ∈ S ∧ x.author = a ∧ x.content.followee = f ∧ x.content.isUnfollow = false ∧
    ∀ u ∈ unfollows S a f, u < x.order}

/-- The orders of the current epoch. -/
def liveOrders (S : Set FollowEvent) (a f : RostraId) : Set EventOrder :=
  FollowEvent.order '' liveFollows S a f

/-- **What the four tables hold** for one pair, as a function of the processed set: the boundary is the newest
unfollow, the history is the live epoch, the record names its winner, and the reverse row is there with it. -/
structure FollowState (S : Set FollowEvent) (p : FollowPart) (a f : RostraId) : Prop where
  unfollowed : match p.unfollowed.get (a, f) with
    | some r => IsGreatest (unfollows S a f) (toLex (r.ts, r.eventId))
    | none => unfollows S a f = ∅
  history : ∀ o, (a, f, o) ∈ p.followEvents ↔ o ∈ liveOrders S a f
  followee : match p.followees.get (a, f) with
    | some r => ∃ x ∈ liveFollows S a f, IsGreatest (liveOrders S a f) x.order ∧
        toLex (r.latestTs, r.latestEventId) = x.order ∧ r.selector = x.content.selector ∧
        r.tagsSelector = x.content.personaTagsSelector ∧
        ∃ o, IsLeast (liveOrders S a f) o ∧ r.firstTs = (ofLex o).1
    | none => liveFollows S a f = ∅
  follower : (f, a) ∈ p.followers ↔ (p.followees.get (a, f)).isSome = true

theorem followState_empty (a f : RostraId) : FollowState ∅ (followPart {}) a f := by
  refine ⟨?_, ?_, ?_, ?_⟩
  · simp [followPart, unfollows]
  · intro o
    simp [followPart, liveOrders, liveFollows]
  · simp [followPart, liveFollows]
  · simp [followPart]

/-! ## 2. Pruning in batches

The history behind a new boundary is deleted in batches of a fixed size, from the bottom. The loop ends with a
batch that is not full. -/

/-- The rows of the history that a pruning loop keeps. -/
def keptRows (rows : Finset (RostraId × RostraId × EventOrder)) (a f : RostraId) (o : EventOrder) :
    Finset (RostraId × RostraId × EventOrder) :=
  rows.filter fun k => ¬(k.1 = a ∧ k.2.1 = f ∧ k.2.2 ≤ o)

theorem mem_followOrders {p : Projections} {a f : RostraId} {o : EventOrder} :
    o ∈ followOrders p a f ↔ (a, f, o) ∈ p.idsFollowEvents := by
  unfold followOrders
  rw [Finset.mem_image]
  constructor
  · rintro ⟨⟨a', f', o'⟩, hk, ho⟩
    obtain ⟨hrow, ha, hf⟩ := Finset.mem_filter.mp hk
    cases ha
    cases hf
    cases ho
    exact hrow
  · intro h
    exact ⟨(a, f, o), Finset.mem_filter.mpr ⟨h, rfl, rfl⟩, rfl⟩

theorem pruneFollowEventsLoop_eq (a f : RostraId) (o : EventOrder) :
    ∀ (fuel : ℕ) (p : Projections), p.idsFollowEvents.card < fuel →
      pruneFollowEventsLoop a f o fuel p =
        { p with idsFollowEvents := keptRows p.idsFollowEvents a f o } := by
  intro fuel
  induction fuel with
  | zero =>
    intro p h
    omega
  | succ fuel ih =>
    intro p h
    unfold pruneFollowEventsLoop
    extract_lets keys pruned
    have hkey : ∀ k ∈ keys, (a, f, k) ∈ p.idsFollowEvents ∧ k ≤ o := by
      intro k hk
      obtain ⟨hmem, hle⟩ := Finset.mem_filter.mp (Table.mem_of_mem_firstKeys _ _ hk)
      exact ⟨mem_followOrders.mp hmem, hle⟩
    have hmem : ∀ row, row ∈ pruned.idsFollowEvents ↔
        row ∈ p.idsFollowEvents ∧ ∀ k ∈ keys, row ≠ (a, f, k) := by
      intro row
      show row ∈ _ \ _ ↔ _
      simp [Finset.mem_sdiff, eq_comm]
    split
    · next hshort =>
      -- a batch that is not full has seen the whole range
      refine congrArg (fun rows => { p with idsFollowEvents := rows }) ?_
      ext row
      obtain ⟨a', f', o'⟩ := row
      refine (hmem _).trans ?_
      unfold keptRows
      rw [Finset.mem_filter]
      refine and_congr_right fun hrow => ?_
      constructor
      · rintro hno ⟨rfl, rfl, hle⟩
        have hin := Table.firstKeys_short _ _ hshort o'
          (Finset.mem_filter.mpr ⟨mem_followOrders.mpr hrow, hle⟩)
        exact hno o' hin rfl
      · intro hno k hk heq
        cases heq
        exact hno ⟨rfl, rfl, (hkey o' hk).2⟩
    · next hfull =>
      have hne : keys ≠ [] := by
        intro hnil
        rw [hnil] at hfull
        exact hfull (by decide)
      obtain ⟨k, hk⟩ := List.exists_mem_of_ne_nil keys hne
      have hlt : pruned.idsFollowEvents.card < p.idsFollowEvents.card := by
        refine Finset.card_lt_card ⟨fun row hrow => ((hmem row).mp hrow).1, fun hsub => ?_⟩
        exact ((hmem _).mp (hsub (hkey k hk).1)).2 k hk rfl
      rw [ih pruned (by omega)]
      refine congrArg (fun rows => { p with idsFollowEvents := rows }) ?_
      ext row
      unfold keptRows
      rw [Finset.mem_filter, Finset.mem_filter, hmem]
      constructor
      · rintro ⟨⟨hrow, -⟩, hkeep⟩
        exact ⟨hrow, hkeep⟩
      · rintro ⟨hrow, hkeep⟩
        refine ⟨⟨hrow, fun k hk heq => hkeep ?_⟩, hkeep⟩
        rw [heq]
        exact ⟨rfl, rfl, (hkey k hk).2⟩

/-- **The batches add up**: what is left is the history behind the boundary. The induction is on the fuel, and a
batch that is not full has taken everything. -/
theorem pruneFollowEventsThroughTx_eq (p : Projections) (a f : RostraId) (o : EventOrder) :
    pruneFollowEventsThroughTx p a f o =
      { p with idsFollowEvents := keptRows p.idsFollowEvents a f o } :=
  pruneFollowEventsLoop_eq a f o _ p (Nat.lt_succ_self _)

/-! ## 3. One more event, on the side of the sets

Elementary facts on how the boundary and the epoch move. Whether the event was there before does not matter. -/

section Sets

variable {S : Set FollowEvent} {x : FollowEvent} {a f : RostraId}

/-- Does the event concern this pair? -/
def FollowEvent.Concerns (x : FollowEvent) (a f : RostraId) : Prop :=
  x.author = a ∧ x.content.followee = f

theorem mem_unfollows_insert {o : EventOrder} : o ∈ unfollows (insert x S) a f ↔
    o ∈ unfollows S a f ∨ (x.Concerns a f ∧ x.content.isUnfollow = true ∧ x.order = o) := by
  constructor
  · rintro ⟨y, rfl | hy, ha, hf, hu, ho⟩
    · exact .inr ⟨⟨ha, hf⟩, hu, ho⟩
    · exact .inl ⟨y, hy, ha, hf, hu, ho⟩
  · rintro (⟨y, hy, ha, hf, hu, ho⟩ | ⟨⟨ha, hf⟩, hu, ho⟩)
    · exact ⟨y, .inr hy, ha, hf, hu, ho⟩
    · exact ⟨x, .inl rfl, ha, hf, hu, ho⟩

/-- Only an unfollow of the pair moves its boundary. -/
theorem unfollows_insert_of_not (h : ¬(x.Concerns a f ∧ x.content.isUnfollow = true)) :
    unfollows (insert x S) a f = unfollows S a f := by
  ext o
  rw [mem_unfollows_insert]
  constructor
  · rintro (ho | ⟨hc, hu, -⟩)
    · exact ho
    · exact absurd ⟨hc, hu⟩ h
  · exact .inl

theorem unfollows_insert_unfollow (hc : x.Concerns a f) (hu : x.content.isUnfollow = true) :
    unfollows (insert x S) a f = insert x.order (unfollows S a f) := by
  ext o
  rw [mem_unfollows_insert, Set.mem_insert_iff]
  constructor
  · rintro (ho | ⟨-, -, ho⟩)
    · exact .inr ho
    · exact .inl ho.symm
  · rintro (ho | ho)
    · exact .inr ⟨hc, hu, ho.symm⟩
    · exact .inl ho

/-- An event of another pair, or a follow at or before the boundary, leaves the epoch alone. -/
theorem liveFollows_insert_of_not (hu : ¬(x.Concerns a f ∧ x.content.isUnfollow = true))
    (hx : x.Concerns a f → ∃ u ∈ unfollows S a f, x.order ≤ u) :
    liveFollows (insert x S) a f = liveFollows S a f := by
  ext y
  simp only [liveFollows, unfollows_insert_of_not hu, Set.mem_ofPred_eq]
  constructor
  · rintro ⟨rfl | hy, ha, hf, hn, hlate⟩
    · obtain ⟨u, hu, hle⟩ := hx ⟨ha, hf⟩
      exact absurd (hlate u hu) (not_lt.mpr hle)
    · exact ⟨hy, ha, hf, hn, hlate⟩
  · rintro ⟨hy, hrest⟩
    exact ⟨.inr hy, hrest⟩

/-- A follow behind the boundary joins the epoch. -/
theorem liveFollows_insert_follow (hc : x.Concerns a f) (hn : x.content.isUnfollow = false)
    (hlate : ∀ u ∈ unfollows S a f, u < x.order) :
    liveFollows (insert x S) a f = insert x (liveFollows S a f) := by
  have hu : ¬(x.Concerns a f ∧ x.content.isUnfollow = true) := by
    rintro ⟨-, hu⟩
    rw [hn] at hu
    cases hu
  ext y
  simp only [liveFollows, unfollows_insert_of_not hu, Set.mem_ofPred_eq, Set.mem_insert_iff]
  constructor
  · rintro ⟨rfl | hy, hrest⟩
    · exact .inl rfl
    · exact .inr ⟨hy, hrest⟩
  · rintro (rfl | ⟨hy, hrest⟩)
    · exact ⟨.inl rfl, hc.1, hc.2, hn, hlate⟩
    · exact ⟨.inr hy, hrest⟩

/-- An unfollow cuts the epoch. -/
theorem liveFollows_insert_unfollow (hc : x.Concerns a f) (hu : x.content.isUnfollow = true) :
    liveFollows (insert x S) a f = {y | y ∈ liveFollows S a f ∧ x.order < y.order} := by
  ext y
  simp only [liveFollows, unfollows_insert_unfollow hc hu, Set.mem_ofPred_eq, Set.mem_insert_iff,
    forall_eq_or_imp]
  constructor
  · rintro ⟨rfl | hy, ha, hf, hn, hlt, hlate⟩
    · exact absurd hlt (lt_irrefl _)
    · exact ⟨⟨hy, ha, hf, hn, hlate⟩, hlt⟩
  · rintro ⟨⟨hy, ha, hf, hn, hlate⟩, hlt⟩
    exact ⟨.inr hy, ha, hf, hn, hlt, hlate⟩

theorem mem_liveOrders_unfollow (hc : x.Concerns a f) (hu : x.content.isUnfollow = true)
    {o : EventOrder} : o ∈ liveOrders (insert x S) a f ↔ o ∈ liveOrders S a f ∧ x.order < o := by
  unfold liveOrders
  rw [liveFollows_insert_unfollow hc hu]
  constructor
  · rintro ⟨y, ⟨hy, hlt⟩, rfl⟩
    exact ⟨⟨y, hy, rfl⟩, hlt⟩
  · rintro ⟨⟨y, hy, rfl⟩, hlt⟩
    exact ⟨y, ⟨hy, hlt⟩, rfl⟩

theorem liveOrders_insert_follow (hc : x.Concerns a f) (hn : x.content.isUnfollow = false)
    (hlate : ∀ u ∈ unfollows S a f, u < x.order) :
    liveOrders (insert x S) a f = insert x.order (liveOrders S a f) := by
  rw [liveOrders, liveFollows_insert_follow hc hn hlate, Set.image_insert_eq, liveOrders]

end Sets

/-! ## 4. One more event, on the side of the record

The record of a followed pair is a function of the epoch: its winner, with what the winner selects, and the time of its
earliest follow.  A follow that nothing in the epoch is behind becomes the winner; an older one can only be a new
start; an unfollow that the winner is behind moves the start, and any other one ends the epoch. -/

section Epochs

variable {S : Set FollowEvent} {p : FollowPart} {x : FollowEvent} {a f : RostraId} {r : IdsFolloweesRecord}
  {m o : EventOrder}

/-- The record names the winner of the epoch, what it selects, and the time of the earliest follow. -/
def EpochRecord (S : Set FollowEvent) (a f : RostraId) (r : IdsFolloweesRecord) : Prop :=
  ∃ x ∈ liveFollows S a f, IsGreatest (liveOrders S a f) x.order ∧
    toLex (r.latestTs, r.latestEventId) = x.order ∧ r.selector = x.content.selector ∧
    r.tagsSelector = x.content.personaTagsSelector ∧ ∃ o, IsLeast (liveOrders S a f) o ∧ r.firstTs = (ofLex o).1

theorem FollowState.epoch (h : FollowState S p a f) (hr : p.followees.get (a, f) = some r) : EpochRecord S a f r := by
  have hrow := h.followee
  rw [hr] at hrow
  exact hrow

theorem FollowState.noEpoch (h : FollowState S p a f) (hr : p.followees.get (a, f) = none) :
    liveFollows S a f = ∅ := by
  have hrow := h.followee
  rw [hr] at hrow
  exact hrow

theorem EpochRecord.latest_mem (h : EpochRecord S a f r) : toLex (r.latestTs, r.latestEventId) ∈ liveOrders S a f := by
  obtain ⟨y, -, hgreat, hlatest, -⟩ := h
  rw [hlatest]
  exact hgreat.1

theorem EpochRecord.le_latest (h : EpochRecord S a f r) (ho : o ∈ liveOrders S a f) :
    o ≤ toLex (r.latestTs, r.latestEventId) := by
  obtain ⟨y, -, hgreat, hlatest, -⟩ := h
  rw [hlatest]
  exact hgreat.2 ho

/-- **The newest follow** is the winner, and the start is the least of the epoch it joins. -/
theorem EpochRecord.newest (hc : x.Concerns a f) (hn : x.content.isUnfollow = false)
    (hlate : ∀ u ∈ unfollows S a f, u < x.order) (hnewest : ∀ o ∈ liveOrders S a f, o ≤ x.order)
    (hleast : IsLeast (liveOrders (insert x S) a f) m) :
    EpochRecord (insert x S) a f ⟨(ofLex x.order).1, (ofLex x.order).2, (ofLex m).1, x.content.selector,
      x.content.personaTagsSelector⟩ := by
  have hin : x ∈ liveFollows (insert x S) a f := by
    rw [liveFollows_insert_follow hc hn hlate]
    exact .inl rfl
  refine ⟨x, hin, ⟨⟨x, hin, rfl⟩, ?_⟩, rfl, rfl, rfl, m, hleast, rfl⟩
  rw [liveOrders_insert_follow hc hn hlate]
  rintro o (rfl | ho)
  · exact le_refl _
  · exact hnewest o ho

/-- **An older follow** leaves the winner alone. It can only be the new start. -/
theorem EpochRecord.older (h : EpochRecord S a f r) (hc : x.Concerns a f) (hn : x.content.isUnfollow = false)
    (hlate : ∀ u ∈ unfollows S a f, u < x.order) (hle : x.order ≤ toLex (r.latestTs, r.latestEventId))
    (hleast : IsLeast (liveOrders (insert x S) a f) m) :
    EpochRecord (insert x S) a f { r with firstTs := (ofLex m).1 } := by
  obtain ⟨y, hy, hgreat, hlatest, hsel, htags, -⟩ := h
  have hy' : y ∈ liveFollows (insert x S) a f := by
    rw [liveFollows_insert_follow hc hn hlate]
    exact .inr hy
  refine ⟨y, hy', ⟨⟨y, hy', rfl⟩, ?_⟩, hlatest, hsel, htags, m, hleast, rfl⟩
  rw [liveOrders_insert_follow hc hn hlate]
  rintro o (rfl | ho)
  · exact hle.trans_eq hlatest
  · exact hgreat.2 ho

/-- **An unfollow before the winner** leaves it alone, and takes away the part of the epoch before it. -/
theorem EpochRecord.cut (h : EpochRecord S a f r) (hc : x.Concerns a f) (hu : x.content.isUnfollow = true)
    (hlt : x.order < toLex (r.latestTs, r.latestEventId)) (hleast : IsLeast (liveOrders (insert x S) a f) m) :
    EpochRecord (insert x S) a f { r with firstTs := (ofLex m).1 } := by
  obtain ⟨y, hy, hgreat, hlatest, hsel, htags, -⟩ := h
  have hy' : y ∈ liveFollows (insert x S) a f := by
    rw [liveFollows_insert_unfollow hc hu]
    exact ⟨hy, hlt.trans_eq hlatest⟩
  have hgreat' : IsGreatest (liveOrders (insert x S) a f) y.order :=
    ⟨⟨y, hy', rfl⟩, fun o ho => hgreat.2 ((mem_liveOrders_unfollow hc hu).mp ho).1⟩
  exact ⟨y, hy', hgreat', hlatest, hsel, htags, m, hleast, rfl⟩

/-- **An unfollow from the winner on** ends the epoch, since nothing in it is behind its winner. -/
theorem EpochRecord.ended (h : EpochRecord S a f r) (hc : x.Concerns a f) (hu : x.content.isUnfollow = true)
    (hge : ¬x.order < toLex (r.latestTs, r.latestEventId)) : liveFollows (insert x S) a f = ∅ := by
  rw [liveFollows_insert_unfollow hc hu]
  ext z
  constructor
  · rintro ⟨hz, hlt⟩
    exact absurd (hlt.trans_le (h.le_latest ⟨z, hz, rfl⟩)) hge
  · exact fun hz => hz.elim

end Epochs

/-! ## 5. One more event, on the side of the tables

The reducers read the record, the boundary and the history, and write at most all three. What they read is
rephrased in terms of the set, and section 4 says what the record has to become. -/

/-- The two sides of one pair in two states. -/
structure SameAt (p p' : FollowPart) (a f : RostraId) : Prop where
  unfollowed : p'.unfollowed.get (a, f) = p.unfollowed.get (a, f)
  history : ∀ o, (a, f, o) ∈ p'.followEvents ↔ (a, f, o) ∈ p.followEvents
  followee : p'.followees.get (a, f) = p.followees.get (a, f)
  follower : (f, a) ∈ p'.followers ↔ (f, a) ∈ p.followers

theorem FollowState.congr {S S' : Set FollowEvent} {p p' : FollowPart} {a f : RostraId}
    (h : FollowState S p a f) (hp : SameAt p p' a f) (hu : unfollows S' a f = unfollows S a f)
    (hl : liveFollows S' a f = liveFollows S a f) : FollowState S' p' a f := by
  have ho : liveOrders S' a f = liveOrders S a f := by rw [liveOrders, hl, liveOrders]
  refine ⟨?_, ?_, ?_, ?_⟩
  · rw [hp.unfollowed, hu]
    exact h.unfollowed
  · intro o
    rw [hp.history, ho]
    exact h.history o
  · rw [hp.followee, hl, ho]
    exact h.followee
  · rw [hp.follower, hp.followee]
    exact h.follower

/-- **The start of an epoch** is read from the history, past its boundary. The table may still hold rows before the
boundary when this is read. -/
theorem firstFollowTsAfterTx_eq {p : Projections} {a f : RostraId} {boundary : Option EventOrder}
    {T : Set EventOrder} (hT : ∀ o, (a, f, o) ∈ p.idsFollowEvents ↔ o ∈ T)
    (hb : ∀ u, boundary = some u → ∀ o ∈ T, u < o) (hne : T.Nonempty) :
    ∃ m, IsLeast T m ∧ firstFollowTsAfterTx p a f boundary = some (ofLex m).1 := by
  have hmem : ∀ o, o ∈ Table.beyond (followOrders p a f) boundary ↔ o ∈ T := by
    intro o
    rw [Table.mem_beyond, mem_followOrders, hT]
    constructor
    · exact fun h => h.1
    · exact fun h => ⟨h, fun u hu => hb u hu o h⟩
  unfold firstFollowTsAfterTx Table.nextAfter
  cases hl : Table.least (Table.beyond (followOrders p a f) boundary) with
  | none =>
    obtain ⟨o, ho⟩ := hne
    have hin := (hmem o).mpr ho
    rw [Table.least_none hl] at hin
    simp at hin
  | some m =>
    refine ⟨m, ⟨(hmem m).mp (Table.least_mem hl), fun o ho => ?_⟩, rfl⟩
    exact Table.least_le hl ((hmem o).mpr ho)

/-- The boundary as the reducers read it, against the unfollows. -/
theorem FollowState.boundary {S : Set FollowEvent} {p : Projections} {a f : RostraId}
    (h : FollowState S (followPart p) a f) (o : EventOrder) :
    ((p.idsUnfollowed.get (a, f)).map fun r => toLex (r.ts, r.eventId)).any (o ≤ ·) = true ↔
      ∃ u ∈ unfollows S a f, o ≤ u := by
  have hu := h.unfollowed
  change match p.idsUnfollowed.get (a, f) with | some r => _ | none => _ at hu
  cases hg : p.idsUnfollowed.get (a, f) with
  | none =>
    rw [hg] at hu
    simp [show unfollows S a f = ∅ from hu]
  | some r =>
    rw [hg] at hu
    have hu : IsGreatest (unfollows S a f) (toLex (r.ts, r.eventId)) := hu
    simp only [Option.map_some, Option.any_some, decide_eq_true_eq]
    constructor
    · exact fun hle => ⟨_, hu.1, hle⟩
    · rintro ⟨u, hmem, hle⟩
      exact hle.trans (hu.2 hmem)

/-- The recorded boundary is one of the unfollows. -/
theorem FollowState.boundary_mem {S : Set FollowEvent} {p : Projections} {a f : RostraId}
    (h : FollowState S (followPart p) a f) {u : EventOrder}
    (hb : (p.idsUnfollowed.get (a, f)).map (fun r => toLex (r.ts, r.eventId)) = some u) :
    u ∈ unfollows S a f := by
  have hu := h.unfollowed
  change match p.idsUnfollowed.get (a, f) with | some r => _ | none => _ at hu
  cases hg : p.idsUnfollowed.get (a, f) with
  | none =>
    rw [hg] at hb
    cases hb
  | some r =>
    rw [hg] at hu hb
    cases hb
    exact hu.1

/-- What the reducers find behind the boundary is behind every unfollow. -/
theorem FollowState.behind {S : Set FollowEvent} {p : Projections} {a f : RostraId}
    (h : FollowState S (followPart p) a f) {o : EventOrder}
    (hnew : ¬((p.idsUnfollowed.get (a, f)).map fun r => toLex (r.ts, r.eventId)).any (o ≤ ·) = true) :
    ∀ u ∈ unfollows S a f, u < o := by
  intro u hu
  by_contra hle
  exact hnew ((h.boundary o).mpr ⟨u, hu, not_lt.mp hle⟩)

/-- Follows and unfollows of one pair leave the rows of every other pair alone. -/
theorem insertFollowTx_other (p : Projections) (x : FollowEvent) {a f : RostraId}
    (hc : ¬x.Concerns a f) :
    SameAt (followPart p) (followPart (insertFollowTx p x.author x.order x.content).1) a f := by
  have hkey : (a, f) ≠ (x.author, x.content.followee) := by
    intro h
    cases h
    exact hc ⟨rfl, rfl⟩
  have hrow : ∀ o, (a, f, o) ≠ (x.author, x.content.followee, x.order) := by
    intro o h
    cases h
    exact hc ⟨rfl, rfl⟩
  have hback : (f, a) ≠ (x.content.followee, x.author) := by
    intro h
    cases h
    exact hc ⟨rfl, rfl⟩
  unfold insertFollowTx
  dsimp only
  split
  · exact ⟨rfl, fun _ => Iff.rfl, rfl, Iff.rfl⟩
  have hhist : ∀ o, (a, f, o) ∈ insert (x.author, x.content.followee, x.order) p.idsFollowEvents ↔
      (a, f, o) ∈ p.idsFollowEvents := fun o => by simp [hrow o]
  have hfol : (f, a) ∈ insert (x.content.followee, x.author) p.idsFollowers ↔
      (f, a) ∈ p.idsFollowers := by simp [hback]
  split
  · split
    · split
      · exact ⟨rfl, hhist, rfl, Iff.rfl⟩
      · exact ⟨rfl, hhist, Table.get_insert_of_ne _ _ hkey, Iff.rfl⟩
    · exact ⟨rfl, hhist, Table.get_insert_of_ne _ _ hkey, hfol⟩
  · exact ⟨rfl, hhist, Table.get_insert_of_ne _ _ hkey, hfol⟩

theorem insertUnfollowTx_other (p : Projections) (x : FollowEvent) {a f : RostraId}
    (hc : ¬x.Concerns a f) : SameAt (followPart p)
      (followPart (insertUnfollowTx p x.author x.order x.content.followee).1) a f := by
  have hkey : (a, f) ≠ (x.author, x.content.followee) := by
    intro h
    cases h
    exact hc ⟨rfl, rfl⟩
  have hback : (f, a) ≠ (x.content.followee, x.author) := by
    intro h
    cases h
    exact hc ⟨rfl, rfl⟩
  unfold insertUnfollowTx
  dsimp only
  split
  · exact ⟨rfl, fun _ => Iff.rfl, rfl, Iff.rfl⟩
  rw [pruneFollowEventsThroughTx_eq]
  have hhist : ∀ o, (a, f, o) ∈ keptRows p.idsFollowEvents x.author x.content.followee x.order ↔
      (a, f, o) ∈ p.idsFollowEvents := by
    intro o
    unfold keptRows
    rw [Finset.mem_filter]
    constructor
    · exact fun h => h.1
    · exact fun h => ⟨h, fun hk => hc ⟨hk.1.symm, hk.2.1.symm⟩⟩
  have hfol : (f, a) ∈ p.idsFollowers.erase (x.content.followee, x.author) ↔
      (f, a) ∈ p.idsFollowers := by simp [hback]
  split
  · split
    · exact ⟨Table.get_insert_of_ne _ _ hkey, hhist, Table.get_insert_of_ne _ _ hkey, Iff.rfl⟩
    · exact ⟨Table.get_insert_of_ne _ _ hkey, hhist, Table.get_remove_of_ne _ hkey, hfol⟩
  · exact ⟨Table.get_insert_of_ne _ _ hkey, hhist, Table.get_remove_of_ne _ hkey, hfol⟩

/-- **One more follow**, on time, late, or behind its own epoch. The cases are those of the reducer: no epoch yet,
a new winner, an older one, and a follow before the boundary. -/
theorem FollowState.follow {S : Set FollowEvent} {p : Projections} {x : FollowEvent}
    (h : FollowState S (followPart p) x.author x.content.followee)
    (hn : x.content.isUnfollow = false) : FollowState (insert x S)
      (followPart (insertFollowTx p x.author x.order x.content).1) x.author x.content.followee := by
  have hc : x.Concerns x.author x.content.followee := ⟨rfl, rfl⟩
  have hnu : ¬(x.Concerns x.author x.content.followee ∧ x.content.isUnfollow = true) := by
    rintro ⟨-, hu⟩
    rw [hn] at hu
    cases hu
  unfold insertFollowTx
  dsimp only
  split
  · next hold =>
    -- at or before the boundary: the event belongs to no epoch that matters
    exact h.congr ⟨rfl, fun _ => Iff.rfl, rfl, Iff.rfl⟩ (unfollows_insert_of_not hnu)
      (liveFollows_insert_of_not hnu fun _ => (h.boundary x.order).mp hold)
  next hnew =>
  have hlate := h.behind hnew
  have horders := liveOrders_insert_follow hc hn hlate
  have hunf := unfollows_insert_of_not (S := S) hnu
  have hhist : ∀ o, (x.author, x.content.followee, o) ∈
      insert (x.author, x.content.followee, x.order) p.idsFollowEvents ↔
        o ∈ liveOrders (insert x S) x.author x.content.followee := by
    intro o
    rw [horders, Finset.mem_insert, Set.mem_insert_iff]
    refine or_congr ?_ (h.history o)
    simp
  have hpast : ∀ u, (p.idsUnfollowed.get (x.author, x.content.followee)).map
      (fun r => toLex (r.ts, r.eventId)) = some u →
        ∀ o ∈ liveOrders (insert x S) x.author x.content.followee, u < o := by
    rintro u hu o ⟨y, hy, rfl⟩
    have hmem := h.boundary_mem hu
    rw [← hunf] at hmem
    exact hy.2.2.2.2 u hmem
  have hin : x.order ∈ liveOrders (insert x S) x.author x.content.followee := by
    rw [horders]
    exact .inl rfl
  -- the start of the epoch, as every branch below reads it
  obtain ⟨m, hleast, hfirst⟩ := firstFollowTsAfterTx_eq (p := { p with
    idsFollowEvents := insert (x.author, x.content.followee, x.order) p.idsFollowEvents })
    hhist hpast ⟨x.order, hin⟩
  have hunfollowed := h.unfollowed
  rw [← hunf] at hunfollowed
  -- the new winner replaces whatever record there was
  have hwinner : (∀ o ∈ liveOrders S x.author x.content.followee, o ≤ x.order) →
      FollowState (insert x S) (followPart { p with
        idsFollowEvents := insert (x.author, x.content.followee, x.order) p.idsFollowEvents
        idsFollowees := p.idsFollowees.insert (x.author, x.content.followee)
          ⟨(ofLex x.order).1, (ofLex x.order).2, (ofLex m).1, x.content.selector, x.content.personaTagsSelector⟩
        idsFollowers := insert (x.content.followee, x.author) p.idsFollowers }) x.author x.content.followee := by
    intro hnewest
    refine ⟨hunfollowed, hhist, ?_, ?_⟩
    · rw [followPart, Table.get_insert_self]
      exact EpochRecord.newest hc hn hlate hnewest hleast
    · simp [followPart]
  cases hex : p.idsFollowees.get (x.author, x.content.followee) with
  | none =>
    dsimp only
    rw [hfirst]
    refine hwinner fun o ho => ?_
    rw [liveOrders, h.noEpoch hex, Set.image_empty] at ho
    exact ho.elim
  | some r =>
    have hepoch := h.epoch hex
    dsimp only
    rw [hfirst]
    split
    · next hle =>
      -- an older follow can only move the start of the epoch
      have holder := hepoch.older hc hn hlate hle hleast
      dsimp only [Option.getD_some]
      split
      · next hsame =>
        rw [hsame] at holder
        refine ⟨hunfollowed, hhist, ?_, h.follower⟩
        show match p.idsFollowees.get (x.author, x.content.followee) with
          | some r => _ | none => _
        rw [hex]
        exact holder
      · refine ⟨hunfollowed, hhist, ?_, ?_⟩
        · rw [followPart, Table.get_insert_self]
          exact holder
        · rw [followPart, Table.get_insert_self]
          refine h.follower.trans ?_
          simp [followPart, hex]
    · next hgt => exact hwinner fun o ho => (hepoch.le_latest ho).trans (not_le.mp hgt).le

/-- An unfollow at or before the boundary neither moves it nor cuts the epoch. -/
theorem FollowState.unfollow_old {S : Set FollowEvent} {p : FollowPart} {x : FollowEvent} {a f : RostraId}
    (h : FollowState S p a f) (hc : x.Concerns a f) (hu : x.content.isUnfollow = true)
    (hold : ∃ u ∈ unfollows S a f, x.order ≤ u) : FollowState (insert x S) p a f := by
  obtain ⟨u, hmem, hle⟩ := hold
  have hlive : liveFollows (insert x S) a f = liveFollows S a f := by
    rw [liveFollows_insert_unfollow hc hu]
    ext y
    constructor
    · exact fun hy => hy.1
    · exact fun hy => ⟨hy, hle.trans_lt (hy.2.2.2.2 u hmem)⟩
  have horders : liveOrders (insert x S) a f = liveOrders S a f := by rw [liveOrders, hlive, liveOrders]
  refine ⟨?_, ?_, ?_, h.follower⟩
  · have hrow := h.unfollowed
    cases hg : p.unfollowed.get (a, f) with
    | none =>
      rw [hg] at hrow
      rw [show unfollows S a f = ∅ from hrow] at hmem
      cases hmem
    | some r =>
      rw [hg] at hrow
      have hgreat : IsGreatest (unfollows S a f) (toLex (r.ts, r.eventId)) := hrow
      rw [unfollows_insert_unfollow hc hu]
      refine ⟨.inr hgreat.1, ?_⟩
      rintro o (rfl | ho)
      · exact hle.trans (hgreat.2 hmem)
      · exact hgreat.2 ho
  · intro o
    rw [horders]
    exact h.history o
  · rw [hlive, horders]
    exact h.followee

/-- **One more unfollow**, at the end of an epoch, inside one, or before the boundary. Only one behind the boundary
moves it. -/
theorem FollowState.unfollow {S : Set FollowEvent} {p : Projections} {x : FollowEvent}
    (h : FollowState S (followPart p) x.author x.content.followee)
    (hu : x.content.isUnfollow = true) : FollowState (insert x S)
      (followPart (insertUnfollowTx p x.author x.order x.content.followee).1)
      x.author x.content.followee := by
  have hc : x.Concerns x.author x.content.followee := ⟨rfl, rfl⟩
  unfold insertUnfollowTx
  dsimp only
  split
  · next hold => exact h.unfollow_old hc hu ((h.boundary x.order).mp hold)
  next hnew =>
  have hlate := h.behind hnew
  have hgreatest : IsGreatest (unfollows (insert x S) x.author x.content.followee) x.order := by
    rw [unfollows_insert_unfollow hc hu]
    refine ⟨.inl rfl, ?_⟩
    rintro o (rfl | ho)
    · exact le_refl _
    · exact (hlate o ho).le
  have hhist : ∀ o, (x.author, x.content.followee, o) ∈
      keptRows p.idsFollowEvents x.author x.content.followee x.order ↔
        o ∈ liveOrders (insert x S) x.author x.content.followee := by
    intro o
    rw [mem_liveOrders_unfollow hc hu, keptRows, Finset.mem_filter]
    refine and_congr (h.history o) ?_
    simp
  rw [pruneFollowEventsThroughTx_eq]
  dsimp only
  -- with the epoch gone, the pair has no rows but the boundary
  have hgone : liveFollows (insert x S) x.author x.content.followee = ∅ →
      FollowState (insert x S) (followPart { p with
        idsUnfollowed := p.idsUnfollowed.insert (x.author, x.content.followee)
          ⟨(ofLex x.order).1, (ofLex x.order).2⟩
        idsFollowEvents := keptRows p.idsFollowEvents x.author x.content.followee x.order
        idsFollowees := p.idsFollowees.remove (x.author, x.content.followee)
        idsFollowers := p.idsFollowers.erase (x.content.followee, x.author) })
        x.author x.content.followee := by
    intro hempty
    refine ⟨?_, hhist, ?_, ?_⟩
    · rw [followPart, Table.get_insert_self]
      exact hgreatest
    · rw [followPart, Table.get_remove_self]
      exact hempty
    · simp [followPart]
  cases hex : p.idsFollowees.get (x.author, x.content.followee) with
  | none =>
    refine hgone ?_
    rw [liveFollows_insert_unfollow hc hu, h.noEpoch hex]
    simp
  | some r =>
    have hepoch := h.epoch hex
    dsimp only
    split
    · next hlt =>
      -- the winner outlives the unfollow, and the epoch starts later
      have hpast : ∀ u, some x.order = some u →
          ∀ o ∈ liveOrders (insert x S) x.author x.content.followee, u < o := by
        intro u hu' o ho
        cases hu'
        exact ((mem_liveOrders_unfollow hc hu).mp ho).2
      obtain ⟨m, hleast, hfirst⟩ := firstFollowTsAfterTx_eq (p := { p with
        idsUnfollowed := p.idsUnfollowed.insert (x.author, x.content.followee)
          ⟨(ofLex x.order).1, (ofLex x.order).2⟩
        idsFollowEvents := keptRows p.idsFollowEvents x.author x.content.followee x.order })
        hhist hpast ⟨_, (mem_liveOrders_unfollow hc hu).mpr ⟨hepoch.latest_mem, hlt⟩⟩
      rw [hfirst]
      refine ⟨?_, hhist, ?_, ?_⟩
      · rw [followPart, Table.get_insert_self]
        exact hgreatest
      · rw [followPart, Table.get_insert_self]
        exact hepoch.cut hc hu hlt hleast
      · rw [followPart, Table.get_insert_self]
        refine h.follower.trans ?_
        simp [followPart, hex]
    · next hge => exact hgone (hepoch.ended hc hu hge)

/-! ## 6. Any order of payloads

The induction over the payloads. A payload that is no follow leaves the tables alone, and one that does not decode
is ignored. -/

section Runs

variable [Primitives]

/-- The follow or unfollow of a payload, with its author and its place in the order. -/
def followEventOf (c : EventContent) : Option FollowEvent :=
  (followOf c).map fun f => ⟨c.event.event.author, orderOf c, f⟩

/-- The follows and unfollows among some payloads. -/
def followEventsOf (items : List (EventContent × Timestamp)) : Set FollowEvent :=
  {x | ∃ i ∈ items, followEventOf i.1 = some x}

/-- A follow that decodes is never refused. -/
theorem processEventContentInsertedTx_follow (env : Env) (ctx : TxCtx) (p : Projections)
    {c : EventContent} (now : Timestamp) {f : Follow} (hf : followOf c = some f) :
    processEventContentInsertedTx env ctx p c now =
      .ok (insertSingletonTx (reduceFollow p c f) c.event ⟨c.event.id, none⟩) := by
  unfold followOf at hf
  split at hf
  · next hk =>
    have hdm : ¬(c.event.event.kind = EventKind.DM_DEVICE ∨
        c.event.event.kind = EventKind.DIRECT_MESSAGE) := by
      rcases hk with hk | hk
      · rw [hk]
        decide
      · rw [hk]
        decide
    have hkind : processKindTx env ctx p c now = processFollowTx p c := by
      unfold processKindTx
      dsimp only
      rw [if_neg hdm, if_pos hk]
    unfold processEventContentInsertedTx
    rw [hkind, processFollowTx, hf]
    rfl
  · cases hf

/-- **What one payload does to the follow tables**: the reducer runs once for a follow, and for
nothing else. -/
theorem followPart_commit (env : Env) (ctx : TxCtx) (p : Projections) (c : EventContent)
    (now : Timestamp) :
    followPart (commit (processEventContentInsertedTx env ctx p c now) p) =
      followPart ((followOf c).elim p (reduceFollow p c)) := by
  have hsingle : ∀ (q : Projections) (r : EventSingletonRecord),
      followPart (insertSingletonTx q c.event r) = followPart q := by
    intro q r
    unfold insertSingletonTx
    split
    · rfl
    · rfl
  cases hf : followOf c with
  | some f =>
    rw [processEventContentInsertedTx_follow env ctx p now hf, commit_ok, hsingle]
    rfl
  | none =>
    cases hr : processEventContentInsertedTx env ctx p c now with
    | error e => rfl
    | ok p' =>
      have hred := (processEventContentInsertedTx_reduction env ctx p c now).of_ok hr
      rw [commit_ok]
      cases hred with
      | follow f hf' hpost hvote =>
        rw [hf] at hf'
        cases hf'
      | post post replaced p₁ hpost happ hf' hvote =>
        rw [hsingle]
        exact ((applySocialPostTx_beside env ctx p c post replaced now).of_ok happ).follows
      | vote vote hvote p₁ happ hf' hpost =>
        obtain ⟨s, rfl⟩ := (processSocialVoteTx_frame p vote _ _).of_ok happ
        rw [hsingle]
        rfl
      | nothing hf' hpost hvote => rfl
      | other p₁ h hf' hpost hkind =>
        rw [hsingle]
        exact h.follows

/-- **One more payload**, of any kind. The pair that it concerns takes a step, every other one keeps its tables. -/
theorem FollowState.payload {S : Set FollowEvent} {p : Projections} (env : Env) (ctx : TxCtx)
    (c : EventContent) (now : Timestamp) (h : ∀ a f, FollowState S (followPart p) a f)
    (a f : RostraId) :
    FollowState {x | x ∈ S ∨ followEventOf c = some x}
      (followPart (commit (processEventContentInsertedTx env ctx p c now) p)) a f := by
  rw [followPart_commit]
  cases hf : followOf c with
  | none =>
    have hset : {x | x ∈ S ∨ followEventOf c = some x} = S := by
      ext x
      simp [followEventOf, hf]
    rw [hset]
    exact h a f
  | some fol =>
    have hset : {x | x ∈ S ∨ followEventOf c = some x} =
        insert ⟨c.event.event.author, orderOf c, fol⟩ S := by
      ext x
      simp [followEventOf, hf, or_comm, eq_comm]
    rw [hset]
    show FollowState _ (followPart (reduceFollow p c fol)) a f
    unfold reduceFollow
    by_cases hc : FollowEvent.Concerns ⟨c.event.event.author, orderOf c, fol⟩ a f
    · obtain ⟨rfl, rfl⟩ := hc
      split
      · next hu => exact (h _ _).unfollow hu
      · next hu => exact (h _ _).follow (Bool.eq_false_iff.mpr hu)
    · have hnot : ∀ b : Prop,
          ¬(FollowEvent.Concerns ⟨c.event.event.author, orderOf c, fol⟩ a f ∧ b) := fun b hb => hc hb.1
      split
      · exact (h a f).congr (insertUnfollowTx_other p ⟨_, orderOf c, fol⟩ hc)
          (unfollows_insert_of_not (hnot _)) (liveFollows_insert_of_not (hnot _) fun h => absurd h hc)
      · exact (h a f).congr (insertFollowTx_other p ⟨_, orderOf c, fol⟩ hc)
          (unfollows_insert_of_not (hnot _)) (liveFollows_insert_of_not (hnot _) fun h => absurd h hc)

/-- Every state of a run of payloads is the one its follows define. -/
theorem projectAll_followState (env : Env) (ctx : TxCtx) (items : List (EventContent × Timestamp)) :
    ∀ a f, FollowState (followEventsOf items) (followPart (projectAll env ctx items)) a f := by
  induction items using List.reverseRecOn with
  | nil =>
    intro a f
    have hset : followEventsOf [] = ∅ := by
      ext x
      simp [followEventsOf]
    rw [hset]
    exact followState_empty a f
  | append_singleton items i ih =>
    intro a f
    have hset : followEventsOf (items ++ [i]) =
        {x | x ∈ followEventsOf items ∨ followEventOf i.1 = some x} := by
      ext x
      simp [followEventsOf, or_and_right, exists_or]
    rw [hset, projectAll, run_append]
    exact FollowState.payload env ctx i.1 i.2 ih a f

omit [Primitives] in
/-- The tables of one pair are determined by the set, if no two follows share their place. -/
theorem FollowState.unique {S : Set FollowEvent} {p p' : FollowPart} {a f : RostraId}
    (h : FollowState S p a f) (h' : FollowState S p' a f)
    (hdist : ∀ x ∈ S, ∀ y ∈ S, x.order = y.order → x = y) : SameAt p p' a f := by
  have hfollowee : p'.followees.get (a, f) = p.followees.get (a, f) := by
    have hr := h.followee
    have hr' := h'.followee
    cases hg : p.followees.get (a, f) with
    | none =>
      rw [hg] at hr
      cases hg' : p'.followees.get (a, f) with
      | none => rfl
      | some r' =>
        rw [hg'] at hr'
        obtain ⟨x, hx, -⟩ := hr'
        rw [show liveFollows S a f = ∅ from hr] at hx
        cases hx
    | some r =>
      rw [hg] at hr
      obtain ⟨x, hx, hgreat, hlatest, hsel, htags, o, hmin, hts⟩ := hr
      cases hg' : p'.followees.get (a, f) with
      | none =>
        rw [hg'] at hr'
        rw [show liveFollows S a f = ∅ from hr'] at hx
        cases hx
      | some r' =>
        rw [hg'] at hr'
        obtain ⟨y, hy, hgreat', hlatest', hsel', htags', o', hmin', hts'⟩ := hr'
        have hxy : y = x := hdist y hy.1 x hx.1 (hgreat'.unique hgreat)
        have ho : o' = o := hmin'.unique hmin
        subst hxy ho
        rw [← hlatest] at hlatest'
        cases r
        cases r'
        simp only [EmbeddingLike.apply_eq_iff_eq, Prod.mk.injEq] at hlatest'
        simp_all
  refine ⟨?_, ?_, hfollowee, ?_⟩
  · have hu := h.unfollowed
    have hu' := h'.unfollowed
    cases hg : p.unfollowed.get (a, f) with
    | none =>
      rw [hg] at hu
      cases hg' : p'.unfollowed.get (a, f) with
      | none => rfl
      | some r' =>
        rw [hg'] at hu'
        have hmem := (show IsGreatest (unfollows S a f) _ from hu').1
        rw [show unfollows S a f = ∅ from hu] at hmem
        cases hmem
    | some r =>
      rw [hg] at hu
      have hgreat : IsGreatest (unfollows S a f) (toLex (r.ts, r.eventId)) := hu
      cases hg' : p'.unfollowed.get (a, f) with
      | none =>
        rw [hg'] at hu'
        have hmem := hgreat.1
        rw [show unfollows S a f = ∅ from hu'] at hmem
        cases hmem
      | some r' =>
        rw [hg'] at hu'
        have hgreat' : IsGreatest (unfollows S a f) (toLex (r'.ts, r'.eventId)) := hu'
        have heq := hgreat'.unique hgreat
        cases r
        cases r'
        simpa using heq
  · intro o
    rw [h.history, h'.history]
  · rw [h.follower, h'.follower, hfollowee]

omit [Primitives] in
/-- Two follow tables that agree on every pair are the same. -/
theorem followPart_ext {p p' : FollowPart} (h : ∀ a f, SameAt p p' a f) : p' = p := by
  obtain ⟨u, v, w, x⟩ := p
  obtain ⟨u', v', w', x'⟩ := p'
  have hu : u' = u := Table.ext fun k => (h k.1 k.2).followee
  have hx : x' = x := Table.ext fun k => (h k.1 k.2).unfollowed
  have hv : v' = v := by
    ext k
    exact (h k.2 k.1).follower
  have hw : w' = w := by
    ext k
    exact (h k.1 k.2.1).history k.2.2
  rw [hu, hv, hw, hx]

/-- **Follow convergence.**  After any list of payloads, in any order, the four tables of every pair
are those that the set of follows and unfollows among them defines; any other list with the same
follows and unfollows, processed elsewhere and at other times, leaves the same four tables. -/
theorem follows_converge (env env' : Env) (ctx ctx' : TxCtx)
    (items items' : List (EventContent × Timestamp)) (hdist : DistinctPayloads items)
    (hsame : followEventsOf items' = followEventsOf items) :
    (∀ a f, FollowState (followEventsOf items) (followPart (projectAll env ctx items)) a f) ∧
      followPart (projectAll env' ctx' items') = followPart (projectAll env ctx items) := by
  have hstate := projectAll_followState env ctx items
  refine ⟨hstate, followPart_ext fun a f => ?_⟩
  have hstate' := projectAll_followState env' ctx' items' a f
  rw [hsame] at hstate'
  refine (hstate a f).unique hstate' ?_
  rintro x ⟨i, hi, hx⟩ y ⟨j, hj, hy⟩ hord
  obtain ⟨f₁, -, hx₁⟩ := Option.map_eq_some_iff.mp hx
  obtain ⟨f₂, -, hy₁⟩ := Option.map_eq_some_iff.mp hy
  rw [← hx₁, ← hy₁] at hord
  rw [hdist.of_order hi hj hord] at hx
  exact Option.some.inj (hx.symm.trans hy)

end Runs

/-! ## 7. A late unfollow

Three events in two orders. -/

section Sample

/-- Follows of two bytes: the followee, and the persona followed, if any. -/
@[reducible] def followPrimitives : Primitives where
  __ := Primitives.reference
  cborFollow
    | [followee, persona] => some
        { followee := toLex (0, followee.toNat)
          persona := if persona = 0 then none else some persona.toNat }
    | _ => none

attribute [local instance] followPrimitives

def sampleFollow (ts : Timestamp) (persona : UInt8) : EventContent :=
  ⟨.ofEvent { kind := EventKind.FOLLOW, contentLen := 2, timestamp := ts, author := toLex (1, 1)
              contentHash := blake3 [2, persona] }, some [2, persona]⟩

/-- Two follows with an unfollow between them, and the same three backwards. -/
def sampleFollows : List (EventContent × Timestamp) :=
  [(sampleFollow 10 3, 90), (sampleFollow 20 0, 91), (sampleFollow 30 4, 92)]

def sampleFollowsBackwards : List (EventContent × Timestamp) :=
  [(sampleFollow 30 4, 80), (sampleFollow 20 0, 81), (sampleFollow 10 3, 82)]

/-- Three events in one order and in the opposite one. -/
theorem follows_converge_sampleFollows :
    (projectAll sampleEnv {} sampleFollows).idsFollowees.get (toLex (1, 1), toLex (0, 2)) =
        some ⟨30, (sampleFollow 30 4).event.id, 30, some (.only [4]), none⟩ ∧
      followPart (projectAll sampleEnv {} sampleFollowsBackwards) =
        followPart (projectAll sampleEnv {} sampleFollows) := by
  refine ⟨by decide +kernel, (follows_converge sampleEnv sampleEnv {} {} sampleFollows
    sampleFollowsBackwards ?_ ?_).2⟩
  · have hids : (sampleFollows.map fun i => i.1.event.id).Nodup := by decide +kernel
    intro i hi j hj hid
    rw [List.inj_on_of_nodup_map hids hi hj hid]
  · ext x
    simp only [followEventsOf, sampleFollows, sampleFollowsBackwards, List.mem_cons,
      List.not_mem_nil, or_false, exists_eq_or_imp, exists_eq_left, Set.mem_ofPred_eq]
    tauto

end Sample

end Rostra.Db
