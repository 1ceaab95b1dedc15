/-
# The vote aggregate equals the retained winners

A vote is written in two halves: `process_social_vote_tx` moves the running sums of the targets by
differences, and the row of the winner is written afterwards by the general singleton reducer.  The
row is keyed by the SHORT id of the target, which two targets can share, so a new winner may take
its score away from one aggregate and give it to another.

* `VoteState S p` says what the two tables hold after the well-shaped votes `S`: every row is the
  newest vote of its voter and key, and every sum is what the rows give.
* `VoteState.vote` is the step; the sums never leave the range of `i64` because each voter
  contributes at most one unit to each target.

The two halves of a write are seen apart in one place only: in the difference of what the row was and what it
becomes. In every state between transactions they agree.
-/
import Mathlib.Algebra.Order.BigOperators.Group.Finset
import Mathlib.Algebra.Order.Group.Int
import Mathlib.Data.Set.Card
import Rostra.Lib.Index
import Rostra.Proofs.Reduction

namespace Rostra.Db

open Rostra Outcome

/-! ## 1. What the rows give

Votes compete for a row by voter and by the short id of the target; a sum belongs to a full id. So the sum of a
target goes over all voters whose row happens to name that target. -/

/-- A well-shaped vote, with its voter and its place in the order. -/
structure VoteEvent where
  voter : RostraId
  order : EventOrder
  vote : SocialVoteProjection

/-- The votes of one voter that compete for one row. -/
def ballots (S : Set VoteEvent) (voter : RostraId) (key : EventAuxKey) : Set VoteEvent :=
  {x | x ∈ S ∧ x.voter = voter ∧ socialVoteAuxKey x.vote.target = key}

/-- The orders of those votes. -/
def ballotOrders (S : Set VoteEvent) (voter : RostraId) (key : EventAuxKey) : Set EventOrder :=
  VoteEvent.order '' ballots S voter key

abbrev SingletonRows := Table (RostraId × EventKind × EventAuxKey) (Latest EventSingletonRecord)

/-- The retained row of one voter. -/
def voteRow (rows : SingletonRows) (voter : RostraId) (key : EventAuxKey) :
    Option (Latest EventSingletonRecord) :=
  rows.get (voter, EventKind.SOCIAL_VOTE, key)

/-- Who has a retained row under a shortened key. -/
def voters (rows : SingletonRows) (key : EventAuxKey) : Finset RostraId :=
  (rows.keys.filter fun k => k.2 = (EventKind.SOCIAL_VOTE, key)).image Prod.fst

/-- What a row contributes to one full target. -/
def scoreFor (t : ExternalEventId) (row : Option (Latest EventSingletonRecord)) : ℤ :=
  match row.bind fun r => r.inner.socialVote with
  | some vote => if vote.target = t then vote.value.score else 0
  | none => 0

/-- The sum over the voters whose row has the target `t` itself. -/
def retainedSum (rows : SingletonRows) (t : ExternalEventId) : ℤ :=
  ∑ voter ∈ voters rows (socialVoteAuxKey t), scoreFor t (voteRow rows voter (socialVoteAuxKey t))

/-- The running sum of a target; a target without a row was never voted for. -/
def currentSum (sums : Table ExternalEventId SocialVoteSumRecord) (t : ExternalEventId) : ℤ :=
  ((sums.get t).map (·.currentSum)).getD 0

/-- **What the two tables hold**, as a function of the processed votes: each row is the newest of its ballots, and
each sum is what the rows give. -/
structure VoteState (S : Set VoteEvent) (p : VotePart) : Prop where
  row : ∀ voter key, match voteRow p.singletons voter key with
    | some r => ∃ x ∈ ballots S voter key, IsGreatest (ballotOrders S voter key) x.order ∧
        toLex (r.ts, r.inner.eventId) = x.order ∧ r.inner.socialVote = some x.vote
    | none => ballots S voter key = ∅
  sum : ∀ t, currentSum p.sums t = retainedSum p.singletons t

theorem mem_voters {rows : SingletonRows} {key : EventAuxKey} {a : RostraId} :
    a ∈ voters rows key ↔ ∃ r, voteRow rows a key = some r := by
  unfold voters voteRow
  rw [Finset.mem_image]
  constructor
  · rintro ⟨⟨a', kind, key'⟩, hk, ha⟩
    obtain ⟨hmem, heq⟩ := Finset.mem_filter.mp hk
    cases heq
    cases ha
    exact Table.mem_keys.mp hmem
  · rintro ⟨r, hr⟩
    exact ⟨_, Finset.mem_filter.mpr ⟨Table.mem_keys_of_get hr, rfl⟩, rfl⟩

theorem voteState_empty : VoteState ∅ (votePart {}) := by
  have hrow : ∀ voter key, voteRow (votePart {}).singletons voter key = none := by
    intro voter key
    simp [voteRow, votePart]
  refine ⟨fun voter key => ?_, fun t => ?_⟩
  · rw [hrow]
    simp [ballots]
  · have hnone : voters (votePart {}).singletons (socialVoteAuxKey t) = ∅ := by
      refine Finset.eq_empty_of_forall_notMem fun a ha => ?_
      obtain ⟨r, hr⟩ := mem_voters.mp ha
      rw [hrow] at hr
      cases hr
    rw [retainedSum, hnone]
    simp [currentSum, votePart]

/-! ## 2. Writing a row

A finite sum in which one term changes. No order of the voters is involved. -/

/-- **A written row** moves each target by the difference of the two rows. Only one voter under one key changes its
term. -/
theorem retainedSum_insert (rows : SingletonRows) (a : RostraId) (key : EventAuxKey)
    (r : Latest EventSingletonRecord) (t : ExternalEventId) :
    retainedSum (rows.insert (a, EventKind.SOCIAL_VOTE, key) r) t =
      if socialVoteAuxKey t = key then
        retainedSum rows t - scoreFor t (voteRow rows a key) + scoreFor t (some r)
      else retainedSum rows t := by
  have hget : ∀ a' key', voteRow (rows.insert (a, EventKind.SOCIAL_VOTE, key) r) a' key' =
      if a' = a ∧ key' = key then some r else voteRow rows a' key' := by
    intro a' key'
    unfold voteRow
    rw [Table.get_insert]
    simp
  have hvoters : ∀ key', voters (rows.insert (a, EventKind.SOCIAL_VOTE, key) r) key' =
      if key' = key then insert a (voters rows key') else voters rows key' := by
    intro key'
    ext a'
    rw [mem_voters, hget]
    by_cases hk : key' = key
    · by_cases ha : a' = a
      · simp [hk, ha]
      · simp [hk, ha, mem_voters]
    · simp [hk, mem_voters]
  unfold retainedSum
  rw [hvoters]
  split
  · next hk =>
    have hfun : (fun voter => scoreFor t (voteRow (rows.insert (a, EventKind.SOCIAL_VOTE, key) r)
        voter (socialVoteAuxKey t))) = Function.update
          (fun voter => scoreFor t (voteRow rows voter (socialVoteAuxKey t))) a
          (scoreFor t (some r)) := by
      funext voter
      rw [hget, Function.update_apply]
      by_cases hv : voter = a
      · simp [hv, hk]
      · simp [hv]
    rw [hfun, Index.sum_insert_update, hk]
    intro hout
    have hnone : voteRow rows a (socialVoteAuxKey t) = none := by
      cases hr : voteRow rows a (socialVoteAuxKey t) with
      | none => rfl
      | some r' => exact absurd (mem_voters.mpr ⟨r', hr⟩) hout
    rw [hnone]
    rfl
  · next hk =>
    refine Finset.sum_congr rfl fun voter _ => ?_
    rw [hget, if_neg fun h => hk h.2]

theorem abs_scoreFor_le (t : ExternalEventId) (row : Option (Latest EventSingletonRecord)) :
    |scoreFor t row| ≤ 1 := by
  unfold scoreFor
  split
  · next vote _ =>
    split
    · cases vote.value <;> decide
    · decide
  · decide

/-- No target is moved by more than the number of voters. -/
theorem abs_retainedSum_le (rows : SingletonRows) (t : ExternalEventId) :
    |retainedSum rows t| ≤ (voters rows (socialVoteAuxKey t)).card := by
  unfold retainedSum
  refine (Finset.abs_sum_le_sum_abs _ _).trans ?_
  refine (Finset.sum_le_card_nsmul _ _ 1 fun voter _ => abs_scoreFor_le t _).trans ?_
  simp

/-! ## 3. Moving the sums

The code saturates at the ends of the range of 64-bit integers. Saturation does not commute with addition, so that
it has to be excluded, before the difference and after it. -/

/-- Inside the range of `i64` nothing saturates. -/
theorem satI64_eq {x : ℤ} (h : |x| < 2 ^ 63) : satI64 x = x := by
  obtain ⟨hlo, hhi⟩ := abs_lt.mp h
  unfold satI64
  omega

theorem currentSum_adjust (o : EventOrder) (sums : Table ExternalEventId SocialVoteSumRecord)
    (target t : ExternalEventId) (d : ℤ) (h : |currentSum sums target + d| < 2 ^ 63) :
    currentSum (adjustVoteSum o sums (target, d)) t =
      currentSum sums t + if t = target then d else 0 := by
  unfold adjustVoteSum
  dsimp only
  split
  · next hd => simp [hd]
  · unfold currentSum
    rw [Table.get_insert]
    by_cases ht : t = target
    · rw [if_pos ht, if_pos ht, ht]
      have hcur : ((sums.get target).getD ⟨0, 0⟩).currentSum = currentSum sums target := by
        unfold currentSum
        cases sums.get target with
        | none => rfl
        | some r => rfl
      simp only [Option.map_some, Option.getD_some, hcur]
      exact satI64_eq h
    · rw [if_neg ht, if_neg ht, add_zero]

/-- What a vote is worth for a target. -/
def voteScore (t : ExternalEventId) (vote : SocialVoteProjection) : ℤ :=
  if vote.target = t then vote.value.score else 0

theorem scoreFor_some {t : ExternalEventId} {r : Latest EventSingletonRecord}
    {vote : SocialVoteProjection} (h : r.inner.socialVote = some vote) :
    scoreFor t (some r) = voteScore t vote := by
  simp [scoreFor, voteScore, h]

/-- The score the previous winner had. -/
def previousScore (t : ExternalEventId) (previous : Option SocialVoteProjection) : ℤ :=
  previous.elim 0 (voteScore t)

/-- **The adjustments** replace the previous winner by the new one, in every target, as long as the
sums stay in range with and without the voter. -/
theorem currentSum_adjustments (o : EventOrder) (sums : Table ExternalEventId SocialVoteSumRecord)
    (previous : Option SocialVoteProjection) (vote : SocialVoteProjection)
    (hwithout : ∀ t, |currentSum sums t - previousScore t previous| < 2 ^ 63)
    (hwith : ∀ t, |currentSum sums t - previousScore t previous + voteScore t vote| < 2 ^ 63)
    (t : ExternalEventId) :
    currentSum ((voteAdjustments previous vote).foldl (adjustVoteSum o) sums) t =
      currentSum sums t - previousScore t previous + voteScore t vote := by
  have hv := hwith vote.target
  cases previous with
  | none =>
    simp only [previousScore, Option.elim_none, sub_zero, voteScore, if_pos] at hv
    simp only [voteAdjustments, List.foldl_cons, List.foldl_nil]
    rw [currentSum_adjust o sums vote.target t _ hv]
    simp [previousScore, voteScore, eq_comm]
  | some old =>
    unfold voteAdjustments
    dsimp only
    by_cases hsame : old.target = vote.target
    · -- one target: the difference of the two scores
      simp only [previousScore, Option.elim_some, voteScore, hsame, if_pos] at hv
      rw [if_pos hsame, List.foldl_cons, List.foldl_nil,
        currentSum_adjust o sums vote.target t _ (by rw [add_sub]; convert hv using 2; omega)]
      simp only [previousScore, Option.elim_some, voteScore, hsame, eq_comm]
      split
      · omega
      · omega
    · -- two targets: the old one gives its score back first
      have hold := hwithout old.target
      simp only [previousScore, Option.elim_some, voteScore, if_pos] at hold
      rw [if_neg hsame, List.foldl_cons, List.foldl_cons, List.foldl_nil]
      have hfirst := fun t => currentSum_adjust o sums old.target t (-old.value.score)
        (by rw [← sub_eq_add_neg]; exact hold)
      have hzero : ¬vote.target = old.target := fun h => hsame h.symm
      simp only [previousScore, Option.elim_some, voteScore, if_neg hsame, sub_zero, if_pos] at hv
      rw [currentSum_adjust o _ vote.target t _ (by rw [hfirst, if_neg hzero, add_zero]; exact hv),
        hfirst]
      simp only [previousScore, Option.elim_some, voteScore, eq_comm]
      split
      · split
        · omega
        · omega
      · split
        · omega
        · omega

/-! ## 4. One more vote

It is the newest of its voter and key, or it is not. -/

section Step

variable {S : Set VoteEvent} {x : VoteEvent}

theorem mem_ballots_insert {voter : RostraId} {key : EventAuxKey} {y : VoteEvent} :
    y ∈ ballots (insert x S) voter key ↔ y ∈ ballots S voter key ∨
      (y = x ∧ x.voter = voter ∧ socialVoteAuxKey x.vote.target = key) := by
  constructor
  · rintro ⟨rfl | hy, hv, hk⟩
    · exact .inr ⟨rfl, hv, hk⟩
    · exact .inl ⟨hy, hv, hk⟩
  · rintro (⟨hy, hv, hk⟩ | ⟨rfl, hv, hk⟩)
    · exact ⟨.inr hy, hv, hk⟩
    · exact ⟨.inl rfl, hv, hk⟩

theorem ballots_insert_self : ballots (insert x S) x.voter (socialVoteAuxKey x.vote.target) =
    insert x (ballots S x.voter (socialVoteAuxKey x.vote.target)) := by
  ext y
  rw [mem_ballots_insert, Set.mem_insert_iff]
  simp [or_comm]

theorem ballots_insert_other {voter : RostraId} {key : EventAuxKey}
    (h : ¬(voter = x.voter ∧ key = socialVoteAuxKey x.vote.target)) :
    ballots (insert x S) voter key = ballots S voter key := by
  ext y
  rw [mem_ballots_insert]
  constructor
  · rintro (hy | ⟨-, hv, hk⟩)
    · exact hy
    · exact absurd ⟨hv.symm, hk.symm⟩ h
  · exact .inl

/-- Whatever is written into the voter's row, no sum leaves the range. -/
theorem VoteState.abs_insert_lt {p : VotePart} (h : VoteState S p) (hfin : S.Finite)
    (hbound : (insert x S).ncard < 2 ^ 63) (key : EventAuxKey) (r : Latest EventSingletonRecord)
    (t : ExternalEventId) :
    |retainedSum (p.singletons.insert (x.voter, EventKind.SOCIAL_VOTE, key) r) t| < 2 ^ 63 := by
  have hsub : (voters (p.singletons.insert (x.voter, EventKind.SOCIAL_VOTE, key) r)
      (socialVoteAuxKey t) : Set RostraId) ⊆ VoteEvent.voter '' insert x S := by
    intro a ha
    obtain ⟨r', hr'⟩ := mem_voters.mp ha
    unfold voteRow at hr'
    rw [Table.get_insert] at hr'
    split at hr'
    · next heq =>
      cases heq
      exact ⟨x, .inl rfl, rfl⟩
    · have hrow := h.row a (socialVoteAuxKey t)
      rw [voteRow, hr'] at hrow
      obtain ⟨y, hy, -⟩ := hrow
      exact ⟨y, .inr hy.1, hy.2.1⟩
  have hfin' : (insert x S).Finite := hfin.insert x
  have hcard : (voters (p.singletons.insert (x.voter, EventKind.SOCIAL_VOTE, key) r)
      (socialVoteAuxKey t)).card ≤ (insert x S).ncard := by
    rw [← Set.ncard_coe_finset]
    exact (Set.ncard_le_ncard hsub (hfin'.image _)).trans (Set.ncard_image_le hfin')
  have habs := abs_retainedSum_le
    (p.singletons.insert (x.voter, EventKind.SOCIAL_VOTE, key) r) t
  omega

/-- The newest vote of a voter takes the row, the sums follow. -/
theorem VoteState.wins {p : VotePart} (h : VoteState S p) (hfin : S.Finite)
    (hbound : (insert x S).ncard < 2 ^ 63) (previous : Option SocialVoteProjection)
    (hprev : (voteRow p.singletons x.voter (socialVoteAuxKey x.vote.target)).bind
      (fun r => r.inner.socialVote) = previous)
    (hnewest : ∀ o ∈ ballotOrders S x.voter (socialVoteAuxKey x.vote.target), o ≤ x.order) :
    VoteState (insert x S) ⟨(voteAdjustments previous x.vote).foldl (adjustVoteSum x.order) p.sums,
      p.singletons.insert (x.voter, EventKind.SOCIAL_VOTE, socialVoteAuxKey x.vote.target)
        ⟨(ofLex x.order).1, ⟨(ofLex x.order).2, some x.vote⟩⟩⟩ := by
  have hscore : ∀ t, scoreFor t
      (voteRow p.singletons x.voter (socialVoteAuxKey x.vote.target)) =
        previousScore t previous := by
    intro t
    unfold scoreFor previousScore
    rw [hprev]
    cases previous with
    | none => rfl
    | some old => rfl
  have hzero : ∀ t, socialVoteAuxKey t ≠ socialVoteAuxKey x.vote.target →
      previousScore t previous = 0 ∧ voteScore t x.vote = 0 := by
    intro t ht
    refine ⟨?_, if_neg fun heq => ht (by rw [heq])⟩
    rw [← hscore t]
    unfold scoreFor
    rw [hprev]
    cases previous with
    | none => rfl
    | some old =>
      have hrow := h.row x.voter (socialVoteAuxKey x.vote.target)
      cases hr : voteRow p.singletons x.voter (socialVoteAuxKey x.vote.target) with
      | none =>
        rw [hr] at hprev
        cases hprev
      | some r =>
        rw [hr] at hrow hprev
        obtain ⟨y, hy, -, -, hvote⟩ := hrow
        rw [Option.bind_some, hvote] at hprev
        cases hprev
        exact if_neg fun heq => ht (by rw [← heq]; exact hy.2.2)
  -- the sums with another row, or with none that counts, in place of the voter's
  have hwrite : ∀ (r : Latest EventSingletonRecord) t,
      retainedSum (p.singletons.insert
        (x.voter, EventKind.SOCIAL_VOTE, socialVoteAuxKey x.vote.target) r) t =
        if socialVoteAuxKey t = socialVoteAuxKey x.vote.target then
          currentSum p.sums t - previousScore t previous + scoreFor t (some r)
        else currentSum p.sums t := by
    intro r t
    rw [retainedSum_insert, hscore, h.sum]
  have hnew : ∀ t, retainedSum (p.singletons.insert
      (x.voter, EventKind.SOCIAL_VOTE, socialVoteAuxKey x.vote.target)
        ⟨(ofLex x.order).1, ⟨(ofLex x.order).2, some x.vote⟩⟩) t =
      currentSum p.sums t - previousScore t previous + voteScore t x.vote := by
    intro t
    rw [hwrite]
    split
    · rw [scoreFor_some rfl]
    · next ht =>
      rw [(hzero t ht).1, (hzero t ht).2]
      omega
  refine ⟨fun voter key => ?_, fun t => ?_⟩
  · by_cases hk : voter = x.voter ∧ key = socialVoteAuxKey x.vote.target
    · obtain ⟨rfl, rfl⟩ := hk
      rw [voteRow, Table.get_insert_self]
      refine ⟨x, ?_, ?_, rfl, rfl⟩
      · rw [ballots_insert_self]
        exact .inl rfl
      · rw [ballotOrders, ballots_insert_self, Set.image_insert_eq]
        refine ⟨.inl rfl, ?_⟩
        rintro o (rfl | ho)
        · exact le_refl _
        · exact hnewest o ho
    · have hne : (voter, EventKind.SOCIAL_VOTE, key) ≠
          (x.voter, EventKind.SOCIAL_VOTE, socialVoteAuxKey x.vote.target) := by
        intro heq
        cases heq
        exact hk ⟨rfl, rfl⟩
      rw [voteRow, Table.get_insert_of_ne _ _ hne, ballotOrders, ballots_insert_other hk]
      exact h.row voter key
  · rw [hnew]
    refine currentSum_adjustments x.order p.sums previous x.vote (fun t => ?_) (fun t => ?_) t
    · have hin := h.abs_insert_lt hfin hbound (socialVoteAuxKey x.vote.target)
        ⟨0, ⟨0, none⟩⟩ t
      rw [hwrite] at hin
      split at hin
      · simpa [scoreFor] using hin
      · next ht =>
        rw [(hzero t ht).1, sub_zero]
        exact hin
    · rw [← hnew]
      exact h.abs_insert_lt hfin hbound _ _ t

/-- A vote that is not the newest changes nothing. -/
theorem VoteState.loses {p : VotePart} (h : VoteState S p) {r : Latest EventSingletonRecord}
    (hr : voteRow p.singletons x.voter (socialVoteAuxKey x.vote.target) = some r)
    (hle : x.order ≤ toLex (r.ts, r.inner.eventId)) : VoteState (insert x S) p := by
  refine ⟨fun voter key => ?_, h.sum⟩
  have hrow := h.row voter key
  by_cases hk : voter = x.voter ∧ key = socialVoteAuxKey x.vote.target
  · obtain ⟨rfl, rfl⟩ := hk
    rw [hr] at hrow ⊢
    obtain ⟨y, hy, hgreat, hord, hvote⟩ := hrow
    rw [hord] at hle
    refine ⟨y, ?_, ?_, hord, hvote⟩
    · rw [ballots_insert_self]
      exact .inr hy
    · rw [ballotOrders, ballots_insert_self, Set.image_insert_eq]
      refine ⟨.inr hgreat.1, ?_⟩
      rintro o (rfl | ho)
      · exact hle
      · exact hgreat.2 ho
  · rw [ballotOrders, ballots_insert_other hk]
    exact hrow

end Step

/-! ## 5. Any order of payloads

Votes of a bad shape are ignored by an explicit test before the row is written, and a payload that does not decode
is as if it were not there. -/

section Runs

variable [Primitives]

/-- The well-shaped vote of a payload, with its voter and its place. -/
def voteEventOf (c : EventContent) : Option VoteEvent :=
  (voteOf c).map fun vote => ⟨c.event.event.author, orderOf c, vote⟩

/-- The well-shaped votes among some payloads. -/
def votesOf (items : List (EventContent × Timestamp)) : Set VoteEvent :=
  {x | ∃ i ∈ items, voteEventOf i.1 = some x}

theorem votesOf_finite (items : List (EventContent × Timestamp)) : (votesOf items).Finite := by
  refine Set.Finite.subset (List.finite_toSet (items.filterMap fun i => voteEventOf i.1)) ?_
  rintro x ⟨i, hi, hx⟩
  exact List.mem_filterMap.mpr ⟨i, hi, hx⟩

/-- The header of a well-shaped vote. -/
theorem voteOf_eq_some {c : EventContent} {vote : SocialVoteProjection}
    (h : voteOf c = some vote) : c.event.event.kind = EventKind.SOCIAL_VOTE ∧
      c.event.event.isSingleton = true ∧ c.event.event.keyAux = socialVoteAuxKey vote.target := by
  unfold voteOf at h
  split at h
  · next hk =>
    obtain ⟨content, -, hshape⟩ := Option.bind_eq_some_iff.mp h
    unfold shapedVote at hshape
    obtain ⟨target, htarget, rfl⟩ := Option.map_eq_some_iff.mp hshape
    obtain ⟨-, hp⟩ := Option.filter_eq_some_iff.mp htarget
    rw [Bool.and_eq_true, decide_eq_true_eq] at hp
    exact ⟨hk, hp.1, hp.2⟩
  · cases h

/-- The singleton row of an event that is no vote is none of a voter's. -/
theorem voteRow_insertSingletonTx (p : Projections) {v : VerifiedEvent} (r : EventSingletonRecord)
    (hk : v.event.kind ≠ EventKind.SOCIAL_VOTE) (voter : RostraId) (key : EventAuxKey) :
    voteRow (insertSingletonTx p v r).eventsSingletonsNew voter key =
      voteRow p.eventsSingletonsNew voter key := by
  have hne : (voter, EventKind.SOCIAL_VOTE, key) ≠ (v.event.author, v.event.kind, v.event.keyAux) := by
    intro heq
    exact hk (congrArg (fun k : RostraId × EventKind × EventAuxKey => k.2.1) heq).symm
  unfold insertSingletonTx voteRow
  split
  · unfold insertLatestValueTx
    dsimp only
    split
    · split
      · rfl
      · exact Table.get_insert_of_ne _ _ hne
    · exact Table.get_insert_of_ne _ _ hne
  · rfl

/-- The row of a vote is a latest value. -/
theorem votePart_insertSingletonTx (p : Projections) {c : EventContent} {vote : SocialVoteProjection}
    (hv : voteOf c = some vote) :
    votePart (insertSingletonTx p c.event ⟨c.event.id, some vote⟩) = ⟨p.socialVoteSums,
      insertLatestValueTx c.event.event.timestamp
        (c.event.event.author, EventKind.SOCIAL_VOTE, socialVoteAuxKey vote.target)
        ⟨c.event.id, some vote⟩ EventSingletonRecord.eventId p.eventsSingletonsNew⟩ := by
  obtain ⟨hkind, hsingle, hkey⟩ := voteOf_eq_some hv
  unfold insertSingletonTx
  rw [if_pos hsingle, hkind, hkey]
  rfl

omit [Primitives] in
/-- The two tables are read through the rows of the voters and the sums. -/
theorem VoteState.congr {S : Set VoteEvent} {p p' : VotePart} (h : VoteState S p)
    (hrow : ∀ voter key, voteRow p'.singletons voter key = voteRow p.singletons voter key)
    (hsums : p'.sums = p.sums) : VoteState S p' := by
  refine ⟨fun voter key => ?_, fun t => ?_⟩
  · rw [hrow]
    exact h.row voter key
  · have hvoters : voters p'.singletons (socialVoteAuxKey t) =
        voters p.singletons (socialVoteAuxKey t) := by
      ext a
      rw [mem_voters, mem_voters, hrow]
    rw [hsums, h.sum]
    unfold retainedSum
    rw [hvoters]
    exact Finset.sum_congr rfl fun voter _ => by rw [hrow]

omit [Primitives] in
/-- The winner of a key is a vote with this key, so its projection is read back. -/
theorem validateSocialVoteProjection_winner {r : EventSingletonRecord} {key : EventAuxKey}
    {vote : SocialVoteProjection} (hvote : r.socialVote = some vote)
    (hkey : socialVoteAuxKey vote.target = key) : validateSocialVoteProjection r key = .ok vote := by
  unfold validateSocialVoteProjection
  rw [hvote]
  simp [hkey]

/-- The row of a voter's key holds a vote under that key. -/
def VoteRows (rows : SingletonRows) : Prop :=
  ∀ voter key r, voteRow rows voter key = some r →
    ∃ vote, r.inner.socialVote = some vote ∧ socialVoteAuxKey vote.target = key

omit [Primitives] in
theorem VoteState.rows {S : Set VoteEvent} {p : VotePart} (h : VoteState S p) :
    VoteRows p.singletons := by
  intro voter key r hr
  have hrow := h.row voter key
  rw [hr] at hrow
  obtain ⟨y, hy, -, -, hvote⟩ := hrow
  exact ⟨y.vote, hvote, hy.2.2⟩

omit [Primitives] in
/-- No vote is refused for what is in the winner's row. -/
theorem VoteRows.accepts {p : Projections} (h : VoteRows p.eventsSingletonsNew) (voter : RostraId)
    (vote : SocialVoteProjection) (o : EventOrder) :
    ∃ p', processSocialVoteTx p vote voter o = .ok p' := by
  unfold processSocialVoteTx
  dsimp only
  cases hr : p.eventsSingletonsNew.get (voter, EventKind.SOCIAL_VOTE,
      socialVoteAuxKey vote.target) with
  | none => exact ⟨_, rfl⟩
  | some r =>
    obtain ⟨vote', hvote, hkey⟩ := h voter _ r hr
    dsimp only
    split
    · exact ⟨_, rfl⟩
    · rw [validateSocialVoteProjection_winner hvote hkey]
      exact ⟨_, rfl⟩

/-- **A vote is taken**: its reducer does not fail, and the two tables follow. It is the newest of its ballots and
replaces the row, or it changes nothing. -/
theorem VoteState.vote {S : Set VoteEvent} {p : Projections} (h : VoteState S (votePart p))
    (hfin : S.Finite) {c : EventContent} {vote : SocialVoteProjection} (hv : voteOf c = some vote)
    (hbound : (insert (⟨c.event.event.author, orderOf c, vote⟩ : VoteEvent) S).ncard < 2 ^ 63) :
    ∃ p', processSocialVoteTx p vote c.event.event.author (orderOf c) = .ok p' ∧
      VoteState (insert ⟨c.event.event.author, orderOf c, vote⟩ S)
        (votePart (insertSingletonTx p' c.event ⟨c.event.id, some vote⟩)) := by
  have hrow := h.row c.event.event.author (socialVoteAuxKey vote.target)
  simp only [votePart_insertSingletonTx _ hv, insertLatestValueTx]
  unfold processSocialVoteTx
  dsimp only
  cases hr : voteRow (votePart p).singletons c.event.event.author (socialVoteAuxKey vote.target) with
  | none =>
    rw [hr] at hrow
    have hempty : ballots S c.event.event.author (socialVoteAuxKey vote.target) = ∅ := hrow
    have hget : p.eventsSingletonsNew.get (c.event.event.author, EventKind.SOCIAL_VOTE,
      socialVoteAuxKey vote.target) = none := hr
    rw [hget]
    refine ⟨_, rfl, ?_⟩
    have hwins := h.wins (x := ⟨c.event.event.author, orderOf c, vote⟩) hfin hbound none
      (by rw [hr]; rfl) (by rw [ballotOrders, hempty]; simp)
    dsimp only
    rw [hget]
    exact hwins
  | some r =>
    rw [hr] at hrow
    obtain ⟨y, hy, hgreat, hord, hvote⟩ := hrow
    have hget : p.eventsSingletonsNew.get (c.event.event.author, EventKind.SOCIAL_VOTE,
      socialVoteAuxKey vote.target) = some r := hr
    rw [hget]
    dsimp only
    by_cases hle : orderOf c ≤ toLex (r.ts, r.inner.eventId)
    · rw [if_pos hle]
      refine ⟨p, rfl, ?_⟩
      have hloses := h.loses (x := ⟨c.event.event.author, orderOf c, vote⟩) hr hle
      rw [hget]
      dsimp only
      rw [if_pos (show toLex (c.event.event.timestamp, c.event.id) ≤ _ from hle)]
      exact hloses
    · rw [if_neg hle]
      rw [validateSocialVoteProjection_winner hvote hy.2.2]
      refine ⟨_, rfl, ?_⟩
      have hwins := h.wins (x := ⟨c.event.event.author, orderOf c, vote⟩) hfin hbound (some y.vote)
        (by rw [hr]; exact hvote) (by
          intro o ho
          rw [hord] at hle
          exact (hgreat.2 ho).trans (not_le.mp hle).le)
      dsimp only
      rw [hget]
      dsimp only
      rw [if_neg (show ¬toLex (c.event.event.timestamp, c.event.id) ≤ _ from hle)]
      exact hwins

/-- A payload of a vote is processed by its own reducer. -/
theorem processKindTx_vote (env : Env) (ctx : TxCtx) (p : Projections) {c : EventContent}
    (now : Timestamp) (hk : c.event.event.kind = EventKind.SOCIAL_VOTE) :
    processKindTx env ctx p c now = processVoteTx p c := by
  unfold processKindTx
  rw [hk]
  rfl

/-- **A payload of a vote is never refused by the database**: it is taken, ignored for its shape, or
found unreadable. -/
theorem VoteRows.no_error {p : Projections} (env : Env) (ctx : TxCtx) {c : EventContent}
    (now : Timestamp) (h : VoteRows p.eventsSingletonsNew)
    (hk : c.event.event.kind = EventKind.SOCIAL_VOTE) (e : DbError) :
    processEventContentInsertedTx env ctx p c now ≠ .error (.db e) := by
  intro he
  unfold processEventContentInsertedTx at he
  rw [processKindTx_vote env ctx p now hk, processVoteTx] at he
  cases hdec : c.socialVote? with
  | none =>
    rw [hdec] at he
    cases he
  | some content =>
    rw [hdec] at he
    cases hshape : shapedVote c.event content with
    | none =>
      simp [decodeOr, hshape, bind, Except.bind, pure, Except.pure] at he
    | some vote =>
      obtain ⟨p', hp'⟩ := h.accepts c.event.event.author vote
        (toLex (c.event.event.timestamp, c.event.id))
      simp [decodeOr, hshape, hp', liftDb, bind, Except.bind, pure, Except.pure] at he

/-- **One more payload**, of any kind. Payloads without a well-shaped vote leave both tables alone. -/
theorem VoteState.payload {S : Set VoteEvent} {p : Projections} (env : Env) (ctx : TxCtx)
    (c : EventContent) (now : Timestamp) (h : VoteState S (votePart p)) (hfin : S.Finite)
    (hbound : {x | x ∈ S ∨ voteEventOf c = some x}.ncard < 2 ^ 63) :
    VoteState {x | x ∈ S ∨ voteEventOf c = some x}
      (votePart (commit (processEventContentInsertedTx env ctx p c now) p)) := by
  have hbeside : ∀ (p' : Projections) (r : EventSingletonRecord), votePart p' = votePart p →
      c.event.event.kind ≠ EventKind.SOCIAL_VOTE →
      VoteState S (votePart (insertSingletonTx p' c.event r)) := by
    intro p' r hp' hk
    refine h.congr (fun voter key => ?_) ?_
    · refine (voteRow_insertSingletonTx p' r hk voter key).trans ?_
      exact congrArg (fun q : VotePart => voteRow q.singletons voter key) hp'
    · refine Eq.trans ?_ (congrArg VotePart.sums hp')
      unfold insertSingletonTx votePart
      split
      · rfl
      · rfl
  cases hv : voteOf c with
  | none =>
    have hset : {x | x ∈ S ∨ voteEventOf c = some x} = S := by
      ext x
      simp [voteEventOf, hv]
    rw [hset]
    cases hr : processEventContentInsertedTx env ctx p c now with
    | error e => exact h
    | ok p' =>
      have hred := (processEventContentInsertedTx_reduction env ctx p c now).of_ok hr
      rw [commit_ok]
      cases hred with
      | follow f hf hpost _ =>
        refine hbeside _ _ ?_ ?_
        · unfold reduceFollow
          split
          · obtain ⟨u, v, w, y, hu⟩ := insertUnfollowTx_frame p c.event.event.author (orderOf c)
              f.followee
            rw [hu]
            rfl
          · obtain ⟨u, v, w, hu⟩ := insertFollowTx_frame p c.event.event.author (orderOf c) f
            rw [hu]
            rfl
        · unfold followOf at hf
          split at hf
          · next hk =>
            rcases hk with hk | hk
            · rw [hk]
              decide
            · rw [hk]
              decide
          · cases hf
      | post post replaced p₁ hpost happ _ _ =>
        refine hbeside p₁ _
          ((applySocialPostTx_beside env ctx p c post replaced now).of_ok happ).votes ?_
        unfold projectedPost at hpost
        split at hpost
        · next hk =>
          rw [hk]
          decide
        · cases hpost
      | vote vote hvote _ _ _ _ =>
        rw [hv] at hvote
        cases hvote
      | nothing _ _ _ => exact h
      | other p₁ hb _ _ hk => exact hbeside p₁ _ hb.votes hk
  | some vote =>
    have hset : {x | x ∈ S ∨ voteEventOf c = some x} =
        insert ⟨c.event.event.author, orderOf c, vote⟩ S := by
      ext x
      simp [voteEventOf, hv, or_comm, eq_comm]
    rw [hset] at hbound ⊢
    obtain ⟨p', hp', hstate⟩ := h.vote hfin hv hbound
    obtain ⟨hk, -, -⟩ := voteOf_eq_some hv
    have hok : processEventContentInsertedTx env ctx p c now =
        .ok (insertSingletonTx p' c.event ⟨c.event.id, some vote⟩) := by
      unfold voteOf at hv
      rw [if_pos hk] at hv
      obtain ⟨content, hcontent, hshape⟩ := Option.bind_eq_some_iff.mp hv
      have hp'' : processSocialVoteTx p vote c.event.event.author
        (toLex (c.event.event.timestamp, c.event.id)) = .ok p' := hp'
      unfold processEventContentInsertedTx
      rw [processKindTx_vote env ctx p now hk, processVoteTx, hcontent]
      simp [decodeOr, hshape, hp'', liftDb, bind, Except.bind, pure, Except.pure]
    rw [hok]
    exact hstate

/-- Every state of a run of payloads is the one its votes define. -/
theorem projectAll_voteState (env : Env) (ctx : TxCtx) (items : List (EventContent × Timestamp))
    (hcount : (votesOf items).ncard < 2 ^ 63) :
    VoteState (votesOf items) (votePart (projectAll env ctx items)) := by
  induction items using List.reverseRecOn with
  | nil =>
    have hset : votesOf [] = ∅ := by
      ext x
      simp [votesOf]
    rw [hset]
    exact voteState_empty
  | append_singleton items i ih =>
    have hset : votesOf (items ++ [i]) =
        {x | x ∈ votesOf items ∨ voteEventOf i.1 = some x} := by
      ext x
      simp [votesOf, or_and_right, exists_or]
    have hsub : votesOf items ⊆ votesOf (items ++ [i]) := by
      rw [hset]
      exact fun x hx => .inl hx
    have hle := Set.ncard_le_ncard hsub (votesOf_finite _)
    have hstate := ih (by omega)
    rw [hset] at hcount ⊢
    rw [projectAll, run_append]
    exact hstate.payload env ctx i.1 i.2 (votesOf_finite items) hcount

omit [Primitives] in
/-- The rows are determined by the set of votes, if no two of them share their place. -/
theorem VoteState.row_unique {S : Set VoteEvent} {p p' : VotePart} (h : VoteState S p)
    (h' : VoteState S p') (hdist : ∀ x ∈ S, ∀ y ∈ S, x.order = y.order → x = y)
    (voter : RostraId) (key : EventAuxKey) :
    voteRow p'.singletons voter key = voteRow p.singletons voter key := by
  have hr := h.row voter key
  have hr' := h'.row voter key
  cases hg : voteRow p.singletons voter key with
  | none =>
    rw [hg] at hr
    cases hg' : voteRow p'.singletons voter key with
    | none => rfl
    | some r' =>
      rw [hg'] at hr'
      obtain ⟨x, hx, -⟩ := hr'
      rw [show ballots S voter key = ∅ from hr] at hx
      cases hx
  | some r =>
    rw [hg] at hr
    obtain ⟨x, hx, hgreat, hord, hvote⟩ := hr
    cases hg' : voteRow p'.singletons voter key with
    | none =>
      rw [hg'] at hr'
      rw [show ballots S voter key = ∅ from hr'] at hx
      cases hx
    | some r' =>
      rw [hg'] at hr'
      obtain ⟨y, hy, hgreat', hord', hvote'⟩ := hr'
      have hxy : y = x := hdist y hy.1 x hx.1 (hgreat'.unique hgreat)
      subst hxy
      rw [← hord] at hord'
      rw [← hvote] at hvote'
      obtain ⟨ts, id, vote⟩ := r
      obtain ⟨ts', id', vote'⟩ := r'
      simp only [EmbeddingLike.apply_eq_iff_eq, Prod.mk.injEq] at hord'
      simp_all

/-- **The vote aggregate equals the retained winners.**  After any list of payloads, in any order,
with repetitions and with malformed votes, every retained row is the newest well-shaped vote of its
voter and key, and the sum of every full target is what those rows give it.  Another list with the
same votes leaves the same rows and the same sums, and no payload of a vote ever meets a row that is
not the projection of a vote. -/
theorem votes_converge (env env' : Env) (ctx ctx' : TxCtx)
    (items items' : List (EventContent × Timestamp)) (hdist : DistinctPayloads items)
    (hcount : (votesOf items).ncard < 2 ^ 63) (hsame : votesOf items' = votesOf items) :
    VoteState (votesOf items) (votePart (projectAll env ctx items)) ∧
      (∀ voter key, voteRow (projectAll env' ctx' items').eventsSingletonsNew voter key =
        voteRow (projectAll env ctx items).eventsSingletonsNew voter key) ∧
      (∀ t, currentSum (projectAll env' ctx' items').socialVoteSums t =
        currentSum (projectAll env ctx items).socialVoteSums t) ∧
      ∀ (c : EventContent) (now : Timestamp), c.event.event.kind = EventKind.SOCIAL_VOTE →
        ∀ e, processEventContentInsertedTx env ctx (projectAll env ctx items) c now ≠
          .error (.db e) := by
  have hstate := projectAll_voteState env ctx items hcount
  have hstate' := projectAll_voteState env' ctx' items' (by rw [hsame]; exact hcount)
  rw [hsame] at hstate'
  have hrows := hstate.row_unique hstate' (by
    rintro x ⟨i, hi, hx⟩ y ⟨j, hj, hy⟩ hord
    obtain ⟨v₁, -, hx₁⟩ := Option.map_eq_some_iff.mp hx
    obtain ⟨v₂, -, hy₁⟩ := Option.map_eq_some_iff.mp hy
    rw [← hx₁, ← hy₁] at hord
    rw [hdist.of_order hi hj hord] at hx
    exact Option.some.inj (hx.symm.trans hy))
  refine ⟨hstate, hrows, fun t => ?_, fun c now hk e => hstate.rows.no_error env ctx now hk e⟩
  -- with the same rows in the place of the first, the first state gives the second sum
  have hmoved : VoteState (votesOf items)
      ⟨(projectAll env ctx items).socialVoteSums,
        (projectAll env' ctx' items').eventsSingletonsNew⟩ := hstate.congr hrows rfl
  exact (hstate'.sum t).trans (hmoved.sum t).symm

end Runs

/-! ## 6. Two targets with one short id

The case for which sums and rows are keyed differently. -/

section Sample

/-- Votes of three bytes: the author and the short id of the target, and the direction. -/
@[reducible] def votePrimitives : Primitives where
  __ := Primitives.reference
  cborSocialVote
    | [author, id, up] => some
        { replyTo := some ⟨toLex (0, author.toNat), id.toNat⟩
          upvote := if up = 0 then none else some (up == 1) }
    | _ => none

attribute [local instance] votePrimitives

def sampleVote (ts : Timestamp) (voter author up : ℕ) : EventContent :=
  ⟨.ofEvent { kind := EventKind.SOCIAL_VOTE, flags := Event.SINGLETON_FLAG, contentLen := 3
              timestamp := ts, keyAux := 7, author := toLex (0, voter)
              contentHash := blake3 [.ofNat author, 7, .ofNat up] },
    some [.ofNat author, 7, .ofNat up]⟩

/-- One voter moves from a target to another with the same short id; a second voter stays. -/
def sampleVotes : List (EventContent × Timestamp) :=
  [(sampleVote 10 1 4 1, 90), (sampleVote 20 2 4 1, 91), (sampleVote 30 1 5 2, 92)]

def sampleVotesBackwards : List (EventContent × Timestamp) :=
  [(sampleVote 30 1 5 2, 80), (sampleVote 10 1 4 1, 81), (sampleVote 20 2 4 1, 82)]

/-- The voter that moves takes his score along, in either order. -/
theorem votes_converge_sampleVotes :
    currentSum (projectAll sampleEnv {} sampleVotes).socialVoteSums ⟨toLex (0, 4), 7⟩ = 1 ∧
      currentSum (projectAll sampleEnv {} sampleVotes).socialVoteSums ⟨toLex (0, 5), 7⟩ = -1 ∧
      ∀ t, currentSum (projectAll sampleEnv {} sampleVotesBackwards).socialVoteSums t =
        currentSum (projectAll sampleEnv {} sampleVotes).socialVoteSums t := by
  refine ⟨by decide +kernel, by decide +kernel, (votes_converge sampleEnv sampleEnv {} {} sampleVotes
    sampleVotesBackwards ?_ ?_ ?_).2.2.1⟩
  · have hids : (sampleVotes.map fun i => i.1.event.id).Nodup := by decide +kernel
    intro i hi j hj hid
    rw [List.inj_on_of_nodup_map hids hi hj hid]
  · have hsub : votesOf sampleVotes ⊆
        {x | x ∈ sampleVotes.filterMap fun i => voteEventOf i.1} := by
      rintro x ⟨i, hi, hx⟩
      exact List.mem_filterMap.mpr ⟨i, hi, hx⟩
    classical
    have hcard := Set.ncard_le_ncard hsub (List.finite_toSet _)
    have hlist : {x | x ∈ sampleVotes.filterMap fun i => voteEventOf i.1}.ncard ≤ 3 := by
      rw [← List.coe_toFinset, Set.ncard_coe_finset]
      exact (List.toFinset_card_le _).trans (List.length_filterMap_le _ _)
    omega
  · ext x
    simp only [votesOf, sampleVotes, sampleVotesBackwards, List.mem_cons, List.not_mem_nil,
      or_false, exists_eq_or_imp, exists_eq_left, Set.mem_ofPred_eq]
    tauto

end Sample

end Rostra.Db
